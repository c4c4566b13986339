import StackLowering.Proofs.Spelling
import Mathlib.Data.List.Forall2

/-!
# Other spellings of a record

The same record can be spelled in several ways. None of them changes what stands for a field: the
spellings differ in the order of members, in members that nobody reads, in whether `null` is
written, and in whether the fields are named or counted.

A member that nobody reads may hold any value that can be written, also a number that is out of
range or a string with half of a surrogate pair, and so may its key. Whether such a record is still
read is a question to its reader: members of a record that is no variant are skipped, so only their
keys have to have a value, but a variant is kept in memory and has to be whole.

Whether a field itself is spelled in another way is the business of whoever reads the fields. The
readers of records are followed here up to a relation between what stands for the fields on one side
and on the other, and a record is read alike on both sides if its fields are.

## Main definitions

* `Shape` — the name of a variant and the fields of a record
* `Shape.Skips` — nobody reads a member with this key
* `Shape.Respells` — another spelling of the same record
* `Shape.Follows` — what stands for the fields is related, field by field

## Main results

* `Shape.Respells.spells` — another spelling leaves what stands for the fields
* `Decoder.record_of_follows`, `Decoder.tagged_of_follows` — a record is read, if its fields are
  read alike and what nobody reads is no obstacle
-/

namespace StackLowering.Json

/-! ### Shapes -/

/-- What a record is: the name of the variant if it is one of several, and its fields in the order
of declaration. -/
structure Shape where
  variant : Option String
  fields : List String

/-- The shape of a variant. -/
def Variant.shape {α : Type} (v : Variant α) : Shape := ⟨some v.name, v.fields⟩

namespace Shape

variable {shape : Shape} {f g : Fragment} {tag : Option Fragment} {slot : String → Fragment}

/-- The tag of a record of this shape, if it has one. -/
def tag? (shape : Shape) : Option Fragment := shape.variant.map fun name => .string (some name)

/-- Another tag of a record of this shape is there if the tag is. -/
theorem isSome_tag {tag' : Option Fragment} (htag' : tag' = tag ∨ tag' = shape.tag?)
    (htag : tag.isSome = shape.variant.isSome) : tag'.isSome = shape.variant.isSome := by
  rcases htag' with rfl | rfl
  · exact htag
  · exact Option.isSome_map ..

/-- The array that spells a record, given the members of an object that does. -/
def positional (shape : Shape) (members : List (Option String × Fragment)) : Fragment :=
  .array (shape.tag?.toList ++ shape.fields.map (slotOf · members)) true

/-- Nobody reads a member with this key: it is no field, and not the tag of a variant. The key may
be one without a value. -/
structure Skips (shape : Shape) (key : Option String) : Prop where
  field : ∀ name ∈ shape.fields, key ≠ some name
  tag : shape.variant.isSome = true → key ≠ some TaggedForm.tagName

/-- Another spelling of the same record. Members stand in another order; a member that nobody reads
is added, with any value, or has its value replaced by any other; `null` is written for a field that
was left out, or is not written any more; or the fields stand in an array and not in an object. -/
inductive Respells (shape : Shape) : Fragment → Fragment → Prop
  | reorder {ms ms' : List (Option String × Fragment)} (h : ms.Perm ms') :
    Respells shape (.object ms true) (.object ms' true)
  | add {ms ms' : List (Option String × Fragment)} {key : Option String} {f : Fragment}
    (hkey : shape.Skips key) :
    Respells shape (.object (ms ++ ms') true) (.object (ms ++ (key, f) :: ms') true)
  | replace {ms ms' : List (Option String × Fragment)} {key : Option String} {f g : Fragment}
    (hkey : shape.Skips key) :
    Respells shape (.object (ms ++ (key, f) :: ms') true) (.object (ms ++ (key, g) :: ms') true)
  | addNull {ms ms' : List (Option String × Fragment)} {name : String}
    (hname : name ∈ shape.fields) (habsent : membersOf name (ms ++ ms') = []) :
    Respells shape (.object (ms ++ ms') true) (.object (ms ++ (some name, .null) :: ms') true)
  | dropNull {ms ms' : List (Option String × Fragment)} {name : String}
    (hname : name ∈ shape.fields) :
    Respells shape (.object (ms ++ (some name, .null) :: ms') true) (.object (ms ++ ms') true)
  | positional {ms : List (Option String × Fragment)} :
    Respells shape (.object ms true) (shape.positional ms)

namespace Respells

/-- Other members spell the same record, if the same stands among them for the tag and for every
field. -/
theorem spells_of_members {ms ms' : List (Option String × Fragment)}
    (hf : (Fragment.object ms true).Spells tag shape.fields slot)
    (htag : tag.isSome = true → ∀ m,
      membersOf TaggedForm.tagName ms = [m] → membersOf TaggedForm.tagName ms' = [m])
    (hslot : ∀ name ∈ shape.fields, ∀ f, Occupies f name ms → Occupies f name ms') :
    (Fragment.object ms' true).Spells tag shape.fields slot := by
  cases hf with
  | object htag' hslot' =>
    exact .object (fun t ht => htag (Option.isSome_of_mem ht) _ (htag' t ht))
      fun name hname => hslot name hname _ (hslot' name hname)

variable {ms ms' : List (Option String × Fragment)} {key : Option String}

/-- A member that stands for nothing can be inserted. -/
theorem spells_insert (hf : (Fragment.object (ms ++ ms') true).Spells tag shape.fields slot)
    (htag : tag.isSome = true → key ≠ some TaggedForm.tagName)
    (hkey : ∀ name ∈ shape.fields, key = some name →
      f = .null ∧ membersOf name (ms ++ ms') = []) :
    (Fragment.object (ms ++ (key, f) :: ms') true).Spells tag shape.fields slot := by
  refine spells_of_members hf (fun hsome m hm => ?_) fun name hname g hg => ?_
  · rwa [membersOf_insert_of_ne (htag hsome)]
  · by_cases hne : key = some name
    · obtain ⟨rfl, habsent⟩ := hkey name hname hne
      subst hne
      rcases hg with ⟨-, rfl⟩ | hg
      · exact occupies_insert_iff.mpr ⟨rfl, habsent⟩
      · rw [habsent] at hg
        cases hg
    · exact hg.congr (membersOf_insert_of_ne hne)

/-- A member that stands for nothing can be left out. -/
theorem spells_erase
    (hf : (Fragment.object (ms ++ (key, f) :: ms') true).Spells tag shape.fields slot)
    (htag : tag.isSome = true → key ≠ some TaggedForm.tagName)
    (hkey : ∀ name ∈ shape.fields, key = some name → f = .null) :
    (Fragment.object (ms ++ ms') true).Spells tag shape.fields slot := by
  refine spells_of_members hf (fun hsome m hm => ?_) fun name hname g hg => ?_
  · rwa [membersOf_insert_of_ne (htag hsome)] at hm
  · by_cases hne : key = some name
    · obtain rfl := hkey name hname hne
      subst hne
      obtain ⟨rfl, habsent⟩ := occupies_insert_iff.mp hg
      exact .inl ⟨habsent, rfl⟩
    · exact hg.congr (membersOf_insert_of_ne hne).symm

/-- Another spelling of a record leaves what stands for its fields. -/
theorem spells (h : shape.Respells f g) (hshape : TaggedForm.tagName ∉ shape.fields)
    (htag : tag.isSome = shape.variant.isSome) (hf : f.Spells tag shape.fields slot) :
    ∃ tag', (tag' = tag ∨ tag' = shape.tag?) ∧ g.Spells tag' shape.fields slot := by
  have hne {name : String} (hname : name ∈ shape.fields) : some name ≠ some TaggedForm.tagName :=
    fun h => hshape (Option.some.inj h ▸ hname)
  cases h with
  | reorder hperm =>
    -- whatever stands once among the members stands once in any order of them
    refine ⟨tag, .inl rfl, spells_of_members hf (fun _ m hm => ?_) fun _ _ _ h => h.perm hperm⟩
    exact (List.singleton_perm.mp (hm ▸ membersOf_perm hperm _)).symm
  | add hkey =>
    exact ⟨tag, .inl rfl, spells_insert hf (fun hsome => hkey.tag (htag ▸ hsome))
      fun name hname h => absurd h (hkey.field name hname)⟩
  | replace hkey =>
    have hskip : tag.isSome = true → _ := fun hsome => hkey.tag (htag ▸ hsome)
    have herased := spells_erase hf hskip fun name hname h => absurd h (hkey.field name hname)
    exact ⟨tag, .inl rfl, spells_insert herased hskip
      fun name hname h => absurd h (hkey.field name hname)⟩
  | addNull hname habsent =>
    refine ⟨tag, .inl rfl, spells_insert hf (fun _ => hne hname) fun _ _ h => ?_⟩
    cases h
    exact ⟨rfl, habsent⟩
  | dropNull hname => exact ⟨tag, .inl rfl, spells_erase hf (fun _ => hne hname) fun _ _ _ => rfl⟩
  | positional =>
    cases hf with
    | object _ hslot =>
      refine ⟨shape.tag?, .inr rfl, .array (by simp) fun name hname => ?_⟩
      rw [← (hslot name hname).slotOf_eq, List.getElem?_map, List.getElem?_idxOf hname]
      rfl

end Respells

end Shape

/-! ### Another fragment for a field -/

namespace Fragment.Spells

variable {fields : List String} {f g : Fragment} {tag : Option Fragment}
  {slot : String → Fragment} {name : String}

/-- The member that stands for a field can be replaced. -/
theorem replaceMember {ms ms' : List (Option String × Fragment)}
    (hf : (Fragment.object (ms ++ (some name, f) :: ms') true).Spells tag fields slot)
    (htag : TaggedForm.tagName ∉ fields) (hname : name ∈ fields) :
    slot name = f ∧
      (Fragment.object (ms ++ (some name, g) :: ms') true).Spells tag fields
        (Function.update slot name g) := by
  have hne : some name ≠ some TaggedForm.tagName := fun h => htag (Option.some.inj h ▸ hname)
  cases hf with
  | object htag' hslot =>
    refine ⟨(occupies_insert_iff.mp (hslot name hname)).1, .object ?_ ?_⟩
    · intro t ht
      rw [← htag' t ht, membersOf_insert_of_ne hne, membersOf_insert_of_ne hne]
    · intro name' hname'
      by_cases heq : name' = name
      · subst heq
        obtain ⟨-, habsent⟩ := occupies_insert_iff.mp (hslot name' hname')
        rw [Function.update_self]
        exact occupies_insert_iff.mpr ⟨rfl, habsent⟩
      · have hother : some name ≠ some name' := fun h => heq (Option.some.inj h).symm
        rw [Function.update_of_ne heq]
        refine (hslot name' hname').congr ?_
        rw [membersOf_insert_of_ne hother, membersOf_insert_of_ne hother]

/-- The item in the place of a field can be replaced. -/
theorem replaceItem {before after : List Fragment} {tag' : Option Fragment}
    (hf : (Fragment.array (tag'.toList ++ before ++ f :: after) true).Spells tag fields slot)
    (htag : tag.isSome = tag'.isSome) (hnodup : fields.Nodup)
    (hname : fields[before.length]? = some name) :
    slot name = f ∧ (Fragment.array (tag'.toList ++ before ++ g :: after) true).Spells tag fields
      (Function.update slot name g) := by
  obtain ⟨hlt, rfl⟩ := List.getElem?_eq_some_iff.mp hname
  have hplace : fields.idxOf fields[before.length] = before.length := hnodup.idxOf_getElem _ hlt
  have hother {name' : String} (hne : name' ≠ fields[before.length]) (hmem : name' ∈ fields) :
      fields.idxOf name' ≠ before.length := by
    intro h
    refine hne ?_
    rw [← List.getElem_idxOf (List.idxOf_lt_length_of_mem hmem)]
    simp only [h]
  have hset : (before ++ f :: after).set before.length g = before ++ g :: after := by simp
  -- the tag of the array and that of the record have one length, so the fields start in one place
  generalize hall : tag'.toList ++ before ++ f :: after = all at hf
  cases hf with
  | @array items hlength hslot =>
    have hlengths : tag'.toList.length = tag.toList.length := by
      cases tag <;> cases tag' <;> simp_all
    rw [List.append_assoc] at hall
    obtain ⟨htags, rfl⟩ := List.append_inj hall hlengths
    rw [htags, List.append_assoc]
    refine ⟨?_, .array (by simpa using hlength) fun name' hname' => ?_⟩
    · rw [hslot _ (List.getElem_mem hlt), hplace]
      simp
    · by_cases hne : name' = fields[before.length]
      · subst hne
        rw [Function.update_self, hplace]
        simp
      · rw [Function.update_of_ne hne, hslot name' hname']
        rw [← hset, List.getElem?_set_ne (Ne.symm (hother hne hname'))]

end Fragment.Spells

/-! ### Fields that are read alike -/

section Follows

variable {α β : Type} {R : String → Fragment → Fragment → Prop} {f g : Fragment} {mode : Mode}
  {a : α}

namespace Placed

/-- Where there is a value on one side, it is on the other too. -/
def Keeps (x y : Placed α) : Prop := ∀ a, x = .value a → y = .value a

theorem Keeps.map {x y : Placed α} (h : x.Keeps y) (f : α → β) : (f <$> x).Keeps (f <$> y) := by
  intro b hb
  obtain ⟨a, ha, rfl⟩ := map_eq_value_iff.mp hb
  exact map_eq_value (h a ha)

theorem Keeps.seq {f g : Placed (α → β)} {x y : Placed α} (hf : f.Keeps g) (hx : x.Keeps y) :
    (f <*> x).Keeps (g <*> y) := by
  intro b hb
  obtain ⟨h, a, hh, ha, rfl⟩ := seq_eq_value_iff.mp hb
  exact seq_eq_value (hf h hh) (hx a ha)

end Placed

/-- What is read from the fields of one record is read from those of another, if what stands for
the fields is related. -/
def Fields.Keeps (R : String → Fragment → Fragment → Prop) (fields : List String)
    (body body' : Fields → Placed α) : Prop :=
  ∀ r r' : Fields, (∀ name ∈ fields, R name (r.slot name) (r'.slot name)) →
    (body r).Keeps (body' r')

/-- A record of this shape is spelled on both sides, and what stands for its fields is related. -/
def Shape.Follows (R : String → Fragment → Fragment → Prop) (shape : Shape) (f g : Fragment) :
    Prop :=
  ∀ tag slot, tag.isSome = shape.variant.isSome → f.Spells tag shape.fields slot →
    ∃ tag' slot', (tag' = tag ∨ tag' = shape.tag?) ∧ g.Spells tag' shape.fields slot' ∧
      ∀ name ∈ shape.fields, R name (slot name) (slot' name)

/-- A record is read, if its fields are read alike and its keys have values. -/
theorem Decoder.record_of_follows {form : RecordForm} {body body' : Fields → Placed α}
    (hbody : Fields.Keeps R form.fields body body')
    (hfg : Shape.Follows R ⟨none, form.fields⟩ f g) (hkeys : g.HasKeys)
    (h : record mode form body f = .ok a) : record mode form body' g = .ok a := by
  obtain ⟨-, r, ha, hf⟩ := exists_spells_of_record h
  obtain ⟨tag', slot', htag, hg, hslot⟩ := hfg none r.slot rfl hf
  have hnone : tag' = none := htag.elim id id
  subst hnone
  refine record_of_spells hg hkeys fun r' hr' => hbody r r' (fun name hname => ?_) a ha
  rw [hr' name hname]
  exact hslot name hname

/-- A variant that is read from its fields as another one is. -/
structure Variant.Follows (R : String → Fragment → Fragment → Prop) (v w : Variant α) : Prop where
  name : w.name = v.name
  fields : w.fields = v.fields
  body : Fields.Keeps R v.fields v.body w.body

namespace TaggedForm

variable {form : TaggedForm α} {v : Variant α}

/-- The variants can be told apart, their fields too, and no field is taken for the tag. -/
structure WellFormed (form : TaggedForm α) : Prop where
  names : (form.variants.map Variant.name).Nodup
  fields : ∀ v ∈ form.variants, v.fields.Nodup
  tag : ∀ v ∈ form.variants, tagName ∉ v.fields

theorem variantOf_buffered {t : Fragment} (h : form.variantOf mode t = .ok v) :
    form.variantOf .buffered t = .ok v := by
  cases mode with
  | buffered => exact h
  | streamed =>
    unfold variantOf at h
    split at h
    · exact h
    · simp at h
    · cases h

/-- A variant is found under its name. -/
theorem find?_name {variants : List (Variant α)} (hnames : (variants.map Variant.name).Nodup)
    (hv : v ∈ variants) : variants.find? (·.name == v.name) = some v := by
  induction variants with
  | nil => cases hv
  | cons w variants ih =>
    obtain ⟨hw, hnames⟩ := List.nodup_cons.mp hnames
    rcases List.mem_cons.mp hv with rfl | hv
    · simp
    · have hne : w.name ≠ v.name := fun h => hw (h ▸ List.mem_map_of_mem hv)
      rw [List.find?_cons_of_neg (by simpa using hne), ih hnames hv]

theorem WellFormed.variantOf_string (hform : form.WellFormed) (hv : v ∈ form.variants) :
    form.variantOf mode (.string (some v.name)) = .ok v := by
  rw [variantOf, find?_name hform.names hv]

theorem exists_find?_name {variants : List (Variant α)} {variants' : List (Variant β)}
    {S : Variant α → Variant β → Prop} {tag : String} (hS : ∀ v w, S v w → w.name = v.name)
    (h : List.Forall₂ S variants variants') (hv : variants.find? (·.name == tag) = some v) :
    ∃ w, variants'.find? (·.name == tag) = some w ∧ S v w := by
  induction h with
  | nil => cases hv
  | @cons u w variants variants' huw _ ih =>
    rw [List.find?_cons, hS u w huw]
    rw [List.find?_cons] at hv
    split at hv
    · cases hv
      exact ⟨w, rfl, huw⟩
    · exact ih hv

/-- The same tag picks variants that are related. -/
theorem exists_variantOf {form' : TaggedForm β} {S : Variant α → Variant β → Prop} {t : Fragment}
    (hS : ∀ v w, S v w → w.name = v.name) (hforms : List.Forall₂ S form.variants form'.variants)
    (hv : form.variantOf mode t = .ok v) : ∃ w, form'.variantOf mode t = .ok w ∧ S v w := by
  unfold variantOf at hv
  split at hv
  case h_1 tag =>
    split at hv
    case h_1 u hfind =>
      cases hv
      obtain ⟨w, hw, hvw⟩ := exists_find?_name hS hforms hfind
      exact ⟨w, by rw [variantOf, hw], hvw⟩
    case h_2 => cases hv
  case h_2 n =>
    split_ifs at hv with hn
    split at hv
    case h_1 u hget =>
      cases hv
      obtain ⟨hlt, rfl⟩ := List.getElem?_eq_some_iff.mp hget
      have hlt' : n.toNat < form'.variants.length := hforms.length_eq ▸ hlt
      have hvw := hforms.get hlt hlt'
      have hw := List.getElem?_eq_getElem hlt'
      refine ⟨_, ?_, hvw⟩
      rw [variantOf, if_pos hn, hw]
      rfl
    case h_2 => cases hv
  case h_3 => cases hv

/-- The shape of the variant that a tag names. -/
def shape? (form : TaggedForm α) (tag : Fragment) : Option Shape :=
  (form.variantOf .buffered tag).toOption.map Variant.shape

variable {t : Fragment} {shape : Shape}

theorem exists_of_shape? (h : form.shape? t = some shape) :
    ∃ v, form.variantOf .buffered t = .ok v ∧ v.shape = shape := by
  unfold shape? at h
  cases hv : form.variantOf .buffered t with
  | error e =>
    rw [hv] at h
    cases h
  | ok v =>
    rw [hv] at h
    exact ⟨v, rfl, Option.some.inj h⟩

/-- The same tag names variants of the same shape, however their fields are read. -/
theorem shape?_of_variantOf {form' : TaggedForm β} (hv : form.variantOf .buffered t = .ok v)
    (hforms : form.variants.map Variant.shape = form'.variants.map Variant.shape) :
    form'.shape? t = some v.shape := by
  have hshapes : List.Forall₂ (fun v w => v.shape = w.shape) form.variants form'.variants := by
    refine List.forall₂_map_left_iff.mp (List.forall₂_map_right_iff.mp ?_)
    rw [List.forall₂_eq_eq_eq]
    exact hforms
  obtain ⟨w, hw, hvw⟩ := exists_variantOf
    (fun _ _ h => (Option.some.inj (congrArg Shape.variant h)).symm) hshapes hv
  rw [shape?, hw]
  exact congrArg some hvw.symm

/-- The shape of a variant stays in another fragment that spells it, with the same tag or with its
name. -/
theorem WellFormed.shape?_of_spells (hform : form.WellFormed) {tag tag' : Option Fragment}
    {slot slot' : String → Fragment} (hshape : form.shape? f.tag = some shape)
    (htag : tag.isSome = shape.variant.isSome) (hf : f.Spells tag shape.fields slot)
    (htag' : tag' = tag ∨ tag' = shape.tag?) (hg : g.Spells tag' shape.fields slot') :
    form.shape? g.tag = some shape := by
  obtain ⟨v, hv, rfl⟩ := exists_of_shape? hshape
  obtain ⟨t, rfl⟩ := Option.isSome_iff_exists.mp htag
  rcases htag' with rfl | rfl
  · rw [hg.tag_eq, ← hf.tag_eq]
    exact hshape
  · have hname : g.tag = .string (some v.name) := hg.tag_eq
    rw [hname, shape?, hform.variantOf_string (mem_variants_of_variantOf hv)]
    rfl

end TaggedForm

/-- A variant is read, if its fields are read alike and it is whole. -/
theorem Decoder.tagged_of_follows {form form' : TaggedForm α} {k n : Nat}
    (hforms : List.Forall₂ (Variant.Follows R) form.variants form'.variants)
    (hform : form.WellFormed) (hform' : form'.WellFormed)
    (hfg : ∀ v, form.variantOf .buffered f.tag = .ok v → v.shape.Follows R f g)
    (hwhole : g.IsWhole) (hfits : g.fitsIn (n + 1) = true)
    (h : tagged mode k form f = .ok a) : tagged mode n form' g = .ok a := by
  obtain ⟨v, hv, -, r, ha, hspells⟩ := exists_spells_of_tagged hform.tag h
  obtain ⟨w, hw, hvw⟩ := TaggedForm.exists_variantOf (fun _ _ h => h.name) hforms hv
  obtain ⟨tag', slot', htag, hg, hslot⟩ :=
    hfg v (TaggedForm.variantOf_buffered hv) (some f.tag) r.slot rfl hspells
  have hmem := TaggedForm.mem_variants_of_variantOf hw
  -- the tag was kept, or it was replaced by the name of the variant
  obtain ⟨t, rfl, ht⟩ : ∃ t, tag' = some t ∧ form'.variantOf mode t = .ok w := by
    rcases htag with rfl | rfl
    · exact ⟨f.tag, rfl, hw⟩
    · refine ⟨.string (some v.name), rfl, ?_⟩
      rw [← hvw.name]
      exact hform'.variantOf_string hmem
  refine tagged_of_spells ht (hform'.tag w hmem) (by rwa [hvw.fields])
    (hwhole.isComplete hfits) fun r' hr' => hvw.body r r' (fun name hname => ?_) a ha
  rw [hr' name (hvw.fields ▸ hname)]
  exact hslot name hname

end Follows

/-! ### Lists whose items are read alike -/

theorem forall₂_trans {α : Type} {R : α → α → Prop} (hR : ∀ a b c, R a b → R b c → R a c)
    {xs ys zs : List α} (hxy : List.Forall₂ R xs ys) (hyz : List.Forall₂ R ys zs) :
    List.Forall₂ R xs zs := by
  induction hxy generalizing zs with
  | nil => exact hyz
  | cons hab _ ih =>
    cases hyz with
    | cons hbc hrest => exact .cons (hR _ _ _ hab hbc) (ih hrest)

namespace Decoder

variable {α : Type} {item item' : Decoder α} {fs gs : List Fragment} {values : List α}

theorem exists_of_mem_of_mapM (h : fs.mapM item = .ok values) :
    ∀ f ∈ fs, ∃ a, item f = .ok a := by
  induction fs generalizing values with
  | nil => exact List.forall_mem_nil _
  | cons f fs ih =>
    rw [List.mapM_cons] at h
    obtain ⟨a, ha, h⟩ := bind_eq_ok_iff.mp h
    obtain ⟨rest, hrest, -⟩ := bind_eq_ok_iff.mp h
    exact List.forall_mem_cons.mpr ⟨⟨a, ha⟩, ih hrest⟩

theorem mapM_of_forall₂ (h : List.Forall₂ (fun f g => ∀ a, item f = .ok a → item' g = .ok a) fs gs)
    (hfs : fs.mapM item = .ok values) : gs.mapM item' = .ok values := by
  induction h generalizing values with
  | nil => exact hfs
  | cons hfg _ ih =>
    rw [List.mapM_cons] at hfs ⊢
    obtain ⟨a, ha, hfs⟩ := bind_eq_ok_iff.mp hfs
    obtain ⟨rest, hrest, hfs⟩ := bind_eq_ok_iff.mp hfs
    exact bind_eq_ok_iff.mpr ⟨a, hfg a ha, bind_eq_ok_iff.mpr ⟨rest, ih hrest, hfs⟩⟩

/-- Each item of a list that is read is read. -/
theorem exists_of_mem_inner {f : Fragment} (h : list item f = .ok values) :
    ∀ g ∈ f.inner, ∃ a, item g = .ok a := by
  unfold list at h
  split at h
  · obtain ⟨read, hread, -⟩ := bind_eq_ok_iff.mp h
    exact exists_of_mem_of_mapM hread
  · cases h

/-- A list is read, if each item is. -/
theorem list_of_forall₂ {closed : Bool}
    (h : List.Forall₂ (fun f g => ∀ a, item f = .ok a → item' g = .ok a) fs gs)
    (hfs : list item (.array fs closed) = .ok values) :
    list item' (.array gs closed) = .ok values := by
  obtain ⟨read, hread, hvalues⟩ := bind_eq_ok_iff.mp hfs
  exact bind_eq_ok_iff.mpr ⟨read, mapM_of_forall₂ h hread, hvalues⟩

end Decoder

end StackLowering.Json
