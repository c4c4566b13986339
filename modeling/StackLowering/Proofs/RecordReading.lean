import StackLowering.Json.Record
import StackLowering.Proofs.DocumentReading
import Mathlib.Data.List.Nodup

/-!
# Reading records of a document

An object of a document whose keys differ is a record in order: each of its members is found under
its name, and nothing but the values of the fields can be wrong with it. Conversely the value of a
record that is read comes from values of its fields that are read.

## Main definitions

* `Fields.Holds` — the fields of a record are the members of a document

## Main results

* `Decoder.record_object`, `Decoder.tagged_object` — a record of a document is read
* `Decoder.list_fragment` — a list of a document is read
* `Decoder.exists_of_record`, `Decoder.exists_of_tagged` — where the value of a record comes from
-/

namespace StackLowering.Json

open Document (fragmentsOfItems fragmentsOfMembers)

variable {α β : Type} {members : List (String × Document)} {name : String} {d : Document}

/-! ### Results -/

section Except

variable {ε : Type} {x : Except ε α} {b : β}

theorem bind_eq_ok_iff {f : α → Except ε β} :
    (x >>= f) = .ok b ↔ ∃ a, x = .ok a ∧ f a = .ok b := by
  cases x <;> simp [bind, Except.bind]

theorem map_eq_ok_iff {f : α → β} : x.map f = .ok b ↔ ∃ a, x = .ok a ∧ f a = b := by
  cases x <;> simp [Except.map]

end Except

/-! ### Members of a document -/

theorem findMember_cons (name key : String) (f : Fragment)
    (rest : List (Option String × Fragment)) :
    findMember name ((some key, f) :: rest)
      = if key = name then some (0, f)
        else (findMember name rest).map fun m => (m.1 + 1, m.2) := by
  by_cases h : key = name
  · simp [findMember, List.findIdx?_cons, h]
  · cases hrest : rest.findIdx? (·.1 == some name) <;>
      simp [findMember, List.findIdx?_cons, h, hrest, Function.comp_def]

/-- A member is found under its name. -/
theorem exists_findMember_eq (hnodup : (members.map Prod.fst).Nodup) (h : (name, d) ∈ members) :
    ∃ place, findMember name (fragmentsOfMembers members) = some (place, d.fragment) := by
  induction members with
  | nil => cases h
  | cons m members ih =>
    obtain ⟨key, d'⟩ := m
    rw [List.map_cons, List.nodup_cons] at hnodup
    rw [fragmentsOfMembers, findMember_cons]
    rcases List.mem_cons.mp h with heq | h
    · cases heq
      exact ⟨0, if_pos rfl⟩
    · obtain ⟨place, hplace⟩ := ih hnodup.2 h
      have hne : key ≠ name := by
        rintro rfl
        exact hnodup.1 (List.mem_map.mpr ⟨_, h, rfl⟩)
      exact ⟨place + 1, by rw [if_neg hne, hplace]; rfl⟩

theorem findMember_eq_none (h : name ∉ members.map Prod.fst) :
    findMember name (fragmentsOfMembers members) = none := by
  induction members with
  | nil => rfl
  | cons m members ih =>
    obtain ⟨key, d⟩ := m
    rw [List.map_cons, List.mem_cons, not_or] at h
    rw [fragmentsOfMembers, findMember_cons, if_neg (Ne.symm h.1), ih h.2]
    rfl

/-- Keys that differ from each other and from those before them are in order. -/
theorem checkKeys_fragmentsOfMembers (fields : List String) (place : Nat) (seen : List String)
    (hnodup : (seen ++ members.map Prod.fst).Nodup) :
    checkKeys fields true place seen (fragmentsOfMembers members) = .value () := by
  induction members generalizing place seen with
  | nil => rfl
  | cons m members ih =>
    obtain ⟨key, d⟩ := m
    rw [List.map_cons, List.nodup_middle] at hnodup
    have hseen : key ∉ seen := fun h => (List.nodup_cons.mp hnodup).1 (by simp [h])
    rw [fragmentsOfMembers, checkKeys, if_neg (fun h => hseen h.2)]
    exact ih (place + 1) (key :: seen) hnodup

namespace Placed

theorem apply_eq_value_iff {f : Placed (α → β)} {x : Placed α} {b : β} :
    apply f x = .value b ↔ ∃ g a, f = .value g ∧ x = .value a ∧ g a = b := by
  cases f <;> cases x <;> simp [apply]
  split <;> simp

theorem map_eq_value {f : α → β} {x : Placed α} {a : α} (hx : x = .value a) :
    f <$> x = .value (f a) := by
  rw [hx]
  rfl

theorem seq_eq_value {f : Placed (α → β)} {g : α → β} {x : Placed α} {a : α}
    (hf : f = .value g) (hx : x = .value a) : f <*> x = .value (g a) := by
  rw [hf, hx]
  rfl

theorem map_eq_value_iff {f : α → β} {x : Placed α} {b : β} :
    f <$> x = .value b ↔ ∃ a, x = .value a ∧ f a = b := by
  simp [apply_eq_value_iff]

theorem seq_eq_value_iff {f : Placed (α → β)} {x : Placed α} {b : β} :
    f <*> x = .value b ↔ ∃ g a, f = .value g ∧ x = .value a ∧ g a = b :=
  apply_eq_value_iff

theorem ofExcept_eq_value_iff {place : Nat} {x : Except ReadError α} {a : α} :
    ofExcept place x = .value a ↔ x = .ok a := by
  cases x <;> simp [ofExcept]

theorem toExcept_eq_ok_iff {x : Placed α} {a : α} : x.toExcept = .ok a ↔ x = .value a := by
  cases x <;> simp [toExcept]

end Placed

theorem Decoder.eq_ok_of_option {decoder : Decoder α} {f : Fragment} {x : Option α}
    (h : decoder.option f = .ok x) : ∀ a ∈ x, decoder f = .ok a := by
  unfold Decoder.option at h
  split at h
  · cases h
    simp
  · obtain ⟨b, hb, rfl⟩ := map_eq_ok_iff.mp h
    rintro a ⟨⟩
    exact hb

/-- What is not absent is read as it is. -/
theorem Decoder.option_eq_ok {decoder : Decoder α} {f : Fragment} {a : α}
    (h : decoder f = .ok a) (hf : f ≠ .null) : decoder.option f = .ok (some a) := by
  rw [Decoder.option, h]
  · rfl
  · exact hf

namespace Fields

/-- The fields of the record are the members of a document. -/
structure Holds (r : Fields) (members : List (String × Document)) : Prop where
  find : ∀ m ∈ members, ∃ place, r.find m.1 = some (place, m.2.fragment)
  missing : ∀ name ∉ members.map Prod.fst, r.find name = none

variable {r : Fields} {decoder : Decoder α} {a : α}

namespace Holds

theorem get (hr : r.Holds members) (hmem : (name, d) ∈ members)
    (h : decoder d.fragment = .ok a) : r.get name decoder = .value a := by
  obtain ⟨place, hplace⟩ := hr.find _ hmem
  simp [Fields.get, hplace, h, Placed.ofExcept]

theorem getOption {x : Option α} (hr : r.Holds members) (hmem : (name, d) ∈ members)
    (h : decoder.option d.fragment = .ok x) : r.getOption name decoder = .value x := by
  obtain ⟨place, hplace⟩ := hr.find _ hmem
  simp [Fields.getOption, hplace, h, Placed.ofExcept]

theorem getOption_of_not_mem (hr : r.Holds members) (h : name ∉ members.map Prod.fst) :
    r.getOption name decoder = .value none := by
  simp [Fields.getOption, hr.missing name h]

end Holds

/-- A record that is written as an object with different keys has the members of the object. -/
theorem read_fragmentsOfMembers {form : RecordForm} {body : Fields → Placed α}
    (hnodup : (members.map Prod.fst).Nodup) (mode : Mode)
    (h : ∀ r : Fields, r.Holds members → body r = .value a) :
    (Fields.mk form (.named (fragmentsOfMembers members) true)).read mode body = .ok a := by
  have hbody := h ⟨form, .named (fragmentsOfMembers members) true⟩
    ⟨fun m hm => exists_findMember_eq hnodup hm, fun _ => findMember_eq_none⟩
  have hkeys : (Fields.mk form (.named (fragmentsOfMembers members) true)).check mode
      = .value () := checkKeys_fragmentsOfMembers _ 0 [] hnodup
  simp [read, hkeys, hbody, Placed.apply, Placed.toExcept]

/-! ### Where the value of a field comes from -/

theorem exists_of_get (h : r.get name decoder = .value a) :
    ∃ f, decoder f = .ok a := by
  unfold get missing at h
  split at h
  · exact ⟨_, Placed.ofExcept_eq_value_iff.mp h⟩
  · split at h <;> cases h

theorem exists_of_getOption {x : Option α}
    (h : r.getOption name decoder = .value x) : ∀ a ∈ x, ∃ f, decoder f = .ok a := by
  unfold getOption at h
  split at h
  · exact fun a ha => ⟨_, Decoder.eq_ok_of_option (Placed.ofExcept_eq_value_iff.mp h) a ha⟩
  · cases h
    simp

theorem body_eq_of_read {mode : Mode} {body : Fields → Placed α}
    (h : r.read mode body = .ok a) : body r = .value a := by
  have hvalue := Placed.toExcept_eq_ok_iff.mp h
  simp only [Placed.seq_def, Placed.map_def, Placed.apply_eq_value_iff] at hvalue
  obtain ⟨_, _, ⟨_, _, hf, -, rfl⟩, ha, rfl⟩ := hvalue
  cases hf
  exact ha

end Fields

namespace Decoder

variable {mode : Mode} {form : RecordForm} {body : Fields → Placed α} {a : α}

/-- A record of a document is read. -/
theorem record_object (hd : d = .object members) (hnodup : (members.map Prod.fst).Nodup)
    (h : ∀ r : Fields, r.Holds members → body r = .value a) :
    record mode form body d.fragment = .ok a :=
  hd ▸ Fields.read_fragmentsOfMembers hnodup mode h

/-- The value of a record comes from its fields. -/
theorem exists_of_record {f : Fragment} (h : record mode form body f = .ok a) :
    ∃ r, body r = .value a := by
  unfold record at h
  split at h
  · exact ⟨_, Fields.body_eq_of_read h⟩
  · exact ⟨_, Fields.body_eq_of_read h⟩
  · cases h

end Decoder

/-! ### Scalars and lists -/

namespace Decoder

theorem integer_fragment {low high n : Int} (hlow : low ≤ n) (hhigh : n ≤ high)
    (expected : String) : integer low high expected (Document.integer n).fragment = .ok n :=
  if_pos ⟨hlow, hhigh⟩

theorem string_fragment (s : String) : string (Document.string s).fragment = .ok s := rfl

theorem int64_fragment (n : Int64) : int64 (Document.integer n.toInt).fragment = .ok n := by
  rw [int64, integer_fragment n.minValue_le_toInt n.toInt_le, Except.map, Int64.ofInt_toInt]

theorem word32_fragment (n : UInt32) : word32 (Document.ofNat n.toNat).fragment = .ok n := by
  have hhigh := n.toNat_lt_size
  rw [word32, Document.ofNat, integer_fragment (by omega) (by omega), Except.map, Int.toNat_natCast,
    UInt32.ofNat_toNat]

theorem word64_fragment (n : UInt64) : word64 (Document.ofNat n.toNat).fragment = .ok n := by
  have hhigh := n.toNat_lt_size
  rw [word64, Document.ofNat, integer_fragment (by omega) (by omega), Except.map, Int.toNat_natCast,
    UInt64.ofNat_toNat]

variable {item : Decoder α} {values : List α}

/-- A list of a document is read, if its items are. -/
theorem list_fragment {toDocument : α → Document}
    (h : ∀ a ∈ values, item (toDocument a).fragment = .ok a) :
    list item (Document.array (values.map toDocument)).fragment = .ok values := by
  have hitems : (fragmentsOfItems (values.map toDocument)).mapM item = .ok values := by
    induction values with
    | nil => rfl
    | cons a values ih =>
      have hrest := ih fun b hb => h b (.tail _ hb)
      rw [List.map_cons, fragmentsOfItems, List.mapM_cons, h a (.head _), hrest]
      rfl
  rw [Document.fragment, list, hitems]
  rfl

theorem exists_of_mapM {items : List Fragment} (h : items.mapM item = .ok values) :
    ∀ a ∈ values, ∃ f, item f = .ok a := by
  induction items generalizing values with
  | nil =>
    cases h
    simp
  | cons f items ih =>
    rw [List.mapM_cons] at h
    obtain ⟨a, ha, h⟩ := bind_eq_ok_iff.mp h
    obtain ⟨rest, hrest, h⟩ := bind_eq_ok_iff.mp h
    cases h
    exact List.forall_mem_cons.mpr ⟨⟨f, ha⟩, ih hrest⟩

/-- The items of a list that is read are read. -/
theorem exists_of_list {f : Fragment} (h : list item f = .ok values) :
    ∀ a ∈ values, ∃ g, item g = .ok a := by
  unfold list at h
  split at h
  · obtain ⟨_, hitems, h⟩ := bind_eq_ok_iff.mp h
    split_ifs at h
    cases h
    exact exists_of_mapM hitems
  · cases h

end Decoder

/-! ### Variants -/

namespace TaggedForm

variable {form : TaggedForm α} {v : Variant α} {mode : Mode} {nesting : Nat} {tag : String}

theorem findTag_of_ne {closed : Bool} {found : Option (Variant α)} {key : String} {f : Fragment}
    {rest : List (Option String × Fragment)} (h : key ≠ tagName) :
    form.findTag mode nesting closed found ((some key, f) :: rest)
      = if f.isComplete nesting then
          (form.findTag mode nesting closed found rest).map fun r => (r.1, (some key, f) :: r.2)
        else .error .malformed := by
  cases found <;> rw [findTag, if_neg h] <;> rfl

/-- Behind the tag every other member is kept. -/
theorem findTag_fragmentsOfMembers (htag : tagName ∉ members.map Prod.fst)
    (hnesting : ∀ m ∈ members, m.2.nesting ≤ nesting) :
    form.findTag mode nesting true (some v) (fragmentsOfMembers members)
      = .ok (v, fragmentsOfMembers members) := by
  induction members with
  | nil => rfl
  | cons m members ih =>
    obtain ⟨key, d⟩ := m
    rw [List.map_cons, List.mem_cons, not_or] at htag
    have hcomplete : d.fragment.isComplete nesting = true :=
      Document.isComplete_fragment.mpr (hnesting _ (.head _))
    have hrest := ih htag.2 fun m hm => hnesting m (.tail _ hm)
    rw [fragmentsOfMembers, findTag_of_ne (Ne.symm htag.1), if_pos hcomplete, hrest]
    rfl

/-- A variant that a tag names is one of the variants. -/
theorem mem_variants_of_variantOf {f : Fragment} (h : form.variantOf mode f = .ok v) :
    v ∈ form.variants := by
  unfold variantOf at h
  split at h
  · split at h
    · rename_i hfind
      cases h
      exact List.mem_of_find?_eq_some hfind
    · cases h
  · split_ifs at h
    split at h
    · rename_i hget
      cases h
      exact List.mem_of_getElem? hget
    · cases h
  · cases h

theorem mem_variants_of_findTag {closed : Bool} {found : Option (Variant α)}
    {ms others : List (Option String × Fragment)} (hfound : ∀ w ∈ found, w ∈ form.variants)
    (h : form.findTag mode nesting closed found ms = .ok (v, others)) : v ∈ form.variants := by
  induction ms generalizing found others with
  | nil =>
    cases found with
    | none =>
      rw [findTag] at h
      split_ifs at h
    | some w =>
      rw [findTag] at h
      split_ifs at h
      cases h
      exact hfound _ rfl
  | cons m ms ih =>
    obtain ⟨key, f⟩ := m
    cases key with
    | none => cases found <;> cases h
    | some key =>
      by_cases hkey : key = tagName
      · cases found with
        | some w =>
          rw [findTag, if_pos hkey] at h
          cases h
        | none =>
          rw [findTag, if_pos hkey] at h
          obtain ⟨w, hw, h⟩ := bind_eq_ok_iff.mp h
          refine ih ?_ h
          rintro _ ⟨⟩
          exact mem_variants_of_variantOf hw
      · rw [findTag_of_ne hkey] at h
        split_ifs at h
        obtain ⟨r, hrest, h⟩ := map_eq_ok_iff.mp h
        cases h
        exact ih hfound hrest

end TaggedForm

namespace Decoder

variable {form : TaggedForm α} {v : Variant α} {mode : Mode} {nesting : Nat} {tag : String} {a : α}

/-- A tagged record of a document is read. -/
theorem tagged_object (hd : d = .tagged tag members)
    (hv : form.variants.find? (·.name == tag) = some v)
    (hnodup : (TaggedForm.tagName :: members.map Prod.fst).Nodup)
    (hnesting : ∀ m ∈ members, m.2.nesting ≤ nesting)
    (h : ∀ r : Fields, r.Holds members → v.body r = .value a) :
    Decoder.tagged mode nesting form d.fragment = .ok a := by
  subst hd
  obtain ⟨htag, hnodup⟩ := List.nodup_cons.mp hnodup
  have hvariant : form.variantOf mode (.string (some tag)) = .ok v := by
    simp [TaggedForm.variantOf, hv]
  have hfind : form.findTag mode nesting true none
      (fragmentsOfMembers (("type", .string tag) :: members)) = .ok (v, fragmentsOfMembers members) := by
    rw [fragmentsOfMembers, TaggedForm.findTag, if_pos (show "type" = TaggedForm.tagName from rfl),
      Document.fragment, hvariant]
    exact TaggedForm.findTag_fragmentsOfMembers htag hnesting
  rw [Document.tagged, Document.fragment, Decoder.tagged, hfind]
  exact Fields.read_fragmentsOfMembers hnodup .buffered h

/-- The value of a tagged record comes from the fields of one of the variants. -/
theorem exists_of_tagged {f : Fragment} (h : Decoder.tagged mode nesting form f = .ok a) :
    ∃ v ∈ form.variants, ∃ r, v.body r = .value a := by
  unfold Decoder.tagged at h
  split at h
  · obtain ⟨⟨v, others⟩, hfind, h⟩ := bind_eq_ok_iff.mp h
    exact ⟨v, TaggedForm.mem_variants_of_findTag (by simp) hfind, _, Fields.body_eq_of_read h⟩
  · cases h
  · obtain ⟨v, hv, h⟩ := bind_eq_ok_iff.mp h
    split_ifs at h
    exact ⟨v, TaggedForm.mem_variants_of_variantOf hv, _, Fields.body_eq_of_read h⟩
  · cases h

end Decoder

end StackLowering.Json
