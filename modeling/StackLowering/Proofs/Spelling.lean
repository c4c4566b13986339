import StackLowering.Proofs.RecordReading
import Mathlib.Data.List.Perm.Basic

/-!
# How records are spelled

A record is read from an object or from an array, and what is read depends on little of either: on
what stands for each of the fields, and for a variant on the tag. The order of members does not
matter, nor do members that are no fields, and a field that may be left out can as well be `null`.

Said once as a predicate on fragments, this takes the place of the readers: a record is read exactly
from the fragments that spell one, and a change of a fragment has to be followed through the
predicate only.

A spelling says nothing about the members that are no fields. What their reader asks of them is kept
apart from it: of a record that is no variant only that the keys have values, and of a variant,
which is kept in memory, that all of it is whole.

## Main definitions

* `Fragment.fitsIn` — no more than so many brackets are open at once
* `Fragment.IsWhole` — a whole value
* `Fragment.HasKeys` — every key has a value
* `Fields.slot` — what stands for a field
* `Fragment.Spells` — a fragment spells a record, with a tag and with these fragments for its fields

## Main results

* `Decoder.exists_spells_of_record`, `Decoder.record_of_spells` — records and their spellings
* `Decoder.exists_spells_of_tagged`, `Decoder.tagged_of_spells` — variants and their spellings
-/

namespace StackLowering.Json

variable {α : Type} {members : List (Option String × Fragment)} {name : String}

/-! ### Brackets -/

namespace Fragment

variable {f : Fragment} {items : List Fragment} {closed : Bool} {k n : Nat}

/-- No more than so many brackets are open at once. -/
def fitsIn : Nat → Fragment → Bool
  | _, broken | _, null | _, bool _ | _, number _ | _, string _ => true
  | nesting + 1, array items _ => items.all (fitsIn nesting)
  | nesting + 1, object members _ => members.all fun m => fitsIn nesting m.2
  | 0, array .. | 0, object .. => false

theorem fitsIn_array : (array items closed).fitsIn n = true ↔
    ∃ k, n = k + 1 ∧ ∀ f ∈ items, f.fitsIn k = true := by
  cases n <;> simp [fitsIn]

theorem fitsIn_object : (object members closed).fitsIn n = true ↔
    ∃ k, n = k + 1 ∧ ∀ m ∈ members, m.2.fitsIn k = true := by
  cases n <;> simp [fitsIn]

theorem isComplete_array : (array items closed).isComplete n = true ↔
    ∃ k, n = k + 1 ∧ closed = true ∧ ∀ f ∈ items, f.isComplete k = true := by
  cases n <;> simp [isComplete]

theorem isComplete_object : (object members closed).isComplete n = true ↔
    ∃ k, n = k + 1 ∧ closed = true ∧
      ∀ m ∈ members, m.1.isSome = true ∧ m.2.isComplete k = true := by
  cases n <;> simp [isComplete]

/-- An object or an array. -/
def isBracketed : Fragment → Bool
  | array .. | object .. => true
  | _ => false

theorem exists_of_isBracketed (hf : f.isBracketed = true) (hfits : f.fitsIn n = true) :
    ∃ k, n = k + 1 := by
  cases n with
  | zero => cases f <;> simp_all [isBracketed, fitsIn]
  | succ k => exact ⟨k, rfl⟩

/-- There is a bound for every fragment. -/
theorem fitsIn_of_sizeOf_le (h : sizeOf f ≤ n) : f.fitsIn n = true := by
  induction n generalizing f with
  | zero => cases f <;> simp at h
  | succ n ih =>
    cases f with
    | array items closed =>
      refine fitsIn_array.mpr ⟨n, rfl, fun g hg => ih ?_⟩
      have := List.sizeOf_lt_of_mem hg
      rw [array.sizeOf_spec] at h
      omega
    | object members closed =>
      refine fitsIn_object.mpr ⟨n, rfl, fun m hm => ih ?_⟩
      have := List.sizeOf_lt_of_mem hm
      cases m
      simp only [object.sizeOf_spec, Prod.mk.sizeOf_spec] at *
      omega
    | _ => rfl

/-- A whole value is one under every bound on the brackets that holds of it. -/
theorem isComplete_of_fitsIn (hf : f.isComplete k = true) (hn : f.fitsIn n = true) :
    f.isComplete n = true := by
  induction n generalizing f k with
  | zero => cases f <;> cases k <;> simp_all [fitsIn, isComplete]
  | succ n ih =>
    cases f with
    | array items closed =>
      obtain ⟨k, rfl, hclosed, hitems⟩ := isComplete_array.mp hf
      obtain ⟨_, ⟨⟩, hfits⟩ := fitsIn_array.mp hn
      exact isComplete_array.mpr ⟨n, rfl, hclosed, fun f hf => ih (hitems f hf) (hfits f hf)⟩
    | object members closed =>
      obtain ⟨k, rfl, hclosed, hmembers⟩ := isComplete_object.mp hf
      obtain ⟨_, ⟨⟩, hfits⟩ := fitsIn_object.mp hn
      exact isComplete_object.mpr ⟨n, rfl, hclosed, fun m hm =>
        ⟨(hmembers m hm).1, ih (hmembers m hm).2 (hfits m hm)⟩⟩
    | _ => cases k <;> simp_all [isComplete]

/-- The fragment is a whole value, however many brackets are open in it. -/
def IsWhole (f : Fragment) : Prop := ∃ n, f.isComplete n = true

theorem IsWhole.isComplete (hf : f.IsWhole) (hn : f.fitsIn n = true) : f.isComplete n = true := by
  obtain ⟨k, hk⟩ := hf
  exact isComplete_of_fitsIn hk hn

theorem isWhole_array :
    (array items closed).IsWhole ↔ closed = true ∧ ∀ f ∈ items, f.IsWhole := by
  constructor
  · rintro ⟨n, hn⟩
    obtain ⟨k, -, hclosed, hitems⟩ := isComplete_array.mp hn
    exact ⟨hclosed, fun f hf => ⟨k, hitems f hf⟩⟩
  · rintro ⟨hclosed, hitems⟩
    obtain ⟨k, hk, hfits⟩ :=
      fitsIn_array.mp (fitsIn_of_sizeOf_le (f := array items closed) (Nat.le_refl _))
    exact ⟨_, isComplete_array.mpr
      ⟨k, hk, hclosed, fun f hf => (hitems f hf).isComplete (hfits f hf)⟩⟩

theorem isWhole_object : (object members closed).IsWhole ↔
    closed = true ∧ ∀ m ∈ members, m.1.isSome = true ∧ m.2.IsWhole := by
  constructor
  · rintro ⟨n, hn⟩
    obtain ⟨k, -, hclosed, hmembers⟩ := isComplete_object.mp hn
    exact ⟨hclosed, fun m hm => ⟨(hmembers m hm).1, k, (hmembers m hm).2⟩⟩
  · rintro ⟨hclosed, hmembers⟩
    obtain ⟨k, hk, hfits⟩ :=
      fitsIn_object.mp (fitsIn_of_sizeOf_le (f := object members closed) (Nat.le_refl _))
    exact ⟨_, isComplete_object.mpr ⟨k, hk, hclosed, fun m hm =>
      ⟨(hmembers m hm).1, (hmembers m hm).2.isComplete (hfits m hm)⟩⟩⟩

/-- Every key of an object has a value. -/
def HasKeys : Fragment → Prop
  | object members _ => ∀ m ∈ members, m.1.isSome = true
  | _ => True

theorem IsWhole.hasKeys (hf : f.IsWhole) : f.HasKeys := by
  cases f with
  | object members closed => exact fun m hm => ((isWhole_object.mp hf).2 m hm).1
  | _ => trivial

/-- What stands inside of the outermost bracket. -/
def inner : Fragment → List Fragment
  | array items _ => items
  | object members _ => members.map Prod.snd
  | _ => []

theorem fitsIn_inner (hf : f.fitsIn (n + 1) = true) : ∀ g ∈ f.inner, g.fitsIn n = true := by
  cases f with
  | array items closed =>
    obtain ⟨_, ⟨⟩, hitems⟩ := fitsIn_array.mp hf
    exact hitems
  | object members closed =>
    obtain ⟨_, ⟨⟩, hmembers⟩ := fitsIn_object.mp hf
    exact List.forall_mem_map.mpr hmembers
  | _ => exact List.forall_mem_nil _

theorem IsWhole.inner (hf : f.IsWhole) : ∀ g ∈ f.inner, g.IsWhole := by
  cases f with
  | array items closed => exact (isWhole_array.mp hf).2
  | object members closed =>
    exact List.forall_mem_map.mpr fun m hm => ((isWhole_object.mp hf).2 m hm).2
  | _ => exact List.forall_mem_nil _

end Fragment

/-! ### Members with a key -/

/-- The members with a key. -/
def membersOf (name : String) (members : List (Option String × Fragment)) :
    List (Option String × Fragment) :=
  members.filter (·.1 == some name)

@[simp] theorem membersOf_nil (name : String) : membersOf name [] = [] := rfl

theorem membersOf_cons (name : String) (m : Option String × Fragment)
    (rest : List (Option String × Fragment)) : membersOf name (m :: rest)
      = if m.1 = some name then m :: membersOf name rest else membersOf name rest := by
  simp [membersOf, List.filter_cons]

@[simp] theorem membersOf_append (name : String) (ms ms' : List (Option String × Fragment)) :
    membersOf name (ms ++ ms') = membersOf name ms ++ membersOf name ms' :=
  List.filter_append ..

theorem membersOf_perm {members' : List (Option String × Fragment)} (h : members.Perm members')
    (name : String) : (membersOf name members).Perm (membersOf name members') :=
  h.filter _

theorem membersOf_insert_of_ne {key : Option String} {f : Fragment}
    {ms ms' : List (Option String × Fragment)} (h : key ≠ some name) :
    membersOf name (ms ++ (key, f) :: ms') = membersOf name (ms ++ ms') := by
  simp [membersOf_cons, h]

theorem membersOf_insert_self {f : Fragment} {ms ms' : List (Option String × Fragment)} :
    membersOf name (ms ++ (some name, f) :: ms')
      = membersOf name ms ++ (some name, f) :: membersOf name ms' := by
  simp [membersOf_cons]

theorem eq_of_mem_membersOf {m : Option String × Fragment} (h : m ∈ membersOf name members) :
    m = (some name, m.2) := by
  obtain ⟨key, f⟩ := m
  have hkey : key = some name := by simpa using (List.mem_filter.mp h).2
  rw [hkey]

/-- What stands for a field among members; `null` if nothing does. -/
def slotOf (name : String) (members : List (Option String × Fragment)) : Fragment :=
  ((membersOf name members).head?.map Prod.snd).getD .null

/-- What stands for a field stands among the members, unless nothing does. -/
theorem slotOf_eq_null_or_mem (name : String) (members : List (Option String × Fragment)) :
    slotOf name members = .null ∨ slotOf name members ∈ members.map Prod.snd := by
  rcases hms : membersOf name members with _ | ⟨m, rest⟩
  · exact .inl (by simp [slotOf, hms])
  · have hm : m ∈ members := List.mem_of_mem_filter (hms ▸ List.mem_cons_self)
    exact .inr (by simpa [slotOf, hms] using ⟨_, hm⟩)

theorem map_snd_findMember (name : String) (members : List (Option String × Fragment)) :
    (findMember name members).map Prod.snd = (membersOf name members).head?.map Prod.snd := by
  rw [membersOf, List.head?_filter, List.find?_eq_bind_findIdx?_getElem?, findMember,
    Option.map_bind, Option.map_bind]
  congr 1
  funext i
  simp [Function.comp_def]

/-- The fragment stands for a field among members, and the field stands there once at most; `null`
stands for a field that is not there. -/
def Occupies (f : Fragment) (name : String) (members : List (Option String × Fragment)) : Prop :=
  membersOf name members = [] ∧ f = .null ∨ membersOf name members = [(some name, f)]

theorem occupies_slotOf (h : (membersOf name members).length ≤ 1) :
    Occupies (slotOf name members) name members := by
  rcases hms : membersOf name members with _ | ⟨m, _ | ⟨m', rest⟩⟩
  · exact .inl ⟨hms, by simp [slotOf, hms]⟩
  · have hm := eq_of_mem_membersOf (hms ▸ List.mem_singleton_self m)
    rw [hm] at hms
    refine .inr ?_
    rw [slotOf, hms]
    rfl
  · simp [hms] at h

namespace Occupies

variable {f : Fragment}

theorem length_le (h : Occupies f name members) : (membersOf name members).length ≤ 1 := by
  rcases h with ⟨h, -⟩ | h <;> simp [h]

theorem slotOf_eq (h : Occupies f name members) : slotOf name members = f := by
  rcases h with ⟨h, rfl⟩ | h <;> simp [slotOf, h]

theorem congr {members' : List (Option String × Fragment)} (h : Occupies f name members)
    (heq : membersOf name members' = membersOf name members) : Occupies f name members' := by
  rwa [Occupies, heq]

theorem perm {members' : List (Option String × Fragment)} (h : Occupies f name members)
    (hperm : members.Perm members') : Occupies f name members' := by
  have hname := membersOf_perm hperm name
  rcases h with ⟨h, hf⟩ | h <;> rw [h] at hname
  · exact .inl ⟨List.nil_perm.mp hname, hf⟩
  · exact .inr (List.singleton_perm.mp hname).symm

end Occupies

/-- A member stands for its field where no other does. -/
theorem occupies_insert_iff {f g : Fragment} {ms ms' : List (Option String × Fragment)} :
    Occupies g name (ms ++ (some name, f) :: ms') ↔ g = f ∧ membersOf name (ms ++ ms') = [] := by
  rw [Occupies, membersOf_insert_self, membersOf_append]
  rcases membersOf name ms with _ | ⟨m, rest⟩
  · simp [eq_comm (a := f)]
  · simp

/-- Keys are in order when each is a string and no field stands twice. -/
theorem checkKeys_eq_value_iff {fields seen : List String} {closed : Bool} {place : Nat} :
    checkKeys fields closed place seen members = .value () ↔
      closed = true ∧ (∀ m ∈ members, m.1.isSome = true) ∧
        ∀ name ∈ fields, (membersOf name members).length + (if name ∈ seen then 1 else 0) ≤ 1 := by
  induction members generalizing place seen with
  | nil =>
    have hseen (name : String) : (if name ∈ seen then 1 else 0) ≤ 1 := by split_ifs <;> decide
    cases closed <;> simp [checkKeys, hseen]
  | cons m rest ih =>
    obtain ⟨_ | key, f⟩ := m
    · simp [checkKeys]
    · rw [checkKeys, List.forall_mem_cons]
      split_ifs with hkey
      · refine iff_of_false (by simp) fun h => ?_
        have hlength := h.2.2 key hkey.1
        rw [membersOf_cons, if_pos rfl, if_pos hkey.2, List.length_cons] at hlength
        omega
      · rw [ih]
        have hfield : ∀ name ∈ fields,
            (membersOf name rest).length + (if name ∈ key :: seen then 1 else 0) ≤ 1 ↔
              (membersOf name ((some key, f) :: rest)).length
                + (if name ∈ seen then 1 else 0) ≤ 1 := by
          intro name hname
          by_cases hne : key = name
          · subst hne
            have hseen : key ∉ seen := fun h => hkey ⟨hname, h⟩
            simp [membersOf_cons, hseen]
          · simp [membersOf_cons, hne, Ne.symm hne]
        rw [forall₂_congr hfield]
        simp

/-! ### Fields and what stands for them -/

namespace Fields

variable {r : Fields}

/-- What stands for a field of a record; `null` if nothing does. -/
def slot (r : Fields) (name : String) : Fragment := ((r.find name).map Prod.snd).getD .null

theorem slot_named (form : RecordForm) (members : List (Option String × Fragment))
    (closed : Bool) (name : String) :
    slot ⟨form, .named members closed⟩ name = slotOf name members := by
  rw [slot, find, map_snd_findMember, slotOf]

theorem slot_positional (form : RecordForm) (items : List Fragment) (closed : Bool)
    (name : String) :
    slot ⟨form, .positional items closed⟩ name = items[form.fields.idxOf name]?.getD .null := by
  simp [slot, find, Function.comp_def]

theorem read_eq_ok_iff {mode : Mode} {body : Fields → Placed α} {a : α} :
    r.read mode body = .ok a ↔ r.check mode = .value () ∧ body r = .value a := by
  rw [read, Placed.toExcept_eq_ok_iff, Placed.seq_eq_value_iff]
  simp only [Placed.map_eq_value_iff]
  constructor
  · rintro ⟨_, _, ⟨⟨⟩, hcheck, rfl⟩, hbody, rfl⟩
    exact ⟨hcheck, hbody⟩
  · rintro ⟨hcheck, hbody⟩
    exact ⟨_, a, ⟨(), hcheck, rfl⟩, hbody, rfl⟩

theorem check_positional_eq_value_iff {form : RecordForm} {items : List Fragment} {closed : Bool}
    {mode : Mode} : check ⟨form, .positional items closed⟩ mode = .value () ↔
      closed = true ∧ items.length ≤ form.fields.length := by
  simp only [check]
  split_ifs <;> simp_all

/-- A field is read from what stands for it, if its decoder refuses `null`. -/
theorem get_eq_value_iff {decoder : Decoder α} {a : α} (hnull : decoder .null ≠ .ok a) :
    r.get name decoder = .value a ↔ decoder (r.slot name) = .ok a := by
  cases hfind : r.find name with
  | none =>
    have hmissing : r.missing name ≠ .value a := by
      unfold missing
      split <;> simp
    simp [get, slot, hfind, hmissing, hnull]
  | some x => simp [get, slot, hfind, Placed.ofExcept_eq_value_iff]

/-- A field that may be left out is read from what stands for it. -/
theorem getOption_eq_value_iff {decoder : Decoder α} {x : Option α} :
    r.getOption name decoder = .value x ↔ decoder.option (r.slot name) = .ok x := by
  cases hfind : r.find name with
  | none => simp [getOption, slot, hfind, Decoder.option]
  | some y => simp [getOption, slot, hfind, Placed.ofExcept_eq_value_iff]

end Fields

/-! ### Spellings -/

/-- The fragment spells a record: an object in which the fields stand under their names, once at
most, or an array in which they stand in the order of their declaration. The tag of a variant is a
member of the object and the first item of the array. -/
inductive Fragment.Spells (tag : Option Fragment) (fields : List String)
    (slot : String → Fragment) : Fragment → Prop
  | object {members : List (Option String × Fragment)}
    (htag : ∀ t ∈ tag, membersOf TaggedForm.tagName members = [(some TaggedForm.tagName, t)])
    (hslot : ∀ name ∈ fields, Occupies (slot name) name members) :
    Spells tag fields slot (.object members true)
  | array {items : List Fragment} (hlength : items.length ≤ fields.length)
    (hslot : ∀ name ∈ fields, slot name = items[fields.idxOf name]?.getD .null) :
    Spells tag fields slot (.array (tag.toList ++ items) true)

namespace Fragment

variable {f : Fragment} {tag : Option Fragment} {fields : List String} {slot : String → Fragment}

/-- What stands for a field of a record that is no variant; `null` if nothing does. -/
def field (fields : List String) (name : String) : Fragment → Fragment
  | object members _ => slotOf name members
  | array items _ => items[fields.idxOf name]?.getD null
  | _ => null

theorem field_eq_null_or_mem (fields : List String) (name : String) (f : Fragment) :
    f.field fields name = null ∨ f.field fields name ∈ f.inner := by
  cases f with
  | object members closed => exact slotOf_eq_null_or_mem name members
  | array items closed =>
    rw [field, inner]
    cases hitem : items[fields.idxOf name]? with
    | none => exact .inl rfl
    | some g => exact .inr (List.mem_of_getElem? hitem)
  | _ => exact .inl rfl

theorem IsWhole.field (hf : f.IsWhole) (fields : List String) (name : String) :
    (f.field fields name).IsWhole := by
  rcases f.field_eq_null_or_mem fields name with h | h
  · exact h ▸ ⟨0, rfl⟩
  · exact hf.inner _ h

namespace Spells

theorem field_eq (hf : f.Spells none fields slot) (hname : name ∈ fields) :
    f.field fields name = slot name := by
  cases hf with
  | object _ hslot => exact (hslot name hname).slotOf_eq
  | array _ hslot => exact (hslot name hname).symm

/-- What stands for a field stands inside of the record, unless nothing does. -/
theorem slot_eq_null_or_mem (hf : f.Spells tag fields slot) (hname : name ∈ fields) :
    slot name = null ∨ slot name ∈ f.inner := by
  cases hf with
  | @object members _ hslot =>
    rw [← (hslot name hname).slotOf_eq]
    exact slotOf_eq_null_or_mem name members
  | @array items _ hslot =>
    rw [hslot name hname, inner]
    cases hitem : items[fields.idxOf name]? with
    | none => exact .inl rfl
    | some g => exact .inr (List.mem_append_right _ (List.mem_of_getElem? hitem))

/-- Brackets that are open in what stands for a field are open inside the record. -/
theorem fitsIn_slot {n : Nat} (hf : f.Spells tag fields slot) (h : f.fitsIn (n + 1) = true)
    (hname : name ∈ fields) : (slot name).fitsIn n = true := by
  rcases hf.slot_eq_null_or_mem hname with hnull | hmem
  · rw [hnull, fitsIn]
  · exact fitsIn_inner h _ hmem

theorem isWhole_slot (hf : f.Spells tag fields slot) (h : f.IsWhole) (hname : name ∈ fields) :
    (slot name).IsWhole := by
  rcases hf.slot_eq_null_or_mem hname with hnull | hmem
  · exact hnull ▸ ⟨0, rfl⟩
  · exact h.inner _ hmem

end Spells

end Fragment

namespace Decoder

variable {mode : Mode} {f : Fragment} {a : α} {slot : String → Fragment}

section Record

variable {form : RecordForm} {body : Fields → Placed α}

/-- A record is read from a fragment that spells one. -/
theorem exists_spells_of_record (h : record mode form body f = .ok a) :
    f.HasKeys ∧ ∃ r : Fields, body r = .value a ∧ f.Spells none form.fields r.slot := by
  unfold record at h
  split at h
  · obtain ⟨hcheck, hbody⟩ := Fields.read_eq_ok_iff.mp h
    obtain ⟨rfl, hkeys, hfields⟩ := checkKeys_eq_value_iff.mp hcheck
    refine ⟨hkeys, _, hbody, .object (by simp) fun name hname => ?_⟩
    rw [Fields.slot_named]
    exact occupies_slotOf (by simpa using hfields name hname)
  · obtain ⟨hcheck, hbody⟩ := Fields.read_eq_ok_iff.mp h
    obtain ⟨rfl, hlength⟩ := Fields.check_positional_eq_value_iff.mp hcheck
    exact ⟨trivial, _, hbody, .array hlength fun name _ => Fields.slot_positional ..⟩
  · cases h

/-- A fragment that spells a record is read, if every key has a value. -/
theorem record_of_spells (hf : f.Spells none form.fields slot) (hkeys : f.HasKeys)
    (h : ∀ r : Fields, (∀ name ∈ form.fields, r.slot name = slot name) → body r = .value a) :
    record mode form body f = .ok a := by
  cases hf with
  | @object members _ hslot =>
    refine Fields.read_eq_ok_iff.mpr ⟨checkKeys_eq_value_iff.mpr ⟨rfl, hkeys, ?_⟩, h _ ?_⟩
    · intro name hname
      simpa using (hslot name hname).length_le
    · intro name hname
      rw [Fields.slot_named, (hslot name hname).slotOf_eq]
  | @array items hlength hslot =>
    refine Fields.read_eq_ok_iff.mpr ⟨Fields.check_positional_eq_value_iff.mpr ⟨rfl, hlength⟩,
      h _ fun name hname => ?_⟩
    exact (Fields.slot_positional ..).trans (hslot name hname).symm

end Record

end Decoder

/-! ### Spellings of variants -/

namespace TaggedForm

variable {form : TaggedForm α} {v : Variant α} {mode : Mode} {nesting : Nat}

/-- The members of an object that are not its tag. -/
def untagged (members : List (Option String × Fragment)) : List (Option String × Fragment) :=
  members.filter (·.1 != some tagName)

theorem membersOf_untagged (h : name ≠ tagName) :
    membersOf name (untagged members) = membersOf name members := by
  rw [membersOf, untagged, List.filter_filter]
  refine List.filter_congr fun m _ => ?_
  by_cases hm : m.1 = some name
  · simp [hm, h]
  · simp [hm]

theorem untagged_cons (m : Option String × Fragment) (rest : List (Option String × Fragment)) :
    untagged (m :: rest) = if m.1 = some tagName then untagged rest else m :: untagged rest := by
  by_cases hm : m.1 = some tagName <;> simp [untagged, hm]

/-- Where the search for the tag of an object stands: the variant was found before, or its tag is
among these members. -/
def Finds (form : TaggedForm α) (mode : Mode) (members : List (Option String × Fragment))
    (v : Variant α) : Option (Variant α) → Prop
  | some found => v = found ∧ membersOf tagName members = []
  | none => ∃ t, membersOf tagName members = [(some tagName, t)] ∧ form.variantOf mode t = .ok v

theorem finds_cons_of_ne {found : Option (Variant α)} {key : String} {f : Fragment}
    {rest : List (Option String × Fragment)} (h : key ≠ tagName) :
    form.Finds mode ((some key, f) :: rest) v found ↔ form.Finds mode rest v found := by
  cases found <;> simp [Finds, membersOf_cons, h]

/-- The tag of an object is found when one of its variants is named there, once, and everything else
is whole. -/
theorem findTag_eq_ok_iff {closed : Bool} {found : Option (Variant α)}
    {others : List (Option String × Fragment)} :
    form.findTag mode nesting closed found members = .ok (v, others) ↔
      closed = true ∧ (∀ m ∈ members, m.1.isSome = true) ∧
        (∀ m ∈ untagged members, m.2.isComplete nesting = true) ∧
        form.Finds mode members v found ∧ untagged members = others := by
  induction members generalizing found others with
  | nil =>
    cases found with
    | none => cases closed <;> simp [findTag, Finds]
    | some w =>
      cases closed
      · simp [findTag]
      · simp [findTag, Finds, untagged, eq_comm (a := v)]
  | cons m rest ih =>
    obtain ⟨_ | key, f⟩ := m
    · cases found <;> simp [findTag]
    by_cases hkey : key = tagName
    · subst hkey
      cases found with
      | some w => simp [findTag, Finds, membersOf_cons]
      | none =>
        rw [findTag, if_pos rfl, untagged_cons, if_pos rfl, List.forall_mem_cons]
        simp only [bind_eq_ok_iff, ih]
        constructor
        · rintro ⟨w, hw, hclosed, hkeys, hwhole, ⟨rfl, hrest⟩, hothers⟩
          refine ⟨hclosed, ⟨rfl, hkeys⟩, hwhole, ⟨f, ?_, hw⟩, hothers⟩
          rw [membersOf_cons, if_pos rfl, hrest]
        · rintro ⟨hclosed, hkeys, hwhole, ⟨t, ht, hv⟩, hothers⟩
          rw [membersOf_cons, if_pos rfl] at ht
          obtain ⟨⟨⟩, hrest⟩ := List.cons_eq_cons.mp ht
          exact ⟨v, hv, hclosed, hkeys.2, hwhole, ⟨rfl, hrest⟩, hothers⟩
    · have hne : (some key, f).1 ≠ some tagName := fun h => hkey (Option.some.inj h)
      rw [findTag_of_ne hkey, finds_cons_of_ne hkey, untagged_cons, if_neg hne,
        List.forall_mem_cons, List.forall_mem_cons]
      split_ifs with hf
      · simp only [map_eq_ok_iff]
        constructor
        · rintro ⟨⟨w, ms⟩, hrest, heq⟩
          cases heq
          obtain ⟨hclosed, hkeys, hwhole, hfinds, hms⟩ := ih.mp hrest
          exact ⟨hclosed, ⟨rfl, hkeys⟩, ⟨hf, hwhole⟩, hfinds, congrArg _ hms⟩
        · rintro ⟨hclosed, hkeys, hwhole, hfinds, rfl⟩
          exact ⟨(v, untagged rest),
            ih.mpr ⟨hclosed, hkeys.2, hwhole.2, hfinds, rfl⟩, rfl⟩
      · exact iff_of_false (by simp) fun h => hf h.2.2.1.1

theorem isComplete_of_variantOf {t : Fragment} (h : form.variantOf mode t = .ok v) :
    t.isComplete nesting = true := by
  unfold variantOf at h
  split at h
  · simp [Fragment.isComplete]
  · simp [Fragment.isComplete]
  · cases h

/-- An object is whole, if its tag and everything else are. -/
theorem forall_isComplete_of_untagged {t : Fragment}
    (ht : membersOf tagName members = [(some tagName, t)]) (htag : t.isComplete nesting = true)
    (h : ∀ m ∈ untagged members, m.2.isComplete nesting = true) :
    ∀ m ∈ members, m.2.isComplete nesting = true := by
  intro m hm
  by_cases hkey : m.1 = some tagName
  · have hmem : m ∈ membersOf tagName members := List.mem_filter.mpr ⟨hm, by simp [hkey]⟩
    rw [ht, List.mem_singleton] at hmem
    rw [hmem]
    exact htag
  · exact h m (List.mem_filter.mpr ⟨hm, by simp [hkey]⟩)

end TaggedForm

namespace Fragment

/-- The tag of a record: the member of an object, or the first item of an array. -/
def tag : Fragment → Fragment
  | object members _ => slotOf TaggedForm.tagName members
  | array (t :: _) _ => t
  | _ => null

theorem Spells.tag_eq {t f : Fragment} {fields : List String} {slot : String → Fragment}
    (h : f.Spells (some t) fields slot) : f.tag = t := by
  cases h with
  | object htag _ => exact Occupies.slotOf_eq (.inr (htag t rfl))
  | array => rfl

end Fragment

namespace Decoder

variable {mode : Mode} {nesting : Nat} {form : TaggedForm α} {v : Variant α} {f t : Fragment}
  {a : α} {slot : String → Fragment}

/-- A variant is read from a fragment that spells one. -/
theorem exists_spells_of_tagged (hform : ∀ v ∈ form.variants, TaggedForm.tagName ∉ v.fields)
    (h : tagged mode nesting form f = .ok a) :
    ∃ v, form.variantOf mode f.tag = .ok v ∧ f.IsWhole ∧
      ∃ r : Fields, v.body r = .value a ∧ f.Spells (some f.tag) v.fields r.slot := by
  unfold tagged at h
  split at h
  case h_1 members closed =>
    obtain ⟨⟨v, others⟩, hfind, hread⟩ := bind_eq_ok_iff.mp h
    obtain ⟨rfl, hkeys, hwhole, ⟨t, ht, hv⟩, rfl⟩ := TaggedForm.findTag_eq_ok_iff.mp hfind
    obtain ⟨hcheck, hbody⟩ := Fields.read_eq_ok_iff.mp hread
    obtain ⟨-, -, hfields⟩ := checkKeys_eq_value_iff.mp hcheck
    have hmem := TaggedForm.mem_variants_of_variantOf hv
    have htag : (Fragment.object members true).tag = t := Occupies.slotOf_eq (.inr ht)
    have hmembers := TaggedForm.forall_isComplete_of_untagged ht
      (TaggedForm.isComplete_of_variantOf hv) hwhole
    rw [htag]
    refine ⟨v, hv, ⟨_, Fragment.isComplete_object.mpr
      ⟨nesting, rfl, rfl, fun m hm => ⟨hkeys m hm, hmembers m hm⟩⟩⟩, _, hbody,
      .object (by simpa using ht) fun name hname => ?_⟩
    have hne : name ≠ TaggedForm.tagName := fun h => hform v hmem (h ▸ hname)
    have hlength := hfields name hname
    rw [Fields.slot_named]
    exact (occupies_slotOf (by simpa using hlength)).congr
      (TaggedForm.membersOf_untagged hne).symm
  case h_2 => cases h
  case h_3 tag items closed =>
    obtain ⟨v, hv, hread⟩ := bind_eq_ok_iff.mp h
    split_ifs at hread with hwhole
    rw [Bool.and_eq_true, List.all_eq_true] at hwhole
    obtain ⟨rfl, hitems⟩ := hwhole
    obtain ⟨hcheck, hbody⟩ := Fields.read_eq_ok_iff.mp hread
    obtain ⟨-, hlength⟩ := Fields.check_positional_eq_value_iff.mp hcheck
    refine ⟨v, hv, ⟨_, Fragment.isComplete_array.mpr
      ⟨nesting, rfl, rfl, List.forall_mem_cons.mpr
        ⟨TaggedForm.isComplete_of_variantOf hv, hitems⟩⟩⟩, _, hbody, ?_⟩
    exact @Fragment.Spells.array (some tag) _ _ _ hlength fun name _ => Fields.slot_positional ..
  case h_4 => cases h

/-- A fragment that spells a variant is read, if it is whole. -/
theorem tagged_of_spells (hv : form.variantOf mode t = .ok v)
    (hform : TaggedForm.tagName ∉ v.fields)
    (hf : f.Spells (some t) v.fields slot) (hwhole : f.isComplete (nesting + 1) = true)
    (h : ∀ r : Fields, (∀ name ∈ v.fields, r.slot name = slot name) → v.body r = .value a) :
    tagged mode nesting form f = .ok a := by
  cases hf with
  | @object members htag hslot =>
    obtain ⟨_, ⟨⟩, -, hmembers⟩ := Fragment.isComplete_object.mp hwhole
    have hkeys : ∀ m ∈ members, m.1.isSome = true := fun m hm => (hmembers m hm).1
    have hfind : form.findTag mode nesting true none members
        = .ok (v, TaggedForm.untagged members) :=
      TaggedForm.findTag_eq_ok_iff.mpr ⟨rfl, hkeys,
        fun m hm => (hmembers m (List.mem_of_mem_filter hm)).2, ⟨t, htag t rfl, hv⟩, rfl⟩
    have hslot : ∀ name ∈ v.fields,
        Occupies (slot name) name (TaggedForm.untagged members) := fun name hname =>
      (hslot name hname).congr (TaggedForm.membersOf_untagged fun h => hform (h ▸ hname))
    rw [tagged, hfind]
    refine Fields.read_eq_ok_iff.mpr ⟨checkKeys_eq_value_iff.mpr
      ⟨rfl, fun m hm => hkeys m (List.mem_of_mem_filter hm), fun name hname => ?_⟩,
      h _ fun name hname => ?_⟩
    · simpa using (hslot name hname).length_le
    · rw [Fields.slot_named, (hslot name hname).slotOf_eq]
  | @array items hlength hslot =>
    obtain ⟨_, ⟨⟩, -, hitems⟩ := Fragment.isComplete_array.mp hwhole
    have hall : items.all (·.isComplete nesting) = true :=
      List.all_eq_true.mpr fun f hf => hitems f (List.mem_append_right _ hf)
    simp only [Option.toList_some, List.singleton_append]
    rw [tagged, hv]
    simp only [bind, Except.bind, hall, Bool.true_and, if_true]
    refine Fields.read_eq_ok_iff.mpr ⟨Fields.check_positional_eq_value_iff.mpr ⟨rfl, hlength⟩,
      h _ fun name hname => ?_⟩
    exact (Fields.slot_positional ..).trans (hslot name hname).symm

end Decoder

end StackLowering.Json
