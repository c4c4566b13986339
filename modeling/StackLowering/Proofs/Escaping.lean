import StackLowering.Proofs.LabelText

/-!
# What escaping identifies

Escaping doubles the dollar signs of a name and then writes its underscores as dollar signs. The
second step cannot be taken back, since the first one makes dollar signs as well: two underscores
and one dollar sign come out alike. That is all that is lost. The base of a name tells the name up
to dollar signs that are spelled as two underscores.

Every text without underscores is the base of some name. So a base may end in a dollar sign and
digits, and that no two labels are alike rests on the counters and not on the shape of bases.

## Main definitions

* `Label.replaceChar` — the text with a character written otherwise
* `Label.spelled` — the name with its dollar signs spelled as underscores

## Main results

* `Label.escape_eq_replaceChar` — escaping is one replacement after the other
* `Label.escape_eq_escape_iff` — names with one base are those that are spelled alike
* `Label.exists_escape_eq_iff` — the bases of names are the texts without underscores
* `Label.escaping_laws` — all of it together, and what becomes of the fixed bases
-/

namespace StackLowering

namespace Label

variable {a b s : String}

/-! ### Replacing a character -/

/-- The text with every occurrence of a character written as another text. -/
def replaceChar (s : String) (c : Char) (r : String) : String :=
  String.ofList (s.toList.flatMap fun x => if x = c then r.toList else [x])

@[simp] theorem toList_replaceChar (s : String) (c : Char) (r : String) :
    (replaceChar s c r).toList = s.toList.flatMap fun x => if x = c then r.toList else [x] := by
  rw [replaceChar, String.toList_ofList]

@[simp] theorem toList_escape (a : String) : (escape a).toList = a.toList.flatMap escapeChar := by
  rw [escape, String.toList_ofList]

/-- A text without a character stays as it is when the character is written otherwise. -/
theorem replaceChar_of_not_mem {c : Char} (h : c ∉ s.toList) (r : String) :
    replaceChar s c r = s := by
  rw [← String.toList_inj, toList_replaceChar]
  refine Eq.trans (List.flatMap_congr fun x hx => ?_) (List.flatMap_singleton' s.toList)
  exact if_neg (ne_of_mem_of_not_mem hx h)

/-- Two ways of writing a name agree, if they agree on the two characters that escaping changes and
on all others. -/
theorem flatMap_congr_special {f g : Char → List Char} (hd : f '$' = g '$') (hu : f '_' = g '_')
    (h : ∀ c, c ≠ '$' → c ≠ '_' → f c = g c) (cs : List Char) : cs.flatMap f = cs.flatMap g := by
  refine List.flatMap_congr fun c _ => ?_
  by_cases hcd : c = '$'
  · rw [hcd, hd]
  · by_cases hcu : c = '_'
    · rw [hcu, hu]
    · exact h c hcd hcu

/-- Escaping doubles the dollar signs, and then writes underscores as dollar signs. -/
theorem escape_eq_replaceChar (a : String) :
    escape a = replaceChar (replaceChar a '$' "$$") '_' "$" := by
  rw [← String.toList_inj, toList_escape, toList_replaceChar, toList_replaceChar,
    List.flatMap_assoc]
  refine flatMap_congr_special (by decide) (by decide) (fun c hd hu => ?_) a.toList
  simp [escapeChar, hd, hu]

theorem escape_append (a b : String) : escape (a ++ b) = escape a ++ escape b := by
  rw [← String.toList_inj, toList_escape, String.toList_append, List.flatMap_append,
    String.toList_append, toList_escape, toList_escape]

/-! ### Names with one base -/

/-- The name with its dollar signs spelled as two underscores. -/
def spelled (a : String) : String := replaceChar a '$' "__"

/-- A base tells how its name is spelled. -/
theorem spelled_eq_replaceChar_escape (a : String) :
    spelled a = replaceChar (escape a) '$' "_" := by
  rw [← String.toList_inj, spelled, toList_replaceChar, toList_replaceChar, toList_escape,
    List.flatMap_assoc]
  refine flatMap_congr_special (by decide) (by decide) (fun c hd hu => ?_) a.toList
  simp [escapeChar, hd, hu]

/-- How a name is spelled tells its base. -/
theorem escape_eq_replaceChar_spelled (a : String) :
    escape a = replaceChar (spelled a) '_' "$" := by
  rw [← String.toList_inj, spelled, toList_replaceChar, toList_replaceChar, toList_escape,
    List.flatMap_assoc]
  refine flatMap_congr_special (by decide) (by decide) (fun c hd hu => ?_) a.toList
  simp [escapeChar, hd, hu]

/-- Names have one base exactly when they are spelled alike. -/
theorem escape_eq_escape_iff : escape a = escape b ↔ spelled a = spelled b := by
  constructor
  · intro h
    rw [spelled_eq_replaceChar_escape, h, ← spelled_eq_replaceChar_escape]
  · intro h
    rw [escape_eq_replaceChar_spelled, h, ← escape_eq_replaceChar_spelled]

example : escape "a__" = escape "a$" := by decide

/-! ### The bases of names -/

/-- A text without underscores is the base of the name that has underscores for its dollar
signs. -/
theorem escape_replaceChar_of_not_mem (h : '_' ∉ s.toList) : escape (replaceChar s '$' "_") = s := by
  rw [← String.toList_inj, toList_escape, toList_replaceChar, List.flatMap_assoc]
  refine Eq.trans (List.flatMap_congr fun c hc => ?_) (List.flatMap_singleton' s.toList)
  have hu : c ≠ '_' := ne_of_mem_of_not_mem hc h
  by_cases hd : c = '$' <;> simp [escapeChar, hd, hu]

/-- The bases of names are the texts without underscores. -/
theorem exists_escape_eq_iff : (∃ a, escape a = s) ↔ '_' ∉ s.toList := by
  refine ⟨?_, fun h => ⟨_, escape_replaceChar_of_not_mem h⟩⟩
  rintro ⟨a, rfl⟩
  exact underscore_not_mem_escape a

/-- A label of a function with a name is the base of another name. -/
theorem exists_escape_eq_numbered (a : String) (n : UInt32) :
    ∃ b, escape b = numbered (escape a) n := by
  rw [exists_escape_eq_iff, toList_numbered, List.mem_append, List.mem_cons, not_or, not_or]
  exact ⟨underscore_not_mem_escape a, by decide, not_mem_toDigits rfl n.toNat⟩

/-- A text in which nothing has to be escaped is the base of itself alone. -/
theorem escape_eq_iff_of_not_mem (hd : '$' ∉ s.toList) (hu : '_' ∉ s.toList) :
    escape a = s ↔ a = s := by
  constructor
  · intro h
    have hspelled : spelled a = s := by
      rw [spelled_eq_replaceChar_escape, h, replaceChar_of_not_mem hd]
    -- a dollar sign of the name would be spelled as underscores
    have hname : '$' ∉ a.toList := by
      intro hmem
      rw [← hspelled, spelled, toList_replaceChar, List.mem_flatMap] at hu
      exact hu ⟨'$', hmem, by decide⟩
    rw [← hspelled, spelled, replaceChar_of_not_mem hname]
  · rintro rfl
    rw [escape_eq_replaceChar, replaceChar_of_not_mem hd, replaceChar_of_not_mem hu]

/-- **What escaping identifies and what it can produce.** Names have one base exactly when they are
spelled alike. No base of a name has an underscore, so none is the base of a function without a
name or the label of a program; every text without underscores is a base, and so is every label of
a function with a name. The bases of conditionals belong to no name but themselves. Escaping goes
from the front to the back of a name. -/
theorem escaping_laws :
    (∀ a b, escape a = escape b ↔ spelled a = spelled b) ∧
      (∀ a, '_' ∉ (escape a).toList ∧ escape a ≠ anonymousBase ∧ escape a ≠ main) ∧
      (∀ s, (∃ a, escape a = s) ↔ '_' ∉ s.toList) ∧
      (∀ a n, ∃ b, escape b = numbered (escape a) n) ∧
      (∀ a, (escape a = BranchLabels.thenBase ↔ a = BranchLabels.thenBase) ∧
        (escape a = BranchLabels.elseBase ↔ a = BranchLabels.elseBase) ∧
        (escape a = BranchLabels.endBase ↔ a = BranchLabels.endBase)) ∧
      ∀ a b, escape (a ++ b) = escape a ++ escape b := by
  refine ⟨fun _ _ => escape_eq_escape_iff, fun a => ?_, fun _ => exists_escape_eq_iff,
    exists_escape_eq_numbered, fun a => ?_, escape_append⟩
  · have hmain : escape a ≠ main := by
      intro h
      exact underscore_not_mem_escape a (h ▸ by decide)
    exact ⟨underscore_not_mem_escape a, escape_ne_anonymousBase a, hmain⟩
  · exact ⟨escape_eq_iff_of_not_mem (by decide) (by decide),
      escape_eq_iff_of_not_mem (by decide) (by decide),
      escape_eq_iff_of_not_mem (by decide) (by decide)⟩

end Label

end StackLowering
