import StackLowering.Label
import Mathlib.Data.List.Basic
import Std.Data.String.ToNat

/-!
# What the text of a label tells

A label ends in a dollar sign and digits, and digits hold no dollar sign. So the last dollar sign
of a label divides its base from its number, whatever characters the base has.

## Main definitions

* `Label.baseOf`, `Label.numberOf` — what stands in front of the last dollar sign, and behind it

## Main results

* `Label.baseOf_numbered`, `Label.numberOf_numbered` — a label has its base and its number there
* `Label.numbered_inj` — a label determines its base and its number
* `Label.numbered_ne_main` — the label of the program itself has no number
* `Label.lambdaBase_inj` — the base of a function determines its escaped name, or that it has none
-/

namespace StackLowering

namespace Label

variable {base base₁ base₂ : String} {n n₁ n₂ : UInt32}

/-! ### The last dollar sign -/

theorem toList_numbered (base : String) (n : UInt32) :
    (numbered base n).toList = base.toList ++ '$' :: Nat.toDigits 10 n.toNat := by
  simp [numbered, Nat.toString_eq_repr]

theorem not_mem_toDigits {c : Char} (hc : c.isDigit = false) (n : Nat) : c ∉ Nat.toDigits 10 n := by
  intro h
  have hdigit := Nat.isDigit_of_mem_toDigits (by decide) (by decide) h
  exact Bool.false_ne_true (hc.symm.trans hdigit)

/-! ### Reading a label -/

/-- Everything in front of the last dollar sign. -/
def baseOf (label : String) : String :=
  String.ofList (label.toList.reverse.dropWhile (· ≠ '$')).tail.reverse

/-- The number that is written behind the last dollar sign. -/
def numberOf (label : String) : UInt32 :=
  .ofNat ((String.ofList (label.toList.reverse.takeWhile (· ≠ '$')).reverse).toNat?.getD 0)

/-- Read backwards, the last dollar sign is the first one. -/
theorem reverse_toList_numbered (base : String) (n : UInt32) : (numbered base n).toList.reverse
    = (Nat.toDigits 10 n.toNat).reverse ++ '$' :: base.toList.reverse := by
  simp [toList_numbered]

theorem ne_dollar_of_mem_reverse_toDigits (n : Nat) :
    ∀ c ∈ (Nat.toDigits 10 n).reverse, decide (c ≠ '$') = true := by
  intro c hc
  rw [decide_eq_true_iff]
  rintro rfl
  exact not_mem_toDigits (by decide) n (List.mem_reverse.mp hc)

@[simp] theorem baseOf_numbered (base : String) (n : UInt32) : baseOf (numbered base n) = base := by
  have hdigits := ne_dollar_of_mem_reverse_toDigits n.toNat
  rw [baseOf, reverse_toList_numbered, List.dropWhile_append_of_pos hdigits]
  simp

@[simp] theorem numberOf_numbered (base : String) (n : UInt32) :
    numberOf (numbered base n) = n := by
  have hdigits := ne_dollar_of_mem_reverse_toDigits n.toNat
  have hrepr : String.ofList (Nat.toDigits 10 n.toNat) = Nat.repr n.toNat := by
    rw [← String.toList_inj, Nat.toList_repr, String.toList_ofList]
  rw [numberOf, reverse_toList_numbered, List.takeWhile_append_of_pos hdigits]
  simp [hrepr]

/-- A label determines its base and its number. -/
theorem numbered_inj : numbered base₁ n₁ = numbered base₂ n₂ ↔ base₁ = base₂ ∧ n₁ = n₂ := by
  refine ⟨fun h => ⟨?_, ?_⟩, fun ⟨hb, hn⟩ => by rw [hb, hn]⟩
  · simpa using congrArg baseOf h
  · simpa using congrArg numberOf h

/-- The label of the program itself has no dollar sign. -/
theorem numbered_ne_main : numbered base n ≠ main := by
  intro h
  have hmem : '$' ∈ main.toList := by rw [← h, toList_numbered]; simp
  exact absurd hmem (by decide)

/-! ### Bases of functions -/

theorem underscore_not_mem_escape (name : String) : '_' ∉ (escape name).toList := by
  simp only [escape, String.toList_ofList, List.mem_flatMap, not_exists, not_and]
  intro c _
  unfold escapeChar
  split_ifs with hd hu
  · decide
  · decide
  · simpa using Ne.symm hu

/-- No name is written like the base of a function without a name. -/
theorem escape_ne_anonymousBase (name : String) : escape name ≠ anonymousBase := by
  intro h
  exact underscore_not_mem_escape name (h ▸ by decide)

/-- The base of a function determines its escaped name, or that it has none. -/
theorem lambdaBase_inj {name₁ name₂ : Option String} :
    lambdaBase name₁ = lambdaBase name₂ ↔ name₁.map escape = name₂.map escape := by
  cases name₁ <;> cases name₂ <;>
    simp [lambdaBase, escape_ne_anonymousBase, (escape_ne_anonymousBase _).symm]

end Label

end StackLowering
