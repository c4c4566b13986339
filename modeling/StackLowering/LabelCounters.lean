import StackLowering.Label

/-!
# Counters for label numbers

Each base has a counter, and a label takes the number that the counter of its base shows. The
three bases of a conditional share one counter, since a conditional takes one number for all of its
labels; so a function with the name of one of these bases never takes a label of a conditional.

## Main statements

* `count_bump`: drawing a number on a key moves the counter of that key and no other
-/

namespace StackLowering

/-- The counters that have been used, the latest state of each first. -/
structure LabelCounters where
  entries : List (String × UInt32)

namespace LabelCounters

/-- Every counter at zero. -/
def empty : LabelCounters := ⟨[]⟩

/-- The base whose counter serves a base. -/
def key (base : String) : String :=
  if base = BranchLabels.elseBase ∨ base = BranchLabels.endBase then
    BranchLabels.thenBase
  else
    base

/-- The number that the next label on a base gets. -/
def count (c : LabelCounters) (base : String) : UInt32 :=
  (c.entries.lookup (key base)).getD 0

/-- Moves the counter of a base on by one. -/
def bump (c : LabelCounters) (base : String) : LabelCounters :=
  ⟨(key base, c.count base + 1) :: c.entries⟩

/-- Draws a number on a base. -/
def draw (c : LabelCounters) (base : String) : UInt32 × LabelCounters := (c.count base, c.bump base)

/-- Draws the tag of a conditional. -/
def drawTag (c : LabelCounters) : UInt32 × LabelCounters := c.draw BranchLabels.thenBase

/-- Draws a label on a base. -/
def drawLabel (c : LabelCounters) (base : String) : String × LabelCounters :=
  (Label.numbered base (c.count base), c.bump base)

@[simp] theorem count_empty (base : String) : empty.count base = 0 := rfl

/-- Two bases with one key have one counter. -/
theorem count_congr (c : LabelCounters) {a b : String} (h : key a = key b) :
    c.count a = c.count b := by
  simp [count, h]

/-- Drawing on a base moves the counter of its key and no other. -/
theorem count_bump (c : LabelCounters) (a b : String) :
    (c.bump a).count b = if key b = key a then c.count a + 1 else c.count b := by
  by_cases h : key b = key a
  · simp [count, bump, h]
  · simp [count, bump, h, List.lookup_cons, beq_false_of_ne h]

end LabelCounters

end StackLowering
