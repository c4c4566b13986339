import StackLowering.Lowering.Fault
import StackLowering.LabelCounters

/-!
# Steps of the lowering

A step takes the counters to an outcome and to the counters after it. A step that fails leaves
counters too, so that a number that was drawn stays drawn.

## Main definitions

* `LowerM`: steps, and how they follow one another
* `LowerM.locate`: gives a location to the error of a step

## Main statements

* `LowerM.run_bind`: a step behind another runs when the other succeeds, from the counters it leaves
-/

namespace StackLowering

/-- A step of the lowering. -/
structure LowerM (α : Type) where
  /-- The outcome of the step, and the counters after it. -/
  run : LabelCounters → Except LocatedFault α × LabelCounters

namespace LowerM

variable {α β : Type}

/-- The step that does nothing but give an outcome. -/
def ofExcept (x : Except LocatedFault α) : LowerM α := ⟨fun c => (x, c)⟩

/-- One step after the other. -/
protected def bind (x : LowerM α) (f : α → LowerM β) : LowerM β where
  run c := match x.run c with
    | (.ok a, c) => (f a).run c
    | (.error e, c) => (.error e, c)

instance : Monad LowerM where
  pure a := ofExcept (.ok a)
  bind := LowerM.bind

/-- The step that fails. -/
def fail (f : Fault) : LowerM α := ofExcept (.error ⟨f, none⟩)

/-- The step, with a location for an error that has none. -/
def locate (x : LowerM α) (l : Option Location) : LowerM α where
  run c := match x.run c with
    | (.ok a, c) => (.ok a, c)
    | (.error e, c) => (.error (e.locatedAt l), c)

/-- Draws the tag of a conditional. -/
def drawTag : LowerM UInt32 where
  run c := let (tag, c) := c.drawTag; (.ok tag, c)

/-- Draws a label on a base. -/
def drawLabel (base : String) : LowerM String where
  run c := let (label, c) := c.drawLabel base; (.ok label, c)

/-! ## What steps do -/

@[simp] theorem run_pure (a : α) (c : LabelCounters) : (pure a : LowerM α).run c = (.ok a, c) := rfl

@[simp] theorem run_ofExcept (x : Except LocatedFault α) (c : LabelCounters) :
    (ofExcept x).run c = (x, c) := rfl

@[simp] theorem run_fail (f : Fault) (c : LabelCounters) :
    (fail f : LowerM α).run c = (.error ⟨f, none⟩, c) := rfl

@[simp] theorem run_drawTag (c : LabelCounters) :
    drawTag.run c = (.ok (c.count BranchLabels.thenBase), c.bump BranchLabels.thenBase) :=
  rfl

@[simp] theorem run_drawLabel (base : String) (c : LabelCounters) :
    (drawLabel base).run c = (.ok (Label.numbered base (c.count base)), c.bump base) := rfl

/-- A step behind another runs when the other succeeds, from the counters it leaves. -/
theorem run_bind (x : LowerM α) (f : α → LowerM β) (c : LabelCounters) :
    (x >>= f).run c = match x.run c with
      | (.ok a, c) => (f a).run c
      | (.error e, c) => (.error e, c) := rfl

theorem run_bind_eq_ok {x : LowerM α} {f : α → LowerM β} {c c' : LabelCounters} {b : β} :
    (x >>= f).run c = (.ok b, c') ↔
      ∃ a c₁, x.run c = (.ok a, c₁) ∧ (f a).run c₁ = (.ok b, c') := by
  rw [run_bind]
  rcases x.run c with ⟨_ | a, c₁⟩
  · simp
  · simp only [Prod.mk.injEq, Except.ok.injEq]
    exact ⟨fun h => ⟨a, c₁, ⟨rfl, rfl⟩, h⟩, fun ⟨_, _, ⟨rfl, rfl⟩, h⟩ => h⟩

theorem run_bind_eq_error {x : LowerM α} {f : α → LowerM β} {c c' : LabelCounters}
    {e : LocatedFault} :
    (x >>= f).run c = (.error e, c') ↔ x.run c = (.error e, c') ∨
      ∃ a c₁, x.run c = (.ok a, c₁) ∧ (f a).run c₁ = (.error e, c') := by
  rw [run_bind]
  rcases x.run c with ⟨_ | a, c₁⟩
  · simp
  · simp only [Prod.mk.injEq, Except.ok.injEq, reduceCtorEq, false_and, false_or]
    exact ⟨fun h => ⟨a, c₁, ⟨rfl, rfl⟩, h⟩, fun ⟨_, _, ⟨rfl, rfl⟩, h⟩ => h⟩

/-- An error that has a location keeps it, and everything else stays as it is. -/
theorem run_locate (x : LowerM α) (l : Option Location) (c : LabelCounters) :
    (x.locate l).run c = match x.run c with
      | (.ok a, c) => (.ok a, c)
      | (.error e, c) => (.error (e.locatedAt l), c) := rfl

theorem run_locate_eq_ok {x : LowerM α} {l : Option Location} {c c' : LabelCounters} {a : α} :
    (x.locate l).run c = (.ok a, c') ↔ x.run c = (.ok a, c') := by
  rw [run_locate]
  rcases x.run c with ⟨_ | _, _⟩ <;> simp

theorem run_locate_eq_error {x : LowerM α} {l : Option Location} {c c' : LabelCounters}
    {e : LocatedFault} :
    (x.locate l).run c = (.error e, c') ↔
      ∃ e₁, x.run c = (.error e₁, c') ∧ e₁.locatedAt l = e := by
  rw [run_locate]
  rcases x.run c with ⟨e₁ | _, c₁⟩
  · simp only [Prod.mk.injEq, Except.error.injEq]
    exact ⟨fun ⟨h, hc⟩ => ⟨e₁, ⟨rfl, hc⟩, h⟩, fun ⟨_, ⟨rfl, hc⟩, h⟩ => ⟨h, hc⟩⟩
  · simp

end LowerM

end StackLowering
