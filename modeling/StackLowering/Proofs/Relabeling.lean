import StackLowering.Proofs.Linking
import Mathlib.Data.Set.Function

/-!
# Code up to the numbers of its labels

Counters decide nothing but the numbers of labels. Two lowerings of one tree that start from
different counters stay in step: they draw on the same bases in the same order, so the counters
stay as far apart as they were, and each label of the one has the number of the other's moved on by
what was between the counters of its base. Both succeed, or both fail for the same reason at the
same place.

So the code behind other code is the code that stands alone, with other numbers, and the listing of
two programs, one behind the other, is made of the listings of the two.

Numbers are words that start again at zero, and moving them on is a bijection all the same. No
bound on the counters is needed.

## Main definitions

* `Code.relabel` — code with other names for its labels
* `Code.SameUpToNumbers` — code that is relabelled one to one, with the bases of labels kept
* `Fault.Alike`, `Agree` — faults and outcomes that differ in the texts of labels only
* `LowerM.InStep` — two steps that agree from counters that are apart, and leave them as far apart
* `Listing.closurePart`, `Listing.mainPart` — a listing without the label and the end of the program

## Main results

* `Expr.lower_inStep`, `Stmt.lowerAll_inStep` — lowerings of one tree are in step
* `lower_compositional` — the outcome of a lowering is determined up to numbers, and programs are
  lowered one behind the other
-/

namespace StackLowering

/-! ## Relabelling -/

section Relabel

variable {f : String → String}

/-- The operand with another name for the label that it is. -/
def Operand.relabel (f : String → String) : Operand → Operand
  | .label name => .label (f name)
  | .integer value => .integer value
  | .count value => .count value
  | .string value => .string value
  | .symbol name => .symbol name

@[simp] theorem Operand.relabel_label (name : String) :
    (Operand.label name).relabel f = .label (f name) := rfl
@[simp] theorem Operand.relabel_count (n : UInt64) : (Operand.count n).relabel f = .count n := rfl
@[simp] theorem Operand.relabel_symbol (name : String) :
    (Operand.symbol name).relabel f = .symbol name := rfl

/-- The entry with another name for the label that it stands for or refers to. -/
def Entry.relabel (f : String → String) : Entry → Entry
  | .label name => .label (f name)
  | .instruction i => .instruction ⟨i.mnemonic, i.operand.map (Operand.relabel f)⟩

/-- The code with other names for its labels. -/
def Code.relabel (f : String → String) (k : Code) : Code where
  lifted := k.lifted.map (Entry.relabel f)
  own := k.own.map (Entry.relabel f)

/-- The labels of a conditional with other names. -/
def BranchLabels.relabel (f : String → String) (labels : BranchLabels) : BranchLabels where
  thenLabel := f labels.thenLabel
  elseLabel := f labels.elseLabel
  endLabel := f labels.endLabel

@[simp] theorem Entry.relabel_label (name : String) :
    (Entry.label name).relabel f = .label (f name) := rfl

@[simp] theorem Entry.relabel_op (m : Mnemonic) (o : Option Operand) :
    (Entry.op m o).relabel f = .op m (o.map (Operand.relabel f)) := rfl

@[simp] theorem Entry.relabel_eq_drop {x : Entry} : x.relabel f = .drop ↔ x = .drop := by
  cases x with
  | label name => simp [Entry.drop]
  | instruction i =>
    obtain ⟨m, o⟩ := i
    cases o <;> simp [Entry.relabel, Entry.drop, Instruction.drop]

@[simp] theorem map_relabel_popFormals (formals : List String) :
    (popFormals formals).map (Entry.relabel f) = popFormals formals := by
  rw [popFormals, List.map_map]
  rfl

theorem labelsOf_map_relabel (es : List Entry) :
    labelsOf (es.map (Entry.relabel f)) = (labelsOf es).map f := by
  induction es with
  | nil => rfl
  | cons x es ih => cases x <;> simp [Entry.relabel, ih]

namespace Code

@[simp] theorem lifted_relabel (k : Code) :
    (k.relabel f).lifted = k.lifted.map (Entry.relabel f) := rfl
@[simp] theorem own_relabel (k : Code) : (k.relabel f).own = k.own.map (Entry.relabel f) := rfl

@[simp] theorem relabel_single (m : Mnemonic) (o : Option Operand) :
    (single m o).relabel f = single m (o.map (Operand.relabel f)) := rfl

@[simp] theorem relabel_append (k₁ k₂ : Code) :
    (k₁ ++ k₂).relabel f = k₁.relabel f ++ k₂.relabel f := by
  change Code.mk _ _ = Code.mk _ _
  simp

@[simp] theorem relabel_push (k : Code) (m : Mnemonic) (o : Option Operand) :
    (k.push m o).relabel f = (k.relabel f).push m (o.map (Operand.relabel f)) := by
  simp [relabel, push]

@[simp] theorem relabel_ofAction (k : Code) (a : Action) :
    (k.ofAction a).relabel f = (k.relabel f).ofAction a := by
  cases a <;> simp [ofAction]

@[simp] theorem relabel_ofArms (labels : BranchLabels) (k₁ k₂ k₃ : Code) :
    (ofArms labels k₁ k₂ k₃).relabel f
      = ofArms (labels.relabel f) (k₁.relabel f) (k₂.relabel f) (k₃.relabel f) := by
  simp [relabel, ofArms, BranchLabels.relabel]

@[simp] theorem relabel_ofLambda (label : String) (formals : List String) (k : Code) :
    (ofLambda label formals k).relabel f = ofLambda (f label) formals (k.relabel f) := by
  simp [relabel, ofLambda]

end Code

end Relabel

/-! ## Counters that are apart -/

section Apart

variable {δ : String → UInt32} {c₁ c₂ : LabelCounters} {base : String} {n : UInt32}

/-- The label with its number moved on by what belongs to its base. -/
def Label.shift (δ : String → UInt32) (label : String) : String :=
  numbered (baseOf label) (numberOf label + δ (baseOf label))

@[simp] theorem Label.shift_numbered :
    shift δ (numbered base n) = numbered base (n + δ base) := by
  simp [shift]

@[simp] theorem Label.baseOf_shift (label : String) : baseOf (shift δ label) = baseOf label :=
  baseOf_numbered _ _

namespace LabelCounters

/-- The second counters are ahead of the first by these amounts. -/
def Apart (δ : String → UInt32) (c₁ c₂ : LabelCounters) : Prop :=
  ∀ base, c₂.count base = c₁.count base + δ base

theorem exists_apart (c₁ c₂ : LabelCounters) : ∃ δ, Apart δ c₁ c₂ :=
  ⟨fun base => c₂.count base - c₁.count base, fun base => by
    rw [UInt32.add_comm, UInt32.sub_add_cancel]⟩

namespace Apart

/-- Counters are apart by one amount for all the bases that they serve. -/
theorem congr (h : Apart δ c₁ c₂) {a b : String} (hkey : key a = key b) : δ a = δ b := by
  have ha := h a
  rw [c₂.count_congr hkey, c₁.count_congr hkey, h b] at ha
  exact (UInt32.add_right_inj _).mp ha.symm

/-- Drawing on one base from both keeps them as far apart as they are. -/
theorem bump (h : Apart δ c₁ c₂) (base : String) : Apart δ (c₁.bump base) (c₂.bump base) := by
  intro b
  rw [count_bump, count_bump]
  split_ifs with hkey
  · rw [h base, h.congr hkey, UInt32.add_assoc, UInt32.add_comm _ 1, ← UInt32.add_assoc]
  · exact h b

end Apart

end LabelCounters

end Apart

/-! ## Outcomes that agree -/

/-- Faults of one form. The text that describes a body names labels, and may differ. -/
inductive Fault.Alike : Fault → Fault → Prop
  | unknownBuiltin (symbol : String) : Alike (.unknownBuiltin symbol) (.unknownBuiltin symbol)
  | malformedBody {context₁ context₂ found₁ found₂ : String} :
    Alike (.malformedBody context₁ found₁) (.malformedBody context₂ found₂)
  | unhandledShape (shape context : String) :
    Alike (.unhandledShape shape context) (.unhandledShape shape context)

/-- Results that are related, or faults that are alike, at the same place. -/
inductive Agree {α β : Type} (R : α → β → Prop) :
    Except LocatedFault α → Except LocatedFault β → Prop
  | ok {a : α} {b : β} (h : R a b) : Agree R (.ok a) (.ok b)
  | error {f₁ f₂ : Fault} {l : Option Location} (h : f₁.Alike f₂) :
    Agree R (.error ⟨f₁, l⟩) (.error ⟨f₂, l⟩)

namespace LowerM

variable {α₁ α₂ β₁ β₂ : Type} {δ : String → UInt32}

/-- From counters that are apart by these amounts the steps have outcomes that agree, and leave
counters that are apart by the same amounts. -/
def InStep (δ : String → UInt32) (R : α₁ → α₂ → Prop) (x₁ : LowerM α₁) (x₂ : LowerM α₂) : Prop :=
  ∀ c₁ c₂, LabelCounters.Apart δ c₁ c₂ →
    Agree R (x₁.run c₁).1 (x₂.run c₂).1 ∧ LabelCounters.Apart δ (x₁.run c₁).2 (x₂.run c₂).2

namespace InStep

variable {R : α₁ → α₂ → Prop} {S : β₁ → β₂ → Prop} {x₁ : LowerM α₁} {x₂ : LowerM α₂}

theorem ofExcept {r₁ : Except LocatedFault α₁} {r₂ : Except LocatedFault α₂} (h : Agree R r₁ r₂) :
    InStep δ R (LowerM.ofExcept r₁) (LowerM.ofExcept r₂) :=
  fun _ _ hapart => ⟨h, hapart⟩

theorem pure {a₁ : α₁} {a₂ : α₂} (h : R a₁ a₂) :
    InStep δ R (Pure.pure a₁ : LowerM α₁) (Pure.pure a₂ : LowerM α₂) :=
  ofExcept (.ok h)

theorem bind {f₁ : α₁ → LowerM β₁} {f₂ : α₂ → LowerM β₂} (hx : InStep δ R x₁ x₂)
    (hf : ∀ a₁ a₂, R a₁ a₂ → InStep δ S (f₁ a₁) (f₂ a₂)) :
    InStep δ S (x₁ >>= f₁) (x₂ >>= f₂) := by
  intro c₁ c₂ hapart
  have hfirst := hx c₁ c₂ hapart
  rw [run_bind, run_bind]
  generalize x₁.run c₁ = r₁ at hfirst ⊢
  generalize x₂.run c₂ = r₂ at hfirst ⊢
  obtain ⟨r₁, c₁⟩ := r₁
  obtain ⟨r₂, c₂⟩ := r₂
  obtain ⟨hagree, hapart⟩ := hfirst
  cases hagree with
  | ok h => exact hf _ _ h _ _ hapart
  | error h => exact ⟨.error h, hapart⟩

theorem locate (hx : InStep δ R x₁ x₂) (l : Option Location) :
    InStep δ R (x₁.locate l) (x₂.locate l) := by
  intro c₁ c₂ hapart
  have hstep := hx c₁ c₂ hapart
  rw [run_locate, run_locate]
  generalize x₁.run c₁ = r₁ at hstep ⊢
  generalize x₂.run c₂ = r₂ at hstep ⊢
  obtain ⟨r₁, c₁⟩ := r₁
  obtain ⟨r₂, c₂⟩ := r₂
  obtain ⟨hagree, hapart⟩ := hstep
  cases hagree with
  | ok h => exact ⟨.ok h, hapart⟩
  | error h => exact ⟨.error h, hapart⟩

/-- The tags of a conditional give labels that are moved on alike. -/
theorem drawTag : InStep δ
    (fun tag₁ tag₂ => BranchLabels.ofTag tag₂ = (BranchLabels.ofTag tag₁).relabel (Label.shift δ))
    LowerM.drawTag LowerM.drawTag := by
  intro c₁ c₂ hapart
  refine ⟨.ok ?_, hapart.bump _⟩
  have helse : δ BranchLabels.elseBase = δ BranchLabels.thenBase := hapart.congr (by decide)
  have hend : δ BranchLabels.endBase = δ BranchLabels.thenBase := hapart.congr (by decide)
  simp [BranchLabels.ofTag, BranchLabels.relabel, hapart _, helse, hend]

theorem drawLabel (base : String) : InStep δ (fun label₁ label₂ => label₂ = Label.shift δ label₁)
    (LowerM.drawLabel base) (LowerM.drawLabel base) := by
  intro c₁ c₂ hapart
  refine ⟨.ok ?_, hapart.bump _⟩
  simp [hapart _]

end InStep

end LowerM

/-! ## Lowerings are in step -/

section Lowering

variable {δ : String → UInt32}

theorem agree_withoutFinalDrop (f : String → String) (es : List Entry)
    (context₁ context₂ : String) (l : Option Location) :
    Agree (fun es₁ es₂ => es₂ = es₁.map (Entry.relabel f)) (withoutFinalDrop es context₁ l)
      (withoutFinalDrop (es.map (Entry.relabel f)) context₂ l) := by
  rw [withoutFinalDrop, withoutFinalDrop, List.getLast?_map]
  cases es.getLast? with
  | none => exact .error .malformedBody
  | some x =>
    by_cases hx : x = .drop
    · have hagree : Agree (fun es₁ es₂ => es₂ = es₁.map (Entry.relabel f)) (.ok es.dropLast)
          (.ok (es.map (Entry.relabel f)).dropLast) := .ok List.map_dropLast.symm
      simpa [hx] using hagree
    · simpa [hx] using Agree.error .malformedBody

/-- Code yields its last value, or does not, whatever its labels are. -/
theorem Code.agree_yieldLast (f : String → String) (k : Code) (context₁ context₂ : String)
    (l : Option Location) :
    Agree (fun k₁ k₂ => k₂ = k₁.relabel f) (k.yieldLast context₁ l)
      ((k.relabel f).yieldLast context₂ l) := by
  have hown := agree_withoutFinalDrop f k.own context₁ context₂ l
  rw [yieldLast, yieldLast, own_relabel]
  generalize withoutFinalDrop k.own context₁ l = r₁ at hown ⊢
  generalize withoutFinalDrop (k.own.map (Entry.relabel f)) context₂ l = r₂ at hown ⊢
  cases hown with
  | ok h => exact .ok (by rw [h]; rfl)
  | error h => exact .error h

theorem agree_resolveBuiltin (symbol : String) :
    Agree Eq (resolveBuiltin symbol) (resolveBuiltin symbol) := by
  unfold resolveBuiltin
  split
  · exact .ok rfl
  · exact .error (.unknownBuiltin symbol)

/-- From counters that are apart by these amounts the step gives code that is the same up to
them. -/
abbrev LowerM.Relabels (δ : String → UInt32) (x : LowerM Code) : Prop :=
  x.InStep δ (fun k₁ k₂ => k₂ = k₁.relabel (Label.shift δ)) x

open LowerM in
mutual

/-- Lowerings of one expression are in step. -/
theorem Expr.lower_inStep : ∀ e : Expr, e.lower.Relabels δ
  | .builtin symbol => .ofExcept (.error (.unhandledShape _ _))
  | .call callee n => by
    rw [Expr.lower]
    cases hcallee : callee.builtin? with
    | some symbol =>
      exact (InStep.ofExcept (agree_resolveBuiltin symbol)).bind fun m m' hm =>
        .pure (by simp [hm])
    | none => exact callee.lower_inStep.bind fun k k' hk => .pure (by simp [hk])
  | .ifElse condition thenArm elseArm => by
    rw [Expr.lower]
    refine InStep.drawTag.bind fun tag tag' htag => ?_
    refine condition.lower_inStep.bind fun k₁ k₁' hk₁ => ?_
    refine (Stmt.lowerAll_inStep thenArm).bind fun k₂ k₂' hk₂ => ?_
    subst hk₂
    refine (InStep.ofExcept (Code.agree_yieldLast _ _ _ _ _)).bind fun k₂ k₂' hk₂ => ?_
    refine (Stmt.lowerAll_inStep elseArm).bind fun k₃ k₃' hk₃ => ?_
    subst hk₃
    refine (InStep.ofExcept (Code.agree_yieldLast _ _ _ _ _)).bind fun k₃ k₃' hk₃ => ?_
    exact .pure (by simp [htag, hk₁, hk₂, hk₃])
  | .lambda name formals body => by
    rw [Expr.lower]
    refine (InStep.drawLabel _).bind fun label label' hlabel => ?_
    refine (Stmt.lowerAll_inStep body).bind fun k k' hk => ?_
    subst hk
    refine (InStep.ofExcept (Code.agree_yieldLast _ _ _ _ _)).bind fun k k' hk => ?_
    exact .pure (by simp [hlabel, hk])
  | .integer _ | .list | .string _ | .record _ | .symbol _ | .symbolLiteral _ | .variable _ =>
    .pure rfl

/-- Lowerings of one statement are in step. -/
theorem Stmt.lower_inStep : ∀ s : Stmt, s.lower.Relabels δ
  | .mk a e l => by
    rw [Stmt.lower]
    exact (e.lower_inStep.bind fun k k' hk => .pure (by simp [hk])).locate l

/-- Lowerings of one list of statements are in step. -/
theorem Stmt.lowerAll_inStep : ∀ ss : List Stmt, (Stmt.lowerAll ss).Relabels δ
  | [] => .pure rfl
  | s :: rest => by
    rw [Stmt.lowerAll]
    refine s.lower_inStep.bind fun k₁ k₁' hk₁ => ?_
    exact (Stmt.lowerAll_inStep rest).bind fun k₂ k₂' hk₂ => .pure (by simp [hk₁, hk₂])

end

/-- Lowerings of one part of a tree are in step. -/
theorem Part.lower_inStep (P : Part) (δ : String → UInt32) : P.lower.Relabels δ := by
  cases P with
  | expression e => exact e.lower_inStep
  | statements ss => exact Stmt.lowerAll_inStep ss
  | body ss =>
    refine (Stmt.lowerAll_inStep ss).bind fun k k' hk => ?_
    subst hk
    exact .ofExcept (Code.agree_yieldLast _ _ _ _ _)

end Lowering

/-! ## Code up to numbers -/

/-- The labels of code. -/
def Code.labels (k : Code) : List String := labelsOf (k.lifted ++ k.own)

/-- The second code is the first one relabelled, one to one and with the bases of labels kept. -/
def Code.SameUpToNumbers (k₁ k₂ : Code) : Prop :=
  ∃ f, Set.BijOn f {x | x ∈ k₁.labels} {x | x ∈ k₂.labels} ∧
    (∀ x ∈ k₁.labels, Label.baseOf (f x) = Label.baseOf x) ∧ k₂ = k₁.relabel f

section Numbers

variable {δ : String → UInt32} {c c₁ c₂ c' : LabelCounters} {k : Code} {P : Part}

theorem Code.labels_relabel (f : String → String) (k : Code) :
    (k.relabel f).labels = k.labels.map f := by
  simp [labels, labelsOf_map_relabel]

/-- Every label of code has a number. -/
theorem Lowers.numbered_of_mem_labels (h : Lowers P c k c') {x : String} (hx : x ∈ k.labels) :
    ∃ base n, x = Label.numbered base n :=
  LabelCounters.numbered_of_mem_issued (h.labels_perm.mem_iff.mp hx)

theorem Lowers.injOn_shift (h : Lowers P c k c') :
    Set.InjOn (Label.shift δ) {x | x ∈ k.labels} := by
  intro x hx y hy hxy
  obtain ⟨base₁, n₁, rfl⟩ := h.numbered_of_mem_labels hx
  obtain ⟨base₂, n₂, rfl⟩ := h.numbered_of_mem_labels hy
  rw [Label.shift_numbered, Label.shift_numbered] at hxy
  obtain ⟨rfl, hn⟩ := Label.numbered_inj.mp hxy
  rw [(UInt32.add_left_inj _).mp hn]

theorem Lowers.sameUpToNumbers (h : Lowers P c k c') (δ : String → UInt32) :
    k.SameUpToNumbers (k.relabel (Label.shift δ)) := by
  have hlabels (y : String) :
      y ∈ (k.relabel (Label.shift δ)).labels ↔ ∃ x ∈ k.labels, Label.shift δ x = y := by
    rw [Code.labels_relabel, List.mem_map]
  exact ⟨Label.shift δ, ⟨fun x hx => (hlabels _).mpr ⟨x, hx, rfl⟩, h.injOn_shift,
    fun y hy => (hlabels y).mp hy⟩, fun x _ => Label.baseOf_shift x, rfl⟩

/-- From counters that are apart a part has the same code up to what they are apart by. -/
theorem Lowers.relabel (h : Lowers P c₁ k c') (hapart : LabelCounters.Apart δ c₁ c₂) :
    ∃ c'', Lowers P c₂ (k.relabel (Label.shift δ)) c'' := by
  obtain ⟨hagree, -⟩ := P.lower_inStep δ c₁ c₂ hapart
  rw [h.run] at hagree
  generalize hrun : P.lower.run c₂ = r at hagree
  obtain ⟨r, c''⟩ := r
  cases hagree with
  | ok hk => exact ⟨c'', lowers_iff.mpr (hk ▸ hrun)⟩

/-- The outcomes from whichever counters agree up to numbers. -/
theorem Part.agree (P : Part) (c₁ c₂ : LabelCounters) :
    Agree Code.SameUpToNumbers (P.lower.run c₁).1 (P.lower.run c₂).1 := by
  obtain ⟨δ, hapart⟩ := LabelCounters.exists_apart c₁ c₂
  obtain ⟨hagree, -⟩ := P.lower_inStep δ c₁ c₂ hapart
  generalize hrun : P.lower.run c₁ = r₁ at hagree ⊢
  generalize P.lower.run c₂ = r₂ at hagree ⊢
  obtain ⟨r₁, c₁'⟩ := r₁
  obtain ⟨r₂, c₂'⟩ := r₂
  cases hagree with
  | ok hk => exact .ok (hk ▸ (lowers_iff.mpr hrun).sameUpToNumbers δ)
  | error hfault => exact .error hfault

end Numbers

/-! ## Programs one behind the other -/

/-- The entries in front of the main block. -/
def Listing.closurePart (l : Listing) : List Entry :=
  l.entries.takeWhile (· ≠ .label Label.main)

/-- The entries between the label of the program and the end of the listing. -/
def Listing.mainPart (l : Listing) : List Entry :=
  (l.entries.dropWhile (· ≠ .label Label.main)).tail.dropLast

section Program

variable {c c' : LabelCounters} {k : Code} {P : Part} {ss ts : List Stmt}

theorem Lowers.ne_main_of_mem_lifted (h : Lowers P c k c') :
    ∀ x ∈ k.lifted, decide (x ≠ .label Label.main) = true := by
  intro x hx
  rw [decide_eq_true_iff]
  rintro rfl
  have hmain : Label.main ∈ k.labels :=
    List.mem_filterMap.mpr ⟨_, List.mem_append_left _ hx, rfl⟩
  obtain ⟨base, n, hlabel⟩ := h.numbered_of_mem_labels hmain
  exact Label.numbered_ne_main hlabel.symm

theorem Lowers.closurePart_toListing (h : Lowers P c k c') :
    k.toListing.closurePart = k.lifted := by
  rw [Listing.closurePart, Code.toListing]
  simp only [List.append_assoc]
  rw [List.takeWhile_append_of_pos h.ne_main_of_mem_lifted]
  simp

theorem Lowers.mainPart_toListing (h : Lowers P c k c') : k.toListing.mainPart = k.own := by
  rw [Listing.mainPart, Code.toListing]
  simp only [List.append_assoc]
  rw [List.dropWhile_append_of_pos h.ne_main_of_mem_lifted]
  simp

theorem lowers_append_iff :
    Lowers (.statements (ss ++ ts)) c k c' ↔ ∃ k₁ c₁ k₂,
      Lowers (.statements ss) c k₁ c₁ ∧ Lowers (.statements ts) c₁ k₂ c' ∧ k = k₁ ++ k₂ := by
  simp only [lowers_iff, Part.lower, Stmt.run_lowerAll_append]

/-- Statements behind others are lowered exactly when they are by themselves. -/
theorem exists_lower_append_iff :
    (∃ l, (Program.mk (ss ++ ts)).lower = .ok l) ↔
      (∃ l₁, (Program.mk ss).lower = .ok l₁) ∧ ∃ l₂, (Program.mk ts).lower = .ok l₂ := by
  simp only [Program.lower_eq_ok_iff, lowers_append_iff]
  constructor
  · rintro ⟨_, _, c', ⟨k₁, c₁, k₂, h₁, h₂, -⟩, -⟩
    obtain ⟨δ, hapart⟩ := LabelCounters.exists_apart c₁ .empty
    obtain ⟨c'', h₂⟩ := h₂.relabel hapart
    exact ⟨⟨_, k₁, c₁, h₁, rfl⟩, _, _, c'', h₂, rfl⟩
  · rintro ⟨⟨_, k₁, c₁, h₁, -⟩, _, k₂, c₂, h₂, -⟩
    obtain ⟨δ, hapart⟩ := LabelCounters.exists_apart .empty c₁
    obtain ⟨c', h₂⟩ := h₂.relabel hapart
    exact ⟨_, _, c', ⟨k₁, c₁, _, h₁, h₂, rfl⟩, rfl⟩

/-- The listing of statements behind others is made of the two listings. -/
theorem exists_relabel_of_lower_append {l₁ l₂ l : Listing} (h₁ : (Program.mk ss).lower = .ok l₁)
    (h₂ : (Program.mk ts).lower = .ok l₂) (h : (Program.mk (ss ++ ts)).lower = .ok l) :
    ∃ f, Set.InjOn f {x | x ∈ labelsOf (l₂.closurePart ++ l₂.mainPart)} ∧
      (∀ x, Label.baseOf (f x) = Label.baseOf x) ∧
      l.closurePart = l₁.closurePart ++ l₂.closurePart.map (Entry.relabel f) ∧
      l.mainPart = l₁.mainPart ++ l₂.mainPart.map (Entry.relabel f) := by
  obtain ⟨k₁, c₁, hk₁, rfl⟩ := Program.lower_eq_ok_iff.mp h₁
  obtain ⟨k₂, c₂, hk₂, rfl⟩ := Program.lower_eq_ok_iff.mp h₂
  obtain ⟨k, c', hk, rfl⟩ := Program.lower_eq_ok_iff.mp h
  obtain ⟨δ, hapart⟩ := LabelCounters.exists_apart .empty c₁
  obtain ⟨c'', hbehind⟩ := hk₂.relabel hapart
  obtain ⟨rfl, -⟩ := hk.unique (hk₁.append hbehind)
  rw [hk.closurePart_toListing, hk.mainPart_toListing, hk₁.closurePart_toListing,
    hk₁.mainPart_toListing, hk₂.closurePart_toListing, hk₂.mainPart_toListing]
  exact ⟨Label.shift δ, hk₂.injOn_shift, Label.baseOf_shift, rfl, rfl⟩

/-- **Lowering is compositional.** The counters that a lowering starts from decide the numbers of
labels only. From any two tables of counters both lowerings succeed, with code that is the same up
to these numbers, or both fail, with faults of one form at one place. So statements behind others
are lowered exactly when they are by themselves, and what comes out is the code of the first ones,
as it is, and behind it that of the others, relabelled. -/
theorem lower_compositional :
    (∀ (e : Expr) (c₁ c₂ : LabelCounters),
        Agree Code.SameUpToNumbers (e.lower.run c₁).1 (e.lower.run c₂).1) ∧
      (∀ (ss : List Stmt) (c₁ c₂ : LabelCounters),
        Agree Code.SameUpToNumbers ((Stmt.lowerAll ss).run c₁).1 ((Stmt.lowerAll ss).run c₂).1) ∧
      ∀ ss ts : List Stmt,
        ((∃ l, (Program.mk (ss ++ ts)).lower = .ok l) ↔
          (∃ l₁, (Program.mk ss).lower = .ok l₁) ∧ ∃ l₂, (Program.mk ts).lower = .ok l₂) ∧
        ∀ l₁ l₂ l, (Program.mk ss).lower = .ok l₁ → (Program.mk ts).lower = .ok l₂ →
          (Program.mk (ss ++ ts)).lower = .ok l →
            ∃ f, Set.InjOn f {x | x ∈ labelsOf (l₂.closurePart ++ l₂.mainPart)} ∧
              (∀ x, Label.baseOf (f x) = Label.baseOf x) ∧
              l.closurePart = l₁.closurePart ++ l₂.closurePart.map (Entry.relabel f) ∧
              l.mainPart = l₁.mainPart ++ l₂.mainPart.map (Entry.relabel f) :=
  ⟨fun e => Part.agree (.expression e), fun ss => Part.agree (.statements ss),
    fun _ _ => ⟨exists_lower_append_iff, fun _ _ _ => exists_relabel_of_lower_append⟩⟩

end Program

/-- Behind itself, a program has its own code with the next numbers. The function that is named like
a base of conditionals takes its number from their counter in both places. -/
theorem functionsInArms_behind_itself :
    ∃ l, functionsInArms.lower = .ok functionsInArmsListing ∧
      (Program.mk (functionsInArms.statements ++ functionsInArms.statements)).lower = .ok l ∧
      labelsOf l.closurePart = ["else$1", "__lambda__$0", "else$3", "__lambda__$1"] ∧
      labelsOf l.mainPart = ["if$0", "else$0", "endif$0", "if$2", "else$2", "endif$2"] ∧
      ∃ f, Set.InjOn f {x | x ∈ labelsOf
          (functionsInArmsListing.closurePart ++ functionsInArmsListing.mainPart)} ∧
        (∀ x, Label.baseOf (f x) = Label.baseOf x) ∧
        l.closurePart = functionsInArmsListing.closurePart ++
          functionsInArmsListing.closurePart.map (Entry.relabel f) ∧
        l.mainPart = functionsInArmsListing.mainPart ++
          functionsInArmsListing.mainPart.map (Entry.relabel f) :=
  have hlower : functionsInArms.lower = .ok functionsInArmsListing := rfl
  ⟨_, hlower, rfl, rfl, rfl,
    (lower_compositional.2.2 functionsInArms.statements functionsInArms.statements).2 _ _ _
      hlower hlower rfl⟩

end StackLowering
