import StackLowering.LabelCounters
import StackLowering.Proofs.LabelText
import StackLowering.Tree.Basic
import Mathlib.Algebra.Group.Nat.Defs
import Mathlib.Data.List.Nodup

/-!
# Draws of label numbers

Lowering draws one number for every conditional and for every function literal, in the order in
which it meets them. Which counters the draws touch is a property of the tree alone, so a list of
draws stands between trees and counters: a tree says which numbers are drawn, and the counters say
which labels come out.

## Scope

Counters are words of 32 bits and start again at zero when they pass the last one. That no counter
does so is a hypothesis on the run, `NoOverflow`, and not part of the definitions; a program with
fewer than `2 ^ 32` draws satisfies it.

## Main definitions

* `Draw`, `Expr.draws`, `Stmt.drawsAll`, `Program.draws` — the draws of a tree
* `LabelCounters.drawAll`, `LabelCounters.issued` — the counters after draws, and their labels
* `LabelCounters.NoOverflow` — no counter passes its last number

## Main results

* `LabelCounters.toNat_count_drawAll` — a counter moves by the number of draws on its key
* `LabelCounters.issued_nodup` — draws never give a label twice
-/

namespace StackLowering

/-- A number that is drawn: for the three labels of a conditional, or for the label of a function
on this base. -/
inductive Draw
  | branch
  | function (base : String)
deriving DecidableEq

namespace Draw

/-- The base on which the number is drawn. -/
def base : Draw → String
  | branch => BranchLabels.thenBase
  | function base => base

/-- The bases of the labels that get the number. -/
def bases : Draw → List String
  | branch => [BranchLabels.thenBase, BranchLabels.elseBase, BranchLabels.endBase]
  | function base => [base]

/-- The labels that come from drawing this number. -/
def labels (d : Draw) (n : UInt32) : List String := d.bases.map (Label.numbered · n)

@[simp] theorem labels_branch (n : UInt32) : branch.labels n =
    [(BranchLabels.ofTag n).thenLabel, (BranchLabels.ofTag n).elseLabel,
      (BranchLabels.ofTag n).endLabel] := rfl

@[simp] theorem labels_function (base : String) (n : UInt32) :
    (function base).labels n = [Label.numbered base n] := rfl

/-- One counter serves all the labels of a draw. -/
theorem key_of_mem_bases {d : Draw} {b : String} (h : b ∈ d.bases) :
    LabelCounters.key b = LabelCounters.key d.base := by
  cases d with
  | branch =>
    simp only [bases, List.mem_cons, List.not_mem_nil, or_false] at h
    rcases h with rfl | rfl | rfl <;> decide
  | function base => rw [List.mem_singleton.mp h]; rfl

theorem labels_nodup (d : Draw) (n : UInt32) : (d.labels n).Nodup := by
  have hbases : d.bases.Nodup := by
    cases d with
    | branch => decide
    | function base => exact List.nodup_singleton base
  exact hbases.map fun a b h => (Label.numbered_inj.mp h).1

end Draw

/-! ## The draws of a tree -/

mutual

/-- The draws of an expression: a conditional or a function literal draws before its parts do. -/
def Expr.draws : Expr → List Draw
  | .call callee _ => callee.draws
  | .ifElse condition thenArm elseArm =>
    .branch :: (condition.draws ++ Stmt.drawsAll thenArm ++ Stmt.drawsAll elseArm)
  | .lambda name _ body => .function (Label.lambdaBase name) :: Stmt.drawsAll body
  | .builtin _ | .integer _ | .list | .string _ | .record _ | .symbol _ | .symbolLiteral _
  | .variable _ => []

/-- The draws of a statement. -/
def Stmt.draws : Stmt → List Draw
  | .mk _ expression _ => expression.draws

/-- The draws of statements that run one after the other. -/
def Stmt.drawsAll : List Stmt → List Draw
  | [] => []
  | s :: rest => s.draws ++ Stmt.drawsAll rest

end

/-- The draws of a program: one for each of its conditionals and function literals. -/
def Program.draws (p : Program) : List Draw := Stmt.drawsAll p.statements

theorem Stmt.drawsAll_append (ss ts : List Stmt) :
    Stmt.drawsAll (ss ++ ts) = Stmt.drawsAll ss ++ Stmt.drawsAll ts := by
  induction ss with
  | nil => rfl
  | cons s ss ih => rw [List.cons_append, Stmt.drawsAll, ih, Stmt.drawsAll, List.append_assoc]

@[simp] theorem Stmt.drawsAll_singleton (a : Action) (e : Expr) (l : Option Location) :
    Stmt.drawsAll [.mk a e l] = e.draws := by
  simp [Stmt.drawsAll, Stmt.draws]

namespace LabelCounters

variable {c : LabelCounters} {d : Draw} {ds : List Draw}

/-! ## Counters after draws -/

/-- The counters after these draws. -/
def drawAll (c : LabelCounters) (ds : List Draw) : LabelCounters :=
  ds.foldl (fun c d => c.bump d.base) c

/-- The labels that come from these draws, in order. -/
def issued : LabelCounters → List Draw → List String
  | _, [] => []
  | c, d :: ds => d.labels (c.count d.base) ++ issued (c.bump d.base) ds

@[simp] theorem drawAll_nil (c : LabelCounters) : c.drawAll [] = c := rfl
@[simp] theorem drawAll_cons (c : LabelCounters) (d : Draw) (ds : List Draw) :
    c.drawAll (d :: ds) = (c.bump d.base).drawAll ds := rfl
@[simp] theorem drawAll_append (c : LabelCounters) (ds₁ ds₂ : List Draw) :
    c.drawAll (ds₁ ++ ds₂) = (c.drawAll ds₁).drawAll ds₂ := List.foldl_append

@[simp] theorem issued_nil (c : LabelCounters) : c.issued [] = [] := rfl
@[simp] theorem issued_cons (c : LabelCounters) (d : Draw) (ds : List Draw) :
    c.issued (d :: ds) = d.labels (c.count d.base) ++ (c.bump d.base).issued ds := rfl

@[simp] theorem issued_append (c : LabelCounters) (ds₁ ds₂ : List Draw) :
    c.issued (ds₁ ++ ds₂) = c.issued ds₁ ++ (c.drawAll ds₁).issued ds₂ := by
  induction ds₁ generalizing c with
  | nil => rfl
  | cons d ds₁ ih => simp [ih]

/-! ## Counters that do not start again -/

/-- The number of draws on the counter that serves a base. -/
def drawsOn (base : String) (ds : List Draw) : Nat := ds.countP fun d => key base = key d.base

/-- No counter passes its last number during these draws. -/
def NoOverflow (c : LabelCounters) (ds : List Draw) : Prop :=
  ∀ base, (c.count base).toNat + drawsOn base ds < 2 ^ 32

theorem drawsOn_cons (base : String) (d : Draw) (ds : List Draw) :
    drawsOn base (d :: ds) = drawsOn base ds + if key base = key d.base then 1 else 0 := by
  simp [drawsOn, List.countP_cons]

theorem drawsOn_le_length (base : String) (ds : List Draw) : drawsOn base ds ≤ ds.length :=
  List.countP_le_length

/-- Counters that start at zero do not overflow during fewer than `2 ^ 32` draws. -/
theorem noOverflow_empty (h : ds.length < 2 ^ 32) : NoOverflow empty ds := by
  intro base
  have := drawsOn_le_length base ds
  simp only [count_empty, UInt32.toNat_zero]
  omega

/-- One draw moves the counter of its key by one. -/
theorem toNat_count_bump (h : NoOverflow c (d :: ds)) (base : String) :
    ((c.bump d.base).count base).toNat
      = (c.count base).toNat + if key base = key d.base then 1 else 0 := by
  rw [count_bump]
  split_ifs with hkey
  · have hb := h base
    rw [drawsOn_cons, if_pos hkey] at hb
    rw [← c.count_congr hkey, UInt32.toNat_add, UInt32.toNat_one]
    omega
  · rfl

theorem NoOverflow.tail (h : NoOverflow c (d :: ds)) : NoOverflow (c.bump d.base) ds := by
  intro base
  have hb := h base
  rw [drawsOn_cons] at hb
  rw [toNat_count_bump h]
  omega

/-- A counter moves by the number of draws on its key. -/
theorem toNat_count_drawAll (h : NoOverflow c ds) (base : String) :
    ((c.drawAll ds).count base).toNat = (c.count base).toNat + drawsOn base ds := by
  induction ds generalizing c with
  | nil => rfl
  | cons d ds ih =>
    rw [drawAll_cons, ih h.tail, toNat_count_bump h, drawsOn_cons]
    omega

/-- Behind the first of some draws the others do not overflow either. -/
theorem NoOverflow.of_append {ds₁ ds₂ : List Draw} (h : c.NoOverflow (ds₁ ++ ds₂)) :
    (c.drawAll ds₁).NoOverflow ds₂ := by
  induction ds₁ generalizing c with
  | nil => exact h
  | cons d ds₁ ih => exact ih h.tail

/-- Draws never move a counter back. -/
theorem count_le_count_drawAll (h : c.NoOverflow ds) (base : String) :
    c.count base ≤ (c.drawAll ds).count base := by
  rw [UInt32.le_iff_toNat_le, toNat_count_drawAll h]
  omega

/-! ## Freshness -/

/-- Every label that is issued has a number. -/
theorem numbered_of_mem_issued {x : String} (h : x ∈ c.issued ds) :
    ∃ base n, x = Label.numbered base n := by
  induction ds generalizing c with
  | nil => cases h
  | cons d ds ih =>
    rcases List.mem_append.mp h with h | h
    · obtain ⟨base, -, rfl⟩ := List.mem_map.mp h
      exact ⟨base, _, rfl⟩
    · exact ih h

/-- A label that is issued has a number that the counter of its base has not passed before. -/
theorem exists_numbered_of_mem_issued (h : NoOverflow c ds) {x : String} (hx : x ∈ c.issued ds) :
    ∃ base n, x = Label.numbered base n ∧ (c.count base).toNat ≤ n.toNat := by
  induction ds generalizing c with
  | nil => simp at hx
  | cons d ds ih =>
    rw [issued_cons, List.mem_append] at hx
    rcases hx with hx | hx
    · obtain ⟨base, hbase, rfl⟩ := List.mem_map.mp hx
      exact ⟨base, _, rfl,
        Nat.le_of_eq (congrArg UInt32.toNat (c.count_congr (Draw.key_of_mem_bases hbase)))⟩
    · obtain ⟨base, n, rfl, hn⟩ := ih h.tail hx
      rw [toNat_count_bump h] at hn
      exact ⟨base, n, rfl, by omega⟩

/-- Draws never give a label twice: a later label on the same key has a larger number. -/
theorem issued_nodup (h : NoOverflow c ds) : (c.issued ds).Nodup := by
  induction ds generalizing c with
  | nil => exact List.nodup_nil
  | cons d ds ih =>
    refine List.Nodup.append (d.labels_nodup _) (ih h.tail) ?_
    intro x hx hlater
    obtain ⟨base, hbase, rfl⟩ := List.mem_map.mp hx
    obtain ⟨base', n, hlabel, hn⟩ := exists_numbered_of_mem_issued h.tail hlater
    obtain ⟨rfl, rfl⟩ := Label.numbered_inj.mp hlabel
    have hkey := Draw.key_of_mem_bases hbase
    rw [toNat_count_bump h, if_pos hkey, c.count_congr hkey] at hn
    omega

/-- The label of the program itself is never issued. -/
theorem main_not_mem_issued (h : NoOverflow c ds) : Label.main ∉ c.issued ds := by
  intro hmain
  obtain ⟨base, n, hlabel, -⟩ := exists_numbered_of_mem_issued h hmain
  exact Label.numbered_ne_main hlabel.symm

end LabelCounters

end StackLowering
