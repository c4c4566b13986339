import StackLowering.Proofs.Linking
import Mathlib.Data.List.Perm.Subperm

/-!
# Sessions on one table of counters

Labels can be drawn one at a time, and trees lowered, in any order on one table of counters. A
lowering that fails keeps the numbers that it has drawn, so a session never goes back, and what it
hands out later is new whether or not an earlier lowering came to its end.

Every step of a session makes draws, and the labels that it hands out are among those that the
draws issue: all of them in general, and none when a lowering fails. Freshness of a session is
freshness of all its draws, one after the other.

## Scope

Counters are words of 32 bits. That a session makes fewer than `2 ^ 32` draws is a hypothesis on
the counters at its end, which have an entry for each draw.

## Main definitions

* `SessionStep`, `Session.run` — sessions, and the labels that they hand out
* `MakesDraws` — what is handed out and left belongs to these draws

## Main results

* `SessionStep.exists_draws`, `Session.exists_draws` — a step and a whole session make draws
* `session_fresh` — a session never hands out a label twice, and its counters never go back
-/

namespace StackLowering

variable {c : LabelCounters}

/-! ## Sessions -/

/-- One draw by hand, or the lowering of a tree. -/
inductive SessionStep
  | label (base : String)
  | branch
  | expression (e : Expr)
  | statement (s : Stmt)
  | statements (ss : List Stmt)

/-- The labels of the code that comes out; there are none when the lowering failed. -/
def labelsOfOutcome : Except LocatedFault Code → List String
  | .ok k => labelsOf (k.lifted ++ k.own)
  | .error _ => []

namespace SessionStep

/-- What a lowering hands out, and the counters that it leaves. -/
def ofLowering (x : LowerM Code) (c : LabelCounters) : List String × LabelCounters :=
  let (outcome, c) := x.run c
  (labelsOfOutcome outcome, c)

/-- The labels that a step hands out, and the counters that it leaves. -/
def run : SessionStep → LabelCounters → List String × LabelCounters
  | label base, c =>
    let (name, c) := c.drawLabel base
    ([name], c)
  | branch, c =>
    let (tag, c) := c.drawTag
    let labels := BranchLabels.ofTag tag
    ([labels.thenLabel, labels.elseLabel, labels.endLabel], c)
  | expression e, c => ofLowering e.lower c
  | statement s, c => ofLowering s.lower c
  | statements ss, c => ofLowering (Stmt.lowerAll ss) c

end SessionStep

/-- The labels that a session hands out, and the counters that it leaves. -/
def Session.run : List SessionStep → LabelCounters → List String × LabelCounters
  | [], c => ([], c)
  | x :: rest, c =>
    let (names, c) := x.run c
    let (others, c) := Session.run rest c
    (names ++ others, c)

/-- The number of draws that counters have seen since all of them were at zero. -/
def LabelCounters.allocations (c : LabelCounters) : Nat := c.entries.length

namespace LabelCounters

@[simp] theorem allocations_empty : empty.allocations = 0 := rfl

@[simp] theorem allocations_bump (base : String) :
    (c.bump base).allocations = c.allocations + 1 := rfl

@[simp] theorem allocations_drawAll (ds : List Draw) :
    (c.drawAll ds).allocations = c.allocations + ds.length := by
  induction ds generalizing c with
  | nil => rfl
  | cons d ds ih =>
    rw [drawAll_cons, ih, allocations_bump, List.length_cons]
    omega

end LabelCounters

/-! ### Steps and sessions make draws -/

/-- The labels that are handed out are among those of some draws, and the counters that are left
are those behind these draws. -/
def MakesDraws (c : LabelCounters) (ds : List Draw) (r : List String × LabelCounters) : Prop :=
  r.1.Subperm (c.issued ds) ∧ r.2 = c.drawAll ds

theorem MakesDraws.append {ds₁ ds₂ : List Draw} {r₁ r₂ : List String × LabelCounters}
    (h₁ : MakesDraws c ds₁ r₁) (h₂ : MakesDraws r₁.2 ds₂ r₂) :
    MakesDraws c (ds₁ ++ ds₂) (r₁.1 ++ r₂.1, r₂.2) := by
  obtain ⟨hlabels₁, hcounters₁⟩ := h₁
  obtain ⟨hlabels₂, hcounters₂⟩ := h₂
  rw [hcounters₁] at hlabels₂ hcounters₂
  refine ⟨?_, ?_⟩
  · rw [LabelCounters.issued_append]
    exact hlabels₁.append hlabels₂
  · rw [LabelCounters.drawAll_append]
    exact hcounters₂

/-- A lowering hands out the labels of all its draws, or fails and hands out none. -/
theorem SessionStep.exists_draws_ofLowering (P : Part) (c : LabelCounters) :
    ∃ ds, MakesDraws c ds (ofLowering P.lower c) := by
  unfold ofLowering
  rcases hrun : P.lower.run c with ⟨e | k, c'⟩
  · obtain ⟨made, -, hcounters⟩ := P.lower_draws.error hrun
    exact ⟨made, List.nil_subperm, hcounters⟩
  · exact ⟨P.draws, (lowers_iff.mpr hrun).labels_perm.subperm, P.lower_draws.ok hrun⟩

/-- **A step of a session makes draws**, and hands out labels of these draws only. -/
theorem SessionStep.exists_draws (x : SessionStep) (c : LabelCounters) :
    ∃ ds, MakesDraws c ds (x.run c) := by
  cases x with
  | label base => exact ⟨[.function base], .refl _, rfl⟩
  | branch => exact ⟨[.branch], .refl _, rfl⟩
  | expression e => exact exists_draws_ofLowering (.expression e) c
  | statement s =>
    obtain ⟨ds, h⟩ := exists_draws_ofLowering (.statements [s]) c
    refine ⟨ds, ?_⟩
    rwa [ofLowering, Part.lower, Stmt.run_lowerAll_singleton] at h
  | statements ss => exact exists_draws_ofLowering (.statements ss) c

/-- **A session makes draws**, and hands out labels of these draws only. -/
theorem Session.exists_draws (xs : List SessionStep) (c : LabelCounters) :
    ∃ ds, MakesDraws c ds (Session.run xs c) := by
  induction xs generalizing c with
  | nil => exact ⟨[], .refl _, rfl⟩
  | cons x xs ih =>
    obtain ⟨ds₁, h₁⟩ := x.exists_draws c
    obtain ⟨ds₂, h₂⟩ := ih (x.run c).2
    exact ⟨ds₁ ++ ds₂, h₁.append h₂⟩

/-- The counters that a session leaves are those that its last part leaves. -/
theorem Session.counters_append_cons (pre post : List SessionStep) (x : SessionStep)
    (c : LabelCounters) : (Session.run (pre ++ x :: post) c).2
      = (Session.run post (x.run (Session.run pre c).2).2).2 := by
  induction pre generalizing c with
  | nil => rfl
  | cons y pre ih => exact ih (y.run c).2

/-! ## Freshness -/

/-- **A session is fresh throughout.** The labels that are drawn by hand, the labels of
conditionals, and the labels in the code of the lowerings that succeed are all distinct, and none
of them is the label of a program. No counter goes back in any step, whether or not it fails. -/
theorem session_fresh {xs : List SessionStep}
    (hsize : (Session.run xs .empty).2.allocations < 2 ^ 32) :
    (Session.run xs .empty).1.Nodup ∧ Label.main ∉ (Session.run xs .empty).1 ∧
      ∀ pre x post, xs = pre ++ x :: post → ∀ name,
        (Session.run pre .empty).2.count name
          ≤ (x.run (Session.run pre .empty).2).2.count name := by
  obtain ⟨ds, hlabels, hcounters⟩ := Session.exists_draws xs .empty
  have hfits : LabelCounters.empty.NoOverflow ds := by
    refine LabelCounters.noOverflow_empty ?_
    simpa [hcounters] using hsize
  refine ⟨?_, fun hmain => ?_, ?_⟩
  · obtain ⟨names, hperm, hsublist⟩ := hlabels
    exact hperm.nodup_iff.mp ((LabelCounters.issued_nodup hfits).sublist hsublist)
  · exact LabelCounters.main_not_mem_issued hfits (hlabels.subset hmain)
  · rintro pre x post rfl name
    obtain ⟨ds₁, -, hpre⟩ := Session.exists_draws pre .empty
    obtain ⟨ds₂, -, hx⟩ := x.exists_draws (Session.run pre .empty).2
    obtain ⟨ds₃, -, hpost⟩ := Session.exists_draws post (x.run (Session.run pre .empty).2).2
    rw [hx, hpre] at hpost
    have hfits : LabelCounters.empty.NoOverflow (ds₁ ++ ds₂) := by
      refine LabelCounters.noOverflow_empty ?_
      rw [Session.counters_append_cons, hx, hpre, hpost] at hsize
      simp only [LabelCounters.allocations_drawAll, LabelCounters.allocations_empty] at hsize
      rw [List.length_append]
      omega
    rw [hx, hpre]
    exact LabelCounters.count_le_count_drawAll hfits.of_append name

/-- A session with bases that look like labels. The lowering in it fails behind two draws, one of
them for a function with the name of a base of conditionals. -/
def mixedSession : List SessionStep :=
  [.label "if$0", .branch,
    .expression (.ifElse (.symbol "c")
      [.mk .discard (.lambda (some "else") [] [.mk .discard (.integer 1) none]) none] []),
    .label "endif",
    .statement (.mk .discard (.lambda (some "if_0") [] [.mk .discard .list none]) none)]

/-- Neither the numbers that the failing lowering has drawn nor a name that is written like a label
makes two labels alike. -/
theorem mixedSession_fresh :
    (Session.run mixedSession .empty).2.allocations < 2 ^ 32 ∧
      (Session.run mixedSession .empty).1
        = ["if$0$0", "if$0", "else$0", "endif$0", "endif$3", "if$0$1"] ∧
      (Session.run mixedSession .empty).1.Nodup ∧
      Label.main ∉ (Session.run mixedSession .empty).1 ∧
      ∀ pre x post, mixedSession = pre ++ x :: post → ∀ name,
        (Session.run pre .empty).2.count name
          ≤ (x.run (Session.run pre .empty).2).2.count name :=
  have hsize : (Session.run mixedSession .empty).2.allocations < 2 ^ 32 := by decide
  ⟨hsize, rfl, session_fresh hsize⟩

end StackLowering
