import StackLowering.Lowering.Basic
import StackLowering.Proofs.Draws

/-!
# What a lowering draws

A lowering that succeeds has made the draws of its tree, and one that fails has made the first of
them. Nothing is given back: the counters behind a lowering are those behind draws, however it
ends.

## Main definitions

* `LowerM.Draws` — a step makes these draws, or only the first of them when it fails

## Main results

* `Expr.lower_draws`, `Stmt.lower_draws`, `Stmt.lowerAll_draws` — a lowering makes the draws of its
  tree
-/

namespace StackLowering

namespace LowerM

variable {α β : Type} {x : LowerM α} {ds ds₁ ds₂ : List Draw}

/-- The step makes these draws, or only the first of them when it fails. -/
structure Draws (x : LowerM α) (ds : List Draw) : Prop where
  ok : ∀ {c c' a}, x.run c = (.ok a, c') → c' = c.drawAll ds
  error : ∀ {c c' e}, x.run c = (.error e, c') → ∃ made, made <+: ds ∧ c' = c.drawAll made

namespace Draws

theorem ofExcept (r : Except LocatedFault α) : (ofExcept r).Draws [] where
  ok h := (congrArg Prod.snd h).symm
  error h := ⟨[], List.prefix_rfl, (congrArg Prod.snd h).symm⟩

theorem drawTag : LowerM.drawTag.Draws [.branch] where
  ok h := (congrArg Prod.snd h).symm
  error h := by cases h

theorem drawLabel (base : String) : (LowerM.drawLabel base).Draws [.function base] where
  ok h := (congrArg Prod.snd h).symm
  error h := by cases h

/-- A step behind another makes its draws behind those of the other one. -/
theorem bind {f : α → LowerM β} (hx : x.Draws ds₁) (hf : ∀ a, (f a).Draws ds₂) :
    (x >>= f).Draws (ds₁ ++ ds₂) where
  ok h := by
    obtain ⟨a, c₁, hfirst, hsecond⟩ := run_bind_eq_ok.mp h
    rw [(hf a).ok hsecond, hx.ok hfirst, LabelCounters.drawAll_append]
  error h := by
    rcases run_bind_eq_error.mp h with hfirst | ⟨a, c₁, hfirst, hsecond⟩
    · obtain ⟨made, hmade, rfl⟩ := hx.error hfirst
      exact ⟨made, hmade.trans (List.prefix_append _ _), rfl⟩
    · obtain ⟨made, hmade, rfl⟩ := (hf a).error hsecond
      refine ⟨ds₁ ++ made, (List.prefix_append_right_inj ds₁).mpr hmade, ?_⟩
      rw [hx.ok hfirst, LabelCounters.drawAll_append]

/-- A step that draws nothing may stand at the end. -/
theorem andThen {f : α → LowerM β} (hx : x.Draws ds) (hf : ∀ a, (f a).Draws []) :
    (x >>= f).Draws ds := by
  simpa using hx.bind hf

theorem locate (hx : x.Draws ds) (l : Option Location) : (x.locate l).Draws ds where
  ok h := hx.ok (run_locate_eq_ok.mp h)
  error h := by
    obtain ⟨e, he, -⟩ := run_locate_eq_error.mp h
    exact hx.error he

end Draws

end LowerM

/-! ### The lowering of a tree -/

open LowerM in
mutual

/-- The lowering of an expression makes the draws of the expression. -/
theorem Expr.lower_draws : ∀ e : Expr, e.lower.Draws e.draws
  | .builtin _ => .ofExcept _
  | .call callee n => by
    rw [Expr.lower, Expr.draws]
    cases hcallee : callee.builtin? with
    | some symbol =>
      obtain rfl := Expr.builtin?_eq_some.mp hcallee
      exact (Draws.ofExcept _).andThen fun _ => .ofExcept _
    | none => exact callee.lower_draws.andThen fun _ => .ofExcept _
  | .ifElse condition thenArm elseArm => by
    rw [Expr.lower, Expr.draws, List.append_assoc]
    refine Draws.drawTag.bind fun tag => condition.lower_draws.bind fun k₁ => ?_
    refine (Stmt.lowerAll_draws thenArm).bind fun k₂ => ?_
    refine (Draws.ofExcept _).bind fun k₂ => (Stmt.lowerAll_draws elseArm).andThen fun k₃ => ?_
    exact (Draws.ofExcept _).andThen fun k₃ => .ofExcept _
  | .lambda name formals body => by
    rw [Expr.lower, Expr.draws]
    refine (Draws.drawLabel _).bind fun label => (Stmt.lowerAll_draws body).andThen fun k => ?_
    exact (Draws.ofExcept _).andThen fun k => .ofExcept _
  | .integer _ | .list | .string _ | .record _ | .symbol _ | .symbolLiteral _ | .variable _ =>
    .ofExcept _

/-- The lowering of a statement makes the draws of the statement. -/
theorem Stmt.lower_draws : ∀ s : Stmt, s.lower.Draws s.draws
  | .mk _ e l => (e.lower_draws.andThen fun _ => .ofExcept _).locate l

/-- The lowering of statements makes the draws of the statements. -/
theorem Stmt.lowerAll_draws : ∀ ss : List Stmt, (Stmt.lowerAll ss).Draws (Stmt.drawsAll ss)
  | [] => .ofExcept _
  | s :: rest => s.lower_draws.bind fun _ => (Stmt.lowerAll_draws rest).andThen fun _ => .ofExcept _

end

end StackLowering
