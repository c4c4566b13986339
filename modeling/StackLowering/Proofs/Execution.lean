import StackLowering.Proofs.Blocks

/-!
# Running a program and evaluating its tree

A tree has a meaning of its own. Statements are evaluated in order, an expression works on the
state by its instructions, and of a conditional only one arm is evaluated. The run of the listing
comes to the same state, although the listing is flat: arms stand behind one another and are left
and entered by jumps, and the blocks of functions stand in front of everything.

The label of a function appears in the instruction that makes its closure, so an evaluation knows
the counters from which the labels of a part are drawn. The counters behind a part are those that
its draws leave, whether or not the part is evaluated.

A function is not run where its closure is made. Its block runs from its label, when it is called:
it takes its arguments, evaluates its body, and stops at its return. What a call does beyond that is
left to the machine.

## Main definitions

* `Expr.eval`, `Stmt.evalAll`, `Stmt.evalBody`, `Program.eval` — the evaluation of a tree
* `LiftedFunction.eval` — the evaluation of a function from its arguments on

## Main results

* `Lowers.reaches` — the code of a part runs from its start to its end as the part is evaluated
* `LiftedFunction.reaches_block` — the block of a function runs from its label to its return
* `reaches_end_of_lower` — the run of a program reaches its end in the state of the evaluation
* `reaches_return_of_lower` — the run of each of its functions reaches a return in that state
-/

namespace StackLowering

universe u

variable {S : Type u}

/-! ## Evaluating a tree -/

/-- What becomes of the value of a statement. -/
def Action.eval (M : Machine S) : Action → S → S
  | .discard, s => M.effect ⟨.drop, none⟩ s
  | .push, s => s
  | .assign target, s => M.effect ⟨.pop, some (.symbol target)⟩ s
  | .declare name, s => M.effect ⟨.pop, some (.symbol name)⟩ s

mutual

/-- The state behind an expression whose labels are drawn from these counters. -/
def Expr.eval (M : Machine S) : Expr → LabelCounters → S → S
  | .call callee n, c, s =>
    match (Expr.call callee n).instruction? with
    | some i => M.effect i s
    | none => M.effect ⟨.call, some (.count n)⟩ (callee.eval M c s)
  | .ifElse condition thenArm elseArm, c, s =>
    let c₁ := c.bump BranchLabels.thenBase
    let c₂ := c₁.drawAll condition.draws
    let (outcome, s₁) := M.test (condition.eval M c₁ s)
    if outcome then Stmt.evalBody M thenArm c₂ s₁
    else Stmt.evalBody M elseArm (c₂.drawAll (Stmt.drawsAll thenArm)) s₁
  | .lambda name _ _, c, s =>
    let base := Label.lambdaBase name
    M.effect ⟨.close, some (.label (Label.numbered base (c.count base)))⟩ s
  | e, _, s =>
    match e.instruction? with
    | some i => M.effect i s
    | none => s

/-- The state behind statements that are evaluated one after the other. -/
def Stmt.evalAll (M : Machine S) : List Stmt → LabelCounters → S → S
  | [], _, s => s
  | .mk a e _ :: rest, c, s =>
    Stmt.evalAll M rest (c.drawAll e.draws) (a.eval M (e.eval M c s))

/-- The state behind a body: the value of its last statement is left where it is. -/
def Stmt.evalBody (M : Machine S) : List Stmt → LabelCounters → S → S
  | [], _, s => s
  | .mk a e _ :: rest, c, s =>
    if rest.isEmpty then e.eval M c s
    else Stmt.evalBody M rest (c.drawAll e.draws) (a.eval M (e.eval M c s))

end

/-- The state behind a program. -/
def Program.eval (M : Machine S) (p : Program) (s : S) : S :=
  Stmt.evalAll M p.statements LabelCounters.empty s

/-- The state in which a function returns: it takes its arguments, and its body is evaluated. -/
def LiftedFunction.eval (M : Machine S) (f : LiftedFunction) (c : LabelCounters) (s : S) : S :=
  Stmt.evalBody M f.body c (M.receive f.formals s)

/-- The state behind a part. -/
def Part.eval (M : Machine S) : Part → LabelCounters → S → S
  | .expression e => e.eval M
  | .statements ss => Stmt.evalAll M ss
  | .body ss => Stmt.evalBody M ss

/-! ### Evaluation, form by form -/

variable {M : Machine S} {e f : Expr} {ss : List Stmt} {c c' : LabelCounters} {k : Code} {s : S}

theorem Expr.eval_of_instruction? {i : Instruction} (h : e.instruction? = some i) :
    e.eval M c s = M.effect i s := by
  cases e with
  | builtin | ifElse | lambda => cases h
  | _ => simp only [Expr.eval, h]

theorem Stmt.evalAll_append (ss ts : List Stmt) :
    Stmt.evalAll M (ss ++ ts) c s
      = Stmt.evalAll M ts (c.drawAll (Stmt.drawsAll ss)) (Stmt.evalAll M ss c s) := by
  induction ss generalizing c s with
  | nil => rfl
  | cons t ss ih =>
    obtain ⟨a, e, l⟩ := t
    rw [List.cons_append, Stmt.evalAll, ih, Stmt.evalAll, Stmt.drawsAll, Stmt.draws,
      LabelCounters.drawAll_append]

/-- A body is its statements up to the last, and then the last expression. -/
theorem Stmt.evalBody_concat (ss : List Stmt) (a : Action) (e : Expr) (l : Option Location) :
    Stmt.evalBody M (ss ++ [.mk a e l]) c s
      = e.eval M (c.drawAll (Stmt.drawsAll ss)) (Stmt.evalAll M ss c s) := by
  induction ss generalizing c s with
  | nil => rfl
  | cons t ss ih =>
    obtain ⟨b, f, l'⟩ := t
    rw [List.cons_append, Stmt.evalBody, if_neg (by simp), ih, Stmt.evalAll, Stmt.drawsAll,
      Stmt.draws, LabelCounters.drawAll_append]

/-! ## Running the code of a part -/

/-- The entries that give a value to a name, discard it or leave it run as the statement says. -/
theorem Action.reaches {l : Listing} {i : Nat} (a : Action)
    (hat : StandsAt l.entries i a.entries) :
    M.Reaches l ⟨i, s⟩ ⟨i + a.entries.length, a.eval M s⟩ := by
  cases a with
  | push => exact .refl
  | discard | assign | declare =>
    exact .single (Machine.step_effect hat.1 (by simp))

/-- The code of a conditional runs the arm that the test chooses, and no other. -/
theorem Code.ofArms_reaches {labels : BranchLabels} {k₁ k₂ k₃ : Code} {l : Listing}
    (hnodup : l.labels.Nodup) {i : Nat} {s₁ s₂ : S}
    (hat : StandsAt l.entries i (Code.ofArms labels k₁ k₂ k₃).own)
    (hcondition : StandsAt l.entries i k₁.own →
      M.Reaches l ⟨i, s⟩ ⟨i + k₁.own.length, s₁⟩)
    (hthen : ∀ j, StandsAt l.entries j k₂.own → (M.test s₁).1 = true →
      M.Reaches l ⟨j, (M.test s₁).2⟩ ⟨j + k₂.own.length, s₂⟩)
    (helse : ∀ j, StandsAt l.entries j k₃.own → (M.test s₁).1 = false →
      M.Reaches l ⟨j, (M.test s₁).2⟩ ⟨j + k₃.own.length, s₂⟩) :
    M.Reaches l ⟨i, s⟩ ⟨i + (Code.ofArms labels k₁ k₂ k₃).own.length, s₂⟩ := by
  simp only [Code.ofArms, standsAt_append, standsAt_cons, standsAt_nil, and_true,
    List.length_append, List.length_cons, List.length_nil, Nat.add_assoc, Nat.reduceAdd] at hat ⊢
  obtain ⟨⟨⟨⟨⟨hk₁, hbranch, henter, hthenLabel⟩, hk₂⟩, hleave, helseLabel⟩, hk₃⟩, hendLabel⟩ := hat
  have hthenAt := position?_eq_some hnodup hthenLabel
  have helseAt := position?_eq_some hnodup helseLabel
  have hendAt := position?_eq_some hnodup hendLabel
  refine (hcondition hk₁).trans (.head (Machine.step_jumpIfFalse hbranch helseAt) ?_)
  cases houtcome : (M.test s₁).1 with
  | true =>
    -- into the first arm, through it, and over the second one
    have harm := hthen _ hk₂ houtcome
    have hexit := Machine.step_jump (M := M) (s := s₂) hleave hendAt
    simp only [Nat.add_assoc] at harm hexit
    rw [if_pos rfl]
    refine .head (Machine.step_jump henter hthenAt) (.head (Machine.step_label hthenLabel) ?_)
    exact harm.trans (.head hexit (.single (Machine.step_label hendLabel)))
  | false =>
    have harm := helse _ hk₃ houtcome
    simp only [Nat.add_assoc] at harm
    rw [if_neg Bool.false_ne_true]
    refine .head (Machine.step_label helseLabel) ?_
    exact harm.trans (.single (Machine.step_label hendLabel))

/-- **Simulation.** Where the code of a part stands in a listing in which no label stands twice,
it runs from its start to its end as the part is evaluated. -/
theorem Lowers.reaches {P : Part} (h : Lowers P c k c') {l : Listing} (hnodup : l.labels.Nodup)
    {i : Nat} (hat : StandsAt l.entries i k.own) :
    M.Reaches l ⟨i, s⟩ ⟨i + k.own.length, P.eval M c s⟩ := by
  induction h generalizing i s with
  | instruction h =>
    have hvalue := (Expr.makesValue_of_instruction? h).1
    rw [Part.eval, Expr.eval_of_instruction? h]
    refine .single (Machine.step_effect hat.1 ⟨?_, ?_, ?_, ?_⟩) <;>
      · intro hm
        rw [hm] at hvalue
        cases hvalue
  | call hf _ ih =>
    obtain ⟨hcallee, hcall⟩ := standsAt_append.mp hat
    refine (ih hcallee).tail ?_
    rw [Machine.step_effect hcall.1 (by simp)]
    simp [Part.eval, Expr.eval, Expr.instruction?_call hf, Nat.add_assoc]
  | @ifElse e ss ts c c₁ c₂ c₃ k₁ k₂ k₃ h₁ h₂ h₃ ih₁ ih₂ ih₃ =>
    refine Code.ofArms_reaches hnodup hat ih₁ (fun j hj houtcome => ?_) fun j hj houtcome => ?_
    · have harm := ih₂ (s := (M.test (e.eval M (c.bump BranchLabels.thenBase) s)).2) hj
      rw [h₁.counters] at harm
      simp only [Part.eval, Part.draws] at harm houtcome ⊢
      simpa only [Expr.eval, houtcome, if_true] using harm
    · have harm := ih₃ (s := (M.test (e.eval M (c.bump BranchLabels.thenBase) s)).2) hj
      rw [h₂.counters, h₁.counters] at harm
      simp only [Part.eval, Part.draws] at harm houtcome ⊢
      simpa only [Expr.eval, houtcome, Bool.false_eq_true, if_false] using harm
  | lambda _ _ => exact .single (Machine.step_effect hat.1 (by simp))
  | nil => exact .refl
  | @snoc ss a e l' c c₁ c₂ k₁ k₂ h₁ h₂ ih₁ ih₂ =>
    rw [Code.own_append, Code.own_ofAction, standsAt_append, standsAt_append] at hat
    obtain ⟨hinit, hlast, haction⟩ := hat
    have heval : (Part.statements (ss ++ [.mk a e l'])).eval M c s
        = a.eval M (e.eval M c₁ (Stmt.evalAll M ss c s)) := by
      rw [Part.eval, Stmt.evalAll_append, h₁.counters]
      rfl
    have hlength : i + (k₁ ++ k₂.ofAction a).own.length
        = i + k₁.own.length + k₂.own.length + a.entries.length := by
      simp [Nat.add_assoc]
    rw [heval, hlength]
    exact ((ih₁ hinit).trans (ih₂ hlast)).trans (a.reaches haction)
  | @body ss e l' c c₁ c₂ k₁ k₂ h₁ h₂ ih₁ ih₂ =>
    rw [Code.own_append, standsAt_append] at hat
    obtain ⟨hinit, hlast⟩ := hat
    rw [Part.eval, Stmt.evalBody_concat, Code.own_append, List.length_append, ← Nat.add_assoc]
    have hlast' := ih₂ (s := Stmt.evalAll M ss c s) hlast
    rw [h₁.counters] at hlast'
    exact (ih₁ hinit).trans hlast'

/-! ## Running the block of a function -/

variable {l : Listing}

namespace LiftedFunction

variable {f : LiftedFunction} {i : Nat}

theorem standsAt_block {es : List Entry} : StandsAt l.entries i (f.block es) ↔
    l.entries[i]? = some (.label f.label) ∧ StandsAt l.entries (i + 1) (popFormals f.formals) ∧
      StandsAt l.entries (i + 1 + f.formals.length) es ∧
      l.entries[i + 1 + f.formals.length + es.length]? = some (.op .ret none) := by
  simp only [block, standsAt_cons, standsAt_append, standsAt_nil, and_true, List.length_append,
    length_popFormals, and_assoc, Nat.add_assoc]

/-- **A block runs as its function is evaluated**: from its label through the instructions of the
formals and the code of the body to its return. -/
theorem reaches_block (h : Lowers (.body f.body) c k c') (hnodup : l.labels.Nodup)
    (hat : StandsAt l.entries i (f.block k.own)) :
    M.Reaches l ⟨i, s⟩ ⟨i + 1 + f.formals.length + k.own.length, f.eval M c s⟩ := by
  obtain ⟨hlabel, hformals, hbody, -⟩ := standsAt_block.mp hat
  have htake : M.Reaches l ⟨i, s⟩ ⟨i + 1 + f.formals.length, M.receive f.formals s⟩ :=
    .head (Machine.step_label hlabel) (Machine.reaches_popFormals hformals)
  exact htake.trans (h.reaches hnodup hbody)

end LiftedFunction

/-! ## Running a program -/

variable {p : Program}

/-- **The run of a program comes to the state of its evaluation.** From its label the program runs
to its last entry, the end, where the machine stops. -/
theorem reaches_end_of_lower (hsize : p.draws.length < 2 ^ 32) (hl : p.lower = .ok l)
    (M : Machine S) (s : S) :
    ∃ start, l.position? Label.main = some start ∧
      M.Reaches l ⟨start, s⟩ ⟨l.length - 1, p.eval M s⟩ ∧
      l.entries[l.length - 1]? = some (.op .halt none) ∧
      M.step l ⟨l.length - 1, p.eval M s⟩ = none := by
  have hnodup := labels_nodup_of_lower hsize hl
  obtain ⟨k, c', hk, rfl⟩ := Program.lower_eq_ok_iff.mp hl
  have hentries : k.toListing.entries
      = k.lifted ++ ([.label Label.main] ++ k.own ++ [.op .halt none]) ++ [] := by
    simp [Code.toListing]
  have hat := standsAt_middle k.lifted ([.label Label.main] ++ k.own ++ [.op .halt none]) []
  rw [← hentries] at hat
  obtain ⟨⟨⟨hmain, -⟩, hown⟩, hhalt, -⟩ := by simpa only [standsAt_append] using hat
  have hlast : k.toListing.length - 1 = k.lifted.length + 1 + k.own.length := by
    simp only [Listing.length, hentries, List.length_append, List.length_cons, List.length_nil]
    omega
  have hhalt' : k.toListing.entries[k.toListing.length - 1]? = some (.op .halt none) := by
    rw [hlast]
    simpa [Nat.add_assoc, Nat.add_comm 1] using hhalt
  refine ⟨k.lifted.length, position?_eq_some hnodup hmain, ?_, hhalt', Machine.step_halt hhalt'⟩
  rw [hlast]
  exact .head (Machine.step_label hmain) (hk.reaches hnodup hown)

/-- **The run of a function comes to the state of its evaluation.** Each function of a program has
a block in the listing, around the code of its body. From the label of the function every machine
runs through the block to the return at its end, and stops there. -/
theorem reaches_return_of_lower (hsize : p.draws.length < 2 ^ 32) (hl : p.lower = .ok l)
    {f : LiftedFunction} (hf : f ∈ p.functions) :
    ∃ start finish c k c', l.position? f.label = some start ∧
      (lowerBody f.body).run c = (.ok k, c') ∧ StandsAt l.entries start (f.block k.own) ∧
      finish + 1 = start + (f.block k.own).length ∧
      l.entries[finish]? = some (.op .ret none) ∧
      ∀ {S : Type u} (M : Machine S) (s : S),
        M.Reaches l ⟨start, s⟩ ⟨finish, f.eval M c s⟩ ∧
          M.step l ⟨finish, f.eval M c s⟩ = none := by
  have hnodup := labels_nodup_of_lower hsize hl
  obtain ⟨k, c', hk, rfl⟩ := Program.lower_eq_ok_iff.mp hl
  obtain ⟨bs, hbs⟩ := hk.exists_blocks
  obtain ⟨b, hb, c₁, k₁, c₂, hbody, rfl⟩ := exists_of_mem_forall₂_left hbs.functions hf
  obtain ⟨front, back, rfl⟩ := List.append_of_mem hb
  have hentries : k.toListing.entries = front.flatten ++ f.block k₁.own
      ++ (back.flatten ++ .label Label.main :: (k.own ++ [.op .halt none])) := by
    simp [Code.toListing, hbs.lifted]
  have hat := standsAt_middle front.flatten (f.block k₁.own)
    (back.flatten ++ .label Label.main :: (k.own ++ [.op .halt none]))
  rw [← hentries] at hat
  obtain ⟨hlabel, -, -, hreturn⟩ := LiftedFunction.standsAt_block.mp hat
  refine ⟨_, _, c₁, k₁, c₂, position?_eq_some hnodup hlabel, hbody.run, hat, ?_, hreturn,
    fun M s => ⟨LiftedFunction.reaches_block hbody hnodup hat, Machine.step_ret hreturn⟩⟩
  rw [f.length_block]
  omega

/-- A machine whose state is the list of the instructions that it has come by, and whose tests all
have this outcome. -/
def Machine.recording (outcome : Bool) : Machine (List Instruction) where
  effect i s := s ++ [i]
  test s := (outcome, s)

/-- When the test fails, the function of the second arm is closed over and then discarded. -/
theorem functionsInArms_reaches_end :
    functionsInArms.draws.length < 2 ^ 32 ∧
      functionsInArms.lower = .ok functionsInArmsListing ∧
      ∃ start, functionsInArmsListing.position? Label.main = some start ∧
        (Machine.recording false).Reaches functionsInArmsListing ⟨start, []⟩
          ⟨18, [⟨.push, some (.symbol "c")⟩, ⟨.close, some (.label "__lambda__$0")⟩, .drop]⟩ ∧
        functionsInArmsListing.entries[18]? = some (.op .halt none) ∧
        (Machine.recording false).step functionsInArmsListing
          ⟨18, [⟨.push, some (.symbol "c")⟩, ⟨.close, some (.label "__lambda__$0")⟩, .drop]⟩
            = none :=
  have hsize : functionsInArms.draws.length < 2 ^ 32 := by decide
  have hlower : functionsInArms.lower = .ok functionsInArmsListing := rfl
  ⟨hsize, hlower, reaches_end_of_lower hsize hlower (Machine.recording false) []⟩

end StackLowering
