import StackLowering.Proofs.Execution

/-!
# What a function takes from its caller

The arguments of a call are pushed from left to right, so the last one is on top. The block of a
function takes them off in that order, and the first formal is bound last. A name that stands
several times among the formals keeps the value of its first place for that reason.

A body may begin with statements that name values, and these are instructions of the same kind as
those of the formals. But a value has to be made before it is named, so the code of a body never
begins with such an instruction: where the formals end can be seen from the block alone.

## Scope

What other instructions do, and what happens when a value is taken off an empty stack, is left
open. The hypothesis on a machine speaks of stacks that have a top.

## Main definitions

* `Operands`, `Machine.BindsPopped` — machines with a stack and names, and what they do to both
* `Operands.receive` — the values of names when the formals have received the arguments
* `Entry.isPop` — the entries that take a value off the stack for a name

## Main results

* `Machine.BindsPopped.receive` — the instructions of the formals bind the arguments
* `LiftedFunction.eval_of_bindsPopped` — so a function is evaluated with its own arguments
* `Lowers.takeWhile_isPop` — the instructions of the formals end where the body begins
* `formals_receive_arguments` — both for every function that is lowered
-/

namespace StackLowering

universe u

/-! ## Machines with a stack and names -/

/-- The values on the stack, the top first, and the values of names. -/
structure Operands (V : Type u) where
  stack : List V
  bindings : String → Option V

variable {V : Type u}

/-- A value that is taken off the stack for a name is bound to the name. -/
def Machine.BindsPopped (M : Machine (Operands V)) : Prop :=
  ∀ (name : String) (v : V) (rest : List V) (bindings : String → Option V),
    M.effect ⟨.pop, some (.symbol name)⟩ ⟨v :: rest, bindings⟩
      = ⟨rest, Function.update bindings name (some v)⟩

/-- The values of names when the formals have received the arguments: that of a formal is the
argument in its first place. -/
def Operands.receive (formals : List String) (args : List V) (bindings : String → Option V) :
    String → Option V :=
  fun name => if name ∈ formals then args[formals.idxOf name]? else bindings name

/-- The first formal is bound last. -/
theorem Operands.receive_cons (name : String) (formals : List String) (v : V) (args : List V)
    (bindings : String → Option V) :
    receive (name :: formals) (v :: args) bindings
      = Function.update (receive formals args bindings) name (some v) := by
  funext x
  by_cases hx : x = name
  · subst hx
    simp [receive]
  · rw [Function.update_of_ne hx, receive, receive, List.idxOf_cons_ne formals (Ne.symm hx)]
    simp [hx]

/-! ## The instructions of the formals -/

/-- **The instructions of the formals bind the arguments** that lie on the stack, and leave what
lies below them. -/
theorem Machine.BindsPopped.receive {M : Machine (Operands V)} (hM : M.BindsPopped)
    {formals : List String} {args : List V} (hlength : args.length = formals.length)
    (stack : List V) (bindings : String → Option V) :
    M.receive formals ⟨args.reverse ++ stack, bindings⟩
      = ⟨stack, Operands.receive formals args bindings⟩ := by
  -- the first formal comes last, so below the arguments of the others lies its own
  induction formals generalizing args stack with
  | nil =>
    rw [List.length_eq_zero_iff.mp hlength]
    rfl
  | cons name formals ih =>
    obtain ⟨v, args, rfl⟩ := List.exists_cons_of_length_eq_add_one hlength
    have hothers := ih (Nat.succ.inj hlength) (v :: stack)
    rw [List.reverse_cons, List.append_assoc, List.singleton_append, Machine.receive_cons, hothers,
      hM, ← Operands.receive_cons]

/-- A function is evaluated with its formals bound to its arguments, and with the stack below
them. -/
theorem LiftedFunction.eval_of_bindsPopped {M : Machine (Operands V)} (hM : M.BindsPopped)
    {f : LiftedFunction} {args : List V} (hlength : args.length = f.formals.length)
    (c : LabelCounters) (stack : List V) (bindings : String → Option V) :
    f.eval M c ⟨args.reverse ++ stack, bindings⟩
      = Stmt.evalBody M f.body c ⟨stack, Operands.receive f.formals args bindings⟩ := by
  rw [eval, hM.receive hlength]

/-! ## Where the formals end -/

/-- Whether an entry takes a value off the stack for a name. -/
def Entry.isPop : Entry → Bool
  | .instruction i => i.mnemonic == .pop
  | .label _ => false

theorem isPop_of_mem_popFormals {formals : List String} :
    ∀ x ∈ popFormals formals, x.isPop = true := by
  intro x hx
  obtain ⟨name, -, rfl⟩ := mem_popFormals.mp hx
  rfl

theorem StartsWithValue.takeWhile_isPop {es : List Entry} (h : StartsWithValue es) :
    es.takeWhile Entry.isPop = [] := by
  obtain ⟨⟨m, o⟩, rest, rfl, hm⟩ := h
  have hpop : m ≠ .pop := by
    rintro rfl
    simp [Mnemonic.makesValue] at hm
  simp [Entry.isPop, hpop]

/-- The instructions of the formals end where the body begins, whatever the body begins with. -/
theorem Lowers.takeWhile_isPop {ss : List Stmt} {c c' : LabelCounters} {k : Code}
    (h : Lowers (.body ss) c k c') (formals : List String) (rest : List Entry) :
    (popFormals formals ++ k.own ++ rest).takeWhile Entry.isPop = popFormals formals := by
  have hbody := ((h.startsWithValue (by simp)).append rest).takeWhile_isPop
  rw [List.append_assoc, List.takeWhile_append_of_pos isPop_of_mem_popFormals, hbody,
    List.append_nil]

/-! ## Functions that are lowered -/

/-- **The formals of a function receive their own arguments.** Behind the label of its block a
function has the instructions of its formals, which are all the instructions of their kind that
stand there, and then the code of its body, which is not empty. Wherever they stand, a machine goes
through these instructions to the body: it takes the arguments off the stack, binds each formal to
the argument in the first place of the formal, and changes nothing else. -/
theorem formals_receive_arguments {name : Option String} {formals : List String}
    {ss : List Stmt} {c c' : LabelCounters} {k : Code}
    (h : (Expr.lambda name formals ss).lower.run c = (.ok k, c')) :
    ∃ (body : Code) (entries : List Entry),
      (lowerBody ss).run (c.bump (Label.lambdaBase name)) = (.ok body, c') ∧
      entries = popFormals formals ++ body.own ++ [.op .ret none] ∧
      k.lifted = body.lifted ++
        .label (Label.numbered (Label.lambdaBase name) (c.count (Label.lambdaBase name))) ::
          entries ∧
      body.own ≠ [] ∧ entries.takeWhile Entry.isPop = popFormals formals ∧
      ∀ (V : Type u) (M : Machine (Operands V)), M.BindsPopped →
        ∀ (l : Listing) (i : Nat), StandsAt l.entries i entries →
          ∀ args : List V, args.length = formals.length → ∀ stack bindings,
            M.Reaches l ⟨i, ⟨args.reverse ++ stack, bindings⟩⟩
              ⟨i + formals.length, ⟨stack, Operands.receive formals args bindings⟩⟩ := by
  have hk := (Expr.lambda name formals ss).lowers_of_run h
  cases hk with
  | instruction hi => cases hi
  | @lambda _ _ _ _ _ body hbody =>
    refine ⟨body, _, hbody.run, rfl, by simp [Code.ofLambda], ?_, hbody.takeWhile_isPop _ _, ?_⟩
    · obtain ⟨i, rest, hown, -⟩ := hbody.startsWithValue (by simp)
      simp [hown]
    · intro V M hM l i hat args hlength stack bindings
      rw [List.append_assoc, standsAt_append] at hat
      rw [← hM.receive hlength]
      exact Machine.reaches_popFormals hat.1

/-- A machine that does nothing but bind what is taken off its stack. -/
def Machine.binding (V : Type u) : Machine (Operands V) where
  effect
    | ⟨.pop, some (.symbol name)⟩, ⟨v :: rest, bindings⟩ =>
      ⟨rest, Function.update bindings name (some v)⟩
    | _, s => s
  test s := (true, s)

theorem Machine.binding_bindsPopped (V : Type u) : (binding V).BindsPopped := by
  intro name v rest bindings
  rfl

/-- A function with one formal twice, whose body names a value first. -/
def repeatedFormal : Expr :=
  .lambda (some "f") ["x", "y", "x"]
    [.mk (.assign "z") (.symbol "x") none, .mk .discard (.symbol "z") none]

/-- The code of the function: the instructions of its formals stand behind its label, up to the one
that makes the value of the body's first name. -/
def repeatedFormalCode : Code where
  lifted :=
    [.label "f$0", .op .pop (some (.symbol "x")), .op .pop (some (.symbol "y")),
      .op .pop (some (.symbol "x")), .op .push (some (.symbol "x")),
      .op .pop (some (.symbol "z")), .op .push (some (.symbol "z")), .op .ret none]
  own := [.op .close (some (.label "f$0"))]

/-- Of three arguments the first one is the value of the formal that stands twice. -/
theorem repeatedFormal_receives :
    repeatedFormal.lower.run .empty
        = (.ok repeatedFormalCode, LabelCounters.empty.bump (Label.lambdaBase (some "f"))) ∧
      (Machine.binding Nat).BindsPopped ∧
      StandsAt repeatedFormalCode.toListing.entries 1 repeatedFormalCode.lifted.tail ∧
      repeatedFormalCode.lifted.tail.takeWhile Entry.isPop = popFormals ["x", "y", "x"] ∧
      ∃ bindings, (Machine.binding Nat).Reaches repeatedFormalCode.toListing
          ⟨1, ⟨[30, 20, 10, 7], fun _ => none⟩⟩ ⟨4, ⟨[7], bindings⟩⟩ ∧
        bindings "x" = some 10 ∧ bindings "y" = some 20 ∧ bindings "z" = none := by
  have hlower : repeatedFormal.lower.run .empty
      = (.ok repeatedFormalCode, LabelCounters.empty.bump (Label.lambdaBase (some "f"))) := rfl
  have hat : StandsAt repeatedFormalCode.toListing.entries 1 repeatedFormalCode.lifted.tail := by
    simp [repeatedFormalCode, Code.toListing]
  obtain ⟨body, entries, hbody, hentries, -, -, htake, hreaches⟩ :=
    formals_receive_arguments.{0} hlower
  obtain rfl : body = ⟨[], [.op .push (some (.symbol "x")), .op .pop (some (.symbol "z")),
      .op .push (some (.symbol "z"))]⟩ := (Except.ok.inj (congrArg Prod.fst hbody)).symm
  obtain rfl : entries = repeatedFormalCode.lifted.tail := hentries
  exact ⟨hlower, Machine.binding_bindsPopped Nat, hat, htake, _,
    hreaches Nat _ (Machine.binding_bindsPopped Nat) _ 1 hat [10, 20, 30] rfl [7] fun _ => none,
    by decide, by decide, by decide⟩

end StackLowering
