import StackLowering.Lowering.Journal
import StackLowering.Proofs.LoweringDraws

/-!
# Derivations of stack code

What a lowering that succeeds does, said once: a derivation has one rule for each form of a tree,
and the rule says which code comes out and which counters are left. Every property of the code of
a program is proved by one induction on derivations, with one case a rule.

Statements are derived from the front to the back, one at the end at a time. A body is a list of
statements whose last one discards its value; its code leaves that instruction out, so a derivation
never speaks of an instruction that is put in and taken off again.

## Main definitions

* `Expr.instruction?`, `Expr.Becomes` — the instruction of an expression that becomes a single one,
  and the forms of such expressions
* `Part` — an expression, statements, or a body
* `Lowers` — derivations

## Main results

* `lowers_iff` — a part has a derivation exactly when its lowering succeeds, with that code
* `Program.lower_eq_ok_iff` — the listing of a program comes from a derivation
* `Lowers.counters` — a lowering leaves the counters that the draws of the tree leave
-/

namespace StackLowering

/-! ## Pieces of code -/

/-- The instruction of an expression that becomes a single one. -/
def Expr.instruction? : Expr → Option Instruction
  | .integer value => some ⟨.pushInteger, some (.integer value)⟩
  | .list => some ⟨.list, some (.count 2)⟩
  | .string value => some ⟨.pushString, some (.string value)⟩
  | .record fieldCount => some ⟨.record, some (.count fieldCount)⟩
  | .symbol name => some ⟨.push, some (.symbol name)⟩
  | .symbolLiteral name => some ⟨.pushSymbol, some (.symbol name)⟩
  | .variable name => some ⟨.push, some (.symbol name)⟩
  | .call (.builtin s) argumentCount =>
    (Builtin.mnemonic? s).map fun m => ⟨m, some (.count argumentCount)⟩
  | .builtin _ | .call .. | .ifElse .. | .lambda .. => none

theorem Expr.instruction?_call {f : Expr} {n : UInt64} (hf : f.builtin? = none) :
    (Expr.call f n).instruction? = none := by
  cases f with
  | builtin => cases hf
  | _ => rfl

/-- The entries that say what becomes of the value of a statement. -/
def Action.entries : Action → List Entry
  | .discard => [.drop]
  | .push => []
  | .assign target => [.op .pop (some (.symbol target))]
  | .declare name => [.op .pop (some (.symbol name))]

@[simp] theorem Action.entries_discard : Action.discard.entries = [.drop] := rfl

theorem Action.eq_of_mem_entries {a : Action} {x : Entry} (h : x ∈ a.entries) :
    x = .drop ∨ ∃ name, x = .op .pop (some (.symbol name)) := by
  cases a with
  | discard => exact .inl (List.mem_singleton.mp h)
  | push => cases h
  | assign name | declare name => exact .inr ⟨name, List.mem_singleton.mp h⟩

namespace Code

@[simp] theorem append_assoc (a b c : Code) : a ++ b ++ c = a ++ (b ++ c) := by
  change Code.mk _ _ = Code.mk _ _
  simp

@[simp] theorem append_empty (a : Code) : a ++ empty = a := by
  change Code.mk _ _ = a
  simp

@[simp] theorem empty_append (a : Code) : empty ++ a = a := rfl

@[simp] theorem lifted_ofAction (k : Code) (a : Action) : (k.ofAction a).lifted = k.lifted := by
  cases a <;> rfl

@[simp] theorem own_ofAction (k : Code) (a : Action) :
    (k.ofAction a).own = k.own ++ a.entries := by
  cases a <;> simp [ofAction, Action.entries, Entry.op, Entry.drop, Instruction.drop]

theorem ofAction_append (k₁ k₂ : Code) (a : Action) :
    (k₁ ++ k₂).ofAction a = k₁ ++ k₂.ofAction a := by
  change (Code.mk _ _).ofAction a = Code.mk _ _
  cases a <;> simp [ofAction, push]

theorem ofAction_inj {k₁ k₂ : Code} {a : Action} : k₁.ofAction a = k₂.ofAction a ↔ k₁ = k₂ := by
  obtain ⟨lifted₁, own₁⟩ := k₁
  obtain ⟨lifted₂, own₂⟩ := k₂
  cases a <;> simp [ofAction, push]

end Code

theorem withoutFinalDrop_eq_ok_iff {es es' : List Entry} {context : String}
    {location : Option Location} :
    withoutFinalDrop es context location = .ok es' ↔ es = es' ++ [.drop] := by
  rcases es.eq_nil_or_concat with rfl | ⟨es, x, rfl⟩
  · simp [withoutFinalDrop]
  · by_cases hx : x = .drop
    · simp [withoutFinalDrop, hx]
    · simp [withoutFinalDrop, hx]

/-- Code yields its last value when it ends in the instruction that would discard it. -/
theorem Code.yieldLast_eq_ok_iff {k k' : Code} {context : String} {location : Option Location} :
    k.yieldLast context location = .ok k' ↔ k = k'.ofAction .discard := by
  obtain ⟨lifted, own⟩ := k
  obtain ⟨lifted', own'⟩ := k'
  have hpush : (Code.mk lifted' own').ofAction .discard = ⟨lifted', own' ++ [.drop]⟩ := rfl
  rw [hpush, Code.mk.injEq, ← withoutFinalDrop_eq_ok_iff, Code.yieldLast]
  cases withoutFinalDrop own context location <;>
    simp [bind, Except.bind, pure, Except.pure]

/-! ## Derivations -/

/-- A part of a tree: an expression, statements, or a body that yields its last value. -/
inductive Part
  | expression (e : Expr)
  | statements (ss : List Stmt)
  | body (ss : List Stmt)

namespace Part

/-- The lowering of a part. -/
def lower : Part → LowerM Code
  | expression e => e.lower
  | statements ss => Stmt.lowerAll ss
  | body ss => lowerBody ss

/-- The draws of a part. -/
def draws : Part → List Draw
  | expression e => e.draws
  | statements ss | body ss => Stmt.drawsAll ss

end Part

/-- The part becomes this code, from the first counters to the second. -/
inductive Lowers : Part → LabelCounters → Code → LabelCounters → Prop
  | instruction {e : Expr} {i : Instruction} {c : LabelCounters} (h : e.instruction? = some i) :
    Lowers (.expression e) c ⟨[], [.instruction i]⟩ c
  | call {f : Expr} {n : UInt64} {c c' : LabelCounters} {k : Code} (hf : f.builtin? = none)
      (callee : Lowers (.expression f) c k c') :
    Lowers (.expression (.call f n)) c (k.push .call (some (.count n))) c'
  | ifElse {e : Expr} {ss ts : List Stmt} {c c₁ c₂ c₃ : LabelCounters} {k₁ k₂ k₃ : Code}
      (condition : Lowers (.expression e) (c.bump BranchLabels.thenBase) k₁ c₁)
      (thenArm : Lowers (.body ss) c₁ k₂ c₂) (elseArm : Lowers (.body ts) c₂ k₃ c₃) :
    Lowers (.expression (.ifElse e ss ts)) c
      (.ofArms (.ofTag (c.count BranchLabels.thenBase)) k₁ k₂ k₃) c₃
  | lambda {name : Option String} {formals : List String} {ss : List Stmt} {c c' : LabelCounters}
      {k : Code} (body : Lowers (.body ss) (c.bump (Label.lambdaBase name)) k c') :
    Lowers (.expression (.lambda name formals ss)) c
      (.ofLambda (Label.numbered (Label.lambdaBase name) (c.count (Label.lambdaBase name)))
        formals k) c'
  | nil {c : LabelCounters} : Lowers (.statements []) c .empty c
  | snoc {ss : List Stmt} {a : Action} {e : Expr} {l : Option Location} {c c₁ c₂ : LabelCounters}
      {k₁ k₂ : Code} (init : Lowers (.statements ss) c k₁ c₁)
      (last : Lowers (.expression e) c₁ k₂ c₂) :
    Lowers (.statements (ss ++ [.mk a e l])) c (k₁ ++ k₂.ofAction a) c₂
  | body {ss : List Stmt} {e : Expr} {l : Option Location} {c c₁ c₂ : LabelCounters}
      {k₁ k₂ : Code} (init : Lowers (.statements ss) c k₁ c₁)
      (last : Lowers (.expression e) c₁ k₂ c₂) :
    Lowers (.body (ss ++ [.mk .discard e l])) c (k₁ ++ k₂) c₂

variable {e : Expr} {ss : List Stmt} {a : Action} {l : Option Location}
  {c c₁ c₂ c' : LabelCounters} {k k₁ k₂ : Code}

namespace Lowers

theorem single (h : Lowers (.expression e) c k c') :
    Lowers (.statements [.mk a e l]) c (k.ofAction a) c' := by
  have hsnoc : Lowers (.statements ([] ++ [.mk a e l])) c (.empty ++ k.ofAction a) c' :=
    snoc nil h
  exact hsnoc

theorem append {ts : List Stmt} (hs : Lowers (.statements ss) c k₁ c₁)
    (ht : Lowers (.statements ts) c₁ k₂ c₂) : Lowers (.statements (ss ++ ts)) c (k₁ ++ k₂) c₂ := by
  generalize hP : Part.statements ts = P at ht
  induction ht generalizing ts with
  | nil =>
    cases hP
    simpa using hs
  | snoc init last ih =>
    cases hP
    simpa using snoc (ih hs rfl) last
  | instruction | call | ifElse | lambda | body => cases hP

end Lowers

/-! ### Instructions of single values -/

/-- A value is made by an operation that neither takes part in the control of the machine nor
takes a value off the stack for a name. -/
def Mnemonic.makesValue : Mnemonic → Bool
  | .close | .pop | .drop | .call | .ret | .jump | .jumpIfFalse | .halt => false
  | _ => true

theorem Builtin.mem_table_of_mnemonic? {s : String} {m : Mnemonic}
    (h : Builtin.mnemonic? s = some m) : (s, m) ∈ Builtin.table := by
  obtain ⟨l₁, l₂, htable, -⟩ := List.lookup_eq_some_iff.mp h
  rw [htable]
  simp

theorem Builtin.makesValue_of_mnemonic? {s : String} {m : Mnemonic}
    (h : Builtin.mnemonic? s = some m) : m.makesValue = true := by
  have hall : ∀ x ∈ Builtin.table, x.2.makesValue = true := by decide
  exact hall _ (Builtin.mem_table_of_mnemonic? h)

/-- The forms of the expressions that become a single instruction, and that instruction. -/
inductive Expr.Becomes : Expr → Instruction → Prop
  | integer (value : Int64) : Becomes (.integer value) ⟨.pushInteger, some (.integer value)⟩
  | list : Becomes .list ⟨.list, some (.count 2)⟩
  | string (value : String) : Becomes (.string value) ⟨.pushString, some (.string value)⟩
  | record (fieldCount : UInt64) :
    Becomes (.record fieldCount) ⟨.record, some (.count fieldCount)⟩
  | symbol (name : String) : Becomes (.symbol name) ⟨.push, some (.symbol name)⟩
  | symbolLiteral (name : String) :
    Becomes (.symbolLiteral name) ⟨.pushSymbol, some (.symbol name)⟩
  | variable (name : String) : Becomes (.variable name) ⟨.push, some (.symbol name)⟩
  | callBuiltin {s : String} {m : Mnemonic} (h : Builtin.mnemonic? s = some m) (n : UInt64) :
    Becomes (.callBuiltin s n) ⟨m, some (.count n)⟩

theorem Expr.becomes_of_instruction? {i : Instruction} (h : e.instruction? = some i) :
    e.Becomes i := by
  cases e with
  | call f n =>
    cases f with
    | builtin s =>
      obtain ⟨m, hm, rfl⟩ := Option.map_eq_some_iff.mp h
      exact .callBuiltin hm n
    | _ => cases h
  | builtin | ifElse | lambda => cases h
  | _ => cases h; constructor

/-- The instruction of a single value makes a value, and its operand is no label. -/
theorem Expr.makesValue_of_instruction? {i : Instruction} (h : e.instruction? = some i) :
    i.mnemonic.makesValue = true ∧ ∀ name, i.operand ≠ some (.label name) := by
  cases Expr.becomes_of_instruction? h with
  | callBuiltin hm => exact ⟨Builtin.makesValue_of_mnemonic? hm, by simp⟩
  | _ => exact ⟨rfl, by simp⟩

/-- The instruction of a single value is none of those that direct the machine or name a value. -/
theorem Expr.ne_op_of_instruction? {i : Instruction} {m : Mnemonic} {o : Option Operand}
    (h : e.instruction? = some i) (hm : m.makesValue = false) : Entry.instruction i ≠ .op m o := by
  intro heq
  obtain rfl := Entry.instruction.inj heq
  exact Bool.false_ne_true (hm.symm.trans (Expr.makesValue_of_instruction? h).1)

theorem Expr.draws_of_instruction? {i : Instruction} (h : e.instruction? = some i) :
    e.draws = [] := by
  cases Expr.becomes_of_instruction? h <;> rfl

namespace Lowers

/-- The code of an expression never ends in an entry that says what becomes of a value. -/
theorem own_eq_concat (h : Lowers (.expression e) c k c') :
    ∃ es x, k.own = es ++ [x] ∧ ∀ a : Action, x ∉ a.entries := by
  cases h with
  | instruction h =>
    refine ⟨[], _, rfl, fun a hmem => ?_⟩
    rcases Action.eq_of_mem_entries hmem with hx | ⟨_, hx⟩ <;>
      exact Expr.ne_op_of_instruction? h rfl hx
  | call | ifElse =>
    refine ⟨_, _, rfl, fun a hmem => ?_⟩
    rcases Action.eq_of_mem_entries hmem with hx | ⟨_, hx⟩ <;> cases hx
  | lambda body =>
    refine ⟨[], _, rfl, fun a hmem => ?_⟩
    rcases Action.eq_of_mem_entries hmem with hx | ⟨_, hx⟩ <;> cases hx

/-- The code of statements is that of a body with a discarding instruction behind it exactly when
the last statement discards its value. -/
theorem statements_discard_iff :
    Lowers (.statements ss) c (k.ofAction .discard) c' ↔ Lowers (.body ss) c k c' := by
  refine ⟨fun h => ?_, fun h => ?_⟩
  · generalize hK : k.ofAction .discard = K at h
    cases h with
    | nil => simpa [Action.entries] using congrArg Code.own hK
    | @snoc ss a e l _ c₁ _ k₁ k₂ init last =>
      have hown : k.own ++ [.drop] = k₁.own ++ (k₂.own ++ a.entries) := by
        simpa [Action.entries] using congrArg Code.own hK
      cases a with
      | discard =>
        rw [← Code.ofAction_append, Code.ofAction_inj] at hK
        exact hK ▸ body init last
      | push =>
        obtain ⟨es, x, hx, hne⟩ := last.own_eq_concat
        rw [hx, Action.entries, List.append_nil, ← List.append_assoc] at hown
        obtain ⟨-, rfl⟩ := List.append_singleton_inj.mp hown
        exact absurd List.mem_cons_self (hne .discard)
      | assign target | declare target =>
        rw [Action.entries, ← List.append_assoc] at hown
        exact absurd (List.append_inj' hown rfl).2
          (by simp [Entry.op, Entry.drop, Instruction.drop])
  · cases h with
    | body init last =>
      rw [Code.ofAction_append]
      exact snoc init last

end Lowers

/-! ## Runs that succeed, form by form -/

theorem resolveBuiltin_eq_ok_iff {symbol : String} {m : Mnemonic} :
    resolveBuiltin symbol = .ok m ↔ Builtin.mnemonic? symbol = some m := by
  unfold resolveBuiltin
  split <;> simp_all

namespace Expr

theorem run_lower_builtin_ne_ok {symbol : String} :
    (Expr.builtin symbol).lower.run c ≠ (.ok k, c') := by
  simp [Expr.lower]

theorem run_lower_of_instruction? {i : Instruction} (h : e.instruction? = some i) :
    e.lower.run c = (.ok ⟨[], [.instruction i]⟩, c) := by
  cases Expr.becomes_of_instruction? h with
  | callBuiltin hm =>
    simp [Expr.callBuiltin, Expr.lower, Expr.builtin?, LowerM.run_bind,
      resolveBuiltin_eq_ok_iff.mpr hm, Code.single, Entry.op]
  | _ => rfl

theorem run_lower_callBuiltin {symbol : String} {n : UInt64} :
    (Expr.callBuiltin symbol n).lower.run c = (.ok k, c') ↔
      ∃ m, Builtin.mnemonic? symbol = some m ∧ k = .single m (some (.count n)) ∧ c' = c := by
  simp only [Expr.callBuiltin, Expr.lower, Expr.builtin?, LowerM.run_bind_eq_ok,
    LowerM.run_ofExcept, LowerM.run_pure, Prod.mk.injEq, resolveBuiltin_eq_ok_iff,
    Except.ok.injEq]
  constructor
  · rintro ⟨m, _, ⟨hm, rfl⟩, rfl, rfl⟩
    exact ⟨m, hm, rfl, rfl⟩
  · rintro ⟨m, hm, rfl, rfl⟩
    exact ⟨m, _, ⟨hm, rfl⟩, rfl, rfl⟩

theorem run_lower_call {f : Expr} {n : UInt64} (hf : f.builtin? = none) :
    (Expr.call f n).lower.run c = (.ok k, c') ↔
      ∃ k₁, f.lower.run c = (.ok k₁, c') ∧ k = k₁.push .call (some (.count n)) := by
  simp only [Expr.lower, hf, LowerM.run_bind_eq_ok, LowerM.run_pure, Prod.mk.injEq,
    Except.ok.injEq]
  exact ⟨fun ⟨k₁, _, h, hk, hc⟩ => ⟨k₁, hc ▸ h, hk.symm⟩,
    fun ⟨k₁, h, hk⟩ => ⟨k₁, c', h, hk.symm, rfl⟩⟩

theorem run_lower_ifElse {ts : List Stmt} :
    (Expr.ifElse e ss ts).lower.run c = (.ok k, c') ↔
      ∃ k₁ c₁ k₂ c₂ k₃, e.lower.run (c.bump BranchLabels.thenBase) = (.ok k₁, c₁) ∧
        (Stmt.lowerAll ss).run c₁ = (.ok (k₂.ofAction .discard), c₂) ∧
        (Stmt.lowerAll ts).run c₂ = (.ok (k₃.ofAction .discard), c') ∧
        k = .ofArms (.ofTag (c.count BranchLabels.thenBase)) k₁ k₂ k₃ := by
  simp only [Expr.lower, LowerM.run_bind_eq_ok, LowerM.run_drawTag, LowerM.run_ofExcept,
    LowerM.run_pure, Prod.mk.injEq, Except.ok.injEq, Code.yieldLast_eq_ok_iff]
  constructor
  · rintro ⟨_, _, ⟨rfl, rfl⟩, k₁, c₁, h₁, _, c₂, h₂, k₂, _, ⟨rfl, rfl⟩, _, c₃, h₃, k₃, _,
      ⟨rfl, rfl⟩, rfl, rfl⟩
    exact ⟨k₁, c₁, k₂, c₂, k₃, h₁, h₂, h₃, rfl⟩
  · rintro ⟨k₁, c₁, k₂, c₂, k₃, h₁, h₂, h₃, rfl⟩
    exact ⟨_, _, ⟨rfl, rfl⟩, k₁, c₁, h₁, _, c₂, h₂, k₂, _, ⟨rfl, rfl⟩, _, c', h₃, k₃, _, ⟨rfl, rfl⟩,
      rfl, rfl⟩

theorem run_lower_lambda {name : Option String} {formals : List String} :
    (Expr.lambda name formals ss).lower.run c = (.ok k, c') ↔
      ∃ k₁, (Stmt.lowerAll ss).run (c.bump (Label.lambdaBase name))
          = (.ok (k₁.ofAction .discard), c') ∧
        k = .ofLambda (Label.numbered (Label.lambdaBase name) (c.count (Label.lambdaBase name)))
          formals k₁ := by
  simp only [Expr.lower, LowerM.run_bind_eq_ok, LowerM.run_drawLabel, LowerM.run_ofExcept,
    LowerM.run_pure, Prod.mk.injEq, Except.ok.injEq, Code.yieldLast_eq_ok_iff]
  constructor
  · rintro ⟨_, _, ⟨rfl, rfl⟩, _, c₁, h, k₁, _, ⟨rfl, rfl⟩, rfl, rfl⟩
    exact ⟨k₁, h, rfl⟩
  · rintro ⟨k₁, h, rfl⟩
    exact ⟨_, _, ⟨rfl, rfl⟩, _, c', h, k₁, _, ⟨rfl, rfl⟩, rfl, rfl⟩

end Expr

namespace Stmt

theorem run_lowerAll_nil :
    (Stmt.lowerAll []).run c = (.ok k, c') ↔ k = .empty ∧ c' = c := by
  simp only [Stmt.lowerAll, LowerM.run_pure, Prod.mk.injEq, Except.ok.injEq, eq_comm]

theorem run_lowerAll_singleton (s : Stmt) : (Stmt.lowerAll [s]).run c = s.lower.run c := by
  simp only [Stmt.lowerAll, LowerM.run_bind, LowerM.run_pure]
  rcases s.lower.run c with ⟨_ | k, c₁⟩ <;> simp

theorem run_lowerAll_cons :
    (Stmt.lowerAll (.mk a e l :: ss)).run c = (.ok k, c') ↔
      ∃ k₁ c₁ k₂, e.lower.run c = (.ok k₁, c₁) ∧ (Stmt.lowerAll ss).run c₁ = (.ok k₂, c') ∧
        k = k₁.ofAction a ++ k₂ := by
  simp only [Stmt.lowerAll, Stmt.lower, LowerM.run_bind_eq_ok, LowerM.run_locate_eq_ok,
    LowerM.run_pure, Prod.mk.injEq, Except.ok.injEq]
  constructor
  · rintro ⟨_, c₁, ⟨k₁, _, h₁, rfl, rfl⟩, k₂, _, h₂, rfl, rfl⟩
    exact ⟨k₁, _, k₂, h₁, h₂, rfl⟩
  · rintro ⟨k₁, c₁, k₂, h₁, h₂, rfl⟩
    exact ⟨_, c₁, ⟨k₁, c₁, h₁, rfl, rfl⟩, k₂, c', h₂, rfl, rfl⟩

theorem run_lowerAll_append {ts : List Stmt} :
    (Stmt.lowerAll (ss ++ ts)).run c = (.ok k, c') ↔
      ∃ k₁ c₁ k₂, (Stmt.lowerAll ss).run c = (.ok k₁, c₁) ∧
        (Stmt.lowerAll ts).run c₁ = (.ok k₂, c') ∧ k = k₁ ++ k₂ := by
  induction ss generalizing c k with
  | nil => simp [run_lowerAll_nil]
  | cons s ss ih =>
    obtain ⟨a, e, l⟩ := s
    simp only [List.cons_append, run_lowerAll_cons, ih]
    constructor
    · rintro ⟨k₁, c₁, _, h₁, ⟨k₂, c₂, k₃, h₂, h₃, rfl⟩, rfl⟩
      exact ⟨_, c₂, k₃, ⟨k₁, c₁, k₂, h₁, h₂, rfl⟩, h₃, (Code.append_assoc _ _ _).symm⟩
    · rintro ⟨_, c₂, k₃, ⟨k₁, c₁, k₂, h₁, h₂, rfl⟩, h₃, rfl⟩
      exact ⟨k₁, c₁, _, h₁, ⟨k₂, c₂, k₃, h₂, h₃, rfl⟩, Code.append_assoc _ _ _⟩

end Stmt

theorem run_lowerBody :
    (lowerBody ss).run c = (.ok k, c') ↔
      (Stmt.lowerAll ss).run c = (.ok (k.ofAction .discard), c') := by
  simp only [lowerBody, LowerM.run_bind_eq_ok, LowerM.run_ofExcept, Prod.mk.injEq,
    Code.yieldLast_eq_ok_iff]
  exact ⟨fun ⟨_, _, h, hk, hc⟩ => hk ▸ hc ▸ h, fun h => ⟨_, _, h, rfl, rfl⟩⟩

/-! ## Derivations and runs -/

mutual

theorem Expr.lowers_of_run : ∀ (e : Expr) {c c' : LabelCounters} {k : Code},
    e.lower.run c = (.ok k, c') → Lowers (.expression e) c k c'
  | .builtin s, _, _, _, h => absurd h Expr.run_lower_builtin_ne_ok
  | .call f n, c, c', k, h => by
    cases hf : f.builtin? with
    | some s =>
      rw [Expr.builtin?_eq_some] at hf
      subst hf
      obtain ⟨m, hm, rfl, rfl⟩ := Expr.run_lower_callBuiltin.mp h
      exact .instruction (by rw [Expr.instruction?, hm]; rfl)
    | none =>
      obtain ⟨k₁, hcallee, rfl⟩ := (Expr.run_lower_call hf).mp h
      exact .call hf (f.lowers_of_run hcallee)
  | .ifElse e ss ts, c, c', k, h => by
    obtain ⟨k₁, c₁, k₂, c₂, k₃, hcondition, hthen, helse, rfl⟩ := Expr.run_lower_ifElse.mp h
    exact .ifElse (e.lowers_of_run hcondition)
      (Lowers.statements_discard_iff.mp (Stmt.lowers_of_run ss hthen))
      (Lowers.statements_discard_iff.mp (Stmt.lowers_of_run ts helse))
  | .lambda name formals ss, c, c', k, h => by
    obtain ⟨k₁, hbody, rfl⟩ := Expr.run_lower_lambda.mp h
    exact .lambda (Lowers.statements_discard_iff.mp (Stmt.lowers_of_run ss hbody))
  | .integer _, _, _, _, h | .list, _, _, _, h | .string _, _, _, _, h | .record _, _, _, _, h
  | .symbol _, _, _, _, h | .symbolLiteral _, _, _, _, h | .variable _, _, _, _, h => by
    rw [Expr.run_lower_of_instruction? rfl, Prod.mk.injEq, Except.ok.injEq] at h
    obtain ⟨rfl, rfl⟩ := h
    exact .instruction rfl

theorem Stmt.lowers_of_run : ∀ (ss : List Stmt) {c c' : LabelCounters} {k : Code},
    (Stmt.lowerAll ss).run c = (.ok k, c') → Lowers (.statements ss) c k c'
  | [], _, _, _, h => by
    obtain ⟨rfl, rfl⟩ := Stmt.run_lowerAll_nil.mp h
    exact .nil
  | .mk a e l :: rest, c, c', k, h => by
    obtain ⟨k₁, c₁, k₂, hfirst, hrest, rfl⟩ := Stmt.run_lowerAll_cons.mp h
    exact (Lowers.single (e.lowers_of_run hfirst)).append (Stmt.lowers_of_run rest hrest)

end

theorem Lowers.run {P : Part} (h : Lowers P c k c') : P.lower.run c = (.ok k, c') := by
  induction h with
  | instruction h => exact Expr.run_lower_of_instruction? h
  | call hf _ ih => exact (Expr.run_lower_call hf).mpr ⟨_, ih, rfl⟩
  | ifElse _ _ _ ih₁ ih₂ ih₃ =>
    exact Expr.run_lower_ifElse.mpr
      ⟨_, _, _, _, _, ih₁, run_lowerBody.mp ih₂, run_lowerBody.mp ih₃, rfl⟩
  | lambda _ ih => exact Expr.run_lower_lambda.mpr ⟨_, run_lowerBody.mp ih, rfl⟩
  | nil => exact Stmt.run_lowerAll_nil.mpr ⟨rfl, rfl⟩
  | snoc _ _ ih₁ ih₂ =>
    refine Stmt.run_lowerAll_append.mpr ⟨_, _, _, ih₁, ?_, rfl⟩
    exact Stmt.run_lowerAll_cons.mpr
      ⟨_, _, _, ih₂, Stmt.run_lowerAll_nil.mpr ⟨rfl, rfl⟩, (Code.append_empty _).symm⟩
  | body _ _ ih₁ ih₂ =>
    refine run_lowerBody.mpr (Stmt.run_lowerAll_append.mpr ⟨_, _, _, ih₁, ?_,
      Code.ofAction_append _ _ _⟩)
    exact Stmt.run_lowerAll_cons.mpr
      ⟨_, _, _, ih₂, Stmt.run_lowerAll_nil.mpr ⟨rfl, rfl⟩, (Code.append_empty _).symm⟩

/-- **A part has a derivation exactly when its lowering succeeds**, with that code and those
counters. -/
theorem lowers_iff {P : Part} : Lowers P c k c' ↔ P.lower.run c = (.ok k, c') := by
  refine ⟨Lowers.run, fun h => ?_⟩
  cases P with
  | expression e => exact e.lowers_of_run h
  | statements ss => exact Stmt.lowers_of_run ss h
  | body ss => exact Lowers.statements_discard_iff.mp (Stmt.lowers_of_run ss (run_lowerBody.mp h))

/-- A derivation determines the code and the counters. -/
theorem Lowers.unique {P : Part} (h₁ : Lowers P c k₁ c₁) (h₂ : Lowers P c k₂ c₂) :
    k₁ = k₂ ∧ c₁ = c₂ := by
  simpa using h₁.run.symm.trans h₂.run

/-- The lowering of a part makes the draws of the part. -/
theorem Part.lower_draws (P : Part) : P.lower.Draws P.draws := by
  cases P with
  | expression e => exact e.lower_draws
  | statements ss => exact Stmt.lowerAll_draws ss
  | body ss => exact (Stmt.lowerAll_draws ss).andThen fun _ => .ofExcept _

/-- A lowering leaves the counters that the draws of the tree leave. -/
theorem Lowers.counters {P : Part} (h : Lowers P c k c') : c' = c.drawAll P.draws :=
  P.lower_draws.ok h.run

/-! ## Programs -/

/-- The listing of a program comes from a derivation of its statements. -/
theorem Program.lower_eq_ok_iff {p : Program} {l : Listing} :
    p.lower = .ok l ↔
      ∃ k c', Lowers (.statements p.statements) .empty k c' ∧ l = k.toListing := by
  unfold Program.lower
  rcases hrun : (Stmt.lowerAll p.statements).run .empty with ⟨_ | k, c'⟩
  · simp only [reduceCtorEq, false_iff, not_exists, not_and]
    intro k c' h
    have := h.run
    simp [Part.lower, hrun] at this
  · simp only [Except.ok.injEq]
    refine ⟨fun h => ⟨k, c', Stmt.lowers_of_run _ hrun, h.symm⟩, fun ⟨k₁, c₁, h, hl⟩ => ?_⟩
    rw [hl, (h.unique (Stmt.lowers_of_run _ hrun)).1]

end StackLowering
