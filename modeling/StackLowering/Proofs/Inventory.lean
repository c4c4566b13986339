import StackLowering.Proofs.NodeEntries
import Mathlib.Algebra.GroupWithZero.Nat
import Mathlib.Data.List.Perm.Basic

/-!
# What a listing is made of

A listing is counted here operation by operation, against the nodes of its program. An operation
that makes a value or gives it a name is compared together with its operand. The others belong to
the structure of the code and are counted only: what they refer to is a label, or nothing.

A discarding instruction is the one that a node can take away. Every body loses the one at its end,
so functions and conditionals count against the statements that discard their value.

## Main definitions

* `Listing.instructions`, `Listing.occurrences` — the operations of a listing
* `Listing.Accounts` — the listing has what the nodes of the program add

## Main results

* `Listing.occurrences_add` — how often an operation occurs that belongs to the structure of
  the code
* `listing_accounts` — the listing of a program, operation by operation
-/

namespace StackLowering

/-! ## Operations of a listing -/

/-- The operation of an instruction. -/
def Entry.mnemonic? : Entry → Option Mnemonic
  | .label _ => none
  | .instruction i => some i.mnemonic

/-- The instruction, when its operation is among these. -/
def Entry.instructionOf? (q : Mnemonic → Bool) : Entry → Option Instruction
  | .label _ => none
  | .instruction i => if q i.mnemonic then some i else none

/-- The instructions with an operation among these, in order. -/
def instructionsOf (q : Mnemonic → Bool) (es : List Entry) : List Instruction :=
  es.filterMap (Entry.instructionOf? q)

/-- The operations of entries, in order. -/
def mnemonicsOf (es : List Entry) : List Mnemonic := es.filterMap Entry.mnemonic?

namespace Listing

/-- The instructions of the listing with an operation among these, in order. -/
def instructions (l : Listing) (q : Mnemonic → Bool) : List Instruction :=
  instructionsOf q l.entries

/-- How often an operation occurs in the listing. -/
def occurrences (l : Listing) (m : Mnemonic) : Nat := (mnemonicsOf l.entries).count m

end Listing

/-- The operation of a leaf of a tree. -/
def Mnemonic.ofLeaf : Mnemonic → Bool
  | .push | .pushInteger | .pushString | .pushSymbol | .list | .record => true
  | _ => false

/-- The operation is one that a program names by a symbol. -/
def Mnemonic.ofBuiltin (m : Mnemonic) : Bool := (Builtin.table.map Prod.snd).contains m

namespace Expr

/-- The instruction of a leaf of a tree. -/
def leaf? : Expr → Option Instruction
  | .call .. => none
  | e => e.instruction?

/-- The symbol of a called operation of the machine, and the number of arguments. -/
def builtinCall? : Expr → Option (String × UInt64)
  | .call f n => f.builtin?.map fun s => (s, n)
  | _ => none

/-- The number of arguments of a call of anything else. -/
def otherCall? : Expr → Option UInt64
  | .call f n => if f.builtin?.isSome then none else some n
  | _ => none

/-- The formals of a function literal. -/
def formals? : Expr → Option (List String)
  | .lambda _ formals _ => some formals
  | _ => none

def isIfElse : Expr → Bool
  | .ifElse .. => true
  | _ => false

end Expr

/-- The name that a statement gives its value. -/
def Stmt.target? (s : Stmt) : Option String :=
  match s.action with
  | .assign name | .declare name => some name
  | .discard | .push => none

namespace Program

/-- The instructions of the leaves of a program. -/
def leaves (p : Program) : List Instruction := p.nodes.filterMap Expr.leaf?

/-- The calls of operations of the machine. -/
def builtinCalls (p : Program) : List (String × UInt64) := p.nodes.filterMap Expr.builtinCall?

/-- The numbers of arguments of all other calls. -/
def otherCalls (p : Program) : List UInt64 := p.nodes.filterMap Expr.otherCall?

/-- The formals of each function literal. -/
def formalLists (p : Program) : List (List String) := p.nodes.filterMap Expr.formals?

/-- The number of conditionals. -/
def conditionals (p : Program) : Nat := p.nodes.countP Expr.isIfElse

/-- The names that statements give values to. -/
def targets (p : Program) : List String := p.allStatements.filterMap Stmt.target?

/-- The number of statements that discard their value. -/
def discards (p : Program) : Nat := p.allStatements.countP (·.action = .discard)

/-- The number of statements that take their value off the stack. -/
def consumers (p : Program) : Nat := p.allStatements.countP (·.action ≠ .push)

end Program

/-- **The listing has what the nodes of the program add**, and nothing else. -/
structure Listing.Accounts (l : Listing) (p : Program) : Prop where
  /-- The instructions of leaves, with their operands. -/
  leaves : (l.instructions Mnemonic.ofLeaf).Perm p.leaves
  /-- The operations of the machine that are called, with their numbers of arguments. -/
  builtins : ((l.instructions Mnemonic.ofBuiltin).map fun i => (some i.mnemonic, i.operand)).Perm
    (p.builtinCalls.map fun call => (Builtin.mnemonic? call.1, some (.count call.2)))
  /-- The calls of anything else, with their numbers of arguments. -/
  calls : (l.instructions (· == .call)).Perm (p.otherCalls.map fun n => ⟨.call, some (.count n)⟩)
  /-- A closure for each function literal. -/
  closes : l.occurrences .close = p.formalLists.length
  /-- A return for each function literal. -/
  returns : l.occurrences .ret = p.formalLists.length
  /-- A test for each conditional. -/
  tests : l.occurrences .jumpIfFalse = p.conditionals
  /-- Two jumps for each conditional. -/
  jumps : l.occurrences .jump = 2 * p.conditionals
  /-- The names that values are taken off the stack for. -/
  pops : (l.instructions (· == .pop)).Perm
    ((p.targets ++ p.formalLists.flatten).map fun name => ⟨.pop, some (.symbol name)⟩)
  /-- The values that are discarded: every body keeps its last one. -/
  drops : l.occurrences .drop + p.formalLists.length + 2 * p.conditionals = p.discards
  /-- One end. -/
  ends : l.occurrences .halt = 1
  /-- The number of entries, labels included. -/
  length : l.length = 2 + p.leaves.length + (p.builtinCalls.length + p.otherCalls.length) +
    (p.formalLists.map fun formals => 2 + formals.length).sum + 4 * p.conditionals + p.consumers

/-! ### What a node adds to each operation -/

section Selection

variable {q : Mnemonic → Bool} {es es' : List Entry} {m : Mnemonic} {o : Option Operand}

@[simp] theorem instructionsOf_nil : instructionsOf q [] = [] := rfl
@[simp] theorem instructionsOf_append :
    instructionsOf q (es ++ es') = instructionsOf q es ++ instructionsOf q es' :=
  List.filterMap_append
@[simp] theorem instructionsOf_label {name : String} :
    instructionsOf q (.label name :: es) = instructionsOf q es := rfl

@[simp] theorem instructionsOf_op :
    instructionsOf q (.op m o :: es) =
      if q m then ⟨m, o⟩ :: instructionsOf q es else instructionsOf q es := by
  cases hq : q m <;> simp [instructionsOf, Entry.op, Entry.instructionOf?, hq]

@[simp] theorem instructionsOf_popFormals {formals : List String} :
    instructionsOf q (popFormals formals) =
      if q .pop then formals.reverse.map fun name => ⟨.pop, some (.symbol name)⟩ else [] := by
  rw [popFormals, instructionsOf, List.filterMap_map]
  cases hq : q .pop
  · simp [Function.comp_def, Entry.op, Entry.instructionOf?, hq]
  · simp [Function.comp_def, Entry.op, Entry.instructionOf?, hq]

@[simp] theorem mnemonicsOf_nil : mnemonicsOf [] = [] := rfl
@[simp] theorem mnemonicsOf_append :
    mnemonicsOf (es ++ es') = mnemonicsOf es ++ mnemonicsOf es' := List.filterMap_append
@[simp] theorem mnemonicsOf_label {name : String} :
    mnemonicsOf (.label name :: es) = mnemonicsOf es := rfl
@[simp] theorem mnemonicsOf_op : mnemonicsOf (.op m o :: es) = m :: mnemonicsOf es := rfl
@[simp] theorem mnemonicsOf_drop : mnemonicsOf (.drop :: es) = .drop :: mnemonicsOf es := rfl

@[simp] theorem mnemonicsOf_popFormals {formals : List String} :
    mnemonicsOf (popFormals formals) = List.replicate formals.length .pop := by
  rw [popFormals, mnemonicsOf, List.filterMap_map]
  simp [Function.comp_def, Entry.op, Entry.mnemonic?]

/-- Names of labels play no part in the operations. -/
@[simp] theorem mnemonicsOf_map_unnamed : mnemonicsOf (es.map Entry.unnamed) = mnemonicsOf es := by
  rw [mnemonicsOf, List.filterMap_map]
  congr 1
  funext x
  match x with
  | .label _ => rfl
  | .instruction ⟨m, _⟩ => cases m <;> rfl

/-- Nor in the instructions, except for those that refer to labels. -/
theorem instructionsOf_map_unnamed (hq : ∀ m ∈ [.close, .jump, .jumpIfFalse], q m = false) :
    instructionsOf q (es.map Entry.unnamed) = instructionsOf q es := by
  rw [instructionsOf, List.filterMap_map]
  congr 1
  funext x
  match x with
  | .label _ => rfl
  | .instruction ⟨m, _⟩ =>
    cases m with
    | close | jump | jumpIfFalse =>
      simp [Entry.unnamed, Entry.op, Entry.instructionOf?, hq]
    | _ => rfl

end Selection

theorem Expr.calledAs?_eq_some {f : Expr} {m : Mnemonic} (h : f.calledAs? = some m) :
    f.builtin? = none ∧ m = .call ∨
      ∃ s, f.builtin? = some s ∧ Builtin.mnemonic? s = some m ∧ m.ofBuiltin = true := by
  rw [Expr.calledAs?] at h
  cases hf : f.builtin? with
  | none =>
    rw [hf] at h
    exact .inl ⟨rfl, (Option.some.inj h).symm⟩
  | some s =>
    rw [hf] at h
    have hmem := List.mem_map_of_mem (f := Prod.snd) (Builtin.mem_table_of_mnemonic? h)
    exact .inr ⟨s, rfl, h, List.contains_iff_mem.mpr hmem⟩

theorem Expr.emits_call {f : Expr} {n : UInt64} {m : Mnemonic} (h : f.calledAs? = some m) :
    (Expr.call f n).emits = [.op m (some (.count n))] := by
  rw [Expr.emits, h]
  rfl

/-- What holds of every operation can be checked one operation at a time. -/
instance Mnemonic.decidableForall {P : Mnemonic → Prop} [DecidablePred P] :
    Decidable (∀ m, P m) :=
  decidable_of_iff (∀ m ∈ Mnemonic.all, P m) ⟨fun h m => h m m.mem_all, fun h m _ => h m⟩

/-- The operation belongs to the structure of the code: it makes no value, names none and calls
nothing. -/
def Mnemonic.structural : Mnemonic → Bool
  | .close | .ret | .jump | .jumpIfFalse | .drop | .halt => true
  | _ => false

theorem Expr.structural_of_calledAs? {f : Expr} {m : Mnemonic} (h : f.calledAs? = some m) :
    m.structural = false := by
  obtain ⟨-, rfl⟩ | ⟨s, -, -, hbuiltin⟩ := Expr.calledAs?_eq_some h
  · rfl
  · cases m <;> first | rfl | cases hbuiltin

theorem Mnemonic.ofLeaf_eq_false {m : Mnemonic} (h : m.ofBuiltin = true) : m.ofLeaf = false := by
  cases m <;> first | rfl | cases h

namespace Expr

variable {e : Expr}

theorem instructionsOf_ofLeaf_emits (h : e.CallsKnown) :
    instructionsOf Mnemonic.ofLeaf e.emits = e.leaf?.toList := by
  cases e with
  | call f n =>
    obtain ⟨m, hm⟩ := h f n rfl
    have hleaf : m.ofLeaf = false := by
      obtain ⟨-, rfl⟩ | ⟨s, -, -, hbuiltin⟩ := calledAs?_eq_some hm
      · rfl
      · exact Mnemonic.ofLeaf_eq_false hbuiltin
    simp [emits_call hm, hleaf, leaf?]
  | lambda => simp [emits, leaf?, Mnemonic.ofLeaf, instruction?]
  | _ => rfl

theorem instructionsOf_ofBuiltin_emits (h : e.CallsKnown) :
    (instructionsOf Mnemonic.ofBuiltin e.emits).map (fun i => (some i.mnemonic, i.operand)) =
      (e.builtinCall?.map fun call =>
        (Builtin.mnemonic? call.1, some (.count call.2))).toList := by
  cases e with
  | call f n =>
    obtain ⟨m, hm⟩ := h f n rfl
    rw [emits_call hm]
    obtain ⟨hf, rfl⟩ | ⟨s, hf, hs, hbuiltin⟩ := calledAs?_eq_some hm
    · simp [builtinCall?, hf, Mnemonic.ofBuiltin, Builtin.table]
    · simp [builtinCall?, hf, hs, hbuiltin]
  | lambda => simp [emits, builtinCall?, Mnemonic.ofBuiltin, Builtin.table]
  | _ => rfl

theorem instructionsOf_call_emits (h : e.CallsKnown) :
    instructionsOf (· == .call) e.emits =
      (e.otherCall?.map fun n => ⟨.call, some (.count n)⟩).toList := by
  cases e with
  | call f n =>
    obtain ⟨m, hm⟩ := h f n rfl
    rw [emits_call hm]
    obtain ⟨hf, rfl⟩ | ⟨s, hf, -, hbuiltin⟩ := calledAs?_eq_some hm
    · simp [otherCall?, hf]
    · have hne : m ≠ .call := by
        rintro rfl
        cases hbuiltin
      simp [otherCall?, hf, hne]
  | lambda => simp [emits, otherCall?]
  | _ => rfl

/-- The formals of a function literal are taken off the stack, the last one first. -/
theorem instructionsOf_pop_emits (h : e.CallsKnown) :
    (instructionsOf (· == .pop) e.emits).Perm
      (e.formals?.toList.flatten.map fun name => ⟨.pop, some (.symbol name)⟩) := by
  cases e with
  | call f n =>
    obtain ⟨m, hm⟩ := h f n rfl
    have hne : m ≠ .pop := by
      rintro rfl
      obtain ⟨-, h⟩ | ⟨s, -, -, hbuiltin⟩ := calledAs?_eq_some hm
      · cases h
      · cases hbuiltin
    simp [emits_call hm, hne, formals?]
  | lambda => simp [emits, formals?]
  | _ => rfl

/-- Function literals and conditionals add the structure of the code, and nothing else does. -/
theorem count_mnemonicsOf_emits (h : e.CallsKnown) {m : Mnemonic} (hm : m.structural = true) :
    (mnemonicsOf e.emits).count m =
      e.formals?.toList.length * [Mnemonic.close, .ret].count m +
        e.isIfElse.toNat * [Mnemonic.jumpIfFalse, .jump, .jump].count m := by
  have hne : ∀ m', m'.structural = false → m' ≠ m := by
    rintro m' h' rfl
    exact Bool.false_ne_true (h'.symm.trans hm)
  cases e with
  | call f n =>
    obtain ⟨m', hm'⟩ := h f n rfl
    simp [emits_call hm', formals?, isIfElse, List.count_cons, hne m' (structural_of_calledAs? hm')]
  | lambda =>
    simp [emits, formals?, isIfElse, List.count_cons, List.count_replicate, hne .pop rfl]
  | ifElse | builtin => simp [emits, formals?, isIfElse]
  | _ =>
    refine (List.count_eq_zero.mpr fun hmem => ?_).trans (by simp [formals?, isIfElse])
    obtain rfl := List.mem_singleton.mp hmem
    cases hm

theorem removes_eq_replicate :
    e.removes = List.replicate (e.formals?.toList.length + 2 * e.isIfElse.toNat) .drop := by
  cases e <;> rfl

/-- How many entries an expression adds beyond those that are cut off its bodies. -/
theorem length_emits (h : e.CallsKnown) :
    e.emits.length = e.removes.length + e.leaf?.toList.length +
      (e.builtinCall?.toList.length + e.otherCall?.toList.length) +
      (e.formals?.toList.map fun formals => 2 + formals.length).sum + 4 * e.isIfElse.toNat := by
  cases e with
  | call f n =>
    obtain ⟨m, hm⟩ := h f n rfl
    cases hf : f.builtin? <;>
      simp [emits_call hm, removes, bodies, leaf?, builtinCall?, otherCall?, formals?, isIfElse, hf]
  | lambda name formals body =>
    simp only [emits, removes, bodies, leaf?, instruction?, builtinCall?, otherCall?, formals?,
      isIfElse, length_popFormals, List.map_cons, List.map_nil, List.length_cons, List.length_nil,
      List.length_append, List.sum_cons, List.sum_nil, Option.toList_none, Option.toList_some, Bool.toNat_false]
    omega
  | _ => rfl

end Expr

/-- A statement either discards its value or gives it a name. -/
theorem instructionsOf_action {q : Mnemonic → Bool} (hpop : q .pop = false)
    (hdrop : q .drop = false) (a : Action) : instructionsOf q a.entries = [] := by
  cases a <;> simp [Action.entries, instructionsOf, Entry.op, Entry.drop, Instruction.drop,
    Entry.instructionOf?, hpop, hdrop]

theorem Stmt.instructionsOf_pop (s : Stmt) :
    instructionsOf (· == .pop) s.action.entries =
      (s.target?.map fun name => ⟨.pop, some (.symbol name)⟩).toList := by
  obtain ⟨a, e, l⟩ := s
  cases a <;> rfl

theorem count_mnemonicsOf_action {m : Mnemonic} (hm : m.structural = true) (a : Action) :
    (mnemonicsOf a.entries).count m = (decide (a = .discard)).toNat * [Mnemonic.drop].count m := by
  have hpop : Mnemonic.pop ≠ m := by
    rintro rfl
    cases hm
  cases a <;> simp [Action.entries, List.count_cons, hpop]

theorem Action.length_entries (a : Action) :
    a.entries.length = (decide (a ≠ .push)).toNat := by
  cases a <;> rfl

/-! ### What all nodes add -/

theorem filterMap_cons_toList {α β : Type} (f : α → Option β) (a : α) (as : List α) :
    (a :: as).filterMap f = (f a).toList ++ as.filterMap f := by
  cases h : f a <;> simp [h]

theorem countP_cons_toNat {α : Type} (q : α → Bool) (a : α) (as : List α) :
    (a :: as).countP q = (q a).toNat + as.countP q := by
  rw [List.countP_cons, Nat.add_comm]
  cases q a <;> rfl

section Nodes

variable {es : List Expr} {m : Mnemonic}

theorem flatMap_removes : es.flatMap Expr.removes =
    List.replicate ((es.filterMap Expr.formals?).length + 2 * es.countP Expr.isIfElse) .drop := by
  induction es with
  | nil => rfl
  | cons e es ih =>
    rw [List.flatMap_cons, ih, Expr.removes_eq_replicate, List.replicate_append_replicate,
      filterMap_cons_toList, List.length_append, countP_cons_toNat]
    congr 1
    omega

theorem instructionsOf_removes {q : Mnemonic → Bool} (hq : q .drop = false) :
    instructionsOf q (es.flatMap Expr.removes) = [] := by
  rw [flatMap_removes]
  exact List.filterMap_replicate_of_none (by
    rw [Entry.drop, Instruction.drop, Entry.instructionOf?, hq, if_neg Bool.false_ne_true])

theorem mnemonicsOf_removes : mnemonicsOf (es.flatMap Expr.removes) =
    List.replicate ((es.filterMap Expr.formals?).length + 2 * es.countP Expr.isIfElse) .drop := by
  rw [flatMap_removes]
  exact List.filterMap_replicate_of_some rfl

theorem count_mnemonicsOf_nodes (h : ∀ e ∈ es, e.CallsKnown) (hm : m.structural = true) :
    (mnemonicsOf (es.flatMap Expr.emits)).count m =
      (es.filterMap Expr.formals?).length * [Mnemonic.close, .ret].count m +
        es.countP Expr.isIfElse * [Mnemonic.jumpIfFalse, .jump, .jump].count m := by
  induction es with
  | nil => simp
  | cons e es ih =>
    obtain ⟨he, hes⟩ := List.forall_mem_cons.mp h
    rw [List.flatMap_cons, mnemonicsOf_append, List.count_append, e.count_mnemonicsOf_emits he hm,
      ih hes, filterMap_cons_toList, List.length_append, countP_cons_toNat, Nat.add_mul, Nat.add_mul]
    omega

theorem length_nodes (h : ∀ e ∈ es, e.CallsKnown) :
    (es.flatMap Expr.emits).length = (es.flatMap Expr.removes).length +
      (es.filterMap Expr.leaf?).length +
      ((es.filterMap Expr.builtinCall?).length + (es.filterMap Expr.otherCall?).length) +
      ((es.filterMap Expr.formals?).map fun formals => 2 + formals.length).sum +
      4 * es.countP Expr.isIfElse := by
  induction es with
  | nil => rfl
  | cons e es ih =>
    obtain ⟨he, hes⟩ := List.forall_mem_cons.mp h
    simp only [List.flatMap_cons, filterMap_cons_toList, List.length_append, List.map_append,
      List.sum_append, countP_cons_toNat, e.length_emits he, ih hes]
    omega

variable {ss : List Stmt}

theorem count_mnemonicsOf_statements (hm : m.structural = true) :
    (mnemonicsOf (ss.flatMap fun s => s.action.entries)).count m =
      ss.countP (·.action = .discard) * [Mnemonic.drop].count m := by
  induction ss with
  | nil => simp
  | cons s ss ih =>
    rw [List.flatMap_cons, mnemonicsOf_append, List.count_append, count_mnemonicsOf_action hm, ih,
      countP_cons_toNat, Nat.add_mul]

theorem length_statements :
    (ss.flatMap fun s => s.action.entries).length = ss.countP (·.action ≠ .push) := by
  induction ss with
  | nil => rfl
  | cons s ss ih =>
    rw [List.flatMap_cons, List.length_append, Action.length_entries, ih, countP_cons_toNat]

end Nodes

/-! ### Whole programs -/

section Program

variable {p : Program} {l : Listing}

/-- The instructions that are no structure are those that the nodes add. -/
theorem instructions_perm_of_lower (hl : p.lower = .ok l) {q : Mnemonic → Bool}
    (hq : ∀ m, m.structural = true → q m = false) :
    (l.instructions q).Perm (p.nodes.flatMap (fun e => instructionsOf q e.emits) ++
      p.allStatements.flatMap fun s => instructionsOf q s.action.entries) := by
  have hlabels : ∀ m ∈ [Mnemonic.close, .jump, .jumpIfFalse], q m = false :=
    fun m hm => hq m (by revert m; decide)
  have hperm : (instructionsOf q (_ ++ _)).Perm (instructionsOf q (_ :: _)) :=
    (perm_emitted_of_lower hl).filterMap (Entry.instructionOf? q)
  rw [instructionsOf_append, instructionsOf_map_unnamed hlabels,
    instructionsOf_removes (hq .drop rfl), List.append_nil, instructionsOf_label,
    instructionsOf_op, hq .halt rfl, if_neg Bool.false_ne_true, instructionsOf_append] at hperm
  simpa only [Listing.instructions, instructionsOf, List.filterMap_flatMap] using hperm

/-- A statement by itself only takes its value off the stack; all other instructions are those of
expressions. -/
theorem instructions_perm_of_expressions (hl : p.lower = .ok l) {q : Mnemonic → Bool}
    (hq : ∀ m, m.structural = true → q m = false) (hpop : q .pop = false) :
    (l.instructions q).Perm (p.nodes.flatMap fun e => instructionsOf q e.emits) := by
  have hperm := instructions_perm_of_lower hl hq
  rwa [List.flatMap_eq_nil_iff (l := p.allStatements).mpr
    fun s _ => instructionsOf_action hpop (hq .drop rfl) s.action, List.append_nil] at hperm

/-- How often an operation occurs that belongs to the structure of the code. -/
theorem Listing.occurrences_add (hl : p.lower = .ok l) {m : Mnemonic} (hm : m.structural = true) :
    l.occurrences m + (p.formalLists.length + 2 * p.conditionals) * [Mnemonic.drop].count m =
      [Mnemonic.halt].count m + (p.formalLists.length * [Mnemonic.close, .ret].count m +
        p.conditionals * [Mnemonic.jumpIfFalse, .jump, .jump].count m +
        p.discards * [Mnemonic.drop].count m) := by
  have hperm : (mnemonicsOf (_ ++ _)).Perm (mnemonicsOf (_ :: _)) :=
    (perm_emitted_of_lower hl).filterMap Entry.mnemonic?
  have hremoved : (mnemonicsOf (p.nodes.flatMap Expr.removes)).count m =
      (p.formalLists.length + 2 * p.conditionals) * [Mnemonic.drop].count m := by
    rw [mnemonicsOf_removes, List.count_replicate]
    simp [Program.formalLists, Program.conditionals, List.count_cons]
  calc l.occurrences m + (p.formalLists.length + 2 * p.conditionals) * [Mnemonic.drop].count m
    _ = (mnemonicsOf (l.entries.map Entry.unnamed ++ p.nodes.flatMap Expr.removes)).count m := by
      rw [mnemonicsOf_append, mnemonicsOf_map_unnamed, List.count_append, hremoved]
      rfl
    _ = ([Mnemonic.halt] ++ mnemonicsOf (p.nodes.flatMap Expr.emits ++
          p.allStatements.flatMap fun s => s.action.entries)).count m := hperm.count_eq m
    _ = _ := by
      rw [List.count_append, mnemonicsOf_append, List.count_append,
        count_mnemonicsOf_nodes (callsKnown_of_lower hl) hm, count_mnemonicsOf_statements hm]
      rfl

theorem Program.formalLists_flatten :
    p.formalLists.flatten = p.nodes.flatMap fun e => e.formals?.toList.flatten := by
  rw [Program.formalLists, List.filterMap_eq_flatMap_toList, List.flatten_eq_flatMap,
    List.flatMap_assoc]
  simp only [List.flatten_eq_flatMap]

/-- **No code is lost and none is copied.** In the listing of a program, the instructions of each
kind are those of the nodes of the program, one for one: the leaves, the calls, the names that
values are taken off the stack for, and the structure of the code. Every body takes one discarding
instruction away, and the label and the end of the program are all that is added. -/
theorem listing_accounts (hl : p.lower = .ok l) : l.Accounts p := by
  have hknown := callsKnown_of_lower hl
  have hcount := fun m hm => Listing.occurrences_add (m := m) hl hm
  exact {
    leaves := by
      rw [Program.leaves, List.filterMap_eq_flatMap_toList,
        ← List.flatMap_congr fun e he => e.instructionsOf_ofLeaf_emits (hknown e he)]
      exact instructions_perm_of_expressions hl (by decide) rfl
    builtins := by
      rw [Program.builtinCalls, List.map_filterMap, List.filterMap_eq_flatMap_toList,
        ← List.flatMap_congr fun e he => e.instructionsOf_ofBuiltin_emits (hknown e he),
        ← List.map_flatMap]
      exact (instructions_perm_of_expressions hl (by decide) rfl).map _
    calls := by
      rw [Program.otherCalls, List.map_filterMap, List.filterMap_eq_flatMap_toList,
        ← List.flatMap_congr fun e he => e.instructionsOf_call_emits (hknown e he)]
      exact instructions_perm_of_expressions hl (by decide) rfl
    closes := by simpa using hcount .close rfl
    returns := by simpa using hcount .ret rfl
    tests := by simpa using hcount .jumpIfFalse rfl
    jumps := by simpa [Nat.mul_comm] using hcount .jump rfl
    pops := by
      have hformals := List.Perm.flatMap_left p.nodes fun e he =>
        e.instructionsOf_pop_emits (hknown e he)
      rw [List.map_append, Program.targets, List.map_filterMap, List.filterMap_eq_flatMap_toList,
        ← List.flatMap_congr fun s _ => s.instructionsOf_pop, p.formalLists_flatten, List.map_flatMap]
      exact (instructions_perm_of_lower hl (by decide)).trans
        (List.perm_append_comm.trans (.append_left _ hformals))
    drops := by simpa [Nat.add_assoc] using hcount .drop rfl
    ends := by simpa using hcount .halt rfl
    length := by
      have hlength := (perm_emitted_of_lower hl).length_eq
      simp only [List.length_append, List.length_map, List.length_cons, length_nodes hknown,
        length_statements] at hlength
      simp only [Listing.length, Program.leaves, Program.builtinCalls, Program.otherCalls,
        Program.formalLists, Program.conditionals, Program.consumers]
      omega }

end Program

/-- A program with a function that takes two arguments, one in an arm of a conditional, and a call
of what the conditional chooses. -/
def chosenCallee : Program where
  statements := [
    .mk (.declare "f") (.lambda (some "f") ["a", "b"] [.mk .push (.variable "a") none,
      .mk .push (.variable "b") none, .mk .discard (.callBuiltin "__add__" 2) none]) none,
    .mk .push (.integer 1) none,
    .mk .push (.string "s") none,
    .mk (.assign "x") (.call (.ifElse (.symbol "c") [.mk .discard (.variable "f") none]
      [.mk .discard (.lambda none [] [.mk .discard .list none]) none]) 2) none]

/-- Its listing. -/
def chosenCalleeListing : Listing where
  entries := [.label "f$0", .op .pop (some (.symbol "b")), .op .pop (some (.symbol "a")),
    .op .push (some (.symbol "a")), .op .push (some (.symbol "b")), .op .add (some (.count 2)),
    .op .ret none,
    .label "__lambda__$0", .op .list (some (.count 2)), .op .ret none,
    .label "__main__", .op .close (some (.label "f$0")), .op .pop (some (.symbol "f")),
    .op .pushInteger (some (.integer 1)), .op .pushString (some (.string "s")),
    .op .push (some (.symbol "c")), .op .jumpIfFalse (some (.label "else$0")),
    .op .jump (some (.label "if$0")), .label "if$0", .op .push (some (.symbol "f")),
    .op .jump (some (.label "endif$0")), .label "else$0",
    .op .close (some (.label "__lambda__$0")), .label "endif$0", .op .call (some (.count 2)),
    .op .pop (some (.symbol "x")), .op .halt none]

theorem chosenCallee_accounts :
    chosenCallee.lower = .ok chosenCalleeListing ∧ chosenCalleeListing.Accounts chosenCallee :=
  have hlower : chosenCallee.lower = .ok chosenCalleeListing := rfl
  ⟨hlower, listing_accounts hlower⟩

end StackLowering
