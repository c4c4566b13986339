import StackLowering.Proofs.Acceptance
import StackLowering.Proofs.Entries

/-!
# The entries that each node adds

The code of a part of a tree is moved many times on its way out: put behind other code, lifted out
of it, and cut at its end. Nothing gets lost and nothing is copied. Each expression of a tree adds
its own entries to the listing and each statement its own, wherever they stand, and the listing has
no other entries but its label and its end.

The discarding instructions that are cut off are the only entries that come back out. There is one
for each body of the tree, so they are put beside the listing.

Entries are taken without the names of labels. A name depends on the counters, and which name
stands where is another matter.

## Main definitions

* `Program.nodes`, `Program.allStatements` — the expressions and the statements of a tree
* `Expr.emits`, `Expr.removes` — the entries that an expression adds by itself, and those that are
  cut off its bodies

## Main results

* `Lowers.perm_emitted` — the entries of code are those of the nodes, in another order
* `perm_emitted_of_lower` — so are those of a listing, apart from its label and its end
-/

namespace StackLowering

/-! ## The parts of a tree -/

mutual

/-- The statements inside an expression. -/
def Expr.statements : Expr → List Stmt
  | .call callee _ => callee.statements
  | .ifElse condition thenArm elseArm =>
    condition.statements ++ Stmt.withInner thenArm ++ Stmt.withInner elseArm
  | .lambda _ _ body => Stmt.withInner body
  | .builtin _ | .integer _ | .list | .string _ | .record _ | .symbol _ | .symbolLiteral _
  | .variable _ => []

/-- Statements, each with those inside it. -/
def Stmt.withInner : List Stmt → List Stmt
  | [] => []
  | .mk a e l :: rest => .mk a e l :: (e.statements ++ Stmt.withInner rest)

end

/-- The expressions of a program, wherever they stand. -/
def Program.nodes (p : Program) : List Expr := (Stmt.nodesAll p.statements).map Occurrence.node

/-- The statements of a program, wherever they stand. -/
def Program.allStatements (p : Program) : List Stmt := Stmt.withInner p.statements

/-! ## What each of them adds -/

/-- The entry without the name of the label that it stands for or refers to. -/
def Entry.unnamed : Entry → Entry
  | .label _ => .label ""
  | .instruction ⟨.close, _⟩ => .op .close none
  | .instruction ⟨.jump, _⟩ => .op .jump none
  | .instruction ⟨.jumpIfFalse, _⟩ => .op .jumpIfFalse none
  | x => x

/-- The operation that a call of this callee becomes: its own when the callee is an operation of the
machine that is known. -/
def Expr.calledAs? (callee : Expr) : Option Mnemonic :=
  match callee.builtin? with
  | some s => Builtin.mnemonic? s
  | none => some .call

/-- The entries that an expression adds by itself, without the names of labels. -/
def Expr.emits : Expr → List Entry
  | .builtin _ => []
  | .call callee n => callee.calledAs?.toList.map fun m => .op m (some (.count n))
  | .ifElse .. => [.op .jumpIfFalse none, .op .jump none, .label "", .op .jump none, .label "",
    .label ""]
  | .lambda _ formals _ => .op .close none :: .label "" :: (popFormals formals ++ [.op .ret none])
  | .integer value => [.op .pushInteger (some (.integer value))]
  | .list => [.op .list (some (.count 2))]
  | .string value => [.op .pushString (some (.string value))]
  | .record fieldCount => [.op .record (some (.count fieldCount))]
  | .symbol name => [.op .push (some (.symbol name))]
  | .symbolLiteral name => [.op .pushSymbol (some (.symbol name))]
  | .variable name => [.op .push (some (.symbol name))]

/-- The entries that are cut off the bodies of an expression. -/
def Expr.removes (e : Expr) : List Entry := e.bodies.map fun _ => .drop

namespace Part

/-- The expressions of a part. -/
def nodes : Part → List Expr
  | expression e => e :: e.descendants.map Occurrence.node
  | statements ss | body ss => (Stmt.nodesAll ss).map Occurrence.node

/-- The statements of a part. -/
def allStatements : Part → List Stmt
  | expression e => e.statements
  | statements ss | body ss => Stmt.withInner ss

/-- The entries that are cut off inside a part, and off the part itself when it is a body. -/
def removed : Part → List Entry
  | expression e => (expression e).nodes.flatMap Expr.removes
  | statements ss => (statements ss).nodes.flatMap Expr.removes
  | body ss => .drop :: (body ss).nodes.flatMap Expr.removes

/-- The entries that the expressions and the statements of a part add. -/
def emitted (P : Part) : List Entry :=
  P.nodes.flatMap Expr.emits ++ P.allStatements.flatMap fun s => s.action.entries

end Part

section Unnamed

@[simp] theorem Entry.unnamed_label (name : String) : (Entry.label name).unnamed = .label "" := rfl

theorem Entry.unnamed_of_makesValue {i : Instruction} (h : i.mnemonic.makesValue = true) :
    (Entry.instruction i).unnamed = .instruction i := by
  obtain ⟨m, o⟩ := i
  cases m <;> first | rfl | cases h

@[simp] theorem map_unnamed_popFormals (formals : List String) :
    (popFormals formals).map Entry.unnamed = popFormals formals := by
  rw [popFormals, List.map_map]
  rfl

@[simp] theorem Action.map_unnamed_entries (a : Action) :
    a.entries.map Entry.unnamed = a.entries := by
  cases a <;> rfl

end Unnamed

section Append

variable {ss ts : List Stmt}

theorem Stmt.nodesAll_append :
    Stmt.nodesAll (ss ++ ts) = Stmt.nodesAll ss ++ Stmt.nodesAll ts := by
  induction ss with
  | nil => rfl
  | cons s ss ih => rw [List.cons_append, Stmt.nodesAll, ih, Stmt.nodesAll, List.append_assoc]

theorem Stmt.withInner_append :
    Stmt.withInner (ss ++ ts) = Stmt.withInner ss ++ Stmt.withInner ts := by
  induction ss with
  | nil => rfl
  | cons s ss ih =>
    obtain ⟨a, e, l⟩ := s
    rw [List.cons_append, Stmt.withInner, ih, Stmt.withInner, List.cons_append, List.append_assoc]

@[simp] theorem Stmt.nodesAll_singleton (a : Action) (e : Expr) (l : Option Location) :
    Stmt.nodesAll [.mk a e l] = ⟨e, false⟩ :: e.descendants := by
  simp [Stmt.nodesAll, Stmt.nodes]

@[simp] theorem Stmt.withInner_singleton (a : Action) (e : Expr) (l : Option Location) :
    Stmt.withInner [.mk a e l] = .mk a e l :: e.statements := by
  simp [Stmt.withInner]

end Append

/-! ## Nothing is lost and nothing is copied -/

variable {c c' : LabelCounters} {k : Code} {P : Part}

/-- An expression that becomes a single instruction adds that one, and nothing is cut off. -/
theorem Expr.emitted_of_instruction? {e : Expr} {i : Instruction} (h : e.instruction? = some i) :
    (Part.expression e).emitted = [.instruction i] ∧ (Part.expression e).removed = [] := by
  cases Expr.becomes_of_instruction? h with
  | callBuiltin hm =>
    refine ⟨?_, rfl⟩
    simp [Part.emitted, Part.nodes, Part.allStatements, Expr.callBuiltin, Expr.descendants,
      Expr.statements, Expr.emits, Expr.calledAs?, Expr.builtin?, hm, Entry.op]
  | _ => exact ⟨rfl, rfl⟩

/-- **The entries of code are those that the nodes of its part add**, without those that are cut
off. -/
theorem Lowers.perm_emitted (h : Lowers P c k c') :
    ((k.lifted ++ k.own).map Entry.unnamed ++ P.removed).Perm P.emitted := by
  induction h with
  | @instruction e i c h =>
    obtain ⟨hemitted, hremoved⟩ := Expr.emitted_of_instruction? h
    rw [hemitted, hremoved]
    simp [Entry.unnamed_of_makesValue (Expr.makesValue_of_instruction? h).1]
  | call hf _ ih =>
    rw [List.perm_iff_count] at ih ⊢
    intro x
    have h' := ih x
    simp only [Part.removed, Part.emitted, Part.nodes, Part.allStatements, Expr.descendants,
      Expr.statements, Expr.emits, Expr.calledAs?, hf, Code.lifted_push, Code.own_push,
      Entry.unnamed, Entry.op, Expr.removes, Expr.bodies, Option.toList, List.map_append,
      List.map_cons, List.map_nil, List.flatMap_cons, List.nil_append, List.count_append,
      List.count_cons, List.count_nil] at h' ⊢
    omega
  | ifElse _ _ _ ih₁ ih₂ ih₃ =>
    rw [List.perm_iff_count] at ih₁ ih₂ ih₃ ⊢
    intro x
    have h₁ := ih₁ x
    have h₂ := ih₂ x
    have h₃ := ih₃ x
    simp only [Part.removed, Part.emitted, Part.nodes, Part.allStatements, Expr.descendants,
      Expr.statements, Expr.emits, Code.ofArms, Entry.unnamed, Entry.op, Expr.removes, Expr.bodies,
      List.map_append, List.map_cons, List.map_nil, List.flatMap_append, List.flatMap_cons,
      List.cons_append, List.count_append, List.count_cons, List.count_nil] at h₁ h₂ h₃ ⊢
    omega
  | lambda _ ih =>
    rw [List.perm_iff_count] at ih ⊢
    intro x
    have h' := ih x
    simp only [Part.removed, Part.emitted, Part.nodes, Part.allStatements, Expr.descendants,
      Expr.statements, Expr.emits, Code.ofLambda, Entry.unnamed, Entry.op, Expr.removes,
      Expr.bodies, map_unnamed_popFormals, List.map_append, List.map_cons, List.map_nil,
      List.flatMap_cons, List.cons_append, List.count_append, List.count_cons,
      List.count_nil] at h' ⊢
    omega
  | nil => exact .rfl
  | snoc _ _ ih₁ ih₂ | body _ _ ih₁ ih₂ =>
    rw [List.perm_iff_count] at ih₁ ih₂ ⊢
    intro x
    have h₁ := ih₁ x
    have h₂ := ih₂ x
    simp only [Part.removed, Part.emitted, Part.nodes, Part.allStatements, Stmt.nodesAll_append,
      Stmt.nodesAll_singleton, Stmt.withInner_append, Stmt.withInner_singleton, Stmt.action_mk,
      Code.lifted_append, Code.own_append, Code.lifted_ofAction, Code.own_ofAction,
      Action.map_unnamed_entries, Action.entries_discard, List.map_append, List.map_cons,
      List.flatMap_append, List.flatMap_cons, List.count_append, List.count_cons,
      List.count_nil] at h₁ h₂ ⊢
    omega

/-- Every operation of the machine that a part calls is known. -/
theorem Lowers.exists_calledAs?_of_mem_nodes (h : Lowers P c k c') {f : Expr} {n : UInt64}
    (hmem : .call f n ∈ P.nodes) : ∃ m, f.calledAs? = some m := by
  induction h with
  | @instruction e i c h =>
    cases Expr.becomes_of_instruction? h with
    | callBuiltin hm =>
      simp only [Part.nodes, Expr.callBuiltin, Expr.descendants, List.map_cons, List.map_nil,
        List.mem_cons, Expr.call.injEq, List.not_mem_nil, reduceCtorEq, or_false] at hmem
      obtain ⟨rfl, -⟩ := hmem
      exact ⟨_, hm⟩
    | _ => simp [Part.nodes, Expr.descendants] at hmem
  | @call g _ _ _ _ hg _ ih =>
    obtain heq | hmem := List.mem_cons.mp hmem
    · obtain ⟨rfl, -⟩ := Expr.call.inj heq
      exact ⟨.call, by rw [Expr.calledAs?, hg]⟩
    · exact ih hmem
  | ifElse _ _ _ ih₁ ih₂ ih₃ =>
    simp only [Part.nodes, Expr.descendants, List.map_append, List.map_cons, List.mem_cons,
      List.mem_append, reduceCtorEq, false_or] at hmem ih₁ ih₂ ih₃
    obtain (hmem | hmem) | hmem := hmem
    · exact ih₁ hmem
    · exact ih₂ hmem
    · exact ih₃ hmem
  | lambda _ ih =>
    obtain heq | hmem := List.mem_cons.mp hmem
    · cases heq
    · exact ih hmem
  | nil => cases hmem
  | snoc _ _ ih₁ ih₂ | body _ _ ih₁ ih₂ =>
    simp only [Part.nodes, Stmt.nodesAll_append, Stmt.nodesAll_singleton, List.map_append,
      List.mem_append] at hmem ih₁
    obtain hmem | hmem := hmem
    · exact ih₁ hmem
    · exact ih₂ hmem

/-! ### Whole programs -/

section Program

variable {p : Program} {l : Listing}

/-- The entries of a listing are its label, its end, and what the nodes of the program add. -/
theorem perm_emitted_of_lower (hl : p.lower = .ok l) :
    (l.entries.map Entry.unnamed ++ p.nodes.flatMap Expr.removes).Perm
      (.label "" :: .op .halt none ::
        (p.nodes.flatMap Expr.emits ++ p.allStatements.flatMap fun s => s.action.entries)) := by
  obtain ⟨k, c', hk, rfl⟩ := Program.lower_eq_ok_iff.mp hl
  have hperm := hk.perm_emitted
  rw [List.perm_iff_count] at hperm ⊢
  intro x
  have hx := hperm x
  simp only [Part.removed, Part.emitted, Part.nodes, Part.allStatements, List.map_append,
    List.count_append] at hx
  simp only [Code.toListing, Program.nodes, Program.allStatements, Entry.unnamed, Entry.op,
    List.map_append, List.map_cons, List.map_nil, List.count_append, List.count_cons,
    List.count_nil]
  omega

/-- A call, if it is one, is one of an operation that is known. -/
def Expr.CallsKnown (e : Expr) : Prop := ∀ f n, e = .call f n → ∃ m, f.calledAs? = some m

/-- A program that is lowered calls no operation that is unknown. -/
theorem callsKnown_of_lower (hl : p.lower = .ok l) : ∀ e ∈ p.nodes, e.CallsKnown := by
  obtain ⟨k, c', hk, rfl⟩ := Program.lower_eq_ok_iff.mp hl
  rintro e he f n rfl
  exact hk.exists_calledAs?_of_mem_nodes he

end Program

end StackLowering
