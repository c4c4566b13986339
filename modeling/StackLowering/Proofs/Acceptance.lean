import StackLowering.Proofs.Derivation

/-!
# Which trees are accepted

Lowering looks at the code that it has produced: a body is refused when its code does not end in
the instruction that discards a value. Acceptance can be read off the tree all the same, since no
expression has code that ends so, and an instruction of that kind at the end of a body must belong
to its last statement.

The condition is local. It asks something of every node by itself, and of a node only its form and
whether it stands where a call has its callee, so that the whole tree is accepted when each of its
nodes is.

## Main definitions

* `Occurrence` — a node, and whether it is the callee of a call
* `Occurrence.Allowed` — what is asked of a node
* `Program.Accepted` — every node of the program is allowed

## Main results

* `lower_eq_ok_iff_accepted` — a program is lowered exactly when it is accepted, and the code of
  statements ends in a discarding instruction exactly when their last one discards its value
-/

namespace StackLowering

/-! ## The condition on trees -/

/-- There is a last statement, and it discards its value. -/
def EndsInDiscard (ss : List Stmt) : Prop :=
  ∃ s, ss.getLast? = some s ∧ s.action = .discard

instance : DecidablePred EndsInDiscard := fun ss =>
  decidable_of_iff (ss.getLast?.map Stmt.action = some .discard) Option.map_eq_some_iff

/-- A node of a tree, and whether it is the callee of a call. -/
structure Occurrence where
  node : Expr
  isCallee : Bool

/-- The bodies of a node that yield the value of their last statement. -/
def Expr.bodies : Expr → List (List Stmt)
  | .ifElse _ thenArm elseArm => [thenArm, elseArm]
  | .lambda _ _ body => [body]
  | .builtin _ | .call .. | .integer _ | .list | .string _ | .record _ | .symbol _
  | .symbolLiteral _ | .variable _ => []

/-- An operation of the machine is called and is known, and bodies end by discarding a value. -/
structure Occurrence.Allowed (o : Occurrence) : Prop where
  /-- An operation of the machine is the callee of a call, and its symbol is in the table. -/
  builtin : ∀ s, o.node = .builtin s → o.isCallee = true ∧ s ∈ Builtin.table.map Prod.fst
  /-- Every body of the node ends in a statement that discards its value. -/
  bodies : ∀ ss ∈ o.node.bodies, EndsInDiscard ss

mutual

/-- The nodes below an expression. -/
def Expr.descendants : Expr → List Occurrence
  | .call callee _ => ⟨callee, true⟩ :: callee.descendants
  | .ifElse condition thenArm elseArm =>
    ⟨condition, false⟩ :: condition.descendants ++ Stmt.nodesAll thenArm ++ Stmt.nodesAll elseArm
  | .lambda _ _ body => Stmt.nodesAll body
  | .builtin _ | .integer _ | .list | .string _ | .record _ | .symbol _ | .symbolLiteral _
  | .variable _ => []

/-- The nodes of a statement. -/
def Stmt.nodes : Stmt → List Occurrence
  | .mk _ expression _ => ⟨expression, false⟩ :: expression.descendants

/-- The nodes of statements. -/
def Stmt.nodesAll : List Stmt → List Occurrence
  | [] => []
  | s :: rest => s.nodes ++ Stmt.nodesAll rest

end

/-- Every node of the program is allowed where it stands. -/
def Program.Accepted (p : Program) : Prop := ∀ o ∈ Stmt.nodesAll p.statements, o.Allowed

/-! ## The condition, form by form -/

/-- Every node of a part is allowed, and a body ends by discarding a value. -/
def Part.Accepted : Part → Prop
  | .expression e => ∀ o ∈ ⟨e, false⟩ :: e.descendants, o.Allowed
  | .statements ss => ∀ o ∈ Stmt.nodesAll ss, o.Allowed
  | .body ss => EndsInDiscard ss ∧ ∀ o ∈ Stmt.nodesAll ss, o.Allowed

variable {e f : Expr} {ss ts : List Stmt} {a : Action} {l : Option Location}
  {c c' : LabelCounters} {k : Code}

@[simp] theorem endsInDiscard_concat :
    EndsInDiscard (ss ++ [.mk a e l]) ↔ a = .discard := by
  simp [EndsInDiscard]

theorem mem_table_iff {s : String} :
    s ∈ Builtin.table.map Prod.fst ↔ ∃ m, Builtin.mnemonic? s = some m := by
  rw [← Option.isSome_iff_exists, Builtin.mnemonic?]
  simp [List.lookup_isSome_iff]

/-- Of a node that is no operation of the machine only its bodies matter. -/
theorem allowed_iff {isCallee : Bool} (hf : f.builtin? = none) :
    Occurrence.Allowed ⟨f, isCallee⟩ ↔ ∀ ss ∈ f.bodies, EndsInDiscard ss := by
  refine ⟨fun h => h.bodies, fun h => ⟨fun s hs => ?_, h⟩⟩
  have hbuiltin : f.builtin? = some s := Expr.builtin?_eq_some.mpr hs
  rw [hf] at hbuiltin
  cases hbuiltin

namespace Part

theorem accepted_expression_iff : Accepted (.expression e) ↔
    Occurrence.Allowed ⟨e, false⟩ ∧ ∀ o ∈ e.descendants, o.Allowed := List.forall_mem_cons

theorem not_accepted_builtin {s : String} : ¬ Accepted (.expression (.builtin s)) := by
  intro h
  exact absurd ((accepted_expression_iff.mp h).1.builtin s rfl).1 Bool.false_ne_true

theorem accepted_of_no_parts (hbuiltin : e.builtin? = none) (hbodies : e.bodies = [])
    (hdescendants : e.descendants = []) : Accepted (.expression e) := by
  rw [accepted_expression_iff, allowed_iff hbuiltin, hbodies, hdescendants]
  simp

theorem accepted_callBuiltin_iff {s : String} {n : UInt64} :
    Accepted (.expression (.callBuiltin s n)) ↔ s ∈ Builtin.table.map Prod.fst := by
  have hcallee : Occurrence.Allowed ⟨.builtin s, true⟩ ↔ s ∈ Builtin.table.map Prod.fst := by
    refine ⟨fun h => (h.builtin s rfl).2, fun h => ⟨fun s' hs => ?_, by simp [Expr.bodies]⟩⟩
    obtain rfl : s = s' := Expr.builtin.inj hs
    exact ⟨rfl, h⟩
  rw [accepted_expression_iff, Expr.callBuiltin, allowed_iff rfl, ← hcallee]
  simp [Expr.bodies, Expr.descendants]

theorem accepted_call_iff {n : UInt64} (hf : f.builtin? = none) :
    Accepted (.expression (.call f n)) ↔ Accepted (.expression f) := by
  rw [accepted_expression_iff, accepted_expression_iff, Expr.descendants, List.forall_mem_cons,
    allowed_iff rfl, allowed_iff hf, allowed_iff hf]
  simp [Expr.bodies]

theorem accepted_ifElse_iff : Accepted (.expression (.ifElse e ss ts)) ↔
    Accepted (.expression e) ∧ Accepted (.body ss) ∧ Accepted (.body ts) := by
  rw [accepted_expression_iff, allowed_iff rfl, Expr.descendants]
  simp only [Accepted, Expr.bodies, List.forall_mem_append, List.forall_mem_cons,
    List.not_mem_nil, false_implies, implies_true, and_true]
  tauto

theorem accepted_lambda_iff {name : Option String} {formals : List String} :
    Accepted (.expression (.lambda name formals ss)) ↔ Accepted (.body ss) := by
  rw [accepted_expression_iff, allowed_iff rfl, Expr.descendants, Accepted]
  simp [Expr.bodies]

theorem accepted_nil : Accepted (.statements []) := by simp [Accepted, Stmt.nodesAll]

theorem accepted_cons_iff : Accepted (.statements (.mk a e l :: ss)) ↔
    Accepted (.expression e) ∧ Accepted (.statements ss) := by
  simp only [Accepted, Stmt.nodesAll, Stmt.nodes, List.forall_mem_append]

theorem accepted_append_iff : Accepted (.statements (ss ++ ts)) ↔
    Accepted (.statements ss) ∧ Accepted (.statements ts) := by
  induction ss with
  | nil => simp [accepted_nil]
  | cons s ss ih =>
    obtain ⟨a, e, l⟩ := s
    rw [List.cons_append, accepted_cons_iff, ih, accepted_cons_iff, and_assoc]

end Part

/-! ## Acceptance and derivations -/

/-- What is lowered is accepted. -/
theorem Lowers.accepted {P : Part} (h : Lowers P c k c') : P.Accepted := by
  induction h with
  | @instruction e i c h =>
    cases Expr.becomes_of_instruction? h with
    | callBuiltin hm => exact Part.accepted_callBuiltin_iff.mpr (mem_table_iff.mpr ⟨_, hm⟩)
    | _ => exact Part.accepted_of_no_parts rfl rfl rfl
  | call hf _ ih => exact (Part.accepted_call_iff hf).mpr ih
  | ifElse _ _ _ ih₁ ih₂ ih₃ => exact Part.accepted_ifElse_iff.mpr ⟨ih₁, ih₂, ih₃⟩
  | lambda _ ih => exact Part.accepted_lambda_iff.mpr ih
  | nil => exact Part.accepted_nil
  | snoc _ _ ih₁ ih₂ =>
    exact Part.accepted_append_iff.mpr ⟨ih₁, Part.accepted_cons_iff.mpr ⟨ih₂, Part.accepted_nil⟩⟩
  | body _ _ ih₁ ih₂ =>
    exact ⟨endsInDiscard_concat.mpr rfl,
      Part.accepted_append_iff.mpr ⟨ih₁, Part.accepted_cons_iff.mpr ⟨ih₂, Part.accepted_nil⟩⟩⟩

/-- Statements whose last one discards its value make a body. -/
theorem Lowers.body_of_endsInDiscard (h : Lowers (.statements ss) c k c')
    (hss : EndsInDiscard ss) : ∃ k', k = k'.ofAction .discard ∧ Lowers (.body ss) c k' c' := by
  cases h with
  | nil => simp [EndsInDiscard] at hss
  | snoc init last =>
    obtain rfl := endsInDiscard_concat.mp hss
    exact ⟨_, (Code.ofAction_append _ _ _).symm, .body init last⟩

mutual

/-- An accepted expression is lowered, from whichever counters. -/
theorem Expr.exists_lowers : ∀ (e : Expr), Part.Accepted (.expression e) → ∀ c : LabelCounters,
    ∃ k c', Lowers (.expression e) c k c'
  | .builtin s, h, _ => absurd h Part.not_accepted_builtin
  | .call f n, h, c => by
    cases hf : f.builtin? with
    | some s =>
      obtain rfl := Expr.builtin?_eq_some.mp hf
      obtain ⟨m, hm⟩ := mem_table_iff.mp (Part.accepted_callBuiltin_iff.mp h)
      exact ⟨_, _, .instruction (by rw [Expr.instruction?, hm]; rfl)⟩
    | none =>
      obtain ⟨k, c', hcallee⟩ := f.exists_lowers ((Part.accepted_call_iff hf).mp h) c
      exact ⟨_, _, .call hf hcallee⟩
  | .ifElse e ss ts, h, c => by
    obtain ⟨he, hss, hts⟩ := Part.accepted_ifElse_iff.mp h
    obtain ⟨k₁, c₁, h₁⟩ := e.exists_lowers he (c.bump BranchLabels.thenBase)
    obtain ⟨_, c₂, h₂⟩ := Stmt.exists_lowers ss hss.2 c₁
    obtain ⟨k₂, -, h₂⟩ := h₂.body_of_endsInDiscard hss.1
    obtain ⟨_, c₃, h₃⟩ := Stmt.exists_lowers ts hts.2 c₂
    obtain ⟨k₃, -, h₃⟩ := h₃.body_of_endsInDiscard hts.1
    exact ⟨_, _, .ifElse h₁ h₂ h₃⟩
  | .lambda name formals ss, h, c => by
    obtain ⟨hlast, hss⟩ := Part.accepted_lambda_iff.mp h
    obtain ⟨_, c', hbody⟩ := Stmt.exists_lowers ss hss (c.bump (Label.lambdaBase name))
    obtain ⟨k, -, hbody⟩ := hbody.body_of_endsInDiscard hlast
    exact ⟨_, _, .lambda hbody⟩
  | .integer _, _, _ | .list, _, _ | .string _, _, _ | .record _, _, _ | .symbol _, _, _
  | .symbolLiteral _, _, _ | .variable _, _, _ => ⟨_, _, .instruction rfl⟩

/-- Accepted statements are lowered, from whichever counters. -/
theorem Stmt.exists_lowers : ∀ (ss : List Stmt), Part.Accepted (.statements ss) →
    ∀ c : LabelCounters, ∃ k c', Lowers (.statements ss) c k c'
  | [], _, _ => ⟨_, _, .nil⟩
  | .mk a e l :: rest, h, c => by
    obtain ⟨he, hrest⟩ := Part.accepted_cons_iff.mp h
    obtain ⟨k₁, c₁, h₁⟩ := e.exists_lowers he c
    obtain ⟨k₂, c₂, h₂⟩ := Stmt.exists_lowers rest hrest c₁
    exact ⟨_, _, (Lowers.single h₁).append h₂⟩

end

/-- The code of statements ends in a discarding instruction exactly when their last one discards
its value: no expression has code that ends so. -/
theorem Lowers.exists_own_eq_concat_drop_iff (h : Lowers (.statements ss) c k c') :
    (∃ es, k.own = es ++ [.drop]) ↔ EndsInDiscard ss := by
  constructor
  · rintro ⟨es, hes⟩
    have hk : k = Code.ofAction ⟨k.lifted, es⟩ .discard := by
      obtain ⟨lifted, own⟩ := k
      simpa [Code.ofAction, Code.push, Entry.op, Entry.drop, Instruction.drop] using hes
    exact (Lowers.statements_discard_iff.mp (hk ▸ h)).accepted.1
  · intro hss
    obtain ⟨k', rfl, -⟩ := h.body_of_endsInDiscard hss
    exact ⟨k'.own, k'.own_ofAction .discard⟩

/-- **Exact acceptance.** A program is lowered exactly when every node of it is allowed where it
stands. At every block, the check of the last instruction agrees with the tree: it passes exactly
when there is a last statement and it discards its value. -/
theorem lower_eq_ok_iff_accepted :
    (∀ p : Program, (∃ l, p.lower = .ok l) ↔ p.Accepted) ∧
      ∀ (ss : List Stmt) (c c' : LabelCounters) (k : Code) (context : String)
        (location : Option Location), (Stmt.lowerAll ss).run c = (.ok k, c') →
          ((∃ es, withoutFinalDrop k.own context location = .ok es) ↔ EndsInDiscard ss) := by
  refine ⟨fun p => ⟨?_, fun h => ?_⟩, fun ss c c' k context location h => ?_⟩
  · rintro ⟨l, hl⟩
    obtain ⟨k, c', hk, -⟩ := Program.lower_eq_ok_iff.mp hl
    exact hk.accepted
  · obtain ⟨k, c', hk⟩ := Stmt.exists_lowers p.statements h .empty
    exact ⟨_, Program.lower_eq_ok_iff.mpr ⟨k, c', hk, rfl⟩⟩
  · simp only [withoutFinalDrop_eq_ok_iff]
    exact (Stmt.lowers_of_run ss h).exists_own_eq_concat_drop_iff

/-- A statement that leaves a value behind never ends a body, although the code of its expression
may end in any entry but the discarding instruction. -/
theorem push_rejected_at_end :
    ((∃ l, (Program.mk [.mk .push (.lambda none [] [.mk .push .list none]) none]).lower = .ok l) ↔
      Program.Accepted ⟨[.mk .push (.lambda none [] [.mk .push .list none]) none]⟩) ∧
    (Stmt.lowerAll [.mk .push .list none]).run .empty
      = (.ok ⟨[], [.op .list (some (.count 2))]⟩, .empty) ∧
    ((∃ es, withoutFinalDrop [.op .list (some (.count 2))] "" none = .ok es) ↔
      EndsInDiscard [.mk .push .list none]) :=
  ⟨lower_eq_ok_iff_accepted.1 _, rfl,
    lower_eq_ok_iff_accepted.2 [.mk .push .list none] .empty .empty
      ⟨[], [.op .list (some (.count 2))]⟩ "" none rfl⟩

end StackLowering
