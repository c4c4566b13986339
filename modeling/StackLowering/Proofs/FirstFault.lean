import StackLowering.Proofs.Acceptance

/-!
# The fault that is reported

A tree may be at fault in many places. Its faults are listed here from the tree alone, in the order
in which a lowering meets them: a conditional or a function at the end of each of its bodies, behind
what is inside. The one that is reported is the first.

The location of a fault comes from outside. It is that of the innermost statement around the fault
that has one, so it is handed down the tree, and a statement without a location hands down what it
was handed. The end of a body has the location of the last statement of the body before all others,
although that statement is not around it.

## Main definitions

* `Expr.lastEntry?`, `Stmt.lastEntry?` — the last entry of the code of a tree
* `Expr.faults`, `Stmt.faultsAll`, `Program.faults` — the faults of a tree
* `FailsWith` — an outcome fails with the first of some faults, or succeeds when there is none

## Main results

* `Lowers.getLast?_own` — the last entry of code is the one that the tree tells
* `Expr.failsWith_lower`, `Stmt.failsWith_lowerAll` — a lowering fails with the first fault
* `lower_reports_first_fault` — the error of a program
-/

namespace StackLowering

/-! ### The last entry of the code -/

/-- The last entry of the code of an expression that is lowered from these counters. An operation
of the machine by itself has no code. -/
def Expr.lastEntry? : Expr → LabelCounters → Option Entry
  | .builtin _, _ => none
  | .call callee n, _ =>
    match callee.builtin? with
    | some s => (Builtin.mnemonic? s).map fun m => .op m (some (.count n))
    | none => some (.op .call (some (.count n)))
  | .ifElse .., c => some (.label (BranchLabels.ofTag (c.count BranchLabels.thenBase)).endLabel)
  | .lambda name _ _, c =>
    let base := Label.lambdaBase name
    some (.op .close (some (.label (Label.numbered base (c.count base)))))
  | .integer value, _ => some (.op .pushInteger (some (.integer value)))
  | .list, _ => some (.op .list (some (.count 2)))
  | .string value, _ => some (.op .pushString (some (.string value)))
  | .record fieldCount, _ => some (.op .record (some (.count fieldCount)))
  | .symbol name, _ => some (.op .push (some (.symbol name)))
  | .symbolLiteral name, _ => some (.op .pushSymbol (some (.symbol name)))
  | .variable name, _ => some (.op .push (some (.symbol name)))

/-- The last entry of the code of a statement. -/
def Stmt.lastEntry? (s : Stmt) (c : LabelCounters) : Option Entry :=
  s.action.entries.getLast?.or (s.expression.lastEntry? c)

/-- The last entry of the code of statements. -/
def Stmt.lastEntryAll? (ss : List Stmt) (c : LabelCounters) : Option Entry :=
  ss.getLast?.bind fun s => s.lastEntry? (c.drawAll (Stmt.drawsAll ss.dropLast))

/-! ### The faults of a tree -/

/-- What a diagnostic says that it found at the end of a body. -/
def foundAtEnd : Option Entry → String
  | some last => last.describe
  | none => "an empty block"

/-- The fault at the end of a body, if there is one. -/
def endFault (context : String) (around : Option Location) (ss : List Stmt) (c : LabelCounters) :
    List LocatedFault :=
  if EndsInDiscard ss then []
  else [⟨.malformedBody context (foundAtEnd (Stmt.lastEntryAll? ss c)),
    (finalLocation ss).or around⟩]

mutual

/-- The faults of an expression, in the order in which they are met, where `around` is the location
of the innermost statement around it that has one. -/
def Expr.faults (around : Option Location) : Expr → LabelCounters → List LocatedFault
  | .builtin symbol, _ => [⟨.unhandledShape "Builtin" (Context.value symbol), around⟩]
  | .call callee _, c =>
    match callee.builtin? with
    | some symbol =>
      if symbol ∈ Builtin.table.map Prod.fst then [] else [⟨.unknownBuiltin symbol, around⟩]
    | none => callee.faults around c
  | .ifElse condition thenArm elseArm, c =>
    let labels := BranchLabels.ofTag (c.count BranchLabels.thenBase)
    let c₁ := c.bump BranchLabels.thenBase
    let c₂ := c₁.drawAll condition.draws
    let c₃ := c₂.drawAll (Stmt.drawsAll thenArm)
    condition.faults around c₁ ++
      (Stmt.faultsAll around thenArm c₂ ++
        (endFault (Context.thenArm labels) around thenArm c₂ ++
          (Stmt.faultsAll around elseArm c₃ ++
            endFault (Context.elseArm labels) around elseArm c₃)))
  | .lambda name _ body, c =>
    let base := Label.lambdaBase name
    Stmt.faultsAll around body (c.bump base) ++
      endFault (Context.body (Label.numbered base (c.count base))) around body (c.bump base)
  | .integer _, _ | .list, _ | .string _, _ | .record _, _ | .symbol _, _ | .symbolLiteral _, _
  | .variable _, _ => []

/-- The faults of a statement: its own location comes before that of the statements around it. -/
def Stmt.faults (around : Option Location) : Stmt → LabelCounters → List LocatedFault
  | .mk _ e l, c => e.faults (l.or around) c

/-- The faults of statements, from left to right. -/
def Stmt.faultsAll (around : Option Location) : List Stmt → LabelCounters → List LocatedFault
  | [], _ => []
  | s :: rest, c => s.faults around c ++ Stmt.faultsAll around rest (c.drawAll s.draws)

end

/-- The faults of a program. -/
def Program.faults (p : Program) : List LocatedFault :=
  Stmt.faultsAll none p.statements LabelCounters.empty

/-! ### The last entry, read off the tree -/

section LastEntry

variable {e : Expr} {ss : List Stmt} {c c' : LabelCounters} {k : Code}

/-- The last entry of the code of an expression. -/
theorem Lowers.getLast?_own_expression (h : Lowers (.expression e) c k c') :
    k.own.getLast? = e.lastEntry? c := by
  cases h with
  | instruction h =>
    cases Expr.becomes_of_instruction? h with
    | callBuiltin hm => simp [Expr.callBuiltin, Expr.lastEntry?, Expr.builtin?, hm, Entry.op]
    | _ => rfl
  | call hf callee => simp [Expr.lastEntry?, hf]
  | ifElse => exact List.getLast?_concat
  | lambda => rfl

/-- The last entry of the code of statements. -/
theorem Lowers.getLast?_own (h : Lowers (.statements ss) c k c') :
    k.own.getLast? = Stmt.lastEntryAll? ss c := by
  cases h with
  | nil => rfl
  | @snoc ss a e l _ c₁ _ k₁ k₂ init last =>
    have hlast := last.getLast?_own_expression
    obtain ⟨es, x, hx, -⟩ := last.own_eq_concat
    rw [hx, List.getLast?_concat, init.counters, Part.draws] at hlast
    rw [Stmt.lastEntryAll?, List.getLast?_concat, List.dropLast_concat, Option.bind_some,
      Stmt.lastEntry?, Stmt.action_mk, Stmt.expression_mk, ← hlast, Code.own_append,
      Code.own_ofAction, hx, ← List.append_assoc, List.getLast?_append, ← List.append_assoc,
      List.getLast?_concat]

end LastEntry

/-! ### Outcomes that fail with the first fault -/

section FailsWith

variable {α β : Type} {around l : Option Location} {c : LabelCounters}
  {r : Except LocatedFault α} {fs fs' : List LocatedFault} {x : LowerM α}

/-- The outcome fails with the first of these faults, located from around it when it has no
location, and succeeds when there is none. -/
def FailsWith (around : Option Location) (r : Except LocatedFault α) (fs : List LocatedFault) :
    Prop :=
  match r with
  | .ok _ => fs = []
  | .error e => fs.head? = some (e.locatedAt around)

namespace FailsWith

theorem ok {a : α} : FailsWith around (.ok a) [] := rfl

theorem error {e : LocatedFault} :
    FailsWith around (.error e : Except LocatedFault α) [e.locatedAt around] := rfl

/-- Behind a step that succeeds, the faults of the next one count. -/
theorem bind {f : α → LowerM β} (hx : FailsWith around (x.run c).1 fs)
    (hf : ∀ a c₁, x.run c = (.ok a, c₁) → FailsWith around ((f a).run c₁).1 fs') :
    FailsWith around ((x >>= f).run c).1 (fs ++ fs') := by
  rw [LowerM.run_bind]
  rcases hrun : x.run c with ⟨e | a, c₁⟩
  · rw [hrun] at hx
    have hhead : fs.head? = some (e.locatedAt around) := hx
    change (fs ++ fs').head? = _
    rw [List.head?_append, hhead]
    rfl
  · rw [hrun] at hx
    obtain rfl : fs = [] := hx
    exact hf a c₁ hrun

/-- A step that never fails may stand at the end. -/
theorem andThen {f : α → LowerM β} (hx : FailsWith around (x.run c).1 fs)
    (hf : ∀ a c₁, FailsWith around ((f a).run c₁).1 []) :
    FailsWith around ((x >>= f).run c).1 fs := by
  have hbind : FailsWith around ((x >>= f).run c).1 (fs ++ []) := hx.bind fun a c₁ _ => hf a c₁
  rwa [List.append_nil] at hbind

/-- A statement hands its own location down, or the one that it was handed. -/
theorem locate (hx : FailsWith (l.or around) (x.run c).1 fs) :
    FailsWith around ((x.locate l).run c).1 fs := by
  rw [LowerM.run_locate]
  rcases hrun : x.run c with ⟨e | a, c₁⟩
  · rw [hrun] at hx
    have hhead : fs.head? = some (e.locatedAt (l.or around)) := hx
    change fs.head? = _
    rw [hhead]
    simp [LocatedFault.locatedAt, Option.or_assoc]
  · rw [hrun] at hx
    exact hx

end FailsWith

end FailsWith

/-! ### A lowering fails with the first fault -/

section Lowering

variable {around : Option Location} {c c' : LabelCounters} {k : Code} {ss : List Stmt}

theorem withoutFinalDrop_eq (es : List Entry) (context : String) (location : Option Location) :
    withoutFinalDrop es context location = if es.getLast? = some .drop then .ok es.dropLast
      else .error ⟨.malformedBody context (foundAtEnd es.getLast?), location⟩ := by
  rw [withoutFinalDrop]
  cases es.getLast? <;> simp [foundAtEnd]

/-- A callee is at fault when its symbol is not in the table. -/
theorem failsWith_resolveBuiltin (symbol : String) :
    FailsWith around (resolveBuiltin symbol)
      (if symbol ∈ Builtin.table.map Prod.fst then [] else [⟨.unknownBuiltin symbol, around⟩]) := by
  rw [resolveBuiltin]
  cases hm : Builtin.mnemonic? symbol with
  | some m =>
    rw [if_pos (mem_table_iff.mpr ⟨m, hm⟩)]
    exact .ok
  | none =>
    rw [if_neg (mt mem_table_iff.mp (by simp [hm]))]
    exact .error

/-- The end of a body is at fault when its last statement does not discard its value. -/
theorem failsWith_yieldLast (h : (Stmt.lowerAll ss).run c = (.ok k, c')) (context : String) :
    FailsWith around (k.yieldLast context (finalLocation ss)) (endFault context around ss c) := by
  have hk := Stmt.lowers_of_run ss h
  have hdrop : k.own.getLast? = some .drop ↔ EndsInDiscard ss := by
    rw [List.getLast?_eq_some_iff]
    exact hk.exists_own_eq_concat_drop_iff
  rw [Code.yieldLast, withoutFinalDrop_eq, endFault, ← hk.getLast?_own]
  by_cases hss : EndsInDiscard ss
  · rw [if_pos (hdrop.mpr hss), if_pos hss]
    rfl
  · rw [if_neg (mt hdrop.mp hss), if_neg hss]
    rfl

mutual

/-- The lowering of an expression fails with its first fault. -/
theorem Expr.failsWith_lower : ∀ (e : Expr) (around : Option Location) (c : LabelCounters),
    FailsWith around (e.lower.run c).1 (e.faults around c)
  | .builtin symbol, around, c => .error
  | .call callee n, around, c => by
    rw [Expr.lower, Expr.faults]
    cases hcallee : callee.builtin? with
    | some symbol =>
      exact (failsWith_resolveBuiltin symbol).andThen fun _ _ => .ok
    | none => exact (callee.failsWith_lower around c).andThen fun _ _ => .ok
  | .ifElse condition thenArm elseArm, around, c => by
    rw [Expr.lower, Expr.faults, LowerM.run_bind, LowerM.run_drawTag]
    refine (condition.failsWith_lower around _).bind fun k₁ c₂ h₁ => ?_
    obtain rfl := condition.lower_draws.ok h₁
    refine (Stmt.failsWith_lowerAll thenArm around _).bind fun k₂ c₃ h₂ => ?_
    refine (failsWith_yieldLast h₂ _).bind fun k₂' c₃' h₂' => ?_
    obtain rfl := (Stmt.lowerAll_draws thenArm).ok h₂
    obtain rfl : _ = c₃' := congrArg Prod.snd h₂'
    refine (Stmt.failsWith_lowerAll elseArm around _).bind fun k₃ c₄ h₃ => ?_
    exact (failsWith_yieldLast h₃ _).andThen fun _ _ => .ok
  | .lambda name formals body, around, c => by
    rw [Expr.lower, Expr.faults, LowerM.run_bind, LowerM.run_drawLabel]
    refine (Stmt.failsWith_lowerAll body around _).bind fun k c₁ h => ?_
    exact (failsWith_yieldLast h _).andThen fun _ _ => .ok
  | .integer _, _, _ | .list, _, _ | .string _, _, _ | .record _, _, _ | .symbol _, _, _
  | .symbolLiteral _, _, _ | .variable _, _, _ => .ok

/-- The lowering of a statement fails with its first fault. -/
theorem Stmt.failsWith_lower : ∀ (s : Stmt) (around : Option Location) (c : LabelCounters),
    FailsWith around (s.lower.run c).1 (s.faults around c)
  | .mk _ e l, around, c => ((e.failsWith_lower (l.or around) c).andThen fun _ _ => .ok).locate

/-- The lowering of statements fails with their first fault. -/
theorem Stmt.failsWith_lowerAll : ∀ (ss : List Stmt) (around : Option Location)
    (c : LabelCounters), FailsWith around ((Stmt.lowerAll ss).run c).1 (Stmt.faultsAll around ss c)
  | [], _, _ => .ok
  | s :: rest, around, c => by
    rw [Stmt.lowerAll, Stmt.faultsAll]
    refine (s.failsWith_lower around c).bind fun k₁ c₁ h₁ => ?_
    obtain rfl := s.lower_draws.ok h₁
    exact (Stmt.failsWith_lowerAll rest around _).andThen fun _ _ => .ok

end

end Lowering

/-! ### Programs -/

theorem Program.failsWith_lower (p : Program) : FailsWith none p.lower p.faults := by
  have h := Stmt.failsWith_lowerAll p.statements none LabelCounters.empty
  rw [Program.lower, Program.faults]
  generalize (Stmt.lowerAll p.statements).run LabelCounters.empty = r at h ⊢
  obtain ⟨e | k, c'⟩ := r <;> exact h

end StackLowering
