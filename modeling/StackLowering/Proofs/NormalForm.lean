import StackLowering.Proofs.Derivation
import StackLowering.Proofs.LabelText

/-!
# Normal forms of trees

What stack code does not show of the tree that it came from: where a statement stood, whether a
name got its value for the first time, whether a name was known to be a variable, and which of the
names with the same escaped form a function had. The normal form of a tree forgets these four
things everywhere and nothing else.

Normal forms are compared and never lowered. The name of a function in a normal form is escaped
already, and to escape it again would give another label.

## Main definitions

* `Program.normalize` — the normal form of a program
* `Instruction.expression?` — the normal form of the expression that becomes this instruction

## Main results

* `Lowers.congr` — parts with one normal form have the same derivations
* `Program.lower_congr` — programs with one normal form have the same listing
* `Expr.normalize_unique` — an instruction of a single value determines a normal form
-/

namespace StackLowering

/-- A name that gets a value, for the first time or not. -/
def Action.normalize : Action → Action
  | .assign target => .declare target
  | .discard => .discard
  | .push => .push
  | .declare name => .declare name

mutual

/-- The normal form of an expression. -/
def Expr.normalize : Expr → Expr
  | .builtin s => .builtin s
  | .call f n => .call f.normalize n
  | .ifElse e ss ts => .ifElse e.normalize (Stmt.normalizeAll ss) (Stmt.normalizeAll ts)
  | .integer value => .integer value
  | .lambda name formals ss => .lambda (name.map Label.escape) formals (Stmt.normalizeAll ss)
  | .list => .list
  | .string value => .string value
  | .record fieldCount => .record fieldCount
  | .symbol name => .symbol name
  | .symbolLiteral name => .symbolLiteral name
  | .variable name => .symbol name

/-- The normal form of a statement, which stands nowhere. -/
def Stmt.normalize : Stmt → Stmt
  | .mk a e _ => .mk a.normalize e.normalize none

/-- The normal forms of statements. -/
def Stmt.normalizeAll : List Stmt → List Stmt
  | [] => []
  | s :: ss => s.normalize :: Stmt.normalizeAll ss

end

/-- The normal form of a program. -/
def Program.normalize (p : Program) : Program := ⟨Stmt.normalizeAll p.statements⟩

/-- The normal form of a part. -/
def Part.normalize : Part → Part
  | .expression e => .expression e.normalize
  | .statements ss => .statements (Stmt.normalizeAll ss)
  | .body ss => .body (Stmt.normalizeAll ss)

variable {e f : Expr} {ss ts : List Stmt} {a : Action} {l : Option Location}
  {c c' : LabelCounters} {k : Code}

/-! ### Normal forms of lists of statements -/

theorem Stmt.normalizeAll_eq_map (ss : List Stmt) :
    Stmt.normalizeAll ss = ss.map Stmt.normalize := by
  induction ss with
  | nil => rfl
  | cons s ss ih => rw [Stmt.normalizeAll, ih, List.map_cons]

@[simp] theorem Stmt.normalizeAll_concat :
    Stmt.normalizeAll (ss ++ [.mk a e l])
      = Stmt.normalizeAll ss ++ [.mk a.normalize e.normalize none] := by
  simp [Stmt.normalizeAll_eq_map, Stmt.normalize]

theorem Stmt.normalizeAll_eq_nil (h : Stmt.normalizeAll ss = []) : ss = [] := by
  rwa [Stmt.normalizeAll_eq_map, List.map_eq_nil_iff] at h

/-- Statements whose normal forms end in a given one end in a statement that has it. -/
theorem Stmt.normalizeAll_eq_concat
    (h : Stmt.normalizeAll ss = Stmt.normalizeAll ts ++ [.mk a.normalize e.normalize none]) :
    ∃ ss' a' e' l', ss = ss' ++ [.mk a' e' l'] ∧ Stmt.normalizeAll ss' = Stmt.normalizeAll ts ∧
      a'.normalize = a.normalize ∧ e'.normalize = e.normalize := by
  rcases ss.eq_nil_or_concat with rfl | ⟨ss', ⟨a', e', l'⟩, rfl⟩
  · simp [Stmt.normalizeAll] at h
  · rw [List.concat_eq_append] at h ⊢
    rw [Stmt.normalizeAll_concat] at h
    obtain ⟨hinit, hlast⟩ := List.append_singleton_inj.mp h
    rw [Stmt.mk.injEq] at hlast
    exact ⟨ss', a', e', l', rfl, hinit, hlast.1, hlast.2.1⟩

/-! ### The same normal form, the same code -/

@[simp] theorem Expr.builtin?_normalize (e : Expr) : e.normalize.builtin? = e.builtin? := by
  cases e <;> rfl

@[simp] theorem Expr.instruction?_normalize (e : Expr) :
    e.normalize.instruction? = e.instruction? := by
  cases e with
  | call f n => cases f <;> rfl
  | _ => rfl

@[simp] theorem Code.ofAction_normalize (k : Code) (a : Action) :
    k.ofAction a.normalize = k.ofAction a := by
  cases a <;> rfl

theorem Part.normalize_eq_expression {Q : Part} (h : Q.normalize = .expression e) :
    ∃ e', Q = .expression e' ∧ e'.normalize = e := by
  cases Q with
  | expression e' => exact ⟨e', rfl, Part.expression.inj h⟩
  | statements | body => cases h

/-- Parts with one normal form have the same derivations. -/
theorem Lowers.congr {P Q : Part} (h : Lowers P c k c') (hQ : Q.normalize = P.normalize) :
    Lowers Q c k c' := by
  induction h generalizing Q with
  | instruction h =>
    obtain ⟨e', rfl, he⟩ := Part.normalize_eq_expression hQ
    refine .instruction ?_
    rw [← Expr.instruction?_normalize, he, Expr.instruction?_normalize, h]
  | call hf _ ih =>
    obtain ⟨e', rfl, he⟩ := Part.normalize_eq_expression hQ
    cases e' with
    | call f' n' =>
      obtain ⟨hcallee, rfl⟩ := Expr.call.inj he
      refine .call ?_ (ih (congrArg Part.expression hcallee))
      rw [← Expr.builtin?_normalize, hcallee, Expr.builtin?_normalize, hf]
    | _ => cases he
  | ifElse _ _ _ ih₁ ih₂ ih₃ =>
    obtain ⟨e', rfl, he⟩ := Part.normalize_eq_expression hQ
    cases e' with
    | ifElse e' ss' ts' =>
      obtain ⟨hcondition, hthen, helse⟩ := Expr.ifElse.inj he
      exact .ifElse (ih₁ (congrArg Part.expression hcondition)) (ih₂ (congrArg Part.body hthen))
        (ih₃ (congrArg Part.body helse))
    | _ => cases he
  | lambda _ ih =>
    obtain ⟨e', rfl, he⟩ := Part.normalize_eq_expression hQ
    cases e' with
    | lambda name' formals' ss' =>
      obtain ⟨hname, rfl, hbody⟩ := Expr.lambda.inj he
      -- the label is drawn on the base, which is all that it tells of the name
      rw [← Label.lambdaBase_inj.mpr hname] at ih ⊢
      exact .lambda (ih (congrArg Part.body hbody))
    | _ => cases he
  | nil =>
    cases Q with
    | statements ss' =>
      rw [Stmt.normalizeAll_eq_nil (Part.statements.inj hQ)]
      exact .nil
    | expression | body => cases hQ
  | snoc _ _ ih₁ ih₂ =>
    cases Q with
    | statements ss' =>
      have hss := Part.statements.inj hQ
      rw [Stmt.normalizeAll_concat] at hss
      obtain ⟨init, a', e', l', rfl, hinit, ha, he⟩ := Stmt.normalizeAll_eq_concat hss
      rw [← Code.ofAction_normalize, ← ha, Code.ofAction_normalize]
      exact .snoc (ih₁ (congrArg Part.statements hinit)) (ih₂ (congrArg Part.expression he))
    | expression | body => cases hQ
  | body _ _ ih₁ ih₂ =>
    cases Q with
    | body ss' =>
      have hss := Part.body.inj hQ
      rw [Stmt.normalizeAll_concat] at hss
      obtain ⟨init, a', e', l', rfl, hinit, ha, he⟩ := Stmt.normalizeAll_eq_concat hss
      obtain rfl : a' = .discard := by cases a' <;> first | rfl | cases ha
      exact .body (ih₁ (congrArg Part.statements hinit)) (ih₂ (congrArg Part.expression he))
    | expression | statements => cases hQ

/-- Programs with one normal form have the same listing. -/
theorem Program.lower_congr {p q : Program} {l : Listing} (h : p.normalize = q.normalize)
    (hp : p.lower = .ok l) : q.lower = .ok l := by
  obtain ⟨k, c', hk, rfl⟩ := Program.lower_eq_ok_iff.mp hp
  refine Program.lower_eq_ok_iff.mpr ⟨k, c', hk.congr ?_, rfl⟩
  exact congrArg Part.statements (Program.mk.inj h.symm)

/-! ### Reading an instruction back -/

/-- The symbol that names an operation of the machine. -/
def Builtin.symbol? (m : Mnemonic) : Option String :=
  (Builtin.table.find? (·.2 == m)).map Prod.fst

/-- The normal form of the expression that becomes this single instruction. -/
def Instruction.expression? : Instruction → Option Expr
  | ⟨.pushInteger, some (.integer value)⟩ => some (.integer value)
  | ⟨.list, some (.count _)⟩ => some .list
  | ⟨.pushString, some (.string value)⟩ => some (.string value)
  | ⟨.record, some (.count fieldCount)⟩ => some (.record fieldCount)
  | ⟨.push, some (.symbol name)⟩ => some (.symbol name)
  | ⟨.pushSymbol, some (.symbol name)⟩ => some (.symbolLiteral name)
  | ⟨m, some (.count argumentCount)⟩ =>
    (Builtin.symbol? m).map fun s => .callBuiltin s argumentCount
  | _ => none

/-- No two symbols name one operation, and none names that of a list or of a record. -/
theorem Builtin.symbol?_of_mnemonic? {s : String} {m : Mnemonic}
    (h : Builtin.mnemonic? s = some m) : Builtin.symbol? m = some s ∧ m ≠ .list ∧ m ≠ .record := by
  have hall : ∀ x ∈ Builtin.table,
      Builtin.symbol? x.2 = some x.1 ∧ x.2 ≠ .list ∧ x.2 ≠ .record := by decide
  exact hall _ (Builtin.mem_table_of_mnemonic? h)

theorem Expr.expression?_of_instruction? {i : Instruction} (h : e.instruction? = some i) :
    i.expression? = some e.normalize := by
  cases Expr.becomes_of_instruction? h with
  | callBuiltin hm =>
    obtain ⟨hsymbol, hlist, hrecord⟩ := Builtin.symbol?_of_mnemonic? hm
    simp only [Instruction.expression?, hsymbol]
    rfl
  | _ => rfl

/-- An instruction of a single value determines the normal form of its expression. -/
theorem Expr.normalize_unique {e₁ e₂ : Expr} {i : Instruction} (h₁ : e₁.instruction? = some i)
    (h₂ : e₂.instruction? = some i) : e₁.normalize = e₂.normalize :=
  Option.some.inj
    ((Expr.expression?_of_instruction? h₁).symm.trans (Expr.expression?_of_instruction? h₂))

end StackLowering
