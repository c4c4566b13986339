import StackLowering.Lowering.Basic

/-!
# The journal of a compilation

While a program is lowered and rendered, a journal of the steps can be kept. It names each
statement and expression when it is entered and each number when it is drawn, and it ends where an
error ends the lowering.

The journal is a function of the tree and of the counters. It asks the lowering of a part only
whether the walk goes on behind that part, and from which counters.

## Main definitions

* `Event`: a line of a journal
* `Expr.journal`, `Stmt.journal`, `Stmt.journalAll`: the events of lowering a part of a tree
* `Program.journal`: the events of compiling a program
-/

namespace StackLowering

/-- How much detail a line of a journal is about. -/
inductive Level
  | info | debug | trace
deriving DecidableEq

def Level.text : Level → String
  | .info => "INFO"
  | .debug => "DEBUG"
  | .trace => "TRACE"

/-- A line of a journal. -/
inductive Event
  | lowering (statementCount : Nat)
  | statement (shape : String)
  | expression (shape : String)
  | builtin (symbol : String) (mnemonic : Mnemonic)
  | conditional (labels : BranchLabels)
  | label (name : String)
  | lambda (label : String) (formalCount : Nat)
  | lowered (entryCount labelCount : Nat)
  | rendered (entryCount byteCount : Nat)
deriving DecidableEq

namespace Event

def level : Event → Level
  | lowering _ | lowered .. => .info
  | builtin .. | conditional _ | lambda .. | rendered .. => .debug
  | statement _ | expression _ | label _ => .trace

def message : Event → String
  | lowering n => "Lowering program with " ++ toString n ++ " top-level statements"
  | statement shape => "Lowering " ++ shape ++ " statement"
  | expression shape => "Lowering " ++ shape ++ " expression"
  | builtin symbol mnemonic => "Builtin '" ++ symbol ++ "' resolved to '" ++ mnemonic.text ++ "'"
  | conditional labels => "Lowering conditional " ++ labels.thenLabel
  | label name => "Allocated label '" ++ name ++ "'"
  | lambda name n => "Lifting lambda '" ++ name ++ "' with " ++ toString n ++ " arguments"
  | lowered entries labels =>
    "Lowering complete: " ++ toString entries ++ " entries, " ++ toString labels ++ " labels"
  | rendered entries bytes =>
    "Rendered " ++ toString entries ++ " entries into " ++ toString bytes ++ " bytes"

end Event

/-- The events behind a step: those of the rest from the counters that the step leaves, or none
when the step fails. -/
def journalAfter {α : Type} (step : LowerM α) (c : LabelCounters)
    (rest : LabelCounters → List Event) : List Event :=
  match step.run c with
  | (.ok _, c) => rest c
  | (.error _, _) => []

/-- The lowering of a body, up to the check of its last instruction. -/
def lowerBody (body : List Stmt) : LowerM Code := do
  let code ← Stmt.lowerAll body
  LowerM.ofExcept (code.yieldLast "" none)

mutual

/-- The events of lowering an expression. -/
def Expr.journal : Expr → LabelCounters → List Event
  | .call callee argumentCount, c =>
    .expression (Expr.call callee argumentCount).shape ::
      match callee.builtin? with
      | some symbol =>
        match Builtin.mnemonic? symbol with
        | some m => [.builtin symbol m]
        | none => []
      | none => callee.journal c
  | .ifElse condition thenArm elseArm, c =>
    let (tag, c) := c.drawTag
    .expression (Expr.ifElse condition thenArm elseArm).shape ::
      .conditional (.ofTag tag) ::
      condition.journal c ++
      journalAfter condition.lower c fun c =>
        Stmt.journalAll thenArm c ++
        journalAfter (lowerBody thenArm) c fun c =>
          Stmt.journalAll elseArm c
  | .lambda name formals body, c =>
    let (label, c) := c.drawLabel (Label.lambdaBase name)
    .expression (Expr.lambda name formals body).shape :: .label label ::
      .lambda label formals.length :: Stmt.journalAll body c
  | e, _ => [.expression e.shape]

/-- The events of lowering a statement. -/
def Stmt.journal : Stmt → LabelCounters → List Event
  | .mk action expression _, c => .statement action.shape :: expression.journal c

/-- The events of lowering statements one after the other. -/
def Stmt.journalAll : List Stmt → LabelCounters → List Event
  | [], _ => []
  | s :: rest, c => s.journal c ++ journalAfter s.lower c (Stmt.journalAll rest)

end

/-- The events of lowering and rendering a program. -/
def Program.journal (p : Program) : List Event :=
  .lowering p.statements.length :: Stmt.journalAll p.statements LabelCounters.empty ++
    match p.lower with
    | .error _ => []
    | .ok listing =>
      [.lowered listing.length listing.labels.length,
        .rendered listing.length listing.render.utf8ByteSize]

end StackLowering
