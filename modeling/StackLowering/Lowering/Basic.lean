import StackLowering.Builtin
import StackLowering.Code.Render
import StackLowering.Lowering.Step
import StackLowering.Tree.Basic

/-!
# Lowering a tree to stack code

An expression becomes code that leaves its value on the stack. A conditional becomes jumps inside
the code of the expression that holds it. A function literal becomes a block of its own, lifted out
of the code, and an instruction that makes a closure of that block; blocks come out before the code
that refers to them, and a block inside a block comes out first.

The arms of a conditional and the body of a function leave the value of their last statement on the
stack, so the instruction that would discard it is taken off. A body that does not end in such an
instruction is refused.

Numbers of labels are drawn while the tree is walked, and a number that was drawn stays drawn when
the walk fails later on.

## Main definitions

* `withoutFinalDrop`: takes the last discarding instruction off
* `Expr.lower`, `Stmt.lower`, `Stmt.lowerAll`: the code of a part of a tree
* `Program.lower`: the listing of a program
-/

namespace StackLowering

/-! ## Parts -/

/-- The operation that a symbol names; the location of an unknown one is found further out. -/
def resolveBuiltin (symbol : String) : Except LocatedFault Mnemonic :=
  match Builtin.mnemonic? symbol with
  | some m => .ok m
  | none => .error ⟨.unknownBuiltin symbol, none⟩

/-- The entries without the discarding instruction at their end. -/
def withoutFinalDrop (entries : List Entry) (context : String) (location : Option Location) :
    Except LocatedFault (List Entry) :=
  match entries.getLast? with
  | none => .error ⟨.malformedBody context "an empty block", location⟩
  | some last =>
    if last.isDrop then .ok entries.dropLast
    else .error ⟨.malformedBody context last.describe, location⟩

/-- The code of a body that leaves the value of its last statement on the stack. -/
def Code.yieldLast (c : Code) (context : String) (location : Option Location) :
    Except LocatedFault Code := do
  return { c with own := ← withoutFinalDrop c.own context location }

/-- The code of a conditional. -/
def Code.ofArms (labels : BranchLabels) (condition thenArm elseArm : Code) : Code where
  lifted := condition.lifted ++ thenArm.lifted ++ elseArm.lifted
  own := condition.own ++
    [.op .jumpIfFalse (some (.label labels.elseLabel)),
      .op .jump (some (.label labels.thenLabel)),
      .label labels.thenLabel] ++
    thenArm.own ++
    [.op .jump (some (.label labels.endLabel)),
      .label labels.elseLabel] ++
    elseArm.own ++
    [.label labels.endLabel]

/-- The instructions that take the arguments of a call off the stack, the last one first. -/
def popFormals (formals : List String) : List Entry :=
  formals.reverse.map fun name => .op .pop (some (.symbol name))

/-- The code of a function literal: its block is lifted out behind the blocks of its body. -/
def Code.ofLambda (label : String) (formals : List String) (body : Code) : Code where
  lifted := body.lifted ++ [.label label] ++ popFormals formals ++ body.own ++ [.op .ret none]
  own := [.op .close (some (.label label))]

/-- The code of a statement, given that of its expression. -/
def Code.ofAction (c : Code) : Action → Code
  | .discard => c.push .drop none
  | .push => c
  | .assign target => c.push .pop (some (.symbol target))
  | .declare name => c.push .pop (some (.symbol name))

namespace Context

/-- How a diagnostic names the first arm of a conditional. -/
def thenArm (labels : BranchLabels) : String := "if-arm of " ++ labels.thenLabel

/-- How a diagnostic names the second arm of a conditional; it is the first label that names the
conditional in both cases. -/
def elseArm (labels : BranchLabels) : String := "else-arm of " ++ labels.thenLabel

/-- How a diagnostic names the body of a function. -/
def body (label : String) : String := "body of lambda '" ++ label ++ "'"

/-- How a diagnostic names the place where an operation is used as a value. -/
def value (symbol : String) : String :=
  "value position (builtin '" ++ symbol ++ "' can only be called)"

end Context

/-! ## Expressions and statements -/

mutual

/-- The code of an expression. -/
def Expr.lower : Expr → LowerM Code
  | .builtin symbol => .fail (.unhandledShape "Builtin" (Context.value symbol))
  | .call callee argumentCount =>
    match callee.builtin? with
    | some symbol => do
      let mnemonic ← LowerM.ofExcept (resolveBuiltin symbol)
      return .single mnemonic (some (.count argumentCount))
    | none => do
      let code ← callee.lower
      return code.push .call (some (.count argumentCount))
  | .ifElse condition thenArm elseArm => do
    let tag ← LowerM.drawTag
    let labels := BranchLabels.ofTag tag
    let condition ← condition.lower
    let thenCode ← Stmt.lowerAll thenArm
    let thenCode ← LowerM.ofExcept
      (thenCode.yieldLast (Context.thenArm labels) (finalLocation thenArm))
    let elseCode ← Stmt.lowerAll elseArm
    let elseCode ← LowerM.ofExcept
      (elseCode.yieldLast (Context.elseArm labels) (finalLocation elseArm))
    return .ofArms labels condition thenCode elseCode
  | .integer value => return .single .pushInteger (some (.integer value))
  | .lambda name formals body => do
    let label ← LowerM.drawLabel (Label.lambdaBase name)
    let code ← Stmt.lowerAll body
    let code ← LowerM.ofExcept (code.yieldLast (Context.body label) (finalLocation body))
    return .ofLambda label formals code
  | .list => return .single .list (some (.count 2))
  | .string value => return .single .pushString (some (.string value))
  | .record fieldCount => return .single .record (some (.count fieldCount))
  | .symbol name => return .single .push (some (.symbol name))
  | .symbolLiteral name => return .single .pushSymbol (some (.symbol name))
  | .variable name => return .single .push (some (.symbol name))

/-- The code of a statement. -/
def Stmt.lower : Stmt → LowerM Code
  | .mk action expression location =>
    LowerM.locate (do
      let code ← expression.lower
      return code.ofAction action) location

/-- The code of statements that run one after the other. -/
def Stmt.lowerAll : List Stmt → LowerM Code
  | [] => return .empty
  | s :: rest => do
    let code ← s.lower
    let others ← Stmt.lowerAll rest
    return code ++ others

end

/-! ## Programs -/

/-- The listing of a program: the lifted blocks, then the main block. -/
def Code.toListing (c : Code) : Listing :=
  ⟨c.lifted ++ [.label Label.main] ++ c.own ++ [.op .halt none]⟩

/-- The listing of a program, with the numbers of its labels counted from zero. -/
def Program.lower (p : Program) : Except LocatedFault Listing :=
  match ((Stmt.lowerAll p.statements).run LabelCounters.empty).1 with
  | .ok code => .ok code.toListing
  | .error e => .error e

end StackLowering
