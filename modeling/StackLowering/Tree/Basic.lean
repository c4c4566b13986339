import StackLowering.Location

/-!
# The tree that is compiled

A program is a list of statements. Each statement evaluates one expression and says what becomes
of the value: it is discarded, left on the stack, or given a name. Expressions hold statements in
turn, in the arms of a conditional and in the body of a function literal.

The two types refer to each other, so functions on trees come in threes: on an expression, on a
statement, and on a list of statements.
-/

namespace StackLowering

/-- What a statement does with the value of its expression. -/
inductive Action
  /-- Gives the value to a name that exists. -/
  | assign (target : String)
  /-- Discards the value. -/
  | discard
  /-- Leaves the value on the stack. -/
  | push
  /-- Gives the value to a new name. -/
  | declare (name : String)
deriving DecidableEq

mutual

/-- An expression. -/
inductive Expr
  /-- An operation of the machine, named by its symbol; it can only be called. -/
  | builtin (symbol : String)
  /-- A call with this many arguments, which are on the stack already. -/
  | call (callee : Expr) (argumentCount : UInt64)
  /-- A choice between two arms. -/
  | ifElse (condition : Expr) (thenArm elseArm : List Stmt)
  | integer (value : Int64)
  /-- A function literal; the name serves its label only. -/
  | lambda (name : Option String) (formals : List String) (body : List Stmt)
  /-- A list cell, made of the two values on top of the stack. -/
  | list
  | string (value : String)
  /-- A record with this many fields, which are on the stack already. -/
  | record (fieldCount : UInt64)
  /-- The value of a name. -/
  | symbol (name : String)
  /-- A name as a value of its own. -/
  | symbolLiteral (name : String)
  /-- The value of a name that is known to be a variable. -/
  | variable (name : String)

/-- A statement: an expression, what becomes of its value, and where it came from. -/
inductive Stmt
  | mk (action : Action) (expression : Expr) (location : Option Location)

end

instance : Inhabited Expr := ⟨.list⟩

instance : Inhabited Stmt := ⟨.mk .discard .list none⟩

/-- A program: its statements, in the order in which they run. -/
structure Program where
  statements : List Stmt

namespace Action

/-- The name of the statement form. -/
def shape : Action → String
  | .assign _ => "Assignment"
  | .discard => "ExpressionStatement"
  | .push => "PushStatement"
  | .declare _ => "VariableInitialization"

end Action

namespace Expr

/-- The name of the expression form. -/
def shape : Expr → String
  | .builtin _ => "Builtin"
  | .call .. => "FunctionCall"
  | .ifElse .. => "IfElse"
  | .integer _ => "IntegerLiteral"
  | .lambda .. => "Lambda"
  | .list => "ListConstruct"
  | .string _ => "StringLiteral"
  | .record _ => "StructureLiteral"
  | .symbol _ => "Symbol"
  | .symbolLiteral _ => "SymbolLiteral"
  | .variable _ => "Variable"

/-- The symbol of an expression that is an operation of the machine. -/
def builtin? : Expr → Option String
  | .builtin s => some s
  | _ => none

/-- A call of an operation of the machine. -/
def callBuiltin (symbol : String) (argumentCount : UInt64) : Expr :=
  .call (.builtin symbol) argumentCount

@[simp] theorem builtin?_eq_some {e : Expr} {s : String} :
    e.builtin? = some s ↔ e = .builtin s := by
  cases e <;> simp [builtin?]

end Expr

namespace Stmt

def action : Stmt → Action
  | .mk a _ _ => a

def expression : Stmt → Expr
  | .mk _ e _ => e

def location : Stmt → Option Location
  | .mk _ _ l => l

/-- The name of the statement form. -/
def shape (s : Stmt) : String := s.action.shape

/-- The same statement, placed at a location. -/
def atLocation (s : Stmt) (l : Location) : Stmt := .mk s.action s.expression (some l)

@[simp] theorem action_mk (a : Action) (e : Expr) (l : Option Location) :
    (mk a e l).action = a := rfl
@[simp] theorem expression_mk (a : Action) (e : Expr) (l : Option Location) :
    (mk a e l).expression = e := rfl
@[simp] theorem location_mk (a : Action) (e : Expr) (l : Option Location) :
    (mk a e l).location = l := rfl

end Stmt

/-- The location of the last statement, if there is one and it has one. -/
def finalLocation (body : List Stmt) : Option Location :=
  body.getLast?.bind Stmt.location

end StackLowering
