import StackLowering.Json.Document
import StackLowering.Tree.Basic

/-!
# Trees as JSON documents

The canonical document of a tree has the fields of each node in the order of their declaration, the
tag of a variant first. A location that is absent is left out, and a function without a name has
the name `null`.
-/

namespace StackLowering

open Json (Document)

def Location.toDocument (l : Location) : Document :=
  .object [("filename", .string l.filename), ("line", Document.ofNat l.line.toNat),
    ("column", Document.ofNat l.column.toNat)]

/-- The fields of a statement form in front of its expression. -/
def Action.toFields : Action → List (String × Document)
  | .assign target => [("target", .string target)]
  | .discard => []
  | .push => []
  | .declare name => [("variable", .string name)]

mutual

def Expr.toDocument : Expr → Document
  | .builtin symbol => Document.tagged "Builtin" [("symbol", .string symbol)]
  | .call callee argumentCount =>
    Document.tagged "FunctionCall" [("function_expression", callee.toDocument),
      ("argument_count", Document.ofNat argumentCount.toNat)]
  | .ifElse condition thenArm elseArm =>
    Document.tagged "IfElse" [("condition_expression", condition.toDocument),
      ("if_statement_list", .array (Stmt.toDocuments thenArm)),
      ("else_statement_list", .array (Stmt.toDocuments elseArm))]
  | .integer value => Document.tagged "IntegerLiteral" [("integer", .integer value.toInt)]
  | .lambda name formals body =>
    Document.tagged "Lambda" [("name", match name with
        | some name => .string name
        | none => .null),
      ("argument_name_list", .array (formals.map .string)),
      ("statement_list", .array (Stmt.toDocuments body))]
  | .list => Document.tagged "ListConstruct" []
  | .string value => Document.tagged "StringLiteral" [("string", .string value)]
  | .record fieldCount =>
    Document.tagged "StructureLiteral" [("field_count", Document.ofNat fieldCount.toNat)]
  | .symbol name => Document.tagged "Symbol" [("symbol", .string name)]
  | .symbolLiteral name => Document.tagged "SymbolLiteral" [("symbol", .string name)]
  | .variable name => Document.tagged "Variable" [("variable", .string name)]

def Stmt.toDocument : Stmt → Document
  | .mk action expression location =>
    let kind := Document.tagged action.shape
      (action.toFields ++ [("expression", expression.toDocument)])
    .object (("kind", kind) ::
      match location with
      | some l => [("location", l.toDocument)]
      | none => [])

def Stmt.toDocuments : List Stmt → List Document
  | [] => []
  | s :: rest => s.toDocument :: Stmt.toDocuments rest

end

def Program.toDocument (p : Program) : Document :=
  .object [("statements", .array (Stmt.toDocuments p.statements))]

end StackLowering
