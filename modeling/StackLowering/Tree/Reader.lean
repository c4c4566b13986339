import StackLowering.Json.Record
import StackLowering.Tree.Basic

/-!
# Reading trees from JSON texts

A program, a statement and a location are records; the form of a statement and an expression are
tagged records. The records that stand outside of every tagged one are read while their text is
read, and everything inside a tagged record is read from memory.

No more than 127 brackets may be open at once. Only a value that a record read from its text
ignores may hold more of them.

## Main definitions

* `Location.decode`, `Expr.decode`, `Stmt.decode`, `Program.decode`: from fragments
* `Location.ofText`, `Expr.ofText`, `Stmt.ofText`, `Program.ofText`: from texts
-/

namespace StackLowering

open Json (Decoder Fields Fragment Mode ReadError RecordForm TaggedForm)

/-- The brackets that may be open at once. -/
def maxNesting : Nat := 127

/-! ## Records -/

namespace Location

def form : RecordForm := ⟨"struct SourceLocation", ["filename", "line", "column"]⟩

/-- A location, with so many brackets that may be opened. -/
def decode (mode : Mode) : Nat → Decoder Location
  | 0 => .tooDeep form.title
  | _ + 1 => .record mode form fun r =>
    Location.mk <$> r.get "filename" .string <*> r.get "line" .word32 <*> r.get "column" .word32

end Location

def Stmt.form : RecordForm := ⟨"struct Statement", ["kind", "location"]⟩

def Program.form : RecordForm := ⟨"struct CpsProgram", ["statements"]⟩

/-! ## Variants -/

/-- The statement forms, given how their expression is read. -/
def Action.variants (expression : Decoder Expr) : TaggedForm (Action × Expr) where
  typeName := "StatementKind"
  variants := [
    ⟨"Assignment", ["target", "expression"], fun r =>
      (fun target e => (.assign target, e)) <$> r.get "target" .string <*>
        r.get "expression" expression⟩,
    ⟨"ExpressionStatement", ["expression"], fun r =>
      (fun e => (.discard, e)) <$> r.get "expression" expression⟩,
    ⟨"PushStatement", ["expression"], fun r =>
      (fun e => (.push, e)) <$> r.get "expression" expression⟩,
    ⟨"VariableInitialization", ["variable", "expression"], fun r =>
      (fun name e => (.declare name, e)) <$> r.get "variable" .string <*>
        r.get "expression" expression⟩]

/-- The expression forms, given how the expressions, the statement lists and the lists of names
inside them are read. -/
def Expr.variants (expression : Decoder Expr) (statements : Decoder (List Stmt))
    (names : Decoder (List String)) : TaggedForm Expr where
  typeName := "Expression"
  variants := [
    ⟨"Builtin", ["symbol"], fun r => Expr.builtin <$> r.get "symbol" .string⟩,
    ⟨"FunctionCall", ["function_expression", "argument_count"], fun r =>
      Expr.call <$> r.get "function_expression" expression <*> r.get "argument_count" .word64⟩,
    ⟨"IfElse", ["condition_expression", "if_statement_list", "else_statement_list"], fun r =>
      Expr.ifElse <$> r.get "condition_expression" expression <*>
        r.get "if_statement_list" statements <*> r.get "else_statement_list" statements⟩,
    ⟨"IntegerLiteral", ["integer"], fun r => Expr.integer <$> r.get "integer" .int64⟩,
    ⟨"Lambda", ["name", "argument_name_list", "statement_list"], fun r =>
      Expr.lambda <$> r.getOption "name" .string <*> r.get "argument_name_list" names <*>
        r.get "statement_list" statements⟩,
    ⟨"ListConstruct", [], fun _ => pure Expr.list⟩,
    ⟨"StringLiteral", ["string"], fun r => Expr.string <$> r.get "string" .string⟩,
    ⟨"StructureLiteral", ["field_count"], fun r => Expr.record <$> r.get "field_count" .word64⟩,
    ⟨"Symbol", ["symbol"], fun r => Expr.symbol <$> r.get "symbol" .string⟩,
    ⟨"SymbolLiteral", ["symbol"], fun r => Expr.symbolLiteral <$> r.get "symbol" .string⟩,
    ⟨"Variable", ["variable"], fun r => Expr.variable <$> r.get "variable" .string⟩]

/-! ## Trees -/

mutual

/-- An expression, with so many brackets that may be opened. -/
def Expr.decode (mode : Mode) : Nat → Decoder Expr
  | 0 => .tooDeep (Expr.variants (.tooDeep "") (.tooDeep "") (.tooDeep "")).title
  | nesting + 1 => .tagged mode nesting
    (Expr.variants (Expr.decode .buffered nesting) (Stmt.decodeAll .buffered nesting)
      (.strings nesting))

/-- The form of a statement and its expression. -/
def Stmt.decodeKind (mode : Mode) : Nat → Decoder (Action × Expr)
  | 0 => .tooDeep (Action.variants (.tooDeep "")).title
  | nesting + 1 => .tagged mode nesting (Action.variants (Expr.decode .buffered nesting))

/-- A statement. -/
def Stmt.decode (mode : Mode) : Nat → Decoder Stmt
  | 0 => .tooDeep Stmt.form.title
  | nesting + 1 => .record mode Stmt.form fun r =>
    (fun (action, e) l => Stmt.mk action e l) <$> r.get "kind" (Stmt.decodeKind mode nesting) <*>
      r.getOption "location" (Location.decode mode nesting)

/-- A list of statements. -/
def Stmt.decodeAll (mode : Mode) : Nat → Decoder (List Stmt)
  | 0 => .tooDeep Decoder.listTitle
  | nesting + 1 => .list (Stmt.decode mode nesting)

end

/-- A program. -/
def Program.decode (mode : Mode) : Nat → Decoder Program
  | 0 => .tooDeep Program.form.title
  | nesting + 1 => .record mode Program.form fun r =>
    Program.mk <$> r.get "statements" (Stmt.decodeAll mode nesting)

/-! ## Texts -/

/-- Reads a value from a text that holds nothing else. -/
def readText {α : Type} (decoder : Decoder α) (text : String) : Except ReadError α := do
  let (f, atEnd) := Fragment.ofText text
  let value ← decoder f
  if atEnd then return value else throw .malformed

def Location.ofText : String → Except ReadError Location :=
  readText (Location.decode .streamed maxNesting)

def Expr.ofText : String → Except ReadError Expr :=
  readText (Expr.decode .streamed maxNesting)

def Stmt.ofText : String → Except ReadError Stmt :=
  readText (Stmt.decode .streamed maxNesting)

/-- Reads a list of statements. -/
def Stmt.listOfText : String → Except ReadError (List Stmt) :=
  readText (Stmt.decodeAll .streamed maxNesting)

def Program.ofText : String → Except ReadError Program :=
  readText (Program.decode .streamed maxNesting)

end StackLowering
