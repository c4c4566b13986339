/-!
# JSON documents and their text

The documents that are written: integers are the only numbers, and an object keeps its members in
order. The text has no blanks, and in a string only what has to be escaped is escaped.

## Main definitions

* `Document`: documents
* `Document.compress`: their text
-/

namespace StackLowering.Json

/-- A document. -/
inductive Document
  | null
  | integer (value : Int)
  | string (value : String)
  | array (items : List Document)
  | object (members : List (String × Document))

namespace Document

/-- A number that is not negative. -/
def ofNat (n : Nat) : Document := .integer n

/-- A record with a tag: the tag is the first member. -/
def tagged (tag : String) (fields : List (String × Document)) : Document :=
  .object (("type", .string tag) :: fields)

/-- The digits of a character below 256 in base sixteen. -/
def hexPair (n : Nat) : List Char := [Nat.digitChar (n / 16), Nat.digitChar (n % 16)]

/-- A character inside a string. -/
def escapeChar (c : Char) : List Char :=
  match c with
  | '"' => ['\\', '"']
  | '\\' => ['\\', '\\']
  | '\x08' => ['\\', 'b']
  | '\t' => ['\\', 't']
  | '\n' => ['\\', 'n']
  | '\x0c' => ['\\', 'f']
  | '\r' => ['\\', 'r']
  | c => if c.toNat < 0x20 then ['\\', 'u', '0', '0'] ++ hexPair c.toNat else [c]

/-- A string between quotes. -/
def quote (s : String) : List Char := '"' :: s.toList.flatMap escapeChar ++ ['"']

mutual

/-- The characters of a document. -/
def chars : Document → List Char
  | null => ['n', 'u', 'l', 'l']
  | integer n => (toString n).toList
  | string s => quote s
  | array items => '[' :: charsOfItems items ++ [']']
  | object members => '\x7b' :: charsOfMembers members ++ ['\x7d']

/-- The items of an array, with commas between them. -/
def charsOfItems : List Document → List Char
  | [] => []
  | [d] => d.chars
  | d :: rest => d.chars ++ ',' :: charsOfItems rest

/-- The members of an object, with commas between them. -/
def charsOfMembers : List (String × Document) → List Char
  | [] => []
  | [(key, d)] => quote key ++ ':' :: d.chars
  | (key, d) :: rest => quote key ++ ':' :: d.chars ++ ',' :: charsOfMembers rest

end

/-- The text of a document. -/
def compress (d : Document) : String := String.ofList d.chars

end Document

end StackLowering.Json
