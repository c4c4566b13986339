import StackLowering.Binary64.Shortest
import StackLowering.Json.Fragment
import StackLowering.Text.Quoted

/-!
# Why a text is refused

A text is either no JSON at all, or JSON that does not describe what is read from it. An error of
the second kind says what was found and what was expected in its place.

## Main definitions

* `Unexpected`: what was found
* `ReadError`: why a text is refused
* `ReadError.message`: the text of a diagnostic
-/

namespace StackLowering.Json

/-- What a text holds in the place of something else. -/
inductive Unexpected
  | null
  | bool (value : Bool)
  | integer (value : Int)
  | float (value : Binary64)
  | string (value : String)
  | sequence
  | map
deriving DecidableEq

/-- What was found, as a diagnostic names it. -/
def Unexpected.text : Unexpected → String
  | null => "null"
  | bool b => "boolean `" ++ (if b then "true" else "false") ++ "`"
  | integer n => "integer `" ++ toString n ++ "`"
  | float x => "floating point `" ++ x.text ++ "`"
  | string s => "string " ++ Text.quoted s
  | sequence => "sequence"
  | map => "map"

/-- Why a text is refused. -/
inductive ReadError
  /-- The text is no JSON, or holds a value that cannot be kept. -/
  | malformed
  | missingField (name : String)
  | duplicateField (name : String)
  | unknownVariant (tag : String) (variants : List String)
  | invalidType (found : Unexpected) (expected : String)
  | invalidValue (found : Unexpected) (expected : String)
  | invalidLength (length : Nat) (expected : String)
deriving DecidableEq

/-- The text of a diagnostic. -/
def ReadError.message : ReadError → String
  | malformed => "malformed JSON"
  | missingField name => "missing field `" ++ name ++ "`"
  | duplicateField name => "duplicate field `" ++ name ++ "`"
  | unknownVariant tag variants =>
    "unknown variant `" ++ tag ++ "`, expected one of " ++
      ", ".intercalate (variants.map fun name => "`" ++ name ++ "`")
  | invalidType found expected => "invalid type: " ++ found.text ++ ", expected " ++ expected
  | invalidValue found expected => "invalid value: " ++ found.text ++ ", expected " ++ expected
  | invalidLength n expected => "invalid length " ++ toString n ++ ", expected " ++ expected

namespace Fragment

/-- What a fragment is, if it has a value; of an array or object only the bracket is looked at. -/
def unexpected? : Fragment → Option Unexpected
  | broken => none
  | null => some .null
  | bool b => some (.bool b)
  | number n => n.map fun
    | .integer n => .integer n
    | .float x => .float x
  | string s => s.map .string
  | array .. => some .sequence
  | object .. => some .map

/-- The error of a fragment that stands where something else is expected. -/
def mismatch (expected : String) (f : Fragment) : ReadError :=
  match f.unexpected? with
  | some found => .invalidType found expected
  | none => .malformed

/-- The error of a fragment that stands where a bracket is expected but none may be opened. -/
def tooDeep (expected : String) : Fragment → ReadError
  | array .. | object .. => .malformed
  | f => f.mismatch expected

/-- Whether a fragment is a whole value with no more than so many brackets open at once, in which
every string and every number has a value. -/
def isComplete : Nat → Fragment → Bool
  | _, null => true
  | _, bool _ => true
  | _, number n => n.isSome
  | _, string s => s.isSome
  | nesting + 1, array items closed => closed && items.all (isComplete nesting)
  | nesting + 1, object members closed =>
    closed && members.all fun (key, f) => key.isSome && isComplete nesting f
  | _, _ => false

end Fragment

end StackLowering.Json
