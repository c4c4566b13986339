import StackLowering.Json.Token

/-!
# What a text holds, up to its first error

A JSON text is read from the front, and what has been read counts even when an error follows: the
reader of a tree may find a fault before it comes to the error. So a text is taken to a fragment,
the part of a value that stands before the first error of syntax. A bracket that was not closed is
marked as such, and nothing stands behind it.

## Main definitions

* `Fragment`: the part of a value before the first error
* `Fragment.ofTokens`: the fragment at the front of a list of tokens, and the tokens behind it
* `Fragment.ofText`: the fragment of a text, and whether nothing follows it
-/

namespace StackLowering.Json

/-- The part of a value that stands before the first error of syntax. -/
inductive Fragment
  /-- No value starts here. -/
  | broken
  | null
  | bool (value : Bool)
  /-- A number, with its value if it is in range. -/
  | number (value : Option Number)
  /-- A string, with its value if it holds no half of a surrogate pair. -/
  | string (value : Option String)
  | array (items : List Fragment) (closed : Bool)
  | object (members : List (Option String × Fragment)) (closed : Bool)

namespace Fragment

/-- A bracket that is open, with what was read behind it, the last first. -/
inductive Frame
  | array (before : List Fragment)
  | object (before : List (Option String × Fragment))
  /-- An object behind a key whose value is still to come. -/
  | member (before : List (Option String × Fragment)) (key : Option String)

/-- What may come next inside the innermost bracket. -/
inductive Expect
  | value
  | valueOrClose
  | key
  | keyOrClose
  | colon
  | commaOrClose
deriving DecidableEq

namespace Expect

/-- Whether a value may come next. -/
def allowsValue : Expect → Bool
  | value | valueOrClose => true
  | _ => false

/-- Whether a key may come next. -/
def allowsKey : Expect → Bool
  | key | keyOrClose => true
  | _ => false

/-- Whether the innermost bracket may be closed next. -/
def allowsClose : Expect → Bool
  | valueOrClose | keyOrClose | commaOrClose => true
  | _ => false

end Expect

/-- The fragment when an error follows a part of a value inside the frames. -/
def unwind : List Frame → Fragment → Fragment
  | [], f => f
  | .array before :: st, f => unwind st (.array (f :: before).reverse false)
  | .object before :: st, _ => unwind st (.object before.reverse false)
  | .member before key :: st, f => unwind st (.object ((key, f) :: before).reverse false)

/-- The fragment when an error follows the innermost bracket of the frames. -/
def cut : List Frame → Fragment
  | [] => .broken
  | .array before :: st => unwind st (.array before.reverse false)
  | .object before :: st => unwind st (.object before.reverse false)
  | .member before key :: st => unwind st (.object ((key, .broken) :: before).reverse false)

/-- Where reading stands after a token. -/
inductive Progress
  /-- A bracket is open. -/
  | inside (expect : Expect) (frames : List Frame)
  /-- A value is complete, and no bracket is open. -/
  | complete (f : Fragment)
  /-- The token cannot stand here. -/
  | stuck

/-- A value is complete inside the frames. -/
def Progress.ofValue (f : Fragment) : List Frame → Progress
  | [] => .complete f
  | .array before :: outer => .inside .commaOrClose (.array (f :: before) :: outer)
  | .member before key :: outer => .inside .commaOrClose (.object ((key, f) :: before) :: outer)
  | .object _ :: _ => .stuck

/-- Reads one token inside the frames. -/
def step (e : Expect) (frames : List Frame) (t : Token) : Progress :=
  let value (f : Fragment) : Progress := if e.allowsValue then .ofValue f frames else .stuck
  match t, frames with
  | .null, _ => value .null
  | .bool b, _ => value (.bool b)
  | .number n, _ => value (.number n)
  | .string s, .object before :: outer =>
    if e.allowsKey then .inside .colon (.member before s :: outer) else .stuck
  | .string s, _ => value (.string s)
  | .openArray, _ =>
    if e.allowsValue then .inside .valueOrClose (.array [] :: frames) else .stuck
  | .openObject, _ =>
    if e.allowsValue then .inside .keyOrClose (.object [] :: frames) else .stuck
  | .closeArray, .array before :: outer =>
    if e.allowsClose then .ofValue (.array before.reverse true) outer else .stuck
  | .closeObject, .object before :: outer =>
    if e.allowsClose then .ofValue (.object before.reverse true) outer else .stuck
  | .comma, .array _ :: _ => if e = .commaOrClose then .inside .value frames else .stuck
  | .comma, .object _ :: _ => if e = .commaOrClose then .inside .key frames else .stuck
  | .colon, .member .. :: _ => if e = .colon then .inside .value frames else .stuck
  | _, _ => .stuck

/-- Reads tokens inside the frames until a value is complete or an error is met; gives the fragment
and the tokens behind it. -/
def run (e : Expect) (frames : List Frame) : List Token → Fragment × List Token
  | [] => (cut frames, [])
  | t :: ts =>
    match step e frames t with
    | .inside e frames => run e frames ts
    | .complete f => (f, ts)
    | .stuck => (cut frames, t :: ts)

/-- The fragment at the front of a list of tokens, and the tokens behind it. -/
def ofTokens (ts : List Token) : Fragment × List Token := run .value [] ts

/-- The fragment of a text, and whether nothing but blanks follows it. -/
def ofText (s : String) : Fragment × Bool :=
  let (f, rest) := ofTokens (tokens s.toList)
  (f, rest.isEmpty)

end Fragment

end StackLowering.Json
