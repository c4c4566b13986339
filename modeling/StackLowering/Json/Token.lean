import StackLowering.Json.Number

/-!
# The tokens of a JSON text

A text is cut into tokens up to the first place where it is none; the token `invalid` stands for
that place and is the last one.

A string may hold an escape that is half of a surrogate pair without the other half. Such a string
is a token, since the grammar allows it, but it has no value. The same holds for a number that is
out of range. Whether either matters depends on whether anyone asks for the value.

## Main definitions

* `Token`: tokens
* `tokens`: the tokens of a text
-/

namespace StackLowering.Json

/-- A token. -/
inductive Token
  | openArray | closeArray | openObject | closeObject | comma | colon
  | null
  | bool (value : Bool)
  | number (value : Option Number)
  | string (value : Option String)
  | invalid
deriving DecidableEq

/-! ## Strings -/

/-- A part of the content of a string: a character, or a UTF-16 code unit given by its number. -/
inductive StringPart
  | char (c : Char)
  | unit (code : Nat)
deriving DecidableEq

/-- The value of a digit in base sixteen. -/
def hexValue (c : Char) : Option Nat :=
  if '0' ≤ c ∧ c ≤ '9' then some (c.toNat - '0'.toNat)
  else if 'a' ≤ c ∧ c ≤ 'f' then some (c.toNat - 'a'.toNat + 10)
  else if 'A' ≤ c ∧ c ≤ 'F' then some (c.toNat - 'A'.toNat + 10)
  else none

/-- The code unit with these four digits. -/
def hexUnit (a b c d : Char) : Option Nat := do
  return (((← hexValue a) * 16 + (← hexValue b)) * 16 + (← hexValue c)) * 16 + (← hexValue d)

/-- The character that an escape of one letter stands for. -/
def escapedChar : Char → Option Char
  | '"' => some '"'
  | '\\' => some '\\'
  | '/' => some '/'
  | 'b' => some '\x08'
  | 'f' => some '\x0c'
  | 'n' => some '\n'
  | 'r' => some '\r'
  | 't' => some '\t'
  | _ => none

/-- Takes the content of a string and the quote behind it off the front of a text. -/
def readString : List Char → Option (List StringPart × List Char)
  | [] => none
  | '"' :: r => some ([], r)
  | '\\' :: 'u' :: a :: b :: c :: d :: r =>
    match hexUnit a b c d, readString r with
    | some code, some (parts, r) => some (.unit code :: parts, r)
    | _, _ => none
  | '\\' :: c :: r =>
    match escapedChar c, readString r with
    | some c, some (parts, r) => some (.char c :: parts, r)
    | _, _ => none
  | c :: r =>
    if c.toNat < 0x20 then none
    else match readString r with
      | some (parts, r) => some (.char c :: parts, r)
      | none => none

/-- Whether a code unit is the first half of a surrogate pair. -/
def isLeading (code : Nat) : Bool := 0xd800 ≤ code && code < 0xdc00

/-- Whether a code unit is the second half of a surrogate pair. -/
def isTrailing (code : Nat) : Bool := 0xdc00 ≤ code && code < 0xe000

/-- The character of a surrogate pair. -/
def pairChar (leading trailing : Nat) : Char :=
  Char.ofNat (0x10000 + (leading - 0xd800) * 0x400 + (trailing - 0xdc00))

/-- The characters of the content of a string; half of a pair alone has no character. -/
def joinParts : List StringPart → Option (List Char)
  | [] => some []
  | .char c :: r => (joinParts r).map (c :: ·)
  | .unit a :: .unit b :: r =>
    if isLeading a then
      if isTrailing b then (joinParts r).map (pairChar a b :: ·) else none
    else if isTrailing a then none
    else (joinParts (.unit b :: r)).map (Char.ofNat a :: ·)
  | .unit a :: r =>
    if isLeading a || isTrailing a then none else (joinParts r).map (Char.ofNat a :: ·)

/-! ## Cutting a text -/

/-- The blank characters between tokens. -/
def isSpace (c : Char) : Bool := c == ' ' || c == '\t' || c == '\n' || c == '\r'

/-- Takes a token off the front of a text that does not start with a blank. -/
def Token.read : List Char → Option (Token × List Char)
  | '[' :: r => some (.openArray, r)
  | ']' :: r => some (.closeArray, r)
  | '\x7b' :: r => some (.openObject, r)
  | '\x7d' :: r => some (.closeObject, r)
  | ',' :: r => some (.comma, r)
  | ':' :: r => some (.colon, r)
  | '"' :: r => (readString r).map fun (parts, r) => (.string ((joinParts parts).map .ofList), r)
  | 'n' :: 'u' :: 'l' :: 'l' :: r => some (.null, r)
  | 't' :: 'r' :: 'u' :: 'e' :: r => some (.bool true, r)
  | 'f' :: 'a' :: 'l' :: 's' :: 'e' :: r => some (.bool false, r)
  | cs => (NumberLiteral.read cs).map fun (n, r) => (.number n.value, r)

theorem length_readString_lt {cs r : List Char} {parts : List StringPart}
    (h : readString cs = some (parts, r)) : r.length < cs.length := by
  fun_induction readString cs generalizing parts r <;>
    (try simp only [List.length_cons]) <;> grind

/-- A token that is read is taken off the text. -/
theorem Token.length_read_lt {cs r : List Char} {t : Token} (h : Token.read cs = some (t, r)) :
    r.length < cs.length := by
  unfold Token.read at h
  split at h
  case h_7 =>
    obtain ⟨⟨parts, r'⟩, hp, he⟩ := Option.map_eq_some_iff.1 h
    have := length_readString_lt hp
    simp_all
    omega
  case h_11 =>
    obtain ⟨⟨n, r'⟩, hn, he⟩ := Option.map_eq_some_iff.1 h
    have := NumberLiteral.length_read_lt hn
    simp_all
  all_goals
    obtain ⟨rfl, rfl⟩ := by simpa using h
    simp only [List.length_cons]
    omega

/-- The tokens of a text. -/
def tokens : List Char → List Token
  | [] => []
  | c :: r =>
    if isSpace c then tokens r
    else match _h : Token.read (c :: r) with
      | some (t, rest) => t :: tokens rest
      | none => [.invalid]
termination_by cs => cs.length
decreasing_by
  · simp
  · exact Token.length_read_lt _h

end StackLowering.Json
