import StackLowering.Text.Combining
import StackLowering.Text.Ignorable
import StackLowering.Text.Printable

/-!
# Quoted text in diagnostics

A diagnostic shows a string between double quotes, in a form that can be read on any terminal: a
character that cannot be printed, that is not drawn, or that would be drawn together with the
character before it, is shown by its code point.
-/

namespace StackLowering.Text

/-- The digits of a number in base sixteen, in lower case. -/
def hexDigits (n : Nat) : List Char := Nat.toDigits 16 n

/-- Whether a character that is no part of the quoting is shown as it is. -/
def isShown (c : Char) : Bool := isPrintable c && !isCombining c && !isIgnorable c

/-- How a character is shown between quotes. -/
def quoteChar (c : Char) : List Char :=
  match c with
  | '"' => ['\\', '"']
  | '\\' => ['\\', '\\']
  | '\n' => ['\\', 'n']
  | '\r' => ['\\', 'r']
  | '\t' => ['\\', 't']
  | '\x00' => ['\\', '0']
  | c =>
    if isShown c then [c]
    else ['\\', 'u', '\x7b'] ++ hexDigits c.toNat ++ ['\x7d']

/-- A string as a diagnostic shows it. -/
def quoted (s : String) : String :=
  String.ofList ('"' :: s.toList.flatMap quoteChar ++ ['"'])

end StackLowering.Text
