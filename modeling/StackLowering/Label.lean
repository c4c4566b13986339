/-!
# Labels

A label is a base, a dollar sign and a number. The base of a named function is its name with the
underscores written as dollar signs, so that no name of a program can be taken for one of the bases
that start with underscores.
-/

namespace StackLowering

namespace Label

/-- What stands for a character of a name in the base of a label. -/
def escapeChar (c : Char) : List Char :=
  if c = '$' then ['$', '$'] else if c = '_' then ['$'] else [c]

/-- The base that belongs to a name: a dollar sign is written twice and an underscore as a dollar
sign. -/
def escape (name : String) : String := String.ofList (name.toList.flatMap escapeChar)

/-- The label with this base and number. -/
def numbered (base : String) (n : UInt32) : String := base ++ "$" ++ toString n.toNat

/-- The label at which a program starts. -/
def main : String := "__main__"

/-- The base of a function without a name. -/
def anonymousBase : String := "__lambda__"

/-- The base of the label of a function. -/
def lambdaBase : Option String → String
  | some name => escape name
  | none => anonymousBase

end Label

/-- The three labels of a conditional: its first arm, its second arm, and what follows. -/
structure BranchLabels where
  thenLabel : String
  elseLabel : String
  endLabel : String
deriving DecidableEq

namespace BranchLabels

def thenBase : String := "if"
def elseBase : String := "else"
def endBase : String := "endif"

/-- The labels of the conditional with this tag: one number on three bases. -/
def ofTag (tag : UInt32) : BranchLabels where
  thenLabel := Label.numbered thenBase tag
  elseLabel := Label.numbered elseBase tag
  endLabel := Label.numbered endBase tag

end BranchLabels

end StackLowering
