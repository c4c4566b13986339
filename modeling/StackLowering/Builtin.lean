import StackLowering.Code.Basic

/-!
# Builtin operations

The symbols by which a program names an operation of the machine. Calling one of them is a single
instruction, and the number of arguments is its operand.
-/

namespace StackLowering

namespace Builtin

/-- The symbols that are known, each with its operation. -/
def table : List (String × Mnemonic) :=
  [("__get__", .get), ("__add__", .add), ("__integer_divide__", .idiv),
    ("__modular_divide__", .mod), ("__multiply__", .mul), ("__negate__", .neg),
    ("__subtract__", .sub), ("__eq__", .eq), ("__neq__", .neq), ("__lt__", .lt),
    ("__lte__", .lte), ("__gt__", .gt), ("__gte__", .gte), ("__concat__", .concat),
    ("__field__", .field)]

/-- The operation that a symbol names. -/
def mnemonic? (symbol : String) : Option Mnemonic := table.lookup symbol

/-- The width of the symbol column of `listing`. -/
def symbolWidth : Nat := 20

/-- A line for every symbol: the symbol, filled up with spaces to the width of the column, and
its operation. -/
def listing : String :=
  String.join (table.map fun (symbol, mnemonic) =>
    symbol.pushn ' ' (symbolWidth - symbol.length) ++ " " ++ mnemonic.text ++ "\n")

end Builtin

end StackLowering
