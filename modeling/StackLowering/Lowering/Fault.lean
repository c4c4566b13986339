import StackLowering.Code.Inspect
import StackLowering.Location

/-!
# Why a tree cannot be lowered

An error is a cause and, where one is known, the location of the statement at fault. A location is
found on the way out: the innermost statement that has one gives it, and what stands further out
does not change it.

## Main definitions

* `Fault`, `LocatedFault`: causes, and causes with a place
* `LocatedFault.locatedAt`: gives a place to an error that has none
* `LocatedFault.message`: the text of a diagnostic
-/

namespace StackLowering

/-- A location with the names of its parts. -/
def Location.inspect (l : Location) : String :=
  "SourceLocation \x7b filename: " ++ Text.quoted l.filename ++ ", line: " ++
    toString l.line.toNat ++ ", column: " ++ toString l.column.toNat ++ " \x7d"

/-- What is wrong with a tree. -/
inductive Fault
  /-- A call of an operation that the machine does not have. -/
  | unknownBuiltin (symbol : String)
  /-- The code of a body does not end by discarding the value of its last statement. -/
  | malformedBody (context found : String)
  /-- An expression stands where its form has no meaning. -/
  | unhandledShape (shape context : String)
deriving DecidableEq

/-- What is wrong, and where. -/
structure LocatedFault where
  fault : Fault
  location : Option Location
deriving DecidableEq

namespace LocatedFault

/-- The error with this location, unless it has one already. -/
def locatedAt (e : LocatedFault) (l : Option Location) : LocatedFault :=
  { e with location := e.location.or l }

/-- The text of a diagnostic. -/
def message (e : LocatedFault) : String :=
  match e.fault with
  | .unknownBuiltin symbol => "Unknown builtin '" ++ symbol ++ "'" ++ Location.clause e.location
  | .malformedBody context found =>
    "Malformed body in " ++ context ++ Location.clause e.location ++
      ": expected a trailing drop, found " ++ found
  | .unhandledShape shape context =>
    "Unhandled node shape '" ++ shape ++ "' in " ++ context ++ Location.clause e.location

@[simp] theorem fault_locatedAt (e : LocatedFault) (l : Option Location) :
    (e.locatedAt l).fault = e.fault := rfl

@[simp] theorem location_locatedAt (e : LocatedFault) (l : Option Location) :
    (e.locatedAt l).location = e.location.or l := rfl

/-! ## The structure of an error, spelled out -/

/-- The name of a cause and its parts. -/
def faultParts : Fault → String × List (String × String)
  | .unknownBuiltin symbol => ("UnknownBuiltin", [("symbol", symbol)])
  | .malformedBody context found => ("MalformedBody", [("context", context), ("found", found)])
  | .unhandledShape shape context =>
    ("UnhandledNodeShape", [("shape", shape), ("context", context)])

/-- An error with the names of its parts. -/
def inspect (e : LocatedFault) : String :=
  let (name, parts) := faultParts e.fault
  name ++ " \x7b " ++ String.join (parts.map fun (field, value) =>
    field ++ ": " ++ Text.quoted value ++ ", ") ++
    "location: " ++ inspectOption Location.inspect e.location ++ " \x7d"

end LocatedFault

end StackLowering
