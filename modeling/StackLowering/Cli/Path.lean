/-!
# Paths

A path is text. What it names is looked up by its segments; two paths are compared by their
components, which leave out repeated slashes, slashes at the end, and every dot segment but one at
the start of a relative path. Comparing paths does not resolve them: a path with a dot in front, or
one that goes up and down again, differs from a shorter path to the same file.

## Main definitions

* `Path.components`: what paths are compared by
* `Path.withExtension`: the path of a file with another extension
-/

namespace StackLowering

namespace Path

/-- The parts of a text between slashes. -/
def segments : List Char → List (List Char)
  | [] => [[]]
  | c :: r =>
    if c = '/' then [] :: segments r
    else match segments r with
      | [] => [[c]]
      | s :: rest => (c :: s) :: rest

/-- A part of a path. -/
inductive Component
  | root
  | current
  | parent
  | normal (name : String)
deriving DecidableEq

/-- The component of a segment, if it has one. -/
def componentOf (segment : List Char) : Option Component :=
  if segment = [] ∨ segment = ['.'] then none
  else if segment = ['.', '.'] then some .parent
  else some (.normal (.ofList segment))

/-- What a path is compared by. -/
def components (path : String) : List Component :=
  let parts := segments path.toList
  let start := match path.toList, parts with
    | '/' :: _, _ => [.root]
    | _, ['.'] :: _ => [.current]
    | _, _ => []
  start ++ parts.filterMap componentOf

/-- Whether two paths have the same components. -/
def same (a b : String) : Bool := components a == components b

/-! ## Extensions -/

/-- The end of a path, read backwards, without slashes and dot segments behind the last name. -/
def dropEnd : List Char → List Char
  | '/' :: r => dropEnd r
  | '.' :: '/' :: r => dropEnd r
  | r => r

/-- The last name of a path. -/
structure Name where
  /-- What stands before the name. -/
  front : List Char
  stem : List Char
  extension : Option (List Char)
  /-- Whether anything stands behind the name. -/
  followed : Bool

/-- A name without its extension, and the extension: what follows the last point, unless the point
is the first character. -/
def splitName (name : List Char) : List Char × Option (List Char) :=
  let reversed := name.reverse
  match reversed.dropWhile (· != '.') with
  | [] => (name, none)
  | [_] => (name, none)
  | _ :: before => (before.reverse, some (reversed.takeWhile (· != '.')).reverse)

/-- The last name of a path, if the path ends in a name. -/
def lastName (path : String) : Option Name :=
  let reversed := path.toList.reverse
  let kept := dropEnd reversed
  let name := (kept.takeWhile (· != '/')).reverse
  if componentOf name = none ∨ componentOf name = some .parent then none
  else
    let (stem, extension) := splitName name
    some ⟨(kept.dropWhile (· != '/')).reverse, stem, extension, kept.length != reversed.length⟩

/-- The path of a file with another extension. The old extension is taken off first; where that
leaves the name of the parent directory, no extension is put on. -/
def withExtension (path extension : String) : String :=
  match lastName path with
  | none => path
  | some name =>
    if name.stem = ['.'] ∧ name.extension.isSome ∧ !name.followed then
      .ofList (name.front ++ ['.', '.'])
    else
      .ofList (name.front ++ name.stem) ++ "." ++ extension

end Path

end StackLowering
