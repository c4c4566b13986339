import StackLowering.Cli.Arguments
import StackLowering.Cli.FileStore
import StackLowering.Compile

/-!
# The commands

What a command does is said once, over the few things that it asks of its surroundings: to read a
file, to write a file, and to print. The model of the surroundings is a file store and the text
that was printed.

A file is written only when all else has succeeded, and never at the path of the input.

## Main definitions

* `Surroundings`: what a command asks of its surroundings
* `destination`: where the result of a compilation goes
* `runCompile`: compiles a file
* `runCommand`: does what a command line asks for
* `World`, `World.surroundings`: the model
-/

namespace StackLowering

/-- What a command asks of its surroundings. -/
structure Surroundings (m : Type → Type) where
  readText : String → m (Except FileFault String)
  writeText : String → String → m (Except FileFault Unit)
  print : String → m Unit

/-- Where assembly text goes. -/
inductive Destination
  | printed
  | file (path : String)
deriving DecidableEq

/-- The extension of a file that holds assembly text. -/
def assemblyExtension : String := "cir"

/-- Where the result goes: to the path that is asked for, where a hyphen stands for printing, or
else to a file beside the input. The path of the input is refused. -/
def destination (input : String) (output : Option String) : Except CompileError Destination :=
  match output with
  | some path => if Path.same path "-" then .ok .printed else guarded path
  | none => guarded (Path.withExtension input assemblyExtension)
where
  /-- A path, unless it is that of the input. -/
  guarded (path : String) : Except CompileError Destination :=
    if Path.same path input then
      .error (.input (.overwrites path))
    else .ok (.file path)

/-- A listing as it is shown before it is rendered. -/
def Listing.dump (l : Listing) : String :=
  "=== IR Output ===\n" ++ String.join (l.entries.map fun e => e.inspect ++ "\n") ++
    "=== End IR ===\n"

section

variable {m : Type → Type} [Monad m]

/-- Sends assembly text to its destination. -/
def deliver (env : Surroundings m) (assembly : String) :
    Destination → m (Except CompileError Unit)
  | .printed => do
    env.print assembly
    return .ok ()
  | .file path => do
    return (← env.writeText path assembly).mapError .file

/-- Shows a listing if that is asked for, and sends its text to the destination. -/
def emit (env : Surroundings m) (showListing : Bool) (target : Destination) (listing : Listing) :
    m (Except CompileError Unit) := do
  if showListing then env.print listing.dump
  deliver env (listing.render ++ "\n") target

/-- Compiles a file. The destination is settled before the file is read. -/
def runCompile (env : Surroundings m) (request : CompileRequest) : m (Except CompileError Unit) :=
  match destination request.input request.output with
  | .error e => return .error e
  | .ok target => do
    match ← env.readText request.input with
    | .error f => return .error (.file f)
    | .ok text =>
      match lowerText text with
      | .error e => return .error e
      | .ok listing => emit env request.showListing target listing

/-- How a command ended. -/
inductive Ending
  | success
  | failure (error : CompileError)
  /-- The command line was not understood. -/
  | misuse
deriving DecidableEq

namespace Ending

/-- The status with which the program exits. -/
def status : Ending → UInt8
  | success => 0
  | failure _ => 1
  | misuse => 2

/-- What is said about a failure. -/
def diagnostic : Ending → Option String
  | failure e => some ("Error: " ++ e.message)
  | _ => none

end Ending

/-- The line that gives the version. -/
def versionLine : String := "circ 0.1.0\n"

/-- A reminder of the command line. -/
def usage : String :=
  "Usage: circ [-v] compile [-o OUTPUT] [--print-ir] INPUT\n       circ [-v] builtins\n"

/-- Does what a command line asks for. -/
def runInvocation (env : Surroundings m) : Invocation → m Ending
  | .compile request => do
    match ← runCompile env request with
    | .ok () => return .success
    | .error e => return .failure e
  | .builtins => do
    env.print Builtin.listing
    return .success
  | .version => do
    env.print versionLine
    return .success
  | .help => do
    env.print usage
    return .success
  | .misuse => return .misuse

/-- Runs the program with the words of a command line. -/
def runCommand (env : Surroundings m) (arguments : List String) : m Ending :=
  runInvocation env (.ofArguments arguments)

end

/-! ## The model of the surroundings -/

/-- A file store, and what was printed. -/
structure World where
  store : FileStore
  printed : String

/-- Access to a world. -/
def World.surroundings : Surroundings (StateM World) where
  readText path := do return (← get).store.readText path
  writeText path text := do
    match (← get).store.writeText path text with
    | .ok store => modifyGet fun w => (.ok (), { w with store })
    | .error f => return .error f
  print text := modify fun w => { w with printed := w.printed ++ text }

end StackLowering
