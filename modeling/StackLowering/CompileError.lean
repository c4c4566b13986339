import StackLowering.Json.ReadError
import StackLowering.Lowering.Fault

/-!
# Why a compilation ended

The errors that can end a compilation, from the file that is read to the file that is written.

## Main definitions

* `FileFault`, `InputFault`: what is wrong with a file, and with what is to be compiled
* `CompileError`: why a compilation ended
* `CompileError.message`: the text of a diagnostic
-/

namespace StackLowering

/-- Why a file cannot be read or written. -/
inductive FileFault
  | notFound
  | notADirectory
  | isADirectory
  /-- The content of the file is no text. -/
  | notText
  /-- A fault of another kind, in the words of the system. -/
  | other (text : String)
deriving DecidableEq

/-- The text of a diagnostic. -/
def FileFault.message : FileFault → String
  | notFound => "No such file or directory (os error 2)"
  | notADirectory => "Not a directory (os error 20)"
  | isADirectory => "Is a directory (os error 21)"
  | notText => "stream did not contain valid UTF-8"
  | other text => text

/-- Why something is not accepted for compilation. -/
inductive InputFault
  /-- The text describes no tree. -/
  | unreadable (error : Json.ReadError)
  /-- The result would replace what is compiled. -/
  | overwrites (path : String)
  /-- Another reason, in words. -/
  | other (text : String)
deriving DecidableEq

/-- The text of a diagnostic. -/
def InputFault.message : InputFault → String
  | unreadable e => e.message
  | overwrites path => "output '" ++ path ++ "' would overwrite the input file; pass --output"
  | other text => text

/-- Why a compilation ended. -/
inductive CompileError
  /-- The tree cannot be lowered. -/
  | lowering (fault : LocatedFault)
  /-- What is to be compiled is not accepted. -/
  | input (fault : InputFault)
  /-- A file cannot be read or written. -/
  | file (fault : FileFault)
  /-- The compiler itself is at fault. -/
  | internal (text : String)
deriving DecidableEq

/-- The text of a diagnostic. -/
def CompileError.message : CompileError → String
  | lowering f => "Lowering error: " ++ f.message
  | input f => "Invalid CPS input: " ++ f.message
  | file f => "IO error: " ++ f.message
  | internal text => "Internal compiler error: " ++ text

end StackLowering
