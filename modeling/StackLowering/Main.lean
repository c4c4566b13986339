import StackLowering.Cli.Command

/-!
# The program

Runs the commands on the files and the standard streams of the system.
-/

namespace StackLowering

/-- The fault of a file in the words of the system. -/
def faultOf : IO.Error → FileFault
  | .noFileOrDirectory .. => .notFound
  | .inappropriateType _ 20 _ => .notADirectory
  | .inappropriateType _ 21 _ => .isADirectory
  | e => .other (toString e)

/-- The files and the standard output of the system. -/
def system : Surroundings IO where
  readText path := do
    match ← (IO.FS.readBinFile path).toBaseIO with
    | .error e => return .error (faultOf e)
    | .ok bytes =>
      match String.fromUTF8? bytes with
      | some text => return .ok text
      | none => return .error .notText
  writeText path text := do
    match ← (IO.FS.writeFile path text).toBaseIO with
    | .error e => return .error (faultOf e)
    | .ok () => return .ok ()
  print text := do
    (← IO.getStdout).putStr text

/-- Runs the program, and gives the status with which it exits. -/
def runProgram (arguments : List String) : IO UInt32 := do
  let ending ← runCommand system arguments
  if ending = .misuse then
    (← IO.getStderr).putStr usage
  if let some text := ending.diagnostic then
    (← IO.getStderr).putStr (text ++ "\n")
  return ending.status.toUInt32

end StackLowering

def main (arguments : List String) : IO UInt32 := StackLowering.runProgram arguments
