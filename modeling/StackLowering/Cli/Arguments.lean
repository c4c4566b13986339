/-!
# Command lines

The first word that is no option names a command, and the words behind it belong to the command.
Options of one letter may be bundled, and the value of an option may be attached to it. The words
are looked at from left to right, and the first of them that settles the matter does so: a question
for the version or for help is answered at once, and a mistake ends the reading.

## Main definitions

* `Invocation`: what a command line asks for
* `Invocation.ofArguments`: reads a command line
-/

namespace StackLowering

/-- What is to be compiled, and where the result goes. -/
structure CompileRequest where
  input : String
  output : Option String
  /-- Whether the listing is shown before it is rendered. -/
  showListing : Bool
deriving DecidableEq

/-- What a command line asks for. -/
inductive Invocation
  | compile (request : CompileRequest)
  | builtins
  | version
  | help
  /-- The command line is not understood. -/
  | misuse
deriving DecidableEq

namespace Invocation

/-- A word of a command line. -/
inductive Word
  /-- Two hyphens: options end here. -/
  | separator
  /-- An option with a long name, and the value that is attached to it. -/
  | long (name : List Char) (value : Option (List Char))
  /-- Options of one letter. -/
  | short (letters : List Char)
  /-- Anything else; a single hyphen too. -/
  | plain (text : String)

/-- The form of a word. -/
def Word.ofString (s : String) : Word :=
  match s.toList with
  | ['-', '-'] => .separator
  | '-' :: '-' :: r =>
    match r.dropWhile (· != '=') with
    | [] => .long r none
    | _ :: value => .long (r.takeWhile (· != '=')) (some value)
  | ['-'] => .plain s
  | '-' :: letters => .short letters
  | _ => .plain s

/-- Whether a word can be the value of the option before it. -/
def isValue (s : String) : Bool :=
  match Word.ofString s with
  | .plain text => text != ""
  | _ => false

/-- Reads the letters of a bundle of options that take no value, of which `verbose` says whether it
was met before. The version can be asked for in front of the command only. -/
def flags (inFront verbose : Bool) : List Char → Except Invocation Bool
  | [] => .ok verbose
  | 'v' :: rest => if verbose then .error .misuse else flags inFront true rest
  | 'V' :: _ => .error (if inFront then .version else .misuse)
  | 'h' :: _ => .error .help
  | _ => .error .misuse

/-! ## The command that lists the builtin operations -/

/-- Reads the words behind the command `builtins`. -/
def builtinsOf (verbose : Bool) : List String → Invocation
  | [] => .builtins
  | word :: rest =>
    match Word.ofString word with
    | .separator => if rest.isEmpty then .builtins else .misuse
    | .long name value =>
      if name = "verbose".toList ∧ value = none ∧ !verbose then builtinsOf true rest
      else if name = "help".toList ∧ value = none then .help
      else .misuse
    | .short letters =>
      match flags false verbose letters with
      | .ok verbose => builtinsOf verbose rest
      | .error settled => settled
    | .plain _ => .misuse

/-! ## The command that compiles -/

/-- What has been read of the words behind the command `compile`. -/
structure CompileWords where
  input : Option String := none
  output : Option String := none
  showListing : Bool := false
  verbose : Bool := false

namespace CompileWords

/-- What the words ask for, once all have been read. -/
def finish (w : CompileWords) : Invocation :=
  match w.input with
  | some input => .compile ⟨input, w.output, w.showListing⟩
  | none => .misuse

def setInput (w : CompileWords) (s : String) : Except Invocation CompileWords :=
  if s = "" ∨ w.input.isSome then .error .misuse else .ok { w with input := some s }

def setOutput (w : CompileWords) (s : String) : Except Invocation CompileWords :=
  if s = "" ∨ w.output.isSome then .error .misuse else .ok { w with output := some s }

def setShowListing (w : CompileWords) : Except Invocation CompileWords :=
  if w.showListing then .error .misuse else .ok { w with showListing := true }

def setVerbose (w : CompileWords) : Except Invocation CompileWords :=
  if w.verbose then .error .misuse else .ok { w with verbose := true }

/-- What follows an option of one letter that takes a value, in the same word: nothing, or the
value, with or without an equals sign. -/
def attached : List Char → Option String
  | [] => none
  | '=' :: value => some (.ofList value)
  | value => some (.ofList value)

/-- Reads a bundle of options; also says whether the next word is the value of the last one. -/
def bundle (w : CompileWords) : List Char → Except Invocation (CompileWords × Bool)
  | [] => .ok (w, false)
  | 'v' :: rest => do bundle (← w.setVerbose) rest
  | 'h' :: _ => .error .help
  | 'o' :: rest =>
    match attached rest with
    | some value => do return (← w.setOutput value, false)
    | none => .ok (w, true)
  | _ => .error .misuse

/-- Reads an option with a long name; also says whether the next word is its value. -/
def long (w : CompileWords) (name : List Char) (value : Option (List Char)) :
    Except Invocation (CompileWords × Bool) :=
  if name = "output".toList then
    match value with
    | some value => do return (← w.setOutput (.ofList value), false)
    | none => .ok (w, true)
  else if value.isSome then .error .misuse
  else if name = "print-ir".toList then do return (← w.setShowListing, false)
  else if name = "verbose".toList then do return (← w.setVerbose, false)
  else if name = "help".toList then .error .help
  else .error .misuse

/-- Reads words that are no options. -/
def readPlain (w : CompileWords) : List String → Except Invocation CompileWords
  | [] => .ok w
  | s :: rest => do (← w.setInput s).readPlain rest

/-- Reads words; `valueNext` says that the next one is the value of an option. -/
def read (w : CompileWords) (valueNext : Bool) : List String → Except Invocation CompileWords
  | [] => if valueNext then .error .misuse else .ok w
  | s :: rest =>
    if valueNext then
      if isValue s then do (← w.setOutput s).read false rest else .error .misuse
    else match Word.ofString s with
      | .separator => w.readPlain rest
      | .plain text => do (← w.setInput text).read false rest
      | .long name value => do
        let (w, valueNext) ← w.long name value
        w.read valueNext rest
      | .short letters => do
        let (w, valueNext) ← w.bundle letters
        w.read valueNext rest

end CompileWords

/-- Reads the words behind the command `compile`. -/
def compileOf (words : List String) : Invocation :=
  match CompileWords.read {} false words with
  | .ok w => w.finish
  | .error settled => settled

/-! ## Commands -/

/-- Reads the words behind the command `help`. -/
def helpOf : List String → Invocation
  | [] => .help
  | ["compile"] => .help
  | ["builtins"] => .help
  | ["help"] => .help
  | _ => .misuse

/-- Reads a command line from the front; `verbose` says whether that option was met. -/
def readFront (verbose : Bool) : List String → Invocation
  | [] => .misuse
  | word :: rest =>
    match Word.ofString word with
    | .separator => .misuse
    | .long name value =>
      if value.isSome then .misuse
      else if name = "verbose".toList then if verbose then .misuse else readFront true rest
      else if name = "version".toList then .version
      else if name = "help".toList then .help
      else .misuse
    | .short letters =>
      match flags true verbose letters with
      | .ok verbose => readFront verbose rest
      | .error settled => settled
    | .plain "compile" => compileOf rest
    | .plain "builtins" => builtinsOf false rest
    | .plain "help" => helpOf rest
    | .plain _ => .misuse

/-- What a command line asks for. -/
def ofArguments (arguments : List String) : Invocation := readFront false arguments

end Invocation

end StackLowering
