import StackLowering.Json.Decoder

/-!
# Reading records

A record is written as an object, with its fields under their names in any order, or as an array,
with its fields in the order of their declaration. Both are read alike: for each field it is said
where it stands, and of all faults the one that stands first in the text is reported. A field that
is missing is noticed at the end.

A record may be read while its text is still being read, or from memory, once a larger part of the
text was seen to be in order. The two differ only in how an array with too many items is refused.

A tagged record is one of several variants. Its tag says which; the tag is the member `type` of an
object or the first item of an array. The tag is looked at when it is met, and everything else is
kept until the bracket is closed.

## Main definitions

* `Placed`: a value, or a fault and its place
* `Fields`: the fields of a record as they are written; `Fields.get`, `Fields.getOption`
* `Decoder.record`: a record
* `Decoder.tagged`: one of several variants
-/

namespace StackLowering.Json

/-! ## Faults and their places -/

/-- A value, or a fault and the place in a record where it stands. -/
inductive Placed (α : Type)
  | value (a : α)
  | fault (place : Nat) (error : ReadError)

namespace Placed

/-- The outcome of reading what stands at a place. -/
def ofExcept {α : Type} (place : Nat) : Except ReadError α → Placed α
  | .ok a => value a
  | .error e => fault place e

/-- The value, or the fault without its place. -/
def toExcept {α : Type} : Placed α → Except ReadError α
  | value a => .ok a
  | fault _ e => .error e

/-- Applies a function to a value; of two faults the one that stands first wins. -/
def apply {α β : Type} : Placed (α → β) → Placed α → Placed β
  | value f, value a => value (f a)
  | value _, fault p e => fault p e
  | fault p e, value _ => fault p e
  | fault p e, fault p' e' => if p' < p then fault p' e' else fault p e

instance : Applicative Placed where
  pure := value
  seq f x := apply f (x ())

@[simp] theorem pure_def {α : Type} (a : α) : (pure a : Placed α) = value a := rfl
@[simp] theorem seq_def {α β : Type} (f : Placed (α → β)) (x : Placed α) :
    f <*> x = apply f x := rfl
@[simp] theorem map_def {α β : Type} (f : α → β) (x : Placed α) :
    f <$> x = apply (value f) x := rfl

end Placed

/-! ## Fields -/

/-- Whether a part of a text is read while the text is still being read. -/
inductive Mode
  | streamed
  | buffered
deriving DecidableEq

/-- How a record is written: with its fields by name, or by place. -/
inductive Slots
  | named (members : List (Option String × Fragment)) (closed : Bool)
  | positional (items : List Fragment) (closed : Bool)

/-- What is expected of a record: how it is called, and its fields in the order of declaration. -/
structure RecordForm where
  title : String
  fields : List String

/-- A number of elements, as a diagnostic names it. -/
def elementCount (n : Nat) : String :=
  toString n ++ (if n = 1 then " element" else " elements")

/-- The first member with a key, and its place. -/
def findMember (name : String) (members : List (Option String × Fragment)) :
    Option (Nat × Fragment) :=
  (members.findIdx? (·.1 == some name)).bind fun i => members[i]?.map fun m => (i, m.2)

/-- Refuses a key without a value, a field that is given twice, and a bracket that is not closed;
`place` and `seen` say how many keys and which ones stand before these members. -/
def checkKeys (fields : List String) (closed : Bool) :
    Nat → List String → List (Option String × Fragment) → Placed Unit
  | place, _, [] => if closed then .value () else .fault place .malformed
  | place, _, (none, _) :: _ => .fault place .malformed
  | place, seen, (some key, _) :: rest =>
    if key ∈ fields ∧ key ∈ seen then .fault place (.duplicateField key)
    else checkKeys fields closed (place + 1) (key :: seen) rest

/-- The fields of a record as they are written. -/
structure Fields where
  form : RecordForm
  slots : Slots

namespace Fields

/-- Where a field stands, and what stands there. -/
def find (r : Fields) (name : String) : Option (Nat × Fragment) :=
  match r.slots with
  | .named members _ => findMember name members
  | .positional items _ =>
    let place := r.form.fields.idxOf name
    items[place]?.map (place, ·)

/-- The fault of a record without a field. -/
def missing {α : Type} (r : Fields) (name : String) : Placed α :=
  match r.slots with
  | .named members _ => .fault (members.length + 1) (.missingField name)
  | .positional .. =>
    let place := r.form.fields.idxOf name
    .fault place (.invalidLength place
      (r.form.title ++ " with " ++ elementCount r.form.fields.length))

/-- The value of a field. -/
def get {α : Type} (r : Fields) (name : String) (decoder : Decoder α) : Placed α :=
  match r.find name with
  | some (place, f) => .ofExcept place (decoder f)
  | none => r.missing name

/-- The value of a field that may be left out. -/
def getOption {α : Type} (r : Fields) (name : String) (decoder : Decoder α) : Placed (Option α) :=
  match r.find name with
  | some (place, f) => .ofExcept place (decoder.option f)
  | none => .value none

/-- Refuses what is wrong with the record apart from the values of its fields. -/
def check (r : Fields) (mode : Mode) : Placed Unit :=
  let count := r.form.fields.length
  match r.slots with
  | .named members closed => checkKeys r.form.fields closed 0 [] members
  | .positional items closed =>
    if !closed then .fault items.length .malformed
    else if count < items.length then
      .fault count (match mode with
        | .streamed => .malformed
        | .buffered => .invalidLength items.length (elementCount count ++ " in sequence"))
    else .value ()

/-- The value of the record. -/
def read {α : Type} (r : Fields) (mode : Mode) (body : Fields → Placed α) : Except ReadError α :=
  ((fun _ a => a) <$> r.check mode <*> body r).toExcept

end Fields

/-! ## Records -/

namespace Decoder

variable {α : Type}

/-- A record with one form. -/
def record (mode : Mode) (form : RecordForm) (body : Fields → Placed α) : Decoder α
  | .object members closed => Fields.read ⟨form, .named members closed⟩ mode body
  | .array items closed => Fields.read ⟨form, .positional items closed⟩ mode body
  | f => .error (f.mismatch form.title)

end Decoder

/-! ## Variants -/

/-- A variant: its tag, its fields in the order of declaration, and how it is read. -/
structure Variant (α : Type) where
  name : String
  fields : List String
  body : Fields → Placed α

/-- What is expected of a tagged record: the name of its type, and the variants in the order of
declaration. -/
structure TaggedForm (α : Type) where
  typeName : String
  variants : List (Variant α)

namespace TaggedForm

variable {α : Type}

/-- The member that holds the tag. -/
def tagName : String := "type"

def title (form : TaggedForm α) : String := "internally tagged enum " ++ form.typeName

/-- What is expected of a variant. -/
def variantForm (form : TaggedForm α) (v : Variant α) : RecordForm where
  title := "struct variant " ++ form.typeName ++ "::" ++ v.name
  fields := v.fields

/-- The variant that a tag names. A number is a tag only where a record is read from memory. -/
def variantOf (form : TaggedForm α) (mode : Mode) : Decoder (Variant α)
  | .string (some tag) =>
    match form.variants.find? (·.name == tag) with
    | some v => .ok v
    | none => .error (.unknownVariant tag (form.variants.map Variant.name))
  | .number (some (.integer n)) =>
    if mode = .buffered ∧ 0 ≤ n then
      match form.variants[n.toNat]? with
      | some v => .ok v
      | none => .error (.invalidValue (.integer n)
          ("variant index 0 <= i < " ++ toString form.variants.length))
    else .error (.invalidType (.integer n) "variant identifier")
  | f => .error (f.mismatch "variant identifier")

/-- Looks through the members of an object for the tag; gives the variant, and the members without
the tag. Everything but the tag has to be a whole value with no more than `nesting` brackets. -/
def findTag (form : TaggedForm α) (mode : Mode) (nesting : Nat) (closed : Bool) :
    Option (Variant α) → List (Option String × Fragment) →
      Except ReadError (Variant α × List (Option String × Fragment))
  | some v, [] => if closed then .ok (v, []) else .error .malformed
  | none, [] => if closed then .error (.missingField tagName) else .error .malformed
  | _, (none, _) :: _ => .error .malformed
  | found, (some key, f) :: rest =>
    if key = tagName then
      match found with
      | some _ => .error (.duplicateField tagName)
      | none => do findTag form mode nesting closed (some (← form.variantOf mode f)) rest
    else if f.isComplete nesting then do
      let (v, others) ← findTag form mode nesting closed found rest
      return (v, (some key, f) :: others)
    else .error .malformed

/-- The value of a variant, whose fields are in memory. -/
def readVariant (form : TaggedForm α) (v : Variant α) (slots : Slots) : Except ReadError α :=
  Fields.read ⟨form.variantForm v, slots⟩ .buffered v.body

end TaggedForm

/-- A tagged record, inside of which no more than `nesting` brackets may be open. -/
def Decoder.tagged {α : Type} (mode : Mode) (nesting : Nat) (form : TaggedForm α) : Decoder α
  | .object members closed => do
    let (v, others) ← form.findTag mode nesting closed none members
    form.readVariant v (.named others true)
  | .array [] closed => .error (if closed then .missingField TaggedForm.tagName else .malformed)
  | .array (tag :: items) closed => do
    let v ← form.variantOf mode tag
    if closed && items.all (·.isComplete nesting) then form.readVariant v (.positional items true)
    else throw .malformed
  | f => .error (f.mismatch form.title)

end StackLowering.Json
