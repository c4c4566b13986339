import StackLowering.Proofs.Respelling
import StackLowering.Proofs.TreeReading

/-!
# The roles of the nodes of a tree

What a fragment is read as is its role. It is found from the outside in: a document is a program,
and what stands for a field has the role of the field. A node is an object or an array, and it is
read if what stands for its fields is read.

What stands in a node for nothing is read as well, to be passed over, and can be an obstacle then.
In a program, a statement or a location that stands outside of every statement form it is skipped,
and only its key has to have a value. Inside of a statement form everything is kept in memory before
it is looked at: a number that is out of range, or a string or a key with half of a surrogate pair,
is refused there wherever it stands. A document with neither of these is legible, and no other is
read.

## Main definitions

* `Role` — what a fragment is read as
* `Role.shape?` — the shape of a node
* `Stmt.Legible`, `Program.Legible` — what nobody reads is no obstacle to the reader
* `Role.Keeps` — what is read from one fragment is read from another

## Main results

* `Program.legible_of_decode` — a program is read from a legible document only
* `Role.keeps_of_follows` — a node is read, if its fields are read alike and it is legible
-/

namespace StackLowering

open Json

/-! ### Roles -/

/-- What a fragment is read as. -/
inductive Role
  | program
  | statements
  | statement
  | kind
  | expression
  | location
  | names
  | string
  | int64
  | word32
  | word64
  /-- Nobody reads the fragment. -/
  | ignored
deriving DecidableEq

namespace Role

/-- What is read from a fragment with this role. -/
def Value : Role → Type
  | program => Program
  | statements => List Stmt
  | statement => Stmt
  | kind => Action × Expr
  | expression => Expr
  | location => Location
  | names => List String
  | string => String
  | int64 => Int64
  | word32 => UInt32
  | word64 => UInt64
  | ignored => Unit

/-- How a fragment with this role is read. -/
def decode : (role : Role) → Mode → Nat → Decoder role.Value
  | program, mode, n => Program.decode mode n
  | statements, mode, n => Stmt.decodeAll mode n
  | statement, mode, n => Stmt.decode mode n
  | kind, mode, n => Stmt.decodeKind mode n
  | expression, mode, n => Expr.decode mode n
  | location, mode, n => Location.decode mode n
  | names, _, n => .strings n
  | string, _, _ => .string
  | int64, _, _ => .int64
  | word32, _, _ => .word32
  | word64, _, _ => .word64
  | ignored, _, _ => fun _ => .ok ()

/-- The role of what stands for a field. Fields of one name have one role, whatever they are fields
of. -/
def ofField : String → Role
  | "statements" | "if_statement_list" | "else_statement_list" | "statement_list" => statements
  | "kind" => kind
  | "expression" | "function_expression" | "condition_expression" => expression
  | "location" => location
  | "argument_name_list" => names
  | "filename" | "target" | "variable" | "symbol" | "string" | "name" => string
  | "integer" => int64
  | "line" | "column" => word32
  | "argument_count" | "field_count" => word64
  | _ => ignored

/-- The shape of a node with this role: a program, a statement or a location, or what the tag of a
statement form or of an expression says. -/
def shape? : Role → Fragment → Option Shape
  | program, _ => some ⟨none, Program.form.fields⟩
  | statement, _ => some ⟨none, Stmt.form.fields⟩
  | location, _ => some ⟨none, Location.form.fields⟩
  | kind, f => (Action.variants (.tooDeep "")).shape? f.tag
  | expression, f => (Expr.variants (.tooDeep "") (.tooDeep "") (.tooDeep "")).shape? f.tag
  | _, _ => none

end Role

/-! ### Shapes -/

theorem Action.wellFormed_variants (expression : Decoder Expr) :
    (Action.variants expression).WellFormed where
  names := by simp [Action.variants]
  fields := by simp [Action.variants]
  tag := by simp [Action.variants, TaggedForm.tagName]

theorem Expr.wellFormed_variants (expression : Decoder Expr) (statements : Decoder (List Stmt))
    (names : Decoder (List String)) : (Expr.variants expression statements names).WellFormed where
  names := by simp [Expr.variants]
  fields := by simp [Expr.variants]
  tag := by simp [Expr.variants, TaggedForm.tagName]

namespace Role

variable {role : Role} {shape : Shape} {f : Fragment} {n : Nat} {name : String}

/-- The roles of nodes. -/
def isNode : Role → Bool
  | program | statement | kind | expression | location => true
  | _ => false

theorem isNode_of_shape? (h : role.shape? f = some shape) : role.isNode = true := by
  cases role <;> first | rfl | cases h

/-- The fields of a node can be told apart, and none is taken for the tag. -/
theorem fields_of_shape? (h : role.shape? f = some shape) :
    shape.fields.Nodup ∧ TaggedForm.tagName ∉ shape.fields := by
  cases role with
  | program | statement | location => cases h; decide
  | kind =>
    obtain ⟨v, hv, rfl⟩ := TaggedForm.exists_of_shape? h
    have hmem := TaggedForm.mem_variants_of_variantOf hv
    exact ⟨(Action.wellFormed_variants _).fields v hmem, (Action.wellFormed_variants _).tag v hmem⟩
  | expression =>
    obtain ⟨v, hv, rfl⟩ := TaggedForm.exists_of_shape? h
    have hmem := TaggedForm.mem_variants_of_variantOf hv
    exact ⟨(Expr.wellFormed_variants _ _ _).fields v hmem,
      (Expr.wellFormed_variants _ _ _).tag v hmem⟩
  | _ => cases h

/-- A node keeps its shape in another fragment that spells it, with the same tag or with the name of
the variant. -/
theorem shape?_of_spells {g : Fragment} {tag tag' : Option Fragment}
    {slot slot' : String → Fragment} (hshape : role.shape? f = some shape)
    (htag : tag.isSome = shape.variant.isSome) (hf : f.Spells tag shape.fields slot)
    (htag' : tag' = tag ∨ tag' = shape.tag?) (hg : g.Spells tag' shape.fields slot') :
    role.shape? g = some shape := by
  cases role with
  | kind => exact (Action.wellFormed_variants _).shape?_of_spells hshape htag hf htag' hg
  | expression => exact (Expr.wellFormed_variants _ _ _).shape?_of_spells hshape htag hf htag' hg
  | _ => exact hshape

theorem decode_null_ne_ok (hrole : role ≠ .ignored) (mode : Mode) (n : Nat) (a : role.Value) :
    role.decode mode n .null ≠ .ok a := by
  intro h
  cases role with
  | ignored => exact hrole rfl
  | _ => cases n <;> cases h

/-- A field is read from what stands for it. -/
theorem decode_slot (role : Role) (mode : Mode) {r : Fields} {a : role.Value}
    (hrole : role ≠ .ignored) (h : r.get name (role.decode mode n) = .value a) :
    role.decode mode n (r.slot name) = .ok a :=
  (Fields.get_eq_value_iff (decode_null_ne_ok hrole mode n a)).mp h

end Role

/-! ### Legible documents -/

/-- What a statement takes nothing from is no obstacle to its reader: the keys of the statement and
of its location have values, for the members that are no fields are skipped there, and the statement
form is whole, for all of it is kept in memory. -/
structure Stmt.Legible (f : Fragment) : Prop where
  keys : f.HasKeys
  kind : (f.field Stmt.form.fields "kind").IsWhole
  location : (f.field Stmt.form.fields "location").HasKeys

/-- What a program takes nothing from is no obstacle to its reader: the keys of the program have
values, and its statements are legible. -/
structure Program.Legible (f : Fragment) : Prop where
  keys : f.HasKeys
  statements : ∀ g ∈ (f.field Program.form.fields "statements").inner, Stmt.Legible g

section Legible

variable {mode : Mode} {n : Nat} {f : Fragment}

theorem Stmt.legible_of_isWhole (h : f.IsWhole) : Stmt.Legible f :=
  ⟨h.hasKeys, h.field _ _, (h.field _ _).hasKeys⟩

theorem Location.hasKeys_of_decode {l : Location} (h : Location.decode mode n f = .ok l) :
    f.HasKeys := by
  cases n with
  | zero => cases h
  | succ n =>
    rw [Location.decode] at h
    exact (Decoder.exists_spells_of_record h).1

theorem Stmt.isWhole_of_decodeKind {a : Action × Expr} (h : Stmt.decodeKind mode n f = .ok a) :
    f.IsWhole := by
  cases n with
  | zero => cases h
  | succ n =>
    rw [Stmt.decodeKind] at h
    obtain ⟨-, -, hwhole, -⟩ :=
      Decoder.exists_spells_of_tagged (Action.wellFormed_variants _).tag h
    exact hwhole

theorem Stmt.legible_of_decode {s : Stmt} (h : Stmt.decode mode n f = .ok s) :
    Stmt.Legible f := by
  cases n with
  | zero => cases h
  | succ n =>
    rw [Stmt.decode] at h
    obtain ⟨hkeys, r, hr, hf⟩ := Decoder.exists_spells_of_record h
    obtain ⟨_, l, hkind, hlocation, -⟩ := Placed.seq_eq_value_iff.mp hr
    obtain ⟨a, ha, -⟩ := Placed.map_eq_value_iff.mp hkind
    refine ⟨hkeys, ?_, ?_⟩
    · rw [hf.field_eq (.head _)]
      exact Stmt.isWhole_of_decodeKind (Role.decode_slot .kind mode (by decide) ha)
    · rw [hf.field_eq (.tail _ (.head _))]
      rw [Fields.getOption_eq_value_iff] at hlocation
      -- a location that is left out is `null`, and any other is an object or an array
      cases hslot : r.slot "location" with
      | object members closed =>
        rw [hslot] at hlocation
        obtain ⟨_, hl, -⟩ := map_eq_ok_iff.mp hlocation
        exact Location.hasKeys_of_decode hl
      | _ => trivial

theorem Program.legible_of_decode {p : Program} (h : Program.decode mode n f = .ok p) :
    Program.Legible f := by
  cases n with
  | zero => cases h
  | succ n =>
    rw [Program.decode] at h
    obtain ⟨hkeys, r, hr, hf⟩ := Decoder.exists_spells_of_record h
    obtain ⟨ss, hss, -⟩ := Placed.map_eq_value_iff.mp hr
    refine ⟨hkeys, ?_⟩
    rw [hf.field_eq (.head _)]
    have hlist := Role.decode_slot .statements mode (by decide) hss
    cases n with
    | zero => cases hlist
    | succ n =>
      rw [Role.decode, Stmt.decodeAll] at hlist
      intro g hg
      obtain ⟨s, hs⟩ := Decoder.exists_of_mem_inner hlist g hg
      exact Stmt.legible_of_decode hs

end Legible

namespace Role

/-- What nobody reads is no obstacle to the reader of a fragment with this role. -/
def Legible : Role → Fragment → Prop
  | program, f => Program.Legible f
  | statements, f => ∀ g ∈ f.inner, Stmt.Legible g
  | statement, f => Stmt.Legible f
  | kind, f | expression, f => f.IsWhole
  | location, f => f.HasKeys
  | _, _ => True

/-- A whole value is legible, whatever it is read as. -/
theorem legible_of_isWhole {f : Fragment} (role : Role) (h : f.IsWhole) : role.Legible f := by
  cases role with
  | program => exact ⟨h.hasKeys, fun g hg => Stmt.legible_of_isWhole ((h.field _ _).inner g hg)⟩
  | statements => exact fun g hg => Stmt.legible_of_isWhole (h.inner g hg)
  | statement => exact Stmt.legible_of_isWhole h
  | kind | expression => exact h
  | location => exact h.hasKeys
  | _ => trivial

/-- What stands for a field of a legible node is legible. -/
theorem legible_slot {role : Role} {shape : Shape} {f : Fragment} {tag : Option Fragment}
    {slot : String → Fragment} {name : String} (hshape : role.shape? f = some shape)
    (htag : tag.isSome = shape.variant.isSome) (hf : f.Spells tag shape.fields slot)
    (h : role.Legible f) (hname : name ∈ shape.fields) :
    (ofField name).Legible (slot name) := by
  cases role with
  | program =>
    cases hshape
    obtain rfl : tag = none := by simpa using htag
    rw [← hf.field_eq hname]
    obtain rfl := List.mem_singleton.mp hname
    exact h.statements
  | statement =>
    cases hshape
    obtain rfl : tag = none := by simpa using htag
    rw [← hf.field_eq hname]
    rcases List.mem_pair.mp hname with rfl | rfl
    · exact h.kind
    · exact h.location
  | location =>
    cases hshape
    have hfields : ∀ name ∈ Location.form.fields,
        ofField name = string ∨ ofField name = word32 := by decide
    rcases hfields name hname with heq | heq <;> rw [heq] <;> trivial
  | kind | expression => exact legible_of_isWhole _ (hf.isWhole_slot h hname)
  | _ => cases hshape

end Role

/-! ### What is read with other brackets -/

namespace Role

variable {role : Role} {k n : Nat} {f g : Fragment} {name : String} {shape : Shape}

/-- What is read from a fragment is read from another, with other brackets that may be opened. -/
def Keeps (role : Role) (k n : Nat) (f g : Fragment) : Prop :=
  ∀ mode a, role.decode mode k f = .ok a → role.decode mode n g = .ok a

/-- What stands for a field on one side is read as what stands for it on the other. -/
def KeepsField (k n : Nat) (name : String) (f g : Fragment) : Prop :=
  (ofField name).Keeps k n f g ∧ (f = .null ↔ g = .null)

/-- A field is read on the other side. -/
theorem KeepsField.get (role : Role) (mode : Mode) {r r' : Fields} (hname : ofField name = role)
    (hrole : role ≠ .ignored) (h : KeepsField k n name (r.slot name) (r'.slot name)) :
    (r.get name (role.decode mode k)).Keeps (r'.get name (role.decode mode n)) := by
  subst hname
  intro a ha
  rw [Fields.get_eq_value_iff (decode_null_ne_ok hrole mode _ a)] at ha ⊢
  exact h.1 mode a ha

/-- A field that may be left out is read on the other side. -/
theorem KeepsField.getOption (role : Role) (mode : Mode) {r r' : Fields}
    (hname : ofField name = role) (h : KeepsField k n name (r.slot name) (r'.slot name)) :
    (r.getOption name (role.decode mode k)).Keeps (r'.getOption name (role.decode mode n)) := by
  subst hname
  intro x hx
  rw [Fields.getOption_eq_value_iff] at hx ⊢
  by_cases hf : r.slot name = .null
  · rw [hf] at hx
    rw [h.2.mp hf]
    exact hx
  · rw [Decoder.option] at hx
    · obtain ⟨a, ha, rfl⟩ := map_eq_ok_iff.mp hx
      exact Decoder.option_eq_ok (h.1 mode a ha) (h.2.not.mp hf)
    · exact hf

end Role

/-! ### Nodes with other brackets -/

/-!
A decoder of a node differs with the brackets in the decoders of its fields only. So each form is
gone through once, field by field, with nothing said about why the fields are read alike.
-/

section Node

variable {k n : Nat} {f g : Fragment}

namespace Role

theorem keeps_program (hkeys : g.HasKeys)
    (h : Shape.Follows (KeepsField k n) ⟨none, Program.form.fields⟩ f g) :
    Role.program.Keeps (k + 1) (n + 1) f g := by
  intro mode p hp
  rw [decode, Program.decode] at hp ⊢
  refine Decoder.record_of_follows (fun r r' hr => ?_) h hkeys hp
  exact (KeepsField.get .statements mode rfl (by decide) (hr _ (.head _))).map _

theorem keeps_location (hkeys : g.HasKeys)
    (h : Shape.Follows (KeepsField k n) ⟨none, Location.form.fields⟩ f g) :
    Role.location.Keeps (k + 1) (n + 1) f g := by
  intro mode l hl
  rw [decode, Location.decode] at hl ⊢
  refine Decoder.record_of_follows (fun r r' hr => ?_) h hkeys hl
  have hfilename := KeepsField.get .string mode rfl (by decide) (hr _ (.head _))
  have hline := KeepsField.get .word32 mode rfl (by decide) (hr _ (.tail _ (.head _)))
  have hcolumn := KeepsField.get .word32 mode rfl (by decide) (hr _ (.tail _ (.tail _ (.head _))))
  exact ((hfilename.map _).seq hline).seq hcolumn

theorem keeps_statement (hkeys : g.HasKeys)
    (h : Shape.Follows (KeepsField k n) ⟨none, Stmt.form.fields⟩ f g) :
    Role.statement.Keeps (k + 1) (n + 1) f g := by
  intro mode s hs
  rw [decode, Stmt.decode] at hs ⊢
  refine Decoder.record_of_follows (fun r r' hr => ?_) h hkeys hs
  have hkind := KeepsField.get .kind mode rfl (by decide) (hr _ (.head _))
  have hlocation := KeepsField.getOption .location mode rfl (hr _ (.tail _ (.head _)))
  exact (hkind.map _).seq hlocation

end Role

/-- The statement forms, with so many brackets that may be open inside of them. -/
def Action.variantsWithin (n : Nat) : TaggedForm (Action × Expr) :=
  Action.variants (Expr.decode .buffered n)

theorem Action.follows_variantsWithin :
    List.Forall₂ (Variant.Follows (Role.KeepsField k n)) (Action.variantsWithin k).variants
      (Action.variantsWithin n).variants := by
  refine .cons ⟨rfl, rfl, fun r r' h => ?_⟩ (.cons ⟨rfl, rfl, fun r r' h => ?_⟩
    (.cons ⟨rfl, rfl, fun r r' h => ?_⟩ (.cons ⟨rfl, rfl, fun r r' h => ?_⟩ .nil)))
  · have htarget := Role.KeepsField.get .string .buffered rfl (by decide) (h _ (.head _))
    have he := Role.KeepsField.get .expression .buffered rfl (by decide) (h _ (.tail _ (.head _)))
    exact (htarget.map _).seq he
  · exact (Role.KeepsField.get .expression .buffered rfl (by decide) (h _ (.head _))).map _
  · exact (Role.KeepsField.get .expression .buffered rfl (by decide) (h _ (.head _))).map _
  · have hname := Role.KeepsField.get .string .buffered rfl (by decide) (h _ (.head _))
    have he := Role.KeepsField.get .expression .buffered rfl (by decide) (h _ (.tail _ (.head _)))
    exact (hname.map _).seq he

/-- A variant that holds one string. -/
theorem Expr.follows_string {name field : String} {make : String → Expr}
    (hfield : Role.ofField field = .string) :
    Variant.Follows (Role.KeepsField k n) ⟨name, [field], fun r => make <$> r.get field .string⟩
      ⟨name, [field], fun r => make <$> r.get field .string⟩ :=
  ⟨rfl, rfl, fun _ _ h =>
    (Role.KeepsField.get .string .buffered hfield (by decide) (h _ (.head _))).map _⟩

theorem Expr.follows_variantsWithin :
    List.Forall₂ (Variant.Follows (Role.KeepsField k n)) (Expr.variantsWithin k).variants
      (Expr.variantsWithin n).variants := by
  refine .cons (Expr.follows_string rfl) (.cons ⟨rfl, rfl, fun r r' h => ?_⟩
    (.cons ⟨rfl, rfl, fun r r' h => ?_⟩ (.cons ⟨rfl, rfl, fun r r' h => ?_⟩
    (.cons ⟨rfl, rfl, fun r r' h => ?_⟩ (.cons ⟨rfl, rfl, fun r r' h => ?_⟩
    (.cons (Expr.follows_string rfl) (.cons ⟨rfl, rfl, fun r r' h => ?_⟩
    (.cons (Expr.follows_string rfl) (.cons (Expr.follows_string rfl)
    (.cons (Expr.follows_string rfl) .nil))))))))))
  · have hcallee := Role.KeepsField.get .expression .buffered rfl (by decide) (h _ (.head _))
    have hcount := Role.KeepsField.get .word64 .buffered rfl (by decide) (h _ (.tail _ (.head _)))
    exact (hcallee.map _).seq hcount
  · have hcondition := Role.KeepsField.get .expression .buffered rfl (by decide) (h _ (.head _))
    have hthen :=
      Role.KeepsField.get .statements .buffered rfl (by decide) (h _ (.tail _ (.head _)))
    have helse :=
      Role.KeepsField.get .statements .buffered rfl (by decide) (h _ (.tail _ (.tail _ (.head _))))
    exact ((hcondition.map _).seq hthen).seq helse
  · exact (Role.KeepsField.get .int64 .buffered rfl (by decide) (h _ (.head _))).map _
  · have hname := Role.KeepsField.getOption .string .buffered rfl (h _ (.head _))
    have hformals := Role.KeepsField.get .names .buffered rfl (by decide) (h _ (.tail _ (.head _)))
    have hbody :=
      Role.KeepsField.get .statements .buffered rfl (by decide) (h _ (.tail _ (.tail _ (.head _))))
    exact ((hname.map _).seq hformals).seq hbody
  · exact fun e he => he
  · exact (Role.KeepsField.get .word64 .buffered rfl (by decide) (h _ (.head _))).map _

namespace Role

/-- What stands for the fields of a node is read alike on both sides. -/
def Follows (role : Role) (k n : Nat) (f g : Fragment) : Prop :=
  ∀ shape, role.shape? f = some shape → shape.Follows (KeepsField k n) f g

theorem keeps_kind (h : Role.kind.Follows k n f g) (hwhole : g.IsWhole)
    (hfits : g.fitsIn (n + 1) = true) : Role.kind.Keeps (k + 1) (n + 1) f g := by
  intro mode a ha
  rw [decode, Stmt.decodeKind] at ha ⊢
  exact Decoder.tagged_of_follows Action.follows_variantsWithin (Action.wellFormed_variants _)
    (Action.wellFormed_variants _) (fun v hv => h _ (TaggedForm.shape?_of_variantOf hv rfl))
    hwhole hfits ha

theorem keeps_expression (h : Role.expression.Follows k n f g) (hwhole : g.IsWhole)
    (hfits : g.fitsIn (n + 1) = true) : Role.expression.Keeps (k + 1) (n + 1) f g := by
  intro mode a ha
  rw [decode, Expr.decode] at ha ⊢
  exact Decoder.tagged_of_follows Expr.follows_variantsWithin (Expr.wellFormed_variants _ _ _)
    (Expr.wellFormed_variants _ _ _) (fun v hv => h _ (TaggedForm.shape?_of_variantOf hv rfl))
    hwhole hfits ha

/-- A node is read, if its fields are read alike and it is legible. -/
theorem keeps_of_follows {role : Role} (hrole : role.isNode = true) (hlegible : role.Legible g)
    (hfits : g.fitsIn (n + 1) = true) (h : role.Follows k n f g) :
    role.Keeps (k + 1) (n + 1) f g := by
  cases role with
  | program => exact keeps_program hlegible.keys (h _ rfl)
  | statement => exact keeps_statement hlegible.keys (h _ rfl)
  | location => exact keeps_location hlegible (h _ rfl)
  | kind => exact keeps_kind h hlegible hfits
  | expression => exact keeps_expression h hlegible hfits
  | _ => cases hrole

/-- A node that is read is an object or an array, and brackets may be opened. -/
theorem exists_of_decode {role : Role} {mode : Mode} {a : role.Value} (hrole : role.isNode = true)
    (h : role.decode mode k f = .ok a) : (∃ m, k = m + 1) ∧ f.isBracketed = true := by
  cases k with
  | zero => cases role <;> cases hrole <;> cases h
  | succ k =>
    refine ⟨⟨k, rfl⟩, ?_⟩
    cases f with
    | array | object => rfl
    | _ => cases role <;> cases hrole <;> cases h

/-- A node can be taken to be inside of brackets, on both sides. -/
theorem keeps_of_succ {role : Role} (hrole : role.isNode = true)
    (hbracketed : f.isBracketed = true → g.isBracketed = true) (hfits : g.fitsIn n = true)
    (h : ∀ k' n', k = k' + 1 → n = n' + 1 → role.Keeps k n f g) : role.Keeps k n f g := by
  intro mode a ha
  obtain ⟨⟨k', hk⟩, hf⟩ := exists_of_decode hrole ha
  obtain ⟨n', hn⟩ := Fragment.exists_of_isBracketed (hbracketed hf) hfits
  exact h k' n' hk hn mode a ha

/-- Statements are read, if each of them is. -/
theorem keeps_statements {fs gs : List Fragment}
    (h : List.Forall₂ (Role.statement.Keeps k n) fs gs) (closed : Bool) :
    Role.statements.Keeps (k + 1) (n + 1) (.array fs closed) (.array gs closed) := by
  intro mode ss hss
  rw [decode, Stmt.decodeAll] at hss ⊢
  exact Decoder.list_of_forall₂ (h.imp fun f g hfg => hfg mode) hss

/-- Names are read with as many brackets as they have. -/
theorem keeps_names (hfits : f.fitsIn n = true) : Role.names.Keeps k n f f := by
  intro mode names hnames
  cases k with
  | zero => cases hnames
  | succ k =>
    cases f with
    | array fs closed =>
      obtain ⟨m, rfl, -⟩ := Fragment.fitsIn_array.mp hfits
      exact hnames
    | _ => cases hnames

end Role

end Node

end StackLowering
