import StackLowering.Proofs.NodeRoles
import Mathlib.Logic.Relation

/-!
# Other spellings of a tree

Every node of a tree can be spelled in another way, in a document that was changed elsewhere before.
The tree that is read stays the same, as long as one is read: a member that nobody reads may be
added with any value, and a document in which that is an obstacle to the reader is refused. So a
document that is spelled in another way is read exactly when it is legible.

Changes are followed from a number of brackets to another, for a document that is spelled in another
way may need more of them or fewer. So the documents between the first and the last one may need
more brackets than the reader opens, and need not be legible.

## Main definitions

* `Change`, `Changes` — another spelling of one node, anywhere in a document, and of any number
* `Respelled` — a text whose document comes from another one's by changes

## Main results

* `Change.follows`, `Changes.exists_spells` — one change leaves what stands for the fields of a node
  up to changes, and so does any number
* `keeps_of_changes` — any number of changes leaves what is read, if the last document is legible
* `respelled_read` — a text that is spelled in another way is read exactly when its document is
  legible, and then as the same program
-/

namespace StackLowering

open Json

/-! ### Changes -/

/-- Another spelling of one node of a document, anywhere inside of it. -/
inductive Change : Role → Fragment → Fragment → Prop
  /-- The node itself is spelled in another way. -/
  | node {role : Role} {shape : Shape} {f g : Fragment} (hshape : role.shape? f = some shape)
    (h : shape.Respells f g) : Change role f g
  /-- What stands under the name of a field is changed. -/
  | member {role : Role} {shape : Shape} {ms ms' : List (Option String × Fragment)}
    {name : String} {f g : Fragment}
    (hshape : role.shape? (.object (ms ++ (some name, f) :: ms') true) = some shape)
    (hname : name ∈ shape.fields) (h : Change (.ofField name) f g) :
    Change role (.object (ms ++ (some name, f) :: ms') true)
      (.object (ms ++ (some name, g) :: ms') true)
  /-- What stands in the place of a field is changed. -/
  | place {role : Role} {shape : Shape} {tag : Option Fragment} {before after : List Fragment}
    {name : String} {f g : Fragment}
    (hshape : role.shape? (.array (tag.toList ++ before ++ f :: after) true) = some shape)
    (htag : tag.isSome = shape.variant.isSome) (hname : shape.fields[before.length]? = some name)
    (h : Change (.ofField name) f g) :
    Change role (.array (tag.toList ++ before ++ f :: after) true)
      (.array (tag.toList ++ before ++ g :: after) true)
  /-- One of several statements is changed. -/
  | statement {before after : List Fragment} {f g : Fragment} (h : Change .statement f g) :
    Change .statements (.array (before ++ f :: after) true) (.array (before ++ g :: after) true)

/-- Other spellings of any number of nodes, one after another. -/
abbrev Changes (role : Role) : Fragment → Fragment → Prop := Relation.ReflTransGen (Change role)

/-! ### One change -/

namespace Change

variable {role : Role} {shape : Shape} {f g : Fragment}

theorem isBracketed (h : Change role f g) : f.isBracketed = true ∧ g.isBracketed = true := by
  cases h with
  | node _ h => cases h <;> exact ⟨rfl, rfl⟩
  | _ => exact ⟨rfl, rfl⟩

/-- Only nodes and lists of statements can be changed. -/
theorem isNode_or_statements (h : Change role f g) : role.isNode = true ∨ role = .statements := by
  cases h with
  | node hshape | member hshape | place hshape => exact .inl (Role.isNode_of_shape? hshape)
  | statement => exact .inr rfl

/-- What stands for one field is changed, and nothing for the other fields. -/
theorem update {slot : String → Fragment} {name : String} (h : Change (.ofField name) f g)
    (hslot : slot name = f) (name' : String) :
    Changes (.ofField name') (slot name') (Function.update slot name g name') := by
  by_cases heq : name' = name
  · subst heq
    rw [Function.update_self, hslot]
    exact .single h
  · rw [Function.update_of_ne heq]

/-- One change leaves what stands for the fields of a node up to a change. -/
theorem follows (h : Change role f g) (hshape : role.shape? f = some shape) :
    shape.Follows (fun name => Changes (.ofField name)) f g := by
  intro tag slot htag hf
  obtain ⟨hnodup, hfields⟩ := Role.fields_of_shape? hshape
  cases h with
  | node hshape' h =>
    cases hshape.symm.trans hshape'
    obtain ⟨tag', htag', hg⟩ := h.spells hfields htag hf
    exact ⟨tag', slot, htag', hg, fun _ _ => .refl⟩
  | member hshape' hname h =>
    cases hshape.symm.trans hshape'
    obtain ⟨hslot, hg⟩ := hf.replaceMember hfields hname
    exact ⟨tag, _, .inl rfl, hg, fun name _ => h.update hslot name⟩
  | place hshape' htag' hname h =>
    cases hshape.symm.trans hshape'
    obtain ⟨hslot, hg⟩ := hf.replaceItem (htag.trans htag'.symm) hnodup hname
    exact ⟨tag, _, .inl rfl, hg, fun name _ => h.update hslot name⟩
  | statement => cases hshape

end Change

/-! ### Any number of changes -/

namespace Changes

variable {role : Role} {shape : Shape} {f g : Fragment}

theorem eq_or_isBracketed (h : Changes role f g) :
    f = g ∨ f.isBracketed = true ∧ g.isBracketed = true := by
  induction h with
  | refl => exact .inl rfl
  | tail _ hchange ih =>
    rcases ih with rfl | ⟨hf, -⟩
    · exact .inr hchange.isBracketed
    · exact .inr ⟨hf, hchange.isBracketed.2⟩

theorem isBracketed_of_isBracketed (h : Changes role f g) (hf : f.isBracketed = true) :
    g.isBracketed = true := by
  rcases h.eq_or_isBracketed with rfl | ⟨-, hg⟩
  · exact hf
  · exact hg

theorem eq_null_iff (h : Changes role f g) : f = .null ↔ g = .null := by
  rcases h.eq_or_isBracketed with rfl | ⟨hf, hg⟩
  · rfl
  · constructor <;> rintro rfl
    · cases hf
    · cases hg

/-- What is neither a node nor a list of statements is not changed. -/
theorem eq_of_not_isNode (h : Changes role f g) (hrole : ¬role.isNode = true)
    (hrole' : role ≠ .statements) : f = g := by
  cases h.cases_head with
  | inl heq => exact heq
  | inr hchange =>
    obtain ⟨_, hchange, -⟩ := hchange
    exact (hchange.isNode_or_statements.elim hrole hrole').elim

/-- Any number of changes leaves the shape of a node, and what stands for its fields up to
changes. -/
theorem exists_spells {tag : Option Fragment} {slot : String → Fragment} (h : Changes role f g)
    (hshape : role.shape? f = some shape) (htag : tag.isSome = shape.variant.isSome)
    (hf : f.Spells tag shape.fields slot) :
    ∃ tag' slot', role.shape? g = some shape ∧ (tag' = tag ∨ tag' = shape.tag?) ∧
      g.Spells tag' shape.fields slot' ∧
      ∀ name ∈ shape.fields, Changes (.ofField name) (slot name) (slot' name) := by
  induction h with
  | refl => exact ⟨tag, slot, hshape, .inl rfl, hf, fun _ _ => .refl⟩
  | tail _ hchange ih =>
    obtain ⟨tag₁, slot₁, hshape₁, htag₁, hf₁, hslots₁⟩ := ih
    have hsome := Shape.isSome_tag htag₁ htag
    obtain ⟨tag₂, slot₂, htag₂, hg, hslots₂⟩ := hchange.follows hshape₁ tag₁ slot₁ hsome hf₁
    exact ⟨tag₂, slot₂, Role.shape?_of_spells hshape₁ hsome hf₁ htag₂ hg,
      htag₂.elim (fun h => h ▸ htag₁) .inr, hg,
      fun name hname => (hslots₁ name hname).trans (hslots₂ name hname)⟩

theorem forall₂_refl (fs : List Fragment) : List.Forall₂ (Changes role) fs fs :=
  List.forall₂_same.mpr fun _ _ => .refl

/-- Changes of a list of statements are changes of its statements. -/
theorem forall₂_statement {fs : List Fragment} {closed : Bool}
    (h : Changes .statements (.array fs closed) g) :
    ∃ gs, g = .array gs closed ∧ List.Forall₂ (Changes .statement) fs gs := by
  induction h with
  | refl => exact ⟨fs, rfl, forall₂_refl fs⟩
  | tail _ hchange ih =>
    obtain ⟨gs, rfl, hgs⟩ := ih
    cases hchange with
    | node hshape | place hshape => cases hshape
    | @statement before after f g h =>
      have hitems := List.rel_append (forall₂_refl before) (.cons (.single h) (forall₂_refl after))
      exact ⟨_, rfl, forall₂_trans (fun _ _ _ => .trans) hgs hitems⟩

end Changes

/-- Statements are read, if each of them is read after its changes. -/
theorem Changes.keeps_statements {k n : Nat} {f g : Fragment} (h : Changes .statements f g)
    (hfits : g.fitsIn n = true) (hlegible : Role.statements.Legible g)
    (hitem : ∀ k m f g, n = m + 1 → Changes .statement f g → g.fitsIn m = true →
      Stmt.Legible g → Role.statement.Keeps k m f g) : Role.statements.Keeps k n f g := by
  intro mode ss hss
  cases k with
  | zero => cases hss
  | succ k =>
    cases f with
    | array fs closed =>
      obtain ⟨gs, rfl, hfgs⟩ := h.forall₂_statement
      obtain ⟨m, rfl, hitems⟩ := Fragment.fitsIn_array.mp hfits
      have hread : ∀ g ∈ gs, g.fitsIn m = true ∧ Stmt.Legible g := fun g hg =>
        ⟨hitems g hg, hlegible g hg⟩
      have hkeeps : List.Forall₂ (flip (Role.statement.Keeps k m)) gs fs :=
        ((List.forall₂_and_left gs fs).mpr ⟨hread, hfgs.flip⟩).imp fun g f hgf =>
          hitem k m f g rfl hgf.2 hgf.1.1 hgf.1.2
      exact Role.keeps_statements hkeeps.flip closed mode ss hss
    | _ => cases hss

/-- Any number of changes leaves what is read, with brackets for the last document only, if that is
legible. -/
theorem keeps_of_changes {role : Role} {k n : Nat} {f g : Fragment} (h : Changes role f g)
    (hfits : g.fitsIn n = true) (hlegible : role.Legible g) : role.Keeps k n f g := by
  -- on the brackets of the last document: what stands inside of one needs fewer
  induction n using Nat.strongRecOn generalizing role k f g with
  | ind n ih =>
    by_cases hrole : role.isNode = true
    · refine Role.keeps_of_succ hrole h.isBracketed_of_isBracketed hfits fun k' n' hk hn => ?_
      subst hk hn
      refine Role.keeps_of_follows hrole hlegible hfits fun shape hshape tag slot htag hf => ?_
      obtain ⟨tag', slot', hshape', htag', hg, hslots⟩ := h.exists_spells hshape htag hf
      refine ⟨tag', slot', htag', hg, fun name hname => ⟨?_, (hslots name hname).eq_null_iff⟩⟩
      exact ih n' n'.lt_succ_self (hslots name hname) (hg.fitsIn_slot hfits hname)
        (Role.legible_slot hshape' (Shape.isSome_tag htag' htag) hg hlegible hname)
    · cases role with
      | statements =>
        refine h.keeps_statements hfits hlegible fun k m f g hm h => ?_
        subst hm
        exact ih m m.lt_succ_self h
      | names =>
        obtain rfl := h.eq_of_not_isNode hrole (by decide)
        exact Role.keeps_names hfits
      | string | int64 | word32 | word64 | ignored =>
        obtain rfl := h.eq_of_not_isNode hrole (by decide)
        exact fun _ _ ha => ha
      | _ => exact absurd rfl hrole

/-! ### Texts -/

/-- The document of the second text comes from that of the first by changes of the spelling, of any
number and at any nodes. -/
def Respelled (text text' : String) : Prop :=
  (Fragment.ofText text').2 = true ∧
    Changes .program (Fragment.ofText text).1 (Fragment.ofText text').1

/-- **Spellings do not matter**: a text that is spelled in another way, with no more brackets open
at once than may be opened, is read exactly when its document is legible, and then as the same
program. -/
theorem respelled_read {text text' : String} {p : Program} (hp : Program.ofText text = .ok p)
    (h : Respelled text text') (hfits : (Fragment.ofText text').1.fitsIn maxNesting = true)
    (q : Program) :
    Program.ofText text' = .ok q ↔ q = p ∧ Program.Legible (Fragment.ofText text').1 := by
  obtain ⟨hend, hchanges⟩ := h
  obtain ⟨-, hread⟩ := readText_eq_ok_iff.mp hp
  have hlegibly (hlegible : Program.Legible (Fragment.ofText text').1) :
      Program.ofText text' = .ok p := by
    have hkeeps : Role.program.Keeps maxNesting maxNesting _ _ :=
      keeps_of_changes hchanges hfits hlegible
    exact readText_eq_ok_iff.mpr ⟨hend, hkeeps .streamed p hread⟩
  constructor
  · intro hq
    have hlegible := Program.legible_of_decode (readText_eq_ok_iff.mp hq).2
    exact ⟨Except.ok.inj (hq.symm.trans (hlegibly hlegible)), hlegible⟩
  · rintro ⟨rfl, hlegible⟩
    exact hlegibly hlegible

/-! ### A program in other spellings -/

namespace Change

variable {f g : Fragment}

theorem ofKind (h : Change .kind f g) :
    Change .statement (.object [(some "kind", f)] true) (.object [(some "kind", g)] true) :=
  @member .statement _ [] [] "kind" _ _ rfl (.head _) h

theorem ofStatement (h : Change .statement f g) :
    Change .program (.object [(some "statements", .array [f] true)] true)
      (.object [(some "statements", .array [g] true)] true) :=
  @member .program _ [] [] "statements" _ _ rfl (.head _) (@statement [] [] f g h)

end Change

/-- A program that pushes an empty list. -/
def pushedList : Program := ⟨[.mk .push .list none]⟩

theorem ofText_pushedList : Fragment.ofText pushedList.toDocument.compress
    = (pushedList.toDocument.fragment, true) :=
  (Program.storable pushedList).ofText_compress

/-- The program in another spelling: with a number out of range in a member that nobody reads, with
the statement and the list as arrays, and with the tag of the statement form behind its
expression. -/
def pushedListRespelled : String :=
  "\x7b\"note\":1e999,\"statements\":[[\x7b\"expression\":[\"ListConstruct\"]," ++
    "\"type\":\"PushStatement\"\x7d,null]]\x7d"

theorem ofText_pushedListRespelled : Fragment.ofText pushedListRespelled =
    (.object [(some "note", .number none), (some "statements", .array [.array [.object
      [(some "expression", .array [.string (some "ListConstruct")] true),
        (some "type", .string (some "PushStatement"))] true, .null] true] true)] true, true) := by
  have htokens : tokens pushedListRespelled.toList =
      [.openObject, .string (some "note"), .colon, .number none, .comma,
        .string (some "statements"), .colon, .openArray, .openArray, .openObject,
        .string (some "expression"), .colon, .openArray, .string (some "ListConstruct"),
        .closeArray, .comma, .string (some "type"), .colon, .string (some "PushStatement"),
        .closeObject, .comma, .null, .closeArray, .closeArray, .closeObject] := by
    decide +kernel
  rw [Fragment.ofText, htokens]
  rfl

theorem respelled_pushedListRespelled :
    Respelled pushedList.toDocument.compress pushedListRespelled := by
  rw [Respelled, ofText_pushedList, ofText_pushedListRespelled]
  have hlist : Change .expression
      (.object [(some "type", .string (some "ListConstruct"))] true)
      (.array [.string (some "ListConstruct")] true) :=
    @Change.node .expression ⟨some "ListConstruct", []⟩ _ _ rfl .positional
  have hkind : Change .kind _ _ := @Change.member .kind ⟨some "PushStatement", ["expression"]⟩
    [(some "type", .string (some "PushStatement"))] [] "expression" _ _ rfl (.head _) hlist
  have hreorder (f : Fragment) : Change .kind
      (.object [(some "type", .string (some "PushStatement")), (some "expression", f)] true)
      (.object [(some "expression", f), (some "type", .string (some "PushStatement"))] true) :=
    @Change.node .kind ⟨some "PushStatement", ["expression"]⟩ _ _ rfl (.reorder (.swap _ _ _))
  have hpositional (f : Fragment) :
      Change .statement (.object [(some "kind", f)] true) (.array [f, .null] true) :=
    @Change.node .statement _ _ _ rfl .positional
  have hnote (f : Fragment) : Change .program (.object [(some "statements", f)] true)
      (.object [(some "note", .number none), (some "statements", f)] true) :=
    @Change.node .program _ _ _ rfl
      (@Shape.Respells.add _ [] _ (some "note") _ ⟨by decide, by decide⟩)
  exact ⟨rfl, .tail (.tail (.tail (.single hkind.ofKind.ofStatement)
    (hreorder _).ofKind.ofStatement) (hpositional _).ofStatement) (hnote _)⟩

/-- The two spellings are read alike. -/
theorem pushedList_respelled : Program.ofText pushedList.toDocument.compress = .ok pushedList ∧
    Respelled pushedList.toDocument.compress pushedListRespelled ∧
    (Fragment.ofText pushedListRespelled).1.fitsIn maxNesting = true ∧
    Program.ofText pushedListRespelled = .ok pushedList := by
  have hp := Program.roundTrips.read pushedList (by decide)
  have h := respelled_pushedListRespelled
  have hfits : (Fragment.ofText pushedListRespelled).1.fitsIn maxNesting = true := by
    rw [ofText_pushedListRespelled]
    decide
  have hlegible : Program.Legible (Fragment.ofText pushedListRespelled).1 := by
    rw [ofText_pushedListRespelled]
    refine ⟨by simp [Fragment.HasKeys], List.forall_mem_singleton.mpr ⟨trivial, ?_, trivial⟩⟩
    exact ⟨2, rfl⟩
  exact ⟨hp, h, hfits, (respelled_read hp h hfits pushedList).mpr ⟨rfl, hlegible⟩⟩

/-- The program with the same member in its statement form. -/
def pushedListNoted : String :=
  "\x7b\"statements\":[\x7b\"kind\":\x7b\"type\":\"PushStatement\",\"expression\":" ++
    "\x7b\"type\":\"ListConstruct\"\x7d,\"note\":1e999\x7d\x7d]\x7d"

theorem ofText_pushedListNoted : Fragment.ofText pushedListNoted =
    (.object [(some "statements", .array [.object [(some "kind", .object
      [(some "type", .string (some "PushStatement")),
        (some "expression", .object [(some "type", .string (some "ListConstruct"))] true),
        (some "note", .number none)] true)] true] true)] true, true) := by
  have htokens : tokens pushedListNoted.toList =
      [.openObject, .string (some "statements"), .colon, .openArray, .openObject,
        .string (some "kind"), .colon, .openObject, .string (some "type"), .colon,
        .string (some "PushStatement"), .comma, .string (some "expression"), .colon, .openObject,
        .string (some "type"), .colon, .string (some "ListConstruct"), .closeObject, .comma,
        .string (some "note"), .colon, .number none, .closeObject, .closeObject, .closeArray,
        .closeObject] := by
    decide +kernel
  rw [Fragment.ofText, htokens]
  rfl

/-- A member that nobody reads is kept in memory with the statement form that it is added to, and a
number that is out of range cannot be kept. -/
theorem pushedListNoted_refused :
    Program.ofText pushedList.toDocument.compress = .ok pushedList ∧
    Respelled pushedList.toDocument.compress pushedListNoted ∧
    (Fragment.ofText pushedListNoted).1.fitsIn maxNesting = true ∧
    Program.ofText pushedListNoted = .error .malformed := by
  have hnote : Change .kind _ _ := @Change.node .kind ⟨some "PushStatement", ["expression"]⟩ _ _ rfl
    (@Shape.Respells.add _ [(some "type", .string (some "PushStatement")),
      (some "expression", .object [(some "type", .string (some "ListConstruct"))] true)] []
      (some "note") (.number none) ⟨by decide, by decide⟩)
  refine ⟨Program.roundTrips.read pushedList (by decide), ?_, ?_, ?_⟩
  · rw [Respelled, ofText_pushedList, ofText_pushedListNoted]
    exact ⟨rfl, .single hnote.ofKind.ofStatement⟩
  · rw [ofText_pushedListNoted]
    decide
  · rw [Program.ofText, readText, ofText_pushedListNoted]
    rfl

end StackLowering
