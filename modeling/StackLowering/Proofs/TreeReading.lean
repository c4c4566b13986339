import StackLowering.Proofs.RecordReading
import StackLowering.Tree.Reader
import StackLowering.Tree.Writer

/-!
# Reading trees back

The canonical document of a tree is read back to the tree, provided that the brackets that are
open at once in its text may be opened. Conversely whatever text a tree is read from, in whatever
spelling, the canonical document of the tree needs no more brackets than the reader may open.

## Main definitions

* `Faithful` — the canonical document of a value is read back
* `Within` — the canonical document of what a decoder gives needs no more than so many brackets
* `RoundTrips` — the texts of a type are read back

## Main results

* `Expr.faithful`, `Stmt.faithful` — trees are read back from their documents
* `within` — what is read needs no more brackets than may be opened
* `texts_round_trip` — the texts of programs, statements, expressions and locations
-/

namespace StackLowering

open Json

open Document (fragmentsOfMembers nestingOfMembers)

variable {α : Type}

/-! ### Numbers of a tree -/

theorem Location.storable (l : Location) : l.toDocument.Storable := by
  have hword : UInt32.size < NumberLiteral.wordSize := by decide
  have hline := Document.storable_ofNat (Nat.lt_trans l.line.toNat_lt_size hword)
  have hcolumn := Document.storable_ofNat (Nat.lt_trans l.column.toNat_lt_size hword)
  exact .object (List.forall_mem_cons.mpr ⟨.string _, List.forall_mem_cons.mpr
    ⟨hline, List.forall_mem_singleton.mpr hcolumn⟩⟩)

mutual

theorem Expr.storable : ∀ e : Expr, e.toDocument.Storable
  | .builtin _ | .string _ | .symbol _ | .symbolLiteral _ | .variable _ =>
    Document.storable_tagged (List.forall_mem_singleton.mpr (.string _))
  | .list => Document.storable_tagged (List.forall_mem_nil _)
  | .integer value =>
    have hhigh : value.toInt < NumberLiteral.wordSize := Int.lt_trans value.toInt_lt (by decide)
    Document.storable_tagged (List.forall_mem_singleton.mpr (.integer value.le_toInt hhigh))
  | .record fieldCount =>
    Document.storable_tagged
      (List.forall_mem_singleton.mpr (Document.storable_ofNat fieldCount.toNat_lt))
  | .call callee argumentCount =>
    Document.storable_tagged (List.forall_mem_cons.mpr
      ⟨callee.storable,
        List.forall_mem_singleton.mpr (Document.storable_ofNat argumentCount.toNat_lt)⟩)
  | .ifElse condition thenArm elseArm =>
    Document.storable_tagged (List.forall_mem_cons.mpr
      ⟨condition.storable, List.forall_mem_cons.mpr
        ⟨.array (Stmt.storable_toDocuments thenArm),
          List.forall_mem_singleton.mpr (.array (Stmt.storable_toDocuments elseArm))⟩⟩)
  | .lambda name formals body => by
    have hname : (match name with
        | some name => Document.string name
        | none => Document.null).Storable := by
      cases name <;> constructor
    have hformals : (Document.array (formals.map .string)).Storable :=
      .array (List.forall_mem_map.mpr fun s _ => .string s)
    exact Document.storable_tagged (List.forall_mem_cons.mpr
      ⟨hname, List.forall_mem_cons.mpr
        ⟨hformals, List.forall_mem_singleton.mpr (.array (Stmt.storable_toDocuments body))⟩⟩)

theorem Stmt.storable : ∀ s : Stmt, s.toDocument.Storable
  | .mk action expression location => by
    have hfields : ∀ m ∈ action.toFields, m.2.Storable := by
      cases action <;> simp [Action.toFields, Document.Storable.string]
    have hkind : (Document.tagged action.shape
        (action.toFields ++ [("expression", expression.toDocument)])).Storable :=
      Document.storable_tagged (List.forall_mem_append.mpr
        ⟨hfields, List.forall_mem_singleton.mpr expression.storable⟩)
    refine .object (List.forall_mem_cons.mpr ⟨hkind, ?_⟩)
    cases location with
    | none => exact List.forall_mem_nil _
    | some l => exact List.forall_mem_singleton.mpr l.storable

theorem Stmt.storable_toDocuments : ∀ ss : List Stmt, ∀ d ∈ Stmt.toDocuments ss, d.Storable
  | [] => List.forall_mem_nil _
  | s :: ss => List.forall_mem_cons.mpr ⟨s.storable, Stmt.storable_toDocuments ss⟩

end

theorem Program.storable (p : Program) : p.toDocument.Storable :=
  .object (List.forall_mem_singleton.mpr (.array (Stmt.storable_toDocuments p.statements)))

/-! ### Trees are read back -/

/-- The canonical document of a value is read back, if as many brackets may be opened as are open
at once in it. -/
def Faithful (decode : Mode → Nat → Decoder α) (toDocument : α → Document) (a : α) : Prop :=
  ∀ mode n, (toDocument a).nesting ≤ n → decode mode n (toDocument a).fragment = .ok a

theorem Location.faithful (l : Location) : Faithful Location.decode Location.toDocument l := by
  intro mode n h
  obtain ⟨n, rfl, -⟩ := Document.exists_of_nesting_object_le h
  rw [Location.decode]
  refine Decoder.record_object rfl (by simp) fun r hr => ?_
  rw [hr.get (.head _) (Decoder.string_fragment l.filename),
    hr.get (.tail _ (.head _)) (Decoder.word32_fragment l.line),
    hr.get (.tail _ (.tail _ (.head _))) (Decoder.word32_fragment l.column)]
  rfl

/-- The canonical document of a list of statements. -/
def Stmt.listToDocument (ss : List Stmt) : Document := .array (Stmt.toDocuments ss)

theorem Stmt.listToDocument_eq_map (ss : List Stmt) :
    Stmt.listToDocument ss = .array (ss.map Stmt.toDocument) := by
  rw [Stmt.listToDocument]
  congr 1
  induction ss with
  | nil => rfl
  | cons s ss ih => rw [Stmt.toDocuments, ih, List.map_cons]

/-- A list of statements is read back, if its statements are. -/
theorem Stmt.faithful_decodeAll {ss : List Stmt}
    (h : ∀ s ∈ ss, Faithful Stmt.decode Stmt.toDocument s) :
    Faithful Stmt.decodeAll Stmt.listToDocument ss := by
  intro mode n hle
  rw [Stmt.listToDocument_eq_map] at hle
  obtain ⟨n, rfl, hn⟩ := Document.exists_of_nesting_array_le hle
  rw [Stmt.decodeAll, Stmt.listToDocument_eq_map]
  exact Decoder.list_fragment fun s hs => h s hs mode n (hn _ (List.mem_map_of_mem hs))

theorem faithful_strings (names : List String) :
    Faithful (fun _ => Decoder.strings) (fun names => .array (names.map .string)) names := by
  intro mode n hle
  obtain ⟨n, rfl, -⟩ := Document.exists_of_nesting_array_le hle
  exact Decoder.list_fragment fun s _ => Decoder.string_fragment s

/-- The decoder of expressions inside of which so many brackets may be open. -/
def Expr.variantsWithin (n : Nat) : TaggedForm Expr :=
  Expr.variants (Expr.decode .buffered n) (Stmt.decodeAll .buffered n) (.strings n)

/-- An expression is read back, if its variant reads it from its fields. -/
theorem Expr.faithful_of_variant {e : Expr} {tag : String} {fields : List (String × Document)}
    (hdoc : e.toDocument = .tagged tag fields)
    (hnodup : (TaggedForm.tagName :: fields.map Prod.fst).Nodup)
    (h : ∀ n, (∀ m ∈ fields, m.2.nesting ≤ n) →
      ∃ v, (Expr.variantsWithin n).variants.find? (·.name == tag) = some v ∧
        ∀ r : Fields, r.Holds fields → v.body r = .value e) :
    Faithful Expr.decode Expr.toDocument e := by
  intro mode n hle
  rw [hdoc] at hle
  obtain ⟨n, rfl, hn⟩ := Document.exists_of_nesting_tagged_le hle
  obtain ⟨v, hv, hbody⟩ := h n hn
  rw [Expr.decode]
  exact Decoder.tagged_object hdoc hv hnodup hn hbody

/-- The canonical document of a statement form with its expression. -/
def Action.toDocument (action : Action) (e : Expr) : Document :=
  .tagged action.shape (action.toFields ++ [("expression", e.toDocument)])

/-- The members that the location of a statement has in the canonical document. -/
def Stmt.locationMembers : Option Location → List (String × Document)
  | some l => [("location", l.toDocument)]
  | none => []

theorem Stmt.toDocument_mk (action : Action) (e : Expr) (location : Option Location) :
    (Stmt.mk action e location).toDocument
      = .object (("kind", action.toDocument e) :: Stmt.locationMembers location) := by
  cases location <;> rfl

/-- The form of a statement is read back with its expression, if the expression is. -/
theorem Action.decodeKind_fragment {e : Expr} (he : Faithful Expr.decode Expr.toDocument e)
    (action : Action) (mode : Mode) {n : Nat} (hle : (action.toDocument e).nesting ≤ n) :
    Stmt.decodeKind mode n (action.toDocument e).fragment = .ok (action, e) := by
  obtain ⟨n, rfl, hn⟩ := Document.exists_of_nesting_tagged_le hle
  have hexpression := he .buffered n (hn _ (List.mem_append_right _ (.head _)))
  have hnodup : (TaggedForm.tagName :: (action.toFields
      ++ [("expression", e.toDocument)]).map Prod.fst).Nodup := by
    cases action <;> simp [TaggedForm.tagName, Action.toFields]
  rw [Stmt.decodeKind]
  cases action with
  | assign target =>
    refine Decoder.tagged_object rfl rfl hnodup hn fun r hr => ?_
    have htarget := hr.get (.head _) (Decoder.string_fragment target)
    exact Placed.seq_eq_value (Placed.map_eq_value htarget) (hr.get (.tail _ (.head _)) hexpression)
  | discard =>
    refine Decoder.tagged_object rfl rfl hnodup hn fun r hr => ?_
    exact Placed.map_eq_value (hr.get (.head _) hexpression)
  | push =>
    refine Decoder.tagged_object rfl rfl hnodup hn fun r hr => ?_
    exact Placed.map_eq_value (hr.get (.head _) hexpression)
  | declare name =>
    refine Decoder.tagged_object rfl rfl hnodup hn fun r hr => ?_
    have hname := hr.get (.head _) (Decoder.string_fragment name)
    exact Placed.seq_eq_value (Placed.map_eq_value hname) (hr.get (.tail _ (.head _)) hexpression)

/-- A statement is read back, if its expression is. -/
theorem Stmt.faithful_mk {e : Expr} (he : Faithful Expr.decode Expr.toDocument e)
    (action : Action) (location : Option Location) :
    Faithful Stmt.decode Stmt.toDocument (.mk action e location) := by
  intro mode n hle
  rw [Stmt.toDocument_mk] at hle
  obtain ⟨n, rfl, hn⟩ := Document.exists_of_nesting_object_le hle
  have hkind := action.decodeKind_fragment he mode (hn _ (.head _))
  rw [Stmt.decode]
  cases location with
  | none =>
    refine Decoder.record_object rfl (by simp) fun r hr => ?_
    exact Placed.seq_eq_value (Placed.map_eq_value (hr.get (.head _) hkind))
      (hr.getOption_of_not_mem (by simp))
  | some l =>
    have hlocation := l.faithful mode n (hn _ (.tail _ (.head _)))
    refine Decoder.record_object rfl (by simp) fun r hr => ?_
    exact Placed.seq_eq_value (Placed.map_eq_value (hr.get (.head _) hkind))
      (hr.getOption (.tail _ (.head _))
        (Decoder.option_eq_ok hlocation (by simp [Location.toDocument, Document.fragment])))

mutual

theorem Expr.faithful : ∀ e : Expr, Faithful Expr.decode Expr.toDocument e
  | .builtin s | .string s | .symbol s | .symbolLiteral s | .variable s => by
    refine Expr.faithful_of_variant rfl (by simp [TaggedForm.tagName]) fun n _ =>
      ⟨_, rfl, fun r hr => ?_⟩
    exact Placed.map_eq_value (hr.get (.head _) (Decoder.string_fragment s))
  | .list => by
    refine Expr.faithful_of_variant rfl (by simp [TaggedForm.tagName]) fun n _ =>
      ⟨_, rfl, fun r hr => ?_⟩
    rfl
  | .integer value => by
    refine Expr.faithful_of_variant rfl (by simp [TaggedForm.tagName]) fun n _ =>
      ⟨_, rfl, fun r hr => ?_⟩
    exact Placed.map_eq_value (hr.get (.head _) (Decoder.int64_fragment value))
  | .record fieldCount => by
    refine Expr.faithful_of_variant rfl (by simp [TaggedForm.tagName]) fun n _ =>
      ⟨_, rfl, fun r hr => ?_⟩
    exact Placed.map_eq_value (hr.get (.head _) (Decoder.word64_fragment fieldCount))
  | .call callee argumentCount => by
    refine Expr.faithful_of_variant rfl (by simp [TaggedForm.tagName]) fun n hn =>
      ⟨_, rfl, fun r hr => ?_⟩
    have hcallee := callee.faithful .buffered n (hn _ (.head _))
    exact Placed.seq_eq_value (Placed.map_eq_value (hr.get (.head _) hcallee))
      (hr.get (.tail _ (.head _)) (Decoder.word64_fragment argumentCount))
  | .ifElse condition thenArm elseArm => by
    refine Expr.faithful_of_variant rfl (by simp [TaggedForm.tagName]) fun n hn =>
      ⟨_, rfl, fun r hr => ?_⟩
    have hcondition := condition.faithful .buffered n (hn _ (.head _))
    have hthen := Stmt.faithful_decodeAll (Stmt.faithful_of_mem thenArm) .buffered n
      (hn _ (.tail _ (.head _)))
    have helse := Stmt.faithful_decodeAll (Stmt.faithful_of_mem elseArm) .buffered n
      (hn _ (.tail _ (.tail _ (.head _))))
    exact Placed.seq_eq_value (Placed.seq_eq_value
      (Placed.map_eq_value (hr.get (.head _) hcondition)) (hr.get (.tail _ (.head _)) hthen))
      (hr.get (.tail _ (.tail _ (.head _))) helse)
  | .lambda name formals body => by
    refine Expr.faithful_of_variant rfl (by simp [TaggedForm.tagName]) fun n hn =>
      ⟨_, rfl, fun r hr => ?_⟩
    have hname : Decoder.option .string (match name with
        | some name => Document.string name
        | none => Document.null).fragment = .ok name := by
      cases name <;> rfl
    have hformals := faithful_strings formals .buffered n (hn _ (.tail _ (.head _)))
    have hbody := Stmt.faithful_decodeAll (Stmt.faithful_of_mem body) .buffered n
      (hn _ (.tail _ (.tail _ (.head _))))
    exact Placed.seq_eq_value (Placed.seq_eq_value
      (Placed.map_eq_value (hr.getOption (.head _) hname)) (hr.get (.tail _ (.head _)) hformals))
      (hr.get (.tail _ (.tail _ (.head _))) hbody)

theorem Stmt.faithful : ∀ s : Stmt, Faithful Stmt.decode Stmt.toDocument s
  | .mk action e location => Stmt.faithful_mk e.faithful action location

theorem Stmt.faithful_of_mem : ∀ ss : List Stmt, ∀ s ∈ ss, Faithful Stmt.decode Stmt.toDocument s
  | [] => List.forall_mem_nil _
  | s :: ss => List.forall_mem_cons.mpr ⟨s.faithful, Stmt.faithful_of_mem ss⟩

end

theorem Program.faithful (p : Program) : Faithful Program.decode Program.toDocument p := by
  intro mode n hle
  obtain ⟨n, rfl, hn⟩ := Document.exists_of_nesting_object_le hle
  have hstatements := Stmt.faithful_decodeAll (Stmt.faithful_of_mem p.statements) mode n
    (hn _ (.head _))
  rw [Program.decode]
  refine Decoder.record_object rfl (by simp) fun r hr => ?_
  exact Placed.map_eq_value (hr.get (.head _) hstatements)

/-! ### What is read needs no more brackets -/

/-- The canonical document of what is read needs no more than so many brackets. -/
def Within (decoder : Decoder α) (toDocument : α → Document) (n : Nat) : Prop :=
  ∀ f a, decoder f = .ok a → (toDocument a).nesting ≤ n

/-- A field needs no more brackets than its decoder allows. -/
theorem Within.get {decoder : Decoder α} {toDocument : α → Document} {n : Nat}
    (h : Within decoder toDocument n) {r : Fields} {name : String} {a : α}
    (hget : r.get name decoder = .value a) : (toDocument a).nesting ≤ n := by
  obtain ⟨f, hf⟩ := Fields.exists_of_get hget
  exact h f a hf

theorem within_tooDeep (expected : String) (toDocument : α → Document) (n : Nat) :
    Within (.tooDeep expected) toDocument n := by
  rintro f a ⟨⟩

theorem within_list {item : Decoder α} {toDocument : α → Document} {n : Nat}
    (h : Within item toDocument n) :
    Within (.list item) (fun values => .array (values.map toDocument)) (n + 1) := by
  intro f values hf
  refine Document.nesting_array_le.mpr (List.forall_mem_map.mpr fun a ha => ?_)
  obtain ⟨g, hg⟩ := Decoder.exists_of_list hf a ha
  exact h g a hg

theorem within_strings (n : Nat) :
    Within (.strings n) (fun names => .array (names.map .string)) n := by
  cases n with
  | zero => exact within_tooDeep _ _ _
  | succ n => exact within_list fun f s _ => Nat.zero_le n

theorem Location.within (mode : Mode) (n : Nat) :
    Within (Location.decode mode n) Location.toDocument n := by
  cases n with
  | zero => exact within_tooDeep _ _ _
  | succ n =>
    intro f l _
    simp [Location.toDocument, Document.nesting, Document.nestingOfMembers, Document.ofNat]

section Step

variable {n : Nat}

theorem Stmt.within_decodeKind (he : Within (Expr.decode .buffered n) Expr.toDocument n)
    (mode : Mode) :
    Within (Stmt.decodeKind mode (n + 1)) (fun kind => kind.1.toDocument kind.2) (n + 1) := by
  rintro f ⟨action, e⟩ h
  rw [Stmt.decodeKind] at h
  obtain ⟨v, hv, r, hr⟩ := Decoder.exists_of_tagged h
  have hexpression : e.toDocument.nesting ≤ n := by
    simp only [Action.variants, List.mem_cons, List.not_mem_nil, or_false] at hv
    rcases hv with rfl | rfl | rfl | rfl <;>
      simp only [Placed.map_eq_value_iff, Placed.seq_eq_value_iff] at hr
    · obtain ⟨_, _, ⟨_, -, rfl⟩, hget, ⟨⟩⟩ := hr
      exact he.get hget
    · obtain ⟨_, hget, ⟨⟩⟩ := hr
      exact he.get hget
    · obtain ⟨_, hget, ⟨⟩⟩ := hr
      exact he.get hget
    · obtain ⟨_, _, ⟨_, -, rfl⟩, hget, ⟨⟩⟩ := hr
      exact he.get hget
  have hfields : ∀ m ∈ action.toFields, m.2.nesting ≤ n := by
    cases action <;> simp [Action.toFields, Document.nesting]
  exact Document.nesting_tagged_le.mpr
    (List.forall_mem_append.mpr ⟨hfields, List.forall_mem_singleton.mpr hexpression⟩)

theorem Stmt.within_decode (mode : Mode)
    (hkind : Within (Stmt.decodeKind mode n) (fun kind => kind.1.toDocument kind.2) n) :
    Within (Stmt.decode mode (n + 1)) Stmt.toDocument (n + 1) := by
  intro f s h
  rw [Stmt.decode] at h
  obtain ⟨r, hr⟩ := Decoder.exists_of_record h
  simp only [Placed.map_eq_value_iff, Placed.seq_eq_value_iff] at hr
  obtain ⟨_, location, ⟨⟨action, e⟩, hget, rfl⟩, hlocation, rfl⟩ := hr
  have hmembers : ∀ m ∈ Stmt.locationMembers location, m.2.nesting ≤ n := by
    cases location with
    | none => exact List.forall_mem_nil _
    | some l =>
      obtain ⟨g, hg⟩ := Fields.exists_of_getOption hlocation l rfl
      exact List.forall_mem_singleton.mpr (Location.within mode n g l hg)
  rw [Stmt.toDocument_mk]
  exact Document.nesting_object_le.mpr (List.forall_mem_cons.mpr ⟨hkind.get hget, hmembers⟩)

theorem Stmt.within_decodeAll (mode : Mode) (h : Within (Stmt.decode mode n) Stmt.toDocument n) :
    Within (Stmt.decodeAll mode (n + 1)) Stmt.listToDocument (n + 1) := by
  intro f ss hf
  rw [Stmt.listToDocument_eq_map]
  exact within_list h f ss hf

theorem Expr.within_decode (he : Within (Expr.decode .buffered n) Expr.toDocument n)
    (hs : Within (Stmt.decodeAll .buffered n) Stmt.listToDocument n) (mode : Mode) :
    Within (Expr.decode mode (n + 1)) Expr.toDocument (n + 1) := by
  intro f e h
  rw [Expr.decode] at h
  obtain ⟨v, hv, r, hr⟩ := Decoder.exists_of_tagged h
  simp only [Expr.variants, List.mem_cons, List.not_mem_nil, or_false] at hv
  rcases hv with rfl | rfl | rfl | rfl | rfl | rfl | rfl | rfl | rfl | rfl | rfl <;>
    simp only [Placed.map_eq_value_iff, Placed.seq_eq_value_iff] at hr
  case inr.inl =>
    obtain ⟨_, _, ⟨callee, hcallee, rfl⟩, -, rfl⟩ := hr
    exact Document.nesting_tagged_le.mpr (List.forall_mem_cons.mpr
      ⟨he.get hcallee, List.forall_mem_singleton.mpr (Nat.zero_le n)⟩)
  case inr.inr.inl =>
    obtain ⟨_, _, ⟨_, _, ⟨condition, hcondition, rfl⟩, hthen, rfl⟩, helse, rfl⟩ := hr
    exact Document.nesting_tagged_le.mpr (List.forall_mem_cons.mpr
      ⟨he.get hcondition, List.forall_mem_cons.mpr
        ⟨hs.get hthen, List.forall_mem_singleton.mpr (hs.get helse)⟩⟩)
  case inr.inr.inr.inr.inl =>
    obtain ⟨_, _, ⟨_, formals, ⟨name, -, rfl⟩, hformals, rfl⟩, hbody, rfl⟩ := hr
    have hname : (match name with
        | some name => Document.string name
        | none => Document.null).nesting ≤ n := by
      cases name <;> exact Nat.zero_le n
    exact Document.nesting_tagged_le.mpr (List.forall_mem_cons.mpr
      ⟨hname, List.forall_mem_cons.mpr
        ⟨(within_strings n).get hformals, List.forall_mem_singleton.mpr (hs.get hbody)⟩⟩)
  case inr.inr.inr.inr.inr.inl =>
    cases hr
    exact Document.nesting_tagged_le.mpr (List.forall_mem_nil _)
  -- the other forms hold no brackets
  all_goals
    obtain ⟨_, -, rfl⟩ := hr
    exact Document.nesting_tagged_le.mpr (List.forall_mem_singleton.mpr (Nat.zero_le n))

/-- What is read needs no more brackets than may be opened. -/
theorem within (n : Nat) :
    (∀ mode, Within (Expr.decode mode n) Expr.toDocument n) ∧
      (∀ mode, Within (Stmt.decodeKind mode n) (fun kind => kind.1.toDocument kind.2) n) ∧
      (∀ mode, Within (Stmt.decode mode n) Stmt.toDocument n) ∧
      ∀ mode, Within (Stmt.decodeAll mode n) Stmt.listToDocument n := by
  induction n with
  | zero =>
    exact ⟨fun _ => within_tooDeep _ _ _, fun _ => within_tooDeep _ _ _,
      fun _ => within_tooDeep _ _ _, fun _ => within_tooDeep _ _ _⟩
  | succ n ih =>
    obtain ⟨hexpr, hkind, hstmt, hall⟩ := ih
    exact ⟨Expr.within_decode (hexpr .buffered) (hall .buffered),
      Stmt.within_decodeKind (hexpr .buffered), fun mode => Stmt.within_decode mode (hkind mode),
      fun mode => Stmt.within_decodeAll mode (hstmt mode)⟩

end Step

theorem Program.within_decode (mode : Mode) (n : Nat) :
    Within (Program.decode mode n) Program.toDocument n := by
  cases n with
  | zero => exact within_tooDeep _ _ _
  | succ n =>
    intro f p h
    rw [Program.decode] at h
    obtain ⟨r, hr⟩ := Decoder.exists_of_record h
    obtain ⟨ss, hss, rfl⟩ := Placed.map_eq_value_iff.mp hr
    exact Document.nesting_object_le.mpr
      (List.forall_mem_singleton.mpr (((within n).2.2.2 mode).get hss))

/-! ### Texts -/

/-- A value is read from a text that holds its document and nothing else. -/
theorem readText_eq_ok_iff {decoder : Decoder α} {text : String} {a : α} :
    readText decoder text = .ok a ↔
      (Fragment.ofText text).2 = true ∧ decoder (Fragment.ofText text).1 = .ok a := by
  rw [readText, bind_eq_ok_iff]
  cases (Fragment.ofText text).2
  · simp
  · simp [pure, Except.pure]

theorem readText_compress {decoder : Decoder α} {d : Document} {a : α} (hd : d.Storable)
    (h : decoder d.fragment = .ok a) : readText decoder d.compress = .ok a := by
  rw [readText_eq_ok_iff, hd.ofText_compress]
  exact ⟨rfl, h⟩

theorem exists_of_readText {decoder : Decoder α} {text : String} {a : α}
    (h : readText decoder text = .ok a) : ∃ f, decoder f = .ok a :=
  ⟨_, (readText_eq_ok_iff.mp h).2⟩

/-- The texts of a type are read back: the canonical text of a value is, unless more brackets are
open at once in it than may be opened; and what is read from any text has a canonical text that is
read again, to the same value and so to the same canonical text. -/
structure RoundTrips (ofText : String → Except ReadError α) (toDocument : α → Document) :
    Prop where
  read : ∀ a, (toDocument a).nesting ≤ maxNesting → ofText (toDocument a).compress = .ok a
  nesting_le : ∀ text a, ofText text = .ok a → (toDocument a).nesting ≤ maxNesting
  reread : ∀ text a, ofText text = .ok a → ofText (toDocument a).compress = .ok a
  canonical : ∀ text a, ofText text = .ok a →
    (ofText (toDocument a).compress).map (fun b => (toDocument b).compress)
      = .ok (toDocument a).compress

theorem roundTrips {decode : Mode → Nat → Decoder α} {toDocument : α → Document}
    (hstorable : ∀ a, (toDocument a).Storable) (hfaithful : ∀ a, Faithful decode toDocument a)
    (hwithin : Within (decode .streamed maxNesting) toDocument maxNesting) :
    RoundTrips (readText (decode .streamed maxNesting)) toDocument := by
  have hread (a : α) (h : (toDocument a).nesting ≤ maxNesting) :
      readText (decode .streamed maxNesting) (toDocument a).compress = .ok a :=
    readText_compress (hstorable a) (hfaithful a .streamed maxNesting h)
  have hnesting (text : String) (a : α)
      (h : readText (decode .streamed maxNesting) text = .ok a) :
      (toDocument a).nesting ≤ maxNesting := by
    obtain ⟨f, hf⟩ := exists_of_readText h
    exact hwithin f a hf
  refine ⟨hread, hnesting, fun text a h => hread a (hnesting text a h), fun text a h => ?_⟩
  rw [hread a (hnesting text a h)]
  rfl

theorem Program.roundTrips : RoundTrips Program.ofText Program.toDocument :=
  StackLowering.roundTrips Program.storable Program.faithful (Program.within_decode _ _)

/-- **Texts are read back**: those of programs, of statements, of expressions and of locations. -/
theorem texts_round_trip :
    RoundTrips Program.ofText Program.toDocument ∧ RoundTrips Stmt.ofText Stmt.toDocument ∧
      RoundTrips Expr.ofText Expr.toDocument ∧
      RoundTrips Location.ofText Location.toDocument := by
  obtain ⟨hexpr, -, hstmt, -⟩ := within maxNesting
  exact ⟨Program.roundTrips, roundTrips Stmt.storable Stmt.faithful (hstmt .streamed),
    roundTrips Expr.storable Expr.faithful (hexpr .streamed),
    roundTrips Location.storable Location.faithful (Location.within .streamed maxNesting)⟩

end StackLowering
