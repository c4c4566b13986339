import StackLowering.Code.Render
import StackLowering.Proofs.Blocks
import Mathlib.Data.List.TakeWhile

/-!
# The lines of assembly text

A text shows a listing in lines: a label takes an empty line and a line of its own, and an
instruction takes one. Nothing is escaped, so a name with a newline in it would go over to the next
line. Where no name, symbol or string of a program has one, the lines of the text are the lines of
the entries, apart from the first.

The first entry of a program is always a label. Its empty line is taken off the text, and with it
the blank characters at the start of its name.

## Main definitions

* `Text.lines` — the lines of a text
* `Program.SingleLine` — nothing that a program writes into its text has a newline
* `Entry.lines`, `Program.firstLabel` — the lines of an entry, and the label of the first one

## Main results

* `Lowers.singleLine` — the entries of a program keep to their lines
* `Program.exists_entries_eq` — the listing of a program starts with `Program.firstLabel`
* `lines_render` — the lines of the text of a program
-/

namespace StackLowering

namespace Text

/-- The lines of a text: what stands between its newlines. -/
def lines (s : String) : List String := (s.toList.splitOn '\n').map String.ofList

/-- The text has no newline. -/
def IsLine (s : String) : Prop := '\n' ∉ s.toList

instance (s : String) : Decidable (IsLine s) := inferInstanceAs (Decidable ('\n' ∉ s.toList))

variable {s t : String} {ls : List String}

@[simp] theorem isLine_append : IsLine (s ++ t) ↔ IsLine s ∧ IsLine t := by
  simp [IsLine, not_or]

/-- Lines that are put together are found again. -/
theorem lines_intercalate (hne : ls ≠ []) (h : ∀ l ∈ ls, IsLine l) :
    lines ("\n".intercalate ls) = ls := by
  have hchars : ∀ cs ∈ ls.map String.toList, '\n' ∉ cs := by simpa [IsLine] using h
  rw [lines, String.toList_intercalate]
  change List.map _ ((['\n'].intercalate _).splitOn '\n') = _
  rw [List.splitOn_intercalate '\n' hchars (by simpa using hne), List.map_map]
  simp [Function.comp_def]

theorem trimStart_newline (s : String) : trimStart ("\n" ++ s) = trimStart s := by
  have hblank : isBlank '\n' = true := by simp [isBlank, inRanges, blankRanges]
  simp [trimStart, hblank]

/-- What stands behind a character that is not blank is not looked at. -/
theorem trimStart_append (h : ∃ c ∈ s.toList, isBlank c = false) :
    trimStart (s ++ t) = trimStart s ++ t := by
  have hrest : s.toList.dropWhile isBlank ≠ [] := by
    rw [ne_eq, List.dropWhile_eq_nil_iff]
    obtain ⟨c, hc, hblank⟩ := h
    exact fun hall => Bool.false_ne_true (hblank.symm.trans (hall c hc))
  simp [trimStart, List.dropWhile_append, hrest]

theorem isLine_trimStart (h : IsLine s) : IsLine (trimStart s) := by
  rw [IsLine, trimStart, String.toList_ofList]
  exact fun hmem => h ((List.dropWhile_sublist _).subset hmem)

end Text

open Text (IsLine)

/-! ### The lines of entries -/

namespace Entry

/-- The lines of an entry. -/
def lines : Entry → List String
  | .label name => ["", name ++ ":"]
  | .instruction i => [i.line]

@[simp] theorem lines_label (name : String) : (label name).lines = ["", name ++ ":"] := rfl
@[simp] theorem lines_instruction (i : Instruction) : (instruction i).lines = [i.line] := rfl

theorem lines_ne_nil (x : Entry) : x.lines ≠ [] := by
  cases x <;> exact List.cons_ne_nil _ _

theorem intercalate_lines (x : Entry) : "\n".intercalate x.lines = x.text := by
  cases x with
  | label name => simp [text, String.append_assoc]
  | instruction i => simp [text]

end Entry

/-- Entries on lines of their own are the lines of the entries. -/
theorem intercalate_text (es : List Entry) :
    "\n".intercalate (es.map Entry.text) = "\n".intercalate (es.flatMap Entry.lines) := by
  induction es with
  | nil => rfl
  | cons x es ih =>
    rcases es with _ | ⟨y, es⟩
    · simp [x.intercalate_lines]
    · have hrest : (y :: es).flatMap Entry.lines ≠ [] := by
        simp [List.flatMap_cons, y.lines_ne_nil]
      rw [List.flatMap_cons, String.intercalate_append_of_ne_nil x.lines_ne_nil hrest,
        x.intercalate_lines, ← ih, List.map_cons, List.map_cons, String.intercalate_cons_cons]

/-- The lines of a listing that starts with a label. The empty line in front of the label is taken
off, and blank characters behind it. -/
theorem Listing.lines_render {l : Listing} {name : String} {es : List Entry}
    (hl : l.entries = .label name :: es) (hname : ∃ c ∈ name.toList, Text.isBlank c = false)
    (hlines : ∀ s ∈ l.entries.flatMap Entry.lines, IsLine s) :
    Text.lines l.render = (Text.trimStart name ++ ":") :: es.flatMap Entry.lines := by
  rw [hl, List.flatMap_cons, Entry.lines_label] at hlines
  have hfirst : IsLine (name ++ ":") := hlines _ (by simp)
  have hrest : ∀ s ∈ es.flatMap Entry.lines, IsLine s := fun s hs => hlines s (by simp [hs])
  have hrender : l.render
      = "\n".intercalate ((Text.trimStart name ++ ":") :: es.flatMap Entry.lines) := by
    rw [Listing.render, intercalate_text, hl, List.flatMap_cons, Entry.lines_label,
      List.cons_append, List.cons_append, List.nil_append, String.intercalate_cons_cons,
      String.empty_append, Text.trimStart_newline]
    rw [String.intercalate_cons_append, Text.trimStart_append hname,
      String.intercalate_cons_append]
  rw [hrender, Text.lines_intercalate (List.cons_ne_nil _ _)]
  refine List.forall_mem_cons.mpr ⟨?_, hrest⟩
  rw [Text.isLine_append] at hfirst ⊢
  exact ⟨Text.isLine_trimStart hfirst.1, hfirst.2⟩

/-! ### Entries that keep to their lines -/

theorem Text.isLine_repr (n : Nat) : IsLine n.repr := by
  rw [IsLine, Nat.toList_repr]
  exact Label.not_mem_toDigits (by decide) n

theorem Text.isLine_repr_int (n : Int) : IsLine n.repr := by
  rw [Int.repr_eq_if]
  split_ifs
  · exact Text.isLine_repr _
  · exact Text.isLine_append.mpr ⟨by decide, Text.isLine_repr _⟩

theorem Mnemonic.isLine_text (m : Mnemonic) : IsLine m.text := by
  cases m <;> decide

/-- No line of the entry has a newline in it. -/
def Entry.SingleLine (x : Entry) : Prop := ∀ s ∈ x.lines, IsLine s

namespace Entry

theorem singleLine_label {name : String} : (label name).SingleLine ↔ IsLine name := by
  have hempty : IsLine "" := by decide
  have hcolon : IsLine ":" := by decide
  simp [SingleLine, hempty, hcolon]

/-- Only an operand can bring a newline into the line of an instruction. -/
theorem singleLine_op {m : Mnemonic} {o : Option Operand} (h : ∀ a ∈ o, IsLine a.text) :
    (op m o).SingleLine := by
  have hfront : IsLine (Instruction.indent ++ m.text) :=
    Text.isLine_append.mpr ⟨by decide, m.isLine_text⟩
  have hnil : IsLine "nil" := by decide
  have hoperand : IsLine (Instruction.operandText ⟨m, o⟩) := by
    cases o with
    | none => exact hnil
    | some a => exact h a rfl
  refine List.forall_mem_singleton.mpr ?_
  unfold Instruction.line
  split_ifs
  · exact hfront
  · exact Text.isLine_append.mpr ⟨Text.isLine_append.mpr ⟨hfront, by decide⟩, hoperand⟩

theorem singleLine_count (m : Mnemonic) (n : UInt64) : (op m (some (.count n))).SingleLine := by
  refine singleLine_op fun a ha => ?_
  obtain rfl := Option.some.inj ha
  exact Text.isLine_repr _

theorem singleLine_symbol {m : Mnemonic} {name : String} (h : IsLine name) :
    (op m (some (.symbol name))).SingleLine := by
  refine singleLine_op fun a ha => ?_
  obtain rfl := Option.some.inj ha
  exact Text.isLine_append.mpr ⟨Text.isLine_append.mpr ⟨by decide, h⟩, by decide⟩

theorem singleLine_reference {m : Mnemonic} {name : String} (h : IsLine name) :
    (op m (some (.label name))).SingleLine := by
  refine singleLine_op fun a ha => ?_
  obtain rfl := Option.some.inj ha
  exact h

theorem singleLine_bare (m : Mnemonic) : (op m none).SingleLine :=
  singleLine_op fun _ ha => by cases ha

end Entry

/-! ### Programs on single lines -/

/-- The name that a statement gives its value to. -/
def Action.texts : Action → List String
  | .assign target => [target]
  | .declare name => [name]
  | .discard | .push => []

mutual

/-- The names, symbols and strings of an expression. -/
def Expr.texts : Expr → List String
  | .builtin s => [s]
  | .call f _ => f.texts
  | .ifElse e ss ts => e.texts ++ Stmt.textsAll ss ++ Stmt.textsAll ts
  | .lambda name formals ss => name.toList ++ formals ++ Stmt.textsAll ss
  | .string value => [value]
  | .symbol name => [name]
  | .symbolLiteral name => [name]
  | .variable name => [name]
  | .integer _ | .list | .record _ => []

/-- The names, symbols and strings of statements. -/
def Stmt.textsAll : List Stmt → List String
  | [] => []
  | .mk a e _ :: rest => a.texts ++ e.texts ++ Stmt.textsAll rest

end

/-- The names, symbols and strings of a part. -/
def Part.texts : Part → List String
  | .expression e => e.texts
  | .statements ss | .body ss => Stmt.textsAll ss

/-- No name, symbol or string of the program has a newline. -/
def Program.SingleLine (p : Program) : Prop := ∀ s ∈ Stmt.textsAll p.statements, IsLine s

instance (p : Program) : Decidable p.SingleLine :=
  inferInstanceAs (Decidable (∀ s ∈ Stmt.textsAll p.statements, IsLine s))

section Lines

variable {e : Expr} {i : Instruction} {c c' : LabelCounters} {k : Code} {P : Part}

theorem Stmt.textsAll_append (ss ts : List Stmt) :
    Stmt.textsAll (ss ++ ts) = Stmt.textsAll ss ++ Stmt.textsAll ts := by
  induction ss with
  | nil => rfl
  | cons s ss ih =>
    obtain ⟨a, e, l⟩ := s
    simp [Stmt.textsAll, ih]

@[simp] theorem Stmt.textsAll_singleton (a : Action) (e : Expr) (l : Option Location) :
    Stmt.textsAll [.mk a e l] = a.texts ++ e.texts := by
  simp [Stmt.textsAll]

/-- A label is on one line when the name that it is made of is. -/
theorem Label.isLine_numbered {base : String} (h : IsLine base) (n : UInt32) :
    IsLine (Label.numbered base n) :=
  Text.isLine_append.mpr ⟨Text.isLine_append.mpr ⟨h, by decide⟩, Text.isLine_repr _⟩

theorem Label.isLine_lambdaBase {name : Option String} (h : ∀ s ∈ name, IsLine s) :
    IsLine (Label.lambdaBase name) := by
  cases name with
  | none => decide
  | some s =>
    have hs : '\n' ∉ s.toList := h s rfl
    simp only [IsLine, Label.lambdaBase, Label.escape, String.toList_ofList, List.mem_flatMap,
      not_exists, not_and]
    intro c hc
    unfold Label.escapeChar
    split_ifs
    · decide
    · decide
    · rintro hmem
      exact hs (List.mem_singleton.mp hmem ▸ hc)

theorem Expr.singleLine_of_instruction? (h : e.instruction? = some i)
    (he : ∀ s ∈ e.texts, IsLine s) : (Entry.instruction i).SingleLine := by
  cases Expr.becomes_of_instruction? h with
  | integer value =>
    refine Entry.singleLine_op fun a ha => ?_
    obtain rfl := Option.some.inj ha
    exact Text.isLine_repr_int _
  | string value =>
    have hvalue : IsLine value := he value List.mem_cons_self
    refine Entry.singleLine_op fun a ha => ?_
    obtain rfl := Option.some.inj ha
    exact Text.isLine_append.mpr ⟨Text.isLine_append.mpr ⟨by decide, hvalue⟩, by decide⟩
  | list | record | callBuiltin => exact Entry.singleLine_count _ _
  | _ => exact Entry.singleLine_symbol (he _ List.mem_cons_self)

theorem Action.singleLine_of_mem_entries {a : Action} (ha : ∀ s ∈ a.texts, IsLine s) :
    ∀ x ∈ a.entries, x.SingleLine := by
  cases a with
  | discard => exact List.forall_mem_singleton.mpr (Entry.singleLine_bare _)
  | push => exact List.forall_mem_nil _
  | assign name | declare name =>
    exact List.forall_mem_singleton.mpr (Entry.singleLine_symbol (ha name List.mem_cons_self))

/-- **The entries of a part keep to their lines** when its names, symbols and strings do. -/
theorem Lowers.singleLine (h : Lowers P c k c') (hP : ∀ s ∈ P.texts, IsLine s) :
    ∀ x ∈ k.lifted ++ k.own, x.SingleLine := by
  induction h with
  | instruction h =>
    exact List.forall_mem_singleton.mpr (Expr.singleLine_of_instruction? h hP)
  | call _ _ ih =>
    rw [Code.lifted_push, Code.own_push, ← List.append_assoc]
    exact List.forall_mem_append.mpr
      ⟨ih hP, List.forall_mem_singleton.mpr (Entry.singleLine_count _ _)⟩
  | ifElse _ _ _ ih₁ ih₂ ih₃ =>
    simp only [Part.texts, Expr.texts, List.forall_mem_append] at hP ih₁ ih₂ ih₃ ⊢
    obtain ⟨⟨he, hss⟩, hts⟩ := hP
    obtain ⟨hlifted₁, hown₁⟩ := ih₁ he
    obtain ⟨hlifted₂, hown₂⟩ := ih₂ hss
    obtain ⟨hlifted₃, hown₃⟩ := ih₃ hts
    have hlabel (base : String) (h : IsLine base) (n : UInt32) := Label.isLine_numbered h n
    simp only [Code.ofArms, List.forall_mem_append, List.forall_mem_cons, List.not_mem_nil,
      false_implies, implies_true, and_true]
    refine ⟨⟨⟨hlifted₁, hlifted₂⟩, hlifted₃⟩, ⟨⟨⟨⟨hown₁, ?_, ?_, ?_⟩, hown₂⟩, ?_, ?_⟩, hown₃⟩, ?_⟩
    · exact Entry.singleLine_reference (hlabel _ (by decide) _)
    · exact Entry.singleLine_reference (hlabel _ (by decide) _)
    · exact Entry.singleLine_label.mpr (hlabel _ (by decide) _)
    · exact Entry.singleLine_reference (hlabel _ (by decide) _)
    · exact Entry.singleLine_label.mpr (hlabel _ (by decide) _)
    · exact Entry.singleLine_label.mpr (hlabel _ (by decide) _)
  | lambda _ ih =>
    simp only [Part.texts, Expr.texts, List.forall_mem_append, Option.mem_toList] at hP ih ⊢
    obtain ⟨⟨hname, hformals⟩, hss⟩ := hP
    obtain ⟨hlifted, hown⟩ := ih hss
    have hlabel := Label.isLine_numbered (Label.isLine_lambdaBase hname)
    simp only [Code.ofLambda, List.forall_mem_append, List.forall_mem_singleton]
    refine ⟨⟨⟨⟨⟨hlifted, ?_⟩, fun x hx => ?_⟩, hown⟩, Entry.singleLine_bare _⟩, ?_⟩
    · exact Entry.singleLine_label.mpr (hlabel _)
    · obtain ⟨formal, hformal, rfl⟩ := mem_popFormals.mp hx
      exact Entry.singleLine_symbol (hformals formal hformal)
    · exact Entry.singleLine_reference (hlabel _)
  | nil => exact List.forall_mem_nil _
  | snoc _ _ ih₁ ih₂ =>
    simp only [Part.texts, Stmt.textsAll_append, Stmt.textsAll_singleton, Code.lifted_append,
      Code.own_append, Code.lifted_ofAction, Code.own_ofAction, List.forall_mem_append]
      at hP ih₁ ih₂ ⊢
    obtain ⟨hss, ha, he⟩ := hP
    obtain ⟨hlifted₁, hown₁⟩ := ih₁ hss
    obtain ⟨hlifted₂, hown₂⟩ := ih₂ he
    exact ⟨⟨hlifted₁, hlifted₂⟩, hown₁, hown₂, Action.singleLine_of_mem_entries ha⟩
  | body _ _ ih₁ ih₂ =>
    simp only [Part.texts, Stmt.textsAll_append, Stmt.textsAll_singleton, Code.lifted_append,
      Code.own_append, List.forall_mem_append] at hP ih₁ ih₂ ⊢
    obtain ⟨hss, -, he⟩ := hP
    obtain ⟨hlifted₁, hown₁⟩ := ih₁ hss
    obtain ⟨hlifted₂, hown₂⟩ := ih₂ he
    exact ⟨⟨hlifted₁, hlifted₂⟩, hown₁, hown₂⟩

end Lines

/-! ### The first entry of a program -/

section Program

variable {p : Program} {l : Listing}

/-- The label of the first function, or that of the program where there is no function. -/
def Program.firstLabel (p : Program) : String :=
  (p.functions.head?.map LiftedFunction.label).getD Label.main

/-- The listing of a program starts with a label. -/
theorem Program.exists_entries_eq (hl : p.lower = .ok l) :
    ∃ es, l.entries = .label p.firstLabel :: es := by
  obtain ⟨k, c', hk, rfl⟩ := Program.lower_eq_ok_iff.mp hl
  obtain ⟨bs, hbs⟩ := hk.exists_blocks
  have hfunctions := hbs.functions
  have hentries : k.toListing.entries
      = bs.flatten ++ .label Label.main :: (k.own ++ [.op .halt none]) := by
    simp [Code.toListing, hbs.lifted]
  rw [hentries, Program.firstLabel]
  change List.Forall₂ _ p.functions bs at hfunctions
  generalize p.functions = fs at hfunctions
  cases hfunctions with
  | nil => exact ⟨_, rfl⟩
  | cons hblock _ =>
    obtain ⟨_, _, _, -, rfl⟩ := hblock
    exact ⟨_, rfl⟩

/-- Every label of a program has a character that is not blank. -/
theorem Program.exists_not_isBlank_of_mem_labels (hl : p.lower = .ok l) {name : String}
    (hname : name ∈ l.labels) : ∃ c ∈ name.toList, Text.isBlank c = false := by
  rcases List.mem_cons.mp ((labels_perm_of_lower hl).mem_iff.mp hname) with rfl | hissued
  · exact ⟨'_', by decide, by simp [Text.isBlank, Text.inRanges, Text.blankRanges]⟩
  · obtain ⟨base, n, rfl⟩ := LabelCounters.numbered_of_mem_issued hissued
    exact ⟨'$', by simp [Label.toList_numbered],
      by simp [Text.isBlank, Text.inRanges, Text.blankRanges]⟩

/-- The entries of a program on single lines keep to their lines. -/
theorem Program.SingleLine.entries (hp : p.SingleLine) (hl : p.lower = .ok l) :
    ∀ s ∈ l.entries.flatMap Entry.lines, IsLine s := by
  obtain ⟨k, c', hk, rfl⟩ := Program.lower_eq_ok_iff.mp hl
  have hcode := hk.singleLine hp
  have hall : ∀ x ∈ k.toListing.entries, x.SingleLine := by
    simp only [Code.toListing, List.forall_mem_append, List.forall_mem_singleton] at hcode ⊢
    exact ⟨⟨⟨hcode.1, Entry.singleLine_label.mpr (by decide)⟩, hcode.2⟩, Entry.singleLine_bare _⟩
  intro s hs
  obtain ⟨x, hx, hs⟩ := List.mem_flatMap.mp hs
  exact hall x hx s hs

/-- **The lines of the text of a program** are the lines of its entries, apart from the first
label: its empty line is missing, and it starts with no blank character. -/
theorem Program.SingleLine.lines_render (hp : p.SingleLine) (hl : p.lower = .ok l) {es : List Entry}
    (hes : l.entries = .label p.firstLabel :: es) :
    Text.lines l.render = (Text.trimStart p.firstLabel ++ ":") :: es.flatMap Entry.lines := by
  refine Listing.lines_render hes (p.exists_not_isBlank_of_mem_labels hl ?_) (hp.entries hl)
  rw [Listing.labels_of_entries hes]
  exact List.mem_cons_self

end Program

end StackLowering
