import StackLowering.Compile
import StackLowering.Proofs.AssemblyReading
import Mathlib.Data.List.Count

/-!
# Links in assembly text

Whoever reads assembly text finds a label by its line: the name and a colon. Only lines of labels
end in a colon, so that an instruction, whatever string it carries, is never taken for a label.

The lines of the labels are the labels of the listing, each with a colon, except for the first
one, which has lost the blank characters at its start. Its reference has not. So the links of a
text are in order exactly when its first label does not start with a blank.

## Main definitions

* `Text.definesLabel` — the line of a label
* `Text.Linked` — every reference in a text finds the one line of its label

## Main results

* `filter_lines` — the lines of labels in the text of entries are the labels of the entries
* `linked_iff` — the links of the text of a program are in order exactly when its first label does
  not start with a blank
-/

namespace StackLowering

namespace Text

/-- The line ends in a colon, as that of a label does. -/
def definesLabel (line : String) : Bool := line.toList.getLast? = some ':'

/-- No label has two lines, and each jump and each closure finds the one line of its label. -/
structure Linked (text : String) : Prop where
  distinct : ((lines text).filter definesLabel).Nodup
  target : ∀ line ∈ lines text, definesLabel line = false →
    ∀ m : Mnemonic, m = .jump ∨ m = .jumpIfFalse ∨ m = .close →
      ∀ name, line = Instruction.indent ++ m.text ++ " " ++ name →
        (lines text).count (name ++ ":") = 1

theorem definesLabel_colon (name : String) : definesLabel (name ++ ":") = true := by
  simp [definesLabel]

/-- Only the end of a line matters. -/
theorem definesLabel_append (s : String) {t : String} (h : t.toList ≠ []) :
    definesLabel (s ++ t) = definesLabel t := by
  obtain ⟨c, hc⟩ := Option.ne_none_iff_exists'.mp (mt List.getLast?_eq_none_iff.mp h)
  simp [definesLabel, List.getLast?_append, hc]

theorem definesLabel_eq_false {s : String} (h : ∀ c ∈ s.toList, c ≠ ':') :
    definesLabel s = false := by
  rw [definesLabel, decide_eq_false_iff_not]
  exact fun hlast => h ':' (List.mem_of_getLast? hlast) rfl

/-- Nothing is taken off a text that does not start with a blank. -/
theorem trimStart_eq_self_iff {s : String} :
    trimStart s = s ↔ ∀ c ∈ s.toList.head?, isBlank c = false := by
  rw [← String.toList_inj, trimStart, String.toList_ofList]
  cases s.toList with
  | nil => simp
  | cons c cs =>
    rw [List.dropWhile_cons]
    cases hc : isBlank c with
    | false => simp [hc]
    | true =>
      have hne : cs.dropWhile isBlank ≠ c :: cs := fun h => by
        have hlength := (List.dropWhile_sublist (l := cs) isBlank).length_le
        rw [h, List.length_cons] at hlength
        omega
      simp [hc, hne]

end Text

open Text (definesLabel Linked)

/-! ### Lines of instructions -/

theorem Label.definesLabel_repr (n : Nat) : definesLabel n.repr = false := by
  refine Text.definesLabel_eq_false ?_
  rintro c hc rfl
  rw [Nat.toList_repr] at hc
  exact not_mem_toDigits (by decide) n hc

theorem Label.definesLabel_numbered (base : String) (n : UInt32) :
    definesLabel (numbered base n) = false := by
  rw [numbered, Text.definesLabel_append _ (by simp)]
  exact definesLabel_repr n.toNat

/-- Of the operands only a label may end in a colon. -/
theorem Operand.definesLabel_text {a : Operand} (h : a.kind ≠ .label) (s : String) :
    definesLabel (s ++ a.text) = false := by
  cases a with
  | integer value =>
    rw [Operand.text, Int.toString_eq_repr, Int.repr_eq_if]
    split_ifs
    · rw [Text.definesLabel_append _ (by simp)]
      exact Label.definesLabel_repr _
    · rw [← String.append_assoc, Text.definesLabel_append _ (by simp)]
      exact Label.definesLabel_repr _
  | count value =>
    rw [Operand.text, Text.definesLabel_append _ (by simp)]
    exact Label.definesLabel_repr _
  | string value | symbol name =>
    rw [Operand.text, ← String.append_assoc, Text.definesLabel_append _ (by decide)]
    decide
  | label name => exact absurd rfl h

/-- The line of an instruction does not end in a colon, unless it refers to a label that does. -/
theorem Instruction.definesLabel_line {i : Instruction}
    (h : ∀ name, i.operand = some (.label name) →
      name.toList ≠ [] ∧ definesLabel name = false) : definesLabel i.line = false := by
  have hword (m : Mnemonic) : definesLabel m.text = false ∧ m.text.toList ≠ [] := by
    cases m <;> decide
  obtain ⟨m, o⟩ := i
  unfold Instruction.line
  split_ifs
  · rw [Text.definesLabel_append _ (hword m).2]
    exact (hword m).1
  · cases o with
    | none =>
      have hnil : definesLabel "nil" = false := by decide
      exact (Text.definesLabel_append _ (by simp [Instruction.operandText])).trans hnil
    | some a =>
      by_cases hkind : a.kind = .label
      · cases a <;> cases hkind
        obtain ⟨hne, hlabel⟩ := h _ rfl
        exact (Text.definesLabel_append _ hne).trans hlabel
      · exact Operand.definesLabel_text hkind _

/-- The lines of labels in the text of entries are the labels of the entries. -/
theorem filter_lines {es : List Entry}
    (h : ∀ i, .instruction i ∈ es → definesLabel i.line = false) :
    (es.flatMap Entry.lines).filter definesLabel = (labelsOf es).map (· ++ ":") := by
  induction es with
  | nil => rfl
  | cons x es ih =>
    have hrest := ih fun i hi => h i (.tail _ hi)
    have hempty : definesLabel "" = false := by decide
    cases x with
    | label name => simp [hrest, hempty, Text.definesLabel_colon]
    | instruction i => simp [hrest, h i (.head _)]

/-! ### Whole programs -/

section Program

variable {p : Program} {l : Listing} {text : String} {es : List Entry}

theorem Program.compile_eq_ok_iff : p.compile = .ok text ↔ ∃ l, p.lower = .ok l ∧ l.render = text := by
  unfold Program.compile
  cases p.lower <;> simp [Except.map]

/-- No line of an instruction of a program ends in a colon. -/
theorem definesLabel_line_of_mem_lower (hl : p.lower = .ok l) :
    ∀ i, .instruction i ∈ l.entries → definesLabel i.line = false := by
  intro i hi
  refine Instruction.definesLabel_line fun name hname => ?_
  have href : name ∈ l.references := by
    obtain ⟨m, o⟩ := i
    obtain rfl : o = some (.label name) := hname
    exact mem_references hi
  have hissued := (references_perm_of_lower hl).mem_iff.mp href
  obtain ⟨base, n, rfl⟩ := LabelCounters.numbered_of_mem_issued hissued
  exact ⟨by simp [Label.toList_numbered], Label.definesLabel_numbered base n⟩

/-- The label of a jump or of a closure is what stands behind the space. -/
theorem operand_of_line_eq {i : Instruction} {m : Mnemonic} {name : String} (hi : i.Fits)
    (hm : m = .jump ∨ m = .jumpIfFalse ∨ m = .close)
    (h : i.line = Instruction.indent ++ m.text ++ " " ++ name) : i = ⟨m, some (.label name)⟩ := by
  have hline : Instruction.line ⟨m, some (.label name)⟩
      = Instruction.indent ++ m.text ++ " " ++ name := rfl
  refine Instruction.line_inj hi ?_ (h.trans hline.symm)
  rcases hm with rfl | rfl | rfl <;> rfl

/-- The lines of labels in the text of a program: its labels, the first without the blanks at its
start. -/
theorem Program.SingleLine.filter_lines_render (hp : p.SingleLine) (hl : p.lower = .ok l)
    (hes : l.entries = .label p.firstLabel :: es) :
    (Text.lines l.render).filter definesLabel
      = (Text.trimStart p.firstLabel :: labelsOf es).map (· ++ ":") := by
  have hinstructions := definesLabel_line_of_mem_lower hl
  rw [hes] at hinstructions
  rw [hp.lines_render hl hes, List.filter_cons_of_pos (Text.definesLabel_colon _),
    filter_lines fun i hi => hinstructions i (.tail _ hi), List.map_cons]

/-- The line of a jump or of a closure in the text of a program is that of its instruction. -/
theorem Program.SingleLine.op_mem_of_line_mem (hp : p.SingleLine) (hl : p.lower = .ok l)
    (hes : l.entries = .label p.firstLabel :: es) {line name : String} {m : Mnemonic}
    (hline : line ∈ Text.lines l.render) (hlabel : definesLabel line = false)
    (hm : m = .jump ∨ m = .jumpIfFalse ∨ m = .close)
    (hname : line = Instruction.indent ++ m.text ++ " " ++ name) :
    Entry.op m (some (.label name)) ∈ l.entries := by
  rw [hp.lines_render hl hes, List.mem_cons] at hline
  rcases hline with rfl | hline
  · simp [Text.definesLabel_colon] at hlabel
  · obtain ⟨x, hx, hline⟩ := List.mem_flatMap.mp hline
    have hentry : x ∈ l.entries := hes ▸ List.mem_cons_of_mem _ hx
    cases x with
    | label name =>
      simp only [Entry.lines_label, List.mem_cons, List.not_mem_nil, or_false] at hline
      rcases hline with rfl | rfl
      · simp [Instruction.indent, ← String.toList_inj] at hname
      · simp [Text.definesLabel_colon] at hlabel
    | instruction i =>
      obtain rfl := List.mem_singleton.mp hline
      rwa [operand_of_line_eq (fits_of_mem_lower hl i hentry) hm hname] at hentry

/-- How often the line of a label stands in the text of a program. -/
theorem Program.SingleLine.count_lines_render (hp : p.SingleLine) (hl : p.lower = .ok l)
    (hes : l.entries = .label p.firstLabel :: es) (name : String) :
    (Text.lines l.render).count (name ++ ":")
      = (Text.trimStart p.firstLabel :: labelsOf es).count name := by
  have hinjective : Function.Injective fun s : String => s ++ ":" :=
    fun s t h => (String.append_left_inj ":").mp h
  rw [← List.count_filter (p := definesLabel) (Text.definesLabel_colon name),
    hp.filter_lines_render hl hes]
  exact List.count_map_of_injective _ _ hinjective name

/-- The label of a program that no blank starts is looked up by its own name only. -/
theorem Program.SingleLine.count_lines_eq_one (hsize : p.draws.length < 2 ^ 32)
    (hp : p.SingleLine) (hl : p.lower = .ok l) (hes : l.entries = .label p.firstLabel :: es)
    (htrim : Text.trimStart p.firstLabel = p.firstLabel) {name : String} (hname : name ∈ l.labels) :
    (Text.lines l.render).count (name ++ ":") = 1 := by
  rw [hp.count_lines_render hl hes, htrim, ← Listing.labels_of_entries hes]
  exact List.count_eq_one_of_mem (labels_nodup_of_lower hsize hl) hname

/-- The name of the first label is not that of a later one, so that nothing has it once the first
label has lost a blank. -/
theorem Program.SingleLine.trimStart_firstLabel (hsize : p.draws.length < 2 ^ 32)
    (hp : p.SingleLine) (hl : p.lower = .ok l) (hes : l.entries = .label p.firstLabel :: es)
    (hcount : (Text.lines l.render).count (p.firstLabel ++ ":") = 1) :
    Text.trimStart p.firstLabel = p.firstLabel := by
  have hnodup := labels_nodup_of_lower hsize hl
  rw [Listing.labels_of_entries hes, List.nodup_cons] at hnodup
  rw [hp.count_lines_render hl hes] at hcount
  have hmem : p.firstLabel ∈ Text.trimStart p.firstLabel :: labelsOf es :=
    List.count_pos_iff.mp (by omega)
  exact ((List.mem_cons.mp hmem).resolve_right hnodup.1).symm

/-- The first label of a program is that of the program itself, or an instruction refers to it. -/
theorem Program.firstLabel_referenced (hl : p.lower = .ok l)
    (hes : l.entries = .label p.firstLabel :: es) :
    p.firstLabel = Label.main ∨
      ∃ m, (m = .jump ∨ m = .jumpIfFalse ∨ m = .close) ∧
        Entry.op m (some (.label p.firstLabel)) ∈ es := by
  have hlabel : p.firstLabel ∈ l.labels := by
    rw [Listing.labels_of_entries hes]
    exact List.mem_cons_self
  rcases List.mem_cons.mp ((labels_perm_references hl).mem_iff.mp hlabel) with hmain | hreference
  · exact .inl hmain
  · obtain ⟨m, hx⟩ := exists_op_of_mem_references hreference
    refine .inr ⟨m, mnemonic_of_mem_lower hl hx, ?_⟩
    rw [hes] at hx
    exact (List.mem_cons.mp hx).resolve_left (by rintro ⟨⟩)

/-- **Links survive exactly when the first label keeps its name.** In the text of a program whose
names, symbols and strings have no newline in them, no label has two lines and each jump and each
closure finds the one line of its label, unless the first label starts with a blank. -/
theorem linked_iff (hsize : p.draws.length < 2 ^ 32) (hp : p.SingleLine)
    (htext : p.compile = .ok text) :
    Linked text ↔ ∀ c ∈ p.firstLabel.toList.head?, Text.isBlank c = false := by
  obtain ⟨l, hl, rfl⟩ := Program.compile_eq_ok_iff.mp htext
  obtain ⟨es, hes⟩ := Program.exists_entries_eq hl
  have hlines := hp.lines_render hl hes
  rw [← Text.trimStart_eq_self_iff]
  constructor
  · intro hlinked
    rcases p.firstLabel_referenced hl hes with hmain | ⟨m, hm, hmem⟩
    · rw [hmain, Text.trimStart_eq_self_iff]
      simp [Label.main, Text.isBlank, Text.inRanges, Text.blankRanges]
    · -- the line of the reference looks for the name of the label as it is
      have hline : Instruction.line ⟨m, some (.label p.firstLabel)⟩ ∈ Text.lines l.render := by
        rw [hlines]
        exact .tail _ (List.mem_flatMap.mpr ⟨_, hmem, List.mem_singleton_self _⟩)
      have hnone := definesLabel_line_of_mem_lower hl _ (hes ▸ List.mem_cons_of_mem _ hmem)
      exact hp.trimStart_firstLabel hsize hl hes (hlinked.target _ hline hnone m hm _ rfl)
  · intro htrim
    have hnodup := labels_nodup_of_lower hsize hl
    refine ⟨?_, fun line hline hlabel m hm name hname => ?_⟩
    · rw [hp.filter_lines_render hl hes, htrim, ← Listing.labels_of_entries hes]
      exact hnodup.map fun s t h => (String.append_left_inj ":").mp h
    · have hreference : Entry.op m (some (.label name)) ∈ l.entries :=
        hp.op_mem_of_line_mem hl hes hline hlabel hm hname
      refine hp.count_lines_eq_one hsize hl hes htrim ?_
      exact (labels_perm_references hl).mem_iff.mpr (.tail _ (mem_references hreference))

end Program

/-- The first line of `indentedName` is not the name of its function, but without the blank. -/
theorem indentedName_lines :
    Text.lines indentedNameListing.render = ["f$0:", "    pop sym(a)", "    push sym(a)",
      "    return", "", "__main__:", "    close  f$0", "    drop", "    end nil"] := by
  have hp : indentedName.SingleLine := by decide
  have hl : indentedName.lower = .ok indentedNameListing := rfl
  have hfirst : indentedName.firstLabel = " f$0" := rfl
  have htrim : Text.trimStart " f$0" = "f$0" := by
    simp [Text.trimStart, Text.isBlank, Text.inRanges, Text.blankRanges]
  rw [hp.lines_render hl rfl, hfirst, htrim]
  rfl

/-- The reference to the function of `indentedName` keeps the blank that the line of its label has
lost: no line is that of the label. -/
theorem indentedName_unlinked :
    indentedName.draws.length < 2 ^ 32 ∧ indentedName.SingleLine ∧
      indentedName.compile = .ok indentedNameListing.render ∧
      "    close  f$0" ∈ Text.lines indentedNameListing.render ∧
      (Text.lines indentedNameListing.render).count " f$0:" = 0 := by
  refine ⟨by decide, by decide, rfl, ?_⟩
  rw [indentedName_lines]
  decide

/-- The links of `indentedName` are broken, and so is what its first label starts with. -/
theorem indentedName_linked_iff :
    indentedName.draws.length < 2 ^ 32 ∧ indentedName.SingleLine ∧
      indentedName.compile = .ok indentedNameListing.render ∧
      (Linked indentedNameListing.render ↔
        ∀ c ∈ indentedName.firstLabel.toList.head?, Text.isBlank c = false) :=
  have hsize : indentedName.draws.length < 2 ^ 32 := by decide
  have hp : indentedName.SingleLine := by decide
  have htext : indentedName.compile = .ok indentedNameListing.render := rfl
  ⟨hsize, hp, htext, linked_iff hsize hp htext⟩

end StackLowering
