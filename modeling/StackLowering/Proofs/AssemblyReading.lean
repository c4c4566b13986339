import StackLowering.Proofs.AssemblyLines
import Std.Data.String.ToInt

/-!
# Reading assembly text

Assembly text escapes nothing, and a number in it may be an integer or a count. It can be read back
all the same. An empty line announces a label, since no other line is empty. The first word of any
other line is its operation, and in the code of a tree the operation tells what kind of operand
comes behind it, so that the rest of the line is the operand as it is.

The text shows the first label without the blank characters at its start. What is missing is found
in the only instruction that refers to the label.

## Main definitions

* `OperandKind`, `Mnemonic.operandKind` — the kind of operand that an operation carries in the code
  of a tree
* `Instruction.Fits` — the operand is of the kind that belongs to the operation

## Main results

* `Lowers.fits` — the instructions of a tree have the operands that belong to them
* `Instruction.line_inj` — the line of such an instruction tells the instruction
* `render_inj` — the text of a program on single lines tells its listing
-/

namespace StackLowering

/-! ### Operations and their operands -/

/-- The kinds of operands, and the absence of one. -/
inductive OperandKind
  | absent
  | integer
  | count
  | string
  | symbol
  | label
deriving DecidableEq

/-- The kind of an operand. -/
def Operand.kind : Operand → OperandKind
  | .integer _ => .integer
  | .count _ => .count
  | .string _ => .string
  | .symbol _ => .symbol
  | .label _ => .label

/-- The kind of the operand of an instruction. -/
def Instruction.kind (i : Instruction) : OperandKind := (i.operand.map Operand.kind).getD .absent

/-- The kind of operand that an operation carries in the code of a tree. -/
def Mnemonic.operandKind : Mnemonic → OperandKind
  | .pushInteger => .integer
  | .pushString => .string
  | .push | .pushSymbol | .pop => .symbol
  | .close | .jump | .jumpIfFalse => .label
  | .drop | .ret | .halt => .absent
  | .list | .record | .call | .get | .add | .idiv | .mod | .mul | .neg | .sub | .eq | .neq | .lt
  | .lte | .gt | .gte | .concat | .field => .count

/-- The instruction has an operand of the kind that belongs to its operation. -/
def Instruction.Fits (i : Instruction) : Prop := i.kind = i.mnemonic.operandKind

section Fits

variable {e : Expr} {i : Instruction} {c c' : LabelCounters} {k : Code} {P : Part}

theorem Expr.fits_of_instruction? (h : e.instruction? = some i) : i.Fits := by
  have hbuiltin : ∀ x ∈ Builtin.table, x.2.operandKind = .count := by decide
  cases Expr.becomes_of_instruction? h with
  | callBuiltin hm => exact (hbuiltin _ (Builtin.mem_table_of_mnemonic? hm)).symm
  | _ => rfl

theorem InPlace.fits (h : InPlace (.instruction i)) : i.Fits := by
  generalize hx : Entry.instruction i = x at h
  cases h with
  | value h =>
    obtain rfl := Entry.instruction.inj hx
    exact Expr.fits_of_instruction? h
  | label => cases hx
  | _ => obtain rfl := Entry.instruction.inj hx; rfl

/-- **The instructions of a tree have the operands that belong to them.** -/
theorem Lowers.fits (h : Lowers P c k c') : ∀ i, .instruction i ∈ k.lifted ++ k.own → i.Fits := by
  intro i hi
  rcases List.mem_append.mp hi with hi | hi
  · rcases h.inPlace_of_mem_lifted _ hi with hplace | hret
    · exact hplace.fits
    · obtain rfl := Entry.instruction.inj hret
      rfl
  · exact (h.inPlace_of_mem_own _ hi).fits

theorem fits_of_mem_lower {p : Program} {l : Listing} (hl : p.lower = .ok l) :
    ∀ i, .instruction i ∈ l.entries → i.Fits := by
  obtain ⟨k, c', hk, rfl⟩ := Program.lower_eq_ok_iff.mp hl
  intro i hi
  have hfits := hk.fits i
  simp only [Code.toListing, List.mem_append, List.mem_singleton, reduceCtorEq, or_false] at hi hfits
  rcases hi with (hi | hi) | hi
  · exact hfits (.inl hi)
  · exact hfits (.inr hi)
  · obtain rfl := Entry.instruction.inj hi
    rfl

end Fits

/-! ### Reading a line -/

/-- Operands of one kind that are written alike are equal. -/
theorem Operand.text_inj {a b : Operand} (hkind : a.kind = b.kind) (h : a.text = b.text) :
    a = b := by
  cases a <;> cases b <;> cases hkind
  case integer.integer =>
    rw [Operand.text, Operand.text, Int.toString_eq_repr, Int.toString_eq_repr, Int.repr_inj,
      Int64.toInt_inj] at h
    rw [h]
  case count.count =>
    rw [Operand.text, Operand.text, Nat.toString_eq_repr, Nat.toString_eq_repr, Nat.repr_inj,
      UInt64.toNat_inj] at h
    rw [h]
  case label.label => exact congrArg _ h
  all_goals
    rw [Operand.text, Operand.text, String.append_left_inj, String.append_right_inj] at h
    rw [h]

namespace Instruction

/-- What stands behind the operation on the line of an instruction. -/
def tail (i : Instruction) : List Char :=
  if i.operand.isNone && i.mnemonic.standsAlone then [] else ' ' :: i.operandText.toList

theorem toList_line (i : Instruction) :
    i.line.toList = indent.toList ++ (i.mnemonic.text.toList ++ i.tail) := by
  unfold line tail
  split_ifs <;> simp

theorem takeWhile_tail (i : Instruction) : i.tail.takeWhile (· ≠ ' ') = [] := by
  unfold tail
  split_ifs <;> rfl

theorem ne_space_of_mem_text (m : Mnemonic) : ∀ c ∈ m.text.toList, decide (c ≠ ' ') = true :=
  List.all_eq_true.mp (by cases m <;> decide)

/-- The first word of a line is the operation. -/
theorem mnemonic_inj {i j : Instruction} (h : i.line = j.line) :
    i.mnemonic = j.mnemonic ∧ i.tail = j.tail := by
  have hchars := congrArg String.toList h
  rw [toList_line, toList_line, List.append_cancel_left_eq] at hchars
  have hword (i : Instruction) :
      (i.mnemonic.text.toList ++ i.tail).takeWhile (· ≠ ' ') = i.mnemonic.text.toList := by
    rw [List.takeWhile_append_of_pos (ne_space_of_mem_text _), takeWhile_tail, List.append_nil]
  have hmnemonic : i.mnemonic = j.mnemonic := by
    refine Mnemonic.text_injective (String.toList_inj.mp ?_)
    rw [← hword i, hchars, hword j]
  rw [hmnemonic, List.append_cancel_left_eq] at hchars
  exact ⟨hmnemonic, hchars⟩

/-- **The line of an instruction tells the instruction**, where its operand is of the kind that
belongs to its operation. -/
theorem line_inj {i j : Instruction} (hi : i.Fits) (hj : j.Fits) (h : i.line = j.line) : i = j := by
  obtain ⟨m, o⟩ := i
  obtain ⟨n, o'⟩ := j
  obtain ⟨hm, htail⟩ := mnemonic_inj h
  obtain rfl : m = n := hm
  have hkind : Instruction.kind ⟨m, o⟩ = Instruction.kind ⟨m, o'⟩ := hi.trans hj.symm
  cases o with
  | none =>
    cases o' with
    | none => rfl
    | some a => cases a <;> cases hkind
  | some a =>
    cases o' with
    | none => cases a <;> cases hkind
    | some b =>
      have htext : a.text.toList = b.text.toList := by simpa [tail, operandText] using htail
      rw [Operand.text_inj hkind (String.toList_inj.mp htext)]

end Instruction

/-! ### Reading a listing -/

theorem Instruction.line_ne_empty (i : Instruction) : i.line ≠ "" := by
  intro h
  have hchars := i.toList_line
  rw [h] at hchars
  simp [indent] at hchars

/-- The lines of entries tell the entries: an empty line announces a label. -/
theorem flatMap_lines_inj {es es' : List Entry} (hes : ∀ i, .instruction i ∈ es → i.Fits)
    (hes' : ∀ i, .instruction i ∈ es' → i.Fits)
    (h : es.flatMap Entry.lines = es'.flatMap Entry.lines) : es = es' := by
  induction es generalizing es' with
  | nil =>
    rcases es' with _ | ⟨y, es'⟩
    · rfl
    · cases y <;> simp at h
  | cons x es ih =>
    rcases es' with _ | ⟨y, es'⟩
    · cases x <;> simp at h
    have hrest := @ih es' (fun i hi => hes i (.tail _ hi)) (fun i hi => hes' i (.tail _ hi))
    cases x with
    | label name =>
      cases y with
      | label name' =>
        simp only [List.flatMap_cons, Entry.lines_label, List.cons_append, List.nil_append,
          List.cons.injEq, String.append_left_inj, true_and] at h
        rw [h.1, hrest h.2]
      | instruction j =>
        simp only [List.flatMap_cons, Entry.lines_label, Entry.lines_instruction, List.cons_append,
          List.nil_append, List.cons.injEq] at h
        exact absurd h.1.symm j.line_ne_empty
    | instruction i =>
      cases y with
      | label name' =>
        simp only [List.flatMap_cons, Entry.lines_label, Entry.lines_instruction, List.cons_append,
          List.nil_append, List.cons.injEq] at h
        exact absurd h.1 i.line_ne_empty
      | instruction j =>
        simp only [List.flatMap_cons, Entry.lines_instruction, List.cons_append, List.nil_append,
          List.cons.injEq] at h
        rw [Instruction.line_inj (hes i (.head _)) (hes' j (.head _)) h.1, hrest h.2]

/-- The labels of a program are its own and those that it refers to. -/
theorem labels_perm_references {p : Program} {l : Listing} (hl : p.lower = .ok l) :
    l.labels.Perm (Label.main :: l.references) :=
  (labels_perm_of_lower hl).trans ((references_perm_of_lower hl).symm.cons _)

/-- The entries behind the first label tell that label: it is the one that they refer to and do not
define. -/
theorem label_inj {p q : Program} {l m : Listing} (hl : p.lower = .ok l) (hm : q.lower = .ok m)
    {a b : String} {es : List Entry} (ha : l.entries = .label a :: es)
    (hb : m.entries = .label b :: es) : a = b := by
  have hperm : (a :: labelsOf es).Perm (b :: labelsOf es) := by
    have hpl := labels_perm_references hl
    have hpm := labels_perm_references hm
    simp only [Listing.labels, Listing.references, ha, hb, referencesOf_label] at hpl hpm
    exact hpl.trans hpm.symm
  have hcount := hperm.count_eq a
  rw [List.count_cons_self, List.count_cons] at hcount
  by_contra hne
  rw [beq_false_of_ne (Ne.symm hne)] at hcount
  simp at hcount

/-- **Text loses nothing.** Two programs whose names, symbols and strings have no newline in them
have the same text only if they have the same entries. -/
theorem render_inj {p q : Program} {l m : Listing} (hp : p.SingleLine) (hq : q.SingleLine)
    (hl : p.lower = .ok l) (hm : q.lower = .ok m) (h : l.render = m.render) :
    l.entries = m.entries := by
  obtain ⟨es, hes⟩ := Program.exists_entries_eq hl
  obtain ⟨es', hes'⟩ := Program.exists_entries_eq hm
  have hlines := congrArg Text.lines h
  rw [hp.lines_render hl hes, hq.lines_render hm hes', List.cons.injEq] at hlines
  have hfits := fits_of_mem_lower hl
  have hfits' := fits_of_mem_lower hm
  rw [hes] at hfits
  rw [hes'] at hfits'
  obtain rfl : es = es' := flatMap_lines_inj (fun i hi => hfits i (.tail _ hi))
    (fun i hi => hfits' i (.tail _ hi)) hlines.2
  rw [hes, hes', label_inj hl hm hes hes']

/-- A function whose name starts with a blank, and which returns its argument. -/
def indentedName : Program where
  statements := [.mk .discard (.lambda (some " f") ["a"] [.mk .discard (.symbol "a") none]) none]

/-- The same function, with an argument that is known to be a variable. -/
def indentedNameOfVariable : Program where
  statements := [.mk .discard (.lambda (some " f") ["a"] [.mk .discard (.variable "a") none]) none]

/-- The listing of both. -/
def indentedNameListing : Listing where
  entries := [.label " f$0", .op .pop (some (.symbol "a")), .op .push (some (.symbol "a")),
    .op .ret none, .label "__main__", .op .close (some (.label " f$0")), .drop, .op .halt none]

/-- The text does not show that the label starts with a blank. It tells the listing all the same. -/
theorem indentedName_render :
    indentedName.SingleLine ∧ indentedNameOfVariable.SingleLine ∧
      indentedName.lower = .ok indentedNameListing ∧
      indentedNameOfVariable.lower = .ok indentedNameListing ∧
      indentedNameListing.render = "f$0:\n    pop sym(a)\n    push sym(a)\n    return\n\n" ++
        "__main__:\n    close  f$0\n    drop\n    end nil" ∧
      indentedNameListing.entries = indentedNameListing.entries :=
  have hp : indentedName.SingleLine := by decide
  have hq : indentedNameOfVariable.SingleLine := by decide
  have hl : indentedName.lower = .ok indentedNameListing := rfl
  have hm : indentedNameOfVariable.lower = .ok indentedNameListing := rfl
  ⟨hp, hq, hl, hm, by decide +kernel, render_inj hp hq hl hm rfl⟩

end StackLowering
