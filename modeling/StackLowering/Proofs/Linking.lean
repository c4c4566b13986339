import StackLowering.Proofs.Entries
import Mathlib.Data.List.Perm.Lattice

/-!
# Labels and the entries that refer to them

The labels of a program come from four sources: names of functions, the base of functions without a
name, the three bases of a conditional, and the label of the program itself. They share one set of
names, and a label that stood twice would send a jump or a closure to the wrong place.

Both sides are counted against the draws of the tree. Each label that the draws issue stands once
as a label and once as an operand, in whatever order, so freshness of the draws is all that
uniqueness needs.

## Main definitions

* `Listing.references` — the operands of a listing that are labels, in order

## Main results

* `Lowers.labels_perm` — the labels of code are those that the draws issue
* `Lowers.references_perm_labels` — code refers once to each of its labels
* `listing_links` — in the listing of a program every label is unique and has one reference
-/

namespace StackLowering

/-- The names that entries define, in order. -/
def labelsOf (es : List Entry) : List String := es.filterMap Entry.label?

/-- The labels that entries refer to, in order. -/
def referencesOf (es : List Entry) : List String := es.filterMap Entry.reference?

/-- The operands of the listing that are labels, in order. -/
def Listing.references (l : Listing) : List String := referencesOf l.entries

variable {c c' : LabelCounters} {k : Code} {P : Part} {x : String}

@[simp] theorem labelsOf_nil : labelsOf [] = [] := rfl
@[simp] theorem labelsOf_append (es es' : List Entry) :
    labelsOf (es ++ es') = labelsOf es ++ labelsOf es' := List.filterMap_append
@[simp] theorem labelsOf_label (name : String) (es : List Entry) :
    labelsOf (.label name :: es) = name :: labelsOf es := rfl
@[simp] theorem labelsOf_instruction (i : Instruction) (es : List Entry) :
    labelsOf (.instruction i :: es) = labelsOf es := rfl
@[simp] theorem labelsOf_op (m : Mnemonic) (o : Option Operand) (es : List Entry) :
    labelsOf (.op m o :: es) = labelsOf es := rfl

theorem Listing.labels_of_entries {l : Listing} {name : String} {es : List Entry}
    (h : l.entries = .label name :: es) : l.labels = name :: labelsOf es := by
  rw [Listing.labels, h]
  rfl

@[simp] theorem referencesOf_nil : referencesOf [] = [] := rfl
@[simp] theorem referencesOf_append (es es' : List Entry) :
    referencesOf (es ++ es') = referencesOf es ++ referencesOf es' := List.filterMap_append
@[simp] theorem referencesOf_label (name : String) (es : List Entry) :
    referencesOf (.label name :: es) = referencesOf es := rfl
@[simp] theorem referencesOf_op_label (m : Mnemonic) (name : String) (es : List Entry) :
    referencesOf (.op m (some (.label name)) :: es) = name :: referencesOf es := rfl
@[simp] theorem referencesOf_op_count (m : Mnemonic) (n : UInt64) (es : List Entry) :
    referencesOf (.op m (some (.count n)) :: es) = referencesOf es := rfl
@[simp] theorem referencesOf_op_none (m : Mnemonic) (es : List Entry) :
    referencesOf (.op m none :: es) = referencesOf es := rfl

/-! ### Entries without labels -/

@[simp] theorem labelsOf_popFormals (formals : List String) :
    labelsOf (popFormals formals) = [] := by
  rw [labelsOf, List.filterMap_eq_nil_iff]
  intro x hx
  obtain ⟨name, -, rfl⟩ := mem_popFormals.mp hx
  rfl

@[simp] theorem referencesOf_popFormals (formals : List String) :
    referencesOf (popFormals formals) = [] := by
  rw [referencesOf, List.filterMap_eq_nil_iff]
  intro x hx
  obtain ⟨name, -, rfl⟩ := mem_popFormals.mp hx
  rfl

@[simp] theorem labelsOf_action (a : Action) : labelsOf a.entries = [] := by
  cases a <;> rfl

@[simp] theorem referencesOf_action (a : Action) : referencesOf a.entries = [] := by
  cases a <;> rfl

/-! ### Counting against the draws -/

/-- Every label that the draws of a part issue stands once as a label of its code. -/
theorem Lowers.labels_perm (h : Lowers P c k c') :
    (labelsOf (k.lifted ++ k.own)).Perm (c.issued P.draws) := by
  induction h with
  | @instruction e i c h => rw [Part.draws, Expr.draws_of_instruction? h]; rfl
  | call _ _ ih => simpa [Part.draws, Expr.draws] using ih
  | ifElse h₁ h₂ _ ih₁ ih₂ ih₃ =>
    rw [List.perm_iff_count] at ih₁ ih₂ ih₃ ⊢
    intro x
    have h₁' := ih₁ x
    have h₂' := ih₂ x
    have h₃' := ih₃ x
    rw [h₂.counters] at h₃'
    rw [h₁.counters] at h₂' h₃'
    simp only [Code.ofArms, Part.draws, Expr.draws, labelsOf_append, labelsOf_op, labelsOf_label,
      labelsOf_nil, LabelCounters.issued_cons, LabelCounters.issued_append, Draw.labels_branch,
      Draw.base, LabelCounters.drawAll_append, List.count_append, List.count_cons,
      List.count_nil] at h₁' h₂' h₃' ⊢
    omega
  | lambda _ ih =>
    rw [List.perm_iff_count] at ih ⊢
    intro x
    have h' := ih x
    simp only [Code.ofLambda, Part.draws, Expr.draws, labelsOf_append, labelsOf_op, labelsOf_label,
      labelsOf_nil, labelsOf_popFormals, LabelCounters.issued_cons, Draw.labels_function,
      Draw.base, List.count_append, List.count_cons, List.count_nil] at h' ⊢
    omega
  | nil => exact .rfl
  | snoc h₁ _ ih₁ ih₂ | body h₁ _ ih₁ ih₂ =>
    rw [List.perm_iff_count] at ih₁ ih₂ ⊢
    intro x
    have h₁' := ih₁ x
    have h₂' := ih₂ x
    rw [h₁.counters] at h₂'
    simp only [Part.draws, Stmt.drawsAll_append, Stmt.drawsAll_singleton, Code.lifted_append,
      Code.own_append, Code.lifted_ofAction, Code.own_ofAction, labelsOf_append, labelsOf_action,
      LabelCounters.issued_append, List.count_append, List.count_nil] at h₁' h₂' ⊢
    omega

/-- Code refers once to each of its labels, and to no other. -/
theorem Lowers.references_perm_labels (h : Lowers P c k c') :
    (referencesOf (k.lifted ++ k.own)).Perm (labelsOf (k.lifted ++ k.own)) := by
  induction h with
  | @instruction e i c h => simp [referencesOf, Expr.reference?_of_instruction? h]
  | call _ _ ih => simpa using ih
  | ifElse _ _ _ ih₁ ih₂ ih₃ =>
    rw [List.perm_iff_count] at ih₁ ih₂ ih₃ ⊢
    intro x
    have h₁ := ih₁ x
    have h₂ := ih₂ x
    have h₃ := ih₃ x
    simp only [Code.ofArms, labelsOf_append, labelsOf_op, labelsOf_label, labelsOf_nil,
      referencesOf_append, referencesOf_op_label, referencesOf_label, referencesOf_nil,
      List.count_append, List.count_cons, List.count_nil] at h₁ h₂ h₃ ⊢
    omega
  | lambda _ ih =>
    rw [List.perm_iff_count] at ih ⊢
    intro x
    have h := ih x
    simp only [Code.ofLambda, labelsOf_append, labelsOf_op, labelsOf_label, labelsOf_nil,
      labelsOf_popFormals, referencesOf_append, referencesOf_op_label, referencesOf_op_none,
      referencesOf_label, referencesOf_nil, referencesOf_popFormals, List.count_append,
      List.count_cons, List.count_nil] at h ⊢
    omega
  | nil => exact .rfl
  | snoc _ _ ih₁ ih₂ | body _ _ ih₁ ih₂ =>
    rw [List.perm_iff_count] at ih₁ ih₂ ⊢
    intro x
    have h₁ := ih₁ x
    have h₂ := ih₂ x
    simp only [Code.lifted_append, Code.own_append, Code.lifted_ofAction, Code.own_ofAction,
      labelsOf_append, labelsOf_action, referencesOf_append, referencesOf_action,
      List.count_append, List.count_nil] at h₁ h₂ ⊢
    omega

theorem InPlace.mnemonic_of_label {m : Mnemonic} (h : InPlace (.op m (some (.label x)))) :
    m = .jump ∨ m = .jumpIfFalse ∨ m = .close := by
  generalize hy : Entry.op m (some (.label x)) = y at h
  cases h with
  | value h =>
    obtain rfl := Entry.instruction.inj hy
    exact absurd rfl ((Expr.makesValue_of_instruction? h).2 x)
  | jump => cases hy; exact .inl rfl
  | jumpIfFalse => cases hy; exact .inr (.inl rfl)
  | close => cases hy; exact .inr (.inr rfl)
  | call | pop | drop | label => cases hy

/-! ### Whole programs -/

section Program

variable {p : Program} {l : Listing}

/-- The labels of a program are its own label and those that its draws issue. -/
theorem labels_perm_of_lower (hl : p.lower = .ok l) :
    l.labels.Perm (Label.main :: LabelCounters.empty.issued p.draws) := by
  obtain ⟨k, c', hk, rfl⟩ := Program.lower_eq_ok_iff.mp hl
  have hperm := hk.labels_perm
  rw [List.perm_iff_count] at hperm ⊢
  intro x
  have hx := hperm x
  have hlabels : k.toListing.labels = labelsOf k.lifted ++ [Label.main] ++ labelsOf k.own := by
    simp [Listing.labels, Code.toListing, labelsOf, Entry.label?, Entry.op]
  simp only [labelsOf_append, List.count_append] at hx
  simp only [hlabels, List.count_append, List.count_cons, List.count_nil, Program.draws,
    Part.draws] at hx ⊢
  omega

/-- A program refers to the labels that its draws issue, and to no other. -/
theorem references_perm_of_lower (hl : p.lower = .ok l) :
    l.references.Perm (LabelCounters.empty.issued p.draws) := by
  obtain ⟨k, c', hk, rfl⟩ := Program.lower_eq_ok_iff.mp hl
  have hreferences : k.toListing.references = referencesOf (k.lifted ++ k.own) := by
    simp [Listing.references, Code.toListing]
  rw [hreferences]
  exact hk.references_perm_labels.trans hk.labels_perm

/-- No label of a program stands twice. -/
theorem labels_nodup_of_lower (hsize : p.draws.length < 2 ^ 32) (hl : p.lower = .ok l) :
    l.labels.Nodup := by
  have hfits := LabelCounters.noOverflow_empty hsize
  rw [(labels_perm_of_lower hl).nodup_iff, List.nodup_cons]
  exact ⟨LabelCounters.main_not_mem_issued hfits, LabelCounters.issued_nodup hfits⟩

/-- An operand of a program that is a label belongs to a jump or to a closure. -/
theorem mnemonic_of_mem_lower (hl : p.lower = .ok l) {m : Mnemonic}
    (hm : .op m (some (.label x)) ∈ l.entries) : m = .jump ∨ m = .jumpIfFalse ∨ m = .close := by
  obtain ⟨k, c', hk, rfl⟩ := Program.lower_eq_ok_iff.mp hl
  simp only [Code.toListing, List.mem_append, List.mem_singleton] at hm
  rcases hm with ((hm | hm) | hm) | hm
  · obtain h | h := hk.inPlace_of_mem_lifted _ hm
    · exact h.mnemonic_of_label
    · cases h
  · cases hm
  · exact (hk.inPlace_of_mem_own _ hm).mnemonic_of_label
  · cases hm

theorem mem_references {m : Mnemonic} (hm : .op m (some (.label x)) ∈ l.entries) :
    x ∈ l.references :=
  List.mem_filterMap.mpr ⟨_, hm, rfl⟩

theorem exists_op_of_mem_references (hx : x ∈ l.references) :
    ∃ m, .op m (some (.label x)) ∈ l.entries := by
  obtain ⟨y, hy, href⟩ := List.mem_filterMap.mp hx
  unfold Entry.reference? at href
  split at href <;> cases href
  exact ⟨_, hy⟩

/-- **Exact linking.** In the listing of a program no label stands twice. Every operand that is a
label belongs to a jump or to a closure and is the name of exactly one label. Every label is the
operand of exactly one instruction, apart from that of the program itself, which stands once and
is the operand of none. -/
theorem listing_links (hsize : p.draws.length < 2 ^ 32) (hl : p.lower = .ok l) :
    l.labels.Nodup ∧
      (∀ m x, .op m (some (.label x)) ∈ l.entries →
        (m = .jump ∨ m = .jumpIfFalse ∨ m = .close) ∧ l.labels.count x = 1) ∧
      (∀ x ∈ l.labels, x ≠ Label.main → l.references.count x = 1) ∧
      l.labels.count Label.main = 1 ∧ Label.main ∉ l.references := by
  have hfits := LabelCounters.noOverflow_empty hsize
  have hnodup := labels_nodup_of_lower hsize hl
  have hlabels := labels_perm_of_lower hl
  have hreferences := references_perm_of_lower hl
  refine ⟨hnodup, fun m x hm => ⟨mnemonic_of_mem_lower hl hm, ?_⟩, fun x hx hne => ?_, ?_, ?_⟩
  · have hx := hreferences.mem_iff.mp (mem_references hm)
    exact List.count_eq_one_of_mem hnodup (hlabels.mem_iff.mpr (List.mem_cons_of_mem _ hx))
  · have hissued := (List.mem_cons.mp (hlabels.mem_iff.mp hx)).resolve_left hne
    rw [hreferences.count_eq]
    exact List.count_eq_one_of_mem (LabelCounters.issued_nodup hfits) hissued
  · exact List.count_eq_one_of_mem hnodup (hlabels.mem_iff.mpr List.mem_cons_self)
  · rw [hreferences.mem_iff]
    exact LabelCounters.main_not_mem_issued hfits

end Program

/-- A conditional whose arms are functions. One of them has the name of a base of the conditional
itself, the other one has none. -/
def functionsInArms : Program where
  statements := [.mk .discard (.ifElse (.symbol "c")
    [.mk .discard (.lambda (some "else") ["a"] [.mk .discard (.integer 1) none]) none]
    [.mk .discard (.lambda none [] [.mk .discard .list none]) none]) none]

/-- Its listing. -/
def functionsInArmsListing : Listing where
  entries := [.label "else$1", .op .pop (some (.symbol "a")),
    .op .pushInteger (some (.integer 1)), .op .ret none,
    .label "__lambda__$0", .op .list (some (.count 2)), .op .ret none,
    .label "__main__", .op .push (some (.symbol "c")),
    .op .jumpIfFalse (some (.label "else$0")), .op .jump (some (.label "if$0")), .label "if$0",
    .op .close (some (.label "else$1")), .op .jump (some (.label "endif$0")), .label "else$0",
    .op .close (some (.label "__lambda__$0")), .label "endif$0", .drop, .op .halt none]

theorem functionsInArms_links :
    functionsInArms.draws.length < 2 ^ 32 ∧
      functionsInArms.lower = .ok functionsInArmsListing ∧
      functionsInArmsListing.labels.Nodup ∧
      (∀ m x, .op m (some (.label x)) ∈ functionsInArmsListing.entries →
        (m = .jump ∨ m = .jumpIfFalse ∨ m = .close) ∧ functionsInArmsListing.labels.count x = 1) ∧
      (∀ x ∈ functionsInArmsListing.labels, x ≠ Label.main →
        functionsInArmsListing.references.count x = 1) ∧
      functionsInArmsListing.labels.count Label.main = 1 ∧
      Label.main ∉ functionsInArmsListing.references :=
  have hsize : functionsInArms.draws.length < 2 ^ 32 := by decide
  have hlower : functionsInArms.lower = .ok functionsInArmsListing := rfl
  ⟨hsize, hlower, listing_links hsize hlower⟩

end StackLowering
