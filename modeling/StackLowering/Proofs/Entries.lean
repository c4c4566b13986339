import StackLowering.Proofs.Derivation

/-!
# Which entries are emitted

Nothing in the type of an entry ties an operation to the kind of its operand. In the code of a tree
the two go together all the same: there are eight forms of entries, and a ninth, the return, which
only ends the block of a function.

## Main definitions

* `InPlace` — the forms of the entries that stand in the place of their part of the tree
* `Entry.reference?` — the label that an entry refers to

## Main results

* `Lowers.inPlace_of_mem_own`, `Lowers.inPlace_of_mem_lifted` — every entry has one of the forms
* `Lowers.startsWithValue` — the code of an expression or of a body starts by making a value
-/

namespace StackLowering

variable {e : Expr} {i : Instruction} {c c' : LabelCounters} {k : Code} {P : Part}

/-- The label that an entry refers to. -/
def Entry.reference? : Entry → Option String
  | .instruction ⟨_, some (.label name)⟩ => some name
  | .instruction ⟨_, some (.integer _)⟩ | .instruction ⟨_, some (.count _)⟩
  | .instruction ⟨_, some (.string _)⟩ | .instruction ⟨_, some (.symbol _)⟩
  | .instruction ⟨_, none⟩ | .label _ => none

/-- The forms of the entries that stand in the place of their part of the tree. -/
inductive InPlace : Entry → Prop
  | value {e : Expr} {i : Instruction} (h : e.instruction? = some i) : InPlace (.instruction i)
  | call (n : UInt64) : InPlace (.op .call (some (.count n)))
  | close (label : String) : InPlace (.op .close (some (.label label)))
  | pop (name : String) : InPlace (.op .pop (some (.symbol name)))
  | drop : InPlace .drop
  | label (name : String) : InPlace (.label name)
  | jump (target : String) : InPlace (.op .jump (some (.label target)))
  | jumpIfFalse (target : String) : InPlace (.op .jumpIfFalse (some (.label target)))

theorem Expr.reference?_of_instruction? (h : e.instruction? = some i) :
    (Entry.instruction i).reference? = none := by
  obtain ⟨m, operand⟩ := i
  have hlabel := (Expr.makesValue_of_instruction? h).2
  rcases operand with _ | ⟨_ | _ | _ | _ | name⟩
  · rfl
  · rfl
  · rfl
  · rfl
  · rfl
  · exact absurd rfl (hlabel name)

/-! ### The forms of the entries -/

theorem Action.inPlace_of_mem_entries {a : Action} {x : Entry} (h : x ∈ a.entries) :
    InPlace x := by
  obtain rfl | ⟨name, rfl⟩ := a.eq_of_mem_entries h
  · exact .drop
  · exact .pop name

theorem mem_popFormals {formals : List String} {x : Entry} :
    x ∈ popFormals formals ↔ ∃ name ∈ formals, x = .op .pop (some (.symbol name)) := by
  simp [popFormals, eq_comm]

@[simp] theorem length_popFormals (formals : List String) :
    (popFormals formals).length = formals.length := by simp [popFormals]

/-- Every entry in the place of its part has one of the forms. -/
theorem Lowers.inPlace_of_mem_own (h : Lowers P c k c') : ∀ x ∈ k.own, InPlace x := by
  induction h with
  | instruction h => exact List.forall_mem_singleton.mpr (.value h)
  | call _ _ ih =>
    exact List.forall_mem_append.mpr ⟨ih, List.forall_mem_singleton.mpr (.call _)⟩
  | ifElse _ _ _ ih₁ ih₂ ih₃ =>
    simp only [Code.ofArms, List.forall_mem_append, List.forall_mem_cons, List.not_mem_nil,
      false_implies, implies_true, and_true]
    exact ⟨⟨⟨⟨⟨ih₁, .jumpIfFalse _, .jump _, .label _⟩, ih₂⟩, .jump _, .label _⟩, ih₃⟩, .label _⟩
  | lambda _ _ => exact List.forall_mem_singleton.mpr (.close _)
  | nil => exact List.forall_mem_nil _
  | snoc _ _ ih₁ ih₂ =>
    rw [Code.own_append, Code.own_ofAction, List.forall_mem_append, List.forall_mem_append]
    exact ⟨ih₁, ih₂, fun x hx => Action.inPlace_of_mem_entries hx⟩
  | body _ _ ih₁ ih₂ => exact List.forall_mem_append.mpr ⟨ih₁, ih₂⟩

/-- Every entry of a lifted block has one of the forms, or is the return at its end. -/
theorem Lowers.inPlace_of_mem_lifted (h : Lowers P c k c') :
    ∀ x ∈ k.lifted, InPlace x ∨ x = .op .ret none := by
  induction h with
  | instruction | nil => exact List.forall_mem_nil _
  | call _ _ ih => exact ih
  | ifElse _ _ _ ih₁ ih₂ ih₃ =>
    exact List.forall_mem_append.mpr ⟨List.forall_mem_append.mpr ⟨ih₁, ih₂⟩, ih₃⟩
  | lambda hbody ih =>
    simp only [Code.ofLambda, List.forall_mem_append, List.forall_mem_singleton]
    refine ⟨⟨⟨⟨ih, .inl (.label _)⟩, fun x hx => ?_⟩, fun x hx => ?_⟩, .inr trivial⟩
    · obtain ⟨name, -, rfl⟩ := mem_popFormals.mp hx
      exact .inl (.pop name)
    · exact .inl (hbody.inPlace_of_mem_own x hx)
  | snoc _ _ ih₁ ih₂ =>
    rw [Code.lifted_append, Code.lifted_ofAction]
    exact List.forall_mem_append.mpr ⟨ih₁, ih₂⟩
  | body _ _ ih₁ ih₂ => exact List.forall_mem_append.mpr ⟨ih₁, ih₂⟩

/-- There is no return in the place of a part. -/
theorem Lowers.ret_not_mem_own (h : Lowers P c k c') : Entry.op .ret none ∉ k.own := by
  intro hmem
  generalize hx : Entry.op .ret none = x at hmem
  cases h.inPlace_of_mem_own x hmem with
  | value hvalue => exact Expr.ne_op_of_instruction? hvalue rfl hx.symm
  | call | close | pop | drop | label | jump | jumpIfFalse => cases hx

/-! ### The first entry -/

/-- The entries start by making a value, on which everything behind it works. -/
def StartsWithValue (es : List Entry) : Prop :=
  ∃ i rest, es = .instruction i :: rest ∧ (i.mnemonic.makesValue = true ∨ i.mnemonic = .close)

theorem StartsWithValue.append {es : List Entry} (h : StartsWithValue es) (es' : List Entry) :
    StartsWithValue (es ++ es') := by
  obtain ⟨i, rest, rfl, hi⟩ := h
  exact ⟨i, rest ++ es', rfl, hi⟩

theorem Lowers.startsWithValue_or_nil (h : Lowers P c k c') :
    StartsWithValue k.own ∨ P = .statements [] ∧ k.own = [] := by
  induction h with
  | instruction h => exact .inl ⟨_, [], rfl, .inl (Expr.makesValue_of_instruction? h).1⟩
  | call _ _ ih =>
    obtain h | ⟨h, -⟩ := ih
    · exact .inl (h.append _)
    · cases h
  | ifElse _ _ _ ih _ _ =>
    obtain h | ⟨h, -⟩ := ih
    · exact .inl ((((h.append _).append _).append _).append _ |>.append _)
    · cases h
  | lambda _ _ => exact .inl ⟨_, [], rfl, .inr rfl⟩
  | nil => exact .inr ⟨rfl, rfl⟩
  | snoc _ _ ih₁ ih₂ =>
    obtain h₂ | ⟨h₂, -⟩ := ih₂
    · obtain h₁ | ⟨-, h₁⟩ := ih₁
      · exact .inl (h₁.append _)
      · rw [Code.own_append, h₁, Code.own_ofAction]
        exact .inl (h₂.append _)
    · cases h₂
  | body _ _ ih₁ ih₂ =>
    obtain h₂ | ⟨h₂, -⟩ := ih₂
    · obtain h₁ | ⟨-, h₁⟩ := ih₁
      · exact .inl (h₁.append _)
      · rw [Code.own_append, h₁]
        exact .inl h₂
    · cases h₂

/-- The code of an expression or of a body starts by making a value. -/
theorem Lowers.startsWithValue (h : Lowers P c k c') (hP : P ≠ .statements []) :
    StartsWithValue k.own :=
  h.startsWithValue_or_nil.resolve_right fun hnil => hP hnil.1

end StackLowering
