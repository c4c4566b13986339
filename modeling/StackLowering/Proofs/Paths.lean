import StackLowering.Proofs.Machine

/-!
# Paths through stack code

The outcome of a test depends on values, and the shape of the code does not. A path is a run of a
machine in which every test may come out either way; the run of a machine on its own tests is one
of its paths, so what holds of all paths holds of every run.

Code that comes from a tree only ever jumps forward, to a label that it holds itself. A path
through it takes no position twice, and the only place where it can stop is behind the code.

## Main definitions

* `Machine.Branches` — a step in which a test may come out either way
* `Machine.Leads`, `Machine.Covers` — the positions to which paths lead
* `EndsWithin` — every path comes to an end, after a bounded number of steps
* `Forward` — entries that never stop, and whose jumps lead to labels behind them

## Main results

* `Machine.Reaches.path` — runs are paths
* `Forward.branches` — a step inside such entries leads to one of the entries behind, or to the
  position behind them all
* `Forward.endsWithin` — every path through such entries ends behind them
-/

namespace StackLowering

universe u

/-! ## Steps that may go either way -/

/-- An instruction of this kind decides where the machine goes on, or that it stops. -/
def Mnemonic.directs : Mnemonic → Bool
  | .ret | .halt | .jump | .jumpIfFalse => true
  | _ => false

theorem Mnemonic.directs_of_makesValue {m : Mnemonic} (h : m.makesValue = true) :
    m.directs = false := by
  cases m <;> first | rfl | cases h

/-- Every machine stops at the entry. -/
def Entry.Stops : Entry → Prop
  | .label _ => False
  | .instruction i => i.mnemonic = .ret ∨ i.mnemonic = .halt

theorem Entry.not_stops_of_not_directs {i : Instruction} (h : i.mnemonic.directs = false) :
    ¬ (Entry.instruction i).Stops := by
  rintro (hm | hm) <;> rw [hm] at h <;> cases h

namespace Machine

variable {S : Type u}

/-- The machine with the outcome of its tests decided beforehand. -/
def deciding (M : Machine S) (outcome : Bool) : Machine S where
  effect := M.effect
  test s := (outcome, (M.test s).2)

/-- A step in which a test may come out either way. -/
def Branches (M : Machine S) (l : Listing) (x y : Config S) : Prop :=
  ∃ outcome, (M.deciding outcome).step l x = some y

variable {M : Machine S} {l : Listing} {i j : Nat} {s : S} {x y : Config S}

/-- The step that a machine takes on its own tests is one of those that it may take. -/
theorem branches_of_step (h : M.step l x = some y) : M.Branches l x y :=
  ⟨(M.test x.state).1, h⟩

/-- The run of a machine on its own tests is one of its paths. -/
theorem Reaches.path (h : M.Reaches l x y) : Relation.ReflTransGen (M.Branches l) x y :=
  Relation.ReflTransGen.mono (fun _ _ => branches_of_step) _ _ h

theorem branches_label {name : String} (h : l.entries[i]? = some (.label name)) :
    M.Branches l ⟨i, s⟩ y ↔ y = ⟨i + 1, s⟩ := by
  simp [Branches, step_label h, eq_comm]

theorem branches_effect {x : Instruction} (h : l.entries[i]? = some (.instruction x))
    (hx : x.mnemonic.directs = false) : M.Branches l ⟨i, s⟩ y ↔ y = ⟨i + 1, M.effect x s⟩ := by
  have hne : x.mnemonic ≠ .ret ∧ x.mnemonic ≠ .halt ∧ x.mnemonic ≠ .jump ∧
      x.mnemonic ≠ .jumpIfFalse := by
    refine ⟨?_, ?_, ?_, ?_⟩ <;>
      · intro hm
        rw [hm] at hx
        cases hx
  simp [Branches, step_effect h hne, eq_comm, deciding]

theorem branches_jump {target : String}
    (h : l.entries[i]? = some (.op .jump (some (.label target)))) (hj : l.position? target = some j) :
    M.Branches l ⟨i, s⟩ y ↔ y = ⟨j, s⟩ := by
  simp [Branches, step_jump h hj, eq_comm]

theorem branches_jumpIfFalse {target : String}
    (h : l.entries[i]? = some (.op .jumpIfFalse (some (.label target))))
    (hj : l.position? target = some j) :
    M.Branches l ⟨i, s⟩ y ↔ y = ⟨i + 1, (M.test s).2⟩ ∨ y = ⟨j, (M.test s).2⟩ := by
  simp [Branches, step_jumpIfFalse h hj, eq_comm, deciding, or_comm]

theorem not_branches_of_stops {e : Entry} (h : l.entries[i]? = some e) (he : e.Stops) :
    ¬ M.Branches l ⟨i, s⟩ y := by
  rintro ⟨outcome, hstep⟩
  rcases e with name | ⟨m, operand⟩
  · exact he
  · obtain rfl | rfl : m = .ret ∨ m = .halt := he <;> simp [step, h] at hstep

theorem not_branches_of_length_le (h : l.entries.length ≤ i) : ¬ M.Branches l ⟨i, s⟩ y := by
  rintro ⟨outcome, hstep⟩
  simp [step, List.getElem?_eq_none h] at hstep

/-! ## Where paths lead -/

/-- Some path leads from the first position to the second one, from whichever state. -/
def Leads (M : Machine S) (l : Listing) (i j : Nat) : Prop :=
  ∀ s, ∃ s', Relation.ReflTransGen (M.Branches l) ⟨i, s⟩ ⟨j, s'⟩

theorem Leads.refl (i : Nat) : M.Leads l i i := fun s => ⟨s, .refl⟩

theorem Leads.trans {m : Nat} (hij : M.Leads l i j) (hjm : M.Leads l j m) : M.Leads l i m := by
  intro s
  obtain ⟨s', hs'⟩ := hij s
  obtain ⟨s'', hs''⟩ := hjm s'
  exact ⟨s'', hs'.trans hs''⟩

theorem leads_label {name : String} (h : l.entries[i]? = some (.label name)) :
    M.Leads l i (i + 1) :=
  fun _ => ⟨_, .single ((branches_label h).mpr rfl)⟩

theorem leads_effect {x : Instruction} (h : l.entries[i]? = some (.instruction x))
    (hx : x.mnemonic.directs = false) : M.Leads l i (i + 1) :=
  fun _ => ⟨_, .single ((branches_effect h hx).mpr rfl)⟩

theorem leads_jump {target : String}
    (h : l.entries[i]? = some (.op .jump (some (.label target)))) (hj : l.position? target = some j) :
    M.Leads l i j :=
  fun _ => ⟨_, .single ((branches_jump h hj).mpr rfl)⟩

/-- A conditional jump leads both ways. -/
theorem leads_jumpIfFalse {target : String}
    (h : l.entries[i]? = some (.op .jumpIfFalse (some (.label target))))
    (hj : l.position? target = some j) : M.Leads l i (i + 1) ∧ M.Leads l i j :=
  ⟨fun _ => ⟨_, .single ((branches_jumpIfFalse h hj).mpr (.inl rfl))⟩,
    fun _ => ⟨_, .single ((branches_jumpIfFalse h hj).mpr (.inr rfl))⟩⟩

/-- Paths lead from the first position to the second one and to the next few behind it. -/
def Covers (M : Machine S) (l : Listing) (i j n : Nat) : Prop := ∀ m ≤ n, M.Leads l i (j + m)

theorem Covers.zero (h : M.Leads l i j) : M.Covers l i j 0 := by
  intro m hm
  obtain rfl := Nat.le_zero.mp hm
  exact h

theorem Covers.succ {n : Nat} (h : M.Leads l i j) (hrest : M.Covers l i (j + 1) n) :
    M.Covers l i j (n + 1) := by
  intro m hm
  cases m with
  | zero => exact h
  | succ m =>
    rw [Nat.add_comm m, ← Nat.add_assoc]
    exact hrest m (by omega)

theorem Covers.last {n : Nat} (h : M.Covers l i j n) : M.Leads l i (j + n) := h n (Nat.le_refl n)

theorem Covers.append {m n : Nat} (h : M.Covers l i j m) (h' : M.Covers l i (j + m) n) :
    M.Covers l i j (m + n) := by
  intro t ht
  rcases Nat.le_total t m with hle | hle
  · exact h t hle
  · obtain ⟨t, rfl⟩ := Nat.exists_eq_add_of_le hle
    rw [← Nat.add_assoc]
    exact h' t (by omega)

theorem Leads.covers {n : Nat} (h : M.Leads l i j) (h' : M.Covers l j j n) : M.Covers l i j n :=
  fun m hm => h.trans (h' m hm)

/-- One piece of code behind the other. -/
theorem Covers.andThen {m n : Nat} (h : M.Covers l i i m) (h' : M.Covers l (i + m) (i + m) n) :
    M.Covers l i i (m + n) :=
  h.append (h.last.covers h')

/-- Entries that work on the state alone are passed one after the other. -/
theorem covers_of_effects {es : List Entry} (hat : StandsAt l.entries i es)
    (hes : ∀ e ∈ es, ∃ x, e = .instruction x ∧ x.mnemonic.directs = false) :
    M.Covers l i i es.length := by
  induction es generalizing i with
  | nil => exact .zero (.refl i)
  | cons e es ih =>
    obtain ⟨⟨x, rfl, hx⟩, hrest⟩ := List.forall_mem_cons.mp hes
    exact .succ (.refl i) ((leads_effect hat.1 hx).covers (ih hat.2 hrest))

end Machine

/-! ## Paths that end -/

section EndsWithin

variable {α : Type u} {R : α → α → Prop} {Q I : α → Prop} {m n : Nat} {x : α}

/-- Every path comes to an end after at most this many steps, and where it ends the condition
holds. -/
inductive EndsWithin (R : α → α → Prop) (Q : α → Prop) : Nat → α → Prop
  | stop {n : Nat} {x : α} (hstop : ∀ y, ¬ R x y) (hx : Q x) : EndsWithin R Q n x
  | step {n : Nat} {x : α} (hmove : ∃ y, R x y) (hnext : ∀ y, R x y → EndsWithin R Q n y) :
    EndsWithin R Q (n + 1) x

theorem EndsWithin.mono (h : EndsWithin R Q m x) (hmn : m ≤ n) : EndsWithin R Q n x := by
  induction h generalizing n with
  | stop hstop hx => exact .stop hstop hx
  | step hmove _ ih =>
    obtain ⟨n, rfl⟩ := Nat.exists_eq_add_of_le' (Nat.le_of_add_left_le hmn)
    exact .step hmove fun y hy => ih y hy (by omega)

/-- Some path comes to its end. -/
theorem EndsWithin.exists_path (h : EndsWithin R Q n x) :
    ∃ y, Relation.ReflTransGen R x y ∧ Q y := by
  induction h with
  | stop _ hx => exact ⟨_, .refl, hx⟩
  | step hmove _ ih =>
    obtain ⟨y, hy⟩ := hmove
    obtain ⟨z, hyz, hz⟩ := ih y hy
    exact ⟨z, .head hy hyz, hz⟩

/-- What every step preserves holds where the paths end. -/
theorem EndsWithin.of_invariant {Q' : α → Prop} (h : EndsWithin R Q n x)
    (hstep : ∀ x y, I x → R x y → I y) (hend : ∀ x, I x → Q x → Q' x) (hx : I x) :
    EndsWithin R Q' n x := by
  induction h with
  | stop hstop hQ => exact .stop hstop (hend _ hx hQ)
  | step hmove _ ih => exact .step hmove fun y hy => ih y hy (hstep _ y hx hy)

end EndsWithin

/-! ## Code that only goes forward -/

/-- The entries never stop a machine, and each of their jumps leads to a label behind it. -/
inductive Forward : List Entry → Prop
  | nil : Forward []
  | label {name : String} {es : List Entry} (h : Forward es) : Forward (.label name :: es)
  | effect {x : Instruction} {es : List Entry} (hx : x.mnemonic.directs = false)
    (h : Forward es) : Forward (.instruction x :: es)
  | jump {target : String} {es : List Entry} (hmem : .label target ∈ es) (h : Forward es) :
    Forward (.op .jump (some (.label target)) :: es)
  | jumpIfFalse {target : String} {es : List Entry} (hmem : .label target ∈ es)
    (h : Forward es) : Forward (.op .jumpIfFalse (some (.label target)) :: es)

namespace Forward

variable {S : Type u} {M : Machine S} {l : Listing} {i : Nat} {s : S} {y : Config S} {x : Entry}
  {es es' : List Entry}

theorem append (h : Forward es) (h' : Forward es') : Forward (es ++ es') := by
  induction h with
  | nil => exact h'
  | label _ ih => exact .label ih
  | effect hx _ ih => exact .effect hx ih
  | jump hmem _ ih => exact .jump (List.mem_append_left _ hmem) ih
  | jumpIfFalse hmem _ ih => exact .jumpIfFalse (List.mem_append_left _ hmem) ih

theorem tail (h : Forward (x :: es)) : Forward es := by
  cases h <;> assumption

theorem of_append (h : Forward (es ++ es')) : Forward es' := by
  induction es with
  | nil => exact h
  | cons x es ih => exact ih h.tail

theorem of_effects (hes : ∀ e ∈ es, ∃ x, e = .instruction x ∧ x.mnemonic.directs = false) :
    Forward es := by
  induction es with
  | nil => exact .nil
  | cons e es ih =>
    obtain ⟨⟨x, rfl, hx⟩, hrest⟩ := List.forall_mem_cons.mp hes
    exact .effect hx (ih hrest)

theorem not_stops (h : Forward es) : ∀ x ∈ es, ¬ x.Stops := by
  induction h with
  | nil => exact List.forall_mem_nil _
  | label _ ih => exact List.forall_mem_cons.mpr ⟨id, ih⟩
  | effect hx _ ih => exact List.forall_mem_cons.mpr ⟨Entry.not_stops_of_not_directs hx, ih⟩
  | jump _ _ ih | jumpIfFalse _ _ ih =>
    exact List.forall_mem_cons.mpr ⟨by simp [Entry.Stops, Entry.op], ih⟩

/-- Every jump has a label for its operand, and the label stands behind it. -/
theorem target {x : Instruction} (h : Forward (es ++ .instruction x :: es'))
    (hx : x.mnemonic = .jump ∨ x.mnemonic = .jumpIfFalse) :
    ∃ name, x.operand = some (.label name) ∧ .label name ∈ es' := by
  cases h.of_append with
  | effect hdirects _ => rcases hx with hx | hx <;> rw [hx] at hdirects <;> cases hdirects
  | jump hmem _ | jumpIfFalse hmem _ => exact ⟨_, rfl, hmem⟩

/-- Where a label stands among entries of a listing, a jump to it goes. -/
theorem exists_position (hnodup : l.labels.Nodup) (hat : StandsAt l.entries i es) {name : String}
    (hmem : .label name ∈ es) : ∃ front back, es = front ++ .label name :: back ∧
      l.position? name = some (i + front.length) := by
  obtain ⟨front, back, rfl⟩ := List.append_of_mem hmem
  obtain ⟨-, hlabel, -⟩ := standsAt_append.mp hat
  exact ⟨front, back, rfl, position?_eq_some hnodup hlabel⟩

/-- A step from the first of the entries leads to one of those behind it, or behind them all. -/
theorem branches (h : Forward (x :: es)) (hnodup : l.labels.Nodup)
    (hat : StandsAt l.entries i (x :: es)) :
    (∃ y, M.Branches l ⟨i, s⟩ y) ∧ ∀ y, M.Branches l ⟨i, s⟩ y →
      ∃ front back, es = front ++ back ∧ y.position = i + 1 + front.length := by
  obtain ⟨hx, hes⟩ := hat
  cases h with
  | label =>
    simp only [Machine.branches_label hx]
    exact ⟨⟨_, rfl⟩, fun y hy => ⟨[], es, rfl, hy ▸ rfl⟩⟩
  | effect hdirects =>
    simp only [Machine.branches_effect hx hdirects]
    exact ⟨⟨_, rfl⟩, fun y hy => ⟨[], es, rfl, hy ▸ rfl⟩⟩
  | jump hmem =>
    obtain ⟨front, back, rfl, hposition⟩ := exists_position hnodup hes hmem
    simp only [Machine.branches_jump hx hposition]
    exact ⟨⟨_, rfl⟩, fun y hy => ⟨front, _, rfl, hy ▸ rfl⟩⟩
  | jumpIfFalse hmem =>
    obtain ⟨front, back, rfl, hposition⟩ := exists_position hnodup hes hmem
    simp only [Machine.branches_jumpIfFalse hx hposition]
    refine ⟨⟨_, .inl rfl⟩, fun y hy => ?_⟩
    rcases hy with rfl | rfl
    · exact ⟨[], _, rfl, rfl⟩
    · exact ⟨front, _, rfl, rfl⟩

/-- **Every path through the entries ends behind them**, after at most one step for each entry. -/
theorem endsWithin (h : Forward es) (hnodup : l.labels.Nodup) (hat : StandsAt l.entries i es)
    (hstop : ∀ s y, ¬ M.Branches l ⟨i + es.length, s⟩ y) (s : S) :
    EndsWithin (M.Branches l) (·.position = i + es.length) es.length ⟨i, s⟩ := by
  -- a jump leads to a suffix of the entries, so the induction is on their number
  induction hlength : es.length using Nat.strongRecOn generalizing i es s with
  | _ n ih =>
    subst hlength
    cases es with
    | nil => exact .stop (hstop s) rfl
    | cons x es =>
      obtain ⟨hmove, hnext⟩ := h.branches (M := M) (s := s) hnodup hat
      refine .step hmove fun y hy => ?_
      obtain ⟨front, back, rfl, hposition⟩ := hnext y hy
      obtain ⟨p, s'⟩ := y
      obtain rfl : p = i + 1 + front.length := hposition
      have hend : i + (x :: (front ++ back)).length = i + 1 + front.length + back.length := by
        simp only [List.length_cons, List.length_append]
        omega
      rw [hend] at hstop ⊢
      have hshorter : back.length < (x :: (front ++ back)).length := by
        rw [List.length_cons, List.length_append]
        omega
      have hback := ih back.length hshorter h.tail.of_append
        (standsAt_append.mp hat.2).2 hstop s' rfl
      exact hback.mono (by simp)

end Forward

end StackLowering
