import StackLowering.Proofs.Linking
import Mathlib.Logic.Relation

/-!
# A machine that runs listings

The machine goes through the entries of a listing in order. What it does is fixed for the entries
that direct it: labels are passed over, a jump goes on at its label, a conditional jump does so
when the test of the state fails, and a return or the end stops the machine. Everything else is a
parameter, so that a theorem about runs holds of every meaning of the other instructions and of
every test.

A label is looked up in the whole listing. So a run through a part of the code is a run through the
whole only because no label stands twice.

## Main definitions

* `Machine`, `Config`, `Machine.step` — the machine and its steps
* `Machine.Reaches` — runs of any length
* `Machine.receive` — the state behind the instructions of the formals of a function
* `StandsAt` — entries stand in a listing from a position on

## Main results

* `position?_eq_some` — when no label stands twice, a jump goes to where its label stands
* `Machine.step_label`, `step_effect`, `step_jump`, `step_jumpIfFalse` — the steps, one each
* `Machine.step_map` — machines whose states correspond go alike
* `Machine.reaches_popFormals` — a machine goes through the instructions of the formals
-/

namespace StackLowering

universe u v

/-! ## Steps -/

/-- What a machine does with the instructions that do not direct it, and how it tests a value. -/
structure Machine (S : Type u) where
  /-- What an instruction does to the state. -/
  effect : Instruction → S → S
  /-- The outcome of the test of a conditional jump, and the state behind it. -/
  test : S → Bool × S

/-- The position of the next entry, and the state. -/
structure Config (S : Type u) where
  position : Nat
  state : S

/-- Where a label stands in a listing. -/
def Listing.position? (l : Listing) (label : String) : Option Nat :=
  l.entries.findIdx? (· = .label label)

namespace Machine

variable {S : Type u}

/-- The next configuration; there is none where the machine stops. -/
def step (M : Machine S) (l : Listing) (x : Config S) : Option (Config S) :=
  match l.entries[x.position]? with
  | none => none
  | some (.label _) => some ⟨x.position + 1, x.state⟩
  | some (.instruction ⟨.ret, _⟩) | some (.instruction ⟨.halt, _⟩) => none
  | some (.instruction ⟨.jump, some (.label target)⟩) =>
    (l.position? target).map (⟨·, x.state⟩)
  | some (.instruction ⟨.jumpIfFalse, some (.label target)⟩) =>
    let (outcome, state) := M.test x.state
    if outcome then some ⟨x.position + 1, state⟩ else (l.position? target).map (⟨·, state⟩)
  | some (.instruction ⟨.jump, _⟩) | some (.instruction ⟨.jumpIfFalse, _⟩) => none
  | some (.instruction i) => some ⟨x.position + 1, M.effect i x.state⟩

/-- A run of any length leads from the first configuration to the second. -/
def Reaches (M : Machine S) (l : Listing) : Config S → Config S → Prop :=
  Relation.ReflTransGen fun x y => M.step l x = some y

end Machine

/-! ## Where entries stand -/

/-- The entries of the second list stand in the first one, from this position on. -/
def StandsAt (es : List Entry) : Nat → List Entry → Prop
  | _, [] => True
  | i, x :: rest => es[i]? = some x ∧ StandsAt es (i + 1) rest

@[simp] theorem standsAt_nil (es : List Entry) (i : Nat) : StandsAt es i [] := trivial

@[simp] theorem standsAt_cons {es rest : List Entry} {i : Nat} {x : Entry} :
    StandsAt es i (x :: rest) ↔ es[i]? = some x ∧ StandsAt es (i + 1) rest := .rfl

@[simp] theorem standsAt_append {es s t : List Entry} {i : Nat} :
    StandsAt es i (s ++ t) ↔ StandsAt es i s ∧ StandsAt es (i + s.length) t := by
  induction s generalizing i with
  | nil => simp
  | cons x s ih =>
    rw [List.cons_append, standsAt_cons, ih, standsAt_cons, and_assoc, List.length_cons,
      Nat.add_assoc, Nat.add_comm 1]

/-- A piece of a list stands behind what comes before it. -/
theorem standsAt_middle (s t u : List Entry) : StandsAt (s ++ t ++ u) s.length t := by
  induction t generalizing s with
  | nil => trivial
  | cons x t ih =>
    refine ⟨by simp, ?_⟩
    have hshift := ih (s ++ [x])
    rw [List.append_cons s x t]
    simpa using hshift

/-- When no label stands twice, a label is found where it stands. -/
theorem position?_eq_some {l : Listing} (hnodup : l.labels.Nodup) {i : Nat} {label : String}
    (h : l.entries[i]? = some (.label label)) : l.position? label = some i := by
  obtain ⟨es⟩ := l
  obtain ⟨hi, hlabel⟩ : ∃ hi : i < es.length, es[i] = .label label :=
    List.getElem?_eq_some_iff.mp h
  have hsplit : es = es.take i ++ .label label :: es.drop (i + 1) := by
    rw [← hlabel, List.getElem_cons_drop, List.take_append_drop]
  rw [Listing.position?, List.findIdx?_eq_some_iff_getElem]
  refine ⟨hi, by simpa using hlabel, fun j hj => ?_⟩
  -- the label would stand in front of its own place as well
  intro hearlier
  have hmem : label ∈ labelsOf (es.take i) := by
    refine List.mem_filterMap.mpr ⟨.label label, ?_, rfl⟩
    rw [← of_decide_eq_true hearlier]
    exact List.mem_take_iff_getElem.mpr ⟨j, by omega, rfl⟩
  have hlabels : (labelsOf (es.take i) ++ label :: labelsOf (es.drop (i + 1))).Nodup := by
    rw [← labelsOf_label, ← labelsOf_append, ← hsplit]
    exact hnodup
  exact (List.nodup_append.mp hlabels).2.2 label hmem label List.mem_cons_self rfl

/-! ## The steps, one each -/

namespace Machine

variable {S : Type u} {M : Machine S} {l : Listing} {i j : Nat} {s : S}

theorem step_label {name : String} (h : l.entries[i]? = some (.label name)) :
    M.step l ⟨i, s⟩ = some ⟨i + 1, s⟩ := by
  simp [step, h]

theorem step_halt (h : l.entries[i]? = some (.op .halt none)) : M.step l ⟨i, s⟩ = none := by
  simp [step, h, Entry.op]

theorem step_jump {target : String} (h : l.entries[i]? = some (.op .jump (some (.label target))))
    (hj : l.position? target = some j) : M.step l ⟨i, s⟩ = some ⟨j, s⟩ := by
  simp [step, h, hj, Entry.op]

theorem step_jumpIfFalse {target : String}
    (h : l.entries[i]? = some (.op .jumpIfFalse (some (.label target))))
    (hj : l.position? target = some j) :
    M.step l ⟨i, s⟩ = some ⟨if (M.test s).1 then i + 1 else j, (M.test s).2⟩ := by
  simp only [step, h, hj, Entry.op, Option.map_some]
  split_ifs <;> rfl

/-- An instruction that does not direct the machine changes the state alone. -/
theorem step_effect {x : Instruction} (h : l.entries[i]? = some (.instruction x))
    (hx : x.mnemonic ≠ .ret ∧ x.mnemonic ≠ .halt ∧ x.mnemonic ≠ .jump ∧ x.mnemonic ≠ .jumpIfFalse) :
    M.step l ⟨i, s⟩ = some ⟨i + 1, M.effect x s⟩ := by
  obtain ⟨m, operand⟩ := x
  simp only [step, h]
  split <;> simp_all

end Machine

/-! ## Machines that go alike -/

/-- The configuration with another state in its place. -/
def Config.map {S : Type u} {T : Type v} (g : S → T) (x : Config S) : Config T :=
  ⟨x.position, g x.state⟩

/-- A machine whose states are images of those of another one, and whose instructions and tests work
alike on them, goes where that one goes. -/
theorem Machine.step_map {S : Type u} {T : Type v} {M : Machine S} {N : Machine T} {g : S → T}
    (heffect : ∀ i s, N.effect i (g s) = g (M.effect i s))
    (htest : ∀ s, N.test (g s) = ((M.test s).1, g (M.test s).2)) (l : Listing) (x : Config S) :
    N.step l (x.map g) = (M.step l x).map (Config.map g) := by
  simp only [step, Config.map, heffect, htest]
  split
  case h_5 => simp [Function.comp_def, Config.map]
  case h_6 => split <;> simp [Function.comp_def, Config.map]
  all_goals rfl

/-! ## The formals of a function -/

theorem popFormals_cons (name : String) (formals : List String) :
    popFormals (name :: formals) = popFormals formals ++ [.op .pop (some (.symbol name))] := by
  simp [popFormals]

namespace Machine

variable {S : Type u} {M : Machine S} {l : Listing} {i : Nat} {s : S}

theorem step_ret (h : l.entries[i]? = some (.op .ret none)) : M.step l ⟨i, s⟩ = none := by
  simp [step, h, Entry.op]

/-- The state behind the instructions of the formals; that of the first formal comes last. -/
def receive (M : Machine S) (formals : List String) (s : S) : S :=
  formals.foldr (fun name => M.effect ⟨.pop, some (.symbol name)⟩) s

@[simp] theorem receive_nil (s : S) : M.receive [] s = s := rfl

@[simp] theorem receive_cons (name : String) (formals : List String) (s : S) :
    M.receive (name :: formals) s = M.effect ⟨.pop, some (.symbol name)⟩ (M.receive formals s) :=
  rfl

/-- Where the instructions of the formals stand, a machine goes through them. -/
theorem reaches_popFormals {formals : List String}
    (hat : StandsAt l.entries i (popFormals formals)) :
    M.Reaches l ⟨i, s⟩ ⟨i + formals.length, M.receive formals s⟩ := by
  induction formals with
  | nil => exact .refl
  | cons name formals ih =>
    rw [popFormals_cons, standsAt_append, length_popFormals, standsAt_cons] at hat
    obtain ⟨hothers, hpop, -⟩ := hat
    exact (ih hothers).tail (step_effect hpop (by simp))

end Machine

end StackLowering
