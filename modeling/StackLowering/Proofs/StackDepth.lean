import StackLowering.Proofs.Execution
import Mathlib.Logic.Function.Basic

/-!
# The depth of the stack

Every instruction takes a fixed number of values off the stack and puts a fixed number on it, so a
machine that forgets the values can still count them. How code changes the depth is a property of
its tree, as long as the two arms of every conditional change it alike: a path goes through one arm
only, and the entries behind the conditional are the same for both.

The depths are given in advance to the labels, as types are to the variables of a term. Code has
depths when its entries agree with those of the labels that they stand for or jump to. Along a path
the depth in front of an entry is then determined by the entries that are still to come.

## Main definitions

* `Instruction.stackEffect`, `Machine.depth` — how instructions change the depth
* `Machine.TracksDepth` — a machine with a stack of its own, of which this is the depth
* `Expr.depthChange`, `Expr.Balanced` — how an expression changes it, and arms that do so alike
* `HasDepths`, `AdmitsDepths` — code agrees with the depths at its labels, or does so whenever the
  labels have the depths in some list
* `Listing.Disciplined` — every path ends at one depth, and the depth at an entry is the same on
  every path

## Main results

* `Lowers.admitsDepths` — the code of a balanced part has depths
* `Listing.Disciplined.depth_of_reaches` — every run of a machine with a stack that comes to the end
  has changed the depth alike
* `Lowers.depth_eval` — so the evaluation of a balanced part changes the depth as the tree tells
* `stack_discipline` — the code of a balanced expression, and every block that it lifts out, is
  disciplined
-/

namespace StackLowering

universe u

/-! ## Counting values -/

/-- The number that an instruction has for its operand, if it has one. -/
def Instruction.arity (i : Instruction) : Int :=
  match i.operand with
  | some (.count n) => n.toNat
  | _ => 0

/-- By how much an instruction changes the depth of the stack. An operation takes its arguments off
the stack and puts its result on it; a call takes the function off as well. -/
def Instruction.stackEffect (i : Instruction) : Int :=
  match i.mnemonic with
  | .push | .pushInteger | .pushString | .pushSymbol | .close => 1
  | .pop | .drop | .jumpIfFalse => -1
  | .jump | .ret | .halt => 0
  | .call => -i.arity
  | _ => 1 - i.arity

/-- The machine whose state is the depth of the stack; a test takes off the value that it looks
at. -/
def Machine.depth : Machine Int where
  effect i d := d + i.stackEffect
  test d := (true, d - 1)

/-- A machine with a stack, of which this is the depth: instructions change it by their effects, and
a test takes off the value that it looks at. -/
structure Machine.TracksDepth {S : Type u} (M : Machine S) (depth : S → Int) : Prop where
  effect : ∀ i s, depth (M.effect i s) = depth s + i.stackEffect
  test : ∀ s, depth (M.test s).2 = depth s - 1

/-- By how much the depth changes when something becomes of the value of a statement. -/
def Action.depthChange : Action → Int
  | .push => 0
  | .assign _ | .discard | .declare _ => -1

mutual

/-- By how much an expression changes the depth of the stack. An operation of the machine counts
like a function that is on the stack already. -/
def Expr.depthChange : Expr → Int
  | .builtin _ | .integer _ | .lambda .. | .string _ | .symbol _ | .symbolLiteral _
  | .variable _ => 1
  | .call callee n => callee.depthChange - n.toNat
  | .ifElse condition thenArm _ => condition.depthChange + Stmt.depthChangeAll thenArm
  | .list => -1
  | .record n => 1 - n.toNat

/-- By how much statements change the depth of the stack. -/
def Stmt.depthChangeAll : List Stmt → Int
  | [] => 0
  | .mk a e _ :: rest => e.depthChange + a.depthChange + Stmt.depthChangeAll rest

end

mutual

/-- The arms of every conditional in the expression change the depth alike. -/
def Expr.Balanced : Expr → Prop
  | .call callee _ => callee.Balanced
  | .ifElse condition thenArm elseArm =>
    Stmt.depthChangeAll thenArm = Stmt.depthChangeAll elseArm ∧
      condition.Balanced ∧ Stmt.BalancedAll thenArm ∧ Stmt.BalancedAll elseArm
  | .lambda _ _ body => Stmt.BalancedAll body
  | .builtin _ | .integer _ | .list | .string _ | .record _ | .symbol _ | .symbolLiteral _
  | .variable _ => True

/-- The arms of every conditional in the statements change the depth alike. -/
def Stmt.BalancedAll : List Stmt → Prop
  | [] => True
  | .mk _ e _ :: rest => e.Balanced ∧ Stmt.BalancedAll rest

end

namespace Part

/-- By how much a part changes the depth; a body leaves the value of its last statement. -/
def depthChange : Part → Int
  | expression e => e.depthChange
  | statements ss => Stmt.depthChangeAll ss
  | body ss => Stmt.depthChangeAll ss + 1

/-- The arms of every conditional in the part change the depth alike. -/
def Balanced : Part → Prop
  | expression e => e.Balanced
  | statements ss | body ss => Stmt.BalancedAll ss

end Part

/-- Every path from the start of the listing ends at this position with the depth changed by so
much, and all paths that come to an entry have the same depth there. -/
structure Listing.Disciplined (l : Listing) (finish : Nat) (change : Int) : Prop where
  ends : EndsWithin (Machine.depth.Branches l) (· = ⟨finish, change⟩) finish ⟨0, 0⟩
  unique : ∀ i d₁ d₂, Relation.ReflTransGen (Machine.depth.Branches l) ⟨0, 0⟩ ⟨i, d₁⟩ →
    Relation.ReflTransGen (Machine.depth.Branches l) ⟨0, 0⟩ ⟨i, d₂⟩ → d₁ = d₂

/-! ### Machines with a stack -/

namespace Machine.TracksDepth

variable {S : Type u} {M : Machine S} {depth : S → Int} {l : Listing} {x y : Config S}

/-- Every state may be taken for the one with an empty stack. -/
theorem sub (h : M.TracksDepth depth) (d : Int) : M.TracksDepth (depth · - d) where
  effect i s := by rw [h.effect]; omega
  test s := by rw [h.test]; omega

/-- What the machine does to its stack is a step of the machine that counts. -/
theorem branches (h : M.TracksDepth depth) (hstep : M.Branches l x y) :
    Machine.depth.Branches l (x.map depth) (y.map depth) := by
  obtain ⟨outcome, hstep⟩ := hstep
  have hmap := Machine.step_map (M := M.deciding outcome) (N := Machine.depth.deciding outcome)
    (g := depth) (fun i s => (h.effect i s).symm) (fun s => congrArg _ (h.test s).symm) l x
  refine ⟨outcome, ?_⟩
  rw [hmap, hstep]
  rfl

/-- The run of the machine is a path of the machine that counts, from an empty stack on. -/
theorem path (h : M.TracksDepth depth) {i j : Nat} {s s' : S}
    (hrun : M.Reaches l ⟨i, s⟩ ⟨j, s'⟩) :
    Relation.ReflTransGen (Machine.depth.Branches l) ⟨i, 0⟩ ⟨j, depth s' - depth s⟩ := by
  have hpath : Relation.ReflTransGen (Machine.depth.Branches l) ⟨i, depth s - depth s⟩
      ⟨j, depth s' - depth s⟩ :=
    Relation.ReflTransGen.lift (Config.map (depth · - depth s))
      (fun _ _ => (h.sub (depth s)).branches) _ _ hrun.path
  rwa [Int.sub_self] at hpath

end Machine.TracksDepth

namespace Listing.Disciplined

variable {S : Type u} {M : Machine S} {depth : S → Int} {l : Listing} {finish i : Nat}
  {change : Int} {s s' t t' : S}

/-- Runs that come to one entry have changed the depth of the stack alike. -/
theorem depth_unique (h : l.Disciplined finish change) (hM : M.TracksDepth depth)
    (hs : M.Reaches l ⟨0, s⟩ ⟨i, s'⟩) (ht : M.Reaches l ⟨0, t⟩ ⟨i, t'⟩) :
    depth s' - depth s = depth t' - depth t :=
  h.unique i _ _ (hM.path hs) (hM.path ht)

/-- A run that comes to the end has changed the depth of the stack as all paths do. -/
theorem depth_of_reaches (h : l.Disciplined finish change) (hM : M.TracksDepth depth)
    (hs : M.Reaches l ⟨0, s⟩ ⟨finish, s'⟩) : depth s' = depth s + change := by
  obtain ⟨_, hend, rfl⟩ := h.ends.exists_path
  have hdepth := h.unique finish _ _ (hM.path hs) hend
  omega

end Listing.Disciplined

/-! ### Effects, form by form -/

section Effects

variable {e : Expr} {i : Instruction} {ss ts : List Stmt} {a : Action} {l : Option Location}

theorem Builtin.stackEffect_of_mnemonic? {s : String} {m : Mnemonic}
    (h : Builtin.mnemonic? s = some m) (n : UInt64) :
    Instruction.stackEffect ⟨m, some (.count n)⟩ = 1 - n.toNat := by
  have hall : ∀ x ∈ Builtin.table,
      Instruction.stackEffect ⟨x.2, some (.count n)⟩ = 1 - n.toNat := by
    simp [Builtin.table, Instruction.stackEffect, Instruction.arity]
  exact hall _ (Builtin.mem_table_of_mnemonic? h)

/-- The instruction of an expression changes the depth as the expression does. -/
theorem Expr.stackEffect_of_instruction? (h : e.instruction? = some i) :
    i.stackEffect = e.depthChange := by
  cases Expr.becomes_of_instruction? h with
  | callBuiltin hm n => exact Builtin.stackEffect_of_mnemonic? hm n
  | _ => rfl

theorem Stmt.depthChangeAll_append (ss ts : List Stmt) :
    Stmt.depthChangeAll (ss ++ ts) = Stmt.depthChangeAll ss + Stmt.depthChangeAll ts := by
  induction ss with
  | nil => simp [Stmt.depthChangeAll]
  | cons s ss ih =>
    obtain ⟨a, e, l⟩ := s
    rw [List.cons_append, Stmt.depthChangeAll, ih, Stmt.depthChangeAll]
    omega

@[simp] theorem Stmt.depthChangeAll_concat : Stmt.depthChangeAll (ss ++ [.mk a e l])
    = Stmt.depthChangeAll ss + (e.depthChange + a.depthChange) := by
  simp [Stmt.depthChangeAll_append, Stmt.depthChangeAll]

theorem Stmt.balancedAll_append :
    Stmt.BalancedAll (ss ++ ts) ↔ Stmt.BalancedAll ss ∧ Stmt.BalancedAll ts := by
  induction ss with
  | nil => simp [Stmt.BalancedAll]
  | cons s ss ih =>
    obtain ⟨a, e, l⟩ := s
    rw [List.cons_append, Stmt.BalancedAll, ih, Stmt.BalancedAll, and_assoc]

@[simp] theorem Stmt.balancedAll_concat :
    Stmt.BalancedAll (ss ++ [.mk a e l]) ↔ Stmt.BalancedAll ss ∧ e.Balanced := by
  simp [Stmt.balancedAll_append, Stmt.BalancedAll]

end Effects

/-! ## Depths at labels -/

/-- The entries start at the first depth and come to the second one behind them, where each label
and each jump agrees with the depths that labels have. Behind a jump any depth will do. -/
inductive HasDepths (Γ : String → Int) : Int → List Entry → Int → Prop
  | nil {d : Int} : HasDepths Γ d [] d
  | label {d d' : Int} {name : String} {es : List Entry} (hd : Γ name = d)
    (h : HasDepths Γ d es d') : HasDepths Γ d (.label name :: es) d'
  | effect {d d' : Int} {x : Instruction} {es : List Entry} (hx : x.mnemonic.directs = false)
    (h : HasDepths Γ (d + x.stackEffect) es d') : HasDepths Γ d (.instruction x :: es) d'
  | jump {d d₁ d' : Int} {target : String} {es : List Entry} (hd : Γ target = d)
    (h : HasDepths Γ d₁ es d') : HasDepths Γ d (.op .jump (some (.label target)) :: es) d'
  | jumpIfFalse {d d' : Int} {target : String} {es : List Entry} (hd : Γ target = d - 1)
    (h : HasDepths Γ (d - 1) es d') :
    HasDepths Γ d (.op .jumpIfFalse (some (.label target)) :: es) d'

namespace HasDepths

variable {Γ : String → Int} {d d₁ d₂ d' : Int} {es es' : List Entry} {name : String}

theorem append (h : HasDepths Γ d es d₁) (h' : HasDepths Γ d₁ es' d') :
    HasDepths Γ d (es ++ es') d' := by
  induction h with
  | nil => exact h'
  | label hd _ ih => exact .label hd (ih h')
  | effect hx _ ih => exact .effect hx (ih h')
  | jump hd _ ih => exact .jump hd (ih h')
  | jumpIfFalse hd _ ih => exact .jumpIfFalse hd (ih h')

/-- The entries and the depth behind them determine the depth in front of them. -/
theorem unique (h₁ : HasDepths Γ d₁ es d') (h₂ : HasDepths Γ d₂ es d') : d₁ = d₂ := by
  induction h₁ generalizing d₂ with
  | nil => cases h₂; rfl
  | label hd => cases h₂ with
    | label hd' => exact hd.symm.trans hd'
  | effect hx _ ih => cases h₂ with
    | effect _ h₂ =>
      have hbehind := ih h₂
      omega
    | jump | jumpIfFalse => cases hx
  | jump hd => cases h₂ with
    | effect hx => cases hx
    | jump hd' => exact hd.symm.trans hd'
  | jumpIfFalse hd => cases h₂ with
    | effect hx => cases hx
    | jumpIfFalse hd' => omega

/-- At a label the depth is the one that the label has. -/
theorem of_append_label (h : HasDepths Γ d (es ++ .label name :: es') d') :
    HasDepths Γ (Γ name) (.label name :: es') d' := by
  induction es generalizing d with
  | nil =>
    cases h with
    | label hd h => exact .label rfl (hd ▸ h)
  | cons x es ih =>
    cases h with
    | label _ h | effect _ h | jump _ h | jumpIfFalse _ h => exact ih h

end HasDepths

/-! ## Depths along paths -/

/-- The configuration is at one of the entries or behind them all, at the depth that the entries
still to come ask for. -/
def AtDepth (Γ : String → Int) (d' : Int) (es : List Entry) (x : Config Int) : Prop :=
  ∃ front back, es = front ++ back ∧ x.position = front.length ∧ HasDepths Γ x.state back d'

namespace AtDepth

variable {Γ : String → Int} {d' : Int} {es : List Entry} {l : Listing} {x y : Config Int}

/-- A step goes to an entry at the depth that is asked for there. -/
theorem step (hforward : Forward es) (hnodup : l.labels.Nodup) (hat : StandsAt l.entries 0 es)
    (hstop : ∀ d y, ¬ Machine.depth.Branches l ⟨es.length, d⟩ y) (hx : AtDepth Γ d' es x)
    (hstep : Machine.depth.Branches l x y) : AtDepth Γ d' es y := by
  obtain ⟨i, d⟩ := x
  obtain ⟨front, back, rfl, rfl, hdepths⟩ := hx
  have hback := (standsAt_append.mp hat).2
  rw [Nat.zero_add] at hback
  have hnext {x : Entry} {back : List Entry} {d₁ : Int} (hdepths : HasDepths Γ d₁ back d') :
      AtDepth Γ d' (front ++ x :: back) ⟨front.length + 1, d₁⟩ :=
    ⟨front ++ [x], back, by simp, by simp, hdepths⟩
  have hjump {m : Mnemonic} {back : List Entry} {d₁ d₂ : Int} {target : String}
      (hm : m = .jump ∨ m = .jumpIfFalse) (hd : Γ target = d₂)
      (hforward : Forward (front ++ .op m (some (.label target)) :: back))
      (hat : StandsAt l.entries (front.length + 1) back) (hdepths : HasDepths Γ d₁ back d') :
      ∃ j, l.position? target = some j ∧
        AtDepth Γ d' (front ++ .op m (some (.label target)) :: back) ⟨j, d₂⟩ := by
    subst hd
    obtain ⟨name, hname, hmem⟩ := hforward.target hm
    cases hname
    obtain ⟨mid, back, rfl, hposition⟩ := Forward.exists_position hnodup hat hmem
    refine ⟨_, hposition, front ++ .op m (some (.label target)) :: mid, .label target :: back,
      by simp, ?_, hdepths.of_append_label⟩
    simp only [List.length_append, List.length_cons]
    omega
  cases hdepths with
  | nil => exact absurd hstep (by simpa using hstop d y)
  | label _ h =>
    obtain rfl := (Machine.branches_label hback.1).mp hstep
    exact hnext h
  | effect hx h =>
    obtain rfl := (Machine.branches_effect hback.1 hx).mp hstep
    exact hnext h
  | jump hd h =>
    obtain ⟨j, hj, hdepth⟩ := hjump (.inl rfl) hd hforward hback.2 h
    obtain rfl := (Machine.branches_jump hback.1 hj).mp hstep
    exact hdepth
  | jumpIfFalse hd h =>
    obtain ⟨j, hj, hdepth⟩ := hjump (.inr rfl) hd hforward hback.2 h
    obtain rfl | rfl := (Machine.branches_jumpIfFalse hback.1 hj).mp hstep
    · exact hnext h
    · exact hdepth

/-- Two configurations at one position have one depth. -/
theorem unique (hx : AtDepth Γ d' es x) (hy : AtDepth Γ d' es y)
    (hposition : x.position = y.position) : x.state = y.state := by
  obtain ⟨front, back, rfl, hxposition, hxdepths⟩ := hx
  obtain ⟨front', back', heq, hyposition, hydepths⟩ := hy
  obtain ⟨-, rfl⟩ := List.append_inj heq (hxposition.symm.trans (hposition.trans hyposition))
  exact hxdepths.unique hydepths

end AtDepth

/-- Entries that go forward and have depths make a disciplined listing, in which paths end behind
them. -/
theorem HasDepths.disciplined {Γ : String → Int} {change : Int} {es : List Entry} {l : Listing}
    (hdepths : HasDepths Γ 0 es change) (hforward : Forward es) (hnodup : l.labels.Nodup)
    (hat : StandsAt l.entries 0 es)
    (hstop : ∀ d y, ¬ Machine.depth.Branches l ⟨es.length, d⟩ y) :
    l.Disciplined es.length change := by
  have hstart : AtDepth Γ change es ⟨0, 0⟩ := ⟨[], es, rfl, rfl, hdepths⟩
  have hreached {x : Config Int}
      (hx : Relation.ReflTransGen (Machine.depth.Branches l) ⟨0, 0⟩ x) :
      AtDepth Γ change es x := by
    induction hx with
    | refl => exact hstart
    | tail _ hstep ih => exact ih.step hforward hnodup hat hstop hstep
  constructor
  · have hends := hforward.endsWithin (M := Machine.depth) hnodup hat (by simpa using hstop) 0
    refine hends.of_invariant (I := AtDepth Γ change es)
      (fun x y hx hstep => hx.step hforward hnodup hat hstop hstep) ?_ hstart
    rintro ⟨i, d⟩ hx hi
    obtain rfl : i = es.length := by simpa using hi
    have hend : AtDepth Γ change es ⟨es.length, change⟩ := ⟨es, [], by simp, rfl, .nil⟩
    exact congrArg _ (hx.unique hend rfl)
  · intro i d₁ d₂ h₁ h₂
    exact (hreached h₁).unique (hreached h₂) rfl

/-! ## The code of a balanced tree -/

section Code

variable {e : Expr} {i : Instruction} {ss ts : List Stmt} {c c' : LabelCounters} {k : Code}
  {P : Part} {d : Int} {es : List Entry}

/-- The entries have depths from this depth on and change it by so much, whenever the labels among
them have the depths in some list. -/
def AdmitsDepths (d : Int) (es : List Entry) (change : Int) : Prop :=
  ∃ Δ : List (String × Int), Δ.map Prod.fst = labelsOf es ∧
    ∀ Γ : String → Int, (∀ x ∈ Δ, Γ x.1 = x.2) → HasDepths Γ d es (d + change)

namespace AdmitsDepths

theorem append {change change' : Int} {es' : List Entry} (h : AdmitsDepths d es change)
    (h' : AdmitsDepths (d + change) es' change') :
    AdmitsDepths d (es ++ es') (change + change') := by
  obtain ⟨Δ, hlabels, hdepths⟩ := h
  obtain ⟨Δ', hlabels', hdepths'⟩ := h'
  refine ⟨Δ ++ Δ', by simp [hlabels, hlabels'], fun Γ hΓ => ?_⟩
  obtain ⟨hΔ, hΔ'⟩ := List.forall_mem_append.mp hΓ
  rw [← Int.add_assoc]
  exact (hdepths Γ hΔ).append (hdepths' Γ hΔ')

theorem nil : AdmitsDepths d [] 0 :=
  ⟨[], rfl, fun _ _ => by rw [Int.add_zero]; exact .nil⟩

theorem effect (hi : i.mnemonic.directs = false) :
    AdmitsDepths d [.instruction i] i.stackEffect :=
  ⟨[], rfl, fun _ _ => .effect hi .nil⟩

theorem label {change : Int} {name : String} (h : AdmitsDepths d es change) :
    AdmitsDepths d (.label name :: es) change := by
  obtain ⟨Δ, hlabels, hdepths⟩ := h
  refine ⟨(name, d) :: Δ, by simp [hlabels], fun Γ hΓ => ?_⟩
  obtain ⟨hd, hΔ⟩ := List.forall_mem_cons.mp hΓ
  exact .label hd (hdepths Γ hΔ)

/-- Each formal takes a value off the stack. -/
theorem popFormals (formals : List String) :
    AdmitsDepths d (popFormals formals) (-formals.length) := by
  rw [StackLowering.popFormals, ← List.length_reverse]
  generalize formals.reverse = names
  induction names generalizing d with
  | nil => exact .nil
  | cons name names ih =>
    have hchange : -((name :: names).length : Int)
        = Instruction.stackEffect ⟨.pop, some (.symbol name)⟩ + -names.length := by
      simp only [Instruction.stackEffect, List.length_cons]
      omega
    rw [hchange]
    exact (effect rfl).append ih

theorem action (a : Action) : AdmitsDepths d a.entries a.depthChange := by
  cases a with
  | push => exact .nil
  | discard | assign | declare => exact .effect rfl

/-- The depth of the label of an arm is the one behind the test, and the depth behind the
conditional is the one behind each of its arms. -/
theorem ofArms {labels : BranchLabels} {k₁ k₂ k₃ : Code} {change₁ change₂ : Int}
    (h₁ : AdmitsDepths d k₁.own change₁) (h₂ : AdmitsDepths (d + change₁ - 1) k₂.own change₂)
    (h₃ : AdmitsDepths (d + change₁ - 1) k₃.own change₂) :
    AdmitsDepths d (Code.ofArms labels k₁ k₂ k₃).own (change₁ - 1 + change₂) := by
  obtain ⟨Δ₁, hlabels₁, hdepths₁⟩ := h₁
  obtain ⟨Δ₂, hlabels₂, hdepths₂⟩ := h₂
  obtain ⟨Δ₃, hlabels₃, hdepths₃⟩ := h₃
  refine ⟨Δ₁ ++ [(labels.thenLabel, d + change₁ - 1)] ++ Δ₂ ++
    [(labels.elseLabel, d + change₁ - 1)] ++ Δ₃ ++
    [(labels.endLabel, d + change₁ - 1 + change₂)], ?_, fun Γ hΓ => ?_⟩
  · simp [Code.ofArms, hlabels₁, hlabels₂, hlabels₃]
  · simp only [List.forall_mem_append, List.forall_mem_singleton] at hΓ
    obtain ⟨⟨⟨⟨⟨hΔ₁, hthen⟩, hΔ₂⟩, helse⟩, hΔ₃⟩, hend⟩ := hΓ
    have hbehind : d + (change₁ - 1 + change₂) = d + change₁ - 1 + change₂ := by omega
    rw [hbehind]
    simp only [Code.ofArms, List.append_assoc, List.cons_append, List.nil_append]
    refine (hdepths₁ Γ hΔ₁).append (.jumpIfFalse helse (.jump hthen (.label hthen ?_)))
    refine (hdepths₂ Γ hΔ₂).append (.jump hend (.label helse ?_))
    exact (hdepths₃ Γ hΔ₃).append (.label hend .nil)

end AdmitsDepths

/-- **The code of a balanced part has depths.** -/
theorem Lowers.admitsDepths (h : Lowers P c k c') (hP : P.Balanced) (d : Int) :
    AdmitsDepths d k.own P.depthChange := by
  induction h generalizing d with
  | instruction h =>
    rw [Part.depthChange, ← Expr.stackEffect_of_instruction? h]
    exact .effect (Expr.not_directs_of_instruction? h)
  | call _ _ ih => exact (ih hP d).append (.effect rfl)
  | @ifElse e ss ts _ _ _ _ _ _ _ _ _ _ ih₁ ih₂ ih₃ =>
    obtain ⟨harms, hcondition, hthen, helse⟩ := hP
    have h₃ := ih₃ helse
    simp only [Part.depthChange, ← harms] at h₃
    have hchange : (Part.expression (.ifElse e ss ts)).depthChange
        = e.depthChange - 1 + (Stmt.depthChangeAll ss + 1) := by
      simp only [Part.depthChange, Expr.depthChange]
      omega
    rw [hchange]
    exact (ih₁ hcondition d).ofArms (ih₂ hthen _) (h₃ _)
  | lambda => exact .effect rfl
  | nil => exact .nil
  | @snoc ss a e l c c₁ c₂ k₁ k₂ _ _ ih₁ ih₂ =>
    obtain ⟨hinit, hlast⟩ := Stmt.balancedAll_concat.mp hP
    rw [Part.depthChange, Stmt.depthChangeAll_concat, Code.own_append, Code.own_ofAction]
    exact (ih₁ hinit d).append ((ih₂ hlast _).append (.action a))
  | @body ss e l _ _ _ _ _ _ _ ih₁ ih₂ =>
    obtain ⟨hinit, hlast⟩ := Stmt.balancedAll_concat.mp hP
    have hchange : (Part.body (ss ++ [.mk .discard e l])).depthChange
        = Stmt.depthChangeAll ss + e.depthChange := by
      simp only [Part.depthChange, Stmt.depthChangeAll_concat, Action.depthChange]
      omega
    rw [hchange]
    exact (ih₁ hinit d).append (ih₂ hlast _)

/-- Labels that stand once have whatever depths are asked for. -/
theorem exists_forall_mem {Δ : List (String × Int)} (h : (Δ.map Prod.fst).Nodup) :
    ∃ Γ : String → Int, ∀ x ∈ Δ, Γ x.1 = x.2 := by
  induction Δ with
  | nil => exact ⟨fun _ => 0, List.forall_mem_nil _⟩
  | cons x Δ ih =>
    obtain ⟨hx, hΔ⟩ := List.nodup_cons.mp h
    obtain ⟨Γ, hΓ⟩ := ih hΔ
    refine ⟨Function.update Γ x.1 x.2, List.forall_mem_cons.mpr ⟨by simp, fun y hy => ?_⟩⟩
    have hne : y.1 ≠ x.1 := fun heq => hx (heq ▸ List.mem_map_of_mem hy)
    rw [Function.update_of_ne hne, hΓ y hy]

/-- Entries with depths, in front of an entry that stops or of none, make a disciplined listing. -/
theorem AdmitsDepths.disciplined {change : Int} (h : AdmitsDepths 0 es change)
    (rest : List Entry) (hforward : Forward es) (hnodup : (labelsOf (es ++ rest)).Nodup)
    (hrest : ∀ x ∈ rest.head?, x.Stops) : Listing.Disciplined ⟨es ++ rest⟩ es.length change := by
  obtain ⟨Δ, hlabels, hdepths⟩ := h
  have hkeys : (Δ.map Prod.fst).Nodup := by
    rw [labelsOf_append] at hnodup
    exact hlabels ▸ (List.nodup_append.mp hnodup).1
  obtain ⟨Γ, hΓ⟩ := exists_forall_mem hkeys
  have hat : StandsAt (es ++ rest) 0 es := by simpa using standsAt_middle [] es rest
  refine HasDepths.disciplined (Γ := Γ) (by simpa using hdepths Γ hΓ) hforward hnodup hat ?_
  intro d y
  cases rest with
  | nil => exact Machine.not_branches_of_length_le (by simp)
  | cons x rest => exact Machine.not_branches_of_stops (by simp) (hrest x rfl)

/-- The code of a balanced part is a disciplined listing. -/
theorem Lowers.disciplined (h : Lowers P c k c') (hP : P.Balanced)
    (hnodup : (labelsOf k.own).Nodup) :
    Listing.Disciplined ⟨k.own⟩ k.own.length P.depthChange := by
  have hdisciplined := (h.admitsDepths hP 0).disciplined [] h.forward (by simpa using hnodup)
    (by simp)
  rwa [List.append_nil] at hdisciplined

/-- **The evaluation of a balanced part changes the depth of the stack as the part tells.** -/
theorem Lowers.depth_eval (h : Lowers P c k c') (hP : P.Balanced)
    (hnodup : (labelsOf k.own).Nodup) {S : Type u} {M : Machine S} {depth : S → Int}
    (hM : M.TracksDepth depth) (s : S) : depth (P.eval M c s) = depth s + P.depthChange := by
  have hat : StandsAt k.own 0 k.own := by simpa using standsAt_middle [] k.own []
  have hrun : M.Reaches ⟨k.own⟩ ⟨0, s⟩ ⟨0 + k.own.length, P.eval M c s⟩ :=
    h.reaches (l := ⟨k.own⟩) hnodup hat
  rw [Nat.zero_add] at hrun
  exact (h.disciplined hP hnodup).depth_of_reaches hM hrun

mutual

theorem Expr.Balanced.functions : ∀ {e : Expr} {c : LabelCounters}, e.Balanced →
    ∀ f ∈ e.functions c, Stmt.BalancedAll f.body
  | .call callee _, c, h => h.functions (e := callee)
  | .ifElse condition thenArm elseArm, c, ⟨_, hcondition, hthen, helse⟩ => by
    simp only [Expr.functions, List.forall_mem_append]
    exact ⟨⟨hcondition.functions, Stmt.BalancedAll.functions hthen⟩,
      Stmt.BalancedAll.functions helse⟩
  | .lambda name formals body, c, h => by
    simp only [Expr.functions, List.forall_mem_append, List.forall_mem_singleton]
    exact ⟨Stmt.BalancedAll.functions h, h⟩
  | .builtin _, _, _ | .integer _, _, _ | .list, _, _ | .string _, _, _ | .record _, _, _
  | .symbol _, _, _ | .symbolLiteral _, _, _ | .variable _, _, _ => List.forall_mem_nil _

theorem Stmt.BalancedAll.functions : ∀ {ss : List Stmt} {c : LabelCounters},
    Stmt.BalancedAll ss → ∀ f ∈ Stmt.functionsAll ss c, Stmt.BalancedAll f.body
  | [], _, _ => List.forall_mem_nil _
  | .mk .. :: _, _, ⟨he, hrest⟩ =>
    List.forall_mem_append.mpr ⟨he.functions, Stmt.BalancedAll.functions hrest⟩

end

/-- The block of a function takes its arguments and leaves the value of its body. -/
theorem LiftedFunction.HasBlock.disciplined {f : LiftedFunction} {b : List Entry}
    (h : f.HasBlock b) (hbody : Stmt.BalancedAll f.body) (hnodup : (labelsOf b).Nodup) :
    Listing.Disciplined ⟨b⟩ (b.length - 1)
      (Stmt.depthChangeAll f.body + 1 - f.formals.length) := by
  obtain ⟨c, k, c', hlowers, rfl⟩ := h
  have hdepths : AdmitsDepths 0 (.label f.label :: (popFormals f.formals ++ k.own))
      (-f.formals.length + (Stmt.depthChangeAll f.body + 1)) :=
    .label ((AdmitsDepths.popFormals f.formals).append (hlowers.admitsDepths hbody _))
  have hforward := IsBlock.forward f.label f.formals hlowers
  have hdisciplined := hdepths.disciplined [.op .ret none] hforward hnodup
    (by simp [Entry.Stops, Entry.op])
  have hlength : (f.block k.own).length - 1
      = (.label f.label :: (popFormals f.formals ++ k.own)).length := by
    simp [LiftedFunction.block, Nat.add_assoc]
  have hchange : Stmt.depthChangeAll f.body + 1 - f.formals.length
      = -f.formals.length + (Stmt.depthChangeAll f.body + 1) := by omega
  rw [hlength, hchange]
  exact hdisciplined

/-- **Stack discipline.** When the arms of every conditional change the depth alike, every path
through the code of an expression ends behind its last entry, at the depth that the tree tells, and
all paths to an entry have one depth there. The same holds of each block that is lifted out: from
its label to its return a path takes the arguments off the stack and leaves the value of the
body. -/
theorem stack_discipline (hbalanced : e.Balanced) (hfits : c.NoOverflow e.draws)
    (h : e.lower.run c = (.ok k, c')) :
    Listing.Disciplined ⟨k.own⟩ k.own.length e.depthChange ∧
      ∃ bs, k.lifted = bs.flatten ∧ List.Forall₂ (fun f b =>
        b.head? = some (.label f.label) ∧ b.getLast? = some (.op .ret none) ∧
          Listing.Disciplined ⟨b⟩ (b.length - 1)
            (Stmt.depthChangeAll f.body + 1 - f.formals.length)) (e.functions c) bs := by
  have hlowers := Expr.lowers_of_run e h
  have hnodup : (labelsOf (k.lifted ++ k.own)).Nodup :=
    hlowers.labels_perm.nodup_iff.mpr (LabelCounters.issued_nodup hfits)
  obtain ⟨hlifted, hown, -⟩ := List.nodup_append.mp (labelsOf_append _ _ ▸ hnodup)
  constructor
  · exact hlowers.disciplined hbalanced hown
  · obtain ⟨bs, hbs⟩ := hlowers.exists_blocks
    obtain ⟨hlength, hblocks⟩ := List.forall₂_iff_zip.mp hbs.functions
    refine ⟨bs, hbs.lifted, List.forall₂_iff_zip.mpr ⟨hlength, fun {f b} hmem => ?_⟩⟩
    obtain ⟨hf, hb⟩ := List.of_mem_zip hmem
    have hlabels : (labelsOf b).Nodup := by
      rw [hbs.lifted] at hlifted
      exact hlifted.sublist ((List.sublist_flatten_of_mem hb).filterMap _)
    have hdisciplined := (hblocks hmem).disciplined (hbalanced.functions f hf) hlabels
    obtain ⟨_, k', _, -, rfl⟩ := hblocks hmem
    refine ⟨rfl, ?_, hdisciplined⟩
    rw [LiftedFunction.block, ← List.cons_append, List.getLast?_concat]

end Code

/-- A conditional with another one in its first arm and a function in its second. An arm that puts
a number on the stack and negates it there changes the depth like one that names a value; so does,
inside the function, an arm that makes a list of two values. -/
def choiceInArm : Expr :=
  .ifElse (.symbol "c")
    [.mk .discard (.ifElse (.symbol "d")
      [.mk .push (.integer 1) none, .mk .discard (.callBuiltin "__negate__" 1) none]
      [.mk .discard (.symbol "x") none]) none]
    [.mk .discard (.lambda (some "f") ["a", "b"]
      [.mk .discard (.ifElse (.symbol "a")
        [.mk .push (.symbol "a") none, .mk .push (.symbol "b") none, .mk .discard .list none]
        [.mk .discard (.symbol "b") none]) none]) none]

/-- The conditional leaves one value, and the block of its function takes two values and leaves
one. -/
theorem choiceInArm_discipline :
    choiceInArm.Balanced ∧ LabelCounters.empty.NoOverflow choiceInArm.draws ∧
      ∃ k c', choiceInArm.lower.run .empty = (.ok k, c') ∧ k.own.length = 18 ∧
        k.lifted.length = 15 ∧ Listing.Disciplined ⟨k.own⟩ k.own.length 1 ∧
        ∃ bs, k.lifted = bs.flatten ∧ List.Forall₂ (fun f b =>
          b.head? = some (.label f.label) ∧ b.getLast? = some (.op .ret none) ∧
            Listing.Disciplined ⟨b⟩ (b.length - 1)
              (Stmt.depthChangeAll f.body + 1 - f.formals.length))
            (choiceInArm.functions .empty) bs :=
  have hbalanced : choiceInArm.Balanced := by
    simp [choiceInArm, Expr.Balanced, Stmt.BalancedAll, Stmt.depthChangeAll, Expr.depthChange,
      Action.depthChange, Expr.callBuiltin]
  have hfits : LabelCounters.empty.NoOverflow choiceInArm.draws :=
    LabelCounters.noOverflow_empty (by decide)
  ⟨hbalanced, hfits, _, _, rfl, rfl, rfl, stack_discipline hbalanced hfits rfl⟩

end StackLowering
