import StackLowering.Proofs.Paths
import Mathlib.Data.List.Forall2

/-!
# The blocks of a listing

A listing is one block behind the other: a block for each function of the tree, and the main block
at the end. A block is entered at its label and left at its last entry. Nothing but the label
separates it from its neighbours, so that a machine that ran past the end of a block, or jumped out
of it, would go on in the code of another function.

The blocks that a part of a tree lifts out come in the order of its functions, where a function
stands behind those in its body. A function is closed over by code that stands behind its block.

## Main definitions

* `LiftedFunction`, `Program.functions` — the functions of a tree, each with its label
* `Listing.LaidOut` — a listing is made of blocks that belong to functions, and of a main block
* `Machine.Confines` — a machine goes through a block from its label to its last entry

## Main results

* `Lowers.forward`, `Lowers.covers` — the code of a part goes forward, and paths lead everywhere
* `Lowers.exists_blocks` — what a part lifts out is one block for each of its functions
* `Machine.Confines.position_of_reaches` — no run leaves the block that it is in
* `listing_blocks` — a listing is laid out in blocks, and each of them confines every machine
-/

namespace StackLowering

universe u

/-! ## The functions of a tree -/

/-- A function literal with the label of its block. -/
structure LiftedFunction where
  label : String
  formals : List String
  body : List Stmt

mutual

/-- The functions of an expression whose labels are drawn from these counters; a function stands
behind those in its body. -/
def Expr.functions : Expr → LabelCounters → List LiftedFunction
  | .call callee _, c => callee.functions c
  | .ifElse condition thenArm elseArm, c =>
    let c₁ := c.bump BranchLabels.thenBase
    let c₂ := c₁.drawAll condition.draws
    condition.functions c₁ ++ Stmt.functionsAll thenArm c₂ ++
      Stmt.functionsAll elseArm (c₂.drawAll (Stmt.drawsAll thenArm))
  | .lambda name formals body, c =>
    let base := Label.lambdaBase name
    Stmt.functionsAll body (c.bump base) ++ [⟨Label.numbered base (c.count base), formals, body⟩]
  | .builtin _, _ | .integer _, _ | .list, _ | .string _, _ | .record _, _ | .symbol _, _
  | .symbolLiteral _, _ | .variable _, _ => []

/-- The functions of statements that run one after the other. -/
def Stmt.functionsAll : List Stmt → LabelCounters → List LiftedFunction
  | [], _ => []
  | .mk _ e _ :: rest, c => e.functions c ++ Stmt.functionsAll rest (c.drawAll e.draws)

end

/-- The functions of a program. -/
def Program.functions (p : Program) : List LiftedFunction :=
  Stmt.functionsAll p.statements LabelCounters.empty

/-- The functions of a part. -/
def Part.functions : Part → LabelCounters → List LiftedFunction
  | .expression e => e.functions
  | .statements ss | .body ss => Stmt.functionsAll ss

namespace LiftedFunction

/-- The block of a function, around the code of its body. -/
def block (f : LiftedFunction) (body : List Entry) : List Entry :=
  .label f.label :: (popFormals f.formals ++ body ++ [.op .ret none])

theorem length_block (f : LiftedFunction) (body : List Entry) :
    (f.block body).length = f.formals.length + body.length + 2 := by
  simp [block, Nat.add_assoc]

/-- The block has the label of the function, and the code of its body. -/
def HasBlock (f : LiftedFunction) (b : List Entry) : Prop :=
  ∃ c k c', Lowers (.body f.body) c k c' ∧ b = f.block k.own

end LiftedFunction

/-! ## Code goes forward -/

section Code

variable {e : Expr} {i : Instruction} {ss ts : List Stmt} {c c' : LabelCounters} {k : Code}
  {P : Part}

theorem Expr.not_directs_of_instruction? (h : e.instruction? = some i) :
    i.mnemonic.directs = false :=
  Mnemonic.directs_of_makesValue (Expr.makesValue_of_instruction? h).1

theorem Action.not_directs_of_mem_entries {a : Action} :
    ∀ x ∈ a.entries, ∃ i, x = .instruction i ∧ i.mnemonic.directs = false := by
  intro x hx
  obtain rfl | ⟨name, rfl⟩ := a.eq_of_mem_entries hx <;> exact ⟨_, rfl, rfl⟩

theorem not_directs_of_mem_popFormals {formals : List String} :
    ∀ x ∈ popFormals formals, ∃ i, x = .instruction i ∧ i.mnemonic.directs = false := by
  intro x hx
  obtain ⟨name, -, rfl⟩ := mem_popFormals.mp hx
  exact ⟨_, rfl, rfl⟩

/-- The code of a part never stops a machine, and its jumps lead to labels of its own behind
them. -/
theorem Lowers.forward (h : Lowers P c k c') : Forward k.own := by
  induction h with
  | instruction h => exact .effect (Expr.not_directs_of_instruction? h) .nil
  | call _ _ ih => exact ih.append (.effect rfl .nil)
  | ifElse _ _ _ ih₁ ih₂ ih₃ =>
    simp only [Code.ofArms, List.append_assoc]
    refine ih₁.append (.jumpIfFalse (by simp) (.jump (by simp) (.label (ih₂.append ?_))))
    exact .jump (by simp) (.label (ih₃.append (.label .nil)))
  | lambda => exact .effect rfl .nil
  | nil => exact .nil
  | snoc _ _ ih₁ ih₂ =>
    rw [Code.own_append, Code.own_ofAction]
    exact ih₁.append (ih₂.append (.of_effects Action.not_directs_of_mem_entries))
  | body _ _ ih₁ ih₂ => exact ih₁.append ih₂

variable {S : Type u} {M : Machine S} {l : Listing} {p : Nat}

/-- Paths lead to every entry of a conditional: to its arms by the two outcomes of the test. -/
theorem Code.ofArms_covers {labels : BranchLabels} {k₁ k₂ k₃ : Code} (hnodup : l.labels.Nodup)
    (hat : StandsAt l.entries p (Code.ofArms labels k₁ k₂ k₃).own)
    (hcondition : StandsAt l.entries p k₁.own → M.Covers l p p k₁.own.length)
    (hthen : ∀ q, StandsAt l.entries q k₂.own → M.Covers l q q k₂.own.length)
    (helse : ∀ q, StandsAt l.entries q k₃.own → M.Covers l q q k₃.own.length) :
    M.Covers l p p (Code.ofArms labels k₁ k₂ k₃).own.length := by
  simp only [Code.ofArms, List.append_assoc, List.cons_append, List.nil_append, standsAt_append,
    standsAt_cons, standsAt_nil, and_true, List.length_append, List.length_cons,
    List.length_nil] at hat ⊢
  obtain ⟨hk₁, hbranch, henter, hthenLabel, hk₂, -, helseLabel, hk₃, hendLabel⟩ := hat
  have hthenAt := position?_eq_some hnodup hthenLabel
  have helseAt := position?_eq_some hnodup helseLabel
  obtain ⟨hhold, hfail⟩ := Machine.leads_jumpIfFalse (M := M) hbranch helseAt
  have hfirst := (hhold.trans (Machine.leads_jump henter hthenAt))
  have hsecond := (hfail.trans (Machine.leads_label helseLabel)).covers (helse _ hk₃)
  have harm := (hfirst.trans (Machine.leads_label hthenLabel)).covers (hthen _ hk₂)
  refine (hcondition hk₁).andThen ?_
  refine .succ (.refl _) (.succ hhold (.succ hfirst (harm.append ?_)))
  -- the jump at the end of the first arm leads away from the second one
  refine .succ harm.last (.succ hfail (hsecond.append ?_))
  exact .succ hsecond.last (.zero (hsecond.last.trans (Machine.leads_label hendLabel)))

/-- Paths lead from the first entry of the code of a part to every other one, and behind it. -/
theorem Lowers.covers (h : Lowers P c k c') (hnodup : l.labels.Nodup)
    (hat : StandsAt l.entries p k.own) : M.Covers l p p k.own.length := by
  induction h generalizing p with
  | instruction h =>
    exact Machine.covers_of_effects hat
      (List.forall_mem_singleton.mpr ⟨_, rfl, Expr.not_directs_of_instruction? h⟩)
  | call _ _ ih =>
    obtain ⟨hcallee, hcall⟩ := standsAt_append.mp hat
    rw [Code.own_push, List.length_append]
    exact (ih hcallee).andThen
      (Machine.covers_of_effects hcall (List.forall_mem_singleton.mpr ⟨_, rfl, rfl⟩))
  | ifElse _ _ _ ih₁ ih₂ ih₃ =>
    exact Code.ofArms_covers hnodup hat ih₁ (fun q => ih₂) fun q => ih₃
  | lambda =>
    exact Machine.covers_of_effects hat (List.forall_mem_singleton.mpr ⟨_, rfl, rfl⟩)
  | nil => exact Machine.covers_of_effects hat (List.forall_mem_nil _)
  | snoc _ _ ih₁ ih₂ =>
    rw [Code.own_append, Code.own_ofAction, standsAt_append, standsAt_append] at hat
    obtain ⟨hinit, hlast, haction⟩ := hat
    rw [Code.own_append, Code.own_ofAction, List.length_append, List.length_append]
    exact (ih₁ hinit).andThen ((ih₂ hlast).andThen
      (Machine.covers_of_effects haction Action.not_directs_of_mem_entries))
  | body _ _ ih₁ ih₂ =>
    obtain ⟨hinit, hlast⟩ := standsAt_append.mp hat
    rw [Code.own_append, List.length_append]
    exact (ih₁ hinit).andThen (ih₂ hlast)

end Code

/-! ## Blocks in front of the code that refers to them -/

theorem exists_of_mem_forall₂ {α β : Type} {R : α → β → Prop} {as : List α} {bs : List β}
    (h : List.Forall₂ R as bs) {b : β} (hb : b ∈ bs) : ∃ a ∈ as, R a b := by
  induction h with
  | nil => cases hb
  | cons hab _ ih =>
    rcases List.mem_cons.mp hb with rfl | hb
    · exact ⟨_, List.mem_cons_self, hab⟩
    · obtain ⟨a, ha, hab⟩ := ih hb
      exact ⟨a, List.mem_cons_of_mem _ ha, hab⟩

theorem exists_of_mem_forall₂_left {α β : Type} {R : α → β → Prop} {as : List α} {bs : List β}
    (h : List.Forall₂ R as bs) {a : α} (ha : a ∈ as) : ∃ b ∈ bs, R a b :=
  exists_of_mem_forall₂ h.flip ha

section Layout

variable {bs bs' : List (List Entry)} {b es es' : List Entry} {e : Expr} {c c' : LabelCounters}
  {k : Code} {P : Part}

/-- Every closure that the entries make is one of a block that starts with its label. -/
def ClosesOver (bs : List (List Entry)) (es : List Entry) : Prop :=
  ∀ i, .instruction i ∈ es → i.mnemonic = .close →
    ∃ name, i.operand = some (.label name) ∧ ∃ b ∈ bs, b.head? = some (.label name)

/-- Every closure is one of a block in front of the block that makes it. -/
def ClosesEarlier (bs : List (List Entry)) : Prop :=
  ∀ pre b post, bs = pre ++ b :: post → ClosesOver pre b

theorem ClosesOver.mono (h : ClosesOver bs es) (hbs : bs ⊆ bs') : ClosesOver bs' es := by
  intro i hi hclose
  obtain ⟨name, hname, b, hb, hlabel⟩ := h i hi hclose
  exact ⟨name, hname, b, hbs hb, hlabel⟩

theorem closesOver_append :
    ClosesOver bs (es ++ es') ↔ ClosesOver bs es ∧ ClosesOver bs es' := by
  simp only [ClosesOver, List.mem_append]
  constructor
  · intro h
    exact ⟨fun i hi => h i (.inl hi), fun i hi => h i (.inr hi)⟩
  · rintro ⟨h, h'⟩ i (hi | hi)
    · exact h i hi
    · exact h' i hi

theorem ClosesOver.of_not_close (h : ∀ i, .instruction i ∈ es → i.mnemonic ≠ .close) :
    ClosesOver bs es :=
  fun i hi hclose => absurd hclose (h i hi)

theorem closesOver_label {name : String} :
    ClosesOver bs (.label name :: es) ↔ ClosesOver bs es := by
  simp [ClosesOver]

theorem closesEarlier_nil : ClosesEarlier [] := by
  intro pre b post h
  simp at h

theorem ClosesEarlier.append (h : ClosesEarlier bs) (h' : ClosesEarlier bs') :
    ClosesEarlier (bs ++ bs') := by
  intro pre b post heq
  rcases List.append_eq_append_iff.mp heq with ⟨mid, rfl, hmid⟩ | ⟨mid, rfl, hmid⟩
  · exact (h' mid b post hmid).mono (List.subset_append_right _ _)
  · cases mid with
    | nil => exact (h' [] b post hmid.symm).mono (List.nil_subset _)
    | cons b' mid =>
      obtain ⟨rfl, -⟩ := List.cons.inj hmid
      exact h pre b mid rfl

theorem ClosesEarlier.concat (h : ClosesEarlier bs) (hb : ClosesOver bs b) :
    ClosesEarlier (bs ++ [b]) := by
  intro pre b' post heq
  rcases post.eq_nil_or_concat with rfl | ⟨post, last, rfl⟩
  · obtain ⟨rfl, rfl⟩ := List.append_singleton_inj.mp heq
    exact hb
  · rw [List.concat_eq_append, ← List.cons_append, ← List.append_assoc] at heq
    obtain ⟨hbs, -⟩ := List.append_singleton_inj.mp heq
    exact h pre b' post hbs

/-- The code has a block for each of the functions, and closes over functions by these blocks. -/
structure Code.HasBlocks (k : Code) (fs : List LiftedFunction) (bs : List (List Entry)) : Prop where
  lifted : k.lifted = bs.flatten
  functions : List.Forall₂ LiftedFunction.HasBlock fs bs
  closesEarlier : ClosesEarlier bs
  closesOver : ClosesOver bs k.own

namespace Code.HasBlocks

variable {k₁ k₂ : Code} {fs fs₁ fs₂ : List LiftedFunction} {bs₁ bs₂ : List (List Entry)}

theorem append (h₁ : k₁.HasBlocks fs₁ bs₁) (h₂ : k₂.HasBlocks fs₂ bs₂) :
    (k₁ ++ k₂).HasBlocks (fs₁ ++ fs₂) (bs₁ ++ bs₂) where
  lifted := by simp [h₁.lifted, h₂.lifted]
  functions := List.rel_append h₁.functions h₂.functions
  closesEarlier := h₁.closesEarlier.append h₂.closesEarlier
  closesOver := closesOver_append.mpr
    ⟨h₁.closesOver.mono (List.subset_append_left _ _),
      h₂.closesOver.mono (List.subset_append_right _ _)⟩

theorem ofAction (h : k.HasBlocks fs bs) (a : Action) : (k.ofAction a).HasBlocks fs bs where
  lifted := by rw [Code.lifted_ofAction, h.lifted]
  functions := h.functions
  closesEarlier := h.closesEarlier
  closesOver := by
    rw [Code.own_ofAction, closesOver_append]
    refine ⟨h.closesOver, .of_not_close fun i hi => ?_⟩
    rcases Action.eq_of_mem_entries hi with hi | ⟨name, hi⟩ <;>
      simp [Entry.instruction.inj hi, Instruction.drop]

end Code.HasBlocks

theorem Expr.functions_of_instruction? {i : Instruction} (h : e.instruction? = some i) :
    e.functions c = [] := by
  cases Expr.becomes_of_instruction? h <;> rfl

theorem Stmt.functionsAll_append (ss ts : List Stmt) :
    Stmt.functionsAll (ss ++ ts) c
      = Stmt.functionsAll ss c ++ Stmt.functionsAll ts (c.drawAll (Stmt.drawsAll ss)) := by
  induction ss generalizing c with
  | nil => rfl
  | cons s ss ih =>
    obtain ⟨a, e, l⟩ := s
    rw [List.cons_append, Stmt.functionsAll, ih, Stmt.functionsAll, Stmt.drawsAll, Stmt.draws,
      LabelCounters.drawAll_append, List.append_assoc]

@[simp] theorem Stmt.functionsAll_singleton (a : Action) (e : Expr) (l : Option Location) :
    Stmt.functionsAll [.mk a e l] c = e.functions c := by
  simp [Stmt.functionsAll]

theorem Code.closesOver_ofArms {labels : BranchLabels} {k₁ k₂ k₃ : Code}
    (h₁ : ClosesOver bs k₁.own) (h₂ : ClosesOver bs k₂.own) (h₃ : ClosesOver bs k₃.own) :
    ClosesOver bs (Code.ofArms labels k₁ k₂ k₃).own := by
  simp only [Code.ofArms, closesOver_append]
  refine ⟨⟨⟨⟨⟨h₁, ?_⟩, h₂⟩, ?_⟩, h₃⟩, ?_⟩ <;> exact .of_not_close (by simp [Entry.op])

theorem LiftedFunction.closesOver_block (f : LiftedFunction) (h : ClosesOver bs es) :
    ClosesOver bs (f.block es) := by
  rw [LiftedFunction.block, closesOver_label, closesOver_append, closesOver_append]
  refine ⟨⟨.of_not_close fun i hi => ?_, h⟩, .of_not_close (by simp [Entry.op])⟩
  obtain ⟨name, -, hpop⟩ := mem_popFormals.mp hi
  simp [Entry.instruction.inj hpop]

/-- **What a part lifts out is one block for each of its functions.** -/
theorem Lowers.exists_blocks (h : Lowers P c k c') : ∃ bs, k.HasBlocks (P.functions c) bs := by
  induction h with
  | @instruction e i c h =>
    rw [Part.functions, Expr.functions_of_instruction? h]
    refine ⟨[], rfl, .nil, closesEarlier_nil, .of_not_close fun j hj hclose => ?_⟩
    obtain rfl : j = i := by simpa using hj
    have hvalue := (Expr.makesValue_of_instruction? h).1
    rw [hclose] at hvalue
    cases hvalue
  | call _ _ ih =>
    obtain ⟨bs, hk⟩ := ih
    refine ⟨bs, hk.lifted, hk.functions, hk.closesEarlier, closesOver_append.mpr ⟨hk.closesOver, ?_⟩⟩
    exact .of_not_close (by simp [Entry.op])
  | ifElse h₁ h₂ _ ih₁ ih₂ ih₃ =>
    obtain ⟨bs₁, hk₁⟩ := ih₁
    obtain ⟨bs₂, hk₂⟩ := ih₂
    obtain ⟨bs₃, hk₃⟩ := ih₃
    have hfunctions := List.rel_append (List.rel_append hk₁.functions hk₂.functions) hk₃.functions
    rw [h₂.counters, h₁.counters] at hfunctions
    refine ⟨bs₁ ++ bs₂ ++ bs₃, ?_, hfunctions,
      (hk₁.closesEarlier.append hk₂.closesEarlier).append hk₃.closesEarlier,
      Code.closesOver_ofArms (hk₁.closesOver.mono ?_) (hk₂.closesOver.mono ?_)
        (hk₃.closesOver.mono ?_)⟩
    · simp [Code.ofArms, hk₁.lifted, hk₂.lifted, hk₃.lifted]
    all_goals simp
  | @lambda name formals ss c c' k hbody ih =>
    obtain ⟨bs, hk⟩ := ih
    let f : LiftedFunction :=
      ⟨Label.numbered (Label.lambdaBase name) (c.count (Label.lambdaBase name)), formals, ss⟩
    have hf : f.HasBlock (f.block k.own) := ⟨_, k, _, hbody, rfl⟩
    refine ⟨bs ++ [f.block k.own], ?_, List.rel_append hk.functions (.cons hf .nil),
      hk.closesEarlier.concat (f.closesOver_block hk.closesOver), fun i hi _ => ?_⟩
    · simp [Code.ofLambda, hk.lifted, LiftedFunction.block, f]
    · obtain rfl : i = ⟨.close, some (.label f.label)⟩ := by
        simpa [Code.ofLambda, Entry.op] using hi
      exact ⟨f.label, rfl, f.block k.own, by simp, rfl⟩
  | nil => exact ⟨[], rfl, .nil, closesEarlier_nil, .of_not_close (by simp)⟩
  | @snoc ss a e l c c₁ c₂ k₁ k₂ h₁ _ ih₁ ih₂ =>
    obtain ⟨bs₁, hk₁⟩ := ih₁
    obtain ⟨bs₂, hk₂⟩ := ih₂
    rw [h₁.counters] at hk₂
    refine ⟨bs₁ ++ bs₂, ?_⟩
    rw [Part.functions, Stmt.functionsAll_append, Stmt.functionsAll_singleton]
    exact hk₁.append (hk₂.ofAction a)
  | body h₁ _ ih₁ ih₂ =>
    obtain ⟨bs₁, hk₁⟩ := ih₁
    obtain ⟨bs₂, hk₂⟩ := ih₂
    rw [h₁.counters] at hk₂
    refine ⟨bs₁ ++ bs₂, ?_⟩
    rw [Part.functions, Stmt.functionsAll_append, Stmt.functionsAll_singleton]
    exact hk₁.append hk₂

end Layout

/-! ## Machines inside a block -/

/-- A machine that is inside the block which starts at this position goes through the block. -/
structure Machine.Confines {S : Type u} (M : Machine S) (l : Listing) (start : Nat)
    (b : List Entry) : Prop where
  /-- Paths lead from the first entry of the block to every entry of it. -/
  reached : ∀ i < b.length, M.Leads l start (start + i)
  /-- A step goes on to a later entry of the same block. -/
  stays : ∀ i < b.length, ∀ s y, M.Branches l ⟨start + i, s⟩ y →
    start + i < y.position ∧ y.position < start + b.length
  /-- Every path ends at the last entry, after at most one step for each entry in front of it. -/
  ends : ∀ i < b.length, ∀ s, EndsWithin (M.Branches l)
    (fun y => y.position + 1 = start + b.length) (b.length - 1 - i) ⟨start + i, s⟩

namespace Machine.Confines

variable {S : Type u} {M : Machine S} {l : Listing} {start i : Nat} {b : List Entry} {s : S}
  {y : Config S}

/-- No path leaves the block that it is in, or goes back in it. -/
theorem position_of_path (h : M.Confines l start b) (hi : i < b.length)
    (hy : Relation.ReflTransGen (M.Branches l) ⟨start + i, s⟩ y) :
    start + i ≤ y.position ∧ y.position < start + b.length := by
  induction hy with
  | refl => exact ⟨Nat.le_refl _, Nat.add_lt_add_left hi start⟩
  | @tail x y _ hstep ih =>
    obtain ⟨p, s'⟩ := x
    obtain ⟨j, rfl⟩ := Nat.exists_eq_add_of_le (Nat.le_of_add_right_le ih.1)
    have hnext := h.stays j (Nat.lt_of_add_lt_add_left ih.2) s' y hstep
    exact ⟨Nat.le_trans ih.1 (Nat.le_of_lt hnext.1), hnext.2⟩

/-- Whatever the tests of the machine are, its run does not leave the block that it is in, or go
back in it. -/
theorem position_of_reaches (h : M.Confines l start b) (hi : i < b.length)
    (hy : M.Reaches l ⟨start + i, s⟩ y) :
    start + i ≤ y.position ∧ y.position < start + b.length :=
  h.position_of_path hi hy.path

end Machine.Confines

section Blocks

variable {S : Type u} {M : Machine S} {l : Listing} {p : Nat} {b es es' : List Entry} {x : Entry}
  {i : Instruction}

/-- Entries that go forward, with an entry at their end at which machines stop. -/
theorem Forward.confines (h : Forward es) (hx : x.Stops) (hnodup : l.labels.Nodup)
    (hat : StandsAt l.entries p (es ++ [x])) (hcovers : M.Covers l p p es.length) :
    M.Confines l p (es ++ [x]) := by
  obtain ⟨hes, hlast, -⟩ := standsAt_append.mp hat
  have hrest (i : Nat) (hi : i ≤ es.length) : Forward (es.drop i) ∧
      StandsAt l.entries (p + i) (es.drop i) ∧ p + i + (es.drop i).length = p + es.length := by
    have hdrop := standsAt_append.mp (List.take_append_drop i es ▸ hes)
    rw [List.length_take, Nat.min_eq_left hi] at hdrop
    have hforward : Forward (es.take i ++ es.drop i) := by rwa [List.take_append_drop]
    refine ⟨hforward.of_append, hdrop.2, ?_⟩
    rw [List.length_drop]
    omega
  have hle {i : Nat} (hi : i < (es ++ [x]).length) : i ≤ es.length := by
    simpa [Nat.lt_succ_iff] using hi
  refine ⟨fun i hi => hcovers i (hle hi), fun i hi s y hy => ?_, fun i hi s => ?_⟩
  · obtain ⟨hforward, hat, hlength⟩ := hrest i (hle hi)
    cases hes : es.drop i with
    | nil =>
      -- the last entry of the block, where there is no step
      rw [hes, List.length_nil, Nat.add_zero] at hlength
      rw [hlength] at hy
      exact absurd hy (Machine.not_branches_of_stops hlast hx)
    | cons e rest =>
      rw [hes] at hforward hat hlength
      obtain ⟨front, back, rfl, hposition⟩ := (hforward.branches hnodup hat).2 y hy
      simp only [List.length_cons, List.length_append, List.length_nil] at hlength ⊢
      omega
  · obtain ⟨hforward, hat, hlength⟩ := hrest i (hle hi)
    have hstop (s : S) (y : Config S) : ¬ M.Branches l ⟨p + i + (es.drop i).length, s⟩ y := by
      rw [hlength]
      exact Machine.not_branches_of_stops hlast hx
    have hends := hforward.endsWithin hnodup hat hstop s
    rw [hlength, List.length_drop] at hends
    simpa [← Nat.add_assoc] using hends

/-- In front of an entry that stops, each jump leads to a label between the two. -/
theorem Forward.target_of_concat (h : Forward es) (hx : x.Stops) {front back : List Entry}
    (heq : es ++ [x] = front ++ .instruction i :: back)
    (hi : i.mnemonic = .jump ∨ i.mnemonic = .jumpIfFalse) :
    ∃ name, i.operand = some (.label name) ∧ .label name ∈ back := by
  rcases back.eq_nil_or_concat with rfl | ⟨back, last, rfl⟩
  · obtain ⟨-, rfl⟩ := List.append_singleton_inj.mp heq
    rcases hx with hm | hm <;> rcases hi with hi | hi <;> rw [hm] at hi <;> cases hi
  · rw [List.concat_eq_append, ← List.cons_append, ← List.append_assoc] at heq
    obtain ⟨rfl, -⟩ := List.append_singleton_inj.mp heq
    obtain ⟨name, hname, hmem⟩ := h.target hi
    exact ⟨name, hname, by simp [hmem]⟩

/-- A label, instructions that take arguments off the stack, the code of a part of a tree, and an
entry that stops. -/
inductive IsBlock : List Entry → Prop
  | intro {P : Part} {c c' : LabelCounters} {k : Code} (name : String) (formals : List String)
    {x : Entry} (h : Lowers P c k c') (hx : x.Stops) :
    IsBlock (.label name :: (popFormals formals ++ k.own ++ [x]))

theorem LiftedFunction.HasBlock.isBlock {f : LiftedFunction} (h : f.HasBlock b) : IsBlock b := by
  obtain ⟨c, k, c', hbody, rfl⟩ := h
  exact .intro f.label f.formals hbody (.inl rfl)

namespace IsBlock

/-- In front of the entry that stops, a block goes forward. -/
theorem forward {P : Part} {c c' : LabelCounters} {k : Code} (name : String)
    (formals : List String) (h : Lowers P c k c') :
    Forward (.label name :: (popFormals formals ++ k.own)) :=
  .label ((Forward.of_effects not_directs_of_mem_popFormals).append h.forward)

theorem target (hb : IsBlock b) (heq : b = es ++ .instruction i :: es')
    (hi : i.mnemonic = .jump ∨ i.mnemonic = .jumpIfFalse) :
    ∃ name, i.operand = some (.label name) ∧ .label name ∈ es' := by
  obtain ⟨name, formals, h, hx⟩ := hb
  exact (forward name formals h).target_of_concat hx heq hi

theorem confines (hb : IsBlock b) (hnodup : l.labels.Nodup) (hat : StandsAt l.entries p b) :
    M.Confines l p b := by
  obtain ⟨name, formals, h, hx⟩ := hb
  refine (forward name formals h).confines hx hnodup hat ?_
  obtain ⟨hlabel, hinside⟩ := hat
  obtain ⟨⟨hformals, hown⟩, -⟩ := by simpa only [standsAt_append] using hinside
  have hpops := Machine.covers_of_effects (M := M) hformals not_directs_of_mem_popFormals
  rw [List.length_cons, List.length_append]
  exact .succ (.refl p)
    ((Machine.leads_label hlabel).covers (hpops.andThen (h.covers hnodup hown)))

end IsBlock

end Blocks

/-! ## Whole programs -/

/-- The listing consists of blocks for these functions and of a main block. -/
structure Listing.LaidOut (l : Listing) (fs : List LiftedFunction) (bs : List (List Entry))
    (main : List Entry) : Prop where
  /-- The entries are the blocks, one behind the other, and then the main block. -/
  entries : l.entries = bs.flatten ++ main
  /-- There is one block for each function. It starts with its label and ends in a return, and
  there is no other entry at which a machine stops. -/
  functions : List.Forall₂
    (fun f b => ∃ es, b = .label f.label :: (es ++ [.op .ret none]) ∧ ∀ x ∈ es, ¬ x.Stops) fs bs
  /-- The main block starts with the label of the program and stops at the end of the listing
  only. -/
  mainBlock : ∃ es, main = .label Label.main :: (es ++ [.op .halt none]) ∧ ∀ x ∈ es, ¬ x.Stops
  /-- A jump leads to a label behind it in its own block. -/
  jumps : ∀ b ∈ bs ++ [main], ∀ es i es', b = es ++ .instruction i :: es' →
    i.mnemonic = .jump ∨ i.mnemonic = .jumpIfFalse →
      ∃ name, i.operand = some (.label name) ∧ .label name ∈ es'
  /-- A closure is made of the block of a function in front of it. -/
  closes : ClosesEarlier (bs ++ [main])

section Program

variable {p : Program} {l : Listing}

/-- **A listing is laid out in blocks, and no machine leaves a block that it is in.** -/
theorem listing_blocks (hsize : p.draws.length < 2 ^ 32) (hl : p.lower = .ok l) :
    ∃ bs main, l.LaidOut p.functions bs main ∧
      ∀ {S : Type u} (M : Machine S) pre b post, bs ++ [main] = pre ++ b :: post →
        M.Confines l pre.flatten.length b := by
  have hnodup := labels_nodup_of_lower hsize hl
  obtain ⟨k, c', hk, rfl⟩ := Program.lower_eq_ok_iff.mp hl
  obtain ⟨bs, hbs⟩ := hk.exists_blocks
  let main : List Entry := .label Label.main :: (k.own ++ [.op .halt none])
  have hentries : k.toListing.entries = bs.flatten ++ main := by
    simp [Code.toListing, hbs.lifted, main]
  have hblocks : ∀ b ∈ bs ++ [main], IsBlock b := by
    refine List.forall_mem_append.mpr ⟨fun b hb => ?_, List.forall_mem_singleton.mpr ?_⟩
    · obtain ⟨f, -, hf⟩ := exists_of_mem_forall₂ hbs.functions hb
      exact hf.isBlock
    · exact .intro Label.main [] hk (.inr rfl)
  refine ⟨bs, main, ⟨hentries, hbs.functions.imp ?_, ⟨k.own, rfl, hk.forward.not_stops⟩,
    fun b hb es i es' => (hblocks b hb).target, hbs.closesEarlier.concat ?_⟩, ?_⟩
  · rintro f b ⟨c, k, c', hbody, rfl⟩
    refine ⟨popFormals f.formals ++ k.own, by simp [LiftedFunction.block], ?_⟩
    exact ((Forward.of_effects not_directs_of_mem_popFormals).append hbody.forward).not_stops
  · exact closesOver_label.mpr
      (closesOver_append.mpr ⟨hbs.closesOver, .of_not_close (by simp [Entry.op])⟩)
  · intro S M pre b post heq
    refine (hblocks b (by simp [heq])).confines hnodup ?_
    have hflatten : k.toListing.entries = pre.flatten ++ b ++ post.flatten := by
      simpa [hentries] using congrArg List.flatten heq
    rw [hflatten]
    exact standsAt_middle _ _ _

end Program

/-- The functions in the arms have a block each, in the order in which they stand in the tree. -/
theorem functionsInArms_blocks :
    functionsInArms.draws.length < 2 ^ 32 ∧
      functionsInArms.lower = .ok functionsInArmsListing ∧
      functionsInArms.functions.map LiftedFunction.label = ["else$1", "__lambda__$0"] ∧
      ∃ bs main, functionsInArmsListing.LaidOut functionsInArms.functions bs main ∧
        ∀ {S : Type} (M : Machine S) pre b post, bs ++ [main] = pre ++ b :: post →
          M.Confines functionsInArmsListing pre.flatten.length b :=
  have hsize : functionsInArms.draws.length < 2 ^ 32 := by decide
  have hlower : functionsInArms.lower = .ok functionsInArmsListing := rfl
  ⟨hsize, hlower, rfl, listing_blocks hsize hlower⟩

end StackLowering
