import StackLowering.Proofs.Linking
import StackLowering.Proofs.NormalForm

/-!
# Stack code determines the normal form of its tree

Code is read from its end. The last entry tells the form of an expression, and an expression says
itself where it begins: the code of a callee, of a condition or of an arm is found by reading on
from where the entries behind it stop. Statements have no such beginning. They reach back to the
label that opens their arm, or to the start of their block, and no statement ends in such a label.

A closure names the block that it belongs to. The labels of a program are distinct, so the block
is found, and it stops at its first return. What stands between are instructions that take
arguments off the stack and then the body; the body starts by making a value, so the two are told
apart.

## Main definitions

* `Entry.OpensArm` — the labels at which the code of an arm begins
* `Determines` — code, with the lifted blocks beside it, determines the normal form of its part

## Main results

* `Lowers.determines` — the code of every part determines its normal form
* `lower_eq_iff_normalize_eq` — two programs have one listing exactly when they have one normal
  form
-/

namespace StackLowering

variable {e : Expr} {ss ts : List Stmt} {c c₁ c₂ c' : LabelCounters} {k k₁ k₂ k₃ : Code}
  {T es es₁ es₂ : List Entry} {P : Part}

/-- Two lists that agree, divided at the first occurrence of the same element, agree in both
parts. -/
theorem append_cons_inj_of_first {α : Type} {a : α} {x₁ x₂ z₁ z₂ : List α} (h₁ : a ∉ x₁)
    (h₂ : a ∉ x₂) (h : x₁ ++ a :: z₁ = x₂ ++ a :: z₂) : x₁ = x₂ ∧ z₁ = z₂ := by
  rcases List.append_eq_append_iff.mp h with ⟨y, hx, hz⟩ | ⟨y, hx, hz⟩ <;> cases y with
  | nil => simp_all
  | cons b y =>
    obtain ⟨rfl, -⟩ := List.cons.inj hz
    simp [hx] at h₁ h₂

/-- Two lists that agree have the same last entry. -/
theorem last_eq {es₃ : List Entry} {x y : Entry} (h : es₁ ++ [x] = es₂ ++ es₃)
    (hy : es₃.getLast? = some y) : x = y := by
  have hlast := congrArg List.getLast? h
  rw [List.getLast?_concat, List.getLast?_append, hy] at hlast
  exact Option.some.inj hlast

/-! ### Where statements stop -/

/-- The entry is a label, and not one that ends a conditional. -/
def Entry.OpensArm : Entry → Prop
  | .label name => ∀ n, name ≠ Label.numbered BranchLabels.endBase n
  | .instruction _ => False

/-- The entries stop where statements begin: in front of a block or of an arm. -/
def OpenEnded (es : List Entry) : Prop := ∀ x ∈ es.getLast?, x.OpensArm

theorem openEnded_nil : OpenEnded [] := by
  intro x hx
  cases hx

theorem openEnded_append {base : String} {n : UInt32}
    (h : es₂.getLast? = some (.label (Label.numbered base n)))
    (hbase : base ≠ BranchLabels.endBase) : OpenEnded (es₁ ++ es₂) := by
  intro x hx
  rw [List.getLast?_append, h] at hx
  obtain rfl := Option.some.inj hx
  exact fun m hm => hbase (Label.numbered_inj.mp hm).1

/-- The code of a part does not end where an arm begins. -/
theorem Lowers.not_opensArm_of_getLast? (h : Lowers P c k c') :
    ∀ x ∈ k.own.getLast?, ¬ x.OpensArm := by
  induction h with
  | instruction | call | lambda =>
    intro x hx
    simp only [Code.own_push, Code.ofLambda, List.getLast?_append, List.getLast?_singleton,
      Option.some_or, Option.mem_def, Option.some.injEq] at hx
    subst hx
    exact id
  | ifElse =>
    intro x hx
    simp only [Code.ofArms, List.getLast?_append, List.getLast?_singleton, Option.some_or,
      Option.mem_def, Option.some.injEq] at hx
    subst hx
    exact fun hopens => hopens _ rfl
  | nil =>
    intro x hx
    cases hx
  | @snoc ss a e l _ _ _ k₁ k₂ _ _ ih₁ ih₂ =>
    intro x hx
    simp only [Code.own_append, Code.own_ofAction, List.getLast?_append, Option.mem_def,
      Option.or_eq_some_iff] at hx
    rcases hx with (hx | ⟨-, hx⟩) | ⟨-, hx⟩
    · cases a <;> cases hx <;> exact id
    · exact ih₂ x hx
    · exact ih₁ x hx
  | body _ _ ih₁ ih₂ =>
    intro x hx
    simp only [Code.own_append, List.getLast?_append, Option.mem_def,
      Option.or_eq_some_iff] at hx
    rcases hx with hx | ⟨-, hx⟩
    · exact ih₂ x hx
    · exact ih₁ x hx

/-- Statements behind which the entries still stop where an arm begins are none at all. -/
theorem Lowers.eq_nil_of_openEnded (h : Lowers (.statements ss) c k c')
    (hopen : OpenEnded (es ++ k.own)) : ss = [] ∧ k.own = [] := by
  rcases h.startsWithValue_or_nil with ⟨i, rest, hown, -⟩ | ⟨hss, hown⟩
  · obtain ⟨x, hx⟩ : ∃ x, k.own.getLast? = some x :=
      ⟨_, List.getLast?_eq_some_getLast (by rw [hown]; exact List.cons_ne_nil _ _)⟩
    exact absurd (hopen x (by simp [List.getLast?_append, hx])) (h.not_opensArm_of_getLast? x hx)
  · exact ⟨Part.statements.inj hss, hown⟩

/-! ### Blocks -/

/-- Behind instructions that take arguments off the stack, code that starts by making a value
tells how many there are. -/
theorem popFormals_append_inj {formals₁ formals₂ : List String} (h₁ : StartsWithValue es₁)
    (h₂ : StartsWithValue es₂) (h : popFormals formals₁ ++ es₁ = popFormals formals₂ ++ es₂) :
    formals₁ = formals₂ ∧ es₁ = es₂ := by
  have hpop {name : String} {rest es : List Entry} (hes : StartsWithValue es) :
      es ≠ .op .pop (some (.symbol name)) :: rest := by
    obtain ⟨i, tail, rfl, hi⟩ := hes
    intro heq
    obtain ⟨rfl, -⟩ : i = _ ∧ tail = rest := by simpa [Entry.op] using heq
    simp [Mnemonic.makesValue] at hi
  simp only [popFormals] at h
  rw [← List.reverse_inj]
  generalize formals₁.reverse = names₁ at h
  generalize formals₂.reverse = names₂ at h
  induction names₁ generalizing names₂ with
  | nil =>
    cases names₂ with
    | nil => exact ⟨rfl, h⟩
    | cons name names₂ => exact absurd h (hpop h₁)
  | cons name names₁ ih =>
    cases names₂ with
    | nil => exact absurd h.symm (hpop h₂)
    | cons name' names₂ =>
      obtain ⟨hhead, htail⟩ := List.cons.inj h
      obtain ⟨rfl, hes⟩ := ih names₂ htail
      cases hhead
      exact ⟨rfl, hes⟩

theorem infix_of_append (h : es₁ ++ es₂ <:+: T) : es₁ <:+: T ∧ es₂ <:+: T :=
  ⟨(List.prefix_append es₁ es₂).isInfix.trans h, (List.suffix_append es₁ es₂).isInfix.trans h⟩

/-- A block is found by its label and stops at its first return. -/
theorem block_unique {name : String} (hT : (labelsOf T).Nodup)
    (h₁ : .label name :: (es₁ ++ [.op .ret none]) <:+: T)
    (h₂ : .label name :: (es₂ ++ [.op .ret none]) <:+: T)
    (hret₁ : Entry.op .ret none ∉ es₁) (hret₂ : Entry.op .ret none ∉ es₂) : es₁ = es₂ := by
  obtain ⟨u₁, v₁, hT₁⟩ := h₁
  obtain ⟨u₂, v₂, hT₂⟩ := h₂
  have hfront {u v es : List Entry} (h : u ++ .label name :: es ++ v = T) :
      Entry.label name ∉ u := by
    intro hmem
    have hname : name ∈ labelsOf u := List.mem_filterMap.mpr ⟨_, hmem, rfl⟩
    rw [← h, List.append_assoc, labelsOf_append, List.cons_append, labelsOf_label] at hT
    exact (List.nodup_append.mp hT).2.2 _ hname _ List.mem_cons_self rfl
  have heq : u₁ ++ .label name :: (es₁ ++ .op .ret none :: v₁)
      = u₂ ++ .label name :: (es₂ ++ .op .ret none :: v₂) := by
    simpa using hT₁.trans hT₂.symm
  obtain ⟨-, hrest⟩ := append_cons_inj_of_first (hfront hT₁) (hfront hT₂) heq
  exact (append_cons_inj_of_first hret₁ hret₂ hrest).1

/-- One label, so one block: its formals and the code of its body. -/
theorem Lowers.block_inj {d d' : LabelCounters} {label : String} {formals₁ formals₂ : List String}
    (hT : (labelsOf T).Nodup) (h₁ : Lowers (.body ss) c k₁ c') (h₂ : Lowers (.body ts) d k₂ d')
    (hk₁ : (Code.ofLambda label formals₁ k₁).lifted <:+: T)
    (hk₂ : (Code.ofLambda label formals₂ k₂).lifted <:+: T) :
    formals₁ = formals₂ ∧ k₁.own = k₂.own := by
  have hret {formals : List String} {es : List Entry} (hes : Entry.op .ret none ∉ es) :
      Entry.op .ret none ∉ popFormals formals ++ es := by
    rw [List.mem_append, not_or]
    refine ⟨fun hmem => ?_, hes⟩
    obtain ⟨_, -, hpop⟩ := mem_popFormals.mp hmem
    cases hpop
  simp only [Code.ofLambda, List.append_assoc, List.singleton_append] at hk₁ hk₂
  obtain ⟨-, hblock₁⟩ := infix_of_append hk₁
  obtain ⟨-, hblock₂⟩ := infix_of_append hk₂
  rw [← List.append_assoc] at hblock₁ hblock₂
  have hinside := block_unique hT hblock₁ hblock₂ (hret h₁.ret_not_mem_own)
    (hret h₂.ret_not_mem_own)
  exact popFormals_append_inj (h₁.startsWithValue (by simp)) (h₂.startsWithValue (by simp)) hinside

/-! ### What becomes of a value -/

/-- The entries of a statement say what becomes of its value, up to what a normal form forgets. -/
theorem Action.normalize_eq_of_entries {a₁ a₂ : Action} (h : a₁.entries = a₂.entries) :
    a₁.normalize = a₂.normalize := by
  cases a₁ <;> cases a₂ <;> cases h <;> rfl

theorem Action.entries_eq_nil_or_singleton (a : Action) :
    a.entries = [] ∨ ∃ x, a.entries = [x] := by
  cases a with
  | push => exact .inl rfl
  | discard | assign | declare => exact .inr ⟨_, rfl⟩

/-- An expression never ends as a statement does, so the two are told apart behind it. -/
theorem Lowers.append_entries_inj {e₁ e₂ : Expr} {a₁ a₂ : Action} {d d' : LabelCounters}
    (h₁ : Lowers (.expression e₁) c k₁ c') (h₂ : Lowers (.expression e₂) d k₂ d')
    (h : es₁ ++ k₁.own ++ a₁.entries = es₂ ++ k₂.own ++ a₂.entries) :
    es₁ ++ k₁.own = es₂ ++ k₂.own ∧ a₁.normalize = a₂.normalize := by
  obtain ⟨u₁, x₁, hown₁, hx₁⟩ := h₁.own_eq_concat
  obtain ⟨u₂, x₂, hown₂, hx₂⟩ := h₂.own_eq_concat
  rcases a₁.entries_eq_nil_or_singleton with ha₁ | ⟨y₁, ha₁⟩ <;>
    rcases a₂.entries_eq_nil_or_singleton with ha₂ | ⟨y₂, ha₂⟩
  · have hactions := Action.normalize_eq_of_entries (ha₁.trans ha₂.symm)
    rw [ha₁, ha₂, List.append_nil, List.append_nil] at h
    exact ⟨h, hactions⟩
  · rw [ha₁, ha₂, List.append_nil, hown₁, ← List.append_assoc] at h
    obtain ⟨-, rfl⟩ := List.append_singleton_inj.mp h
    exact absurd (ha₂ ▸ List.mem_singleton_self x₁) (hx₁ a₂)
  · rw [ha₁, ha₂, List.append_nil, hown₂, ← List.append_assoc] at h
    obtain ⟨-, rfl⟩ := List.append_singleton_inj.mp h
    exact absurd (ha₁ ▸ List.mem_singleton_self y₁) (hx₂ a₁)
  · rw [ha₁, ha₂] at h
    obtain ⟨hrest, rfl⟩ := List.append_singleton_inj.mp h
    exact ⟨hrest, Action.normalize_eq_of_entries (ha₁.trans ha₂.symm)⟩

/-! ### Reading back -/

/-- The code, behind whatever entries, determines the normal form of the part and those entries.
The other code has its lifted blocks among the same entries. -/
def Determines (T : List Entry) (k : Code) : Part → Prop
  | .expression e => ∀ ⦃e' c c' k' es es'⦄, Lowers (.expression e') c k' c' → k'.lifted <:+: T →
      es ++ k.own = es' ++ k'.own → es = es' ∧ e.normalize = e'.normalize
  | .statements ss => ∀ ⦃ss' c c' k' es es'⦄, Lowers (.statements ss') c k' c' → k'.lifted <:+: T →
      OpenEnded es → OpenEnded es' → es ++ k.own = es' ++ k'.own →
        es = es' ∧ Stmt.normalizeAll ss = Stmt.normalizeAll ss'
  | .body ss => ∀ ⦃ss' c c' k' es es'⦄, Lowers (.body ss') c k' c' → k'.lifted <:+: T →
      OpenEnded es → OpenEnded es' → es ++ k.own = es' ++ k'.own →
        es = es' ∧ Stmt.normalizeAll ss = Stmt.normalizeAll ss'

namespace Determines

theorem instruction {i : Instruction} (h : e.instruction? = some i) :
    Determines T ⟨[], [.instruction i]⟩ (.expression e) := by
  intro e' c c' k' es es' h' _ heq
  cases h' with
  | instruction h' =>
    obtain ⟨rfl, hi⟩ := List.append_singleton_inj.mp heq
    obtain rfl := Entry.instruction.inj hi
    exact ⟨rfl, Expr.normalize_unique h h'⟩
  | call => exact absurd (last_eq heq List.getLast?_concat) (Expr.ne_op_of_instruction? h rfl)
  | ifElse => cases last_eq heq List.getLast?_concat
  | lambda => exact absurd (last_eq heq rfl) (Expr.ne_op_of_instruction? h rfl)

theorem call {n : UInt64} (hcallee : Determines T k (.expression e)) :
    Determines T (k.push .call (some (.count n))) (.expression (.call e n)) := by
  intro e' c c' k' es es' h' hT' heq
  rw [Code.own_push, ← List.append_assoc] at heq
  cases h' with
  | instruction h' => exact absurd (last_eq heq rfl).symm (Expr.ne_op_of_instruction? h' rfl)
  | call _ callee =>
    rw [Code.own_push, ← List.append_assoc] at heq
    obtain ⟨hrest, hlast⟩ := List.append_singleton_inj.mp heq
    cases hlast
    obtain ⟨rfl, he⟩ := hcallee callee hT' hrest
    refine ⟨rfl, ?_⟩
    rw [Expr.normalize, Expr.normalize, he]
  | ifElse => cases last_eq heq List.getLast?_concat
  | lambda => cases last_eq heq rfl

theorem ifElse {tag : UInt32} (hcondition : Determines T k₁ (.expression e))
    (hthen : Determines T k₂ (.body ss)) (helse : Determines T k₃ (.body ts)) :
    Determines T (.ofArms (.ofTag tag) k₁ k₂ k₃) (.expression (.ifElse e ss ts)) := by
  intro e' c c' k' es es' h' hT' heq
  simp only [Code.ofArms, ← List.append_assoc] at heq
  cases h' with
  | instruction => cases last_eq heq rfl
  | call => cases last_eq heq List.getLast?_concat
  | ifElse condition thenArm elseArm =>
    simp only [Code.ofArms] at hT' heq
    simp only [← List.append_assoc] at heq
    obtain ⟨hT', hT₃⟩ := infix_of_append hT'
    obtain ⟨hT₁, hT₂⟩ := infix_of_append hT'
    -- from the end: the second arm, the first one, and the condition
    obtain ⟨heq, -⟩ := List.append_inj' heq rfl
    obtain ⟨heq, hts⟩ := helse elseArm hT₃ (openEnded_append rfl (by decide))
      (openEnded_append rfl (by decide)) heq
    obtain ⟨heq, -⟩ := List.append_inj' heq rfl
    obtain ⟨heq, hss⟩ := hthen thenArm hT₂ (openEnded_append rfl (by decide))
      (openEnded_append rfl (by decide)) heq
    obtain ⟨heq, -⟩ := List.append_inj' heq rfl
    obtain ⟨rfl, he⟩ := hcondition condition hT₁ heq
    refine ⟨rfl, ?_⟩
    rw [Expr.normalize, Expr.normalize, he, hss, hts]
  | lambda => cases last_eq heq rfl

theorem lambda {name : Option String} {n : UInt32} {formals : List String}
    (hT : (labelsOf T).Nodup) (h : Lowers (.body ss) c k c')
    (hk : (Code.ofLambda (Label.numbered (Label.lambdaBase name) n) formals k).lifted <:+: T)
    (hbody : Determines T k (.body ss)) :
    Determines T (.ofLambda (Label.numbered (Label.lambdaBase name) n) formals k)
      (.expression (.lambda name formals ss)) := by
  intro e₂ d d' k₂ es es' h₂ hk₂ heq
  cases h₂ with
  | instruction h₂ => exact absurd (last_eq heq rfl).symm (Expr.ne_op_of_instruction? h₂ rfl)
  | call => cases last_eq heq List.getLast?_concat
  | ifElse => cases last_eq heq List.getLast?_concat
  | @lambda name' formals' ss' _ _ k' h' =>
    obtain ⟨rfl, hclose⟩ := List.append_singleton_inj.mp heq
    have hlabel : Label.numbered (Label.lambdaBase name) n
        = Label.numbered (Label.lambdaBase name') (d.count (Label.lambdaBase name')) := by
      simpa [Entry.op] using hclose
    obtain ⟨hbase, -⟩ := Label.numbered_inj.mp hlabel
    rw [← hlabel] at hk₂
    obtain ⟨rfl, hown⟩ := h.block_inj hT h' hk hk₂
    have hk' : k'.lifted <:+: T := by
      simp only [Code.ofLambda, List.append_assoc] at hk₂
      exact (infix_of_append hk₂).1
    obtain ⟨-, hss⟩ := hbody h' hk' openEnded_nil openEnded_nil hown
    refine ⟨rfl, ?_⟩
    rw [Expr.normalize, Expr.normalize, Label.lambdaBase_inj.mp hbase, hss]

theorem nil : Determines T .empty (.statements []) := by
  intro ss' c c' k' es es' h' _ hes _ heq
  rw [Code.own_empty, List.append_nil] at heq
  obtain ⟨rfl, hown⟩ := h'.eq_nil_of_openEnded (heq ▸ hes)
  rw [hown, List.append_nil] at heq
  exact ⟨heq, rfl⟩

theorem snoc {a : Action} {l : Option Location}
    (h : Lowers (.statements (ss ++ [.mk a e l])) c (k₁ ++ k₂.ofAction a) c')
    (hlast : Lowers (.expression e) c₁ k₂ c₂) (hinit : Determines T k₁ (.statements ss))
    (hexpr : Determines T k₂ (.expression e)) :
    Determines T (k₁ ++ k₂.ofAction a) (.statements (ss ++ [.mk a e l])) := by
  intro ss' d d' k' es es' h' hk' hes hes' heq
  cases h' with
  | nil =>
    rw [Code.own_empty, List.append_nil] at heq
    obtain ⟨hnil, -⟩ := h.eq_nil_of_openEnded (heq ▸ hes')
    simp at hnil
  | snoc init' last' =>
    rw [Code.lifted_append, Code.lifted_ofAction] at hk'
    obtain ⟨hinit', hlast'⟩ := infix_of_append hk'
    simp only [Code.own_append, Code.own_ofAction, ← List.append_assoc] at heq
    obtain ⟨heq, ha⟩ := hlast.append_entries_inj last' heq
    obtain ⟨heq, he⟩ := hexpr last' hlast' heq
    obtain ⟨rfl, hss⟩ := hinit init' hinit' hes hes' heq
    refine ⟨rfl, ?_⟩
    rw [Stmt.normalizeAll_concat, Stmt.normalizeAll_concat, hss, ha, he]

theorem body {l : Option Location} (hinit : Determines T k₁ (.statements ss))
    (hexpr : Determines T k₂ (.expression e)) :
    Determines T (k₁ ++ k₂) (.body (ss ++ [.mk .discard e l])) := by
  intro ss' d d' k' es es' h' hk' hes hes' heq
  cases h' with
  | body init' last' =>
    obtain ⟨hinit', hlast'⟩ := infix_of_append hk'
    simp only [Code.own_append, ← List.append_assoc] at heq
    obtain ⟨heq, he⟩ := hexpr last' hlast' heq
    obtain ⟨rfl, hss⟩ := hinit init' hinit' hes hes' heq
    refine ⟨rfl, ?_⟩
    rw [Stmt.normalizeAll_concat, Stmt.normalizeAll_concat, hss, he]

end Determines

/-- **The code of every part determines its normal form**, when its lifted blocks are found by
their labels. -/
theorem Lowers.determines (hT : (labelsOf T).Nodup) (h : Lowers P c k c') (hk : k.lifted <:+: T) :
    Determines T k P := by
  induction h with
  | instruction h => exact .instruction h
  | call _ _ ih => exact .call (ih hk)
  | ifElse _ _ _ ih₁ ih₂ ih₃ =>
    obtain ⟨hk', hk₃⟩ := infix_of_append hk
    obtain ⟨hk₁, hk₂⟩ := infix_of_append hk'
    exact .ifElse (ih₁ hk₁) (ih₂ hk₂) (ih₃ hk₃)
  | lambda hbody ih =>
    refine .lambda hT hbody hk (ih ?_)
    simp only [Code.ofLambda, List.append_assoc] at hk
    exact (infix_of_append hk).1
  | nil => exact .nil
  | snoc hinit hlast ih₁ ih₂ =>
    rw [Code.lifted_append, Code.lifted_ofAction] at hk
    obtain ⟨hk₁, hk₂⟩ := infix_of_append hk
    exact .snoc (.snoc hinit hlast) hlast (ih₁ hk₁) (ih₂ hk₂)
  | body _ _ ih₁ ih₂ =>
    obtain ⟨hk₁, hk₂⟩ := infix_of_append hk
    exact .body (ih₁ hk₁) (ih₂ hk₂)

/-! ### Whole programs -/

section Program

variable {p q : Program} {l m : Listing}

/-- The label of the program itself divides its listing into the lifted blocks and its own code. -/
theorem Lowers.toListing_inj {d' : LabelCounters} {ss ts : List Stmt}
    (h₁ : Lowers (.statements ss) .empty k₁ c') (h₂ : Lowers (.statements ts) .empty k₂ d')
    (hss : (Stmt.drawsAll ss).length < 2 ^ 32) (hts : (Stmt.drawsAll ts).length < 2 ^ 32)
    (h : k₁.toListing = k₂.toListing) : k₁ = k₂ := by
  have hmain {k : Code} {c : LabelCounters} {ss : List Stmt}
      (h : Lowers (.statements ss) .empty k c) (hsize : (Stmt.drawsAll ss).length < 2 ^ 32) :
      Entry.label Label.main ∉ k.lifted := by
    intro hmem
    have hlabel : Label.main ∈ labelsOf (k.lifted ++ k.own) :=
      List.mem_filterMap.mpr ⟨_, List.mem_append_left _ hmem, rfl⟩
    exact LabelCounters.main_not_mem_issued (LabelCounters.noOverflow_empty hsize)
      (h.labels_perm.mem_iff.mp hlabel)
  simp only [Code.toListing, Listing.mk.injEq, List.append_assoc, List.singleton_append] at h
  obtain ⟨hlifted, hown⟩ := append_cons_inj_of_first (hmain h₁ hss) (hmain h₂ hts) h
  obtain ⟨hown, -⟩ := List.append_inj' hown rfl
  obtain ⟨lifted₁, own₁⟩ := k₁
  obtain ⟨lifted₂, own₂⟩ := k₂
  exact congrArg₂ Code.mk hlifted hown

/-- **A listing determines the normal form of its program, and a normal form the listing.** -/
theorem lower_eq_iff_normalize_eq (hp : p.draws.length < 2 ^ 32) (hq : q.draws.length < 2 ^ 32)
    (hl : p.lower = .ok l) (hm : q.lower = .ok m) :
    p.lower = q.lower ↔ p.normalize = q.normalize := by
  constructor
  · intro h
    obtain ⟨k₁, c₁, h₁, rfl⟩ := Program.lower_eq_ok_iff.mp hl
    obtain ⟨k₂, c₂, h₂, rfl⟩ := Program.lower_eq_ok_iff.mp hm
    rw [hl, hm, Except.ok.injEq] at h
    obtain rfl := h₁.toListing_inj h₂ hp hq h
    have hnodup : (labelsOf k₁.lifted).Nodup := by
      have hissued := LabelCounters.issued_nodup (LabelCounters.noOverflow_empty hp)
      have hall := h₁.labels_perm.nodup_iff.mpr hissued
      rw [labelsOf_append] at hall
      exact (List.nodup_append.mp hall).1
    have hdetermines := h₁.determines hnodup (List.infix_refl _)
    obtain ⟨-, hss⟩ := hdetermines h₂ (List.infix_refl _) openEnded_nil openEnded_nil rfl
    exact congrArg Program.mk hss
  · intro h
    rw [hl, Program.lower_congr h hl]

end Program

/-- A function that is bound to a new name and returns its argument. -/
def boundOnce : Program where
  statements := [.mk (.declare "f")
    (.lambda (some "f$") ["a"] [.mk .discard (.symbol "a") (some ⟨"f.scm", 1, 9⟩)])
    (some ⟨"f.scm", 1, 1⟩)]

/-- The same function under another name with the same escaped form, bound to a name that exists
and with an argument that is known to be a variable. -/
def boundAgain : Program where
  statements := [.mk (.assign "f")
    (.lambda (some "f__") ["a"] [.mk .discard (.variable "a") none]) none]

/-- The listing of both. -/
def boundListing : Listing where
  entries := [.label "f$$$0", .op .pop (some (.symbol "a")), .op .push (some (.symbol "a")),
    .op .ret none, .label "__main__", .op .close (some (.label "f$$$0")),
    .op .pop (some (.symbol "f")), .op .halt none]

theorem boundOnce_normalize :
    boundOnce.draws.length < 2 ^ 32 ∧ boundAgain.draws.length < 2 ^ 32 ∧
      boundOnce.lower = .ok boundListing ∧ boundAgain.lower = .ok boundListing ∧
      boundOnce.normalize = boundAgain.normalize :=
  have honce : boundOnce.draws.length < 2 ^ 32 := by decide
  have hagain : boundAgain.draws.length < 2 ^ 32 := by decide
  have hl : boundOnce.lower = .ok boundListing := rfl
  have hm : boundAgain.lower = .ok boundListing := rfl
  ⟨honce, hagain, hl, hm, (lower_eq_iff_normalize_eq honce hagain hl hm).mp (hl.trans hm.symm)⟩

end StackLowering
