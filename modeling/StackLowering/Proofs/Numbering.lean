import StackLowering.Proofs.Blocks

/-!
# Which number each label gets

Lowering walks a tree once, with counters that change as it goes. The same code comes out in two
passes without counters. The first pass numbers the draws of the tree where they stand: each gets
what the counter of its key shows at the start and one more for each earlier draw on that key. The
second pass writes the code of the tree with these numbers.

A draw is found by its place among the draws, which stand from the front to the back with a
conditional or a function in front of what is inside. The blocks of functions come out in another
order, where a function stands behind those in its body.

## Main definitions

* `LabelCounters.numberAt` — the number of the draw at a place
* `Expr.placed`, `Stmt.placedAll` — the code of a tree with given numbers
* `PlacedFunction`, `Expr.placedFunctions`, `Stmt.placedFunctionsAll` — the functions of a tree, each
  behind those in its body, with their places among the draws
* `Assigned` — code has the numbers and the order that the tree tells

## Main results

* `LabelCounters.toNat_numberAt` — the number of a draw, as long as no counter starts again
* `Lowers.own_eq_placed`, `Lowers.lifted_eq_blocks` — the code of a part, in two passes
* `lower_assigns_numbers` — which numbers a lowering gives, and which counters it leaves
-/

namespace StackLowering

/-! ## Numbers of draws -/

namespace LabelCounters

variable {c : LabelCounters} {d : Draw} {ds ds₁ ds₂ : List Draw} {ν : Nat → UInt32} {i j : Nat}

/-- The number of the draw at a place: what the counter of its key shows, and one for each earlier
draw on that key. -/
def numberAt (c : LabelCounters) (ds : List Draw) (i : Nat) : UInt32 :=
  match ds[i]? with
  | some d => c.count d.base + .ofNat (drawsOn d.base (ds.take i))
  | none => 0

/-- Without overflow the number is that of counting. -/
theorem toNat_numberAt (h : c.NoOverflow ds) (hd : ds[i]? = some d) :
    (c.numberAt ds i).toNat = (c.count d.base).toNat + drawsOn d.base (ds.take i) := by
  have hearlier : drawsOn d.base (ds.take i) ≤ drawsOn d.base ds :=
    (List.take_sublist i ds).countP_le
  have hfits := h d.base
  rw [numberAt, hd]
  simp only [UInt32.toNat_add, UInt32.toNat_ofNat']
  omega

theorem numberAt_cons_zero (c : LabelCounters) (d : Draw) (ds : List Draw) :
    c.numberAt (d :: ds) 0 = c.count d.base := by
  simp [numberAt, drawsOn]

/-- Behind the first draw the others are numbered from the counters that it leaves. -/
theorem numberAt_cons_succ (c : LabelCounters) (d : Draw) (ds : List Draw) (i : Nat) :
    c.numberAt (d :: ds) (i + 1) = (c.bump d.base).numberAt ds i := by
  rw [numberAt, numberAt, List.getElem?_cons_succ, List.take_succ_cons]
  cases ds[i]? with
  | none => rfl
  | some d' =>
    simp only [drawsOn_cons, count_bump]
    split_ifs with hkey
    · rw [c.count_congr hkey, UInt32.ofNat_add, UInt32.add_comm (.ofNat _), ← UInt32.add_assoc]
      rfl
    · rw [Nat.add_zero]

/-- From a place on, the numbers are those of these draws. -/
def Numbers (ν : Nat → UInt32) (i : Nat) (c : LabelCounters) (ds : List Draw) : Prop :=
  ∀ j < ds.length, ν (i + j) = c.numberAt ds j

theorem numbers_numberAt (c : LabelCounters) (ds : List Draw) :
    Numbers (c.numberAt ds) 0 c ds := by
  intro j _
  rw [Nat.zero_add]

theorem numbers_cons : Numbers ν i c (d :: ds) ↔
    ν i = c.count d.base ∧ Numbers ν (i + 1) (c.bump d.base) ds := by
  constructor
  · intro h
    refine ⟨?_, fun j hj => ?_⟩
    · rw [← numberAt_cons_zero c d ds]
      exact h 0 (Nat.zero_lt_succ _)
    · rw [← numberAt_cons_succ, Nat.add_right_comm]
      exact h (j + 1) (Nat.succ_lt_succ hj)
  · rintro ⟨hfirst, hrest⟩ j hj
    cases j with
    | zero => rw [numberAt_cons_zero]; exact hfirst
    | succ j =>
      rw [numberAt_cons_succ, Nat.add_comm j, ← Nat.add_assoc]
      exact hrest j (Nat.lt_of_succ_lt_succ hj)

/-- Behind some draws the others are numbered from the counters that they leave. -/
theorem numbers_append : Numbers ν i c (ds₁ ++ ds₂) ↔
    Numbers ν i c ds₁ ∧ Numbers ν (i + ds₁.length) (c.drawAll ds₁) ds₂ := by
  induction ds₁ generalizing c i with
  | nil => simp [Numbers]
  | cons d ds₁ ih =>
    rw [List.cons_append, numbers_cons, ih, numbers_cons, drawAll_cons, List.length_cons, and_assoc,
      Nat.add_right_comm, Nat.add_assoc i]

end LabelCounters

/-! ## The code of a tree with given numbers -/

mutual

/-- The entries in the place of an expression whose draws stand from this place on. -/
def Expr.placed (ν : Nat → UInt32) : Expr → Nat → List Entry
  | .builtin _, _ => []
  | .call callee n, i =>
    match (Expr.call callee n).instruction? with
    | some instruction => [.instruction instruction]
    | none => callee.placed ν i ++ [.op .call (some (.count n))]
  | .ifElse condition thenArm elseArm, i =>
    let thenPlace := i + 1 + condition.draws.length
    let elsePlace := thenPlace + (Stmt.drawsAll thenArm).length
    (Code.ofArms (.ofTag (ν i)) ⟨[], condition.placed ν (i + 1)⟩
      ⟨[], (Stmt.placedAll ν thenArm thenPlace).dropLast⟩
      ⟨[], (Stmt.placedAll ν elseArm elsePlace).dropLast⟩).own
  | .lambda name _ _, i =>
    [.op .close (some (.label (Label.numbered (Label.lambdaBase name) (ν i))))]
  | .integer value, _ => [.op .pushInteger (some (.integer value))]
  | .list, _ => [.op .list (some (.count 2))]
  | .string value, _ => [.op .pushString (some (.string value))]
  | .record fieldCount, _ => [.op .record (some (.count fieldCount))]
  | .symbol name, _ => [.op .push (some (.symbol name))]
  | .symbolLiteral name, _ => [.op .pushSymbol (some (.symbol name))]
  | .variable name, _ => [.op .push (some (.symbol name))]

/-- The entries of statements whose draws stand from this place on. -/
def Stmt.placedAll (ν : Nat → UInt32) : List Stmt → Nat → List Entry
  | [], _ => []
  | .mk a e _ :: rest, i =>
    e.placed ν i ++ a.entries ++ Stmt.placedAll ν rest (i + e.draws.length)

end

/-- A function literal, and the place of its draw. -/
structure PlacedFunction where
  place : Nat
  name : Option String
  formals : List String
  body : List Stmt

/-- The block of a function: its label, and its body without the discarding instruction at the
end. -/
def PlacedFunction.block (ν : Nat → UInt32) (f : PlacedFunction) : List Entry :=
  (LiftedFunction.mk (Label.numbered (Label.lambdaBase f.name) (ν f.place)) f.formals f.body).block
    (Stmt.placedAll ν f.body (f.place + 1)).dropLast

mutual

/-- The functions of an expression whose draws stand from this place on; a function stands behind
those in its body. -/
def Expr.placedFunctions : Expr → Nat → List PlacedFunction
  | .call callee _, i => callee.placedFunctions i
  | .ifElse condition thenArm elseArm, i =>
    let thenPlace := i + 1 + condition.draws.length
    let elsePlace := thenPlace + (Stmt.drawsAll thenArm).length
    condition.placedFunctions (i + 1) ++ Stmt.placedFunctionsAll thenArm thenPlace ++
      Stmt.placedFunctionsAll elseArm elsePlace
  | .lambda name formals body, i =>
    Stmt.placedFunctionsAll body (i + 1) ++ [⟨i, name, formals, body⟩]
  | .builtin _, _ | .integer _, _ | .list, _ | .string _, _ | .record _, _ | .symbol _, _
  | .symbolLiteral _, _ | .variable _, _ => []

/-- The functions of statements whose draws stand from this place on. -/
def Stmt.placedFunctionsAll : List Stmt → Nat → List PlacedFunction
  | [], _ => []
  | .mk _ e _ :: rest, i =>
    e.placedFunctions i ++ Stmt.placedFunctionsAll rest (i + e.draws.length)

end

namespace Part

/-- The entries in the place of a part whose draws stand from this place on. -/
def placed (ν : Nat → UInt32) : Part → Nat → List Entry
  | expression e, i => e.placed ν i
  | statements ss, i => Stmt.placedAll ν ss i
  | body ss, i => (Stmt.placedAll ν ss i).dropLast

/-- The functions of a part whose draws stand from this place on. -/
def placedFunctions : Part → Nat → List PlacedFunction
  | expression e, i => e.placedFunctions i
  | statements ss, i | body ss, i => Stmt.placedFunctionsAll ss i

end Part

section Placed

variable {e : Expr} {ss ts : List Stmt} {ν : Nat → UInt32} {i : Nat}

theorem Expr.placed_of_instruction? {j : Instruction} (h : e.instruction? = some j) :
    e.placed ν i = [.instruction j] := by
  cases Expr.becomes_of_instruction? h with
  | callBuiltin hm =>
    rw [Expr.callBuiltin] at h ⊢
    rw [Expr.placed, h]
  | _ => rfl

theorem Expr.placedFunctions_of_instruction? {j : Instruction} (h : e.instruction? = some j) :
    e.placedFunctions i = [] := by
  cases Expr.becomes_of_instruction? h <;> rfl

theorem Stmt.placedAll_append : Stmt.placedAll ν (ss ++ ts) i
    = Stmt.placedAll ν ss i ++ Stmt.placedAll ν ts (i + (Stmt.drawsAll ss).length) := by
  induction ss generalizing i with
  | nil => rfl
  | cons s ss ih =>
    obtain ⟨a, e, l⟩ := s
    rw [List.cons_append, Stmt.placedAll, ih, Stmt.placedAll, Stmt.drawsAll, Stmt.draws,
      List.length_append, Nat.add_assoc]
    simp only [List.append_assoc]

theorem Stmt.placedFunctionsAll_append : Stmt.placedFunctionsAll (ss ++ ts) i
    = Stmt.placedFunctionsAll ss i ++
      Stmt.placedFunctionsAll ts (i + (Stmt.drawsAll ss).length) := by
  induction ss generalizing i with
  | nil => rfl
  | cons s ss ih =>
    obtain ⟨a, e, l⟩ := s
    rw [List.cons_append, Stmt.placedFunctionsAll, ih, Stmt.placedFunctionsAll, Stmt.drawsAll,
      Stmt.draws, List.length_append, Nat.add_assoc, List.append_assoc]

@[simp] theorem Stmt.placedAll_singleton (a : Action) (e : Expr) (l : Option Location) :
    Stmt.placedAll ν [.mk a e l] i = e.placed ν i ++ a.entries := by
  simp [Stmt.placedAll]

@[simp] theorem Stmt.placedFunctionsAll_singleton (a : Action) (e : Expr) (l : Option Location) :
    Stmt.placedFunctionsAll [.mk a e l] i = e.placedFunctions i := by
  simp [Stmt.placedFunctionsAll]

end Placed

/-! ## The code of a part, in two passes -/

section Lowers

open LabelCounters (Numbers numbers_cons numbers_append)

variable {c c' : LabelCounters} {k : Code} {P : Part} {ν : Nat → UInt32} {i : Nat}
  {e : Expr} {ss ts : List Stmt} {a : Action} {l : Option Location}

/-- The draws of a conditional are numbered one part after the other, behind its own. -/
theorem numbers_ifElse : Numbers ν i c (Part.expression (.ifElse e ss ts)).draws ↔
    ν i = c.count BranchLabels.thenBase ∧
      Numbers ν (i + 1) (c.bump BranchLabels.thenBase) e.draws ∧
      Numbers ν (i + 1 + e.draws.length) ((c.bump BranchLabels.thenBase).drawAll e.draws)
        (Stmt.drawsAll ss) ∧
      Numbers ν (i + 1 + e.draws.length + (Stmt.drawsAll ss).length)
        (((c.bump BranchLabels.thenBase).drawAll e.draws).drawAll (Stmt.drawsAll ss))
        (Stmt.drawsAll ts) := by
  rw [Part.draws, Expr.draws, numbers_cons, List.append_assoc, numbers_append, numbers_append]
  rfl

/-- The draws of the last statement are numbered behind those of the others. -/
theorem numbers_snoc : Numbers ν i c (Stmt.drawsAll (ss ++ [.mk a e l])) ↔
    Numbers ν i c (Stmt.drawsAll ss) ∧
      Numbers ν (i + (Stmt.drawsAll ss).length) (c.drawAll (Stmt.drawsAll ss)) e.draws := by
  rw [Stmt.drawsAll_append, Stmt.drawsAll_singleton, numbers_append]

/-- The entries in the place of a part are those with the numbers of its draws. -/
theorem Lowers.own_eq_placed (h : Lowers P c k c') (hν : Numbers ν i c P.draws) :
    k.own = P.placed ν i := by
  induction h generalizing i with
  | instruction h => exact (Expr.placed_of_instruction? h).symm
  | call hf _ ih =>
    rw [Part.placed, Expr.placed, Expr.instruction?_call hf, Code.own_push, ih hν]
    rfl
  | ifElse h₁ h₂ _ ih₁ ih₂ ih₃ =>
    obtain ⟨htag, hcondition, hthen, helse⟩ := numbers_ifElse.mp hν
    rw [h₁.counters] at ih₂
    rw [h₂.counters, h₁.counters] at ih₃
    simp only [Part.placed, Expr.placed, Code.ofArms, htag]
    rw [ih₁ hcondition, ih₂ hthen, ih₃ helse]
    rfl
  | lambda =>
    rw [Part.draws, Expr.draws, numbers_cons] at hν
    rw [Part.placed, Expr.placed, hν.1]
    rfl
  | nil => rfl
  | snoc h₁ _ ih₁ ih₂ =>
    obtain ⟨hinit, hlast⟩ := numbers_snoc.mp hν
    rw [h₁.counters] at ih₂
    rw [Part.placed, Stmt.placedAll_append, Stmt.placedAll_singleton, Code.own_append,
      Code.own_ofAction, ih₁ hinit, ih₂ hlast]
    rfl
  | body h₁ _ ih₁ ih₂ =>
    obtain ⟨hinit, hlast⟩ := numbers_snoc.mp hν
    rw [h₁.counters] at ih₂
    rw [Part.placed, Stmt.placedAll_append, Stmt.placedAll_singleton, Code.own_append, ih₁ hinit,
      ih₂ hlast, Action.entries_discard, ← List.append_assoc, List.dropLast_concat]
    rfl

/-- What a part lifts out are the blocks of its functions, each behind those in its body. -/
theorem Lowers.lifted_eq_blocks (h : Lowers P c k c') (hν : Numbers ν i c P.draws) :
    k.lifted = (P.placedFunctions i).flatMap (·.block ν) := by
  induction h generalizing i with
  | instruction h => rw [Part.placedFunctions, Expr.placedFunctions_of_instruction? h]; rfl
  | call _ _ ih => exact ih hν
  | ifElse h₁ h₂ _ ih₁ ih₂ ih₃ =>
    obtain ⟨-, hcondition, hthen, helse⟩ := numbers_ifElse.mp hν
    rw [h₁.counters] at ih₂
    rw [h₂.counters, h₁.counters] at ih₃
    simp only [Code.ofArms, ih₁ hcondition, ih₂ hthen, ih₃ helse, Part.placedFunctions,
      Expr.placedFunctions, List.flatMap_append]
  | lambda hbody ih =>
    rw [Part.draws, Expr.draws, numbers_cons] at hν
    obtain ⟨hlabel, hν⟩ := hν
    rw [Code.ofLambda, ih hν, hbody.own_eq_placed hν, Part.placedFunctions, Expr.placedFunctions,
      List.flatMap_append, List.flatMap_singleton, PlacedFunction.block, hlabel]
    simp only [LiftedFunction.block, List.append_assoc]
    rfl
  | nil => rfl
  | snoc h₁ _ ih₁ ih₂ | body h₁ _ ih₁ ih₂ =>
    obtain ⟨hinit, hlast⟩ := numbers_snoc.mp hν
    rw [h₁.counters] at ih₂
    simp only [Part.placedFunctions, Stmt.placedFunctionsAll_append,
      Stmt.placedFunctionsAll_singleton, List.flatMap_append, Code.lifted_append,
      Code.lifted_ofAction, ih₁ hinit, ih₂ hlast]

end Lowers

/-! ## Places of functions -/

namespace PlacedFunction

variable {f : PlacedFunction} {i : Nat} {d : Draw} {ds ds₁ ds₂ : List Draw}

/-- The function is at the place of its own draw, where the draws stand from this place on. -/
def DrawnIn (f : PlacedFunction) (i : Nat) (ds : List Draw) : Prop :=
  ∃ j, f.place = i + j ∧ ds[j]? = some (.function (Label.lambdaBase f.name))

theorem DrawnIn.cons (h : f.DrawnIn (i + 1) ds) : f.DrawnIn i (d :: ds) := by
  obtain ⟨j, hplace, hdraw⟩ := h
  exact ⟨j + 1, by omega, hdraw⟩

theorem DrawnIn.append_left (h : f.DrawnIn i ds₁) : f.DrawnIn i (ds₁ ++ ds₂) := by
  obtain ⟨j, hplace, hdraw⟩ := h
  refine ⟨j, hplace, ?_⟩
  rw [List.getElem?_append_left (List.getElem?_eq_some_iff.mp hdraw).1]
  exact hdraw

theorem DrawnIn.append_right (h : f.DrawnIn (i + ds₁.length) ds₂) : f.DrawnIn i (ds₁ ++ ds₂) := by
  obtain ⟨j, hplace, hdraw⟩ := h
  refine ⟨ds₁.length + j, by omega, ?_⟩
  rw [List.getElem?_append_right (Nat.le_add_right _ _), Nat.add_sub_cancel_left]
  exact hdraw

end PlacedFunction

open PlacedFunction in
mutual

/-- The functions of an expression are at the places of their draws. -/
theorem Expr.drawnIn_of_mem : ∀ (e : Expr) {i : Nat} {f : PlacedFunction},
    f ∈ e.placedFunctions i → f.DrawnIn i e.draws
  | .call callee _, _, _, h => callee.drawnIn_of_mem h
  | .ifElse condition thenArm elseArm, i, f, h => by
    rw [Expr.placedFunctions, List.mem_append, List.mem_append] at h
    rw [Expr.draws, List.append_assoc]
    rcases h with (h | h) | h
    · exact (condition.drawnIn_of_mem h).append_left.cons
    · exact ((Stmt.drawnIn_of_mem thenArm h).append_left.append_right).cons
    · exact ((Stmt.drawnIn_of_mem elseArm h).append_right.append_right).cons
  | .lambda name formals body, i, f, h => by
    rw [Expr.placedFunctions, List.mem_append, List.mem_singleton] at h
    rw [Expr.draws]
    rcases h with h | rfl
    · exact (Stmt.drawnIn_of_mem body h).cons
    · exact ⟨0, rfl, rfl⟩
  | .builtin _, _, _, h | .integer _, _, _, h | .list, _, _, h | .string _, _, _, h
  | .record _, _, _, h | .symbol _, _, _, h | .symbolLiteral _, _, _, h | .variable _, _, _, h => by
    cases h

/-- The functions of statements are at the places of their draws. -/
theorem Stmt.drawnIn_of_mem : ∀ (ss : List Stmt) {i : Nat} {f : PlacedFunction},
    f ∈ Stmt.placedFunctionsAll ss i → f.DrawnIn i (Stmt.drawsAll ss)
  | [], _, _, h => by cases h
  | .mk a e l :: rest, i, f, h => by
    rw [Stmt.placedFunctionsAll, List.mem_append] at h
    rw [Stmt.drawsAll, Stmt.draws]
    rcases h with h | h
    · exact (e.drawnIn_of_mem h).append_left
    · exact (Stmt.drawnIn_of_mem rest h).append_right

end

theorem Part.drawnIn_of_mem (P : Part) {f : PlacedFunction} (h : f ∈ P.placedFunctions 0) :
    f.DrawnIn 0 P.draws := by
  cases P with
  | expression e => exact e.drawnIn_of_mem h
  | statements ss | body ss => exact Stmt.drawnIn_of_mem ss h

/-! ## What a lowering assigns -/

open LabelCounters (drawsOn key)

/-- The code has the numbers and the order that the tree tells, and so have the counters behind
it. -/
structure Assigned (P : Part) (c : LabelCounters) (k : Code) (c' : LabelCounters) : Prop where
  /-- The number of a draw is what the counter of its key showed, and one for each earlier draw on
  that key. -/
  numbers : ∀ i d, P.draws[i]? = some d → (c.numberAt P.draws i).toNat
    = (c.count d.base).toNat + drawsOn d.base (P.draws.take i)
  /-- A function has the number of its own draw. -/
  places : ∀ f ∈ P.placedFunctions 0,
    P.draws[f.place]? = some (.function (Label.lambdaBase f.name))
  /-- The entries in the place of the part are those with these numbers. -/
  own : k.own = P.placed (c.numberAt P.draws) 0
  /-- The blocks are those with these numbers, and each comes behind those of the functions in its
  body. -/
  lifted : k.lifted = (P.placedFunctions 0).flatMap (·.block (c.numberAt P.draws))
  /-- A counter moves by the number of draws on its key. -/
  counts : ∀ name, (c'.count name).toNat = (c.count name).toNat + drawsOn name P.draws
  /-- A counter on whose key nothing was drawn does not move. -/
  unchanged : ∀ name, (∀ d ∈ P.draws, key name ≠ key d.base) → c'.count name = c.count name

theorem Lowers.assigned {P : Part} {c c' : LabelCounters} {k : Code} (h : Lowers P c k c')
    (hfits : c.NoOverflow P.draws) : Assigned P c k c' where
  numbers _ _ := LabelCounters.toNat_numberAt hfits
  places f hf := by
    obtain ⟨j, hplace, hdraw⟩ := P.drawnIn_of_mem hf
    rwa [hplace, Nat.zero_add]
  own := h.own_eq_placed (c.numbers_numberAt _)
  lifted := h.lifted_eq_blocks (c.numbers_numberAt _)
  counts name := by
    rw [h.counters]
    exact LabelCounters.toNat_count_drawAll hfits name
  unchanged name hname := by
    have hnone : drawsOn name P.draws = 0 := List.countP_eq_zero.mpr (by simpa using hname)
    rw [← UInt32.toNat_inj, h.counters, LabelCounters.toNat_count_drawAll hfits, hnone,
      Nat.add_zero]

/-- **Exact numbers.** As long as no counter starts again, the lowering of an expression, of a
statement or of statements gives the draws of the tree the next numbers of their keys, from the
front to the back, and its code is the one with these numbers. The blocks come out with a function
behind those in its body, and each counter moves by the number of draws on its key. -/
theorem lower_assigns_numbers :
    (∀ (e : Expr) (c c' : LabelCounters) (k : Code), c.NoOverflow e.draws →
      e.lower.run c = (.ok k, c') → Assigned (.expression e) c k c') ∧
    (∀ (s : Stmt) (c c' : LabelCounters) (k : Code), c.NoOverflow s.draws →
      s.lower.run c = (.ok k, c') → Assigned (.statements [s]) c k c') ∧
    ∀ (ss : List Stmt) (c c' : LabelCounters) (k : Code), c.NoOverflow (Stmt.drawsAll ss) →
      (Stmt.lowerAll ss).run c = (.ok k, c') → Assigned (.statements ss) c k c' := by
  refine ⟨fun e c c' k hfits h => (e.lowers_of_run h).assigned hfits, fun s c c' k hfits h => ?_,
    fun ss c c' k hfits h => (Stmt.lowers_of_run ss h).assigned hfits⟩
  rw [← Stmt.run_lowerAll_singleton] at h
  refine (Stmt.lowers_of_run [s] h).assigned ?_
  obtain ⟨a, e, l⟩ := s
  rwa [Part.draws, Stmt.drawsAll_singleton]

/-- A conditional with a function in each place, three of them on the counter of conditionals. -/
def functionsEverywhere : Expr :=
  .ifElse (.call (.lambda (some "else") ["x"] [.mk .discard
      (.lambda (some "a_b") [] [.mk .discard .list none]) none]) 1)
    [.mk .discard (.lambda (some "if") [] [.mk .discard (.integer 1) none]) none]
    [.mk .discard (.ifElse (.symbol "c") [.mk .discard (.integer 2) none]
      [.mk .discard (.lambda (some "a$b") [] [.mk .discard (.integer 3) none]) none]) none]

/-- The numbers go on where an earlier conditional left them, and the functions come out with the
inner one of the first two in front. -/
theorem functionsEverywhere_assigned :
    let c := LabelCounters.empty.bump BranchLabels.thenBase
    c.NoOverflow functionsEverywhere.draws ∧
      (functionsEverywhere.placedFunctions 0).map
          (fun f => (Label.lambdaBase f.name, c.numberAt functionsEverywhere.draws f.place))
        = [("a$b", 0), ("else", 2), ("if", 3), ("a$$b", 0)] ∧
      ∃ k c', functionsEverywhere.lower.run c = (.ok k, c') ∧
        Assigned (.expression functionsEverywhere) c k c' := by
  intro c
  have hsession : LabelCounters.empty.NoOverflow ([.branch] ++ functionsEverywhere.draws) :=
    LabelCounters.noOverflow_empty (by decide)
  have hfits : c.NoOverflow functionsEverywhere.draws := hsession.of_append
  exact ⟨hfits, rfl, _, _, rfl, lower_assigns_numbers.1 functionsEverywhere c _ _ hfits rfl⟩

end StackLowering
