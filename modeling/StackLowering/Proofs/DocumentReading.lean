import StackLowering.Json.ReadError
import StackLowering.Proofs.DocumentTokens

/-!
# Reading a document back

The tokens of a document are read to the fragment that is the document: every bracket of it is
closed, and every string and every number has its value. Nothing of the text is left.

Such a fragment is complete as soon as the brackets that may be opened are enough for the document.

## Main definitions

* `Document.fragment` — what a document is read to
* `Document.nesting` — the brackets that are open at once in the text of a document

## Main results

* `Document.Storable.ofText_compress` — the text of a document is read back
* `Document.isComplete_fragment` — how many brackets have to be open at once
-/

namespace StackLowering.Json

namespace Document

/-- A property of all documents, by induction on the brackets. -/
@[elab_as_elim] theorem induct {motive : Document → Prop} (null : motive .null)
    (integer : ∀ n, motive (.integer n)) (string : ∀ s, motive (.string s))
    (array : ∀ items, (∀ d ∈ items, motive d) → motive (.array items))
    (object : ∀ members, (∀ m ∈ members, motive m.2) → motive (.object members)) :
    ∀ d : Document, motive d
  | .null => null
  | .integer n => integer n
  | .string s => string s
  | .array items => array items fun d _ => induct null integer string array object d
  | .object members => object members fun m _ => induct null integer string array object m.2
decreasing_by
  · have := List.sizeOf_lt_of_mem ‹d ∈ items›
    simp only [Document.array.sizeOf_spec]
    omega
  · have := List.sizeOf_lt_of_mem ‹m ∈ members›
    cases m
    simp only [Document.object.sizeOf_spec, Prod.mk.sizeOf_spec] at *
    omega

mutual

/-- What a document is read to. -/
def fragment : Document → Fragment
  | null => .null
  | integer n => .number (some (.integer n))
  | string s => .string (some s)
  | array items => .array (fragmentsOfItems items) true
  | object members => .object (fragmentsOfMembers members) true

/-- What the items of an array are read to. -/
def fragmentsOfItems : List Document → List Fragment
  | [] => []
  | d :: rest => d.fragment :: fragmentsOfItems rest

/-- What the members of an object are read to. -/
def fragmentsOfMembers : List (String × Document) → List (Option String × Fragment)
  | [] => []
  | (key, d) :: rest => (some key, d.fragment) :: fragmentsOfMembers rest

end

mutual

/-- The brackets that are open at once in the text of a document. -/
def nesting : Document → Nat
  | null | integer _ | string _ => 0
  | array items => nestingOfItems items + 1
  | object members => nestingOfMembers members + 1

/-- The brackets that are open at once in the items of an array. -/
def nestingOfItems : List Document → Nat
  | [] => 0
  | d :: rest => max d.nesting (nestingOfItems rest)

/-- The brackets that are open at once in the members of an object. -/
def nestingOfMembers : List (String × Document) → Nat
  | [] => 0
  | (_, d) :: rest => max d.nesting (nestingOfMembers rest)

end

theorem fragmentsOfItems_eq_map (items : List Document) :
    fragmentsOfItems items = items.map fragment := by
  induction items with
  | nil => rfl
  | cons d items ih => rw [fragmentsOfItems, ih, List.map_cons]

theorem fragmentsOfMembers_eq_map (members : List (String × Document)) :
    fragmentsOfMembers members = members.map fun m => (some m.1, m.2.fragment) := by
  induction members with
  | nil => rfl
  | cons m members ih => rw [fragmentsOfMembers, ih, List.map_cons]

theorem nestingOfItems_le {items : List Document} {n : Nat} :
    nestingOfItems items ≤ n ↔ ∀ d ∈ items, d.nesting ≤ n := by
  induction items with
  | nil => simp [nestingOfItems]
  | cons d items ih => rw [nestingOfItems, Nat.max_le, ih, List.forall_mem_cons]

theorem nestingOfMembers_le {members : List (String × Document)} {n : Nat} :
    nestingOfMembers members ≤ n ↔ ∀ m ∈ members, m.2.nesting ≤ n := by
  induction members with
  | nil => simp [nestingOfMembers]
  | cons m members ih => rw [nestingOfMembers, Nat.max_le, ih, List.forall_mem_cons]

theorem nesting_array_le {items : List Document} {n : Nat} :
    (array items).nesting ≤ n + 1 ↔ ∀ d ∈ items, d.nesting ≤ n := by
  rw [nesting, Nat.succ_le_succ_iff, nestingOfItems_le]

theorem nesting_object_le {members : List (String × Document)} {n : Nat} :
    (object members).nesting ≤ n + 1 ↔ ∀ m ∈ members, m.2.nesting ≤ n := by
  rw [nesting, Nat.succ_le_succ_iff, nestingOfMembers_le]

theorem nesting_tagged_le {tag : String} {fields : List (String × Document)} {n : Nat} :
    (tagged tag fields).nesting ≤ n + 1 ↔ ∀ m ∈ fields, m.2.nesting ≤ n := by
  rw [tagged, nesting_object_le, List.forall_mem_cons]
  exact and_iff_right (Nat.zero_le n)

theorem exists_of_nesting_array_le {items : List Document} {n : Nat}
    (h : (array items).nesting ≤ n) : ∃ k, n = k + 1 ∧ ∀ d ∈ items, d.nesting ≤ k := by
  cases n with
  | zero => cases h
  | succ k => exact ⟨k, rfl, nesting_array_le.mp h⟩

theorem exists_of_nesting_object_le {members : List (String × Document)} {n : Nat}
    (h : (object members).nesting ≤ n) : ∃ k, n = k + 1 ∧ ∀ m ∈ members, m.2.nesting ≤ k := by
  cases n with
  | zero => cases h
  | succ k => exact ⟨k, rfl, nesting_object_le.mp h⟩

theorem exists_of_nesting_tagged_le {tag : String} {fields : List (String × Document)} {n : Nat}
    (h : (tagged tag fields).nesting ≤ n) : ∃ k, n = k + 1 ∧ ∀ m ∈ fields, m.2.nesting ≤ k := by
  cases n with
  | zero => cases h
  | succ k => exact ⟨k, rfl, nesting_tagged_le.mp h⟩

end Document

/-! ### Reading tokens -/

namespace Fragment

/-- Goes on reading from where a token has led to. -/
def resume : Progress → List Token → Fragment × List Token
  | .inside e frames, ts => run e frames ts
  | .complete f, ts => (f, ts)
  | .stuck, ts => (.broken, ts)

/-- A value may stand inside these frames: the innermost bracket is not an object that waits for a
key. -/
def TakesValue (frames : List Frame) : Prop := ∀ before outer, frames ≠ .object before :: outer

variable {e : Expect} {frames : List Frame} {p : Progress} {t : Token}

theorem run_of_step (h : step e frames t = p) (hp : p ≠ .stuck) (ts : List Token) :
    run e frames (t :: ts) = resume p ts := by
  rw [run, h]
  cases p with
  | inside | complete => rfl
  | stuck => exact absurd rfl hp

theorem ofValue_ne_stuck (h : TakesValue frames) (f : Fragment) :
    Progress.ofValue f frames ≠ .stuck := by
  cases frames with
  | nil => simp [Progress.ofValue]
  | cons x outer =>
    cases x with
    | array | member => simp [Progress.ofValue]
    | object before => exact absurd rfl (h before outer)

theorem takesValue_array (before : List Fragment) (outer : List Frame) :
    TakesValue (.array before :: outer) := by
  simp [TakesValue]

theorem takesValue_member (before : List (Option String × Fragment)) (key : Option String)
    (outer : List Frame) : TakesValue (.member before key :: outer) := by
  simp [TakesValue]

theorem run_openArray (he : e.allowsValue = true) (ts : List Token) :
    run e frames (.openArray :: ts) = run .valueOrClose (.array [] :: frames) ts := by
  have hstep : step e frames .openArray = .inside .valueOrClose (.array [] :: frames) := if_pos he
  exact run_of_step hstep (by simp) ts

theorem run_openObject (he : e.allowsValue = true) (ts : List Token) :
    run e frames (.openObject :: ts) = run .keyOrClose (.object [] :: frames) ts := by
  have hstep : step e frames .openObject = .inside .keyOrClose (.object [] :: frames) := if_pos he
  exact run_of_step hstep (by simp) ts

theorem run_closeArray (he : e.allowsClose) (hframes : TakesValue frames) (before : List Fragment)
    (ts : List Token) :
    run e (.array before :: frames) (.closeArray :: ts)
      = resume (.ofValue (.array before.reverse true) frames) ts := by
  have hstep : step e (.array before :: frames) .closeArray
      = .ofValue (.array before.reverse true) frames := if_pos he
  exact run_of_step hstep (ofValue_ne_stuck hframes _) ts

theorem run_closeObject (he : e.allowsClose) (hframes : TakesValue frames)
    (before : List (Option String × Fragment)) (ts : List Token) :
    run e (.object before :: frames) (.closeObject :: ts)
      = resume (.ofValue (.object before.reverse true) frames) ts := by
  have hstep : step e (.object before :: frames) .closeObject
      = .ofValue (.object before.reverse true) frames := if_pos he
  exact run_of_step hstep (ofValue_ne_stuck hframes _) ts

/-- A key and its colon. -/
theorem run_key (he : e.allowsKey = true) (before : List (Option String × Fragment))
    (key : Option String) (ts : List Token) :
    run e (.object before :: frames) (.string key :: .colon :: ts)
      = run .value (.member before key :: frames) ts := by
  have hstep : step e (.object before :: frames) (.string key)
      = .inside .colon (.member before key :: frames) := if_pos he
  exact run_of_step hstep (by simp) _

theorem run_comma_array (before : List Fragment) (ts : List Token) :
    run .commaOrClose (.array before :: frames) (.comma :: ts)
      = run .value (.array before :: frames) ts := rfl

theorem run_comma_object (before : List (Option String × Fragment)) (ts : List Token) :
    run .commaOrClose (.object before :: frames) (.comma :: ts)
      = run .key (.object before :: frames) ts := rfl

end Fragment

namespace Document

open Fragment (TakesValue resume run run_of_step)

/-- The tokens of a document are read as a value, wherever a value may stand. -/
def Reads (d : Document) : Prop :=
  ∀ e frames, e.allowsValue = true → TakesValue frames → ∀ ts,
    run e frames (d.tokens ++ ts) = resume (.ofValue d.fragment frames) ts

theorem run_tokensOfItems {items : List Document} (hne : items ≠ []) (h : ∀ d ∈ items, d.Reads)
    {e : Fragment.Expect} (he : e.allowsValue = true) (before : List Fragment)
    (outer : List Fragment.Frame) (ts : List Token) :
    run e (.array before :: outer) (tokensOfItems items ++ ts)
      = run .commaOrClose (.array ((fragmentsOfItems items).reverse ++ before) :: outer) ts := by
  induction items generalizing e before with
  | nil => exact absurd rfl hne
  | cons d items ih =>
    have hd := h d (.head _) e _ he (Fragment.takesValue_array before outer)
    cases items with
    | nil => exact hd ts
    | cons d' rest =>
      have hrest := ih (by simp) (fun x hx => h x (.tail _ hx)) (e := .value) rfl
        (d.fragment :: before)
      rw [tokensOfItems_cons_cons, List.append_assoc, hd, List.cons_append]
      simpa [fragmentsOfItems, resume, Fragment.Progress.ofValue, Fragment.run_comma_array]
        using hrest

theorem run_tokensOfMembers {members : List (String × Document)} (hne : members ≠ [])
    (h : ∀ m ∈ members, m.2.Reads) {e : Fragment.Expect} (he : e.allowsKey = true)
    (before : List (Option String × Fragment)) (outer : List Fragment.Frame) (ts : List Token) :
    run e (.object before :: outer) (tokensOfMembers members ++ ts)
      = run .commaOrClose (.object ((fragmentsOfMembers members).reverse ++ before) :: outer)
          ts := by
  induction members generalizing e before with
  | nil => exact absurd rfl hne
  | cons m members ih =>
    obtain ⟨key, d⟩ := m
    have hd := h _ (.head _) .value _ rfl (Fragment.takesValue_member before (some key) outer)
    have hkey (ts : List Token) :
        run e (.object before :: outer) (.string (some key) :: .colon :: (d.tokens ++ ts))
          = run .commaOrClose (.object ((some key, d.fragment) :: before) :: outer) ts := by
      rw [Fragment.run_key he]
      exact hd ts
    cases members with
    | nil => exact hkey ts
    | cons m' rest =>
      have hrest := ih (by simp) (fun x hx => h x (.tail _ hx)) (e := .key) rfl
        ((some key, d.fragment) :: before)
      rw [tokensOfMembers_cons_cons, List.append_assoc, List.cons_append, List.cons_append, hkey]
      simpa [fragmentsOfMembers, Fragment.run_comma_object] using hrest

theorem reads_array {items : List Document} (h : ∀ d ∈ items, d.Reads) :
    (array items).Reads := by
  intro e frames he hframes ts
  rw [tokens, List.cons_append, List.cons_append, List.append_assoc, List.singleton_append,
    Fragment.run_openArray he]
  cases items with
  | nil => exact Fragment.run_closeArray rfl hframes [] ts
  | cons d rest =>
    rw [run_tokensOfItems (by simp) h rfl, Fragment.run_closeArray rfl hframes]
    simp [fragment]

theorem reads_object {members : List (String × Document)} (h : ∀ m ∈ members, m.2.Reads) :
    (object members).Reads := by
  intro e frames he hframes ts
  rw [tokens, List.cons_append, List.cons_append, List.append_assoc, List.singleton_append,
    Fragment.run_openObject he]
  cases members with
  | nil => exact Fragment.run_closeObject rfl hframes [] ts
  | cons m rest =>
    rw [run_tokensOfMembers (by simp) h rfl, Fragment.run_closeObject rfl hframes]
    simp [fragment]

theorem reads_string (s : String) : (string s).Reads := by
  intro e frames he hframes ts
  refine run_of_step ?_ (Fragment.ofValue_ne_stuck hframes _) ts
  cases frames with
  | nil => exact if_pos he
  | cons x outer =>
    cases x with
    | array | member => exact if_pos he
    | object before => exact absurd rfl (hframes before outer)

/-- The tokens of every document are read as a value. -/
theorem reads (d : Document) : d.Reads := by
  induction d using induct with
  | null | integer =>
    intro e frames he hframes ts
    refine run_of_step ?_ (Fragment.ofValue_ne_stuck hframes _) ts
    exact if_pos he
  | string s => exact reads_string s
  | array _ ih => exact reads_array ih
  | object _ ih => exact reads_object ih

/-- **The text of a document is read back**, and nothing of it is left. -/
theorem Storable.ofText_compress {d : Document} (h : d.Storable) :
    Fragment.ofText d.compress = (d.fragment, true) := by
  have htokens := h.tokens_chars NumberLiteral.ends_nil
  have hread := d.reads .value [] rfl (by simp [TakesValue]) []
  simp only [List.append_nil] at htokens hread
  rw [Fragment.ofText, compress, String.toList_ofList, htokens, Json.tokens, List.append_nil,
    Fragment.ofTokens, hread]
  rfl

/-! ### Brackets -/

/-- A document is a whole value, if the brackets that are open at once may be opened. -/
theorem isComplete_fragment {d : Document} {n : Nat} :
    d.fragment.isComplete n = true ↔ d.nesting ≤ n := by
  induction d using induct generalizing n with
  | null | integer | string => cases n <;> simp [fragment, Fragment.isComplete, nesting]
  | array items ih =>
    cases n with
    | zero => simp [fragment, Fragment.isComplete, nesting]
    | succ n =>
      rw [nesting_array_le, fragment, fragmentsOfItems_eq_map]
      simp only [Fragment.isComplete, Bool.true_and, List.all_map, List.all_eq_true]
      exact forall₂_congr fun d hd => ih d hd
  | object members ih =>
    cases n with
    | zero => simp [fragment, Fragment.isComplete, nesting]
    | succ n =>
      rw [nesting_object_le, fragment, fragmentsOfMembers_eq_map]
      simp only [Fragment.isComplete, Bool.true_and, List.all_map, List.all_eq_true]
      exact forall₂_congr fun m hm => ih m hm

end Document

end StackLowering.Json
