import StackLowering.Json.Document
import StackLowering.Json.Token
import Mathlib.Tactic.SplitIfs

/-!
# The tokens of a document

The text of a document is cut back into the tokens it was put together from: each scalar is one
token, with its value, and each bracket, comma and colon is one.

A number is the only token that does not end by itself. So what follows it in the text must not go
on with it; in the text of a document a comma or a closing bracket follows, or nothing at all.

## Main definitions

* `NumberLiteral.Ends` — no number goes on here
* `Document.Storable` — every number of a document fits into 64 bits
* `Document.tokens` — the tokens of a document

## Main results

* `read_quote` — a string is read back
* `read_integer` — an integer of 64 bits is read back
* `Document.Storable.tokens_chars` — a document is cut back into its tokens
-/

namespace StackLowering.Json

/-! ### Strings -/

theorem joinParts_unit {code : Nat} (h : code < 0xd800) (parts : List StringPart) :
    joinParts (.unit code :: parts) = (joinParts parts).map (Char.ofNat code :: ·) := by
  have hleading : isLeading code = false := by simp [isLeading]; omega
  have htrailing : isTrailing code = false := by simp [isTrailing]; omega
  cases parts with
  | nil => simp [joinParts, hleading, htrailing]
  | cons p parts => cases p <;> simp [joinParts, hleading, htrailing]

theorem hexUnit_hexPair {n : Nat} (h : n < 0x20) :
    hexUnit '0' '0' (Nat.digitChar (n / 16)) (Nat.digitChar (n % 16)) = some n := by
  have hall : ∀ n < 0x20,
      hexUnit '0' '0' (Nat.digitChar (n / 16)) (Nat.digitChar (n % 16)) = some n := by decide
  exact hall n h

theorem readString_letter {letter c : Char} (hletter : letter ≠ 'u')
    (h : escapedChar letter = some c) (cs : List Char) :
    readString ('\\' :: letter :: cs) = (readString cs).map fun r => (.char c :: r.1, r.2) := by
  rw [readString, h]
  · cases readString cs <;> rfl
  · rintro a b c d r rfl
    exact absurd rfl hletter

theorem readString_unit {a b c d : Char} {code : Nat} (h : hexUnit a b c d = some code)
    (cs : List Char) :
    readString ('\\' :: 'u' :: a :: b :: c :: d :: cs)
      = (readString cs).map fun r => (.unit code :: r.1, r.2) := by
  rw [readString, h]
  cases readString cs <;> rfl

theorem readString_plain {c : Char} (hquote : c ≠ '"') (hescape : c ≠ '\\')
    (hcontrol : ¬c.toNat < 0x20) (cs : List Char) :
    readString (c :: cs) = (readString cs).map fun r => (.char c :: r.1, r.2) := by
  rw [readString, if_neg hcontrol]
  · cases readString cs <;> rfl
  · exact hquote
  · exact fun _ _ _ _ _ h _ => hescape h
  · exact fun _ _ h _ => hescape h

/-- What is written for a character is read as one part of a string, and that part stands for the
character. -/
theorem exists_part_of_escapeChar (c : Char) :
    ∃ p : StringPart,
      (∀ cs, readString (Document.escapeChar c ++ cs)
        = (readString cs).map fun r => (p :: r.1, r.2)) ∧
      ∀ parts, joinParts (p :: parts) = (joinParts parts).map (c :: ·) := by
  unfold Document.escapeChar
  split
  case h_8 hquote hescape _ _ _ _ _ =>
    split_ifs with hcontrol
    · refine ⟨.unit c.toNat, readString_unit (hexUnit_hexPair hcontrol), fun parts => ?_⟩
      rw [joinParts_unit (by omega), Char.ofNat_toNat]
    · exact ⟨.char c, readString_plain hquote hescape hcontrol, fun _ => rfl⟩
  all_goals exact ⟨.char _, readString_letter (by decide) rfl, fun _ => rfl⟩

theorem readString_flatMap_escapeChar (s rest : List Char) :
    ∃ parts, readString (s.flatMap Document.escapeChar ++ '"' :: rest) = some (parts, rest) ∧
      joinParts parts = some s := by
  induction s with
  | nil => exact ⟨[], rfl, rfl⟩
  | cons c s ih =>
    obtain ⟨parts, hread, hjoin⟩ := ih
    obtain ⟨p, hp, hc⟩ := exists_part_of_escapeChar c
    refine ⟨p :: parts, ?_, by rw [hc, hjoin]; rfl⟩
    rw [List.flatMap_cons, List.append_assoc, hp, hread]
    rfl

/-- A string between quotes is read back. -/
theorem read_quote (s : String) (rest : List Char) :
    Token.read (Document.quote s ++ rest) = some (.string (some s), rest) := by
  obtain ⟨parts, hread, hjoin⟩ := readString_flatMap_escapeChar s.toList rest
  have hquote : Document.quote s ++ rest
      = '"' :: (s.toList.flatMap Document.escapeChar ++ '"' :: rest) := by
    simp [Document.quote]
  rw [hquote, Token.read, hread]
  simp [hjoin]

/-! ### Numbers -/

namespace NumberLiteral

/-- No number goes on at the front of this text. -/
def Ends (cs : List Char) : Prop :=
  ∀ c ∈ cs.head?, c.isDigit = false ∧ c ≠ '.' ∧ c ≠ 'e' ∧ c ≠ 'E'

theorem ends_nil : Ends [] := by simp [Ends]

theorem ends_cons {c : Char} {cs : List Char}
    (h : c.isDigit = false ∧ c ≠ '.' ∧ c ≠ 'e' ∧ c ≠ 'E') : Ends (c :: cs) := by
  simpa [Ends] using h

/-- The digits of a number, the greatest first. -/
def decimal (n : Nat) : List Nat := (Nat.toDigits 10 n).map fun c => c.toNat - '0'.toNat

theorem toNat_digitChar {d : Nat} (h : d < 10) : d.digitChar.toNat - '0'.toNat = d := by
  have hall : ∀ d < 10, d.digitChar.toNat - '0'.toNat = d := by decide
  exact hall d h

theorem decimal_of_lt {n : Nat} (h : n < 10) : decimal n = [n] := by
  rw [decimal, Nat.toDigits_of_lt_base h, List.map_singleton, toNat_digitChar h]

theorem decimal_of_le {n : Nat} (h : 10 ≤ n) : decimal n = decimal (n / 10) ++ [n % 10] := by
  rw [decimal, Nat.toDigits_of_base_le (by decide) h, List.map_append, List.map_singleton,
    toNat_digitChar (n.mod_lt (by decide)), decimal]

/-- The first digit of a number that is not zero is not zero. -/
theorem exists_decimal_eq_cons {n : Nat} (h : 0 < n) : ∃ d ds, 0 < d ∧ decimal n = d :: ds := by
  induction n using Nat.strongRecOn with
  | ind n ih =>
    rcases Nat.lt_or_ge n 10 with hn | hn
    · exact ⟨n, [], h, decimal_of_lt hn⟩
    · obtain ⟨d, ds, hd, heq⟩ := ih (n / 10) (by omega) (by omega)
      exact ⟨d, ds ++ [n % 10], hd, by rw [decimal_of_le hn, heq]; rfl⟩

variable {cs : List Char}

theorem readDigits_toDigits (hcs : Ends cs) (n : Nat) :
    readDigits (Nat.toDigits 10 n ++ cs) = (decimal n, cs) := by
  have hdigits : ∀ c ∈ Nat.toDigits 10 n, c.isDigit = true := fun c hc =>
    Nat.isDigit_of_mem_toDigits (by decide) (by decide) hc
  have hend : cs.takeWhile Char.isDigit = [] ∧ cs.dropWhile Char.isDigit = cs := by
    cases cs with
    | nil => exact ⟨rfl, rfl⟩
    | cons c cs =>
      have hc : c.isDigit = false := (hcs c rfl).1
      simp [hc]
  rw [readDigits, List.takeWhile_append_of_pos hdigits, List.dropWhile_append_of_pos hdigits,
    hend.1, hend.2, List.append_nil, decimal]

theorem readWhole_toDigits (hcs : Ends cs) (n : Nat) :
    readWhole (Nat.toDigits 10 n ++ cs) = some (decimal n, cs) := by
  rw [readWhole, readDigits_toDigits hcs]
  rcases Nat.eq_zero_or_pos n with rfl | hn
  · rw [decimal_of_lt (by decide)]
    rfl
  · obtain ⟨d, ds, hd, heq⟩ := exists_decimal_eq_cons hn
    obtain ⟨d, rfl⟩ := Nat.exists_eq_add_of_lt hd
    rw [heq]
    rfl

theorem readFraction_of_ends (hcs : Ends cs) : readFraction cs = some (none, cs) := by
  unfold readFraction
  split
  · exact absurd rfl (hcs _ rfl).2.1
  · rfl

theorem readExponent_of_ends (hcs : Ends cs) : readExponent cs = some (none, cs) := by
  unfold readExponent
  split
  · exact absurd rfl (hcs _ rfl).2.2.1
  · exact absurd rfl (hcs _ rfl).2.2.2
  · rfl

theorem readUnsigned_toDigits (hcs : Ends cs) (negative : Bool) (n : Nat) :
    readUnsigned negative (Nat.toDigits 10 n ++ cs)
      = some (⟨negative, decimal n, none, none⟩, cs) := by
  simp [readUnsigned, readWhole_toDigits hcs, readFraction_of_ends hcs, readExponent_of_ends hcs]

theorem absorb_append {s m d : Nat} {ds : List Nat} (h : absorb s ds = (m, 0))
    (hd : 10 * m + d < wordSize) : absorb s (ds ++ [d]) = (10 * m + d, 0) := by
  induction ds generalizing s with
  | nil =>
    obtain ⟨rfl, -⟩ := Prod.mk.injEq .. ▸ h
    simp [absorb, hd]
  | cons x ds ih =>
    rw [absorb] at h
    split_ifs at h with hx
    · rw [List.cons_append, absorb, if_pos hx, ih h]
    · simp at h

theorem absorb_decimal {n : Nat} (h : n < wordSize) : absorb 0 (decimal n) = (n, 0) := by
  induction n using Nat.strongRecOn with
  | ind n ih =>
    rcases Nat.lt_or_ge n 10 with hn | hn
    · simp [decimal_of_lt hn, absorb, h]
    · have hrest := ih (n / 10) (by omega) (by omega)
      rw [decimal_of_le hn, absorb_append hrest (by omega)]
      congr 1
      omega

/-- The literal that is written for an integer. -/
def ofInt (n : Int) : NumberLiteral := ⟨decide (n < 0), decimal n.natAbs, none, none⟩

/-- An integer of 64 bits, with or without a sign, has its value. -/
theorem value_ofInt {n : Int} (hlow : -(wordSize / 2 : Nat) ≤ n) (hhigh : n < wordSize) :
    (ofInt n).value = some (.integer n) := by
  rw [ofInt, value, absorb_decimal (by omega)]
  rcases Int.lt_or_le n 0 with hn | hn
  · have hbounds : 0 < n.natAbs ∧ n.natAbs ≤ wordSize / 2 := by omega
    simp only [hn, decide_true, Bool.not_true, Bool.false_eq_true, ↓reduceIte, if_pos hbounds]
    congr 2
    omega
  · simp [Int.not_lt.mpr hn, Int.natAbs_of_nonneg hn]

theorem exists_toDigits_eq_cons (n : Nat) :
    ∃ c ds, c.isDigit = true ∧ Nat.toDigits 10 n = c :: ds := by
  cases heq : Nat.toDigits 10 n with
  | nil => exact absurd heq Nat.toDigits_ne_nil
  | cons c ds =>
    have hc : c ∈ Nat.toDigits 10 n := heq ▸ List.mem_cons_self
    exact ⟨c, ds, Nat.isDigit_of_mem_toDigits (by decide) (by decide) hc, rfl⟩

/-- The text of an integer starts with a sign or a digit, and it is read as a number. -/
theorem exists_chars_integer_eq_cons (hcs : Ends cs) (n : Int) :
    ∃ c r, (c = '-' ∨ c.isDigit = true) ∧ (Document.integer n).chars ++ cs = c :: r ∧
      read (c :: r) = some (ofInt n, cs) := by
  have hchars : (Document.integer n).chars = n.repr.toList := by
    rw [Document.chars, Int.toString_eq_repr]
  rw [hchars, Int.repr_eq_if]
  split_ifs with hn
  · rw [Nat.toList_repr, ofInt, show n.toNat = n.natAbs by omega, decide_eq_false (by omega)]
    have hread := readUnsigned_toDigits hcs false n.natAbs
    obtain ⟨c, ds, hc, heq⟩ := exists_toDigits_eq_cons n.natAbs
    rw [heq, List.cons_append] at hread
    refine ⟨c, ds ++ cs, .inr hc, by rw [heq, List.cons_append], ?_⟩
    rw [read, hread]
    rintro r ⟨rfl, -⟩
    exact absurd hc (by decide)
  · rw [String.toList_append, Nat.toList_repr, ofInt, show (-n).toNat = n.natAbs by omega,
      decide_eq_true (by omega)]
    exact ⟨'-', _, .inl rfl, rfl, readUnsigned_toDigits hcs true n.natAbs⟩

end NumberLiteral

open NumberLiteral (Ends wordSize)

theorem read_of_number {c : Char} {r : List Char} (h : c = '-' ∨ c.isDigit = true) :
    Token.read (c :: r) = (NumberLiteral.read (c :: r)).map fun n => (.number n.1.value, n.2) := by
  unfold Token.read
  split <;> simp_all

theorem isSpace_of_number {c : Char} (h : c = '-' ∨ c.isDigit = true) : isSpace c = false := by
  rw [Bool.eq_false_iff]
  intro hspace
  simp only [isSpace, Bool.or_eq_true, beq_iff_eq] at hspace
  rcases hspace with ((rfl | rfl) | rfl) | rfl <;> revert h <;> decide

theorem tokens_of_read {c : Char} {r rest : List Char} {t : Token} (hc : isSpace c = false)
    (h : Token.read (c :: r) = some (t, rest)) : tokens (c :: r) = t :: tokens rest := by
  rw [tokens, hc, if_neg Bool.false_ne_true]
  split
  · rename_i h'
    cases h.symm.trans h'
    rfl
  · rename_i h'
    cases h.symm.trans h'

/-- A string is one token. -/
theorem tokens_quote (s : String) (cs : List Char) :
    tokens (Document.quote s ++ cs) = .string (some s) :: tokens cs :=
  tokens_of_read rfl (read_quote s cs)

/-- An integer of 64 bits is one token, unless a number goes on behind it. -/
theorem tokens_integer {n : Int} {cs : List Char} (hlow : -(wordSize / 2 : Nat) ≤ n)
    (hhigh : n < wordSize) (hcs : Ends cs) :
    tokens ((Document.integer n).chars ++ cs) = .number (some (.integer n)) :: tokens cs := by
  obtain ⟨c, r, hc, heq, hread⟩ := NumberLiteral.exists_chars_integer_eq_cons hcs n
  rw [heq]
  refine tokens_of_read (isSpace_of_number hc) ?_
  rw [read_of_number hc, hread, Option.map_some, NumberLiteral.value_ofInt hlow hhigh]

/-! ### Documents -/

namespace Document

/-- Every number of the document fits into 64 bits, with or without a sign. -/
inductive Storable : Document → Prop
  | null : Storable .null
  | integer {n : Int} (low : -(wordSize / 2 : Nat) ≤ n) (high : n < wordSize) :
    Storable (.integer n)
  | string (s : String) : Storable (.string s)
  | array {items : List Document} (h : ∀ d ∈ items, Storable d) : Storable (.array items)
  | object {members : List (String × Document)} (h : ∀ m ∈ members, Storable m.2) :
    Storable (.object members)

theorem storable_ofNat {n : Nat} (h : n < wordSize) : (ofNat n).Storable :=
  .integer (by omega) (by omega)

theorem storable_tagged {tag : String} {fields : List (String × Document)}
    (h : ∀ m ∈ fields, m.2.Storable) : (tagged tag fields).Storable :=
  .object (List.forall_mem_cons.mpr ⟨.string tag, h⟩)

mutual

/-- The tokens of a document. -/
def tokens : Document → List Token
  | null => [.null]
  | integer n => [.number (some (.integer n))]
  | string s => [.string (some s)]
  | array items => .openArray :: tokensOfItems items ++ [.closeArray]
  | object members => .openObject :: tokensOfMembers members ++ [.closeObject]

/-- The tokens of the items of an array. -/
def tokensOfItems : List Document → List Token
  | [] => []
  | [d] => d.tokens
  | d :: rest => d.tokens ++ .comma :: tokensOfItems rest

/-- The tokens of the members of an object. -/
def tokensOfMembers : List (String × Document) → List Token
  | [] => []
  | [(key, d)] => .string (some key) :: .colon :: d.tokens
  | (key, d) :: rest => .string (some key) :: .colon :: d.tokens ++ .comma :: tokensOfMembers rest

end

theorem charsOfItems_cons_cons (d d' : Document) (rest : List Document) :
    charsOfItems (d :: d' :: rest) = d.chars ++ ',' :: charsOfItems (d' :: rest) := rfl

theorem tokensOfItems_cons_cons (d d' : Document) (rest : List Document) :
    tokensOfItems (d :: d' :: rest) = d.tokens ++ .comma :: tokensOfItems (d' :: rest) := rfl

theorem charsOfMembers_cons_cons (key : String) (d : Document) (m : String × Document)
    (rest : List (String × Document)) :
    charsOfMembers ((key, d) :: m :: rest)
      = quote key ++ ':' :: d.chars ++ ',' :: charsOfMembers (m :: rest) := rfl

theorem tokensOfMembers_cons_cons (key : String) (d : Document) (m : String × Document)
    (rest : List (String × Document)) :
    tokensOfMembers ((key, d) :: m :: rest)
      = .string (some key) :: .colon :: d.tokens ++ .comma :: tokensOfMembers (m :: rest) := rfl

/-- The text of the document is cut into its tokens, and what follows is cut apart from it. -/
def Cuts (d : Document) : Prop :=
  ∀ cs, Ends cs → Json.tokens (d.chars ++ cs) = d.tokens ++ Json.tokens cs

variable {cs : List Char}

theorem tokens_charsOfItems {items : List Document} (h : ∀ d ∈ items, Cuts d) (hcs : Ends cs) :
    Json.tokens (charsOfItems items ++ cs) = tokensOfItems items ++ Json.tokens cs := by
  induction items with
  | nil => rfl
  | cons d items ih =>
    cases items with
    | nil => exact h d (.head _) cs hcs
    | cons d' rest =>
      have hrest := ih fun x hx => h x (.tail _ hx)
      have hcomma : Ends (',' :: (charsOfItems (d' :: rest) ++ cs)) :=
        NumberLiteral.ends_cons (by decide)
      rw [charsOfItems_cons_cons, List.append_assoc, List.cons_append, h d (.head _) _ hcomma,
        tokens_of_read rfl rfl, hrest, tokensOfItems_cons_cons, List.append_assoc,
        List.cons_append]

theorem tokens_member (key : String) {d : Document} (h : Cuts d) (hcs : Ends cs) :
    Json.tokens (quote key ++ ':' :: (d.chars ++ cs))
      = .string (some key) :: .colon :: (d.tokens ++ Json.tokens cs) := by
  rw [tokens_quote, tokens_of_read rfl rfl, h cs hcs]

theorem tokens_charsOfMembers {members : List (String × Document)}
    (h : ∀ m ∈ members, Cuts m.2) (hcs : Ends cs) :
    Json.tokens (charsOfMembers members ++ cs) = tokensOfMembers members ++ Json.tokens cs := by
  induction members with
  | nil => rfl
  | cons m members ih =>
    obtain ⟨key, d⟩ := m
    have hd : Cuts d := h _ (.head _)
    cases members with
    | nil =>
      rw [charsOfMembers, tokensOfMembers, List.append_assoc, List.cons_append]
      exact tokens_member key hd hcs
    | cons m' rest =>
      have hrest := ih fun x hx => h x (.tail _ hx)
      have hcomma : Ends (',' :: (charsOfMembers (m' :: rest) ++ cs)) :=
        NumberLiteral.ends_cons (by decide)
      have hmember := tokens_member key hd hcomma
      rw [tokens_of_read (c := ',') rfl rfl, hrest] at hmember
      simpa only [charsOfMembers_cons_cons, tokensOfMembers_cons_cons, List.append_assoc,
        List.cons_append] using hmember

/-- **A document is cut back into its tokens.** -/
theorem Storable.tokens_chars {d : Document} (h : d.Storable) (hcs : Ends cs) :
    Json.tokens (d.chars ++ cs) = d.tokens ++ Json.tokens cs := by
  induction h generalizing cs with
  | null => exact tokens_of_read rfl rfl
  | integer low high => exact tokens_integer low high hcs
  | string s => exact tokens_quote s cs
  | array _ ih =>
    have hbracket : Ends (']' :: cs) := NumberLiteral.ends_cons (by decide)
    have hitems := tokens_charsOfItems (fun d hd _ => ih d hd) hbracket
    rw [tokens_of_read (c := ']') rfl rfl] at hitems
    rw [chars, List.cons_append, List.cons_append, List.append_assoc, tokens_of_read rfl rfl]
    simpa [tokens] using hitems
  | object _ ih =>
    have hbracket : Ends ('\x7d' :: cs) := NumberLiteral.ends_cons (by decide)
    have hmembers := tokens_charsOfMembers (fun m hm _ => ih m hm) hbracket
    rw [tokens_of_read (c := '\x7d') rfl rfl] at hmembers
    rw [chars, List.cons_append, List.cons_append, List.append_assoc, tokens_of_read rfl rfl]
    simpa [tokens] using hmembers

end Document

end StackLowering.Json
