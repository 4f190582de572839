import WordProblem.Text.Blank
import WordProblem.Text.Count

/-! # Tokens and counts

The tokens of a text are all that stands between its blanks: a text has certain tokens if and only
if it is made of them, in their order, with blanks around them. A token is a count if it is a number
of 64 bits in decimal digits, and nothing else is.
-/
namespace WordProblem.Text

/-! ## Tokens -/

/-- A token has characters, and none of them is blank. -/
structure IsToken (t : List Char) : Prop where
  ne_nil : t ≠ []
  no_blank : ∀ c ∈ t, isBlank c = false

/-- A text made of `ts` in their order, with blanks between them and perhaps around them. -/
inductive Spaced : List (List Char) → List Char → Prop
  | nil {blanks : List Char} (hb : ∀ c ∈ blanks, isBlank c = true) : Spaced [] blanks
  | cons {blanks t rest : List Char} {ts : List (List Char)}
    (hb : ∀ c ∈ blanks, isBlank c = true) (hgap : ∀ c ∈ rest.head?, isBlank c = true)
    (h : Spaced ts rest) : Spaced (t :: ts) (blanks ++ t ++ rest)

theorem tokens_cons_blank {c : Char} (hc : isBlank c = true) (cs : List Char) :
    tokens (c :: cs) = tokens cs := by
  rw [tokens, List.splitOnP_cons_eq_if_modifyHead, if_pos hc]
  rfl

theorem tokens_append_blank {c : Char} (hc : isBlank c = true) (t cs : List Char) :
    tokens (t ++ c :: cs) = tokens t ++ tokens cs := by
  rw [tokens, List.splitOnP_append_cons t cs hc, List.filter_append]
  rfl

theorem tokens_of_blanks {blanks : List Char} (hb : ∀ c ∈ blanks, isBlank c = true)
    (cs : List Char) : tokens (blanks ++ cs) = tokens cs := by
  induction blanks with
  | nil => rfl
  | cons b blanks ih =>
    rw [List.cons_append, tokens_cons_blank (hb b List.mem_cons_self)]
    exact ih fun c hc => hb c (List.mem_cons_of_mem _ hc)

theorem IsToken.tokens {t : List Char} (ht : IsToken t) : tokens t = [t] := by
  rw [Text.tokens, List.splitOnP_eq_singleton ht.no_blank]
  simp [ht.ne_nil]

/-- A token ends where the text ends or a blank follows. -/
theorem IsToken.tokens_append {t : List Char} (ht : IsToken t) {rest : List Char}
    (hgap : ∀ c ∈ rest.head?, isBlank c = true) :
    Text.tokens (t ++ rest) = t :: Text.tokens rest := by
  cases rest with
  | nil =>
    rw [List.append_nil, ht.tokens]
    rfl
  | cons c rest =>
    have hc : isBlank c = true := hgap c rfl
    rw [tokens_append_blank hc, ht.tokens, tokens_cons_blank hc]
    rfl

theorem Spaced.tokens {ts : List (List Char)} {cs : List Char} (h : Spaced ts cs)
    (hts : ∀ t ∈ ts, IsToken t) : tokens cs = ts := by
  induction h with
  | @nil blanks hb =>
    have hall := tokens_of_blanks hb []
    rw [List.append_nil] at hall
    rw [hall]
    rfl
  | cons hb hgap _ ih =>
    rw [List.append_assoc, tokens_of_blanks hb,
      (hts _ List.mem_cons_self).tokens_append hgap,
      ih fun t ht => hts t (List.mem_cons_of_mem _ ht)]

theorem Spaced.blank {ts : List (List Char)} {cs : List Char} {c : Char} (hc : isBlank c = true)
    (h : Spaced ts cs) : Spaced ts (c :: cs) := by
  cases h with
  | nil hb => exact .nil (List.forall_mem_cons.mpr ⟨hc,hb⟩)
  | cons hb hgap h => exact .cons (List.forall_mem_cons.mpr ⟨hc,hb⟩) hgap h

theorem Spaced.token {ts : List (List Char)} {t rest : List Char}
    (hgap : ∀ c ∈ rest.head?, isBlank c = true) (h : Spaced ts rest) :
    Spaced (t :: ts) (t ++ rest) :=
  show Spaced (t :: ts) ([] ++ t ++ rest) from .cons (by simp) hgap h

/-- Every text is made of tokens. -/
theorem exists_spaced (cs : List Char) : ∃ ts, (∀ t ∈ ts, IsToken t) ∧ Spaced ts cs := by
  induction cs with
  | nil => exact ⟨[],by simp,.nil (by simp)⟩
  | cons c cs ih =>
    obtain ⟨ts,hts,h⟩ := ih
    by_cases hc : isBlank c = true
    · exact ⟨ts,hts,h.blank hc⟩
    have hletter : IsToken [c] := ⟨by simp,by simpa using hc⟩
    -- the letter begins a token of its own, unless the next token follows at once
    cases h with
    | nil hb =>
      refine ⟨[[c]],by simpa using hletter,.token (t := [c]) ?_ (.nil hb)⟩
      exact fun b hm => hb b (List.mem_of_mem_head? hm)
    | @cons blanks t rest ts hb hgap h =>
      obtain ⟨ht,hts⟩ := List.forall_mem_cons.mp hts
      cases blanks with
      | nil =>
        have hlonger : IsToken (c :: t) :=
          ⟨by simp,List.forall_mem_cons.mpr ⟨by simpa using hc,ht.no_blank⟩⟩
        exact ⟨(c :: t) :: ts,List.forall_mem_cons.mpr ⟨hlonger,hts⟩,
          .token (t := c :: t) hgap h⟩
      | cons b blanks =>
        refine ⟨[c] :: t :: ts,List.forall_mem_cons.mpr ⟨hletter,List.forall_mem_cons.mpr ⟨ht,hts⟩⟩,
          .token (t := [c]) ?_ (.cons hb hgap h)⟩
        rintro _ ⟨⟩
        exact hb b List.mem_cons_self

theorem tokens_eq_iff {cs : List Char} {ts : List (List Char)} :
    tokens cs = ts ↔ (∀ t ∈ ts, IsToken t) ∧ Spaced ts cs := by
  constructor
  · rintro rfl
    obtain ⟨ts,hts,h⟩ := exists_spaced cs
    rw [h.tokens hts]
    exact ⟨hts,h⟩
  · rintro ⟨hts,h⟩
    exact h.tokens hts

/-! ## Counts -/

/-- The token is a number of 64 bits in decimal digits, perhaps after a plus sign. -/
def Counts (t : List Char) (n : Nat) : Prop :=
  ∃ digits : List Char, (t = digits ∨ t = '+' :: digits) ∧ digits ≠ [] ∧
    (∀ c ∈ digits, c.isDigit = true) ∧ Nat.ofDigitChars 10 digits 0 = n ∧ n < wordBound

theorem ofDigits_map_digit (cs : List Char) :
    ofDigits (cs.map digit) = Nat.ofDigitChars 10 cs 0 := by
  rw [ofDigits, List.foldl_map, Nat.ofDigitChars_eq_foldl]
  congr 1
  funext n c
  rw [Nat.mul_comm]
  rfl

theorem unsigned_eq_some {cs : List Char} {n : Nat} : unsigned? cs = some n ↔
    cs ≠ [] ∧ (∀ c ∈ cs, c.isDigit = true) ∧ Nat.ofDigitChars 10 cs 0 = n ∧ n < wordBound := by
  unfold unsigned?
  rw [ofDigits_map_digit]
  split
  · next hno =>
    have hno : cs = [] ∨ ¬∀ c ∈ cs, c.isDigit = true := by simpa using hno
    simp only [false_iff, reduceCtorEq]
    rintro ⟨hne,hdigits,_⟩
    exact hno.elim hne (absurd hdigits)
  · next hyes =>
    obtain ⟨hne,hdigits⟩ : cs ≠ [] ∧ ∀ c ∈ cs, c.isDigit = true := by simpa using hyes
    dsimp only
    split
    · next hlt =>
      rw [Option.some_inj]
      exact ⟨fun he => ⟨hne,hdigits,he,he ▸ hlt⟩,fun h => h.2.2.1⟩
    · next hge =>
      simp only [false_iff, reduceCtorEq]
      rintro ⟨_,_,rfl,hlt⟩
      exact hge hlt

theorem count_eq_some {t : List Char} {n : Nat} : count? t = some n ↔ Counts t n := by
  have hplus : ('+').isDigit = false := rfl
  unfold count? Counts
  split
  · next cs =>
    rw [unsigned_eq_some]
    constructor
    · intro h
      exact ⟨cs,Or.inr rfl,h⟩
    · rintro ⟨digits,rfl | he,_,hdigits,hrest⟩
      · simp [hplus] at hdigits
      · cases he
        exact ⟨‹_›,hdigits,hrest⟩
  · next hne =>
    rw [unsigned_eq_some]
    constructor
    · intro h
      exact ⟨t,Or.inl rfl,h⟩
    · rintro ⟨digits,rfl | rfl,h⟩
      · exact h
      · exact absurd rfl (hne digits)

theorem count_eq_none {t : List Char} : count? t = none ↔ ∀ n, ¬Counts t n := by
  simp only [Option.eq_none_iff_forall_ne_some, ne_eq, count_eq_some]

/-- A number as it is commonly written. -/
def decimal (n : Nat) : List Char := Nat.toDigits 10 n

theorem counts_decimal {n : Nat} (h : n < wordBound) : Counts (decimal n) n :=
  ⟨_,Or.inl rfl,Nat.toDigits_ne_nil,fun _ => Nat.isDigit_of_mem_toDigits (by decide) (by decide),
    Nat.ofDigitChars_toDigits (by decide) (by decide),h⟩

theorem isBlank_of_isDigit {c : Char} (h : c.isDigit = true) : isBlank c = false := by
  have hrange : 48 ≤ c.val ∧ c.val ≤ 57 := by simpa [Char.isDigit] using h
  have hlow : 48 ≤ c.toNat := hrange.1
  have hhigh : c.toNat ≤ 57 := hrange.2
  simp only [isBlank, blankRanges, List.any_cons, List.any_nil, Bool.or_false,
    Bool.or_eq_false_iff, Bool.and_eq_false_iff, decide_eq_false_iff_not]
  omega

theorem isToken_decimal (n : Nat) : IsToken (decimal n) :=
  ⟨Nat.toDigits_ne_nil,fun _ hc =>
    isBlank_of_isDigit (Nat.isDigit_of_mem_toDigits (by decide) (by decide) hc)⟩

end WordProblem.Text
