import Mathlib.Tactic.ByContra
import WordProblem.Description.Plain
import WordProblem.Proofs.Text.Token

/-! # What the plain format admits

A text is a description in the plain format if its tokens are the items of the format in their
order. Otherwise some beginning of the tokens is read without fault, and the item that the format
goes on with is missing or is no such item: this is what the error says. A description whose strings
are tokens comes back from every text that it is written as. Whether a text announces more rules
than a list can hold shows in the tokens before its rules.
-/
namespace WordProblem.Description.Plain
open Text (Counts IsToken Spaced decimal)

/-! ## The format -/

/-- The first three tokens, the last of which counts the rules. -/
structure Head (a b c : List Char) (n : Nat) : Prop where
  nonterminals : ∃ x, Counts a x
  terminals : ∃ y, Counts b y
  rules : Counts c n

/-- The tokens are in order up to the rules, of which they announce more than a list can hold: it
takes 24 bytes for each of them, and `2 ^ 63` bytes are too many. -/
inductive Overfull : Tokens → Prop
  | intro {a b c v t : List Char} {n : Nat} {rest : Tokens} (hh : Head a b c n)
    (hn : 0x8000000000000000 ≤ n * 24) : Overfull (a :: b :: c :: v :: t :: rest)

/-- The tokens after the start symbol: none, or the number of words and at least as many tokens, of
which the first ones are the words. -/
inductive Listing : Tokens → Tokens → Prop
  | absent : Listing [] []
  | counted {m : List Char} {words : Tokens} (h : Counts m words.length) (more : Tokens) :
    Listing (m :: (words ++ more)) words

/-- The tokens of a text that describes `d`. -/
inductive Written : Tokens → Description → Prop
  | intro {a b c v t : List Char} {s : Char} {rules ending words : Tokens}
    (hh : Head a b c rules.length) (hl : Listing ending words) :
    Written (a :: b :: c :: v :: t :: (rules ++ [s] :: ending)) ⟨v,t,some s,rules,words⟩

/-- After these tokens, all of which are in order, the format goes on with the item. -/
inductive Awaits : Tokens → Item → Prop
  | nonterminalCount : Awaits [] .nonterminalCount
  | terminalCount {a : List Char} {x : Nat} (ha : Counts a x) : Awaits [a] .terminalCount
  | ruleCount {a b : List Char} {x y : Nat} (ha : Counts a x) (hb : Counts b y) :
    Awaits [a,b] .ruleCount
  | nonterminals {a b c : List Char} {n : Nat} (hh : Head a b c n) : Awaits [a,b,c] .nonterminals
  | terminals {a b c v : List Char} {n : Nat} (hh : Head a b c n) : Awaits [a,b,c,v] .terminals
  | rule {a b c v t : List Char} {n : Nat} {rules : Tokens} (hh : Head a b c n)
    (hlt : rules.length < n) : Awaits (a :: b :: c :: v :: t :: rules) .rule
  | start {a b c v t : List Char} {rules : Tokens} (hh : Head a b c rules.length) :
    Awaits (a :: b :: c :: v :: t :: rules) .start
  | wordCount {a b c v t : List Char} {s : Char} {rules : Tokens} (hh : Head a b c rules.length) :
    Awaits (a :: b :: c :: v :: t :: (rules ++ [[s]])) .wordCount
  | word {a b c v t m : List Char} {k : Nat} {s : Char} {rules words : Tokens}
    (hh : Head a b c rules.length) (hm : Counts m k) (hlt : words.length < k) :
    Awaits (a :: b :: c :: v :: t :: (rules ++ [s] :: m :: words)) .word

/-- The item does not stand at the front of the tokens, which is told by the error. Words need not
be counted. -/
inductive Fault : Item → Tokens → Error → Prop
  | missing {item : Item} (h : item ≠ .wordCount) : Fault item [] (.missing item)
  | notCount {item : Item} {t : List Char} {rest : Tokens}
    (hi : item ∈ [.nonterminalCount,.terminalCount,.ruleCount,.wordCount])
    (h : ∀ n, ¬Counts t n) : Fault item (t :: rest) (.notCount item t)
  | longStart {t : List Char} {rest : Tokens} (h : ∀ c, t ≠ [c]) :
    Fault .start (t :: rest) (.longStart t)

/-- The error tells the first token that is missing or out of place. -/
def FirstFault (ts : Tokens) (e : Error) : Prop :=
  ∃ before rest item, ts = before ++ rest ∧ Awaits before item ∧ Fault item rest e

variable {item : Item} {ts rest : Tokens} {t a b c v : List Char} {n : Nat} {e : Error}

/-! ## Every text is in the format or has a fault -/

theorem counts_or_fault (hi : item ∈ [.nonterminalCount,.terminalCount,.ruleCount,.wordCount])
    (t : List Char) (rest : Tokens) : (∃ n, Counts t n) ∨ ∃ e, Fault item (t :: rest) e := by
  by_cases h : ∃ n, Counts t n
  · exact Or.inl h
  · exact Or.inr ⟨_,.notCount hi fun n hn => h ⟨n,hn⟩⟩

theorem token_or_fault (hi : item ≠ .wordCount) (ts : Tokens) :
    (∃ t rest, ts = t :: rest) ∨ ∃ e, Fault item ts e := by
  cases ts with
  | nil => exact Or.inr ⟨_,.missing hi⟩
  | cons t rest => exact Or.inl ⟨t,rest,rfl⟩

theorem start_or_fault (ts : Tokens) :
    (∃ s rest, ts = [s] :: rest) ∨ ∃ e, Fault .start ts e := by
  cases ts with
  | nil => exact Or.inr ⟨_,.missing (by decide)⟩
  | cons t rest =>
    by_cases h : ∃ s, t = [s]
    · obtain ⟨s,rfl⟩ := h
      exact Or.inl ⟨s,rest,rfl⟩
    · exact Or.inr ⟨_,.longStart fun s hs => h ⟨s,hs⟩⟩

/-- A number of tokens is there or ends with the text. -/
theorem exists_split_or_short (n : Nat) (ts : Tokens) :
    (∃ front rest, ts = front ++ rest ∧ front.length = n) ∨ ts.length < n := by
  by_cases h : n ≤ ts.length
  · exact Or.inl ⟨ts.take n,ts.drop n,(List.take_append_drop n ts).symm,List.length_take_of_le h⟩
  · exact Or.inr (Nat.not_le.mp h)

theorem written_or_fault (ts : Tokens) : (∃ d, Written ts d) ∨ ∃ e, FirstFault ts e := by
  by_contra! hnone
  obtain ⟨hunwritten,hsound⟩ := hnone
  have hfaultless : ∀ {before r item}, ts = before ++ r → Awaits before item →
      ¬∃ e, Fault item r e := by
    rintro before r item hts ha ⟨e,he⟩
    exact hsound e ⟨before,r,item,hts,ha,he⟩
  obtain ⟨a,ts₁,hts⟩ := (token_or_fault (by decide) ts).resolve_right
    (hfaultless rfl .nonterminalCount)
  obtain ⟨x,ha⟩ := (counts_or_fault (by decide) a ts₁).resolve_right
    (hfaultless hts .nonterminalCount)
  obtain ⟨b,ts₂,rfl⟩ := (token_or_fault (by decide) ts₁).resolve_right
    (hfaultless hts (.terminalCount ha))
  obtain ⟨y,hb⟩ := (counts_or_fault (by decide) b ts₂).resolve_right
    (hfaultless hts (.terminalCount ha))
  obtain ⟨c,ts₃,rfl⟩ := (token_or_fault (by decide) ts₂).resolve_right
    (hfaultless hts (.ruleCount ha hb))
  obtain ⟨n,hc⟩ := (counts_or_fault (by decide) c ts₃).resolve_right
    (hfaultless hts (.ruleCount ha hb))
  have hh : Head a b c n := ⟨⟨x,ha⟩,⟨y,hb⟩,hc⟩
  obtain ⟨v,ts₄,rfl⟩ := (token_or_fault (by decide) ts₃).resolve_right
    (hfaultless hts (.nonterminals hh))
  obtain ⟨t,ts₅,rfl⟩ := (token_or_fault (by decide) ts₄).resolve_right
    (hfaultless hts (.terminals hh))
  obtain ⟨rules,ts₆,rfl,rfl⟩ := (exists_split_or_short n ts₅).resolve_right fun hlt =>
    hfaultless (r := []) (by simpa using hts) (.rule hh hlt) ⟨_,.missing (by decide)⟩
  obtain ⟨s,ending,rfl⟩ := (start_or_fault ts₆).resolve_right (hfaultless hts (.start hh))
  cases ending with
  | nil => exact hunwritten ⟨v,t,some s,rules,[]⟩ (hts ▸ .intro hh .absent)
  | cons m ts₇ =>
    have hwords : ts = (a :: b :: c :: v :: t :: (rules ++ [[s]])) ++ m :: ts₇ := by
      simpa using hts
    obtain ⟨k,hm⟩ := (counts_or_fault (by decide) m ts₇).resolve_right
      (hfaultless hwords (.wordCount hh))
    obtain ⟨words,more,rfl,rfl⟩ := (exists_split_or_short k ts₇).resolve_right fun hlt =>
      hfaultless (r := []) (by simpa using hts) (.word hh hm hlt) ⟨_,.missing (by decide)⟩
    exact hunwritten ⟨v,t,some s,rules,words⟩ (hts ▸ .intro hh (.counted hm more))

/-! ## What is read -/

theorem count_of_counts (h : Counts t n) : count item (t :: ts) = .ok (n,ts) := by
  rw [count, Text.count_eq_some.mpr h]

theorem many_append (item : Item) (front rest : Tokens) :
    many item front.length (front ++ rest) = .ok (front,rest) := by
  rw [many, if_pos (by simp), List.splitAt_eq, List.take_left, List.drop_left]

theorem many_short (h : ts.length < n) : many item n ts = .error (.missing item) :=
  if_neg (Nat.not_le.mpr h)

theorem Fault.count (h : Fault item ts e)
    (hi : item ∈ [.nonterminalCount,.terminalCount,.ruleCount,.wordCount]) :
    Plain.count item ts = .error e := by
  cases h with
  | missing => rfl
  | notCount _ hn => rw [Plain.count, Text.count_eq_none.mpr hn]
  | longStart => simp at hi

theorem Fault.one (h : Fault item ts e) (hi : item = .nonterminals ∨ item = .terminals) :
    Plain.one item ts = .error e := by
  cases h with
  | missing => rfl
  | notCount hc => rcases hi with rfl | rfl <;> simp at hc
  | longStart => simp at hi

theorem words_of_listing {ending words : Tokens} (h : Listing ending words) :
    Plain.words ending = .ok words := by
  cases h with
  | absent => rfl
  | @counted m words hm more =>
    change Plain.count .wordCount (m :: (words ++ more)) >>= _ = _
    rw [count_of_counts hm]
    change many .word words.length (words ++ more) >>= _ = _
    rw [many_append]
    rfl

theorem words_of_fault {ending : Tokens} (h : Fault .wordCount ending e) :
    words ending = .error e := by
  cases ending with
  | nil =>
    cases h with
    | missing h => exact absurd rfl h
  | cons m rest =>
    change Plain.count .wordCount (m :: rest) >>= _ = _
    rw [h.count (by decide)]
    rfl

theorem words_of_short {m : List Char} {k : Nat} (hm : Counts m k) (hlt : ts.length < k) :
    words (m :: ts) = .error (.missing .word) := by
  change count .wordCount (m :: ts) >>= _ = _
  rw [count_of_counts hm]
  change many .word k ts >>= _ = _
  rw [many_short hlt]
  rfl

/-- What is read of the header after the counts. -/
def names (n : Nat) (ts : Tokens) : Except Error (Header × Tokens) := do
  let (nonterminals, ts) ← one .nonterminals ts
  let (terminals, ts) ← one .terminals ts
  return (⟨n, nonterminals, terminals⟩, ts)

theorem header_of_counts (hh : Head a b c n) (ts : Tokens) :
    header (a :: b :: c :: ts) = names n ts := by
  obtain ⟨⟨x,ha⟩,⟨y,hb⟩,hc⟩ := hh
  rw [header, count_of_counts ha]
  change count .terminalCount (b :: c :: ts) >>= _ = _
  rw [count_of_counts hb]
  change count .ruleCount (c :: ts) >>= _ = _
  rw [count_of_counts hc]
  rfl

/-- What is read after the header. -/
def body (head : Header) (ts : Tokens) : Except Error Description := do
  let (rules, ts) ← many .rule head.ruleCount ts
  let (start, ts) ← one .start ts
  match start with
  | [c] => return ⟨head.nonterminals, head.terminals, some c, rules, ← words ts⟩
  | _ => .error (.longStart start)

theorem ofTokens_of_head (hh : Head a b c n) (v t : List Char) (ts : Tokens) :
    ofTokens (a :: b :: c :: v :: t :: ts) = body ⟨n,v,t⟩ ts := by
  rw [ofTokens, header_of_counts hh]
  rfl

theorem ofTokens_of_header (h : header ts = .error e) : ofTokens ts = .error e := by
  rw [ofTokens, h]
  rfl

theorem body_of_rules (v t : List Char) (rules : Tokens) (s : Char) (ending : Tokens) :
    body ⟨rules.length,v,t⟩ (rules ++ [s] :: ending) =
      (words ending).map fun ws => ⟨v,t,some s,rules,ws⟩ := by
  rw [body, many_append]
  change words ending >>= _ = _
  cases words ending <;> rfl

theorem body_of_fault {rules : Tokens} (h : Fault .start ts e) :
    body ⟨rules.length,v,t⟩ (rules ++ ts) = .error e := by
  rw [body, many_append]
  cases h with
  | missing => rfl
  | notCount hi => simp at hi
  | @longStart start rest hlong =>
    change (match start with | [c] => _ | _ => _) = _
    split
    · next c => exact absurd rfl (hlong c)
    · rfl

theorem ofTokens_of_written {d : Description} (h : Written ts d) : ofTokens ts = .ok d := by
  obtain ⟨hh,hl⟩ := h
  rw [ofTokens_of_head hh, body_of_rules, words_of_listing hl]
  rfl

theorem ofTokens_of_fault (h : FirstFault ts e) : ofTokens ts = .error e := by
  obtain ⟨before,rest,item,rfl,ha,he⟩ := h
  cases ha with
  | nonterminalCount =>
    refine ofTokens_of_header ?_
    rw [List.nil_append, header, he.count (by decide)]
    rfl
  | @terminalCount a x ha =>
    refine ofTokens_of_header ?_
    rw [List.singleton_append, header, count_of_counts ha]
    change count .terminalCount rest >>= _ = _
    rw [he.count (by decide)]
    rfl
  | @ruleCount a b x y ha hb =>
    refine ofTokens_of_header ?_
    rw [List.cons_append, header, count_of_counts ha]
    change count .terminalCount (b :: rest) >>= _ = _
    rw [count_of_counts hb]
    change count .ruleCount rest >>= _ = _
    rw [he.count (by decide)]
    rfl
  | nonterminals hh =>
    refine ofTokens_of_header ((header_of_counts hh rest).trans ?_)
    rw [names, he.one (Or.inl rfl)]
    rfl
  | @terminals a b c v n hh =>
    refine ofTokens_of_header ((header_of_counts hh (v :: rest)).trans ?_)
    change one .terminals rest >>= _ = _
    rw [he.one (Or.inr rfl)]
    rfl
  | @rule a b c v t n rules hh hlt =>
    refine (ofTokens_of_head hh v t (rules ++ rest)).trans ?_
    cases he with
    | missing =>
      rw [List.append_nil, body, many_short hlt]
      rfl
    | notCount hi => simp at hi
  | start hh => exact (ofTokens_of_head hh _ _ _).trans (body_of_fault he)
  | @wordCount a b c v t s rules hh =>
    have hrest : a :: b :: c :: v :: t :: (rules ++ [[s]]) ++ rest =
        a :: b :: c :: v :: t :: (rules ++ [s] :: rest) := by simp
    rw [hrest, ofTokens_of_head hh, body_of_rules, words_of_fault he]
    rfl
  | word hh hm hlt =>
    cases he with
    | missing =>
      rw [List.append_nil, ofTokens_of_head hh, body_of_rules, words_of_short hm hlt]
      rfl
    | notCount hi => simp at hi

theorem ofTokens_eq_ok {d : Description} : ofTokens ts = .ok d ↔ Written ts d := by
  refine ⟨fun h => ?_,ofTokens_of_written⟩
  obtain ⟨k,hk⟩ | ⟨e,he⟩ := written_or_fault ts
  · cases h.symm.trans (ofTokens_of_written hk)
    exact hk
  · cases h.symm.trans (ofTokens_of_fault he)

theorem ofTokens_eq_error : ofTokens ts = .error e ↔ FirstFault ts e := by
  refine ⟨fun h => ?_,ofTokens_of_fault⟩
  obtain ⟨k,hk⟩ | ⟨e,he⟩ := written_or_fault ts
  · cases h.symm.trans (ofTokens_of_written hk)
  · cases h.symm.trans (ofTokens_of_fault he)
    exact he

/-! ## Texts that announce too many rules -/

theorem bind_eq_ok {α β : Type} {x : Except Error α} {f : α → Except Error β} {y : β} :
    x >>= f = .ok y ↔ ∃ z, x = .ok z ∧ f z = .ok y := by
  cases x <;> simp [bind, Except.bind]

theorem count_eq_ok {p : Nat × Tokens} :
    count item ts = .ok p ↔ ∃ t, ts = t :: p.2 ∧ Counts t p.1 := by
  constructor
  · intro h
    unfold count at h
    split at h
    · cases h
    · split at h
      · next hc =>
        cases h
        exact ⟨_,rfl,Text.count_eq_some.mp hc⟩
      · cases h
  · rintro ⟨t,rfl,ht⟩
    exact count_of_counts ht

theorem one_eq_ok {p : List Char × Tokens} : one item ts = .ok p ↔ ts = p.1 :: p.2 := by
  cases ts with
  | nil => simp [one]
  | cons t ts => simp [one, Prod.ext_iff, eq_comm]

theorem header_eq_ok {head : Header} : header ts = .ok (head,rest) ↔
    ∃ a b c, Head a b c head.ruleCount ∧
      ts = a :: b :: c :: head.nonterminals :: head.terminals :: rest := by
  constructor
  · intro h
    simp only [header, bind_eq_ok, count_eq_ok, one_eq_ok] at h
    obtain ⟨_,⟨a,rfl,ha⟩,_,⟨b,hb,hcb⟩,_,⟨c,hc,hcc⟩,_,hv,_,ht,he⟩ := h
    cases he
    exact ⟨a,b,c,⟨⟨_,ha⟩,⟨_,hcb⟩,hcc⟩,by rw [hb, hc, hv, ht]⟩
  · rintro ⟨a,b,c,hh,rfl⟩
    rw [header_of_counts hh]
    rfl

theorem overfull_iff {cs : List Char} : overfull cs = true ↔ Overfull (Text.tokens cs) := by
  unfold overfull
  generalize Text.tokens cs = ts
  constructor
  · intro h
    split at h
    · next head rest hok =>
      obtain ⟨a,b,c,hh,rfl⟩ := header_eq_ok.mp hok
      exact .intro hh (of_decide_eq_true h)
    · cases h
  · rintro ⟨hh,hn⟩
    rw [header_of_counts hh]
    exact decide_eq_true hn

/-! ## Descriptions as texts -/

/-- The tokens of a description, which come without a number of words if there are none. -/
def render (d : Description) : Tokens :=
  decimal d.nonterminals.length :: decimal d.terminals.length :: decimal d.rules.length ::
    d.nonterminals :: d.terminals :: (d.rules ++ d.start.toList.map ([·]) ++
      if d.words.isEmpty then [] else decimal d.words.length :: d.words)

/-- The strings of a description are tokens, and its lists are no longer than counts can tell. -/
structure Renderable (d : Description) : Prop where
  start : ∃ s, d.start = some s ∧ Text.isBlank s = false
  nonterminals : IsToken d.nonterminals ∧ d.nonterminals.length < Text.wordBound
  terminals : IsToken d.terminals ∧ d.terminals.length < Text.wordBound
  rules : (∀ t ∈ d.rules, IsToken t) ∧ d.rules.length < Text.wordBound
  words : (∀ t ∈ d.words, IsToken t) ∧ d.words.length < Text.wordBound

namespace Renderable

variable {d : Description}

theorem isToken (hd : Renderable d) : ∀ t ∈ render d, IsToken t := by
  obtain ⟨s,hs,hblank⟩ := hd.start
  have hstart : IsToken [s] := ⟨by simp,by simpa using hblank⟩
  have hwords : ∀ t ∈ (if d.words.isEmpty then [] else decimal d.words.length :: d.words),
      IsToken t := by
    split
    · simp
    · exact List.forall_mem_cons.mpr ⟨Text.isToken_decimal _,hd.words.1⟩
  simp only [render, hs, List.forall_mem_cons, List.forall_mem_append]
  refine ⟨Text.isToken_decimal _,Text.isToken_decimal _,Text.isToken_decimal _,hd.nonterminals.1,
    hd.terminals.1,⟨hd.rules.1,?_⟩,hwords⟩
  simpa using hstart

theorem written (hd : Renderable d) : Written (render d) d := by
  obtain ⟨s,hs,_⟩ := hd.start
  have hh : Head (decimal d.nonterminals.length) (decimal d.terminals.length)
      (decimal d.rules.length) d.rules.length :=
    ⟨⟨_,Text.counts_decimal hd.nonterminals.2⟩,⟨_,Text.counts_decimal hd.terminals.2⟩,
      Text.counts_decimal hd.rules.2⟩
  have hcount := Text.counts_decimal hd.words.2
  obtain ⟨nonterminals,terminals,start,rules,words⟩ := d
  cases hs
  have hl : Listing (if words.isEmpty then [] else decimal words.length :: words) words := by
    cases words with
    | nil => exact .absent
    | cons w words =>
      have hcounted := Listing.counted hcount []
      rwa [List.append_nil] at hcounted
  simpa [render] using Written.intro (v := nonterminals) (t := terminals) (s := s) hh hl

end Renderable

/-- A text is read as the description that it is written as, in whatever way its blanks are set. It
is refused for the first of its tokens that is missing or out of place, and every description whose
strings are tokens can be written. -/
theorem read_plain (cs : List Char) :
    (∀ ts, Text.tokens cs = ts ↔ (∀ t ∈ ts, IsToken t) ∧ Spaced ts cs) ∧
    (∀ d, read cs = .ok d ↔ Written (Text.tokens cs) d) ∧
    (∀ d, Renderable d → Spaced (render d) cs → read cs = .ok d) ∧
    ∀ e, read cs = .error e ↔ FirstFault (Text.tokens cs) e := by
  refine ⟨fun ts => Text.tokens_eq_iff,fun d => ofTokens_eq_ok,fun d hd hj => ?_,
    fun e => ofTokens_eq_error⟩
  have htokens := Text.tokens_eq_iff.mpr ⟨hd.isToken,hj⟩
  rw [read, htokens]
  exact ofTokens_of_written hd.written

/-- The balanced words over two letters, one of which is asked for. -/
def balanced : Description where
  nonterminals := ['S']
  terminals := ['a','b']
  start := some 'S'
  rules := ["S->aSbS".toList,"S->".toList]
  words := ["aabb".toList]

def balancedText : List Char := "1\t2 2\n\nS ab\n S->aSbS S->\r\nS\n1 aabb".toList

theorem read_plain_balanced : Renderable balanced ∧ Spaced (render balanced) balancedText ∧
    read balancedText = .ok balanced := by
  obtain ⟨htokens,hj⟩ := Text.tokens_eq_iff.mp
    (show Text.tokens balancedText = render balanced by decide)
  have hrules : balanced.rules ⊆ render balanced := fun t ht => by simp [render, ht]
  have hwords : balanced.words ⊆ render balanced := by simp [render, balanced]
  have hd : Renderable balanced :=
    ⟨⟨'S',rfl,by decide⟩,⟨htokens _ (by simp [render]),by decide⟩,
      ⟨htokens _ (by simp [render]),by decide⟩,⟨fun t ht => htokens t (hrules ht),by decide⟩,
      ⟨fun t ht => htokens t (hwords ht),by decide⟩⟩
  exact ⟨hd,hj,(read_plain balancedText).2.2.1 balanced hd hj⟩

end WordProblem.Description.Plain
