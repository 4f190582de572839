import WordProblem.Grammar.History
import WordProblem.Proofs.Ascending

/-! # Declarations keep grammars well formed

Each declaration is described by what it leaves when it is not refused. A chosen alphabet lists no
character twice, and a grammar that begins over it stays well formed.
-/
namespace WordProblem

theorem nodup_eraseDups (l : List Char) : l.eraseDups.Nodup := by
  induction hn : l.length using Nat.strong_induction_on generalizing l with
  | _ n ih =>
    cases l with
    | nil => exact List.nodup_nil
    | cons a l =>
      rw [List.eraseDups_cons]
      have hlen := List.length_filter_le (fun b => !b == a) l
      simp only [List.length_cons] at hn
      refine List.nodup_cons.mpr ⟨?_,ih _ (by omega) _ rfl⟩
      simp [List.mem_eraseDups]

/-- A run over a list that does not fail has a result for each member. -/
theorem forall₂_of_mapM {α β ε : Type} {f : α → Except ε β} {l : List α} {results : List β}
    (h : l.mapM f = .ok results) : List.Forall₂ (fun a b => f a = .ok b) l results := by
  induction l generalizing results with
  | nil =>
    cases h
    exact .nil
  | cons a l ih =>
    rw [List.mapM_cons] at h
    cases hb : f a with
    | error e =>
      rw [hb] at h
      cases h
    | ok b =>
      cases hrest : l.mapM f with
      | error e =>
        rw [hb, hrest] at h
        cases h
      | ok rest =>
        rw [hb, hrest] at h
        cases h
        exact .cons hb (ih hrest)

theorem Alphabet.Chosen.wellFormed {a : Alphabet} (h : a.Chosen) : a.WellFormed := by
  obtain ⟨_ | ⟨nonterminals,terminals⟩,h⟩ := h
  · cases h
    have hall : standard.nonterminals.all (!standard.terminals.contains ·) = true := by decide
    refine ⟨by decide,by decide,fun c hc => ?_⟩
    simpa using List.all_eq_true.mp hall c hc
  · simp only [choose, ofLists] at h
    split at h
    · cases h
    · next hnone =>
      cases h
      refine ⟨nodup_eraseDups _,nodup_eraseDups _,fun c hc ht => ?_⟩
      have hc := List.mem_eraseDups.mp hc
      have ht := List.mem_eraseDups.mp ht
      exact List.find?_eq_none.mp hnone c ht (List.contains_iff_mem.mpr hc)

namespace Grammar

variable {g h : Grammar}

theorem declareNonterminal_eq_ok {c : Char} : g.declareNonterminal c = .ok h ↔
    c ∈ g.alphabet.nonterminals ∧ h = { g with nonterminals := Ascending.insert c g.nonterminals } := by
  unfold declareNonterminal Alphabet.hasNonterminal
  split <;> simp_all [eq_comm]

theorem declareTerminal_eq_ok {c : Char} : g.declareTerminal c = .ok h ↔
    c ∈ g.alphabet.terminals ∧ h = { g with terminals := Ascending.insert c g.terminals } := by
  unfold declareTerminal Alphabet.hasTerminal
  split <;> simp_all [eq_comm]

theorem setStart_eq_ok {c : Char} :
    g.setStart c = .ok h ↔ c ∈ g.nonterminals ∧ h = { g with start := c } := by
  unfold setStart
  split <;> simp_all [eq_comm]

theorem addRule_eq_ok {lhs : Char} {rhs : List Char} : g.addRule lhs rhs = .ok h ↔
    lhs ∈ g.nonterminals ∧ ∃ symbols, rhs.mapM g.symbol = .ok symbols ∧
      h = { g with rules := Ascending.insert ⟨lhs,symbols⟩ g.rules } := by
  unfold addRule
  split
  · next hl =>
    cases hs : rhs.mapM g.symbol with
    | error e => simp [bind, Except.bind]
    | ok symbols => simp [bind, Except.bind, pure, Except.pure, hl, eq_comm]
  · next hl => simp [hl]

theorem addRuleText_eq_ok {text : List Char} : g.addRuleText text = .ok h ↔
    ∃ lhs rhs, text = lhs :: '-' :: '>' :: rhs ∧ g.addRule lhs rhs = .ok h := by
  unfold addRuleText
  split
  · next lhs rhs =>
    constructor
    · intro hr
      exact ⟨lhs,rhs,rfl,hr⟩
    · rintro ⟨_,_,he,hr⟩
      cases he
      exact hr
  · next hne =>
    constructor
    · intro hr
      cases hr
    · rintro ⟨lhs,rhs,rfl,_⟩
      exact absurd rfl (hne lhs rhs)

theorem symbol_declared {c : Char} {s : Symbol} (hs : g.symbol c = .ok s) : g.Declares s := by
  unfold symbol at hs
  split at hs
  · next hc => cases hs; exact hc
  · split at hs
    · next hc => cases hs; exact hc
    · cases hs

theorem mapM_symbol_declared {rhs : List Char} {symbols : List Symbol}
    (h : rhs.mapM g.symbol = .ok symbols) : ∀ s ∈ symbols, g.Declares s := by
  have hall := forall₂_of_mapM h
  clear h
  induction hall with
  | nil => simp
  | cons hs _ ih =>
    intro t hmem
    rcases List.mem_cons.mp hmem with rfl | hmem
    · exact symbol_declared hs
    · exact ih t hmem

theorem Declares.mono {s : Symbol} (hs : g.Declares s)
    (hn : ∀ c ∈ g.nonterminals, c ∈ h.nonterminals) (ht : ∀ c ∈ g.terminals, c ∈ h.terminals) :
    h.Declares s := by
  cases s with
  | terminal c => exact ht c hs
  | nonterminal c => exact hn c hs

theorem wellFormed_empty {a : Alphabet} (h : a.Chosen) : (empty a).WellFormed where
  alphabet := h.wellFormed
  nonterminals_ascending := .nil
  nonterminals_subset := by simp [empty]
  terminals_ascending := .nil
  terminals_subset := by simp [empty]
  rules_ascending := .nil
  lhs_declared := by simp [empty]
  rhs_declared := by simp [empty]

namespace WellFormed

theorem declareNonterminal (hg : g.WellFormed) {c : Char} (hd : g.declareNonterminal c = .ok h) :
    h.WellFormed := by
  obtain ⟨hc,rfl⟩ := declareNonterminal_eq_ok.mp hd
  have hmore : ∀ b ∈ g.nonterminals, b ∈ Ascending.insert c g.nonterminals :=
    fun b hb => Ascending.mem_insert.mpr (Or.inr hb)
  refine { hg with
    nonterminals_ascending := Ascending.pairwise_insert c hg.nonterminals_ascending
    nonterminals_subset := fun b hb => ?_
    lhs_declared := fun r hr => hmore _ (hg.lhs_declared r hr)
    rhs_declared := fun r hr s hs => ?_ }
  · rcases Ascending.mem_insert.mp hb with rfl | hb
    · exact hc
    · exact hg.nonterminals_subset b hb
  · exact (hg.rhs_declared r hr s hs).mono hmore fun _ ht => ht

theorem declareTerminal (hg : g.WellFormed) {c : Char} (hd : g.declareTerminal c = .ok h) :
    h.WellFormed := by
  obtain ⟨hc,rfl⟩ := declareTerminal_eq_ok.mp hd
  refine { hg with
    terminals_ascending := Ascending.pairwise_insert c hg.terminals_ascending
    terminals_subset := fun b hb => ?_
    rhs_declared := fun r hr s hs => ?_ }
  · rcases Ascending.mem_insert.mp hb with rfl | hb
    · exact hc
    · exact hg.terminals_subset b hb
  · have hmore : ∀ b ∈ g.terminals, b ∈ Ascending.insert c g.terminals :=
      fun b hb => Ascending.mem_insert.mpr (Or.inr hb)
    exact (hg.rhs_declared r hr s hs).mono (fun _ hb => hb) hmore

theorem addRule (hg : g.WellFormed) {lhs : Char} {rhs : List Char}
    (hd : g.addRule lhs rhs = .ok h) : h.WellFormed := by
  obtain ⟨hl,symbols,hs,rfl⟩ := addRule_eq_ok.mp hd
  refine { hg with
    rules_ascending := Ascending.pairwise_insert _ hg.rules_ascending
    lhs_declared := fun r hr => ?_
    rhs_declared := fun r hr => ?_ }
  · rcases Ascending.mem_insert.mp hr with rfl | hr
    · exact hl
    · exact hg.lhs_declared r hr
  · rcases Ascending.mem_insert.mp hr with rfl | hr
    · exact mapM_symbol_declared hs
    · exact hg.rhs_declared r hr

theorem setStart (hg : g.WellFormed) {c : Char} (hd : g.setStart c = .ok h) : h.WellFormed := by
  obtain ⟨_,rfl⟩ := setStart_eq_ok.mp hd
  exact { hg with }

theorem declare (hg : g.WellFormed) {d : Declaration} (hd : g.declare d = .ok h) :
    h.WellFormed := by
  cases d with
  | nonterminal c => exact hg.declareNonterminal hd
  | terminal c => exact hg.declareTerminal hd
  | rule lhs rhs => exact hg.addRule hd
  | ruleText text =>
    obtain ⟨lhs,rhs,_,hr⟩ := addRuleText_eq_ok.mp hd
    exact hg.addRule hr
  | start c => exact hg.setStart hd

end WellFormed

end Grammar

end WordProblem
