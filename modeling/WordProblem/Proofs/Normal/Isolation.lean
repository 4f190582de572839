import Mathlib.Data.Set.Function
import WordProblem.Proofs.Normal.Splitting

/-! # Isolated terminals by themselves

Proxies are taken alone, for every grammar that declarations and passes lead to. One proxy serves a
terminal wherever it stands, so the number of terminals beside other symbols alone decides whether
the pass succeeds. Rule by rule nothing but terminals changes: left sides and lengths stay, and no
two rules become one.
-/
namespace WordProblem.Grammar

variable {g : Grammar}

theorem isolateTerminals_eq_error {e : NormalFormError} : g.isolateTerminals = .error e ↔
    e = .outOfNonterminals ∧ g.unused.length < g.mixedTerminals.length := by
  rw [isolateTerminals_eq]
  split
  · next hfull => simp [hfull, eq_comm]
  · next hroom => simp [hroom]

theorem mem_isolated_of_short {r : Rule} (hr : r ∈ g.rules) (hshort : r.rhs.length < 2) :
    r ∈ g.isolated.rules := by
  have hsame : r.isolate g.proxies = r := by simp [Rule.isolate, hshort]
  rw [← hsame]
  exact isolate_mem_isolated hr

/-- The rules of declared non-terminals are those of the grammar with their terminals replaced. -/
theorem isolate_bijOn (hg : g.WellFormed) : Set.BijOn (·.isolate g.proxies) {r | r ∈ g.rules}
    {r | r ∈ g.isolated.rules ∧ r.lhs ∈ g.nonterminals} := by
  refine ⟨?_,?_,?_⟩
  · intro r hr
    have hl := hg.lhs_declared r hr
    exact ⟨isolate_mem_isolated hr,by simpa using hl⟩
  · intro r hr q hq he
    exact isolate_inj hg hr hq he
  · rintro q ⟨hq,hl⟩
    rcases mem_isolated_rules.mp hq with ⟨r,hr,rfl⟩ | ⟨c,a,hp,rfl⟩
    · exact ⟨r,hr,rfl⟩
    · exact absurd hl (not_declared_of_mem_take (proxy_fresh hp))

/-- Isolation fails just if more terminals stand beside other symbols than there are vacant
non-terminals. Otherwise longer right sides hold non-terminals only, shorter ones stay as they are,
and every rule keeps its left side and its length, every declared non-terminal its language. -/
theorem isolateTerminals_language (hg : g.Built) :
    (∀ e, g.isolateTerminals = .error e ↔
      e = .outOfNonterminals ∧ g.vacant.card < g.mixed.card) ∧
    (g.mixed.card ≤ g.vacant.card → ∃ h, g.isolateTerminals = .ok h ∧
      (∀ r ∈ h.rules, 2 ≤ r.rhs.length → ∀ s ∈ r.rhs, ∃ a, s = .nonterminal a) ∧
      (∀ r ∈ g.rules, r.rhs.length < 2 → r ∈ h.rules) ∧
      (∃ image : Rule → Rule, Set.BijOn image {r | r ∈ g.rules}
          {r | r ∈ h.rules ∧ r.lhs ∈ g.nonterminals} ∧
        ∀ r, (image r).lhs = r.lhs ∧ (image r).rhs.length = r.rhs.length) ∧
      ∀ a ∈ g.nonterminals, ∀ w, h.Generates a w ↔ g.Generates a w) := by
  have hw := hg.wellFormed
  rw [card_vacant hw, ← length_mixedTerminals]
  constructor
  · intro e
    exact isolateTerminals_eq_error
  · intro hroom
    refine ⟨g.isolated,isolateTerminals_eq_ok.mpr ⟨hroom,rfl⟩,?_,?_,?_,?_⟩
    · intro r hr hlong s hs
      exact isolated_shape hroom hr hlong hs
    · intro r hr hshort
      exact mem_isolated_of_short hr hshort
    · exact ⟨(·.isolate g.proxies),isolate_bijOn hw,fun r => by simp⟩
    · intro a ha w
      exact generates_isolated hw fun hproxy => not_declared_of_mem_take hproxy ha

theorem isolateTerminals_language_palindromes :
    palindromes.mixed.card = palindromes.vacant.card ∧
    (∃ h, palindromes.isolateTerminals = .ok h ∧ ⟨'S',[.terminal 'a']⟩ ∈ h.rules ∧
      ⟨'S',[.nonterminal 'A',.nonterminal 'S',.nonterminal 'A']⟩ ∈ h.rules ∧
      ∀ w, h.Generates 'S' w ↔ palindromes.Generates 'S' w) ∧
    crowdedPalindromes.vacant.card < crowdedPalindromes.mixed.card := by
  have hroom : palindromes.mixed.card = palindromes.vacant.card := by decide
  have hcrowded : crowdedPalindromes.Built :=
    palindromes_built.declare (d := .nonterminal 'A') (by decide)
  obtain ⟨_,hok⟩ := isolateTerminals_language palindromes_built
  obtain ⟨h,hh,_,hkept,_,hwords⟩ := hok hroom.le
  obtain ⟨hfail,_⟩ := isolateTerminals_language hcrowded
  have hfull := (hfail .outOfNonterminals).mp (by decide +kernel)
  refine ⟨hroom,⟨h,hh,hkept _ (by decide) (by decide),?_,hwords 'S' (by decide)⟩,hfull.2⟩
  obtain ⟨_,rfl⟩ := isolateTerminals_eq_ok.mp hh
  decide +kernel

end WordProblem.Grammar
