import WordProblem.Proofs.Normal.Capacity

/-! # Shorter right sides by themselves

Chains are taken alone, for every grammar that declarations and passes lead to and with terminals
wherever they stand. What they take from the alphabet is counted by the symbols that right sides
have too many, so the count alone decides whether the pass succeeds. Rules that are short already
stay as they are.
-/
namespace WordProblem.Grammar

variable {g : Grammar}

/-- The non-terminals of the alphabet that are not declared. -/
def vacant (g : Grammar) : Finset Char := g.alphabet.nonterminals.toFinset \ g.nonterminals.toFinset

theorem card_vacant (hg : g.WellFormed) : g.vacant.card = g.unused.length := by
  rw [← List.toFinset_card_of_nodup hg.nodup_unused]
  congr 1
  ext c
  simp [vacant, mem_unused]

theorem splitLong_eq_error {e : NormalFormError} : g.splitLong = .error e ↔
    e = .outOfNonterminals ∧ g.unused.length < surplus g.rules := by
  rw [splitLong_eq]
  split
  · next hfull => simp [hfull, eq_comm]
  · next hroom => simp [hroom]

theorem mem_split_of_short {r : Rule} (hr : r ∈ g.rules) (hshort : r.rhs.length ≤ 2) :
    r ∈ g.split.rules := by
  obtain ⟨links,hchain⟩ := exists_chain_subset g.rules g.links hr
  rw [chain_of_short hshort links] at hchain
  exact mem_split_rules.mpr (hchain r List.mem_cons_self)

/-- Splitting fails just if right sides have more symbols too many than there are vacant
non-terminals. Otherwise it leaves right sides of at most two symbols, the rules that had them, and
all languages. -/
theorem splitLong_language (hg : g.Built) :
    (∀ e, g.splitLong = .error e ↔ e = .outOfNonterminals ∧ g.vacant.card < g.excess) ∧
    (g.excess ≤ g.vacant.card → ∃ h, g.splitLong = .ok h ∧
      (∀ r ∈ h.rules, r.rhs.length ≤ 2) ∧
      (∀ r ∈ g.rules, r.rhs.length ≤ 2 → r ∈ h.rules) ∧
      ∀ a ∈ g.nonterminals, ∀ w, h.Generates a w ↔ g.Generates a w) := by
  have hw := hg.wellFormed
  rw [card_vacant hw, ← surplus_eq_excess]
  constructor
  · intro e
    exact splitLong_eq_error
  · intro hroom
    refine ⟨g.split,splitLong_eq_ok.mpr ⟨hroom,rfl⟩,?_,?_,?_⟩
    · intro r hr
      exact split_length hroom hr
    · intro r hr hshort
      exact mem_split_of_short hr hshort
    · intro a ha w
      exact generates_split hw hroom fun hlink => not_declared_of_mem_take hlink ha

/-- Words that read the same from both ends. Splitting takes all that is left of the alphabet. -/
def palindromes : Grammar where
  alphabet := ⟨['S','A','B'],['a','b']⟩
  nonterminals := ['S']
  terminals := ['a','b']
  rules := [⟨'S',[]⟩,⟨'S',[.terminal 'a']⟩,⟨'S',[.terminal 'a',.nonterminal 'S',.terminal 'a']⟩,
    ⟨'S',[.terminal 'b']⟩,⟨'S',[.terminal 'b',.nonterminal 'S',.terminal 'b']⟩]

theorem palindromes_built : palindromes.Built := by
  have hchosen : palindromes.alphabet.Chosen := ⟨some (['S','A','B'],['a','b']),by decide⟩
  have hd : (empty palindromes.alphabet).declareAll [.nonterminal 'S',.terminal 'a',.terminal 'b',
      .rule 'S' [],.rule 'S' ['a'],.rule 'S' ['b'],.rule 'S' ['a','S','a'],
      .rule 'S' ['b','S','b']] = .ok palindromes := by decide
  exact (Built.empty hchosen).declareAll hd

/-- One declaration more and there are too few non-terminals left. -/
def crowdedPalindromes : Grammar := { palindromes with nonterminals := ['A','S'] }

theorem splitLong_language_palindromes : palindromes.excess = palindromes.vacant.card ∧
    (∃ h, palindromes.splitLong = .ok h ∧ ⟨'S',[.terminal 'a']⟩ ∈ h.rules ∧
      ∀ w, h.Generates 'S' w ↔ palindromes.Generates 'S' w) ∧
    crowdedPalindromes.vacant.card < crowdedPalindromes.excess := by
  have hroom : palindromes.excess = palindromes.vacant.card := by decide
  have hcrowded : crowdedPalindromes.Built :=
    palindromes_built.declare (d := .nonterminal 'A') (by decide)
  obtain ⟨_,hok⟩ := splitLong_language palindromes_built
  obtain ⟨h,hh,_,hkept,hwords⟩ := hok hroom.le
  obtain ⟨hfail,_⟩ := splitLong_language hcrowded
  have hfull := (hfail .outOfNonterminals).mp (by decide +kernel)
  exact ⟨hroom,⟨h,hh,hkept _ (by decide) (by decide),hwords 'S' (by decide)⟩,hfull.2⟩

end WordProblem.Grammar
