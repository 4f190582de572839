import WordProblem.Proofs.Normal.Passes

/-! # Scans of the rules

Two searches go through the rules of a grammar. The one for non-terminals with the empty word goes
through all of them, round after round, and a round uses what it has found itself; its rounds are
bounded by the number of non-terminals and its result does not depend on the order of the rules. The
one for the rules of a left side goes through a part of them only, which rule order keeps together.
-/
namespace WordProblem.Grammar

variable {g : Grammar}

/-! ## Non-terminals with the empty word -/

/-- One round more than there are non-terminals is enough, whatever the order of the rules in each
round, and what is found are the non-terminals with the empty word. -/
theorem nullable_exact (hg : g.Built) :
    generatorsBy (fun _ => false) (fun _ => g.rules) (g.nonterminals.length + 1) =
      some g.nullable ∧
    (∀ a, a ∈ g.nullable ↔ g.Generates a []) ∧
    ∀ order : Nat → List Rule, (∀ t, (order t).Perm g.rules) →
      ∃ known, generatorsBy (fun _ => false) order (g.nonterminals.length + 1) = some known ∧
        known.Nodup ∧ ∀ a, a ∈ known ↔ g.Generates a [] := by
  have hw := hg.wellFormed
  refine ⟨?_,fun a => mem_nullable hw,fun order horder => ?_⟩
  · obtain ⟨known,hknown,_,_⟩ := generatorsBy_stable hw (fun _ => false) fun _ _ => Iff.rfl
    rw [hknown, nullable, generators_of_generatorsBy hknown]
  · obtain ⟨known,hknown,hk,hstable⟩ := generatorsBy_stable hw (fun _ => false)
      fun t _ => (horder t).mem_iff
    exact ⟨known,hknown,hk.nodup,fun a => (hk.mem_iff hstable).trans exists_empty_word⟩

/-- Backwards the first round does not find `S`, so two rounds are not enough. -/
theorem nullable_exact_optional :
    (∀ t : Nat, ((fun _ => optional.rules.reverse) t).Perm optional.rules) ∧
    generatorsBy (fun _ => false) (fun _ => optional.rules.reverse) 2 = none ∧
    ∃ known, generatorsBy (fun _ => false) (fun _ => optional.rules.reverse) 4 = some known ∧
      known.Nodup ∧ ∀ a, a ∈ known ↔ optional.Generates a [] := by
  have hperm : ∀ t : Nat, ((fun _ => optional.rules.reverse) t).Perm optional.rules :=
    fun _ => List.reverse_perm _
  obtain ⟨_,_,hany⟩ := nullable_exact optional_built
  exact ⟨hperm,by decide,hany _ hperm⟩

/-! ## Rules of a left side -/

/-- Rules are ordered by their left sides, then by their right sides with terminals first, and
`c -> ε` is the least rule of `c`. So a scan that begins there and ends at the first other left side
finds all rules of `c`, each of them once and in their order. -/
theorem rulesOf_contiguous (hg : g.Built) (c : Char) :
    (IsStrictTotalOrder Rule (· < ·) ∧
      (∀ r q : Rule, r < q ↔ r.lhs < q.lhs ∨ r.lhs = q.lhs ∧ List.Lex (· < ·) r.rhs q.rhs) ∧
      (∀ a b : Char, Symbol.terminal a < Symbol.nonterminal b) ∧
      ∀ r : Rule, r.lhs = c → r = ⟨c,[]⟩ ∨ ⟨c,[]⟩ < r) ∧
    g.rulesOf c = g.rules.filter (·.lhs = c) ∧ (g.rulesOf c).Nodup ∧
    (g.rulesOf c).Pairwise (· < ·) ∧
    ∃ before after, g.rules = before ++ g.rulesOf c ++ after ∧
      (∀ r ∈ before, r < ⟨c,[]⟩) ∧ ∀ r ∈ after, c < r.lhs := by
  have hasc := hg.wellFormed.rules_ascending
  have hfilter := rulesOf_eq_filter hasc c
  have hscan : (g.rulesOf c).Pairwise (· < ·) := by
    rw [hfilter]
    exact hasc.filter _
  obtain ⟨before,after,hrules,hbefore,_,hafter⟩ := rulesOf_block hasc c
  refine ⟨⟨inferInstance,fun _ _ => Rule.lt_iff,fun _ _ => trivial,?_⟩,hfilter,hscan.nodup,hscan,
    before,after,hrules,hbefore,hafter⟩
  rintro r rfl
  exact r.epsilon_least

/-- The rules of `B` stand between those of `A` and `S`. -/
theorem rulesOf_contiguous_optional :
    optional.rulesOf 'B' = [⟨'B',[]⟩,⟨'B',[.terminal 'b']⟩] ∧
    ∃ before after, optional.rules = before ++ optional.rulesOf 'B' ++ after ∧
      (∀ r ∈ before, r < ⟨'B',[]⟩) ∧ ∀ r ∈ after, 'B' < r.lhs := by
  obtain ⟨_,hfilter,_,_,hblock⟩ := rulesOf_contiguous optional_built 'B'
  exact ⟨hfilter.trans (by decide),hblock⟩

end WordProblem.Grammar
