import Mathlib.Algebra.BigOperators.Group.List.Basic
import Mathlib.Algebra.GroupWithZero.Nat
import Mathlib.Data.Finset.Card
import WordProblem.Proofs.Normal.Stages

/-! # What the normal form takes from the alphabet

Three passes allocate fresh non-terminals: proxies of terminals, links of chains and a new start
symbol. Each goes on where the one before stopped, so together they take one run of the unused
non-terminals, and its length can be read off the useful part of the grammar.
-/
namespace WordProblem

theorem surplus_eq_sum (rules : List Rule) : surplus rules = (rules.map Rule.surplus).sum := by
  induction rules with
  | nil => rfl
  | cons r rules ih => rw [surplus_cons, ih, List.map_cons, List.sum_cons]

namespace Grammar

variable {g u : Grammar}

/-- The terminals that stand beside other symbols. -/
def mixed (u : Grammar) : Finset Char :=
  ((u.rules.filter (2 ≤ ·.rhs.length)).flatMap Rule.terminals).toFinset

/-- The symbols by which right sides are longer than two. -/
def excess (u : Grammar) : Nat :=
  ((u.rules.filter (2 < ·.rhs.length)).map (·.rhs.length - 2)).sum

open Classical in
/-- The number of fresh non-terminals in the normal form of `g`, whose useful part is `u`. -/
noncomputable def demand (g u : Grammar) : Nat :=
  u.mixed.card + u.excess + if g.Accepts [] then 1 else 0

theorem length_mixedTerminals (u : Grammar) : u.mixedTerminals.length = u.mixed.card := by
  have hnodup : u.mixedTerminals.Nodup := (Ascending.pairwise_ofList _).nodup
  rw [← List.toFinset_card_of_nodup hnodup]
  congr 1
  ext c
  simp only [List.mem_toFinset, mixed, mixedTerminals, Ascending.mem_ofList]

theorem surplus_eq_excess (u : Grammar) : surplus u.rules = u.excess := by
  rw [surplus_eq_sum, excess]
  induction u.rules with
  | nil => rfl
  | cons r rules ih =>
    rw [List.map_cons, List.sum_cons, ih]
    by_cases hr : 2 < r.rhs.length
    · simp [hr, Rule.surplus]
    · simp [hr, Rule.surplus, Nat.sub_eq_zero_of_le (Nat.not_lt.mp hr)]

/-- Isolation leaves right sides as long as they were, and no two rules become one. -/
theorem surplus_isolated (hg : g.WellFormed) : surplus g.isolated.rules = surplus g.rules := by
  have hkeep : (g.rules.map (·.isolate g.proxies)).map Rule.surplus = g.rules.map Rule.surplus := by
    simp [Rule.surplus, Function.comp_def]
  have hnone : ((g.proxies.map fun p => (⟨p.2,[.terminal p.1]⟩ : Rule)).map Rule.surplus).sum = 0 := by
    simp [Rule.surplus, Function.comp_def]
  rw [surplus_eq_sum, surplus_eq_sum, ((isolated_rules_perm hg).map _).sum_eq, List.map_append,
    List.sum_append, hkeep, hnone, Nat.add_zero]

/-! ## One run of the alphabet -/

theorem unused_isolated (hg : g.WellFormed) :
    g.isolated.unused = g.unused.drop g.mixedTerminals.length := by
  rw [← unused_declaring hg]
  exact unused_congr rfl rfl

theorem unused_split (hg : g.WellFormed) : g.split.unused = g.unused.drop (surplus g.rules) := by
  rw [← unused_declaring hg]
  exact unused_congr rfl rfl

theorem unused_isolated_split (hg : g.WellFormed) :
    g.isolated.split.unused = g.unused.drop (g.mixed.card + g.excess) := by
  rw [unused_split hg.isolated, unused_isolated hg, List.drop_drop, surplus_isolated hg,
    surplus_eq_excess, length_mixedTerminals]

theorem mem_isolated_split_nonterminals (hg : g.WellFormed) {a : Char} :
    a ∈ g.isolated.split.nonterminals ↔
      a ∈ g.nonterminals ∨ a ∈ g.unused.take (g.mixed.card + g.excess) := by
  rw [mem_split_nonterminals, mem_isolated_nonterminals, links, unused_isolated hg,
    surplus_isolated hg, surplus_eq_excess, length_mixedTerminals, List.take_add, List.mem_append]
  rw [or_comm, or_assoc, or_left_comm]

theorem supply_iff (hg : g.WellFormed) :
    g.mixedTerminals.length ≤ g.unused.length ∧
      surplus g.isolated.rules ≤ g.isolated.unused.length ↔
    g.mixed.card + g.excess ≤ g.unused.length := by
  rw [unused_isolated hg, surplus_isolated hg, surplus_eq_excess, length_mixedTerminals,
    List.length_drop]
  omega

/-! ## The new start symbol -/

theorem demand_of_accepts (h : g.Accepts []) : demand g u = u.mixed.card + u.excess + 1 := by
  rw [demand, if_pos h]

theorem demand_of_not_accepts (h : ¬g.Accepts []) : demand g u = u.mixed.card + u.excess := by
  rw [demand, if_neg h, Nat.add_zero]

theorem take_succ_of_drop {l rest : List Char} {n : Nat} {s : Char} (h : l.drop n = s :: rest) :
    l.take (n + 1) = l.take n ++ [s] := by
  rw [List.take_add, h]
  rfl

section Useful
variable (hg : g.WellFormed) (hp : g.start ∈ g.productive)

include hg hp in
/-- The passes before the removal of empty right sides keep the empty word. -/
theorem start_nullable_iff (hl : surplus g.useful.isolated.rules ≤ g.useful.isolated.unused.length) :
    g.shortened.start ∈ g.shortened.nullable ↔ g.Accepts [] := by
  have hs : g.shortened.WellFormed := hg.useful.isolated_split hl
  calc g.shortened.start ∈ g.shortened.nullable
    _ ↔ g.shortened.Accepts [] := mem_nullable hs
    _ ↔ g.Accepts [] := generates_shortened hg hl (start_useful hg hp)

include hg hp in
theorem normalForm_ok_iff (hs : g.start ∈ g.nonterminals) :
    (∃ c, g.normalForm = .ok c) ↔ demand g g.useful ≤ g.useful.unused.length := by
  have hrest : g.shortened.unused = g.useful.unused.drop (g.useful.mixed.card + g.useful.excess) :=
    unused_isolated_split hg.useful
  constructor
  · rintro ⟨c,hc⟩
    obtain ⟨_,_,hi,hl,e,he,_⟩ := normalForm_eq_ok.mp hc
    have hsupply := (supply_iff hg.useful).mp ⟨hi,hl⟩
    have hnull := start_nullable_iff hg hp hl
    rcases dropEpsilon_cases he with ⟨hn,_⟩ | ⟨hn,s,rest,hu,_⟩
    · rw [demand_of_not_accepts (mt hnull.mpr hn)]
      exact hsupply
    · have hlen := congrArg List.length (hrest.symm.trans hu)
      rw [List.length_drop, List.length_cons] at hlen
      rw [demand_of_accepts (hnull.mp hn)]
      omega
  · intro hd
    obtain ⟨hi,hl⟩ := (supply_iff hg.useful).mpr ((Nat.le_add_right _ _).trans hd)
    have hnull := start_nullable_iff hg hp hl
    have hok : ∃ e, g.shortened.dropEpsilon = .ok e := by
      by_cases hn : g.shortened.start ∈ g.shortened.nullable
      · rw [demand_of_accepts (hnull.mp hn)] at hd
        have hpos : 0 < g.shortened.unused.length := by
          rw [hrest, List.length_drop]
          omega
        obtain ⟨s,rest,hu⟩ := List.exists_cons_of_length_pos hpos
        exact ⟨_,dropEpsilon_eq_ok.mpr (Or.inr ⟨hn,s,rest,hu,rfl⟩)⟩
      · exact ⟨_,dropEpsilon_eq_ok.mpr (Or.inl ⟨hn,rfl⟩)⟩
    obtain ⟨e,he⟩ := hok
    exact ⟨_,normalForm_eq_ok.mpr ⟨hs,hp,hi,hl,e,he,rfl⟩⟩

theorem normalForm_of_undeclared (hs : g.start ∉ g.nonterminals) :
    g.normalForm = .error (.undeclaredStart g.start) := by
  rw [normalForm_eq, if_pos hs]

theorem normalForm_of_barren (hs : g.start ∈ g.nonterminals) (hp : g.start ∉ g.productive) :
    g.normalForm = .error (.emptyLanguage g.start) := by
  rw [normalForm_eq, if_neg (not_not.mpr hs), if_pos hp]

/-- With a productive start symbol only the supply can fail. -/
theorem normalForm_error {e : NormalFormError} (hs : g.start ∈ g.nonterminals)
    (hp : g.start ∈ g.productive) (he : g.normalForm = .error e) : e = .outOfNonterminals := by
  rw [normalForm_eq, if_neg (not_not.mpr hs), if_neg (not_not.mpr hp)] at he
  split at he
  · cases he
    rfl
  split at he
  · cases he
    rfl
  · cases hd : g.shortened.dropEpsilon with
    | ok e =>
      rw [hd] at he
      cases he
    | error e =>
      rw [hd] at he
      cases he
      by_cases hn : g.shortened.start ∈ g.shortened.nullable
      · rw [dropEpsilon_of_nullable hn] at hd
        split at hd <;> cases hd
        rfl
      · rw [dropEpsilon_of_not_nullable hn] at hd
        cases hd

theorem normalForm_undeclared_iff :
    g.normalForm = .error (.undeclaredStart g.start) ↔ g.start ∉ g.nonterminals := by
  constructor
  · intro he hs
    by_cases hp : g.start ∈ g.productive
    · cases normalForm_error hs hp he
    · have hbarren := normalForm_of_barren hs hp
      rw [hbarren] at he
      cases he
  · exact normalForm_of_undeclared

theorem normalForm_barren_iff (hs : g.start ∈ g.nonterminals) :
    g.normalForm = .error (.emptyLanguage g.start) ↔ g.start ∉ g.productive := by
  constructor
  · intro he hp
    cases normalForm_error hs hp he
  · exact normalForm_of_barren hs

include hg hp in
theorem normalForm_full_iff (hs : g.start ∈ g.nonterminals) :
    g.normalForm = .error .outOfNonterminals ↔ g.useful.unused.length < demand g g.useful := by
  have hok := normalForm_ok_iff hg hp hs
  constructor
  · intro he
    by_contra hroom
    obtain ⟨c,hc⟩ := hok.mpr (Nat.not_lt.mp hroom)
    rw [he] at hc
    cases hc
  · intro hfull
    cases hc : g.normalForm with
    | error e => rw [normalForm_error hs hp hc]
    | ok c => exact absurd (hok.mp ⟨c,hc⟩) (Nat.not_le.mpr hfull)

include hg in
theorem normalForm_nonterminals {c : Grammar} (hc : g.normalForm = .ok c) :
    (∀ a, a ∈ c.nonterminals ↔
      a ∈ g.useful.nonterminals ∨ a ∈ g.useful.unused.take (demand g g.useful)) ∧
    (g.Accepts [] → ∃ n, n + 1 = demand g g.useful ∧ g.useful.Spare n c.start) := by
  obtain ⟨_,hp,hi,hl,e,he,rfl⟩ := normalForm_eq_ok.mp hc
  have hmem : ∀ a, a ∈ g.shortened.nonterminals ↔ _ := fun a =>
    mem_isolated_split_nonterminals hg.useful
  have hnull := start_nullable_iff hg hp hl
  rcases dropEpsilon_cases he with ⟨hn,rfl⟩ | ⟨hn,s,rest,hu,rfl⟩
  · have hne := mt hnull.mpr hn
    rw [demand_of_not_accepts hne]
    refine ⟨fun a => ?_,fun h => absurd h hne⟩
    rw [dropUnits_nonterminals, epsilonFree_nonterminals, hmem a]
  · have hdrop := (unused_isolated_split hg.useful).symm.trans hu
    rw [demand_of_accepts (hnull.mp hn), take_succ_of_drop hdrop]
    refine ⟨fun a => ?_,fun _ => ⟨_,rfl,getElem_unused_eq_some.mp ?_⟩⟩
    · rw [dropUnits_nonterminals, mem_restart_nonterminals, epsilonFree_nonterminals, hmem a,
        List.mem_append, List.mem_singleton, or_comm, or_assoc]
    · rw [← List.head?_drop, hdrop]
      rfl

end Useful

/-- The errors of a normalization, and what it takes from the alphabet when there is none. -/
theorem normalForm_capacity (hg : g.Built) :
    (g.normalForm = .error (.undeclaredStart g.start) ↔ g.start ∉ g.nonterminals) ∧
    (g.start ∈ g.nonterminals →
      (g.normalForm = .error (.emptyLanguage g.start) ↔ ∀ w, ¬g.Accepts w)) ∧
    (g.start ∈ g.nonterminals → (∃ w, g.Accepts w) →
      ∃ b u, g.dropBarren = .ok b ∧ u = b.dropUnreachable ∧
        (g.normalForm = .error .outOfNonterminals ↔
          g.alphabet.nonterminals.length < u.nonterminals.length + demand g u) ∧
        (u.nonterminals.length + demand g u ≤ g.alphabet.nonterminals.length →
          ∃ c, g.normalForm = .ok c ∧
            (∀ a, a ∈ c.nonterminals ↔ a ∈ u.nonterminals ∨ ∃ n < demand g u, u.Spare n a) ∧
            (∀ n < demand g u, ∃ a, u.Spare n a) ∧
            (g.Accepts [] → ∃ n, n + 1 = demand g u ∧ u.Spare n c.start))) := by
  have hw := hg.wellFormed
  have hproductive := start_productive_iff hw
  refine ⟨normalForm_undeclared_iff,fun hs => ?_,fun hs hn => ?_⟩
  · rw [normalForm_barren_iff hs, hproductive, not_exists]
  · have hp := hproductive.mpr hn
    have hlen : g.useful.nonterminals.length + g.useful.unused.length =
        g.alphabet.nonterminals.length := length_declared_add_unused hw.useful
    refine ⟨_,g.useful,dropBarren_eq_ok.mpr ⟨hp,rfl⟩,rfl,?_,fun hle => ?_⟩
    · rw [normalForm_full_iff hw hp hs]
      omega
    · have hroom : demand g g.useful ≤ g.useful.unused.length := by omega
      obtain ⟨c,hc⟩ := (normalForm_ok_iff hw hp hs).mpr hroom
      obtain ⟨hmem,hstart⟩ := normalForm_nonterminals hw hc
      refine ⟨c,hc,fun a => ?_,fun n hn => ?_,hstart⟩
      · rw [hmem, mem_take_unused]
      · exact ⟨_,getElem_unused_eq_some.mp (List.getElem?_eq_getElem (hn.trans_le hroom))⟩

/-- The word of two letters and the empty word, over an alphabet that has an order of its own. -/
def couple : Grammar where
  alphabet := ⟨['S','D','A','B','C'],['a','b']⟩
  nonterminals := ['S']
  terminals := ['a','b']
  rules := [⟨'S',[]⟩,⟨'S',[.terminal 'a',.terminal 'b']⟩]

theorem couple_built : couple.Built := by
  have hchosen : couple.alphabet.Chosen := ⟨some (['S','D','A','B','C'],['a','b']),by decide⟩
  have hd : (empty couple.alphabet).declareAll [.nonterminal 'S',.terminal 'a',.terminal 'b',
      .rule 'S' [],.rule 'S' ['a','b']] = .ok couple := by decide
  exact (Built.empty hchosen).declareAll hd

/-- Two proxies and a start symbol are taken, and `C` is left. -/
theorem normalForm_capacity_couple : couple.Accepts [] ∧ ∃ b u c, couple.dropBarren = .ok b ∧
    u = b.dropUnreachable ∧ demand couple u = 3 ∧ couple.normalForm = .ok c ∧
    (∀ a, a ∈ c.nonterminals ↔ a ∈ ['S','D','A','B']) ∧ c.start = 'B' := by
  have hempty : couple.Accepts [] := (mem_nullable couple_built.wellFormed).mp (by decide)
  have hbarren : couple.dropBarren = .ok couple := by decide +kernel
  have huseful : couple.dropUnreachable = couple := by decide +kernel
  have hdemand : demand couple couple = 3 := by
    rw [demand_of_accepts hempty]
    decide
  obtain ⟨_,_,h⟩ := normalForm_capacity couple_built
  obtain ⟨b,u,hb,hu,_,hroom⟩ := h (by decide) ⟨[],hempty⟩
  cases hbarren.symm.trans hb
  rw [huseful] at hu
  subst hu
  obtain ⟨c,hc,hmem,_,hstart⟩ := hroom (by rw [hdemand]; decide)
  refine ⟨hempty,couple,couple,c,hb,huseful.symm,hdemand,hc,fun a => ?_,?_⟩
  · have hfront : couple.unused.take 3 = ['D','A','B'] := by decide
    rw [hmem, ← mem_take_unused, hdemand, hfront]
    simp [couple]
  · obtain ⟨n,hn,hspare⟩ := hstart hempty
    obtain rfl : n = 2 := Nat.succ.inj (hn.trans hdemand)
    have hthird : couple.unused[2]? = some 'B' := by decide
    exact Option.some.inj ((getElem_unused_eq_some.mpr hspare).symm.trans hthird)

end Grammar

end WordProblem
