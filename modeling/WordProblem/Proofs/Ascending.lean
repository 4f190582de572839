import Mathlib.Data.Char
import Mathlib.Data.List.Lex
import Mathlib.Data.List.Sort
import Mathlib.Data.List.TakeWhile
import WordProblem.Grammar.Basic

/-! # The order of rules and ascending lists

Rule order is a strict total order in which `c -> ε` is the least rule of `c`. Ascending lists
over such an order are determined by their members, so every pass may be described by the set of
rules that it leaves. In an ascending list the rules of one left side stand together.
-/
namespace WordProblem

instance Symbol.strictTotalOrder : IsStrictTotalOrder Symbol (· < ·) where
  irrefl s h := by
    cases s with
    | terminal c => exact lt_irrefl c h
    | nonterminal c => exact lt_irrefl c h
  trans s t u hst htu := by
    cases u with
    | terminal c =>
      cases t with
      | terminal b =>
        cases s with
        | terminal a => exact @lt_trans Char _ a b c hst htu
        | nonterminal a => exact hst.elim
      | nonterminal b => exact htu.elim
    | nonterminal c =>
      cases s with
      | terminal a => exact trivial
      | nonterminal a =>
        cases t with
        | terminal b => exact hst.elim
        | nonterminal b => exact @lt_trans Char _ a b c hst htu
  trichotomous s t hst hts := by
    cases s with
    | terminal a =>
      cases t with
      | terminal b => exact congrArg _ (le_antisymm (not_lt.mp hts) (not_lt.mp hst))
      | nonterminal b => exact (hst trivial).elim
    | nonterminal a =>
      cases t with
      | terminal b => exact (hts trivial).elim
      | nonterminal b => exact congrArg _ (le_antisymm (not_lt.mp hts) (not_lt.mp hst))

instance Symbol.lexOrder : IsStrictTotalOrder (List Symbol) (List.Lex (· < ·)) :=
  { isStrictWeakOrder_of_isOrderConnected with }

theorem Rule.lt_iff {r q : Rule} :
    r < q ↔ r.lhs < q.lhs ∨ r.lhs = q.lhs ∧ List.Lex (· < ·) r.rhs q.rhs := Iff.rfl

instance Rule.strictTotalOrder : IsStrictTotalOrder Rule (· < ·) where
  irrefl r h := by
    rcases Rule.lt_iff.mp h with h | ⟨_,h⟩
    · exact lt_irrefl _ h
    · exact irrefl_of (List.Lex (· < ·)) r.rhs h
  trans r q p hrq hqp := by
    rcases Rule.lt_iff.mp hrq with h | ⟨he,h⟩ <;> rcases Rule.lt_iff.mp hqp with k | ⟨ke,k⟩
    · exact Or.inl (lt_trans h k)
    · exact Or.inl (ke ▸ h)
    · exact Or.inl (he ▸ k)
    · exact Or.inr ⟨he.trans ke,trans_of (List.Lex (· < ·)) h k⟩
  trichotomous r q hrq hqr := by
    have hl : r.lhs = q.lhs := le_antisymm
      (not_lt.mp fun h => hqr (Or.inl h)) (not_lt.mp fun h => hrq (Or.inl h))
    have hr : r.rhs = q.rhs := Std.Trichotomous.trichotomous (r := List.Lex (· < ·)) _ _
      (fun h => hrq (Or.inr ⟨hl,h⟩)) (fun h => hqr (Or.inr ⟨hl.symm,h⟩))
    cases r
    cases q
    simp_all

theorem Rule.lhs_lt_of_lt_epsilon {r : Rule} {c : Char} (h : r < ⟨c,[]⟩) : r.lhs < c := by
  rcases Rule.lt_iff.mp h with h | ⟨_,h⟩
  · exact h
  · exact absurd h List.not_lex_nil

theorem Rule.epsilon_least (r : Rule) : r = ⟨r.lhs,[]⟩ ∨ ⟨r.lhs,[]⟩ < r := by
  obtain ⟨c,rhs⟩ := r
  cases rhs with
  | nil => exact Or.inl rfl
  | cons s rhs => exact Or.inr (Rule.lt_iff.mpr (Or.inr ⟨rfl,.nil⟩))

theorem Rule.lhs_le_of_lt {r q : Rule} (h : r < q) : r.lhs ≤ q.lhs := by
  rcases Rule.lt_iff.mp h with h | ⟨h,_⟩
  · exact h.le
  · exact h.le

namespace Ascending

section Total
variable {α : Type} [LT α] [DecidableLT α] [DecidableEq α] [IsStrictTotalOrder α (· < ·)]

theorem pairwise_insert (a : α) {l : List α} (h : l.Pairwise (· < ·)) :
    (insert a l).Pairwise (· < ·) := by
  induction l with
  | nil => simp [insert]
  | cons b l ih =>
    obtain ⟨hb,hl⟩ := List.pairwise_cons.mp h
    rw [insert]
    split
    · next hab =>
      refine List.pairwise_cons.mpr ⟨?_,h⟩
      intro c hc
      rcases List.mem_cons.mp hc with rfl | hc
      · exact hab
      · exact trans_of (· < ·) hab (hb c hc)
    · next hab =>
      split
      · exact h
      · next hne =>
        have hba : b < a := by
          rcases trichotomous_of (· < ·) a b with h | h | h
          · exact absurd h hab
          · exact absurd h hne
          · exact h
        refine List.pairwise_cons.mpr ⟨?_,ih hl⟩
        intro c hc
        rcases mem_insert.mp hc with rfl | hc
        · exact hba
        · exact hb c hc

theorem pairwise_foldr_insert (l : List α) {acc : List α} (h : acc.Pairwise (· < ·)) :
    (l.foldr insert acc).Pairwise (· < ·) := by
  induction l with
  | nil => exact h
  | cons a l ih => exact pairwise_insert a ih

theorem pairwise_ofList (l : List α) : (ofList l).Pairwise (· < ·) :=
  pairwise_foldr_insert l List.Pairwise.nil

/-- Without repeated members nothing is lost but the order. -/
theorem ofList_perm {l : List α} (h : l.Nodup) : (ofList l).Perm l :=
  (List.perm_ext_iff_of_nodup (pairwise_ofList l).nodup h).mpr fun _ => mem_ofList

theorem ofList_eq_self {l : List α} (h : l.Pairwise (· < ·)) : ofList l = l :=
  (pairwise_ofList l).eq_of_mem_iff h fun _ => mem_ofList

/-- Insertion of the members of an ascending list, one after another, gives the list back. -/
theorem foldl_insert {l : List α} (h : l.Pairwise (· < ·)) :
    l.foldl (fun m a => insert a m) [] = l := by
  have hrev : l.foldl (fun m a => insert a m) [] = ofList l.reverse := by
    rw [ofList, List.foldr_reverse]
  rw [hrev]
  exact (pairwise_ofList _).eq_of_mem_iff h fun a => by rw [mem_ofList, List.mem_reverse]

end Total

@[simp] theorem mem_foldr_insert {α : Type} [LT α] [DecidableLT α] [DecidableEq α] {x : α}
    {l acc : List α} : x ∈ l.foldr insert acc ↔ x ∈ l ∨ x ∈ acc := by
  induction l with
  | nil => simp
  | cons a l ih => rw [List.foldr_cons, mem_insert, ih, List.mem_cons, or_assoc]

end Ascending

/-- If the members with a property come first, those behind a scan for it do not have it. -/
theorem not_of_mem_dropWhile {α : Type} {p : α → Bool} {l : List α}
    (h : l.Pairwise fun a b => p b = true → p a = true) : ∀ b ∈ l.dropWhile p, ¬p b = true := by
  induction l with
  | nil => simp
  | cons a l ih =>
    obtain ⟨ha,hl⟩ := List.pairwise_cons.mp h
    by_cases hp : p a = true
    · rw [List.dropWhile_cons_of_pos hp]
      exact ih hl
    · rw [List.dropWhile_cons_of_neg hp]
      intro b hb
      rcases List.mem_cons.mp hb with rfl | hb
      · exact hp
      · exact mt (ha b hb) hp

/-- The rules of one left side stand together, behind all rules below `c -> ε`. -/
theorem Grammar.rulesOf_block {g : Grammar} (h : g.rules.Pairwise (· < ·)) (c : Char) :
    ∃ before after, g.rules = before ++ g.rulesOf c ++ after ∧ (∀ r ∈ before, r < ⟨c,[]⟩) ∧
      (∀ r ∈ g.rulesOf c, r.lhs = c) ∧ ∀ r ∈ after, c < r.lhs := by
  have hfirst : g.rules.Pairwise fun r q =>
      decide (q < ⟨c,[]⟩) = true → decide (r < ⟨c,[]⟩) = true := by
    refine h.imp fun hrq hq => ?_
    exact decide_eq_true (trans_of (· < ·) hrq (of_decide_eq_true hq))
  have hge : ∀ r ∈ g.rules.dropWhile (· < ⟨c,[]⟩), c ≤ r.lhs := by
    intro r hr
    have hnot := not_of_mem_dropWhile hfirst r hr
    exact not_lt.mp fun hlt => hnot (decide_eq_true (Or.inl hlt))
  -- behind the rules below `c -> ε`, those of `c` come before all others
  have hsecond : (g.rules.dropWhile (· < ⟨c,[]⟩)).Pairwise fun r q =>
      decide (q.lhs = c) = true → decide (r.lhs = c) = true := by
    refine (h.sublist (List.dropWhile_sublist _)).imp_of_mem fun {r q} hr _ hrq hq => ?_
    have hle := (Rule.lhs_le_of_lt hrq).trans_eq (of_decide_eq_true hq)
    exact decide_eq_true (le_antisymm hle (hge r hr))
  refine ⟨g.rules.takeWhile (· < ⟨c,[]⟩),(g.rules.dropWhile (· < ⟨c,[]⟩)).dropWhile (·.lhs = c),
    ?_,?_,?_,?_⟩
  · rw [rulesOf, List.append_assoc, List.takeWhile_append_dropWhile,
      List.takeWhile_append_dropWhile]
  · intro r hr
    simpa using List.mem_takeWhile_imp hr
  · intro r hr
    simpa using List.mem_takeWhile_imp hr
  · intro r hr
    have hne : r.lhs ≠ c := by simpa using not_of_mem_dropWhile hsecond r hr
    exact lt_of_le_of_ne (hge r ((List.dropWhile_sublist _).mem hr)) hne.symm

/-- The scan for the rules of a left side misses none of them. -/
theorem Grammar.rulesOf_eq_filter {g : Grammar} (h : g.rules.Pairwise (· < ·)) (c : Char) :
    g.rulesOf c = g.rules.filter (·.lhs = c) := by
  obtain ⟨before,after,hrules,hbefore,hblock,hafter⟩ := rulesOf_block h c
  have hleft : before.filter (·.lhs = c) = [] := by
    refine List.filter_eq_nil_iff.mpr fun r hr => ?_
    simpa using (Rule.lhs_lt_of_lt_epsilon (hbefore r hr)).ne
  have hright : after.filter (·.lhs = c) = [] := by
    refine List.filter_eq_nil_iff.mpr fun r hr => ?_
    simpa using (hafter r hr).ne'
  have hself : (g.rulesOf c).filter (·.lhs = c) = g.rulesOf c := by
    simpa using hblock
  rw [hrules, List.filter_append, List.filter_append, hleft, hself, hright]
  simp

theorem Grammar.mem_rulesOf {g : Grammar} (h : g.rules.Pairwise (· < ·)) {c : Char} {r : Rule} :
    r ∈ g.rulesOf c ↔ r ∈ g.rules ∧ r.lhs = c := by
  rw [rulesOf_eq_filter h, List.mem_filter, decide_eq_true_eq]

end WordProblem
