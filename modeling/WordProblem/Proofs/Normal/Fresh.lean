import WordProblem.Normal.Fresh
import WordProblem.Proofs.Declaration

/-! # The supply of fresh non-terminals

Fresh non-terminals come from the front of the unused ones, and what is left is the rest of the
same list. So allocations that follow each other take one run of the alphabet, and their number
is what decides whether the supply suffices.
-/
namespace WordProblem.Grammar

variable {g h : Grammar} {n : Nat} {c : Char}

def declaring (g : Grammar) (fresh : List Char) : Grammar :=
  { g with nonterminals := fresh.foldr Ascending.insert g.nonterminals }

theorem mem_declaring {fresh : List Char} :
    c ∈ (g.declaring fresh).nonterminals ↔ c ∈ fresh ∨ c ∈ g.nonterminals :=
  Ascending.mem_foldr_insert

theorem allocate_eq (g : Grammar) (n : Nat) : g.allocate n =
    if g.unused.length < n then .error .outOfNonterminals
    else .ok (g.unused.take n,g.declaring (g.unused.take n)) := rfl

theorem mem_unused : c ∈ g.unused ↔ c ∈ g.alphabet.nonterminals ∧ c ∉ g.nonterminals := by
  simp [unused]

theorem unused_congr (ha : h.alphabet = g.alphabet) (hn : h.nonterminals = g.nonterminals) :
    h.unused = g.unused := by rw [unused, unused, ha, hn]

theorem not_declared_of_mem_take (hc : c ∈ g.unused.take n) : c ∉ g.nonterminals :=
  (mem_unused.mp (List.mem_of_mem_take hc)).2

theorem WellFormed.nodup_unused (hg : g.WellFormed) : g.unused.Nodup :=
  hg.alphabet.nonterminals_nodup.filter _

theorem WellFormed.nodup_take_unused (hg : g.WellFormed) (n : Nat) : (g.unused.take n).Nodup :=
  hg.nodup_unused.sublist (List.take_sublist n _)

theorem WellFormed.declaring (hg : g.WellFormed) (n : Nat) :
    (g.declaring (g.unused.take n)).WellFormed where
  alphabet := hg.alphabet
  nonterminals_ascending := Ascending.pairwise_foldr_insert _ hg.nonterminals_ascending
  nonterminals_subset c hc := by
    rcases mem_declaring.mp hc with hc | hc
    · exact (mem_unused.mp (List.mem_of_mem_take hc)).1
    · exact hg.nonterminals_subset c hc
  terminals_ascending := hg.terminals_ascending
  terminals_subset := hg.terminals_subset
  rules_ascending := hg.rules_ascending
  lhs_declared r hr := mem_declaring.mpr (Or.inr (hg.lhs_declared r hr))
  rhs_declared r hr s hs := (hg.rhs_declared r hr s hs).mono
    (fun _ ha => mem_declaring.mpr (Or.inr ha)) fun _ ht => ht

theorem filter_not_mem_take {l : List Char} (hl : l.Nodup) (n : Nat) :
    l.filter (fun c => !(l.take n).contains c) = l.drop n := by
  have hdisjoint := List.disjoint_take_drop hl (Nat.le_refl n)
  have htake : (l.take n).filter (fun c => !(l.take n).contains c) = [] :=
    List.filter_eq_nil_iff.mpr fun c hc => by simpa using hc
  have hdrop : (l.drop n).filter (fun c => !(l.take n).contains c) = l.drop n :=
    List.filter_eq_self.mpr fun c hc => by simpa using fun ht => hdisjoint ht hc
  conv_lhs => arg 2; rw [← List.take_append_drop n l]
  rw [List.filter_append, htake, hdrop, List.nil_append]

theorem unused_declaring_eq_filter (g : Grammar) (fresh : List Char) :
    (g.declaring fresh).unused = g.unused.filter fun c => !fresh.contains c := by
  rw [unused, unused, List.filter_filter]
  refine List.filter_congr fun c _ => ?_
  rw [Bool.eq_iff_iff]
  simp [mem_declaring]

/-- After an allocation the rest of the unused non-terminals is left, in the same order. -/
theorem unused_declaring (hg : g.WellFormed) (n : Nat) :
    (g.declaring (g.unused.take n)).unused = g.unused.drop n := by
  rw [unused_declaring_eq_filter, filter_not_mem_take hg.nodup_unused]

/-- Declared and unused non-terminals make up the alphabet. -/
theorem length_declared_add_unused (hg : g.WellFormed) :
    g.nonterminals.length + g.unused.length = g.alphabet.nonterminals.length := by
  have hp : (g.alphabet.nonterminals.filter g.nonterminals.contains).Perm g.nonterminals := by
    refine (List.perm_ext_iff_of_nodup (hg.alphabet.nonterminals_nodup.filter _)
      hg.nonterminals_ascending.nodup).mpr fun c => ?_
    simpa using hg.nonterminals_subset c
  rw [← hp.length_eq]
  exact (List.length_eq_length_filter_add _).symm

/-! ## Places in the alphabet -/

/-- The character is a non-terminal of the alphabet that is not declared, and there are `n` of them
before it. -/
def Spare (g : Grammar) (n : Nat) (c : Char) : Prop :=
  ∃ before after, g.alphabet.nonterminals = before ++ c :: after ∧ c ∉ g.nonterminals ∧
    before.countP (· ∉ g.nonterminals) = n

theorem getElem_filter_eq_some {l : List Char} {p : Char → Bool} : (l.filter p)[n]? = some c ↔
    ∃ before after, l = before ++ c :: after ∧ p c = true ∧ before.countP p = n := by
  constructor
  · intro h
    obtain ⟨hn,hc⟩ := List.getElem?_eq_some_iff.mp h
    have hsplit : l.filter p = (l.filter p).take n ++ c :: (l.filter p).drop (n + 1) := by
      rw [← hc, ← List.drop_eq_getElem_cons hn, List.take_append_drop]
    obtain ⟨front,back,rfl,hfront,hback⟩ := List.filter_eq_append_iff.mp hsplit
    obtain ⟨skipped,after,rfl,hskipped,hp,_⟩ := List.filter_eq_cons_iff.mp hback
    refine ⟨front ++ skipped,after,(List.append_assoc _ _ _).symm,hp,?_⟩
    rw [List.countP_append, List.countP_eq_zero.mpr hskipped, List.countP_eq_length_filter, hfront,
      List.length_take_of_le hn.le, Nat.add_zero]
  · rintro ⟨before,after,rfl,hp,rfl⟩
    rw [List.filter_append, List.filter_cons_of_pos hp, List.countP_eq_length_filter]
    simp

theorem getElem_unused_eq_some : g.unused[n]? = some c ↔ g.Spare n c := by
  have hp : (fun a => !g.nonterminals.contains a) = fun a => decide (a ∉ g.nonterminals) := by
    funext a
    simp
  rw [unused, hp, getElem_filter_eq_some]
  simp only [Spare, decide_eq_true_eq]

theorem mem_take_unused : c ∈ g.unused.take n ↔ ∃ k < n, g.Spare k c := by
  simp only [List.mem_iff_getElem?, List.getElem?_take, ← getElem_unused_eq_some]
  constructor
  · rintro ⟨k,hk⟩
    split at hk
    · next hlt => exact ⟨k,hlt,hk⟩
    · cases hk
  · rintro ⟨k,hlt,hk⟩
    exact ⟨k,by rw [if_pos hlt, hk]⟩

end WordProblem.Grammar
