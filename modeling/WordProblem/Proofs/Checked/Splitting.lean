import Mathlib.Tactic.Tauto
import WordProblem.Proofs.Checked.Basic
import WordProblem.Proofs.Normal.Binary

/-! # Splitting with checked steps

Long rules are taken up one after another. Each gets its links, gives way, and comes back as the
rules of its chain, whose symbols are looked up by their places and whose left sides must have been
declared by then. All of these steps are defined, and what the rules leave behind one after another
is what splitting them all at once leaves.
-/
namespace WordProblem

namespace Checked

variable {g : Grammar} {r : Rule}

/-- The rule of a chain with the place `i`, where `ends` holds the left side and the links. -/
def link (f : Form) (ends : List Char) (i : Nat) : Option Rule := do
  return ⟨← ends[i]?, [← f[i]?, .nonterminal (← ends[i + 1]?)]⟩

/-- The last rule of a chain, which takes the last two symbols at once. -/
def lastLink (f : Form) (ends : List Char) : Option Rule := do
  guard (2 ≤ f.length)
  return ⟨← ends[ends.length - 1]?, f.drop (f.length - 2)⟩

def chain (r : Rule) (fresh : List Char) : Option (List Rule) := do
  let front ← (List.range fresh.length).mapM (link r.rhs (r.lhs :: fresh))
  return front ++ [← lastLink r.rhs (r.lhs :: fresh)]

def splitRule (g : Grammar) (r : Rule) : Checked Grammar := do
  let (fresh, h) ← ofExcept (g.allocate r.surplus)
  let rules ← ofOption (chain r fresh)
  ofOption (rules.foldlM insertRule { h with rules := h.rules.erase r })

def splitLong (g : Grammar) : Checked Grammar :=
  (g.rules.filter (2 < ·.rhs.length)).foldlM splitRule g

theorem lastLink_cons {f : Form} (hlen : 2 ≤ f.length) (s : Symbol) (a b : Char)
    (fresh : List Char) : lastLink (s :: f) (a :: b :: fresh) = lastLink f (b :: fresh) := by
  have hdrop : (s :: f).drop ((s :: f).length - 2) = f.drop (f.length - 2) := by
    have hsub : (s :: f).length - 2 = f.length - 2 + 1 := by simp only [List.length_cons]; omega
    rw [hsub, List.drop_succ_cons]
  have hlong : 2 ≤ (s :: f).length := hlen.trans (Nat.le_succ _)
  rw [lastLink, lastLink, hdrop, guard, guard, if_pos hlen, if_pos hlong]
  rfl

theorem links_cons (f : Form) (s : Symbol) (a b : Char) (fresh : List Char) :
    (List.range (b :: fresh).length).mapM (link (s :: f) (a :: b :: fresh)) =
      ((List.range fresh.length).mapM (link f (b :: fresh))).map
        (⟨a,[s,.nonterminal b]⟩ :: ·) := by
  have hsucc : link (s :: f) (a :: b :: fresh) ∘ Nat.succ = link f (b :: fresh) := rfl
  rw [List.length_cons, List.range_succ_eq_map, List.mapM_cons, List.mapM_map, hsucc]
  cases (List.range fresh.length).mapM (link f (b :: fresh)) <;> rfl

/-- The places of a chain are in range if there are two more symbols than links. -/
theorem chain_eq {a : Char} {f : Form} {fresh : List Char} (hlen : f.length = fresh.length + 2) :
    chain ⟨a,f⟩ fresh = some (WordProblem.chain a f fresh) := by
  induction fresh generalizing a f with
  | nil =>
    obtain ⟨s,t,rfl⟩ := List.length_eq_two.mp hlen
    rfl
  | cons b fresh ih =>
    match f, hlen with
    | s :: t :: u :: rest, hlen =>
      have hrest := ih (a := b) (f := t :: u :: rest) (by simpa using hlen)
      rw [chain] at hrest ⊢
      rw [links_cons, lastLink_cons (by simp)]
      obtain ⟨front,hfront,hrest⟩ := Option.bind_eq_some_iff.mp hrest
      obtain ⟨last,hlast,hrest⟩ := Option.bind_eq_some_iff.mp hrest
      have hchain : front ++ [last] = WordProblem.chain b (t :: u :: rest) fresh :=
        Option.some.inj hrest
      rw [hfront, hlast, WordProblem.chain, ← hchain]
      rfl

/-- The rules that are left of `rules` after the long ones, in turn, gave way to their chains. -/
def replaceAll (rules : List Rule) : List Rule → List Char → List Rule
  | [], _ => rules
  | r :: long, supply =>
    replaceAll (insertAll (rules.erase r)
      (WordProblem.chain r.lhs r.rhs (supply.take r.surplus))) long (supply.drop r.surplus)

theorem mem_replaceAll {rules long : List Rule} {supply : List Char}
    (hrules : rules.Pairwise (· < ·)) (hlong : ∀ r ∈ long, 2 < r.rhs.length)
    (hlen : supply.length = surplus long) {q : Rule} : q ∈ replaceAll rules long supply ↔
      q ∈ rules ∧ q ∉ long ∨ q ∈ chains long supply := by
  induction long generalizing rules supply with
  | nil => simp [replaceAll, chains]
  | cons r long ih =>
    obtain ⟨hfirst,hrest⟩ := length_supply hlen
    obtain ⟨hr,hlong⟩ := List.forall_mem_cons.mp hlong
    have hascending := pairwise_insertAll (hrules.sublist (List.erase_sublist (a := r)))
      (WordProblem.chain r.lhs r.rhs (supply.take r.surplus))
    -- the rules of a chain are short, so none of them gives way to another chain
    have hkeep : q ∈ WordProblem.chain r.lhs r.rhs (supply.take r.surplus) → q ∉ long :=
      fun hq hmem => Nat.not_le.mpr (hlong q hmem) (chain_length hfirst hq).1
    rw [replaceAll, ih hascending hlong hrest, mem_insertAll, hrules.nodup.mem_erase_iff, chains,
      List.mem_append, List.mem_cons]
    tauto

theorem pairwise_replaceAll {rules : List Rule} (hrules : rules.Pairwise (· < ·))
    (long : List Rule) (supply : List Char) :
    (replaceAll rules long supply).Pairwise (· < ·) := by
  induction long generalizing rules supply with
  | nil => exact hrules
  | cons r long ih => exact ih (pairwise_insertAll (hrules.sublist List.erase_sublist) _) _

theorem surplus_filter (rules : List Rule) :
    surplus (rules.filter (2 < ·.rhs.length)) = surplus rules := by
  induction rules with
  | nil => rfl
  | cons r rules ih =>
    rw [List.filter_cons]
    split
    · rw [surplus_cons, surplus_cons, ih]
    · next hshort =>
      have hr : r.surplus = 0 := by
        have hle : ¬2 < r.rhs.length := by simpa using hshort
        exact Nat.sub_eq_zero_of_le (Nat.not_lt.mp hle)
      rw [surplus_cons, hr, ih, Nat.zero_add]

theorem mem_chains_filter (rules : List Rule) {supply : List Char} {q : Rule} :
    q ∈ chains rules supply ↔ q ∈ rules ∧ q.rhs.length ≤ 2 ∨
      q ∈ chains (rules.filter (2 < ·.rhs.length)) supply := by
  induction rules generalizing supply with
  | nil => simp [chains]
  | cons r rules ih =>
    rw [chains, List.mem_append, ih, List.mem_cons, List.filter_cons]
    split
    · next hlong =>
      have hne : q = r → ¬q.rhs.length ≤ 2 := by
        rintro rfl
        simpa using hlong
      rw [chains, List.mem_append]
      tauto
    · next hshort =>
      have hle : r.rhs.length ≤ 2 := by simpa using hshort
      have hr : r.surplus = 0 := Nat.sub_eq_zero_of_le hle
      have hq : q = r → q.rhs.length ≤ 2 := by
        rintro rfl
        exact hle
      rw [hr, chain_of_short hle, List.drop_zero, List.mem_singleton]
      tauto

/-- The grammar with `rules`, once `n` fresh non-terminals were handed out. -/
def stage (g : Grammar) (n : Nat) (rules : List Rule) : Grammar :=
  { g.declaring (g.unused.take n) with rules := rules }

section Stages
variable (hg : g.WellFormed) {n : Nat} {rules : List Rule}

include hg

theorem unused_stage : (stage g n rules).unused = g.unused.drop n :=
  (Grammar.unused_congr rfl rfl).trans (Grammar.unused_declaring hg n)

theorem declaring_stage (m : Nat) :
    (stage g n rules).declaring ((g.unused.drop n).take m) = stage g (n + m) rules := by
  have hn : ((g.unused.drop n).take m).foldr Ascending.insert
      ((g.unused.take n).foldr Ascending.insert g.nonterminals) =
      (g.unused.take (n + m)).foldr Ascending.insert g.nonterminals := by
    have hold := Ascending.pairwise_foldr_insert (g.unused.take n) hg.nonterminals_ascending
    refine (Ascending.pairwise_foldr_insert _ hold).eq_of_mem_iff
      (Ascending.pairwise_foldr_insert _ hg.nonterminals_ascending) fun c => ?_
    simp only [Ascending.mem_foldr_insert, List.take_add, List.mem_append]
    tauto
  simp only [stage, Grammar.declaring, hn]

theorem splitRule_eq (hlhs : r.lhs ∈ g.nonterminals) (hlong : 2 < r.rhs.length) :
    splitRule (stage g n rules) r =
      ofExcept (if (g.unused.drop n).length < r.surplus then .error .outOfNonterminals
        else .ok (stage g (n + r.surplus) (insertAll (rules.erase r)
          (WordProblem.chain r.lhs r.rhs ((g.unused.drop n).take r.surplus))))) := by
  rw [splitRule, Grammar.allocate_eq, unused_stage hg]
  split
  · rfl
  · next hcap =>
    rw [declaring_stage hg]
    have hlen : r.rhs.length = ((g.unused.drop n).take r.surplus).length + 2 := by
      rw [List.length_take_of_le (Nat.not_lt.mp hcap), Rule.surplus]
      omega
    have hlinks : ∀ q ∈ WordProblem.chain r.lhs r.rhs ((g.unused.drop n).take r.surplus),
        q.lhs ∈ (stage g (n + r.surplus) (rules.erase r)).nonterminals := by
      intro q hq
      refine Grammar.mem_declaring.mpr ?_
      rcases (chain_declares hq).1 with he | hmem
      · exact Or.inr (he ▸ hlhs)
      · rw [List.take_add, List.mem_append]
        exact Or.inl (Or.inr hmem)
    refine (ofOption_bind (chain_eq hlen) _).trans ?_
    exact congrArg ofOption (insertRules_eq hlinks)

theorem splitRules_eq (rules : List Rule) {long : List Rule}
    (hlhs : ∀ r ∈ long, r.lhs ∈ g.nonterminals) (hlong : ∀ r ∈ long, 2 < r.rhs.length)
    (hn : n ≤ g.unused.length) :
    long.foldlM splitRule (stage g n rules) =
      ofExcept (if g.unused.length < n + surplus long then .error .outOfNonterminals
        else .ok (stage g (n + surplus long)
          (replaceAll rules long ((g.unused.drop n).take (surplus long))))) := by
  induction long generalizing n rules with
  | nil =>
    rw [surplus_nil, Nat.add_zero, if_neg (Nat.not_lt.mpr hn)]
    rfl
  | cons r long ih =>
    obtain ⟨hl,hlhs⟩ := List.forall_mem_cons.mp hlhs
    obtain ⟨hr,hlong⟩ := List.forall_mem_cons.mp hlong
    rw [List.foldlM_cons, splitRule_eq hg hl hr, surplus_cons, List.length_drop]
    split
    · next hfull =>
      rw [if_pos (by omega)]
      rfl
    · next hcap =>
      refine (ih _ hlhs hlong (n := n + r.surplus) (by omega)).trans ?_
      rw [Nat.add_assoc, replaceAll, List.take_take, List.drop_take, List.drop_drop,
        Nat.min_eq_left (Nat.le_add_right _ _), Nat.add_sub_cancel_left]

theorem splitLong_eq : splitLong g = ofExcept g.splitLong := by
  have hlong : ∀ r ∈ g.rules.filter (2 < ·.rhs.length), 2 < r.rhs.length := fun r hr => by
    simpa using (List.mem_filter.mp hr).2
  have hlhs : ∀ r ∈ g.rules.filter (2 < ·.rhs.length), r.lhs ∈ g.nonterminals := fun r hr =>
    hg.lhs_declared r (List.mem_filter.mp hr).1
  refine (splitRules_eq hg (n := 0) g.rules hlhs hlong (Nat.zero_le _)).trans ?_
  rw [Nat.zero_add, surplus_filter, List.drop_zero, Grammar.splitLong_eq]
  split
  · rfl
  · next hcap =>
    have hlen := Grammar.length_links (Nat.not_lt.mp hcap)
    have hrules : replaceAll g.rules (g.rules.filter (2 < ·.rhs.length)) g.links =
        Ascending.ofList (chains g.rules g.links) := by
      refine (pairwise_replaceAll hg.rules_ascending _ _).eq_of_mem_iff
        (Ascending.pairwise_ofList _) fun q => ?_
      rw [mem_replaceAll hg.rules_ascending hlong (hlen.trans (surplus_filter _).symm),
        Ascending.mem_ofList, mem_chains_filter g.rules, List.mem_filter, decide_eq_true_eq,
        ← Nat.not_lt]
      tauto
    exact congrArg (fun rules => ofExcept (.ok (stage g (surplus g.rules) rules))) hrules

end Stages

end Checked

end WordProblem
