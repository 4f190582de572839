import Mathlib.Data.Finset.Card
import WordProblem.Proofs.Normal.Usefulness

/-! # Extensions of a grammar by definitions

A grammar grows by non-terminals that each stand for a form: every one of them has one rule, and
replacing them by the right sides of their rules, until none is left, gives back the rules as they
were. The result does not depend on the order of the replacements, and no two rules have become
one, so there are as many rules more as there are definitions.
-/
namespace WordProblem

namespace Grammar

variable {g h : Grammar}

/-- The non-terminals that `h` declares and `g` does not. -/
def added (g h : Grammar) : Finset Char := h.nonterminals.toFinset \ g.nonterminals.toFinset

@[simp] theorem mem_added {a : Char} : a ∈ g.added h ↔ a ∈ h.nonterminals ∧ a ∉ g.nonterminals := by
  simp [added]

/-- The rules of `h` for non-terminals that `g` does not declare. -/
def additions (g h : Grammar) : Grammar :=
  { h with rules := h.rules.filter (·.lhs ∉ g.nonterminals) }

@[simp] theorem mem_additions {r : Rule} :
    r ∈ (g.additions h).rules ↔ r ∈ h.rules ∧ r.lhs ∉ g.nonterminals := by
  simp [additions]

/-- `q` is `r` with non-terminals that `g` does not declare replaced by the right sides of their
rules in `h`, again and again until none is left. -/
def Expands (g h : Grammar) (r q : Rule) : Prop :=
  q.lhs = r.lhs ∧ (g.additions h).Derives r.rhs q.rhs ∧ Form.Over g.nonterminals q.rhs

/-- The rules of `h` for declared non-terminals of `g` expand to the rules of `g`, one to one. -/
structure RestoredFrom (g h : Grammar) : Prop where
  expands : ∀ r ∈ h.rules, r.lhs ∈ g.nonterminals → ∃! q, g.Expands h r q
  sound : ∀ r ∈ h.rules, r.lhs ∈ g.nonterminals → ∀ q, g.Expands h r q → q ∈ g.rules
  complete : ∀ q ∈ g.rules, ∃! r, (r ∈ h.rules ∧ r.lhs ∈ g.nonterminals) ∧ g.Expands h r q

end Grammar

namespace Definitions

variable {d : Definitions} {g h : Grammar}

def unfoldRule (d : Definitions) (r : Rule) : Rule := ⟨r.lhs,d.unfold r.rhs⟩

@[simp] theorem unfold_append (f k : Form) : d.unfold (f ++ k) = d.unfold f ++ d.unfold k :=
  List.flatMap_append

/-- Beyond `g`, the grammar `h` has one non-terminal with one rule for each definition. -/
structure Extends (d : Definitions) (g h : Grammar) : Prop where
  explains : d.Explains g h
  nodup : (d.map Prod.fst).Nodup
  names : ∀ a, a ∈ d.map Prod.fst ↔ a ∈ h.nonterminals ∧ a ∉ g.nonterminals
  rules : ∃ old new, h.rules.Perm (old ++ new) ∧ old.map d.unfoldRule = g.rules ∧
    new.map Rule.lhs = d.map Prod.fst
  derives : ∀ p ∈ d, (g.additions h).Derives [.nonterminal p.1] p.2

namespace Extends

variable (hd : d.Extends g h) (hg : g.WellFormed)

include hd in
theorem unfold_of_over {f : Form} (hf : Form.Over g.nonterminals f) : d.unfold f = f := by
  apply unfold_eq_self
  intro a ha
  apply lookup_of_not_mem
  intro hname
  exact ((hd.names a).mp hname).2 (hf a ha)

include hd hg in
/-- Left sides tell the rules of `g` from those of the definitions. -/
theorem filter_rules : ∃ old new, (h.rules.filter (·.lhs ∈ g.nonterminals)).Perm old ∧
    (h.rules.filter (·.lhs ∉ g.nonterminals)).Perm new ∧ old.map d.unfoldRule = g.rules ∧
    new.map Rule.lhs = d.map Prod.fst := by
  obtain ⟨old,new,hperm,hold,hnew⟩ := hd.rules
  have hdeclared : ∀ r ∈ old, r.lhs ∈ g.nonterminals := by
    intro r hr
    exact hg.lhs_declared (d.unfoldRule r) (hold ▸ List.mem_map_of_mem hr)
  have hfresh : ∀ r ∈ new, r.lhs ∉ g.nonterminals := by
    intro r hr
    exact ((hd.names r.lhs).mp (hnew ▸ List.mem_map_of_mem hr)).2
  have hfirst : (old ++ new).filter (·.lhs ∈ g.nonterminals) = old := by
    rw [List.filter_append, List.filter_eq_self.mpr (by simpa using hdeclared),
      List.filter_eq_nil_iff.mpr (by simpa using hfresh), List.append_nil]
  have hsecond : (old ++ new).filter (·.lhs ∉ g.nonterminals) = new := by
    rw [List.filter_append, List.filter_eq_nil_iff.mpr (by simpa using hdeclared),
      List.filter_eq_self.mpr (by simpa using hfresh), List.nil_append]
  refine ⟨old,new,?_,?_,hold,hnew⟩
  · rw [← hfirst]
    exact hperm.filter _
  · rw [← hsecond]
    exact hperm.filter _

include hd hg in
theorem folded : ((h.rules.filter (·.lhs ∈ g.nonterminals)).map d.unfoldRule).Perm g.rules := by
  obtain ⟨old,new,hperm,_,hold,_⟩ := hd.filter_rules hg
  rw [← hold]
  exact hperm.map _

include hd hg in
theorem spelled :
    ((h.rules.filter (·.lhs ∉ g.nonterminals)).map Rule.lhs).Perm (d.map Prod.fst) := by
  obtain ⟨old,new,_,hperm,_,hnew⟩ := hd.filter_rules hg
  rw [← hnew]
  exact hperm.map _

include hd hg in
theorem lookup_lhs {r : Rule} (hr : r ∈ (g.additions h).rules) :
    d.lookup r.lhs = some (d.unfold r.rhs) := by
  obtain ⟨hr,hnew⟩ := Grammar.mem_additions.mp hr
  rcases hd.explains r hr with hdef | ⟨_,hold⟩
  · exact hdef
  · exact absurd (hg.lhs_declared _ hold) hnew

include hd hg in
/-- Whatever is replaced first, the form that all definitions lead to stays the same. -/
theorem unfold_eq_of_derives {f k : Form} (hk : (g.additions h).Derives f k) :
    d.unfold f = d.unfold k := by
  induction hk with
  | refl => rfl
  | tail _ step ih =>
    obtain ⟨before,after,hr⟩ := step
    simp [ih, expand_of_lookup (hd.lookup_lhs hg hr)]

include hd in
theorem derives_expand (s : Symbol) : (g.additions h).Derives [s] (d.expand s) := by
  cases s with
  | terminal c => exact .refl _
  | nonterminal a =>
    cases hdef : d.lookup a with
    | none =>
      rw [expand_of_lookup_none hdef]
      exact .refl _
    | some k =>
      rw [expand_of_lookup hdef]
      obtain ⟨before,after,hsplit,_⟩ := List.lookup_eq_some_iff.mp hdef
      exact hd.derives (a,k) (by simp [hsplit])

include hd in
theorem derives_unfold (f : Form) : (g.additions h).Derives f (d.unfold f) := by
  induction f with
  | nil => exact .refl _
  | cons s f ih => exact (hd.derives_expand s).append ih

include hd hg in
theorem unfoldRule_mem {r : Rule} (hr : r ∈ h.rules) (hl : r.lhs ∈ g.nonterminals) :
    d.unfoldRule r ∈ g.rules := by
  rw [← (hd.folded hg).mem_iff]
  apply List.mem_map_of_mem
  simp [hr, hl]

include hd hg in
/-- There is one way to expand a rule: unfolding all definitions at once. -/
theorem expands_iff {r q : Rule} (hr : r ∈ h.rules) (hl : r.lhs ∈ g.nonterminals) :
    g.Expands h r q ↔ q = d.unfoldRule r := by
  constructor
  · rintro ⟨hlhs,hderives,hover⟩
    have hsame := hd.unfold_eq_of_derives hg hderives
    rw [hd.unfold_of_over hover] at hsame
    cases q
    simp_all [unfoldRule]
  · rintro rfl
    have hrule := hd.unfoldRule_mem hg hr hl
    exact ⟨rfl,hd.derives_unfold r.rhs,fun a ha => hg.rhs_declared _ hrule _ ha⟩

include hd hg in
theorem restoredFrom : g.RestoredFrom h where
  expands r hr hl := by
    simp only [hd.expands_iff hg hr hl]
    exact existsUnique_eq
  sound r hr hl q hq := by
    rw [(hd.expands_iff hg hr hl).mp hq]
    exact hd.unfoldRule_mem hg hr hl
  complete q hq := by
    obtain ⟨r,hr,rfl⟩ := List.mem_map.mp ((hd.folded hg).mem_iff.mpr hq)
    have hkeep : r ∈ h.rules ∧ r.lhs ∈ g.nonterminals := by simpa using hr
    refine ⟨r,⟨hkeep,(hd.expands_iff hg hkeep.1 hkeep.2).mpr rfl⟩,?_⟩
    rintro p ⟨⟨hp,hl⟩,hexpands⟩
    have hnodup := (hd.folded hg).nodup_iff.mpr hg.rules_ascending.nodup
    have hsame := (hd.expands_iff hg hp hl).mp hexpands
    exact List.inj_on_of_nodup_map hnodup (by simp [hp, hl]) hr hsame.symm

include hd hg in
theorem exists_rule {a : Char} (ha : a ∈ g.added h) : ∃ r ∈ h.rules, r.lhs = a := by
  have hname := (hd.spelled hg).mem_iff.mpr ((hd.names a).mpr (Grammar.mem_added.mp ha))
  obtain ⟨r,hr,hl⟩ := List.mem_map.mp hname
  exact ⟨r,(List.mem_filter.mp hr).1,hl⟩

include hd hg in
/-- A fresh non-terminal has no rule but the one that spells out its definition. -/
theorem rulesOf_lhs (hh : h.WellFormed) {r : Rule} (hr : r ∈ h.rules)
    (ha : r.lhs ∈ g.added h) : h.rulesOf r.lhs = [r] := by
  have hnew := (Grammar.mem_added.mp ha).2
  have hnodup := (hd.spelled hg).nodup_iff.mpr hd.nodup
  rw [Grammar.rulesOf_eq_filter hh.rules_ascending, ← List.perm_singleton,
    List.perm_ext_iff_of_nodup (hh.rules_ascending.nodup.filter _) (List.nodup_singleton r)]
  intro q
  constructor
  · intro hq
    obtain ⟨hq,hl⟩ := List.mem_filter.mp hq
    have hl : q.lhs = r.lhs := by simpa using hl
    rw [List.mem_singleton]
    exact List.inj_on_of_nodup_map hnodup (by simp [hq, hl, hnew]) (by simp [hr, hnew]) hl
  · intro hq
    rw [List.mem_singleton.mp hq]
    simp [hr]

include hd in
theorem card_added : (g.added h).card = d.length := by
  have hset : g.added h = (d.map Prod.fst).toFinset := by
    ext a
    rw [List.mem_toFinset, hd.names, Grammar.mem_added]
  rw [hset, List.toFinset_card_of_nodup hd.nodup, List.length_map]

include hd hg in
theorem length_rules : h.rules.length = g.rules.length + (g.added h).card := by
  have hold := (hd.folded hg).length_eq
  have hnew := (hd.spelled hg).length_eq
  have hall := List.length_eq_length_filter_add (l := h.rules) (·.lhs ∈ g.nonterminals)
  simp only [List.length_map, decide_not] at hold hnew
  rw [hall, hold, hnew, hd.card_added]

theorem closed_additions (g h : Grammar) : (g.additions h).Closed h.Generates := by
  intro r hr w hw
  exact h.generates_closed r (Grammar.mem_additions.mp hr).1 w hw

include hd in
/-- A fresh non-terminal generates what its definition reads in the grammar without it. -/
theorem generates_of_lookup (hclosed : g.Closed h.Generates) {a : Char} {f : Form}
    (hf : d.lookup a = some f) {w : List Char} :
    h.Generates a w ↔ Form.Denotes g.Generates f w := by
  rw [← expand_of_lookup hf]
  constructor
  · intro hw
    exact hd.explains.generates hw
  · intro hw
    have hwords : Form.Denotes h.Generates (d.expand (.nonterminal a)) w :=
      hw.mono fun b _ v hv => hv.least hclosed
    have hname := (hd.derives_expand (.nonterminal a)).denotes (closed_additions g h) hwords
    exact Form.denotes_singleton.mp hname

end Extends

end Definitions

end WordProblem
