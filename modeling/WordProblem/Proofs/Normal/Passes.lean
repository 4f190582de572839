import WordProblem.Proofs.Normal.Renewal

/-! # Passes by themselves

On the way to the normal form each pass finds what the ones before it have left. Here passes are
taken alone, for every grammar that declarations and passes lead to. The removal of empty right
sides keeps all words only if right sides are short, but adds none in any case. The removal of unit
rules keeps the language of every non-terminal.
-/
namespace WordProblem.Grammar

variable {g e : Grammar}

/-! ## Empty right sides -/

section Epsilon
variable (hg : g.WellFormed) (he : g.dropEpsilon = .ok e)

theorem dropEpsilon_eq_error {reason : NormalFormError} : g.dropEpsilon = .error reason ↔
    g.start ∈ g.nullable ∧ g.unused = [] ∧ reason = .outOfNonterminals := by
  by_cases hs : g.start ∈ g.nullable
  · rw [dropEpsilon_of_nullable hs]
    cases g.unused with
    | nil => simp [hs, eq_comm]
    | cons s rest => simp
  · rw [dropEpsilon_of_not_nullable hs]
    simp [hs]

include hg in
/-- The pass fails for one reason: the language needs a new start symbol and there is none. -/
theorem dropEpsilon_fails_iff {reason : NormalFormError} : g.dropEpsilon = .error reason ↔
    reason = .outOfNonterminals ∧ g.Accepts [] ∧
      ∀ a ∈ g.alphabet.nonterminals, a ∈ g.nonterminals := by
  have hnull : g.start ∈ g.nullable ↔ g.Accepts [] := mem_nullable hg
  rw [dropEpsilon_eq_error, hnull, unused_eq_nil_iff, ← and_assoc, and_comm]

include hg he in
/-- Whatever the shape of right sides, no word comes in. -/
theorem accepts_of_dropEpsilon {w : List Char} (hw : e.Accepts w) : g.Accepts w := by
  rcases dropEpsilon_cases he with ⟨_,rfl⟩ | ⟨hs,s,rest,hu,rfl⟩
  · exact (generates_of_epsilonFree hg hw).1
  · have hstart := start_declared_of_nullable hg hs
    rcases (accepts_restart hg.epsilonFree (unused_head hu).2 hstart).mp hw with rfl | hold
    · exact (mem_nullable hg).mp hs
    · exact (generates_of_epsilonFree hg hold).1

include hg he in
/-- The empty word, if it is in the language, comes from a rule of the start symbol. -/
theorem dropEpsilon_rule_iff : ⟨e.start,[]⟩ ∈ e.rules ↔ g.Accepts [] := by
  have hnull : g.start ∈ g.nullable ↔ g.Accepts [] := mem_nullable hg
  rcases dropEpsilon_cases he with ⟨hs,rfl⟩ | ⟨hs,s,_,_,rfl⟩
  · constructor
    · intro hr
      exact absurd rfl (mem_epsilonFree_rules.mp hr).1
    · intro hw
      exact absurd (hnull.mpr hw) hs
  · have hrule : (⟨s,[]⟩ : Rule) ∈ (g.epsilonFree.restart s).rules :=
      mem_restart_rules.mpr (Or.inl rfl)
    exact ⟨fun _ => hnull.mp hs,fun _ => hrule⟩

include hg he in
theorem accepts_nil_dropEpsilon : e.Accepts [] ↔ g.Accepts [] := by
  constructor
  · exact accepts_of_dropEpsilon hg he
  · intro hw
    exact e.generates_closed _ ((dropEpsilon_rule_iff hg he).mpr hw) [] rfl

include hg he in
/-- The start symbol of the empty word is new, and it is the only new one. -/
theorem dropEpsilon_renewed (hw : g.Accepts []) :
    e.start ∈ g.alphabet.nonterminals ∧ e.start ∉ g.nonterminals ∧
      ∀ a, a ∈ e.nonterminals ↔ a = e.start ∨ a ∈ g.nonterminals := by
  rcases dropEpsilon_cases he with ⟨hs,_⟩ | ⟨_,s,rest,hu,rfl⟩
  · exact absurd ((mem_nullable hg).mpr hw) hs
  · obtain ⟨ha,hn⟩ := unused_head hu
    exact ⟨ha,hn,fun a => mem_restart_nonterminals⟩

end Epsilon

/-- Without empty right sides no word is gained, and the empty word stays. With short right sides no
word is lost either, and non-terminals lose the empty word alone. -/
theorem dropEpsilon_language (hg : g.Built) :
    (∀ reason, g.dropEpsilon = .error reason ↔ reason = .outOfNonterminals ∧ g.Accepts [] ∧
      ∀ a ∈ g.alphabet.nonterminals, a ∈ g.nonterminals) ∧
    ∀ e, g.dropEpsilon = .ok e →
      ((∀ w, e.Accepts w → g.Accepts w) ∧ (e.Accepts [] ↔ g.Accepts [])) ∧
      ((∀ r ∈ e.rules, r.rhs = [] → r.lhs = e.start) ∧
        (⟨e.start,[]⟩ ∈ e.rules ↔ g.Accepts [])) ∧
      (g.Accepts [] →
        (e.start ∈ g.alphabet.nonterminals ∧ e.start ∉ g.nonterminals ∧
          ∀ a, a ∈ e.nonterminals ↔ a = e.start ∨ a ∈ g.nonterminals) ∧
        ∀ r ∈ e.rules, .nonterminal e.start ∉ r.rhs) ∧
      ((∀ r ∈ g.rules, r.Short) → (∀ w, e.Accepts w ↔ g.Accepts w) ∧
        ∀ a ∈ g.nonterminals, ∀ w, e.Generates a w ↔ g.Generates a w ∧ w ≠ []) := by
  have hw := hg.wellFormed
  constructor
  · intro reason
    exact dropEpsilon_fails_iff hw
  intro e he
  have hsub : ∀ w, e.Accepts w → g.Accepts w := fun w => accepts_of_dropEpsilon hw he
  have hrule := dropEpsilon_rule_iff hw he
  refine ⟨⟨hsub,accepts_nil_dropEpsilon hw he⟩,⟨?_,hrule⟩,?_,?_⟩
  · intro r hr hempty
    exact (dropEpsilon_empty hw he hr hempty).1
  · intro hnil
    obtain ⟨_,hfresh⟩ := dropEpsilon_empty hw he (hrule.mpr hnil) rfl
    exact ⟨dropEpsilon_renewed hw he hnil,hfresh⟩
  · intro hshort
    constructor
    · intro w
      exact accepts_dropEpsilon hw he hshort
    · intro a ha w
      exact generates_dropEpsilon hw he hshort ha

/-- Any number of `a` and at most one `b` after them. -/
def optional : Grammar where
  alphabet := ⟨['S','A','B','C'],['a','b']⟩
  nonterminals := ['A','B','S']
  terminals := ['a','b']
  rules := [⟨'A',[]⟩,⟨'A',[.terminal 'a']⟩,⟨'A',[.nonterminal 'A',.nonterminal 'A']⟩,
    ⟨'B',[]⟩,⟨'B',[.terminal 'b']⟩,⟨'S',[.nonterminal 'A',.nonterminal 'B']⟩]

theorem optional_built : optional.Built := by
  have hchosen : optional.alphabet.Chosen := ⟨some (['S','A','B','C'],['a','b']),by decide⟩
  have hd : (empty optional.alphabet).declareAll [.nonterminal 'S',.nonterminal 'A',.nonterminal 'B',
      .terminal 'a',.terminal 'b',.rule 'S' ['A','B'],.rule 'A' ['A','A'],.rule 'A' ['a'],
      .rule 'A' [],.rule 'B' ['b'],.rule 'B' []] = .ok optional := by decide
  exact (Built.empty hchosen).declareAll hd

def optionalFree : Grammar := optional.epsilonFree.restart 'C'

theorem optional_dropEpsilon : optional.dropEpsilon = .ok optionalFree := by decide +kernel

theorem dropEpsilon_language_optional : optional.Accepts [] ∧ (∀ r ∈ optional.rules, r.Short) ∧
    optional.dropEpsilon = .ok optionalFree ∧ (∀ w, optionalFree.Accepts w ↔ optional.Accepts w) ∧
    ∀ w, optionalFree.Generates 'A' w ↔ optional.Generates 'A' w ∧ w ≠ [] := by
  have hnil : optional.Accepts [] := by
    have hs : optional.start ∈ optional.nullable := by decide +kernel
    exact (mem_nullable optional_built.wellFormed).mp hs
  have hshort : ∀ r ∈ optional.rules, r.Short := by simp [optional, Rule.Short]
  obtain ⟨_,hok⟩ := dropEpsilon_language optional_built
  obtain ⟨_,_,_,hall⟩ := hok optionalFree optional_dropEpsilon
  obtain ⟨haccepts,hgenerates⟩ := hall hshort
  exact ⟨hnil,hshort,optional_dropEpsilon,haccepts,hgenerates 'A' (by decide)⟩

/-! ## Unit rules -/

/-- `g` has the unit rule `a -> b`. -/
def UnitStep (g : Grammar) (a b : Char) : Prop := ⟨a,[.nonterminal b]⟩ ∈ g.rules

theorem path_unitEdges {a b : Char} :
    Path g.unitEdges a b ↔ Relation.ReflTransGen g.UnitStep a b := by
  have hstep : Joined g.unitEdges = g.UnitStep := by
    funext x y
    exact propext joined_unitEdges
  rw [Path, hstep]

theorem mem_dropUnits_iff (hg : g.WellFormed) {a : Char} {rhs : Form} :
    ⟨a,rhs⟩ ∈ g.dropUnits.rules ↔ a ∈ g.nonterminals ∧ ∃ b,
      Relation.ReflTransGen g.UnitStep a b ∧ ⟨b,rhs⟩ ∈ g.rules ∧ Rule.isUnit ⟨b,rhs⟩ = false := by
  rw [mem_dropUnits_rules hg]
  constructor
  · rintro ⟨ha,hunit,b,hpath,hb⟩
    exact ⟨ha,b,path_unitEdges.mp hpath,hb,hunit⟩
  · rintro ⟨ha,b,hpath,hb,hunit⟩
    exact ⟨ha,hunit,b,path_unitEdges.mpr hpath,hb⟩

/-- A declared non-terminal has the rules at the ends of its chains of unit rules, and no others. So
there is no unit rule left and every language stays, whatever cycles the unit rules have. -/
theorem dropUnits_language (hg : g.Built) :
    (∀ a rhs, ⟨a,rhs⟩ ∈ g.dropUnits.rules ↔ a ∈ g.nonterminals ∧ ∃ b,
      Relation.ReflTransGen g.UnitStep a b ∧ ⟨b,rhs⟩ ∈ g.rules ∧ Rule.isUnit ⟨b,rhs⟩ = false) ∧
    (∀ r ∈ g.dropUnits.rules, ∀ b, r.rhs ≠ [.nonterminal b]) ∧
    (g.dropUnits.nonterminals = g.nonterminals ∧ g.dropUnits.terminals = g.terminals ∧
      g.dropUnits.start = g.start) ∧
    ∀ a ∈ g.nonterminals, ∀ w, g.dropUnits.Generates a w ↔ g.Generates a w := by
  have hw := hg.wellFormed
  refine ⟨?_,?_,⟨rfl,rfl,rfl⟩,?_⟩
  · intro a rhs
    exact mem_dropUnits_iff hw
  · intro r hr b hb
    obtain ⟨_,hunit,_⟩ := (mem_dropUnits_rules hw).mp hr
    rw [Rule.isUnit_iff.mpr ⟨b,hb⟩] at hunit
    cases hunit
  · intro a _ w
    exact generates_dropUnits hw

/-- The removal of empty right sides has left a unit rule of a non-terminal for itself. The new start
symbol takes over what stands two unit rules away. -/
theorem dropUnits_language_optional :
    optionalFree.UnitStep 'A' 'A' ∧ ⟨'C',[.terminal 'a']⟩ ∉ optionalFree.rules ∧
    ⟨'C',[.terminal 'a']⟩ ∈ optionalFree.dropUnits.rules ∧
    ∀ w, optionalFree.dropUnits.Generates 'C' w ↔ optionalFree.Generates 'C' w := by
  have hbuilt : optionalFree.Built := optional_built.pass (p := .dropEpsilon) optional_dropEpsilon
  have hloop : optionalFree.UnitStep 'A' 'A' := by
    rw [UnitStep]
    decide +kernel
  have hfirst : optionalFree.UnitStep 'C' 'S' := by
    rw [UnitStep]
    decide +kernel
  have hsecond : optionalFree.UnitStep 'S' 'A' := by
    rw [UnitStep]
    decide +kernel
  obtain ⟨hrules,_,_,hlanguage⟩ := dropUnits_language hbuilt
  have hend := (hrules 'C' [.terminal 'a']).mpr
    ⟨by decide +kernel,'A',.tail (.single hfirst) hsecond,by decide +kernel,rfl⟩
  exact ⟨hloop,by decide +kernel,hend,hlanguage 'C' (by decide +kernel)⟩

end WordProblem.Grammar
