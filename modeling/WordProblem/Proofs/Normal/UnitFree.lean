import WordProblem.Normal.UnitFree
import WordProblem.Proofs.Ascending
import WordProblem.Proofs.Closure

/-! # Removal of unit rules

What is left are the other rules of all non-terminals at the ends of unit paths. A chain of unit
steps in a derivation shrinks to the rule at its end and every such rule grows back to a chain, so
all languages stay the same, on cycles of unit rules too.
-/
namespace WordProblem.Grammar

variable {g : Grammar}

theorem dropUnits_nonterminals (g : Grammar) : g.dropUnits.nonterminals = g.nonterminals := rfl

theorem mem_inherited (hg : g.WellFormed) {a : Char} {q : Rule} :
    q ∈ g.inherited g.unitEdges a ↔ q.lhs = a ∧ q.isUnit = false ∧
      ∃ b, Path g.unitEdges a b ∧ ⟨b,q.rhs⟩ ∈ g.rules := by
  simp only [inherited, List.mem_flatMap, List.mem_map, List.mem_filter, mem_reach,
    mem_rulesOf hg.rules_ascending]
  constructor
  · rintro ⟨b,hb,r,⟨⟨hr,rfl⟩,hu⟩,rfl⟩
    exact ⟨rfl,by simpa [Rule.isUnit] using hu,r.lhs,hb,hr⟩
  · rintro ⟨rfl,hu,b,hb,hr⟩
    exact ⟨b,hb,⟨b,q.rhs⟩,⟨⟨hr,rfl⟩,by simpa [Rule.isUnit] using hu⟩,rfl⟩

theorem mem_dropUnits_rules (hg : g.WellFormed) {q : Rule} :
    q ∈ g.dropUnits.rules ↔ q.lhs ∈ g.nonterminals ∧ q.isUnit = false ∧
      ∃ b, Path g.unitEdges q.lhs b ∧ ⟨b,q.rhs⟩ ∈ g.rules := by
  simp only [dropUnits, Ascending.mem_ofList, List.mem_flatMap, mem_inherited hg]
  constructor
  · rintro ⟨_,ha,rfl,hq⟩
    exact ⟨ha,hq⟩
  · rintro ⟨ha,hq⟩
    exact ⟨q.lhs,ha,rfl,hq⟩

theorem generates_of_path {a b : Char} (hp : Path g.unitEdges a b) {w : List Char}
    (hw : g.Generates b w) : g.Generates a w := by
  induction hp using Relation.ReflTransGen.head_induction_on with
  | refl => exact hw
  | head he _ ih =>
    exact g.generates_closed _ (joined_unitEdges.mp he) w (Form.denotes_singleton.mpr ih)

/-- A word of `a` is generated by every declared non-terminal with a unit path to `a`. -/
theorem dropUnits_generates_of_path (hg : g.WellFormed) {a : Char} {w : List Char}
    (hw : g.Generates a w) : ∀ p ∈ g.nonterminals, Path g.unitEdges p a →
      g.dropUnits.Generates p w := by
  refine hw.least (L := fun a w => ∀ p ∈ g.nonterminals, Path g.unitEdges p a →
    g.dropUnits.Generates p w) ?_
  intro r hr w hw p hp hpath
  by_cases hu : r.isUnit = true
  · obtain ⟨b,hb⟩ := Rule.isUnit_iff.mp hu
    have hstep : Joined g.unitEdges r.lhs b := joined_unitEdges.mpr (hb ▸ hr)
    rw [hb, Form.denotes_singleton] at hw
    exact hw p hp (hpath.tail hstep)
  · have hq : ⟨p,r.rhs⟩ ∈ g.dropUnits.rules := (mem_dropUnits_rules hg).mpr
      ⟨hp,by simpa [Rule.isUnit] using hu,r.lhs,hpath,hr⟩
    refine g.dropUnits.generates_closed _ hq w (hw.mono fun b hb v hv => ?_)
    exact hv b (hg.rhs_declared r hr _ hb) .refl

theorem generates_dropUnits (hg : g.WellFormed) {a : Char} {w : List Char} :
    g.dropUnits.Generates a w ↔ g.Generates a w := by
  constructor
  · intro hw
    refine hw.least fun q hq w hw => ?_
    obtain ⟨_,_,b,hpath,hr⟩ := (mem_dropUnits_rules hg).mp hq
    exact generates_of_path hpath (g.generates_closed _ hr w hw)
  · intro hw
    exact dropUnits_generates_of_path hg hw a (declared_of_generates hg hw) .refl

theorem WellFormed.dropUnits (hg : g.WellFormed) : g.dropUnits.WellFormed := by
  refine { hg with
    rules_ascending := Ascending.pairwise_ofList _
    lhs_declared := fun q hq => ((mem_dropUnits_rules hg).mp hq).1
    rhs_declared := fun q hq s hs => ?_ }
  obtain ⟨_,_,b,_,hr⟩ := (mem_dropUnits_rules hg).mp hq
  exact hg.rhs_declared _ hr s hs

/-- Nothing happens to a grammar without unit rules. -/
theorem dropUnits_eq_self (hg : g.WellFormed) (hunit : ∀ r ∈ g.rules, r.isUnit = false) :
    g.dropUnits = g := by
  have hpath : ∀ a b, Path g.unitEdges a b → a = b := by
    intro a b hp
    cases hp with
    | refl => rfl
    | tail _ he =>
      have hno := hunit _ (joined_unitEdges.mp he)
      cases hno
  have hrules : g.dropUnits.rules = g.rules := by
    refine hg.dropUnits.rules_ascending.eq_of_mem_iff hg.rules_ascending fun q => ?_
    rw [mem_dropUnits_rules hg]
    constructor
    · rintro ⟨_,_,b,hp,hb⟩
      cases hpath _ _ hp
      exact hb
    · intro hq
      exact ⟨hg.lhs_declared q hq,hunit q hq,q.lhs,.refl,hq⟩
  exact congrArg (fun rules => { g with rules := rules }) hrules

end WordProblem.Grammar
