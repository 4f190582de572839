import WordProblem.Normal.Useful
import WordProblem.Proofs.Closure

/-! # Useless non-terminals carry no words

Both removals are restrictions to a set of non-terminals. A restriction keeps the language of
every kept non-terminal if the set holds whatever a productive rule of a kept one mentions.
-/
namespace WordProblem.Grammar

variable {g h : Grammar} {keep : List Char}

theorem mem_restrict_nonterminals {a : Char} :
    a ∈ (g.restrict keep).nonterminals ↔ a ∈ g.nonterminals ∧ a ∈ keep := by
  simp [restrict]

theorem mem_restrict_rules {r : Rule} : r ∈ (g.restrict keep).rules ↔
    r ∈ g.rules ∧ r.lhs ∈ keep ∧ ∀ a, .nonterminal a ∈ r.rhs → a ∈ keep := by
  simp [restrict]

theorem WellFormed.restrict (hg : g.WellFormed) (keep : List Char) :
    (g.restrict keep).WellFormed where
  alphabet := hg.alphabet
  nonterminals_ascending := hg.nonterminals_ascending.filter _
  nonterminals_subset a ha := hg.nonterminals_subset a (mem_restrict_nonterminals.mp ha).1
  terminals_ascending := hg.terminals_ascending
  terminals_subset := hg.terminals_subset
  rules_ascending := hg.rules_ascending.filter _
  lhs_declared r hr := by
    obtain ⟨hr,hl,_⟩ := mem_restrict_rules.mp hr
    exact mem_restrict_nonterminals.mpr ⟨hg.lhs_declared r hr,hl⟩
  rhs_declared r hr s hs := by
    obtain ⟨hr,_,hrhs⟩ := mem_restrict_rules.mp hr
    have hd := hg.rhs_declared r hr s hs
    cases s with
    | terminal c => exact hd
    | nonterminal a => exact mem_restrict_nonterminals.mpr ⟨hd,hrhs a hs⟩

theorem restrict_eq_self (hg : g.WellFormed) (hkeep : ∀ a ∈ g.nonterminals, a ∈ keep) :
    g.restrict keep = g := by
  have hn : g.nonterminals.filter keep.contains = g.nonterminals :=
    List.filter_eq_self.mpr fun a ha => List.contains_iff_mem.mpr (hkeep a ha)
  have hr : (g.rules.filter fun r => keep.contains r.lhs && r.nonterminals.all keep.contains) =
      g.rules := by
    refine List.filter_eq_self.mpr fun r hr => ?_
    have hrhs : ∀ a, .nonterminal a ∈ r.rhs → a ∈ keep :=
      fun a ha => hkeep a (hg.rhs_declared r hr _ ha)
    simpa using ⟨hkeep _ (hg.lhs_declared r hr),hrhs⟩
  rw [restrict, hn, hr]

/-- The set holds what is mentioned by rules of its members, as far as words come of it. -/
def Sustains (g : Grammar) (keep : List Char) : Prop :=
  ∀ r ∈ g.rules, r.lhs ∈ keep → (∀ a, .nonterminal a ∈ r.rhs → ∃ w, g.Generates a w) →
    ∀ a, .nonterminal a ∈ r.rhs → a ∈ keep

theorem Sustains.generates_restrict (hk : g.Sustains keep) {a : Char} (ha : a ∈ keep)
    {w : List Char} : (g.restrict keep).Generates a w ↔ g.Generates a w := by
  constructor
  · exact Generates.mono fun r hr => (mem_restrict_rules.mp hr).1
  · intro hw
    -- carried through the rules: a word of `g`, and one of the restriction where it is kept
    refine (hw.least (L := fun a w => g.Generates a w ∧
      (a ∈ keep → (g.restrict keep).Generates a w)) ?_).2 ha
    intro r hr w hw
    refine ⟨g.generates_closed r hr w (hw.mono fun _ _ _ h => h.1),fun hl => ?_⟩
    have hrhs := hk r hr hl fun a ha => by
      obtain ⟨v,_,hv⟩ := hw.exists_word ha
      exact ⟨v,hv.1⟩
    exact (g.restrict keep).generates_closed r (mem_restrict_rules.mpr ⟨hr,hl,hrhs⟩) w
      (hw.mono fun a ha _ h => h.2 (hrhs a ha))

/-! ## Barren non-terminals -/

theorem dropBarren_eq_ok :
    g.dropBarren = .ok h ↔ g.start ∈ g.productive ∧ h = g.restrict g.productive := by
  by_cases hs : g.start ∈ g.productive <;> simp [dropBarren, hs, eq_comm]

theorem dropBarren_eq_error {e : NormalFormError} :
    g.dropBarren = .error e ↔ g.start ∉ g.productive ∧ e = .emptyLanguage g.start := by
  by_cases hs : g.start ∈ g.productive <;> simp [dropBarren, hs, eq_comm]

theorem start_productive_iff (hg : g.WellFormed) :
    g.start ∈ g.productive ↔ ∃ w, g.Accepts w := mem_productive hg

theorem WellFormed.dropBarren (hg : g.WellFormed) (hd : g.dropBarren = .ok h) : h.WellFormed := by
  obtain ⟨_,rfl⟩ := dropBarren_eq_ok.mp hd
  exact hg.restrict _

theorem sustains_productive (hg : g.WellFormed) : g.Sustains g.productive :=
  fun _ _ _ hwords a ha => (mem_productive hg).mpr (hwords a ha)

theorem generates_dropBarren (hg : g.WellFormed) (hd : g.dropBarren = .ok h) {a : Char}
    {w : List Char} : h.Generates a w ↔ g.Generates a w := by
  obtain ⟨_,rfl⟩ := dropBarren_eq_ok.mp hd
  constructor
  · exact Generates.mono fun r hr => (mem_restrict_rules.mp hr).1
  · intro hw
    exact ((sustains_productive hg).generates_restrict ((mem_productive hg).mpr ⟨w,hw⟩)).mpr hw

/-! ## Unreachable non-terminals -/

theorem mem_reachable {a : Char} : a ∈ g.reachable ↔ Path g.edges g.start a := mem_reach

theorem start_reachable (g : Grammar) : g.start ∈ g.reachable := mem_reachable.mpr .refl

theorem reachable_of_rule {r : Rule} (hr : r ∈ g.rules) (hl : r.lhs ∈ g.reachable) {a : Char}
    (ha : .nonterminal a ∈ r.rhs) : a ∈ g.reachable := by
  have hpath := mem_reachable.mp hl
  exact mem_reachable.mpr (hpath.tail (joined_edges.mpr ⟨r,hr,rfl,ha⟩))

/-- No rule of a reachable non-terminal holds one that is dropped. -/
theorem mem_dropUnreachable_rules {r : Rule} :
    r ∈ g.dropUnreachable.rules ↔ r ∈ g.rules ∧ r.lhs ∈ g.reachable := by
  rw [dropUnreachable, mem_restrict_rules]
  constructor
  · rintro ⟨hr,hl,_⟩
    exact ⟨hr,hl⟩
  · rintro ⟨hr,hl⟩
    exact ⟨hr,hl,fun _ => reachable_of_rule hr hl⟩

theorem sustains_reachable (g : Grammar) : g.Sustains g.reachable :=
  fun _ hr hl _ _ ha => reachable_of_rule hr hl ha

theorem WellFormed.dropUnreachable (hg : g.WellFormed) : g.dropUnreachable.WellFormed :=
  hg.restrict _

theorem generates_dropUnreachable {a : Char} (ha : a ∈ g.reachable) {w : List Char} :
    g.dropUnreachable.Generates a w ↔ g.Generates a w :=
  (sustains_reachable g).generates_restrict ha

/-- A path from the start symbol keeps all of its rules. -/
theorem reachable_dropUnreachable {a : Char} (ha : a ∈ g.reachable) :
    a ∈ g.dropUnreachable.reachable := by
  have hpath := mem_reachable.mp ha
  refine mem_reachable.mpr ?_
  induction hpath with
  | refl => exact .refl
  | @tail b c hb hedge ih =>
    obtain ⟨r,hr,rfl,hmem⟩ := joined_edges.mp hedge
    have hl := mem_reachable.mpr hb
    have hkept := mem_dropUnreachable_rules.mpr ⟨hr,hl⟩
    exact (ih hl).tail (joined_edges.mpr ⟨r,hkept,rfl,hmem⟩)

theorem dropUnreachable_again (hg : g.WellFormed) :
    g.dropUnreachable.dropUnreachable = g.dropUnreachable := by
  apply restrict_eq_self hg.dropUnreachable
  intro a ha
  exact reachable_dropUnreachable (mem_restrict_nonterminals.mp ha).2

end WordProblem.Grammar
