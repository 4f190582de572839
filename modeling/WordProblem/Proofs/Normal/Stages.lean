import WordProblem.Proofs.Normal.Binary
import WordProblem.Proofs.Normal.EpsilonFree
import WordProblem.Proofs.Normal.Isolated
import WordProblem.Proofs.Normal.UnitFree
import WordProblem.Proofs.Normal.Useful

/-! # The stages on the way to the normal form

The passes fail in a fixed order. Between them stand two grammars: the useful part, which has the
languages of the given one, and the useful part with short right sides, which has them too.
Every pass, in whatever order, keeps a grammar well formed.
-/
namespace WordProblem

namespace Grammar

variable {g h : Grammar}

/-- The grammar without useless non-terminals. -/
def useful (g : Grammar) : Grammar := (g.restrict g.productive).dropUnreachable

/-- The useful part with isolated terminals and split right sides. -/
def shortened (g : Grammar) : Grammar := g.useful.isolated.split

theorem shortening_eq (g : Grammar) :
    (g.isolateTerminals >>= fun i => i.splitLong >>= fun l => l.dropEpsilon >>= fun e =>
      pure e.dropUnits) =
    if g.unused.length < g.mixedTerminals.length then .error .outOfNonterminals
    else if g.isolated.unused.length < surplus g.isolated.rules then .error .outOfNonterminals
    else g.isolated.split.dropEpsilon.map dropUnits := by
  rw [isolateTerminals_eq]
  split
  · rfl
  · change g.isolated.splitLong >>= _ = _
    rw [splitLong_eq]
    split
    · rfl
    · change g.isolated.split.dropEpsilon >>= _ = _
      cases g.isolated.split.dropEpsilon <;> rfl

theorem normalForm_eq (g : Grammar) : g.normalForm =
    if g.start ∉ g.nonterminals then .error (.undeclaredStart g.start)
    else if g.start ∉ g.productive then .error (.emptyLanguage g.start)
    else if g.useful.unused.length < g.useful.mixedTerminals.length then .error .outOfNonterminals
    else if g.useful.isolated.unused.length < surplus g.useful.isolated.rules then
      .error .outOfNonterminals
    else g.shortened.dropEpsilon.map dropUnits := by
  by_cases hs : g.start ∈ g.nonterminals
  · rw [normalForm, if_pos hs, if_neg (not_not.mpr hs)]
    by_cases hp : g.start ∈ g.productive
    · rw [dropBarren_eq_ok.mpr ⟨hp,rfl⟩, if_neg (not_not.mpr hp)]
      exact shortening_eq g.useful
    · rw [dropBarren_eq_error.mpr ⟨hp,rfl⟩, if_pos hp]
      rfl
  · rw [normalForm, if_neg hs, if_pos hs]

theorem normalForm_eq_ok {c : Grammar} : g.normalForm = .ok c ↔
    g.start ∈ g.nonterminals ∧ g.start ∈ g.productive ∧
      g.useful.mixedTerminals.length ≤ g.useful.unused.length ∧
      surplus g.useful.isolated.rules ≤ g.useful.isolated.unused.length ∧
      ∃ e, g.shortened.dropEpsilon = .ok e ∧ c = e.dropUnits := by
  rw [normalForm_eq]
  split
  · next hs => simp [hs]
  split
  · next hp => simp [hp]
  split
  · next hi => simp [Nat.not_le.mpr hi]
  split
  · next hl => simp [Nat.not_le.mpr hl]
  next hs hp hi hl =>
    rw [not_not] at hs hp
    simp only [hs, hp, Nat.not_lt.mp hi, Nat.not_lt.mp hl, true_and]
    cases g.shortened.dropEpsilon <;> simp [Except.map, eq_comm]

/-! ## The useful part -/

section Useful
variable (hg : g.WellFormed)

include hg in
theorem WellFormed.useful : g.useful.WellFormed := (hg.restrict _).dropUnreachable

include hg in
theorem generates_useful {a : Char} (ha : a ∈ g.useful.nonterminals) {w : List Char} :
    g.useful.Generates a w ↔ g.Generates a w := by
  obtain ⟨hb,hr⟩ := mem_restrict_nonterminals.mp ha
  obtain ⟨_,hp⟩ := mem_restrict_nonterminals.mp hb
  exact (generates_dropUnreachable hr).trans ((sustains_productive hg).generates_restrict hp)

include hg in
theorem start_useful (hp : g.start ∈ g.productive) : g.start ∈ g.useful.nonterminals := by
  obtain ⟨w,hw⟩ := (mem_productive hg).mp hp
  have hs : g.start ∈ (g.restrict g.productive).nonterminals :=
    mem_restrict_nonterminals.mpr ⟨declared_of_generates hg hw,hp⟩
  exact mem_restrict_nonterminals.mpr ⟨hs,start_reachable _⟩

end Useful

/-! ## Short right sides -/

theorem shortened_alphabet (g : Grammar) : g.shortened.alphabet = g.alphabet := rfl

theorem shortened_terminals (g : Grammar) : g.shortened.terminals = g.terminals := rfl

section Shortened
variable (hg : g.WellFormed) (hi : g.mixedTerminals.length ≤ g.unused.length)
  (hl : surplus g.isolated.rules ≤ g.isolated.unused.length)

include hg hl in
theorem WellFormed.isolated_split : g.isolated.split.WellFormed := hg.isolated.split hl

theorem mem_isolated_split {a : Char} (ha : a ∈ g.nonterminals) :
    a ∈ g.isolated.split.nonterminals :=
  mem_split_nonterminals.mpr (Or.inr (mem_isolated_nonterminals.mpr (Or.inr ha)))

include hg hl in
theorem generates_isolated_split {a : Char} (ha : a ∈ g.nonterminals) {w : List Char} :
    g.isolated.split.Generates a w ↔ g.Generates a w := by
  have hlinks : a ∉ g.isolated.links := fun hmem =>
    not_declared_of_mem_take hmem (mem_isolated_nonterminals.mpr (Or.inr ha))
  have hproxies : a ∉ g.unused.take g.mixedTerminals.length := fun hmem =>
    not_declared_of_mem_take hmem ha
  exact (generates_split hg.isolated hl hlinks).trans (generates_isolated hg hproxies)

include hi hl in
theorem isolated_split_short {r : Rule} (hr : r ∈ g.isolated.split.rules) : r.Short := by
  have hlen := split_length hl hr
  have hshape := split_shape hl (fun q hq hlen s hs => isolated_shape hi hq hlen hs) hr
  unfold Rule.Short
  match hrhs : r.rhs with
  | [] => exact Or.inl rfl
  | [s] => exact Or.inr (Or.inl ⟨s,rfl⟩)
  | [s,t] =>
    rw [hrhs] at hshape
    obtain ⟨b,rfl⟩ := @hshape (by simp) s (by simp)
    obtain ⟨c,rfl⟩ := @hshape (by simp) t (by simp)
    exact Or.inr (Or.inr ⟨b,c,rfl⟩)
  | s :: t :: u :: rest =>
    rw [hrhs] at hlen
    simp at hlen

end Shortened

theorem generates_shortened (hg : g.WellFormed)
    (hl : surplus g.useful.isolated.rules ≤ g.useful.isolated.unused.length) {a : Char}
    (ha : a ∈ g.useful.nonterminals) {w : List Char} :
    g.shortened.Generates a w ↔ g.Generates a w :=
  (generates_isolated_split hg.useful hl ha).trans (generates_useful hg ha)

/-- What the last two passes find, and what they leave. -/
theorem exists_shortened (hg : g.WellFormed) (hc : g.normalForm = .ok h) :
    g.start ∈ g.productive ∧ g.shortened.WellFormed ∧ (∀ r ∈ g.shortened.rules, r.Short) ∧
      (∀ a ∈ g.useful.nonterminals, ∀ w, g.shortened.Generates a w ↔ g.Generates a w) ∧
      ∃ e, g.shortened.dropEpsilon = .ok e ∧ h = e.dropUnits := by
  obtain ⟨_,hp,hi,hl,hrest⟩ := normalForm_eq_ok.mp hc
  have hs : g.shortened.WellFormed := hg.useful.isolated_split hl
  have hshort : ∀ r ∈ g.shortened.rules, r.Short := fun r => isolated_split_short hi hl
  exact ⟨hp,hs,hshort,fun a ha w => generates_shortened hg hl ha,hrest⟩

/-! ## Every pass -/

theorem WellFormed.normalForm (hg : g.WellFormed) (hc : g.normalForm = .ok h) : h.WellFormed := by
  obtain ⟨_,hs,_,_,e,he,rfl⟩ := exists_shortened hg hc
  exact (hs.dropEpsilon he).dropUnits

theorem WellFormed.pass (hg : g.WellFormed) {p : Pass} (hp : p.apply g = .ok h) :
    h.WellFormed := by
  cases p with
  | dropBarren => exact hg.dropBarren hp
  | dropUnreachable =>
    cases hp
    exact hg.dropUnreachable
  | isolateTerminals =>
    obtain ⟨_,rfl⟩ := isolateTerminals_eq_ok.mp hp
    exact hg.isolated
  | splitLong =>
    obtain ⟨hl,rfl⟩ := splitLong_eq_ok.mp hp
    exact hg.split hl
  | dropEpsilon => exact hg.dropEpsilon hp
  | dropUnits =>
    cases hp
    exact hg.dropUnits
  | normalForm => exact hg.normalForm hp

theorem Built.wellFormed (h : g.Built) : g.WellFormed := by
  induction h with
  | empty ha => exact wellFormed_empty ha
  | declare _ hd ih => exact ih.declare hd
  | pass _ hp ih => exact ih.pass hp

theorem declareAll_cons_eq_ok {d : Declaration} {ds : List Declaration} :
    g.declareAll (d :: ds) = .ok h ↔ ∃ next, g.declare d = .ok next ∧ next.declareAll ds = .ok h := by
  unfold declareAll
  rw [List.foldlM_cons]
  cases g.declare d <;> simp [bind, Except.bind]

theorem declareAll_preserves {P : Grammar → Prop}
    (hstep : ∀ {g h : Grammar} {d : Declaration}, P g → g.declare d = .ok h → P h) (hg : P g)
    {ds : List Declaration} (hd : g.declareAll ds = .ok h) : P h := by
  induction ds generalizing g with
  | nil =>
    cases hd
    exact hg
  | cons d ds ih =>
    obtain ⟨next,hone,hrest⟩ := declareAll_cons_eq_ok.mp hd
    exact ih (hstep hg hone) hrest

theorem Built.declareAll (hg : g.Built) {ds : List Declaration} (hd : g.declareAll ds = .ok h) :
    h.Built :=
  declareAll_preserves (fun hg hd => hg.declare hd) hg hd

/-- The words of matching brackets. The alphabet is just large enough for the normal form. -/
def brackets : Grammar where
  alphabet := ⟨['S','A','B','C','D','E'],['(',')']⟩
  nonterminals := ['S']
  terminals := ['(',')']
  rules := [⟨'S',[]⟩,⟨'S',[.terminal '(',.nonterminal 'S',.terminal ')',.nonterminal 'S']⟩]

theorem brackets_built : brackets.Built := by
  have hchosen : brackets.alphabet.Chosen := ⟨some (['S','A','B','C','D','E'],['(',')']),by decide⟩
  have hd : (empty brackets.alphabet).declareAll [.nonterminal 'S',.terminal '(',.terminal ')',
      .rule 'S' [],.ruleText ['S','-','>','(','S',')','S']] = .ok brackets := by decide
  exact (Built.empty hchosen).declareAll hd

def normalBrackets : Grammar where
  alphabet := brackets.alphabet
  nonterminals := ['A','B','C','D','E','S']
  terminals := ['(',')']
  rules := [⟨'A',[.terminal '(']⟩,⟨'B',[.terminal ')']⟩,
    ⟨'C',[.terminal ')']⟩,⟨'C',[.nonterminal 'B',.nonterminal 'S']⟩,
    ⟨'C',[.nonterminal 'S',.nonterminal 'D']⟩,
    ⟨'D',[.terminal ')']⟩,⟨'D',[.nonterminal 'B',.nonterminal 'S']⟩,
    ⟨'E',[]⟩,⟨'E',[.nonterminal 'A',.nonterminal 'C']⟩,
    ⟨'S',[.nonterminal 'A',.nonterminal 'C']⟩]
  start := 'E'

theorem brackets_normalForm : brackets.normalForm = .ok normalBrackets := by decide +kernel

theorem normalBrackets_built : normalBrackets.Built :=
  brackets_built.pass (p := .normalForm) brackets_normalForm

end Grammar

end WordProblem
