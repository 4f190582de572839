import WordProblem.Normal.EpsilonFree
import WordProblem.Proofs.Closure
import WordProblem.Proofs.Normal.Fresh

/-! # Removal of empty right sides

Without empty right sides every non-terminal loses the empty word and nothing else, provided that
right sides are short. A new start symbol, which no right side holds, takes up the empty word.
-/
namespace WordProblem

/-- At most two symbols, and two only if both are non-terminals. -/
def Rule.Short (r : Rule) : Prop :=
  r.rhs = [] ∨ (∃ s, r.rhs = [s]) ∨ ∃ b c, r.rhs = [.nonterminal b,.nonterminal c]

theorem Rule.mem_variants {nullable : List Char} {r q : Rule} : q ∈ r.variants nullable ↔
    q = r ∨ ∃ b c, r.rhs = [.nonterminal b,.nonterminal c] ∧
      (b ∈ nullable ∧ q = ⟨r.lhs,[.nonterminal c]⟩ ∨ c ∈ nullable ∧ q = ⟨r.lhs,[.nonterminal b]⟩) := by
  unfold variants
  split
  · next b c hbc =>
    by_cases hb : b ∈ nullable <;> by_cases hc : c ∈ nullable <;> simp [hb, hc, hbc]
  · next hne =>
    rw [List.mem_singleton]
    refine ⟨Or.inl,?_⟩
    rintro (rfl | ⟨b,c,hbc,_⟩)
    · rfl
    · exact (hne b c hbc).elim

theorem Form.Denotes.ne_nil {L : Interpretation} (hL : ∀ a v, L a v → v ≠ []) {f : Form}
    (hf : f ≠ []) {w : List Char} (h : Form.Denotes L f w) : w ≠ [] := by
  cases f with
  | nil => exact absurd rfl hf
  | cons s f =>
    obtain ⟨u,v,rfl,hs,_⟩ := h
    have hu : u ≠ [] := by
      cases s with
      | terminal c => rw [show u = [c] from hs]; exact List.cons_ne_nil _ _
      | nonterminal a => exact hL a u hs
    simp [hu]

namespace Grammar

variable {g h : Grammar}

/-- What is left of a grammar without empty right sides. -/
def epsilonFree (g : Grammar) : Grammar :=
  { g with
    rules := (Ascending.ofList (g.rules.flatMap (·.variants g.nullable))).filter (!·.isEpsilon) }

/-- The grammar with a new start symbol for the empty word. -/
def restart (g : Grammar) (s : Char) : Grammar :=
  { g with
    nonterminals := Ascending.insert s g.nonterminals
    rules := Ascending.insert ⟨s,[]⟩ (Ascending.insert ⟨s,[.nonterminal g.start]⟩ g.rules)
    start := s }

theorem dropEpsilon_of_not_nullable (hs : g.start ∉ g.nullable) :
    g.dropEpsilon = .ok g.epsilonFree := by
  simp [dropEpsilon, epsilonFree, hs]

theorem dropEpsilon_of_nullable (hs : g.start ∈ g.nullable) : g.dropEpsilon =
    match g.unused with
    | [] => .error .outOfNonterminals
    | s :: _ => .ok (g.epsilonFree.restart s) := by
  simp only [dropEpsilon, List.contains_iff_mem.mpr hs, if_true]
  rfl

theorem epsilonFree_nonterminals (g : Grammar) : g.epsilonFree.nonterminals = g.nonterminals := rfl

theorem mem_epsilonFree_rules {q : Rule} : q ∈ g.epsilonFree.rules ↔
    q.rhs ≠ [] ∧ ∃ r ∈ g.rules, q ∈ r.variants g.nullable := by
  simp [epsilonFree, Rule.isEpsilon, and_comm]

theorem generates_of_epsilonFree (hg : g.WellFormed) {a : Char} {w : List Char}
    (hw : g.epsilonFree.Generates a w) : g.Generates a w ∧ w ≠ [] := by
  refine hw.least (L := fun a w => g.Generates a w ∧ w ≠ []) ?_
  intro q hq w hw
  obtain ⟨hne,r,hr,hv⟩ := mem_epsilonFree_rules.mp hq
  have hread : Form.Denotes g.Generates q.rhs w := hw.mono fun _ _ _ h => h.1
  refine ⟨?_,hw.ne_nil (fun _ _ h => h.2) hne⟩
  rcases Rule.mem_variants.mp hv with rfl | ⟨b,c,hbc,⟨hb,rfl⟩ | ⟨hc,rfl⟩⟩
  · exact g.generates_closed q hr w hread
  · refine g.generates_closed r hr w ?_
    rw [hbc]
    exact Form.denotes_pair.mpr
      ⟨[],w,rfl,(mem_nullable hg).mp hb,Form.denotes_singleton.mp hread⟩
  · refine g.generates_closed r hr w ?_
    rw [hbc]
    exact Form.denotes_pair.mpr
      ⟨w,[],by simp,Form.denotes_singleton.mp hread,(mem_nullable hg).mp hc⟩

/-- A reading in which words that are not empty have been carried over already. -/
theorem epsilonFree_rule (hg : g.WellFormed) {r : Rule} (hr : r ∈ g.rules) (hshort : r.Short)
    {w : List Char} (hne : w ≠ []) (hw : Form.Denotes
      (fun a v => g.Generates a v ∧ (v ≠ [] → g.epsilonFree.Generates a v)) r.rhs w) :
    g.epsilonFree.Generates r.lhs w := by
  have keep : ∀ q ∈ r.variants g.nullable, q.rhs ≠ [] → q ∈ g.epsilonFree.rules :=
    fun q hq hrhs => mem_epsilonFree_rules.mpr ⟨hrhs,r,hr,hq⟩
  have whole := keep r (Rule.mem_variants.mpr (Or.inl rfl))
  rcases hshort with he | ⟨s,he⟩ | ⟨b,c,he⟩
  · rw [he] at hw
    exact absurd hw hne
  · rw [he] at hw
    refine g.epsilonFree.generates_closed r (whole (by simp [he])) w ?_
    rw [he, Form.denotes_singleton]
    cases s with
    | terminal d => exact Form.denotes_singleton.mp hw
    | nonterminal b => exact (Form.denotes_singleton.mp hw).2 hne
  · rw [he] at hw
    obtain ⟨u,v,rfl,⟨hu,hu'⟩,hv,hv'⟩ := Form.denotes_pair.mp hw
    -- a half that stands for the empty word is left out
    by_cases hu0 : u = []
    · subst hu0
      have hq := keep ⟨r.lhs,[.nonterminal c]⟩
        (Rule.mem_variants.mpr (Or.inr ⟨b,c,he,Or.inl ⟨(mem_nullable hg).mpr hu,rfl⟩⟩)) (by simp)
      exact g.epsilonFree.generates_closed _ hq v (Form.denotes_singleton.mpr (hv' hne))
    · by_cases hv0 : v = []
      · subst hv0
        rw [List.append_nil]
        have hq := keep ⟨r.lhs,[.nonterminal b]⟩
          (Rule.mem_variants.mpr (Or.inr ⟨b,c,he,Or.inr ⟨(mem_nullable hg).mpr hv,rfl⟩⟩)) (by simp)
        exact g.epsilonFree.generates_closed _ hq u (Form.denotes_singleton.mpr (hu' hu0))
      · refine g.epsilonFree.generates_closed r (whole (by simp [he])) _ ?_
        rw [he]
        exact Form.denotes_pair.mpr ⟨u,v,rfl,hu' hu0,hv' hv0⟩

/-- Every non-terminal loses the empty word and nothing else. -/
theorem generates_epsilonFree (hg : g.WellFormed) (hshort : ∀ r ∈ g.rules, r.Short) {a : Char}
    {w : List Char} : g.epsilonFree.Generates a w ↔ g.Generates a w ∧ w ≠ [] := by
  refine ⟨generates_of_epsilonFree hg,?_⟩
  rintro ⟨hw,hne⟩
  refine (hw.least (L := fun a v => g.Generates a v ∧
    (v ≠ [] → g.epsilonFree.Generates a v)) ?_).2 hne
  intro r hr w hw
  exact ⟨g.generates_closed r hr w (hw.mono fun _ _ _ h => h.1),
    fun hne => epsilonFree_rule hg hr (hshort r hr) hne hw⟩

theorem WellFormed.epsilonFree (hg : g.WellFormed) : g.epsilonFree.WellFormed := by
  refine { hg with
    rules_ascending := (Ascending.pairwise_ofList _).filter _
    lhs_declared := fun q hq => ?_
    rhs_declared := fun q hq s hs => ?_ }
  · obtain ⟨_,r,hr,hv⟩ := mem_epsilonFree_rules.mp hq
    have hl := hg.lhs_declared r hr
    rcases Rule.mem_variants.mp hv with rfl | ⟨b,c,_,⟨_,rfl⟩ | ⟨_,rfl⟩⟩ <;> exact hl
  · obtain ⟨_,r,hr,hv⟩ := mem_epsilonFree_rules.mp hq
    have hrhs := hg.rhs_declared r hr
    rcases Rule.mem_variants.mp hv with rfl | ⟨b,c,hbc,⟨_,rfl⟩ | ⟨_,rfl⟩⟩
    · exact hrhs s hs
    · exact hrhs s (by rw [hbc, List.mem_singleton.mp hs]; simp)
    · exact hrhs s (by rw [hbc, List.mem_singleton.mp hs]; simp)

theorem not_nullable_of_nonempty (hg : g.WellFormed) (hne : ∀ r ∈ g.rules, r.rhs ≠ []) {a : Char} :
    a ∉ g.nullable := by
  intro ha
  have hw := (mem_nullable hg).mp ha
  have hwords : g.Closed fun _ w => w ≠ [] :=
    fun r hr w hw => hw.ne_nil (fun _ _ hv => hv) (hne r hr)
  exact hw.least hwords rfl

/-- Nothing happens to a grammar without empty right sides. -/
theorem epsilonFree_eq_self (hg : g.WellFormed) (hne : ∀ r ∈ g.rules, r.rhs ≠ []) :
    g.epsilonFree = g := by
  have hrules : g.epsilonFree.rules = g.rules := by
    refine hg.epsilonFree.rules_ascending.eq_of_mem_iff hg.rules_ascending fun q => ?_
    rw [mem_epsilonFree_rules]
    constructor
    · rintro ⟨_,r,hr,hv⟩
      rcases Rule.mem_variants.mp hv with rfl | ⟨b,c,_,⟨hb,_⟩ | ⟨hc,_⟩⟩
      · exact hr
      · exact absurd hb (not_nullable_of_nonempty hg hne)
      · exact absurd hc (not_nullable_of_nonempty hg hne)
    · intro hq
      exact ⟨hne q hq,q,hq,Rule.mem_variants.mpr (Or.inl rfl)⟩
  exact congrArg (fun rules => { g with rules := rules }) hrules

theorem epsilonFree_short (hshort : ∀ r ∈ g.rules, r.Short) {q : Rule}
    (hq : q ∈ g.epsilonFree.rules) : q.Short := by
  obtain ⟨_,r,hr,hv⟩ := mem_epsilonFree_rules.mp hq
  rcases Rule.mem_variants.mp hv with rfl | ⟨b,c,_,⟨_,rfl⟩ | ⟨_,rfl⟩⟩
  · exact hshort q hr
  · exact Or.inr (Or.inl ⟨_,rfl⟩)
  · exact Or.inr (Or.inl ⟨_,rfl⟩)

/-! ## The new start symbol -/

theorem mem_restart_rules {s : Char} {r : Rule} : r ∈ (g.restart s).rules ↔
    r = ⟨s,[]⟩ ∨ r = ⟨s,[.nonterminal g.start]⟩ ∨ r ∈ g.rules := by
  simp [restart]

theorem mem_restart_nonterminals {s a : Char} :
    a ∈ (g.restart s).nonterminals ↔ a = s ∨ a ∈ g.nonterminals := Ascending.mem_insert

section Restart
variable {s : Char} (hg : g.WellFormed) (hs : s ∉ g.nonterminals)

include hg hs in
theorem restart_lhs {r : Rule} (hr : r ∈ g.rules) : r.lhs ≠ s :=
  fun he => hs (he ▸ hg.lhs_declared r hr)

include hg hs in
theorem restart_rhs {r : Rule} (hr : r ∈ g.rules) : .nonterminal s ∉ r.rhs :=
  fun hmem => hs (hg.rhs_declared r hr _ hmem)

include hg hs in
theorem generates_restart {a : Char} (ha : a ≠ s) {w : List Char} :
    (g.restart s).Generates a w ↔ g.Generates a w := by
  constructor
  · intro hw
    refine hw.least (L := fun a w => a ≠ s → g.Generates a w) ?_ ha
    intro r hr w hw hne
    rcases mem_restart_rules.mp hr with rfl | rfl | hold
    · exact absurd rfl hne
    · exact absurd rfl hne
    · refine g.generates_closed r hold w (hw.mono fun b hb v hv => hv ?_)
      rintro rfl
      exact restart_rhs hg hs hold hb
  · exact Generates.mono fun r hr => mem_restart_rules.mpr (Or.inr (Or.inr hr))

include hg hs in
/-- The new symbol generates the empty word and what the old start symbol does. -/
theorem accepts_restart (hstart : g.start ∈ g.nonterminals) {w : List Char} :
    (g.restart s).Accepts w ↔ w = [] ∨ g.Accepts w := by
  have hold : g.start ≠ s := fun he => hs (he ▸ hstart)
  have hinherit : Form.Denotes (g.restart s).Generates [.nonterminal g.start] w ↔ g.Accepts w :=
    Form.denotes_singleton.trans (generates_restart hg hs hold)
  rw [Accepts, generates_iff]
  constructor
  · rintro ⟨r,hr,hl,hw⟩
    rcases mem_restart_rules.mp hr with rfl | rfl | hr
    · exact Or.inl hw
    · exact Or.inr (hinherit.mp hw)
    · exact absurd hl (restart_lhs hg hs hr)
  · rintro (rfl | hw)
    · exact ⟨⟨s,[]⟩,mem_restart_rules.mpr (Or.inl rfl),rfl,rfl⟩
    · exact ⟨⟨s,[.nonterminal g.start]⟩,mem_restart_rules.mpr (Or.inr (Or.inl rfl)),rfl,
        hinherit.mpr hw⟩

include hg in
theorem WellFormed.restart (ha : s ∈ g.alphabet.nonterminals) (hstart : g.start ∈ g.nonterminals) :
    (g.restart s).WellFormed where
  alphabet := hg.alphabet
  nonterminals_ascending := Ascending.pairwise_insert _ hg.nonterminals_ascending
  nonterminals_subset a hm := by
    rcases mem_restart_nonterminals.mp hm with rfl | hm
    · exact ha
    · exact hg.nonterminals_subset a hm
  terminals_ascending := hg.terminals_ascending
  terminals_subset := hg.terminals_subset
  rules_ascending :=
    Ascending.pairwise_insert _ (Ascending.pairwise_insert _ hg.rules_ascending)
  lhs_declared r hr := by
    rcases mem_restart_rules.mp hr with rfl | rfl | hr
    · exact mem_restart_nonterminals.mpr (Or.inl rfl)
    · exact mem_restart_nonterminals.mpr (Or.inl rfl)
    · exact mem_restart_nonterminals.mpr (Or.inr (hg.lhs_declared r hr))
  rhs_declared r hr t ht := by
    rcases mem_restart_rules.mp hr with rfl | rfl | hr
    · cases ht
    · rw [List.mem_singleton.mp ht]
      exact mem_restart_nonterminals.mpr (Or.inr hstart)
    · exact (hg.rhs_declared r hr t ht).mono
        (fun _ hb => mem_restart_nonterminals.mpr (Or.inr hb)) fun _ hc => hc

end Restart

/-! ## The whole pass -/

theorem dropEpsilon_eq_ok {e : Grammar} : g.dropEpsilon = .ok e ↔
    g.start ∉ g.nullable ∧ e = g.epsilonFree ∨
      g.start ∈ g.nullable ∧ ∃ s rest, g.unused = s :: rest ∧ e = g.epsilonFree.restart s := by
  by_cases hs : g.start ∈ g.nullable
  · rw [dropEpsilon_of_nullable hs]
    cases g.unused with
    | nil => simp [hs]
    | cons s rest => simp [hs, eq_comm]
  · rw [dropEpsilon_of_not_nullable hs]
    simp [hs, eq_comm]

theorem dropEpsilon_cases {e : Grammar} (he : g.dropEpsilon = .ok e) :
    g.start ∉ g.nullable ∧ e = g.epsilonFree ∨
      g.start ∈ g.nullable ∧ ∃ s rest, g.unused = s :: rest ∧ e = g.epsilonFree.restart s :=
  dropEpsilon_eq_ok.mp he

section Pass
variable {e : Grammar} (hg : g.WellFormed) (he : g.dropEpsilon = .ok e)

theorem unused_head {s : Char} {rest : List Char} (hu : g.unused = s :: rest) :
    s ∈ g.alphabet.nonterminals ∧ s ∉ g.nonterminals :=
  mem_unused.mp (hu ▸ List.mem_cons_self)

include hg in
theorem start_declared_of_nullable (hs : g.start ∈ g.nullable) : g.start ∈ g.nonterminals :=
  declared_of_generates hg ((mem_nullable hg).mp hs)

include he in
theorem dropEpsilon_alphabet : e.alphabet = g.alphabet := by
  rcases dropEpsilon_cases he with ⟨_,rfl⟩ | ⟨_,s,_,_,rfl⟩ <;> rfl

include he in
theorem dropEpsilon_terminals : e.terminals = g.terminals := by
  rcases dropEpsilon_cases he with ⟨_,rfl⟩ | ⟨_,s,_,_,rfl⟩ <;> rfl

include he in
theorem dropEpsilon_start (hs : g.start ∈ g.nonterminals) : e.start ∈ e.nonterminals := by
  rcases dropEpsilon_cases he with ⟨_,rfl⟩ | ⟨_,s,_,_,rfl⟩
  · exact hs
  · exact mem_restart_nonterminals.mpr (Or.inl rfl)

include hg he in
theorem WellFormed.dropEpsilon : e.WellFormed := by
  rcases dropEpsilon_cases he with ⟨_,rfl⟩ | ⟨hs,s,rest,hu,rfl⟩
  · exact hg.epsilonFree
  · have hstart := start_declared_of_nullable hg hs
    exact hg.epsilonFree.restart (unused_head hu).1 hstart

include hg he in
theorem generates_dropEpsilon (hshort : ∀ r ∈ g.rules, r.Short) {a : Char}
    (ha : a ∈ g.nonterminals) {w : List Char} : e.Generates a w ↔ g.Generates a w ∧ w ≠ [] := by
  rcases dropEpsilon_cases he with ⟨_,rfl⟩ | ⟨_,s,rest,hu,rfl⟩
  · exact generates_epsilonFree hg hshort
  · have hs := (unused_head hu).2
    have hne : a ≠ s := fun h => hs (h ▸ ha)
    exact (generates_restart hg.epsilonFree hs hne).trans (generates_epsilonFree hg hshort)

include hg he in
theorem accepts_dropEpsilon (hshort : ∀ r ∈ g.rules, r.Short) {w : List Char} :
    e.Accepts w ↔ g.Accepts w := by
  have hnull : g.start ∈ g.nullable ↔ g.Accepts [] := mem_nullable hg
  have hrest : g.epsilonFree.Accepts w ↔ g.Accepts w ∧ w ≠ [] := generates_epsilonFree hg hshort
  rcases dropEpsilon_cases he with ⟨hs,rfl⟩ | ⟨hs,s,rest,hu,rfl⟩
  · rw [hrest, and_iff_left_iff_imp]
    rintro hw rfl
    exact hs (hnull.mpr hw)
  · have hstart := start_declared_of_nullable hg hs
    rw [accepts_restart hg.epsilonFree (unused_head hu).2 hstart, hrest]
    by_cases hw : w = []
    · subst hw
      simpa using hnull.mp hs
    · simp [hw]

include he in
theorem dropEpsilon_short (hshort : ∀ r ∈ g.rules, r.Short) {r : Rule} (hr : r ∈ e.rules) :
    r.Short := by
  rcases dropEpsilon_cases he with ⟨_,rfl⟩ | ⟨_,s,_,_,rfl⟩
  · exact epsilonFree_short hshort hr
  · rcases mem_restart_rules.mp hr with rfl | rfl | hr
    · exact Or.inl rfl
    · exact Or.inr (Or.inl ⟨_,rfl⟩)
    · exact epsilonFree_short hshort hr

include hg he in
/-- An empty right side is that of the start symbol, which no right side holds then. -/
theorem dropEpsilon_empty {r : Rule} (hr : r ∈ e.rules) (hempty : r.rhs = []) :
    r.lhs = e.start ∧ ∀ q ∈ e.rules, .nonterminal e.start ∉ q.rhs := by
  rcases dropEpsilon_cases he with ⟨_,rfl⟩ | ⟨hs,s,rest,hu,rfl⟩
  · exact absurd hempty (mem_epsilonFree_rules.mp hr).1
  · have hfresh := (unused_head hu).2
    constructor
    · rcases mem_restart_rules.mp hr with rfl | rfl | hr
      · rfl
      · rfl
      · exact absurd hempty (mem_epsilonFree_rules.mp hr).1
    · intro q hq
      rcases mem_restart_rules.mp hq with rfl | rfl | hq
      · exact List.not_mem_nil
      · intro hmem
        cases List.mem_singleton.mp hmem
        exact hfresh (start_declared_of_nullable hg hs)
      · exact restart_rhs hg.epsilonFree hfresh hq

end Pass

end Grammar

end WordProblem
