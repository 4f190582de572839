import WordProblem.Proofs.Normal.Chomsky

/-! # The normal form of a normal form

Most passes find nothing to do in a grammar that is in normal form already, once it is rid of its
useless non-terminals. Only a start symbol that produces the empty word is not recognized as one
that stands apart: a further start symbol takes its place and takes over its rules.
-/
namespace WordProblem

theorem Rule.Fits.length_le {g : Grammar} {r : Rule} (h : r.Fits g) : r.rhs.length ≤ 2 := by
  rcases h.1 with ⟨he,_⟩ | ⟨c,he⟩ | ⟨b,c,he⟩ <;> simp [he]

namespace Grammar

variable {g u : Grammar} {f : Char}

/-! ## The useful part has no useless part -/

theorem useful_productive (hg : g.WellFormed) {a : Char} (ha : a ∈ g.useful.nonterminals) :
    a ∈ g.useful.productive := by
  obtain ⟨hb,_⟩ := mem_restrict_nonterminals.mp ha
  obtain ⟨_,hp⟩ := mem_restrict_nonterminals.mp hb
  obtain ⟨w,hw⟩ := (mem_productive hg).mp hp
  exact (mem_productive hg.useful).mpr ⟨w,(generates_useful hg ha).mpr hw⟩

theorem restrict_useful (hg : g.WellFormed) : g.useful.restrict g.useful.productive = g.useful :=
  restrict_eq_self hg.useful fun _ => useful_productive hg

theorem dropUnreachable_useful (hg : g.WellFormed) : g.useful.dropUnreachable = g.useful :=
  dropUnreachable_again (hg.restrict _)

theorem useful_useful (hg : g.WellFormed) : g.useful.useful = g.useful :=
  calc g.useful.useful
    _ = (g.useful.restrict g.useful.productive).dropUnreachable := rfl
    _ = g.useful.dropUnreachable := by rw [restrict_useful hg]
    _ = g.useful := dropUnreachable_useful hg

theorem rule_of_useful {r : Rule} (hr : r ∈ g.useful.rules) : r ∈ g.rules :=
  (mem_restrict_rules.mp (mem_restrict_rules.mp hr).1).1

theorem useful_fits (hn : ∀ r ∈ g.rules, r.Fits g) : ∀ r ∈ g.useful.rules, r.Fits g.useful := by
  intro r hr
  obtain ⟨hshape,hapart⟩ := hn r (rule_of_useful hr)
  exact ⟨hshape,fun hs => hapart (rule_of_useful hs)⟩

/-- The useful part keeps the empty word of the start symbol. -/
theorem epsilon_useful_iff (hp : g.start ∈ g.productive) :
    ⟨g.start,[]⟩ ∈ g.useful.rules ↔ ⟨g.start,[]⟩ ∈ g.rules := by
  refine ⟨rule_of_useful,fun hs => ?_⟩
  have hb : ⟨g.start,[]⟩ ∈ (g.restrict g.productive).rules :=
    mem_restrict_rules.mpr ⟨hs,hp,by simp⟩
  exact mem_restrict_rules.mpr ⟨hb,start_reachable _,by simp⟩

/-! ## Passes with nothing to do -/

section Normal
variable (hg : g.WellFormed) (hn : ∀ r ∈ g.rules, r.Fits g)

include hn in
theorem mixedTerminals_of_fits : g.mixedTerminals = [] := by
  refine mixedTerminals_eq_nil fun r hr hlen s hs => ?_
  rcases (hn r hr).1 with ⟨he,_⟩ | ⟨d,he⟩ | ⟨a,b,he⟩
  · simp [he] at hlen
  · simp [he] at hlen
  · rw [he] at hs
    rcases List.mem_pair.mp hs with rfl | rfl
    · exact ⟨a,rfl⟩
    · exact ⟨b,rfl⟩

include hg hn in
theorem isolated_of_fits : g.isolated = g := isolated_eq_self hg (mixedTerminals_of_fits hn)

include hg hn in
theorem split_of_fits : g.split = g := split_eq_self hg fun r hr => (hn r hr).length_le

include hg hn in
theorem nullable_of_fits {a : Char} :
    a ∈ g.nullable ↔ a = g.start ∧ ⟨g.start,[]⟩ ∈ g.rules := by
  rw [mem_nullable hg]
  refine ⟨start_of_generates_nil hn,?_⟩
  rintro ⟨rfl,hs⟩
  exact g.generates_closed _ hs [] rfl

include hn in
theorem rhs_eq_nil_iff_of_fits {r : Rule} (hr : r ∈ g.rules) :
    r.rhs = [] ↔ r = ⟨g.start,[]⟩ := by
  obtain ⟨lhs,rhs⟩ := r
  rcases (hn _ hr).1 with ⟨he,hl⟩ | ⟨c,he⟩ | ⟨b,c,he⟩ <;> simp_all

include hg hn in
/-- A nullable start symbol stands on no right side, so no right side loses a half. -/
theorem mem_epsilonFree_of_fits {q : Rule} :
    q ∈ g.epsilonFree.rules ↔ q ∈ g.rules ∧ q ≠ ⟨g.start,[]⟩ := by
  rw [mem_epsilonFree_rules]
  constructor
  · rintro ⟨hne,r,hr,hv⟩
    rcases Rule.mem_variants.mp hv with rfl | ⟨b,c,hbc,⟨hb,rfl⟩ | ⟨hc,rfl⟩⟩
    · exact ⟨hr,mt (rhs_eq_nil_iff_of_fits hn hr).mpr hne⟩
    · obtain ⟨rfl,hs⟩ := (nullable_of_fits hg hn).mp hb
      exact absurd (by simp [hbc]) ((hn r hr).2 hs)
    · obtain ⟨rfl,hs⟩ := (nullable_of_fits hg hn).mp hc
      exact absurd (by simp [hbc]) ((hn r hr).2 hs)
  · rintro ⟨hq,hne⟩
    exact ⟨mt (rhs_eq_nil_iff_of_fits hn hq).mp hne,q,hq,Rule.mem_variants.mpr (Or.inl rfl)⟩

include hg hn in
theorem epsilonFree_of_fits (hs : ⟨g.start,[]⟩ ∉ g.rules) : g.epsilonFree = g := by
  refine epsilonFree_eq_self hg fun r hr hempty => ?_
  rw [(rhs_eq_nil_iff_of_fits hn hr).mp hempty] at hr
  exact hs hr

include hn in
theorem not_isUnit_of_fits {r : Rule} (hr : r ∈ g.rules) : r.isUnit = false := by
  rcases (hn r hr).1 with ⟨he,_⟩ | ⟨c,he⟩ | ⟨b,c,he⟩ <;> simp [Rule.isUnit, he]

include hg hn in
theorem dropUnits_of_fits : g.dropUnits = g :=
  dropUnits_eq_self hg fun _ => not_isUnit_of_fits hn

end Normal

/-! ## The further start symbol -/

/-- A grammar whose start symbol hands the empty word over to `f`, which also takes over its other
rules. -/
def renewed (u : Grammar) (f : Char) : Grammar :=
  { u with
    nonterminals := Ascending.insert f u.nonterminals
    rules := Ascending.ofList (⟨f,[]⟩ :: u.rules.filter (· ≠ ⟨u.start,[]⟩) ++
      (u.rules.filter fun r => r.lhs = u.start ∧ r.rhs ≠ []).map fun r => ⟨f,r.rhs⟩)
    start := f }

theorem mem_renewed_rules {q : Rule} : q ∈ (u.renewed f).rules ↔
    q = ⟨f,[]⟩ ∨ (q ∈ u.rules ∧ q ≠ ⟨u.start,[]⟩) ∨
      q.lhs = f ∧ q.rhs ≠ [] ∧ ⟨u.start,q.rhs⟩ ∈ u.rules := by
  simp only [renewed, Ascending.mem_ofList, List.cons_append, List.mem_cons, List.mem_append,
    List.mem_filter, List.mem_map, decide_eq_true_eq]
  refine or_congr Iff.rfl (or_congr Iff.rfl ?_)
  constructor
  · rintro ⟨⟨_,rhs⟩,⟨hr,rfl,hne⟩,rfl⟩
    exact ⟨rfl,hne,hr⟩
  · rintro ⟨rfl,hne,hr⟩
    exact ⟨⟨u.start,q.rhs⟩,⟨hr,rfl,hne⟩,rfl⟩

section Start
variable (hu : u.WellFormed) (hn : ∀ r ∈ u.rules, r.Fits u) (hs : ⟨u.start,[]⟩ ∈ u.rules)
  (ha : f ∈ u.alphabet.nonterminals) (hf : f ∉ u.nonterminals)

include hu hn in
theorem mem_restart_of_fits {q : Rule} : q ∈ (u.epsilonFree.restart f).rules ↔
    q = ⟨f,[]⟩ ∨ q = ⟨f,[.nonterminal u.start]⟩ ∨ q ∈ u.rules ∧ q ≠ ⟨u.start,[]⟩ := by
  rw [mem_restart_rules, mem_epsilonFree_of_fits hu hn]
  rfl

include hu hn in
theorem joined_restart {a b : Char} :
    Joined (u.epsilonFree.restart f).unitEdges a b ↔ a = f ∧ b = u.start := by
  rw [joined_unitEdges, mem_restart_of_fits hu hn]
  constructor
  · rintro (h | h | ⟨h,_⟩)
    · cases h
    · cases h
      exact ⟨rfl,rfl⟩
    · cases not_isUnit_of_fits hn h
  · rintro ⟨rfl,rfl⟩
    exact Or.inr (Or.inl rfl)

include hu hn in
/-- The only unit path leads from the new start symbol to the old one. -/
theorem restart_path {a b : Char} (hp : Path (u.epsilonFree.restart f).unitEdges a b) :
    a = b ∨ a = f ∧ b = u.start := by
  induction hp with
  | refl => exact Or.inl rfl
  | tail _ he ih =>
    obtain ⟨rfl,rfl⟩ := (joined_restart hu hn).mp he
    rcases ih with rfl | ⟨rfl,_⟩ <;> exact Or.inr ⟨rfl,rfl⟩

include hu hn hs ha hf in
/-- A rule is its own, unless the new start symbol has it from the old one. -/
theorem mem_dropUnits_restart {q : Rule} : q ∈ (u.epsilonFree.restart f).dropUnits.rules ↔
    q = ⟨f,[]⟩ ∨ (q ∈ u.rules ∧ q ≠ ⟨u.start,[]⟩) ∨
      q.lhs = f ∧ q.rhs ≠ [] ∧ ⟨u.start,q.rhs⟩ ∈ u.rules := by
  have hstart : u.start ∈ u.nonterminals := hu.lhs_declared _ hs
  have hold : u.start ≠ f := fun h => hf (h ▸ hstart)
  have hw : (u.epsilonFree.restart f).WellFormed := hu.epsilonFree.restart ha hstart
  rw [mem_dropUnits_rules hw]
  constructor
  · rintro ⟨_,hunit,b,hp,hb⟩
    rw [mem_restart_of_fits hu hn] at hb
    rcases restart_path hu hn hp with rfl | ⟨hl,rfl⟩
    · rcases hb with h | h | h
      · exact Or.inl h
      · cases hunit.symm.trans (Rule.isUnit_iff.mpr ⟨_,congrArg Rule.rhs h⟩)
      · exact Or.inr (Or.inl h)
    · rcases hb with h | h | ⟨h,hne⟩
      · exact absurd (congrArg Rule.lhs h) hold
      · exact absurd (congrArg Rule.lhs h) hold
      · exact Or.inr (Or.inr ⟨hl,by simpa using hne,h⟩)
  · rintro (rfl | ⟨hq,hne⟩ | ⟨rfl,hne,hq⟩)
    · exact ⟨mem_restart_nonterminals.mpr (Or.inl rfl),rfl,f,.refl,
        (mem_restart_of_fits hu hn).mpr (Or.inl rfl)⟩
    · exact ⟨mem_restart_nonterminals.mpr (Or.inr (hu.lhs_declared q hq)),
        not_isUnit_of_fits hn hq,q.lhs,.refl,
        (mem_restart_of_fits hu hn).mpr (Or.inr (Or.inr ⟨hq,hne⟩))⟩
    · have hunit : (⟨u.start,q.rhs⟩ : Rule).isUnit = false := not_isUnit_of_fits hn hq
      exact ⟨mem_restart_nonterminals.mpr (Or.inl rfl),hunit,u.start,
        .single ((joined_restart hu hn).mpr ⟨rfl,rfl⟩),
        (mem_restart_of_fits hu hn).mpr (Or.inr (Or.inr ⟨hq,by simpa using hne⟩))⟩

include hu hn hs ha hf in
theorem dropUnits_restart : (u.epsilonFree.restart f).dropUnits = u.renewed f := by
  have hw : (u.epsilonFree.restart f).WellFormed :=
    hu.epsilonFree.restart ha (hu.lhs_declared _ hs)
  have hrules : (u.epsilonFree.restart f).dropUnits.rules = (u.renewed f).rules := by
    refine hw.dropUnits.rules_ascending.eq_of_mem_iff (Ascending.pairwise_ofList _) fun q => ?_
    exact (mem_dropUnits_restart hu hn hs ha hf).trans mem_renewed_rules.symm
  exact congrArg (fun rules => { u.renewed f with rules := rules }) hrules

end Start

/-! ## All passes -/

section Again
variable (hg : g.WellFormed) (hn : ∀ r ∈ g.rules, r.Fits g)

include hg hn in
/-- Only the last two passes have anything to do. -/
theorem normalForm_of_fits (hs : g.start ∈ g.nonterminals) (hp : g.start ∈ g.productive) :
    g.normalForm = g.useful.dropEpsilon.map dropUnits := by
  have hfits := useful_fits hn
  have hi : g.useful.isolated = g.useful := isolated_of_fits hg.useful hfits
  have hshort : surplus g.useful.rules = 0 :=
    surplus_of_short fun r hr => (hfits r hr).length_le
  have hl : g.shortened = g.useful := by
    rw [shortened, hi]
    exact split_of_fits hg.useful hfits
  rw [normalForm_eq, if_neg (not_not.mpr hs), if_neg (not_not.mpr hp), hl, hi,
    mixedTerminals_of_fits hfits, hshort, if_neg (by simp), if_neg (by simp)]

include hg hn in
theorem dropEpsilon_of_fits (hs : ⟨g.start,[]⟩ ∉ g.rules) :
    g.dropEpsilon.map dropUnits = .ok g := by
  have hnull : g.start ∉ g.nullable := fun h => hs ((nullable_of_fits hg hn).mp h).2
  rw [dropEpsilon_of_not_nullable hnull, epsilonFree_of_fits hg hn hs]
  exact congrArg Except.ok (dropUnits_of_fits hg hn)

include hg hn in
theorem dropEpsilon_renews (hs : ⟨g.start,[]⟩ ∈ g.rules) : g.dropEpsilon.map dropUnits =
    match g.unused with
    | [] => .error .outOfNonterminals
    | f :: _ => .ok (g.renewed f) := by
  have hnull : g.start ∈ g.nullable := (nullable_of_fits hg hn).mpr ⟨rfl,hs⟩
  rw [dropEpsilon_of_nullable hnull]
  cases hu : g.unused with
  | nil => rfl
  | cons f rest =>
    obtain ⟨ha,hf⟩ := unused_head hu
    exact congrArg Except.ok (dropUnits_restart hg hn hs ha hf)

end Again

/-- The first non-terminal of the alphabet that the grammar does not declare. -/
def firstUnused? (u : Grammar) : Option Char :=
  u.alphabet.nonterminals.find? fun c => c ∉ u.nonterminals

theorem firstUnused_eq (u : Grammar) : u.firstUnused? = u.unused.head? := by
  rw [unused, List.head?_filter, firstUnused?]
  congr 1
  funext c
  rw [Bool.eq_iff_iff]
  simp

theorem unused_eq_nil_iff : u.unused = [] ↔ ∀ a ∈ u.alphabet.nonterminals, a ∈ u.nonterminals := by
  simp [unused, List.filter_eq_nil_iff]

/-- The normal form of a grammar in normal form is its useful part. If its start symbol produces
the empty word, then a further one takes its place, for which the alphabet must have room. -/
theorem normalForm_again (hg : g.Built) (hs : g.start ∈ g.nonterminals) (hn : g.isNormal = true)
    (hw : ∃ w, g.Accepts w) :
    ∃ b u, g.dropBarren = .ok b ∧ u = b.dropUnreachable ∧
      (⟨g.start,[]⟩ ∉ g.rules → g.normalForm = .ok u ∧ u.normalForm = .ok u) ∧
      (⟨g.start,[]⟩ ∈ g.rules →
        (g.normalForm = .error .outOfNonterminals ↔
          ∀ a ∈ g.alphabet.nonterminals, a ∈ u.nonterminals) ∧
        ((¬∀ a ∈ g.alphabet.nonterminals, a ∈ u.nonterminals) →
          ∃ f, u.firstUnused? = some f ∧ g.normalForm = .ok (u.renewed f))) := by
  have hwf := hg.wellFormed
  have hfits := isNormal_iff.mp hn
  have hp := (start_productive_iff hwf).mpr hw
  have hu := useful_fits hfits
  have heps := epsilon_useful_iff hp
  have hform := normalForm_of_fits hwf hfits hs hp
  refine ⟨_,g.useful,dropBarren_eq_ok.mpr ⟨hp,rfl⟩,rfl,fun hne => ?_,fun he => ?_⟩
  · have hself := dropEpsilon_of_fits hwf.useful hu (mt heps.mp hne)
    have hstart := start_useful hwf hp
    have hagain := normalForm_of_fits hwf.useful hu hstart (useful_productive hwf hstart)
    rw [useful_useful hwf] at hagain
    exact ⟨hform.trans hself,hagain.trans hself⟩
  · have hrenew := hform.trans (dropEpsilon_renews hwf.useful hu (heps.mpr he))
    have hfull : g.useful.unused = [] ↔ ∀ a ∈ g.alphabet.nonterminals, a ∈ g.useful.nonterminals :=
      unused_eq_nil_iff
    rw [← hfull, firstUnused_eq, hrenew]
    cases g.useful.unused with
    | nil => simp
    | cons f rest => simp

theorem normalForm_again_normalBrackets : normalBrackets.isNormal = true ∧
    ∃ b u, normalBrackets.dropBarren = .ok b ∧ u = b.dropUnreachable ∧
      (normalBrackets.normalForm = .error .outOfNonterminals ↔
        ∀ a ∈ normalBrackets.alphabet.nonterminals, a ∈ u.nonterminals) := by
  have hs : normalBrackets.start ∈ normalBrackets.nonterminals := by decide
  have hn : normalBrackets.isNormal = true := by decide
  have he : ⟨normalBrackets.start,[]⟩ ∈ normalBrackets.rules := by decide
  have hw : normalBrackets.Accepts [] := normalBrackets.generates_closed _ he [] rfl
  obtain ⟨b,u,hb,hu,_,hempty⟩ := normalForm_again normalBrackets_built hs hn ⟨[],hw⟩
  exact ⟨hn,b,u,hb,hu,(hempty he).1⟩

end Grammar

end WordProblem
