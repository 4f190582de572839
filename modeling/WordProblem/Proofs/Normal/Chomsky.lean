import WordProblem.Proofs.Normal.Stages

/-! # The normal form and its language

The check of rules is compared with the definition of the normal form. The last pass leaves only
rules that fit, because the passes before it have made right sides short and have set the start
symbol apart, and no pass changes a language but for the empty word.
-/
namespace WordProblem

/-- A right side is one terminal or two non-terminals. Only the start symbol may produce the empty
word, and then no right side holds it. -/
def Rule.Fits (g : Grammar) (r : Rule) : Prop :=
  (r.rhs = [] ∧ r.lhs = g.start ∨ (∃ c, r.rhs = [.terminal c]) ∨
    ∃ b c, r.rhs = [.nonterminal b,.nonterminal c]) ∧
  (⟨g.start,[]⟩ ∈ g.rules → .nonterminal g.start ∉ r.rhs)

theorem Rule.isNormal_iff {g : Grammar} {r : Rule} :
    r.isNormal g.start (g.hasRule ⟨g.start,[]⟩) = true ↔ r.Fits g := by
  have hnull : g.hasRule ⟨g.start,[]⟩ = true ↔ ⟨g.start,[]⟩ ∈ g.rules := List.contains_iff_mem
  unfold isNormal Fits
  match hrhs : r.rhs with
  | [] => simp
  | [.terminal c] => simp [Symbol.isTerminal]
  | [.nonterminal b] => simp [Symbol.isTerminal]
  | [.terminal b,_] => simp [Symbol.isNonterminal]
  | [.nonterminal b,.terminal c] => simp [Symbol.isNonterminal]
  | [.nonterminal b,.nonterminal c] =>
    by_cases hn : g.hasRule ⟨g.start,[]⟩ = true
    · simp [Symbol.isNonterminal, uses, hrhs, hn, hnull.mp hn]
    · have hmem : ⟨g.start,[]⟩ ∉ g.rules := fun h => hn (hnull.mpr h)
      simp [Symbol.isNonterminal, hn, hmem]
  | _ :: _ :: _ :: _ => simp

namespace Grammar

variable {g e : Grammar}

theorem isNormal_iff : g.isNormal = true ↔ ∀ r ∈ g.rules, r.Fits g := by
  rw [isNormal, offendingRule?, Option.isNone_iff_eq_none, List.find?_eq_none]
  exact forall₂_congr fun r _ => by rw [← Rule.isNormal_iff]; simp

/-- The rule that is complained about is the least one that does not fit. -/
theorem offendingRule_least (hg : g.WellFormed) {r : Rule} (h : g.offendingRule? = some r) :
    r ∈ g.rules ∧ ¬r.Fits g ∧ ∀ q ∈ g.rules, ¬q.Fits g → q = r ∨ r < q := by
  obtain ⟨hr,before,after,hrules,hbefore⟩ := List.find?_eq_some_iff_append.mp h
  have hmem : r ∈ g.rules := by simp [hrules]
  refine ⟨hmem,?_,fun q hq hne => ?_⟩
  · rw [← Rule.isNormal_iff]
    simpa using hr
  · have hascending := hg.rules_ascending
    rw [hrules] at hascending hq
    rcases List.mem_append.mp hq with hq | hq
    · exact absurd (Rule.isNormal_iff.mp (by simpa using hbefore q hq)) hne
    · rcases List.mem_cons.mp hq with rfl | hq
      · exact Or.inl rfl
      · exact Or.inr (List.rel_of_pairwise_cons (List.pairwise_append.mp hascending).2.1 hq)

/-- The start symbol alone can generate the empty word, by a rule of its own. -/
theorem start_of_generates_nil (hn : ∀ r ∈ g.rules, r.Fits g) {a : Char} (h : g.Generates a []) :
    a = g.start ∧ ⟨g.start,[]⟩ ∈ g.rules := by
  refine h.least (L := fun a w => w = [] → a = g.start ∧ ⟨g.start,[]⟩ ∈ g.rules) ?_ rfl
  rintro ⟨a,rhs⟩ hr w hw rfl
  obtain ⟨hshape,hapart⟩ := hn _ hr
  rcases hshape with ⟨rfl,rfl⟩ | ⟨c,rfl⟩ | ⟨b,c,rfl⟩
  · exact ⟨rfl,hr⟩
  · cases Form.denotes_singleton.mp hw
  · obtain ⟨u,v,huv,hu,_⟩ := Form.denotes_pair.mp hw
    obtain ⟨rfl,hs⟩ := hu (List.append_eq_nil_iff.mp huv.symm).1
    exact absurd List.mem_cons_self (hapart hs)

theorem eq_of_unit_path {a b : Char} (hb : ∀ r ∈ g.rules, .nonterminal b ∉ r.rhs)
    (hp : Path g.unitEdges a b) : a = b := by
  cases hp with
  | refl => rfl
  | tail _ he => exact absurd (List.mem_singleton_self _) (hb _ (joined_unitEdges.mp he))

/-- Without unit rules every rule fits, if right sides were short and only a start symbol that
stands apart produced the empty word. -/
theorem dropUnits_fits (he : e.WellFormed) (hshort : ∀ r ∈ e.rules, r.Short)
    (hempty : ∀ r ∈ e.rules, r.rhs = [] →
      r.lhs = e.start ∧ ∀ q ∈ e.rules, .nonterminal e.start ∉ q.rhs) :
    ∀ q ∈ e.dropUnits.rules, q.Fits e.dropUnits := by
  intro q hq
  obtain ⟨_,hunit,b,hpath,hr⟩ := (mem_dropUnits_rules he).mp hq
  constructor
  · rcases hshort _ hr with hrhs | ⟨s,hrhs⟩ | hrhs
    · obtain ⟨rfl,hapart⟩ := hempty _ hr hrhs
      exact Or.inl ⟨hrhs,eq_of_unit_path hapart hpath⟩
    · cases s with
      | terminal c => exact Or.inr (Or.inl ⟨c,hrhs⟩)
      | nonterminal c =>
        have hu : q.isUnit = true := Rule.isUnit_iff.mpr ⟨c,hrhs⟩
        simp [hu] at hunit
    · exact Or.inr (Or.inr hrhs)
  · intro hs
    -- the empty rule was inherited from one that was there before
    obtain ⟨_,_,d,_,hd⟩ := (mem_dropUnits_rules he).mp hs
    exact (hempty _ hd rfl).2 ⟨b,q.rhs⟩ hr

section NormalForm
variable {c : Grammar} (hg : g.WellFormed) (hc : g.normalForm = .ok c)

include hc in
theorem normalForm_alphabet : c.alphabet = g.alphabet := by
  obtain ⟨_,_,_,_,e,he,rfl⟩ := normalForm_eq_ok.mp hc
  calc e.dropUnits.alphabet
    _ = e.alphabet := rfl
    _ = g.shortened.alphabet := dropEpsilon_alphabet he
    _ = g.alphabet := shortened_alphabet g

include hc in
theorem normalForm_terminals : c.terminals = g.terminals := by
  obtain ⟨_,_,_,_,e,he,rfl⟩ := normalForm_eq_ok.mp hc
  calc e.dropUnits.terminals
    _ = e.terminals := rfl
    _ = g.shortened.terminals := dropEpsilon_terminals he
    _ = g.terminals := shortened_terminals g

include hg hc in
theorem normalForm_start : c.start ∈ c.nonterminals := by
  obtain ⟨hp,_,_,_,e,he,rfl⟩ := exists_shortened hg hc
  have hs : g.shortened.start ∈ g.shortened.nonterminals :=
    mem_isolated_split (start_useful hg hp)
  have hstart : e.start ∈ e.nonterminals := dropEpsilon_start he hs
  exact hstart

include hg hc in
theorem normalForm_fits : ∀ r ∈ c.rules, r.Fits c := by
  obtain ⟨_,hs,hshort,_,e,he,rfl⟩ := exists_shortened hg hc
  exact dropUnits_fits (hs.dropEpsilon he) (fun r => dropEpsilon_short he hshort)
    fun r => dropEpsilon_empty hs he

include hg hc in
/-- The useful non-terminals lose the empty word and nothing else. -/
theorem normalForm_generates {a : Char} (ha : a ∈ g.useful.nonterminals) {w : List Char} :
    c.Generates a w ↔ g.Generates a w ∧ w ≠ [] := by
  obtain ⟨_,hs,hshort,hkeep,e,he,rfl⟩ := exists_shortened hg hc
  calc e.dropUnits.Generates a w
    _ ↔ e.Generates a w := generates_dropUnits (hs.dropEpsilon he)
    _ ↔ g.shortened.Generates a w ∧ w ≠ [] :=
        generates_dropEpsilon hs he hshort (mem_isolated_split ha)
    _ ↔ g.Generates a w ∧ w ≠ [] := and_congr_left' (hkeep a ha w)

include hg hc in
theorem normalForm_accepts {w : List Char} : c.Accepts w ↔ g.Accepts w := by
  obtain ⟨hp,hs,hshort,hkeep,e,he,rfl⟩ := exists_shortened hg hc
  calc e.dropUnits.Accepts w
    _ ↔ e.Accepts w := generates_dropUnits (hs.dropEpsilon he)
    _ ↔ g.shortened.Accepts w := accepts_dropEpsilon hs he hshort
    _ ↔ g.Accepts w := hkeep g.start (start_useful hg hp) w

end NormalForm

/-- The normal form deserves its name, is over the same symbols and has the same language. The
non-terminals that were useful before keep their languages but for the empty word. -/
theorem normalForm_sound {c : Grammar} (hg : g.Built) (hc : g.normalForm = .ok c) :
    (c.WellFormed ∧ c.start ∈ c.nonterminals) ∧
    (c.isNormal = true ∧ ∀ r ∈ c.rules, r.Fits c) ∧
    (c.alphabet = g.alphabet ∧ c.terminals = g.terminals) ∧
    (∀ w, c.Accepts w ↔ g.Accepts w) ∧
    ∃ b, g.dropBarren = .ok b ∧ ∀ a ∈ b.dropUnreachable.nonterminals, ∀ w,
      c.Generates a w ↔ g.Generates a w ∧ w ≠ [] := by
  have hw := hg.wellFormed
  have hfits := normalForm_fits hw hc
  obtain ⟨hp,_⟩ := exists_shortened hw hc
  refine ⟨⟨hw.normalForm hc,normalForm_start hw hc⟩,⟨isNormal_iff.mpr hfits,hfits⟩,
    ⟨normalForm_alphabet hc,normalForm_terminals hc⟩,fun w => normalForm_accepts hw hc,?_⟩
  exact ⟨g.restrict g.productive,dropBarren_eq_ok.mpr ⟨hp,rfl⟩,
    fun a ha w => normalForm_generates hw hc ha⟩

theorem normalForm_sound_brackets : brackets.normalForm = .ok normalBrackets ∧
    normalBrackets.isNormal = true ∧ ∀ w, normalBrackets.Accepts w ↔ brackets.Accepts w := by
  obtain ⟨_,⟨hn,_⟩,_,ha,_⟩ := normalForm_sound brackets_built brackets_normalForm
  exact ⟨brackets_normalForm,hn,ha⟩

end Grammar

end WordProblem
