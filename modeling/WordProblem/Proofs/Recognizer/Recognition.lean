import WordProblem.Proofs.Normal.Chomsky
import WordProblem.Proofs.Recognizer.Filling
import WordProblem.Recognizer.Basic

/-! # Recognizers decide languages

In a grammar in normal form the spans of the numbered grammar are the parts of the word that its
non-terminals generate, so after each length the chart says exactly what the non-terminals generate
up to it. The empty word has no spans and is looked up among the rules.
-/
namespace WordProblem

namespace Grammar

variable {g : Grammar} {word w : List Char} {a b c : Char} {i j x : Nat}

theorem number_lt (ha : a ∈ g.nonterminals) : g.number a < g.nonterminals.length :=
  List.idxOf_lt_length_of_mem ha

theorem number_inj (ha : a ∈ g.nonterminals) (h : g.number a = g.number b) : a = b :=
  (List.idxOf_inj ha).mp h

theorem mem_letterRules : (c,x) ∈ g.numbered.letterRules ↔
    ∃ a, ⟨a,[.terminal c]⟩ ∈ g.rules ∧ g.number a = x := by
  simp only [numbered, List.mem_filterMap]
  constructor
  · rintro ⟨⟨a,rhs⟩,hr,he⟩
    unfold letterRule? at he
    split at he
    · next d hrhs =>
      cases he
      cases hrhs
      exact ⟨a,hr,rfl⟩
    · cases he
  · rintro ⟨a,hr,rfl⟩
    exact ⟨_,hr,rfl⟩

theorem mem_pairRules {p : PairRule} : p ∈ g.numbered.pairRules ↔
    ∃ a b c, ⟨a,[.nonterminal b,.nonterminal c]⟩ ∈ g.rules ∧
      p = ⟨g.number a,g.number b,g.number c⟩ := by
  simp only [numbered, List.mem_filterMap]
  constructor
  · rintro ⟨⟨a,rhs⟩,hr,he⟩
    unfold pairRule? at he
    split at he
    · next b c hrhs =>
      cases he
      cases hrhs
      exact ⟨a,b,c,hr,rfl⟩
    · cases he
  · rintro ⟨a,b,c,hr,rfl⟩
    exact ⟨_,hr,rfl⟩

theorem WellFormed.pair_declared (hg : g.WellFormed)
    (hr : ⟨a,[.nonterminal b,.nonterminal c]⟩ ∈ g.rules) :
    a ∈ g.nonterminals ∧ b ∈ g.nonterminals ∧ c ∈ g.nonterminals :=
  ⟨hg.lhs_declared _ hr,hg.rhs_declared _ hr (.nonterminal b) (by simp),
    hg.rhs_declared _ hr (.nonterminal c) (by simp)⟩

theorem WellFormed.numbered (hg : g.WellFormed) : g.numbered.InRange where
  letter := by
    rintro ⟨c,x⟩ hp
    obtain ⟨a,hr,rfl⟩ := mem_letterRules.mp hp
    exact number_lt (hg.lhs_declared _ hr)
  pair := by
    intro p hp
    obtain ⟨a,b,c,hr,rfl⟩ := mem_pairRules.mp hp
    obtain ⟨ha,hb,hc⟩ := hg.pair_declared hr
    exact ⟨number_lt ha,number_lt hb,number_lt hc⟩

/-! ## Spans and derivations -/

theorem generates_of_spans (hg : g.WellFormed) (h : g.numbered.Spans word x i j)
    (ha : a ∈ g.nonterminals) (hx : g.number a = x) :
    ∃ w, w <+: word.drop i ∧ j = i + w.length ∧ g.Generates a w := by
  induction h generalizing a with
  | @letter c x i h hc =>
    obtain ⟨b,hr,hb⟩ := mem_letterRules.mp h
    cases number_inj ha (hx.trans hb.symm)
    obtain ⟨hlt,rfl⟩ := List.getElem?_eq_some_iff.mp hc
    refine ⟨[word[i]],?_,rfl,Grammar.generates_letter hr⟩
    rw [List.drop_eq_getElem_cons hlt]
    exact ⟨_,rfl⟩
  | pair h _ _ ihleft ihright =>
    obtain ⟨d,b,c,hr,rfl⟩ := mem_pairRules.mp h
    obtain ⟨_,hb,hc⟩ := hg.pair_declared hr
    cases number_inj ha hx
    obtain ⟨u,⟨s,hs⟩,rfl,hu⟩ := ihleft hb rfl
    obtain ⟨v,hv,rfl,hv'⟩ := ihright hc rfl
    refine ⟨u ++ v,?_,by simp [Nat.add_assoc],
      g.generates_closed _ hr _ (Form.denotes_pair.mpr ⟨u,v,rfl,hu,hv'⟩)⟩
    rw [← List.drop_drop, ← hs, List.drop_left] at hv
    rw [← hs]
    exact (List.prefix_append_right_inj u).mpr hv

section Normal
variable (hn : ∀ r ∈ g.rules, r.Fits g)

include hn in
/-- What a non-terminal generates it spans wherever it stands, if it is not empty. -/
theorem spans_of_generates (h : g.Generates a w) (hne : w ≠ []) (hw : w <+: word.drop i) :
    g.numbered.Spans word (g.number a) i (i + w.length) := by
  have hboth := h.least (L := fun a w => g.Generates a w ∧ (w ≠ [] → ∀ i, w <+: word.drop i →
    g.numbered.Spans word (g.number a) i (i + w.length))) ?_
  · exact hboth.2 hne i hw
  rintro ⟨a,rhs⟩ hr w hread
  refine ⟨g.generates_closed _ hr w (hread.mono fun _ _ _ h => h.1),fun hne i hw => ?_⟩
  obtain ⟨hshape,hapart⟩ := hn _ hr
  rcases hshape with ⟨rfl,rfl⟩ | ⟨c,rfl⟩ | ⟨b,c,rfl⟩
  · exact absurd hread hne
  · cases Form.denotes_singleton.mp hread
    obtain ⟨s,hs⟩ := hw
    have hc : (word.drop i)[0]? = some c := by rw [← hs]; rfl
    rw [List.getElem?_drop] at hc
    exact .letter (mem_letterRules.mpr ⟨a,hr,rfl⟩) hc
  · obtain ⟨u,v,rfl,⟨hu,hu'⟩,hv,hv'⟩ := Form.denotes_pair.mp hread
    -- a half that is empty would be the start symbol on a right side
    have hfull : ∀ d, .nonterminal d ∈ [Symbol.nonterminal b,.nonterminal c] →
        ¬g.Generates d [] := by
      intro d hd hnil
      obtain ⟨rfl,hs⟩ := start_of_generates_nil hn hnil
      exact hapart hs hd
    have hu0 : u ≠ [] := fun h0 => hfull b (by simp) (h0 ▸ hu)
    have hv0 : v ≠ [] := fun h0 => hfull c (by simp) (h0 ▸ hv)
    obtain ⟨s,hs⟩ := hw
    have hleft : u <+: word.drop i := ⟨v ++ s,by rw [← hs, List.append_assoc]⟩
    have hright : v <+: word.drop (i + u.length) := by
      rw [← List.drop_drop, ← hs, List.append_assoc, List.drop_left]
      exact ⟨s,rfl⟩
    rw [List.length_append, ← Nat.add_assoc]
    exact .pair (mem_pairRules.mpr ⟨a,b,c,hr,rfl⟩) (hu' hu0 i hleft) (hv' hv0 _ hright)

section Declared
variable (hg : g.WellFormed) (ha : a ∈ g.nonterminals) (hij : i < j) (hj : j ≤ word.length)

include hn hg ha hij hj in
theorem spans_iff_generates : g.numbered.Spans word (g.number a) i j ↔
    g.Generates a ((word.drop i).take (j - i)) := by
  have hlen : ((word.drop i).take (j - i)).length = j - i := by
    rw [List.length_take, List.length_drop]
    omega
  constructor
  · intro h
    obtain ⟨w,hw,rfl,hgen⟩ := generates_of_spans hg h ha rfl
    rw [Nat.add_sub_cancel_left, ← List.prefix_iff_eq_take.mp hw]
    exact hgen
  · intro h
    have hne : (word.drop i).take (j - i) ≠ [] := List.ne_nil_of_length_pos (by omega)
    have hspan := spans_of_generates hn h hne (List.take_prefix _ _)
    rw [hlen, Nat.add_sub_cancel' hij.le] at hspan
    exact hspan

include hn hg ha hij hj in
theorem get_chart {len : Nat} (hlen : 1 ≤ len) :
    (g.numbered.chart word len).get (g.number a) i j = true ↔
      j - i ≤ len ∧ g.Generates a ((word.drop i).take (j - i)) := by
  rw [(Numbered.shows_chart hg.numbered word hlen).get_iff (number_lt ha) (hij.le.trans hj) hj]
  exact and_congr Nat.sub_le_iff_le_add'.symm (spans_iff_generates hn hg ha hij hj)

end Declared

include hn in
/-- The chart decides the words of a declared start symbol. -/
theorem accepts_numbered (hg : g.WellFormed) (hs : g.start ∈ g.nonterminals) (w : List Char) :
    g.numbered.accepts w = true ↔ g.Accepts w := by
  by_cases hw : w = []
  · subst hw
    have hrule : g.numbered.accepts [] = true ↔ ⟨g.start,[]⟩ ∈ g.rules := List.contains_iff_mem
    rw [hrule]
    exact ⟨fun hr => g.generates_closed _ hr [] rfl,fun h => (start_of_generates_nil hn h).2⟩
  · have hlen : 1 ≤ w.length := List.length_pos_iff.mpr hw
    have hchart := get_chart hn hg hs hlen (Nat.le_refl _) hlen
    rw [Numbered.accepts, if_neg (by simpa using hw)]
    refine hchart.trans ?_
    simp [Accepts]

end Normal

/-- Once a length is finished, a cell is set just if its span is no longer and its non-terminal
generates it. Neither the order of the rules nor what is left out to save work makes a difference
to the chart. -/
theorem chart_settled (hg : g.WellFormed) (hn : g.isNormal = true) (word : List Char) {len : Nat}
    (hlen : 1 ≤ len) :
    (∀ a ∈ g.nonterminals, ∀ i j, i < j → j ≤ word.length →
      ((g.numbered.chart word len).get (g.number a) i j = true ↔
        j - i ≤ len ∧ g.Generates a ((word.drop i).take (j - i)))) ∧
    ∀ s : Sweep, (∀ len i, (s.order len i).Perm g.numbered.pairRules) →
      g.numbered.sweep s word len = g.numbered.chart word len := by
  refine ⟨fun a ha i j hij hj => get_chart (isNormal_iff.mp hn) hg ha hij hj hlen,fun s hs => ?_⟩
  exact Numbered.sweep_eq_chart hg.numbered (fun len i _ => (hs len i).mem_iff) word hlen

/-- The inner brackets are found, with the rules taken backwards and no work saved. -/
theorem chart_settled_normalBrackets :
    normalBrackets.isNormal = true ∧ normalBrackets.Generates 'S' ['(',')'] ∧
    ¬(normalBrackets.numbered.chart ['(','(',')',')'] 2).get (normalBrackets.number 'S') 0 4 =
      true ∧
    normalBrackets.numbered.sweep ⟨false,false,fun _ _ => normalBrackets.numbered.pairRules.reverse⟩
      ['(','(',')',')'] 2 = normalBrackets.numbered.chart ['(','(',')',')'] 2 := by
  have hn : normalBrackets.isNormal = true := by decide
  have hs : 'S' ∈ normalBrackets.nonterminals := by decide
  obtain ⟨hcell,hsweep⟩ := chart_settled normalBrackets_built.wellFormed hn ['(','(',')',')']
    (Nat.le_succ 1)
  have hinner := hcell 'S' hs 1 3 (by decide) (by decide)
  have houter := hcell 'S' hs 0 4 (by decide) (by decide)
  refine ⟨hn,(hinner.mp (by decide +kernel)).2,?_,hsweep _ fun _ _ => List.reverse_perm _⟩
  exact fun hset => absurd (houter.mp hset).1 (by decide)

end Grammar

namespace Recognizer
open Grammar

variable {g : Grammar} {r : Recognizer}

theorem ofNormal_of_undeclared (hs : g.start ∉ g.nonterminals) :
    ofNormal? g = .error (.undeclaredStart g.start) := if_neg hs

theorem ofNormal_of_declared (hs : g.start ∈ g.nonterminals) : ofNormal? g =
    match g.offendingRule? with
    | some q => .error (.offendingRule q)
    | none => .ok (ofNormal g) := if_pos hs

/-- A recognizer of a grammar that is meant to be in normal form already: either there is a reason
to refuse it, or its words are those of the grammar. -/
theorem ofNormal_decides (hg : g.Built) :
    (ofNormal? g = .error (.undeclaredStart g.start) ↔ g.start ∉ g.nonterminals) ∧
    (g.start ∈ g.nonterminals →
      ((∃ q, ofNormal? g = .error (.offendingRule q)) ↔ ¬∀ q ∈ g.rules, q.Fits g) ∧
      (∀ q, ofNormal? g = .error (.offendingRule q) →
        q ∈ g.rules ∧ ¬q.Fits g ∧ ∀ p ∈ g.rules, ¬p.Fits g → p = q ∨ q < p) ∧
      ((∀ q ∈ g.rules, q.Fits g) →
        ∃ r, ofNormal? g = .ok r ∧ ∀ w, r.accepts w = true ↔ g.Accepts w)) := by
  have hw := hg.wellFormed
  have hnormal : g.offendingRule? = none ↔ ∀ q ∈ g.rules, q.Fits g :=
    Option.isNone_iff_eq_none.symm.trans isNormal_iff
  by_cases hs : g.start ∈ g.nonterminals
  · rw [ofNormal_of_declared hs]
    cases ho : g.offendingRule? with
    | none =>
      have hn := hnormal.mp ho
      refine ⟨by simp [hs],fun _ => ⟨?_,?_,fun _ => ?_⟩⟩
      · simpa using hn
      · simp
      · exact ⟨_,rfl,accepts_numbered hn hw hs⟩
    | some q =>
      have hn : ¬∀ q ∈ g.rules, q.Fits g := by simp [← hnormal, ho]
      refine ⟨by simp [hs],fun _ => ⟨?_,?_,fun h => absurd h hn⟩⟩
      · simpa using hn
      · rintro _ ⟨⟩
        exact offendingRule_least hw ho
  · exact ⟨⟨fun _ => hs,fun _ => ofNormal_of_undeclared hs⟩,fun h => absurd h hs⟩

theorem ofNormal_decides_normalBrackets :
    ∃ r, ofNormal? normalBrackets = .ok r ∧
      ∀ w, r.accepts w = true ↔ normalBrackets.Accepts w := by
  obtain ⟨_,h⟩ := ofNormal_decides normalBrackets_built
  obtain ⟨_,_,hok⟩ := h (by decide)
  exact hok (isNormal_iff.mp (by decide))

theorem ofGrammar_eq_ok : ofGrammar g = .ok r ↔ ∃ c, g.normalForm = .ok c ∧ r = ofNormal c := by
  unfold ofGrammar
  cases g.normalForm <;> simp [eq_comm]

/-- A recognizer has the words that the rules of its grammar derive from the start symbol. -/
theorem ofGrammar_decides (hg : g.Built) (hr : ofGrammar g = .ok r) (w : List Char) :
    r.accepts w = true ↔ g.Accepts w := by
  have hw := hg.wellFormed
  obtain ⟨c,hc,rfl⟩ := ofGrammar_eq_ok.mp hr
  have hn := normalForm_fits hw hc
  exact (accepts_numbered hn (hw.normalForm hc) (normalForm_start hw hc) w).trans
    (normalForm_accepts hw hc)

theorem ofGrammar_decides_brackets : ∃ r, ofGrammar brackets = .ok r ∧
    ∀ w, r.accepts w = true ↔ brackets.Accepts w := by
  have hr : ofGrammar brackets = .ok (ofNormal normalBrackets) :=
    ofGrammar_eq_ok.mpr ⟨_,brackets_normalForm,rfl⟩
  exact ⟨_,hr,ofGrammar_decides brackets_built hr⟩

end Recognizer

end WordProblem
