import WordProblem.Proofs.Normal.Unfolding

/-! # A start symbol that is handed out

Every non-terminal that is not declared counts as fresh, also a start symbol that nobody has
declared. So a pass may hand it out as a proxy or a link. Before the pass such a start symbol
generates no word, afterwards it generates what it has come to stand for. In all other cases the
language stays as it was.
-/
namespace WordProblem

/-- A link stands for a right side without some symbols at its front. -/
theorem exists_front {f : Form} {links : List Char} {p : Char × Form}
    (hp : p ∈ segments f links) : ∃ front, f = front ++ p.2 ∧ front ≠ [] ∧ 2 ≤ p.2.length := by
  fun_induction segments f links with
  | case1 s t u rest b links ih =>
    rcases List.mem_cons.mp hp with rfl | hp
    · exact ⟨[s],rfl,by simp,by simp⟩
    · obtain ⟨front,hf,_,hlen⟩ := ih hp
      exact ⟨s :: front,by rw [hf, List.cons_append],by simp,hlen⟩
  | case2 f links => cases hp

namespace Grammar

variable {g : Grammar}

/-- A proxy generates its terminal and nothing else. -/
theorem generates_added_isolated (hg : g.WellFormed) {a : Char} (ha : a ∈ g.added g.isolated) :
    ∃ c ∈ g.mixed, ∀ w, g.isolated.Generates a w ↔ w = [c] := by
  obtain ⟨c,hp⟩ := exists_letter (mem_added.mp ha)
  have hmixed : c ∈ g.mixed := by
    simpa [mixed, mixedTerminals] using (List.of_mem_zip hp).1
  refine ⟨c,hmixed,fun w => ?_⟩
  rw [(extends_isolated hg).generates_of_lookup (closed_isolated g) (lookup_proxyDefinitions hg hp),
    Form.denotes_singleton, Symbol.Denotes]

/-- A link generates what the end of a long right side does. -/
theorem generates_added_split (hg : g.WellFormed) (hcap : surplus g.rules ≤ g.unused.length)
    {a : Char} (ha : a ∈ g.added g.split) : ∃ r ∈ g.rules, ∃ front back,
      r.rhs = front ++ back ∧ front ≠ [] ∧ 2 ≤ back.length ∧
        ∀ w, g.split.Generates a w ↔ g.Derives back (.ofWord w) := by
  have hd := extends_split hg hcap
  obtain ⟨p,hp,rfl⟩ := List.mem_map.mp ((hd.names a).mpr (mem_added.mp ha))
  obtain ⟨r,hr,links,hsegment,_⟩ := exists_of_mem_chainDefinitions hp
  obtain ⟨front,hf,hne,hlen⟩ := exists_front hsegment
  refine ⟨r,hr,front,p.2,hf,hne,hlen,fun w => ?_⟩
  rw [hd.generates_of_lookup (closed_split g) (lookup_chainDefinitions hg hcap hp)]
  exact ⟨derives_of_denotes,Derives.denotes_word⟩

/-- The language stays the same unless the start symbol is one of the non-terminals that are handed
out, which are the first ones in the alphabet that are not declared. Otherwise it was empty, and it
becomes the language of a terminal or of the end of a long right side. -/
theorem accepts_unless_captured (hg : g.Built) :
    (∀ h, g.isolateTerminals = .ok h → h.start = g.start ∧
      (g.start ∈ g.added h ↔ ∃ n < g.mixed.card, g.Spare n g.start) ∧
      (g.start ∉ g.added h → ∀ w, h.Accepts w ↔ g.Accepts w) ∧
      (g.start ∈ g.added h → (∀ w, ¬g.Accepts w) ∧
        ∃ c ∈ g.mixed, ∀ w, h.Accepts w ↔ w = [c])) ∧
    (∀ h, g.splitLong = .ok h → h.start = g.start ∧
      (g.start ∈ g.added h ↔ ∃ n < g.excess, g.Spare n g.start) ∧
      (g.start ∉ g.added h → ∀ w, h.Accepts w ↔ g.Accepts w) ∧
      (g.start ∈ g.added h → (∀ w, ¬g.Accepts w) ∧ ∃ r ∈ g.rules, ∃ front back,
        r.rhs = front ++ back ∧ front ≠ [] ∧ 2 ≤ back.length ∧
          ∀ w, h.Accepts w ↔ g.Derives back (.ofWord w))) := by
  have hw := hg.wellFormed
  rw [← length_mixedTerminals, ← surplus_eq_excess]
  constructor
  · intro h hh
    obtain ⟨hcap,rfl⟩ := isolateTerminals_eq_ok.mp hh
    have hproxy : g.start ∈ g.added g.isolated ↔ g.start ∈ g.unused.take g.mixedTerminals.length :=
      mem_added.trans mem_take_unused_iff.symm
    refine ⟨rfl,hproxy.trans mem_take_unused,?_,?_⟩
    · intro hkept w
      exact generates_isolated hw (mt hproxy.mpr hkept)
    · intro hcaptured
      have hundeclared := (mem_added.mp hcaptured).2
      exact ⟨fun w => mt (declared_of_generates hw) hundeclared,
        generates_added_isolated hw hcaptured⟩
  · intro h hh
    obtain ⟨hcap,rfl⟩ := splitLong_eq_ok.mp hh
    have hlink : g.start ∈ g.added g.split ↔ g.start ∈ g.unused.take (surplus g.rules) :=
      mem_added.trans mem_take_unused_iff.symm
    refine ⟨rfl,hlink.trans mem_take_unused,?_,?_⟩
    · intro hkept w
      exact generates_split hw hcap (mt hlink.mpr hkept)
    · intro hcaptured
      have hundeclared := (mem_added.mp hcaptured).2
      exact ⟨fun w => mt (declared_of_generates hw) hundeclared,
        generates_added_split hw hcap hcaptured⟩

/-- The start symbol `S` is not declared, and it is the first one to be handed out. -/
def startless : Grammar where
  alphabet := ⟨['S','A','B'],['a','b']⟩
  nonterminals := ['A']
  terminals := ['a','b']
  rules := [⟨'A',[.terminal 'a',.nonterminal 'A',.terminal 'a']⟩,⟨'A',[.terminal 'b']⟩]

theorem startless_built : startless.Built := by
  have hchosen : startless.alphabet.Chosen := ⟨some (['S','A','B'],['a','b']),by decide⟩
  have hd : (empty startless.alphabet).declareAll [.nonterminal 'A',.terminal 'a',.terminal 'b',
      .rule 'A' ['a','A','a'],.rule 'A' ['b']] = .ok startless := by decide
  exact (Built.empty hchosen).declareAll hd

theorem accepts_unless_captured_startless : startless.Spare 0 'S' ∧
    (∃ h, startless.isolateTerminals = .ok h ∧ 'S' ∈ startless.added h ∧
      (∀ w, ¬startless.Accepts w) ∧ ∃ c, ∀ w, h.Accepts w ↔ w = [c]) ∧
    (∃ h, startless.splitLong = .ok h ∧ 'S' ∈ startless.added h ∧
      ∃ back, 2 ≤ back.length ∧ ∀ w, h.Accepts w ↔ startless.Derives back (.ofWord w)) ∧
    ∃ h, brackets.splitLong = .ok h ∧ ∀ w, h.Accepts w ↔ brackets.Accepts w := by
  obtain ⟨hproxies,hlinks⟩ := accepts_unless_captured startless_built
  have hi : startless.isolateTerminals = .ok startless.isolated :=
    isolateTerminals_eq_ok.mpr ⟨by decide,rfl⟩
  have hl : startless.splitLong = .ok startless.split := splitLong_eq_ok.mpr ⟨by decide,rfl⟩
  have hb : brackets.splitLong = .ok brackets.split := splitLong_eq_ok.mpr ⟨by decide,rfl⟩
  have hspare : startless.Spare 0 'S' := ⟨[],['A','B'],rfl,by decide,rfl⟩
  obtain ⟨_,hiffProxy,_,hletter⟩ := hproxies _ hi
  obtain ⟨_,hiffLink,_,hback⟩ := hlinks _ hl
  obtain ⟨_,_,hkept,_⟩ := (accepts_unless_captured brackets_built).2 _ hb
  have hproxy : 'S' ∈ startless.added startless.isolated := hiffProxy.mpr ⟨0,by decide,hspare⟩
  have hlink : 'S' ∈ startless.added startless.split := hiffLink.mpr ⟨0,by decide,hspare⟩
  obtain ⟨hnone,c,_,hc⟩ := hletter hproxy
  obtain ⟨_,_,_,_,back,_,_,hlen,hwords⟩ := hback hlink
  exact ⟨hspare,⟨_,hi,hproxy,hnone,c,hc⟩,⟨_,hl,hlink,back,hlen,hwords⟩,_,hb,
    hkept (by decide +kernel)⟩

/-- Both passes give words to a start symbol that had none. -/
theorem startless_captured : startless.Built ∧ (∀ w, ¬startless.Accepts w) ∧
    (∃ h, startless.isolateTerminals = .ok h ∧ h.Accepts ['a']) ∧
    ∃ h, startless.splitLong = .ok h ∧ h.Accepts ['b','a'] := by
  have hletter : ⟨'S',[.terminal 'a']⟩ ∈ startless.isolated.rules := by decide +kernel
  have hb : startless.split.Generates 'A' ['b'] := generates_letter (by decide +kernel)
  have hlink : ⟨'S',[.nonterminal 'A',.terminal 'a']⟩ ∈ startless.split.rules := by decide +kernel
  refine ⟨startless_built,?_,?_,?_⟩
  · intro w
    exact mt (declared_of_generates startless_built.wellFormed) (by decide)
  · exact ⟨_,isolateTerminals_eq_ok.mpr ⟨by decide,rfl⟩,generates_letter hletter⟩
  · refine ⟨_,splitLong_eq_ok.mpr ⟨by decide,rfl⟩,?_⟩
    exact generates_closed _ _ hlink _ (Form.denotes_pair.mpr ⟨['b'],['a'],rfl,hb,rfl⟩)

end Grammar

end WordProblem
