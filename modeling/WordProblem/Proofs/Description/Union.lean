import WordProblem.Proofs.Description.Assembly
import WordProblem.Proofs.Description.Reload

/-! # Descriptions are joined in any order

A declaration is refused for what its grammar lacks, and what a grammar has it never loses. All
symbols are declared before the first rule is read and the start symbol is chosen last, so a part
may use what any other part declares. Whether the parts make up a grammar, and which one, is then
said without their order.
-/
namespace WordProblem

namespace Grammar

variable {g h : Grammar} {d : Declaration} {ds : List Declaration}

/-! ## Declarations that are not refused -/

/-- The grammar has what a declaration needs. -/
def Permits (g : Grammar) : Declaration → Prop
  | .nonterminal c => c ∈ g.alphabet.nonterminals
  | .terminal c => c ∈ g.alphabet.terminals
  | .rule lhs rhs => lhs ∈ g.nonterminals ∧ ∀ c ∈ rhs, c ∈ g.nonterminals ∨ c ∈ g.terminals
  | .ruleText text => ∃ lhs rhs, text = lhs :: '-' :: '>' :: rhs ∧
      lhs ∈ g.nonterminals ∧ ∀ c ∈ rhs, c ∈ g.nonterminals ∨ c ∈ g.terminals
  | .start c => c ∈ g.nonterminals

theorem exists_symbol_iff {c : Char} :
    (∃ s, g.symbol c = .ok s) ↔ c ∈ g.nonterminals ∨ c ∈ g.terminals := by
  unfold symbol
  split
  · next hn => simp [hn]
  · next hn =>
    split
    · next ht => simp [ht]
    · next ht => simp [hn, ht]

theorem exists_mapM_symbol_iff {rhs : List Char} : (∃ f, rhs.mapM g.symbol = .ok f) ↔
    ∀ c ∈ rhs, c ∈ g.nonterminals ∨ c ∈ g.terminals := by
  induction rhs with
  | nil => exact ⟨fun _ => by simp,fun _ => ⟨[],rfl⟩⟩
  | cons c rhs ih =>
    rw [List.forall_mem_cons, ← ih, ← exists_symbol_iff, List.mapM_cons]
    cases g.symbol c with
    | error e => simp [bind, Except.bind]
    | ok s => cases rhs.mapM g.symbol <;> simp [bind, Except.bind, pure, Except.pure]

theorem exists_addRule_iff {lhs : Char} {rhs : List Char} : (∃ h, g.addRule lhs rhs = .ok h) ↔
    lhs ∈ g.nonterminals ∧ ∀ c ∈ rhs, c ∈ g.nonterminals ∨ c ∈ g.terminals := by
  rw [← exists_mapM_symbol_iff]
  constructor
  · rintro ⟨h,hr⟩
    obtain ⟨hl,f,hf,_⟩ := addRule_eq_ok.mp hr
    exact ⟨hl,f,hf⟩
  · rintro ⟨hl,f,hf⟩
    exact ⟨_,addRule_eq_ok.mpr ⟨hl,f,hf,rfl⟩⟩

theorem permits_iff : g.Permits d ↔ ∃ h, g.declare d = .ok h := by
  cases d with
  | nonterminal c => simp [Permits, declare, declareNonterminal_eq_ok]
  | terminal c => simp [Permits, declare, declareTerminal_eq_ok]
  | rule lhs rhs => exact exists_addRule_iff.symm
  | ruleText text =>
    simp only [Permits, declare, ← exists_addRule_iff, addRuleText_eq_ok]
    constructor
    · rintro ⟨lhs,rhs,htext,h,hr⟩
      exact ⟨h,lhs,rhs,htext,hr⟩
    · rintro ⟨h,lhs,rhs,htext,hr⟩
      exact ⟨lhs,rhs,htext,h,hr⟩
  | start c => simp [Permits, declare, setStart_eq_ok]

theorem Permits.mono (hp : g.Permits d) (ha : h.alphabet = g.alphabet) (hgains : g.Gains h ds) :
    h.Permits d := by
  have hn : ∀ c ∈ g.nonterminals, c ∈ h.nonterminals := fun c hc =>
    (hgains.nonterminals c).mpr (Or.inl hc)
  have hboth : ∀ c, c ∈ g.nonterminals ∨ c ∈ g.terminals →
      c ∈ h.nonterminals ∨ c ∈ h.terminals := fun c =>
    Or.imp (hn c) fun ht => (hgains.terminals c).mpr (Or.inl ht)
  cases d with
  | nonterminal c => rwa [Permits, ha]
  | terminal c => rwa [Permits, ha]
  | rule lhs rhs =>
    obtain ⟨hl,hr⟩ := hp
    exact ⟨hn lhs hl,fun c hc => hboth c (hr c hc)⟩
  | ruleText text =>
    obtain ⟨lhs,rhs,htext,hl,hr⟩ := hp
    exact ⟨lhs,rhs,htext,hn lhs hl,fun c hc => hboth c (hr c hc)⟩
  | start c => exact hn c hp

theorem declareAll_alphabet (hd : g.declareAll ds = .ok h) : h.alphabet = g.alphabet :=
  declareAll_preserves (P := fun k => k.alphabet = g.alphabet)
    (fun hk hd => (declare_alphabet hd).trans hk) rfl hd

/-- Declarations do not get into each other's way. -/
theorem exists_declareAll (hp : ∀ d ∈ ds, g.Permits d) : ∃ h, g.declareAll ds = .ok h := by
  induction ds generalizing g with
  | nil => exact ⟨g,rfl⟩
  | cons d ds ih =>
    obtain ⟨m,hm⟩ := permits_iff.mp (hp d List.mem_cons_self)
    obtain ⟨h,hh⟩ := ih fun e he =>
      (hp e (List.mem_cons_of_mem _ he)).mono (declare_alphabet hm) (gains_declare hm)
    exact ⟨h,declareAll_cons_eq_ok.mpr ⟨m,hm,hh⟩⟩

/-- What was needed on the way is still there at the end. -/
theorem permits_of_declareAll (hd : g.declareAll ds = .ok h) : ∀ d ∈ ds, h.Permits d := by
  induction ds generalizing g with
  | nil => simp
  | cons d ds ih =>
    obtain ⟨m,hm,hh⟩ := declareAll_cons_eq_ok.mp hd
    intro e he
    rcases List.mem_cons.mp he with rfl | he
    · have hfirst : g.Permits e := permits_iff.mpr ⟨m,hm⟩
      exact hfirst.mono (declareAll_alphabet hd) (gains_declareAll hd)
    · exact ih hh e he

end Grammar

namespace Description

variable {a : Alphabet} {parts others : List Description} {override otherwise s : Option Char}
  {g h : Grammar}

/-! ## What parts have to agree on -/

/-- Some part declares the symbol. -/
def Declared (parts : List Description) : Symbol → Prop
  | .terminal c => ∃ d ∈ parts, c ∈ d.terminals
  | .nonterminal c => ∃ d ∈ parts, c ∈ d.nonterminals

/-- The parts declare characters of the alphabet in their classes, and their rules and the start
symbol that they choose hold what some part declares. -/
structure Coherent (a : Alphabet) (parts : List Description) (override : Option Char) : Prop where
  nonterminals : ∀ d ∈ parts, ∀ c ∈ d.nonterminals, c ∈ a.nonterminals
  terminals : ∀ d ∈ parts, ∀ c ∈ d.terminals, c ∈ a.terminals
  rules : ∀ d ∈ parts, ∀ text ∈ d.rules, ∃ lhs rhs, text = lhs :: '-' :: '>' :: rhs ∧
    Declared parts (.nonterminal lhs) ∧
    ∀ c ∈ rhs, Declared parts (.nonterminal c) ∨ Declared parts (.terminal c)
  start : ∀ c, Chooses parts override (some c) → Declared parts (.nonterminal c)

theorem Describes.declares_iff (hg : Describes parts override g) {s : Symbol} :
    g.Declares s ↔ Declared parts s := by
  cases s with
  | terminal c => exact hg.terminals c
  | nonterminal c => exact hg.nonterminals c

theorem coherent_of_assemble (ha : a.Chosen) (hg : assemble a parts override = .ok g) :
    Coherent a parts override := by
  have hd := assemble_describes ha hg
  have halphabet : g.alphabet = a := Grammar.assemble_alphabet hg
  have hpermits : ∀ d ∈ declarations parts override, g.Permits d :=
    Grammar.permits_of_declareAll hg
  have hn : ∀ c, c ∈ g.nonterminals ↔ Declared parts (.nonterminal c) := hd.nonterminals
  have ht : ∀ c, c ∈ g.terminals ↔ Declared parts (.terminal c) := hd.terminals
  refine ⟨fun d hmem c hc => ?_,fun d hmem c hc => ?_,fun d hmem text htext => ?_,fun c hc => ?_⟩
  · rw [← halphabet]
    exact hd.wellFormed.nonterminals_subset c ((hn c).mpr ⟨d,hmem,hc⟩)
  · rw [← halphabet]
    exact hd.wellFormed.terminals_subset c ((ht c).mpr ⟨d,hmem,hc⟩)
  · have hrule : .ruleText text ∈ declarations parts override := by
      simp only [declarations, List.mem_append, List.mem_flatMap, List.mem_map]
      exact Or.inl (Or.inr ⟨d,hmem,text,htext,rfl⟩)
    have hrule := hpermits _ hrule
    simp only [Grammar.Permits, hn, ht] at hrule
    exact hrule
  · have hchosen := chooseStart_eq_iff.mpr hc
    have hstart : .start c ∈ declarations parts override := by simp [declarations, hchosen]
    exact (hn c).mp (hpermits _ hstart)

theorem exists_assemble (hc : Coherent a parts override) :
    ∃ g, assemble a parts override = .ok g := by
  have hsymbols : ∀ d ∈ parts.flatMap symbols, (Grammar.empty a).Permits d := by
    intro d hd
    simp only [symbols, List.mem_flatMap, List.mem_append, List.mem_map] at hd
    obtain ⟨part,hpart,⟨c,hmem,rfl⟩ | ⟨c,hmem,rfl⟩⟩ := hd
    · exact hc.nonterminals part hpart c hmem
    · exact hc.terminals part hpart c hmem
  obtain ⟨m,hm⟩ := Grammar.exists_declareAll hsymbols
  have hgains := Grammar.gains_declareAll hm
  have hn : ∀ c, c ∈ m.nonterminals ↔ Declared parts (.nonterminal c) := fun c => by
    rw [hgains.nonterminals]
    simp [Grammar.empty, symbols, Declared]
  have ht : ∀ c, c ∈ m.terminals ↔ Declared parts (.terminal c) := fun c => by
    rw [hgains.terminals]
    simp [Grammar.empty, symbols, Declared]
  -- nothing but symbols is needed from here on, and all of them are there
  have hrest : ∀ d ∈ parts.flatMap (·.rules.map .ruleText) ++
      (chooseStart parts override).toList.map .start, m.Permits d := by
    intro d hd
    simp only [List.mem_append, List.mem_flatMap, List.mem_map, Option.mem_toList] at hd
    obtain ⟨part,hpart,text,htext,rfl⟩ | ⟨c,hstart,rfl⟩ := hd
    · simp only [Grammar.Permits, hn, ht]
      exact hc.rules part hpart text htext
    · exact (hn c).mpr (hc.start c (chooseStart_eq_iff.mp hstart))
  obtain ⟨g,hg⟩ := Grammar.exists_declareAll hrest
  refine ⟨g,?_⟩
  rw [assemble, declarations, List.append_assoc, Grammar.declareAll_append hm]
  exact hg

/-! ## The grammar that they make up -/

theorem eq_of_text {r q : Rule} (hg : g.WellFormed) (hr : ∀ s ∈ r.rhs, g.Declares s)
    (hq : q ∈ g.rules) (htext : q.text = r.text) : q = r := by
  have hdisjoint : ∀ c ∈ g.nonterminals, c ∉ g.terminals := fun c hn ht =>
    hg.alphabet.disjoint c (hg.nonterminals_subset c hn) (hg.terminals_subset c ht)
  have hreads : g.Reads r.rhs := fun s hs => Grammar.symbol_name hdisjoint (hr s hs)
  obtain ⟨hl,hbody⟩ : q.lhs = r.lhs ∧ q.body = r.body := by simpa [Rule.text] using htext
  have hrhs := (hg.reads hq).mapM
  rw [show q.rhs.map Symbol.name = r.rhs.map Symbol.name from hbody, hreads.mapM] at hrhs
  cases q
  cases r
  cases hrhs
  cases hl
  rfl

/-- A rule is there if some part has its text and its symbols stand in the classes in which they
are declared. -/
theorem Describes.mem_rules (hg : Describes parts override g) {r : Rule} : r ∈ g.rules ↔
    (∃ d ∈ parts, r.text ∈ d.rules) ∧ ∀ s ∈ r.rhs, Declared parts s := by
  constructor
  · intro hr
    exact ⟨(hg.rules _).mp (List.mem_map_of_mem hr),fun s hs =>
      hg.declares_iff.mp (hg.wellFormed.rhs_declared r hr s hs)⟩
  · rintro ⟨htext,hs⟩
    obtain ⟨q,hq,he⟩ := List.mem_map.mp ((hg.rules _).mpr htext)
    rwa [← eq_of_text hg.wellFormed (fun s h => hg.declares_iff.mpr (hs s h)) hq he]

theorem Describes.congr (hg : Describes parts override g) (hparts : ∀ d, d ∈ others ↔ d ∈ parts)
    (hs : Chooses parts override s) (ho : Chooses others otherwise s) :
    Describes others otherwise g where
  wellFormed := hg.wellFormed
  nonterminals c := by simpa only [hparts] using hg.nonterminals c
  terminals c := by simpa only [hparts] using hg.terminals c
  rules t := by simpa only [hparts] using hg.rules t
  start := by
    obtain ⟨t,ht,he⟩ := hg.start
    exact ⟨s,ho,hs.unique ht ▸ he⟩

/-- Parts leave no choice but that of the alphabet. -/
theorem Describes.unique (hg : Describes parts override g) (hh : Describes parts override h)
    (ha : g.alphabet = h.alphabet) : g = h := by
  have hn : g.nonterminals = h.nonterminals :=
    hg.wellFormed.nonterminals_ascending.eq_of_mem_iff hh.wellFormed.nonterminals_ascending
      fun c => (hg.nonterminals c).trans (hh.nonterminals c).symm
  have ht : g.terminals = h.terminals :=
    hg.wellFormed.terminals_ascending.eq_of_mem_iff hh.wellFormed.terminals_ascending
      fun c => (hg.terminals c).trans (hh.terminals c).symm
  have hr : g.rules = h.rules :=
    hg.wellFormed.rules_ascending.eq_of_mem_iff hh.wellFormed.rules_ascending
      fun _ => hg.mem_rules.trans hh.mem_rules.symm
  have hs : g.start = h.start := by
    obtain ⟨s,hs,he⟩ := hg.start
    obtain ⟨t,ht,hf⟩ := hh.start
    rw [he, hf, hs.unique ht]
  cases g
  cases h
  simp_all

theorem Coherent.congr (hc : Coherent a parts override) (hparts : ∀ d, d ∈ others ↔ d ∈ parts)
    (hs : Chooses parts override s) (ho : Chooses others otherwise s) :
    Coherent a others otherwise := by
  have hdeclared : ∀ s, Declared others s ↔ Declared parts s := by
    intro s
    cases s <;> simp only [Declared, hparts]
  refine ⟨fun d hd => ?_,fun d hd => ?_,fun d hd => ?_,fun c hchosen => ?_⟩
  · exact hc.nonterminals d ((hparts d).mp hd)
  · exact hc.terminals d ((hparts d).mp hd)
  · simp only [hdeclared]
    exact hc.rules d ((hparts d).mp hd)
  · rw [hdeclared]
    exact hc.start c (ho.unique hchosen ▸ hs)

theorem assemble_of_same_members (ha : a.Chosen) (hparts : ∀ d, d ∈ others ↔ d ∈ parts)
    (hs : Chooses parts override s) (ho : Chooses others otherwise s)
    (hg : assemble a parts override = .ok g) : assemble a others otherwise = .ok g := by
  obtain ⟨h,hh⟩ := exists_assemble ((coherent_of_assemble ha hg).congr hparts hs ho)
  have he : g = h := ((assemble_describes ha hg).congr hparts hs ho).unique
    (assemble_describes ha hh)
    ((Grammar.assemble_alphabet hg).trans (Grammar.assemble_alphabet hh).symm)
  rw [he, hh]

/-- Parts make up a grammar if they are coherent. It has the symbols and the rules of all of them,
each symbol in the class in which it is declared, and neither it nor their success depends on their
order, as long as the chosen start symbol is the same. -/
theorem assemble_union (ha : a.Chosen) (parts : List Description) (override : Option Char) :
    ((∃ g, assemble a parts override = .ok g) ↔ Coherent a parts override) ∧
    (∀ g, assemble a parts override = .ok g → g.alphabet = a ∧ Describes parts override g ∧
      ∀ r, r ∈ g.rules ↔ (∃ d ∈ parts, r.text ∈ d.rules) ∧ ∀ s ∈ r.rhs, Declared parts s) ∧
    ∀ others otherwise s, others.Perm parts → Chooses parts override s →
      Chooses others otherwise s →
      ∀ g, assemble a others otherwise = .ok g ↔ assemble a parts override = .ok g := by
  refine ⟨⟨?_,exists_assemble⟩,fun g hg => ?_,fun others otherwise s hperm hs ho g => ⟨?_,?_⟩⟩
  · rintro ⟨g,hg⟩
    exact coherent_of_assemble ha hg
  · have hd := assemble_describes ha hg
    exact ⟨Grammar.assemble_alphabet hg,hd,fun r => hd.mem_rules⟩
  · exact assemble_of_same_members ha (fun d => hperm.symm.mem_iff) ho hs
  · exact assemble_of_same_members ha (fun d => hperm.mem_iff) hs ho

/-- Each of the parts uses what only the other one declares, and one of them has a start symbol. -/
def outer : Description where
  nonterminals := ['S']
  terminals := ['a']
  rules := [['S','-','>','T','a']]

def inner : Description where
  nonterminals := ['T','U','S']
  terminals := ['b']
  start := some 'T'
  rules := [['T','-','>','a','b'],['S','-','>','T','a']]

/-- The start symbol of the second part is chosen, and the parts in the other order with this start
symbol as the override make up the same grammar. Another override takes its place, and it is refused
if no part declares it. -/
theorem assemble_union_outer_inner : Alphabet.standard.Chosen ∧
    (∃ g, assemble .standard [outer,inner] none = .ok g ∧
      assemble .standard [inner,outer] (some 'T') = .ok g ∧ g.start = 'T' ∧
      ⟨'T',[.terminal 'a',.terminal 'b']⟩ ∈ g.rules) ∧
    (∃ g, assemble .standard [outer,inner] (some 'U') = .ok g ∧ g.start = 'U') ∧
    ¬∃ g, assemble .standard [outer,inner] (some 'V') = .ok g := by
  have ha : Alphabet.standard.Chosen := ⟨none,rfl⟩
  have hpart : Chooses [outer,inner] none (some 'T') :=
    .part [outer] [] (by simp [outer]) rfl
  refine ⟨ha,?_,?_,?_⟩
  · obtain ⟨_,hunion,horder⟩ := assemble_union ha [outer,inner] none
    have hok : ∃ g, assemble .standard [outer,inner] none = .ok g := ⟨_,rfl⟩
    obtain ⟨g,hg⟩ := hok
    obtain ⟨_,⟨_,_,_,_,s,hs,hstart⟩,hrules⟩ := hunion g hg
    cases hpart.unique hs
    have hswap := horder [inner,outer] (some 'T') _ (.swap _ _ _) hpart (.override _ _) g
    refine ⟨g,hg,hswap.mpr hg,hstart,(hrules _).mpr ⟨?_,?_⟩⟩
    · exact ⟨inner,by decide,by decide⟩
    · simp [Declared, outer, inner]
  · obtain ⟨_,hunion,_⟩ := assemble_union ha [outer,inner] (some 'U')
    have hok : ∃ g, assemble .standard [outer,inner] (some 'U') = .ok g := ⟨_,rfl⟩
    obtain ⟨g,hg⟩ := hok
    obtain ⟨_,⟨_,_,_,_,s,hs,hstart⟩,_⟩ := hunion g hg
    cases (Chooses.override _ _).unique hs
    exact ⟨g,hg,hstart⟩
  · rw [(assemble_union ha [outer,inner] (some 'V')).1]
    intro hc
    have hdeclared := hc.start 'V' (.override _ _)
    simp [Declared, outer, inner] at hdeclared

end Description

end WordProblem
