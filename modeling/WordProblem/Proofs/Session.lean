import WordProblem.Proofs.Normal.Chomsky
import WordProblem.Session

/-! # Every state of a session is well formed

A command either changes the grammar of a session by declarations, by a pass or by beginning anew,
or leaves it as it is. Each of these leads from grammars that declarations and passes built to
others of them, so whatever holds of built grammars holds after every run, however many of its
commands have failed.
-/
namespace WordProblem

namespace Grammar

variable {g h : Grammar}

/-! ## Alphabets -/

theorem declare_alphabet {d : Declaration} (hd : g.declare d = .ok h) :
    h.alphabet = g.alphabet := by
  have hrule : ∀ {lhs : Char} {rhs : List Char}, g.addRule lhs rhs = .ok h →
      h.alphabet = g.alphabet := by
    intro lhs rhs hr
    obtain ⟨_,_,_,rfl⟩ := addRule_eq_ok.mp hr
    rfl
  cases d with
  | nonterminal c =>
    obtain ⟨_,rfl⟩ := declareNonterminal_eq_ok.mp hd
    rfl
  | terminal c =>
    obtain ⟨_,rfl⟩ := declareTerminal_eq_ok.mp hd
    rfl
  | rule lhs rhs => exact hrule hd
  | ruleText text =>
    obtain ⟨_,_,_,hr⟩ := addRuleText_eq_ok.mp hd
    exact hrule hr
  | start c =>
    obtain ⟨_,rfl⟩ := setStart_eq_ok.mp hd
    rfl

theorem assemble_alphabet {a : Alphabet} {parts : List Description} {override : Option Char}
    (hd : Description.assemble a parts override = .ok g) : g.alphabet = a :=
  declareAll_preserves (P := fun h => h.alphabet = a)
    (fun hg hd => (declare_alphabet hd).trans hg) rfl hd

theorem pass_alphabet {p : Pass} (hp : p.apply g = .ok h) : h.alphabet = g.alphabet := by
  cases p with
  | dropBarren =>
    obtain ⟨_,rfl⟩ := dropBarren_eq_ok.mp hp
    rfl
  | dropUnreachable =>
    cases hp
    rfl
  | isolateTerminals =>
    obtain ⟨_,rfl⟩ := isolateTerminals_eq_ok.mp hp
    rfl
  | splitLong =>
    obtain ⟨_,rfl⟩ := splitLong_eq_ok.mp hp
    rfl
  | dropEpsilon => exact dropEpsilon_alphabet hp
  | dropUnits =>
    cases hp
    rfl
  | normalForm => exact normalForm_alphabet hp

/-- The alphabet of a grammar never changes, so it is one that could be chosen. -/
theorem Built.chosen (hg : g.Built) : g.alphabet.Chosen := by
  induction hg with
  | empty ha => exact ha
  | declare _ hd ih => rwa [declare_alphabet hd]
  | pass _ hp ih => rwa [pass_alphabet hp]

/-! ## Start symbols -/

/-- A pass that drops the start symbol fails, and one that takes another declares it. -/
theorem pass_start (hg : g.WellFormed) (hs : g.start ∈ g.nonterminals) {p : Pass}
    (hp : p.apply g = .ok h) : h.start ∈ h.nonterminals := by
  cases p with
  | dropBarren =>
    obtain ⟨hproductive,rfl⟩ := dropBarren_eq_ok.mp hp
    exact mem_restrict_nonterminals.mpr ⟨hs,hproductive⟩
  | dropUnreachable =>
    cases hp
    exact mem_restrict_nonterminals.mpr ⟨hs,start_reachable g⟩
  | isolateTerminals =>
    obtain ⟨_,rfl⟩ := isolateTerminals_eq_ok.mp hp
    exact mem_isolated_nonterminals.mpr (Or.inr hs)
  | splitLong =>
    obtain ⟨_,rfl⟩ := splitLong_eq_ok.mp hp
    exact mem_split_nonterminals.mpr (Or.inr hs)
  | dropEpsilon => exact dropEpsilon_start hp hs
  | dropUnits =>
    cases hp
    exact hs
  | normalForm => exact normalForm_start hg hp

/-! ## Declarations from files and from sessions -/

theorem ok_of_mapError {ε δ : Type} {result : Except ε Grammar} {f : ε → δ}
    (hr : result.mapError f = .ok g) : result = .ok g := by
  cases result with
  | error e => cases hr
  | ok h =>
    cases hr
    rfl

theorem Built.assemble {a : Alphabet} (ha : a.Chosen) {parts : List Description}
    {override : Option Char} (hd : Description.assemble a parts override = .ok g) : g.Built :=
  (Built.empty ha).declareAll hd

theorem Built.declareUntilRefused (hg : g.Built) (ds : List Declaration) :
    (g.declareUntilRefused ds).1.Built := by
  induction ds generalizing g with
  | nil => exact hg
  | cons d ds ih =>
    rw [Grammar.declareUntilRefused]
    cases hd : g.declare d with
    | error e => exact hg
    | ok next => exact ih (hg.declare hd)

theorem Built.reload (hg : g.Built) (hr : g.reload = .ok h) : h.Built := by
  unfold Grammar.reload at hr
  cases hd : Description.ofFile .json (.ok (Utf8.encode g.document)) with
  | error e =>
    rw [hd] at hr
    cases hr
  | ok d =>
    rw [hd] at hr
    exact Built.assemble hg.chosen (ok_of_mapError hr)

/-- The grammars that a session may begin with. -/
inductive Initial : Grammar → Prop
  | empty {a : Alphabet} (ha : a.Chosen) : Initial (.empty a)
  | assembled {a : Alphabet} {g : Grammar} {parts : List Description} {override : Option Char}
    (ha : a.Chosen) (hg : Description.assemble a parts override = .ok g) : Initial g

theorem Initial.built (hg : g.Initial) : g.Built := by
  cases hg with
  | empty ha => exact .empty ha
  | assembled ha hg => exact .assemble ha hg

end Grammar

namespace Session

variable {s : Session}

/-- The session after commands, whether they succeed or not. -/
def after (s : Session) (cs : List Command) : Session := cs.foldl (fun s c => (s.step c).1) s

theorem replace_built (hs : s.grammar.Built) {result : Except Failure Grammar}
    (hr : ∀ g, result = .ok g → g.Built) : (s.replace result).1.grammar.Built := by
  cases result with
  | error e => exact hs
  | ok g => exact hr g rfl

theorem ask_grammar (s : Session) (question : Recognizer → Reply) :
    (s.ask question).1.grammar = s.grammar := by
  unfold ask
  split <;> rfl

theorem install_grammar (s : Session) (result : Except NormalFormError Recognizer) :
    (s.install result).1.grammar = s.grammar := by
  cases result <;> rfl

theorem adopt_grammar (s : Session) : s.adopt.1.grammar = s.grammar := by
  unfold adopt
  split <;> rfl

/-- One command leads from a built grammar to a built grammar. -/
theorem step_built (hs : s.grammar.Built) (c : Command) : (s.step c).1.grammar.Built := by
  cases c with
  | reset lists =>
    refine replace_built hs fun g hg => ?_
    have hempty := Grammar.ok_of_mapError hg
    cases ha : Alphabet.choose lists with
    | error e =>
      rw [ha] at hempty
      cases hempty
    | ok a =>
      rw [ha] at hempty
      cases hempty
      exact .empty ⟨lists,ha⟩
  | declare ds => exact hs.declareUntilRefused ds
  | apply p =>
    refine replace_built hs fun g hg => ?_
    exact hs.pass (Grammar.ok_of_mapError hg)
  | reload =>
    rw [step]
    exact replace_built hs fun g hg => hs.reload hg
  | recognize => rwa [step, install_grammar]
  | recognizeNormal => rwa [step, install_grammar]
  | adopt => rwa [step, adopt_grammar]
  | decide words => rwa [step, ask_grammar]
  | recognizer => rwa [step, ask_grammar]
  | _ => exact hs

theorem after_built (hs : s.grammar.Built) (cs : List Command) : (s.after cs).grammar.Built := by
  induction cs generalizing s with
  | nil => exact hs
  | cons c cs ih => exact ih (step_built hs c)

/-- After every run the grammar is well formed, and a pass keeps its start symbol declared. -/
theorem after_wellFormed (hs : s.grammar.Initial) (cs : List Command) :
    (s.after cs).grammar.WellFormed ∧
    ((s.after cs).grammar.start ∈ (s.after cs).grammar.nonterminals →
      ∀ p h, Pass.apply (s.after cs).grammar p = .ok h → h.start ∈ h.nonterminals) := by
  have hw := (after_built hs.built cs).wellFormed
  exact ⟨hw,fun hstart p h hp => Grammar.pass_start hw hstart hp⟩

/-- A refused declaration, and passes out of their order, one of which finds no further
non-terminal for a start symbol. -/
def interruption : List Command :=
  [.declare [.nonterminal 'S',.terminal 'a',.rule 'S' ['b']],
    .declare [.ruleText ['S','-','>'],.ruleText ['S','-','>','a','S']],.apply .isolateTerminals,
    .apply .dropEpsilon,.apply .splitLong]

def interrupted : Session := (start ⟨['S','A'],['a']⟩).after interruption

theorem after_wellFormed_interrupted : interrupted.grammar.WellFormed ∧
    ∃ h, Pass.apply interrupted.grammar .dropBarren = .ok h ∧ h.start ∈ h.nonterminals := by
  have hchosen : (⟨['S','A'],['a']⟩ : Alphabet).Chosen := ⟨some (['S','A'],['a']),by decide⟩
  have hs : interrupted.grammar.start ∈ interrupted.grammar.nonterminals := by decide +kernel
  have hproductive : interrupted.grammar.start ∈ interrupted.grammar.productive := by
    decide +kernel
  have hp : Pass.apply interrupted.grammar .dropBarren =
      .ok (interrupted.grammar.restrict interrupted.grammar.productive) :=
    Grammar.dropBarren_eq_ok.mpr ⟨hproductive,rfl⟩
  have hall := after_wellFormed (s := start ⟨['S','A'],['a']⟩) (.empty hchosen) interruption
  rw [← interrupted] at hall
  exact ⟨hall.1,_,hp,hall.2 hs .dropBarren _ hp⟩

end Session

end WordProblem
