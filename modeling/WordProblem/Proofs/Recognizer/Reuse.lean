import WordProblem.Command.Outcome
import WordProblem.Proofs.Description.Reload
import WordProblem.Proofs.Normal.Renewal
import WordProblem.Proofs.Recognizer.Recognition
import WordProblem.Proofs.Session

/-! # Normal forms are used again

A normal form comes back from its document, and a recognizer of it has the words of the grammar
that it was made from. There is one exception. A normal form with the empty word needs a further
start symbol, and the alphabet may have none left.
-/
namespace WordProblem

namespace Grammar

variable {g c : Grammar}

section Again
variable (hg : g.WellFormed) (hc : g.normalForm = .ok c)

include hg hc in
/-- The empty word is in the language just if the normal form has it from a rule. -/
theorem epsilon_normalForm_iff : ⟨c.start,[]⟩ ∈ c.rules ↔ g.Accepts [] := by
  rw [← normalForm_accepts hg hc]
  exact ⟨fun hs => c.generates_closed _ hs [] rfl,
    fun h => (start_of_generates_nil (normalForm_fits hg hc) h).2⟩

include hg hc in
theorem normalForm_productive : c.start ∈ c.productive := by
  obtain ⟨hp,_⟩ := exists_shortened hg hc
  obtain ⟨w,hw⟩ := (start_productive_iff hg).mp hp
  exact (start_productive_iff (hg.normalForm hc)).mpr ⟨w,(normalForm_accepts hg hc).mpr hw⟩

include hg hc in
/-- The useful part of the normal form has that rule as well. -/
theorem epsilon_again_iff : ⟨c.start,[]⟩ ∈ c.useful.rules ↔ g.Accepts [] :=
  (epsilon_useful_iff (normalForm_productive hg hc)).trans (epsilon_normalForm_iff hg hc)

include hg hc in
theorem normalForm_normalForm : c.normalForm = c.useful.dropEpsilon.map dropUnits :=
  normalForm_of_fits (hg.normalForm hc) (normalForm_fits hg hc) (normalForm_start hg hc)
    (normalForm_productive hg hc)

include hg hc in
theorem normalForm_refused (he : g.Accepts []) (hfull : c.useful.unused = []) :
    c.normalForm = .error .outOfNonterminals := by
  have hfits := useful_fits (normalForm_fits hg hc)
  have hs := (epsilon_again_iff hg hc).mpr he
  rw [normalForm_normalForm hg hc, dropEpsilon_renews (hg.normalForm hc).useful hfits hs, hfull]

include hg hc in
theorem normalForm_repeats (hroom : ¬(g.Accepts [] ∧ c.useful.unused = [])) :
    ∃ n, c.normalForm = .ok n := by
  have hw := (hg.normalForm hc).useful
  have hfits := useful_fits (normalForm_fits hg hc)
  rw [normalForm_normalForm hg hc]
  by_cases hs : ⟨c.start,[]⟩ ∈ c.useful.rules
  · rw [dropEpsilon_renews hw hfits hs]
    cases hu : c.useful.unused with
    | nil => exact absurd ⟨(epsilon_again_iff hg hc).mp hs,hu⟩ hroom
    | cons f rest => exact ⟨_,rfl⟩
  · exact ⟨_,dropEpsilon_of_fits hw hfits hs⟩

end Again

end Grammar

namespace Recognizer
open Grammar

variable {g c n : Grammar}

theorem ofGrammar_eq_error {e : NormalFormError} :
    ofGrammar g = .error e ↔ g.normalForm = .error e := by
  unfold ofGrammar
  cases g.normalForm <;> simp

theorem accepts_ofNormal (hg : g.WellFormed) (hc : g.normalForm = .ok c) (w : List Char) :
    (ofNormal c).accepts w = true ↔ g.Accepts w :=
  (accepts_numbered (normalForm_fits hg hc) (hg.normalForm hc) (normalForm_start hg hc) w).trans
    (normalForm_accepts hg hc)

/-- The recognizers of a grammar and of its normal form do not differ in their words. -/
theorem accepts_again (hg : g.WellFormed) (hc : g.normalForm = .ok c) (hn : c.normalForm = .ok n)
    (w : List Char) : (ofNormal n).accepts w = true ↔ g.Accepts w :=
  (accepts_ofNormal (hg.normalForm hc) hn w).trans (normalForm_accepts hg hc)

end Recognizer

namespace CommandLine
open Description (Content)

variable {file other : Content} {queries : List (List Char)} {g : Grammar} {r s : Recognizer}

/-- Two outcomes that differ in their notes at most. -/
def Outcome.Agrees (a b : Outcome) : Prop := a.code = b.code ∧ a.stdout = b.stdout

section Answers
variable (hsame : ∀ w, r.accepts w = s.accepts w) (notes remarks : List Char)

include hsame in
theorem answers_agree (words : List (List Char)) :
    (answers r notes words).Agrees (answers s remarks words) := by
  have hanswer : answer r = answer s := by
    funext word
    rw [answer, answer, hsame]
  refine ⟨rfl,?_⟩
  change words.flatMap (answer r) = words.flatMap (answer s)
  rw [hanswer]

include hsame in
theorem answerLines_agree (input : List UInt8) :
    (answerLines r notes input).Agrees (answerLines s remarks input) := by
  unfold answerLines
  cases Utf8.decode? input with
  | none => exact ⟨rfl,rfl⟩
  | some cs => exact answers_agree hsame notes remarks _

end Answers

namespace Options

variable {o p : Options}

/-- The words to decide, given those of the grammar file. None stand for those of the standard
input. -/
def asked (o : Options) (queries : List (List Char)) : List (List Char) :=
  if o.words.isEmpty then queries else o.words

/-- Writes the normal form of the same grammar. -/
def emitting (o : Options) : Options :=
  { o with tool := .emit, output := none, text := false, raw := false }

/-- Decides the same words by the grammar of a document. -/
def reusing (o : Options) (queries : List (List Char)) (name : List Char) : Options :=
  { o with grammar := name, format := .json, start := none, words := o.asked queries }

def notes (o : Options) (r : Recognizer) : List Char :=
  if o.verbose then r.grammar.display ++ ['\n'] else []

theorem load_eq_ok : o.load file = .ok (queries,g) ↔ ∃ d, Description.ofFile o.format file = .ok d ∧
    Description.assemble .standard [d] o.start = .ok g ∧ queries = d.words := by
  unfold load Description.File.load
  cases Description.ofFile o.format file with
  | error e => simp [Except.mapError, bind, Except.bind]
  | ok d =>
    cases hg : Description.assemble .standard [d] o.start with
    | error e => simp [Except.mapError, bind, Except.bind, hg]
    | ok h => simp [Except.mapError, bind, Except.bind, pure, Except.pure, hg, eq_comm, and_comm]

theorem load_alphabet (hload : o.load file = .ok (queries,g)) : g.alphabet = .standard := by
  obtain ⟨_,_,hg,_⟩ := load_eq_ok.mp hload
  exact Grammar.assemble_alphabet hg

theorem load_document (hg : g.WellFormed) (hs : g.start ∈ g.nonterminals)
    (ha : g.alphabet = .standard) (hformat : o.format = .json) (hstart : o.start = none) :
    o.load (.ok (Utf8.encode g.document)) = .ok ([],g) := by
  have hassemble := Grammar.assemble_ofGrammar hg
  rw [if_pos hs, ha, ← hstart] at hassemble
  have hread := g.ofFile_document
  rw [← hformat] at hread
  exact load_eq_ok.mpr ⟨_,hread,hassemble,rfl⟩

theorem run_decide (htool : o.tool = .decide) (file : Content) : o.run file = o.decide file := by
  rw [run, htool]

/-- What a run answers depends on the words and on the recognizer. -/
theorem decide_outcome (hload : o.load file = .ok (queries,g)) (hr : Recognizer.ofGrammar g = .ok r)
    (input : List UInt8) (refusal : Option String) :
    (o.decide file).outcome input refusal =
      if (o.asked queries).isEmpty then answerLines r (o.notes r) input
      else answers r (o.notes r) (o.asked queries) := by
  simp only [Options.decide, hload, hr, asked, notes]
  by_cases hwords : o.words = []
  · by_cases hqueries : queries = []
    · simp [hwords, hqueries, Ending.outcome]
    · simp [hwords, hqueries, Ending.outcome]
  · simp [hwords, Ending.outcome]

theorem decide_agrees {h : Grammar} {questions : List (List Char)}
    (ho : o.load file = .ok (queries,g)) (hp : p.load other = .ok (questions,h))
    (hr : Recognizer.ofGrammar g = .ok r) (hs : Recognizer.ofGrammar h = .ok s)
    (hsame : ∀ w, r.accepts w = s.accepts w) (hasked : o.asked queries = p.asked questions)
    (input : List UInt8) (refusal : Option String) :
    ((o.decide file).outcome input refusal).Agrees ((p.decide other).outcome input refusal) := by
  rw [decide_outcome ho hr, decide_outcome hp hs, ← hasked]
  split
  · exact answerLines_agree hsame _ _ input
  · exact answers_agree hsame _ _ _

theorem asked_reusing (o : Options) (queries : List (List Char)) (name : List Char) :
    (o.reusing queries name).asked [] = o.asked queries := by
  change (if (o.asked queries).isEmpty then [] else o.asked queries) = o.asked queries
  cases o.asked queries <;> rfl

theorem run_emitting {c : Grammar} (hload : o.load file = .ok (queries,g))
    (hc : g.normalForm = .ok c) :
    o.emitting.run file = .done { code := 0, stdout := c.document } := by
  have hemit : o.emitting.load file = .ok (queries,g) := hload
  change o.emitting.emit file = _
  simp only [emit, hemit]
  simp [emitting, hc]

/-- The document of a normal form answers for the grammar, as long as it can be used. -/
theorem run_reusing {c n : Grammar} (hg : g.WellFormed) (htool : o.tool = .decide)
    (hload : o.load file = .ok (queries,g)) (hc : g.normalForm = .ok c)
    (hn : c.normalForm = .ok n) (name : List Char) (input : List UInt8)
    (refusal : Option String) :
    (((o.reusing queries name).run (.ok (Utf8.encode c.document))).outcome input refusal).Agrees
      ((o.run file).outcome input refusal) := by
  have hagain : (o.reusing queries name).load (.ok (Utf8.encode c.document)) = .ok ([],c) :=
    load_document (hg.normalForm hc) (Grammar.normalForm_start hg hc)
      ((Grammar.normalForm_alphabet hc).trans (load_alphabet hload)) rfl rfl
  have hsame : ∀ w, (Recognizer.ofNormal n).accepts w = (Recognizer.ofNormal c).accepts w := by
    intro w
    rw [Bool.eq_iff_iff, Recognizer.accepts_again hg hc hn, Recognizer.accepts_ofNormal hg hc]
  have htool' : (o.reusing queries name).tool = .decide := htool
  rw [run_decide htool, run_decide htool']
  exact decide_agrees hagain hload (Recognizer.ofGrammar_eq_ok.mpr ⟨n,hn,rfl⟩)
    (Recognizer.ofGrammar_eq_ok.mpr ⟨c,hc,rfl⟩) hsame (o.asked_reusing queries name) input refusal

end Options

end CommandLine

namespace Recognizer
open Grammar CommandLine

variable {g c : Grammar}

/-- A normal form comes back from its document, and unless it has the empty word and its useful
part takes up all non-terminals, its recognizer has the words of the grammar and a run on its
document answers like one on the file that the grammar came from. -/
theorem ofGrammar_reused (hg : g.Built) (hc : g.normalForm = .ok c) :
    (c.alphabet = g.alphabet ∧ c.reload = .ok c) ∧
    ∃ b u, c.dropBarren = .ok b ∧ u = b.dropUnreachable ∧
      (ofGrammar c = .error .outOfNonterminals ↔
        g.Accepts [] ∧ ∀ a ∈ g.alphabet.nonterminals, a ∈ u.nonterminals) ∧
      (¬(g.Accepts [] ∧ ∀ a ∈ g.alphabet.nonterminals, a ∈ u.nonterminals) →
        (∃ r, ofGrammar c = .ok r ∧ ∀ w, r.accepts w = true ↔ g.Accepts w) ∧
        ∀ (o : Options) file queries, o.tool = .decide → o.load file = .ok (queries,g) →
          o.emitting.run file = .done { code := 0, stdout := c.document } ∧
          ∀ name input refusal,
            (((o.reusing queries name).run (.ok (Utf8.encode c.document))).outcome input
              refusal).Agrees ((o.run file).outcome input refusal)) := by
  have hw := hg.wellFormed
  have halphabet := normalForm_alphabet hc
  have hreload : c.reload = .ok c := by
    rw [reload_eq (hw.normalForm hc), if_pos (normalForm_start hw hc)]
  have hfull : c.useful.unused = [] ↔ ∀ a ∈ g.alphabet.nonterminals, a ∈ c.useful.nonterminals := by
    rw [← halphabet]
    exact unused_eq_nil_iff
  refine ⟨⟨halphabet,hreload⟩,_,c.useful,
    dropBarren_eq_ok.mpr ⟨normalForm_productive hw hc,rfl⟩,rfl,?_,fun hroom => ?_⟩
  · rw [← hfull, ofGrammar_eq_error]
    constructor
    · intro he
      by_contra hroom
      obtain ⟨n,hn⟩ := normalForm_repeats hw hc hroom
      cases he.symm.trans hn
    · rintro ⟨he,hnone⟩
      exact normalForm_refused hw hc he hnone
  · rw [← hfull] at hroom
    obtain ⟨n,hn⟩ := normalForm_repeats hw hc hroom
    refine ⟨⟨_,ofGrammar_eq_ok.mpr ⟨n,hn,rfl⟩,accepts_again hw hc hn⟩,?_⟩
    intro o file queries htool hload
    exact ⟨Options.run_emitting hload hc,Options.run_reusing hw htool hload hc hn⟩

/-- The normal form of the brackets takes up its alphabet, and a second one is refused. -/
theorem ofGrammar_refuses_normalBrackets : brackets.Built ∧
    brackets.normalForm = .ok normalBrackets ∧ normalBrackets.reload = .ok normalBrackets ∧
    ofGrammar normalBrackets = .error .outOfNonterminals := by
  have hs : normalBrackets.start ∈ normalBrackets.nonterminals := by decide
  have hreload : normalBrackets.reload = .ok normalBrackets := by
    rw [reload_eq normalBrackets_built.wellFormed, if_pos hs]
  have hrefused : normalBrackets.normalForm = .error .outOfNonterminals := by decide +kernel
  exact ⟨brackets_built,brackets_normalForm,hreload,ofGrammar_eq_error.mpr hrefused⟩

/-- As many `a` as `b`, one after the other. -/
def halves : Grammar where
  alphabet := .standard
  nonterminals := ['S']
  terminals := ['a','b']
  rules := [⟨'S',[]⟩,⟨'S',[.terminal 'a',.nonterminal 'S',.terminal 'b']⟩]
  start := 'S'

/-- A plain file of the grammar, with two words. -/
def halvesFile : Description.Content :=
  Except.ok (Utf8.encode ['1',' ','2',' ','2','\n','S','\n','a','b','\n','S','-','>','\n',
    'S','-','>','a','S','b','\n','S','\n','2','\n','a','b','\n','b','a','\n'])

def halvesOptions : Options where
  tool := .decide
  grammar := ['h']
  format := .plain
  start := none
  verbose := true
  output := none
  text := false
  raw := false
  words := []

theorem halves_loaded : halvesOptions.load halvesFile = .ok ([['a','b'],['b','a']],halves) := by
  decide +kernel

def normalHalves : Grammar where
  alphabet := .standard
  nonterminals := ['A','B','C','D','S']
  terminals := ['a','b']
  rules := [⟨'A',[.terminal 'a']⟩,⟨'B',[.terminal 'b']⟩,⟨'C',[.terminal 'b']⟩,
    ⟨'C',[.nonterminal 'S',.nonterminal 'B']⟩,⟨'D',[]⟩,⟨'D',[.nonterminal 'A',.nonterminal 'C']⟩,
    ⟨'S',[.nonterminal 'A',.nonterminal 'C']⟩]
  start := 'D'

theorem ofGrammar_reused_halves : normalHalves.reload = .ok normalHalves ∧
    (∃ r, ofGrammar normalHalves = .ok r ∧ ∀ w, r.accepts w = true ↔ halves.Accepts w) ∧
    ∀ name, (((halvesOptions.reusing [['a','b'],['b','a']] name).run
      (.ok (Utf8.encode normalHalves.document))).outcome [] none).stdout =
        ['Y','e','s','\n','N','o','\n'] := by
  obtain ⟨_,_,hassemble,_⟩ := Options.load_eq_ok.mp halves_loaded
  have hbuilt : halves.Built := Built.assemble ⟨none,rfl⟩ hassemble
  have hc : halves.normalForm = .ok normalHalves := by decide +kernel
  have hfirst : ((halvesOptions.run halvesFile).outcome [] none).stdout =
      ['Y','e','s','\n','N','o','\n'] := by decide +kernel
  have hz : 'Z' ∉ normalHalves.useful.nonterminals := by decide +kernel
  obtain ⟨⟨_,hreload⟩,b,u,hb,rfl,_,hreuse⟩ := ofGrammar_reused hbuilt hc
  obtain ⟨_,rfl⟩ := dropBarren_eq_ok.mp hb
  obtain ⟨hr,hrun⟩ := hreuse fun hfull => hz (hfull.2 'Z' (by decide))
  obtain ⟨_,hagrees⟩ := hrun halvesOptions halvesFile _ rfl halves_loaded
  exact ⟨hreload,hr,fun name => (hagrees name [] none).2.trans hfirst⟩

end Recognizer

end WordProblem
