import Mathlib.Data.List.Forall2
import WordProblem.Proofs.Description.Assembly
import WordProblem.Proofs.Description.Plain
import WordProblem.Proofs.Recognizer.Adoption
import WordProblem.Proofs.Recognizer.Reuse
import WordProblem.Proofs.Text.Line
import WordProblem.Proofs.Text.Utf8

/-! # All answers or none

A run that decides words either fails before it prints anything, or it prints one line for every
word. It fails if its file describes no grammar, if that grammar has no recognizer, or if words are
expected from a standard input that is not text. The lines tell which words belong to the language
of the grammar that the file describes. A file that announces more rules than a list can hold is an
exception: the run breaks off, with a code that stands for neither.
-/
namespace WordProblem.CommandLine
open Description (Content)

variable {file : Content} {input : List UInt8} {g : Grammar} {r : Recognizer}

/-- The line of a word, which is judged without the blanks at its end. -/
def Judges (g : Grammar) (word line : List Char) : Prop :=
  ∃ core, Text.Trims word core ∧
    (g.Accepts core ∧ line = ['Y','e','s'] ∨ ¬g.Accepts core ∧ line = ['N','o'])

/-- The run failed and printed no answer. -/
structure Outcome.Silent (out : Outcome) : Prop where
  code : out.code = 1
  stdout : out.stdout = []

/-- The run broke off and printed no answer. -/
structure Outcome.Crashed (out : Outcome) : Prop where
  code : out.code = 101
  stdout : out.stdout = []

/-- The run printed one line for each of the words, in their order. -/
structure Outcome.Decides (out : Outcome) (g : Grammar) (words : List (List Char)) : Prop where
  code : out.code = 0
  lines : ∃ lines, out.stdout = lines.flatMap (· ++ ['\n']) ∧ List.Forall₂ (Judges g) words lines

theorem silent_failed (reason : String) : (Outcome.failed reason).Silent := ⟨rfl,rfl⟩

def verdict (r : Recognizer) (word : List Char) : List Char :=
  if r.accepts (Text.trimEnd word) then ['Y','e','s'] else ['N','o']

theorem answer_eq (r : Recognizer) (word : List Char) : answer r word = verdict r word ++ ['\n'] := by
  unfold answer verdict
  split <;> rfl

theorem judges_verdict (hr : ∀ w, r.accepts w = true ↔ g.Accepts w) (word : List Char) :
    Judges g word (verdict r word) := by
  refine ⟨_,Text.trims_trimEnd word,?_⟩
  rw [verdict, ← hr]
  split
  · next hyes => exact Or.inl ⟨hyes,rfl⟩
  · next hno => exact Or.inr ⟨hno,rfl⟩

theorem decides_answers (hr : ∀ w, r.accepts w = true ↔ g.Accepts w) (notes : List Char)
    (words : List (List Char)) : (answers r notes words).Decides g words := by
  refine ⟨rfl,words.map (verdict r),?_,?_⟩
  · simp [answers, List.flatMap_map, funext (answer_eq r)]
  · rw [List.forall₂_map_right_iff, List.forall₂_same]
    exact fun word _ => judges_verdict hr word

theorem silent_answerLines (r : Recognizer) (notes : List Char)
    (h : ∀ cs, input ≠ Utf8.encode cs) : (answerLines r notes input).Silent := by
  have hnone : Utf8.decode? input = none := by
    by_contra hsome
    obtain ⟨cs,hcs⟩ := Option.ne_none_iff_exists'.mp hsome
    exact h cs (Utf8.decode_eq_some_iff.mp hcs)
  rw [answerLines, hnone]
  exact ⟨rfl,rfl⟩

theorem decides_answerLines (hr : ∀ w, r.accepts w = true ↔ g.Accepts w) (notes : List Char)
    {cs : List Char} {ls : List (List Char)} (hl : Text.Lined cs ls) :
    (answerLines r notes (Utf8.encode cs)).Decides g ls := by
  rw [answerLines, Utf8.decode_eq_some_iff.mpr rfl, ← hl.eq]
  exact decides_answers hr notes _

theorem mapError_ne {α ε δ : Type} {x : Except ε α} {f : ε → δ} {e : δ} (hf : ∀ a, f a ≠ e) :
    x.mapError f ≠ .error e := by
  cases x with
  | ok a => exact nofun
  | error a => exact fun h => hf a (Except.error.inj h)

/-- No other error of a plain file is an overflow. -/
theorem readPlain_overflow {bytes : List UInt8}
    (h : Description.readPlain bytes = .error .overflow) :
    ∃ cs, bytes = Utf8.encode cs ∧ Description.Plain.overfull cs = true := by
  unfold Description.readPlain at h
  split at h
  · next cs hcs =>
    split at h
    · next hover => exact ⟨cs,Utf8.decode_eq_some_iff.mp hcs,hover⟩
    · exact absurd h (mapError_ne fun _ => nofun)
  · cases h

namespace Options

variable {o : Options} {d : Description}

/-- The file is a plain text whose tokens announce more rules than a list can hold. -/
def Overfull (o : Options) (file : Content) : Prop :=
  o.format = .plain ∧ ∃ cs ts, file = .ok (Utf8.encode cs) ∧ (∀ t ∈ ts, Text.IsToken t) ∧
    Text.Spaced ts cs ∧ Description.Plain.Overfull ts

/-- What keeps a run from answering. -/
inductive Hindered (o : Options) (file : Content) (input : List UInt8) : Prop
  | unread {e : Description.FileError} (h : Description.ofFile o.format file = .error e)
  | refused {d : Description} {e : DeclarationError} (hd : Description.ofFile o.format file = .ok d)
    (h : Description.assemble .standard [d] o.start = .error e)
  | unfit {d : Description} {g : Grammar} {e : NormalFormError}
    (hd : Description.ofFile o.format file = .ok d)
    (hg : Description.assemble .standard [d] o.start = .ok g) (h : Recognizer.ofGrammar g = .error e)
  | noText {d : Description} {g : Grammar} {r : Recognizer}
    (hd : Description.ofFile o.format file = .ok d)
    (hg : Description.assemble .standard [d] o.start = .ok g) (hr : Recognizer.ofGrammar g = .ok r)
    (harguments : o.words = []) (hqueries : d.words = []) (h : ∀ cs, input ≠ Utf8.encode cs)

/-- The words that a run has to decide: those of the arguments, else those of the file, else the
lines of the standard input. -/
inductive Selects (o : Options) (d : Description) (input : List UInt8) : List (List Char) → Prop
  | arguments (h : o.words ≠ []) : Selects o d input o.words
  | queries (h : o.words = []) (hd : d.words ≠ []) : Selects o d input d.words
  | lines (h : o.words = []) (hd : d.words = []) {cs : List Char} {ls : List (List Char)}
    (hi : input = Utf8.encode cs) (hl : Text.Lined cs ls) : Selects o d input ls

theorem ofFile_overflow_iff :
    Description.ofFile o.format file = .error .overflow ↔ o.Overfull file := by
  constructor
  · intro h
    cases file with
    | error reason => cases h
    | ok bytes =>
      cases hformat : o.format with
      | json =>
        rw [hformat] at h
        exact absurd h (mapError_ne fun _ => nofun)
      | plain =>
        rw [hformat] at h
        obtain ⟨cs,rfl,hover⟩ := readPlain_overflow h
        obtain ⟨hts,hspaced⟩ := Text.tokens_eq_iff.mp (rfl : Text.tokens cs = _)
        exact ⟨hformat,cs,_,rfl,hts,hspaced,Description.Plain.overfull_iff.mp hover⟩
  · rintro ⟨hformat,cs,ts,rfl,hts,hspaced,hover⟩
    rw [← Text.tokens_eq_iff.mpr ⟨hts,hspaced⟩] at hover
    rw [hformat, Description.ofFile, Description.readPlain, Utf8.decode_eq_some_iff.mpr rfl]
    exact if_pos (Description.Plain.overfull_iff.mpr hover)

theorem load_unread {e : Description.FileError} (h : Description.ofFile o.format file = .error e) :
    o.load file = .error (.ofLoadError ⟨String.ofList o.grammar,e⟩) := by
  unfold load Description.File.load
  rw [h]
  rfl

theorem load_refused {e : DeclarationError} (hd : Description.ofFile o.format file = .ok d)
    (h : Description.assemble .standard [d] o.start = .error e) :
    o.load file = .error (.failed e.message) := by
  unfold load Description.File.load
  rw [hd]
  change (Description.assemble .standard [d] o.start).mapError _ >>= _ = _
  rw [h]
  rfl

theorem decide_of_load {out : Outcome} (h : o.load file = .error out) (refusal : Option String) :
    (o.decide file).outcome input refusal = out := by
  rw [Options.decide, h]
  rfl

/-- Every error but an overflow is reported. -/
theorem silent_ofLoadError {name : String} {e : Description.FileError} (h : e ≠ .overflow) :
    (Outcome.ofLoadError ⟨name,e⟩).Silent := by
  cases e with
  | overflow => exact absurd rfl h
  | unreadable | notUtf8 | plain | json => exact silent_failed _

theorem Overfull.crashed (h : o.Overfull file) (refusal : Option String) :
    ((o.decide file).outcome input refusal).Crashed := by
  rw [decide_of_load (load_unread (ofFile_overflow_iff.mpr h))]
  exact ⟨rfl,rfl⟩

theorem Hindered.silent (h : o.Hindered file input) (hroom : ¬o.Overfull file)
    (refusal : Option String) : ((o.decide file).outcome input refusal).Silent := by
  cases h with
  | unread h =>
    rw [decide_of_load (load_unread h)]
    refine silent_ofLoadError ?_
    rintro rfl
    exact hroom (ofFile_overflow_iff.mp h)
  | refused hd h =>
    rw [decide_of_load (load_refused hd h)]
    exact silent_failed _
  | unfit hd hg h =>
    simp only [Options.decide, load_eq_ok.mpr ⟨_,hd,hg,rfl⟩, h]
    exact silent_failed _
  | noText hd hg hr harguments hqueries h =>
    rw [decide_outcome (load_eq_ok.mpr ⟨_,hd,hg,rfl⟩) hr, if_pos (by simp [asked, harguments, hqueries])]
    exact silent_answerLines _ _ h

section Recognized
variable (hd : Description.ofFile o.format file = .ok d)
  (hg : Description.assemble .standard [d] o.start = .ok g) (hr : Recognizer.ofGrammar g = .ok r)

include hd hg hr in
/-- Once there is a recognizer, only the standard input can be in the way. -/
theorem exists_selects (h : ¬o.Hindered file input) : ∃ words, o.Selects d input words := by
  by_cases harguments : o.words = []
  · by_cases hqueries : d.words = []
    · have htext : ∃ cs, input = Utf8.encode cs := by
        by_contra hbytes
        exact h (.noText hd hg hr harguments hqueries fun cs hcs => hbytes ⟨cs,hcs⟩)
      obtain ⟨cs,hcs⟩ := htext
      exact ⟨_,.lines harguments hqueries hcs (Text.lined_lines cs)⟩
    · exact ⟨_,.queries harguments hqueries⟩
  · exact ⟨_,.arguments harguments⟩

include hd hg hr in
theorem Selects.decides {words : List (List Char)} (hs : o.Selects d input words)
    (refusal : Option String) : ((o.decide file).outcome input refusal).Decides g words := by
  have hbuilt : g.Built := .assemble ⟨none,rfl⟩ hg
  have haccepts := (Recognizer.serves_ofGrammar hbuilt.wellFormed hr).accepts
  rw [decide_outcome (load_eq_ok.mpr ⟨d,hd,hg,rfl⟩) hr]
  cases hs with
  | arguments h =>
    have hasked : o.asked d.words = o.words := by simp [asked, h]
    rw [hasked, if_neg (by simpa using h)]
    exact decides_answers haccepts _ _
  | queries h hq =>
    have hasked : o.asked d.words = d.words := by simp [asked, h]
    rw [hasked, if_neg (by simpa using hq)]
    exact decides_answers haccepts _ _
  | lines h hq hi hl =>
    rw [if_pos (by simp [asked, h, hq]), hi]
    exact decides_answerLines haccepts _ hl

end Recognized

/-- A run on a file that announces too many rules breaks off. Every other run is hindered and prints
nothing, or it prints a line for every selected word, which tells whether the grammar that the file
describes has it. -/
theorem run_all_or_nothing (htool : o.tool = .decide) (file : Content) (input : List UInt8)
    (refusal : Option String) :
    o.Overfull file ∧ ((o.run file).outcome input refusal).Crashed ∨
    ¬o.Overfull file ∧
      (o.Hindered file input ∧ ((o.run file).outcome input refusal).Silent ∨
      ¬o.Hindered file input ∧ ∃ d g words, Description.ofFile o.format file = .ok d ∧
        Description.assemble .standard [d] o.start = .ok g ∧ Description.Describes [d] o.start g ∧
        o.Selects d input words ∧ ((o.run file).outcome input refusal).Decides g words) := by
  rw [run_decide htool]
  by_cases hroom : o.Overfull file
  · exact Or.inl ⟨hroom,hroom.crashed refusal⟩
  refine Or.inr ⟨hroom,?_⟩
  by_cases h : o.Hindered file input
  · exact Or.inl ⟨h,h.silent hroom refusal⟩
  · refine Or.inr ⟨h,?_⟩
    cases hd : Description.ofFile o.format file with
    | error e => exact absurd (.unread hd) h
    | ok d =>
      cases hg : Description.assemble .standard [d] o.start with
      | error e => exact absurd (.refused hd hg) h
      | ok g =>
        cases hr : Recognizer.ofGrammar g with
        | error e => exact absurd (.unfit hd hg hr) h
        | ok r =>
          obtain ⟨words,hs⟩ := exists_selects hd hg hr h
          exact ⟨d,g,words,rfl,hg,Description.assemble_describes ⟨none,rfl⟩ hg,hs,
            hs.decides hd hg hr refusal⟩

def plainOptions (start : Option Char) (words : List (List Char)) : Options where
  tool := .decide
  grammar := ['g']
  format := .plain
  start := start
  verbose := false
  output := none
  text := false
  raw := false
  words := words

/-- A plain file with two non-terminals and without words. -/
def tailFile : Content := .ok (Utf8.encode "2 2 2\nST\nab\nS->aT\nT->b\nS\n".toList)

/-- Its grammar, with another start symbol than its own. -/
def tail : Grammar where
  alphabet := .standard
  nonterminals := ['S','T']
  terminals := ['a','b']
  rules := [⟨'S',[.terminal 'a',.nonterminal 'T']⟩,⟨'T',[.terminal 'b']⟩]
  start := 'T'

def tailRun (words : List (List Char)) (input : List UInt8) : Outcome :=
  ((plainOptions (some 'T') words).run tailFile).outcome input none

/-- A plain file that announces as many rules as a count can tell, and has one. -/
def boundlessFile : Content :=
  .ok (Utf8.encode "1 1 18446744073709551615\nS\na\nS->a\nS".toList)

def boundlessRun : Outcome := ((plainOptions none []).run boundlessFile).outcome [] none

theorem load_tail (words : List (List Char)) :
    (plainOptions (some 'T') words).load tailFile = .ok ([],tail) := by
  change (plainOptions (some 'T') []).load tailFile = .ok ([],tail)
  decide +kernel

theorem boundlessRun_code : boundlessRun.code = 101 := by decide +kernel

/-- The lines of the standard input are words if there are no others, and then it has to be text. -/
theorem run_all_or_nothing_tail :
    (tailRun [] (Utf8.encode "b \r\nab\nb".toList)).Decides tail [['b',' '],['a','b'],['b']] ∧
    (tailRun [] (Utf8.encode "b \r\nab\nb".toList)).stdout = "Yes\nNo\nYes\n".toList ∧
    (tailRun [['b','\t']] [0xFF]).Decides tail [['b','\t']] ∧
    (tailRun [] [0xFF]).Silent ∧ boundlessRun.Crashed := by
  have hdecided : ∀ words input, (tailRun words input).code = 0 → ∃ d ls, d.words = [] ∧
      (plainOptions (some 'T') words).Selects d input ls ∧
      (tailRun words input).Decides tail ls := by
    intro words input hcode
    obtain ⟨e,he,hassembled,hwords⟩ := load_eq_ok.mp (load_tail words)
    rcases run_all_or_nothing (o := plainOptions (some 'T') words) rfl tailFile input none with
      ⟨_,hcrashed⟩ | ⟨_,⟨_,hsilent⟩ | ⟨_,d,g,ls,hd,hg,_,hs,hdecides⟩⟩
    · cases hcode.symm.trans hcrashed.code
    · cases hcode.symm.trans hsilent.code
    · cases he.symm.trans hd
      cases hassembled.symm.trans hg
      exact ⟨_,ls,hwords.symm,hs,hdecides⟩
  refine ⟨?_,by decide +kernel,?_,?_,?_⟩
  · obtain ⟨d,ls,hd,hs,hdecides⟩ :=
      hdecided [] (Utf8.encode "b \r\nab\nb".toList) (by decide +kernel)
    cases hs with
    | arguments h => exact absurd rfl h
    | queries _ hq => exact absurd hd hq
    | lines _ _ hi hl =>
      have htext := Utf8.decode_eq_some_iff.mpr hi
      rw [Utf8.decode_eq_some_iff.mpr rfl] at htext
      cases htext
      rwa [← hl.eq] at hdecides
  · obtain ⟨d,ls,_,hs,hdecides⟩ := hdecided [['b','\t']] [0xFF] (by decide +kernel)
    cases hs with
    | arguments => exact hdecides
    | queries h => cases h
    | lines h => cases h
  · have hcode : (tailRun [] [0xFF]).code = 1 := by decide +kernel
    rcases run_all_or_nothing (o := plainOptions (some 'T') []) rfl tailFile [0xFF] none with
      ⟨_,hcrashed⟩ | ⟨_,⟨_,hsilent⟩ | ⟨_,_,_,_,_,_,_,_,hdecides⟩⟩
    · cases hcode.symm.trans hcrashed.code
    · exact hsilent
    · cases hcode.symm.trans hdecides.code
  · rcases run_all_or_nothing (o := plainOptions none []) rfl boundlessFile [] none with
      ⟨_,hcrashed⟩ | ⟨_,⟨_,hsilent⟩ | ⟨_,_,_,_,_,_,_,_,hdecides⟩⟩
    · exact hcrashed
    · cases boundlessRun_code.symm.trans hsilent.code
    · cases boundlessRun_code.symm.trans hdecides.code

/-- A run that breaks off has neither failed in silence nor decided anything. -/
theorem boundlessRun_neither : boundlessRun.code = 101 ∧ ¬boundlessRun.Silent ∧
    ∀ g words, ¬boundlessRun.Decides g words := by
  refine ⟨boundlessRun_code,fun h => ?_,fun g words h => ?_⟩
  · cases boundlessRun_code.symm.trans h.code
  · cases boundlessRun_code.symm.trans h.code

end Options

end WordProblem.CommandLine
