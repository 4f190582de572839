import WordProblem.Proofs.Recognizer.Recognition

/-! # Recognizers that take other grammars

A recognizer holds its grammar twice, with characters and with numbers. An adoption replaces both
or neither of them. So after every run of adoptions both belong to the last grammar that had a
normal form, and an adoption that failed might as well not have been tried.
-/
namespace WordProblem.Recognizer
open Grammar

variable {g h : Grammar} {r : Recognizer} {e : NormalFormError}

/-- The ways to begin with a recognizer of a grammar. -/
inductive Begins (g : Grammar) (r : Recognizer) : Prop
  | fitted (hr : ofGrammar g = .ok r)
  | given (hr : ofNormal? g = .ok r)

/-- The recognizer holds a normal form with the words of `g`, and its numbers belong to it. -/
structure Serves (r : Recognizer) (g : Grammar) : Prop where
  wellFormed : r.grammar.WellFormed
  start_declared : r.grammar.start ∈ r.grammar.nonterminals
  fits : ∀ q ∈ r.grammar.rules, q.Fits r.grammar
  in_step : r.numbered = r.grammar.numbered
  language : ∀ w, r.grammar.Accepts w ↔ g.Accepts w

theorem Serves.accepts (hr : r.Serves g) (w : List Char) : r.accepts w = true ↔ g.Accepts w := by
  rw [Recognizer.accepts, hr.in_step, accepts_numbered hr.fits hr.wellFormed hr.start_declared]
  exact hr.language w

theorem serves_ofGrammar (hg : g.WellFormed) (hr : ofGrammar g = .ok r) : r.Serves g := by
  obtain ⟨c,hc,rfl⟩ := ofGrammar_eq_ok.mp hr
  exact {
    wellFormed := hg.normalForm hc
    start_declared := normalForm_start hg hc
    fits := normalForm_fits hg hc
    in_step := rfl
    language := fun _ => normalForm_accepts hg hc }

theorem ofNormal_eq_ok : ofNormal? g = .ok r ↔
    g.start ∈ g.nonterminals ∧ (∀ q ∈ g.rules, q.Fits g) ∧ r = ofNormal g := by
  by_cases hs : g.start ∈ g.nonterminals
  · rw [ofNormal_of_declared hs, ← isNormal_iff, Grammar.isNormal]
    cases g.offendingRule? <;> simp [hs, eq_comm]
  · rw [ofNormal_of_undeclared hs]
    simp [hs]

theorem serves_ofNormal (hg : g.WellFormed) (hr : ofNormal? g = .ok r) : r.Serves g := by
  obtain ⟨hs,hn,rfl⟩ := ofNormal_eq_ok.mp hr
  exact ⟨hg,hs,hn,rfl,fun _ => Iff.rfl⟩

theorem Begins.serves (hg : g.WellFormed) (hr : Begins g r) : r.Serves g := by
  cases hr with
  | fitted hr => exact serves_ofGrammar hg hr
  | given hr => exact serves_ofNormal hg hr

/-! ## Runs of adoptions -/

/-- The recognizer after it was asked to take one grammar after another. -/
def adoptAll (r : Recognizer) (gs : List Grammar) : Recognizer :=
  gs.foldl (fun r h => (r.adopt h).1) r

/-- The last one of the grammars that the recognizer takes when it is asked to take one after
another, or `g` if it takes none. -/
def lastAdopted (r : Recognizer) (g : Grammar) : List Grammar → Grammar
  | [] => g
  | h :: gs => (r.adopt h).1.lastAdopted (if (r.adopt h).2 = none then h else g) gs

theorem adopt_of_ok {next : Recognizer} (hn : ofGrammar h = .ok next) (r : Recognizer) :
    r.adopt h = (next,none) := by rw [adopt, hn]

theorem adopt_of_error (he : ofGrammar h = .error e) (r : Recognizer) :
    r.adopt h = (r,some e) := by rw [adopt, he]

theorem adopt_eq_some_iff : (r.adopt h).2 = some e ↔ ofGrammar h = .error e := by
  unfold adopt
  cases ofGrammar h <;> simp

theorem adoptAll_cons (r : Recognizer) (h : Grammar) (gs : List Grammar) :
    r.adoptAll (h :: gs) = (r.adopt h).1.adoptAll gs := rfl

theorem adoptAll_append (r : Recognizer) (before after : List Grammar) :
    r.adoptAll (before ++ after) = (r.adoptAll before).adoptAll after := List.foldl_append

/-- One adoption: whether it fails or not, the recognizer belongs to the grammar adopted last. -/
theorem Serves.adopt (hr : r.Serves g) (hh : h.WellFormed) :
    (r.adopt h).1.Serves (if (r.adopt h).2 = none then h else g) := by
  cases hn : ofGrammar h with
  | ok next =>
    rw [adopt_of_ok hn, if_pos rfl]
    exact serves_ofGrammar hh hn
  | error e =>
    rw [adopt_of_error hn, if_neg (Option.some_ne_none e)]
    exact hr

theorem Serves.adoptAll {gs : List Grammar} (hr : r.Serves g) (hgs : ∀ h ∈ gs, h.WellFormed) :
    (r.adoptAll gs).Serves (r.lastAdopted g gs) := by
  induction gs generalizing g r with
  | nil => exact hr
  | cons h gs ih =>
    have hfirst := hr.adopt (hgs h List.mem_cons_self)
    rw [adoptAll_cons, lastAdopted]
    exact ih hfirst fun k hk => hgs k (List.mem_cons_of_mem _ hk)

/-- What comes after a failing adoption is as if it had not been tried. -/
theorem adoptAll_skip (he : ofGrammar h = .error e) (r : Recognizer) (before after : List Grammar) :
    r.adoptAll (before ++ h :: after) = r.adoptAll (before ++ after) := by
  rw [adoptAll_append, adoptAll_append, adoptAll_cons, adopt_of_error he]

/-- After every run of adoptions the recognizer has the words of the last grammar that it took, and
so has the normal form that it shows. Those that it did not take leave no trace. -/
theorem adoptAll_decides {gs : List Grammar} (hg : g.Built) (hr : Begins g r)
    (hgs : ∀ h ∈ gs, h.Built) :
    (∀ w, (r.adoptAll gs).accepts w = true ↔ (r.lastAdopted g gs).Accepts w) ∧
    (((r.adoptAll gs).grammar.isNormal = true ∧
        ∀ q ∈ (r.adoptAll gs).grammar.rules, q.Fits (r.adoptAll gs).grammar) ∧
      ∀ w, (r.adoptAll gs).grammar.Accepts w ↔ (r.lastAdopted g gs).Accepts w) ∧
    ∀ before h after e, gs = before ++ h :: after →
      (((r.adoptAll before).adopt h).2 = some e ↔ ofGrammar h = .error e) ∧
      (((r.adoptAll before).adopt h).2 = some e →
        r.adoptAll gs = r.adoptAll (before ++ after)) := by
  have hs := (hr.serves hg.wellFormed).adoptAll fun h hh => (hgs h hh).wellFormed
  refine ⟨hs.accepts,⟨⟨isNormal_iff.mpr hs.fits,hs.fits⟩,hs.language⟩,?_⟩
  intro before h after e hsplit
  refine ⟨adopt_eq_some_iff,fun he => ?_⟩
  rw [hsplit]
  exact adoptAll_skip (adopt_eq_some_iff.mp he) r before after

/-- The one word of one letter. -/
def letter : Grammar where
  alphabet := ⟨['S'],['a']⟩
  nonterminals := ['S']
  terminals := ['a']
  rules := [⟨'S',[.terminal 'a']⟩]

theorem letter_built : letter.Built := by
  have hchosen : letter.alphabet.Chosen := ⟨some (['S'],['a']),by decide⟩
  have hd : (empty letter.alphabet).declareAll [.nonterminal 'S',.terminal 'a',.rule 'S' ['a']] =
      .ok letter := by decide
  exact (Built.empty hchosen).declareAll hd

/-- Of three grammars the second one is taken. The first one needs a further non-terminal, and the
third one does not declare its start symbol. -/
theorem adoptAll_decides_letter :
    ((ofNormal normalBrackets).adopt normalBrackets).2 = some .outOfNonterminals ∧
    ∀ w, ((ofNormal normalBrackets).adoptAll [normalBrackets,letter,.empty .standard]).accepts w =
      true ↔ letter.Accepts w := by
  have hbegin : Begins brackets (ofNormal normalBrackets) :=
    .fitted (ofGrammar_eq_ok.mpr ⟨_,brackets_normalForm,rfl⟩)
  have hfull : normalBrackets.normalForm = .error .outOfNonterminals := by decide +kernel
  have hfirst : ofGrammar normalBrackets = .error .outOfNonterminals := by
    rw [ofGrammar, hfull]
    rfl
  have hlast : (ofNormal normalBrackets).lastAdopted brackets
      [normalBrackets,letter,.empty .standard] = letter := by decide +kernel
  have hbuilt : ∀ h ∈ [normalBrackets,letter,.empty .standard], h.Built := by
    have hempty : (Grammar.empty .standard).Built := .empty ⟨none,rfl⟩
    simp [normalBrackets_built, letter_built, hempty]
  obtain ⟨haccepts,_,hfails⟩ := adoptAll_decides brackets_built hbegin hbuilt
  rw [hlast] at haccepts
  exact ⟨(hfails [] _ _ _ rfl).1.mpr hfirst,haccepts⟩

end WordProblem.Recognizer
