import WordProblem.Proofs.Description.Document
import WordProblem.Proofs.Normal.Stages
import WordProblem.Session

/-! # Grammars outlast their documents

A document names the symbols of a rule and not their classes. The classes come back because the
alphabet has no character twice, and the order of declarations does not matter because declared
symbols and rules are ascending lists. So a grammar comes back from its document as it was, unless
its start symbol is not declared.
-/
namespace WordProblem

namespace Grammar

variable {g h : Grammar}

theorem declareAll_cons {d : Declaration} {ds : List Declaration} (hd : g.declare d = .ok h) :
    g.declareAll (d :: ds) = h.declareAll ds := by
  rw [declareAll, List.foldlM_cons, hd]
  rfl

theorem declareAll_append {ds es : List Declaration} (hd : g.declareAll ds = .ok h) :
    g.declareAll (ds ++ es) = h.declareAll es := by
  rw [declareAll] at hd
  rw [declareAll, List.foldlM_append, hd]
  rfl

section Members
variable {α : Type} [LT α] [DecidableLT α] [DecidableEq α] (update : List α → Grammar)
  {d : α → Declaration} {l : List α}

/-- Declarations that put one member each into a list of the grammar. -/
theorem declareAll_insert
    (hd : ∀ x ∈ l, ∀ m, (update m).declare (d x) = .ok (update (Ascending.insert x m)))
    (m : List α) : (update m).declareAll (l.map d) =
      .ok (update (l.foldl (fun m x => Ascending.insert x m) m)) := by
  induction l generalizing m with
  | nil => rfl
  | cons x l ih =>
    rw [List.map_cons, declareAll_cons (hd x List.mem_cons_self m), List.foldl_cons]
    exact ih (fun y hy => hd y (List.mem_cons_of_mem _ hy)) _

theorem declareAll_ascending [IsStrictTotalOrder α (· < ·)] (hl : l.Pairwise (· < ·))
    (hd : ∀ x ∈ l, ∀ m, (update m).declare (d x) = .ok (update (Ascending.insert x m))) :
    (update []).declareAll (l.map d) = .ok (update l) := by
  rw [declareAll_insert update hd, Ascending.foldl_insert hl]

end Members

/-! ## Rules and their texts -/

/-- Every symbol of the form is the one that its name stands for. -/
def Reads (g : Grammar) (f : Form) : Prop := ∀ s ∈ f, g.symbol s.name = .ok s

theorem Reads.mapM {f : Form} (hf : g.Reads f) : (f.map Symbol.name).mapM g.symbol = .ok f := by
  induction f with
  | nil => rfl
  | cons s f ih =>
    have hs := hf s List.mem_cons_self
    have hrest := ih fun t ht => hf t (List.mem_cons_of_mem _ ht)
    rw [List.map_cons, List.mapM_cons, hs, hrest]
    rfl

/-- The classes of symbols are lost in a text and found again, because no character has both. -/
theorem symbol_name (hdisjoint : ∀ c ∈ g.nonterminals, c ∉ g.terminals) {s : Symbol}
    (hs : g.Declares s) : g.symbol s.name = .ok s := by
  cases s with
  | nonterminal a => exact if_pos hs
  | terminal c =>
    have hn : c ∉ g.nonterminals := fun hc => hdisjoint c hc hs
    rw [symbol, Symbol.name, if_neg hn]
    exact if_pos hs

theorem WellFormed.reads (hg : g.WellFormed) {r : Rule} (hr : r ∈ g.rules) : g.Reads r.rhs := by
  have hdisjoint : ∀ c ∈ g.nonterminals, c ∉ g.terminals := fun c hn ht =>
    hg.alphabet.disjoint c (hg.nonterminals_subset c hn) (hg.terminals_subset c ht)
  exact fun s hs => symbol_name hdisjoint (hg.rhs_declared r hr s hs)

theorem declare_ruleText {r : Rule} (hl : r.lhs ∈ g.nonterminals) (hr : g.Reads r.rhs) :
    g.declare (.ruleText r.text) = .ok { g with rules := Ascending.insert r g.rules } :=
  addRuleText_eq_ok.mpr ⟨r.lhs,r.body,rfl,addRule_eq_ok.mpr ⟨hl,r.rhs,hr.mapM,rfl⟩⟩

/-! ## The whole grammar -/

/-- What a description of a grammar declares before the start symbol. -/
theorem declareAll_symbols_rules (hg : g.WellFormed) :
    (empty g.alphabet).declareAll ((Description.ofGrammar g).symbols ++
      (g.rules.map Rule.text).map .ruleText) = .ok { g with start := 'S' } := by
  have hn := declareAll_ascending (fun m => { empty g.alphabet with nonterminals := m })
    (d := .nonterminal) hg.nonterminals_ascending
    fun c hc _ => declareNonterminal_eq_ok.mpr ⟨hg.nonterminals_subset c hc,rfl⟩
  have ht := declareAll_ascending
    (fun m => { empty g.alphabet with nonterminals := g.nonterminals, terminals := m })
    (d := .terminal) hg.terminals_ascending
    fun c hc _ => declareTerminal_eq_ok.mpr ⟨hg.terminals_subset c hc,rfl⟩
  have hr := declareAll_ascending (fun m => { g with rules := m, start := 'S' })
    (d := fun r => .ruleText r.text) hg.rules_ascending
    fun r hr _ => declare_ruleText (hg.lhs_declared r hr) (hg.reads hr)
  rw [Description.symbols, List.append_assoc, List.map_map]
  exact (declareAll_append hn).trans ((declareAll_append ht).trans hr)

theorem assemble_ofGrammar (hg : g.WellFormed) :
    Description.assemble g.alphabet [Description.ofGrammar g] none =
      if g.start ∈ g.nonterminals then .ok g else .error (.undeclaredNonterminal g.start) := by
  have hdeclarations : Description.declarations [Description.ofGrammar g] none =
      (Description.ofGrammar g).symbols ++ (g.rules.map Rule.text).map .ruleText ++
        [.start g.start] := by
    simp [Description.declarations, Description.chooseStart, Description.ofGrammar]
  rw [Description.assemble, hdeclarations, declareAll_append (declareAll_symbols_rules hg)]
  have hstart : { g with start := 'S' }.declare (.start g.start) =
      if g.start ∈ g.nonterminals then .ok g else .error (.undeclaredNonterminal g.start) := rfl
  rw [declareAll, List.foldlM_cons, hstart]
  split <;> rfl

theorem ofFile_document (g : Grammar) :
    Description.ofFile .json (.ok (Utf8.encode g.document)) = .ok (Description.ofGrammar g) := by
  rw [Description.ofFile, document, Description.Document.read_write]
  rfl

theorem reload_eq (hg : g.WellFormed) : g.reload =
    if g.start ∈ g.nonterminals then .ok g
    else .error (.declaration (.undeclaredNonterminal g.start)) := by
  rw [reload, ofFile_document]
  change (Description.assemble g.alphabet [Description.ofGrammar g] none).mapError
    Failure.declaration = _
  rw [assemble_ofGrammar hg]
  split <;> rfl

/-- A grammar comes back from its document with its symbols, their classes, its rules and its start
symbol. Only a start symbol that is not declared is refused. -/
theorem reload_document (hg : g.Built) :
    (g.start ∈ g.nonterminals → g.reload = .ok g) ∧
    (g.start ∉ g.nonterminals →
      g.reload = .error (.declaration (.undeclaredNonterminal g.start))) := by
  rw [reload_eq hg.wellFormed]
  exact ⟨fun hs => if_pos hs,fun hs => if_neg hs⟩

/-- Symbols that have a meaning in documents, in comments and in the texts of rules. -/
def signs : Grammar where
  alphabet := ⟨['"','/','*','>'],['\\','-','\n','\x01','😀']⟩
  nonterminals := ['"','*','/']
  terminals := ['\x01','\n','-','\\','😀']
  rules := [⟨'"',[]⟩,⟨'*',[.terminal '\\',.nonterminal '"',.terminal '\n']⟩,
    ⟨'/',[.terminal '\x01',.terminal '😀']⟩,⟨'/',[.nonterminal '*',.nonterminal '/']⟩,
    ⟨'/',[.nonterminal '/',.terminal '-']⟩]
  start := '/'

theorem signs_built : signs.Built := by
  have hchosen : signs.alphabet.Chosen :=
    ⟨some (['"','/','*','>'],['\\','-','\n','\x01','😀']),by decide⟩
  have hd : (empty signs.alphabet).declareAll [.nonterminal '/',.nonterminal '*',.nonterminal '"',
      .terminal '\\',.terminal '-',.terminal '\n',.terminal '\x01',.terminal '😀',
      .ruleText ['/','-','>','*','/'],.rule '"' [],.rule '*' ['\\','"','\n'],
      .ruleText ['/','-','>','/','-'],.rule '/' ['\x01','😀'],.start '/'] = .ok signs := by decide
  exact (Built.empty hchosen).declareAll hd

theorem reload_document_signs : signs.start ∈ signs.nonterminals ∧ signs.reload = .ok signs := by
  have hs : signs.start ∈ signs.nonterminals := by decide
  exact ⟨hs,(reload_document signs_built).1 hs⟩

end Grammar

end WordProblem
