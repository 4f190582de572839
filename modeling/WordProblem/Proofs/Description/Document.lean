import WordProblem.Description.Document.Reader
import WordProblem.Description.Document.Writer
import WordProblem.Proofs.Json.Token

/-! # Reading a document that was written

A written document spells the fields of its description in their order. The machine that reads
documents takes up one field after another, and a field that is left out when it is empty is empty
when it is missing. So every description is read as it was written.
-/
namespace WordProblem.Description.Document
open Json (Bracket Spells Token)

/-! ## What a document spells -/

theorem spells_indent (depth : Nat) : Spells (indent depth) [] := Spells.blanks _

theorem spells_block {first last : Char} {b : Bracket} (hfirst : Spells [first] [.opening b])
    (hlast : Spells [last] [.closing b]) (depth : Nat) {items : List (List Char)}
    {tss : List (List Token)} (h : List.Forall₂ Spells items tss) :
    Spells (block first last depth items)
      (.opening b :: List.intercalate [.comma] tss ++ [.closing b]) := by
  have hlines : List.Forall₂ Spells
      (items.map fun i => '\n' :: indent (depth + 1) ++ i) tss := by
    refine List.forall₂_map_left_iff.mpr (h.imp fun i ts hi => ?_)
    exact (Spells.line.append (spells_indent _)).append hi
  have hend : Spells ('\n' :: indent depth ++ [last]) [.closing b] :=
    (Spells.line.append (spells_indent _)).append hlast
  unfold block
  split
  · next hempty =>
    cases h with
    | nil => exact hfirst.append hlast
    | cons => simp at hempty
  · have hall := (hfirst.append (Spells.intercalate hlines)).append hend
    simpa using hall

/-- The tokens of a list of texts. -/
def textsTokens (cs : List (List Char)) : List Token :=
  .opening .square :: List.intercalate [.comma] (cs.map fun c => [.string (some c)]) ++
    [.closing .square]

theorem spells_texts (cs : List (List Char)) : Spells (texts cs) (textsTokens cs) := by
  refine spells_block (.char rfl rfl) (.char rfl rfl) 1 ?_
  rw [List.forall₂_map_left_iff, List.forall₂_map_right_iff, List.forall₂_same]
  exact fun c _ => Spells.quote c

/-- The tokens of a named field whose value has the tokens `ts`. -/
def fieldTokens (f : Field) (ts : List Token) : List Token :=
  .string (some f.name.toList) :: .colon :: ts

theorem spells_field {f : Field} {text : List Char} {ts : List Token} (h : Spells text ts) :
    Spells (field f.name text) (fieldTokens f ts) :=
  ((Spells.quote _).append (Spells.colon.append Spells.blank)).append h

/-- The fields that a document holds, with the tokens of their values. -/
def entries (d : Description) : List (Field × List Token) :=
  [(.nonterminals,[.string (some d.nonterminals)]),(.terminals,[.string (some d.terminals)])] ++
    d.start.toList.map (fun c => (.start,[.string (some [c])])) ++
    [(.rules,textsTokens d.rules)] ++
    (if d.words.isEmpty then [] else [(.words,textsTokens d.words)])

def documentTokens (d : Description) : List Token :=
  .opening .curly :: List.intercalate [.comma] ((entries d).map fun e => fieldTokens e.1 e.2) ++
    [.closing .curly]

theorem spells_write (d : Description) : Spells (write d) (documentTokens d) := by
  have hn := spells_field (f := .nonterminals) (Spells.quote d.nonterminals)
  have ht := spells_field (f := .terminals) (Spells.quote d.terminals)
  have hr := spells_field (f := .rules) (spells_texts d.rules)
  have hw := spells_field (f := .words) (spells_texts d.words)
  have hs : ∀ c, Spells (field Field.start.name (Json.quote [c]))
      (fieldTokens .start [.string (some [c])]) := fun c => spells_field (Spells.quote [c])
  rw [write, documentTokens, ← List.append_nil (_ ++ [Token.closing .curly])]
  refine (spells_block (.char rfl rfl) (.char rfl rfl) 0 ?_).append Spells.line
  unfold entries
  cases d.start with
  | none =>
    split
    · exact .cons hn (.cons ht (.cons hr .nil))
    · exact .cons hn (.cons ht (.cons hr (.cons hw .nil)))
  | some c =>
    split
    · exact .cons hn (.cons ht (.cons (hs c) (.cons hr .nil)))
    · exact .cons hn (.cons ht (.cons (hs c) (.cons hr (.cons hw .nil))))

/-! ## What the machine makes of it -/

/-- The machine gets from `s` to `t` by the tokens `ts`. -/
def Takes (s : State) (ts : List Token) (t : State) : Prop := ts.foldlM State.step s = .ok t

theorem Takes.nil (s : State) : Takes s [] s := rfl

theorem Takes.cons {s t u : State} {x : Token} {ts : List Token} (h : s.step x = .ok t)
    (k : Takes t ts u) : Takes s (x :: ts) u := by
  rw [Takes, List.foldlM_cons, h]
  exact k

theorem Takes.append {s t u : State} {ts us : List Token} (h : Takes s ts t) (k : Takes t us u) :
    Takes s (ts ++ us) u := by
  rw [Takes, List.foldlM_append, h]
  exact k

theorem ofName_name (f : Field) : Field.ofName? f.name.toList = some f := by
  cases f <;> decide +kernel

/-- The value of a field with the tokens `ts` turns the draft `d` into `e`. -/
def Fills (d : Draft) (f : Field) (ts : List Token) (e : Draft) : Prop :=
  Takes ⟨.curly,d,.value f,false⟩ ts ⟨.curly,e,.valueEnd (some f),false⟩

theorem fills_nonterminals (d : Draft) (cs : List Char) :
    Fills d .nonterminals [.string (some cs)] { d with nonterminals := some cs } :=
  .cons rfl (.nil _)

theorem fills_terminals (d : Draft) (cs : List Char) :
    Fills d .terminals [.string (some cs)] { d with terminals := some cs } :=
  .cons rfl (.nil _)

theorem fills_start (d : Draft) (c : Char) :
    Fills d .start [.string (some [c])] { d with start := some (some c) } :=
  .cons rfl (.nil _)

/-- A draft with the given texts in the list of a field. -/
def withTexts (d : Draft) (f : Field) (cs : List (List Char)) : Draft :=
  match f with
  | .rules => { d with rules := some cs }
  | .words => { d with words := some cs }
  | _ => d

theorem append_withTexts (d : Draft) (f : Field) (cs : List (List Char)) (c : List Char) :
    (withTexts d f cs).append c f = withTexts d f (cs ++ [c]) := by
  cases f <;> rfl

theorem openList_eq_withTexts (d : Draft) (f : Field) : d.openList f = withTexts d f [] := by
  cases f <;> rfl

theorem step_item (d : Draft) (f : Field) (before : List (List Char)) (c : List Char)
    (fresh : Bool) :
    State.step ⟨.curly,withTexts d f before,.item f,fresh⟩ (.string (some c)) =
      .ok ⟨.curly,withTexts d f (before ++ [c]),.itemEnd f,false⟩ := by
  rw [← append_withTexts]
  rfl

/-- The texts of a list up to its closing bracket. -/
theorem takes_items (d : Draft) (f : Field) (before : List (List Char)) (c : List Char)
    (cs : List (List Char)) (fresh : Bool) :
    Takes ⟨.curly,withTexts d f before,.item f,fresh⟩
      (List.intercalate [.comma] ((c :: cs).map fun c => [Token.string (some c)]) ++
        [.closing .square])
      ⟨.curly,withTexts d f (before ++ c :: cs),.valueEnd (some f),false⟩ := by
  induction cs generalizing before c fresh with
  | nil => exact .cons (step_item d f before c fresh) (.cons rfl (.nil _))
  | cons b cs ih =>
    have hrest := ih (before ++ [c]) b false
    rw [List.append_assoc, List.singleton_append] at hrest
    rw [List.map_cons, List.map_cons, List.intercalate_cons_cons]
    exact .cons (step_item d f before c fresh) (.cons rfl hrest)

theorem takes_texts (d : Draft) (f : Field) (cs : List (List Char)) :
    Takes ⟨.curly,d.openList f,.item f,true⟩ (textsTokens cs).tail
      ⟨.curly,withTexts d f cs,.valueEnd (some f),false⟩ := by
  rw [openList_eq_withTexts]
  cases cs with
  | nil => exact .cons rfl (.nil _)
  | cons c cs => exact takes_items d f [] c cs true

theorem fills_rules (d : Draft) (cs : List (List Char)) :
    Fills d .rules (textsTokens cs) { d with rules := some cs } :=
  .cons rfl (takes_texts d .rules cs)

theorem fills_words (d : Draft) (cs : List (List Char)) :
    Fills d .words (textsTokens cs) { d with words := some cs } :=
  .cons rfl (takes_texts d .words cs)

/-- Fields that fill a draft one after another, each for the first time. -/
inductive Fillings : Draft → List (Field × List Token) → Draft → Prop
  | nil (d : Draft) : Fillings d [] d
  | cons {d e k : Draft} {f : Field} {ts : List Token} {rest : List (Field × List Token)}
    (hnew : d.has f = false) (h : Fills d f ts e) (hrest : Fillings e rest k) :
    Fillings d ((f,ts) :: rest) k

theorem takes_field {d e : Draft} {f : Field} {ts : List Token} (hnew : d.has f = false)
    (h : Fills d f ts e) (fresh : Bool) :
    Takes ⟨.curly,d,.name,fresh⟩ (fieldTokens f ts) ⟨.curly,e,.valueEnd (some f),false⟩ := by
  have hname : State.step ⟨.curly,d,.name,fresh⟩ (.string (some f.name.toList)) =
      .ok ⟨.curly,d,.colon (some f),false⟩ := by
    simp [State.step, State.name, ofName_name, hnew, State.goto]
  exact .cons hname (.cons rfl h)

/-- The fields of an object up to its closing bracket. -/
theorem Fillings.takes {d k : Draft} {f : Field} {ts : List Token}
    {rest : List (Field × List Token)} (h : Fillings d ((f,ts) :: rest) k)
    (hmissing : k.missing? = none) (fresh : Bool) :
    Takes ⟨.curly,d,.name,fresh⟩
      (List.intercalate [.comma] (((f,ts) :: rest).map fun e => fieldTokens e.1 e.2) ++
        [.closing .curly])
      ⟨.curly,k,.finish,false⟩ := by
  induction rest generalizing d f ts fresh with
  | nil =>
    obtain ⟨hnew,hfill⟩ : d.has f = false ∧ Fills d f ts k := by
      cases h with
      | cons hnew hfill hrest =>
        cases hrest
        exact ⟨hnew,hfill⟩
    have hclose : State.step ⟨.curly,k,.valueEnd (some f),false⟩ (.closing .curly) =
        .ok ⟨.curly,k,.finish,false⟩ := by
      simp [State.step, State.valueEnd, State.close, hmissing, State.goto]
    rw [List.map_singleton, List.intercalate_singleton]
    exact (takes_field hnew hfill fresh).append (.cons hclose (.nil _))
  | cons next rest ih =>
    cases h with
    | cons hnew hfill hrest =>
      have hmore := ih hrest false
      rw [List.map_cons, List.map_cons, List.intercalate_cons_cons, List.append_assoc,
        List.append_assoc]
      exact (takes_field hnew hfill fresh).append (.cons rfl hmore)

/-- The draft of a description once all of its fields have been read. -/
def draft (d : Description) : Draft where
  nonterminals := some d.nonterminals
  terminals := some d.terminals
  start := d.start.map some
  rules := some d.rules
  words := if d.words.isEmpty then none else some d.words

theorem description_draft (d : Description) : (draft d).description = d := by
  obtain ⟨nonterminals,terminals,start,rules,words⟩ := d
  cases start <;> cases words <;> rfl

theorem fillings_entries (d : Description) : Fillings {} (entries d) (draft d) := by
  unfold entries draft
  cases d.start with
  | none =>
    split
    · exact .cons rfl (fills_nonterminals _ _) (.cons rfl (fills_terminals _ _)
        (.cons rfl (fills_rules _ _) (.nil _)))
    · exact .cons rfl (fills_nonterminals _ _) (.cons rfl (fills_terminals _ _)
        (.cons rfl (fills_rules _ _) (.cons rfl (fills_words _ _) (.nil _))))
  | some c =>
    split
    · exact .cons rfl (fills_nonterminals _ _) (.cons rfl (fills_terminals _ _)
        (.cons rfl (fills_start _ _) (.cons rfl (fills_rules _ _) (.nil _))))
    · exact .cons rfl (fills_nonterminals _ _) (.cons rfl (fills_terminals _ _)
        (.cons rfl (fills_start _ _) (.cons rfl (fills_rules _ _)
          (.cons rfl (fills_words _ _) (.nil _)))))

theorem ofTokens_documentTokens (d : Description) : ofTokens (documentTokens d) = .ok d := by
  have hfields := (fillings_entries d).takes rfl true
  have hall : Takes {} (documentTokens d) ⟨.curly,draft d,.finish,false⟩ := .cons rfl hfields
  rw [ofTokens, hall]
  exact congrArg Except.ok (description_draft d)

/-- Every description is read as it was written. -/
theorem read_write (d : Description) : read (Utf8.encode (write d)) = .ok d := by
  rw [read, (spells_write d).tokens_encode, ofTokens_documentTokens]

end WordProblem.Description.Document
