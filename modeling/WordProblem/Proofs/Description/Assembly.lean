import WordProblem.Proofs.Session

/-! # What an assembled grammar holds

Each declaration adds one symbol, one rule or one start symbol, and takes nothing away. So a grammar
that is put together from descriptions holds their symbols and rules and nothing else, whatever
their order. The texts of its rules are those of the descriptions, and since a character is declared
in one class only, a text stands for one rule.
-/
namespace WordProblem

namespace Declaration

/-- The text of the rule that a declaration adds. -/
def text? : Declaration → Option (List Char)
  | rule lhs rhs => some (lhs :: '-' :: '>' :: rhs)
  | ruleText text => some text
  | _ => none

def start? : Declaration → Option Char
  | start c => some c
  | _ => none

end Declaration

namespace Grammar

variable {g m h : Grammar} {d : Declaration} {ds : List Declaration}

theorem name_of_symbol {c : Char} {s : Symbol} (hs : g.symbol c = .ok s) : s.name = c := by
  unfold symbol at hs
  split at hs
  · cases hs
    rfl
  · split at hs
    · cases hs
      rfl
    · cases hs

theorem names_of_mapM_symbol {cs : List Char} {f : Form} (hf : cs.mapM g.symbol = .ok f) :
    f.map Symbol.name = cs := by
  have hall := forall₂_of_mapM hf
  clear hf
  induction hall with
  | nil => rfl
  | cons hs _ ih => rw [List.map_cons, name_of_symbol hs, ih]

/-- What `h` holds is what `g` holds and what the declarations say. -/
structure Gains (g h : Grammar) (ds : List Declaration) : Prop where
  nonterminals : ∀ c, c ∈ h.nonterminals ↔ c ∈ g.nonterminals ∨ .nonterminal c ∈ ds
  terminals : ∀ c, c ∈ h.terminals ↔ c ∈ g.terminals ∨ .terminal c ∈ ds
  texts : ∀ t, t ∈ h.rules.map Rule.text ↔
    t ∈ g.rules.map Rule.text ∨ t ∈ ds.filterMap Declaration.text?
  start : h.start = (ds.filterMap Declaration.start?).getLastD g.start

theorem gains_addRule {lhs : Char} {rhs : List Char} (hr : g.addRule lhs rhs = .ok h) :
    g.Gains h [.ruleText (lhs :: '-' :: '>' :: rhs)] := by
  obtain ⟨_,f,hf,rfl⟩ := addRule_eq_ok.mp hr
  have htext : Rule.text ⟨lhs,f⟩ = lhs :: '-' :: '>' :: rhs := by
    rw [Rule.text, Rule.body, names_of_mapM_symbol hf]
  refine ⟨by simp,by simp,fun t => ?_,by simp [Declaration.start?]⟩
  simp only [List.mem_map, Ascending.mem_insert, List.filterMap_cons, Declaration.text?,
    List.filterMap_nil, List.mem_singleton]
  constructor
  · rintro ⟨r,rfl | hr,rfl⟩
    · exact Or.inr htext
    · exact Or.inl ⟨r,hr,rfl⟩
  · rintro (⟨r,hr,rfl⟩ | rfl)
    · exact ⟨r,Or.inr hr,rfl⟩
    · exact ⟨_,Or.inl rfl,htext⟩

theorem gains_declare (hd : g.declare d = .ok h) : g.Gains h [d] := by
  cases d with
  | nonterminal c =>
    obtain ⟨_,rfl⟩ := declareNonterminal_eq_ok.mp hd
    constructor <;> simp [Declaration.text?, Declaration.start?, or_comm]
  | terminal c =>
    obtain ⟨_,rfl⟩ := declareTerminal_eq_ok.mp hd
    constructor <;> simp [Declaration.text?, Declaration.start?, or_comm]
  | rule lhs rhs =>
    have hr := gains_addRule hd
    exact ⟨by simpa using hr.nonterminals,by simpa using hr.terminals,hr.texts,hr.start⟩
  | ruleText text =>
    obtain ⟨lhs,rhs,rfl,hr⟩ := addRuleText_eq_ok.mp hd
    exact gains_addRule hr
  | start c =>
    obtain ⟨_,rfl⟩ := setStart_eq_ok.mp hd
    constructor <;> simp [Declaration.text?, Declaration.start?]

theorem Gains.cons (hm : g.Gains m [d]) (hh : m.Gains h ds) : g.Gains h (d :: ds) where
  nonterminals c := by
    rw [hh.nonterminals, hm.nonterminals, List.mem_singleton, List.mem_cons, or_assoc]
  terminals c := by
    rw [hh.terminals, hm.terminals, List.mem_singleton, List.mem_cons, or_assoc]
  texts t := by
    have hfirst : (d :: ds).filterMap Declaration.text? =
        [d].filterMap Declaration.text? ++ ds.filterMap Declaration.text? :=
      List.filterMap_append (l := [d])
    rw [hh.texts, hm.texts, hfirst, List.mem_append, or_assoc]
  start := by
    rw [hh.start, hm.start]
    cases hs : d.start? <;> simp only [List.filterMap_cons, hs, List.filterMap_nil,
      List.getLastD_cons, List.getLastD_nil]

theorem gains_declareAll (hd : g.declareAll ds = .ok h) : g.Gains h ds := by
  induction ds generalizing g with
  | nil =>
    cases hd
    constructor <;> simp
  | cons d ds ih =>
    obtain ⟨m,hone,hrest⟩ := declareAll_cons_eq_ok.mp hd
    exact (gains_declare hone).cons (ih hrest)

end Grammar

namespace Description

variable {parts : List Description} {override s : Option Char}

/-- The start symbol that is chosen, if there is one: that of `override`, or else that of the first
part that has one. -/
inductive Chooses : List Description → Option Char → Option Char → Prop
  | override (parts : List Description) (c : Char) : Chooses parts (some c) (some c)
  | part (before after : List Description) {d : Description} {c : Char}
    (hb : ∀ b ∈ before, b.start = none) (hd : d.start = some c) :
    Chooses (before ++ d :: after) none (some c)
  | none {parts : List Description} (h : ∀ d ∈ parts, d.start = none) : Chooses parts none none

theorem chooseStart_eq_iff : chooseStart parts override = s ↔ Chooses parts override s := by
  cases override with
  | some c =>
    constructor
    · rintro rfl
      exact .override parts c
    · rintro ⟨⟩
      rfl
  | none =>
    rw [chooseStart, Option.none_or]
    cases s with
    | some c =>
      rw [List.findSome?_eq_some_iff]
      constructor
      · rintro ⟨before,d,after,rfl,hd,hb⟩
        exact .part before after hb hd
      · rintro (_ | ⟨before,after,hb,hd⟩)
        exact ⟨before,_,after,rfl,hd,hb⟩
    | none =>
      rw [List.findSome?_eq_none_iff]
      constructor
      · exact .none
      · rintro ⟨⟩
        assumption

theorem chooses_chooseStart (parts : List Description) (override : Option Char) :
    Chooses parts override (chooseStart parts override) := chooseStart_eq_iff.mp rfl

theorem Chooses.unique {t : Option Char} (hs : Chooses parts override s)
    (ht : Chooses parts override t) : s = t :=
  (chooseStart_eq_iff.mpr hs).symm.trans (chooseStart_eq_iff.mpr ht)

/-- The grammar holds what the parts say and begins with the start symbol that they choose, which
is `S` if they choose none. -/
structure Describes (parts : List Description) (override : Option Char) (g : Grammar) : Prop where
  wellFormed : g.WellFormed
  nonterminals : ∀ c, c ∈ g.nonterminals ↔ ∃ d ∈ parts, c ∈ d.nonterminals
  terminals : ∀ c, c ∈ g.terminals ↔ ∃ d ∈ parts, c ∈ d.terminals
  rules : ∀ t, t ∈ g.rules.map Rule.text ↔ ∃ d ∈ parts, t ∈ d.rules
  start : ∃ s, Chooses parts override s ∧ g.start = s.getD 'S'

theorem texts_declarations (parts : List Description) (override : Option Char) :
    (declarations parts override).filterMap Declaration.text? = parts.flatMap (·.rules) := by
  simp [declarations, symbols, List.filterMap_flatMap, Function.comp_def, Declaration.text?]

theorem starts_declarations (parts : List Description) (override : Option Char) :
    (declarations parts override).filterMap Declaration.start? =
      (chooseStart parts override).toList := by
  have hnone : parts.flatMap (fun _ => ([] : List Char)) = [] := by simp [List.flatMap_eq_nil_iff]
  simp [hnone, declarations, symbols, List.filterMap_flatMap, Function.comp_def, Declaration.start?]

theorem assemble_describes {a : Alphabet} (ha : a.Chosen) {g : Grammar}
    (hg : assemble a parts override = .ok g) : Describes parts override g := by
  have hgains := Grammar.gains_declareAll hg
  refine ⟨(Grammar.Built.assemble ha hg).wellFormed,fun c => ?_,fun c => ?_,fun t => ?_,?_⟩
  · rw [hgains.nonterminals]
    simp [Grammar.empty, declarations, symbols]
  · rw [hgains.terminals]
    simp [Grammar.empty, declarations, symbols]
  · rw [hgains.texts, texts_declarations]
    simp [Grammar.empty]
  · refine ⟨_,chooses_chooseStart parts override,?_⟩
    rw [hgains.start, starts_declarations]
    cases chooseStart parts override <;> rfl

end Description

end WordProblem
