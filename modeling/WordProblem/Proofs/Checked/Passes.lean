import WordProblem.Proofs.Checked.Splitting
import WordProblem.Proofs.Normal.Chomsky

/-! # Passes with checked steps

The passes with a check at each step that may be undefined, in the order in which they come to it.
The normal form is not returned without a look at its rules. On well-formed grammars every such step
is defined: what the checks leave is what the passes do.
-/
namespace WordProblem

namespace Checked

/-! ## Isolation -/

/-- The symbol that stands for a symbol of a longer right side. -/
def proxy (proxies : Proxies) : Symbol → Option Symbol
  | .terminal c => (proxies.lookup c).map .nonterminal
  | .nonterminal c => some (.nonterminal c)

def isolate (proxies : Proxies) (r : Rule) : Option Rule :=
  if r.rhs.length < 2 then some r
  else (r.rhs.mapM (proxy proxies)).map fun rhs => { r with rhs := rhs }

def isolateTerminals (g : Grammar) : Checked Grammar := do
  let mixed := g.mixedTerminals
  let (fresh, h) ← ofExcept (g.allocate mixed.length)
  let proxies := mixed.zip fresh
  let rules ← ofOption (g.rules.mapM (isolate proxies))
  return { h with
    rules := Ascending.ofList (rules ++ proxies.map fun p => ⟨p.2, [.terminal p.1]⟩) }

variable {g h : Grammar} {r : Rule}

/-- Each terminal of a longer right side has a proxy. -/
theorem isolate_eq (hcap : g.mixedTerminals.length ≤ g.unused.length) (hr : r ∈ g.rules) :
    isolate g.proxies r = some (r.isolate g.proxies) := by
  unfold isolate Rule.isolate
  split
  · rfl
  · next hlen =>
    have hsymbols : r.rhs.mapM (proxy g.proxies) = some (r.rhs.map (·.isolate g.proxies)) := by
      refine mapM_eq_some fun s hs => ?_
      cases s with
      | nonterminal c => rfl
      | terminal c =>
        obtain ⟨a,ha⟩ := Grammar.exists_proxy hcap
          (Grammar.mem_mixedTerminals.mpr ⟨r,hr,Nat.not_lt.mp hlen,hs⟩)
        simp only [proxy, Symbol.isolate, Grammar.lookup_proxies hcap ha, Option.map_some]
    rw [hsymbols]
    rfl

theorem isolateTerminals_eq (g : Grammar) :
    isolateTerminals g = ofExcept g.isolateTerminals := by
  rw [isolateTerminals, Grammar.isolateTerminals_eq, Grammar.allocate_eq]
  split
  · rfl
  · next hcap =>
    have hrules : g.rules.mapM (isolate g.proxies) = some (g.rules.map (·.isolate g.proxies)) :=
      mapM_eq_some fun r hr => isolate_eq (Nat.not_lt.mp hcap) hr
    exact ofOption_bind hrules _

/-! ## Empty right sides and unit rules -/

/-- A fresh start symbol for the empty word. -/
def restart (g : Grammar) : Checked Grammar :=
  match g.unused with
  | [] => ofExcept (.error .outOfNonterminals)
  | s :: _ => do
    let h ← ofOption ([⟨s, [.nonterminal g.start]⟩, ⟨s, []⟩].foldlM insertRule
      { g with nonterminals := Ascending.insert s g.nonterminals })
    return { h with start := s }

/-- Rules that leave a nullable half out are added to those that are there. -/
def dropEpsilon (g : Grammar) : Checked Grammar := do
  let h ← ofOption ((g.rules.flatMap fun r => (r.variants g.nullable).tail).foldlM insertRule g)
  let h := { h with rules := h.rules.filter (!·.isEpsilon) }
  if g.nullable.contains g.start then restart h else return h

def unitEdges (g : Grammar) : Option (List Edge) :=
  (g.rules.filter (·.isUnit)).mapM fun r => do return (r.lhs, (← r.rhs[0]?).name)

def dropUnits (g : Grammar) : Checked Grammar := do
  let edges ← ofOption (unitEdges g)
  return { g with rules := Ascending.ofList (g.nonterminals.flatMap (g.inherited edges)) }

theorem variants_tail_lhs {nullable : List Char} {q : Rule}
    (hq : q ∈ (r.variants nullable).tail) : q.lhs = r.lhs := by
  rcases Rule.mem_variants.mp (List.mem_of_mem_tail hq) with rfl | ⟨b,c,_,⟨_,rfl⟩ | ⟨_,rfl⟩⟩
  · rfl
  · rfl
  · rfl

theorem variants_eq_cons (nullable : List Char) (r : Rule) :
    r.variants nullable = r :: (r.variants nullable).tail := by
  unfold Rule.variants
  split <;> rfl

theorem epsilonFree_eq (hg : g.WellFormed) :
    { g with
      rules := (insertAll g.rules (g.rules.flatMap fun r => (r.variants g.nullable).tail)).filter
        (!·.isEpsilon) } = g.epsilonFree := by
  have hrules : (insertAll g.rules (g.rules.flatMap fun r => (r.variants g.nullable).tail)).filter
      (!·.isEpsilon) = g.epsilonFree.rules := by
    refine ((pairwise_insertAll hg.rules_ascending _).filter _).eq_of_mem_iff
      hg.epsilonFree.rules_ascending fun q => ?_
    have hvariants : (∃ r ∈ g.rules, q ∈ r.variants g.nullable) ↔
        (∃ r ∈ g.rules, q ∈ (r.variants g.nullable).tail) ∨ q ∈ g.rules := by
      constructor
      · rintro ⟨r,hr,hq⟩
        rw [variants_eq_cons] at hq
        rcases List.mem_cons.mp hq with rfl | hq
        · exact Or.inr hr
        · exact Or.inl ⟨r,hr,hq⟩
      · rintro (⟨r,hr,hq⟩ | hq)
        · exact ⟨r,hr,List.mem_of_mem_tail hq⟩
        · refine ⟨q,hq,?_⟩
          rw [variants_eq_cons]
          exact List.mem_cons_self
    rw [List.mem_filter, mem_insertAll, List.mem_flatMap, Grammar.mem_epsilonFree_rules, hvariants]
    simp [Rule.isEpsilon, and_comm]
  rw [hrules]
  rfl

theorem restart_of_full (hu : g.unused = []) :
    restart g = ofExcept (.error .outOfNonterminals) := by
  rw [restart, hu]

theorem restart_of_unused {s : Char} {rest : List Char} (hu : g.unused = s :: rest) :
    restart g = ofExcept (.ok (g.restart s)) := by
  have hdeclared : ∀ r ∈ [(⟨s,[.nonterminal g.start]⟩ : Rule),⟨s,[]⟩],
      r.lhs ∈ Ascending.insert s g.nonterminals := by simp
  rw [restart, hu]
  exact ofOption_bind (insertRules_eq hdeclared) _

theorem dropEpsilon_eq (hg : g.WellFormed) : dropEpsilon g = ofExcept g.dropEpsilon := by
  have hlhs : ∀ q ∈ g.rules.flatMap fun r => (r.variants g.nullable).tail,
      q.lhs ∈ g.nonterminals := by
    intro q hq
    obtain ⟨r,hr,hq⟩ := List.mem_flatMap.mp hq
    exact variants_tail_lhs hq ▸ hg.lhs_declared r hr
  have hunused : g.epsilonFree.unused = g.unused := Grammar.unused_congr rfl rfl
  refine (ofOption_bind (insertRules_eq hlhs) _).trans ?_
  dsimp only
  rw [epsilonFree_eq hg]
  split
  · next hs =>
    rw [Grammar.dropEpsilon_of_nullable (List.contains_iff_mem.mp hs)]
    cases hu : g.unused with
    | nil => exact restart_of_full (hunused.trans hu)
    | cons s rest => exact restart_of_unused (hunused.trans hu)
  · next hs =>
    rw [Grammar.dropEpsilon_of_not_nullable (mt List.contains_iff_mem.mpr hs)]
    rfl

theorem unitEdges_eq (g : Grammar) : unitEdges g = some g.unitEdges := by
  have hunit : ∀ r ∈ g.rules.filter (·.isUnit), ∃ b, r.rhs = [.nonterminal b] := fun r hr =>
    Rule.isUnit_iff.mp (List.mem_filter.mp hr).2
  rw [unitEdges, Grammar.unitEdges]
  generalize g.rules.filter (·.isUnit) = rules at hunit
  induction rules with
  | nil => rfl
  | cons r rules ih =>
    obtain ⟨⟨b,hr⟩,hunit⟩ := List.forall_mem_cons.mp hunit
    rw [List.mapM_cons, ih hunit, List.flatMap_cons, Rule.nonterminals, hr]
    rfl

theorem dropUnits_eq (g : Grammar) : dropUnits g = ofExcept (.ok g.dropUnits) :=
  ofOption_bind (unitEdges_eq g) _

/-! ## The normal form -/

/-- The normal form, which is not returned unless it is one. -/
def normalForm (g : Grammar) : Checked Grammar :=
  if g.start ∈ g.nonterminals then do
    let g ← ofExcept g.dropBarren
    let g ← isolateTerminals g.dropUnreachable
    let g ← splitLong g
    let g ← dropEpsilon g
    let g ← dropUnits g
    ofOption (guard g.isNormal)
    return g
  else ofExcept (.error (.undeclaredStart g.start))

def apply (g : Grammar) : Pass → Checked Grammar
  | .dropBarren => ofExcept g.dropBarren
  | .dropUnreachable => ofExcept (.ok g.dropUnreachable)
  | .isolateTerminals => isolateTerminals g
  | .splitLong => splitLong g
  | .dropEpsilon => dropEpsilon g
  | .dropUnits => dropUnits g
  | .normalForm => normalForm g

def trace (g : Grammar) : List Pass → Option (List Grammar × Option NormalFormError)
  | [] => some ([], none)
  | p :: ps => do
    match ← (apply g p).run with
    | .error e => return ([], some e)
    | .ok h =>
      let (later, e) ← trace h ps
      return (h :: later, e)

theorem normalForm_eq (hg : g.WellFormed) : normalForm g = ofExcept g.normalForm := by
  by_cases hs : g.start ∈ g.nonterminals
  · rw [normalForm, Grammar.normalForm, if_pos hs, if_pos hs]
    refine ofExcept_bind fun b hb => ?_
    have hunreachable := (hg.dropBarren hb).dropUnreachable
    rw [isolateTerminals_eq]
    refine ofExcept_bind fun i hi => ?_
    have hisolated := hunreachable.pass (p := .isolateTerminals) hi
    rw [splitLong_eq hisolated]
    refine ofExcept_bind fun l hl => ?_
    have hsplit := hisolated.pass (p := .splitLong) hl
    rw [dropEpsilon_eq hsplit]
    refine ofExcept_bind fun e he => ?_
    have hc : g.normalForm = .ok e.dropUnits := by
      rw [Grammar.normalForm, if_pos hs, hb]
      change b.dropUnreachable.isolateTerminals >>= _ = _
      rw [hi]
      change i.splitLong >>= _ = _
      rw [hl]
      change l.dropEpsilon >>= _ = _
      rw [he]
      rfl
    have hnormal : guard (e.dropUnits.isNormal : Prop) = some () :=
      if_pos (Grammar.isNormal_iff.mpr (Grammar.normalForm_fits hg hc))
    rw [dropUnits_eq]
    exact ofOption_bind hnormal _
  · rw [normalForm, Grammar.normalForm, if_neg hs, if_neg hs]

theorem apply_eq (hg : g.WellFormed) (p : Pass) : apply g p = ofExcept (p.apply g) := by
  cases p with
  | dropBarren => rfl
  | dropUnreachable => rfl
  | isolateTerminals => exact isolateTerminals_eq g
  | splitLong => exact splitLong_eq hg
  | dropEpsilon => exact dropEpsilon_eq hg
  | dropUnits => exact dropUnits_eq g
  | normalForm => exact normalForm_eq hg

theorem trace_eq (hg : g.WellFormed) (ps : List Pass) : trace g ps = some (Pass.trace g ps) := by
  induction ps generalizing g with
  | nil => rfl
  | cons p ps ih =>
    rw [trace, apply_eq hg, Pass.trace]
    cases hp : p.apply g with
    | error e => rfl
    | ok h =>
      change trace h ps >>= _ = _
      rw [ih (hg.pass hp)]
      rfl

end Checked

end WordProblem
