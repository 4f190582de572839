import WordProblem.Proofs.Checked.Passes
import WordProblem.Proofs.Recognizer.Adoption
import WordProblem.Text.Count

/-! # Recognizers with checked steps

The numbers of non-terminals are looked up, and a cell of a chart may be read or set only if its
span is not empty, ends within the word and has a place in the array, whose size must be a number of
64 bits. In recognizers of grammars that declarations and passes lead to, every such step is defined.
-/
namespace WordProblem

namespace Checked

variable {g : Grammar} {r : Rule}

/-! ## Numbers -/

def number (g : Grammar) (a : Char) : Option Nat := g.nonterminals.idxOf? a

/-- Takes a rule up. Its left side is looked up first, whatever its right side is. -/
def numberRule (g : Grammar) (m : Numbered) (r : Rule) : Option Numbered := do
  let a ← number g r.lhs
  match r.rhs with
  | [.terminal c] => return { m with letterRules := m.letterRules ++ [(c, a)] }
  | [.nonterminal b, .nonterminal c] =>
    return { m with pairRules := m.pairRules ++ [⟨a, ← number g b, ← number g c⟩] }
  | _ => return m

def numbered (g : Grammar) : Option Numbered := do
  let m ← g.rules.foldlM (numberRule g) ⟨g.nonterminals.length, [], [], 0, g.hasRule ⟨g.start, []⟩⟩
  return { m with start := ← number g g.start }

theorem number_eq {a : Char} (ha : a ∈ g.nonterminals) : number g a = some (g.number a) := by
  refine List.idxOf?_eq_some_iff.mpr ⟨List.idxOf_lt_length_of_mem ha,List.getElem_idxOf _,?_⟩
  intro j hj
  simpa using List.not_of_lt_findIdx hj

/-- The numbered rules with one more rule, if it is one with a letter or with two non-terminals. -/
def withRule (g : Grammar) (m : Numbered) (r : Rule) : Numbered :=
  { m with
    letterRules := m.letterRules ++ (g.letterRule? r).toList
    pairRules := m.pairRules ++ (g.pairRule? r).toList }

theorem numberRule_eq (hg : g.WellFormed) (hr : r ∈ g.rules) (m : Numbered) :
    numberRule g m r = some (withRule g m r) := by
  obtain ⟨a,rhs⟩ := r
  have ha := number_eq (hg.lhs_declared _ hr)
  rw [numberRule, ha, withRule]
  match rhs, hr with
  | [], _ => simp [Grammar.letterRule?, Grammar.pairRule?]
  | [.terminal c], _ => simp [Grammar.letterRule?, Grammar.pairRule?]
  | [.nonterminal b], _ => simp [Grammar.letterRule?, Grammar.pairRule?]
  | [.terminal c,s], _ => simp [Grammar.letterRule?, Grammar.pairRule?]
  | [.nonterminal b,.terminal c], _ => simp [Grammar.letterRule?, Grammar.pairRule?]
  | [.nonterminal b,.nonterminal c], hr =>
    obtain ⟨_,hb,hc⟩ := hg.pair_declared hr
    simp [Grammar.letterRule?, Grammar.pairRule?, number_eq hb, number_eq hc]
  | s :: t :: u :: rest, _ => simp [Grammar.letterRule?, Grammar.pairRule?]

theorem foldl_withRule (g : Grammar) (rules : List Rule) (m : Numbered) :
    rules.foldl (withRule g) m = { m with
      letterRules := m.letterRules ++ rules.filterMap g.letterRule?
      pairRules := m.pairRules ++ rules.filterMap g.pairRule? } := by
  induction rules generalizing m with
  | nil => simp
  | cons r rules ih =>
    rw [List.foldl_cons, ih]
    cases hl : g.letterRule? r <;> cases hp : g.pairRule? r <;> simp [withRule, hl, hp]

theorem numbered_eq (hg : g.WellFormed) (hs : g.start ∈ g.nonterminals) :
    numbered g = some g.numbered := by
  have hrules : ∀ m, g.rules.foldlM (numberRule g) m = some (g.rules.foldl (withRule g) m) :=
    fun m => (foldlM_eq_some (P := fun _ => True)
      (fun m _ r hr => ⟨numberRule_eq hg hr m,trivial⟩) trivial).1
  rw [numbered, hrules, foldl_withRule, number_eq hs]
  rfl

/-- A start symbol that is not declared has no number. -/
example : numbered (.empty .standard) = none := rfl

/-! ## Charts -/

def blank (k n : Nat) : Option Chart := do
  guard (k * (n + 1) * (n + 1) < Text.wordBound)
  return .blank k n

def get (c : Chart) (a i j : Nat) : Option Bool := do
  guard (i < j ∧ j ≤ c.length)
  c.cells[Chart.index c.length a i j]?

def set (c : Chart) (a i j : Nat) : Option Chart := do
  guard (i < j ∧ j ≤ c.length)
  guard (Chart.index c.length a i j < c.cells.size)
  return c.set a i j

/-- Whether the halves of a rule meet at `x`. The right one is left alone if the left one is unset. -/
def meets (chart : Chart) (r : PairRule) (i j x : Nat) : Option Bool := do
  if ← get chart r.left i x then get chart r.right x j else return false

/-- Nothing is tried for a cell that is set, and nothing after a place where the halves meet. -/
def join (i j : Nat) (mids : List Nat) (chart : Chart) (r : PairRule) : Option Chart := do
  if ← get chart r.lhs i j then return chart
  if ← mids.anyM (meets chart r i j) then set chart r.lhs i j else return chart

def fillSpan (m : Numbered) (length : Nat) (chart : Chart) (i : Nat) : Option Chart :=
  m.pairRules.foldlM (join i (i + length) (List.range' (i + 1) (length - 1))) chart

def fillLength (m : Numbered) (chart : Chart) (length : Nat) : Option Chart := do
  guard (length ≤ chart.length)
  (List.range (chart.length - length + 1)).foldlM (fillSpan m length) chart

def fillLetter (m : Numbered) (chart : Chart) (ci : Char × Nat) : Option Chart :=
  (m.producers ci.1).foldlM (fun chart a => set chart a ci.2 (ci.2 + 1)) chart

def accepts (m : Numbered) (word : List Char) : Option Bool := do
  if word.isEmpty then return m.acceptsEmpty
  let c ← blank m.size word.length
  let c ← word.zipIdx.foldlM (fillLetter m) c
  let c ← (List.range' 2 (word.length - 1)).foldlM (fillLength m) c
  get c m.start 0 word.length

/-- The chart has the cells of `k` non-terminals and a word of length `n`. -/
structure Sized (c : Chart) (k n : Nat) : Prop where
  length_eq : c.length = n
  size_eq : c.cells.size = k * (n + 1) * (n + 1)

section Charts
variable {c : Chart} {k n a i j : Nat} (hc : Sized c k n)

include hc

theorem Sized.index_lt (ha : a < k) (hij : i < j) (hj : j ≤ n) :
    Chart.index c.length a i j < c.cells.size := by
  rw [hc.length_eq, hc.size_eq]
  exact Chart.index_lt ha (hij.le.trans hj) hj

theorem Sized.guard_span (hij : i < j) (hj : j ≤ n) :
    guard (i < j ∧ j ≤ c.length) = some () := if_pos ⟨hij,hc.length_eq ▸ hj⟩

theorem get_eq (ha : a < k) (hij : i < j) (hj : j ≤ n) : get c a i j = some (c.get a i j) := by
  rw [get, hc.guard_span hij hj, Chart.get, Array.getD_eq_getD_getElem?,
    Array.getElem?_eq_getElem (hc.index_lt ha hij hj)]
  rfl

theorem set_eq (ha : a < k) (hij : i < j) (hj : j ≤ n) :
    set c a i j = some (c.set a i j) ∧ Sized (c.set a i j) k n := by
  have hplace : guard (Chart.index c.length a i j < c.cells.size) = some () :=
    if_pos (hc.index_lt ha hij hj)
  refine ⟨?_,hc.length_eq,Array.size_setIfInBounds.trans hc.size_eq⟩
  rw [set, hc.guard_span hij hj, hplace]
  rfl

end Charts

/-! ## Words -/

theorem anyM_eq_some {p? : Nat → Option Bool} {p : Nat → Bool} {l : List Nat}
    (h : ∀ a ∈ l, p? a = some (p a)) : l.anyM p? = some (l.any p) := by
  induction l with
  | nil => rfl
  | cons a l ih =>
    rw [List.anyM, h a List.mem_cons_self, List.any_cons]
    cases p a with
    | true => rfl
    | false => exact ih fun b hb => h b (List.mem_cons_of_mem _ hb)

section Words
variable {m : Numbered} {c : Chart} {n i len : Nat} (hm : m.InRange)

theorem join_eq {k : Nat} {p : PairRule} (hc : Sized c k n)
    (hp : p.lhs < k ∧ p.left < k ∧ p.right < k) (hlen : 0 < len) (hi : i + len ≤ n) :
    join i (i + len) (List.range' (i + 1) (len - 1)) c p =
        some (c.join i (i + len) (List.range' (i + 1) (len - 1)) p) ∧
      Sized (c.join i (i + len) (List.range' (i + 1) (len - 1)) p) k n := by
  obtain ⟨hlhs,hleft,hright⟩ := hp
  have hmeets : ∀ x ∈ List.range' (i + 1) (len - 1), meets c p i (i + len) x =
      some (c.get p.left i x && c.get p.right x (i + len)) := by
    intro x hx
    have hrange := List.mem_range'_1.mp hx
    rw [meets, get_eq hc hleft (by omega) (by omega), get_eq hc hright (by omega) hi]
    cases c.get p.left i x <;> rfl
  unfold join Chart.join
  rw [get_eq hc hlhs (by omega) hi, anyM_eq_some hmeets]
  dsimp only [Option.bind_eq_bind, Option.bind_some]
  split
  · exact ⟨rfl,hc⟩
  split
  · exact set_eq hc hlhs (by omega) hi
  · exact ⟨rfl,hc⟩

include hm in
theorem fillSpan_eq (hlen : 0 < len) (hi : i + len ≤ n) (hc : Sized c m.size n) :
    fillSpan m len c i = some (m.fillSpan len c i) ∧ Sized (m.fillSpan len c i) m.size n :=
  foldlM_eq_some (P := (Sized · m.size n)) (fun _ hc p hp => join_eq hc (hm.pair p hp) hlen hi) hc

include hm in
theorem fillLength_eq (hlen : 0 < len) (hn : len ≤ n) (hc : Sized c m.size n) :
    fillLength m c len = some (m.fillLength c len) ∧ Sized (m.fillLength c len) m.size n := by
  have hfits : guard (len ≤ c.length) = some () := if_pos (hc.length_eq.symm ▸ hn)
  have hspans : List.range (c.length - len + 1) = List.range (c.length + 1 - len) := by
    rw [hc.length_eq, Nat.sub_add_comm hn]
  rw [fillLength, hfits, Numbered.fillLength, ← hspans]
  refine foldlM_eq_some (P := (Sized · m.size n)) (fun _ hd i hi => ?_) hc
  have hi := List.mem_range.mp hi
  rw [hc.length_eq] at hi
  exact fillSpan_eq hm hlen (by omega) hd

include hm in
theorem fillLetter_eq {ci : Char × Nat} (hi : ci.2 < n) (hc : Sized c m.size n) :
    fillLetter m c ci = some (m.fillLetter c ci) ∧ Sized (m.fillLetter c ci) m.size n := by
  refine foldlM_eq_some (P := (Sized · m.size n)) (fun _ hd a ha => ?_) hc
  obtain ⟨p,hp,rfl⟩ := List.mem_map.mp ha
  exact set_eq hd (hm.letter p (List.mem_filter.mp hp).1) (Nat.lt_succ_self _) hi

include hm in
theorem accepts_eq (hstart : m.start < m.size) {word : List Char}
    (hword : m.size * (word.length + 1) * (word.length + 1) < Text.wordBound) :
    accepts m word = some (m.accepts word) := by
  rw [accepts, Numbered.accepts]
  split
  · rfl
  · next hne =>
    have hpos : 0 < word.length := List.length_pos_iff.mpr fun he => hne (he ▸ rfl)
    have hroom : guard (m.size * (word.length + 1) * (word.length + 1) < Text.wordBound) =
        some () := if_pos hword
    have hblank : Sized (.blank m.size word.length) m.size word.length :=
      ⟨rfl,Array.size_replicate⟩
    have hletter : ∀ c, Sized c m.size word.length → ∀ ci ∈ word.zipIdx,
        fillLetter m c ci = some (m.fillLetter c ci) ∧
          Sized (m.fillLetter c ci) m.size word.length :=
      fun c hc ci hci => fillLetter_eq hm (List.snd_lt_of_mem_zipIdx hci) hc
    have hlength : ∀ c, Sized c m.size word.length → ∀ len ∈ List.range' 2 (word.length - 1),
        fillLength m c len = some (m.fillLength c len) ∧
          Sized (m.fillLength c len) m.size word.length := by
      intro c hc len hlen
      have hrange := List.mem_range'_1.mp hlen
      exact fillLength_eq hm (by omega) (by omega) hc
    obtain ⟨hletters,hsized⟩ := foldlM_eq_some hletter hblank
    obtain ⟨hlengths,hfilled⟩ := foldlM_eq_some hlength hsized
    rw [blank, hroom]
    change word.zipIdx.foldlM (fillLetter m) (.blank m.size word.length) >>= _ = _
    rw [hletters]
    change (List.range' 2 (word.length - 1)).foldlM (fillLength m) _ >>= _ = _
    rw [hlengths]
    exact get_eq hfilled hstart hpos (Nat.le_refl _)

end Words

/-! ## Recognizers -/

def recognizer (g : Grammar) : Option Recognizer := do return ⟨g, ← numbered g⟩

def ofGrammar (g : Grammar) : Checked Recognizer := do
  let h ← normalForm g
  ofOption (recognizer h)

def ofNormal (g : Grammar) : Checked Recognizer :=
  if g.start ∈ g.nonterminals then
    match g.offendingRule? with
    | some r => ofExcept (.error (.offendingRule r))
    | none => ofOption (recognizer g)
  else ofExcept (.error (.undeclaredStart g.start))

def adopt (r : Recognizer) (g : Grammar) : Option (Recognizer × Option NormalFormError) := do
  match ← (ofGrammar g).run with
  | .ok next => return (next, none)
  | .error e => return (r, some e)

def adoptAll (r : Recognizer) (gs : List Grammar) : Option Recognizer :=
  gs.foldlM (fun r h => do return (← adopt r h).1) r

theorem recognizer_eq (hg : g.WellFormed) (hs : g.start ∈ g.nonterminals) :
    recognizer g = some (Recognizer.ofNormal g) := by
  rw [recognizer, numbered_eq hg hs]
  rfl

theorem ofGrammar_eq (hg : g.WellFormed) : ofGrammar g = ofExcept (Recognizer.ofGrammar g) := by
  have hbind : Recognizer.ofGrammar g = g.normalForm >>= fun c => .ok (Recognizer.ofNormal c) := by
    unfold Recognizer.ofGrammar
    cases g.normalForm <;> rfl
  rw [ofGrammar, normalForm_eq hg, hbind]
  refine ofExcept_bind fun c hc => ?_
  exact congrArg ofOption (recognizer_eq (hg.normalForm hc) (Grammar.normalForm_start hg hc))

theorem ofNormal_eq (hg : g.WellFormed) : ofNormal g = ofExcept (Recognizer.ofNormal? g) := by
  unfold ofNormal Recognizer.ofNormal?
  split
  · next hs =>
    rw [recognizer_eq hg hs]
    cases g.offendingRule? <;> rfl
  · rfl

theorem adoptAll_eq {gs : List Grammar} (hgs : ∀ h ∈ gs, h.WellFormed) (r : Recognizer) :
    adoptAll r gs = some (r.adoptAll gs) := by
  refine (foldlM_eq_some (P := fun _ => True) (fun r _ h hh => ⟨?_,trivial⟩) trivial).1
  rw [adopt, ofGrammar_eq (hgs h hh), Recognizer.adopt]
  cases Recognizer.ofGrammar h <;> rfl

/-- Whatever passes a grammar is put through, however a recognizer begins with it and whatever other
grammars the recognizer is asked to take, and for every word whose chart has a size of 64 bits, no
step is undefined. -/
theorem every_step_defined (hg : g.Built) :
    (∀ ps, trace g ps = some (Pass.trace g ps)) ∧
    (ofGrammar g).run = some (Recognizer.ofGrammar g) ∧
    (ofNormal g).run = some (Recognizer.ofNormal? g) ∧
    ∀ r, Recognizer.Begins g r → ∀ gs, (∀ h ∈ gs, h.Built) →
      adoptAll r gs = some (r.adoptAll gs) ∧
      ∀ word, (r.adoptAll gs).grammar.nonterminals.length * (word.length + 1) * (word.length + 1) <
          Text.wordBound →
        accepts (r.adoptAll gs).numbered word = some ((r.adoptAll gs).accepts word) := by
  have hformed := hg.wellFormed
  refine ⟨trace_eq hformed,congrArg ExceptT.run (ofGrammar_eq hformed),
    congrArg ExceptT.run (ofNormal_eq hformed),fun r hr gs hgs => ?_⟩
  have hall : ∀ h ∈ gs, h.WellFormed := fun h hh => (hgs h hh).wellFormed
  have hserves := (hr.serves hformed).adoptAll hall
  refine ⟨adoptAll_eq hall r,fun word hword => ?_⟩
  rw [Recognizer.accepts, hserves.in_step]
  exact accepts_eq hserves.wellFormed.numbered (Grammar.number_lt hserves.start_declared) hword

/-- The recognizer takes another grammar, refuses one whose start symbol is not declared and takes
the brackets again. -/
theorem every_step_defined_brackets :
    Grammar.brackets.Built ∧ Recognizer.Begins Grammar.brackets (.ofNormal Grammar.normalBrackets) ∧
    (∀ h ∈ [Recognizer.letter,.empty .standard,Grammar.brackets], h.Built) ∧
    trace Grammar.brackets [.splitLong,.dropEpsilon,.dropUnits,.isolateTerminals,.normalForm] =
      some (Pass.trace Grammar.brackets
        [.splitLong,.dropEpsilon,.dropUnits,.isolateTerminals,.normalForm]) ∧
    accepts ((Recognizer.ofNormal Grammar.normalBrackets).adoptAll
      [Recognizer.letter,.empty .standard,Grammar.brackets]).numbered ['(','(',')',')'] =
        some true := by
  have hbegin : Recognizer.Begins Grammar.brackets (.ofNormal Grammar.normalBrackets) :=
    .fitted (Recognizer.ofGrammar_eq_ok.mpr ⟨_,Grammar.brackets_normalForm,rfl⟩)
  have hbuilt : ∀ h ∈ [Recognizer.letter,.empty .standard,Grammar.brackets], h.Built := by
    have hempty : (Grammar.empty .standard).Built := .empty ⟨none,rfl⟩
    simp [Recognizer.letter_built, hempty, Grammar.brackets_built]
  obtain ⟨htrace,_,_,hwords⟩ := every_step_defined Grammar.brackets_built
  have haccepts := (hwords _ hbegin _ hbuilt).2 ['(','(',')',')'] (by decide +kernel)
  refine ⟨Grammar.brackets_built,hbegin,hbuilt,htrace _,haccepts.trans ?_⟩
  decide +kernel

end Checked

end WordProblem
