import WordProblem.Grammar.Language

/-! # Derivations and readings

A form is read under an interpretation that gives every non-terminal a language. What a grammar
generates is the least interpretation that is closed under its rules, so inclusions between
grammars are shown by checking rules one at a time and no derivation is taken apart again.
-/
namespace WordProblem

namespace Rule

@[simp] theorem mem_nonterminals {r : Rule} {a : Char} :
    a ∈ r.nonterminals ↔ .nonterminal a ∈ r.rhs := by
  rw [nonterminals, List.mem_filterMap]
  constructor
  · rintro ⟨_ | b,hs,he⟩
    · cases he
    · cases he
      exact hs
  · intro h
    exact ⟨.nonterminal a,h,rfl⟩

@[simp] theorem mem_terminals {r : Rule} {c : Char} :
    c ∈ r.terminals ↔ .terminal c ∈ r.rhs := by
  rw [terminals, List.mem_filterMap]
  constructor
  · rintro ⟨b | _,hs,he⟩
    · cases he
      exact hs
    · cases he
  · intro h
    exact ⟨.terminal c,h,rfl⟩

theorem isUnit_iff {r : Rule} : r.isUnit = true ↔ ∃ b, r.rhs = [.nonterminal b] := by
  unfold isUnit
  split
  · next b hb => simp [hb]
  · next hne => simpa using fun b hb => hne b hb

end Rule

/-- A language for every non-terminal. -/
abbrev Interpretation := Char → List Char → Prop

def Symbol.Denotes (L : Interpretation) : Symbol → List Char → Prop
  | terminal c, w => w = [c]
  | nonterminal a, w => L a w

/-- The words of a form: those of its symbols one after another. -/
def Form.Denotes (L : Interpretation) : Form → List Char → Prop
  | [], w => w = []
  | s :: f, w => ∃ u v, w = u ++ v ∧ s.Denotes L u ∧ Form.Denotes L f v

namespace Form

@[simp] theorem denotes_nil {L : Interpretation} {w : List Char} : Form.Denotes L [] w ↔ w = [] :=
  Iff.rfl

theorem denotes_cons {L : Interpretation} {s : Symbol} {f : Form} {w : List Char} :
    Form.Denotes L (s :: f) w ↔ ∃ u v, w = u ++ v ∧ s.Denotes L u ∧ Form.Denotes L f v := Iff.rfl

@[simp] theorem denotes_singleton {L : Interpretation} {s : Symbol} {w : List Char} :
    Form.Denotes L [s] w ↔ s.Denotes L w := by
  constructor
  · rintro ⟨u,_,rfl,hu,rfl⟩
    simpa using hu
  · intro h
    exact ⟨w,[],by simp,h,rfl⟩

theorem denotes_append {L : Interpretation} {f k : Form} {w : List Char} :
    Form.Denotes L (f ++ k) w ↔ ∃ u v, w = u ++ v ∧ Form.Denotes L f u ∧ Form.Denotes L k v := by
  induction f generalizing w with
  | nil =>
    constructor
    · intro h
      exact ⟨[],w,rfl,rfl,h⟩
    · rintro ⟨_,v,rfl,rfl,h⟩
      exact h
  | cons s f ih =>
    constructor
    · rintro ⟨u,x,rfl,hs,hx⟩
      obtain ⟨v,y,rfl,hf,hk⟩ := ih.mp hx
      exact ⟨u ++ v,y,by simp,⟨u,v,rfl,hs,hf⟩,hk⟩
    · rintro ⟨_,y,rfl,⟨u,v,rfl,hs,hf⟩,hk⟩
      exact ⟨u,v ++ y,by simp,hs,ih.mpr ⟨v,y,rfl,hf,hk⟩⟩

theorem denotes_pair {L : Interpretation} {s t : Symbol} {w : List Char} :
    Form.Denotes L [s,t] w ↔ ∃ u v, w = u ++ v ∧ s.Denotes L u ∧ t.Denotes L v := by
  simp only [denotes_cons (f := [t]), denotes_singleton]

/-- Only the symbols of the form matter. -/
theorem Denotes.mono {L M : Interpretation} {f : Form} {w : List Char} (h : Form.Denotes L f w)
    (hLM : ∀ a, Symbol.nonterminal a ∈ f → ∀ v, L a v → M a v) : Form.Denotes M f w := by
  induction f generalizing w with
  | nil => exact h
  | cons s f ih =>
    obtain ⟨u,v,rfl,hs,hf⟩ := h
    have hrest := ih hf fun a ha => hLM a (List.mem_cons_of_mem _ ha)
    cases s with
    | terminal c => exact ⟨u,v,rfl,hs,hrest⟩
    | nonterminal a => exact ⟨u,v,rfl,hLM a List.mem_cons_self u hs,hrest⟩

theorem Denotes.exists_word {L : Interpretation} {f : Form} {w : List Char}
    (h : Form.Denotes L f w) {a : Char} (ha : .nonterminal a ∈ f) : ∃ v, v <:+: w ∧ L a v := by
  obtain ⟨f₁,f₂,rfl⟩ := List.append_of_mem ha
  obtain ⟨u,_,rfl,_,v,x,rfl,hv,_⟩ := denotes_append.mp h
  exact ⟨v,⟨u,x,by simp⟩,hv⟩

theorem denotes_ofWord (L : Interpretation) (w : List Char) : Form.Denotes L (.ofWord w) w := by
  induction w with
  | nil => rfl
  | cons c w ih => exact ⟨[c],w,rfl,rfl,ih⟩

@[simp] theorem ofWord_append (u v : List Char) :
    Form.ofWord (u ++ v) = Form.ofWord u ++ Form.ofWord v := List.map_append

end Form

namespace Grammar

/-- Every rule leads from words of its right side to words of its left side. -/
def Closed (g : Grammar) (L : Interpretation) : Prop :=
  ∀ r ∈ g.rules, ∀ w, Form.Denotes L r.rhs w → L r.lhs w

variable {g h : Grammar}

theorem Derives.trans {u v w : Form} (h : g.Derives u v) (k : g.Derives v w) : g.Derives u w := by
  induction k with
  | refl => exact h
  | tail _ s ih => exact .tail ih s

theorem Derives.context {u v : Form} (h : g.Derives u v) (before after : Form) :
    g.Derives (before ++ u ++ after) (before ++ v ++ after) := by
  induction h with
  | refl => exact .refl _
  | tail _ s ih =>
    obtain ⟨x,y,hr⟩ := s
    have step := Step.replace (before ++ x) (y ++ after) hr
    refine .tail ih ?_
    simpa using step

theorem Derives.append {u u' v v' : Form} (h : g.Derives u u') (k : g.Derives v v') :
    g.Derives (u ++ v) (u' ++ v') := by
  have hu := h.context [] v
  have hv := k.context u' []
  simp only [List.nil_append, List.append_nil] at hu hv
  exact hu.trans hv

/-- A closed interpretation may be carried back along a derivation. -/
theorem Derives.denotes {L : Interpretation} (hL : g.Closed L) {u v : Form}
    (h : g.Derives u v) {w : List Char} (hw : Form.Denotes L v w) : Form.Denotes L u w := by
  induction h with
  | refl => exact hw
  | tail _ s ih =>
    obtain ⟨x,y,hr⟩ := s
    apply ih
    rw [List.append_assoc] at hw
    obtain ⟨w₁,_,rfl,hx,hrest⟩ := Form.denotes_append.mp hw
    obtain ⟨w₂,w₃,rfl,hrhs,hy⟩ := Form.denotes_append.mp hrest
    exact Form.denotes_append.mpr ⟨w₁,w₂ ++ w₃,rfl,hx,w₂,w₃,rfl,hL _ hr w₂ hrhs,hy⟩

/-- What a grammar generates lies in every closed interpretation. -/
theorem Generates.least {L : Interpretation} (hL : g.Closed L) {a : Char} {w : List Char}
    (h : g.Generates a w) : L a w :=
  Form.denotes_singleton.mp (Derives.denotes hL h (Form.denotes_ofWord L w))

theorem derives_of_denotes {f : Form} {w : List Char} (h : Form.Denotes g.Generates f w) :
    g.Derives f (.ofWord w) := by
  induction f generalizing w with
  | nil => rw [Form.denotes_nil.mp h]; exact .refl _
  | cons s f ih =>
    obtain ⟨u,v,rfl,hs,hf⟩ := h
    rw [Form.ofWord_append]
    refine Derives.append (u := [s]) ?_ (ih hf)
    cases s with
    | terminal c => rw [show u = [c] from hs]; exact .refl _
    | nonterminal a => exact hs

theorem derives_rhs {r : Rule} (hr : r ∈ g.rules) : g.Derives [.nonterminal r.lhs] r.rhs := by
  have step := Step.replace [] [] hr
  simp only [List.nil_append, List.append_nil] at step
  exact .tail (.refl _) step

theorem generates_closed (g : Grammar) : g.Closed g.Generates := by
  intro r hr w hw
  exact (derives_rhs hr).trans (derives_of_denotes hw)

theorem generates_iff {a : Char} {w : List Char} :
    g.Generates a w ↔ ∃ r ∈ g.rules, r.lhs = a ∧ Form.Denotes g.Generates r.rhs w := by
  constructor
  · intro h
    refine Generates.least (L := fun a w => ∃ r ∈ g.rules, r.lhs = a ∧
      Form.Denotes g.Generates r.rhs w) ?_ h
    intro r hr w hw
    refine ⟨r,hr,rfl,hw.mono ?_⟩
    rintro _ _ v ⟨q,hq,rfl,hv⟩
    exact g.generates_closed q hq v hv
  · rintro ⟨r,hr,rfl,hw⟩
    exact g.generates_closed r hr w hw

theorem generates_letter {a c : Char} (h : ⟨a,[.terminal c]⟩ ∈ g.rules) : g.Generates a [c] :=
  g.generates_closed _ h _ (Form.denotes_singleton.mpr rfl)

theorem Generates.mono (hgh : ∀ r ∈ g.rules, r ∈ h.rules) {a : Char} {w : List Char}
    (hw : g.Generates a w) : h.Generates a w :=
  hw.least fun r hr => h.generates_closed r (hgh r hr)

end Grammar

/-! ## Unfolding

A pass that brings in fresh non-terminals leaves a form for each of them. A word generated
afterwards is then a word of the unfolded form before.
-/

section Lookup
variable {β : Type} {l : List (Char × β)} {a : Char}

theorem lookup_of_mem (hn : (l.map Prod.fst).Nodup) {b : β} (h : (a,b) ∈ l) :
    l.lookup a = some b := by
  induction l with
  | nil => simp at h
  | cons p l ih =>
    obtain ⟨k,v⟩ := p
    obtain ⟨hk,hn⟩ := List.nodup_cons.mp hn
    rcases List.mem_cons.mp h with he | hmem
    · cases he
      simp
    · have hne : a ≠ k := by
        rintro rfl
        exact hk (List.mem_map.mpr ⟨_,hmem,rfl⟩)
      simpa [List.lookup_cons, beq_false_of_ne hne] using ih hn hmem

theorem lookup_of_not_mem (h : a ∉ l.map Prod.fst) : l.lookup a = none := by
  refine List.lookup_eq_none_iff.mpr fun p hp => ?_
  have hne : a ≠ p.1 := fun he => h (he ▸ List.mem_map_of_mem hp)
  simpa using hne

end Lookup

/-- Non-terminals with the forms that they stand for. -/
abbrev Definitions := List (Char × Form)

namespace Definitions

def expand (d : Definitions) : Symbol → Form
  | .terminal c => [.terminal c]
  | .nonterminal a => (d.lookup a).getD [.nonterminal a]

def unfold (d : Definitions) (f : Form) : Form := f.flatMap d.expand

variable {d : Definitions}

@[simp] theorem unfold_nil : d.unfold [] = [] := rfl

@[simp] theorem unfold_cons (s : Symbol) (f : Form) :
    d.unfold (s :: f) = d.expand s ++ d.unfold f := rfl

theorem expand_of_lookup {a : Char} {f : Form} (h : d.lookup a = some f) :
    d.expand (.nonterminal a) = f := by simp [expand, h]

theorem expand_of_lookup_none {a : Char} (h : d.lookup a = none) :
    d.expand (.nonterminal a) = [.nonterminal a] := by simp [expand, h]

theorem unfold_eq_self {f : Form} (h : ∀ a, .nonterminal a ∈ f → d.lookup a = none) :
    d.unfold f = f := by
  induction f with
  | nil => rfl
  | cons s f ih =>
    have hf := ih fun a ha => h a (List.mem_cons_of_mem _ ha)
    cases s with
    | terminal c => rw [unfold_cons, hf]; rfl
    | nonterminal a => rw [unfold_cons, hf, expand_of_lookup_none (h a List.mem_cons_self)]; rfl

theorem denotes_unfold {L : Interpretation} {f : Form} {w : List Char} :
    Form.Denotes L (d.unfold f) w ↔
      Form.Denotes (fun a => Form.Denotes L (d.expand (.nonterminal a))) f w := by
  induction f generalizing w with
  | nil => rfl
  | cons s f ih =>
    rw [unfold_cons, Form.denotes_append, Form.denotes_cons]
    cases s with
    | terminal c => simp only [expand, Form.denotes_singleton, Symbol.Denotes, ih]
    | nonterminal a => simp only [Symbol.Denotes, ih]

/-- Every rule of `h` either spells out a definition or unfolds to a rule of `g`. -/
def Explains (d : Definitions) (g h : Grammar) : Prop :=
  ∀ r ∈ h.rules, d.lookup r.lhs = some (d.unfold r.rhs) ∨
    d.lookup r.lhs = none ∧ ⟨r.lhs,d.unfold r.rhs⟩ ∈ g.rules

theorem Explains.generates {g h : Grammar} (hd : d.Explains g h) {a : Char} {w : List Char}
    (hw : h.Generates a w) : Form.Denotes g.Generates (d.expand (.nonterminal a)) w := by
  refine Grammar.Generates.least
    (L := fun a => Form.Denotes g.Generates (d.expand (.nonterminal a))) ?_ hw
  intro r hr w hw
  have hu := denotes_unfold.mpr hw
  rcases hd r hr with he | ⟨hn,hg⟩
  · rw [expand_of_lookup he]
    exact hu
  · rw [expand_of_lookup_none hn, Form.denotes_singleton]
    exact g.generates_closed _ hg w hu

theorem Explains.generates_of_undefined {g h : Grammar} (hd : d.Explains g h) {a : Char}
    (ha : d.lookup a = none) {w : List Char} (hw : h.Generates a w) : g.Generates a w := by
  have hu := hd.generates hw
  rw [expand_of_lookup_none ha, Form.denotes_singleton] at hu
  exact hu

end Definitions

end WordProblem
