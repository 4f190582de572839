import Mathlib.Data.List.Nodup
import Mathlib.Data.List.Perm.Subperm
import Mathlib.Logic.Relation
import WordProblem.Grammar.Generators
import WordProblem.Grammar.History
import WordProblem.Grammar.Reach
import WordProblem.Proofs.Language

/-! # Saturated sets of non-terminals

The round limits of the two closures are never met: every round but the last one finds a new
member, and the members lie in a finite list. What is left is closed, so the generators are
exactly the non-terminals with an admitted word and the reached ones are the ends of paths. Rounds
need not be alike: the rules of a round may be taken in any order.
-/
namespace WordProblem

/-- Takes rounds until one of them adds nothing, and round `t` is `grow t`. There is no result if
`limit` rounds are not enough. -/
def saturate? (grow : Nat → List Char → List Char) : Nat → Nat → List Char → Option (List Char)
  | 0, _, _ => none
  | limit + 1, t, known =>
    let next := grow t known
    if next.length = known.length then some next else saturate? grow limit (t + 1) next

section Saturation
variable {P : List Char → Prop} {bound : Nat} {known : List Char}

/-- With enough rounds there is a result. It keeps every invariant of the rounds, and one of them
adds nothing to it. -/
theorem saturate?_stable {grow : Nat → List Char → List Char}
    (hP : ∀ t known, P known → P (grow t known)) (hbound : ∀ known, P known → known.length ≤ bound)
    (hgrow : ∀ t known, known <:+ grow t known) (limit t : Nat) (hk : P known)
    (hlimit : bound < known.length + limit) :
    ∃ found, saturate? grow limit t known = some found ∧ P found ∧ ∃ u, grow u found = found := by
  induction limit generalizing t known with
  | zero =>
    have := hbound known hk
    omega
  | succ limit ih =>
    rw [saturate?]
    by_cases he : (grow t known).length = known.length
    · have hsame : grow t known = known := ((hgrow t known).eq_of_length_le (Nat.le_of_eq he)).symm
      exact ⟨known,by simp [hsame],hk,t,hsame⟩
    · -- a round that goes on makes the list longer, so fewer rounds are needed
      have hlonger := (hgrow t known).length_le
      simpa [he] using ih (t + 1) (hP t known hk) (by omega)

variable {grow : List Char → List Char}

theorem saturate_of_saturate? (hgrow : ∀ known, known <:+ grow known) {limit t : Nat}
    {found : List Char} (h : saturate? (fun _ => grow) limit t known = some found) :
    saturate grow limit known = found := by
  induction limit generalizing t known with
  | zero => simp [saturate?] at h
  | succ limit ih =>
    rw [saturate?] at h
    rw [saturate]
    by_cases he : (grow known).length = known.length
    · have hsame : known = grow known := (hgrow known).eq_of_length_le (Nat.le_of_eq he)
      simpa [he, ← hsame] using h
    · simp only [if_neg he] at h ⊢
      exact ih h

theorem saturate_stable (hP : ∀ known, P known → P (grow known))
    (hbound : ∀ known, P known → known.length ≤ bound) (hgrow : ∀ known, known <:+ grow known)
    (rounds : Nat) (hk : P known) (hrounds : bound < known.length + rounds) :
    P (saturate grow rounds known) ∧
      grow (saturate grow rounds known) = saturate grow rounds known := by
  obtain ⟨found,hfound,hinv,_,hsame⟩ := saturate?_stable (fun _ => hP) hbound
    (fun _ => hgrow) rounds 0 hk hrounds
  rw [saturate_of_saturate? hgrow hfound]
  exact ⟨hinv,hsame⟩

variable {β : Type} {step : List Char → β → List Char}

theorem suffix_foldl (hs : ∀ known x, known <:+ step known x) (known : List Char) (xs : List β) :
    known <:+ xs.foldl step known := by
  induction xs generalizing known with
  | nil => exact List.suffix_rfl
  | cons x xs ih => exact (hs known x).trans (ih (step known x))

/-- If a whole round adds nothing then no step of it does. -/
theorem step_eq_self_of_foldl (hs : ∀ known x, known <:+ step known x) {known : List Char}
    {xs : List β} (he : xs.foldl step known = known) : ∀ x ∈ xs, step known x = known := by
  induction xs with
  | nil => simp
  | cons x xs ih =>
    rw [List.foldl_cons] at he
    have hrest := (suffix_foldl hs (step known x) xs).length_le
    rw [he] at hrest
    have hx : step known x = known := ((hs known x).eq_of_length_le hrest).symm
    rw [hx] at he
    intro y hy
    rcases List.mem_cons.mp hy with rfl | hy
    · exact hx
    · exact ih he y hy

end Saturation

/-! ## Generators -/

section Generators
variable {g : Grammar} {leaf : Char → Bool}

theorem Grammar.declared_of_generates (hg : g.WellFormed) {a : Char} {w : List Char}
    (hw : g.Generates a w) : a ∈ g.nonterminals := by
  obtain ⟨r,hr,rfl,_⟩ := generates_iff.mp hw
  exact hg.lhs_declared r hr

theorem suffix_settle (known : List Char) (r : Rule) : known <:+ settle leaf known r := by
  unfold settle
  split
  · exact List.suffix_cons _ _
  · exact List.suffix_rfl

theorem lhs_mem_of_settle_eq {known : List Char} {r : Rule} (he : settle leaf known r = known)
    (hr : r.rhs.all (·.settled leaf known) = true) : r.lhs ∈ known := by
  by_contra hnew
  simp [settle, hnew, hr] at he

/-- A settled right side has a word of admitted letters. -/
theorem exists_word_of_settled {L : Interpretation} {known : List Char}
    (hk : ∀ a ∈ known, ∃ w, L a w ∧ ∀ c ∈ w, leaf c = true) {f : Form}
    (hf : f.all (·.settled leaf known) = true) :
    ∃ w, Form.Denotes L f w ∧ ∀ c ∈ w, leaf c = true := by
  induction f with
  | nil => exact ⟨[],rfl,by simp⟩
  | cons s f ih =>
    obtain ⟨hs,hf⟩ := List.all_cons.symm.trans hf |> Bool.and_eq_true_iff.mp
    obtain ⟨v,hv,hvl⟩ := ih hf
    have hword : ∃ u, s.Denotes L u ∧ ∀ c ∈ u, leaf c = true := by
      cases s with
      | terminal c => exact ⟨[c],rfl,by simpa [Symbol.settled] using hs⟩
      | nonterminal a => exact hk a (by simpa [Symbol.settled] using hs)
    obtain ⟨u,hu,hul⟩ := hword
    refine ⟨u ++ v,⟨u,v,rfl,hu,hv⟩,fun c hc => ?_⟩
    rcases List.mem_append.mp hc with hc | hc
    · exact hul c hc
    · exact hvl c hc

/-- A right side with a word of admitted letters is settled if all non-terminals with such words
are known. -/
theorem settled_of_denotes {known : List Char} {f : Form} {w : List Char}
    (hf : Form.Denotes (fun a v => (∀ c ∈ v, leaf c = true) → a ∈ known) f w)
    (hw : ∀ c ∈ w, leaf c = true) : f.all (·.settled leaf known) = true := by
  induction f generalizing w with
  | nil => rfl
  | cons s f ih =>
    obtain ⟨u,v,rfl,hs,hf⟩ := hf
    have hu : ∀ c ∈ u, leaf c = true := fun c hc => hw c (List.mem_append_left _ hc)
    have hrest := ih hf fun c hc => hw c (List.mem_append_right _ hc)
    rw [List.all_cons, hrest, Bool.and_true]
    cases s with
    | terminal c => exact hu c (by rw [show u = [c] from hs]; exact List.mem_singleton_self c)
    | nonterminal a => simpa [Symbol.settled] using hs hu

/-- What holds of the known non-terminals throughout the rounds. -/
structure Settled (g : Grammar) (leaf : Char → Bool) (known : List Char) : Prop where
  nodup : known.Nodup
  declared : ∀ a ∈ known, a ∈ g.nonterminals
  sound : ∀ a ∈ known, ∃ w, g.Generates a w ∧ ∀ c ∈ w, leaf c = true

theorem Settled.settle (hg : g.WellFormed) {known : List Char} (hk : Settled g leaf known)
    {r : Rule} (hr : r ∈ g.rules) : Settled g leaf (settle leaf known r) := by
  unfold WordProblem.settle
  split
  · next hc =>
    obtain ⟨hnew,hrhs⟩ := Bool.and_eq_true_iff.mp hc
    obtain ⟨w,hw,hl⟩ := exists_word_of_settled hk.sound hrhs
    refine ⟨List.nodup_cons.mpr ⟨by simpa using hnew,hk.nodup⟩,?_,?_⟩
    · intro a ha
      rcases List.mem_cons.mp ha with rfl | ha
      · exact hg.lhs_declared r hr
      · exact hk.declared a ha
    · intro a ha
      rcases List.mem_cons.mp ha with rfl | ha
      · exact ⟨w,g.generates_closed r hr w hw,hl⟩
      · exact hk.sound a ha
  · exact hk

theorem Settled.round (hg : g.WellFormed) {known : List Char} (hk : Settled g leaf known)
    {rules : List Rule} (hrules : ∀ r ∈ rules, r ∈ g.rules) :
    Settled g leaf (rules.foldl (WordProblem.settle leaf) known) :=
  List.foldlRecOn rules _ hk fun _ h r hr => h.settle hg (hrules r hr)

theorem Settled.mem_iff {known : List Char} (hk : Settled g leaf known)
    (hstable : ∀ r ∈ g.rules, WordProblem.settle leaf known r = known) {a : Char} :
    a ∈ known ↔ ∃ w, g.Generates a w ∧ ∀ c ∈ w, leaf c = true := by
  refine ⟨hk.sound a,?_⟩
  rintro ⟨w,hw,hl⟩
  refine hw.least (L := fun a w => (∀ c ∈ w, leaf c = true) → a ∈ known) ?_ hl
  intro r hr w hw hl
  exact lhs_mem_of_settle_eq (hstable r hr) (settled_of_denotes hw hl)

/-- The search for generators with the rules of round `t` in the order `order t`. -/
def generatorsBy (leaf : Char → Bool) (order : Nat → List Rule) (limit : Nat) :
    Option (List Char) :=
  saturate? (fun t => (order t).foldl (settle leaf)) limit 0 []

theorem generatorsBy_stable (hg : g.WellFormed) (leaf : Char → Bool) {order : Nat → List Rule}
    (horder : ∀ t r, r ∈ order t ↔ r ∈ g.rules) :
    ∃ known, generatorsBy leaf order (g.nonterminals.length + 1) = some known ∧
      Settled g leaf known ∧ ∀ r ∈ g.rules, settle leaf known r = known := by
  have hbound : ∀ known, Settled g leaf known → known.length ≤ g.nonterminals.length :=
    fun known hk => (List.subperm_of_subset hk.nodup hk.declared).length_le
  have hstart : Settled g leaf [] := ⟨List.nodup_nil,by simp,by simp⟩
  obtain ⟨known,hknown,hk,t,hsame⟩ := saturate?_stable
    (fun t _ hk => hk.round hg fun r => (horder t r).mp) hbound
    (fun t known => suffix_foldl suffix_settle known (order t)) (g.nonterminals.length + 1) 0 hstart
    (by simp)
  refine ⟨known,hknown,hk,fun r hr => ?_⟩
  exact step_eq_self_of_foldl suffix_settle hsame r ((horder t r).mpr hr)

theorem generators_of_generatorsBy {known : List Char}
    (h : generatorsBy leaf (fun _ => g.rules) (g.nonterminals.length + 1) = some known) :
    g.generators leaf = known :=
  saturate_of_saturate? (fun known => suffix_foldl suffix_settle known g.rules) h

/-- The generators are the non-terminals with a word of admitted letters. -/
theorem Grammar.mem_generators (hg : g.WellFormed) {a : Char} :
    a ∈ g.generators leaf ↔ ∃ w, g.Generates a w ∧ ∀ c ∈ w, leaf c = true := by
  obtain ⟨known,hknown,hk,hstable⟩ := generatorsBy_stable hg leaf fun _ _ => Iff.rfl
  rw [generators_of_generatorsBy hknown]
  exact hk.mem_iff hstable

theorem Grammar.mem_productive (hg : g.WellFormed) {a : Char} :
    a ∈ g.productive ↔ ∃ w, g.Generates a w := by
  simp [productive, mem_generators hg]

theorem Grammar.exists_empty_word {a : Char} :
    (∃ w, g.Generates a w ∧ ∀ c ∈ w, false = true) ↔ g.Generates a [] := by
  simp [← List.eq_nil_iff_forall_not_mem]

theorem Grammar.mem_nullable (hg : g.WellFormed) {a : Char} :
    a ∈ g.nullable ↔ g.Generates a [] :=
  (mem_generators hg).trans exists_empty_word

end Generators

/-! ## Paths -/

section Paths
variable {edges : List Edge} {a : Char}

def Joined (edges : List Edge) (x y : Char) : Prop := (x,y) ∈ edges

abbrev Path (edges : List Edge) : Char → Char → Prop := Relation.ReflTransGen (Joined edges)

theorem suffix_follow (known : List Char) (e : Edge) : known <:+ follow known e := by
  unfold follow
  split
  · exact List.suffix_cons _ _
  · exact List.suffix_rfl

theorem end_mem_of_follow_eq {known : List Char} {e : Edge} (he : follow known e = known)
    (hb : e.1 ∈ known) : e.2 ∈ known := by
  by_contra hnew
  simp [follow, hnew, hb] at he

/-- What holds of the known characters throughout the rounds. -/
structure Followed (edges : List Edge) (a : Char) (known : List Char) : Prop where
  nodup : known.Nodup
  start : a ∈ known
  ends : ∀ b ∈ known, b ∈ a :: edges.map Prod.snd
  sound : ∀ b ∈ known, Path edges a b

theorem Followed.follow {known : List Char} (hk : Followed edges a known) {e : Edge}
    (he : e ∈ edges) : Followed edges a (follow known e) := by
  unfold WordProblem.follow
  split
  · next hc =>
    obtain ⟨hb,hnew⟩ := Bool.and_eq_true_iff.mp hc
    have hpath : Path edges a e.2 := (hk.sound e.1 (by simpa using hb)).tail he
    refine ⟨List.nodup_cons.mpr ⟨by simpa using hnew,hk.nodup⟩,
      List.mem_cons_of_mem _ hk.start,?_,?_⟩
    · intro b hb
      rcases List.mem_cons.mp hb with rfl | hb
      · exact List.mem_cons_of_mem _ (List.mem_map_of_mem he)
      · exact hk.ends b hb
    · intro b hb
      rcases List.mem_cons.mp hb with rfl | hb
      · exact hpath
      · exact hk.sound b hb
  · exact hk

theorem Followed.round {known : List Char} (hk : Followed edges a known) :
    Followed edges a (edges.foldl WordProblem.follow known) :=
  List.foldlRecOn edges _ hk fun _ h _ he => h.follow he

theorem reach_stable (edges : List Edge) (a : Char) : Followed edges a (reach edges a) ∧
    ∀ e ∈ edges, follow (reach edges a) e = reach edges a := by
  have hbound : ∀ known, Followed edges a known → known.length ≤ edges.length + 1 := by
    intro known hk
    simpa using (List.subperm_of_subset hk.nodup hk.ends).length_le
  have hstart : Followed edges a [a] :=
    ⟨List.nodup_singleton a,by simp,by simp,fun b hb => by rw [List.mem_singleton.mp hb]⟩
  have h := saturate_stable (fun _ hk => hk.round) hbound
    (fun known => suffix_foldl suffix_follow known edges) (edges.length + 1) hstart (by simp)
  exact ⟨h.1,step_eq_self_of_foldl suffix_follow h.2⟩

theorem mem_reach {b : Char} : b ∈ reach edges a ↔ Path edges a b := by
  obtain ⟨hk,hstable⟩ := reach_stable edges a
  refine ⟨hk.sound b,fun h => ?_⟩
  induction h with
  | refl => exact hk.start
  | tail _ he ih => exact end_mem_of_follow_eq (hstable _ he) ih

end Paths

namespace Grammar

variable {g : Grammar}

theorem joined_edges {x y : Char} :
    Joined g.edges x y ↔ ∃ r ∈ g.rules, r.lhs = x ∧ .nonterminal y ∈ r.rhs := by
  simp [Joined, edges, and_comm]

theorem joined_unitEdges {x y : Char} :
    Joined g.unitEdges x y ↔ ⟨x,[.nonterminal y]⟩ ∈ g.rules := by
  simp only [Joined, unitEdges, List.mem_flatMap, List.mem_filter, List.mem_map, Prod.mk.injEq,
    Rule.mem_nonterminals, Rule.isUnit_iff]
  constructor
  · rintro ⟨⟨_,_⟩,⟨hr,b,rfl⟩,_,hy,rfl,rfl⟩
    rw [List.mem_singleton.mp hy]
    exact hr
  · intro hr
    exact ⟨_,⟨hr,y,rfl⟩,y,List.mem_singleton_self _,rfl,rfl⟩

end Grammar

end WordProblem
