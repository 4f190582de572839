import WordProblem.Proofs.Recognizer.Chart
import WordProblem.Recognizer.Filling

/-! # What a chart shows while it is filled

A numbered grammar spans parts of a word: a letter rule spans one letter, a pair rule joins two
parts that meet. After each length the chart shows the spans up to that length. Rules look at
shorter spans only, so it does not matter what has been set before for the length at hand. This is
why a sweep may take the rules in any order, and why passing over a set cell and leaving the search
at the first match save work and nothing else.
-/
namespace WordProblem

structure Numbered.InRange (m : Numbered) : Prop where
  letter : ∀ p ∈ m.letterRules, p.2 < m.size
  pair : ∀ r ∈ m.pairRules, r.lhs < m.size ∧ r.left < m.size ∧ r.right < m.size

/-- The number `a` has the letters of `word` from `i` up to `j`. -/
inductive Numbered.Spans (m : Numbered) (word : List Char) : Nat → Nat → Nat → Prop
  | letter {c : Char} {a i : Nat} (h : (c,a) ∈ m.letterRules) (hc : word[i]? = some c) :
    Spans m word a i (i + 1)
  | pair {r : PairRule} {i mid j : Nat} (h : r ∈ m.pairRules) (hleft : Spans m word r.left i mid)
    (hright : Spans m word r.right mid j) : Spans m word r.lhs i j

/-- The cells that `r` sets for the span from `i` to `j` if those in `S` are set. -/
def PairRule.joins (S : Set Cell) (i j : Nat) (r : PairRule) : Set Cell :=
  {x | x = ⟨r.lhs,i,j⟩ ∧ ∃ mid, i < mid ∧ mid < j ∧ ⟨r.left,i,mid⟩ ∈ S ∧ ⟨r.right,mid,j⟩ ∈ S}

/-- The cells that the letter `p.1` at `p.2` sets. -/
def Numbered.letterCells (m : Numbered) (p : Char × Nat) : Set Cell :=
  {x | ∃ a ∈ m.producers p.1, x = ⟨a,p.2,p.2 + 1⟩}

/-- A way to go through the rules. They may come in another order for every length and every
beginning of a span. -/
structure Sweep where
  /-- Whether a rule is passed over if its cell is set already. -/
  skips : Bool
  /-- Whether the search for a meeting point ends at the first one. -/
  stops : Bool
  order : Nat → Nat → List PairRule

namespace Chart

/-- Tries the meeting points in turn and sets the cell of `r.lhs` where two set cells meet. -/
def search (stops : Bool) (i j : Nat) (r : PairRule) : Chart → List Nat → Chart
  | c, [] => c
  | c, mid :: mids =>
    if c.get r.left i mid && c.get r.right mid j then
      if stops then c.set r.lhs i j else search stops i j r (c.set r.lhs i j) mids
    else search stops i j r c mids

def visit (s : Sweep) (i j : Nat) (mids : List Nat) (c : Chart) (r : PairRule) : Chart :=
  if s.skips && c.get r.lhs i j then c else c.search s.stops i j r mids

theorem search_stops (c : Chart) (i j : Nat) (r : PairRule) (mids : List Nat) :
    c.search true i j r mids =
      if mids.any fun mid => c.get r.left i mid && c.get r.right mid j then c.set r.lhs i j
      else c := by
  induction mids with
  | nil => rfl
  | cons mid mids ih =>
    rw [search, List.any_cons, ih]
    cases c.get r.left i mid && c.get r.right mid j <;> rfl

namespace Shows

variable {c : Chart} {k n i len : Nat} {S T : Set Cell} {r : PairRule} {s : Sweep}

/-- The set cells of shorter spans are those in `S`. -/
theorem get_iff_of_short (hST : S ⊆ T) (hTS : T ⊆ S ∪ {x | x.last = x.first + len})
    (h : c.Shows k n T) {a x y : Nat} (ha : a < k) (hx : x ≤ n) (hy : y ≤ n)
    (hshort : y < x + len) : c.get a x y = true ↔ ⟨a,x,y⟩ ∈ S := by
  rw [h.get_iff ha hx hy]
  constructor
  · intro ht
    exact (hTS ht).resolve_right (Nat.ne_of_lt hshort)
  · intro hs
    exact hST hs

/-- Only cells of shorter spans are looked at, so whether two cells meet does not depend on what the
search has set before. -/
theorem search {stops : Bool} {mids : List Nat} (hr : r.lhs < k ∧ r.left < k ∧ r.right < k)
    (hlen : i + len ≤ n) (hmids : ∀ mid ∈ mids, i < mid ∧ mid < i + len) (hST : S ⊆ T)
    (hTS : T ⊆ S ∪ {x | x.last = x.first + len}) (h : c.Shows k n T) :
    (c.search stops i (i + len) r mids).Shows k n (T ∪ {x | x = ⟨r.lhs,i,i + len⟩ ∧
      ∃ mid ∈ mids, ⟨r.left,i,mid⟩ ∈ S ∧ ⟨r.right,mid,i + len⟩ ∈ S}) := by
  obtain ⟨hlhs,hleft,hright⟩ := hr
  induction mids generalizing c T with
  | nil => exact h.congr fun _ _ _ => by simp
  | cons mid mids ih =>
    obtain ⟨hlow,hhigh⟩ := hmids mid List.mem_cons_self
    have hrest : ∀ mid ∈ mids, i < mid ∧ mid < i + len :=
      fun mid hmid => hmids mid (List.mem_cons_of_mem _ hmid)
    have hmeet : (c.get r.left i mid && c.get r.right mid (i + len)) = true ↔
        ⟨r.left,i,mid⟩ ∈ S ∧ ⟨r.right,mid,i + len⟩ ∈ S := by
      rw [Bool.and_eq_true, h.get_iff_of_short hST hTS hleft (by omega) (by omega) (by omega),
        h.get_iff_of_short hST hTS hright (by omega) hlen (by omega)]
    rw [Chart.search]
    split
    · next hsome =>
      have hset := h.set (i := i) hlhs (by omega) hlen
      have hfound := hmeet.mp hsome
      split
      · refine hset.congr fun _ _ _ => or_congr_right ?_
        exact ⟨fun he => ⟨he,mid,List.mem_cons_self,hfound⟩,fun he => he.1⟩
      · -- the rest of the search can only set the same cell again
        have hTS' : T ∪ {⟨r.lhs,i,i + len⟩} ⊆ S ∪ {x | x.last = x.first + len} :=
          Set.union_subset hTS (Set.singleton_subset_iff.mpr (Or.inr rfl))
        refine (ih hrest (hST.trans Set.subset_union_left) hTS' hset).congr fun _ _ _ => ?_
        rw [Set.mem_union, Set.mem_union, Set.mem_union, or_assoc]
        refine or_congr_right ⟨fun he => ?_,fun he => Or.inl he.1⟩
        exact ⟨he.elim id And.left,mid,List.mem_cons_self,hfound⟩
    · next hnone =>
      have hmissed := mt hmeet.mpr hnone
      refine (ih hrest hST hTS h).congr fun _ _ _ => or_congr_right (and_congr_right fun _ => ?_)
      simp [hmissed]

theorem visit (hr : r.lhs < k ∧ r.left < k ∧ r.right < k) (hlen : i + len ≤ n) (hST : S ⊆ T)
    (hTS : T ⊆ S ∪ {x | x.last = x.first + len}) (h : c.Shows k n T) :
    (c.visit s i (i + len) (List.range' (i + 1) (len - 1)) r).Shows k n
      (T ∪ r.joins S i (i + len)) := by
  unfold Chart.visit
  split
  · next hset =>
    have hmem := (h.get_iff hr.1 (by omega) hlen).mp (Bool.and_eq_true_iff.mp hset).2
    refine h.congr fun _ _ _ => ⟨Or.inl,?_⟩
    rintro (ht | ⟨he,_⟩)
    · exact ht
    · rw [he]
      exact hmem
  · have hmids : ∀ mid, mid ∈ List.range' (i + 1) (len - 1) ↔ i < mid ∧ mid < i + len := by
      intro mid
      rw [List.mem_range'_1]
      omega
    refine (h.search hr hlen (fun mid => (hmids mid).mp) hST hTS).congr fun _ _ _ => ?_
    simp only [hmids, and_assoc]
    rfl

end Shows

end Chart

namespace Numbered

variable {m : Numbered} {word : List Char} {c : Chart} {n i len : Nat} {S T : Set Cell} {s : Sweep}

def sweepSpan (s : Sweep) (length : Nat) (chart : Chart) (i : Nat) : Chart :=
  (s.order length i).foldl (Chart.visit s i (i + length) (List.range' (i + 1) (length - 1))) chart

def sweepLength (s : Sweep) (chart : Chart) (length : Nat) : Chart :=
  (List.range (chart.length + 1 - length)).foldl (sweepSpan s length) chart

/-- The chart of a word with all spans up to the given length settled by a sweep. -/
def sweep (m : Numbered) (s : Sweep) (word : List Char) (length : Nat) : Chart :=
  (List.range' 2 (length - 1)).foldl (sweepLength s) (m.letters word)

/-- Rules in their own order, and no more work than needed. -/
def ownSweep (m : Numbered) : Sweep := ⟨true, true, fun _ _ => m.pairRules⟩

theorem chart_eq_sweep (m : Numbered) (word : List Char) (len : Nat) :
    m.chart word len = m.sweep m.ownSweep word len := by
  have hjoin : Chart.join = Chart.visit m.ownSweep := by
    funext i j mids c r
    simp only [Chart.join, Chart.visit, ownSweep, Chart.search_stops, Bool.true_and]
  have hspan : m.fillSpan = sweepSpan m.ownSweep := by
    funext len c i
    rw [fillSpan, hjoin]
    rfl
  have hlength : m.fillLength = sweepLength m.ownSweep := by
    funext c len
    rw [fillLength, hspan]
    rfl
  rw [chart, hlength]
  rfl

section Loops
variable (hm : m.InRange)

section Rules
variable (hs : ∀ len i r, r ∈ s.order len i ↔ r ∈ m.pairRules)

include hm hs in
theorem shows_sweepSpan (hlen : i + len ≤ n) (hST : S ⊆ T)
    (hTS : T ⊆ S ∪ {x | x.last = x.first + len}) (h : c.Shows m.size n T) :
    (sweepSpan s len c i).Shows m.size n
      (T ∪ {x | ∃ r ∈ m.pairRules, x ∈ r.joins S i (i + len)}) := by
  simp only [← hs len i]
  refine Chart.Shows.foldl (fun r hr _ _ hST hTS h => ?_) (fun r _ x hx => ?_) hST hTS h
  · exact h.visit (hm.pair r ((hs len i r).mp hr)) hlen hST hTS
  · right
    rw [hx.1]
    rfl

include hm hs in
theorem shows_sweepLength (h : c.Shows m.size n S) : (sweepLength s c len).Shows m.size n
    (S ∪ {x | ∃ i ∈ List.range (n + 1 - len), ∃ r ∈ m.pairRules, x ∈ r.joins S i (i + len)}) := by
  rw [sweepLength, h.length_eq]
  refine Chart.Shows.foldl (U := S ∪ {x | x.last = x.first + len})
    (fun i hi _ _ hST hTS h => ?_) (fun i _ x hx => ?_) subset_rfl Set.subset_union_left h
  · have hlt := List.mem_range.mp hi
    exact shows_sweepSpan hm hs (by omega) hST hTS h
  · obtain ⟨r,_,rfl,_⟩ := hx
    exact Or.inr rfl

end Rules

include hm in
theorem shows_fillLetter {p : Char × Nat} (hp : p.2 + 1 ≤ n) (h : c.Shows m.size n T) :
    (m.fillLetter c p).Shows m.size n (T ∪ m.letterCells p) := by
  refine Chart.Shows.foldl (U := Set.univ) (P := fun a => {⟨a,p.2,p.2 + 1⟩})
    (fun a ha _ _ _ _ h => ?_) (fun _ _ => Set.subset_univ _) subset_rfl (Set.subset_univ _) h
  have hlt : a < m.size := by
    obtain ⟨q,hq,rfl⟩ := List.mem_map.mp ha
    exact hm.letter q (List.mem_filter.mp hq).1
  exact h.set hlt (by omega) hp

end Loops

/-! ## Spans by length -/

theorem Spans.bounds {a j : Nat} (h : m.Spans word a i j) : i < j ∧ j ≤ word.length := by
  induction h with
  | letter _ hc =>
    obtain ⟨hlt,_⟩ := List.getElem?_eq_some_iff.mp hc
    exact ⟨Nat.lt_succ_self _,hlt⟩
  | pair _ _ _ hleft hright => exact ⟨hleft.1.trans hright.1,hright.2⟩

/-- The cells of spans that are no longer than `len`. -/
def spans (m : Numbered) (word : List Char) (len : Nat) : Set Cell :=
  {x | x.last ≤ x.first + len ∧ m.Spans word x.symbol x.first x.last}

theorem mem_spans_one {a j : Nat} :
    ⟨a,i,j⟩ ∈ m.spans word 1 ↔ ∃ p ∈ word.zipIdx, ⟨a,i,j⟩ ∈ m.letterCells p := by
  constructor
  · rintro ⟨hle,hs⟩
    simp only at hle hs
    cases hs with
    | @letter d _ _ h hc =>
      exact ⟨(d,i),List.mem_zipIdx_iff_getElem?.mpr hc,a,
        List.mem_map.mpr ⟨_,List.mem_filter.mpr ⟨h,by simp⟩,rfl⟩,rfl⟩
    | pair _ hleft hright =>
      have hl := hleft.bounds
      have hr := hright.bounds
      omega
  · rintro ⟨p,hp,b,hb,he⟩
    cases he
    obtain ⟨⟨d,_⟩,hq,rfl⟩ := List.mem_map.mp hb
    obtain ⟨hrule,hd⟩ := List.mem_filter.mp hq
    cases of_decide_eq_true hd
    exact ⟨Nat.le_refl _,.letter hrule (List.mem_zipIdx_iff_getElem?.mp hp)⟩

/-- A longer span is joined from two shorter ones. -/
theorem mem_spans_succ (hlen : 1 ≤ len) {a j : Nat} : ⟨a,i,j⟩ ∈ m.spans word (len + 1) ↔
    ⟨a,i,j⟩ ∈ m.spans word len ∨ ∃ x ∈ List.range (word.length + 1 - (len + 1)),
      ∃ r ∈ m.pairRules, ⟨a,i,j⟩ ∈ r.joins (m.spans word len) x (x + (len + 1)) := by
  constructor
  · rintro ⟨hle,hs⟩
    simp only at hle hs
    by_cases hshort : j ≤ i + len
    · exact Or.inl ⟨hshort,hs⟩
    · right
      have hj : j = i + (len + 1) := by omega
      have hbounds := hs.bounds
      cases hs with
      | letter => omega
      | pair hr hleft hright =>
        have hl := hleft.bounds
        have hr' := hright.bounds
        have hi : i ∈ List.range (word.length + 1 - (len + 1)) := List.mem_range.mpr (by omega)
        subst hj
        exact ⟨i,hi,_,hr,rfl,_,hl.1,hr'.1,⟨by simp only; omega,hleft⟩,⟨by simp only; omega,hright⟩⟩
  · rintro (⟨hle,hs⟩ | ⟨x,_,r,hr,he,mid,_,_,⟨_,hleft⟩,⟨_,hright⟩⟩)
    · exact ⟨Nat.le_succ_of_le hle,hs⟩
    · cases he
      exact ⟨Nat.le_refl _,.pair hr hleft hright⟩

section Filled
variable (hm : m.InRange)

include hm in
theorem shows_letters (word : List Char) :
    (m.letters word).Shows m.size word.length (m.spans word 1) := by
  have hblank := Chart.shows_blank m.size word.length
  have hround : ∀ p ∈ word.zipIdx, ∀ {c T}, ∅ ⊆ T → T ⊆ Set.univ →
      Chart.Shows c m.size word.length T →
        (m.fillLetter c p).Shows m.size word.length (T ∪ m.letterCells p) := by
    intro p hp c T _ _ h
    have hlt := List.snd_lt_of_mem_zipIdx hp
    exact shows_fillLetter hm (by omega) h
  have hloop := hblank.foldl hround (fun _ _ => Set.subset_univ _) subset_rfl (Set.subset_univ _)
  refine hloop.congr fun _ _ _ => ?_
  rw [mem_spans_one, Set.empty_union]
  rfl

section Rules
variable (hs : ∀ len i r, r ∈ s.order len i ↔ r ∈ m.pairRules)

include hm hs in
theorem shows_sweepLength_spans (hlen : 1 ≤ len)
    (h : c.Shows m.size word.length (m.spans word len)) :
    (sweepLength s c (len + 1)).Shows m.size word.length (m.spans word (len + 1)) :=
  (shows_sweepLength hm hs h).congr fun _ _ _ => (mem_spans_succ hlen).symm

include hm hs in
/-- After each length the chart shows the spans up to it, whatever the order of the rules. -/
theorem shows_sweep (word : List Char) (hlen : 1 ≤ len) :
    (m.sweep s word len).Shows m.size word.length (m.spans word len) := by
  obtain ⟨t,rfl⟩ := Nat.exists_eq_add_of_le' hlen
  rw [sweep, Nat.add_sub_cancel]
  induction t with
  | zero => exact shows_letters hm word
  | succ t ih =>
    rw [List.range'_1_concat, List.foldl_append]
    have hround := shows_sweepLength_spans hm hs (Nat.le_add_left 1 t) (ih (Nat.le_add_left 1 t))
    rw [Nat.add_comm 2 t]
    exact hround

end Rules

include hm in
theorem shows_chart (word : List Char) (hlen : 1 ≤ len) :
    (m.chart word len).Shows m.size word.length (m.spans word len) := by
  rw [chart_eq_sweep]
  exact shows_sweep hm (fun _ _ _ => Iff.rfl) word hlen

include hm in
/-- Every sweep over all rules ends with the same chart. -/
theorem sweep_eq_chart (hs : ∀ len i r, r ∈ s.order len i ↔ r ∈ m.pairRules) (word : List Char)
    (hlen : 1 ≤ len) : m.sweep s word len = m.chart word len :=
  (shows_sweep hm hs word hlen).unique (shows_chart hm word hlen)

end Filled

end Numbered

end WordProblem
