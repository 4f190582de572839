import Mathlib.Data.Set.Function
import Mathlib.Data.Set.Insert
import Mathlib.Order.Interval.Set.Defs
import WordProblem.Recognizer.Chart

/-! # Charts as sets of cells

No two cells share a position of the array, so a chart shows a set of cells and setting a cell
adds that cell alone. Every position belongs to a cell, so the set determines the chart. A loop that
sets cells adds the union of what its rounds add, provided that no round looks at what the others
have added.
-/
namespace WordProblem

/-- A non-terminal and a span. -/
structure Cell where
  symbol : Nat
  first : Nat
  last : Nat

/-- The cell belongs to one of `k` non-terminals and a span of a word of length `n`, and a span
is not empty. -/
def Cell.Within (k n : Nat) (x : Cell) : Prop := x.symbol < k ∧ x.first < x.last ∧ x.last ≤ n

instance (k n : Nat) (x : Cell) : Decidable (x.Within k n) :=
  inferInstanceAs (Decidable (_ ∧ _ ∧ _))

theorem Cell.Within.first_le {k n : Nat} {x : Cell} (h : x.Within k n) : x.first ≤ n :=
  h.2.1.le.trans h.2.2

namespace Chart

def position (n : Nat) (x : Cell) : Nat := index n x.symbol x.first x.last

def mark (c : Chart) (x : Cell) : Chart := c.set x.symbol x.first x.last

variable {c : Chart} {k n a b i j x y : Nat}

theorem eq_of_mul_add_eq {d p q r s : Nat} (hr : r < d) (hs : s < d)
    (h : p * d + r = q * d + s) : p = q ∧ r = s := by
  have hd : 0 < d := Nat.zero_lt_of_lt hr
  have hdiv := congrArg (· / d) h
  have hmod := congrArg (· % d) h
  simp only [Nat.mul_comm _ d, Nat.mul_add_div hd, Nat.div_eq_of_lt hr, Nat.div_eq_of_lt hs,
    Nat.mul_add_mod, Nat.mod_eq_of_lt hr, Nat.mod_eq_of_lt hs, Nat.add_zero] at hdiv hmod
  exact ⟨hdiv,hmod⟩

theorem index_inj (hi : i ≤ n) (hj : j ≤ n) (hx : x ≤ n) (hy : y ≤ n)
    (h : index n a i j = index n b x y) : a = b ∧ i = x ∧ j = y := by
  obtain ⟨hrow,hlast⟩ := eq_of_mul_add_eq (Nat.lt_succ_of_le hj) (Nat.lt_succ_of_le hy) h
  obtain ⟨hsymbol,hfirst⟩ := eq_of_mul_add_eq (Nat.lt_succ_of_le hi) (Nat.lt_succ_of_le hx) hrow
  exact ⟨hsymbol,hfirst,hlast⟩

theorem index_lt (ha : a < k) (hi : i ≤ n) (hj : j ≤ n) :
    index n a i j < k * (n + 1) * (n + 1) := by
  have hrow : a * (n + 1) + i < k * (n + 1) :=
    calc a * (n + 1) + i
      _ < (a + 1) * (n + 1) := by rw [Nat.succ_mul]; omega
      _ ≤ k * (n + 1) := Nat.mul_le_mul_right _ ha
  calc (a * (n + 1) + i) * (n + 1) + j
    _ < (a * (n + 1) + i + 1) * (n + 1) := by rw [Nat.succ_mul]; omega
    _ ≤ k * (n + 1) * (n + 1) := Nat.mul_le_mul_right _ hrow

theorem exists_index {p : Nat} (hp : p < k * (n + 1) * (n + 1)) :
    ∃ a i j, a < k ∧ i ≤ n ∧ j ≤ n ∧ index n a i j = p := by
  have hpos : 0 < n + 1 := Nat.succ_pos n
  have hrow : p / (n + 1) < k * (n + 1) := Nat.div_lt_of_lt_mul (by rwa [Nat.mul_comm])
  refine ⟨p / (n + 1) / (n + 1),p / (n + 1) % (n + 1),p % (n + 1),
    Nat.div_lt_of_lt_mul (by rwa [Nat.mul_comm]),Nat.le_of_lt_succ (Nat.mod_lt _ hpos),
    Nat.le_of_lt_succ (Nat.mod_lt _ hpos),?_⟩
  rw [index, Nat.div_add_mod', Nat.div_add_mod']

/-- Among `k` non-terminals and the spans of a word of length `n`, the set cells are those in `S`. -/
structure Shows (c : Chart) (k n : Nat) (S : Set Cell) : Prop where
  length_eq : c.length = n
  size_eq : c.cells.size = k * (n + 1) * (n + 1)
  get_iff : ∀ {a i j}, a < k → i ≤ n → j ≤ n → (c.get a i j = true ↔ ⟨a,i,j⟩ ∈ S)

theorem shows_blank (k n : Nat) : (blank k n).Shows k n ∅ where
  length_eq := rfl
  size_eq := Array.size_replicate
  get_iff ha hi hj := by
    simp [get, blank, Array.getD_eq_getD_getElem?, index_lt ha hi hj]

namespace Shows

variable {S T : Set Cell}

theorem congr (h : c.Shows k n S)
    (hST : ∀ {a i j}, a < k → i ≤ n → j ≤ n → (⟨a,i,j⟩ ∈ S ↔ ⟨a,i,j⟩ ∈ T)) : c.Shows k n T where
  length_eq := h.length_eq
  size_eq := h.size_eq
  get_iff ha hi hj := (h.get_iff ha hi hj).trans (hST ha hi hj)

theorem set (h : c.Shows k n S) (ha : a < k) (hi : i ≤ n) (hj : j ≤ n) :
    (c.set a i j).Shows k n (S ∪ {⟨a,i,j⟩}) where
  length_eq := h.length_eq
  size_eq := Array.size_setIfInBounds.trans h.size_eq
  get_iff {b x y} hb hx hy := by
    have hold := h.get_iff hb hx hy
    have hlt := index_lt ha hi hj
    rw [← h.size_eq] at hlt
    simp only [get, Chart.set, Array.getD_eq_getD_getElem?, h.length_eq] at hold ⊢
    rw [Set.mem_union, ← hold, Set.mem_singleton_iff, Cell.mk.injEq]
    by_cases hcell : index n a i j = index n b x y
    · obtain ⟨rfl,rfl,rfl⟩ := index_inj hi hj hx hy hcell
      simp [Array.getElem?_setIfInBounds_self_of_lt hlt]
    · have hne : ¬(b = a ∧ x = i ∧ y = j) := by
        rintro ⟨rfl,rfl,rfl⟩
        exact hcell rfl
      simp [Array.getElem?_setIfInBounds_ne hcell, hne]

/-- A loop adds what its rounds add. A round may rely on `S` being there already and on nothing
outside `U` being there yet. -/
theorem foldl {α : Type} {step : Chart → α → Chart} {es : List α} {P : α → Set Cell} {U : Set Cell}
    (hstep : ∀ e ∈ es, ∀ {c T}, S ⊆ T → T ⊆ U → c.Shows k n T → (step c e).Shows k n (T ∪ P e))
    (hP : ∀ e ∈ es, P e ⊆ U) (hST : S ⊆ T) (hTU : T ⊆ U) (h : c.Shows k n T) :
    (es.foldl step c).Shows k n (T ∪ {x | ∃ e ∈ es, x ∈ P e}) := by
  induction es generalizing c T with
  | nil => exact h.congr fun _ _ _ => by simp
  | cons e es ih =>
    have hfirst := hstep e List.mem_cons_self hST hTU h
    have hrest := ih (fun e he => hstep e (List.mem_cons_of_mem _ he))
      (fun e he => hP e (List.mem_cons_of_mem _ he)) (hST.trans Set.subset_union_left)
      (Set.union_subset hTU (hP e List.mem_cons_self)) hfirst
    refine hrest.congr fun _ _ _ => ?_
    simp [or_assoc]

/-- Two charts that show the same cells are the same. -/
theorem unique {d : Chart} (hc : c.Shows k n S) (hd : d.Shows k n S) : c = d := by
  obtain ⟨m,cells⟩ := c
  obtain ⟨l,others⟩ := d
  cases hc.length_eq
  cases hd.length_eq
  have hcells : cells = others := by
    refine Array.ext (hc.size_eq.trans hd.size_eq.symm) fun p hp hq => ?_
    obtain ⟨a,i,j,ha,hi,hj,rfl⟩ := exists_index (hp.trans_eq hc.size_eq)
    have hget := (hc.get_iff ha hi hj).trans (hd.get_iff ha hi hj).symm
    simpa [get, Array.getD_eq_getD_getElem?, hp, hq] using hget
  rw [hcells]

theorem marks {calls : List Cell} (hcalls : ∀ x ∈ calls, x.Within k n) (h : c.Shows k n S) :
    (calls.foldl mark c).Shows k n (S ∪ {x | x ∈ calls}) := by
  have hround : ∀ x ∈ calls, ∀ {c T}, S ⊆ T → T ⊆ Set.univ → Shows c k n T →
      (c.mark x).Shows k n (T ∪ {x}) := by
    intro x hx c T _ _ h
    have hx := hcalls x hx
    exact h.set hx.1 hx.first_le hx.2.2
  have hloop := h.foldl hround (fun _ _ => Set.subset_univ _) subset_rfl (Set.subset_univ _)
  refine hloop.congr fun _ _ _ => ?_
  simp

end Shows

/-- The cells of a word have positions of their own inside the array. Whatever cells are set, one
after another, these and no others are found set. -/
theorem cells_apart (k n : Nat) :
    Set.MapsTo (position n) {x | x.Within k n} (Set.Iio (k * (n + 1) * (n + 1))) ∧
    Set.InjOn (position n) {x | x.Within k n} ∧
    ∀ calls : List Cell, (∀ x ∈ calls, x.Within k n) → ∀ x : Cell, x.Within k n →
      ((calls.foldl mark (blank k n)).get x.symbol x.first x.last = true ↔ x ∈ calls) := by
  refine ⟨?_,?_,?_⟩
  · intro x hx
    exact index_lt hx.1 hx.first_le hx.2.2
  · intro x hx y hy heq
    obtain ⟨hsymbol,hfirst,hlast⟩ := index_inj hx.first_le hx.2.2 hy.first_le hy.2.2 heq
    cases x
    cases y
    simp_all
  · intro calls hcalls x hx
    have hget := ((shows_blank k n).marks hcalls).get_iff hx.1 hx.first_le hx.2.2
    simpa using hget

/-- The last cell of the last non-terminal and the first cell of the first one. -/
theorem cells_apart_corners : (∀ x ∈ [(⟨1,2,3⟩ : Cell),⟨0,0,1⟩,⟨1,2,3⟩], x.Within 2 3) ∧
    (⟨1,2,3⟩ : Cell).Within 2 3 ∧ (⟨1,0,1⟩ : Cell).Within 2 3 ∧
    ([(⟨1,2,3⟩ : Cell),⟨0,0,1⟩,⟨1,2,3⟩].foldl mark (blank 2 3)).get 1 2 3 = true ∧
    ¬([(⟨1,2,3⟩ : Cell),⟨0,0,1⟩,⟨1,2,3⟩].foldl mark (blank 2 3)).get 1 0 1 = true := by
  have hcalls : ∀ x ∈ [(⟨1,2,3⟩ : Cell),⟨0,0,1⟩,⟨1,2,3⟩], x.Within 2 3 := by decide
  have hlast : (⟨1,2,3⟩ : Cell).Within 2 3 := by decide
  have hother : (⟨1,0,1⟩ : Cell).Within 2 3 := by decide
  obtain ⟨_,_,hget⟩ := cells_apart 2 3
  refine ⟨hcalls,hlast,hother,(hget _ hcalls _ hlast).mpr (by simp),?_⟩
  exact mt (hget _ hcalls _ hother).mp (by simp)

end Chart

end WordProblem
