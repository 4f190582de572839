/-! # Ascending lists

A finite set over an ordered type is held as the strictly ascending list of its
members. Insertion keeps the order and never repeats a member, so two lists built
from the same members are the same list.
-/
namespace WordProblem.Ascending

variable {α : Type} [LT α] [DecidableLT α] [DecidableEq α]

/-- Puts `a` in its place; a member that is already there is not repeated. -/
def insert (a : α) : List α → List α
  | [] => [a]
  | b :: l => if a < b then a :: b :: l else if a = b then b :: l else b :: insert a l

/-- The members of `l` in ascending order, each once. -/
def ofList (l : List α) : List α := l.foldr insert []

@[simp] theorem mem_insert {a x : α} {l : List α} : x ∈ insert a l ↔ x = a ∨ x ∈ l := by
  induction l with
  | nil => simp [insert]
  | cons b l ih =>
    rw [insert]
    split
    · simp
    · split
      · next h => subst h; simp
      · simp [ih, or_left_comm]

@[simp] theorem mem_ofList {x : α} {l : List α} : x ∈ ofList l ↔ x ∈ l := by
  induction l with
  | nil => simp [ofList]
  | cons a l ih =>
    have h : ofList (a :: l) = insert a (ofList l) := rfl
    rw [h, mem_insert, ih, List.mem_cons]

end WordProblem.Ascending
