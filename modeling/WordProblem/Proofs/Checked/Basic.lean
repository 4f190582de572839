import WordProblem.Proofs.Ascending
import WordProblem.Normal.Fresh

/-! # Computations whose steps are checked

A look-up, a place in a list and the left side of a new rule are often taken for granted. Here each
of them is a step that may be undefined. A loop is defined if each of its rounds is, given what the
rounds before it keep.
-/
namespace WordProblem

/-- A computation that may come to an undefined step, to an error or to a value. -/
abbrev Checked := ExceptT NormalFormError Option

namespace Checked

variable {α β : Type}

/-- A computation without undefined steps. -/
def ofExcept (x : Except NormalFormError α) : Checked α := .mk (some x)

/-- A step without errors, which may be undefined. -/
def ofOption (x : Option α) : Checked α := .mk (x.map .ok)

/-- One computation after another is defined if each of them is. -/
theorem ofExcept_bind {x : Except NormalFormError α} {f : α → Except NormalFormError β}
    {k : α → Checked β} (h : ∀ a, x = .ok a → k a = ofExcept (f a)) :
    ofExcept x >>= k = ofExcept (x >>= f) := by
  cases x with
  | error e => rfl
  | ok a => exact h a rfl

theorem ofOption_bind {x : Option α} {a : α} (h : x = some a) (k : α → Checked β) :
    ofOption x >>= k = k a := by
  subst h
  rfl

theorem mapM_eq_some {f? : α → Option β} {f : α → β} {l : List α}
    (h : ∀ a ∈ l, f? a = some (f a)) : l.mapM f? = some (l.map f) := by
  induction l with
  | nil => rfl
  | cons a l ih =>
    rw [List.mapM_cons, h a List.mem_cons_self, ih fun b hb => h b (List.mem_cons_of_mem _ hb)]
    rfl

/-- A loop is defined if each of its rounds is, which may rely on what the rounds before it keep. -/
theorem foldlM_eq_some {P : β → Prop} {f? : β → α → Option β} {f : β → α → β} {l : List α}
    (hstep : ∀ b, P b → ∀ a ∈ l, f? b a = some (f b a) ∧ P (f b a)) {b : β} (hb : P b) :
    l.foldlM f? b = some (l.foldl f b) ∧ P (l.foldl f b) := by
  induction l generalizing b with
  | nil => exact ⟨rfl,hb⟩
  | cons a l ih =>
    obtain ⟨hfirst,hkeep⟩ := hstep b hb a List.mem_cons_self
    rw [List.foldlM_cons, hfirst]
    exact ih (fun b hb a ha => hstep b hb a (List.mem_cons_of_mem _ ha)) hkeep

/-! ## New rules -/

/-- Adds a rule, whose left side must be declared. -/
def insertRule (g : Grammar) (r : Rule) : Option Grammar :=
  if r.lhs ∈ g.nonterminals then some { g with rules := Ascending.insert r g.rules } else none

def insertAll (rules new : List Rule) : List Rule :=
  new.foldl (fun rules r => Ascending.insert r rules) rules

theorem insertAll_eq (rules new : List Rule) :
    insertAll rules new = new.reverse.foldr Ascending.insert rules := List.foldr_reverse.symm

theorem mem_insertAll {rules new : List Rule} {r : Rule} :
    r ∈ insertAll rules new ↔ r ∈ new ∨ r ∈ rules := by
  rw [insertAll_eq, Ascending.mem_foldr_insert, List.mem_reverse]

theorem pairwise_insertAll {rules : List Rule} (h : rules.Pairwise (· < ·)) (new : List Rule) :
    (insertAll rules new).Pairwise (· < ·) := by
  rw [insertAll_eq]
  exact Ascending.pairwise_foldr_insert _ h

theorem insertRules_eq {g : Grammar} {new : List Rule} (h : ∀ r ∈ new, r.lhs ∈ g.nonterminals) :
    new.foldlM insertRule g = some { g with rules := insertAll g.rules new } := by
  induction new generalizing g with
  | nil => rfl
  | cons r new ih =>
    obtain ⟨hr,hnew⟩ := List.forall_mem_cons.mp h
    rw [List.foldlM_cons, insertRule, if_pos hr]
    exact ih (g := { g with rules := Ascending.insert r g.rules }) hnew

end Checked

end WordProblem
