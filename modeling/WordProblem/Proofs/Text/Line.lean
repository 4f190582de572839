import Mathlib.Data.List.DropRight
import WordProblem.Text.Blank

/-! # Lines and the blanks at their ends

The lines of a text are told by where they end: at a line feed, at a carriage return before a line
feed, or with the text. A line without the blanks at its end is a beginning of it that does not end
in a blank, with nothing but blanks after it. Both are unique, and they are what a text is cut into.
-/
namespace WordProblem.Text

variable {word core cs line : List Char} {ls : List (List Char)}

/-! ## Blanks at the end -/

/-- `core` is all of `word` but the blanks at its end. -/
structure Trims (word core : List Char) : Prop where
  blanks : ∃ blanks, word = core ++ blanks ∧ ∀ c ∈ blanks, isBlank c = true
  last : ∀ c ∈ core.getLast?, isBlank c = false

theorem trims_trimEnd (word : List Char) : Trims word (trimEnd word) where
  blanks := by
    refine ⟨word.rtakeWhile isBlank,List.rdropWhile_append_rtakeWhile.symm,?_⟩
    exact fun c hc => List.mem_rtakeWhile_imp hc
  last := by
    intro c hc
    obtain ⟨hne,rfl⟩ := List.mem_getLast?_eq_getLast hc
    exact Bool.eq_false_iff.mpr (List.rdropWhile_last_not isBlank word hne)

theorem trimEnd_append_blanks {blanks : List Char} (hb : ∀ c ∈ blanks, isBlank c = true)
    (core : List Char) : trimEnd (core ++ blanks) = trimEnd core := by
  rw [trimEnd, List.reverse_append, List.dropWhile_append_of_pos (by simpa using hb)]
  rfl

theorem Trims.eq (h : Trims word core) : trimEnd word = core := by
  obtain ⟨⟨blanks,rfl,hb⟩,hlast⟩ := h
  rw [trimEnd_append_blanks hb]
  refine List.rdropWhile_eq_self_iff.mpr fun hne => ?_
  rw [hlast _ (List.getLast_mem_getLast? hne)]
  exact Bool.false_ne_true

theorem trimEnd_eq_iff : trimEnd word = core ↔ Trims word core :=
  ⟨fun h => h ▸ trims_trimEnd word,Trims.eq⟩

/-! ## Lines -/

/-- The text is made of the lines. Each of them ends with a line feed, or with a carriage return and
a line feed. The last one may end with the text instead, and then it is not empty. -/
inductive Lined : List Char → List (List Char) → Prop
  | nil : Lined [] []
  | last {line : List Char} (hne : line ≠ []) (hf : '\n' ∉ line) : Lined line [line]
  | feed {line rest : List Char} {ls : List (List Char)} (hf : '\n' ∉ line)
    (hr : line.getLast? ≠ some '\r') (h : Lined rest ls) : Lined (line ++ '\n' :: rest) (line :: ls)
  | returnFeed {line rest : List Char} {ls : List (List Char)} (hf : '\n' ∉ line)
    (h : Lined rest ls) : Lined (line ++ '\r' :: '\n' :: rest) (line :: ls)

theorem splitOnP_of_no_feed (hf : '\n' ∉ line) : line.splitOnP (· = '\n') = [line] :=
  List.splitOnP_eq_singleton fun _ hc => decide_eq_false fun he => hf (he ▸ hc)

theorem lines_of_no_feed (hf : '\n' ∉ line) : lines line = [line].filter (!·.isEmpty) := by
  rw [lines, splitOnP_of_no_feed hf]
  rfl

theorem lines_append_feed (hf : '\n' ∉ line) (rest : List Char) :
    lines (line ++ '\n' :: rest) = dropReturn line :: lines rest := by
  have hpieces : (line ++ '\n' :: rest).splitOnP (· = '\n') =
      line :: rest.splitOnP (· = '\n') := by
    rw [List.splitOnP_append_cons line rest (by decide), splitOnP_of_no_feed hf]
    rfl
  have hne := List.splitOnP_ne_nil (· = '\n') rest
  rw [lines, lines, hpieces, List.dropLast_cons_of_ne_nil hne, List.getLast?_cons_of_ne_nil hne]
  rfl

theorem dropReturn_of_ne (hr : line.getLast? ≠ some '\r') : dropReturn line = line := if_neg hr

theorem dropReturn_append (line : List Char) : dropReturn (line ++ ['\r']) = line := by
  rw [dropReturn, if_pos List.getLast?_concat, List.dropLast_concat]

theorem Lined.eq (h : Lined cs ls) : lines cs = ls := by
  induction h with
  | nil => rfl
  | @last line hne hf => simp [lines_of_no_feed hf, hne]
  | feed hf hr _ ih => rw [lines_append_feed hf, dropReturn_of_ne hr, ih]
  | @returnFeed line rest ls hf _ ih =>
    have hfeed : '\n' ∉ line ++ ['\r'] := by simpa using hf
    rw [List.append_cons, lines_append_feed hfeed, dropReturn_append, ih]

/-- A line that a line feed ends, with or without a carriage return before it. -/
theorem Lined.cons {rest : List Char} (hf : '\n' ∉ line) (h : Lined rest ls) :
    Lined (line ++ '\n' :: rest) (dropReturn line :: ls) := by
  by_cases hr : line.getLast? = some '\r'
  · obtain ⟨front,rfl⟩ := List.getLast?_eq_some_iff.mp hr
    have hfront : '\n' ∉ front := fun hm => hf (List.mem_append_left _ hm)
    rw [dropReturn_append, List.append_assoc]
    exact .returnFeed hfront h
  · rw [dropReturn_of_ne hr]
    exact .feed hf hr h

theorem lined_lines (cs : List Char) : Lined cs (lines cs) := by
  -- by the length of the text, which is cut after its first line feed
  induction hn : cs.length using Nat.strong_induction_on generalizing cs with
  | _ n ih =>
    subst hn
    by_cases hfeed : '\n' ∈ cs
    · obtain ⟨line,rest,rfl,hf⟩ := List.eq_append_cons_of_mem hfeed
      have hlt : rest.length < (line ++ '\n' :: rest).length := by
        rw [List.length_append, List.length_cons]
        omega
      rw [lines_append_feed hf]
      exact .cons hf (ih _ hlt rest rfl)
    · rw [lines_of_no_feed hfeed]
      cases cs with
      | nil => exact .nil
      | cons c cs => exact .last (by simp) hfeed

theorem lines_eq_iff : lines cs = ls ↔ Lined cs ls := ⟨fun h => h ▸ lined_lines cs,Lined.eq⟩

end WordProblem.Text
