import Mathlib.Data.List.Infix
import WordProblem.Proofs.Description.Reload
import WordProblem.Proofs.Json.Comment

/-! # Documents with comments

Outside of its string literals a written document has only brackets, commas, colons and blanks, each
of which is a token or no token on its own. So comments may stand anywhere between them: the
document is read as it was written, and what looks like a comment in a literal is a part of it.
-/
namespace WordProblem

namespace Description.Document
open Json (Lexed Spells)

theorem lexed_blank {cs : List Char} (h : Lexed cs) : Lexed (' ' :: cs) :=
  .char (by decide) Spells.blank h

theorem lexed_indent (depth : Nat) : Lexed (indent depth) := by
  have hblanks : ∀ n, Lexed (List.replicate n ' ') := by
    intro n
    induction n with
    | zero => exact .nil
    | succ n ih => exact lexed_blank ih
  exact hblanks _

theorem lexed_line {cs : List Char} (depth : Nat) (h : Lexed cs) :
    Lexed ('\n' :: indent depth ++ cs) :=
  .char (by decide) Spells.line ((lexed_indent depth).append h)

theorem lexed_block {first last : Char} (hfirst : Lexed [first]) (hlast : Lexed [last])
    (depth : Nat) {items : List (List Char)} (h : ∀ i ∈ items, Lexed i) :
    Lexed (block first last depth items) := by
  unfold block
  split
  · exact hfirst.append hlast
  · have hlines : ∀ i ∈ items.map fun i => '\n' :: indent (depth + 1) ++ i, Lexed i := by
      intro line hline
      obtain ⟨i,hi,rfl⟩ := List.mem_map.mp hline
      exact lexed_line _ (h i hi)
    rw [List.append_assoc]
    exact (hfirst.append (Lexed.intercalate hlines)).append (lexed_line depth hlast)

theorem lexed_quote (cs : List Char) : Lexed (Json.quote cs) := by
  have hquote := Lexed.quote cs .nil
  rwa [List.append_nil] at hquote

theorem lexed_texts (cs : List (List Char)) : Lexed (texts cs) := by
  refine lexed_block (.char (by decide) (.char rfl rfl) .nil)
    (.char (by decide) (.char rfl rfl) .nil) 1 fun i hi => ?_
  obtain ⟨c,_,rfl⟩ := List.mem_map.mp hi
  exact lexed_quote c

theorem lexed_field (name : String) {value : List Char} (h : Lexed value) :
    Lexed (field name value) := by
  rw [field, List.append_assoc]
  exact .quote _ (.char (by decide) Spells.colon (lexed_blank h))

theorem lexed_write (d : Description) : Lexed (write d) := by
  refine (lexed_block (.char (by decide) (.char rfl rfl) .nil)
    (.char (by decide) (.char rfl rfl) .nil) 0 fun i hi => ?_).append (lexed_line 0 .nil)
  simp only [List.mem_append, List.mem_cons, List.mem_map, List.not_mem_nil, or_false] at hi
  obtain (((rfl | rfl) | ⟨c,_,rfl⟩) | rfl) | hi := hi
  · exact lexed_field _ (lexed_quote _)
  · exact lexed_field _ (lexed_quote _)
  · exact lexed_field _ (lexed_quote _)
  · exact lexed_field _ (lexed_texts _)
  · split at hi
    · cases hi
    · cases List.mem_singleton.mp hi
      exact lexed_field _ (lexed_texts _)

theorem read_commented {d : Description} {bytes : List UInt8}
    (h : Json.Commented (write d) bytes) : read bytes = .ok d := by
  rw [read, h.tokens (lexed_write d)]
  exact read_write d

end Description.Document

namespace Description

/-- Comments in the document of a grammar change nothing of what is loaded, and the strings of the
grammar are loaded as they are, also where they look like comments. -/
theorem load_commented {g : Grammar} {bytes : List UInt8} (h : Json.Commented g.document bytes)
    (name : String) :
    File.load ⟨name,.json,.ok bytes⟩ = File.load ⟨name,.json,.ok (Utf8.encode g.document)⟩ ∧
    File.load ⟨name,.json,.ok bytes⟩ = .ok (ofGrammar g) := by
  have hload : File.load ⟨name,.json,.ok bytes⟩ = .ok (ofGrammar g) := by
    rw [File.load, ofFile, Document.read_commented h]
    rfl
  refine ⟨hload.trans ?_,hload⟩
  rw [File.load, Grammar.ofFile_document]
  rfl

/-- A block comment with a quote, an opening, a byte that is in no character, and a star at its
end. -/
def remark : List UInt8 := [0x2F,0x2A,0x22,0x2F,0x2A,0xFF,0x2A,0x2A,0x2F]

/-- A line comment with a closing, a backslash and the first byte of a longer form. -/
def note : List UInt8 := [0x2F,0x2F,0x2A,0x2F,0x5C,0xC3,0x0A]

/-- The document of `Grammar.signs` with comments around its first brace and at its end. -/
def annotated : List UInt8 :=
  note ++ (Utf8.encodeChar '{' ++ (remark ++ (Utf8.encode Grammar.signs.document.tail ++ remark)))

theorem load_commented_signs : Json.Commented Grammar.signs.document annotated ∧
    File.load ⟨"signs",.json,.ok annotated⟩ = .ok (ofGrammar Grammar.signs) := by
  have hremark : Json.Comment remark :=
    show Json.Comment (_ ++ ([0x22,0x2F,0x2A,0xFF,0x2A] ++ _)) from .block (by decide)
  have hnote : Json.Comment note :=
    show Json.Comment (_ ++ ([0x2A,0x2F,0x5C,0xC3] ++ _)) from .line (by decide)
  have hdocument : Grammar.signs.document = '{' :: Grammar.signs.document.tail := rfl
  have hlexed : Json.Lexed Grammar.signs.document.tail := by
    have hall : Json.Lexed Grammar.signs.document := Document.lexed_write _
    rw [hdocument] at hall
    exact (hall.of_cons (by decide)).2
  have hrest := hlexed.commented (.comment hremark .nil)
  rw [List.append_nil, List.append_nil] at hrest
  have hc : Json.Commented Grammar.signs.document annotated := by
    rw [hdocument]
    exact .comment hnote (.char (by decide) (.comment hremark hrest))
  exact ⟨hc,(load_commented hc "signs").2⟩

end Description

end WordProblem
