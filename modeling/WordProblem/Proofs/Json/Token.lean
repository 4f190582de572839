import Mathlib.Data.List.Forall2
import WordProblem.Json.Token
import WordProblem.Proofs.Text.Utf8

/-! # Texts and the tokens that they spell

Blanking comments and cutting tokens are one machine, which takes a piece in a zone and a mode at
a time. A text spells tokens if the machine, begun between two tokens and outside of strings,
completes them and stands there again. Spellings may be joined, and a quoted text spells itself,
whatever characters it has.
-/
namespace WordProblem.Json
open Utf8 (Piece)

/-- The tokens of what is left of a text, from a zone and a mode on. -/
def scan (z : Zone) (m : Mode) (ps : List Piece) : List Token :=
  tokensFrom (stripFrom z ps).2 m (stripFrom z ps).1

theorem tokens_eq_scan (bytes : List UInt8) :
    tokens bytes = scan .code .between (Utf8.decode bytes) := rfl

theorem scan_cons {z next : Zone} {p q : Piece} (h : z.step p = some (next,q)) (m : Mode)
    (ps : List Piece) : scan z m (p :: ps) = (m.move q).1 ++ scan next (m.move q).2 ps := by
  simp only [scan, stripFrom, h, tokensFrom]

/-! ## Literals -/

@[simp] theorem hexValue_hexDigit {n : Nat} (h : n < 16) : hexValue? (hexDigit n) = some n := by
  have hall : ∀ n < 16, hexValue? (hexDigit n) = some n := by decide
  exact hall n h

/-- Only a quote and a backslash have a meaning inside of a string. -/
theorem Zone.step_string {c : Char} (hquote : c ≠ '"') (hback : c ≠ '\\') :
    Zone.string.step (.char c) = some (.string,.char c) := by
  unfold Zone.step
  split <;> simp_all

section Inside
variable (l : Literal) (ps : List Piece)

theorem scan_plain {c : Char} (hquote : c ≠ '"') (hback : c ≠ '\\') (hcontrol : 0x20 ≤ c.toNat) :
    scan .string (.string l) (.char c :: ps) = scan .string (.string (l.char c)) ps := by
  have hmove : (Mode.string l).move (.char c) = ([],.string (l.char c)) := by
    simp [Mode.move, Mode.inString, hquote, hback, Nat.not_lt.mpr hcontrol]
  rw [scan_cons (Zone.step_string hquote hback), hmove, List.nil_append]

theorem scan_backslash (c : Char) : scan .string (.string l) (.char '\\' :: .char c :: ps) =
    (Mode.afterBackslash l c).1 ++ scan .string (Mode.afterBackslash l c).2 ps := by
  have hback : Zone.string.step (.char '\\') = some (.escape,.char '\\') := rfl
  have hnext : Zone.escape.step (.char c) = some (.string,.char c) := rfl
  rw [scan_cons hback]
  exact scan_cons hnext _ _

/-- An escape of two characters stands for the second one's meaning. -/
theorem scan_short_escape {c d : Char} (hu : c ≠ 'u') (hd : unescape? c = some d) :
    scan .string (.string l) (.char '\\' :: .char c :: ps) =
      scan .string (.string (l.char d)) ps := by
  rw [scan_backslash, Mode.afterBackslash, if_neg hu, hd]
  rfl

theorem hexDigit_plain {n : Nat} (h : n < 16) : hexDigit n ≠ '"' ∧ hexDigit n ≠ '\\' := by
  have hall : ∀ n < 16, hexDigit n ≠ '"' ∧ hexDigit n ≠ '\\' := by decide
  exact hall n h

theorem scan_hexDigit {d : Nat} (hd : d < 16) (u missing : Nat) :
    scan .string (.hex l u missing) (.char (hexDigit d) :: ps) =
      scan .string (if missing ≤ 1 then .string (l.unit (u * 16 + d))
        else .hex l (u * 16 + d) (missing - 1)) ps := by
  obtain ⟨hquote,hback⟩ := hexDigit_plain hd
  rw [scan_cons (Zone.step_string hquote hback), Mode.move, Mode.inHex, hexValue_hexDigit hd]
  rfl

theorem unit_of_lt {u : Nat} (h : u < 0xD800) : l.unit u = l.char (Char.ofNat u) := by
  rw [Literal.unit, if_neg (by omega), if_neg (by omega)]

theorem scan_long_escape {c : Char} (hc : c.toNat < 0x20) :
    scan .string (.string l) (.char '\\' :: .char 'u' :: .char '0' :: .char '0' ::
      .char (hexDigit (c.toNat / 16)) :: .char (hexDigit (c.toNat % 16)) :: ps) =
      scan .string (.string (l.char c)) ps := by
  have hcode : ((0 * 16 + 0) * 16 + 0) * 16 + c.toNat / 16 = c.toNat / 16 := by omega
  have hsplit : c.toNat / 16 * 16 + c.toNat % 16 = c.toNat := by omega
  have hzero : '0' = hexDigit 0 := rfl
  rw [scan_backslash, Mode.afterBackslash, if_pos rfl, List.nil_append, hzero,
    scan_hexDigit l _ (by omega), if_neg (by omega),
    scan_hexDigit l _ (by omega), if_neg (by omega),
    scan_hexDigit l _ (by omega), if_neg (by omega),
    scan_hexDigit l _ (by omega), if_pos (by omega),
    hcode, hsplit, unit_of_lt l (by omega), Char.ofNat_toNat]

/-- Whatever is written for a character is read as that character. -/
theorem scan_escape (c : Char) : scan .string (.string l) ((escape c).map .char ++ ps) =
    scan .string (.string (l.char c)) ps := by
  unfold escape
  split
  · next h => subst h; exact scan_short_escape l ps (by decide) rfl
  split
  · next h => subst h; exact scan_short_escape l ps (by decide) rfl
  split
  · next h => subst h; exact scan_short_escape l ps (by decide) rfl
  split
  · next h => subst h; exact scan_short_escape l ps (by decide) rfl
  split
  · next h => subst h; exact scan_short_escape l ps (by decide) rfl
  split
  · next h => subst h; exact scan_short_escape l ps (by decide) rfl
  split
  · next h => subst h; exact scan_short_escape l ps (by decide) rfl
  split
  · next h => exact scan_long_escape l ps h
  · next hquote hback _ _ _ _ _ hcontrol =>
    exact scan_plain l ps hquote hback (Nat.not_lt.mp hcontrol)

theorem scan_escapes (cs : List Char) :
    scan .string (.string l) ((cs.flatMap escape).map .char ++ ps) =
      scan .string (.string (cs.foldl Literal.char l)) ps := by
  induction cs generalizing l with
  | nil => rfl
  | cons c cs ih =>
    rw [List.flatMap_cons, List.map_append, List.append_assoc, scan_escape, ih, List.foldl_cons]

end Inside

/-- Characters alone never spoil a literal. -/
theorem content_foldl_char (cs : List Char) {l : Literal} (hsound : l.sound = true)
    (hhalf : l.half = none) :
    (cs.foldl Literal.char l).content? = some (l.reversed.reverse ++ cs) := by
  induction cs generalizing l with
  | nil => simp [Literal.content?, hsound, hhalf]
  | cons c cs ih =>
    have hnext := ih (l := l.char c) (by simp [Literal.char, hsound, hhalf]) rfl
    simpa [Literal.char] using hnext

/-! ## Spellings -/

/-- Outside of strings and between tokens, the text `cs` adds the tokens `ts`. -/
def Spells (cs : List Char) (ts : List Token) : Prop :=
  ∀ ps, scan .code .between (cs.map .char ++ ps) = ts ++ scan .code .between ps

namespace Spells

variable {cs ds : List Char} {ts us : List Token}

theorem nil : Spells [] [] := fun _ => rfl

theorem append (h : Spells cs ts) (k : Spells ds us) : Spells (cs ++ ds) (ts ++ us) := by
  intro ps
  rw [List.map_append, List.append_assoc, h, k, List.append_assoc]

/-- A character that begins no comment and completes its tokens at once. -/
theorem char {c : Char} (hzone : Zone.code.step (.char c) = some (.code,.char c))
    (hmove : Mode.first c = (ts,.between)) : Spells [c] ts := by
  intro ps
  rw [List.map_cons, List.map_nil, List.singleton_append, scan_cons hzone, Mode.move, hmove]

theorem blank : Spells [' '] [] := char rfl rfl

theorem line : Spells ['\n'] [] := char rfl rfl

theorem comma : Spells [','] [.comma] := char rfl rfl

theorem colon : Spells [':'] [.colon] := char rfl rfl

theorem blanks (n : Nat) : Spells (List.replicate n ' ') [] := by
  induction n with
  | zero => exact nil
  | succ n ih => exact blank.append ih

/-- A quoted text spells one string, also where it looks like a comment. -/
theorem quote (cs : List Char) : Spells (quote cs) [.string (some cs)] := by
  intro ps
  have hcontent : (cs.foldl Literal.char {}).content? = some cs := by
    simpa using content_foldl_char cs (l := {}) rfl rfl
  have henter : Zone.code.step (.char '"') = some (.string,.char '"') := rfl
  have hleave : Zone.string.step (.char '"') = some (.code,.char '"') := rfl
  have hend : scan .string (.string (cs.foldl Literal.char {})) (.char '"' :: ps) =
      [.string (some cs)] ++ scan .code .between ps := by
    rw [scan_cons hleave, Mode.move, Mode.inString, if_pos rfl, hcontent]
  rw [Json.quote, List.cons_append, List.map_cons, List.cons_append,
    scan_cons henter, Mode.move, List.map_append, List.append_assoc]
  exact (scan_escapes {} _ cs).trans hend

/-- Texts with commas between them spell their tokens with commas between them. -/
theorem intercalate {texts : List (List Char)} {tss : List (List Token)}
    (h : List.Forall₂ Spells texts tss) :
    Spells (List.intercalate [','] texts) (List.intercalate [.comma] tss) := by
  induction h with
  | nil => exact nil
  | cons hfirst hmore ih =>
    cases hmore with
    | nil => simpa using hfirst
    | cons =>
      rw [List.intercalate_cons_cons, List.intercalate_cons_cons]
      exact (hfirst.append comma).append ih

theorem tokens_encode (h : Spells cs ts) : tokens (Utf8.encode cs) = ts := by
  have hall := h []
  rw [List.append_nil] at hall
  rw [tokens_eq_scan, Utf8.decode_encode, hall]
  exact List.append_nil ts

end Spells

end WordProblem.Json
