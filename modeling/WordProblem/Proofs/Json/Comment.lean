import WordProblem.Proofs.Json.Token

/-! # Texts with comments

A comment goes from its opening to the first closing after it, whatever bytes stand between them:
these are decoded on their own, for openings and closings are characters of one byte. Comments that
stand outside of string literals add no tokens to a text whose tokens are literals and single
characters. Where a literal ends is told by quotes and backslashes alone.
-/
namespace WordProblem.Json
open Utf8 (Piece decode encode encodeChar)

inductive Comment : List UInt8 → Prop
  | block {body : List UInt8} (h : ¬encode ['*','/'] <:+: body) :
    Comment (encode ['/','*'] ++ (body ++ encode ['*','/']))
  | line {body : List UInt8} (h : ¬encode ['\n'] <:+: body) :
    Comment (encode ['/','/'] ++ (body ++ encode ['\n']))

/-- What follows the opening quote of a string literal, up to the closing one. -/
inductive Closes : List Char → Prop
  | quote : Closes ['"']
  | plain {c : Char} {cs : List Char} (hquote : c ≠ '"') (hback : c ≠ '\\') (h : Closes cs) :
    Closes (c :: cs)
  | escape (c : Char) {cs : List Char} (h : Closes cs) : Closes ('\\' :: c :: cs)

/-- The text in UTF-8 with comments that were put into it outside of its string literals. -/
inductive Commented : List Char → List UInt8 → Prop
  | nil : Commented [] []
  | comment {cs : List Char} {inserted bytes : List UInt8} (hc : Comment inserted)
    (h : Commented cs bytes) : Commented cs (inserted ++ bytes)
  | char {c : Char} {cs : List Char} {bytes : List UInt8} (hc : c ≠ '"')
    (h : Commented cs bytes) : Commented (c :: cs) (encodeChar c ++ bytes)
  | literal {l cs : List Char} {bytes : List UInt8} (hl : Closes l) (h : Commented cs bytes) :
    Commented ('"' :: l ++ cs) (encode ('"' :: l) ++ bytes)

/-! ## Comments -/

section Hidden
variable {body : List Piece} (ps : List Piece)

theorem scan_hidden {z next : Zone} {p : Piece} (h : z.step p = some (next,Json.blank)) :
    scan z .between (p :: ps) = scan next .between ps :=
  scan_cons h .between ps

theorem Zone.step_block {p : Piece} (h : p ≠ .char '*') :
    Zone.block.step p = some (.block,Json.blank) := by
  unfold Zone.step
  split <;> simp_all

theorem Zone.step_star {p : Piece} (hstar : p ≠ .char '*') (hslash : p ≠ .char '/') :
    Zone.star.step p = some (.block,Json.blank) := by
  unfold Zone.step
  split <;> simp_all

theorem Zone.step_line {p : Piece} (h : p ≠ .char '\n') :
    Zone.line.step p = some (.line,Json.blank) := by
  unfold Zone.step
  split <;> simp_all

/-- A block comment is left at the first star before a slash, also where more stars stand there. -/
theorem scan_block (h : ¬[.char '*',.char '/'] <:+: body) :
    scan .block .between (body ++ .char '*' :: .char '/' :: ps) = scan .code .between ps ∧
    (body.head? ≠ some (.char '/') →
      scan .star .between (body ++ .char '*' :: .char '/' :: ps) = scan .code .between ps) := by
  induction body with
  | nil => exact ⟨rfl,fun _ => rfl⟩
  | cons p body ih =>
    obtain ⟨hblock,hstar⟩ := ih fun hi => h (hi.trans (List.suffix_cons p body).isInfix)
    by_cases hp : p = .char '*'
    · subst hp
      have hhead : body.head? ≠ some (.char '/') := by
        rintro he
        obtain ⟨body,rfl⟩ := List.head?_eq_some_iff.mp he
        exact h ⟨[],body,rfl⟩
      have hfrom : ∀ z : Zone, z.step (.char '*') = some (.star,Json.blank) →
          scan z .between (.char '*' :: (body ++ .char '*' :: .char '/' :: ps)) =
            scan .code .between ps := fun z hz => (scan_hidden _ hz).trans (hstar hhead)
      exact ⟨hfrom .block rfl,fun _ => hfrom .star rfl⟩
    · refine ⟨(scan_hidden _ (Zone.step_block hp)).trans hblock,fun hhead => ?_⟩
      have hslash : p ≠ .char '/' := fun he => hhead (congrArg some he)
      exact (scan_hidden _ (Zone.step_star hp hslash)).trans hblock

theorem scan_line (h : ¬[.char '\n'] <:+: body) :
    scan .line .between (body ++ .char '\n' :: ps) = scan .code .between ps := by
  induction body with
  | nil => rfl
  | cons p body ih =>
    have hp : p ≠ .char '\n' := fun he => h ⟨[],body,he ▸ rfl⟩
    exact (scan_hidden _ (Zone.step_line hp)).trans
      (ih fun hi => h (hi.trans (List.suffix_cons p body).isInfix))

end Hidden

/-- Between tokens a comment is as good as nothing. -/
theorem Comment.scan {inserted : List UInt8} (h : Comment inserted) (bytes : List UInt8) :
    scan .code .between (decode (inserted ++ bytes)) = scan .code .between (decode bytes) := by
  cases h with
  | @block body hbody =>
    rw [List.append_assoc, List.append_assoc, Utf8.decode_encode_append,
      Utf8.decode_append_encode (by decide)]
    exact (scan_block _ fun hi => hbody (Utf8.infix_of_decode hi)).1
  | @line body hbody =>
    rw [List.append_assoc, List.append_assoc, Utf8.decode_encode_append,
      Utf8.decode_append_encode (by decide)]
    exact scan_line _ fun hi => hbody (Utf8.infix_of_decode hi)

/-! ## Literals -/

theorem closes_escape (c : Char) {cs : List Char} (h : Closes cs) : Closes (escape c ++ cs) := by
  have hhex : ∀ {n cs}, n < 16 → Closes cs → Closes (hexDigit n :: cs) := fun hn hcs =>
    .plain (hexDigit_plain hn).1 (hexDigit_plain hn).2 hcs
  unfold escape
  split
  · exact .escape _ h
  split
  · exact .escape _ h
  split
  · exact .escape _ h
  split
  · exact .escape _ h
  split
  · exact .escape _ h
  split
  · exact .escape _ h
  split
  · exact .escape _ h
  split
  · next hcontrol =>
    exact .escape _ (.plain (by decide) (by decide) (.plain (by decide) (by decide)
      (hhex (by omega) (hhex (by omega) h))))
  · next hquote hback _ _ _ _ _ _ => exact .plain hquote hback h

theorem closes_quote (cs : List Char) : ∃ l, quote cs = '"' :: l ∧ Closes l := by
  have hl : Closes (cs.flatMap escape ++ ['"']) := by
    induction cs with
    | nil => exact .quote
    | cons c cs ih =>
      rw [List.flatMap_cons, List.append_assoc]
      exact closes_escape c ih
  exact ⟨_,rfl,hl⟩

/-- A literal has one end. -/
theorem Closes.unique {l m cs ds : List Char} (hl : Closes l) (hm : Closes m)
    (h : l ++ cs = m ++ ds) : l = m ∧ cs = ds := by
  induction hl generalizing m with
  | quote =>
    cases hm with
    | quote => exact ⟨rfl,(List.cons.inj h).2⟩
    | plain hquote => exact absurd (List.cons.inj h).1.symm hquote
    | escape => exact absurd (List.cons.inj h).1 (by decide)
  | plain hquote hback _ ih =>
    cases hm with
    | quote => exact absurd (List.cons.inj h).1 hquote
    | plain _ _ hm =>
      obtain ⟨rfl,rfl⟩ := ih hm (List.cons.inj h).2
      exact ⟨congrArg (· :: _) (List.cons.inj h).1,rfl⟩
    | escape => exact absurd (List.cons.inj h).1 hback
  | escape c _ ih =>
    cases hm with
    | quote => exact absurd (List.cons.inj h).1 (by decide)
    | plain _ hback => exact absurd (List.cons.inj h).1.symm hback
    | escape d hm =>
      have h := List.cons.inj (List.cons.inj h).2
      obtain ⟨rfl,rfl⟩ := ih hm h.2
      exact ⟨congrArg ('\\' :: · :: _) h.1,rfl⟩

/-! ## Texts of single characters and literals -/

/-- A text that is cut into tokens after each of its literals and each other character. -/
inductive Lexed : List Char → Prop
  | nil : Lexed []
  | char {c : Char} {ts : List Token} {cs : List Char} (hc : c ≠ '"') (hs : Spells [c] ts)
    (h : Lexed cs) : Lexed (c :: cs)
  | quote (s : List Char) {cs : List Char} (h : Lexed cs) : Lexed (Json.quote s ++ cs)

namespace Lexed

variable {cs ds : List Char} {bytes : List UInt8}

theorem append (h : Lexed cs) (k : Lexed ds) : Lexed (cs ++ ds) := by
  induction h with
  | nil => exact k
  | char hc hs _ ih => exact .char hc hs ih
  | quote s _ ih =>
    rw [List.append_assoc]
    exact .quote s ih

theorem of_cons {c : Char} (hc : c ≠ '"') (h : Lexed (c :: cs)) :
    (∃ ts, Spells [c] ts) ∧ Lexed cs := by
  generalize htext : c :: cs = text at h
  cases h with
  | nil => cases htext
  | char _ hs h =>
    cases htext
    exact ⟨⟨_,hs⟩,h⟩
  | quote s => exact absurd (List.cons.inj htext).1 hc

/-- What a text with a literal at its front goes on with. -/
theorem of_literal {l : List Char} (hl : Closes l) (h : Lexed ('"' :: l ++ cs)) :
    (∃ s, '"' :: l = Json.quote s) ∧ Lexed cs := by
  generalize htext : '"' :: l ++ cs = text at h
  cases h with
  | nil => cases htext
  | char hc => exact absurd (List.cons.inj htext).1.symm hc
  | quote s h =>
    obtain ⟨m,hs,hm⟩ := closes_quote s
    rw [hs] at htext
    obtain ⟨rfl,rfl⟩ := hl.unique hm (List.cons.inj htext).2
    exact ⟨⟨s,hs.symm⟩,h⟩

theorem intercalate {texts : List (List Char)} (h : ∀ t ∈ texts, Lexed t) :
    Lexed (List.intercalate [','] texts) := by
  induction texts with
  | nil => exact .nil
  | cons t texts ih =>
    obtain ⟨ht,hmore⟩ := List.forall_mem_cons.mp h
    cases texts with
    | nil => simpa using ht
    | cons u texts =>
      rw [List.intercalate_cons_cons]
      exact (ht.append (.char (by decide) Spells.comma .nil)).append (ih hmore)

/-- No comment has to be put in. -/
theorem commented (h : Lexed cs) (k : Commented ds bytes) :
    Commented (cs ++ ds) (encode cs ++ bytes) := by
  have hencode : ∀ cs ds, encode (cs ++ ds) = encode cs ++ encode ds := fun _ _ =>
    List.flatMap_append
  induction h with
  | nil => exact k
  | @char c _ cs hc _ _ ih =>
    rw [encode, List.flatMap_cons, List.append_assoc]
    exact .char hc ih
  | quote s _ ih =>
    obtain ⟨l,hs,hl⟩ := closes_quote s
    rw [hs, hencode, List.append_assoc, List.append_assoc]
    exact .literal hl ih

end Lexed

/-- Comments outside of literals are no tokens, and what stands in literals is no comment. -/
theorem Commented.scan {cs : List Char} {bytes : List UInt8} (h : Commented cs bytes)
    (hl : Lexed cs) : scan .code .between (decode bytes) = scan .code .between (cs.map .char) := by
  induction h with
  | nil => rfl
  | comment hc _ ih => rw [hc.scan, ih hl]
  | @char c cs bytes hc _ ih =>
    obtain ⟨⟨ts,hs⟩,hmore⟩ := hl.of_cons hc
    have hdecode : decode (encodeChar c ++ bytes) = .char c :: decode bytes :=
      Utf8.decodeAfter_encodeChar c bytes
    rw [hdecode]
    exact (hs _).trans ((congrArg _ (ih hmore)).trans (hs _).symm)
  | literal hl' _ ih =>
    obtain ⟨⟨s,hs⟩,hmore⟩ := hl.of_literal hl'
    rw [hs, Utf8.decode_encode_append, List.map_append, Spells.quote, Spells.quote, ih hmore]

theorem Commented.tokens {cs : List Char} {bytes : List UInt8} (h : Commented cs bytes)
    (hl : Lexed cs) : tokens bytes = tokens (encode cs) := by
  rw [tokens_eq_scan, h.scan hl, tokens_eq_scan, Utf8.decode_encode]

end WordProblem.Json
