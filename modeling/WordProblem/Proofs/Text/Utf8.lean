import WordProblem.Text.Utf8

/-! # Decoding undoes encoding

Each character has one form, whose first byte tells how many continuation bytes belong to it. Read
from there, the bits of the form are the code of the character, so a text of encoded characters is
decoded one character at a time and without stray bytes. No other bytes are: longer forms of a code
and codes of no character are refused, so bytes without stray ones are an encoded text.
-/
namespace WordProblem.Utf8

theorem toNat_ofNat {n : Nat} (h : n < 0x100) : (UInt8.ofNat n).toNat = n :=
  UInt8.toNat_ofNat_of_lt' h

theorem code_lt (c : Char) : c.toNat < 0x110000 := by
  have hvalid : c.toNat.isValidChar := c.valid
  unfold Nat.isValidChar at hvalid
  omega

theorem form_of_code {c : Char} {k least n : Nat} {bytes : List UInt8}
    (hcode : extend? k n bytes = some c.toNat) (hleast : least ≤ c.toNat) :
    form? k least n bytes = some (c,k) := by
  have hvalid : c.toNat.isValidChar := c.valid
  simp only [form?, hcode, Option.bind_eq_bind, Option.bind_some]
  rw [if_pos ⟨hleast,hvalid⟩, Char.ofNat_toNat]

/-- A continuation byte holds the six lowest bits that are still missing. -/
theorem extend_cons {k n m : Nat} {bytes : List UInt8} (hm : m < 0x40) :
    extend? (k + 1) n (.ofNat (0x80 + m) :: bytes) = extend? k (n * 0x40 + m) bytes := by
  have hbyte : (UInt8.ofNat (0x80 + m)).toNat = 0x80 + m := toNat_ofNat (by omega)
  rw [extend?, hbyte, if_pos (by omega), Nat.add_sub_cancel_left]

theorem leading_one {n : Nat} (h : n < 0x80) (bytes : List UInt8) :
    leading? (.ofNat n) bytes = form? 0 0 n bytes := by
  rw [leading?, toNat_ofNat (by omega), if_pos h]

theorem leading_two {n : Nat} (h : n < 0x20) (bytes : List UInt8) :
    leading? (.ofNat (0xC0 + n)) bytes = form? 1 0x80 n bytes := by
  rw [leading?, toNat_ofNat (by omega), if_neg (by omega), if_neg (by omega), if_pos (by omega),
    Nat.add_sub_cancel_left]

theorem leading_three {n : Nat} (h : n < 0x10) (bytes : List UInt8) :
    leading? (.ofNat (0xE0 + n)) bytes = form? 2 0x800 n bytes := by
  rw [leading?, toNat_ofNat (by omega), if_neg (by omega), if_neg (by omega), if_neg (by omega),
    if_pos (by omega), Nat.add_sub_cancel_left]

theorem leading_four {n : Nat} (h : n < 8) (bytes : List UInt8) :
    leading? (.ofNat (0xF0 + n)) bytes = form? 3 0x10000 n bytes := by
  rw [leading?, toNat_ofNat (by omega), if_neg (by omega), if_neg (by omega), if_neg (by omega),
    if_neg (by omega), if_pos (by omega), Nat.add_sub_cancel_left]

theorem decodeAfter_leading {b : UInt8} {bytes : List UInt8} {c : Char} (more : List UInt8)
    (h : leading? b (more ++ bytes) = some (c,more.length)) :
    decodeAfter 0 (b :: more ++ bytes) = .char c :: decodeAfter 0 bytes := by
  have hskip : ∀ more : List UInt8,
      decodeAfter more.length (more ++ bytes) = decodeAfter 0 bytes := by
    intro more
    induction more with
    | nil => rfl
    | cons b more ih => exact ih
  rw [List.cons_append, decodeAfter, h]
  exact congrArg _ (hskip more)

theorem decodeAfter_encodeChar (c : Char) (bytes : List UInt8) :
    decodeAfter 0 (encodeChar c ++ bytes) = .char c :: decodeAfter 0 bytes := by
  have hbound := code_lt c
  simp only [encodeChar]
  split
  · next h1 =>
    refine decodeAfter_leading [] ?_
    rw [leading_one h1]
    exact form_of_code rfl (Nat.zero_le _)
  split
  · next h1 h2 =>
    refine decodeAfter_leading [_] ?_
    rw [leading_two (by omega)]
    refine form_of_code ?_ (by omega)
    rw [List.cons_append, extend_cons (by omega), extend?, Option.some_inj]
    omega
  split
  · next h1 h2 h3 =>
    refine decodeAfter_leading [_,_] ?_
    rw [leading_three (by omega)]
    refine form_of_code ?_ (by omega)
    rw [List.cons_append, List.cons_append, extend_cons (by omega), extend_cons (by omega), extend?,
      Option.some_inj]
    omega
  · next h1 h2 h3 =>
    refine decodeAfter_leading [_,_,_] ?_
    rw [leading_four (by omega)]
    refine form_of_code ?_ (by omega)
    rw [List.cons_append, List.cons_append, List.cons_append, extend_cons (by omega),
      extend_cons (by omega), extend_cons (by omega), extend?, Option.some_inj]
    omega

theorem decode_encode (cs : List Char) : decode (encode cs) = cs.map .char := by
  have hfrom : ∀ cs : List Char, decodeAfter 0 (encode cs) = cs.map .char := by
    intro cs
    induction cs with
    | nil => rfl
    | cons c cs ih =>
      rw [encode, List.flatMap_cons, decodeAfter_encodeChar, List.map_cons]
      exact congrArg _ ih
  exact hfrom cs

/-! ## What can be decoded -/

theorem form_eq_some {k least n j : Nat} {bytes : List UInt8} {c : Char}
    (h : form? k least n bytes = some (c,j)) :
    j = k ∧ least ≤ c.toNat ∧ extend? k n bytes = some c.toNat := by
  obtain ⟨code,hcode,hc⟩ := Option.bind_eq_some_iff.mp h
  split at hc
  · next hvalid =>
    cases hc
    have hof : (Char.ofNat code).toNat = code := by
      rw [Char.ofNat, dif_pos hvalid.2]
      rfl
    rw [hof]
    exact ⟨rfl,hvalid.1,hcode⟩
  · cases hc

theorem exists_continuation {k n code : Nat} {bytes : List UInt8}
    (h : extend? (k + 1) n bytes = some code) :
    ∃ m < 0x40, ∃ rest, bytes = .ofNat (0x80 + m) :: rest ∧
      extend? k (n * 0x40 + m) rest = some code := by
  cases bytes with
  | nil => cases h
  | cons b rest =>
    rw [extend?] at h
    split at h
    · next hb =>
      have hbyte : b = .ofNat (0x80 + (b.toNat - 0x80)) := by
        rw [Nat.add_sub_cancel' hb.1, UInt8.ofNat_toNat]
      refine ⟨b.toNat - 0x80,by omega,rest,?_,h⟩
      rw [← hbyte]
    · cases h

/-- The bytes that a character is read from are those that it is written with. -/
theorem encodeChar_of_leading {b : UInt8} {bytes : List UInt8} {c : Char} {k : Nat}
    (h : leading? b bytes = some (c,k)) : b :: bytes.take k = encodeChar c := by
  have hbyte : ∀ n, b.toNat = n → b = .ofNat n := by
    rintro n rfl
    exact UInt8.ofNat_toNat.symm
  -- The least code of each form rules the shorter ones out, so `encodeChar` takes the same form.
  simp only [leading?] at h
  split at h
  · obtain ⟨rfl,_,hcode⟩ := form_eq_some h
    rw [extend?, Option.some_inj] at hcode
    rw [encodeChar, if_pos (by omega), List.take_zero, hbyte _ hcode]
  split at h
  · cases h
  split at h
  · obtain ⟨rfl,hleast,hcode⟩ := form_eq_some h
    obtain ⟨m,hm,_,rfl,hlast⟩ := exists_continuation hcode
    rw [extend?, Option.some_inj] at hlast
    rw [encodeChar, if_neg (by omega), if_pos (by omega), hbyte (0xC0 + c.toNat / 0x40) (by omega),
      show c.toNat % 0x40 = m by omega]
    rfl
  split at h
  · obtain ⟨rfl,hleast,hcode⟩ := form_eq_some h
    obtain ⟨m₁,hm₁,_,rfl,hmore⟩ := exists_continuation hcode
    obtain ⟨m₂,hm₂,_,rfl,hlast⟩ := exists_continuation hmore
    rw [extend?, Option.some_inj] at hlast
    rw [encodeChar, if_neg (by omega), if_neg (by omega), if_pos (by omega),
      hbyte (0xE0 + c.toNat / 0x1000) (by omega), show c.toNat / 0x40 % 0x40 = m₁ by omega,
      show c.toNat % 0x40 = m₂ by omega]
    rfl
  split at h
  · obtain ⟨rfl,hleast,hcode⟩ := form_eq_some h
    obtain ⟨m₁,hm₁,_,rfl,hmore⟩ := exists_continuation hcode
    obtain ⟨m₂,hm₂,_,rfl,hfurther⟩ := exists_continuation hmore
    obtain ⟨m₃,hm₃,_,rfl,hlast⟩ := exists_continuation hfurther
    rw [extend?, Option.some_inj] at hlast
    rw [encodeChar, if_neg (by omega), if_neg (by omega), if_neg (by omega),
      hbyte (0xF0 + c.toNat / 0x40000) (by omega), show c.toNat / 0x1000 % 0x40 = m₁ by omega,
      show c.toNat / 0x40 % 0x40 = m₂ by omega, show c.toNat % 0x40 = m₃ by omega]
    rfl
  · cases h

theorem encode_of_decodeAfter {k : Nat} {bytes : List UInt8} {cs : List Char}
    (h : (decodeAfter k bytes).mapM Piece.char? = some cs) : bytes.drop k = encode cs := by
  induction k, bytes using decodeAfter.induct generalizing cs with
  | case1 k =>
    cases h
    exact List.drop_nil
  | case2 k b bytes ih => exact ih h
  | case3 b bytes c k hc ih =>
    rw [decodeAfter, hc, List.mapM_cons] at h
    obtain ⟨_,hfirst,h⟩ := Option.bind_eq_some_iff.mp h
    obtain ⟨rest,hrest,h⟩ := Option.bind_eq_some_iff.mp h
    cases hfirst
    cases h
    have hc := encodeChar_of_leading hc
    rw [encode, List.flatMap_cons, ← hc]
    change b :: bytes = b :: (bytes.take k ++ encode rest)
    rw [← ih hrest, List.take_append_drop]
  | case4 b bytes hc ih =>
    rw [decodeAfter, hc, List.mapM_cons] at h
    cases h

/-- The bytes with a text are the encoded texts. -/
theorem decode_eq_some_iff {bytes : List UInt8} {cs : List Char} :
    decode? bytes = some cs ↔ bytes = encode cs := by
  constructor
  · intro h
    exact encode_of_decodeAfter h
  · rintro rfl
    rw [decode?, decode_encode]
    induction cs with
    | nil => rfl
    | cons c cs ih => rw [List.map_cons, List.mapM_cons, ih]; rfl

/-! ## Decoding in parts -/

/-- The bytes that a piece is read from. -/
def Piece.bytes : Piece → List UInt8
  | char c => encodeChar c
  | stray b => [b]

theorem bytes_decodeAfter (k : Nat) (bytes : List UInt8) :
    (decodeAfter k bytes).flatMap Piece.bytes = bytes.drop k := by
  induction k, bytes using decodeAfter.induct with
  | case1 k => exact List.drop_nil.symm
  | case2 k b bytes ih => exact ih
  | case3 b bytes c k hc ih =>
    rw [decodeAfter, hc, List.flatMap_cons, ih, Piece.bytes, ← encodeChar_of_leading hc]
    exact congrArg (b :: ·) (List.take_append_drop k bytes)
  | case4 b bytes hc ih =>
    rw [decodeAfter, hc, List.flatMap_cons, ih]
    rfl

theorem bytes_decode (bytes : List UInt8) : (decode bytes).flatMap Piece.bytes = bytes :=
  bytes_decodeAfter 0 bytes

/-- Characters that follow each other were bytes that follow each other. -/
theorem infix_of_decode {cs : List Char} {bytes : List UInt8} (h : cs.map .char <:+: decode bytes) :
    encode cs <:+: bytes := by
  obtain ⟨before,after,he⟩ := h
  refine ⟨before.flatMap Piece.bytes,after.flatMap Piece.bytes,?_⟩
  have hcs : (cs.map Piece.char).flatMap Piece.bytes = encode cs :=
    List.flatMap_map _ _ cs
  rw [← bytes_decode bytes, ← he, List.flatMap_append, List.flatMap_append, hcs]

section Parts
variable {b d : UInt8} {k n : Nat} {c : Char} {bytes more : List UInt8}

/-- No form goes on over a byte that is a character on its own. -/
theorem extend_append (hd : d.toNat < 0x80) :
    extend? k n (bytes ++ d :: more) = extend? k n bytes := by
  induction bytes generalizing k n with
  | nil =>
    cases k with
    | zero => rfl
    | succ k => exact if_neg (by omega)
  | cons b bytes ih =>
    cases k with
    | zero => rfl
    | succ k => rw [List.cons_append, extend?, extend?, ih]

theorem leading_append (hd : d.toNat < 0x80) :
    leading? b (bytes ++ d :: more) = leading? b bytes := by
  simp only [leading?, form?, extend_append hd]

theorem le_length_of_extend {code : Nat} (h : extend? k n bytes = some code) :
    k ≤ bytes.length := by
  induction k generalizing n bytes with
  | zero => exact Nat.zero_le _
  | succ k ih =>
    obtain ⟨_,_,rest,rfl,hrest⟩ := exists_continuation h
    exact Nat.succ_le_succ (ih hrest)

theorem le_length_of_leading (h : leading? b bytes = some (c,k)) : k ≤ bytes.length := by
  have hform : ∀ {j least n}, form? j least n bytes = some (c,k) → k ≤ bytes.length := by
    intro j least n h
    obtain ⟨rfl,_,hcode⟩ := form_eq_some h
    exact le_length_of_extend hcode
  simp only [leading?] at h
  split at h
  · exact hform h
  split at h
  · cases h
  split at h
  · exact hform h
  split at h
  · exact hform h
  split at h
  · exact hform h
  · cases h

theorem decodeAfter_append (hd : d.toNat < 0x80) (hk : k ≤ bytes.length) :
    decodeAfter k (bytes ++ d :: more) = decodeAfter k bytes ++ decode (d :: more) := by
  induction k, bytes using decodeAfter.induct with
  | case1 k =>
    cases Nat.le_zero.mp hk
    rfl
  | case2 k b bytes ih => exact ih (Nat.le_of_succ_le_succ hk)
  | case3 b bytes c k hc ih =>
    rw [List.cons_append, decodeAfter, leading_append hd, decodeAfter, hc]
    exact congrArg _ (ih (le_length_of_leading hc))
  | case4 b bytes hc ih =>
    rw [List.cons_append, decodeAfter, leading_append hd, decodeAfter, hc]
    exact congrArg _ (ih (Nat.zero_le _))

theorem decode_encode_append (cs : List Char) (bytes : List UInt8) :
    decode (encode cs ++ bytes) = cs.map .char ++ decode bytes := by
  induction cs with
  | nil => rfl
  | cons c cs ih =>
    rw [encode, List.flatMap_cons, List.append_assoc]
    exact (decodeAfter_encodeChar c _).trans (congrArg _ ih)

/-- What stands around a text that begins with a character of one byte is decoded on its own. -/
theorem decode_append_encode (hc : c.toNat < 0x80) (cs : List Char) (bytes more : List UInt8) :
    decode (bytes ++ (encode (c :: cs) ++ more)) =
      decode bytes ++ ((c :: cs).map .char ++ decode more) := by
  have hfirst : encodeChar c = [.ofNat c.toNat] := if_pos hc
  have hd : (UInt8.ofNat c.toNat).toNat < 0x80 := by rwa [toNat_ofNat (by omega)]
  rw [← decode_encode_append (c :: cs) more, encode, List.flatMap_cons, hfirst]
  exact decodeAfter_append hd (Nat.zero_le _)

end Parts

end WordProblem.Utf8
