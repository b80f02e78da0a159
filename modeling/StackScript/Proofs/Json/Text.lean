import StackScript.Json.Reader

/-!
Written strings are read back. Between its quotes a string has each character as itself or as an
escape, and no escape holds a bare quote: the text up to the closing quote is what was written
(`quotedFrom_encode`), and it stands for the characters it was written for (`decode?_encode`),
whichever they are.
-/

set_option autoImplicit false
set_option relaxedAutoImplicit false

namespace StackScript.Json

/-! ## What the escapes stand for -/

theorem hexDigit?_digitChar (digit : Nat) (h : digit < 16) :
    hexDigit? (Nat.digitChar digit) = some digit := by
  have hall : ∀ digit < 16, hexDigit? (Nat.digitChar digit) = some digit := by decide
  exact hall digit h

theorem units?_escape {mark c : Char} (h : escaped? mark = some c) (rest : List Char) :
    units? ('\\' :: mark :: rest) = (units? rest).map (c.toNat :: ·) := by
  rw [units?.eq_3 mark rest (by rintro _ _ _ _ _ rfl; cases h), h]
  cases units? rest <;> rfl

theorem units?_plain {c : Char} (hbackslash : c ≠ '\\') (hc : ¬c.toNat < 0x20)
    (rest : List Char) : units? (c :: rest) = (units? rest).map (c.toNat :: ·) := by
  rw [units?.eq_4 c rest (by grind) (by grind), if_neg (not_or.mpr ⟨hbackslash, hc⟩)]
  cases units? rest <;> rfl

theorem units?_encodeChar (c : Char) (rest : List Char) :
    units? (encodeChar c ++ rest) = (units? rest).map (c.toNat :: ·) := by
  unfold encodeChar
  split
  case h_8 hquote hbackslash _ _ _ _ _ =>
    split
    · next hlow =>
      have hhigh := hexDigit?_digitChar (c.toNat / 16) (by omega)
      have hrest := hexDigit?_digitChar (c.toNat % 16) (by omega)
      have hvalue : 256 * (16 * 0 + 0) + (16 * (c.toNat / 16) + c.toNat % 16) = c.toNat := by omega
      have hzero : hexDigit? '0' = some 0 := by decide
      simp only [List.cons_append, List.nil_append, units?, hzero, hhigh, hrest]
      simp only [Option.bind_eq_bind, Option.bind_some, hvalue]
      cases units? rest <;> rfl
    · next hlow => exact units?_plain hbackslash hlow rest
  all_goals exact units?_escape rfl rest

theorem units?_encode (content : List Char) :
    units? (encode content) = some (content.map Char.toNat) := by
  induction content with
  | nil => simp [encode, units?]
  | cons c rest ih =>
    rw [encode, List.flatMap_cons, units?_encodeChar, ← encode, ih]
    rfl

/-- No character is a half of one. -/
theorem isHalf_toNat (c : Char) : isHighHalf c.toNat = false ∧ isLowHalf c.toNat = false := by
  have hvalid : c.toNat < 0xd800 ∨ 0xdfff < c.toNat ∧ c.toNat < 0x110000 := c.valid
  simp only [isHighHalf, isLowHalf, Bool.and_eq_false_iff, decide_eq_false_iff_not]
  omega

theorem ofUnits?_toNat (content : List Char) :
    ofUnits? (content.map Char.toNat) = some content := by
  induction content with
  | nil => simp [ofUnits?]
  | cons c rest ih =>
    obtain ⟨hhigh, hlow⟩ := isHalf_toNat c
    cases rest with
    | nil => simp [ofUnits?, hhigh, hlow]
    | cons next others =>
      rw [List.map_cons] at ih
      rw [List.map_cons, List.map_cons, ofUnits?, hhigh, hlow, ih]
      simp

theorem decode?_encode (content : List Char) : decode? (encode content) = some content := by
  rw [decode?, units?_encode]
  exact ofUnits?_toNat content

theorem text?_ofText (content : String) : (ofText content).text? = some content := by
  simp [text?, ofText, decode?_encode]

/-! ## Up to the closing quote -/

theorem quotedFrom_plain {c : Char} (hquote : c ≠ '"') (hbackslash : c ≠ '\\')
    (done rest : List Char) : quotedFrom done (c :: rest) = quotedFrom (c :: done) rest :=
  quotedFrom.eq_4 done c rest hquote fun _ _ h ↦ absurd h hbackslash

/-- Neither a quote nor the mark of an escape. -/
theorem digitChar_plain (digit : Nat) (h : digit < 16) :
    Nat.digitChar digit ≠ '"' ∧ Nat.digitChar digit ≠ '\\' := by
  have hall : ∀ digit < 16, Nat.digitChar digit ≠ '"' ∧ Nat.digitChar digit ≠ '\\' := by decide
  exact hall digit h

theorem quotedFrom_encodeChar (done : List Char) (c : Char) (rest : List Char) :
    quotedFrom done (encodeChar c ++ rest) = quotedFrom ((encodeChar c).reverse ++ done) rest := by
  unfold encodeChar
  split
  case h_8 hquote hbackslash _ _ _ _ _ =>
    split
    · obtain ⟨hhigh, hhigh'⟩ := digitChar_plain (c.toNat / 16) (by omega)
      obtain ⟨hlow, hlow'⟩ := digitChar_plain (c.toNat % 16) (by omega)
      simp only [List.cons_append, List.nil_append, quotedFrom]
      rw [quotedFrom_plain (by decide) (by decide), quotedFrom_plain (by decide) (by decide),
        quotedFrom_plain hhigh hhigh', quotedFrom_plain hlow hlow']
      rfl
    · exact quotedFrom_plain hquote hbackslash done rest
  all_goals rfl

theorem quotedFrom_encode_append (done content rest : List Char) :
    quotedFrom done (encode content ++ rest) =
      quotedFrom ((encode content).reverse ++ done) rest := by
  induction content generalizing done with
  | nil => rfl
  | cons c others ih =>
    rw [encode, List.flatMap_cons, List.append_assoc, quotedFrom_encodeChar, ← encode, ih]
    simp

/-- A written string is read up to the quote that closes it. -/
theorem quotedFrom_encode (content rest : List Char) :
    quotedFrom [] (encode content ++ '"' :: rest) = some (encode content, rest) := by
  rw [quotedFrom_encode_append, List.append_nil, quotedFrom, List.reverse_reverse,
    units?_encode]
  rfl

end StackScript.Json
