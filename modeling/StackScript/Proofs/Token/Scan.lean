import StackScript.Program.Printer

/-!
Written tokens are read back. Behind the text of a token that can be written stands a space or the
end, so the longest token there is the token itself (`Token.Starts`), and the scan of a whole text
finds the tokens that it was made of (`Token.scan_written`).
-/

set_option autoImplicit false
set_option relaxedAutoImplicit false

namespace StackScript

namespace Token

/-- Nothing follows, or a space. -/
def Apart (rest : List Char) : Prop :=
  ∀ c, rest.head? = some c → c = ' '

section Runs

variable {p : Char → Bool} {cs rest : List Char}

theorem takeWhile_append_apart (hp : p ' ' = false) (hcs : ∀ c ∈ cs, p c) (hrest : Apart rest) :
    (cs ++ rest).takeWhile p = cs := by
  rw [List.takeWhile_append_of_pos hcs]
  cases rest with
  | nil => simp
  | cons c others =>
    obtain rfl := hrest c rfl
    simp [hp]

theorem dropWhile_append_apart (hp : p ' ' = false) (hcs : ∀ c ∈ cs, p c) (hrest : Apart rest) :
    (cs ++ rest).dropWhile p = rest := by
  rw [List.dropWhile_append_of_pos hcs]
  cases rest with
  | nil => rfl
  | cons c others =>
    obtain rfl := hrest c rfl
    simp [hp]

end Runs

theorem isSeparator_eq_false {p : Char → Bool} {c : Char} (hc : p c)
    (hp : [' ', '\t', '\n', '\r', '\x0c'].any p = false) : isSeparator c = false := by
  refine Bool.eq_false_iff.mpr fun hseparator ↦ ?_
  simp only [isSeparator, Bool.or_eq_true, beq_iff_eq] at hseparator
  rcases hseparator with (((rfl | rfl) | rfl) | rfl) | rfl <;> simp [hc] at hp

/-- Where the characters stand apart from what follows, the token is found first. -/
def Starts (token : Token) (chars : List Char) : Prop :=
  ∃ c cs, chars = c :: cs ∧ isSeparator c = false ∧
    ∀ rest, Apart rest → head c (cs ++ rest) = ⟨some token, chars, rest⟩

theorem starts_ofWord (word : String) (hword : word.toList.all isWordChar) (hne : word ≠ "") :
    (ofWord word).Starts word.toList := by
  cases hchars : word.toList with
  | nil => exact absurd (String.toList_eq_nil_iff.mp hchars) hne
  | cons c cs =>
    rw [hchars, List.all_cons, Bool.and_eq_true, List.all_eq_true] at hword
    refine ⟨c, cs, rfl, isSeparator_eq_false hword.1 (by decide), fun rest hrest ↦ ?_⟩
    rw [head, if_pos hword.1, takeWhile_append_apart (by decide) hword.2 hrest,
      dropWhile_append_apart (by decide) hword.2 hrest]
    simp only [← hchars, String.ofList_toList]

theorem ofWord_of_not_mem_keywords {name : String} (h : name ∉ keywords) :
    ofWord name = identifier name := by
  unfold ofWord
  split
  case h_8 => rfl
  all_goals exact absurd (by decide) h

theorem isWordChar_eq_false_of_isDigit {c : Char} (h : c.isDigit) : isWordChar c = false := by
  obtain ⟨hzero, hnine⟩ := Char.isDigit_iff_toNat.mp h
  refine Bool.eq_false_iff.mpr fun hword ↦ ?_
  rcases Bool.or_eq_true_iff.mp hword with halpha | hunderscore
  · rcases Bool.or_eq_true_iff.mp halpha with hupper | hlower
    · have hrange := of_decide_eq_true hupper
      exact absurd (Nat.le_trans hrange.1 hnine) (by decide)
    · have hrange := of_decide_eq_true (Bool.and_eq_true_iff.mp hlower).1
      exact absurd (Nat.le_trans hrange hnine) (by decide)
  · obtain rfl := eq_of_beq hunderscore
    exact absurd h (by decide)

theorem starts_ofDigits {digits : List Char} {token : Token} (hdigits : digits.all Char.isDigit)
    (hne : digits ≠ []) (htoken : ofDigits? digits = some token) : token.Starts digits := by
  cases digits with
  | nil => exact absurd rfl hne
  | cons c cs =>
    rw [List.all_cons, Bool.and_eq_true, List.all_eq_true] at hdigits
    refine ⟨c, cs, rfl, isSeparator_eq_false hdigits.1 (by decide), fun rest hrest ↦ ?_⟩
    rw [head, if_neg (by simp [isWordChar_eq_false_of_isDigit hdigits.1]), if_pos hdigits.1,
      takeWhile_append_apart (by decide) hdigits.2 hrest,
      dropWhile_append_apart (by decide) hdigits.2 hrest]
    simp only [htoken]

theorem ofDigits?_toDigits {value : Nat} (h : value < integerBound) :
    ofDigits? (Nat.toDigits 10 value) = some (integer (Int64.ofNat value)) := by
  have hvalue : decimalValue (Nat.toDigits 10 value) = value := Nat.ofDigitChars_ten_toDigits
  simp only [ofDigits?, hvalue, if_pos h]

theorem starts_integer {value : Int64} (h : 0 ≤ value) :
    (integer value).Starts (integer value).source.toList := by
  have hnonneg : 0 ≤ value.toInt := Int64.le_iff_toInt_le.mp h
  have hsource : (integer value).source.toList = Nat.toDigits 10 value.toNatClampNeg := by
    change (toString value.toInt).toList = _
    rw [Int.toString_eq_repr, Int.repr_eq_if, if_pos hnonneg, Int64.toNat_toInt,
      Nat.repr_eq_ofList_toDigits, String.toList_ofList]
  rw [hsource]
  refine starts_ofDigits ?_ Nat.toDigits_ne_nil ?_
  · exact List.all_eq_true.mpr fun c hc ↦ Nat.isDigit_of_mem_toDigits (by decide) (by decide) hc
  · rw [ofDigits?_toDigits value.toNatClampNeg_lt, Int64.ofNat_toNatClampNeg value h]

theorem starts_text {content : String} (h : '"' ∉ content.toList) :
    (text content).Starts (text content).source.toList := by
  refine ⟨'"', content.toList ++ ['"'], by simp [source], rfl, fun rest _ ↦ ?_⟩
  have hquote : ∀ c ∈ content.toList, (c != '"') = true := by
    intro c hc
    simp only [bne_iff_ne]
    rintro rfl
    exact h hc
  rw [head, if_neg (by decide), if_neg (by decide), if_pos rfl, headOfQuote, List.append_assoc,
    List.takeWhile_append_of_pos hquote, List.dropWhile_append_of_pos hquote]
  simp [source]

/-- A sign is found where no longer one starts. -/
theorem starts_sign {token : Token} {c : Char} {cs : List Char}
    (hsign : (isSeparator c || isWordChar c || c.isDigit || c == '"') = false)
    (hend : headOfSign c cs = ⟨some token, c :: cs, []⟩)
    (hspace : ∀ rest, headOfSign c (cs ++ ' ' :: rest) = ⟨some token, c :: cs, ' ' :: rest⟩) :
    token.Starts (c :: cs) := by
  simp only [Bool.or_eq_false_iff, beq_eq_false_iff_ne] at hsign
  obtain ⟨⟨⟨hseparator, hword⟩, hdigit⟩, hquote⟩ := hsign
  refine ⟨c, cs, rfl, hseparator, fun rest hrest ↦ ?_⟩
  rw [head, if_neg (Bool.eq_false_iff.mp hword), if_neg (Bool.eq_false_iff.mp hdigit),
    if_neg hquote]
  cases rest with
  | nil => rw [List.append_nil, hend]
  | cons d others =>
    obtain rfl := hrest d rfl
    exact hspace others

theorem starts_source {token : Token} (h : token.writable) :
    token.Starts token.source.toList := by
  cases token with
  | integer value => exact starts_integer (by simpa [writable] using h)
  | text content => exact starts_text (by simpa [writable] using h)
  | identifier name =>
    simp only [writable, isName, Bool.and_eq_true, bne_iff_ne, Bool.not_eq_true',
      List.contains_eq_mem, decide_eq_false_iff_not] at h
    have hstarts := starts_ofWord name h.1.2 h.1.1
    rwa [ofWord_of_not_mem_keywords h.2] at hstarts
  | fnKeyword => exact starts_ofWord "fn" (by decide) (by decide)
  | letKeyword => exact starts_ofWord "let" (by decide) (by decide)
  | trueKeyword => exact starts_ofWord "true" (by decide) (by decide)
  | falseKeyword => exact starts_ofWord "false" (by decide) (by decide)
  | ifKeyword => exact starts_ofWord "if" (by decide) (by decide)
  | elseKeyword => exact starts_ofWord "else" (by decide) (by decide)
  | returnKeyword => exact starts_ofWord "return" (by decide) (by decide)
  | _ => exact starts_sign (by decide) rfl fun _ ↦ rfl

/-! ### Whole texts -/

theorem scanFrom_space (offset : Nat) (done : List Lexeme) (rest : List Char) :
    scanFrom offset done (' ' :: rest) = scanFrom (offset + 1) done rest := by
  rw [scanFrom, if_pos (by decide)]
  rfl

theorem scanFrom_append_of_starts {token : Token} {chars : List Char} (h : token.Starts chars)
    (offset : Nat) (done : List Lexeme) (rest : List Char) (hrest : Apart rest) :
    ∃ stop, scanFrom offset done (chars ++ rest) =
      scanFrom stop (⟨token, offset, stop⟩ :: done) rest := by
  obtain ⟨c, cs, rfl, hseparator, hhead⟩ := h
  refine ⟨offset + byteLength (c :: cs), ?_⟩
  rw [List.cons_append, scanFrom, if_neg (Bool.eq_false_iff.mp hseparator), hhead rest hrest]

theorem toList_written_cons_cons (first second : Token) (others : List Token) :
    (written (first :: second :: others)).toList =
      first.source.toList ++ ' ' :: (written (second :: others)).toList := by
  simp [written]

theorem scanFrom_written {tokens : List Token} (h : ∀ token ∈ tokens, token.writable)
    (offset : Nat) (done : List Lexeme) :
    ∃ lexemes, scanFrom offset done (written tokens).toList = .ok (done.reverse ++ lexemes) ∧
      lexemes.map Lexeme.token = tokens := by
  induction tokens generalizing offset done with
  | nil => exact ⟨[], by simp [written, scanFrom], rfl⟩
  | cons first others ih =>
    obtain ⟨hfirst, hothers⟩ := List.forall_mem_cons.mp h
    have hstarts := starts_source hfirst
    cases others with
    | nil =>
      obtain ⟨stop, hstop⟩ := scanFrom_append_of_starts hstarts offset done [] (by simp [Apart])
      refine ⟨[⟨first, offset, stop⟩], ?_, rfl⟩
      rw [List.append_nil] at hstop
      simp [written, hstop, scanFrom]
    | cons second others =>
      obtain ⟨stop, hstop⟩ := scanFrom_append_of_starts hstarts offset done
        (' ' :: (written (second :: others)).toList) (by simp [Apart])
      obtain ⟨lexemes, hlexemes, hmap⟩ := ih hothers (stop + 1) (⟨first, offset, stop⟩ :: done)
      refine ⟨⟨first, offset, stop⟩ :: lexemes, ?_, by rw [List.map_cons, hmap]⟩
      rw [toList_written_cons_cons, hstop, scanFrom_space, hlexemes]
      simp

/-- Tokens that can be written are what their text is made of. -/
theorem scan_written {tokens : List Token} (h : ∀ token ∈ tokens, token.writable) :
    ∃ lexemes, scan (written tokens) = .ok lexemes ∧ lexemes.map Lexeme.token = tokens :=
  scanFrom_written h 0 []

end Token

end StackScript
