import StackScript.Token.Pattern
import StackScript.Proofs.Token.Scan

/-!
The scan of a source tiles it by longest matches (`Token.scan_tiles`). What can match at a place is
decided by the first character there (`Token.Matches.cases`), so the head of a text is the longest
match, or there is none that is a token (`Token.right_head`). The tokens found up to a place do not
depend on what follows it (`Token.Tiles.scanFrom_front`): a longest match is still one where less
follows.
-/

set_option autoImplicit false
set_option relaxedAutoImplicit false

namespace StackScript

namespace Token

/-! ### Exact texts -/

/-- A character that is the first of a sign, if it is the first of a token at all. -/
def isOther (c : Char) : Bool :=
  !(isWordChar c || c.isDigit || c == '"')

theorem writable_of_mem_exact :
    ∀ entry ∈ exact, entry.2.writable ∧ entry.2.source = entry.1 := by decide

theorem class_of_mem_exact : ∀ entry ∈ exact,
    (entry.1.toList ≠ [] ∧ entry.1.toList.all isWordChar) ∨
      entry.1.toList.head?.any isOther := by decide

theorem ofWord_of_mem_exact : ∀ entry ∈ exact, entry.1.toList.all isWordChar →
    ofWord entry.1 = entry.2 := by decide

theorem mem_exact_of_mem_keywords : ∀ name ∈ keywords, ∃ entry ∈ exact, entry.1 = name := by decide

theorem starts_of_mem_exact {entry : String × Token} (h : entry ∈ exact) :
    entry.2.Starts entry.1.toList := by
  obtain ⟨hwritable, hsource⟩ := writable_of_mem_exact entry h
  rw [← hsource]
  exact starts_source hwritable

theorem head_of_isOther {c : Char} (h : isOther c) (cs : List Char) :
    head c cs = headOfSign c cs := by
  simp only [isOther, Bool.not_eq_true', Bool.or_eq_false_iff, beq_eq_false_iff_ne] at h
  obtain ⟨⟨hword, hdigit⟩, hquote⟩ := h
  rw [head, if_neg (Bool.eq_false_iff.mp hword), if_neg (Bool.eq_false_iff.mp hdigit),
    if_neg hquote]

/-- What matches a pattern is of one of four kinds, which its first character tells apart. -/
theorem Matches.cases {text : List Char} (h : Matches text) :
    IsWord text ∨ IsNumber text ∨ (∃ content, '"' ∉ content ∧ text = '"' :: content ++ ['"']) ∨
      ∃ c cs token, text = c :: cs ∧ isOther c ∧ headOfSign c cs = ⟨some token, c :: cs, []⟩ := by
  cases h with
  | @exact entry hentry =>
    rcases class_of_mem_exact entry hentry with ⟨hne, hword⟩ | hother
    · exact .inl ⟨hne, List.all_eq_true.mp hword⟩
    · obtain ⟨c, cs, htext, -, hhead⟩ := starts_of_mem_exact hentry
      rw [htext] at hother ⊢
      have hfound := hhead [] (by simp [Apart])
      rw [List.append_nil, head_of_isOther hother, htext] at hfound
      exact .inr (.inr (.inr ⟨c, cs, entry.2, rfl, hother, hfound⟩))
  | number hnumber => exact .inr (.inl hnumber)
  | quoted hcontent => exact .inr (.inr (.inl ⟨_, hcontent, rfl⟩))
  | word hword => exact .inl hword

section Kinds

variable {c : Char} {cs : List Char}

theorem isOther_eq_false_of_isWordChar (h : isWordChar c) : isOther c = false := by
  simp [isOther, h]

theorem isOther_eq_false_of_isDigit (h : c.isDigit) : isOther c = false := by
  simp [isOther, h]

theorem isWord_of_matches (hc : isWordChar c) (h : Matches (c :: cs)) :
    ∀ d ∈ c :: cs, isWordChar d := by
  rcases h.cases with ⟨-, hword⟩ | ⟨-, hnumber⟩ | ⟨content, -, htext⟩ | ⟨d, ds, _, htext, hd, -⟩
  · exact hword
  · have hdigit := isWordChar_eq_false_of_isDigit (hnumber c List.mem_cons_self)
    rw [hc] at hdigit
    cases hdigit
  · cases htext
    exact absurd hc (by decide)
  · cases htext
    rw [isOther_eq_false_of_isWordChar hc] at hd
    cases hd

theorem isNumber_of_matches (hc : c.isDigit) (h : Matches (c :: cs)) :
    ∀ d ∈ c :: cs, d.isDigit := by
  rcases h.cases with ⟨-, hword⟩ | ⟨-, hnumber⟩ | ⟨content, -, htext⟩ | ⟨d, ds, _, htext, hd, -⟩
  · have hdigit := isWordChar_eq_false_of_isDigit hc
    rw [hword c List.mem_cons_self] at hdigit
    cases hdigit
  · exact hnumber
  · cases htext
    exact absurd hc (by decide)
  · cases htext
    rw [isOther_eq_false_of_isDigit hc] at hd
    cases hd

theorem quoted_of_matches (h : Matches ('"' :: cs)) :
    ∃ content, '"' ∉ content ∧ cs = content ++ ['"'] := by
  rcases h.cases with ⟨-, hword⟩ | ⟨-, hnumber⟩ | ⟨content, hcontent, htext⟩ |
    ⟨d, ds, _, htext, hd, -⟩
  · exact absurd (hword _ List.mem_cons_self) (by decide)
  · exact absurd (hnumber _ List.mem_cons_self) (by decide)
  · exact ⟨content, hcontent, (List.cons.inj htext).2⟩
  · cases htext
    exact absurd hd (by decide)

theorem sign_of_matches (hc : isOther c) (h : Matches (c :: cs)) :
    ∃ token, headOfSign c cs = ⟨some token, c :: cs, []⟩ := by
  rcases h.cases with ⟨-, hword⟩ | ⟨-, hnumber⟩ | ⟨content, -, htext⟩ |
    ⟨d, ds, token, htext, -, hhead⟩
  · rw [isOther_eq_false_of_isWordChar (hword c List.mem_cons_self)] at hc
    cases hc
  · rw [isOther_eq_false_of_isDigit (hnumber c List.mem_cons_self)] at hc
    cases hc
  · cases htext
    exact absurd hc (by decide)
  · cases htext
    exact ⟨token, hhead⟩

end Kinds

/-! ### The head of a text -/

section Heads

variable {c : Char} {cs taken other text : List Char}

theorem Matches.ne_nil (h : Matches text) : text ≠ [] := by
  rcases h.cases with hword | hnumber | ⟨content, -, rfl⟩ | ⟨c, cs, _, rfl, -⟩
  · exact hword.1
  · exact hnumber.1
  · exact List.cons_ne_nil _ _
  · exact List.cons_ne_nil _ _

theorem forall_mem_takeWhile {p : Char → Bool} (cs : List Char) : ∀ c ∈ cs.takeWhile p, p c :=
  List.all_eq_true.mp List.all_takeWhile

/-- Where all that matches is made of certain characters, the longest match is the run of them. -/
theorem longest_takeWhile {p : Char → Bool}
    (hall : ∀ others, Matches (c :: others) → ∀ d ∈ c :: others, p d)
    (hmatched : Matches (c :: cs.takeWhile p)) : Longest (c :: cs.takeWhile p) (c :: cs) := by
  refine ⟨?_, hmatched, fun other hother hmatches ↦ ?_⟩
  · exact (List.prefix_cons_inj c).mpr (List.takeWhile_prefix p)
  · rcases List.prefix_cons_iff.mp hother with rfl | ⟨others, rfl, rest, rfl⟩
    · exact absurd rfl hmatches.ne_nil
    · have hothers := (List.forall_mem_cons.mp (hall others hmatches)).2
      rw [List.takeWhile_append_of_pos hothers]
      simp

theorem not_mem_keywords (h : ∀ entry ∈ exact, entry.1.toList ≠ text) :
    String.ofList text ∉ keywords := by
  intro hmem
  obtain ⟨entry, hentry, hname⟩ := mem_exact_of_mem_keywords _ hmem
  exact h entry hentry (by rw [hname, String.toList_ofList])

theorem denotes_ofWord (hword : IsWord text) : Denotes text (ofWord (String.ofList text)) := by
  by_cases hexact : ∃ entry ∈ exact, entry.1.toList = text
  · obtain ⟨entry, hentry, rfl⟩ := hexact
    rw [String.ofList_toList, ofWord_of_mem_exact entry hentry (List.all_eq_true.mpr hword.2)]
    exact .exact hentry
  · have hnone : ∀ entry ∈ exact, entry.1.toList ≠ text := fun entry hentry htext ↦
      hexact ⟨entry, hentry, htext⟩
    rw [ofWord_of_not_mem_keywords (not_mem_keywords hnone)]
    exact .word hword hnone

theorem Denotes.matches {token : Token} (h : Denotes text token) : Matches text := by
  cases h with
  | exact hentry => exact .exact hentry
  | number hnumber => exact .number hnumber
  | quoted hcontent => exact .quoted hcontent
  | word hword => exact .word hword

/-- A head is the longest match and its token, or no token can start there. -/
def Head.Right (found : Head) (text : List Char) : Prop :=
  match found.token with
  | some token => Longest found.taken text ∧ Denotes found.taken token
  | none => Stuck text

theorem right_of_isWordChar (hc : isWordChar c) : (head c cs).Right (c :: cs) := by
  have hword : IsWord (c :: cs.takeWhile isWordChar) :=
    ⟨List.cons_ne_nil _ _, List.forall_mem_cons.mpr ⟨hc, forall_mem_takeWhile cs⟩⟩
  rw [head, if_pos hc]
  exact ⟨longest_takeWhile (fun _ ↦ isWord_of_matches hc) (.word hword), denotes_ofWord hword⟩

theorem token_head_of_isDigit (hc : c.isDigit) :
    (head c cs).token = ofDigits? (head c cs).taken := by
  rw [head, if_neg (by simp [isWordChar_eq_false_of_isDigit hc]), if_pos hc]

theorem right_of_isDigit (hc : c.isDigit) : (head c cs).Right (c :: cs) := by
  have hnumber : IsNumber (c :: cs.takeWhile Char.isDigit) :=
    ⟨List.cons_ne_nil _ _, List.forall_mem_cons.mpr ⟨hc, forall_mem_takeWhile cs⟩⟩
  have hlongest := longest_takeWhile (fun _ ↦ isNumber_of_matches hc) (.number hnumber)
  rw [head, if_neg (by simp [isWordChar_eq_false_of_isDigit hc]), if_pos hc]
  unfold Head.Right
  by_cases hvalue : decimalValue (c :: cs.takeWhile Char.isDigit) < integerBound
  · simp only [ofDigits?, if_pos hvalue]
    exact ⟨hlongest, .number hnumber (Int64.toInt_ofNat_of_lt hvalue)⟩
  · simp only [ofDigits?, if_neg hvalue]
    exact .inr ⟨_, hlongest, hnumber, Nat.le_of_not_lt hvalue⟩

/-- A string ends at the first quote behind the opening one. -/
theorem eq_of_quoted_append {content : List Char} (more : List Char) (h : '"' ∉ content) :
    (content ++ '"' :: more).takeWhile (· != '"') = content ∧
      (content ++ '"' :: more).dropWhile (· != '"') = '"' :: more := by
  have hcontent : ∀ c ∈ content, (c != '"') = true := by
    intro c hc
    rw [bne_iff_ne]
    rintro rfl
    exact h hc
  rw [List.takeWhile_append_of_pos hcontent, List.dropWhile_append_of_pos hcontent]
  simp

theorem right_headOfQuote (cs : List Char) : (headOfQuote cs).Right ('"' :: cs) := by
  have hmatch : ∀ other, other <+: '"' :: cs → Matches other →
      ∃ more, cs.dropWhile (· != '"') = '"' :: more ∧
        other = '"' :: cs.takeWhile (· != '"') ++ ['"'] := by
    intro other hother hmatches
    rcases List.prefix_cons_iff.mp hother with rfl | ⟨others, rfl, rest, rfl⟩
    · exact absurd rfl hmatches.ne_nil
    · obtain ⟨content, hcontent, rfl⟩ := quoted_of_matches hmatches
      have hends := eq_of_quoted_append rest hcontent
      rw [List.append_assoc, List.singleton_append, hends.1, hends.2]
      exact ⟨rest, rfl, rfl⟩
  cases hdrop : cs.dropWhile (· != '"') with
  | nil =>
    have hfound : headOfQuote cs = ⟨none, '"' :: cs.takeWhile (· != '"'), []⟩ := by
      simp only [headOfQuote, hdrop]
    rw [hfound]
    refine .inl fun other hother hmatches ↦ ?_
    obtain ⟨more, hmore, -⟩ := hmatch other hother hmatches
    rw [hdrop] at hmore
    cases hmore
  | cons quote rest =>
    have hquote : quote = '"' := by
      have hhead := List.head?_dropWhile_not (· != '"') cs
      rw [hdrop, List.head?_cons] at hhead
      simpa using hhead
    have hfound : headOfQuote cs = ⟨some (Token.text (String.ofList (cs.takeWhile (· != '"')))),
        '"' :: cs.takeWhile (· != '"') ++ ['"'], rest⟩ := by
      simp only [headOfQuote, hdrop, hquote]
    have hcontent : '"' ∉ cs.takeWhile (· != '"') := fun hmem ↦ by
      simpa using forall_mem_takeWhile cs _ hmem
    have hwhole := List.takeWhile_append_dropWhile (p := (· != '"')) (l := cs)
    rw [hdrop, hquote] at hwhole
    rw [hfound]
    refine ⟨⟨⟨rest, ?_⟩, .quoted hcontent, fun other hother hmatches ↦ ?_⟩, .quoted hcontent⟩
    · rw [List.append_assoc, List.singleton_append, List.cons_append, hwhole]
    · obtain ⟨more, -, rfl⟩ := hmatch other hother hmatches
      exact Nat.le_refl _

theorem denotes_exact (text : String) {token : Token} (h : (text, token) ∈ exact) :
    Denotes text.toList token :=
  .exact h

theorem denotes_ofSign {token : Token} (h : ofSign? c = some token) : Denotes [c] token := by
  have hmem : ∀ text : String, text.toList = [c] → (text, token) ∈ exact → Denotes [c] token := by
    intro text htext hentry
    rw [← htext]
    exact .exact hentry
  unfold ofSign? at h
  split at h
  case h_16 => cases h
  all_goals
    cases h
    exact hmem (String.ofList [_]) String.toList_ofList (by decide)

/-- What a sign and the text behind it come to. -/
theorem denotes_headOfSign {token : Token} :
    (headOfSign c cs).token = some token → Denotes (headOfSign c cs).taken token := by
  fun_cases headOfSign c cs with
  | case1 cs =>
    rintro ⟨⟩
    exact denotes_exact "==" (by decide)
  | case2 cs =>
    rintro ⟨⟩
    exact denotes_exact "=" (by decide)
  | case3 cs =>
    rintro ⟨⟩
    exact denotes_exact "!=" (by decide)
  | case4 cs =>
    rintro ⟨⟩
    exact denotes_exact "!" (by decide)
  | case5 => exact denotes_ofSign

theorem headOfSign_of_ne (hequal : c ≠ '=') (hbang : c ≠ '!') (cs : List Char) :
    headOfSign c cs = ⟨ofSign? c, [c], cs⟩ := by
  fun_cases headOfSign c cs with
  | case1 => exact absurd rfl hequal
  | case2 => exact absurd rfl hequal
  | case3 => exact absurd rfl hbang
  | case4 => exact absurd rfl hbang
  | case5 => rfl

/-- Where a sign stands alone, the head of the text is a sign, whatever follows. -/
theorem headOfSign_isSome {token : Token} (rest : List Char)
    (h : headOfSign c [] = ⟨some token, [c], []⟩) :
    ∃ found, (headOfSign c rest).token = some found ∧ 0 < (headOfSign c rest).taken.length := by
  fun_cases headOfSign c rest with
  | case1 => exact ⟨_, rfl, Nat.succ_pos _⟩
  | case2 => exact ⟨_, rfl, Nat.succ_pos _⟩
  | case3 => exact ⟨_, rfl, Nat.succ_pos _⟩
  | case4 => exact ⟨_, rfl, Nat.succ_pos _⟩
  | case5 _ _ _ hequal _ hbang =>
    rw [headOfSign_of_ne hequal hbang] at h
    exact ⟨token, (Head.mk.inj h).1, Nat.succ_pos _⟩

/-- A sign is no longer than the head of a text that begins with it. -/
theorem headOfSign_of_append {others : List Char} {token : Token} (rest : List Char) :
    headOfSign c others = ⟨some token, c :: others, []⟩ →
    ∃ found, (headOfSign c (others ++ rest)).token = some found ∧
      others.length < (headOfSign c (others ++ rest)).taken.length := by
  fun_cases headOfSign c others with
  | case1 cs =>
    rintro ⟨⟩
    exact ⟨equal, rfl, Nat.le_refl _⟩
  | case2 cs =>
    rintro ⟨⟩
    exact headOfSign_isSome rest rfl
  | case3 cs =>
    rintro ⟨⟩
    exact ⟨notEqual, rfl, Nat.le_refl _⟩
  | case4 cs =>
    rintro ⟨⟩
    exact headOfSign_isSome rest rfl
  | case5 _ _ _ hequal _ hbang =>
    intro h
    obtain ⟨htoken, -, rfl⟩ := Head.mk.inj h
    exact headOfSign_isSome rest (by rw [headOfSign_of_ne hequal hbang, htoken])

theorem right_of_isOther (hc : isOther c) : (headOfSign c cs).Right (c :: cs) := by
  have hmatch : ∀ other, other <+: c :: cs → Matches other →
      ∃ found, (headOfSign c cs).token = some found ∧
        other.length ≤ (headOfSign c cs).taken.length := by
    intro other hother hmatches
    rcases List.prefix_cons_iff.mp hother with rfl | ⟨others, rfl, rest, rfl⟩
    · exact absurd rfl hmatches.ne_nil
    · obtain ⟨token, hsign⟩ := sign_of_matches hc hmatches
      exact headOfSign_of_append rest hsign
  unfold Head.Right
  split
  · next token htoken =>
    have hdenotes := denotes_headOfSign htoken
    refine ⟨⟨⟨_, taken_append_rest_headOfSign c cs⟩, hdenotes.matches, ?_⟩, hdenotes⟩
    intro other hother hmatches
    obtain ⟨_, -, hlength⟩ := hmatch other hother hmatches
    exact hlength
  · next hnone =>
    refine .inl fun other hother hmatches ↦ ?_
    obtain ⟨found, hfound, -⟩ := hmatch other hother hmatches
    rw [hnone] at hfound
    cases hfound

/-- The head of a text is the longest match there, or there is none that is a token. -/
theorem right_head (c : Char) (cs : List Char) : (head c cs).Right (c :: cs) := by
  by_cases hword : isWordChar c
  · exact right_of_isWordChar hword
  by_cases hdigit : c.isDigit
  · exact right_of_isDigit hdigit
  by_cases hquote : c = '"'
  · subst hquote
    exact right_headOfQuote cs
  · have hother : isOther c := by simp [isOther, hword, hdigit, hquote]
    rw [head_of_isOther hother]
    exact right_of_isOther hother

end Heads

/-! ### Longest matches -/

section Longest

variable {first second taken text rest : List Char} {token other : Token}

theorem Longest.unique (hfirst : Longest first text) (hsecond : Longest second text) :
    first = second := by
  have hle := hsecond.longest first hfirst.head hfirst.matched
  have hge := hfirst.longest second hsecond.head hsecond.matched
  exact (List.prefix_of_prefix_length_le hfirst.head hsecond.head hle).eq_of_length
    (Nat.le_antisymm hle hge)

/-- A longest match stays one where less follows it. -/
theorem Longest.of_prefix (h : Longest taken text) (hhead : taken <+: rest)
    (htext : rest <+: text) : Longest taken rest :=
  ⟨hhead, h.matched, fun other hother hmatches ↦ h.longest other (hother.trans htext) hmatches⟩

theorem Denotes.starts (h : Denotes text token) : token.Starts text := by
  cases h with
  | exact hentry => exact starts_of_mem_exact hentry
  | @number _ value hnumber hvalue =>
    have hbound : decimalValue text < integerBound := by
      have hlt := value.toInt_lt
      rw [hvalue] at hlt
      exact Int.ofNat_lt.mp hlt
    refine starts_ofDigits (List.all_eq_true.mpr hnumber.2) hnumber.1 ?_
    have hinteger : Int64.ofNat (decimalValue text) = value := by
      rw [← Int64.toInt_inj, hvalue]
      exact Int64.toInt_ofNat_of_lt hbound
    simp only [ofDigits?, if_pos hbound, hinteger]
  | @quoted content hcontent =>
    have hquoted : '"' ∉ (String.ofList content).toList := by rwa [String.toList_ofList]
    have hstarts := starts_text hquoted
    simpa [source] using hstarts
  | word hword hexact =>
    have hstarts := starts_ofWord (String.ofList text)
      (by rw [String.toList_ofList]; exact List.all_eq_true.mpr hword.2)
      (fun hempty ↦ hword.1 (by simpa using hempty))
    rwa [ofWord_of_not_mem_keywords (not_mem_keywords hexact), String.toList_ofList] at hstarts

/-- A number that is a token is not too large. -/
theorem Denotes.lt_of_isNumber (h : Denotes text token) (hnumber : IsNumber text) :
    decimalValue text < integerBound := by
  obtain ⟨c, cs, rfl, -, hhead⟩ := h.starts
  have hfound := hhead [] (by simp [Apart])
  rw [List.append_nil] at hfound
  have hdigit : c.isDigit := hnumber.2 c List.mem_cons_self
  have htoken : (head c cs).token = _ := token_head_of_isDigit hdigit
  rw [hfound] at htoken
  refine Nat.lt_of_not_le fun hlarge ↦ ?_
  simp only [ofDigits?, if_neg (Nat.not_lt_of_le hlarge)] at htoken
  cases htoken

/-- The token of a text is determined by the text. -/
theorem Denotes.unique (hfirst : Denotes text token) (hsecond : Denotes text other) :
    token = other := by
  obtain ⟨c, cs, rfl, -, hhead⟩ := hfirst.starts
  obtain ⟨d, ds, hcons, -, hsame⟩ := hsecond.starts
  cases hcons
  have hapart : Apart [] := by simp [Apart]
  exact Option.some.inj (Head.mk.inj ((hhead [] hapart).symm.trans (hsame [] hapart))).1

/-- What the head of a text is, from the longest match there. -/
theorem head_of_longest {c : Char} {cs : List Char} (hlongest : Longest taken (c :: cs))
    (hdenotes : Denotes taken token) :
    (head c cs).token = some token ∧ (head c cs).taken = taken := by
  have hright := right_head c cs
  unfold Head.Right at hright
  split at hright
  · next found hfound =>
    obtain rfl := hright.1.unique hlongest
    exact ⟨by rw [hfound, hright.2.unique hdenotes], rfl⟩
  · rcases hright with hnone | ⟨number, hnumber, hdigits, hlarge⟩
    · exact absurd hlongest.matched (hnone taken hlongest.head)
    · obtain rfl := hnumber.unique hlongest
      exact absurd (hdenotes.lt_of_isNumber hdigits) (Nat.not_lt_of_le hlarge)

end Longest

/-! ### Tiles -/

/-- From a text at a byte offset on the tokens are found one behind the other, up to the offset of
the rest. -/
inductive Tiles : Nat → List Char → List Lexeme → Nat → List Char → Prop
  | done {offset : Nat} {text : List Char} : Tiles offset text [] offset text
  | separator {offset stop : Nat} {c : Char} {cs rest : List Char} {lexemes : List Lexeme}
    (hc : isSeparator c) (htiles : Tiles (offset + c.utf8Size) cs lexemes stop rest) :
    Tiles offset (c :: cs) lexemes stop rest
  | token {offset stop : Nat} {taken others rest : List Char} {token : Token}
    {lexemes : List Lexeme} (hlongest : Longest taken (taken ++ others))
    (hdenotes : Denotes taken token)
    (htiles : Tiles (offset + byteLength taken) others lexemes stop rest) :
    Tiles offset (taken ++ others) (⟨token, offset, offset + byteLength taken⟩ :: lexemes) stop rest

section Tiles

variable {offset stop : Nat} {text rest : List Char} {lexemes : List Lexeme}

theorem byteLength_eq (cs : List Char) : byteLength cs = (String.ofList cs).utf8ByteSize := by
  have hfrom : ∀ size, cs.foldl (fun size c ↦ size + c.utf8Size) size =
      size + (String.ofList cs).utf8ByteSize := by
    induction cs with
    | nil => simp
    | cons c cs ih =>
      intro size
      rw [List.foldl_cons, ih, ← List.singleton_append, String.ofList_append,
        String.utf8ByteSize_append, ← Nat.add_assoc]
      simp
  rw [byteLength, hfrom, Nat.zero_add]

theorem byteLength_append (cs ds : List Char) :
    byteLength (cs ++ ds) = byteLength cs + byteLength ds := by
  simp only [byteLength_eq, String.ofList_append, String.utf8ByteSize_append]

theorem byteLength_cons (c : Char) (cs : List Char) :
    byteLength (c :: cs) = c.utf8Size + byteLength cs := by
  rw [← List.singleton_append, byteLength_append, byteLength, List.foldl_cons, List.foldl_nil,
    Nat.zero_add]

theorem byteLength_pos {cs : List Char} (h : cs ≠ []) : 0 < byteLength cs := by
  cases cs with
  | nil => exact absurd rfl h
  | cons c cs =>
    rw [byteLength_cons]
    exact Nat.add_pos_left c.utf8Size_pos _

/-- What the scan comes to: all of the text is tiled, or the part in front of a place where no token
starts. -/
theorem scanFrom_tiles (offset : Nat) (done : List Lexeme) (text : List Char) :
    match scanFrom offset done text with
    | .ok found =>
      ∃ lexemes stop, found = done.reverse ++ lexemes ∧ Tiles offset text lexemes stop []
    | .error error => ∃ lexemes c cs, Tiles offset text lexemes error.position (c :: cs) ∧
        isSeparator c = false ∧ (head c cs).token = none ∧
        error.snippet = String.ofList (head c cs).taken := by
  fun_induction scanFrom offset done text with
  | case1 offset done => exact ⟨[], offset, (List.append_nil _).symm, .done⟩
  | case2 offset done c cs hc ih =>
    generalize scanFrom (offset + c.utf8Size) done cs = result at ih ⊢
    cases result with
    | ok found =>
      obtain ⟨lexemes, stop, hfound, htiles⟩ := ih
      exact ⟨lexemes, stop, hfound, .separator hc htiles⟩
    | error error =>
      obtain ⟨lexemes, d, ds, htiles, hstuck⟩ := ih
      exact ⟨lexemes, d, ds, .separator hc htiles, hstuck⟩
  | case3 offset done c cs hc found hnone =>
    exact ⟨[], c, cs, .done, Bool.eq_false_iff.mpr hc, hnone, rfl⟩
  | case4 offset done c cs hc found token htoken stop ih =>
    have hright := right_head c cs
    unfold Head.Right at hright
    rw [htoken] at hright
    obtain ⟨hlongest, hdenotes⟩ := hright
    have hwhole := taken_append_rest_head c cs
    rw [← hwhole] at hlongest
    have htoken : ∀ {lexemes last rest}, Tiles stop found.rest lexemes last rest →
        Tiles offset (c :: cs) (⟨token, offset, stop⟩ :: lexemes) last rest :=
      fun htiles ↦ hwhole ▸ Tiles.token hlongest hdenotes htiles
    generalize scanFrom stop _ found.rest = result at ih ⊢
    cases result with
    | ok finished =>
      obtain ⟨lexemes, last, hfinished, htiles⟩ := ih
      refine ⟨_, last, ?_, htoken htiles⟩
      rw [hfinished, List.reverse_cons, List.append_assoc, List.singleton_append]
    | error error =>
      obtain ⟨lexemes, d, ds, htiles, hstuck⟩ := ih
      exact ⟨_, d, ds, htoken htiles, hstuck⟩

namespace Tiles

/-- The tokens found in front of a place are those of the text up to there. -/
theorem scanFrom_front (h : Tiles offset text lexemes stop rest) :
    ∃ front, text = front ++ rest ∧ stop = offset + byteLength front ∧
      ∀ done, scanFrom offset done front = .ok (done.reverse ++ lexemes) := by
  induction h with
  | done => exact ⟨[], rfl, rfl, fun done ↦ by rw [scanFrom, List.append_nil]⟩
  | @separator offset stop c cs rest lexemes hc _ ih =>
    obtain ⟨front, rfl, rfl, hscan⟩ := ih
    refine ⟨c :: front, rfl, by rw [byteLength_cons, Nat.add_assoc], fun done ↦ ?_⟩
    rw [scanFrom, if_pos hc, hscan]
  | @token offset stop taken others rest token lexemes hlongest hdenotes _ ih =>
    obtain ⟨front, rfl, rfl, hscan⟩ := ih
    refine ⟨taken ++ front, (List.append_assoc _ _ _).symm,
      by rw [byteLength_append, Nat.add_assoc], fun done ↦ ?_⟩
    obtain ⟨c, cs, rfl, hc, -⟩ := hdenotes.starts
    have hless : Longest (c :: cs) (c :: (cs ++ front)) :=
      hlongest.of_prefix (List.prefix_append _ _)
        (by rw [← List.append_assoc]; exact List.prefix_append _ _)
    obtain ⟨htoken, htaken⟩ := head_of_longest hless hdenotes
    have hrest : (head c (cs ++ front)).rest = front := by
      have hwhole := taken_append_rest_head c (cs ++ front)
      rw [htaken] at hwhole
      exact List.append_cancel_left (hwhole.trans (List.cons_append ..))
    rw [List.cons_append, scanFrom, if_neg (Bool.eq_false_iff.mp hc)]
    simp only [htoken, htaken, hrest, hscan, List.reverse_cons, List.append_assoc,
      List.singleton_append]

theorem bounds (h : Tiles offset text lexemes stop rest) :
    offset ≤ stop ∧ ∀ lexeme ∈ lexemes,
      offset ≤ lexeme.start ∧ lexeme.start < lexeme.stop ∧ lexeme.stop ≤ stop := by
  induction h with
  | done => exact ⟨Nat.le_refl _, List.forall_mem_nil _⟩
  | separator _ _ ih =>
    refine ⟨by omega, fun lexeme hlexeme ↦ ?_⟩
    have hbehind := ih.2 lexeme hlexeme
    omega
  | token hlongest _ _ ih =>
    have hpos := byteLength_pos hlongest.matched.ne_nil
    refine ⟨by omega, List.forall_mem_cons.mpr ⟨by simp only; omega, fun lexeme hlexeme ↦ ?_⟩⟩
    have hbehind := ih.2 lexeme hlexeme
    omega

theorem pairwise (h : Tiles offset text lexemes stop rest) :
    lexemes.Pairwise fun first second ↦ first.stop ≤ second.start := by
  induction h with
  | done => exact .nil
  | separator _ _ ih => exact ih
  | token _ _ htiles ih =>
    exact List.pairwise_cons.mpr ⟨fun later hlater ↦ (htiles.bounds.2 later hlater).1, ih⟩

theorem taken (h : Tiles offset text lexemes stop rest) :
    ∀ lexeme ∈ lexemes, ∃ before taken others, text = before ++ taken ++ others ∧
      offset + byteLength before = lexeme.start ∧
      offset + byteLength (before ++ taken) = lexeme.stop ∧
      Longest taken (taken ++ others) ∧ Denotes taken lexeme.token := by
  induction h with
  | done => exact List.forall_mem_nil _
  | @separator offset stop c cs rest lexemes hc _ ih =>
    intro lexeme hlexeme
    obtain ⟨before, taken, others, rfl, hstart, hstop, htoken⟩ := ih lexeme hlexeme
    refine ⟨c :: before, taken, others, rfl, ?_, ?_, htoken⟩
    · rw [← hstart, byteLength_cons, Nat.add_assoc]
    · rw [← hstop, List.cons_append, byteLength_cons, Nat.add_assoc]
  | @token offset stop first others rest token lexemes hlongest hdenotes _ ih =>
    refine List.forall_mem_cons.mpr ⟨⟨[], first, others, rfl, rfl, rfl, hlongest, hdenotes⟩, ?_⟩
    intro lexeme hlexeme
    obtain ⟨before, taken, others, rfl, hstart, hstop, htoken⟩ := ih lexeme hlexeme
    refine ⟨first ++ before, taken, others, by simp only [List.append_assoc], ?_, ?_, htoken⟩
    · rw [← hstart, byteLength_append, Nat.add_assoc]
    · rw [← hstop, List.append_assoc, byteLength_append, Nat.add_assoc]

/-- What is not a token's is a separator. -/
theorem outside (h : Tiles offset text lexemes stop rest) :
    ∀ before c after, text = before ++ c :: after → offset + byteLength before < stop →
      (∀ lexeme ∈ lexemes, offset + byteLength before < lexeme.start ∨
        lexeme.stop ≤ offset + byteLength before) → isSeparator c := by
  induction h with
  | done =>
    intro before c after _ hbefore
    omega
  | @separator offset stop d ds rest lexemes hd _ ih =>
    intro before c after htext hbefore houtside
    cases before with
    | nil =>
      cases htext
      exact hd
    | cons first before =>
      obtain ⟨rfl, rfl⟩ := List.cons.inj htext
      rw [byteLength_cons, ← Nat.add_assoc] at hbefore houtside
      exact ih before c after rfl hbefore houtside
  | @token offset stop taken others rest token lexemes hlongest _ _ ih =>
    intro before c after htext hbefore houtside
    obtain ⟨hfirst, hlater⟩ := List.forall_mem_cons.mp houtside
    rcases List.append_eq_append_iff.mp htext with ⟨more, rfl, rfl⟩ | ⟨more, rfl, hmore⟩
    · rw [byteLength_append, ← Nat.add_assoc] at hbefore hlater
      exact ih more c after rfl hbefore hlater
    · cases more with
      | nil =>
        obtain rfl : others = c :: after := hmore.symm
        rw [List.append_nil] at ih
        exact ih [] c after rfl hbefore hlater
      | cons d more =>
        have hpos := byteLength_pos (List.cons_ne_nil d more)
        simp only [byteLength_append] at hfirst
        omega

/-- Tiles of the characters of a source are tiles of the source. -/
theorem tiling {source : String} (h : Tiles 0 source.toList lexemes stop rest) :
    Tiling source stop lexemes := by
  have hsize : ∀ text : String, byteLength text.toList = text.utf8ByteSize := fun text ↦ by
    rw [byteLength_eq, String.ofList_toList]
  refine ⟨fun lexeme hlexeme ↦ (h.bounds.2 lexeme hlexeme).2.1, h.pairwise,
    fun lexeme hlexeme ↦ (h.bounds.2 lexeme hlexeme).2.2, fun lexeme hlexeme ↦ ?_, ?_⟩
  · obtain ⟨before, taken, others, hwhole, hstart, hstop, hlongest, hdenotes⟩ :=
      h.taken lexeme hlexeme
    refine ⟨.ofList before, .ofList taken, .ofList others, ?_, ?_, ?_, ?_, ?_⟩
    · rw [← String.ofList_append, ← String.ofList_append, ← hwhole, String.ofList_toList]
    · rw [← byteLength_eq, ← hstart, Nat.zero_add]
    · rw [← String.ofList_append, ← byteLength_eq, ← hstop, Nat.zero_add]
    · rwa [← String.ofList_append, String.toList_ofList, String.toList_ofList]
    · rwa [String.toList_ofList]
  · intro before after c hwhole hbefore houtside
    refine h.outside before.toList c after.toList ?_ (by rwa [Nat.zero_add, hsize])
      (by rwa [Nat.zero_add, hsize])
    rw [hwhole]
    simp

end Tiles

end Tiles

/-- Spec §E2, scanning. For any source: the tokens that the scan finds and the separators between
them tile it, each token a longest match at its place. Where the scan fails, no token can start, and
the part in front of that place has the tokens found so far. -/
theorem scan_tiles (source : String) :
    match scan source with
    | .ok lexemes => Tiling source source.utf8ByteSize lexemes
    | .error error => ∃ before rest lexemes, source = before ++ error.snippet ++ rest ∧
        before.utf8ByteSize = error.position ∧ error.snippet ≠ "" ∧
        error.snippet.toList.head?.any isSeparator = false ∧
        Stuck (error.snippet ++ rest).toList ∧
        scan before = .ok lexemes ∧ Tiling source error.position lexemes := by
  have hscan := scanFrom_tiles 0 [] source.toList
  rw [scan]
  generalize scanFrom 0 [] source.toList = result at hscan ⊢
  cases result with
  | ok found =>
    obtain ⟨lexemes, stop, hfound, htiles⟩ := hscan
    rw [List.reverse_nil, List.nil_append] at hfound
    obtain ⟨front, hfront, hstop, -⟩ := htiles.scanFrom_front
    rw [List.append_nil] at hfront
    rw [Nat.zero_add, ← hfront, byteLength_eq, String.ofList_toList] at hstop
    rw [hfound, ← hstop]
    exact htiles.tiling
  | error error =>
    obtain ⟨lexemes, c, cs, htiles, hc, hnone, hsnippet⟩ := hscan
    obtain ⟨front, hfront, hstop, hagain⟩ := htiles.scanFrom_front
    have hright := right_head c cs
    unfold Head.Right at hright
    rw [hnone] at hright
    have hhead := taken_append_rest_head c cs
    refine ⟨.ofList front, .ofList (head c cs).rest, lexemes, ?_, ?_, ?_, ?_, ?_, ?_, htiles.tiling⟩
    · rw [hsnippet, String.append_assoc, ← String.ofList_append, hhead, ← String.ofList_append,
        ← hfront, String.ofList_toList]
    · rw [← byteLength_eq, hstop, Nat.zero_add]
    · rw [hsnippet]
      exact fun hempty ↦ taken_head_ne_nil c cs (by simpa using hempty)
    · obtain ⟨d, ds, htaken⟩ := List.exists_cons_of_ne_nil (taken_head_ne_nil c cs)
      rw [htaken, List.cons_append] at hhead
      obtain ⟨rfl, -⟩ := List.cons.inj hhead
      rw [hsnippet, htaken, String.toList_ofList]
      exact hc
    · rw [hsnippet, ← String.ofList_append, hhead, String.toList_ofList]
      exact hright
    · rw [scan, String.toList_ofList, hagain]
      rfl

end Token

end StackScript
