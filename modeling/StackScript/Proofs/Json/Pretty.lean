import StackScript.Proofs.Json.Text

/-!
Printed values are read back. A value is writable if its texts and keys are written ones and its
numbers are whole; behind the text of such a value stands nothing, a comma or a new line, where no
number goes on. The reader then returns the value and what follows (`Writable.reads`), with a bound
for its steps of as many as the text has characters, so the whole printed text is read as the value
it was printed for (`parse?_toPrettyString`).
-/

set_option autoImplicit false
set_option relaxedAutoImplicit false

namespace StackScript.Json

/-! ## Whole numbers -/

/-- What follows does not go on with a number. -/
def Apart (rest : List Char) : Prop :=
  ∀ c, rest.head? = some c → c.isDigit = false ∧ c ≠ '.' ∧ c ≠ 'e' ∧ c ≠ 'E'

theorem apart_nil : Apart [] :=
  fun _ h ↦ nomatch h

theorem apart_cons {c : Char} (hc : c.isDigit = false) (hpoint : c ≠ '.') (hlower : c ≠ 'e')
    (hupper : c ≠ 'E') (rest : List Char) : Apart (c :: rest) := by
  rintro d hd
  obtain rfl := Option.some.inj hd
  exact ⟨hc, hpoint, hlower, hupper⟩

section Digits

variable {digits rest : List Char}

theorem digits?_append (hdigits : ∀ c ∈ digits, c.isDigit) (hne : digits ≠ [])
    (hrest : Apart rest) : digits? (digits ++ rest) = some (digits, rest) := by
  have htake : (digits ++ rest).takeWhile Char.isDigit = digits := by
    rw [List.takeWhile_append_of_pos hdigits]
    cases rest with
    | nil => simp
    | cons c others => simp [(hrest c rfl).1]
  have hdrop : (digits ++ rest).dropWhile Char.isDigit = rest := by
    rw [List.dropWhile_append_of_pos hdigits]
    cases rest with
    | nil => rfl
    | cons c others => simp [(hrest c rfl).1]
  unfold digits?
  split
  · next hnil => exact absurd (htake.symm.trans hnil) hne
  · rw [htake, hdrop]

theorem fraction?_of_apart (hrest : Apart rest) : fraction? rest = some ([], rest) := by
  unfold fraction?
  split
  · exact absurd rfl (hrest '.' rfl).2.1
  · rfl

theorem exponent?_of_apart (hrest : Apart rest) : exponent? rest = some ([], rest) := by
  cases rest with
  | nil => rfl
  | cons c others =>
    obtain ⟨-, -, hlower, hupper⟩ := hrest c rfl
    simp [exponent?, hlower, hupper]

end Digits

theorem exists_toDigits (value : Nat) :
    ∃ c cs, Nat.toDigits 10 value = c :: cs ∧ c.isDigit := by
  cases hdigits : Nat.toDigits 10 value with
  | nil => exact absurd hdigits Nat.toDigits_ne_nil
  | cons c cs =>
    have hmem : c ∈ Nat.toDigits 10 value := hdigits ▸ List.mem_cons_self
    exact ⟨c, cs, rfl, Nat.isDigit_of_mem_toDigits (by decide) (by decide) hmem⟩

theorem head?_toDigits_ne_zero {value : Nat} (h : 0 < value) :
    (Nat.toDigits 10 value).head? ≠ some '0' := by
  induction value using Nat.strongRecOn with
  | _ value ih =>
    by_cases hsmall : value < 10
    · have hall : ∀ digit < 10, 0 < digit → Nat.digitChar digit ≠ '0' := by decide
      rw [Nat.toDigits_of_lt_base hsmall]
      exact fun hzero ↦ hall value hsmall h (Option.some.inj hzero)
    · have hlarge : 10 ≤ value := by omega
      have hquotient := ih (value / 10) (by omega) (by omega)
      obtain ⟨c, cs, htext, -⟩ := exists_toDigits (value / 10)
      rw [htext] at hquotient
      rwa [Nat.toDigits_of_base_le (by decide) hlarge, htext, List.cons_append]

/-- The text of a natural number has no needless zero in front. -/
theorem toDigits_canonical (value : Nat) :
    ¬((Nat.toDigits 10 value).head? = some '0' ∧ (Nat.toDigits 10 value).length ≠ 1) := by
  rintro ⟨hhead, hlength⟩
  rcases Nat.eq_zero_or_pos value with rfl | hpos
  · exact hlength rfl
  · exact head?_toDigits_ne_zero hpos hhead

theorem unsigned?_toDigits {negative : Bool} {value : Nat} {rest : List Char}
    (hsign : negative = true → value ≠ 0) (hrest : Apart rest) :
    unsigned? negative (Nat.toDigits 10 value ++ rest) =
      some (integer (if negative then -value else value), rest) := by
  have hdigits : ∀ c ∈ Nat.toDigits 10 value, c.isDigit := fun c hc ↦
    Nat.isDigit_of_mem_toDigits (by decide) (by decide) hc
  have hvalue : (Nat.toDigits 10 value).foldl
      (fun value digit ↦ 10 * value + (digit.toNat - '0'.toNat)) 0 = value :=
    Nat.ofDigitChars_ten_toDigits
  have hwhole : (!(negative && value == 0)) = true := by
    cases negative <;> simp [hsign]
  simp only [unsigned?, digits?_append hdigits Nat.toDigits_ne_nil hrest, Option.bind_eq_bind,
    Option.bind_some, if_neg (toDigits_canonical value), fraction?_of_apart hrest,
    exponent?_of_apart hrest, hvalue, hwhole]
  rfl

theorem toList_toString (value : Int) : (toString value).toList =
    if 0 ≤ value then Nat.toDigits 10 value.toNat
    else '-' :: Nat.toDigits 10 (-value).toNat := by
  rw [Int.toString_eq_repr, Int.repr_eq_if]
  split
  · rw [Nat.repr_eq_ofList_toDigits, String.toList_ofList]
  · rw [Nat.repr_eq_ofList_toDigits, String.toList_append, String.toList_ofList]
    simp

/-- A number starts with a digit or its sign. -/
theorem exists_toString (value : Int) :
    ∃ c cs, (toString value).toList = c :: cs ∧ (c.isDigit ∨ c = '-') := by
  rw [toList_toString]
  split
  · obtain ⟨c, cs, htext, hc⟩ := exists_toDigits value.toNat
    exact ⟨c, cs, htext, .inl hc⟩
  · exact ⟨'-', _, rfl, .inr rfl⟩

theorem number?_integer (value : Int) {rest : List Char} (hrest : Apart rest) :
    number? ((toString value).toList ++ rest) = some (integer value, rest) := by
  rw [toList_toString]
  split
  · next hnonneg =>
    have hplain : ∀ text, Nat.toDigits 10 value.toNat ++ rest ≠ '-' :: text := by
      obtain ⟨c, cs, htext, hc⟩ := exists_toDigits value.toNat
      rw [htext]
      rintro text ⟨⟩
      exact absurd hc (by decide)
    have hsign : false = true → value.toNat ≠ 0 := fun h ↦ nomatch h
    rw [number?.eq_2 _ hplain, unsigned?_toDigits hsign hrest]
    simp only [Bool.false_eq_true, if_false, Int.toNat_of_nonneg hnonneg]
  · next hnegative =>
    rw [List.cons_append, number?, unsigned?_toDigits (fun _ ↦ by omega) hrest]
    simp only [if_true, Int.toNat_of_nonneg (show 0 ≤ -value by omega), Int.neg_neg]

/-! ## Blanks -/

theorem skipBlanks_newLine (depth : Nat) (text : List Char) :
    skipBlanks (newLine depth ++ text) = skipBlanks text := by
  rw [skipBlanks, List.dropWhile_append_of_pos, skipBlanks]
  intro c hc
  rcases List.mem_cons.mp hc with rfl | hspace
  · rfl
  · rw [List.eq_of_mem_replicate hspace]
    rfl

theorem skipBlanks_cons {c : Char} (h : isBlank c = false) (text : List Char) :
    skipBlanks (c :: text) = c :: text := by
  simp [skipBlanks, h]

theorem value?_newLine (fuel depth : Nat) (text : List Char) :
    value? fuel (newLine depth ++ text) = value? fuel text := by
  cases fuel with
  | zero => rfl
  | succ fuel => rw [value?, value?, skipBlanks_newLine]

theorem elementsFrom_newLine (fuel depth : Nat) (done : List Json) (text : List Char) :
    elementsFrom fuel done (newLine depth ++ text) = elementsFrom fuel done text := by
  cases fuel with
  | zero => rfl
  | succ fuel => rw [elementsFrom, elementsFrom, value?_newLine]

theorem membersFrom_newLine (fuel depth : Nat) (done : List (List Char × Json))
    (text : List Char) :
    membersFrom fuel done (newLine depth ++ text) = membersFrom fuel done text := by
  cases fuel with
  | zero => rfl
  | succ fuel => rw [membersFrom, membersFrom, skipBlanks_newLine]

/-! ## Values -/

/-- Texts and keys are written ones, numbers are whole. -/
inductive Writable : Json → Prop where
  | null : Writable null
  | bool (value : Bool) : Writable (bool value)
  | integer (value : Int) : Writable (integer value)
  | string (content : List Char) : Writable (string (encode content))
  | array {elements : List Json} (helements : ∀ element ∈ elements, Writable element) :
    Writable (array elements)
  | object {members : List (List Char × Json)}
    (hkeys : ∀ member ∈ members, ∃ name, member.1 = encode name)
    (hvalues : ∀ member ∈ members, Writable member.2) : Writable (object members)

/-- The value is read from its text, whatever follows that does not go on with a number. -/
def Reads (json : Json) : Prop :=
  ∀ depth fuel rest, (json.pretty depth).length ≤ fuel → Apart rest →
    value? fuel (json.pretty depth ++ rest) = some (json, rest)

theorem ne_of_starts {c d : Char} (hc : c.isDigit ∨ c = '-') (hd : d.isDigit = false)
    (hsign : d ≠ '-') : c ≠ d := by
  rintro rfl
  rcases hc with hdigit | rfl
  · rw [hdigit] at hd
    exact nomatch hd
  · exact hsign rfl

/-- The first character of a text is neither blank nor a bracket that closes. -/
def Opens (text : List Char) : Prop :=
  ∃ c cs, text = c :: cs ∧ isBlank c = false ∧ c ≠ ']'

theorem opens_integer (value : Int) : Opens (toString value).toList := by
  obtain ⟨c, cs, htext, hc⟩ := exists_toString value
  have hblank : isBlank c = false := by
    simp [isBlank, ne_of_starts hc]
  exact ⟨c, cs, htext, hblank, ne_of_starts hc (by decide) (by decide)⟩

theorem Writable.opens {json : Json} (h : Writable json) (depth : Nat) :
    Opens (json.pretty depth) := by
  cases h with
  | null => exact ⟨'n', _, rfl, rfl, by decide⟩
  | bool value => cases value <;> exact ⟨_, _, rfl, rfl, by decide⟩
  | integer value => exact opens_integer value
  | string content => exact ⟨'"', _, rfl, rfl, by decide⟩
  | @array elements helements =>
    cases elements <;> exact ⟨'[', _, rfl, rfl, by decide⟩
  | @object members hkeys hvalues =>
    cases members <;> exact ⟨'\x7b', _, rfl, rfl, by decide⟩

theorem Opens.append {text : List Char} (h : Opens text) (rest : List Char) :
    Opens (text ++ rest) := by
  obtain ⟨c, cs, rfl, hc⟩ := h
  exact ⟨c, cs ++ rest, rfl, hc⟩

theorem Opens.skipBlanks {text : List Char} (h : Opens text) : skipBlanks text = text := by
  obtain ⟨c, cs, rfl, hblank, -⟩ := h
  exact skipBlanks_cons hblank cs

theorem value?_integer (fuel : Nat) (value : Int) {rest : List Char} (hrest : Apart rest) :
    value? (fuel + 1) ((toString value).toList ++ rest) = some (integer value, rest) := by
  rw [value?, ((opens_integer value).append rest).skipBlanks, ← number?_integer value hrest]
  obtain ⟨c, cs, htext, hc⟩ := exists_toString value
  rw [htext, List.cons_append]
  split
  case h_7 => rfl
  all_goals
    next h =>
      obtain ⟨rfl, -⟩ := List.cons.inj h
      exact absurd hc (by decide)

/-! ## Elements and members -/

theorem Writable.length_pos {json : Json} (h : Writable json) (depth : Nat) :
    0 < (json.pretty depth).length := by
  obtain ⟨c, cs, htext, -⟩ := h.opens depth
  simp [htext]

/-- What follows an element: the ones behind it and the bracket that closes. -/
def restOfArray (depth : Nat) (others : List Json) : List Char :=
  prettyElements (depth + 1) others ++ newLine depth ++ [']']

theorem restOfArray_nil (depth : Nat) : restOfArray depth [] = newLine depth ++ [']'] := rfl

theorem restOfArray_cons (depth : Nat) (next : Json) (others : List Json) :
    restOfArray depth (next :: others) =
      ',' :: (newLine (depth + 1) ++ (next.pretty (depth + 1) ++ restOfArray depth others)) := by
  simp [restOfArray, prettyElements]

theorem apart_restOfArray (depth : Nat) (others : List Json) (rest : List Char) :
    Apart (restOfArray depth others ++ rest) := by
  cases others <;> exact apart_cons rfl (by decide) (by decide) (by decide) _

/-- Behind the bracket that opens, the elements are read. -/
theorem value?_elements (fuel depth : Nat) {text : List Char} (h : Opens text) :
    value? (fuel + 1) ('[' :: (newLine depth ++ text)) = elementsFrom fuel [] text := by
  rw [value?, skipBlanks_cons rfl]
  simp only [skipBlanks_newLine, h.skipBlanks]
  obtain ⟨c, cs, rfl, -, hbracket⟩ := h
  split
  · next hclosed => exact absurd (List.cons.inj hclosed).1 hbracket
  · rfl

theorem elementsFrom_pretty (depth fuel : Nat) {others : List Json} {element : Json}
    (helement : Reads element) (hothers : ∀ other ∈ others, Reads other)
    (hfuel : (element.pretty (depth + 1) ++ restOfArray depth others).length ≤ fuel)
    (done : List Json) (rest : List Char) :
    elementsFrom fuel done (element.pretty (depth + 1) ++ (restOfArray depth others ++ rest)) =
      some (array (done.reverse ++ element :: others), rest) := by
  induction others generalizing fuel done element with
  | nil =>
    simp only [restOfArray_nil, List.length_append, List.length_singleton] at hfuel
    obtain ⟨fuel, rfl⟩ : ∃ left, fuel = left + 1 := ⟨fuel - 1, by omega⟩
    have hvalue := helement (depth + 1) fuel _ (by omega) (apart_restOfArray depth [] rest)
    rw [elementsFrom, hvalue]
    simp only [restOfArray_nil, List.append_assoc, skipBlanks_newLine]
    simp [skipBlanks, isBlank]
  | cons next others ih =>
    simp only [restOfArray_cons, List.length_append, List.length_cons] at hfuel
    obtain ⟨fuel, rfl⟩ : ∃ left, fuel = left + 1 := ⟨fuel - 1, by omega⟩
    have hvalue := helement (depth + 1) fuel _ (by omega)
      (apart_restOfArray depth (next :: others) rest)
    have hnext := ih fuel (hothers next List.mem_cons_self)
      (fun other hmem ↦ hothers other (List.mem_cons_of_mem _ hmem))
      (by rw [List.length_append]; omega) (element :: done)
    have hcomma : skipBlanks (restOfArray depth (next :: others) ++ rest) =
        ',' :: (newLine (depth + 1) ++
          (next.pretty (depth + 1) ++ (restOfArray depth others ++ rest))) := by
      simp [restOfArray_cons, skipBlanks, isBlank]
    rw [elementsFrom, hvalue]
    simp only [hcomma, elementsFrom_newLine, hnext]
    simp

/-- A member as it is printed. -/
def prettyMember (depth : Nat) (member : List Char × Json) : List Char :=
  quote member.1 ++ ([':', ' '] ++ member.2.pretty depth)

/-- What follows a member: the ones behind it and the brace that closes. -/
def restOfObject (depth : Nat) (others : List (List Char × Json)) : List Char :=
  prettyMembers (depth + 1) others ++ newLine depth ++ ['\x7d']

theorem restOfObject_nil (depth : Nat) : restOfObject depth [] = newLine depth ++ ['\x7d'] := rfl

theorem restOfObject_cons (depth : Nat) (next : List Char × Json)
    (others : List (List Char × Json)) :
    restOfObject depth (next :: others) =
      ',' :: (newLine (depth + 1) ++ (prettyMember (depth + 1) next ++
        restOfObject depth others)) := by
  simp [restOfObject, prettyMembers, prettyMember]

theorem apart_restOfObject (depth : Nat) (others : List (List Char × Json)) (rest : List Char) :
    Apart (restOfObject depth others ++ rest) := by
  cases others <;> exact apart_cons rfl (by decide) (by decide) (by decide) _

theorem value?_space (fuel : Nat) (text : List Char) :
    value? fuel (' ' :: text) = value? fuel text := by
  cases fuel <;> rfl

theorem prettyMember_eq (depth : Nat) (member : List Char × Json) :
    prettyMember depth member =
      '"' :: (member.1 ++ '"' :: ':' :: ' ' :: member.2.pretty depth) := by
  simp [prettyMember, quote]

/-- Behind the brace that opens, the members are read. -/
theorem value?_members (fuel depth : Nat) (text : List Char) :
    value? (fuel + 1) ('\x7b' :: (newLine depth ++ '"' :: text)) =
      membersFrom fuel [] ('"' :: text) := by
  rw [value?, skipBlanks_cons rfl]
  simp only [skipBlanks_newLine]
  rfl

/-- One member is read up to what follows it: the next member or the end. -/
theorem membersFrom_member {depth : Nat} {member : List Char × Json} {rest : List Char}
    (hkey : ∃ name, member.1 = encode name) (hvalue : Reads member.2) {fuel : Nat}
    (hfuel : (prettyMember depth member).length ≤ fuel) (hrest : Apart rest)
    (done : List (List Char × Json)) :
    (∀ more, skipBlanks rest = ',' :: more →
      membersFrom (fuel + 1) done (prettyMember depth member ++ rest) =
        membersFrom fuel (member :: done) more) ∧
    ∀ more, skipBlanks rest = '\x7d' :: more →
      membersFrom (fuel + 1) done (prettyMember depth member ++ rest) =
        some (object (member :: done).reverse, more) := by
  obtain ⟨key, value⟩ := member
  obtain ⟨name, rfl⟩ := hkey
  have htext : prettyMember depth (encode name, value) ++ rest =
      '"' :: (encode name ++ '"' :: ':' :: ' ' :: (value.pretty depth ++ rest)) := by
    simp [prettyMember_eq]
  have hlength : (value.pretty depth).length ≤ fuel := by
    simp only [prettyMember, List.length_append] at hfuel
    omega
  have hread : value? fuel (value.pretty depth ++ rest) = some (value, rest) :=
    hvalue depth fuel rest hlength hrest
  rw [membersFrom, htext, skipBlanks_cons rfl]
  simp only [quotedFrom_encode, skipBlanks_cons (c := ':') rfl, value?_space, hread]
  exact ⟨fun more hmore ↦ by simp only [hmore], fun more hmore ↦ by simp only [hmore]⟩

theorem membersFrom_pretty (depth fuel : Nat) {others : List (List Char × Json)}
    {member : List Char × Json} (hkey : ∃ name, member.1 = encode name) (hvalue : Reads member.2)
    (hkeys : ∀ other ∈ others, ∃ name, other.1 = encode name)
    (hvalues : ∀ other ∈ others, Reads other.2)
    (hfuel : (prettyMember (depth + 1) member ++ restOfObject depth others).length ≤ fuel)
    (done : List (List Char × Json)) (rest : List Char) :
    membersFrom fuel done (prettyMember (depth + 1) member ++
      (restOfObject depth others ++ rest)) =
        some (object (done.reverse ++ member :: others), rest) := by
  induction others generalizing fuel done member with
  | nil =>
    simp only [restOfObject_nil, List.length_append, List.length_singleton] at hfuel
    obtain ⟨fuel, rfl⟩ : ∃ left, fuel = left + 1 := ⟨fuel - 1, by omega⟩
    have hbrace : skipBlanks (restOfObject depth [] ++ rest) = '\x7d' :: rest := by
      simp only [restOfObject_nil, List.append_assoc, skipBlanks_newLine]
      simp [skipBlanks, isBlank]
    have hlength : (prettyMember (depth + 1) member).length ≤ fuel := by omega
    have hmember := membersFrom_member hkey hvalue hlength
      (apart_restOfObject depth [] rest) done
    rw [hmember.2 rest hbrace]
    simp
  | cons next others ih =>
    simp only [restOfObject_cons, List.length_append, List.length_cons] at hfuel
    obtain ⟨fuel, rfl⟩ : ∃ left, fuel = left + 1 := ⟨fuel - 1, by omega⟩
    have hnext := ih fuel (hkeys next List.mem_cons_self) (hvalues next List.mem_cons_self)
      (fun other hmem ↦ hkeys other (List.mem_cons_of_mem _ hmem))
      (fun other hmem ↦ hvalues other (List.mem_cons_of_mem _ hmem))
      (by rw [List.length_append]; omega) (member :: done)
    have hcomma : skipBlanks (restOfObject depth (next :: others) ++ rest) =
        ',' :: (newLine (depth + 1) ++
          (prettyMember (depth + 1) next ++ (restOfObject depth others ++ rest))) := by
      simp [restOfObject_cons, skipBlanks, isBlank]
    have hlength : (prettyMember (depth + 1) member).length ≤ fuel := by omega
    have hmember := membersFrom_member hkey hvalue hlength
      (apart_restOfObject depth (next :: others) rest) done
    rw [hmember.1 _ hcomma, membersFrom_newLine, hnext]
    simp

/-! ## The whole text -/

theorem pretty_array (depth : Nat) (element : Json) (others : List Json) :
    (array (element :: others)).pretty depth =
      '[' :: (newLine (depth + 1) ++ (element.pretty (depth + 1) ++ restOfArray depth others)) := by
  simp [pretty, restOfArray]

theorem pretty_object (depth : Nat) (member : List Char × Json)
    (others : List (List Char × Json)) :
    (object (member :: others)).pretty depth =
      '\x7b' :: (newLine (depth + 1) ++
        (prettyMember (depth + 1) member ++ restOfObject depth others)) := by
  simp [pretty, restOfObject, prettyMember]

/-- A writable value is read from its text. -/
theorem Writable.reads {json : Json} (h : Writable json) : Reads json := by
  induction h with
  | null =>
    rintro depth (_ | fuel) rest hfuel -
    · exact absurd (Writable.null.length_pos depth) (by omega)
    · simp [pretty, value?, skipBlanks, isBlank]
  | bool value =>
    rintro depth (_ | fuel) rest hfuel -
    · exact absurd ((Writable.bool value).length_pos depth) (by omega)
    · cases value <;> simp [pretty, value?, skipBlanks, isBlank]
  | integer value =>
    rintro depth (_ | fuel) rest hfuel hrest
    · exact absurd ((Writable.integer value).length_pos depth) (by omega)
    · exact value?_integer fuel value hrest
  | string content =>
    rintro depth (_ | fuel) rest hfuel -
    · exact absurd ((Writable.string content).length_pos depth) (by omega)
    · simp [pretty, quote, value?, skipBlanks, isBlank, quotedFrom_encode]
  | @array elements helements ih =>
    rintro depth (_ | fuel) rest hfuel -
    · exact absurd ((Writable.array helements).length_pos depth) (by omega)
    · cases elements with
      | nil => simp [pretty, value?, skipBlanks, isBlank]
      | cons element others =>
        rw [pretty_array] at hfuel ⊢
        have helement := ((helements element List.mem_cons_self).opens (depth + 1)).append
          (restOfArray depth others ++ rest)
        have hfrom := elementsFrom_pretty depth fuel (ih element List.mem_cons_self)
          (fun other hmem ↦ ih other (List.mem_cons_of_mem _ hmem))
          (by simp only [List.length_cons, List.length_append] at hfuel ⊢; omega) [] rest
        simp only [List.cons_append, List.append_assoc]
        rw [value?_elements fuel (depth + 1) helement, hfrom]
        rfl
  | @object members hkeys hvalues ih =>
    rintro depth (_ | fuel) rest hfuel -
    · exact absurd ((Writable.object hkeys hvalues).length_pos depth) (by omega)
    · cases members with
      | nil => simp [pretty, value?, skipBlanks, isBlank]
      | cons member others =>
        rw [pretty_object] at hfuel ⊢
        have hfrom := membersFrom_pretty depth fuel (hkeys member List.mem_cons_self)
          (ih member List.mem_cons_self)
          (fun other hmem ↦ hkeys other (List.mem_cons_of_mem _ hmem))
          (fun other hmem ↦ ih other (List.mem_cons_of_mem _ hmem))
          (by simp only [List.length_cons, List.length_append] at hfuel ⊢; omega) [] rest
        simp only [List.cons_append, List.append_assoc]
        rw [prettyMember_eq, List.cons_append] at hfrom ⊢
        rw [value?_members fuel (depth + 1), hfrom]
        rfl

/-- The printed text of a writable value is read as that value. -/
theorem parse?_toPrettyString {json : Json} (h : Writable json) :
    parse? json.toPrettyString = some json := by
  have hread := h.reads 0 (2 * (json.pretty 0).length + 2) [] (by omega) apart_nil
  rw [List.append_nil] at hread
  simp [parse?, toPrettyString, hread, skipBlanks]

end StackScript.Json
