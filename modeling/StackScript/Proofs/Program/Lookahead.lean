import StackScript.Proofs.Program.Reading

/-!
How a reader is followed. Two inputs are read side by side, the second of which has the tokens of
the first at its head, at whatever places. Where the reader of the first comes to its end, it has
taken tokens of a form that is stated for each reader. If it stands in front of a token then, or
there are no more tokens in the second, the reader of the second goes the same way, also with a
larger bound on the depth; and errors are found at the same token (`Parser.Tracks`). Where an error
is found, the reader stands at the token that the error is about, or, if that token cannot begin an
operand, behind it (`Parser.Refuses`).

There is one such statement for each reader and one rule for each step that readers are made of.
With one input only it says which tokens are taken; with a second one, what the rest of a text can
change; and with a bound that is large enough for the tokens, that reading ends.
-/

set_option autoImplicit false
set_option relaxedAutoImplicit false

namespace StackScript

/-- What binds as an operator is a call, an index or a binary operator. -/
theorem Token.binds_cases {token : Token} (h : 0 < token.strength.rank) :
    token = .openParen ∨ token = .openBracket ∨ ∃ op, token.operator? = some op := by
  cases token with
  | openParen => exact .inl rfl
  | openBracket => exact .inr (.inl rfl)
  | equal | notEqual | less | greater | plus | minus | asterisk | slash =>
    exact .inr (.inr ⟨_, rfl⟩)
  | _ => exact absurd h (Nat.lt_irrefl 0)

/-- The error is about what stands in front of the reader, not about a token that it took. -/
def ParseError.Cause.InFront : Cause → Prop
  | noOperand _ | noOperator _ => False
  | _ => True

theorem ParseError.Cause.InFront.ne_noOperand {cause : Cause} (h : cause.InFront) (token : Token) :
    cause ≠ .noOperand token := by
  rintro rfl
  exact h

theorem ParseError.Cause.InFront.ne_noOperator {cause : Cause} (h : cause.InFront)
    (token : Token) : cause ≠ .noOperator token := by
  rintro rfl
  exact h

namespace Parser

/-- The input behind so many tokens. -/
def Input.behind (input : Input) (count : Nat) : Input :=
  { input with rest := input.rest.drop count }

theorem Input.behind_zero (input : Input) : input.behind 0 = input := rfl

theorem Input.tokens_behind (input : Input) (count : Nat) :
    (input.behind count).tokens = input.tokens.drop count := by
  simp [tokens, behind, List.map_drop]

theorem Input.head?_tokens_behind (input : Input) (count : Nat) :
    (input.behind count).tokens.head? = input.tokens[count]? := by
  rw [tokens_behind, List.head?_drop]

theorem Input.next_behind (input : Input) (count : Nat) :
    (input.behind count).next = input.behind (count + 1) := by
  simp [next, behind, List.tail_drop]

/-- Reading that fails because of the token at `index` stands at the second place: there too, or
behind a token that cannot begin an operand. A token that binds is always read as an operator. -/
inductive Refuses (tokens : List Token) : ParseError.Cause → Nat → Nat → Prop
  | here {cause : ParseError.Cause} (index : Nat) (hcause : cause.InFront) :
    Refuses tokens cause index index
  | behind {token : Token} {index : Nat} (htoken : tokens[index]? = some token)
    (hbrace : token ≠ .openBrace) : Refuses tokens (.noOperand token) index (index + 1)

theorem Refuses.ne_noOperator {tokens : List Token} {cause : ParseError.Cause} {index next : Nat}
    (h : Refuses tokens cause index next) (token : Token) : cause ≠ .noOperator token := by
  cases h with
  | here _ hcause => exact hcause.ne_noOperator token
  | behind => rintro ⟨⟩

/-- The second input begins with the tokens of the first, and its readers have so much more room on
their bounds. -/
structure Beside (first second : Input) (same : Prop) (extra : Nat) : Prop where
  tokens : first.tokens <+: second.tokens
  bound : same → extra = 0

/-- The two readers go the same way from the place on, the one in the first input and the other in
the second. Where the first comes to its end, it has taken at least so many tokens, and they are of
the form; and so many it has taken where it fails, unless there were not so many, or reading may be
so `deep` that it comes to the bound. If the readers give up at the bound, they need not do so
together unless their bounds are the same. -/
def Tracks {α : Type} (first second : Input) (same deep : Prop) (x y : Parser α) (place least : Nat)
    (form : List Token → α → Nat → Prop) : Prop :=
  place ≤ first.tokens.length →
  StackScript.Ends x (first.behind place)
    (fun value after ↦ ∃ taken next, place + least ≤ next ∧ next ≤ first.tokens.length ∧
      after = first.behind next ∧
      first.tokens.drop place = taken ++ first.tokens.drop next ∧ form taken value next ∧
      (next < first.tokens.length ∨ first.tokens = second.tokens →
        y (second.behind place) = .ok value (second.behind next)))
    (fun error after ↦ ∃ index next, place ≤ next ∧ next ≤ first.tokens.length ∧
      error.position = (first.behind index).position ∧ after = first.behind next ∧
      Refuses first.tokens error.cause index next ∧
      (deep ∨ error.cause ≠ .tooDeep ∧ min (place + least) first.tokens.length ≤ next) ∧
      (first.tokens = second.tokens → (error.cause = .tooDeep → same) →
        y (second.behind place) =
          .error ⟨(second.behind index).position, error.cause⟩ (second.behind next)))

namespace Tracks

variable {α β : Type} {first second : Input} {same deep : Prop} {extra : Nat} {x y : Parser α}
  {f g : α → Parser β} {place least inner : Nat} {form narrow : List Token → α → Nat → Prop}
  {further : List Token → β → Nat → Prop}

theorem bind (h : Tracks first second same deep x y place inner form) (hleast : least ≤ inner)
    (hnext : ∀ taken value next, place + inner ≤ next → next ≤ first.tokens.length →
      form taken value next →
      Tracks first second same deep (f value) (g value) next 0 fun more result last ↦
        further (taken ++ more) result last) :
    Tracks first second same deep (x >>= f) (y >>= g) place least further := by
  intro hplace
  cases hx : x (first.behind place) with
  | ok value after =>
    obtain ⟨taken, next, hle, hlength, rfl, htaken, hform, hy⟩ := (h hplace).at_ok hx
    have hbehind := hnext taken value next hle hlength hform hlength
    refine .of_eq_from (bind_of_ok hx) (hbehind.mono ?_ ?_)
    · rintro result after ⟨more, last, hlast, hend, rfl, hmore, hfurther, hg⟩
      refine ⟨taken ++ more, last, by omega, hend, rfl, ?_, hfurther, fun hseen ↦ ?_⟩
      · rw [htaken, hmore, List.append_assoc]
      · rw [bind_of_ok (hy (hseen.imp_left fun hlt ↦ by omega)), hg hseen]
    · rintro error after ⟨index, last, hlast, hend, hposition, rfl, hrefuses, hdepth, hg⟩
      refine ⟨index, last, by omega, hend, hposition, rfl, hrefuses,
        hdepth.imp_right (And.imp_right fun _ ↦ by omega), fun heq hsame ↦ ?_⟩
      rw [bind_of_ok (hy (.inr heq)), hg heq hsame]
  | error error after =>
    obtain ⟨index, last, hlast, hend, hposition, rfl, hrefuses, hdepth, hg⟩ :=
      (h hplace).at_error hx
    exact .of_error (bind_of_error hx) ⟨index, last, hlast, hend, hposition, rfl, hrefuses,
      hdepth.imp_right (And.imp_right fun _ ↦ by omega),
      fun heq hsame ↦ bind_of_error (hg heq hsame)⟩

theorem mono (h : Tracks first second same deep x y place inner narrow) (hleast : least ≤ inner)
    (hform : ∀ taken value next, narrow taken value next → form taken value next) :
    Tracks first second same deep x y place least form := by
  refine fun hplace ↦ (h hplace).mono ?_ ?_
  · rintro value after ⟨taken, next, hle, hlength, rfl, htaken, hnarrow, hy⟩
    exact ⟨taken, next, by omega, hlength, rfl, htaken, hform taken value next hnarrow, hy⟩
  · rintro error after ⟨index, next, hle, hlength, hposition, rfl, hrefuses, hdepth, hy⟩
    exact ⟨index, next, hle, hlength, hposition, rfl, hrefuses,
      hdepth.imp_right (And.imp_right fun _ ↦ by omega), hy⟩

/-- Steps at whose end other readers are left to go on, the same way in both inputs as long as there
is a token in front of the reader of the first. -/
theorem step {x' y' : Parser α} (taken : List Token) (next : Nat) (hle : place ≤ next)
    (hleast : place + least ≤ next + inner)
    (hlength : place ≤ first.tokens.length → next ≤ first.tokens.length)
    (htaken : first.tokens.drop place = taken ++ first.tokens.drop next)
    (hx : x (first.behind place) = x' (first.behind next))
    (hy : place < first.tokens.length ∨ first.tokens = second.tokens →
      y (second.behind place) = y' (second.behind next))
    (h : Tracks first second same deep x' y' next inner fun more value last ↦
      form (taken ++ more) value last) :
    Tracks first second same deep x y place least form := by
  intro hplace
  refine .of_eq_from hx ((h (hlength hplace)).mono ?_ ?_)
  · rintro value after ⟨more, last, hlast, hend, rfl, hmore, hform, hg⟩
    refine ⟨taken ++ more, last, by omega, hend, rfl, ?_, hform, fun hseen ↦ ?_⟩
    · rw [htaken, hmore, List.append_assoc]
    · rw [hy (hseen.imp_left fun hlt ↦ by omega), hg hseen]
  · rintro error after ⟨index, last, hlast, hend, hposition, rfl, hrefuses, hdepth, hg⟩
    refine ⟨index, last, by omega, hend, hposition, rfl, hrefuses,
      hdepth.imp_right (And.imp_right fun _ ↦ by omega), fun heq hsame ↦ ?_⟩
    rw [hy (.inr heq), hg heq hsame]

theorem pure {value : α} (hform : form [] value place) :
    Tracks first second same deep (Pure.pure value) (Pure.pure value) place 0 form :=
  fun hplace ↦ ⟨[], place, Nat.le_refl _, hplace, rfl, rfl, hform, fun _ ↦ rfl⟩

/-- A reader whose value is put into another one. -/
theorem map {wrap : α → β} (h : Tracks first second same deep x y place inner form)
    (hleast : least ≤ inner)
    (hform : ∀ taken value next, form taken value next → further taken (wrap value) next) :
    Tracks first second same deep (do return wrap (← x)) (do return wrap (← y)) place least
      further := by
  refine h.bind hleast fun taken value next _ _ hvalue ↦ .pure ?_
  rw [List.append_nil]
  exact hform taken value next hvalue

theorem fail {cause : ParseError.Cause} (hcause : cause.InFront) (hdepth : cause ≠ .tooDeep) :
    Tracks first second same deep (Parser.fail cause) (Parser.fail cause) place 0 form :=
  fun hplace ↦ ⟨place, place, Nat.le_refl _, hplace, rfl, rfl, .here place hcause,
    .inr ⟨hdepth, Nat.min_le_left _ _⟩, fun _ _ ↦ rfl⟩

theorem fail_end {cause : ParseError.Cause} (hend : first.tokens[place]? = none)
    (hcause : cause.InFront) (hdepth : cause ≠ .tooDeep) :
    Tracks first second same deep (Parser.fail cause) (Parser.fail cause) place least form :=
  fun hplace ↦ ⟨place, place, Nat.le_refl _, hplace, rfl, rfl, .here place hcause,
    .inr ⟨hdepth, Nat.le_trans (Nat.min_le_right _ _) (List.getElem?_eq_none_iff.mp hend)⟩,
    fun _ _ ↦ rfl⟩

/-- The reader of the first input gives up at its bound, that of the second perhaps has more. -/
theorem tooDeep (h : Beside first second same extra) (reader : Nat → Parser α)
    (hzero : reader 0 = Parser.fail .tooDeep) (hdeep : deep) :
    Tracks first second same deep (reader 0) (reader (0 + extra)) place least form := by
  rw [hzero]
  intro hplace
  refine ⟨place, place, Nat.le_refl _, hplace, rfl, rfl, .here place trivial, .inl hdeep,
    fun _ hbound ↦ ?_⟩
  rw [h.bound (hbound rfl), hzero]
  rfl

/-- The token that was in front cannot begin an operand. -/
theorem refuse {token : Token} (htoken : first.tokens[place]? = some token)
    (hbrace : token ≠ .openBrace) :
    Tracks first second same deep
      (throw ⟨(first.behind place).position, .noOperand token⟩ : Parser α)
      (throw ⟨(second.behind place).position, .noOperand token⟩) (place + 1) 0 form :=
  fun hplace ↦ ⟨place, place + 1, Nat.le_refl _, hplace, rfl, rfl, .behind htoken hbrace,
    .inr ⟨by rintro ⟨⟩, Nat.min_le_left _ _⟩, fun _ _ ↦ rfl⟩

theorem position {f g : Nat → Parser α}
    (h : Tracks first second same deep (f (first.behind place).position)
      (g (second.behind place).position) place least form) :
    Tracks first second same deep (Parser.position >>= f) (Parser.position >>= g) place least
      form :=
  .step [] place (Nat.le_refl _) (Nat.le_refl _) id rfl (position_bind f _)
    (fun _ ↦ position_bind g _) h

theorem skip {f g : Unit → Parser α} {token : Token} (htoken : first.tokens[place]? = some token)
    (h : place < first.tokens.length →
      Tracks first second same deep (f ()) (g ()) (place + 1) 0 fun more value last ↦
        form (token :: more) value last) :
    Tracks first second same deep (Parser.skip >>= f) (Parser.skip >>= g) place 1 form := by
  obtain ⟨hlt, hget⟩ := List.getElem?_eq_some_iff.mp htoken
  refine .step [token] (place + 1) (Nat.le_succ _) (Nat.le_refl _) (fun _ ↦ hlt) ?_ ?_
    (fun _ ↦ ?_) (h hlt)
  · rw [List.drop_eq_getElem_cons hlt, hget]
    rfl
  · rw [skip_bind, Input.next_behind]
  · rw [skip_bind, Input.next_behind]

variable (h : Beside first second same extra)

include h

theorem getElem?_eq (hseen : place < first.tokens.length ∨ first.tokens = second.tokens) :
    second.tokens[place]? = first.tokens[place]? := by
  rcases hseen with hlt | heq
  · obtain ⟨more, hmore⟩ := h.tokens
    rw [← hmore, List.getElem?_append_left hlt]
  · rw [heq]

theorem peek {f g : Option Token → Parser α}
    (hnext : ∀ got, first.tokens[place]? = got →
      Tracks first second same deep (f got) (g got) place least form) :
    Tracks first second same deep (Parser.peek >>= f) (Parser.peek >>= g) place least form := by
  refine .step [] place (Nat.le_refl _) (Nat.le_refl _) id rfl ?_ (fun hseen ↦ ?_) (hnext _ rfl)
  · rw [peek_bind, Input.head?_tokens_behind]
  · rw [peek_bind, Input.head?_tokens_behind, getElem?_eq h hseen]

theorem expect {f g : Unit → Parser α} (wanted : Token)
    (hnext : place < first.tokens.length →
      Tracks first second same deep (f ()) (g ()) (place + 1) 0 fun more value last ↦
        form (wanted :: more) value last) :
    Tracks first second same deep (Parser.expect wanted >>= f) (Parser.expect wanted >>= g) place 0
      form := by
  simp only [Parser.expect, bind_assoc]
  refine .peek h fun got hgot ↦ ?_
  split
  · next hwanted => exact (skip (hgot.trans hwanted) hnext).mono (Nat.zero_le _) fun _ _ _ ↦ id
  · exact .fail trivial (by rintro ⟨⟩)

theorem identifier {f g : String → Parser α}
    (hnext : ∀ name, place < first.tokens.length →
      Tracks first second same deep (f name) (g name) (place + 1) 0 fun more value last ↦
        form (.identifier name :: more) value last) :
    Tracks first second same deep (Parser.identifier >>= f) (Parser.identifier >>= g) place 0
      form := by
  simp only [Parser.identifier, bind_assoc]
  refine .peek h fun got hgot ↦ ?_
  split
  · next name =>
    simp only [bind_assoc, pure_bind]
    exact (skip hgot (hnext name)).mono (Nat.zero_le _) fun _ _ _ ↦ id
  · exact .fail trivial (by rintro ⟨⟩)

theorem skipIf {f g : Bool → Parser α} (token : Token)
    (hthere : place < first.tokens.length →
      Tracks first second same deep (f true) (g true) (place + 1) 0 fun more value last ↦
        form (token :: more) value last)
    (habsent : first.tokens[place]? ≠ some token →
      Tracks first second same deep (f false) (g false) place 0 form) :
    Tracks first second same deep (Parser.skipIf token >>= f) (Parser.skipIf token >>= g) place 0
      form := by
  simp only [Parser.skipIf, bind_assoc]
  refine .peek h fun got hgot ↦ ?_
  split
  · next htoken =>
    simp only [bind_assoc, pure_bind]
    exact (skip (hgot.trans htoken) hthere).mono (Nat.zero_le _) fun _ _ _ ↦ id
  · next htoken =>
    simp only [pure_bind]
    exact habsent (hgot ▸ htoken)

end Tracks

/-! ### The readers of the grammar -/

/-- A statement without the semicolon that may end it. -/
def clause (fuel : Nat) : Parser Stmt := do
  match ← peek with
  | some .letKeyword =>
    skip
    let name ← identifier
    expect .assign
    let value ← expr fuel .lowest
    return .bind name (value.named name)
  | some .returnKeyword =>
    skip
    return .ret (← expr fuel .lowest)
  | _ => return .eval (← expr fuel .lowest)

theorem statement_succ (fuel : Nat) :
    statement (fuel + 1) = do
      let stmt ← clause fuel
      let _ ← skipIf .semicolon
      return stmt := by
  rw [statement, clause, bind_assoc]
  congr
  funext got
  split <;> simp only [bind_assoc, pure_bind]

end Parser

end StackScript
