import StackScript.Program.Recovery
import StackScript.Proofs.Program.Lookahead
import StackScript.Proofs.Program.Grammar

/-!
Reading goes on behind the boundary. The loop that skips tokens behind an error counts the braces
that are open; from the index of the error on it comes to an end behind the boundary that
`Token.Boundary` describes (`Token.leftBehind_of_boundaryFrom`), and so it does from where the
reader stands, which is the same place or one token further (`Parser.resume_of_refuses`). What is
tried behind an error therefore begins behind the boundary, and what a text of its own gives there
without an error is read (`Program.resumes_behind_boundary`). The exception is a semicolon in the
place of an operand.
-/

set_option autoImplicit false
set_option relaxedAutoImplicit false

namespace StackScript

/-! ### The boundary -/

namespace Token

/-- The number of open braces behind the token. -/
def deepen (depth : Nat) : Token → Nat
  | .openBrace => depth + 1
  | .closeBrace => depth - 1
  | _ => depth

/-- Behind these tokens a brace is open that they open, or one of `depth` that were open before. -/
def Within (depth : Nat) (before : List Token) : Prop :=
  Inside before ∨ ∀ part, part <+: before → part.count .closeBrace < depth + part.count .openBrace

variable {depth : Nat} {token : Token} {before rest : List Token}

theorem inside_cons : Inside (token :: before) ↔
    (token = .openBrace ∧
      ∀ part, part <+: before → part.count .closeBrace ≤ part.count .openBrace) ∨
    Inside before := by
  constructor
  · rintro ⟨outer, inner, hbefore, hinner⟩
    cases outer with
    | nil =>
      cases hbefore
      exact .inl ⟨rfl, hinner⟩
    | cons first outer =>
      cases hbefore
      exact .inr ⟨outer, inner, rfl, hinner⟩
  · rintro (⟨rfl, hbefore⟩ | ⟨outer, inner, rfl, hinner⟩)
    · exact ⟨[], before, rfl, hbefore⟩
    · exact ⟨token :: outer, inner, rfl, hinner⟩

theorem Inside.mem (h : Inside before) : .openBrace ∈ before := by
  obtain ⟨outer, inner, rfl, -⟩ := h
  exact List.mem_append_right _ List.mem_cons_self

theorem within_nil : Within depth [] ↔ 0 < depth := by
  simp [Within, Inside]

theorem within_zero : Within 0 before ↔ Inside before := by
  refine or_iff_left fun h ↦ ?_
  exact absurd (h [] List.nil_prefix) (Nat.lt_irrefl _)

theorem forall_prefix_cons {P : List Token → Prop} :
    (∀ part, part <+: token :: before → P part) ↔
      P [] ∧ ∀ part, part <+: before → P (token :: part) := by
  constructor
  · intro h
    exact ⟨h [] List.nil_prefix, fun part hpart ↦ h _ ((List.prefix_cons_inj token).mpr hpart)⟩
  · rintro ⟨hnil, hcons⟩ part hpart
    rcases List.prefix_cons_iff.mp hpart with rfl | ⟨others, rfl, hothers⟩
    · exact hnil
    · exact hcons others hothers

theorem within_cons : Within depth (token :: before) ↔ Within (token.deepen depth) before := by
  unfold Within
  rw [inside_cons, forall_prefix_cons]
  by_cases hinside : Inside before
  · exact iff_of_true (.inl (.inr hinside)) (.inl hinside)
  simp only [hinside, or_false, false_or, List.count_nil, Nat.add_zero]
  by_cases hopen : token = .openBrace
  · subst hopen
    simp only [true_and, deepen, List.count_cons_self,
      List.count_cons_of_ne (show Token.openBrace ≠ .closeBrace by decide)]
    constructor
    · rintro (hclosed | ⟨_, hclosed⟩) part hpart
      · have := hclosed part hpart
        omega
      · have := hclosed part hpart
        omega
    · intro hclosed
      by_cases hdepth : depth = 0
      · refine .inl fun part hpart ↦ ?_
        have := hclosed part hpart
        omega
      · refine .inr ⟨Nat.pos_of_ne_zero hdepth, fun part hpart ↦ ?_⟩
        have := hclosed part hpart
        omega
  by_cases hclose : token = .closeBrace
  · subst hclose
    simp only [deepen, reduceCtorEq, false_and, false_or, List.count_cons_self,
      List.count_cons_of_ne (show Token.closeBrace ≠ .openBrace by decide)]
    constructor
    · rintro ⟨_, hclosed⟩ part hpart
      have := hclosed part hpart
      omega
    · intro hclosed
      have hdepth := hclosed [] List.nil_prefix
      simp only [List.count_nil] at hdepth
      refine ⟨by omega, fun part hpart ↦ ?_⟩
      have := hclosed part hpart
      omega
  · have hdeepen : token.deepen depth = depth := by
      unfold deepen
      split <;> trivial
    simp only [hopen, false_and, false_or, hdeepen, List.count_cons_of_ne hopen,
      List.count_cons_of_ne hclose]
    exact and_iff_right_of_imp fun hclosed ↦ by simpa using hclosed [] List.nil_prefix

/-- How many tokens there are up to the first semicolon outside of all braces, that one included. -/
def leftBehind (depth : Nat) : List Token → Nat
  | [] => 0
  | token :: rest =>
    if token = .semicolon ∧ depth = 0 then 1 else leftBehind (token.deepen depth) rest + 1

/-- The first semicolon outside of all braces, with some open before. -/
structure BoundaryFrom (depth : Nat) (tokens : List Token) (index : Nat) : Prop where
  semicolon : tokens[index]? = some .semicolon
  outside : ¬Within depth (tokens.take index)
  first : ∀ earlier, earlier < index → tokens[earlier]? = some .semicolon →
    Within depth (tokens.take earlier)

theorem boundaryFrom_zero :
    BoundaryFrom depth (token :: rest) 0 ↔ token = .semicolon ∧ depth = 0 := by
  constructor
  · intro h
    have houtside := h.outside
    rw [List.take_zero, within_nil] at houtside
    exact ⟨Option.some.inj h.semicolon, Nat.eq_zero_of_not_pos houtside⟩
  · rintro ⟨rfl, rfl⟩
    exact ⟨rfl, by rw [List.take_zero, within_nil]; exact Nat.lt_irrefl 0,
      fun earlier hearlier ↦ absurd hearlier (Nat.not_lt_zero _)⟩

theorem boundaryFrom_succ {index : Nat} (hstays : ¬(token = .semicolon ∧ depth = 0)) :
    BoundaryFrom depth (token :: rest) (index + 1) ↔
      BoundaryFrom (token.deepen depth) rest index := by
  constructor
  · intro h
    refine ⟨h.semicolon, fun hwithin ↦ h.outside (within_cons.mpr hwithin), ?_⟩
    intro earlier hearlier hsemicolon
    exact within_cons.mp (h.first (earlier + 1) (Nat.succ_lt_succ hearlier) hsemicolon)
  · intro h
    refine ⟨h.semicolon, fun hwithin ↦ h.outside (within_cons.mp hwithin), ?_⟩
    intro earlier hearlier hsemicolon
    cases earlier with
    | zero =>
      rw [List.take_zero, within_nil]
      exact Nat.pos_of_ne_zero fun hdepth ↦ hstays ⟨Option.some.inj hsemicolon, hdepth⟩
    | succ earlier =>
      exact within_cons.mpr (h.first earlier (Nat.lt_of_succ_lt_succ hearlier) hsemicolon)

theorem leftBehind_of_boundaryFrom {tokens : List Token} {index : Nat}
    (h : BoundaryFrom depth tokens index) : leftBehind depth tokens = index + 1 := by
  induction tokens generalizing depth index with
  | nil => exact absurd h.semicolon (by simp)
  | cons token rest ih =>
    rw [leftBehind]
    split
    · next hhere =>
      cases index with
      | zero => rfl
      | succ index =>
        have hwithin := h.first 0 (Nat.succ_pos _) (congrArg some hhere.1)
        rw [List.take_zero, within_nil, hhere.2] at hwithin
        exact absurd hwithin (Nat.lt_irrefl 0)
    · next hstays =>
      cases index with
      | zero => exact absurd (boundaryFrom_zero.mp h) hstays
      | succ index => rw [ih ((boundaryFrom_succ hstays).mp h)]

theorem leftBehind_of_forall_not {tokens : List Token}
    (h : ∀ index, ¬BoundaryFrom depth tokens index) : leftBehind depth tokens = tokens.length := by
  induction tokens generalizing depth with
  | nil => rfl
  | cons token rest ih =>
    rw [leftBehind]
    split
    · next hhere => exact absurd (boundaryFrom_zero.mpr hhere) (h 0)
    · next hstays =>
      rw [ih fun index hindex ↦ h (index + 1) ((boundaryFrom_succ hstays).mpr hindex),
        List.length_cons]

theorem leftBehind_le (depth : Nat) (tokens : List Token) :
    leftBehind depth tokens ≤ tokens.length := by
  induction tokens generalizing depth with
  | nil => exact Nat.le_refl _
  | cons token rest ih =>
    rw [leftBehind, List.length_cons]
    split
    · exact Nat.le_add_left _ _
    · exact Nat.succ_le_succ (ih _)

theorem leftBehind_pos {tokens : List Token} (h : tokens ≠ []) : 0 < leftBehind depth tokens := by
  cases tokens with
  | nil => exact absurd rfl h
  | cons token rest =>
    rw [leftBehind]
    split
    · exact Nat.one_pos
    · exact Nat.succ_pos _

theorem boundary_iff {tokens : List Token} {start index : Nat} :
    Boundary tokens start (start + index) ↔ BoundaryFrom 0 (tokens.drop start) index := by
  have hspan : ∀ count, (tokens.take (start + count)).drop start = (tokens.drop start).take count :=
    fun count ↦ by rw [List.drop_take, Nat.add_sub_cancel_left]
  constructor
  · intro h
    refine ⟨by rw [List.getElem?_drop]; exact h.semicolon, ?_, fun earlier hearlier hsemicolon ↦ ?_⟩
    · rw [within_zero, ← hspan]
      exact h.outside
    · rw [List.getElem?_drop] at hsemicolon
      rw [within_zero, ← hspan]
      exact h.first _ (Nat.le_add_right _ _) (Nat.add_lt_add_left hearlier _) hsemicolon
  · intro h
    refine ⟨Nat.le_add_right _ _, by rw [← List.getElem?_drop]; exact h.semicolon, ?_, ?_⟩
    · rw [hspan, ← within_zero]
      exact h.outside
    · intro earlier hle hlt hsemicolon
      obtain ⟨count, rfl⟩ := Nat.exists_eq_add_of_le hle
      rw [hspan, ← within_zero]
      refine h.first count (Nat.lt_of_add_lt_add_left hlt) ?_
      rw [List.getElem?_drop]
      exact hsemicolon

end Token

/-- The loop that looks for the boundary leaves so many tokens behind. -/
theorem Parser.afterBoundary_eq_drop (depth : Nat) (lexemes : List Lexeme) :
    afterBoundary depth lexemes =
      lexemes.drop (Token.leftBehind depth (lexemes.map Lexeme.token)) := by
  induction lexemes generalizing depth with
  | nil => rfl
  | cons lexeme rest ih =>
    rw [List.map_cons, Token.leftBehind]
    split
    · next hhere => rw [afterBoundary, hhere.1, hhere.2, if_pos rfl, List.drop_one, List.tail_cons]
    · next hstays =>
      rw [List.drop_succ_cons, ← ih, afterBoundary]
      unfold Token.deepen
      split
      · next hsemicolon =>
        rw [if_neg fun hdepth ↦ hstays ⟨hsemicolon, hdepth⟩, hsemicolon]
      · next hopen => rw [hopen]
      · next hclose => rw [hclose]
      · split <;> trivial

/-! ### Where a statement ends -/

namespace Grammar

/-- There are tokens, and the last of them is no semicolon. -/
def Unended (tokens : List Token) : Prop :=
  ∃ last, tokens.getLast? = some last ∧ last ≠ .semicolon

theorem unended_concat (tokens : List Token) (last : Token) (h : last ≠ .semicolon) :
    Unended (tokens ++ [last]) :=
  ⟨last, List.getLast?_concat, h⟩

theorem Unended.append {behind : List Token} (h : Unended behind) (before : List Token) :
    Unended (before ++ behind) := by
  obtain ⟨last, hlast, hne⟩ := h
  exact ⟨last, by rw [List.getLast?_append, hlast, Option.some_or], hne⟩

theorem Unended.cons {tokens : List Token} (h : Unended tokens) (token : Token) :
    Unended (token :: tokens) :=
  h.append [token]

mutual

theorem Expression.unended {level : Level} {tokens : List Token} {value : Expr} :
    Expression level tokens value → Unended tokens
  | .ident _ | .int _ | .str _ | .true | .false => unended_concat [] _ nofun
  | .parens _ => (unended_concat _ .closeParen nofun).cons _
  | .unary _ _ hoperand => hoperand.unended.cons _
  | .binary _ _ _ _ hright => (hright.unended.cons _).append _
  | .call _ _ _ => ((unended_concat _ .closeParen nofun).cons _).append _
  | .index _ _ _ => ((unended_concat _ .closeBracket nofun).cons _).append _
  | .branch _ hconsequence => (((hconsequence.unended.cons _).append _).cons _).cons _
  | .branchElse _ _ halternative =>
    (((((halternative.unended.cons _).append _).cons _).append _).cons _).cons _
  | .function hbody => (((hbody.unended.cons _).append _).cons _).cons _
  | .array _ => (unended_concat _ .closeBracket nofun).cons _
  | .hash _ => (unended_concat _ .closeBrace nofun).cons _

theorem Block.unended {tokens : List Token} {stmts : List Stmt} :
    Block tokens stmts → Unended tokens
  | .braces _ => (unended_concat _ .closeBrace nofun).cons _

end

theorem Clause.unended {tokens : List Token} {stmt : Stmt} :
    Clause tokens stmt → Unended tokens := by
  intro h
  cases h with
  | bind _ hvalue => exact ((hvalue.unended.cons _).cons _).cons _
  | ret hvalue => exact hvalue.unended.cons _
  | eval hvalue => exact hvalue.unended

end Grammar

namespace Parser

open Grammar

section Ended

variable {first second : Input} {extra fuel place : Nat} {stmt : Stmt} {after : Input}

/-- A statement takes a token. -/
theorem lt_of_statement_ok {next : Nat}
    (hok : statement fuel (first.behind place) = .ok stmt (first.behind next)) : place < next := by
  obtain ⟨taken, htaken, hstmt⟩ := exists_of_statement_ok hok
  rw [Input.tokens_behind, Input.tokens_behind] at htaken
  have hlength := congrArg List.length htaken
  rw [List.length_append, List.length_drop, List.length_drop] at hlength
  have hpos := List.length_pos_iff.mpr hstmt.ne_nil
  omega

/-- Behind its clause a statement has at most a semicolon. -/
theorem ending_ok (h : Beside first second False extra)
    (hseen : place < first.tokens.length ∨ first.tokens = second.tokens)
    (hplace : place ≤ first.tokens.length) {value : Stmt}
    (hok : (do let _ ← skipIf .semicolon; return value : Parser Stmt) (first.behind place) =
      .ok stmt after) :
    ∃ next, next ≤ first.tokens.length ∧ after = first.behind next ∧
      (do let _ ← skipIf .semicolon; return value : Parser Stmt) (second.behind place) =
        .ok stmt (second.behind next) := by
  have hfirst := skipIf_apply .semicolon (first.behind place)
  have hsecond := skipIf_apply .semicolon (second.behind place)
  rw [Input.head?_tokens_behind, Tracks.getElem?_eq h hseen] at hsecond
  rw [Input.head?_tokens_behind] at hfirst
  by_cases hsemicolon : first.tokens[place]? = some .semicolon
  · rw [if_pos hsemicolon, Input.next_behind] at hfirst hsecond
    rw [bind_of_ok hfirst] at hok
    cases hok
    exact ⟨place + 1, (List.getElem?_eq_some_iff.mp hsemicolon).1, rfl, bind_of_ok hsecond⟩
  · rw [if_neg hsemicolon] at hfirst hsecond
    rw [bind_of_ok hfirst] at hok
    cases hok
    exact ⟨place, hplace, rfl, bind_of_ok hsecond⟩

/-- A statement of the first input is one of the second, if the first ends where the second does or
with a semicolon. -/
theorem statement_ok_of_ended (h : Beside first second False extra)
    (hended : first.tokens = second.tokens ∨ first.tokens.getLast? = some .semicolon)
    (hplace : place ≤ first.tokens.length)
    (hok : statement fuel (first.behind place) = .ok stmt after) :
    ∃ next, next ≤ first.tokens.length ∧ after = first.behind next ∧
      statement (fuel + extra) (second.behind place) = .ok stmt (second.behind next) := by
  cases fuel with
  | zero =>
    rw [statement] at hok
    cases hok
  | succ fuel =>
    rw [statement_succ] at hok
    rw [Nat.add_right_comm, statement_succ]
    obtain ⟨value, middle, hclause, hending⟩ := bind_eq_ok_iff.mp hok
    obtain ⟨taken, next, -, hlength, rfl, htaken, hform, hsecond⟩ :=
      (clause_tracks h place (expr_tracks h fuel .lowest) (fun _ ↦ trivial) hplace).at_ok hclause
    -- The clause cannot reach up to a semicolon at the end, so the reader has seen what follows it.
    have hseen : next < first.tokens.length ∨ first.tokens = second.tokens := by
      refine hended.symm.imp_left fun hsemicolon ↦ Nat.lt_of_le_of_ne hlength fun heq ↦ ?_
      obtain ⟨last, hlast, hne⟩ := hform.unended
      rw [heq, List.drop_length, List.append_nil] at htaken
      rw [← htaken, List.getLast?_drop, hsemicolon] at hlast
      split at hlast
      · cases hlast
      · exact hne (Option.some.inj hlast).symm
    rw [bind_of_ok (hsecond hseen)]
    exact ending_ok h hseen hlength hending

end Ended

/-! ### The statements that are tried -/

@[simp] theorem Attempt.stmt?_ok (start : Nat) (stmt : Stmt) :
    Attempt.stmt? ⟨start, .ok stmt⟩ = some stmt := rfl

@[simp] theorem Attempt.stmt?_error (start : Nat) (error : ParseError) :
    Attempt.stmt? ⟨start, .error error⟩ = none := rfl

@[simp] theorem Attempt.error?_ok (start : Nat) (stmt : Stmt) :
    Attempt.error? ⟨start, .ok stmt⟩ = none := rfl

@[simp] theorem Attempt.error?_error (start : Nat) (error : ParseError) :
    Attempt.error? ⟨start, .error error⟩ = some error := rfl

section Attempts

variable {fuel rounds failures : Nat} {input after : Input}

theorem attempts_of_end (hend : (input.rest.isEmpty || decide (errorLimit ≤ failures)) = true) :
    attempts fuel rounds failures input = [] := by
  cases rounds with
  | zero => rw [attempts]
  | succ rounds => rw [attempts, if_pos hend]

theorem attempts_of_ok {stmt : Stmt}
    (hgoes : ¬(input.rest.isEmpty || decide (errorLimit ≤ failures)) = true)
    (hok : statement fuel input = .ok stmt after) :
    attempts fuel (rounds + 1) failures input =
      ⟨input.position, .ok stmt⟩ :: attempts fuel rounds failures after := by
  rw [attempts, if_neg hgoes]
  simp only [hok]

theorem attempts_of_error {error : ParseError}
    (hgoes : ¬(input.rest.isEmpty || decide (errorLimit ≤ failures)) = true)
    (herror : statement fuel input = .error error after) :
    attempts fuel (rounds + 1) failures input =
      ⟨input.position, .error error⟩ ::
        attempts fuel rounds (failures + 1) { after with rest := afterBoundary 0 after.rest } := by
  rw [attempts, if_neg hgoes]
  simp only [herror]

end Attempts

theorem program_eq_attempts (fuel rounds : Nat) (done : List Stmt) (errors : List ParseError)
    (input : Input) :
    program fuel rounds done errors input =
      (⟨done.reverse ++ (attempts fuel rounds errors.length input).filterMap Attempt.stmt?⟩,
        errors.reverse ++ (attempts fuel rounds errors.length input).filterMap Attempt.error?) := by
  induction rounds generalizing done errors input with
  | zero => simp [program, attempts]
  | succ rounds ih =>
    rw [program]
    split
    · next hend => simp [attempts_of_end hend]
    · next hgoes =>
      split
      · next hok =>
        rw [ih, attempts_of_ok hgoes hok]
        simp [List.filterMap_cons]
      · next herror =>
        rw [ih, attempts_of_error hgoes herror]
        simp [List.filterMap_cons]

/-- The place behind the boundary, looked for from an index on. -/
def resume (tokens : List Token) (index : Nat) : Nat :=
  index + Token.leftBehind 0 (tokens.drop index)

theorem afterBoundary_behind (input : Input) (place : Nat) :
    { input.behind place with rest := afterBoundary 0 (input.behind place).rest } =
      input.behind (resume input.tokens place) := by
  unfold resume
  rw [afterBoundary_eq_drop]
  simp [Input.behind, Input.tokens, List.map_drop]

theorem resume_le {tokens : List Token} {place : Nat} (h : place ≤ tokens.length) :
    resume tokens place ≤ tokens.length := by
  have hle := Token.leftBehind_le 0 (tokens.drop place)
  rw [List.length_drop] at hle
  unfold resume
  omega

theorem le_resume (tokens : List Token) (place : Nat) : place ≤ resume tokens place :=
  Nat.le_add_right _ _

theorem lt_resume {tokens : List Token} {place : Nat} (h : place < tokens.length) :
    place < resume tokens place :=
  Nat.lt_add_of_pos_right (Token.leftBehind_pos (by simpa using h))

theorem restart_le_of_refuses {tokens : List Token} {cause : ParseError.Cause}
    {position next : Nat} (h : Refuses tokens cause position next) :
    ParseError.restart ⟨position, cause⟩ ≤ next := by
  unfold ParseError.restart
  cases h with
  | here _ hcause =>
    split
    · next hrefused => exact absurd hrefused (hcause.ne_noOperand .semicolon)
    · exact Nat.le_refl _
  | behind =>
    split
    · exact Nat.le_refl _
    · exact Nat.le_succ _

/-- The reader stands at the error or behind it, but the boundary is the same. -/
theorem resume_of_refuses {tokens : List Token} {cause : ParseError.Cause} {position next : Nat}
    (h : Refuses tokens cause position next) :
    resume tokens next = resume tokens (ParseError.restart ⟨position, cause⟩) := by
  cases h with
  | here _ hcause =>
    unfold ParseError.restart
    split
    · next hrefused => exact absurd hrefused (hcause.ne_noOperand .semicolon)
    · rfl
  | @behind token _ htoken hbrace =>
    by_cases hsemicolon : token = .semicolon
    · rw [hsemicolon]
      rfl
    · have hrestart : ParseError.restart ⟨position, .noOperand token⟩ = position := by
        unfold ParseError.restart
        split
        · next hrefused => exact absurd (ParseError.Cause.noOperand.inj hrefused) hsemicolon
        · rfl
      have hdeepen : token.deepen 0 = 0 := by
        unfold Token.deepen
        split <;> trivial
      obtain ⟨hlt, hget⟩ := List.getElem?_eq_some_iff.mp htoken
      rw [hrestart, resume, resume, List.drop_eq_getElem_cons hlt, hget, Token.leftBehind,
        if_neg fun hhere ↦ hsemicolon hhere.1, hdeepen]
      omega

theorem resume_of_boundary {tokens : List Token} {start index : Nat}
    (h : Token.Boundary tokens start index) : resume tokens start = index + 1 := by
  obtain ⟨count, rfl⟩ := Nat.exists_eq_add_of_le h.le
  rw [resume, Token.leftBehind_of_boundaryFrom (Token.boundary_iff.mp h), Nat.add_assoc]

theorem resume_of_forall_not {tokens : List Token} {start : Nat} (hstart : start ≤ tokens.length)
    (h : ∀ index, ¬Token.Boundary tokens start index) : resume tokens start = tokens.length := by
  rw [resume, Token.leftBehind_of_forall_not fun index hindex ↦ h _ (Token.boundary_iff.mpr hindex),
    List.length_drop]
  omega

/-! ### Numbered tokens -/

@[simp] theorem Input.tokens_numbered (tokens : List Token) :
    (Input.numbered tokens).tokens = tokens := by
  refine List.ext_getElem? fun index ↦ ?_
  simp [Input.tokens, Input.numbered, Lexeme.numbered, Function.comp_def]

theorem Input.position_behind (input : Input) (place : Nat) :
    (input.behind place).position = (input.rest[place]?.map Lexeme.start).getD input.stop := by
  unfold position behind
  rw [← List.head?_drop]
  cases input.rest.drop place <;> rfl

theorem Input.position_numbered {tokens : List Token} {place : Nat} (h : place ≤ tokens.length) :
    ((Input.numbered tokens).behind place).position = place := by
  rw [position_behind, numbered, Lexeme.numbered, List.getElem?_mapIdx]
  by_cases hlt : place < tokens.length
  · simp [hlt]
  · have heq : place = tokens.length := by omega
    simp [heq]

theorem endOf_numbered (tokens : List Token) :
    Lexeme.endOf (Lexeme.numbered tokens) = tokens.length := by
  rcases List.eq_nil_or_concat tokens with rfl | ⟨before, last, rfl⟩
  · rfl
  · simp [Lexeme.endOf, Lexeme.numbered]

theorem readTokens_numbered (tokens : List Token) :
    Program.readTokens (Lexeme.numbered tokens) =
      (⟨(Program.attempts tokens).filterMap Attempt.stmt?⟩,
        (Program.attempts tokens).filterMap Attempt.error?) := by
  have hlength : (Lexeme.numbered tokens).length = tokens.length := List.length_mapIdx
  rw [Program.readTokens, hlength, endOf_numbered, program_eq_attempts]
  rfl

/-! ### From one statement to the next -/

section Behind

variable {input : Input} {fuel rounds failures place next : Nat}

theorem attempts_behind_of_end (h : input.tokens.length ≤ place ∨ errorLimit ≤ failures) :
    attempts fuel rounds failures (input.behind place) = [] :=
  attempts_of_end (by simpa [Input.behind, Input.tokens] using h)

theorem goes_behind (hplace : place < input.tokens.length) (hfailures : failures < errorLimit) :
    ¬((input.behind place).rest.isEmpty || decide (errorLimit ≤ failures)) = true := by
  simpa [Input.behind, Input.tokens] using And.intro hplace hfailures

theorem attempts_behind_of_ok (hplace : place < input.tokens.length)
    (hfailures : failures < errorLimit) {stmt : Stmt}
    (hok : statement fuel (input.behind place) = .ok stmt (input.behind next)) :
    attempts fuel (rounds + 1) failures (input.behind place) =
      ⟨(input.behind place).position, .ok stmt⟩ ::
        attempts fuel rounds failures (input.behind next) :=
  attempts_of_ok (goes_behind hplace hfailures) hok

theorem attempts_behind_of_error (hplace : place < input.tokens.length)
    (hfailures : failures < errorLimit) {error : ParseError}
    (herror : statement fuel (input.behind place) = .error error (input.behind next)) :
    attempts fuel (rounds + 1) failures (input.behind place) =
      ⟨(input.behind place).position, .error error⟩ ::
        attempts fuel rounds (failures + 1) (input.behind (resume input.tokens next)) := by
  rw [attempts_of_error (goes_behind hplace hfailures) herror, afterBoundary_behind]

end Behind

theorem Refuses.le {tokens : List Token} {cause : ParseError.Cause} {index next : Nat}
    (h : Refuses tokens cause index next) : index ≤ next := by
  cases h with
  | here => exact Nat.le_refl _
  | behind => exact Nat.le_succ _

/-- A statement of the numbered tokens is one of any input that has the same tokens, and an error
there is one here, at the token of that index. -/
theorem statement_numbered {tokens : List Token} {input : Input} (htokens : input.tokens = tokens)
    (fuel : Nat) {place : Nat} (hplace : place ≤ tokens.length) :
    StackScript.Ends (statement fuel) ((Input.numbered tokens).behind place)
      (fun stmt after ↦ ∃ next, next ≤ tokens.length ∧
        after = (Input.numbered tokens).behind next ∧
        statement fuel (input.behind place) = .ok stmt (input.behind next))
      (fun error after ↦ ∃ next, place ≤ next ∧ next ≤ tokens.length ∧
        after = (Input.numbered tokens).behind next ∧
        Refuses tokens error.cause error.position next ∧
        statement fuel (input.behind place) =
          .error ⟨(input.behind error.position).position, error.cause⟩ (input.behind next)) := by
  have hsame : (Input.numbered tokens).tokens = input.tokens := by
    rw [Input.tokens_numbered, htokens]
  have hbeside : Beside (Input.numbered tokens) input True 0 :=
    ⟨hsame ▸ List.prefix_refl _, fun _ ↦ rfl⟩
  have htracks := statement_tracks hbeside fuel place (fun _ ↦ trivial)
    (by rwa [Input.tokens_numbered])
  rw [Input.tokens_numbered] at htracks
  refine htracks.mono ?_ ?_
  · rintro stmt after ⟨_, next, -, hnext, rfl, -, -, hstmt⟩
    exact ⟨next, hnext, rfl, hstmt (.inr htokens.symm)⟩
  · rintro error after ⟨index, next, hle, hnext, hindex, rfl, hrefuses, -, herror⟩
    rw [Input.position_numbered (Nat.le_trans hrefuses.le hnext)] at hindex
    rw [hindex]
    exact ⟨next, hle, hnext, rfl, hrefuses, herror htokens.symm fun _ ↦ trivial⟩

/-- What was tried in the numbered tokens, at its place in another input of the same tokens. -/
def Attempt.placed (input : Input) (attempt : Attempt) : Attempt :=
  ⟨(input.behind attempt.start).position,
    attempt.outcome.mapError fun error ↦ ⟨(input.behind error.position).position, error.cause⟩⟩

/-- The offsets in a text do not matter for what is tried. -/
theorem attempts_behind {tokens : List Token} {input : Input} (htokens : input.tokens = tokens)
    (fuel rounds failures : Nat) {place : Nat} (hplace : place ≤ tokens.length) :
    attempts fuel rounds failures (input.behind place) =
      (attempts fuel rounds failures ((Input.numbered tokens).behind place)).map
        (Attempt.placed input) := by
  induction rounds generalizing failures place with
  | zero => simp only [attempts, List.map_nil]
  | succ rounds ih =>
    by_cases hend : tokens.length ≤ place ∨ errorLimit ≤ failures
    · rw [attempts_behind_of_end (by rwa [htokens]),
        attempts_behind_of_end (by rwa [Input.tokens_numbered]), List.map_nil]
    obtain ⟨hlt, hfailures⟩ := not_or.mp hend
    rw [Nat.not_le] at hlt hfailures
    have hinput : place < input.tokens.length := by rwa [htokens]
    have hnumbered : place < (Input.numbered tokens).tokens.length := by
      rwa [Input.tokens_numbered]
    have hstatement := statement_numbered htokens fuel hplace
    cases hfirst : statement fuel ((Input.numbered tokens).behind place) with
    | ok stmt after =>
      obtain ⟨next, hnext, rfl, hok⟩ := hstatement.at_ok hfirst
      rw [attempts_behind_of_ok hinput hfailures hok,
        attempts_behind_of_ok hnumbered hfailures hfirst, List.map_cons, ih failures hnext,
        Attempt.placed, Input.position_numbered hplace]
      rfl
    | error error after =>
      obtain ⟨next, -, hnext, rfl, -, herror⟩ := hstatement.at_error hfirst
      rw [attempts_behind_of_error hinput hfailures herror,
        attempts_behind_of_error hnumbered hfailures hfirst, List.map_cons, Input.tokens_numbered,
        htokens, ih (failures + 1) (resume_le hnext), Attempt.placed,
        Input.position_numbered hplace]
      rfl

end Parser

theorem Lexeme.offset_eq (lexemes : List Lexeme) (index : Nat) :
    Lexeme.offset lexemes index =
      ((⟨lexemes, Lexeme.endOf lexemes⟩ : Parser.Input).behind index).position := by
  rw [Parser.Input.position_behind, Lexeme.offset]
  cases lexemes[index]? <;> rfl

theorem Program.readTokens_eq_collected (lexemes : List Lexeme) :
    readTokens lexemes = collected lexemes (attempts (lexemes.map Lexeme.token)) := by
  have htokens : (⟨lexemes, Lexeme.endOf lexemes⟩ : Parser.Input).tokens =
      lexemes.map Lexeme.token := rfl
  have hattempts := Parser.attempts_behind htokens (8 * lexemes.length + 8) lexemes.length 0
    (Nat.zero_le _)
  have hstmt : ∀ attempt : Parser.Attempt,
      (attempt.placed ⟨lexemes, Lexeme.endOf lexemes⟩).stmt? = attempt.stmt? := by
    rintro ⟨start, outcome | outcome⟩ <;> rfl
  have herror : ∀ attempt : Parser.Attempt,
      (attempt.placed ⟨lexemes, Lexeme.endOf lexemes⟩).error? =
        attempt.error?.map (ParseError.located lexemes) := by
    rintro ⟨start, outcome | outcome⟩
    · have hoffset := (Lexeme.offset_eq lexemes outcome.position).symm
      exact congrArg (fun offset ↦ some (ParseError.mk offset outcome.cause)) hoffset
    · rfl
  rw [readTokens, Parser.program_eq_attempts, collected, attempts, List.length_map]
  refine Prod.ext (congrArg Program.mk ?_) ?_
  · refine (congrArg (List.filterMap Parser.Attempt.stmt?) hattempts).trans ?_
    rw [List.filterMap_map]
    exact congrFun (congrArg List.filterMap (funext hstmt)) _
  · refine (congrArg (List.filterMap Parser.Attempt.error?) hattempts).trans ?_
    rw [List.filterMap_map, List.map_filterMap]
    exact congrFun (congrArg List.filterMap (funext herror)) _

namespace Parser

variable {tokens : List Token}

theorem length_sub_resume_le {rounds place next : Nat} (hle : place ≤ next)
    (hrounds : tokens.length - place ≤ rounds + 1) :
    tokens.length - resume tokens next ≤ rounds := by
  by_cases hlt : next < tokens.length
  · have := lt_resume hlt
    omega
  · have := le_resume tokens next
    omega

/-- What is tried behind an error begins behind the boundary. -/
theorem exists_attempts_of_append {fuel rounds failures place : Nat} {before behind : List Attempt}
    {start : Nat} {error : ParseError} (hplace : place ≤ tokens.length)
    (hrounds : tokens.length - place ≤ rounds)
    (h : attempts fuel rounds failures ((Input.numbered tokens).behind place) =
      before ++ ⟨start, .error error⟩ :: behind) :
    ∃ next more, next ≤ tokens.length ∧ Refuses tokens error.cause error.position next ∧
      tokens.length - resume tokens next ≤ more ∧
      behind = attempts fuel more (failures + (before.filterMap Attempt.error?).length + 1)
        ((Input.numbered tokens).behind (resume tokens next)) := by
  induction rounds generalizing failures place before with
  | zero => 
    rw [attempts] at h
    exact absurd h (by simp)
  | succ rounds ih =>
    have hlength := congrArg List.length (Input.tokens_numbered tokens)
    by_cases hend : tokens.length ≤ place ∨ errorLimit ≤ failures
    · rw [attempts_behind_of_end (by rwa [hlength])] at h
      exact absurd h (by simp)
    obtain ⟨hlt, hfailures⟩ := not_or.mp hend
    rw [Nat.not_le] at hlt hfailures
    have hstatement := statement_numbered (Input.tokens_numbered tokens) fuel hplace
    cases hfirst : statement fuel ((Input.numbered tokens).behind place) with
    | ok stmt after =>
      obtain ⟨next, hnext, rfl, _⟩ := hstatement.at_ok hfirst
      have hprogress := lt_of_statement_ok hfirst
      rw [attempts_behind_of_ok (by rwa [hlength]) hfailures hfirst] at h
      cases before with
      | nil => simp at h
      | cons first before =>
        rw [List.cons_append] at h
        obtain ⟨rfl, hrest⟩ := List.cons.inj h
        have hbehind := ih hnext (by omega) hrest
        rwa [List.filterMap_cons, Attempt.error?_ok]
    | error found after =>
      obtain ⟨next, hle, hnext, rfl, hrefuses, _⟩ := hstatement.at_error hfirst
      rw [attempts_behind_of_error (by rwa [hlength]) hfailures hfirst, Input.tokens_numbered] at h
      cases before with
      | nil =>
        obtain ⟨hhead, rfl⟩ := List.cons.inj h
        cases hhead
        exact ⟨next, rounds, hnext, hrefuses, length_sub_resume_le hle hrounds, rfl⟩
      | cons first before =>
        rw [List.cons_append] at h
        obtain ⟨rfl, hrest⟩ := List.cons.inj h
        obtain ⟨last, more, hlast, hrefused, hmore, rfl⟩ :=
          ih (resume_le hnext) (length_sub_resume_le hle hrounds) hrest
        refine ⟨last, more, hlast, hrefused, hmore, ?_⟩
        simp only [List.filterMap_cons, Attempt.error?_error, List.length_cons, Nat.add_assoc,
          Nat.add_comm 1]

theorem head?_attempts {fuel rounds failures place : Nat} (hrounds : tokens.length - place ≤ rounds)
    (hfailures : failures < errorLimit) :
    (attempts fuel rounds failures ((Input.numbered tokens).behind place)).head?.map Attempt.start =
      if place < tokens.length then some place else none := by
  split
  · next hlt =>
    obtain ⟨more, rfl⟩ := Nat.exists_eq_add_one.mpr (Nat.lt_of_lt_of_le (by omega) hrounds)
    have hnumbered : place < (Input.numbered tokens).tokens.length := by
      rwa [Input.tokens_numbered]
    have hposition := Input.position_numbered (Nat.le_of_lt hlt)
    rw [attempts, if_neg (goes_behind hnumbered hfailures), hposition]
    split <;> rfl
  · next hend =>
    rw [attempts_behind_of_end (.inl (by rw [Input.tokens_numbered]; omega))]
    rfl

/-- Statements that are read from the first input without an error are read from the second. -/
theorem prefix_outcomes {first second : Input} {extra fuel rounds more failures place : Nat}
    (h : Beside first second False extra)
    (hended : first.tokens = second.tokens ∨ first.tokens.getLast? = some .semicolon)
    (hplace : place ≤ first.tokens.length) (hmore : second.tokens.length - place ≤ more)
    (hfailures : failures < errorLimit)
    (hread : (attempts fuel rounds 0 (first.behind place)).filterMap Attempt.error? = []) :
    (attempts fuel rounds 0 (first.behind place)).map Attempt.outcome <+:
      (attempts (fuel + extra) more failures (second.behind place)).map Attempt.outcome := by
  induction rounds generalizing more place with
  | zero =>
    rw [attempts]
    exact List.nil_prefix
  | succ rounds ih =>
    by_cases hend : first.tokens.length ≤ place
    · rw [attempts_behind_of_end (.inl hend)]
      exact List.nil_prefix
    rw [Nat.not_le] at hend
    have hlength := h.tokens.length_le
    obtain ⟨more, rfl⟩ := Nat.exists_eq_add_one.mpr (Nat.lt_of_lt_of_le (by omega) hmore)
    cases hfirst : statement fuel (first.behind place) with
    | ok stmt after =>
      obtain ⟨next, hnext, rfl, hsecond⟩ := statement_ok_of_ended h hended hplace hfirst
      have hprogress := lt_of_statement_ok hfirst
      rw [attempts_behind_of_ok hend (by decide) hfirst] at hread ⊢
      rw [attempts_behind_of_ok (by omega) hfailures hsecond]
      rw [List.filterMap_cons, Attempt.error?_ok] at hread
      rw [List.map_cons, List.map_cons, List.prefix_cons_inj]
      exact ih hnext (by omega) hread
    | error error after =>
      rw [attempts_of_error (goes_behind hend (by decide)) hfirst, List.filterMap_cons,
        Attempt.error?_error] at hread
      cases hread

theorem outcomes_of_no_error {tried : List Attempt} (h : tried.filterMap Attempt.error? = []) :
    tried.map Attempt.outcome = (tried.filterMap Attempt.stmt?).map .ok := by
  induction tried with
  | nil => rfl
  | cons attempt rest ih =>
    obtain ⟨start, error | stmt⟩ := attempt
    · rw [List.filterMap_cons, Attempt.error?_error] at h
      cases h
    · rw [List.filterMap_cons, Attempt.error?_ok] at h
      rw [List.map_cons, ih h, List.filterMap_cons, Attempt.stmt?_ok, List.map_cons]

end Parser

namespace Program

open StackScript.Parser

theorem attempts_of_ofTokens {tokens : List Token} {program : Program}
    (h : ofTokens (Lexeme.numbered tokens) = .ok program) :
    (attempts tokens).filterMap Attempt.error? = [] ∧
      (attempts tokens).map Attempt.outcome = program.statements.map .ok := by
  rw [ofTokens, readTokens_numbered] at h
  split at h
  · next read hread =>
    cases h
    obtain ⟨rfl, herrors⟩ := Prod.mk.inj hread
    exact ⟨herrors, outcomes_of_no_error herrors⟩
  · cases h

/-- Reading goes on at a place with fewer errors than end it. -/
theorem resumesAt_attempts {tokens : List Token} {more failures index : Nat}
    (hindex : index ≤ tokens.length) (hmore : tokens.length - index ≤ more)
    (hfailures : failures < errorLimit) :
    ResumesAt tokens index (Parser.attempts (8 * tokens.length + 8) more failures
      ((Input.numbered tokens).behind index)) := by
  refine ⟨head?_attempts hmore hfailures, ?_⟩
  intro front rest program hdrop hended hprogram
  obtain ⟨herrors, houtcomes⟩ := attempts_of_ofTokens hprogram
  have htokens : ((Input.numbered tokens).behind index).tokens = front ++ rest := by
    rw [Input.tokens_behind, Input.tokens_numbered, hdrop]
  have hbeside : Beside (Input.numbered front) ((Input.numbered tokens).behind index) False
      (8 * (tokens.length - front.length)) :=
    ⟨by rw [Input.tokens_numbered, htokens]; exact List.prefix_append _ _, False.elim⟩
  have hends : (Input.numbered front).tokens = ((Input.numbered tokens).behind index).tokens ∨
      (Input.numbered front).tokens.getLast? = some .semicolon := by
    rw [htokens, Input.tokens_numbered]
    exact hended.imp_left fun hrest ↦ by rw [hrest, List.append_nil]
  have hlength := congrArg List.length hdrop
  rw [List.length_drop] at hlength
  have hspan : ((Input.numbered tokens).behind index).tokens.length - 0 ≤ more := by
    rw [htokens, ← hlength]
    exact hmore
  have hfront := prefix_outcomes hbeside hends (Nat.zero_le _) hspan hfailures herrors
  have hfuel : 8 * front.length + 8 + 8 * (tokens.length - front.length) =
      8 * tokens.length + 8 := by
    rw [List.length_append] at hlength
    omega
  rw [hfuel] at hfront
  rw [← houtcomes]
  exact hfront

/-- Spec §E2, recovery from syntax errors. For any tokens and any error that is found in them, short
of the limit on errors: reading goes on behind the first semicolon from the error on that is in none
of the braces opened from there on, and ends if there is none. A semicolon in the place of an
operand is the exception: it does not count, and reading goes on behind the next one. -/
theorem resumes_behind_boundary (lexemes : List Lexeme) :
    readTokens lexemes = collected lexemes (attempts (lexemes.map Lexeme.token)) ∧
    ∀ before behind start error,
      attempts (lexemes.map Lexeme.token) = before ++ ⟨start, .error error⟩ :: behind →
      (before.filterMap Attempt.error?).length + 1 < errorLimit →
      error.position ≤ lexemes.length ∧
      (∀ index, Token.Boundary (lexemes.map Lexeme.token) error.restart index →
        ResumesAt (lexemes.map Lexeme.token) (index + 1) behind) ∧
      ((∀ index, ¬Token.Boundary (lexemes.map Lexeme.token) error.restart index) →
        behind = []) := by
  refine ⟨readTokens_eq_collected lexemes, ?_⟩
  intro before behind start error htried hlimit
  have hlength : (lexemes.map Lexeme.token).length = lexemes.length := List.length_map _
  obtain ⟨next, more, hnext, hrefuses, hmore, rfl⟩ :=
    exists_attempts_of_append (Nat.zero_le _) (Nat.le_refl _) htried
  have hresume := resume_of_refuses hrefuses
  refine ⟨hlength ▸ Nat.le_trans hrefuses.le hnext, fun index hboundary ↦ ?_, fun hnone ↦ ?_⟩
  · rw [resume_of_boundary hboundary] at hresume
    rw [hresume] at hmore ⊢
    have hindex := (List.getElem?_eq_some_iff.mp hboundary.semicolon).1
    exact resumesAt_attempts hindex hmore (by omega)
  · rw [resume_of_forall_not (Nat.le_trans (restart_le_of_refuses hrefuses) hnext) hnone] at hresume
    rw [hresume]
    exact attempts_behind_of_end (.inl (Nat.le_of_eq (congrArg _ (Input.tokens_numbered _))))

/-- The text `let x 5; let y = 1;`. -/
def unassigned : List Token :=
  [.letKeyword, .identifier "x", .integer 5, .semicolon,
    .letKeyword, .identifier "y", .assign, .integer 1, .semicolon]

theorem resumes_behind_boundary_unassigned :
    attempts unassigned = [] ++ ⟨0, .error ⟨2, .expected .assign (some (.integer 5))⟩⟩ ::
      [⟨4, .ok (.bind "y" (.int 1))⟩] ∧
    Token.Boundary unassigned 2 3 ∧
    ResumesAt unassigned 4 [⟨4, .ok (.bind "y" (.int 1))⟩] := by
  have htried : attempts unassigned =
      [] ++ ⟨0, .error ⟨2, .expected .assign (some (.integer 5))⟩⟩ ::
        [⟨4, .ok (.bind "y" (.int 1))⟩] := rfl
  have hboundary : Token.Boundary unassigned 2 3 := by
    refine ⟨by decide, rfl, ?_, ?_⟩
    · exact fun hinside ↦ absurd hinside.mem (by decide)
    · intro earlier hle hlt hsemicolon
      obtain rfl : earlier = 2 := by omega
      cases hsemicolon
  have hresumes := (resumes_behind_boundary (Lexeme.numbered unassigned)).2 [] _ 0 _ htried
    (by decide)
  exact ⟨htried, hboundary, hresumes.2.1 3 hboundary⟩

/-- The text `let x = ; let y = 1;`. -/
def valueless : List Token :=
  [.letKeyword, .identifier "x", .assign, .semicolon,
    .letKeyword, .identifier "y", .assign, .integer 1, .semicolon]

/-- A semicolon in the place of an operand is left behind with the statement, and the next one is
lost. -/
theorem semicolon_operand_loses_next :
    attempts valueless = [⟨0, .error ⟨3, .noOperand .semicolon⟩⟩] ∧
    Token.Boundary valueless 3 3 ∧ ¬ResumesAt valueless 4 [] := by
  refine ⟨rfl, ⟨Nat.le_refl _, rfl, ?_, ?_⟩, ?_⟩
  · exact fun hinside ↦ absurd hinside.mem (by decide)
  · intro earlier hle hlt
    omega
  · intro hresumes
    have hstart := hresumes.start
    cases hstart

end Program

end StackScript
