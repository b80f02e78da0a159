import StackScript.Proofs.Program.Forms
import StackScript.Proofs.Token.Scan

/-!
What is written can be read. All parts of a program that can be written are found at their places
(`Expr.found`, `Stmt.stated`), and all its tokens can be written; so the text of the program is read
as the program (`Program.ofSource_print`).
-/

set_option autoImplicit false
set_option relaxedAutoImplicit false

namespace StackScript

open Grammar

/-! ### Whole trees

A function literal that a `let` names has no name where it is read, so the trees are found without
the name of the outermost literal (`Expr.bare`). -/

/-- A function literal before a `let` names it. -/
def Expr.bare : Expr → Expr
  | .function parameters body _ => .function parameters body none
  | value => value

theorem Expr.bare_eq_self {value : Expr} (h : value.letNamed) : value.bare = value := by
  cases value with
  | function parameters body name =>
    simp only [letNamed, Bool.and_eq_true, beq_iff_eq] at h
    rw [bare, h.1]
  | _ => rfl

theorem Stmt.bare_of_letNamed_bind {name : String} {value : Expr}
    (h : (Stmt.bind name value).letNamed) :
    value.bare.letNamed ∧ value.bare.named name = value := by
  cases value with
  | function parameters body given =>
    simp only [letNamed, Bool.and_eq_true, beq_iff_eq] at h
    simp [Expr.bare, Expr.letNamed, Expr.named, h.1, h.2]
  | _ => exact ⟨by simpa only [letNamed, Expr.bare] using h, rfl⟩

theorem Parser.Found.of_bare {value : Expr} (hnamed : value.letNamed)
    (h : value.bare.letNamed → Parser.Found value.level value.tokens value.bare) :
    Parser.Found value.level value.tokens value := by
  rw [Expr.bare_eq_self hnamed] at h
  exact h hnamed

mutual

theorem Expr.found : (value : Expr) → value.writable → value.bare.letNamed →
    Parser.Found value.level value.tokens value.bare
  | .ident name, _, _ => by
    rw [Expr.tokens]
    exact .atom (.ident name)
  | .int value, _, _ => by
    rw [Expr.tokens]
    exact .atom (.int value)
  | .str content, _, _ => by
    rw [Expr.tokens]
    exact .atom (.str content)
  | .bool true, _, _ => by
    rw [Expr.tokens]
    exact .atom .true
  | .bool false, _, _ => by
    rw [Expr.tokens]
    exact .atom .false
  | .unary op value, hwritable, hnamed => by
    simp only [Expr.writable, Bool.and_eq_true, List.contains_iff_mem] at hwritable
    simp only [Expr.bare, Expr.letNamed] at hnamed
    rw [Expr.tokens]
    exact .unary (Level.mem_signs_ofOperator op hwritable.1)
      (Parser.Found.of_bare hnamed (value.found hwritable.2)).placed
  | .binary op left right, hwritable, hnamed => by
    simp only [Expr.writable, Bool.and_eq_true, List.contains_iff_mem] at hwritable
    simp only [Expr.bare, Expr.letNamed, Bool.and_eq_true] at hnamed
    rw [Expr.tokens]
    exact .binary (Level.mem_operators_ofOperator op hwritable.1.1)
      (Parser.Found.of_bare hnamed.1 (left.found hwritable.1.2)).placed
      (Parser.Found.of_bare hnamed.2 (right.found hwritable.2)).placed
  | .branch condition stmts none, hwritable, hnamed => by
    simp only [Expr.writable, Bool.and_eq_true] at hwritable
    simp only [Expr.bare, Expr.letNamed, Bool.and_eq_true] at hnamed
    rw [Expr.tokens]
    exact .branch (.of_bare hnamed.1 (condition.found hwritable.1))
      (Stmt.stated stmts hwritable.2 hnamed.2)
  | .branch condition stmts (some others), hwritable, hnamed => by
    simp only [Expr.writable, Bool.and_eq_true] at hwritable
    simp only [Expr.bare, Expr.letNamed, Bool.and_eq_true] at hnamed
    rw [Expr.tokens]
    exact .branchElse (.of_bare hnamed.1.1 (condition.found hwritable.1.1))
      (Stmt.stated stmts hwritable.1.2 hnamed.1.2) (Stmt.stated others hwritable.2 hnamed.2)
  | .function parameters stmts name, hwritable, hnamed => by
    simp only [Expr.writable, Bool.and_eq_true] at hwritable
    simp only [Expr.bare, Expr.letNamed, Bool.and_eq_true] at hnamed
    rw [Expr.tokens]
    exact .function parameters (Stmt.stated stmts hwritable.2 hnamed.2)
  | .call callee arguments, hwritable, hnamed => by
    simp only [Expr.writable, Bool.and_eq_true] at hwritable
    simp only [Expr.bare, Expr.letNamed, Bool.and_eq_true] at hnamed
    rw [Expr.tokens]
    exact .call (Parser.Found.of_bare hnamed.1 (callee.found hwritable.1)).placed
      (Parser.items_reads (by decide) (Expr.foundAll arguments hwritable.2 hnamed.2))
  | .array elements, hwritable, hnamed => by
    simp only [Expr.writable] at hwritable
    simp only [Expr.bare, Expr.letNamed] at hnamed
    rw [Expr.tokens]
    exact .array (Expr.foundAll elements hwritable hnamed)
  | .hash pairs, hwritable, hnamed => by
    simp only [Expr.writable] at hwritable
    simp only [Expr.bare, Expr.letNamed] at hnamed
    rw [Expr.tokens]
    exact .hash (Expr.foundPairs pairs hwritable hnamed)
  | .index collection position, hwritable, hnamed => by
    simp only [Expr.writable, Bool.and_eq_true] at hwritable
    simp only [Expr.bare, Expr.letNamed, Bool.and_eq_true] at hnamed
    rw [Expr.tokens]
    exact .index (Parser.Found.of_bare hnamed.1 (collection.found hwritable.1)).placed
      (Parser.Found.of_bare hnamed.2 (position.found hwritable.2))

theorem Stmt.stated : (stmts : List Stmt) → Stmt.writableAll stmts → Stmt.letNamedAll stmts →
    ∀ stmt ∈ stmts, Parser.Stated stmt.tokens stmt
  | [], _, _ => nofun
  | stmt :: others, hwritable, hnamed => by
    simp only [Stmt.writableAll, Bool.and_eq_true] at hwritable
    simp only [Stmt.letNamedAll, Bool.and_eq_true] at hnamed
    refine List.forall_mem_cons.mpr ⟨?_, Stmt.stated others hwritable.2 hnamed.2⟩
    cases stmt with
    | bind name value =>
      simp only [Stmt.writable, Bool.and_eq_true] at hwritable
      -- A literal is read without a name, and takes it from the `let` that reads it.
      obtain ⟨hbare, hvalue⟩ := Stmt.bare_of_letNamed_bind hnamed.1
      have h := Parser.Stated.bind name (value.found hwritable.1.2 hbare)
      rwa [hvalue] at h
    | ret value =>
      simp only [Stmt.writable] at hwritable
      simp only [Stmt.letNamed] at hnamed
      exact .ret (.of_bare hnamed.1 (value.found hwritable.1))
    | eval value =>
      simp only [Stmt.writable] at hwritable
      simp only [Stmt.letNamed] at hnamed
      exact .eval (.of_bare hnamed.1 (value.found hwritable.1))

theorem Expr.foundAll : (values : List Expr) → Expr.writableAll values →
    Expr.letNamedAll values → ∀ value ∈ values, Parser.Found value.level value.tokens value
  | [], _, _ => nofun
  | value :: others, hwritable, hnamed => by
    simp only [Expr.writableAll, Bool.and_eq_true] at hwritable
    simp only [Expr.letNamedAll, Bool.and_eq_true] at hnamed
    exact List.forall_mem_cons.mpr ⟨.of_bare hnamed.1 (value.found hwritable.1),
      Expr.foundAll others hwritable.2 hnamed.2⟩

theorem Expr.foundPairs : (pairs : List (Expr × Expr)) → Expr.writablePairs pairs →
    Expr.letNamedPairs pairs → ∀ pair ∈ pairs,
      Parser.Found pair.1.level pair.1.tokens pair.1 ∧ Parser.Found pair.2.level pair.2.tokens pair.2
  | [], _, _ => nofun
  | (key, value) :: others, hwritable, hnamed => by
    simp only [Expr.writablePairs, Bool.and_eq_true] at hwritable
    simp only [Expr.letNamedPairs, Bool.and_eq_true] at hnamed
    exact List.forall_mem_cons.mpr ⟨⟨.of_bare hnamed.1.1 (key.found hwritable.1.1),
      .of_bare hnamed.1.2 (value.found hwritable.1.2)⟩,
      Expr.foundPairs others hwritable.2 hnamed.2⟩

end

/-! ### Texts -/

namespace Grammar

@[simp] theorem all_writable_placed (required level : Level) (tokens : List Token) :
    (placed required level tokens).all Token.writable = tokens.all Token.writable := by
  rw [placed]
  split
  · simp [Token.writable]
  · rfl

@[simp] theorem all_writable_braces (tokens : List Token) :
    (braces tokens).all Token.writable = tokens.all Token.writable := by
  simp [braces, Token.writable]

@[simp] theorem all_writable_listed (parts : List (List Token)) :
    (listed parts).all Token.writable = parts.all fun part ↦ part.all Token.writable := by
  cases parts with
  | nil => rfl
  | cons first others => simp [listed_cons, List.all_flatMap, Token.writable]

@[simp] theorem all_writable_nameList (names : List String) :
    (nameList names).all Token.writable = names.all Token.isName := by
  cases names with
  | nil => rfl
  | cons name others => simp [nameList_cons, List.all_flatMap, Token.writable]

theorem writable_of_mem_signs : ∀ op ∈ signs.map Prod.snd, (Token.ofOperator op).writable := by
  decide

theorem writable_of_mem_binaryOperators :
    ∀ op ∈ Level.binaryOperators, (Token.ofOperator op).writable := by
  decide

end Grammar

mutual

theorem Expr.all_writable_tokens :
    (value : Expr) → value.writable → value.tokens.all Token.writable
  | .ident name, h => by simpa [Expr.tokens, Expr.writable] using h
  | .int value, h => by simpa [Expr.tokens, Expr.writable] using h
  | .str content, h => by simpa [Expr.tokens, Expr.writable] using h
  | .bool true, _ => by simp [Expr.tokens, Token.writable]
  | .bool false, _ => by simp [Expr.tokens, Token.writable]
  | .unary op value, h => by
    simp only [Expr.writable, Bool.and_eq_true, List.contains_iff_mem] at h
    simp [Expr.tokens, writable_of_mem_signs op h.1, value.all_writable_tokens h.2]
  | .binary op left right, h => by
    simp only [Expr.writable, Bool.and_eq_true, List.contains_iff_mem] at h
    simp [Expr.tokens, writable_of_mem_binaryOperators op h.1.1, left.all_writable_tokens h.1.2,
      right.all_writable_tokens h.2]
  | .branch condition stmts none, h => by
    simp only [Expr.writable, Bool.and_eq_true] at h
    simp [Expr.tokens, Token.writable, condition.all_writable_tokens h.1,
      Stmt.all_writable_tokensAll stmts h.2]
  | .branch condition stmts (some others), h => by
    simp only [Expr.writable, Bool.and_eq_true] at h
    simp [Expr.tokens, Token.writable, condition.all_writable_tokens h.1.1,
      Stmt.all_writable_tokensAll stmts h.1.2, Stmt.all_writable_tokensAll others h.2]
  | .function parameters stmts name, h => by
    simp only [Expr.writable, Bool.and_eq_true] at h
    simp [Expr.tokens, Token.writable, h.1, Stmt.all_writable_tokensAll stmts h.2]
  | .call callee arguments, h => by
    simp only [Expr.writable, Bool.and_eq_true] at h
    simp [Expr.tokens, Token.writable, callee.all_writable_tokens h.1,
      Expr.all_writable_tokensEach arguments h.2]
  | .array elements, h => by
    simp only [Expr.writable] at h
    simp [Expr.tokens, Token.writable, Expr.all_writable_tokensEach elements h]
  | .hash pairs, h => by
    simp only [Expr.writable] at h
    simp [Expr.tokens, Expr.all_writable_tokensPairs pairs h]
  | .index collection position, h => by
    simp only [Expr.writable, Bool.and_eq_true] at h
    simp [Expr.tokens, Token.writable, collection.all_writable_tokens h.1,
      position.all_writable_tokens h.2]

theorem Stmt.all_writable_tokensAll : (stmts : List Stmt) → Stmt.writableAll stmts →
    (Stmt.tokensAll stmts).all Token.writable
  | [], _ => by simp [Stmt.tokensAll]
  | .bind name value :: others, h => by
    simp only [Stmt.writableAll, Stmt.writable, Bool.and_eq_true] at h
    simp [Stmt.tokensAll, Stmt.tokens, Token.writable, h.1.1, value.all_writable_tokens h.1.2,
      Stmt.all_writable_tokensAll others h.2]
  | .ret value :: others, h | .eval value :: others, h => by
    simp only [Stmt.writableAll, Stmt.writable, Bool.and_eq_true] at h
    simp [Stmt.tokensAll, Stmt.tokens, Token.writable, value.all_writable_tokens h.1,
      Stmt.all_writable_tokensAll others h.2]

theorem Expr.all_writable_tokensEach : (values : List Expr) → Expr.writableAll values →
    (Expr.tokensEach values).all fun part ↦ part.all Token.writable
  | [], _ => by simp [Expr.tokensEach]
  | value :: others, h => by
    simp only [Expr.writableAll, Bool.and_eq_true] at h
    simp [Expr.tokensEach, value.all_writable_tokens h.1, Expr.all_writable_tokensEach others h.2]

theorem Expr.all_writable_tokensPairs : (pairs : List (Expr × Expr)) → Expr.writablePairs pairs →
    (Expr.tokensPairs pairs).all fun part ↦ part.all Token.writable
  | [], _ => by simp [Expr.tokensPairs]
  | (key, value) :: others, h => by
    simp only [Expr.writablePairs, Bool.and_eq_true] at h
    simp [Expr.tokensPairs, Token.writable, key.all_writable_tokens h.1.1,
      value.all_writable_tokens h.1.2, Expr.all_writable_tokensPairs others h.2]

end

namespace Parser

theorem program_stated {stmts : List Stmt} (h : ∀ stmt ∈ stmts, Stated stmt.tokens stmt)
    {fuel rounds : Nat} (done : List Stmt) (input : Input)
    (htokens : input.tokens = Stmt.tokensAll stmts) (hfuel : 8 * input.tokens.length + 3 ≤ fuel)
    (hrounds : input.tokens.length ≤ rounds) :
    program fuel rounds done [] input = (⟨done.reverse ++ stmts⟩, []) := by
  induction stmts generalizing rounds done input with
  | nil =>
    have hrest : input.rest = [] := List.map_eq_nil_iff.mp htokens
    cases rounds <;> simp [program, hrest]
  | cons stmt others ih =>
    obtain ⟨hstmt, hothers⟩ := List.forall_mem_cons.mp h
    rw [Stmt.tokensAll] at htokens
    obtain ⟨after, hstep, hafter⟩ :=
      hstmt.reads (Stmt.tokensAll others) fuel (by rwa [← htokens]) input htokens
    obtain ⟨token, more, hstmttokens, -⟩ := hstmt.opens
    rw [hstmttokens] at htokens
    -- Each round takes a token at least, so there are rounds enough.
    cases rounds with
    | zero => simp [htokens] at hrounds
    | succ rounds =>
      have hopen : input.rest ≠ [] := by
        intro hrest
        simp [Input.tokens, hrest] at htokens
      rw [program, if_neg (by simp [hopen, errorLimit]), hstep]
      dsimp only
      rw [ih hothers (stmt :: done) after hafter (by grind) (by grind)]
      simp

end Parser

/-- Wherever the tokens stand in a text, they are read as the program. -/
theorem Program.ofTokens_of_tokens {program : Program} (hwritable : program.Writable)
    (hnamed : program.LetNamed) {lexemes : List Lexeme}
    (htokens : lexemes.map Lexeme.token = Stmt.tokensAll program.statements) :
    Program.ofTokens lexemes = .ok program := by
  have hread : Program.readTokens lexemes = (program, []) :=
    Parser.program_stated (Stmt.stated program.statements hwritable hnamed) []
      ⟨lexemes, Lexeme.endOf lexemes⟩ htokens
      (by simp only [Parser.Input.tokens, List.length_map]; omega)
      (by simp only [Parser.Input.tokens, List.length_map]; omega)
  rw [ofTokens, hread]

/-- Spec §E2, printing and reading. Assumes: the names, numbers and texts of the program can be
written as tokens (`hwritable`), and its function literals have exactly the names that `let`s give
them (`hnamed`). The printed text of the program is read as the program, without an error. -/
theorem Program.ofSource_print {program : Program} (hwritable : program.Writable)
    (hnamed : program.LetNamed) : Program.ofSource program.print = .ok program := by
  have htokens := Stmt.all_writable_tokensAll program.statements hwritable
  obtain ⟨lexemes, hscan, hlexemes⟩ := Token.scan_written (List.all_eq_true.mp htokens)
  rw [ofSource, print, hscan]
  dsimp only
  rw [ofTokens_of_tokens hwritable hnamed hlexemes]

/-- A program whose text has parentheses around a left operand, under a sign and around a callee,
and a hash at the start of a statement. -/
def parenthesized : Program :=
  ⟨[.bind "f" (.function ["a"]
      [.ret (.unary "-" (.binary "*" (.binary "-" (.int 7) (.ident "a")) (.ident "a")))] (some "f")),
    .eval (.index (.hash [(.str "k", .call (.unary "!" (.ident "f")) [.int 1])]) (.str "k"))]⟩

theorem Program.ofSource_print_parenthesized :
    parenthesized.Writable ∧ parenthesized.LetNamed ∧
    parenthesized.print = "let f = fn ( a ) \x7b return - ( ( 7 - a ) * a ) ; \x7d ; " ++
      "\x7b \"k\" : ( ! f ) ( 1 ) \x7d [ \"k\" ] ;" ∧
    Program.ofSource parenthesized.print = .ok parenthesized := by
  have hwritable : parenthesized.Writable := by decide
  have hnamed : parenthesized.LetNamed := by decide
  exact ⟨hwritable, hnamed, by cbv, ofSource_print hwritable hnamed⟩

end StackScript
