import StackScript.Program.Printer
import StackScript.Proofs.Program.Grammar

/-!
The reader followed along tokens that are given. Wherever the place lets the level of an expression
through, the reader of expressions finds the expression first and goes on with the operators behind
it (`Parser.Found`); a statement is read with the semicolon behind it (`Parser.Stated`). Each form
of expression and statement has this from its parts.
-/

set_option autoImplicit false
set_option relaxedAutoImplicit false

namespace StackScript

open Grammar

/-- Whether an expression may start with the token. -/
def Token.opens : Token → Bool
  | identifier _ | integer _ | text _ | trueKeyword | falseKeyword | bang | minus | openParen
  | openBracket | openBrace | ifKeyword | fnKeyword => true
  | _ => false

/-! ### Levels -/

theorem Strength.rank_le_reach {strength : Strength} {level : Level}
    (hsign : strength.rank ≤ Strength.sign.rank) (h : strength.tighter ≤ level) :
    strength.rank ≤ level.reach := by
  cases strength <;> cases level <;>
    first | decide | exact absurd h (by decide) | exact absurd hsign (by decide)

namespace Grammar.Level

theorem reach_mono {level other : Level} (h : level ≤ other) : level.reach ≤ other.reach := by
  cases level <;> cases other <;> first | decide | exact absurd h (by decide)

theorem le_term (level : Level) : level ≤ .term := by
  cases level <;> decide

theorem mem_operators_ofOperator :
    ∀ op ∈ binaryOperators, (Token.ofOperator op, op) ∈ (ofOperator op).operators := by
  decide

theorem mem_signs_ofOperator :
    ∀ op ∈ signs.map Prod.snd, (Token.ofOperator op, op) ∈ signs := by
  decide

/-- What a binary operator of a level is to the reader. -/
structure Joins (level : Level) (token : Token) (op : String) : Prop where
  operator : token.operator? = some op
  rank : token.strength.rank = level.reach
  tighter : token.strength.tighter = level.next
  le_sign : token.strength.rank ≤ Strength.sign.rank
  lt_of_tighter {strength : Strength} : strength.tighter ≤ level → strength.rank < level.reach

theorem joins_of_mem_operators {level : Level} {token : Token} {op : String}
    (h : (token, op) ∈ level.operators) : level.Joins token op := by
  have hlower {strength : Strength} (hlevel : level ≤ .product) (hle : strength.tighter ≤ level) :
      strength.rank < level.reach := by
    cases strength <;> cases level <;>
      first | decide | exact absurd hle (by decide) | exact absurd hlevel (by decide)
  cases level
  case sign | term => cases h
  all_goals
    simp only [operators, List.mem_cons, List.not_mem_nil, or_false, Prod.mk.injEq] at h
    rcases h with ⟨rfl, rfl⟩ | ⟨rfl, rfl⟩ <;>
      exact ⟨rfl, rfl, rfl, by decide, hlower (by decide)⟩

end Grammar.Level

theorem Grammar.listed_cons (first : List Token) (others : List (List Token)) :
    listed (first :: others) = first ++ others.flatMap (.comma :: ·) := by
  induction others generalizing first with
  | nil => simp [listed]
  | cons second others ih =>
    have hlisted : listed (first :: second :: others) =
        first ++ .comma :: listed (second :: others) := by
      simp [listed, List.intercalate]
    rw [hlisted, ih, List.flatMap_cons, List.cons_append]

namespace Parser

/-- What may stand behind an expression: no operator that binds tighter than `reach`, and no
`else`. -/
def Ends (reach : Nat) (rest : List Token) : Prop :=
  ∀ token, rest.head? = some token → token ≠ .elseKeyword ∧ token.strength.rank ≤ reach

theorem Ends.mono {reach other : Nat} {rest : List Token} (h : Ends reach rest)
    (hle : reach ≤ other) : Ends other rest :=
  fun token hhead ↦ ⟨(h token hhead).1, Nat.le_trans (h token hhead).2 hle⟩

theorem ends_cons {reach : Nat} {token : Token} {rest : List Token} (helse : token ≠ .elseKeyword)
    (hreach : token.strength.rank ≤ reach) : Ends reach (token :: rest) := by
  rintro _ ⟨⟩
  exact ⟨helse, hreach⟩

/-! ### The operators behind an operand -/

theorem operatorsFrom_ends {strength : Strength} {rest : List Token}
    (h : Ends strength.rank rest) (left : Expr) :
    Reads (operatorsFrom · strength left) 2 rest left rest := by
  refine .step fun fuel _ ↦ ?_
  rw [operatorsFrom]
  refine .peek ?_
  split
  · exact .pure left
  · next token hhead =>
    rw [if_neg (Nat.not_lt.mpr (h token hhead).2)]
    exact .pure left

theorem operatorsFrom_step {strength : Strength} {token : Token} {tokens middle after : List Token}
    {left grown result : Expr} (hbinds : strength.rank < token.strength.rank)
    (hoperator : Reads (operator · left) 1 (token :: tokens) grown middle)
    (hshorter : middle.length ≤ tokens.length)
    (hmore : Reads (operatorsFrom · strength grown) 2 middle result after) :
    Reads (operatorsFrom · strength left) 2 (token :: tokens) result after := by
  refine .step fun fuel hfuel ↦ ?_
  rw [operatorsFrom]
  rw [List.length_cons] at hfuel
  refine .peek ?_
  rw [List.head?_cons]
  dsimp only
  rw [if_pos hbinds]
  exact (hoperator fuel hfuel).bind (hmore fuel (by omega))

theorem operator_binary {token : Token} {op : String} {tokens rest : List Token} {left right : Expr}
    (hop : token.operator? = some op)
    (hright : Reads (expr · token.strength) 2 tokens right rest) :
    Reads (operator · left) 1 (token :: tokens) (.binary op left right) rest := by
  refine .step fun fuel hfuel ↦ ?_
  rw [operator]
  refine .position fun _ ↦ .peek (.bind (.skip _) ?_)
  have hright := hright fuel (by grind)
  cases token <;> cases hop <;> exact .bind hright (.pure _)

/-! ### Expressions -/

/-- In the tokens, those of an expression of the level, the reader of expressions finds `value`, if
the strength lets the level through and the expression ends there; then it goes on with the
operators behind. Strengths above that of a sign are left out, for no expression is read at one. -/
structure Found (level : Level) (tokens : List Token) (value : Expr) : Prop where
  opens : ∃ token more, tokens = token :: more ∧ token.opens
  reads {strength : Strength} {rest after : List Token} {result : Expr} :
    strength.rank ≤ Strength.sign.rank → strength.tighter ≤ level → Ends level.reach rest →
    Reads (operatorsFrom · strength value) 2 rest result after →
    Reads (expr · strength) 2 (tokens ++ rest) result after

namespace Found

variable {level : Level} {tokens : List Token} {value : Expr}

theorem mono {looser : Level} (h : Found level tokens value) (hle : looser ≤ level) :
    Found looser tokens value where
  opens := h.opens
  reads hsign hlevel hends hmore :=
    h.reads hsign (Level.le_trans hlevel hle) (hends.mono (Level.reach_mono hle)) hmore

theorem opens_append (h : Found level tokens value) (behind : List Token) :
    ∃ token more, tokens ++ behind = token :: more ∧ token.opens := by
  obtain ⟨token, more, rfl, hopens⟩ := h.opens
  exact ⟨token, more ++ behind, rfl, hopens⟩

theorem of_operand {token : Token} (hopens : token.opens)
    (h : ∀ rest, Ends level.reach rest → Reads operand 1 (token :: (tokens ++ rest)) value rest) :
    Found level (token :: tokens) value where
  opens := ⟨token, tokens, rfl, hopens⟩
  reads {_ rest _ _} _ _ hends hmore := by
    refine .step fun fuel hfuel ↦ ?_
    rw [expr]
    refine (h rest hends fuel hfuel).bind (hmore fuel ?_)
    simp only [List.length_cons, List.length_append] at hfuel
    omega

/-- The expression is all that is read. -/
theorem alone (h : Found level tokens value) {strength : Strength} {rest : List Token}
    (hsign : strength.rank ≤ Strength.sign.rank) (hlevel : strength.tighter ≤ level)
    (hends : Ends strength.rank rest) : Reads (expr · strength) 2 (tokens ++ rest) value rest :=
  h.reads hsign hlevel (hends.mono (Strength.rank_le_reach hsign hlevel))
    (operatorsFrom_ends hends value)

/-- The expression stands where one of any level may. -/
theorem whole (h : Found level tokens value) {rest : List Token} (hends : Ends 0 rest) :
    Reads (expr · .lowest) 2 (tokens ++ rest) value rest :=
  h.alone (by decide) (Nat.zero_le _) hends

theorem upTo (h : Found level tokens value) {close : Token} {rest : List Token}
    (hclose : close ≠ .elseKeyword ∧ close.strength.rank ≤ 0) :
    Reads (expr · .lowest) 2 (tokens ++ close :: rest) value (close :: rest) :=
  h.whole (ends_cons hclose.1 hclose.2)

theorem parens (h : Found level tokens value) :
    Found .term (.openParen :: (tokens ++ [.closeParen])) value := by
  refine .of_operand rfl fun rest _ ↦ .step fun fuel hfuel ↦ ?_
  rw [operand, List.append_assoc, List.singleton_append]
  refine .position fun _ ↦ .peek (.bind (.skip _) ?_)
  refine .bind (h.upTo (by decide) fuel (by grind)) ?_
  exact .bind (.expect _) (.pure _)

theorem unary {token : Token} {op : String} (hop : (token, op) ∈ signs)
    (h : Found .sign tokens value) : Found .sign (token :: tokens) (.unary op value) := by
  simp only [signs, List.mem_cons, List.not_mem_nil, or_false, Prod.mk.injEq] at hop
  rcases hop with ⟨rfl, rfl⟩ | ⟨rfl, rfl⟩
  all_goals
    refine .of_operand rfl fun rest hends ↦ .step fun fuel hfuel ↦ ?_
    rw [operand]
    refine .position fun _ ↦ .peek (.bind (.skip _) ?_)
    exact .bind (h.alone (Nat.le_refl _) (by decide) hends fuel (by grind)) (.pure _)

theorem binary {token : Token} {op : String} {before behind : List Token} {left right : Expr}
    (hop : (token, op) ∈ level.operators) (hleft : Found level before left)
    (hright : Found level.next behind right) :
    Found level (before ++ token :: behind) (.binary op left right) where
  opens := hleft.opens_append _
  reads {_ rest _ _} hsign hlevel hends hmore := by
    have hjoins := Level.joins_of_mem_operators hop
    rw [← hjoins.rank] at hends
    rw [List.append_assoc, List.cons_append]
    -- The operator is at the reach of the level, so the left operand ends there; what the reader
    -- then goes on with is this very operator.
    refine hleft.reads hsign hlevel (ends_cons ?_ (Nat.le_of_eq hjoins.rank)) ?_
    · rintro rfl
      cases hjoins.operator
    refine operatorsFrom_step ?_ (operator_binary hjoins.operator ?_) (by grind) hmore
    · rw [hjoins.rank]
      exact hjoins.lt_of_tighter hlevel
    · exact hright.alone hjoins.le_sign (Nat.le_of_eq (congrArg Level.rank hjoins.tighter)) hends

theorem call {before : List Token} {callee : Expr} {arguments : List Expr}
    (hcallee : Found .term before callee)
    (harguments : ∀ rest,
      Reads (items · .closeParen) 3 (tokens ++ .closeParen :: rest) arguments rest) :
    Found .term (before ++ .openParen :: (tokens ++ [.closeParen])) (.call callee arguments) where
  opens := hcallee.opens_append _
  reads {_ rest _ _} hsign hlevel hends hmore := by
    rw [List.append_assoc, List.cons_append, List.append_assoc, List.singleton_append]
    refine hcallee.reads hsign hlevel (ends_cons (by decide) (by decide)) ?_
    refine operatorsFrom_step (Nat.lt_succ_of_le hsign) (.step fun fuel hfuel ↦ ?_) (by grind) hmore
    rw [operator]
    refine .position fun _ ↦ .peek (.bind (.skip _) ?_)
    exact .bind (harguments rest fuel (by grind)) (.pure _)

theorem index {before : List Token} {collection position : Expr}
    (hcollection : Found .term before collection) (hposition : Found level tokens position) :
    Found .term (before ++ .openBracket :: (tokens ++ [.closeBracket]))
      (.index collection position) where
  opens := hcollection.opens_append _
  reads {_ rest _ _} hsign hlevel hends hmore := by
    rw [List.append_assoc, List.cons_append, List.append_assoc, List.singleton_append]
    refine hcollection.reads hsign hlevel (ends_cons (by decide) (by decide)) ?_
    refine operatorsFrom_step (Nat.lt_succ_of_lt (Nat.lt_succ_of_le hsign))
      (.step fun fuel hfuel ↦ ?_) (by grind) hmore
    rw [operator]
    refine .position fun _ ↦ .peek (.bind (.skip _) ?_)
    refine .bind (hposition.upTo (by decide) fuel (by grind)) ?_
    exact .bind (.expect _) (.pure _)

theorem placed {required : Level} (h : Found level tokens value) :
    Found required (placed required level tokens) value := by
  rw [Grammar.placed]
  split
  · exact h.parens.mono required.le_term
  · next hlevel => exact h.mono (Nat.not_lt.mp hlevel)

end Found

/-- The tokens that are expressions by themselves. -/
inductive Atom : Token → Expr → Prop
  | ident (name : String) : Atom (.identifier name) (.ident name)
  | int (value : Int64) : Atom (.integer value) (.int value)
  | str (content : String) : Atom (.text content) (.str content)
  | true : Atom .trueKeyword (.bool true)
  | false : Atom .falseKeyword (.bool false)

theorem Found.atom {token : Token} {value : Expr} (h : Atom token value) :
    Found .term [token] value := by
  cases h
  all_goals
    refine .of_operand rfl fun rest _ ↦ .step fun fuel _ ↦ ?_
    rw [operand]
    exact .position fun _ ↦ .peek (.bind (.skip _) (.pure _))

/-! ### Statements -/

/-- The reader of statements takes the tokens. -/
structure Stated (tokens : List Token) (stmt : Stmt) : Prop where
  opens : ∃ token more, tokens = token :: more ∧ token ≠ .closeBrace
  reads (rest : List Token) : Reads statement 3 (tokens ++ rest) stmt rest

namespace Stated

variable {level : Level} {tokens : List Token} {value : Expr}

theorem bind (name : String) (h : Found level tokens value) :
    Stated (.letKeyword :: .identifier name :: .assign :: (tokens ++ [.semicolon]))
      (.bind name (value.named name)) where
  opens := ⟨_, _, rfl, nofun⟩
  reads rest := by
    refine .step fun fuel hfuel ↦ ?_
    rw [statement]
    simp only [List.cons_append, List.append_assoc, List.nil_append] at hfuel ⊢
    refine .peek (.bind (.skip _) (.bind (.identifier name) (.bind (.expect _) ?_)))
    refine .bind (h.upTo (by decide) fuel (by grind)) ?_
    exact .bind (.skipIf_there _) (.pure _)

theorem ret (h : Found level tokens value) :
    Stated (.returnKeyword :: (tokens ++ [.semicolon])) (.ret value) where
  opens := ⟨_, _, rfl, nofun⟩
  reads rest := by
    refine .step fun fuel hfuel ↦ ?_
    rw [statement]
    simp only [List.cons_append, List.append_assoc, List.nil_append] at hfuel ⊢
    refine .peek (.bind (.skip _) ?_)
    refine .bind (h.upTo (by decide) fuel (by grind)) ?_
    exact .bind (.skipIf_there _) (.pure _)

theorem eval (h : Found level tokens value) :
    Stated (tokens ++ [.semicolon]) (.eval value) where
  opens := by
    obtain ⟨token, more, htokens, hopens⟩ := h.opens_append [.semicolon]
    refine ⟨token, more, htokens, ?_⟩
    rintro rfl
    cases hopens
  reads rest := by
    refine .step fun fuel hfuel ↦ ?_
    rw [statement]
    simp only [List.append_assoc, List.singleton_append] at hfuel ⊢
    have hvalue := h.upTo (by decide) fuel hfuel
    obtain ⟨token, more, rfl, hopens⟩ := h.opens
    refine .peek ?_
    split
    · next hhead => cases hhead; cases hopens
    · next hhead => cases hhead; cases hopens
    · exact .bind hvalue (.bind (.skipIf_there _) (.pure _))

end Stated

theorem statementsFrom_reads {stmts : List Stmt} (h : ∀ stmt ∈ stmts, Stated stmt.tokens stmt)
    (done : List Stmt) (rest : List Token) :
    Reads (statementsFrom · done) 4 (Stmt.tokensAll stmts ++ .closeBrace :: rest)
      (done.reverse ++ stmts) (.closeBrace :: rest) := by
  induction stmts generalizing done with
  | nil =>
    refine .step fun fuel hfuel ↦ ?_
    rw [statementsFrom, List.append_nil]
    exact .peek (.pure _)
  | cons stmt others ih =>
    obtain ⟨hstmt, hothers⟩ := List.forall_mem_cons.mp h
    refine .step fun fuel hfuel ↦ ?_
    rw [Stmt.tokensAll, List.append_assoc] at hfuel ⊢
    have hreads := hstmt.reads (Stmt.tokensAll others ++ .closeBrace :: rest) fuel hfuel
    -- The first token tells the statement from the end of the block, and is what makes the rest
    -- shorter.
    obtain ⟨token, more, htokens, hopens⟩ := hstmt.opens
    rw [htokens] at hfuel hreads ⊢
    have hmore := ih hothers (stmt :: done) fuel (by grind)
    rw [List.reverse_cons, ← List.append_cons] at hmore
    rw [statementsFrom]
    refine .peek ?_
    split
    · next hhead => cases hhead
    · next hhead => cases hhead; exact absurd rfl hopens
    · exact .bind hreads hmore

theorem block_reads {stmts : List Stmt} (h : ∀ stmt ∈ stmts, Stated stmt.tokens stmt)
    (rest : List Token) : Reads block 1 (braces (Stmt.tokensAll stmts) ++ rest) stmts rest := by
  refine .step fun fuel hfuel ↦ ?_
  simp only [braces, List.cons_append, List.append_assoc, List.nil_append] at hfuel ⊢
  rw [block]
  refine .bind (.expect _) (.bind (statementsFrom_reads h [] rest fuel (by grind)) ?_)
  exact .bind (.expect _) (.pure _)

/-! ### Lists -/

theorem parametersFrom_reads (others done : List String) (rest : List Token) :
    Reads (parametersFrom · done) 1
      ((others.flatMap fun other ↦ [.comma, .identifier other]) ++ .closeParen :: rest)
      (done.reverse ++ others) (.closeParen :: rest) := by
  induction others generalizing done with
  | nil =>
    refine .step fun fuel _ ↦ ?_
    rw [parametersFrom, List.append_nil]
    exact .bind (.skipIf_absent (by simp)) (.pure _)
  | cons name others ih =>
    refine .step fun fuel hfuel ↦ ?_
    have hmore := ih (name :: done) fuel (by grind)
    rw [List.reverse_cons, ← List.append_cons] at hmore
    rw [parametersFrom]
    exact .bind (.skipIf_there _) (.bind (.identifier name) hmore)

theorem parameters_gives {fuel : Nat} (names : List String) (rest : List Token)
    (hfuel : 8 * (nameList names ++ .closeParen :: rest).length ≤ fuel) :
    Gives (parameters fuel) (nameList names ++ .closeParen :: rest) names (.closeParen :: rest) := by
  rw [parameters]
  cases names with
  | nil => exact .peek (.pure _)
  | cons name others =>
    rw [nameList_cons] at hfuel ⊢
    have hothers := parametersFrom_reads others [name] rest fuel (by grind)
    exact .peek (.bind (.identifier name) hothers)

/-- What may close a list: no operator, no `else`, no comma and nothing that an expression may start
with. -/
def Closes (close : Token) : Prop :=
  close.strength = .lowest ∧ close ≠ .elseKeyword ∧ close ≠ .comma ∧ ¬close.opens

instance (close : Token) : Decidable (Closes close) :=
  inferInstanceAs (Decidable (_ ∧ _))

theorem ends_more {close : Token} (hclose : Closes close) (parts : List (List Token))
    (rest : List Token) : Ends 0 (parts.flatMap (.comma :: ·) ++ close :: rest) := by
  cases parts with
  | nil => exact ends_cons hclose.2.1 (by simp [hclose.1, Strength.rank])
  | cons part others => exact ends_cons (by decide) (Nat.le_refl _)

theorem itemsFrom_reads {close : Token} (hclose : Closes close) {values : List Expr}
    (h : ∀ value ∈ values, Found value.level value.tokens value) (done : List Expr)
    (rest : List Token) :
    Reads (itemsFrom · done) 1 ((Expr.tokensEach values).flatMap (.comma :: ·) ++ close :: rest)
      (done.reverse ++ values) (close :: rest) := by
  induction values generalizing done with
  | nil =>
    refine .step fun fuel _ ↦ ?_
    rw [itemsFrom, List.append_nil]
    exact .bind (.skipIf_absent (by simpa [Expr.tokensEach] using hclose.2.2.1)) (.pure _)
  | cons value others ih =>
    obtain ⟨hvalue, hothers⟩ := List.forall_mem_cons.mp h
    refine .step fun fuel hfuel ↦ ?_
    rw [Expr.tokensEach, List.flatMap_cons, List.cons_append, List.cons_append, List.append_assoc]
      at hfuel ⊢
    have hmore := ih hothers (value :: done) fuel (by grind)
    rw [List.reverse_cons, ← List.append_cons] at hmore
    rw [itemsFrom]
    exact .bind (.skipIf_there _)
      (.bind (hvalue.whole (ends_more hclose _ rest) fuel (by grind)) hmore)

theorem items_reads {close : Token} (hclose : Closes close) {values : List Expr}
    (h : ∀ value ∈ values, Found value.level value.tokens value) (rest : List Token) :
    Reads (items · close) 3 (listed (Expr.tokensEach values) ++ close :: rest) values rest := by
  refine .step fun fuel hfuel ↦ ?_
  rw [items]
  cases values with
  | nil => exact .bind (.skipIf_there _) (.pure _)
  | cons value others =>
    obtain ⟨hvalue, hothers⟩ := List.forall_mem_cons.mp h
    rw [Expr.tokensEach, listed_cons, List.append_assoc] at hfuel ⊢
    have hreads := hvalue.whole (ends_more hclose (Expr.tokensEach others) rest) fuel (by grind)
    obtain ⟨token, more, htokens, hopens⟩ := hvalue.opens
    rw [htokens] at hfuel hreads ⊢
    have hmore := itemsFrom_reads hclose hothers [value] rest fuel (by grind)
    refine .bind (.skipIf_absent ?_) (.bind hreads (.bind hmore (.bind (.expect _) (.pure _))))
    rintro ⟨⟩
    exact hclose.2.2.2 hopens

theorem pairsFrom_reads {pairs : List (Expr × Expr)}
    (h : ∀ pair ∈ pairs, Found pair.1.level pair.1.tokens pair.1 ∧
      Found pair.2.level pair.2.tokens pair.2)
    (done : List (Expr × Expr)) (rest : List Token) :
    Reads (pairsFrom · done) 3 (listed (Expr.tokensPairs pairs) ++ .closeBrace :: rest)
      (done.reverse ++ pairs) rest := by
  induction pairs generalizing done with
  | nil =>
    refine .step fun fuel _ ↦ ?_
    rw [pairsFrom, List.append_nil]
    exact .bind (.skipIf_there _) (.pure _)
  | cons pair others ih =>
    obtain ⟨⟨hkey, hvalue⟩, hothers⟩ := List.forall_mem_cons.mp h
    have hmore := ih hothers (pair :: done)
    rw [List.reverse_cons, ← List.append_cons] at hmore
    refine .step fun fuel hfuel ↦ ?_
    obtain ⟨key, value⟩ := pair
    rw [Expr.tokensPairs, listed_cons, List.append_assoc, List.append_assoc, List.cons_append]
      at hfuel ⊢
    have hreads := hkey.upTo (by decide) fuel hfuel
    obtain ⟨token, more, htokens, hopens⟩ := hkey.opens
    rw [htokens] at hfuel hreads ⊢
    rw [pairsFrom]
    refine .bind (.skipIf_absent ?_) (.bind hreads (.bind (.expect _) ?_))
    · rintro ⟨⟩
      cases hopens
    refine .bind (hvalue.whole (ends_more (by decide) _ rest) fuel (by grind)) (.peek ?_)
    cases others with
    | nil =>
      dsimp only
      rw [if_neg (by simp [Expr.tokensPairs])]
      change Reads _ 3 (.closeBrace :: rest) _ rest at hmore
      exact hmore fuel (by grind)
    | cons second others =>
      rw [Expr.tokensPairs, listed_cons] at hmore
      rw [Expr.tokensPairs, List.flatMap_cons] at hfuel ⊢
      dsimp only
      rw [if_pos (by simp)]
      exact .bind (.expect _) (hmore fuel (by grind))

/-! ### Expressions with blocks and lists in them -/

section Blocks

variable {level : Level} {tokens : List Token} {condition : Expr} {stmts others : List Stmt}

theorem branch_reads (hcondition : Found level tokens condition)
    (hstmts : ∀ stmt ∈ stmts, Stated stmt.tokens stmt) {rest : List Token}
    (helse : rest.head? ≠ some .elseKeyword) :
    Reads branch 1
      (.openParen :: (tokens ++ .closeParen :: (braces (Stmt.tokensAll stmts) ++ rest)))
      (.branch condition stmts none) rest := by
  refine .step fun fuel hfuel ↦ ?_
  rw [branch]
  refine .bind (.expect _) (.bind (hcondition.upTo (by decide) fuel (by grind)) ?_)
  refine .bind (.expect _) (.bind (block_reads hstmts rest fuel (by grind)) ?_)
  exact .bind (.skipIf_absent helse) (.pure _)

theorem branch_reads_else (hcondition : Found level tokens condition)
    (hstmts : ∀ stmt ∈ stmts, Stated stmt.tokens stmt)
    (hothers : ∀ stmt ∈ others, Stated stmt.tokens stmt) (rest : List Token) :
    Reads branch 1
      (.openParen :: (tokens ++ .closeParen :: (braces (Stmt.tokensAll stmts) ++
        .elseKeyword :: (braces (Stmt.tokensAll others) ++ rest))))
      (.branch condition stmts (some others)) rest := by
  refine .step fun fuel hfuel ↦ ?_
  rw [branch]
  refine .bind (.expect _) (.bind (hcondition.upTo (by decide) fuel (by grind)) ?_)
  refine .bind (.expect _) (.bind (block_reads hstmts _ fuel (by grind)) ?_)
  exact .bind (.skipIf_there _) (.bind (block_reads hothers rest fuel (by grind)) (.pure _))

theorem functionLiteral_reads (parameters : List String)
    (hstmts : ∀ stmt ∈ stmts, Stated stmt.tokens stmt) (rest : List Token) :
    Reads functionLiteral 1
      (.openParen :: (nameList parameters ++ .closeParen :: (braces (Stmt.tokensAll stmts) ++ rest)))
      (.function parameters stmts none) rest := by
  refine .step fun fuel hfuel ↦ ?_
  rw [functionLiteral]
  refine .bind (.expect _) (.bind (parameters_gives parameters _ (by grind)) ?_)
  exact .bind (.expect _) (.bind (block_reads hstmts rest fuel (by grind)) (.pure _))

end Blocks

namespace Found

variable {level : Level} {tokens : List Token} {condition : Expr} {stmts others : List Stmt}

theorem branch (hcondition : Found level tokens condition)
    (hstmts : ∀ stmt ∈ stmts, Stated stmt.tokens stmt) :
    Found .term (.ifKeyword :: .openParen :: (tokens ++ .closeParen ::
      braces (Stmt.tokensAll stmts))) (.branch condition stmts none) := by
  refine .of_operand rfl fun rest hends ↦ .step fun fuel hfuel ↦ ?_
  simp only [List.cons_append, List.append_assoc] at hfuel ⊢
  rw [operand]
  refine .position fun _ ↦ .peek (.bind (.skip _) ?_)
  refine branch_reads hcondition hstmts ?_ fuel (by grind)
  exact fun helse ↦ (hends _ helse).1 rfl

theorem branchElse (hcondition : Found level tokens condition)
    (hstmts : ∀ stmt ∈ stmts, Stated stmt.tokens stmt)
    (hothers : ∀ stmt ∈ others, Stated stmt.tokens stmt) :
    Found .term (.ifKeyword :: .openParen :: (tokens ++ .closeParen ::
      (braces (Stmt.tokensAll stmts) ++ .elseKeyword :: braces (Stmt.tokensAll others))))
      (.branch condition stmts (some others)) := by
  refine .of_operand rfl fun rest hends ↦ .step fun fuel hfuel ↦ ?_
  simp only [List.cons_append, List.append_assoc] at hfuel ⊢
  rw [operand]
  refine .position fun _ ↦ .peek (.bind (.skip _) ?_)
  exact branch_reads_else hcondition hstmts hothers rest fuel (by grind)

theorem function (parameters : List String) (hstmts : ∀ stmt ∈ stmts, Stated stmt.tokens stmt) :
    Found .term (.fnKeyword :: .openParen :: (nameList parameters ++ .closeParen ::
      braces (Stmt.tokensAll stmts))) (.function parameters stmts none) := by
  refine .of_operand rfl fun rest hends ↦ .step fun fuel hfuel ↦ ?_
  simp only [List.cons_append, List.append_assoc] at hfuel ⊢
  rw [operand]
  refine .position fun _ ↦ .peek (.bind (.skip _) ?_)
  exact functionLiteral_reads parameters hstmts rest fuel (by grind)

theorem array {elements : List Expr}
    (h : ∀ element ∈ elements, Found element.level element.tokens element) :
    Found .term (.openBracket :: (listed (Expr.tokensEach elements) ++ [.closeBracket]))
      (.array elements) := by
  refine .of_operand rfl fun rest hends ↦ .step fun fuel hfuel ↦ ?_
  simp only [List.append_assoc, List.singleton_append] at hfuel ⊢
  rw [operand]
  refine .position fun _ ↦ .peek (.bind (.skip _) ?_)
  exact .bind (items_reads (by decide) h rest fuel (by grind)) (.pure _)

theorem hash {pairs : List (Expr × Expr)}
    (h : ∀ pair ∈ pairs, Found pair.1.level pair.1.tokens pair.1 ∧
      Found pair.2.level pair.2.tokens pair.2) :
    Found .term (braces (listed (Expr.tokensPairs pairs))) (.hash pairs) := by
  refine .of_operand rfl fun rest hends ↦ .step fun fuel hfuel ↦ ?_
  simp only [List.append_assoc, List.singleton_append] at hfuel ⊢
  rw [operand]
  refine .position fun _ ↦ .peek (.bind (.skip _) ?_)
  exact .bind (pairsFrom_reads h [] rest fuel (by grind)) (.pure _)

end Found

end Parser

end StackScript
