import StackScript.Program.Grammar
import StackScript.Proofs.Program.Lookahead

/-!
What is read is in the language. A reader of expressions whose operators bind tighter than a given
strength takes an expression of the next tighter level and stops in front of an operator that binds
no tighter; so each operator that follows finds an operand of its own level or a tighter one on its
left (`Parser.expr_tracks`). The readers are followed here once, each by one theorem, and what is
said of reading elsewhere is read off these. A whole text that is read without an error is derived
by the grammar, and its function literals are named by the `let`s around them
(`Program.derives_of_ofTokens`). What every form of the grammar hands on from its parts holds of all
that is derived (`Grammar.Expression.inherits`).
-/

set_option autoImplicit false
set_option relaxedAutoImplicit false

namespace StackScript

open Grammar

/-! ### Strengths and levels -/

/-- The loosest level of the expressions whose operators all bind tighter. -/
def Strength.tighter : Strength → Level
  | lowest => .equality
  | equality => .order
  | order => .sum
  | sum => .product
  | _ => .sign

/-- How tightly an operator behind an expression of the level may bind. -/
def Grammar.Level.reach : Level → Nat
  | equality => Strength.equality.rank
  | order => Strength.order.rank
  | sum => Strength.sum.rank
  | product => Strength.product.rank
  | sign => Strength.sign.rank
  | term => Strength.index.rank

theorem Strength.rank_le_index (strength : Strength) : strength.rank ≤ Strength.index.rank := by
  cases strength <;> decide

theorem Strength.tighter_le_sign (strength : Strength) : strength.tighter ≤ .sign := by
  cases strength <;> decide

theorem Grammar.Level.le_trans {first second third : Level} (h : first ≤ second)
    (hnext : second ≤ third) : first ≤ third :=
  Nat.le_trans h hnext

theorem Grammar.Level.le_of_reach_le {level left : Level} (h : level.reach ≤ left.reach) :
    level ≤ left := by
  cases level <;> cases left <;> first | decide | exact absurd h (by decide)

theorem Grammar.Level.term_le_of_call_le {left : Level}
    (h : Strength.call.rank ≤ left.reach) : .term ≤ left := by
  cases left <;> first | decide | exact absurd h (by decide)

theorem Strength.tighter_le_of_rank_lt {strength : Strength} {level : Level}
    (h : strength.rank < level.reach) : strength.tighter ≤ level := by
  cases strength <;> cases level <;> first | decide | exact absurd h (by decide)

/-- A binary operator is one of the level that reaches up to its strength. -/
theorem Token.exists_level {token : Token} {op : String} (hop : token.operator? = some op)
    (hstrength : 0 < token.strength.rank) :
    ∃ level : Level, (token, op) ∈ level.operators ∧ level.reach = token.strength.rank ∧
      level < token.strength.tighter := by
  cases token <;> cases hop
  case bang => exact absurd hstrength (by decide)
  case equal | notEqual => exact ⟨.equality, by decide, rfl, by decide⟩
  case less | greater => exact ⟨.order, by decide, rfl, by decide⟩
  case plus | minus => exact ⟨.sum, by decide, rfl, by decide⟩
  case asterisk | slash => exact ⟨.product, by decide, rfl, by decide⟩

theorem Grammar.nameList_cons (name : String) (others : List String) :
    nameList (name :: others) =
      .identifier name :: others.flatMap fun other ↦ [.comma, .identifier other] := by
  induction others generalizing name with
  | nil => rfl
  | cons other rest ih =>
    have hrest := ih other
    simp only [nameList, List.map_cons] at hrest ⊢
    rw [List.intersperse_cons_cons, hrest]
    rfl

/-! ### The readers -/

namespace Parser

/-- What follows is no operator that binds tighter. -/
def Stops (input : Input) (reach place : Nat) : Prop :=
  ∀ token, input.tokens[place]? = some token → token.strength.rank ≤ reach

theorem stops_index (input : Input) (place : Nat) : Stops input Strength.index.rank place :=
  fun token _ ↦ token.strength.rank_le_index

/-- An expression of the level or a tighter one, with no operator behind it that binds tighter. -/
def ExpressionAt (input : Input) (level : Level) (reach : Nat) (taken : List Token) (value : Expr)
    (next : Nat) : Prop :=
  (∃ found, level ≤ found ∧ Expression found taken value) ∧ Stops input reach next

/-- An expression with no operator behind it that it could be the left operand of, but for those
its own level allows. -/
def Operand (input : Input) (level : Level) (taken : List Token) (value : Expr) (next : Nat) :
    Prop :=
  ∃ found, level ≤ found ∧ Expression found taken value ∧ Stops input found.reach next

theorem Operand.term {input : Input} {level : Level} {taken : List Token} {value : Expr}
    {next : Nat} (h : Expression .term taken value) : Operand input level taken value next :=
  ⟨.term, by cases level <;> decide, h, stops_index input next⟩

section Readers

variable {first second : Input} {same deep : Prop} {extra : Nat}

/-- A sign in front of an operand. -/
theorem unary_tracks {fuel place : Nat} {token : Token} {op : String} (hop : (token, op) ∈ signs)
    (hexpr : Tracks first second same deep (expr fuel .sign) (expr (fuel + extra) .sign) place 1
      (ExpressionAt first Strength.sign.tighter Strength.sign.rank)) :
    Tracks first second same deep (do return .unary op (← expr fuel .sign))
      (do return .unary op (← expr (fuel + extra) .sign)) place 0 fun taken value next ↦
        Operand first .sign (token :: taken) value next := by
  refine hexpr.map (Nat.zero_le _) ?_
  rintro taken value next ⟨⟨found, hfound, hvalue⟩, hstops⟩
  exact ⟨.sign, by decide, .unary hop hfound hvalue, hstops⟩

variable (h : Beside first second same extra)

include h

theorem parametersFrom_tracks (fuel : Nat) (done : List String) (place : Nat)
    (hdeep : fuel < 8 * (first.tokens.length - place) + 1 → deep) :
    Tracks first second same deep (parametersFrom fuel done) (parametersFrom (fuel + extra) done)
      place 0 fun taken names _ ↦ ∃ others, names = done.reverse ++ others ∧
        taken = others.flatMap fun other ↦ [.comma, .identifier other] := by
  induction fuel generalizing done place with
  | zero => exact .tooDeep h (parametersFrom · done) rfl (hdeep (by omega))
  | succ fuel ih =>
    rw [Nat.add_right_comm, parametersFrom, parametersFrom]
    refine .skipIf h .comma (fun hcomma ↦ .identifier h fun name hname ↦ ?_) fun _ ↦
      .pure ⟨[], by simp⟩
    refine (ih (name :: done) _ fun hlt ↦ hdeep (by omega)).mono (Nat.le_refl _) ?_
    rintro _ _ _ ⟨others, rfl, rfl⟩
    exact ⟨name :: others, by simp, by simp⟩

theorem parameters_tracks (fuel place : Nat)
    (hdeep : fuel < 8 * (first.tokens.length - place) + 1 → deep) :
    Tracks first second same deep (parameters fuel) (parameters (fuel + extra)) place 0
      fun taken names _ ↦ taken = nameList names := by
  rw [parameters, parameters]
  refine .peek h fun got _ ↦ ?_
  split
  · exact .pure rfl
  · refine .identifier h fun name hname ↦ ?_
    refine (parametersFrom_tracks h fuel [name] _ fun hlt ↦ hdeep (by omega)).mono
      (Nat.le_refl _) ?_
    rintro _ _ _ ⟨others, rfl, rfl⟩
    exact (nameList_cons name others).symm

theorem clause_tracks {fuel : Nat} (place : Nat)
    (hexpr : ∀ next, (fuel < 8 * (first.tokens.length - next) + 2 → deep) →
      Tracks first second same deep (expr fuel .lowest) (expr (fuel + extra) .lowest) next 1
        (ExpressionAt first Strength.lowest.tighter Strength.lowest.rank))
    (hdeep : fuel < 8 * (first.tokens.length - place) + 2 → deep) :
    Tracks first second same deep (clause fuel) (clause (fuel + extra)) place 1
      fun taken stmt _ ↦ Clause taken stmt := by
  rw [clause, clause]
  refine .peek h fun got hgot ↦ ?_
  split
  · refine .skip hgot fun hlet ↦ .identifier h fun name hname ↦ .expect h _ fun hassign ↦ ?_
    refine (hexpr _ fun hlt ↦ hdeep (by omega)).map (Nat.zero_le _) ?_
    rintro taken value _ ⟨⟨level, _, hvalue⟩, _⟩
    exact .bind name hvalue
  · refine .skip hgot fun hreturn ↦ ?_
    refine (hexpr _ fun hlt ↦ hdeep (by omega)).map (Nat.zero_le _) ?_
    rintro taken value _ ⟨⟨level, _, hvalue⟩, _⟩
    exact .ret hvalue
  · refine (hexpr place hdeep).map (Nat.le_refl _) ?_
    rintro taken value _ ⟨⟨level, _, hvalue⟩, _⟩
    exact .eval hvalue

/-! The slack of a bound counts the readers that follow one another before a token is taken. -/

mutual

theorem statement_tracks : (fuel place : Nat) →
    (fuel < 8 * (first.tokens.length - place) + 3 → deep) →
    Tracks first second same deep (statement fuel) (statement (fuel + extra)) place 1
      fun taken stmt _ ↦ Statement taken stmt
  | 0, _, hdeep => .tooDeep h statement (by rw [statement]) (hdeep (by omega))
  | fuel + 1, place, hdeep => by
    rw [Nat.add_right_comm, statement_succ, statement_succ]
    refine (clause_tracks h place (expr_tracks fuel .lowest) fun hlt ↦ hdeep (by omega)).bind
      (Nat.le_refl _) fun taken stmt next _ _ hclause ↦ ?_
    refine .skipIf h .semicolon (fun _ ↦ .pure (.ended hclause)) fun _ ↦ .pure ?_
    rw [List.append_nil]
    exact .bare hclause

theorem block_tracks : (fuel place : Nat) →
    (fuel < 8 * (first.tokens.length - place) + 1 → deep) →
    Tracks first second same deep (block fuel) (block (fuel + extra)) place 0
      fun taken stmts _ ↦ Block taken stmts
  | 0, _, hdeep => .tooDeep h block (by rw [block]) (hdeep (by omega))
  | fuel + 1, place, hdeep => by
    rw [Nat.add_right_comm, block, block]
    refine .expect h _ fun hopen ↦ ?_
    refine (statementsFrom_tracks fuel [] _ fun hlt ↦ hdeep (by omega)).bind (Nat.zero_le _) ?_
    rintro taken stmts next _ _ ⟨others, rfl, hothers⟩
    exact .expect h _ fun _ ↦ .pure (.braces hothers)

theorem statementsFrom_tracks : (fuel : Nat) → (done : List Stmt) → (place : Nat) →
    (fuel < 8 * (first.tokens.length - place) + 4 → deep) →
    Tracks first second same deep (statementsFrom fuel done) (statementsFrom (fuel + extra) done)
      place 0 fun taken stmts _ ↦
        ∃ others, stmts = done.reverse ++ others ∧ Statements taken others
  | 0, done, _, hdeep =>
    .tooDeep h (statementsFrom · done) (by rw [statementsFrom]) (hdeep (by omega))
  | fuel + 1, done, place, hdeep => by
    rw [Nat.add_right_comm, statementsFrom, statementsFrom]
    refine .peek h fun got _ ↦ ?_
    split
    · exact .pure ⟨[], by simp, .nil⟩
    · exact .pure ⟨[], by simp, .nil⟩
    · refine (statement_tracks fuel place fun hlt ↦ hdeep (by omega)).bind (Nat.zero_le _)
        fun taken stmt next hnext _ hstmt ↦ ?_
      refine (statementsFrom_tracks fuel (stmt :: done) next fun hlt ↦ hdeep (by omega)).mono
        (Nat.le_refl _) ?_
      rintro more _ _ ⟨others, rfl, hothers⟩
      exact ⟨stmt :: others, by simp, .cons hstmt hothers⟩

theorem expr_tracks : (fuel : Nat) → (level : Strength) → (place : Nat) →
    (fuel < 8 * (first.tokens.length - place) + 2 → deep) →
    Tracks first second same deep (expr fuel level) (expr (fuel + extra) level) place 1
      (ExpressionAt first level.tighter level.rank)
  | 0, level, _, hdeep => .tooDeep h (expr · level) (by rw [expr]) (hdeep (by omega))
  | fuel + 1, level, place, hdeep => by
    rw [Nat.add_right_comm, expr, expr]
    refine (operand_tracks fuel place fun hlt ↦ hdeep (by omega)).bind (Nat.le_refl _) ?_
    rintro taken value next hnext _ ⟨found, hfound, hvalue, hstops⟩
    exact operatorsFrom_tracks fuel level value next taken
      ⟨found, Level.le_trans level.tighter_le_sign hfound, hvalue, hstops⟩
      fun hlt ↦ hdeep (by omega)

theorem operatorsFrom_tracks : (fuel : Nat) → (level : Strength) → (left : Expr) →
    (place : Nat) → (before : List Token) → Operand first level.tighter before left place →
    (fuel < 8 * (first.tokens.length - place) + 2 → deep) →
    Tracks first second same deep (operatorsFrom fuel level left)
      (operatorsFrom (fuel + extra) level left) place 0 fun taken value next ↦
        ExpressionAt first level.tighter level.rank (before ++ taken) value next
  | 0, level, left, _, _, _, hdeep =>
    .tooDeep h (operatorsFrom · level left) (by rw [operatorsFrom]) (hdeep (by omega))
  | fuel + 1, level, left, place, before, hleft, hdeep => by
    rw [Nat.add_right_comm, operatorsFrom, operatorsFrom]
    refine .peek h fun got hgot ↦ ?_
    have hend : (∀ token, got = some token → token.strength.rank ≤ level.rank) →
        ExpressionAt first level.tighter level.rank (before ++ []) left place := by
      intro hstops
      obtain ⟨found, hfound, hvalue, _⟩ := hleft
      rw [List.append_nil]
      exact ⟨⟨found, hfound, hvalue⟩, fun token htoken ↦ hstops token (hgot.symm.trans htoken)⟩
    split
    · exact .pure (hend (by rintro _ ⟨⟩))
    · next token =>
      split
      · next hbinds =>
        have htoken : ∀ other, first.tokens[place]? = some other →
            level.rank < other.strength.rank := by
          intro other hother
          rw [hgot] at hother
          cases hother
          exact hbinds
        refine (operator_tracks fuel level left place before hleft htoken
          fun hlt ↦ hdeep (by omega)).bind (Nat.zero_le _)
          fun taken value next hnext _ hoperand ↦ ?_
        have hmore := operatorsFrom_tracks fuel level value next _ hoperand
          fun hlt ↦ hdeep (by omega)
        simpa only [List.append_assoc] using hmore
      · next hbinds =>
        refine .pure (hend ?_)
        rintro _ ⟨⟩
        exact Nat.le_of_not_lt hbinds

theorem operand_tracks : (fuel place : Nat) →
    (fuel < 8 * (first.tokens.length - place) + 1 → deep) →
    Tracks first second same deep (operand fuel) (operand (fuel + extra)) place 1
      (Operand first .sign)
  | 0, _, hdeep => .tooDeep h operand (by rw [operand]) (hdeep (by omega))
  | fuel + 1, place, hdeep => by
    rw [Nat.add_right_comm, operand, operand]
    refine .position (.peek h fun got hgot ↦ ?_)
    split
    · exact .fail_end hgot trivial nofun
    · next token =>
      refine .skip hgot fun hplace ↦ ?_
      split
      · exact .pure (.term .true)
      · exact .pure (.term .false)
      · exact unary_tracks (by decide) (expr_tracks fuel .sign _ fun hlt ↦ hdeep (by omega))
      · exact unary_tracks (by decide) (expr_tracks fuel .sign _ fun hlt ↦ hdeep (by omega))
      · refine (expr_tracks fuel .lowest _ fun hlt ↦ hdeep (by omega)).bind (Nat.zero_le _) ?_
        rintro taken value _ _ _ ⟨⟨found, _, hvalue⟩, _⟩
        exact .expect h _ fun _ ↦ .pure (.term (.parens hvalue))
      · exact (branch_tracks fuel _ fun hlt ↦ hdeep (by omega)).mono (Nat.le_refl _)
          fun _ _ _ ↦ .term
      · exact (functionLiteral_tracks fuel _ fun hlt ↦ hdeep (by omega)).mono (Nat.le_refl _)
          fun _ _ _ ↦ .term
      · refine (items_tracks fuel .closeBracket _ fun hlt ↦ hdeep (by omega)).map (Nat.le_refl _) ?_
        rintro _ elements _ ⟨tokens, rfl, helements⟩
        exact .term (.array helements)
      · refine (pairsFrom_tracks fuel [] _ fun hlt ↦ hdeep (by omega)).map (Nat.le_refl _) ?_
        rintro _ _ _ ⟨tokens, pairs, rfl, rfl, hpairs, _⟩
        exact .term (.hash hpairs)
      · exact .pure (.term (.ident _))
      · exact .pure (.term (.str _))
      · exact .pure (.term (.int _))
      · exact .refuse hgot (by assumption)

theorem operator_tracks : (fuel : Nat) → (level : Strength) → (left : Expr) → (place : Nat) →
    (before : List Token) → Operand first level.tighter before left place →
    (∀ token, first.tokens[place]? = some token → level.rank < token.strength.rank) →
    (fuel < 8 * (first.tokens.length - place) + 1 → deep) →
    Tracks first second same deep (operator fuel left) (operator (fuel + extra) left) place 1
      fun taken value next ↦ Operand first level.tighter (before ++ taken) value next
  | 0, _, left, _, _, _, _, hdeep =>
    .tooDeep h (operator · left) (by rw [operator]) (hdeep (by omega))
  | fuel + 1, level, left, place, before, hleft, hbinds, hdeep => by
    rw [Nat.add_right_comm, operator, operator]
    obtain ⟨found, hfound, hvalue, hstops⟩ := hleft
    refine .position (.peek h fun got hgot ↦ ?_)
    split
    · exact .fail_end hgot trivial nofun
    · next token =>
      have hstrength := Nat.zero_lt_of_lt (hbinds token hgot)
      refine .skip hgot fun hplace ↦ ?_
      split
      · refine (items_tracks fuel .closeParen _ fun hlt ↦ hdeep (by omega)).map (Nat.le_refl _) ?_
        rintro _ arguments _ ⟨tokens, rfl, harguments⟩
        exact .term (.call (Level.term_le_of_call_le (hstops _ hgot)) hvalue harguments)
      · refine (expr_tracks fuel .lowest _ fun hlt ↦ hdeep (by omega)).bind (Nat.zero_le _) ?_
        rintro tokens position _ _ _ ⟨⟨inner, _, hposition⟩, _⟩
        refine .expect h _ fun _ ↦ .pure (.term ?_)
        exact .index (Level.term_le_of_call_le (Nat.le_of_succ_le (hstops _ hgot))) hvalue hposition
      · next hparen hbracket =>
        split
        · next op hop =>
          obtain ⟨own, hmem, hreach, hupper⟩ := token.exists_level hop hstrength
          refine (expr_tracks fuel token.strength _ fun hlt ↦ hdeep (by omega)).map
            (Nat.zero_le _) ?_
          rintro behind right _ ⟨⟨upper, hright, hbehind⟩, hafter⟩
          refine ⟨own, Strength.tighter_le_of_rank_lt ?_, ?_, ?_⟩
          · rw [hreach]
            exact hbinds token hgot
          · refine .binary hmem (Level.le_of_reach_le ?_) hvalue
              (Nat.lt_of_lt_of_le hupper hright) hbehind
            rw [hreach]
            exact hstops token hgot
          · rw [hreach]
            exact hafter
        · next hop =>
          obtain rfl | rfl | ⟨op, hsome⟩ := token.binds_cases hstrength
          · exact absurd rfl hparen
          · exact absurd rfl hbracket
          · rw [hop] at hsome
            cases hsome

theorem branch_tracks : (fuel place : Nat) →
    (fuel < 8 * (first.tokens.length - place) + 1 → deep) →
    Tracks first second same deep (branch fuel) (branch (fuel + extra)) place 0
      fun taken value _ ↦ Expression .term (.ifKeyword :: taken) value
  | 0, _, hdeep => .tooDeep h branch (by rw [branch]) (hdeep (by omega))
  | fuel + 1, place, hdeep => by
    rw [Nat.add_right_comm, branch, branch]
    refine .expect h _ fun hopen ↦ ?_
    refine (expr_tracks fuel .lowest _ fun hlt ↦ hdeep (by omega)).bind (Nat.zero_le _) ?_
    rintro tokens condition _ htest _ ⟨⟨level, _, hcondition⟩, _⟩
    refine .expect h _ fun hclose ↦ ?_
    refine (block_tracks fuel _ fun hlt ↦ hdeep (by omega)).bind (Nat.le_refl _)
      fun yes consequence _ hyes _ hconsequence ↦ ?_
    refine .skipIf h .elseKeyword (fun helse ↦ ?_) fun _ ↦ .pure ?_
    · exact (block_tracks fuel _ fun hlt ↦ hdeep (by omega)).map (Nat.le_refl _)
        fun no alternative _ halternative ↦ .branchElse hcondition hconsequence halternative
    · rw [List.append_nil]
      exact .branch hcondition hconsequence

theorem functionLiteral_tracks : (fuel place : Nat) →
    (fuel < 8 * (first.tokens.length - place) + 1 → deep) →
    Tracks first second same deep (functionLiteral fuel) (functionLiteral (fuel + extra)) place 0
      fun taken value _ ↦ Expression .term (.fnKeyword :: taken) value
  | 0, _, hdeep => .tooDeep h functionLiteral (by rw [functionLiteral]) (hdeep (by omega))
  | fuel + 1, place, hdeep => by
    rw [Nat.add_right_comm, functionLiteral, functionLiteral]
    refine .expect h _ fun hopen ↦ ?_
    refine (parameters_tracks h fuel _ fun hlt ↦ hdeep (by omega)).bind (Nat.le_refl _) ?_
    rintro _ parameters _ hnames _ rfl
    refine .expect h _ fun hclose ↦ ?_
    exact (block_tracks fuel _ fun hlt ↦ hdeep (by omega)).map (Nat.le_refl _)
      fun tokens body _ hbody ↦ .function hbody

theorem items_tracks : (fuel : Nat) → (close : Token) → (place : Nat) →
    (fuel < 8 * (first.tokens.length - place) + 3 → deep) →
    Tracks first second same deep (items fuel close) (items (fuel + extra) close) place 0
      fun taken values _ ↦ ∃ tokens, taken = tokens ++ [close] ∧ Items tokens values
  | 0, close, _, hdeep => .tooDeep h (items · close) (by rw [items]) (hdeep (by omega))
  | fuel + 1, close, place, hdeep => by
    rw [Nat.add_right_comm, items, items]
    refine .skipIf h close (fun _ ↦ .pure ⟨[], rfl, .nil⟩) fun _ ↦ ?_
    refine (expr_tracks fuel .lowest _ fun hlt ↦ hdeep (by omega)).bind (Nat.zero_le _) ?_
    rintro tokens value _ hvalues _ ⟨⟨level, _, hvalue⟩, _⟩
    refine (itemsFrom_tracks fuel [value] _ fun hlt ↦ hdeep (by omega)).bind (Nat.le_refl _) ?_
    rintro more _ _ _ _ ⟨others, rfl, hothers⟩
    exact .expect h _ fun _ ↦ .pure ⟨tokens ++ more, by simp, .cons hvalue hothers⟩

theorem itemsFrom_tracks : (fuel : Nat) → (done : List Expr) → (place : Nat) →
    (fuel < 8 * (first.tokens.length - place) + 1 → deep) →
    Tracks first second same deep (itemsFrom fuel done) (itemsFrom (fuel + extra) done) place 0
      fun taken values _ ↦ ∃ others, values = done.reverse ++ others ∧ MoreItems taken others
  | 0, done, _, hdeep => .tooDeep h (itemsFrom · done) (by rw [itemsFrom]) (hdeep (by omega))
  | fuel + 1, done, place, hdeep => by
    rw [Nat.add_right_comm, itemsFrom, itemsFrom]
    refine .skipIf h .comma (fun hcomma ↦ ?_) fun _ ↦ .pure ⟨[], by simp, .nil⟩
    refine (expr_tracks fuel .lowest _ fun hlt ↦ hdeep (by omega)).bind (Nat.zero_le _) ?_
    rintro tokens value _ hvalues _ ⟨⟨level, _, hvalue⟩, _⟩
    refine (itemsFrom_tracks fuel (value :: done) _ fun hlt ↦ hdeep (by omega)).mono
      (Nat.le_refl _) ?_
    rintro more _ _ ⟨others, rfl, hothers⟩
    exact ⟨value :: others, by simp, .cons hvalue hothers⟩

theorem pairsFrom_tracks : (fuel : Nat) → (done : List (Expr × Expr)) → (place : Nat) →
    (fuel < 8 * (first.tokens.length - place) + 3 → deep) →
    Tracks first second same deep (pairsFrom fuel done) (pairsFrom (fuel + extra) done) place 0
      fun taken pairs _ ↦ ∃ tokens others, taken = tokens ++ [.closeBrace] ∧
        pairs = done.reverse ++ others ∧ Pairs tokens others ∧
        (first.tokens[place]? = some .closeBrace → tokens = [] ∧ others = [])
  | 0, done, _, hdeep => .tooDeep h (pairsFrom · done) (by rw [pairsFrom]) (hdeep (by omega))
  | fuel + 1, done, place, hdeep => by
    rw [Nat.add_right_comm, pairsFrom, pairsFrom]
    refine .skipIf h .closeBrace (fun _ ↦ .pure ⟨[], [], rfl, by simp, .nil, by simp⟩)
      fun hopen ↦ ?_
    refine (expr_tracks fuel .lowest _ fun hlt ↦ hdeep (by omega)).bind (Nat.zero_le _) ?_
    rintro before key _ hbefore _ ⟨⟨level, _, hkey⟩, _⟩
    refine .expect h _ fun hcolon ↦ ?_
    refine (expr_tracks fuel .lowest _ fun hlt ↦ hdeep (by omega)).bind (Nat.zero_le _) ?_
    rintro behind value next hbehind _ ⟨⟨other, _, hvalue⟩, _⟩
    refine .peek h fun got hgot ↦ ?_
    dsimp only
    split
    · refine .expect h _ fun hcomma ↦ ?_
      refine (pairsFrom_tracks fuel ((key, value) :: done) _ fun hlt ↦ hdeep (by omega)).mono
        (Nat.le_refl _) ?_
      rintro _ _ _ ⟨tokens, others, rfl, rfl, hothers, _⟩
      exact ⟨before ++ .colon :: (behind ++ .comma :: tokens), (key, value) :: others, by simp,
        by simp, .cons hkey hvalue hothers, fun hclosed ↦ absurd hclosed hopen⟩
    · next hclosed =>
      refine (pairsFrom_tracks fuel ((key, value) :: done) _ fun hlt ↦ hdeep (by omega)).mono
        (Nat.le_refl _) ?_
      rintro _ _ _ ⟨tokens, others, rfl, rfl, _, hlast⟩
      obtain ⟨rfl, rfl⟩ := hlast (hgot.trans (Decidable.not_not.mp hclosed))
      exact ⟨before ++ .colon :: behind, [(key, value)], by simp, by simp, .last hkey hvalue,
        fun hclosed ↦ absurd hclosed hopen⟩

end

end Readers

/-- A statement that is read is taken from the head of the tokens. -/
theorem exists_of_statement_ok {fuel : Nat} {input after : Input} {stmt : Stmt}
    (hok : statement fuel input = .ok stmt after) :
    ∃ taken, input.tokens = taken ++ after.tokens ∧ Statement taken stmt := by
  have hbeside : Beside input input False 0 := ⟨List.prefix_refl _, False.elim⟩
  rw [← input.behind_zero] at hok
  obtain ⟨taken, next, -, -, rfl, htaken, hstmt, -⟩ :=
    (statement_tracks hbeside fuel 0 (fun _ ↦ trivial) (Nat.zero_le _)).at_ok hok
  exact ⟨taken, by rwa [Input.tokens_behind], hstmt⟩

end Parser

/-! ### Names of function literals -/

theorem Stmt.letNamedAll_iff (stmts : List Stmt) :
    Stmt.letNamedAll stmts ↔ ∀ stmt ∈ stmts, stmt.letNamed := by
  induction stmts with
  | nil => simp [Stmt.letNamedAll]
  | cons stmt rest ih => simp [Stmt.letNamedAll, ih]

theorem Expr.letNamedAll_iff (exprs : List Expr) :
    Expr.letNamedAll exprs ↔ ∀ expr ∈ exprs, expr.letNamed := by
  induction exprs with
  | nil => simp [Expr.letNamedAll]
  | cons expr rest ih => simp [Expr.letNamedAll, ih]

theorem Expr.letNamedPairs_iff (pairs : List (Expr × Expr)) :
    Expr.letNamedPairs pairs ↔ ∀ pair ∈ pairs, pair.1.letNamed ∧ pair.2.letNamed := by
  induction pairs with
  | nil => simp [Expr.letNamedPairs]
  | cons pair rest ih => simp [Expr.letNamedPairs, ih]

namespace Grammar

/-- Properties of expressions and of statements that every form has if its parts have them. -/
structure Inherited (onExpr : Expr → Prop) (onStmt : Stmt → Prop) : Prop where
  ident (name : String) : onExpr (.ident name)
  int (value : Int64) : onExpr (.int value)
  str (content : String) : onExpr (.str content)
  bool (value : Bool) : onExpr (.bool value)
  unary {token : Token} {op : String} {operand : Expr} :
    (token, op) ∈ signs → onExpr operand → onExpr (.unary op operand)
  binary {level : Level} {token : Token} {op : String} {left right : Expr} :
    (token, op) ∈ level.operators → onExpr left → onExpr right → onExpr (.binary op left right)
  call {callee : Expr} {arguments : List Expr} :
    onExpr callee → (∀ argument ∈ arguments, onExpr argument) → onExpr (.call callee arguments)
  index {collection position : Expr} :
    onExpr collection → onExpr position → onExpr (.index collection position)
  branch {condition : Expr} {consequence : List Stmt} :
    onExpr condition → (∀ stmt ∈ consequence, onStmt stmt) →
      onExpr (.branch condition consequence none)
  branchElse {condition : Expr} {consequence alternative : List Stmt} :
    onExpr condition → (∀ stmt ∈ consequence, onStmt stmt) → (∀ stmt ∈ alternative, onStmt stmt) →
      onExpr (.branch condition consequence (some alternative))
  function {parameters : List String} {body : List Stmt} :
    (∀ stmt ∈ body, onStmt stmt) → onExpr (.function parameters body none)
  array {elements : List Expr} : (∀ element ∈ elements, onExpr element) → onExpr (.array elements)
  hash {pairs : List (Expr × Expr)} :
    (∀ pair ∈ pairs, onExpr pair.1 ∧ onExpr pair.2) → onExpr (.hash pairs)
  bind (name : String) {value : Expr} : onExpr value → onStmt (.bind name (value.named name))
  ret {value : Expr} : onExpr value → onStmt (.ret value)
  eval {value : Expr} : onExpr value → onStmt (.eval value)

section Inherited

variable {onExpr : Expr → Prop} {onStmt : Stmt → Prop}

mutual

/-- All that is derived has such properties. -/
theorem Expression.inherits {level : Level} {tokens : List Token} {value : Expr}
    (hvalue : Expression level tokens value) (h : Inherited onExpr onStmt) : onExpr value :=
  match hvalue with
  | .ident name => h.ident name
  | .int value => h.int value
  | .str content => h.str content
  | .true => h.bool true
  | .false => h.bool false
  | .parens hinner => hinner.inherits h
  | .unary hop _ hoperand => h.unary hop (hoperand.inherits h)
  | .binary hop _ hleft _ hright => h.binary hop (hleft.inherits h) (hright.inherits h)
  | .call _ hcallee harguments => h.call (hcallee.inherits h) (harguments.inherits h)
  | .index _ hcollection hposition => h.index (hcollection.inherits h) (hposition.inherits h)
  | .branch hcondition hconsequence => h.branch (hcondition.inherits h) (hconsequence.inherits h)
  | .branchElse hcondition hconsequence halternative =>
    h.branchElse (hcondition.inherits h) (hconsequence.inherits h) (halternative.inherits h)
  | .function hbody => h.function (hbody.inherits h)
  | .array helements => h.array (helements.inherits h)
  | .hash hpairs => h.hash (hpairs.inherits h)

theorem Items.inherits {tokens : List Token} {values : List Expr} (hvalues : Items tokens values)
    (h : Inherited onExpr onStmt) : ∀ value ∈ values, onExpr value :=
  match hvalues with
  | .nil => List.forall_mem_nil _
  | .cons hfirst hothers => List.forall_mem_cons.mpr ⟨hfirst.inherits h, hothers.inherits h⟩

theorem MoreItems.inherits {tokens : List Token} {values : List Expr}
    (hvalues : MoreItems tokens values) (h : Inherited onExpr onStmt) :
    ∀ value ∈ values, onExpr value :=
  match hvalues with
  | .nil => List.forall_mem_nil _
  | .cons hfirst hothers => List.forall_mem_cons.mpr ⟨hfirst.inherits h, hothers.inherits h⟩

theorem Pairs.inherits {tokens : List Token} {pairs : List (Expr × Expr)}
    (hpairs : Pairs tokens pairs) (h : Inherited onExpr onStmt) :
    ∀ pair ∈ pairs, onExpr pair.1 ∧ onExpr pair.2 :=
  match hpairs with
  | .nil => List.forall_mem_nil _
  | .last hkey hvalue => List.forall_mem_singleton.mpr ⟨hkey.inherits h, hvalue.inherits h⟩
  | .cons hkey hvalue hothers =>
    List.forall_mem_cons.mpr ⟨⟨hkey.inherits h, hvalue.inherits h⟩, hothers.inherits h⟩

theorem Clause.inherits {tokens : List Token} {stmt : Stmt} (hstmt : Clause tokens stmt)
    (h : Inherited onExpr onStmt) : onStmt stmt :=
  match hstmt with
  | .bind name hvalue => h.bind name (hvalue.inherits h)
  | .ret hvalue => h.ret (hvalue.inherits h)
  | .eval hvalue => h.eval (hvalue.inherits h)

theorem Statement.inherits {tokens : List Token} {stmt : Stmt} (hstmt : Statement tokens stmt)
    (h : Inherited onExpr onStmt) : onStmt stmt :=
  match hstmt with
  | .bare hclause | .ended hclause => hclause.inherits h

theorem Statements.inherits {tokens : List Token} {stmts : List Stmt}
    (hstmts : Statements tokens stmts) (h : Inherited onExpr onStmt) :
    ∀ stmt ∈ stmts, onStmt stmt :=
  match hstmts with
  | .nil => List.forall_mem_nil _
  | .cons hstmt hothers => List.forall_mem_cons.mpr ⟨hstmt.inherits h, hothers.inherits h⟩

theorem Block.inherits {tokens : List Token} {stmts : List Stmt} (hstmts : Block tokens stmts)
    (h : Inherited onExpr onStmt) : ∀ stmt ∈ stmts, onStmt stmt :=
  match hstmts with
  | .braces hinner => hinner.inherits h

end

end Inherited

theorem letNamed_bind_named (name : String) {value : Expr} (h : value.letNamed) :
    (Stmt.bind name (value.named name)).letNamed := by
  cases value with
  | function parameters body given =>
    simp only [Expr.letNamed, Bool.and_eq_true] at h
    simp [Expr.named, Stmt.letNamed, h.2]
  | _ => simpa only [Expr.named, Stmt.letNamed] using h

/-- No form names a function literal but the one that binds it. -/
theorem inherited_letNamed :
    Inherited (fun expr ↦ expr.letNamed) fun stmt ↦ stmt.letNamed where
  ident _ := by rw [Expr.letNamed]
  int _ := by rw [Expr.letNamed]
  str _ := by rw [Expr.letNamed]
  bool _ := by rw [Expr.letNamed]
  unary _ hoperand := by rwa [Expr.letNamed]
  binary _ hleft hright := by rw [Expr.letNamed, hleft, hright, Bool.and_self]
  call hcallee harguments := by
    rw [Expr.letNamed, hcallee, (Expr.letNamedAll_iff _).mpr harguments, Bool.and_self]
  index hcollection hposition := by rw [Expr.letNamed, hcollection, hposition, Bool.and_self]
  branch hcondition hconsequence := by
    rw [Expr.letNamed, hcondition, (Stmt.letNamedAll_iff _).mpr hconsequence, Bool.and_self]
  branchElse hcondition hconsequence halternative := by
    rw [Expr.letNamed, hcondition, (Stmt.letNamedAll_iff _).mpr hconsequence,
      (Stmt.letNamedAll_iff _).mpr halternative, Bool.and_self, Bool.and_self]
  function hbody := by
    rw [Expr.letNamed, beq_self_eq_true, (Stmt.letNamedAll_iff _).mpr hbody, Bool.and_self]
  array helements := by rwa [Expr.letNamed, Expr.letNamedAll_iff]
  hash hpairs := by rwa [Expr.letNamed, Expr.letNamedPairs_iff]
  bind name _ hvalue := letNamed_bind_named name hvalue
  ret hvalue := by rwa [Stmt.letNamed]
  eval hvalue := by rwa [Stmt.letNamed]

theorem Expression.ne_nil {level : Level} {tokens : List Token} {value : Expr}
    (h : Expression level tokens value) : tokens ≠ [] := by
  cases h <;> simp

theorem Statement.ne_nil {tokens : List Token} {stmt : Stmt} (h : Statement tokens stmt) :
    tokens ≠ [] := by
  cases h with
  | ended => simp
  | bare h =>
    cases h with
    | eval hvalue => exact hvalue.ne_nil
    | _ => simp

end Grammar

/-! ### Whole texts -/

namespace Parser

/-- Errors that were found stay. -/
theorem exists_errors_program (fuel rounds : Nat) (done : List Stmt) (errors : List ParseError)
    (input : Input) :
    ∃ more, (program fuel rounds done errors input).2 = errors.reverse ++ more := by
  induction rounds generalizing done errors input with
  | zero => exact ⟨[], by simp [program]⟩
  | succ rounds ih =>
    rw [program]
    split
    · exact ⟨[], by simp⟩
    · split
      · exact ih _ _ _
      · next error _ _ =>
        obtain ⟨more, hmore⟩ := ih done (error :: errors) _
        exact ⟨error :: more, by rw [hmore]; simp⟩

/-- Each round takes a statement, so as many rounds as there are tokens come to the end. -/
theorem program_derives (fuel rounds : Nat) (done : List Stmt) (input : Input)
    (hrounds : input.rest.length ≤ rounds)
    (herrors : (program fuel rounds done [] input).2 = []) :
    ∃ others, (program fuel rounds done [] input).1.statements = done.reverse ++ others ∧
      Statements input.tokens others := by
  induction rounds generalizing done input with
  | zero =>
    have hrest : input.rest = [] := List.length_eq_zero_iff.mp (Nat.le_zero.mp hrounds)
    exact ⟨[], by simp [program], by simpa [Input.tokens, hrest] using Statements.nil⟩
  | succ rounds ih =>
    rw [program] at herrors ⊢
    split
    · next hends =>
      have hempty : input.rest = [] := by simpa [errorLimit] using hends
      exact ⟨[], by simp, by simpa [Input.tokens, hempty] using Statements.nil⟩
    · next hgoes =>
      rw [if_neg hgoes] at herrors
      split
      · next stmt after hok =>
        simp only [hok] at herrors
        obtain ⟨taken, htaken, hstmt⟩ := exists_of_statement_ok hok
        have hshorter : after.rest.length < input.rest.length := by
          have hlength := congrArg List.length htaken
          have hpos := List.length_pos_iff.mpr hstmt.ne_nil
          simp only [Input.tokens, List.length_map, List.length_append] at hlength
          omega
        obtain ⟨others, hothers, hderives⟩ := ih _ _ (by omega) herrors
        refine ⟨stmt :: others, by rw [hothers]; simp, ?_⟩
        rw [htaken]
        exact .cons hstmt hderives
      · next error after hfailed =>
        simp only [hfailed] at herrors
        obtain ⟨more, hmore⟩ := exists_errors_program fuel rounds done [error]
          { after with rest := afterBoundary 0 after.rest }
        rw [hmore] at herrors
        simp at herrors

end Parser

/-- Spec §E2, the front end. Assumes: the tokens are read as the program without an error (`h`). The
grammar derives the program from all of the tokens, with the levels of its operators, and its
function literals have exactly the names that `let`s give them. -/
theorem Program.derives_of_ofTokens {lexemes : List Lexeme} {program : Program}
    (h : Program.ofTokens lexemes = .ok program) :
    Statements (lexemes.map Lexeme.token) program.statements ∧ program.LetNamed := by
  have hread : Parser.program (8 * lexemes.length + 8) lexemes.length [] []
      ⟨lexemes, Lexeme.endOf lexemes⟩ = (program, []) := by
    unfold ofTokens at h
    split at h
    · next read hread =>
      cases h
      exact hread
    · cases h
  obtain ⟨others, hothers, hderives⟩ :=
    Parser.program_derives _ lexemes.length [] ⟨lexemes, Lexeme.endOf lexemes⟩ (Nat.le_refl _)
      (congrArg Prod.snd hread)
  rw [hread] at hothers
  obtain rfl : program.statements = others := hothers
  exact ⟨hderives, (Stmt.letNamedAll_iff _).mpr (hderives.inherits inherited_letNamed)⟩

/-- The text `let f = (fn() { }); f() - 2 - 3`. -/
def mixed : List Lexeme :=
  [.letKeyword, .identifier "f", .assign, .openParen, .fnKeyword, .openParen, .closeParen,
    .openBrace, .closeBrace, .closeParen, .semicolon, .identifier "f", .openParen, .closeParen,
    .minus, .integer 2, .minus, .integer 3].map fun token ↦ ⟨token, 0, 0⟩

def mixedProgram : Program :=
  ⟨[.bind "f" (.function [] [] (some "f")),
    .eval (.binary "-" (.binary "-" (.call (.ident "f") []) (.int 2)) (.int 3))]⟩

theorem Program.derives_of_ofTokens_mixed :
    Program.ofTokens mixed = .ok mixedProgram ∧
    Statements (mixed.map Lexeme.token) mixedProgram.statements ∧ mixedProgram.LetNamed := by
  have h : Program.ofTokens mixed = .ok mixedProgram := rfl
  exact ⟨h, derives_of_ofTokens h⟩

end StackScript
