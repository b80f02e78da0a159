import StackScript.Bytecode.Compose
import StackScript.Program.Scoping
import StackScript.Proofs.Scope.Resolution
import StackScript.Proofs.StateMonad

/-!
When a program has code. The names that scopes know are followed through the composition of the
code: a `let` adds its name, capturing a variable adds none, and behind a function all is as it was
before. So a part has code if and only if the names that it uses are known where they stand and its
operators are known (`Program.compose_eq_ok_iff`).
-/

set_option autoImplicit false
set_option relaxedAutoImplicit false

namespace StackScript

/-! ### Names in scopes -/

namespace Scope

/-- Some scope of the chain binds the name. -/
def Seen (chain : List Scope) (name : String) : Prop :=
  ∃ scope ∈ chain, scope.find? name ≠ none

theorem seen_cons {scope : Scope} {outer : List Scope} {name : String} :
    Seen (scope :: outer) name ↔ scope.find? name ≠ none ∨ Seen outer name := by
  simp [Seen]

/-- The same names are bound in both chains, and also from any of their scopes on outwards. -/
inductive SameNames : List Scope → List Scope → Prop
  | nil : SameNames [] []
  | cons {scope other : Scope} {outer around : List Scope}
    (hnames : ∀ name, Seen (scope :: outer) name ↔ Seen (other :: around) name)
    (houter : SameNames outer around) : SameNames (scope :: outer) (other :: around)

theorem SameNames.refl (chain : List Scope) : SameNames chain chain := by
  induction chain with
  | nil => exact .nil
  | cons scope outer ih => exact .cons (fun _ ↦ Iff.rfl) ih

theorem SameNames.trans {first second third : List Scope} (h : SameNames first second)
    (hnext : SameNames second third) : SameNames first third := by
  induction h generalizing third with
  | nil => exact hnext
  | cons hnames _ ih =>
    cases hnext with
    | cons hmore hrest => exact .cons (fun name ↦ (hnames name).trans (hmore name)) (ih hrest)

theorem SameNames.seen {first second : List Scope} (h : SameNames first second) (name : String) :
    Seen first name ↔ Seen second name := by
  cases h with
  | nil => exact Iff.rfl
  | cons hnames _ => exact hnames name

/-- A scope may be given names that are bound around it. -/
theorem SameNames.gain {scope other : Scope} {outer around : List Scope}
    (h : SameNames outer around)
    (hkept : ∀ name, scope.find? name ≠ none → other.find? name ≠ none)
    (hmore : ∀ name, other.find? name ≠ none → scope.find? name ≠ none ∨ Seen outer name) :
    SameNames (scope :: outer) (other :: around) := by
  refine .cons (fun name ↦ ?_) h
  rw [seen_cons, seen_cons, ← h.seen]
  constructor
  · exact Or.imp_left (hkept name)
  · rintro (hbound | hseen)
    · exact hmore name hbound
    · exact .inr hseen

end Scope

namespace Scopes

open Scope (Seen SameNames seen_cons)

theorem name_of_resolveFrom {name : String} {current : Scope} {outer : List Scope} {symbol : Symbol}
    {after : Scopes} (h : resolveFrom name current outer = some (symbol, after)) :
    symbol.name = name := by
  induction outer generalizing current symbol after with
  | nil =>
    simp only [resolveFrom] at h
    split at h
    · next hfind =>
      cases h
      exact Scope.name_of_find? hfind
    · cases h
  | cons around outer ih =>
    simp only [resolveFrom] at h
    split at h
    · next hfind =>
      cases h
      exact Scope.name_of_find? hfind
    · split at h
      · cases h
      · next found scopes hfound =>
        have hname := ih hfound
        split at h <;> cases h <;> exact hname

theorem seen_of_resolveFrom {name : String} {current : Scope} {outer : List Scope} {symbol : Symbol}
    {after : Scopes} (h : resolveFrom name current outer = some (symbol, after)) :
    Seen (current :: outer) name := by
  by_contra hunseen
  have hnone : resolveFrom name current outer = none := by
    refine resolveFrom_eq_none_iff.mpr fun scope hscope ↦ ?_
    by_contra hbound
    exact hunseen ⟨scope, hscope, hbound⟩
  rw [hnone] at h
  cases h

/-- What is captured was known already. -/
theorem sameNames_of_resolveFrom {name : String} {current : Scope} {outer : List Scope}
    {symbol : Symbol} {after : Scopes} (h : resolveFrom name current outer = some (symbol, after)) :
    SameNames (current :: outer) after.tables := by
  induction outer generalizing current symbol after with
  | nil =>
    simp only [resolveFrom] at h
    split at h <;> cases h
    exact .refl _
  | cons around outer ih =>
    simp only [resolveFrom] at h
    split at h
    · cases h
      exact .refl _
    · split at h
      · cases h
      · next found scopes hfound =>
        have hsame := ih hfound
        split at h
        · cases h
          exact hsame.gain (fun _ hbound ↦ hbound) fun _ hbound ↦ .inl hbound
        · cases h
          have hbind : ∀ other, (current.capture found).2.find? other =
              if other = found.name then some _ else current.find? other :=
            fun other ↦ Scope.find?_bind current _ other
          refine hsame.gain (fun other hbound ↦ ?_) fun other hbound ↦ ?_
          · rw [hbind]
            split
            · exact Option.some_ne_none _
            · exact hbound
          · rw [hbind] at hbound
            split at hbound
            · next hname =>
              rw [hname, name_of_resolveFrom hfound]
              exact .inr (seen_of_resolveFrom hfound)
            · exact .inl hbound

/-- The names that are bound in the current scope or around it. -/
def Knows (scopes : Scopes) (known : List String) : Prop :=
  ∀ name, name ∈ known ↔ Seen scopes.tables name

theorem Knows.of_mem_iff {scopes : Scopes} {known other : List String} (h : scopes.Knows known)
    (hsame : ∀ name, name ∈ other ↔ name ∈ known) : scopes.Knows other :=
  fun name ↦ (hsame name).trans (h name)

/-- A scope with one more name. -/
theorem Knows.bind {scopes : Scopes} {current : Scope} {known : List String} {name : String}
    (h : scopes.Knows known) (hbind : ∀ other, current.find? other ≠ none ↔
      other = name ∨ scopes.current.find? other ≠ none) :
    Knows ⟨current, scopes.outer⟩ (name :: known) := by
  intro other
  have hold := h other
  rw [tables, seen_cons] at hold ⊢
  rw [List.mem_cons, hold, hbind, or_assoc]

theorem find?_bind_ne_none {scope : Scope} {symbol : Symbol} (other : String) :
    (scope.bind symbol).find? other ≠ none ↔ other = symbol.name ∨ scope.find? other ≠ none := by
  rw [Scope.find?_bind]
  split
  · next hname => simp [hname]
  · next hname => simp [hname]

theorem Knows.define {scopes : Scopes} {known : List String} (h : scopes.Knows known)
    (name : String) : (scopes.define name).2.Knows (name :: known) :=
  h.bind fun other ↦ find?_bind_ne_none other

theorem Knows.defineFunction {scopes : Scopes} {known : List String} (h : scopes.Knows known)
    (name : String) : (scopes.defineFunction name).2.Knows (name :: known) :=
  h.bind fun other ↦ find?_bind_ne_none other

theorem Knows.enclose {scopes : Scopes} {known : List String} (h : scopes.Knows known) :
    scopes.enclose.Knows known := by
  intro name
  refine (h name).trans (Iff.symm (seen_cons.trans ⟨?_, .inr⟩))
  rintro (hbound | hseen)
  · exact absurd rfl hbound
  · exact hseen

/-- Names that are bound one after the other. -/
theorem Knows.foldl {α : Type} {add : Scopes → α → Scopes} {title : α → String}
    (hadd : ∀ scopes known item, scopes.Knows known → (add scopes item).Knows (title item :: known))
    (items : List α) {scopes : Scopes} {known : List String} (h : scopes.Knows known) :
    (items.foldl add scopes).Knows (items.map title ++ known) := by
  induction items generalizing scopes known with
  | nil => exact h
  | cons item rest ih =>
    refine (ih (hadd scopes known item h)).of_mem_iff fun name ↦ ?_
    simp only [List.map_cons, List.cons_append, List.mem_cons, List.mem_append]
    tauto

/-- A function knows its parameters and its own name besides. -/
theorem Knows.enter {scopes : Scopes} {known : List String} (h : scopes.Knows known)
    (name : Option String) (parameters : List String) :
    (Assembly.enter name parameters scopes).Knows (parameters ++ (name.toList ++ known)) := by
  have hadd : ∀ (scopes : Scopes) (known : List String) (parameter : String), scopes.Knows known →
      (scopes.define parameter).2.Knows (parameter :: known) :=
    fun _ _ parameter h ↦ h.define parameter
  have hparameters : ∀ {scopes : Scopes} {known : List String}, scopes.Knows known →
      (parameters.foldl (fun scopes parameter ↦ (scopes.define parameter).2) scopes).Knows
        (parameters ++ known) := by
    intro scopes known h
    have hall := h.foldl hadd parameters
    rwa [List.map_id'] at hall
  cases name with
  | none => exact hparameters h.enclose
  | some name => exact hparameters (h.enclose.defineFunction name)

/-- The provided functions are known before a program begins. -/
theorem knows_bindBuiltins : (Builder.bindBuiltins {}).Knows (Builtin.all.map Builtin.name) := by
  have hadd : ∀ (scopes : Scopes) (known : List String) (builtin : Builtin), scopes.Knows known →
      (scopes.defineBuiltin builtin.index builtin.name).2.Knows (builtin.name :: known) :=
    fun _ _ _ h ↦ h.bind fun other ↦ find?_bind_ne_none other
  have hnone : Scopes.Knows {} [] := by
    intro name
    simp [Seen, tables, Scope.find?]
  rw [← List.append_nil (Builtin.all.map Builtin.name)]
  exact hnone.foldl hadd Builtin.all

end Scopes

/-! ### Compositions -/

namespace Composer

open Scope (SameNames)

variable {α β : Type} {names? more? : List String → Option (List String)} {operable others : Bool}

/-- There is code if and only if the names are known and the operators are; and then these are the
names that are known behind it. -/
def Tells (composition : Composer α) (names? : List String → Option (List String))
    (operable : Bool) : Prop :=
  ∀ outline known, outline.scopes.Knows known → Ends composition outline
    (fun _ after ↦ operable = true ∧ ∃ later, names? known = some later ∧
      after.scopes.Knows later ∧ SameNames outline.scopes.outer after.scopes.outer)
    fun _ _ ↦ operable = false ∨ names? known = none

theorem Tells.of_eq {composition : Composer α} (h : Tells composition names? operable)
    (hnames : ∀ known, more? known = names? known) (hoperable : others = operable) :
    Tells composition more? others := by
  obtain rfl : more? = names? := funext hnames
  rwa [hoperable]

theorem Tells.bind {composition : Composer α} {next : α → Composer β}
    (h : Tells composition names? operable) (hnext : ∀ yielded, Tells (next yielded) more? others) :
    Tells (composition >>= next) (fun known ↦ (names? known).bind more?) (operable && others) := by
  intro outline known hknown
  refine Ends.bind ((h outline known hknown).mono (fun _ _ hdone ↦ hdone) ?_) ?_
  · rintro _ _ (hoperable | hnone)
    · exact .inl (by rw [hoperable, Bool.false_and])
    · exact .inr (by simp [hnone])
  · rintro yielded middle ⟨hoperable, later, hsome, hlater, hsame⟩
    refine (hnext yielded middle later hlater).mono ?_ ?_
    · rintro _ after ⟨hothers, last, hlast, hknows, hmore⟩
      refine ⟨by rw [hoperable, hothers, Bool.and_self], last, ?_, hknows, hsame.trans hmore⟩
      simp [hsome, hlast]
    · rintro _ _ (hothers | hnone)
      · exact .inl (by rw [hothers, Bool.and_false])
      · exact .inr (by simp [hsome, hnone])

theorem Tells.pure (yielded : α) : Tells (Pure.pure yielded) some true :=
  fun _ known hknown ↦ Ends.pure ⟨rfl, known, rfl, hknown, .refl _⟩

theorem tells_addPiece (piece : Piece) : Tells (addPiece piece) some true :=
  fun _ known hknown ↦ ⟨rfl, known, rfl, hknown, .refl _⟩

theorem tells_define (name : String) :
    Tells (define name) (fun known ↦ some (name :: known)) true :=
  fun _ _ hknown ↦ ⟨rfl, _, rfl, hknown.define name, .refl _⟩

theorem tells_prefixOperator (op : String) :
    Tells (prefixOperator op) some (Opcode.ofPrefix? op).isSome := by
  unfold prefixOperator
  cases Opcode.ofPrefix? op with
  | some opcode => exact .pure opcode
  | none => exact fun _ _ _ ↦ Ends.throw (.inl rfl)

theorem tells_infixOperator (op : String) :
    Tells (infixOperator op) some (Opcode.ofInfix? op).isSome := by
  unfold infixOperator
  cases Opcode.ofInfix? op with
  | some opcode => exact .pure opcode
  | none => exact fun _ _ _ ↦ Ends.throw (.inl rfl)

theorem tells_resolve (name : String) :
    Tells (resolve name) (fun known ↦ if name ∈ known then some known else none) true := by
  intro outline known hknown
  unfold Ends resolve
  cases hresolve : outline.scopes.resolve name with
  | none =>
    refine .inr (if_neg fun hmem ↦ ?_)
    obtain ⟨scope, hscope, hbound⟩ := (hknown name).mp hmem
    exact hbound (Scopes.resolveFrom_eq_none_iff.mp hresolve scope hscope)
  | some found =>
    have hmem : name ∈ known := (hknown name).mpr (Scopes.seen_of_resolveFrom hresolve)
    have hsame := Scopes.sameNames_of_resolveFrom hresolve
    refine ⟨rfl, known, if_pos hmem, fun other ↦ (hknown other).trans (hsame.seen other), ?_⟩
    cases hsame with
    | cons _ houter => exact houter

/-- Behind a function the names are those that were known before it. -/
theorem tells_inFunction {name : Option String} {parameters : List String}
    {body : Composer (List Instruction)} (h : Tells body names? operable) :
    Tells (inFunction name parameters body)
      (fun known ↦ (names? (parameters ++ (name.toList ++ known))).map fun _ ↦ known) operable := by
  intro outline known hknown
  have hbody := h { outline with scopes := Assembly.enter name parameters outline.scopes } _
    (hknown.enter name parameters)
  unfold Ends at hbody ⊢
  unfold inFunction
  cases hcompose : body { outline with scopes := Assembly.enter name parameters outline.scopes } with
  | error error after =>
    rw [hcompose] at hbody
    exact hbody.imp_right fun hnone ↦ by simp [hnone]
  | ok code after =>
    rw [hcompose] at hbody
    obtain ⟨hoperable, later, hsome, _, hsame⟩ := hbody
    dsimp only at hsame
    rw [Scopes.outer_enter] at hsame
    obtain ⟨pieces, current, outer⟩ := after
    have hknows := fun other ↦ (hknown other).trans (hsame.seen other)
    cases hsame with
    | cons _ houter => exact ⟨hoperable, known, by simp [hsome], hknows, houter⟩

end Composer

/-! ### Programs -/

open Composer

mutual

theorem Expr.tells : (expr : Expr) → ∀ start, Tells (expr.compose start) expr.names? expr.operable
  | .int value, start => by
    rw [Expr.compose]
    exact ((tells_addPiece _).bind fun entry ↦ .pure _).of_eq (by simp [Expr.names?]) rfl
  | .str content, start => by
    rw [Expr.compose]
    exact ((tells_addPiece _).bind fun entry ↦ .pure _).of_eq (by simp [Expr.names?]) rfl
  | .bool value, start => by
    rw [Expr.compose]
    exact (Tells.pure _).of_eq (by simp [Expr.names?]) rfl
  | .ident name, start => by
    rw [Expr.compose]
    exact ((tells_resolve name).bind fun symbol ↦ .pure _).of_eq (by simp [Expr.names?]) rfl
  | .unary op operand, start => by
    rw [Expr.compose]
    exact ((operand.tells start).bind fun code ↦ (tells_prefixOperator op).bind fun _ ↦
      .pure _).of_eq (by simp [Expr.names?]) (by simp [Expr.operable])
  | .binary op left right, start => by
    rw [Expr.compose]
    split
    · next hop =>
      exact ((right.tells start).bind fun _ ↦ (left.tells _).bind fun _ ↦ .pure _).of_eq
        (by simp [Expr.names?, hop]) (by simp [Expr.operable, hop, Bool.and_comm])
    · next hop =>
      exact ((left.tells start).bind fun _ ↦ (right.tells _).bind fun _ ↦
        (tells_infixOperator op).bind fun _ ↦ .pure _).of_eq
        (by simp [Expr.names?, hop])
        (by simp [Expr.operable, beq_eq_false_iff_ne.mpr hop, Bool.and_assoc])
  | .branch condition consequence none, start => by
    rw [Expr.compose]
    exact ((condition.tells start).bind fun _ ↦ (Stmt.tellsAll consequence .keep _).bind fun _ ↦
      .pure _).of_eq (by simp [Expr.names?]) (by simp [Expr.operable])
  | .branch condition consequence (some alternative), start => by
    rw [Expr.compose]
    exact ((condition.tells start).bind fun _ ↦ (Stmt.tellsAll consequence .keep _).bind fun _ ↦
      (Stmt.tellsAll alternative .keep _).bind fun _ ↦ .pure _).of_eq
      (by simp [Expr.names?]) (by simp [Expr.operable, Bool.and_assoc])
  | .function parameters body name, start => by
    rw [Expr.compose]
    have hbody := (Stmt.tellsAll body .giveBack 0).bind fun code ↦
      Tells.pure (if Stmt.returns body then code else code ++ [⟨.ret, []⟩])
    exact ((tells_inFunction hbody).bind fun _ ↦ (tells_addPiece _).bind fun _ ↦ .pure _).of_eq
      (by simp [Expr.names?]) (by simp [Expr.operable])
  | .call callee arguments, start => by
    rw [Expr.compose]
    exact ((callee.tells start).bind fun _ ↦ (Expr.tellsAll arguments _).bind fun _ ↦
      .pure _).of_eq (by simp [Expr.names?]) (by simp [Expr.operable])
  | .array elements, start => by
    rw [Expr.compose]
    exact ((Expr.tellsAll elements start).bind fun _ ↦ .pure _).of_eq
      (by simp [Expr.names?]) (by simp [Expr.operable])
  | .hash pairs, start => by
    rw [Expr.compose]
    exact ((Expr.tellsPairs pairs start).bind fun _ ↦ .pure _).of_eq
      (by simp [Expr.names?]) (by simp [Expr.operable])
  | .index collection position, start => by
    rw [Expr.compose]
    exact ((collection.tells start).bind fun _ ↦ (position.tells _).bind fun _ ↦
      .pure _).of_eq (by simp [Expr.names?]) (by simp [Expr.operable])

theorem Stmt.tells : (stmt : Stmt) → ∀ ending start,
    Tells (stmt.compose ending start) stmt.names? stmt.operable
  | .eval expr, ending, start => by
    rw [Stmt.compose]
    exact ((expr.tells start).bind fun _ ↦ .pure _).of_eq
      (by simp [Stmt.names?]) (by simp [Stmt.operable])
  | .bind name value, ending, start => by
    rw [Stmt.compose]
    exact ((tells_define name).bind fun _ ↦ (value.tells start).bind fun _ ↦ .pure _).of_eq
      (by simp [Stmt.names?]) (by simp [Stmt.operable])
  | .ret value, ending, start => by
    rw [Stmt.compose]
    exact ((value.tells start).bind fun _ ↦ .pure _).of_eq
      (by simp [Stmt.names?]) (by simp [Stmt.operable])

theorem Stmt.tellsAll : (stmts : List Stmt) → ∀ ending start,
    Tells (Stmt.composeAll stmts ending start) (Stmt.namesAll? stmts) (Stmt.operableAll stmts)
  | [], ending, start => by
    rw [Stmt.composeAll]
    exact (Tells.pure _).of_eq (by simp [Stmt.namesAll?]) rfl
  | stmt :: rest, ending, start => by
    rw [Stmt.composeAll]
    exact ((stmt.tells _ start).bind fun _ ↦ (Stmt.tellsAll rest ending _).bind fun _ ↦
      .pure _).of_eq (by simp [Stmt.namesAll?]) (by simp [Stmt.operableAll])

theorem Expr.tellsAll : (exprs : List Expr) → ∀ start,
    Tells (Expr.composeAll exprs start) (Expr.namesAll? exprs) (Expr.operableAll exprs)
  | [], start => by
    rw [Expr.composeAll]
    exact (Tells.pure _).of_eq (by simp [Expr.namesAll?]) rfl
  | expr :: rest, start => by
    rw [Expr.composeAll]
    exact ((expr.tells start).bind fun _ ↦ (Expr.tellsAll rest _).bind fun _ ↦
      .pure _).of_eq (by simp [Expr.namesAll?]) (by simp [Expr.operableAll])

theorem Expr.tellsPairs : (pairs : List (Expr × Expr)) → ∀ start,
    Tells (Expr.composePairs pairs start) (Expr.namesPairs? pairs) (Expr.operablePairs pairs)
  | [], start => by
    rw [Expr.composePairs]
    exact (Tells.pure _).of_eq (by simp [Expr.namesPairs?]) rfl
  | (key, value) :: rest, start => by
    rw [Expr.composePairs]
    exact ((key.tells start).bind fun _ ↦ (value.tells _).bind fun _ ↦
      (Expr.tellsPairs rest _).bind fun _ ↦ .pure _).of_eq
      (by simp [Expr.namesPairs?]) (by simp [Expr.operablePairs, Bool.and_assoc])

end

/-- A program has code if and only if every name that it uses is known where it stands, and every
operator is known. -/
theorem Program.compose_eq_ok_iff (program : Program) :
    (∃ composed, program.compose = .ok composed) ↔ program.Scoped ∧ program.Operable := by
  have h := Stmt.tellsAll program.statements .discard 0 { scopes := Builder.bindBuiltins {} } _
    Scopes.knows_bindBuiltins
  unfold Ends at h
  unfold Program.compose Program.Scoped Program.Operable
  cases hcompose : Stmt.composeAll program.statements .discard 0
      { scopes := Builder.bindBuiltins {} } with
  | ok code outline =>
    rw [hcompose] at h
    obtain ⟨hoperable, later, hsome, _⟩ := h
    simp [hoperable, hsome]
  | error error outline =>
    rw [hcompose] at h
    rcases h with hoperable | hnone
    · simp [hoperable]
    · simp [hnone]

end StackScript
