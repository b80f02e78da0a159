import StackScript.Program.Evaluate
import StackScript.Program.Room
import StackScript.Proofs.Bytecode.WellFormed
import StackScript.Proofs.Machine.Control
import StackScript.Proofs.Program.Bodies
import StackScript.Proofs.Value.Related

/-!
Where there is room enough. A program without function literals computes with values in which there
is no function (`Value.Bare`), so that nothing is ever called but provided functions, which need no
room of their own. What remains is what the values of an expression take while they are held: if
there is room for as many as the expression needs, its evaluation does not fail for want of room
(`Expr.evaluate_fits`).
-/

set_option autoImplicit false
set_option relaxedAutoImplicit false

namespace StackScript

/-! ### Values without functions -/

/-- No function is in the value. -/
def Value.Bare (value : Value Function) : Prop :=
  value.Related (fun _ _ _ ↦ False) value

structure World.Bare (world : World) : Prop where
  globals (slot : Nat) (value : Value Function) : world.globals slot = some value → value.Bare
  locals (value : Value Function) : some value ∈ world.locals → value.Bare

theorem World.bare_empty : World.Bare {} :=
  ⟨nofun, nofun⟩

/-- What an operation makes of related operands is related, so what it makes of operands without
functions has none. -/
theorem Agree.at_ok {ε α : Type} {relation : α → α → Prop} {result : Except ε α} {value : α}
    (h : Agree relation result result) (hok : result = .ok value) : relation value value := by
  rwa [hok] at h

theorem Value.Bare.array {label : Label} {elements : List (Value Function)}
    (h : ∀ element ∈ elements, element.Bare) : (Value.array label elements).Bare :=
  Value.Related.array label (List.forall₂_same.mpr h)

theorem Value.Bare.hash {label : Label} {items : List (Value Function)}
    {entries : Entries Function} (h : ∀ item ∈ items, item.Bare)
    (hentries : Entries.addAll [] items = .ok entries) : (Value.hash label entries).Bare := by
  have hagree : Agree (Entries.Related fun _ _ _ ↦ False) (Entries.addAll [] items)
      (Entries.addAll [] items) := Entries.Related.addAll .nil (List.forall₂_same.mpr h)
  obtain ⟨hkeys, hvalues⟩ := Entries.related_iff.mp (hagree.at_ok hentries)
  exact Value.Related.hash label hkeys hvalues

/-! ### Steps of evaluation -/

namespace Eval

variable {α β : Type} {world : World} {property : α → Prop} {further : β → Prop}

/-- The action leaves no function anywhere and yields what satisfies the property; and it does not
fail for want of room. -/
def Fits (action : Eval α) (world : World) (property : α → Prop) : Prop :=
  Ends action world (fun yielded after ↦ after.Bare ∧ property yielded)
    fun stop _ ↦ stop ≠ .failed .stackOverflow

theorem Fits.bind {action : Eval α} {next : α → Eval β} (h : Fits action world property)
    (hnext : ∀ yielded after, after.Bare → property yielded → Fits (next yielded) after further) :
    Fits (action >>= next) world further :=
  Ends.bind h fun yielded after hdone ↦ hnext yielded after hdone.1 hdone.2

theorem Fits.pure {yielded : α} (hworld : world.Bare) (h : property yielded) :
    Fits (Pure.pure yielded) world property :=
  Ends.pure ⟨hworld, h⟩

theorem Fits.throw {stop : Stop} (h : stop ≠ .failed .stackOverflow) :
    Fits (MonadExcept.throw stop) world property :=
  Ends.throw h

theorem fits_hold {height : Nat} {value : Value Function} (hworld : world.Bare)
    (hroom : height + 1 ≤ stackSize) (hvalue : value.Bare) :
    Fits (hold height value) world Value.Bare := by
  unfold hold
  rw [if_neg (Nat.not_le_of_lt hroom)]
  exact .pure hworld hvalue

theorem fits_freshLabel (hworld : world.Bare) : Fits freshLabel world fun _ ↦ True :=
  ⟨⟨hworld.globals, hworld.locals⟩, trivial⟩

theorem fits_ofExcept {result : Except RunError α} (hworld : world.Bare)
    (hok : ∀ value, result = .ok value → property value)
    (herror : ∀ error, result = .error error → error.isOfValues) :
    Fits (ofExcept result) world property := by
  cases result with
  | ok value => exact .pure hworld (hok value rfl)
  | error error =>
    refine .throw ?_
    rintro ⟨⟩
    cases herror _ rfl

theorem fits_read (use : Use) (hworld : world.Bare) : Fits (read {} use) world Value.Bare := by
  unfold read
  cases use.meaning with
  | global slot =>
    unfold Fits Ends
    dsimp only [readGlobal]
    cases hslot : world.globals slot with
    | none => exact nofun
    | some value => exact ⟨hworld, hworld.globals slot value hslot⟩
  | builtin builtin => exact .pure hworld (.builtin builtin)
  | slot depth slot =>
    dsimp only
    split
    · unfold Fits Ends
      dsimp only [readLocal]
      cases hslot : world.locals[slot]? with
      | none => exact nofun
      | some content =>
        cases content with
        | none => exact nofun
        | some value => exact ⟨hworld, hworld.locals value (List.mem_of_getElem? hslot)⟩
    · exact .throw nofun
  | self depth =>
    dsimp only
    split
    · exact .pure hworld .null
    · exact .throw nofun

theorem fits_write (meaning : Variable) {value : Value Function} (hworld : world.Bare)
    (hvalue : value.Bare) : Fits (write meaning value) world fun _ ↦ True := by
  cases meaning with
  | global slot =>
    refine ⟨⟨fun other content hcontent ↦ ?_, hworld.locals⟩, trivial⟩
    dsimp only at hcontent
    split at hcontent
    · cases hcontent
      exact hvalue
    · exact hworld.globals other content hcontent
  | slot depth slot =>
    refine ⟨⟨hworld.globals, fun content hcontent ↦ ?_⟩, trivial⟩
    rcases List.mem_or_eq_of_mem_set hcontent with hold | hnew
    · exact hworld.locals content hold
    · cases hnew
      exact hvalue
  | builtin builtin => exact nofun
  | self depth => exact nofun

theorem fits_discard (value : Value Function) (hworld : world.Bare) :
    Fits (discard value) world fun _ ↦ True :=
  ⟨⟨hworld.globals, hworld.locals⟩, trivial⟩

theorem fits_operate {op : Opcode} {left right : Value Function}
    (hop : op ∈ [Opcode.add, .sub, .mul, .div, .equal, .notEqual, .greaterThan])
    (hworld : world.Bare) (hleft : left.Bare) (hright : right.Bare) :
    Fits (operate op left right) world Value.Bare := by
  have harithmetic : ∀ {op : Opcode}, op ∈ [Opcode.add, .sub, .mul, .div] →
      Fits (do ofExcept (left.operate (← freshLabel) op right)) world Value.Bare := fun hop ↦
    (fits_freshLabel hworld).bind fun label after hafter _ ↦
      fits_ofExcept hafter (fun _ hok ↦ (hleft.operate hright label _).at_ok hok)
        fun _ ↦ Run.isOfValues_of_operate hop
  have hcomparison : ∀ {op : Opcode}, op ∈ [Opcode.equal, .notEqual, .greaterThan] →
      Fits (do return .boolean (← ofExcept (left.compare op right))) world Value.Bare := by
    intro op hop
    have hcompare : Fits (ofExcept (left.compare op right)) world fun _ ↦ True :=
      fits_ofExcept hworld (fun _ _ ↦ trivial) fun _ ↦ Run.isOfValues_of_compare hop
    exact hcompare.bind fun value after hafter _ ↦ .pure hafter (.boolean value)
  simp only [List.mem_cons, List.not_mem_nil, or_false] at hop
  obtain rfl | rfl | rfl | rfl | rfl | rfl | rfl := hop
  · exact harithmetic (by simp)
  · exact harithmetic (by simp)
  · exact harithmetic (by simp)
  · exact harithmetic (by simp)
  · exact hcomparison (by simp)
  · exact hcomparison (by simp)
  · exact hcomparison (by simp)

theorem fits_operatePrefix (op : Opcode) {value : Value Function} (hworld : world.Bare)
    (hvalue : value.Bare) : Fits (operatePrefix op value) world Value.Bare := by
  unfold operatePrefix
  split
  · exact .pure hworld (.boolean _)
  · exact fits_ofExcept hworld (fun _ hok ↦ hvalue.negate.at_ok hok)
      fun _ ↦ Run.isOfValues_of_negate

/-- There is no function to call but the provided ones, which are done with at once. -/
theorem fits_call (frames height : Nat) {callee : Value Function}
    {arguments : List (Value Function)} (hworld : world.Bare) (hcallee : callee.Bare)
    (harguments : ∀ argument ∈ arguments, argument.Bare) :
    Fits (Eval.call frames callee arguments height) world Value.Bare := by
  cases hcallee with
  | closure label hbody => exact hbody.elim
  | builtin builtin =>
    rw [Eval.call]
    have hprint : Fits (print (builtin.printed arguments)) world fun _ ↦ True :=
      ⟨⟨hworld.globals, hworld.locals⟩, trivial⟩
    refine hprint.bind fun _ middle hmiddle _ ↦ ?_
    refine (fits_freshLabel hmiddle).bind fun label after hafter _ ↦ .pure hafter ?_
    exact Builtin.call_related (List.forall₂_same.mpr harguments) label builtin
  | _ =>
    rw [Eval.call]
    · exact .throw nofun
    all_goals exact nofun

end Eval

/-! ### Programs -/

open Eval

mutual

theorem Expr.evaluate_fits (frames : Nat) : (expr : Expr) → (context : Context) →
    (height : Nat) → (world : World) → expr.bodies = [] → height + expr.need ≤ stackSize →
    world.Bare → Fits (expr.evaluate (Eval.call frames) {} context height) world Value.Bare
  | .int value, context, height, world, _, hroom, hworld => by
    rw [Expr.evaluate]
    exact fits_hold hworld hroom (.integer value)
  | .str content, context, height, world, _, hroom, hworld => by
    rw [Expr.evaluate]
    exact fits_hold hworld hroom (.string _ content)
  | .bool value, context, height, world, _, hroom, hworld => by
    rw [Expr.evaluate]
    exact fits_hold hworld hroom (.boolean value)
  | .ident name, context, height, world, _, hroom, hworld => by
    rw [Expr.evaluate]
    cases context.find? name with
    | none => exact .throw nofun
    | some meaning =>
      exact (fits_read ⟨name, meaning⟩ hworld).bind fun value after hafter hvalue ↦
        fits_hold hafter hroom hvalue
  | .unary op operand, context, height, world, hbodies, hroom, hworld => by
    rw [Expr.need] at hroom
    rw [Expr.bodies] at hbodies
    rw [Expr.evaluate]
    refine (operand.evaluate_fits frames context height world hbodies hroom hworld).bind
      fun value after hafter hvalue ↦ ?_
    cases Opcode.ofPrefix? op with
    | none => exact .throw nofun
    | some opcode => exact fits_operatePrefix opcode hafter hvalue
  | .binary op left right, context, height, world, hbodies, hroom, hworld => by
    rw [Expr.bodies, List.append_eq_nil_iff] at hbodies
    rw [Expr.need] at hroom
    rw [Expr.evaluate]
    by_cases hop : op = "<"
    · rw [if_pos hop] at hroom
      rw [if_pos hop]
      refine (right.evaluate_fits frames _ height _ hbodies.2 (by omega) hworld).bind
        fun second middle hmiddle hsecond ↦ ?_
      refine (left.evaluate_fits frames _ (height + 1) _ hbodies.1 (by omega) hmiddle).bind
        fun first after hafter hfirst ↦ ?_
      exact fits_operate (by simp) hafter hsecond hfirst
    · rw [if_neg hop] at hroom
      rw [if_neg hop]
      refine (left.evaluate_fits frames _ height _ hbodies.1 (by omega) hworld).bind
        fun first middle hmiddle hfirst ↦ ?_
      refine (right.evaluate_fits frames _ (height + 1) _ hbodies.2 (by omega) hmiddle).bind
        fun second after hafter hsecond ↦ ?_
      cases hopcode : Opcode.ofInfix? op with
      | none => exact .throw nofun
      | some opcode =>
        exact fits_operate (Opcode.mem_of_ofInfix? hopcode) hafter hfirst hsecond
  | .branch condition consequence none, context, height, world, hbodies, hroom, hworld => by
    rw [Expr.bodies, List.append_eq_nil_iff] at hbodies
    rw [Expr.need] at hroom
    rw [Expr.evaluate]
    refine (condition.evaluate_fits frames _ height _ hbodies.1 (by omega) hworld).bind
      fun value after hafter _ ↦ ?_
    cases value.isTruthy with
    | true =>
      exact (Stmt.evaluateAll_fits frames consequence _ height _ hbodies.2 (by omega) hafter).bind
        fun yielded last hlast hyielded ↦ .pure hlast hyielded
    | false => exact fits_hold hafter (by omega) .null
  | .branch condition consequence (some alternative), context, height, world, hbodies, hroom,
      hworld => by
    rw [Expr.bodies, List.append_eq_nil_iff, List.append_eq_nil_iff] at hbodies
    rw [Expr.need] at hroom
    rw [Expr.evaluate]
    refine (condition.evaluate_fits frames _ height _ hbodies.1.1 (by omega) hworld).bind
      fun value after hafter _ ↦ ?_
    cases value.isTruthy with
    | true =>
      exact (Stmt.evaluateAll_fits frames consequence _ height _ hbodies.1.2 (by omega)
        hafter).bind fun yielded last hlast hyielded ↦ .pure hlast hyielded
    | false =>
      exact (Stmt.evaluateAll_fits frames alternative _ height _ hbodies.2 (by omega)
        hafter).bind fun yielded last hlast hyielded ↦ .pure hlast hyielded
  | .function parameters body name, context, height, world, hbodies, _, _ => by
    rw [Expr.bodies] at hbodies
    exact absurd hbodies (List.cons_ne_nil _ _)
  | .call callee arguments, context, height, world, hbodies, hroom, hworld => by
    rw [Expr.bodies, List.append_eq_nil_iff] at hbodies
    rw [Expr.need] at hroom
    rw [Expr.evaluate]
    refine (callee.evaluate_fits frames _ height _ hbodies.1 (by omega) hworld).bind
      fun value middle hmiddle hvalue ↦ ?_
    exact (Expr.evaluateAll_fits frames arguments _ height 1 _ hbodies.2 (by omega) hmiddle).bind
      fun values after hafter hvalues ↦ fits_call frames height hafter hvalue hvalues
  | .array elements, context, height, world, hbodies, hroom, hworld => by
    rw [Expr.bodies] at hbodies
    rw [Expr.need] at hroom
    rw [Expr.evaluate]
    refine (Expr.evaluateAll_fits frames elements _ height 0 _ hbodies (by omega) hworld).bind
      fun values middle hmiddle hvalues ↦ ?_
    exact (fits_freshLabel hmiddle).bind fun label after hafter _ ↦
      fits_hold hafter (by omega) (.array hvalues)
  | .hash pairs, context, height, world, hbodies, hroom, hworld => by
    rw [Expr.bodies] at hbodies
    rw [Expr.need] at hroom
    rw [Expr.evaluate]
    refine (Expr.evaluatePairs_fits frames pairs _ height 0 _ hbodies (by omega) hworld).bind
      fun items middle hmiddle hitems ↦ ?_
    have hentries : Fits (ofExcept (Entries.addAll [] items)) middle
        fun entries ↦ Entries.addAll [] items = .ok entries :=
      fits_ofExcept hmiddle (fun _ hok ↦ hok) fun _ ↦ Run.isOfValues_of_addAll
    refine hentries.bind fun entries other hother hok ↦ ?_
    exact (fits_freshLabel hother).bind fun label after hafter _ ↦
      fits_hold hafter (by omega) (.hash hitems hok)
  | .index collection position, context, height, world, hbodies, hroom, hworld => by
    rw [Expr.bodies, List.append_eq_nil_iff] at hbodies
    rw [Expr.need] at hroom
    rw [Expr.evaluate]
    refine (collection.evaluate_fits frames _ height _ hbodies.1 (by omega) hworld).bind
      fun first middle hmiddle hfirst ↦ ?_
    refine (position.evaluate_fits frames _ (height + 1) _ hbodies.2 (by omega) hmiddle).bind
      fun second after hafter hsecond ↦ ?_
    exact fits_ofExcept hafter (fun _ hok ↦ (hfirst.lookUp hsecond).at_ok hok)
      fun _ ↦ Run.isOfValues_of_lookUp

theorem Stmt.evaluate_fits (frames : Nat) : (stmt : Stmt) → (context : Context) →
    (height : Nat) → (world : World) → stmt.bodies = [] → height + stmt.need ≤ stackSize →
    world.Bare → Fits (stmt.evaluate (Eval.call frames) {} context height) world
      fun yielded ↦ (yielded.getD .null).Bare
  | .eval expr, context, height, world, hbodies, hroom, hworld => by
    rw [Stmt.bodies] at hbodies
    rw [Stmt.need] at hroom
    rw [Stmt.evaluate]
    exact (expr.evaluate_fits frames _ height _ hbodies hroom hworld).bind
      fun value after hafter hvalue ↦ .pure hafter hvalue
  | .bind name value, context, height, world, hbodies, hroom, hworld => by
    rw [Stmt.bodies] at hbodies
    rw [Stmt.need] at hroom
    rw [Stmt.evaluate]
    refine (value.evaluate_fits frames _ height _ hbodies hroom hworld).bind
      fun result middle hmiddle hresult ↦ ?_
    exact (fits_write _ hmiddle hresult).bind fun _ after hafter _ ↦ .pure hafter .null
  | .ret value, context, height, world, hbodies, hroom, hworld => by
    rw [Stmt.bodies] at hbodies
    rw [Stmt.need] at hroom
    rw [Stmt.evaluate]
    exact (value.evaluate_fits frames _ height _ hbodies hroom hworld).bind
      fun result after hafter hresult ↦ .throw nofun

theorem Stmt.evaluateAll_fits (frames : Nat) : (stmts : List Stmt) → (context : Context) →
    (height : Nat) → (world : World) → Stmt.bodiesAll stmts = [] →
    height + Stmt.needAll stmts ≤ stackSize → world.Bare →
    Fits (Stmt.evaluateAll (Eval.call frames) {} stmts context height) world
      fun yielded ↦ (yielded.getD .null).Bare
  | [], context, height, world, _, _, hworld => by
    rw [Stmt.evaluateAll]
    exact .pure hworld .null
  | stmt :: rest, context, height, world, hbodies, hroom, hworld => by
    rw [Stmt.bodiesAll, List.append_eq_nil_iff] at hbodies
    rw [Stmt.needAll] at hroom
    rw [Stmt.evaluateAll]
    refine (stmt.evaluate_fits frames _ height _ hbodies.1 (by omega) hworld).bind
      fun yielded middle hmiddle hyielded ↦ ?_
    have hrest := fun world hworld ↦ Stmt.evaluateAll_fits frames rest (stmt.after context) height
      world hbodies.2 (by omega) hworld
    split
    · exact .pure hmiddle hyielded
    · cases yielded with
      | none => exact hrest middle hmiddle
      | some value =>
        exact (fits_discard value hmiddle).bind fun _ after hafter _ ↦ hrest after hafter

theorem Expr.evaluateAll_fits (frames : Nat) : (exprs : List Expr) → (context : Context) →
    (height held : Nat) → (world : World) → Expr.bodiesAll exprs = [] →
    height + Expr.needFrom held exprs ≤ stackSize → world.Bare →
    Fits (Expr.evaluateAll (Eval.call frames) {} exprs context (height + held)) world
      fun values ↦ ∀ value ∈ values, value.Bare
  | [], context, height, held, world, _, _, hworld => by
    rw [Expr.evaluateAll]
    exact .pure hworld nofun
  | expr :: rest, context, height, held, world, hbodies, hroom, hworld => by
    rw [Expr.bodiesAll, List.append_eq_nil_iff] at hbodies
    rw [Expr.needFrom] at hroom
    rw [Expr.evaluateAll]
    refine (expr.evaluate_fits frames _ (height + held) _ hbodies.1 (by omega) hworld).bind
      fun value middle hmiddle hvalue ↦ ?_
    exact (Expr.evaluateAll_fits frames rest _ height (held + 1) _ hbodies.2 (by omega)
      hmiddle).bind fun values after hafter hvalues ↦
        .pure hafter (List.forall_mem_cons.mpr ⟨hvalue, hvalues⟩)

theorem Expr.evaluatePairs_fits (frames : Nat) : (pairs : List (Expr × Expr)) →
    (context : Context) → (height held : Nat) → (world : World) → Expr.bodiesPairs pairs = [] →
    height + Expr.needPairs held pairs ≤ stackSize → world.Bare →
    Fits (Expr.evaluatePairs (Eval.call frames) {} pairs context (height + held)) world
      fun values ↦ ∀ value ∈ values, value.Bare
  | [], context, height, held, world, _, _, hworld => by
    rw [Expr.evaluatePairs]
    exact .pure hworld nofun
  | (key, value) :: rest, context, height, held, world, hbodies, hroom, hworld => by
    rw [Expr.bodiesPairs, List.append_eq_nil_iff, List.append_eq_nil_iff] at hbodies
    rw [Expr.needPairs] at hroom
    rw [Expr.evaluatePairs]
    refine (key.evaluate_fits frames _ (height + held) _ hbodies.1.1 (by omega) hworld).bind
      fun first other hother hfirst ↦ ?_
    refine (value.evaluate_fits frames _ (height + held + 1) _ hbodies.1.2 (by omega) hother).bind
      fun second middle hmiddle hsecond ↦ ?_
    refine (Expr.evaluatePairs_fits frames rest _ height (held + 2) _ hbodies.2 (by omega)
      hmiddle).bind fun others after hafter hothers ↦ .pure hafter ?_
    exact List.forall_mem_cons.mpr ⟨hfirst, List.forall_mem_cons.mpr ⟨hsecond, hothers⟩⟩

end

/-- The need of statements is that of the one that needs most. -/
theorem Stmt.needAll_le_iff {stmts : List Stmt} {most : Nat} :
    Stmt.needAll stmts ≤ most ↔ ∀ stmt ∈ stmts, stmt.need ≤ most := by
  induction stmts with
  | nil => simp [Stmt.needAll]
  | cons stmt rest ih => rw [Stmt.needAll, Nat.max_le, ih, List.forall_mem_cons]

/-- A program without function literals whose statements need no more than the stack has does not
fail for want of room. -/
theorem Program.evaluate_fits {program : Program} (hbodies : Stmt.bodiesAll program.statements = [])
    (hroom : ∀ stmt ∈ program.statements, stmt.need ≤ stackSize) (world : World) :
    program.evaluate ≠ .error (.failed .stackOverflow) world := by
  have hneed : 0 + Stmt.needAll program.statements ≤ stackSize := by
    rw [Nat.zero_add]
    exact Stmt.needAll_le_iff.mpr hroom
  have hfits := Stmt.evaluateAll_fits (frameLimit - 1) program.statements .top 0 {} hbodies hneed
    World.bare_empty
  intro hevaluate
  unfold Program.evaluate at hevaluate
  unfold Fits Ends at hfits
  split at hevaluate
  · cases hevaluate
  · cases hevaluate
  · cases hevaluate
  · next hstop =>
    cases hevaluate
    rw [hstop] at hfits
    exact hfits rfl

end StackScript
