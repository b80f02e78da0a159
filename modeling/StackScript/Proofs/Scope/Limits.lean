import StackScript.Bytecode.Assemble

/-!
What the symbols of a scope can refer to. A chain of scopes is bounded if every name in it stands
for a slot that was given out, a provided function or a captured value, and every captured value is
known in the scope around. Defining, looking up and leaving keep chains bounded, and scopes only
grow: a slot that was given out and a captured value stay what they are.
-/

set_option autoImplicit false
set_option relaxedAutoImplicit false

namespace StackScript

/-- How many globals there are, and in a function how many local slots and captured values. -/
structure Limits where
  globals : Nat
  locals : Nat := 0
  free : Nat := 0
  inFunction : Bool := false

/-- The second limits allow no less. -/
structure Limits.Grown (first second : Limits) : Prop where
  globals : first.globals ≤ second.globals
  locals : first.locals ≤ second.locals
  free : first.free ≤ second.free
  inFunction : first.inFunction = second.inFunction

/-- A symbol refers to something that there is. -/
def Symbol.Within (limits : Limits) (symbol : Symbol) : Prop :=
  match symbol.place with
  | .global => symbol.index < limits.globals
  | .localSlot => symbol.index < limits.locals
  | .builtin => symbol.index < Builtin.all.length
  | .free => symbol.index < limits.free
  | .function => limits.inFunction

theorem Symbol.Within.mono {first second : Limits} {symbol : Symbol} (h : symbol.Within first)
    (hgrown : first.Grown second) : symbol.Within second := by
  unfold Symbol.Within at h ⊢
  split
  case h_1 hplace =>
    rw [hplace] at h
    exact Nat.lt_of_lt_of_le h hgrown.globals
  case h_2 hplace =>
    rw [hplace] at h
    exact Nat.lt_of_lt_of_le h hgrown.locals
  case h_3 hplace =>
    rw [hplace] at h
    exact h
  case h_4 hplace =>
    rw [hplace] at h
    exact Nat.lt_of_lt_of_le h hgrown.free
  case h_5 hplace =>
    rw [hplace] at h
    exact hgrown.inFunction ▸ h

namespace Scope

/-- How many globals the outermost scope has. -/
def globals : Scope → List Scope → Nat
  | current, [] => current.definitions
  | _, around :: outer => globals around outer

/-- What can be referred to in a scope inside others. -/
def limits (current : Scope) (outer : List Scope) : Limits :=
  match outer with
  | [] => { globals := current.definitions }
  | around :: outer =>
    { globals := globals around outer
      locals := current.definitions
      free := current.captured.length
      inFunction := true }

/-- Every name refers to something that there is, in this scope and in all around it. -/
def Bounded (current : Scope) : List Scope → Prop
  | [] => ∀ symbol ∈ current.bindings, symbol.Within (current.limits [])
  | around :: outer =>
    (∀ symbol ∈ current.bindings, symbol.Within (current.limits (around :: outer))) ∧
      (∀ symbol ∈ current.captured, symbol.Within (around.limits outer)) ∧ around.Bounded outer

/-- Slots are added behind those there were, and so are captured values. -/
structure Grown (before after : Scope) : Prop where
  definitions : before.definitions ≤ after.definitions
  captured : before.captured <+: after.captured

theorem Grown.refl (scope : Scope) : scope.Grown scope :=
  ⟨Nat.le_refl _, List.prefix_rfl⟩

theorem Grown.trans {first second third : Scope} (h : first.Grown second)
    (hnext : second.Grown third) : first.Grown third :=
  ⟨Nat.le_trans h.definitions hnext.definitions, h.captured.trans hnext.captured⟩

theorem mem_bindings_bind {scope : Scope} {symbol other : Symbol}
    (h : other ∈ (scope.bind symbol).bindings) : other = symbol ∨ other ∈ scope.bindings := by
  rcases List.mem_cons.mp h with hnew | hold
  · exact .inl hnew
  · exact .inr (List.mem_filter.mp hold).1

theorem mem_of_find? {scope : Scope} {name : String} {symbol : Symbol}
    (h : scope.find? name = some symbol) : symbol ∈ scope.bindings :=
  List.mem_of_find?_eq_some h

theorem Bounded.within {current : Scope} {outer : List Scope} (h : current.Bounded outer) :
    ∀ symbol ∈ current.bindings, symbol.Within (current.limits outer) := by
  cases outer with
  | nil => exact h
  | cons around outer => exact h.1

/-- Binding a symbol that refers to something keeps a chain bounded. -/
theorem Bounded.bind {current grown : Scope} {outer : List Scope} (symbol : Symbol)
    (h : current.Bounded outer) (hbindings : grown.bindings = (current.bind symbol).bindings)
    (hgrown : current.Grown grown) (hwithin : symbol.Within (grown.limits outer))
    (hcaptured : ∀ around rest, outer = around :: rest →
      ∀ captured ∈ grown.captured, captured.Within (around.limits rest)) :
    grown.Bounded outer := by
  have hlimits : (current.limits outer).Grown (grown.limits outer) := by
    cases outer with
    | nil => exact ⟨hgrown.definitions, Nat.le_refl _, Nat.le_refl _, rfl⟩
    | cons around outer =>
      exact ⟨Nat.le_refl _, hgrown.definitions, hgrown.captured.length_le, rfl⟩
  have hall : ∀ other ∈ grown.bindings, other.Within (grown.limits outer) := by
    intro other hother
    rw [hbindings] at hother
    rcases mem_bindings_bind hother with rfl | hold
    · exact hwithin
    · exact (h.within other hold).mono hlimits
  cases outer with
  | nil => exact hall
  | cons around outer => exact ⟨hall, hcaptured around outer rfl, h.2.2⟩

theorem globals_mono {current grown : Scope} {outer after : List Scope}
    (hcurrent : current.Grown grown) (houter : List.Forall₂ Grown outer after) :
    globals current outer ≤ globals grown after := by
  induction houter generalizing current grown with
  | nil => exact hcurrent.definitions
  | cons haround _ ih => exact ih haround

theorem limits_mono {current grown : Scope} {outer after : List Scope}
    (hcurrent : current.Grown grown) (houter : List.Forall₂ Grown outer after) :
    (current.limits outer).Grown (grown.limits after) := by
  cases houter with
  | nil => exact ⟨hcurrent.definitions, Nat.le_refl _, Nat.le_refl _, rfl⟩
  | cons haround hrest =>
    exact ⟨globals_mono haround hrest, hcurrent.definitions, hcurrent.captured.length_le, rfl⟩

/-- A name that is bound in a bounded chain stays bounded when the scopes around grow. -/
theorem Bounded.around {current around grown : Scope} {outer after : List Scope}
    (h : current.Bounded (around :: outer)) (haround : around.Grown grown)
    (houter : List.Forall₂ Grown outer after) (hbounded : grown.Bounded after) :
    current.Bounded (grown :: after) := by
  refine ⟨fun symbol hsymbol ↦ (h.1 symbol hsymbol).mono ?_,
    fun symbol hsymbol ↦ (h.2.1 symbol hsymbol).mono (limits_mono haround houter), hbounded⟩
  exact limits_mono (Grown.refl current) (.cons haround houter)

end Scope

/-! ### Chains of scopes -/

namespace Scopes

def limits (scopes : Scopes) : Limits :=
  scopes.current.limits scopes.outer

def Bounded (scopes : Scopes) : Prop :=
  scopes.current.Bounded scopes.outer

structure Grown (before after : Scopes) : Prop where
  current : before.current.Grown after.current
  outer : List.Forall₂ Scope.Grown before.outer after.outer

theorem Grown.refl (scopes : Scopes) : scopes.Grown scopes :=
  ⟨Scope.Grown.refl _, List.forall₂_same.mpr fun scope _ ↦ Scope.Grown.refl scope⟩

theorem Grown.trans {first second third : Scopes} (h : first.Grown second)
    (hnext : second.Grown third) : first.Grown third := by
  refine ⟨h.current.trans hnext.current, ?_⟩
  have hfirst := h.outer
  have hsecond := hnext.outer
  generalize first.outer = before, second.outer = middle, third.outer = last at hfirst hsecond ⊢
  induction hfirst generalizing last with
  | nil => exact hsecond
  | cons hscope _ ih =>
    cases hsecond with
    | cons hother hrest => exact .cons (hscope.trans hother) (ih _ hrest)

theorem Grown.limits {before after : Scopes} (h : before.Grown after) :
    before.limits.Grown after.limits :=
  Scope.limits_mono h.current h.outer

theorem Grown.outer_eq_nil {before after : Scopes} (h : before.Grown after) :
    after.outer = [] ↔ before.outer = [] := by
  rw [← List.length_eq_zero_iff, ← List.length_eq_zero_iff, h.outer.length_eq]

theorem define_grown (scopes : Scopes) (name : String) :
    scopes.Grown (scopes.define name).2 :=
  ⟨⟨Nat.le_succ _, List.prefix_rfl⟩, (Grown.refl scopes).outer⟩

theorem Bounded.define {scopes : Scopes} (h : scopes.Bounded) (name : String) :
    (scopes.define name).2.Bounded ∧
      (scopes.define name).1.Within (scopes.define name).2.limits := by
  have hwithin : (scopes.define name).1.Within (scopes.define name).2.limits := by
    cases houter : scopes.outer with
    | nil => simp [Scopes.define, Scope.define, Scope.bind, houter, Symbol.Within, Scopes.limits,
        Scope.limits]
    | cons around outer => simp [Scopes.define, Scope.define, Scope.bind, houter, Symbol.Within,
        Scopes.limits, Scope.limits]
  refine ⟨Scope.Bounded.bind _ h rfl (define_grown scopes name).current hwithin ?_, hwithin⟩
  intro around rest houter captured hcaptured
  change scopes.outer = around :: rest at houter
  rw [Bounded, houter] at h
  exact h.2.1 captured hcaptured

end Scopes

/-! ### Looking up -/

/-- Looking a name up only adds captures. -/
theorem Scopes.grown_resolveFrom {name : String} {current : Scope} {outer : List Scope}
    {symbol : Symbol} {scopes : Scopes}
    (hname : resolveFrom name current outer = some (symbol, scopes)) :
    Grown ⟨current, outer⟩ scopes := by
  induction outer generalizing current symbol scopes with
  | nil =>
    simp only [resolveFrom] at hname
    split at hname
    · cases hname
      exact .refl _
    · cases hname
  | cons around outer ih =>
    simp only [resolveFrom] at hname
    split at hname
    · cases hname
      exact .refl _
    · split at hname
      · cases hname
      · next found further hfound =>
        have hgrown := ih hfound
        split at hname
        · cases hname
          exact ⟨.refl _, .cons hgrown.current hgrown.outer⟩
        · cases hname
          exact ⟨⟨Nat.le_refl _, List.prefix_append _ _⟩, .cons hgrown.current hgrown.outer⟩

theorem Scope.Bounded.resolveFrom {name : String} {current : Scope} {outer : List Scope}
    {symbol : Symbol} {scopes : Scopes} (h : current.Bounded outer)
    (hname : Scopes.resolveFrom name current outer = some (symbol, scopes)) :
    scopes.Bounded ∧ symbol.Within scopes.limits := by
  induction outer generalizing current symbol scopes with
  | nil =>
    simp only [Scopes.resolveFrom] at hname
    split at hname
    · next found hfound =>
      cases hname
      exact ⟨h, h _ (mem_of_find? hfound)⟩
    · cases hname
  | cons around outer ih =>
    simp only [Scopes.resolveFrom] at hname
    split at hname
    · next found hfound =>
      cases hname
      exact ⟨h, h.1 _ (mem_of_find? hfound)⟩
    · split at hname
      · cases hname
      · next found further hfound =>
        obtain ⟨hbounded, hwithin⟩ := ih h.2.2 hfound
        have hgrown := Scopes.grown_resolveFrom hfound
        have hcurrent := h.around hgrown.current hgrown.outer hbounded
        split at hname
        · next hshared =>
          cases hname
          refine ⟨hcurrent, ?_⟩
          -- a shared symbol means the same in all scopes
          simp only [Symbol.isShared, Bool.or_eq_true, decide_eq_true_eq] at hshared
          unfold Symbol.Within at hwithin ⊢
          rcases hshared with hplace | hplace
          · rw [hplace] at hwithin ⊢
            have hglobals : further.limits.globals =
                Scope.globals further.current further.outer := by
              simp only [Scopes.limits, Scope.limits]
              cases further.outer <;> rfl
            simp only [hglobals] at hwithin
            exact hwithin
          · rw [hplace] at hwithin ⊢
            exact hwithin
        · cases hname
          have hsame : current.Grown (current.capture found).2 :=
            ⟨Nat.le_refl _, List.prefix_append _ _⟩
          refine ⟨?_, ?_⟩
          · refine Scope.Bounded.bind (current.capture found).1 hcurrent rfl hsame ?_ ?_
            · simp [Scope.capture, Scope.bind, Symbol.Within, Scope.limits]
            · rintro _ _ ⟨⟩ captured hcaptured
              rcases List.mem_append.mp hcaptured with hold | hnew
              · exact hcurrent.2.1 captured hold
              · rw [List.mem_singleton.mp hnew]
                exact hwithin
          · simp [Scope.capture, Scope.bind, Symbol.Within, Scopes.limits, Scope.limits]

namespace Scopes

theorem Bounded.resolve {scopes after : Scopes} {name : String} {symbol : Symbol}
    (h : scopes.Bounded) (hname : scopes.resolve name = some (symbol, after)) :
    after.Bounded ∧ scopes.Grown after ∧ symbol.Within after.limits :=
  have ⟨hbounded, hwithin⟩ := Scope.Bounded.resolveFrom h hname
  ⟨hbounded, grown_resolveFrom hname, hwithin⟩

/-! ### Functions -/

theorem Bounded.enter {scopes : Scopes} (h : scopes.Bounded) (name : Option String)
    (parameters : List String) : (Assembly.enter name parameters scopes).Bounded := by
  have hparameters : ∀ (names : List String) (inner : Scopes), inner.Bounded →
      (names.foldl (fun scopes name ↦ (scopes.define name).2) inner).Bounded := by
    intro names
    induction names with
    | nil => exact fun _ hinner ↦ hinner
    | cons first rest ih => exact fun inner hinner ↦ ih _ (hinner.define first).1
  refine hparameters parameters _ ?_
  have henclose : scopes.enclose.Bounded := ⟨by simp [enclose], by simp [enclose], h⟩
  cases name with
  | none => exact henclose
  | some name =>
    refine Scope.Bounded.bind ⟨name, .function, 0⟩ henclose rfl ⟨Nat.le_refl _,
      List.prefix_rfl⟩ rfl ?_
    rintro _ _ ⟨⟩ captured hcaptured
    cases hcaptured

@[simp] theorem outer_define (scopes : Scopes) (name : String) :
    (scopes.define name).2.outer = scopes.outer := rfl

@[simp] theorem outer_enter (scopes : Scopes) (name : Option String) (parameters : List String) :
    (Assembly.enter name parameters scopes).outer = scopes.current :: scopes.outer := by
  have hparameters : ∀ (names : List String) (inner : Scopes),
      (names.foldl (fun scopes name ↦ (scopes.define name).2) inner).outer = inner.outer := by
    intro names
    induction names with
    | nil => exact fun _ ↦ rfl
    | cons first rest ih => exact fun inner ↦ (ih _).trans (outer_define inner first)
  unfold Assembly.enter
  rw [hparameters]
  cases name <;> rfl

/-- The scopes around a function only grow while it is at work. -/
theorem Grown.leave {scopes inner : Scopes} {name : Option String} {parameters : List String}
    (h : (Assembly.enter name parameters scopes).Grown inner) :
    inner.outer = (inner.leave?.getD {}).current :: (inner.leave?.getD {}).outer ∧
      scopes.Grown (inner.leave?.getD {}) := by
  have houter := h.outer
  rw [outer_enter] at houter
  obtain ⟨around, outer, haround, hrest, hinner⟩ := List.forall₂_cons_left_iff.mp houter
  simp only [leave?, hinner, Option.getD_some, true_and]
  exact ⟨haround, hrest⟩

/-- What is left of a chain behind a function. -/
theorem Bounded.leave {scopes inner : Scopes} (h : inner.Bounded) {name : Option String}
    {parameters : List String} (hgrown : (Assembly.enter name parameters scopes).Grown inner) :
    (inner.leave?.getD {}).Bounded ∧ scopes.Grown (inner.leave?.getD {}) ∧
      ∀ symbol ∈ inner.current.captured, symbol.Within (inner.leave?.getD {}).limits := by
  obtain ⟨hinner, houter⟩ := hgrown.leave
  rw [Bounded, hinner] at h
  exact ⟨h.2.2, houter, h.2.1⟩

end Scopes

end StackScript
