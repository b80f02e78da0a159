import StackScript.Proofs.Scope.Limits
import StackScript.Proofs.Value.Renumbering

/-!
Names under other numbers. Two chains of scopes agree on some names if these stand for the same in
both, but for the slots of globals. Around all functions the chains may differ in other names; the
scopes of functions hold the same, since they hold no more than what was looked up. Looking up a
name on which the chains agree yields the same in both, and whatever is captured on the way is
captured in both (`Scopes.Renumbered.resolve`). Inside a function the chains agree on all that it
binds, whether they agree on it further out or not.
-/

set_option autoImplicit false
set_option relaxedAutoImplicit false

namespace StackScript

variable {gaps : Gaps}

/-! ### Symbols and scopes -/

/-- The same symbol, a global in its other slot. -/
def Symbol.renumber (gaps : Gaps) (symbol : Symbol) : Symbol :=
  { symbol with
    index := if symbol.place = .global then gaps.slots.skip symbol.index else symbol.index }

namespace Scope

/-- The same scope with globals in their other slots. -/
def renumber (gaps : Gaps) (scope : Scope) : Scope :=
  { scope with
    bindings := scope.bindings.map (.renumber gaps)
    captured := scope.captured.map (.renumber gaps) }

theorem find?_renumber (scope : Scope) (name : String) :
    (scope.renumber gaps).find? name = (scope.find? name).map (.renumber gaps) := by
  simp only [find?, renumber, List.find?_map]
  rfl

theorem bind_renumber (scope : Scope) (symbol : Symbol) :
    (scope.renumber gaps).bind (symbol.renumber gaps) = (scope.bind symbol).renumber gaps := by
  simp only [bind, renumber, List.map_cons, List.filter_map]
  rfl

theorem isSome_find?_bind {scope : Scope} {symbol : Symbol} {name : String}
    (h : name = symbol.name ∨ (scope.find? name).isSome) :
    ((scope.bind symbol).find? name).isSome := by
  rw [find?_bind]
  split
  · rfl
  · next hother => exact h.resolve_left hother

/-- Around all functions, the names that the scopes agree on stand for the same, and new globals get
slots beyond those that were used up. -/
structure Renumbered (gaps : Gaps) (agreed : String → Prop) (scope other : Scope) : Prop where
  find (name : String) : agreed name →
    other.find? name = (scope.find? name).map (.renumber gaps)
  first : gaps.slots.first ≤ scope.definitions
  definitions : other.definitions = scope.definitions + gaps.slots.count

theorem Renumbered.bind {agreed : String → Prop} {scope other : Scope}
    (h : scope.Renumbered gaps agreed other) (symbol : Symbol) :
    (scope.bind symbol).Renumbered gaps (fun name ↦ name = symbol.name ∨ agreed name)
      (other.bind (symbol.renumber gaps)) := by
  refine ⟨fun name hname ↦ ?_, h.first, h.definitions⟩
  have hsame : (symbol.renumber gaps).name = symbol.name := rfl
  rw [find?_bind, find?_bind, hsame]
  split
  · rfl
  · next hother => exact h.find name (hname.resolve_left hother)

/-- A new global gets a slot beyond those that were used up. -/
theorem Renumbered.define {agreed : String → Prop} {scope other : Scope}
    (h : scope.Renumbered gaps agreed other) (name : String) :
    (other.define name .global).1 = (scope.define name .global).1.renumber gaps ∧
      (scope.define name .global).2.Renumbered gaps (fun title ↦ title = name ∨ agreed title)
        (other.define name .global).2 := by
  have hsymbol : (⟨name, .global, other.definitions⟩ : Symbol) =
      Symbol.renumber gaps ⟨name, .global, scope.definitions⟩ := by
    rw [h.definitions, ← Gap.skip_of_le h.first]
    rfl
  have hbind := h.bind ⟨name, .global, scope.definitions⟩
  rw [← hsymbol] at hbind
  refine ⟨hsymbol, hbind.find, Nat.le_succ_of_le h.first, ?_⟩
  exact (congrArg (· + 1) h.definitions).trans (Nat.add_right_comm _ _ _)

/-- A local gets the same slot. -/
theorem define_renumber (scope : Scope) (name : String) :
    (scope.renumber gaps).define name .localSlot =
      ((scope.define name .localSlot).1, (scope.define name .localSlot).2.renumber gaps) :=
  Prod.ext rfl (congrArg (fun bound : Scope ↦ { bound with definitions := scope.definitions + 1 })
    (bind_renumber scope ⟨name, .localSlot, scope.definitions⟩))

/-- Whatever is captured, it gets the same place. -/
theorem capture_renumber (scope : Scope) (outside : Symbol) :
    (scope.renumber gaps).capture (outside.renumber gaps) =
      ((scope.capture outside).1, (scope.capture outside).2.renumber gaps) := by
  have hplace : (scope.renumber gaps).captured.length = scope.captured.length :=
    List.length_map _
  have hbind : (scope.renumber gaps).bind _ = _ :=
    scope.bind_renumber ⟨outside.name, .free, scope.captured.length⟩
  simp only [capture, hplace]
  refine Prod.ext rfl ?_
  have hcaptured : (scope.renumber gaps).captured ++ [outside.renumber gaps] =
      (scope.captured ++ [outside]).map (.renumber gaps) := by simp [renumber]
  rw [hcaptured]
  exact congrArg (fun bound : Scope ↦
    { bound with captured := (scope.captured ++ [outside]).map (.renumber gaps) }) hbind

end Scope

/-! ### Chains -/

namespace Scopes

/-- The chains hold the same, globals in their other slots. For each scope, the nearest first, it is
said on which names the chains agree from there on outwards: those that are bound there, and others
that they agree on in the scope around. -/
inductive Renumbered (gaps : Gaps) : List (String → Prop) → Scopes → Scopes → Prop
  | outermost {agreed : String → Prop} {scope other : Scope}
    (h : scope.Renumbered gaps agreed other) : Renumbered gaps [agreed] ⟨scope, []⟩ ⟨other, []⟩
  | inside {agreed further : String → Prop} {more : List (String → Prop)} {around others : Scopes}
    (scope : Scope) (hbound : ∀ name, agreed name → (scope.find? name).isSome ∨ further name)
    (h : Renumbered gaps (further :: more) around others) :
    Renumbered gaps (agreed :: further :: more) ⟨scope, around.current :: around.outer⟩
      ⟨scope.renumber gaps, others.current :: others.outer⟩

/-- The names to agree on inside a function that binds its own name and its parameters. -/
def agreedInside (name : Option String) (parameters : List String) (agreed : String → Prop)
    (title : String) : Prop :=
  title ∈ parameters ∨ title ∈ name.toList ∨ agreed title

namespace Renumbered

variable {agreed further fewer : String → Prop} {more : List (String → Prop)}
  {scopes other : Scopes}

/-- Chains without functions. -/
theorem of_current (h : scopes.current.Renumbered gaps agreed other.current)
    (houter : scopes.outer = []) (hother : other.outer = []) :
    scopes.Renumbered gaps [agreed] other := by
  obtain ⟨current, outer⟩ := scopes
  obtain ⟨counterpart, others⟩ := other
  obtain rfl : outer = [] := houter
  obtain rfl : others = [] := hother
  exact .outermost h

theorem mono (h : scopes.Renumbered gaps (agreed :: more) other)
    (hfewer : ∀ name, fewer name → agreed name) : scopes.Renumbered gaps (fewer :: more) other := by
  cases h with
  | outermost h => exact .outermost ⟨fun name hname ↦ h.find name (hfewer name hname), h.first,
      h.definitions⟩
  | inside scope hbound h =>
    exact .inside scope (fun name hname ↦ hbound name (hfewer name hname)) h

/-- Binding a symbol, the chains agree on its name. -/
theorem bind (h : scopes.Renumbered gaps (agreed :: more) other) (symbol : Symbol) :
    Renumbered gaps ((fun name ↦ name = symbol.name ∨ agreed name) :: more)
      { scopes with current := scopes.current.bind symbol }
      { other with current := other.current.bind (symbol.renumber gaps) } := by
  cases h with
  | outermost h => exact .outermost (h.bind symbol)
  | inside scope hbound h =>
    dsimp only
    rw [Scope.bind_renumber]
    refine .inside _ (fun name hname ↦ ?_) h
    rcases hname with hnew | hname
    · exact .inl (Scope.isSome_find?_bind (.inl hnew))
    · exact (hbound name hname).imp_left fun hfound ↦ Scope.isSome_find?_bind (.inr hfound)

theorem define (h : scopes.Renumbered gaps (agreed :: more) other) (name : String) :
    (other.define name).1 = (scopes.define name).1.renumber gaps ∧
      (scopes.define name).2.Renumbered gaps ((fun title ↦ title = name ∨ agreed title) :: more)
        (other.define name).2 := by
  cases h with
  | outermost h =>
    obtain ⟨hsymbol, hscope⟩ := h.define name
    exact ⟨hsymbol, .outermost hscope⟩
  | inside scope hbound h =>
    have hdefine : (scope.renumber gaps).define name .localSlot = _ := scope.define_renumber name
    simp only [Scopes.define, List.isEmpty_cons, if_false, Bool.false_eq_true, hdefine]
    refine ⟨rfl, .inside _ (fun title htitle ↦ ?_) h⟩
    rcases htitle with hnew | htitle
    · exact .inl (Scope.isSome_find?_bind (.inl hnew))
    · exact (hbound title htitle).imp_left fun hfound ↦ Scope.isSome_find?_bind (.inr hfound)

/-- The chains in a function that has bound its own name and its parameters. -/
theorem enter (h : scopes.Renumbered gaps (agreed :: more) other) (name : Option String)
    (parameters : List String) :
    (Assembly.enter name parameters scopes).Renumbered gaps
      (agreedInside name parameters agreed :: agreed :: more)
      (Assembly.enter name parameters other) := by
  have hparameters : ∀ (parameters : List String) (agreed : String → Prop)
      (more : List (String → Prop)) (inner same : Scopes),
      inner.Renumbered gaps (agreed :: more) same →
      (parameters.foldl (fun scopes name ↦ (scopes.define name).2) inner).Renumbered gaps
        ((fun title ↦ title ∈ parameters ∨ agreed title) :: more)
        (parameters.foldl (fun scopes name ↦ (scopes.define name).2) same) := by
    intro parameters
    induction parameters with
    | nil => exact fun _ _ _ _ h ↦ h.mono fun _ htitle ↦ htitle.resolve_left List.not_mem_nil
    | cons first rest ih =>
      intro agreed more inner same h
      refine (ih _ _ _ _ (h.define first).2).mono fun title htitle ↦ ?_
      rw [List.mem_cons, or_assoc, or_left_comm] at htitle
      exact htitle
  have henclose : scopes.enclose.Renumbered gaps (agreed :: agreed :: more) other.enclose :=
    .inside {} (fun _ ↦ .inr) h
  cases name with
  | none =>
    refine (hparameters parameters _ _ _ _ henclose).mono fun title htitle ↦ ?_
    exact htitle.imp_right fun hrest ↦ hrest.resolve_left List.not_mem_nil
  | some name =>
    have hown := henclose.bind ⟨name, .function, 0⟩
    refine (hparameters parameters _ _ _ _ hown).mono fun title htitle ↦ ?_
    exact htitle.imp_right fun hrest ↦ hrest.imp_left List.mem_singleton.mp

/-- The chains around a function. -/
theorem leave {agreed : String → Prop}
    (h : scopes.Renumbered gaps (agreed :: further :: more) other) :
    other.current = scopes.current.renumber gaps ∧
      (scopes.leave?.getD {}).Renumbered gaps (further :: more) (other.leave?.getD {}) := by
  cases h with
  | inside scope hbound h => exact ⟨rfl, h⟩

/-- A name on which the chains agree stands for the same in both, and the same values are captured
on the way to it. -/
theorem resolve (h : scopes.Renumbered gaps (agreed :: more) other) {name : String}
    (hname : agreed name) :
    Option.Rel (fun found given ↦ given.1 = found.1.renumber gaps ∧
      found.2.Renumbered gaps (agreed :: more) given.2) (scopes.resolve name)
      (other.resolve name) := by
  generalize hall : agreed :: more = all at h
  induction h generalizing agreed more with
  | @outermost _ scope other h =>
    cases hall
    have hfind := h.find name hname
    simp only [Scopes.resolve, Scopes.resolveFrom]
    cases hfound : scope.find? name with
    | none =>
      rw [hfound] at hfind
      rw [hfind]
      exact .none
    | some symbol =>
      rw [hfound] at hfind
      rw [hfind]
      exact .some ⟨rfl, .outermost h⟩
  | inside scope hbound h ih =>
    cases hall
    simp only [Scopes.resolve, Scopes.resolveFrom, Scope.find?_renumber]
    cases hfound : scope.find? name with
    | some symbol => exact .some ⟨rfl, .inside scope hbound h⟩
    | none =>
      have hfurther := (hbound name hname).resolve_left (by simp [hfound])
      have hrest := ih hfurther rfl
      unfold Scopes.resolve at hrest
      generalize Scopes.resolveFrom name _ _ = found at hrest ⊢
      generalize Scopes.resolveFrom name _ _ = given at hrest ⊢
      cases hrest with
      | none => exact .none
      | @some found given hrest =>
        obtain ⟨symbol, scopes⟩ := found
        obtain ⟨_, others⟩ := given
        obtain ⟨rfl, hchain⟩ := hrest
        have hshared : (symbol.renumber gaps).isShared = symbol.isShared := rfl
        simp only [Option.map_none, hshared, Scope.capture_renumber]
        split
        · exact .some ⟨rfl, .inside scope hbound hchain⟩
        · refine .some ⟨rfl, .inside _ (fun title htitle ↦ ?_) hchain⟩
          exact (hbound title htitle).imp_left fun h ↦ Scope.isSome_find?_bind (.inr h)

end Renumbered

end Scopes

end StackScript
