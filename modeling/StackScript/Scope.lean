/-!
Which variable a name stands for. Each function has a scope inside the scope around it; a variable
of a function further out is captured in every function in between, so that each can pass it on.
-/

set_option autoImplicit false
set_option relaxedAutoImplicit false

namespace StackScript

/-- Where the value of a name is found. -/
inductive Symbol.Place where
  | global
  | localSlot
  | builtin
  /-- Among the values that a function took from around it. -/
  | free
  /-- The function that is running. -/
  | function
  deriving DecidableEq, Repr, Inhabited

/-- A name with the place of its value. -/
structure Symbol where
  name : String
  place : Symbol.Place
  index : Nat
  deriving DecidableEq, Repr, Inhabited

/-- Globals and provided functions are at hand everywhere; all else must be captured. -/
def Symbol.isShared (symbol : Symbol) : Bool :=
  symbol.place = .global || symbol.place = .builtin

/-- The names of one function, or of the program around all functions. -/
structure Scope where
  bindings : List Symbol := []
  /-- How many slots have been given out. -/
  definitions : Nat := 0
  /-- What is captured from the scope around this one, in order of first use, as it is known
  there. -/
  captured : List Symbol := []
  deriving Repr, Inhabited

namespace Scope

def find? (scope : Scope) (name : String) : Option Symbol :=
  scope.bindings.find? fun symbol ↦ symbol.name = name

/-- Binds a symbol under its name, which then means nothing else. -/
def bind (scope : Scope) (symbol : Symbol) : Scope :=
  { scope with
    bindings := symbol :: scope.bindings.filter fun other ↦ other.name ≠ symbol.name }

/-- Gives the name a new slot. -/
def define (scope : Scope) (name : String) (place : Symbol.Place) : Symbol × Scope :=
  let symbol : Symbol := ⟨name, place, scope.definitions⟩
  (symbol, { scope.bind symbol with definitions := scope.definitions + 1 })

/-- Captures what is known further out as `outside`. -/
def capture (scope : Scope) (outside : Symbol) : Symbol × Scope :=
  let symbol : Symbol := ⟨outside.name, .free, scope.captured.length⟩
  (symbol, { scope.bind symbol with captured := scope.captured ++ [outside] })

theorem name_of_find? {scope : Scope} {name : String} {symbol : Symbol}
    (h : scope.find? name = some symbol) : symbol.name = name := by
  simpa using List.find?_some h

theorem find?_bind (scope : Scope) (symbol : Symbol) (name : String) :
    (scope.bind symbol).find? name =
      if name = symbol.name then some symbol else scope.find? name := by
  by_cases same : name = symbol.name
  · simp [find?, bind, same]
  · simp only [find?, bind, List.find?_cons, List.find?_filter, same, if_false,
      decide_eq_false (Ne.symm same)]
    congr 1
    funext other
    by_cases h : other.name = name <;> simp [h, same]

end Scope

/-- A scope with those around it, the nearest of them first. -/
structure Scopes where
  current : Scope := {}
  outer : List Scope := []
  deriving Repr, Inhabited

namespace Scopes

/-- How many scopes are around the current one. -/
def depth (scopes : Scopes) : Nat :=
  scopes.outer.length

/-- Binds a name to a new slot: a global outside of all functions, a local one inside. -/
def define (scopes : Scopes) (name : String) : Symbol × Scopes :=
  let place := if scopes.outer.isEmpty then .global else .localSlot
  let (symbol, current) := scopes.current.define name place
  (symbol, { scopes with current := current })

def defineBuiltin (scopes : Scopes) (index : Nat) (name : String) : Symbol × Scopes :=
  let symbol : Symbol := ⟨name, .builtin, index⟩
  (symbol, { scopes with current := scopes.current.bind symbol })

/-- Binds the name by which a function can call itself. -/
def defineFunction (scopes : Scopes) (name : String) : Symbol × Scopes :=
  let symbol : Symbol := ⟨name, .function, 0⟩
  (symbol, { scopes with current := scopes.current.bind symbol })

/-- Looks a name up from `current` outwards, capturing what is found further out. -/
def resolveFrom (name : String) (current : Scope) : List Scope → Option (Symbol × Scopes)
  | [] =>
    match current.find? name with
    | some symbol => some (symbol, ⟨current, []⟩)
    | none => none
  | around :: outer =>
    match current.find? name with
    | some symbol => some (symbol, ⟨current, around :: outer⟩)
    | none =>
      match resolveFrom name around outer with
      | none => none
      | some (symbol, scopes) =>
        if symbol.isShared then some (symbol, ⟨current, scopes.current :: scopes.outer⟩)
        else
          let (inner, current) := current.capture symbol
          some (inner, ⟨current, scopes.current :: scopes.outer⟩)

/-- What a name stands for, and the scopes with what had to be captured for it. -/
def resolve (scopes : Scopes) (name : String) : Option (Symbol × Scopes) :=
  resolveFrom name scopes.current scopes.outer

/-- Opens a scope inside the current one. -/
def enclose (scopes : Scopes) : Scopes :=
  ⟨{}, scopes.current :: scopes.outer⟩

/-- The scopes around the current one, if there are any. -/
def leave? (scopes : Scopes) : Option Scopes :=
  match scopes.outer with
  | [] => none
  | around :: outer => some ⟨around, outer⟩

@[simp] theorem leave?_enclose (scopes : Scopes) : scopes.enclose.leave? = some scopes := rfl

end Scopes

end StackScript
