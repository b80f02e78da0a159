import Mathlib.Data.List.DropRight
import StackScript.Proofs.Scope.Limits

/-!
Lexical resolution and capture. A captured symbol stands for an entry of the captured values of its
scope, and that entry is a symbol of the scope around; followed outwards it leads to a variable.
Whatever was done to a chain of scopes before, a name resolves if and only if one of them binds it,
and then to a symbol that leads to the variable of the innermost binding (`resolve_leads`). The
symbols that were handed out keep their variables as long as their scope is not left (`leads_kept`).
-/

set_option autoImplicit false
set_option relaxedAutoImplicit false

namespace StackScript

/-- What a symbol stands for in the end: a symbol that is not captured, and how many scopes are
around the scope it belongs to. What is at hand everywhere belongs to the outermost scope. -/
structure Symbol.Origin where
  level : Nat
  symbol : Symbol
  deriving DecidableEq, Repr

/-- The variable of a symbol as it is known in the first of the scopes. -/
def Symbol.leads? (symbol : Symbol) : List Scope → Option Symbol.Origin
  | [] => none
  | scope :: outer =>
    match symbol.place with
    | .free =>
      match scope.captured[symbol.index]? with
      | some outside => outside.leads? outer
      | none => none
    | .global | .builtin => some ⟨0, symbol⟩
    | .localSlot | .function => some ⟨outer.length, symbol⟩

namespace Scopes

/-- The current scope and those around it. -/
def tables (scopes : Scopes) : List Scope :=
  scopes.current :: scopes.outer

/-- What can be done to a chain of scopes. -/
inductive Operation where
  | define (name : String)
  | defineBuiltin (index : Nat) (name : String)
  | defineFunction (name : String)
  | resolve (name : String)
  | enclose
  | leave
  deriving DecidableEq, Repr

/-- The chain after an operation. A name that does not resolve leaves it unchanged, and the
outermost scope cannot be left. -/
def apply (scopes : Scopes) : Operation → Scopes
  | .define name => (scopes.define name).2
  | .defineBuiltin index name => (scopes.defineBuiltin index name).2
  | .defineFunction name => (scopes.defineFunction name).2
  | .resolve name =>
    match scopes.resolve name with
    | some (_, after) => after
    | none => scopes
  | .enclose => scopes.enclose
  | .leave =>
    match scopes.leave? with
    | some around => around
    | none => scopes

def applyAll (scopes : Scopes) (operations : List Operation) : Scopes :=
  operations.foldl apply scopes

/-- The operations never leave the outermost `level` scopes. -/
def Stays (level : Nat) (scopes : Scopes) : List Operation → Prop
  | [] => level ≤ scopes.tables.length
  | operation :: rest => level ≤ scopes.tables.length ∧ Stays level (scopes.apply operation) rest

end Scopes

/-! ### Following a symbol -/

theorem Symbol.leads?_of_shared {symbol : Symbol} (h : symbol.isShared) (scope : Scope)
    (outer : List Scope) : symbol.leads? (scope :: outer) = some ⟨0, symbol⟩ := by
  simp only [isShared, Bool.or_eq_true, decide_eq_true_eq] at h
  rcases h with hplace | hplace <;> simp [leads?, hplace]

theorem Symbol.leads?_capture (current : Scope) (outside : Symbol) (outer : List Scope) :
    (current.capture outside).1.leads? ((current.capture outside).2 :: outer) =
      outside.leads? outer := by
  simp [leads?, Scope.capture, Scope.bind]

/-- A chain of symbols that were captured ends at a symbol that was not. -/
theorem Symbol.place_of_leads? {symbol : Symbol} {chain : List Scope} {target : Symbol.Origin}
    (h : symbol.leads? chain = some target) : target.symbol.place ≠ .free := by
  induction chain generalizing symbol with
  | nil => simp [leads?] at h
  | cons scope outer ih =>
    cases hplace : symbol.place with
    | free =>
      simp only [leads?, hplace] at h
      split at h
      · exact ih h
      · cases h
    | _ =>
      simp only [leads?, hplace, Option.some.injEq] at h
      rw [← h]
      simp [hplace]

/-- New slots and captures do not change where a symbol leads. -/
theorem Symbol.leads?_grown {before after : List Scope}
    (hgrown : List.Forall₂ Scope.Grown before after) {symbol : Symbol} {target : Symbol.Origin}
    (h : symbol.leads? before = some target) : symbol.leads? after = some target := by
  induction hgrown generalizing symbol with
  | nil => exact h
  | @cons scope grown outer around hscope houter ih =>
    cases hplace : symbol.place with
    | free =>
      simp only [leads?, hplace] at h ⊢
      split at h
      · next outside houtside =>
        obtain ⟨more, hmore⟩ := hscope.captured
        have hindex := (List.getElem?_eq_some_iff.mp houtside).1
        rw [← hmore, List.getElem?_append_left hindex, houtside]
        exact ih h
      · cases h
    | _ =>
      simp only [leads?, hplace] at h ⊢
      first | exact h | exact houter.length_eq ▸ h

/-! ### Chains in which every name leads to a variable -/

/-- Every bound symbol leads to a variable of its name, in all scopes of the chain. -/
def Scope.Founded : List Scope → Prop
  | [] => True
  | scope :: outer =>
    (∀ symbol ∈ scope.bindings, ∃ target,
      symbol.leads? (scope :: outer) = some target ∧ target.symbol.name = symbol.name) ∧
    Scope.Founded outer

namespace Scope

/-- What is bound in a chain leads on to the same variables when the chain grows, and so does what
is bound in addition. -/
theorem Founded.grown {scope grown : Scope} {outer around : List Scope}
    (h : Founded (scope :: outer)) (hscope : scope.Grown grown)
    (houter : List.Forall₂ Grown outer around) (haround : Founded around)
    (hnew : ∀ symbol ∈ grown.bindings, symbol ∈ scope.bindings ∨ ∃ target,
      symbol.leads? (grown :: around) = some target ∧ target.symbol.name = symbol.name) :
    Founded (grown :: around) := by
  refine ⟨fun symbol hsymbol ↦ ?_, haround⟩
  rcases hnew symbol hsymbol with hold | hfound
  · obtain ⟨target, htarget, hname⟩ := h.1 symbol hold
    exact ⟨target, Symbol.leads?_grown (.cons hscope houter) htarget, hname⟩
  · exact hfound

/-- A new symbol that is not captured is a variable itself. -/
theorem Founded.bind {scope grown : Scope} {outer : List Scope} (symbol : Symbol)
    (h : Founded (scope :: outer)) (hscope : scope.Grown grown)
    (hbindings : grown.bindings = (scope.bind symbol).bindings) (hplace : symbol.place ≠ .free) :
    Founded (grown :: outer) := by
  refine h.grown hscope (List.forall₂_same.mpr fun other _ ↦ Grown.refl other) h.2 ?_
  intro other hother
  rw [hbindings] at hother
  rcases mem_bindings_bind hother with rfl | hold
  · right
    cases hcases : other.place with
    | free => exact absurd hcases hplace
    | _ => simp [Symbol.leads?, hcases]
  · exact .inl hold

/-- What the name of a scope of the chain leads to. -/
theorem Founded.leads {chain inner outer : List Scope} {scope : Scope} {name : String}
    {bound : Symbol} (h : Founded chain) (hchain : chain = inner ++ scope :: outer)
    (hbound : scope.find? name = some bound) :
    ∃ target, bound.leads? (scope :: outer) = some target ∧ target.symbol.name = name := by
  subst hchain
  induction inner with
  | nil =>
    obtain ⟨target, htarget, htitle⟩ := h.1 bound (mem_of_find? hbound)
    exact ⟨target, htarget, htitle.trans (name_of_find? hbound)⟩
  | cons first inner ih => exact ih h.2

end Scope

/-! ### Looking up -/

namespace Scopes

open Scope (Founded)

theorem resolveFrom_eq_none_iff {name : String} {current : Scope} {outer : List Scope} :
    resolveFrom name current outer = none ↔
      ∀ scope ∈ current :: outer, scope.find? name = none := by
  induction outer generalizing current with
  | nil => cases hfind : current.find? name <;> simp [resolveFrom, hfind]
  | cons around outer ih =>
    cases hfind : current.find? name with
    | some symbol => simp [resolveFrom, hfind]
    | none =>
      rw [List.forall_mem_cons, ← ih]
      cases hfurther : resolveFrom name around outer with
      | none => simp [resolveFrom, hfind, hfurther]
      | some found =>
        simp only [resolveFrom, hfind, hfurther, true_and, reduceCtorEq, iff_false]
        split <;> simp

/-- A name that is bound somewhere has an innermost binding. -/
theorem exists_innermost {name : String} {chain : List Scope}
    (h : ¬∀ scope ∈ chain, scope.find? name = none) :
    ∃ (inner outer : List Scope) (scope : Scope) (bound : Symbol),
      chain = inner ++ scope :: outer ∧ (∀ other ∈ inner, other.find? name = none) ∧
      scope.find? name = some bound := by
  induction chain with
  | nil => simp at h
  | cons first rest ih =>
    cases hfind : first.find? name with
    | some bound => exact ⟨[], rest, first, bound, rfl, by simp, hfind⟩
    | none =>
      obtain ⟨inner, outer, scope, bound, hchain, hinner, hbound⟩ :=
        ih fun hrest ↦ h (List.forall_mem_cons.mpr ⟨hfind, hrest⟩)
      exact ⟨first :: inner, outer, scope, bound, by rw [hchain, List.cons_append],
        List.forall_mem_cons.mpr ⟨hfind, hinner⟩, hbound⟩

/-- What a look-up gives for a name that stands for `bound` in its innermost binding, where it leads
to `target`. -/
structure Found (name : String) (before : List Scope) (bound : Symbol) (target : Symbol.Origin)
    (symbol : Symbol) (after : Scopes) : Prop where
  founded : Founded after.tables
  named : symbol.name = name
  leads : symbol.leads? after.tables = some target
  shared : symbol.isShared = bound.isShared
  again : resolveFrom name after.current after.outer = some (symbol, after)
  unchanged : bound.isShared → symbol = bound ∧ after.tables = before

/-- The induction is on the scopes inside the one that binds the name: each captures what the scope
around it found. -/
theorem found_resolveFrom {name : String} {inner outer around : List Scope} {scope current : Scope}
    {bound : Symbol} {target : Symbol.Origin} (h : Founded (current :: around))
    (hchain : current :: around = inner ++ scope :: outer)
    (hinner : ∀ other ∈ inner, other.find? name = none) (hbound : scope.find? name = some bound)
    (htarget : bound.leads? (scope :: outer) = some target) (hname : target.symbol.name = name) :
    ∃ symbol after, resolveFrom name current around = some (symbol, after) ∧
      Found name (current :: around) bound target symbol after := by
  induction inner generalizing current around with
  | nil =>
    obtain ⟨rfl, rfl⟩ := List.cons.inj hchain
    have hfind : resolveFrom name current around = some (bound, ⟨current, around⟩) := by
      cases around <;> simp [resolveFrom, hbound]
    exact ⟨bound, ⟨current, around⟩, hfind, h, Scope.name_of_find? hbound, htarget, rfl, hfind,
      fun _ ↦ ⟨rfl, rfl⟩⟩
  | cons first inner ih =>
    obtain ⟨rfl, hrest⟩ := List.cons.inj hchain
    obtain ⟨hfirst, hothers⟩ := List.forall_mem_cons.mp hinner
    cases around with
    | nil => simp at hrest
    | cons next around =>
      obtain ⟨outside, further, hfurther, hfound⟩ := ih h.2 hrest hothers
      have hgrown := grown_resolveFrom hfurther
      have houter : List.Forall₂ Scope.Grown (next :: around) further.tables :=
        .cons hgrown.current hgrown.outer
      cases hshared : outside.isShared with
      | true =>
        obtain ⟨rfl, hsame⟩ := hfound.unchanged (hfound.shared ▸ hshared)
        have hfind : resolveFrom name current (next :: around) =
            some (outside, ⟨current, next :: around⟩) := by
          simpa [resolveFrom, hfirst, hfurther, hshared, tables] using hsame
        refine ⟨outside, ⟨current, next :: around⟩, hfind, h, hfound.named, ?_, rfl, hfind,
          fun _ ↦ ⟨rfl, rfl⟩⟩
        rw [← hfound.leads, tables, Symbol.leads?_of_shared hshared, hsame,
          Symbol.leads?_of_shared hshared]
      | false =>
        have hleads := (Symbol.leads?_capture current outside further.tables).trans hfound.leads
        refine ⟨(current.capture outside).1, ⟨(current.capture outside).2, further.tables⟩, ?_, ?_,
          hfound.named, hleads, ?_, ?_, ?_⟩
        · simp [resolveFrom, hfirst, hfurther, hshared, tables]
        · have hcapture : current.Grown (current.capture outside).2 :=
            ⟨Nat.le_refl _, List.prefix_append _ _⟩
          refine h.grown hcapture houter hfound.founded fun symbol hsymbol ↦ ?_
          rcases Scope.mem_bindings_bind hsymbol with rfl | hold
          · exact .inr ⟨target, hleads, hname.trans hfound.named.symm⟩
          · exact .inl hold
        · rw [← hfound.shared, hshared]
          rfl
        · have hfind : (current.capture outside).2.find? name = some (current.capture outside).1 :=
            (Scope.find?_bind current _ name).trans (if_pos hfound.named.symm)
          simp [resolveFrom, tables, hfind]
        · intro hbad
          rw [← hfound.shared, hshared] at hbad
          cases hbad

end Scopes

/-! ### Operations -/

namespace Scopes

open Scope (Founded)

theorem tables_inj {first second : Scopes} (h : first.tables = second.tables) : first = second := by
  obtain ⟨current, outer⟩ := first
  obtain ⟨rfl, rfl⟩ := List.cons.inj h
  rfl

theorem tables_of_leave? {scopes around : Scopes} (h : scopes.leave? = some around) :
    scopes.tables = scopes.current :: around.tables := by
  obtain ⟨current, outer⟩ := scopes
  cases outer with
  | nil => cases h
  | cons next outer =>
    cases h
    rfl

/-- All names of the chain after an operation lead to variables if they did before. -/
theorem founded_apply {scopes : Scopes} (h : Founded scopes.tables) (operation : Operation) :
    Founded (scopes.apply operation).tables := by
  cases operation with
  | define name =>
    refine Founded.bind (scopes.define name).1 h (define_grown scopes name).current rfl ?_
    simp only [Scopes.define, Scope.define]
    split <;> simp
  | defineBuiltin index name =>
    exact Founded.bind ⟨name, .builtin, index⟩ h ⟨Nat.le_refl _, List.prefix_rfl⟩ rfl
      (by simp)
  | defineFunction name =>
    exact Founded.bind ⟨name, .function, 0⟩ h ⟨Nat.le_refl _, List.prefix_rfl⟩ rfl
      (by simp)
  | resolve name =>
    simp only [apply]
    split
    · next symbol after hname =>
      have hbinds : ¬∀ scope ∈ scopes.tables, scope.find? name = none := by
        rw [tables, ← resolveFrom_eq_none_iff]
        exact fun hnone ↦ by simp [resolve, hnone] at hname
      obtain ⟨inner, outer, scope, bound, hchain, hinner, hbound⟩ := exists_innermost hbinds
      obtain ⟨target, htarget, htitle⟩ := h.leads hchain hbound
      obtain ⟨other, found, hother, hfound⟩ :=
        found_resolveFrom h hchain hinner hbound htarget htitle
      cases hname.symm.trans hother
      exact hfound.founded
    · exact h
  | enclose => exact ⟨fun _ hsymbol ↦ (List.not_mem_nil hsymbol).elim, h⟩
  | leave =>
    simp only [apply]
    split
    · next around hleave =>
      rw [tables_of_leave? hleave] at h
      exact h.2
    · exact h

theorem founded_applyAll (operations : List Operation) {scopes : Scopes}
    (h : Founded scopes.tables) : Founded (scopes.applyAll operations).tables := by
  induction operations generalizing scopes with
  | nil => exact h
  | cons operation rest ih => exact ih (founded_apply h operation)

/-- An operation adds to the scopes of a chain, opens a scope in front of them or takes the first
of them away. -/
theorem tables_apply (scopes : Scopes) (operation : Operation) :
    List.Forall₂ Scope.Grown scopes.tables (scopes.apply operation).tables ∨
      (scopes.apply operation).tables = {} :: scopes.tables ∨
      scopes.tables = scopes.current :: (scopes.apply operation).tables := by
  have hsame : List.Forall₂ Scope.Grown scopes.tables scopes.tables :=
    List.forall₂_same.mpr fun scope _ ↦ Scope.Grown.refl scope
  have hbind : ∀ symbol : Symbol, List.Forall₂ Scope.Grown scopes.tables
      (scopes.current.bind symbol :: scopes.outer) := fun symbol ↦
    .cons ⟨Nat.le_refl _, List.prefix_rfl⟩ (Grown.refl scopes).outer
  cases operation with
  | define name =>
    have hgrown := define_grown scopes name
    exact .inl (.cons hgrown.current hgrown.outer)
  | defineBuiltin index name => exact .inl (hbind ⟨name, .builtin, index⟩)
  | defineFunction name => exact .inl (hbind ⟨name, .function, 0⟩)
  | resolve name =>
    simp only [apply]
    split
    · next symbol after hname =>
      have hgrown := grown_resolveFrom hname
      exact .inl (.cons hgrown.current hgrown.outer)
    · exact .inl hsame
  | enclose => exact .inr (.inl rfl)
  | leave =>
    simp only [apply]
    split
    · next around hleave => exact .inr (.inr (tables_of_leave? hleave))
    · exact .inl hsame

/-- What an operation does to the outermost scopes if it does not leave them. -/
theorem grown_rtake_apply {scopes : Scopes} {operation : Operation} {level : Nat}
    (hbefore : level ≤ scopes.tables.length)
    (hafter : level ≤ (scopes.apply operation).tables.length) :
    List.Forall₂ Scope.Grown (scopes.tables.rtake level)
      ((scopes.apply operation).tables.rtake level) := by
  have hsame : ∀ chain : List Scope, List.Forall₂ Scope.Grown chain chain := fun chain ↦
    List.forall₂_same.mpr fun scope _ ↦ Scope.Grown.refl scope
  have hcons : ∀ (scope : Scope) (chain : List Scope), level ≤ chain.length →
      (scope :: chain).rtake level = chain.rtake level := by
    intro scope chain hlevel
    rw [List.rtake, List.rtake, List.length_cons, Nat.succ_sub hlevel, List.drop_succ_cons]
  rcases tables_apply scopes operation with hgrown | hopened | hleft
  · rw [List.rtake, List.rtake, ← hgrown.length_eq]
    exact List.forall₂_drop _ hgrown
  · rw [hopened, hcons _ _ hbefore]
    exact hsame _
  · rw [hleft, hcons _ _ hafter]
    exact hsame _

/-- A symbol leads to the same variable after all operations that do not leave its scope. -/
theorem leads_kept {scopes : Scopes} {later : List Operation} {level : Nat} {symbol : Symbol}
    {target : Symbol.Origin} (hstays : Stays level scopes later)
    (h : symbol.leads? (scopes.tables.rtake level) = some target) :
    symbol.leads? ((scopes.applyAll later).tables.rtake level) = some target := by
  induction later generalizing scopes with
  | nil => exact h
  | cons operation rest ih =>
    have hnext : level ≤ (scopes.apply operation).tables.length := by
      have hrest := hstays.2
      cases rest with
      | nil => exact hrest
      | cons second others => exact hrest.1
    exact ih hstays.2 (Symbol.leads?_grown (grown_rtake_apply hstays.1 hnext) h)

/-- Spec §4.1, resolution is lexical. For any operations on a chain of scopes: a name resolves if
and only if a scope of the chain binds it, and one that does not resolve changes nothing. Else it
resolves to the variable of its innermost binding: one that is shared is found as it is, and any
other is led to, through the captures, from then on and for good, whatever is done inside of the
scope later. -/
theorem resolve_leads (operations : List Operation) (name : String) :
    let scopes := ({} : Scopes).applyAll operations
    (scopes.resolve name = none ↔ ∀ scope ∈ scopes.tables, scope.find? name = none) ∧
    (scopes.resolve name = none → scopes.apply (.resolve name) = scopes) ∧
    ∀ (inner outer : List Scope) (scope : Scope) (bound : Symbol),
      scopes.tables = inner ++ scope :: outer → (∀ other ∈ inner, other.find? name = none) →
      scope.find? name = some bound →
      ∃ symbol after target, scopes.resolve name = some (symbol, after) ∧
        after.resolve name = some (symbol, after) ∧
        (bound.isShared → symbol = bound ∧ after = scopes) ∧
        target.symbol.place ≠ .free ∧ target.symbol.name = name ∧
        bound.leads? (scope :: outer) = some target ∧
        symbol.leads? after.tables = some target ∧
        ∀ later, after.Stays after.tables.length later →
          symbol.leads? ((after.applyAll later).tables.rtake after.tables.length) = some target := by
  intro scopes
  refine ⟨resolveFrom_eq_none_iff, fun hnone ↦ by simp [apply, hnone], ?_⟩
  intro inner outer scope bound hchain hinner hbound
  have hfounded : Founded scopes.tables :=
    founded_applyAll operations ⟨fun _ hsymbol ↦ (List.not_mem_nil hsymbol).elim, trivial⟩
  obtain ⟨target, htarget, htitle⟩ := hfounded.leads hchain hbound
  obtain ⟨symbol, after, hname, hfound⟩ :=
    found_resolveFrom hfounded hchain hinner hbound htarget htitle
  refine ⟨symbol, after, target, hname, hfound.again, ?_, Symbol.place_of_leads? htarget, htitle,
    htarget, hfound.leads, ?_⟩
  · intro hshared
    obtain ⟨hsymbol, hsame⟩ := hfound.unchanged hshared
    exact ⟨hsymbol, tables_inj hsame⟩
  · intro later hstays
    refine leads_kept hstays ?_
    rw [List.rtake, Nat.sub_self, List.drop_zero]
    exact hfound.leads

/-- Two functions deep, a local variable of the outer one is captured by both of them. -/
example :
    let scopes := ({} : Scopes).applyAll
      [.define "a", .enclose, .define "a", .enclose, .enclose, .resolve "a"]
    scopes.resolve "a" = some (⟨"a", .free, 0⟩, scopes) ∧
      Symbol.leads? ⟨"a", .free, 0⟩ scopes.tables = some ⟨1, ⟨"a", .localSlot, 0⟩⟩ := by
  exact ⟨rfl, rfl⟩

end Scopes

end StackScript
