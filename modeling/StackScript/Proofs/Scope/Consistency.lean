import StackScript.Proofs.Scope.Resolution

/-!
What holds of every scope of a chain, whatever was done to it. Each name has one symbol, which
refers to a slot or a captured value of its own scope, and no two names have the same one; what is
captured refers to something of the scope around that is not at hand everywhere
(`Scope.Consistent`). A name that was captured stays bound, so it is not captured a second time.
This carries the invariant through a look-up, which changes all scopes from the current one to the
one that binds the name (`Scope.AllConsistent.resolveFrom`).
-/

set_option autoImplicit false
set_option relaxedAutoImplicit false

namespace StackScript

/-- A symbol that is bound in a scope inside others refers to something in it. -/
def Symbol.Refers (scope : Scope) (outer : List Scope) (symbol : Symbol) : Prop :=
  match symbol.place with
  | .global => outer = [] ∧ symbol.index < scope.definitions
  | .localSlot => outer ≠ [] ∧ symbol.index < scope.definitions
  | .free => outer ≠ [] ∧ ∃ outside, scope.captured[symbol.index]? = some outside ∧
      outside.name = symbol.name
  | .builtin | .function => True

/-- A symbol that is captured from these scopes refers to something in the nearest of them. -/
def Symbol.Capturable (outer : List Scope) (symbol : Symbol) : Prop :=
  ∃ around rest, outer = around :: rest ∧
    (symbol.place = .localSlot ∧ symbol.index < around.definitions ∨
      symbol.place = .free ∧ symbol.index < around.captured.length ∨
      symbol.place = .function)

namespace Scope

/-- Globals, local slots and captured values are told apart by their indices. -/
def IsNumbered (place : Symbol.Place) : Prop :=
  place = .global ∨ place = .localSlot ∨ place = .free

/-- The symbols of a scope inside others. -/
structure Consistent (scope : Scope) (outer : List Scope) : Prop where
  named {name : String} {symbol : Symbol} : scope.find? name = some symbol → symbol.name = name
  once : (scope.bindings.map Symbol.name).Nodup
  refers : ∀ symbol ∈ scope.bindings, symbol.Refers scope outer
  apart : ∀ first ∈ scope.bindings, ∀ second ∈ scope.bindings, IsNumbered first.place →
    first.place = second.place → first.index = second.index → first.name = second.name
  capturedOnce : (scope.captured.map Symbol.name).Nodup
  capturable : ∀ symbol ∈ scope.captured, symbol.Capturable outer
  bound : ∀ symbol ∈ scope.captured, symbol.name ∈ scope.bindings.map Symbol.name

/-- Every scope of the chain is consistent. -/
def AllConsistent : List Scope → Prop
  | [] => True
  | scope :: outer => scope.Consistent outer ∧ AllConsistent outer

end Scope

/-! ### One scope -/

variable {scope larger : Scope} {outer after : List Scope} {symbol : Symbol}

theorem Symbol.Refers.grown (h : symbol.Refers scope outer) (hscope : scope.Grown larger)
    (houter : outer = [] ↔ after = []) : symbol.Refers larger after := by
  unfold Symbol.Refers at h ⊢
  cases hplace : symbol.place with
  | global =>
    rw [hplace] at h
    exact ⟨houter.mp h.1, Nat.lt_of_lt_of_le h.2 hscope.definitions⟩
  | localSlot =>
    rw [hplace] at h
    exact ⟨mt houter.mpr h.1, Nat.lt_of_lt_of_le h.2 hscope.definitions⟩
  | free =>
    rw [hplace] at h
    obtain ⟨hinner, outside, houtside, hname⟩ := h
    obtain ⟨more, hmore⟩ := hscope.captured
    refine ⟨mt houter.mpr hinner, outside, ?_, hname⟩
    rw [← hmore, List.getElem?_append_left (List.getElem?_eq_some_iff.mp houtside).1, houtside]
  | builtin | function => trivial

theorem Symbol.Capturable.grown (h : symbol.Capturable outer)
    (houter : List.Forall₂ Scope.Grown outer after) : symbol.Capturable after := by
  obtain ⟨around, rest, rfl, hplace⟩ := h
  obtain ⟨further, others, haround, -, rfl⟩ := List.forall₂_cons_left_iff.mp houter
  refine ⟨further, others, rfl, ?_⟩
  rcases hplace with ⟨hslot, hindex⟩ | ⟨hfree, hindex⟩ | hfunction
  · exact .inl ⟨hslot, Nat.lt_of_lt_of_le hindex haround.definitions⟩
  · exact .inr (.inl ⟨hfree, Nat.lt_of_lt_of_le hindex haround.captured.length_le⟩)
  · exact .inr (.inr hfunction)

/-- What a scope knows and does not share can be captured from it. -/
theorem Symbol.Refers.capturable (h : symbol.Refers scope outer)
    (hshared : symbol.isShared = false) : symbol.Capturable (scope :: outer) := by
  refine ⟨scope, outer, rfl, ?_⟩
  unfold Symbol.Refers at h
  cases hplace : symbol.place with
  | global | builtin => simp [isShared, hplace] at hshared
  | localSlot =>
    rw [hplace] at h
    exact .inl ⟨rfl, h.2⟩
  | free =>
    rw [hplace] at h
    obtain ⟨-, outside, houtside, -⟩ := h
    exact .inr (.inl ⟨rfl, (List.getElem?_eq_some_iff.mp houtside).1⟩)
  | function => exact .inr (.inr rfl)

namespace Scope

theorem find?_eq_none_iff {name : String} :
    scope.find? name = none ↔ name ∉ scope.bindings.map Symbol.name := by
  simp [find?]

theorem mem_names_bind {name : String} :
    name ∈ (scope.bind symbol).bindings.map Symbol.name ↔
      name = symbol.name ∨ name ∈ scope.bindings.map Symbol.name := by
  rw [← not_iff_not, ← find?_eq_none_iff, find?_bind, not_or, ← find?_eq_none_iff]
  by_cases hname : name = symbol.name <;> simp [hname]

theorem consistent_empty (outer : List Scope) : ({} : Scope).Consistent outer where
  named := name_of_find?
  once := .nil
  refers := List.forall_mem_nil _
  apart := List.forall_mem_nil _
  capturedOnce := .nil
  capturable := List.forall_mem_nil _
  bound := List.forall_mem_nil _

namespace Consistent

/-- The scopes around may grow. -/
theorem around (h : scope.Consistent outer) (houter : List.Forall₂ Grown outer after) :
    scope.Consistent after where
  named := h.named
  once := h.once
  refers other hother := by
    refine (h.refers other hother).grown (.refl scope) ?_
    rw [← List.length_eq_zero_iff, ← List.length_eq_zero_iff, houter.length_eq]
  apart := h.apart
  capturedOnce := h.capturedOnce
  capturable other hother := (h.capturable other hother).grown houter
  bound := h.bound

/-- A new symbol that refers to something in the scope, and not to what another name stands for. -/
theorem bind (h : scope.Consistent outer) (symbol : Symbol) (hscope : scope.Grown larger)
    (hbindings : larger.bindings = (scope.bind symbol).bindings)
    (hrefers : symbol.Refers larger outer)
    (hfresh : IsNumbered symbol.place → ∀ other ∈ scope.bindings,
      other.place = symbol.place → other.index ≠ symbol.index)
    (honce : (larger.captured.map Symbol.name).Nodup)
    (hcaptured : ∀ outside ∈ larger.captured, outside ∈ scope.captured ∨
      outside.Capturable outer ∧ outside.name = symbol.name) : larger.Consistent outer where
  named := name_of_find?
  once := by
    rw [hbindings]
    refine List.nodup_cons.mpr ⟨?_, h.once.sublist (List.filter_sublist.map _)⟩
    simp
  refers other hother := by
    rw [hbindings] at hother
    rcases mem_bindings_bind hother with rfl | hold
    · exact hrefers
    · exact (h.refers other hold).grown hscope Iff.rfl
  apart first hfirst second hsecond hnumbered hplace hindex := by
    rw [hbindings] at hfirst hsecond
    rcases mem_bindings_bind hfirst with rfl | hold
    · rcases mem_bindings_bind hsecond with rfl | hother
      · rfl
      · exact absurd hindex.symm (hfresh hnumbered second hother hplace.symm)
    · rcases mem_bindings_bind hsecond with rfl | hother
      · exact absurd hindex (hfresh (hplace ▸ hnumbered) first hold hplace)
      · exact h.apart first hold second hother hnumbered hplace hindex
  capturedOnce := honce
  capturable outside houtside :=
    (hcaptured outside houtside).elim (h.capturable outside) And.left
  bound outside houtside := by
    rw [hbindings, mem_names_bind]
    exact (hcaptured outside houtside).symm.imp And.right (h.bound outside)

/-- A new symbol in a scope that captures nothing for it, and gives it no slot. -/
theorem bind_unnumbered (h : scope.Consistent outer) (hplace : ¬IsNumbered symbol.place)
    (hrefers : symbol.Refers (scope.bind symbol) outer) : (scope.bind symbol).Consistent outer :=
  h.bind symbol ⟨Nat.le_refl _, List.prefix_rfl⟩ rfl hrefers
    (fun hnumbered ↦ absurd hnumbered hplace) h.capturedOnce fun _ ↦ .inl

/-- A new slot is behind all those there were. -/
theorem define (h : scope.Consistent outer) (name : String) {place : Symbol.Place}
    (hplace : place = .global ∧ outer = [] ∨ place = .localSlot ∧ outer ≠ []) :
    (scope.define name place).2.Consistent outer := by
  refine h.bind (scope.define name place).1 ⟨Nat.le_succ _, List.prefix_rfl⟩ rfl ?_ ?_
    h.capturedOnce fun _ ↦ .inl
  · rcases hplace with ⟨rfl, houter⟩ | ⟨rfl, houter⟩
    · exact ⟨houter, Nat.lt_succ_self _⟩
    · exact ⟨houter, Nat.lt_succ_self _⟩
  · intro _ other hother hsame
    have hrefers := h.refers other hother
    unfold Symbol.Refers at hrefers
    refine Nat.ne_of_lt ?_
    rcases hplace with ⟨rfl, -⟩ | ⟨rfl, -⟩
    · rw [hsame] at hrefers
      exact hrefers.2
    · rw [hsame] at hrefers
      exact hrefers.2

/-- A value that is captured under a name that the scope does not bind is behind all those that were
captured before. -/
theorem capture {outside : Symbol} (h : scope.Consistent outer) (hinner : outer ≠ [])
    (hfind : scope.find? outside.name = none) (houtside : outside.Capturable outer) :
    (scope.capture outside).2.Consistent outer := by
  have hnew : outside.name ∉ scope.captured.map Symbol.name := by
    intro hmem
    obtain ⟨other, hother, hname⟩ := List.mem_map.mp hmem
    exact find?_eq_none_iff.mp hfind (hname ▸ h.bound other hother)
  refine h.bind (scope.capture outside).1 ⟨Nat.le_refl _, List.prefix_append _ _⟩ rfl
    ?_ ?_ ?_ ?_
  · exact ⟨hinner, outside, List.getElem?_concat_length, rfl⟩
  · intro _ other hother hsame
    have hrefers := h.refers other hother
    unfold Symbol.Refers at hrefers
    rw [hsame] at hrefers
    obtain ⟨-, _, hindex, -⟩ := hrefers
    exact Nat.ne_of_lt (List.getElem?_eq_some_iff.mp hindex).1
  · rw [Scope.capture, List.map_append, List.map_singleton, List.nodup_append]
    refine ⟨h.capturedOnce, List.pairwise_singleton _ _, fun name hname other hother ↦ ?_⟩
    rw [List.mem_singleton.mp hother]
    exact fun hsame ↦ hnew (hsame ▸ hname)
  · intro other hother
    rcases List.mem_append.mp hother with hold | hlast
    · exact .inl hold
    · rw [List.mem_singleton.mp hlast]
      exact .inr ⟨houtside, rfl⟩

end Consistent

/-! ### Looking up -/

/-- The scopes stay consistent, and a symbol that is not shared is bound in the current one. -/
theorem AllConsistent.resolveFrom {name : String} {current : Scope} {scopes : Scopes}
    (h : AllConsistent (current :: outer))
    (hname : Scopes.resolveFrom name current outer = some (symbol, scopes)) :
    AllConsistent scopes.tables ∧ symbol.name = name ∧
      (symbol.isShared = false → symbol ∈ scopes.current.bindings) := by
  induction outer generalizing current symbol scopes with
  | nil =>
    simp only [Scopes.resolveFrom] at hname
    split at hname
    · next found hfound =>
      cases hname
      exact ⟨h, name_of_find? hfound, fun _ ↦ mem_of_find? hfound⟩
    · cases hname
  | cons around outer ih =>
    simp only [Scopes.resolveFrom] at hname
    split at hname
    · next found hfound =>
      cases hname
      exact ⟨h, name_of_find? hfound, fun _ ↦ mem_of_find? hfound⟩
    · next hfind =>
      split at hname
      · cases hname
      · next found further hfound =>
        obtain ⟨hconsistent, rfl, hbound⟩ := ih h.2 hfound
        have hgrown := Scopes.grown_resolveFrom hfound
        have hcurrent := h.1.around (.cons hgrown.current hgrown.outer)
        split at hname
        · next hshared =>
          cases hname
          refine ⟨⟨hcurrent, hconsistent⟩, rfl, fun hbad ↦ ?_⟩
          rw [hshared] at hbad
          cases hbad
        · next hshared =>
          cases hname
          have hprivate : found.isShared = false := (Bool.not_eq_true _).mp hshared
          have hcapturable := (hconsistent.1.refers found (hbound hprivate)).capturable hprivate
          exact ⟨⟨hcurrent.capture (List.cons_ne_nil _ _) hfind hcapturable, hconsistent⟩, rfl,
            fun _ ↦ List.mem_cons_self⟩

end Scope

/-! ### Operations -/

namespace Scopes

open Scope (AllConsistent)

/-- All scopes of the chain are consistent after an operation if they were before. -/
theorem allConsistent_apply {scopes : Scopes} (h : AllConsistent scopes.tables)
    (operation : Operation) : AllConsistent (scopes.apply operation).tables := by
  cases operation with
  | define name =>
    refine ⟨h.1.define name ?_, h.2⟩
    cases houter : scopes.outer with
    | nil => exact .inl ⟨rfl, rfl⟩
    | cons around rest => exact .inr ⟨rfl, List.cons_ne_nil _ _⟩
  | defineBuiltin index name =>
    exact ⟨h.1.bind_unnumbered (by simp [Scope.IsNumbered]) trivial, h.2⟩
  | defineFunction name =>
    exact ⟨h.1.bind_unnumbered (by simp [Scope.IsNumbered]) trivial, h.2⟩
  | resolve name =>
    rw [apply]
    split
    · next hname => exact (h.resolveFrom hname).1
    · exact h
  | enclose => exact ⟨Scope.consistent_empty _, h⟩
  | leave =>
    rw [apply]
    split
    · next around hleave =>
      rw [tables_of_leave? hleave] at h
      exact h.2
    · exact h

theorem allConsistent_applyAll (operations : List Operation) {scopes : Scopes}
    (h : AllConsistent scopes.tables) : AllConsistent (scopes.applyAll operations).tables := by
  induction operations generalizing scopes with
  | nil => exact h
  | cons operation rest ih => exact ih (allConsistent_apply h operation)

/-- Spec §3, the invariants of symbol tables. For any operations on a chain of scopes, all scopes of
it are consistent: each name is bound once, to a symbol that has it and refers to what there is; no
two names have one index at one kind of place; and what a scope captures is captured once, bound in
it, and such as the scopes around may give. -/
theorem chain_consistent (operations : List Operation) :
    AllConsistent (({} : Scopes).applyAll operations).tables :=
  have hempty : AllConsistent ({} : Scopes).tables := ⟨Scope.consistent_empty [], trivial⟩
  allConsistent_applyAll operations hempty

/-- A name that was captured and is then bound anew has a slot of its own, and its captured value
stays. -/
example :
    (({} : Scopes).applyAll
      [.enclose, .define "a", .enclose, .resolve "a", .define "a"]).current =
      { bindings := [⟨"a", .localSlot, 0⟩], definitions := 1,
        captured := [⟨"a", .localSlot, 0⟩] } :=
  rfl

end Scopes

end StackScript
