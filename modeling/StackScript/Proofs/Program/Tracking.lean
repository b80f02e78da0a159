import StackScript.Bytecode.Assemble
import StackScript.Program.Context
import StackScript.Proofs.StateMonad
import Mathlib.Data.List.Forall2
import Mathlib.Data.List.Nodup

/-!
The scopes of a generated program follow its text. At every place a symbol is found for a name if
the text tells what the name denotes there, and it stands for just that (`Tracks.resolveFrom`); the
values that a function captures are those of its captures in the text, in the same order. Assembling
a part leads from a place to the place behind the part (`Expr.assemble_follows`).
-/

set_option autoImplicit false
set_option relaxedAutoImplicit false

namespace StackScript

/-- A symbol of the function at the depth stands for the variable. -/
def Symbol.Denotes (depth : Nat) (captures : List Use) (symbol : Symbol) (meaning : Variable) :
    Prop :=
  match symbol.place with
  | .global => meaning = .global symbol.index
  | .builtin => ∃ builtin : Builtin, meaning = .builtin builtin ∧ symbol.index = builtin.index
  | .localSlot => meaning = .slot depth symbol.index
  | .function => meaning = .self depth
  | .free => captures[symbol.index]? = some ⟨symbol.name, meaning⟩

theorem Symbol.Denotes.mono {depth : Nat} {captures more : List Use} {symbol : Symbol}
    {meaning : Variable} (h : symbol.Denotes depth captures meaning)
    (hmore : captures <+: more) : symbol.Denotes depth more meaning := by
  unfold Symbol.Denotes at h ⊢
  split
  case h_5 hplace =>
    rw [hplace] at h
    obtain ⟨rest, rfl⟩ := hmore
    have hlt : symbol.index < captures.length := (List.getElem?_eq_some_iff.mp h).1
    rw [List.getElem?_append_left hlt]
    exact h
  all_goals
    next hplace =>
    rw [hplace] at h
    exact h

/-- A variable of a function around is known under its name as a capture. -/
theorem Symbol.Denotes.mem_captures {depth : Nat} {captures : List Use} {symbol : Symbol}
    {meaning : Variable} (h : symbol.Denotes depth captures meaning)
    (houter : meaning.isOuter depth) : ⟨symbol.name, meaning⟩ ∈ captures := by
  unfold Symbol.Denotes at h
  split at h
  · subst h
    cases houter
  · obtain ⟨builtin, rfl, _⟩ := h
    cases houter
  · subst h
    simp [Variable.isOuter] at houter
  · subst h
    simp [Variable.isOuter] at houter
  · exact List.mem_of_getElem? h

/-! ### Uses -/

theorem Variable.isOuter_mono {depth other : Nat} {meaning : Variable}
    (h : meaning.isOuter depth) (hdepth : depth ≤ other) : meaning.isOuter other := by
  cases meaning with
  | slot owner slot =>
    simp only [isOuter, decide_eq_true_eq] at h ⊢
    omega
  | self owner =>
    simp only [isOuter, decide_eq_true_eq] at h ⊢
    omega
  | _ => cases h

namespace Names

@[simp] theorem bound_note (depth : Nat) (use : Use) (names : Names) :
    (names.note depth use).bound = names.bound := by
  unfold note
  split <;> rfl

@[simp] theorem slots_note (depth : Nat) (use : Use) (names : Names) :
    (names.note depth use).slots = names.slots := by
  unfold note
  split <;> rfl

@[simp] theorem find?_note (depth : Nat) (use : Use) (names : Names) (name : String) :
    (names.note depth use).find? name = names.find? name := by
  simp only [find?, bound_note]

theorem captures_note (depth : Nat) (use : Use) (names : Names) :
    names.captures <+: (names.note depth use).captures := by
  unfold note
  split
  · exact List.prefix_append _ _
  · exact List.prefix_rfl

theorem note_eq_self {depth : Nat} {use : Use} {names : Names}
    (h : use.meaning.isOuter depth → use ∈ names.captures) : names.note depth use = names := by
  unfold note
  rw [if_neg]
  rintro ⟨houter, hnew⟩
  exact hnew (h houter)

theorem find?_bind (names : Names) (name other : String) (meaning : Variable) :
    (names.bind name meaning).find? other =
      if name = other then some meaning else names.find? other := by
  by_cases h : name = other
  · simp [find?, bind, h]
  · simp [find?, bind, h]

end Names

namespace Context

theorem noteIn_eq_self {use : Use} {chain : List Names}
    (h : ∀ depth < chain.length, use.meaning.isOuter depth = false) :
    noteIn use chain = chain := by
  induction chain with
  | nil => rfl
  | cons names outer ih =>
    have hown := h outer.length (Nat.lt_succ_self _)
    rw [noteIn, ih fun depth hdepth ↦ h depth (Nat.lt_succ_of_lt hdepth),
      Names.note_eq_self (by simp [hown])]

@[simp] theorem findIn_noteIn (use : Use) (chain : List Names) (name : String) :
    findIn name (noteIn use chain) = findIn name chain := by
  induction chain with
  | nil => rfl
  | cons names outer ih => simp only [noteIn, findIn, Names.find?_note, ih]

@[simp] theorem length_noteIn (use : Use) (chain : List Names) :
    (noteIn use chain).length = chain.length := by
  induction chain with
  | nil => rfl
  | cons names outer ih => simp [noteIn, ih]

end Context

/-! ### Scopes and names -/

/-- The scope of the function at the depth has the names that the text binds in it; further names
are those of captures, which denote what they denote around the function. -/
structure Scope.Follows (depth : Nat) (around : String → Option Variable) (scope : Scope)
    (names : Names) : Prop where
  slots : scope.definitions = names.slots
  bound {name : String} {meaning : Variable} : names.find? name = some meaning →
    ∃ symbol, scope.find? name = some symbol ∧ symbol.Denotes depth names.captures meaning ∧
      meaning.isOuter depth = false
  unbound {name : String} {symbol : Symbol} : names.find? name = none →
    scope.find? name = some symbol → ∃ meaning, around name = some meaning ∧
      symbol.Denotes depth names.captures meaning ∧ ⟨name, meaning⟩ ∈ names.captures
  captured {use : Use} : use ∈ names.captures → names.find? use.name = none →
    ∃ symbol, scope.find? use.name = some symbol
  isOuter {use : Use} : use ∈ names.captures → use.meaning.isOuter depth
  nodup : names.captures.Nodup

/-- What a function captures, as it is known around the function. -/
def Captures (depth : Nat) (around : List Use) : List Symbol → List Use → Prop :=
  List.Forall₂ fun symbol use ↦ symbol.name = use.name ∧ symbol.Denotes depth around use.meaning

/-- All scopes of a chain follow the names at a place. -/
def Tracks (current : Scope) : List Scope → Names → List Names → Prop
  | [], names, [] => current.Follows 0 (fun _ ↦ none) names ∧ names.captures = []
  | around :: outer, names, namesAround :: rest =>
    current.Follows (rest.length + 1) (fun name ↦ Context.findIn name (namesAround :: rest)) names ∧
      Captures rest.length namesAround.captures current.captured names.captures ∧
      Tracks around outer namesAround rest
  | _, _, _ => False

theorem Captures.mono {depth : Nat} {around more : List Use} {symbols : List Symbol}
    {uses : List Use} (h : Captures depth around symbols uses) (hmore : around <+: more) :
    Captures depth more symbols uses :=
  h.imp fun _ _ hone ↦ ⟨hone.1, hone.2.mono hmore⟩

theorem Tracks.follows {current : Scope} {outer : List Scope} {names : Names} {rest : List Names}
    (h : Tracks current outer names rest) :
    current.Follows rest.length (fun name ↦ Context.findIn name rest) names := by
  cases outer with
  | nil =>
    cases rest with
    | nil => exact h.1
    | cons => exact h.elim
  | cons around outer =>
    cases rest with
    | nil => exact h.elim
    | cons namesAround rest => exact h.1

theorem Tracks.isOuter {current : Scope} {outer : List Scope} {names : Names} {rest : List Names}
    (h : Tracks current outer names rest) :
    ∀ use ∈ names.captures, use.meaning.isOuter rest.length :=
  fun _ huse ↦ h.follows.isOuter huse

/-- A use that is noted in a scope is noted in all around it that need it. -/
theorem Tracks.noteIn_of_mem {current : Scope} {outer : List Scope} {names : Names}
    {rest : List Names} {use : Use} (h : Tracks current outer names rest)
    (huse : use ∈ names.captures) : Context.noteIn use rest = rest := by
  induction outer generalizing current names rest with
  | nil =>
    cases rest with
    | nil => rfl
    | cons => exact h.elim
  | cons around outer ih =>
    cases rest with
    | nil => exact h.elim
    | cons namesAround rest =>
      obtain ⟨_, hcaptures, haround⟩ := h
      obtain ⟨symbol, _, hname, hdenotes⟩ : ∃ symbol ∈ current.captured, symbol.name = use.name ∧
          symbol.Denotes rest.length namesAround.captures use.meaning := by
        obtain ⟨i, hi, rfl⟩ := List.getElem_of_mem huse
        have hlength := hcaptures.length_eq
        have hcaptured : i < current.captured.length := hlength ▸ hi
        exact ⟨current.captured[i], List.getElem_mem _,
          (List.forall₂_iff_get.mp hcaptures).2 i hcaptured hi⟩
      cases houter : use.meaning.isOuter rest.length with
      | true =>
        have hmem : use ∈ namesAround.captures := by
          have h := hdenotes.mem_captures houter
          rwa [hname] at h
        rw [Context.noteIn, ih haround hmem, Names.note_eq_self fun _ ↦ hmem]
      | false =>
        refine Context.noteIn_eq_self fun depth hdepth ↦ ?_
        by_contra hless
        rw [Variable.isOuter_mono (Bool.of_not_eq_false hless) (Nat.le_of_lt_succ hdepth)] at houter
        cases houter

theorem Symbol.Denotes.isOuter_of_not_shared {depth : Nat} {captures : List Use} {symbol : Symbol}
    {meaning : Variable} (h : symbol.Denotes depth captures meaning)
    (hcaptures : ∀ use ∈ captures, use.meaning.isOuter depth)
    (hshared : symbol.isShared = false) : meaning.isOuter (depth + 1) := by
  unfold Symbol.Denotes at h
  split at h
  · next hplace => simp [Symbol.isShared, hplace] at hshared
  · next hplace => simp [Symbol.isShared, hplace] at hshared
  · subst h
    simp [Variable.isOuter]
  · subst h
    simp [Variable.isOuter]
  · exact Variable.isOuter_mono (hcaptures _ (List.mem_of_getElem? h)) (Nat.le_succ depth)

/-- A shared symbol stands for the same in all functions. -/
theorem Symbol.Denotes.of_shared {depth : Nat} {captures : List Use} {symbol : Symbol}
    {meaning : Variable} (h : symbol.Denotes depth captures meaning) (other : Nat)
    (more : List Use) (hshared : symbol.isShared) : symbol.Denotes other more meaning ∧
      ∀ depth, meaning.isOuter depth = false := by
  unfold Symbol.Denotes at h ⊢
  split at h
  · exact ⟨h, fun _ ↦ by rw [h]; rfl⟩
  · obtain ⟨builtin, rfl, hindex⟩ := h
    exact ⟨⟨builtin, rfl, hindex⟩, fun _ ↦ rfl⟩
  all_goals
    next hplace => simp [Symbol.isShared, hplace] at hshared

theorem Scope.Follows.note {depth : Nat} {around : String → Option Variable} {scope : Scope}
    {names : Names} (h : scope.Follows depth around names) {symbol : Symbol} {meaning : Variable}
    (hnames : names.find? symbol.name = none) (hscope : scope.find? symbol.name = none)
    (haround : around symbol.name = some meaning) (houter : meaning.isOuter depth)
    (hlength : scope.captured.length = names.captures.length) :
    (scope.capture symbol).2.Follows depth around (names.note depth ⟨symbol.name, meaning⟩) ∧
      (names.note depth ⟨symbol.name, meaning⟩).captures =
        names.captures ++ [⟨symbol.name, meaning⟩] ∧
      (scope.capture symbol).1.Denotes depth
        (names.note depth ⟨symbol.name, meaning⟩).captures meaning := by
  have hnew : ⟨symbol.name, meaning⟩ ∉ names.captures := by
    intro hmem
    obtain ⟨other, hother⟩ := h.captured hmem hnames
    rw [hscope] at hother
    cases hother
  have hnote : names.note depth ⟨symbol.name, meaning⟩ =
      { names with captures := names.captures ++ [⟨symbol.name, meaning⟩] } := by
    unfold Names.note
    rw [if_pos ⟨houter, hnew⟩]
  have hdenotes : (scope.capture symbol).1.Denotes depth
      (names.captures ++ [⟨symbol.name, meaning⟩]) meaning := by
    change (names.captures ++ [⟨symbol.name, meaning⟩])[scope.captured.length]? = _
    rw [hlength]
    simp [Scope.capture]
  have hfind : ∀ name, (scope.capture symbol).2.find? name =
      if name = symbol.name then some (scope.capture symbol).1 else scope.find? name := fun name ↦
    Scope.find?_bind scope ⟨symbol.name, .free, scope.captured.length⟩ name
  have hbegin : names.captures <+: names.captures ++ [⟨symbol.name, meaning⟩] :=
    List.prefix_append _ _
  rw [hnote]
  refine ⟨⟨h.slots, ?_, ?_, ?_, ?_, ?_⟩, rfl, hdenotes⟩
  · intro name other hother
    obtain ⟨found, hfound, hmeans, hown⟩ := h.bound hother
    have hne : name ≠ symbol.name := by
      rintro rfl
      rw [hscope] at hfound
      cases hfound
    exact ⟨found, by rw [hfind, if_neg hne, hfound], hmeans.mono hbegin, hown⟩
  · intro name found hname hfound
    rw [hfind] at hfound
    split at hfound
    · next hsame =>
      cases hfound
      subst hsame
      exact ⟨meaning, haround, hdenotes, by simp⟩
    · obtain ⟨other, hother, hmeans, hmem⟩ := h.unbound hname hfound
      exact ⟨other, hother, hmeans.mono hbegin, List.mem_append_left _ hmem⟩
  · intro use huse hname
    rw [hfind]
    split
    · exact ⟨_, rfl⟩
    · next hne =>
      rcases List.mem_append.mp huse with hold | hlast
      · exact h.captured hold hname
      · rw [List.mem_singleton.mp hlast] at hne
        exact absurd rfl hne
  · intro use huse
    rcases List.mem_append.mp huse with hold | hlast
    · exact h.isOuter hold
    · rw [List.mem_singleton.mp hlast]
      exact houter
  · refine List.nodup_append.mpr ⟨h.nodup, List.nodup_singleton _, ?_⟩
    intro use huse other hother heq
    rw [List.mem_singleton.mp hother] at heq
    exact hnew (heq ▸ huse)

/-! ### Looking up a name -/

/-- The symbol stands for what the name denotes in the text, and the scopes follow the text once the
use of the name is noted. -/
def Resolves (name : String) (names : Names) (rest : List Names) (symbol : Symbol)
    (scopes : Scopes) : Prop :=
  ∃ meaning, Context.findIn name (names :: rest) = some meaning ∧
    Tracks scopes.current scopes.outer (names.note rest.length ⟨name, meaning⟩)
      (Context.noteIn ⟨name, meaning⟩ rest) ∧
    symbol.Denotes rest.length (names.note rest.length ⟨name, meaning⟩).captures meaning ∧
    symbol.name = name

section Resolve

variable {name : String} {current around : Scope} {outer : List Scope} {names namesAround : Names}
  {rest : List Names} {symbol : Symbol} {further : Scopes}

/-- A name that is bound here is no capture, here or further out. -/
theorem Tracks.resolves_bound (h : Tracks current outer names rest)
    (hfound : current.find? name = some symbol) {meaning : Variable}
    (hnames : names.find? name = some meaning) :
    Resolves name names rest symbol ⟨current, outer⟩ := by
  obtain ⟨other, hother, hdenotes, hown⟩ := h.follows.bound hnames
  cases hfound.symm.trans hother
  have hnote : names.note rest.length ⟨name, meaning⟩ = names := Names.note_eq_self (by simp [hown])
  have hrest : Context.noteIn ⟨name, meaning⟩ rest = rest := by
    refine Context.noteIn_eq_self fun depth hdepth ↦ ?_
    by_contra houter
    have hmore := Variable.isOuter_mono (Bool.of_not_eq_false houter) (Nat.le_of_lt hdepth)
    rw [hown] at hmore
    cases hmore
  refine ⟨meaning, by rw [Context.findIn, hnames], ?_, ?_, Scope.name_of_find? hfound⟩
  · rwa [hnote, hrest]
  · rwa [hnote]

/-- A name that was captured before is noted already. -/
theorem Tracks.resolves_captured (h : Tracks current outer names rest)
    (hfound : current.find? name = some symbol) (hnames : names.find? name = none) :
    Resolves name names rest symbol ⟨current, outer⟩ := by
  obtain ⟨meaning, hmeaning, hdenotes, hmem⟩ := h.follows.unbound hnames hfound
  have hnote : names.note rest.length ⟨name, meaning⟩ = names := Names.note_eq_self fun _ ↦ hmem
  refine ⟨meaning, by rwa [Context.findIn, hnames], ?_, ?_, Scope.name_of_find? hfound⟩
  · rwa [hnote, h.noteIn_of_mem hmem]
  · rwa [hnote]

theorem Tracks.resolves_here (h : Tracks current outer names rest)
    (hfound : current.find? name = some symbol) :
    Resolves name names rest symbol ⟨current, outer⟩ := by
  cases hnames : names.find? name with
  | some meaning => exact h.resolves_bound hfound hnames
  | none => exact h.resolves_captured hfound hnames

theorem Tracks.names_eq_none (h : Tracks current outer names rest)
    (hfound : current.find? name = none) : names.find? name = none := by
  cases hnames : names.find? name with
  | none => rfl
  | some meaning =>
    obtain ⟨_, hother, _⟩ := h.follows.bound hnames
    cases hfound.symm.trans hother

/-- A name that is found further out and stands for the same in all functions is not captured. -/
theorem Tracks.resolves_shared (h : Tracks current (around :: outer) names (namesAround :: rest))
    (hfound : current.find? name = none) (haround : Resolves name namesAround rest symbol further)
    (hshared : symbol.isShared) : Resolves name names (namesAround :: rest) symbol
      ⟨current, further.current :: further.outer⟩ := by
  obtain ⟨meaning, hmeaning, htracks, hdenotes, hname⟩ := haround
  obtain ⟨hdenotes, hown⟩ := hdenotes.of_shared (rest.length + 1)
    (names.note (rest.length + 1) ⟨name, meaning⟩).captures hshared
  have hkept : names.note (rest.length + 1) ⟨name, meaning⟩ = names :=
    Names.note_eq_self (by simp [hown])
  refine ⟨meaning, by rwa [Context.findIn, h.names_eq_none hfound], ⟨?_, ?_, htracks⟩, hdenotes,
    hname⟩
  · rw [← Context.noteIn, List.length_cons, hkept]
    simpa only [Context.findIn_noteIn, Context.length_noteIn] using h.1
  · rw [Context.length_noteIn, List.length_cons, hkept]
    exact h.2.1.mono (Names.captures_note _ _ _)

/-- A name that is found further out and belongs to a function there is captured. -/
theorem Tracks.resolves_capture (h : Tracks current (around :: outer) names (namesAround :: rest))
    (hfound : current.find? name = none) (haround : Resolves name namesAround rest symbol further)
    (hshared : symbol.isShared = false) :
    Resolves name names (namesAround :: rest) (current.capture symbol).1
      ⟨(current.capture symbol).2, further.current :: further.outer⟩ := by
  obtain ⟨meaning, hmeaning, htracks, hdenotes, rfl⟩ := haround
  have hnames := h.names_eq_none hfound
  have houter : meaning.isOuter (rest.length + 1) := by
    refine hdenotes.isOuter_of_not_shared ?_ hshared
    have houter := htracks.isOuter
    rwa [Context.length_noteIn] at houter
  obtain ⟨hnext, hnote, hinner⟩ := h.1.note hnames hfound hmeaning houter h.2.1.length_eq
  refine ⟨meaning, by rwa [Context.findIn, hnames], ⟨?_, ?_, htracks⟩, hinner, rfl⟩
  · rw [← Context.noteIn, List.length_cons]
    simpa only [Context.findIn_noteIn, Context.length_noteIn] using hnext
  · rw [Context.length_noteIn, List.length_cons, hnote]
    exact List.rel_append (h.2.1.mono (Names.captures_note _ _ _)) (.cons ⟨rfl, hdenotes⟩ .nil)

end Resolve

/-- What is found for a name is what it denotes, and the text notes just the captures that looking
it up makes. By induction on the scopes around: a name is bound here, was captured before, or is
found further out. -/
theorem Tracks.resolveFrom {name : String} {current : Scope} {outer : List Scope} {names : Names}
    {rest : List Names} {symbol : Symbol} {scopes : Scopes} (h : Tracks current outer names rest)
    (hname : Scopes.resolveFrom name current outer = some (symbol, scopes)) :
    Resolves name names rest symbol scopes := by
  induction outer generalizing current names rest symbol scopes with
  | nil =>
    simp only [Scopes.resolveFrom] at hname
    split at hname
    · next found hfound =>
      cases hname
      exact h.resolves_here hfound
    · cases hname
  | cons around outer ih =>
    cases rest with
    | nil => exact h.elim
    | cons namesAround rest =>
      simp only [Scopes.resolveFrom] at hname
      split at hname
      · next found hfound =>
        cases hname
        exact h.resolves_here hfound
      · next hfound =>
        split at hname
        · cases hname
        · next found further hfurther =>
          have haround := ih h.2.2 hfurther
          split at hname
          · next hshared =>
            cases hname
            exact h.resolves_shared hfound haround hshared
          · next hshared =>
            cases hname
            exact h.resolves_capture hfound haround (Bool.of_not_eq_true hshared)

/-! ### Bindings -/

theorem Scope.Follows.bind {depth : Nat} {around : String → Option Variable} {scope grown : Scope}
    {names : Names} (h : scope.Follows depth around names) {symbol : Symbol} {meaning : Variable}
    (hdenotes : symbol.Denotes depth names.captures meaning)
    (hown : meaning.isOuter depth = false)
    (hgrown : grown.bindings = (scope.bind symbol).bindings) :
    grown.Follows depth around
      { names.bind symbol.name meaning with slots := grown.definitions } := by
  have hfind : ∀ name, grown.find? name =
      if name = symbol.name then some symbol else scope.find? name := by
    intro name
    rw [← Scope.find?_bind, Scope.find?, Scope.find?, hgrown]
  have hnames : ∀ name, ({ names.bind symbol.name meaning with
      slots := grown.definitions } : Names).find? name =
      if symbol.name = name then some meaning else names.find? name :=
    fun name ↦ Names.find?_bind names symbol.name name meaning
  refine ⟨rfl, ?_, ?_, ?_, fun huse ↦ h.isOuter huse, h.nodup⟩
  · intro name other hother
    rw [hnames] at hother
    rw [hfind]
    split at hother
    · next hsame =>
      cases hother
      rw [if_pos hsame.symm]
      exact ⟨symbol, rfl, hdenotes, hown⟩
    · next hne =>
      rw [if_neg (Ne.symm hne)]
      exact h.bound hother
  · intro name found hname hfound
    rw [hnames] at hname
    rw [hfind] at hfound
    split at hname
    · cases hname
    · next hne =>
      rw [if_neg (Ne.symm hne)] at hfound
      exact h.unbound hname hfound
  · intro use huse hname
    rw [hnames] at hname
    rw [hfind]
    split at hname
    · cases hname
    · next hne =>
      rw [if_neg (Ne.symm hne)]
      exact h.captured huse hname

theorem Tracks.bind {current grown : Scope} {outer : List Scope} {names : Names}
    {rest : List Names} (h : Tracks current outer names rest) (symbol : Symbol)
    (meaning : Variable) (hdenotes : symbol.Denotes rest.length names.captures meaning)
    (hown : meaning.isOuter rest.length = false)
    (hgrown : grown.bindings = (current.bind symbol).bindings)
    (hcaptured : grown.captured = current.captured) :
    Tracks grown outer { names.bind symbol.name meaning with slots := grown.definitions } rest := by
  cases outer with
  | nil =>
    cases rest with
    | nil => exact ⟨h.1.bind hdenotes hown hgrown, h.2⟩
    | cons => exact h.elim
  | cons around outer =>
    cases rest with
    | nil => exact h.elim
    | cons namesAround rest =>
      exact ⟨h.1.bind hdenotes hown hgrown, hcaptured ▸ h.2.1, h.2.2⟩

theorem Tracks.slots {current : Scope} {outer : List Scope} {names : Names} {rest : List Names}
    (h : Tracks current outer names rest) : current.definitions = names.slots :=
  h.follows.slots

theorem Tracks.nodup {current : Scope} {outer : List Scope} {names : Names} {rest : List Names}
    (h : Tracks current outer names rest) : names.captures.Nodup :=
  h.follows.nodup

theorem Tracks.isEmpty {current : Scope} {outer : List Scope} {names : Names} {rest : List Names}
    (h : Tracks current outer names rest) : outer.isEmpty = rest.isEmpty := by
  cases outer <;> cases rest
  case nil.cons | cons.nil => exact h.elim
  all_goals rfl

/-! ### Scopes at a place -/

/-- The scopes are those at the place. -/
def Scopes.At (scopes : Scopes) (context : Context) : Prop :=
  Tracks scopes.current scopes.outer context.names context.outer

namespace Scopes.At

variable {scopes after : Scopes} {context : Context} {name : String} {symbol : Symbol}

theorem resolve (h : scopes.At context) (hname : scopes.resolve name = some (symbol, after)) :
    ∃ meaning, context.find? name = some meaning ∧ after.At (context.use ⟨name, meaning⟩) ∧
      symbol.Denotes context.depth (context.use ⟨name, meaning⟩).names.captures meaning ∧
      symbol.name = name :=
  Tracks.resolveFrom h hname

theorem define (h : scopes.At context) (name : String) :
    (scopes.define name).2.At (context.define name).2 ∧
      (scopes.define name).1.Denotes context.depth (context.define name).2.names.captures
        (context.define name).1 := by
  have hempty := Tracks.isEmpty h
  have hslots := Tracks.slots h
  have hdenotes : (scopes.define name).1.Denotes context.depth context.names.captures
      (context.define name).1 := by
    unfold Symbol.Denotes
    simp only [Scopes.define, Scope.define, Context.define, hempty, hslots]
    cases context.outer.isEmpty <;> rfl
  have hown : (context.define name).1.isOuter context.outer.length = false := by
    simp only [Context.define]
    cases context.outer.isEmpty with
    | true => rfl
    | false => simp [Variable.isOuter, Context.depth]
  refine ⟨?_, hdenotes⟩
  have hbind := Tracks.bind h (scopes.define name).1 _ hdenotes hown
    (Eq.refl (scopes.define name).2.current.bindings) rfl
  have hdefinitions : (scopes.define name).2.current.definitions = context.names.slots + 1 :=
    congrArg (· + 1) hslots
  rw [hdefinitions] at hbind
  exact hbind

theorem enclose (h : scopes.At context) :
    scopes.enclose.At { context with names := {}, outer := context.names :: context.outer } := by
  refine ⟨⟨rfl, ?_, ?_, ?_, ?_, List.nodup_nil⟩, .nil, h⟩
  · intro name meaning hname
    cases hname
  · intro name symbol _ hname
    cases hname
  · intro use huse
    cases huse
  · intro use huse
    cases huse

theorem enter (h : scopes.At context) (name : Option String) (parameters : List String) :
    (Assembly.enter name parameters scopes).At (context.enter name parameters) := by
  have hparameters : ∀ (parameters : List String) (scopes : Scopes) (context : Context),
      scopes.At context →
      (parameters.foldl (fun scopes name ↦ (scopes.define name).2) scopes).At
        (parameters.foldl (fun context name ↦ (context.define name).2) context) := by
    intro parameters
    induction parameters with
    | nil => exact fun _ _ h ↦ h
    | cons parameter rest ih => exact fun _ _ h ↦ ih _ _ (h.define parameter).1
  refine hparameters parameters _ _ ?_
  cases name with
  | none => exact h.enclose
  | some name =>
    refine Tracks.bind h.enclose ⟨name, .function, 0⟩ (.self _) rfl ?_ rfl rfl
    simp [Variable.isOuter, Context.depth]

/-- Behind a function, with what it captures. -/
theorem leave (h : scopes.At context) (houter : context.outer ≠ []) :
    (scopes.leave?.getD {}).At context.leave ∧
      Captures context.leave.depth context.leave.names.captures scopes.current.captured
        context.names.captures := by
  obtain ⟨current, outer⟩ := scopes
  obtain ⟨names, rest, literals⟩ := context
  cases rest with
  | nil => exact absurd rfl houter
  | cons namesAround rest =>
    cases outer with
    | nil => exact h.elim
    | cons around outer => exact ⟨h.2.2, h.2.1⟩

/-- Nothing is captured outside of all functions. -/
theorem captures_eq_nil (h : scopes.At context) (houter : context.outer = []) :
    context.names.captures = [] := by
  unfold Scopes.At at h
  rw [houter] at h
  cases hscopes : scopes.outer with
  | nil =>
    rw [hscopes] at h
    exact h.2
  | cons around outer =>
    rw [hscopes] at h
    exact h.elim

end Scopes.At

/-- The provided functions are bound at the begin of a program. -/
theorem Scopes.at_top : Builder.new.scopes.At .top := by
  have hone : ∀ (builtins : List Builtin) (scopes : Scopes) (names : Names),
      Tracks scopes.current scopes.outer names [] → scopes.current.definitions = 0 →
      names.slots = 0 →
      let bound := builtins.foldl
        (fun scopes builtin ↦ (scopes.defineBuiltin builtin.index builtin.name).2) scopes
      Tracks bound.current bound.outer (builtins.foldl
        (fun names builtin ↦ names.bind builtin.name (.builtin builtin)) names) [] := by
    intro builtins
    induction builtins with
    | nil => exact fun _ _ h _ _ ↦ h
    | cons builtin rest ih =>
      intro scopes names h hdefinitions hslots
      refine ih _ _ ?_ hdefinitions hslots
      have hbind := Tracks.bind h ⟨builtin.name, .builtin, builtin.index⟩ (.builtin builtin)
        ⟨builtin, rfl, rfl⟩ rfl
        (Eq.refl (scopes.defineBuiltin builtin.index builtin.name).2.current.bindings) rfl
      have hsame : (scopes.defineBuiltin builtin.index builtin.name).2.current.definitions =
          names.slots := hdefinitions.trans hslots.symm
      rw [hsame] at hbind
      exact hbind
  refine hone Builtin.all {} {} ⟨⟨rfl, ?_, ?_, ?_, ?_, List.nodup_nil⟩, rfl⟩ rfl rfl
  · intro name meaning hname
    cases hname
  · intro name symbol _ hname
    cases hname
  · intro use huse
    cases huse
  · intro use huse
    cases huse

end StackScript
