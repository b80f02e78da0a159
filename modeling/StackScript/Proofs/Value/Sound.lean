import StackScript.Machine.Operation
import StackScript.Proofs.Bytecode.WellFormed

/-!
Values that a program can hold. No compiled function and no returned value is among them or inside
them, and the body of each closure is a function of the constant pool that reads no more captured
values than the closure has. All operations on values, the provided functions among them, lead from
such values to such values.
-/

set_option autoImplicit false
set_option relaxedAutoImplicit false

namespace StackScript

/-- A body of a closure that captured `count` values. -/
structure Routine.Held (constants : Array Value) (globals count : Nat) (routine : Routine) :
    Prop where
  entry : ∃ (entry : Nat) (label : Label), constants[entry]? = some (.routine label routine)
  wellFormed : routine.WellFormed constants globals count

theorem Routine.Held.mono {constants more : Array Value} {globals moreGlobals count : Nat}
    {routine : Routine} (h : routine.Held constants globals count)
    (hconstants : Extends constants more) (hglobals : globals ≤ moreGlobals) :
    routine.Held more moreGlobals count := by
  obtain ⟨entry, label, hentry⟩ := h.entry
  exact ⟨⟨entry, label, hconstants _ _ hentry⟩, h.wellFormed.mono hconstants hglobals⟩

namespace Value

/-- A value that programs can hold, with all values inside it. -/
inductive Sound (constants : Array Value) (globals : Nat) : Value → Prop
  | integer (value : Int64) : Sound constants globals (.integer value)
  | boolean (value : Bool) : Sound constants globals (.boolean value)
  | null : Sound constants globals .null
  | string (label : Label) (content : String) : Sound constants globals (.string label content)
  | builtin (builtin : Builtin) : Sound constants globals (.builtin builtin)
  | error (message : String) : Sound constants globals (.error message)
  | array {label : Label} {elements : List Value}
      (h : ∀ element ∈ elements, Sound constants globals element) :
      Sound constants globals (.array label elements)
  | hash {label : Label} {entries : Entries}
      (h : ∀ key value, (key, value) ∈ entries → Sound constants globals value) :
      Sound constants globals (.hash label entries)
  | closure {label : Label} {routine : Routine} {free : List Value}
      (hroutine : routine.Held constants globals free.length)
      (h : ∀ value ∈ free, Sound constants globals value) :
      Sound constants globals (.closure label routine free)

variable {constants more : Array Value} {globals moreGlobals : Nat}

theorem Sound.mono {value : Value} (h : value.Sound constants globals)
    (hconstants : Extends constants more) (hglobals : globals ≤ moreGlobals) :
    value.Sound more moreGlobals := by
  induction h with
  | integer => exact .integer _
  | boolean => exact .boolean _
  | null => exact .null
  | string => exact .string _ _
  | builtin => exact .builtin _
  | error => exact .error _
  | array _ ih => exact .array ih
  | hash _ ih => exact .hash ih
  | closure hroutine _ ih => exact .closure (hroutine.mono hconstants hglobals) ih

/-- An integer or a string of the pool. -/
theorem sound_of_kind {constant : Value} (h : constant.kind = .integer ∨ constant.kind = .string) :
    constant.Sound constants globals := by
  cases constant with
  | integer => exact .integer _
  | string => exact .string _ _
  | _ => simp [kind] at h

/-! ### Operations -/

theorem sound_operate {label : Label} {op : Opcode} {left right value : Value}
    (h : left.operate label op right = .ok value) : value.Sound constants globals := by
  unfold operate at h
  split at h
  · next first second =>
    cases hresult : operateIntegers op first second with
    | ok result =>
      rw [hresult] at h
      cases h
      exact .integer _
    | error error =>
      rw [hresult] at h
      cases h
  · split at h <;> cases h
    exact .string _ _
  · cases h

theorem sound_negate {value result : Value} (h : value.negate = .ok result) :
    result.Sound constants globals := by
  cases value <;> cases h
  exact .integer _

theorem sound_find? {entries : Entries} {key : Key} {value : Value}
    (h : ∀ key value, (key, value) ∈ entries → value.Sound constants globals)
    (hfound : entries.find? key = some value) : value.Sound constants globals := by
  induction entries with
  | nil => cases hfound
  | cons entry rest ih =>
    obtain ⟨other, held⟩ := entry
    simp only [Entries.find?] at hfound
    split at hfound
    · cases hfound
      exact h other _ List.mem_cons_self
    · exact ih (fun key value hmem ↦ h key value (List.mem_cons_of_mem _ hmem)) hfound

theorem Sound.lookUp {collection position value : Value}
    (hcollection : collection.Sound constants globals)
    (h : collection.lookUp position = .ok value) : value.Sound constants globals := by
  unfold Value.lookUp at h
  split at h
  · next label elements index =>
    cases hcollection with
    | array helements =>
      cases h
      split
      · exact .null
      · cases hfound : elements[index.toInt.toNat]? with
        | none => exact .null
        | some element => exact helements element (List.mem_of_getElem? hfound)
  · next label entries =>
    cases hcollection with
    | hash hentries =>
      split at h
      · next key hkey =>
        cases h
        cases hfound : Entries.find? key entries with
        | none => exact .null
        | some held => exact sound_find? hentries hfound
      · cases h
  · cases h

theorem mem_insert {entries : Entries} {key other : Key} {value held : Value}
    (h : (other, held) ∈ entries.insert key value) :
    (other, held) ∈ entries ∨ held = value := by
  induction entries with
  | nil =>
    cases List.mem_singleton.mp h
    exact .inr rfl
  | cons entry rest ih =>
    obtain ⟨name, content⟩ := entry
    unfold Entries.insert at h
    split at h
    · rcases List.mem_cons.mp h with hnew | hrest
      · cases hnew
        exact .inr rfl
      · exact .inl (List.mem_cons_of_mem _ hrest)
    split at h
    · rcases List.mem_cons.mp h with hnew | hrest
      · cases hnew
        exact .inr rfl
      · exact .inl hrest
    · rcases List.mem_cons.mp h with hnew | hrest
      · cases hnew
        exact .inl List.mem_cons_self
      · exact (ih hrest).imp_left (List.mem_cons_of_mem _)

theorem sound_addAll {entries result : Entries} {items : List Value}
    (hentries : ∀ key value, (key, value) ∈ entries → value.Sound constants globals)
    (hitems : ∀ item ∈ items, item.Sound constants globals)
    (h : entries.addAll items = .ok result) :
    ∀ key value, (key, value) ∈ result → value.Sound constants globals := by
  match items with
  | [] | [_] =>
    cases h
    exact hentries
  | first :: second :: rest =>
    unfold Entries.addAll at h
    split at h
    · refine sound_addAll ?_ (fun item hmem ↦ hitems item (by simp [hmem])) h
      intro key value hmem
      rcases mem_insert hmem with hold | rfl
      · exact hentries key value hold
      · exact hitems value (by simp)
    · cases h

/-- The provided functions yield values that programs can hold. -/
theorem sound_call {label : Label} {builtin : Builtin} {arguments : List Value}
    (h : ∀ argument ∈ arguments, argument.Sound constants globals) :
    (builtin.call label arguments).Sound constants globals := by
  have helement : ∀ (found : Option Value), (∀ value, found = some value →
      value.Sound constants globals) → (found.getD .null).Sound constants globals := by
    rintro (_ | value) hvalue
    · exact .null
    · exact hvalue value rfl
  have helements : ∀ {label : Label} {elements : List Value},
      (Value.array label elements).Sound constants globals →
      ∀ element ∈ elements, element.Sound constants globals := by
    rintro _ _ (_ | _ | _ | _ | _ | _ | helements)
    exact helements
  cases builtin with
  | len =>
    simp only [Builtin.call]
    unfold Builtin.callLen
    split
    · exact .integer _
    · exact .integer _
    · exact .error _
    · exact .error _
  | puts => exact .null
  | first =>
    simp only [Builtin.call]
    unfold Builtin.callElement
    split
    · exact helement _ fun value hvalue ↦
        helements (h _ List.mem_cons_self) value (List.mem_of_head? hvalue)
    · exact .error _
    · exact .error _
  | last =>
    simp only [Builtin.call]
    unfold Builtin.callElement
    split
    · exact helement _ fun value hvalue ↦
        helements (h _ List.mem_cons_self) value (List.mem_of_getLast? hvalue)
    · exact .error _
    · exact .error _
  | rest =>
    simp only [Builtin.call]
    unfold Builtin.callRest
    split
    · exact .null
    · exact .array fun element hmem ↦
        helements (h _ List.mem_cons_self) element (List.mem_cons_of_mem _ hmem)
    · exact .error _
    · exact .error _
  | push =>
    simp only [Builtin.call]
    unfold Builtin.callPush
    split
    · refine .array fun element hmem ↦ ?_
      rcases List.mem_append.mp hmem with hold | hnew
      · exact helements (h _ List.mem_cons_self) element hold
      · rw [List.mem_singleton.mp hnew]
        exact h _ (by simp)
    · exact .error _
    · exact .error _

end Value

end StackScript
