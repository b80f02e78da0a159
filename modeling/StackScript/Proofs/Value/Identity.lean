import StackScript.Proofs.Value.Sound

/-!
Which values are the same one. All that a comparison looks at is the identity of a value: its
content if it is a scalar, its kind and label if it was built. So `==` is symmetric and transitive,
and holds of a value and itself unless it is an error (`Value.isSame_self`). What is inside of two
values that are the same one is told by the labels only if none of them was given twice. Where that
is so, values that are the same one are equal (`Value.Labelled.eq_of_isSame`); and it stays so under
all operations, if each label that they ask for is a new one.
-/

set_option autoImplicit false
set_option relaxedAutoImplicit false

namespace StackScript

variable {Body : Type}

/-! ### Comparison -/

/-- What is compared of a value. -/
inductive Identity where
  | integer (value : Int64)
  | boolean (value : Bool)
  | null
  | builtin (builtin : Builtin)
  | built (kind : Value.Kind) (label : Label)

namespace Value

/-- Errors have no identity. -/
def identity? : Value Body → Option Identity
  | integer value => some (.integer value)
  | boolean value => some (.boolean value)
  | null => some .null
  | builtin function => some (.builtin function)
  | string label _ => some (.built .string label)
  | array label _ => some (.built .array label)
  | hash label _ => some (.built .hash label)
  | routine label _ => some (.built .routine label)
  | closure label _ _ => some (.built .closure label)
  | error _ | returned _ => none

variable {a b c : Value Body}

theorem isSame_iff : a.isSame b ↔ ∃ identity, a.identity? = some identity ∧
    b.identity? = some identity := by
  cases a <;> cases b <;> simp [isSame, identity?] <;> exact eq_comm

theorem isSame_comm (a b : Value Body) : a.isSame b = b.isSame a := by
  rw [Bool.eq_iff_iff, isSame_iff, isSame_iff]
  simp only [and_comm]

theorem isSame_trans (h : a.isSame b) (hnext : b.isSame c) : a.isSame c := by
  obtain ⟨identity, ha, hb⟩ := isSame_iff.mp h
  obtain ⟨other, hsecond, hc⟩ := isSame_iff.mp hnext
  obtain rfl : identity = other := Option.some.inj (hb.symm.trans hsecond)
  exact isSame_iff.mpr ⟨identity, ha, hc⟩

theorem isSame_self (value : Value Body) :
    value.isSame value = decide (value.kind ≠ .error ∧ value.kind ≠ .returned) := by
  cases value <;> simp [isSame, kind]

theorem compare_equal (left right : Value Body) :
    left.compare .equal right = .ok (left.isSame right) := by
  cases left <;> cases right <;> rfl

theorem compare_notEqual (left right : Value Body) :
    left.compare .notEqual right = .ok !left.isSame right := by
  cases left <;> cases right <;> rfl

/-! ### Labels -/

/-- The label of a value that was built. -/
def label? : Value Body → Option Label
  | string label _ | array label _ | hash label _ | routine label _ => some label
  | closure label _ _ => some label
  | _ => none

/-- The values in a value. -/
def parts : Value Body → List (Value Body)
  | array _ elements => elements
  | hash _ entries => entries.map Prod.snd
  | closure _ _ free => free
  | returned value => [value]
  | _ => []

end Value

/-- Which value each label was given to, as far as it was given to one. -/
abbrev Labelling := Label → Option Value

namespace Labelling

/-- What was labelled still is. -/
def Grows (labelling more : Labelling) : Prop :=
  ∀ label value, labelling label = some value → more label = some value

theorem Grows.refl (labelling : Labelling) : labelling.Grows labelling :=
  fun _ _ ↦ id

theorem Grows.trans {first second third : Labelling} (h : first.Grows second)
    (hnext : second.Grows third) : first.Grows third :=
  fun label value hvalue ↦ hnext label value (h label value hvalue)

def give (labelling : Labelling) (label : Label) (value : Value) : Labelling :=
  fun other ↦ if other = label then some value else labelling other

theorem grows_give {labelling : Labelling} {label : Label} (hnew : labelling label = none)
    (value : Value) : labelling.Grows (labelling.give label value) := by
  intro other held hheld
  refine (if_neg ?_).trans hheld
  rintro rfl
  rw [hnew] at hheld
  cases hheld

end Labelling

namespace Value

variable {labelling more : Labelling} {label : Label}

/-- The label of the value was given to it, and so for all values inside of it. -/
inductive Labelled (labelling : Labelling) : Value → Prop
  | intro {value : Value} (own : ∀ label, value.label? = some label → labelling label = some value)
    (parts : ∀ part ∈ value.parts, Labelled labelling part) (kind : value.kind ≠ .returned) :
    Labelled labelling value

/-- A value that needs no label and has nothing inside. -/
theorem labelled_scalar {value : Value} (hlabel : value.label? = none) (hparts : value.parts = [])
    (hkind : value.kind ≠ .returned) : value.Labelled labelling := by
  refine ⟨fun label howns ↦ ?_, fun part hmem ↦ ?_, hkind⟩
  · rw [hlabel] at howns
    cases howns
  · rw [hparts] at hmem
    cases hmem

theorem labelled_integer (value : Int64) : (integer value).Labelled labelling :=
  labelled_scalar rfl rfl nofun

theorem labelled_boolean (value : Bool) : (boolean value).Labelled labelling :=
  labelled_scalar rfl rfl nofun

theorem labelled_null : null.Labelled labelling :=
  labelled_scalar rfl rfl nofun

theorem labelled_builtin (builtin : Builtin) : (Value.builtin builtin).Labelled labelling :=
  labelled_scalar rfl rfl nofun

theorem labelled_error (message : String) : (error message).Labelled labelling :=
  labelled_scalar rfl rfl nofun

namespace Labelled

variable {value : Value}

theorem own (h : value.Labelled labelling) (hlabel : value.label? = some label) :
    labelling label = some value := by
  cases h with
  | intro own _ _ => exact own label hlabel

theorem part {part : Value} (h : value.Labelled labelling) (hpart : part ∈ value.parts) :
    part.Labelled labelling := by
  cases h with
  | intro _ parts _ => exact parts part hpart

theorem kind_ne (h : value.Labelled labelling) : value.kind ≠ .returned := by
  cases h with
  | intro _ _ kind => exact kind

theorem mono (h : value.Labelled labelling) (hgrows : labelling.Grows more) :
    value.Labelled more := by
  induction h with
  | intro own _ kind ih => exact ⟨fun label howns ↦ hgrows _ _ (own label howns), ih, kind⟩

/-- Of values with labels that were given once, those that are the same one are equal. -/
theorem eq_of_isSame {a b : Value} (ha : a.Labelled labelling) (hb : b.Labelled labelling)
    (h : a.isSame b) : a = b := by
  obtain ⟨identity, hfirst, hsecond⟩ := isSame_iff.mp h
  cases identity with
  | built kind label =>
    have hlabel : ∀ {value : Value}, value.identity? = some (.built kind label) →
        value.label? = some label := by
      intro value hvalue
      cases value <;> cases hvalue <;> rfl
    exact Option.some.inj ((ha.own (hlabel hfirst)).symm.trans (hb.own (hlabel hsecond)))
  | _ =>
    cases a <;> cases hfirst
    cases b <;> cases hsecond
    rfl

end Labelled

/-- The value or one inside of it. -/
inductive Within : Value → Value → Prop
  | whole (value : Value) : Within value value
  | part {value part whole : Value} (hpart : part ∈ whole.parts) (h : Within value part) :
    Within value whole

theorem Labelled.within {value whole : Value} (h : whole.Labelled labelling)
    (hwithin : value.Within whole) : value.Labelled labelling := by
  induction hwithin with
  | whole => exact h
  | part hpart _ ih => exact ih (h.part hpart)

/-! ### What operations build -/

/-- A value that was there, or one that is built of such values under the label. -/
inductive BuiltFrom (labelling : Labelling) (label : Label) (value : Value) : Prop
  | old (h : value.Labelled labelling)
  | new (own : value.label? = some label) (parts : ∀ part ∈ value.parts, part.Labelled labelling)
    (kind : value.kind ≠ .returned)

/-- A value that is built is labelled once its label is given to it. -/
theorem BuiltFrom.labelled {value : Value} (h : value.BuiltFrom labelling label)
    (hnew : labelling label = none) : value.Labelled (labelling.give label value) := by
  have hgrows := Labelling.grows_give hnew value
  cases h with
  | old h => exact h.mono hgrows
  | new own parts kind =>
    refine ⟨fun other hother ↦ if_pos ?_, fun part hmem ↦ (parts part hmem).mono hgrows, kind⟩
    exact Option.some.inj (hother.symm.trans own)

theorem builtFrom_operate {op : Opcode} {left right value : Value}
    (h : left.operate label op right = .ok value) : value.BuiltFrom labelling label := by
  unfold operate at h
  split at h
  · next first second =>
    cases hresult : operateIntegers op first second with
    | ok result =>
      rw [hresult] at h
      cases h
      exact .old (labelled_integer _)
    | error error =>
      rw [hresult] at h
      cases h
  · split at h <;> cases h
    exact .new rfl (by simp [parts]) nofun
  · cases h

theorem labelled_negate {value result : Value} (h : value.negate = .ok result) :
    result.Labelled labelling := by
  cases value <;> cases h
  exact labelled_integer _

theorem mem_of_find? {entries : Entries} {key : Key} {value : Value}
    (h : entries.find? key = some value) : ∃ other, (other, value) ∈ entries := by
  induction entries with
  | nil => cases h
  | cons entry rest ih =>
    simp only [Entries.find?] at h
    split at h
    · cases h
      exact ⟨_, List.mem_cons_self⟩
    · obtain ⟨other, hmem⟩ := ih h
      exact ⟨other, List.mem_cons_of_mem _ hmem⟩

theorem labelled_getD {found : Option Value}
    (h : ∀ value, found = some value → value.Labelled labelling) :
    (found.getD null).Labelled labelling := by
  cases found with
  | none => exact labelled_null
  | some value => exact h value rfl

theorem Labelled.lookUp {collection position value : Value} (h : collection.Labelled labelling)
    (hfound : collection.lookUp position = .ok value) : value.Labelled labelling := by
  unfold Value.lookUp at hfound
  split at hfound
  · cases hfound
    split
    · exact labelled_null
    · exact labelled_getD fun element helement ↦ h.part (List.mem_of_getElem? helement)
  · split at hfound
    · cases hfound
      refine labelled_getD fun held hheld ↦ ?_
      obtain ⟨other, hmem⟩ := mem_of_find? hheld
      exact h.part (List.mem_map_of_mem hmem)
    · cases hfound
  · cases hfound

/-- The values of a hash are among the items that it is made of. -/
theorem mem_addAll {entries result : Entries} {items : List Value} {key : Key} {value : Value}
    (h : entries.addAll items = .ok result) (hmem : (key, value) ∈ result) :
    (key, value) ∈ entries ∨ value ∈ items := by
  fun_induction Entries.addAll entries items with
  | case1 entries name held rest found hfound ih =>
    rcases ih h with hold | hrest
    · rcases mem_insert hold with hold | rfl
      · exact .inl hold
      · exact .inr (by simp)
    · exact .inr (by simp [hrest])
  | case2 => cases h
  | case3 =>
    cases h
    exact .inl hmem

theorem builtFrom_call {builtin : Builtin} {arguments : List Value}
    (h : ∀ argument ∈ arguments, argument.Labelled labelling) :
    (builtin.call label arguments).BuiltFrom labelling label := by
  have helements : ∀ {own : Label} {elements rest : List Value},
      arguments = .array own elements :: rest →
        ∀ element ∈ elements, element.Labelled labelling := by
    rintro own elements rest rfl element hmem
    exact (h _ List.mem_cons_self).part hmem
  cases builtin with
  | len =>
    refine .old ?_
    simp only [Builtin.call]
    fun_cases Builtin.callLen with
    | case1 | case2 => exact labelled_integer _
    | case3 | case4 => exact labelled_error _
  | puts => exact .old labelled_null
  | first =>
    refine .old ?_
    simp only [Builtin.call]
    fun_cases Builtin.callElement with
    | case1 =>
      exact labelled_getD fun value hvalue ↦ helements rfl value (List.mem_of_head? hvalue)
    | case2 | case3 => exact labelled_error _
  | last =>
    refine .old ?_
    simp only [Builtin.call]
    fun_cases Builtin.callElement with
    | case1 =>
      exact labelled_getD fun value hvalue ↦ helements rfl value (List.mem_of_getLast? hvalue)
    | case2 | case3 => exact labelled_error _
  | rest =>
    simp only [Builtin.call]
    fun_cases Builtin.callRest with
    | case1 => exact .old labelled_null
    | case2 =>
      refine .new rfl (fun part hmem ↦ helements rfl part (List.mem_cons_of_mem _ hmem)) ?_
      rintro ⟨⟩
    | case3 | case4 => exact .old (labelled_error _)
  | push =>
    simp only [Builtin.call]
    fun_cases Builtin.callPush with
    | case1 own elements value =>
      refine .new rfl (fun part hmem ↦ ?_) (by rintro ⟨⟩)
      rcases List.mem_append.mp hmem with hold | hlast
      · exact helements rfl part hold
      · rw [List.mem_singleton.mp hlast]
        exact h _ (by simp)
    | case2 | case3 => exact .old (labelled_error _)

end Value

end StackScript
