import Mathlib.Logic.Function.Basic
import StackScript.Proofs.Value.Identity
import StackScript.Proofs.Value.Related

/-!
Values with other labels. Labels are given to values when these are built, and looked at by nothing
but comparison. So each operation on values commutes with giving all labels anew
(`Value.operate_relabel`, `Value.lookUp_relabel`, `Builtin.call_relabel`), texts do not change
(`Value.inspect_relabel`), and comparison says the same as long as no two labels become one
(`Value.compare_relabel`).
-/

set_option autoImplicit false
set_option relaxedAutoImplicit false

open Function (Injective)

namespace StackScript

variable {Body : Type} {rename : Label → Label}

/-- What is compared of a value whose labels are given anew. -/
def Identity.relabel (rename : Label → Label) : Identity → Identity
  | built kind label => built kind (rename label)
  | other => other

theorem Identity.relabel_injective (h : Injective rename) :
    Injective (Identity.relabel rename) := by
  intro first second hsame
  cases first <;> cases second <;> simp_all [relabel, h.eq_iff]

namespace Value

mutual

/-- The same value with other labels, those of the values inside of it among them. -/
def relabel (rename : Label → Label) : Value Body → Value Body
  | integer value => integer value
  | boolean value => boolean value
  | null => null
  | string label content => string (rename label) content
  | array label elements => array (rename label) (relabelAll rename elements)
  | hash label entries => hash (rename label) (relabelEntries rename entries)
  | routine label body => routine (rename label) body
  | closure label body free => closure (rename label) body (relabelAll rename free)
  | builtin function => builtin function
  | error message => error message
  | returned value => returned (relabel rename value)

def relabelAll (rename : Label → Label) : List (Value Body) → List (Value Body)
  | [] => []
  | value :: rest => relabel rename value :: relabelAll rename rest

def relabelEntries (rename : Label → Label) : List (Key × Value Body) → List (Key × Value Body)
  | [] => []
  | (key, value) :: rest => (key, relabel rename value) :: relabelEntries rename rest

end

theorem relabelAll_eq_map (values : List (Value Body)) :
    relabelAll rename values = values.map (relabel rename) := by
  induction values with
  | nil => rfl
  | cons value rest ih => rw [relabelAll, ih, List.map_cons]

theorem relabelEntries_eq_map (entries : List (Key × Value Body)) :
    relabelEntries rename entries = entries.map (Prod.map id (relabel rename)) := by
  induction entries with
  | nil => rfl
  | cons entry rest ih => rw [relabelEntries, ih, List.map_cons, Prod.map, id]

@[simp] theorem length_relabelAll (values : List (Value Body)) :
    (relabelAll rename values).length = values.length := by
  rw [relabelAll_eq_map, List.length_map]

@[simp] theorem kind_relabel (value : Value Body) : (value.relabel rename).kind = value.kind := by
  cases value <;> rfl

@[simp] theorem isTruthy_relabel (value : Value Body) :
    (value.relabel rename).isTruthy = value.isTruthy := by
  cases value with
  | boolean value => cases value <;> rfl
  | _ => rfl

@[simp] theorem key?_relabel (value : Value Body) : (value.relabel rename).key? = value.key? := by
  cases value <;> rfl

theorem relabel_getD (found : Option (Value Body)) :
    (found.map (relabel rename)).getD null = (found.getD null).relabel rename := by
  cases found <;> rfl

/-! ### Operations -/

theorem operate_relabel (label : Label) (op : Opcode) (left right : Value Body) :
    (left.relabel rename).operate (rename label) op (right.relabel rename) =
      (left.operate label op right).map (relabel rename) := by
  cases left with
  | integer first =>
    cases right with
    | integer second =>
      simp only [relabel, operate]
      cases operateIntegers op first second <;> rfl
    | _ => rfl
  | string firstLabel first =>
    cases right with
    | string secondLabel second =>
      simp only [relabel, operate]
      split <;> rfl
    | _ => rfl
  | _ => cases right <;> rfl

theorem identity?_relabel (value : Value Body) :
    (value.relabel rename).identity? = value.identity?.map (Identity.relabel rename) := by
  cases value <;> rfl

theorem isSame_relabel (h : Injective rename) (left right : Value Body) :
    (left.relabel rename).isSame (right.relabel rename) = left.isSame right := by
  rw [Bool.eq_iff_iff, isSame_iff, isSame_iff, identity?_relabel, identity?_relabel]
  constructor
  · rintro ⟨_, hleft, hright⟩
    obtain ⟨identity, hfirst, rfl⟩ := Option.map_eq_some_iff.mp hleft
    obtain ⟨other, hsecond, hsame⟩ := Option.map_eq_some_iff.mp hright
    obtain rfl := Identity.relabel_injective h hsame
    exact ⟨other, hfirst, hsecond⟩
  · rintro ⟨identity, hleft, hright⟩
    exact ⟨identity.relabel rename, by rw [hleft]; rfl, by rw [hright]; rfl⟩

theorem eq_integer_of_relabel {value : Value Body} {number : Int64}
    (h : value.relabel rename = integer number) : value = integer number := by
  cases value <;> cases h
  rfl

theorem compare_relabel (h : Injective rename) (op : Opcode) (left right : Value Body) :
    (left.relabel rename).compare op (right.relabel rename) = left.compare op right := by
  fun_cases Value.compare op left right with
  | case1 => rfl
  | case2 => rw [compare_equal, isSame_relabel h]
  | case3 => rw [compare_notEqual, isSame_relabel h]
  | case4 =>
    rename_i hequal hnotEqual hnumbers
    unfold compare
    split
    · next hleft hright =>
      exact (hnumbers _ _ (eq_integer_of_relabel hleft) (eq_integer_of_relabel hright)).elim
    · split
      · exact (hequal rfl).elim
      · exact (hnotEqual rfl).elim
      · rw [kind_relabel, kind_relabel]

theorem negate_relabel (value : Value Body) :
    (value.relabel rename).negate = value.negate.map (relabel rename) := by
  cases value <;> rfl

theorem find?_relabelEntries (entries : Entries Body) (key : Key) :
    Entries.find? key (relabelEntries rename entries) =
      (entries.find? key).map (relabel rename) := by
  induction entries with
  | nil => rfl
  | cons entry rest ih =>
    simp only [relabelEntries, Entries.find?, ih]
    split <;> rfl

theorem insert_relabelEntries (entries : Entries Body) (key : Key) (value : Value Body) :
    Entries.insert key (value.relabel rename) (relabelEntries rename entries) =
      relabelEntries rename (entries.insert key value) := by
  induction entries with
  | nil => rfl
  | cons entry rest ih =>
    simp only [relabelEntries, Entries.insert, ih]
    split
    · rfl
    split <;> rfl

theorem lookUp_relabel (collection position : Value Body) :
    (collection.relabel rename).lookUp (position.relabel rename) =
      (collection.lookUp position).map (relabel rename) := by
  cases collection with
  | array label elements =>
    cases position with
    | integer index =>
      simp only [relabel, lookUp, relabelAll_eq_map, List.getElem?_map, relabel_getD]
      split <;> rfl
    | _ => rfl
  | hash label entries =>
    simp only [relabel, lookUp, key?_relabel, kind_relabel, find?_relabelEntries]
    cases position.key? with
    | none => rfl
    | some key => exact congrArg Except.ok (relabel_getD _)
  | _ => rfl

theorem addAll_relabel (entries : Entries Body) (items : List (Value Body)) :
    Entries.addAll (relabelEntries rename entries) (relabelAll rename items) =
      (entries.addAll items).map (relabelEntries rename) := by
  fun_induction Entries.addAll entries items with
  | case1 entries name held rest found hfound ih =>
    simp only [relabelAll, Entries.addAll, key?_relabel, hfound, insert_relabelEntries, ih]
  | case2 entries name held rest hfound =>
    simp only [relabelAll, Entries.addAll, key?_relabel, hfound, kind_relabel]
    rfl
  | case3 items entries hitems =>
    rcases items with _ | ⟨key, _ | ⟨value, rest⟩⟩
    · rfl
    · rfl
    · exact (hitems key value rest rfl).elim

/-! ### Texts -/

mutual

@[simp] theorem inspect_relabel : (value : Value Body) →
    (value.relabel rename).inspect = value.inspect
  | .array _ elements =>
    congrArg (fun texts ↦ "[" ++ ", ".intercalate texts ++ "]") (inspectAll_relabelAll elements)
  | .hash _ entries =>
    congrArg (fun texts ↦ "\x7b" ++ ", ".intercalate texts ++ "\x7d")
      (inspectEntries_relabelEntries entries)
  | .closure _ _ free =>
    congrArg (fun count : Nat ↦ s!"Closure[{count} free]") (length_relabelAll free)
  | .returned value => inspect_relabel value
  | .integer _ | .boolean _ | .null | .string _ _ | .builtin _ | .error _ | .routine _ _ => rfl

theorem inspectAll_relabelAll : (values : List (Value Body)) →
    inspectAll (relabelAll rename values) = inspectAll values
  | [] => rfl
  | value :: rest =>
    congrArg₂ List.cons (inspect_relabel value) (inspectAll_relabelAll rest)

theorem inspectEntries_relabelEntries : (entries : List (Key × Value Body)) →
    inspectEntries (relabelEntries rename entries) = inspectEntries entries
  | [] => rfl
  | (key, value) :: rest =>
    congrArg₂ List.cons (congrArg (key.text ++ ": " ++ ·) (inspect_relabel value))
      (inspectEntries_relabelEntries rest)

end

end Value

/-! ### Provided functions -/

namespace Builtin

open Value

theorem printed_relabel (builtin : Builtin) (arguments : List (Value Body)) :
    builtin.printed (relabelAll rename arguments) = builtin.printed arguments := by
  cases builtin with
  | puts => simp only [printed, relabelAll_eq_map, List.foldl_map, inspect_relabel]
  | _ => rfl

theorem callElement_relabel (builtin : Builtin) {element? : List (Value Body) → Option (Value Body)}
    (h : ∀ elements, element? (elements.map (relabel rename)) =
      (element? elements).map (relabel rename)) (arguments : List (Value Body)) :
    builtin.callElement element? (relabelAll rename arguments) =
      (builtin.callElement element? arguments).relabel rename := by
  rcases arguments with _ | ⟨argument, _ | ⟨two, more⟩⟩
  · rfl
  · cases argument with
    | array label elements =>
      simp only [relabelAll, relabel, callElement, relabelAll_eq_map, h, relabel_getD]
    | _ => rfl
  · cases argument <;> simp [relabelAll, relabel, callElement, wrongCount]

/-- A call of a provided function looks at no label. -/
theorem call_relabel (label : Label) (builtin : Builtin) (arguments : List (Value Body)) :
    builtin.call (rename label) (relabelAll rename arguments) =
      (builtin.call label arguments).relabel rename := by
  cases builtin with
  | len =>
    rcases arguments with _ | ⟨argument, _ | ⟨two, more⟩⟩
    · rfl
    · cases argument <;> simp [relabelAll, relabel, call, callLen, Value.kind]
    · cases argument <;> simp [relabelAll, relabel, call, callLen, wrongCount]
  | puts => rfl
  | first => exact callElement_relabel first (fun elements ↦ List.head?_map) arguments
  | last => exact callElement_relabel last (fun elements ↦ List.getLast?_map) arguments
  | rest =>
    rcases arguments with _ | ⟨argument, _ | ⟨two, more⟩⟩
    · rfl
    · cases argument with
      | array label elements => cases elements <;> rfl
      | _ => rfl
    · cases argument <;> simp [relabelAll, relabel, call, callRest, wrongCount]
  | push =>
    rcases arguments with _ | ⟨argument, _ | ⟨added, _ | ⟨three, more⟩⟩⟩
    · rfl
    · cases argument <;> rfl
    · cases argument with
      | array label elements => simp [relabelAll, relabel, call, callPush, relabelAll_eq_map]
      | _ => rfl
    · cases argument <;> simp [relabelAll, relabel, call, callPush, wrongCount]

end Builtin

end StackScript
