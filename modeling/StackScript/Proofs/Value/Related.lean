import StackScript.Machine.Operation
import Mathlib.Data.List.Forall2

/-!
Values that differ only in what their functions are run from. Related values have the same shape and
the same labels, and wherever one holds a function the other holds one with a related body. No
operation tells them apart: both sides yield related values, or fail with the same error.
-/

set_option autoImplicit false
set_option relaxedAutoImplicit false

namespace StackScript

variable {Body Other : Type}

/-- The same value but for the bodies of functions, which are related, given the number of captured
values. -/
inductive Value.Related (relation : Body → Other → Nat → Prop) : Value Body → Value Other → Prop
  | integer (value : Int64) : Related relation (.integer value) (.integer value)
  | boolean (value : Bool) : Related relation (.boolean value) (.boolean value)
  | null : Related relation .null .null
  | string (label : Label) (content : String) :
    Related relation (.string label content) (.string label content)
  | array (label : Label) {elements : List (Value Body)} {others : List (Value Other)}
    (helements : List.Forall₂ (Related relation) elements others) :
    Related relation (.array label elements) (.array label others)
  | hash (label : Label) {entries : List (Key × Value Body)} {others : List (Key × Value Other)}
    (hkeys : entries.map Prod.fst = others.map Prod.fst)
    (hvalues : List.Forall₂ (Related relation) (entries.map Prod.snd) (others.map Prod.snd)) :
    Related relation (.hash label entries) (.hash label others)
  | closure (label : Label) {body : Body} {other : Other} {free : List (Value Body)}
    {others : List (Value Other)} (hbody : relation body other others.length)
    (hfree : List.Forall₂ (Related relation) free others) :
    Related relation (.closure label body free) (.closure label other others)
  | builtin (builtin : Builtin) : Related relation (.builtin builtin) (.builtin builtin)
  | error (message : String) : Related relation (.error message) (.error message)

/-- The same keys with related values. -/
def Entries.Related (relation : Body → Other → Nat → Prop) (entries : Entries Body)
    (others : Entries Other) : Prop :=
  List.Forall₂ (fun entry other ↦ entry.1 = other.1 ∧ entry.2.Related relation other.2) entries
    others

/-- Both fail with the same error, or both yield related results. -/
def Agree {ε α β : Type} (relation : α → β → Prop) : Except ε α → Except ε β → Prop
  | .ok first, .ok second => relation first second
  | .error first, .error second => first = second
  | _, _ => False

variable {relation : Body → Other → Nat → Prop}

theorem Entries.related_iff {entries : Entries Body} {others : Entries Other} :
    entries.Related relation others ↔ entries.map Prod.fst = others.map Prod.fst ∧
      List.Forall₂ (Value.Related relation) (entries.map Prod.snd) (others.map Prod.snd) := by
  induction entries generalizing others with
  | nil => cases others <;> simp [Related]
  | cons entry rest ih =>
    cases others with
    | nil => simp [Related]
    | cons other others =>
      simp only [Related, List.forall₂_cons, List.map_cons, List.cons.injEq] at ih ⊢
      rw [ih]
      tauto

namespace Value.Related

variable {value second : Value Body} {other third : Value Other}

theorem kind_eq (h : value.Related relation other) : value.kind = other.kind := by
  cases h <;> rfl

theorem isTruthy_eq (h : value.Related relation other) : value.isTruthy = other.isTruthy := by
  cases h with
  | boolean value => cases value <;> rfl
  | _ => rfl

theorem key?_eq (h : value.Related relation other) : value.key? = other.key? := by
  cases h <;> rfl

theorem operate (h : value.Related relation other) (hsecond : second.Related relation third)
    (label : Label) (op : Opcode) :
    Agree (Value.Related relation) (value.operate label op second)
      (other.operate label op third) := by
  have hkind := h.kind_eq
  have hsecondKind := hsecond.kind_eq
  cases h with
  | integer first =>
    cases hsecond with
    | integer second =>
      simp only [Value.operate]
      cases operateIntegers op first second with
      | ok value => exact .integer value
      | error error => rfl
    | _ => rfl
  | string firstLabel first =>
    cases hsecond with
    | string secondLabel second =>
      simp only [Value.operate]
      split
      · exact .string label _
      · rfl
    | _ => rfl
  | _ =>
    cases hsecond <;> rfl

theorem compare_eq (h : value.Related relation other) (hsecond : second.Related relation third)
    (op : Opcode) : value.compare op second = other.compare op third := by
  cases h <;> cases hsecond <;> rfl

theorem negate (h : value.Related relation other) :
    Agree (Value.Related relation) value.negate other.negate := by
  cases h with
  | integer value => exact .integer _
  | _ => rfl

end Value.Related

/-! ### Collections -/

namespace Entries.Related

variable {entries : Entries Body} {others : Entries Other} {value : Value Body}
  {other : Value Other}

theorem find? (h : entries.Related relation others) (key : Key) :
    Option.Rel (Value.Related relation) (entries.find? key) (others.find? key) := by
  induction h with
  | nil => exact .none
  | @cons entry other _ _ hone _ ih =>
    obtain ⟨name, held⟩ := entry
    obtain ⟨name', held'⟩ := other
    obtain ⟨rfl, hvalue⟩ := hone
    simp only [Entries.find?]
    split
    · exact .some hvalue
    · exact ih

theorem insert (h : entries.Related relation others) (hvalue : value.Related relation other)
    (key : Key) :
    Entries.Related relation (entries.insert key value) (others.insert key other) := by
  induction h with
  | nil => exact .cons ⟨rfl, hvalue⟩ .nil
  | @cons entry other _ _ hone hrest ih =>
    obtain ⟨name, held⟩ := entry
    obtain ⟨name', held'⟩ := other
    obtain ⟨rfl, hheld⟩ := hone
    simp only [Entries.insert]
    split
    · exact .cons ⟨rfl, hvalue⟩ hrest
    split
    · exact .cons ⟨rfl, hvalue⟩ (.cons ⟨rfl, hheld⟩ hrest)
    · exact .cons ⟨rfl, hheld⟩ ih

theorem addAll {entries : Entries Body} {others : Entries Other} {items : List (Value Body)}
    {itemsOther : List (Value Other)} (h : entries.Related relation others)
    (hitems : List.Forall₂ (Value.Related relation) items itemsOther) :
    Agree (Entries.Related relation) (entries.addAll items) (others.addAll itemsOther) := by
  match hitems with
  | .nil => exact h
  | .cons _ .nil => exact h
  | .cons (a := key) (b := keyOther) hkey (.cons hvalue hrest) =>
    simp only [Entries.addAll, hkey.key?_eq, hkey.kind_eq]
    cases keyOther.key? with
    | none => rfl
    | some found => exact (h.insert hvalue found).addAll hrest

end Entries.Related

theorem Value.Related.of_option {value : Option (Value Body)} {other : Option (Value Other)}
    (h : Option.Rel (Value.Related relation) value other) :
    (value.getD .null).Related relation (other.getD .null) := by
  cases h with
  | some hvalue => exact hvalue
  | none => exact .null

theorem rel_getElem? {α β : Type} {related : α → β → Prop} {values : List α} {others : List β}
    (h : List.Forall₂ related values others) (index : Nat) :
    Option.Rel related values[index]? others[index]? := by
  induction h generalizing index with
  | nil => exact .none
  | cons hone _ ih =>
    cases index with
    | zero => exact .some hone
    | succ index => exact ih index

theorem Value.Related.lookUp {collection position : Value Body}
    {collectionOther positionOther : Value Other}
    (h : collection.Related relation collectionOther)
    (hposition : position.Related relation positionOther) :
    Agree (Value.Related relation) (collection.lookUp position)
      (collectionOther.lookUp positionOther) := by
  cases h with
  | array label helements =>
    cases hposition with
    | integer index =>
      simp only [Value.lookUp]
      split
      · exact .null
      · exact .of_option (rel_getElem? helements _)
    | _ => rfl
  | hash label hkeys hvalues =>
    have hentries := Entries.related_iff.mpr ⟨hkeys, hvalues⟩
    simp only [Value.lookUp, hposition.key?_eq, hposition.kind_eq]
    cases positionOther.key? with
    | none => rfl
    | some key => exact .of_option (hentries.find? key)
  | _ => rfl

/-! ### Texts -/

mutual

/-- Related values are shown alike. -/
theorem Value.Related.inspect_eq : (value : Value Body) → ∀ other : Value Other,
    value.Related relation other → value.inspect = other.inspect
  | .array _ elements, _, h => by
    cases h with
    | array _ helements =>
      exact congrArg (fun texts ↦ "[" ++ ", ".intercalate texts ++ "]")
        (inspectAll_eq elements _ helements)
  | .hash _ entries, _, h => by
    cases h with
    | hash _ hkeys hvalues =>
      have hentries := Entries.related_iff.mpr ⟨hkeys, hvalues⟩
      exact congrArg (fun texts ↦ "\x7b" ++ ", ".intercalate texts ++ "\x7d")
        (inspectEntries_eq entries _ hentries)
  | .closure _ _ _, _, h => by
    cases h with
    | closure _ _ hfree =>
      exact congrArg (fun count : Nat ↦ s!"Closure[{count} free]") hfree.length_eq
  | .integer _, _, h | .boolean _, _, h | .null, _, h | .string _ _, _, h | .builtin _, _, h
  | .error _, _, h | .routine _ _, _, h | .returned _, _, h => by
    cases h
    all_goals rfl

theorem Value.Related.inspectAll_eq : (values : List (Value Body)) →
    ∀ others : List (Value Other), List.Forall₂ (Value.Related relation) values others →
      inspectAll values = inspectAll others
  | [], _, h => by
    cases h
    rfl
  | value :: rest, _, h => by
    cases h with
    | cons hone hrest =>
      exact congrArg₂ List.cons (inspect_eq value _ hone) (inspectAll_eq rest _ hrest)

theorem Value.Related.inspectEntries_eq : (entries : List (Key × Value Body)) →
    ∀ others : Entries Other, Entries.Related relation entries others →
      inspectEntries entries = inspectEntries others
  | [], _, h => by
    cases h
    rfl
  | (key, value) :: rest, _, h => by
    obtain ⟨⟨name, other⟩, others, ⟨hkey, hvalue⟩, hrest, rfl⟩ := List.forall₂_cons_left_iff.mp h
    obtain rfl : key = name := hkey
    exact congrArg₂ List.cons (congrArg (key.text ++ ": " ++ ·) (inspect_eq value other hvalue))
      (inspectEntries_eq rest others hrest)

end

/-! ### Provided functions -/

namespace Builtin

variable {values : List (Value Body)} {others : List (Value Other)}

/-- Calls print the same. -/
theorem printed_eq (h : List.Forall₂ (Value.Related relation) values others) (builtin : Builtin) :
    builtin.printed values = builtin.printed others := by
  have hfold : ∀ text : String,
      values.foldl (fun text argument ↦ text ++ argument.inspect ++ "\n") text =
        others.foldl (fun text argument ↦ text ++ argument.inspect ++ "\n") text := by
    induction h with
    | nil => exact fun _ ↦ rfl
    | cons hone _ ih =>
      intro text
      rw [List.foldl_cons, List.foldl_cons, hone.inspect_eq]
      exact ih _
  cases builtin with
  | puts => exact hfold ""
  | _ => rfl

theorem wrongCount_related (h : List.Forall₂ (Value.Related relation) values others)
    (wanted : Nat) :
    Value.Related relation (wrongCount values wanted) (wrongCount others wanted) := by
  unfold wrongCount
  rw [h.length_eq]
  exact .error _

theorem callLen_related (h : List.Forall₂ (Value.Related relation) values others) :
    Value.Related relation (callLen values) (callLen others) := by
  match h with
  | .nil => exact wrongCount_related .nil 1
  | .cons hone .nil =>
    cases hone with
    | string => exact .integer _
    | array _ helements =>
      simp only [callLen, helements.length_eq]
      exact .integer _
    | _ => exact .error _
  | .cons hone (.cons hsecond hrest) =>
    have hcount := wrongCount_related (.cons hone (.cons hsecond hrest)) 1
    cases hone <;> exact hcount

theorem callElement_related (h : List.Forall₂ (Value.Related relation) values others)
    (builtin : Builtin) {element? : List (Value Body) → Option (Value Body)}
    {elementOther? : List (Value Other) → Option (Value Other)}
    (helement : ∀ elements elementsOther,
      List.Forall₂ (Value.Related relation) elements elementsOther →
        Option.Rel (Value.Related relation) (element? elements) (elementOther? elementsOther)) :
    Value.Related relation (builtin.callElement element? values)
      (builtin.callElement elementOther? others) := by
  match h with
  | .nil => exact wrongCount_related .nil 1
  | .cons hone .nil =>
    cases hone with
    | array _ helements => exact .of_option (helement _ _ helements)
    | _ => exact .error _
  | .cons hone (.cons hsecond hrest) =>
    have hcount := wrongCount_related (.cons hone (.cons hsecond hrest)) 1
    cases hone <;> exact hcount

theorem callRest_related (h : List.Forall₂ (Value.Related relation) values others)
    (label : Label) :
    Value.Related relation (callRest label values) (callRest label others) := by
  match h with
  | .nil => exact wrongCount_related .nil 1
  | .cons hone .nil =>
    cases hone with
    | array _ helements =>
      cases helements with
      | nil => exact .null
      | cons _ hothers => exact .array label hothers
    | _ => exact .error _
  | .cons hone (.cons hsecond hrest) =>
    have hcount := wrongCount_related (.cons hone (.cons hsecond hrest)) 1
    cases hone with
    | array _ helements => cases helements <;> exact hcount
    | _ => exact hcount

theorem callPush_related (h : List.Forall₂ (Value.Related relation) values others)
    (label : Label) :
    Value.Related relation (callPush label values) (callPush label others) := by
  match h with
  | .nil => exact wrongCount_related .nil 2
  | .cons hone .nil =>
    have hcount := wrongCount_related (.cons hone .nil) 2
    cases hone <;> exact hcount
  | .cons hone (.cons hsecond .nil) =>
    cases hone with
    | array _ helements => exact .array label (List.rel_append helements (.cons hsecond .nil))
    | _ => exact .error _
  | .cons hone (.cons hsecond (.cons hthird hrest)) =>
    have hcount := wrongCount_related (.cons hone (.cons hsecond (.cons hthird hrest))) 2
    cases hone <;> exact hcount

/-- Calls yield related values. -/
theorem call_related (h : List.Forall₂ (Value.Related relation) values others) (label : Label)
    (builtin : Builtin) :
    Value.Related relation (builtin.call label values) (builtin.call label others) := by
  cases builtin with
  | len => exact callLen_related h
  | puts => exact .null
  | first =>
    refine callElement_related h first fun elements elementsOther helements ↦ ?_
    cases helements with
    | nil => exact .none
    | cons hone _ => exact .some hone
  | last =>
    refine callElement_related h last fun elements elementsOther helements ↦ ?_
    rw [List.getLast?_eq_getElem?, List.getLast?_eq_getElem?, helements.length_eq]
    exact rel_getElem? helements _
  | rest => exact callRest_related h label
  | push => exact callPush_related h label

end Builtin

end StackScript
