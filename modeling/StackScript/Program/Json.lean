import StackScript.Program
import StackScript.Json.Reader

/-!
Programs as JSON. Each form of expression or statement is an object of one member, named for the
form. A record is written as an object of its fields; when read it may also be an array of them in
order, and members that are no fields are passed over. The structure alone sets no limit to the
nesting; a text that is read has one.
-/

set_option autoImplicit false
set_option relaxedAutoImplicit false

namespace StackScript

namespace Json

/-- The form that a value has, and what it holds. -/
def tagged (tag : String) (body : Json) : Json :=
  object [member tag body]

def ofOption : Option String → Json
  | some content => ofText content
  | none => null

end Json

open Json (member ofText tagged)

mutual

def Expr.toJson : Expr → Json
  | .ident name => tagged "Ident" (ofText name)
  | .int value => tagged "Int" (.integer value.toInt)
  | .str content => tagged "Str" (ofText content)
  | .bool value => tagged "Bool" (.bool value)
  | .unary op operand =>
    tagged "Prefix" (.object [member "op" (ofText op), member "right" operand.toJson])
  | .binary op left right =>
    tagged "Infix" (.object [member "op" (ofText op), member "left" left.toJson,
      member "right" right.toJson])
  | .branch condition consequence alternative =>
    tagged "If" (.object [member "condition" condition.toJson,
      member "consequence" (.object [member "statements" (.array (Stmt.listToJson consequence))]),
      member "alternative" (Stmt.blockToJson? alternative)])
  | .function parameters body name =>
    tagged "Function" (.object [member "parameters" (.array (parameters.map ofText)),
      member "body" (.object [member "statements" (.array (Stmt.listToJson body))]),
      member "name" (Json.ofOption name)])
  | .call callee arguments =>
    tagged "Call" (.object [member "function" callee.toJson,
      member "arguments" (.array (Expr.listToJson arguments))])
  | .array elements => tagged "Array" (.array (Expr.listToJson elements))
  | .hash pairs => tagged "Hash" (.array (Expr.pairsToJson pairs))
  | .index collection position =>
    tagged "Index" (.object [member "left" collection.toJson, member "index" position.toJson])

def Stmt.toJson : Stmt → Json
  | .bind name value =>
    tagged "Let" (.object [member "name" (ofText name), member "value" value.toJson])
  | .ret value => tagged "Return" value.toJson
  | .eval expr => tagged "Expr" expr.toJson

def Stmt.listToJson : List Stmt → List Json
  | [] => []
  | stmt :: rest => stmt.toJson :: Stmt.listToJson rest

def Stmt.blockToJson? : Option (List Stmt) → Json
  | none => .null
  | some block => .object [member "statements" (.array (Stmt.listToJson block))]

def Expr.listToJson : List Expr → List Json
  | [] => []
  | expr :: rest => expr.toJson :: Expr.listToJson rest

def Expr.pairsToJson : List (Expr × Expr) → List Json
  | [] => []
  | (key, value) :: rest => .array [key.toJson, value.toJson] :: Expr.pairsToJson rest

end

def Program.toJson (program : Program) : Json :=
  .object [member "statements" (.array (Stmt.listToJson program.statements))]

namespace Json

/-- The members of an object with their names decoded. -/
def named? : List (List Char × Json) → Option (List (String × Json))
  | [] => some []
  | (key, value) :: rest => do
    return (String.ofList (← decode? key), value) :: (← named? rest)

/-- The field of this name, if there is one; more than one are refused. -/
def field? (members : List (String × Json)) (name : String) : Option (Option Json) :=
  match members.filter fun member ↦ member.1 == name with
  | [] => some none
  | [(_, value)] => some (some value)
  | _ => none

/-- The fields of a record, in the order of `names`. From an array, at least the first `least`
of them. -/
def fields? (names : List String) (least : Nat) : Json → Option (List (Option Json))
  | object members => do
    let members ← named? members
    names.mapM (field? members)
  | array elements =>
    if least ≤ elements.length ∧ elements.length ≤ names.length then
      some (elements.map some ++ List.replicate (names.length - elements.length) none)
    else none
  | _ => none

/-- The form that a value has, and what it holds. -/
def variant? : Json → Option (String × Json)
  | object [(key, body)] => (decode? key).map fun tag ↦ (String.ofList tag, body)
  | _ => none

def elements? : Json → Option (List Json)
  | array elements => some elements
  | _ => none

def bool? : Json → Option Bool
  | bool value => some value
  | _ => none

/-- A whole number of 64 bits. -/
def int64? : Json → Option Int64
  | integer value =>
    if Int64.minValue.toInt ≤ value ∧ value ≤ Int64.maxValue.toInt then some (Int64.ofInt value)
    else none
  | _ => none

/-- A text, or null for its absence. -/
def optionalText? : Option Json → Option (Option String)
  | none => some none
  | some null => some none
  | some json => json.text?.map some

theorem sizeOf_of_mem_named? {members : List (List Char × Json)} {found : List (String × Json)}
    (h : named? members = some found) {pair : String × Json} (mem : pair ∈ found) :
    sizeOf pair.2 < sizeOf members := by
  induction members generalizing found with
  | nil => simp_all [named?]
  | cons head rest ih =>
    obtain ⟨key, value⟩ := head
    simp only [named?, Option.pure_def, Option.bind_eq_bind, Option.bind_eq_some_iff,
      Option.some.injEq] at h
    obtain ⟨name, _, others, hothers, rfl⟩ := h
    rcases List.mem_cons.mp mem with rfl | mem
    · simp only [List.cons.sizeOf_spec, Prod.mk.sizeOf_spec]
      omega
    · have := ih hothers mem
      simp only [List.cons.sizeOf_spec]
      omega

theorem mem_of_field? {members : List (String × Json)} {name : String} {value : Json}
    (h : field? members name = some (some value)) : ∃ key, (key, value) ∈ members := by
  unfold field? at h
  split at h
  · simp at h
  · next key found hfilter =>
    simp only [Option.some.injEq] at h
    subst h
    exact ⟨key, (List.mem_filter.mp (hfilter ▸ List.mem_singleton_self _)).1⟩
  · simp at h

theorem mem_of_mapM {α β : Type} {f : α → Option β} {xs : List α} {ys : List β}
    (h : xs.mapM f = some ys) {y : β} (mem : y ∈ ys) : ∃ x, f x = some y := by
  induction xs generalizing ys with
  | nil =>
    simp only [List.mapM_nil, Option.pure_def, Option.some.injEq] at h
    simp [← h] at mem
  | cons x rest ih =>
    simp only [List.mapM_cons, Option.pure_def, Option.bind_eq_bind, Option.bind_eq_some_iff,
      Option.some.injEq] at h
    obtain ⟨z, hz, zs, hzs, rfl⟩ := h
    rcases List.mem_cons.mp mem with rfl | mem
    · exact ⟨x, hz⟩
    · exact ih hzs mem

/-- A field is smaller than its record. -/
theorem sizeOf_of_mem_fields? {names : List String} {least : Nat} {json value : Json}
    {found : List (Option Json)} (h : json.fields? names least = some found)
    (mem : some value ∈ found) : sizeOf value < sizeOf json := by
  unfold fields? at h
  split at h
  · next members =>
    simp only [Option.bind_eq_bind, Option.bind_eq_some_iff] at h
    obtain ⟨pairs, hpairs, hfound⟩ := h
    obtain ⟨name, hname⟩ := mem_of_mapM hfound mem
    obtain ⟨key, hkey⟩ := mem_of_field? hname
    have inside : sizeOf value < sizeOf members := sizeOf_of_mem_named? hpairs hkey
    simp only [object.sizeOf_spec]
    omega
  · next elements =>
    split at h
    · simp only [Option.some.injEq] at h
      subst h
      simp only [List.mem_append, List.mem_map, Option.some.injEq, exists_eq_right,
        List.mem_replicate, reduceCtorEq, and_false, or_false] at mem
      have := List.sizeOf_lt_of_mem mem
      simp only [array.sizeOf_spec]
      omega
    · simp at h
  · simp at h

/-- What a form holds is smaller than the whole. -/
theorem sizeOf_of_variant? {json body : Json} {tag : String}
    (h : json.variant? = some (tag, body)) : sizeOf body < sizeOf json := by
  unfold variant? at h
  split at h
  · next key value =>
    simp only [Option.map_eq_some_iff, Prod.mk.injEq] at h
    obtain ⟨_, _, _, rfl⟩ := h
    simp only [object.sizeOf_spec, List.cons.sizeOf_spec, Prod.mk.sizeOf_spec]
    omega
  · simp at h

theorem sizeOf_of_elements? {json : Json} {elements : List Json}
    (h : json.elements? = some elements) : sizeOf elements < sizeOf json := by
  unfold elements? at h
  split at h
  · simp only [Option.some.injEq] at h
    subst h
    simp
  · simp at h

end Json

mutual

def Expr.ofJson? (json : Json) : Option Expr :=
  match _ : json.variant? with
  | some ("Ident", body) => body.text?.map .ident
  | some ("Int", body) => body.int64?.map .int
  | some ("Str", body) => body.text?.map .str
  | some ("Bool", body) => body.bool?.map .bool
  | some ("Prefix", body) =>
    match _ : body.fields? ["op", "right"] 2 with
    | some [some op, some right] => do
      return .unary (← op.text?) (← Expr.ofJson? right)
    | _ => none
  | some ("Infix", body) =>
    match _ : body.fields? ["op", "left", "right"] 3 with
    | some [some op, some left, some right] => do
      return .binary (← op.text?) (← Expr.ofJson? left) (← Expr.ofJson? right)
    | _ => none
  | some ("If", body) =>
    match _ : body.fields? ["condition", "consequence", "alternative"] 3 with
    | some [some condition, some consequence, none] => do
      return .branch (← Expr.ofJson? condition) (← Stmt.blockOfJson? consequence) none
    | some [some condition, some consequence, some .null] => do
      return .branch (← Expr.ofJson? condition) (← Stmt.blockOfJson? consequence) none
    | some [some condition, some consequence, some alternative] => do
      return .branch (← Expr.ofJson? condition) (← Stmt.blockOfJson? consequence)
        (some (← Stmt.blockOfJson? alternative))
    | _ => none
  | some ("Function", body) =>
    match _ : body.fields? ["parameters", "body", "name"] 2 with
    | some [some parameters, some body, name] => do
      return .function (← (← parameters.elements?).mapM Json.text?) (← Stmt.blockOfJson? body)
        (← Json.optionalText? name)
    | _ => none
  | some ("Call", body) =>
    match _ : body.fields? ["function", "arguments"] 2 with
    | some [some callee, some arguments] => do
      return .call (← Expr.ofJson? callee) (← Expr.arrayOfJson? arguments)
    | _ => none
  | some ("Array", body) => (Expr.arrayOfJson? body).map .array
  | some ("Hash", body) => (Expr.hashOfJson? body).map .hash
  | some ("Index", body) =>
    match _ : body.fields? ["left", "index"] 2 with
    | some [some collection, some position] => do
      return .index (← Expr.ofJson? collection) (← Expr.ofJson? position)
    | _ => none
  | _ => none
termination_by sizeOf json
decreasing_by
  all_goals
    have inner := Json.sizeOf_of_variant? ‹_›
    first
    | exact inner
    | exact Nat.lt_trans (Json.sizeOf_of_mem_fields? ‹_› (by simp)) inner

def Stmt.ofJson? (json : Json) : Option Stmt :=
  match _ : json.variant? with
  | some ("Let", body) =>
    match _ : body.fields? ["name", "value"] 2 with
    | some [some name, some value] => do
      return .bind (← name.text?) (← Expr.ofJson? value)
    | _ => none
  | some ("Return", body) => (Expr.ofJson? body).map .ret
  | some ("Expr", body) => (Expr.ofJson? body).map .eval
  | _ => none
termination_by sizeOf json
decreasing_by
  · exact Nat.lt_trans (Json.sizeOf_of_mem_fields? ‹_› (by simp))
      (Json.sizeOf_of_variant? ‹_›)
  all_goals exact Json.sizeOf_of_variant? ‹_›

def Stmt.blockOfJson? (json : Json) : Option (List Stmt) :=
  match _ : json.fields? ["statements"] 1 with
  | some [some statements] => Stmt.arrayOfJson? statements
  | _ => none
termination_by sizeOf json
decreasing_by exact Json.sizeOf_of_mem_fields? ‹_› (by simp)

def Stmt.arrayOfJson? (json : Json) : Option (List Stmt) :=
  match _ : json.elements? with
  | some elements => Stmt.listOfJson? elements
  | none => none
termination_by sizeOf json
decreasing_by exact Json.sizeOf_of_elements? ‹_›

def Expr.arrayOfJson? (json : Json) : Option (List Expr) :=
  match _ : json.elements? with
  | some elements => Expr.listOfJson? elements
  | none => none
termination_by sizeOf json
decreasing_by exact Json.sizeOf_of_elements? ‹_›

def Expr.hashOfJson? (json : Json) : Option (List (Expr × Expr)) :=
  match _ : json.elements? with
  | some elements => Expr.pairsOfJson? elements
  | none => none
termination_by sizeOf json
decreasing_by exact Json.sizeOf_of_elements? ‹_›

def Stmt.listOfJson? (elements : List Json) : Option (List Stmt) :=
  match elements with
  | [] => some []
  | element :: rest => do return (← Stmt.ofJson? element) :: (← Stmt.listOfJson? rest)
termination_by sizeOf elements

def Expr.listOfJson? (elements : List Json) : Option (List Expr) :=
  match elements with
  | [] => some []
  | element :: rest => do return (← Expr.ofJson? element) :: (← Expr.listOfJson? rest)
termination_by sizeOf elements

def Expr.pairsOfJson? (elements : List Json) : Option (List (Expr × Expr)) :=
  match elements with
  | [] => some []
  | .array [key, value] :: rest => do
    return (← Expr.ofJson? key, ← Expr.ofJson? value) :: (← Expr.pairsOfJson? rest)
  | _ => none
termination_by sizeOf elements

end

def Program.ofJson? (json : Json) : Option Program :=
  (Stmt.blockOfJson? json).map Program.mk

/-- How deep arrays and objects are nested in a program's JSON. A record adds one level whether it
is an object or an array, and what is passed over adds none, so that each way to write a program
has the same depth. -/
def Program.jsonDepth (program : Program) : Nat :=
  program.toJson.depth

/-- How deep the JSON of a program that is read may be nested. -/
def Program.maxJsonDepth : Nat := 127

/-- The program of a JSON text, if it is one and not nested too deep. -/
def Program.ofJsonText? (text : String) : Option Program :=
  match (Json.parse? text).bind Program.ofJson? with
  | some program => if program.jsonDepth ≤ Program.maxJsonDepth then some program else none
  | none => none

end StackScript
