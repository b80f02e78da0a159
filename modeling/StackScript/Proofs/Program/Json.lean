import StackScript.Proofs.Json.Pretty
import StackScript.Program.Json

/-!
Programs are read back from their JSON. Each form is an object of one member that names it, and a
record has each of its fields once (`Json.fields?_record`), so what is read of a written form are
its parts. With the text of the JSON read back as that JSON, a program is the one that its printed
text is read as (`Program.ofJson?_toPrettyString`); the depth that is allowed to a text is the only
reason not to read it (`Program.ofJsonText?_toPrettyString`).
-/

set_option autoImplicit false
set_option relaxedAutoImplicit false

namespace StackScript

open Json (member ofText tagged)

namespace Json

/-! ## Records -/

theorem variant?_tagged (tag : String) (body : Json) :
    (tagged tag body).variant? = some (tag, body) := by
  simp [tagged, member, variant?, decode?_encode]

/-- The object of these fields. -/
def record (fields : List (String × Json)) : Json :=
  object (fields.map fun field ↦ member field.1 field.2)

theorem named?_member (fields : List (String × Json)) :
    named? (fields.map fun field ↦ member field.1 field.2) = some fields := by
  induction fields with
  | nil => rfl
  | cons field rest ih =>
    rw [List.map_cons, member, named?, ih]
    simp [decode?_encode]

theorem field?_of_mem {fields : List (String × Json)} (hnodup : (fields.map Prod.fst).Nodup)
    {name : String} {value : Json} (hmem : (name, value) ∈ fields) :
    field? fields name = some (some value) := by
  have hfilter : (fields.filter fun field ↦ field.1 == name) = [(name, value)] := by
    induction fields with
    | nil => exact nomatch hmem
    | cons field rest ih =>
      obtain ⟨hnew, hrest⟩ := List.nodup_cons.mp hnodup
      rcases List.mem_cons.mp hmem with rfl | hlater
      · have hnone : (rest.filter fun field ↦ field.1 == name) = [] := by
          refine List.filter_eq_nil_iff.mpr fun other hother hname ↦ hnew ?_
          exact List.mem_map.mpr ⟨other, hother, eq_of_beq hname⟩
        simp [hnone]
      · have hne : field.1 ≠ name := by
          rintro rfl
          exact hnew (List.mem_map.mpr ⟨_, hlater, rfl⟩)
        simp [hne, ih hrest hlater]
  simp [field?, hfilter]

/-- Of a written record each field is read. -/
theorem fields?_record (fields : List (String × Json)) (hnodup : (fields.map Prod.fst).Nodup)
    (least : Nat) : (record fields).fields? (fields.map Prod.fst) least =
      some (fields.map fun field ↦ some field.2) := by
  have hall : ∀ part : List (String × Json), (∀ field ∈ part, field ∈ fields) →
      (part.map Prod.fst).mapM (field? fields) = some (part.map fun field ↦ some field.2) := by
    intro part hpart
    induction part with
    | nil => rfl
    | cons field rest ih =>
      have hfield := field?_of_mem hnodup (hpart field List.mem_cons_self)
      have hrest := ih fun other hmem ↦ hpart other (List.mem_cons_of_mem _ hmem)
      simp [hfield, hrest]
  simp only [record, fields?, named?_member, Option.bind_eq_bind, Option.bind_some]
  exact hall fields fun field hmem ↦ hmem

theorem fields?_single (name : String) (value : Json) (least : Nat) :
    (object [member name value]).fields? [name] least = some [some value] :=
  fields?_record [(name, value)] (by simp) least

theorem fields?_pair (first second : String) (h : [first, second].Nodup) (a b : Json)
    (least : Nat) : (object [member first a, member second b]).fields? [first, second] least =
      some [some a, some b] :=
  fields?_record [(first, a), (second, b)] h least

theorem fields?_triple (first second third : String) (h : [first, second, third].Nodup)
    (a b c : Json) (least : Nat) :
    (object [member first a, member second b, member third c]).fields? [first, second, third]
      least = some [some a, some b, some c] :=
  fields?_record [(first, a), (second, b), (third, c)] h least

/-! ## Leaves -/

theorem mapM_text?_ofText (contents : List String) :
    (contents.map ofText).mapM text? = some contents := by
  induction contents with
  | nil => rfl
  | cons content rest ih => simp [text?_ofText, ih]

theorem optionalText?_ofOption (content : Option String) :
    optionalText? (some (ofOption content)) = some content := by
  cases content with
  | none => rfl
  | some content =>
    have htext := text?_ofText content
    rw [ofText] at htext
    simp [optionalText?, ofOption, ofText, htext]

theorem int64?_toInt (value : Int64) : (integer value.toInt).int64? = some value := by
  have hbounds : Int64.minValue.toInt ≤ value.toInt ∧ value.toInt ≤ Int64.maxValue.toInt :=
    ⟨value.minValue_le_toInt, value.toInt_le⟩
  rw [int64?, if_pos hbounds, Int64.ofInt_toInt]

end Json

/-! ## Forms -/

mutual

theorem Expr.ofJson?_toJson : ∀ expr : Expr, Expr.ofJson? expr.toJson = some expr
  | .ident name => by
    have hform := Json.variant?_tagged "Ident" (ofText name)
    rw [Expr.toJson, Expr.ofJson?]
    grind [Json.text?_ofText]
  | .int value => by
    have hform := Json.variant?_tagged "Int" (.integer value.toInt)
    rw [Expr.toJson, Expr.ofJson?]
    grind [Json.int64?_toInt]
  | .str content => by
    have hform := Json.variant?_tagged "Str" (ofText content)
    rw [Expr.toJson, Expr.ofJson?]
    grind [Json.text?_ofText]
  | .bool value => by
    have hform := Json.variant?_tagged "Bool" (.bool value)
    rw [Expr.toJson, Expr.ofJson?]
    grind [Json.bool?]
  | .unary op operand => by
    have hoperand := Expr.ofJson?_toJson operand
    have hfields := Json.fields?_pair "op" "right" (by decide) (ofText op)
      operand.toJson 2
    rw [Expr.toJson, Expr.ofJson?]
    grind [Json.text?_ofText, Json.variant?_tagged]
  | .binary op left right => by
    have hleft := Expr.ofJson?_toJson left
    have hright := Expr.ofJson?_toJson right
    have hfields := Json.fields?_triple "op" "left" "right"
      (by decide) (ofText op) left.toJson right.toJson 3
    have hread : Expr.ofJson? (Expr.binary op left right).toJson = (do
        return .binary (← (ofText op).text?) (← Expr.ofJson? left.toJson)
          (← Expr.ofJson? right.toJson)) := by
      rw [Expr.toJson, Expr.ofJson?]
      grind [Json.variant?_tagged]
    simp [hread, Json.text?_ofText, hleft, hright]
  | .branch condition consequence none => by
    have hcondition := Expr.ofJson?_toJson condition
    have hconsequence := Stmt.blockOfJson?_toJson consequence
    have hfields := Json.fields?_triple "condition" "consequence"
      "alternative" (by decide) condition.toJson
      (.object [member "statements" (.array (Stmt.listToJson consequence))]) .null 3
    rw [Expr.toJson, Stmt.blockToJson?, Expr.ofJson?]
    grind [Json.variant?_tagged]
  | .branch condition consequence (some alternative) => by
    have hcondition := Expr.ofJson?_toJson condition
    have hconsequence := Stmt.blockOfJson?_toJson consequence
    have halternative := Stmt.blockOfJson?_toJson alternative
    have hfields := Json.fields?_triple "condition" "consequence"
      "alternative" (by decide) condition.toJson
      (.object [member "statements" (.array (Stmt.listToJson consequence))])
      (.object [member "statements" (.array (Stmt.listToJson alternative))]) 3
    have hread : Expr.ofJson? (Expr.branch condition consequence (some alternative)).toJson = (do
        return .branch (← Expr.ofJson? condition.toJson)
          (← Stmt.blockOfJson?
            (.object [member "statements" (.array (Stmt.listToJson consequence))]))
          (some (← Stmt.blockOfJson?
            (.object [member "statements" (.array (Stmt.listToJson alternative))])))) := by
      rw [Expr.toJson, Stmt.blockToJson?, Expr.ofJson?]
      grind [Json.variant?_tagged]
    simp [hread, hcondition, hconsequence, halternative]
  | .function parameters body name => by
    have hbody := Stmt.blockOfJson?_toJson body
    have hfields := Json.fields?_triple "parameters" "body"
      "name" (by decide) (.array (parameters.map ofText))
      (.object [member "statements" (.array (Stmt.listToJson body))]) (Json.ofOption name) 2
    have hread : Expr.ofJson? (Expr.function parameters body name).toJson = (do
        return .function (← (parameters.map ofText).mapM Json.text?)
          (← Stmt.blockOfJson? (.object [member "statements" (.array (Stmt.listToJson body))]))
          (← Json.optionalText? (some (Json.ofOption name)))) := by
      rw [Expr.toJson, Expr.ofJson?]
      grind [Json.variant?_tagged, Json.elements?]
    simp only [hread, Json.mapM_text?_ofText, hbody, Json.optionalText?_ofOption,
      Option.bind_eq_bind, Option.bind_some, Option.pure_def]
  | .call callee arguments => by
    have hcallee := Expr.ofJson?_toJson callee
    have harguments := Expr.arrayOfJson?_toJson arguments
    have hfields := Json.fields?_pair "function" "arguments" (by decide)
      callee.toJson (.array (Expr.listToJson arguments)) 2
    rw [Expr.toJson, Expr.ofJson?]
    grind [Json.variant?_tagged]
  | .array elements => by
    have helements := Expr.arrayOfJson?_toJson elements
    rw [Expr.toJson, Expr.ofJson?]
    grind [Json.variant?_tagged]
  | .hash pairs => by
    have hpairs := Expr.hashOfJson?_toJson pairs
    rw [Expr.toJson, Expr.ofJson?]
    grind [Json.variant?_tagged]
  | .index collection position => by
    have hcollection := Expr.ofJson?_toJson collection
    have hposition := Expr.ofJson?_toJson position
    have hfields := Json.fields?_pair "left" "index" (by decide)
      collection.toJson position.toJson 2
    rw [Expr.toJson, Expr.ofJson?]
    grind [Json.variant?_tagged]

theorem Stmt.ofJson?_toJson : ∀ stmt : Stmt, Stmt.ofJson? stmt.toJson = some stmt
  | .bind name value => by
    have hvalue := Expr.ofJson?_toJson value
    have hfields := Json.fields?_pair "name" "value" (by decide)
      (ofText name) value.toJson 2
    rw [Stmt.toJson, Stmt.ofJson?]
    grind [Json.variant?_tagged, Json.text?_ofText]
  | .ret value => by
    have hvalue := Expr.ofJson?_toJson value
    rw [Stmt.toJson, Stmt.ofJson?]
    grind [Json.variant?_tagged]
  | .eval expr => by
    have hexpr := Expr.ofJson?_toJson expr
    rw [Stmt.toJson, Stmt.ofJson?]
    grind [Json.variant?_tagged]

theorem Stmt.blockOfJson?_toJson (block : List Stmt) :
    Stmt.blockOfJson? (.object [member "statements" (.array (Stmt.listToJson block))]) =
      some block := by
  have hblock := Stmt.listOfJson?_toJson block
  have hfields := Json.fields?_single "statements" (.array (Stmt.listToJson block)) 1
  rw [Stmt.blockOfJson?]
  grind [Stmt.arrayOfJson?, Json.elements?]

theorem Stmt.listOfJson?_toJson : ∀ stmts : List Stmt,
    Stmt.listOfJson? (Stmt.listToJson stmts) = some stmts
  | [] => by rw [Stmt.listToJson, Stmt.listOfJson?]
  | stmt :: rest => by
    rw [Stmt.listToJson, Stmt.listOfJson?, Stmt.ofJson?_toJson stmt, Stmt.listOfJson?_toJson rest]
    rfl

theorem Expr.arrayOfJson?_toJson (elements : List Expr) :
    Expr.arrayOfJson? (.array (Expr.listToJson elements)) = some elements := by
  have helements := Expr.listOfJson?_toJson elements
  rw [Expr.arrayOfJson?]
  grind [Json.elements?]

theorem Expr.listOfJson?_toJson : ∀ exprs : List Expr,
    Expr.listOfJson? (Expr.listToJson exprs) = some exprs
  | [] => by rw [Expr.listToJson, Expr.listOfJson?]
  | expr :: rest => by
    rw [Expr.listToJson, Expr.listOfJson?, Expr.ofJson?_toJson expr, Expr.listOfJson?_toJson rest]
    rfl

theorem Expr.hashOfJson?_toJson (pairs : List (Expr × Expr)) :
    Expr.hashOfJson? (.array (Expr.pairsToJson pairs)) = some pairs := by
  have hpairs := Expr.pairsOfJson?_toJson pairs
  rw [Expr.hashOfJson?]
  grind [Json.elements?]

theorem Expr.pairsOfJson?_toJson : ∀ pairs : List (Expr × Expr),
    Expr.pairsOfJson? (Expr.pairsToJson pairs) = some pairs
  | [] => by rw [Expr.pairsToJson, Expr.pairsOfJson?]
  | (key, value) :: rest => by
    rw [Expr.pairsToJson, Expr.pairsOfJson?, Expr.ofJson?_toJson key, Expr.ofJson?_toJson value,
      Expr.pairsOfJson?_toJson rest]
    rfl

end

namespace Json

/-! ## Texts and keys -/

theorem writable_ofText (content : String) : Writable (ofText content) :=
  .string content.toList

theorem writable_ofOption (content : Option String) : Writable (ofOption content) := by
  cases content with
  | none => exact .null
  | some content => exact writable_ofText content

theorem writable_record (fields : List (String × Json)) (h : ∀ field ∈ fields, Writable field.2) :
    Writable (record fields) := by
  refine .object (fun pair hpair ↦ ?_) fun pair hpair ↦ ?_
  all_goals obtain ⟨field, hfield, rfl⟩ := List.mem_map.mp hpair
  · exact ⟨field.1.toList, rfl⟩
  · exact h field hfield

theorem writable_tagged (tag : String) {body : Json} (h : Writable body) :
    Writable (tagged tag body) :=
  writable_record [(tag, body)] (by simpa using h)

end Json

mutual

theorem Expr.writable_toJson : ∀ expr : Expr, expr.toJson.Writable
  | .ident name => Json.writable_tagged _ (Json.writable_ofText name)
  | .int value => Json.writable_tagged _ (.integer value.toInt)
  | .str content => Json.writable_tagged _ (Json.writable_ofText content)
  | .bool value => Json.writable_tagged _ (.bool value)
  | .unary op operand => by
    have hoperand := Expr.writable_toJson operand
    refine Json.writable_tagged _ (Json.writable_record
      [("op", ofText op), ("right", operand.toJson)] ?_)
    simp [Json.writable_ofText, hoperand]
  | .binary op left right => by
    have hleft := Expr.writable_toJson left
    have hright := Expr.writable_toJson right
    refine Json.writable_tagged _ (Json.writable_record
      [("op", ofText op), ("left", left.toJson), ("right", right.toJson)] ?_)
    simp [Json.writable_ofText, hleft, hright]
  | .branch condition consequence alternative => by
    have hcondition := Expr.writable_toJson condition
    have hconsequence := Stmt.writable_block consequence
    have halternative := Stmt.writable_blockToJson? alternative
    refine Json.writable_tagged _ (Json.writable_record [("condition", condition.toJson),
      ("consequence", .object [member "statements" (.array (Stmt.listToJson consequence))]),
      ("alternative", Stmt.blockToJson? alternative)] ?_)
    simp [hcondition, hconsequence, halternative]
  | .function parameters body name => by
    have hbody := Stmt.writable_block body
    have hparameters : Json.Writable (.array (parameters.map ofText)) :=
      .array (List.forall_mem_map.mpr fun parameter _ ↦ Json.writable_ofText parameter)
    refine Json.writable_tagged _ (Json.writable_record
      [("parameters", .array (parameters.map ofText)),
        ("body", .object [member "statements" (.array (Stmt.listToJson body))]),
        ("name", Json.ofOption name)] ?_)
    simp [hparameters, hbody, Json.writable_ofOption]
  | .call callee arguments => by
    have hcallee := Expr.writable_toJson callee
    have harguments := Json.Writable.array (Expr.writable_listToJson arguments)
    refine Json.writable_tagged _ (Json.writable_record
      [("function", callee.toJson), ("arguments", .array (Expr.listToJson arguments))]
      ?_)
    simp [hcallee, harguments]
  | .array elements => Json.writable_tagged _ (.array (Expr.writable_listToJson elements))
  | .hash pairs => Json.writable_tagged _ (.array (Expr.writable_pairsToJson pairs))
  | .index collection position => by
    have hcollection := Expr.writable_toJson collection
    have hposition := Expr.writable_toJson position
    refine Json.writable_tagged _ (Json.writable_record
      [("left", collection.toJson), ("index", position.toJson)] ?_)
    simp [hcollection, hposition]

theorem Stmt.writable_toJson : ∀ stmt : Stmt, stmt.toJson.Writable
  | .bind name value => by
    have hvalue := Expr.writable_toJson value
    refine Json.writable_tagged _ (Json.writable_record
      [("name", ofText name), ("value", value.toJson)] ?_)
    simp [Json.writable_ofText, hvalue]
  | .ret value => Json.writable_tagged _ (Expr.writable_toJson value)
  | .eval expr => Json.writable_tagged _ (Expr.writable_toJson expr)

theorem Stmt.writable_listToJson : ∀ stmts : List Stmt,
    ∀ element ∈ Stmt.listToJson stmts, element.Writable
  | [] => by simp [Stmt.listToJson]
  | stmt :: rest => by
    rw [Stmt.listToJson]
    exact List.forall_mem_cons.mpr ⟨Stmt.writable_toJson stmt, Stmt.writable_listToJson rest⟩

theorem Stmt.writable_block (block : List Stmt) :
    Json.Writable (.object [member "statements" (.array (Stmt.listToJson block))]) := by
  have hstatements := Json.Writable.array (Stmt.writable_listToJson block)
  refine Json.writable_record [("statements", .array (Stmt.listToJson block))] ?_
  simp [hstatements]

theorem Stmt.writable_blockToJson? : ∀ block : Option (List Stmt),
    (Stmt.blockToJson? block).Writable
  | none => .null
  | some block => Stmt.writable_block block

theorem Expr.writable_listToJson : ∀ exprs : List Expr,
    ∀ element ∈ Expr.listToJson exprs, element.Writable
  | [] => by simp [Expr.listToJson]
  | expr :: rest => by
    rw [Expr.listToJson]
    exact List.forall_mem_cons.mpr ⟨Expr.writable_toJson expr, Expr.writable_listToJson rest⟩

theorem Expr.writable_pairsToJson : ∀ pairs : List (Expr × Expr),
    ∀ element ∈ Expr.pairsToJson pairs, element.Writable
  | [] => by simp [Expr.pairsToJson]
  | (key, value) :: rest => by
    have hkey := Expr.writable_toJson key
    have hvalue := Expr.writable_toJson value
    rw [Expr.pairsToJson]
    exact List.forall_mem_cons.mpr ⟨.array (by simp [hkey, hvalue]),
      Expr.writable_pairsToJson rest⟩

end

/-! ## Programs -/

namespace Program

variable (program : Program)

theorem ofJson?_toJson : Program.ofJson? program.toJson = some program := by
  rw [ofJson?, toJson, Stmt.blockOfJson?_toJson]
  rfl

theorem parse?_toPrettyString : Json.parse? program.toJson.toPrettyString = some program.toJson :=
  Json.parse?_toPrettyString (Stmt.writable_block program.statements)

/-- Spec §E1 and §E2, the tree as JSON. For any program: its printed JSON is read as the program.
Nothing is lost in printing, neither in numbers nor in texts, however they are escaped. -/
theorem ofJson?_toPrettyString :
    (Json.parse? program.toJson.toPrettyString).bind Program.ofJson? = some program := by
  rw [parse?_toPrettyString, Option.bind_some, ofJson?_toJson]

/-- With the limit to the nesting of texts, the printed JSON is read exactly if it keeps to it. -/
theorem ofJsonText?_toPrettyString :
    ofJsonText? program.toJson.toPrettyString =
      if program.jsonDepth ≤ maxJsonDepth then some program else none := by
  simp only [ofJsonText?, parse?_toPrettyString, Option.bind_some, ofJson?_toJson]

end Program

end StackScript
