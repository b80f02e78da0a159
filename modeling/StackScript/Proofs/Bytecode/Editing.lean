import StackScript.Bytecode.Assemble
import StackScript.Proofs.StateMonad

/-!
Generating code by editing writes the same code as composing it. A step of generation that appends
instructions and one that returns them are related by `Writes`; the relation is kept by sequences,
and taking back a last instruction or setting the target of a jump leads to what would have been
written with that known in advance. Main statement: `add_eq_assemble`, for whole programs, with the
errors and what they leave behind.
-/

set_option autoImplicit false
set_option relaxedAutoImplicit false

namespace StackScript

open Instruction (size encodeAll)

/-! ### Buffers -/

namespace Buffer

theorem toList_overwrite {position : Nat} {bytes before old after : List UInt8}
    {code : Array UInt8} (hcode : code.toList = before ++ old ++ after)
    (hposition : before.length = position) (hlength : bytes.length = old.length) :
    (overwrite position bytes code).toList = before ++ bytes ++ after := by
  induction bytes generalizing position before old code with
  | nil =>
    have hold : old = [] := List.length_eq_zero_iff.mp hlength.symm
    simpa [overwrite, hold] using hcode
  | cons byte rest ih =>
    cases old with
    | nil => simp at hlength
    | cons first others =>
      have hset : (code.setIfInBounds position byte).toList =
          (before ++ [byte]) ++ others ++ after := by
        rw [Array.toList_setIfInBounds, hcode, ← hposition]
        simp
      have h : (overwrite (position + 1) rest (code.setIfInBounds position byte)).toList =
          (before ++ [byte]) ++ rest ++ after :=
        ih hset (by simp [hposition]) (by simpa using hlength)
      simpa [overwrite] using h

end Buffer

/-! ### The state of generation -/

namespace Builder

def draft (builder : Builder) : Draft :=
  ⟨builder.constants, builder.scopes⟩

/-- The builder behind a step: what the draft says, and the buffer. -/
def moved (builder : Builder) (draft : Draft) (buffer : Buffer) : Builder :=
  { builder with constants := draft.constants, scopes := draft.scopes, buffer := buffer }

@[simp] theorem draft_moved (builder : Builder) (draft : Draft) (buffer : Buffer) :
    (builder.moved draft buffer).draft = draft := rfl

@[simp] theorem buffer_moved (builder : Builder) (draft : Draft) (buffer : Buffer) :
    (builder.moved draft buffer).buffer = buffer := rfl

@[simp] theorem moved_moved (builder : Builder) (draft other : Draft) (buffer last : Buffer) :
    (builder.moved draft buffer).moved other last = builder.moved other last := rfl

@[simp] theorem moved_self (builder : Builder) :
    builder.moved builder.draft builder.buffer = builder := rfl

end Builder

/-- Generation appends to the code what composition returns. Both fail together, with the same error
and the same draft. -/
structure Writes (generation : Build Unit) (composition : Nat → Assembly (List Instruction)) :
    Prop where
  ok (builder : Builder) {code : List Instruction} {draft : Draft} :
    composition builder.buffer.code.size builder.draft = .ok code draft →
      ∃ buffer, generation builder = .ok () (builder.moved draft buffer) ∧
        buffer.code = builder.buffer.code ++ encodeAll code
  error (builder : Builder) {error : CompileError} {draft : Draft} :
    composition builder.buffer.code.size builder.draft = .error error draft →
      ∃ buffer, generation builder = .error error (builder.moved draft buffer)

namespace Writes

variable {generation next : Build Unit} {composition following : Nat → Assembly (List Instruction)}

theorem size_code (builder : Builder) {buffer : Buffer} {code : List Instruction}
    (h : buffer.code = builder.buffer.code ++ encodeAll code) :
    buffer.code.size = builder.buffer.code.size + size code := by
  rw [h, ← Array.length_toList]
  simp

theorem bind (hfirst : Writes generation composition) (hnext : Writes next following) :
    Writes (do generation; next) fun start ↦ do
      let first ← composition start
      let second ← following (start + size first)
      return first ++ second where
  ok builder {code draft} h := by
    obtain ⟨first, middle, hcomposition, h⟩ := bind_eq_ok_iff.mp h
    obtain ⟨second, last, hfollowing, hend⟩ := bind_eq_ok_iff.mp h
    cases hend
    obtain ⟨buffer, hgeneration, hbuffer⟩ := hfirst.ok builder hcomposition
    rw [← size_code builder hbuffer] at hfollowing
    obtain ⟨final, hgoes, hfinal⟩ := hnext.ok (builder.moved middle buffer) hfollowing
    refine ⟨final, (bind_of_ok hgeneration).trans hgoes, ?_⟩
    rw [hfinal, Builder.buffer_moved, hbuffer]
    exact Array.ext' (by simp)
  error builder {error draft} h := by
    rcases bind_eq_error_iff.mp h with hcomposition | ⟨first, middle, hcomposition, h⟩
    · obtain ⟨buffer, hgeneration⟩ := hfirst.error builder hcomposition
      exact ⟨buffer, bind_of_error hgeneration⟩
    · obtain ⟨buffer, hgeneration, hbuffer⟩ := hfirst.ok builder hcomposition
      rcases bind_eq_error_iff.mp h with hfollowing | ⟨second, last, _, hend⟩
      · rw [← size_code builder hbuffer] at hfollowing
        obtain ⟨final, hgoes⟩ := hnext.error (builder.moved middle buffer) hfollowing
        exact ⟨final, (bind_of_ok hgeneration).trans hgoes⟩
      · cases hend

theorem nothing : Writes (pure ()) fun _ ↦ pure [] where
  ok builder {code draft} h := by
    cases h
    exact ⟨builder.buffer, rfl, by simp⟩
  error _ _ _ h := by cases h

theorem failure (error : CompileError) : Writes (throw error) fun _ ↦ throw error where
  ok _ _ _ h := by cases h
  error builder _ _ h := by
    cases h
    exact ⟨builder.buffer, rfl⟩

theorem emit (opcode : Opcode) (operands : List Nat) :
    Writes (do let _ ← Build.emit opcode operands)
      fun _ ↦ Assembly.instruction opcode operands where
  ok builder {code draft} h := by
    simp only [Assembly.instruction] at h
    split at h
    · cases h
    · next hfits =>
      cases h
      refine ⟨builder.buffer.append opcode operands, ?_, ?_⟩
      · have hemit : Build.emit opcode operands builder = .ok builder.buffer.code.size
            (builder.moved builder.draft (builder.buffer.append opcode operands)) := by
          simp only [Build.emit, hfits]
          rfl
        exact bind_of_ok hemit
      · simp [Buffer.append, Instruction.bytes]
  error builder {error draft} h := by
    simp only [Assembly.instruction] at h
    split at h
    · next hlarge =>
      cases h
      refine ⟨builder.buffer, bind_of_error ?_⟩
      simp only [Build.emit, hlarge]
      rfl
    · cases h

theorem addConstant (constant : Label → Value) {generation : Nat → Build Unit}
    {composition : Nat → Nat → Assembly (List Instruction)}
    (h : ∀ entry, Writes (generation entry) (composition entry)) :
    Writes (do let entry ← Build.addConstant constant; generation entry)
      fun start ↦ do
        let entry ← Assembly.addConstant constant
        composition entry start where
  ok builder _ _ hcode := (h builder.constants.size).ok (builder.moved
    ⟨builder.constants.push (constant (.literal builder.constants.size)), builder.scopes⟩
    builder.buffer) hcode
  error builder _ _ hcode := (h builder.constants.size).error (builder.moved
    ⟨builder.constants.push (constant (.literal builder.constants.size)), builder.scopes⟩
    builder.buffer) hcode

theorem define (name : String) {generation : Symbol → Build Unit}
    {composition : Symbol → Nat → Assembly (List Instruction)}
    (h : ∀ symbol, Writes (generation symbol) (composition symbol)) :
    Writes (do let symbol ← Build.define name; generation symbol)
      fun start ↦ do
        let symbol ← Assembly.define name
        composition symbol start where
  ok builder _ _ hcode := (h (builder.scopes.define name).1).ok (builder.moved
    ⟨builder.constants, (builder.scopes.define name).2⟩ builder.buffer) hcode
  error builder _ _ hcode := (h (builder.scopes.define name).1).error
    (builder.moved ⟨builder.constants, (builder.scopes.define name).2⟩ builder.buffer)
    hcode

theorem resolve (name : String) {generation : Symbol → Build Unit}
    {composition : Symbol → Nat → Assembly (List Instruction)}
    (h : ∀ symbol, Writes (generation symbol) (composition symbol)) :
    Writes (do let symbol ← Build.resolve name; generation symbol)
      fun start ↦ do
        let symbol ← Assembly.resolve name
        composition symbol start where
  ok builder {code draft} hcode := by
    obtain ⟨symbol, middle, hresolve, hrest⟩ := bind_eq_ok_iff.mp hcode
    simp only [Assembly.resolve, Builder.draft] at hresolve
    split at hresolve
    · next found scopes hname =>
      cases hresolve
      obtain ⟨buffer, hgeneration, hbuffer⟩ := (h symbol).ok
        (builder.moved ⟨builder.constants, scopes⟩ builder.buffer) hrest
      refine ⟨buffer, (bind_of_ok ?_).trans hgeneration, hbuffer⟩
      simp only [Build.resolve, hname]
      rfl
    · cases hresolve
  error builder {error draft} hcode := by
    rcases bind_eq_error_iff.mp hcode with hresolve | ⟨symbol, middle, hresolve, hrest⟩
    · simp only [Assembly.resolve, Builder.draft] at hresolve
      split at hresolve
      · cases hresolve
      · next hname =>
        cases hresolve
        refine ⟨builder.buffer, bind_of_error ?_⟩
        simp only [Build.resolve, hname]
        rfl
    · simp only [Assembly.resolve, Builder.draft] at hresolve
      split at hresolve
      · next found scopes hname =>
        cases hresolve
        obtain ⟨buffer, hgeneration⟩ := (h symbol).error
          (builder.moved ⟨builder.constants, scopes⟩ builder.buffer) hrest
        refine ⟨buffer, (bind_of_ok ?_).trans hgeneration⟩
        simp only [Build.resolve, hname]
        rfl
      · cases hresolve

theorem load (symbol : Symbol) : Writes (Build.load symbol) fun _ ↦ Assembly.load symbol := by
  unfold Build.load Assembly.load
  cases symbol.place <;> exact emit _ _

theorem loadAll (symbols : List Symbol) :
    Writes (Build.loadAll symbols) fun _ ↦ Assembly.loadAll symbols := by
  induction symbols with
  | nil => exact nothing
  | cons symbol rest ih => exact (load symbol).bind ih

end Writes

/-! ### Last instructions -/

/-- An instruction is the last one that was written. -/
def Buffer.Appended (buffer : Buffer) (opcode : Opcode) (operands : List Nat) : Prop :=
  ∃ earlier : Buffer, buffer = earlier.append opcode operands

theorem Buffer.Appended.endsWith {buffer : Buffer} {opcode : Opcode} {operands : List Nat}
    (h : buffer.Appended opcode operands) (other : Opcode) :
    buffer.endsWith other = decide (opcode = other) := by
  obtain ⟨earlier, rfl⟩ := h
  rfl

theorem appended_of_emit {opcode : Opcode} {operands : List Nat} {builder builder' : Builder}
    {position : Nat} (h : Build.emit opcode operands builder = .ok position builder') :
    builder'.buffer.Appended opcode operands := by
  simp only [Build.emit] at h
  split at h
  · cases h
  · cases h
    exact ⟨builder.buffer, rfl⟩

/-- What a statement leaves as the last instruction. -/
def Stmt.Closes (stmt : Stmt) (buffer : Buffer) : Prop :=
  match stmt with
  | .eval _ => buffer.Appended .pop []
  | .ret _ => buffer.Appended .returnValue []
  | .bind _ _ => ∃ slot, buffer.Appended .setGlobal [slot] ∨ buffer.Appended .setLocal [slot]

theorem Stmt.closes_of_generate {stmt : Stmt} {builder builder' : Builder}
    (h : stmt.generate builder = .ok () builder') : stmt.Closes builder'.buffer := by
  cases stmt with
  | eval expr =>
    rw [Stmt.generate] at h
    obtain ⟨_, _, _, h⟩ := bind_eq_ok_iff.mp h
    obtain ⟨_, _, hemit, hend⟩ := bind_eq_ok_iff.mp h
    cases hend
    exact appended_of_emit hemit
  | ret value =>
    rw [Stmt.generate] at h
    obtain ⟨_, _, _, h⟩ := bind_eq_ok_iff.mp h
    obtain ⟨_, _, hemit, hend⟩ := bind_eq_ok_iff.mp h
    cases hend
    exact appended_of_emit hemit
  | bind name value =>
    rw [Stmt.generate] at h
    obtain ⟨symbol, _, _, h⟩ := bind_eq_ok_iff.mp h
    obtain ⟨_, _, _, h⟩ := bind_eq_ok_iff.mp h
    obtain ⟨_, _, hemit, hend⟩ := bind_eq_ok_iff.mp h
    cases hend
    refine ⟨symbol.index, ?_⟩
    have happended := appended_of_emit hemit
    split at happended
    · exact .inl happended
    · exact .inr happended

theorem Stmt.closes_of_generateAll {stmts : List Stmt} {builder builder' : Builder}
    (h : Stmt.generateAll stmts builder = .ok () builder') :
    match stmts.getLast? with
    | none => builder' = builder
    | some last => last.Closes builder'.buffer := by
  induction stmts generalizing builder with
  | nil =>
    cases h
    rfl
  | cons stmt rest ih =>
    rw [Stmt.generateAll] at h
    obtain ⟨_, middle, hstmt, hrest⟩ := bind_eq_ok_iff.mp h
    cases rest with
    | nil =>
      cases hrest
      exact closes_of_generate hstmt
    | cons other others =>
      rw [List.getLast?_cons_cons]
      have h := ih hrest
      rw [List.getLast?_eq_some_getLast (List.cons_ne_nil _ _)] at h ⊢
      exact h

/-- The ending comes behind the code of the statements, if there is a value at their end. -/
theorem Stmt.assembleAll_eq (stmts : List Stmt) (ending : Ending) (start : Nat) :
    Stmt.assembleAll stmts ending start = do
      let code ← Stmt.assembleAll stmts .keep start
      return code ++ if Stmt.yields stmts then ending.instructions else [] := by
  induction stmts generalizing start with
  | nil => simp [Stmt.assembleAll, Stmt.yields]
  | cons stmt rest ih =>
    cases rest with
    | nil =>
      cases stmt <;>
        simp [Stmt.assembleAll, Stmt.assemble, Stmt.yields, Ending.instructions]
    | cons other others =>
      have hyields : Stmt.yields (stmt :: other :: others) = Stmt.yields (other :: others) := by
        simp only [Stmt.yields, List.getLast?_cons_cons]
      rw [Stmt.assembleAll, Stmt.assembleAll, hyields]
      simp only [ih, bind_assoc, pure_bind, List.append_assoc, List.isEmpty_cons,
        Bool.false_eq_true, if_false]

/-- The code of statements in two parts. -/
theorem Stmt.assembleAll_append (done : List Stmt) {rest : List Stmt} (hrest : rest ≠ [])
    (ending : Ending) (start : Nat) :
    Stmt.assembleAll (done ++ rest) ending start = do
      let first ← Stmt.assembleAll done .discard start
      let second ← Stmt.assembleAll rest ending (start + size first)
      return first ++ second := by
  induction done generalizing start with
  | nil => simp [Stmt.assembleAll]
  | cons stmt others ih =>
    have hmore : (others ++ rest).isEmpty = false := by
      cases others with
      | nil => simpa using hrest
      | cons => rfl
    rw [List.cons_append, Stmt.assembleAll, Stmt.assembleAll, hmore]
    simp only [ih, bind_assoc, pure_bind, List.append_assoc, Bool.false_eq_true, if_false, ite_self,
      Instruction.size_append, Nat.add_assoc]

/-! ### Values at the end -/

theorem Buffer.code_dropLast {buffer earlier : Buffer} {opcode : Opcode} {operands : List Nat}
    (h : buffer = earlier.append opcode operands) : buffer.dropLast.code = earlier.code := by
  subst h
  simp only [dropLast, append]
  exact Array.ext' (by simp)

theorem Buffer.code_replaceLast {buffer earlier : Buffer} {opcode : Opcode} (other : Opcode)
    (h : buffer = earlier.append opcode []) (hlength : other.byteLength = opcode.byteLength) :
    (buffer.replaceLast other).code = earlier.code ++ Instruction.encode other [] := by
  subst h
  simp only [replaceLast, append, replaceAt]
  refine Array.ext' ?_
  have hcode : (earlier.code ++ Instruction.encode opcode []).toList =
      earlier.code.toList ++ Instruction.encode opcode [] ++ [] := by simp
  rw [toList_overwrite hcode (by simp) (by simp [hlength])]
  simp

namespace Stmt

variable {stmts : List Stmt}

/-- What was generated for statements: behind the code of the same statements whose value is kept
stands an instruction that discards it, if there is a value at the end, and nothing else. -/
theorem generateAll_of_keep (hwrites : Writes (generateAll stmts) (assembleAll stmts .discard))
    {builder : Builder} {code : List Instruction} {draft : Draft}
    (h : assembleAll stmts .keep builder.buffer.code.size builder.draft = .ok code draft) :
    ∃ buffer, generateAll stmts builder = .ok () (builder.moved draft buffer) ∧
      ((yields stmts ∧ ∃ earlier : Buffer, buffer = earlier.append .pop [] ∧
          earlier.code = builder.buffer.code ++ encodeAll code) ∨
        (yields stmts = false ∧ buffer.code = builder.buffer.code ++ encodeAll code ∧
          ((stmts = [] ∧ buffer = builder.buffer) ∨ ∃ opcode operands,
            buffer.Appended opcode operands ∧ opcode ≠ .pop ∧
            (opcode = .returnValue ↔ returns stmts)))) := by
  have hdiscard : assembleAll stmts .discard builder.buffer.code.size builder.draft =
      .ok (code ++ if yields stmts then [⟨.pop, []⟩] else []) draft := by
    rw [assembleAll_eq, bind_of_ok h]
    rfl
  obtain ⟨buffer, hgenerate, hbuffer⟩ := hwrites.ok builder hdiscard
  refine ⟨buffer, hgenerate, ?_⟩
  have hcloses := closes_of_generateAll hgenerate
  cases hlast : stmts.getLast? with
  | none =>
    rw [hlast] at hcloses
    have hyields : yields stmts = false := by simp [yields, hlast]
    refine .inr ⟨hyields, by simpa [hyields] using hbuffer, .inl ⟨?_, ?_⟩⟩
    · simpa using hlast
    · exact congrArg Builder.buffer hcloses
  | some last =>
    rw [hlast] at hcloses
    cases last with
    | eval expr =>
      have hyields : yields stmts := by simp [yields, hlast]
      obtain ⟨earlier, hearlier⟩ : buffer.Appended .pop [] := hcloses
      refine .inl ⟨hyields, earlier, hearlier, ?_⟩
      have htoList : earlier.code.toList ++ Instruction.encode .pop [] =
          (builder.buffer.code.toList ++ encodeAll code) ++ Instruction.encode .pop [] := by
        simpa [hyields, hearlier, Buffer.append, Instruction.bytes]
          using congrArg Array.toList hbuffer
      exact Array.ext' (by simpa using List.append_cancel_right htoList)
    | ret value =>
      have hyields : yields stmts = false := by simp [yields, hlast]
      exact .inr ⟨hyields, by simpa [hyields] using hbuffer, .inr
        ⟨.returnValue, [], hcloses, by decide, by simp [returns, hlast]⟩⟩
    | bind name value =>
      have hyields : yields stmts = false := by simp [yields, hlast]
      refine .inr ⟨hyields, by simpa [hyields] using hbuffer, .inr ?_⟩
      obtain ⟨slot, happended | happended⟩ := hcloses
      · exact ⟨.setGlobal, [slot], happended, by decide, by simp [returns, hlast]⟩
      · exact ⟨.setLocal, [slot], happended, by decide, by simp [returns, hlast]⟩

theorem generateAll_of_keep_error
    (hwrites : Writes (generateAll stmts) (assembleAll stmts .discard))
    (builder : Builder) {error : CompileError} {draft : Draft}
    (h : assembleAll stmts .keep builder.buffer.code.size builder.draft = .error error draft) :
    ∃ buffer, generateAll stmts builder = .error error (builder.moved draft buffer) := by
  refine hwrites.error builder ?_
  rw [assembleAll_eq, bind_of_error h]

/-- Taking back the instruction that would discard a last value. -/
theorem keepValue_generateAll (hwrites : Writes (generateAll stmts) (assembleAll stmts .discard))
    (builder : Builder) (hopen : builder.buffer.endsWith .pop = false) {code : List Instruction}
    {draft : Draft}
    (h : assembleAll stmts .keep builder.buffer.code.size builder.draft = .ok code draft) :
    ∃ buffer, (do generateAll stmts; Build.keepValue : Build Unit) builder =
        .ok () (builder.moved draft buffer) ∧
      buffer.code = builder.buffer.code ++ encodeAll code := by
  obtain ⟨buffer, hgenerate, hbuffer⟩ := generateAll_of_keep hwrites h
  rw [bind_of_ok hgenerate]
  unfold Build.keepValue
  rw [Builder.buffer_moved]
  rcases hbuffer with ⟨_, earlier, happended, hcode⟩ |
    ⟨_, hcode, ⟨_, hsame⟩ | ⟨opcode, operands, happended, hne, _⟩⟩
  · have hpop : buffer.Appended .pop [] := ⟨earlier, happended⟩
    rw [if_pos (by simp [hpop.endsWith])]
    exact ⟨buffer.dropLast, rfl, by rw [Buffer.code_dropLast happended, hcode]⟩
  · rw [if_neg (by simp [hsame, hopen])]
    exact ⟨buffer, rfl, hcode⟩
  · rw [if_neg (by simp [happended.endsWith, hne])]
    exact ⟨buffer, rfl, hcode⟩

theorem returns_of_yields (h : yields stmts) : returns stmts := by
  unfold yields at h
  unfold returns
  split at h
  · next hlast => rw [hlast]
  · cases h

/-- Ending a body whose last instruction is no discarding one changes nothing before the end. -/
theorem endBody_eq {builder : Builder} (hpop : builder.buffer.endsWith .pop = false) :
    Build.endBody builder =
      if builder.buffer.endsWith .returnValue then .ok () builder
      else .ok () { builder with buffer := builder.buffer.append .ret [] } := by
  change (if !(if builder.buffer.endsWith .pop then
        { builder with buffer := builder.buffer.replaceLast .returnValue }
      else builder).buffer.endsWith .returnValue then (do let _ ← Build.emit .ret [])
    else pure () : Build Unit) (if builder.buffer.endsWith .pop then
        { builder with buffer := builder.buffer.replaceLast .returnValue } else builder) = _
  simp only [hpop, Bool.false_eq_true, if_false]
  cases builder.buffer.endsWith .returnValue <;> rfl

/-- A value that the last instruction would discard is returned. -/
theorem endBody_of_pop {builder : Builder} (hpop : builder.buffer.Appended .pop []) :
    Build.endBody builder =
      .ok () { builder with buffer := builder.buffer.replaceLast .returnValue } := by
  have hends : builder.buffer.endsWith .pop := by simp [hpop.endsWith]
  have hreturns : (builder.buffer.replaceLast .returnValue).endsWith .returnValue := by
    obtain ⟨earlier, hearlier⟩ := hpop
    rw [hearlier]
    rfl
  change (if !(if builder.buffer.endsWith .pop then
        { builder with buffer := builder.buffer.replaceLast .returnValue }
      else builder).buffer.endsWith .returnValue then (do let _ ← Build.emit .ret [])
    else pure () : Build Unit) (if builder.buffer.endsWith .pop then
        { builder with buffer := builder.buffer.replaceLast .returnValue } else builder) = _
  simp [hends, hreturns]

/-- Ending a body whose code was begun with an empty buffer. -/
theorem endBody_generateAll (hwrites : Writes (generateAll stmts) (assembleAll stmts .discard))
    (builder : Builder) (hempty : builder.buffer = {}) {code : List Instruction} {draft : Draft}
    (h : assembleAll stmts .giveBack 0 builder.draft = .ok code draft) :
    ∃ buffer, (do generateAll stmts; Build.endBody : Build Unit) builder =
        .ok () (builder.moved draft buffer) ∧
      buffer.code.toList = encodeAll (code ++ if returns stmts then [] else [⟨.ret, []⟩]) := by
  rw [assembleAll_eq] at h
  obtain ⟨kept, middle, hkeep, hend⟩ := bind_eq_ok_iff.mp h
  cases hend
  have hcodeEmpty : builder.buffer.code = #[] := by rw [hempty]
  have hsize : builder.buffer.code.size = 0 := by rw [hcodeEmpty]; rfl
  rw [← hsize] at hkeep
  obtain ⟨buffer, hgenerate, hbuffer⟩ := generateAll_of_keep hwrites hkeep
  rw [bind_of_ok hgenerate]
  rw [hcodeEmpty] at hbuffer
  rcases hbuffer with ⟨hyields, earlier, happended, hcode⟩ |
    ⟨hyields, hcode, ⟨rfl, hsame⟩ | ⟨opcode, operands, happended, hne, hreturn⟩⟩
  · refine ⟨buffer.replaceLast .returnValue, endBody_of_pop ⟨earlier, happended⟩, ?_⟩
    rw [Buffer.code_replaceLast .returnValue happended rfl, hcode]
    simp [hyields, returns_of_yields hyields, Ending.instructions, Instruction.bytes]
  · rw [hempty] at hsame
    refine ⟨buffer.append .ret [], ?_, ?_⟩
    · rw [endBody_eq (by simp [hsame, Buffer.endsWith]),
        if_neg (by simp [hsame, Buffer.endsWith])]
      rfl
    · simp [Buffer.append, hcode, yields, returns, Instruction.bytes]
  · rw [endBody_eq (by simp [happended.endsWith, hne])]
    by_cases hreturns : returns stmts
    · refine ⟨buffer, ?_, by simp [hcode, hyields, hreturns]⟩
      rw [if_pos (by simp [happended.endsWith, hreturn.mpr hreturns])]
    · have hopen : opcode ≠ .returnValue := fun h ↦ hreturns (hreturn.mp h)
      refine ⟨buffer.append .ret [], ?_, ?_⟩
      · rw [if_neg (by simp [happended.endsWith, hopen])]
        rfl
      · simp [Buffer.append, hcode, hyields, hreturns, Instruction.bytes]

end Stmt

/-! ### Functions -/

theorem Build.defineAll_eq (parameters : List String) (builder : Builder) :
    Build.defineAll parameters builder = .ok () { builder with
      scopes := parameters.foldl (fun scopes name ↦ (scopes.define name).2) builder.scopes } := by
  induction parameters generalizing builder with
  | nil => rfl
  | cons name rest ih =>
    rw [Build.defineAll]
    exact ih { builder with scopes := (builder.scopes.define name).2 }

/-- The statements of a function are generated with an empty buffer, in the scope of the function.
-/
theorem Build.inFunction_eq (name : Option String) (parameters : List String) (body : Build Unit)
    (builder : Builder) :
    (Build.inFunction do
        match name with
        | some name => Build.defineFunction name
        | none => pure ()
        Build.defineAll parameters
        body) builder =
      Build.inFunction (fun _ ↦ body { builder.enter with
        scopes := Assembly.enter name parameters builder.scopes }) builder := by
  simp only [Build.inFunction]
  have hdefine : ∀ scopes, (do
        match name with
        | some name => Build.defineFunction name
        | none => pure ()
        Build.defineAll parameters
        body : Build Unit) { builder.enter with scopes := scopes } =
      body { builder.enter with
        scopes := parameters.foldl (fun scopes name ↦ (scopes.define name).2)
          (match name with
            | some name => (scopes.defineFunction name).2
            | none => scopes) } := by
    intro scopes
    cases name with
    | none => exact bind_of_ok (Build.defineAll_eq parameters { builder.enter with scopes := scopes })
    | some name => exact bind_of_ok (Build.defineAll_eq parameters
        { builder.enter with scopes := (scopes.defineFunction name).2 })
  rw [show body { builder.enter with scopes := Assembly.enter name parameters builder.scopes } = _
    from (hdefine builder.scopes.enclose).symm]
  rfl

theorem Assembly.endBody_eq (returns : Bool) (code : List Instruction) (draft : Draft) :
    Assembly.endBody returns code draft =
      .ok (code ++ if returns then [] else [⟨.ret, []⟩]) draft := by
  cases returns with
  | true => simp [Assembly.endBody]
  | false => rfl

section Function

variable {name : Option String} {parameters : List String} {body : List Stmt}

/-- The steps that generate a function, from its scope to the end of its body. -/
theorem Build.inFunction_of_ok
    (hbody : Writes (Stmt.generateAll body) (Stmt.assembleAll body .discard)) {builder : Builder}
    {code : List Instruction} {scope : Scope} {draft : Draft}
    (h : Assembly.inFunction name parameters (do
        Assembly.endBody (Stmt.returns body) (← Stmt.assembleAll body .giveBack 0)) builder.draft =
      .ok (code, scope) draft) :
    (Build.inFunction do
        match name with
        | some name => Build.defineFunction name
        | none => pure ()
        Build.defineAll parameters
        Stmt.generateAll body
        Build.endBody) builder =
      .ok ((encodeAll code).toArray, scope) (builder.moved draft builder.buffer) := by
  rw [Build.inFunction_eq]
  simp only [Assembly.inFunction] at h
  split at h
  · next inner last hinner =>
    cases h
    obtain ⟨kept, _, hkept, hend⟩ := bind_eq_ok_iff.mp hinner
    rw [Assembly.endBody_eq] at hend
    cases hend
    obtain ⟨buffer, hgenerate, hbuffer⟩ := Stmt.endBody_generateAll hbody
      { builder.enter with scopes := Assembly.enter name parameters builder.scopes } rfl hkept
    have hcode : buffer.code =
        (encodeAll (kept ++ if Stmt.returns body then [] else [⟨.ret, []⟩])).toArray :=
      Array.ext' (by simpa using hbuffer)
    simp only [Build.inFunction, hgenerate, ← hcode]
    rfl
  · cases h

theorem Build.inFunction_of_error
    (hbody : Writes (Stmt.generateAll body) (Stmt.assembleAll body .discard)) {builder : Builder}
    {error : CompileError} {draft : Draft}
    (h : Assembly.inFunction name parameters (do
        Assembly.endBody (Stmt.returns body) (← Stmt.assembleAll body .giveBack 0)) builder.draft =
      .error error draft) :
    (Build.inFunction do
        match name with
        | some name => Build.defineFunction name
        | none => pure ()
        Build.defineAll parameters
        Stmt.generateAll body
        Build.endBody) builder =
      .error error (builder.moved draft builder.buffer) := by
  rw [Build.inFunction_eq]
  simp only [Assembly.inFunction] at h
  split at h
  · cases h
  · next inner last hinner =>
    cases h
    rcases bind_eq_error_iff.mp hinner with hbodyError | ⟨kept, _, _, hend⟩
    · have hdiscard : Stmt.assembleAll body .discard 0 { builder.draft with
          scopes := Assembly.enter name parameters builder.draft.scopes } = .error error last := by
        rw [Stmt.assembleAll_eq] at hbodyError ⊢
        rcases bind_eq_error_iff.mp hbodyError with hkept | ⟨_, _, _, hpure⟩
        · exact bind_of_error hkept
        · cases hpure
      obtain ⟨buffer, hgenerate⟩ := hbody.error { builder.enter with
        scopes := Assembly.enter name parameters builder.scopes } hdiscard
      simp only [Build.inFunction, bind_of_error hgenerate]
      rfl
    · rw [Assembly.endBody_eq] at hend
      cases hend

theorem Writes.inFunction
    (hbody : Writes (Stmt.generateAll body) (Stmt.assembleAll body .discard))
    {generation : Array UInt8 × Scope → Build Unit}
    {composition : List Instruction × Scope → Assembly (List Instruction)}
    (h : ∀ code scope, Writes (generation ((encodeAll code).toArray, scope))
      fun _ ↦ composition (code, scope)) :
    Writes (do
        let function ← Build.inFunction do
          match name with
          | some name => Build.defineFunction name
          | none => pure ()
          Build.defineAll parameters
          Stmt.generateAll body
          Build.endBody
        generation function)
      fun _ ↦ do
        let function ← Assembly.inFunction name parameters do
          Assembly.endBody (Stmt.returns body) (← Stmt.assembleAll body .giveBack 0)
        composition function where
  ok builder {code draft} hcode := by
    obtain ⟨⟨inner, scope⟩, middle, hfunction, hrest⟩ := bind_eq_ok_iff.mp hcode
    obtain ⟨final, hgoes, hfinal⟩ := (h inner scope).ok
      (builder.moved middle builder.buffer) hrest
    exact ⟨final, (bind_of_ok (Build.inFunction_of_ok hbody hfunction)).trans hgoes, hfinal⟩
  error builder {error draft} hcode := by
    rcases bind_eq_error_iff.mp hcode with hfunction | ⟨⟨inner, scope⟩, middle, hfunction, hrest⟩
    · exact ⟨builder.buffer, bind_of_error (Build.inFunction_of_error hbody hfunction)⟩
    · obtain ⟨final, hgoes⟩ := (h inner scope).error
        (builder.moved middle builder.buffer) hrest
      exact ⟨final, (bind_of_ok (Build.inFunction_of_ok hbody hfunction)).trans hgoes⟩

end Function

/-! ### Branches -/

theorem Buffer.code_replaceAt {buffer : Buffer} {before after : List UInt8} {opcode : Opcode}
    {old new : List Nat}
    (hcode : buffer.code.toList = before ++ Instruction.encode opcode old ++ after) :
    (buffer.replaceAt before.length opcode new).code.toList =
      before ++ Instruction.encode opcode new ++ after :=
  toList_overwrite hcode rfl (by simp)

/-- A jump with a target that comes later is always written. -/
theorem Build.emitJump_eq (opcode : Opcode) (hwidths : opcode.widths = [.two])
    (builder : Builder) :
    Build.emitJump opcode builder = .ok builder.buffer.code.size
      { builder with buffer := builder.buffer.append opcode [Build.placeholder] } := by
  simp only [Build.emitJump, Build.emit, hwidths]
  rfl

theorem Build.patchJump_of_ok {opcode : Opcode} (builder : Builder) (position : Nat)
    {code : List Instruction} {draft draft' : Draft}
    (h : Assembly.instruction opcode [builder.buffer.code.size] draft = .ok code draft') :
    code = [⟨opcode, [builder.buffer.code.size]⟩] ∧ draft' = draft ∧
      Build.patchJump position opcode builder = .ok () { builder with
        buffer := builder.buffer.replaceAt position opcode [builder.buffer.code.size] } := by
  simp only [Assembly.instruction] at h
  split at h
  · cases h
  · next hfits =>
    cases h
    exact ⟨rfl, rfl, by simp only [Build.patchJump, hfits]⟩

theorem Build.patchJump_of_error {opcode : Opcode} (builder : Builder) (position : Nat)
    {error : CompileError} {draft draft' : Draft}
    (h : Assembly.instruction opcode [builder.buffer.code.size] draft = .error error draft') :
    draft' = draft ∧ Build.patchJump position opcode builder = .error error builder := by
  simp only [Assembly.instruction] at h
  split at h
  · next hlarge =>
    cases h
    exact ⟨rfl, by simp only [Build.patchJump, hlarge]⟩
  · cases h

section Branch

/-- The part of a branch that is taken otherwise. -/
def Stmt.generateOtherwise : Option (List Stmt) → Build Unit
  | some block => do
    Stmt.generateAll block
    Build.keepValue
  | none => do let _ ← Build.emit .null []

def Stmt.assembleOtherwise : Option (List Stmt) → Nat → Assembly (List Instruction)
  | some block, start => Stmt.assembleAll block .keep start
  | none, _ => Assembly.instruction .null []

variable {alternative : Option (List Stmt)}

theorem Stmt.generateOtherwise_of_ok
    (hwrites : ∀ block, alternative = some block →
      Writes (generateAll block) (assembleAll block .discard))
    (builder : Builder) (hopen : builder.buffer.endsWith .pop = false) {code : List Instruction}
    {draft : Draft}
    (h : assembleOtherwise alternative builder.buffer.code.size builder.draft = .ok code draft) :
    ∃ buffer, generateOtherwise alternative builder = .ok () (builder.moved draft buffer) ∧
      buffer.code = builder.buffer.code ++ encodeAll code := by
  cases alternative with
  | some block => exact keepValue_generateAll (hwrites block rfl) builder hopen h
  | none => exact (Writes.emit .null []).ok builder h

theorem Stmt.generateOtherwise_of_error
    (hwrites : ∀ block, alternative = some block →
      Writes (generateAll block) (assembleAll block .discard))
    (builder : Builder) {error : CompileError} {draft : Draft}
    (h : assembleOtherwise alternative builder.buffer.code.size builder.draft =
      .error error draft) :
    ∃ buffer, generateOtherwise alternative builder = .error error (builder.moved draft buffer) := by
  cases alternative with
  | some block =>
    obtain ⟨buffer, hgenerate⟩ := generateAll_of_keep_error (hwrites block rfl) builder h
    exact ⟨buffer, bind_of_error hgenerate⟩
  | none => exact (Writes.emit .null []).error builder h

variable {test : Build Unit} {testCode : Nat → Assembly (List Instruction)}
  {block : List Stmt}

/-- The code of a branch up to its alternative. The jump at its end, which starts at the offset that
is returned, still has no target. -/
def Build.consequence (test : Build Unit) (block : List Stmt) : Build Nat := do
  test
  let pass ← emitJump .jumpNotTruthy
  Stmt.generateAll block
  keepValue
  let finish ← emitJump .jump
  patchJump pass .jumpNotTruthy
  return finish

def Assembly.consequence (test : Nat → Assembly (List Instruction)) (block : List Stmt)
    (start : Nat) : Assembly (List Instruction) := do
  let test ← test start
  let first ← Stmt.assembleAll block .keep (start + size test + 3)
  let pass ← instruction .jumpNotTruthy [start + size test + 3 + size first + 3]
  return test ++ pass ++ first

theorem Build.consequence_of_ok (htest : Writes test testCode)
    (hblock : Writes (Stmt.generateAll block) (Stmt.assembleAll block .discard))
    {builder : Builder} {code : List Instruction} {draft : Draft}
    (h : Assembly.consequence testCode block builder.buffer.code.size builder.draft =
      .ok code draft) :
    ∃ buffer, Build.consequence test block builder =
        .ok (builder.buffer.code.size + size code) (builder.moved draft buffer) ∧
      buffer.code = builder.buffer.code ++ encodeAll (code ++ [⟨.jump, [placeholder]⟩]) ∧
      buffer.endsWith .pop = false := by
  obtain ⟨tested, middle, htestCode, h⟩ := bind_eq_ok_iff.mp h
  obtain ⟨first, after, hfirst, h⟩ := bind_eq_ok_iff.mp h
  obtain ⟨pass, last, hpass, hend⟩ := bind_eq_ok_iff.mp h
  cases hend
  obtain ⟨buffer, hgoes, hbuffer⟩ := htest.ok builder htestCode
  have hsize := Writes.size_code builder hbuffer
  -- the buffer behind the jump past the consequence
  let opened := builder.moved middle (buffer.append .jumpNotTruthy [placeholder])
  have hopened : opened.buffer.code.size = builder.buffer.code.size + size tested + 3 := by
    rw [← hsize]
    exact Buffer.size_append buffer _ _
  rw [← hopened] at hfirst
  obtain ⟨kept, hkeep, hkept⟩ := Stmt.keepValue_generateAll hblock opened rfl
    hfirst
  have hkeptSize := Writes.size_code opened hkept
  let closed := builder.moved after (kept.append .jump [placeholder])
  have hclosed : closed.buffer.code.size =
      builder.buffer.code.size + size tested + 3 + size first + 3 := by
    rw [← hopened, ← hkeptSize]
    exact Buffer.size_append kept _ _
  rw [← hclosed] at hpass
  obtain ⟨rfl, rfl, hpatch⟩ := patchJump_of_ok closed buffer.code.size hpass
  refine ⟨closed.buffer.replaceAt buffer.code.size .jumpNotTruthy [closed.buffer.code.size],
    ?_, ?_, rfl⟩
  · unfold Build.consequence
    rw [bind_of_ok hgoes, bind_of_ok (emitJump_eq _ rfl _)]
    have hrest := (bind_of_ok (f := fun _ ↦ do
        let finish ← emitJump .jump
        patchJump buffer.code.size .jumpNotTruthy
        return finish) hkeep).trans
      ((bind_of_ok (emitJump_eq .jump rfl _)).trans (bind_of_ok hpatch))
    have hfinish : kept.code.size = builder.buffer.code.size +
        size (tested ++ [⟨.jumpNotTruthy, [closed.buffer.code.size]⟩] ++ first) := by
      rw [hkeptSize, hopened]
      simp only [Instruction.size_append, Instruction.size_cons, Instruction.size_nil]
      change _ + 3 + _ = _ + (_ + (3 + 0) + _)
      omega
    rw [← hfinish]
    simp only [bind_assoc] at hrest
    exact hrest
  · have hcode : closed.buffer.code.toList = (builder.buffer.code.toList ++ encodeAll tested) ++
        Instruction.encode .jumpNotTruthy [placeholder] ++
        (encodeAll first ++ Instruction.encode .jump [placeholder]) := by
      simp [closed, opened, Buffer.append, hkept, hbuffer]
    have hposition : buffer.code.size =
        (builder.buffer.code.toList ++ encodeAll tested).length := by
      simp [hsize]
    refine Array.ext' ?_
    rw [hposition, Buffer.code_replaceAt hcode]
    simp [Instruction.bytes]

theorem Build.consequence_of_error (htest : Writes test testCode)
    (hblock : Writes (Stmt.generateAll block) (Stmt.assembleAll block .discard))
    {builder : Builder} {error : CompileError} {draft : Draft}
    (h : Assembly.consequence testCode block builder.buffer.code.size builder.draft =
      .error error draft) :
    ∃ buffer, Build.consequence test block builder =
      .error error (builder.moved draft buffer) := by
  rcases bind_eq_error_iff.mp h with htestCode | ⟨tested, middle, htestCode, h⟩
  · obtain ⟨buffer, hgoes⟩ := htest.error builder htestCode
    exact ⟨buffer, bind_of_error hgoes⟩
  obtain ⟨buffer, hgoes, hbuffer⟩ := htest.ok builder htestCode
  let opened := builder.moved middle (buffer.append .jumpNotTruthy [placeholder])
  have hopened : opened.buffer.code.size = builder.buffer.code.size + size tested + 3 := by
    rw [← Writes.size_code builder hbuffer]
    exact Buffer.size_append buffer _ _
  have hstart : Build.consequence test block builder = (do
      Stmt.generateAll block
      keepValue
      let finish ← emitJump .jump
      patchJump buffer.code.size .jumpNotTruthy
      return finish) opened := by
    unfold Build.consequence
    rw [bind_of_ok hgoes, bind_of_ok (emitJump_eq _ rfl _)]
    rfl
  rw [hstart]
  rcases bind_eq_error_iff.mp h with hfirst | ⟨first, after, hfirst, h⟩
  · rw [← hopened] at hfirst
    obtain ⟨kept, hgenerate⟩ := Stmt.generateAll_of_keep_error hblock opened hfirst
    exact ⟨kept, bind_of_error hgenerate⟩
  · rw [← hopened] at hfirst
    obtain ⟨kept, hkeep, hkept⟩ := Stmt.keepValue_generateAll hblock opened rfl
      hfirst
    rcases bind_eq_error_iff.mp h with hpass | ⟨_, _, _, hend⟩
    · let closed := builder.moved after (kept.append .jump [placeholder])
      have hclosed : closed.buffer.code.size =
          builder.buffer.code.size + size tested + 3 + size first + 3 := by
        rw [← hopened, ← Writes.size_code opened hkept]
        exact Buffer.size_append kept _ _
      rw [← hclosed] at hpass
      obtain ⟨rfl, hpatch⟩ := patchJump_of_error closed buffer.code.size
        hpass
      have hrest := (bind_of_ok (f := fun _ ↦ do
          let finish ← emitJump .jump
          patchJump buffer.code.size .jumpNotTruthy
          return finish) hkeep).trans
        ((bind_of_ok (emitJump_eq .jump rfl _)).trans (bind_of_error hpatch))
      simp only [bind_assoc] at hrest
      exact ⟨closed.buffer, hrest⟩
    · cases hend

/-- The code of a branch whose alternative may be absent. -/
theorem Writes.branch (htest : Writes test testCode)
    (hblock : Writes (Stmt.generateAll block) (Stmt.assembleAll block .discard))
    (halternative : ∀ block, alternative = some block →
      Writes (Stmt.generateAll block) (Stmt.assembleAll block .discard)) :
    Writes (do
        let finish ← Build.consequence test block
        Stmt.generateOtherwise alternative
        Build.patchJump finish .jump)
      fun start ↦ do
        let code ← Assembly.consequence testCode block start
        let second ← Stmt.assembleOtherwise alternative (start + size code + 3)
        let finish ← Assembly.instruction .jump [start + size code + 3 + size second]
        return code ++ finish ++ second where
  ok builder {code draft} h := by
    obtain ⟨first, middle, hfirst, h⟩ := bind_eq_ok_iff.mp h
    obtain ⟨second, after, hsecond, h⟩ := bind_eq_ok_iff.mp h
    obtain ⟨finish, last, hfinish, hend⟩ := bind_eq_ok_iff.mp h
    cases hend
    obtain ⟨buffer, hgoes, hbuffer, hopen⟩ := Build.consequence_of_ok htest hblock hfirst
    have hsize : buffer.code.size = builder.buffer.code.size + size first + 3 := by
      rw [Writes.size_code builder hbuffer, Instruction.size_append, Nat.add_assoc]
      rfl
    rw [← hsize] at hsecond hfinish
    obtain ⟨whole, hotherwise, hwhole⟩ := Stmt.generateOtherwise_of_ok halternative
      (builder.moved middle buffer) hopen hsecond
    have hend : whole.code.size = buffer.code.size + size second :=
      Writes.size_code (builder.moved middle buffer) hwhole
    rw [← hend] at hfinish
    obtain ⟨rfl, rfl, hpatch⟩ := Build.patchJump_of_ok (builder.moved after whole)
      (builder.buffer.code.size + size first) hfinish
    refine ⟨_, (bind_of_ok hgoes).trans ((bind_of_ok hotherwise).trans hpatch), ?_⟩
    have hcode : whole.code.toList = (builder.buffer.code.toList ++ encodeAll first) ++
        Instruction.encode .jump [Build.placeholder] ++ encodeAll second := by
      simp [hwhole, hbuffer, Instruction.bytes]
    have hposition : builder.buffer.code.size + size first =
        (builder.buffer.code.toList ++ encodeAll first).length := by simp
    refine Array.ext' ?_
    rw [hposition, Builder.buffer_moved, Buffer.code_replaceAt hcode]
    simp [Instruction.bytes]
  error builder {error draft} h := by
    rcases bind_eq_error_iff.mp h with hfirst | ⟨first, middle, hfirst, h⟩
    · obtain ⟨buffer, hgoes⟩ := Build.consequence_of_error htest hblock hfirst
      exact ⟨buffer, bind_of_error hgoes⟩
    obtain ⟨buffer, hgoes, hbuffer, hopen⟩ := Build.consequence_of_ok htest hblock hfirst
    have hsize : buffer.code.size = builder.buffer.code.size + size first + 3 := by
      rw [Writes.size_code builder hbuffer, Instruction.size_append, Nat.add_assoc]
      rfl
    rw [← hsize] at h
    rcases bind_eq_error_iff.mp h with hsecond | ⟨second, after, hsecond, h⟩
    · obtain ⟨whole, hotherwise⟩ := Stmt.generateOtherwise_of_error halternative
        (builder.moved middle buffer) hsecond
      exact ⟨whole, (bind_of_ok hgoes).trans (bind_of_error hotherwise)⟩
    obtain ⟨whole, hotherwise, hwhole⟩ := Stmt.generateOtherwise_of_ok halternative
      (builder.moved middle buffer) hopen hsecond
    rcases bind_eq_error_iff.mp h with hfinish | ⟨_, _, _, hend⟩
    · have hend : whole.code.size = buffer.code.size + size second :=
        Writes.size_code (builder.moved middle buffer) hwhole
      rw [← hend] at hfinish
      obtain ⟨rfl, hpatch⟩ := Build.patchJump_of_error (builder.moved after whole)
        (builder.buffer.code.size + size first) hfinish
      exact ⟨whole, (bind_of_ok hgoes).trans ((bind_of_ok hotherwise).trans hpatch)⟩
    · cases hend

end Branch

/-! ### Programs -/

theorem Assembly.instruction_bind (opcode : Opcode) (operands : List Nat)
    (next : List Instruction → Assembly (List Instruction)) :
    Assembly.instruction opcode operands >>= next =
      match Instruction.oversized? opcode.widths operands with
      | some operand => throw (.operandTooLarge opcode operand)
      | none => next [⟨opcode, operands⟩] := by
  funext draft
  cases h : Instruction.oversized? opcode.widths operands <;>
    simp [bind, EStateM.bind, Assembly.instruction, h]

theorem Expr.generate_branch (condition : Expr) (consequence : List Stmt)
    (alternative : Option (List Stmt)) :
    (Expr.branch condition consequence alternative).generate = (do
      let finish ← Build.consequence condition.generate consequence
      Stmt.generateOtherwise alternative
      Build.patchJump finish .jump) := by
  cases alternative <;>
    simp only [Expr.generate, Build.consequence, Stmt.generateOtherwise, bind_assoc, pure_bind]

theorem Expr.assemble_branch (condition : Expr) (consequence : List Stmt)
    (alternative : Option (List Stmt)) (start : Nat) :
    (Expr.branch condition consequence alternative).assemble start = (do
      let code ← Assembly.consequence condition.assemble consequence start
      let second ← Stmt.assembleOtherwise alternative (start + size code + 3)
      let finish ← Assembly.instruction .jump [start + size code + 3 + size second]
      return code ++ finish ++ second) := by
  rw [Expr.assemble]
  simp only [Assembly.consequence, bind_assoc, pure_bind]
  refine bind_congr fun test ↦ bind_congr fun first ↦ ?_
  rw [Assembly.instruction_bind .jumpNotTruthy, Assembly.instruction_bind .jumpNotTruthy]
  split
  · rfl
  · next hfits =>
    have hsize : ∀ target, start + size (test ++ [⟨.jumpNotTruthy, [target]⟩] ++ first) + 3 =
        start + size test + 3 + size first + 3 := by
      intro target
      simp only [Instruction.size_append, Instruction.size_cons, Instruction.size_nil]
      change start + (_ + (3 + 0) + _) + 3 = _
      omega
    rw [hsize]
    cases alternative <;> rfl

mutual

theorem Expr.writes : (expr : Expr) → Writes expr.generate expr.assemble
  | .int value => by
    simpa only [Expr.generate, Expr.assemble] using
      Writes.addConstant (fun _ ↦ .integer value) fun entry ↦ Writes.emit .constant [entry]
  | .str content => by
    simpa only [Expr.generate, Expr.assemble] using
      Writes.addConstant (.string · content) fun entry ↦ Writes.emit .constant [entry]
  | .bool value => by
    simpa only [Expr.generate, Expr.assemble] using
      Writes.emit (if value then .true else .false) []
  | .ident name => by
    simpa only [Expr.generate, Expr.assemble] using Writes.resolve name Writes.load
  | .unary op operand => by
    simp only [Expr.generate, Expr.assemble]
    cases Opcode.ofPrefix? op with
    | some opcode => exact operand.writes.bind (Writes.emit opcode [])
    | none => exact operand.writes.bind (Writes.failure (.unknownPrefixOperator op))
  | .binary op left right => by
    simp only [Expr.generate, Expr.assemble]
    by_cases hop : op = "<"
    · have h := (right.writes.bind left.writes).bind (Writes.emit .greaterThan [])
      simpa only [hop, if_true, bind_assoc, pure_bind] using h
    · have h := left.writes.bind right.writes
      simp only [hop, if_false]
      cases Opcode.ofInfix? op with
      | some opcode =>
        simpa only [bind_assoc, pure_bind] using h.bind (Writes.emit opcode [])
      | none =>
        simpa only [bind_assoc, pure_bind, throw_bind] using
          h.bind (Writes.failure (.unknownInfixOperator op))
  | .branch condition consequence alternative => by
    simp only [Expr.generate_branch, funext (Expr.assemble_branch _ _ _)]
    refine Writes.branch condition.writes (Stmt.generateAll_writes consequence) ?_
    match alternative with
    | none => rintro block ⟨⟩
    | some other =>
      rintro _ ⟨⟩
      exact Stmt.generateAll_writes other
  | .function parameters body name => by
    simp only [Expr.generate, Expr.assemble]
    refine Writes.inFunction (Stmt.generateAll_writes body) fun code scope ↦ ?_
    exact (Writes.loadAll scope.captured).bind
      (Writes.addConstant _ fun entry ↦ Writes.emit .closure [entry, scope.captured.length])
  | .call callee arguments => by
    have h := (callee.writes.bind (Expr.generateAll_writes arguments)).bind
      (Writes.emit .call [arguments.length])
    simpa only [Expr.generate, Expr.assemble, bind_assoc, pure_bind] using h
  | .array elements => by
    have h := (Expr.generateAll_writes elements).bind (Writes.emit .array [elements.length])
    simpa only [Expr.generate, Expr.assemble] using h
  | .hash pairs => by
    have h := (Expr.generatePairs_writes pairs).bind (Writes.emit .hash [2 * pairs.length])
    simpa only [Expr.generate, Expr.assemble] using h
  | .index collection position => by
    have h := (collection.writes.bind position.writes).bind (Writes.emit .index [])
    simpa only [Expr.generate, Expr.assemble, bind_assoc, pure_bind] using h

theorem Stmt.writes : (stmt : Stmt) → Writes stmt.generate (stmt.assemble .discard)
  | .eval expr => by
    have hcode : (Stmt.eval expr).assemble .discard = fun start ↦ do
        let code ← expr.assemble start
        let finish ← Assembly.instruction .pop []
        return code ++ finish := by
      funext start
      rw [Stmt.assemble]
      rfl
    rw [hcode, Stmt.generate]
    exact expr.writes.bind (Writes.emit .pop [])
  | .bind name value => by
    simp only [Stmt.generate]
    refine Writes.define name fun symbol ↦ ?_
    exact value.writes.bind
      (Writes.emit (if symbol.place = .global then .setGlobal else .setLocal) [symbol.index])
  | .ret value => by
    have hcode : (Stmt.ret value).assemble .discard = fun start ↦ do
        let code ← value.assemble start
        return code ++ (← Assembly.instruction .returnValue []) := by
      funext start
      rw [Stmt.assemble]
    rw [hcode, Stmt.generate]
    exact value.writes.bind (Writes.emit .returnValue [])

theorem Stmt.generateAll_writes :
    (stmts : List Stmt) → Writes (Stmt.generateAll stmts) (Stmt.assembleAll stmts .discard)
  | [] => by simpa only [Stmt.generateAll, Stmt.assembleAll] using Writes.nothing
  | stmt :: rest => by
    have h := stmt.writes.bind (Stmt.generateAll_writes rest)
    simpa only [Stmt.generateAll, Stmt.assembleAll, ite_self] using h

theorem Expr.generateAll_writes :
    (exprs : List Expr) → Writes (Expr.generateAll exprs) (Expr.assembleAll exprs)
  | [] => by simpa only [Expr.generateAll, Expr.assembleAll] using Writes.nothing
  | expr :: rest => by
    have h := expr.writes.bind (Expr.generateAll_writes rest)
    simpa only [Expr.generateAll, Expr.assembleAll] using h

theorem Expr.generatePairs_writes :
    (pairs : List (Expr × Expr)) → Writes (Expr.generatePairs pairs) (Expr.assemblePairs pairs)
  | [] => by simpa only [Expr.generatePairs, Expr.assemblePairs] using Writes.nothing
  | (key, value) :: rest => by
    have h := (key.writes.bind value.writes).bind (Expr.generatePairs_writes rest)
    simpa only [Expr.generatePairs, Expr.assemblePairs, bind_assoc, pure_bind,
      Instruction.size_append, ← Nat.add_assoc] using h

end

/-- Adding a program generates the code that composition assembles, behind the code there was, and
otherwise leaves the error and the draft of composition. -/
theorem add_eq_assemble (builder : Builder) (program : Program) :
    match Stmt.assembleAll program.statements .discard builder.buffer.code.size builder.draft with
    | .ok code draft => ∃ buffer, builder.add program = (none, builder.moved draft buffer) ∧
        buffer.code = builder.buffer.code ++ encodeAll code
    | .error error draft =>
      ∃ buffer, builder.add program = (some error, builder.moved draft buffer) := by
  have hwrites := Stmt.generateAll_writes program.statements
  unfold Builder.add
  split
  · next hcode =>
    obtain ⟨buffer, hgenerate, hbuffer⟩ := hwrites.ok builder hcode
    exact ⟨buffer, by rw [hgenerate], hbuffer⟩
  · next hcode =>
    obtain ⟨buffer, hgenerate⟩ := hwrites.error builder hcode
    exact ⟨buffer, by rw [hgenerate]⟩

end StackScript
