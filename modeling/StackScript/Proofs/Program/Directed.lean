import StackScript.Proofs.Program.Bodies
import StackScript.Proofs.Program.Levels

/-!
Where the jumps in compiled code lead. A jump out of a block is aimed at the end of what was written
for an expression, and there is always something behind an expression: its value is discarded, bound
or given back. So no jump leads to the end of the code (`Stmt.assembleAll_below`), and code of
functions, which ends with a return, is never left at its end (`Routine.CompiledFrom.closed`).
-/

set_option autoImplicit false
set_option relaxedAutoImplicit false

namespace StackScript

open Instruction (size encodeAll Leveled Depths)

namespace Instruction

/-- An instruction of the code begins at the offset. -/
def Begins (code : List Instruction) (offset : Nat) : Prop :=
  ∃ done instruction rest, code = done ++ instruction :: rest ∧ offset = size done

/-- Every jump leads forward, to where an instruction of the code begins. -/
def Directed (code : List Instruction) : Prop :=
  ∀ done instruction rest target, code = done ++ instruction :: rest →
    instruction.target? = some target →
      size done < target ∧ target < size code ∧ Begins code target

/-- No jump leads to the offset, or beyond. -/
def Below (stop : Nat) (code : List Instruction) : Prop :=
  ∀ instruction ∈ code, ∀ target, instruction.target? = some target → target < stop

variable {stop more : Nat} {first second code : List Instruction}

theorem Below.mono (h : Below stop code) (hmore : stop ≤ more) : Below more code :=
  fun instruction hmem target htarget ↦
    Nat.lt_of_lt_of_le (h instruction hmem target htarget) hmore

theorem below_append : Below stop (first ++ second) ↔ Below stop first ∧ Below stop second :=
  List.forall_mem_append

theorem below_single {instruction : Instruction} (h : instruction.target? = none) :
    Below stop [instruction] := by
  simp [Below, h]

theorem Depths.jumps_below {strict : Prop} {depth : Nat → Nat} {start : Nat}
    (h : Depths strict depth stop start code) : Below (stop + 1) code := by
  induction code generalizing start with
  | nil => exact fun _ hmem ↦ nomatch hmem
  | cons instruction rest ih =>
    obtain ⟨hone, hrest⟩ := h
    rintro other (_ | ⟨_, hmem⟩) target htarget
    · exact Nat.lt_succ_of_le (hone.target htarget).2.1
    · exact ih hrest other hmem target htarget

theorem Leveled.jumps_below {strict : Prop} {start before after : Nat}
    (h : Leveled strict start before code after) : Below (start + size code + 1) code := by
  obtain ⟨_, _, _, hdepths⟩ := h.depths
  exact hdepths.jumps_below

/-- The code of an expression, and what is done with its value. -/
theorem Leveled.append_below {strict : Prop} {start before after : Nat} {last : Instruction}
    (h : Leveled strict start before code after) (htarget : last.target? = none) :
    Below (start + size (code ++ [last])) (code ++ [last]) := by
  have hsize : start + size code + 1 ≤ start + size (code ++ [last]) := by
    have hpositive := last.length_pos
    rw [size_append, size_cons, size_nil]
    omega
  exact Instruction.below_append.mpr ⟨h.jumps_below.mono hsize, below_single htarget⟩

/-- Jumps that lead over whole instructions, but not to the end, are directed. -/
theorem Forward.directed (h : Forward 0 code) (hbelow : Below (size code) code) :
    Directed code := by
  intro done instruction rest target hcode htarget
  have hless := hbelow instruction (hcode ▸ by simp) target htarget
  subst hcode
  obtain ⟨skipped, others, rfl, hposition⟩ := h.right.1 target htarget
  have hpositive := instruction.length_pos
  refine ⟨by omega, hless, ?_⟩
  cases others with
  | nil =>
    rw [List.append_nil, size_append, size_cons] at hless
    omega
  | cons next others =>
    refine ⟨done ++ instruction :: skipped, next, others, by simp, ?_⟩
    rw [size_append, size_cons]
    omega

end Instruction

open Instruction (Below Directed)

section Programs

open Assembly

variable {draft : Draft} {ending : Ending}

theorem Ending.append_below {start before after : Nat} {code : List Instruction}
    (hending : ending ≠ .keep) (h : Leveled False start before code after) :
    Below (start + size (code ++ ending.instructions)) (code ++ ending.instructions) := by
  cases ending with
  | keep => exact absurd rfl hending
  | discard | giveBack => exact h.append_below rfl

/-- No jump leads to the end of a statement, unless its value is kept. -/
theorem Stmt.assemble_below (stmt : Stmt) (hending : ending ≠ .keep) (start : Nat) (draft : Draft) :
    Levels False (stmt.assemble ending start) draft fun code ↦
      Below (start + size code) code := by
  cases stmt with
  | eval expr =>
    rw [Stmt.assemble]
    refine (expr.assemble_levels False.elim start 0 draft).bind fun code _ hcode ↦ .pure ?_
    exact Ending.append_below hending hcode
  | bind name value =>
    rw [Stmt.assemble]
    refine (levels_define name).bind fun symbol _ _ ↦ ?_
    refine (value.assemble_levels False.elim start 0 _).bind fun code _ hcode ↦ ?_
    have htarget : Instruction.target?
        ⟨if symbol.place = .global then .setGlobal else .setLocal, [symbol.index]⟩ = none := by
      split <;> rfl
    refine (levels_instruction (by split <;> rfl)).bind ?_
    rintro _ _ ⟨rfl, _⟩
    exact .pure (hcode.append_below htarget)
  | ret value =>
    rw [Stmt.assemble]
    refine (value.assemble_levels False.elim start 0 draft).bind fun code _ hcode ↦ ?_
    refine (levels_instruction rfl).bind ?_
    rintro _ _ ⟨rfl, _⟩
    exact .pure (hcode.append_below rfl)

theorem Stmt.assembleAll_below (stmts : List Stmt) (hending : ending ≠ .keep) (start : Nat)
    (draft : Draft) : Levels False (Stmt.assembleAll stmts ending start) draft fun code ↦
      Below (start + size code) code := by
  induction stmts generalizing start draft with
  | nil =>
    rw [Stmt.assembleAll]
    exact .pure fun _ hmem ↦ nomatch hmem
  | cons stmt rest ih =>
    have hfirst : (if rest.isEmpty then ending else .discard) ≠ .keep := by
      split
      · exact hending
      · decide
    rw [Stmt.assembleAll]
    refine (stmt.assemble_below hfirst start draft).bind fun first _ hone ↦
      (ih _ _).bind fun others _ hothers ↦ .pure ?_
    rw [Instruction.size_append, ← Nat.add_assoc]
    exact Instruction.below_append.mpr ⟨hone.mono (Nat.le_add_right _ _), hothers⟩

end Programs

/-! ### Functions -/

/-- The instruction gives back a value, or null. -/
def Instruction.IsReturn (instruction : Instruction) : Prop :=
  instruction.opcode = .returnValue ∨ instruction.opcode = .ret

open Instruction (IsReturn)

/-- A body that returns at its end does so in the last instruction of its code. -/
theorem Stmt.assembleAll_ends {body : List Stmt} {draft last : Draft} {start : Nat}
    {code : List Instruction} (hreturns : Stmt.returns body)
    (hassemble : Stmt.assembleAll body .giveBack start draft = .ok code last) :
    ∃ done final, code = done ++ [final] ∧ final.IsReturn := by
  obtain rfl | ⟨front, stmt, rfl⟩ := List.eq_nil_or_concat body
  · cases hreturns
  rw [List.concat_eq_append] at hreturns hassemble
  rw [Stmt.assembleAll_append front (List.cons_ne_nil _ _)] at hassemble
  obtain ⟨first, middle, _, hrest⟩ := bind_eq_ok_iff.mp hassemble
  obtain ⟨second, _, hsecond, ⟨⟩⟩ := bind_eq_ok_iff.mp hrest
  rw [Stmt.assembleAll] at hsecond
  obtain ⟨whole, _, hwhole, hnil⟩ := bind_eq_ok_iff.mp hsecond
  rw [Stmt.assembleAll, pure_bind, List.append_nil] at hnil
  cases hnil
  cases stmt with
  | bind name value => simp [Stmt.returns] at hreturns
  | eval expr =>
    rw [Stmt.assemble] at hwhole
    obtain ⟨value, _, _, ⟨⟩⟩ := bind_eq_ok_iff.mp hwhole
    exact ⟨first ++ value, _, (List.append_assoc _ _ _).symm, .inl rfl⟩
  | ret value =>
    rw [Stmt.assemble] at hwhole
    obtain ⟨value, _, _, hend⟩ := bind_eq_ok_iff.mp hwhole
    obtain ⟨_, _, hgive, ⟨⟩⟩ := bind_eq_ok_iff.mp hend
    cases hgive
    exact ⟨first ++ value, _, (List.append_assoc _ _ _).symm, .inl rfl⟩

/-- The code of a function is whole instructions with directed jumps, and ends with a return. -/
def Routine.Closed (routine : Routine) : Prop :=
  ∃ code, routine.code.toList = encodeAll code ∧ (∀ instruction ∈ code, instruction.Fits) ∧
    Directed code ∧ ∃ done last, code = done ++ [last] ∧ last.IsReturn

theorem Routine.CompiledFrom.closed {routine : Routine} {body : List Stmt}
    {constants : Array Value} {globals free : Nat} (h : routine.CompiledFrom body)
    (hwell : routine.WellFormed constants globals free) : routine.Closed := by
  obtain ⟨draft, inner, last, hassemble, hcode⟩ := h
  have hending : Ending.giveBack ≠ .keep := by decide
  have hbelow := ((Stmt.assembleAll_below body hending 0 draft).of_ok hassemble).2
  rw [Nat.zero_add] at hbelow
  have hfits := ((Stmt.assembleAll_levels body False.elim .giveBack 0 0 draft).of_ok
    hassemble).2.fits
  have hreturn : Instruction.Fits ⟨.ret, []⟩ := .nil
  obtain ⟨code, hbytes, hwell⟩ := hwell
  have hsame : code = inner ++ if Stmt.returns body then [] else [⟨.ret, []⟩] := by
    refine Instruction.eq_of_encodeAll_eq hwell.fits ?_ (hbytes.symm.trans hcode)
    split
    · simpa using hfits
    · exact List.forall_mem_append.mpr ⟨hfits, by simpa using hreturn⟩
  refine ⟨code, hbytes, hwell.fits, hwell.forward.directed ?_, ?_⟩
  · rw [hsame, Instruction.size_append]
    refine Instruction.below_append.mpr ⟨hbelow.mono (Nat.le_add_right _ _), ?_⟩
    split
    · exact fun _ hmem ↦ nomatch hmem
    · exact Instruction.below_single rfl
  · rw [hsame]
    split
    · next hreturns =>
      rw [List.append_nil]
      exact Stmt.assembleAll_ends hreturns hassemble
    · exact ⟨inner, _, rfl, .inr rfl⟩

end StackScript
