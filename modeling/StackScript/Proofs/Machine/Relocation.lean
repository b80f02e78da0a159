import StackScript.Proofs.Machine.Excerpt
import StackScript.Proofs.Machine.Halting

/-!
Runs of code that stands inside other code. A step in the whole is one of the part
(`Excerpt.Alike.step`), so a run of the whole that halts either comes to the end of the part, with
the part at its end too, or both have ended with a return (`Excerpt.Alike.halts`).
-/

set_option autoImplicit false
set_option relaxedAutoImplicit false

namespace StackScript.Excerpt

open Instruction (size encodeAll Depths)
open Run

/-- The code of the part fits, also where it stands in the whole, and the numbering is right. -/
structure Sound (excerpt : Excerpt) : Prop where
  fits : ∀ instruction ∈ excerpt.code, instruction.Fits
  shifted : ∀ instruction ∈ excerpt.code, (instruction.shift (size excerpt.before)).Fits
  depths : Depths False excerpt.depth (size excerpt.code) 0 excerpt.code

variable {excerpt : Excerpt} {constants : Array Value} {globals longest level mark sp : Nat}
  {whole piece : Machine}

/-! ### Places in the code -/

/-- The function at work goes on elsewhere. -/
theorem Alike.moved (h : excerpt.Alike level sp whole piece) {more ip : Nat}
    (hlevel : piece.callers.isEmpty → more ≤ excerpt.depth ip) :
    excerpt.Alike more sp
      { whole with frame := { whole.frame with ip := excerpt.offset piece.callers + ip } }
      { piece with frame := { piece.frame with ip := ip } } := by
  obtain ⟨mark, h⟩ := h
  refine ⟨mark, { h with frames := ?_ }⟩
  have hframes := h.frames
  dsimp only
  generalize whole.callers = callers at hframes ⊢
  generalize piece.callers = others at hframes hlevel ⊢
  exact hframes.withIp hlevel

theorem Alike.advance (h : excerpt.Alike level sp whole piece) {more count : Nat}
    (hlevel : piece.callers.isEmpty → more ≤ excerpt.depth (piece.frame.ip + count)) :
    excerpt.Alike more sp (whole.advance count) (piece.advance count) := by
  have hmoved := h.moved hlevel
  obtain ⟨mark, h⟩ := h
  rw [← Nat.add_assoc, ← h.frames.ip_eq] at hmoved
  exact hmoved

/-- Both are at the same instruction, which is shifted with the code outside of functions. -/
theorem Frames.instruction {callers others : Array Frame} {frame other : Frame}
    (h : excerpt.Frames mark level callers frame others other) (hexcerpt : excerpt.Sound)
    {done rest : List Instruction} {instruction : Instruction}
    (hcode : other.routine.code.toList = encodeAll (done ++ instruction :: rest))
    (hip : other.ip = size done) (hfits : ∀ inner ∈ done ++ instruction :: rest, inner.Fits) :
    Loaded frame.routine.code frame.ip [instruction.shift (excerpt.offset others)] ∧
      (instruction.shift (excerpt.offset others)).Fits ∧
      (others.isEmpty → instruction ∈ excerpt.code ∧
        instruction.Depth False excerpt.depth (size excerpt.code) other.ip) := by
  have hmem : instruction ∈ done ++ instruction :: rest := by simp
  cases h with
  | @top _ ip _ =>
    have hsame : excerpt.code = done ++ instruction :: rest :=
      Instruction.eq_of_encodeAll_eq hexcerpt.fits hfits hcode
    have hplace : ip = size done := hip
    rw [← hsame] at hmem
    refine ⟨⟨encodeAll (excerpt.before ++ done.map (.shift (size excerpt.before))),
      encodeAll (rest.map (.shift (size excerpt.before)) ++ excerpt.after), ?_, ?_⟩,
      hexcerpt.shifted instruction hmem, fun _ ↦ ⟨hmem, ?_⟩⟩
    · simp [wholeFrame, wholeCode, hsame, offset]
    · simp [wholeFrame, hplace]
    · have hdepths := hexcerpt.depths
      rw [hsame] at hdepths
      have hhere := (Instruction.depths_append.mp hdepths).2.1
      rwa [← hsame, Nat.zero_add, ← hplace] at hhere
  | called =>
    rw [offset_push, Instruction.shift_zero]
    refine ⟨⟨encodeAll done, encodeAll rest, by simp [hcode], by simp [hip]⟩, hfits _ hmem, ?_⟩
    rw [Array.isEmpty_push]
    rintro ⟨⟩

/-! ### Steps -/

variable {instruction : Instruction} {limits : Limits}

/-- A value is taken from the stack, and the functions at work stay the same. -/
theorem Alike.follows_pop (h : excerpt.Alike level sp whole piece)
    (hholds : piece.Holds constants globals) :
    Follows Run.pop Run.pop whole piece fun value after same later ↦
      value = same ∧ later.callers = piece.callers ∧
        ∃ rest, sp = rest + 1 ∧ excerpt.Alike level rest after later := by
  intro value after hfirst
  obtain ⟨same, later, hlater, hvalue, rest, hrest, halike⟩ := h.pop value after hfirst
  have hsafe := safe_pop hholds
  rw [hlater] at hsafe
  exact ⟨same, later, hlater, hvalue, hsafe.2.2.1, rest, hrest, halike⟩

theorem Alike.setIp (h : excerpt.Alike level sp whole piece) {callers : Array Frame}
    (hcallers : piece.callers = callers) {target : Nat}
    (hlevel : callers.isEmpty → sp ≤ excerpt.depth target) :
    excerpt.Lands (Run.setIp (excerpt.offset callers + target)) (Run.setIp target) whole
      piece := by
  subst hcallers
  rintro _ _ ⟨⟩
  exact ⟨_, _, rfl, sp, h.moved hlevel⟩

/-- A jump that takes its condition. -/
theorem Alike.setIpUnless (h : excerpt.Alike (sp - 1) sp whole piece)
    (hholds : piece.Holds constants globals) {target : Nat}
    (hlevel : piece.callers.isEmpty → sp - 1 ≤ excerpt.depth target) :
    excerpt.Lands
      (do if !(← Run.pop).isTruthy then Run.setIp (excerpt.offset piece.callers + target))
      (do if !(← Run.pop).isTruthy then Run.setIp target) whole piece := by
  refine (h.follows_pop hholds).bind ?_
  rintro value after _ later ⟨rfl, hcallers, rest, rfl, halike⟩
  cases value.isTruthy with
  | true => exact .pure ⟨_, halike⟩
  | false => exact halike.setIp hcallers hlevel

/-- What stands at the place is done in both. -/
theorem Alike.steps_perform (h : excerpt.Alike sp sp whole piece)
    (hholds : piece.Holds constants globals) (hfits : instruction.Fits)
    (hvalid : instruction.Valid piece.constants limits)
    (hlocals : limits.locals = piece.frame.routine.locals)
    (hcalled : limits.inFunction = !piece.callers.isEmpty)
    (hplace : piece.callers.isEmpty → instruction ∈ excerpt.code ∧
      instruction.Depth False excerpt.depth (size excerpt.code) piece.frame.ip) :
    excerpt.Steps (Run.perform (instruction.shift (excerpt.offset piece.callers)))
      (Run.perform instruction) (whole.advance instruction.length)
      (piece.advance instruction.length) := by
  have hsp : piece.callers.isEmpty → sp ≤ excerpt.depth piece.frame.ip := by
    obtain ⟨mark, h⟩ := h
    exact h.frames.level_le
  have hreturns : instruction.leadsOn = false → instruction.target? = none →
      piece.callers.isEmpty → ∃ instruction ∈ excerpt.code,
        instruction.leadsOn = false ∧ instruction.target? = none :=
    fun hleads htarget hempty ↦ ⟨instruction, (hplace hempty).1, hleads, htarget⟩
  -- a numbering counts at most as many operands wherever the instruction leads to
  have honward : instruction.leadsOn → piece.callers.isEmpty →
      sp - instruction.takes + instruction.leaves ≤
        excerpt.depth (piece.frame.ip + instruction.length) := fun hleads hempty ↦ by
    have hnext := ((hplace hempty).2.onward hleads).le
    have hcount := hsp hempty
    omega
  have htarget : ∀ target, instruction.target? = some target → piece.callers.isEmpty →
      sp - instruction.takes + instruction.leaves ≤ excerpt.depth target :=
    fun target hjump hempty ↦ by
      have hnext := ((hplace hempty).2.target hjump).2.2.le
      have hcount := hsp hempty
      omega
  have hadvanced := Run.Holds.advance hholds instruction.length
  have hbehind : excerpt.Alike 0 sp (whole.advance instruction.length)
      (piece.advance instruction.length) := h.advance fun _ ↦ Nat.zero_le _
  have hplain : instruction.leadsOn → instruction.target? = none → instruction.opcode ≠ .call →
      excerpt.Steps (Run.perform instruction) (Run.perform instruction)
        (whole.advance instruction.length) (piece.advance instruction.length) := by
    intro hleads hjump hcall
    have hsame := (h.advance (honward hleads)).perform hfits hvalid hlocals hcalled hleads hjump
      hcall
    refine Follows.mono hsame ?_
    rintro _ _ _ _ ⟨rfl, more, ⟨rfl, rest, hrest, hmore⟩, halike⟩
    have hlevel : more = sp - instruction.takes + instruction.leaves := by omega
    exact ⟨rfl, more, hlevel ▸ halike⟩
  obtain ⟨opcode, operands⟩ := instruction
  cases opcode
  case jump =>
    obtain ⟨target, rfl, _⟩ := hfits.eq_single rfl
    exact (hbehind.setIp rfl (htarget target rfl)).goOn
  case jumpNotTruthy =>
    obtain ⟨target, rfl, _⟩ := hfits.eq_single rfl
    exact ((h.advance (honward rfl)).setIpUnless hadvanced (htarget target rfl)).goOn
  case call =>
    obtain ⟨count, rfl, _⟩ := hfits.eq_single rfl
    exact ((h.advance (honward rfl)).call rfl).goOn
  case returnValue =>
    obtain rfl := hfits.eq_nil rfl
    refine (hbehind.follows_pop hadvanced).bind ?_
    rintro value after _ later ⟨rfl, hcallers, rest, _, halike⟩
    exact halike.returnWith value (hcallers ▸ hreturns rfl rfl)
  case ret =>
    obtain rfl := hfits.eq_nil rfl
    exact hbehind.returnWith .null (hreturns rfl rfl)
  case closure =>
    obtain ⟨entry, taken, rfl, _⟩ := hfits.eq_pair rfl
    exact hplain rfl rfl (by simp)
  case constant | setGlobal | getGlobal | setLocal | getLocal | getFree | getBuiltin | array
      | hash =>
    obtain ⟨operand, rfl, _⟩ := hfits.eq_single rfl
    exact hplain rfl rfl (by simp)
  all_goals
    obtain rfl := hfits.eq_nil rfl
    exact hplain rfl rfl (by simp)

/-- A step that does not go beyond the part. -/
theorem Alike.step (h : excerpt.Alike sp sp whole piece) (hexcerpt : excerpt.Sound)
    (hsound : piece.Sound constants globals longest)
    (hwithin : piece.callers.isEmpty → piece.frame.ip ≠ piece.frame.routine.code.size) :
    excerpt.Steps Run.step Run.step whole piece := by
  have hframes : ∃ mark,
      excerpt.Frames mark sp whole.callers whole.frame piece.callers piece.frame := by
    obtain ⟨mark, h⟩ := h
    exact ⟨mark, h.frames⟩
  obtain ⟨mark, hframes⟩ := hframes
  obtain ⟨done, rest, hcode, hip, hwell⟩ := hsound.frame.code
  cases rest with
  | nil =>
    have hend : piece.frame.ip = piece.frame.routine.code.size := by
      rw [hip, ← Array.length_toList, hcode]
      simp
    have hcalled : piece.callers.isEmpty = false := Bool.eq_false_iff.mpr fun hempty ↦
      hwithin hempty hend
    have hreturns : ∀ {machine : Machine}, machine.callers.isEmpty = false →
        machine.frame.ip = machine.frame.routine.code.size →
        Run.step machine = goOn (Run.returnFromCall .null) machine := fun hempty hip ↦ by
      rw [step_at_end hip, hempty]
      rfl
    have hsame := hframes.eq_of_called hcalled
    exact Follows.of_eq (hreturns (hframes.isEmpty_eq.trans hcalled) (hsame ▸ hend))
      (hreturns hcalled hend) (h.returnFromCall .null).goOn
  | cons instruction rest =>
    have hmem : instruction ∈ done ++ instruction :: rest := by simp
    have hloaded : Loaded piece.frame.routine.code piece.frame.ip [instruction] :=
      ⟨encodeAll done, encodeAll rest, by simp [hcode], by simp [hip]⟩
    obtain ⟨hwhole, hshifted, hplace⟩ := hframes.instruction hexcerpt hcode hip hwell.fits
    have hfirst := step_eq_perform hwhole hshifted
    rw [Instruction.length_shift] at hfirst
    refine Follows.of_eq hfirst (step_eq_perform hloaded (hwell.fits _ hmem)) ?_
    exact h.steps_perform hsound.holds (hwell.fits _ hmem) (hsound.holds.pool ▸ hwell.valid _ hmem)
      rfl rfl hplace

/-! ### Runs -/

/-- The code outside of functions was run to its end. -/
structure Ended (machine : Machine) : Prop where
  top : machine.callers.isEmpty
  ip : machine.frame.ip = machine.frame.routine.code.size

theorem Ended.stops (h : Ended piece) : piece.Stops (.ok () piece) := by
  refine .finished ?_
  rw [step_at_end h.ip, h.top]
  rfl

/-- At the end of the part, the whole goes on with the code behind it. -/
theorem Alike.behind (h : excerpt.Alike level sp whole piece) (hended : Ended piece) :
    whole.callers = #[] ∧ whole.frame = excerpt.wholeFrame (size excerpt.code) ∧
      level ≤ excerpt.depth (size excerpt.code) := by
  obtain ⟨mark, h⟩ := h
  have hframes := h.frames
  obtain ⟨hempty, hip⟩ := hended
  generalize whole.callers = callers at hframes ⊢
  generalize piece.callers = others at hframes hempty
  generalize whole.frame = frame at hframes ⊢
  generalize piece.frame = other at hframes hip
  cases hframes with
  | @top _ ip hlevel =>
    obtain rfl : ip = size excerpt.code := by simpa [Excerpt.frame] using hip
    exact ⟨rfl, rfl, hlevel⟩
  | called =>
    rw [Array.isEmpty_push] at hempty
    cases hempty

/-- If a run of the whole halts, so does the part for itself. Either it returned, and the whole has
halted with it, or the whole still has to run what is behind the part. -/
theorem Alike.halts {count : Nat} {last : Machine} (h : excerpt.Alike sp sp whole piece)
    (hexcerpt : excerpt.Sound) (hsound : piece.Sound constants globals longest)
    (hpool : ValidPool constants globals)
    (hlongest : CodeWithin constants longest)
    (hhalts : whole.Halts count (.ok () last)) :
    ∃ steps other, piece.Halts steps (.ok () other) ∧
      ((∃ level sp, excerpt.Alike level sp last other) ∧
          (∃ instruction ∈ excerpt.code, instruction.leadsOn = false ∧ instruction.target? = none) ∨
        Ended other ∧ ∃ sp middle, whole.Reaches steps middle ∧ excerpt.Alike sp sp middle other ∧
          ∃ more, middle.Halts more (.ok () last)) := by
  obtain ⟨after, hreaches, hstops⟩ := hhalts
  induction hreaches generalizing sp piece with
  | here whole =>
    by_cases hended : Ended piece
    · exact ⟨0, piece, ⟨piece, .here _, hended.stops⟩, .inr ⟨hended, sp, whole, .here _, h,
        0, whole, .here _, hstops⟩⟩
    have hstep := h.step hexcerpt hsound fun htop hip ↦ hended ⟨htop, hip⟩
    cases hstops with
    | finished hfinished =>
      obtain ⟨_, other, hother, rfl, halike, hreturns⟩ := hstep _ _ hfinished
      exact ⟨0, other, ⟨piece, .here _, .finished hother⟩, .inl ⟨halike, hreturns⟩⟩
  | @next count whole middle after hfirst hrest ih =>
    by_cases hended : Ended piece
    · exact ⟨0, piece, ⟨piece, .here _, hended.stops⟩, .inr ⟨hended, sp, whole, .here _, h,
        count + 1, after, .next hfirst hrest, hstops⟩⟩
    have hstep := h.step hexcerpt hsound fun htop hip ↦ hended ⟨htop, hip⟩
    obtain ⟨_, other, hother, rfl, more, halike⟩ := hstep _ _ hfirst
    have hnext := hsound.step hpool hlongest
    rw [hother] at hnext
    obtain ⟨steps, final, ⟨stopped, hlast, hstop⟩, hend⟩ := ih halike hnext.1 hstops
    refine ⟨steps + 1, final, ⟨stopped, .next hother hlast, hstop⟩, hend.imp_right ?_⟩
    rintro ⟨hended, sp, behind, hbehind, hmore⟩
    exact ⟨hended, sp, behind, .next hfirst hbehind, hmore⟩

/-- With nothing behind the part, the whole ends as the part does. -/
theorem Alike.halts_last {count : Nat} {last : Machine} (h : excerpt.Alike sp sp whole piece)
    (hlast : excerpt.after = []) (hexcerpt : excerpt.Sound)
    (hsound : piece.Sound constants globals longest) (hpool : ValidPool constants globals)
    (hlongest : CodeWithin constants longest)
    (hhalts : whole.Halts count (.ok () last)) :
    ∃ steps other level sp, piece.Halts steps (.ok () other) ∧
      excerpt.Alike level sp last other := by
  obtain ⟨steps, other, hpiece, hend⟩ := h.halts hexcerpt hsound hpool hlongest hhalts
  rcases hend with ⟨⟨level, sp, halike⟩, _⟩ | ⟨hended, sp, middle, _, halike, more, hmore⟩
  · exact ⟨steps, other, level, sp, hpiece, halike⟩
  obtain ⟨hcallers, hframe, _⟩ := halike.behind hended
  have hmiddle : Ended middle := by
    refine ⟨by rw [hcallers]; rfl, ?_⟩
    rw [hframe]
    simp [wholeFrame, wholeCode, hlast]
  obtain ⟨heq, _⟩ := hmore.unique ⟨middle, .here _, hmiddle.stops⟩
  cases heq
  exact ⟨steps, other, sp, sp, hpiece, halike⟩

end StackScript.Excerpt
