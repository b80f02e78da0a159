import StackScript.Proofs.Program.Layout

/-!
How many operands wait at each place of the code. An instruction takes so many of them and leaves so
many others, whatever they are, so the number at a place need not hang on the way that led there: a
numbering of the places is right if every instruction leads from one number to the next
(`Instruction.Depths`). A strict numbering tells how many operands there are, any other one how many
there are at most. There is one for code that is put together of parts which each begin and end with
certain numbers (`Instruction.Leveled.depths`).
-/

set_option autoImplicit false
set_option relaxedAutoImplicit false

namespace StackScript

open Instruction (size encodeAll)

namespace Instruction

/-- How many operands an instruction removes. -/
def takes (instruction : Instruction) : Nat :=
  match instruction.opcode, instruction.operands with
  | .add, _ | .sub, _ | .mul, _ | .div, _ | .equal, _ | .notEqual, _ | .greaterThan, _
  | .index, _ => 2
  | .bang, _ | .minus, _ | .pop, _ | .jumpNotTruthy, _ | .setGlobal, _ | .setLocal, _
  | .returnValue, _ => 1
  | .array, [count] | .hash, [count] | .closure, [_, count] => count
  | .call, [count] => count + 1
  | _, _ => 0

/-- How many operands are put in their place. -/
def leaves (instruction : Instruction) : Nat :=
  match instruction.opcode with
  | .pop | .jumpNotTruthy | .jump | .setGlobal | .setLocal | .returnValue | .ret => 0
  | _ => 1

/-- Whether the program may go on behind the instruction. -/
def leadsOn (instruction : Instruction) : Bool :=
  match instruction.opcode with
  | .jump | .returnValue | .ret => false
  | _ => true

/-- So many operands meet a number that is no less, and a strict one only if it is the same. -/
structure Meets (strict : Prop) (count number : Nat) : Prop where
  le : count ≤ number
  eq : strict → count = number

variable {strict : Prop}

theorem Meets.refl (count : Nat) : Meets strict count count :=
  ⟨Nat.le_refl count, fun _ ↦ rfl⟩

theorem Meets.trans {first second third : Nat} (h : Meets strict first second)
    (hnext : Meets strict second third) : Meets strict first third :=
  ⟨Nat.le_trans h.le hnext.le, fun hstrict ↦ (h.eq hstrict).trans (hnext.eq hstrict)⟩

/-- At the offset there are the operands that the instruction takes, and those that it leaves are
there wherever it leads to, which is not beyond `stop`. -/
structure Depth (strict : Prop) (depth : Nat → Nat) (stop offset : Nat)
    (instruction : Instruction) : Prop where
  takes : instruction.takes ≤ depth offset
  onward : instruction.leadsOn → Meets strict
    (depth offset - instruction.takes + instruction.leaves) (depth (offset + instruction.length))
  target {target : Nat} : instruction.target? = some target →
    offset < target ∧ target ≤ stop ∧
      Meets strict (depth offset - instruction.takes + instruction.leaves) (depth target)

/-- The numbering is right for code that begins at an offset. -/
def Depths (strict : Prop) (depth : Nat → Nat) (stop : Nat) : Nat → List Instruction → Prop
  | _, [] => True
  | offset, instruction :: rest =>
    instruction.Depth strict depth stop offset ∧
      Depths strict depth stop (offset + instruction.length) rest

/-- Code that begins at an offset with so many operands, and ends with so many others. Where there
is no way to its end, any number will do. -/
inductive Leveled (strict : Prop) : Nat → Nat → List Instruction → Nat → Prop
  | nil (start depth : Nat) : Leveled strict start depth [] depth
  | plain {instruction : Instruction} (start depth : Nat) (hfits : instruction.Fits)
    (hleads : instruction.leadsOn) (htarget : instruction.target? = none) :
    Leveled strict start (depth + instruction.takes) [instruction] (depth + instruction.leaves)
  | last {instruction : Instruction} (start depth after : Nat) (hfits : instruction.Fits)
    (hleads : instruction.leadsOn = false) (htarget : instruction.target? = none) :
    Leveled strict start (depth + instruction.takes) [instruction] after
  | append {start before between after : Nat} {first second : List Instruction}
    (hfirst : Leveled strict start before first between)
    (hsecond : Leveled strict (start + size first) between second after) :
    Leveled strict start before (first ++ second) after
  | branch {start depth after : Nat} {test first second : List Instruction}
    (hpass : Fits ⟨.jumpNotTruthy, [start + size test + 3 + size first + 3]⟩)
    (hfinish : Fits ⟨.jump, [start + size test + 3 + size first + 3 + size second]⟩)
    (htest : Leveled strict start depth test (depth + 1))
    (hfirst : Leveled strict (start + size test + 3) depth first after)
    (hsecond : Leveled strict (start + size test + 3 + size first + 3) depth second after) :
    Leveled strict start depth (Expr.branchCode start test first second) after
  | raise {start before after more : Nat} {code : List Instruction}
    (h : Leveled strict start before code after) (hmeets : Meets strict after more) :
    Leveled strict start before code more

/-! ### Numberings -/

variable {depth other : Nat → Nat} {stop more start offset : Nat} {first second code :
  List Instruction}

theorem depths_append : Depths strict depth stop start (first ++ second) ↔
    Depths strict depth stop start first ∧
      Depths strict depth stop (start + size first) second := by
  induction first generalizing start with
  | nil => simp [Depths]
  | cons instruction rest ih =>
    simp only [List.cons_append, Depths, ih, size_cons, Nat.add_assoc, and_assoc]

/-- A numbering counts only at the offsets of the code and at its end, where it may be more. -/
theorem Depths.congr (h : Depths strict depth stop start code) (hstop : start + size code ≤ stop)
    (hmore : stop ≤ more)
    (hsame : ∀ offset, start ≤ offset → offset < stop → other offset = depth offset)
    (hend : Meets strict (depth stop) (other stop)) : Depths strict other more start code := by
  induction code generalizing start with
  | nil => trivial
  | cons instruction rest ih =>
    obtain ⟨hone, hrest⟩ := h
    have hpositive := instruction.length_pos
    rw [size_cons] at hstop
    have hmeets : ∀ {count next}, start ≤ next → next ≤ stop → Meets strict count (depth next) →
        Meets strict count (other next) := by
      intro count next hfrom hto hcount
      rcases Nat.lt_or_eq_of_le hto with hless | rfl
      · rwa [hsame next hfrom hless]
      · exact hcount.trans hend
    have hhere := hsame start (Nat.le_refl _) (by omega)
    refine ⟨⟨hhere ▸ hone.takes, fun hleads ↦ ?_, fun htarget ↦ ?_⟩, ?_⟩
    · rw [hhere]
      exact hmeets (by omega) (by omega) (hone.onward hleads)
    · obtain ⟨hlater, hwithin, hdepth⟩ := hone.target htarget
      rw [hhere]
      exact ⟨hlater, Nat.le_trans hwithin hmore, hmeets (by omega) hwithin hdepth⟩
    · exact ih hrest (by omega) fun offset hfrom hto ↦ hsame offset (by omega) hto

/-- One numbering before an offset and another one from there on. -/
def splice (offset : Nat) (first second : Nat → Nat) (position : Nat) : Nat :=
  if position < offset then first position else second position

theorem splice_of_lt {first second : Nat → Nat} {position : Nat} (h : position < offset) :
    splice offset first second position = first position :=
  if_pos h

theorem splice_of_le {first second : Nat → Nat} {position : Nat} (h : offset ≤ position) :
    splice offset first second position = second position :=
  if_neg (Nat.not_lt_of_le h)

/-- Two pieces of code are numbered together if the end of the first meets the begin of the
second. -/
theorem Depths.append (hfirst : Depths strict depth (start + size first) start first)
    (hsecond : Depths strict other (start + size first + size second) (start + size first) second)
    (hmeets : Meets strict (depth (start + size first)) (other (start + size first))) :
    Depths strict (splice (start + size first) depth other) (start + size (first ++ second)) start
      (first ++ second) := by
  have hend : start + size (first ++ second) = start + size first + size second := by
    rw [size_append, Nat.add_assoc]
  rw [hend]
  refine depths_append.mpr ⟨?_, ?_⟩
  · refine hfirst.congr (Nat.le_refl _) (Nat.le_add_right _ _) (fun _ _ ↦ splice_of_lt) ?_
    rwa [splice_of_le (Nat.le_refl _)]
  · refine hsecond.congr (Nat.le_refl _) (Nat.le_refl _) (fun _ hfrom _ ↦ splice_of_le hfrom) ?_
    rw [splice_of_le (Nat.le_add_right _ _)]
    exact .refl _

/-- The parts of a branch are numbered together, as both blocks begin with the operands that the
test began with, and end with equally many. -/
theorem Depths.branch {test : List Instruction} {tested taken passed : Nat → Nat}
    {before after : Nat} (htest : Depths strict tested (start + size test) start test)
    (hfirst : Depths strict taken (start + size test + 3 + size first) (start + size test + 3)
      first)
    (hsecond : Depths strict passed (start + size test + 3 + size first + 3 + size second)
      (start + size test + 3 + size first + 3) second)
    (hcondition : tested (start + size test) = before + 1)
    (htaken : Meets strict before (taken (start + size test + 3)))
    (hpassed : Meets strict before (passed (start + size test + 3 + size first + 3)))
    (hleft : taken (start + size test + 3 + size first) = after)
    (hright : passed (start + size test + 3 + size first + 3 + size second) = after) :
    Depths strict (splice (start + size test + 3) tested
        (splice (start + size test + 3 + size first + 3) taken passed))
      (start + size test + 3 + size first + 3 + size second) start
      (Expr.branchCode start test first second) := by
  have hjump : ∀ (opcode : Opcode) (target : Nat), opcode.byteLength = 3 →
      size [⟨opcode, [target]⟩] = 3 := fun opcode target hlength ↦ hlength
  generalize hdepth : splice (start + size test + 3) tested
    (splice (start + size test + 3 + size first + 3) taken passed) = depth
  have htestAt : ∀ offset < start + size test + 3, depth offset = tested offset :=
    fun _ hless ↦ hdepth ▸ splice_of_lt hless
  have hfirstAt : ∀ offset, start + size test + 3 ≤ offset →
      offset < start + size test + 3 + size first + 3 → depth offset = taken offset :=
    fun _ hfrom hless ↦ hdepth ▸ (splice_of_le hfrom).trans (splice_of_lt hless)
  have hsecondAt : ∀ offset, start + size test + 3 + size first + 3 ≤ offset →
      depth offset = passed offset :=
    fun _ hfrom ↦ hdepth ▸ (splice_of_le (by omega)).trans (splice_of_le hfrom)
  have hpass : depth (start + size test) = before + 1 :=
    (htestAt _ (by omega)).trans hcondition
  have hfinish : depth (start + size test + 3 + size first) = after :=
    (hfirstAt _ (by omega) (by omega)).trans hleft
  have hend : depth (start + size test + 3 + size first + 3 + size second) = after :=
    (hsecondAt _ (by omega)).trans hright
  rw [← hfirstAt _ (Nat.le_refl _) (by omega)] at htaken
  rw [← hsecondAt _ (Nat.le_refl _)] at hpassed
  unfold Expr.branchCode
  simp only [depths_append, size_append, hjump .jumpNotTruthy _ rfl, hjump .jump _ rfl,
    ← Nat.add_assoc]
  refine ⟨⟨⟨⟨?_, ⟨⟨?_, ?_, ?_⟩, trivial⟩⟩, ?_⟩, ⟨⟨?_, ?_, ?_⟩, trivial⟩⟩, ?_⟩
  · refine htest.congr (Nat.le_refl _) (by omega) (fun _ _ _ ↦ htestAt _ (by omega)) ?_
    rw [hpass, hcondition]
    exact .refl _
  · rw [hpass]
    exact Nat.le_add_left _ _
  · intro _
    rw [hpass]
    exact htaken
  · rintro target ⟨⟩
    rw [hpass]
    exact ⟨by omega, by omega, hpassed⟩
  · refine hfirst.congr (Nat.le_refl _) (by omega) (fun _ _ _ ↦ hfirstAt _ (by omega) (by omega)) ?_
    rw [hfinish, hleft]
    exact .refl _
  · exact Nat.zero_le _
  · intro hleads
    cases hleads
  · rintro target ⟨⟩
    rw [hfinish, hend]
    exact ⟨by omega, Nat.le_refl _, .refl _⟩
  · refine hsecond.congr (Nat.le_refl _) (Nat.le_refl _) (fun _ hfrom _ ↦ hsecondAt _ hfrom) ?_
    rw [hend, hright]
    exact .refl _

/-- An instruction that is no jump. -/
theorem depths_single {instruction : Instruction} {before after : Nat} (start : Nat)
    (htakes : instruction.takes ≤ before) (hleads : instruction.leadsOn → Meets strict
      (before - instruction.takes + instruction.leaves) after)
    (htarget : instruction.target? = none) :
    ∃ depth, Meets strict before (depth start) ∧ depth (start + size [instruction]) = after ∧
      Depths strict depth (start + size [instruction]) start [instruction] := by
  have hpositive : 0 < size [instruction] := instruction.length_pos
  have hbefore : splice (start + 1) (fun _ ↦ before) (fun _ ↦ after) start = before :=
    splice_of_lt (Nat.lt_succ_self start)
  have hafter : splice (start + 1) (fun _ ↦ before) (fun _ ↦ after) (start + size [instruction]) =
    after := splice_of_le (by omega)
  refine ⟨_, ?_, hafter, ⟨?_, fun hon ↦ ?_, fun hjump ↦ ?_⟩, trivial⟩
  · rw [hbefore]
    exact .refl _
  · rwa [hbefore]
  · rw [hbefore]
    exact hafter.symm ▸ hleads hon
  · rw [htarget] at hjump
    cases hjump

/-- There is a numbering for code that keeps to its levels. -/
theorem Leveled.depths {before after : Nat} (h : Leveled strict start before code after) :
    ∃ depth, Meets strict before (depth start) ∧ depth (start + size code) = after ∧
      Depths strict depth (start + size code) start code := by
  induction h with
  | nil start depth => exact ⟨fun _ ↦ depth, .refl _, rfl, trivial⟩
  | @plain instruction start depth _ _ htarget =>
    refine depths_single start (Nat.le_add_left _ _) (fun _ ↦ ?_) htarget
    rw [Nat.add_sub_cancel]
    exact .refl _
  | last start depth after _ hleads htarget =>
    refine depths_single start (Nat.le_add_left _ _) (fun hon ↦ ?_) htarget
    rw [hleads] at hon
    cases hon
  | @append start before between after first second _ _ ihfirst ihsecond =>
    obtain ⟨depth, hbefore, hbetween, hfirst⟩ := ihfirst
    obtain ⟨other, hmeets, hafter, hsecond⟩ := ihsecond
    rw [← hbetween] at hmeets
    refine ⟨splice (start + size first) depth other, ?_, ?_, hfirst.append hsecond hmeets⟩
    · rcases Nat.eq_zero_or_pos (size first) with hempty | hpositive
      · rw [hempty, Nat.add_zero] at hmeets ⊢
        rw [splice_of_le (Nat.le_refl start)]
        exact hbefore.trans hmeets
      · rwa [splice_of_lt (by omega)]
    · rw [size_append, splice_of_le (by omega), ← Nat.add_assoc, hafter]
  | @branch start before after test first second _ _ _ _ _ ihtest ihfirst ihsecond =>
    obtain ⟨tested, hbefore, hcondition, htest⟩ := ihtest
    obtain ⟨taken, htaken, hleft, hfirst⟩ := ihfirst
    obtain ⟨passed, hpassed, hright, hsecond⟩ := ihsecond
    rw [Expr.size_branchCode]
    refine ⟨_, ?_, ?_, htest.branch hfirst hsecond hcondition htaken hpassed hleft hright⟩
    · rwa [splice_of_lt (by omega)]
    · rw [splice_of_le (by omega), splice_of_le (by omega), hright]
  | @raise start before after more code _ hmeets ih =>
    obtain ⟨depth, hbefore, hafter, hcode⟩ := ih
    have hend : splice (start + size code) depth (fun _ ↦ more) (start + size code) = more :=
      splice_of_le (Nat.le_refl _)
    refine ⟨_, ?_, hend, hcode.congr (Nat.le_refl _) (Nat.le_refl _) (fun _ _ ↦ splice_of_lt) ?_⟩
    · rcases Nat.eq_zero_or_pos (size code) with hempty | hpositive
      · rw [hempty, Nat.add_zero] at hafter hend ⊢
        rw [hend]
        exact hbefore.trans (hafter ▸ hmeets)
      · rwa [splice_of_lt (by omega)]
    · rw [hend, hafter]
      exact hmeets

theorem Leveled.fits {before after : Nat} (h : Leveled strict start before code after) :
    ∀ instruction ∈ code, instruction.Fits := by
  induction h with
  | nil => simp
  | plain _ _ hfits | last _ _ _ hfits => simpa using hfits
  | append _ _ ihfirst ihsecond =>
    exact fun instruction hmem ↦ (List.mem_append.mp hmem).elim (ihfirst _) (ihsecond _)
  | branch hpass hfinish _ _ _ ihtest ihfirst ihsecond =>
    intro instruction hmem
    simp only [Expr.branchCode, List.mem_append, List.mem_singleton] at hmem
    obtain (((hmem | rfl) | hmem) | rfl) | hmem := hmem
    · exact ihtest _ hmem
    · exact hpass
    · exact ihfirst _ hmem
    · exact hfinish
    · exact ihsecond _ hmem
  | raise _ _ ih => exact ih

end Instruction

open Instruction (size encodeAll Leveled Depths)

/-- A strict numbering for the code of a function, which begins without operands. -/
structure Routine.Numbered (routine : Routine) (depth : Nat → Nat) : Prop where
  enter : depth 0 = 0
  code : ∃ code, routine.code.toList = encodeAll code ∧
    (∀ instruction ∈ code, instruction.Fits) ∧ Depths True depth (size code) 0 code

/-- Between two parts that begin without operands there are none. -/
theorem Routine.numbered_of_leveled {routine : Routine} {first second : List Instruction}
    {after : Nat} (hcode : routine.code.toList = encodeAll (first ++ second))
    (hfirst : Leveled True 0 0 first 0) (hsecond : Leveled True (size first) 0 second after) :
    ∃ depth, routine.Numbered depth ∧ depth (size first) = 0 := by
  have hfits := (hfirst.append (by rwa [Nat.zero_add])).fits
  obtain ⟨depth, hbefore, hbetween, hnumbered⟩ := hfirst.depths
  obtain ⟨other, hagree, _, hfollows⟩ := hsecond.depths
  rw [Nat.zero_add] at hbetween
  have hmeets : Instruction.Meets True (depth (0 + size first)) (other (0 + size first)) := by
    rwa [Nat.zero_add, hbetween]
  have hwhole := hnumbered.append (by rwa [Nat.zero_add]) hmeets
  rw [Nat.zero_add, Nat.zero_add] at hwhole
  have hzero : other (size first) = 0 := (hagree.eq trivial).symm
  refine ⟨_, ⟨?_, _, hcode, hfits, hwhole⟩, ?_⟩
  · rcases Nat.eq_zero_or_pos (size first) with hempty | hpositive
    · rw [hempty] at hzero ⊢
      rw [Instruction.splice_of_le (Nat.le_refl 0), hzero]
    · rw [Instruction.splice_of_lt hpositive, ← hbefore.eq trivial]
  · rw [Instruction.splice_of_le (Nat.le_refl _), hzero]

end StackScript
