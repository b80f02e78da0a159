import StackScript.Program.Room
import StackScript.Proofs.Program.Bodies
import StackScript.Proofs.Program.Depth

/-!
How high the operands pile up on the way through code that is run in order. Each instruction takes
some of them and leaves others, so the number before the code tells the number behind each of its
instructions (`Instruction.rise`) and the largest one on the way (`Instruction.peak`). The code of
an expression rises by one, and its peak is what the expression needs (`Expr.climbs`). Where a peak
is too high, there is a first instruction that would exceed the limit, and it leaves one operand
more than there were (`Instruction.exists_exceeding`).
-/

set_option autoImplicit false
set_option relaxedAutoImplicit false

namespace StackScript

open Instruction (size)

namespace Instruction

/-- The instruction leads to the next one and to no other function, and it needs nothing of the
function that it is in. -/
def isStraight (instruction : Instruction) : Bool :=
  match instruction.opcode with
  | .jump | .jumpNotTruthy | .returnValue | .ret | .closure | .getLocal | .setLocal | .getFree
  | .currentClosure => false
  | _ => true

/-- How many operands there are behind the code, if there were so many before it. -/
def rise (height : Nat) : List Instruction → Nat
  | [] => height
  | instruction :: rest => rise (height - instruction.takes + instruction.leaves) rest

/-- The largest number of operands before, between and behind the instructions. -/
def peak (height : Nat) : List Instruction → Nat
  | [] => height
  | instruction :: rest =>
    max height (peak (height - instruction.takes + instruction.leaves) rest)

/-- Each instruction finds as many operands as it takes. -/
def Fed (height : Nat) : List Instruction → Prop
  | [] => True
  | instruction :: rest =>
    instruction.takes ≤ height ∧ Fed (height - instruction.takes + instruction.leaves) rest

variable {first second code : List Instruction} {instruction : Instruction}

theorem rise_append (height : Nat) :
    rise height (first ++ second) = rise (rise height first) second := by
  induction first generalizing height with
  | nil => rfl
  | cons instruction rest ih => exact ih _

theorem rise_le_peak (height : Nat) (code : List Instruction) :
    rise height code ≤ peak height code := by
  induction code generalizing height with
  | nil => exact Nat.le_refl height
  | cons instruction rest ih => exact Nat.le_trans (ih _) (Nat.le_max_right _ _)

theorem le_peak (height : Nat) : height ≤ peak height code := by
  cases code with
  | nil => exact Nat.le_refl height
  | cons instruction rest => exact Nat.le_max_left _ _

theorem peak_append (height : Nat) :
    peak height (first ++ second) = max (peak height first) (peak (rise height first) second) := by
  induction first generalizing height with
  | nil => exact (Nat.max_eq_right (le_peak height)).symm
  | cons instruction rest ih =>
    rw [List.cons_append, peak, ih, peak, rise, Nat.max_assoc]

theorem fed_append {height : Nat} :
    Fed height (first ++ second) ↔ Fed height first ∧ Fed (rise height first) second := by
  induction first generalizing height with
  | nil => exact (iff_of_eq (true_and (Fed height second))).symm
  | cons instruction rest ih => rw [List.cons_append, Fed, Fed, rise, ih, and_assoc]

theorem leaves_le_one (instruction : Instruction) : instruction.leaves ≤ 1 := by
  unfold leaves
  split
  all_goals exact Nat.le_of_ble_eq_true rfl

/-- On the way to a peak that exceeds the limit, there is a first instruction that does. The limit
is reached before it, and it takes nothing away. -/
theorem exists_exceeding {limit height : Nat} (hlimit : 0 < limit) (hheight : height ≤ limit)
    (hpeak : limit < peak height code) :
    ∃ first instruction rest, code = first ++ instruction :: rest ∧ peak height first ≤ limit ∧
      rise height first = limit ∧ instruction.takes = 0 ∧ instruction.leaves = 1 := by
  induction code generalizing height with
  | nil => exact absurd hpeak (Nat.not_lt_of_le hheight)
  | cons instruction rest ih =>
    have hleaves := instruction.leaves_le_one
    by_cases hexceeds : limit < height - instruction.takes + instruction.leaves
    · exact ⟨[], instruction, rest, rfl, hheight, by rw [rise]; omega, by omega, by omega⟩
    · have hrest : limit < peak (height - instruction.takes + instruction.leaves) rest := by
        rw [peak] at hpeak
        omega
      obtain ⟨first, last, others, rfl, hwithin, hrise, hlast⟩ :=
        ih (Nat.le_of_not_lt hexceeds) hrest
      exact ⟨instruction :: first, last, others, rfl, Nat.max_le.mpr ⟨hheight, hwithin⟩, hrise,
        hlast⟩

/-! ### Code that climbs -/

/-- Straight code that adds so many operands to those there were, with so many more of them at its
peak. -/
structure Climbs (values need : Nat) (code : List Instruction) : Prop where
  straight : ∀ instruction ∈ code, instruction.isStraight
  fed (height : Nat) : Fed height code
  rise (height : Nat) : rise height code = height + values
  peak (height : Nat) : peak height code = height + need

namespace Climbs

variable {values need more most : Nat}

theorem values_le (h : Climbs values need code) : values ≤ need := by
  have hle := rise_le_peak 0 code
  rw [h.rise, h.peak, Nat.zero_add, Nat.zero_add] at hle
  exact hle

theorem nil : Climbs 0 0 [] :=
  ⟨nofun, fun _ ↦ trivial, fun _ ↦ rfl, fun _ ↦ rfl⟩

theorem append (h : Climbs values need first) (hnext : Climbs more most second) :
    Climbs (values + more) (max need (values + most)) (first ++ second) := by
  refine ⟨List.forall_mem_append.mpr ⟨h.straight, hnext.straight⟩, fun height ↦ ?_,
    fun height ↦ ?_, fun height ↦ ?_⟩
  · exact fed_append.mpr ⟨h.fed height, hnext.fed _⟩
  · rw [rise_append, h.rise, hnext.rise, Nat.add_assoc]
  · rw [peak_append, h.peak, h.rise, hnext.peak, Nat.add_assoc]
    omega

/-- An instruction that takes none of the operands there are. -/
theorem single (hstraight : instruction.isStraight) (htakes : instruction.takes = 0)
    (hleaves : instruction.leaves = 1) : Climbs 1 1 [instruction] := by
  refine ⟨List.forall_mem_singleton.mpr hstraight, fun height ↦ ?_, fun height ↦ ?_,
    fun height ↦ ?_⟩
  · exact ⟨htakes ▸ Nat.zero_le height, trivial⟩
  · rw [Instruction.rise, Instruction.rise, htakes, hleaves, Nat.sub_zero]
  · rw [Instruction.peak, Instruction.peak, htakes, hleaves, Nat.sub_zero]
    omega

/-- An instruction that puts its result in the place of some of the operands behind the code. -/
theorem after (h : Climbs values need code) (instruction : Instruction) (kept : Nat)
    (hstraight : instruction.isStraight) (hvalues : values = kept + instruction.takes) :
    Climbs (kept + instruction.leaves) (max need (kept + instruction.leaves))
      (code ++ [instruction]) := by
  subst hvalues
  have htrade : ∀ height, height + (kept + instruction.takes) - instruction.takes +
      instruction.leaves = height + (kept + instruction.leaves) := by
    intro height
    omega
  refine ⟨List.forall_mem_append.mpr ⟨h.straight, List.forall_mem_singleton.mpr hstraight⟩,
    fun height ↦ ?_, fun height ↦ ?_, fun height ↦ ?_⟩
  · rw [fed_append, h.rise]
    exact ⟨h.fed height, Nat.le_trans (Nat.le_add_left _ _) (Nat.le_add_left _ _), trivial⟩
  · rw [rise_append, h.rise, Instruction.rise, Instruction.rise, htrade]
  · rw [peak_append, h.rise, h.peak, Instruction.peak, Instruction.peak, htrade]
    have hle := h.values_le
    omega

/-- The one value of an expression, in the place of all operands behind the code. -/
theorem result (h : Climbs values need code) (instruction : Instruction)
    (hstraight : instruction.isStraight) (hvalues : values = instruction.takes)
    (hleaves : instruction.leaves = 1) :
    Climbs 1 (max 1 need) (code ++ [instruction]) := by
  have hafter := h.after instruction 0 hstraight (hvalues.trans (Nat.zero_add _).symm)
  rwa [hleaves, Nat.zero_add, Nat.max_comm] at hafter

end Climbs

end Instruction

/-! ### Programs -/

open Instruction (Climbs)

/-- What the code of whole programs is laid out for: nothing is around them. -/
def Plan.top (constants : Array Value) : Plan :=
  ⟨constants, 0, [], 0⟩

variable {constants : Array Value}

theorem Plan.Loads.climbs {use : Use} {instruction : Instruction}
    (h : (Plan.top constants).Loads use instruction) : Climbs 1 1 [instruction] := by
  cases h with
  | global name slot => exact .single rfl rfl rfl
  | builtin name builtin => exact .single rfl rfl rfl
  | slot name hslot => exact absurd hslot (Nat.not_lt_zero _)
  | self name hdepth => exact absurd hdepth (Nat.lt_irrefl 0)
  | captured _ hindex => cases hindex

theorem Opcode.straight_of_ofPrefix? {op : String} {opcode : Opcode}
    (h : ofPrefix? op = some opcode) :
    let instruction : Instruction := ⟨opcode, []⟩
    instruction.isStraight ∧ instruction.takes = 1 ∧ instruction.leaves = 1 := by
  rcases eq_of_ofPrefix? h with rfl | rfl <;> decide

theorem Opcode.straight_of_ofInfix? {op : String} {opcode : Opcode}
    (h : ofInfix? op = some opcode) :
    let instruction : Instruction := ⟨opcode, []⟩
    instruction.isStraight ∧ instruction.takes = 2 ∧ instruction.leaves = 1 := by
  have hall : ∀ opcode ∈ [Opcode.add, .sub, .mul, .div, .equal, .notEqual, .greaterThan],
      let instruction : Instruction := ⟨opcode, []⟩
      instruction.isStraight ∧ instruction.takes = 2 ∧ instruction.leaves = 1 := by decide
  exact hall opcode (mem_of_ofInfix? h)

/-- Two operands and an instruction that puts one value in their place. -/
theorem Instruction.Climbs.pair {need most : Nat} {first second : List Instruction}
    {instruction : Instruction} (hfirst : Climbs 1 need first) (hsecond : Climbs 1 most second)
    (hstraight : instruction.isStraight) (htakes : instruction.takes = 2)
    (hleaves : instruction.leaves = 1) :
    Climbs 1 (max need (1 + most)) (first ++ second ++ [instruction]) := by
  have hresult := (hfirst.append hsecond).result instruction hstraight htakes.symm hleaves
  have hle := hfirst.values_le
  rwa [Nat.max_eq_right (by omega)] at hresult

mutual

/-- The code of an expression leaves its value, and holds as many operands as the expression needs
at its peak. -/
theorem Expr.climbs : (expr : Expr) → {context : Context} → {start : Nat} →
    {code : List Instruction} → expr.straight → expr.bodies = [] →
    expr.Laid (Plan.top constants) context start code → Climbs 1 expr.need code
  | .int value, _, _, _, _, _, hlaid => by
    rw [Expr.Laid] at hlaid
    rw [hlaid.2, Expr.need]
    exact .single rfl rfl rfl
  | .str content, _, _, _, _, _, hlaid => by
    rw [Expr.Laid] at hlaid
    rw [hlaid.2, Expr.need]
    exact .single rfl rfl rfl
  | .bool value, _, _, _, _, _, hlaid => by
    rw [Expr.Laid] at hlaid
    rw [hlaid, Expr.need]
    cases value with
    | true => exact .single rfl rfl rfl
    | false => exact .single rfl rfl rfl
  | .ident name, _, _, _, _, _, hlaid => by
    rw [Expr.Laid] at hlaid
    obtain ⟨meaning, instruction, _, hloads, rfl⟩ := hlaid
    rw [Expr.need]
    exact hloads.climbs
  | .unary op operand, _, _, _, hstraight, hbodies, hlaid => by
    rw [Expr.Laid] at hlaid
    obtain ⟨opcode, inner, hop, hinner, rfl⟩ := hlaid
    rw [Expr.straight] at hstraight
    rw [Expr.bodies] at hbodies
    have hoperand := operand.climbs hstraight hbodies hinner
    obtain ⟨hstraight, htakes, hleaves⟩ := Opcode.straight_of_ofPrefix? hop
    have hresult := hoperand.result ⟨opcode, []⟩ hstraight htakes.symm hleaves
    rw [Nat.max_eq_right hoperand.values_le] at hresult
    rwa [Expr.need]
  | .binary op left right, _, _, _, hstraight, hbodies, hlaid => by
    rw [Expr.Laid] at hlaid
    rw [Expr.straight, Bool.and_eq_true] at hstraight
    rw [Expr.bodies, List.append_eq_nil_iff] at hbodies
    rw [Expr.need]
    by_cases hop : op = "<"
    · rw [if_pos hop] at hlaid
      obtain ⟨second, first, hsecond, hfirst, rfl⟩ := hlaid
      rw [if_pos hop]
      exact (right.climbs hstraight.2 hbodies.2 hsecond).pair
        (left.climbs hstraight.1 hbodies.1 hfirst) rfl rfl rfl
    · rw [if_neg hop] at hlaid
      obtain ⟨opcode, first, second, hopcode, hfirst, hsecond, rfl⟩ := hlaid
      obtain ⟨hplain, htakes, hleaves⟩ := Opcode.straight_of_ofInfix? hopcode
      rw [if_neg hop]
      exact (left.climbs hstraight.1 hbodies.1 hfirst).pair
        (right.climbs hstraight.2 hbodies.2 hsecond) hplain htakes hleaves
  | .branch _ _ _, _, _, _, hstraight, _, _ => by
    rw [Expr.straight] at hstraight
    cases hstraight
  | .function _ _ _, _, _, _, _, hbodies, _ => by
    rw [Expr.bodies] at hbodies
    exact absurd hbodies (List.cons_ne_nil _ _)
  | .call callee arguments, _, _, _, hstraight, hbodies, hlaid => by
    rw [Expr.Laid] at hlaid
    obtain ⟨first, others, hfirst, hothers, rfl⟩ := hlaid
    rw [Expr.straight, Bool.and_eq_true] at hstraight
    rw [Expr.bodies, List.append_eq_nil_iff] at hbodies
    have hcallee := callee.climbs hstraight.1 hbodies.1 hfirst
    obtain ⟨need, harguments, hneed⟩ := Expr.climbsAll arguments hstraight.2 hbodies.2 hothers
    have hresult := (hcallee.append harguments).result ⟨.call, [arguments.length]⟩ rfl
      (Nat.add_comm _ _) rfl
    have hsame : max 1 (max callee.need (Expr.needFrom 1 arguments)) =
        max 1 (max callee.need (1 + need)) := by
      have hle := hneed 1
      omega
    rwa [Expr.need, hsame]
  | .array elements, _, _, _, hstraight, hbodies, hlaid => by
    rw [Expr.Laid] at hlaid
    obtain ⟨inner, hinner, rfl⟩ := hlaid
    rw [Expr.straight] at hstraight
    rw [Expr.bodies] at hbodies
    obtain ⟨need, helements, hneed⟩ := Expr.climbsAll elements hstraight hbodies hinner
    have hresult := helements.result ⟨.array, [elements.length]⟩ rfl rfl rfl
    have hsame := hneed 0
    rw [Nat.zero_max, Nat.zero_add] at hsame
    rwa [Expr.need, hsame]
  | .hash pairs, _, _, _, hstraight, hbodies, hlaid => by
    rw [Expr.Laid] at hlaid
    obtain ⟨inner, hinner, rfl⟩ := hlaid
    rw [Expr.straight] at hstraight
    rw [Expr.bodies] at hbodies
    obtain ⟨need, hpairs, hneed⟩ := Expr.climbsPairs pairs hstraight hbodies hinner
    have hresult := hpairs.result ⟨.hash, [2 * pairs.length]⟩ rfl rfl rfl
    have hsame := hneed 0
    rw [Nat.zero_max, Nat.zero_add] at hsame
    rwa [Expr.need, hsame]
  | .index collection position, _, _, _, hstraight, hbodies, hlaid => by
    rw [Expr.Laid] at hlaid
    obtain ⟨first, second, hfirst, hsecond, rfl⟩ := hlaid
    rw [Expr.straight, Bool.and_eq_true] at hstraight
    rw [Expr.bodies, List.append_eq_nil_iff] at hbodies
    rw [Expr.need]
    exact (collection.climbs hstraight.1 hbodies.1 hfirst).pair
      (position.climbs hstraight.2 hbodies.2 hsecond) rfl rfl rfl

/-- Behind values that are held already, the need is that much higher. -/
theorem Expr.climbsAll : (exprs : List Expr) → {context : Context} → {start : Nat} →
    {code : List Instruction} → Expr.straightAll exprs → Expr.bodiesAll exprs = [] →
    Expr.LaidAll exprs (Plan.top constants) context start code →
    ∃ need, Climbs exprs.length need code ∧
      ∀ held, max held (Expr.needFrom held exprs) = held + need
  | [], _, _, _, _, _, hlaid => by
    rw [Expr.LaidAll] at hlaid
    subst hlaid
    exact ⟨0, .nil, fun held ↦ Nat.max_eq_left (Nat.zero_le held)⟩
  | expr :: rest, _, _, _, hstraight, hbodies, hlaid => by
    rw [Expr.LaidAll] at hlaid
    obtain ⟨first, others, hfirst, hothers, rfl⟩ := hlaid
    rw [Expr.straightAll, Bool.and_eq_true] at hstraight
    rw [Expr.bodiesAll, List.append_eq_nil_iff] at hbodies
    have hexpr := expr.climbs hstraight.1 hbodies.1 hfirst
    obtain ⟨need, hrest, hneed⟩ := Expr.climbsAll rest hstraight.2 hbodies.2 hothers
    refine ⟨max expr.need (1 + need), ?_, fun held ↦ ?_⟩
    · rw [List.length_cons, Nat.add_comm]
      exact hexpr.append hrest
    · have hle := hexpr.values_le
      have hmore := hneed (held + 1)
      rw [Expr.needFrom]
      omega

theorem Expr.climbsPairs : (pairs : List (Expr × Expr)) → {context : Context} → {start : Nat} →
    {code : List Instruction} → Expr.straightPairs pairs → Expr.bodiesPairs pairs = [] →
    Expr.LaidPairs pairs (Plan.top constants) context start code →
    ∃ need, Climbs (2 * pairs.length) need code ∧
      ∀ held, max held (Expr.needPairs held pairs) = held + need
  | [], _, _, _, _, _, hlaid => by
    rw [Expr.LaidPairs] at hlaid
    subst hlaid
    exact ⟨0, .nil, fun held ↦ Nat.max_eq_left (Nat.zero_le held)⟩
  | (key, value) :: rest, _, _, _, hstraight, hbodies, hlaid => by
    rw [Expr.LaidPairs] at hlaid
    obtain ⟨first, second, others, hfirst, hsecond, hothers, rfl⟩ := hlaid
    rw [Expr.straightPairs, Bool.and_eq_true, Bool.and_eq_true] at hstraight
    rw [Expr.bodiesPairs, List.append_eq_nil_iff, List.append_eq_nil_iff] at hbodies
    have hkey := key.climbs hstraight.1.1 hbodies.1.1 hfirst
    have hvalue := value.climbs hstraight.1.2 hbodies.1.2 hsecond
    obtain ⟨need, hrest, hneed⟩ := Expr.climbsPairs rest hstraight.2 hbodies.2 hothers
    refine ⟨max (max key.need (1 + value.need)) (2 + need), ?_, fun held ↦ ?_⟩
    · rw [List.length_cons, Nat.mul_add, Nat.add_comm]
      exact (hkey.append hvalue).append hrest
    · have hle := hvalue.values_le
      have hmore := hneed (held + 2)
      rw [Expr.needPairs]
      omega

end

theorem Plan.Stores.climbs {meaning : Variable} {instruction : Instruction} {need : Nat}
    {code : List Instruction} (h : (Plan.top constants).Stores meaning instruction)
    (hcode : Climbs 1 need code) : Climbs 0 need (code ++ [instruction]) := by
  cases h with
  | global slot =>
    have hafter := hcode.after ⟨.setGlobal, [slot]⟩ 0 rfl rfl
    exact (Nat.max_zero need) ▸ hafter
  | slot hslot => exact absurd hslot (Nat.not_lt_zero _)

/-- The code of a statement leaves nothing, once the value of a last expression is discarded. -/
theorem Stmt.climbs {stmt : Stmt} {atEnd : Bool} {context : Context} {start : Nat}
    {code : List Instruction} (hstraight : stmt.straight) (hbodies : stmt.bodies = [])
    (hlaid : stmt.Laid atEnd (Plan.top constants) context start code) :
    Climbs 0 stmt.need (code ++ if atEnd && Stmt.yields [stmt] then [⟨.pop, []⟩] else []) := by
  cases stmt with
  | eval expr =>
    rw [Stmt.Laid] at hlaid
    obtain ⟨inner, hinner, rfl⟩ := hlaid
    rw [Stmt.straight] at hstraight
    rw [Stmt.bodies] at hbodies
    have hpop := (expr.climbs hstraight hbodies hinner).after ⟨.pop, []⟩ 0 rfl rfl
    have hneed : max expr.need 0 = expr.need := Nat.max_zero _
    rw [Stmt.need, ← hneed]
    cases atEnd with
    | true =>
      rw [if_pos rfl, List.append_nil]
      exact hpop
    | false =>
      simp only [Bool.false_and, Bool.false_eq_true, if_false, List.append_nil]
      exact hpop
  | bind name value =>
    rw [Stmt.Laid] at hlaid
    obtain ⟨inner, instruction, hinner, hstores, rfl⟩ := hlaid
    rw [Stmt.straight] at hstraight
    rw [Stmt.bodies] at hbodies
    have hyields : (atEnd && Stmt.yields [.bind name value]) = false := Bool.and_false atEnd
    rw [hyields, if_neg Bool.false_ne_true, List.append_nil, Stmt.need]
    exact hstores.climbs (value.climbs hstraight hbodies hinner)
  | ret value =>
    rw [Stmt.straight] at hstraight
    cases hstraight

/-- The code of a straight program, the end of its last expression statement included, leaves
nothing and holds as many operands as the program needs at its peak. -/
theorem Stmt.climbsAll {stmts : List Stmt} {context : Context} {start : Nat}
    {code : List Instruction} (hstraight : Stmt.straightAll stmts)
    (hbodies : Stmt.bodiesAll stmts = [])
    (hlaid : Stmt.LaidAll stmts (Plan.top constants) context start code) :
    Climbs 0 (Stmt.needAll stmts)
      (code ++ if Stmt.yields stmts then [⟨.pop, []⟩] else []) := by
  induction stmts generalizing context start code with
  | nil =>
    rw [Stmt.LaidAll] at hlaid
    subst hlaid
    exact .nil
  | cons stmt rest ih =>
    rw [Stmt.LaidAll] at hlaid
    obtain ⟨first, others, hfirst, hothers, rfl⟩ := hlaid
    rw [Stmt.straightAll, Bool.and_eq_true] at hstraight
    rw [Stmt.bodiesAll, List.append_eq_nil_iff] at hbodies
    have hstmt := Stmt.climbs hstraight.1 hbodies.1 hfirst
    have hrest := ih hstraight.2 hbodies.2 hothers
    rw [Stmt.needAll]
    cases rest with
    | nil =>
      rw [Stmt.LaidAll] at hothers
      subst hothers
      rw [List.append_nil, Stmt.needAll, Nat.max_zero]
      exact hstmt
    | cons other more =>
      have hdiscarded : (List.isEmpty (other :: more) && Stmt.yields [stmt]) = false := rfl
      rw [hdiscarded, if_neg Bool.false_ne_true, List.append_nil] at hstmt
      have hyields : Stmt.yields (stmt :: other :: more) = Stmt.yields (other :: more) := by
        rw [Stmt.yields, Stmt.yields, List.getLast?_cons_cons]
      have hboth := hstmt.append hrest
      rwa [Nat.zero_add, Nat.zero_add, ← List.append_assoc, ← hyields] at hboth

end StackScript
