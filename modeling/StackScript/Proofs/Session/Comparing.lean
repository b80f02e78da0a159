import StackScript.Proofs.Program.Comparing
import StackScript.Proofs.Session.Identity

/-!
What `==` and `!=` tell about the values of a session. Scalars are compared by content and all else
by its label, and no label is given twice (`Labelling`), so that two values with one label are one
value (`Value.Labelled.eq_of_isSame`). The names of a session are compared by running the piece that
compares them (`Session.Sound.enter_comparing`): two values are pushed, compared and discarded,
instruction by instruction (`Session.Ahead`). Only an error is not equal to itself
(`Moment.Reachable.compares_by_identity`).
-/

set_option autoImplicit false
set_option relaxedAutoImplicit false

namespace StackScript

open Instruction (size encodeAll)
open Relation (ReflTransGen)

namespace Run

variable {machine : Machine} {cells : List (Option Value)} {left right : Value} {op : Opcode}
  {same : Bool}

theorem comparison_of_shows (h : Shows machine.stack (cells ++ [some left, some right]))
    (hsp : machine.sp = cells.length + 2) (hcompare : left.compare op right = .ok same) :
    ∃ stack, comparison op machine =
        .ok () { machine with stack := stack, sp := cells.length + 1 } ∧
      Shows stack (cells ++ [some (.boolean same)]) := by
  have hroom : cells.length < stackSize := by
    have hlength := h.length_le
    simp only [List.length_append, List.length_cons] at hlength
    omega
  rw [List.append_cons] at h
  obtain ⟨once, hright, honce⟩ := pop_of_shows h (by simpa using hsp)
  obtain ⟨twice, hleft, htwice⟩ :
      ∃ twice, pop { machine with stack := once, sp := (cells ++ [some left]).length } =
          .ok left { machine with stack := twice, sp := cells.length } ∧ Shows twice cells :=
    pop_of_shows honce List.length_append
  obtain ⟨stack, hpush, hstack⟩ :
      ∃ stack, push (.boolean same) { machine with stack := twice, sp := cells.length } =
          .ok () { machine with stack := stack, sp := cells.length + 1 } ∧
        Shows stack (cells ++ [some (.boolean same)]) :=
    push_of_shows htwice rfl hroom _
  refine ⟨stack, ?_, hstack⟩
  rw [comparison, bind_of_ok hright, bind_of_ok hleft, hcompare]
  exact hpush

end Run

/-- A program that does no more than compare two names. -/
def Program.comparing (op first second : String) : Program :=
  ⟨[.eval (.binary op (.ident first) (.ident second))]⟩

namespace Session

variable {session : Session} {first second : String} {left right : Value}

/-! ### Comparing what two names stand for -/

/-- The instruction pushes the value on every machine that begins with the globals of the session.
-/
def Pushes (session : Session) (instruction : Instruction) (value : Value) : Prop :=
  instruction.Fits ∧ ∀ machine : Machine,
    machine.globals = Machine.resize globalsSize session.globals →
      Run.perform instruction machine = Run.goOn (Run.push value) machine

/-- The code for a name that has a value. -/
theorem Sound.pushes_of_read (h : session.Sound) {name : String} {value : Value}
    (hread : session.read name = .ok value) (draft : Draft)
    (hscopes : draft.scopes = Builder.bindBuiltins session.scopes) :
    ∃ instruction, session.Pushes instruction value ∧
      ∀ start, (Expr.ident name).assemble start draft = .ok [instruction] draft := by
  obtain ⟨_, houter, _⟩ := Scopes.bindBuiltins_bounded h.draft.scopes h.outer
  have hresolve := resolve_outside name (hscopes ▸ houter : draft.scopes.outer = [])
  rw [hscopes] at hresolve
  unfold read at hread
  split at hread
  · cases hread
  · next symbol hfind =>
    rw [hfind] at hresolve
    split at hread
    · next hindex =>
      obtain ⟨instruction, action, hload, hfits, hperform, haction⟩ := h.loads hfind hindex draft
      refine ⟨instruction, ⟨hfits, fun machine hglobals ↦ ?_⟩, fun start ↦ ?_⟩
      · have hpush := haction machine hglobals
        cases hfetch : symbol.fetch session.globals with
        | error error =>
          rw [hfetch] at hread
          cases hread
        | ok found =>
          rw [hfetch] at hread hpush
          cases hread
          simp only [hperform, Run.goOn, bind, EStateM.bind, hpush]
      · rw [Expr.assemble]
        exact (bind_of_ok hresolve).trans hload
    · cases hread

/-- A machine outside of functions with code ahead of it and values on its stack, which has changed
no global and printed nothing. -/
structure Ahead (session : Session) (rest : List Instruction) (values : List Value)
    (machine : Machine) : Prop where
  code : ∃ done, machine.frame.routine.code.toList = encodeAll (done ++ rest) ∧
    machine.frame.ip = size done
  globals : machine.globals = Machine.resize globalsSize session.globals
  callers : machine.callers = #[]
  output : machine.output = ""
  shows : Shows machine.stack (values.map some)
  sp : machine.sp = values.length

namespace Ahead

variable {machine : Machine} {values others : List Value} {instruction : Instruction}
  {rest : List Instruction}

theorem start (session : Session) (code : List Instruction) (draft : Draft) :
    session.Ahead code [] (session.start code draft) :=
  ⟨⟨[], rfl, rfl⟩, rfl, rfl, rfl, ⟨Array.size_replicate, List.nil_prefix⟩, rfl⟩

/-- Reading on leaves the values where they are. -/
theorem shows_advance (h : session.Ahead rest values machine) (count : Nat) :
    Shows (machine.advance count).stack (values.map some) ∧
      (machine.advance count).sp = (values.map some).length :=
  ⟨h.shows, h.sp.trans (List.length_map _).symm⟩

/-- What an instruction leaves on the stack, the next one finds there. -/
theorem next (h : session.Ahead (instruction :: rest) values machine) (hfits : instruction.Fits)
    (others : List Value) {stack : Array (Option Value)} {sp : Nat} {popped : Option Value}
    (hperform : Run.perform instruction (machine.advance instruction.length) =
      .ok .running { machine.advance instruction.length with
        stack := stack, sp := sp, lastPopped := popped })
    (hshows : Shows stack (others.map some)) (hsp : sp = others.length) :
    ∃ after, Run.step machine = .ok .running after ∧ session.Ahead rest others after ∧
      after.lastPopped = popped := by
  obtain ⟨done, hcode, hip⟩ := h.code
  have hloaded : Loaded machine.frame.routine.code machine.frame.ip [instruction] :=
    ⟨encodeAll done, encodeAll rest, by simp [hcode], by simp [hip]⟩
  refine ⟨_, (Run.step_eq_perform hloaded hfits).trans hperform,
    ⟨⟨done ++ [instruction], ?_, ?_⟩, h.globals, h.callers, h.output, hshows, hsp⟩, rfl⟩
  · simpa [Machine.advance] using hcode
  · simp [Machine.advance, hip]

theorem push {value : Value} (h : session.Ahead (instruction :: rest) values machine)
    (hpushes : session.Pushes instruction value) (hroom : values.length < stackSize) :
    ∃ after, Run.step machine = .ok .running after ∧
      session.Ahead rest (values ++ [value]) after := by
  obtain ⟨hfits, hperform⟩ := hpushes
  obtain ⟨hshows, hsp⟩ := h.shows_advance instruction.length
  obtain ⟨stack, hpush, hstack⟩ := Run.push_of_shows hshows hsp (by simpa using hroom) value
  have hdone := (hperform (machine.advance instruction.length) h.globals).trans (bind_of_ok hpush)
  obtain ⟨after, hstep, hafter, _⟩ := h.next hfits (values ++ [value]) hdone
    (by simpa using hstack) (by simp)
  exact ⟨after, hstep, hafter⟩

theorem compare {opcode : Opcode} {same : Bool} (values : List Value)
    (h : session.Ahead (⟨opcode, []⟩ :: rest) (values ++ [left, right]) machine)
    (hop : opcode ∈ [.equal, .notEqual]) (hcompare : left.compare opcode right = .ok same) :
    ∃ after, Run.step machine = .ok .running after ∧
      session.Ahead rest (values ++ [.boolean same]) after := by
  have hplain : Run.perform ⟨opcode, []⟩ = Run.goOn (Run.comparison opcode) ∧
      Instruction.Fits ⟨opcode, []⟩ := by
    simp only [List.mem_cons, List.not_mem_nil, or_false] at hop
    rcases hop with rfl | rfl
    · exact ⟨rfl, .nil⟩
    · exact ⟨rfl, .nil⟩
  obtain ⟨hperform, hfits⟩ := hplain
  obtain ⟨hshows, hsp⟩ := h.shows_advance (Instruction.length ⟨opcode, []⟩)
  rw [List.map_append] at hshows hsp
  obtain ⟨stack, hcompared, hstack⟩ :=
    Run.comparison_of_shows hshows (hsp.trans List.length_append) hcompare
  have hdone := (congrFun hperform _).trans (bind_of_ok hcompared)
  obtain ⟨after, hstep, hafter, _⟩ := h.next hfits (values ++ [.boolean same]) hdone
    (by simpa using hstack) (by simp)
  exact ⟨after, hstep, hafter⟩

theorem discard (values : List Value) {value : Value}
    (h : session.Ahead (⟨.pop, []⟩ :: rest) (values ++ [value]) machine) :
    ∃ after, Run.step machine = .ok .running after ∧ session.Ahead rest values after ∧
      after.lastPopped = some value := by
  obtain ⟨hshows, hsp⟩ := h.shows_advance (Instruction.length ⟨.pop, []⟩)
  rw [List.map_append] at hshows hsp
  obtain ⟨stack, hpop, hstack⟩ := Run.pop_of_shows hshows (hsp.trans List.length_append)
  have hleft : (values.map some).length = values.length := List.length_map _
  refine h.next .nil values ?_ hstack hleft
  exact bind_of_ok (bind_of_ok hpop)

/-- The program ends behind its code. -/
theorem finish (h : session.Ahead [] values machine) :
    Run.step machine = .ok .finished machine := by
  obtain ⟨done, hcode, hip⟩ := h.code
  have hend : machine.frame.ip = machine.frame.routine.code.size := by
    rw [hip, ← Array.length_toList, hcode]
    simp
  rw [Run.step_at_end hend, h.callers]
  rfl

end Ahead

variable {draft : Draft} {load other : Instruction} {op : String} {opcode : Opcode} {same : Bool}

theorem assembleAll_comparing (hop : Opcode.ofInfix? op = some opcode)
    (hwidths : opcode.widths = [])
    (hload : ∀ start, (Expr.ident first).assemble start draft = .ok [load] draft)
    (hother : ∀ start, (Expr.ident second).assemble start draft = .ok [other] draft) :
    Stmt.assembleAll (Program.comparing op first second).statements .discard 0 draft =
      .ok [load, other, ⟨opcode, []⟩, ⟨.pop, []⟩] draft := by
  have hinstruction : Assembly.instruction opcode [] draft = .ok [⟨opcode, []⟩] draft := by
    simp only [Assembly.instruction, hwidths, Instruction.oversized?]
  have hless : op ≠ "<" := by
    rintro rfl
    cases hop
  have hexpr : (Expr.binary op (.ident first) (.ident second)).assemble 0 draft =
      .ok ([load] ++ [other] ++ [⟨opcode, []⟩]) draft := by
    rw [Expr.assemble, if_neg hless, bind_of_ok (hload _), bind_of_ok (hother _), hop]
    exact bind_of_ok hinstruction
  simp only [Program.comparing, Stmt.assembleAll, Stmt.assemble, List.isEmpty_nil, if_true,
    bind_assoc, pure_bind, Ending.instructions, List.append_nil]
  exact bind_of_ok hexpr

/-- Two values are pushed and compared, and the answer is discarded. -/
theorem halts_comparing (draft : Draft) (hload : session.Pushes load left)
    (hother : session.Pushes other right) (hop : opcode ∈ [.equal, .notEqual])
    (hcompare : left.compare opcode right = .ok same) :
    ∃ count last, last.lastPopped = some (.boolean same) ∧ last.output = "" ∧
      (session.start [load, other, ⟨opcode, []⟩, ⟨.pop, []⟩] draft).Halts count (.ok () last) := by
  obtain ⟨first, hfirst, hahead⟩ :=
    (Ahead.start session [load, other, ⟨opcode, []⟩, ⟨.pop, []⟩] draft).push hload (by decide)
  obtain ⟨second, hsecond, hahead⟩ := hahead.push hother (by simp [stackSize])
  obtain ⟨third, hthird, hahead⟩ := hahead.compare [] hop hcompare
  obtain ⟨last, hfourth, hahead, hpopped⟩ := hahead.discard []
  exact ⟨4, last, hpopped, hahead.output, last,
    .next hfirst (.next hsecond (.next hthird (.next hfourth (.here last)))),
    .finished hahead.finish⟩

/-- The answer to a piece that compares two names. -/
theorem Sound.enter_comparing (h : session.Sound) (hfirst : session.read first = .ok left)
    (hsecond : session.read second = .ok right) (hop : Opcode.ofInfix? op = some opcode)
    (hequality : opcode ∈ [.equal, .notEqual]) (hcompare : left.compare opcode right = .ok same) :
    (session.enter (.comparing op first second)).1 = ⟨.ok (some (.boolean same)), ""⟩ := by
  let draft := (Builder.resume session.scopes session.constants).draft
  obtain ⟨load, hload, hassemble⟩ := h.pushes_of_read hfirst draft rfl
  obtain ⟨other, hother, hassembleOther⟩ := h.pushes_of_read hsecond draft rfl
  have hwidths : opcode.widths = [] := by
    simp only [List.mem_cons, List.not_mem_nil, or_false] at hequality
    rcases hequality with rfl | rfl <;> rfl
  have hcode := assembleAll_comparing hop hwidths hassemble hassembleOther
  obtain ⟨count, last, hpopped, houtput, hhalts⟩ :=
    halts_comparing draft hload hother hequality hcompare
  rw [h.enter_of_halts hcode hhalts]
  simp only [concluded, hpopped, houtput]

theorem contains_of_read {name : String} {value : Value} (h : session.read name = .ok value) :
    (Moment.resting session).Contains value := by
  unfold read at h
  split at h
  · cases h
  split at h
  · next symbol _ _ =>
    unfold Symbol.fetch at h
    split at h
    · split at h
      · next hslot =>
        cases h
        exact .resting (Option.join_eq_some_iff.mp hslot) (.whole _)
      · cases h
    · split at h
      · cases h
        exact .provided _ _
      · cases h
  · cases h

end Session

/-! ### Equality -/

namespace Moment

variable {moment later : Moment}

/-- Spec §E3, comparison by identity. Assumes: the moment of a session is reachable, and the later
one comes behind it (`h`, `hlater`). Of any values, `==` is symmetric and transitive, and `!=` is
its negation. Of the values that the session has at hand at one of the moments, those that are equal
have one type and are shown alike, and each but an error is equal to itself. The names of a session
are compared so; and where `let x = e; x` comes to a value, `let x = e; x == x` answers true, unless
that value is an error. -/
theorem Reachable.compares_by_identity (h : moment.Reachable)
    (hlater : ReflTransGen Next moment later) :
    (∀ a b : Value, ∃ same : Bool, a.compare .equal b = .ok same ∧ b.compare .equal a = .ok same ∧
      a.compare .notEqual b = .ok !same ∧
      ∀ c, same → b.compare .equal c = .ok true → a.compare .equal c = .ok true) ∧
    (∀ a b, moment.Contains a ∨ later.Contains a → moment.Contains b ∨ later.Contains b →
      a.compare .equal a = .ok (decide (a.kind ≠ .error)) ∧
      (a.compare .equal b = .ok true → a.kind = b.kind ∧ a.inspect = b.inspect)) ∧
    (∀ (session : Session) (first second : String) (a b : Value), moment = .resting session →
      session.read first = .ok a → session.read second = .ok b →
      moment.Contains a ∧ moment.Contains b ∧ ∃ same, a.compare .equal b = .ok same ∧
        (session.enter (.comparing "==" first second)).1 = ⟨.ok (some (.boolean same)), ""⟩ ∧
        (session.enter (.comparing "!=" first second)).1 = ⟨.ok (some (.boolean !same)), ""⟩) ∧
    ∀ (name : String) (value : Expr) (builder : Builder) (result : Value Function)
      (world : World), value.branched →
      Builder.new.add (.letThen name value (.self name)) = (none, builder) →
      Stmt.evaluateAll (Eval.call (frameLimit - 1)) {}
        (Program.letThen name value (.ident name)).statements .top 0 {} = .ok (some result) world →
      ∃ machine, Run.run (Machine.new builder.bytecode #[] 0) = .ok () machine ∧
        machine.lastPopped = some (.boolean (decide (result.kind ≠ .error))) := by
  obtain ⟨labelling, hlabelled⟩ := h.labelled_together hlater
  refine ⟨fun a b ↦ ?_, fun a b ha hb ↦ ⟨?_, fun hequal ↦ ?_⟩, ?_,
    fun name value builder result world ↦ Program.run_self⟩
  · refine ⟨a.isSame b, Value.compare_equal a b, ?_, Value.compare_notEqual a b,
      fun c hfirst hsecond ↦ ?_⟩
    · rw [Value.compare_equal, Value.isSame_comm]
    · rw [Value.compare_equal] at hsecond ⊢
      rw [Value.isSame_trans hfirst (Except.ok.inj hsecond)]
  · rw [Value.compare_equal, Value.isSame_self]
    simp [(hlabelled a ha).kind_ne]
  · rw [Value.compare_equal] at hequal
    obtain rfl := (hlabelled a ha).eq_of_isSame (hlabelled b hb) (Except.ok.inj hequal)
    exact ⟨rfl, rfl⟩
  · rintro session first second a b rfl hfirst hsecond
    have hsound : session.Sound := h.numbered.sound
    exact ⟨Session.contains_of_read hfirst, Session.contains_of_read hsecond, a.isSame b,
      Value.compare_equal a b,
      hsound.enter_comparing hfirst hsecond rfl (by simp) (Value.compare_equal a b),
      hsound.enter_comparing hfirst hsecond rfl (by simp) (Value.compare_notEqual a b)⟩

/-- A number under a name, and an array that is compared with itself in the program that makes it.
-/
theorem compares_by_identity_bound : ∃ session : Session,
    (resting session).Reachable ∧ ReflTransGen Next (resting session) (resting session) ∧
    session.read "a" = .ok (.integer 1) ∧
    (session.enter (.comparing "==" "a" "a")).1 = ⟨.ok (some (.boolean true)), ""⟩ ∧
    (session.enter (.comparing "!=" "a" "a")).1 = ⟨.ok (some (.boolean false)), ""⟩ ∧
    ∃ builder result world machine, (Expr.array [.int 1]).branched ∧
      Builder.new.add (.letThen "x" (.array [.int 1]) (.self "x")) = (none, builder) ∧
      Stmt.evaluateAll (Eval.call (frameLimit - 1)) {}
        (Program.letThen "x" (.array [.int 1]) (.ident "x")).statements .top 0 {} =
          .ok (some result) world ∧
      Run.run (Machine.new builder.bytecode #[] 0) = .ok () machine ∧
      machine.lastPopped = some (.boolean true) := by
  obtain ⟨_, _, session, _, hreachable, hanswer, _⟩ := Session.enter_binding
  have hread : session.read "a" = .ok (.integer 1) := by
    rw [hreachable.sound.enter_reading] at hanswer
    cases hvalue : session.read "a" with
    | error error =>
      rw [hvalue] at hanswer
      cases hanswer
    | ok value =>
      rw [hvalue] at hanswer
      cases hanswer
      rfl
  obtain ⟨_, _, hnames, hprograms⟩ := hreachable.moment.compares_by_identity .refl
  obtain ⟨_, _, same, hsame, hequal, hdiffer⟩ := hnames session "a" "a" _ _ rfl hread hread
  obtain rfl : true = same := Except.ok.inj hsame
  obtain ⟨result, world, hresult, hkind⟩ : ∃ result world,
      Stmt.evaluateAll (Eval.call (frameLimit - 1)) {}
        (Program.letThen "x" (.array [.int 1]) (.ident "x")).statements .top 0 {} =
          .ok (some result) world ∧ result.kind = .array := ⟨_, _, rfl, rfl⟩
  have hcompiles : (Builder.new.add (.letThen "x" (.array [.int 1]) (.self "x"))).1 = none := by
    decide +kernel
  rcases hadd : Builder.new.add (.letThen "x" (.array [.int 1]) (.self "x")) with ⟨error?, builder⟩
  rw [hadd] at hcompiles
  obtain rfl : error? = none := hcompiles
  obtain ⟨machine, hrun, hpopped⟩ :=
    hprograms "x" (.array [.int 1]) builder result world (by decide) hadd hresult
  rw [hkind] at hpopped
  exact ⟨session, hreachable.moment, .refl, hread, hequal, hdiffer, builder, result, world, machine,
    by decide, rfl, hresult, hrun, hpopped⟩

/-- An error that a provided function yields is a value, and it is not equal to itself. -/
theorem error_differs_from_itself : ∃ builder message world machine,
    Builder.new.add (.letThen "x" (.call (.ident "len") [.int 1]) (.self "x")) = (none, builder) ∧
    Stmt.evaluateAll (Eval.call (frameLimit - 1)) {}
      (Program.letThen "x" (.call (.ident "len") [.int 1]) (.ident "x")).statements .top 0 {} =
        .ok (some (.error message)) world ∧
    Run.run (Machine.new builder.bytecode #[] 0) = .ok () machine ∧
    machine.lastPopped = some (.boolean false) := by
  have hcompiles : (Builder.new.add
      (.letThen "x" (.call (.ident "len") [.int 1]) (.self "x"))).1 = none := by decide +kernel
  rcases hadd : Builder.new.add (.letThen "x" (.call (.ident "len") [.int 1]) (.self "x")) with
    ⟨error?, builder⟩
  rw [hadd] at hcompiles
  obtain rfl : error? = none := hcompiles
  obtain ⟨message, world, hvalue⟩ : ∃ message world,
      Stmt.evaluateAll (Eval.call (frameLimit - 1)) {}
        (Program.letThen "x" (.call (.ident "len") [.int 1]) (.ident "x")).statements .top 0 {} =
          .ok (some (.error message)) world := ⟨_, _, rfl⟩
  obtain ⟨machine, hrun, hpopped⟩ := Program.run_self (by decide) hadd hvalue
  exact ⟨builder, message, world, machine, rfl, hvalue, hrun, hpopped⟩

end Moment

end StackScript
