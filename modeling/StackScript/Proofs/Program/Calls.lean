import StackScript.Proofs.Program.Simulation

/-!
Calls are carried out. A call with the callee and the arguments on the stack leads to a site of its
own, where the code of the body is carried out; what the body gives back takes the place of the
callee and the arguments, and the slots of the caller are as they were. As at most `frameLimit`
functions are at work, this holds by induction on how many more there can be (`Eval.call_carries`).
-/

set_option autoImplicit false
set_option relaxedAutoImplicit false

namespace StackScript

open Instruction (size)

theorem forall₂_replicate {α β : Type} {relation : α → β → Prop} {value : α} {other : β}
    (h : relation value other) (count : Nat) :
    List.Forall₂ relation (List.replicate count value) (List.replicate count other) := by
  induction count with
  | zero => exact .nil
  | succ count ih => exact .cons h ih

/-- A body that ends its function with its value, or with null. -/
def Eval.giveBack (body : Eval (Option (Value Function))) : Eval Empty := do
  throw (.returned ((← body).getD .null))

namespace Site

/-- The site of a function that is called from a site. -/
def entered (site : Site) (ip : Nat) (label : Label) (function : Function) (routine : Routine)
    (captured : List (Value Function)) (free : List Value) (lower : List (Option Value)) : Site where
  plan := function.plan site.plan.constants
  activation :=
    { depth := function.context.depth
      self := .closure label function captured
      captures := function.captures
      captured := captured }
  frame := { label := label, routine := routine, free := free, ip := 0, base := lower.length }
  callers := site.callers.push { site.frame with ip := ip }
  lower := lower

variable {site : Site} {world : World} {held : List Value} {ip : Nat} {machine : Machine}

/-- What is not of the function at work is still the same when its slots change. -/
theorem matches_withLocals {constants : Array Value} (h : world.Matches constants machine)
    (locals : List (Option (Value Function))) :
    World.Matches constants { world with locals := locals } machine :=
  ⟨h.globalsSize, h.globals, h.discarded, h.serial, h.output⟩

namespace Stands

/-! ### Before the call -/

/-- The callee is the value below the arguments. -/
theorem call_eq {callee : Value} {results : List Value}
    (h : site.Stands world (held ++ [callee] ++ results) ip machine) :
    Run.call results.length machine = Run.callValue callee results.length machine := by
  obtain ⟨locals, _, hfloor, hshows⟩ := h.shows
  have hcells : site.lower ++ locals ++ (held ++ [callee] ++ results).map some =
      (site.lower ++ locals ++ held.map some) ++ some callee :: results.map some := by simp
  rw [hcells] at hshows
  have hsp : machine.sp =
      (site.lower ++ locals ++ held.map some).length + (results.length + 1) := by
    rw [h.sp, ← hfloor]
    simp only [List.length_append, List.length_map, List.length_singleton]
    omega
  exact Run.call_of_shows hshows hsp

/-! ### Provided functions -/

/-- The topmost value is dropped without a trace. -/
theorem setSp {value : Value} (h : site.Stands world (held ++ [value]) ip machine) :
    site.Stands world held ip { machine with sp := site.floor + held.length } := by
  obtain ⟨locals, hlocals, hfloor, hshows⟩ := h.shows
  rw [List.map_append, ← List.append_assoc] at hshows
  exact h.restack ⟨locals, hlocals, hshows.left⟩ rfl

theorem answers_callBuiltin {callee : Value} {values : List (Value Function)}
    {results : List Value} (h : site.Stands world (held ++ [callee] ++ results) ip machine)
    (hvalues : List.Forall₂ (Value.Compiled site.plan.constants) values results)
    (builtin : Builtin) :
    site.Answers (Run.callBuiltin builtin results.length) machine
      ((do
        Eval.print (builtin.printed values)
        return builtin.call (← Eval.freshLabel) values) world)
      fun _ after value world ↦ site.Leaves held ip value world after := by
  have hroom := h.room
  simp only [List.length_append, List.length_singleton] at hroom
  obtain ⟨taken, htake, htaken⟩ := h.takeTop rfl
  refine .of_ok htake ?_
  rw [Builtin.printed_eq hvalues]
  refine (htaken.answers_print _).bind ?_
  rintro _ printed _ world hprinted
  refine hprinted.answers_freshLabel.bind ?_
  rintro label last _ world ⟨rfl, hlast⟩
  have hsp : last.sp = site.floor + held.length + 1 := by
    rw [hlast.sp, List.length_append, Nat.add_assoc]
    rfl
  have hdropped := hlast.setSp
  have hpush := hdropped.answers_push (Builtin.call_related hvalues label builtin) (by omega)
  unfold Answers at hpush ⊢
  rw [Run.getSp_bind, hsp]
  exact hpush

end Stands

/-! ### Functions -/

section Function

variable {label : Label} {function : Function} {routine : Routine}
  {captured : List (Value Function)} {free : List Value} {lower : List (Option Value)}

theorem sound_entered (haccepts : function.captures.Nodup)
    (hclosure : Value.Compiled site.plan.constants (.closure label function captured)
      (.closure label routine free)) :
    (site.entered ip label function routine captured free lower).Sound := by
  cases hclosure with
  | closure _ hcompiled hfree =>
    exact ⟨rfl, rfl, rfl, haccepts, hfree, hfree.length_eq.trans hcompiled.captures.symm,
      fun _ ↦ .closure label hcompiled hfree⟩

/-- The machine after the call, its slots set to the arguments. -/
theorem Stands.enter (function : Function) (captured : List (Value Function))
    {values : List (Value Function)} {results : List Value}
    (h : site.Stands world (held ++ [.closure label routine free] ++ results) ip machine)
    (hvalues : List.Forall₂ (Value.Compiled site.plan.constants) values results)
    (hparameters : results.length = routine.parameters) (hslots : routine.locals = function.slots)
    (hroom : results.length ≤ function.slots)
    (hframes : machine.callers.size + 1 < frameLimit)
    (hfits : site.floor + held.length + 1 + function.slots ≤ stackSize) :
    ∃ locals after,
      List.Forall₂ (Option.Rel (Value.Compiled site.plan.constants)) world.locals locals ∧
      Run.callClosure label routine free results.length machine = .ok () after ∧
      (site.entered ip label function routine captured free
        (site.lower ++ locals ++ held.map some ++ [some (.closure label routine free)])).Stands
        { world with
          locals := values.map some ++ List.replicate (function.slots - values.length) none }
        [] 0 after := by
  obtain ⟨locals, hlocals, hfloor, hshows⟩ := h.shows
  have hcells : site.lower ++ locals ++
      (held ++ [Value.closure label routine free] ++ results).map some =
      site.lower ++ locals ++ held.map some ++ [some (.closure label routine free)] ++
        results.map some := by simp
  rw [hcells] at hshows
  generalize hlower : site.lower ++ locals ++ held.map some ++
    [some (.closure label routine free)] = lower at hshows ⊢
  have hlength : lower.length = site.floor + held.length + 1 := by
    rw [← hlower, ← hfloor]
    simp only [List.length_append, List.length_map, List.length_singleton]
  have hsp : machine.sp = lower.length + results.length := by
    rw [h.sp, hlength]
    simp
    omega
  obtain ⟨stack, hcall, hcleared⟩ := Run.callClosure_of_shows label free hshows hsp hparameters
    (by omega) hframes (by omega)
  rw [hslots] at hcleared
  subst hlower
  refine ⟨locals, _, hlocals, hcall, h.constants, rfl, ?_, matches_withLocals ?_ _, ?_, ?_, ?_⟩
  · change machine.callers.push machine.frame = _
    rw [h.callers, h.frame]
    rfl
  · exact ⟨h.rest.globalsSize, h.rest.globals, h.rest.discarded, h.rest.serial, h.rest.output⟩
  · change (values.map some ++ List.replicate (function.slots - values.length) none).length = _
    rw [List.length_append, List.length_map, List.length_replicate, hvalues.length_eq]
    exact Nat.add_sub_cancel' hroom
  · refine ⟨results.map some ++ List.replicate (function.slots - results.length) none, ?_, ?_⟩
    · rw [hvalues.length_eq]
      refine List.rel_append ?_ ?_
      · exact List.forall₂_map_left_iff.mpr (List.forall₂_map_right_iff.mpr
          (hvalues.imp fun _ _ hone ↦ .some hone))
      · exact forall₂_replicate Option.Rel.none _
    · simpa [entered] using hcleared
  · exact congrArg _ hslots

/-- The machine back at the caller, with the result in the place of the callee. -/
theorem Stands.returnWith {locals : List (Option Value)} {before : List (Option (Value Function))}
    {callee : Option Value} {inner : List Value} {last : Nat} {value : Value Function}
    {result : Value}
    (h : (site.entered ip label function routine captured free
      (site.lower ++ locals ++ held.map some ++ [callee])).Stands world inner last machine)
    (hlocals : List.Forall₂ (Option.Rel (Value.Compiled site.plan.constants)) before locals)
    (hcount : before.length = site.plan.slots)
    (hvalue : value.Compiled site.plan.constants result) :
    ∃ after, Run.returnWith result machine = .ok .running after ∧
      site.Leaves held ip value { world with locals := before } after := by
  obtain ⟨_, _, _, hshows⟩ := h.shows
  have hlower := hshows.left.left
  have hlength : (site.lower ++ locals ++ held.map some).length = site.floor + held.length := by
    simp only [List.length_append, List.length_map, ← hlocals.length_eq, hcount, floor]
  have hbase : machine.frame.base = site.floor + held.length + 1 := by
    rw [h.frame, ← hlength]
    exact List.length_append
  have hroom : site.floor + held.length < stackSize := by
    have hle := hlower.length_le
    simp only [entered, List.length_append, List.length_map, List.length_singleton] at hle hlength
    omega
  have hcallers : machine.callers = site.callers.push { site.frame with ip := ip } := h.callers
  obtain ⟨stack, hdone, hpushed⟩ := Run.returnFromCall_of_shows hlower.left hcallers
    (hlength ▸ hbase) (hlength ▸ hroom) result
  have htop : Run.atTopLevel machine = .ok false machine := by
    unfold Run.atTopLevel
    rw [hcallers]
    simp
  refine ⟨_, (bind_of_ok htop).trans (bind_of_ok hdone), result, hvalue, h.constants, rfl, rfl,
    matches_withLocals ?_ before, hcount, ⟨locals, hlocals, by simpa using hpushed⟩, ?_⟩
  · exact ⟨h.rest.globalsSize, h.rest.globals, h.rest.discarded, h.rest.serial, h.rest.output⟩
  · simp only [hlength, List.length_append, List.length_singleton, Nat.add_assoc]

/-- A body is on its way back when it comes to its end. -/
theorem carries_body {call : Caller} (hsound : site.Sound) (hcall : site.Calls call)
    {body : List Stmt} {context : Context} {code : List Instruction} {height : Nat}
    (hbranched : Stmt.branchedAll body)
    (hlaid : Stmt.LaidAll body site.plan context 0 code)
    (hcode : site.Has 0 (code ++ Function.closing body)) (h : site.Stands world [] 0 machine)
    (hheight : height = site.floor) :
    site.Carries machine (Eval.giveBack
      (Stmt.evaluateAll call site.activation body context height) world) fun _ _ _ ↦ True := by
  refine (Stmt.carriesAll hsound hcall body hbranched hlaid hcode.left h hheight).with_outcome.bind
    ?_
  rintro yielded world after ⟨hleaves, hevaluate⟩
  obtain ⟨hyields, hreturns⟩ := Stmt.isSome_of_evaluateAll hevaluate
  have hclosing := hcode.right
  unfold Function.closing at hclosing
  rw [hreturns, ← hyields] at hclosing
  cases yielded with
  | some value =>
    obtain ⟨result, hvalue, hstands⟩ := hleaves
    exact hstands.carries_return hclosing hvalue
  | none => exact Stands.carries_returnNull hleaves hclosing

/-- What a body gives back is the value of the call. -/
theorem carries_activate {locals : List (Option Value)} {callee : Option Value}
    {slots : List (Option (Value Function))} {body : Eval (Option (Value Function))}
    (h : (site.entered ip label function routine captured free
      (site.lower ++ locals ++ held.map some ++ [callee])).Carries machine
      (Eval.giveBack body { world with locals := slots }) fun _ _ _ ↦ True)
    (hlocals : List.Forall₂ (Option.Rel (Value.Compiled site.plan.constants)) world.locals locals)
    (hcount : world.locals.length = site.plan.slots) :
    site.Carries machine (Eval.activate slots body world) (site.Leaves held ip) := by
  have hback : ∀ {value : Value Function} {after : World}, Eval.giveBack body
      { world with locals := slots } = .error (.returned value) after →
      site.Carries machine (.ok value { after with locals := world.locals })
        (site.Leaves held ip) := by
    intro value after hvalue
    rw [hvalue] at h
    obtain ⟨count, middle, result, inner, last, returned, hreaches, hstep, hresult, hstands⟩ := h
    obtain ⟨final, hreturn, hleaves⟩ := hstands.returnWith hlocals hcount hresult
    exact ⟨count + 1, final, hreaches.trans (.next (hstep.trans hreturn) (.here final)), hleaves⟩
  unfold Eval.activate
  cases hbody : body { world with locals := slots } with
  | ok yielded after => exact hback (bind_of_ok hbody)
  | error stop after =>
    cases stop with
    | returned value => exact hback (bind_of_error hbody)
    | failed error =>
      have hgive : Eval.giveBack body { world with locals := slots } =
          .error (.failed error) after := bind_of_error hbody
      rw [hgive] at h
      obtain ⟨count, middle, last, hreaches, hstep, hmatches⟩ := h
      exact ⟨count, middle, last, hreaches, hstep, matches_withLocals hmatches _⟩
    | stuck =>
      have hgive : Eval.giveBack body { world with locals := slots } = .error .stuck after :=
        bind_of_error hbody
      rw [hgive] at h
      exact h

end Function

end Site

/-! ### All calls -/

/-- The checks of a call in their order. -/
theorem Eval.call_closure_eq (frames : Nat) (label : Label) (function : Function)
    (captured values : List (Value Function)) (height : Nat) (world : World) :
    Eval.call frames (.closure label function captured) values height world =
      if values.length ≠ function.parameters.length then
        .error (.failed (.wrongArity function.parameters.length values.length)) world
      else
        match frames with
        | 0 => .error (.failed .frameOverflow) world
        | frames + 1 =>
          if stackSize < height + 1 + function.slots then .error (.failed .stackOverflow) world
          else
            Eval.activate
              (values.map some ++ List.replicate (function.slots - values.length) none)
              (Stmt.evaluateAll (Eval.call frames)
                { depth := function.context.depth
                  self := .closure label function captured
                  captures := function.captures
                  captured := captured } function.body function.context
                (height + 1 + function.slots)) world := by
  cases frames with
  | zero =>
    rw [Eval.call]
    by_cases hcount : values.length ≠ function.parameters.length
    · rw [if_pos hcount, if_pos hcount]
      rfl
    · rw [if_neg hcount, if_neg hcount]
      rfl
  | succ frames =>
    rw [Eval.call]
    by_cases hcount : values.length ≠ function.parameters.length
    · rw [if_pos hcount, if_pos hcount]
      rfl
    · rw [if_neg hcount, if_neg hcount]
      dsimp only
      by_cases hroom : stackSize < height + 1 + function.slots
      · rw [if_pos hroom, if_pos hroom]
        rfl
      · rw [if_neg hroom, if_neg hroom]

section Calls

variable {site : Site} {world : World} {held : List Value} {ip : Nat} {machine : Machine}

/-- A call of what is no function. -/
theorem Site.Stands.carries_callOther {callee : Value Function} {result : Value}
    {values : List (Value Function)} {results : List Value} {frames : Nat}
    (h : site.Stands world (held ++ [result] ++ results) ip machine)
    (hvalues : List.Forall₂ (Value.Compiled site.plan.constants) values results)
    (hcode : site.Has ip [⟨.call, [values.length]⟩])
    (hcallee : callee.Compiled site.plan.constants result)
    (hother : ∀ label function captured, callee ≠ .closure label function captured) :
    site.Carries machine (Eval.call frames callee values (site.floor + held.length) world)
      (site.Leaves held (ip + 2)) := by
  rw [hvalues.length_eq] at hcode
  have hadvanced := h.advance 2
  refine h.carries hcode rfl ?_
  change site.Answers (Run.call results.length) (machine.advance 2) _ _
  cases hcallee with
  | closure label _ _ => exact absurd rfl (hother label _ _)
  | builtin builtin =>
    have hbuiltin := hadvanced.answers_callBuiltin hvalues builtin
    unfold Site.Answers at hbuiltin ⊢
    rw [hadvanced.call_eq, Eval.call]
    exact hbuiltin
  | _ =>
    unfold Site.Answers
    rw [hadvanced.call_eq, Eval.call]
    · exact ⟨rfl, hadvanced.rest⟩
    all_goals
      intros
      contradiction

/-- A call of a function, given that calls inside it are carried out. -/
theorem Site.Stands.carries_callClosure {label : Label} {function : Function} {routine : Routine}
    {captured values : List (Value Function)} {free results : List Value} {frames : Nat}
    (h : site.Stands world (held ++ [.closure label routine free] ++ results) ip machine)
    (hvalues : List.Forall₂ (Value.Compiled site.plan.constants) values results)
    (hcode : site.Has ip [⟨.call, [values.length]⟩])
    (hclosure : Value.Compiled site.plan.constants (.closure label function captured)
      (.closure label routine free))
    (hframes : frames + site.callers.size + 1 = frameLimit)
    (hcalls : ∀ {inner : Site} {fewer : Nat}, frames = fewer + 1 →
      inner.callers.size = site.callers.size + 1 → inner.Calls (Eval.call fewer)) :
    site.Carries machine
      (Eval.call frames (.closure label function captured) values (site.floor + held.length) world)
      (site.Leaves held (ip + 2)) := by
  have hcompiled : function.Compiled site.plan.constants routine free.length := by
    cases hclosure with
    | closure _ hcompiled _ => exact hcompiled
  obtain ⟨hbranched, _, inner, hlaid, haccepts, rfl⟩ := hcompiled
  rw [hvalues.length_eq] at hcode
  have hadvanced := h.advance 2
  have hcall : Run.call results.length (machine.advance 2) =
      Run.callClosure label (function.routine inner) free results.length (machine.advance 2) :=
    hadvanced.call_eq
  have hfails : ∀ {error : RunError},
      Run.callClosure label (function.routine inner) free results.length (machine.advance 2) =
        .error error (machine.advance 2) →
      site.Carries machine (.error (.failed error) world) (site.Leaves held (ip + 2)) := by
    intro error herror
    refine h.carries hcode rfl ?_
    change site.Answers (Run.call results.length) (machine.advance 2) _ _
    unfold Site.Answers
    rw [hcall, herror]
    exact ⟨rfl, hadvanced.rest⟩
  have hchecks := Run.callClosure_eq (machine.advance 2) label
    (function.routine inner) free results.length
  rw [Eval.call_closure_eq, hvalues.length_eq]
  by_cases hcount : results.length ≠ function.parameters.length
  · rw [if_pos hcount]
    exact hfails (hchecks.trans (if_pos hcount))
  rw [if_neg hcount]
  replace hchecks := hchecks.trans (if_neg hcount)
  have hsize : (machine.advance 2).callers.size = site.callers.size :=
    congrArg Array.size hadvanced.callers
  cases frames with
  | zero => exact hfails (hchecks.trans (if_pos (by omega)))
  | succ frames =>
    have hparameters := haccepts.parameters
    have hsp : (machine.advance 2).sp = site.floor + held.length + 1 + results.length := by
      rw [hadvanced.sp]
      simp only [List.length_append, List.length_singleton]
      omega
    have hslots : (machine.advance 2).sp - results.length +
        max (function.routine inner).locals results.length =
        site.floor + held.length + 1 + function.slots := by
      change _ + max function.slots results.length = _
      omega
    dsimp only
    by_cases hroom : stackSize < site.floor + held.length + 1 + function.slots
    · rw [if_pos hroom]
      refine hfails (hchecks.trans ?_)
      rw [if_neg (by omega), if_neg (by omega), hslots, if_pos hroom]
    · rw [if_neg hroom]
      obtain ⟨locals, after, hlocals, henter, hstands⟩ := hadvanced.enter function captured hvalues
        (Decidable.not_not.mp hcount) rfl (by omega) (by omega) (by omega)
      have hstep : Run.step machine = .ok .running after := by
        rw [h.step hcode]
        change Run.goOn (Run.call results.length) (machine.advance 2) = _
        exact bind_of_ok (hcall.trans henter)
      refine .of_reaches (.next hstep (.here after)) ?_
      rw [hvalues.length_eq] at hstands
      have hcode : (site.entered (ip + 2) label function (function.routine inner) captured free
          (site.lower ++ locals ++ held.map some ++
            [some (.closure label (function.routine inner) free)])).Has 0
          (inner ++ Function.closing function.body) :=
        ⟨⟨[], [], by simp [Site.entered, Function.routine], rfl⟩, haccepts.fits⟩
      have hbody := Site.carries_body (Site.sound_entered haccepts.nodup hclosure)
        (hcalls rfl (Array.size_push _)) hbranched hlaid hcode hstands rfl
      have hheight : (site.entered (ip + 2) label function (function.routine inner) captured free
          (site.lower ++ locals ++ held.map some ++
            [some (.closure label (function.routine inner) free)])).floor =
          site.floor + held.length + 1 + function.slots := by
        simp only [Site.floor, Site.entered, List.length_append, List.length_map,
          List.length_singleton, ← hlocals.length_eq, h.count]
        rfl
      rw [hheight] at hbody
      exact Site.carries_activate hbody hlocals h.count

end Calls

/-- Calls are carried out while so many more functions can be at work. -/
theorem Eval.call_carries (frames : Nat) {site : Site}
    (hframes : frames + site.callers.size + 1 = frameLimit) : site.Calls (Eval.call frames) := by
  induction frames using Nat.strongRecOn generalizing site with
  | ind frames ih =>
    intro world held ip machine callee values result results hcallee hvalues h hcode
    by_cases hfunction : ∃ label function captured, callee = .closure label function captured
    · obtain ⟨label, function, captured, rfl⟩ := hfunction
      cases hcallee with
      | closure _ hcompiled hfree =>
        refine h.carries_callClosure hvalues hcode (.closure label hcompiled hfree) hframes ?_
        intro inner fewer hfewer hsize
        exact ih fewer (by omega) (by omega)
    · refine h.carries_callOther hvalues hcode hcallee fun label function captured hsame ↦ ?_
      exact hfunction ⟨label, function, captured, hsame⟩

end StackScript
