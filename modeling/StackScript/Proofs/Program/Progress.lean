import StackScript.Proofs.Program.Recovery

/-!
Reading ends and makes progress. The bounds on the depth of the reading never matter: eight steps
for each token are enough, since a reader that has not taken a token recurs only to readers that
come before it in a fixed order (`Parser.statement_behind`). A statement that is tried takes a token
in any case, so the statements that are tried come to an end (`Parser.Tries.exists`), and the errors
found on the way are found at later and later tokens (`Parser.Tries.errors_at`).
-/

set_option autoImplicit false
set_option relaxedAutoImplicit false

namespace StackScript

namespace Parser

/-! ### Reading without bounds -/

/-- What the reading of a statement comes to: with every bound on its depth, from some bound on. -/
def Settles (input : Input) (result : EStateM.Result ParseError Input Stmt) : Prop :=
  ∃ bound, ∀ fuel, bound ≤ fuel → statement fuel input = result

/-- A statement that was tried: the input in front of it, what came of it, and the input where the
reader stood then. -/
structure Trial where
  before : Input
  outcome : Except ParseError Stmt
  after : Input

def Trial.attempt (trial : Trial) : Attempt :=
  ⟨trial.before.position, trial.outcome⟩

def Trial.stmt? (trial : Trial) : Option Stmt :=
  trial.attempt.stmt?

def Trial.error? (trial : Trial) : Option ParseError :=
  trial.attempt.error?

/-- The statements that are tried one after the other, from an input and a number of errors on, and
the input where this ends. -/
inductive Tries : Nat → Input → List Trial → Input → Prop
  | ended {failures : Nat} {input : Input} (hend : input.rest = [] ∨ errorLimit ≤ failures) :
    Tries failures input [] input
  | read {failures : Nat} {input after last : Input} {stmt : Stmt} {trials : List Trial}
    (hrest : input.rest ≠ []) (hfailures : failures < errorLimit)
    (hstmt : Settles input (.ok stmt after)) (htries : Tries failures after trials last) :
    Tries failures input (⟨input, .ok stmt, after⟩ :: trials) last
  | failed {failures : Nat} {input after last : Input} {error : ParseError} {trials : List Trial}
    (hrest : input.rest ≠ []) (hfailures : failures < errorLimit)
    (herror : Settles input (.error error after))
    (htries : Tries (failures + 1) { after with rest := afterBoundary 0 after.rest } trials last) :
    Tries failures input (⟨input, .error error, after⟩ :: trials) last

theorem Input.length_tokens (input : Input) : input.tokens.length = input.rest.length :=
  List.length_map _

theorem Input.length_rest_behind (input : Input) (place : Nat) :
    (input.behind place).rest.length = input.tokens.length - place := by
  rw [behind, List.length_drop, length_tokens]

theorem lt_of_rest_ne_nil {whole : Input} {place : Nat} (h : (whole.behind place).rest ≠ []) :
    place < whole.tokens.length := by
  rw [Input.length_tokens]
  exact Nat.lt_of_not_le fun hle ↦ h (List.drop_eq_nil_of_le hle)

/-- With eight steps for each token a statement is read to its end or to an error, without coming to
the bound, and so it is with any larger bound. It takes a token, unless there is none. -/
theorem statement_behind {whole : Input} {fuel : Nat} (extra place : Nat)
    (hfuel : 8 * (whole.behind place).rest.length + 3 ≤ fuel)
    (hplace : place ≤ whole.tokens.length) :
    StackScript.Ends (statement fuel) (whole.behind place)
      (fun stmt after ↦ ∃ next, place < next ∧ next ≤ whole.tokens.length ∧
        after = whole.behind next ∧
        statement (fuel + extra) (whole.behind place) = .ok stmt after)
      (fun error after ↦ error.cause ≠ .tooDeep ∧ ∃ index next,
        min (place + 1) whole.tokens.length ≤ next ∧ next ≤ whole.tokens.length ∧
        after = whole.behind next ∧ error.position = (whole.behind index).position ∧
        Refuses whole.tokens error.cause index next ∧
        statement (fuel + extra) (whole.behind place) = .error error after) := by
  have hbeside : Beside whole whole False extra := ⟨List.prefix_refl _, False.elim⟩
  rw [Input.length_rest_behind] at hfuel
  have hdeep : ¬fuel < 8 * (whole.tokens.length - place) + 3 := Nat.not_lt_of_le hfuel
  refine (statement_tracks hbeside fuel place hdeep hplace).mono ?_ ?_
  · rintro stmt after ⟨_, next, hlt, hnext, rfl, -, -, hmore⟩
    exact ⟨next, hlt, hnext, rfl, hmore (.inr rfl)⟩
  · rintro ⟨position, cause⟩ after ⟨index, next, -, hnext, rfl, rfl, hrefuses, hdepth, hmore⟩
    obtain ⟨hcause, hle⟩ := hdepth.resolve_left id
    exact ⟨hcause, index, next, hle, hnext, rfl, rfl, hrefuses,
      hmore rfl fun hdeepest ↦ (hcause hdeepest).elim⟩

/-- From some bound on the reading of a statement does not depend on the bound. -/
theorem statement_eq_of_le {input : Input} {fuel more : Nat}
    (hfuel : 8 * input.rest.length + 3 ≤ fuel) (hmore : fuel ≤ more) :
    statement more input = statement fuel input := by
  obtain ⟨extra, rfl⟩ := Nat.exists_eq_add_of_le hmore
  rw [← input.behind_zero] at hfuel ⊢
  have hread := statement_behind extra 0 hfuel (Nat.zero_le _)
  cases hfirst : statement fuel (input.behind 0) with
  | ok stmt after =>
    obtain ⟨_, -, -, -, hsame⟩ := hread.at_ok hfirst
    exact hsame
  | error error after =>
    obtain ⟨-, _, _, -, -, -, -, -, hsame⟩ := hread.at_error hfirst
    exact hsame

theorem settles_statement {input : Input} {fuel : Nat}
    (hfuel : 8 * input.rest.length + 3 ≤ fuel) : Settles input (statement fuel input) :=
  ⟨fuel, fun _ hmore ↦ statement_eq_of_le hfuel hmore⟩

theorem Settles.exists_fuel {input : Input} {result : EStateM.Result ParseError Input Stmt}
    (h : Settles input result) :
    ∃ fuel, 8 * input.rest.length + 3 ≤ fuel ∧ statement fuel input = result := by
  obtain ⟨bound, hbound⟩ := h
  exact ⟨_, Nat.le_max_right bound _, hbound _ (Nat.le_max_left _ _)⟩

theorem length_afterBoundary_le (depth : Nat) (lexemes : List Lexeme) :
    (afterBoundary depth lexemes).length ≤ lexemes.length := by
  rw [afterBoundary_eq_drop, List.length_drop]
  exact Nat.sub_le _ _

theorem Tries.exists {fuel rounds : Nat} (failures : Nat) (input : Input)
    (hfuel : 8 * input.rest.length + 3 ≤ fuel) (hrounds : input.rest.length ≤ rounds) :
    ∃ trials last, Tries failures input trials last ∧
      attempts fuel rounds failures input = trials.map Trial.attempt := by
  induction rounds generalizing failures input with
  | zero =>
    have hrest : input.rest = [] := List.eq_nil_of_length_eq_zero (Nat.le_zero.mp hrounds)
    exact ⟨[], input, .ended (.inl hrest), by rw [attempts, List.map_nil]⟩
  | succ rounds ih =>
    by_cases hend : input.rest = [] ∨ errorLimit ≤ failures
    · refine ⟨[], input, .ended hend, ?_⟩
      rw [attempts_of_end (by simpa using hend), List.map_nil]
    obtain ⟨hrest, hfailures⟩ := not_or.mp hend
    rw [Nat.not_le] at hfailures
    have hgoes : ¬(input.rest.isEmpty || decide (errorLimit ≤ failures)) = true := by
      simpa using hend
    have hpos := List.length_pos_iff.mpr hrest
    have hsettles := settles_statement hfuel
    have hread := @statement_behind input fuel 0 0 hfuel (Nat.zero_le _)
    have hlength := input.length_tokens
    cases hfirst : statement fuel input with
    | ok stmt after =>
      obtain ⟨next, hnext, -, rfl, -⟩ := hread.at_ok hfirst
      have hafter := input.length_rest_behind next
      obtain ⟨trials, last, htries, hattempts⟩ :=
        ih failures (input.behind next) (by omega) (by omega)
      refine ⟨_, last, .read hrest hfailures (hfirst ▸ hsettles) htries, ?_⟩
      rw [attempts_of_ok hgoes hfirst, hattempts, List.map_cons, Trial.attempt]
    | error error after =>
      obtain ⟨-, _, next, hnext, -, rfl, -, -, -⟩ := hread.at_error hfirst
      have hafter := input.length_rest_behind next
      have hboundary := length_afterBoundary_le 0 (input.behind next).rest
      obtain ⟨trials, last, htries, hattempts⟩ :=
        ih (failures + 1)
          { input.behind next with rest := afterBoundary 0 (input.behind next).rest }
          (by simp only; omega) (by simp only; omega)
      refine ⟨_, last, .failed hrest hfailures (hfirst ▸ hsettles) htries, ?_⟩
      rw [attempts_of_error hgoes hfirst, hattempts, List.map_cons, Trial.attempt]

/-! ### Where the reader stands -/

section Places

variable {whole after : Input} {place : Nat}

theorem Settles.ok_behind {stmt : Stmt} (hplace : place < whole.tokens.length)
    (h : Settles (whole.behind place) (.ok stmt after)) :
    ∃ next, place < next ∧ next ≤ whole.tokens.length ∧ after = whole.behind next := by
  obtain ⟨fuel, hfuel, hok⟩ := h.exists_fuel
  obtain ⟨next, hlt, hnext, rfl, -⟩ :=
    (statement_behind 0 place hfuel (Nat.le_of_lt hplace)).at_ok hok
  exact ⟨next, hlt, hnext, rfl⟩

theorem Settles.error_behind {error : ParseError} (hplace : place < whole.tokens.length)
    (h : Settles (whole.behind place) (.error error after)) :
    error.cause ≠ .tooDeep ∧ ∃ index next, place < next ∧ next ≤ whole.tokens.length ∧
      after = whole.behind next ∧ error.position = (whole.behind index).position ∧
      Refuses whole.tokens error.cause index next := by
  obtain ⟨fuel, hfuel, herror⟩ := h.exists_fuel
  obtain ⟨hcause, index, next, hle, hnext, rfl, hposition, hrefuses, -⟩ :=
    (statement_behind 0 place hfuel (Nat.le_of_lt hplace)).at_error herror
  exact ⟨hcause, index, next, by omega, hnext, rfl, hposition, hrefuses⟩

theorem Refuses.le_succ {tokens : List Token} {cause : ParseError.Cause} {index next : Nat}
    (h : Refuses tokens cause index next) : next ≤ index + 1 := by
  cases h with
  | here => exact Nat.le_succ _
  | behind => exact Nat.le_refl _

namespace Tries

variable {failures : Nat} {trials : List Trial} {last : Input}

/-- Induction along the places where statements are tried. -/
@[elab_as_elim] theorem along {P : Nat → List Trial → Prop} (hended : ∀ place, P place [])
    (hread : ∀ place next stmt trials, place < next → next ≤ whole.tokens.length →
      P next trials → P place (⟨whole.behind place, .ok stmt, whole.behind next⟩ :: trials))
    (hfailed : ∀ place index next error trials, place < next → next ≤ whole.tokens.length →
      error.cause ≠ .tooDeep → error.position = (whole.behind index).position →
      Refuses whole.tokens error.cause index next → P (resume whole.tokens next) trials →
      P place (⟨whole.behind place, .error error, whole.behind next⟩ :: trials))
    (hplace : place ≤ whole.tokens.length)
    (h : Tries failures (whole.behind place) trials last) : P place trials := by
  generalize hinput : whole.behind place = input at h
  induction h generalizing place with
  | ended => exact hended place
  | read hrest _ hstmt _ ih =>
    subst hinput
    obtain ⟨next, hlt, hnext, rfl⟩ := hstmt.ok_behind (lt_of_rest_ne_nil hrest)
    exact hread place next _ _ hlt hnext (ih hnext rfl)
  | failed hrest _ herror _ ih =>
    subst hinput
    obtain ⟨hcause, index, next, hlt, hnext, rfl, hposition, hrefuses⟩ :=
      herror.error_behind (lt_of_rest_ne_nil hrest)
    exact hfailed place index next _ _ hlt hnext hcause hposition hrefuses
      (ih (resume_le hnext) (afterBoundary_behind whole next).symm)

/-- A statement that is tried takes tokens, at least one. -/
theorem taken (hplace : place ≤ whole.tokens.length)
    (h : Tries failures (whole.behind place) trials last) :
    ∀ trial ∈ trials, ∃ taken, taken ≠ [] ∧ trial.before.rest = taken ++ trial.after.rest := by
  have hspan : ∀ place next, place < next → next ≤ whole.tokens.length →
      ∃ taken, taken ≠ [] ∧ (whole.behind place).rest = taken ++ (whole.behind next).rest := by
    intro place next hlt hnext
    refine ⟨(whole.rest.drop place).take (next - place), ?_, ?_⟩
    · rw [Input.length_tokens] at hnext
      rw [← List.length_pos_iff, List.length_take, List.length_drop]
      omega
    · have hdrop : whole.rest.drop next = (whole.rest.drop place).drop (next - place) := by
        rw [List.drop_drop, Nat.add_sub_cancel' (Nat.le_of_lt hlt)]
      rw [Input.behind, Input.behind, hdrop, List.take_append_drop]
  refine along ?_ ?_ ?_ hplace h
  · exact fun _ ↦ List.forall_mem_nil _
  · intro place next stmt trials hlt hnext ih
    exact List.forall_mem_cons.mpr ⟨hspan place next hlt hnext, ih⟩
  · intro place index next error trials hlt hnext _ _ _ ih
    exact List.forall_mem_cons.mpr ⟨hspan place next hlt hnext, ih⟩

/-- Not more errors are found than the limit allows, and as long as there are fewer, reading goes on
to the end. -/
theorem length_errors (hfailures : failures ≤ errorLimit) {input : Input}
    (h : Tries failures input trials last) :
    failures + (trials.filterMap Trial.error?).length ≤ errorLimit ∧
      (failures + (trials.filterMap Trial.error?).length < errorLimit → last.rest = []) := by
  induction h with
  | ended hend =>
    exact ⟨hfailures, fun hlt ↦ hend.resolve_right (Nat.not_le_of_lt hlt)⟩
  | read _ _ _ _ ih =>
    rw [List.filterMap_cons]
    exact ih hfailures
  | failed _ hlimit _ _ ih =>
    have hrest := ih hlimit
    rw [Nat.add_assoc, Nat.add_comm 1] at hrest
    rw [List.filterMap_cons]
    exact hrest

/-- No error comes of a bound on the depth. -/
theorem not_tooDeep (hplace : place ≤ whole.tokens.length)
    (h : Tries failures (whole.behind place) trials last) :
    ∀ error ∈ trials.filterMap Trial.error?, error.cause ≠ .tooDeep := by
  refine along ?_ ?_ ?_ hplace h
  · exact fun _ ↦ List.forall_mem_nil _
  · intro place next stmt trials _ _ ih
    rwa [List.filterMap_cons]
  · intro place index next error trials _ _ hcause _ _ ih
    rw [List.filterMap_cons]
    exact List.forall_mem_cons.mpr ⟨hcause, ih⟩

/-- The errors are found at later and later tokens. -/
theorem errors_at (hplace : place ≤ whole.tokens.length)
    (h : Tries failures (whole.behind place) trials last) :
    ∃ indices : List Nat, indices.Pairwise (· < ·) ∧
      (∀ index ∈ indices, place ≤ index ∧ index ≤ whole.tokens.length ∧
        place < whole.tokens.length) ∧
      (trials.filterMap Trial.error?).map ParseError.position =
        indices.map fun index ↦ (whole.behind index).position := by
  refine along ?_ ?_ ?_ hplace h
  · exact fun _ ↦ ⟨[], .nil, List.forall_mem_nil _, rfl⟩
  · rintro place next stmt trials hlt hnext ⟨indices, hincreasing, hrange, hpositions⟩
    refine ⟨indices, hincreasing, fun index hindex ↦ ?_, hpositions⟩
    have hbehind := hrange index hindex
    omega
  · rintro place index next error trials hlt hnext - hposition hrefuses
      ⟨indices, hincreasing, hrange, hpositions⟩
    have hindex := hrefuses.le
    have hstands := hrefuses.le_succ
    have hresume := le_resume whole.tokens next
    refine ⟨index :: indices, List.pairwise_cons.mpr ⟨fun later hlater ↦ ?_, hincreasing⟩,
      List.forall_mem_cons.mpr ⟨by omega, fun later hlater ↦ ?_⟩, ?_⟩
    · -- Where reading goes on there are tokens, so this error was not found at the end.
      obtain ⟨hle, -, htokens⟩ := hrange later hlater
      have hbehind := lt_resume (Nat.lt_of_le_of_lt hresume htokens)
      omega
    · have hbehind := hrange later hlater
      omega
    · rw [List.filterMap_cons]
      exact List.cons_eq_cons.mpr ⟨hposition, hpositions⟩

end Tries

end Places

end Parser

/-! ### Offsets -/

/-- The tokens are not empty, and each begins behind the place where the one before it does. -/
structure Lexeme.Ascending (lexemes : List Lexeme) : Prop where
  nonempty : ∀ lexeme ∈ lexemes, lexeme.start < lexeme.stop
  increasing : lexemes.Pairwise fun first second ↦ first.start < second.start

namespace Lexeme.Ascending

variable {lexemes : List Lexeme} {first second : Nat}

theorem offset_of_lt (hlt : first < lexemes.length) :
    offset lexemes first = lexemes[first].start := by
  rw [offset, List.getElem?_eq_getElem hlt]

theorem offset_length : offset lexemes lexemes.length = endOf lexemes := by
  rw [offset, List.getElem?_eq_none (Nat.le_refl _)]

theorem endOf_of_ne_nil (hne : lexemes ≠ []) :
    endOf lexemes = (lexemes.getLast hne).stop := by
  rw [endOf, List.getLast?_eq_some_getLast hne, Option.map_some, Option.getD_some]

theorem offset_lt (h : Ascending lexemes) (hlt : first < second) (hle : second ≤ lexemes.length) :
    offset lexemes first < offset lexemes second := by
  have hfirst : first < lexemes.length := Nat.lt_of_lt_of_le hlt hle
  have hstart : ∀ index (hindex : index < lexemes.length), first < index →
      lexemes[first].start < lexemes[index].start :=
    fun index hindex hbehind ↦ List.pairwise_iff_getElem.mp h.increasing _ _ _ hindex hbehind
  rw [offset_of_lt hfirst]
  rcases Nat.lt_or_eq_of_le hle with hsecond | rfl
  · rw [offset_of_lt hsecond]
    exact hstart second hsecond hlt
  · have hne : lexemes ≠ [] := List.ne_nil_of_length_pos (Nat.zero_lt_of_lt hlt)
    rw [offset_length, endOf_of_ne_nil hne, List.getLast_eq_getElem]
    have hlast := h.nonempty _ (List.getElem_mem (l := lexemes) (by omega : lexemes.length - 1 < _))
    refine Nat.lt_of_le_of_lt ?_ hlast
    rcases Nat.lt_or_eq_of_le (Nat.le_sub_one_of_lt hfirst) with hbefore | heq
    · exact Nat.le_of_lt (hstart _ _ hbefore)
    · simp only [heq, Nat.le_refl]

theorem offset_cases (hle : first ≤ lexemes.length) (hne : lexemes ≠ []) :
    (∃ lexeme ∈ lexemes, offset lexemes first = lexeme.start) ∨
      ∃ lexeme, lexemes.getLast? = some lexeme ∧ offset lexemes first = lexeme.stop := by
  rcases Nat.lt_or_eq_of_le hle with hlt | rfl
  · exact .inl ⟨_, List.getElem_mem hlt, offset_of_lt hlt⟩
  · refine .inr ⟨_, List.getLast?_eq_some_getLast hne, ?_⟩
    rw [offset_length, endOf_of_ne_nil hne]

end Lexeme.Ascending

namespace Program

open StackScript.Parser

/-- Spec §E2, reading ends and makes progress. Assumes: the spans of the tokens are not empty and
ascend (`hspans`). The statements that are tried, with no bound on their depth, come to an end, each
of them takes at least one token, and they make up what is read. At most twenty errors are found,
one behind the other, each where a token begins or the last one ends. With fewer errors than that
all tokens are taken. -/
theorem reading_ends (lexemes : List Lexeme) (hspans : Lexeme.Ascending lexemes) :
    ∃ trials last,
      Tries 0 ⟨lexemes, Lexeme.endOf lexemes⟩ trials last ∧
      readTokens lexemes =
        (⟨trials.filterMap Trial.stmt?⟩, trials.filterMap Trial.error?) ∧
      (∀ trial ∈ trials, ∃ taken, taken ≠ [] ∧ trial.before.rest = taken ++ trial.after.rest) ∧
      (∀ error ∈ (readTokens lexemes).2, error.cause ≠ .tooDeep ∧
        ((∃ lexeme ∈ lexemes, error.position = lexeme.start) ∨
          ∃ lexeme, lexemes.getLast? = some lexeme ∧ error.position = lexeme.stop)) ∧
      (readTokens lexemes).2.Pairwise (fun first second ↦ first.position < second.position) ∧
      (readTokens lexemes).2.length ≤ 20 ∧
      ((readTokens lexemes).2.length < 20 → last.rest = []) := by
  have hfuel : 8 * lexemes.length + 3 ≤ 8 * lexemes.length + 8 :=
    Nat.add_le_add_left (by decide) _
  obtain ⟨trials, last, htries, hattempts⟩ :=
    Tries.exists 0 ⟨lexemes, Lexeme.endOf lexemes⟩ hfuel (Nat.le_refl _)
  have hread : readTokens lexemes =
      (⟨trials.filterMap Trial.stmt?⟩, trials.filterMap Trial.error?) := by
    rw [readTokens, program_eq_attempts, List.length_nil, hattempts, List.filterMap_map,
      List.filterMap_map]
    rfl
  rw [← Input.behind_zero ⟨lexemes, _⟩] at htries
  have hlength : (⟨lexemes, Lexeme.endOf lexemes⟩ : Input).tokens.length = lexemes.length :=
    List.length_map _
  obtain ⟨hlimit, hconsumed⟩ := htries.length_errors (Nat.zero_le _)
  obtain ⟨indices, hincreasing, hrange, hpositions⟩ := htries.errors_at (Nat.zero_le _)
  rw [Nat.zero_add] at hlimit hconsumed
  simp only [← Lexeme.offset_eq, hlength] at hpositions hrange
  refine ⟨trials, last, htries, hread, htries.taken (Nat.zero_le _), ?_, ?_, ?_, ?_⟩
  · intro error herror
    rw [hread] at herror
    refine ⟨htries.not_tooDeep (Nat.zero_le _) error herror, ?_⟩
    have hposition := List.mem_map_of_mem (f := ParseError.position) herror
    rw [hpositions] at hposition
    obtain ⟨index, hindex, hoffset⟩ := List.mem_map.mp hposition
    obtain ⟨-, hle, hpos⟩ := hrange index hindex
    rw [← hoffset]
    exact Lexeme.Ascending.offset_cases hle (List.ne_nil_of_length_pos hpos)
  · rw [hread, ← List.pairwise_map (f := ParseError.position) (R := (· < ·)), hpositions,
      List.pairwise_map]
    refine hincreasing.imp_of_mem fun hfirst hsecond hlt ↦ ?_
    exact hspans.offset_lt hlt (hrange _ hsecond).2.1
  · rw [hread]
    exact hlimit
  · rw [hread]
    exact hconsumed

/-- The text `let x 5; let`. -/
def unended : List Lexeme :=
  [⟨.letKeyword, 0, 3⟩, ⟨.identifier "x", 4, 5⟩, ⟨.integer 5, 6, 7⟩, ⟨.semicolon, 7, 8⟩,
    ⟨.letKeyword, 9, 12⟩]

theorem reading_ends_unended :
    Lexeme.Ascending unended ∧
    (readTokens unended).2 =
      [⟨6, .expected .assign (some (.integer 5))⟩, ⟨12, .expectedIdentifier none⟩] ∧
    ∃ trials last, Tries 0 ⟨unended, 12⟩ trials last ∧ last.rest = [] := by
  have hspans : Lexeme.Ascending unended := ⟨by decide, by decide⟩
  have herrors : readTokens unended =
      (⟨[]⟩, [⟨6, .expected .assign (some (.integer 5))⟩, ⟨12, .expectedIdentifier none⟩]) := rfl
  obtain ⟨trials, last, htries, -, -, -, -, -, hconsumed⟩ := reading_ends unended hspans
  exact ⟨hspans, by rw [herrors], trials, last, htries, hconsumed (by rw [herrors]; decide)⟩

end Program

end StackScript
