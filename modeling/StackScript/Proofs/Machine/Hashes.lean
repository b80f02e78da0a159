import StackScript.Proofs.Machine.Decode
import StackScript.Proofs.Machine.Stack

/-!
Hashes made and looked up in. Pairs that lie on the stack make a hash unless one of their keys
cannot be used, and then the first such key is reported. The hash answers with the value of the last
pair whose key matches (`Run.hash_answers`). Keys match by kind and content (`Value.Matches`), so
strings that were made apart match, though they compare as different.
-/

set_option autoImplicit false
set_option relaxedAutoImplicit false

namespace StackScript

/-! ### Keys -/

namespace Value

/-- Values of these kinds can be used as keys. -/
def Kind.isKey : Kind → Bool
  | integer | boolean | string => true
  | _ => false

/-- The values are keys of the same kind and content. -/
inductive Matches : Value → Value → Prop
  | integer (number : Int64) : Matches (.integer number) (.integer number)
  | boolean (truth : Bool) : Matches (.boolean truth) (.boolean truth)
  | string (label other : Label) (content : String) :
    Matches (.string label content) (.string other content)

theorem key?_of_isKey {value : Value} (h : value.kind.isKey) : ∃ key, value.key? = some key := by
  cases value <;> first | exact ⟨_, rfl⟩ | cases h

theorem key?_eq_none {value : Value} (h : value.kind.isKey = false) : value.key? = none := by
  cases value <;> first | rfl | cases h

theorem matches_iff {value other : Value} {key : Key} (h : other.key? = some key) :
    value.Matches other ↔ value.key? = some key := by
  constructor
  · rintro (_ | _ | _) <;> exact h
  · intro hvalue
    rw [← h] at hvalue
    cases value <;> cases other <;> cases hvalue
    all_goals first | constructor | cases h

end Value

/-! ### Pairs -/

/-- What is found under the position: the value of the last pair whose key matches, if there is
one. -/
inductive LastUnder (pairs : List (Value × Value)) (position : Value) : Option Value → Prop
  | given (before : List (Value × Value)) {after : List (Value × Value)} {key value : Value}
    (hpairs : pairs = before ++ (key, value) :: after) (hmatches : key.Matches position)
    (hlast : ∀ pair ∈ after, ¬pair.1.Matches position) : LastUnder pairs position (some value)
  | missing (h : ∀ pair ∈ pairs, ¬pair.1.Matches position) : LastUnder pairs position none

/-- Nothing else is found under the position. -/
theorem LastUnder.unique {pairs : List (Value × Value)} {position : Value}
    {found other : Option Value} (h : LastUnder pairs position found)
    (hother : LastUnder pairs position other) : found = other := by
  cases h with
  | missing hnone =>
    cases hother with
    | missing _ => rfl
    | given _ hpairs hmatches _ =>
      exact absurd hmatches (hnone _ (hpairs ▸ List.mem_append_cons_self))
  | given _ hpairs hmatches hlast =>
    cases hother with
    | missing hnone => exact absurd hmatches (hnone _ (hpairs ▸ List.mem_append_cons_self))
    | given _ hpairs' hmatches' hlast' =>
      rw [hpairs] at hpairs'
      -- the later one of two different places would stand behind the other one
      obtain ⟨_ | ⟨_, middle⟩, _, hafter⟩ | ⟨_ | ⟨_, middle⟩, _, hafter⟩ :=
        List.append_eq_append_iff.mp hpairs'
      · cases hafter
        rfl
      · cases hafter
        exact absurd hmatches' (hlast _ List.mem_append_cons_self)
      · cases hafter
        rfl
      · cases hafter
        exact absurd hmatches (hlast' _ List.mem_append_cons_self)

namespace Entries

variable {entries : Entries}

/-- The pairs one after the other, each key before its value. -/
def items : List (Value × Value) → List Value
  | [] => []
  | (key, value) :: rest => key :: value :: items rest

theorem length_items (pairs : List (Value × Value)) : (items pairs).length = 2 * pairs.length := by
  induction pairs with
  | nil => rfl
  | cons pair rest ih =>
    rw [items, List.length_cons, List.length_cons, ih, List.length_cons]
    omega

theorem addAll_items_cons {key value : Value} {name : Key} (h : key.key? = some name)
    (rest : List (Value × Value)) :
    entries.addAll (items ((key, value) :: rest)) =
      (entries.insert name value).addAll (items rest) := by
  rw [items, addAll, h]

/-- The first key that cannot be used is reported. -/
theorem addAll_items_unusable {before after : List (Value × Value)} {key value : Value}
    (hbefore : ∀ pair ∈ before, pair.1.kind.isKey) (hkey : key.kind.isKey = false) :
    entries.addAll (items (before ++ (key, value) :: after)) =
      .error (.unusableHashKey key.kind) := by
  induction before generalizing entries with
  | nil => rw [List.nil_append, items, addAll, Value.key?_eq_none hkey]
  | cons pair rest ih =>
    obtain ⟨hpair, hrest⟩ := List.forall_mem_cons.mp hbefore
    obtain ⟨name, hname⟩ := Value.key?_of_isKey hpair
    rw [List.cons_append, addAll_items_cons hname, ih hrest]

/-- Where all keys can be used, a position finds what the pairs say, and what it found before where
they say nothing. -/
theorem find?_addAll_items (entries : Entries) {pairs : List (Value × Value)}
    (h : ∀ pair ∈ pairs, pair.1.kind.isKey) :
    ∃ final, entries.addAll (items pairs) = .ok final ∧
      ∀ position name, position.key? = some name →
        ∃ found, LastUnder pairs position found ∧
          find? name final = found.or (entries.find? name) := by
  induction pairs generalizing entries with
  | nil => exact ⟨entries, rfl, fun position name _ ↦ ⟨none, .missing (by simp), rfl⟩⟩
  | cons pair rest ih =>
    obtain ⟨key, value⟩ := pair
    obtain ⟨hpair, hrest⟩ := List.forall_mem_cons.mp h
    obtain ⟨own, hown⟩ := Value.key?_of_isKey hpair
    obtain ⟨final, hfinal, hfind⟩ := ih (entries.insert own value) hrest
    refine ⟨final, (addAll_items_cons hown rest).trans hfinal, fun position name hname ↦ ?_⟩
    obtain ⟨found, hlast, hfound⟩ := hfind position name hname
    cases hlast with
    | @given before after other last hpairs hmatches hnone =>
      refine ⟨some last, .given ((key, value) :: before) ?_ hmatches hnone, hfound⟩
      rw [hpairs, List.cons_append]
    | missing hnone =>
      rw [find?_insert, Option.none_or] at hfound
      by_cases hsame : name = own
      · have hmatches : key.Matches position := (Value.matches_iff hname).mpr (hsame ▸ hown)
        refine ⟨some value, .given [] rfl hmatches hnone, ?_⟩
        rw [hfound, if_pos hsame, Option.some_or]
      · have hother : ¬key.Matches position := fun hmatches ↦
          hsame (Option.some.inj (((Value.matches_iff hname).mp hmatches).symm.trans hown))
        refine ⟨none, .missing (List.forall_mem_cons.mpr ⟨hother, hnone⟩), ?_⟩
        rw [hfound, if_neg hsame, Option.none_or]

end Entries

/-! ### On the stack -/

namespace Run

variable {machine : Machine} {cells : List (Option Value)}

/-- The pairs are taken off the stack before anything is made of them. -/
theorem step_hash {pairs : List (Value × Value)}
    (hloaded : Loaded machine.frame.routine.code machine.frame.ip [⟨.hash, [2 * pairs.length]⟩])
    (hshows : Shows machine.stack (cells ++ (Entries.items pairs).map some))
    (hsp : machine.sp = cells.length + 2 * pairs.length) :
    ∃ popped : Machine, Shows popped.stack cells ∧ popped.sp = cells.length ∧
      step machine = goOn (do
        let entries ← ofExcept (Entries.addAll [] (Entries.items pairs))
        push (.hash (← freshLabel) entries)) popped := by
  have hroom := hshows.length_le
  rw [List.length_append, List.length_map, Entries.length_items] at hroom
  have hfits : Instruction.Fits ⟨.hash, [2 * pairs.length]⟩ := by
    refine .cons ?_ .nil
    simp only [stackSize, Opcode.Width.bound] at hroom ⊢
    omega
  have hstep : step machine = goOn (makeHash (2 * pairs.length)) (machine.advance 3) :=
    step_eq_perform hloaded hfits
  rw [← Entries.length_items] at hsp hstep
  obtain ⟨stack, htake, hstack⟩ : ∃ stack,
    takeTop (Entries.items pairs).length (machine.advance 3) = .ok (Entries.items pairs)
      { machine.advance 3 with stack := stack, sp := cells.length } ∧ Shows stack cells :=
    takeTop_of_shows hshows hsp
  refine ⟨{ machine.advance 3 with stack := stack, sp := cells.length }, hstack, rfl, ?_⟩
  rw [hstep, goOn, makeHash, bind_assoc, bind_of_ok htake]
  rfl

theorem index_of_shows {collection position : Value}
    (h : Shows machine.stack (cells ++ [some collection, some position]))
    (hsp : machine.sp = cells.length + 2) :
    ∃ stack, Shows stack cells ∧ index machine =
      match collection.lookUp position with
      | .error error => .error error { machine with stack := stack, sp := cells.length }
      | .ok value => push value { machine with stack := stack, sp := cells.length } := by
  rw [← List.singleton_append, ← List.append_assoc] at h
  obtain ⟨middle, hposition, hmiddle⟩ := pop_of_shows h (by rw [hsp, List.length_append]; rfl)
  obtain ⟨stack, hcollection, hstack⟩ : ∃ stack, pop { machine with
        stack := middle, sp := (cells ++ [some collection]).length } =
      .ok collection { machine with stack := stack, sp := cells.length } ∧ Shows stack cells :=
    pop_of_shows hmiddle (List.length_append)
  refine ⟨stack, hstack, ?_⟩
  rw [index, bind_of_ok hposition, bind_of_ok hcollection]
  cases collection.lookUp position <;> rfl

/-- Wherever it is looked up in, the hash answers as the pairs say: a position that cannot be used
as a key is reported, and for any other one the value found under it is left on the stack, null
where there is none. -/
def Answers (hash : Value) (pairs : List (Value × Value)) : Prop :=
  ∀ (machine : Machine) (cells : List (Option Value)) (position : Value),
    Loaded machine.frame.routine.code machine.frame.ip [⟨.index, []⟩] →
    Shows machine.stack (cells ++ [some hash, some position]) →
    machine.sp = cells.length + 2 →
    (position.kind.isKey = false →
      ∃ after, step machine = .error (.unusableHashKey position.kind) after) ∧
    (position.kind.isKey →
      ∃ found after, LastUnder pairs position found ∧ step machine = .ok .running after ∧
        Shows after.stack (cells ++ [some (found.getD .null)]) ∧ after.sp = cells.length + 1)

/-- A hash answers as pairs say if its entries do. -/
theorem answers_of_entries {label : Label} {entries : Entries} {pairs : List (Value × Value)}
    (h : ∀ position name, position.key? = some name →
      LastUnder pairs position (entries.find? name)) : Answers (.hash label entries) pairs := by
  intro machine cells position hloaded hshows hsp
  have hstep : step machine = goOn index (machine.advance 1) :=
    step_eq_perform hloaded .nil
  obtain ⟨stack, hstack, hindex⟩ : ∃ stack, Shows stack cells ∧ index (machine.advance 1) = _ :=
    index_of_shows hshows hsp
  constructor
  · intro hkey
    rw [Value.lookUp, Value.key?_eq_none hkey] at hindex
    exact ⟨_, hstep.trans (bind_of_error hindex)⟩
  · intro hkey
    obtain ⟨name, hname⟩ := Value.key?_of_isKey hkey
    rw [Value.lookUp, hname] at hindex
    have hroom := hshows.length_le
    rw [List.length_append, List.length_cons, List.length_singleton] at hroom
    let popped : Machine := { machine.advance 1 with stack := stack, sp := cells.length }
    have hpopped : Shows popped.stack cells := hstack
    obtain ⟨last, hpush, hlast⟩ :=
      push_of_shows hpopped rfl (by omega) ((entries.find? name).getD .null)
    refine ⟨entries.find? name, { popped with stack := last, sp := cells.length + 1 },
      h position name hname, ?_, hlast, rfl⟩
    exact hstep.trans (bind_of_ok (hindex.trans hpush))

/-- Spec §4.4, building and indexing hashes. Assumes: the machine stands in front of a hash
instruction for so many pairs (`hloaded`), and they are on its stack (`hshows`, `hsp`). They make a
hash, which answers as they say, with the last of the pairs of one key, unless a key among them
cannot be used; the first such key is reported. The hash takes a slot of theirs, so only one without
pairs may find the stack full. Keys of different kinds are never the same one, and strings of the
same content match, whether or not they compare as equal. -/
theorem hash_answers {pairs : List (Value × Value)}
    (hloaded : Loaded machine.frame.routine.code machine.frame.ip [⟨.hash, [2 * pairs.length]⟩])
    (hshows : Shows machine.stack (cells ++ (Entries.items pairs).map some))
    (hsp : machine.sp = cells.length + 2 * pairs.length) :
    (∀ before key value after, pairs = before ++ (key, value) :: after →
      (∀ pair ∈ before, pair.1.kind.isKey) → key.kind.isKey = false →
      ∃ failed, step machine = .error (.unusableHashKey key.kind) failed) ∧
    ((∀ pair ∈ pairs, pair.1.kind.isKey) →
      (∃ hash after, step machine = .ok .running after ∧
        Shows after.stack (cells ++ [some hash]) ∧ after.sp = cells.length + 1 ∧
        Answers hash pairs) ∨
      pairs = [] ∧ cells.length = stackSize ∧
        ∃ failed, step machine = .error .stackOverflow failed) ∧
    (∀ (first second : Value) (key : Key), first.key? = some key → second.key? = some key →
      first.kind = second.kind) ∧
    ∀ (label other : Label) (content : String),
      (Value.string label content).Matches (.string other content) ∧
      (Value.string label content : Value).compare .equal (.string other content) =
        .ok (label == other) := by
  obtain ⟨popped, hpopped, hsp, hstep⟩ := step_hash hloaded hshows hsp
  refine ⟨?_, fun hkeys ↦ ?_, ?_, fun label other content ↦ ⟨.string label other content, rfl⟩⟩
  · rintro before key value after rfl hbefore hkey
    rw [Entries.addAll_items_unusable hbefore hkey] at hstep
    exact ⟨popped, hstep⟩
  · obtain ⟨entries, hentries, hfind⟩ := Entries.find?_addAll_items [] hkeys
    rw [hentries] at hstep
    let labelled : Machine := { popped with serial := popped.serial + 1 }
    let hash : Value := .hash (.heap popped.serial) entries
    have hstep : step machine = goOn (push hash) labelled := hstep
    rcases Nat.lt_or_ge cells.length stackSize with hless | hfull
    · have hlabelled : Shows labelled.stack cells := hpopped
      obtain ⟨last, hpush, hlast⟩ := push_of_shows hlabelled hsp hless hash
      refine .inl ⟨hash, { labelled with stack := last, sp := cells.length + 1 },
        hstep.trans (bind_of_ok hpush), hlast, rfl, ?_⟩
      refine answers_of_entries fun position name hname ↦ ?_
      obtain ⟨found, hfound, hsame⟩ := hfind position name hname
      have hnone : Entries.find? name ([] : Entries) = none := rfl
      rw [hsame, hnone, Option.or_none]
      exact hfound
    · have hroom := hshows.length_le
      rw [List.length_append, List.length_map, Entries.length_items] at hroom
      have hnone : pairs.length = 0 := by omega
      have hpush : push hash labelled = .error .stackOverflow labelled :=
        push_of_full (hsp ▸ hfull) hash
      exact .inr ⟨List.eq_nil_of_length_eq_zero hnone, by omega, labelled,
        hstep.trans (bind_of_error hpush)⟩
  · intro first second key hfirst hsecond
    cases (Value.matches_iff hsecond).mpr hfirst <;> rfl

/-- The later one of two pairs of a number counts, and that of a string in between does not. -/
theorem hash_answers_repeated :
    let pairs : List (Value × Value) := [(.integer 1, .boolean false),
      (.string .program "1", .null), (.integer 1, .boolean true)]
    let machine : Machine := { Machine.new ⟨#[21, 0, 6], #[]⟩ #[] 0 with
      stack := ((Entries.items pairs).map some ++ List.replicate (stackSize - 6) none).toArray
      sp := 6 }
    ∃ hash after, step machine = .ok .running after ∧ Shows after.stack [some hash] ∧
      let later : Machine := { Machine.new ⟨#[22], #[]⟩ #[] 0 with
        stack := ([some hash, some (.integer 1)] ++ List.replicate (stackSize - 2) none).toArray
        sp := 2 }
      ∃ last, step later = .ok .running last ∧ Shows last.stack [some (.boolean true)] := by
  intro pairs machine
  have hhash : Loaded #[21, 0, 6] 0 [⟨.hash, [2 * pairs.length]⟩] := ⟨[], [], by decide, rfl⟩
  have hindex : Loaded #[22] 0 [⟨.index, []⟩] := ⟨[], [], by decide, rfl⟩
  have hshows : Shows machine.stack ([] ++ (Entries.items pairs).map some) :=
    Shows.of_append (by decide)
  obtain ⟨-, hmade, -⟩ := hash_answers hhash hshows rfl
  obtain ⟨hash, after, hstep, hafter, -, hanswers⟩ | ⟨hnone, -⟩ := hmade (by decide)
  · refine ⟨hash, after, hstep, hafter, ?_⟩
    intro later
    have hlater : Shows later.stack ([] ++ [some hash, some (.integer 1)]) :=
      Shows.of_append (by simp [stackSize])
    obtain ⟨found, last, hfound, hlast, hshown, -⟩ :=
      (hanswers later [] (.integer 1) hindex hlater rfl).2 rfl
    have htrue : LastUnder pairs (.integer 1) (some (.boolean true)) :=
      .given (pairs.take 2) rfl (.integer 1) (by simp)
    rw [hfound.unique htrue] at hshown
    exact ⟨last, hlast, hshown⟩
  · exact absurd hnone (List.cons_ne_nil _ _)

end Run

end StackScript
