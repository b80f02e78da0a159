import StackScript.Program.Parser
import StackScript.Proofs.StateMonad

/-!
What the steps of readers do, seen on the tokens alone: what is in front, what is left behind. A
reader is run on given tokens, wherever they stand in a text (`Gives`), and with every bound that is
large enough for them (`Reads`). What readers do with tokens that are not given is told in the other
direction, in `Parser.Tracks`.
-/

set_option autoImplicit false
set_option relaxedAutoImplicit false

namespace StackScript

namespace Parser

/-- The tokens that are still to be read. -/
def Input.tokens (input : Input) : List Token :=
  input.rest.map Lexeme.token

/-- The input behind the current token. -/
def Input.next (input : Input) : Input :=
  { input with rest := input.rest.tail }

@[simp] theorem Input.tokens_next (input : Input) : input.next.tokens = input.tokens.tail := by
  simp [Input.tokens, Input.next, List.map_tail]

theorem Input.tokens_next_of_cons (input : Input) {token : Token} {rest : List Token}
    (h : input.tokens = token :: rest) : input.next.tokens = rest := by
  rw [Input.tokens_next, h, List.tail_cons]

section Steps

variable {α : Type} {input : Input}

theorem peek_apply (input : Input) : peek input = .ok input.tokens.head? input := by
  simp [peek, Input.tokens, List.head?_map]

theorem peek_bind (next : Option Token → Parser α) (input : Input) :
    (peek >>= next) input = next input.tokens.head? input :=
  bind_of_ok (peek_apply input)

theorem skip_bind (next : Unit → Parser α) (input : Input) :
    (skip >>= next) input = next () input.next :=
  bind_of_ok rfl

theorem position_bind (next : Nat → Parser α) (input : Input) :
    (position >>= next) input = next input.position input :=
  bind_of_ok rfl

theorem expect_apply (wanted : Token) (input : Input) :
    expect wanted input =
      if input.tokens.head? = some wanted then .ok () input.next
      else .error ⟨input.position, .expected wanted input.tokens.head?⟩ input := by
  rw [expect, peek_bind]
  split <;> rfl

theorem skipIf_apply (token : Token) (input : Input) :
    skipIf token input =
      if input.tokens.head? = some token then .ok true input.next else .ok false input := by
  rw [skipIf, peek_bind]
  split <;> rfl

theorem identifier_apply (input : Input) :
    identifier input =
      match input.tokens.head? with
      | some (.identifier name) => .ok name input.next
      | got => .error ⟨input.position, .expectedIdentifier got⟩ input := by
  rw [identifier, peek_bind]
  cases input.tokens.head? with
  | none => rfl
  | some token => cases token <;> rfl

end Steps

/-! ### What a reader gives -/

/-- Wherever these tokens are still to be read, the reader comes to its end with the value and
leaves `rest`. -/
def Gives {α : Type} (reader : Parser α) (tokens : List Token) (value : α) (rest : List Token) :
    Prop :=
  ∀ input : Input, input.tokens = tokens →
    ∃ after, reader input = .ok value after ∧ after.tokens = rest

namespace Gives

variable {α β : Type} {tokens rest : List Token}

theorem pure (value : α) : Gives (Pure.pure value) tokens value tokens :=
  fun input htokens ↦ ⟨input, rfl, htokens⟩

theorem bind {reader : Parser α} {next : α → Parser β} {middle : List Token} {value : α}
    {result : β} (h : Gives reader tokens value middle)
    (hnext : Gives (next value) middle result rest) :
    Gives (reader >>= next) tokens result rest := by
  intro input htokens
  obtain ⟨between, hvalue, hmiddle⟩ := h input htokens
  obtain ⟨after, hresult, hrest⟩ := hnext between hmiddle
  exact ⟨after, (bind_of_ok hvalue).trans hresult, hrest⟩

variable {value : α}

theorem position {next : Nat → Parser α} (h : ∀ place, Gives (next place) tokens value rest) :
    Gives (Parser.position >>= next) tokens value rest := by
  intro input htokens
  obtain ⟨after, hvalue, hrest⟩ := h input.position input htokens
  exact ⟨after, (position_bind next input).trans hvalue, hrest⟩

theorem peek {next : Option Token → Parser α} (h : Gives (next tokens.head?) tokens value rest) :
    Gives (Parser.peek >>= next) tokens value rest := by
  intro input htokens
  obtain ⟨after, hvalue, hrest⟩ := h input htokens
  refine ⟨after, ?_, hrest⟩
  rw [peek_bind, htokens, hvalue]

theorem skip (token : Token) : Gives Parser.skip (token :: tokens) () tokens :=
  fun input htokens ↦ ⟨input.next, rfl, input.tokens_next_of_cons htokens⟩

theorem expect (wanted : Token) : Gives (Parser.expect wanted) (wanted :: tokens) () tokens := by
  intro input htokens
  refine ⟨input.next, ?_, input.tokens_next_of_cons htokens⟩
  rw [expect_apply, htokens, if_pos List.head?_cons]

theorem identifier (name : String) :
    Gives Parser.identifier (.identifier name :: tokens) name tokens := by
  intro input htokens
  refine ⟨input.next, ?_, input.tokens_next_of_cons htokens⟩
  rw [identifier_apply, htokens]
  rfl

theorem skipIf_there (token : Token) : Gives (skipIf token) (token :: tokens) true tokens := by
  intro input htokens
  refine ⟨input.next, ?_, input.tokens_next_of_cons htokens⟩
  rw [skipIf_apply, htokens, if_pos List.head?_cons]

theorem skipIf_absent {token : Token} (h : tokens.head? ≠ some token) :
    Gives (skipIf token) tokens false tokens := by
  intro input htokens
  refine ⟨input, ?_, htokens⟩
  rw [skipIf_apply, htokens, if_neg h]

end Gives

/-- What a reader gives with every bound that is large enough: room for eight steps at each token,
and `slack` for those before the first is taken. -/
def Reads {α : Type} (reader : Nat → Parser α) (slack : Nat) (tokens : List Token) (value : α)
    (rest : List Token) : Prop :=
  ∀ fuel, 8 * tokens.length + slack ≤ fuel → Gives (reader fuel) tokens value rest

theorem Reads.step {α : Type} {reader : Nat → Parser α} {slack : Nat} {tokens rest : List Token}
    {value : α}
    (h : ∀ fuel, 8 * tokens.length + slack ≤ fuel → Gives (reader (fuel + 1)) tokens value rest) :
    Reads reader (slack + 1) tokens value rest := by
  intro fuel hfuel
  obtain ⟨fuel, rfl⟩ := Nat.exists_eq_add_one.mpr (Nat.zero_lt_of_lt hfuel)
  exact h fuel (Nat.le_of_succ_le_succ hfuel)

end Parser

end StackScript
