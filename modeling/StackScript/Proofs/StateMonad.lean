/-!
Sequences of steps that change a state and may fail, read one step at a time. A failing step ends
the sequence and keeps the state that it left.
-/

set_option autoImplicit false
set_option relaxedAutoImplicit false

namespace StackScript

universe u

variable {ε σ α β : Type u} {x : EStateM ε σ α} {f : α → EStateM ε σ β}

theorem bind_of_ok {s s' : σ} {a : α} (h : x s = .ok a s') : (x >>= f) s = f a s' := by
  simp only [bind, EStateM.bind, h]

theorem bind_of_error {s s' : σ} {e : ε} (h : x s = .error e s') :
    (x >>= f) s = .error e s' := by
  simp only [bind, EStateM.bind, h]

theorem bind_eq_ok_iff {s s' : σ} {b : β} :
    (x >>= f) s = .ok b s' ↔ ∃ a middle, x s = .ok a middle ∧ f a middle = .ok b s' := by
  cases h : x s with
  | ok a middle =>
    rw [bind_of_ok h]
    constructor
    · exact fun hrest ↦ ⟨a, middle, rfl, hrest⟩
    · rintro ⟨_, _, ⟨⟩, hrest⟩
      exact hrest
  | error e middle => simp [bind_of_error h]

theorem bind_eq_error_iff {s s' : σ} {e : ε} :
    (x >>= f) s = .error e s' ↔
      x s = .error e s' ∨ ∃ a middle, x s = .ok a middle ∧ f a middle = .error e s' := by
  cases h : x s with
  | ok a middle =>
    rw [bind_of_ok h]
    constructor
    · exact fun hrest ↦ .inr ⟨a, middle, rfl, hrest⟩
    · rintro (hnow | ⟨_, _, ⟨⟩, hrest⟩)
      · cases hnow
      · exact hrest
  | error e middle => simp [bind_of_error h]

@[simp] theorem pure_apply (a : α) (s : σ) : (pure a : EStateM ε σ α) s = .ok a s := rfl

@[simp] theorem throw_apply (e : ε) (s : σ) : (throw e : EStateM ε σ α) s = .error e s := rfl

/-- A check before other steps. -/
theorem check_apply {c : Prop} [Decidable c] {e : ε} {next : PUnit → EStateM ε σ α} {s : σ} :
    (if c then (do next (← throw e)) else next ⟨⟩ : EStateM ε σ α) s =
      if c then .error e s else next ⟨⟩ s := by
  split <;> rfl

@[simp] theorem throw_bind (e : ε) : (throw e >>= f : EStateM ε σ β) = throw e := rfl

/-! ### What holds at the end -/

/-- From this state the action comes to its end as `done` says, or fails as `failed` says. -/
def Ends (x : EStateM ε σ α) (s : σ) (done : α → σ → Prop) (failed : ε → σ → Prop) : Prop :=
  match x s with
  | .ok a s => done a s
  | .error e s => failed e s

section Ends

variable {s : σ} {done : α → σ → Prop} {further : β → σ → Prop} {failed : ε → σ → Prop}

theorem Ends.bind (h : Ends x s done failed)
    (hnext : ∀ a middle, done a middle → Ends (f a) middle further failed) :
    Ends (x >>= f) s further failed := by
  unfold Ends at h ⊢
  cases hfirst : x s with
  | ok a middle =>
    rw [hfirst] at h
    rw [bind_of_ok hfirst]
    exact hnext a middle h
  | error e middle =>
    rw [hfirst] at h
    rw [bind_of_error hfirst]
    exact h

theorem Ends.pure {a : α} (h : done a s) : Ends (Pure.pure a) s done failed := h

theorem Ends.throw {e : ε} (h : failed e s) : Ends (MonadExcept.throw e) s done failed := h

theorem Ends.mono {weaker : α → σ → Prop} {vaguer : ε → σ → Prop} (h : Ends x s done failed)
    (hdone : ∀ a s, done a s → weaker a s) (hfailed : ∀ e s, failed e s → vaguer e s) :
    Ends x s weaker vaguer := by
  unfold Ends at h ⊢
  cases hfirst : x s with
  | ok a middle =>
    rw [hfirst] at h
    exact hdone a middle h
  | error e middle =>
    rw [hfirst] at h
    exact hfailed e middle h

theorem Ends.of_ok {a : α} {after : σ} (h : x s = .ok a after) (hdone : done a after) :
    Ends x s done failed := by
  unfold Ends
  rw [h]
  exact hdone

theorem Ends.of_error {e : ε} {after : σ} (h : x s = .error e after) (hfailed : failed e after) :
    Ends x s done failed := by
  unfold Ends
  rw [h]
  exact hfailed

theorem Ends.of_eq {y : EStateM ε σ α} (hsame : x s = y s) (h : Ends y s done failed) :
    Ends x s done failed := by
  unfold Ends at h ⊢
  rw [hsame]
  exact h

theorem Ends.at_ok {a : α} {after : σ} (h : Ends x s done failed) (hx : x s = .ok a after) :
    done a after := by
  unfold Ends at h
  rwa [hx] at h

theorem Ends.at_error {e : ε} {after : σ} (h : Ends x s done failed) (hx : x s = .error e after) :
    failed e after := by
  unfold Ends at h
  rwa [hx] at h

/-- An action that begins like another one does in another state. -/
theorem Ends.of_eq_from {y : EStateM ε σ α} {later : σ} (hsame : x s = y later)
    (h : Ends y later done failed) : Ends x s done failed := by
  unfold Ends at h ⊢
  rw [hsame]
  exact h

/-- A check before other steps. -/
theorem Ends.check {c : Prop} [Decidable c] {e : ε} {next : PUnit → EStateM ε σ α}
    (herror : c → failed e s) (hnext : ¬c → Ends (next ⟨⟩) s done failed) :
    Ends (if c then (do next (← MonadExcept.throw e)) else next ⟨⟩) s done failed := by
  by_cases hcheck : c
  · rw [if_pos hcheck]
    exact herror hcheck
  · rw [if_neg hcheck]
    exact hnext hcheck

end Ends

/-- A test of an end that can be computed. What failed does not pass. -/
def passes (test : α → σ → Bool) : EStateM.Result ε σ α → Bool
  | .ok a s => test a s
  | .error _ _ => false

theorem exists_of_passes {test : α → σ → Bool} {result : EStateM.Result ε σ α}
    (h : passes test result) : ∃ a s, result = .ok a s ∧ test a s := by
  cases result with
  | ok a s => exact ⟨a, s, rfl, h⟩
  | error e s => cases h

/-! ### Two actions side by side -/

/-- Where the first action comes to its end, the second one does too, and the ends are related. The
states of the two may be of different types. -/
def Follows {τ : Type u} (x : EStateM ε σ α) (y : EStateM ε τ β) (s : σ) (t : τ)
    (related : α → σ → β → τ → Prop) : Prop :=
  ∀ a s', x s = .ok a s' → ∃ b t', y t = .ok b t' ∧ related a s' b t'

section Follows

variable {τ γ δ : Type u} {y : EStateM ε τ γ} {g : γ → EStateM ε τ δ} {s : σ} {t : τ}
  {related : α → σ → γ → τ → Prop} {further : β → σ → δ → τ → Prop}

theorem Follows.bind (h : Follows x y s t related)
    (hnext : ∀ a s b t, related a s b t → Follows (f a) (g b) s t further) :
    Follows (x >>= f) (y >>= g) s t further := by
  intro b s' hfirst
  obtain ⟨a, middle, hx, hf⟩ := bind_eq_ok_iff.mp hfirst
  obtain ⟨c, other, hy, hrelated⟩ := h a middle hx
  obtain ⟨d, t', hg, hfurther⟩ := hnext a middle c other hrelated b s' hf
  exact ⟨d, t', (bind_of_ok hy).trans hg, hfurther⟩

theorem Follows.pure {a : α} {c : γ} (h : related a s c t) :
    Follows (Pure.pure a : EStateM ε σ α) (Pure.pure c : EStateM ε τ γ) s t related := by
  rintro _ _ ⟨⟩
  exact ⟨c, t, rfl, h⟩

theorem Follows.throw (e : ε) : Follows (MonadExcept.throw e) y s t related := by
  rintro _ _ ⟨⟩

theorem Follows.mono {looser : α → σ → γ → τ → Prop} (h : Follows x y s t related)
    (hlooser : ∀ a s b t, related a s b t → looser a s b t) : Follows x y s t looser := by
  intro a s' hx
  obtain ⟨b, t', hy, hrelated⟩ := h a s' hx
  exact ⟨b, t', hy, hlooser a s' b t' hrelated⟩

theorem Follows.of_eq {other : EStateM ε σ α} {same : EStateM ε τ γ} {s₁ : σ} {t₁ : τ}
    (hfirst : other s₁ = x s) (hsecond : same t₁ = y t) (h : Follows x y s t related) :
    Follows other same s₁ t₁ related := by
  intro a s' hother
  obtain ⟨b, t', hy, hrelated⟩ := h a s' (hfirst.symm.trans hother)
  exact ⟨b, t', hsecond.trans hy, hrelated⟩

/-- The same check before other steps. -/
theorem Follows.check {c : Prop} [Decidable c] {e : ε} {next : PUnit → EStateM ε σ α}
    {other : PUnit → EStateM ε τ γ}
    (hnext : ¬c → Follows (next ⟨⟩) (other ⟨⟩) s t related) :
    Follows (if c then (do next (← MonadExcept.throw e)) else next ⟨⟩)
      (if c then (do other (← MonadExcept.throw e)) else other ⟨⟩) s t related := by
  by_cases hcheck : c
  · rw [if_pos hcheck]
    exact .throw e
  · rw [if_neg hcheck, if_neg hcheck]
    exact hnext hcheck

end Follows

/-- Whatever the first action does, the second one does too: both come to their ends, or both fail.
Nothing is said of the second one where the first fails with an error that is `excused`. -/
structure Mirrors {τ : Type u} (excused : ε → Prop) (x : EStateM ε σ α) (y : EStateM ε τ β) (s : σ)
    (t : τ) (done : α → σ → β → τ → Prop) (failed : ε → σ → ε → τ → Prop) : Prop where
  follows : Follows x y s t done
  fails (e : ε) (s' : σ) : x s = .error e s' →
    excused e ∨ ∃ e' t', y t = .error e' t' ∧ failed e s' e' t'

section Mirrors

variable {τ γ δ : Type u} {excused : ε → Prop} {y : EStateM ε τ γ} {g : γ → EStateM ε τ δ} {s : σ}
  {t : τ} {done : α → σ → γ → τ → Prop} {further : β → σ → δ → τ → Prop}
  {failed : ε → σ → ε → τ → Prop}

theorem Mirrors.of_ok {a : α} {b : γ} {s' : σ} {t' : τ} (hx : x s = .ok a s') (hy : y t = .ok b t')
    (hdone : done a s' b t') : Mirrors excused x y s t done failed := by
  refine ⟨fun _ _ hfirst ↦ ?_, fun _ _ hfirst ↦ ?_⟩
  · cases hx.symm.trans hfirst
    exact ⟨b, t', hy, hdone⟩
  · cases hx.symm.trans hfirst

theorem Mirrors.of_error {e e' : ε} {s' : σ} {t' : τ} (hx : x s = .error e s')
    (hy : y t = .error e' t') (hfailed : failed e s' e' t') :
    Mirrors excused x y s t done failed := by
  refine ⟨fun _ _ hfirst ↦ ?_, fun _ _ hfirst ↦ ?_⟩
  · cases hx.symm.trans hfirst
  · cases hx.symm.trans hfirst
    exact .inr ⟨e', t', hy, hfailed⟩

theorem Mirrors.of_excused {e : ε} {s' : σ} (hx : x s = .error e s') (hexcused : excused e) :
    Mirrors excused x y s t done failed := by
  refine ⟨fun _ _ hfirst ↦ ?_, fun _ _ hfirst ↦ ?_⟩
  · cases hx.symm.trans hfirst
  · cases hx.symm.trans hfirst
    exact .inl hexcused

theorem Mirrors.pure {a : α} {b : γ} (h : done a s b t) :
    Mirrors excused (Pure.pure a : EStateM ε σ α) (Pure.pure b : EStateM ε τ γ) s t done failed :=
  .of_ok rfl rfl h

theorem Mirrors.throw {e e' : ε} (h : failed e s e' t) :
    Mirrors excused (MonadExcept.throw e : EStateM ε σ α) (MonadExcept.throw e' : EStateM ε τ γ) s t
      done failed :=
  .of_error rfl rfl h

theorem Mirrors.bind (h : Mirrors excused x y s t done failed)
    (hnext : ∀ a s b t, done a s b t → Mirrors excused (f a) (g b) s t further failed) :
    Mirrors excused (x >>= f) (y >>= g) s t further failed := by
  refine ⟨h.follows.bind fun a s b t hdone ↦ (hnext a s b t hdone).follows, fun e s' hfirst ↦ ?_⟩
  rcases bind_eq_error_iff.mp hfirst with hx | ⟨a, middle, hx, hf⟩
  · refine (h.fails e s' hx).imp_right ?_
    rintro ⟨e', t', hy, hfailed⟩
    exact ⟨e', t', bind_of_error hy, hfailed⟩
  · obtain ⟨b, other, hy, hdone⟩ := h.follows a middle hx
    refine ((hnext a middle b other hdone).fails e s' hf).imp_right ?_
    rintro ⟨e', t', hg, hfailed⟩
    exact ⟨e', t', (bind_of_ok hy).trans hg, hfailed⟩

theorem Mirrors.mono {looser : α → σ → γ → τ → Prop} (h : Mirrors excused x y s t done failed)
    (hlooser : ∀ a s b t, done a s b t → looser a s b t) :
    Mirrors excused x y s t looser failed :=
  ⟨h.follows.mono hlooser, h.fails⟩

/-- Actions that begin like others do in other states. -/
theorem Mirrors.of_eq {other : EStateM ε σ α} {same : EStateM ε τ γ} {s₁ : σ} {t₁ : τ}
    (hfirst : other s₁ = x s) (hsecond : same t₁ = y t) (h : Mirrors excused x y s t done failed) :
    Mirrors excused other same s₁ t₁ done failed := by
  refine ⟨h.follows.of_eq hfirst hsecond, fun e s' hother ↦ ?_⟩
  refine (h.fails e s' (hfirst.symm.trans hother)).imp_right ?_
  rintro ⟨e', t', hy, hfailed⟩
  exact ⟨e', t', hsecond.trans hy, hfailed⟩

/-- The same check before other steps. -/
theorem Mirrors.check {c : Prop} [Decidable c] {e e' : ε} {next : PUnit → EStateM ε σ α}
    {other : PUnit → EStateM ε τ γ} (hfailed : failed e s e' t)
    (hnext : ¬c → Mirrors excused (next ⟨⟩) (other ⟨⟩) s t done failed) :
    Mirrors excused (if c then (do next (← MonadExcept.throw e)) else next ⟨⟩)
      (if c then (do other (← MonadExcept.throw e')) else other ⟨⟩) s t done failed := by
  by_cases hcheck : c
  · rw [if_pos hcheck, if_pos hcheck]
    exact .throw hfailed
  · rw [if_neg hcheck, if_neg hcheck]
    exact hnext hcheck

end Mirrors

/-! ### One action in two states -/

/-- From both states the action comes to its end with the same, or fails with the same error. The
states that it leaves are related as `done` and `failed` say. -/
abbrev Together (x : EStateM ε σ α) (s t : σ) (done : α → σ → σ → Prop) (failed : σ → σ → Prop) :
    Prop :=
  Mirrors (fun _ ↦ False) x x s t (fun a s b t ↦ a = b ∧ done a s t) fun e s e' t ↦
    e = e' ∧ failed s t

section Together

variable {s t : σ} {done : α → σ → σ → Prop} {further : β → σ → σ → Prop}
  {failed : σ → σ → Prop}

theorem Together.at_ok {a : α} {s' : σ} (h : Together x s t done failed) (hx : x s = .ok a s') :
    ∃ t', x t = .ok a t' ∧ done a s' t' := by
  obtain ⟨_, t', ht, rfl, hdone⟩ := h.follows a s' hx
  exact ⟨t', ht, hdone⟩

theorem Together.at_error {e : ε} {s' : σ} (h : Together x s t done failed)
    (hx : x s = .error e s') : ∃ t', x t = .error e t' ∧ failed s' t' := by
  obtain ⟨_, t', ht, rfl, hfailed⟩ := (h.fails e s' hx).resolve_left id
  exact ⟨t', ht, hfailed⟩

theorem Together.of_ok {a : α} {s' t' : σ} (hs : x s = .ok a s') (ht : x t = .ok a t')
    (hdone : done a s' t') : Together x s t done failed :=
  Mirrors.of_ok hs ht ⟨rfl, hdone⟩

theorem Together.of_error {e : ε} {s' t' : σ} (hs : x s = .error e s') (ht : x t = .error e t')
    (hfailed : failed s' t') : Together x s t done failed :=
  Mirrors.of_error hs ht ⟨rfl, hfailed⟩

theorem Together.pure {a : α} (h : done a s t) :
    Together (Pure.pure a : EStateM ε σ α) s t done failed :=
  Mirrors.pure ⟨rfl, h⟩

theorem Together.throw {e : ε} (h : failed s t) :
    Together (MonadExcept.throw e : EStateM ε σ α) s t done failed :=
  Mirrors.throw ⟨rfl, h⟩

theorem Together.bind (h : Together x s t done failed)
    (hnext : ∀ a s t, done a s t → Together (f a) s t further failed) :
    Together (x >>= f) s t further failed := by
  refine Mirrors.bind h ?_
  rintro a s _ t ⟨rfl, hdone⟩
  exact hnext a s t hdone

theorem Together.mono {weaker : α → σ → σ → Prop} (h : Together x s t done failed)
    (hdone : ∀ a s t, done a s t → weaker a s t) : Together x s t weaker failed :=
  Mirrors.mono h fun a s _ t hend ↦ ⟨hend.1, hdone a s t hend.2⟩

/-- An action that begins like another one does in other states. -/
theorem Together.of_eq_from {y : EStateM ε σ α} {s₁ t₁ : σ} (hs : x s = y s₁) (ht : x t = y t₁)
    (h : Together y s₁ t₁ done failed) : Together x s t done failed :=
  Mirrors.of_eq hs ht h

/-- An action that begins with a look at the state, at what is the same in both. -/
theorem Together.look {next : σ → EStateM ε σ α} (hsame : next t = next s)
    (h : Together (next s) s t done failed) : Together (get >>= next) s t done failed := by
  have hother : (get >>= next) t = next s t := by
    rw [← hsame]
    rfl
  exact .of_eq_from (y := next s) rfl hother h

/-- A check before other steps. -/
theorem Together.check {c : Prop} [Decidable c] {e : ε} {next : PUnit → EStateM ε σ α}
    (hfailed : failed s t) (hnext : ¬c → Together (next ⟨⟩) s t done failed) :
    Together (if c then (do next (← MonadExcept.throw e)) else next ⟨⟩) s t done failed :=
  Mirrors.check ⟨rfl, hfailed⟩ hnext

end Together

end StackScript
