import KeyVDB.Lib.Call

/-!
# One call follows another

`Follows E P x y Q` relates two calls on states of their own. From states related by `P`, when `x`
returns so does `y`, and the results and the states they leave are related by `Q`; or `y` throws,
and then `E` holds of what it throws and of the state it leaves. Nothing is said of `y` where `x`
throws. The rules are those of `Triple`, for both calls at once.

`Agree R x y` is the same for computations without a state, in both directions: they return related
values, or they fail in the same way. A `Program` makes calls and goes on with their answers; where
the calls of two implementations agree, so does every program over them.
-/

namespace KeyVDB

section Follows

variable {ε σ τ α β γ δ : Type} {E : ε → τ → Prop} {P P' : σ → τ → Prop} {x : CallM ε σ α}
  {y : CallM ε τ β} {Q : α → β → σ → τ → Prop}

/-- When `x` returns, `y` returns something related, or it throws what `E` allows for. -/
def Follows (E : ε → τ → Prop) (P : σ → τ → Prop) (x : CallM ε σ α) (y : CallM ε τ β)
    (Q : α → β → σ → τ → Prop) : Prop :=
  ∀ s t, P s t → ∀ a s', exec x s = (.ok a, s') →
    (∃ b t', exec y t = (.ok b, t') ∧ Q a b s' t') ∨ ∃ e t', exec y t = (.error e, t') ∧ E e t'

namespace Follows

theorem pure {a : α} {b : β} (h : ∀ s t, P s t → Q a b s t) :
    Follows E P (pure a : CallM ε σ α) (pure b) Q := by
  rintro s t hst _ _ ⟨⟩
  exact .inl ⟨b, t, rfl, h s t hst⟩

theorem throw (e : ε) : Follows E P (throw e : CallM ε σ α) y Q := by
  rintro s t - _ _ ⟨⟩

theorem modify {f : σ → σ} {g : τ → τ} {Q : PUnit → PUnit → σ → τ → Prop}
    (h : ∀ s t, P s t → Q ⟨⟩ ⟨⟩ (f s) (g t)) :
    Follows E P (modify f : CallM ε σ PUnit) (modify g) Q := by
  rintro s t hst _ _ ⟨⟩
  exact .inl ⟨⟨⟩, g t, rfl, h s t hst⟩

/-- What is known of the states is known of what was read from them. -/
theorem get_bind {f : σ → CallM ε σ α} {g : τ → CallM ε τ β}
    (h : ∀ s t, P s t → Follows E (fun s' t' => s' = s ∧ t' = t) (f s) (g t) Q) :
    Follows E P (get >>= f) (get >>= g) Q :=
  fun s t hst a s' he => h s t hst s t ⟨rfl, rfl⟩ a s' he

theorem bind {f : α → CallM ε σ γ} {g : β → CallM ε τ δ} {R : γ → δ → σ → τ → Prop}
    (hx : Follows E P x y Q) (hf : ∀ a b, Follows E (Q a b) (f a) (g b) R) :
    Follows E P (x >>= f) (y >>= g) R := by
  intro s t hst c s' he
  rw [exec_bind] at he
  split at he
  · next a s₁ hxs =>
    rcases hx s t hst a s₁ hxs with ⟨b, t₁, hyt, hq⟩ | ⟨e, t₁, hyt, herr⟩
    · rw [exec_bind_ok hyt]
      exact hf a b s₁ t₁ hq c s' he
    · rw [exec_bind_error hyt]
      exact .inr ⟨e, t₁, rfl, herr⟩
  · cases he

/-- Two calls that return the same, and what follows them. -/
theorem seq {y : CallM ε τ α} {Q : α → σ → τ → Prop} {f : α → CallM ε σ γ} {g : α → CallM ε τ δ}
    {R : γ → δ → σ → τ → Prop} (hx : Follows E P x y fun a b s t => a = b ∧ Q a s t)
    (hf : ∀ a, Follows E (Q a) (f a) (g a) R) : Follows E P (x >>= f) (y >>= g) R := by
  refine hx.bind fun a b s t hab => ?_
  obtain ⟨rfl, hq⟩ := hab
  exact hf a s t hq

/-- The same computation on both sides. -/
theorem ofExcept_bind {e : Except ε α} {f : α → CallM ε σ γ} {g : α → CallM ε τ δ}
    {R : γ → δ → σ → τ → Prop} (hf : ∀ a, e = .ok a → Follows E P (f a) (g a) R) :
    Follows E P (ofExcept e >>= f) (ofExcept e >>= g) R := by
  cases e with
  | error e => exact .throw e
  | ok a => exact hf a rfl

theorem ite {p : Prop} [Decidable p] {x' : CallM ε σ α} {y' : CallM ε τ β}
    (h : p → Follows E P x y Q) (h' : ¬ p → Follows E P x' y' Q) :
    Follows E P (if p then x else x') (if p then y else y') Q := by
  by_cases hp : p
  · rw [if_pos hp, if_pos hp]
    exact h hp
  · rw [if_neg hp, if_neg hp]
    exact h' hp

theorem pre (hx : Follows E P x y Q) (h : ∀ s t, P' s t → P s t) : Follows E P' x y Q :=
  fun s t hst => hx s t (h s t hst)

theorem post {Q' : α → β → σ → τ → Prop} (hx : Follows E P x y Q)
    (h : ∀ a b s t, Q a b s t → Q' a b s t) : Follows E P x y Q' :=
  fun s t hst a s' he => (hx s t hst a s' he).imp_left fun ⟨b, t', hy, hq⟩ =>
    ⟨b, t', hy, h a b s' t' hq⟩

/-- A part of the precondition that is not about the states. -/
theorem of_and {p : Prop} (h : p → Follows E P x y Q) :
    Follows E (fun s t => p ∧ P s t) x y Q :=
  fun s t hst => h hst.1 s t hst.2

end Follows

end Follows

section Agree

variable {ε α β γ δ : Type} {R : α → β → Prop} {S : γ → δ → Prop} {x : Except ε α}
  {y : Except ε β}

/-- Both return, and `R` relates what they return, or both fail with the same error. -/
inductive Agree (R : α → β → Prop) : Except ε α → Except ε β → Prop
  | ok {a : α} {b : β} (h : R a b) : Agree R (.ok a) (.ok b)
  | error (e : ε) : Agree R (.error e) (.error e)

namespace Agree

theorem bind {f : α → Except ε γ} {g : β → Except ε δ} (h : Agree R x y)
    (hf : ∀ a b, R a b → Agree S (f a) (g b)) : Agree S (x >>= f) (y >>= g) := by
  cases h with
  | ok hab => exact hf _ _ hab
  | error e => exact .error e

/-- The same computation on both sides. -/
theorem bind_eq {y : Except ε α} {f : α → Except ε γ} {g : α → Except ε δ} (h : x = y)
    (hf : ∀ a, x = .ok a → Agree S (f a) (g a)) : Agree S (x >>= f) (y >>= g) := by
  subst h
  cases x with
  | ok a => exact hf a rfl
  | error e => exact .error e

/-- A computation on one side only, which returns. -/
theorem bind_ok {f : α → Except ε γ} {z : Except ε δ} {a : α} (h : x = .ok a)
    (hf : Agree S (f a) z) : Agree S (x >>= f) z := by
  rw [h]
  exact hf

/-- A computation on one side only, which fails. -/
theorem bind_error {f : α → Except ε γ} {e : ε} (h : x = .error e) :
    Agree S (x >>= f) (.error e) := by
  rw [h]
  exact .error e

/-- One side makes a value of another type of what it returns. -/
theorem map_right {S : α → δ → Prop} {g : β → δ} (h : Agree R x y)
    (hg : ∀ a b, R a b → S a (g b)) : Agree S x (do return g (← y)) := by
  cases h with
  | ok hab => exact .ok (hg _ _ hab)
  | error e => exact .error e

theorem of_ok {b : β} (h : Agree R x (.ok b)) : ∃ a, x = .ok a ∧ R a b := by
  cases h with
  | ok hab => exact ⟨_, rfl, hab⟩

end Agree

/-- The same result, and states related by `S`. -/
def SameResult {σ τ : Type} (S : σ → τ → Prop) (x : α × σ) (y : α × τ) : Prop :=
  x.1 = y.1 ∧ S x.2 y.2

end Agree

section Program

variable {κ ε α β σ τ : Type}

/-- A program returns, or makes a call and goes on with the answer. -/
inductive Program (κ α β : Type)
  | done (b : β)
  | call (c : κ) (next : α → Program κ α β)

namespace Program

def run (exec : κ → σ → Except ε (α × σ)) : Program κ α β → σ → Except ε (β × σ)
  | done b, s => .ok (b, s)
  | call c next, s => do
    let (answer, s) ← exec c s
    (next answer).run exec s

/-- No program can tell two implementations apart whose calls agree one by one. -/
theorem agree {S : σ → τ → Prop} {exec : κ → σ → Except ε (α × σ)}
    {exec' : κ → τ → Except ε (α × τ)}
    (hcall : ∀ c s t, S s t → Agree (SameResult S) (exec c s) (exec' c t))
    (prog : Program κ α β) {s : σ} {t : τ} (hst : S s t) :
    Agree (SameResult S) (prog.run exec s) (prog.run exec' t) := by
  induction prog generalizing s t with
  | done b => exact .ok ⟨rfl, hst⟩
  | call c next ih =>
    refine (hcall c s t hst).bind fun x y hxy => ?_
    obtain ⟨answer, s'⟩ := x
    obtain ⟨answer', t'⟩ := y
    obtain ⟨rfl, hst'⟩ := hxy
    exact ih answer hst'

end Program

end Program

end KeyVDB
