import Mathlib.Order.Defs.Unbundled

/-!
# Calls with a state and exceptions

A call works on a state and may throw; what it did to the state before it threw stays done.
`exec` runs a call, and the simp lemmas push it through the monad operations, so that a spec of a
call is an equation about `exec`. `Keeps R` says that the state a call leaves is related by `R` to
the one it started in; for a preorder it goes through all the operations. `Returns view x H Q` is
total correctness on a view of the state: from every state that looks like `H` the call returns, and
the result and the view it leaves satisfy `Q`. `Ends view x H Q` says the same of the calls that
return. `Triple P x Q` is partial correctness for a precondition that need not be a view, and
`Guards E P x Q` says besides that `E` holds of the state that the call leaves, also if it throws.
-/

namespace KeyVDB

/-- Calls on a state `σ` that may throw an `ε`. -/
abbrev CallM (ε σ : Type) := ExceptT ε (StateM σ)

section Exec

variable {ε σ α β : Type}

/-- What the call returns or throws, and the state it leaves. -/
def exec (x : CallM ε σ α) (s : σ) : Except ε α × σ := x s

/-- A computation that may throw and does not touch the state. -/
def ofExcept : Except ε α → CallM ε σ α
  | .ok a => pure a
  | .error e => throw e

/-- A call on a part of the state. -/
def onPart {τ : Type} (part : τ → σ) (put : σ → τ → τ) (x : CallM ε σ α) : CallM ε τ α := fun t =>
  let (r, s) := x (part t)
  (r, put s t)

/-- A computation in two parts returns if both do. -/
theorem except_bind_eq_ok {x : Except ε α} {f : α → Except ε β} {b : β} :
    (x >>= f) = .ok b ↔ ∃ a, x = .ok a ∧ f a = .ok b := by
  constructor
  · intro h
    cases x with
    | error e => cases h
    | ok a => exact ⟨a, rfl, h⟩
  · intro h
    obtain ⟨a, rfl, hf⟩ := h
    exact hf

/-- What every step of a loop preserves holds after the loop. -/
theorem foldlM_inv {step : σ → α → Except ε σ} {I : σ → Prop}
    (hstep : ∀ s a s', I s → step s a = .ok s' → I s') {s s' : σ} {as : List α} (h : I s)
    (hrun : as.foldlM step s = .ok s') : I s' := by
  induction as generalizing s with
  | nil =>
    cases hrun
    exact h
  | cons a as ih =>
    rw [List.foldlM_cons] at hrun
    obtain ⟨t, ht, hrun⟩ := except_bind_eq_ok.mp hrun
    exact ih (hstep s a t h ht) hrun

@[simp] theorem exec_pure (a : α) (s : σ) : exec (pure a : CallM ε σ α) s = (.ok a, s) := rfl

@[simp] theorem exec_throw (e : ε) (s : σ) :
    exec (throw e : CallM ε σ α) s = (.error e, s) := rfl

@[simp] theorem exec_get (s : σ) : exec (get : CallM ε σ σ) s = (.ok s, s) := rfl

@[simp] theorem exec_set (s' s : σ) : exec (set s' : CallM ε σ PUnit) s = (.ok ⟨⟩, s') := rfl

@[simp] theorem exec_modify (f : σ → σ) (s : σ) :
    exec (modify f : CallM ε σ PUnit) s = (.ok ⟨⟩, f s) := rfl

@[simp] theorem exec_ofExcept (e : Except ε α) (s : σ) :
    exec (ofExcept e : CallM ε σ α) s = (e, s) := by
  cases e <;> rfl

theorem exec_onPart {τ : Type} (part : τ → σ) (put : σ → τ → τ) (x : CallM ε σ α) (t : τ) :
    exec (onPart part put x) t = ((exec x (part t)).1, put (exec x (part t)).2 t) := rfl

theorem exec_bind (x : CallM ε σ α) (f : α → CallM ε σ β) (s : σ) :
    exec (x >>= f) s =
      match exec x s with
      | (.ok a, t) => exec (f a) t
      | (.error e, t) => (.error e, t) := by
  change (ExceptT.bindCont f (x s).1) (x s).2 = _
  unfold exec
  rcases x s with ⟨_ | a, t⟩ <;> rfl

theorem exec_bind_ok {x : CallM ε σ α} {a : α} {s t : σ} (h : exec x s = (.ok a, t))
    (f : α → CallM ε σ β) : exec (x >>= f) s = exec (f a) t := by
  rw [exec_bind, h]

theorem exec_bind_error {x : CallM ε σ α} {e : ε} {s t : σ} (h : exec x s = (.error e, t))
    (f : α → CallM ε σ β) : exec (x >>= f) s = (.error e, t) := by
  rw [exec_bind, h]

@[simp] theorem exec_get_bind (f : σ → CallM ε σ β) (s : σ) :
    exec (get >>= f) s = exec (f s) s := rfl

@[simp] theorem exec_set_bind (s' : σ) (f : PUnit → CallM ε σ β) (s : σ) :
    exec (set s' >>= f) s = exec (f ⟨⟩) s' := rfl

@[simp] theorem exec_modify_bind (g : σ → σ) (f : PUnit → CallM ε σ β) (s : σ) :
    exec (modify g >>= f) s = exec (f ⟨⟩) (g s) := rfl

@[simp] theorem exec_throw_bind (e : ε) (f : α → CallM ε σ β) (s : σ) :
    exec (throw e >>= f) s = (.error e, s) := rfl

@[simp] theorem exec_map (g : α → β) (x : CallM ε σ α) (s : σ) :
    exec (g <$> x) s = ((exec x s).1.map g, (exec x s).2) := by
  rw [map_eq_pure_bind, exec_bind]
  rcases exec x s with ⟨_ | a, t⟩ <;> rfl

theorem exec_eq_of_isOk {x : CallM ε σ Unit} {s : σ} (h : (exec x s).1.isOk = true) :
    exec x s = (.ok (), (exec x s).2) := by
  rcases hx : exec x s with ⟨_ | a, t⟩
  · rw [hx] at h
    cases h
  · rfl

end Exec

section Keeps

variable {ε σ τ α β : Type} {R : σ → σ → Prop}

/-- Whether it returns or throws, the call leaves a state related by `R` to the first one. -/
def Keeps (R : σ → σ → Prop) (x : CallM ε σ α) : Prop := ∀ s, R s (exec x s).2

namespace Keeps

/-- A call on a part of the state keeps what it keeps of the part. -/
theorem onPart {part : τ → σ} {put : σ → τ → τ} (hput : ∀ s t, part (put s t) = s)
    {x : CallM ε σ α} (hx : Keeps R x) :
    Keeps (fun t t' => R (part t) (part t')) (onPart part put x) := by
  intro t
  rw [exec_onPart, hput]
  exact hx (part t)

theorem modify {f : σ → σ} (h : ∀ s, R s (f s)) :
    Keeps R (modify f : CallM ε σ PUnit) := h

theorem get_bind {f : σ → CallM ε σ β} (h : ∀ s, R s (exec (f s) s).2) :
    Keeps R (get >>= f) := h

theorem ite {p : Prop} [Decidable p] {x y : CallM ε σ α} (hx : Keeps R x) (hy : Keeps R y) :
    Keeps R (if p then x else y) := by
  split
  · exact hx
  · exact hy

variable [IsPreorder σ R]

theorem pure (a : α) : Keeps R (pure a : CallM ε σ α) := fun s => refl_of R s

theorem throw (e : ε) : Keeps R (throw e : CallM ε σ α) := fun s => refl_of R s

theorem get : Keeps R (get : CallM ε σ σ) := fun s => refl_of R s

theorem bind {x : CallM ε σ α} {f : α → CallM ε σ β} (hx : Keeps R x) (hf : ∀ a, Keeps R (f a)) :
    Keeps R (x >>= f) := by
  intro s
  have h := hx s
  rw [exec_bind]
  split
  · next a t heq =>
    rw [heq] at h
    exact trans_of R h (hf a t)
  · next e t heq => rwa [heq] at h

end Keeps

end Keeps

section Sim

variable {ε σ τ α β : Type} {I : σ → Prop} {view : σ → τ}

/-- From every state with `I`, the call does to the state what `y` does to its view, and `I` holds
again. -/
def Sim (I : σ → Prop) (view : σ → τ) (x : CallM ε σ α) (y : CallM ε τ α) : Prop :=
  ∀ s, I s → (exec x s).1 = (exec y (view s)).1 ∧ view (exec x s).2 = (exec y (view s)).2 ∧
    I (exec x s).2

namespace Sim

theorem pure (a : α) : Sim I view (pure a : CallM ε σ α) (pure a) := fun _ h => ⟨rfl, rfl, h⟩

theorem throw (e : ε) : Sim I view (throw e : CallM ε σ α) (throw e) := fun _ h => ⟨rfl, rfl, h⟩

theorem modify {f : σ → σ} {g : τ → τ} (h : ∀ s, I s → view (f s) = g (view s) ∧ I (f s)) :
    Sim I view (modify f : CallM ε σ PUnit) (modify g) :=
  fun s hs => ⟨rfl, (h s hs).1, (h s hs).2⟩

theorem get_bind {f : σ → CallM ε σ β} {g : τ → CallM ε τ β}
    (h : ∀ s, I s → Sim I view (f s) (g (view s))) : Sim I view (get >>= f) (get >>= g) :=
  fun s hs => h s hs s hs

theorem bind {x : CallM ε σ α} {y : CallM ε τ α} {f : α → CallM ε σ β} {g : α → CallM ε τ β}
    (hx : Sim I view x y) (hf : ∀ a, Sim I view (f a) (g a)) :
    Sim I view (x >>= f) (y >>= g) := by
  intro s hs
  obtain ⟨hresult, hview, hI⟩ := hx s hs
  rw [exec_bind, exec_bind]
  generalize exec x s = r at *
  generalize exec y (view s) = r' at *
  obtain ⟨r, t⟩ := r
  obtain ⟨r', t'⟩ := r'
  dsimp only at hresult hview hI
  subst hresult hview
  cases r with
  | ok a => exact hf a t hI
  | error e => exact ⟨rfl, rfl, hI⟩

theorem ite {p : Prop} [Decidable p] {x x' : CallM ε σ α} {y y' : CallM ε τ α}
    (h : p → Sim I view x y) (h' : ¬ p → Sim I view x' y') :
    Sim I view (if p then x else x') (if p then y else y') := by
  by_cases hp : p
  · rw [if_pos hp, if_pos hp]
    exact h hp
  · rw [if_neg hp, if_neg hp]
    exact h' hp

end Sim

end Sim

section Returns

variable {ε σ τ α β : Type} {view : σ → τ} {x : CallM ε σ α} {H : τ} {Q : α → τ → Prop}

/-- From every state with the view `H` the call returns; the result and the view after it satisfy
`Q`. -/
def Returns (view : σ → τ) (x : CallM ε σ α) (H : τ) (Q : α → τ → Prop) : Prop :=
  ∀ s, view s = H → ∃ a s', exec x s = (.ok a, s') ∧ Q a (view s')

namespace Returns

theorem pure {a : α} (h : Q a H) : Returns view (pure a : CallM ε σ α) H Q := by
  rintro s rfl
  exact ⟨a, s, rfl, h⟩

theorem ofExcept {e : Except ε α} {a : α} (he : e = .ok a) :
    Returns view (ofExcept e : CallM ε σ α) H fun r H' => a = r ∧ H = H' := by
  rintro s rfl
  exact ⟨a, s, by rw [exec_ofExcept, he], rfl, rfl⟩

theorem modify {f : σ → σ} {Q : PUnit → τ → Prop} (h : ∀ s, view s = H → Q ⟨⟩ (view (f s))) :
    Returns view (modify f : CallM ε σ PUnit) H Q :=
  fun s hs => ⟨⟨⟩, f s, rfl, h s hs⟩

theorem get_bind {f : σ → CallM ε σ β} {Q : β → τ → Prop}
    (h : ∀ s, view s = H → Returns view (f s) H Q) : Returns view (get >>= f) H Q :=
  fun s hs => h s hs s hs

theorem mono {Q' : α → τ → Prop} (hx : Returns view x H Q) (h : ∀ a H', Q a H' → Q' a H') :
    Returns view x H Q' := by
  intro s hs
  obtain ⟨a, s', he, hq⟩ := hx s hs
  exact ⟨a, s', he, h a _ hq⟩

theorem bind {f : α → CallM ε σ β} {Q' : β → τ → Prop} (hx : Returns view x H Q)
    (hf : ∀ a H', Q a H' → Returns view (f a) H' Q') : Returns view (x >>= f) H Q' := by
  intro s hs
  obtain ⟨a, s', he, hq⟩ := hx s hs
  rw [exec_bind_ok he]
  exact hf a (view s') hq s' rfl

/-- A call that returns `a` and leaves `H'`, and what follows it. -/
theorem seqVal {a : α} {H' : τ} {f : α → CallM ε σ β} {Q : β → τ → Prop}
    (hx : Returns view x H fun r H'' => a = r ∧ H'' = H') (hf : Returns view (f a) H' Q) :
    Returns view (x >>= f) H Q := by
  refine hx.bind ?_
  rintro _ _ ⟨rfl, rfl⟩
  exact hf

theorem seq {x : CallM ε σ Unit} {H' : τ} {f : Unit → CallM ε σ β} {Q : β → τ → Prop}
    (hx : Returns view x H fun _ H'' => H'' = H') (hf : Returns view (f ()) H' Q) :
    Returns view (x >>= f) H Q :=
  (hx.mono fun _ _ h => ⟨rfl, h⟩ : Returns view x H fun r H'' => () = r ∧ H'' = H').seqVal hf

theorem last {x : CallM ε σ Unit} {H' : τ} {Q : Unit → τ → Prop}
    (hx : Returns view x H fun _ H'' => H'' = H') (h : Q () H') : Returns view x H Q := by
  refine hx.mono ?_
  rintro _ _ rfl
  exact h

end Returns

end Returns

section Ends

variable {ε σ τ α β : Type} {view : σ → τ} {x : CallM ε σ α} {H : τ} {Q : α → τ → Prop}

/-- Partial correctness: when the call returns from a state with the view `H`, the result and the
view after it satisfy `Q`. -/
def Ends (view : σ → τ) (x : CallM ε σ α) (H : τ) (Q : α → τ → Prop) : Prop :=
  ∀ s a s', view s = H → exec x s = (.ok a, s') → Q a (view s')

namespace Ends

theorem pure {a : α} (h : Q a H) : Ends view (pure a : CallM ε σ α) H Q := by
  rintro s _ _ rfl ⟨⟩
  exact h

theorem throw (e : ε) : Ends view (throw e : CallM ε σ α) H Q := by
  rintro s _ _ - ⟨⟩

theorem ofExcept {e : Except ε α} :
    Ends view (ofExcept e : CallM ε σ α) H fun r H' => e = .ok r ∧ H = H' := by
  intro s a s' hs he
  rw [exec_ofExcept] at he
  cases he
  exact ⟨rfl, hs.symm⟩

theorem modify {f : σ → σ} {Q : PUnit → τ → Prop} (h : ∀ s, view s = H → Q ⟨⟩ (view (f s))) :
    Ends view (modify f : CallM ε σ PUnit) H Q := by
  rintro s _ _ hs ⟨⟩
  exact h s hs

theorem get_bind {f : σ → CallM ε σ β} {Q : β → τ → Prop}
    (h : ∀ s, view s = H → Ends view (f s) H Q) : Ends view (get >>= f) H Q :=
  fun s _ _ hs he => h s hs s _ _ hs he

theorem mono {Q' : α → τ → Prop} (hx : Ends view x H Q) (h : ∀ a H', Q a H' → Q' a H') :
    Ends view x H Q' :=
  fun s a s' hs he => h a (view s') (hx s a s' hs he)

theorem bind {f : α → CallM ε σ β} {Q' : β → τ → Prop} (hx : Ends view x H Q)
    (hf : ∀ a H', Q a H' → Ends view (f a) H' Q') : Ends view (x >>= f) H Q' := by
  intro s b s' hs he
  rw [exec_bind] at he
  split at he
  · next a t hxs => exact hf a (view t) (hx s a t hs hxs) t b s' rfl he
  · cases he

/-- A call that returns `a` and leaves `H'`, and what follows it. -/
theorem seqVal {a : α} {H' : τ} {f : α → CallM ε σ β} {Q : β → τ → Prop}
    (hx : Ends view x H fun r H'' => a = r ∧ H'' = H') (hf : Ends view (f a) H' Q) :
    Ends view (x >>= f) H Q := by
  refine hx.bind ?_
  rintro _ _ ⟨rfl, rfl⟩
  exact hf

theorem seq {x : CallM ε σ Unit} {H' : τ} {f : Unit → CallM ε σ β} {Q : β → τ → Prop}
    (hx : Ends view x H fun _ H'' => H'' = H') (hf : Ends view (f ()) H' Q) :
    Ends view (x >>= f) H Q :=
  (hx.mono fun _ _ h => ⟨rfl, h⟩ : Ends view x H fun r H'' => () = r ∧ H'' = H').seqVal hf

theorem last {x : CallM ε σ Unit} {H' : τ} {Q : Unit → τ → Prop}
    (hx : Ends view x H fun _ H'' => H'' = H') (h : Q () H') : Ends view x H Q := by
  refine hx.mono ?_
  rintro _ _ rfl
  exact h

end Ends

end Ends

section Triple

variable {ε σ α β : Type} {P P' : σ → Prop} {x : CallM ε σ α} {Q : α → σ → Prop}

/-- When the call returns from a state with `P`, the result and the state it leaves satisfy `Q`. -/
def Triple (P : σ → Prop) (x : CallM ε σ α) (Q : α → σ → Prop) : Prop :=
  ∀ s, P s → ∀ a s', exec x s = (.ok a, s') → Q a s'

namespace Triple

theorem pure {a : α} (h : ∀ s, P s → Q a s) : Triple P (pure a : CallM ε σ α) Q := by
  rintro s hs _ _ ⟨⟩
  exact h s hs

theorem throw (e : ε) : Triple P (throw e : CallM ε σ α) Q := by
  rintro s - _ _ ⟨⟩

theorem modify {f : σ → σ} {Q : PUnit → σ → Prop} (h : ∀ s, P s → Q ⟨⟩ (f s)) :
    Triple P (modify f : CallM ε σ PUnit) Q := by
  rintro s hs _ _ ⟨⟩
  exact h s hs

/-- What is known of a state is known of what was read from it. -/
theorem get_bind {f : σ → CallM ε σ β} {Q : β → σ → Prop}
    (h : ∀ s, P s → Triple (fun s' => s' = s) (f s) Q) : Triple P (get >>= f) Q :=
  fun s hs a s' he => h s hs s rfl a s' he

theorem ofExcept {e : Except ε α} (h : ∀ a, e = .ok a → ∀ s, P s → Q a s) :
    Triple P (ofExcept e : CallM ε σ α) Q := by
  intro s hs a s' he
  rw [exec_ofExcept] at he
  cases he
  exact h a rfl s hs

theorem bind {f : α → CallM ε σ β} {R : β → σ → Prop} (hx : Triple P x Q)
    (hf : ∀ a, Triple (Q a) (f a) R) : Triple P (x >>= f) R := by
  intro s hs b s' he
  rw [exec_bind] at he
  split at he
  · next a t hxs => exact hf a t (hx s hs a t hxs) b s' he
  · cases he

theorem ite {p : Prop} [Decidable p] {y : CallM ε σ α} (hx : p → Triple P x Q)
    (hy : ¬ p → Triple P y Q) : Triple P (if p then x else y) Q := by
  split
  · next hp => exact hx hp
  · next hp => exact hy hp

theorem pre (hx : Triple P x Q) (h : ∀ s, P' s → P s) : Triple P' x Q :=
  fun s hs => hx s (h s hs)

theorem post {Q' : α → σ → Prop} (hx : Triple P x Q) (h : ∀ a s, Q a s → Q' a s) :
    Triple P x Q' :=
  fun s hs a s' he => h a s' (hx s hs a s' he)

/-- A part of the precondition that is not about the state. -/
theorem of_and {p : Prop} (h : p → Triple P x Q) : Triple (fun s => p ∧ P s) x Q :=
  fun s hs => h hs.1 s hs.2

end Triple

end Triple

section Guards

variable {ε σ α β : Type} {E P P' : σ → Prop} {x : CallM ε σ α} {Q : α → σ → Prop}

/-- From every state with `P`, the call leaves a state with `E`, whether it returns or throws, and
when it returns, the result and the state satisfy `Q`. -/
def Guards (E P : σ → Prop) (x : CallM ε σ α) (Q : α → σ → Prop) : Prop :=
  ∀ s, P s → E (exec x s).2 ∧ ∀ a s', exec x s = (.ok a, s') → Q a s'

namespace Guards

/-- From one state, where the call returns. -/
theorem returned {s s' : σ} {a : α} (hx : exec x s = (.ok a, s')) (hE : E s') (hQ : Q a s') :
    E (exec x s).2 ∧ ∀ b t, exec x s = (.ok b, t) → Q b t := by
  rw [hx]
  refine ⟨hE, fun b t h => ?_⟩
  cases h
  exact hQ

/-- From one state, where it throws. -/
theorem threw {s s' : σ} {e : ε} (hx : exec x s = (.error e, s')) (hE : E s') :
    E (exec x s).2 ∧ ∀ b t, exec x s = (.ok b, t) → Q b t := by
  rw [hx]
  refine ⟨hE, fun b t h => ?_⟩
  cases h

theorem pure {a : α} (hE : ∀ s, P s → E s) (h : ∀ s, P s → Q a s) :
    Guards E P (pure a : CallM ε σ α) Q :=
  fun s hs => returned rfl (hE s hs) (h s hs)

theorem throw (e : ε) (hE : ∀ s, P s → E s) : Guards E P (throw e : CallM ε σ α) Q :=
  fun s hs => threw rfl (hE s hs)

theorem ofExcept {e : Except ε α} (hE : ∀ s, P s → E s) (h : ∀ a, e = .ok a → ∀ s, P s → Q a s) :
    Guards E P (ofExcept e : CallM ε σ α) Q := by
  intro s hs
  rw [exec_ofExcept]
  refine ⟨hE s hs, fun a s' he => ?_⟩
  cases he
  exact h a rfl s hs

theorem bind {f : α → CallM ε σ β} {R : β → σ → Prop} (hx : Guards E P x Q)
    (hf : ∀ a, Guards E (Q a) (f a) R) : Guards E P (x >>= f) R := by
  intro s hs
  obtain ⟨hE, hQ⟩ := hx s hs
  rcases hexec : exec x s with ⟨e | a, s'⟩
  · rw [hexec] at hE
    exact threw (exec_bind_error hexec f) hE
  · rw [exec_bind_ok hexec]
    exact hf a s' (hQ a s' hexec)

/-- A call that only reads, and what it reads is known. -/
theorem read {a : α} {f : α → CallM ε σ β} {R : β → σ → Prop}
    (hx : ∀ s, P s → exec x s = (.ok a, s)) (hf : Guards E P (f a) R) :
    Guards E P (x >>= f) R := by
  intro s hs
  rw [exec_bind_ok (hx s hs)]
  exact hf s hs

theorem ite {p : Prop} [Decidable p] {y : CallM ε σ α} (hx : p → Guards E P x Q)
    (hy : ¬ p → Guards E P y Q) : Guards E P (if p then x else y) Q := by
  split
  · next hp => exact hx hp
  · next hp => exact hy hp

/-- All states with the precondition go on alike. -/
theorem get_bind {f : σ → CallM ε σ β} {y : CallM ε σ β} {R : β → σ → Prop}
    (hf : ∀ s, P s → f s = y) (hy : Guards E P y R) : Guards E P (get >>= f) R := by
  intro s hs
  rw [exec_get_bind, hf s hs]
  exact hy s hs

theorem pre (hx : Guards E P x Q) (h : ∀ s, P' s → P s) : Guards E P' x Q :=
  fun s hs => hx s (h s hs)

theorem post {Q' : α → σ → Prop} (hx : Guards E P x Q) (h : ∀ a s, Q a s → Q' a s) :
    Guards E P x Q' :=
  fun s hs => ⟨(hx s hs).1, fun a s' he => h a s' ((hx s hs).2 a s' he)⟩

/-- A part of the precondition that is not about the state. -/
theorem of_and {p : Prop} (h : p → Guards E P x Q) : Guards E (fun s => p ∧ P s) x Q :=
  fun s hs => h hs.1 s hs.2

theorem of_exists {ι : Type} {P : ι → σ → Prop} (h : ∀ i, Guards E (P i) x Q) :
    Guards E (fun s => ∃ i, P i s) x Q := by
  rintro s ⟨i, hi⟩
  exact h i s hi

/-- What follows from the precondition and is not about the state. -/
theorem known {p : Prop} (hp : ∀ s, P s → p) (h : p → Guards E P x Q) : Guards E P x Q :=
  fun s hs => h (hp s hs) s hs

end Guards

end Guards

end KeyVDB
