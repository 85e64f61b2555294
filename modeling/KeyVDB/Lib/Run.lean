import Mathlib.Tactic.TypeStar

/-!
# Runs of a transition function

A system is a partial transition function `step : σ → α → Option σ`; `none` means that the action
is not enabled. A run is a list of actions. The rules here carry a property of one step to
whole runs: `run_inv` for an invariant, `along_of_inv` for every state on the way, and
`along_iff_steps` where the invariant is preserved by exactly the steps that meet a condition.
-/

namespace KeyVDB

section Run

variable {σ α : Type*} (step : σ → α → Option σ)

/-- Takes the actions in order. -/
def run : σ → List α → Option σ
  | s, [] => some s
  | s, a :: as => (step s a).bind fun s' => run s' as

/-- `P` holds in every state of the run, from `s` on. -/
def Along (P : σ → Prop) : σ → List α → Prop
  | s, [] => P s
  | s, a :: as => P s ∧ ∀ s', step s a = some s' → Along P s' as

/-- Every step of the run from `s` meets `C`. -/
def Steps (C : σ → α → Prop) : σ → List α → Prop
  | _, [] => True
  | s, a :: as => C s a ∧ ∀ s', step s a = some s' → Steps C s' as

instance decidableSteps {C : σ → α → Prop} [∀ s a, Decidable (C s a)] :
    (s : σ) → (as : List α) → Decidable (Steps step C s as)
  | _, [] => instDecidableTrue
  | s, a :: as =>
    match hs : step s a with
    | none => decidable_of_iff (C s a) ⟨fun h => ⟨h, fun s' hs' => by rw [hs] at hs'; cases hs'⟩,
        fun h => h.1⟩
    | some t =>
      have : Decidable (Steps step C t as) := decidableSteps t as
      decidable_of_iff (C s a ∧ Steps step C t as)
        ⟨fun h => ⟨h.1, fun s' hs' => by rw [hs] at hs'; cases hs'; exact h.2⟩,
          fun h => ⟨h.1, h.2 t hs⟩⟩

variable {step}

theorem run_cons {s s' : σ} {a : α} {as : List α} (h : run step s (a :: as) = some s') :
    ∃ t, step s a = some t ∧ run step t as = some s' :=
  Option.bind_eq_some_iff.mp h

theorem run_snoc {s t s' : σ} {as : List α} {a : α} (h : run step s as = some t)
    (hs : step t a = some s') : run step s (as ++ [a]) = some s' := by
  induction as generalizing s with
  | nil =>
    cases h
    simp [run, hs]
  | cons b as ih =>
    obtain ⟨u, hu, h⟩ := run_cons h
    simp only [List.cons_append, run, hu, Option.bind_some]
    exact ih h

theorem run_append (s : σ) (as bs : List α) :
    run step s (as ++ bs) = (run step s as).bind fun s' => run step s' bs := by
  induction as generalizing s with
  | nil => rfl
  | cons a as ih =>
    simp only [List.cons_append, run, Option.bind_assoc]
    congr 1
    funext s'
    exact ih s'

theorem Steps.append {C : σ → α → Prop} {s : σ} {as bs : List α} (h : Steps step C s as)
    (h' : ∀ s', run step s as = some s' → Steps step C s' bs) : Steps step C s (as ++ bs) := by
  induction as generalizing s with
  | nil => exact h' s rfl
  | cons a as ih =>
    refine ⟨h.1, fun t ht => ih (h.2 t ht) ?_⟩
    intro s' hs'
    apply h'
    simp only [run, ht, Option.bind_some, hs']

theorem Steps.of_append {C : σ → α → Prop} {s : σ} {as bs : List α}
    (h : Steps step C s (as ++ bs)) : Steps step C s as := by
  induction as generalizing s with
  | nil => trivial
  | cons a as ih => exact ⟨h.1, fun t ht => ih (h.2 t ht)⟩

theorem Steps.at {C : σ → α → Prop} {s s' : σ} {as l : List α} {a : α}
    (h : Steps step C s (as ++ a :: l)) (hrun : run step s as = some s') : C s' a := by
  induction as generalizing s with
  | nil => exact Option.some.inj hrun ▸ h.1
  | cons b as ih =>
    obtain ⟨t, ht, hrun⟩ := run_cons hrun
    exact ih (h.2 t ht) hrun

theorem Along.at {P : σ → Prop} {s s' : σ} {as : List α} (h : Along step P s as)
    (hrun : run step s as = some s') : P s' := by
  induction as generalizing s with
  | nil => exact Option.some.inj hrun ▸ h
  | cons b as ih =>
    obtain ⟨t, ht, hrun⟩ := run_cons hrun
    exact ih (h.2 t ht) hrun

theorem steps_of_mem {C : σ → α → Prop} {as : List α} (h : ∀ s, ∀ a ∈ as, C s a) (s : σ) :
    Steps step C s as := by
  induction as generalizing s with
  | nil => trivial
  | cons a as ih =>
    exact ⟨h s a List.mem_cons_self,
      fun s' _ => ih (fun s b hb => h s b (List.mem_cons_of_mem _ hb)) s'⟩

theorem steps_of_forall {C : σ → α → Prop} (h : ∀ s a, C s a) (s : σ) (as : List α) :
    Steps step C s as :=
  steps_of_mem (fun s a _ => h s a) s

theorem Steps.and {C D : σ → α → Prop} {s : σ} {as : List α} (hC : Steps step C s as)
    (hD : Steps step D s as) : Steps step (fun s a => C s a ∧ D s a) s as := by
  induction as generalizing s with
  | nil => trivial
  | cons a as ih => exact ⟨⟨hC.1, hD.1⟩, fun s' hs' => ih (hC.2 s' hs') (hD.2 s' hs')⟩

theorem Steps.imp {C D : σ → α → Prop} (hCD : ∀ s a, C s a → D s a) {s : σ} {as : List α}
    (h : Steps step C s as) : Steps step D s as := by
  induction as generalizing s with
  | nil => trivial
  | cons a as ih => exact ⟨hCD s a h.1, fun s' hs' => ih (h.2 s' hs')⟩

/-- **The invariant rule.** What every step of the kind `C` preserves holds after every run of
such steps. -/
theorem run_inv {Inv : σ → Prop} {C : σ → α → Prop}
    (hstep : ∀ s a s', Inv s → C s a → step s a = some s' → Inv s') {s s' : σ} {as : List α}
    (h0 : Inv s) (hC : Steps step C s as) (hrun : run step s as = some s') : Inv s' := by
  induction as generalizing s with
  | nil => exact Option.some.inj hrun ▸ h0
  | cons a as ih =>
    obtain ⟨t, ht, hrun⟩ := run_cons hrun
    exact ih (hstep s a t h0 hC.1 ht) (hC.2 t ht) hrun

/-- The invariant rule for every state on the way. -/
theorem along_of_inv {Inv P : σ → Prop} {C : σ → α → Prop}
    (hstep : ∀ s a s', Inv s → C s a → step s a = some s' → Inv s') (hP : ∀ s, Inv s → P s)
    {s : σ} {as : List α} (h0 : Inv s) (hC : Steps step C s as) : Along step P s as := by
  induction as generalizing s with
  | nil => exact hP s h0
  | cons a as ih =>
    exact ⟨hP s h0, fun t ht => ih (hstep s a t h0 hC.1 ht) (hC.2 t ht)⟩

theorem Along.head {P : σ → Prop} {s : σ} {as : List α} (h : Along step P s as) : P s := by
  cases as with
  | nil => exact h
  | cons a as => exact h.1

/-- Where the steps that lead from `Inv` to `P` are exactly those that meet `C`, the runs that
stay in `P` are exactly the runs of such steps. -/
theorem along_iff_steps {Inv P : σ → Prop} {C : σ → α → Prop} (hP : ∀ s, Inv s → P s)
    (hstep : ∀ s a s', Inv s → step s a = some s' → C s a → Inv s')
    (hback : ∀ s a s', Inv s → step s a = some s' → P s' → C s a)
    (hoff : ∀ s a, Inv s → step s a = none → C s a) {s : σ} {as : List α} (h0 : Inv s) :
    Along step P s as ↔ Steps step C s as := by
  induction as generalizing s with
  | nil => exact ⟨fun _ => trivial, fun _ => hP s h0⟩
  | cons a as ih =>
    constructor
    · rintro ⟨-, h⟩
      cases hs : step s a with
      | none => exact ⟨hoff s a h0 hs, fun s' hs' => by rw [hs] at hs'; cases hs'⟩
      | some t =>
        have hC : C s a := hback s a t h0 hs (h t hs).head
        refine ⟨hC, fun s' hs' => ?_⟩
        rw [hs] at hs'
        cases hs'
        exact (ih (hstep s a t h0 hs hC)).mp (h t hs)
    · rintro ⟨hC, h⟩
      exact ⟨hP s h0, fun t ht => (ih (hstep s a t h0 ht hC)).mpr (h t ht)⟩

end Run

end KeyVDB
