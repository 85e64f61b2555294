import Mathlib.Data.List.Basic
import Mathlib.Data.Fintype.EquivFin
import Mathlib.Order.WellFounded

/-!
# Monitors with one condition variable

A thread that cannot go on sleeps on the condition variable, and looks again at the state when it
has been notified. A wakeup is lost when the state has come to allow a request whose thread sleeps
and has not been notified. `NoLost` says that there is no such thread: it survives the changes
that allow nothing new, and every change after which all threads are notified.

`exists_unblocked_or_cycle` is for the thread that no notification reaches: whoever it waits for,
directly or through others, goes on, or waits in a cycle.
-/

namespace KeyVDB

/-- A thread that sleeps on the condition variable. -/
structure Waiter (ρ : Type*) where
  request : ρ
  notified : Bool := false
  deriving DecidableEq

/-- The protected state, and the threads that sleep. -/
structure Monitor (σ ρ : Type*) where
  state : σ
  waiting : List (Waiter ρ) := []

namespace Monitor

variable {σ ρ : Type*}

/-- The thread goes to sleep. -/
def sleep (m : Monitor σ ρ) (r : ρ) : Monitor σ ρ :=
  { m with waiting := ⟨r, false⟩ :: m.waiting }

/-- The thread leaves the queue. -/
def leave [DecidableEq ρ] (m : Monitor σ ρ) (w : Waiter ρ) : Monitor σ ρ :=
  { m with waiting := m.waiting.erase w }

/-- `notify_all`. -/
def notifyAll (m : Monitor σ ρ) : Monitor σ ρ :=
  { m with waiting := m.waiting.map fun w => { w with notified := true } }

/-- Every thread that sleeps and was not notified has to wait. -/
def NoLost (blocked : σ → ρ → Prop) (m : Monitor σ ρ) : Prop :=
  ∀ w ∈ m.waiting, w.notified = false → blocked m.state w.request

namespace NoLost

variable {blocked : σ → ρ → Prop} {m : Monitor σ ρ}

/-- A change that keeps every sleeping thread blocked. -/
theorem change (h : NoLost blocked m) {s : σ}
    (hkeep : ∀ w ∈ m.waiting, blocked m.state w.request → blocked s w.request) :
    NoLost blocked { m with state := s } := by
  intro w hw hn
  exact hkeep w hw (h w hw hn)

theorem sleep (h : NoLost blocked m) {r : ρ} (hr : blocked m.state r) :
    NoLost blocked (m.sleep r) := by
  intro w hw hn
  rcases List.mem_cons.mp hw with rfl | hw
  · exact hr
  · exact h w hw hn

theorem leave [DecidableEq ρ] (h : NoLost blocked m) (w : Waiter ρ) :
    NoLost blocked (m.leave w) := by
  intro v hv hn
  exact h v (List.mem_of_mem_erase hv) hn

theorem notifyAll (blocked : σ → ρ → Prop) (m : Monitor σ ρ) : NoLost blocked m.notifyAll := by
  intro w hw hn
  obtain ⟨v, -, rfl⟩ := List.mem_map.mp hw
  cases hn

end NoLost

end Monitor

/-- In a finite set of blocked threads, the relation of waiting for somebody leads out of the set
or into a cycle. -/
theorem exists_unblocked_or_cycle {τ : Type*} {waits : τ → τ → Prop} {blocked : Finset τ}
    (h : ∀ t ∈ blocked, ∃ u, waits t u) {t : τ} (ht : t ∈ blocked) :
    ∃ u, Relation.TransGen waits t u ∧ (u ∉ blocked ∨ Relation.TransGen waits u u) := by
  by_contra hnone
  -- what `t` leads to stays inside and has no cycle, so it has a last element
  let reach : Type _ := { u : τ // u ∈ blocked ∧ Relation.ReflTransGen waits t u }
  have hinside : ∀ u, Relation.TransGen waits t u → u ∈ blocked := by
    intro u hu
    by_contra hout
    exact hnone ⟨u, hu, Or.inl hout⟩
  have hacyclic : ∀ u, Relation.ReflTransGen waits t u → ¬ Relation.TransGen waits u u := by
    intro u hu hcycle
    exact hnone ⟨u, Relation.TransGen.trans_right hu hcycle, Or.inr hcycle⟩
  let after : reach → reach → Prop := fun u v => Relation.TransGen waits v.1 u.1
  have : Finite reach := Finite.of_injective (fun u : reach => (⟨u.1, u.2.1⟩ : blocked))
    fun u v huv => Subtype.ext (congrArg (fun x : blocked => x.1) huv)
  have : IsTrans reach after := ⟨fun _ _ _ huv hvw => hvw.trans huv⟩
  have : Std.Irrefl after := ⟨fun u => hacyclic u.1 u.2.2⟩
  have hwf : WellFounded after := Finite.wellFounded_of_trans_of_irrefl after
  obtain ⟨u, -, hlast⟩ := hwf.has_min Set.univ ⟨⟨t, ht, .refl⟩, trivial⟩
  obtain ⟨v, hv⟩ := h u.1 u.2.1
  have htv : Relation.TransGen waits t v := Relation.TransGen.tail' u.2.2 hv
  exact hlast ⟨v, hinside v htv, htv.to_reflTransGen⟩ trivial (.single hv)

end KeyVDB
