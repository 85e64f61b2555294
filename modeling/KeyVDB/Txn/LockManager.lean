import KeyVDB.Wal.LogManager
import Mathlib.Data.Finset.Card
import Mathlib.Logic.Function.Basic

/-!
# The lock manager

`lock_manager.{h,cpp}`: one `LockState` per key, and for each transaction the keys it was granted,
in order and with repetitions. A request is granted at once or waits; while it waits nothing
changes, and a request that times out leaves both tables as they were.

`Excl` is what two-phase locking rests on: a key with an exclusive holder has no shared holder. A
grant and a release keep it, and neither takes a lock from another transaction.
-/

namespace KeyVDB

inductive LockMode
  | SHARED
  | EXCLUSIVE
  deriving DecidableEq, Repr

/-- `LockManager::LockState`. -/
structure LockState where
  sharedHolders : Finset TxnId := ∅
  exclusiveHolder : TxnId := INVALID_TXN_ID

/-- The state without the locks of `txnId`. -/
def LockState.release (ls : LockState) (txnId : TxnId) : LockState where
  sharedHolders := ls.sharedHolders.erase txnId
  exclusiveHolder := if ls.exclusiveHolder = txnId then INVALID_TXN_ID else ls.exclusiveHolder

/-- `class LockManager`: `lock_table_` and `txn_locks_`. -/
structure LockManager where
  lockTable : Bytes → Option LockState := fun _ => none
  txnLocks : TxnId → Option (List Bytes) := fun _ => none

namespace LockManager

/-- `can_grant`. -/
def canGrant (ls : LockState) (txnId : TxnId) (mode : LockMode) : Bool :=
  match mode with
  | .SHARED =>
    if ls.exclusiveHolder = INVALID_TXN_ID then true
    else ls.exclusiveHolder = txnId                 -- re-entrant: already holds X
  | .EXCLUSIVE =>
    if ls.exclusiveHolder ≠ INVALID_TXN_ID then ls.exclusiveHolder = txnId
    else if ls.sharedHolders = ∅ then true
    else if ls.sharedHolders.card = 1 ∧ txnId ∈ ls.sharedHolders then true
    else false

/-- `lock_table_[key]`: an absent entry is created empty. -/
def entry (lm : LockManager) (key : Bytes) : LockState := (lm.lockTable key).getD {}

/-- The part of `lock` after the wait: the grant is recorded. -/
def grant (lm : LockManager) (txnId : TxnId) (key : Bytes) (mode : LockMode) : LockManager :=
  let ls := lm.entry key
  let push := Function.update lm.txnLocks txnId (some ((lm.txnLocks txnId).getD [] ++ [key]))
  match mode with
  | .SHARED =>
    if ls.exclusiveHolder = txnId then { lm with lockTable := Function.update lm.lockTable key ls }
    else
      { lockTable := Function.update lm.lockTable key
          (some { ls with sharedHolders := insert txnId ls.sharedHolders })
        txnLocks := push }
  | .EXCLUSIVE =>
    { lockTable := Function.update lm.lockTable key
        (some { sharedHolders := ls.sharedHolders.erase txnId, exclusiveHolder := txnId })
      txnLocks := push }

/-- `lock` at a moment when its thread runs: `none` while the request has to wait. -/
def lock (lm : LockManager) (txnId : TxnId) (key : Bytes) (mode : LockMode) : Option LockManager :=
  if canGrant (lm.entry key) txnId mode then some (lm.grant txnId key mode) else none

/-- One round of the loop of `release_all`. -/
def releaseKey (table : Bytes → Option LockState) (txnId : TxnId) (key : Bytes) :
    Bytes → Option LockState :=
  match table key with
  | none => table
  | some ls =>
    if (ls.release txnId).sharedHolders = ∅ ∧
        (ls.release txnId).exclusiveHolder = INVALID_TXN_ID then
      Function.update table key none                -- prune the empty lock state
    else Function.update table key (some (ls.release txnId))

/-- `release_all`. -/
def releaseAll (lm : LockManager) (txnId : TxnId) : LockManager :=
  match lm.txnLocks txnId with
  | none => lm
  | some keys =>
    { lockTable := keys.foldl (fun table key => releaseKey table txnId key) lm.lockTable
      txnLocks := Function.update lm.txnLocks txnId none }

/-! ## Who holds what -/

/-- `holds_exclusive`. -/
def HoldsX (lm : LockManager) (t : TxnId) (k : Bytes) : Prop := (lm.entry k).exclusiveHolder = t

/-- `holds_lock`. -/
def Holds (lm : LockManager) (t : TxnId) (k : Bytes) : Prop :=
  t ∈ (lm.entry k).sharedHolders ∨ (lm.entry k).exclusiveHolder = t

/-- No key with an exclusive holder has a shared holder. -/
def Excl (lm : LockManager) : Prop :=
  ∀ k, (lm.entry k).exclusiveHolder ≠ INVALID_TXN_ID → (lm.entry k).sharedHolders = ∅

theorem HoldsX.holds {lm : LockManager} {t : TxnId} {k : Bytes} (h : lm.HoldsX t k) :
    lm.Holds t k :=
  Or.inr h

/-- The holder of an exclusive lock is the only holder. -/
theorem Excl.eq_of_holds {lm : LockManager} (he : lm.Excl) {t u : TxnId} {k : Bytes}
    (ht : t ≠ INVALID_TXN_ID) (hx : lm.HoldsX t k) (hu : lm.Holds u k) : u = t := by
  have hx : (lm.entry k).exclusiveHolder = t := hx
  rcases hu with hs | hu
  · rw [he k (by rw [hx]; exact ht)] at hs
    simp at hs
  · exact hu.symm.trans hx

theorem excl_init : Excl {} := fun _ h => (h rfl).elim

/-! ## Grants -/

theorem entry_update (table : Bytes → Option LockState) (locks : TxnId → Option (List Bytes))
    (key : Bytes) (o : Option LockState) (k : Bytes) :
    (LockManager.mk (Function.update table key o) locks).entry k =
      if k = key then o.getD {} else (table k).getD {} := by
  unfold entry
  by_cases h : k = key
  · subst h; simp
  · simp [h]

theorem entry_grant (lm : LockManager) (t : TxnId) (key : Bytes) (mode : LockMode) (k : Bytes) :
    (lm.grant t key mode).entry k =
      if k ≠ key then lm.entry k
      else match mode with
        | .SHARED =>
          if (lm.entry key).exclusiveHolder = t then lm.entry key
          else { lm.entry key with sharedHolders := insert t (lm.entry key).sharedHolders }
        | .EXCLUSIVE =>
          { sharedHolders := (lm.entry key).sharedHolders.erase t, exclusiveHolder := t } := by
  unfold grant
  by_cases hk : k = key
  · subst hk
    cases mode with
    | SHARED =>
      by_cases hx : (lm.entry k).exclusiveHolder = t
      · simp only [hx, ↓reduceIte, entry_update]; simp
      · simp only [hx, ↓reduceIte, entry_update]; simp
    | EXCLUSIVE => simp only [entry_update]; simp
  · cases mode with
    | SHARED =>
      by_cases hx : (lm.entry key).exclusiveHolder = t
      · simp only [hx, ↓reduceIte, entry_update]; simp [hk, entry]
      · simp only [hx, ↓reduceIte, entry_update]; simp [hk, entry]
    | EXCLUSIVE => simp only [entry_update]; simp [hk, entry]

theorem canGrant_shared {ls : LockState} {t : TxnId} (h : canGrant ls t .SHARED = true) :
    ls.exclusiveHolder = INVALID_TXN_ID ∨ ls.exclusiveHolder = t := by
  unfold canGrant at h
  simp only at h
  split at h
  · next h0 => exact Or.inl h0
  · exact Or.inr (by simpa using h)

/-- An exclusive grant finds no lock of anybody else. -/
theorem canGrant_exclusive {ls : LockState} {t : TxnId} (h : canGrant ls t .EXCLUSIVE = true)
    (he : ls.exclusiveHolder ≠ INVALID_TXN_ID → ls.sharedHolders = ∅) :
    (ls.exclusiveHolder = INVALID_TXN_ID ∨ ls.exclusiveHolder = t) ∧
      ∀ u ∈ ls.sharedHolders, u = t := by
  unfold canGrant at h
  simp only at h
  split at h
  · next hx =>
    refine ⟨Or.inr (by simpa using h), ?_⟩
    rw [he hx]
    simp
  next hx =>
  refine ⟨Or.inl (not_not.mp hx), ?_⟩
  split at h
  · next h0 => rw [h0]; simp
  split at h
  · next h1 =>
    intro u hu
    exact Finset.card_le_one.mp h1.1.le u hu t h1.2
  · cases h

section Grant

variable {lm lm' : LockManager} {t : TxnId} {key : Bytes} {mode : LockMode}

theorem lock_eq (h : lm.lock t key mode = some lm') :
    canGrant (lm.entry key) t mode = true ∧ lm' = lm.grant t key mode := by
  unfold lock at h
  split at h
  · exact ⟨‹_›, (Option.some.inj h).symm⟩
  · cases h

theorem Excl.lock (he : lm.Excl) (h : lm.lock t key mode = some lm') : lm'.Excl := by
  obtain ⟨hg, rfl⟩ := lock_eq h
  intro k hk
  rw [entry_grant] at hk ⊢
  by_cases e : k = key
  · subst e
    simp only [ne_eq, not_true_eq_false, ↓reduceIte] at hk ⊢
    cases mode with
    | SHARED =>
      simp only at hk ⊢
      split
      · next hx => simp only [hx, ↓reduceIte] at hk; exact he k (by rw [hx]; exact hk)
      · next hx =>
        simp only [hx, ↓reduceIte] at hk
        exact absurd (canGrant_shared hg) (by simp [hk, hx])
    | EXCLUSIVE =>
      simp only
      have hall := (canGrant_exclusive hg (he k)).2
      exact Finset.eq_empty_of_forall_notMem fun u hu =>
        (Finset.mem_erase.mp hu).1 (hall u (Finset.mem_erase.mp hu).2)
  · simp only [ne_eq, e, not_false_eq_true, ↓reduceIte] at hk ⊢
    exact he k hk

/-- A granted request leaves the requester with a lock on the key. -/
theorem holds_lock (h : lm.lock t key mode = some lm') : lm'.Holds t key := by
  obtain ⟨-, rfl⟩ := lock_eq h
  unfold Holds
  rw [entry_grant]
  cases mode with
  | SHARED =>
    by_cases hx : (lm.entry key).exclusiveHolder = t
    · simp [hx]
    · simp [hx]
  | EXCLUSIVE => simp

theorem holdsX_lock (h : lm.lock t key .EXCLUSIVE = some lm') : lm'.HoldsX t key := by
  obtain ⟨-, rfl⟩ := lock_eq h
  unfold HoldsX
  rw [entry_grant]
  simp

/-- A grant takes no exclusive lock away. -/
theorem HoldsX.lock (he : lm.Excl) (h : lm.lock t key mode = some lm') {u : TxnId}
    (hu : u ≠ INVALID_TXN_ID) {k : Bytes} (hx : lm.HoldsX u k) : lm'.HoldsX u k := by
  obtain ⟨hg, rfl⟩ := lock_eq h
  unfold HoldsX at hx ⊢
  rw [entry_grant]
  by_cases e : k = key
  · subst e
    simp only [ne_eq, not_true_eq_false, ↓reduceIte]
    cases mode with
    | SHARED => simp only; split <;> exact hx
    | EXCLUSIVE =>
      rcases (canGrant_exclusive hg (he k)).1 with h0 | h0
      · exact absurd (hx.symm.trans h0) hu
      · exact h0.symm.trans hx
  · simp only [ne_eq, e, not_false_eq_true, ↓reduceIte]
    exact hx

/-- A grant takes no lock away. -/
theorem Holds.lock (he : lm.Excl) (h : lm.lock t key mode = some lm') {u : TxnId}
    (hu : u ≠ INVALID_TXN_ID) {k : Bytes} (hh : lm.Holds u k) : lm'.Holds u k := by
  obtain ⟨hg, rfl⟩ := lock_eq h
  unfold Holds at hh ⊢
  rw [entry_grant]
  by_cases e : k = key
  · subst e
    simp only [ne_eq, not_true_eq_false, ↓reduceIte]
    cases mode with
    | SHARED =>
      simp only
      split
      · exact hh
      · exact hh.imp (fun hs => Finset.mem_insert_of_mem hs) id
    | EXCLUSIVE =>
      obtain ⟨h1, h2⟩ := canGrant_exclusive hg (he k)
      right
      rcases hh with hs | hx
      · exact (h2 u hs).symm
      · rcases h1 with h0 | h0
        · exact absurd (hx.symm.trans h0) hu
        · exact h0.symm.trans hx
  · simp only [ne_eq, e, not_false_eq_true, ↓reduceIte]
    exact hh

end Grant

/-! ## Releases -/

/-- One round of `release_all` drops the locks of `t` on its key and nothing else. -/
theorem releaseKey_getD (table : Bytes → Option LockState) (t : TxnId) (key k : Bytes) :
    (releaseKey table t key k).getD {} =
      if k = key then ((table k).getD {}).release t else (table k).getD {} := by
  have hempty : ({} : LockState).release t = {} := by
    simp [LockState.release]
  unfold releaseKey
  by_cases hk : k = key
  · subst hk
    cases htab : table k with
    | none => simp [htab, hempty]
    | some ls =>
      by_cases h : (ls.release t).sharedHolders = ∅ ∧
          (ls.release t).exclusiveHolder = INVALID_TXN_ID
      · simp only [h, and_self, ↓reduceIte, Function.update_self, Option.getD_none,
          Option.getD_some]
        obtain ⟨h1, h2⟩ := h
        cases hr : ls.release t
        rw [hr] at h1 h2
        exact congrArg₂ LockState.mk h1.symm h2.symm
      · simp only [h, ↓reduceIte, Function.update_self, Option.getD_some]
  · cases htab : table key with
    | none => simp only [hk, ↓reduceIte]
    | some ls =>
      by_cases h : (ls.release t).sharedHolders = ∅ ∧
          (ls.release t).exclusiveHolder = INVALID_TXN_ID
      · simp only [h, and_self, ↓reduceIte, Function.update_of_ne hk, hk]
      · simp only [h, ↓reduceIte, Function.update_of_ne hk, hk]

/-- `ls'` is `ls` but for locks of `t`. -/
def SameBut (t : TxnId) (ls ls' : LockState) : Prop :=
  (∀ u, u ≠ t → (u ∈ ls'.sharedHolders ↔ u ∈ ls.sharedHolders)) ∧
    ls'.sharedHolders ⊆ ls.sharedHolders ∧
    (ls'.exclusiveHolder = ls.exclusiveHolder ∨
      ls.exclusiveHolder = t ∧ ls'.exclusiveHolder = INVALID_TXN_ID)

theorem SameBut.refl (t : TxnId) (ls : LockState) : SameBut t ls ls :=
  ⟨fun _ _ => Iff.rfl, Finset.Subset.refl _, Or.inl rfl⟩

theorem SameBut.trans {t : TxnId} {l₁ l₂ l₃ : LockState} (h : SameBut t l₁ l₂)
    (h' : SameBut t l₂ l₃) : SameBut t l₁ l₃ := by
  refine ⟨fun u hu => (h'.1 u hu).trans (h.1 u hu), h'.2.1.trans h.2.1, ?_⟩
  rcases h.2.2 with e | ⟨e, e'⟩ <;> rcases h'.2.2 with d | ⟨d, d'⟩
  · exact Or.inl (d.trans e)
  · exact Or.inr ⟨e ▸ d, d'⟩
  · exact Or.inr ⟨e, d.trans e'⟩
  · exact Or.inr ⟨e, d'⟩

theorem sameBut_release (t : TxnId) (ls : LockState) : SameBut t ls (ls.release t) := by
  refine ⟨fun u hu => by simp [LockState.release, hu], Finset.erase_subset _ _, ?_⟩
  by_cases h : ls.exclusiveHolder = t
  · exact Or.inr ⟨h, by simp [LockState.release, h]⟩
  · exact Or.inl (by simp [LockState.release, h])

theorem foldl_releaseKey (t : TxnId) (k : Bytes) (keys : List Bytes)
    (table : Bytes → Option LockState) :
    SameBut t ((table k).getD {})
      (((keys.foldl (fun table key => releaseKey table t key) table) k).getD {}) := by
  induction keys generalizing table with
  | nil => exact SameBut.refl t _
  | cons key keys ih =>
    refine SameBut.trans ?_ (ih (releaseKey table t key))
    rw [releaseKey_getD]
    split
    · exact sameBut_release t _
    · exact SameBut.refl t _

theorem entry_releaseAll (lm : LockManager) (t : TxnId) (k : Bytes) :
    SameBut t (lm.entry k) ((lm.releaseAll t).entry k) := by
  unfold releaseAll
  cases lm.txnLocks t with
  | none => exact SameBut.refl t _
  | some keys => exact foldl_releaseKey t k keys lm.lockTable

theorem Excl.releaseAll {lm : LockManager} (he : lm.Excl) (t : TxnId) : (lm.releaseAll t).Excl := by
  intro k hk
  obtain ⟨-, h2, h3⟩ := entry_releaseAll lm t k
  rcases h3 with h3 | h3
  · rw [h3] at hk
    exact Finset.subset_empty.mp (he k hk ▸ h2)
  · exact absurd h3.2 hk

/-- A release leaves the others' locks alone. -/
theorem Holds.releaseAll {lm : LockManager} {t u : TxnId} {k : Bytes} (hu : u ≠ t)
    (h : lm.Holds u k) : (lm.releaseAll t).Holds u k := by
  obtain ⟨h1, -, h3⟩ := entry_releaseAll lm t k
  rcases h with h | h
  · exact Or.inl ((h1 u hu).mpr h)
  · rcases h3 with h3 | h3
    · exact Or.inr (h3.trans h)
    · exact absurd (h.symm.trans h3.1) hu

theorem HoldsX.releaseAll {lm : LockManager} {t u : TxnId} {k : Bytes} (hu : u ≠ t)
    (h : lm.HoldsX u k) : (lm.releaseAll t).HoldsX u k := by
  obtain ⟨-, -, h3⟩ := entry_releaseAll lm t k
  have h : (lm.entry k).exclusiveHolder = u := h
  rcases h3 with h3 | h3
  · exact h3.trans h
  · exact absurd (h.symm.trans h3.1) hu

end LockManager

end KeyVDB
