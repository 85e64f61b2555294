import KeyVDB.Lib.Run
import KeyVDB.Txn.LockManager

/-!
# The lock table

`LockManager::lock` as its threads run it: a request looks at its key's entry, which `operator[]`
creates if it is not there, and is granted or goes to sleep; a sleeping request looks again when it
wakes up, or times out. `Sound` ties the two tables together in every state that any
interleaving of requests and releases can reach.
-/

namespace KeyVDB

/-- A call of `lock`. -/
structure Request where
  txnId : TxnId
  key : Bytes
  mode : LockMode
  valid : txnId ≠ INVALID_TXN_ID
  deriving DecidableEq

namespace LockManager

/-- `lock_table_[key]` as a statement. -/
def touch (lm : LockManager) (key : Bytes) : LockManager :=
  { lm with lockTable := Function.update lm.lockTable key (some (lm.entry key)) }

/-- One round of the loop of `lock`, and the grant after it: whether the request was granted. -/
def look (lm : LockManager) (r : Request) : LockManager × Bool :=
  if canGrant ((lm.touch r.key).entry r.key) r.txnId r.mode then
    ((lm.touch r.key).grant r.txnId r.key r.mode, true)
  else (lm.touch r.key, false)

/-- What a request does before it throws `DeadlockException`: an empty entry goes. -/
def timedOut (lm : LockManager) (key : Bytes) : LockManager :=
  match lm.lockTable key with
  | some ls =>
    if ls.sharedHolders = ∅ ∧ ls.exclusiveHolder = INVALID_TXN_ID then
      { lm with lockTable := Function.update lm.lockTable key none }
    else lm
  | none => lm

end LockManager

/-- The lock manager and the requests that sleep in it. -/
structure LockQueue where
  lm : LockManager := {}
  waiting : List Request := []

inductive LockAction
  | request (r : Request)  -- a call of `lock`
  | wake (r : Request)  -- a sleeping request looks again
  | timeout (r : Request)  -- a sleeping request throws
  | releaseAll (t : TxnId) (valid : t ≠ INVALID_TXN_ID)

/-- One action; `none` when the request does not sleep. -/
def lockStep (s : LockQueue) : LockAction → Option LockQueue
  | .request r =>
    some { lm := (s.lm.look r).1
           waiting := if (s.lm.look r).2 then s.waiting else r :: s.waiting }
  | .wake r =>
    if r ∈ s.waiting then
      some { lm := (s.lm.look r).1
             waiting := if (s.lm.look r).2 then s.waiting.erase r else s.waiting }
    else none
  | .timeout r =>
    if r ∈ s.waiting then
      some { lm := s.lm.timedOut r.key, waiting := s.waiting.erase r }
    else none
  | .releaseAll t _ => some { s with lm := s.lm.releaseAll t }

/-- The state has a holder. -/
def LockState.Used (ls : LockState) : Prop :=
  ls.sharedHolders ≠ ∅ ∨ ls.exclusiveHolder ≠ INVALID_TXN_ID

namespace LockManager

/-- The two tables agree: no conflicting locks, the keys of a transaction's list are those it
holds, and there is no entry without a holder. -/
structure Sound (lm : LockManager) : Prop where
  excl : lm.Excl
  listed : ∀ {t k}, t ≠ INVALID_TXN_ID → (lm.Holds t k ↔ k ∈ (lm.txnLocks t).getD [])
  used : ∀ {k ls}, lm.lockTable k = some ls → ls.Used

variable {lm : LockManager} {t u : TxnId} {key k : Bytes} {mode : LockMode}

theorem Sound.init : Sound {} where
  excl := excl_init
  listed {t k} ht := by
    constructor
    · rintro (h | h)
      · exact absurd h (Finset.notMem_empty t)
      · exact absurd h.symm ht
    · exact nofun
  used h := nomatch h

/-! ## A look at an entry -/

theorem entry_touch (lm : LockManager) (key k : Bytes) : (lm.touch key).entry k = lm.entry k := by
  rw [touch, entry_update]
  split
  · next h =>
    rw [h]
    rfl
  · rfl

theorem grant_touch (lm : LockManager) (t : TxnId) (key : Bytes) (mode : LockMode) :
    (lm.touch key).grant t key mode = lm.grant t key mode := by
  have hentry := lm.entry_touch key key
  cases mode with
  | SHARED =>
    simp only [grant, hentry]
    simp only [touch, Function.update_idem]
  | EXCLUSIVE =>
    simp only [grant, hentry]
    simp only [touch, Function.update_idem]

/-- An empty entry is granted to anybody. -/
theorem canGrant_empty (t : TxnId) (mode : LockMode) : canGrant {} t mode = true := by
  cases mode <;> rfl

/-- A request that has to wait finds an entry, so `operator[]` creates none. -/
theorem touch_of_not_canGrant (h : canGrant (lm.entry key) t mode = false) :
    lm.touch key = lm := by
  cases hkey : lm.lockTable key with
  | none =>
    rw [entry, hkey, Option.getD_none, canGrant_empty] at h
    cases h
  | some ls =>
    have hentry : some (lm.entry key) = lm.lockTable key := by rw [entry, hkey, Option.getD_some]
    rw [touch, hentry, Function.update_eq_self]

/-- **A look** grants the request, or changes nothing. -/
theorem look_eq (lm : LockManager) (r : Request) :
    lm.look r = match lm.lock r.txnId r.key r.mode with
      | some lm' => (lm', true)
      | none => (lm, false) := by
  unfold look lock
  rw [entry_touch]
  cases h : canGrant (lm.entry r.key) r.txnId r.mode with
  | true => simp only [if_pos, grant_touch]
  | false =>
    simp only [Bool.false_eq_true, if_false]
    rw [touch_of_not_canGrant h]

/-! ## Grants -/

/-- A grant gives the requester the key, and nobody else anything. -/
theorem holds_grant_iff (he : lm.Excl) (hu : u ≠ INVALID_TXN_ID)
    (hg : canGrant (lm.entry key) t mode = true) :
    (lm.grant t key mode).Holds u k ↔ lm.Holds u k ∨ u = t ∧ k = key := by
  have hlock : lm.lock t key mode = some (lm.grant t key mode) := by rw [lock, if_pos hg]
  constructor
  · intro h
    unfold Holds at h
    rw [entry_grant] at h
    by_cases hk : k = key
    · subst hk
      rw [if_neg (not_not_intro rfl)] at h
      cases mode with
      | SHARED =>
        dsimp only at h
        split at h
        · exact Or.inl h
        · rcases h with h | h
          · rcases Finset.mem_insert.mp h with rfl | h
            · exact Or.inr ⟨rfl, rfl⟩
            · exact Or.inl (Or.inl h)
          · exact Or.inl (Or.inr h)
      | EXCLUSIVE =>
        rcases h with h | h
        · exact Or.inl (Or.inl (Finset.mem_of_mem_erase h))
        · exact Or.inr ⟨h.symm, rfl⟩
    · rw [if_pos hk] at h
      exact Or.inl h
  · rintro (h | ⟨rfl, rfl⟩)
    · exact h.lock he hlock hu
    · exact holds_lock hlock

theorem mem_txnLocks_grant (lm : LockManager) (t u : TxnId) (key k : Bytes) (mode : LockMode) :
    k ∈ ((lm.grant t key mode).txnLocks u).getD [] ↔ k ∈ (lm.txnLocks u).getD [] ∨
      (u = t ∧ k = key) ∧ ¬ (mode = .SHARED ∧ (lm.entry key).exclusiveHolder = t) := by
  have hpush : k ∈ (Function.update lm.txnLocks t
      (some ((lm.txnLocks t).getD [] ++ [key])) u).getD [] ↔
        k ∈ (lm.txnLocks u).getD [] ∨ u = t ∧ k = key := by
    by_cases hu : u = t
    · subst hu
      simp
    · simp [hu]
  cases mode with
  | SHARED =>
    by_cases hx : (lm.entry key).exclusiveHolder = t
    · simp [grant, hx]
    · rw [grant, if_neg hx, hpush]
      simp [hx]
  | EXCLUSIVE =>
    rw [grant, hpush]
    simp

theorem lockTable_grant (lm : LockManager) (t : TxnId) (key k : Bytes) (mode : LockMode) :
    (lm.grant t key mode).lockTable k =
      if k = key then some ((lm.grant t key mode).entry key) else lm.lockTable k := by
  by_cases hk : k = key
  · subst hk
    rw [if_pos rfl, entry_grant, if_neg (not_not_intro rfl)]
    cases mode with
    | SHARED =>
      by_cases hx : (lm.entry k).exclusiveHolder = t
      · simp [grant, hx]
      · simp [grant, hx]
    | EXCLUSIVE => simp [grant]
  · rw [if_neg hk]
    cases mode with
    | SHARED =>
      by_cases hx : (lm.entry key).exclusiveHolder = t
      · simp [grant, hx, hk]
      · simp [grant, hx, hk]
    | EXCLUSIVE => simp [grant, hk]

/-- Whoever holds a lock is a holder of its entry. -/
theorem used_of_holds (ht : t ≠ INVALID_TXN_ID) (h : lm.Holds t k) : (lm.entry k).Used := by
  rcases h with h | h
  · exact Or.inl (Finset.ne_empty_of_mem h)
  · exact Or.inr (by rw [h]; exact ht)

theorem Sound.grant (h : lm.Sound) (ht : t ≠ INVALID_TXN_ID)
    (hg : canGrant (lm.entry key) t mode = true) : (lm.grant t key mode).Sound := by
  have hlock : lm.lock t key mode = some (lm.grant t key mode) := by rw [lock, if_pos hg]
  constructor
  case excl => exact h.excl.lock hlock
  case listed =>
    intro u k hu
    rw [holds_grant_iff h.excl hu hg, mem_txnLocks_grant, ← h.listed hu]
    constructor
    · rintro (hold | ⟨rfl, rfl⟩)
      · exact Or.inl hold
      · by_cases hx : mode = .SHARED ∧ (lm.entry k).exclusiveHolder = u
        · exact Or.inl (Or.inr hx.2)
        · exact Or.inr ⟨⟨rfl, rfl⟩, hx⟩
    · rintro (hold | ⟨hnew, -⟩)
      · exact Or.inl hold
      · exact Or.inr hnew
  case used =>
    intro k ls hls
    rw [lockTable_grant] at hls
    split at hls
    · cases hls
      exact used_of_holds ht (holds_lock hlock)
    · exact h.used hls

/-! ## Releases -/

theorem release_release (ls : LockState) (t : TxnId) : (ls.release t).release t = ls.release t := by
  unfold LockState.release
  by_cases hx : ls.exclusiveHolder = t
  · simp [hx]
  · simp [hx]

/-- The loop of `release_all` drops the locks of `t` on the keys of its list. -/
theorem foldl_releaseKey_getD (t : TxnId) (k : Bytes) (keys : List Bytes)
    (table : Bytes → Option LockState) :
    ((keys.foldl (fun table key => releaseKey table t key) table) k).getD {} =
      if k ∈ keys then ((table k).getD {}).release t else (table k).getD {} := by
  induction keys generalizing table with
  | nil => rfl
  | cons key keys ih =>
    rw [List.foldl_cons, ih, releaseKey_getD]
    by_cases hk : k = key
    · subst hk
      simp only [if_pos, List.mem_cons_self, release_release, ite_self]
    · rw [if_neg hk]
      simp only [List.mem_cons, hk, false_or]

theorem entry_releaseAll_eq (lm : LockManager) (t : TxnId) (k : Bytes) :
    (lm.releaseAll t).entry k =
      if k ∈ (lm.txnLocks t).getD [] then (lm.entry k).release t else lm.entry k := by
  unfold releaseAll
  cases lm.txnLocks t with
  | none => rfl
  | some keys => exact foldl_releaseKey_getD t k keys lm.lockTable

theorem txnLocks_releaseAll (lm : LockManager) (t u : TxnId) :
    ((lm.releaseAll t).txnLocks u).getD [] = if u = t then [] else (lm.txnLocks u).getD [] := by
  unfold releaseAll
  cases hlocks : lm.txnLocks t with
  | none =>
    by_cases hu : u = t
    · subst hu
      rw [if_pos rfl, hlocks]
      rfl
    · rw [if_neg hu]
  | some keys =>
    by_cases hu : u = t
    · subst hu
      simp
    · simp [hu]

theorem used_releaseKey {table : Bytes → Option LockState}
    (h : ∀ {k ls}, table k = some ls → ls.Used) {ls : LockState}
    (hls : releaseKey table t key k = some ls) : ls.Used := by
  unfold releaseKey at hls
  cases hkey : table key with
  | none =>
    rw [hkey] at hls
    exact h hls
  | some old =>
    rw [hkey] at hls
    dsimp only at hls
    split at hls
    · rw [Function.update_apply] at hls
      split at hls
      · cases hls
      · exact h hls
    · next hne =>
      rw [Function.update_apply] at hls
      split at hls
      · cases hls
        exact not_and_or.mp hne
      · exact h hls

theorem used_foldl_releaseKey {table : Bytes → Option LockState} {keys : List Bytes}
    (h : ∀ {k ls}, table k = some ls → ls.Used) {ls : LockState}
    (hls : keys.foldl (fun table key => releaseKey table t key) table k = some ls) : ls.Used := by
  induction keys generalizing table with
  | nil => exact h hls
  | cons key keys ih => exact ih (fun h' => used_releaseKey h h') hls

/-- **`release_all`** takes the locks of `t` away, and only these. -/
theorem holds_releaseAll_iff (h : lm.Sound) (ht : t ≠ INVALID_TXN_ID) (hu : u ≠ INVALID_TXN_ID) :
    (lm.releaseAll t).Holds u k ↔ lm.Holds u k ∧ u ≠ t := by
  constructor
  · intro hold
    have hne : u ≠ t := by
      rintro rfl
      unfold Holds at hold
      rw [entry_releaseAll_eq] at hold
      split at hold
      · rcases hold with hold | hold
        · exact (Finset.mem_erase.mp hold).1 rfl
        · simp only [LockState.release] at hold
          split at hold
          · exact hu hold.symm
          · next hx => exact hx hold
      · next hk => exact hk ((h.listed hu).mp hold)
    refine ⟨?_, hne⟩
    obtain ⟨hshared, -, hx⟩ := entry_releaseAll lm t k
    rcases hold with hold | hold
    · exact Or.inl ((hshared u hne).mp hold)
    · rcases hx with hx | hx
      · exact Or.inr (hx.symm.trans hold)
      · exact absurd (hold.symm.trans hx.2) hu
  · rintro ⟨hold, hne⟩
    exact hold.releaseAll hne

theorem holdsX_releaseAll_iff (h : lm.Sound) (ht : t ≠ INVALID_TXN_ID) (hu : u ≠ INVALID_TXN_ID) :
    (lm.releaseAll t).HoldsX u k ↔ lm.HoldsX u k ∧ u ≠ t := by
  constructor
  · intro hold
    have hne := ((holds_releaseAll_iff h ht hu).mp hold.holds).2
    obtain ⟨-, -, hx⟩ := entry_releaseAll lm t k
    have hold : ((lm.releaseAll t).entry k).exclusiveHolder = u := hold
    rcases hx with hx | hx
    · exact ⟨hx.symm.trans hold, hne⟩
    · exact absurd (hold.symm.trans hx.2) hu
  · rintro ⟨hold, hne⟩
    exact hold.releaseAll hne

theorem Sound.releaseAll (h : lm.Sound) (ht : t ≠ INVALID_TXN_ID) : (lm.releaseAll t).Sound := by
  constructor
  case excl => exact h.excl.releaseAll t
  case listed =>
    intro u k hu
    rw [holds_releaseAll_iff h ht hu, txnLocks_releaseAll, h.listed hu]
    by_cases hut : u = t
    · simp [hut]
    · simp [hut]
  case used =>
    intro k ls hls
    unfold LockManager.releaseAll at hls
    cases hlocks : lm.txnLocks t with
    | none =>
      rw [hlocks] at hls
      exact h.used hls
    | some keys =>
      rw [hlocks] at hls
      exact used_foldl_releaseKey (fun h' => h.used h') hls

/-! ## Timeouts -/

/-- A request that times out finds no empty entry. -/
theorem Sound.timedOut (h : lm.Sound) (key : Bytes) : lm.timedOut key = lm := by
  unfold LockManager.timedOut
  split
  · next ls hls =>
    rw [if_neg fun hempty => ?_]
    rcases h.used hls with hs | hx
    · exact hs hempty.1
    · exact hx hempty.2
  · rfl

end LockManager

/-! ## Whole runs -/

theorem LockManager.Sound.look {lm : LockManager} (h : lm.Sound) (r : Request) :
    (lm.look r).1.Sound := by
  rw [look_eq]
  cases hlock : lm.lock r.txnId r.key r.mode with
  | none => exact h
  | some lm' =>
    obtain ⟨hg, rfl⟩ := LockManager.lock_eq hlock
    exact h.grant r.valid hg

theorem LockManager.Sound.lockStep {s s' : LockQueue} {a : LockAction} (h : s.lm.Sound)
    (hs : lockStep s a = some s') : s'.lm.Sound := by
  cases a with
  | request r =>
    cases hs
    exact h.look r
  | wake r =>
    simp only [KeyVDB.lockStep] at hs
    split at hs
    · cases hs
      exact h.look r
    · cases hs
  | timeout r =>
    simp only [KeyVDB.lockStep] at hs
    split at hs
    · cases hs
      rw [h.timedOut]
      exact h
    · cases hs
  | releaseAll t ht =>
    cases hs
    exact h.releaseAll ht

/-- The requester has at least the mode it asked for. -/
def LockManager.Grants (lm : LockManager) (r : Request) : Prop :=
  match r.mode with
  | .SHARED => lm.Holds r.txnId r.key
  | .EXCLUSIVE => lm.HoldsX r.txnId r.key

theorem LockManager.grants_look {lm : LockManager} {r : Request} (h : (lm.look r).2 = true) :
    (lm.look r).1.Grants r := by
  rw [look_eq] at h ⊢
  cases hlock : lm.lock r.txnId r.key r.mode with
  | none =>
    rw [hlock] at h
    cases h
  | some lm' =>
    unfold Grants
    cases hmode : r.mode with
    | SHARED => exact holds_lock hlock
    | EXCLUSIVE =>
      rw [hmode] at hlock
      exact holdsX_lock hlock

/-- **The lock table** in every state that requests, timeouts and releases can reach, and what a
look, a timeout and a release do there. -/
theorem lockTable_along (as : List LockAction) {s : LockQueue} (h : run lockStep {} as = some s) :
    s.lm.Sound ∧
    (∀ r, ((s.lm.look r).2 = true → (s.lm.look r).1.Grants r) ∧
      ((s.lm.look r).2 = false → (s.lm.look r).1 = s.lm)) ∧
    (∀ r s', lockStep s (.timeout r) = some s' → s'.lm = s.lm) ∧
    ∀ t u k, t ≠ INVALID_TXN_ID → u ≠ INVALID_TXN_ID →
      ((s.lm.releaseAll t).Holds u k ↔ s.lm.Holds u k ∧ u ≠ t) ∧
      ((s.lm.releaseAll t).HoldsX u k ↔ s.lm.HoldsX u k ∧ u ≠ t) := by
  have hsound : s.lm.Sound := by
    have hstep : ∀ s a s', s.lm.Sound → True → lockStep s a = some s' → s'.lm.Sound :=
      fun s a s' hs _ hstep => hs.lockStep hstep
    exact run_inv hstep LockManager.Sound.init (steps_of_forall (fun _ _ => trivial) _ _) h
  refine ⟨hsound, ?_, ?_, ?_⟩
  · intro r
    refine ⟨LockManager.grants_look, fun hwait => ?_⟩
    rw [LockManager.look_eq] at hwait ⊢
    cases hlock : s.lm.lock r.txnId r.key r.mode with
    | none => rfl
    | some lm' =>
      rw [hlock] at hwait
      cases hwait
  · intro r s' hs
    simp only [lockStep] at hs
    split at hs
    · cases hs
      exact hsound.timedOut r.key
    · cases hs
  · intro t u k ht hu
    exact ⟨LockManager.holds_releaseAll_iff hsound ht hu,
      LockManager.holdsX_releaseAll_iff hsound ht hu⟩

/-- Two readers that both want to write: one times out and is rolled back, the other one wakes up
and gets its lock. -/
theorem lockTable_along_upgrade :
    let read (t : TxnId) (ht : t ≠ INVALID_TXN_ID) : Request := ⟨t, [97], .SHARED, ht⟩
    let write (t : TxnId) (ht : t ≠ INVALID_TXN_ID) : Request := ⟨t, [97], .EXCLUSIVE, ht⟩
    ∃ s, run lockStep {} [.request (read 1 (by decide)), .request (read 2 (by decide)),
        .request (write 1 (by decide)), .request (write 2 (by decide)),
        .timeout (write 2 (by decide)), .releaseAll 2 (by decide), .wake (write 1 (by decide))] =
      some s ∧ s.waiting = [] ∧ s.lm.Sound := by
  intro read write
  have hrun : ((run lockStep {} [.request (read 1 (by decide)), .request (read 2 (by decide)),
      .request (write 1 (by decide)), .request (write 2 (by decide)),
      .timeout (write 2 (by decide)), .releaseAll 2 (by decide),
      .wake (write 1 (by decide))]).map LockQueue.waiting) = some [] := by decide
  obtain ⟨s, hs, hwaiting⟩ := Option.map_eq_some_iff.mp hrun
  exact ⟨s, hs, hwaiting, (lockTable_along _ hs).1⟩

end KeyVDB
