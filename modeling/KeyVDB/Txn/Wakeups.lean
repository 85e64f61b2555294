import KeyVDB.Lib.Monitor
import KeyVDB.Txn.LockTable

/-!
# The condition variable of the lock manager

All requests that wait sleep on one `cv_`, and only `release_all` notifies it, when the transaction
has a list of keys. A grant notifies nobody, and neither does a timeout. `cvStep` is `lockStep`
with a flag beside every sleeping request, which says whether it was notified since it last looked
at its key.

`no_lost_wakeup`: a request that sleeps and was not notified could not be granted, because some
other transaction holds a lock that conflicts with it. So a transaction that no notification
reaches waits, directly or through others, for one that can go on, or for a cycle of transactions
that wait for each other, which only a timeout ends.
-/

namespace KeyVDB

open Relation

abbrev LockMonitor := Monitor LockManager Request

inductive CvAction
  | request (r : Request)
  | wake (w : Waiter Request)  -- also without a notification
  | timeout (w : Waiter Request)
  | releaseAll (t : TxnId) (valid : t ≠ INVALID_TXN_ID)

/-- The action without its flag. -/
def CvAction.plain : CvAction → LockAction
  | .request r => .request r
  | .wake w => .wake w.request
  | .timeout w => .timeout w.request
  | .releaseAll t valid => .releaseAll t valid

namespace LockMonitor

/-- A round of the loop of `lock`: the request is granted, or sleeps. -/
def look (s : LockMonitor) (r : Request) : LockMonitor :=
  let next : LockMonitor := { s with state := (s.state.look r).1 }
  if (s.state.look r).2 then next else next.sleep r

/-- `release_all`, which returns early when there is nothing to release. -/
def releaseAll (s : LockMonitor) (t : TxnId) : LockMonitor :=
  match s.state.txnLocks t with
  | none => s
  | some _ => Monitor.notifyAll { s with state := s.state.releaseAll t }

end LockMonitor

/-- One action; `none` when the request does not sleep. -/
def cvStep (s : LockMonitor) : CvAction → Option LockMonitor
  | .request r => some (LockMonitor.look s r)
  | .wake w => if w ∈ s.waiting then some (LockMonitor.look (s.leave w) w.request) else none
  | .timeout w =>
    if w ∈ s.waiting then some { s.leave w with state := s.state.timedOut w.request.key } else none
  | .releaseAll t _ => some (LockMonitor.releaseAll s t)

/-! ## Who blocks a request -/

namespace LockManager

/-- `u` holds a lock that conflicts with the request. -/
def Blocks (lm : LockManager) (u : TxnId) (r : Request) : Prop :=
  u ≠ INVALID_TXN_ID ∧ u ≠ r.txnId ∧
    match r.mode with
    | .SHARED => lm.HoldsX u r.key
    | .EXCLUSIVE => lm.Holds u r.key

/-- Some transaction blocks the request. -/
def Blocked (lm : LockManager) (r : Request) : Prop := ∃ u, lm.Blocks u r

/-- The tables are sound, and nobody holds a lock under the invalid id. -/
structure Named (lm : LockManager) : Prop where
  sound : lm.Sound
  valid : ∀ k, INVALID_TXN_ID ∉ (lm.entry k).sharedHolders

variable {lm : LockManager} {t u : TxnId} {r q : Request}

theorem Named.init : Named {} where
  sound := Sound.init
  valid _ := Finset.notMem_empty _

theorem Named.look (h : lm.Named) (r : Request) : (lm.look r).1.Named := by
  constructor
  case sound => exact h.sound.look r
  case valid =>
    intro k
    rw [look_eq]
    cases hlock : lm.lock r.txnId r.key r.mode with
    | none => exact h.valid k
    | some lm' =>
      obtain ⟨-, rfl⟩ := lock_eq hlock
      dsimp only
      rw [entry_grant]
      by_cases hk : k = r.key
      · subst hk
        rw [if_neg (not_not_intro rfl)]
        cases r.mode with
        | SHARED =>
          dsimp only
          split
          · exact h.valid r.key
          · intro hmem
            rcases Finset.mem_insert.mp hmem with heq | hmem
            · exact r.valid heq.symm
            · exact h.valid r.key hmem
        | EXCLUSIVE => exact fun hmem => h.valid r.key (Finset.mem_of_mem_erase hmem)
      · rw [if_pos hk]
        exact h.valid k

theorem Named.releaseAll (h : lm.Named) (ht : t ≠ INVALID_TXN_ID) : (lm.releaseAll t).Named := by
  constructor
  case sound => exact h.sound.releaseAll ht
  case valid =>
    intro k hmem
    exact h.valid k ((entry_releaseAll lm t k).2.1 hmem)

/-- **A request has to wait** exactly when somebody else holds a conflicting lock. -/
theorem Named.blocked_iff (h : lm.Named) (r : Request) :
    lm.Blocked r ↔ (lm.look r).2 = false := by
  have hlook : (lm.look r).2 = canGrant (lm.entry r.key) r.txnId r.mode := by
    rw [LockManager.look, entry_touch]
    split
    · next hg => exact hg.symm
    · next hg => exact (Bool.eq_false_of_not_eq_true hg).symm
  rw [hlook]
  constructor
  · rintro ⟨u, hu, hne, hheld⟩
    by_contra hg
    have hg := Bool.eq_true_of_not_eq_false hg
    cases hmode : r.mode with
    | SHARED =>
      rw [hmode] at hheld hg
      have hheld : (lm.entry r.key).exclusiveHolder = u := hheld
      rcases canGrant_shared hg with h0 | h0
      · exact hu (hheld.symm.trans h0)
      · exact hne (hheld.symm.trans h0)
    | EXCLUSIVE =>
      rw [hmode] at hheld hg
      obtain ⟨hx, hs⟩ := canGrant_exclusive hg (h.sound.excl r.key)
      rcases hheld with hheld | hheld
      · exact hne (hs u hheld)
      · rcases hx with h0 | h0
        · exact hu (hheld.symm.trans h0)
        · exact hne (hheld.symm.trans h0)
  · intro hg
    unfold canGrant at hg
    cases hmode : r.mode with
    | SHARED =>
      rw [hmode] at hg
      dsimp only at hg
      split at hg
      · cases hg
      · next hx =>
        refine ⟨_, hx, of_decide_eq_false hg, ?_⟩
        rw [hmode]
        exact rfl
    | EXCLUSIVE =>
      rw [hmode] at hg
      dsimp only at hg
      split at hg
      · next hx =>
        refine ⟨_, hx, of_decide_eq_false hg, ?_⟩
        rw [hmode]
        exact Or.inr rfl
      split at hg
      · cases hg
      split at hg
      · cases hg
      next hne halone =>
      -- some reader is not the requester
      have hother : ∃ u ∈ (lm.entry r.key).sharedHolders, u ≠ r.txnId := by
        by_contra hall
        push Not at hall
        obtain ⟨v, hv⟩ := Finset.nonempty_iff_ne_empty.mpr hne
        have hsingle : (lm.entry r.key).sharedHolders = {r.txnId} :=
          Finset.eq_singleton_iff_unique_mem.mpr ⟨hall v hv ▸ hv, hall⟩
        exact halone ⟨by rw [hsingle, Finset.card_singleton], hall v hv ▸ hv⟩
      obtain ⟨u, hu, hur⟩ := hother
      refine ⟨u, fun h0 => h.valid r.key (h0 ▸ hu), hur, ?_⟩
      rw [hmode]
      exact Or.inl hu

/-- Nobody stops blocking a request when another one is granted. -/
theorem Blocked.look (h : lm.Named) (hq : lm.Blocked q) (r : Request) :
    (lm.look r).1.Blocked q := by
  rw [look_eq]
  cases hlock : lm.lock r.txnId r.key r.mode with
  | none => exact hq
  | some lm' =>
    obtain ⟨u, hu, hne, hheld⟩ := hq
    refine ⟨u, hu, hne, ?_⟩
    cases hmode : q.mode with
    | SHARED =>
      rw [hmode] at hheld
      exact hheld.lock h.sound.excl hlock hu
    | EXCLUSIVE =>
      rw [hmode] at hheld
      exact hheld.lock h.sound.excl hlock hu

end LockManager

/-! ## Wakeups -/

namespace LockMonitor

/-- What holds between two actions. -/
structure Inv (s : LockMonitor) : Prop where
  named : s.state.Named
  noLost : s.NoLost LockManager.Blocked

variable {s s' : LockMonitor}

theorem Inv.init : Inv { state := {} } where
  named := LockManager.Named.init
  noLost := nofun

theorem Inv.leave (h : s.Inv) (w : Waiter Request) : Inv (s.leave w) where
  named := h.named
  noLost := h.noLost.leave w

theorem Inv.look (h : s.Inv) (r : Request) : Inv (s.look r) := by
  have hnext : Monitor.NoLost LockManager.Blocked { s with state := (s.state.look r).1 } :=
    h.noLost.change fun _ _ hq => hq.look h.named r
  unfold LockMonitor.look
  dsimp only
  split
  · exact ⟨h.named.look r, hnext⟩
  · next hwait =>
    have hr : s.state.Blocked r :=
      (h.named.blocked_iff r).mpr (Bool.eq_false_of_not_eq_true hwait)
    exact ⟨h.named.look r, hnext.sleep (hr.look h.named r)⟩

theorem Inv.releaseAll (h : s.Inv) {t : TxnId} (ht : t ≠ INVALID_TXN_ID) :
    Inv (s.releaseAll t) := by
  unfold LockMonitor.releaseAll
  split
  · exact h
  · exact ⟨h.named.releaseAll ht, Monitor.NoLost.notifyAll _ _⟩

theorem Inv.cvStep {a : CvAction} (h : s.Inv) (hs : cvStep s a = some s') : s'.Inv := by
  cases a with
  | request r =>
    cases hs
    exact h.look r
  | wake w =>
    simp only [KeyVDB.cvStep] at hs
    split at hs
    · cases hs
      exact (h.leave w).look w.request
    · cases hs
  | timeout w =>
    simp only [KeyVDB.cvStep] at hs
    split at hs
    · cases hs
      rw [h.named.sound.timedOut]
      exact h.leave w
    · cases hs
  | releaseAll t ht =>
    cases hs
    exact h.releaseAll ht

theorem inv_of_run {as : List CvAction} (h : run KeyVDB.cvStep { state := {} } as = some s) :
    s.Inv := by
  have hstep : ∀ s a s', Inv s → True → KeyVDB.cvStep s a = some s' → s'.Inv :=
    fun s a s' hs _ hstep => hs.cvStep hstep
  exact run_inv hstep Inv.init (steps_of_forall (fun _ _ => trivial) _ _) h

/-! ## Without the flags -/

/-- The same tables, and the same requests asleep. -/
def Plain (s : LockMonitor) (q : LockQueue) : Prop :=
  q.lm = s.state ∧ q.waiting.Perm (s.waiting.map Waiter.request)

theorem Plain.look {q : LockQueue} (h : Plain s q) (r : Request) :
    Plain (LockMonitor.look s r)
      { lm := (q.lm.look r).1
        waiting := if (q.lm.look r).2 then q.waiting else r :: q.waiting } := by
  obtain ⟨hlm, hwaiting⟩ := h
  unfold LockMonitor.look
  rw [hlm]
  dsimp only
  split
  · exact ⟨rfl, hwaiting⟩
  · exact ⟨rfl, hwaiting.cons r⟩

theorem perm_erase {l : List (Waiter Request)} {q : List Request} {w : Waiter Request}
    (h : q.Perm (l.map Waiter.request)) (hw : w ∈ l) :
    (q.erase w.request).Perm ((l.erase w).map Waiter.request) := by
  have hl : (l.map Waiter.request).Perm (w.request :: (l.erase w).map Waiter.request) :=
    (List.perm_cons_erase hw).map Waiter.request
  have hq := (h.trans hl).erase w.request
  rwa [List.erase_cons_head] at hq

theorem Plain.cvStep {q : LockQueue} {a : CvAction} (h : Plain s q)
    (hs : cvStep s a = some s') : ∃ q', lockStep q a.plain = some q' ∧ Plain s' q' := by
  obtain ⟨hlm, hwaiting⟩ := h
  cases a with
  | request r =>
    cases hs
    exact ⟨_, rfl, Plain.look ⟨hlm, hwaiting⟩ r⟩
  | wake w =>
    simp only [KeyVDB.cvStep] at hs
    split at hs
    · next hw =>
      cases hs
      have hmem : w.request ∈ q.waiting := hwaiting.mem_iff.mpr (List.mem_map_of_mem hw)
      have hplain : Plain (s.leave w) { q with waiting := q.waiting.erase w.request } :=
        ⟨hlm, perm_erase hwaiting hw⟩
      simp only [CvAction.plain, lockStep, if_pos hmem, Option.some.injEq, exists_eq_left']
      obtain ⟨hlook, hleft⟩ := hplain.look w.request
      refine ⟨hlook, List.Perm.trans ?_ hleft⟩
      dsimp only
      split
      · exact List.Perm.refl _
      · exact List.perm_cons_erase hmem
    · cases hs
  | timeout w =>
    simp only [KeyVDB.cvStep] at hs
    split at hs
    · next hw =>
      cases hs
      have hmem : w.request ∈ q.waiting := hwaiting.mem_iff.mpr (List.mem_map_of_mem hw)
      simp only [CvAction.plain, lockStep, if_pos hmem, Option.some.injEq, exists_eq_left']
      exact ⟨by rw [hlm], perm_erase hwaiting hw⟩
    · cases hs
  | releaseAll t ht =>
    cases hs
    refine ⟨_, rfl, ?_⟩
    unfold LockMonitor.releaseAll
    split
    · next hnone =>
      have hsame : s.state.releaseAll t = s.state := by rw [LockManager.releaseAll, hnone]
      exact ⟨by rw [hlm, hsame], hwaiting⟩
    · refine ⟨by rw [hlm]; rfl, ?_⟩
      have hrequests : (s.waiting.map fun w => { w with notified := true }).map Waiter.request =
          s.waiting.map Waiter.request := by
        rw [List.map_map]
        rfl
      exact hwaiting.trans (List.Perm.of_eq hrequests.symm)

/-- **The flags change nothing**: without them a run is a run of the lock table. -/
theorem plain_of_run {as : List CvAction} {q : LockQueue} (h : Plain s q)
    (hrun : run KeyVDB.cvStep s as = some s') :
    ∃ q', run lockStep q (as.map CvAction.plain) = some q' ∧ Plain s' q' := by
  induction as generalizing s q with
  | nil =>
    cases hrun
    exact ⟨q, rfl, h⟩
  | cons a as ih =>
    obtain ⟨t, ht, hrun⟩ := run_cons hrun
    obtain ⟨q', hq', hplain⟩ := h.cvStep ht
    obtain ⟨q'', hq'', hplain⟩ := ih hplain hrun
    refine ⟨q'', ?_, hplain⟩
    simp only [List.map_cons, run, hq', Option.bind_some, hq'']

/-! ## Who waits for whom -/

/-- `t` sleeps and was not notified. -/
def Asleep (s : LockMonitor) (t : TxnId) : Prop :=
  ∃ w ∈ s.waiting, w.notified = false ∧ w.request.txnId = t

/-- `t` sleeps, was not notified, and `u` holds what it waits for. -/
def WaitsFor (s : LockMonitor) (t u : TxnId) : Prop :=
  ∃ w ∈ s.waiting, w.notified = false ∧ w.request.txnId = t ∧ s.state.Blocks u w.request

/-- The transactions that sleep. -/
def sleepers (s : LockMonitor) : Finset TxnId :=
  ((s.waiting.filter fun w => !w.notified).map fun w => w.request.txnId).toFinset

theorem mem_sleepers {t : TxnId} : t ∈ s.sleepers ↔ s.Asleep t := by
  simp [sleepers, Asleep, and_assoc]

theorem Inv.waitsFor (h : s.Inv) {t : TxnId} (ht : s.Asleep t) : ∃ u, s.WaitsFor t u := by
  obtain ⟨w, hw, hn, hwt⟩ := ht
  obtain ⟨u, hu⟩ := h.noLost w hw hn
  exact ⟨u, w, hw, hn, hwt, hu⟩

/-- A release by whoever blocks a request notifies everybody. -/
theorem Inv.notified_releaseAll (h : s.Inv) {t u : TxnId} (hwait : s.WaitsFor t u)
    {w : Waiter Request} (hw : w ∈ (LockMonitor.releaseAll s u).waiting) : w.notified = true := by
  obtain ⟨v, -, -, -, hu, -, hheld⟩ := hwait
  have hholds : s.state.Holds u v.request.key := by
    cases hmode : v.request.mode with
    | SHARED =>
      rw [hmode] at hheld
      exact LockManager.HoldsX.holds hheld
    | EXCLUSIVE =>
      rw [hmode] at hheld
      exact hheld
  have hlisted := (h.named.sound.listed hu).mp hholds
  unfold LockMonitor.releaseAll at hw
  split at hw
  · next hnone =>
    rw [hnone] at hlisted
    cases hlisted
  · obtain ⟨v', -, rfl⟩ := List.mem_map.mp hw
    rfl

end LockMonitor

/-- **No lost wakeups**, in every state that requests, wakeups, timeouts and releases can reach.
A request that sleeps and was not notified would not be granted; a release by whoever blocks it
notifies it; and its transaction waits for one that is not asleep, or for a cycle. -/
theorem no_lost_wakeup (as : List CvAction) {s : LockMonitor}
    (h : run cvStep { state := {} } as = some s) :
    (∃ q, run lockStep {} (as.map CvAction.plain) = some q ∧ s.Plain q) ∧
    (∀ w ∈ s.waiting, w.notified = false →
      (s.state.look w.request).2 = false ∧ s.state.Blocked w.request) ∧
    (∀ t u, s.WaitsFor t u → ∀ w ∈ (LockMonitor.releaseAll s u).waiting, w.notified = true) ∧
    ∀ t, s.Asleep t → ∃ u, TransGen s.WaitsFor t u ∧
      (¬ s.Asleep u ∨ TransGen s.WaitsFor u u) := by
  have hinv : s.Inv := LockMonitor.inv_of_run h
  refine ⟨?_, ?_, ?_, ?_⟩
  · have hplain : LockMonitor.Plain { state := {} } {} := ⟨rfl, List.Perm.refl _⟩
    exact LockMonitor.plain_of_run hplain h
  · intro w hw hn
    have hblocked := hinv.noLost w hw hn
    exact ⟨(hinv.named.blocked_iff w.request).mp hblocked, hblocked⟩
  · intro t u hwait w hw
    exact hinv.notified_releaseAll hwait hw
  · intro t ht
    have hwaits : ∀ t ∈ s.sleepers, ∃ u, s.WaitsFor t u :=
      fun t ht => hinv.waitsFor (LockMonitor.mem_sleepers.mp ht)
    obtain ⟨u, hu, hout⟩ := exists_unblocked_or_cycle hwaits (LockMonitor.mem_sleepers.mpr ht)
    exact ⟨u, hu, hout.imp_left (mt LockMonitor.mem_sleepers.mpr)⟩

/-- Two writers that each want the key of the other: both sleep, and wait in a cycle. -/
theorem no_lost_wakeup_cycle :
    let write (t : TxnId) (key : Bytes) (ht : t ≠ INVALID_TXN_ID) : Request :=
      ⟨t, key, .EXCLUSIVE, ht⟩
    ∃ s, run cvStep { state := {} } [.request (write 1 [97] (by decide)),
        .request (write 2 [98] (by decide)), .request (write 1 [98] (by decide)),
        .request (write 2 [97] (by decide))] = some s ∧
      s.waiting.length = 2 ∧ ∀ w ∈ s.waiting, (s.state.look w.request).2 = false := by
  intro write
  have hrun : (run cvStep { state := {} } [.request (write 1 [97] (by decide)),
      .request (write 2 [98] (by decide)), .request (write 1 [98] (by decide)),
      .request (write 2 [97] (by decide))]).map (fun s => s.waiting) =
        some [⟨write 2 [97] (by decide), false⟩, ⟨write 1 [98] (by decide), false⟩] := by decide
  obtain ⟨s, hs, hwaiting⟩ := Option.map_eq_some_iff.mp hrun
  refine ⟨s, hs, by rw [hwaiting]; rfl, ?_⟩
  intro w hw
  have hn : w.notified = false := by
    rw [hwaiting] at hw
    rcases List.mem_cons.mp hw with rfl | hw
    · rfl
    · rcases List.mem_cons.mp hw with rfl | hw
      · rfl
      · cases hw
  exact ((no_lost_wakeup _ hs).2.1 w hw hn).1

end KeyVDB
