import KeyVDB.Txn.LockTable
import KeyVDB.Txn.Isolation

/-!
# Failures inside `Commit` and `Rollback`

Every step of the two calls that reaches a file can throw. `done_` is set before the first of them
and the destructor does nothing once it is set, so a transaction whose `Commit` or `Rollback` threw
is never released: `Stage.failed` is the end for it. `endsClean_along_iff` says for which runs an ended
transaction holds no lock all the same.
-/

namespace KeyVDB

/-! ## The failures -/

/-- The step of `Commit` or `Rollback` that throws, with what it has done by then. -/
inductive Fault
  | appendCommit (n : Nat)  -- `n` bytes of the COMMIT record have reached the log
  | walFsync
  | pageWrite (keys : List Bytes)  -- `flush_all` has written the pages of these keys
  | dataFsync
  | undo (order : List Bytes) (n : Nat)  -- `undo_all` has undone the first `n` keys
  | appendAbort (n : Nat)
  deriving DecidableEq

/-- `append_record_locked` throws after `n` bytes of the record. -/
def LogManager.appendFails (lm : LogManager) (rec : WalRecord) (n : Nat) : LogManager :=
  { lm with nextLsn := lm.nextLsn + 1
            file := lm.file ++ ({ rec with lsn := lm.nextLsn } : WalRecord).toBytes.take n }

/-- The next step of `Commit` or `Rollback` throws, out of the call and into a handler that destroys
the transaction. -/
def Sys.fault (s : Sys) (t : TxnId) : Fault → Option Sys
  | .appendCommit n => s.when t .idle fun ws =>
    if n < WalRecordHeader.SIZE then
      some ({ s with wal := s.wal.appendFails { txnId := t, type := .COMMIT } n }.setTxn t .failed ws)
    else none
  | .walFsync => s.when t .committing fun ws => some (s.setTxn t .failed ws)
  | .pageWrite keys => s.when t .synced fun ws =>
    some ({ s with disk := keys.foldl (fun d k => d.writeOut s.tree k) s.disk }.setTxn t .failed ws)
  | .dataFsync => s.when t .synced fun ws => some ({ s with disk := s.tree }.setTxn t .failed ws)
  | .undo order n => s.when t .idle fun ws =>
    if order.Nodup ∧ order.toFinset = ws.keys ∧ n < order.length then
      match undoAll ws (order.take n) s.tree with
      | .ok tree => some ({ s with tree }.setTxn t .failed ws)
      | .error _ => none
    else none
  | .appendAbort n => s.when t .undone fun ws =>
    if n < WalRecordHeader.SIZE then
      some ({ s with wal := s.wal.appendFails { txnId := t, type := .ABORT } n }.setTxn t .failed ws)
    else none

/-- The system, and the transactions whose `Commit` threw before the COMMIT record was appended. -/
structure Faulty where
  sys : Sys
  unlogged : TxnId → Bool := fun _ => false

def Faulty.opened (m : KV) : Faulty := { sys := .opened m }

inductive FaultyAction
  | step (a : Action)
  | fault (t : TxnId) (f : Fault)
  deriving DecidableEq

def Fault.unlogged : Fault → Bool
  | .appendCommit _ => true
  | _ => false

def faultyStep (s : Faulty) : FaultyAction → Option Faulty
  | .step a => (step s.sys a).map fun sys => { s with sys }
  | .fault t f => (s.sys.fault t f).map fun sys =>
    { sys, unlogged := if f.unlogged then Function.update s.unlogged t true else s.unlogged }

/-- `Commit` or `Rollback` has returned or thrown. -/
def Stage.Ended : Stage → Prop
  | committed => True
  | rolledBack => True
  | failed => True
  | _ => False

/-- Ended transactions hold no lock, and one whose `Commit` threw before the COMMIT record was
appended has its writes undone. -/
structure EndsClean (s : Faulty) : Prop where
  locks : ∀ t tx, s.sys.txns t = some tx → tx.stage.Ended → ∀ k, ¬ s.sys.locks.Holds t k
  undone : ∀ t tx, s.sys.txns t = some tx → s.unlogged t = true → ∀ k e,
    tx.writeSet.lookup k = some e → s.sys.tree.get k = e.before

/-- A step throws only for a transaction that holds no lock. -/
def LocklessFault (s : Faulty) : FaultyAction → Prop
  | .step _ => True
  | .fault t f => (s.sys.fault t f).isSome → ∀ k, ¬ s.sys.locks.Holds t k

/-! ## The invariant -/

/-- What every run keeps as long as only transactions without locks fail. -/
structure Kept (s : Faulty) : Prop where
  sound : s.sys.locks.Sound
  next_pos : 1 ≤ s.sys.wal.nextTxnId.toInt
  ids : ∀ {t tx}, s.sys.txns t = some tx → 1 ≤ t.toInt ∧ t.toInt < s.sys.wal.nextTxnId.toInt
  locked : ∀ {t op ws}, s.sys.At t (.locked op) ws → op.mode = .EXCLUSIVE →
    s.sys.locks.HoldsX t op.key
  holdsX : ∀ {t tx}, s.sys.txns t = some tx → tx.stage.Holding → ∀ k ∈ tx.writeSet,
    s.sys.locks.HoldsX t k
  fits : ∀ {t tx}, s.sys.txns t = some tx → ∀ k e v, tx.writeSet.lookup k = some e →
    e.before = some v → Fits k v
  ended : ∀ {t tx}, s.sys.txns t = some tx → tx.stage.Ended → ∀ k, ¬ s.sys.locks.Holds t k
  unlogged : ∀ {t}, s.unlogged t = true → ∃ tx, s.sys.txns t = some tx ∧ tx.stage = .failed

namespace Kept

variable {s s' : Faulty}

theorem opened (m : KV) : Kept (.opened m) where
  sound := .init
  next_pos := le_refl (1 : Int)
  ids := nofun
  locked := nofun
  holdsX := nofun
  fits := nofun
  ended := nofun
  unlogged := nofun

theorem ne_invalid (h : Kept s) {t : TxnId} {tx : Transaction} (ht : s.sys.txns t = some tx) :
    t ≠ INVALID_TXN_ID := by
  rintro rfl
  have hpos := (h.ids ht).1
  simp [INVALID_TXN_ID] at hpos

/-- A transaction without locks wrote nothing, so there is nothing to undo. -/
theorem endsClean (h : Kept s) : EndsClean s where
  locks _ _ := h.ended
  undone t tx htx hun k e he := by
    obtain ⟨tx', htx', hfailed⟩ := h.unlogged hun
    rw [htx] at htx'
    cases htx'
    have hmem : k ∈ tx.writeSet := Finmap.lookup_isSome.mp (by rw [he]; rfl)
    have hX := h.holdsX htx (by rw [hfailed]; trivial) k hmem
    exact (h.ended htx (by rw [hfailed]; trivial) k hX.holds).elim

/-- One transaction moves on. -/
theorem move (h : Kept s) {s₁ : Sys} {t : TxnId} {st st' : Stage} {ws ws' : WriteSet}
    {unlogged : TxnId → Bool} (hat : s.sys.At t st ws) (htxns : s₁.txns = s.sys.txns)
    (hnext : s₁.wal.nextTxnId = s.sys.wal.nextTxnId) (hsound : s₁.locks.Sound)
    (hkeep : ∀ u, u ≠ t → u ≠ INVALID_TXN_ID → ∀ k,
      (s.sys.locks.HoldsX u k → s₁.locks.HoldsX u k) ∧ (s₁.locks.Holds u k → s.sys.locks.Holds u k))
    (hlocked : ∀ op, st' = .locked op → op.mode = .EXCLUSIVE → s₁.locks.HoldsX t op.key)
    (hholdsX : st'.Holding → ∀ k ∈ ws', s₁.locks.HoldsX t k)
    (hfits : ∀ k e v, ws'.lookup k = some e → e.before = some v → Fits k v)
    (hended : st'.Ended → ∀ k, ¬ s₁.locks.Holds t k)
    (hun : ∀ u, unlogged u = true → u = t ∧ st' = .failed ∨ u ≠ t ∧ s.unlogged u = true) :
    Kept { sys := s₁.setTxn t st' ws', unlogged } where
  sound := hsound
  next_pos := by
    change 1 ≤ s₁.wal.nextTxnId.toInt
    rw [hnext]
    exact h.next_pos
  ids {u tx} hu := by
    change _ ∧ u.toInt < s₁.wal.nextTxnId.toInt
    rw [hnext]
    rcases Sys.setTxn_cases hu with ⟨rfl, -⟩ | ⟨-, hu⟩
    · exact h.ids hat
    · exact h.ids (htxns ▸ hu)
  locked {u op ws₁} hu hmode := by
    rcases Sys.setTxn_cases hu with ⟨rfl, e⟩ | ⟨hne, hu⟩
    · cases e
      exact hlocked op rfl hmode
    · rw [htxns] at hu
      exact (hkeep u hne (h.ne_invalid hu) _).1 (h.locked hu hmode)
  holdsX {u tx} hu hhold k hk := by
    rcases Sys.setTxn_cases hu with ⟨rfl, rfl⟩ | ⟨hne, hu⟩
    · exact hholdsX hhold k hk
    · rw [htxns] at hu
      exact (hkeep u hne (h.ne_invalid hu) k).1 (h.holdsX hu hhold k hk)
  fits {u tx} hu := by
    rcases Sys.setTxn_cases hu with ⟨rfl, rfl⟩ | ⟨-, hu⟩
    · exact hfits
    · exact h.fits (htxns ▸ hu)
  ended {u tx} hu hend k hholds := by
    rcases Sys.setTxn_cases hu with ⟨rfl, rfl⟩ | ⟨hne, hu⟩
    · exact hended hend k hholds
    · rw [htxns] at hu
      exact h.ended hu hend k ((hkeep u hne (h.ne_invalid hu) k).2 hholds)
  unlogged {u} hu := by
    rcases hun u hu with ⟨rfl, rfl⟩ | ⟨hne, hu⟩
    · exact ⟨_, by rw [Sys.setTxn_txns, if_pos rfl], rfl⟩
    · obtain ⟨tx, htx, hfailed⟩ := h.unlogged hu
      exact ⟨tx, by rw [Sys.setTxn_txns, if_neg hne, htxns]; exact htx, hfailed⟩

/-- A transaction that has not failed is not marked. -/
theorem not_unlogged (h : Kept s) {t : TxnId} {st : Stage} {ws : WriteSet} (hat : s.sys.At t st ws)
    (hst : st ≠ .failed) : ∀ u, s.unlogged u = true → u ≠ t ∧ s.unlogged u = true := by
  intro u hu
  refine ⟨?_, hu⟩
  rintro rfl
  obtain ⟨tx, htx, hfailed⟩ := h.unlogged hu
  rw [hat] at htx
  cases htx
  exact hst hfailed

/-- A step that leaves the locks and the write set alone and does not end the transaction. -/
theorem advance (h : Kept s) {s₁ : Sys} {t : TxnId} {st st' : Stage} {ws : WriteSet}
    (hat : s.sys.At t st ws) (htxns : s₁.txns = s.sys.txns)
    (hnext : s₁.wal.nextTxnId = s.sys.wal.nextTxnId) (hlocks : s₁.locks = s.sys.locks)
    (hst : st ≠ .failed) (hhold : st.Holding) (hst' : ∀ op, st' ≠ .locked op) (hend : ¬ st'.Ended) :
    Kept { s with sys := s₁.setTxn t st' ws } := by
  refine h.move hat htxns hnext (hlocks ▸ h.sound) (fun u _ _ k => by rw [hlocks]; exact ⟨id, id⟩)
    (fun op e => (hst' op e).elim) (fun _ => ?_) (h.fits hat) (fun e => (hend e).elim)
    (fun u hu => Or.inr (h.not_unlogged hat hst u hu))
  rw [hlocks]
  exact h.holdsX hat hhold

/-! ## The steps -/

theorem begin (h : Kept s) (hid : s.sys.wal.nextTxnId.toInt < 2 ^ 63 - 1) :
    Kept { s with sys := { s.sys with
      wal := s.sys.wal.beginTxn.2
      txns := Function.update s.sys.txns s.sys.wal.nextTxnId (some {}) } } := by
  have hsucc : s.sys.wal.beginTxn.2.nextTxnId.toInt = s.sys.wal.nextTxnId.toInt + 1 :=
    int64_succ h.next_pos hid
  have hpos := h.next_pos
  have back : ∀ {u ux}, Function.update s.sys.txns s.sys.wal.nextTxnId (some {}) u = some ux →
      (u = s.sys.wal.nextTxnId ∧ ux = {}) ∨ s.sys.txns u = some ux := by
    intro u ux hu
    rw [Function.update_apply] at hu
    split at hu
    · next e => cases hu; exact Or.inl ⟨e, rfl⟩
    · exact Or.inr hu
  constructor
  case sound => exact h.sound
  case next_pos => rw [hsucc]; omega
  case ids =>
    intro u ux hu
    rw [hsucc]
    rcases back hu with ⟨rfl, -⟩ | hu
    · omega
    · have := h.ids hu
      omega
  case locked =>
    intro u op ws hu hmode
    rcases back hu with ⟨-, e⟩ | hu
    · cases e
    · exact h.locked hu hmode
  case holdsX =>
    intro u ux hu hhold k hk
    rcases back hu with ⟨-, rfl⟩ | hu
    · exact (Finmap.notMem_empty hk).elim
    · exact h.holdsX hu hhold k hk
  case fits =>
    intro u ux hu k e v he
    rcases back hu with ⟨-, rfl⟩ | hu
    · rw [Finmap.lookup_empty] at he
      cases he
    · exact h.fits hu k e v he
  case ended =>
    intro u ux hu hend
    rcases back hu with ⟨-, rfl⟩ | hu
    · exact hend.elim
    · exact h.ended hu hend
  case unlogged =>
    intro u hu
    obtain ⟨tx, htx, hfailed⟩ := h.unlogged hu
    have hne : u ≠ s.sys.wal.nextTxnId := by
      rintro rfl
      exact lt_irrefl _ (h.ids htx).2
    exact ⟨tx, (Function.update_of_ne hne _ _).trans htx, hfailed⟩

theorem lock (h : Kept s) {t : TxnId} {op : Op} {ws : WriteSet} {locks : LockManager}
    (hat : s.sys.At t .idle ws) (hl : s.sys.locks.lock t op.key op.mode = some locks) :
    Kept { s with sys := { s.sys with locks }.setTxn t (.locked op) ws } := by
  have ht := h.ne_invalid hat
  obtain ⟨hg, rfl⟩ := LockManager.lock_eq hl
  refine h.move hat rfl rfl (h.sound.grant ht hg) (fun u hne hu k => ⟨?_, ?_⟩) ?_ ?_ (h.fits hat)
    nofun (fun u hu => Or.inr (h.not_unlogged hat nofun u hu))
  · exact fun hX => hX.lock h.sound.excl hl hu
  · intro hholds
    exact ((LockManager.holds_grant_iff h.sound.excl hu hg).mp hholds).resolve_right
      fun e => hne e.1
  · intro op' e hmode
    cases e
    rw [hmode] at hl
    exact LockManager.holdsX_lock (by rw [hl, hmode])
  · exact fun _ k hk => (h.holdsX hat trivial k hk).lock h.sound.excl hl ht

theorem body (h : Kept s) {t : TxnId} {op : Op} {ws : WriteSet} {s₁ : Sys}
    (hat : s.sys.At t (.locked op) ws) (htxns : s₁.txns = s.sys.txns)
    (hnext : s₁.wal.nextTxnId = s.sys.wal.nextTxnId) (hlocks : s₁.locks = s.sys.locks) :
    Kept { s with sys := s₁.setTxn t .idle (KeyVDB.body s.sys t ws op).writeSet } := by
  have hold := h.holdsX hat trivial
  refine h.move hat htxns hnext (hlocks ▸ h.sound) (fun u _ _ k => by rw [hlocks]; exact ⟨id, id⟩)
    nofun ?_ ?_ nofun (fun u hu => Or.inr (h.not_unlogged hat nofun u hu))
  · intro _ k hk
    rw [hlocks]
    rcases body_cases s.sys t ws op with ⟨e, he⟩ | he
    · rw [he.writeSet, Finmap.mem_insert] at hk
      rcases hk with rfl | hk
      · exact h.locked hat he.mode
      · exact hold k hk
    · rw [he.writeSet] at hk
      exact hold k hk
  · intro k e v hlook hbefore
    rcases body_cases s.sys t ws op with ⟨e₁, he⟩ | he
    · rw [he.writeSet] at hlook
      by_cases hk : k = op.key
      · subst hk
        rw [Finmap.lookup_insert] at hlook
        cases hlook
        cases hws : ws.lookup op.key with
        | none =>
          rw [he.before_new hws] at hbefore
          exact s.sys.tree.fits hbefore
        | some e₀ =>
          rw [he.before_old e₀ hws] at hbefore
          exact h.fits hat op.key e₀ v hws hbefore
      · rw [Finmap.lookup_insert_of_ne _ hk] at hlook
        exact h.fits hat k e v hlook hbefore
    · rw [he.writeSet] at hlook
      exact h.fits hat k e v hlook hbefore

/-- `release_all` takes back all locks of the transaction. -/
theorem releaseAll (h : Kept s) {t : TxnId} {st st' : Stage} {ws : WriteSet}
    (hat : s.sys.At t st ws) (hst : st ≠ .failed) (hhold : ¬ st'.Holding) :
    Kept { s with sys := { s.sys with locks := s.sys.locks.releaseAll t }.setTxn t st' ws } := by
  have ht := h.ne_invalid hat
  refine h.move hat rfl rfl (h.sound.releaseAll ht) (fun u hne hu k => ⟨?_, ?_⟩) ?_
    (fun e => (hhold e).elim) (h.fits hat) (fun _ k hk => ?_)
    (fun u hu => Or.inr (h.not_unlogged hat hst u hu))
  · exact fun hX => hX.releaseAll hne
  · exact fun hholds => ((LockManager.holds_releaseAll_iff h.sound ht hu).mp hholds).1
  · rintro op rfl
    exact (hhold trivial).elim
  · exact ((LockManager.holds_releaseAll_iff h.sound ht ht).mp hk).2 rfl

theorem step (h : Kept s) {a : Action} {sys : Sys} (hs : Step s.sys a sys) :
    Kept { s with sys } := by
  cases hs with
  | begin hid => exact h.begin hid
  | lock hat hl => exact h.lock hat hl
  | timeout hat => exact h
  | body hat => exact h.body hat rfl (body_nextTxnId _ _ _ _) rfl
  | appendCommit hat => exact h.advance hat rfl rfl rfl nofun trivial nofun id
  | walFlush hat => exact h.advance hat rfl rfl rfl nofun trivial nofun id
  | dataFlush hat => exact h.advance hat rfl rfl rfl nofun trivial nofun id
  | undoAll hat _ _ hok => exact h.advance hat rfl rfl rfl nofun trivial nofun id
  | undoThrows hat _ _ herr =>
    obtain ⟨tree, hok, -⟩ := undoAll_ok (h.fits hat) _ s.sys.tree
    rw [hok] at herr
    cases herr
  | appendAbort hat => exact h.advance hat rfl rfl rfl nofun trivial nofun id
  | releaseCommit hat => exact h.releaseAll hat nofun id
  | releaseAbort hat => exact h.releaseAll hat nofun id
  | evict k => exact { h with }
  | dataFsync => exact { h with }

end Kept

/-! ## The failures -/

/-- A failure ends the transaction and leaves the locks as they are. -/
theorem Sys.fault_eq {s s' : Sys} {t : TxnId} {f : Fault} (h : s.fault t f = some s') :
    ∃ st ws, ∃ s₁ : Sys, s.At t st ws ∧ st.Holding ∧ st ≠ .failed ∧ s' = s₁.setTxn t .failed ws ∧
      s₁.locks = s.locks ∧ s₁.txns = s.txns ∧ s₁.wal.nextTxnId = s.wal.nextTxnId := by
  unfold Sys.fault at h
  cases f with
  | appendCommit n =>
    obtain ⟨ws, hat, h⟩ := Sys.when_eq_some h
    split at h
    · cases h
      exact ⟨_, ws, _, hat, trivial, nofun, rfl, rfl, rfl, rfl⟩
    · cases h
  | walFsync =>
    obtain ⟨ws, hat, h⟩ := Sys.when_eq_some h
    cases h
    exact ⟨_, ws, _, hat, trivial, nofun, rfl, rfl, rfl, rfl⟩
  | pageWrite keys =>
    obtain ⟨ws, hat, h⟩ := Sys.when_eq_some h
    cases h
    exact ⟨_, ws, _, hat, trivial, nofun, rfl, rfl, rfl, rfl⟩
  | dataFsync =>
    obtain ⟨ws, hat, h⟩ := Sys.when_eq_some h
    cases h
    exact ⟨_, ws, _, hat, trivial, nofun, rfl, rfl, rfl, rfl⟩
  | undo order n =>
    obtain ⟨ws, hat, h⟩ := Sys.when_eq_some h
    split at h
    · split at h
      · cases h
        exact ⟨_, ws, _, hat, trivial, nofun, rfl, rfl, rfl, rfl⟩
      · cases h
    · cases h
  | appendAbort n =>
    obtain ⟨ws, hat, h⟩ := Sys.when_eq_some h
    split at h
    · cases h
      exact ⟨_, ws, _, hat, trivial, nofun, rfl, rfl, rfl, rfl⟩
    · cases h

theorem Kept.fault {s : Faulty} {sys : Sys} {t : TxnId} {f : Fault} (h : Kept s)
    (hs : s.sys.fault t f = some sys) (hlocks : ∀ k, ¬ s.sys.locks.Holds t k) :
    Kept { sys, unlogged := if f.unlogged then Function.update s.unlogged t true
                            else s.unlogged } := by
  obtain ⟨st, ws, s₁, hat, hhold, hst, rfl, hlk, htxns, hnext⟩ := Sys.fault_eq hs
  refine h.move hat htxns hnext (hlk ▸ h.sound) (fun u _ _ k => by rw [hlk]; exact ⟨id, id⟩) nofun
    (fun _ k hk => ?_) (h.fits hat) (fun _ k hk => ?_) fun u hu => ?_
  · rw [hlk]
    exact h.holdsX hat hhold k hk
  · rw [hlk] at hk
    exact hlocks k hk
  · by_cases hne : u = t
    · exact Or.inl ⟨hne, rfl⟩
    · refine Or.inr ⟨hne, ?_⟩
      split at hu
      · rwa [Function.update_of_ne hne] at hu
      · exact hu

/-- **Ended transactions.** In every state of a run the ended transactions hold no lock, and those
whose `Commit` threw before the COMMIT record was appended have their writes undone, if and only if
`Commit` and `Rollback` throw only for transactions that hold no lock. -/
theorem endsClean_along_iff (m₀ : KV) (as : List FaultyAction) :
    Along faultyStep EndsClean (.opened m₀) as ↔
      Steps faultyStep LocklessFault (.opened m₀) as := by
  refine along_iff_steps (fun s (h : Kept s) => h.endsClean) ?_ ?_ ?_ (Kept.opened m₀)
  · intro s a s' h hs hC
    cases a with
    | step a =>
      obtain ⟨sys, hsys, rfl⟩ := Option.map_eq_some_iff.mp hs
      exact h.step (Step.of_step hsys)
    | fault t f =>
      obtain ⟨sys, hsys, rfl⟩ := Option.map_eq_some_iff.mp hs
      exact h.fault hsys (hC (by rw [hsys]; rfl))
  · intro s a s' h hs hclean
    cases a with
    | step a => trivial
    | fault t f =>
      intro _ k hk
      obtain ⟨sys, hsys, rfl⟩ := Option.map_eq_some_iff.mp hs
      obtain ⟨st, ws, s₁, -, -, -, rfl, hlk, -, -⟩ := Sys.fault_eq hsys
      refine hclean.locks t { stage := .failed, writeSet := ws }
        (by rw [Sys.setTxn_txns, if_pos rfl]) trivial k ?_
      change s₁.locks.Holds t k
      rw [hlk]
      exact hk
  · intro s a h hs
    cases a with
    | step a => trivial
    | fault t f =>
      intro hsome
      rw [Option.map_eq_none_iff.mp hs] at hsome
      cases hsome

/-- The COMMIT record of a transaction cannot be written: its lock stays in the table for good, and
its write in the tree. -/
theorem failed_commit_keeps_lock :
    ¬ Along faultyStep EndsClean (.opened .empty)
      [.step .begin, .step (.lock 1 (.put [97] [1])), .step (.body 1), .fault 1 (.appendCommit 0)] := by
  intro h
  have hend : ((run faultyStep (.opened .empty) [.step .begin, .step (.lock 1 (.put [97] [1])),
      .step (.body 1), .fault 1 (.appendCommit 0)]).map fun s =>
        ((s.sys.txns 1).map (·.stage), (s.sys.locks.entry [97]).exclusiveHolder)) =
      some (some .failed, 1) := by decide
  obtain ⟨s, hrun, hs⟩ := Option.map_eq_some_iff.mp hend
  simp only [Prod.mk.injEq] at hs
  obtain ⟨tx, htx, hstage⟩ := Option.map_eq_some_iff.mp hs.1
  have hclean : EndsClean s := h.at hrun
  exact hclean.locks 1 tx htx (by rw [hstage]; trivial) [97] (Or.inr hs.2)

end KeyVDB
