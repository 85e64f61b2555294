import KeyVDB.Lib.Run
import KeyVDB.Txn.LockManager
import KeyVDB.Wal.Recovery
import Mathlib.Data.Finmap

/-!
# Transactions

`db.{h,cpp}` over the B+Tree as a map: any number of transactions, each run by its own thread, on
one tree, one lock table, one log and one data file. An action is what happens between two points
at which another thread can run or the process can die:

* `Get`, `Put` and `Delete` are two actions, `LockManager::lock` and the body under `db_mu_`; a lock
  request may instead time out;
* `Commit` is `append_commit`, the fsync of the log, `flush_all` with the fsync of the data file
  under `db_mu_`, and `release_all`;
* `Rollback` (also by the destructor) is `undo_all` under `db_mu_`, `append_abort` and
  `release_all`; the order in which `undo_all` visits the write set is part of the action;
* the buffer pool may write the current value of any key to the data file, and the free list
  may fsync that file, at any moment.

Both files have the image that was written and the image that the last fsync made durable. A call on
a transaction that has ended throws before it does anything, so it is no action.
-/

namespace KeyVDB

/-- `Transaction::WriteEntry`. -/
structure WriteEntry where
  beforeExists : Bool
  beforeVal : Bytes
  afterVal : Bytes
  deriving DecidableEq

/-- The value of the key before the transaction's first write to it. -/
def WriteEntry.before (e : WriteEntry) : Option Bytes :=
  if e.beforeExists then some e.beforeVal else none

/-- `write_set_`. -/
abbrev WriteSet := Finmap fun _ : Bytes => WriteEntry

/-- The calls that touch a key. -/
inductive Op
  | get (key : Bytes)
  | put (key value : Bytes)
  | delete (key : Bytes)
  deriving DecidableEq, Repr

namespace Op

def key : Op → Bytes
  | get k => k
  | put k _ => k
  | delete k => k

/-- The lock that the call asks for. -/
def mode : Op → LockMode
  | get _ => .SHARED
  | put _ _ => .EXCLUSIVE
  | delete _ => .EXCLUSIVE

/-- The value the key has after the call; `Get` leaves it alone. -/
def value : Op → Option Bytes
  | put _ v => some v
  | _ => none

/-- The after-image that the call logs: empty for `Delete`. -/
def after (op : Op) : Bytes := op.value.getD []

/-- The tree accepts the call. -/
def Accepted : Op → Prop
  | put k v => Fits k v
  | _ => True

end Op

/-- How a call ended. -/
inductive Res
  | got (value : Option Bytes)  -- `Get` returned this value
  | wrote  -- `Put` or `Delete` wrote
  | nothing  -- `Delete` of an absent key
  | threw (e : Exn)  -- `Put` threw
  deriving DecidableEq, Repr

/-- Where the thread of a transaction stands. -/
inductive Stage
  | idle  -- between two calls
  | locked (op : Op)  -- the lock for this call is granted, its body has not run
  | committing  -- in `Commit`, after `append_commit`
  | synced  -- in `Commit`, after the fsync of the log
  | flushed  -- in `Commit`, after `flush_all` and the fsync of the data file
  | committed  -- `Commit` returned
  | undone  -- in `Rollback`, after `undo_all`
  | aborted  -- in `Rollback`, after `append_abort`
  | rolledBack  -- `Rollback` returned
  | failed  -- `undo_all` threw out of `Rollback`
  deriving DecidableEq, Repr

/-- A `Transaction` object and its thread. `done_` is set in every stage but the first two. -/
structure Transaction where
  stage : Stage := .idle
  writeSet : WriteSet := ∅

/-- The database and its two files. -/
structure Sys where
  tree : KV                    -- the tree as `get` reads it
  disk : KV                    -- the data file
  diskDurable : KV             -- what the last fsync of the data file made durable
  wal : LogManager := {}
  walDurable : Bytes := []     -- what the last fsync of the log made durable
  locks : LockManager := {}
  txns : TxnId → Option Transaction := fun _ => none

/-- The state that `DB::Open` leaves: all pages flushed, the log truncated, no transaction. -/
def Sys.opened (m : KV) : Sys where
  tree := m
  disk := m
  diskDurable := m

/-! ## Bodies -/

/-- What the body of a call does: the shared tree, the write set, the log, the records it
appended and the outcome. -/
structure BodyResult where
  tree : KV
  writeSet : WriteSet
  wal : LogManager
  records : List WalRecord
  res : Res

/-- `get_locked`. -/
def getLocked (s : Sys) (ws : WriteSet) (key : Bytes) : BodyResult :=
  { tree := s.tree, writeSet := ws, wal := s.wal, records := [], res := .got (s.tree.get key) }

/-- The write-set entry of `put_locked`: the before-image is taken at the first write. -/
def putEntry (s : Sys) (ws : WriteSet) (key value : Bytes) : WriteEntry :=
  match ws.lookup key with
  | none =>
    { beforeExists := (s.tree.get key).isSome, beforeVal := (s.tree.get key).getD [],
      afterVal := value }
  | some e => { e with afterVal := value }

/-- `put_locked`: the write set and the log are updated before `insert`, which may throw. -/
def putLocked (s : Sys) (t : TxnId) (ws : WriteSet) (key value : Bytes) : BodyResult :=
  let entry := putEntry s ws key value
  let (r, wal) := s.wal.appendWrite t key entry.beforeExists entry.beforeVal value
  match s.tree.insert key value with
  | .ok tree =>
    { tree, writeSet := ws.insert key entry, wal, records := [r], res := .wrote }
  | .error e =>
    { tree := s.tree, writeSet := ws.insert key entry, wal, records := [r], res := .threw e }

/-- The write-set entry of `delete_locked`; `old` is the value the key has. -/
def deleteEntry (ws : WriteSet) (key old : Bytes) : WriteEntry :=
  match ws.lookup key with
  | none => { beforeExists := true, beforeVal := old, afterVal := [] }
  | some e => { e with afterVal := [] }

/-- `delete_locked`. -/
def deleteLocked (s : Sys) (t : TxnId) (ws : WriteSet) (key : Bytes) : BodyResult :=
  match s.tree.get key with
  | none => { tree := s.tree, writeSet := ws, wal := s.wal, records := [], res := .nothing }
  | some old =>
    let entry := deleteEntry ws key old
    let (r, wal) := s.wal.appendWrite t key entry.beforeExists entry.beforeVal []
    { tree := s.tree.remove key, writeSet := ws.insert key entry, wal, records := [r],
      res := .wrote }

/-- The body of a call. -/
def body (s : Sys) (t : TxnId) (ws : WriteSet) : Op → BodyResult
  | .get k => getLocked s ws k
  | .put k v => putLocked s t ws k v
  | .delete k => deleteLocked s t ws k

/-- `undo_all`, visiting the write set in the given order. -/
def undoAll (ws : WriteSet) (order : List Bytes) (tree : KV) : Except Exn KV :=
  order.foldlM (fun tree k =>
    match ws.lookup k with
    | none => .ok tree
    | some e =>
      if e.beforeExists = false then .ok (tree.remove k) else tree.insert k e.beforeVal) tree

/-! ## Actions -/

inductive Action
  | begin  -- `DB::Begin`
  | lock (t : TxnId) (op : Op)  -- a lock request is granted
  | timeout (t : TxnId) (op : Op)  -- a lock request throws `DeadlockException`
  | body (t : TxnId)  -- the body under `db_mu_`
  | appendCommit (t : TxnId)
  | walFlush (t : TxnId)
  | dataFlush (t : TxnId)
  | undoAll (t : TxnId) (order : List Bytes)
  | appendAbort (t : TxnId)
  | releaseAll (t : TxnId)  -- `release_all`, the last step of `Commit` and `Rollback`
  | evict (key : Bytes)  -- the buffer pool writes the page of a key to the data file
  | dataFsync  -- the free list fsyncs the data file
  deriving DecidableEq

/-- `t` is at `stage` with write set `ws`. -/
def Sys.At (s : Sys) (t : TxnId) (stage : Stage) (ws : WriteSet) : Prop :=
  s.txns t = some { stage, writeSet := ws }

def Sys.setTxn (s : Sys) (t : TxnId) (stage : Stage) (ws : WriteSet) : Sys :=
  { s with txns := Function.update s.txns t (some { stage, writeSet := ws }) }

/-- Runs `f` on the write set of `t` if `t` is at `stage`. -/
def Sys.when (s : Sys) (t : TxnId) (stage : Stage) (f : WriteSet → Option Sys) : Option Sys :=
  match s.txns t with
  | some tx => if tx.stage = stage then f tx.writeSet else none
  | none => none

/-- One action; `none` when it is not enabled. -/
def step (s : Sys) : Action → Option Sys
  | .begin =>
    -- incrementing the counter at its largest value is signed overflow, which no run does
    if s.wal.nextTxnId.toInt < 2 ^ 63 - 1 then
      let (r, wal) := s.wal.beginTxn
      some { s with wal, txns := Function.update s.txns r.txnId (some {}) }
    else none
  | .lock t op => s.when t .idle fun ws =>
    (s.locks.lock t op.key op.mode).map fun locks => { s with locks }.setTxn t (.locked op) ws
  | .timeout t _ => s.when t .idle fun _ => some s
  | .body t =>
    match s.txns t with
    | some { stage := .locked op, writeSet := ws } =>
      let b := KeyVDB.body s t ws op
      some ({ s with tree := b.tree, wal := b.wal }.setTxn t .idle b.writeSet)
    | _ => none
  | .appendCommit t => s.when t .idle fun ws =>
    some ({ s with wal := (s.wal.appendCommit t).2 }.setTxn t .committing ws)
  | .walFlush t => s.when t .committing fun ws =>
    some ({ s with walDurable := s.wal.file }.setTxn t .synced ws)
  | .dataFlush t => s.when t .synced fun ws =>
    some ({ s with disk := s.tree, diskDurable := s.tree }.setTxn t .flushed ws)
  | .undoAll t order => s.when t .idle fun ws =>
    if order.Nodup ∧ order.toFinset = ws.keys then
      match KeyVDB.undoAll ws order s.tree with
      | .ok tree => some ({ s with tree }.setTxn t .undone ws)
      | .error _ => some (s.setTxn t .failed ws)
    else none
  | .appendAbort t => s.when t .undone fun ws =>
    some ({ s with wal := (s.wal.appendAbort t).2 }.setTxn t .aborted ws)
  | .releaseAll t =>
    match s.txns t with
    | some { stage := .flushed, writeSet := ws } =>
      some ({ s with locks := s.locks.releaseAll t }.setTxn t .committed ws)
    | some { stage := .aborted, writeSet := ws } =>
      some ({ s with locks := s.locks.releaseAll t }.setTxn t .rolledBack ws)
    | _ => none
  | .evict k => some { s with disk := s.disk.writeOut s.tree k }
  | .dataFsync => some { s with diskDurable := s.disk }

@[simp] theorem Sys.setTxn_txns (s : Sys) (t : TxnId) (stage : Stage) (ws : WriteSet) (u : TxnId) :
    (s.setTxn t stage ws).txns u = if u = t then some { stage, writeSet := ws } else s.txns u := by
  simp [setTxn, Function.update_apply]

/-- A transaction after `setTxn` is the one that was set, or an old one. -/
theorem Sys.setTxn_cases {s : Sys} {t : TxnId} {stage : Stage} {ws : WriteSet} {u : TxnId}
    {tx : Transaction} (h : (s.setTxn t stage ws).txns u = some tx) :
    (u = t ∧ tx = { stage, writeSet := ws }) ∨ (u ≠ t ∧ s.txns u = some tx) := by
  rw [setTxn_txns] at h
  split at h
  · next e => cases h; exact Or.inl ⟨e, rfl⟩
  · next e => exact Or.inr ⟨e, h⟩

theorem Sys.when_eq_some {s s' : Sys} {t : TxnId} {stage : Stage} {f : WriteSet → Option Sys}
    (h : s.when t stage f = some s') : ∃ ws, s.At t stage ws ∧ f ws = some s' := by
  unfold Sys.when at h
  split at h
  · next tx htx =>
    split at h
    · next hst => exact ⟨tx.writeSet, by rw [At, htx, ← hst], h⟩
    · cases h
  · cases h

/-- Everything a step can do, case by case. -/
inductive Step (s : Sys) : Action → Sys → Prop
  | begin (hid : s.wal.nextTxnId.toInt < 2 ^ 63 - 1) :
      Step s .begin { s with wal := s.wal.beginTxn.2,
                             txns := Function.update s.txns s.wal.nextTxnId (some {}) }
  | lock {t : TxnId} {op : Op} {ws : WriteSet} {locks : LockManager} (hat : s.At t .idle ws)
      (hl : s.locks.lock t op.key op.mode = some locks) :
      Step s (.lock t op) ({ s with locks }.setTxn t (.locked op) ws)
  | timeout {t : TxnId} {op : Op} {ws : WriteSet} (hat : s.At t .idle ws) :
      Step s (.timeout t op) s
  | body {t : TxnId} {op : Op} {ws : WriteSet} (hat : s.At t (.locked op) ws) :
      Step s (.body t) ({ s with tree := (body s t ws op).tree, wal := (body s t ws op).wal }.setTxn
        t .idle (body s t ws op).writeSet)
  | appendCommit {t : TxnId} {ws : WriteSet} (hat : s.At t .idle ws) :
      Step s (.appendCommit t)
        ({ s with wal := (s.wal.appendCommit t).2 }.setTxn t .committing ws)
  | walFlush {t : TxnId} {ws : WriteSet} (hat : s.At t .committing ws) :
      Step s (.walFlush t) ({ s with walDurable := s.wal.file }.setTxn t .synced ws)
  | dataFlush {t : TxnId} {ws : WriteSet} (hat : s.At t .synced ws) :
      Step s (.dataFlush t) ({ s with disk := s.tree, diskDurable := s.tree }.setTxn t .flushed ws)
  | undoAll {t : TxnId} {order : List Bytes} {ws : WriteSet} {tree : KV} (hat : s.At t .idle ws)
      (hnd : order.Nodup) (hkeys : order.toFinset = ws.keys)
      (hok : KeyVDB.undoAll ws order s.tree = .ok tree) :
      Step s (.undoAll t order) ({ s with tree }.setTxn t .undone ws)
  | undoThrows {t : TxnId} {order : List Bytes} {ws : WriteSet} {e : Exn} (hat : s.At t .idle ws)
      (hnd : order.Nodup) (hkeys : order.toFinset = ws.keys)
      (herr : KeyVDB.undoAll ws order s.tree = .error e) :
      Step s (.undoAll t order) (s.setTxn t .failed ws)
  | appendAbort {t : TxnId} {ws : WriteSet} (hat : s.At t .undone ws) :
      Step s (.appendAbort t) ({ s with wal := (s.wal.appendAbort t).2 }.setTxn t .aborted ws)
  | releaseCommit {t : TxnId} {ws : WriteSet} (hat : s.At t .flushed ws) :
      Step s (.releaseAll t) ({ s with locks := s.locks.releaseAll t }.setTxn t .committed ws)
  | releaseAbort {t : TxnId} {ws : WriteSet} (hat : s.At t .aborted ws) :
      Step s (.releaseAll t) ({ s with locks := s.locks.releaseAll t }.setTxn t .rolledBack ws)
  | evict (k : Bytes) : Step s (.evict k) { s with disk := s.disk.writeOut s.tree k }
  | dataFsync : Step s .dataFsync { s with diskDurable := s.disk }

theorem Step.of_step {s s' : Sys} {a : Action} (h : step s a = some s') : Step s a s' := by
  unfold step at h
  cases a with
  | begin =>
    simp only at h
    split at h
    · next hid => cases h; exact .begin hid
    · cases h
  | lock t op =>
    obtain ⟨ws, hat, h⟩ := Sys.when_eq_some h
    obtain ⟨locks, hl, rfl⟩ := Option.map_eq_some_iff.mp h
    exact .lock hat hl
  | timeout t op => obtain ⟨ws, hat, h⟩ := Sys.when_eq_some h; cases h; exact .timeout hat
  | body t =>
    simp only at h
    split at h
    · next op ws hat => cases h; exact .body hat
    · cases h
  | appendCommit t =>
    obtain ⟨ws, hat, h⟩ := Sys.when_eq_some h; cases h; exact .appendCommit hat
  | walFlush t => obtain ⟨ws, hat, h⟩ := Sys.when_eq_some h; cases h; exact .walFlush hat
  | dataFlush t => obtain ⟨ws, hat, h⟩ := Sys.when_eq_some h; cases h; exact .dataFlush hat
  | undoAll t order =>
    obtain ⟨ws, hat, h⟩ := Sys.when_eq_some h
    split at h
    · next hord =>
      split at h
      · next tree hok => cases h; exact .undoAll hat hord.1 hord.2 hok
      · next e herr => cases h; exact .undoThrows hat hord.1 hord.2 herr
    · cases h
  | appendAbort t => obtain ⟨ws, hat, h⟩ := Sys.when_eq_some h; cases h; exact .appendAbort hat
  | releaseAll t =>
    simp only at h
    split at h
    · next ws hat => cases h; exact .releaseCommit hat
    · next ws hat => cases h; exact .releaseAbort hat
    · cases h
  | evict k => cases h; exact .evict k
  | dataFsync => cases h; exact .dataFsync

/-! ## Histories -/

/-- What a run did, as far as the claims about it go: the calls with their outcomes, and the
points at which a COMMIT record was appended. -/
inductive Event
  | call (t : TxnId) (op : Op) (res : Res)
  | commit (t : TxnId)
  deriving DecidableEq, Repr

/-- A state with the history that led to it: the events and the records appended to the log. -/
structure Traced where
  sys : Sys
  events : List Event := []
  log : List WalRecord := []

def Traced.opened (m : KV) : Traced := { sys := .opened m }

/-- The event of an action taken in `s`. -/
def eventOf (s : Sys) : Action → List Event
  | .body t =>
    match s.txns t with
    | some { stage := .locked op, writeSet := ws } => [.call t op (body s t ws op).res]
    | _ => []
  | .appendCommit t => [.commit t]
  | _ => []

/-- The record that an action taken in `s` appends to the log. -/
def recordOf (s : Sys) : Action → List WalRecord
  | .begin => [s.wal.beginTxn.1]
  | .body t =>
    match s.txns t with
    | some { stage := .locked op, writeSet := ws } => (body s t ws op).records
    | _ => []
  | .appendCommit t => [(s.wal.appendCommit t).1]
  | .appendAbort t => [(s.wal.appendAbort t).1]
  | _ => []

/-- A step with its history. -/
def tstep (ts : Traced) (a : Action) : Option Traced :=
  (step ts.sys a).map fun s' =>
    { sys := s', events := ts.events ++ eventOf ts.sys a, log := ts.log ++ recordOf ts.sys a }

theorem tstep_eq {ts ts' : Traced} {a : Action} (h : tstep ts a = some ts') :
    Step ts.sys a ts'.sys ∧ ts'.events = ts.events ++ eventOf ts.sys a ∧
      ts'.log = ts.log ++ recordOf ts.sys a := by
  obtain ⟨s', hs, rfl⟩ := Option.map_eq_some_iff.mp h
  exact ⟨Step.of_step hs, rfl, rfl⟩

theorem tstep_body {ts : Traced} {t : TxnId} {op : Op} {ws : WriteSet}
    (hat : ts.sys.At t (.locked op) ws) : tstep ts (.body t) = some
      { sys := { ts.sys with tree := (body ts.sys t ws op).tree
                             wal := (body ts.sys t ws op).wal }.setTxn t .idle
          (body ts.sys t ws op).writeSet
        events := ts.events ++ [.call t op (body ts.sys t ws op).res]
        log := ts.log ++ (body ts.sys t ws op).records } := by
  have hat : ts.sys.txns t = some { stage := .locked op, writeSet := ws } := hat
  simp only [tstep, step, eventOf, recordOf, hat, Option.map_some]

end KeyVDB
