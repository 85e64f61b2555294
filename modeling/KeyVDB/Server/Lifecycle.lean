import KeyVDB.BTree.Node
import KeyVDB.Server.Session
import KeyVDB.Txn.Failure
import KeyVDB.Txn.Log
import Mathlib.Data.Finset.Sort

/-!
# The transactions of a session

The request loop of `client_handler.cpp` on the database of `db.cpp`, with the B+Tree as a map and
files that do not fail. Other threads work on the same database: before every action of the session
they may take any number of actions on transactions that are not the session's. A `Choice` fixes
what they do, how a lock request ends and in which order `undo_all` visits the write set, and a run
has one for every action, so that a session on an arbitrary `plan` is a session in an arbitrary
interleaving.

`World.Inv` says where the transactions of the session stand: all but the open one have ended. Each
call of the database keeps it, hence each handler.
-/

namespace KeyVDB

/-! ## The database of a session -/

/-- What happens around one action of the session: what the other threads do before it, whether a
lock request is granted in time, and the order of the write set. -/
structure Choice where
  others : List Action := []
  granted : Bool := true
  order : List Bytes := []

/-- The transaction that an action is about. -/
def Action.txn : Action → Option TxnId
  | .lock t _ => some t
  | .timeout t _ => some t
  | .body t => some t
  | .appendCommit t => some t
  | .walFlush t => some t
  | .dataFlush t => some t
  | .undoAll t _ => some t
  | .appendAbort t => some t
  | .releaseAll t => some t
  | .begin => none
  | .evict _ => none
  | .dataFsync => none

/-- The database as one session sees it. -/
structure World where
  ts : Traced
  /-- What is still to come. -/
  plan : Nat → Choice
  /-- The transactions that the session began. -/
  mine : List TxnId := []
  /-- The states there were, each with the transactions that the session had begun. -/
  seen : List (List TxnId × Sys) := []

namespace World

/-- An action that is possible. -/
def move (w : World) (a : Action) : Option World :=
  (tstep w.ts a).map fun ts => { w with ts, seen := w.seen ++ [(w.mine, ts.sys)] }

/-- An action of another thread. -/
def other (w : World) (a : Action) : World :=
  if ∃ t ∈ w.mine, a.txn = some t then w else (w.move a).getD w

/-- The other threads run. -/
def wait (w : World) : World :=
  { (w.plan 0).others.foldl other w with plan := fun n => w.plan (n + 1) }

/-- Actions of the session, with the other threads running before each. -/
def moves (w : World) : List Action → Option World
  | [] => some w
  | a :: as => (w.wait.move a).bind fun w' => w'.moves as

/-- `done_` -/
def done (w : World) (t : TxnId) : Bool :=
  match w.ts.sys.txns t with
  | some tx => tx.stage ≠ .idle
  | none => true

end World

/-- An exception that comes out of the tree. -/
def Exn.outcome {α : Type} : Exn → Outcome α
  | .runtimeError what => .threw what
  | .invalidArgument what => .threw what
  | .outOfRange what => .threw what
  | .systemError what => .threw what
  | .assertion _ => .died
  | .diverges => .died

/-- How a call ends whose body has this result. -/
def Res.outcome : Res → Outcome Res
  | .threw e => e.outcome
  | res => .returned res

/-- The value that `Get` returns. -/
def Res.value : Res → Option Bytes
  | .got v => v
  | _ => none

def Outcome.map {α β : Type} (f : α → β) : Outcome α → Outcome β
  | .returned a => .returned (f a)
  | .deadlock what => .deadlock what
  | .threw what => .threw what
  | .died => .died

/-- The text of a `DeadlockException`. -/
def lockTimeout (t : TxnId) (key : Bytes) : String :=
  "LockManager: lock timeout on key '" ++ String.ofList (key.map fun b => Char.ofNat b.toNat) ++
    "' for txn " ++ toString t.toInt ++ " — assumed deadlock, aborting transaction"

/-- The order in which `undo_all` visits the write set. -/
def Choice.undoOrder (c : Choice) (ws : WriteSet) : List Bytes :=
  if c.order.Nodup ∧ c.order.toFinset = ws.keys then c.order else ws.keys.sort

namespace World

/-- The body of a call whose lock is granted. -/
def callBody (t : TxnId) (w : World) : Outcome Res × World :=
  match w.ts.sys.txns t with
  | some { stage := .locked op, writeSet := ws } =>
    match w.move (.body t) with
    | some w' => ((body w.ts.sys t ws op).res.outcome, w')
    | none => (.died, w)
  | _ => (.died, w)

/-- `Get`, `Put` and `Delete`. -/
def call (name : String) (t : TxnId) (op : Op) (w : World) : Outcome Res × World :=
  if w.done t then (.threw (name ++ ": already ended"), w)
  else
    -- a request that is not granted in time throws
    let timedOut := (.deadlock (lockTimeout t op.key), (w.wait.move (.timeout t op)).getD w.wait)
    if (w.plan 0).granted then
      match w.wait.move (.lock t op) with
      | some w' => w'.wait.callBody t
      | none => timedOut
    else timedOut

/-- `Commit`. -/
def commit (t : TxnId) (w : World) : Outcome Unit × World :=
  if w.done t then (.threw "Transaction::Commit: already ended", w)
  else
    match w.moves [.appendCommit t, .walFlush t, .dataFlush t, .releaseAll t] with
    | some w' => (.returned (), w')
    | none => (.died, w)

/-- `Rollback`. -/
def rollback (t : TxnId) (w : World) : Outcome Unit × World :=
  if w.done t then (.threw "Transaction::Rollback: already ended", w)
  else
    match w.wait.ts.sys.txns t with
    | none => (.died, w)
    | some tx =>
      let order := (w.plan 0).undoOrder tx.writeSet
      match w.wait.move (.undoAll t order) with
      | none => (.died, w)
      | some w' =>
        match undoAll tx.writeSet order w.wait.ts.sys.tree with
        | .error e => (e.outcome, w')
        | .ok _ =>
          match w'.moves [.appendAbort t, .releaseAll t] with
          | some w'' => (.returned (), w'')
          | none => (.died, w')

/-- `DB::Begin`. -/
def begin (w : World) : Outcome TxnId × World :=
  let t := w.wait.ts.sys.wal.nextTxnId
  match tstep w.wait.ts .begin with
  | some ts =>
    (.returned t,
      { w.wait with
        ts
        mine := w.wait.mine ++ [t]
        seen := w.wait.seen ++ [(w.wait.mine ++ [t], ts.sys)] })
  | none => (.died, w.wait)

end World

/-- The database of a session. The destructor rolls back what has not ended. -/
def sessionDb : Database World where
  begin := World.begin
  get t key w := Prod.map (Outcome.map Res.value) id (World.call "Transaction::Get" t (.get key) w)
  put t key value w :=
    Prod.map (Outcome.map fun _ => ()) id (World.call "Transaction::Put" t (.put key value) w)
  delete t key w :=
    Prod.map (Outcome.map fun _ => ()) id (World.call "Transaction::Delete" t (.delete key) w)
  commit := World.commit
  rollback := World.rollback
  destroy t w := if w.done t then w else (World.rollback t w).2

/-! ## Runs of the database -/

/-- The database got here from `m₀`. -/
def Reachable (m₀ : KV) (ts : Traced) : Prop := ∃ as, run tstep (.opened m₀) as = some ts

namespace Reachable

variable {m₀ : KV} {ts ts' : Traced}

theorem tstep {a : Action} (h : Reachable m₀ ts) (hs : KeyVDB.tstep ts a = some ts') :
    Reachable m₀ ts' := by
  obtain ⟨as, hrun⟩ := h
  exact ⟨as ++ [a], run_snoc hrun hs⟩

theorem serial (h : Reachable m₀ ts) : ∃ view, Serial m₀ ts view := by
  obtain ⟨as, hrun⟩ := h
  exact Serial.run hrun

theorem endsLogged (h : Reachable m₀ ts) : EndsLogged ts := by
  obtain ⟨as, hrun⟩ := h
  have hstep : ∀ ts a ts', (∃ view, Serial m₀ ts view) ∧ EndsLogged ts → True →
      KeyVDB.tstep ts a = some ts' → (∃ view, Serial m₀ ts' view) ∧ EndsLogged ts' := by
    intro ts a ts' h _ hs
    obtain ⟨⟨view, hserial⟩, hends⟩ := h
    obtain ⟨view', hserial', -⟩ := hserial.tstep hs
    exact ⟨⟨view', hserial'⟩, hends.tstep hserial.iso hs⟩
  exact (run_inv hstep ⟨⟨m₀, Serial.opened m₀⟩, EndsLogged.opened m₀⟩
    (steps_of_forall (fun _ _ => trivial) _ _) hrun).2

/-- A transaction that has ended holds no lock. -/
theorem lockless (h : Reachable m₀ ts) {t : TxnId} {tx : Transaction} (ht : ts.sys.txns t = some tx)
    (hended : tx.stage.Ended) (k : Bytes) : ¬ ts.sys.locks.Holds t k := by
  obtain ⟨as, hrun⟩ := h
  have hstep : ∀ ts a ts', Kept ⟨ts.sys, fun _ => false⟩ → True → KeyVDB.tstep ts a = some ts' →
      Kept ⟨ts'.sys, fun _ => false⟩ := by
    intro ts a ts' h _ hs
    exact h.step (tstep_eq hs).1
  have hkept := run_inv hstep (Kept.opened m₀) (steps_of_forall (fun _ _ => trivial) _ _) hrun
  exact hkept.ended ht hended k

end Reachable

/-- A step that is about another transaction leaves this one alone. -/
theorem Step.txns_of_ne {s s' : Sys} {a : Action} (h : Step s a s') {t : TxnId} {tx : Transaction}
    (ht : s.txns t = some tx) (hnext : s.txns s.wal.nextTxnId = none) (ha : a.txn ≠ some t) :
    s'.txns t = some tx := by
  have hset : ∀ (s₁ : Sys) (u : TxnId) (st : Stage) (ws : WriteSet), s₁.txns = s.txns →
      some u ≠ some t → (s₁.setTxn u st ws).txns t = some tx := by
    intro s₁ u st ws htxns hu
    rw [Sys.setTxn_txns, if_neg fun e => hu (congrArg some e.symm), htxns]
    exact ht
  cases h with
  | begin hid =>
    have hne : t ≠ s.wal.nextTxnId := by
      intro e
      rw [e, hnext] at ht
      cases ht
    exact (Function.update_of_ne hne _ _).trans ht
  | lock hat hl => exact hset _ _ _ _ rfl ha
  | timeout hat => exact ht
  | body hat => exact hset _ _ _ _ rfl ha
  | appendCommit hat => exact hset _ _ _ _ rfl ha
  | walFlush hat => exact hset _ _ _ _ rfl ha
  | dataFlush hat => exact hset _ _ _ _ rfl ha
  | undoAll hat hnd hkeys hok => exact hset _ _ _ _ rfl ha
  | undoThrows hat hnd hkeys herr => exact hset _ _ _ _ rfl ha
  | appendAbort hat => exact hset _ _ _ _ rfl ha
  | releaseCommit hat => exact hset _ _ _ _ rfl ha
  | releaseAbort hat => exact hset _ _ _ _ rfl ha
  | evict k => exact ht
  | dataFsync => exact ht

theorem Step.begin_txns {s s' : Sys} (h : Step s .begin s') :
    s'.txns s.wal.nextTxnId = some {} := by
  cases h with
  | begin hid => exact Function.update_self ..

theorem Step.lock_at {s s' : Sys} {t : TxnId} {op : Op} (h : Step s (.lock t op) s') :
    ∃ ws, s'.At t (.locked op) ws := by
  cases h with
  | lock hat hl => exact ⟨_, by rw [Sys.At, Sys.setTxn_txns, if_pos rfl]⟩

theorem Step.timeout_eq {s s' : Sys} {t : TxnId} {op : Op} (h : Step s (.timeout t op) s') :
    s' = s := by
  cases h with
  | timeout hat => rfl

/-! ## Where the transactions of the session stand -/

/-- `Commit` or `Rollback` of the transaction has not returned. -/
def Sys.Open (s : Sys) (t : TxnId) : Prop := ∃ tx, s.txns t = some tx ∧ ¬ tx.stage.Ended

namespace World

/-- All transactions of the session have ended but `cur`, which is at the given stage. Those that
are committed in the log were the open one when a COMMIT message came; `past` has the messages
that came, each with the transaction that was open. -/
structure Inv (m₀ : KV) (past : List (Option TxnId × UInt8)) (cur : Option (TxnId × Stage))
    (w : World) : Prop where
  reach : Reachable m₀ w.ts
  current : ∀ t st, cur = some (t, st) → t ∈ w.mine ∧ ∃ ws, w.ts.sys.At t st ws
  ended : ∀ t ∈ w.mine, cur.map Prod.fst ≠ some t →
    ∃ tx, w.ts.sys.txns t = some tx ∧ tx.stage.Ended
  one : ∀ x ∈ w.seen, ∀ t ∈ x.1, ∀ u ∈ x.1, x.2.Open t → x.2.Open u → t = u
  commits : ∀ t ∈ w.mine, w.ts.sys.fate t = some .committed → (some t, OP_COMMIT) ∈ past

variable {m₀ : KV} {past : List (Option TxnId × UInt8)} {cur : Option (TxnId × Stage)} {w w' : World}
  {t : TxnId} {st st' : Stage}

theorem Inv.mono {past' : List (Option TxnId × UInt8)} (h : Inv m₀ past cur w)
    (hpast : ∀ x ∈ past, x ∈ past') : Inv m₀ past' cur w :=
  { h with commits := fun t ht hc => hpast _ (h.commits t ht hc) }

/-- The plan is no part of the invariant. -/
theorem Inv.plan (h : Inv m₀ past cur w) (plan : Nat → Choice) :
    Inv m₀ past cur { w with plan := plan } :=
  { h with }

/-- The database moves on to `ts`. -/
theorem Inv.push {cur' : Option (TxnId × Stage)} {mine : List TxnId} {ts : Traced}
    (h : Inv m₀ past cur w) (hreach : Reachable m₀ ts)
    (hcurrent : ∀ t st, cur' = some (t, st) → t ∈ mine ∧ ∃ ws, ts.sys.At t st ws)
    (hended : ∀ t ∈ mine, cur'.map Prod.fst ≠ some t →
      ∃ tx, ts.sys.txns t = some tx ∧ tx.stage.Ended)
    (hcommits : ∀ t ∈ mine, ts.sys.fate t = some .committed → (some t, OP_COMMIT) ∈ past) :
    Inv m₀ past cur' { w with ts := ts, mine := mine, seen := w.seen ++ [(mine, ts.sys)] } := by
  refine ⟨hreach, hcurrent, hended, ?_, hcommits⟩
  have hopen : ∀ t ∈ mine, ts.sys.Open t → cur'.map Prod.fst = some t := by
    intro t ht hopen
    by_contra hne
    obtain ⟨tx, htx, hend⟩ := hended t ht hne
    obtain ⟨tx', htx', hopen⟩ := hopen
    rw [htx] at htx'
    cases htx'
    exact hopen hend
  intro x hx t ht u hu hopent hopenu
  rcases List.mem_append.mp hx with hx | hx
  · exact h.one x hx t ht u hu hopent hopenu
  · rw [List.mem_singleton.mp hx] at ht hu hopent hopenu
    exact Option.some.inj ((hopen t ht hopent).symm.trans (hopen u hu hopenu))

/-- A transaction of the session is there. -/
theorem Inv.exists_txn (h : Inv m₀ past cur w) (ht : t ∈ w.mine) :
    ∃ tx, w.ts.sys.txns t = some tx := by
  by_cases hcur : cur.map Prod.fst = some t
  · obtain ⟨⟨u, st⟩, hc, rfl⟩ := Option.map_eq_some_iff.mp hcur
    obtain ⟨-, ws, hat⟩ := h.current u st hc
    exact ⟨_, hat⟩
  · obtain ⟨tx, htx, -⟩ := h.ended t ht hcur
    exact ⟨tx, htx⟩

/-- An action leaves the transactions of the session alone that it is not about. -/
theorem Inv.txns_of_ne {a : Action} {ts : Traced} (h : Inv m₀ past cur w)
    (hs : tstep w.ts a = some ts) (ht : t ∈ w.mine) (ha : a.txn ≠ some t) :
    ts.sys.txns t = w.ts.sys.txns t := by
  obtain ⟨tx, htx⟩ := h.exists_txn ht
  obtain ⟨view, hserial⟩ := h.reach.serial
  rw [(tstep_eq hs).1.txns_of_ne htx hserial.iso.fresh_next ha, htx]

/-- An action of another thread. -/
theorem Inv.move_other {a : Action} (h : Inv m₀ past cur w) (ha : ∀ t ∈ w.mine, a.txn ≠ some t)
    (hm : w.move a = some w') : Inv m₀ past cur w' := by
  obtain ⟨ts, hs, rfl⟩ := Option.map_eq_some_iff.mp hm
  have hkeep : ∀ t ∈ w.mine, ts.sys.txns t = w.ts.sys.txns t := fun t ht =>
    h.txns_of_ne hs ht (ha t ht)
  refine h.push (h.reach.tstep hs) ?_ ?_ ?_
  · intro t st hcur
    obtain ⟨ht, ws, hat⟩ := h.current t st hcur
    exact ⟨ht, ws, (hkeep t ht).trans hat⟩
  · intro t ht hne
    rw [hkeep t ht]
    exact h.ended t ht hne
  · intro t ht hfate
    rw [Sys.fate, hkeep t ht] at hfate
    exact h.commits t ht hfate

theorem Inv.other (h : Inv m₀ past cur w) (a : Action) : Inv m₀ past cur (w.other a) := by
  unfold World.other
  split
  · exact h
  · next hnot =>
    cases hm : w.move a with
    | none => exact h
    | some w' => exact h.move_other (fun t ht e => hnot ⟨t, ht, e⟩) hm

/-- The other threads run. -/
theorem Inv.wait (h : Inv m₀ past cur w) : Inv m₀ past cur w.wait := by
  have hfold : ∀ (as : List Action) (w : World), Inv m₀ past cur w →
      Inv m₀ past cur (as.foldl World.other w) := by
    intro as
    induction as with
    | nil => exact fun w h => h
    | cons a as ih => exact fun w h => ih _ (h.other a)
  exact (hfold _ w h).plan _

/-- An action of the session on its open transaction. -/
theorem Inv.move_own {a : Action} {ws : WriteSet} (h : Inv m₀ past (some (t, st)) w)
    (ha : a.txn = some t) (hm : w.move a = some w') (hat : w'.ts.sys.At t st' ws)
    (hcommit : st'.fate = .committed → (some t, OP_COMMIT) ∈ past) :
    Inv m₀ past (some (t, st')) w' := by
  obtain ⟨ts, hs, rfl⟩ := Option.map_eq_some_iff.mp hm
  have hkeep : ∀ u ∈ w.mine, u ≠ t → ts.sys.txns u = w.ts.sys.txns u := by
    intro u hu hne
    refine h.txns_of_ne hs hu ?_
    rw [ha]
    exact fun e => hne (Option.some.inj e).symm
  refine h.push (h.reach.tstep hs) ?_ ?_ ?_
  · intro u st'' hcur
    cases hcur
    exact ⟨(h.current t st rfl).1, ws, hat⟩
  · intro u hu hne
    have hne : u ≠ t := fun e => hne (congrArg some e.symm)
    rw [hkeep u hu hne]
    exact h.ended u hu fun e => hne (Option.some.inj e).symm
  · intro u hu hfate
    by_cases hut : u = t
    · subst hut
      rw [Sys.At.fate hat] at hfate
      exact hcommit (Option.some.inj hfate)
    · rw [Sys.fate, hkeep u hu hut] at hfate
      exact h.commits u hu hfate

/-- The open transaction has ended. -/
theorem Inv.close (h : Inv m₀ past (some (t, st)) w) (hst : st.Ended) : Inv m₀ past none w := by
  refine ⟨h.reach, nofun, ?_, h.one, h.commits⟩
  intro u hu _
  by_cases hut : u = t
  · subst hut
    obtain ⟨-, ws, hat⟩ := h.current u st rfl
    exact ⟨_, hat, hst⟩
  · exact h.ended u hu fun e => hut (Option.some.inj e).symm

/-! ## The calls -/

/-- `a` takes the transaction from the stage `st` to `st'`. -/
def Advances (a : Action) (t : TxnId) (st st' : Stage) : Prop :=
  ∀ s ws, s.At t st ws → ∃ s' ws', step s a = some s' ∧ s'.At t st' ws'

theorem advances_of_when {a : Action} {f : Sys → WriteSet → Sys}
    (hstep : ∀ s, step s a = s.when t st fun ws => some ((f s ws).setTxn t st' ws)) :
    Advances a t st st' := by
  intro s ws hat
  have hat' : s.txns t = some { stage := st, writeSet := ws } := hat
  refine ⟨(f s ws).setTxn t st' ws, ws, ?_, ?_⟩
  · rw [hstep, Sys.when, hat']
    exact if_pos rfl
  · rw [Sys.At, Sys.setTxn_txns, if_pos rfl]

theorem advances_appendCommit (t : TxnId) : Advances (.appendCommit t) t .idle .committing :=
  advances_of_when (f := fun s _ => { s with wal := (s.wal.appendCommit t).2 }) fun _ => rfl

theorem advances_walFlush (t : TxnId) : Advances (.walFlush t) t .committing .synced :=
  advances_of_when (f := fun s _ => { s with walDurable := s.wal.file }) fun _ => rfl

theorem advances_dataFlush (t : TxnId) : Advances (.dataFlush t) t .synced .flushed :=
  advances_of_when (f := fun s _ => { s with disk := s.tree, diskDurable := s.tree }) fun _ => rfl

theorem advances_appendAbort (t : TxnId) : Advances (.appendAbort t) t .undone .aborted :=
  advances_of_when (f := fun s _ => { s with wal := (s.wal.appendAbort t).2 }) fun _ => rfl

theorem advances_releaseAll (t : TxnId) :
    Advances (.releaseAll t) t .flushed .committed ∧ Advances (.releaseAll t) t .aborted .rolledBack := by
  constructor
  · intro s ws hat
    have hat' : s.txns t = some { stage := .flushed, writeSet := ws } := hat
    refine ⟨_, ws, by rw [step, hat'], ?_⟩
    rw [Sys.At, Sys.setTxn_txns, if_pos rfl]
  · intro s ws hat
    have hat' : s.txns t = some { stage := .aborted, writeSet := ws } := hat
    refine ⟨_, ws, by rw [step, hat'], ?_⟩
    rw [Sys.At, Sys.setTxn_txns, if_pos rfl]

theorem step_of_move {a : Action} (h : w.move a = some w') : Step w.ts.sys a w'.ts.sys := by
  obtain ⟨ts, hs, rfl⟩ := Option.map_eq_some_iff.mp h
  exact (tstep_eq hs).1

theorem move_of_step {a : Action} {s' : Sys} (h : step w.ts.sys a = some s') :
    ∃ w', w.move a = some w' ∧ w'.ts.sys = s' := by
  refine ⟨_, by rw [move, tstep, h]; rfl, rfl⟩

/-- One action of a call. -/
theorem Inv.act {a : Action} (h : Inv m₀ past (some (t, st)) w) (ha : a.txn = some t)
    (hadv : Advances a t st st') (hcommit : st'.fate = .committed → (some t, OP_COMMIT) ∈ past) :
    ∃ w', w.wait.move a = some w' ∧ Inv m₀ past (some (t, st')) w' := by
  have hwait := h.wait
  obtain ⟨-, ws, hat⟩ := hwait.current t st rfl
  obtain ⟨s', ws', hstep, hat'⟩ := hadv _ ws hat
  obtain ⟨w', hm, rfl⟩ := move_of_step hstep
  exact ⟨w', hm, hwait.move_own ha hm hat' hcommit⟩

theorem moves_cons {a : Action} {as : List Action} {w₁ w₂ : World} (h : w.wait.move a = some w₁)
    (has : w₁.moves as = some w₂) : w.moves (a :: as) = some w₂ := by
  rw [moves, h, Option.bind_some, has]

theorem Inv.done_eq (h : Inv m₀ past (some (t, st)) w) : w.done t = decide (st ≠ .idle) := by
  obtain ⟨-, ws, hat⟩ := h.current t _ rfl
  have hat' : w.ts.sys.txns t = some { stage := st, writeSet := ws } := hat
  rw [done, hat']

/-- `Commit` returns. -/
theorem Inv.commit (h : Inv m₀ past (some (t, .idle)) w) (hpast : (some t, OP_COMMIT) ∈ past) :
    ∃ w', w.commit t = (.returned (), w') ∧ Inv m₀ past (some (t, .committed)) w' := by
  obtain ⟨w₁, hm₁, h₁⟩ := h.act rfl (advances_appendCommit t) fun _ => hpast
  obtain ⟨w₂, hm₂, h₂⟩ := h₁.act rfl (advances_walFlush t) fun _ => hpast
  obtain ⟨w₃, hm₃, h₃⟩ := h₂.act rfl (advances_dataFlush t) fun _ => hpast
  obtain ⟨w₄, hm₄, h₄⟩ := h₃.act rfl (advances_releaseAll t).1 fun _ => hpast
  have hmoves : w.moves [.appendCommit t, .walFlush t, .dataFlush t, .releaseAll t] = some w₄ :=
    moves_cons hm₁ (moves_cons hm₂ (moves_cons hm₃ (moves_cons hm₄ rfl)))
  refine ⟨w₄, ?_, h₄⟩
  rw [World.commit, h.done_eq, if_neg (by decide), hmoves]

theorem undoOrder_spec (c : Choice) (ws : WriteSet) :
    (c.undoOrder ws).Nodup ∧ (c.undoOrder ws).toFinset = ws.keys := by
  unfold Choice.undoOrder
  split
  · next h => exact h
  · exact ⟨Finset.sort_nodup _ _, Finset.sort_toFinset _ _⟩

/-- `Rollback` returns: `undo_all` does not throw. -/
theorem Inv.rollback (h : Inv m₀ past (some (t, .idle)) w) :
    ∃ w', w.rollback t = (.returned (), w') ∧ Inv m₀ past (some (t, .rolledBack)) w' := by
  have hwait := h.wait
  obtain ⟨-, ws, hat⟩ := hwait.current t _ rfl
  have hat' : w.wait.ts.sys.txns t = some { stage := .idle, writeSet := ws } := hat
  obtain ⟨hnodup, hkeys⟩ := undoOrder_spec (w.plan 0) ws
  obtain ⟨view, hserial⟩ := hwait.reach.serial
  obtain ⟨tree, hundo, -⟩ := hserial.iso.undoAll_ok hat hkeys
  have hstep : step w.wait.ts.sys (.undoAll t ((w.plan 0).undoOrder ws)) =
      some ({ w.wait.ts.sys with tree }.setTxn t .undone ws) := by
    rw [step, Sys.when, hat']
    dsimp only
    rw [if_pos rfl, if_pos ⟨hnodup, hkeys⟩, hundo]
  obtain ⟨w₁, hm₁, hsys⟩ := move_of_step hstep
  have hat₁ : w₁.ts.sys.At t .undone ws := by
    rw [hsys, Sys.At, Sys.setTxn_txns, if_pos rfl]
  have h₁ := hwait.move_own rfl hm₁ hat₁ fun e => absurd e (by decide)
  obtain ⟨w₂, hm₂, h₂⟩ := h₁.act rfl (advances_appendAbort t) fun e => absurd e (by decide)
  obtain ⟨w₃, hm₃, h₃⟩ := h₂.act rfl (advances_releaseAll t).2 fun e => absurd e (by decide)
  have hmoves : w₁.moves [.appendAbort t, .releaseAll t] = some w₃ :=
    moves_cons hm₂ (moves_cons hm₃ rfl)
  refine ⟨w₃, ?_, h₃⟩
  rw [World.rollback, h.done_eq, if_neg (by decide), hat']
  dsimp only
  rw [hm₁]
  dsimp only
  rw [hundo]
  dsimp only
  rw [hmoves]

/-- The destructor rolls back a transaction that has not ended. -/
theorem Inv.destroy (h : Inv m₀ past (some (t, st)) w) (hst : st = .idle ∨ st.Ended) :
    Inv m₀ past none (sessionDb.destroy t w) := by
  change Inv m₀ past none (if w.done t then w else (w.rollback t).2)
  rw [h.done_eq]
  rcases hst with rfl | hst
  · obtain ⟨w', hrollback, h'⟩ := h.rollback
    rw [if_neg (by decide), hrollback]
    exact h'.close trivial
  · have hne : st ≠ .idle := by
      intro e
      rw [e] at hst
      exact hst
    rw [if_pos (decide_eq_true hne)]
    exact h.close hst

/-- `Begin` returns, unless the ids have run out. -/
theorem Inv.begin (h : Inv m₀ past none w) :
    (∃ t w', w.begin = (.returned t, w') ∧ Inv m₀ past (some (t, .idle)) w') ∨
      ∃ w', w.begin = (.died, w') ∧ Inv m₀ past none w' := by
  have hwait := h.wait
  cases hs : tstep w.wait.ts .begin with
  | none => exact Or.inr ⟨w.wait, by rw [World.begin, hs], hwait⟩
  | some ts =>
    refine Or.inl ⟨_, _, by rw [World.begin, hs], ?_⟩
    have hnew := (tstep_eq hs).1.begin_txns
    have hkeep : ∀ u ∈ w.wait.mine, ts.sys.txns u = w.wait.ts.sys.txns u := fun u hu =>
      hwait.txns_of_ne hs hu nofun
    refine hwait.push (hwait.reach.tstep hs) ?_ ?_ ?_
    · intro t st hcur
      cases hcur
      exact ⟨List.mem_append_right _ List.mem_cons_self, _, hnew⟩
    · intro u hu hne
      rcases List.mem_append.mp hu with hu | hu
      · rw [hkeep u hu]
        exact hwait.ended u hu nofun
      · exact (hne (congrArg some (List.mem_singleton.mp hu).symm)).elim
    · intro u hu hfate
      rcases List.mem_append.mp hu with hu | hu
      · rw [Sys.fate, hkeep u hu] at hfate
        exact hwait.commits u hu hfate
      · rw [List.mem_singleton.mp hu, Sys.fate, hnew] at hfate
        cases hfate

/-- No body ends the process: a pair that is too large is a `std::exception`. -/
theorem body_outcome_ne_died (s : Sys) (t : TxnId) (ws : WriteSet) (op : Op) :
    (body s t ws op).res.outcome ≠ .died := by
  cases op with
  | get k => nofun
  | put k v =>
    by_cases hf : Fits k v
    · simp [body, putLocked, KV.insert_of_fits _ hf, Res.outcome]
    · simp [body, putLocked, KV.insert_of_not_fits _ hf, Res.outcome, tooLarge, Exn.outcome]
  | delete k =>
    cases hg : s.tree.get k with
    | none => simp [body, deleteLocked, hg, Res.outcome]
    | some v => simp [body, deleteLocked, hg, Res.outcome]

theorem advances_body (t : TxnId) (op : Op) : Advances (.body t) t (.locked op) .idle := by
  intro s ws hat
  have hat' : s.txns t = some { stage := .locked op, writeSet := ws } := hat
  refine ⟨_, (body s t ws op).writeSet, by rw [step, hat'], ?_⟩
  rw [Sys.At, Sys.setTxn_txns, if_pos rfl]

/-- The body of a call whose lock is granted. -/
theorem Inv.callBody {op : Op} (h : Inv m₀ past (some (t, .locked op)) w) :
    Inv m₀ past (some (t, .idle)) (w.wait.callBody t).2 ∧ (w.wait.callBody t).1 ≠ .died := by
  obtain ⟨-, ws, hat⟩ := h.wait.current t _ rfl
  have hat' : w.wait.ts.sys.txns t = some { stage := .locked op, writeSet := ws } := hat
  obtain ⟨w', hm, h'⟩ := h.act rfl (advances_body t op) nofun
  rw [World.callBody, hat']
  dsimp only
  rw [hm]
  exact ⟨h', body_outcome_ne_died _ _ _ _⟩

/-- `Get`, `Put` and `Delete` leave the transaction open, however they end. -/
theorem Inv.call (h : Inv m₀ past (some (t, .idle)) w) (name : String) (op : Op) :
    Inv m₀ past (some (t, .idle)) (w.call name t op).2 ∧ (w.call name t op).1 ≠ .died := by
  have hwait := h.wait
  have htimeout : Inv m₀ past (some (t, .idle)) ((w.wait.move (.timeout t op)).getD w.wait) := by
    cases hm : w.wait.move (.timeout t op) with
    | none => exact hwait
    | some w' =>
      obtain ⟨-, ws, hat⟩ := hwait.current t _ rfl
      rw [← (step_of_move hm).timeout_eq] at hat
      exact hwait.move_own rfl hm hat nofun
  rw [World.call, h.done_eq, if_neg (by decide)]
  dsimp only
  split
  · cases hm : w.wait.move (.lock t op) with
    | none => exact ⟨htimeout, nofun⟩
    | some w' =>
      obtain ⟨ws, hat⟩ := (step_of_move hm).lock_at
      exact (hwait.move_own rfl hm hat nofun).callBody
  · exact ⟨htimeout, nofun⟩

end World

/-! ## The handlers -/

section Handlers

variable {m₀ : KV} {past : List (Option TxnId × UInt8)} {s : Session World} {t : TxnId}

/-- The open transaction of the session is the one that its handler has. -/
def Session.Inv (m₀ : KV) (past : List (Option TxnId × UInt8)) (s : Session World) : Prop :=
  s.db.Inv m₀ past (s.txn.map fun t => (t, .idle))

/-- What a turn leaves; after the last one nothing is open. -/
def Turn.Inv (m₀ : KV) (past : List (Option TxnId × UInt8)) (turn : Turn World) : Prop :=
  turn.session.Inv m₀ past ∧ (turn.ended = true → turn.session.txn = none)

theorem Session.Inv.reply (h : s.Inv m₀ past) (r : Response) : (s.reply r).Inv m₀ past :=
  ⟨h, nofun⟩

/-- A payload that cannot be read leaves the session as it was. -/
theorem Session.Inv.unread (h : s.Inv m₀ past) (rest : Bytes) :
    Turn.Inv m₀ past { session := { s with input := rest } } :=
  ⟨h, nofun⟩

/-- The `try` block of `handle_get`, `handle_put` and `handle_delete`. -/
theorem finish_inv (call : DbCall) (htxn : s.txn = some t) {o : Outcome Response} {w : World}
    (h : w.Inv m₀ past (some (t, .idle))) (hdied : o ≠ .died) :
    (s.finish sessionDb t call (o, w)).Inv m₀ past := by
  have hopen : Session.Inv m₀ past { s with db := w } := by
    rw [Session.Inv, htxn]
    exact h
  cases o with
  | returned r => exact hopen.reply r
  | deadlock what =>
    have hclosed : Session.Inv m₀ past { s with txn := none, db := sessionDb.destroy t w } :=
      h.destroy (Or.inl rfl)
    exact hclosed.reply _
  | threw what => exact hopen.reply _
  | died => exact (hdied rfl).elim

/-- A call of `Get`, `Put` or `Delete` with its answer. -/
theorem call_inv {α : Type} {w : World} (htxn : s.txn = some t)
    (h : w.Inv m₀ past (some (t, .idle))) (name : String) (op : Op) (f : Res → α) (g : α → Response)
    (call : DbCall) :
    (s.finish sessionDb t call
      (Outcome.respond g (Prod.map (Outcome.map f) id (w.call name t op)))).Inv m₀ past := by
  obtain ⟨hinv, hdied⟩ := h.call name op
  generalize w.call name t op = r at hinv hdied
  obtain ⟨o, w'⟩ := r
  cases o with
  | returned a => exact finish_inv call htxn hinv nofun
  | deadlock what => exact finish_inv call htxn hinv nofun
  | threw what => exact finish_inv call htxn hinv nofun
  | died => exact absurd rfl hdied

theorem handleBegin_inv (h : s.Inv m₀ past) : (handleBegin sessionDb s).Inv m₀ past := by
  obtain ⟨input, output, txn, w⟩ := s
  unfold handleBegin
  cases txn with
  | some t => exact h.reply _
  | none =>
    dsimp only
    rcases World.Inv.begin h with ⟨t, w', hbegin, hopen⟩ | ⟨w', hbegin, hclosed⟩
    · rw [show sessionDb.begin w = (.returned t, w') from hbegin]
      exact ⟨hopen, nofun⟩
    · rw [show sessionDb.begin w = (.died, w') from hbegin]
      exact ⟨hclosed, fun _ => rfl⟩

theorem handleGet_inv (h : s.Inv m₀ past) (n : Nat) : (handleGet sessionDb n s).Inv m₀ past := by
  obtain ⟨input, output, txn, w⟩ := s
  unfold handleGet
  cases txn with
  | none => exact h.reply _
  | some t =>
    dsimp only
    split
    · exact h.unread _
    · exact call_inv rfl h _ _ _ _ _

theorem handlePut_inv (h : s.Inv m₀ past) (n : Nat) : (handlePut sessionDb n s).Inv m₀ past := by
  obtain ⟨input, output, txn, w⟩ := s
  unfold handlePut
  cases txn with
  | none => exact h.reply _
  | some t =>
    dsimp only
    split
    · exact h.unread _
    · split
      · exact h.unread _
      · exact call_inv rfl h _ _ _ _ _

theorem handleDelete_inv (h : s.Inv m₀ past) (n : Nat) :
    (handleDelete sessionDb n s).Inv m₀ past := by
  obtain ⟨input, output, txn, w⟩ := s
  unfold handleDelete
  cases txn with
  | none => exact h.reply _
  | some t =>
    dsimp only
    split
    · exact h.unread _
    · exact call_inv rfl h _ _ _ _ _

/-- The COMMIT message is among those that came. -/
theorem handleCommit_inv (h : s.Inv m₀ past) (hpast : (s.txn, OP_COMMIT) ∈ past) :
    (handleCommit sessionDb s).Inv m₀ past := by
  obtain ⟨input, output, txn, w⟩ := s
  unfold handleCommit
  cases txn with
  | none => exact h.reply _
  | some t =>
    obtain ⟨w', hcommit, hinv⟩ := World.Inv.commit h hpast
    dsimp only
    rw [show sessionDb.commit t w = (.returned (), w') from hcommit]
    exact ⟨hinv.destroy (Or.inr trivial), nofun⟩

theorem handleRollback_inv (h : s.Inv m₀ past) : (handleRollback sessionDb s).Inv m₀ past := by
  obtain ⟨input, output, txn, w⟩ := s
  unfold handleRollback
  cases txn with
  | none => exact h.reply _
  | some t =>
    obtain ⟨w', hrollback, hinv⟩ := World.Inv.rollback h
    dsimp only
    rw [show sessionDb.rollback t w = (.returned (), w') from hrollback]
    exact ⟨hinv.destroy (Or.inr trivial), nofun⟩

theorem dispatch_inv (opcode : UInt8) (n : Nat) (h : s.Inv m₀ past)
    (hpast : (s.txn, opcode) ∈ past) : (dispatch sessionDb opcode n s).Inv m₀ past := by
  unfold dispatch
  split
  · exact handleBegin_inv h
  split
  · exact handleGet_inv h n
  split
  · exact handlePut_inv h n
  split
  · exact handleDelete_inv h n
  split
  · next hcommit => exact handleCommit_inv h (hcommit ▸ hpast)
  split
  · exact handleRollback_inv h
  · exact h.reply _

/-- The client is gone: what was open is rolled back. -/
theorem disconnect_inv (h : s.Inv m₀ past) :
    (disconnect sessionDb s).db.Inv m₀ past none := by
  obtain ⟨input, output, txn, w⟩ := s
  unfold disconnect
  cases txn with
  | none => exact h
  | some t =>
    obtain ⟨w', hrollback, hinv⟩ := World.Inv.rollback h
    dsimp only
    rw [show sessionDb.rollback t w = (.returned (), w') from hrollback]
    exact hinv.destroy (Or.inr trivial)

end Handlers

/-! ## The loop -/

section Loop

variable {σ : Type} {db : Database σ}

theorem readExact_le {n : Nat} {input rest : Bytes} {o : Option Bytes}
    (h : readExact n input = (o, rest)) : rest.length ≤ input.length := by
  unfold readExact at h
  split at h
  · cases h
    rw [List.length_drop]
    exact Nat.sub_le _ _
  · cases h
    exact Nat.zero_le _

theorem readString_le {input rest : Bytes} {o : Option Bytes} (h : readString input = (o, rest)) :
    rest.length ≤ input.length := by
  unfold readString at h
  split at h
  · next hread =>
    cases h
    exact readExact_le hread
  · next hread => exact (readExact_le h).trans (readExact_le hread)

theorem finish_le (s : Session σ) {t : TxnId} {call : DbCall} {o : Outcome Response × σ} {n : Nat}
    (h : s.input.length ≤ n) : (s.finish db t call o).session.input.length ≤ n := by
  rw [(Session.finish_answers s t call o).input]
  exact h

theorem handleGet_le (n : Nat) (s : Session σ) :
    (handleGet db n s).session.input.length ≤ s.input.length := by
  unfold handleGet
  split
  · exact le_rfl
  · split
    · next hread => exact readString_le hread
    · next hread => exact finish_le _ (readString_le hread)

theorem handlePut_le (n : Nat) (s : Session σ) :
    (handlePut db n s).session.input.length ≤ s.input.length := by
  unfold handlePut
  split
  · exact le_rfl
  · split
    · next hread => exact readString_le hread
    · next hread =>
      split
      · next hread' => exact (readString_le hread').trans (readString_le hread)
      · next hread' => exact finish_le _ ((readString_le hread').trans (readString_le hread))

theorem handleDelete_le (n : Nat) (s : Session σ) :
    (handleDelete db n s).session.input.length ≤ s.input.length := by
  unfold handleDelete
  split
  · exact le_rfl
  · split
    · next hread => exact readString_le hread
    · next hread => exact finish_le _ (readString_le hread)

/-- No handler puts bytes back. -/
theorem dispatch_le (db : Database σ) (opcode : UInt8) (n : Nat) (s : Session σ) :
    (dispatch db opcode n s).session.input.length ≤ s.input.length := by
  unfold dispatch
  split
  · exact (congrArg List.length (handleBegin_answers s).input).le
  split
  · exact handleGet_le n s
  split
  · exact handlePut_le n s
  split
  · exact handleDelete_le n s
  split
  · exact (congrArg List.length (handleCommit_answers s).input).le
  split
  · exact (congrArg List.length (handleRollback_answers s).input).le
  · exact le_rfl

/-- A turn takes a header off the stream and goes to a handler. -/
theorem serve_eq_some {s : Session σ} {r : Round} {turn : Turn σ} (h : serve db s = some (r, turn)) :
    r.opened = s.txn.isSome ∧ r.sent = turn.sent ∧
      ∃ n rest, turn = dispatch db r.opcode n { s with input := rest } ∧
        rest.length < s.input.length := by
  unfold serve at h
  split at h
  · cases h
  · next opcode rest hread =>
    split at h
    · cases h
    · next len rest' hread' =>
      cases h
      refine ⟨rfl, rfl, _, rest', rfl, ?_⟩
      have hrest : rest.length < s.input.length := by
        unfold readExact at hread
        split at hread
        · next hone =>
          cases hread
          rw [List.length_drop]
          omega
        · cases hread
      exact (readExact_le hread').trans_lt hrest

end Loop

end KeyVDB
