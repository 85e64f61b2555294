import KeyVDB.Txn.Log

/-!
# Crashes

A process that dies leaves the two files as they were last written. The next `DB::Open` reads the
log, redoes it on the tree that the data file holds and takes the losers back. The results here say
what the keys then hold:

* a log can be replayed if and only if the tree accepted every `Put` of the run (`put_locked` logs
  before `insert` checks the size);
* the last write to a key, made by a transaction that committed, survives unless it put the empty
  value, which the log cannot tell from a `Delete`;
* a key that no committed transaction wrote gets its old value back, as long as an ABORT record is
  appended only when the data file holds the old values again.
-/

namespace KeyVDB

open RecoveryManager

/-- What holds in every state of a run whose `Put`s the tree accepted. -/
structure Fitting (m₀ : KV) (ts : Traced) (view : KV) : Prop where
  serial : Serial m₀ ts view
  logged : Logged ts
  recorded : Recorded ts

namespace Fitting

variable {m₀ view : KV} {ts ts' : Traced}

theorem opened (m₀ : KV) : Fitting m₀ (.opened m₀) m₀ :=
  ⟨Serial.opened m₀, Logged.opened m₀, Recorded.opened m₀⟩

theorem tstep (h : Fitting m₀ ts view) {a : Action} (hfit : PutFits ts a)
    (hs : tstep ts a = some ts') :
    ∃ view', Fitting m₀ ts' view' ∧ ∀ k,
      (∀ t ws, a = .appendCommit t → ts.sys.At t .idle ws → k ∉ ws) →
        view'.get k = view.get k := by
  obtain ⟨view', hser, hview⟩ := h.serial.tstep hs
  exact ⟨view', ⟨hser, h.logged.tstep h.serial.iso hs,
    h.recorded.tstep h.serial.iso hser.iso hfit hs⟩, hview⟩

theorem exists_tstep (ts : Traced) (a : Action) (ts' : Traced) (h : ∃ view, Fitting m₀ ts view)
    (hfit : PutFits ts a) (hs : KeyVDB.tstep ts a = some ts') : ∃ view, Fitting m₀ ts' view := by
  obtain ⟨view, h⟩ := h
  obtain ⟨view', h', -⟩ := h.tstep hfit hs
  exact ⟨view', h'⟩

theorem run {as : List Action} (hfit : Steps KeyVDB.tstep PutFits (.opened m₀) as)
    (h : run KeyVDB.tstep (.opened m₀) as = some ts) : ∃ view, Fitting m₀ ts view :=
  run_inv exists_tstep ⟨m₀, opened m₀⟩ hfit h

/-- Recovery succeeds on every data file, and its outcome under each key is known. -/
theorem recover (h : Fitting m₀ ts view) (tree : KV) :
    ∃ n m, recover ts.sys.wal.file tree = .ok (n, m) ∧
      ∀ k, m.get k = recovered ts.log k (tree.get k) := by
  rw [h.logged.file]
  obtain ⟨m, hm, hget⟩ := recover_encodeLog
    (fun r hr => ⟨h.logged.appended r hr, h.recorded.replayable r hr⟩) tree
  exact ⟨_, m, hm, hget⟩

end Fitting

/-! ## Failed writes and replayable logs -/

/-- A `Put` that throws changes neither the log, nor the write set, nor the tree. -/
def NoTrace (ts : Traced) : Action → Prop
  | .body t => ∀ k v ws, ts.sys.At t (.locked (.put k v)) ws →
      ∀ e, (putLocked ts.sys t ws k v).res = .threw e →
        (putLocked ts.sys t ws k v).wal = ts.sys.wal ∧
        (putLocked ts.sys t ws k v).writeSet = ws ∧
        (putLocked ts.sys t ws k v).tree = ts.sys.tree
  | _ => True

/-- Recovery does not throw, whatever the data file holds. -/
def Recoverable (ts : Traced) : Prop := ∀ tree, ∃ r, recover ts.sys.wal.file tree = .ok r

/-- The record of a failed `Put` is in the log, so a `Put` leaves no trace only if it fits. -/
theorem PutFits.of_noTrace {ts : Traced} {a : Action} (h : NoTrace ts a) : PutFits ts a := by
  cases a with
  | body t =>
    intro op ws hat
    cases op with
    | put k v =>
      by_contra hnf
      have hnf : ¬ Fits k v := hnf
      obtain ⟨hwal, -⟩ := h k v ws hat (tooLarge k v)
        (by simp only [putLocked, KV.insert_of_not_fits _ hnf])
      simp only [putLocked, KV.insert_of_not_fits _ hnf, LogManager.appendWrite,
        LogManager.appendRecordLocked] at hwal
      have hlen := congrArg (fun lm => lm.file.length) hwal
      simp only [List.length_append, WalRecord.length_toBytes, WalRecordHeader.SIZE] at hlen
      omega
    | _ => trivial
  | _ => trivial

theorem PutFits.noTrace {ts : Traced} {a : Action} (h : PutFits ts a) : NoTrace ts a := by
  cases a with
  | body t =>
    intro k v ws hat e he
    have hf : Fits k v := h (.put k v) ws hat
    simp only [putLocked, KV.insert_of_fits _ hf] at he
    cases he
  | _ => trivial

/-- Failed writes leave no trace, and every log can be replayed, in exactly the runs in which no
`Put` fails. -/
theorem noTrace_recoverable_iff (m₀ : KV) (as : List Action) :
    (Steps tstep NoTrace (.opened m₀) as ∧ Along tstep Recoverable (.opened m₀) as) ↔
      Steps tstep PutFits (.opened m₀) as := by
  constructor
  · rintro ⟨h, -⟩
    exact h.imp fun _ _ => PutFits.of_noTrace
  · intro h
    refine ⟨h.imp fun _ _ => PutFits.noTrace, ?_⟩
    refine along_of_inv Fitting.exists_tstep ?_ ⟨m₀, Fitting.opened m₀⟩ h
    rintro ts ⟨view, hi⟩ tree
    obtain ⟨n, m, hm, -⟩ := hi.recover tree
    exact ⟨(n, m), hm⟩

/-- The first `Put` that fails makes recovery throw from then on, as long as its lengths fit the
record header. -/
theorem Fitting.not_recoverable {m₀ view : KV} {ts ts' : Traced} (h : Fitting m₀ ts view)
    {t : TxnId} {k v : Bytes} {ws : WriteSet} (hat : ts.sys.At t (.locked (.put k v)) ws)
    (hnf : ¬ Fits k v) (hk : k.length < 2 ^ 32) (hv : v.length < 2 ^ 32) (hne : v ≠ [])
    (hs : KeyVDB.tstep ts (.body t) = some ts') : ¬ Recoverable ts' := by
  obtain ⟨view', hser, -⟩ := h.serial.tstep hs
  have hl' := h.logged.tstep h.serial.iso hs
  have he := bodyWrote_put ts.sys t ws k v
  have hts' := Option.some.inj (hs.symm.trans (tstep_body hat))
  have hentry : ts'.sys.At t .idle (ws.insert k (putEntry ts.sys ws k v)) := by
    rw [hts', Sys.At, Sys.setTxn_txns, if_pos rfl, he.writeSet]
    rfl
  have hlog : ts'.log =
      ts.log ++ [(ts.sys.wal.appendWrite t k (putEntry ts.sys ws k v).beforeExists
        (putEntry ts.sys ws k v).beforeVal v).1] := by
    rw [hts', he.records]
    rfl
  -- the before-image is a value of the view
  have hshort : (putEntry ts.sys ws k v).beforeExists = true →
      (putEntry ts.sys ws k v).beforeVal.length < 2 ^ 32 := by
    intro hb
    have hbefore := hser.iso.before hentry trivial (Finmap.lookup_insert _)
    rw [WriteEntry.before, if_pos hb] at hbefore
    exact (view'.fits hbefore.symm).value_length_lt
  have hall : ∀ r ∈ ts'.log, r.Appended ∧ r.Short := by
    intro r hr
    refine ⟨hl'.appended r hr, ?_⟩
    rw [hlog] at hr
    rcases List.mem_append.mp hr with hr | hr
    · exact (h.recorded.replayable r hr).short
    · rw [List.mem_singleton.mp hr]
      refine ⟨hk, ?_, hv⟩
      cases hb : (putEntry ts.sys ws k v).beforeExists with
      | false => simp [LogManager.appendWrite, LogManager.appendRecordLocked]
      | true => exact hshort hb
  have hab : t ∉ aborted ts'.log := by
    rw [hl'.aborted t, hentry.fate]
    exact fun h => by cases h
  intro hrec
  obtain ⟨r, hr⟩ := hrec .empty
  rw [hl'.file] at hr
  obtain ⟨err, herr⟩ := recover_throws hall
    (by rw [hlog]; exact List.mem_append_right _ (List.mem_singleton_self _)) rfl hab hne hnf .empty
  rw [herr] at hr
  cases hr

/-- A transaction puts a value of 5000 bytes: the `Put` throws with its record in the log, and
recovery throws on that record. -/
theorem put_too_large_leaves_trace :
    ¬ Steps tstep NoTrace (.opened .empty)
        [.begin, .lock 1 (.put [97] (List.replicate 5000 0)), .body 1] ∧
      ¬ Along tstep Recoverable (.opened .empty)
        [.begin, .lock 1 (.put [97] (List.replicate 5000 0)), .body 1] := by
  have hlocked : (run tstep (.opened .empty)
      [.begin, .lock 1 (.put [97] (List.replicate 5000 0))]).map (fun ts => ts.sys.txns 1) =
      some (some { stage := .locked (.put [97] (List.replicate 5000 0)), writeSet := ∅ }) := rfl
  obtain ⟨ts, hrun, hat⟩ := Option.map_eq_some_iff.mp hlocked
  have hnot : ¬ Fits [97] (List.replicate 5000 0) := by decide +kernel
  constructor
  · intro h
    exact hnot (PutFits.of_noTrace (Steps.at (l := []) h hrun) _ _ hat)
  · intro h
    have hfit : Steps tstep PutFits (.opened .empty)
        [.begin, .lock 1 (.put [97] (List.replicate 5000 0))] :=
      ⟨trivial, fun _ _ => ⟨trivial, fun _ _ => trivial⟩⟩
    obtain ⟨view, hf⟩ := Fitting.run hfit hrun
    have hbody := tstep_body hat
    refine hf.not_recoverable hat hnot (by decide) ?_ ?_ hbody (h.at (run_snoc hrun hbody))
    · rw [List.length_replicate]; decide
    · exact List.ne_nil_of_length_pos (by rw [List.length_replicate]; decide)

/-! ## Durability of committed writes -/

theorem eq_append_of_getLast?_filter {α : Type*} {p : α → Bool} {l : List α} {x : α}
    (h : (l.filter p).getLast? = some x) :
    ∃ pre post, l = pre ++ x :: post ∧ p x = true ∧ ∀ y ∈ post, p y = false := by
  obtain ⟨ys, hys⟩ := List.getLast?_eq_some_iff.mp h
  obtain ⟨l₁, l₂, rfl, -, h₂⟩ := List.filter_eq_append_iff.mp hys
  obtain ⟨pre, post, rfl, -, hx, hpost⟩ := List.filter_eq_cons_iff.mp h₂
  refine ⟨l₁ ++ pre, post, by simp, hx, fun y hy => ?_⟩
  simpa using List.filter_eq_nil_iff.mp hpost y hy

namespace Fitting

variable {m₀ view : KV} {ts : Traced}

/-- The last write to a key is the last WRITE record on it. -/
theorem exists_last_record (h : Fitting m₀ ts view) {k : Bytes} {t : TxnId} {op : Op}
    (hlast : lastWrite ts.events k = some (t, op)) :
    ∃ pre r post, ts.log = pre ++ r :: post ∧ r.type = .WRITE ∧ r.txnId = t ∧ r.key = k ∧
      r.afterVal = op.after ∧ ∀ q ∈ post, q.type = .WRITE → q.key ≠ k := by
  -- the same filter on both sides of `writes_eq`
  have heq := congrArg (fun l => (l.filter fun w => w.2.1 = k).getLast?) h.recorded.writes_eq
  simp only [List.filter_map, List.filter_filter, List.getLast?_map] at heq
  have hright : ((writesOf ts.events).filter
      ((fun w : TxnId × Bytes × Bytes => decide (w.2.1 = k)) ∘ fun w => (w.1, w.2.key, w.2.after))).getLast? =
        some (t, op) := hlast
  rw [hright] at heq
  obtain ⟨r, hr, hrt⟩ := Option.map_eq_some_iff.mp heq
  obtain ⟨pre, post, hlog, hp, hpost⟩ := eq_append_of_getLast?_filter hr
  simp only [Function.comp, Bool.and_eq_true, decide_eq_true_eq] at hp
  simp only [Prod.mk.injEq] at hrt
  refine ⟨pre, r, post, hlog, hp.2, hrt.1, hp.1, hrt.2.2, fun q hq hty hk => ?_⟩
  have := hpost q hq
  simp [hty, hk] at this

/-- A loser holds its locks. -/
theorem holding_of_loser (h : Fitting m₀ ts view) {t : TxnId} {k : Bytes}
    (hl : t ∈ analysis ts.log) (hw : ts.sys.Writes t k) :
    ∃ op, lastWrite ts.events k = some (t, op) := by
  obtain ⟨tx, htx, hk⟩ := hw
  have hfate : (ts.sys.txns t).map (fun tx => tx.stage.fate) = some .loser := (h.logged.losers t).mp hl
  rw [htx, Option.map_some, Option.some.injEq] at hfate
  have hst : tx.stage.Holding := by
    cases hs : tx.stage with
    | committed => rw [hs] at hfate; cases hfate
    | rolledBack => rw [hs] at hfate; cases hfate
    | _ => trivial
  exact h.recorded.last htx hst k hk

/-- After recovery, a key whose last write was made by a committed transaction has what the redo
pass makes of that write. -/
theorem recovered_committed (h : Fitting m₀ ts view) {t : TxnId} {op : Op} {k : Bytes}
    (hc : ts.sys.fate t = some .committed) (hlast : lastWrite ts.events k = some (t, op))
    (init : Option Bytes) :
    recovered ts.log k init = if op.after = [] then none else some op.after := by
  obtain ⟨pre, r, post, hlog, hty, hid, hk, hafter, hpost⟩ := h.exists_last_record hlast
  -- no loser wrote the key: it would hold its lock and have made the last write
  have hundo : ∀ v, some (k, v) ∉ ts.log.reverse.map fun r => undoEffect (analysis ts.log) r.wire := by
    intro v hv
    obtain ⟨q, hq, he⟩ := List.mem_map.mp hv
    obtain ⟨hqty, hql, hqk, -⟩ := undoEffect_eq_some he
    have hw : ts.sys.Writes q.txnId k :=
      (h.logged.writes q.txnId k).mp ⟨q, List.mem_reverse.mp hq, hqty, rfl, hqk⟩
    obtain ⟨op', hop'⟩ := h.holding_of_loser hql hw
    rw [hlast, Option.some.injEq, Prod.mk.injEq] at hop'
    have hl := (h.logged.losers q.txnId).mp hql
    rw [← hop'.1, hc] at hl
    cases hl
  have hab : t ∉ aborted ts.log := by
    rw [h.logged.aborted, hc]
    exact nofun
  have hafterpost : ∀ v, some (k, v) ∉ post.map fun r => redoEffect (aborted ts.log) r.wire := by
    intro v hv
    obtain ⟨q, hq, he⟩ := List.mem_map.mp hv
    obtain ⟨hqty, -, hqk⟩ := redoEffect_eq_some he
    exact hpost q hq hqty hqk
  have heff : redoEffect (aborted ts.log) r.wire =
      some (k, if op.after = [] then none else some op.after) := by
    simp [redoEffect, WalRecord.wire, hty, hid, hab, hk, hafter]
  rw [recovered, valueAfter_of_not hundo]
  nth_rewrite 2 [hlog]
  rw [List.map_append, valueAfter_append, List.map_cons, heff, ← List.singleton_append,
    valueAfter_append, valueAfter_of_not hafterpost]
  simp [valueAfter]

end Fitting

/-- **Durability.** In a run whose `Put`s all fit, after a crash at any point at which `Commit` of
`t` has returned: a key whose last write `op` was made by `t` holds what `op` gave it, if and only if
that is not the empty value. -/
theorem committed_write_recovered_iff (m₀ : KV) (as : List Action) (ts : Traced)
    (hrun : run tstep (.opened m₀) as = some ts) (hfit : Steps tstep PutFits (.opened m₀) as)
    (t : TxnId) (ws : WriteSet) (hc : ts.sys.At t .committed ws) (k : Bytes) (op : Op)
    (hlast : lastWrite ts.events k = some (t, op)) :
    (∃ n m, recover ts.sys.wal.file ts.sys.disk = .ok (n, m) ∧ m.get k = op.value) ↔
      op.value ≠ some [] := by
  obtain ⟨view, h⟩ := Fitting.run hfit hrun
  obtain ⟨n, m, hm, hget⟩ := h.recover ts.sys.disk
  have hk := (hget k).trans (h.recovered_committed hc.fate hlast _)
  have hiff : m.get k = op.value ↔ op.value ≠ some [] := by
    rw [hk, Op.after]
    cases op.value with
    | none => simp
    | some v => by_cases hv : v = [] <;> simp [hv]
  constructor
  · rintro ⟨n', m', hm', hval⟩
    rw [hm] at hm'
    cases hm'
    exact hiff.mp hval
  · intro hne
    exact ⟨n, m, hm, hiff.mpr hne⟩

/-- One transaction puts a value and commits. -/
theorem committed_write_recovered_put :
    ∃ ts, run tstep (.opened .empty)
        [.begin, .lock 1 (.put [97] [98]), .body 1, .appendCommit 1, .walFlush 1, .dataFlush 1,
          .releaseAll 1] = some ts ∧
      ∃ n m, recover ts.sys.wal.file ts.sys.disk = .ok (n, m) ∧ m.get [97] = some [98] := by
  have hend : ((run tstep (.opened .empty)
      [.begin, .lock 1 (.put [97] [98]), .body 1, .appendCommit 1, .walFlush 1, .dataFlush 1,
        .releaseAll 1]).map fun ts => ((ts.sys.txns 1).map (·.stage), lastWrite ts.events [97])) =
      some (some .committed, some (1, .put [97] [98])) := by decide
  obtain ⟨ts, hrun, hts⟩ := Option.map_eq_some_iff.mp hend
  simp only [Prod.mk.injEq] at hts
  obtain ⟨⟨st, ws⟩, htx, rfl⟩ := Option.map_eq_some_iff.mp hts.1
  refine ⟨ts, hrun, (committed_write_recovered_iff _ _ ts hrun ?_ 1 ws htx [97] _ hts.2).mpr
    (by decide)⟩
  refine steps_putFits (fun t op hop => ?_) nofun
  simp only [List.mem_cons, reduceCtorEq, Action.lock.injEq, List.not_mem_nil, or_false,
    false_or] at hop
  rw [hop.2]
  show Fits [97] [98]
  decide

/-- A committed `Put` of the empty value is gone after recovery. -/
theorem committed_empty_put_lost :
    ∃ ts ws, run tstep (.opened .empty)
        [.begin, .lock 1 (.put [97] []), .body 1, .appendCommit 1, .walFlush 1, .dataFlush 1,
          .releaseAll 1] = some ts ∧
      ts.sys.At 1 .committed ws ∧ lastWrite ts.events [97] = some (1, .put [97] []) ∧
      ¬ ∃ n m, recover ts.sys.wal.file ts.sys.disk = .ok (n, m) ∧ m.get [97] = some [] := by
  have hend : ((run tstep (.opened .empty)
      [.begin, .lock 1 (.put [97] []), .body 1, .appendCommit 1, .walFlush 1, .dataFlush 1,
        .releaseAll 1]).map fun ts => ((ts.sys.txns 1).map (·.stage), lastWrite ts.events [97],
          (recover ts.sys.wal.file ts.sys.disk).toOption.bind fun p => p.2.get [97])) =
      some (some .committed, some (1, .put [97] []), none) := by decide
  obtain ⟨ts, hrun, hts⟩ := Option.map_eq_some_iff.mp hend
  simp only [Prod.mk.injEq] at hts
  obtain ⟨⟨st, ws⟩, htx, rfl⟩ := Option.map_eq_some_iff.mp hts.1
  refine ⟨ts, ws, hrun, htx, hts.2.1, ?_⟩
  rintro ⟨n, m, hm, hval⟩
  have hnone := hts.2.2
  rw [hm] at hnone
  exact nomatch hnone.symm.trans hval

/-! ## Atomicity -/

/-- No transaction with a COMMIT record in the log wrote `k`. -/
def Traced.Uncommitted (ts : Traced) (k : Bytes) : Prop :=
  ∀ t op, .call t op .wrote ∈ ts.events → op.key = k →
    ∀ c ∈ ts.log, c.type = .COMMIT → c.txnId ≠ t

/-- After a crash in this state, every key that no committed transaction wrote has the value
it had when the log was last truncated. -/
def CrashAtomic (m₀ : KV) (ts : Traced) : Prop :=
  ∃ n m, recover ts.sys.wal.file ts.sys.disk = .ok (n, m) ∧
    ∀ k, ts.Uncommitted k → m.get k = m₀.get k

/-- The steps that keep crashes atomic: no `Put` fails, no transaction writes to a key that held the
empty value and has no committed writer, and an ABORT record is appended only when the data file
holds the old value of every key that the transaction wrote and that has no committed writer. -/
def AtomicStep (m₀ : KV) (ts : Traced) (a : Action) : Prop :=
  PutFits ts a ∧
    match a with
    | .body t => ∀ op ws, ts.sys.At t (.locked op) ws → op.mode = .EXCLUSIVE →
        ts.Uncommitted op.key → m₀.get op.key ≠ some []
    | .appendAbort t => ∀ ws, ts.sys.At t .undone ws → ∀ k ∈ ws, ts.Uncommitted k →
        ts.sys.disk.get k = m₀.get k
    | _ => True

/-- The before-image that a record carries. -/
def WalRecord.before (r : WalRecord) : Option Bytes :=
  if r.beforeExists then some r.beforeVal else none

theorem mem_writesOf {events : List Event} {t : TxnId} {op : Op} :
    (t, op) ∈ writesOf events ↔ .call t op .wrote ∈ events := by
  unfold writesOf
  rw [List.mem_filterMap]
  constructor
  · rintro ⟨e, he, h⟩
    split at h
    · cases h; exact he
    · cases h
  · intro h
    exact ⟨_, h, rfl⟩

theorem Traced.Uncommitted.of_tstep {ts ts' : Traced} {a : Action} (hs : tstep ts a = some ts')
    {k : Bytes} (h : ts'.Uncommitted k) : ts.Uncommitted k := by
  obtain ⟨-, hev, hlog⟩ := tstep_eq hs
  intro t op hop hk c hc
  exact h t op (hev ▸ List.mem_append_left _ hop) hk c (hlog ▸ List.mem_append_left _ hc)

/-- A write-out takes the value that the tree has. -/
theorem Step.disk_cases {s s' : Sys} {a : Action} (h : Step s a s') (k : Bytes) :
    s'.disk.get k = s.disk.get k ∨ s'.disk.get k = s.tree.get k := by
  cases h with
  | dataFlush hat => exact Or.inr rfl
  | evict k' =>
    simp only [KV.writeOut_get]
    split
    · exact Or.inr rfl
    · exact Or.inl rfl
  | _ => exact Or.inl rfl

theorem Step.appendAbort_inv {s s' : Sys} {t : TxnId} (h : Step s (.appendAbort t) s') :
    ∃ ws, s.At t .undone ws ∧ s'.disk = s.disk := by
  cases h with
  | appendAbort hat => exact ⟨_, hat, rfl⟩

namespace Fitting

variable {m₀ view : KV} {ts : Traced}

/-- In terms of write sets. -/
theorem uncommitted_iff (h : Fitting m₀ ts view) {k : Bytes} :
    ts.Uncommitted k ↔ ∀ t, ts.sys.Writes t k → ts.sys.fate t ≠ some .committed := by
  have hcom : ∀ t, (∀ c ∈ ts.log, c.type = .COMMIT → c.txnId ≠ t) ↔
      ts.sys.fate t ≠ some .committed := by
    intro t
    rw [ne_eq, ← h.logged.committed]
    simp
  have hwrote : ∀ t, (∃ op, .call t op .wrote ∈ ts.events ∧ op.key = k) ↔ ts.sys.Writes t k := by
    intro t
    rw [← h.logged.writes]
    have hmem : ∀ v, (t, k, v) ∈ (ts.log.filter fun r => r.type = .WRITE).map
          (fun r => (r.txnId, r.key, r.afterVal)) ↔
        (t, k, v) ∈ (writesOf ts.events).map fun w => (w.1, w.2.key, w.2.after) := by
      intro v
      rw [h.recorded.writes_eq]
    constructor
    · rintro ⟨op, hop, hk⟩
      have := (hmem op.after).mpr (List.mem_map.mpr ⟨(t, op), mem_writesOf.mpr hop, by rw [hk]⟩)
      obtain ⟨r, hr, he⟩ := List.mem_map.mp this
      simp only [List.mem_filter, decide_eq_true_eq] at hr
      simp only [Prod.mk.injEq] at he
      exact ⟨r, hr.1, hr.2, he.1, he.2.1⟩
    · rintro ⟨r, hr, hty, hid, hk⟩
      have := (hmem r.afterVal).mp (List.mem_map.mpr ⟨r, by simp [hr, hty], by rw [hid, hk]⟩)
      obtain ⟨⟨u, op⟩, hop, he⟩ := List.mem_map.mp this
      simp only [Prod.mk.injEq] at he
      obtain ⟨rfl, hk', -⟩ := he
      exact ⟨op, mem_writesOf.mp hop, hk'⟩
  constructor
  · intro hu t hw
    obtain ⟨op, hop, hk⟩ := (hwrote t).mpr hw
    exact (hcom t).mp (hu t op hop hk)
  · intro hu t op hop hk
    exact (hcom t).mpr (hu t ((hwrote t).mp ⟨op, hop, hk⟩))

theorem fate_of_live (h : Fitting m₀ ts view) {t : TxnId} {tx : Transaction}
    (ht : ts.sys.txns t = some tx) (hl : tx.stage.Live) : t ∈ analysis ts.log := by
  rw [h.logged.losers, Sys.fate, ht, Option.map_some]
  cases hs : tx.stage with
  | idle => rfl
  | locked op => rfl
  | _ => rw [hs] at hl; exact hl.elim

end Fitting

/-- The invariant of the runs whose crashes are atomic. -/
structure Atomic (m₀ : KV) (ts : Traced) (view : KV) : Prop where
  fitting : Fitting m₀ ts view
  view_eq : ∀ {k}, ts.Uncommitted k → view.get k = m₀.get k
  before_eq : ∀ r ∈ ts.log, r.type = .WRITE → ts.Uncommitted r.key →
    r.before = m₀.get r.key ∧ m₀.get r.key ≠ some []
  disk_eq : ∀ {k}, ts.Uncommitted k →
    (∃ t, t ∈ analysis ts.log ∧ ts.sys.Writes t k) ∨ ts.sys.disk.get k = m₀.get k

namespace Atomic

variable {m₀ view : KV} {ts ts' : Traced}

theorem opened (m₀ : KV) : Atomic m₀ (.opened m₀) m₀ where
  fitting := Fitting.opened m₀
  view_eq _ := rfl
  before_eq := nofun
  disk_eq _ := Or.inr rfl

/-- Without a loser on it, a key without a committed writer has its old value in the tree. -/
theorem tree_eq (h : Atomic m₀ ts view) {k : Bytes} (hu : ts.Uncommitted k)
    (hno : ¬ ∃ t, t ∈ analysis ts.log ∧ ts.sys.Writes t k) : ts.sys.tree.get k = m₀.get k := by
  rw [← h.view_eq hu]
  apply h.fitting.serial.iso.clean
  intro t tx ht hl hk
  exact hno ⟨t, h.fitting.fate_of_live ht hl, tx, ht, hk⟩

theorem crashAtomic (h : Atomic m₀ ts view) : CrashAtomic m₀ ts := by
  obtain ⟨n, m, hm, hget⟩ := h.fitting.recover ts.sys.disk
  refine ⟨n, m, hm, fun k hu => ?_⟩
  rw [hget k, recovered]
  have hl := h.fitting.logged
  by_cases hlos : ∃ t, t ∈ analysis ts.log ∧ ts.sys.Writes t k
  · -- every undo effect on the key restores the old value
    obtain ⟨t, ht, hw⟩ := hlos
    obtain ⟨r, hr, hty, hid, hk⟩ := (hl.writes t k).mpr hw
    have hconst : ∀ v, some (k, v) ∈ ts.log.reverse.map
        (fun r => undoEffect (analysis ts.log) r.wire) → v = m₀.get k := by
      intro v hv
      obtain ⟨q, hq, he⟩ := List.mem_map.mp hv
      obtain ⟨hqty, -, rfl, rfl⟩ := undoEffect_eq_some he
      have hq := List.mem_reverse.mp hq
      obtain ⟨hbefore, hne⟩ := h.before_eq q hq hqty hu
      unfold WalRecord.before at hbefore
      rw [← hbefore] at hne ⊢
      cases hb : q.beforeExists with
      | false => simp [(hl.appended q hq).before hb]
      | true =>
        have hval : q.beforeVal ≠ [] := by
          intro e
          simp [hb, e] at hne
        simp [List.length_pos_iff.mpr hval]
    refine valueAfter_of_const hconst ⟨if 0 < r.beforeVal.length then some r.beforeVal else none, ?_⟩ _
    refine List.mem_map.mpr ⟨r, List.mem_reverse.mpr hr, ?_⟩
    simp [undoEffect, WalRecord.wire, hty, hid, ht, hk]
  · -- every record on the key is aborted, so neither pass touches it
    have hfree : ∀ q ∈ ts.log, q.type = .WRITE → q.key = k →
        q.txnId ∉ analysis ts.log ∧ q.txnId ∈ aborted ts.log := by
      intro q hq hqty hqk
      have hw : ts.sys.Writes q.txnId k := (hl.writes q.txnId k).mp ⟨q, hq, hqty, rfl, hqk⟩
      have hnl : q.txnId ∉ analysis ts.log := fun hql => hlos ⟨q.txnId, hql, hw⟩
      refine ⟨hnl, ?_⟩
      have hnc := (h.fitting.uncommitted_iff.mp hu) q.txnId hw
      rw [hl.losers] at hnl
      rw [hl.aborted]
      obtain ⟨tx, htx, -⟩ := hw
      simp only [Sys.fate, htx, Option.map_some, ne_eq, Option.some.injEq] at hnl hnc ⊢
      cases hf : tx.stage.fate with
      | loser => exact (hnl hf).elim
      | committed => exact (hnc hf).elim
      | aborted => rfl
    rw [valueAfter_of_not, valueAfter_of_not]
    · exact (h.disk_eq hu).resolve_left hlos
    · intro v hv
      obtain ⟨q, hq, he⟩ := List.mem_map.mp hv
      obtain ⟨hqty, hqa, hqk⟩ := redoEffect_eq_some he
      exact hqa (hfree q hq hqty hqk).2
    · intro v hv
      obtain ⟨q, hq, he⟩ := List.mem_map.mp hv
      obtain ⟨hqty, hql, hqk, -⟩ := undoEffect_eq_some he
      exact (hfree q (List.mem_reverse.mp hq) hqty hqk).1 hql

/-- Write sets only grow. -/
theorem writes_mono (h : Logged ts) (h' : Logged ts') {a : Action} (hs : tstep ts a = some ts')
    {t : TxnId} {k : Bytes} (hw : ts.sys.Writes t k) : ts'.sys.Writes t k := by
  obtain ⟨-, -, hlog⟩ := tstep_eq hs
  obtain ⟨r, hr, hrec⟩ := (h.writes t k).mpr hw
  exact (h'.writes t k).mp ⟨r, hlog ▸ List.mem_append_left _ hr, hrec⟩

theorem tstep (h : Atomic m₀ ts view) {a : Action} (hC : AtomicStep m₀ ts a)
    (hs : tstep ts a = some ts') : ∃ view', Atomic m₀ ts' view' := by
  obtain ⟨view', hf', hview⟩ := h.fitting.tstep hC.1 hs
  obtain ⟨hstep, -, hlog⟩ := tstep_eq hs
  have hl := h.fitting.logged
  have hview_eq : ∀ {k}, ts'.Uncommitted k → view'.get k = m₀.get k := by
    intro k hu'
    rw [hview k ?_, h.view_eq (hu'.of_tstep hs)]
    -- a key that this commit writes has a committed writer now
    rintro t ws rfl hat hk
    have hw := writes_mono hl hf'.logged hs ((hat.writes_iff k).mpr hk)
    refine hf'.uncommitted_iff.mp hu' t hw ((hf'.logged.committed t).mp ?_)
    exact ⟨_, hlog ▸ List.mem_append_right _ List.mem_cons_self, rfl, rfl⟩
  refine ⟨view', hf', hview_eq, ?_, ?_⟩
  · intro r hr hty hu'
    have hu := hu'.of_tstep hs
    rw [hlog] at hr
    rcases List.mem_append.mp hr with hr | hr
    · exact h.before_eq r hr hty hu
    · obtain ⟨t, op, ws, e, rfl, hat, he, rfl⟩ := body_of_mem_recordOf hr hty
      have hts' := Option.some.inj (hs.symm.trans (tstep_body hat))
      have hentry : ts'.sys.At t .idle (ws.insert op.key e) := by
        rw [hts', Sys.At, Sys.setTxn_txns, if_pos rfl, he.writeSet]
      have hbefore := hf'.serial.iso.before hentry trivial (Finmap.lookup_insert _)
      have hrec : (ts.sys.wal.appendWrite t op.key e.beforeExists e.beforeVal op.after).1.before =
          e.before := by
        cases hb : e.beforeExists <;>
          simp [WalRecord.before, WriteEntry.before, LogManager.appendWrite,
            LogManager.appendRecordLocked, hb]
      exact ⟨hrec.trans (hbefore.trans (hview_eq hu')), hC.2 op ws hat he.mode hu⟩
  · intro k hu'
    have hu := hu'.of_tstep hs
    by_cases hlos : ∃ t, t ∈ analysis ts.log ∧ ts.sys.Writes t k
    · obtain ⟨t, ht, hw⟩ := hlos
      have hw' := writes_mono hl hf'.logged hs hw
      have hnc := hf'.uncommitted_iff.mp hu' t hw'
      obtain ⟨tx', htx', -⟩ := id hw'
      have hfate : ts'.sys.fate t = some tx'.stage.fate := by rw [Sys.fate, htx']; rfl
      cases hf : tx'.stage.fate with
      | loser => exact Or.inl ⟨t, (hf'.logged.losers t).mpr (hf ▸ hfate), hw'⟩
      | committed => exact (hnc (hf ▸ hfate)).elim
      | aborted =>
        -- the ABORT record is new, so this step appended it
        obtain ⟨c, hc, hcty, hcid⟩ := mem_aborted.mp ((hf'.logged.aborted t).mpr (hf ▸ hfate))
        rw [hlog] at hc
        rcases List.mem_append.mp hc with hc | hc
        · have hab := (hl.aborted t).mp (mem_aborted.mpr ⟨c, hc, hcty, hcid⟩)
          rw [(hl.losers t).mp ht] at hab
          cases hab
        · obtain rfl := appendAbort_of_mem_recordOf hc hcty
          subst hcid
          obtain ⟨ws, hat, hdisk⟩ := hstep.appendAbort_inv
          exact Or.inr (hdisk ▸ hC.2 ws hat k ((hat.writes_iff k).mp hw) hu)
    · right
      rcases hstep.disk_cases k with e | e
      · rw [e]; exact (h.disk_eq hu).resolve_left hlos
      · rw [e]; exact h.tree_eq hu hlos

end Atomic

/-- **Atomicity.** In every run whose steps are all atomic, a crash in any state is. -/
theorem crashAtomic_along (m₀ : KV) (as : List Action)
    (h : Steps tstep (AtomicStep m₀) (.opened m₀) as) :
    Along tstep (CrashAtomic m₀) (.opened m₀) as := by
  have hstep : ∀ ts a ts', (∃ view, Atomic m₀ ts view) → AtomicStep m₀ ts a →
      tstep ts a = some ts' → ∃ view, Atomic m₀ ts' view := by
    rintro ts a ts' ⟨view, hi⟩ hC hs
    exact hi.tstep hC hs
  refine along_of_inv hstep ?_ ⟨m₀, Atomic.opened m₀⟩ h
  rintro ts ⟨view, hi⟩
  exact hi.crashAtomic

/-- The write of a transaction in flight is evicted and flushed by another one's commit; the
process may die at any point up to the rollback. -/
theorem crashAtomic_along_in_flight :
    (run tstep (.opened .empty)
        [.begin, .begin, .lock 1 (.put [97] [1]), .body 1, .lock 2 (.put [98] [2]), .body 2,
          .evict [97], .appendCommit 2, .walFlush 2, .dataFlush 2, .undoAll 1 [[97]]]).isSome ∧
      Along tstep (CrashAtomic .empty) (.opened .empty)
        [.begin, .begin, .lock 1 (.put [97] [1]), .body 1, .lock 2 (.put [98] [2]), .body 2,
          .evict [97], .appendCommit 2, .walFlush 2, .dataFlush 2, .undoAll 1 [[97]]] := by
  refine ⟨by decide, crashAtomic_along _ _ (Steps.and ?_ (steps_of_mem ?_ _))⟩
  · refine steps_putFits (fun t op hop => ?_) nofun
    simp only [List.mem_cons, reduceCtorEq, Action.lock.injEq, List.not_mem_nil, or_false,
      false_or] at hop
    rcases hop with ⟨-, rfl⟩ | ⟨-, rfl⟩
    · show Fits [97] [1]
      decide
    · show Fits [98] [2]
      decide
  · intro ts a ha
    cases a with
    | body t => exact fun op ws _ _ _ => nofun
    | appendAbort t => simp at ha
    | _ => trivial

/-- The write of the first transaction reaches the data file with the second one's commit, and its
rollback does not: after the ABORT record nobody takes it back. -/
theorem aborted_write_survives_crash :
    ¬ Along tstep (CrashAtomic .empty) (.opened .empty)
      [.begin, .lock 1 (.put [97] [1]), .body 1, .begin, .appendCommit 2, .walFlush 2,
        .dataFlush 2, .undoAll 1 [[97]], .appendAbort 1] := by
  intro h
  have hend : ((run tstep (.opened .empty)
      [.begin, .lock 1 (.put [97] [1]), .body 1, .begin, .appendCommit 2, .walFlush 2,
        .dataFlush 2, .undoAll 1 [[97]], .appendAbort 1]).map fun ts =>
      (ts.events, (ts.log.filter fun r => r.type = .COMMIT).map WalRecord.txnId,
        (recover ts.sys.wal.file ts.sys.disk).toOption.bind fun p => p.2.get [97])) =
      some ([.call 1 (.put [97] [1]) .wrote, .commit 2], [2], some [1]) := by decide +kernel
  obtain ⟨ts, hrun, hts⟩ := Option.map_eq_some_iff.mp hend
  simp only [Prod.mk.injEq] at hts
  obtain ⟨hev, hcommits, hrec⟩ := hts
  obtain ⟨n, m, hm, hval⟩ := h.at hrun
  have hunc : ts.Uncommitted [97] := by
    intro t op hop hk c hc hty hct
    have hc2 : c.txnId ∈ [2] :=
      hcommits ▸ List.mem_map.mpr ⟨c, by simp [hc, hty], rfl⟩
    rw [hev] at hop
    simp only [List.mem_cons, Event.call.injEq, reduceCtorEq, List.not_mem_nil, or_false] at hop
    rw [hct, hop.1] at hc2
    exact absurd hc2 (by decide)
  rw [hm] at hrec
  exact nomatch hrec.symm.trans (hval [97] hunc)

end KeyVDB
