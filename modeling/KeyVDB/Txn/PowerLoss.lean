import KeyVDB.Txn.Exact

/-!
# Loss of power

When the machine goes down, the log file holds what its last fsync made durable and possibly some
of the records appended since. `Commit` returns only after its COMMIT record was fsynced, so
every such log is the log of an earlier state of the run in which all acknowledged transactions
had committed. What recovery makes of it is known from that state (`Exact`), whatever the data
file holds: the committed transactions of a prefix of the commit order that has every acknowledged
one, under all keys that the surviving log keeps.

A tail that is cut within a record is another matter: see `readAll_take_iff`.
-/

namespace KeyVDB

open RecoveryManager

/-- The fsync of the log in `Commit` has returned. -/
def Stage.Acknowledged : Stage → Prop
  | .synced => True
  | .flushed => True
  | .committed => True
  | _ => False

/-- The COMMIT record of `t` was fsynced. -/
def Traced.Acknowledged (ts : Traced) (t : TxnId) : Prop :=
  ∃ tx, ts.sys.txns t = some tx ∧ tx.stage.Acknowledged

/-- The ids of the COMMIT records of a log, in order. -/
def commitIds (log : List WalRecord) : List TxnId :=
  (log.filter fun r => r.type = .COMMIT).map WalRecord.txnId

theorem commitIds_append (log log' : List WalRecord) :
    commitIds (log ++ log') = commitIds log ++ commitIds log' := by
  simp [commitIds]

theorem mem_commitIds {log : List WalRecord} {t : TxnId} :
    t ∈ commitIds log ↔ ∃ c ∈ log, c.type = .COMMIT ∧ c.txnId = t := by
  simp [commitIds, and_assoc]

/-- A body logs no COMMIT record. -/
theorem commitIds_body (s : Sys) (t : TxnId) (ws : WriteSet) (op : Op) :
    commitIds (body s t ws op).records = [] := by
  rcases body_cases s t ws op with ⟨e, he⟩ | he
  · rw [he.records]
    rfl
  · rw [he.records]
    rfl

/-- The commit order is that of the COMMIT records. -/
theorem commitOrder_tstep {ts ts' : Traced} {a : Action}
    (h : commitOrder ts.events = commitIds ts.log) (hs : tstep ts a = some ts') :
    commitOrder ts'.events = commitIds ts'.log := by
  obtain ⟨-, hev, hlog⟩ := tstep_eq hs
  have hnew : commitOrder (eventOf ts.sys a) = commitIds (recordOf ts.sys a) := by
    cases a with
    | body t =>
      simp only [eventOf, recordOf]
      split
      · rw [commitIds_body]
        rfl
      · rfl
    | _ => rfl
  have happ : commitOrder (ts.events ++ eventOf ts.sys a) =
      commitOrder ts.events ++ commitOrder (eventOf ts.sys a) := List.filterMap_append
  rw [hev, hlog, happ, commitIds_append, h, hnew]

/-- What the durable part of the log says. -/
structure Durable (ts : Traced) : Prop where
  order : commitOrder ts.events = commitIds ts.log
  durable : ∃ d, ts.sys.walDurable = encodeLog d ∧ d <+: ts.log ∧
    ∀ t, ts.Acknowledged t → t ∈ commitIds d

namespace Durable

variable {ts ts' : Traced}

theorem opened (m : KV) : Durable (.opened m) where
  order := rfl
  durable := by
    refine ⟨[], rfl, List.prefix_refl _, ?_⟩
    rintro t ⟨tx, htx, -⟩
    cases htx

/-- Steps that fsync nothing, and after which the same transactions are acknowledged. -/
theorem keep (h : Durable ts) {a : Action} (hs : KeyVDB.tstep ts a = some ts')
    (hwal : ts'.sys.walDurable = ts.sys.walDurable)
    (hack : ∀ t, ts'.Acknowledged t → ts.Acknowledged t) : Durable ts' := by
  obtain ⟨-, -, hlog⟩ := tstep_eq hs
  obtain ⟨d, hd, hpre, hall⟩ := h.durable
  refine ⟨commitOrder_tstep h.order hs, d, hwal.trans hd, ?_, fun t ht => hall t (hack t ht)⟩
  rw [hlog]
  exact hpre.trans (List.prefix_append _ _)

/-- A transaction that moves to `st'` is acknowledged after only if it was so before. -/
theorem ack_setTxn {s s₁ : Sys} {events events' : List Event} {log log' : List WalRecord}
    {t : TxnId} {st st' : Stage} {ws ws' : WriteSet} (hat : s.At t st ws)
    (htxns : s₁.txns = s.txns) (hst : st'.Acknowledged → st.Acknowledged) (u : TxnId)
    (h : Traced.Acknowledged ⟨s₁.setTxn t st' ws', events', log'⟩ u) :
    Traced.Acknowledged ⟨s, events, log⟩ u := by
  obtain ⟨ux, hux, hack⟩ := h
  rcases Sys.setTxn_cases hux with ⟨rfl, rfl⟩ | ⟨-, hux⟩
  · exact ⟨_, hat, hst hack⟩
  · exact ⟨ux, htxns ▸ hux, hack⟩

theorem tstep (h : Durable ts) (hl : Logged ts) {a : Action} (hs : KeyVDB.tstep ts a = some ts') :
    Durable ts' := by
  obtain ⟨hstep, -, hlog⟩ := tstep_eq hs
  obtain ⟨s, events, log⟩ := ts
  obtain ⟨s', events', log'⟩ := ts'
  dsimp only at hstep hlog
  cases hstep with
  | begin hid =>
    refine h.keep hs rfl ?_
    rintro t ⟨tx, htx, hack⟩
    simp only [Function.update_apply] at htx
    split at htx
    · cases htx
      exact hack.elim
    · exact ⟨tx, htx, hack⟩
  | lock hat hlock => exact h.keep hs rfl (ack_setTxn hat rfl fun e => e.elim)
  | timeout hat => exact h.keep hs rfl fun _ e => e
  | body hat => exact h.keep hs rfl (ack_setTxn hat rfl fun e => e.elim)
  | appendCommit hat => exact h.keep hs rfl (ack_setTxn hat rfl fun e => e.elim)
  | @walFlush t ws hat =>
    -- the whole log is durable now, with the COMMIT records of all who have one
    have hlog : log' = log := by simpa [recordOf] using hlog
    refine ⟨commitOrder_tstep h.order hs, log, hl.file, hlog ▸ List.prefix_refl _, ?_⟩
    rintro u ⟨ux, hux, hack⟩
    rw [mem_commitIds, hl.committed u]
    rcases Sys.setTxn_cases hux with ⟨rfl, -⟩ | ⟨-, hux⟩
    · exact hat.fate
    · rw [Sys.fate, hux, Option.map_some]
      cases hst : ux.stage with
      | synced => rfl
      | flushed => rfl
      | committed => rfl
      | _ => rw [hst] at hack; exact hack.elim
  | dataFlush hat => exact h.keep hs rfl (ack_setTxn hat rfl fun _ => trivial)
  | undoAll hat hnd hkeys hok => exact h.keep hs rfl (ack_setTxn hat rfl fun e => e.elim)
  | undoThrows hat hnd hkeys herr => exact h.keep hs rfl (ack_setTxn hat rfl fun e => e.elim)
  | appendAbort hat => exact h.keep hs rfl (ack_setTxn hat rfl fun e => e.elim)
  | releaseCommit hat => exact h.keep hs rfl (ack_setTxn hat rfl fun _ => trivial)
  | releaseAbort hat => exact h.keep hs rfl (ack_setTxn hat rfl fun e => e.elim)
  | evict k => exact h.keep hs rfl fun _ e => e
  | dataFsync => exact h.keep hs rfl fun _ e => e

theorem run {m₀ : KV} {as : List Action} (hfit : Steps KeyVDB.tstep PutFits (.opened m₀) as)
    (h : run KeyVDB.tstep (.opened m₀) as = some ts) : Durable ts := by
  have hstep : ∀ ts a ts', (Durable ts ∧ ∃ view, Fitting m₀ ts view) → PutFits ts a →
      KeyVDB.tstep ts a = some ts' → Durable ts' ∧ ∃ view, Fitting m₀ ts' view := by
    intro ts a ts' hts hfit hs
    obtain ⟨hd, view, hf⟩ := hts
    exact ⟨hd.tstep hf.logged hs, Fitting.exists_tstep ts a ts' ⟨view, hf⟩ hfit hs⟩
  exact (run_inv hstep ⟨opened m₀, m₀, Fitting.opened m₀⟩ hfit h).1

end Durable

/-! ## The states of a run by their logs -/

/-- A step appends at most one record. -/
theorem length_recordOf (s : Sys) (a : Action) : (recordOf s a).length ≤ 1 := by
  cases a with
  | body t =>
    simp only [recordOf]
    split
    · next op ws hat =>
      rcases body_cases s t ws op with ⟨e, he⟩ | he
      · rw [he.records]
        exact le_refl _
      · rw [he.records]
        exact Nat.zero_le _
    · exact Nat.zero_le _
  | _ => simp [recordOf]

/-- Histories only grow. -/
theorem history_grows {ts ts' : Traced} {as : List Action} (h : run tstep ts as = some ts') :
    ts.log <+: ts'.log ∧ ts.events <+: ts'.events := by
  have hstep : ∀ ts₁ a ts₂, (ts.log <+: ts₁.log ∧ ts.events <+: ts₁.events) → True →
      tstep ts₁ a = some ts₂ → ts.log <+: ts₂.log ∧ ts.events <+: ts₂.events := by
    intro ts₁ a ts₂ hpre _ hs
    obtain ⟨-, hev, hlog⟩ := tstep_eq hs
    rw [hev, hlog]
    exact ⟨hpre.1.trans (List.prefix_append _ _), hpre.2.trans (List.prefix_append _ _)⟩
  exact run_inv hstep ⟨List.prefix_refl _, List.prefix_refl _⟩
    (steps_of_forall (fun _ _ => trivial) _ _) h

/-- Every prefix of the log is the log of an earlier state of the run. -/
theorem exists_state_of_take {start ts : Traced} {as : List Action} {n : Nat}
    (h : run tstep start as = some ts) (hlow : start.log.length ≤ n) (hn : n ≤ ts.log.length) :
    ∃ as₀ ts₀ as₁, as = as₀ ++ as₁ ∧ run tstep start as₀ = some ts₀ ∧
      run tstep ts₀ as₁ = some ts ∧ ts₀.log = ts.log.take n := by
  induction as generalizing start with
  | nil =>
    obtain rfl : start = ts := Option.some.inj h
    have heq : n = start.log.length := le_antisymm hn hlow
    exact ⟨[], start, [], rfl, rfl, rfl, by rw [heq, List.take_length]⟩
  | cons a as ih =>
    obtain ⟨next, hs, hrun⟩ := run_cons h
    obtain ⟨-, -, hlog⟩ := tstep_eq hs
    rcases Nat.lt_or_ge n next.log.length with hlt | hge
    · -- the prefix ends before the record of this step
      have hlen : next.log.length ≤ start.log.length + 1 := by
        rw [hlog, List.length_append]
        exact Nat.add_le_add_left (length_recordOf _ _) _
      have heq : n = start.log.length := by omega
      refine ⟨[], start, a :: as, rfl, rfl, h, ?_⟩
      rw [heq]
      exact List.prefix_iff_eq_take.mp (history_grows h).1
    · obtain ⟨as₀, ts₀, as₁, rfl, hrun₀, hrun₁, htake⟩ := ih hrun hge
      refine ⟨a :: as₀, ts₀, as₁, rfl, ?_, hrun₁, htake⟩
      simp only [run, hs, Option.bind_some, hrun₀]

/-- Of two prefixes of a log, the one with the longer file has all the records of the other. -/
theorem prefix_of_length_encodeLog_le {d log : List WalRecord} {n : Nat} (hd : d <+: log)
    (hlen : (encodeLog d).length ≤ (encodeLog (log.take n)).length) : d <+: log.take n := by
  rcases List.prefix_or_prefix_of_prefix hd (List.take_prefix n log) with h | h
  · exact h
  · obtain ⟨rest, rfl⟩ := h
    -- records take space, so there are none beyond
    have hrest := length_le_encodeLog rest
    rw [encodeLog_append, List.length_append] at hlen
    have hnil : rest = [] := List.length_eq_zero_iff.mp (by omega)
    rw [hnil, List.append_nil]

/-- **Loss of power.** In a run whose `Put`s all fit, the durable log is a prefix of the log in whole
records. Whichever prefix survives that has at least this much, it is the log of an earlier state of
the run, in which every acknowledged transaction had committed; and recovery from it, on any data
file, gives every key that this log keeps the value of that state's committed transactions. -/
theorem power_loss (m₀ : KV) (as : List Action) (ts : Traced)
    (hrun : run tstep (.opened m₀) as = some ts) (hfit : Steps tstep PutFits (.opened m₀) as) :
    (∃ n ≤ ts.log.length, ts.sys.walDurable = encodeLog (ts.log.take n)) ∧
    ∀ n ≤ ts.log.length, ts.sys.walDurable.length ≤ (encodeLog (ts.log.take n)).length →
      ∃ as₀ ts₀, as₀ <+: as ∧ run tstep (.opened m₀) as₀ = some ts₀ ∧ ts₀.log = ts.log.take n ∧
        commitOrder ts₀.events <+: commitOrder ts.events ∧
        (∀ t, ts.Acknowledged t → t ∈ commitOrder ts₀.events) ∧
        ∀ disk, ∃ losers m, recover (encodeLog (ts.log.take n)) disk = .ok (losers, m) ∧
          (∀ k, ts₀.Kept k → m.get k = logImage ((ts₀.committedMap m₀).get k)) ∧
          ∀ k, ¬ ts₀.Kept k → m.get k = disk.get k := by
  obtain ⟨d, hd, hpre, hack⟩ := (Durable.run hfit hrun).durable
  constructor
  · refine ⟨d.length, hpre.length_le, ?_⟩
    rw [hd, ← List.prefix_iff_eq_take.mp hpre]
  · intro n hn hlen
    rw [hd] at hlen
    have hdn := prefix_of_length_encodeLog_le hpre hlen
    obtain ⟨as₀, ts₀, as₁, rfl, hrun₀, hrun₁, htake⟩ := exists_state_of_take hrun (Nat.zero_le n) hn
    have hfit₀ := hfit.of_append
    obtain ⟨view, hexact⟩ := Exact.run hfit₀ hrun₀
    have horder := (Durable.run hfit₀ hrun₀).order
    refine ⟨as₀, ts₀, List.prefix_append _ _, hrun₀, htake, ?_, ?_, ?_⟩
    · exact (history_grows hrun₁).2.filterMap _
    · intro t ht
      rw [horder, htake]
      obtain ⟨rest, hrest⟩ := hdn
      rw [← hrest, commitIds_append]
      exact List.mem_append_left _ (hack t ht)
    · intro disk
      obtain ⟨losers, m, hm, hget⟩ := hexact.fitting.recover disk
      rw [hexact.fitting.logged.file, htake] at hm
      refine ⟨losers, m, hm, ?_, ?_⟩
      · intro k hkept
        rw [hget, hexact.recovered_eq, if_pos hkept, hexact.committedMap_eq]
      · intro k hno
        rw [hget, hexact.recovered_eq, if_neg hno]

/-- The power fails after the fsync of a commit, before any page was written: the log alone has the
transaction. -/
theorem power_loss_unflushed :
    ∃ ts, run tstep (.opened .empty)
        [.begin, .lock 1 (.put [97] [1]), .body 1, .appendCommit 1, .walFlush 1] = some ts ∧
      ts.sys.diskDurable.get [97] = none ∧
      ∃ as₀ ts₀ losers m, run tstep (.opened .empty) as₀ = some ts₀ ∧
        1 ∈ commitOrder ts₀.events ∧
        recover ts.sys.walDurable ts.sys.diskDurable = .ok (losers, m) := by
  have hend : ((run tstep (.opened .empty)
      [.begin, .lock 1 (.put [97] [1]), .body 1, .appendCommit 1, .walFlush 1]).map fun ts =>
      (ts.sys.diskDurable.get [97], (ts.sys.txns 1).map Transaction.stage)) =
      some (none, some .synced) := by
    decide +kernel
  obtain ⟨ts, hrun, hts⟩ := Option.map_eq_some_iff.mp hend
  simp only [Prod.mk.injEq] at hts
  obtain ⟨hdisk, htx⟩ := hts
  obtain ⟨tx, htx, hstage⟩ := Option.map_eq_some_iff.mp htx
  have hacked : ts.Acknowledged 1 := ⟨tx, htx, by rw [hstage]; trivial⟩
  have hfit : Steps tstep PutFits (.opened .empty)
      [.begin, .lock 1 (.put [97] [1]), .body 1, .appendCommit 1, .walFlush 1] := by
    refine steps_putFits (fun t op hop => ?_) fun t op ws hat => by cases hat
    simp only [List.mem_cons, reduceCtorEq, Action.lock.injEq, List.not_mem_nil, or_false,
      false_or] at hop
    rw [hop.2]
    show Fits [97] [1]
    decide
  obtain ⟨⟨n, hn, hwal⟩, hall⟩ := power_loss .empty _ ts hrun hfit
  obtain ⟨as₀, ts₀, -, hrun₀, -, -, hack, hrec⟩ := hall n hn (by rw [hwal])
  obtain ⟨losers, m, hm, -⟩ := hrec ts.sys.diskDurable
  rw [← hwal] at hm
  exact ⟨ts, hrun, hdisk, as₀, ts₀, losers, m, hrun₀, hack 1 hacked, hm⟩

end KeyVDB
