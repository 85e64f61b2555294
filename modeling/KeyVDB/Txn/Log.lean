import KeyVDB.Txn.Isolation

/-!
# The log of a run

What the records of the log say about the transactions of the run that wrote it: a transaction is a
loser, committed or aborted in the log exactly as its stage says, with one end record if it is not a
loser, the WRITE records are those of the write sets, and, as long as the tree accepts every `Put`,
they are the writes of the run in their order. A transaction that still holds its locks made the last
write to each key of its write set.
-/

namespace KeyVDB

open RecoveryManager

/-- How the log classifies a transaction. -/
inductive Fate
  | loser
  | committed
  | aborted
  deriving DecidableEq

/-- The fate of a transaction after a record of it. -/
def Fate.after (ty : WalRecordType) (fate : Option Fate) : Option Fate :=
  match ty with
  | .BEGIN => some .loser
  | .COMMIT => some .committed
  | .ABORT => some .aborted
  | _ => fate

def Stage.fate : Stage → Fate
  | .committing => .committed
  | .synced => .committed
  | .flushed => .committed
  | .committed => .committed
  | .aborted => .aborted
  | .rolledBack => .aborted
  | _ => .loser

namespace Sys

def fate (s : Sys) (t : TxnId) : Option Fate := (s.txns t).map fun tx => tx.stage.fate

/-- `k` is in the write set of `t`. -/
def Writes (s : Sys) (t : TxnId) (k : Bytes) : Prop := ∃ tx, s.txns t = some tx ∧ k ∈ tx.writeSet

theorem fate_setTxn (s : Sys) (t : TxnId) (st : Stage) (ws : WriteSet) (u : TxnId) :
    (s.setTxn t st ws).fate u = if u = t then some st.fate else s.fate u := by
  simp only [fate, setTxn_txns]
  split <;> rfl

theorem writes_setTxn (s : Sys) (t : TxnId) (st : Stage) (ws : WriteSet) (u : TxnId) (k : Bytes) :
    (s.setTxn t st ws).Writes u k ↔ if u = t then k ∈ ws else s.Writes u k := by
  unfold Writes
  simp only [setTxn_txns]
  split
  · exact ⟨fun ⟨tx, h, hk⟩ => by cases h; exact hk, fun hk => ⟨_, rfl, hk⟩⟩
  · exact Iff.rfl

theorem At.writes_iff {s : Sys} {t : TxnId} {st : Stage} {ws : WriteSet} (h : s.At t st ws)
    (k : Bytes) : s.Writes t k ↔ k ∈ ws := by
  have h : s.txns t = some { stage := st, writeSet := ws } := h
  unfold Writes
  rw [h]
  exact ⟨fun ⟨tx, e, hk⟩ => by cases e; exact hk, fun hk => ⟨_, rfl, hk⟩⟩

theorem At.fate {s : Sys} {t : TxnId} {st : Stage} {ws : WriteSet} (h : s.At t st ws) :
    s.fate t = some st.fate := by
  have h : s.txns t = some { stage := st, writeSet := ws } := h
  rw [Sys.fate, h]
  rfl

/-- A step of one transaction that keeps its fate and its write set keeps everybody's. -/
theorem At.fate_setTxn {s s₁ : Sys} {t : TxnId} {st st' : Stage} {ws : WriteSet} (h : s.At t st ws)
    (htxns : s₁.txns = s.txns) (hfate : st'.fate = st.fate) :
    (s₁.setTxn t st' ws).fate = s.fate := by
  funext u
  rw [Sys.fate_setTxn]
  split
  · next e => rw [e, h.fate, hfate]
  · rw [Sys.fate, htxns]; rfl

theorem At.writes_setTxn {s s₁ : Sys} {t : TxnId} {st st' : Stage} {ws : WriteSet}
    (h : s.At t st ws) (htxns : s₁.txns = s.txns) (u : TxnId) (k : Bytes) :
    (s₁.setTxn t st' ws).Writes u k ↔ s.Writes u k := by
  rw [Sys.writes_setTxn]
  split
  · next e => rw [e, h.writes_iff]
  · rw [Writes, htxns]; rfl

end Sys

/-! ## Records against stages -/

/-- The log as a file and as a statement about the transactions. -/
structure Logged (ts : Traced) : Prop where
  file : ts.sys.wal.file = encodeLog ts.log
  appended : ∀ r ∈ ts.log, r.Appended
  losers : ∀ t, t ∈ analysis ts.log ↔ ts.sys.fate t = some .loser
  aborted : ∀ t, t ∈ RecoveryManager.aborted ts.log ↔ ts.sys.fate t = some .aborted
  committed : ∀ t, (∃ c ∈ ts.log, c.type = .COMMIT ∧ c.txnId = t) ↔
    ts.sys.fate t = some .committed
  writes : ∀ t k, (∃ r ∈ ts.log, r.type = .WRITE ∧ r.txnId = t ∧ r.key = k) ↔ ts.sys.Writes t k

namespace Logged

variable {ts ts' : Traced}

theorem opened (m : KV) : Logged (.opened m) where
  file := rfl
  appended := nofun
  losers t := by simp [Traced.opened, analysis, Sys.fate, Sys.opened]
  aborted t := by simp [Traced.opened, RecoveryManager.aborted, Sys.fate, Sys.opened]
  committed t := by simp [Traced.opened, Sys.fate, Sys.opened]
  writes t k := by simp [Traced.opened, Sys.Writes, Sys.opened]

/-- Steps that append nothing. -/
theorem silent (h : Logged ts) (hlog : ts'.log = ts.log)
    (hfile : ts'.sys.wal.file = ts.sys.wal.file) (hfate : ts'.sys.fate = ts.sys.fate)
    (hw : ∀ t k, ts'.sys.Writes t k ↔ ts.sys.Writes t k) : Logged ts' where
  file := by rw [hfile, hlog]; exact h.file
  appended := by rw [hlog]; exact h.appended
  losers t := by rw [hlog, hfate]; exact h.losers t
  aborted t := by rw [hlog, hfate]; exact h.aborted t
  committed t := by rw [hlog, hfate]; exact h.committed t
  writes t k := by rw [hlog, hw]; exact h.writes t k

theorem exists_record_append {log : List WalRecord} {r : WalRecord} {ty : WalRecordType}
    {t : TxnId} : (∃ q ∈ log ++ [r], q.type = ty ∧ q.txnId = t) ↔
      (∃ q ∈ log, q.type = ty ∧ q.txnId = t) ∨ (r.type = ty ∧ r.txnId = t) := by
  simp [or_and_right, exists_or]

/-- Steps that append one record, of type `ty` and of the transaction `u`. -/
theorem append (h : Logged ts) {r : WalRecord} (ty : WalRecordType) (u : TxnId)
    (hty : r.type = ty) (hid : r.txnId = u) (hlog : ts'.log = ts.log ++ [r])
    (hfile : ts'.sys.wal.file = ts.sys.wal.file ++ r.toBytes) (happ : r.Appended)
    (hfate : ∀ t, ts'.sys.fate t =
      if t = u then Fate.after ty (ts.sys.fate t) else ts.sys.fate t)
    (hbegin : ty = .BEGIN → ts.sys.fate u = none)
    (hend : ty = .COMMIT ∨ ty = .ABORT → ts.sys.fate u = some .loser)
    (hw : ∀ t k, ts'.sys.Writes t k ↔
      ts.sys.Writes t k ∨ (ty = .WRITE ∧ u = t ∧ r.key = k)) : Logged ts' where
  file := by rw [hfile, hlog, h.file, encodeLog_append]; simp
  appended := by
    rw [hlog]
    intro q hq
    rcases List.mem_append.mp hq with hq | hq
    · exact h.appended q hq
    · rw [List.mem_singleton.mp hq]; exact happ
  losers t := by
    have hold := h.losers t
    rw [hlog, analysis_append, hfate, hty, hid]
    by_cases e : t = u
    · subst e
      cases ty <;> simp [hold, Fate.after]
    · cases ty <;> simp [e, hold]
  aborted t := by
    have hold := h.aborted t
    rw [mem_aborted] at hold ⊢
    rw [hlog, exists_record_append, hold, hfate, hty, hid]
    by_cases e : t = u
    · subst e
      cases ty with
      | BEGIN => simp [hbegin rfl, Fate.after]
      | COMMIT => simp [hend (Or.inl rfl), Fate.after]
      | _ => simp [Fate.after]
    · have e' : ¬ u = t := fun h => e h.symm
      simp [e, e']
  committed t := by
    have hold := h.committed t
    rw [hlog, exists_record_append, hold, hfate, hty, hid]
    by_cases e : t = u
    · subst e
      cases ty with
      | BEGIN => simp [hbegin rfl, Fate.after]
      | ABORT => simp [hend (Or.inr rfl), Fate.after]
      | _ => simp [Fate.after]
    · have e' : ¬ u = t := fun h => e h.symm
      simp [e, e']
  writes t k := by
    rw [hw, ← h.writes, hlog]
    simp [or_and_right, exists_or, hty, hid]

theorem tstep {hist : TxnId → List (Op × Res)} {view : KV} (h : Logged ts)
    (hi : Iso ts.sys hist view) {a : Action} (hs : tstep ts a = some ts') : Logged ts' := by
  obtain ⟨hstep, -, hlog⟩ := tstep_eq hs
  obtain ⟨s, events, log⟩ := ts
  obtain ⟨s', events', log'⟩ := ts'
  simp only at hstep hlog hi
  cases hstep with
  | begin hid =>
    have hnew : s.txns s.wal.nextTxnId = none := hi.fresh_next
    refine h.append .BEGIN s.wal.nextTxnId rfl rfl hlog rfl
      (LogManager.exec_appended s.wal .beginTxn) ?_ (fun _ => by simp [Sys.fate, hnew])
      (by rintro (h | h) <;> cases h) ?_
    · intro t
      simp only [Sys.fate, Function.update_apply]
      by_cases e : t = s.wal.nextTxnId <;> simp [e, Stage.fate, Fate.after]
    · intro t k
      simp only [Sys.Writes, Function.update_apply]
      by_cases e : t = s.wal.nextTxnId
      · subst e
        simp only [↓reduceIte, hnew, reduceCtorEq, false_and, exists_false, or_false, iff_false]
        rintro ⟨tx, h1, h2⟩
        cases h1
        exact Finmap.notMem_empty h2
      · simp [e]
  | lock hat hl =>
    exact h.silent (by simpa [recordOf] using hlog) rfl (hat.fate_setTxn rfl rfl)
      (hat.writes_setTxn rfl)
  | timeout hat =>
    exact h.silent (by simpa [recordOf] using hlog) rfl rfl fun _ _ => Iff.rfl
  | @body t op ws hat =>
    have hat' : s.txns t = some _ := hat
    have hlog : log' = log ++ (KeyVDB.body s t ws op).records := by
      rw [hlog, recordOf, hat']
    rcases body_cases s t ws op with ⟨e, he⟩ | he
    · rw [he.records] at hlog
      refine h.append .WRITE t rfl rfl hlog (by rw [Sys.setTxn, he.wal]; rfl)
        (LogManager.exec_appended s.wal (.appendWrite t op.key e.beforeExists e.beforeVal op.after))
        ?_ (fun h => by cases h) (by rintro (h | h) <;> cases h) ?_
      · intro u
        rw [Sys.fate_setTxn]
        by_cases e : u = t
        · rw [if_pos e, if_pos e, e]; exact hat.fate.symm
        · rw [if_neg e, if_neg e]; rfl
      · intro u k
        rw [Sys.writes_setTxn, he.writeSet]
        by_cases e : u = t
        · subst e
          have hkey : k = op.key ↔ op.key = k := ⟨Eq.symm, Eq.symm⟩
          rw [if_pos rfl, Finmap.mem_insert, hat.writes_iff, hkey, or_comm]
          exact or_congr_right ⟨fun h => ⟨rfl, rfl, h⟩, fun h => h.2.2⟩
        · rw [if_neg e]
          exact ⟨Or.inl, fun h => h.elim id fun h => (e h.2.1.symm).elim⟩
    · rw [he.records, List.append_nil] at hlog
      refine h.silent hlog (by rw [Sys.setTxn, he.wal]) ?_ ?_
      · rw [he.writeSet]; exact hat.fate_setTxn rfl rfl
      · rw [he.writeSet]; exact hat.writes_setTxn rfl
  | @appendCommit t ws hat =>
    refine h.append .COMMIT t rfl rfl hlog rfl (LogManager.exec_appended s.wal (.appendCommit t))
      (fun u => by rw [Sys.fate_setTxn]; rfl) (fun h => by cases h) (fun _ => hat.fate) fun u k => ?_
    have hw : (({ s with wal := (s.wal.appendCommit t).2 } : Sys).setTxn t .committing ws).Writes u k ↔
        s.Writes u k := hat.writes_setTxn rfl u k
    exact hw.trans ⟨Or.inl, fun h => h.elim id fun h => by cases h.1⟩
  | walFlush hat =>
    exact h.silent (by simpa [recordOf] using hlog) rfl (hat.fate_setTxn rfl rfl)
      (hat.writes_setTxn rfl)
  | dataFlush hat =>
    exact h.silent (by simpa [recordOf] using hlog) rfl (hat.fate_setTxn rfl rfl)
      (hat.writes_setTxn rfl)
  | undoAll hat hnd hkeys hok =>
    exact h.silent (by simpa [recordOf] using hlog) rfl (hat.fate_setTxn rfl rfl)
      (hat.writes_setTxn rfl)
  | undoThrows hat hnd hkeys herr =>
    exact h.silent (by simpa [recordOf] using hlog) rfl (hat.fate_setTxn rfl rfl)
      (hat.writes_setTxn rfl)
  | @appendAbort t ws hat =>
    refine h.append .ABORT t rfl rfl hlog rfl (LogManager.exec_appended s.wal (.appendAbort t))
      (fun u => by rw [Sys.fate_setTxn]; rfl) (fun h => by cases h) (fun _ => hat.fate) fun u k => ?_
    have hw : (({ s with wal := (s.wal.appendAbort t).2 } : Sys).setTxn t .aborted ws).Writes u k ↔
        s.Writes u k := hat.writes_setTxn rfl u k
    exact hw.trans ⟨Or.inl, fun h => h.elim id fun h => by cases h.1⟩
  | releaseCommit hat =>
    exact h.silent (by simpa [recordOf] using hlog) rfl (hat.fate_setTxn rfl rfl)
      (hat.writes_setTxn rfl)
  | releaseAbort hat =>
    exact h.silent (by simpa [recordOf] using hlog) rfl (hat.fate_setTxn rfl rfl)
      (hat.writes_setTxn rfl)
  | evict k => exact h.silent (by simpa [recordOf] using hlog) rfl rfl fun _ _ => Iff.rfl
  | dataFsync => exact h.silent (by simpa [recordOf] using hlog) rfl rfl fun _ _ => Iff.rfl

end Logged

/-! ## The end records of a transaction -/

/-- The types of the COMMIT and ABORT records of a transaction. -/
def endTypes (log : List WalRecord) (t : TxnId) : List WalRecordType :=
  (log.filter fun r => r.txnId = t ∧ (r.type = .COMMIT ∨ r.type = .ABORT)).map WalRecord.type

/-- The end records of a transaction with this fate. -/
def Fate.endTypes : Option Fate → List WalRecordType
  | some .committed => [.COMMIT]
  | some .aborted => [.ABORT]
  | _ => []

/-- Every transaction has the end record that its stage says. -/
def EndsLogged (ts : Traced) : Prop := ∀ t, endTypes ts.log t = Fate.endTypes (ts.sys.fate t)

theorem endTypes_append (log log' : List WalRecord) (t : TxnId) :
    endTypes (log ++ log') t = endTypes log t ++ endTypes log' t := by
  simp [endTypes]

namespace EndsLogged

variable {ts ts' : Traced}

theorem opened (m : KV) : EndsLogged (.opened m) := fun _ => rfl

/-- A step that appends no end record. -/
theorem silent {new : List WalRecord} (h : EndsLogged ts) (hlog : ts'.log = ts.log ++ new)
    (hnew : ∀ r ∈ new, r.type ≠ .COMMIT ∧ r.type ≠ .ABORT)
    (hfate : ∀ t, Fate.endTypes (ts'.sys.fate t) = Fate.endTypes (ts.sys.fate t)) :
    EndsLogged ts' := by
  intro t
  have hnone : endTypes new t = [] := by
    have hfilter : (new.filter fun r => r.txnId = t ∧ (r.type = .COMMIT ∨ r.type = .ABORT)) = [] := by
      refine List.filter_eq_nil_iff.mpr ?_
      intro r hr hend
      obtain ⟨-, hend⟩ := of_decide_eq_true hend
      exact hend.elim (hnew r hr).1 (hnew r hr).2
    rw [endTypes, hfilter]
    rfl
  rw [hlog, endTypes_append, hnone, List.append_nil, hfate]
  exact h t

/-- A step that appends the end record of a transaction. -/
theorem append {r : WalRecord} {u : TxnId} (h : EndsLogged ts) (hlog : ts'.log = ts.log ++ [r])
    (hid : r.txnId = u) (hend : r.type = .COMMIT ∨ r.type = .ABORT)
    (hloser : ts.sys.fate u = some .loser)
    (hfate : ∀ t, ts'.sys.fate t = if t = u then Fate.after r.type (ts.sys.fate t)
      else ts.sys.fate t) : EndsLogged ts' := by
  intro t
  rw [hlog, endTypes_append, h t, hfate]
  by_cases ht : t = u
  · subst ht
    rw [if_pos rfl, hloser]
    rcases hend with hty | hty
    · simp [endTypes, hid, hty, Fate.endTypes, Fate.after]
    · simp [endTypes, hid, hty, Fate.endTypes, Fate.after]
  · rw [if_neg ht]
    have hother : r.txnId ≠ t := fun e => ht (e.symm.trans hid)
    simp [endTypes, hother]

/-- Every step keeps the end records in agreement with the stages. -/
theorem tstep {hist : TxnId → List (Op × Res)} {view : KV} (h : EndsLogged ts)
    (hi : Iso ts.sys hist view) {a : Action} (hs : KeyVDB.tstep ts a = some ts') :
    EndsLogged ts' := by
  obtain ⟨hstep, -, hlog⟩ := tstep_eq hs
  obtain ⟨s, events, log⟩ := ts
  obtain ⟨s', events', log'⟩ := ts'
  simp only at hstep hlog hi
  have hquiet : recordOf s a = [] → s'.fate = s.fate → EndsLogged ⟨s', events', log'⟩ := by
    intro hrecords hfate
    have hlog : log' = log ++ [] := by rw [hlog, hrecords]
    refine h.silent hlog (fun r hr => absurd hr List.not_mem_nil) ?_
    intro t
    exact congrArg Fate.endTypes (congrFun hfate t)
  cases hstep with
  | begin hid =>
    have hnew : s.txns s.wal.nextTxnId = none := hi.fresh_next
    refine h.silent hlog ?_ ?_
    · intro r hr
      rw [List.mem_singleton.mp hr]
      exact ⟨(fun e => by cases e), (fun e => by cases e)⟩
    · intro t
      simp only [Sys.fate, Function.update_apply]
      by_cases e : t = s.wal.nextTxnId
      · subst e
        simp [hnew, Stage.fate, Fate.endTypes]
      · rw [if_neg e]
  | lock hat hl => exact hquiet rfl (hat.fate_setTxn rfl rfl)
  | timeout hat => exact hquiet rfl rfl
  | @body t op ws hat =>
    have hat' : s.txns t = some _ := hat
    have hrecords : recordOf s (.body t) = (KeyVDB.body s t ws op).records := by
      rw [recordOf, hat']
    refine h.silent (hlog.trans (by rw [hrecords])) ?_ ?_
    · intro r hr
      rcases body_cases s t ws op with ⟨e, he⟩ | he
      · rw [he.records, List.mem_singleton] at hr
        rw [hr]
        exact ⟨(fun e => by cases e), (fun e => by cases e)⟩
      · rw [he.records] at hr
        cases hr
    · intro u
      rw [Sys.fate_setTxn]
      by_cases e : u = t
      · subst e
        rw [if_pos rfl]
        exact congrArg Fate.endTypes hat.fate.symm
      · rw [if_neg e]
        rfl
  | appendCommit hat =>
    refine h.append hlog rfl (Or.inl rfl) hat.fate ?_
    intro u
    rw [Sys.fate_setTxn]
    rfl
  | walFlush hat => exact hquiet rfl (hat.fate_setTxn rfl rfl)
  | dataFlush hat => exact hquiet rfl (hat.fate_setTxn rfl rfl)
  | undoAll hat hnd hkeys hok => exact hquiet rfl (hat.fate_setTxn rfl rfl)
  | undoThrows hat hnd hkeys herr => exact hquiet rfl (hat.fate_setTxn rfl rfl)
  | appendAbort hat =>
    refine h.append hlog rfl (Or.inr rfl) hat.fate ?_
    intro u
    rw [Sys.fate_setTxn]
    rfl
  | releaseCommit hat => exact hquiet rfl (hat.fate_setTxn rfl rfl)
  | releaseAbort hat => exact hquiet rfl (hat.fate_setTxn rfl rfl)
  | evict k => exact hquiet rfl rfl
  | dataFsync => exact hquiet rfl rfl

end EndsLogged

/-! ## Records against the writes of the run -/

/-- The tree accepts the call whose body runs. -/
def PutFits (ts : Traced) : Action → Prop
  | .body t => ∀ op ws, ts.sys.At t (.locked op) ws → op.Accepted
  | _ => True

/-- A transaction that is about to run a body asked for its lock before. -/
theorem Step.locked_back {s s' : Sys} {a : Action} (h : Step s a s') {t : TxnId} {op : Op}
    {ws : WriteSet} (hat : s'.At t (.locked op) ws) : a = .lock t op ∨ s.At t (.locked op) ws := by
  -- a step that sets another stage cannot have set this one
  have hset : ∀ {s₁ : Sys} {u : TxnId} {st : Stage} {ws' : WriteSet},
      (s₁.setTxn u st ws').At t (.locked op) ws → s₁.txns = s.txns → st ≠ .locked op →
      s.At t (.locked op) ws := by
    intro s₁ u st ws' h' htxns hst
    rcases Sys.setTxn_cases h' with ⟨-, e⟩ | ⟨-, h'⟩
    · exact (hst (Transaction.mk.inj e).1.symm).elim
    · rw [htxns] at h'
      exact h'
  cases h with
  | begin hid =>
    right
    have hat : Function.update s.txns s.wal.nextTxnId (some {}) t = _ := hat
    rw [Function.update_apply] at hat
    split at hat
    · cases hat
    · exact hat
  | @lock u op' ws' locks hat' hl =>
    rcases Sys.setTxn_cases hat with ⟨rfl, e⟩ | ⟨-, h'⟩
    · cases e
      exact Or.inl rfl
    · exact Or.inr h'
  | timeout hat' => exact Or.inr hat
  | evict k => exact Or.inr hat
  | dataFsync => exact Or.inr hat
  | _ => exact Or.inr (hset hat rfl nofun)

/-- If every `Put` that is called fits, no step of the run fails. -/
theorem steps_putFits {as : List Action} (h : ∀ t op, .lock t op ∈ as → op.Accepted) {ts : Traced}
    (hts : ∀ t op ws, ts.sys.At t (.locked op) ws → op.Accepted) : Steps tstep PutFits ts as := by
  induction as generalizing ts with
  | nil => trivial
  | cons a as ih =>
    refine ⟨?_, fun ts' hs => ih (fun t op hop => h t op (List.mem_cons_of_mem _ hop)) ?_⟩
    · cases a with
      | body t => exact fun op ws hat => hts t op ws hat
      | _ => trivial
    · intro t op ws hat
      rcases (tstep_eq hs).1.locked_back hat with rfl | hat
      · exact h t op List.mem_cons_self
      · exact hts t op ws hat

/-- A WRITE record comes from a body. -/
theorem body_of_mem_recordOf {s : Sys} {a : Action} {r : WalRecord} (hr : r ∈ recordOf s a)
    (hty : r.type = .WRITE) :
    ∃ t op ws e, a = .body t ∧ s.At t (.locked op) ws ∧ BodyWrote s t ws op e ∧
      r = (s.wal.appendWrite t op.key e.beforeExists e.beforeVal op.after).1 := by
  cases a with
  | body t =>
    simp only [recordOf] at hr
    split at hr
    · next op ws hat =>
      rcases body_cases s t ws op with ⟨e, he⟩ | he
      · rw [he.records] at hr
        exact ⟨t, op, ws, e, rfl, hat, he, List.mem_singleton.mp hr⟩
      · rw [he.records] at hr
        cases hr
    · cases hr
  | begin => rw [List.mem_singleton.mp hr] at hty; cases hty
  | appendCommit t => rw [List.mem_singleton.mp hr] at hty; cases hty
  | appendAbort t => rw [List.mem_singleton.mp hr] at hty; cases hty
  | _ => cases hr

/-- An ABORT record comes from `append_abort`. -/
theorem appendAbort_of_mem_recordOf {s : Sys} {a : Action} {r : WalRecord} (hr : r ∈ recordOf s a)
    (hty : r.type = .ABORT) : a = .appendAbort r.txnId := by
  cases a with
  | body t =>
    simp only [recordOf] at hr
    split at hr
    · next op ws hat =>
      rcases body_cases s t ws op with ⟨e, he⟩ | he
      · rw [he.records] at hr
        rw [List.mem_singleton.mp hr] at hty
        cases hty
      · rw [he.records] at hr
        cases hr
    · cases hr
  | begin => rw [List.mem_singleton.mp hr] at hty; cases hty
  | appendCommit t => rw [List.mem_singleton.mp hr] at hty; cases hty
  | appendAbort t => rw [List.mem_singleton.mp hr]; rfl
  | _ => cases hr

/-- The writes of a run, in order. -/
def writesOf (events : List Event) : List (TxnId × Op) :=
  events.filterMap fun
    | .call t op .wrote => some (t, op)
    | _ => none

/-- The last write of a run to `k`. -/
def lastWrite (events : List Event) (k : Bytes) : Option (TxnId × Op) :=
  ((writesOf events).filter fun w => w.2.key = k).getLast?

theorem writesOf_append (events : List Event) (es : List Event) :
    writesOf (events ++ es) = writesOf events ++ writesOf es :=
  List.filterMap_append

theorem writesOf_call_of_ne {t : TxnId} {op : Op} {res : Res} (h : res ≠ .wrote) :
    writesOf [.call t op res] = [] := by
  cases res with
  | wrote => exact (h rfl).elim
  | _ => rfl

theorem lastWrite_wrote (events : List Event) (t : TxnId) (op : Op) (k : Bytes) :
    lastWrite (events ++ [.call t op .wrote]) k =
      if op.key = k then some (t, op) else lastWrite events k := by
  have hone : writesOf [.call t op .wrote] = [(t, op)] := rfl
  rw [lastWrite, writesOf_append, hone, List.filter_append]
  split
  · next e => simp [e]
  · next e => simp [e, lastWrite]

/-- The transactions that hold their locks made the last writes to their keys, and the log has
the writes of the run in their order. -/
structure Recorded (ts : Traced) : Prop where
  replayable : ∀ r ∈ ts.log, Replayable r
  writes_eq : (ts.log.filter fun r => r.type = .WRITE).map
      (fun r => (r.txnId, r.key, r.afterVal)) =
    (writesOf ts.events).map fun w => (w.1, w.2.key, w.2.after)
  last : ∀ {t tx}, ts.sys.txns t = some tx → tx.stage.Holding → ∀ k ∈ tx.writeSet,
    ∃ op, lastWrite ts.events k = some (t, op)

namespace Recorded

variable {ts ts' : Traced}

theorem opened (m : KV) : Recorded (.opened m) where
  replayable := nofun
  writes_eq := rfl
  last h := by cases h

/-- Steps that write to no key. -/
theorem other (h : Recorded ts) {rs : List WalRecord} (hlog : ts'.log = ts.log ++ rs)
    (hrs : ∀ r ∈ rs, r.type ≠ .WRITE ∧ Replayable r)
    (hev : writesOf ts'.events = writesOf ts.events)
    (hback : ∀ t tx', ts'.sys.txns t = some tx' → tx'.stage.Holding → ∀ k ∈ tx'.writeSet,
      ∃ tx, ts.sys.txns t = some tx ∧ tx.stage.Holding ∧ k ∈ tx.writeSet) : Recorded ts' where
  replayable := by
    rw [hlog]
    intro r hr
    rcases List.mem_append.mp hr with hr | hr
    · exact h.replayable r hr
    · exact (hrs r hr).2
  writes_eq := by
    have : rs.filter (fun r => r.type = .WRITE) = [] :=
      List.filter_eq_nil_iff.mpr fun r hr => by simpa using (hrs r hr).1
    rw [hlog, hev, List.filter_append, this, List.append_nil]
    exact h.writes_eq
  last := by
    intro t tx' ht hst k hk
    obtain ⟨tx, h1, h2, h3⟩ := hback t tx' ht hst k hk
    obtain ⟨op, hop⟩ := h.last h1 h2 k h3
    exact ⟨op, by rw [lastWrite, hev]; exact hop⟩

/-- A transaction that holds its locks after a step of another kind held them before. -/
theorem back {s s₁ : Sys} {t : TxnId} {st st' : Stage} {ws : WriteSet} (hat : s.At t st ws)
    (htxns : s₁.txns = s.txns) (hst : st'.Holding → st.Holding) (u : TxnId) (ux' : Transaction)
    (hu : (s₁.setTxn t st' ws).txns u = some ux') (hh : ux'.stage.Holding) (k : Bytes)
    (hk : k ∈ ux'.writeSet) : ∃ ux, s.txns u = some ux ∧ ux.stage.Holding ∧ k ∈ ux.writeSet := by
  rcases Sys.setTxn_cases hu with ⟨rfl, rfl⟩ | ⟨-, hu⟩
  · exact ⟨_, hat, hst hh, hk⟩
  · exact ⟨ux', htxns ▸ hu, hh, hk⟩

/-- A body that logged a write. -/
theorem wrote {hist hist' : TxnId → List (Op × Res)} {view view' : KV} (h : Recorded ts)
    (hi : Iso ts.sys hist view) (hi' : Iso ts'.sys hist' view') {t : TxnId} {op : Op}
    {ws : WriteSet} {e : WriteEntry} (hat : ts.sys.At t (.locked op) ws)
    (he : BodyWrote ts.sys t ws op e) (hfit : op.Accepted)
    (hsys : ts'.sys = { ts.sys with tree := (body ts.sys t ws op).tree,
                                    wal := (body ts.sys t ws op).wal }.setTxn t .idle
      (body ts.sys t ws op).writeSet)
    (hev : ts'.events = ts.events ++ [.call t op (body ts.sys t ws op).res])
    (hlog : ts'.log = ts.log ++ (body ts.sys t ws op).records) : Recorded ts' := by
  obtain ⟨hres, ⟨v, hv⟩, hafter⟩ := he.accepted hfit
  rw [hres] at hev
  rw [he.records] at hlog
  constructor
  case replayable =>
    -- the before-image is the view's value of the key, so it fits
    have hbefore : e.before = view'.get op.key := by
      have hat' : ts'.sys.txns t = some { stage := .idle, writeSet := ws.insert op.key e } := by
        rw [hsys, he.writeSet, Sys.setTxn_txns, if_pos rfl]
      exact hi'.before hat' trivial (Finmap.lookup_insert _)
    rw [hlog]
    intro r hr
    rcases List.mem_append.mp hr with hr | hr
    · exact h.replayable r hr
    · rw [List.mem_singleton.mp hr]
      have hfits : e.beforeExists = true → Fits op.key e.beforeVal := by
        intro hb
        exact view'.fits (hbefore ▸ by simp [WriteEntry.before, hb])
      refine ⟨⟨hv.key_length_lt, ?_, ?_⟩, hafter, fun hb => ?_⟩
      · cases hb : e.beforeExists with
        | false => simp [LogManager.appendWrite, LogManager.appendRecordLocked]
        | true => exact (hfits hb).value_length_lt
      · by_cases ha : op.after = []
        · simp [LogManager.appendWrite, LogManager.appendRecordLocked, ha]
        · exact (hafter ha).value_length_lt
      · have hb : e.beforeExists = true := hb
        simp only [LogManager.appendWrite, LogManager.appendRecordLocked, hb, ↓reduceIte]
        exact hfits hb
  case writes_eq =>
    rw [hlog, hev, writesOf_append, List.filter_append, List.map_append, List.map_append,
      h.writes_eq]
    rfl
  case last =>
    intro u ux hu hst k hk
    rw [hev, lastWrite_wrote]
    rw [hsys] at hu
    rcases Sys.setTxn_cases hu with ⟨rfl, rfl⟩ | ⟨hne, hu⟩
    · simp only [he.writeSet, Finmap.mem_insert] at hk
      by_cases ek : op.key = k
      · exact ⟨op, if_pos ek⟩
      · rw [if_neg ek]
        exact h.last hat trivial k (hk.resolve_left fun h => ek h.symm)
    · -- another holder's keys are not the one written
      have ek : ¬ op.key = k := by
        rintro rfl
        exact hne (hi.eq_of_holds hu hst hk (hi.locked hat).1).symm
      rw [if_neg ek]
      exact h.last hu hst k hk

theorem replayable_marker {r : WalRecord} (hk : r.key = []) (hb : r.beforeVal = [])
    (ha : r.afterVal = []) (he : r.beforeExists = false) : Replayable r :=
  ⟨by simp [WalRecord.Short, hk, hb, ha], fun h => (h ha).elim, fun h => by rw [he] at h; cases h⟩

theorem tstep {hist hist' : TxnId → List (Op × Res)} {view view' : KV} (h : Recorded ts)
    (hi : Iso ts.sys hist view) (hi' : Iso ts'.sys hist' view') {a : Action} (hfit : PutFits ts a)
    (hs : tstep ts a = some ts') : Recorded ts' := by
  obtain ⟨hstep, hev, hlog⟩ := tstep_eq hs
  obtain ⟨s, events, log⟩ := ts
  obtain ⟨s', events', log'⟩ := ts'
  simp only at hstep hev hlog hi
  cases hstep with
  | begin hid =>
    refine h.other hlog ?_ (by simp [hev, eventOf]) ?_
    · intro r hr
      rw [List.mem_singleton.mp hr]
      exact ⟨(fun h => by cases h), replayable_marker rfl rfl rfl rfl⟩
    · intro t tx ht hst k hk
      simp only [Function.update_apply] at ht
      split at ht
      · cases ht
        exact absurd hk Finmap.notMem_empty
      · exact ⟨tx, ht, hst, hk⟩
  | lock hat hl => exact h.other hlog (List.forall_mem_nil _) (by simp [hev, eventOf]) (back hat rfl fun _ => trivial)
  | timeout hat =>
    exact h.other hlog (List.forall_mem_nil _) (by simp [hev, eventOf]) fun t tx ht hst k hk => ⟨tx, ht, hst, hk⟩
  | @body t op ws hat =>
    have hat' : s.txns t = some _ := hat
    have hlog : log' = log ++ (KeyVDB.body s t ws op).records := by
      rw [hlog, recordOf, hat']
    have hev : events' = events ++ [.call t op (KeyVDB.body s t ws op).res] := by
      rw [hev, eventOf, hat']
    rcases body_cases s t ws op with ⟨e, he⟩ | he
    · exact h.wrote hi hi' hat he (hfit op ws hat) rfl hev hlog
    · refine h.other hlog (by rw [he.records]; exact List.forall_mem_nil _) ?_ (by
        rw [he.writeSet]; exact back hat rfl fun _ => trivial)
      rw [hev, writesOf_append, writesOf_call_of_ne he.res, List.append_nil]
  | appendCommit hat =>
    refine h.other hlog ?_ ?_ (back hat rfl fun _ => trivial)
    · intro r hr
      rw [List.mem_singleton.mp hr]
      exact ⟨(fun h => by cases h), replayable_marker rfl rfl rfl rfl⟩
    · rw [hev, writesOf_append]
      exact List.append_nil _
  | walFlush hat => exact h.other hlog (List.forall_mem_nil _) (by simp [hev, eventOf]) (back hat rfl fun _ => trivial)
  | dataFlush hat =>
    exact h.other hlog (List.forall_mem_nil _) (by simp [hev, eventOf]) (back hat rfl fun _ => trivial)
  | undoAll hat hnd hkeys hok =>
    exact h.other hlog (List.forall_mem_nil _) (by simp [hev, eventOf]) (back hat rfl fun _ => trivial)
  | undoThrows hat hnd hkeys herr =>
    exact h.other hlog (List.forall_mem_nil _) (by simp [hev, eventOf]) (back hat rfl fun _ => trivial)
  | appendAbort hat =>
    refine h.other hlog ?_ (by simp [hev, eventOf]) (back hat rfl fun _ => trivial)
    intro r hr
    rw [List.mem_singleton.mp hr]
    exact ⟨(fun h => by cases h), replayable_marker rfl rfl rfl rfl⟩
  | releaseCommit hat => exact h.other hlog (List.forall_mem_nil _) (by simp [hev, eventOf]) (back hat rfl False.elim)
  | releaseAbort hat => exact h.other hlog (List.forall_mem_nil _) (by simp [hev, eventOf]) (back hat rfl False.elim)
  | evict k =>
    exact h.other hlog (List.forall_mem_nil _) (by simp [hev, eventOf]) fun t tx ht hst k hk => ⟨tx, ht, hst, hk⟩
  | dataFsync =>
    exact h.other hlog (List.forall_mem_nil _) (by simp [hev, eventOf]) fun t tx ht hst k hk => ⟨tx, ht, hst, hk⟩

end Recorded

end KeyVDB
