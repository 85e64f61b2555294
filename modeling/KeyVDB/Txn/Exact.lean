import KeyVDB.Txn.Crash
import KeyVDB.Txn.Shutdown
import KeyVDB.Txn.WriteAhead

/-!
# What recovery leaves under every key

`Crash.lean` looks at the keys whose last write was committed, and at those without a committed
writer. Here every key is accounted for: if a transaction that committed or is in flight wrote the
key, recovery gives it the value that the committed transactions gave it, or takes it away if that
value is empty, whatever the data file holds; and it leaves all other keys as the data file has them.

Three facts about the log carry this. A transaction in flight logged the committed value of each of
its keys as the before-image of all its records on that key. The last record of a committed
transaction on a key has the committed value. And nobody else's record is redone after it.
-/

namespace KeyVDB

open RecoveryManager

/-- What the log keeps of a value: it cannot tell the empty value from none. -/
def logImage (v : Option Bytes) : Option Bytes := if v = some [] then none else v

/-- The redo pass does to a key what the log kept of the call. -/
theorem logImage_value (op : Op) :
    (if op.after = [] then none else some op.after) = logImage op.value := by
  unfold Op.after logImage
  cases op.value with
  | none => rfl
  | some v =>
    by_cases hv : v = []
    · subst hv
      rfl
    · simp [hv]

/-- The undo pass does to a key what the log kept of the before-image. -/
theorem logImage_before {r : WalRecord} (h : r.Appended) :
    (if 0 < r.beforeVal.length then some r.beforeVal else none) = logImage r.before := by
  unfold WalRecord.before logImage
  cases hb : r.beforeExists with
  | false => simp [h.before hb]
  | true =>
    by_cases hv : r.beforeVal = []
    · simp [hv]
    · simp [hv, List.length_pos_iff]

/-! ## Steps and fates -/

/-- A COMMIT record comes from `append_commit`. -/
theorem appendCommit_of_mem_recordOf {s : Sys} {a : Action} {r : WalRecord}
    (hr : r ∈ recordOf s a) (hty : r.type = .COMMIT) : a = .appendCommit r.txnId := by
  cases a with
  | body t =>
    simp only [recordOf] at hr
    split at hr
    · next op ws hat =>
      rcases body_cases s t ws op with ⟨e, he⟩ | he
      · rw [he.records] at hr
        rw [List.mem_singleton.mp hr] at hty
        cases hty
      · rw [he.records] at hr
        cases hr
    · cases hr
  | begin => rw [List.mem_singleton.mp hr] at hty; cases hty
  | appendCommit t => rw [List.mem_singleton.mp hr]; rfl
  | appendAbort t => rw [List.mem_singleton.mp hr] at hty; cases hty
  | _ => cases hr

theorem Step.appendCommit_inv {s s' : Sys} {t : TxnId} (h : Step s (.appendCommit t) s') :
    ∃ ws, s.At t .idle ws ∧ s'.At t .committing ws ∧ s'.tree = s.tree := by
  cases h with
  | appendCommit hat => exact ⟨_, hat, by rw [Sys.At, Sys.setTxn_txns, if_pos rfl], rfl⟩

theorem Sys.At.writeSet_eq {s : Sys} {t : TxnId} {st st' : Stage} {ws ws' : WriteSet}
    (h : s.At t st ws) (h' : s.At t st' ws') : ws = ws' := by
  have heq : some (Transaction.mk st ws) = some (Transaction.mk st' ws') := h.symm.trans h'
  cases heq
  rfl

namespace Logged

variable {ts ts' : Traced} {a : Action} {t : TxnId} {k : Bytes}

/-- A transaction that has ended stays so. -/
theorem ended_mono (h : Logged ts) (h' : Logged ts') (hs : KeyVDB.tstep ts a = some ts') :
    (ts.sys.fate t = some .committed → ts'.sys.fate t = some .committed) ∧
      (ts.sys.fate t = some .aborted → ts'.sys.fate t = some .aborted) := by
  obtain ⟨-, -, hlog⟩ := tstep_eq hs
  constructor
  · intro hc
    obtain ⟨c, hmem, hty, hid⟩ := (h.committed t).mpr hc
    exact (h'.committed t).mp ⟨c, hlog ▸ List.mem_append_left _ hmem, hty, hid⟩
  · intro ha
    obtain ⟨c, hmem, hty, hid⟩ := mem_aborted.mp ((h.aborted t).mpr ha)
    exact (h'.aborted t).mp (mem_aborted.mpr ⟨c, hlog ▸ List.mem_append_left _ hmem, hty, hid⟩)

/-- Who is committed after a step was so before, unless the step appended its COMMIT record. -/
theorem committed_back (h : Logged ts) (h' : Logged ts') (hs : KeyVDB.tstep ts a = some ts')
    (hc : ts'.sys.fate t = some .committed) :
    ts.sys.fate t = some .committed ∨ a = .appendCommit t := by
  obtain ⟨-, -, hlog⟩ := tstep_eq hs
  obtain ⟨c, hmem, hty, hid⟩ := (h'.committed t).mpr hc
  rw [hlog] at hmem
  rcases List.mem_append.mp hmem with hmem | hmem
  · exact Or.inl ((h.committed t).mp ⟨c, hmem, hty, hid⟩)
  · exact Or.inr (hid ▸ appendCommit_of_mem_recordOf hmem hty)

/-- A writer that is a loser after a step was one before. -/
theorem loser_back (h : Logged ts) (h' : Logged ts') (hs : KeyVDB.tstep ts a = some ts')
    (hw : ts.sys.Writes t k) (hl : ts'.sys.fate t = some .loser) :
    ts.sys.fate t = some .loser := by
  obtain ⟨tx, htx, -⟩ := hw
  have hfate : ts.sys.fate t = some tx.stage.fate := by rw [Sys.fate, htx]; rfl
  cases hf : tx.stage.fate with
  | loser => rw [hfate, hf]
  | committed =>
    have hc := (h.ended_mono h' hs).1 (hfate.trans (congrArg some hf))
    rw [hl] at hc
    cases hc
  | aborted =>
    have ha := (h.ended_mono h' hs).2 (hfate.trans (congrArg some hf))
    rw [hl] at ha
    cases ha

/-- A key that only a body adds to a write set. -/
theorem writes_back (h : Logged ts) (h' : Logged ts') (hs : KeyVDB.tstep ts a = some ts')
    (hw : ts'.sys.Writes t k) : ts.sys.Writes t k ∨ a = .body t := by
  obtain ⟨-, -, hlog⟩ := tstep_eq hs
  obtain ⟨r, hr, hty, hid, hk⟩ := (h'.writes t k).mpr hw
  rw [hlog] at hr
  rcases List.mem_append.mp hr with hr | hr
  · exact Or.inl ((h.writes t k).mp ⟨r, hr, hty, hid, hk⟩)
  · obtain ⟨u, op, ws, e, rfl, -, -, rfl⟩ := body_of_mem_recordOf hr hty
    exact Or.inr (congrArg Action.body hid)

end Logged

namespace Fitting

variable {m₀ view view' : KV} {ts ts' : Traced} {a : Action} {t : TxnId} {k : Bytes}

/-- A writer that is a loser, or one in the middle of its commit, has its key to itself. -/
theorem eq_of_writes (h : Fitting m₀ ts view) {u : TxnId} {tx : Transaction}
    (ht : ts.sys.txns t = some tx) (hst : tx.stage.Holding) (hk : k ∈ tx.writeSet)
    (hl : ts.sys.fate u = some .loser) (hu : ts.sys.Writes u k) : u = t := by
  obtain ⟨ux, hux, hku⟩ := hu
  have hstage : ux.stage.Holding := by
    simp only [Sys.fate, hux, Option.map_some, Option.some.injEq] at hl
    cases hs : ux.stage with
    | committed => rw [hs] at hl; cases hl
    | rolledBack => rw [hs] at hl; cases hl
    | _ => trivial
  have hx := (h.serial.iso.holdsX hux hstage k hku).holds
  exact h.serial.iso.eq_of_holds ht hst hk hx

/-- A body runs for a transaction in flight. -/
theorem fate_of_body (hs : KeyVDB.tstep ts (.body t) = some ts') :
    ts'.sys.fate t = some .loser := by
  obtain ⟨hstep, -⟩ := tstep_eq hs
  generalize ts'.sys = s' at hstep
  cases hstep with
  | body hat => rw [Sys.fate_setTxn, if_pos rfl]; rfl

/-- The before-image that a body logs is the value of the key in the view. -/
theorem before_of_new (h' : Fitting m₀ ts' view') (hs : KeyVDB.tstep ts a = some ts')
    {r : WalRecord} (hr : r ∈ recordOf ts.sys a) (hty : r.type = .WRITE) :
    r.before = view'.get r.key := by
  obtain ⟨t, op, ws, e, rfl, hat, he, rfl⟩ := body_of_mem_recordOf hr hty
  have hts' := Option.some.inj (hs.symm.trans (tstep_body hat))
  have hentry : ts'.sys.At t .idle (ws.insert op.key e) := by
    rw [hts', Sys.At, Sys.setTxn_txns, if_pos rfl, he.writeSet]
  have hbefore := h'.serial.iso.before hentry trivial (Finmap.lookup_insert _)
  refine Eq.trans ?_ hbefore
  cases hb : e.beforeExists <;>
    simp [WalRecord.before, WriteEntry.before, LogManager.appendWrite,
      LogManager.appendRecordLocked, hb]

end Fitting

/-! ## The last writes -/

/-- The tree has the last write to each key of a transaction that can still make calls. -/
def Latest (ts : Traced) : Prop :=
  ∀ ⦃t tx⦄, ts.sys.txns t = some tx → tx.stage.Live → ∀ k ∈ tx.writeSet, ∀ ⦃u op⦄,
    lastWrite ts.events k = some (u, op) → ts.sys.tree.get k = op.value

namespace Latest

variable {ts ts' : Traced}

/-- Steps that write to no key, and leave the tree alone where a live transaction wrote. -/
theorem other (h : Latest ts) (hev : writesOf ts'.events = writesOf ts.events)
    (hback : ∀ t tx', ts'.sys.txns t = some tx' → tx'.stage.Live → ∀ k ∈ tx'.writeSet,
      (∃ tx, ts.sys.txns t = some tx ∧ tx.stage.Live ∧ k ∈ tx.writeSet) ∧
        ts'.sys.tree.get k = ts.sys.tree.get k) : Latest ts' := by
  intro t tx' ht hl k hk u op hop
  obtain ⟨⟨tx, htx, hlive, hmem⟩, htree⟩ := hback t tx' ht hl k hk
  rw [lastWrite, hev] at hop
  rw [htree]
  exact h htx hlive k hmem hop

/-- A transaction that is live after a step that moved `t` and kept the tree was so before. -/
theorem back {s s₁ : Sys} {t : TxnId} {st st' : Stage} {ws : WriteSet} (hat : s.At t st ws)
    (htxns : s₁.txns = s.txns) (htree : s₁.tree = s.tree) (hst : st'.Live → st.Live) (u : TxnId)
    (ux' : Transaction) (hu : (s₁.setTxn t st' ws).txns u = some ux') (hl : ux'.stage.Live)
    (k : Bytes) (hk : k ∈ ux'.writeSet) :
    (∃ ux, s.txns u = some ux ∧ ux.stage.Live ∧ k ∈ ux.writeSet) ∧
      (s₁.setTxn t st' ws).tree.get k = s.tree.get k := by
  constructor
  · rcases Sys.setTxn_cases hu with ⟨rfl, rfl⟩ | ⟨-, hu⟩
    · exact ⟨_, hat, hst hl, hk⟩
    · exact ⟨ux', htxns ▸ hu, hl, hk⟩
  · rw [Sys.setTxn, htree]

theorem body (h : Latest ts) {t : TxnId} {op : Op} {ws : WriteSet}
    (hat : ts.sys.At t (.locked op) ws) (hfit : op.Accepted)
    (hs : KeyVDB.tstep ts (.body t) = some ts') : Latest ts' := by
  have hts' := Option.some.inj (hs.symm.trans (tstep_body hat))
  rcases body_cases ts.sys t ws op with ⟨e, he⟩ | he
  · have hres := (he.accepted hfit).1
    intro u ux hu hl k hk v op' hop'
    rw [hts'] at hu hop' ⊢
    rw [hres, lastWrite_wrote] at hop'
    have htree : (KeyVDB.body ts.sys t ws op).tree.get k =
        if k = op.key then op.value else ts.sys.tree.get k := by
      rw [body_tree_get, hres]
      simp
    refine htree.trans ?_
    by_cases hkey : k = op.key
    · rw [if_pos hkey.symm] at hop'
      cases hop'
      rw [if_pos hkey]
    · rw [if_neg fun e => hkey e.symm] at hop'
      rw [if_neg hkey]
      rcases Sys.setTxn_cases hu with ⟨rfl, rfl⟩ | ⟨-, hu⟩
      · simp only [he.writeSet, Finmap.mem_insert] at hk
        exact h hat trivial k (hk.resolve_left hkey) hop'
      · exact h hu hl k hk hop'
  · refine h.other ?_ ?_
    · rw [hts']
      exact (writesOf_append _ _).trans (by rw [writesOf_call_of_ne he.res, List.append_nil])
    · rw [hts', he.writeSet, he.wal, he.tree]
      exact back hat rfl rfl fun _ => trivial

theorem tstep (h : Latest ts) {m₀ view : KV} (hf : Fitting m₀ ts view) {a : Action}
    (hfit : PutFits ts a) (hs : KeyVDB.tstep ts a = some ts') : Latest ts' := by
  obtain ⟨hstep, hev, -⟩ := tstep_eq hs
  have hquiet : eventOf ts.sys a = [] → writesOf ts'.events = writesOf ts.events := by
    intro hnone
    rw [hev, hnone, List.append_nil]
  obtain ⟨s', events', log'⟩ := ts'
  dsimp only at hstep hev hquiet
  cases hstep with
  | begin hid =>
    refine h.other (hquiet rfl) ?_
    intro t tx' ht hl k hk
    simp only [Function.update_apply] at ht
    split at ht
    · cases ht
      exact absurd hk Finmap.notMem_empty
    · exact ⟨⟨tx', ht, hl, hk⟩, rfl⟩
  | lock hat hlock => exact h.other (hquiet rfl) (back hat rfl rfl fun _ => trivial)
  | timeout hat =>
    exact h.other (hquiet rfl) fun t tx ht hl k hk => ⟨⟨tx, ht, hl, hk⟩, rfl⟩
  | body hat => exact h.body hat (hfit _ _ hat) hs
  | appendCommit hat =>
    refine h.other ?_ (back hat rfl rfl fun _ => trivial)
    rw [hev, writesOf_append]
    exact List.append_nil _
  | walFlush hat => exact h.other (hquiet rfl) (back hat rfl rfl fun e => e.elim)
  | dataFlush hat => exact h.other (hquiet rfl) (back hat rfl rfl fun e => e.elim)
  | @undoAll t order ws tree hat hnd hkeys hok =>
    refine h.other (hquiet rfl) ?_
    intro u ux hu hl k hk
    rcases Sys.setTxn_cases hu with ⟨-, rfl⟩ | ⟨hne, hu⟩
    · exact hl.elim
    · -- the locks keep the two write sets apart
      have hout : k ∉ ws := by
        intro hk'
        have hx := (hf.serial.iso.holdsX hu hl.holding k hk).holds
        exact hne (hf.serial.iso.eq_of_holds hat trivial hk' hx)
      obtain ⟨tree', hok', hkeep, -⟩ := hf.serial.iso.undoAll_ok hat hkeys
      obtain rfl : tree' = tree := Except.ok.inj (hok'.symm.trans hok)
      exact ⟨⟨ux, hu, hl, hk⟩, hkeep k hout⟩
  | undoThrows hat hnd hkeys herr => exact h.other (hquiet rfl) (back hat rfl rfl fun _ => trivial)
  | appendAbort hat => exact h.other (hquiet rfl) (back hat rfl rfl fun e => e.elim)
  | releaseCommit hat => exact h.other (hquiet rfl) (back hat rfl rfl fun e => e.elim)
  | releaseAbort hat => exact h.other (hquiet rfl) (back hat rfl rfl fun e => e.elim)
  | evict k => exact h.other (hquiet rfl) fun t tx ht hl k hk => ⟨⟨tx, ht, hl, hk⟩, rfl⟩
  | dataFsync => exact h.other (hquiet rfl) fun t tx ht hl k hk => ⟨⟨tx, ht, hl, hk⟩, rfl⟩

end Latest

/-! ## Every key after a crash -/

/-- A committed transaction wrote `k`, and `r` is the last record of one. -/
structure LastCommitted (ts : Traced) (k : Bytes) (r : WalRecord) : Prop where
  type : r.type = .WRITE
  key : r.key = k
  committed : ts.sys.fate r.txnId = some .committed
  last : ∃ pre post, ts.log = pre ++ r :: post ∧
    ∀ q ∈ post, q.type = .WRITE → q.key = k → ts.sys.fate q.txnId ≠ some .committed

/-- The invariant of the runs whose `Put`s the tree accepted, for every key. -/
structure Exact (m₀ : KV) (ts : Traced) (view : KV) : Prop where
  fitting : Fitting m₀ ts view
  latest : Latest ts
  before_eq : ∀ r ∈ ts.log, r.type = .WRITE → ts.sys.fate r.txnId = some .loser →
    r.before = view.get r.key
  redone : ∀ {t k}, ts.sys.fate t = some .committed → ts.sys.Writes t k →
    ∃ r, LastCommitted ts k r ∧
      (if r.afterVal = [] then none else some r.afterVal) = logImage (view.get k)
  view_eq : ∀ {k}, (∀ t, ts.sys.Writes t k → ts.sys.fate t ≠ some .committed) →
    view.get k = m₀.get k
  untouched : ∀ {k}, (∀ t, ¬ ts.sys.Writes t k) → ts.sys.disk.get k = m₀.get k

/-- A transaction that committed or is in flight wrote `k`. -/
def Traced.Kept (ts : Traced) (k : Bytes) : Prop :=
  ∃ t, ts.sys.Writes t k ∧ ts.sys.fate t ≠ some .aborted

namespace Exact

variable {m₀ view : KV} {ts ts' : Traced} {k : Bytes}

theorem opened (m₀ : KV) : Exact m₀ (.opened m₀) m₀ where
  fitting := Fitting.opened m₀
  latest _ _ h := by cases h
  before_eq := nofun
  redone h := by cases h
  view_eq _ := rfl
  untouched _ := rfl

/-- The step does not commit a write to `k`. -/
def NotCommitted (ts : Traced) (a : Action) (k : Bytes) : Prop :=
  ∀ t ws, a = .appendCommit t → ts.sys.At t .idle ws → k ∉ ws

/-- The record that a commit makes the last committed one. -/
theorem redone_commit (h : Exact m₀ ts view) {view' : KV} (hf' : Fitting m₀ ts' view') {t : TxnId}
    {ws : WriteSet} (hat : ts.sys.At t .idle ws) (hk : k ∈ ws)
    (hs : KeyVDB.tstep ts (.appendCommit t) = some ts') :
    ∃ r, LastCommitted ts' k r ∧
      (if r.afterVal = [] then none else some r.afterVal) = logImage (view'.get k) := by
  obtain ⟨hstep, hev, -⟩ := tstep_eq hs
  have hevents : ts'.events = ts.events ++ [.commit t] := hev
  obtain ⟨ws', hidle, hat', htree⟩ := hstep.appendCommit_inv
  obtain rfl := hat.writeSet_eq hidle
  obtain ⟨op, hop⟩ := hf'.recorded.last hat' trivial k hk
  obtain ⟨pre, r, post, hlog, hty, hid, hkey, hafter, hpost⟩ := hf'.exists_last_record hop
  refine ⟨r, ⟨hty, hkey, hid ▸ hat'.fate, pre, post, hlog, ?_⟩, ?_⟩
  · intro q hq hqty hqk
    exact absurd hqk (hpost q hq hqty)
  · -- nobody else can write the key, so the tree shows the view there
    have hclean : ts'.sys.tree.get k = view'.get k := by
      apply hf'.serial.iso.clean
      intro u ux hu hl hku
      have hx := (hf'.serial.iso.holdsX hu hl.holding k hku).holds
      obtain rfl := hf'.serial.iso.eq_of_holds hat' trivial hk hx
      rw [hat'] at hu
      cases hu
      exact hl
    have hlast : lastWrite ts.events k = some (t, op) := by
      have hwrites : writesOf ts'.events = writesOf ts.events := by
        rw [hevents, writesOf_append]
        exact List.append_nil _
      rw [lastWrite, ← hwrites]
      exact hop
    rw [hafter, logImage_value, ← hclean, htree, h.latest hat trivial k hk hlast]

/-- Without a commit of the key, its last committed record stays the last one. -/
theorem redone_keep (h : Exact m₀ ts view) {view' : KV} (hf' : Fitting m₀ ts' view') {a : Action}
    (hs : KeyVDB.tstep ts a = some ts') (hnot : NotCommitted ts a k)
    (hview : view'.get k = view.get k) {t : TxnId} (hc : ts'.sys.fate t = some .committed)
    (hw : ts'.sys.Writes t k) :
    ∃ r, LastCommitted ts' k r ∧
      (if r.afterVal = [] then none else some r.afterVal) = logImage (view'.get k) := by
  have hl := h.fitting.logged
  obtain ⟨-, -, hlog⟩ := tstep_eq hs
  -- a transaction with a record on the key did not commit in this step
  have hold : ∀ u, ts.sys.Writes u k → ts'.sys.fate u = some .committed →
      ts.sys.fate u = some .committed := by
    intro u hu hcu
    rcases hl.committed_back hf'.logged hs hcu with hcu | rfl
    · exact hcu
    · obtain ⟨ws, hat, -⟩ := (tstep_eq hs).1.appendCommit_inv
      exact absurd ((hat.writes_iff k).mp hu) (hnot u ws rfl hat)
  have hw : ts.sys.Writes t k := by
    rcases hl.writes_back hf'.logged hs hw with hw | rfl
    · exact hw
    · rw [Fitting.fate_of_body hs] at hc
      cases hc
  obtain ⟨r, ⟨hty, hkey, hrc, pre, post, heq, hpost⟩, hval⟩ := h.redone (hold t hw hc) hw
  refine ⟨r, ⟨hty, hkey, (hl.ended_mono hf'.logged hs).1 hrc, pre, post ++ recordOf ts.sys a, ?_, ?_⟩,
    ?_⟩
  · rw [hlog, heq]
    simp
  · intro q hq hqty hqk hqc
    rcases List.mem_append.mp hq with hq | hq
    · have hqw : ts.sys.Writes q.txnId k := by
        refine (hl.writes q.txnId k).mp ⟨q, ?_, hqty, rfl, hqk⟩
        rw [heq]
        exact List.mem_append_right _ (List.mem_cons_of_mem _ hq)
      exact hpost q hq hqty hqk (hold q.txnId hqw hqc)
    · obtain ⟨u, op, ws, e, rfl, -, -, rfl⟩ := body_of_mem_recordOf hq hqty
      have hloser : ts'.sys.fate u = some .loser := Fitting.fate_of_body hs
      have hqc : ts'.sys.fate u = some .committed := hqc
      rw [hloser] at hqc
      cases hqc
  · rw [hval, hview]

theorem tstep (h : Exact m₀ ts view) {a : Action} (hfit : PutFits ts a)
    (hs : KeyVDB.tstep ts a = some ts') : ∃ view', Exact m₀ ts' view' := by
  obtain ⟨view', hf', hview⟩ := h.fitting.tstep hfit hs
  obtain ⟨hstep, -, hlog⟩ := tstep_eq hs
  have hl := h.fitting.logged
  refine ⟨view', hf', h.latest.tstep h.fitting hfit hs, ?_, ?_, ?_, ?_⟩
  · intro r hr hty hloser
    rw [hlog] at hr
    rcases List.mem_append.mp hr with hr | hr
    · have hw : ts.sys.Writes r.txnId r.key := (hl.writes _ _).mp ⟨r, hr, hty, rfl, rfl⟩
      have hloser₀ := hl.loser_back hf'.logged hs hw hloser
      rw [h.before_eq r hr hty hloser₀, hview r.key ?_]
      -- a commit of the key would be the loser's own
      rintro t ws rfl hat hk
      have hu := h.fitting.eq_of_writes hat trivial hk hloser₀ hw
      obtain ⟨ws', -, hat', -⟩ := hstep.appendCommit_inv
      rw [hu, hat'.fate] at hloser
      cases hloser
    · exact hf'.before_of_new hs hr hty
  · intro t k hc hw
    by_cases hnot : NotCommitted ts a k
    · exact h.redone_keep hf' hs hnot (hview k hnot) hc hw
    · unfold NotCommitted at hnot
      push Not at hnot
      obtain ⟨u, ws, rfl, hat, hk⟩ := hnot
      exact h.redone_commit hf' hat hk hs
  · intro k hnone
    have hold : ∀ t, ts.sys.Writes t k → ts.sys.fate t ≠ some .committed := by
      intro t hw hc
      exact hnone t (Atomic.writes_mono hl hf'.logged hs hw) ((hl.ended_mono hf'.logged hs).1 hc)
    rw [hview k, h.view_eq hold]
    rintro t ws rfl hat hk
    have hw := Atomic.writes_mono hl hf'.logged hs ((hat.writes_iff k).mpr hk)
    obtain ⟨ws', -, hat', -⟩ := hstep.appendCommit_inv
    exact hnone t hw hat'.fate
  · intro k hnone
    have hold : ∀ t, ¬ ts.sys.Writes t k :=
      fun t hw => hnone t (Atomic.writes_mono hl hf'.logged hs hw)
    rcases hstep.disk_cases k with heq | heq
    · rw [heq, h.untouched hold]
    · rw [heq, h.fitting.serial.iso.clean k, h.view_eq]
      · exact fun t hw => absurd hw (hold t)
      · exact fun t tx htx _ hk => hold t ⟨tx, htx, hk⟩

theorem exists_tstep (ts : Traced) (a : Action) (ts' : Traced) (h : ∃ view, Exact m₀ ts view)
    (hfit : PutFits ts a) (hs : KeyVDB.tstep ts a = some ts') : ∃ view, Exact m₀ ts' view := by
  obtain ⟨view, h⟩ := h
  exact h.tstep hfit hs

theorem run {as : List Action} (hfit : Steps KeyVDB.tstep PutFits (.opened m₀) as)
    (h : run KeyVDB.tstep (.opened m₀) as = some ts) : ∃ view, Exact m₀ ts view :=
  run_inv exists_tstep ⟨m₀, opened m₀⟩ hfit h

theorem committedMap_eq (h : Exact m₀ ts view) : ts.committedMap m₀ = view := by
  rw [Traced.committedMap, h.fitting.serial.serial_eq]

/-- Where a loser wrote, every undo effect has its before-image. -/
theorem recovered_loser (h : Exact m₀ ts view) {t : TxnId} (hloser : ts.sys.fate t = some .loser)
    (hw : ts.sys.Writes t k) (init : Option Bytes) :
    recovered ts.log k init = logImage (view.get k) := by
  have hl := h.fitting.logged
  obtain ⟨r, hr, hty, hid, hk⟩ := (hl.writes t k).mpr hw
  unfold recovered
  apply valueAfter_of_const
  · intro v hv
    obtain ⟨q, hq, he⟩ := List.mem_map.mp hv
    have hq := List.mem_reverse.mp hq
    obtain ⟨hqty, hql, rfl, rfl⟩ := undoEffect_eq_some he
    rw [logImage_before (hl.appended q hq), h.before_eq q hq hqty ((hl.losers _).mp hql)]
  · refine ⟨if 0 < r.beforeVal.length then some r.beforeVal else none, ?_⟩
    refine List.mem_map.mpr ⟨r, List.mem_reverse.mpr hr, ?_⟩
    simp [undoEffect, WalRecord.wire, hty, hid, (hl.losers t).mpr hloser, hk]

/-- Without a loser on the key, the undo pass leaves it alone. -/
theorem recovered_of_no_loser (h : Exact m₀ ts view)
    (hno : ∀ t, ts.sys.Writes t k → ts.sys.fate t ≠ some .loser) (init : Option Bytes) :
    recovered ts.log k init =
      valueAfter k (ts.log.map fun r => redoEffect (aborted ts.log) r.wire) init := by
  have hl := h.fitting.logged
  unfold recovered
  apply valueAfter_of_not
  intro v hv
  obtain ⟨q, hq, he⟩ := List.mem_map.mp hv
  obtain ⟨hqty, hql, hqk, -⟩ := undoEffect_eq_some he
  have hw : ts.sys.Writes q.txnId k :=
    (hl.writes q.txnId k).mp ⟨q, List.mem_reverse.mp hq, hqty, rfl, hqk⟩
  exact hno q.txnId hw ((hl.losers _).mp hql)

/-- Where a committed transaction wrote and no loser did, the last committed record decides. -/
theorem recovered_of_committed (h : Exact m₀ ts view)
    (hno : ∀ t, ts.sys.Writes t k → ts.sys.fate t ≠ some .loser) {t : TxnId}
    (hc : ts.sys.fate t = some .committed) (hw : ts.sys.Writes t k) (init : Option Bytes) :
    recovered ts.log k init = logImage (view.get k) := by
  have hl := h.fitting.logged
  obtain ⟨r, ⟨hty, hkey, hrc, pre, post, hlog, hpost⟩, hval⟩ := h.redone hc hw
  rw [h.recovered_of_no_loser hno]
  have hab : r.txnId ∉ aborted ts.log := by
    rw [hl.aborted, hrc]
    exact nofun
  have heff : redoEffect (aborted ts.log) r.wire = some (k, logImage (view.get k)) := by
    rw [← hval]
    simp [redoEffect, WalRecord.wire, hty, hab, hkey]
  -- what follows is neither committed nor in flight, so it is not redone
  have hrest : ∀ v, some (k, v) ∉ post.map fun r => redoEffect (aborted ts.log) r.wire := by
    intro v hv
    obtain ⟨q, hq, he⟩ := List.mem_map.mp hv
    obtain ⟨hqty, hqa, hqk⟩ := redoEffect_eq_some he
    have hmem : q ∈ ts.log := hlog ▸ List.mem_append_right _ (List.mem_cons_of_mem _ hq)
    have hqw : ts.sys.Writes q.txnId k := (hl.writes q.txnId k).mp ⟨q, hmem, hqty, rfl, hqk⟩
    have hnl := hno q.txnId hqw
    have hnc := hpost q hq hqty hqk
    obtain ⟨tx, htx, -⟩ := hqw
    rw [hl.aborted] at hqa
    simp only [Sys.fate, htx, Option.map_some, ne_eq, Option.some.injEq] at hqa hnl hnc
    cases hf : tx.stage.fate with
    | loser => exact hnl hf
    | committed => exact hnc hf
    | aborted => exact hqa hf
  nth_rewrite 2 [hlog]
  rw [List.map_append, valueAfter_append, List.map_cons, heff, ← List.singleton_append,
    valueAfter_append, valueAfter_of_not hrest]
  simp [valueAfter]

/-- A key that only aborted transactions wrote is left as the data file has it. -/
theorem recovered_of_not_kept (h : Exact m₀ ts view) (hno : ¬ ts.Kept k) (init : Option Bytes) :
    recovered ts.log k init = init := by
  have hl := h.fitting.logged
  have haborted : ∀ t, ts.sys.Writes t k → ts.sys.fate t = some .aborted := by
    intro t hw
    by_contra hne
    exact hno ⟨t, hw, hne⟩
  rw [h.recovered_of_no_loser]
  · apply valueAfter_of_not
    intro v hv
    obtain ⟨q, hq, he⟩ := List.mem_map.mp hv
    obtain ⟨hqty, hqa, hqk⟩ := redoEffect_eq_some he
    have hqw : ts.sys.Writes q.txnId k := (hl.writes q.txnId k).mp ⟨q, hq, hqty, rfl, hqk⟩
    exact hqa ((hl.aborted _).mpr (haborted q.txnId hqw))
  · intro t hw
    rw [haborted t hw]
    exact nofun

open Classical in
/-- **Every key after a crash.** -/
theorem recovered_eq (h : Exact m₀ ts view) (k : Bytes) (init : Option Bytes) :
    recovered ts.log k init = if ts.Kept k then logImage (view.get k) else init := by
  split
  · next hkept =>
    by_cases hloser : ∃ t, ts.sys.Writes t k ∧ ts.sys.fate t = some .loser
    · obtain ⟨t, hw, hl⟩ := hloser
      exact h.recovered_loser hl hw init
    · obtain ⟨t, hw, hna⟩ := hkept
      have hno : ∀ t, ts.sys.Writes t k → ts.sys.fate t ≠ some .loser :=
        fun t hw hl => hloser ⟨t, hw, hl⟩
      have hc : ts.sys.fate t = some .committed := by
        have hnl := hno t hw
        obtain ⟨tx, htx, -⟩ := hw
        simp only [Sys.fate, htx, Option.map_some, ne_eq, Option.some.injEq] at hna hnl ⊢
        cases hf : tx.stage.fate with
        | loser => exact absurd hf hnl
        | committed => rfl
        | aborted => exact absurd hf hna
      exact h.recovered_of_committed hno hc hw init
  · next hno => exact h.recovered_of_not_kept hno init

end Exact

/-- The data file has the old value of every key that only aborted transactions wrote. -/
def Traced.Settled (m₀ : KV) (ts : Traced) : Prop :=
  ∀ k, (∃ t, ts.sys.Writes t k) → ¬ ts.Kept k → ts.sys.disk.get k = m₀.get k

/-- The committed transactions left no empty value under a key that was written. -/
def Traced.NoEmpty (m₀ : KV) (ts : Traced) : Prop :=
  ∀ k, ts.Kept k → (ts.committedMap m₀).get k ≠ some []

theorem logImage_eq_iff (v : Option Bytes) : logImage v = v ↔ v ≠ some [] := by
  unfold logImage
  split
  · next h => simp [h]
  · next h => simp [h]

namespace Exact

variable {m₀ view : KV} {ts : Traced}

/-- Recovery ends with the committed map exactly in a settled state without empty values. -/
theorem recovered_eq_iff (h : Exact m₀ ts view) {m : KV}
    (hget : ∀ k, m.get k = recovered ts.log k (ts.sys.disk.get k)) :
    m = ts.committedMap m₀ ↔ ts.Settled m₀ ∧ ts.NoEmpty m₀ := by
  classical
  have hget : ∀ k, m.get k =
      if ts.Kept k then logImage (view.get k) else ts.sys.disk.get k :=
    fun k => (hget k).trans (h.recovered_eq k _)
  have hold : ∀ k, ¬ ts.Kept k → view.get k = m₀.get k := by
    intro k hno
    apply h.view_eq
    intro t hw hc
    exact hno ⟨t, hw, by rw [hc]; exact nofun⟩
  unfold Traced.Settled Traced.NoEmpty
  rw [h.committedMap_eq]
  constructor
  · rintro rfl
    constructor
    · intro k _ hno
      have hk := hget k
      rw [if_neg hno, hold k hno] at hk
      exact hk.symm
    · intro k hkept
      have hk := hget k
      rw [if_pos hkept] at hk
      exact (logImage_eq_iff _).mp hk.symm
  · intro hset
    obtain ⟨hsettled, hempty⟩ := hset
    refine KV.ext (funext fun k => ?_)
    rw [hget k]
    by_cases hkept : ts.Kept k
    · rw [if_pos hkept]
      exact (logImage_eq_iff _).mpr (hempty k hkept)
    · rw [if_neg hkept, hold k hkept]
      by_cases hw : ∃ t, ts.sys.Writes t k
      · exact hsettled k hw hkept
      · exact h.untouched (not_exists.mp hw)

end Exact

/-- **Recovery, key by key.** In a run whose `Put`s all fit, a crash at any point is recovered from.
`recover` returns the number of transactions in flight, every key that a committed transaction or
one in flight wrote gets the committed value (none if that is empty), and the others stay as they
are in the data file. So recovery ends with the committed map if and only if the data file is
settled and no such value is empty. -/
theorem recovery_exact (m₀ : KV) (as : List Action) (ts : Traced)
    (hrun : run tstep (.opened m₀) as = some ts) (hfit : Steps tstep PutFits (.opened m₀) as) :
    ∃ n m, recover ts.sys.wal.file ts.sys.disk = .ok (n, m) ∧
      (∃ losers : Finset TxnId, (∀ t, t ∈ losers ↔ ts.sys.fate t = some .loser) ∧
        n = losers.card) ∧
      (∀ k, ts.Kept k → m.get k = logImage ((ts.committedMap m₀).get k)) ∧
      (∀ k, ¬ ts.Kept k → m.get k = ts.sys.disk.get k) ∧
      (m = ts.committedMap m₀ ↔ ts.Settled m₀ ∧ ts.NoEmpty m₀) := by
  obtain ⟨view, h⟩ := Exact.run hfit hrun
  have hl := h.fitting.logged
  obtain ⟨m, hm, hget⟩ := recover_encodeLog
    (fun r hr => ⟨hl.appended r hr, h.fitting.recorded.replayable r hr⟩) ts.sys.disk
  rw [← hl.file] at hm
  refine ⟨_, m, hm, ⟨analysis ts.log, hl.losers, rfl⟩, ?_, ?_, h.recovered_eq_iff hget⟩
  · intro k hkept
    rw [hget, h.recovered_eq, if_pos hkept, h.committedMap_eq]
  · intro k hno
    rw [hget, h.recovered_eq, if_neg hno]

/-- A committed write is overwritten by a transaction that rolls back, another one is in flight, and
both have reached the data file when the process dies: the committed map comes back. -/
theorem recovery_exact_overwritten :
    ∃ ts, run tstep (.opened .empty)
        [.begin, .lock 1 (.put [97] [1]), .body 1, .appendCommit 1, .walFlush 1, .dataFlush 1,
          .releaseAll 1, .begin, .lock 2 (.put [97] [2]), .body 2, .evict [97], .undoAll 2 [[97]],
          .appendAbort 2, .begin, .lock 3 (.put [98] [3]), .body 3, .evict [98]] = some ts ∧
      ts.sys.disk.get [97] = some [2] ∧ ts.sys.disk.get [98] = some [3] ∧
      ∃ n m, recover ts.sys.wal.file ts.sys.disk = .ok (n, m) ∧ m.get [97] = some [1] ∧
        m.get [98] = none := by
  have hend : ((run tstep (.opened .empty)
      [.begin, .lock 1 (.put [97] [1]), .body 1, .appendCommit 1, .walFlush 1, .dataFlush 1,
        .releaseAll 1, .begin, .lock 2 (.put [97] [2]), .body 2, .evict [97], .undoAll 2 [[97]],
        .appendAbort 2, .begin, .lock 3 (.put [98] [3]), .body 3, .evict [98]]).map fun ts =>
      ([ts.sys.disk.get [97], ts.sys.disk.get [98], (ts.committedMap .empty).get [97],
          (ts.committedMap .empty).get [98]],
        [(ts.sys.txns 1).map fun tx => (tx.stage, decide ([97] ∈ tx.writeSet)),
          (ts.sys.txns 3).map fun tx => (tx.stage, decide ([98] ∈ tx.writeSet))])) =
      some ([some [2], some [3], some [1], none], [some (.committed, true), some (.idle, true)]) := by
    decide +kernel
  obtain ⟨ts, hrun, hts⟩ := Option.map_eq_some_iff.mp hend
  simp only [Prod.mk.injEq, List.cons.injEq, and_true] at hts
  obtain ⟨⟨hd1, hd2, hc1, hc2⟩, h1, h3⟩ := hts
  have hkept : ∀ t k st, (ts.sys.txns t).map (fun tx => (tx.stage, decide (k ∈ tx.writeSet))) =
      some (st, true) → st.fate ≠ .aborted → ts.Kept k := by
    intro t k st htx hst
    obtain ⟨tx, htx, hpair⟩ := Option.map_eq_some_iff.mp htx
    simp only [Prod.mk.injEq, decide_eq_true_eq] at hpair
    refine ⟨t, ⟨tx, htx, hpair.2⟩, ?_⟩
    rw [Sys.fate, htx, Option.map_some, hpair.1]
    exact fun e => hst (Option.some.inj e)
  have hfit : Steps tstep PutFits (.opened .empty)
      [.begin, .lock 1 (.put [97] [1]), .body 1, .appendCommit 1, .walFlush 1, .dataFlush 1,
        .releaseAll 1, .begin, .lock 2 (.put [97] [2]), .body 2, .evict [97], .undoAll 2 [[97]],
        .appendAbort 2, .begin, .lock 3 (.put [98] [3]), .body 3, .evict [98]] := by
    refine steps_putFits (fun t op hop => ?_) fun t op ws hat => by cases hat
    simp only [List.mem_cons, reduceCtorEq, Action.lock.injEq, List.not_mem_nil, or_false,
      false_or] at hop
    rcases hop with ⟨-, rfl⟩ | ⟨-, rfl⟩ | ⟨-, rfl⟩
    · show Fits [97] [1]
      decide
    · show Fits [97] [2]
      decide
    · show Fits [98] [3]
      decide
  obtain ⟨n, m, hm, -, hval, -⟩ := recovery_exact _ _ ts hrun hfit
  refine ⟨ts, hrun, hd1, hd2, n, m, hm, ?_, ?_⟩
  · rw [hval _ (hkept 1 [97] _ h1 (by decide)), hc1]
    rfl
  · rw [hval _ (hkept 3 [98] _ h3 (by decide)), hc2]
    rfl

end KeyVDB
