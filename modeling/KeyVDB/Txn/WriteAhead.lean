import KeyVDB.Txn.Log

/-!
# The write-ahead rule

A write may be in the durable image of the data file only if its WRITE record is in the durable
image of the log. To say which write a stored value comes from, a run carries the *origin* of each
value along: the position in the log of the record that was appended when the value was put into
the tree (`none` for what the database was opened with). Write-outs copy the origin with the value,
and a rollback puts back the origin that the value had before the transaction's first write.

`Commit` fsyncs the log before it takes `db_mu_` and flushes all pages, so a write that another
transaction logged in between becomes durable without its record. Where the rule holds is told
without the origins: by what the log held and what had been rolled back when a key was last written
out (`Prov.out`), and by how much of the log has been fsynced since (`SyncedStep`).
-/

namespace KeyVDB

/-- A run with the origins of the values. -/
structure Prov where
  ts : Traced
  tree : Bytes → Option Nat := fun _ => none
  saved : TxnId → Bytes → Option Nat := fun _ _ => none  -- before the first write of a transaction
  disk : Bytes → Option Nat := fun _ => none
  durable : Bytes → Option Nat := fun _ => none
  synced : Nat := 0  -- the records in the durable image of the log
  out : Bytes → Traced := fun _ => ts  -- what the database was when a key was last written out

def Prov.opened (m : KV) : Prov := { ts := .opened m }

/-- How an action moves the origins. -/
def Prov.track (p : Prov) : Action → Prov
  | .body t =>
    match p.ts.sys.txns t with
    | some { stage := .locked op, writeSet := ws } =>
      { p with
        saved := if op.key ∈ ws then p.saved
          else Function.update p.saved t (Function.update (p.saved t) op.key (p.tree op.key))
        tree := if (body p.ts.sys t ws op).res = .wrote
          then Function.update p.tree op.key (some p.ts.log.length) else p.tree }
    | _ => p
  | .walFlush _ => { p with synced := p.ts.log.length }
  | .dataFlush _ => { p with disk := p.tree, durable := p.tree, out := fun _ => p.ts }
  | .undoAll t _ =>
    match p.ts.sys.txns t with
    | some tx => { p with tree := fun k => if k ∈ tx.writeSet then p.saved t k else p.tree k }
    | none => p
  | .evict k =>
    { p with
      disk := Function.update p.disk k (p.tree k)
      out := Function.update p.out k p.ts }
  | .dataFsync => { p with durable := p.disk }
  | _ => p

namespace Prov

variable {p : Prov} {t : TxnId}

theorem track_body {op : Op} {ws : WriteSet}
    (h : p.ts.sys.txns t = some { stage := .locked op, writeSet := ws }) :
    p.track (.body t) = { p with
      saved := if op.key ∈ ws then p.saved
        else Function.update p.saved t (Function.update (p.saved t) op.key (p.tree op.key))
      tree := if (body p.ts.sys t ws op).res = .wrote
        then Function.update p.tree op.key (some p.ts.log.length) else p.tree } := by
  unfold track
  dsimp only
  rw [h]

theorem track_body_tree {op : Op} {ws : WriteSet}
    (h : p.ts.sys.txns t = some { stage := .locked op, writeSet := ws }) (k : Bytes) :
    (p.track (.body t)).tree k = if (body p.ts.sys t ws op).res = .wrote ∧ k = op.key
      then some p.ts.log.length else p.tree k := by
  rw [track_body h]
  by_cases hw : (body p.ts.sys t ws op).res = .wrote
  · simp [hw, Function.update_apply]
  · simp [hw]

theorem track_body_saved {op : Op} {ws : WriteSet}
    (h : p.ts.sys.txns t = some { stage := .locked op, writeSet := ws }) (u : TxnId) (k : Bytes) :
    (p.track (.body t)).saved u k = if u = t ∧ op.key ∉ ws ∧ k = op.key
      then p.tree k else p.saved u k := by
  rw [track_body h]
  by_cases hws : op.key ∈ ws
  · simp [hws]
  · by_cases hu : u = t
    · subst hu
      by_cases hk : k = op.key <;> simp [hws, hk]
    · simp [hws, hu]

theorem track_undoAll {tx : Transaction} (h : p.ts.sys.txns t = some tx) (order : List Bytes) :
    p.track (.undoAll t order) =
      { p with tree := fun k => if k ∈ tx.writeSet then p.saved t k else p.tree k } := by
  unfold track
  dsimp only
  rw [h]

theorem track_evict (k : Bytes) :
    p.track (.evict k) = { p with
      disk := Function.update p.disk k (p.tree k)
      out := Function.update p.out k p.ts } := rfl

/-- Only write-outs change the data file. -/
theorem track_disk {a : Action} (hd : ∀ t, a ≠ .dataFlush t) (he : ∀ k, a ≠ .evict k) :
    (p.track a).disk = p.disk ∧ (p.track a).out = p.out := by
  cases a with
  | dataFlush t => exact (hd t rfl).elim
  | evict k => exact (he k rfl).elim
  | body t =>
    unfold track
    dsimp only
    split <;> exact ⟨rfl, rfl⟩
  | undoAll t order =>
    unfold track
    dsimp only
    split <;> exact ⟨rfl, rfl⟩
  | _ => exact ⟨rfl, rfl⟩

/-- The durable image of the log grows. -/
theorem synced_le_track (a : Action) (hle : p.synced ≤ p.ts.log.length) :
    p.synced ≤ (p.track a).synced := by
  cases a with
  | walFlush t => exact hle
  | body t =>
    unfold track
    dsimp only
    split <;> exact le_refl _
  | undoAll t order =>
    unfold track
    dsimp only
    split <;> exact le_refl _
  | _ => exact le_refl _

/-- The durable image of the data file changes by its two fsyncs only. -/
theorem track_durable {a : Action} (hd : ∀ t, a ≠ .dataFlush t) (hf : a ≠ .dataFsync) :
    (p.track a).durable = p.durable := by
  cases a with
  | dataFlush t => exact (hd t rfl).elim
  | dataFsync => exact (hf rfl).elim
  | body t =>
    unfold track
    dsimp only
    split <;> rfl
  | undoAll t order =>
    unfold track
    dsimp only
    split <;> rfl
  | _ => rfl

end Prov

/-- A step with the origins. -/
def pstep (p : Prov) (a : Action) : Option Prov :=
  (tstep p.ts a).map fun ts' => { p.track a with ts := ts' }

/-- Every write whose effect is in the durable image of the data file has its record in the
durable image of the log. -/
def WriteAhead (p : Prov) : Prop := ∀ k i, p.durable k = some i → i < p.synced

/-! ## Origins -/

/-- `o` is where the value `v` of `k` comes from. -/
def Origin (m₀ : KV) (log : List WalRecord) (k : Bytes) (v : Option Bytes) : Option Nat → Prop
  | none => v = m₀.get k
  | some i => ∃ r, log[i]? = some r ∧ r.type = .WRITE ∧ r.key = k ∧ Fits r.key r.afterVal ∧
      r.afterVal = v.getD []

theorem Origin.append {m₀ : KV} {log : List WalRecord} {k : Bytes} {v : Option Bytes}
    {o : Option Nat} (h : Origin m₀ log k v o) (rs : List WalRecord) :
    Origin m₀ (log ++ rs) k v o := by
  cases o with
  | none => exact h
  | some i =>
    obtain ⟨r, hr, hrest⟩ := h
    have hi : i < log.length := (List.getElem?_eq_some_iff.mp hr).1
    exact ⟨r, by rw [List.getElem?_append_left hi]; exact hr, hrest⟩

theorem Origin.lt_length {m₀ : KV} {log : List WalRecord} {k : Bytes} {v : Option Bytes} {i : Nat}
    (h : Origin m₀ log k v (some i)) : i < log.length := by
  obtain ⟨r, hr, -⟩ := h
  exact (List.getElem?_eq_some_iff.mp hr).1

theorem Fits.nil {k v : Bytes} (h : Fits k v) : Fits k [] := by
  simp only [Fits, leafCellSize, List.length_nil] at h ⊢
  omega

/-- A body that logged a write took effect exactly if the pair fits. -/
theorem BodyWrote.wrote_iff {s : Sys} {t : TxnId} {ws : WriteSet} {op : Op} {e : WriteEntry}
    (he : BodyWrote s t ws op e) : (body s t ws op).res = .wrote ↔ Fits op.key op.after := by
  cases op with
  | get k => exact absurd he.mode nofun
  | put k v =>
    constructor
    · intro h
      by_contra hf
      have hf : ¬ Fits k v := hf
      simp only [body, putLocked, KV.insert_of_not_fits _ hf] at h
      cases h
    · exact fun hf => (he.accepted hf).1
  | delete k =>
    obtain ⟨hres, ⟨v, hv⟩, -⟩ := he.accepted trivial
    exact ⟨fun _ => hv.nil, fun _ => hres⟩

/-- What the body leaves in the tree. -/
theorem body_tree_get {s : Sys} {t : TxnId} {ws : WriteSet} {op : Op} (k : Bytes) :
    (body s t ws op).tree.get k =
      if (body s t ws op).res = .wrote ∧ k = op.key then op.value else s.tree.get k := by
  obtain ⟨htree, hres⟩ := body_exec s t ws op
  rw [htree, hres]
  cases op with
  | get k' => simp [Op.exec]
  | put k' v =>
    by_cases hf : Fits k' v
    · simp [Op.exec, KV.insert_of_fits _ hf, Op.value, Op.key]
    · simp [Op.exec, KV.insert_of_not_fits _ hf]
  | delete k' =>
    cases hg : s.tree.get k' with
    | none => simp [Op.exec, hg]
    | some old => simp [Op.exec, hg, Op.value, Op.key]

section Records

variable {s : Sys} {t : TxnId} {ws : WriteSet} {op : Op}

/-- The record that a call which wrote has logged. -/
theorem record_of_wrote (h : (body s t ws op).res = .wrote) :
    ∃ r, (body s t ws op).records = [r] ∧ r.type = .WRITE ∧ r.txnId = t ∧ r.key = op.key ∧
      Fits r.key r.afterVal ∧ r.afterVal = op.value.getD [] := by
  rcases body_cases s t ws op with ⟨e, he⟩ | he
  · exact ⟨_, he.records, rfl, rfl, rfl, he.wrote_iff.mp h, rfl⟩
  · exact (he.res h).elim

theorem of_mem_records {r : WalRecord} (h : r ∈ (body s t ws op).records) :
    r.txnId = t ∧ r.key = op.key ∧ (Fits r.key r.afterVal → (body s t ws op).res = .wrote) := by
  rcases body_cases s t ws op with ⟨e, he⟩ | he
  · rw [he.records] at h
    rw [List.mem_singleton.mp h]
    exact ⟨rfl, rfl, he.wrote_iff.mpr⟩
  · rw [he.records] at h
    cases h

theorem records_length_le (s : Sys) (t : TxnId) (ws : WriteSet) (op : Op) :
    (body s t ws op).records.length ≤ 1 := by
  rcases body_cases s t ws op with ⟨e, he⟩ | he <;> simp [he.records]

end Records

/-! ## The invariant -/

namespace Stage

/-- The transaction's writes are in the tree, and its log has not been fsynced by `Commit`. -/
def InFlight : Stage → Prop
  | idle => True
  | locked _ => True
  | committing => True
  | _ => False

/-- `Commit` has fsynced the log. -/
def PastSync : Stage → Prop
  | synced => True
  | flushed => True
  | committed => True
  | _ => False

/-- `undo_all` has taken the writes back in memory. -/
def Undone : Stage → Prop
  | undone => True
  | aborted => True
  | rolledBack => True
  | _ => False

theorem InFlight.holding {st : Stage} (h : st.InFlight) : st.Holding := by
  cases st <;> trivial

end Stage

/-- The origins are right; a value in the tree whose record is not durable belongs to a transaction
in flight, and the other way round. -/
structure Tracked (m₀ : KV) (p : Prov) : Prop where
  synced_le : p.synced ≤ p.ts.log.length
  walDurable : p.ts.sys.walDurable = encodeLog (p.ts.log.take p.synced)
  tree : ∀ k, Origin m₀ p.ts.log k (p.ts.sys.tree.get k) (p.tree k)
  disk : ∀ k, Origin m₀ p.ts.log k (p.ts.sys.disk.get k) (p.disk k)
  durable : ∀ k, Origin m₀ p.ts.log k (p.ts.sys.diskDurable.get k) (p.durable k)
  saved : ∀ {t tx}, p.ts.sys.txns t = some tx → tx.stage.Live → ∀ {k e},
    tx.writeSet.lookup k = some e → Origin m₀ p.ts.log k e.before (p.saved t k) ∧
      ∀ i, p.saved t k = some i → i < p.synced
  owner : ∀ {k i}, p.tree k = some i → p.synced ≤ i → ∃ r tx, p.ts.log[i]? = some r ∧
    r.type = .WRITE ∧ r.key = k ∧ p.ts.sys.txns r.txnId = some tx ∧ tx.stage.InFlight
  last : ∀ {t tx}, p.ts.sys.txns t = some tx → tx.stage.InFlight → ∀ {i r},
    p.ts.log[i]? = some r → r.type = .WRITE → r.txnId = t → Fits r.key r.afterVal →
      ∃ j, p.tree r.key = some j ∧ i ≤ j
  pastSync : ∀ {t tx}, p.ts.sys.txns t = some tx → tx.stage.PastSync → ∀ {i r},
    p.ts.log[i]? = some r → r.txnId = t → i < p.synced

theorem getElem?_append_cases {α : Type*} {l : List α} {rs : List α} {i : Nat} {r : α}
    (h : (l ++ rs)[i]? = some r) : l[i]? = some r ∨ (l.length ≤ i ∧ r ∈ rs) := by
  rcases Nat.lt_or_ge i l.length with hi | hi
  · rw [List.getElem?_append_left hi] at h
    exact Or.inl h
  · rw [List.getElem?_append_right hi] at h
    exact Or.inr ⟨hi, List.mem_of_getElem? h⟩

namespace Tracked

variable {m₀ : KV} {p p' : Prov}

theorem opened (m₀ : KV) : Tracked m₀ (.opened m₀) where
  synced_le := le_refl 0
  walDurable := rfl
  tree _ := rfl
  disk _ := rfl
  durable _ := rfl
  saved h := by cases h
  owner h := by cases h
  last h := by cases h
  pastSync h := by cases h

/-- Steps that neither write, nor roll back, nor fsync the log. The transactions keep their write
sets, or are new. -/
theorem other (h : Tracked m₀ p) (hl : Logged p.ts) {rs : List WalRecord}
    (hlog : p'.ts.log = p.ts.log ++ rs) (hrs : ∀ r ∈ rs, r.type ≠ .WRITE)
    (htree : p'.ts.sys.tree = p.ts.sys.tree) (hwal : p'.ts.sys.walDurable = p.ts.sys.walDurable)
    (hptree : p'.tree = p.tree) (hpsaved : p'.saved = p.saved) (hsynced : p'.synced = p.synced)
    (hdisk : ∀ k, Origin m₀ p.ts.log k (p'.ts.sys.disk.get k) (p'.disk k))
    (hdurable : ∀ k, Origin m₀ p.ts.log k (p'.ts.sys.diskDurable.get k) (p'.durable k))
    (hback : ∀ t tx', p'.ts.sys.txns t = some tx' →
      (p.ts.sys.txns t = none ∧ tx'.writeSet = ∅ ∧ tx'.stage = .idle) ∨
      ∃ tx, p.ts.sys.txns t = some tx ∧ tx'.writeSet = tx.writeSet ∧
        (tx'.stage.Live → tx.stage.Live) ∧ (tx'.stage.InFlight → tx.stage.InFlight) ∧
        (tx'.stage.PastSync → tx.stage.PastSync))
    (hkeep : ∀ t tx, p.ts.sys.txns t = some tx → tx.stage.InFlight →
      ∃ tx', p'.ts.sys.txns t = some tx' ∧ tx'.stage.InFlight)
    (hpast : ∀ r ∈ rs, ∀ tx', p'.ts.sys.txns r.txnId = some tx' → ¬ tx'.stage.PastSync) :
    Tracked m₀ p' := by
  constructor
  case synced_le =>
    have := h.synced_le
    rw [hsynced, hlog, List.length_append]
    omega
  case walDurable =>
    rw [hwal, hsynced, hlog, List.take_append_of_le_length h.synced_le]
    exact h.walDurable
  case tree =>
    intro k
    rw [htree, hptree, hlog]
    exact (h.tree k).append rs
  case disk =>
    intro k
    rw [hlog]
    exact (hdisk k).append rs
  case durable =>
    intro k
    rw [hlog]
    exact (hdurable k).append rs
  case saved =>
    intro t tx' ht hst k e hk
    rw [hlog, hpsaved, hsynced]
    rcases hback t tx' ht with ⟨-, hws, -⟩ | ⟨tx, htx, hws, hlive, -⟩
    · rw [hws, Finmap.lookup_empty] at hk
      cases hk
    · obtain ⟨h1, h2⟩ := h.saved htx (hlive hst) (hws ▸ hk)
      exact ⟨h1.append rs, h2⟩
  case owner =>
    intro k i hk hi
    rw [hptree] at hk
    rw [hsynced] at hi
    obtain ⟨r, tx, hr, hty, hrk, htx, hfl⟩ := h.owner hk hi
    obtain ⟨tx', htx', hfl'⟩ := hkeep r.txnId tx htx hfl
    have hlt : i < p.ts.log.length := (List.getElem?_eq_some_iff.mp hr).1
    exact ⟨r, tx', by rw [hlog, List.getElem?_append_left hlt]; exact hr, hty, hrk, htx', hfl'⟩
  case last =>
    intro t tx' ht hst i r hr hty hrt hf
    rw [hlog] at hr
    rw [hptree]
    rcases getElem?_append_cases hr with hr | ⟨-, hr⟩
    · rcases hback t tx' ht with ⟨hnone, -⟩ | ⟨tx, htx, -, -, hfl, -⟩
      · -- a new transaction has no record
        obtain ⟨tx, htx, -⟩ := (hl.writes t r.key).mp ⟨r, List.mem_of_getElem? hr, hty, hrt, rfl⟩
        rw [hnone] at htx
        cases htx
      · exact h.last htx (hfl hst) hr hty hrt hf
    · exact (hrs r hr hty).elim
  case pastSync =>
    intro t tx' ht hst i r hr hrt
    rw [hlog] at hr
    rw [hsynced]
    rcases getElem?_append_cases hr with hr | ⟨-, hr⟩
    · rcases hback t tx' ht with ⟨-, -, hidle⟩ | ⟨tx, htx, -, -, -, hps⟩
      · rw [hidle] at hst
        exact hst.elim
      · exact h.pastSync htx (hps hst) hr hrt
    · exact (hpast r hr tx' (hrt ▸ ht) hst).elim

theorem walFlush (h : Tracked m₀ p) (hl : Logged p.ts) {t : TxnId} {ws : WriteSet}
    (hsys : p'.ts.sys = { p.ts.sys with walDurable := p.ts.sys.wal.file }.setTxn t .synced ws)
    (hlog : p'.ts.log = p.ts.log) (hptree : p'.tree = p.tree) (hpsaved : p'.saved = p.saved)
    (hpdisk : p'.disk = p.disk) (hpdurable : p'.durable = p.durable)
    (hsynced : p'.synced = p.ts.log.length) : Tracked m₀ p' := by
  have back : ∀ {u ux}, p'.ts.sys.txns u = some ux → (u = t ∧ ux = ⟨.synced, ws⟩) ∨
      (u ≠ t ∧ p.ts.sys.txns u = some ux) := by
    intro u ux hu
    rw [hsys] at hu
    exact Sys.setTxn_cases hu
  constructor
  case synced_le => rw [hsynced, hlog]
  case walDurable => rw [hsys, hsynced, hlog, List.take_length]; exact hl.file
  case tree => intro k; rw [hsys, hlog, hptree]; exact h.tree k
  case disk => intro k; rw [hsys, hlog, hpdisk]; exact h.disk k
  case durable => intro k; rw [hsys, hlog, hpdurable]; exact h.durable k
  case saved =>
    intro u ux hu hst k e hk
    rw [hlog, hpsaved, hsynced]
    rcases back hu with ⟨-, rfl⟩ | ⟨-, hu⟩
    · exact hst.elim
    · obtain ⟨h1, -⟩ := h.saved hu hst hk
      exact ⟨h1, fun i hi => (hi ▸ h1 : Origin m₀ p.ts.log k e.before (some i)).lt_length⟩
  case owner =>
    intro k i hk hi
    rw [hptree] at hk
    rw [hsynced] at hi
    have := (hk ▸ h.tree k : Origin m₀ p.ts.log k _ (some i)).lt_length
    omega
  case last =>
    intro u ux hu hst i r hr hty hrt hf
    rw [hlog] at hr
    rw [hptree]
    rcases back hu with ⟨-, rfl⟩ | ⟨-, hu⟩
    · exact hst.elim
    · exact h.last hu hst hr hty hrt hf
  case pastSync =>
    intro u ux hu hst i r hr hrt
    rw [hlog] at hr
    rw [hsynced]
    exact (List.getElem?_eq_some_iff.mp hr).1

/-- The rollback puts back what was there before the transaction's first writes: values whose
records are durable, since their transactions had released the locks. -/
theorem undoAll {hist : TxnId → List (Op × Res)} {view : KV} (h : Tracked m₀ p) (hl : Logged p.ts)
    (hi : Iso p.ts.sys hist view) {t : TxnId} {ws : WriteSet} {tree : KV}
    (hat : p.ts.sys.At t .idle ws) (hout : ∀ k ∉ ws, tree.get k = p.ts.sys.tree.get k)
    (hin : ∀ k ∈ ws, tree.get k = view.get k)
    (hsys : p'.ts.sys = { p.ts.sys with tree }.setTxn t .undone ws)
    (hlog : p'.ts.log = p.ts.log)
    (hptree : p'.tree = fun k => if k ∈ ws then p.saved t k else p.tree k)
    (hpsaved : p'.saved = p.saved) (hpdisk : p'.disk = p.disk)
    (hpdurable : p'.durable = p.durable) (hsynced : p'.synced = p.synced) : Tracked m₀ p' := by
  have back : ∀ {u ux}, p'.ts.sys.txns u = some ux → (u = t ∧ ux = ⟨.undone, ws⟩) ∨
      (u ≠ t ∧ p.ts.sys.txns u = some ux) := by
    intro u ux hu
    rw [hsys] at hu
    exact Sys.setTxn_cases hu
  constructor
  case synced_le => rw [hsynced, hlog]; exact h.synced_le
  case walDurable => rw [hsys, hsynced, hlog]; exact h.walDurable
  case tree =>
    intro k
    rw [hsys, hlog, hptree]
    show Origin m₀ p.ts.log k (tree.get k) _
    by_cases hk : k ∈ ws
    · obtain ⟨e, he⟩ := Finmap.mem_iff.mp hk
      simp only [hk, ↓reduceIte]
      rw [hin k hk, ← hi.before hat trivial he]
      exact (h.saved hat trivial he).1
    · simp only [hk, ↓reduceIte]
      rw [hout k hk]
      exact h.tree k
  case disk => intro k; rw [hsys, hlog, hpdisk]; exact h.disk k
  case durable => intro k; rw [hsys, hlog, hpdurable]; exact h.durable k
  case saved =>
    intro u ux hu hst k e hk
    rw [hlog, hpsaved, hsynced]
    rcases back hu with ⟨-, rfl⟩ | ⟨-, hu⟩
    · exact hst.elim
    · exact h.saved hu hst hk
  case owner =>
    intro k i hk hi
    rw [hptree] at hk
    rw [hsynced] at hi
    rw [hlog]
    by_cases hkt : k ∈ ws
    · obtain ⟨e, he⟩ := Finmap.mem_iff.mp hkt
      simp only [hkt, ↓reduceIte] at hk
      have := (h.saved hat trivial he).2 i hk
      omega
    · simp only [hkt, ↓reduceIte] at hk
      obtain ⟨r, tx, hr, hty, hrk, htx, hfl⟩ := h.owner hk hi
      have hne : r.txnId ≠ t := by
        intro e
        have hw : p.ts.sys.Writes t k :=
          (hl.writes t k).mp ⟨r, List.mem_of_getElem? hr, hty, e, hrk⟩
        exact hkt ((hat.writes_iff k).mp hw)
      exact ⟨r, tx, hr, hty, hrk, by rw [hsys, Sys.setTxn_txns, if_neg hne]; exact htx, hfl⟩
  case last =>
    intro u ux hu hst i r hr hty hrt hf
    rw [hlog] at hr
    rw [hptree]
    rcases back hu with ⟨-, rfl⟩ | ⟨hne, hu⟩
    · exact hst.elim
    · -- the key is locked by `u`, so it is not in the write set of `t`
      have hkt : r.key ∉ ws := by
        intro hkt
        obtain ⟨ux', hux', hku⟩ := (hl.writes u r.key).mp ⟨r, List.mem_of_getElem? hr, hty, hrt, rfl⟩
        rw [hu] at hux'
        cases hux'
        exact hne (hi.eq_of_holds hat trivial hkt (hi.holdsX hu hst.holding _ hku).holds)
      simp only [hkt, ↓reduceIte]
      exact h.last hu hst hr hty hrt hf
  case pastSync =>
    intro u ux hu hst i r hr hrt
    rw [hlog] at hr
    rw [hsynced]
    rcases back hu with ⟨-, rfl⟩ | ⟨-, hu⟩
    · exact hst.elim
    · exact h.pastSync hu hst hr hrt

/-- What the body's write-set entry was saved with. -/
theorem saved_body {hist : TxnId → List (Op × Res)} {view : KV} (h : Tracked m₀ p)
    (hl : Logged p.ts) (hi : Iso p.ts.sys hist view) {t : TxnId} {op : Op} {ws : WriteSet}
    (hat : p.ts.sys.At t (.locked op) ws) {e : WriteEntry}
    (he : BodyWrote p.ts.sys t ws op e) (hk : op.key ∉ ws) :
    Origin m₀ p.ts.log op.key e.before (p.tree op.key) ∧
      ∀ i, p.tree op.key = some i → i < p.synced := by
  refine ⟨?_, fun i hi' => ?_⟩
  · rw [he.before_new (Finmap.lookup_eq_none.mpr hk)]
    exact h.tree op.key
  · -- an undurable value would belong to a holder of the lock
    by_contra hlt
    obtain ⟨r, tx, hr, hty, hrk, htx, hfl⟩ := h.owner hi' (by omega)
    obtain ⟨tx', htx', hw⟩ := (hl.writes r.txnId op.key).mp
      ⟨r, List.mem_of_getElem? hr, hty, rfl, hrk⟩
    rw [htx] at htx'
    cases htx'
    have heq : t = r.txnId := hi.eq_of_holds htx hfl.holding hw (hi.locked hat).1
    rw [← heq, hat] at htx
    cases htx
    exact hk hw

/-- What the entries of the write set are saved with after the body. -/
theorem saved_after_body {hist : TxnId → List (Op × Res)} {view : KV} (h : Tracked m₀ p)
    (hl : Logged p.ts) (hi : Iso p.ts.sys hist view) {t : TxnId} {op : Op} {ws : WriteSet}
    (hat : p.ts.sys.At t (.locked op) ws) {k : Bytes} {e : WriteEntry}
    (hk : (KeyVDB.body p.ts.sys t ws op).writeSet.lookup k = some e) :
    Origin m₀ p.ts.log k e.before (if op.key ∉ ws ∧ k = op.key then p.tree k else p.saved t k) ∧
      ∀ i, (if op.key ∉ ws ∧ k = op.key then p.tree k else p.saved t k) = some i →
        i < p.synced := by
  rcases body_cases p.ts.sys t ws op with ⟨e', he⟩ | he
  · rw [he.writeSet] at hk
    by_cases ek : k = op.key
    · subst ek
      rw [Finmap.lookup_insert, Option.some.injEq] at hk
      subst hk
      by_cases hmem : op.key ∈ ws
      · obtain ⟨e₀, he₀⟩ := Finmap.mem_iff.mp hmem
        rw [if_neg fun hc => hc.1 hmem, he.before_old e₀ he₀]
        exact h.saved hat trivial he₀
      · rw [if_pos ⟨hmem, rfl⟩]
        exact h.saved_body hl hi hat he hmem
    · rw [Finmap.lookup_insert_of_ne _ ek] at hk
      rw [if_neg fun hc => ek hc.2]
      exact h.saved hat trivial hk
  · rw [he.writeSet] at hk
    have hmem : k ∈ ws := Finmap.mem_iff.mpr ⟨e, hk⟩
    rw [if_neg fun hc => hc.1 (hc.2 ▸ hmem)]
    exact h.saved hat trivial hk

theorem body {hist : TxnId → List (Op × Res)} {view : KV} (h : Tracked m₀ p)
    (hl : Logged p.ts) (hi : Iso p.ts.sys hist view) {t : TxnId} {op : Op} {ws : WriteSet}
    (hat : p.ts.sys.At t (.locked op) ws)
    (hsys : p'.ts.sys = { p.ts.sys with tree := (body p.ts.sys t ws op).tree
                                        wal := (body p.ts.sys t ws op).wal }.setTxn t .idle
      (KeyVDB.body p.ts.sys t ws op).writeSet)
    (hlog : p'.ts.log = p.ts.log ++ (KeyVDB.body p.ts.sys t ws op).records)
    (hptree : ∀ k, p'.tree k = if (KeyVDB.body p.ts.sys t ws op).res = .wrote ∧ k = op.key
      then some p.ts.log.length else p.tree k)
    (hpsaved : ∀ u k, p'.saved u k = if u = t ∧ op.key ∉ ws ∧ k = op.key
      then p.tree k else p.saved u k)
    (hpdisk : p'.disk = p.disk) (hpdurable : p'.durable = p.durable)
    (hsynced : p'.synced = p.synced) : Tracked m₀ p' := by
  have back : ∀ {u ux}, p'.ts.sys.txns u = some ux →
      (u = t ∧ ux = ⟨.idle, (KeyVDB.body p.ts.sys t ws op).writeSet⟩) ∨
        (u ≠ t ∧ p.ts.sys.txns u = some ux) := by
    intro u ux hu
    rw [hsys] at hu
    exact Sys.setTxn_cases hu
  have hself : p'.ts.sys.txns t = some ⟨.idle, (KeyVDB.body p.ts.sys t ws op).writeSet⟩ := by
    rw [hsys, Sys.setTxn_txns, if_pos rfl]
  have hidle : Stage.InFlight .idle := trivial
  -- if the call wrote, its record is the one at the end of the log
  have hnew : (KeyVDB.body p.ts.sys t ws op).res = .wrote → ∃ r,
      p'.ts.log[p.ts.log.length]? = some r ∧ r.type = .WRITE ∧ r.txnId = t ∧ r.key = op.key ∧
        Fits r.key r.afterVal ∧ r.afterVal = op.value.getD [] := by
    intro hres
    obtain ⟨r, hr, hrest⟩ := record_of_wrote hres
    rw [hlog, hr, List.getElem?_append_right (le_refl _), Nat.sub_self]
    exact ⟨r, rfl, hrest⟩
  constructor
  case synced_le =>
    have := h.synced_le
    rw [hsynced, hlog, List.length_append]
    omega
  case walDurable =>
    rw [hsys, hsynced, hlog, List.take_append_of_le_length h.synced_le]
    exact h.walDurable
  case tree =>
    intro k
    have hget : p'.ts.sys.tree.get k = (KeyVDB.body p.ts.sys t ws op).tree.get k := by rw [hsys]; rfl
    rw [hget, body_tree_get, hptree]
    split
    · next hw =>
      obtain ⟨r, hr, hty, -, hrk, hf, ha⟩ := hnew hw.1
      exact ⟨r, hr, hty, hrk.trans hw.2.symm, hf, ha⟩
    · rw [hlog]
      exact (h.tree k).append _
  case disk => intro k; rw [hsys, hlog, hpdisk]; exact (h.disk k).append _
  case durable => intro k; rw [hsys, hlog, hpdurable]; exact (h.durable k).append _
  case saved =>
    intro u ux hu hst k e hk
    rw [hlog, hsynced, hpsaved]
    rcases back hu with ⟨rfl, rfl⟩ | ⟨hne, hu⟩
    · obtain ⟨h1, h2⟩ := h.saved_after_body hl hi hat hk
      simp only [true_and]
      exact ⟨h1.append _, h2⟩
    · obtain ⟨h1, h2⟩ := h.saved hu hst hk
      rw [if_neg fun hc => hne hc.1]
      exact ⟨h1.append _, h2⟩
  case owner =>
    intro k i hk hi'
    rw [hsynced] at hi'
    rw [hptree] at hk
    split at hk
    · next hw =>
      cases hk
      obtain ⟨r, hr, hty, hrt, hrk, -, -⟩ := hnew hw.1
      exact ⟨r, _, hr, hty, hrk.trans hw.2.symm, hrt.symm ▸ hself, hidle⟩
    · obtain ⟨r, tx, hr, hty, hrk, htx, hfl⟩ := h.owner hk hi'
      have hlt : i < p.ts.log.length := (List.getElem?_eq_some_iff.mp hr).1
      have hr' : p'.ts.log[i]? = some r := by
        rw [hlog, List.getElem?_append_left hlt]
        exact hr
      by_cases e : r.txnId = t
      · exact ⟨r, _, hr', hty, hrk, e.symm ▸ hself, hidle⟩
      · exact ⟨r, tx, hr', hty, hrk, by rw [hsys, Sys.setTxn_txns, if_neg e]; exact htx, hfl⟩
  case last =>
    intro u ux hu hst i r hr hty hrt hf
    rw [hlog] at hr
    rw [hptree]
    split
    · have hlen := records_length_le p.ts.sys t ws op
      have := (List.getElem?_eq_some_iff.mp hr).1
      rw [List.length_append] at this
      exact ⟨_, rfl, by omega⟩
    · next hw =>
      rcases getElem?_append_cases hr with hr₀ | ⟨-, hr⟩
      · rcases back hu with ⟨rfl, -⟩ | ⟨-, hu⟩
        · exact h.last hat trivial hr₀ hty hrt hf
        · exact h.last hu hst hr₀ hty hrt hf
      · obtain ⟨-, hrk, hres⟩ := of_mem_records hr
        exact (hw ⟨hres hf, hrk⟩).elim
  case pastSync =>
    intro u ux hu hst i r hr hrt
    rw [hlog] at hr
    rw [hsynced]
    rcases back hu with ⟨-, rfl⟩ | ⟨hne, hu⟩
    · exact hst.elim
    · rcases getElem?_append_cases hr with hr | ⟨-, hr⟩
      · exact h.pastSync hu hst hr hrt
      · exact (hne (hrt.symm.trans (of_mem_records hr).1)).elim

/-- A step of one transaction that keeps its write set, for `other`. -/
theorem back_setTxn {s s₁ : Sys} {t : TxnId} {st st' : Stage} {ws : WriteSet} (hat : s.At t st ws)
    (htxns : s₁.txns = s.txns) (hlive : st'.Live → st.Live) (hfl : st'.InFlight → st.InFlight)
    (hps : st'.PastSync → st.PastSync) (u : TxnId) (ux' : Transaction)
    (hu : (s₁.setTxn t st' ws).txns u = some ux') :
    (s.txns u = none ∧ ux'.writeSet = ∅ ∧ ux'.stage = .idle) ∨
      ∃ ux, s.txns u = some ux ∧ ux'.writeSet = ux.writeSet ∧ (ux'.stage.Live → ux.stage.Live) ∧
        (ux'.stage.InFlight → ux.stage.InFlight) ∧ (ux'.stage.PastSync → ux.stage.PastSync) := by
  right
  rcases Sys.setTxn_cases hu with ⟨rfl, rfl⟩ | ⟨-, hu⟩
  · exact ⟨_, hat, rfl, hlive, hfl, hps⟩
  · exact ⟨ux', htxns ▸ hu, rfl, id, id, id⟩

theorem keep_setTxn {s s₁ : Sys} {t : TxnId} {st st' : Stage} {ws : WriteSet} (hat : s.At t st ws)
    (htxns : s₁.txns = s.txns) (hfl : st.InFlight → st'.InFlight) (u : TxnId) (ux : Transaction)
    (hu : s.txns u = some ux) (hst : ux.stage.InFlight) :
    ∃ ux', (s₁.setTxn t st' ws).txns u = some ux' ∧ ux'.stage.InFlight := by
  by_cases e : u = t
  · subst e
    rw [hat] at hu
    cases hu
    exact ⟨⟨st', ws⟩, by rw [Sys.setTxn_txns, if_pos rfl], hfl hst⟩
  · exact ⟨ux, by rw [Sys.setTxn_txns, if_neg e, htxns, hu], hst⟩

theorem pstep {hist : TxnId → List (Op × Res)} {view : KV} (h : Tracked m₀ p) (hl : Logged p.ts)
    (hi : Iso p.ts.sys hist view) {a : Action} (hs : pstep p a = some p') : Tracked m₀ p' := by
  obtain ⟨ts', hts, rfl⟩ := Option.map_eq_some_iff.mp hs
  obtain ⟨hstep, -, hlog⟩ := tstep_eq hts
  obtain ⟨⟨s, events, log⟩, ptree, psaved, pdisk, pdurable, synced, out⟩ := p
  obtain ⟨s', events', log'⟩ := ts'
  simp only at hstep hlog hi
  cases hstep with
  | begin hid =>
    refine h.other hl hlog ?_ rfl rfl rfl rfl rfl h.disk h.durable ?_ ?_ ?_
    · intro r hr
      rw [List.mem_singleton.mp hr]
      exact fun h => by cases h
    · intro t tx' ht
      simp only [Function.update_apply] at ht
      split at ht
      · next e => cases ht; exact Or.inl ⟨e ▸ hi.fresh_next, rfl, rfl⟩
      · exact Or.inr ⟨tx', ht, rfl, id, id, id⟩
    · intro t tx ht hst
      have hne : t ≠ s.wal.nextTxnId := by
        rintro rfl
        rw [hi.fresh_next] at ht
        cases ht
      exact ⟨tx, by simp only [Function.update_of_ne hne]; exact ht, hst⟩
    · intro r hr tx' ht hst
      rw [List.mem_singleton.mp hr] at ht
      have hid : s.wal.beginTxn.1.txnId = s.wal.nextTxnId := rfl
      simp only [hid, Function.update_self] at ht
      cases ht
      exact hst
  | lock hat hk =>
    exact h.other hl hlog (List.forall_mem_nil _) rfl rfl rfl rfl rfl h.disk h.durable
      (back_setTxn hat rfl id id id) (keep_setTxn hat rfl id)
      (List.forall_mem_nil _)
  | timeout hat =>
    exact h.other hl hlog (List.forall_mem_nil _) rfl rfl rfl rfl rfl h.disk h.durable
      (fun t tx' ht => Or.inr ⟨tx', ht, rfl, id, id, id⟩) (fun t tx ht hst => ⟨tx, ht, hst⟩)
      (List.forall_mem_nil _)
  | @body t op ws hat =>
    have hat' : s.txns t = some _ := hat
    refine h.body hl hi hat rfl ?_ (Prov.track_body_tree hat') (Prov.track_body_saved hat') ?_ ?_ ?_
    · simp only [hlog, recordOf, hat']
    all_goals
      simp only [Prov.track_body
        (p := ⟨⟨s, events, log⟩, ptree, psaved, pdisk, pdurable, synced, out⟩) hat']
  | @appendCommit t ws hat =>
    refine h.other hl hlog ?_ rfl rfl rfl rfl rfl h.disk h.durable
      (back_setTxn hat rfl (fun _ => trivial) (fun _ => trivial) id)
      (keep_setTxn hat rfl fun _ => trivial) ?_
    · intro r hr
      rw [List.mem_singleton.mp hr]
      exact fun h => by cases h
    · intro r hr tx' ht hst
      rw [List.mem_singleton.mp hr] at ht
      rcases Sys.setTxn_cases ht with ⟨-, rfl⟩ | ⟨hne, -⟩
      · exact hst
      · exact hne rfl
  | walFlush hat =>
    exact h.walFlush hl rfl (by simpa [recordOf] using hlog) rfl rfl rfl rfl rfl
  | dataFlush hat =>
    exact h.other hl hlog (List.forall_mem_nil _) rfl rfl rfl rfl rfl h.tree h.tree
      (back_setTxn hat rfl id id id) (keep_setTxn hat rfl id)
      (List.forall_mem_nil _)
  | @undoAll t order ws tree hat hnd hkeys hok =>
    have hat' : s.txns t = some _ := hat
    obtain ⟨tree', hok', hout, hin⟩ := hi.undoAll_ok hat hkeys
    obtain rfl : tree' = tree := Except.ok.inj (hok'.symm.trans hok)
    refine h.undoAll hl hi hat hout hin rfl (by simpa [recordOf] using hlog) ?_ ?_ ?_ ?_ ?_
    all_goals
      simp only [Prov.track_undoAll
        (p := ⟨⟨s, events, log⟩, ptree, psaved, pdisk, pdurable, synced, out⟩) hat']
  | undoThrows hat hnd hkeys herr =>
    obtain ⟨tree, hok, -⟩ := hi.undoAll_ok hat hkeys
    rw [hok] at herr
    cases herr
  | @appendAbort t ws hat =>
    refine h.other hl hlog ?_ rfl rfl rfl rfl rfl h.disk h.durable
      (back_setTxn hat rfl id id id) (keep_setTxn hat rfl id) ?_
    · intro r hr
      rw [List.mem_singleton.mp hr]
      exact fun h => by cases h
    · intro r hr tx' ht hst
      rw [List.mem_singleton.mp hr] at ht
      rcases Sys.setTxn_cases ht with ⟨-, rfl⟩ | ⟨hne, -⟩
      · exact hst
      · exact hne rfl
  | releaseCommit hat =>
    exact h.other hl hlog (List.forall_mem_nil _) rfl rfl rfl rfl rfl h.disk h.durable
      (back_setTxn hat rfl id id id) (keep_setTxn hat rfl id)
      (List.forall_mem_nil _)
  | releaseAbort hat =>
    exact h.other hl hlog (List.forall_mem_nil _) rfl rfl rfl rfl rfl h.disk h.durable
      (back_setTxn hat rfl id id id) (keep_setTxn hat rfl id)
      (List.forall_mem_nil _)
  | evict k =>
    refine h.other hl hlog (List.forall_mem_nil _) rfl rfl rfl rfl rfl (fun k' => ?_) h.durable
      (fun t tx' ht => Or.inr ⟨tx', ht, rfl, id, id, id⟩) (fun t tx ht hst => ⟨tx, ht, hst⟩)
      (List.forall_mem_nil _)
    simp only [Prov.track_evict, KV.writeOut_get, Function.update_apply]
    split
    · next e => rw [e]; exact h.tree k
    · exact h.disk k'
  | dataFsync =>
    exact h.other hl hlog (List.forall_mem_nil _) rfl rfl rfl rfl rfl h.disk h.disk
      (fun t tx' ht => Or.inr ⟨tx', ht, rfl, id, id, id⟩) (fun t tx ht hst => ⟨tx, ht, hst⟩)
      (List.forall_mem_nil _)

end Tracked

/-! ## Exactly when the rule holds -/

/-- The writes of the key that are in the log from position `n` on, and that the tree accepted, have
all been rolled back. -/
def Traced.RolledBackFrom (ts : Traced) (n : Nat) (k : Bytes) : Prop :=
  ∀ i r, n ≤ i → ts.log[i]? = some r → r.type = .WRITE → r.key = k → Fits r.key r.afterVal →
    ∃ tx, ts.sys.txns r.txnId = some tx ∧ tx.stage.Undone

/-- The steps that keep the rule. When `Commit` flushes all pages, every write that was logged since
the last fsync of the log has been rolled back; when the free list fsyncs the data file, the writes
of each key that are still not fsynced had been rolled back when the key was last written out. -/
def SyncedStep (p : Prov) : Action → Prop
  | .dataFlush t => ∀ ws, p.ts.sys.At t .synced ws → ∀ k, p.ts.RolledBackFrom p.synced k
  | .dataFsync => ∀ k, (p.out k).RolledBackFrom p.synced k
  | _ => True

theorem Stage.inFlight_or {st : Stage} (h : st ≠ .failed) :
    st.InFlight ∨ st.PastSync ∨ st.Undone := by
  cases st with
  | failed => exact (h rfl).elim
  | idle => exact Or.inl trivial
  | locked op => exact Or.inl trivial
  | committing => exact Or.inl trivial
  | undone => exact Or.inr (Or.inr trivial)
  | aborted => exact Or.inr (Or.inr trivial)
  | rolledBack => exact Or.inr (Or.inr trivial)
  | _ => exact Or.inr (Or.inl trivial)

theorem Stage.InFlight.not_undone {st : Stage} (h : st.InFlight) : ¬ st.Undone := by
  cases st <;> first | exact id | exact fun _ => h

/-- The value of a key in the tree has its record among the first `n` of the log, of which at least
these are durable, if and only if the writes of the key behind them have been rolled back. -/
theorem Tracked.tree_lt_iff {m₀ : KV} {p : Prov} {hist : TxnId → List (Op × Res)} {view : KV}
    (h : Tracked m₀ p) (hl : Logged p.ts) (hi : Iso p.ts.sys hist view) {n : Nat}
    (hn : p.synced ≤ n) (k : Bytes) :
    (∀ i, p.tree k = some i → i < n) ↔ p.ts.RolledBackFrom n k := by
  constructor
  · intro hall i r hi' hr hty hk hf
    obtain ⟨tx, htx, -⟩ := (hl.writes r.txnId r.key).mp ⟨r, List.mem_of_getElem? hr, hty, rfl, rfl⟩
    refine ⟨tx, htx, ?_⟩
    rcases Stage.inFlight_or (hi.not_failed htx) with hfl | hps | hun
    · obtain ⟨j, hj, hij⟩ := h.last htx hfl hr hty rfl hf
      have := hall j (hk ▸ hj)
      omega
    · have := h.pastSync htx hps hr rfl
      omega
    · exact hun
  · intro hall i hk
    by_contra hlt
    obtain ⟨r, tx, hr, hty, hrk, htx, hfl⟩ := h.owner hk (by omega)
    obtain ⟨r', hr', -, -, hf, -⟩ := (hk ▸ h.tree k : Origin m₀ p.ts.log k _ (some i))
    rw [hr] at hr'
    cases hr'
    obtain ⟨tx', htx', hun⟩ := hall i r (by omega) hr hty hrk hf
    rw [htx] at htx'
    cases htx'
    exact hfl.not_undone hun

/-- The steps other than the two fsyncs of the data file keep the rule. -/
theorem WriteAhead.keep {p p' : Prov} {a : Action} (h : WriteAhead p)
    (hle : p.synced ≤ p.ts.log.length) (hs : pstep p a = some p') (h1 : ∀ t, a ≠ .dataFlush t)
    (h2 : a ≠ .dataFsync) : WriteAhead p' := by
  obtain ⟨ts', -, rfl⟩ := Option.map_eq_some_iff.mp hs
  intro k i hk
  have hlt := h k i (Prov.track_durable h1 h2 ▸ hk)
  exact hlt.trans_le (Prov.synced_le_track a hle)

theorem Step.dataFlush_inv {s s' : Sys} {t : TxnId} (h : Step s (.dataFlush t) s') :
    ∃ ws, s.At t .synced ws := by
  cases h with
  | dataFlush hat => exact ⟨_, hat⟩

/-- What is known about every state of a run. -/
structure Prov.Sound (m₀ : KV) (p : Prov) : Prop where
  serial : ∃ view, Serial m₀ p.ts view
  logged : Logged p.ts
  tracked : Tracked m₀ p

theorem Prov.Sound.opened (m₀ : KV) : Prov.Sound m₀ (.opened m₀) :=
  ⟨⟨m₀, Serial.opened m₀⟩, Logged.opened m₀, Tracked.opened m₀⟩

theorem Prov.Sound.pstep {m₀ : KV} {p p' : Prov} {a : Action} (h : Prov.Sound m₀ p)
    (hs : pstep p a = some p') : Prov.Sound m₀ p' := by
  obtain ⟨view, hser⟩ := h.serial
  obtain ⟨ts', hts, hp'⟩ := Option.map_eq_some_iff.mp hs
  obtain ⟨view', hser', -⟩ := hser.tstep hts
  exact ⟨⟨view', hp' ▸ hser'⟩, hp' ▸ h.logged.tstep hser.iso hts,
    h.tracked.pstep h.logged hser.iso hs⟩

theorem Prov.Sound.tree_lt_iff {m₀ : KV} {p : Prov} (h : Prov.Sound m₀ p) {n : Nat}
    (hn : p.synced ≤ n) (k : Bytes) : (∀ i, p.tree k = some i → i < n) ↔ p.ts.RolledBackFrom n k := by
  obtain ⟨view, hser⟩ := h.serial
  exact h.tracked.tree_lt_iff h.logged hser.iso hn k

/-- `q` is the state in which the key was last written out. -/
structure WrittenOut (m₀ : KV) (p q : Prov) (k : Bytes) : Prop where
  sound : Prov.Sound m₀ q
  out : p.out k = q.ts
  disk : p.disk k = q.tree k
  synced_le : q.synced ≤ p.synced

theorem WrittenOut.pstep {m₀ : KV} {p p' q : Prov} {k : Bytes} {a : Action}
    (h : WrittenOut m₀ p q k) (hp : Prov.Sound m₀ p) (hs : KeyVDB.pstep p a = some p') :
    ∃ q', WrittenOut m₀ p' q' k := by
  obtain ⟨ts', hts, rfl⟩ := Option.map_eq_some_iff.mp hs
  have hle : p.synced ≤ (p.track a).synced := Prov.synced_le_track a hp.tracked.synced_le
  by_cases hflush : ∃ t, a = .dataFlush t
  · obtain ⟨t, rfl⟩ := hflush
    exact ⟨p, hp, rfl, rfl, hle⟩
  by_cases hevict : a = .evict k
  · subst hevict
    exact ⟨p, hp, Function.update_self .., Function.update_self .., hle⟩
  -- another key may be written out
  have hsame : (p.track a).disk k = p.disk k ∧ (p.track a).out k = p.out k := by
    by_cases hother : ∃ k', a = .evict k'
    · obtain ⟨k', rfl⟩ := hother
      have hne : k ≠ k' := fun e => hevict (e ▸ rfl)
      exact ⟨Function.update_of_ne hne .., Function.update_of_ne hne ..⟩
    · obtain ⟨hdisk, hout⟩ := Prov.track_disk (p := p) (fun t e => hflush ⟨t, e⟩)
        (fun k' e => hother ⟨k', e⟩)
      exact ⟨congrFun hdisk k, congrFun hout k⟩
  exact ⟨q, h.sound, hsame.2.trans h.out, hsame.1.trans h.disk, h.synced_le.trans hle⟩

/-- What the data file has of a key has a durable record if and only if the writes of the key that
are not durable had been rolled back when it was written out. -/
theorem WrittenOut.disk_lt_iff {m₀ : KV} {p q : Prov} {k : Bytes} (h : WrittenOut m₀ p q k) :
    (∀ i, p.disk k = some i → i < p.synced) ↔ (p.out k).RolledBackFrom p.synced k := by
  rw [h.disk, h.out]
  exact h.sound.tree_lt_iff h.synced_le k

/-- The states that keep the rule, with what is known about them. -/
structure Ahead (m₀ : KV) (p : Prov) : Prop where
  sound : Prov.Sound m₀ p
  written : ∀ k, ∃ q, WrittenOut m₀ p q k
  ahead : WriteAhead p

/-- The rule after a step is the condition on the step. -/
theorem Ahead.writeAhead_iff {m₀ : KV} {p p' : Prov} {a : Action} (h : Ahead m₀ p)
    (hs : pstep p a = some p') : WriteAhead p' ↔ SyncedStep p a := by
  have hkeep := h.ahead.keep h.sound.tracked.synced_le hs
  obtain ⟨ts', hts, rfl⟩ := Option.map_eq_some_iff.mp hs
  cases a with
  | dataFlush t =>
    obtain ⟨ws, hat⟩ := (tstep_eq hts).1.dataFlush_inv
    have hiff : WriteAhead { p.track (.dataFlush t) with ts := ts' } ↔
        ∀ k, p.ts.RolledBackFrom p.synced k :=
      forall_congr' fun k => h.sound.tree_lt_iff (le_refl _) k
    exact hiff.trans ⟨fun hall _ _ => hall, fun hall => hall ws hat⟩
  | dataFsync =>
    refine forall_congr' fun k => ?_
    obtain ⟨q, hq⟩ := h.written k
    exact hq.disk_lt_iff
  | _ => exact iff_of_true (hkeep nofun nofun) trivial

theorem Ahead.pstep {m₀ : KV} {p p' : Prov} {a : Action} (h : Ahead m₀ p)
    (hs : pstep p a = some p') (hC : SyncedStep p a) : Ahead m₀ p' := by
  refine ⟨h.sound.pstep hs, fun k => ?_, (h.writeAhead_iff hs).mpr hC⟩
  obtain ⟨q, hq⟩ := h.written k
  exact hq.pstep h.sound hs

/-- A step that is not enabled meets the condition: the free list can always fsync, and the flush
of a commit asks for the stage. -/
theorem SyncedStep.of_not_enabled {p : Prov} {a : Action} (h : pstep p a = none) :
    SyncedStep p a := by
  cases a with
  | dataFlush t =>
    intro ws hat
    have hat : p.ts.sys.txns t = some { stage := .synced, writeSet := ws } := hat
    simp [pstep, tstep, step, Sys.when, hat] at h
  | dataFsync => simp [pstep, tstep, step] at h
  | _ => trivial

/-- **The write-ahead rule.** It holds in every state of a run if and only if every fsync of the data
file in the run meets `SyncedStep`, a condition on what was logged, rolled back, written out and
fsynced when. -/
theorem writeAhead_along_iff (m₀ : KV) (as : List Action) :
    Along pstep WriteAhead (.opened m₀) as ↔ Steps pstep SyncedStep (.opened m₀) as := by
  refine along_iff_steps (fun p (h : Ahead m₀ p) => h.ahead) (fun p a p' h hs hC => h.pstep hs hC)
    (fun p a p' h hs hP => (h.writeAhead_iff hs).mp hP)
    (fun p a _ h => SyncedStep.of_not_enabled h) ?_
  have hsound := Prov.Sound.opened m₀
  exact ⟨hsound, fun k => ⟨_, hsound, rfl, rfl, le_refl _⟩, nofun⟩

/-- A second transaction writes between the first one's fsync of the log and its flush of the
data file. -/
theorem commit_flushes_unlogged_write :
    ¬ Along pstep WriteAhead (.opened .empty)
      [.begin, .begin, .appendCommit 1, .walFlush 1, .lock 2 (.put [97] [1]), .body 2,
        .dataFlush 1] := by
  intro h
  have hend : ((run pstep (.opened .empty)
      [.begin, .begin, .appendCommit 1, .walFlush 1, .lock 2 (.put [97] [1]), .body 2,
        .dataFlush 1]).map fun p => (p.durable [97], p.synced)) = some (some 3, 3) := by decide
  obtain ⟨p, hrun, hp⟩ := Option.map_eq_some_iff.mp hend
  simp only [Prod.mk.injEq] at hp
  have := h.at hrun [97] 3 hp.1
  omega

end KeyVDB
