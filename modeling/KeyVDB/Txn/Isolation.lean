import KeyVDB.Txn.System

/-!
# Isolation

Strict two-phase locking makes every run equivalent to a serial one. The invariant `Iso` ties the
shared tree to a *view*, the map that the committed transactions alone have produced: a key has its
view value unless some live transaction has it in its write set, and then the entry's before-image
is the view value. A live transaction's calls, replayed on the view, give the results they gave
in the run. A commit replaces the view by that replay; since the committing transaction holds
its keys exclusively, nobody else's replay changes.
-/

namespace KeyVDB

/-! ## Serial execution -/

/-- A call executed alone on the map. -/
def Op.exec (m : KV) : Op → KV × Res
  | .get k => (m, .got (m.get k))
  | .put k v =>
    match m.insert k v with
    | .ok m' => (m', .wrote)
    | .error e => (m, .threw e)
  | .delete k =>
    match m.get k with
    | none => (m, .nothing)
    | some _ => (m.remove k, .wrote)

/-- The calls of one transaction, executed alone. -/
def replay : KV → List Op → KV × List Res
  | m, [] => (m, [])
  | m, op :: ops => ((replay (op.exec m).1 ops).1, (op.exec m).2 :: (replay (op.exec m).1 ops).2)

/-- Transactions, one after the other. -/
def serial : KV → List (List Op) → KV × List (List Res)
  | m, [] => (m, [])
  | m, tx :: txs => ((serial (replay m tx).1 txs).1, (replay m tx).2 :: (serial (replay m tx).1 txs).2)

/-- The transactions in the order of their COMMIT records. -/
def commitOrder (events : List Event) : List TxnId :=
  events.filterMap fun
    | .commit t => some t
    | .call .. => none

/-- The calls of `t` with their outcomes. -/
def callsOf (events : List Event) (t : TxnId) : List (Op × Res) :=
  events.filterMap fun
    | .call u op res => if u = t then some (op, res) else none
    | .commit _ => none

def opsOf (events : List Event) (t : TxnId) : List Op := (callsOf events t).map Prod.fst

def resultsOf (events : List Event) (t : TxnId) : List Res := (callsOf events t).map Prod.snd

namespace Op

theorem exec_get_of_ne (op : Op) (m : KV) {k : Bytes} (h : k ≠ op.key) :
    (op.exec m).1.get k = m.get k := by
  cases op with
  | get k' => rfl
  | put k' v =>
    by_cases hf : Fits k' v
    · simp only [exec, KV.insert_of_fits m hf]
      rw [KV.set_get]; exact if_neg h
    · simp only [exec, KV.insert_of_not_fits m hf]
  | delete k' =>
    cases hg : m.get k' with
    | none => simp only [exec, hg]
    | some v =>
      simp only [exec, hg]
      rw [KV.remove_get]; exact if_neg h

/-- A call reads and writes only its key. -/
theorem exec_congr (op : Op) {m m' : KV} (h : m.get op.key = m'.get op.key) :
    (op.exec m).2 = (op.exec m').2 ∧
      ∀ k, m.get k = m'.get k → (op.exec m).1.get k = (op.exec m').1.get k := by
  cases op with
  | get k' => exact ⟨congrArg Res.got h, fun _ hk => hk⟩
  | put k' v =>
    by_cases hf : Fits k' v
    · simp only [exec, KV.insert_of_fits _ hf, KV.set_get]
      exact ⟨trivial, fun k hk => by rw [hk]⟩
    · simp only [exec, KV.insert_of_not_fits _ hf]
      exact ⟨trivial, fun k hk => hk⟩
  | delete k' =>
    have h : m.get k' = m'.get k' := h
    cases hg : m.get k' with
    | none =>
      simp only [exec, hg, ← h]
      exact ⟨trivial, fun k hk => hk⟩
    | some v =>
      simp only [exec, hg, ← h, KV.remove_get]
      exact ⟨trivial, fun k hk => by rw [hk]⟩

end Op

theorem replay_append (m : KV) (ops : List Op) (op : Op) :
    replay m (ops ++ [op]) =
      ((op.exec (replay m ops).1).1, (replay m ops).2 ++ [(op.exec (replay m ops).1).2]) := by
  induction ops generalizing m with
  | nil => rfl
  | cons o ops ih => simp only [List.cons_append, replay, ih]

theorem replay_get_of_not_mem {ops : List Op} {k : Bytes} (h : ∀ op ∈ ops, k ≠ op.key) (m : KV) :
    (replay m ops).1.get k = m.get k := by
  induction ops generalizing m with
  | nil => rfl
  | cons o ops ih =>
    have htail := ih (fun op hop => h op (List.mem_cons_of_mem _ hop)) (o.exec m).1
    exact htail.trans (o.exec_get_of_ne m (h o List.mem_cons_self))

/-- A replay depends only on the keys it touches. -/
theorem replay_congr {ops : List Op} {m m' : KV} (h : ∀ op ∈ ops, m.get op.key = m'.get op.key) :
    (replay m ops).2 = (replay m' ops).2 ∧
      ∀ k, m.get k = m'.get k → (replay m ops).1.get k = (replay m' ops).1.get k := by
  induction ops generalizing m m' with
  | nil => exact ⟨rfl, fun _ hk => hk⟩
  | cons o ops ih =>
    obtain ⟨h1, h2⟩ := o.exec_congr (h o List.mem_cons_self)
    obtain ⟨i1, i2⟩ := ih fun op hop => h2 _ (h op (List.mem_cons_of_mem _ hop))
    exact ⟨by simp only [replay, h1, i1], fun k hk => i2 k (h2 k hk)⟩

theorem serial_append (m : KV) (txs : List (List Op)) (tx : List Op) :
    serial m (txs ++ [tx]) =
      ((replay (serial m txs).1 tx).1, (serial m txs).2 ++ [(replay (serial m txs).1 tx).2]) := by
  induction txs generalizing m with
  | nil => rfl
  | cons t txs ih => simp only [List.cons_append, serial, ih]

/-- Below the largest value, the id counter counts. -/
theorem int64_succ {a : Int64} (h1 : 1 ≤ a.toInt) (h2 : a.toInt < 2 ^ 63 - 1) :
    (a + 1).toInt = a.toInt + 1 := by
  rw [Int64.toInt_add, show (1 : Int64).toInt = 1 from rfl, Int.bmod_def]
  omega

/-! ## The body of a call against its serial execution -/

section Body

variable (s : Sys) (t : TxnId) (ws : WriteSet) (op : Op)

/-- On the tree, a body is the serial call. -/
theorem body_exec : (body s t ws op).tree = (op.exec s.tree).1 ∧
    (body s t ws op).res = (op.exec s.tree).2 := by
  cases op with
  | get k => exact ⟨rfl, rfl⟩
  | put k v =>
    by_cases hf : Fits k v
    · simp [body, putLocked, Op.exec, KV.insert_of_fits _ hf]
    · simp [body, putLocked, Op.exec, KV.insert_of_not_fits _ hf]
  | delete k =>
    cases hg : s.tree.get k <;> simp [body, deleteLocked, Op.exec, hg]

/-- The body logged a write, with the write-set entry `e`. -/
structure BodyWrote (e : WriteEntry) : Prop where
  writeSet : (body s t ws op).writeSet = ws.insert op.key e
  mode : op.mode = .EXCLUSIVE
  before_old : ∀ e', ws.lookup op.key = some e' → e.before = e'.before
  before_new : ws.lookup op.key = none → e.before = s.tree.get op.key
  records : (body s t ws op).records =
    [(s.wal.appendWrite t op.key e.beforeExists e.beforeVal op.after).1]
  wal : (body s t ws op).wal = (s.wal.appendWrite t op.key e.beforeExists e.beforeVal op.after).2
  accepted : op.Accepted → (body s t ws op).res = .wrote ∧ (∃ v, Fits op.key v) ∧
    (op.after ≠ [] → Fits op.key op.after)

/-- The body changed nothing. -/
structure BodyIdle : Prop where
  writeSet : (body s t ws op).writeSet = ws
  tree : (body s t ws op).tree = s.tree
  records : (body s t ws op).records = []
  wal : (body s t ws op).wal = s.wal
  res : (body s t ws op).res ≠ .wrote

theorem bodyWrote_put (k v : Bytes) : BodyWrote s t ws (.put k v) (putEntry s ws k v) := by
  have hbody : ∃ tree res, body s t ws (.put k v) =
      { tree, writeSet := ws.insert k (putEntry s ws k v),
        wal := (s.wal.appendWrite t k (putEntry s ws k v).beforeExists
          (putEntry s ws k v).beforeVal v).2,
        records := [(s.wal.appendWrite t k (putEntry s ws k v).beforeExists
          (putEntry s ws k v).beforeVal v).1], res } ∧ (Fits k v → res = .wrote) := by
    by_cases hf : Fits k v
    · exact ⟨s.tree.set k v hf, .wrote, by simp only [body, putLocked, KV.insert_of_fits _ hf],
        fun _ => rfl⟩
    · exact ⟨s.tree, .threw (tooLarge k v),
        by simp only [body, putLocked, KV.insert_of_not_fits _ hf], fun h => (hf h).elim⟩
  obtain ⟨tree, res, hbody, hres⟩ := hbody
  constructor
  case writeSet => rw [hbody]; rfl
  case mode => rfl
  case before_old =>
    intro e' he'
    have he' : ws.lookup k = some e' := he'
    simp [putEntry, he', WriteEntry.before]
  case before_new =>
    intro hn
    have hn : ws.lookup k = none := hn
    show _ = s.tree.get k
    cases hg : s.tree.get k <;> simp [putEntry, hn, WriteEntry.before, hg]
  case records => rw [hbody]; rfl
  case wal => rw [hbody]; rfl
  case accepted =>
    intro hf
    exact ⟨by rw [hbody]; exact hres hf, ⟨v, hf⟩, fun _ => hf⟩

theorem bodyWrote_delete {k old : Bytes} (hg : s.tree.get k = some old) :
    BodyWrote s t ws (.delete k) (deleteEntry ws k old) := by
  constructor
  case writeSet => simp [body, deleteLocked, hg, Op.key]
  case mode => rfl
  case before_old =>
    intro e' he'
    have he' : ws.lookup k = some e' := he'
    simp [deleteEntry, he', WriteEntry.before]
  case before_new =>
    intro hn
    have hn : ws.lookup k = none := hn
    show _ = s.tree.get k
    simp [deleteEntry, hn, WriteEntry.before, hg]
  case records => simp [body, deleteLocked, hg, Op.key, Op.after, Op.value]
  case wal => simp [body, deleteLocked, hg, Op.key, Op.after, Op.value]
  case accepted =>
    intro _
    exact ⟨by simp [body, deleteLocked, hg], ⟨old, s.tree.fits hg⟩, fun h => (h rfl).elim⟩

/-- Either the body logged a write, or it changed nothing. -/
theorem body_cases : (∃ e, BodyWrote s t ws op e) ∨ BodyIdle s t ws op := by
  cases op with
  | get k => exact Or.inr ⟨rfl, rfl, rfl, rfl, nofun⟩
  | put k v => exact Or.inl ⟨_, bodyWrote_put s t ws k v⟩
  | delete k =>
    cases hg : s.tree.get k with
    | none => right; constructor <;> simp [body, deleteLocked, hg]
    | some old => exact Or.inl ⟨_, bodyWrote_delete s t ws hg⟩

variable {s t ws op} in
theorem mem_body_writeSet {k : Bytes} (h : k ∈ ws) : k ∈ (body s t ws op).writeSet := by
  rcases body_cases s t ws op with ⟨e, he⟩ | he
  · rw [he.writeSet, Finmap.mem_insert]
    exact Or.inr h
  · rw [he.writeSet]
    exact h

variable {s t ws op} in
/-- A call that leaves its key out of the write set does nothing to the tree. -/
theorem body_tree_of_not_mem (h : op.key ∉ (body s t ws op).writeSet) :
    (body s t ws op).tree = s.tree := by
  rcases body_cases s t ws op with ⟨e, he⟩ | he
  · rw [he.writeSet, Finmap.mem_insert] at h
    exact (h (Or.inl rfl)).elim
  · exact he.tree

variable {op} in
theorem body_tree_get_of_ne {k : Bytes} (h : k ≠ op.key) :
    (body s t ws op).tree.get k = s.tree.get k := by
  rw [(body_exec s t ws op).1]
  exact op.exec_get_of_ne s.tree h

theorem body_nextTxnId : (body s t ws op).wal.nextTxnId = s.wal.nextTxnId := by
  rcases body_cases s t ws op with ⟨e, he⟩ | he
  · rw [he.wal]; rfl
  · rw [he.wal]

end Body

/-- `undo_all` restores the before-image of every key of the write set, in whatever order. -/
theorem undoAll_ok {ws : WriteSet} (hfit : ∀ k e v, ws.lookup k = some e → e.before = some v →
    Fits k v) (order : List Bytes) (tree : KV) :
    ∃ tree', undoAll ws order tree = .ok tree' ∧
      ∀ k, tree'.get k = match ws.lookup k with
        | some e => if k ∈ order then e.before else tree.get k
        | none => tree.get k := by
  induction order generalizing tree with
  | nil => exact ⟨tree, rfl, fun k => by cases ws.lookup k <;> simp⟩
  | cons k₀ order ih =>
    cases hl : ws.lookup k₀ with
    | none =>
      obtain ⟨t', h1, h2⟩ := ih tree
      refine ⟨t', ?_, fun k => ?_⟩
      · simp only [undoAll, List.foldlM_cons, hl]
        exact h1
      · rw [h2 k]
        cases hk : ws.lookup k with
        | none => rfl
        | some e =>
          have : k ≠ k₀ := by rintro rfl; rw [hl] at hk; cases hk
          simp [this]
    | some e₀ =>
      -- the first key: removed, or inserted with a value that fits
      have hone : ∃ t1, (if e₀.beforeExists = false then .ok (tree.remove k₀)
          else tree.insert k₀ e₀.beforeVal : Except Exn KV) = .ok t1 ∧
          ∀ k, t1.get k = if k = k₀ then e₀.before else tree.get k := by
        cases hb : e₀.beforeExists with
        | false => exact ⟨_, rfl, fun k => by simp [WriteEntry.before, hb]⟩
        | true =>
          have hf : Fits k₀ e₀.beforeVal := hfit k₀ e₀ _ hl (by simp [WriteEntry.before, hb])
          exact ⟨_, KV.insert_of_fits tree hf, fun k => by simp [WriteEntry.before, hb]⟩
      obtain ⟨t1, e1, g1⟩ := hone
      obtain ⟨t', h1, h2⟩ := ih t1
      refine ⟨t', ?_, fun k => ?_⟩
      · simp only [undoAll, List.foldlM_cons, hl, e1]
        exact h1
      · rw [h2 k]
        by_cases hk : k = k₀
        · subst hk
          simp [hl, g1]
        · cases hk' : ws.lookup k <;> simp [hk, g1]

/-! ## The invariant -/

namespace Stage

/-- The transaction can still make calls; its writes are in the tree and not committed. -/
def Live : Stage → Prop
  | idle => True
  | locked _ => True
  | _ => False

/-- `release_all` has not run. -/
def Holding : Stage → Prop
  | committed => False
  | rolledBack => False
  | _ => True

theorem Live.holding {st : Stage} (h : st.Live) : st.Holding := by
  cases st <;> trivial

end Stage

/-- The tie between the tree, the locks, the histories `hist` and the view. -/
structure Iso (s : Sys) (hist : TxnId → List (Op × Res)) (view : KV) : Prop where
  next_pos : 1 ≤ s.wal.nextTxnId.toInt
  ids : ∀ {t tx}, s.txns t = some tx → 1 ≤ t.toInt ∧ t.toInt < s.wal.nextTxnId.toInt
  fresh : ∀ {t}, s.txns t = none → hist t = []
  not_failed : ∀ {t tx}, s.txns t = some tx → tx.stage ≠ .failed
  excl : s.locks.Excl
  locked : ∀ {t op ws}, s.At t (.locked op) ws → s.locks.Holds t op.key ∧
    (op.mode = .EXCLUSIVE → s.locks.HoldsX t op.key)
  holdsX : ∀ {t tx}, s.txns t = some tx → tx.stage.Holding → ∀ k ∈ tx.writeSet,
    s.locks.HoldsX t k
  holds : ∀ {t tx}, s.txns t = some tx → tx.stage.Holding → ∀ c ∈ hist t,
    s.locks.Holds t c.1.key
  before : ∀ {t tx}, s.txns t = some tx → tx.stage.Live → ∀ {k e}, tx.writeSet.lookup k = some e →
    e.before = view.get k
  clean : ∀ k, (∀ t tx, s.txns t = some tx → tx.stage.Live → k ∉ tx.writeSet) →
    s.tree.get k = view.get k
  results : ∀ {t tx}, s.txns t = some tx → tx.stage.Live →
    (replay view ((hist t).map Prod.fst)).2 = (hist t).map Prod.snd
  own : ∀ {t tx}, s.txns t = some tx → tx.stage.Live → ∀ k ∈ tx.writeSet,
    (replay view ((hist t).map Prod.fst)).1.get k = s.tree.get k
  frame : ∀ {t tx}, s.txns t = some tx → tx.stage.Live → ∀ k ∉ tx.writeSet,
    (replay view ((hist t).map Prod.fst)).1.get k = view.get k

namespace Iso

variable {s : Sys} {hist : TxnId → List (Op × Res)} {view : KV}

theorem ne_invalid (h : Iso s hist view) {t : TxnId} {tx : Transaction}
    (ht : s.txns t = some tx) : t ≠ INVALID_TXN_ID := by
  rintro rfl
  have := (h.ids ht).1
  simp [INVALID_TXN_ID] at this

/-- The next id is not in use. -/
theorem fresh_next (h : Iso s hist view) : s.txns s.wal.nextTxnId = none := by
  by_contra hne
  obtain ⟨tx, htx⟩ := Option.ne_none_iff_exists'.mp hne
  exact lt_irrefl _ (h.ids htx).2

/-- The ids of the first two transactions. -/
theorem eq_one_or_two (h : Iso s hist view) (hnext : s.wal.nextTxnId = 3) {t : TxnId}
    {tx : Transaction} (ht : s.txns t = some tx) : t = 1 ∨ t = 2 := by
  have hid := h.ids ht
  rw [hnext] at hid
  have h3 : (3 : TxnId).toInt = 3 := rfl
  rcases (by omega : t.toInt = 1 ∨ t.toInt = 2) with e | e
  · exact Or.inl (Int64.toInt_inj.mp e)
  · exact Or.inr (Int64.toInt_inj.mp e)

/-- A key in the write set of one transaction is not locked by another. -/
theorem eq_of_holds (h : Iso s hist view) {t u : TxnId} {tx : Transaction}
    (ht : s.txns t = some tx) (hst : tx.stage.Holding) {k : Bytes} (hk : k ∈ tx.writeSet)
    (hu : s.locks.Holds u k) : u = t :=
  h.excl.eq_of_holds (h.ne_invalid ht) (h.holdsX ht hst k hk) hu

/-- A key that a live transaction has locked reads the same in the tree and in the
transaction's replay. -/
theorem replay_get (h : Iso s hist view) {t : TxnId} {tx : Transaction} (ht : s.txns t = some tx)
    (hl : tx.stage.Live) {k : Bytes} (hk : s.locks.Holds t k) :
    (replay view ((hist t).map Prod.fst)).1.get k = s.tree.get k := by
  by_cases hw : k ∈ tx.writeSet
  · exact h.own ht hl k hw
  · rw [h.frame ht hl k hw]
    symm
    apply h.clean
    intro u ux hu hul hku
    obtain rfl := h.eq_of_holds hu hul.holding hku hk
    rw [ht] at hu
    cases hu
    exact hw hku

theorem opened (m : KV) : Iso (.opened m) (fun _ => []) m where
  next_pos := le_refl (1 : Int)
  ids h := by cases h
  fresh _ := rfl
  not_failed h := by cases h
  excl := LockManager.excl_init
  locked h := by cases h
  holdsX h := by cases h
  holds h := by cases h
  before h := by cases h
  clean _ _ := rfl
  results h := by cases h
  own h := by cases h
  frame h := by cases h

/-- Steps that move one transaction to another stage and change neither the tree nor a write set
nor who is live. -/
theorem stage (h : Iso s hist view) {s₁ : Sys} {t : TxnId} {st st' : Stage} {ws : WriteSet}
    (hat : s.At t st ws) (htree : s₁.tree = s.tree)
    (hnext : s₁.wal.nextTxnId = s.wal.nextTxnId) (htxns : s₁.txns = s.txns)
    (hexcl : s₁.locks.Excl) (hlive : st'.Live ↔ st.Live) (hhold : st'.Holding → st.Holding)
    (hf : st' ≠ .failed)
    (hlocks : ∀ u, (u = t → st'.Holding) → u ≠ INVALID_TXN_ID → ∀ k,
      (s.locks.HoldsX u k → s₁.locks.HoldsX u k) ∧ (s.locks.Holds u k → s₁.locks.Holds u k))
    (hlocked : ∀ op, st' = .locked op → s₁.locks.Holds t op.key ∧
      (op.mode = .EXCLUSIVE → s₁.locks.HoldsX t op.key)) :
    Iso (s₁.setTxn t st' ws) hist view := by
  -- a transaction after the step was there before, with the same write set
  have back : ∀ {u ux'}, (s₁.setTxn t st' ws).txns u = some ux' → ∃ ux, s.txns u = some ux ∧
      ux'.writeSet = ux.writeSet ∧ (ux'.stage.Live ↔ ux.stage.Live) ∧
      (ux'.stage.Holding → ux.stage.Holding) ∧ (u = t → ux'.stage = st') ∧
      (u ≠ t → ux' = ux) := by
    intro u ux' hu
    rcases Sys.setTxn_cases hu with ⟨rfl, rfl⟩ | ⟨e, hu⟩
    · exact ⟨_, hat, rfl, hlive, hhold, fun _ => rfl, fun e => (e rfl).elim⟩
    · exact ⟨ux', htxns ▸ hu, rfl, Iff.rfl, id, fun e' => (e e').elim, fun _ => rfl⟩
  have keep : ∀ {u ux'}, (s₁.setTxn t st' ws).txns u = some ux' → ux'.stage.Holding → ∀ k,
      (s.locks.HoldsX u k → s₁.locks.HoldsX u k) ∧ (s.locks.Holds u k → s₁.locks.Holds u k) := by
    intro u ux' hu hh
    obtain ⟨ux, h0, -, -, -, hst, -⟩ := back hu
    exact hlocks u (fun e => hst e ▸ hh) (h.ne_invalid h0)
  constructor
  case next_pos => exact hnext ▸ h.next_pos
  case ids =>
    intro u ux hu
    obtain ⟨_, h0, -⟩ := back hu
    exact hnext ▸ h.ids h0
  case fresh =>
    intro u hu
    rw [Sys.setTxn_txns, htxns] at hu
    split at hu
    · cases hu
    · exact h.fresh hu
  case not_failed =>
    intro u ux hu
    obtain ⟨uy, h0, -, -, -, hst, hne⟩ := back hu
    by_cases e : u = t
    · rw [hst e]; exact hf
    · rw [hne e]; exact h.not_failed h0
  case excl => exact hexcl
  case locked =>
    intro u op ws' hu
    obtain ⟨uy, h0, -, -, -, hst, hne⟩ := back hu
    by_cases e : u = t
    · subst e; exact hlocked op (hst rfl).symm
    · rw [← hne e] at h0
      obtain ⟨h1, h2⟩ := h.locked h0
      have hk := keep hu trivial op.key
      exact ⟨hk.2 h1, fun hm => hk.1 (h2 hm)⟩
  case holdsX =>
    intro u ux hu hst k hk
    obtain ⟨uy, h0, hws, -, hh, -, -⟩ := back hu
    exact (keep hu hst k).1 (h.holdsX h0 (hh hst) k (hws ▸ hk))
  case holds =>
    intro u ux hu hst c hc
    obtain ⟨uy, h0, -, -, hh, -, -⟩ := back hu
    exact (keep hu hst _).2 (h.holds h0 (hh hst) c hc)
  case before =>
    intro u ux hu hl k e hk
    obtain ⟨uy, h0, hws, hl', -, -, -⟩ := back hu
    exact h.before h0 (hl'.mp hl) (hws ▸ hk)
  case clean =>
    intro k hk
    show s₁.tree.get k = _
    rw [htree]
    apply h.clean
    intro u ux hu hl hku
    by_cases e : u = t
    · subst e
      rw [hat] at hu
      cases hu
      exact hk u { stage := st', writeSet := ws } (by simp) (hlive.mpr hl) hku
    · exact hk u ux (by simp [e, htxns, hu]) hl hku
  case results =>
    intro u ux hu hl
    obtain ⟨uy, h0, -, hl', -, -, -⟩ := back hu
    exact h.results h0 (hl'.mp hl)
  case own =>
    intro u ux hu hl k hk
    obtain ⟨uy, h0, hws, hl', -, -, -⟩ := back hu
    show _ = s₁.tree.get k
    rw [htree]
    exact h.own h0 (hl'.mp hl) k (hws ▸ hk)
  case frame =>
    intro u ux hu hl k hk
    obtain ⟨uy, h0, hws, hl', -, -, -⟩ := back hu
    exact h.frame h0 (hl'.mp hl) k (hws ▸ hk)

/-- `DB::Begin`. -/
theorem begin (h : Iso s hist view) (hid : s.wal.nextTxnId.toInt < 2 ^ 63 - 1) :
    Iso { s with wal := s.wal.beginTxn.2,
                 txns := Function.update s.txns s.wal.nextTxnId (some {}) } hist view := by
  have hsucc : s.wal.beginTxn.2.nextTxnId.toInt = s.wal.nextTxnId.toInt + 1 :=
    int64_succ h.next_pos hid
  have hnew : s.txns s.wal.nextTxnId = none := h.fresh_next
  have hhist := h.fresh hnew
  -- a transaction after the step is the new one or an old one
  have back : ∀ {u ux}, Function.update s.txns s.wal.nextTxnId (some {}) u = some ux →
      (u = s.wal.nextTxnId ∧ ux = {}) ∨ s.txns u = some ux := by
    intro u ux hu
    rw [Function.update_apply] at hu
    split at hu
    · next e => cases hu; exact Or.inl ⟨e, rfl⟩
    · exact Or.inr hu
  constructor
  case next_pos =>
    have := h.next_pos
    simp only [hsucc]
    omega
  case ids =>
    intro u ux hu
    have := h.next_pos
    simp only [hsucc]
    rcases back hu with ⟨rfl, -⟩ | hu
    · omega
    · have := h.ids hu
      omega
  case fresh =>
    intro u hu
    simp only [Function.update_apply] at hu
    split at hu
    · cases hu
    · exact h.fresh hu
  case not_failed =>
    intro u ux hu
    rcases back hu with ⟨-, rfl⟩ | hu
    · exact nofun
    · exact h.not_failed hu
  case excl => exact h.excl
  case locked =>
    intro u op ws hu
    rcases back hu with ⟨-, e⟩ | hu
    · cases e
    · exact h.locked hu
  case holdsX =>
    intro u ux hu hst k hk
    rcases back hu with ⟨-, rfl⟩ | hu
    · exact absurd hk Finmap.notMem_empty
    · exact h.holdsX hu hst k hk
  case holds =>
    intro u ux hu hst c hc
    rcases back hu with ⟨rfl, rfl⟩ | hu
    · rw [hhist] at hc; cases hc
    · exact h.holds hu hst c hc
  case before =>
    intro u ux hu hl k e hk
    rcases back hu with ⟨-, rfl⟩ | hu
    · cases (Finmap.lookup_empty k).symm.trans hk
    · exact h.before hu hl hk
  case clean =>
    intro k hk
    apply h.clean
    intro u ux hu
    have hne : u ≠ s.wal.nextTxnId := by rintro rfl; rw [hnew] at hu; cases hu
    exact hk u ux (by simp [hne, hu])
  case results =>
    intro u ux hu hl
    rcases back hu with ⟨rfl, -⟩ | hu
    · rw [hhist]; rfl
    · exact h.results hu hl
  case own =>
    intro u ux hu hl k hk
    rcases back hu with ⟨-, rfl⟩ | hu
    · exact absurd hk Finmap.notMem_empty
    · exact h.own hu hl k hk
  case frame =>
    intro u ux hu hl k hk
    rcases back hu with ⟨rfl, -⟩ | hu
    · rw [hhist]; rfl
    · exact h.frame hu hl k hk

/-- The write set after the body is still locked exclusively. -/
theorem holdsX_body (h : Iso s hist view) {t : TxnId} {op : Op} {ws : WriteSet}
    (hat : s.At t (.locked op) ws) {k : Bytes} (hk : k ∈ (body s t ws op).writeSet) :
    s.locks.HoldsX t k := by
  rcases body_cases s t ws op with ⟨e, he⟩ | he
  · rw [he.writeSet, Finmap.mem_insert] at hk
    rcases hk with rfl | hk
    · exact (h.locked hat).2 he.mode
    · exact h.holdsX hat trivial k hk
  · rw [he.writeSet] at hk
    exact h.holdsX hat trivial k hk

/-- The before-images of the write set after the body are the view's. -/
theorem before_body (h : Iso s hist view) {t : TxnId} {op : Op} {ws : WriteSet}
    (hat : s.At t (.locked op) ws) {k : Bytes} {e : WriteEntry}
    (hk : (KeyVDB.body s t ws op).writeSet.lookup k = some e) : e.before = view.get k := by
  rcases body_cases s t ws op with ⟨e', he⟩ | he
  · rw [he.writeSet] at hk
    by_cases ek : k = op.key
    · subst ek
      rw [Finmap.lookup_insert, Option.some.injEq] at hk
      subst hk
      cases hlo : ws.lookup op.key with
      | some e₀ =>
        rw [he.before_old e₀ hlo]
        exact h.before hat trivial hlo
      | none =>
        rw [he.before_new hlo, ← h.replay_get hat trivial (h.locked hat).1]
        exact h.frame hat trivial _ (Finmap.lookup_eq_none.mp hlo)
    · rw [Finmap.lookup_insert_of_ne _ ek] at hk
      exact h.before hat trivial hk
  · rw [he.writeSet] at hk
    exact h.before hat trivial hk

/-- The body of a call. -/
theorem body (h : Iso s hist view) {t : TxnId} {op : Op} {ws : WriteSet}
    (hat : s.At t (.locked op) ws) :
    Iso ({ s with tree := (body s t ws op).tree, wal := (body s t ws op).wal }.setTxn t .idle
        (body s t ws op).writeSet)
      (Function.update hist t (hist t ++ [(op, (KeyVDB.body s t ws op).res)])) view := by
  obtain ⟨htree, hres⟩ := body_exec s t ws op
  have hlk : s.locks.Holds t op.key := (h.locked hat).1
  have hother : ∀ {u ux}, s.txns u = some ux → u ≠ t → ux.stage.Holding → op.key ∉ ux.writeSet :=
    fun hu hne hst hk => hne (h.eq_of_holds hu hst hk hlk).symm
  -- the replay so far, and what the call does to it
  set R := (replay view ((hist t).map Prod.fst)).1 with hR
  have hRk : R.get op.key = s.tree.get op.key := h.replay_get hat trivial hlk
  obtain ⟨hx1, hx2⟩ := op.exec_congr hRk
  have hrep : replay view ((hist t ++ [(op, (KeyVDB.body s t ws op).res)]).map Prod.fst) =
      ((op.exec R).1, (replay view ((hist t).map Prod.fst)).2 ++ [(op.exec R).2]) := by
    rw [List.map_append, List.map_singleton, replay_append]
  have hnext : (KeyVDB.body s t ws op).wal.nextTxnId = s.wal.nextTxnId := body_nextTxnId s t ws op
  constructor
  case next_pos => simp only [Sys.setTxn, hnext]; exact h.next_pos
  case ids =>
    intro u ux hu
    simp only [Sys.setTxn, hnext]
    rcases Sys.setTxn_cases hu with ⟨rfl, -⟩ | ⟨-, hu⟩
    · exact h.ids hat
    · exact h.ids hu
  case fresh =>
    intro u hu
    rw [Sys.setTxn_txns] at hu
    split at hu
    · cases hu
    · next e => rw [Function.update_of_ne e]; exact h.fresh hu
  case not_failed =>
    intro u ux hu
    rcases Sys.setTxn_cases hu with ⟨-, rfl⟩ | ⟨-, hu⟩
    · exact fun h => by cases h
    · exact h.not_failed hu
  case excl => exact h.excl
  case locked =>
    intro u op' ws' hu
    rcases Sys.setTxn_cases hu with ⟨-, e⟩ | ⟨-, hu⟩
    · cases e
    · exact h.locked hu
  case holdsX =>
    intro u ux hu hst k hk
    rcases Sys.setTxn_cases hu with ⟨rfl, rfl⟩ | ⟨-, hu⟩
    · exact h.holdsX_body hat hk
    · exact h.holdsX hu hst k hk
  case holds =>
    intro u ux hu hst c hc
    rcases Sys.setTxn_cases hu with ⟨rfl, rfl⟩ | ⟨e, hu⟩
    · rw [Function.update_self] at hc
      rcases List.mem_append.mp hc with hc | hc
      · exact h.holds hat trivial c hc
      · rw [List.mem_singleton.mp hc]; exact hlk
    · rw [Function.update_of_ne e] at hc
      exact h.holds hu hst c hc
  case before =>
    intro u ux hu hl k e hk
    rcases Sys.setTxn_cases hu with ⟨rfl, rfl⟩ | ⟨-, hu⟩
    · exact h.before_body hat hk
    · exact h.before hu hl hk
  case clean =>
    intro k hk
    have hkt := hk t { stage := .idle, writeSet := (KeyVDB.body s t ws op).writeSet } (by simp)
      trivial
    have hkeep : (KeyVDB.body s t ws op).tree.get k = s.tree.get k := by
      by_cases e : k = op.key
      · rw [body_tree_of_not_mem (e ▸ hkt)]
      · exact body_tree_get_of_ne s t ws e
    show (KeyVDB.body s t ws op).tree.get k = _
    rw [hkeep]
    apply h.clean
    intro u ux hu hl hku
    by_cases e : u = t
    · subst e
      rw [hat] at hu
      cases hu
      exact hkt (mem_body_writeSet hku)
    · exact hk u ux (by simp [e, hu]) hl hku
  case results =>
    intro u ux hu hl
    rcases Sys.setTxn_cases hu with ⟨rfl, -⟩ | ⟨e, hu⟩
    · rw [Function.update_self, hrep, List.map_append, List.map_singleton, h.results hat trivial,
        hx1, hres]
    · rw [Function.update_of_ne e]; exact h.results hu hl
  case own =>
    intro u ux hu hl k hk
    show _ = (KeyVDB.body s t ws op).tree.get k
    rcases Sys.setTxn_cases hu with ⟨rfl, rfl⟩ | ⟨e, hu⟩
    · rw [Function.update_self, hrep, htree]
      exact hx2 k (h.replay_get hat trivial (h.holdsX_body hat hk).holds)
    · have hne : k ≠ op.key := fun ek => hother hu e hl.holding (ek ▸ hk)
      rw [Function.update_of_ne e, body_tree_get_of_ne s t ws hne]
      exact h.own hu hl k hk
  case frame =>
    intro u ux hu hl k hk
    rcases Sys.setTxn_cases hu with ⟨rfl, rfl⟩ | ⟨e, hu⟩
    · rw [Function.update_self, hrep]
      have hkws : k ∉ ws := fun hk' => hk (mem_body_writeSet hk')
      by_cases ek : k = op.key
      · subst ek
        rw [hx2 _ hRk, ← htree, body_tree_of_not_mem hk, ← hRk]
        exact h.frame hat trivial _ hkws
      · rw [op.exec_get_of_ne R ek]
        exact h.frame hat trivial _ hkws
    · rw [Function.update_of_ne e]
      exact h.frame hu hl k hk

/-- A transaction stops being live: its writes have become the view's, or are gone from the
tree. Nobody else's replay can tell, since its keys are locked. -/
theorem leave (h : Iso s hist view) {s₁ : Sys} {view' : KV} {t : TxnId} {st' : Stage}
    {ws : WriteSet} (hat : s.At t .idle ws) (htxns : s₁.txns = s.txns)
    (hlocks : s₁.locks = s.locks) (hnext : s₁.wal.nextTxnId = s.wal.nextTxnId)
    (hlive : ¬ st'.Live) (hf : st' ≠ .failed)
    (htree : ∀ k ∉ ws, s₁.tree.get k = s.tree.get k)
    (hout : ∀ k ∉ ws, view'.get k = view.get k)
    (hin : ∀ k ∈ ws, s₁.tree.get k = view'.get k) :
    Iso (s₁.setTxn t st' ws) hist view' := by
  have back : ∀ {u ux}, (s₁.setTxn t st' ws).txns u = some ux → (u = t ∧ ux = ⟨st', ws⟩) ∨
      (u ≠ t ∧ s.txns u = some ux) := fun hu => htxns ▸ Sys.setTxn_cases hu
  -- the transactions that are still live
  have live : ∀ {u ux}, (s₁.setTxn t st' ws).txns u = some ux → ux.stage.Live →
      u ≠ t ∧ s.txns u = some ux := by
    intro u ux hu hl
    rcases back hu with ⟨-, rfl⟩ | hu
    · exact (hlive hl).elim
    · exact hu
  have hdisj : ∀ {u k}, u ≠ t → s.locks.Holds u k → k ∉ ws :=
    fun hne hu hk => hne (h.eq_of_holds hat trivial hk hu)
  have hops : ∀ {u ux}, u ≠ t → s.txns u = some ux → ux.stage.Live →
      ∀ op ∈ (hist u).map Prod.fst, op.key ∉ ws := by
    intro u ux hne hu hl op hop
    obtain ⟨c, hc, rfl⟩ := List.mem_map.mp hop
    exact hdisj hne (h.holds hu hl.holding c hc)
  have hcongr : ∀ {u ux}, u ≠ t → s.txns u = some ux → ux.stage.Live →
      (replay view' ((hist u).map Prod.fst)).2 = (replay view ((hist u).map Prod.fst)).2 ∧
        ∀ k, view'.get k = view.get k → (replay view' ((hist u).map Prod.fst)).1.get k =
          (replay view ((hist u).map Prod.fst)).1.get k :=
    fun hne hu hl => replay_congr fun op hop => hout _ (hops hne hu hl op hop)
  constructor
  case next_pos => exact hnext ▸ h.next_pos
  case ids =>
    intro u ux hu
    rcases back hu with ⟨rfl, -⟩ | ⟨-, hu⟩
    · exact hnext ▸ h.ids hat
    · exact hnext ▸ h.ids hu
  case fresh =>
    intro u hu
    rw [Sys.setTxn_txns, htxns] at hu
    split at hu
    · cases hu
    · exact h.fresh hu
  case not_failed =>
    intro u ux hu
    rcases back hu with ⟨-, rfl⟩ | ⟨-, hu⟩
    · exact hf
    · exact h.not_failed hu
  case excl => exact hlocks ▸ h.excl
  case locked =>
    intro u op ws' hu
    obtain ⟨-, hu⟩ := live hu trivial
    exact hlocks ▸ h.locked hu
  case holdsX =>
    intro u ux hu hst k hk
    show s₁.locks.HoldsX u k
    rw [hlocks]
    rcases back hu with ⟨rfl, rfl⟩ | ⟨-, hu⟩
    · exact h.holdsX hat trivial k hk
    · exact h.holdsX hu hst k hk
  case holds =>
    intro u ux hu hst c hc
    show s₁.locks.Holds u c.1.key
    rw [hlocks]
    rcases back hu with ⟨rfl, rfl⟩ | ⟨-, hu⟩
    · exact h.holds hat trivial c hc
    · exact h.holds hu hst c hc
  case before =>
    intro u ux hu hl k e hk
    obtain ⟨hne, hu⟩ := live hu hl
    have hku : k ∈ ux.writeSet := Finmap.mem_iff.mpr ⟨e, hk⟩
    rw [hout k (hdisj hne (h.holdsX hu hl.holding k hku).holds)]
    exact h.before hu hl hk
  case clean =>
    intro k hk
    show s₁.tree.get k = _
    by_cases hkt : k ∈ ws
    · exact hin k hkt
    · rw [htree k hkt, hout k hkt]
      apply h.clean
      intro u ux hu hl hku
      by_cases e : u = t
      · subst e
        rw [hat] at hu
        cases hu
        exact hkt hku
      · exact hk u ux (by simp [e, htxns, hu]) hl hku
  case results =>
    intro u ux hu hl
    obtain ⟨hne, hu⟩ := live hu hl
    rw [(hcongr hne hu hl).1]
    exact h.results hu hl
  case own =>
    intro u ux hu hl k hk
    obtain ⟨hne, hu⟩ := live hu hl
    have hkt : k ∉ ws := hdisj hne (h.holdsX hu hl.holding k hk).holds
    show _ = s₁.tree.get k
    rw [(hcongr hne hu hl).2 k (hout k hkt), htree k hkt]
    exact h.own hu hl k hk
  case frame =>
    intro u ux hu hl k hk
    obtain ⟨hne, hu⟩ := live hu hl
    by_cases hkt : k ∈ ws
    · apply replay_get_of_not_mem
      rintro op hop rfl
      exact hops hne hu hl op hop hkt
    · rw [(hcongr hne hu hl).2 k (hout k hkt), hout k hkt]
      exact h.frame hu hl k hk

theorem appendCommit (h : Iso s hist view) {t : TxnId} {ws : WriteSet} (hat : s.At t .idle ws) :
    Iso ({ s with wal := (s.wal.appendCommit t).2 }.setTxn t .committing ws) hist
      (replay view ((hist t).map Prod.fst)).1 :=
  h.leave hat rfl rfl rfl id nofun (fun _ _ => rfl) (fun k hk => h.frame hat trivial k hk)
    (fun k hk => (h.own hat trivial k hk).symm)

/-- In a rollback nothing can throw: every before-image is a value of the view, so it fits. -/
theorem undoAll_ok (h : Iso s hist view) {t : TxnId} {ws : WriteSet} (hat : s.At t .idle ws)
    {order : List Bytes} (hkeys : order.toFinset = ws.keys) :
    ∃ tree, undoAll ws order s.tree = .ok tree ∧ (∀ k ∉ ws, tree.get k = s.tree.get k) ∧
      ∀ k ∈ ws, tree.get k = view.get k := by
  have hfit : ∀ k e v, ws.lookup k = some e → e.before = some v → Fits k v := by
    intro k e v hk he
    rw [h.before hat trivial hk] at he
    exact view.fits he
  obtain ⟨tree, hok, hget⟩ := KeyVDB.undoAll_ok hfit order s.tree
  refine ⟨tree, hok, fun k hk => ?_, fun k hk => ?_⟩
  · rw [hget k, Finmap.lookup_eq_none.mpr hk]
  · obtain ⟨e, he⟩ := Finmap.mem_iff.mp hk
    have hmem : k ∈ order := by
      rw [← List.mem_toFinset, hkeys, Finmap.mem_keys]
      exact hk
    rw [hget k, he]
    simp only [hmem, ↓reduceIte]
    exact h.before hat trivial he

theorem undoAll (h : Iso s hist view) {t : TxnId} {ws : WriteSet} (hat : s.At t .idle ws)
    {order : List Bytes} (hkeys : order.toFinset = ws.keys) {tree : KV}
    (hok : KeyVDB.undoAll ws order s.tree = .ok tree) :
    Iso ({ s with tree }.setTxn t .undone ws) hist view := by
  obtain ⟨tree', hok', hout, hin⟩ := h.undoAll_ok hat hkeys
  obtain rfl : tree' = tree := Except.ok.inj (hok'.symm.trans hok)
  exact h.leave hat rfl rfl rfl id nofun hout (fun _ _ => rfl) hin

end Iso

/-! ## Histories -/

theorem commitOrder_append (events : List Event) (e : Event) :
    commitOrder (events ++ [e]) = commitOrder events ++ commitOrder [e] :=
  List.filterMap_append

theorem callsOf_call (events : List Event) (t : TxnId) (op : Op) (res : Res) :
    callsOf (events ++ [.call t op res]) =
      Function.update (callsOf events) t (callsOf events t ++ [(op, res)]) := by
  funext u
  by_cases h : u = t
  · subst h
    simp [callsOf]
  · rw [Function.update_of_ne h]
    have : ¬ t = u := fun e => h e.symm
    simp [callsOf, this]

theorem callsOf_commit (events : List Event) (t : TxnId) :
    callsOf (events ++ [.commit t]) = callsOf events := by
  funext u
  simp [callsOf]

/-- The view is what the committed transactions produce one after the other, with the results that
they had in the run. -/
structure Serial (m₀ : KV) (ts : Traced) (view : KV) : Prop where
  iso : Iso ts.sys (callsOf ts.events) view
  serial_eq : serial m₀ ((commitOrder ts.events).map (opsOf ts.events)) =
    (view, (commitOrder ts.events).map (resultsOf ts.events))
  nodup : (commitOrder ts.events).Nodup
  committed : ∀ t ∈ commitOrder ts.events, ∃ tx, ts.sys.txns t = some tx ∧ ¬ tx.stage.Live

namespace Serial

variable {m₀ view : KV} {ts ts' : Traced}

theorem opened (m₀ : KV) : Serial m₀ (.opened m₀) m₀ where
  iso := Iso.opened m₀
  serial_eq := rfl
  nodup := List.nodup_nil
  committed := nofun

/-- Steps without an event. -/
theorem silent (h : Serial m₀ ts view) (hev : ts'.events = ts.events)
    (hiso : Iso ts'.sys (callsOf ts.events) view)
    (hlive : ∀ t tx, ts.sys.txns t = some tx → ¬ tx.stage.Live →
      ∃ tx', ts'.sys.txns t = some tx' ∧ ¬ tx'.stage.Live) : Serial m₀ ts' view where
  iso := hev ▸ hiso
  serial_eq := hev ▸ h.serial_eq
  nodup := hev ▸ h.nodup
  committed t ht := by
    obtain ⟨tx, htx, hl⟩ := h.committed t (hev ▸ ht)
    exact hlive t tx htx hl

/-- A transaction that is not live stays so when another one moves. -/
theorem keep_dead {s s₁ : Sys} {t : TxnId} {st st' : Stage} {ws ws' : WriteSet}
    (hat : s.At t st ws) (htxns : s₁.txns = s.txns) (hlive : ¬ st.Live → ¬ st'.Live) :
    ∀ u ux, s.txns u = some ux → ¬ ux.stage.Live →
      ∃ ux', (s₁.setTxn t st' ws').txns u = some ux' ∧ ¬ ux'.stage.Live := by
  intro u ux hu hl
  by_cases e : u = t
  · subst e
    rw [hat] at hu
    cases hu
    exact ⟨_, by rw [Sys.setTxn_txns, if_pos rfl], hlive hl⟩
  · exact ⟨ux, by rw [Sys.setTxn_txns, if_neg e, htxns, hu], hl⟩

theorem body (h : Serial m₀ ts view) {t : TxnId} {op : Op} {ws : WriteSet}
    (hat : ts.sys.At t (.locked op) ws)
    (hiso : Iso ts'.sys (Function.update (callsOf ts.events) t
      (callsOf ts.events t ++ [(op, (KeyVDB.body ts.sys t ws op).res)])) view)
    (hlive : ∀ u ux, ts.sys.txns u = some ux → ¬ ux.stage.Live →
      ∃ ux', ts'.sys.txns u = some ux' ∧ ¬ ux'.stage.Live)
    (hev : ts'.events = ts.events ++ [.call t op (KeyVDB.body ts.sys t ws op).res]) :
    Serial m₀ ts' view := by
  have horder : commitOrder ts'.events = commitOrder ts.events := by
    rw [hev, commitOrder_append]
    exact List.append_nil _
  -- the caller is live, so it is not among the committed
  have hcalls : ∀ u ∈ commitOrder ts.events, callsOf ts'.events u = callsOf ts.events u := by
    intro u hu
    obtain ⟨ux, hux, hl⟩ := h.committed u hu
    have hne : u ≠ t := by
      rintro rfl
      rw [hat] at hux
      cases hux
      exact hl trivial
    rw [hev, callsOf_call, Function.update_of_ne hne]
  have hops : (commitOrder ts.events).map (opsOf ts'.events) =
      (commitOrder ts.events).map (opsOf ts.events) :=
    List.map_congr_left fun u hu => congrArg _ (hcalls u hu)
  have hresults : (commitOrder ts.events).map (resultsOf ts'.events) =
      (commitOrder ts.events).map (resultsOf ts.events) :=
    List.map_congr_left fun u hu => congrArg _ (hcalls u hu)
  constructor
  · rw [hev, callsOf_call]; exact hiso
  · rw [horder, hops, hresults]; exact h.serial_eq
  · rw [horder]; exact h.nodup
  · rw [horder]
    intro u hu
    obtain ⟨ux, hux, hl⟩ := h.committed u hu
    exact hlive u ux hux hl

theorem commit (h : Serial m₀ ts view) {t : TxnId} {ws : WriteSet} (hat : ts.sys.At t .idle ws)
    (hsys : ts'.sys = { ts.sys with wal := (ts.sys.wal.appendCommit t).2 }.setTxn t .committing ws)
    (hev : ts'.events = ts.events ++ [.commit t]) :
    Serial m₀ ts' (replay view (opsOf ts.events t)).1 := by
  have hiso := h.iso.appendCommit hat
  have hresults : (replay view (opsOf ts.events t)).2 = resultsOf ts.events t :=
    h.iso.results hat trivial
  have horder : commitOrder ts'.events = commitOrder ts.events ++ [t] := by
    rw [hev, commitOrder_append]
    rfl
  have hops : opsOf ts'.events = opsOf ts.events := by
    funext u; rw [opsOf, hev, callsOf_commit]; rfl
  have hres : resultsOf ts'.events = resultsOf ts.events := by
    funext u; rw [resultsOf, hev, callsOf_commit]; rfl
  have hnew : t ∉ commitOrder ts.events := by
    intro hmem
    obtain ⟨tx, htx, hl⟩ := h.committed t hmem
    rw [hat] at htx
    cases htx
    exact hl trivial
  constructor
  · rw [hsys, hev, callsOf_commit]; exact hiso
  · rw [horder, hops, hres, List.map_append, List.map_append, List.map_singleton,
      List.map_singleton, serial_append, h.serial_eq, hresults]
  · rw [horder]
    exact h.nodup.append (List.nodup_singleton t) (List.disjoint_singleton.mpr hnew)
  · rw [horder, hsys]
    intro u hu
    rcases List.mem_append.mp hu with hu | hu
    · obtain ⟨ux, hux, hl⟩ := h.committed u hu
      exact keep_dead hat rfl (fun _ => id) u ux hux hl
    · rw [List.mem_singleton.mp hu]
      exact ⟨_, by rw [Sys.setTxn_txns, if_pos rfl], id⟩

/-- Every step keeps the run serial; the view changes only under the keys that a commit writes. -/
theorem tstep (h : Serial m₀ ts view) {a : Action} (hs : tstep ts a = some ts') :
    ∃ view', Serial m₀ ts' view' ∧ ∀ k,
      (∀ t ws, a = .appendCommit t → ts.sys.At t .idle ws → k ∉ ws) →
        view'.get k = view.get k := by
  obtain ⟨hstep, hev, -⟩ := tstep_eq hs
  obtain ⟨s, events, log⟩ := ts
  obtain ⟨s', events', log'⟩ := ts'
  simp only at hstep hev
  have hi : Iso s (callsOf events) view := h.iso
  cases hstep with
  | begin hid =>
    refine ⟨view, h.silent (by simpa [eventOf] using hev) (hi.begin hid) ?_, fun _ _ => rfl⟩
    intro u ux hu hl
    have hne : u ≠ s.wal.nextTxnId := by
      rintro rfl
      exact lt_irrefl _ (hi.ids hu).2
    exact ⟨ux, by simp [hne]; exact hu, hl⟩
  | @lock t op ws locks hat hl =>
    refine ⟨view, h.silent (by simpa [eventOf] using hev) ?_ (keep_dead hat rfl fun e => e),
      fun _ _ => rfl⟩
    refine hi.stage hat rfl rfl rfl (hi.excl.lock hl) Iff.rfl (fun _ => trivial) (fun e => by cases e)
      (fun u _ hu k => ⟨fun hx => hx.lock hi.excl hl hu, fun hh => hh.lock hi.excl hl hu⟩) ?_
    rintro op' ⟨⟩
    exact ⟨LockManager.holds_lock hl, fun hm => LockManager.holdsX_lock (hm ▸ hl)⟩
  | timeout hat =>
    exact ⟨view, h.silent (by simpa [eventOf] using hev) hi fun _ tx htx hl => ⟨tx, htx, hl⟩,
      fun _ _ => rfl⟩
  | body hat =>
    have hat' : s.txns _ = some _ := hat
    refine ⟨view, h.body hat (hi.body hat) (keep_dead hat rfl fun e => (e trivial).elim) ?_,
      fun _ _ => rfl⟩
    rw [hev, eventOf, hat']
  | @appendCommit t ws hat =>
    exact ⟨_, h.commit hat rfl hev, fun k hk => hi.frame hat trivial k (hk t ws rfl hat)⟩
  | walFlush hat =>
    exact ⟨view, h.silent (by simpa [eventOf] using hev)
      (hi.stage hat rfl rfl rfl hi.excl Iff.rfl (fun _ => trivial) (fun e => by cases e)
        (fun _ _ _ _ => ⟨id, id⟩) (fun _ e => by cases e)) (keep_dead hat rfl id), fun _ _ => rfl⟩
  | dataFlush hat =>
    exact ⟨view, h.silent (by simpa [eventOf] using hev)
      (hi.stage hat rfl rfl rfl hi.excl Iff.rfl (fun _ => trivial) (fun e => by cases e)
        (fun _ _ _ _ => ⟨id, id⟩) (fun _ e => by cases e)) (keep_dead hat rfl id), fun _ _ => rfl⟩
  | undoAll hat hnd hkeys hok =>
    exact ⟨view, h.silent (by simpa [eventOf] using hev) (hi.undoAll hat hkeys hok)
      (keep_dead hat rfl fun _ => id), fun _ _ => rfl⟩
  | undoThrows hat hnd hkeys herr =>
    obtain ⟨tree, hok, -⟩ := hi.undoAll_ok hat hkeys
    rw [hok] at herr
    cases herr
  | appendAbort hat =>
    exact ⟨view, h.silent (by simpa [eventOf] using hev)
      (hi.stage hat rfl rfl rfl hi.excl Iff.rfl (fun _ => trivial) (fun e => by cases e)
        (fun _ _ _ _ => ⟨id, id⟩) (fun _ e => by cases e)) (keep_dead hat rfl id), fun _ _ => rfl⟩
  | releaseCommit hat =>
    exact ⟨view, h.silent (by simpa [eventOf] using hev)
      (hi.stage hat rfl rfl rfl (hi.excl.releaseAll _) Iff.rfl (fun _ => trivial) (fun e => by cases e)
        (fun u hu _ k => ⟨fun hx => hx.releaseAll fun e => hu e,
          fun hh => hh.releaseAll fun e => hu e⟩) (fun _ e => by cases e)) (keep_dead hat rfl id), fun _ _ => rfl⟩
  | releaseAbort hat =>
    exact ⟨view, h.silent (by simpa [eventOf] using hev)
      (hi.stage hat rfl rfl rfl (hi.excl.releaseAll _) Iff.rfl (fun _ => trivial) (fun e => by cases e)
        (fun u hu _ k => ⟨fun hx => hx.releaseAll fun e => hu e,
          fun hh => hh.releaseAll fun e => hu e⟩) (fun _ e => by cases e)) (keep_dead hat rfl id), fun _ _ => rfl⟩
  | evict k =>
    exact ⟨view, h.silent (by simpa [eventOf] using hev) { hi with } fun _ tx htx hl =>
      ⟨tx, htx, hl⟩, fun _ _ => rfl⟩
  | dataFsync =>
    exact ⟨view, h.silent (by simpa [eventOf] using hev) { hi with } fun _ tx htx hl =>
      ⟨tx, htx, hl⟩, fun _ _ => rfl⟩

theorem run {as : List Action} (h : run KeyVDB.tstep (.opened m₀) as = some ts) :
    ∃ view, Serial m₀ ts view := by
  have hstep : ∀ ts a ts', (∃ view, Serial m₀ ts view) → True → KeyVDB.tstep ts a = some ts' →
      ∃ view, Serial m₀ ts' view := by
    rintro ts a ts' ⟨view, hi⟩ - hs
    obtain ⟨view', hi', -⟩ := hi.tstep hs
    exact ⟨view', hi'⟩
  exact run_inv hstep ⟨m₀, opened m₀⟩ (steps_of_forall (fun _ _ => trivial) _ _) h

end Serial

/-- **Strict serializability.** Executing the committed transactions one after the other, in the
order of their COMMIT records, gives every call the result it had in the run, and the tree of the
run once no transaction is open. Transactions that rolled back leave no trace, and no rollback
throws. -/
theorem strictly_serializable (m₀ : KV) (as : List Action) (ts : Traced)
    (h : run tstep (.opened m₀) as = some ts) :
    (commitOrder ts.events).Nodup ∧
      (serial m₀ ((commitOrder ts.events).map (opsOf ts.events))).2 =
        (commitOrder ts.events).map (resultsOf ts.events) ∧
      ((∀ t tx, ts.sys.txns t = some tx → ¬ tx.stage.Live) →
        ts.sys.tree = (serial m₀ ((commitOrder ts.events).map (opsOf ts.events))).1) ∧
      ∀ t tx, ts.sys.txns t = some tx → tx.stage ≠ .failed := by
  obtain ⟨view, hs⟩ := Serial.run h
  refine ⟨hs.nodup, by rw [hs.serial_eq], fun hend => ?_, fun t tx htx => hs.iso.not_failed htx⟩
  rw [hs.serial_eq]
  exact KV.ext (funext fun k => hs.iso.clean k fun t tx htx hl => (hend t tx htx hl).elim)

/-- Two interleaved transactions: one writes a key three times and commits, the other reads, waits
in vain for the first one's key, writes and rolls back. -/
theorem strictly_serializable_interleaved :
    ∃ ts, run tstep (.opened .empty)
        [.begin, .begin, .lock 1 (.put [97] [1]), .lock 2 (.get [98]), .body 2, .body 1,
          .timeout 2 (.get [97]), .lock 2 (.put [98] [2]), .lock 1 (.delete [97]), .body 1, .body 2,
          .lock 1 (.put [97] [3]), .body 1, .undoAll 2 [[98]], .appendCommit 1, .appendAbort 2,
          .walFlush 1, .dataFlush 1, .releaseAll 2, .releaseAll 1] = some ts ∧
      (serial .empty ((commitOrder ts.events).map (opsOf ts.events))).2 =
        (commitOrder ts.events).map (resultsOf ts.events) ∧
      ts.sys.tree = (serial .empty ((commitOrder ts.events).map (opsOf ts.events))).1 := by
  have hsome : ((run tstep (.opened .empty)
      [.begin, .begin, .lock 1 (.put [97] [1]), .lock 2 (.get [98]), .body 2, .body 1,
        .timeout 2 (.get [97]), .lock 2 (.put [98] [2]), .lock 1 (.delete [97]), .body 1, .body 2,
        .lock 1 (.put [97] [3]), .body 1, .undoAll 2 [[98]], .appendCommit 1, .appendAbort 2,
        .walFlush 1, .dataFlush 1, .releaseAll 2, .releaseAll 1]).map fun ts =>
      (ts.sys.wal.nextTxnId, (ts.sys.txns 1).map (·.stage), (ts.sys.txns 2).map (·.stage))) =
      some (3, some .committed, some .rolledBack) := by decide
  obtain ⟨ts, hrun, hts⟩ := Option.map_eq_some_iff.mp hsome
  simp only [Prod.mk.injEq] at hts
  obtain ⟨hnext, h1, h2⟩ := hts
  obtain ⟨-, hres, htree, -⟩ := strictly_serializable _ _ ts hrun
  refine ⟨ts, hrun, hres, htree fun t tx htx => ?_⟩
  -- the two transactions are the only ones, and both have ended
  obtain ⟨view, hs⟩ := Serial.run hrun
  rcases hs.iso.eq_one_or_two hnext htx with rfl | rfl
  · rw [htx, Option.map_some, Option.some.injEq] at h1
    rw [h1]; exact id
  · rw [htx, Option.map_some, Option.some.injEq] at h2
    rw [h2]; exact id

end KeyVDB
