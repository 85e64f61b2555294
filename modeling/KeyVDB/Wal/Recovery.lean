import KeyVDB.BTree.Map
import KeyVDB.Wal.Codec
import Mathlib.Data.Finset.Card

/-!
# Crash recovery

`recovery_manager.cpp` over the B+Tree as a map: `analysis` finds the losers, `redo` replays the
writes of every transaction that has no ABORT record, `undo` takes the losers' writes back in
reverse order. Both passes are folds of single-key effects; what a pass leaves under a key is the
last effect on that key (`valueAfter`), and a pass throws only on an effect that does not fit
in a page.
-/

namespace KeyVDB

namespace RecoveryManager

/-! ## The three phases -/

/-- `analysis`: the transactions that began and neither committed nor aborted. -/
def analysis (records : List WalRecord) : Finset TxnId :=
  records.foldl (fun active r =>
    match r.type with
    | .BEGIN => insert r.txnId active
    | .COMMIT => active.erase r.txnId
    | .ABORT => active.erase r.txnId
    | _ => active) ∅

/-- The transactions with an ABORT record. -/
def aborted (records : List WalRecord) : Finset TxnId :=
  ((records.filter fun r => r.type = .ABORT).map WalRecord.txnId).toFinset

/-- `redo`. -/
def redo (records : List WalRecord) (tree : KV) : Except Exn KV :=
  records.foldlM (fun tree r =>
    if r.type ≠ .WRITE then .ok tree
    else if r.txnId ∈ aborted records then .ok tree
    else if r.afterVal = [] then .ok (tree.remove r.key)     -- DELETE
    else tree.insert r.key r.afterVal) tree                  -- INSERT or UPDATE

/-- `undo`. -/
def undo (records : List WalRecord) (losers : Finset TxnId) (tree : KV) : Except Exn KV :=
  if losers = ∅ then .ok tree
  else records.reverse.foldlM (fun tree r =>
    if r.type ≠ .WRITE then .ok tree
    else if r.txnId ∉ losers then .ok tree
    else if r.beforeExists = false then .ok (tree.remove r.key)
    else tree.insert r.key r.beforeVal) tree

/-- `recover`: the number of losers, and the tree after the three phases. -/
def recover (file : Bytes) (tree : KV) : Except Exn (Nat × KV) := do
  let records ← LogManager.readAll file
  if records = [] then return (0, tree)
  let losers := analysis records
  let tree ← redo records tree
  let tree ← undo records losers tree
  return (losers.card, tree)

/-! ## Effects on single keys -/

/-- What a record does in a pass: nothing, or one key gets a value or loses it. -/
abbrev Effect := Option (Bytes × Option Bytes)

/-- Applies an effect to the tree. -/
def Effect.apply (tree : KV) : Effect → Except Exn KV
  | none => .ok tree
  | some (k, none) => .ok (tree.remove k)
  | some (k, some v) => tree.insert k v

/-- The effect can be applied. -/
def Effect.Fits : Effect → Prop
  | some (k, some v) => KeyVDB.Fits k v
  | _ => True

def redoEffect (aborted : Finset TxnId) (r : WalRecord) : Effect :=
  if r.type = .WRITE ∧ r.txnId ∉ aborted then
    some (r.key, if r.afterVal = [] then none else some r.afterVal)
  else none

def undoEffect (losers : Finset TxnId) (r : WalRecord) : Effect :=
  if r.type = .WRITE ∧ r.txnId ∈ losers then
    some (r.key, if r.beforeExists then some r.beforeVal else none)
  else none

theorem redo_eq (records : List WalRecord) (tree : KV) :
    redo records tree =
      (records.map (redoEffect (aborted records))).foldlM Effect.apply tree := by
  rw [redo, List.foldlM_map]
  congr 1
  funext tree r
  unfold redoEffect
  by_cases h : r.type = .WRITE
  · by_cases ha : r.txnId ∈ aborted records
    · simp [h, ha, Effect.apply]
    · by_cases hv : r.afterVal = [] <;> simp [h, ha, hv, Effect.apply]
  · simp [h, Effect.apply]

theorem undo_eq (records : List WalRecord) (losers : Finset TxnId) (tree : KV) :
    undo records losers tree =
      (records.reverse.map (undoEffect losers)).foldlM Effect.apply tree := by
  have hloop : (fun (tree : KV) (r : WalRecord) =>
      if r.type ≠ .WRITE then .ok tree
      else if r.txnId ∉ losers then .ok tree
      else if r.beforeExists = false then .ok (tree.remove r.key)
      else tree.insert r.key r.beforeVal) = fun tree r => Effect.apply tree (undoEffect losers r) := by
    funext tree r
    unfold undoEffect
    by_cases h : r.type = .WRITE
    · by_cases ha : r.txnId ∈ losers
      · cases r.beforeExists <;> simp [h, ha, Effect.apply]
      · simp [h, ha, Effect.apply]
    · simp [h, Effect.apply]
  unfold undo
  split
  · next h0 =>
    have : ∀ rs : List WalRecord, (rs.map (undoEffect losers)).foldlM Effect.apply tree =
        .ok tree := by
      intro rs
      induction rs with
      | nil => rfl
      | cons r rs ih =>
        have e : undoEffect losers r = none := by simp [undoEffect, h0]
        rw [List.map_cons, List.foldlM_cons, e]
        exact ih
    exact (this _).symm
  · rw [hloop, List.foldlM_map]

/-! ## The value a pass leaves under a key -/

/-- The value of `k` after the effects, from `init`. -/
def valueAfter (k : Bytes) (effs : List Effect) (init : Option Bytes) : Option Bytes :=
  effs.foldl (fun acc e =>
    match e with
    | some (k', v) => if k' = k then v else acc
    | none => acc) init

theorem Effect.apply_ok {e : Effect} (h : e.Fits) (tree : KV) :
    ∃ tree', e.apply tree = .ok tree' ∧ ∀ k, tree'.get k = valueAfter k [e] (tree.get k) := by
  match e, h with
  | none, _ => exact ⟨tree, rfl, fun _ => rfl⟩
  | some (k, none), _ =>
    refine ⟨tree.remove k, rfl, fun k' => ?_⟩
    simp [valueAfter, eq_comm]
  | some (k, some v), h =>
    have h : KeyVDB.Fits k v := h
    refine ⟨tree.set k v h, KV.insert_of_fits _ h, fun k' => ?_⟩
    simp [valueAfter, eq_comm]

/-- A pass whose effects fit succeeds, and leaves under each key the last effect on it. -/
theorem foldlM_apply_ok (effs : List Effect) (h : ∀ e ∈ effs, e.Fits) (tree : KV) :
    ∃ tree', effs.foldlM Effect.apply tree = .ok tree' ∧
      ∀ k, tree'.get k = valueAfter k effs (tree.get k) := by
  induction effs generalizing tree with
  | nil => exact ⟨tree, rfl, fun _ => rfl⟩
  | cons e effs ih =>
    obtain ⟨t1, h1, g1⟩ := Effect.apply_ok (h e List.mem_cons_self) tree
    obtain ⟨t2, h2, g2⟩ := ih (fun e' he' => h e' (List.mem_cons_of_mem _ he')) t1
    refine ⟨t2, ?_, fun k => ?_⟩
    · rw [List.foldlM_cons, h1]
      exact h2
    · rw [g2, g1]
      rfl

/-- A pass with an effect that does not fit throws. -/
theorem foldlM_apply_error (effs : List Effect) (h : ∃ e ∈ effs, ¬ e.Fits) (tree : KV) :
    ∃ err, effs.foldlM Effect.apply tree = .error err := by
  induction effs generalizing tree with
  | nil => obtain ⟨e, he, -⟩ := h; cases he
  | cons e effs ih =>
    rw [List.foldlM_cons]
    by_cases hf : e.Fits
    · obtain ⟨t1, h1, -⟩ := Effect.apply_ok hf tree
      rw [h1]
      refine ih ?_ t1
      obtain ⟨e', he', hne⟩ := h
      rcases List.mem_cons.mp he' with rfl | he'
      · exact (hne hf).elim
      · exact ⟨e', he', hne⟩
    · match e, hf with
      | none, hf => exact (hf trivial).elim
      | some (k, none), hf => exact (hf trivial).elim
      | some (k, some v), hf =>
        have hf : ¬ KeyVDB.Fits k v := hf
        exact ⟨tooLarge k v, by rw [Effect.apply, KV.insert_of_not_fits _ hf]; rfl⟩

theorem valueAfter_append (k : Bytes) (a b : List Effect) (init : Option Bytes) :
    valueAfter k (a ++ b) init = valueAfter k b (valueAfter k a init) := by
  simp [valueAfter]

/-- Effects on other keys leave the value alone. -/
theorem valueAfter_of_not {k : Bytes} {effs : List Effect} (h : ∀ v, some (k, v) ∉ effs)
    (init : Option Bytes) : valueAfter k effs init = init := by
  induction effs generalizing init with
  | nil => rfl
  | cons e effs ih =>
    have htail : ∀ v, some (k, v) ∉ effs := fun v hv => h v (List.mem_cons_of_mem _ hv)
    match e with
    | none => exact ih htail init
    | some (k', v) =>
      have hk : k' ≠ k := by rintro rfl; exact h v List.mem_cons_self
      simp only [valueAfter, List.foldl_cons, hk, ↓reduceIte]
      exact ih htail init

/-- If all effects on `k` agree, that is its value as soon as there is one. -/
theorem valueAfter_of_const {k : Bytes} {effs : List Effect} {c : Option Bytes}
    (hc : ∀ v, some (k, v) ∈ effs → v = c) (hex : ∃ v, some (k, v) ∈ effs)
    (init : Option Bytes) : valueAfter k effs init = c := by
  induction effs generalizing init with
  | nil => obtain ⟨v, hv⟩ := hex; cases hv
  | cons e effs ih =>
    have htail : ∀ v, some (k, v) ∈ effs → v = c := fun v hv => hc v (List.mem_cons_of_mem _ hv)
    by_cases hrest : ∃ v, some (k, v) ∈ effs
    · exact ih htail hrest _
    · obtain ⟨v, hv⟩ := hex
      have he : e = some (k, v) := by
        rcases List.mem_cons.mp hv with h | h
        · exact h.symm
        · exact (hrest ⟨v, h⟩).elim
      subst he
      have hnot : ∀ v, some (k, v) ∉ effs := fun v hv => hrest ⟨v, hv⟩
      show valueAfter k effs _ = c
      rw [valueAfter_of_not hnot]
      simpa using hc v List.mem_cons_self

/-! ## Recovery from a log that can be replayed -/

theorem analysis_append (rs : List WalRecord) (r : WalRecord) :
    analysis (rs ++ [r]) =
      match r.type with
      | .BEGIN => insert r.txnId (analysis rs)
      | .COMMIT => (analysis rs).erase r.txnId
      | .ABORT => (analysis rs).erase r.txnId
      | _ => analysis rs := by
  simp only [analysis, List.foldl_append, List.foldl_cons, List.foldl_nil]

theorem mem_aborted {rs : List WalRecord} {t : TxnId} :
    t ∈ aborted rs ↔ ∃ r ∈ rs, r.type = .ABORT ∧ r.txnId = t := by
  simp [aborted, and_assoc]

/-- The wire image keeps type and id, so the first phase does not see it. -/
theorem analysis_map_wire (rs : List WalRecord) : analysis (rs.map WalRecord.wire) = analysis rs := by
  rw [analysis, List.foldl_map]
  rfl

theorem aborted_map_wire (rs : List WalRecord) : aborted (rs.map WalRecord.wire) = aborted rs := by
  ext t
  simp [mem_aborted, WalRecord.wire]

/-- The log can hold the record, and both passes can apply it. -/
structure Replayable (r : WalRecord) : Prop where
  short : r.Short
  after_fits : r.afterVal ≠ [] → Fits r.key r.afterVal
  before_fits : r.beforeExists = true → Fits r.key r.beforeVal

theorem redoEffect_fits {r : WalRecord} (h : Replayable r) (ab : Finset TxnId) :
    (redoEffect ab r.wire).Fits := by
  unfold redoEffect
  split
  · by_cases hv : r.afterVal = []
    · simp [WalRecord.wire, hv, Effect.Fits]
    · simpa [WalRecord.wire, hv, Effect.Fits] using h.after_fits hv
  · trivial

theorem undoEffect_fits {r : WalRecord} (ha : r.Appended) (h : Replayable r)
    (losers : Finset TxnId) : (undoEffect losers r.wire).Fits := by
  unfold undoEffect
  split
  · by_cases hb : 0 < r.beforeVal.length
    · -- a nonempty before-image is there only where the flag was set
      have he : r.beforeExists = true := by
        by_contra hne
        rw [ha.before (by simpa using hne)] at hb
        exact lt_irrefl _ hb
      simpa [WalRecord.wire, hb, Effect.Fits] using h.before_fits he
    · simp [WalRecord.wire, hb, Effect.Fits]
  · trivial

theorem redoEffect_eq_some {ab : Finset TxnId} {r : WalRecord} {k : Bytes} {v : Option Bytes}
    (h : redoEffect ab r.wire = some (k, v)) :
    r.type = .WRITE ∧ r.txnId ∉ ab ∧ r.key = k := by
  unfold redoEffect at h
  split at h
  · next hc =>
    simp only [Option.some.injEq, Prod.mk.injEq] at h
    exact ⟨hc.1, hc.2, h.1⟩
  · cases h

theorem undoEffect_eq_some {losers : Finset TxnId} {r : WalRecord} {k : Bytes}
    {v : Option Bytes} (h : undoEffect losers r.wire = some (k, v)) :
    r.type = .WRITE ∧ r.txnId ∈ losers ∧ r.key = k ∧
      v = if 0 < r.beforeVal.length then some r.beforeVal else none := by
  unfold undoEffect at h
  split at h
  · next hc =>
    simp only [Option.some.injEq, Prod.mk.injEq] at h
    refine ⟨hc.1, hc.2, h.1, ?_⟩
    rw [← h.2]
    simp [WalRecord.wire]
  · cases h

/-- What recovery leaves under `k`, from the value on disk. -/
def recovered (log : List WalRecord) (k : Bytes) (init : Option Bytes) : Option Bytes :=
  valueAfter k (log.reverse.map fun r => undoEffect (analysis log) r.wire)
    (valueAfter k (log.map fun r => redoEffect (aborted log) r.wire) init)

theorem readAll_encodeLog_eq {log : List WalRecord} (h : ∀ r ∈ log, r.Appended ∧ r.Short) :
    LogManager.readAll (encodeLog log) = .ok (log.map WalRecord.wire) := by
  have := LogManager.readAll_encodeLog_wire log h
    (show ([] : Bytes).length < WalRecordHeader.SIZE by decide)
  rwa [List.append_nil] at this

theorem recover_encodeLog {log : List WalRecord} (h : ∀ r ∈ log, r.Appended ∧ Replayable r)
    (tree : KV) : ∃ m, recover (encodeLog log) tree = .ok ((analysis log).card, m) ∧
      ∀ k, m.get k = recovered log k (tree.get k) := by
  have hread := readAll_encodeLog_eq fun r hr => ⟨(h r hr).1, (h r hr).2.short⟩
  obtain ⟨t1, h1, g1⟩ := foldlM_apply_ok
    ((log.map WalRecord.wire).map (redoEffect (aborted (log.map WalRecord.wire))))
    (by simp only [List.map_map, List.mem_map, Function.comp]
        rintro e ⟨r, hr, rfl⟩
        exact redoEffect_fits (h r hr).2 _) tree
  obtain ⟨t2, h2, g2⟩ := foldlM_apply_ok
    ((log.map WalRecord.wire).reverse.map (undoEffect (analysis (log.map WalRecord.wire))))
    (by simp only [← List.map_reverse, List.map_map, List.mem_map, Function.comp, List.mem_reverse]
        rintro e ⟨r, hr, rfl⟩
        exact undoEffect_fits (h r hr).1 (h r hr).2 _) t1
  refine ⟨t2, ?_, fun k => ?_⟩
  · by_cases hnil : log = []
    · subst hnil
      cases h1
      cases h2
      rfl
    · have hne : log.map WalRecord.wire ≠ [] := by simpa using hnil
      simp only [recover, hread, bind, Except.bind, hne, ↓reduceIte]
      rw [redo_eq, h1]
      simp only
      rw [undo_eq, h2, analysis_map_wire]
      rfl
  · rw [g2, g1, recovered, analysis_map_wire, aborted_map_wire, ← List.map_reverse, List.map_map,
      List.map_map]
    rfl

/-- One record that is too large, of a transaction without an ABORT record, makes recovery throw. -/
theorem recover_throws {log : List WalRecord} (h : ∀ r ∈ log, r.Appended ∧ r.Short)
    {r : WalRecord} (hr : r ∈ log) (hty : r.type = .WRITE) (hab : r.txnId ∉ aborted log)
    (hv : r.afterVal ≠ []) (hf : ¬ Fits r.key r.afterVal) (tree : KV) :
    ∃ err, recover (encodeLog log) tree = .error err := by
  have hread := readAll_encodeLog_eq h
  have hbad : ∃ e ∈ (log.map WalRecord.wire).map (redoEffect (aborted (log.map WalRecord.wire))),
      ¬ e.Fits := by
    refine ⟨some (r.key, some r.afterVal), ?_, hf⟩
    rw [aborted_map_wire, List.map_map, List.mem_map]
    exact ⟨r, hr, by simp [redoEffect, WalRecord.wire, hty, hab, hv]⟩
  obtain ⟨err, herr⟩ := foldlM_apply_error _ hbad tree
  have hne : log.map WalRecord.wire ≠ [] := by
    intro e
    rw [List.map_eq_nil_iff.mp e] at hr
    cases hr
  refine ⟨err, ?_⟩
  simp only [recover, hread, bind, Except.bind, hne, ↓reduceIte]
  rw [redo_eq, herr]

/-! ## Recovery can be started again -/

/-- The last two phases of `recover`. -/
def redoUndo (records : List WalRecord) (tree : KV) : Except Exn KV := do
  undo records (analysis records) (← redo records tree)

/-- What the rounds of the two loops do, in order. -/
def rounds (records : List WalRecord) : List Effect :=
  records.map (redoEffect (aborted records)) ++
    records.reverse.map (undoEffect (analysis records))

theorem redoUndo_eq (records : List WalRecord) (tree : KV) :
    redoUndo records tree = (rounds records).foldlM Effect.apply tree := by
  rw [redoUndo, redo_eq, rounds, List.foldlM_append]
  congr 1
  funext tree
  exact undo_eq records _ tree

/-- `k` is written by a WRITE record of a transaction without an ABORT record. -/
def Written (records : List WalRecord) (k : Bytes) : Prop :=
  ∃ r ∈ records, r.type = .WRITE ∧ r.txnId ∉ aborted records ∧ r.key = k

theorem Written.round {records : List WalRecord} {k : Bytes} (h : Written records k) :
    ∃ v, some (k, v) ∈ rounds records := by
  obtain ⟨r, hr, htype, hab, rfl⟩ := h
  refine ⟨if r.afterVal = [] then none else some r.afterVal, List.mem_append_left _ ?_⟩
  exact List.mem_map.mpr ⟨r, hr, if_pos ⟨htype, hab⟩⟩

/-- Where there is an effect on a key, what was there before does not matter. -/
theorem valueAfter_of_mem {k : Bytes} {effs : List Effect} (h : ∃ v, some (k, v) ∈ effs)
    (init init' : Option Bytes) : valueAfter k effs init = valueAfter k effs init' := by
  induction effs generalizing init init' with
  | nil =>
    obtain ⟨v, hv⟩ := h
    cases hv
  | cons e effs ih =>
    by_cases hrest : ∃ v, some (k, v) ∈ effs
    · exact ih hrest _ _
    · -- the first effect is the only one
      obtain ⟨v, hv⟩ := h
      rcases List.mem_cons.mp hv with rfl | hv
      · simp only [valueAfter, List.foldl_cons, if_pos]
      · exact (hrest ⟨v, hv⟩).elim

/-- What a failing pass throws does not depend on the tree. -/
theorem foldlM_apply_error_congr {effs : List Effect} (h : ∃ e ∈ effs, ¬ e.Fits) (tree tree' : KV) :
    effs.foldlM Effect.apply tree = effs.foldlM Effect.apply tree' := by
  induction effs generalizing tree tree' with
  | nil =>
    obtain ⟨e, he, -⟩ := h
    cases he
  | cons e effs ih =>
    rw [List.foldlM_cons, List.foldlM_cons]
    by_cases hfits : e.Fits
    · obtain ⟨t, ht, -⟩ := Effect.apply_ok hfits tree
      obtain ⟨t', ht', -⟩ := Effect.apply_ok hfits tree'
      rw [ht, ht']
      obtain ⟨e', he', hne⟩ := h
      rcases List.mem_cons.mp he' with rfl | he'
      · exact (hne hfits).elim
      · exact ih ⟨e', he', hne⟩ t t'
    · match e, hfits with
      | none, hfits => exact (hfits trivial).elim
      | some (k, none), hfits => exact (hfits trivial).elim
      | some (k, some v), hfits =>
        have hfits : ¬ KeyVDB.Fits k v := hfits
        rw [Effect.apply, Effect.apply, KV.insert_of_not_fits _ hfits,
          KV.insert_of_not_fits _ hfits]

/-- Passes over two trees that agree on the keys without an effect end the same way. -/
theorem foldlM_apply_congr {effs : List Effect} {tree tree' : KV}
    (h : ∀ k, (∀ v, some (k, v) ∉ effs) → tree.get k = tree'.get k) :
    effs.foldlM Effect.apply tree = effs.foldlM Effect.apply tree' := by
  by_cases hfits : ∀ e ∈ effs, e.Fits
  · obtain ⟨t, ht, hget⟩ := foldlM_apply_ok effs hfits tree
    obtain ⟨t', ht', hget'⟩ := foldlM_apply_ok effs hfits tree'
    have hsame : t = t' := by
      refine KV.ext (funext fun k => ?_)
      rw [hget, hget']
      by_cases hk : ∃ v, some (k, v) ∈ effs
      · exact valueAfter_of_mem hk _ _
      · rw [h k (not_exists.mp hk)]
    rw [ht, ht', hsame]
  · push Not at hfits
    exact foldlM_apply_error_congr hfits tree tree'

/-- A part of a pass changes only keys that the pass has an effect on. -/
theorem get_of_take {effs : List Effect} {n : Nat} {tree tree' : KV}
    (h : (effs.take n).foldlM Effect.apply tree = .ok tree') {k : Bytes}
    (hk : ∀ v, some (k, v) ∉ effs) : tree'.get k = tree.get k := by
  have hfits : ∀ e ∈ effs.take n, e.Fits := by
    by_contra hbad
    push Not at hbad
    obtain ⟨err, herr⟩ := foldlM_apply_error _ hbad tree
    rw [h] at herr
    cases herr
  obtain ⟨t, ht, hget⟩ := foldlM_apply_ok _ hfits tree
  rw [h] at ht
  cases ht
  rw [hget]
  exact valueAfter_of_not (fun v hv => hk v (List.mem_of_mem_take hv)) _

/-- **Recovery can be started again.** The outcome depends on the tree only where no record of a
transaction without an ABORT record writes, and a recovery that follows one which was interrupted
after any number of rounds has the outcome of a single one. -/
theorem redoUndo_restartable (records : List WalRecord) :
    (∀ tree tree' : KV, (∀ k, ¬ Written records k → tree.get k = tree'.get k) →
      redoUndo records tree = redoUndo records tree') ∧
    ∀ (tree tree' : KV) (n : Nat), ((rounds records).take n).foldlM Effect.apply tree = .ok tree' →
      redoUndo records tree' = redoUndo records tree := by
  constructor
  · intro tree tree' h
    rw [redoUndo_eq, redoUndo_eq]
    refine foldlM_apply_congr fun k hk => h k fun hw => ?_
    obtain ⟨v, hv⟩ := hw.round
    exact hk v hv
  · intro tree tree' n h
    rw [redoUndo_eq, redoUndo_eq]
    exact foldlM_apply_congr fun k hk => get_of_take h hk

/-- Recovery is interrupted after it has redone the write of a loser, and is started again. -/
theorem redoUndo_restartable_loser :
    let records : List WalRecord :=
      [{ txnId := 1, type := .BEGIN }, { txnId := 1, type := .WRITE, key := [97], afterVal := [1] }]
    let tree := KV.empty.set [97] [1] (by decide)
    ((rounds records).take 2).foldlM Effect.apply .empty = .ok tree ∧
      redoUndo records tree = redoUndo records .empty := by
  have htake : ((rounds [{ txnId := 1, type := .BEGIN },
      { txnId := 1, type := .WRITE, key := [97], afterVal := [1] }]).take 2).foldlM Effect.apply
        .empty = .ok (KV.empty.set [97] [1] (by decide)) := rfl
  exact ⟨htake, (redoUndo_restartable _).2 _ _ 2 htake⟩

end RecoveryManager

end KeyVDB
