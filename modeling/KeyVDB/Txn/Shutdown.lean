import KeyVDB.Txn.Isolation

/-!
# Shutdown

`DB::Close` flushes all pages and truncates the log. It does nothing about open transactions: with
the log gone, their writes are there to stay once the process ends without their destructors. The
next `DB::Open` shows the committed transactions alone exactly if no write of an open transaction is
in effect.
-/

namespace KeyVDB

/-- `DB::Close`. -/
def Sys.close (s : Sys) : Sys :=
  { s with disk := s.tree, diskDurable := s.tree, wal := s.wal.truncate }

/-- What the committed transactions produce one after the other. -/
def Traced.committedMap (m₀ : KV) (ts : Traced) : KV :=
  (serial m₀ ((commitOrder ts.events).map (opsOf ts.events))).1

/-- The process ends after `Close`, and the next `DB::Open` shows `m`. -/
def Sys.ClosesTo (s : Sys) (m : KV) : Prop :=
  ∃ n, RecoveryManager.recover s.close.wal.file s.close.disk = .ok (n, m)

/-- No write of an open transaction is in effect: every key in its write set has the value that it
had before. -/
def Sys.NoneInEffect (s : Sys) : Prop :=
  ∀ t tx, s.txns t = some tx → tx.stage.Live → ∀ k e, tx.writeSet.lookup k = some e →
    s.tree.get k = e.before

/-- With the log truncated there is nothing to recover. -/
theorem Sys.closesTo_iff (s : Sys) (m : KV) : s.ClosesTo m ↔ s.tree = m := by
  have hrecover : RecoveryManager.recover s.close.wal.file s.close.disk = .ok (0, s.tree) := rfl
  rw [ClosesTo, hrecover]
  simp

/-- The tree is the view exactly if no write of an open transaction is in effect. -/
theorem Iso.tree_eq_iff {s : Sys} {hist : TxnId → List (Op × Res)} {view : KV}
    (h : Iso s hist view) : s.tree = view ↔ s.NoneInEffect := by
  constructor
  · intro heq t tx htx hlive k e he
    rw [heq, h.before htx hlive he]
  · intro hnone
    refine KV.ext (funext fun k => ?_)
    by_cases hk : ∀ t tx, s.txns t = some tx → tx.stage.Live → k ∉ tx.writeSet
    · exact h.clean k hk
    · push Not at hk
      obtain ⟨t, tx, htx, hlive, hmem⟩ := hk
      obtain ⟨e, he⟩ := Option.isSome_iff_exists.mp (Finmap.lookup_isSome.mpr hmem)
      rw [hnone t tx htx hlive k e he, h.before htx hlive he]

/-- **Shutdown.** From every state that a run reaches, closing and opening the database again shows
the committed transactions and nothing else, if and only if no write of an open transaction is in
effect when `Close` runs. -/
theorem closesTo_committed_iff (m₀ : KV) (as : List Action) (ts : Traced)
    (h : run tstep (.opened m₀) as = some ts) :
    ts.sys.ClosesTo (ts.committedMap m₀) ↔ ts.sys.NoneInEffect := by
  obtain ⟨view, hs⟩ := Serial.run h
  rw [Sys.closesTo_iff, Traced.committedMap, hs.serial_eq]
  exact hs.iso.tree_eq_iff

/-- One transaction has committed, another one is open and has only read. -/
theorem closesTo_committed_reader :
    ∃ ts, run tstep (.opened .empty)
        [.begin, .lock 1 (.put [97] [1]), .body 1, .appendCommit 1, .walFlush 1, .dataFlush 1,
          .releaseAll 1, .begin, .lock 2 (.get [97]), .body 2] = some ts ∧
      ts.sys.ClosesTo (ts.committedMap .empty) := by
  have hsome : ((run tstep (.opened .empty)
      [.begin, .lock 1 (.put [97] [1]), .body 1, .appendCommit 1, .walFlush 1, .dataFlush 1,
        .releaseAll 1, .begin, .lock 2 (.get [97]), .body 2]).map fun ts =>
      (ts.sys.wal.nextTxnId, (ts.sys.txns 1).map (·.stage),
        (ts.sys.txns 2).map (·.writeSet.keys))) = some (3, some .committed, some ∅) := by
    decide +kernel
  obtain ⟨ts, hrun, hts⟩ := Option.map_eq_some_iff.mp hsome
  simp only [Prod.mk.injEq] at hts
  obtain ⟨hnext, h1, h2⟩ := hts
  refine ⟨ts, hrun, (closesTo_committed_iff _ _ ts hrun).mpr fun t tx htx hlive k e he => ?_⟩
  -- the first transaction has ended and the second one wrote nothing
  obtain ⟨view, hs⟩ := Serial.run hrun
  rcases hs.iso.eq_one_or_two hnext htx with rfl | rfl
  · rw [htx, Option.map_some, Option.some.injEq] at h1
    rw [h1] at hlive
    exact hlive.elim
  · rw [htx, Option.map_some, Option.some.injEq] at h2
    have hmem : k ∈ tx.writeSet.keys :=
      Finmap.mem_keys.mpr (Finmap.lookup_isSome.mp (by rw [he]; rfl))
    rw [h2] at hmem
    cases hmem

/-- The write of a transaction that is open when `Close` runs is there after the next `Open`. -/
theorem open_write_survives_close :
    ∃ ts, run tstep (.opened .empty) [.begin, .lock 1 (.put [97] [1]), .body 1] = some ts ∧
      commitOrder ts.events = [] ∧ (∃ m, ts.sys.ClosesTo m ∧ m.get [97] = some [1]) ∧
      ¬ ts.sys.ClosesTo (ts.committedMap .empty) := by
  have hend : ((run tstep (.opened .empty) [.begin, .lock 1 (.put [97] [1]), .body 1]).map fun ts =>
      (ts.sys.tree.get [97], ts.events)) = some (some [1], [.call 1 (.put [97] [1]) .wrote]) := by
    decide
  obtain ⟨ts, hrun, hts⟩ := Option.map_eq_some_iff.mp hend
  simp only [Prod.mk.injEq] at hts
  have horder : commitOrder ts.events = [] := by rw [hts.2]; rfl
  refine ⟨ts, hrun, horder, ⟨ts.sys.tree, (Sys.closesTo_iff _ _).mpr rfl, hts.1⟩, fun hc => ?_⟩
  have htree := (Sys.closesTo_iff _ _).mp hc
  have hempty : ts.committedMap .empty = .empty := by rw [Traced.committedMap, horder]; rfl
  have hget := hts.1
  rw [htree, hempty] at hget
  cases hget

end KeyVDB
