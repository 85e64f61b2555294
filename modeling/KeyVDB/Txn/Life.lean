import KeyVDB.Lib.Call
import KeyVDB.Txn.Exact

/-!
# The life of a database

Processes come and go over the two files. `DB::Open` reads the log, runs the rounds of redo and undo
while the buffer pool may write any key to the data file, flushes, and truncates the log; then
transactions run; then the process dies, at any point of all this, or calls `Close` and ends. A life
is any sequence of such steps, over any number of processes.

`life_serial`: the committed transactions of all the processes, executed one after the other on the
first map, give every call the result it had, and their map is what the next `Open` finds, however
often recovery itself is cut short. The conditions are those of `recovery_exact` when a process
dies with transactions behind it, and that of `closesTo_committed_iff` when it ends after `Close`.
-/

namespace KeyVDB

open RecoveryManager

/-- Where the process stands, with what it shares with the next one: the files. -/
inductive Process
  | down (wal : Bytes) (disk : KV)  -- no process
  | opening (log : LogManager) (rest : List Effect) (tree disk : KV)  -- rounds left to run
  | flushed (log : LogManager) (tree : KV)  -- in `Open`, before the log is truncated
  | up (m₀ : KV) (ts : Traced)  -- `Open` returned and showed `m₀`
  | threw  -- `Open` threw

inductive LifeAction
  | start  -- a process calls `Open`, which reads the log
  | round  -- a round of the loops of `redo` and `undo`
  | evict (key : Bytes)  -- the buffer pool writes the page of a key during recovery
  | flush  -- `flush_all` and the fsync of `Open`
  | truncate  -- the last call of `Open`
  | act (a : Action)
  | close  -- the process calls `Close` and ends
  | kill  -- the process dies
  deriving DecidableEq

/-- A process, and the calls of the transactions that committed in those before it. -/
structure Life where
  process : Process
  past : List (List (Op × Res)) := []

/-- The calls of the committed transactions, in the order of their COMMIT records. -/
def Traced.committedCalls (ts : Traced) : List (List (Op × Res)) :=
  (commitOrder ts.events).map (callsOf ts.events)

/-- The calls of all committed transactions so far. -/
def Life.history (l : Life) : List (List (Op × Res)) :=
  match l.process with
  | .up _ ts => l.past ++ ts.committedCalls
  | _ => l.past

/-- One step; `none` when it is not enabled. -/
def lifeStep (l : Life) (a : LifeAction) : Option Life :=
  match l.process, a with
  | .down wal disk, .start =>
    match LogManager.readAll wal with
    | .ok records =>
      some { l with process := .opening (.openFile wal) (rounds records) disk disk }
    | .error _ => some { l with process := .threw }
  | .opening log (e :: rest) tree disk, .round =>
    match e.apply tree with
    | .ok tree => some { l with process := .opening log rest tree disk }
    | .error _ => some { l with process := .threw }
  | .opening log rest tree disk, .evict k =>
    some { l with process := .opening log rest tree (disk.writeOut tree k) }
  | .opening log [] tree _, .flush => some { l with process := .flushed log tree }
  | .flushed log tree, .truncate =>
    some { l with process := .up tree { sys := { Sys.opened tree with wal := log.truncate } } }
  | .up m₀ ts, .act a => (tstep ts a).map fun ts => { l with process := .up m₀ ts }
  | .up _ ts, .close =>
    some { process := .down ts.sys.close.wal.file ts.sys.close.disk
           past := l.past ++ ts.committedCalls }
  | .opening log _ _ disk, .kill => some { l with process := .down log.file disk }
  | .flushed log tree, .kill => some { l with process := .down log.file tree }
  | .up _ ts, .kill =>
    some { process := .down ts.sys.wal.file ts.sys.disk, past := l.past ++ ts.committedCalls }
  | _, _ => none

/-- The steps that keep a life serial: no `Put` fails, a process that dies with transactions behind it
leaves a settled data file and no empty value, and one that closes leaves no write of an
open transaction in effect. -/
def LifeOk (l : Life) (a : LifeAction) : Prop :=
  match l.process, a with
  | .up _ ts, .act a => PutFits ts a
  | .up m₀ ts, .kill => ts.Settled m₀ ∧ ts.NoEmpty m₀
  | .up _ ts, .close => ts.sys.NoneInEffect
  | _, _ => True

/-! ## Histories -/

/-- The map that the transactions produce one after the other, with the results they give. -/
def serialCalls (m : KV) (calls : List (List (Op × Res))) : KV × List (List Res) :=
  serial m (calls.map fun tx => tx.map Prod.fst)

/-- Every call has the result that the serial execution gives it, which ends in `m'`. -/
def Replays (m : KV) (calls : List (List (Op × Res))) (m' : KV) : Prop :=
  serialCalls m calls = (m', calls.map fun tx => tx.map Prod.snd)

theorem serial_append_serial (m : KV) (txs txs' : List (List Op)) :
    serial m (txs ++ txs') =
      ((serial (serial m txs).1 txs').1, (serial m txs).2 ++ (serial (serial m txs).1 txs').2) := by
  induction txs generalizing m with
  | nil => rfl
  | cons tx txs ih => simp only [List.cons_append, serial, ih]

theorem Replays.append {m m' m'' : KV} {calls calls' : List (List (Op × Res))}
    (h : Replays m calls m') (h' : Replays m' calls' m'') : Replays m (calls ++ calls') m'' := by
  unfold Replays serialCalls at h h' ⊢
  rw [List.map_append, serial_append_serial, h, h', List.map_append]

theorem Serial.replays {m₀ view : KV} {ts : Traced} (h : Serial m₀ ts view) :
    Replays m₀ ts.committedCalls view := by
  unfold Replays serialCalls Traced.committedCalls
  rw [List.map_map, List.map_map]
  exact h.serial_eq

/-! ## Recovery in rounds -/

/-- The log can be read, and its rounds lead from `disk` to `m`. -/
def RecoversTo (wal : Bytes) (disk m : KV) : Prop :=
  ∃ records, LogManager.readAll wal = .ok records ∧
    (rounds records).foldlM Effect.apply disk = .ok m

theorem recoversTo_of_recover {wal : Bytes} {disk m : KV} {n : Nat}
    (h : recover wal disk = .ok (n, m)) : RecoversTo wal disk m := by
  unfold recover at h
  obtain ⟨records, hread, h⟩ := except_bind_eq_ok.mp h
  refine ⟨records, hread, ?_⟩
  rw [← redoUndo_eq]
  split at h
  · next hnil =>
    cases h
    subst hnil
    rfl
  · obtain ⟨tree, hredo, h⟩ := except_bind_eq_ok.mp h
    obtain ⟨tree', hundo, h⟩ := except_bind_eq_ok.mp h
    cases h
    simp only [redoUndo, hredo, bind, Except.bind]
    exact hundo

theorem RecoversTo.recover {wal : Bytes} {disk m : KV} (h : RecoversTo wal disk m) :
    ∃ n, RecoveryManager.recover wal disk = .ok (n, m) := by
  obtain ⟨records, hread, hrounds⟩ := h
  rw [← redoUndo_eq] at hrounds
  unfold redoUndo at hrounds
  obtain ⟨tree, hredo, hundo⟩ := except_bind_eq_ok.mp hrounds
  unfold RecoveryManager.recover
  simp only [hread, bind, Except.bind]
  split
  · next hnil =>
    subst hnil
    cases hredo
    cases hundo
    exact ⟨0, rfl⟩
  · rw [hredo]
    dsimp only
    rw [hundo]
    exact ⟨_, rfl⟩

/-- Recovery in the middle: the rest of the rounds lead to `m`, and so would a fresh start. -/
structure Recovering (wal : Bytes) (rest : List Effect) (tree disk m : KV) : Prop where
  rest_ok : rest.foldlM Effect.apply tree = .ok m
  again : ∃ records, LogManager.readAll wal = .ok records ∧
    (rounds records).foldlM Effect.apply disk = .ok m ∧ rest ⊆ rounds records ∧
    ∀ k, (∀ v, some (k, v) ∉ rounds records) → tree.get k = disk.get k

namespace Recovering

variable {wal : Bytes} {rest : List Effect} {tree disk m : KV}

theorem recoversTo (h : Recovering wal rest tree disk m) : RecoversTo wal disk m := by
  obtain ⟨records, hread, hrounds, -, -⟩ := h.again
  exact ⟨records, hread, hrounds⟩

/-- A round succeeds, and only touches a key that recovery would touch again. -/
theorem round {e : Effect} (h : Recovering wal (e :: rest) tree disk m) :
    ∃ tree', e.apply tree = .ok tree' ∧ Recovering wal rest tree' disk m := by
  obtain ⟨records, hread, hrounds, hsub, hsame⟩ := h.again
  have hrest := h.rest_ok
  rw [List.foldlM_cons] at hrest
  obtain ⟨tree', he, hrest⟩ := except_bind_eq_ok.mp hrest
  refine ⟨tree', he, hrest, records, hread, hrounds, ?_, ?_⟩
  · intro e' he'
    exact hsub (List.mem_cons_of_mem _ he')
  · intro k hk
    rw [← hsame k hk]
    have hone : ([e].take 1).foldlM Effect.apply tree = .ok tree' := by
      simpa using he
    apply get_of_take hone
    intro v hv
    rw [List.mem_singleton] at hv
    exact hk v (hsub (hv ▸ List.mem_cons_self))

/-- Where recovery does not go, the tree and the data file agree, so writing a key out changes
nothing that a fresh start would see. -/
theorem evict (h : Recovering wal rest tree disk m) (key : Bytes) :
    Recovering wal rest tree (disk.writeOut tree key) m := by
  obtain ⟨records, hread, hrounds, hsub, hsame⟩ := h.again
  have hout : ∀ k, (∀ v, some (k, v) ∉ rounds records) →
      (disk.writeOut tree key).get k = disk.get k := by
    intro k hk
    rw [KV.writeOut_get]
    split
    · exact hsame k hk
    · rfl
  refine ⟨h.rest_ok, records, hread, ?_, hsub, ?_⟩
  · rw [← hrounds]
    exact foldlM_apply_congr hout
  · intro k hk
    rw [hout k hk, hsame k hk]

/-- The tree at the end of recovery, written out as a whole. -/
theorem flush (h : Recovering wal [] tree disk m) : tree = m ∧ RecoversTo wal tree m := by
  obtain ⟨records, hread, hrounds, -, hsame⟩ := h.again
  refine ⟨Except.ok.inj h.rest_ok, records, hread, ?_⟩
  rw [← hrounds]
  exact foldlM_apply_congr hsame

end Recovering

theorem RecoversTo.start {wal : Bytes} {disk m : KV} (h : RecoversTo wal disk m) :
    ∃ records, LogManager.readAll wal = .ok records ∧
      Recovering wal (rounds records) disk disk m := by
  obtain ⟨records, hread, hrounds⟩ := h
  exact ⟨records, hread, hrounds, records, hread, hrounds, List.Subset.refl _, fun _ _ => rfl⟩

/-! ## The invariant -/

/-- What the process and the files have, when the past produced `m`. -/
def Process.Sound (m : KV) : Process → Prop
  | .down wal disk => RecoversTo wal disk m
  | .opening log rest tree disk => Recovering log.file rest tree disk m
  | .flushed log tree => tree = m ∧ RecoversTo log.file tree m
  | .up m₀ ts => m₀ = m ∧ ∃ view, Exact m₀ ts view
  | .threw => False

/-- The past is serial, and the process starts from its map. -/
def Life.Sound (m : KV) (l : Life) : Prop := ∃ m', Replays m l.past m' ∧ l.process.Sound m'

namespace Life.Sound

variable {m : KV} {l l' : Life}

theorem lifeStep {a : LifeAction} (h : l.Sound m) (hok : LifeOk l a)
    (hs : lifeStep l a = some l') : l'.Sound m := by
  obtain ⟨p, past⟩ := l
  obtain ⟨m', hpast, hp⟩ := h
  dsimp only at hpast hp
  cases p with
  | down wal disk =>
    cases a with
    | start =>
      obtain ⟨records, hread, hrec⟩ := RecoversTo.start hp
      simp only [KeyVDB.lifeStep, hread] at hs
      cases hs
      exact ⟨m', hpast, hrec⟩
    | _ => cases hs
  | opening log rest tree disk =>
    have hp : Recovering log.file rest tree disk m' := hp
    cases a with
    | round =>
      cases rest with
      | nil => cases hs
      | cons e rest =>
        obtain ⟨tree', he, hrec⟩ := hp.round
        simp only [KeyVDB.lifeStep, he] at hs
        cases hs
        exact ⟨m', hpast, hrec⟩
    | evict k =>
      cases rest <;> cases hs <;> exact ⟨m', hpast, hp.evict k⟩
    | flush =>
      cases rest with
      | nil =>
        cases hs
        exact ⟨m', hpast, hp.flush⟩
      | cons e rest => cases hs
    | kill =>
      cases rest <;> cases hs <;> exact ⟨m', hpast, hp.recoversTo⟩
    | _ => cases rest <;> cases hs
  | flushed log tree =>
    obtain ⟨htree, hrec⟩ := hp
    cases a with
    | truncate =>
      cases hs
      exact ⟨m', hpast, htree, tree, Exact.opened tree⟩
    | kill =>
      cases hs
      exact ⟨m', hpast, hrec⟩
    | _ => cases hs
  | up m₀ ts =>
    obtain ⟨rfl, view, hexact⟩ := hp
    have hpast' : Replays m (past ++ ts.committedCalls) view :=
      hpast.append hexact.fitting.serial.replays
    cases a with
    | act a =>
      obtain ⟨ts', hts', rfl⟩ := Option.map_eq_some_iff.mp hs
      exact ⟨m₀, hpast, rfl, hexact.tstep hok hts'⟩
    | close =>
      cases hs
      refine ⟨view, hpast', ?_⟩
      have htree : ts.sys.tree = view := hexact.fitting.serial.iso.tree_eq_iff.mpr hok
      obtain ⟨n, hn⟩ := (Sys.closesTo_iff ts.sys view).mpr htree
      exact recoversTo_of_recover hn
    | kill =>
      cases hs
      refine ⟨view, hpast', ?_⟩
      obtain ⟨n, m', hm, hget⟩ := hexact.fitting.recover ts.sys.disk
      have heq : m' = view := by
        rw [← hexact.committedMap_eq]
        exact (hexact.recovered_eq_iff hget).mpr hok
      exact heq ▸ recoversTo_of_recover hm
    | _ => cases hs
  | threw => exact hp.elim

end Life.Sound

/-- **The life of a database.** However often processes die or close, also in the middle of
recovery, `Open` does not throw, and the committed transactions of the whole life, executed one
after the other, give every call the result it had. What they produce is what the next `Open`
recovers, what a running process started from and then shows under every key that no open
transaction wrote. -/
theorem life_serial (m : KV) (as : List LifeAction) (l : Life)
    (hrun : run lifeStep { process := .down [] m } as = some l)
    (hok : Steps lifeStep LifeOk { process := .down [] m } as) :
    ∃ m', Replays m l.history m' ∧
      match l.process with
      | .down wal disk => ∃ n, recover wal disk = .ok (n, m')
      | .opening log _ _ disk => ∃ n, recover log.file disk = .ok (n, m')
      | .flushed log tree => tree = m' ∧ ∃ n, recover log.file tree = .ok (n, m')
      | .up _ ts => ∀ k, (∀ t tx, ts.sys.txns t = some tx → tx.stage.Live → k ∉ tx.writeSet) →
          ts.sys.tree.get k = m'.get k
      | .threw => False := by
  have hstart : Life.Sound m { process := .down [] m } := by
    refine ⟨m, rfl, ?_⟩
    exact recoversTo_of_recover (n := 0) rfl
  have hstep : ∀ l a l', Life.Sound m l → LifeOk l a → lifeStep l a = some l' → Life.Sound m l' :=
    fun l a l' h hok hs => h.lifeStep hok hs
  obtain ⟨m', hpast, hp⟩ := run_inv hstep hstart hok hrun
  obtain ⟨p, past⟩ := l
  cases p with
  | down wal disk => exact ⟨m', hpast, RecoversTo.recover hp⟩
  | opening log rest tree disk => exact ⟨m', hpast, (Recovering.recoversTo hp).recover⟩
  | flushed log tree => exact ⟨m', hpast, hp.1, hp.2.recover⟩
  | up m₀ ts =>
    obtain ⟨rfl, view, hexact⟩ := hp
    exact ⟨view, hpast.append hexact.fitting.serial.replays, hexact.fitting.serial.iso.clean⟩
  | threw => exact hp.elim

/-! ## One process of a life -/

/-- The transactions of one process, as a part of a life. -/
theorem run_lifeStep_act (m₀ : KV) (past : List (List (Op × Res))) (ts : Traced)
    (as : List Action) :
    run lifeStep { process := .up m₀ ts, past } (as.map LifeAction.act) =
      (run tstep ts as).map fun ts' => { process := .up m₀ ts', past } := by
  induction as generalizing ts with
  | nil => rfl
  | cons a as ih =>
    simp only [List.map_cons, run, lifeStep]
    cases hs : tstep ts a with
    | none => rfl
    | some ts' => exact ih ts'

theorem steps_lifeStep_act {m₀ : KV} {past : List (List (Op × Res))} {ts : Traced}
    {as : List Action} (h : Steps tstep PutFits ts as) :
    Steps lifeStep LifeOk { process := .up m₀ ts, past } (as.map LifeAction.act) := by
  induction as generalizing ts with
  | nil => trivial
  | cons a as ih =>
    refine ⟨h.1, fun l hl => ?_⟩
    obtain ⟨ts', hts', rfl⟩ := Option.map_eq_some_iff.mp hl
    exact ih (h.2 ts' hts')

/-- A step of `Open`. -/
def LifeAction.opens : LifeAction → Bool
  | .act _ => false
  | .close => false
  | .kill => false
  | _ => true

/-- The steps of `Open` have no condition. -/
theorem lifeOk_of_opens {a : LifeAction} (h : a.opens = true) (l : Life) : LifeOk l a := by
  unfold LifeOk
  split
  · cases h
  · cases h
  · cases h
  · trivial

/-- Without an ABORT record the data file is settled. -/
theorem Logged.settled {ts : Traced} (h : Logged ts) (hno : RecoveryManager.aborted ts.log = ∅) (m₀ : KV) :
    ts.Settled m₀ := by
  intro k hw hno'
  obtain ⟨t, hw⟩ := hw
  refine absurd ⟨t, hw, ?_⟩ hno'
  rw [ne_eq, ← h.aborted t, hno]
  exact Finset.notMem_empty t

/-- A process dies with one transaction committed and another one's write on disk; the next one
recovers. -/
theorem life_serial_crash :
    ∃ l, run lifeStep { process := .down [] .empty }
        ([.start, .flush, .truncate] ++ ([.begin, .lock 1 (.put [97] [1]), .body 1,
          .appendCommit 1, .begin, .lock 2 (.put [98] [2]), .body 2, .evict [98]] : List Action).map
            LifeAction.act ++ [.kill, .start, .evict [98], .round, .round]) = some l ∧
      ∃ m', Replays .empty l.history m' := by
  let acts : List Action := [.begin, .lock 1 (.put [97] [1]), .body 1, .appendCommit 1, .begin,
    .lock 2 (.put [98] [2]), .body 2, .evict [98]]
  have hend : ((run tstep (.opened .empty) acts).map fun ts => (aborted ts.log, ts.events)) =
      some (∅, [.call 1 (.put [97] [1]) .wrote, .commit 1, .call 2 (.put [98] [2]) .wrote]) := by
    decide +kernel
  obtain ⟨ts, hts, hlog⟩ := Option.map_eq_some_iff.mp hend
  simp only [Prod.mk.injEq] at hlog
  have hfit : Steps tstep PutFits (.opened .empty) acts := by
    refine steps_putFits (fun t op hop => ?_) fun t op ws hat => by cases hat
    simp only [acts, List.mem_cons, reduceCtorEq, Action.lock.injEq, List.not_mem_nil, or_false,
      false_or] at hop
    rcases hop with ⟨-, rfl⟩ | ⟨-, rfl⟩
    · show Fits [97] [1]
      decide
    · show Fits [98] [2]
      decide
  obtain ⟨view, hexact⟩ := Exact.run hfit hts
  -- the only committed write is not empty
  have hempty : ts.NoEmpty .empty := by
    intro k _
    have hmap : ts.committedMap .empty = KV.empty.set [97] [1] (by decide) := by
      rw [Traced.committedMap, hlog.2]
      rfl
    rw [hmap, KV.set_get]
    split
    · decide
    · intro e
      cases e
  have hopen : run lifeStep { process := .down [] .empty } [.start, .flush, .truncate] =
      some { process := .up .empty (.opened .empty) } := rfl
  have hacts := run_lifeStep_act .empty [] (.opened .empty) acts
  rw [hts, Option.map_some] at hacts
  have hsteps : Steps lifeStep LifeOk { process := .down [] .empty }
      ([.start, .flush, .truncate] ++ acts.map LifeAction.act ++
        [.kill, .start, .evict [98], .round, .round]) := by
    refine Steps.append (Steps.append (steps_of_mem ?_ _) ?_) ?_
    · intro l a ha
      exact lifeOk_of_opens ((by decide : ∀ a ∈ [.start, .flush, .truncate], a.opens = true) a ha) l
    · intro l hl
      cases hopen.symm.trans hl
      exact steps_lifeStep_act hfit
    · intro l hl
      rw [run_append, hopen, Option.bind_some, hacts] at hl
      cases hl
      refine ⟨⟨hexact.fitting.logged.settled hlog.1 _, hempty⟩, fun l' _ => steps_of_mem ?_ l'⟩
      intro l a ha
      exact lifeOk_of_opens
        ((by decide : ∀ a ∈ [.start, .evict [98], .round, .round], a.opens = true) a ha) l
  have hdone : (run lifeStep { process := .down [] .empty }
      ([.start, .flush, .truncate] ++ acts.map LifeAction.act ++
        [.kill, .start, .evict [98], .round, .round])).isSome := by decide +kernel
  obtain ⟨l, hl⟩ := Option.isSome_iff_exists.mp hdone
  obtain ⟨m', hm', -⟩ := life_serial .empty _ l hl hsteps
  exact ⟨l, hl, m', hm'⟩

end KeyVDB
