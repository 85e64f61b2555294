import KeyVDB.BTree.OnPool
import KeyVDB.BTree.Refine

/-!
# A process and its file

The tree on the pool and the file, from the new file on, through any number of clean shutdowns. A
shutdown flushes the pool in any order; the next process takes the number of pages from the size of
the file and the free list and the root from page 0. The answers are those of a map, until so many
frames were lost to `delete_page` that a call finds none.
-/

namespace KeyVDB

open BufferPool (Hold Session Coherent)

/-! ## Processes -/

/-- The part of `DB::Open` that is about the tree. After a clean shutdown the log is empty, so that
there is nothing to recover. -/
def openTree : BTreeM (BufferPool Content) Unit := do
  BTree.onStore (BufferPool.onDisk Disk.load)
  let root ← BTree.onStore (BufferPool.onDisk Disk.rootPageId)
  if root = INVALID_PAGE_ID then BTree.create
  else modify fun t => { t with rootPageId := root }

/-- A process, with what its calls and those of the processes before it returned. -/
structure TreeProcess where
  tree : BTree (BufferPool Content)
  opened : Nat  -- the pages of the file when it was opened
  answers : List (Except Exn TreeAnswer) := []
  deleted : Nat := 0  -- the pages that were deleted since then
  failed : Bool := false  -- an assertion failed, or the file could not be opened

/-- What is done to a process. -/
inductive ProcessCall
  | call (c : TreeCall)
  | restart (order : List PageId)  -- `flush_all` visits the page table in this order

namespace TreeProcess

/-- A new process on a file. -/
def launch (disk : Disk Content) (answers : List (Except Exn TreeAnswer)) : TreeProcess :=
  match exec openTree { store := BufferPool.init disk } with
  | (.ok _, tree) => { tree, opened := disk.numPages, answers }
  | (.error e, tree) =>
    { tree, opened := disk.numPages, answers := answers ++ [.error e], failed := true }

/-- The first process, on a new file. -/
def start : TreeProcess := launch Disk.empty []

/-- The call failed an assertion. -/
def fails : Except Exn TreeAnswer → Bool
  | .ok _ => false
  | .error e => e.ends

/-- The process after a call. -/
def call (p : TreeProcess) (c : TreeCall) : TreeProcess :=
  let (r, tree) := exec (BTree.answer c) p.tree
  { p with
    tree
    answers := p.answers ++ [r]
    deleted := p.deleted + (tree.store.disk.freePages.length - p.tree.store.disk.freePages.length)
    failed := fails r }

/-- The pool is flushed, and the next process opens the file. -/
def restart (p : TreeProcess) (order : List PageId) : TreeProcess :=
  match exec (BufferPool.flushAll order) p.tree.store with
  | (.ok _, pool) => launch (pool.disk.reopen p.opened) p.answers
  | (.error e, pool) => { p with
      tree := { p.tree with store := pool }, answers := p.answers ++ [.error e], failed := true }

/-- A process that failed is gone, and `flush_all` visits each entry of the page table. -/
def step (p : TreeProcess) : ProcessCall → Option TreeProcess
  | .call c => if p.failed = false then some (p.call c) else none
  | .restart order =>
    if p.failed = false ∧ order.toFinset = p.tree.store.pageTable.keys then some (p.restart order)
    else none

end TreeProcess

/-- The calls among what is done. -/
def ProcessCall.treeCalls : List ProcessCall → List TreeCall
  | [] => []
  | .call c :: events => c :: treeCalls events
  | .restart _ :: events => treeCalls events

/-! ## One call -/

namespace BTree

variable {allowed : List PageId → Int} {opened n : Nat} {t t' : BTree Store}
  {u u' : BTree (BufferPool Content)}

theorem follows_answer_get (key : Bytes) :
    Follows (Exhausted allowed) (Paired allowed opened [] []) (answer (.get key))
      (answer (.get key)) fun x y t u => x = y ∧ Paired allowed opened [] [] t u :=
  .seq (follows_get key) fun _ => .pure fun _ _ h => ⟨rfl, h⟩

theorem follows_answer_insert (hallowed : ∀ free, allowed free ≤ allowed free.dropLast)
    (key value : Bytes) :
    Follows (Exhausted allowed) (Paired allowed opened [] []) (answer (.insert key value))
      (answer (.insert key value)) fun x y t u => x = y ∧ Paired allowed opened [] [] t u :=
  .bind (follows_insert hallowed key value) fun _ _ => .pure fun _ _ h => ⟨rfl, h⟩

theorem follows_answer_remove (hallowed : ∀ free id, allowed free + 1 ≤ allowed (free ++ [id]))
    (key : Bytes) :
    Follows (Exhausted allowed) (Paired allowed opened [] []) (answer (.remove key))
      (answer (.remove key)) fun x y t u => x = y ∧ Paired allowed opened [] [] t u :=
  .seq (follows_remove hallowed key) fun _ => .pure fun _ _ h => ⟨rfl, h⟩

/-- By how much the free list got longer. -/
def freed (u u' : BTree (BufferPool Content)) : Nat :=
  u'.store.disk.freePages.length - u.store.disk.freePages.length

/-- At rest, with at most `n` frames lost. -/
abbrev Idle (opened n : Nat) : BTree Store → BTree (BufferPool Content) → Prop :=
  Paired (fun _ => n) opened [] []

/-- What a call on the pool comes to, when on the store it returns `a` and leaves `t'`. -/
def Answered (opened n : Nat) (a : TreeAnswer) (t' : BTree Store) (u : BTree (BufferPool Content))
    (r : Except Exn TreeAnswer × BTree (BufferPool Content)) : Prop :=
  r.1 = .ok a ∧ Idle opened (n + freed u r.2) t' r.2 ∨
    ∃ e, r.1 = .error e ∧ e.ends = true ∧ r.2.store.capacity < 4 ∧
      r.2.store.lost ≤ n + freed u r.2

/-- Where no more frames are allowed for than pages were freed. -/
theorem answered_of_follows {c : TreeCall} {a : TreeAnswer} (h : Paired allowed opened [] [] t u)
    (hfollows : Follows (Exhausted allowed) (Paired allowed opened [] []) (answer c) (answer c)
      fun x y t u => x = y ∧ Paired allowed opened [] [] t u)
    (hexec : exec (answer c) t = (.ok a, t'))
    (hfreed : ∀ free : List PageId,
      allowed free ≤ (n + (free.length - u.store.disk.freePages.length) : Nat)) :
    Answered opened n a t' u (exec (answer c) u) := by
  rcases hfollows t u h a t' hexec with ⟨b, u', hexec', rfl, h'⟩ | ⟨e, u', hexec', hlost⟩
  · rw [hexec']
    refine .inl ⟨rfl, { h' with lost := h'.lost.trans ?_ }⟩
    rw [← h'.accounts.freePages]
    exact hfreed _
  · rw [hexec']
    refine .inr ⟨e, rfl, hlost.ends, hlost.few, ?_⟩
    exact_mod_cast hlost.lost.trans (hfreed _)

/-- **One call.** When it returns on the store, it returns the same on the pool, and the pool has
lost at most a frame for each page that was freed; or the pool has hardly a frame left. -/
theorem Idle.answer (h : Idle opened n t u) {c : TreeCall} {a : TreeAnswer}
    (hexec : exec (BTree.answer c) t = (.ok a, t')) :
    Answered opened n a t' u (exec (BTree.answer c) u) := by
  have hconst : ∀ free : List PageId,
      (n : Int) ≤ (n + (free.length - u.store.disk.freePages.length) : Nat) := by
    intro free
    omega
  cases c with
  | get key => exact answered_of_follows h (follows_answer_get key) hexec hconst
  | insert key value =>
    exact answered_of_follows h (follows_answer_insert (fun _ => le_refl _) key value) hexec hconst
  | remove key =>
    let allowed : List PageId → Int := fun free =>
      n + (free.length - u.store.disk.freePages.length)
    have hstart : Paired allowed opened [] [] t u := by
      refine { h with lost := h.lost.trans ?_ }
      simp only [allowed, h.accounts.freePages]
      omega
    have hallowed : ∀ (free : List PageId) (id : PageId),
        allowed free + 1 ≤ allowed (free ++ [id]) := by
      intro free id
      simp only [allowed, List.length_append, List.length_singleton]
      omega
    refine answered_of_follows hstart (follows_answer_remove hallowed key) hexec fun free => ?_
    simp only [allowed]
    omega

/-! ## Opening a file -/

/-- A pool on a file that holds all pages of the tree. -/
theorem idle_init {d : Disk Content} (hpins : t.store.pins = 0) (haccounts : t.store.Accounts d)
    (hblank : ∀ id, ¬ t.store.InUse id → isNode (t.store.pages id).data = false)
    (hfile : ∀ id, (t.store.allocated id).isSome →
      t.store.allocated id = some (d.file id) ∧ (d.file id).pageId = id)
    (hsigned : d.Signed) (honFile : OnFile opened t.rootPageId d) :
    Idle opened 0 t { store := BufferPool.init d, rootPageId := t.rootPageId } where
  root := rfl
  accounts := haccounts
  pins := hpins
  tracked :=
    { coherent := .init hfile fun _ _ ⟨_, hx, _⟩ => absurd hx List.not_mem_nil
      pos := fun id hid => (haccounts.accounted.range id (.inl hid)).1
      idle := fun f hf => absurd rfl hf
      signed := hsigned }
  blank := hblank
  known := fun _ hi => absurd hi List.not_mem_nil
  listed := BufferPool.listed_init d
  lost := by
    rw [BufferPool.lost, BufferPool.capacity_init]
    exact le_refl _
  onFile := honFile

/-- A file with a tree is opened. -/
theorem exec_openTree {root : PageId} {free : List PageId} {d : Disk Content}
    (h : d.Header free root) (hroot : root ≠ INVALID_PAGE_ID) :
    exec openTree { store := BufferPool.init d } =
      (.ok (), { store := BufferPool.init { d with freePages := free }, rootPageId := root }) := by
  have hdisk : (BufferPool.init d).disk = d := rfl
  have hload : exec (BufferPool.onDisk Disk.load) (BufferPool.init d) =
      (.ok (), BufferPool.init { d with freePages := free }) := by
    rw [BufferPool.exec_onDisk, hdisk, h.exec_load]
    rfl
  have hheader : Disk.Header { d with freePages := free } free root := h.congr h.readable rfl
  have hdisk' : (BufferPool.init { d with freePages := free }).disk = { d with freePages := free } :=
    rfl
  have hread : exec (BufferPool.onDisk Disk.rootPageId) (BufferPool.init { d with freePages := free }) =
      (.ok root, BufferPool.init { d with freePages := free }) := by
    rw [BufferPool.exec_onDisk, hdisk', hheader.exec_rootPageId]
    rfl
  rw [openTree, exec_bind_ok (exec_onStore hload), exec_bind_ok (exec_onStore hread), if_neg hroot]
  rfl

/-- **A clean shutdown.** The next process has the pages, the free list and the root, and all its
frames; none of the pages is in one yet. -/
theorem Idle.restart (h : Idle opened n t u) (hroot : t.rootPageId ≠ INVALID_PAGE_ID)
    {order : List PageId} (horder : order.toFinset = u.store.pageTable.keys) :
    ∃ pool u', exec (BufferPool.flushAll order) u.store = (.ok (), pool) ∧
      exec openTree { store := BufferPool.init (pool.disk.reopen opened) } = (.ok (), u') ∧
      Idle (pool.disk.reopen opened).numPages 0 t u' ∧ u'.store.pageTable = ∅ ∧
      u'.store.disk.file = pool.disk.file := by
  have hall : ∀ id ∈ u.store.pageTable, id ∈ order := by
    intro id hid
    rw [← List.mem_toFinset, horder]
    exact Finmap.mem_keys.mpr hid
  obtain ⟨pool, hflush, -, hwrites, hfile⟩ := h.tracked.coherent.flushAll_file h.tracked.nonneg hall
    fun _ ⟨_, hx, _⟩ => absurd hx List.not_mem_nil
  have hacc := h.accounts.accounted.writesTo hwrites
  have hstored := h.onFile.writesTo hwrites h.range
  have hsize : (pool.disk.reopen opened).numPages = pool.disk.numPages := hstored.size
  have hread : (pool.disk.reopen opened).Readable 0 := by
    refine ⟨le_refl _, ?_, rfl⟩
    rw [hsize]
    exact hacc.readable_zero.2.1
  have hheader : (pool.disk.reopen opened).Header pool.disk.freePages t.rootPageId :=
    (hstored.toHeader hacc.readable_zero hacc.length_le).congr hread rfl
  refine ⟨pool, _, hflush, exec_openTree hheader hroot, ?_, rfl, rfl⟩
  have hsigned : pool.disk.Signed := by
    intro id hnode
    by_cases hlive : (t.store.allocated id).isSome
    · exact ⟨(h.range id hlive).1.ne', (hfile id hlive).2⟩
    · rw [hwrites.file_of_not_live hlive] at hnode ⊢
      exact h.tracked.signed id hnode
  refine idle_init h.pins ?_ h.blank hfile hsigned ⟨?_, rfl⟩
  · refine ⟨hsize.trans (hwrites.numPages.trans h.accounts.numPages),
      hwrites.freePages.trans h.accounts.freePages, ?_⟩
    exact ⟨hacc.free_nodup, hacc.free_not_live, fun id hid => by rw [hsize]; exact hacc.range id hid,
      hacc.length_le, fun _ => rfl, by rw [hsize]; exact hacc.header⟩
  · exact hstored.header

/-- A new file gets a tree without keys. -/
theorem idle_start :
    ∃ u, exec openTree { store := BufferPool.init Disk.empty } = (.ok (), u) ∧ Idle 0 0 fresh u := by
  let d : Disk Content := (exec Disk.loadNew Disk.empty).2
  have hopen : exec openTree { store := BufferPool.init Disk.empty } =
      exec create { store := BufferPool.init d } := rfl
  have hnone : ∀ id : PageId, ¬ Store.init.InUse id := by
    rintro id ⟨hlo, hhi, -⟩
    exact absurd (Int.add_one_le_iff.mpr hlo) (Int.not_le.mpr hhi)
  have hnone' : ∀ id : PageId, ¬ (Store.init.allocated id).isSome = true := fun id hid =>
    hnone id (Store.isSome_allocated.mp hid)
  have hsigned : d.Signed := by
    have hempty : (Disk.empty : Disk Content).Signed := fun _ hnode => by cases hnode
    exact (hempty.write fun hnode => by cases hnode).write fun hnode => by cases hnode
  have hinit : Idle 0 0 { store := Store.init } { store := BufferPool.init d } := by
    refine idle_init rfl ⟨rfl, rfl, ?_⟩ (fun _ _ => rfl) (fun id hid => absurd hid (hnone' id)) hsigned
      ⟨rfl, rfl⟩
    refine ⟨List.nodup_nil, fun id hid => absurd hid List.not_mem_nil, fun id hid => ?_,
      Nat.zero_le _, fun _ => rfl, Nat.one_pos⟩
    exact hid.elim (fun hid => absurd hid (hnone' id)) fun hid => absurd hid List.not_mem_nil
  have hcreate : exec create { store := Store.init } = (.ok (), fresh) := rfl
  rw [hopen]
  rcases follows_create (fun _ => le_refl _) _ _ hinit () fresh hcreate with
    ⟨_, u, hexec, h⟩ | ⟨e, u, -, hlost⟩
  · exact ⟨u, hexec, h⟩
  · have hzero := hlost.lost
    have hfew := hlost.few
    rw [BufferPool.lost] at hzero
    have hsize : POOL_SIZE = 64 := rfl
    omega

/-- A pair that is too large is refused before anything is looked at. -/
theorem exec_answer_tooLarge {σ Ptr : Type} [PageStore σ Ptr] {key value : Bytes}
    (h : ¬ Fits key value) (t : BTree σ) :
    exec (answer (.insert key value)) t = (.error (tooLarge key value), t) := by
  have hinsert : exec (insert key value) t = (.error (tooLarge key value), t) := by
    rw [insert, if_neg h]
    rfl
  rw [answer, exec_bind_error hinsert]

end BTree

/-! ## Whole runs -/

namespace TreeProcess

open BTree (Refines CallOk Idle)

variable {p p' : TreeProcess} {t : BTree Store} {m : KV}

/-- The process is in the same state as the tree on the store. -/
structure Mirrors (t : BTree Store) (p : TreeProcess) : Prop where
  running : p.failed = false
  idle : Idle p.opened p.deleted t p.tree

/-- The answers are these; or an assertion failed after some of them, and more than 60 of the 64
frames are lost. -/
def Answers (expected : List (Except Exn TreeAnswer)) (p : TreeProcess) : Prop :=
  p.failed = false ∧ p.answers = expected ∧ (∀ f, (p.tree.store.frames f).pinCount = 0) ∨
    p.failed = true ∧ 60 < p.tree.store.lost ∧
      ∃ before e, p.answers = before ++ [.error e] ∧ before <+: expected

theorem launch_eq {d : Disk Content} {u : BTree (BufferPool Content)}
    (h : exec openTree { store := BufferPool.init d } = (.ok (), u))
    (answers : List (Except Exn TreeAnswer)) :
    launch d answers = { tree := u, opened := d.numPages, answers } := by
  rw [launch, h]

theorem restart_eq {order : List PageId} {pool : BufferPool Content} {u : BTree (BufferPool Content)}
    (hflush : exec (BufferPool.flushAll order) p.tree.store = (.ok (), pool))
    (hopen : exec openTree { store := BufferPool.init (pool.disk.reopen p.opened) } = (.ok (), u)) :
    p.restart order = { tree := u, opened := (pool.disk.reopen p.opened).numPages
                        answers := p.answers } := by
  rw [TreeProcess.restart, hflush]
  exact launch_eq hopen p.answers

theorem mirrors_start : Mirrors BTree.fresh start ∧ start.answers = [] := by
  obtain ⟨u, hopen, h⟩ := BTree.idle_start
  rw [start, launch_eq hopen]
  exact ⟨⟨rfl, h⟩, rfl⟩

theorem Mirrors.restart (h : Mirrors t p) (hroot : t.rootPageId ≠ INVALID_PAGE_ID)
    {order : List PageId} (horder : order.toFinset = p.tree.store.pageTable.keys) :
    Mirrors t (p.restart order) ∧ (p.restart order).answers = p.answers := by
  obtain ⟨pool, u, hflush, hopen, hrest, -⟩ := h.idle.restart hroot horder
  rw [restart_eq hflush hopen]
  exact ⟨⟨rfl, hrest⟩, rfl⟩

theorem call_eq {r : Except Exn TreeAnswer} {u : BTree (BufferPool Content)} {c : TreeCall}
    (h : exec (BTree.answer c) p.tree = (r, u)) :
    p.call c = { p with
      tree := u, answers := p.answers ++ [r], deleted := p.deleted + BTree.freed p.tree u,
      failed := fails r } := by
  rw [call, h]
  rfl

/-- A call that the map answers is answered alike, or the frames are lost. -/
theorem Mirrors.call (h : Mirrors t p) (hm : Refines t m) {c : TreeCall} (hok : CallOk t c) :
    Mirrors (exec (BTree.answer c) t).2 (p.call c) ∧
        (p.call c).answers = p.answers ++ [(m.answer c).1] ∨
      (p.call c).failed = true ∧ 60 < (p.call c).tree.store.lost ∧
        (p.call c).tree.store.lost ≤ (p.call c).deleted ∧
        ∃ e, (p.call c).answers = p.answers ++ [.error e] := by
  have hanswer := (hm.answer hok).1
  rcases hexec : exec (BTree.answer c) t with ⟨r, t'⟩
  rw [hexec] at hanswer
  dsimp only at hanswer
  cases r with
  | ok a =>
    rcases hu : exec (BTree.answer c) p.tree with ⟨r, u⟩
    have hanswered := h.idle.answer hexec
    rw [hu] at hanswered
    rw [call_eq hu, ← hanswer]
    rcases hanswered with ⟨rfl, hrest⟩ | ⟨e, rfl, hends, hfew, hlost⟩
    · exact .inl ⟨⟨rfl, hrest⟩, rfl⟩
    · refine .inr ⟨hends, ?_, hlost, e, rfl⟩
      have hsize : POOL_SIZE = 64 := rfl
      dsimp only at hfew ⊢
      rw [BufferPool.lost]
      omega
  | error e =>
    -- only a pair that is too large is refused
    cases c with
    | get key => cases hanswer
    | remove key => cases hanswer
    | insert key value =>
      by_cases hfits : Fits key value
      · rw [KV.answer, m.insert_of_fits hfits] at hanswer
        cases hanswer
      · rw [BTree.exec_answer_tooLarge hfits] at hexec
        cases hexec
        rw [call_eq (BTree.exec_answer_tooLarge hfits p.tree), ← hanswer]
        refine .inl ⟨⟨rfl, ?_⟩, rfl⟩
        have hfreed : BTree.freed p.tree p.tree = 0 := Nat.sub_self _
        rw [hfreed]
        exact h.idle

theorem Refines.root_ne (h : Refines t m) : t.rootPageId ≠ INVALID_PAGE_ID := by
  obtain ⟨-, lab, hshape⟩ := h
  obtain ⟨height, hroot, -⟩ := hshape.root
  intro e
  have hpos := (hshape.live hroot).1
  change 0 < t.rootPageId at hpos
  rw [e] at hpos
  exact absurd hpos (by decide)

theorem step_call {c : TreeCall} (h : step p (.call c) = some p') :
    p.failed = false ∧ p' = p.call c := by
  by_cases hrunning : p.failed = false
  · rw [step, if_pos hrunning] at h
    exact ⟨hrunning, (Option.some.inj h).symm⟩
  · rw [step, if_neg hrunning] at h
    cases h

theorem step_restart {order : List PageId} (h : step p (.restart order) = some p') :
    p.failed = false ∧ order.toFinset = p.tree.store.pageTable.keys ∧ p' = p.restart order := by
  by_cases hguard : p.failed = false ∧ order.toFinset = p.tree.store.pageTable.keys
  · rw [step, if_pos hguard] at h
    exact ⟨hguard.1, hguard.2, (Option.some.inj h).symm⟩
  · rw [step, if_neg hguard] at h
    cases h

theorem step_running {e : ProcessCall} (h : step p e = some p') : p.failed = false := by
  cases e with
  | call c => exact (step_call h).1
  | restart order => exact (step_restart h).1

/-- Nothing can be done to a process that failed. -/
theorem run_failed (h : p.failed = true) {events : List ProcessCall}
    (hrun : run step p events = some p') : events = [] ∧ p' = p := by
  cases events with
  | nil => exact ⟨rfl, (Option.some.inj hrun).symm⟩
  | cons c events =>
    obtain ⟨s, hs, -⟩ := run_cons hrun
    rw [step_running hs] at h
    cases h

theorem Mirrors.run (h : Mirrors t p) (hm : Refines t m) {events : List ProcessCall}
    (hok : Steps BTree.step CallOk t (ProcessCall.treeCalls events))
    (hrun : run step p events = some p') :
    p'.tree.store.lost ≤ p'.deleted ∧
      Answers (p.answers ++ m.answers (ProcessCall.treeCalls events)) p' := by
  induction events generalizing p t m with
  | nil =>
    cases hrun
    refine ⟨by exact_mod_cast h.idle.lost, .inl ⟨h.running, ?_, h.idle.tracked.pinCount⟩⟩
    exact (List.append_nil _).symm
  | cons event events ih =>
    obtain ⟨s, hs, hrun⟩ := run_cons hrun
    cases event with
    | call c =>
      obtain ⟨hfirst, hrest⟩ := hok
      obtain ⟨-, rfl⟩ := step_call hs
      rcases h.call hm hfirst with ⟨hnext, hanswers⟩ | ⟨hfailed, hlost, hdeleted, e, hanswers⟩
      · have hdone := ih hnext (hm.answer hfirst).2 (hrest _ rfl) hrun
        rw [hanswers, List.append_assoc] at hdone
        exact hdone
      · obtain ⟨-, rfl⟩ := run_failed hfailed hrun
        exact ⟨hdeleted, .inr ⟨hfailed, hlost, _, e, hanswers, List.prefix_append _ _⟩⟩
    | restart order =>
      obtain ⟨-, horder, rfl⟩ := step_restart hs
      obtain ⟨hnext, hanswers⟩ := h.restart (Refines.root_ne hm) horder
      have hdone := ih hnext hm hok hrun
      rw [hanswers] at hdone
      exact hdone

end TreeProcess

/-- **The tree on the pool and the file is a map.** From a new file, through any number of clean
shutdowns, the calls return what they return on the map, as long as they find the room in the pages
that they take for granted. Nothing stays pinned. The only other end is an assertion in a process
that has lost more than 60 of its 64 frames, and it has lost at most one for each page it deleted. -/
theorem process_refines_map (events : List ProcessCall) {p : TreeProcess}
    (hok : Steps BTree.step BTree.CallOk BTree.fresh (ProcessCall.treeCalls events))
    (hrun : run TreeProcess.step TreeProcess.start events = some p) :
    p.tree.store.lost ≤ p.deleted ∧
      p.Answers (KV.empty.answers (ProcessCall.treeCalls events)) := by
  obtain ⟨hstart, hanswers⟩ := TreeProcess.mirrors_start
  have hdone := hstart.run BTree.refines_fresh hok hrun
  rw [hanswers] at hdone
  exact hdone

set_option maxRecDepth 10000 in
/-- A leaf is split and the file is opened again; the leaves are merged, the root goes, and the file
is opened once more. -/
theorem process_refines_map_reopened :
    let events : List ProcessCall :=
      [.call (.insert [97] (List.replicate 2500 0)), .call (.insert [98] (List.replicate 700 0)),
        .call (.insert [99] (List.replicate 700 0)), .call (.insert [100] (List.replicate 300 0)),
        .restart [1, 2, 3], .call (.remove [97]), .call (.insert [97] (List.replicate 300 0)),
        .call (.remove [97]), .restart [1], .call (.get [98])]
    ∃ p, run TreeProcess.step TreeProcess.start events = some p ∧ p.failed = false ∧
      p.answers = KV.empty.answers (ProcessCall.treeCalls events) := by
  intro events
  have hok : Steps BTree.step BTree.CallOk BTree.fresh (ProcessCall.treeCalls events) := by
    decide +kernel
  have hend : (run TreeProcess.step TreeProcess.start events).map TreeProcess.failed = some false := by
    decide +kernel
  obtain ⟨p, hrun, hrunning⟩ := Option.map_eq_some_iff.mp hend
  refine ⟨p, hrun, hrunning, ?_⟩
  obtain ⟨-, ⟨-, hanswers, -⟩ | ⟨hfailed, -⟩⟩ := process_refines_map events hok hrun
  · exact hanswers
  · rw [hrunning] at hfailed
    cases hfailed

end KeyVDB
