import KeyVDB.BTree.CalmCalls

/-!
# Crashes while no page comes or goes

The windows in which the file holds no tree are opened by the calls that take a page, delete a page
or move the root: page 0 is written through, the nodes wait in their frames. From a point where the
file has all the pages of the tree (`Settled`), as after every clean shutdown, each crash image is a
tree as long as the calls are calm, in whatever order the pages are written back.
-/

namespace KeyVDB

namespace BTree

/-! ## Between two calls -/

/-- The pages of the tree in memory. -/
def OfTree (u : BTree (BufferPool Content)) : PageId → Prop := Reaches u.store.shown u.rootPageId

/-- The file has a node for each page of the tree, and only pages of the tree under it. -/
def Settled (u : BTree (BufferPool Content)) : Prop :=
  ∀ id, OfTree u id → NodeIn (OfTree u) (u.store.disk.file id).data

/-- The tree is on these pages, in memory and in the file. -/
structure Anchored (T : PageId → Prop) (u : BTree (BufferPool Content)) : Prop where
  root : T u.rootPageId
  inUse : ∀ id, T id → 0 < id ∧ id < u.store.disk.numPages ∧ id ∉ u.store.disk.freePages
  nodes : ∀ id, T id → NodeIn T (u.store.shown id).data
  file : FileOf T u.store.disk.file

section Anchored

variable {T : PageId → Prop} {opened n : Nat} {t : BTree Store} {u : BTree (BufferPool Content)}
  {m : KV} {id : PageId}

/-- The page in use is seen as it is on the store. -/
theorem shown_of_inUse (h : Idle opened n t u) (hid : t.store.InUse id) :
    u.store.shown id = t.store.pages id :=
  h.tracked.shown_eq (Store.allocated_of_inUse hid)

/-- A page with a label is in use and shows the node that the tree has there. -/
theorem node_of_label (h : Idle opened n t u) {lab : Labels}
    (hshape : Shape (view t) lab lab m.get) {L : Label Bytes} (hL : lab id = some L) :
    t.store.InUse id ∧ ∃ N : AnyNode, (u.store.shown id).data = N.content ∧
      (view t).node id = some N.bare := by
  have hin : t.store.InUse id := hshape.live hL
  obtain ⟨N, hN⟩ := Option.isSome_iff_exists.mp (hshape.page hL).isSome
  have hnode : (t.store.pages id).node id = some N := hN
  obtain ⟨N', hpage, hbare⟩ := node_content hnode
  refine ⟨hin, N', ?_, ?_⟩
  · rw [shown_of_inUse h hin, hpage]
  · rw [hbare]
    exact hN

/-- Every page under the root has a label. -/
theorem label_of_ofTree (h : Idle opened n t u) {lab : Labels}
    (hshape : Shape (view t) lab lab m.get) (hid : OfTree u id) : ∃ L, lab id = some L := by
  induction hid with
  | root =>
    obtain ⟨j, hroot, -⟩ := hshape.root
    rw [h.root]
    exact ⟨_, hroot⟩
  | child hp hn hc ih =>
    obtain ⟨L, hL⟩ := ih
    obtain ⟨-, N, hdata, hnode⟩ := node_of_label h hshape hL
    rw [hn] at hdata
    cases N with
    | leaf N => cases hdata
    | internal N =>
      cases hdata
      exact hshape.child_seen hL hnode hc

/-- The pages of the tree are nodes, in use, and lead to pages of the tree. -/
theorem ofTree_node (h : Idle opened n t u) (hm : Refines t m) (hid : OfTree u id) :
    t.store.InUse id ∧ NodeIn (OfTree u) (u.store.shown id).data := by
  obtain ⟨-, lab, hshape⟩ := hm
  obtain ⟨L, hL⟩ := label_of_ofTree h hshape hid
  obtain ⟨hin, N, hdata, -⟩ := node_of_label h hshape hL
  refine ⟨hin, ?_, fun N' hN' c hc => hid.child hN' hc⟩
  rw [hdata]
  cases N with
  | leaf N => rfl
  | internal N => rfl

theorem Anchored.of_settled (h : Idle opened n t u) (hm : Refines t m) (hs : Settled u) :
    Anchored (OfTree u) u where
  root := .root
  inUse id hid := by
    rw [h.accounts.numPages, h.accounts.freePages]
    exact (ofTree_node h hm hid).1
  nodes id hid := (ofTree_node h hm hid).2
  file :=
    { root := by
        rw [h.onFile.header]
        change OfTree u t.rootPageId
        rw [← h.root]
        exact .root
      free := fun id hid => by
        rw [h.onFile.header]
        change id ∉ u.store.disk.freePages
        rw [h.accounts.freePages]
        exact (ofTree_node h hm hid).1.2.2
      nodes := hs }

/-- The state in which a call starts. -/
theorem Anchored.working (h : Anchored T u) (hidle : Idle opened n t u) :
    Working T u.store.disk u.rootPageId u.store.shown [] u where
  root := rfl
  tracked := by
    refine ⟨t.store.allocated, hidle.tracked, fun id hid => ?_⟩
    have hin : t.store.InUse id := by
      have hin := h.inUse id hid
      rw [hidle.accounts.numPages, hidle.accounts.freePages] at hin
      exact hin
    rw [shown_of_inUse hidle hin]
    exact Store.allocated_of_inUse hin
  nodes := h.nodes
  writes := .refl T _

/-- The state in which it ends. -/
theorem Working.anchored {u' : BTree (BufferPool Content)} {img : PageId → Page Content}
    (h : Anchored T u) (hw : Working T u.store.disk u.rootPageId img [] u') : Anchored T u' where
  root := by
    rw [hw.root]
    exact h.root
  inUse id hid := by
    rw [hw.writes.numPages, hw.writes.freePages]
    exact h.inUse id hid
  nodes id hid := by
    obtain ⟨pages, htracked, himg⟩ := hw.tracked
    rw [htracked.shown_eq (himg id hid)]
    exact hw.nodes id hid
  file := hw.writes.fileOf h.file

/-- `flush_all` writes back nodes of the tree. -/
theorem Anchored.flushAll (h : Anchored T u) (hidle : Idle opened n t u) (order : List PageId) :
    ∃ pool, exec (BufferPool.flushAll order) u.store = (.ok (), pool) ∧
      WritesWithin T u.store.disk pool.disk := by
  obtain ⟨pages, htracked, himg⟩ := (h.working hidle).tracked
  obtain ⟨pool, hflush, -, hwrites, -⟩ := htracked.coherent.flushAll htracked.nonneg order
  exact ⟨pool, hflush, .of_writesTo htracked himg h.nodes hwrites⟩

/-- In the next process the pages are as they are in the file. -/
theorem Anchored.reopened {u' : BTree (BufferPool Content)} {d : Disk Content} (h : Anchored T u)
    (hwrites : WritesWithin T u.store.disk d) (hroot : u'.rootPageId = u.rootPageId)
    (hnum : u'.store.disk.numPages = d.numPages) (hfree : u'.store.disk.freePages = d.freePages)
    (htable : u'.store.pageTable = ∅) (hfile : u'.store.disk.file = d.file) : Anchored T u' := by
  have hshown : u'.store.shown = d.file := by
    funext id
    rw [BufferPool.shown, htable, hfile]
    rfl
  have hd := hwrites.fileOf h.file
  refine ⟨?_, fun id hid => ?_, fun id hid => ?_, ?_⟩
  · rw [hroot]
    exact h.root
  · rw [hnum, hfree, hwrites.numPages, hwrites.freePages]
    exact h.inUse id hid
  · rw [hshown]
    exact hd.nodes id hid
  · rw [hfile]
    exact hd

end Anchored

end BTree

/-! ## Whole runs -/

namespace TreeProcess

open BTree (Refines CallOk Idle Anchored WritesWithin Settled OfTree)

/-- The file when the call has ended, or the pool is flushed. -/
def diskAfter (p : TreeProcess) : ProcessCall → Disk Content
  | .call c => (p.call c).tree.store.disk
  | .restart order => (exec (BufferPool.flushAll order) p.tree.store).2.disk

/-- A clean shutdown may come at any time. -/
def CalmStep (p : TreeProcess) : ProcessCall → Prop
  | .call c => BTree.Calm p.tree c
  | .restart _ => True

instance (p : TreeProcess) (e : ProcessCall) : Decidable (CalmStep p e) :=
  match e with
  | .call c => inferInstanceAs (Decidable (BTree.Calm p.tree c))
  | .restart _ => instDecidableTrue

variable {T : PageId → Prop} {p p' : TreeProcess} {t : BTree Store} {m : KV}

/-- The process is one of a run whose calls find room, and the rest of the calls do as well. -/
structure Reached (p : TreeProcess) (t : BTree Store) (m : KV) (rest : List ProcessCall) :
    Prop where
  mirrors : Mirrors t p
  refines : Refines t m
  ok : Steps BTree.step CallOk t (ProcessCall.treeCalls rest)

/-- The next process of the run, if it did not fail. -/
theorem Reached.next {e : ProcessCall} {rest : List ProcessCall} (h : Reached p t m (e :: rest))
    (hstep : step p e = some p') :
    p'.failed = true ∨ ∃ t' m', Reached p' t' m' rest := by
  cases e with
  | call c =>
    obtain ⟨hfirst, hrest⟩ := h.ok
    obtain ⟨-, rfl⟩ := step_call hstep
    rcases h.mirrors.call h.refines hfirst with ⟨hnext, -⟩ | ⟨hfailed, -⟩
    · exact .inr ⟨_, _, hnext, (h.refines.answer hfirst).2, hrest _ rfl⟩
    · exact .inl hfailed
  | restart order =>
    obtain ⟨-, horder, rfl⟩ := step_restart hstep
    obtain ⟨hnext, -⟩ := h.mirrors.restart (Refines.root_ne h.refines) horder
    exact .inr ⟨t, m, hnext, h.refines, h.ok⟩

theorem Reached.after {before rest : List ProcessCall} (h : Reached p t m (before ++ rest))
    (hrun : run TreeProcess.step p before = some p') :
    p'.failed = true ∨ ∃ t' m', Reached p' t' m' rest := by
  induction before generalizing p t m with
  | nil =>
    cases hrun
    exact .inr ⟨t, m, h⟩
  | cons e before ih =>
    obtain ⟨s, hs, hrun⟩ := run_cons hrun
    rcases h.next hs with hfailed | ⟨t', m', hnext⟩
    · obtain ⟨-, rfl⟩ := run_failed hfailed hrun
      exact .inl hfailed
    · exact ih hnext hrun

theorem answer_error {c : TreeCall} {e : Exn} (h : (m.answer c).1 = .error e) :
    ∃ key value, c = .insert key value ∧ ¬ Fits key value := by
  cases c with
  | get key => cases h
  | remove key => cases h
  | insert key value =>
    refine ⟨key, value, rfl, fun hfits => ?_⟩
    rw [KV.answer, m.insert_of_fits hfits] at h
    cases h

/-- A calm call, whatever comes of it. -/
theorem Reached.calm_call {c : TreeCall} {rest : List ProcessCall}
    (h : Reached p t m (.call c :: rest)) (ha : Anchored T p.tree) (hcalm : BTree.Calm p.tree c) :
    WritesWithin T p.tree.store.disk (p.call c).tree.store.disk ∧
      ((p.call c).failed = false → Anchored T (p.call c).tree) := by
  obtain ⟨hwrites, hreturns⟩ :=
    BTree.guards_answer hcalm ha.root p.tree (ha.working h.mirrors.idle)
  rcases hu : exec (BTree.answer c) p.tree with ⟨r, u⟩
  rw [hu] at hwrites hreturns
  have hcall := call_eq hu
  refine ⟨?_, fun hrunning => ?_⟩
  · rw [hcall]
    exact hwrites
  · rw [hcall]
    cases r with
    | ok a =>
      obtain ⟨img, hworking⟩ := hreturns a u rfl
      exact hworking.anchored ha
    | error e =>
      -- only a pair that is too large is refused, before anything is looked at
      rcases h.mirrors.call h.refines h.ok.1 with ⟨-, hanswers⟩ | ⟨hfailed, -⟩
      · rw [hcall] at hanswers
        have hanswer := List.singleton_inj.mp (List.append_cancel_left hanswers)
        obtain ⟨key, value, rfl, hfits⟩ := answer_error hanswer.symm
        rw [BTree.exec_answer_tooLarge hfits] at hu
        cases hu
        exact ha
      · rw [hrunning] at hfailed
        cases hfailed

/-- A clean shutdown: the next process has the tree on the same pages. -/
theorem Reached.calm_restart {order : List PageId} {rest : List ProcessCall}
    (h : Reached p t m (.restart order :: rest)) (ha : Anchored T p.tree)
    (horder : order.toFinset = p.tree.store.pageTable.keys) :
    WritesWithin T p.tree.store.disk (diskAfter p (.restart order)) ∧
      Anchored T (p.restart order).tree := by
  obtain ⟨pool, u, hflush, hopen, hidle, htable, hfile⟩ :=
    h.mirrors.idle.restart (Refines.root_ne h.refines) horder
  obtain ⟨pool', hflush', hwrites⟩ := ha.flushAll h.mirrors.idle order
  rw [hflush] at hflush'
  cases hflush'
  rw [diskAfter, hflush, restart_eq hflush hopen]
  refine ⟨hwrites, ha.reopened hwrites ?_ ?_ ?_ htable hfile⟩
  · rw [hidle.root, h.mirrors.idle.root]
  · rw [hidle.accounts.numPages, hwrites.numPages, h.mirrors.idle.accounts.numPages]
  · rw [hidle.accounts.freePages, hwrites.freePages, h.mirrors.idle.accounts.freePages]

theorem Reached.calm {e : ProcessCall} {rest : List ProcessCall} (h : Reached p t m (e :: rest))
    (ha : Anchored T p.tree) (hcalm : CalmStep p e) (hstep : TreeProcess.step p e = some p') :
    WritesWithin T p.tree.store.disk (diskAfter p e) ∧
      (p'.failed = false → Anchored T p'.tree) := by
  cases e with
  | call c =>
    obtain ⟨-, rfl⟩ := step_call hstep
    exact h.calm_call ha hcalm
  | restart order =>
    obtain ⟨-, horder, rfl⟩ := step_restart hstep
    obtain ⟨hwrites, hnext⟩ := h.calm_restart ha horder
    exact ⟨hwrites, fun _ => hnext⟩

/-- A process that is still at work later has not failed. -/
theorem running_before {events : List ProcessCall} {e : ProcessCall}
    (hrun : run TreeProcess.step p events = some p') (hlater : (TreeProcess.step p' e).isSome) :
    p.failed = false := by
  cases events with
  | nil =>
    cases hrun
    obtain ⟨_, hstep⟩ := Option.isSome_iff_exists.mp hlater
    exact step_running hstep
  | cons e' events =>
    obtain ⟨s, hs, -⟩ := run_cons hrun
    exact step_running hs

/-- The crash comes in the last step of a calm run. -/
theorem Reached.wellFormed {after : List ProcessCall} {e : ProcessCall} {q : TreeProcess}
    (h : Reached p t m (after ++ [e])) (ha : Anchored T p.tree)
    (hcalm : Steps TreeProcess.step CalmStep p (after ++ [e]))
    (hrun : run TreeProcess.step p after = some q) (hstep : (TreeProcess.step q e).isSome) {n : Nat}
    (hn : q.tree.store.disk.writes.length ≤ n) :
    BTree.WellFormed
      (Disk.fileAfter q.tree.store.disk.opened ((diskAfter q e).writes.take n)) := by
  induction after generalizing p t m with
  | nil =>
    cases hrun
    obtain ⟨q', hq'⟩ := Option.isSome_iff_exists.mp hstep
    obtain ⟨hwrites, -⟩ := h.calm ha hcalm.1 hq'
    exact hwrites.wellFormed_take ha.file hn
  | cons e' after ih =>
    obtain ⟨s, hs, hrun⟩ := run_cons hrun
    obtain ⟨-, hnext⟩ := h.calm ha hcalm.1 hs
    have hrunning := running_before hrun hstep
    rcases h.next hs with hfailed | ⟨t', m', hreached⟩
    · rw [hrunning] at hfailed
      cases hfailed
    · exact ih hreached (hnext hrunning) (hcalm.2 s hs) hrun

theorem reached_start {events : List ProcessCall}
    (hok : Steps BTree.step CallOk BTree.fresh (ProcessCall.treeCalls events)) :
    Reached start BTree.fresh .empty events :=
  ⟨mirrors_start.1, BTree.refines_fresh, hok⟩

end TreeProcess

open TreeProcess (start diskAfter CalmStep)

/-- After a clean shutdown the file has all pages of the tree. -/
theorem settled_restart {before : List ProcessCall} {order : List PageId} {p p' : TreeProcess}
    (hok : Steps BTree.step BTree.CallOk BTree.fresh (ProcessCall.treeCalls before))
    (hbefore : run TreeProcess.step start before = some p)
    (hstep : TreeProcess.step p (.restart order) = some p') : BTree.Settled p'.tree := by
  have hreached := TreeProcess.reached_start hok
  rw [← List.append_nil before] at hreached
  rcases hreached.after hbefore with hfailed | ⟨t, m, h⟩
  · rw [TreeProcess.step_running hstep] at hfailed
    cases hfailed
  obtain ⟨-, horder, rfl⟩ := TreeProcess.step_restart hstep
  obtain ⟨pool, u, hflush, hopen, hidle, htable, hfile⟩ :=
    h.mirrors.idle.restart (TreeProcess.Refines.root_ne h.refines) horder
  rw [TreeProcess.restart_eq hflush hopen]
  have hshown : u.store.shown = u.store.disk.file := by
    funext id
    rw [BufferPool.shown, htable]
    rfl
  intro id hid
  have hnode := (BTree.ofTree_node hidle h.refines hid).2
  rw [hshown] at hnode
  exact hnode

/-- **Physical crash consistency while no page comes or goes.** From a point of a run where the file
has all pages of the tree, through calls that neither split nor merge pages and through clean
shutdowns, a crash between any two page writes leaves a tree in the file. -/
theorem crashConsistent_while_calm {before after : List ProcessCall} {e : ProcessCall}
    {p q : TreeProcess}
    (hok : Steps BTree.step BTree.CallOk BTree.fresh
      (ProcessCall.treeCalls (before ++ (after ++ [e]))))
    (hbefore : run TreeProcess.step start before = some p) (hsettled : BTree.Settled p.tree)
    (hcalm : Steps TreeProcess.step CalmStep p (after ++ [e]))
    (hafter : run TreeProcess.step p after = some q) (hstep : (TreeProcess.step q e).isSome)
    {n : Nat} (hn : q.tree.store.disk.writes.length ≤ n) :
    BTree.WellFormed
      (Disk.fileAfter q.tree.store.disk.opened ((diskAfter q e).writes.take n)) := by
  rcases (TreeProcess.reached_start hok).after hbefore with hfailed | ⟨t, m, h⟩
  · rw [TreeProcess.running_before hafter hstep] at hfailed
    cases hfailed
  · have ha := BTree.Anchored.of_settled h.mirrors.idle h.refines hsettled
    exact h.wellFormed ha hcalm hafter hstep hn

set_option maxRecDepth 10000 in
/-- A leaf is split and the file is opened again; a pair is put into the right leaf and one is taken
out of it, so that it borrows from the left one. The process crashes while it flushes the parent
and the two leaves. -/
theorem crashConsistent_while_calm_borrowing :
    let before : List ProcessCall :=
      [.call (.insert [97] (List.replicate 900 0)), .call (.insert [98] (List.replicate 900 0)),
        .call (.insert [99] (List.replicate 900 0)), .call (.insert [100] (List.replicate 900 0)),
        .call (.insert [96] (List.replicate 900 0))]
    let after : List ProcessCall := [.call (.insert [101] [7]), .call (.remove [99])]
    let e : ProcessCall := .restart [3, 1, 2]
    ∃ p q, run TreeProcess.step start (before ++ [.restart [1, 2, 3]]) = some p ∧
      run TreeProcess.step p after = some q ∧
      (diskAfter q e).writes.length = q.tree.store.disk.writes.length + 3 ∧
      ∀ n, q.tree.store.disk.writes.length ≤ n → BTree.WellFormed
        (Disk.fileAfter q.tree.store.disk.opened ((diskAfter q e).writes.take n)) := by
  intro before after e
  have hok : Steps BTree.step BTree.CallOk BTree.fresh
      (ProcessCall.treeCalls (before ++ [.restart [1, 2, 3]] ++ (after ++ [e]))) := by
    decide +kernel
  have hok₀ : Steps BTree.step BTree.CallOk BTree.fresh
      (ProcessCall.treeCalls before) := by
    decide +kernel
  have hall : ((run TreeProcess.step start before).bind fun p₀ =>
      (TreeProcess.step p₀ (.restart [1, 2, 3])).bind fun p =>
        (run TreeProcess.step p after).bind fun q =>
          guard (Steps TreeProcess.step CalmStep p (after ++ [e]) ∧
            (TreeProcess.step q e).isSome ∧ (diskAfter q e).writes.length =
              q.tree.store.disk.writes.length + 3)) = some () := by
    decide +kernel
  obtain ⟨p₀, h₀, hall⟩ := Option.bind_eq_some_iff.mp hall
  obtain ⟨p, hp, hall⟩ := Option.bind_eq_some_iff.mp hall
  obtain ⟨q, hq, hall⟩ := Option.bind_eq_some_iff.mp hall
  obtain ⟨hcalm, hstep, hwrites⟩ := (Option.guard_eq_some' ()).mp hall
  have hbefore := run_snoc h₀ hp
  refine ⟨p, q, hbefore, hq, hwrites, fun n hn => ?_⟩
  exact crashConsistent_while_calm hok hbefore (settled_restart hok₀ h₀ hp) hcalm hq hstep hn

end KeyVDB
