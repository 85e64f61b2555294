import KeyVDB.BTree.CrashImage
import KeyVDB.Storage.Transparency
import Mathlib.Algebra.BigOperators.Group.Finset.Basic
import Mathlib.Data.Fintype.Basic

/-!
# A pool that is watched

The pool of a tree with a record of what the tree did to it: the most pins there were at once, how
often a page was pinned when it was deleted, and what was last put into each page. The record is
never read, so a tree on a watched pool does what it does on the pool (`perform_watched`).
-/

namespace KeyVDB

open BufferPool (Hold Session)

namespace BufferPool

variable {δ : Type}

/-- The pins that are outstanding. -/
def pinTotal (p : BufferPool δ) : Nat := ∑ f, (p.frames f).pinCount

/-- How often a page is pinned. -/
def pinsOf (p : BufferPool δ) (id : PageId) : Nat :=
  (p.pageTable.lookup id).elim 0 fun f => (p.frames f).pinCount

end BufferPool

/-- The pool and the record. -/
structure Watched where
  pool : BufferPool Content
  peak : Nat := 0  -- the most pins there were after a call
  deleted : List Nat := []  -- how often each page that was deleted was pinned
  written : PageId → Option (Page Content) := fun _ => none  -- what was last put into a page

namespace Watched

/-- A call of the pool. -/
def onPool {α : Type} (x : PoolM Content α) : CallM Exn Watched α :=
  onPart Watched.pool (fun pool w => { w with pool }) x

/-- A call of the pool, after which the pins are counted. -/
def counted {α : Type} (x : PoolM Content α) : CallM Exn Watched α := do
  let a ← onPool x
  modify fun w => { w with peak := max w.peak w.pool.pinTotal }
  return a

def newPage : CallM Exn Watched (Option (PageId × FrameId)) := do
  let r ← counted BufferPool.newPage
  modify fun w => { w with
    written := r.elim w.written fun x =>
      Function.update w.written x.1 (some (w.pool.frames x.2).page) }
  return r

def deletePage (id : PageId) : CallM Exn Watched Unit := do
  modify fun w => { w with deleted := w.pool.pinsOf id :: w.deleted }
  counted (BufferPool.deletePage id)
  modify fun w => { w with written := Function.update w.written id none }

/-- The frame is that of the page which is filed under it. -/
def setPage (w : Watched) (f : FrameId) (page : Page Content) : Watched :=
  { w with
    pool := w.pool.setFrame f { w.pool.frames f with page }
    written := fun id => if w.pool.pageTable.lookup id = some f then some page else w.written id }

end Watched

instance : PageStore Watched FrameId where
  fetchPage id := Watched.counted (BufferPool.fetchPage id)
  newPage := Watched.newPage
  unpinPage id dirty := Watched.counted (BufferPool.unpinPage id dirty)
  deletePage := Watched.deletePage
  setRootPageId id := Watched.counted (BufferPool.onDisk (Disk.setRootPageId id))
  numPages w := w.pool.disk.numPages
  page w f := (w.pool.frames f).page
  setPage := Watched.setPage

namespace BTree

/-- The tree, watched from now on. -/
def watch (t : BTree (BufferPool Content)) : BTree Watched :=
  { store := { pool := t.store }, rootPageId := t.rootPageId }

/-- The record is dropped. -/
def unwatched (t : BTree Watched) : BTree (BufferPool Content) :=
  { store := t.store.pool, rootPageId := t.rootPageId }

/-- The watched call does what the call does. -/
abbrev Erases {α : Type} (x : BTreeM Watched α) (y : BTreeM (BufferPool Content) α) : Prop :=
  Sim (fun _ => True) unwatched x y

section Erases

variable {α : Type} {x : PoolM Content α}

theorem exec_counted (w : Watched) : exec (Watched.counted x) w =
    match exec x w.pool with
    | (.ok a, p) => (.ok a, { w with pool := p, peak := max w.peak p.pinTotal })
    | (.error e, p) => (.error e, { w with pool := p }) := by
  rw [Watched.counted, exec_bind, Watched.onPool, exec_onPart]
  rcases exec x w.pool with ⟨_ | a, p⟩
  · rfl
  · rfl

/-- A call on the record and the pool that does to the pool what `x` does. -/
theorem erases_onStore {y : CallM Exn Watched α}
    (h : ∀ w, (exec y w).1 = (exec x w.pool).1 ∧ (exec y w).2.pool = (exec x w.pool).2) :
    Erases (onStore y) (onStore x) := by
  intro t _
  obtain ⟨hresult, hpool⟩ := h t.store
  refine ⟨hresult, ?_, trivial⟩
  change BTree.mk (exec y t.store).2.pool t.rootPageId = _
  rw [hpool]
  rfl

theorem erases_counted : Erases (onStore (Watched.counted x)) (onStore x) := by
  refine erases_onStore fun w => ?_
  rw [exec_counted]
  rcases exec x w.pool with ⟨_ | a, p⟩
  · exact ⟨rfl, rfl⟩
  · exact ⟨rfl, rfl⟩

theorem erases_newPage : Erases (onStore Watched.newPage) (onStore BufferPool.newPage) := by
  refine erases_onStore fun w => ?_
  rw [Watched.newPage, exec_bind, exec_counted]
  rcases exec BufferPool.newPage w.pool with ⟨_ | a, p⟩
  · exact ⟨rfl, rfl⟩
  · exact ⟨rfl, rfl⟩

theorem erases_deletePage (id : PageId) :
    Erases (onStore (Watched.deletePage id)) (onStore (BufferPool.deletePage id)) := by
  refine erases_onStore fun w => ?_
  rw [Watched.deletePage, exec_modify_bind, exec_bind, exec_counted]
  dsimp only
  rcases exec (BufferPool.deletePage id) w.pool with ⟨_ | a, p⟩
  · exact ⟨rfl, rfl⟩
  · exact ⟨rfl, rfl⟩

/-- The tree's code is the same on both. -/
theorem respected_erases : Respected (σ := Watched) (τ := BufferPool Content) Erases where
  pure := .pure
  throw := .throw
  bind := .bind
  fetchPage _ := erases_counted
  newPage := erases_newPage
  unpinPage _ _ := erases_counted
  deletePage := erases_deletePage
  setRootPageId _ := erases_counted
  readPage _ := .get_bind fun _ _ => .pure _
  writePage _ _ := .modify fun _ _ => ⟨rfl, trivial⟩
  get_bind hf := .get_bind fun t _ => hf t (unwatched t) rfl rfl
  moveRoot _ := .modify fun _ _ => ⟨rfl, trivial⟩

end Erases

/-- A call that returns, returns on the watched tree. -/
theorem exec_watched {α : Type} {x : BTreeM Watched α} {y : BTreeM (BufferPool Content) α}
    (hxy : Erases x y) {a : α} {t t' : BTree (BufferPool Content)} (h : exec y t = (.ok a, t')) :
    ∃ w, exec x (watch t) = (.ok a, w) ∧ unwatched w = t' := by
  obtain ⟨hresult, hstate, -⟩ := hxy (watch t) trivial
  have hview : unwatched (watch t) = t := rfl
  rw [hview, h] at hresult hstate
  exact ⟨_, Prod.ext hresult rfl, hstate⟩

theorem perform_watched (c : TreeCall) {t t' : BTree (BufferPool Content)}
    (h : exec (perform c) t = (.ok (), t')) :
    ∃ w, exec (perform c) (watch t) = (.ok (), w) ∧ unwatched w = t' :=
  exec_watched (respected_erases.perform c) h

end BTree

end KeyVDB
