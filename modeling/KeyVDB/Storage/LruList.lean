import KeyVDB.Storage.BufferPool
import KeyVDB.Lib.IndexedList

/-!
# The LRU list and its iterators

`BufferPool` has the LRU list as a plain list of frames. Here it is as `buffer_pool.h` has it: the
list `lru_list_` has nodes, and `lru_map_` has an iterator for each frame in it, through which
`touch` and `evict_frame` reach the frame's node. `LinkedPool.forget` drops the iterators; `linked`
theorems say that the calls do the same on both sides while the iterators are `Valid`.
-/

namespace KeyVDB

/-- `class BufferPool`, with the nodes of `lru_list_` and the iterators of `lru_map_`. -/
structure LinkedPool (δ : Type) where
  disk : Disk δ
  frames : FrameId → Frame δ
  pageTable : Finmap fun _ : PageId => FrameId := ∅
  freeFrames : List FrameId := List.finRange POOL_SIZE
  lru : IndexedList FrameId := {}

abbrev LinkedM (δ : Type) := CallM Exn (LinkedPool δ)

namespace LinkedPool

variable {δ : Type}

/-- The pool without iterators. -/
def forget (l : LinkedPool δ) : BufferPool δ where
  disk := l.disk
  frames := l.frames
  pageTable := l.pageTable
  freeFrames := l.freeFrames
  lruList := l.lru.toList

/-- A call that leaves the LRU list alone. -/
def onRest {α : Type} (x : PoolM δ α) : LinkedM δ α :=
  onPart forget (fun p l => { l with disk := p.disk, frames := p.frames, pageTable := p.pageTable,
                                     freeFrames := p.freeFrames }) x

/-- A call of the disk manager or the free list. -/
def onDisk {α : Type} (x : DiskM δ α) : LinkedM δ α := onRest (BufferPool.onDisk x)

/-- The frame that `find_free_frame` evicts: the first one from the back of the list that is not
pinned. -/
def victim (l : LinkedPool δ) : Option FrameId :=
  l.lru.toList.reverse.find? fun f => (l.frames f).pinCount = 0

def touch (f : FrameId) : LinkedM δ Unit := modify fun l => { l with lru := l.lru.touch f }

variable [PageData δ]

def init (disk : Disk δ) : LinkedPool δ := { disk, frames := fun _ => { page := Page.clear } }

def evictFrame (f : FrameId) : LinkedM δ Unit := do
  let frame := (← get).frames f
  if frame.inUse = false then throw (.assertion "f.in_use")
  if frame.pinCount ≠ 0 then throw (.assertion "f.pin_count == 0")
  if frame.isDirty then
    onDisk (Disk.writePage frame.page.pageId frame.page)
  modify fun l =>
    { l with
      frames := Function.update l.frames f { page := Page.clear }
      pageTable := l.pageTable.erase frame.page.pageId
      lru := l.lru.remove f }

def findFreeFrame : LinkedM δ (Option FrameId) := do
  let l ← get
  match l.freeFrames.getLast? with
  | some f =>
    set { l with freeFrames := l.freeFrames.dropLast }
    return some f
  | none =>
    match l.victim with
    | none => return none
    | some v =>
      evictFrame v
      return some v

/-- The end of `fetch_page` and `new_page`: the frame is put to use. -/
def install (id : PageId) (f : FrameId) (frame : Frame δ) : LinkedM δ Unit := do
  modify fun l => { l with frames := Function.update l.frames f frame
                           pageTable := l.pageTable.insert id f }
  touch f

def fetchPage (id : PageId) : LinkedM δ (Option FrameId) := do
  let l ← get
  match l.pageTable.lookup id with
  | some f =>
    set { l with frames := Function.update l.frames f
                   { l.frames f with pinCount := (l.frames f).pinCount + 1 } }
    touch f
    return some f
  | none =>
    match ← findFreeFrame with
    | none => return none
    | some f =>
      let page ← onDisk (Disk.readPage id)
      install id f { page, pinCount := 1, inUse := true }
      return some f

def unpinPage (id : PageId) (dirty : Bool) : LinkedM δ Unit := onRest (BufferPool.unpinPage id dirty)

def flushPage (id : PageId) : LinkedM δ Bool := onRest (BufferPool.flushPage id)

def flushAll (order : List PageId) : LinkedM δ Unit := onRest (BufferPool.flushAll order)

/-- `new_page` once the id is known. -/
def newFrame (id : PageId) : LinkedM δ (Option (PageId × FrameId)) := do
  match ← findFreeFrame with
  | none => throw (.assertion "false && \"new_page: pool exhausted — all frames are pinned\"")
  | some f =>
    install id f { page := { Page.clear with pageId := id }, pinCount := 1, isDirty := true,
                   inUse := true }
    return some (id, f)

def newPage : LinkedM δ (Option (PageId × FrameId)) := do
  let id ← onDisk Disk.newPageId
  newFrame id

def deletePage (id : PageId) : LinkedM δ Unit := do
  let l ← get
  match l.pageTable.lookup id with
  | none => pure ()
  | some f =>
    if (l.frames f).pinCount ≠ 0 then throw (.assertion "f.pin_count == 0")
    -- the contents are discarded, not flushed
    set { l with frames := Function.update l.frames f { l.frames f with isDirty := false } }
    evictFrame f
  onDisk (Disk.free id)

/-! ## The calls with and without iterators -/

/-- The same frames are in use for the same pages, in the same order of the LRU list. -/
structure SameFrames (p p' : BufferPool δ) : Prop where
  lruList : p'.lruList = p.lruList
  inUse : ∀ f, (p'.frames f).inUse = (p.frames f).inUse
  header : ∀ f, (p'.frames f).page.pageId = (p.frames f).page.pageId

omit [PageData δ] in
instance : IsPreorder (BufferPool δ) SameFrames where
  refl _ := ⟨rfl, fun _ => rfl, fun _ => rfl⟩
  trans _ _ _ h h' := ⟨h'.lruList.trans h.lruList, fun f => (h'.inUse f).trans (h.inUse f),
    fun f => (h'.header f).trans (h.header f)⟩

omit [PageData δ] in
theorem sameFrames_setFrame (p : BufferPool δ) (f : FrameId) (frame : Frame δ)
    (huse : frame.inUse = (p.frames f).inUse)
    (hheader : frame.page.pageId = (p.frames f).page.pageId) :
    SameFrames p (p.setFrame f frame) := by
  refine ⟨rfl, fun g => ?_, fun g => ?_⟩
  all_goals
    by_cases hne : g = f
    · subst hne
      simp only [BufferPool.setFrame, Function.update_self, huse, hheader]
    · simp only [BufferPool.setFrame, Function.update_of_ne hne]

/-- The iterators lead to the nodes of their frames. -/
def Linked (l : LinkedPool δ) : Prop := l.lru.Valid

/-- The call does on the list what the call of `BufferPool` does. -/
abbrev Follows {α : Type} (x : LinkedM δ α) (y : PoolM δ α) : Prop := Sim Linked forget x y

omit [PageData δ] in
theorem follows_onRest {α : Type} {x : PoolM δ α}
    (hx : Keeps SameFrames x) : Follows (onRest x) x := by
  intro l hl
  refine ⟨rfl, ?_, hl⟩
  have hlru : (exec x l.forget).2.lruList = l.lru.toList := (hx l.forget).lruList
  rw [onRest, exec_onPart]
  generalize exec x l.forget = r at *
  dsimp only [forget]
  rw [← hlru]

omit [PageData δ] in
theorem follows_onDisk {α : Type} (x : DiskM δ α) : Follows (onDisk x) (BufferPool.onDisk x) :=
  follows_onRest fun _ => ⟨rfl, fun _ => rfl, fun _ => rfl⟩

omit [PageData δ] in
theorem follows_touch (f : FrameId) : Follows (δ := δ) (touch f) (BufferPool.touch f) :=
  Sim.modify fun l hl => ⟨by simp only [forget, IndexedList.Valid.toList_touch hl], hl.touch f⟩

omit [PageData δ] in
theorem follows_set {l : LinkedPool δ} (hl : Linked l) :
    Follows (set l : LinkedM δ PUnit) (set l.forget) :=
  fun _ _ => ⟨rfl, rfl, hl⟩

theorem follows_evictFrame (f : FrameId) :
    Follows (δ := δ) (evictFrame f) (BufferPool.evictFrame f) := by
  have hclear : ∀ id : PageId, Follows (δ := δ)
      (modify fun l => { l with
        frames := Function.update l.frames f { page := Page.clear }
        pageTable := l.pageTable.erase id
        lru := l.lru.remove f })
      (modify fun p => { p.setFrame f { page := Page.clear } with
        pageTable := p.pageTable.erase id
        lruList := p.lruList.erase f }) := fun id =>
    Sim.modify fun l hl =>
      ⟨by simp only [forget, BufferPool.setFrame, IndexedList.Valid.toList_remove hl], hl.remove f⟩
  refine Sim.get_bind fun l hl => ?_
  refine Sim.ite (fun _ => Sim.throw _) fun _ => Sim.ite (fun _ => Sim.throw _) fun _ => ?_
  exact Sim.ite (fun _ => Sim.bind (follows_onDisk _) fun _ => hclear _) fun _ => hclear _

theorem follows_findFreeFrame :
    Follows (δ := δ) findFreeFrame BufferPool.findFreeFrame := by
  refine Sim.get_bind fun l hl => ?_
  have hvictim : l.forget.victim = l.victim := rfl
  have hfree : l.forget.freeFrames = l.freeFrames := rfl
  rw [hvictim, hfree]
  cases l.freeFrames.getLast? with
  | some f => exact Sim.bind (follows_set hl) fun _ => Sim.pure _
  | none =>
    cases l.victim with
    | none => exact Sim.pure _
    | some v => exact Sim.bind (follows_evictFrame v) fun _ => Sim.pure _

omit [PageData δ] in
theorem follows_install (id : PageId) (f : FrameId) (frame : Frame δ) :
    Follows (install id f frame) (BufferPool.install id f frame) :=
  Sim.bind (Sim.modify fun _ hl => ⟨rfl, hl⟩) fun _ => follows_touch f

theorem follows_fetchPage (id : PageId) :
    Follows (δ := δ) (fetchPage id) (BufferPool.fetchPage id) := by
  refine Sim.get_bind fun l hl => ?_
  have htable : l.forget.pageTable = l.pageTable := rfl
  rw [htable]
  cases l.pageTable.lookup id with
  | some f =>
    exact Sim.bind (follows_set hl) fun _ => Sim.bind (follows_touch f) fun _ => Sim.pure _
  | none =>
    refine Sim.bind follows_findFreeFrame fun r => ?_
    cases r with
    | none => exact Sim.pure _
    | some f =>
      exact Sim.bind (follows_onDisk _) fun page =>
        Sim.bind (follows_install id f _) fun _ => Sim.pure _

theorem follows_newPage : Follows (δ := δ) newPage BufferPool.newPage := by
  refine Sim.bind (follows_onDisk _) fun id => Sim.bind follows_findFreeFrame fun r => ?_
  cases r with
  | none => exact Sim.throw _
  | some f => exact Sim.bind (follows_install id f _) fun _ => Sim.pure _

theorem follows_deletePage (id : PageId) :
    Follows (δ := δ) (deletePage id) (BufferPool.deletePage id) := by
  refine Sim.get_bind fun l hl => ?_
  have htable : l.forget.pageTable = l.pageTable := rfl
  rw [htable]
  cases l.pageTable.lookup id with
  | none => exact follows_onDisk _
  | some f =>
    refine Sim.ite (fun _ => Sim.throw _) fun _ => ?_
    exact Sim.bind (follows_set hl) fun _ =>
      Sim.bind (follows_evictFrame f) fun _ => follows_onDisk _

/-! ### The calls that leave the list alone -/

section Rest

omit [PageData δ]

theorem keeps_unpinPage (id : PageId) (dirty : Bool) :
    Keeps SameFrames (BufferPool.unpinPage id dirty : PoolM δ Unit) := by
  refine Keeps.modify fun p => ?_
  split
  · exact refl_of SameFrames p
  · exact sameFrames_setFrame p _ _ rfl rfl

theorem keeps_flushFrame (id : PageId) (f : FrameId) :
    Keeps SameFrames (BufferPool.flushFrame id f : PoolM δ Unit) := by
  intro p
  simp only [BufferPool.flushFrame, exec_get_bind]
  split
  · rw [exec_bind, BufferPool.exec_onDisk]
    split
    · next t heq =>
      rw [← (Prod.mk.inj heq).2, exec_modify]
      have hsame := sameFrames_setFrame p f { p.frames f with isDirty := false } rfl rfl
      exact ⟨rfl, hsame.inUse, hsame.header⟩
    · next e t heq =>
      rw [← (Prod.mk.inj heq).2]
      exact ⟨rfl, fun _ => rfl, fun _ => rfl⟩
  · exact refl_of SameFrames p

theorem keeps_flushAll (order : List PageId) :
    Keeps SameFrames (BufferPool.flushAll order : PoolM δ Unit) := by
  induction order with
  | nil => exact Keeps.pure _
  | cons id order ih =>
    refine Keeps.bind Keeps.get fun p => ?_
    cases p.pageTable.lookup id with
    | none => exact ih
    | some f => exact Keeps.bind (keeps_flushFrame id f) fun _ => ih

theorem keeps_flushPage (id : PageId) :
    Keeps SameFrames (BufferPool.flushPage id : PoolM δ Bool) := by
  refine Keeps.bind Keeps.get fun p => ?_
  cases p.pageTable.lookup id with
  | none => exact Keeps.pure _
  | some f => exact Keeps.bind (keeps_flushFrame id f) fun _ => Keeps.pure _

theorem follows_unpinPage (id : PageId) (dirty : Bool) :
    Follows (δ := δ) (unpinPage id dirty) (BufferPool.unpinPage id dirty) :=
  follows_onRest (keeps_unpinPage id dirty)

theorem follows_flushPage (id : PageId) :
    Follows (δ := δ) (flushPage id) (BufferPool.flushPage id) :=
  follows_onRest (keeps_flushPage id)

theorem follows_flushAll (order : List PageId) :
    Follows (δ := δ) (flushAll order) (BufferPool.flushAll order) :=
  follows_onRest (keeps_flushAll order)

end Rest

end LinkedPool

end KeyVDB
