import KeyVDB.Storage.Disk
import Mathlib.Data.Finmap
import Mathlib.Data.List.FinRange

/-!
# The buffer pool

`buffer_pool.{h,cpp}`: a fixed number of frames, the page table, the free frames and the LRU list
(front = most recently used; `lru_map_` is the position of a frame in it). A `Page*` that the pool
hands out is the frame it points into.
-/

namespace KeyVDB

/-- `BUFFER_POOL_SIZE`. -/
def POOL_SIZE : Nat := 64

/-- `frame_id_t`. -/
abbrev FrameId := Fin POOL_SIZE

/-- `BufferPool::Frame`. -/
structure Frame (δ : Type) where
  page : Page δ
  pinCount : Nat := 0
  isDirty : Bool := false
  inUse : Bool := false

/-- `class BufferPool`, with the file under it. -/
structure BufferPool (δ : Type) where
  disk : Disk δ
  frames : FrameId → Frame δ
  pageTable : Finmap fun _ : PageId => FrameId := ∅
  freeFrames : List FrameId := List.finRange POOL_SIZE
  lruList : List FrameId := []

/-- Calls that may throw; what they did before stays done. -/
abbrev PoolM (δ : Type) := CallM Exn (BufferPool δ)

namespace BufferPool

variable {δ : Type} [PageData δ]

/-- The constructor: all frames start free. -/
def init (disk : Disk δ) : BufferPool δ :=
  { disk, frames := fun _ => { page := Page.clear } }

/-- A call of the disk manager or the free list. -/
def onDisk {α : Type} (x : DiskM δ α) : PoolM δ α :=
  onPart BufferPool.disk (fun disk p => { p with disk }) x

omit [PageData δ] in
theorem exec_onDisk {α : Type} (x : DiskM δ α) (p : BufferPool δ) :
    exec (onDisk x) p = ((exec x p.disk).1, { p with disk := (exec x p.disk).2 }) := rfl

def setFrame (p : BufferPool δ) (f : FrameId) (frame : Frame δ) : BufferPool δ :=
  { p with frames := Function.update p.frames f frame }

def touch (f : FrameId) : PoolM δ Unit :=
  modify fun p => { p with lruList := f :: p.lruList.erase f }

def evictFrame (f : FrameId) : PoolM δ Unit := do
  let frame := (← get).frames f
  if frame.inUse = false then throw (.assertion "f.in_use")
  if frame.pinCount ≠ 0 then throw (.assertion "f.pin_count == 0")
  if frame.isDirty then
    onDisk (Disk.writePage frame.page.pageId frame.page)
  -- the entry that goes is the one under the id in the page's header
  modify fun p =>
    { p.setFrame f { page := Page.clear } with
      pageTable := p.pageTable.erase frame.page.pageId
      lruList := p.lruList.erase f }

/-- The frame that `find_free_frame` evicts: the least recently used one that is not pinned. -/
def victim (p : BufferPool δ) : Option FrameId :=
  p.lruList.reverse.find? fun f => (p.frames f).pinCount = 0

def findFreeFrame : PoolM δ (Option FrameId) := do
  let p ← get
  match p.freeFrames.getLast? with
  | some f =>
    set { p with freeFrames := p.freeFrames.dropLast }
    return some f
  | none =>
    match p.victim with
    | none => return none
    | some v =>
      evictFrame v
      return some v

/-- The end of `fetch_page` and `new_page`: the frame is put to use. -/
def install (id : PageId) (f : FrameId) (frame : Frame δ) : PoolM δ Unit := do
  modify fun p => { p.setFrame f frame with pageTable := p.pageTable.insert id f }
  touch f

def fetchPage (id : PageId) : PoolM δ (Option FrameId) := do
  let p ← get
  match p.pageTable.lookup id with
  | some f =>
    set (p.setFrame f { p.frames f with pinCount := (p.frames f).pinCount + 1 })
    touch f
    return some f
  | none =>
    match ← findFreeFrame with
    | none => return none
    | some f =>
      let page ← onDisk (Disk.readPage id)
      install id f { page, pinCount := 1, inUse := true }
      return some f

def unpinPage (id : PageId) (dirty : Bool) : PoolM δ Unit :=
  modify fun p =>
    match p.pageTable.lookup id with
    | none => p
    | some f =>
      p.setFrame f { p.frames f with pinCount := (p.frames f).pinCount - 1,
                                     isDirty := dirty || (p.frames f).isDirty }

/-- The part of `flush_page` and `flush_all` for one entry of the page table. -/
def flushFrame (id : PageId) (f : FrameId) : PoolM δ Unit := do
  let frame := (← get).frames f
  if frame.isDirty then
    onDisk (Disk.writePage id frame.page)
    modify fun p => p.setFrame f { frame with isDirty := false }

def flushPage (id : PageId) : PoolM δ Bool := do
  match (← get).pageTable.lookup id with
  | none => return false
  | some f =>
    flushFrame id f
    return true

/-- `flush_all`, visiting the page table in the given order. -/
def flushAll : List PageId → PoolM δ Unit
  | [] => pure ()
  | id :: order => do
    match (← get).pageTable.lookup id with
    | none => flushAll order
    | some f =>
      flushFrame id f
      flushAll order

/-- `new_page` once the id is known. -/
def newFrame (id : PageId) : PoolM δ (Option (PageId × FrameId)) := do
  match ← findFreeFrame with
  | none => throw (.assertion "false && \"new_page: pool exhausted — all frames are pinned\"")
  | some f =>
    install id f { page := { Page.clear with pageId := id }, pinCount := 1, isDirty := true,
                   inUse := true }
    return some (id, f)

def newPage : PoolM δ (Option (PageId × FrameId)) := do
  let id ← onDisk Disk.newPageId
  newFrame id

def deletePage (id : PageId) : PoolM δ Unit := do
  let p ← get
  match p.pageTable.lookup id with
  | none => pure ()
  | some f =>
    if (p.frames f).pinCount ≠ 0 then throw (.assertion "f.pin_count == 0")
    -- the contents are discarded, not flushed
    set (p.setFrame f { p.frames f with isDirty := false })
    evictFrame f
  onDisk (Disk.free id)

end BufferPool

end KeyVDB
