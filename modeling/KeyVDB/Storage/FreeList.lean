import KeyVDB.Storage.RawPage
import KeyVDB.Lib.Run

/-!
# The free list on page 0

The in-memory list of free pages and the root's id are kept on page 0 by two writers that read the
page, change their own part and write it back. `Header` says what page 0 of a file holds; every call
of `FreeList` keeps it equal to the list in memory and the root that was last set, so a second
`FreeList` that loads the file sees the same.
-/

namespace KeyVDB

/-- The two writers of page 0 keep out of each other's part. -/
class LawfulPageData (δ : Type) [PageData δ] : Prop where
  freePages_dbHeader : PageData.freePages (PageData.dbHeader : δ) = []
  rootId_dbHeader : PageData.rootId (PageData.dbHeader : δ) = INVALID_PAGE_ID
  freePages_setFreePages {free : List PageId} {data : δ} : free.length ≤ MAX_FREE_PAGES →
    (∀ id ∈ free, InWord 4 id) → PageData.freePages (PageData.setFreePages free data) = free
  rootId_setFreePages {free : List PageId} {data : δ} : free.length ≤ MAX_FREE_PAGES →
    PageData.rootId (PageData.setFreePages free data) = PageData.rootId data
  rootId_setRootId {id : PageId} {data : δ} : InWord 4 id →
    PageData.rootId (PageData.setRootId id data) = id
  freePages_setRootId {id : PageId} {data : δ} :
    (PageData.freePages data).length ≤ MAX_FREE_PAGES →
    PageData.freePages (PageData.setRootId id data) = PageData.freePages data

instance : LawfulPageData RawPage where
  freePages_dbHeader := RawPage.freePages_dbHeader
  rootId_dbHeader := RawPage.rootId_dbHeader
  freePages_setFreePages := RawPage.freePages_setFreePages
  rootId_setFreePages := RawPage.rootId_setFreePages
  rootId_setRootId := RawPage.rootId_setRootId
  freePages_setRootId := RawPage.freePages_setRootId

/-- A `page_id_t` has four bytes. -/
theorem inWord_toInt (id : Int32) : InWord 4 id.toInt := by
  have hlo := Int32.le_toInt id
  have hhi := Int32.toInt_lt id
  exact Int.bmod_eq_of_le (by simpa using hlo) (by simpa using hhi)

namespace Disk

variable {δ : Type} [PageData δ]

/-! ## Opening a file -/

/-- `FreeList::load`. -/
def load : DiskM δ Unit := do
  if (← get).numPages = 0 then loadNew
  else
    let page ← readPage 0
    let free := PageData.freePages page.data
    if MAX_FREE_PAGES < free.length then
      throw (.runtimeError ("FreeList::load: corrupt count " ++ toString free.length ++
        " exceeds MAX_FREE_PAGES " ++ toString MAX_FREE_PAGES))
    modify fun d => { d with freePages := free }

/-- The pages of a file that had `opened` pages before the writes. -/
def filePages (opened : Nat) (writes : List (PageId × Page δ)) : Nat :=
  writes.foldl (fun n w => max n (w.1.toNat + 1)) opened

/-- A new `DiskManager` on the file of `d`, which had `opened` pages when `d` was opened. The number
of pages comes from the size of the file; nothing is loaded yet. -/
def reopen (opened : Nat) (d : Disk δ) : Disk δ :=
  { numPages := filePages opened d.writes, opened := d.file }

/-! ## What page 0 holds -/

section File

omit [PageData δ]

theorem file_write_self (d : Disk δ) (id : PageId) (page : Page δ) :
    file { d with writes := d.writes ++ [(id, page)] } id = page := by
  simp [file, fileAfter]

theorem filePages_append (opened : Nat) (writes : List (PageId × Page δ)) (w : PageId × Page δ) :
    filePages opened (writes ++ [w]) = max (filePages opened writes) (w.1.toNat + 1) := by
  rw [filePages, List.foldl_append]
  rfl

/-- Writes inside the file do not make it longer. -/
theorem filePages_of_lt {n : Nat} {ws : List (PageId × Page δ)}
    (h : ∀ w ∈ ws, 0 < w.1 ∧ w.1 < n) : filePages n ws = n := by
  induction ws with
  | nil => rfl
  | cons w ws ih =>
    have hw : max n (w.1.toNat + 1) = n := by
      obtain ⟨hlo, hhi⟩ := h w List.mem_cons_self
      have hnat : (w.1.toNat : Int) = w.1 := Int.toNat_of_nonneg hlo.le
      have hlt : w.1.toNat < n := by
        rw [← hnat] at hhi
        exact_mod_cast hhi
      omega
    rw [filePages, List.foldl_cons, hw]
    exact ih fun w' hw' => h w' (List.mem_cons_of_mem _ hw')

theorem file_write_of_ne (d : Disk δ) {id id' : PageId} (h : id' ≠ id) (page : Page δ) :
    file { d with writes := d.writes ++ [(id, page)] } id' = d.file id' := by
  simp [file, fileAfter, h.symm]

end File

/-- Page 0 can be read and holds this free list and this root. -/
structure Header (d : Disk δ) (free : List PageId) (root : PageId) : Prop where
  readable : d.Readable 0
  freePages : PageData.freePages (d.file 0).data = free
  rootId : PageData.rootId (d.file 0).data = root
  length_le : free.length ≤ MAX_FREE_PAGES

namespace Header

variable {d : Disk δ} {free : List PageId} {root : PageId}

theorem exec_load (h : d.Header free root) :
    exec load d = (.ok (), { d with freePages := free }) := by
  simp only [load, exec_get_bind, if_neg h.readable.numPages_ne_zero]
  rw [exec_bind_ok (exec_readPage h.readable), h.freePages]
  simp only [if_neg (Nat.not_lt.mpr h.length_le)]
  rfl

theorem exec_rootPageId (h : d.Header free root) : exec rootPageId d = (.ok root, d) := by
  simp only [rootPageId, exec_get_bind, if_neg h.readable.numPages_ne_zero]
  rw [exec_bind_ok (exec_readPage h.readable), h.rootId]
  rfl

/-- What page 0 holds depends on the file only. -/
theorem congr {d' : Disk δ} (h : d.Header free root) (hread : d'.Readable 0)
    (hfile : d'.file 0 = d.file 0) : d'.Header free root where
  readable := hread
  freePages := by rw [hfile]; exact h.freePages
  rootId := by rw [hfile]; exact h.rootId
  length_le := h.length_le

variable [LawfulPageData δ]

/-- `save` puts the list in memory on page 0 and leaves the root alone. -/
theorem saved (h : d.Header free root) (hlen : d.freePages.length ≤ MAX_FREE_PAGES)
    (hids : ∀ id ∈ d.freePages, InWord 4 id) : d.saved.Header d.freePages root where
  readable := h.readable
  freePages := by
    rw [Disk.saved, file_write_self]
    exact LawfulPageData.freePages_setFreePages hlen hids
  rootId := by
    rw [Disk.saved, file_write_self]
    exact (LawfulPageData.rootId_setFreePages hlen).trans h.rootId
  length_le := hlen

/-- `set_root_page_id` leaves the list on page 0 alone. -/
theorem setRootPageId (h : d.Header free root) {id : PageId} (hid : InWord 4 id) :
    ∃ page, exec (Disk.setRootPageId id) d =
        (.ok (), { d with writes := d.writes ++ [(0, page)] }) ∧
      Header { d with writes := d.writes ++ [(0, page)] } free id := by
  refine ⟨{ d.file 0 with data := PageData.setRootId id (d.file 0).data }, ?_, ?_⟩
  · simp only [Disk.setRootPageId, exec_get_bind, if_neg h.readable.numPages_ne_zero]
    rw [exec_bind_ok (exec_readPage h.readable)]
    exact exec_writePage le_rfl _
  · refine ⟨h.readable, ?_, ?_, h.length_le⟩
    · rw [file_write_self]
      refine (LawfulPageData.freePages_setRootId ?_).trans h.freePages
      rw [h.freePages]
      exact h.length_le
    · rw [file_write_self]
      exact LawfulPageData.rootId_setRootId hid

end Header

/-! ## The calls -/

/-- The calls of a `FreeList` after `load`. -/
inductive FreeListCall
  | allocate
  | free (id : Int32)
  | setRootPageId (id : Int32)

namespace FreeListCall

/-- The state after the call; `none` if it does not return. -/
def step (d : Disk δ) : FreeListCall → Option (Disk δ)
  | .allocate => returned Disk.allocate d
  | .free id => returned (Disk.free id.toInt) d
  | .setRootPageId id => returned (Disk.setRootPageId id.toInt) d
where
  returned {α : Type} (x : DiskM δ α) (d : Disk δ) : Option (Disk δ) :=
    match exec x d with
    | (.ok _, d') => some d'
    | (.error _, _) => none

/-- `free` is called while `size() < MAX_FREE_PAGES`. -/
def Allowed (d : Disk δ) : FreeListCall → Prop
  | .free _ => d.freePages.length < MAX_FREE_PAGES
  | _ => True

instance (d : Disk δ) (c : FreeListCall) : Decidable (c.Allowed d) := by
  cases c with
  | free id => exact Nat.decLt _ _
  | allocate => exact instDecidableTrue
  | setRootPageId id => exact instDecidableTrue

/-- The root that was last set. -/
def lastRoot : PageId → List FreeListCall → PageId
  | root, [] => root
  | _, .setRootPageId id :: calls => lastRoot id.toInt calls
  | root, _ :: calls => lastRoot root calls

end FreeListCall

/-- The list in memory is the one on page 0, next to the root. -/
structure Synced (root : PageId) (d : Disk δ) : Prop where
  header : d.Header d.freePages root
  ids : ∀ id ∈ d.freePages, InWord 4 id
  written : filePages 0 d.writes ≠ 0

namespace Synced

variable [LawfulPageData δ] {root : PageId} {d : Disk δ}

/-- `load` on a new file. -/
theorem loadNew : ∃ d : Disk δ, exec load .empty = (.ok (), d) ∧ d.Synced INVALID_PAGE_ID := by
  refine ⟨_, rfl, ⟨⟨?_, ?_, ?_, Nat.zero_le _⟩, nofun, ?_⟩⟩
  · exact ⟨le_rfl, Int.zero_lt_one, rfl⟩
  · exact LawfulPageData.freePages_dbHeader
  · exact LawfulPageData.rootId_dbHeader
  · exact Nat.one_ne_zero

/-- A list of ids in memory is saved next to the same root. -/
theorem save (h : d.Synced root) {free : List PageId} (hlen : free.length ≤ MAX_FREE_PAGES)
    (hids : ∀ id ∈ free, InWord 4 id) :
    ∃ d', exec save { d with freePages := free } = (.ok (), d') ∧ d'.Synced root := by
  have hread : Readable { d with freePages := free } 0 := h.header.readable
  have hheader : Header { d with freePages := free } d.freePages root :=
    h.header.congr hread rfl
  refine ⟨_, exec_save hread hlen, hheader.saved hlen hids, hids, ?_⟩
  rw [saved, filePages_append]
  omega

theorem allocate (h : d.Synced root) :
    ∃ id d', exec allocate d = (.ok id, d') ∧ d'.Synced root := by
  cases hlast : d.freePages.getLast? with
  | none =>
    refine ⟨INVALID_PAGE_ID, d, ?_, h⟩
    simp only [Disk.allocate, exec_get_bind, hlast, exec_pure]
  | some id =>
    have hlen : d.freePages.dropLast.length ≤ MAX_FREE_PAGES := by
      rw [List.length_dropLast]
      exact Nat.le_trans (Nat.sub_le _ _) h.header.length_le
    obtain ⟨d', hsave, hd'⟩ := h.save hlen fun i hi => h.ids i (List.dropLast_subset _ hi)
    refine ⟨id, d', ?_, hd'⟩
    simp only [Disk.allocate, exec_get_bind, hlast, exec_set_bind]
    rw [exec_bind_ok hsave, exec_pure]

theorem free (h : d.Synced root) {id : PageId} (hid : InWord 4 id)
    (hlen : d.freePages.length < MAX_FREE_PAGES) :
    ∃ d', exec (free id) d = (.ok (), d') ∧ d'.Synced root := by
  have hids : ∀ i ∈ d.freePages ++ [id], InWord 4 i := by
    intro i hi
    rcases List.mem_append.mp hi with hi | hi
    · exact h.ids i hi
    · exact List.mem_singleton.mp hi ▸ hid
  have hlen' : (d.freePages ++ [id]).length ≤ MAX_FREE_PAGES := by
    rw [List.length_append]
    exact hlen
  obtain ⟨d', hsave, hd'⟩ := h.save hlen' hids
  refine ⟨d', ?_, hd'⟩
  simp only [Disk.free, exec_get_bind, if_neg (Nat.not_le.mpr hlen), exec_set_bind]
  exact hsave

theorem setRootPageId (h : d.Synced root) {id : PageId} (hid : InWord 4 id) :
    ∃ d', exec (setRootPageId id) d = (.ok (), d') ∧ d'.Synced id := by
  obtain ⟨page, hexec, hheader⟩ := h.header.setRootPageId hid
  refine ⟨_, hexec, hheader, h.ids, ?_⟩
  rw [filePages_append]
  omega

theorem step (h : d.Synced root) {c : FreeListCall} (hc : c.Allowed d) :
    ∃ d', c.step d = some d' ∧ d'.Synced (FreeListCall.lastRoot root [c]) := by
  cases c with
  | allocate =>
    obtain ⟨id, d', hexec, hd'⟩ := h.allocate
    exact ⟨d', by simp only [FreeListCall.step, FreeListCall.step.returned, hexec], hd'⟩
  | free id =>
    obtain ⟨d', hexec, hd'⟩ := h.free (inWord_toInt id) hc
    exact ⟨d', by simp only [FreeListCall.step, FreeListCall.step.returned, hexec], hd'⟩
  | setRootPageId id =>
    obtain ⟨d', hexec, hd'⟩ := h.setRootPageId (inWord_toInt id)
    exact ⟨d', by simp only [FreeListCall.step, FreeListCall.step.returned, hexec], hd'⟩

theorem run (h : d.Synced root) {calls : List FreeListCall}
    (hcalls : Steps FreeListCall.step FreeListCall.Allowed d calls) :
    ∃ d', run FreeListCall.step d calls = some d' ∧
      d'.Synced (FreeListCall.lastRoot root calls) := by
  induction calls generalizing d root with
  | nil => exact ⟨d, rfl, h⟩
  | cons c calls ih =>
    obtain ⟨t, ht, hsync⟩ := h.step hcalls.1
    obtain ⟨d', hd', hsync'⟩ := ih hsync (hcalls.2 t ht)
    refine ⟨d', by rw [KeyVDB.run, ht]; exact hd', ?_⟩
    cases c with
    | allocate => exact hsync'
    | free id => exact hsync'
    | setRootPageId id => exact hsync'

omit [LawfulPageData δ] in
/-- What a second `FreeList` sees, on the same `DiskManager` or on one of its own. -/
theorem second (h : d.Synced root) (d' : Disk δ)
    (hd' : d' = { d with freePages := [] } ∨ d' = d.reopen 0) :
    ∃ d'', exec load d' = (.ok (), d'') ∧ d''.freePages = d.freePages ∧
      exec rootPageId d'' = (.ok root, d'') := by
  have hheader : d'.Header d.freePages root := by
    rcases hd' with rfl | rfl
    · exact h.header.congr h.header.readable rfl
    · refine h.header.congr ⟨le_rfl, ?_, rfl⟩ rfl
      exact_mod_cast Nat.pos_of_ne_zero h.written
  have hloaded : Header { d' with freePages := d.freePages } d.freePages root :=
    hheader.congr hheader.readable rfl
  exact ⟨_, hheader.exec_load, rfl, hloaded.exec_rootPageId⟩

end Synced

/-- **Page 0 round trip.** After every sequence of calls on a new file all of which return, a second
`FreeList` that loads the file has the list of the first one, and the root is the one last set. -/
theorem header_round_trip (calls : List FreeListCall) {d₀ : Disk RawPage}
    (hload : exec load .empty = (.ok (), d₀))
    (hcalls : Steps FreeListCall.step FreeListCall.Allowed d₀ calls) :
    ∃ d, run FreeListCall.step d₀ calls = some d ∧
      exec rootPageId d = (.ok (FreeListCall.lastRoot INVALID_PAGE_ID calls), d) ∧
      ∀ d', d' = { d with freePages := [] } ∨ d' = d.reopen 0 →
        ∃ d'', exec load d' = (.ok (), d'') ∧ d''.freePages = d.freePages ∧
          exec rootPageId d'' = (.ok (FreeListCall.lastRoot INVALID_PAGE_ID calls), d'') := by
  obtain ⟨d, hd, hsync⟩ := Synced.loadNew (δ := RawPage)
  rw [hload] at hd
  cases hd
  obtain ⟨d', hrun, hsync'⟩ := hsync.run hcalls
  exact ⟨d', hrun, hsync'.header.exec_rootPageId, hsync'.second⟩

/-- Two pages are freed, one is taken again and the root is set in between. -/
theorem header_round_trip_reuse :
    ∃ d₀ d : Disk RawPage, exec load .empty = (.ok (), d₀) ∧
      run FreeListCall.step d₀ [.free 3, .setRootPageId 7, .free 5, .allocate, .free (-1)] =
        some d ∧ exec rootPageId d = (.ok 7, d) := by
  have hload : exec load (Disk.empty : Disk RawPage) = (.ok (), (exec load .empty).2) := rfl
  have hcalls : Steps FreeListCall.step FreeListCall.Allowed
      (exec load (Disk.empty : Disk RawPage)).2
      [.free 3, .setRootPageId 7, .free 5, .allocate, .free (-1)] := by decide +kernel
  obtain ⟨d, hrun, hroot, -⟩ := header_round_trip _ hload hcalls
  exact ⟨_, d, hload, hrun, hroot⟩

end Disk

end KeyVDB
