import KeyVDB.Storage.Coherence

/-!
# Page-id accounting

Page ids come from the free list and from the end of the file, they are kept in the pool, in the
list in memory and on page 0, and the number of pages is taken from the size of the file when it is
opened again. `Balanced` is the invariant that no id is lost or given out twice over all that.
-/

namespace KeyVDB

namespace BufferPool

variable {δ : Type}

/-! ## The calls -/

/-- The pool, the number of pages the file had when it was opened, and the ids that `new_page` gave
out and `delete_page` has not taken back. -/
structure Ledger (δ : Type) where
  pool : BufferPool δ
  opened : Nat
  allocated : Finset PageId

/-- Calls of the pool on allocated pages, and clean shutdowns. -/
inductive LedgerCall (δ : Type)
  | newPage
  | deletePage (id : PageId)
  | fetchPage (id : PageId)
  | unpinPage (id : PageId) (dirty : Bool)
  | change (id : PageId) (data : δ)  -- in its frame; the header stays
  | flushPage (id : PageId)
  | flushAll (order : List PageId)
  | reopen (order : List PageId)  -- the pool is destroyed, which flushes it, and all is opened again

namespace Ledger

section Step

variable [PageData δ]

/-- A new file. -/
def start : Ledger δ :=
  { pool := init (exec Disk.load Disk.empty).2, opened := 0, allocated := ∅ }

/-- The ledger after a call; `none` if it does not return. -/
def step (s : Ledger δ) : LedgerCall δ → Option (Ledger δ)
  | .newPage => do
    -- `num_pages_` is an `int32_t`
    guard (s.pool.disk.freePages ≠ [] ∨ s.pool.disk.numPages + 1 < 2 ^ 31)
    let (r, pool) ← returned newPage s.pool
    match r with
    | none => return { s with pool }
    | some (id, _) => return { s with pool, allocated := insert id s.allocated }
  | .deletePage id => do
    guard (id ∈ s.allocated)
    let (_, pool) ← returned (deletePage id) s.pool
    return { s with pool, allocated := s.allocated.erase id }
  | .fetchPage id => do
    guard (id ∈ s.allocated)
    let (_, pool) ← returned (fetchPage id) s.pool
    return { s with pool }
  | .unpinPage id dirty => do
    let (_, pool) ← returned (unpinPage id dirty) s.pool
    return { s with pool }
  | .change id data => do
    let f ← s.pool.pageTable.lookup id
    let frame := s.pool.frames f
    return { s with pool := s.pool.setFrame f { frame with page := { frame.page with data } } }
  | .flushPage id => do
    let (_, pool) ← returned (flushPage id) s.pool
    return { s with pool }
  | .flushAll order => do
    guard (order.toFinset = s.pool.pageTable.keys)
    let (_, pool) ← returned (flushAll order) s.pool
    return { s with pool }
  | .reopen order => do
    guard (order.toFinset = s.pool.pageTable.keys)
    let (_, pool) ← returned (flushAll order) s.pool
    let disk := pool.disk.reopen s.opened
    match exec Disk.load disk with
    | (.ok _, disk') => return { s with pool := init disk', opened := disk.numPages }
    | (.error _, _) => none

end Step

/-- The ids below `num_pages()` are page 0, the allocated ones and the free ones, each of them in one
of the three, and a new page gets an id that is in none of the first two. -/
structure Partitioned [PageData δ] (s : Ledger δ) : Prop where
  covers : ∀ id : PageId, (0 ≤ id ∧ id < s.pool.disk.numPages) ↔
    id = 0 ∨ id ∈ s.allocated ∨ id ∈ s.pool.disk.freePages
  zero : (0 : PageId) ∉ s.allocated ∧ (0 : PageId) ∉ s.pool.disk.freePages
  disjoint : ∀ id ∈ s.allocated, id ∉ s.pool.disk.freePages
  nodup : s.pool.disk.freePages.Nodup
  fresh : ∀ s', s.step .newPage = some s' →
    ∃ id, id ≠ 0 ∧ id ∉ s.allocated ∧ s'.allocated = insert id s.allocated

/-! ## The invariant -/

/-- An allocated page has its id in its header; nothing else is asked for. -/
def view (s : Ledger δ) : View δ where
  live id := id ∈ s.allocated
  image id page := page.pageId = id
  pins _ _ := True
  held _ _ := False
  pending _ := False
  header h := h
  pinned h := (h.elim id fun ⟨_, hf⟩ => hf).elim

/-- What the file has to hold for the next time it is opened. -/
structure Stored [PageData δ] (opened : Nat) (d : Disk δ) : Prop where
  header : ∃ root, d.Header d.freePages root
  size : Disk.filePages opened d.writes = d.numPages
  small : d.numPages < 2 ^ 31

/-- Every id is in its place, in memory and on disk. -/
structure Balanced [PageData δ] (s : Ledger δ) : Prop where
  coherent : Coherent s.view s.pool
  accounted : s.pool.disk.Accounted (· ∈ s.allocated)
  complete : ∀ id : PageId, 0 < id → id < s.pool.disk.numPages →
    id ∈ s.allocated ∨ id ∈ s.pool.disk.freePages
  stored : Stored s.opened s.pool.disk

/-! ## The file -/

/-- The ids below `num_pages()` fit a `page_id_t`. -/
theorem inWord_of_lt {id : PageId} {n : Nat} (hlo : 0 < id) (hhi : id < n) (hn : n < 2 ^ 31) :
    InWord 4 id := by
  have hlt : id < (2 ^ 31 : Nat) := hhi.trans (by exact_mod_cast hn)
  refine Int.bmod_eq_of_le ?_ ?_
  · exact le_trans (by decide) hlo.le
  · exact lt_of_lt_of_le hlt (by decide)

namespace Stored

variable [PageData δ] {opened : Nat} {d d' : Disk δ}

theorem writesTo (h : Stored opened d) {v : View δ} (hd : WritesTo v d d')
    (hlive : ∀ id, v.live id → 0 < id ∧ id < d.numPages) : Stored opened d' := by
  obtain ⟨root, hroot⟩ := h.header
  refine ⟨⟨root, ?_⟩, ?_, by rw [hd.numPages]; exact h.small⟩
  · rw [hd.freePages]
    refine hroot.congr (hd.readable.mpr hroot.readable) (hd.file_of_not_live fun h0 => ?_)
    exact lt_irrefl _ (hlive 0 h0).1
  · obtain ⟨ws, rfl, hws⟩ := hd
    have happend : Disk.filePages opened (d.writes ++ ws) =
        Disk.filePages (Disk.filePages opened d.writes) ws := List.foldl_append
    rw [happend, h.size]
    exact Disk.filePages_of_lt fun w hw => hlive _ (hws w hw).1

theorem grown (h : Stored opened d) (hpos : d.numPages ≠ 0) (hsmall : d.numPages + 1 < 2 ^ 31) :
    Stored opened d.grown := by
  obtain ⟨root, hroot⟩ := h.header
  refine ⟨⟨root, hroot.congr ?_ (Disk.file_write_of_ne _ ?_ _)⟩, ?_, hsmall⟩
  · obtain ⟨-, hlt, hfault⟩ := hroot.readable
    exact ⟨le_rfl, hlt.trans (by exact_mod_cast Nat.lt_succ_self d.numPages), hfault⟩
  · exact_mod_cast hpos.symm
  · rw [Disk.grown, Disk.filePages_append, h.size]
    simp

variable [LawfulPageData δ]

theorem saved (h : Stored opened d) {free : List PageId} (hlen : free.length ≤ MAX_FREE_PAGES)
    (hids : ∀ id ∈ free, InWord 4 id) : Stored opened (Disk.saved { d with freePages := free }) := by
  obtain ⟨root, hroot⟩ := h.header
  have hheader : Disk.Header { d with freePages := free } d.freePages root :=
    hroot.congr hroot.readable rfl
  refine ⟨⟨root, hheader.saved hlen hids⟩, ?_, h.small⟩
  rw [Disk.saved, Disk.filePages_append, h.size]
  have hpos := hroot.readable.numPages_ne_zero
  change max d.numPages 1 = d.numPages
  omega

omit [LawfulPageData δ] in
/-- Opened again, the file has the same pages, free pages and contents. -/
theorem reopen (h : Stored opened d) :
    ∃ d', exec Disk.load (d.reopen opened) = (.ok (), d') ∧ d'.numPages = d.numPages ∧
      d'.freePages = d.freePages ∧ (∀ id, d'.file id = d.file id) ∧ (∀ id, d'.faults id = none) ∧
      Stored (d.reopen opened).numPages d' := by
  obtain ⟨root, hroot⟩ := h.header
  have hsize : (d.reopen opened).numPages = d.numPages := h.size
  have hread : (d.reopen opened).Readable 0 := by
    obtain ⟨hlo, hlt, -⟩ := hroot.readable
    exact ⟨hlo, by rw [hsize]; exact hlt, rfl⟩
  have hheader : (d.reopen opened).Header d.freePages root := hroot.congr hread rfl
  refine ⟨_, hheader.exec_load, hsize, rfl, fun _ => rfl, fun _ => rfl, ⟨root, ?_⟩, rfl, ?_⟩
  · exact hheader.congr hread rfl
  · rw [hsize]
    exact h.small

end Stored

/-! ## The calls keep the books -/

section Calls

variable [PageData δ] {s s' : Ledger δ}

theorem Balanced.range (h : Balanced s) :
    ∀ id, s.view.live id → 0 < id ∧ id < s.pool.disk.numPages :=
  fun id hid => h.accounted.range id (Or.inl hid)

theorem Balanced.nonneg (h : Balanced s) : ∀ id, s.view.live id → 0 ≤ id :=
  fun id hid => (h.range id hid).1.le

/-- Only pages were written. -/
theorem Balanced.writesTo (h : Balanced s) {pool : BufferPool δ} (hcoh : Coherent s.view pool)
    (hwrites : WritesTo s.view s.pool.disk pool.disk) : Balanced { s with pool } where
  coherent := hcoh
  accounted := h.accounted.writesTo hwrites
  complete := by
    rw [hwrites.numPages, hwrites.freePages]
    exact h.complete
  stored := h.stored.writesTo hwrites h.range

theorem Balanced.fetchPage (h : Balanced s) {id : PageId} (hs : s.step (.fetchPage id) = some s') :
    Balanced s' := by
  obtain ⟨hlive, ⟨r, pool⟩, hexec, hs⟩ := guard_bind_eq_some.mp hs
  rw [returned_eq_some] at hexec
  cases hs
  rcases h.coherent.fetchPage h.nonneg hlive (h.accounted.readable hlive) with
    hnone | ⟨f, p', hsome, hwrites, -, hcoh⟩
  · rw [hexec] at hnone
    cases hnone
    exact h
  · rw [hexec] at hsome
    cases hsome
    exact h.writesTo (hcoh _ ⟨fun i _ => .refl _ i, hlive, fun _ => Iff.rfl, fun _ _ => trivial,
      fun _ => trivial, fun _ => False.elim, Iff.rfl⟩) hwrites

theorem Balanced.unpinPage (h : Balanced s) {id : PageId} {dirty : Bool}
    (hs : s.step (.unpinPage id dirty) = some s') : Balanced s' := by
  have hbind : (returned (BufferPool.unpinPage id dirty) s.pool).bind
      (fun r => some { s with pool := r.2 }) = some s' := hs
  obtain ⟨⟨r, pool⟩, hexec, hs⟩ := Option.bind_eq_some_iff.mp hbind
  rw [returned_eq_some] at hexec
  cases hs
  cases hid : s.pool.pageTable.lookup id with
  | none =>
    rw [BufferPool.unpinPage, exec_modify, hid] at hexec
    cases hexec
    exact h
  | some f =>
    have hview : s.view.Unpin s.view id dirty :=
      ⟨fun i _ => .refl _ i, Iff.rfl, fun _ => Iff.rfl, fun _ _ => trivial, fun _ => False.elim,
        fun _ => False.elim⟩
    obtain ⟨p', hexec', hdisk, hcoh⟩ := h.coherent.unpinPage hid hview
    rw [hexec] at hexec'
    cases hexec'
    exact h.writesTo hcoh (by rw [hdisk]; exact .refl _ _)

theorem Balanced.change (h : Balanced s) {id : PageId} {data : δ}
    (hs : s.step (.change id data) = some s') : Balanced s' := by
  obtain ⟨f, hid, hs⟩ := Option.bind_eq_some_iff.mp hs
  cases hs
  have hfiled := h.coherent.filed hid
  refine h.writesTo (h.coherent.update hid (fun i _ => .refl _ i) (fun _ _ => rfl)
    ⟨hfiled.live, hfiled.inUse, hfiled.image, trivial, hfiled.clean⟩ fun _ => False.elim) (.refl _ _)

theorem Balanced.flushPage (h : Balanced s) {id : PageId} (hs : s.step (.flushPage id) = some s') :
    Balanced s' := by
  obtain ⟨⟨r, pool⟩, hexec, hs⟩ := Option.bind_eq_some_iff.mp hs
  rw [returned_eq_some] at hexec
  cases hs
  obtain ⟨r', p', hexec', hcoh, hwrites⟩ := h.coherent.flushPage h.nonneg id
  rw [hexec] at hexec'
  cases hexec'
  exact h.writesTo hcoh hwrites

theorem Balanced.flushAll (h : Balanced s) {order : List PageId}
    (hs : s.step (.flushAll order) = some s') : Balanced s' := by
  obtain ⟨-, ⟨r, pool⟩, hexec, hs⟩ := guard_bind_eq_some.mp hs
  rw [returned_eq_some] at hexec
  cases hs
  obtain ⟨p', hexec', hcoh, hwrites, -⟩ := h.coherent.flushAll h.nonneg order
  rw [hexec] at hexec'
  cases hexec'
  exact h.writesTo hcoh hwrites

/-- All pages are in the file when it is opened again, so none of them is needed in the pool. -/
theorem Balanced.reopen (h : Balanced s) {order : List PageId}
    (hs : s.step (.reopen order) = some s') : Balanced s' := by
  obtain ⟨horder, ⟨r, pool⟩, hexec, hs⟩ := guard_bind_eq_some.mp hs
  rw [returned_eq_some] at hexec
  have hall : ∀ id ∈ s.pool.pageTable, id ∈ order := by
    intro id hid
    rw [← List.mem_toFinset, horder]
    exact Finmap.mem_keys.mpr hid
  obtain ⟨p', hexec', hcoh, hwrites, hfile⟩ := h.coherent.flushAll_file h.nonneg hall fun _ => False.elim
  rw [hexec] at hexec'
  cases hexec'
  have hflushed := h.writesTo hcoh hwrites
  obtain ⟨d, hload, hnum, hfree, hsame, hfault, hstored⟩ := hflushed.stored.reopen
  dsimp only at hload hnum hfree hsame hstored
  simp only [hload] at hs
  cases hs
  refine ⟨.init (fun id hid => ?_) fun _ _ => nofun, ?_, ?_, hstored⟩
  · change (d.file id).pageId = id
    rw [hsame]
    exact hfile id hid
  · have hacc := hflushed.accounted
    exact ⟨by rw [BufferPool.init, hfree]; exact hacc.free_nodup,
      by rw [BufferPool.init, hfree]; exact hacc.free_not_live,
      by rw [BufferPool.init, hfree, hnum]; exact hacc.range,
      by rw [BufferPool.init, hfree]; exact hacc.length_le, hfault,
      by rw [BufferPool.init, hnum]; exact hacc.header⟩
  · rw [BufferPool.init, hfree, hnum]
    exact hflushed.complete

variable [LawfulPageData δ]

theorem Balanced.stored_gives (h : Balanced s) {id : PageId} {d : Disk δ}
    (hroom : s.pool.disk.freePages ≠ [] ∨ s.pool.disk.numPages + 1 < 2 ^ 31)
    (hd : s.pool.disk.Gives id d) : Stored s.opened d := by
  cases hd with
  | grow hnil => exact h.stored.grown h.accounted.header.ne' (hroom.resolve_left fun h => h hnil)
  | reuse heq =>
    refine h.stored.saved ?_ fun i hi => ?_
    · rw [List.length_dropLast]
      exact Nat.le_trans (Nat.sub_le _ _) h.accounted.length_le
    · obtain ⟨hlo, hhi⟩ := h.accounted.range i (Or.inr (List.dropLast_subset _ hi))
      exact inWord_of_lt hlo hhi h.stored.small

omit [LawfulPageData δ] in
theorem Balanced.complete_gives (h : Balanced s) {id : PageId} {d : Disk δ}
    (hd : s.pool.disk.Gives id d) (i : PageId) (hlo : 0 < i) (hhi : i < d.numPages) :
    (i = id ∨ i ∈ s.allocated) ∨ i ∈ d.freePages := by
  cases hd with
  | grow hnil =>
    rcases (Int.lt_add_one_iff.mp (show i < (s.pool.disk.numPages : Int) + 1 from hhi)).lt_or_eq with
      hlt | heq
    · refine Or.inl (Or.inr ((h.complete i hlo hlt).resolve_right ?_))
      rw [hnil]
      exact List.not_mem_nil
    · exact Or.inl (Or.inl heq)
  | reuse heq =>
    rcases h.complete i hlo hhi with hi | hi
    · exact Or.inl (Or.inr hi)
    · rw [heq, List.mem_append, List.mem_singleton] at hi
      rcases hi with hi | hi
      · exact Or.inr hi
      · exact Or.inl (Or.inl hi)

/-- `new_page` gives out an id that is in no account and puts it among the allocated ones. -/
theorem Balanced.newPage (h : Balanced s) (hs : s.step .newPage = some s') :
    Balanced s' ∧ ∃ id, id ≠ 0 ∧ id ∉ s.allocated ∧ s'.allocated = insert id s.allocated := by
  obtain ⟨hroom, ⟨r, pool⟩, hexec, hs⟩ := guard_bind_eq_some.mp hs
  rw [returned_eq_some] at hexec
  obtain ⟨id, d, hnew, hgives⟩ := h.accounted.newPageId
  obtain ⟨⟨hfresh, hpos⟩, hfile, haccounted⟩ := h.accounted.gives hgives
  have hcoh₁ : Coherent s.view { s.pool with disk := d } := h.coherent.disk hfile
  rw [BufferPool.newPage, exec_bind_ok (by rw [exec_onDisk, hnew])] at hexec
  rcases hcoh₁.newFrame h.nonneg hfresh with ⟨e, -, herr⟩ | ⟨f, p', hok, hwrites, hcoh⟩
  · rw [herr] at hexec
    cases hexec
  · rw [hok] at hexec
    cases hexec
    cases hs
    have hmem : ∀ i, i ∈ insert id s.allocated ↔ i = id ∨ i ∈ s.allocated :=
      fun i => Finset.mem_insert
    have hview : s.view.New (view { s with pool, allocated := insert id s.allocated }) id f := by
      refine ⟨fun i hne => ⟨?_, fun _ => Iff.rfl, fun _ => Iff.rfl, fun _ => Iff.rfl, Iff.rfl⟩,
        Finset.mem_insert_self _ _, rfl, trivial, fun _ => False.elim⟩
      exact (hmem i).trans ⟨fun hi => hi.resolve_left hne, Or.inr⟩
    have hrange := (haccounted _ hmem).range
    refine ⟨⟨hcoh _ hview, (haccounted _ hmem).writesTo hwrites, ?_, ?_⟩, id, ne_of_gt hpos, hfresh,
      rfl⟩
    · intro i hlo hhi
      rw [hwrites.numPages] at hhi
      rw [hwrites.freePages, hmem]
      exact h.complete_gives hgives i hlo hhi
    · exact (h.stored_gives hroom hgives).writesTo hwrites fun i hi =>
        hrange i (Or.inl ((hmem i).mpr (Or.inr hi)))

theorem Balanced.deletePage (h : Balanced s) {id : PageId}
    (hs : s.step (.deletePage id) = some s') : Balanced s' := by
  obtain ⟨hlive, ⟨r, pool⟩, hexec, hs⟩ := guard_bind_eq_some.mp hs
  rw [returned_eq_some] at hexec
  cases hs
  obtain ⟨p₁, hexec', hdisk, hcoh⟩ := h.coherent.deletePage (unpinned_of_deletePage hexec)
  rw [hexec', exec_onDisk, hdisk] at hexec
  have hlen := Disk.length_lt_of_free (Prod.mk.inj hexec).1
  rw [h.accounted.exec_free id hlen] at hexec
  cases hexec
  obtain ⟨hfile, haccounted⟩ := h.accounted.pushed hlive hlen
  have hmem : ∀ i, i ∈ s.allocated.erase id ↔ i ≠ id ∧ i ∈ s.allocated := fun i => Finset.mem_erase
  have hcoh₁ := hcoh (view { s with allocated := s.allocated.erase id })
    (fun i hne => ⟨(hmem i).trans ⟨And.right, And.intro hne⟩, fun _ => Iff.rfl, fun _ => Iff.rfl,
      fun _ => Iff.rfl, Iff.rfl⟩) (Finset.notMem_erase _ _) fun _ => False.elim
  refine ⟨hcoh₁.disk fun i hi => ?_, haccounted _ hmem, fun i hlo hhi => ?_, ?_⟩
  · rw [hdisk]
    exact hfile i ((hmem i).mp hi).2
  · change i ∈ s.allocated.erase id ∨ i ∈ s.pool.disk.freePages ++ [id]
    rw [hmem, List.mem_append, List.mem_singleton]
    by_cases hne : i = id
    · exact Or.inr (Or.inr hne)
    · rcases h.complete i hlo hhi with hi | hi
      · exact Or.inl ⟨hne, hi⟩
      · exact Or.inr (Or.inl hi)
  · refine h.stored.saved ?_ fun i hi => ?_
    · rw [List.length_append]
      exact hlen
    · obtain ⟨hlo, hhi⟩ : 0 < i ∧ i < s.pool.disk.numPages := by
        rcases List.mem_append.mp hi with hi | hi
        · exact h.accounted.range i (Or.inr hi)
        · rw [List.mem_singleton.mp hi]
          exact h.range id hlive
      exact inWord_of_lt hlo hhi h.stored.small

theorem Balanced.step (h : Balanced s) {c : LedgerCall δ} (hs : s.step c = some s') :
    Balanced s' := by
  cases c with
  | newPage => exact (h.newPage hs).1
  | deletePage id => exact h.deletePage hs
  | fetchPage id => exact h.fetchPage hs
  | unpinPage id dirty => exact h.unpinPage hs
  | change id data => exact h.change hs
  | flushPage id => exact h.flushPage hs
  | flushAll order => exact h.flushAll hs
  | reopen order => exact h.reopen hs

theorem Balanced.start : Balanced (start : Ledger δ) := by
  obtain ⟨d, hload, hsynced⟩ := Disk.Synced.loadNew (δ := δ)
  have hd : d = (exec Disk.load (Disk.empty : Disk δ)).2 := by rw [hload]
  refine ⟨.init nofun fun _ _ => nofun, ⟨List.nodup_nil, nofun, fun id hid => hid.elim nofun nofun,
    Nat.zero_le _, fun _ => rfl, Nat.one_pos⟩, fun id hlo hhi => ?_, ⟨⟨_, hd ▸ hsynced.header⟩,
    rfl, show 1 < 2 ^ 31 by decide⟩⟩
  exact (not_lt.mpr (Int.add_one_le_iff.mpr hlo) hhi).elim

theorem Balanced.partitioned (h : Balanced s) : Partitioned s where
  covers id := by
    constructor
    · rintro ⟨hlo, hhi⟩
      rcases hlo.lt_or_eq with hlt | heq
      · exact Or.inr (h.complete id hlt hhi)
      · exact Or.inl heq.symm
    · rintro (rfl | hid)
      · exact ⟨le_rfl, by exact_mod_cast h.accounted.header⟩
      · obtain ⟨hlo, hhi⟩ := h.accounted.range id hid
        exact ⟨hlo.le, hhi⟩
  zero := ⟨fun h0 => lt_irrefl _ (h.accounted.range 0 (Or.inl h0)).1,
    fun h0 => lt_irrefl _ (h.accounted.range 0 (Or.inr h0)).1⟩
  disjoint id hid hfree := h.accounted.free_not_live id hfree hid
  nodup := h.accounted.free_nodup
  fresh _ hs := (h.newPage hs).2

end Calls

/-- **Page-id accounting.** After every run on a new file, across any number of clean shutdowns,
page 0, the allocated pages and the free list partition the ids below `num_pages()`. -/
theorem partitioned_along (calls : List (LedgerCall RawPage)) {s : Ledger RawPage}
    (hrun : run step start calls = some s) : Partitioned s := by
  have hbalanced : Balanced s := by
    refine run_inv (C := fun _ _ => True) ?_ Balanced.start
      (steps_of_forall (fun _ _ => trivial) _ _) hrun
    intro s c s' hs _ hstep
    exact hs.step hstep
  exact hbalanced.partitioned

/-- Two pages are made, one is deleted; the file is opened again and the id is used once more. -/
theorem partitioned_along_reopened :
    ∃ s : Ledger RawPage, run step start [.newPage, .newPage, .unpinPage 1 true, .deletePage 1,
        .reopen [2], .newPage] = some s ∧ s.allocated = {1, 2} ∧ Partitioned s := by
  have hrun : (run step start [.newPage, .newPage, .unpinPage 1 true, .deletePage 1,
      .reopen [2], .newPage]).map (fun s : Ledger RawPage => s.allocated) = some {1, 2} := by
    decide +kernel
  obtain ⟨s, hs, hallocated⟩ := Option.map_eq_some_iff.mp hrun
  exact ⟨s, hs, hallocated, partitioned_along _ hs⟩

end Ledger

end BufferPool

end KeyVDB
