import KeyVDB.Storage.Frames
import KeyVDB.Storage.FreeList

/-!
# Coherence of the pool and the file

What a client of the pool may rely on is a `View`: the pages that are live, what the pool or else
the file holds for them, and the pins. `Coherent` ties the page table, the headers in the frames,
the dirty flags and the file to a view. There is one lemma for each way in which the pool changes:
an entry goes (`unfiled`), comes (`installed`) or its frame changes (`update`), each of them at a
single page.
-/

namespace KeyVDB

namespace BufferPool

variable {δ : Type}

/-! ## Views -/

/-- What the pool has to show to its client. -/
structure View (δ : Type) where
  live : PageId → Prop
  image : PageId → Page δ → Prop  -- the page may look like this
  pins : PageId → Nat → Prop  -- the page may be pinned this often
  held : PageId → FrameId → Prop  -- the client has a pointer to this frame
  pending : PageId → Prop  -- changed through a pointer that is not unpinned yet
  header : ∀ {id page}, image id page → page.pageId = id
  pinned : ∀ {id}, pending id ∨ (∃ f, held id f) → ¬ pins id 0

/-- Two views agree on a page. -/
structure View.Agree (v v' : View δ) (id : PageId) : Prop where
  live : v'.live id ↔ v.live id
  image : ∀ page, v'.image id page ↔ v.image id page
  pins : ∀ n, v'.pins id n ↔ v.pins id n
  held : ∀ f, v'.held id f ↔ v.held id f
  pending : v'.pending id ↔ v.pending id

theorem View.Agree.refl (v : View δ) (id : PageId) : v.Agree v id :=
  ⟨Iff.rfl, fun _ => Iff.rfl, fun _ => Iff.rfl, fun _ => Iff.rfl, Iff.rfl⟩

/-! ## Coherence -/

/-- A frame is a good copy of a page. -/
structure Filed (v : View δ) (d : Disk δ) (id : PageId) (frame : Frame δ) : Prop where
  live : v.live id
  inUse : frame.inUse = true
  image : v.image id frame.page
  pins : v.pins id frame.pinCount
  clean : frame.isDirty = false → ¬ v.pending id → v.image id (d.file id)

/-- The pool and the file show the view. Frames in no entry are free or of no use any more. -/
structure Coherent (v : View δ) (p : BufferPool δ) : Prop where
  filed : ∀ {id f}, p.pageTable.lookup id = some f → Filed v p.disk id (p.frames f)
  absent : ∀ {id}, v.live id → p.pageTable.lookup id = none → v.image id (p.disk.file id)
  held : ∀ {id f}, v.held id f → p.pageTable.lookup id = some f
  lru_nodup : p.lruList.Nodup
  lru_filed : ∀ {f}, f ∈ p.lruList → ∃ id, p.pageTable.lookup id = some f
  free_nodup : p.freeFrames.Nodup
  free_unfiled : ∀ {f}, f ∈ p.freeFrames → ∀ id, p.pageTable.lookup id ≠ some f

/-- The frame is in no place: the caller of `find_free_frame` holds it. -/
structure Vacant (p : BufferPool δ) (f : FrameId) : Prop where
  unfiled : ∀ id, p.pageTable.lookup id ≠ some f
  lru : f ∉ p.lruList
  free : f ∉ p.freeFrames

theorem Filed.header {v : View δ} {d : Disk δ} {id : PageId} {frame : Frame δ}
    (h : Filed v d id frame) : frame.page.pageId = id := v.header h.image

theorem Filed.congr {v v' : View δ} {d d' : Disk δ} {id : PageId} {frame : Frame δ}
    (h : Filed v d id frame) (hv : v.Agree v' id) (hfile : d'.file id = d.file id) :
    Filed v' d' id frame where
  live := hv.live.mpr h.live
  inUse := h.inUse
  image := (hv.image _).mpr h.image
  pins := (hv.pins _).mpr h.pins
  clean hclean hpending := by
    rw [hfile]
    exact (hv.image _).mpr (h.clean hclean (mt hv.pending.mpr hpending))

namespace Coherent

variable {v v' : View δ} {p p' : BufferPool δ} {id : PageId} {f : FrameId} {frame : Frame δ}

theorem init [PageData δ] {d : Disk δ} (himage : ∀ id, v.live id → v.image id (d.file id))
    (hheld : ∀ id f, ¬ v.held id f) : Coherent v (init d) where
  filed hid := by simp [BufferPool.init] at hid
  absent hlive _ := himage _ hlive
  held hf := (hheld _ _ hf).elim
  lru_nodup := List.nodup_nil
  lru_filed := nofun
  free_nodup := List.nodup_finRange _
  free_unfiled _ id hid := by simp [BufferPool.init] at hid

/-- A frame has one entry: the one under the id in its page's header. -/
theorem unique (h : Coherent v p) {id' : PageId} (hid : p.pageTable.lookup id = some f)
    (hid' : p.pageTable.lookup id' = some f) : id = id' :=
  (h.filed hid).header.symm.trans (h.filed hid').header

theorem lru_inUse (h : Coherent v p) : ∀ g ∈ p.lruList, (p.frames g).inUse = true := by
  intro g hg
  obtain ⟨id, hid⟩ := h.lru_filed hg
  exact (h.filed hid).inUse

/-- Of the file only the live pages matter. -/
theorem disk (h : Coherent v p) {d : Disk δ} (hfile : ∀ id, v.live id → d.file id = p.disk.file id) :
    Coherent v { p with disk := d } where
  filed hid := (h.filed hid).congr (.refl v _) (hfile _ (h.filed hid).live)
  absent {id} hlive hid := by
    rw [hfile id hlive]
    exact h.absent hlive hid
  held := h.held
  lru_nodup := h.lru_nodup
  lru_filed := h.lru_filed
  free_nodup := h.free_nodup
  free_unfiled := h.free_unfiled

/-- The frame of one page changes, and the file at most at that page. -/
theorem update (h : Coherent v p) (hid : p.pageTable.lookup id = some f)
    (hv : ∀ i, i ≠ id → v.Agree v' i) {d : Disk δ}
    (hfile : ∀ i, i ≠ id → d.file i = p.disk.file i) (hframe : Filed v' d id frame)
    (hheld : ∀ g, v'.held id g → g = f) : Coherent v' { p.setFrame f frame with disk := d } where
  filed {i g} hi := by
    change p.pageTable.lookup i = some g at hi
    by_cases hg : g = f
    · subst hg
      cases h.unique hi hid
      simpa [setFrame] using hframe
    · have hne : i ≠ id := by
        rintro rfl
        rw [hid] at hi
        exact hg (Option.some.inj hi).symm
      simpa only [setFrame, Function.update_of_ne hg] using
        (h.filed hi).congr (hv i hne) (hfile i hne)
  absent {i} hlive hi := by
    have hne : i ≠ id := by
      rintro rfl
      rw [show p.pageTable.lookup i = none from hi] at hid
      cases hid
    rw [hfile i hne]
    exact ((hv i hne).image _).mpr (h.absent ((hv i hne).live.mp hlive) hi)
  held {i g} hi := by
    by_cases hne : i = id
    · subst hne
      rw [hheld g hi]
      exact hid
    · exact h.held (((hv i hne).held g).mp hi)
  lru_nodup := h.lru_nodup
  lru_filed := h.lru_filed
  free_nodup := h.free_nodup
  free_unfiled := h.free_unfiled

theorem touch (h : Coherent v p) (hid : p.pageTable.lookup id = some f) :
    Coherent v { p with lruList := f :: p.lruList.erase f } where
  filed := h.filed
  absent := h.absent
  held := h.held
  lru_nodup := nodup_touch h.lru_nodup f
  lru_filed {g} hg := by
    rcases List.mem_cons.mp hg with rfl | hg
    · exact ⟨id, hid⟩
    · exact h.lru_filed (List.mem_of_mem_erase hg)
  free_nodup := h.free_nodup
  free_unfiled := h.free_unfiled

/-- An entry goes. -/
theorem unfiled (h : Coherent v p) (hid : p.pageTable.lookup id = some f)
    (hv : ∀ i, i ≠ id → v.Agree v' i) (hframes : ∀ g, g ≠ f → p'.frames g = p.frames g)
    (htable : p'.pageTable = p.pageTable.erase id) (hfree : p'.freeFrames = p.freeFrames)
    (hlru : p'.lruList = p.lruList.erase f) (hfile : ∀ i, i ≠ id → p'.disk.file i = p.disk.file i)
    (hgone : v'.live id → v'.image id (p'.disk.file id)) (hheld : ∀ g, ¬ v'.held id g) :
    Coherent v' p' ∧ Vacant p' f := by
  have hlook : ∀ {i g}, p'.pageTable.lookup i = some g ↔ p.pageTable.lookup i = some g ∧ g ≠ f := by
    intro i g
    rw [htable]
    by_cases hne : i = id
    · subst hne
      rw [Finmap.lookup_erase, hid]
      simp [eq_comm]
    · rw [Finmap.lookup_erase_ne hne]
      refine ⟨fun hi => ⟨hi, ?_⟩, fun hi => hi.1⟩
      rintro rfl
      exact hne (h.unique hi hid)
  have hne_of : ∀ {i g}, p'.pageTable.lookup i = some g → i ≠ id := by
    rintro i g hi rfl
    obtain ⟨hi, hg⟩ := hlook.mp hi
    rw [hid] at hi
    exact hg (Option.some.inj hi).symm
  refine ⟨⟨?_, ?_, ?_, ?_, ?_, ?_, ?_⟩, ⟨?_, ?_, ?_⟩⟩
  · intro i g hi
    have hne := hne_of hi
    obtain ⟨hi, hg⟩ := hlook.mp hi
    rw [hframes g hg]
    exact (h.filed hi).congr (hv i hne) (hfile i hne)
  · intro i hlive hi
    by_cases hne : i = id
    · subst hne
      exact hgone hlive
    · rw [htable, Finmap.lookup_erase_ne hne] at hi
      rw [hfile i hne]
      exact ((hv i hne).image _).mpr (h.absent ((hv i hne).live.mp hlive) hi)
  · intro i g hi
    by_cases hne : i = id
    · subst hne
      exact (hheld g hi).elim
    · rw [htable, Finmap.lookup_erase_ne hne]
      exact h.held (((hv i hne).held g).mp hi)
  · rw [hlru]
    exact h.lru_nodup.erase f
  · intro g hg
    rw [hlru, h.lru_nodup.mem_erase_iff] at hg
    obtain ⟨i, hi⟩ := h.lru_filed hg.2
    exact ⟨i, hlook.mpr ⟨hi, hg.1⟩⟩
  · rw [hfree]
    exact h.free_nodup
  · intro g hg i hi
    rw [hfree] at hg
    exact h.free_unfiled hg i (hlook.mp hi).1
  · intro i hi
    exact (hlook.mp hi).2 rfl
  · rw [hlru]
    exact h.lru_nodup.not_mem_erase
  · intro hf
    rw [hfree] at hf
    exact h.free_unfiled hf id hid

/-- An entry comes. -/
theorem installed (h : Coherent v p) (hf : Vacant p f) (hid : p.pageTable.lookup id = none)
    (hv : ∀ i, i ≠ id → v.Agree v' i) (hframe : Filed v' p.disk id frame)
    (hheld : ∀ g, v'.held id g → g = f) : Coherent v' (p.installed id f frame) := by
  have hlook : ∀ {i g}, (p.installed id f frame).pageTable.lookup i = some g ↔
      i = id ∧ g = f ∨ i ≠ id ∧ p.pageTable.lookup i = some g := by
    intro i g
    by_cases hne : i = id
    · subst hne
      rw [BufferPool.installed, Finmap.lookup_insert]
      simp [eq_comm]
    · rw [BufferPool.installed, Finmap.lookup_insert_of_ne _ hne]
      simp [hne]
  refine ⟨?_, ?_, ?_, nodup_touch h.lru_nodup f, ?_, h.free_nodup, ?_⟩
  · intro i g hi
    rcases hlook.mp hi with ⟨rfl, rfl⟩ | ⟨hne, hold⟩
    · simpa [BufferPool.installed] using hframe
    · have hg : g ≠ f := by rintro rfl; exact hf.unfiled i hold
      simpa only [BufferPool.installed, Function.update_of_ne hg] using
        (h.filed hold).congr (hv i hne) rfl
  · intro i hlive hi
    have hne : i ≠ id := by
      rintro rfl
      rw [BufferPool.installed, Finmap.lookup_insert] at hi
      cases hi
    rw [BufferPool.installed, Finmap.lookup_insert_of_ne _ hne] at hi
    exact ((hv i hne).image _).mpr (h.absent ((hv i hne).live.mp hlive) hi)
  · intro i g hi
    by_cases hne : i = id
    · subst hne
      exact hlook.mpr (Or.inl ⟨rfl, hheld g hi⟩)
    · exact hlook.mpr (Or.inr ⟨hne, h.held (((hv i hne).held g).mp hi)⟩)
  · intro g hg
    rcases List.mem_cons.mp hg with rfl | hg
    · exact ⟨id, hlook.mpr (Or.inl ⟨rfl, rfl⟩)⟩
    · obtain ⟨i, hi⟩ := h.lru_filed (List.mem_of_mem_erase hg)
      refine ⟨i, hlook.mpr (Or.inr ⟨?_, hi⟩)⟩
      rintro rfl
      rw [hid] at hi
      cases hi
  · intro g hg i hi
    rcases hlook.mp hi with ⟨-, rfl⟩ | ⟨-, hi⟩
    · exact hf.free hg
    · exact h.free_unfiled hg i hi

end Coherent

/-! ## Taking a frame -/

/-- Pages of the view were written to the file, as the view has them. -/
def WritesTo (v : View δ) (d d' : Disk δ) : Prop :=
  ∃ ws, d' = { d with writes := d.writes ++ ws } ∧ ∀ w ∈ ws, v.live w.1 ∧ v.image w.1 w.2

namespace WritesTo

variable {v : View δ} {d d' d'' : Disk δ}

theorem refl (v : View δ) (d : Disk δ) : WritesTo v d d := ⟨[], by simp, nofun⟩

theorem write {id : PageId} {page : Page δ} (h : v.live id) (himage : v.image id page) :
    WritesTo v d { d with writes := d.writes ++ [(id, page)] } := by
  refine ⟨[(id, page)], rfl, fun w hw => ?_⟩
  rw [List.mem_singleton.mp hw]
  exact ⟨h, himage⟩

theorem trans (h : WritesTo v d d') (h' : WritesTo v d' d'') : WritesTo v d d'' := by
  obtain ⟨ws, rfl, hws⟩ := h
  obtain ⟨ws', rfl, hws'⟩ := h'
  refine ⟨ws ++ ws', by simp, fun w hw => ?_⟩
  rcases List.mem_append.mp hw with hw | hw
  · exact hws w hw
  · exact hws' w hw

theorem numPages (h : WritesTo v d d') : d'.numPages = d.numPages := by
  obtain ⟨ws, rfl, -⟩ := h
  rfl

theorem freePages (h : WritesTo v d d') : d'.freePages = d.freePages := by
  obtain ⟨ws, rfl, -⟩ := h
  rfl

theorem faults (h : WritesTo v d d') : d'.faults = d.faults := by
  obtain ⟨ws, rfl, -⟩ := h
  rfl

theorem readable (h : WritesTo v d d') {id : PageId} : d'.Readable id ↔ d.Readable id := by
  rw [Disk.Readable, Disk.Readable, h.numPages, h.faults]

/-- A page that is not written keeps its bytes. -/
theorem file_of_not_live (h : WritesTo v d d') {id : PageId} (hid : ¬ v.live id) :
    d'.file id = d.file id := by
  obtain ⟨ws, rfl, hws⟩ := h
  have hnone : (ws.reverse.find? fun w => w.1 = id) = none := by
    refine List.find?_eq_none.mpr fun w hw he => hid ?_
    have hlive := (hws w (List.mem_reverse.mp hw)).1
    rwa [of_decide_eq_true he] at hlive
  simp [Disk.file, Disk.fileAfter, List.find?_append, hnone]

end WritesTo

section Take

variable [PageData δ] {v : View δ} {p : BufferPool δ} {f : FrameId}

/-- A page that is not pinned is written back if it is dirty, and its entry goes. -/
theorem Coherent.evicted (h : Coherent v p) {id : PageId} (hid : p.pageTable.lookup id = some f)
    (hpin : (p.frames f).pinCount = 0) :
    Coherent v (p.evicted f) ∧ Vacant (p.evicted f) f ∧ WritesTo v p.disk (p.evicted f).disk := by
  have hfiled := h.filed hid
  have hzero : v.pins id 0 := hpin ▸ hfiled.pins
  have hpending : ¬ v.pending id := fun hp => v.pinned (Or.inl hp) hzero
  have hheld : ∀ g, ¬ v.held id g := fun g hg => v.pinned (Or.inr ⟨g, hg⟩) hzero
  have hdisk : WritesTo v p.disk (p.evicted f).disk ∧
      (∀ i, i ≠ id → (p.evicted f).disk.file i = p.disk.file i) ∧
      v.image id ((p.evicted f).disk.file id) := by
    simp only [BufferPool.evicted, hfiled.header]
    cases hdirty : (p.frames f).isDirty with
    | false => exact ⟨.refl v _, fun _ _ => rfl, hfiled.clean hdirty hpending⟩
    | true =>
      refine ⟨.write hfiled.live hfiled.image, fun i hne => Disk.file_write_of_ne _ hne _, ?_⟩
      rw [if_pos rfl, Disk.file_write_self]
      exact hfiled.image
  obtain ⟨hwrites, hother, himage⟩ := hdisk
  have hgone : Coherent v (p.evicted f) ∧ Vacant (p.evicted f) f :=
    h.unfiled hid (fun i _ => .refl v i) (fun g hg => Function.update_of_ne hg _ _)
      (by rw [BufferPool.evicted, hfiled.header]) rfl rfl hother (fun _ => himage) hheld
  exact ⟨hgone.1, hgone.2, hwrites⟩

theorem Coherent.taken (h : Coherent v p) (ht : p.takes = some f) :
    Coherent v (p.taken f) ∧ Vacant (p.taken f) f ∧ WritesTo v p.disk (p.taken f).disk := by
  unfold BufferPool.taken
  split
  · next hnil =>
    have hv := Placed.victim_of_takes ht hnil
    have hmem : f ∈ p.lruList := List.mem_reverse.mp (List.mem_of_find?_eq_some hv)
    obtain ⟨id, hid⟩ := h.lru_filed hmem
    exact h.evicted hid (victim_ok h.lru_inUse hv).2
  · next hne =>
    have heq := Placed.eq_append_of_takes ht hne
    have hmem : f ∈ p.freeFrames := by rw [heq]; simp
    have hnodup := h.free_nodup
    rw [heq] at hnodup
    have hnot : f ∉ p.freeFrames.dropLast := fun hf =>
      (List.nodup_append.mp hnodup).2.2 f hf f (List.mem_singleton_self f) rfl
    refine ⟨⟨h.filed, h.absent, h.held, h.lru_nodup, h.lru_filed, ?_, ?_⟩, ⟨?_, ?_, hnot⟩,
      .refl v _⟩
    · exact (List.nodup_append.mp hnodup).1
    · exact fun hg => h.free_unfiled (List.dropLast_subset _ hg)
    · exact h.free_unfiled hmem
    · intro hf
      obtain ⟨id, hid⟩ := h.lru_filed hf
      exact h.free_unfiled hmem id hid

/-- The victim's header is the id of a live page, so it can be written back: if `find_free_frame`
finds nothing, then all frames are pinned. -/
theorem Coherent.findFreeFrame_none (h : Coherent v p) (hpos : ∀ id, v.live id → 0 ≤ id)
    (ht : p.takes = none) : exec findFreeFrame p = (.ok none, p) := by
  unfold takes at ht
  cases hfree : p.freeFrames.getLast? with
  | some g => rw [hfree] at ht; cases ht
  | none =>
    rw [hfree] at ht
    cases hv : p.victim with
    | none => simp [BufferPool.findFreeFrame, hfree, hv]
    | some g =>
      have hmem : g ∈ p.lruList := List.mem_reverse.mp (List.mem_of_find?_eq_some hv)
      obtain ⟨id, hid⟩ := h.lru_filed hmem
      have hbad : (p.frames g).isDirty = true ∧ (p.frames g).page.pageId < 0 := by
        simpa [hv, Option.filter] using ht
      rw [(h.filed hid).header] at hbad
      exact (not_lt.mpr (hpos id (h.filed hid).live) hbad.2).elim

/-- The pool after a page that is in a frame was given out. -/
def hit (p : BufferPool δ) (f : FrameId) : BufferPool δ :=
  { p.setFrame f { p.frames f with pinCount := (p.frames f).pinCount + 1 } with
    lruList := f :: p.lruList.erase f }

/-- The pool after a page was read into the frame that was taken for it. -/
def loaded (p : BufferPool δ) (id : PageId) (f : FrameId) : BufferPool δ :=
  (p.taken f).installed id f { page := (p.taken f).disk.file id, pinCount := 1, inUse := true }

/-- What `fetch_page` comes to. -/
inductive Fetched (p : BufferPool δ) (id : PageId) :
    Except Exn (Option FrameId) × BufferPool δ → Prop
  | hit {f : FrameId} : p.pageTable.lookup id = some f → Fetched p id (.ok (some f), p.hit f)
  | full : Fetched p id (.ok none, p)
  | loaded {f : FrameId} : p.pageTable.lookup id = none → p.takes = some f → p.disk.Readable id →
      Fetched p id (.ok (some f), p.loaded id f)
  | unreadable {f : FrameId} {e : Exn} : p.takes = some f → ¬ p.disk.Readable id →
      Fetched p id (.error e, p.taken f)

theorem Coherent.fetched (h : Coherent v p) (hpos : ∀ id, v.live id → 0 ≤ id) (id : PageId) :
    Fetched p id (exec (BufferPool.fetchPage id) p) := by
  simp only [BufferPool.fetchPage, exec_get_bind]
  cases hid : p.pageTable.lookup id with
  | some f => exact .hit hid
  | none =>
    dsimp only
    cases ht : p.takes with
    | none =>
      rw [exec_bind_ok (h.findFreeFrame_none hpos ht)]
      exact .full
    | some f =>
      rw [exec_bind_ok (exec_findFreeFrame h.lru_inUse ht)]
      dsimp only
      have hreadable : (p.taken f).disk.Readable id ↔ p.disk.Readable id :=
        (h.taken ht).2.2.readable
      by_cases hread : p.disk.Readable id
      · have hpage : exec (onDisk (Disk.readPage id)) (p.taken f) =
            (.ok ((p.taken f).disk.file id), p.taken f) := by
          rw [exec_onDisk, Disk.exec_readPage (hreadable.mpr hread)]
        rw [exec_bind_ok hpage, exec_bind_ok (exec_install ..), exec_pure]
        exact .loaded hid ht hread
      · obtain ⟨e, -, herr⟩ := Disk.exec_readPage_error (mt hreadable.mp hread)
        rw [exec_bind_error (by rw [exec_onDisk, herr])]
        exact .unreadable ht hread

/-- The pool after a new page was put into the frame that was taken for it. -/
def made (p : BufferPool δ) (id : PageId) (f : FrameId) : BufferPool δ :=
  (p.taken f).installed id f
    { page := { Page.clear with pageId := id }, pinCount := 1, isDirty := true, inUse := true }

/-- `new_page` gives out a frame with the new page, or it ends in its assertion. -/
theorem Coherent.newFrame_cases (h : Coherent v p) (hpos : ∀ id, v.live id → 0 ≤ id) (id : PageId) :
    (∃ e, e.ends = true ∧ exec (BufferPool.newFrame id) p = (.error e, p)) ∨
      ∃ f, p.takes = some f ∧ exec (BufferPool.newFrame id) p = (.ok (some (id, f)), p.made id f) := by
  rw [BufferPool.newFrame]
  cases ht : p.takes with
  | none =>
    rw [exec_bind_ok (h.findFreeFrame_none hpos ht)]
    exact .inl ⟨.assertion _, rfl, rfl⟩
  | some f =>
    rw [exec_bind_ok (exec_findFreeFrame h.lru_inUse ht)]
    exact .inr ⟨f, rfl, exec_bind_ok (exec_install ..) _⟩

end Take

/-! ## The calls -/

/-- One more pin of a live page, and a pointer to its frame. -/
structure View.Pin (v v' : View δ) (id : PageId) (f : FrameId) : Prop where
  other : ∀ i, i ≠ id → v.Agree v' i
  live : v'.live id
  image : ∀ page, v'.image id page ↔ v.image id page
  pins : ∀ n, v.pins id n → v'.pins id (n + 1)
  first : (∀ g, ¬ v.held id g) → v'.pins id 1
  held : ∀ g, v'.held id g → g = f ∨ v.held id g
  pending : v'.pending id ↔ v.pending id

/-- A new page with one pin. -/
structure View.New [PageData δ] (v v' : View δ) (id : PageId) (f : FrameId) : Prop where
  other : ∀ i, i ≠ id → v.Agree v' i
  live : v'.live id
  image : v'.image id { Page.clear with pageId := id }
  pins : v'.pins id 1
  held : ∀ g, v'.held id g → g = f

/-- One pin less; without `dirty` there was no change through it. -/
structure View.Unpin (v v' : View δ) (id : PageId) (dirty : Bool) : Prop where
  other : ∀ i, i ≠ id → v.Agree v' i
  live : v'.live id ↔ v.live id
  image : ∀ page, v'.image id page ↔ v.image id page
  pins : ∀ n, v.pins id n → v'.pins id (n - 1)
  held : ∀ g, v'.held id g → v.held id g
  pending : dirty = false → v.pending id → v'.pending id

/-- The pool after `delete_page` has dropped the page; its id is still to be freed. -/
def dropped [PageData δ] (p : BufferPool δ) (id : PageId) : BufferPool δ :=
  match p.pageTable.lookup id with
  | none => p
  | some f => (p.setFrame f { p.frames f with isDirty := false }).evicted f

theorem dropped_disk [PageData δ] (p : BufferPool δ) (id : PageId) :
    (p.dropped id).disk = p.disk := by
  unfold dropped
  split
  · rfl
  · simp [evicted, setFrame]

namespace Coherent

variable {v v' : View δ} {p : BufferPool δ} {id : PageId} {f : FrameId}

theorem unpinPage (h : Coherent v p) {dirty : Bool} (hid : p.pageTable.lookup id = some f)
    (hv : v.Unpin v' id dirty) : ∃ p', exec (BufferPool.unpinPage id dirty) p = (.ok (), p') ∧
      p'.disk = p.disk ∧ Coherent v' p' := by
  have hfiled := h.filed hid
  refine ⟨p.setFrame f { p.frames f with pinCount := (p.frames f).pinCount - 1,
                                         isDirty := dirty || (p.frames f).isDirty }, ?_, rfl, ?_⟩
  · rw [BufferPool.unpinPage, exec_modify, hid]
  · refine h.update hid hv.other (fun _ _ => rfl) ⟨hv.live.mpr hfiled.live, hfiled.inUse,
      (hv.image _).mpr hfiled.image, hv.pins _ hfiled.pins, ?_⟩ ?_
    · intro hclean hpending
      obtain ⟨hdirty, hclean⟩ := Bool.or_eq_false_iff.mp hclean
      exact (hv.image _).mpr (hfiled.clean hclean (mt (hv.pending hdirty) hpending))
    · intro g hg
      have hlook := h.held (hv.held g hg)
      rw [hid] at hlook
      exact (Option.some.inj hlook).symm

/-- A flushed frame is clean, and no other frame gets dirty. -/
theorem flushFrame (h : Coherent v p) (hpos : ∀ id, v.live id → 0 ≤ id)
    (hid : p.pageTable.lookup id = some f) :
    ∃ p', exec (BufferPool.flushFrame id f) p = (.ok (), p') ∧ Coherent v p' ∧
      WritesTo v p.disk p'.disk ∧ p'.pageTable = p.pageTable ∧ (p'.frames f).isDirty = false ∧
      ∀ g, (p.frames g).isDirty = false → (p'.frames g).isDirty = false := by
  have hfiled := h.filed hid
  cases hdirty : (p.frames f).isDirty with
  | false =>
    refine ⟨p, ?_, h, .refl v _, rfl, hdirty, fun _ hg => hg⟩
    simp only [BufferPool.flushFrame, exec_get_bind, hdirty]
    rfl
  | true =>
    have hwrite := Disk.exec_writePage (d := p.disk) (hpos id hfiled.live) (p.frames f).page
    refine ⟨{ p.setFrame f { p.frames f with isDirty := false } with
        disk := { p.disk with writes := p.disk.writes ++ [(id, (p.frames f).page)] } }, ?_, ?_,
      .write hfiled.live hfiled.image, rfl, ?_, ?_⟩
    · simp only [BufferPool.flushFrame, exec_get_bind, hdirty, if_pos]
      rw [exec_bind_ok (by rw [exec_onDisk, hwrite]), exec_modify]
      rfl
    · refine h.update hid (fun i _ => .refl v i) (fun i hne => Disk.file_write_of_ne _ hne _)
        ⟨hfiled.live, hfiled.inUse, hfiled.image, hfiled.pins, ?_⟩ ?_
      · intro _ _
        rw [Disk.file_write_self]
        exact hfiled.image
      · intro g hg
        have hlook := h.held hg
        rw [hid] at hlook
        exact (Option.some.inj hlook).symm
    · simp [setFrame]
    · intro g hg
      by_cases e : g = f
      · subst e
        simp [setFrame]
      · simpa only [setFrame, Function.update_of_ne e] using hg

theorem flushPage (h : Coherent v p) (hpos : ∀ id, v.live id → 0 ≤ id) (id : PageId) :
    ∃ r p', exec (BufferPool.flushPage id) p = (.ok r, p') ∧ Coherent v p' ∧
      WritesTo v p.disk p'.disk := by
  simp only [BufferPool.flushPage, exec_get_bind]
  cases hid : p.pageTable.lookup id with
  | none => exact ⟨false, p, rfl, h, .refl v _⟩
  | some f =>
    obtain ⟨p', hexec, hcoh, hwrites, -⟩ := h.flushFrame hpos hid
    exact ⟨true, p', exec_bind_ok hexec _, hcoh, hwrites⟩

theorem flushAll (h : Coherent v p) (hpos : ∀ id, v.live id → 0 ≤ id) (order : List PageId) :
    ∃ p', exec (BufferPool.flushAll order) p = (.ok (), p') ∧ Coherent v p' ∧
      WritesTo v p.disk p'.disk ∧ p'.pageTable = p.pageTable ∧
      (∀ g, (p.frames g).isDirty = false → (p'.frames g).isDirty = false) ∧
      ∀ i ∈ order, ∀ g, p.pageTable.lookup i = some g → (p'.frames g).isDirty = false := by
  induction order generalizing p with
  | nil => exact ⟨p, rfl, h, .refl v _, rfl, fun _ hg => hg, nofun⟩
  | cons id order ih =>
    simp only [BufferPool.flushAll, exec_get_bind]
    cases hid : p.pageTable.lookup id with
    | none =>
      obtain ⟨p', hexec, hcoh, hwrites, htable, hclean, hall⟩ := ih h
      refine ⟨p', hexec, hcoh, hwrites, htable, hclean, fun i hi g hg => ?_⟩
      rcases List.mem_cons.mp hi with rfl | hi
      · rw [hid] at hg
        cases hg
      · exact hall i hi g hg
    | some f =>
      obtain ⟨p₁, hflush, hcoh₁, hwrites₁, htable₁, hf, hclean₁⟩ := h.flushFrame hpos hid
      obtain ⟨p', hexec, hcoh, hwrites, htable, hclean, hall⟩ := ih hcoh₁
      refine ⟨p', (exec_bind_ok hflush _).trans hexec, hcoh, hwrites₁.trans hwrites,
        htable.trans htable₁, fun g hg => hclean g (hclean₁ g hg), fun i hi g hg => ?_⟩
      rcases List.mem_cons.mp hi with rfl | hi
      · rw [hid] at hg
        cases hg
        exact hclean f hf
      · exact hall i hi g (by rw [htable₁]; exact hg)

/-- After `flush_all` the file alone shows the view, if nothing is pending. -/
theorem flushAll_file (h : Coherent v p) (hpos : ∀ id, v.live id → 0 ≤ id) {order : List PageId}
    (horder : ∀ id ∈ p.pageTable, id ∈ order) (hpending : ∀ id, ¬ v.pending id) :
    ∃ p', exec (BufferPool.flushAll order) p = (.ok (), p') ∧ Coherent v p' ∧
      WritesTo v p.disk p'.disk ∧ ∀ id, v.live id → v.image id (p'.disk.file id) := by
  obtain ⟨p', hexec, hcoh, hwrites, htable, -, hall⟩ := h.flushAll hpos order
  refine ⟨p', hexec, hcoh, hwrites, fun id hlive => ?_⟩
  cases hid : p.pageTable.lookup id with
  | none => exact hcoh.absent hlive (by rw [htable]; exact hid)
  | some f =>
    have hmem : id ∈ p.pageTable := Finmap.lookup_isSome.mp (by rw [hid]; rfl)
    exact (hcoh.filed (by rw [htable]; exact hid)).clean (hall id (horder id hmem) f hid)
      (hpending id)

variable [PageData δ]

omit [PageData δ] in
theorem hit (h : Coherent v p) (hid : p.pageTable.lookup id = some f) (hv : v.Pin v' id f) :
    Coherent v' (p.hit f) := by
  have hfiled := h.filed hid
  have hframe : Filed v' p.disk id { p.frames f with pinCount := (p.frames f).pinCount + 1 } := by
    refine ⟨hv.live, hfiled.inUse, (hv.image _).mpr hfiled.image, hv.pins _ hfiled.pins,
      fun hclean hpending => ?_⟩
    exact (hv.image _).mpr (hfiled.clean hclean (mt hv.pending.mpr hpending))
  refine (h.update hid hv.other (fun _ _ => rfl) hframe fun g hg => ?_).touch hid
  rcases hv.held g hg with rfl | hold
  · rfl
  · have hlook := h.held hold
    rw [hid] at hlook
    exact (Option.some.inj hlook).symm

theorem loaded (h : Coherent v p) (hid : p.pageTable.lookup id = none) (ht : p.takes = some f)
    (himage : v.image id ((p.taken f).disk.file id)) (hv : v.Pin v' id f) :
    Coherent v' (p.loaded id f) := by
  obtain ⟨hcoh, hvac, -⟩ := h.taken ht
  have hnot : ∀ g, ¬ v.held id g := by
    intro g hg
    have := h.held hg
    rw [hid] at this
    cases this
  refine hcoh.installed hvac (Placed.lookup_taken_none hid) hv.other ⟨hv.live, rfl,
    (hv.image _).mpr himage, hv.first hnot, fun _ _ => (hv.image _).mpr himage⟩ fun g hg => ?_
  exact (hv.held g hg).resolve_right (hnot g)

theorem made (h : Coherent v p) (hlive : ¬ v.live id) (ht : p.takes = some f)
    (hv : v.New v' id f) : Coherent v' (p.made id f) := by
  have hid : p.pageTable.lookup id = none := by
    cases hid : p.pageTable.lookup id with
    | none => rfl
    | some f => exact (hlive (h.filed hid).live).elim
  obtain ⟨hcoh, hvac, -⟩ := h.taken ht
  exact hcoh.installed hvac (Placed.lookup_taken_none hid) hv.other
    ⟨hv.live, rfl, hv.image, hv.pins, fun hdirty => by cases hdirty⟩ hv.held

theorem fetchPage (h : Coherent v p) (hpos : ∀ id, v.live id → 0 ≤ id) (hlive : v.live id)
    (hread : p.disk.Readable id) :
    exec (BufferPool.fetchPage id) p = (.ok none, p) ∨
      ∃ f p', exec (BufferPool.fetchPage id) p = (.ok (some f), p') ∧ WritesTo v p.disk p'.disk ∧
        v.image id (p'.frames f).page ∧ ∀ v', v.Pin v' id f → Coherent v' p' := by
  have hfetched := h.fetched hpos id
  generalize exec (BufferPool.fetchPage id) p = r at hfetched ⊢
  cases hfetched with
  | full => exact .inl rfl
  | @hit f hid =>
    refine .inr ⟨f, _, rfl, .refl v _, ?_, fun v' hv => h.hit hid hv⟩
    simpa [BufferPool.hit, setFrame] using (h.filed hid).image
  | @loaded f hid ht =>
    obtain ⟨hcoh, -, hwrites⟩ := h.taken ht
    have himage := hcoh.absent hlive (Placed.lookup_taken_none hid)
    refine .inr ⟨f, _, rfl, hwrites, ?_, fun v' hv => h.loaded hid ht himage hv⟩
    simpa [BufferPool.loaded, BufferPool.installed] using himage
  | unreadable _ hbad => exact (hbad hread).elim

theorem newFrame (h : Coherent v p) (hpos : ∀ id, v.live id → 0 ≤ id) (hlive : ¬ v.live id) :
    (∃ e, e.ends = true ∧ exec (BufferPool.newFrame id) p = (.error e, p)) ∨
      ∃ f p', exec (BufferPool.newFrame id) p = (.ok (some (id, f)), p') ∧
        WritesTo v p.disk p'.disk ∧ ∀ v', v.New v' id f → Coherent v' p' := by
  rcases h.newFrame_cases hpos id with herr | ⟨f, ht, hexec⟩
  · exact .inl herr
  · exact .inr ⟨f, _, hexec, (h.taken ht).2.2, fun v' hv => h.made hlive ht hv⟩

/-- The page is in no frame, or in one that is not pinned: it goes without being written back. -/
theorem exec_deletePage (h : Coherent v p)
    (hpin : ∀ f, p.pageTable.lookup id = some f → (p.frames f).pinCount = 0) :
    exec (BufferPool.deletePage id) p = exec (onDisk (Disk.free id)) (p.dropped id) := by
  unfold BufferPool.dropped
  cases hid : p.pageTable.lookup id with
  | none => exact deletePage_miss hid
  | some f =>
    have hevict := exec_evictFrame (p := p.setFrame f { p.frames f with isDirty := false })
      (f := f) (by simpa [setFrame] using (h.filed hid).inUse)
      (by simpa [setFrame] using hpin f hid)
    rw [if_neg (by simp [setFrame])] at hevict
    simp only [BufferPool.deletePage, exec_get_bind, hid, if_neg (not_not.mpr (hpin f hid)),
      exec_set_bind]
    exact exec_bind_ok hevict _

theorem dropped (h : Coherent v p) (hv : ∀ i, i ≠ id → v.Agree v' i) (hlive : ¬ v'.live id)
    (hheld : ∀ g, ¬ v'.held id g) : Coherent v' (p.dropped id) := by
  unfold BufferPool.dropped
  cases hid : p.pageTable.lookup id with
  | none =>
    refine ⟨fun {i f} hi => ?_, fun {i} hi hnone => ?_, fun {i f} hi => ?_, h.lru_nodup,
      h.lru_filed, h.free_nodup, h.free_unfiled⟩
    · have hne : i ≠ id := by rintro rfl; rw [hid] at hi; cases hi
      exact (h.filed hi).congr (hv i hne) rfl
    · have hne : i ≠ id := by rintro rfl; exact hlive hi
      exact ((hv i hne).image _).mpr (h.absent ((hv i hne).live.mp hi) hnone)
    · have hne : i ≠ id := by rintro rfl; exact hheld f hi
      exact h.held (((hv i hne).held f).mp hi)
  | some f =>
    have hgone : Coherent v' ((p.setFrame f { p.frames f with isDirty := false }).evicted f) ∧
        Vacant ((p.setFrame f { p.frames f with isDirty := false }).evicted f) f := by
      refine h.unfiled hid hv (fun g hg => ?_) ?_ rfl rfl (fun i _ => ?_)
        (fun hl => (hlive hl).elim) hheld
      · simp [BufferPool.evicted, setFrame, hg]
      · simp [BufferPool.evicted, setFrame, (h.filed hid).header]
      · simp [BufferPool.evicted, setFrame]
    exact hgone.1

/-- `delete_page` drops the page without writing it back; then its id is freed. -/
theorem deletePage (h : Coherent v p)
    (hpin : ∀ f, p.pageTable.lookup id = some f → (p.frames f).pinCount = 0) :
    ∃ p₁, exec (BufferPool.deletePage id) p = exec (onDisk (Disk.free id)) p₁ ∧ p₁.disk = p.disk ∧
      ∀ v', (∀ i, i ≠ id → v.Agree v' i) → ¬ v'.live id → (∀ g, ¬ v'.held id g) →
        Coherent v' p₁ :=
  ⟨p.dropped id, h.exec_deletePage hpin, p.dropped_disk id, fun _ hv hlive hheld =>
    h.dropped hv hlive hheld⟩

end Coherent

/-! ## Calls that return -/

/-- The result of a call that returns, and the pool after it. -/
def returned {α : Type} (x : PoolM δ α) (p : BufferPool δ) : Option (α × BufferPool δ) :=
  match exec x p with
  | (.ok a, p') => some (a, p')
  | (.error _, _) => none

theorem returned_eq_some {α : Type} {x : PoolM δ α} {p p' : BufferPool δ} {a : α} :
    returned x p = some (a, p') ↔ exec x p = (.ok a, p') := by
  rw [returned]
  split
  · next heq => rw [heq]; simp
  · next heq => rw [heq]; simp

theorem guard_bind_eq_some {α β : Type} {c : Prop} [Decidable c] {x : Option α} {f : α → Option β}
    {b : β} : (guard c >>= fun _ => x >>= f) = some b ↔ c ∧ ∃ a, x = some a ∧ f a = some b := by
  by_cases hc : c
  · simp [hc, guard, Option.bind_eq_some_iff]
  · simp [hc, guard]

/-- `delete_page` returns only for a page that is not pinned. -/
theorem unpinned_of_deletePage [PageData δ] {p p' : BufferPool δ} {id : PageId} {r : Unit}
    (hexec : exec (BufferPool.deletePage id) p = (.ok r, p')) :
    ∀ f, p.pageTable.lookup id = some f → (p.frames f).pinCount = 0 := by
  intro f hid
  by_contra hpin
  simp only [BufferPool.deletePage, exec_get_bind, hid, if_pos hpin, exec_throw_bind] at hexec
  cases hexec

end BufferPool

/-! ## The ids -/

namespace Disk

variable {δ : Type} {live : PageId → Prop} {d : Disk δ}

/-- The free pages and the live ones are different pages of the file, and page 0 is neither. -/
structure Accounted (live : PageId → Prop) (d : Disk δ) : Prop where
  free_nodup : d.freePages.Nodup
  free_not_live : ∀ id ∈ d.freePages, ¬ live id
  range : ∀ id, live id ∨ id ∈ d.freePages → 0 < id ∧ id < d.numPages
  length_le : d.freePages.length ≤ MAX_FREE_PAGES
  faults : ∀ id, d.faults id = none
  header : 0 < d.numPages

theorem Accounted.congr {d' : Disk δ} (h : Accounted live d) (hfree : d'.freePages = d.freePages)
    (hnum : d'.numPages = d.numPages) (hfaults : d'.faults = d.faults) : Accounted live d' where
  free_nodup := by rw [hfree]; exact h.free_nodup
  free_not_live := by rw [hfree]; exact h.free_not_live
  range := by rw [hfree, hnum]; exact h.range
  length_le := by rw [hfree]; exact h.length_le
  faults := by rw [hfaults]; exact h.faults
  header := by rw [hnum]; exact h.header

theorem Accounted.writesTo {v : BufferPool.View δ} {d' : Disk δ} (h : Accounted live d)
    (hd : BufferPool.WritesTo v d d') : Accounted live d' :=
  h.congr hd.freePages hd.numPages hd.faults

variable [PageData δ]

/-- The file after `allocate_page`. -/
def grown (d : Disk δ) : Disk δ :=
  { d with numPages := d.numPages + 1, writes := d.writes ++ [((d.numPages : Int), Page.clear)] }

/-- The file after a recycled page was taken. -/
def popped (d : Disk δ) : Disk δ := saved { d with freePages := d.freePages.dropLast }

/-- The file after a page was freed. -/
def pushed (d : Disk δ) (id : PageId) : Disk δ := saved { d with freePages := d.freePages ++ [id] }

/-- The id that `new_page` gives out, and the file after that. -/
inductive Gives (d : Disk δ) : PageId → Disk δ → Prop
  | grow : d.freePages = [] → Gives d d.numPages d.grown
  | reuse {id : PageId} : d.freePages = d.freePages.dropLast ++ [id] → Gives d id d.popped

/-- `free` returns only while the list is not full. -/
theorem length_lt_of_free {id : PageId} {r : Unit} (h : (exec (free id) d).1 = .ok r) :
    d.freePages.length < MAX_FREE_PAGES := by
  by_contra hlen
  simp only [free, exec_get_bind, if_pos (Nat.not_lt.mp hlen), exec_throw_bind] at h
  cases h

namespace Accounted

omit [PageData δ] in
theorem readable_zero (h : Accounted live d) : d.Readable 0 :=
  ⟨le_rfl, by exact_mod_cast h.header, by rw [h.faults]; rfl⟩

omit [PageData δ] in
theorem readable (h : Accounted live d) {id : PageId} (hid : live id) : d.Readable id := by
  obtain ⟨hlo, hhi⟩ := h.range id (Or.inl hid)
  exact ⟨hlo.le, hhi, by rw [h.faults]; rfl⟩

/-- A list of free pages that was saved. -/
theorem saved (h : Accounted live d) {live' : PageId → Prop} {free : List PageId}
    (hnodup : free.Nodup) (hlive : ∀ id ∈ free, ¬ live' id)
    (hids : ∀ id, live' id ∨ id ∈ free → live id ∨ id ∈ d.freePages)
    (hlen : free.length ≤ MAX_FREE_PAGES) : Accounted live' (saved { d with freePages := free }) where
  free_nodup := hnodup
  free_not_live := hlive
  range id hid := h.range id (hids id hid)
  length_le := hlen
  faults := h.faults
  header := h.header

theorem newPageId (h : Accounted live d) :
    ∃ id d', exec newPageId d = (.ok id, d') ∧ d.Gives id d' := by
  cases hlast : d.freePages.getLast? with
  | none =>
    have hnil := List.getLast?_eq_none_iff.mp hlast
    exact ⟨_, _, exec_newPageId_grow hnil, .grow hnil⟩
  | some id =>
    have heq : d.freePages = d.freePages.dropLast ++ [id] := by
      obtain ⟨l, hl⟩ := List.getLast?_eq_some_iff.mp hlast
      rw [hl, List.dropLast_concat]
    have hpos : id ≠ INVALID_PAGE_ID := by
      have hmem : id ∈ d.freePages := by rw [heq]; simp
      intro e
      have hlt := (h.range id (Or.inr hmem)).1
      rw [e] at hlt
      exact absurd hlt (by decide)
    have hlen : d.freePages.dropLast.length ≤ MAX_FREE_PAGES := by
      rw [List.length_dropLast]
      exact Nat.le_trans (Nat.sub_le _ _) h.length_le
    have hsave := exec_save (d := { d with freePages := d.freePages.dropLast }) h.readable_zero hlen
    have halloc : exec allocate d = (.ok id, d.popped) := by
      simp only [allocate, exec_get_bind, hlast, exec_set_bind]
      exact (exec_bind_ok hsave _).trans (exec_pure _ _)
    refine ⟨id, d.popped, ?_, .reuse heq⟩
    rw [Disk.newPageId, exec_bind_ok halloc, if_neg hpos, exec_pure]

/-- An id that is given out is that of a new page, and the pages that were there keep theirs. -/
theorem gives (h : Accounted live d) {id : PageId} {d' : Disk δ} (hd : d.Gives id d') :
    (¬ live id ∧ 0 < id) ∧ (∀ i, live i → d'.file i = d.file i) ∧
      ∀ live' : PageId → Prop, (∀ i, live' i ↔ i = id ∨ live i) → Accounted live' d' := by
  cases hd with
  | grow hnil =>
    have hnew : ¬ live d.numPages := fun hl => lt_irrefl _ (h.range _ (Or.inl hl)).2
    refine ⟨⟨hnew, by exact_mod_cast h.header⟩, fun i hi => file_write_of_ne _ ?_ _, ?_⟩
    · rintro rfl
      exact hnew hi
    · intro live' hlive'
      have hnil' : d.grown.freePages = [] := hnil
      refine ⟨by rw [hnil']; exact List.nodup_nil, by rw [hnil']; nofun, fun i hi => ?_,
        by rw [hnil']; exact Nat.zero_le _, h.faults, Nat.succ_pos _⟩
      have hsucc : (d.numPages : Int) < (d.grown.numPages : Nat) := by
        exact_mod_cast Nat.lt_succ_self d.numPages
      rw [hnil', hlive'] at hi
      rcases hi with (rfl | hi) | hi
      · exact ⟨by exact_mod_cast h.header, hsucc⟩
      · obtain ⟨hlo, hhi⟩ := h.range i (Or.inl hi)
        exact ⟨hlo, hhi.trans hsucc⟩
      · cases hi
  | reuse heq =>
    have hmem : id ∈ d.freePages := by rw [heq]; simp
    have hsub : ∀ i ∈ d.freePages.dropLast, i ∈ d.freePages :=
      fun i hi => List.dropLast_subset _ hi
    refine ⟨⟨h.free_not_live id hmem, (h.range id (Or.inr hmem)).1⟩,
      fun i hi => file_write_of_ne _ ?_ _, fun live' hlive' => ?_⟩
    · exact ne_of_gt (h.range i (Or.inl hi)).1
    · have hnodup := h.free_nodup
      rw [heq] at hnodup
      have hne : ∀ i ∈ d.freePages.dropLast, i ≠ id := fun i hi =>
        (List.nodup_append.mp hnodup).2.2 i hi id (List.mem_singleton_self id)
      refine h.saved (List.nodup_append.mp hnodup).1 (fun i hi hl => ?_) (fun i hi => ?_) ?_
      · rcases (hlive' i).mp hl with rfl | hl
        · exact hne i hi rfl
        · exact h.free_not_live i (hsub i hi) hl
      · rcases hi with hi | hi
        · rcases (hlive' i).mp hi with rfl | hi
          · exact Or.inr hmem
          · exact Or.inl hi
        · exact Or.inr (hsub i hi)
      · rw [List.length_dropLast]
        exact Nat.le_trans (Nat.sub_le _ _) h.length_le

theorem exec_free (h : Accounted live d) (id : PageId) (hlen : d.freePages.length < MAX_FREE_PAGES) :
    exec (free id) d = (.ok (), d.pushed id) := by
  have hlen' : (d.freePages ++ [id]).length ≤ MAX_FREE_PAGES := by
    rw [List.length_append]
    exact hlen
  simp only [free, exec_get_bind, if_neg (Nat.not_le.mpr hlen), exec_set_bind]
  exact exec_save (d := { d with freePages := d.freePages ++ [id] }) h.readable_zero hlen'

/-- A live page is freed. -/
theorem pushed (h : Accounted live d) {id : PageId} (hid : live id)
    (hlen : d.freePages.length < MAX_FREE_PAGES) :
    (∀ i, live i → (d.pushed id).file i = d.file i) ∧
      ∀ live' : PageId → Prop, (∀ i, live' i ↔ i ≠ id ∧ live i) →
        Accounted live' (d.pushed id) := by
  refine ⟨fun i hi => file_write_of_ne _ (ne_of_gt (h.range i (Or.inl hi)).1) _,
    fun live' hlive' => h.saved ?_ (fun i hi hl => ?_) (fun i hi => ?_) ?_⟩
  · refine List.nodup_append.mpr ⟨h.free_nodup, List.nodup_singleton id, ?_⟩
    rintro i hi _ hid' rfl
    rw [List.mem_singleton.mp hid'] at hi
    exact h.free_not_live id hi hid
  · obtain ⟨hne, hl⟩ := (hlive' i).mp hl
    rcases List.mem_append.mp hi with hi | hi
    · exact h.free_not_live i hi hl
    · exact hne (List.mem_singleton.mp hi)
  · rcases hi with hi | hi
    · exact Or.inl ((hlive' i).mp hi).2
    · rcases List.mem_append.mp hi with hi | hi
      · exact Or.inr hi
      · rw [List.mem_singleton.mp hi]
        exact Or.inl hid
  · rw [List.length_append]
    exact hlen

end Accounted

/-! ### Files that cannot be read -/

omit [PageData δ] in
/-- The file as it is when all of it can be read. -/
def mended (d : Disk δ) : Disk δ := { d with faults := fun _ => none }

omit [PageData δ] in
theorem writesTo_mended {v : BufferPool.View δ} {d d' : Disk δ} (h : BufferPool.WritesTo v d d') :
    BufferPool.WritesTo v d.mended d'.mended := by
  obtain ⟨ws, rfl, hws⟩ := h
  exact ⟨ws, rfl, hws⟩

theorem Gives.mended {d d' : Disk δ} {id : PageId} (h : d.Gives id d') :
    d.mended.Gives id d'.mended := by
  cases h with
  | grow hnil => exact .grow hnil
  | reuse heq => exact .reuse heq

/-- `new_page` is given an id, or page 0 could not be changed and the id it was to get is lost. -/
theorem newPageId_cases {live : PageId → Prop} {d : Disk δ} (h : d.mended.Accounted live) :
    (∃ id d', exec newPageId d = (.ok id, d') ∧ d.Gives id d') ∨
      ∃ e, exec newPageId d = (.error e, { d with freePages := d.freePages.dropLast }) := by
  cases hlast : d.freePages.getLast? with
  | none =>
    have hnil := List.getLast?_eq_none_iff.mp hlast
    exact .inl ⟨_, _, exec_newPageId_grow hnil, .grow hnil⟩
  | some id =>
    obtain ⟨l, hl⟩ := List.getLast?_eq_some_iff.mp hlast
    have heq : d.freePages = d.freePages.dropLast ++ [id] := by rw [hl, List.dropLast_concat]
    have hpos : id ≠ INVALID_PAGE_ID := by
      rintro rfl
      have hmem : INVALID_PAGE_ID ∈ d.freePages := by
        rw [hl]
        exact List.mem_append_right _ List.mem_cons_self
      exact absurd (h.range _ (.inr hmem)).1 (by decide)
    have hlen : d.freePages.dropLast.length ≤ MAX_FREE_PAGES := by
      rw [List.length_dropLast]
      exact Nat.le_trans (Nat.sub_le _ _) h.length_le
    by_cases hread : d.Readable 0
    · have hsave := exec_save (d := { d with freePages := d.freePages.dropLast }) hread hlen
      refine .inl ⟨id, d.popped, ?_, .reuse heq⟩
      have halloc : exec allocate d = (.ok id, d.popped) := by
        simp only [allocate, exec_get_bind, hlast, exec_set_bind]
        exact (exec_bind_ok hsave _).trans (exec_pure _ _)
      rw [newPageId, exec_bind_ok halloc, if_neg hpos, exec_pure]
    · obtain ⟨e, he, -⟩ := exec_save_error (d := { d with freePages := d.freePages.dropLast })
        fun hok => hread hok.1
      refine .inr ⟨e, exec_bind_error ?_ _⟩
      simp only [allocate, exec_get_bind, hlast, exec_set_bind]
      exact exec_bind_error he _

/-- `free` takes the id into the list, or it fails its assertion; page 0 may stay as it was. -/
theorem free_cases (d : Disk δ) (id : PageId) :
    (∃ e, e.ends = true ∧ exec (free id) d = (.error e, d)) ∨
      d.freePages.length < MAX_FREE_PAGES ∧ ∃ r d', exec (free id) d = (r, d') ∧
        (d' = d.pushed id ∨ d' = { d with freePages := d.freePages ++ [id] }) := by
  by_cases hfull : MAX_FREE_PAGES ≤ d.freePages.length
  · simp only [free, exec_get_bind, if_pos hfull, exec_throw_bind]
    exact .inl ⟨_, rfl, rfl⟩
  · refine .inr ⟨Nat.not_le.mp hfull, ?_⟩
    simp only [free, exec_get_bind, if_neg hfull, exec_set_bind]
    have hlen : (d.freePages ++ [id]).length ≤ MAX_FREE_PAGES := by
      rw [List.length_append]
      exact Nat.not_le.mp hfull
    by_cases hread : d.Readable 0
    · exact ⟨_, _, exec_save (d := { d with freePages := d.freePages ++ [id] }) hread hlen, .inl rfl⟩
    · obtain ⟨e, he, -⟩ := exec_save_error (d := { d with freePages := d.freePages ++ [id] })
        fun hok => hread hok.1
      exact ⟨_, _, he, .inr rfl⟩

omit [PageData δ] in
theorem Accounted.mono {live live' : PageId → Prop} {d : Disk δ} (h : d.Accounted live)
    (hsub : ∀ id, live' id → live id) : d.Accounted live' where
  free_nodup := h.free_nodup
  free_not_live id hid hlive := h.free_not_live id hid (hsub id hlive)
  range id hid := h.range id (hid.imp_left (hsub id))
  length_le := h.length_le
  faults := h.faults
  header := h.header

end Disk

end KeyVDB
