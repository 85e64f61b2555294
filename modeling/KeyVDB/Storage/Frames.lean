import KeyVDB.Storage.BufferPool
import KeyVDB.Lib.Run
import Mathlib.Data.Finset.Card
import Mathlib.Data.Fintype.Card

/-!
# Frame conservation

The frames of the pool move between the free frames, the page table and the caller of
`find_free_frame`. `Conserved` says that every frame is in exactly one place. `evict_frame` does
not put the frame back among the free ones, which is right where `find_free_frame` hands the
frame to its caller and wrong everywhere else; `conserved_along_iff` says which calls keep the
frames together.
-/

namespace KeyVDB

namespace BufferPool

variable {δ : Type}

/-! ## The calls -/

/-- The calls of the pool, what a client does through a `Page*`, and read errors. -/
inductive PoolCall (δ : Type)
  | fetchPage (id : PageId)
  | newPage
  | unpinPage (id : PageId) (dirty : Bool)
  | flushPage (id : PageId)
  | flushAll (order : List PageId)
  | deletePage (id : PageId)
  | write (f : FrameId) (page : Page δ)  -- any change to the page in a frame
  | fault (faults : PageId → Option ReadFault)  -- from now on these reads fail

section Step

variable [PageData δ]

/-- The state after a call; `none` if an assertion fails. -/
def after {α : Type} (x : PoolM δ α) (p : BufferPool δ) : Option (BufferPool δ) :=
  match exec x p with
  | (.ok _, p') => some p'
  | (.error e, p') => if e.ends then none else some p'

def poolStep (p : BufferPool δ) : PoolCall δ → Option (BufferPool δ)
  | .fetchPage id => after (fetchPage id) p
  | .newPage => after newPage p
  | .unpinPage id dirty => after (unpinPage id dirty) p
  | .flushPage id => after (flushPage id) p
  | .flushAll order => after (flushAll order) p
  | .deletePage id => after (deletePage id) p
  | .write f page => some (p.setFrame f { p.frames f with page })
  | .fault faults => some { p with disk := { p.disk with faults } }

end Step

/-! ## Where a frame is -/

/-- The frame is free: in `free_frames_` once, not in use and in no entry. -/
def Free (p : BufferPool δ) (f : FrameId) : Prop :=
  p.freeFrames.count f = 1 ∧ (p.frames f).inUse = false ∧ ∀ id, p.pageTable.lookup id ≠ some f

/-- The frame is in use and the image of exactly one entry. -/
def Owned (p : BufferPool δ) (f : FrameId) : Prop :=
  p.freeFrames.count f = 0 ∧ (p.frames f).inUse = true ∧ ∃! id, p.pageTable.lookup id = some f

/-- Every frame is free or owned, so the pool has its full capacity. -/
structure Conserved (p : BufferPool δ) : Prop where
  frame : ∀ f, p.Free f ∨ p.Owned f
  size : p.freeFrames.length + p.pageTable.keys.card = POOL_SIZE

/-- The frame that `find_free_frame` can take: a free one, else the victim, unless it is to be
written back under a negative id. -/
def takes (p : BufferPool δ) : Option FrameId :=
  match p.freeFrames.getLast? with
  | some f => some f
  | none => p.victim.filter fun v => ¬ ((p.frames v).isDirty ∧ (p.frames v).page.pageId < 0)

/-- A frame that is recycled is filed under the id in its page's header. -/
def HeaderOk (p : BufferPool δ) (f : FrameId) : Prop :=
  p.freeFrames = [] → p.pageTable.lookup (p.frames f).page.pageId = some f

/-- The calls that keep the frames together. A miss reads its page and recycles a frame that is
filed under its header's id; a new page is not in the pool yet, or in the very frame that is
recycled; a deleted page is not in the pool, unless the call ends in an assertion. -/
def Conserving (p : BufferPool δ) : PoolCall δ → Prop
  | .fetchPage id => p.pageTable.lookup id = none →
      ∀ f, p.takes = some f → p.disk.Readable id ∧ p.HeaderOk f
  | .newPage => ∀ id f, p.disk.nextPage = some id → p.takes = some f →
      p.pageTable.lookup id = none ∧ p.HeaderOk f ∨ p.pageTable.lookup id = some f ∧
        (p.HeaderOk f ∨ p.pageTable.lookup (p.frames f).page.pageId = none)
  | .deletePage id => ∀ f, p.pageTable.lookup id = some f → (p.frames f).pinCount ≠ 0 ∨
      p.disk.numPages = 0 ∨ MAX_FREE_PAGES ≤ p.disk.freePages.length
  | _ => True

/-! ## What the calls do -/

section Exec

variable [PageData δ]

/-- The pool after `evict_frame`. -/
def evicted (p : BufferPool δ) (f : FrameId) : BufferPool δ :=
  { disk := if (p.frames f).isDirty then
        { p.disk with writes := p.disk.writes ++ [((p.frames f).page.pageId, (p.frames f).page)] }
      else p.disk
    frames := Function.update p.frames f { page := Page.clear }
    pageTable := p.pageTable.erase (p.frames f).page.pageId
    freeFrames := p.freeFrames
    lruList := p.lruList.erase f }

theorem exec_evictFrame {p : BufferPool δ} {f : FrameId} (huse : (p.frames f).inUse = true)
    (hpin : (p.frames f).pinCount = 0) :
    exec (evictFrame f) p =
      if (p.frames f).isDirty = true ∧ (p.frames f).page.pageId < 0 then
        (.error (.invalidArgument ("DiskManager::write_page: negative page_id " ++
          toString (p.frames f).page.pageId)), p)
      else (.ok (), p.evicted f) := by
  by_cases hdirty : (p.frames f).isDirty = true
  · by_cases hneg : (p.frames f).page.pageId < 0
    · simp [evictFrame, huse, hpin, hdirty, hneg, Disk.writePage, exec_bind, exec_onDisk]
    · simp [evictFrame, huse, hpin, hdirty, hneg, Disk.writePage, evicted, exec_bind,
        exec_onDisk, setFrame]
  · simp [evictFrame, huse, hpin, hdirty, evicted, exec_bind, setFrame]

/-- The pool after `find_free_frame` took `f`. -/
def taken (p : BufferPool δ) (f : FrameId) : BufferPool δ :=
  if p.freeFrames = [] then p.evicted f else { p with freeFrames := p.freeFrames.dropLast }

/-- The pool after the frame `f` was put to use for the page `id`. -/
def installed (p : BufferPool δ) (id : PageId) (f : FrameId) (frame : Frame δ) : BufferPool δ :=
  { disk := p.disk
    frames := Function.update p.frames f frame
    pageTable := p.pageTable.insert id f
    freeFrames := p.freeFrames
    lruList := f :: p.lruList.erase f }

omit [PageData δ] in
theorem exec_install (p : BufferPool δ) (id : PageId) (f : FrameId) (frame : Frame δ) :
    exec (install id f frame) p = (.ok (), p.installed id f frame) := rfl

section Take

variable {p : BufferPool δ} {f : FrameId}

omit [PageData δ] in
theorem victim_ok (hlru : ∀ g ∈ p.lruList, (p.frames g).inUse = true) (hv : p.victim = some f) :
    (p.frames f).inUse = true ∧ (p.frames f).pinCount = 0 := by
  have hmem : f ∈ p.lruList := List.mem_reverse.mp (List.mem_of_find?_eq_some hv)
  exact ⟨hlru f hmem, by simpa using List.find?_some hv⟩

/-- Where there is no frame to take, `find_free_frame` leaves the pool alone. -/
theorem exec_findFreeFrame_none (hlru : ∀ g ∈ p.lruList, (p.frames g).inUse = true)
    (ht : p.takes = none) :
    exec findFreeFrame p = (.ok none, p) ∨
      ∃ e, e.ends = false ∧ exec findFreeFrame p = (.error e, p) := by
  unfold takes at ht
  cases hfree : p.freeFrames.getLast? with
  | some f => rw [hfree] at ht; cases ht
  | none =>
    rw [hfree] at ht
    cases hv : p.victim with
    | none => left; simp [findFreeFrame, hfree, hv]
    | some v =>
      obtain ⟨huse, hpin⟩ := victim_ok hlru hv
      have hbad : (p.frames v).isDirty = true ∧ (p.frames v).page.pageId < 0 := by
        simpa [hv, Option.filter] using ht
      have hevict := exec_evictFrame huse hpin
      rw [if_pos hbad] at hevict
      right
      simp only [findFreeFrame, exec_get_bind, hfree, hv]
      rw [exec_bind_error hevict]
      exact ⟨_, rfl, rfl⟩

theorem exec_findFreeFrame (hlru : ∀ g ∈ p.lruList, (p.frames g).inUse = true)
    (ht : p.takes = some f) :
    exec findFreeFrame p = (.ok (some f), p.taken f) := by
  unfold takes at ht
  cases hfree : p.freeFrames.getLast? with
  | some g =>
    rw [hfree] at ht
    cases ht
    have hne : p.freeFrames ≠ [] := by rintro e; rw [e] at hfree; cases hfree
    simp only [findFreeFrame, exec_get_bind, hfree, exec_set_bind, exec_pure, taken, if_neg hne]
  | none =>
    rw [hfree] at ht
    obtain ⟨hv, hgood⟩ := Option.filter_eq_some_iff.mp ht
    obtain ⟨huse, hpin⟩ := victim_ok hlru hv
    have hevict := exec_evictFrame huse hpin
    rw [if_neg (of_decide_eq_true hgood)] at hevict
    simp only [findFreeFrame, exec_get_bind, hfree, hv]
    rw [exec_bind_ok hevict, exec_pure, taken, if_pos (List.getLast?_eq_none_iff.mp hfree)]

end Take

end Exec

/-! ## The invariant -/

theorem nodup_touch {lru : List FrameId} (h : lru.Nodup) (f : FrameId) :
    (f :: lru.erase f).Nodup :=
  List.nodup_cons.mpr ⟨h.not_mem_erase, h.erase f⟩

/-- Where a frame is depends on the free frames, the flag `in_use` and the entries for it. -/
theorem place_congr {p p' : BufferPool δ} {f : FrameId} (h : p.Free f ∨ p.Owned f)
    (hfree : p'.freeFrames.count f = p.freeFrames.count f)
    (huse : (p'.frames f).inUse = (p.frames f).inUse)
    (hent : ∀ id, p'.pageTable.lookup id = some f ↔ p.pageTable.lookup id = some f) :
    p'.Free f ∨ p'.Owned f := by
  unfold Free Owned at h ⊢
  simpa only [hfree, huse, hent, ne_eq] using h

/-- Every frame is in its place, and the LRU list holds frames in use, each once. -/
structure Placed (p : BufferPool δ) : Prop where
  frame : ∀ f, p.Free f ∨ p.Owned f
  lru_nodup : p.lruList.Nodup
  lru_inUse : ∀ f ∈ p.lruList, (p.frames f).inUse = true

/-- The same but for the frame `f`, which is in no place: the caller of `find_free_frame`
holds it. -/
structure Held (p : BufferPool δ) (f : FrameId) : Prop where
  rest : ∀ g, g ≠ f → p.Free g ∨ p.Owned g
  taken : p.freeFrames.count f = 0
  idle : (p.frames f).inUse = false
  unfiled : ∀ id, p.pageTable.lookup id ≠ some f
  lru_nodup : p.lruList.Nodup
  lru_inUse : ∀ g ∈ p.lruList, (p.frames g).inUse = true

namespace Placed

variable {p p' : BufferPool δ}

theorem init [PageData δ] (d : Disk δ) : Placed (BufferPool.init d) where
  frame f := by
    left
    refine ⟨List.count_eq_one_of_mem (List.nodup_finRange _) (List.mem_finRange f), rfl, ?_⟩
    intro id h
    simp [BufferPool.init] at h
  lru_nodup := List.nodup_nil
  lru_inUse := nofun

/-- The places are the free frames, the page table, the LRU list and the flags `in_use`. -/
theorem congr (h : Placed p) (huse : ∀ f, (p'.frames f).inUse = (p.frames f).inUse)
    (htable : p'.pageTable = p.pageTable) (hfree : p'.freeFrames = p.freeFrames)
    (hlru : p'.lruList = p.lruList) : Placed p' where
  frame f := place_congr (h.frame f) (by rw [hfree]) (huse f) fun id => by rw [htable]
  lru_nodup := by rw [hlru]; exact h.lru_nodup
  lru_inUse f hf := by
    rw [huse]
    exact h.lru_inUse f (by rwa [hlru] at hf)

theorem inUse_of_lookup (h : Placed p) {id : PageId} {f : FrameId}
    (hid : p.pageTable.lookup id = some f) : (p.frames f).inUse = true := by
  rcases h.frame f with hf | hf
  · exact (hf.2.2 id hid).elim
  · exact hf.2.1

theorem free_of_mem (h : Placed p) {f : FrameId} (hf : f ∈ p.freeFrames) : p.Free f := by
  rcases h.frame f with hfree | hown
  · exact hfree
  · exact (List.count_eq_zero.mp hown.1 hf).elim

theorem free_nodup (h : Placed p) : p.freeFrames.Nodup := by
  rw [List.nodup_iff_count_le_one]
  intro f
  rcases h.frame f with hf | hf
  · exact hf.1.le
  · rw [hf.1]; exact Nat.zero_le 1

/-- The free frames are those not in use, and the page table is a bijection onto the others. -/
theorem conserved (h : Placed p) : p.Conserved where
  frame := h.frame
  size := by
    have hfree : p.freeFrames.toFinset = Finset.univ.filter fun f => (p.frames f).inUse = false := by
      ext f
      rw [List.mem_toFinset, Finset.mem_filter]
      rcases h.frame f with hf | hf
      · simp [hf.2.1, List.count_pos_iff.mp (hf.1 ▸ Nat.one_pos)]
      · simp [hf.2.1, List.count_eq_zero.mp hf.1]
    have hused : p.pageTable.keys.card =
        (Finset.univ.filter fun f => ¬ (p.frames f).inUse = false).card := by
      refine Finset.card_bij (fun id hid => (p.pageTable.lookup id).get ?_) ?_ ?_ ?_
      · exact Finmap.lookup_isSome.mpr (Finmap.mem_keys.mp hid)
      · intro id hid
        have hget := Option.some_get (Finmap.lookup_isSome.mpr (Finmap.mem_keys.mp hid))
        simp [h.inUse_of_lookup hget.symm]
      · intro id hid id' hid' heq
        have hget := Option.some_get (Finmap.lookup_isSome.mpr (Finmap.mem_keys.mp hid))
        have hget' := Option.some_get (Finmap.lookup_isSome.mpr (Finmap.mem_keys.mp hid'))
        rw [← heq] at hget'
        rcases h.frame _ with hf | hf
        · exact (hf.2.2 id hget.symm).elim
        · exact hf.2.2.unique hget.symm hget'.symm
      · intro f hf
        rcases h.frame f with hfree | hown
        · simp [hfree.2.1] at hf
        · obtain ⟨id, hid, -⟩ := hown.2.2
          exact ⟨id, Finmap.mem_keys.mpr (Finmap.lookup_isSome.mp (by rw [hid]; rfl)), by simp [hid]⟩
    rw [← List.toFinset_card_of_nodup h.free_nodup, hfree, hused,
      Finset.card_filter_add_card_filter_not]
    exact Fintype.card_fin POOL_SIZE

/-! ## Taking a frame -/

section Take

variable {f : FrameId}

/-- A frame that is taken from the free frames is the last of them. -/
theorem eq_append_of_takes (ht : p.takes = some f) (hne : p.freeFrames ≠ []) :
    p.freeFrames = p.freeFrames.dropLast ++ [f] := by
  unfold takes at ht
  rw [List.getLast?_eq_some_getLast hne] at ht
  rw [← Option.some.inj ht, List.dropLast_append_getLast]

/-- A recycled frame is a victim. -/
theorem victim_of_takes (ht : p.takes = some f) (hnil : p.freeFrames = []) :
    p.victim = some f := by
  unfold takes at ht
  rw [hnil] at ht
  exact (Option.filter_eq_some_iff.mp ht).1

variable [PageData δ]

/-- The frame that was taken is neither free nor in use. -/
theorem taken_idle (h : Placed p) (ht : p.takes = some f) :
    (p.taken f).freeFrames.count f = 0 ∧ ((p.taken f).frames f).inUse = false := by
  unfold taken
  split
  · next hnil => simp [evicted, hnil]
  · next hne =>
    have heq := eq_append_of_takes ht hne
    have hfree := h.free_of_mem (f := f) (by rw [heq]; simp)
    refine ⟨?_, hfree.2.1⟩
    have hcount := hfree.1
    rw [heq, List.count_append, List.count_singleton_self] at hcount
    exact Nat.succ.inj hcount

theorem lookup_taken_none {id : PageId} (hid : p.pageTable.lookup id = none) :
    (p.taken f).pageTable.lookup id = none := by
  unfold taken
  split
  · by_cases e : id = (p.frames f).page.pageId
    · subst e; exact Finmap.lookup_erase _ p.pageTable
    · rw [evicted, Finmap.lookup_erase_ne e]; exact hid
  · exact hid

/-- A frame that is recycled from under the wrong entry stays in its own entry. -/
theorem lookup_taken_of_not_headerOk (h : Placed p) (ht : p.takes = some f)
    (hbad : ¬ p.HeaderOk f) : ∃ id, (p.taken f).pageTable.lookup id = some f := by
  obtain ⟨hnil, hne⟩ := Classical.not_imp.mp hbad
  have huse := (victim_ok h.lru_inUse (victim_of_takes ht hnil)).1
  rcases h.frame f with hfree | hown
  · rw [hfree.2.1] at huse; cases huse
  · obtain ⟨id, hid, -⟩ := hown.2.2
    refine ⟨id, ?_⟩
    have e : id ≠ (p.frames f).page.pageId := fun e => hne (e ▸ hid)
    rw [taken, if_pos hnil, evicted, Finmap.lookup_erase_ne e]
    exact hid

theorem held_taken (h : Placed p) (ht : p.takes = some f) (hhead : p.HeaderOk f) :
    (p.taken f).Held f := by
  obtain ⟨hcount, hidle⟩ := h.taken_idle ht
  unfold taken at hcount hidle ⊢
  split at hcount
  · next hnil =>
    rw [if_pos hnil] at hidle ⊢
    have hent := hhead hnil
    have hother : ∀ g, g ≠ f → ∀ id, (p.evicted f).pageTable.lookup id = some g ↔
        p.pageTable.lookup id = some g := by
      intro g hg id
      by_cases e : id = (p.frames f).page.pageId
      · subst e
        rw [evicted, Finmap.lookup_erase, hent]
        simp [hg.symm]
      · rw [evicted, Finmap.lookup_erase_ne e]
    refine ⟨fun g hg => ?_, hcount, hidle, fun id hid => ?_, h.lru_nodup.erase f, fun g hg => ?_⟩
    · exact place_congr (h.frame g) rfl (by simp only [evicted, Function.update_of_ne hg])
        (hother g hg)
    · have hne : id ≠ (p.frames f).page.pageId := by
        rintro rfl
        rw [evicted, Finmap.lookup_erase] at hid
        cases hid
      rw [evicted, Finmap.lookup_erase_ne hne] at hid
      rcases h.frame f with hf | hf
      · exact hf.2.2 id hid
      · exact hne (hf.2.2.unique hid hent)
    · have hg' := (h.lru_nodup.mem_erase_iff).mp hg
      simp only [evicted, Function.update_of_ne hg'.1]
      exact h.lru_inUse g hg'.2
  · next hne =>
    rw [if_neg hne] at hidle ⊢
    have heq := eq_append_of_takes ht hne
    have hfree := h.free_of_mem (f := f) (by rw [heq]; simp)
    refine ⟨fun g hg => ?_, hcount, hidle, hfree.2.2, h.lru_nodup, h.lru_inUse⟩
    refine place_congr (h.frame g) ?_ rfl fun _ => Iff.rfl
    conv_rhs => rw [heq]
    simp [hg.symm]

end Take

end Placed

/-- A frame that is put to use under a new id is in its place. -/
theorem Held.installed {p : BufferPool δ} {f : FrameId} (h : p.Held f) {id : PageId}
    (hid : p.pageTable.lookup id = none) {frame : Frame δ} (huse : frame.inUse = true) :
    (p.installed id f frame).Placed where
  frame g := by
    by_cases hg : g = f
    · subst hg
      refine Or.inr ⟨h.taken, by simp [BufferPool.installed, huse], id, Finmap.lookup_insert _, ?_⟩
      intro id' hid'
      by_contra hne
      exact h.unfiled id' (by rwa [BufferPool.installed, Finmap.lookup_insert_of_ne _ hne] at hid')
    · have hother : ∀ id', (p.installed id f frame).pageTable.lookup id' = some g ↔
          p.pageTable.lookup id' = some g := by
        intro id'
        by_cases e : id' = id
        · subst e
          rw [BufferPool.installed, Finmap.lookup_insert, hid]
          simp [Ne.symm hg]
        · rw [BufferPool.installed, Finmap.lookup_insert_of_ne _ e]
      exact place_congr (h.rest g hg) rfl
        (by simp only [BufferPool.installed, Function.update_of_ne hg]) hother
  lru_nodup := nodup_touch h.lru_nodup f
  lru_inUse g hg := by
    by_cases e : g = f
    · subst e
      simp [BufferPool.installed, huse]
    · simp only [BufferPool.installed, Function.update_of_ne e]
      exact h.lru_inUse g (List.mem_of_mem_erase ((List.mem_cons.mp hg).resolve_left e))

/-! ## The calls keep the frames in their places -/

section Calls

variable {p p' : BufferPool δ}

theorem Placed.onDisk (h : Placed p) (d : Disk δ) : Placed { p with disk := d } :=
  h.congr (fun _ => rfl) rfl rfl rfl

/-- A frame that is neither free nor in use is lost. -/
theorem not_conserved_of_idle {f : FrameId} (hfree : p.freeFrames.count f = 0)
    (huse : (p.frames f).inUse = false) : ¬ p.Conserved := by
  intro h
  rcases h.frame f with hf | hf
  · rw [hf.1] at hfree; cases hfree
  · rw [hf.2.1] at huse; cases huse

/-- A frame in two entries is not conserved. -/
theorem not_conserved_of_two {f : FrameId} {id id' : PageId} (hne : id ≠ id')
    (hid : p.pageTable.lookup id = some f) (hid' : p.pageTable.lookup id' = some f) :
    ¬ p.Conserved := by
  intro h
  rcases h.frame f with hf | hf
  · exact hf.2.2 id hid
  · exact hne (hf.2.2.unique hid hid')

theorem after_of_ok {α : Type} {x : PoolM δ α} {a : α} (h : exec x p = (.ok a, p')) :
    after x p = some p' := by
  rw [after, h]

theorem after_of_error {α : Type} {x : PoolM δ α} {e : Exn} (h : exec x p = (.error e, p')) :
    after x p = if e.ends then none else some p' := by
  rw [after, h]

/-- What `setFrame` with the same flag `in_use` does to the places: nothing. -/
theorem Placed.setFrame (h : Placed p) {f : FrameId} {frame : Frame δ}
    (huse : frame.inUse = (p.frames f).inUse) : Placed (p.setFrame f frame) := by
  refine h.congr (fun g => ?_) rfl rfl rfl
  by_cases e : g = f
  · subst e
    simp [BufferPool.setFrame, huse]
  · simp [BufferPool.setFrame, e]

theorem Placed.touch (h : Placed p) {f : FrameId} (huse : (p.frames f).inUse = true) :
    Placed { p with lruList := f :: p.lruList.erase f } where
  frame := h.frame
  lru_nodup := nodup_touch h.lru_nodup f
  lru_inUse g hg := by
    rcases List.mem_cons.mp hg with rfl | hg
    · exact huse
    · exact h.lru_inUse g (List.mem_of_mem_erase hg)

theorem Placed.flushFrame (h : Placed p) (id : PageId) (f : FrameId) :
    Placed (exec (flushFrame id f) p).2 := by
  simp only [BufferPool.flushFrame, exec_get_bind]
  split
  · rw [exec_bind, exec_onDisk]
    split
    · next t heq =>
      rw [← (Prod.mk.inj heq).2]
      exact (h.onDisk _).setFrame rfl
    · next e t heq =>
      rw [← (Prod.mk.inj heq).2]
      exact h.onDisk _
  · exact h

theorem Placed.flushAll (h : Placed p) (order : List PageId) :
    Placed (exec (flushAll order) p).2 := by
  induction order generalizing p with
  | nil => exact h
  | cons id order ih =>
    simp only [BufferPool.flushAll, exec_get_bind]
    split
    · exact ih h
    · next f hf =>
      have hflush := h.flushFrame id f
      rw [exec_bind]
      split
      · next t heq => exact ih (by rwa [heq] at hflush)
      · next e t heq => rwa [heq] at hflush

theorem Placed.after {α : Type} {x : PoolM δ α} (hx : Placed (exec x p).2)
    (hs : BufferPool.after x p = some p') : Placed p' := by
  rw [BufferPool.after] at hs
  split at hs
  · next heq => cases hs; rwa [heq] at hx
  · next heq =>
    split at hs
    · cases hs
    · cases hs; rwa [heq] at hx

variable [PageData δ]

theorem readable_taken (f : FrameId) (id : PageId) :
    (p.taken f).disk.Readable id ↔ p.disk.Readable id := by
  unfold taken
  split
  · unfold evicted
    dsimp only
    split
    · exact Iff.rfl
    · exact Iff.rfl
  · exact Iff.rfl

/-! ### `fetch_page` -/

theorem fetchPage_hit {id : PageId} {f : FrameId} (hid : p.pageTable.lookup id = some f)
    (h : Placed p) (hs : poolStep p (.fetchPage id) = some p') : Placed p' := by
  have hframe : Placed (p.setFrame f { p.frames f with pinCount := (p.frames f).pinCount + 1 }) :=
    h.setFrame rfl
  refine Placed.after ?_ hs
  simp only [fetchPage, exec_get_bind, hid, exec_set_bind]
  refine hframe.touch ?_
  simpa [BufferPool.setFrame] using h.inUse_of_lookup hid

theorem fetchPage_full {id : PageId} (hid : p.pageTable.lookup id = none) (h : Placed p)
    (ht : p.takes = none) : poolStep p (.fetchPage id) = some p := by
  simp only [poolStep]
  rcases exec_findFreeFrame_none h.lru_inUse ht with hnone | ⟨e, hends, herr⟩
  · refine after_of_ok (a := none) ?_
    simp only [fetchPage, exec_get_bind, hid]
    exact exec_bind_ok hnone _
  · have hexec : exec (fetchPage id) p = (.error e, p) := by
      simp only [fetchPage, exec_get_bind, hid]
      exact exec_bind_error herr _
    rw [after_of_error hexec, hends]
    rfl

/-- A miss: the frame is taken, and put to use if the page can be read. -/
theorem fetchPage_miss {id : PageId} {f : FrameId} (hid : p.pageTable.lookup id = none)
    (h : Placed p) (ht : p.takes = some f) :
    poolStep p (.fetchPage id) = some (if p.disk.Readable id then
        (p.taken f).installed id f
          { page := (p.taken f).disk.file id, pinCount := 1, inUse := true }
      else p.taken f) := by
  have hfind := exec_findFreeFrame h.lru_inUse ht
  simp only [poolStep]
  split
  · next hread =>
    refine after_of_ok (a := some f) ?_
    simp only [fetchPage, exec_get_bind, hid]
    rw [exec_bind_ok hfind]
    have hpage : exec (onDisk (Disk.readPage id)) (p.taken f) =
        (.ok ((p.taken f).disk.file id), p.taken f) := by
      rw [exec_onDisk, Disk.exec_readPage ((readable_taken f id).mpr hread)]
    dsimp only
    rw [exec_bind_ok hpage, exec_bind_ok (exec_install ..), exec_pure]
  · next hread =>
    obtain ⟨e, hends, herr⟩ := Disk.exec_readPage_error (mt (readable_taken f id).mp hread)
    have hexec : exec (fetchPage id) p = (.error e, p.taken f) := by
      simp only [fetchPage, exec_get_bind, hid]
      rw [exec_bind_ok hfind]
      exact exec_bind_error (by rw [exec_onDisk, herr]) _
    rw [after_of_error hexec, hends]
    rfl

/-- A frame that is put to use after it was taken is in its place exactly if it was recycled from
under its own entry. -/
theorem installed_taken {id : PageId} {f : FrameId} (h : Placed p) (ht : p.takes = some f)
    (hid : p.pageTable.lookup id = none) (frame : Frame δ) (huse : frame.inUse = true) :
    (p.HeaderOk f → ((p.taken f).installed id f frame).Placed) ∧
      (((p.taken f).installed id f frame).Conserved → p.HeaderOk f) := by
  have hid' : (p.taken f).pageTable.lookup id = none := Placed.lookup_taken_none hid
  constructor
  · intro hhead
    exact (h.held_taken ht hhead).installed hid' huse
  · intro hcons
    by_contra hbad
    obtain ⟨old, hold⟩ := h.lookup_taken_of_not_headerOk ht hbad
    have hne : old ≠ id := by rintro rfl; rw [hid'] at hold; cases hold
    refine not_conserved_of_two hne ?_ (Finmap.lookup_insert _) hcons
    rw [BufferPool.installed, Finmap.lookup_insert_of_ne _ hne]
    exact hold

theorem fetchPage_iff {id : PageId} (h : Placed p) (hs : poolStep p (.fetchPage id) = some p') :
    (p.Conserving (.fetchPage id) → Placed p') ∧ (p'.Conserved → p.Conserving (.fetchPage id)) := by
  cases hid : p.pageTable.lookup id with
  | some f =>
    refine ⟨fun _ => fetchPage_hit hid h hs, fun _ hnone => ?_⟩
    rw [hid] at hnone
    cases hnone
  | none =>
    cases ht : p.takes with
    | none =>
      rw [fetchPage_full hid h ht] at hs
      cases hs
      refine ⟨fun _ => h, fun _ _ f hf => ?_⟩
      rw [ht] at hf
      cases hf
    | some f =>
      rw [fetchPage_miss hid h ht] at hs
      cases hs
      have hput := installed_taken h ht hid
        { page := (p.taken f).disk.file id, pinCount := 1, inUse := true } rfl
      constructor
      · intro hC
        obtain ⟨hread, hhead⟩ := hC hid f ht
        rw [if_pos hread]
        exact hput.1 hhead
      · intro hcons _ g hg
        rw [ht] at hg
        cases hg
        split at hcons
        · next hread => exact ⟨hread, hput.2 hcons⟩
        · obtain ⟨hfree, huse⟩ := h.taken_idle ht
          exact (not_conserved_of_idle hfree huse hcons).elim

/-! ### `new_page` -/

/-- No page can be had: only the file may have changed. -/
theorem newPage_error (h : Placed p) (hnext : p.disk.nextPage = none)
    (hs : poolStep p .newPage = some p') : Placed p' := by
  obtain ⟨e, d, he⟩ := Disk.exec_newPageId_error hnext
  refine Placed.after (x := newPage) ?_ hs
  have hexec : exec newPage p = (.error e, { p with disk := d }) :=
    exec_bind_error (by rw [exec_onDisk, he]) _
  rw [hexec]
  exact h.onDisk d

/-- Whatever it does in the file, `new_page` then takes a frame and puts it to use. -/
theorem newPage_some {id : PageId} {f : FrameId} (h : Placed p)
    (hnext : p.disk.nextPage = some id) (ht : p.takes = some f) :
    ∃ d, poolStep p .newPage = some ((taken { p with disk := d } f).installed id f
      { page := { Page.clear with pageId := id }, pinCount := 1, isDirty := true,
        inUse := true }) := by
  obtain ⟨d, hd⟩ := Disk.exec_newPageId hnext
  have hfind := exec_findFreeFrame (f := f) (h.onDisk d).lru_inUse ht
  refine ⟨d, after_of_ok (a := some (id, f)) ?_⟩
  rw [newPage, exec_bind_ok (by rw [exec_onDisk, hd]), newFrame, exec_bind_ok hfind]
  dsimp only
  rw [exec_bind_ok (exec_install ..), exec_pure]

theorem newPage_full {id : PageId} (h : Placed p) (hnext : p.disk.nextPage = some id)
    (ht : p.takes = none) (hs : poolStep p .newPage = some p') : Placed p' := by
  obtain ⟨d, hd⟩ := Disk.exec_newPageId hnext
  have hp : Placed { p with disk := d } := h.onDisk d
  refine Placed.after (x := newPage) ?_ hs
  rw [newPage, exec_bind_ok (by rw [exec_onDisk, hd]), newFrame]
  rcases exec_findFreeFrame_none hp.lru_inUse ht with hnone | ⟨e, -, herr⟩
  · rw [exec_bind_ok hnone]
    exact hp
  · rw [exec_bind_error herr]
    exact hp

/-- A frame other than the one that is put to use needs the entry it had. -/
theorem lookup_of_conserved {id e : PageId} {f g : FrameId} {frame : Frame δ} (h : Placed p)
    (hg : g ≠ f) (he : p.pageTable.lookup e = some g)
    (hcons : ((p.taken f).installed id f frame).Conserved) :
    e ≠ id ∧ (p.taken f).pageTable.lookup e = some g := by
  have hback : ∀ id', (p.taken f).pageTable.lookup id' = some g →
      p.pageTable.lookup id' = some g := by
    intro id' hid'
    unfold taken at hid'
    split at hid'
    · by_cases e' : id' = (p.frames f).page.pageId
      · subst e'
        rw [evicted, Finmap.lookup_erase] at hid'
        cases hid'
      · rwa [evicted, Finmap.lookup_erase_ne e'] at hid'
    · exact hid'
  have huse : (((p.taken f).installed id f frame).frames g).inUse = true := by
    have huse := h.inUse_of_lookup he
    simp only [installed, Function.update_of_ne hg, taken]
    split
    · simpa only [evicted, Function.update_of_ne hg] using huse
    · exact huse
  rcases hcons.frame g with hfree | hown
  · rw [hfree.2.1] at huse; cases huse
  · obtain ⟨id', hid', -⟩ := hown.2.2
    have hne : id' ≠ id := by
      rintro rfl
      rw [installed, Finmap.lookup_insert] at hid'
      exact hg (Option.some.inj hid').symm
    rw [installed, Finmap.lookup_insert_of_ne _ hne] at hid'
    rcases h.frame g with hf | hf
    · exact (hf.2.2 e he).elim
    · cases hf.2.2.unique he (hback id' hid')
      exact ⟨hne, hid'⟩

omit [PageData δ] in
/-- A frame with an entry is taken only by recycling it. -/
theorem Placed.nil_of_takes (h : Placed p) {id : PageId} {f : FrameId} (ht : p.takes = some f)
    (hid : p.pageTable.lookup id = some f) : p.freeFrames = [] := by
  by_contra hne
  have heq := eq_append_of_takes ht hne
  exact (h.free_of_mem (f := f) (by rw [heq]; simp)).2.2 id hid

/-- Where the evicted page has no entry under its header's id, nothing is erased, and the frame
that is put to use under the id it has stays in its place. -/
theorem Placed.installed_again (h : Placed p) {id : PageId} {f : FrameId} {frame : Frame δ}
    (ht : p.takes = some f) (hid : p.pageTable.lookup id = some f)
    (hhead : p.pageTable.lookup (p.frames f).page.pageId = none) (huse : frame.inUse = true) :
    ((p.taken f).installed id f frame).Placed := by
  have hnil := h.nil_of_takes ht hid
  rw [taken, if_pos hnil]
  have hent : ∀ e, ((p.evicted f).installed id f frame).pageTable.lookup e =
      p.pageTable.lookup e := by
    intro e
    by_cases hne : e = id
    · subst hne
      rw [installed, Finmap.lookup_insert, hid]
    · rw [installed, Finmap.lookup_insert_of_ne _ hne]
      by_cases hne' : e = (p.frames f).page.pageId
      · subst hne'
        rw [evicted, Finmap.lookup_erase, hhead]
      · rw [evicted, Finmap.lookup_erase_ne hne']
  have hframes : ∀ g, (((p.evicted f).installed id f frame).frames g).inUse =
      (p.frames g).inUse := by
    intro g
    by_cases hg : g = f
    · subst hg
      simp [installed, huse, h.inUse_of_lookup hid]
    · simp only [installed, evicted, Function.update_of_ne hg]
  refine ⟨fun g => place_congr (h.frame g) rfl (hframes g) fun e => by rw [hent], ?_, ?_⟩
  · exact nodup_touch (h.lru_nodup.erase f) f
  · intro g hg
    rw [hframes]
    rcases List.mem_cons.mp hg with rfl | hg
    · exact h.inUse_of_lookup hid
    · exact h.lru_inUse g (List.mem_of_mem_erase (List.mem_of_mem_erase hg))

theorem newPage_iff (h : Placed p) (hs : poolStep p .newPage = some p') :
    (p.Conserving .newPage → Placed p') ∧ (p'.Conserved → p.Conserving .newPage) := by
  cases hnext : p.disk.nextPage with
  | none =>
    refine ⟨fun _ => newPage_error h hnext hs, fun _ id f hid _ => ?_⟩
    rw [hnext] at hid
    cases hid
  | some id =>
    cases ht : p.takes with
    | none =>
      refine ⟨fun _ => newPage_full h hnext ht hs, fun _ _ f _ hf => ?_⟩
      rw [ht] at hf
      cases hf
    | some f =>
      obtain ⟨d, hd⟩ := newPage_some h hnext ht
      rw [hd] at hs
      cases hs
      have h' : Placed { p with disk := d } := h.onDisk d
      constructor
      · intro hC
        rcases hC id f hnext ht with ⟨hid, hhead⟩ | ⟨hid, hhead | hnone⟩
        · exact (installed_taken h' ht hid _ rfl).1 hhead
        · have hnil := h.nil_of_takes ht hid
          refine (h'.held_taken ht hhead).installed ?_ rfl
          rcases h.frame f with hf | hf
          · exact (hf.2.2 id hid).elim
          · cases hf.2.2.unique hid (hhead hnil)
            rw [taken, if_pos hnil, evicted, Finmap.lookup_erase]
        · exact h'.installed_again ht hid hnone rfl
      · intro hcons id' g hid' hg
        rw [hnext] at hid'
        rw [ht] at hg
        cases hid'
        cases hg
        cases hid : p.pageTable.lookup id with
        | none => exact Or.inl ⟨rfl, (installed_taken h' ht hid _ rfl).2 hcons⟩
        | some g =>
          by_cases hg : g = f
          · subst hg
            refine Or.inr ⟨rfl, ?_⟩
            cases hhead : p.pageTable.lookup (p.frames g).page.pageId with
            | none => exact Or.inr rfl
            | some k =>
              left
              intro hnil
              by_contra hk
              have hkg : k ≠ g := fun e => hk (e ▸ hhead)
              have hlook := (lookup_of_conserved h' hkg hhead hcons).2
              rw [taken, if_pos hnil, evicted, Finmap.lookup_erase] at hlook
              cases hlook
          · exact ((lookup_of_conserved h' hg hid hcons).1 rfl).elim

/-! ### `delete_page` -/

theorem deletePage_miss {id : PageId} (hid : p.pageTable.lookup id = none) :
    exec (deletePage id) p = exec (onDisk (Disk.free id)) p := by
  simp only [deletePage, exec_get_bind, hid]

/-- The deleted page's frame is cleared, and no one has it. -/
theorem deletePage_hit {id : PageId} {f : FrameId} (h : Placed p)
    (hid : p.pageTable.lookup id = some f) (hpin : (p.frames f).pinCount = 0) :
    ∃ p₁ : BufferPool δ, p₁.freeFrames.count f = 0 ∧ (p₁.frames f).inUse = false ∧
      p₁.disk = p.disk ∧ exec (deletePage id) p = exec (onDisk (Disk.free id)) p₁ := by
  have huse := h.inUse_of_lookup hid
  have hevict := exec_evictFrame (p := p.setFrame f { p.frames f with isDirty := false }) (f := f)
    (by simpa [setFrame] using huse) (by simpa [setFrame] using hpin)
  rw [if_neg (by simp [setFrame])] at hevict
  refine ⟨(p.setFrame f { p.frames f with isDirty := false }).evicted f, ?_, ?_, ?_, ?_⟩
  · rcases h.frame f with hf | hf
    · exact (hf.2.2 id hid).elim
    · exact hf.1
  · simp [evicted]
  · simp [evicted, setFrame]
  · simp only [deletePage, exec_get_bind, hid, if_neg (not_not.mpr hpin), exec_set_bind]
    exact exec_bind_ok hevict _

/-- Deleting a page that is in the pool fails an assertion or loses the frame. -/
theorem deletePage_resident {id : PageId} {f : FrameId} (h : Placed p)
    (hid : p.pageTable.lookup id = some f) :
    (poolStep p (.deletePage id) = none ↔ (p.frames f).pinCount ≠ 0 ∨ p.disk.numPages = 0 ∨
      MAX_FREE_PAGES ≤ p.disk.freePages.length) ∧
    ∀ p', poolStep p (.deletePage id) = some p' → ¬ p'.Conserved := by
  by_cases hpin : (p.frames f).pinCount = 0
  · obtain ⟨p₁, hfree, huse, hdisk, hexec⟩ := deletePage_hit h hid hpin
    have hends := Disk.exec_free_ends p.disk id
    rw [exec_onDisk, hdisk] at hexec
    rw [← hends]
    cases hr : (exec (Disk.free id) p.disk).1 with
    | ok u =>
      rw [hr] at hexec
      have hstep : poolStep p (.deletePage id) = some _ := after_of_ok hexec
      refine ⟨by simp [hstep, hpin], fun p' hp' => ?_⟩
      rw [hstep] at hp'
      cases hp'
      exact not_conserved_of_idle (f := f) hfree huse
    | error e =>
      rw [hr] at hexec
      have hstep := after_of_error hexec
      cases he : e.ends with
      | true =>
        rw [he, if_pos rfl] at hstep
        refine ⟨by simp [poolStep, hstep, he], fun p' hp' => ?_⟩
        simp only [poolStep, hstep] at hp'
        cases hp'
      | false =>
        rw [he, if_neg Bool.false_ne_true] at hstep
        refine ⟨by simp [poolStep, hstep, hpin, he], fun p' hp' => ?_⟩
        simp only [poolStep, hstep] at hp'
        cases hp'
        exact not_conserved_of_idle (f := f) hfree huse
  · have hexec : exec (deletePage id) p = (.error (.assertion "f.pin_count == 0"), p) := by
      simp only [deletePage, exec_get_bind, hid]
      rw [if_pos hpin]
      rfl
    have hstep : poolStep p (.deletePage id) = none := after_of_error hexec
    exact ⟨by simp [hstep, hpin], fun p' hp' => by rw [hstep] at hp'; cases hp'⟩

theorem deletePage_iff {id : PageId} (h : Placed p) (hs : poolStep p (.deletePage id) = some p') :
    (p.Conserving (.deletePage id) → Placed p') ∧
      (p'.Conserved → p.Conserving (.deletePage id)) := by
  cases hid : p.pageTable.lookup id with
  | none =>
    refine ⟨fun _ => ?_, fun _ f hf => ?_⟩
    · refine Placed.after (x := deletePage id) ?_ hs
      rw [deletePage_miss hid, exec_onDisk]
      exact h.onDisk _
    · rw [hid] at hf
      cases hf
  | some f =>
    obtain ⟨hnone, hlost⟩ := deletePage_resident h hid
    constructor
    · intro hC
      rw [hnone.mpr (hC f hid)] at hs
      cases hs
    · intro hcons
      exact (hlost p' hs hcons).elim

/-! ## Whole runs -/

theorem Placed.poolStep (h : Placed p) {c : PoolCall δ} (hs : poolStep p c = some p') :
    (p.Conserving c → Placed p') ∧ (p'.Conserved → p.Conserving c) := by
  cases c with
  | fetchPage id => exact fetchPage_iff h hs
  | newPage => exact newPage_iff h hs
  | deletePage id => exact deletePage_iff h hs
  | unpinPage id dirty =>
    refine ⟨fun _ => Placed.after (x := BufferPool.unpinPage id dirty) ?_ hs, fun _ => trivial⟩
    rw [BufferPool.unpinPage, exec_modify]
    dsimp only
    split
    · exact h
    · exact h.setFrame rfl
  | flushPage id =>
    refine ⟨fun _ => Placed.after (x := BufferPool.flushPage id) ?_ hs, fun _ => trivial⟩
    simp only [BufferPool.flushPage, exec_get_bind]
    split
    · exact h
    · next f hf =>
      rw [exec_bind]
      have hflush := h.flushFrame id f
      split
      · next t heq => rwa [heq] at hflush
      · next e t heq => rwa [heq] at hflush
  | flushAll order =>
    exact ⟨fun _ => Placed.after (h.flushAll order) hs, fun _ => trivial⟩
  | write f page =>
    cases hs
    exact ⟨fun _ => h.setFrame rfl, fun _ => trivial⟩
  | fault faults =>
    cases hs
    exact ⟨fun _ => h.onDisk _, fun _ => trivial⟩

/-- A call that ends in an assertion meets the condition. -/
theorem Placed.conserving_of_ended (h : Placed p) {c : PoolCall δ}
    (hs : BufferPool.poolStep p c = none) : p.Conserving c := by
  cases c with
  | fetchPage id =>
    intro hid f ht
    rw [fetchPage_miss hid h ht] at hs
    cases hs
  | newPage =>
    intro id f hnext ht
    obtain ⟨d, hd⟩ := newPage_some h hnext ht
    rw [hd] at hs
    cases hs
  | deletePage id =>
    intro f hid
    exact (deletePage_resident h hid).1.mp hs
  | _ => trivial

/-- **Frame conservation.** The frames are conserved in every state of a run if and only if every
call of the run is `Conserving`. -/
theorem conserved_along_iff (d : Disk δ) (calls : List (PoolCall δ)) :
    Along poolStep Conserved (init d) calls ↔ Steps poolStep Conserving (init d) calls :=
  along_iff_steps (fun _ h => h.conserved) (fun _ _ _ h hs => (h.poolStep hs).1)
    (fun _ _ _ h hs => (h.poolStep hs).2) (fun _ _ h hs => h.conserving_of_ended hs)
    (Placed.init d)

end Calls

/-- A new page is unpinned and deleted: its frame is gone. -/
theorem deleted_page_loses_frame :
    ¬ Along poolStep Conserved (init (exec Disk.loadNew (Disk.empty : Disk DbHeader)).2)
      [.newPage, .unpinPage 1 true, .deletePage 1] := by
  intro h
  have hend : ((run poolStep (init (exec Disk.loadNew (Disk.empty : Disk DbHeader)).2)
      [.newPage, .unpinPage 1 true, .deletePage 1]).map fun p =>
        p.freeFrames.length + p.pageTable.keys.card) = some 63 := by decide +kernel
  obtain ⟨p, hrun, hsize⟩ := Option.map_eq_some_iff.mp hend
  have hcons : p.Conserved := h.at hrun
  rw [hcons.size] at hsize
  cases hsize

end BufferPool

end KeyVDB
