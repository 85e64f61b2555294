import KeyVDB.Storage.Coherence

/-!
# The frames that are left

`delete_page` drops the frame of the page and gives it to no one, so the pool gets smaller with each
page that is deleted while it is in a frame. `capacity` counts the frames that are free or in an
entry. The other calls keep it, and as every frame with an entry is in the LRU list, there is a frame
to take as long as fewer pages are pinned than there are frames left.
-/

namespace KeyVDB

namespace BufferPool

variable {δ : Type}

/-- The frames that are free or in an entry. -/
def capacity (p : BufferPool δ) : Nat := p.freeFrames.length + p.pageTable.keys.card

/-- The frames that are in neither. -/
def lost (p : BufferPool δ) : Nat := POOL_SIZE - p.capacity

/-- Every frame with an entry can be found by `find_free_frame`. -/
def Listed (p : BufferPool δ) : Prop := ∀ id f, p.pageTable.lookup id = some f → f ∈ p.lruList

theorem listed_init [PageData δ] (d : Disk δ) : (init d).Listed := by
  intro id f h
  simp [init] at h

theorem capacity_init [PageData δ] (d : Disk δ) : (init d).capacity = POOL_SIZE := by
  rw [capacity, init]
  simp

theorem card_keys_insert {t : Finmap fun _ : PageId => FrameId} {id : PageId} {f : FrameId}
    (h : t.lookup id = none) : (t.insert id f).keys.card = t.keys.card + 1 := by
  have hkeys : (t.insert id f).keys = insert id t.keys := by
    ext i
    rw [Finset.mem_insert, Finmap.mem_keys, Finmap.mem_keys, Finmap.mem_insert]
  have hid : id ∉ t.keys := by
    rw [Finmap.mem_keys, ← Finmap.lookup_eq_none]
    exact h
  rw [hkeys, Finset.card_insert_of_notMem hid]

theorem card_keys_erase {t : Finmap fun _ : PageId => FrameId} {id : PageId} {f : FrameId}
    (h : t.lookup id = some f) : (t.erase id).keys.card + 1 = t.keys.card := by
  have hid : id ∈ t.keys := by
    rw [Finmap.mem_keys, ← Finmap.lookup_isSome, h]
    rfl
  rw [Finmap.keys_erase, Finset.card_erase_add_one hid]

section Calls

variable [PageData δ] {v : View δ} {p : BufferPool δ} {id : PageId} {f : FrameId}

/-! ## A frame is taken and put to use -/

/-- A frame is taken from the free ones, or from the entry of its page. -/
theorem Coherent.capacity_taken (h : Coherent v p) (ht : p.takes = some f) :
    (p.taken f).capacity + 1 = p.capacity := by
  unfold BufferPool.taken capacity
  split
  · next hnil =>
    have hv := Placed.victim_of_takes ht hnil
    obtain ⟨i, hi⟩ := h.lru_filed (List.mem_reverse.mp (List.mem_of_find?_eq_some hv))
    have hcard := card_keys_erase hi
    rw [← (h.filed hi).header] at hcard
    simp only [BufferPool.evicted]
    omega
  · next hne =>
    have hpos := List.length_pos_of_ne_nil hne
    dsimp only
    rw [List.length_dropLast]
    omega

omit [PageData δ] in
theorem capacity_installed {frame : Frame δ} (hid : p.pageTable.lookup id = none) :
    (p.installed id f frame).capacity = p.capacity + 1 := by
  rw [capacity, capacity, installed, card_keys_insert hid, Nat.add_assoc]

theorem Coherent.capacity_loaded (h : Coherent v p) (hid : p.pageTable.lookup id = none)
    (ht : p.takes = some f) {frame : Frame δ} :
    ((p.taken f).installed id f frame).capacity = p.capacity := by
  rw [capacity_installed (Placed.lookup_taken_none hid), h.capacity_taken ht]

theorem Listed.evicted (h : p.Listed) (hcoh : Coherent v p) (hid : p.pageTable.lookup id = some f) :
    (p.evicted f).Listed := by
  intro i g hi
  have hne : i ≠ id := by
    rintro rfl
    rw [BufferPool.evicted, (hcoh.filed hid).header, Finmap.lookup_erase] at hi
    cases hi
  rw [BufferPool.evicted, (hcoh.filed hid).header, Finmap.lookup_erase_ne hne] at hi
  have hg : g ≠ f := by
    rintro rfl
    exact hne (hcoh.unique hi hid)
  exact (List.mem_erase_of_ne hg).mpr (h i g hi)

theorem Listed.taken (h : p.Listed) (hcoh : Coherent v p) (ht : p.takes = some f) :
    (p.taken f).Listed := by
  unfold BufferPool.taken
  split
  · next hnil =>
    have hv := Placed.victim_of_takes ht hnil
    obtain ⟨i, hi⟩ := hcoh.lru_filed (List.mem_reverse.mp (List.mem_of_find?_eq_some hv))
    exact h.evicted hcoh hi
  · exact h

omit [PageData δ] in
/-- The frame that is touched stays in the list with the others. -/
theorem mem_touch {lru : List FrameId} {g : FrameId} (h : g = f ∨ g ∈ lru) :
    g ∈ f :: lru.erase f := by
  by_cases hg : g = f
  · rw [hg]
    exact List.mem_cons_self
  · exact List.mem_cons_of_mem _ ((List.mem_erase_of_ne hg).mpr (h.resolve_left hg))

omit [PageData δ] in
theorem Listed.installed (h : p.Listed) {frame : Frame δ} : (p.installed id f frame).Listed := by
  intro i g hi
  refine mem_touch ?_
  by_cases hne : i = id
  · rw [hne, BufferPool.installed, Finmap.lookup_insert] at hi
    exact .inl (Option.some.inj hi).symm
  · rw [BufferPool.installed, Finmap.lookup_insert_of_ne _ hne] at hi
    exact .inr (h i g hi)

omit [PageData δ] in
theorem Listed.hit (h : p.Listed) : (p.hit f).Listed := fun i g hi => mem_touch (.inr (h i g hi))

/-! ## A page is deleted -/

/-- The frame of a page that is deleted is lost. -/
theorem Coherent.lost_dropped (h : Coherent v p) (id : PageId) :
    (p.dropped id).lost ≤ p.lost + 1 := by
  unfold BufferPool.dropped lost
  split
  · exact Nat.le_succ _
  · next f hid =>
    have hcard := card_keys_erase hid
    rw [← (h.filed hid).header] at hcard
    simp only [capacity, BufferPool.evicted, setFrame, Function.update_self]
    omega

theorem Listed.dropped (h : p.Listed) (hcoh : Coherent v p) (id : PageId) :
    (p.dropped id).Listed := by
  unfold BufferPool.dropped
  split
  · exact h
  · next f hid =>
    intro i g hi
    refine h.evicted hcoh hid i g ?_
    simpa [BufferPool.evicted, setFrame] using hi

/-! ## All frames are pinned -/

omit [PageData δ] in
/-- When there is no frame to take, all that are left are pinned. -/
theorem Coherent.pinned_of_full (h : Coherent v p) (hpos : ∀ id, v.live id → 0 ≤ id)
    (hlist : p.Listed) (ht : p.takes = none) :
    p.freeFrames = [] ∧ ∀ {id f}, p.pageTable.lookup id = some f → (p.frames f).pinCount ≠ 0 := by
  unfold takes at ht
  split at ht
  · cases ht
  · next hfree =>
    refine ⟨List.getLast?_eq_none_iff.mp hfree, fun {i g} hi hpin => ?_⟩
    cases hv : p.victim with
    | none =>
      refine List.find?_eq_none.mp hv g (List.mem_reverse.mpr (hlist i g hi)) ?_
      simp [hpin]
    | some g' =>
      obtain ⟨i', hi'⟩ := h.lru_filed (List.mem_reverse.mp (List.mem_of_find?_eq_some hv))
      have hbad : (p.frames g').isDirty = true ∧ (p.frames g').page.pageId < 0 := by
        simpa [hv, Option.filter] using ht
      rw [(h.filed hi').header] at hbad
      exact not_lt.mpr (hpos i' (h.filed hi').live) hbad.2

end Calls

end BufferPool

end KeyVDB
