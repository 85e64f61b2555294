import KeyVDB.Storage.LruList
import KeyVDB.Storage.Coherence

/-!
# Eviction by recency

Any client that leaves the ids in the page headers alone and fetches and deletes only pages it has:
it may write to pages it has not pinned, forget to report a change or unpin too often, and reads of
the file may fail. Along every run of such a client the LRU list is the frames in use, ordered by the
last `fetch_page` or `new_page` of their pages, so that `find_free_frame` evicts the page that was
not asked for the longest.
-/

namespace KeyVDB

namespace BufferPool

variable {δ : Type}

/-! ## What is kept -/

/-- Without pointers and changes there is nothing to show of the pins. -/
theorem not_pinned {_id : PageId} (h : False ∨ ∃ _ : FrameId, False) : ¬ True := by
  rcases h with h | ⟨f, h⟩
  · exact h.elim
  · exact h.elim

/-- Of the pages the client has, only the ids in their headers are known. -/
def ownedView (δ : Type) (owned : PageId → Bool) : View δ where
  live id := owned id = true
  image id page := page.pageId = id
  pins _ _ := True
  held _ _ := False
  pending _ := False
  header h := h
  pinned := @not_pinned

/-- The id in the header of the page in a frame. -/
def header (p : BufferPool δ) (f : FrameId) : PageId := (p.frames f).page.pageId

/-- The frames in use are in the LRU list, the last used page first; `uses` are the pages that were
given out, the last one first. -/
structure Ranked (uses : List PageId) (p : BufferPool δ) : Prop where
  listed : ∀ f, (p.frames f).inUse = true → f ∈ p.lruList
  used : ∀ f ∈ p.lruList, p.header f ∈ uses
  order : p.lruList.Pairwise fun f g => uses.idxOf (p.header f) < uses.idxOf (p.header g)

/-- What every step of the client keeps. -/
structure Kept (owned : PageId → Bool) (uses : List PageId) (p : BufferPool δ) : Prop where
  coherent : Coherent (ownedView δ owned) p
  accounted : p.disk.mended.Accounted fun id => owned id = true
  ranked : Ranked uses p

namespace Ranked

variable {uses : List PageId} {p p' : BufferPool δ} {id : PageId} {f : FrameId} {frame : Frame δ}

/-- The list, the flags `in_use` and the headers are what matters. -/
theorem congr (h : Ranked uses p) (hlru : p'.lruList = p.lruList)
    (huse : ∀ f, (p'.frames f).inUse = (p.frames f).inUse)
    (hheader : ∀ f, p'.header f = p.header f) : Ranked uses p' where
  listed f hf := by
    rw [hlru]
    exact h.listed f (huse f ▸ hf)
  used f hf := by
    rw [hlru] at hf
    rw [hheader]
    exact h.used f hf
  order := by
    rw [hlru]
    exact h.order.imp fun {f g} hfg => by rwa [hheader, hheader]

theorem sameFrames (h : Ranked uses p) (hp : LinkedPool.SameFrames p p') : Ranked uses p' :=
  h.congr hp.lruList hp.inUse hp.header

/-- A frame goes out of use. -/
theorem drop (h : Ranked uses p) (hnodup : p.lruList.Nodup)
    (hlru : p'.lruList = p.lruList.erase f) (hidle : (p'.frames f).inUse = false)
    (hframes : ∀ g, g ≠ f → p'.frames g = p.frames g) : Ranked uses p' := by
  have hheader : ∀ g ∈ p.lruList.erase f, p'.header g = p.header g := by
    intro g hg
    rw [BufferPool.header, hframes g ((hnodup.mem_erase_iff).mp hg).1]
    rfl
  refine ⟨fun g hg => ?_, fun g hg => ?_, ?_⟩
  · have hne : g ≠ f := by
      rintro rfl
      rw [hidle] at hg
      cases hg
    rw [hframes g hne] at hg
    rw [hlru, hnodup.mem_erase_iff]
    exact ⟨hne, h.listed g hg⟩
  · rw [hlru] at hg
    rw [hheader g hg]
    exact h.used g (List.mem_of_mem_erase hg)
  · rw [hlru]
    refine (h.order.sublist List.erase_sublist).imp_of_mem fun {g k} hg hk hgk => ?_
    rwa [hheader g hg, hheader k hk]

/-- A frame comes to the front with a page that no other frame holds. -/
theorem front (h : Ranked uses p) (hnodup : p.lruList.Nodup)
    (hlru : p'.lruList = f :: p.lruList.erase f) (hheader : p'.header f = id)
    (huse : ∀ g, g ≠ f → (p'.frames g).inUse = (p.frames g).inUse)
    (hother : ∀ g, g ≠ f → p'.header g = p.header g)
    (hunique : ∀ g ∈ p.lruList, g ≠ f → p.header g ≠ id) : Ranked (id :: uses) p' := by
  have hlater : ∀ g ∈ p.lruList.erase f,
      p'.header g ≠ id ∧ (id :: uses).idxOf (p'.header g) = uses.idxOf (p.header g) + 1 := by
    intro g hg
    obtain ⟨hne, hg⟩ := (hnodup.mem_erase_iff).mp hg
    have hid := hunique g hg hne
    rw [hother g hne]
    exact ⟨hid, List.idxOf_cons_ne _ hid.symm⟩
  refine ⟨fun g hg => ?_, fun g hg => ?_, ?_⟩
  · rw [hlru, List.mem_cons, hnodup.mem_erase_iff]
    by_cases hne : g = f
    · exact .inl hne
    · exact .inr ⟨hne, h.listed g (huse g hne ▸ hg)⟩
  · rw [hlru] at hg
    rcases List.mem_cons.mp hg with rfl | hg
    · rw [hheader]
      exact List.mem_cons_self
    · obtain ⟨hne, hg⟩ := (hnodup.mem_erase_iff).mp hg
      rw [hother g hne]
      exact List.mem_cons_of_mem _ (h.used g hg)
  · rw [hlru, List.pairwise_cons]
    refine ⟨fun g hg => ?_, ?_⟩
    · rw [hheader, List.idxOf_cons_self, (hlater g hg).2]
      exact Nat.succ_pos _
    · refine (h.order.sublist List.erase_sublist).imp_of_mem fun {g k} hg hk hgk => ?_
      rw [(hlater g hg).2, (hlater k hk).2]
      exact Nat.succ_lt_succ hgk

variable [PageData δ] {owned : PageId → Bool}

theorem taken (h : Ranked uses p) (hcoh : Coherent (ownedView δ owned) p) (f : FrameId) :
    Ranked uses (p.taken f) := by
  unfold BufferPool.taken
  split
  · refine h.drop hcoh.lru_nodup rfl ?_ fun g hg => Function.update_of_ne hg _ _
    simp only [evicted, Function.update_self]
  · exact h.congr rfl (fun _ => rfl) fun _ => rfl

omit [PageData δ] in
theorem installed (h : Ranked uses p) (hcoh : Coherent (ownedView δ owned) p)
    (hid : p.pageTable.lookup id = none) (hframe : frame.page.pageId = id) :
    Ranked (id :: uses) (p.installed id f frame) := by
  refine h.front hcoh.lru_nodup rfl ?_ ?_ ?_ ?_
  · simp only [header, BufferPool.installed, Function.update_self, hframe]
  · intro g hne
    simp only [BufferPool.installed, Function.update_of_ne hne]
  · intro g hne
    simp only [header, BufferPool.installed, Function.update_of_ne hne]
  · rintro g hg - he
    obtain ⟨i, hi⟩ := hcoh.lru_filed hg
    have hheader : p.header g = i := (hcoh.filed hi).header
    rw [← he, hheader, hi] at hid
    cases hid

end Ranked

/-! ## The calls -/

section Calls

variable [PageData δ] {owned : PageId → Bool} {uses : List PageId} {p : BufferPool δ} {id : PageId}
  {f : FrameId}

omit [PageData δ] in
theorem Kept.nonneg (h : Kept owned uses p) : ∀ id, (ownedView δ owned).live id → 0 ≤ id :=
  fun id hid => (h.accounted.range id (.inl hid)).1.le

theorem Kept.taken (h : Kept owned uses p) (ht : p.takes = some f) :
    Kept owned uses (p.taken f) ∧ Vacant (p.taken f) f := by
  obtain ⟨hcoh, hvac, hwrites⟩ := h.coherent.taken ht
  exact ⟨⟨hcoh, h.accounted.writesTo (Disk.writesTo_mended hwrites), h.ranked.taken h.coherent f⟩, hvac⟩

omit [PageData δ] in
theorem Kept.installed (h : Kept owned uses p) (hvac : Vacant p f)
    (hid : p.pageTable.lookup id = none) {owned' : PageId → Bool}
    (howned : ∀ i, i ≠ id → owned' i = owned i) (hlive : owned' id = true) {frame : Frame δ}
    (huse : frame.inUse = true) (hheader : frame.page.pageId = id)
    (hclean : frame.isDirty = false → (p.disk.file id).pageId = id)
    (haccounted : p.disk.mended.Accounted fun i => owned' i = true) :
    Kept owned' (id :: uses) (p.installed id f frame) := by
  refine ⟨h.coherent.installed hvac hid (fun i hne => ?_) ⟨hlive, huse, hheader, trivial, ?_⟩
    (fun g hg => hg.elim), haccounted, h.ranked.installed h.coherent hid hheader⟩
  · have hi := howned i hne
    exact ⟨by simp only [ownedView, hi], fun _ => Iff.rfl, fun _ => Iff.rfl, fun _ => Iff.rfl,
      Iff.rfl⟩
  · exact fun hdirty _ => hclean hdirty

omit [PageData δ] in
/-- A frame changes, but not its page's header. -/
theorem Kept.setFrame (h : Kept owned uses p) {frame : Frame δ}
    (huse : frame.inUse = (p.frames f).inUse) (hheader : frame.page.pageId = p.header f)
    (hclean : frame.isDirty = false → (p.frames f).isDirty = false) :
    Kept owned uses (p.setFrame f frame) := by
  refine ⟨?_, h.accounted, h.ranked.sameFrames (LinkedPool.sameFrames_setFrame p f frame huse hheader)⟩
  by_cases hf : ∃ id, p.pageTable.lookup id = some f
  · obtain ⟨id, hid⟩ := hf
    have hfiled := h.coherent.filed hid
    refine h.coherent.update hid (fun i _ => .refl _ i) (fun _ _ => rfl)
      ⟨hfiled.live, huse.trans hfiled.inUse, hheader.trans hfiled.header, trivial, ?_⟩
      fun g hg => hg.elim
    exact fun hdirty hpending => hfiled.clean (hclean hdirty) hpending
  · refine ⟨fun {i g} hi => ?_, h.coherent.absent, h.coherent.held, h.coherent.lru_nodup,
      h.coherent.lru_filed, h.coherent.free_nodup, h.coherent.free_unfiled⟩
    have hne : g ≠ f := by
      rintro rfl
      exact hf ⟨i, hi⟩
    simpa only [BufferPool.setFrame, Function.update_of_ne hne] using h.coherent.filed hi

omit [PageData δ] in
theorem Kept.hit (h : Kept owned uses p) (hid : p.pageTable.lookup id = some f) :
    Kept owned (id :: uses) (p.hit f) := by
  have hset : Kept owned uses
      (p.setFrame f { p.frames f with pinCount := (p.frames f).pinCount + 1 }) :=
    h.setFrame rfl rfl fun hdirty => hdirty
  have hheader : ∀ g, (p.setFrame f
      { p.frames f with pinCount := (p.frames f).pinCount + 1 }).header g = p.header g := by
    intro g
    by_cases hne : g = f
    · subst hne
      simp only [header, BufferPool.setFrame, Function.update_self]
    · simp only [header, BufferPool.setFrame, Function.update_of_ne hne]
  refine ⟨hset.coherent.touch hid, h.accounted, ?_⟩
  refine hset.ranked.front h.coherent.lru_nodup rfl ?_ (fun _ _ => rfl) (fun _ _ => rfl) ?_
  · exact (hheader f).trans (h.coherent.filed hid).header
  · intro g hg hne he
    obtain ⟨i, hi⟩ := h.coherent.lru_filed hg
    have hsame : i = id := by
      rw [hheader] at he
      exact (h.coherent.filed hi).header.symm.trans he
    rw [hsame, hid] at hi
    exact hne (Option.some.inj hi).symm

/-- `fetch_page` gives out the page, or no frame can be had, or the page cannot be read. -/
theorem Kept.fetchPage (h : Kept owned uses p) (hlive : owned id = true) :
    (∃ f p', exec (fetchPage id) p = (.ok (some f), p') ∧ Kept owned (id :: uses) p') ∨
      exec (fetchPage id) p = (.ok none, p) ∨
      ∃ e p', exec (fetchPage id) p = (.error e, p') ∧ Kept owned uses p' := by
  have hfetched := h.coherent.fetched h.nonneg id
  generalize exec (BufferPool.fetchPage id) p = r at hfetched ⊢
  cases hfetched with
  | @hit f hid => exact .inl ⟨f, _, rfl, h.hit hid⟩
  | full => exact .inr (.inl rfl)
  | @loaded f hid ht =>
    obtain ⟨hkept, hvac⟩ := h.taken ht
    have hlook : (p.taken f).pageTable.lookup id = none := Placed.lookup_taken_none hid
    have hheader := hkept.coherent.absent hlive hlook
    exact .inl ⟨f, _, rfl, hkept.installed hvac hlook (fun _ _ => rfl) hlive rfl hheader
      (fun _ => hheader) hkept.accounted⟩
  | @unreadable f e ht => exact .inr (.inr ⟨e, _, rfl, (h.taken ht).1⟩)

omit [PageData δ] in
/-- The file changes, but not the pages the client has. -/
theorem Kept.disk (h : Kept owned uses p) {d : Disk δ}
    (hfile : ∀ id, owned id = true → d.file id = p.disk.file id)
    (haccounted : d.mended.Accounted fun id => owned id = true) :
    Kept owned uses { p with disk := d } :=
  ⟨h.coherent.disk hfile, haccounted, h.ranked.congr rfl (fun _ => rfl) fun _ => rfl⟩

/-- `new_page` gives out a page the client did not have, or it ends in its assertion, or page 0
cannot be read. -/
theorem Kept.newPage (h : Kept owned uses p) :
    (∃ id f p', exec newPage p = (.ok (some (id, f)), p') ∧
        Kept (Function.update owned id true) (id :: uses) p') ∨
      ∃ e p', exec newPage p = (.error e, p') ∧ (e.ends = true ∨ Kept owned uses p') := by
  rcases Disk.newPageId_cases h.accounted with ⟨id, d, hnew, hgives⟩ | ⟨e, herr⟩
  · obtain ⟨⟨hfresh, -⟩, hfile, haccounted⟩ := h.accounted.gives hgives.mended
    have hgrown := haccounted (fun i => Function.update owned id true i = true) fun i => by
      by_cases hne : i = id
      · subst hne
        simp
      · simp [hne]
    have hkept : Kept owned uses { p with disk := d } := by
      refine h.disk hfile (hgrown.mono fun i hi => ?_)
      by_cases hne : i = id
      · subst hne
        exact (hfresh hi).elim
      · rwa [Function.update_of_ne hne]
    rw [BufferPool.newPage, exec_bind_ok (by rw [exec_onDisk, hnew])]
    rcases hkept.coherent.newFrame_cases hkept.nonneg id with ⟨e, hends, herr⟩ | ⟨f, ht, hexec⟩
    · exact .inr ⟨e, _, herr, .inl hends⟩
    · obtain ⟨htaken, hvac⟩ := hkept.taken ht
      have hnot : p.pageTable.lookup id = none := by
        cases hid : p.pageTable.lookup id with
        | none => rfl
        | some g => exact (hfresh (h.coherent.filed hid).live).elim
      have hlook : (({ p with disk := d } : BufferPool δ).taken f).pageTable.lookup id = none :=
        Placed.lookup_taken_none hnot
      have hwrites := (hkept.coherent.taken ht).2.2
      refine .inl ⟨id, f, _, hexec, ?_⟩
      exact htaken.installed hvac hlook (fun i hne => Function.update_of_ne hne _ _)
        (Function.update_self ..) rfl rfl (fun hdirty => by cases hdirty)
        (hgrown.writesTo (Disk.writesTo_mended hwrites))
  · refine .inr ⟨e, _, exec_bind_error (by rw [exec_onDisk, herr]) _, .inr ?_⟩
    refine h.disk (fun _ _ => rfl) ⟨?_, ?_, ?_, ?_, h.accounted.faults, h.accounted.header⟩
    · exact h.accounted.free_nodup.sublist (List.dropLast_sublist _)
    · exact fun i hi => h.accounted.free_not_live i (List.dropLast_subset _ hi)
    · exact fun i hi => h.accounted.range i (hi.imp_right fun hi => List.dropLast_subset _ hi)
    · exact (List.length_dropLast ▸ Nat.sub_le _ _ : _ ≤ p.disk.freePages.length).trans
        h.accounted.length_le

theorem Ranked.dropped (h : Ranked uses p) (hcoh : Coherent (ownedView δ owned) p) (id : PageId) :
    Ranked uses (p.dropped id) := by
  unfold BufferPool.dropped
  split
  · exact h
  · refine h.drop hcoh.lru_nodup rfl ?_ fun g hg => ?_
    · simp only [evicted, Function.update_self]
    · simp only [evicted, BufferPool.setFrame, Function.update_of_ne hg]

/-- `delete_page` ends in an assertion, or the client does not have the page any more. -/
theorem Kept.deletePage (h : Kept owned uses p) (hlive : owned id = true) :
    (∃ e p', exec (deletePage id) p = (.error e, p') ∧ e.ends = true) ∨
      ∃ r p', exec (deletePage id) p = (r, p') ∧ Kept (Function.update owned id false) uses p' := by
  have hview : ∀ i, i ≠ id → (ownedView δ owned).Agree
      (ownedView δ (Function.update owned id false)) i := by
    intro i hne
    exact ⟨by simp only [ownedView, Function.update_of_ne hne], fun _ => Iff.rfl, fun _ => Iff.rfl,
      fun _ => Iff.rfl, Iff.rfl⟩
  have hdead : ¬ (ownedView δ (Function.update owned id false)).live id := by
    simp only [ownedView, Function.update_self]
    exact Bool.false_ne_true
  by_cases hpin : ∀ f, p.pageTable.lookup id = some f → (p.frames f).pinCount = 0
  · have hexec := h.coherent.exec_deletePage hpin
    have hcoh := h.coherent.dropped hview hdead fun g hg => hg
    have hranked := h.ranked.dropped h.coherent id
    rw [hexec, exec_onDisk, p.dropped_disk]
    rcases Disk.free_cases p.disk id with ⟨e, hends, herr⟩ | ⟨hlen, r, d, hfree, hd⟩
    · rw [herr]
      exact .inl ⟨e, _, rfl, hends⟩
    · rw [hfree]
      obtain ⟨hfile, haccounted⟩ := h.accounted.pushed hlive hlen
      have hfreed := haccounted (fun i => Function.update owned id false i = true) fun i => by
        by_cases hne : i = id
        · subst hne
          simp
        · simp [hne]
      refine .inr ⟨r, _, rfl, hcoh.disk fun i hi => ?_, ?_,
        hranked.congr rfl (fun _ => rfl) fun _ => rfl⟩
      · rw [p.dropped_disk]
        rcases hd with rfl | rfl
        · refine hfile i ?_
          by_cases hne : i = id
          · exact hne ▸ hlive
          · simpa only [ownedView, Function.update_of_ne hne] using hi
        · rfl
      · rcases hd with rfl | rfl
        · exact hfreed
        · exact ⟨hfreed.free_nodup, hfreed.free_not_live, hfreed.range, hfreed.length_le,
            hfreed.faults, hfreed.header⟩
  · left
    push Not at hpin
    obtain ⟨f, hid, hpin⟩ := hpin
    simp only [BufferPool.deletePage, exec_get_bind, hid, if_pos hpin, exec_throw_bind]
    exact ⟨_, _, rfl, rfl⟩

omit [PageData δ] in
theorem Kept.unpinPage (h : Kept owned uses p) (id : PageId) (dirty : Bool) :
    Kept owned uses (exec (BufferPool.unpinPage id dirty) p).2 := by
  rw [BufferPool.unpinPage, exec_modify]
  dsimp only
  split
  · exact h
  · exact h.setFrame rfl rfl fun hdirty => (Bool.or_eq_false_iff.mp hdirty).2

omit [PageData δ] in
theorem Kept.flush {α : Type} {x : PoolM δ α} (h : Kept owned uses p)
    (hx : Keeps LinkedPool.SameFrames x) {r : α} {p' : BufferPool δ} (hexec : exec x p = (.ok r, p'))
    (hcoh : Coherent (ownedView δ owned) p')
    (hwrites : WritesTo (ownedView δ owned) p.disk p'.disk) :
    Kept owned uses (exec x p).2 := by
  have hsame := hx p
  rw [hexec] at hsame ⊢
  exact ⟨hcoh, h.accounted.writesTo (Disk.writesTo_mended hwrites), h.ranked.sameFrames hsame⟩

omit [PageData δ] in
theorem Kept.flushPage (h : Kept owned uses p) (id : PageId) :
    Kept owned uses (exec (BufferPool.flushPage id) p).2 := by
  obtain ⟨r, p', hexec, hcoh, hwrites⟩ := h.coherent.flushPage h.nonneg id
  exact h.flush (LinkedPool.keeps_flushPage id) hexec hcoh hwrites

omit [PageData δ] in
theorem Kept.flushAll (h : Kept owned uses p) (order : List PageId) :
    Kept owned uses (exec (BufferPool.flushAll order) p).2 := by
  obtain ⟨p', hexec, hcoh, hwrites, -⟩ := h.coherent.flushAll h.nonneg order
  exact h.flush (LinkedPool.keeps_flushAll order) hexec hcoh hwrites

/-- What `find_free_frame` returns, whatever the file is. -/
theorem Kept.exec_findFreeFrame (h : Kept owned uses p) (d : Disk δ) :
    ∃ p', exec findFreeFrame { p with disk := d } = (.ok (p.freeFrames.getLast?.or p.victim), p') := by
  simp only [findFreeFrame, exec_get_bind]
  cases hfree : p.freeFrames.getLast? with
  | some f => exact ⟨_, rfl⟩
  | none =>
    have hsame : ({ p with disk := d } : BufferPool δ).victim = p.victim := rfl
    rw [hsame]
    cases hv : p.victim with
    | none => exact ⟨_, rfl⟩
    | some v =>
      obtain ⟨huse, hpin⟩ := victim_ok h.coherent.lru_inUse hv
      have hmem : v ∈ p.lruList := List.mem_reverse.mp (List.mem_of_find?_eq_some hv)
      obtain ⟨id, hid⟩ := h.coherent.lru_filed hmem
      have hfiled := h.coherent.filed hid
      have hpos : ¬ ((p.frames v).isDirty = true ∧ (p.frames v).page.pageId < 0) := by
        rw [hfiled.header]
        exact fun hneg => not_lt.mpr (h.nonneg id hfiled.live) hneg.2
      have hevict := exec_evictFrame (p := { p with disk := d }) huse hpin
      rw [if_neg hpos] at hevict
      exact ⟨_, exec_bind_ok hevict _⟩

omit [PageData δ] in
/-- The victim comes after the other frames that are not pinned. -/
theorem victim_last {R : FrameId → FrameId → Prop} (horder : p.lruList.Pairwise R) {v : FrameId}
    (hv : p.victim = some v) {g : FrameId} (hg : g ∈ p.lruList) (hpin : (p.frames g).pinCount = 0)
    (hne : g ≠ v) : R g v := by
  obtain ⟨-, after, before, hsplit, hpinned⟩ := List.find?_eq_some_iff_append.mp hv
  have hlist : p.lruList = before.reverse ++ v :: after.reverse := by
    rw [← List.reverse_reverse p.lruList, hsplit]
    simp
  rw [hlist] at hg horder
  rcases List.mem_append.mp hg with hg | hg
  · exact (List.pairwise_append.mp horder).2.2 g hg v List.mem_cons_self
  · rcases List.mem_cons.mp hg with rfl | hg
    · exact (hne rfl).elim
    · have := hpinned g (List.mem_reverse.mp hg)
      simp [hpin] at this

end Calls

end BufferPool

/-! ## Runs -/

open BufferPool (PoolCall)

/-- The pool, the pages its client has, and the pages that were given out, the last one first. -/
structure Usage (δ : Type) where
  pool : LinkedPool δ
  owned : PageId → Bool
  uses : List PageId := []

namespace Usage

variable {δ : Type}

/-- What a call leaves behind; `none` if it fails an assertion. -/
def outcome {α : Type} (r : Except Exn α × LinkedPool δ) (next : Option α → LinkedPool δ → Usage δ) :
    Option (Usage δ) :=
  match r with
  | (.ok a, l) => some (next (some a) l)
  | (.error e, l) => if e.ends then none else some (next none l)

variable [PageData δ]

/-- A call of the client; `none` if it breaks the rules or an assertion fails. -/
def step (s : Usage δ) : PoolCall δ → Option (Usage δ)
  | .fetchPage id =>
    if s.owned id then
      outcome (exec (LinkedPool.fetchPage id) s.pool) fun r l =>
        match r with
        | some (some _) => { s with pool := l, uses := id :: s.uses }
        | _ => { s with pool := l }
    else none
  | .newPage =>
    outcome (exec LinkedPool.newPage s.pool) fun r l =>
      match r with
      | some (some (id, _)) =>
        { pool := l, owned := Function.update s.owned id true, uses := id :: s.uses }
      | _ => { s with pool := l }
  | .unpinPage id dirty =>
    outcome (exec (LinkedPool.unpinPage id dirty) s.pool) fun _ l => { s with pool := l }
  | .flushPage id => outcome (exec (LinkedPool.flushPage id) s.pool) fun _ l => { s with pool := l }
  | .flushAll order =>
    outcome (exec (LinkedPool.flushAll order) s.pool) fun _ l => { s with pool := l }
  | .deletePage id =>
    if s.owned id then
      outcome (exec (LinkedPool.deletePage id) s.pool) fun _ l =>
        { s with pool := l, owned := Function.update s.owned id false }
    else none
  | .write f page =>
    -- the header stays
    if page.pageId = (s.pool.frames f).page.pageId then
      some { s with pool := { s.pool with frames := Function.update s.pool.frames f
                                            { s.pool.frames f with page := page } } }
    else none
  | .fault faults =>
    some { s with pool := { s.pool with disk := { s.pool.disk with faults := faults } } }

/-- What every step keeps. -/
structure Inv (s : Usage δ) : Prop where
  linked : s.pool.Linked
  kept : BufferPool.Kept s.owned s.uses s.pool.forget

omit [PageData δ] in
/-- What a call leaves behind, where the same call without iterators is known. -/
theorem outcome_follows {α : Type} {x : LinkedM δ α} {y : PoolM δ α} (hx : LinkedPool.Follows x y)
    {l : LinkedPool δ} (hl : l.Linked) {r : Except Exn α} {p : BufferPool δ}
    (hexec : exec y l.forget = (r, p)) {next : Option α → LinkedPool δ → Usage δ} {s : Usage δ}
    (h : outcome (exec x l) next = some s) :
    ∃ l' : LinkedPool δ, l'.Linked ∧ l'.forget = p ∧
      ((∃ a, r = .ok a ∧ s = next (some a) l') ∨
        ∃ e, r = .error e ∧ e.ends = false ∧ s = next none l') := by
  obtain ⟨hresult, hforget, hlinked⟩ := hx l hl
  rw [hexec] at hresult hforget
  refine ⟨(exec x l).2, hlinked, hforget, ?_⟩
  generalize exec x l = t at *
  obtain ⟨t, l'⟩ := t
  dsimp only at hresult
  subst hresult
  cases t with
  | ok a => exact .inl ⟨a, rfl, (Option.some.inj h).symm⟩
  | error e =>
    rw [outcome] at h
    split at h
    · cases h
    · next hends => exact .inr ⟨e, rfl, Bool.not_eq_true _ ▸ hends, (Option.some.inj h).symm⟩

namespace Inv

variable {s s' : Usage δ}

theorem fetchPage (h : Inv s) {id : PageId} (hs : s.step (.fetchPage id) = some s') : Inv s' := by
  rw [step] at hs
  split at hs
  · next hlive =>
    have hfollows := LinkedPool.follows_fetchPage (δ := δ) id
    rcases h.kept.fetchPage hlive with ⟨f, p', hexec, hkept⟩ | hexec | ⟨e, p', hexec, hkept⟩
    · obtain ⟨l, hl, rfl, ⟨a, ha, rfl⟩ | ⟨e, he, -⟩⟩ := outcome_follows hfollows h.linked hexec hs
      · cases ha
        exact ⟨hl, hkept⟩
      · cases he
    · obtain ⟨l, hl, hforget, ⟨a, ha, rfl⟩ | ⟨e, he, -⟩⟩ :=
        outcome_follows hfollows h.linked hexec hs
      · cases ha
        exact ⟨hl, hforget ▸ h.kept⟩
      · cases he
    · obtain ⟨l, hl, rfl, ⟨a, ha, -⟩ | ⟨e, he, -, rfl⟩⟩ :=
        outcome_follows hfollows h.linked hexec hs
      · cases ha
      · exact ⟨hl, hkept⟩
  · cases hs

theorem newPage (h : Inv s) (hs : s.step .newPage = some s') : Inv s' := by
  rw [step] at hs
  have hfollows := LinkedPool.follows_newPage (δ := δ)
  rcases h.kept.newPage with ⟨id, f, p', hexec, hkept⟩ | ⟨e, p', hexec, hends⟩
  · obtain ⟨l, hl, rfl, ⟨a, ha, rfl⟩ | ⟨e, he, -⟩⟩ := outcome_follows hfollows h.linked hexec hs
    · cases ha
      exact ⟨hl, hkept⟩
    · cases he
  · obtain ⟨l, hl, rfl, ⟨a, ha, -⟩ | ⟨e', he, hnot, rfl⟩⟩ :=
      outcome_follows hfollows h.linked hexec hs
    · cases ha
    · cases he
      rw [hnot] at hends
      exact ⟨hl, hends.resolve_left Bool.false_ne_true⟩

theorem deletePage (h : Inv s) {id : PageId} (hs : s.step (.deletePage id) = some s') : Inv s' := by
  rw [step] at hs
  split at hs
  · next hlive =>
    have hfollows := LinkedPool.follows_deletePage (δ := δ) id
    rcases h.kept.deletePage hlive with ⟨e, p', hexec, hends⟩ | ⟨r, p', hexec, hkept⟩
    · obtain ⟨l, -, -, ⟨a, ha, -⟩ | ⟨e', he, hnot, -⟩⟩ :=
        outcome_follows hfollows h.linked hexec hs
      · cases ha
      · cases he
        rw [hends] at hnot
        cases hnot
    · obtain ⟨l, hl, rfl, ⟨a, -, rfl⟩ | ⟨e, -, -, rfl⟩⟩ :=
        outcome_follows hfollows h.linked hexec hs
      · exact ⟨hl, hkept⟩
      · exact ⟨hl, hkept⟩
  · cases hs

omit [PageData δ] in
/-- A call that gives out nothing and takes nothing back. -/
theorem plain {α : Type} {x : LinkedM δ α} {y : PoolM δ α} (h : Inv s)
    (hx : LinkedPool.Follows x y)
    (hkept : BufferPool.Kept s.owned s.uses (exec y s.pool.forget).2)
    (hs : outcome (exec x s.pool) (fun _ l => { s with pool := l }) = some s') : Inv s' := by
  obtain ⟨l, hl, hforget, ⟨a, -, rfl⟩ | ⟨e, -, -, rfl⟩⟩ := outcome_follows hx h.linked rfl hs
  · exact ⟨hl, hforget ▸ hkept⟩
  · exact ⟨hl, hforget ▸ hkept⟩

theorem step (h : Inv s) {c : PoolCall δ} (hs : s.step c = some s') : Inv s' := by
  cases c with
  | fetchPage id => exact h.fetchPage hs
  | newPage => exact h.newPage hs
  | unpinPage id dirty =>
    exact h.plain (LinkedPool.follows_unpinPage id dirty) (h.kept.unpinPage id dirty) hs
  | flushPage id => exact h.plain (LinkedPool.follows_flushPage id) (h.kept.flushPage id) hs
  | flushAll order => exact h.plain (LinkedPool.follows_flushAll order) (h.kept.flushAll order) hs
  | deletePage id => exact h.deletePage hs
  | write f page =>
    rw [Usage.step] at hs
    split at hs
    · next hheader =>
      cases hs
      exact ⟨h.linked, h.kept.setFrame rfl hheader fun hdirty => hdirty⟩
    · cases hs
  | fault faults =>
    cases hs
    exact ⟨h.linked, h.kept.disk (fun _ _ => rfl) h.kept.accounted⟩

end Inv

/-- A pool that was just made, on a file with the client's pages. -/
def start (d : Disk δ) (owned : PageId → Bool) : Usage δ := { pool := LinkedPool.init d, owned }

theorem Inv.start {d : Disk δ} {owned : PageId → Bool}
    (hd : d.Accounted fun id => owned id = true)
    (hfile : ∀ id, owned id = true → (d.file id).pageId = id) : Inv (start d owned) where
  linked := IndexedList.valid_empty
  kept :=
    { coherent := .init hfile fun _ _ hheld => hheld
      accounted :=
        ⟨hd.free_nodup, hd.free_not_live, hd.range, hd.length_le, fun _ => rfl, hd.header⟩
      ranked := ⟨fun f hf => (by cases hf), fun f hf => absurd hf List.not_mem_nil, .nil⟩ }

/-! ## What holds along a run -/

/-- The page in a frame was asked for later than the page in another. -/
def Newer (s : Usage δ) (f g : FrameId) : Prop :=
  ∀ id id', s.pool.pageTable.lookup id = some f → s.pool.pageTable.lookup id' = some g →
    s.uses.idxOf id < s.uses.idxOf id'

/-- The structures of the pool agree, and the LRU list has the order of the uses. -/
structure ExactLru (s : Usage δ) : Prop where
  /-- The list has each frame in use once, and nothing else. -/
  nodup : s.pool.lru.toList.Nodup
  listed : ∀ f, f ∈ s.pool.lru.toList ↔ (s.pool.frames f).inUse = true
  /-- The iterator of a frame leads to its node. -/
  iterator : ∀ f, f ∈ s.pool.lru.toList → ∃ addr, s.pool.lru.index f = some addr ∧
    ∀ n ∈ s.pool.lru.nodes, n.1 = addr ↔ n.2 = f
  /-- There is no iterator for another frame. -/
  noIterator : ∀ f, f ∉ s.pool.lru.toList → s.pool.lru.index f = none
  /-- Every page in the table was given out. -/
  used : ∀ id f, s.pool.pageTable.lookup id = some f → id ∈ s.uses
  ordered : s.pool.lru.toList.Pairwise s.Newer
  /-- The page table is a bijection onto the frames in use. -/
  injective : ∀ id id' f, s.pool.pageTable.lookup id = some f →
    s.pool.pageTable.lookup id' = some f → id = id'
  onto : ∀ f, (s.pool.frames f).inUse = true ↔ ∃ id, s.pool.pageTable.lookup id = some f

/-- What `find_free_frame` does when it is called: it fails only with no frame free and every frame
in use pinned, and a frame it evicts is the oldest of those in use that are not pinned. The file may
have changed since the last call ended, as `new_page` looks for an id first. -/
structure EvictsOldest (s : Usage δ) : Prop where
  returns : ∀ d, ∃ r l, exec LinkedPool.findFreeFrame { s.pool with disk := d } = (.ok r, l)
  fails : ∀ d l, exec LinkedPool.findFreeFrame { s.pool with disk := d } = (.ok none, l) →
    s.pool.freeFrames = [] ∧ ∀ f, (s.pool.frames f).inUse = true → (s.pool.frames f).pinCount ≠ 0
  evicts : ∀ d v l, exec LinkedPool.findFreeFrame { s.pool with disk := d } = (.ok (some v), l) →
    s.pool.freeFrames = [] →
      (s.pool.frames v).inUse = true ∧ (s.pool.frames v).pinCount = 0 ∧
        ∀ g, (s.pool.frames g).inUse = true → (s.pool.frames g).pinCount = 0 → g ≠ v → s.Newer g v

variable {s : Usage δ}

omit [PageData δ] in
theorem Inv.exactLru (h : Inv s) : ExactLru s := by
  have hcoh := h.kept.coherent
  have hmem : ∀ f, f ∈ s.pool.lru.toList ↔ (s.pool.frames f).inUse = true := fun f =>
    ⟨hcoh.lru_inUse f, h.kept.ranked.listed f⟩
  have hheader : ∀ {id f}, s.pool.pageTable.lookup id = some f → s.pool.forget.header f = id :=
    fun hid => (hcoh.filed hid).header
  refine
    { nodup := h.linked.nodup, listed := hmem, iterator := fun f hf => ?_
      noIterator := fun f hf => h.linked.index_eq_none.mpr hf, used := fun id f hid => ?_
      ordered := ?_, injective := fun id id' f hid hid' => hcoh.unique hid hid'
      onto := fun f => ⟨fun huse => hcoh.lru_filed ((hmem f).mpr huse), ?_⟩ }
  · obtain ⟨addr, hn⟩ := s.pool.lru.mem_toList.mp hf
    exact ⟨addr, (h.linked.index_iff f addr).mpr hn, fun n hn' => h.linked.addr_eq_iff hn' hn⟩
  · rw [← hheader hid]
    exact h.kept.ranked.used f (h.kept.ranked.listed f (hcoh.filed hid).inUse)
  · refine h.kept.ranked.order.imp fun {f g} hfg id id' hid hid' => ?_
    rwa [hheader hid, hheader hid'] at hfg
  · rintro ⟨id, hid⟩
    exact (hcoh.filed hid).inUse

theorem Inv.evictsOldest (h : Inv s) : EvictsOldest s := by
  have hexact := h.exactLru
  have hexec : ∀ d, ∃ l, exec LinkedPool.findFreeFrame { s.pool with disk := d } =
      (.ok (s.pool.freeFrames.getLast?.or s.pool.victim), l) := by
    intro d
    obtain ⟨p', hp'⟩ := h.kept.exec_findFreeFrame d
    obtain ⟨hresult, -, -⟩ := LinkedPool.follows_findFreeFrame { s.pool with disk := d } h.linked
    have hforget : ({ s.pool with disk := d } : LinkedPool δ).forget =
        { s.pool.forget with disk := d } := rfl
    rw [hforget, hp'] at hresult
    exact ⟨_, Prod.ext hresult rfl⟩
  refine ⟨fun d => ?_, fun d l hnone => ?_, fun d v l hsome hnil => ?_⟩
  · obtain ⟨l, hl⟩ := hexec d
    exact ⟨_, l, hl⟩
  · obtain ⟨l', hl'⟩ := hexec d
    rw [hnone] at hl'
    obtain ⟨hfree, hvictim⟩ := Option.or_eq_none_iff.mp (Except.ok.inj (Prod.mk.inj hl').1).symm
    refine ⟨List.getLast?_eq_none_iff.mp hfree, fun f huse hpin => ?_⟩
    have hpinned := List.find?_eq_none.mp hvictim f
      (List.mem_reverse.mpr ((hexact.listed f).mpr huse))
    simp [hpin] at hpinned
  · obtain ⟨l', hl'⟩ := hexec d
    rw [hsome, hnil, List.getLast?_nil, Option.none_or] at hl'
    have hv : s.pool.forget.victim = some v := (Except.ok.inj (Prod.mk.inj hl').1).symm
    obtain ⟨huse, hpin⟩ := BufferPool.victim_ok h.kept.coherent.lru_inUse hv
    exact ⟨huse, hpin, fun g hg hgpin hne =>
      BufferPool.victim_last hexact.ordered hv ((hexact.listed g).mpr hg) hgpin hne⟩

/-- **Eviction is by recency.** In every state that a client with these rules can reach, from a file
whose free list is in order, the LRU list is exact and `find_free_frame` evicts the page that was not
asked for the longest. -/
theorem exactLru_along {d : Disk δ} {owned : PageId → Bool}
    (hd : d.Accounted fun id => owned id = true)
    (hfile : ∀ id, owned id = true → (d.file id).pageId = id) (calls : List (PoolCall δ))
    {s : Usage δ} (hrun : run step (start d owned) calls = some s) :
    ExactLru s ∧ EvictsOldest s := by
  have hinv : Inv s := by
    refine run_inv (C := fun _ _ => True) ?_ (Inv.start hd hfile)
      (steps_of_forall (fun _ _ => trivial) _ _) hrun
    intro s c s' hs _ hstep
    exact hs.step hstep
  exact ⟨hinv.exactLru, hinv.evictsOldest⟩

/-- As many pages are made as there are frames, the first is asked for again, and one more is made. -/
def fillingCalls : List (PoolCall DbHeader) :=
  (List.range POOL_SIZE).flatMap (fun n => [.newPage, .unpinPage (n + 1 : Nat) true]) ++
    [.fetchPage 1, .unpinPage 1 false, .newPage]

/-- On a new file: the last page takes the frame of the second one. -/
theorem exactLru_along_evicting :
    let d := (exec Disk.loadNew (Disk.empty : Disk DbHeader)).2
    ∃ s, run step (start d fun _ => false) fillingCalls = some s ∧ s.uses.take 2 = [65, 1] ∧
      s.pool.freeFrames = [] ∧ s.pool.pageTable.lookup 1 = some ⟨63, by decide⟩ ∧
      s.pool.pageTable.lookup 2 = none ∧ s.pool.pageTable.lookup 65 = some ⟨62, by decide⟩ ∧
      ExactLru s ∧ EvictsOldest s := by
  intro d
  have hd : d.Accounted fun id => (fun _ : PageId => false) id = true :=
    ⟨List.nodup_nil, fun id hid => absurd hid List.not_mem_nil,
      fun id hid => hid.elim (fun e => by cases e) fun e => absurd e List.not_mem_nil,
      Nat.zero_le _, fun _ => rfl, Nat.one_pos⟩
  have hrun : (run step (start d fun _ => false) fillingCalls).map (fun s =>
      (s.uses.take 2, s.pool.freeFrames, s.pool.pageTable.lookup 1, s.pool.pageTable.lookup 2,
        s.pool.pageTable.lookup 65)) =
      some ([65, 1], [], some ⟨63, by decide⟩, none, some ⟨62, by decide⟩) := by decide +kernel
  obtain ⟨s, hs, he⟩ := Option.map_eq_some_iff.mp hrun
  simp only [Prod.mk.injEq] at he
  obtain ⟨huses, hfree, hfirst, hsecond, hlast⟩ := he
  exact ⟨s, hs, huses, hfree, hfirst, hsecond, hlast, exactLru_along hd (fun id e => by cases e) _ hs⟩

end Usage

end KeyVDB
