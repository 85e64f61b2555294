import KeyVDB.BTree.Watched

/-!
# Pages that are worked on

The pool of a tree in the middle of a call: the pages with what they hold, and the pointers that the
call has and has not unpinned yet. `Tracked` ties the two to the pool and to the file. A page that is
in neither, because it was deleted, may still be a node in the file; when it is fetched it is a page
again (`Tracked.revive`), so a call that follows a stale id keeps its pins in order as well.
-/

namespace KeyVDB

open BufferPool (Hold Session Coherent View)

/-! ## Frames in no entry -/

namespace BufferPool

variable {δ : Type} {p : BufferPool δ} {v : View δ} {id : PageId} {f : FrameId} {frame : Frame δ}

/-- Only frames with an entry are pinned. -/
def Idle (p : BufferPool δ) : Prop :=
  ∀ f, (p.frames f).pinCount ≠ 0 → ∃ id, p.pageTable.lookup id = some f

theorem Idle.setFrame (h : Idle p) (hid : p.pageTable.lookup id = some f) :
    Idle (p.setFrame f frame) := by
  intro g hg
  by_cases hne : g = f
  · exact ⟨id, hne ▸ hid⟩
  · exact h g (by simpa only [BufferPool.setFrame, Function.update_of_ne hne] using hg)

variable [PageData δ]

theorem Idle.evicted (h : Idle p) (hcoh : Coherent v p) (hid : p.pageTable.lookup id = some f) :
    Idle (p.evicted f) := by
  intro g hg
  by_cases hne : g = f
  · simp [BufferPool.evicted, hne] at hg
  · obtain ⟨i, hi⟩ := h g (by simpa only [BufferPool.evicted, Function.update_of_ne hne] using hg)
    refine ⟨i, ?_⟩
    have hi' : i ≠ id := by
      rintro rfl
      rw [hid] at hi
      exact hne (Option.some.inj hi).symm
    rw [BufferPool.evicted, (hcoh.filed hid).header, Finmap.lookup_erase_ne hi']
    exact hi

theorem Idle.taken (h : Idle p) (hcoh : Coherent v p) (ht : p.takes = some f) :
    Idle (p.taken f) := by
  unfold BufferPool.taken
  split
  · next hnil =>
    have hv := Placed.victim_of_takes ht hnil
    obtain ⟨id, hid⟩ := hcoh.lru_filed (List.mem_reverse.mp (List.mem_of_find?_eq_some hv))
    exact h.evicted hcoh hid
  · exact h

omit [PageData δ] in
theorem Idle.installed (h : Idle p) (hid : p.pageTable.lookup id = none) :
    Idle (p.installed id f frame) := by
  intro g hg
  by_cases hne : g = f
  · refine ⟨id, ?_⟩
    rw [hne, BufferPool.installed, Finmap.lookup_insert]
  · obtain ⟨i, hi⟩ := h g (by simpa only [BufferPool.installed, Function.update_of_ne hne] using hg)
    refine ⟨i, ?_⟩
    have hi' : i ≠ id := by
      rintro rfl
      rw [hid] at hi
      cases hi
    rw [BufferPool.installed, Finmap.lookup_insert_of_ne _ hi']
    exact hi

theorem Idle.dropped (h : Idle p) (hcoh : Coherent v p) (id : PageId) : Idle (p.dropped id) := by
  unfold BufferPool.dropped
  split
  · exact h
  · next f hid =>
    intro g hg
    by_cases hne : g = f
    · simp [BufferPool.evicted, hne] at hg
    · have hpin : (p.frames g).pinCount ≠ 0 := by
        simpa only [BufferPool.evicted, BufferPool.setFrame, Function.update_of_ne hne] using hg
      obtain ⟨i, hi⟩ := h.evicted hcoh hid g
        (by simpa only [BufferPool.evicted, Function.update_of_ne hne] using hpin)
      exact ⟨i, by simpa [BufferPool.evicted, BufferPool.setFrame] using hi⟩

end BufferPool

/-! ## Nodes in the file -/

namespace Disk

variable {d : Disk Content}

/-- A node in the file, of a tree or left over from one, has its own id in its header. -/
def Signed (d : Disk Content) : Prop :=
  ∀ id, BTree.isNode (d.file id).data → id ≠ 0 ∧ (d.file id).pageId = id

theorem Signed.write (h : d.Signed) {id : PageId} {page : Page Content}
    (hpage : BTree.isNode page.data → id ≠ 0 ∧ page.pageId = id) :
    Signed { d with writes := d.writes ++ [(id, page)] } := by
  intro i
  by_cases hne : i = id
  · subst hne
    rw [file_write_self]
    exact hpage
  · rw [file_write_of_ne _ hne]
    exact h i

/-- Page 0 is written only where it was no node, and it stays none. -/
theorem Signed.writeHeader (h : d.Signed) {data : Content}
    (hdata : BTree.isNode data = BTree.isNode (d.file 0).data) :
    Signed { d with writes := d.writes ++ [(0, { d.file 0 with data })] } := by
  refine h.write fun hnode => ?_
  rw [hdata] at hnode
  exact h 0 hnode

theorem isNode_setFreePages (free : List PageId) (c : Content) :
    BTree.isNode (PageData.setFreePages free c) = BTree.isNode c := by
  cases c with
  | header h => rfl
  | zero => rfl
  | leaf n => rfl
  | internal n => rfl

theorem isNode_setRootId (id : PageId) (c : Content) :
    BTree.isNode (PageData.setRootId id c) = BTree.isNode c := by
  cases c with
  | header h => rfl
  | zero => rfl
  | leaf n => rfl
  | internal n => rfl

theorem Signed.saved (h : d.Signed) (free : List PageId) :
    Signed (saved { d with freePages := free }) :=
  h.writeHeader (isNode_setFreePages free (d.file 0).data)

theorem Signed.gives (h : d.Signed) {id : PageId} {d' : Disk Content} (hd : d.Gives id d') :
    d'.Signed := by
  cases hd with
  | grow hnil => exact h.write fun hnode => by cases hnode
  | reuse heq => exact h.saved _

theorem Signed.free (h : d.Signed) {id : PageId} {d' : Disk Content}
    (hd : d' = d.pushed id ∨ d' = { d with freePages := d.freePages ++ [id] }) : d'.Signed := by
  rcases hd with rfl | rfl
  · exact h.saved _
  · exact h

end Disk

/-! ## The pool in the middle of a call -/

namespace BTree

/-- What the pages of a tree hold. -/
abbrev Pages := PageId → Option (Page Content)

/-- The pool shows these pages and has given out these pointers. -/
structure Tracked (pages : Pages) (holds : List Hold) (p : BufferPool Content) : Prop where
  coherent : Coherent (Session.view ⟨p, pages, holds⟩) p
  pos : ∀ id, (pages id).isSome → 0 < id
  idle : p.Idle
  signed : p.disk.Signed

namespace Tracked

variable {pages : Pages} {holds : List Hold} {p p' : BufferPool Content} {id : PageId} {f : FrameId}

theorem nonneg (h : Tracked pages holds p) :
    ∀ id, (Session.view ⟨p, pages, holds⟩).live id → 0 ≤ id :=
  fun id hid => (h.pos id hid).le

/-- A pointer is to the frame of its page. -/
theorem lookup (h : Tracked pages holds p) {x : Hold} (hx : x ∈ holds) :
    p.pageTable.lookup x.id = some x.frame := h.coherent.held ⟨x, hx, rfl, rfl⟩

theorem page (h : Tracked pages holds p) {x : Hold} (hx : x ∈ holds) :
    pages x.id = some (p.frames x.frame).page := (h.coherent.filed (h.lookup hx)).image.1

theorem header (h : Tracked pages holds p) {x : Hold} (hx : x ∈ holds) :
    (p.frames x.frame).page.pageId = x.id := (h.coherent.filed (h.lookup hx)).header

/-- A frame is pinned once for each pointer to it. -/
theorem pinCount (h : Tracked pages holds p) (f : FrameId) :
    (p.frames f).pinCount = (holds.map Hold.frame).count f := by
  by_cases hf : ∃ id, p.pageTable.lookup id = some f
  · obtain ⟨id, hid⟩ := hf
    have hpins : (p.frames f).pinCount = holds.countP fun x => x.id = id :=
      (h.coherent.filed hid).pins
    rw [hpins, List.count, List.countP_map]
    refine List.countP_congr fun x hx => ?_
    have hlook := h.lookup hx
    simp only [Function.comp_apply, decide_eq_true_eq, beq_iff_eq]
    constructor
    · rintro rfl
      rw [hlook] at hid
      exact Option.some.inj hid
    · rintro rfl
      exact h.coherent.unique hlook hid
  · have hzero : (p.frames f).pinCount = 0 := by
      by_contra hne
      exact hf (h.idle f hne)
    rw [hzero, eq_comm, List.count_eq_zero]
    rintro hmem
    obtain ⟨x, hx, rfl⟩ := List.mem_map.mp hmem
    exact hf ⟨x.id, h.lookup hx⟩

theorem pinTotal (h : Tracked pages holds p) : p.pinTotal = holds.length := by
  have hsum : p.pinTotal = ∑ f, Multiset.count f (holds.map Hold.frame : Multiset FrameId) :=
    Finset.sum_congr rfl fun f _ => (h.pinCount f).trans (Multiset.coe_count f _).symm
  rw [hsum, Multiset.sum_count_eq_card fun f _ => Finset.mem_univ f, Multiset.coe_card,
    List.length_map]

/-- The order of the pointers does not matter, and a change that was not made may be reported. -/
theorem weaken (h : Tracked pages holds p) {holds' : List Hold}
    (hids : ∀ i, (holds'.countP fun x => x.id = i) = holds.countP fun x => x.id = i)
    (hheld : ∀ x ∈ holds', ∃ y ∈ holds, y.id = x.id ∧ y.frame = x.frame)
    (hchanged : ∀ x ∈ holds, x.changed = true → ∃ y ∈ holds', y.id = x.id ∧ y.changed = true) :
    Tracked pages holds' p where
  coherent :=
    { filed := fun {i f} hi => by
        have hfiled := h.coherent.filed hi
        refine ⟨hfiled.live, hfiled.inUse, hfiled.image, ?_, fun hclean hpending => ?_⟩
        · exact hfiled.pins.trans (hids i).symm
        · refine hfiled.clean hclean ?_
          rintro ⟨x, hx, rfl, hx'⟩
          obtain ⟨y, hy, he, hy'⟩ := hchanged x hx hx'
          exact hpending ⟨y, hy, he, hy'⟩
      absent := h.coherent.absent
      held := by
        rintro i f ⟨x, hx, rfl, rfl⟩
        obtain ⟨y, hy, hid, hframe⟩ := hheld x hx
        exact h.coherent.held ⟨y, hy, hid, hframe⟩
      lru_nodup := h.coherent.lru_nodup
      lru_filed := h.coherent.lru_filed
      free_nodup := h.coherent.free_nodup
      free_unfiled := h.coherent.free_unfiled }
  pos := h.pos
  idle := h.idle
  signed := h.signed

/-- The client may say that it changed a page. -/
theorem changed (h : Tracked pages (⟨id, f, false⟩ :: holds) p) :
    Tracked pages (⟨id, f, true⟩ :: holds) p := by
  refine h.weaken (fun i => ?_) (fun x hx => ?_) fun x hx hchanged => ?_
  · simp only [List.countP_cons]
  · rcases List.mem_cons.mp hx with rfl | hx
    · exact ⟨_, List.mem_cons_self, rfl, rfl⟩
    · exact ⟨x, List.mem_cons_of_mem _ hx, rfl, rfl⟩
  · rcases List.mem_cons.mp hx with rfl | hx
    · cases hchanged
    · exact ⟨x, List.mem_cons_of_mem _ hx, rfl, hchanged⟩

/-! ### Fetching -/

theorem signed_taken (h : Tracked pages holds p) (ht : p.takes = some f) :
    (p.taken f).disk.Signed := by
  unfold BufferPool.taken
  split
  · next hnil =>
    have hv := BufferPool.Placed.victim_of_takes ht hnil
    obtain ⟨id, hid⟩ := h.coherent.lru_filed (List.mem_reverse.mp (List.mem_of_find?_eq_some hv))
    have hfiled := h.coherent.filed hid
    dsimp only [BufferPool.evicted]
    split
    · refine h.signed.write fun _ => ⟨?_, rfl⟩
      rw [hfiled.header]
      exact (h.pos id hfiled.live).ne'
    · exact h.signed
  · exact h.signed

/-- A page that was deleted and is still a node in the file. -/
theorem revive (h : Tracked pages holds p) (hid : pages id = none) (hpos : 0 ≤ id)
    (hnode : isNode (p.disk.file id).data) :
    Tracked (Function.update pages id (some (p.disk.file id))) holds p := by
  obtain ⟨hne, hheader⟩ := h.signed id hnode
  have hagree : ∀ i, i ≠ id → (Session.view ⟨p, pages, holds⟩).Agree
      (Session.view ⟨p, Function.update pages id (some (p.disk.file id)), holds⟩) i :=
    fun i hi => Session.agree (Function.update_of_ne hi _ _) rfl fun _ _ => Iff.rfl
  have hlook : ∀ {i f}, p.pageTable.lookup i = some f → i ≠ id := by
    rintro i f hi rfl
    have hlive : (pages i).isSome := (h.coherent.filed hi).live
    rw [hid] at hlive
    cases hlive
  refine ⟨⟨fun {i f} hi => ?_, fun {i} hlive hi => ?_, fun {i f} hi => ?_, h.coherent.lru_nodup,
    h.coherent.lru_filed, h.coherent.free_nodup, h.coherent.free_unfiled⟩, fun i hi => ?_, h.idle,
    h.signed⟩
  · exact (h.coherent.filed hi).congr (hagree i (hlook hi)) rfl
  · by_cases hi' : i = id
    · subst hi'
      exact ⟨Function.update_self .., hheader⟩
    · exact ((hagree i hi').image _).mpr (h.coherent.absent (((hagree i hi').live).mp hlive) hi)
  · exact h.coherent.held hi
  · by_cases hi' : i = id
    · subst hi'
      exact lt_of_le_of_ne hpos (Ne.symm hne)
    · rw [Function.update_of_ne hi'] at hi
      exact h.pos i hi

/-- A page of the tree is fetched. -/
theorem fetch_page (h : Tracked pages holds p) (hlive : (pages id).isSome)
    (hexec : exec (BufferPool.fetchPage id) p = (.ok (some f), p')) :
    Tracked pages (⟨id, f, false⟩ :: holds) p' := by
  have hview : (Session.view ⟨p, pages, holds⟩).Pin
      (Session.view ⟨p', pages, ⟨id, f, false⟩ :: holds⟩) id f :=
    Session.view_pin (x := ⟨id, f, false⟩) hlive rfl rfl rfl
  have hfetched := h.coherent.fetched h.nonneg id
  rw [hexec] at hfetched
  cases hfetched with
  | hit hid =>
    exact ⟨h.coherent.hit hid hview, h.pos, h.idle.setFrame hid, h.signed⟩
  | loaded hid ht =>
    have hlook : (p.taken f).pageTable.lookup id = none := BufferPool.Placed.lookup_taken_none hid
    have himage := (h.coherent.taken ht).1.absent hlive hlook
    exact ⟨h.coherent.loaded hid ht himage hview, h.pos,
      (h.idle.taken h.coherent ht).installed hlook, h.signed_taken ht⟩

/-- Only pages of the tree are written to the file, also where the fetch fails. -/
theorem fetch_writes (h : Tracked pages holds p) (id : PageId) :
    BufferPool.WritesTo (Session.view ⟨p, pages, holds⟩) p.disk
      (exec (BufferPool.fetchPage id) p).2.disk := by
  have hfetched := h.coherent.fetched h.nonneg id
  generalize exec (BufferPool.fetchPage id) p = r at hfetched ⊢
  cases hfetched with
  | hit hid => exact .refl _ _
  | full => exact .refl _ _
  | loaded hid ht => exact (h.coherent.taken ht).2.2
  | unreadable ht => exact (h.coherent.taken ht).2.2

/-- Any page is fetched; a node that was not in the tree is now. -/
theorem fetch_node (h : Tracked pages holds p)
    (hexec : exec (BufferPool.fetchPage id) p = (.ok (some f), p'))
    (hnode : isNode (p'.frames f).page.data) :
    ∃ pages', Tracked pages' (⟨id, f, false⟩ :: holds) p' ∧ (pages' id).isSome ∧
      ∀ i page, pages i = some page → pages' i = some page := by
  cases hid : pages id with
  | some page =>
    have hlive : (pages id).isSome := by rw [hid]; rfl
    exact ⟨pages, h.fetch_page hlive hexec, hlive, fun _ _ hi => hi⟩
  | none =>
    have hdead : ¬ (Session.view ⟨p, pages, holds⟩).live id := by
      simp only [Session.view, hid]
      exact Bool.false_ne_true
    have hfetched := h.coherent.fetched h.nonneg id
    rw [hexec] at hfetched
    cases hfetched with
    | hit hlook => exact (hdead (h.coherent.filed hlook).live).elim
    | loaded hlook ht hread =>
      have hfile := (h.coherent.taken ht).2.2.file_of_not_live hdead
      have hnode' : isNode (p.disk.file id).data := by
        simpa [BufferPool.loaded, BufferPool.installed, hfile] using hnode
      have hnew := h.revive hid hread.1 hnode'
      have hsome : (Function.update pages id (some (p.disk.file id)) id).isSome := by
        rw [Function.update_self]
        rfl
      refine ⟨_, hnew.fetch_page hsome hexec, hsome, fun i page hi => ?_⟩
      rwa [Function.update_of_ne]
      rintro rfl
      rw [hid] at hi
      cases hi

/-! ### Other calls -/

theorem unpin_page (h : Tracked pages holds p) {holds' : List Hold} {b dirty : Bool}
    (hholds : holds.Perm (⟨id, f, b⟩ :: holds')) (hdirty : b = true → dirty = true)
    (hexec : exec (BufferPool.unpinPage id dirty) p = (.ok (), p')) :
    Tracked pages holds' p' ∧ p'.disk = p.disk := by
  have hlook := h.lookup (hholds.mem_iff.mpr List.mem_cons_self)
  have hview : (Session.view ⟨p, pages, holds⟩).Unpin (Session.view ⟨p', pages, holds'⟩) id dirty :=
    Session.view_unpin (x := ⟨id, f, b⟩) hdirty rfl hholds
  obtain ⟨p₁, hexec', hdisk, hcoh⟩ := h.coherent.unpinPage hlook hview
  have hidle : (exec (BufferPool.unpinPage id dirty) p).2.Idle := by
    rw [BufferPool.unpinPage, exec_modify, hlook]
    exact h.idle.setFrame hlook
  rw [hexec] at hexec' hidle
  cases hexec'
  refine ⟨⟨hcoh, h.pos, hidle, ?_⟩, hdisk⟩
  rw [hdisk]
  exact h.signed

theorem write_page (h : Tracked pages holds p) {page : Page Content} (hx : ⟨id, f, true⟩ ∈ holds)
    (hpage : page.pageId = id) : Tracked (Function.update pages id (some page)) holds
      (p.setFrame f { p.frames f with page }) where
  coherent := by
    have hperm := List.perm_cons_erase hx
    exact Session.coherent_write (s := ⟨p, pages, holds⟩) (x := ⟨id, f, true⟩) h.coherent hperm hpage
      rfl hperm
  pos i hi := by
    by_cases hne : i = id
    · have hlive := h.page hx
      rw [hne]
      exact h.pos id (by rw [hlive]; rfl)
    · rw [Function.update_of_ne hne] at hi
      exact h.pos i hi
  idle := h.idle.setFrame (h.lookup hx)
  signed := h.signed

theorem delete_page (h : Tracked pages holds p)
    (hexec : exec (BufferPool.deletePage id) p = (.ok (), p')) :
    Tracked (Function.update pages id none) holds p' ∧ p.pinsOf id = 0 := by
  have hpin := BufferPool.unpinned_of_deletePage hexec
  have hnot : ∀ x ∈ holds, x.id ≠ id := by
    rintro x hx rfl
    have hzero := hpin _ (h.lookup hx)
    rw [h.pinCount, List.count_eq_zero] at hzero
    exact hzero (List.mem_map_of_mem hx)
  have hdropped : Coherent (Session.view ⟨p, Function.update pages id none, holds⟩)
      (p.dropped id) := by
    refine h.coherent.dropped (fun i hne => ?_) (by simp [Session.view]) ?_
    · exact Session.agree (Function.update_of_ne hne _ _) rfl fun _ _ => Iff.rfl
    · rintro g ⟨x, hx, he, -⟩
      exact hnot x hx he
  rw [h.coherent.exec_deletePage hpin, BufferPool.exec_onDisk, p.dropped_disk] at hexec
  refine ⟨?_, ?_⟩
  · rcases Disk.free_cases p.disk id with ⟨e, -, herr⟩ | ⟨-, r, d, hfree, hd⟩
    · rw [herr] at hexec
      cases hexec
    · rw [hfree] at hexec
      cases hexec
      have hpos : ∀ i, (Function.update pages id none i).isSome → 0 < i := by
        intro i hi
        by_cases hne : i = id
        · rw [hne, Function.update_self] at hi
          cases hi
        · rw [Function.update_of_ne hne] at hi
          exact h.pos i hi
      refine ⟨hdropped.disk fun i hi => ?_, hpos, h.idle.dropped h.coherent id, h.signed.free hd⟩
      rw [p.dropped_disk]
      rcases hd with rfl | rfl
      · exact Disk.file_write_of_ne _ (hpos i hi).ne' _
      · rfl
  · rw [BufferPool.pinsOf]
    cases hlook : p.pageTable.lookup id with
    | none => rfl
    | some f => exact hpin f hlook

theorem set_root (h : Tracked pages holds p) {newRoot : PageId}
    (hexec : exec (BufferPool.onDisk (Disk.setRootPageId newRoot)) p = (.ok (), p')) :
    Tracked pages holds p' ∧ p'.disk.freePages = p.disk.freePages ∧
      p'.disk.numPages = p.disk.numPages := by
  rw [BufferPool.exec_onDisk, Disk.setRootPageId, exec_get_bind] at hexec
  by_cases hzero : p.disk.numPages = 0
  · rw [if_pos hzero, exec_throw_bind] at hexec
    cases hexec
  · rw [if_neg hzero] at hexec
    by_cases hread : p.disk.Readable 0
    · simp only [exec_bind_ok (Disk.exec_readPage hread),
        Disk.exec_writePage (le_refl (0 : PageId))] at hexec
      cases hexec
      refine ⟨⟨h.coherent.disk fun i hi => ?_, h.pos, h.idle, ?_⟩, rfl, rfl⟩
      · exact Disk.file_write_of_ne _ (h.pos i hi).ne' _
      · exact h.signed.writeHeader (Disk.isNode_setRootId _ _)
    · obtain ⟨e, -, herr⟩ := Disk.exec_readPage_error hread
      simp only [exec_bind_error herr] at hexec
      cases hexec

theorem new_page (h : Tracked pages holds p)
    (hacc : p.disk.mended.Accounted fun id => (pages id).isSome)
    (hexec : exec BufferPool.newPage p = (.ok (some (id, f)), p')) :
    Tracked (Function.update pages id (some { Page.clear with pageId := id }))
        (⟨id, f, false⟩ :: holds) p' ∧
      (p'.disk.mended.Accounted fun i =>
        (Function.update pages id (some { Page.clear with pageId := id }) i).isSome) ∧
      pages id = none := by
  rcases Disk.newPageId_cases hacc with ⟨id', d, hnew, hgives⟩ | ⟨e, herr⟩
  · obtain ⟨⟨hfresh, hpos⟩, hfile, haccounted⟩ := hacc.gives hgives.mended
    have hcoh : Coherent (Session.view ⟨p, pages, holds⟩) { p with disk := d } :=
      h.coherent.disk hfile
    rw [BufferPool.newPage, exec_bind_ok (by rw [BufferPool.exec_onDisk, hnew])] at hexec
    rcases hcoh.newFrame_cases h.nonneg id' with ⟨e, -, herr⟩ | ⟨f', ht, hok⟩
    · rw [herr] at hexec
      cases hexec
    · rw [hok] at hexec
      cases hexec
      have htracked : Tracked pages holds { p with disk := d } :=
        ⟨hcoh, h.pos, h.idle, h.signed.gives hgives⟩
      have hnot : ∀ g, ¬ (Session.view ⟨p, pages, holds⟩).held id g :=
        fun g hg => hfresh (h.coherent.filed (h.coherent.held hg)).live
      have hlook : p.pageTable.lookup id = none := by
        cases hlook : p.pageTable.lookup id with
        | none => rfl
        | some g => exact (hfresh (h.coherent.filed hlook).live).elim
      refine ⟨⟨?_, fun i hi => ?_, ?_, htracked.signed_taken ht⟩, ?_, ?_⟩
      · exact hcoh.made hfresh ht (Session.view_new (x := ⟨id, f, false⟩) rfl rfl hnot)
      · by_cases hne : i = id
        · exact hne ▸ hpos
        · rw [Function.update_of_ne hne] at hi
          exact h.pos i hi
      · exact (htracked.idle.taken hcoh ht).installed (BufferPool.Placed.lookup_taken_none hlook)
      · refine (haccounted _ fun i => ?_).writesTo (Disk.writesTo_mended (hcoh.taken ht).2.2)
        by_cases hne : i = id
        · simp [hne]
        · simp [hne]
      · exact Option.not_isSome_iff_eq_none.mp hfresh
  · rw [BufferPool.newPage, exec_bind_error (by rw [BufferPool.exec_onDisk, herr])] at hexec
    cases hexec

end Tracked

end BTree

end KeyVDB
