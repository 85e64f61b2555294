import KeyVDB.Storage.Coherence

/-!
# The pool is transparent

A client that keeps to the rules of `buffer_pool.h` (it touches a page between its `fetch_page` or
`new_page` and the matching `unpin_page`, leaves the header alone, reports its changes and uses only
pages it has) sees a plain store of pages: what it wrote last is what it gets, whatever is evicted in
between.
-/

namespace KeyVDB

namespace BufferPool

variable {δ : Type}

/-! ## The client -/

/-- A pointer that was given out and not unpinned yet. -/
structure Hold where
  id : PageId
  frame : FrameId
  changed : Bool := false
  deriving DecidableEq

/-- The pool, and what its client knows. -/
structure Session (δ : Type) where
  pool : BufferPool δ
  contents : PageId → Option (Page δ)  -- what it gave last to the pages it has
  holds : List Hold

/-- What the client does. -/
inductive ClientCall (δ : Type)
  | fetchPage (id : PageId)
  | newPage
  | write (h : Hold) (data : δ)  -- through the pointer
  | unpinPage (h : Hold) (dirty : Bool)
  | flushPage (id : PageId)
  | flushAll (order : List PageId)
  | deletePage (id : PageId)

section Step

variable [PageData δ]

/-- The rules of the client are the guards; a call that does not return ends the run. -/
def Session.step (s : Session δ) : ClientCall δ → Option (Session δ)
  | .fetchPage id => do
    guard (s.contents id).isSome
    let (r, pool) ← returned (fetchPage id) s.pool
    match r with
    | none => return { s with pool }
    | some frame => return { s with pool, holds := { id, frame } :: s.holds }
  | .newPage => do
    let (r, pool) ← returned newPage s.pool
    match r with
    | none => return { s with pool }
    | some (id, frame) => return {
        pool
        contents := Function.update s.contents id (some { Page.clear with pageId := id })
        holds := { id, frame } :: s.holds }
  | .write h data => do
    guard (h ∈ s.holds)
    let frame := s.pool.frames h.frame
    return {
      pool := s.pool.setFrame h.frame { frame with page := { frame.page with data } }
      contents := Function.update s.contents h.id (some { pageId := h.id, data })
      holds := { h with changed := true } :: s.holds.erase h }
  | .unpinPage h dirty => do
    guard (h ∈ s.holds ∧ (h.changed → dirty))
    let (_, pool) ← returned (unpinPage h.id dirty) s.pool
    return { s with pool, holds := s.holds.erase h }
  | .flushPage id => do
    let (_, pool) ← returned (flushPage id) s.pool
    return { s with pool }
  | .flushAll order => do
    guard (order.toFinset = s.pool.pageTable.keys)
    let (_, pool) ← returned (flushAll order) s.pool
    return { s with pool }
  | .deletePage id => do
    guard (s.contents id).isSome
    let (_, pool) ← returned (deletePage id) s.pool
    return { s with pool, contents := Function.update s.contents id none }

end Step

/-! ## What the client relies on -/

namespace Session

/-- The pages that the client has, as it knows them. -/
def view (s : Session δ) : View δ where
  live id := (s.contents id).isSome
  image id page := s.contents id = some page ∧ page.pageId = id
  pins id n := n = s.holds.countP fun h => h.id = id
  held id f := ∃ h ∈ s.holds, h.id = id ∧ h.frame = f
  pending id := ∃ h ∈ s.holds, h.id = id ∧ h.changed = true
  header h := h.2
  pinned {id} hid hzero := by
    obtain ⟨h, hmem, he⟩ : ∃ h ∈ s.holds, h.id = id := by
      rcases hid with ⟨h, hmem, he, -⟩ | ⟨f, h, hmem, he, -⟩
      · exact ⟨h, hmem, he⟩
      · exact ⟨h, hmem, he⟩
    have hpos : 0 < s.holds.countP fun h => h.id = id :=
      List.countP_pos_iff.mpr ⟨h, hmem, by simpa using he⟩
    omega

/-- Two views agree on a page with the same contents and the same pointers to it. -/
theorem agree {s s' : Session δ} {i : PageId} (hcontents : s'.contents i = s.contents i)
    (hcount : (s'.holds.countP fun h => h.id = i) = s.holds.countP fun h => h.id = i)
    (hmem : ∀ h, h.id = i → (h ∈ s'.holds ↔ h ∈ s.holds)) : s.view.Agree s'.view i where
  live := by simp only [view, hcontents]
  image _ := by simp only [view, hcontents]
  pins _ := by simp only [view, hcount]
  held f := by
    refine exists_congr fun h => and_congr_left fun he => ?_
    exact hmem h he.1
  pending := by
    refine exists_congr fun h => and_congr_left fun he => ?_
    exact hmem h he.1

/-- A new pointer is seen at its page only. -/
theorem agree_cons {s s' : Session δ} {x : Hold} {i : PageId} (hne : i ≠ x.id)
    (hcontents : s'.contents i = s.contents i) (hholds : s'.holds = x :: s.holds) :
    s.view.Agree s'.view i := by
  refine agree hcontents ?_ fun h he => ?_
  · rw [hholds, List.countP_cons_of_neg (by simpa using hne.symm)]
  · rw [hholds, List.mem_cons]
    refine ⟨fun hx => hx.resolve_left ?_, Or.inr⟩
    rintro rfl
    exact hne he.symm

/-- Nor is a pointer missed elsewhere. -/
theorem agree_of_perm {s s' : Session δ} {x : Hold} {i : PageId} (hne : i ≠ x.id)
    (hcontents : s'.contents i = s.contents i) (hholds : s.holds.Perm (x :: s'.holds)) :
    s.view.Agree s'.view i := by
  refine agree hcontents ?_ fun h he => ?_
  · rw [hholds.countP_eq, List.countP_cons_of_neg (by simpa using hne.symm)]
  · rw [hholds.mem_iff, List.mem_cons]
    refine ⟨Or.inr, fun h' => h'.resolve_left ?_⟩
    rintro rfl
    exact hne he.symm

/-- A page without pointers is pinned by the first one. -/
theorem countP_eq_zero_of_not_held {s : Session δ} {id : PageId} (h : ∀ f, ¬ s.view.held id f) :
    (s.holds.countP fun h => h.id = id) = 0 := by
  refine List.countP_eq_zero.mpr fun x hx he => ?_
  exact h x.frame ⟨x, hx, by simpa using he, rfl⟩

theorem view_pin {s s' : Session δ} {x : Hold} (hlive : (s.contents x.id).isSome)
    (hclean : x.changed = false) (hcontents : s'.contents = s.contents)
    (hholds : s'.holds = x :: s.holds) : s.view.Pin s'.view x.id x.frame where
  other i hne := agree_cons hne (by rw [hcontents]) hholds
  live := by
    simp only [view, hcontents]
    exact hlive
  image page := by simp only [view, hcontents]
  pins := by
    rintro n rfl
    simp [view, hholds]
  first hnot := by simp [view, hholds, countP_eq_zero_of_not_held hnot]
  held := by
    rintro g ⟨y, hy, he, rfl⟩
    rw [hholds] at hy
    rcases List.mem_cons.mp hy with rfl | hy
    · exact Or.inl rfl
    · exact Or.inr ⟨y, hy, he, rfl⟩
  pending := by simp [view, hholds, hclean]

theorem view_new [PageData δ] {s s' : Session δ} {x : Hold}
    (hcontents : s'.contents = Function.update s.contents x.id
      (some { Page.clear with pageId := x.id }))
    (hholds : s'.holds = x :: s.holds) (hnot : ∀ f, ¬ s.view.held x.id f) :
    s.view.New s'.view x.id x.frame where
  other i hne := by
    refine agree_cons hne ?_ hholds
    rw [hcontents, Function.update_of_ne hne]
  live := by simp [view, hcontents]
  image := by simp [view, hcontents]
  pins := by simp [view, hholds, countP_eq_zero_of_not_held hnot]
  held := by
    rintro g ⟨y, hy, he, rfl⟩
    rw [hholds] at hy
    rcases List.mem_cons.mp hy with rfl | hy
    · rfl
    · exact (hnot y.frame ⟨y, hy, he, rfl⟩).elim

theorem view_unpin {s s' : Session δ} {x : Hold} {dirty : Bool} (hdirty : x.changed → dirty)
    (hcontents : s'.contents = s.contents) (hholds : s.holds.Perm (x :: s'.holds)) :
    s.view.Unpin s'.view x.id dirty where
  other i hne := agree_of_perm hne (by rw [hcontents]) hholds
  live := by simp only [view, hcontents]
  image page := by simp only [view, hcontents]
  pins := by
    rintro n rfl
    simp [view, hholds.countP_eq]
  held := by
    rintro g ⟨y, hy, he, rfl⟩
    exact ⟨y, hholds.mem_iff.mpr (List.mem_cons_of_mem _ hy), he, rfl⟩
  pending := by
    rintro hclean ⟨y, hy, he, hchanged⟩
    rcases List.mem_cons.mp (hholds.mem_iff.mp hy) with rfl | hy
    · rw [hdirty hchanged] at hclean
      cases hclean
    · exact ⟨y, hy, he, hchanged⟩

/-- The page under a pointer changes, but not its id. -/
theorem coherent_write {s s' : Session δ} {x : Hold} {page : Page δ} {holds : List Hold}
    (h : Coherent s.view s.pool) (hx : s.holds.Perm (x :: holds)) (hpage : page.pageId = x.id)
    (hcontents : s'.contents = Function.update s.contents x.id (some page))
    (hholds : s'.holds.Perm ({ x with changed := true } :: holds)) :
    Coherent s'.view (s.pool.setFrame x.frame { s.pool.frames x.frame with page }) := by
  have hmem : x ∈ s.holds := hx.mem_iff.mpr List.mem_cons_self
  have hlook := h.held ⟨x, hmem, rfl, rfl⟩
  have hfiled := h.filed hlook
  have hcount : ∀ q : Hold → Bool, q { x with changed := true } = q x →
      s'.holds.countP q = s.holds.countP q := by
    intro q hq
    rw [hholds.countP_eq, hx.countP_eq, List.countP_cons, List.countP_cons, hq]
  refine h.update hlook (fun i hne => agree ?_ ?_ fun y he => ?_) (fun _ _ => rfl)
    ⟨?_, hfiled.inUse, ⟨?_, hpage⟩, ?_, ?_⟩ ?_
  · rw [hcontents, Function.update_of_ne hne]
  · exact hcount _ rfl
  · rw [hholds.mem_iff, hx.mem_iff, List.mem_cons, List.mem_cons]
    refine or_congr_left ⟨?_, ?_⟩
    · rintro rfl
      exact (hne he.symm).elim
    · rintro rfl
      exact (hne he.symm).elim
  · simp [view, hcontents]
  · simp [hcontents]
  · exact hfiled.pins.trans (hcount _ rfl).symm
  · intro _ hpending
    exact (hpending ⟨_, hholds.mem_iff.mpr List.mem_cons_self, rfl, rfl⟩).elim
  · rintro g ⟨y, hy, he, rfl⟩
    rcases List.mem_cons.mp (hholds.mem_iff.mp hy) with rfl | hy
    · rfl
    · have hy' := h.held ⟨y, hx.mem_iff.mpr (List.mem_cons_of_mem _ hy), he, rfl⟩
      rw [hlook] at hy'
      exact (Option.some.inj hy').symm

/-- The pool shows the client its pages, and no id is used twice. -/
structure Sound (s : Session δ) : Prop where
  coherent : Coherent s.view s.pool
  accounted : s.pool.disk.Accounted fun id => (s.contents id).isSome

/-- What the client sees. -/
structure Transparent [PageData δ] (s : Session δ) : Prop where
  /-- A page that is fetched has the contents it was given last. -/
  fetch : ∀ id f p', (s.contents id).isSome → exec (fetchPage id) s.pool = (.ok (some f), p') →
    s.contents id = some (p'.frames f).page
  /-- A pinned page stays in its frame, with its contents. -/
  held : ∀ h ∈ s.holds, s.pool.pageTable.lookup h.id = some h.frame ∧
    s.contents h.id = some (s.pool.frames h.frame).page
  /-- With nothing pinned, `flush_all` puts all contents into the file. -/
  flushed : ∀ order, order.toFinset = s.pool.pageTable.keys → s.holds = [] →
    ∃ p', exec (flushAll order) s.pool = (.ok (), p') ∧
      ∀ id page, s.contents id = some page → p'.disk.file id = page

section Sound

variable {s s' : Session δ}

theorem Sound.nonneg (h : Sound s) : ∀ id, s.view.live id → 0 ≤ id :=
  fun id hid => (h.accounted.range id (Or.inl hid)).1.le

variable [PageData δ]

theorem Sound.transparent (h : Sound s) : Transparent s where
  fetch id f p' hlive hexec := by
    rcases h.coherent.fetchPage h.nonneg hlive (h.accounted.readable hlive) with
      hnone | ⟨f', p₁, hsome, -, himage, -⟩
    · rw [hexec] at hnone
      cases hnone
    · rw [hexec] at hsome
      cases hsome
      exact himage.1
  held x hx := by
    have hlook := h.coherent.held ⟨x, hx, rfl, rfl⟩
    exact ⟨hlook, (h.coherent.filed hlook).image.1⟩
  flushed order horder hnil := by
    have hall : ∀ id ∈ s.pool.pageTable, id ∈ order := by
      intro id hid
      rw [← List.mem_toFinset, horder]
      exact Finmap.mem_keys.mpr hid
    have hpending : ∀ id, ¬ s.view.pending id := by
      rintro id ⟨x, hx, -⟩
      rw [hnil] at hx
      cases hx
    obtain ⟨p', hexec, -, -, hfile⟩ := h.coherent.flushAll_file h.nonneg hall hpending
    refine ⟨p', hexec, fun id page hpage => ?_⟩
    have himage := hfile id (show (s.contents id).isSome by rw [hpage]; rfl)
    exact Option.some.inj (himage.1.symm.trans hpage)

/-! ## The calls -/

theorem Sound.fetchPage (h : Sound s) {id : PageId} (hs : s.step (.fetchPage id) = some s') :
    Sound s' := by
  obtain ⟨hlive, ⟨r, pool⟩, hexec, hs⟩ := guard_bind_eq_some.mp hs
  rw [returned_eq_some] at hexec
  rcases h.coherent.fetchPage h.nonneg hlive (h.accounted.readable hlive) with
    hnone | ⟨f, p', hsome, hwrites, -, hcoh⟩
  · rw [hexec] at hnone
    cases hnone
    cases hs
    exact h
  · rw [hexec] at hsome
    cases hsome
    cases hs
    exact ⟨hcoh _ (view_pin (x := ⟨id, f, false⟩) hlive rfl rfl rfl), h.accounted.writesTo hwrites⟩

theorem Sound.newPage (h : Sound s) (hs : s.step .newPage = some s') : Sound s' := by
  obtain ⟨⟨r, pool⟩, hexec, hs⟩ := Option.bind_eq_some_iff.mp hs
  rw [returned_eq_some] at hexec
  obtain ⟨id, d, hnew, hgives⟩ := h.accounted.newPageId
  obtain ⟨⟨hfresh, -⟩, hfile, haccounted⟩ := h.accounted.gives hgives
  have hcoh₁ : Coherent s.view { s.pool with disk := d } := h.coherent.disk hfile
  rw [BufferPool.newPage, exec_bind_ok (by rw [exec_onDisk, hnew])] at hexec
  rcases hcoh₁.newFrame h.nonneg hfresh with ⟨e, -, herr⟩ | ⟨f, p', hok, hwrites, hcoh⟩
  · rw [herr] at hexec
    cases hexec
  · rw [hok] at hexec
    cases hexec
    cases hs
    have hnot : ∀ g, ¬ s.view.held id g :=
      fun g hg => hfresh (h.coherent.filed (h.coherent.held hg)).live
    refine ⟨hcoh _ (view_new (x := ⟨id, f, false⟩) rfl rfl hnot), (haccounted _ fun i => ?_).writesTo hwrites⟩
    by_cases hne : i = id
    · subst hne
      simp
    · simp [hne]

theorem Sound.write (h : Sound s) {x : Hold} {data : δ} (hs : s.step (.write x data) = some s') :
    Sound s' := by
  obtain ⟨hx, hs⟩ : x ∈ s.holds ∧ _ := by
    by_cases hx : x ∈ s.holds
    · exact ⟨hx, by simpa [step, hx, guard] using hs⟩
    · simp [step, hx, guard] at hs
  subst hs
  have hfiled := h.coherent.filed (h.coherent.held ⟨x, hx, rfl, rfl⟩)
  refine ⟨coherent_write h.coherent (List.perm_cons_erase hx) hfiled.header ?_ (.refl _), ?_⟩
  · rw [← hfiled.header]
  · have hlive : (fun id => ((Function.update s.contents x.id
        (some { pageId := x.id, data })) id).isSome = true) =
          fun id => (s.contents id).isSome = true := by
      funext i
      by_cases hne : i = x.id
      · subst hne
        simp [show (s.contents x.id).isSome = true from hfiled.live]
      · simp [hne]
    change Disk.Accounted _ s.pool.disk
    rw [hlive]
    exact h.accounted

theorem Sound.unpinPage (h : Sound s) {x : Hold} {dirty : Bool}
    (hs : s.step (.unpinPage x dirty) = some s') : Sound s' := by
  obtain ⟨⟨hx, hdirty⟩, ⟨r, pool⟩, hexec, hs⟩ := guard_bind_eq_some.mp hs
  rw [returned_eq_some] at hexec
  cases hs
  have hlook := h.coherent.held ⟨x, hx, rfl, rfl⟩
  have hview : s.view.Unpin (view { s with pool, holds := s.holds.erase x }) x.id dirty :=
    view_unpin hdirty rfl (List.perm_cons_erase hx)
  obtain ⟨p', hexec', hdisk, hcoh⟩ := h.coherent.unpinPage hlook hview
  rw [hexec] at hexec'
  cases hexec'
  exact ⟨hcoh, by rw [hdisk]; exact h.accounted⟩

omit [PageData δ] in
theorem Sound.flush (h : Sound s) {pool : BufferPool δ} (hcoh : Coherent s.view pool)
    (hwrites : WritesTo s.view s.pool.disk pool.disk) : Sound { s with pool } :=
  ⟨hcoh, h.accounted.writesTo hwrites⟩

theorem Sound.flushPage (h : Sound s) {id : PageId} (hs : s.step (.flushPage id) = some s') :
    Sound s' := by
  obtain ⟨⟨r, pool⟩, hexec, hs⟩ := Option.bind_eq_some_iff.mp hs
  rw [returned_eq_some] at hexec
  cases hs
  obtain ⟨r', p', hexec', hcoh, hwrites⟩ := h.coherent.flushPage h.nonneg id
  rw [hexec] at hexec'
  cases hexec'
  exact h.flush hcoh hwrites

theorem Sound.flushAll (h : Sound s) {order : List PageId}
    (hs : s.step (.flushAll order) = some s') : Sound s' := by
  obtain ⟨-, ⟨r, pool⟩, hexec, hs⟩ := guard_bind_eq_some.mp hs
  rw [returned_eq_some] at hexec
  cases hs
  obtain ⟨p', hexec', hcoh, hwrites, -⟩ := h.coherent.flushAll h.nonneg order
  rw [hexec] at hexec'
  cases hexec'
  exact h.flush hcoh hwrites

theorem Sound.deletePage (h : Sound s) {id : PageId} (hs : s.step (.deletePage id) = some s') :
    Sound s' := by
  obtain ⟨hlive, ⟨r, pool⟩, hexec, hs⟩ := guard_bind_eq_some.mp hs
  rw [returned_eq_some] at hexec
  cases hs
  have hpin := unpinned_of_deletePage hexec
  obtain ⟨p₁, hexec', hdisk, hcoh⟩ := h.coherent.deletePage hpin
  rw [hexec', exec_onDisk, hdisk] at hexec
  have hlen := Disk.length_lt_of_free (Prod.mk.inj hexec).1
  rw [h.accounted.exec_free id hlen] at hexec
  cases hexec
  obtain ⟨hfile, haccounted⟩ := h.accounted.pushed hlive hlen
  have hnot : ∀ x ∈ s.holds, x.id ≠ id := by
    rintro x hx rfl
    have hlook := h.coherent.held ⟨x, hx, rfl, rfl⟩
    have hpins := (h.coherent.filed hlook).pins
    rw [hpin _ hlook] at hpins
    exact s.view.pinned (Or.inr ⟨x.frame, x, hx, rfl, rfl⟩) hpins
  have hcoh₁ := hcoh (view { s with contents := Function.update s.contents id none })
    (fun i hne => agree (Function.update_of_ne hne _ _) rfl fun _ _ => Iff.rfl) (by simp [view])
    (by rintro g ⟨x, hx, he, -⟩; exact hnot x hx he)
  refine ⟨hcoh₁.disk fun i hi => ?_, haccounted _ fun i => ?_⟩
  · rw [hdisk]
    refine hfile i ?_
    by_cases hne : i = id
    · subst hne
      exact hlive
    · simpa [view, hne] using hi
  · by_cases hne : i = id
    · subst hne
      simp
    · simp [hne]

theorem Sound.step (h : Sound s) {c : ClientCall δ} (hs : s.step c = some s') : Sound s' := by
  cases c with
  | fetchPage id => exact h.fetchPage hs
  | newPage => exact h.newPage hs
  | write x data => exact h.write hs
  | unpinPage x dirty => exact h.unpinPage hs
  | flushPage id => exact h.flushPage hs
  | flushAll order => exact h.flushAll hs
  | deletePage id => exact h.deletePage hs

end Sound

/-- A session on a file that holds the pages the client has. -/
def start [PageData δ] (d : Disk δ) (contents : PageId → Option (Page δ)) : Session δ :=
  { pool := init d, contents, holds := [] }

theorem Sound.start [PageData δ] {d : Disk δ} {contents : PageId → Option (Page δ)}
    (hd : d.Accounted fun id => (contents id).isSome)
    (hfile : ∀ id page, contents id = some page → d.file id = page ∧ page.pageId = id) :
    Sound (start d contents) where
  coherent := by
    refine .init (fun id hid => ?_) ?_
    · obtain ⟨page, hpage⟩ := Option.isSome_iff_exists.mp hid
      obtain ⟨he, hheader⟩ := hfile id page hpage
      rw [he]
      exact ⟨hpage, hheader⟩
    · rintro id f ⟨x, hx, -⟩
      cases hx
  accounted := hd

/-- **Transparency.** After every run of a client that keeps to the rules, from a file whose free
list is in order, the client sees its own pages. -/
theorem transparent_along [PageData δ] {d : Disk δ} {contents : PageId → Option (Page δ)}
    (hd : d.Accounted fun id => (contents id).isSome)
    (hfile : ∀ id page, contents id = some page → d.file id = page ∧ page.pageId = id)
    (calls : List (ClientCall δ)) {s : Session δ}
    (hrun : run step (start d contents) calls = some s) : Transparent s := by
  have hsound : Sound s := by
    refine run_inv (C := fun _ _ => True) ?_ (Sound.start hd hfile)
      (steps_of_forall (fun _ _ => trivial) _ _) hrun
    intro s c s' hs _ hstep
    exact hs.step hstep
  exact hsound.transparent

/-- On a new file: a page is made, written and unpinned, another one made and deleted. -/
theorem transparent_along_new_file :
    let d := (exec Disk.load (Disk.empty : Disk RawPage)).2
    let h : Hold := { id := 1, frame := ⟨63, by decide⟩ }
    ∃ s, run step (start d fun _ => none) [.newPage, .write h RawPage.zero,
        .unpinPage { h with changed := true } true, .newPage,
        .unpinPage { id := 2, frame := ⟨62, by decide⟩ } true, .deletePage 2, .flushAll [1]] = some s ∧
      s.holds = [] ∧ Transparent s := by
  intro d h
  have hd : d.Accounted fun id => ((fun _ => none : PageId → Option (Page RawPage)) id).isSome :=
    ⟨List.nodup_nil, nofun, fun id hid => (hid.elim nofun nofun), Nat.zero_le _, fun _ => rfl,
      Nat.one_pos⟩
  have hrun : (run step (start d fun _ => none) [.newPage, .write h RawPage.zero,
      .unpinPage { h with changed := true } true, .newPage,
      .unpinPage { id := 2, frame := ⟨62, by decide⟩ } true, .deletePage 2, .flushAll [1]]).map
        (fun s => s.holds) = some [] := by decide +kernel
  obtain ⟨s, hs, hholds⟩ := Option.map_eq_some_iff.mp hrun
  exact ⟨s, hs, hholds, transparent_along hd (by nofun) _ hs⟩

end Session

end BufferPool

end KeyVDB
