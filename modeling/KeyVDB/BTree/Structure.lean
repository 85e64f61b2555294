import KeyVDB.BTree.InsertKeeps

/-!
# The structure of the tree

What the comments in `btree.h` and `node.h` promise of the pages, said of the pages alone: the
labels of `Shape` do not occur. `Subtree` unfolds the children of a page down to leaves at one
depth and lists the pages and the leaves from left to right; a page that is reached by two paths is
listed twice. `Structured` says that the tree at the root is such a subtree, that its leaves are
linked both ways, and that it has each page that was taken from the pool, once.
-/

namespace KeyVDB

namespace BTree

mutual

/-- The page `p` is the root of a subtree of height `h` for the keys from `lo` to `hi`. -/
inductive Subtree (t : BTree Store) : PageId → Nat → Bytes → WithTop Bytes → PageId →
    List PageId → List PageId → Prop
  | leaf {parent p : PageId} {lo : Bytes} {hi : WithTop Bytes} {n : Node Bytes} :
      t.store.pages p = { pageId := p, data := .leaf n } → n.hdr.parentId = parent →
      Sorted n.cells → (∀ c ∈ n.cells, lo ≤ c.1 ∧ (c.1 : WithTop Bytes) < hi) →
      Subtree t parent 0 lo hi p [p] [p]
  | internal {parent p : PageId} {h : Nat} {lo : Bytes} {hi : WithTop Bytes} {n : Node PageId}
      {pages leaves : List PageId} :
      t.store.pages p = { pageId := p, data := .internal n } → n.hdr.parentId = parent →
      Sorted n.cells → (∀ c ∈ n.cells, lo < c.1 ∧ (c.1 : WithTop Bytes) < hi) →
      Forest t p h hi ((lo, n.hdr.firstChild) :: n.cells) pages leaves →
      Subtree t parent (h + 1) lo hi p (p :: pages) leaves

/-- The children of `parent`, each for the keys from its own separator to the next. -/
inductive Forest (t : BTree Store) : PageId → Nat → WithTop Bytes → List (Bytes × PageId) →
    List PageId → List PageId → Prop
  | nil {parent : PageId} {h : Nat} {hi : WithTop Bytes} : Forest t parent h hi [] [] []
  | cons {parent : PageId} {h : Nat} {hi : WithTop Bytes} {x : Bytes × PageId}
      {rest : List (Bytes × PageId)} {pages pages' leaves leaves' : List PageId} :
      Subtree t parent h x.1 (nextKey hi rest) x.2 pages leaves →
      Forest t parent h hi rest pages' leaves' →
      Forest t parent h hi (x :: rest) (pages ++ pages') (leaves ++ leaves')

end

/-- The pages are linked to the right and to the left, from `prev` on. -/
def Linked (t : BTree Store) : PageId → List PageId → Prop
  | _, [] => True
  | prev, p :: rest => (t.store.pages p).hdr.leftSibling = prev ∧
      (t.store.pages p).hdr.rightSibling = rest.head?.getD INVALID_PAGE_ID ∧ Linked t p rest

/-- The tree over the pages that were taken since the pool was `s₀`. -/
structure Structured (s₀ : Store) (t : BTree Store) (h : Nat) (pages leaves : List PageId) :
    Prop where
  tree : Subtree t INVALID_PAGE_ID h [] ⊤ t.rootPageId pages leaves
  linked : Linked t INVALID_PAGE_ID leaves
  nodup : pages.Nodup
  taken : ∀ p, p ∈ pages ↔ (view t).Taken s₀ p
  slot : t.store.rootId = t.rootPageId

/-! ## From labels to pages -/

/-- The leaves whose intervals fill the one from `lo` to `hi`, in order. -/
def Tiles (lab : Labels) : WithTop Bytes → WithTop Bytes → List PageId → Prop
  | lo, hi, [] => lo = hi
  | lo, hi, p :: rest => ∃ (k : Bytes) (mid : WithTop Bytes), lo = k ∧ lab p = some ⟨0, k, mid⟩ ∧
      Tiles lab mid hi rest

theorem Tiles.append {lab : Labels} {lo mid hi : WithTop Bytes} {a b : List PageId}
    (ha : Tiles lab lo mid a) (hb : Tiles lab mid hi b) : Tiles lab lo hi (a ++ b) := by
  induction a generalizing lo with
  | nil =>
    cases ha
    exact hb
  | cons p a ih =>
    obtain ⟨k, m, rfl, hp, ha⟩ := ha
    exact ⟨k, m, rfl, hp, ih ha⟩

section Pages

variable {s₀ : Store} {t : BTree Store} {lab : Labels} {m : Bytes → Option Bytes}

/-- The pages are those whose labels are not higher than `h` and start between `lo` and `hi`. -/
structure Lists (lab : Labels) (h : Nat) (lo hi : WithTop Bytes) (pages leaves : List PageId) :
    Prop where
  nodup : pages.Nodup
  mem : ∀ {x}, x ∈ pages ↔ ∃ L, lab x = some L ∧ L.height ≤ h ∧ lo ≤ L.lo ∧
    (L.lo : WithTop Bytes) < hi
  tiles : Tiles lab lo hi leaves

theorem Lists.nil {h : Nat} (hi : WithTop Bytes) : Lists lab h hi hi [] [] := by
  refine ⟨List.nodup_nil, fun {x} => ⟨nofun, ?_⟩, rfl⟩
  rintro ⟨L, -, -, hle, hlt⟩
  exact (hle.not_gt hlt).elim

/-- Two neighbouring intervals. -/
theorem Lists.append {h : Nat} {lo mid hi : WithTop Bytes} {pages pages' leaves leaves' : List PageId}
    (ha : Lists lab h lo mid pages leaves) (hb : Lists lab h mid hi pages' leaves')
    (hlo : lo ≤ mid) (hhi : mid ≤ hi) : Lists lab h lo hi (pages ++ pages') (leaves ++ leaves') := by
  refine ⟨List.nodup_append.mpr ⟨ha.nodup, hb.nodup, ?_⟩, fun {x} => ?_, ha.tiles.append hb.tiles⟩
  · rintro x hx _ hy rfl
    obtain ⟨L, hL, -, -, hlt⟩ := ha.mem.mp hx
    obtain ⟨L', hL', -, hle, -⟩ := hb.mem.mp hy
    cases hL.symm.trans hL'
    exact hle.not_gt hlt
  · rw [List.mem_append, ha.mem, hb.mem]
    constructor
    · rintro (⟨L, hL, hh, hle, hlt⟩ | ⟨L, hL, hh, hle, hlt⟩)
      · exact ⟨L, hL, hh, hle, hlt.trans_le hhi⟩
      · exact ⟨L, hL, hh, hlo.trans hle, hlt⟩
    · rintro ⟨L, hL, hh, hle, hlt⟩
      rcases lt_or_ge (L.lo : WithTop Bytes) mid with hmid | hmid
      · exact Or.inl ⟨L, hL, hh, hle, hmid⟩
      · exact Or.inr ⟨L, hL, hh, hmid, hlt⟩

/-- The subtree of a page is what its label says. -/
def SubtreeOk (t : BTree Store) (lab : Labels) (h : Nat) (p : PageId) (L : Label Bytes) : Prop :=
  ∃ pages leaves, Subtree t (fullView t |>.parent p) h L.lo L.hi p pages leaves ∧
    Lists lab h L.lo L.hi pages leaves

/-- The subtrees of the children follow one another. -/
theorem forest_of_chain {h : Nat} {par : PageId} {hi : WithTop Bytes}
    {es : List (Bytes × PageId)} (hc : Chain lab h hi es)
    (hparent : ∀ e ∈ es, (fullView t).parent e.2 = par)
    (hsub : ∀ {p L}, lab p = some L → L.height = h → SubtreeOk t lab h p L) :
    ∃ pages leaves, Forest t par h hi es pages leaves ∧
      Lists lab h (nextKey hi es) hi pages leaves := by
  induction es with
  | nil => exact ⟨[], [], .nil, .nil hi⟩
  | cons x es ih =>
    obtain ⟨hx, hlt, hc'⟩ := hc
    obtain ⟨pages, leaves, hsubtree, hlists⟩ := hsub hx rfl
    obtain ⟨pages', leaves', hforest, hlists'⟩ :=
      ih hc' fun e he => hparent e (List.mem_cons_of_mem x he)
    have hle : nextKey hi es ≤ hi := by
      cases es with
      | nil => exact le_rfl
      | cons y es => exact (hc'.lt_hi List.mem_cons_self).le
    rw [hparent x List.mem_cons_self] at hsubtree
    exact ⟨_, _, .cons hsubtree hforest, hlists.append hlists' hlt.le hle⟩

theorem eq_of_height (h : Shape (view t) lab lab m) {p x : PageId} {L Lx : Label Bytes}
    (hp : lab p = some L) (hx : lab x = some Lx) (hh : Lx.height = L.height) (hlo : L.lo ≤ Lx.lo)
    (hhi : (Lx.lo : WithTop Bytes) < L.hi) : x = p :=
  h.apart hx hp hh (h.proper hx).mem ⟨hlo, hhi⟩

/-- **The subtree of a page**, by induction on its height. -/
theorem subtreeOk (h : Shape (view t) lab lab m) (hl : Links s₀ (fullView t) lab) {j : Nat}
    {p : PageId} {L : Label Bytes} (hp : lab p = some L) (hL : L.height = j) :
    SubtreeOk t lab j p L := by
  have hself : (L.lo : WithTop Bytes) ≤ L.lo ∧ (L.lo : WithTop Bytes) < L.hi :=
    ⟨le_rfl, h.proper hp⟩
  induction j generalizing p L with
  | zero =>
    obtain ⟨N, hN⟩ := (h.page hp).leaf hL
    obtain ⟨n | n, hpage, hbare⟩ := node_content hN.node
    swap
    · cases hbare
    cases hbare
    refine ⟨[p], [p], .leaf hpage ?_ hN.sorted hN.mem, List.nodup_singleton p, fun {x} => ?_, ?_⟩
    · change _ = (t.store.pages p).hdr.parentId
      rw [hpage]
      rfl
    · rw [List.mem_singleton]
      constructor
      · rintro rfl
        exact ⟨L, hp, hL.le, hself⟩
      · rintro ⟨Lx, hx, hh, hlo, hhi⟩
        exact eq_of_height h hp hx ((Nat.le_zero.mp hh).trans hL.symm) (WithTop.coe_le_coe.mp hlo) hhi
    · exact ⟨L.lo, L.hi, rfl, by rw [hp, ← hL], rfl⟩
  | succ j ih =>
    obtain ⟨N, hN⟩ := (h.page hp).internal hL
    obtain ⟨n | n, hpage, hbare⟩ := node_content hN.node
    · cases hbare
    cases hbare
    have hparent : ∀ e ∈ entries L.lo n.bare, (fullView t).parent e.2 = p := fun e he =>
      hl.parent hp hN.node e.2 ((mem_children L.lo).mpr ⟨e.1, he⟩)
    obtain ⟨pages, leaves, hforest, hlists⟩ := forest_of_chain hN.chain hparent
      fun hx hLx => ih hx hLx ⟨le_rfl, h.proper hx⟩
    refine ⟨p :: pages, leaves, .internal hpage ?_ ?_ ?_ hforest, ?_, fun {x} => ?_, hlists.tiles⟩
    · change _ = (t.store.pages p).hdr.parentId
      rw [hpage]
      rfl
    · exact (Sorted.cons_iff.mp hN.chain.sorted).2
    · intro c hc
      exact ⟨(Sorted.cons_iff.mp hN.chain.sorted).1 c hc,
        hN.chain.lt_hi (List.mem_cons_of_mem _ hc)⟩
    · refine List.nodup_cons.mpr ⟨fun hmem => ?_, hlists.nodup⟩
      obtain ⟨Lx, hx, hh, -⟩ := hlists.mem.mp hmem
      cases hp.symm.trans hx
      omega
    · rw [List.mem_cons, hlists.mem]
      constructor
      · rintro (rfl | ⟨Lx, hx, hh, hmem⟩)
        · exact ⟨L, hp, hL.le, hself⟩
        · exact ⟨Lx, hx, hh.trans (Nat.le_succ j), hmem⟩
      · rintro ⟨Lx, hx, hh, hlo, hhi⟩
        rcases hh.eq_or_lt with hh | hh
        · exact Or.inl (eq_of_height h hp hx (hh.trans hL.symm) (WithTop.coe_le_coe.mp hlo) hhi)
        · exact Or.inr ⟨Lx, hx, Nat.le_of_lt_succ hh, hlo, hhi⟩

/-- What stands to the left of the key `k`. -/
def Before (lab : Labels) (k : Bytes) (prev : PageId) : Prop :=
  k = [] ∧ prev = INVALID_PAGE_ID ∨ ∃ lo, lab prev = some ⟨0, lo, k⟩

/-- The leaves that fill an interval up to the end are linked. -/
theorem linked_of_tiles (h : Shape (view t) lab lab m) (hl : Links s₀ (fullView t) lab)
    {ps : List PageId} {prev : PageId} {lo : WithTop Bytes} (ht : Tiles lab lo ⊤ ps)
    (hprev : ∀ k : Bytes, lo = k → Before lab k prev) : Linked t prev ps := by
  induction ps generalizing prev lo with
  | nil => exact trivial
  | cons p ps ih =>
    obtain ⟨k, mid, rfl, hp, ht⟩ := ht
    obtain ⟨N, hN⟩ := (h.page hp).leaf rfl
    obtain ⟨n | n, hpage, hbare⟩ := node_content hN.node
    swap
    · cases hbare
    cases hbare
    refine ⟨?_, ?_, ih ht ?_⟩
    · have hleft := hl.left hp
      rcases hprev k rfl with ⟨rfl, rfl⟩ | ⟨lo, hlo⟩
      · exact hleft.first rfl
      · have hproper : (lo : WithTop Bytes) < k := h.proper hlo
        obtain ⟨lo', hlo'⟩ := hleft.prev (by
          rintro rfl
          exact List.not_lt_nil _ (WithTop.coe_lt_coe.mp hproper))
        exact Apart.eq_of_hi_eq h.apart hlo' hlo rfl (h.proper hlo') (h.proper hlo) rfl
    · have hright : RightOk lab mid n.hdr.rightSibling := hN.right
      have hhdr : (t.store.pages p).hdr.rightSibling = n.hdr.rightSibling := by
        rw [hpage]
        rfl
      rw [hhdr]
      cases ps with
      | nil =>
        cases ht
        exact hright.last rfl
      | cons q ps =>
        obtain ⟨x, mid', rfl, hq, -⟩ := ht
        obtain ⟨hi', hr⟩ := hright.next x rfl
        exact h.apart hr hq rfl (h.proper hr).mem (h.proper hq).mem
    · rintro x rfl
      exact Or.inr ⟨k, hp⟩

/-- **A tree at rest with all its links is structured.** -/
theorem structured_of_atRest (h : AtRest s₀ m (fullView t)) :
    ∃ height pages leaves, Structured s₀ t height pages leaves := by
  obtain ⟨lab, hs, hl⟩ := h
  obtain ⟨j, hroot, htop⟩ := hs.root
  obtain ⟨pages, leaves, hsub, hlists⟩ := subtreeOk hs hl hroot rfl
  rw [hl.root] at hsub
  refine ⟨j, pages, leaves, hsub, ?_, hlists.nodup, fun p => ?_, hl.slot⟩
  · refine linked_of_tiles hs hl hlists.tiles ?_
    intro k hk
    exact Or.inl ⟨(WithTop.coe_injective hk).symm, rfl⟩
  · refine hlists.mem.trans (Iff.trans ?_ hl.taken)
    constructor
    · rintro ⟨L, hL, -⟩
      exact ⟨L, hL⟩
    · rintro ⟨L, hL⟩
      exact ⟨L, hL, htop hL, WithTop.coe_le_coe.mpr (nil_le_bytes _), WithTop.coe_lt_top _⟩

end Pages

/-! ## Trees that are built by insertions -/

section Built

variable {s₀ : Store} {F : FullHeap} {m : Bytes → Option Bytes}

/-- The label of the only page of a new tree. -/
def singleLab (p : PageId) : Labels := Function.update (fun _ => none) p (some ⟨0, [], ⊤⟩)

theorem singleLab_self (p : PageId) : singleLab p p = some ⟨0, [], ⊤⟩ := Function.update_self ..

theorem singleLab_eq_some {p x : PageId} {L : Label Bytes} (h : singleLab p x = some L) :
    x = p ∧ L = ⟨0, [], ⊤⟩ := by
  by_cases hne : x = p
  · subst hne
    rw [singleLab_self] at h
    exact ⟨rfl, (Option.some.inj h).symm⟩
  · rw [singleLab, Function.update_of_ne hne] at h
    cases h

theorem shape_single {H : Heap} (h : H.PoolOk) :
    Shape ((H.alloc.put H.next (.leaf (Node.init INVALID_PAGE_ID))).setRoot H.next)
      (singleLab H.next) (singleLab H.next) fun _ => none := by
  constructor
  case page =>
    intro p L hp
    obtain ⟨rfl, rfl⟩ := singleLab_eq_some hp
    refine LeafOk.pageOk (N := Node.init INVALID_PAGE_ID)
      ⟨by simp [Heap.setRoot], List.Pairwise.nil, nofun, fun _ _ => rfl, fun _ => rfl, ?_⟩ rfl
    intro x hx
    cases hx
  case live =>
    intro p L hp
    obtain ⟨rfl, rfl⟩ := singleLab_eq_some hp
    exact h.next_live
  case proper =>
    intro p L hp
    obtain ⟨rfl, rfl⟩ := singleLab_eq_some hp
    exact WithTop.coe_lt_top _
  case apart =>
    exact fun hp hq _ _ _ => (singleLab_eq_some hp).1.trans (singleLab_eq_some hq).1.symm
  case apart_seen =>
    exact fun hp hq _ _ _ => (singleLab_eq_some hp).1.trans (singleLab_eq_some hq).1.symm
  case root => exact ⟨0, singleLab_self _, fun hp => by rw [(singleLab_eq_some hp).2]⟩
  case free_nodup => exact h.free_alloc.1
  case free_live => exact h.free_alloc.2
  case numPages_pos => exact h.numPages_pos.trans_le h.alloc_numPages

theorem links_single {F' : FullHeap} (hpool : F.heap.PoolOk)
    (hfree : F.heap.freePages = s₀.freePages) (hnum : F.heap.numPages = s₀.numPages)
    (hheap : F'.heap =
      (F.heap.alloc.put F.heap.next (.leaf (Node.init INVALID_PAGE_ID))).setRoot F.heap.next)
    (hparent : F'.parent F.heap.next = INVALID_PAGE_ID)
    (hleft : F'.left F.heap.next = INVALID_PAGE_ID) (hslot : F'.slot = F.heap.next) :
    Links s₀ F' (singleLab F.heap.next) := by
  have htaken : ∀ {x}, F.heap.alloc.Taken s₀ x ↔ x = F.heap.next := by
    intro x
    rw [hpool.taken_alloc (by rw [hfree]; exact List.Subset.refl _) hnum.ge, or_iff_right]
    -- nothing is taken yet
    rintro (⟨hmem, hnot⟩ | ⟨hle, hlt⟩)
    · exact hnot (hfree ▸ hmem)
    · rw [hnum] at hlt
      exact hle.not_gt hlt
  constructor
  case parent =>
    intro p L N hp hN
    obtain ⟨rfl, -⟩ := singleLab_eq_some hp
    rw [hheap] at hN
    change (F.heap.alloc.put _ _).node _ = _ at hN
    rw [Heap.put_node_self] at hN
    cases hN
  case root =>
    rw [hheap]
    exact hparent
  case left =>
    intro p lo hi hp
    obtain ⟨rfl, hL⟩ := singleLab_eq_some hp
    cases hL
    exact ⟨fun _ => hleft, fun hlo => (hlo rfl).elim⟩
  case taken =>
    intro p
    rw [hheap]
    refine Iff.trans ?_ htaken.symm
    constructor
    · rintro ⟨L, hp⟩
      exact (singleLab_eq_some hp).1
    · rintro rfl
      exact ⟨_, singleLab_self _⟩
  case free_subset =>
    rw [hheap, ← hfree]
    exact fun _ hx => Heap.PoolOk.mem_of_alloc hx
  case numPages_le =>
    rw [hheap, ← hnum]
    exact hpool.alloc_numPages
  case slot =>
    rw [hheap, hslot]
    rfl

/-- **`create`** makes a tree with one leaf, so there is no internal node. -/
theorem ends_create (hpool : F.heap.PoolOk) (hfree : F.heap.freePages = s₀.freePages)
    (hnum : F.heap.numPages = s₀.numPages) :
    Ends fullView create F fun _ F' => Rests s₀ (fun _ => none) True F' := by
  have hbare : (AnyNode.leaf (Node.init INVALID_PAGE_ID)).bare =
      .leaf (Node.init INVALID_PAGE_ID) := rfl
  refine ends_newPage.seqVal ?_
  refine (ends_writePage (.leaf (Node.init _))).seq ?_
  refine (ends_unpin true).seq ?_
  refine ends_setRoot.last ?_
  have hshape := shape_single hpool
  refine ⟨_, by simpa [hbare] using hshape, links_single hpool hfree hnum ?_ ?_ ?_ rfl, ?_⟩
  · simp [hbare]
  · simp [AnyNode.hdr, Node.init]
  · simp [AnyNode.hdr, Node.init]
  · intro _ p L N hp hN
    obtain ⟨rfl, -⟩ := singleLab_eq_some hp
    simp [hbare, Heap.setRoot] at hN

/-- Insertions one after another. -/
def insertAll {σ Ptr : Type} [PageStore σ Ptr] : List (Bytes × Bytes) → BTreeM σ Unit
  | [] => pure ()
  | (key, value) :: rest => do
    insert key value
    insertAll rest

/-- **A run of insertions** that all return keeps the tree. -/
theorem ends_insertAll (kvs : List (Bytes × Bytes)) (h : ∃ m, AtRest s₀ m F) :
    Ends fullView (insertAll kvs) F fun _ F' => ∃ m, AtRest s₀ m F' := by
  induction kvs generalizing F with
  | nil => exact .pure h
  | cons kv kvs ih =>
    obtain ⟨m, lab, hs, hl⟩ := h
    refine (ends_insert hs hl).bind ?_
    rintro _ F' ⟨m', -, hrest⟩
    exact ih ⟨m', hrest⟩

/-- **Insertion keeps the structure of the tree.** The tree was made in a pool with the pages of
`s₀` and grew by insertions that returned; so does the last one. -/
theorem insert_structured (kvs : List (Bytes × Bytes)) (key value : Bytes) {t t' : BTree Store}
    (hpool : (view { store := s₀ }).PoolOk)
    (hbuilt : exec (do create; insertAll kvs) { store := s₀ } = (.ok (), t))
    (hinsert : exec (insert key value) t = (.ok (), t')) :
    (∃ height pages leaves, Structured s₀ t' height pages leaves) ∧
      ∀ k, k ≠ key → ∃ r, (exec (get k) t).1 = .ok r ∧ (exec (get k) t').1 = .ok r := by
  have hbuild : Ends fullView (do create; insertAll kvs) (fullView { store := s₀ })
      fun _ F' => ∃ m, AtRest s₀ m F' :=
    (ends_create hpool rfl rfl).bind fun _ _ hrest => ends_insertAll kvs ⟨_, hrest.atRest⟩
  obtain ⟨m, lab, hs, hl⟩ := hbuild _ _ _ rfl hbuilt
  obtain ⟨m', hkeep, hrest⟩ := ends_insert hs hl t () t' rfl hinsert
  refine ⟨structured_of_atRest hrest, fun k hk => ?_⟩
  obtain ⟨lab', hs', -⟩ := hrest
  obtain ⟨r, _, hget, hr, -⟩ := returns_get hs k t rfl
  obtain ⟨r', _, hget', hr', -⟩ := returns_get hs' k t' rfl
  refine ⟨r, by rw [hget], ?_⟩
  rw [hget', hr', hkeep k hk, hr]

set_option maxRecDepth 10000 in
/-- The second leaf is split under a root that has one separator. -/
theorem insert_structured_twoSplits :
    let built := exec (do create; insertAll [([97], List.replicate 2500 0),
      ([98], List.replicate 700 0), ([99], List.replicate 700 0), ([100], List.replicate 300 0),
      ([101], List.replicate 2000 0)]) { store := Store.init }
    let grown := exec (insert [102] (List.replicate 1500 0)) built.2
    (∃ height pages leaves, Structured Store.init grown.2 height pages leaves) ∧
      ∃ r, (exec (get [99]) built.2).1 = .ok r ∧ (exec (get [99]) grown.2).1 = .ok r := by
  have hpool : (view { store := Store.init }).PoolOk := ⟨List.nodup_nil, nofun, by decide⟩
  have hall := insert_structured [([97], List.replicate 2500 0), ([98], List.replicate 700 0),
      ([99], List.replicate 700 0), ([100], List.replicate 300 0), ([101], List.replicate 2000 0)]
    [102] (List.replicate 1500 0) hpool (exec_eq_of_isOk (by decide +kernel))
    (exec_eq_of_isOk (by decide +kernel))
  exact ⟨hall.1, hall.2 [99] (by decide)⟩

end Built

end BTree

end KeyVDB
