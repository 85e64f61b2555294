import KeyVDB.BTree.FullHeap

/-!
# Back links under insertion

`Links` says of the pages with labels that every child has its parent's id, that the leaves are
linked to the left, that the root slot has the root, and that they are the pages that were taken
from the pool since the tree was made. It does not matter to `Links` whether a split is still
pending: the new page is the child of no node then. The moves of `Shape` are repeated here for the
back links.
-/

namespace KeyVDB

def Node.children (N : Node PageId) : List PageId := N.hdr.firstChild :: N.cells.map Prod.snd

/-- The left sibling of a leaf ends where the leaf starts. -/
structure LeftOk (lab : Labels) (lo : Bytes) (left : PageId) : Prop where
  first : lo = [] → left = INVALID_PAGE_ID
  prev : lo ≠ [] → ∃ lo', lab left = some ⟨0, lo', lo⟩

/-- The pages that were taken since the pool was `s₀`. -/
def Heap.Taken (s₀ : Store) (H : Heap) (p : PageId) : Prop :=
  p ∈ s₀.freePages ∧ p ∉ H.freePages ∨ (s₀.numPages : Int) ≤ p ∧ p < H.numPages

/-- The back links of the pages with labels. -/
structure Links (s₀ : Store) (F : FullHeap) (lab : Labels) : Prop where
  parent : ∀ {p L N}, lab p = some L → F.heap.node p = some (.internal N) →
    ∀ c ∈ N.children, F.parent c = p
  root : F.parent F.heap.root = INVALID_PAGE_ID
  left : ∀ {p lo hi}, lab p = some ⟨0, lo, hi⟩ → LeftOk lab lo (F.left p)
  taken : ∀ {p}, (∃ L, lab p = some L) ↔ F.heap.Taken s₀ p
  free_subset : F.heap.freePages ⊆ s₀.freePages
  numPages_le : s₀.numPages ≤ F.heap.numPages
  slot : F.slot = F.heap.root

section Moves

variable {s₀ : Store} {F F' : FullHeap} {H : Heap} {seen lab : Labels} {m : Bytes → Option Bytes}
  {p q par : PageId} {L L' : Label Bytes} {sep : Bytes} {N n : Node PageId}

theorem mem_children (lo : Bytes) {c : PageId} :
    c ∈ N.children ↔ ∃ k, (k, c) ∈ entries lo N := by
  constructor
  · intro hc
    rcases List.mem_cons.mp hc with rfl | hc
    · exact ⟨lo, List.mem_cons_self⟩
    · obtain ⟨e, he, rfl⟩ := List.mem_map.mp hc
      exact ⟨e.1, List.mem_cons_of_mem _ he⟩
  · rintro ⟨k, hk⟩
    rcases List.mem_cons.mp hk with he | hk
    · rw [(Prod.mk.inj he).2]
      exact List.mem_cons_self
    · exact List.mem_cons_of_mem _ (List.mem_map_of_mem hk)

/-- The children of a node are seen from above. -/
theorem Shape.child_seen (h : Shape H seen lab m) (hp : lab p = some L)
    (hN : H.node p = some (.internal N)) {c : PageId} (hc : c ∈ N.children) :
    ∃ Lc, seen c = some Lc := by
  cases hL : L.height with
  | zero =>
    obtain ⟨M, hM⟩ := (h.page hp).leaf hL
    cases hN.symm.trans hM.node
  | succ j =>
    obtain ⟨M, hM⟩ := (h.page hp).internal hL
    cases hN.symm.trans hM.node
    obtain ⟨k, hk⟩ := (mem_children L.lo).mp hc
    obtain ⟨hi, hlabel⟩ := hM.chain.label_of_mem hk
    exact ⟨_, hlabel⟩

/-- `new_page` takes one page more. -/
theorem Heap.PoolOk.taken_alloc (h : H.PoolOk) (hsub : H.freePages ⊆ s₀.freePages)
    (hle : s₀.numPages ≤ H.numPages) {x : PageId} :
    H.alloc.Taken s₀ x ↔ H.Taken s₀ x ∨ x = H.next := by
  have hnum : (s₀.numPages : Int) ≤ H.numPages := by exact_mod_cast hle
  unfold Heap.Taken
  rcases h.next_cases with ⟨hnil, hnext, hsucc⟩ | ⟨l, hfree, halloc, hsame⟩
  · have halloc : H.alloc.freePages = [] := by rw [Heap.alloc, hnil]; rfl
    rw [hnil, halloc, hsucc, hnext]
    push_cast
    constructor
    · rintro (hx | ⟨hle, hlt⟩)
      · exact Or.inl (Or.inl hx)
      · rcases (Int.lt_add_one_iff.mp hlt).lt_or_eq with hlt | rfl
        · exact Or.inl (Or.inr ⟨hle, hlt⟩)
        · exact Or.inr rfl
    · rintro ((hx | ⟨hle, hlt⟩) | rfl)
      · exact Or.inl hx
      · exact Or.inr ⟨hle, hlt.trans (Int.lt_succ _)⟩
      · exact Or.inr ⟨hnum, Int.lt_succ _⟩
  · have hnodup := h.free_nodup
    rw [hfree] at hnodup hsub
    rw [halloc, hsame]
    have hmem : H.next ∈ s₀.freePages := hsub (by simp)
    have hnot : H.next ∉ l := fun hx =>
      (List.nodup_append.mp hnodup).2.2 _ hx _ List.mem_cons_self rfl
    have hiff : x ∈ H.freePages ↔ x ∈ l ∨ x = H.next := by
      rw [hfree]
      simp
    rw [hiff]
    by_cases hx : x = H.next
    · subst hx
      simp [hmem, hnot]
    · simp [hx]

theorem Links.taken_alloc (hl : Links s₀ F lab) (h : Shape F.heap seen lab m) {x : PageId} :
    F.heap.alloc.Taken s₀ x ↔ F.heap.Taken s₀ x ∨ x = F.heap.next :=
  h.poolOk.taken_alloc hl.free_subset hl.numPages_le

theorem Links.free_alloc (hl : Links s₀ F lab) : F.heap.alloc.freePages ⊆ s₀.freePages :=
  fun _ hx => hl.free_subset (Heap.PoolOk.mem_of_alloc hx)

theorem Links.num_alloc (hl : Links s₀ F lab) (h : Shape F.heap seen lab m) :
    s₀.numPages ≤ F.heap.alloc.numPages :=
  hl.numPages_le.trans h.alloc_numPages

/-! ## A leaf -/

/-- A leaf is rewritten. -/
theorem Links.rewriteLeaf (hl : Links s₀ F lab) (n : Node Bytes) :
    Links s₀ (F.rewrite p (.leaf n)) lab where
  parent {x Lx M} hx hM := by
    by_cases hne : x = p
    · subst hne
      rw [FullHeap.rewrite_heap, Heap.put_node_self] at hM
      cases hM
    · rw [FullHeap.rewrite_heap, Heap.put_node_of_ne _ _ hne] at hM
      exact hl.parent hx hM
  root := hl.root
  left := hl.left
  taken := hl.taken
  free_subset := hl.free_subset
  numPages_le := hl.numPages_le
  slot := hl.slot

/-- The left sibling is still there after a split of a page that ends elsewhere. -/
theorem LeftOk.splitLab {lo : Bytes} {x : PageId} (h : LeftOk lab lo x) (hp : lab p = some L)
    (hq : lab q = none) (hend : L.height = 0 → L.hi ≠ lo) :
    LeftOk (Shape.splitLab lab p q L sep) lo x := by
  refine ⟨h.first, fun hlo => ?_⟩
  obtain ⟨lo', hx⟩ := h.prev hlo
  refine ⟨lo', ?_⟩
  rw [Shape.splitLab_other, hx]
  · rintro rfl
    cases hp.symm.trans hx
    exact hend rfl rfl
  · rintro rfl
    cases hq.symm.trans hx

theorem splitLab_isSome (hp : lab p = some L) {x : PageId} :
    (∃ Lx, Shape.splitLab lab p q L sep x = some Lx) ↔ (∃ Lx, lab x = some Lx) ∨ x = q := by
  by_cases hxq : x = q
  · subst hxq
    exact ⟨fun _ => Or.inr rfl, fun _ => ⟨_, Shape.splitLab_right⟩⟩
  · by_cases hxp : x = p
    · subst hxp
      exact ⟨fun _ => Or.inl ⟨L, hp⟩, fun _ => ⟨_, Shape.splitLab_left hxq⟩⟩
    · rw [Shape.splitLab_other hxp hxq]
      simp [hxq]

/-- What `insert` does to the back links when it splits the leaf `p` with the right sibling
`sib`. -/
structure SplitLeafLinks (F F' : FullHeap) (p sib : PageId) : Prop where
  parent : ∀ x, x ≠ F.heap.next → F'.parent x = F.parent x
  left_next : F'.left F.heap.next = p
  left_sib : sib ≠ INVALID_PAGE_ID → F'.left sib = F.heap.next
  left : ∀ x, x ≠ F.heap.next → x ≠ sib → F'.left x = F.left x
  slot : F'.slot = F.slot

theorem Shape.hi_ne_lo (h : Shape H seen lab m) (hp : lab p = some L) : L.hi ≠ L.lo :=
  (h.proper hp).ne'

theorem Shape.right_ne_self (h : Shape H lab lab m) (hp : lab p = some L) {sib : PageId}
    (hsib : RightOk lab L.hi sib) : p ≠ sib := by
  rintro rfl
  cases hhi : L.hi with
  | top => exact (h.isLive hp).ne_invalid (hsib.last hhi)
  | coe z =>
    obtain ⟨hi', hr⟩ := hsib.next z hhi
    cases hp.symm.trans hr
    exact h.hi_ne_lo hp hhi

/-- The leaves on both sides of a split know each other. -/
theorem SplitLeafLinks.leftOk (hlinks : SplitLeafLinks F F' p q) (hl : Links s₀ F lab)
    (h : Shape F.heap lab lab m) {lo x : Bytes} {hi hx : WithTop Bytes}
    (hp : lab p = some ⟨0, lo, hi⟩) (hsib : RightOk lab hi q) (hlo : lo < sep) {y : PageId}
    (hy : Shape.splitLab lab p F.heap.next ⟨0, lo, hi⟩ sep y = some ⟨0, x, hx⟩) :
    LeftOk (Shape.splitLab lab p F.heap.next ⟨0, lo, hi⟩ sep) x (F'.left y) := by
  have hne := h.ne_next hp
  rcases Shape.splitLab_cases hy with ⟨rfl, hLy⟩ | ⟨hyq, rfl, hLy⟩ | ⟨hyq, -, hly⟩
  · -- the new page is to the right of the old one
    cases hLy
    rw [hlinks.left_next]
    refine ⟨?_, fun _ => ⟨lo, Shape.splitLab_left hne⟩⟩
    rintro rfl
    exact (List.not_lt_nil _ hlo).elim
  · cases hLy
    rw [hlinks.left y hyq (h.right_ne_self hp hsib)]
    exact (hl.left hp).splitLab hp h.next_fresh fun _ => h.hi_ne_lo hp
  · by_cases hsame : y = q
    · -- the old right sibling is to the right of the new page
      subst hsame
      rw [hlinks.left_sib (h.isLive hly).ne_invalid]
      cases hi with
      | top =>
        rw [hsib.last rfl] at hly
        exact ((h.isLive hly).ne_invalid rfl).elim
      | coe z =>
        obtain ⟨hi', hr⟩ := hsib.next z rfl
        cases hly.symm.trans hr
        refine ⟨?_, fun _ => ⟨sep, Shape.splitLab_right⟩⟩
        rintro rfl
        exact (List.not_lt_nil _ (WithTop.coe_lt_coe.mp (h.proper hp))).elim
    · rw [hlinks.left y hyq hsame]
      refine (hl.left hly).splitLab hp h.next_fresh fun _ e => hsame ?_
      obtain ⟨hi', hr⟩ := hsib.next x e
      exact h.apart hly hr rfl (h.proper hly).mem (h.proper hr).mem

/-- **A leaf is split.** -/
theorem Links.splitLeaf (hl : Links s₀ F lab) (h : Shape F.heap lab lab m) (hp : lab p = some L)
    (hL : L.height = 0) {sib : PageId} (hsib : RightOk lab L.hi sib) (hlo : L.lo < sep)
    {nl nr : Node Bytes}
    (hheap : F'.heap = (F.heap.alloc.put p (.leaf nl)).put F.heap.next (.leaf nr))
    (hlinks : SplitLeafLinks F F' p sib) :
    Links s₀ F' (Shape.splitLab lab p F.heap.next L sep) := by
  obtain ⟨_, lo, hi⟩ := L
  cases hL
  constructor
  case parent =>
    intro x Lx M hx hM c hc
    rw [hheap] at hM
    rcases Shape.splitLab_cases hx with ⟨rfl, -⟩ | ⟨hxq, rfl, -⟩ | ⟨hxq, hxp, hx⟩
    · rw [Heap.put_node_self] at hM
      cases hM
    · rw [Heap.put_node_of_ne _ _ hxq, Heap.put_node_self] at hM
      cases hM
    · rw [Heap.put_node_of_ne _ _ hxq, Heap.put_node_of_ne _ _ hxp, h.alloc_node hx] at hM
      obtain ⟨Lc, hLc⟩ := h.child_seen hx hM hc
      rw [hlinks.parent c (h.ne_next hLc)]
      exact hl.parent hx hM c hc
  case root =>
    obtain ⟨j, hroot, -⟩ := h.root
    rw [hheap]
    exact (hlinks.parent _ (h.ne_next hroot)).trans hl.root
  case left => exact fun hx => hlinks.leftOk hl h hp hsib hlo hx
  case taken =>
    intro x
    rw [splitLab_isSome hp, hl.taken, hheap]
    exact (hl.taken_alloc h).symm
  case free_subset =>
    rw [hheap]
    exact hl.free_alloc
  case numPages_le =>
    rw [hheap]
    exact hl.num_alloc h
  case slot =>
    rw [hheap]
    exact hlinks.slot.trans hl.slot

/-! ## A parent -/

/-- The new page of a pending split is the child of no node. -/
theorem PendingSplit.right_not_child (h : PendingSplit H seen m p q L sep) {x : PageId}
    {Lx : Label Bytes} (hx : Shape.splitLab seen p q L sep x = some Lx)
    (hN : H.node x = some (.internal N)) : q ∉ N.children := by
  intro hq
  obtain ⟨Lq, hLq⟩ := h.shape.child_seen hx hN hq
  cases h.right.symm.trans hLq

theorem PendingSplit.root_ne (h : PendingSplit H seen m p q L sep) : H.root ≠ q := by
  obtain ⟨j, hroot, -⟩ := h.shape.root
  intro e
  rw [e, h.right] at hroot
  cases hroot

/-- A child that is seen has a label. -/
theorem PendingSplit.label_of_seen (h : PendingSplit H seen m p q L sep) {x : PageId}
    {Lx : Label Bytes} (hx : seen x = some Lx) : ∃ L', Shape.splitLab seen p q L sep x = some L' :=
  (splitLab_isSome h.left).mpr (Or.inl ⟨Lx, hx⟩)

/-- **A parent takes the new page** as a child. -/
theorem Links.absorb (hl : Links s₀ F (Shape.splitLab seen p q L sep))
    (h : PendingSplit F.heap seen m p q L sep)
    (hpar : Shape.splitLab seen p q L sep par = some L')
    (hN : F.heap.node par = some (.internal N)) (hn : ∀ c ∈ n.children, c = q ∨ c ∈ N.children) :
    Links s₀ ((F.rewrite par (.internal n)).setParent q par) (Shape.splitLab seen p q L sep) where
  parent {x Lx M} hx hM c hc := by
    rw [FullHeap.setParent_heap, FullHeap.rewrite_heap] at hM
    rw [FullHeap.setParent_parent, FullHeap.rewrite_parent]
    by_cases hxp : x = par
    · subst hxp
      rw [Heap.put_node_self] at hM
      cases hM
      by_cases hcq : c = q
      · rw [hcq, Function.update_self]
      · rw [Function.update_of_ne hcq]
        exact hl.parent hx hN c ((hn c hc).resolve_left hcq)
    · rw [Heap.put_node_of_ne _ _ hxp] at hM
      rw [Function.update_of_ne]
      · exact hl.parent hx hM c hc
      · rintro rfl
        exact h.right_not_child hx hM hc
  root := by
    refine Eq.trans ?_ hl.root
    exact Function.update_of_ne h.root_ne ..
  left := hl.left
  taken := hl.taken
  free_subset := hl.free_subset
  numPages_le := hl.numPages_le
  slot := hl.slot

/-- What `insert_into_parent` does to the back links when it splits `par` and the right half has the
children `children`. -/
structure SplitParentLinks (F F' : FullHeap) (par q : PageId) (left right : List PageId) : Prop where
  parent_right : ∀ x ∈ right, F'.parent x = F.heap.next
  parent_new : q ∈ left → q ∉ right → F'.parent q = par
  parent : ∀ x, x ∉ right → x ≠ q → x ≠ F.heap.next → F'.parent x = F.parent x
  left : ∀ x, x ≠ F.heap.next → F'.left x = F.left x
  slot : F'.slot = F.slot

/-- **A parent is split** after it got the new page. -/
theorem Links.splitParent (hl : Links s₀ F (Shape.splitLab seen p q L sep))
    (h : PendingSplit F.heap seen m p q L sep)
    (hpar : Shape.splitLab seen p q L sep par = some L') (hL' : L'.height = L.height + 1)
    (hN : F.heap.node par = some (.internal N)) {nl nr : Node PageId} {psep : Bytes}
    (hchildren : ∀ c, c ∈ nl.children ∨ c ∈ nr.children → c = q ∨ c ∈ N.children)
    (hdisj : ∀ c ∈ nl.children, c ∉ nr.children)
    (hheap : F'.heap = (F.heap.alloc.put par (.internal nl)).put F.heap.next (.internal nr))
    (hlinks : SplitParentLinks F F' par q nl.children nr.children) :
    Links s₀ F' (Shape.splitLab (Shape.splitLab seen p q L sep) par F.heap.next L' psep) := by
  have hchild : ∀ {x Lx M c}, Shape.splitLab seen p q L sep x = some Lx →
      F.heap.node x = some (.internal M) → c ∈ M.children → c ≠ F.heap.next := by
    intro x Lx M c hx hM hc
    obtain ⟨Lc, hLc⟩ := h.shape.child_seen hx hM hc
    obtain ⟨Lc, hLc⟩ := h.label_of_seen hLc
    exact h.shape.ne_next hLc
  constructor
  case parent =>
    intro x Lx M hx hM c hc
    rw [hheap] at hM
    rcases Shape.splitLab_cases hx with ⟨rfl, -⟩ | ⟨hxq, rfl, -⟩ | ⟨hxq, hxp, hx⟩
    · rw [Heap.put_node_self] at hM
      cases hM
      exact hlinks.parent_right c hc
    · rw [Heap.put_node_of_ne _ _ hxq, Heap.put_node_self] at hM
      cases hM
      by_cases hcq : c = q
      · subst hcq
        exact hlinks.parent_new hc (hdisj c hc)
      · have hcN := (hchildren c (Or.inl hc)).resolve_left hcq
        rw [hlinks.parent c (hdisj c hc) hcq (hchild hpar hN hcN)]
        exact hl.parent hpar hN c hcN
    · -- a child has one parent only
      rw [Heap.put_node_of_ne _ _ hxq, Heap.put_node_of_ne _ _ hxp, h.shape.alloc_node hx] at hM
      have hcx := hl.parent hx hM c hc
      have hcq : c ≠ q := by
        rintro rfl
        exact h.right_not_child hx hM hc
      rw [hlinks.parent c ?_ hcq (hchild hx hM hc), hcx]
      intro hcr
      have hcN := (hchildren c (Or.inr hcr)).resolve_left hcq
      exact hxp (hcx.symm.trans (hl.parent hpar hN c hcN))
  case root =>
    rw [hheap]
    refine (hlinks.parent _ ?_ h.root_ne ?_).trans hl.root
    · intro hr
      have hrN := (hchildren _ (Or.inr hr)).resolve_left h.root_ne
      exact (h.shape.isLive hpar).ne_invalid ((hl.parent hpar hN _ hrN).symm.trans hl.root)
    · obtain ⟨j, hroot, -⟩ := h.shape.root
      obtain ⟨Lr, hLr⟩ := h.label_of_seen hroot
      exact h.shape.ne_next hLr
  case left =>
    intro x lo hi hx
    rcases Shape.splitLab_cases hx with ⟨-, hLx⟩ | ⟨-, -, hLx⟩ | ⟨hxq, -, hx⟩
    · have hzero : 0 = L'.height := congrArg Label.height hLx
      omega
    · have hzero : 0 = L'.height := congrArg Label.height hLx
      omega
    · rw [hlinks.left x hxq]
      refine (hl.left hx).splitLab hpar h.shape.next_fresh fun hzero => ?_
      omega
  case taken =>
    intro x
    rw [splitLab_isSome hpar, hl.taken, hheap]
    exact (hl.taken_alloc h.shape).symm
  case free_subset =>
    rw [hheap]
    exact hl.free_alloc
  case numPages_le =>
    rw [hheap]
    exact hl.num_alloc h.shape
  case slot =>
    rw [hheap]
    exact hlinks.slot.trans hl.slot

/-- **A new root** over the two halves of the old one. -/
theorem Links.grow (hl : Links s₀ F (Shape.splitLab seen p q L sep))
    (h : PendingSplit F.heap seen m p q L sep) (hp : p = F.heap.root)
    (hchildren : ∀ c ∈ n.children, c = p ∨ c = q) {L' : Label Bytes} (hL' : 0 < L'.height)
    (hheap : F'.heap = (F.heap.alloc.put F.heap.next (.internal n)).setRoot F.heap.next)
    (hparent : F'.parent = Function.update (Function.update
      (Function.update F.parent F.heap.next INVALID_PAGE_ID) p F.heap.next) q F.heap.next)
    (hleft : ∀ x, x ≠ F.heap.next → F'.left x = F.left x) (hslot : F'.slot = F.heap.next) :
    Links s₀ F' (Function.update (Shape.splitLab seen p q L sep) F.heap.next (some L')) := by
  have hfresh := h.shape.next_fresh
  have hp' := h.shape.ne_next (Shape.splitLab_left h.ne)
  have hright : Shape.splitLab seen p q L sep q = some { L with lo := sep } :=
    Shape.splitLab_right
  have hq' := h.shape.ne_next hright
  have hcases : ∀ {x Lx}, Function.update (Shape.splitLab seen p q L sep) F.heap.next (some L') x =
      some Lx → x = F.heap.next ∧ Lx = L' ∨
        x ≠ F.heap.next ∧ Shape.splitLab seen p q L sep x = some Lx := by
    intro x Lx hx
    by_cases hne : x = F.heap.next
    · subst hne
      rw [Function.update_self] at hx
      exact Or.inl ⟨rfl, (Option.some.inj hx).symm⟩
    · rw [Function.update_of_ne hne] at hx
      exact Or.inr ⟨hne, hx⟩
  constructor
  case parent =>
    intro x Lx M hx hM c hc
    rw [hheap] at hM
    rw [hparent]
    rcases hcases hx with ⟨rfl, -⟩ | ⟨hne, hx⟩
    · change (F.heap.alloc.put _ _).node _ = _ at hM
      rw [Heap.put_node_self] at hM
      cases hM
      by_cases hcq : c = q
      · rw [hcq, Function.update_self]
      · rw [Function.update_of_ne hcq, (hchildren c hc).resolve_right hcq, Function.update_self]
    · change (F.heap.alloc.put _ _).node _ = _ at hM
      rw [Heap.put_node_of_ne _ _ hne, h.shape.alloc_node hx] at hM
      have hcx := hl.parent hx hM c hc
      obtain ⟨Lc, hLc⟩ := h.shape.child_seen hx hM hc
      obtain ⟨Lc, hLc⟩ := h.label_of_seen hLc
      rw [Function.update_of_ne, Function.update_of_ne, Function.update_of_ne, hcx]
      · exact h.shape.ne_next hLc
      · -- the old root was no child
        rintro rfl
        rw [hp, hl.root] at hcx
        exact (h.shape.isLive hx).ne_invalid hcx.symm
      · rintro rfl
        exact h.right_not_child hx hM hc
  case root =>
    rw [hheap, hparent]
    change Function.update _ _ _ F.heap.next = _
    rw [Function.update_of_ne hq'.symm, Function.update_of_ne hp'.symm, Function.update_self]
  case left =>
    intro x lo hi hx
    rcases hcases hx with ⟨-, hLx⟩ | ⟨hne, hx⟩
    · rw [← hLx] at hL'
      exact absurd hL' (lt_irrefl 0)
    · rw [hleft x hne]
      refine ⟨(hl.left hx).first, fun hlo => ?_⟩
      obtain ⟨lo', hy⟩ := (hl.left hx).prev hlo
      exact ⟨lo', by rw [Function.update_of_ne (h.shape.ne_next hy), hy]⟩
  case taken =>
    intro x
    have hiff : (∃ Lx, Function.update (Shape.splitLab seen p q L sep) F.heap.next (some L') x =
        some Lx) ↔ (∃ Lx, Shape.splitLab seen p q L sep x = some Lx) ∨ x = F.heap.next := by
      by_cases hne : x = F.heap.next
      · subst hne
        simp
      · rw [Function.update_of_ne hne]
        simp [hne]
    rw [hiff, hl.taken, hheap]
    exact (hl.taken_alloc h.shape).symm
  case free_subset =>
    rw [hheap]
    exact hl.free_alloc
  case numPages_le =>
    rw [hheap]
    exact hl.num_alloc h.shape
  case slot =>
    rw [hheap, hslot]
    rfl

end Moves

end KeyVDB
