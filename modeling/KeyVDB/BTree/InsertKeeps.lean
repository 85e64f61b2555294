import KeyVDB.BTree.Links

/-!
# Insertion keeps the tree

`insert` and the functions under it, whenever they return: no room is asked for, since an
assertion fails where the code takes room for granted, except in the half of a split leaf, where
the key is lost.
-/

namespace KeyVDB

/-- A separator that was accepted had room and is in its place. -/
theorem Node.insertSeparator_true {n n' : Node PageId} {a b : List (Bytes × PageId)} {key : Bytes}
    {child : PageId} (hn : n.cells = a ++ b) (hlt : ∀ c ∈ a, c.1 < key)
    (hgt : ∀ c ∈ b, key < c.1) (h : n.insertSeparator key child = (true, n')) :
    Room (a ++ b) (key, child) ∧ n'.cells = a ++ (key, child) :: b ∧ n'.hdr = n.hdr := by
  obtain ⟨hyes, hno⟩ := place_cut (v := child) hn hlt hgt
  by_cases hroom : Room (a ++ b) (key, child)
  · obtain ⟨n'', hplace, hcells, hhdr⟩ := hyes hroom
    cases hplace.symm.trans h
    exact ⟨hroom, hcells, hhdr⟩
  · cases (hno hroom).symm.trans h

/-- Every internal node of the tree has a separator. -/
def Separated (H : Heap) (lab : Labels) : Prop :=
  ∀ p L N, lab p = some L → H.node p = some (.internal N) → N.cells ≠ []

/-- The pages that were in the tree and did not change are as before. -/
theorem Separated.of_changed {H H' : Heap} {lab lab' : Labels} (h : Separated H lab)
    (hnew : ∀ {x Lx}, lab' x = some Lx →
      (∃ L, lab x = some L ∧ H'.node x = H.node x) ∨
        ∀ N, H'.node x = some (.internal N) → N.cells ≠ []) : Separated H' lab' := by
  intro x Lx N hx hN
  rcases hnew hx with ⟨L, hL, hnode⟩ | hcells
  · exact h x L N hL (hnode ▸ hN)
  · exact hcells N hN

namespace BTree

section Separator

variable {F : FullHeap} {par q r : PageId} {N : Node PageId} {sep : Bytes}
  {u v : List (Bytes × PageId)}

theorem ends_addSeparator (hpar : F.heap.node par = some (.internal N)) (hq : F.heap.Live q)
    (hcells : N.cells = u ++ v) (hlt : ∀ c ∈ u, c.1 < sep) (hgt : ∀ c ∈ v, sep < c.1)
    (room cond : String) :
    Ends fullView (addSeparator par par sep q room cond) F fun _ F' =>
      SepRoom (u ++ v) sep ∧ ∃ n, F' = (F.rewrite par (.internal n)).setParent q par ∧
        n.cells = u ++ (sep, q) :: v ∧ n.hdr.firstChild = N.hdr.firstChild := by
  refine (ends_internalNode hpar).bind ?_
  rintro n _ ⟨rfl, hparent, hleft, rfl⟩
  split
  · exact .throw _
  · next n' hins =>
    obtain ⟨hroom, hcells', hhdr⟩ := Node.insertSeparator_true (n := n) hcells hlt hgt hins
    refine (ends_rewriteInternal n' (by rw [hpar]; rfl) (by rw [hhdr, hparent])
      (by rw [hhdr, hleft])).seq ?_
    refine (ends_setParent par cond (hq.put _ _).isSome).last ?_
    exact ⟨hroom, n'.bare, rfl, hcells', by rw [Node.bare_firstChild, hhdr, Node.bare_firstChild]⟩

/-- The half that is chosen gets the separator. -/
theorem ends_addToHalf (nl nr : Node PageId) {c : Bytes × PageId} (hne : par ≠ r)
    (hl : F.heap.node par = some (.internal nl)) (hr : F.heap.node r = some (.internal nr))
    (hq : F.heap.Live q) (hcells : u ++ v = nl.cells ++ c :: nr.cells)
    (hlt : ∀ c ∈ u, c.1 < sep) (hgt : ∀ c ∈ v, sep < c.1) (room cond : String) :
    Ends fullView
      (addSeparator (if sep < c.1 then par else r) (if sep < c.1 then par else r) sep q room cond)
      F fun _ F' => SepRoom (if sep < c.1 then nl.cells else nr.cells) sep ∧ ∃ nl' nr' half,
        F' = ((F.rewrite par (.internal nl')).rewrite r (.internal nr')).setParent q half ∧
        (sep < c.1 → nr'.cells = nr.cells) ∧ (¬ sep < c.1 → nl'.cells = nl.cells) ∧
        nl'.hdr.firstChild = nl.hdr.firstChild ∧ nr'.hdr.firstChild = nr.hdr.firstChild ∧
        nl'.cells ++ c :: nr'.cells = u ++ (sep, q) :: v ∧ (half = par ∨ q ∈ nr'.children) := by
  rcases place_in_half hcells hlt hgt with ⟨hside, a, ha, rfl⟩ | ⟨hside, b, rfl, hb⟩
  · rw [if_pos hside]
    refine (ends_addSeparator hl hq ha hlt ?_ _ _).mono ?_
    · exact fun x hx => hgt x (List.mem_append_left _ hx)
    · rintro _ _ ⟨hroom, n, rfl, hn, hfirst⟩
      refine ⟨by rwa [if_pos hside, ha], n, nr, par, ?_, fun _ => rfl, fun h => (h hside).elim,
        hfirst, rfl, by rw [hn]; simp, Or.inl rfl⟩
      rw [FullHeap.rewrite_eq_self (p := r)]
      rw [FullHeap.rewrite_heap, Heap.put_node_of_ne _ _ hne.symm, hr]
  · rw [if_neg hside]
    refine (ends_addSeparator hr hq hb ?_ hgt _ _).mono ?_
    · exact fun x hx => hlt x (by simp [hx])
    · rintro _ _ ⟨hroom, n, rfl, hn, hfirst⟩
      refine ⟨by rwa [if_neg hside, hb], nl, n, r, by rw [FullHeap.rewrite_eq_self hl],
        fun h => (hside h).elim, fun _ => rfl, rfl, hfirst, by rw [hn]; simp, Or.inr ?_⟩
      rw [Node.children, hn]
      simp

theorem child_of_insert (hcells : N.cells = u ++ v) {e : Bytes × PageId}
    (he : e ∈ u ++ (sep, q) :: v) : e.2 = q ∨ e.2 ∈ N.children := by
  have hmem : e ∈ u ++ v → e.2 ∈ N.children := fun he =>
    List.mem_cons_of_mem _ (List.mem_map_of_mem (hcells ▸ he))
  rcases List.mem_append.mp he with he | he
  · exact Or.inr (hmem (List.mem_append_left v he))
  · rcases List.mem_cons.mp he with rfl | he
    · exact Or.inl rfl
    · exact Or.inr (hmem (List.mem_append_right u he))

/-- The children of the two halves were there before, or are new. -/
theorem children_of_split {nl nr : Node PageId} {c : Bytes × PageId} (hcells : N.cells = u ++ v)
    (hall : nl.cells ++ c :: nr.cells = u ++ (sep, q) :: v)
    (hl : nl.hdr.firstChild = N.hdr.firstChild) (hr : nr.hdr.firstChild = c.2) {x : PageId}
    (hx : x ∈ nl.children ∨ x ∈ nr.children) : x = q ∨ x ∈ N.children := by
  have hold : ∀ e ∈ nl.cells ++ c :: nr.cells, e.2 = q ∨ e.2 ∈ N.children := fun e he =>
    child_of_insert hcells (hall ▸ he)
  rcases hx with hx | hx
  · rcases List.mem_cons.mp hx with rfl | hx
    · rw [hl]
      exact Or.inr List.mem_cons_self
    · obtain ⟨e, he, rfl⟩ := List.mem_map.mp hx
      exact hold e (List.mem_append_left _ he)
  · rcases List.mem_cons.mp hx with rfl | hx
    · rw [hr]
      exact hold c (by simp)
    · obtain ⟨e, he, rfl⟩ := List.mem_map.mp hx
      exact hold e (by simp [he])

/-- The split of a full parent. -/
theorem ends_splitParent (hpar : F.heap.node par = some (.internal N)) (hcompact : N.Compacted)
    (hsorted : Sorted N.cells) (hne : par ≠ F.heap.next) (hq : F.heap.alloc.Live q)
    (hlive : ∀ x ∈ N.children, F.heap.alloc.Live x) (hcells : N.cells = u ++ v)
    (hlt : ∀ c ∈ u, c.1 < sep) (hgt : ∀ c ∈ v, sep < c.1) :
    Ends fullView (splitParent par par sep q) (F.pin par) fun r F' =>
      ∃ a c b nl nr, Node.splitCells N.cells = some (a, c, b) ∧
        SepRoom (if sep < c.1 then a else b) sep ∧
        (sep < c.1 → nr.cells = b) ∧ (¬ sep < c.1 → nl.cells = a) ∧ r = (F.heap.next, c.1) ∧
        F'.heap = (F.heap.alloc.put par (.internal nl)).put F.heap.next (.internal nr) ∧
        nl.hdr.firstChild = N.hdr.firstChild ∧ nr.hdr.firstChild = c.2 ∧
        nl.cells ++ c :: nr.cells = u ++ (sep, q) :: v ∧
        SplitParentLinks F F' par q nl.children nr.children := by
  refine (ends_internalNode (N := N) (by exact hpar)).bind ?_
  rintro n _ ⟨rfl, hparent, hleft, rfl⟩
  refine ends_newPage.seqVal ?_
  refine (ends_writePage (.internal (Node.init _))).seq ?_
  refine (ends_internalNode (N := Node.init INVALID_PAGE_ID) (by simp; rfl)).bind ?_
  rintro right _ ⟨hright, -, -, rfl⟩
  have hempty : right.cells = [] := congrArg Node.cells hright
  refine Ends.ofExcept.bind ?_
  rintro ⟨nl, nr, psep⟩ _ ⟨hsplit, rfl⟩
  obtain ⟨a, c, b, hab⟩ := Node.exists_splitCells (Node.length_of_splitCheck hsplit)
  obtain ⟨-, hmid, -⟩ := Node.splitCells_eq_some hab
  obtain ⟨_, _, hspec, hlc, hlh, hrc, hrh⟩ :=
    Node.splitInternal_spec (n := n) hcompact hsorted hempty hab
  cases hsplit.symm.trans hspec
  refine (ends_rewriteInternal nl ?_ ?_ ?_).seq ?_
  · simp [hne, Heap.alloc, hpar]
  · rw [hlh, hparent]
    simp [hne]
  · rw [hlh, hleft]
    simp [hne]
  refine (ends_writeData (.internal nr) (by simp [hne.symm])).seq ?_
  obtain ⟨room, hsel⟩ := select_half (P := sep < c.1) par F.heap.next
    "ok && \"left half should have room after split\""
    "ok && \"right half should have room after split\""
  simp only [FullHeap.pin_heap, Heap.pin_next, hsel]
  refine (ends_addToHalf nl.bare nr.bare hne ?_ ?_ ?_ ?_ hlt hgt room _).bind ?_
  · simp [hne]
  · simp
    rfl
  · simp only [FullHeap.put_heap, FullHeap.rewrite_heap, FullHeap.pin_heap, FullHeap.alloc_heap,
      Heap.alloc_pin, Heap.put_pin]
    exact ((((hq.put _ _).put _ _).put _ _).pin _).pin _
  · rw [← hcells, Node.bare_cells, Node.bare_cells, Node.bare_cells, hmid, hlc, hrc]
  rintro _ _ ⟨hroom, nl', nr', half, rfl, hkeepr, hkeepl, hlf, hrf, hall, hhalf⟩
  rw [Node.bare_cells, Node.bare_cells, hlc, hrc] at hroom
  rw [Node.bare_cells, hrc] at hkeepr
  rw [Node.bare_cells, hlc] at hkeepl
  rw [Node.bare_firstChild, hlh] at hlf
  rw [Node.bare_firstChild, hrh] at hrf
  refine (ends_internalNode (N := nr') (by simp)).bind ?_
  rintro n' _ ⟨rfl, -, -, rfl⟩
  refine (ends_reparentAll F.heap.next n'.bare.children ?_).seq ?_
  · intro x hx
    have hx' : F.heap.alloc.Live x := by
      rcases children_of_split hcells hall hlf hrf (Or.inr hx) with rfl | hx
      · exact hq
      · exact hlive x hx
    simp only [FullHeap.setParent_heap, FullHeap.put_heap, FullHeap.rewrite_heap, FullHeap.pin_heap,
      FullHeap.alloc_heap, Heap.alloc_pin, Heap.put_pin]
    exact ((((((hx'.put _ _).put _ _).put _ _).put _ _).put _ _).pin _).pin _
  refine (ends_unpin true).seq ?_
  refine (ends_unpin true).seq ?_
  refine .pure ⟨a, c, b, nl', n'.bare, hab, hroom, hkeepr, hkeepl, rfl, ?_, hlf, hrf, hall, ?_⟩
  · simp only [FullHeap.unpin_heap, FullHeap.setParent_heap, FullHeap.rewrite_heap,
      FullHeap.put_heap, FullHeap.pin_heap, FullHeap.alloc_heap, Heap.alloc_pin, Heap.put_pin,
      Heap.put_put_put _ _ hne, Heap.put_put, Heap.unpin_pin_pin, Heap.unpin_pin]
  · constructor
    case parent_right => exact fun x hx => if_pos hx
    case parent_new =>
      intro _ hq
      refine (if_neg hq).trans ?_
      rw [hhalf.resolve_right hq]
      exact Function.update_self ..
    case parent =>
      intro x hx hxq hxn
      refine (if_neg hx).trans ?_
      simp [hxq, hxn]
    case left =>
      intro x hxn
      simp [hxn]
    case slot => rfl

end Separator

section Up

variable {s₀ : Store} {F : FullHeap} {seen : Labels} {m : Bytes → Option Bytes} {p q : PageId}
  {L : Label Bytes} {sep : Bytes}

/-- The tree is at rest again, with all its links. -/
def AtRest (s₀ : Store) (m : Bytes → Option Bytes) (F : FullHeap) : Prop :=
  ∃ lab, Shape F.heap lab lab m ∧ Links s₀ F lab

/-- The same, and where `P` holds every internal node has a separator. -/
def Rests (s₀ : Store) (m : Bytes → Option Bytes) (P : Prop) (F : FullHeap) : Prop :=
  ∃ lab, Shape F.heap lab lab m ∧ Links s₀ F lab ∧ (P → Separated F.heap lab)

theorem Rests.atRest {P : Prop} (h : Rests s₀ m P F) : AtRest s₀ m F := by
  obtain ⟨lab, hs, hl, -⟩ := h
  exact ⟨lab, hs, hl⟩

theorem Rests.of_imp {P Q : Prop} (h : Rests s₀ m P F) (hQP : Q → P) : Rests s₀ m Q F := by
  obtain ⟨lab, hs, hl, hsep⟩ := h
  exact ⟨lab, hs, hl, fun hQ => hsep (hQP hQ)⟩

/-- **A new root** over the two halves of the old one. -/
theorem ends_createNewRoot (h : PendingSplit F.heap seen m p q L sep)
    (hl : Links s₀ F (Shape.splitLab seen p q L sep))
    (hroot : seen F.heap.root = some ⟨L.height, [], ⊤⟩) :
    Ends fullView (createNewRoot p sep q) F fun _ F' => SepRoom [] sep ∧
      Rests s₀ m (Separated F.heap (Shape.splitLab seen p q L sep)) F' := by
  have hleft : Shape.splitLab seen p q L sep p = some { L with hi := sep } :=
    Shape.splitLab_left h.ne
  have hright : Shape.splitLab seen p q L sep q = some { L with lo := sep } :=
    Shape.splitLab_right
  refine ends_newPage.seqVal ?_
  refine (ends_writePage (.internal (Node.init _))).seq ?_
  refine (ends_setFirstChild (N := Node.init INVALID_PAGE_ID) (by simp; rfl) p).seq ?_
  refine (ends_internalNode (by simp; rfl)).bind ?_
  rintro n _ ⟨hbare, hparent, hleftSib, rfl⟩
  have hcells : n.cells = [] := congrArg Node.cells hbare
  have hfirst : n.hdr.firstChild = p := congrArg (fun n : Node PageId => n.hdr.firstChild) hbare
  split
  · exact .throw _
  next n' hins =>
  obtain ⟨hroom, hcells', hhdr⟩ :=
    Node.insertSeparator_true (n := n) (a := []) (b := []) hcells (List.forall_mem_nil _)
      (List.forall_mem_nil _) hins
  refine (ends_rewriteInternal n' (by simp) (by rw [hhdr, hparent]) (by rw [hhdr, hleftSib])).seq ?_
  refine (ends_unpin true).seq ?_
  have hlive : ∀ {x Lx}, Shape.splitLab seen p q L sep x = some Lx →
      ((F.heap.alloc.put F.heap.next (.internal n'.bare)).node x).isSome := fun hx =>
    ((h.isLive hx).put _ _).isSome
  refine (ends_setParent F.heap.next _ ?_).seq ?_
  · simpa using hlive hleft
  refine (ends_setParent F.heap.next _ ?_).seq ?_
  · simpa using hlive hright
  refine ends_setRoot.last ?_
  have hfirst' : n'.bare.hdr.firstChild = p := by rw [Node.bare_firstChild, hhdr, hfirst]
  have hshape := h.grow hroot (n := n'.bare) hcells' hfirst'
  refine ⟨hroom, _, by simpa using hshape,
    hl.grow h (h.eq_root hroot).1 (n := n'.bare) ?_ ?_ ?_ ?_ ?_ rfl, fun hsep => ?_⟩
  · rw [Node.children, Node.bare_cells, hcells', hfirst']
    simp
  · exact Nat.succ_pos L.height
  · simp
  · simp [AnyNode.hdr, Node.init]
  · intro x hx
    simp [hx]
  · refine hsep.of_changed fun {x Lx} hx => ?_
    by_cases hne : x = F.heap.next
    · subst hne
      refine Or.inr fun N hN => ?_
      have hN : some (AnyNode.internal n'.bare) = some (.internal N) := by
        simpa [Heap.setRoot] using hN
      cases hN
      rw [Node.bare_cells, hcells']
      simp
    · rw [Function.update_of_ne hne] at hx
      refine Or.inl ⟨Lx, hx, ?_⟩
      simp [hne, Heap.setRoot, Heap.alloc]

/-- The parent has room for the separator. -/
theorem ends_absorb {par : PageId} {L' : Label Bytes} {N n : Node PageId}
    {u v : List (Bytes × PageId)} (h : PendingSplit F.heap seen m p q L sep)
    (hl : Links s₀ F (Shape.splitLab seen p q L sep))
    (hpar : Shape.splitLab seen p q L sep par = some L') (hL' : L'.height = L.height + 1)
    (hpend : Pending seen (Shape.splitLab seen p q L sep) L')
    (hN : F.heap.node par = some (.internal N)) (hcells : N.cells = u ++ v)
    (hchain : Chain (Shape.splitLab seen p q L sep) L.height L'.hi
      ((L'.lo, N.hdr.firstChild) :: (u ++ (sep, q) :: v)))
    (hlt : ∀ c ∈ u, c.1 < sep) (hgt : ∀ c ∈ v, sep < c.1) (hn : n.cells = N.cells)
    (hfirst : n.hdr.firstChild = N.hdr.firstChild) :
    Ends fullView (do
      addSeparator par par sep q "ok" "rp != nullptr"
      unpin par true) ((F.rewrite par (.internal n)).pin par) fun _ F' => SepRoom N.cells sep ∧
        Rests s₀ m (Separated F.heap (Shape.splitLab seen p q L sep)) F' := by
  have hright : Shape.splitLab seen p q L sep q = some { L with lo := sep } :=
    Shape.splitLab_right
  refine (ends_addSeparator (N := n) (by simp) (((h.shape.isLive hright).put _ _).pin _)
    (hn.trans hcells) hlt hgt _ _).bind ?_
  rintro _ _ ⟨hroom, n', rfl, hn', hfirst'⟩
  refine (ends_unpin true).last ?_
  have hfirst' : n'.hdr.firstChild = N.hdr.firstChild := hfirst'.trans hfirst
  have hstate : ((((F.rewrite par (.internal n)).pin par).rewrite par (.internal n')).setParent q
      par).unpin par = (F.rewrite par (.internal n')).setParent q par := by
    ext1 <;> simp
  rw [hstate]
  refine ⟨hcells ▸ hroom, _, ?_, hl.absorb h hpar hN ?_, fun hsep => ?_⟩
  · refine h.shape.rewrite hpar hpend (fun _ => Or.inl rfl) ?_
    refine InternalOk.pageOk (N := n') (j := L.height) ⟨by simp, ?_⟩ hL'
    rw [entries, hn', hfirst']
    exact hchain
  · intro c hc
    rcases List.mem_cons.mp hc with rfl | hc
    · rw [hfirst']
      exact Or.inr List.mem_cons_self
    · obtain ⟨e, he, rfl⟩ := List.mem_map.mp hc
      exact child_of_insert hcells (hn' ▸ he)
  · refine hsep.of_changed fun {x Lx} hx => ?_
    by_cases hne : x = par
    · subst hne
      refine Or.inr fun M hM => ?_
      have hM : some (AnyNode.internal n') = some (.internal M) := by simpa using hM
      cases hM
      rw [hn']
      simp
    · exact Or.inl ⟨Lx, hx, by simp [hne]⟩

/-- Both halves of a page keep a separator, unless the page was cut at its last one and the new one
went to the left. -/
theorem halves_ne_nil {nl nr : Node PageId} {a b u v : List (Bytes × PageId)} {c : Bytes × PageId}
    (hab : u ++ v = a ++ c :: b) (ha : a ≠ []) (hall : nl.cells ++ c :: nr.cells = u ++ (sep, q) :: v)
    (hkeepr : sep < c.1 → nr.cells = b) (hkeepl : ¬ sep < c.1 → nl.cells = a)
    (hb : b = [] → ¬ sep < c.1) : nl.cells ≠ [] ∧ nr.cells ≠ [] := by
  have hlen := congrArg List.length hab
  have hlen' := congrArg List.length hall
  have hpos := List.length_pos_iff.mpr ha
  simp only [List.length_append, List.length_cons] at hlen hlen'
  by_cases hside : sep < c.1
  · rw [hkeepr hside] at hlen' ⊢
    refine ⟨List.length_pos_iff.mp ?_, fun hnil => hb hnil hside⟩
    omega
  · rw [hkeepl hside] at hlen' ⊢
    refine ⟨ha, List.length_pos_iff.mp ?_⟩
    omega

/-- The parent has no room and is split: now the split of the parent is pending. -/
theorem ends_splitUp {par : PageId} {L' : Label Bytes} {n : Node PageId}
    {u v : List (Bytes × PageId)} (h : PendingSplit F.heap seen m p q L sep)
    (hl : Links s₀ F (Shape.splitLab seen p q L sep))
    (hpar : Shape.splitLab seen p q L sep par = some L') (hL' : L'.height = L.height + 1)
    (hpend : Pending seen (Shape.splitLab seen p q L sep) L')
    (hN : F.heap.node par = some (.internal n.bare)) (hcells : n.cells = u ++ v)
    (hchain : Chain (Shape.splitLab seen p q L sep) L.height L'.hi
      ((L'.lo, n.hdr.firstChild) :: (u ++ (sep, q) :: v)))
    (hsorted : Sorted n.cells) (hlt : ∀ c ∈ u, c.1 < sep) (hgt : ∀ c ∈ v, sep < c.1) :
    Ends fullView (splitParent par par sep q) ((F.rewrite par (.internal n.compact.bare)).pin par)
      fun r F' => ∃ a c b, Node.splitCells n.cells = some (a, c, b) ∧
        SepRoom (if sep < c.1 then a else b) sep ∧ (F.heap.next, c.1) = r ∧
        F'.heap.root = F.heap.root ∧
        (∀ {x Lx}, Shape.splitLab seen p q L sep x = some Lx → x ≠ par →
          F'.heap.node x = F.heap.node x) ∧
        PendingSplit F'.heap (Shape.splitLab seen p q L sep) m par F.heap.next L' c.1 ∧
        Links s₀ F' (Shape.splitLab (Shape.splitLab seen p q L sep) par F.heap.next L' c.1) ∧
        (Separated F.heap (Shape.splitLab seen p q L sep) → (b = [] → ¬ sep < c.1) →
          Separated F'.heap
            (Shape.splitLab (Shape.splitLab seen p q L sep) par F.heap.next L' c.1)) := by
  have hne := h.shape.ne_next hpar
  have hright : Shape.splitLab seen p q L sep q = some { L with lo := sep } :=
    Shape.splitLab_right
  have hput : (F.heap.put par (.internal n.compact.bare)).alloc =
      F.heap.alloc.put par (.internal n.compact.bare) := Heap.alloc_put _ _ hne
  refine (ends_splitParent (F := F.rewrite par (.internal n.compact.bare)) (N := n.compact.bare)
    (by simp) n.compacted_compact hsorted hne ?_ ?_ hcells hlt hgt).mono ?_
  · rw [FullHeap.rewrite_heap, hput]
    exact (h.isLive hright).put _ _
  · intro x hx
    obtain ⟨Lx, hLx⟩ := h.shape.child_seen hpar hN hx
    obtain ⟨Lx, hLx⟩ := h.label_of_seen hLx
    rw [FullHeap.rewrite_heap, hput]
    exact (h.isLive hLx).put _ _
  · rintro _ F' ⟨a, c, b, nl, nr, hsplit, hroom, hkeepr, hkeepl, rfl, hheap, hlf, hrf, hall, hlinks⟩
    rw [FullHeap.rewrite_heap, hput, Heap.put_put, Heap.put_next] at hheap
    have hlf : nl.hdr.firstChild = n.hdr.firstChild := hlf
    rw [← hall, ← hlf] at hchain
    have hup := h.up hpar hL' hpend hchain hrf
    rw [← hheap] at hup
    have hnode : ∀ {x Lx}, Shape.splitLab seen p q L sep x = some Lx → x ≠ par →
        F'.heap.node x = F.heap.node x := by
      intro x Lx hx hxne
      rw [hheap, Heap.put_node_of_ne _ _ (h.shape.ne_next hx), Heap.put_node_of_ne _ _ hxne,
        h.shape.alloc_node hx]
    refine ⟨a, c, b, hsplit, hroom, rfl, ?_, hnode, hup, hl.splitParent h hpar hL' hN ?_ ?_ hheap
      ⟨hlinks.parent_right, hlinks.parent_new, hlinks.parent, hlinks.left, hlinks.slot⟩, ?_⟩
    · rw [hheap]
      rfl
    · exact fun x hx => children_of_split (N := n.bare) hcells hall hlf hrf hx
    · intro x hx hx'
      rw [← List.cons_append] at hchain
      obtain ⟨k, hk⟩ := (mem_children L'.lo).mp hx
      obtain ⟨k', hk'⟩ := (mem_children c.1).mp hx'
      rw [entries, hrf] at hk'
      exact hchain.child_ne hk hk' rfl
    · intro hsep hb
      obtain ⟨-, hmid, -, ha⟩ := Node.splitCells_eq_some hsplit
      obtain ⟨hnl, hnr⟩ := halves_ne_nil (hcells.symm.trans hmid) ha hall hkeepr hkeepl hb
      refine hsep.of_changed fun {x Lx} hx => ?_
      rcases Shape.splitLab_cases hx with ⟨rfl, -⟩ | ⟨hxn, rfl, -⟩ | ⟨-, hxne, hx⟩
      · refine Or.inr fun M hM => ?_
        rw [hheap, Heap.put_node_self] at hM
        cases hM
        exact hnr
      · refine Or.inr fun M hM => ?_
        rw [hheap, Heap.put_node_of_ne _ _ hxn, Heap.put_node_self] at hM
        cases hM
        exact hnl
      · exact Or.inl ⟨Lx, hx, hnode hx hxne⟩

/-- **`insert_into_parent`** keeps the shape and the back links; when it returns, every page that
got a separator had room for it. -/
theorem ends_insertIntoParent {key : Bytes} {path : List PageId}
    (h : PendingSplit F.heap seen m p q L sep) (hl : Links s₀ F (Shape.splitLab seen p q L sep))
    (hkey : L.Mem key) (hpath : Path seen key (L.height + 1) path)
    (hroot : seen F.heap.root = some ⟨L.height + path.length, [], ⊤⟩) :
    Ends fullView (insertIntoParent p sep q path) F fun _ F' => F.heap.ParentsOk sep path ∧
      Rests s₀ m (Separated F.heap (Shape.splitLab seen p q L sep) ∧
        F.heap.SplitsKeep sep path) F' := by
  induction path generalizing F seen p q L sep with
  | nil =>
    refine (ends_createNewRoot h hl hroot).mono ?_
    rintro _ F' ⟨hroom, hrest⟩
    exact ⟨hroom, hrest.of_imp And.left⟩
  | cons par path ih =>
    obtain ⟨⟨L', hpar, hL', hkey'⟩, hpath'⟩ := h.path (Nat.lt_succ_self _) hpath
    obtain ⟨N, hN⟩ := (h.shape.page hpar).internal hL'
    have hmem : (L.lo, p) ∈ entries L'.lo N := by
      obtain ⟨a, b, hab, -⟩ := h.shape.entry_of_mem h.left hkey hN hkey'
      rw [hab]
      simp
    obtain ⟨a, u, v, hcells, hu, hhi, hlt, hgt⟩ := hN.place hmem h.left h.lo_lt h.lt_hi
    have hchain := hN.absorb h.right h.ne h.lo_lt h.lt_hi hcells hu hhi
    have hpend : Pending seen (Shape.splitLab seen p q L sep) L' :=
      pending_splitLab h.left h.right hL'.symm (hN.chain.mem_label hmem)
    refine (ends_fetch _).seqVal ?_
    refine (ends_internalNode (N := N) (by exact hN.node)).bind ?_
    rintro n _ ⟨rfl, hparent, hleft, rfl⟩
    have hsome : (F.heap.node par).isSome := by rw [hN.node]; rfl
    have habsorb : ∀ n' : Node PageId, n'.cells = n.cells → n'.hdr = n.hdr →
        Ends fullView (do
          addSeparator par par sep q "ok" "rp != nullptr"
          unpin par true) ((F.rewrite par (.internal n'.bare)).pin par) fun _ F' =>
          F.heap.ParentsOk sep (par :: path) ∧
            Rests s₀ m (Separated F.heap (Shape.splitLab seen p q L sep) ∧
              F.heap.SplitsKeep sep (par :: path)) F' := by
      intro n' hcells' hhdr'
      refine (ends_absorb h hl hpar hL' hpend hN.node hcells hchain hlt hgt (n := n'.bare) hcells'
        (by rw [Node.bare_firstChild, hhdr', Node.bare_firstChild])).mono ?_
      rintro _ F' ⟨hroom, hrest⟩
      refine ⟨?_, hrest.of_imp And.left⟩
      rw [Heap.ParentsOk, hN.node]
      exact Or.inl hroom
    split
    · refine (ends_rewriteInternal n.compact (by exact hsome) hparent hleft).seq ?_
      split
      · next hfull =>
        -- the parent is split, and the promoted key goes on upwards
        have hno : ¬ SepRoom n.cells sep := by
          intro hroom
          have hfree : n.compact.isFull (internalCellSize sep.length) = false :=
            (n.compacted_compact.isFull_iff sep INVALID_PAGE_ID).mpr hroom
          rw [hfree] at hfull
          cases hfull
        refine (ends_splitUp h hl hpar hL' hpend hN.node hcells hchain
          (Sorted.cons_iff.mp hN.chain.sorted).2 hlt hgt).bind ?_
        rintro _ F' ⟨a', c, b', hsplit, hroom, rfl, hroot', hnode, hup, hlup, hkeep⟩
        have habove : ∀ x ∈ path, F'.heap.node x = F.heap.node x := by
          intro x hx
          obtain ⟨Lx, hlx, hle⟩ := hpath'.label_of_mem hx
          refine hnode hlx ?_
          rintro rfl
          cases hpar.symm.trans hlx
          omega
        refine (ih hup hlup hkey' (by rw [hL']; exact hpath') ?_).mono ?_
        · have hheight : L'.height + path.length = L.height + (par :: path).length := by
            rw [hL', List.length_cons]
            omega
          rw [hroot', hheight, Shape.splitLab_other, hroot]
          · intro e
            rw [e, h.left] at hroot
            have hheight' : L.height = L.height + (par :: path).length :=
              congrArg Label.height (Option.some.inj hroot)
            rw [List.length_cons] at hheight'
            omega
          · exact h.root_ne
        · rintro _ F'' ⟨hparents, hrest⟩
          refine ⟨?_, hrest.of_imp ?_⟩
          · rw [Heap.ParentsOk, hN.node]
            refine Or.inr ?_
            rw [Node.bare_cells, hsplit]
            exact ⟨hroom, hparents.congr fun x hx => (habove x hx).symm⟩
          · rintro ⟨hsep, hsplits⟩
            rw [Heap.SplitsKeep, hN.node] at hsplits
            have hsplits := hsplits.resolve_left hno
            rw [Node.bare_cells, hsplit] at hsplits
            exact ⟨hkeep hsep hsplits.1, hsplits.2.congr habove⟩
      · exact habsorb n.compact rfl rfl
    · have hself := habsorb n rfl rfl
      rwa [FullHeap.rewrite_eq_self hN.node] at hself

end Up

section Leaf

variable {F : FullHeap} {p q : PageId} {N nl nr : Node Bytes} {key value : Bytes}
  {a b : List (Bytes × Bytes)} {c : Bytes × Bytes}

/-- A new key is put into a leaf, if there is room. -/
theorem ends_insertCell (hp : F.heap.node p = some (.leaf N)) (hsorted : Sorted N.cells)
    (hkey : ∀ c ∈ N.cells, c.1 ≠ key) :
    Ends fullView (do writeData p (.leaf ((← leafNode p).insertLeafCell key value).2)) F fun _ F' =>
      ∃ n x y, F' = F.rewrite p (.leaf n) ∧ n.hdr.rightSibling = N.hdr.rightSibling ∧
        N.cells = x ++ y ∧
        (Room N.cells (key, value) ∧ n.cells = x ++ (key, value) :: y ∨ n.cells = N.cells) ∧
        (∀ c ∈ x, c.1 < key) ∧ ∀ c ∈ y, key < c.1 := by
  refine (ends_leafNode hp).bind ?_
  rintro n _ ⟨rfl, hparent, hleft, rfl⟩
  obtain ⟨x, y, hxy, -, hlt, hgt, hyes, hno⟩ := Node.insertLeafCell_spec (n := n) hsorted key value
  rw [Node.bare_cells] at hkey
  rw [others_eq hkey] at hxy
  have hwrite : ∀ n' : Node Bytes, n'.hdr = n.hdr →
      Ends fullView (writeData p (.leaf n')) F fun _ F' => F' = F.rewrite p (.leaf n'.bare) :=
    fun n' hhdr => ends_rewriteLeaf n' (by rw [hp]; rfl) (by rw [hhdr, hparent])
      (by rw [hhdr, hleft])
  by_cases hroom : Room (x ++ y) (key, value)
  · obtain ⟨n', hins, hcells, hhdr⟩ := hyes hroom
    rw [hins]
    refine (hwrite n' hhdr).last ?_
    exact ⟨n'.bare, x, y, rfl, by rw [Node.bare_rightSibling, hhdr, Node.bare_rightSibling], hxy,
      Or.inl ⟨by rwa [Node.bare_cells, hxy], hcells⟩, hlt, hgt⟩
  · obtain ⟨n', hins, hcells, hhdr, -⟩ := hno hroom
    rw [hins]
    refine (hwrite n' hhdr).last ?_
    exact ⟨n'.bare, x, y, rfl, by rw [Node.bare_rightSibling, hhdr, Node.bare_rightSibling], hxy,
      Or.inr (hcells.trans hxy.symm), hlt, hgt⟩

/-- The two halves of a leaf when the one that is chosen has no room for the key. -/
structure HalvesWithout (N nl nr : Node Bytes) (q : PageId) (sep : Bytes) : Prop where
  cells : nl.cells ++ nr.cells = N.cells
  lt : ∀ c ∈ nl.cells, c.1 < sep
  ge : ∀ c ∈ nr.cells, sep ≤ c.1
  left : nl.hdr.rightSibling = q
  right : nr.hdr.rightSibling = N.hdr.rightSibling

theorem HalvesWithout.of_split (hcells : N.cells = a ++ c :: b) (hsorted : Sorted N.cells)
    (hl : nl.cells = a) (hr : nr.cells = c :: b) (hleft : nl.hdr.rightSibling = q)
    (hright : nr.hdr.rightSibling = N.hdr.rightSibling) : HalvesWithout N nl nr q c.1 := by
  rw [hcells] at hsorted
  refine ⟨by rw [hl, hr, hcells], ?_, ?_, hleft, hright⟩
  · rw [hl]
    exact hsorted.at_slot.1
  · rw [hr]
    exact hsorted.slot_le

theorem ends_insertHalf (nl nr : Node Bytes) (value : Bytes) (hne : p ≠ q)
    (hl : F.heap.node p = some (.leaf nl)) (hr : F.heap.node q = some (.leaf nr))
    (hcells : N.cells = a ++ c :: b) (hla : nl.cells = a)
    (hrb : nr.cells = c :: b) (hleft : nl.hdr.rightSibling = q)
    (hright : nr.hdr.rightSibling = N.hdr.rightSibling) (hsorted : Sorted N.cells)
    (hkey : ∀ c ∈ N.cells, c.1 ≠ key) :
    Ends fullView (do
        let half := if key < c.1 then p else q
        writeData half (.leaf ((← leafNode half).insertLeafCell key value).2)) F fun _ F' =>
      ∃ nl' nr', F' = (F.rewrite p (.leaf nl')).rewrite q (.leaf nr') ∧
        (Room (if key < c.1 then a else c :: b) (key, value) ∧ Halves N nl' nr' q c.1 key value ∨
          HalvesWithout N nl' nr' q c.1) := by
  have hs := hsorted
  rw [hcells] at hs hkey
  obtain ⟨hsa, hsb, -⟩ := Sorted.append_iff.mp hs
  dsimp only
  by_cases hside : key < c.1
  · simp only [if_pos hside]
    refine (ends_insertCell hl (hla ▸ hsa) ?_).mono ?_
    · exact fun e he => hkey e (List.mem_append_left _ (hla ▸ he))
    · rintro _ _ ⟨n, x, y, rfl, hn, hxy, hcells', hx, hy⟩
      refine ⟨n, nr, ?_, ?_⟩
      · rw [FullHeap.rewrite_eq_self (p := q)]
        rw [FullHeap.rewrite_heap, Heap.put_node_of_ne _ _ hne.symm, hr]
      · rcases hcells' with ⟨hroom, hcells'⟩ | hcells'
        · rw [hla] at hroom
          rw [← hla, hxy] at hcells
          exact Or.inl ⟨hroom,
            .of_lt hcells hsorted hside hcells' hrb hx hy (hn.trans hleft) hright⟩
        · exact Or.inr (.of_split hcells hsorted (hcells'.trans hla) hrb (hn.trans hleft) hright)
  · simp only [if_neg hside]
    refine (ends_insertCell hr (hrb ▸ hsb) ?_).mono ?_
    · exact fun e he => hkey e (List.mem_append_right _ (hrb ▸ he))
    · rintro _ _ ⟨n, x, y, rfl, hn, hxy, hcells', hx, hy⟩
      refine ⟨nl, n, by rw [FullHeap.rewrite_eq_self hl], ?_⟩
      rcases hcells' with ⟨hroom, hcells'⟩ | hcells'
      · rw [hrb] at hroom
        exact Or.inl ⟨hroom, .of_ge hcells (hrb.symm.trans hxy) hsorted hside hla hcells' hx hy hleft
          (hn.trans hright)⟩
      · exact Or.inr (.of_split hcells hsorted hla (hcells'.trans hrb) hleft (hn.trans hright))

/-- The split of a full leaf. -/
theorem ends_splitLeafPage (hp : F.heap.node p = some (.leaf N)) (hcompact : N.Compacted)
    (hsorted : Sorted N.cells) (hne : p ≠ F.heap.next)
    (hsib : N.hdr.rightSibling ≠ INVALID_PAGE_ID → F.heap.alloc.Live N.hdr.rightSibling)
    (hsibne : N.hdr.rightSibling ≠ F.heap.next) (hkey : ∀ c ∈ N.cells, c.1 ≠ key) :
    Ends fullView (splitLeafPage p p key value) (F.pin p) fun r F' =>
      ∃ a c b nl nr, Node.splitCells N.cells = some (a, c, b) ∧ (F.heap.next, c.1) = r ∧
        F'.heap = (F.heap.alloc.put p (.leaf nl)).put F.heap.next (.leaf nr) ∧
        (Room (if key < c.1 then a else c :: b) (key, value) ∧
          Halves N nl nr F.heap.next c.1 key value ∨ HalvesWithout N nl nr F.heap.next c.1) ∧
        SplitLeafLinks F F' p N.hdr.rightSibling := by
  refine (ends_leafNode (N := N) (by exact hp)).bind ?_
  rintro n _ ⟨rfl, hparent, hleft, rfl⟩
  refine ends_newPage.seqVal ?_
  refine (ends_writePage (.leaf (Node.init _))).seq ?_
  refine (ends_leafNode (N := Node.init INVALID_PAGE_ID) (by simp; rfl)).bind ?_
  rintro right _ ⟨hright, -, -, rfl⟩
  have hempty : right.cells = [] := congrArg Node.cells hright
  refine Ends.ofExcept.bind ?_
  rintro ⟨nl, nr, sep⟩ _ ⟨hsplit, rfl⟩
  obtain ⟨a, c, b, hab⟩ := Node.exists_splitCells (Node.length_of_splitCheck hsplit)
  obtain ⟨-, hmid, -⟩ := Node.splitCells_eq_some hab
  obtain ⟨_, _, hspec, hlc, hlh, hrc, hrr, hrl⟩ :=
    Node.splitLeaf_spec (n := n) hcompact hsorted hempty hab p F.heap.next
  cases hsplit.symm.trans hspec
  refine (ends_rewriteLeaf nl ?_ ?_ ?_).seq ?_
  · simp [hne, Heap.alloc, hp]
  · rw [hlh]
    simp [hne, hparent]
  · rw [hlh]
    simp [hne, hleft]
  refine (ends_writeData (.leaf nr) (by simp [hne.symm])).seq ?_
  refine (ends_setLeft F.heap.next _ ?_).seq ?_
  · intro hinv
    simp only [FullHeap.put_heap, FullHeap.rewrite_heap, FullHeap.pin_heap, FullHeap.alloc_heap,
      Heap.alloc_pin, Heap.put_pin]
    exact ((((hsib hinv).put _ _).put _ _).put _ _).isSome
  have hhalf := ends_insertHalf (F := (((((F.pin p).alloc.pin F.heap.next).put F.heap.next
      (.leaf (Node.init n.hdr.parentId))).rewrite p (.leaf nl.bare)).put F.heap.next
      (.leaf nr)).setLeftIfAny n.hdr.rightSibling F.heap.next) (N := n.bare) nl.bare nr.bare value
    hne (by simp [hne]) (by simp; rfl) hmid hlc hrc
    (by rw [Node.bare_rightSibling, hlh]) hrr hsorted hkey
  dsimp only at hhalf ⊢
  rw [← bind_assoc]
  refine hhalf.bind ?_
  rintro _ _ ⟨nl', nr', rfl, hhalves⟩
  refine (ends_unpin true).seq ?_
  refine (ends_unpin true).seq ?_
  refine .pure ⟨a, c, b, nl', nr', hab, rfl, ?_, hhalves, ?_⟩
  · simp only [FullHeap.unpin_heap, FullHeap.setLeftIfAny_heap, FullHeap.rewrite_heap,
      FullHeap.put_heap, FullHeap.pin_heap, FullHeap.alloc_heap, Heap.pin_next, Heap.alloc_pin,
      Heap.put_pin, Heap.put_put_put _ _ hne, Heap.put_put, Heap.unpin_pin_pin, Heap.unpin_pin]
  · rw [Node.bare_rightSibling] at hsibne ⊢
    constructor
    case parent =>
      intro x hx
      simp [hx]
    case left_next => simp [hsibne.symm, AnyNode.hdr, hrl]
    case left_sib =>
      intro hinv
      simp [hinv]
    case left =>
      intro x hx hxs
      simp [hx, hxs]
    case slot => simp

end Leaf

end BTree

section Map

variable {H : Heap} {lab : Labels} {m : Bytes → Option Bytes} {p : PageId} {L : Label Bytes}
  {N n nl nr : Node Bytes} {key sep : Bytes}

theorem LeafOk.get_others (hN : LeafOk H lab m p L N) {k : Bytes} (hk : L.Mem k) :
    Function.update m key none k = slotGet (others key N.cells) k := by
  rw [Function.update_apply]
  split
  · next e =>
    refine (slotGet_eq_none fun c hc => ?_).symm
    rw [e]
    simpa using (List.mem_filter.mp hc).2
  · next e => rw [slotGet_others e, hN.get k hk]

/-- The leaf was split and the key is lost. -/
theorem Shape.loseKey (h : Shape H lab lab m) (hp : lab p = some L) (hL : L.height = 0)
    (hkey : L.Mem key) (hN : LeafOk H lab m p L N) (hn : n.cells = others key N.cells)
    (hright : n.hdr.rightSibling = N.hdr.rightSibling) (hsorted : Sorted n.cells)
    (hhalves : BTree.HalvesWithout n nl nr H.next sep) (hlo : L.lo < sep)
    (hhi : (sep : WithTop Bytes) < L.hi) :
    PendingSplit ((H.alloc.put p (.leaf nl)).put H.next (.leaf nr)) lab
      (Function.update m key none) p H.next L sep := by
  refine h.divideLeaf hp hL (update_or hL hkey _) hlo hhi ?_ ?_ ?_ hhalves.lt hhalves.ge hhalves.left
    ?_
  · rwa [hhalves.cells]
  · intro c hc
    rw [hhalves.cells, hn] at hc
    exact hN.mem c (List.mem_of_mem_filter hc)
  · intro k hk
    rw [hhalves.cells, hn]
    exact hN.get_others hk
  · rw [hhalves.right, hright]
    exact hN.right

end Map

namespace BTree

section Insert

variable {s₀ : Store} {F : FullHeap} {lab : Labels} {m : Bytes → Option Bytes} {key value : Bytes}

theorem ends_node_reads (p : PageId) : Ends fullView (node p) F fun _ F' => F = F' := by
  refine Ends.bind (Q := fun _ F' => F = F') ?_ ?_
  · rintro t _ _ rfl ⟨⟩
    rfl
  · rintro page _ rfl
    split
    · exact .pure rfl
    · exact .pure rfl
    · exact .throw _

/-- The descent changes no header. -/
theorem ends_descend (fuel : Nat) (cur : PageId) (breadcrumbs : List PageId) :
    Ends fullView (descend key fuel cur breadcrumbs) F fun _ F' =>
      F'.parent = F.parent ∧ F'.left = F.left ∧ F'.slot = F.slot := by
  induction fuel generalizing F cur breadcrumbs with
  | zero => exact .throw _
  | succ fuel ih =>
    refine (ends_fetch _).seqVal ?_
    refine (ends_node_reads cur).bind ?_
    rintro (n | n) _ rfl
    · exact .pure ⟨rfl, rfl, rfl⟩
    · refine (ends_unpin false).seq ?_
      exact ih _ _

theorem ends_findLeaf (h : Shape F.heap lab lab m) (key : Bytes) :
    Ends fullView (findLeaf key) F fun r F' => F' = F.pin r.1 ∧ F.heap.findLeaf key = some r ∧
      ∃ j, lab F.heap.root = some ⟨j, [], ⊤⟩ ∧ Found lab key j r.1 r.2 := by
  rintro t r t' rfl he
  obtain ⟨_, _, he', hfind, hheap, hfound⟩ := returns_findLeaf h key t rfl
  cases he.symm.trans he'
  obtain ⟨hparent, hleft, hslot⟩ := ends_descend _ _ _ t r t' rfl he
  exact ⟨FullHeap.ext hheap hparent hleft hslot, hfind, hfound⟩

/-- What is left in the leaf is split, and the separator goes upwards. -/
theorem ends_splitInsert {p : PageId} {L : Label Bytes} {N n : Node Bytes} {path : List PageId}
    (h : Shape F.heap lab lab m) (hl : Links s₀ F lab) (hp : lab p = some L) (hL : L.height = 0)
    (hkey : L.Mem key) (hN : LeafOk F.heap lab m p L N) (hothers : n.cells = others key N.cells)
    (hsorted : Sorted n.cells) (hcompact : n.Compacted)
    (hright : n.hdr.rightSibling = N.hdr.rightSibling) (habove : Path lab key 1 path)
    (hroot : lab F.heap.root = some ⟨path.length, [], ⊤⟩) :
    Ends fullView (do
      let (rightId, sepKey) ← splitLeafPage p p key value
      insertIntoParent p sepKey rightId path) ((F.rewrite p (.leaf n)).pin p) fun _ F' =>
        ∃ a c b m', Node.splitCells n.cells = some (a, c, b) ∧ (∀ k, k ≠ key → m' k = m k) ∧
          (m' key ≠ none → Room (if key < c.1 then a else c :: b) (key, value)) ∧
          F.heap.ParentsOk c.1 path ∧
          Rests s₀ m' (Separated F.heap lab ∧ F.heap.SplitsKeep c.1 path) F' := by
  have hne := h.ne_next hp
  have hput : (F.heap.put p (.leaf n)).alloc = F.heap.alloc.put p (.leaf n) :=
    Heap.alloc_put _ _ hne
  have hsib : RightOk lab L.hi n.hdr.rightSibling := hright ▸ hN.right
  refine (ends_splitLeafPage (F := F.rewrite p (.leaf n)) (N := n) (by simp) hcompact hsorted hne ?_
    ?_ ?_).bind ?_
  · intro hinv
    obtain ⟨Lr, hr⟩ := hsib.label.resolve_left hinv
    rw [FullHeap.rewrite_heap, hput]
    exact ((h.isLive hr).alloc (h.ne_next hr) h.alloc_numPages).put _ _
  · rcases hsib.label with hinv | ⟨Lr, hr⟩
    · rw [hinv]
      intro e
      have hpos := h.next_live.1
      rw [FullHeap.rewrite_heap, Heap.put_next] at e
      rw [← e] at hpos
      exact absurd hpos (by decide)
    · exact h.ne_next hr
  · intro e he
    rw [hothers] at he
    simpa using (List.mem_filter.mp he).2
  rintro _ F' ⟨a, c, b, nl, nr, hsplit, rfl, hheap, hhalves, hlinks⟩
  rw [FullHeap.rewrite_heap, hput, Heap.put_put, Heap.put_next] at hheap
  obtain ⟨-, hmid, -, ha⟩ := Node.splitCells_eq_some hsplit
  have hlt := hsorted
  rw [hmid] at hlt
  obtain ⟨e, he⟩ := List.exists_mem_of_ne_nil a ha
  have hsep : ∃ d ∈ n.cells, d.1 = c.1 := ⟨c, by rw [hmid]; simp, rfl⟩
  have hbelow : ∃ d ∈ n.cells, d.1 < c.1 := ⟨e, by rw [hmid]; simp [he], hlt.at_slot.1 e he⟩
  obtain ⟨hlo, hhi⟩ := hN.sep_mem hothers hsep hbelow
  have hlinks' := hl.splitLeaf h hp hL hsib hlo hheap
    ⟨hlinks.parent, hlinks.left_next, hlinks.left_sib, hlinks.left, hlinks.slot⟩
  have hnode : ∀ {x Lx}, lab x = some Lx → x ≠ p → F'.heap.node x = F.heap.node x := by
    intro x Lx hx hxne
    rw [hheap, Heap.put_node_of_ne _ _ (h.ne_next hx), Heap.put_node_of_ne _ _ hxne,
      h.alloc_node hx]
  have hnodes : ∀ x ∈ path, F'.heap.node x = F.heap.node x := by
    intro x hx
    obtain ⟨Lx, hlx, hle⟩ := habove.label_of_mem hx
    refine hnode hlx ?_
    rintro rfl
    cases hp.symm.trans hlx
    omega
  -- the two halves are leaves
  have hsepar : Separated F.heap lab →
      Separated F'.heap (Shape.splitLab lab p F.heap.next L c.1) := by
    intro hsep
    refine hsep.of_changed fun {x Lx} hx => ?_
    rcases Shape.splitLab_cases hx with ⟨rfl, -⟩ | ⟨hxn, rfl, -⟩ | ⟨-, hxne, hx⟩
    · refine Or.inr fun M hM => ?_
      rw [hheap, Heap.put_node_self] at hM
      cases hM
    · refine Or.inr fun M hM => ?_
      rw [hheap, Heap.put_node_of_ne _ _ hxn, Heap.put_node_self] at hM
      cases hM
    · exact Or.inl ⟨Lx, hx, hnode hx hxne⟩
  have hup : ∀ m', PendingSplit F'.heap lab m' p F.heap.next L c.1 →
      Ends fullView (insertIntoParent p c.1 F.heap.next path) F' fun _ F'' =>
        F.heap.ParentsOk c.1 path ∧
          Rests s₀ m' (Separated F.heap lab ∧ F.heap.SplitsKeep c.1 path) F'' := by
    intro m' hpending
    refine (ends_insertIntoParent hpending hlinks' hkey (by rw [hL]; exact habove) ?_).mono ?_
    · rw [hheap, hL, Nat.zero_add]
      exact hroot
    · rintro _ F'' ⟨hparents, hrest⟩
      refine ⟨hparents.congr fun x hx => (hnodes x hx).symm, hrest.of_imp ?_⟩
      rintro ⟨hsep, hsplits⟩
      exact ⟨hsepar hsep, hsplits.congr hnodes⟩
  rcases hhalves with ⟨hroom, hhalves⟩ | hhalves
  · have hpending := h.splitLeaf hp hL hkey hN hothers hright hsorted hhalves hsep hbelow
    rw [← hheap] at hpending
    refine (hup _ hpending).mono ?_
    rintro _ F'' ⟨hparents, hrest⟩
    exact ⟨a, c, b, _, hsplit, fun k hk => Function.update_of_ne hk .., fun _ => hroom, hparents,
      hrest⟩
  · have hpending := h.loseKey hp hL hkey hN hothers hright hsorted hhalves hlo hhi
    rw [← hheap] at hpending
    refine (hup _ hpending).mono ?_
    rintro _ F'' ⟨hparents, hrest⟩
    exact ⟨a, c, b, _, hsplit, fun k hk => Function.update_of_ne hk ..,
      fun hkeep => (hkeep (Function.update_self ..)).elim, hparents, hrest⟩

/-- **`insert`** keeps the shape and the back links whenever it returns, and what the map has for
the other keys; the key itself is lost unless there was room for it. -/
theorem ends_insert_rests (h : Shape F.heap lab lab m) (hl : Links s₀ F lab) :
    Ends fullView (insert key value) F fun _ F' =>
      ∃ m', (∀ k, k ≠ key → m' k = m k) ∧
        (m' key ≠ none → Fits key value ∧ F.heap.InsertOk key value) ∧
        Rests s₀ m' (Separated F.heap lab ∧ F.heap.InsertSplitsKeep key value) F' := by
  unfold insert
  split
  swap
  · exact .throw _
  next hfits =>
  refine (ends_findLeaf h key).bind ?_
  rintro ⟨p, path⟩ _ ⟨rfl, hfind, j, hroot, ⟨L, hp, hL, hkey⟩, hlen, habove⟩
  obtain ⟨N, hN⟩ := (h.page hp).leaf hL
  have hsome : (F.heap.node p).isSome := by rw [hN.node]; rfl
  have hne := h.ne_next hp
  refine (ends_readPage (p := p) (by exact hsome)).bind ?_
  rintro ⟨id, data⟩ _ ⟨rfl, rfl⟩
  refine (ends_leafNode (N := N) (by exact hN.node)).bind ?_
  rintro n _ ⟨rfl, hparent, hleft, rfl⟩
  obtain ⟨x, y, hxy, hsxy, hlt, hgt, hyes, hno⟩ :=
    Node.insertLeafCell_spec (n := n) hN.sorted key value
  by_cases hroom : Room (x ++ y) (key, value)
  · obtain ⟨n', hins, hcells, hhdr⟩ := hyes hroom
    rw [hins]
    refine (ends_rewriteLeaf n' (by exact hsome) (by rw [hhdr, hparent])
      (by rw [hhdr, hleft])).seq ?_
    refine (ends_unpin true).last ?_
    have hstate : (((F.pin p).rewrite p (.leaf n'.bare)).unpin p) =
        F.rewrite p (.leaf n'.bare) := by
      ext1 <;> simp
    dsimp only
    rw [hstate]
    refine ⟨Function.update m key (some value), fun k hk => Function.update_of_ne hk .., fun _ => ?_,
      lab, h.setLeaf hp hL hkey hN hxy hsxy hlt hgt (n := n'.bare) hcells (by simp [hhdr]),
      hl.rewriteLeaf _, fun hsep => ?_⟩
    · refine ⟨hfits, ?_⟩
      rw [Heap.InsertOk, hfind]
      dsimp only
      rw [hN.node]
      exact Or.inl (by rwa [Node.bare_cells, hxy])
    · refine hsep.1.of_changed fun {x Lx} hx => ?_
      by_cases hxp : x = p
      · subst hxp
        refine Or.inr fun M hM => ?_
        rw [FullHeap.rewrite_heap, Heap.put_node_self] at hM
        cases hM
      · exact Or.inl ⟨Lx, hx, Heap.put_node_of_ne _ _ hxp⟩
  · -- what is left in the leaf is split
    obtain ⟨n', hins, hcells, hhdr, hcompact⟩ := hno hroom
    have hothers : n'.bare.cells = others key n.bare.cells := hcells.trans hxy.symm
    rw [hins]
    refine (ends_rewriteLeaf n' (by exact hsome) (by rw [hhdr, hparent])
      (by rw [hhdr, hleft])).seq ?_
    refine (ends_splitInsert h hl hp hL hkey hN hothers ?_ hcompact (by simp [hhdr]) habove ?_).mono
      ?_
    · rw [Node.bare_cells, hcells]
      exact hsxy
    · rw [hroot, hlen]
    · rintro _ F' ⟨a, c, b, m', hsplit, hkeep, hhalf, hparents, hrest⟩
      rw [hothers] at hsplit
      refine ⟨m', hkeep, fun hm' => ⟨hfits, ?_⟩, hrest.of_imp ?_⟩
      · rw [Heap.InsertOk, hfind]
        dsimp only
        rw [hN.node]
        refine Or.inr ?_
        rw [hsplit]
        exact ⟨hhalf hm', hparents⟩
      · rintro ⟨hsep, hsplits⟩
        rw [Heap.InsertSplitsKeep, hfind] at hsplits
        dsimp only at hsplits
        rw [hN.node] at hsplits
        have hsplits := hsplits.resolve_left (by rwa [Node.bare_cells, hxy])
        rw [hsplit] at hsplits
        exact ⟨hsep, hsplits⟩

/-- The same without what is needed for it. -/
theorem ends_insert (h : Shape F.heap lab lab m) (hl : Links s₀ F lab) :
    Ends fullView (insert key value) F fun _ F' =>
      ∃ m', (∀ k, k ≠ key → m' k = m k) ∧ AtRest s₀ m' F' := by
  refine (ends_insert_rests h hl).mono ?_
  rintro _ F' ⟨m', hkeep, -, hrest⟩
  exact ⟨m', hkeep, hrest.atRest⟩

end Insert

end BTree

end KeyVDB
