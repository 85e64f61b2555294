import KeyVDB.BTree.Search

/-!
# Insertion

`insert` puts the key into its leaf; where there is no room the leaf is split and the separator is
handed upwards. `InsertOk` says, on the heap before the call, that every page on the way has room
for what it gets, if need be in the half that is chosen after a split.
-/

namespace KeyVDB

/-! ## When there is room -/

/-- The cells of an internal node leave room for a separator. -/
def SepRoom (cells : List (Bytes × PageId)) (sep : Bytes) : Prop :=
  Room cells (sep, INVALID_PAGE_ID)

instance (cells : List (Bytes × PageId)) (sep : Bytes) : Decidable (SepRoom cells sep) :=
  inferInstanceAs (Decidable (Room _ _))

namespace Heap

/-- The pages above can take a separator: each one has room, or can be split, has room in the half
that is chosen, and the pages above it can take the promoted key. -/
def ParentsOk (H : Heap) : Bytes → List PageId → Prop
  | sep, [] => SepRoom [] sep
  | sep, p :: path =>
    match H.node p with
    | some (.internal n) => SepRoom n.cells sep ∨
      match Node.splitCells n.cells with
      | some (a, c, b) => SepRoom (if sep < c.1 then a else b) sep ∧ H.ParentsOk c.1 path
      | none => False
    | _ => False

/-- The leaf has room beside the cells with other keys, or can be split, has room in the half that
is chosen, and the pages above can take the separator. -/
def LeafRoom (H : Heap) (key value : Bytes) (n : Node Bytes) (path : List PageId) : Prop :=
  Room (others key n.cells) (key, value) ∨
    match Node.splitCells (others key n.cells) with
    | some (a, c, b) => Room (if key < c.1 then a else c :: b) (key, value) ∧ H.ParentsOk c.1 path
    | none => False

/-- There is room for the key and the value on the way from the root. -/
def InsertOk (H : Heap) (key value : Bytes) : Prop :=
  match H.findLeaf key with
  | some (p, path) =>
    match H.node p with
    | some (.leaf n) => H.LeafRoom key value n path
    | _ => False
  | none => False

/-- No page above loses its last separator: where a page is split at its last separator, the new one
goes to the right half. -/
def SplitsKeep (H : Heap) : Bytes → List PageId → Prop
  | _, [] => True
  | sep, p :: path =>
    match H.node p with
    | some (.internal n) => SepRoom n.cells sep ∨
      match Node.splitCells n.cells with
      | some (_, c, b) => (b = [] → ¬ sep < c.1) ∧ H.SplitsKeep c.1 path
      | none => True
    | _ => True

/-- The same for the separator that an insertion hands upwards, if any. -/
def InsertSplitsKeep (H : Heap) (key value : Bytes) : Prop :=
  match H.findLeaf key with
  | some (p, path) =>
    match H.node p with
    | some (.leaf n) => Room (others key n.cells) (key, value) ∨
      match Node.splitCells (others key n.cells) with
      | some (_, c, _) => H.SplitsKeep c.1 path
      | none => True
    | _ => True
  | none => True

instance decidableParentsOk (H : Heap) :
    (sep : Bytes) → (path : List PageId) → Decidable (H.ParentsOk sep path)
  | sep, [] => inferInstanceAs (Decidable (SepRoom [] sep))
  | sep, p :: path => by
    have hdec := fun s => decidableParentsOk H s path
    unfold ParentsOk
    split
    · refine @instDecidableOr _ _ _ ?_
      split
      · infer_instance
      · infer_instance
    · infer_instance

instance (H : Heap) (key value : Bytes) (n : Node Bytes) (path : List PageId) :
    Decidable (H.LeafRoom key value n path) := by
  unfold LeafRoom
  refine @instDecidableOr _ _ _ ?_
  split
  · infer_instance
  · infer_instance

instance (H : Heap) (key value : Bytes) : Decidable (H.InsertOk key value) := by
  unfold InsertOk
  split
  · split
    · infer_instance
    · infer_instance
  · infer_instance

instance decidableSplitsKeep (H : Heap) :
    (sep : Bytes) → (path : List PageId) → Decidable (H.SplitsKeep sep path)
  | _, [] => instDecidableTrue
  | sep, p :: path => by
    have hdec := fun s => decidableSplitsKeep H s path
    unfold SplitsKeep
    split
    · refine @instDecidableOr _ _ _ ?_
      split
      · infer_instance
      · infer_instance
    · infer_instance

instance (H : Heap) (key value : Bytes) : Decidable (H.InsertSplitsKeep key value) := by
  unfold InsertSplitsKeep
  split
  · split
    · refine @instDecidableOr _ _ _ ?_
      split
      · infer_instance
      · infer_instance
    · infer_instance
  · infer_instance

theorem SplitsKeep.congr {H H' : Heap} {sep : Bytes} {path : List PageId}
    (h : H.SplitsKeep sep path) (hnode : ∀ p ∈ path, H'.node p = H.node p) :
    H'.SplitsKeep sep path := by
  induction path generalizing sep with
  | nil => exact h
  | cons p path ih =>
    rw [SplitsKeep] at h ⊢
    rw [hnode p List.mem_cons_self]
    split at h
    · refine h.imp_right fun hsplit => ?_
      split at hsplit
      · exact ⟨hsplit.1, ih hsplit.2 fun q hq => hnode q (List.mem_cons_of_mem p hq)⟩
      · exact hsplit
    · exact h

theorem ParentsOk.congr {H H' : Heap} {sep : Bytes} {path : List PageId}
    (h : H.ParentsOk sep path) (hnode : ∀ p ∈ path, H'.node p = H.node p) :
    H'.ParentsOk sep path := by
  induction path generalizing sep with
  | nil => exact h
  | cons p path ih =>
    rw [ParentsOk] at h ⊢
    rw [hnode p List.mem_cons_self]
    split at h
    · refine h.imp_right fun hsplit => ?_
      split at hsplit
      · exact ⟨hsplit.1, ih hsplit.2 fun q hq => hnode q (List.mem_cons_of_mem p hq)⟩
      · exact hsplit
    · exact h

end Heap

/-! ## The place of the separator -/

/-- Where a new separator goes in its parent: `u` are the separators up to the child that was
split. -/
theorem InternalOk.place {H : Heap} {seen : Labels} {par p : PageId} {L L' : Label Bytes}
    {N : Node PageId} (hN : InternalOk H seen par L' L.height N) (hp : (L.lo, p) ∈ entries L'.lo N)
    (hseen : seen p = some L) {sep : Bytes} (hlo : L.lo < sep) (hhi : (sep : WithTop Bytes) < L.hi) :
    ∃ a u b, N.cells = u ++ b ∧ (L'.lo, N.hdr.firstChild) :: u = a ++ [(L.lo, p)] ∧
      L.hi = nextKey L'.hi b ∧ (∀ c ∈ u, c.1 < sep) ∧ ∀ c ∈ b, sep < c.1 := by
  obtain ⟨a, b, hab, hlabel⟩ := hN.chain.focus hp
  have hL : L.hi = nextKey L'.hi b := congrArg Label.hi (Option.some.inj (hseen.symm.trans hlabel))
  have hsorted := hN.chain.sorted
  rw [hab] at hsorted
  obtain ⟨hlt, hgt⟩ := hsorted.at_slot
  have hgt' : ∀ c ∈ b, sep < c.1 := by
    cases b with
    | nil => exact nofun
    | cons y b =>
      rw [hL] at hhi
      have hy : sep < y.1 := WithTop.coe_lt_coe.mp hhi
      intro c hc
      rcases List.mem_cons.mp hc with rfl | hc
      · exact hy
      · have hsb := (Sorted.cons_iff.mp (Sorted.append_iff.mp hsorted).2.1).2
        exact hy.trans ((Sorted.cons_iff.mp hsb).1 c hc)
  cases a with
  | nil =>
    rw [List.nil_append, entries] at hab
    obtain ⟨hx, hcells⟩ := List.cons.inj hab
    exact ⟨[], [], b, hcells, by rw [hx]; rfl, hL, nofun, hgt'⟩
  | cons x a =>
    rw [List.cons_append, entries] at hab
    obtain ⟨hx, hcells⟩ := List.cons.inj hab
    refine ⟨x :: a, a ++ [(L.lo, p)], b, by rw [hcells]; simp, by rw [hx]; rfl, hL, ?_, hgt'⟩
    intro c hc
    rcases List.mem_append.mp hc with hc | hc
    · exact (hlt c (List.mem_cons_of_mem x hc)).trans hlo
    · rw [List.mem_singleton.mp hc]
      exact hlo

/-- The labels of a split page are those that its parent must learn. -/
theorem pending_splitLab {seen : Labels} {p q : PageId} {L L' : Label Bytes} {sep : Bytes}
    (hp : seen p = some L) (hq : seen q = none) (hL : L.height + 1 = L'.height)
    (hmem : L'.Mem L.lo) : Pending seen (Shape.splitLab seen p q L sep) L' := by
  intro c Lc hc
  by_cases hcp : c = p
  · subst hcp
    cases hp.symm.trans hc
    exact Or.inr ⟨hL, hmem⟩
  · refine Or.inl ?_
    rw [Shape.splitLab_other hcp, hc]
    rintro rfl
    rw [hq] at hc
    cases hc

/-- The chain of the parent with the new separator in it. -/
theorem InternalOk.absorb {H : Heap} {seen : Labels} {par p q : PageId} {L L' : Label Bytes}
    {N : Node PageId} (hN : InternalOk H seen par L' L.height N) (hq : seen q = none)
    {sep : Bytes} (hne : p ≠ q) (hlo : L.lo < sep) (hhi : (sep : WithTop Bytes) < L.hi)
    {a u b : List (Bytes × PageId)} (hcells : N.cells = u ++ b)
    (hu : (L'.lo, N.hdr.firstChild) :: u = a ++ [(L.lo, p)]) (hL : L.hi = nextKey L'.hi b) :
    Chain (Shape.splitLab seen p q L sep) L.height L'.hi
      ((L'.lo, N.hdr.firstChild) :: (u ++ (sep, q) :: b)) := by
  have hchain := hN.chain
  rw [entries, hcells, ← List.cons_append, hu, List.append_assoc, List.singleton_append] at hchain
  rw [← List.cons_append, hu, List.append_assoc, List.singleton_append]
  refine hchain.absorb (Shape.splitLab_left hne) ?_ hlo (hL ▸ hhi) ?_
  · rw [Shape.splitLab_right, hL]
  · intro y hy
    have hy' : y ∈ a ++ (L.lo, p) :: b := by
      rcases List.mem_append.mp hy with hy | hy
      · exact List.mem_append_left _ hy
      · exact List.mem_append_right a (List.mem_cons_of_mem _ hy)
    refine Shape.splitLab_other ?_ ?_
    · rintro rfl
      -- the child stands at one place only
      have hsame := hchain.eq_of_child_eq hy' (y := (L.lo, y.2)) (by simp) rfl
      obtain ⟨hlt, hgt⟩ := hchain.sorted.at_slot
      rcases List.mem_append.mp hy with hy | hy
      · exact (hlt y hy).ne (congrArg Prod.fst hsame)
      · exact (hgt y hy).ne' (congrArg Prod.fst hsame)
    · intro e
      obtain ⟨k, hk⟩ := hchain.label_of_mem hy'
      rw [e, hq] at hk
      cases hk

namespace BTree

variable {H : Heap} {par q : PageId} {N : Node PageId} {sep : Bytes} {u v : List (Bytes × PageId)}

/-! ## Separators in a node -/

theorem returns_addSeparator (hpar : H.node par = some (.internal N)) (hq : H.Live q)
    (hcells : N.cells = u ++ v) (hlt : ∀ c ∈ u, c.1 < sep) (hgt : ∀ c ∈ v, sep < c.1)
    (hroom : SepRoom (u ++ v) sep) (room cond : String) :
    Returns view (addSeparator par par sep q room cond) H fun _ H' =>
      ∃ n, H' = H.put par (.internal n) ∧ n.cells = u ++ (sep, q) :: v ∧
        n.hdr.firstChild = N.hdr.firstChild := by
  refine (returns_internalNode hpar).bind ?_
  rintro n _ ⟨rfl, rfl⟩
  have hroom : Room (u ++ v) (sep, q) := hroom
  obtain ⟨n', hins, hcells', hhdr⟩ := Node.insertSeparator_spec (n := n) hcells hlt hgt hroom
  rw [hins]
  refine (returns_writeInternal n' (by rw [hpar]; rfl)).seq ?_
  refine (returns_setParent par cond (hq.put _ _)).last ?_
  exact ⟨n'.bare, rfl, hcells', by rw [Node.bare_firstChild, hhdr, Node.bare_firstChild]⟩

/-- The half into which a separator goes is the one where it stands in order. -/
theorem place_in_half {a b : List (Bytes × PageId)} {c : Bytes × PageId}
    (hcells : u ++ v = a ++ c :: b) (hlt : ∀ c ∈ u, c.1 < sep) (hgt : ∀ c ∈ v, sep < c.1) :
    sep < c.1 ∧ (∃ a', a = u ++ a' ∧ v = a' ++ c :: b) ∨
      ¬ sep < c.1 ∧ ∃ b', u = a ++ c :: b' ∧ b = b' ++ v := by
  rcases List.append_eq_append_iff.mp hcells with ⟨a', rfl, rfl⟩ | ⟨b', rfl, hb⟩
  · exact Or.inl ⟨hgt c (by simp), a', rfl, rfl⟩
  · cases b' with
    | nil =>
      rw [List.nil_append] at hb
      exact Or.inl ⟨hgt c (by rw [← hb]; simp), [], by simp, hb.symm⟩
    | cons c' b' =>
      obtain ⟨rfl, rfl⟩ := List.cons.inj hb
      exact Or.inr ⟨(hlt c (by simp)).not_gt, b', rfl, rfl⟩

/-- After a split of `par` into `nl` and `nr` with the cell `c` between them, the half that is chosen
gets the separator. -/
theorem returns_addToHalf (nl nr : Node PageId) {c : Bytes × PageId} (hne : par ≠ q)
    (hl : H.node par = some (.internal nl)) (hr : H.node q = some (.internal nr)) {child : PageId}
    (hchild : H.Live child) (hcells : u ++ v = nl.cells ++ c :: nr.cells)
    (hlt : ∀ c ∈ u, c.1 < sep) (hgt : ∀ c ∈ v, sep < c.1)
    (hroom : SepRoom (if sep < c.1 then nl.cells else nr.cells) sep) (room cond : String) :
    Returns view
      (addSeparator (if sep < c.1 then par else q) (if sep < c.1 then par else q) sep child room cond)
      H fun _ H' => ∃ nl' nr', H' = (H.put par (.internal nl')).put q (.internal nr') ∧
        nl'.hdr.firstChild = nl.hdr.firstChild ∧ nr'.hdr.firstChild = nr.hdr.firstChild ∧
        nl'.cells ++ c :: nr'.cells = u ++ (sep, child) :: v := by
  rcases place_in_half hcells hlt hgt with ⟨hside, a, ha, rfl⟩ | ⟨hside, b, rfl, hb⟩
  · rw [if_pos hside, ha] at hroom
    rw [if_pos hside]
    refine (returns_addSeparator hl hchild ha hlt ?_ hroom _ _).mono ?_
    · exact fun x hx => hgt x (List.mem_append_left _ hx)
    · rintro _ _ ⟨n, rfl, hn, hfirst⟩
      refine ⟨n, nr, (Heap.put_eq_self ?_).symm, hfirst, rfl, by rw [hn]; simp⟩
      rw [Heap.put_node_of_ne _ _ hne.symm, hr]
  · rw [if_neg hside, hb] at hroom
    rw [if_neg hside]
    refine (returns_addSeparator hr hchild hb ?_ hgt hroom _ _).mono ?_
    · exact fun x hx => hlt x (by simp [hx])
    · rintro _ _ ⟨n, rfl, hn, hfirst⟩
      exact ⟨nl, n, by rw [Heap.put_eq_self hl], rfl, hfirst, by rw [hn]; simp⟩

theorem select_half {P : Prop} [Decidable P] (p q : PageId) (s s' : String) :
    ∃ room, (if P then (p, p, s) else (q, q, s')) =
      (if P then p else q, if P then p else q, room) := by
  split
  · exact ⟨s, rfl⟩
  · exact ⟨s', rfl⟩

/-- The children of the right half get their new parent, and both halves are unpinned. -/
theorem returns_adoptChildren (nr : Node PageId) {psep : Bytes}
    (hr : H.node q = some (.internal nr))
    (hlive : ∀ x ∈ nr.hdr.firstChild :: nr.cells.map Prod.snd, H.Live x) :
    Returns view (do
      let parentRight ← internalNode q
      reparentAll q (parentRight.hdr.firstChild :: parentRight.cells.map Prod.snd)
      unpin par true
      unpin q true
      return (q, psep)) ((H.pin par).pin q) fun r H' => (q, psep) = r ∧ H = H' := by
  refine (returns_internalNode (N := nr) (by exact hr)).bind ?_
  rintro n _ ⟨rfl, rfl⟩
  refine (returns_reparentAll q fun x hx => ((hlive x hx).pin par).pin q).seq ?_
  refine (returns_unpin true).seq ?_
  refine (returns_unpin true).seq ?_
  refine .pure ⟨rfl, ?_⟩
  rw [Heap.unpin_pin_pin, Heap.unpin_pin]

/-- The split of a full parent: the cells with the new separator in place are divided around the
promoted cell. -/
theorem returns_splitParent {a b : List (Bytes × PageId)} {c : Bytes × PageId}
    (hpar : H.node par = some (.internal N)) (hcompact : N.Compacted) (hsorted : Sorted N.cells)
    (hsplit : Node.splitCells N.cells = some (a, c, b)) (hne : par ≠ H.next)
    (hq : H.alloc.Live q)
    (hlive : ∀ x ∈ N.hdr.firstChild :: N.cells.map Prod.snd, H.alloc.Live x)
    (hcells : N.cells = u ++ v) (hlt : ∀ c ∈ u, c.1 < sep) (hgt : ∀ c ∈ v, sep < c.1)
    (hroom : SepRoom (if sep < c.1 then a else b) sep) :
    Returns view (splitParent par par sep q) (H.pin par) fun r H' =>
      ∃ nl nr, r = (H.next, c.1) ∧
        H' = (H.alloc.put par (.internal nl)).put H.next (.internal nr) ∧
        nl.hdr.firstChild = N.hdr.firstChild ∧ nr.hdr.firstChild = c.2 ∧
        nl.cells ++ c :: nr.cells = u ++ (sep, q) :: v := by
  obtain ⟨-, hmid, -⟩ := Node.splitCells_eq_some hsplit
  refine (returns_internalNode (N := N) (by exact hpar)).bind ?_
  rintro n _ ⟨rfl, rfl⟩
  refine returns_newPage.seqVal ?_
  refine (returns_initInternal _).seq ?_
  simp only [Heap.pin_next, Heap.alloc_pin, Heap.put_pin]
  refine (returns_internalNode (N := Node.init INVALID_PAGE_ID) (by simp)).bind ?_
  rintro right _ ⟨hright, rfl⟩
  have hempty : right.cells = [] := congrArg Node.cells hright
  obtain ⟨nl, nr, hsplitInternal, hlc, hlh, hrc, hrh⟩ :=
    Node.splitInternal_spec (n := n) hcompact hsorted hempty hsplit
  refine (Returns.ofExcept hsplitInternal).bind ?_
  rintro _ _ ⟨rfl, rfl⟩
  refine (returns_writeInternal nl ?_).seq ?_
  · simp [hne, Heap.alloc, hpar]
  refine (returns_writeInternal nr (by simp [hne.symm])).seq ?_
  simp only [Heap.put_pin, Heap.put_put_put _ _ hne]
  have hhalf := returns_addToHalf nl.bare nr.bare (H := (((H.alloc.put par
      (.internal nl.bare)).put H.next (.internal nr.bare)).pin par).pin H.next) (c := c) hne
    (by simp [hne]) (by simp) (((hq.put _ _).put _ _).pin _ |>.pin _)
    (by rw [← hcells, hmid, Node.bare_cells, Node.bare_cells, hlc, hrc]) hlt hgt
    (by rwa [Node.bare_cells, Node.bare_cells, hlc, hrc])
  obtain ⟨room, hsel⟩ := select_half (P := sep < c.1) par H.next
    "ok && \"left half should have room after split\""
    "ok && \"right half should have room after split\""
  rw [hsel]
  refine (hhalf room _).bind ?_
  rintro _ _ ⟨nl', nr', rfl, hlf, hrf, hall⟩
  simp only [Heap.put_pin, Heap.put_put_put _ _ hne, Heap.put_put]
  refine (returns_adoptChildren nr' (by simp) fun x hx => ?_).mono ?_
  · refine ((?_ : H.alloc.Live x).put _ _).put _ _
    rw [hrf, Node.bare_firstChild, hrh] at hx
    rcases List.mem_cons.mp hx with rfl | hx
    · exact hlive _ (List.mem_cons_of_mem _ (List.mem_map_of_mem (hmid ▸ by simp)))
    · obtain ⟨y, hy, rfl⟩ := List.mem_map.mp hx
      have hy' : y ∈ u ++ (sep, q) :: v := hall ▸ by simp [hy]
      rcases List.mem_append.mp hy' with hy' | hy'
      · exact hlive _ (List.mem_cons_of_mem _ (List.mem_map_of_mem (hcells ▸ by simp [hy'])))
      · rcases List.mem_cons.mp hy' with rfl | hy'
        · exact hq
        · exact hlive _ (List.mem_cons_of_mem _ (List.mem_map_of_mem (hcells ▸ by simp [hy'])))
  · rintro _ _ ⟨rfl, rfl⟩
    refine ⟨nl', nr', rfl, rfl, ?_, ?_, hall⟩
    · rw [hlf, Node.bare_firstChild, Node.bare_firstChild, hlh]
    · rw [hrf, Node.bare_firstChild, hrh]

end BTree

/-! ## Up to the root -/

/-- The page `p` was split at `sep`, the new page is `q`, and no page above knows it yet. -/
structure PendingSplit (H : Heap) (seen : Labels) (m : Bytes → Option Bytes) (p q : PageId)
    (L : Label Bytes) (sep : Bytes) : Prop where
  shape : Shape H seen (Shape.splitLab seen p q L sep) m
  left : seen p = some L
  right : seen q = none

namespace PendingSplit

variable {H : Heap} {seen : Labels} {m : Bytes → Option Bytes} {p q : PageId} {L : Label Bytes}
  {sep : Bytes}

theorem ne (h : PendingSplit H seen m p q L sep) : p ≠ q := by
  rintro rfl
  cases h.left.symm.trans h.right

theorem lo_lt (h : PendingSplit H seen m p q L sep) : L.lo < sep :=
  WithTop.coe_lt_coe.mp (h.shape.proper (Shape.splitLab_left h.ne))

theorem lt_hi (h : PendingSplit H seen m p q L sep) : (sep : WithTop Bytes) < L.hi :=
  h.shape.proper Shape.splitLab_right

theorem mem_lo (h : PendingSplit H seen m p q L sep) : L.Mem L.lo :=
  ⟨le_rfl, (WithTop.coe_lt_coe.mpr h.lo_lt).trans h.lt_hi⟩

theorem isLive (h : PendingSplit H seen m p q L sep) {x : PageId} {Lx : Label Bytes}
    (hx : Shape.splitLab seen p q L sep x = some Lx) : H.alloc.Live x :=
  (h.shape.isLive hx).alloc (h.shape.ne_next hx) h.shape.alloc_numPages

/-- Without breadcrumbs the page that was split is the root. -/
theorem eq_root (h : PendingSplit H seen m p q L sep)
    (hroot : seen H.root = some ⟨L.height, [], ⊤⟩) : p = H.root ∧ L = ⟨L.height, [], ⊤⟩ := by
  have hp : p = H.root := h.shape.apart_seen h.left hroot rfl h.mem_lo
    ⟨nil_le_bytes _, WithTop.coe_lt_top _⟩
  refine ⟨hp, ?_⟩
  rw [← hp, h.left] at hroot
  exact Option.some.inj hroot

/-- The path goes on above a page that was split: the labels there are the same. -/
theorem path {key : Bytes} {i : Nat} {path : List PageId} (h : PendingSplit H seen m p q L sep)
    (hi : L.height < i) (hpath : Path seen key i path) :
    Path (Shape.splitLab seen p q L sep) key i path := by
  induction path generalizing i with
  | nil => exact trivial
  | cons x path ih =>
    obtain ⟨⟨Lx, hx, hLx, hkey⟩, hpath⟩ := hpath
    refine ⟨⟨Lx, ?_, hLx, hkey⟩, ih (Nat.lt_succ_of_lt hi) hpath⟩
    rw [Shape.splitLab_other, hx]
    · rintro rfl
      cases h.left.symm.trans hx
      omega
    · rintro rfl
      cases h.right.symm.trans hx

/-- The parent took the separator and was split in turn. -/
theorem up {par : PageId} {L' : Label Bytes} {nl nr : Node PageId} {c : Bytes × PageId}
    (h : PendingSplit H seen m p q L sep)
    (hpar : Shape.splitLab seen p q L sep par = some L') (hL' : L'.height = L.height + 1)
    (hpend : Pending seen (Shape.splitLab seen p q L sep) L')
    (hchain : Chain (Shape.splitLab seen p q L sep) L.height L'.hi
      ((L'.lo, nl.hdr.firstChild) :: (nl.cells ++ c :: nr.cells)))
    (hr : nr.hdr.firstChild = c.2) :
    PendingSplit ((H.alloc.put par (.internal nl)).put H.next (.internal nr))
      (Shape.splitLab seen p q L sep) m par H.next L' c.1 := by
  have hne := h.shape.ne_next hpar
  have hlo : L'.lo < c.1 := (Sorted.cons_iff.mp hchain.sorted).1 c (by simp)
  have hhi : (c.1 : WithTop Bytes) < L'.hi := hchain.lt_hi (x := c) (by simp)
  rw [← List.cons_append] at hchain
  obtain ⟨hl, hright⟩ := chain_append.mp hchain
  refine ⟨h.shape.split hpar hpend hlo hhi (fun _ => Or.inl rfl) ?_ ?_, hpar, h.shape.next_fresh⟩
  · exact InternalOk.pageOk (N := nl) ⟨by simp [hne], hl⟩ hL'
  · refine InternalOk.pageOk (N := nr) ⟨by simp, ?_⟩ hL'
    rw [entries, hr]
    exact hright

/-- A new root over the two halves of the old one. -/
theorem grow {n : Node PageId} (h : PendingSplit H seen m p q L sep)
    (hroot : seen H.root = some ⟨L.height, [], ⊤⟩) (hcells : n.cells = [(sep, q)])
    (hfirst : n.hdr.firstChild = p) :
    Shape ((H.alloc.put H.next (.internal n)).setRoot H.next)
      (Function.update (Shape.splitLab seen p q L sep) H.next (some ⟨L.height + 1, [], ⊤⟩))
      (Function.update (Shape.splitLab seen p q L sep) H.next (some ⟨L.height + 1, [], ⊤⟩)) m := by
  have hleft : Shape.splitLab seen p q L sep p = some { L with hi := sep } :=
    Shape.splitLab_left h.ne
  have hright : Shape.splitLab seen p q L sep q = some { L with lo := sep } :=
    Shape.splitLab_right
  refine h.shape.grow hroot ?_ ?_
  · exact pending_splitLab h.left h.right rfl ⟨nil_le_bytes _, WithTop.coe_lt_top _⟩
  · obtain ⟨-, hL⟩ := h.eq_root hroot
    refine InternalOk.pageOk (N := n) (j := L.height) ⟨by simp [Heap.setRoot], ?_⟩ rfl
    have hentries : entries [] n = [([], p), (sep, q)] := by rw [entries, hcells, hfirst]
    rw [hentries, chain_cons, chain_cons, Function.update_of_ne (h.shape.ne_next hleft),
      Function.update_of_ne (h.shape.ne_next hright), hleft, hright, hL]
    refine ⟨rfl, ?_, rfl, WithTop.coe_lt_top _, trivial⟩
    have hlo := h.lo_lt
    rw [hL] at hlo
    exact WithTop.coe_lt_coe.mpr hlo

end PendingSplit

namespace BTree

section Up

variable {H : Heap} {seen : Labels} {m : Bytes → Option Bytes} {p q : PageId} {L : Label Bytes}
  {sep : Bytes}

/-- **A new root** over the two halves of the old one. -/
theorem returns_createNewRoot (h : PendingSplit H seen m p q L sep)
    (hroot : seen H.root = some ⟨L.height, [], ⊤⟩) (hroom : SepRoom [] sep) :
    Returns view (createNewRoot p sep q) H fun _ H' =>
      H'.pins = H.pins ∧ ∃ lab', Shape H' lab' lab' m := by
  have hleft : Shape.splitLab seen p q L sep p = some { L with hi := sep } :=
    Shape.splitLab_left h.ne
  have hright : Shape.splitLab seen p q L sep q = some { L with lo := sep } :=
    Shape.splitLab_right
  refine returns_newPage.seqVal ?_
  refine (returns_initInternal _).seq ?_
  refine (returns_setFirstChild (N := Node.init INVALID_PAGE_ID) (by simp) p).seq ?_
  simp only [Heap.put_pin, Heap.put_put]
  refine (returns_internalNode (by simp; rfl)).bind ?_
  rintro n _ ⟨hbare, rfl⟩
  have hcells : n.cells = [] := congrArg Node.cells hbare
  have hfirst : n.hdr.firstChild = p := congrArg (fun n : Node PageId => n.hdr.firstChild) hbare
  have hroom : Room ([] ++ []) (sep, q) := hroom
  obtain ⟨n', hins, hcells', hhdr⟩ :=
    Node.insertSeparator_spec (n := n) (a := []) (b := []) hcells (List.forall_mem_nil _)
      (List.forall_mem_nil _) hroom
  rw [hins]
  refine (returns_writeInternal n' (by simp)).seq ?_
  refine (returns_unpin true).seq ?_
  simp only [Heap.put_pin, Heap.put_put, Heap.unpin_pin]
  refine (returns_setParent H.next _ ((h.isLive hleft).put _ _)).seq ?_
  refine (returns_setParent H.next _ ((h.isLive hright).put _ _)).seq ?_
  refine (returns_setRoot ?_).last ?_
  · exact h.shape.numPages_pos.trans_le h.shape.alloc_numPages
  refine ⟨rfl, _, h.grow hroot (n := n'.bare) hcells' ?_⟩
  rw [Node.bare_firstChild, hhdr, hfirst]

/-- The parent has room for the separator. -/
theorem returns_absorb {par : PageId} {L' : Label Bytes} {N : Node PageId}
    {u v : List (Bytes × PageId)}
    (h : PendingSplit H seen m p q L sep)
    (hpar : Shape.splitLab seen p q L sep par = some L') (hL' : L'.height = L.height + 1)
    (hpend : Pending seen (Shape.splitLab seen p q L sep) L')
    (hchain : Chain (Shape.splitLab seen p q L sep) L.height L'.hi
      ((L'.lo, N.hdr.firstChild) :: (u ++ (sep, q) :: v)))
    (hcells : N.cells = u ++ v) (hlt : ∀ c ∈ u, c.1 < sep) (hgt : ∀ c ∈ v, sep < c.1)
    (hroom : SepRoom N.cells sep) :
    Returns view (do
      addSeparator par par sep q "ok" "rp != nullptr"
      unpin par true) ((H.put par (.internal N)).pin par) fun _ H' =>
        H'.pins = H.pins ∧ ∃ lab', Shape H' lab' lab' m := by
  have hright : Shape.splitLab seen p q L sep q = some { L with lo := sep } :=
    Shape.splitLab_right
  rw [hcells] at hroom
  refine (returns_addSeparator (N := N) (by simp) (((h.shape.isLive hright).put _ _).pin _) hcells
    hlt hgt hroom _ _).bind ?_
  rintro _ _ ⟨n, rfl, hn, hfirst⟩
  refine (returns_unpin true).last ?_
  simp only [Heap.put_pin, Heap.put_put, Heap.unpin_pin]
  refine ⟨rfl, _, h.shape.rewrite hpar hpend (fun _ => Or.inl rfl) ?_⟩
  refine InternalOk.pageOk (N := n) (j := L.height) ⟨by simp, ?_⟩ hL'
  rw [entries, hn, hfirst]
  exact hchain

/-- The parent has no room and is split: now the split of the parent is pending. -/
theorem returns_splitUp {par : PageId} {L' : Label Bytes} {n : Node PageId}
    {u v a b : List (Bytes × PageId)} {c : Bytes × PageId} (h : PendingSplit H seen m p q L sep)
    (hpar : Shape.splitLab seen p q L sep par = some L') (hL' : L'.height = L.height + 1)
    (hpend : Pending seen (Shape.splitLab seen p q L sep) L')
    (hchain : Chain (Shape.splitLab seen p q L sep) L.height L'.hi
      ((L'.lo, n.hdr.firstChild) :: (u ++ (sep, q) :: v)))
    (hcells : n.cells = u ++ v) (hsorted : Sorted n.cells) (hlt : ∀ c ∈ u, c.1 < sep)
    (hgt : ∀ c ∈ v, sep < c.1) (hsplit : Node.splitCells n.cells = some (a, c, b))
    (hhalf : SepRoom (if sep < c.1 then a else b) sep) :
    Returns view (splitParent par par sep q) ((H.put par (.internal n.compact.bare)).pin par)
      fun r H' => (H.next, c.1) = r ∧ H'.pins = H.pins ∧ H'.root = H.root ∧
        (∀ {x Lx}, Shape.splitLab seen p q L sep x = some Lx → x ≠ par → H'.node x = H.node x) ∧
        PendingSplit H' (Shape.splitLab seen p q L sep) m par H.next L' c.1 := by
  have hne := h.shape.ne_next hpar
  have hright : Shape.splitLab seen p q L sep q = some { L with lo := sep } :=
    Shape.splitLab_right
  have hput : (H.put par (.internal n.compact.bare)).alloc =
      H.alloc.put par (.internal n.compact.bare) := Heap.alloc_put _ _ hne
  refine (returns_splitParent (H := H.put par (.internal n.compact.bare)) (N := n.compact.bare)
    (by simp) n.compacted_compact hsorted hsplit hne
    (by rw [hput]; exact (h.isLive hright).put _ _) ?_ hcells hlt hgt hhalf).mono ?_
  · intro x hx
    obtain ⟨e, he, rfl⟩ : ∃ e ∈ (L'.lo, n.hdr.firstChild) :: (u ++ (sep, q) :: v), e.2 = x := by
      rcases List.mem_cons.mp hx with rfl | hx
      · exact ⟨_, List.mem_cons_self, rfl⟩
      · obtain ⟨e, he, rfl⟩ := List.mem_map.mp hx
        rw [Node.bare_cells, Node.compact_cells, hcells] at he
        refine ⟨e, List.mem_cons_of_mem _ ?_, rfl⟩
        rcases List.mem_append.mp he with he | he
        · exact List.mem_append_left _ he
        · exact List.mem_append_right u (List.mem_cons_of_mem _ he)
    obtain ⟨k, hk⟩ := hchain.label_of_mem he
    rw [hput]
    exact (h.isLive hk).put _ _
  · rintro _ _ ⟨nl, nr, rfl, rfl, hlf, hrf, hall⟩
    rw [hput, Heap.put_put, Heap.put_next]
    refine ⟨rfl, rfl, rfl, fun {x Lx} hx hxne => ?_, h.up hpar hL' hpend ?_ hrf⟩
    · rw [Heap.put_node_of_ne _ _ (h.shape.ne_next hx), Heap.put_node_of_ne _ _ hxne,
        h.shape.alloc_node hx]
    · rw [hall, hlf]
      exact hchain

/-- **`insert_into_parent`** brings the news of a split up to a page that has room, or makes a
new root. -/
theorem returns_insertIntoParent {key : Bytes} {path : List PageId}
    (h : PendingSplit H seen m p q L sep) (hkey : L.Mem key)
    (hpath : Path seen key (L.height + 1) path)
    (hroot : seen H.root = some ⟨L.height + path.length, [], ⊤⟩) (hok : H.ParentsOk sep path) :
    Returns view (insertIntoParent p sep q path) H fun _ H' =>
      H'.pins = H.pins ∧ ∃ lab', Shape H' lab' lab' m := by
  induction path generalizing H seen p q L sep with
  | nil => exact returns_createNewRoot h hroot hok
  | cons par path ih =>
    obtain ⟨⟨L', hpar, hL', hkey'⟩, hpath'⟩ := h.path (Nat.lt_succ_self _) hpath
    obtain ⟨N, hN⟩ := (h.shape.page hpar).internal hL'
    have hmem : (L.lo, p) ∈ entries L'.lo N := by
      obtain ⟨a, b, hab, -⟩ := h.shape.entry_of_mem h.left hkey hN hkey'
      rw [hab]
      simp
    obtain ⟨a, u, v, hcells, hu, hhi, hlt, hgt⟩ := hN.place hmem h.left h.lo_lt h.lt_hi
    have hchain := hN.absorb h.right h.ne h.lo_lt h.lt_hi hcells hu hhi
    have hpend : Pending seen (Shape.splitLab seen p q L sep) L' :=
      pending_splitLab h.left h.right hL'.symm (hN.chain.mem_label hmem)
    have hlive := h.shape.isLive hpar
    rw [Heap.ParentsOk, hN.node] at hok
    refine (returns_fetch _ hlive.pos hlive.lt).seqVal ?_
    refine (returns_internalNode (N := N) (by exact hN.node)).bind ?_
    rintro n _ ⟨rfl, rfl⟩
    by_cases hroom : SepRoom n.cells sep
    · -- the parent has room, if need be after it was compacted
      have habsorb : ∀ n' : Node PageId, n'.cells = n.cells → n'.hdr = n.hdr → Returns view _
          ((H.put par (.internal n'.bare)).pin par) _ := fun n' hcells' hhdr' =>
        returns_absorb (N := n'.bare) h hpar hL' hpend
          (by rwa [Node.bare_firstChild, hhdr']) (hcells'.trans hcells) hlt hgt
          (by rwa [Node.bare_cells, hcells'])
      split
      · have hfull : n.compact.isFull (internalCellSize sep.length) = false :=
          (n.compacted_compact.isFull_iff sep INVALID_PAGE_ID).mpr hroom
        refine (returns_writeInternal n.compact (by exact hlive.isSome)).seq ?_
        rw [if_neg (by rw [hfull]; exact Bool.false_ne_true), Heap.put_pin]
        exact habsorb n.compact rfl rfl
      · have hself := habsorb n rfl rfl
        rwa [Heap.put_eq_self hN.node] at hself
    · -- the parent is split, and the promoted key goes on upwards
      have hfull : n.isFull (internalCellSize sep.length) = true := by
        by_contra hfull
        have hfree := Node.isFull_eq_false.mp (Bool.eq_false_iff.mpr hfull)
        have hcost := n.cost_add_freeSpace_le
        exact hroom (show _ + totalCellCost (internalCellSize sep.length) ≤ _ by omega)
      have hfull' : n.compact.isFull (internalCellSize sep.length) = true := by
        by_contra hfull'
        exact hroom ((n.compacted_compact.isFull_iff sep INVALID_PAGE_ID).mp
          (Bool.eq_false_iff.mpr hfull'))
      rw [if_pos hfull]
      refine (returns_writeInternal n.compact (by exact hlive.isSome)).seq ?_
      rw [if_pos hfull', Heap.put_pin]
      have hsplitOk := hok.resolve_left hroom
      split at hsplitOk
      · next a c b hsplit =>
        obtain ⟨hhalf, hok⟩ := hsplitOk
        refine (returns_splitUp h hpar hL' hpend hchain hcells
          (Sorted.cons_iff.mp hN.chain.sorted).2 hlt hgt hsplit hhalf).bind ?_
        rintro _ H' ⟨rfl, hpins, hroot', hnode, hup⟩
        have hheight : L'.height + path.length = L.height + (par :: path).length := by
          rw [hL', List.length_cons]
          omega
        refine (ih hup hkey' (by rw [hL']; exact hpath') ?_ ?_).mono ?_
        · rw [hroot', hheight, Shape.splitLab_other, hroot]
          · intro e
            rw [e, h.left] at hroot
            have hheight' : L.height = L.height + (par :: path).length :=
              congrArg Label.height (Option.some.inj hroot)
            rw [List.length_cons] at hheight'
            omega
          · intro e
            rw [e, h.right] at hroot
            cases hroot
        · refine hok.congr fun x hx => ?_
          obtain ⟨Lx, hlx, hle⟩ := hpath'.label_of_mem hx
          refine hnode hlx ?_
          rintro rfl
          cases hpar.symm.trans hlx
          omega
        · rintro _ _ ⟨hpins', hshape⟩
          exact ⟨hpins'.trans hpins, hshape⟩
      · exact hsplitOk.elim

end Up

/-! ## The leaf -/

section Leaf

variable {H : Heap} {p : PageId} {N : Node Bytes} {key value : Bytes}

/-- A new key is put into a leaf that has room. -/
theorem returns_insertCell (hp : H.node p = some (.leaf N)) (hsorted : Sorted N.cells)
    (hkey : ∀ c ∈ N.cells, c.1 ≠ key) (hroom : Room N.cells (key, value)) :
    Returns view (do writeData p (.leaf ((← leafNode p).insertLeafCell key value).2)) H fun _ H' =>
      ∃ n x y, H' = H.put p (.leaf n) ∧ n.hdr.rightSibling = N.hdr.rightSibling ∧
        N.cells = x ++ y ∧ n.cells = x ++ (key, value) :: y ∧ (∀ c ∈ x, c.1 < key) ∧
        ∀ c ∈ y, key < c.1 := by
  refine (returns_leafNode hp).bind ?_
  rintro n _ ⟨rfl, rfl⟩
  obtain ⟨x, y, hxy, -, hlt, hgt, hyes, -⟩ := Node.insertLeafCell_spec (n := n) hsorted key value
  rw [Node.bare_cells] at hkey hroom
  rw [others_eq hkey] at hxy
  rw [hxy] at hroom
  obtain ⟨n', hins, hcells, hhdr⟩ := hyes hroom
  rw [hins]
  refine (returns_writeLeaf n' (by rw [hp]; rfl)).last ?_
  exact ⟨n'.bare, x, y, rfl, by rw [Node.bare_rightSibling, hhdr, Node.bare_rightSibling], hxy,
    hcells, hlt, hgt⟩

/-- The two halves of a leaf that was split at `sep`, with the new key in one of them. -/
structure Halves (N nl nr : Node Bytes) (q : PageId) (sep key value : Bytes) : Prop where
  cells : ∃ x y, N.cells = x ++ y ∧ nl.cells ++ nr.cells = x ++ (key, value) :: y ∧
    (∀ c ∈ x, c.1 < key) ∧ ∀ c ∈ y, key < c.1
  lt : ∀ c ∈ nl.cells, c.1 < sep
  ge : ∀ c ∈ nr.cells, sep ≤ c.1
  left : nl.hdr.rightSibling = q
  right : nr.hdr.rightSibling = N.hdr.rightSibling

namespace Halves

variable {nl nr : Node Bytes} {q : PageId} {a b x y : List (Bytes × Bytes)} {c : Bytes × Bytes}

theorem of_lt (hcells : N.cells = (x ++ y) ++ c :: b) (hsorted : Sorted N.cells) (hside : key < c.1)
    (hl : nl.cells = x ++ (key, value) :: y) (hr : nr.cells = c :: b) (hx : ∀ c ∈ x, c.1 < key)
    (hy : ∀ c ∈ y, key < c.1) (hleft : nl.hdr.rightSibling = q)
    (hright : nr.hdr.rightSibling = N.hdr.rightSibling) : Halves N nl nr q c.1 key value := by
  rw [hcells] at hsorted
  have hlt := hsorted.at_slot.1
  have hge := hsorted.slot_le
  refine ⟨⟨x, y ++ c :: b, ?_, ?_, hx, ?_⟩, ?_, ?_, hleft, hright⟩
  · rw [hcells, List.append_assoc]
  · rw [hl, hr, List.append_assoc, List.cons_append]
  · intro e he
    rcases List.mem_append.mp he with he | he
    · exact hy e he
    · exact hside.trans_le (hge e he)
  · intro e he
    rw [hl] at he
    rcases List.mem_append.mp he with he | he
    · exact (hx e he).trans hside
    · rcases List.mem_cons.mp he with rfl | he
      · exact hside
      · exact hlt e (List.mem_append_right x he)
  · rwa [hr]

theorem of_ge (hcells : N.cells = a ++ c :: b) (hb : c :: b = x ++ y) (hsorted : Sorted N.cells)
    (hside : ¬ key < c.1) (hl : nl.cells = a) (hr : nr.cells = x ++ (key, value) :: y)
    (hx : ∀ c ∈ x, c.1 < key) (hy : ∀ c ∈ y, key < c.1) (hleft : nl.hdr.rightSibling = q)
    (hright : nr.hdr.rightSibling = N.hdr.rightSibling) : Halves N nl nr q c.1 key value := by
  rw [hcells] at hsorted
  have hlt := hsorted.at_slot.1
  have hge := hsorted.slot_le
  have hside : c.1 ≤ key := not_lt.mp hside
  refine ⟨⟨a ++ x, y, ?_, ?_, ?_, hy⟩, by rwa [hl], ?_, hleft, hright⟩
  · rw [hcells, hb, List.append_assoc]
  · rw [hr, hl, List.append_assoc]
  · intro e he
    rcases List.mem_append.mp he with he | he
    · exact (hlt e he).trans_le hside
    · exact hx e he
  · intro e he
    rw [hr] at he
    rcases List.mem_append.mp he with he | he
    · exact hge e (hb ▸ List.mem_append_left y he)
    · rcases List.mem_cons.mp he with rfl | he
      · exact hside
      · exact hge e (hb ▸ List.mem_append_right x he)

end Halves

theorem returns_insertHalf (nl nr : Node Bytes) {q : PageId} {a b : List (Bytes × Bytes)}
    {c : Bytes × Bytes} (hne : p ≠ q) (hl : H.node p = some (.leaf nl))
    (hr : H.node q = some (.leaf nr)) (hcells : N.cells = a ++ c :: b) (hla : nl.cells = a)
    (hrb : nr.cells = c :: b) (hleft : nl.hdr.rightSibling = q)
    (hright : nr.hdr.rightSibling = N.hdr.rightSibling) (hsorted : Sorted N.cells)
    (hkey : ∀ c ∈ N.cells, c.1 ≠ key)
    (hroom : Room (if key < c.1 then a else c :: b) (key, value)) :
    Returns view (do
        let half := if key < c.1 then p else q
        writeData half (.leaf ((← leafNode half).insertLeafCell key value).2)) H fun _ H' =>
      ∃ nl' nr', H' = (H.put p (.leaf nl')).put q (.leaf nr') ∧
        Halves N nl' nr' q c.1 key value := by
  have hs := hsorted
  rw [hcells] at hs hkey
  obtain ⟨hsa, hsb, -⟩ := Sorted.append_iff.mp hs
  dsimp only
  by_cases hside : key < c.1
  · rw [if_pos hside] at hroom
    simp only [if_pos hside]
    refine (returns_insertCell hl (hla ▸ hsa) ?_ (hla ▸ hroom)).mono ?_
    · exact fun e he => hkey e (List.mem_append_left _ (hla ▸ he))
    · rintro _ _ ⟨n, x, y, rfl, hn, hxy, hcells', hx, hy⟩
      refine ⟨n, nr, (Heap.put_eq_self ?_).symm, ?_⟩
      · rw [Heap.put_node_of_ne _ _ hne.symm, hr]
      · rw [← hla, hxy] at hcells
        exact .of_lt hcells hsorted hside hcells' hrb hx hy (hn.trans hleft) hright
  · rw [if_neg hside] at hroom
    simp only [if_neg hside]
    refine (returns_insertCell hr (hrb ▸ hsb) ?_ (hrb ▸ hroom)).mono ?_
    · exact fun e he => hkey e (List.mem_append_right _ (hrb ▸ he))
    · rintro _ _ ⟨n, x, y, rfl, hn, hxy, hcells', hx, hy⟩
      refine ⟨nl, n, by rw [Heap.put_eq_self hl], ?_⟩
      exact .of_ge hcells (hrb.symm.trans hxy) hsorted hside hla hcells' hx hy hleft
        (hn.trans hright)

/-- The split of a full leaf. -/
theorem returns_splitLeafPage {a b : List (Bytes × Bytes)} {c : Bytes × Bytes}
    (hp : H.node p = some (.leaf N)) (hcompact : N.Compacted) (hsorted : Sorted N.cells)
    (hsplit : Node.splitCells N.cells = some (a, c, b)) (hne : p ≠ H.next)
    (hsib : N.hdr.rightSibling = INVALID_PAGE_ID ∨ H.alloc.Live N.hdr.rightSibling)
    (hkey : ∀ c ∈ N.cells, c.1 ≠ key)
    (hroom : Room (if key < c.1 then a else c :: b) (key, value)) :
    Returns view (splitLeafPage p p key value) (H.pin p) fun r H' =>
      ∃ nl nr, (H.next, c.1) = r ∧
        H' = (H.alloc.put p (.leaf nl)).put H.next (.leaf nr) ∧
        Halves N nl nr H.next c.1 key value := by
  obtain ⟨-, hcells, -⟩ := Node.splitCells_eq_some hsplit
  refine (returns_leafNode (N := N) (by exact hp)).bind ?_
  rintro n _ ⟨rfl, rfl⟩
  refine returns_newPage.seqVal ?_
  refine (returns_initLeaf _).seq ?_
  simp only [Heap.pin_next, Heap.alloc_pin, Heap.put_pin]
  refine (returns_leafNode (N := Node.init INVALID_PAGE_ID) (by simp)).bind ?_
  rintro right _ ⟨hright, rfl⟩
  have hempty : right.cells = [] := congrArg Node.cells hright
  obtain ⟨nl, nr, hsplitLeaf, hlc, hlh, hrc, hrr, -⟩ :=
    Node.splitLeaf_spec (n := n) hcompact hsorted hempty hsplit p H.next
  refine (Returns.ofExcept hsplitLeaf).bind ?_
  rintro _ _ ⟨rfl, rfl⟩
  refine (returns_writeLeaf nl ?_).seq ?_
  · simp [hne, Heap.alloc, hp]
  refine (returns_writeLeaf nr (by simp [hne.symm])).seq ?_
  simp only [Heap.put_pin, Heap.put_put_put _ _ hne]
  refine (returns_setLeft H.next _ ?_).seq ?_
  · exact hsib.imp_right fun hlive => (((hlive.put _ _).put _ _).pin _).pin _
  have hhalf := returns_insertHalf nl.bare nr.bare (N := n.bare)
    (H := (((H.alloc.put p (.leaf nl.bare)).put H.next (.leaf nr.bare)).pin p).pin H.next) hne
    (by simp [hne]) (by simp) hcells hlc hrc
    (congrArg NodeHeader.rightSibling hlh) hrr hsorted hkey hroom
  dsimp only at hhalf ⊢
  rw [← bind_assoc]
  refine hhalf.bind ?_
  rintro _ _ ⟨nl', nr', rfl, hhalves⟩
  refine (returns_unpin true).seq ?_
  refine (returns_unpin true).seq ?_
  refine .pure ⟨nl', nr', rfl, ?_, hhalves⟩
  simp only [Heap.put_pin, Heap.put_put_put _ _ hne, Heap.put_put, Heap.unpin_pin_pin,
    Heap.unpin_pin]

end Leaf

end BTree

/-! ## The map after an insertion -/

section Map

variable {H H' : Heap} {lab : Labels} {m : Bytes → Option Bytes} {p q : PageId} {L : Label Bytes}
  {N nl nr : Node Bytes} {key value sep : Bytes} {x y : List (Bytes × Bytes)}

/-- The cells with the new one in place hold the map with the key set. -/
theorem LeafOk.get_insert (hN : LeafOk H lab m p L N) (hxy : others key N.cells = x ++ y)
    (hlt : ∀ c ∈ x, c.1 < key) {k : Bytes} (hk : L.Mem k) :
    Function.update m key (some value) k = slotGet (x ++ (key, value) :: y) k := by
  rw [slotGet_insert hlt, Function.update_apply]
  by_cases e : k = key
  · rw [if_pos e, if_pos e]
  · rw [if_neg e, if_neg e, ← hxy, slotGet_others e, hN.get k hk]

theorem LeafOk.mem_insert (hN : LeafOk H lab m p L N) (hxy : others key N.cells = x ++ y)
    (hkey : L.Mem key) {c : Bytes × Bytes} (hc : c ∈ x ++ (key, value) :: y) : L.Mem c.1 := by
  have hold : ∀ c ∈ x ++ y, L.Mem c.1 := fun c hc => hN.mem c (List.mem_of_mem_filter (hxy ▸ hc))
  rcases List.mem_append.mp hc with hc | hc
  · exact hold c (List.mem_append_left y hc)
  · rcases List.mem_cons.mp hc with rfl | hc
    · exact hkey
    · exact hold c (List.mem_append_right x hc)

theorem update_or (hL : L.height = 0) (hkey : L.Mem key) (v : Option Bytes) (k : Bytes) :
    Function.update m key v k = m k ∨ L.height = 0 ∧ L.Mem k := by
  by_cases e : k = key
  · exact Or.inr ⟨hL, e ▸ hkey⟩
  · exact Or.inl (Function.update_of_ne e ..)

/-- **A leaf gets the key**, in the place of an old value if there was one. -/
theorem Shape.setLeaf {n : Node Bytes} (h : Shape H lab lab m) (hp : lab p = some L)
    (hL : L.height = 0) (hkey : L.Mem key) (hN : LeafOk H lab m p L N)
    (hxy : others key N.cells = x ++ y) (hsorted : Sorted (x ++ y)) (hlt : ∀ c ∈ x, c.1 < key)
    (hgt : ∀ c ∈ y, key < c.1) (hcells : n.cells = x ++ (key, value) :: y)
    (hright : n.hdr.rightSibling = N.hdr.rightSibling) :
    Shape (H.put p (.leaf n)) lab lab (Function.update m key (some value)) := by
  refine h.rewrite hp (Pending.refl lab L) (update_or hL hkey _) ?_
  refine LeafOk.pageOk (N := n) ⟨by simp, ?_, ?_, ?_, ?_⟩ hL
  · rw [hcells]
    exact hsorted.insert hlt hgt
  · intro c hc
    exact hN.mem_insert hxy hkey (hcells ▸ hc)
  · intro k hk
    rw [hcells]
    exact hN.get_insert hxy hlt hk
  · rw [hright]
    exact hN.right

theorem RightOk.label {hi : WithTop Bytes} {r : PageId} (h : RightOk lab hi r) :
    r = INVALID_PAGE_ID ∨ ∃ Lr, lab r = some Lr := by
  cases hi with
  | top => exact Or.inl (h.last rfl)
  | coe x =>
    obtain ⟨hi', hr⟩ := h.next x rfl
    exact Or.inr ⟨_, hr⟩

theorem RightOk.splitLab {hi : WithTop Bytes} {r : PageId} (h : RightOk lab hi r)
    (hp : lab p = some L) (hq : lab q = none) (hne : p ≠ q) :
    RightOk (Shape.splitLab lab p q L sep) hi r := by
  refine ⟨h.last, fun x hx => ?_⟩
  obtain ⟨hi', hr⟩ := h.next x hx
  by_cases hrp : r = p
  · subst hrp
    cases hp.symm.trans hr
    exact ⟨sep, Shape.splitLab_left hne⟩
  · refine ⟨hi', ?_⟩
    rw [Shape.splitLab_other hrp, hr]
    rintro rfl
    cases hq.symm.trans hr

/-- **A leaf was split**: the two halves hold what the map has now, and the split is pending. -/
theorem Shape.divideLeaf {m' : Bytes → Option Bytes} (h : Shape H lab lab m) (hp : lab p = some L)
    (hL : L.height = 0) (hm : ∀ k, m' k = m k ∨ L.height = 0 ∧ L.Mem k) (hlo : L.lo < sep)
    (hhi : (sep : WithTop Bytes) < L.hi) (hsorted : Sorted (nl.cells ++ nr.cells))
    (hmem : ∀ c ∈ nl.cells ++ nr.cells, L.Mem c.1)
    (hget : ∀ k, L.Mem k → m' k = slotGet (nl.cells ++ nr.cells) k)
    (hlt : ∀ c ∈ nl.cells, c.1 < sep) (hge : ∀ c ∈ nr.cells, sep ≤ c.1)
    (hleft : nl.hdr.rightSibling = H.next) (hright : RightOk lab L.hi nr.hdr.rightSibling) :
    PendingSplit ((H.alloc.put p (.leaf nl)).put H.next (.leaf nr)) lab m' p H.next L sep := by
  have hne := h.ne_next hp
  obtain ⟨hsl, hsr, -⟩ := Sorted.append_iff.mp hsorted
  refine ⟨h.split hp (Pending.refl lab L) hlo hhi hm ?_ ?_, hp, h.next_fresh⟩
  · refine LeafOk.pageOk (N := nl) ⟨by simp [hne], hsl, ?_, ?_, ?_, ?_⟩ hL
    · intro c hc
      exact ⟨(hmem c (List.mem_append_left _ hc)).1, WithTop.coe_lt_coe.mpr (hlt c hc)⟩
    · intro k hk
      have hk' : k < sep := WithTop.coe_lt_coe.mp hk.2
      rw [hget k ⟨hk.1, hk.2.trans hhi⟩, slotGet_append,
        slotGet_eq_none (l := nr.cells) fun c hc => (hk'.trans_le (hge c hc)).ne', Option.or_none]
    · exact fun htop => (WithTop.coe_ne_top htop).elim
    · intro z hz
      cases WithTop.coe_injective hz
      rw [hleft]
      exact ⟨L.hi, by rw [splitLab_right, hL]⟩
  · refine LeafOk.pageOk (N := nr) ⟨by simp, hsr, ?_, ?_, ?_⟩ hL
    · intro c hc
      exact ⟨hge c hc, (hmem c (List.mem_append_right _ hc)).2⟩
    · intro k hk
      rw [hget k ⟨hlo.le.trans hk.1, hk.2⟩, slotGet_append,
        slotGet_eq_none (l := nl.cells) fun c hc => ((hlt c hc).trans_le hk.1).ne, Option.none_or]
    · exact hright.splitLab hp h.next_fresh hne

/-- The separator lies inside the interval of the leaf. -/
theorem LeafOk.sep_mem {n : Node Bytes} (hN : LeafOk H lab m p L N)
    (hn : n.cells = others key N.cells) (hsep : ∃ c ∈ n.cells, c.1 = sep)
    (hbelow : ∃ c ∈ n.cells, c.1 < sep) : L.lo < sep ∧ (sep : WithTop Bytes) < L.hi := by
  have hmem : ∀ c ∈ n.cells, L.Mem c.1 := fun c hc => hN.mem c (List.mem_of_mem_filter (hn ▸ hc))
  obtain ⟨c, hc, rfl⟩ := hsep
  obtain ⟨d, hd, hlt⟩ := hbelow
  exact ⟨(hmem d hd).1.trans_lt hlt, (hmem c hc).2⟩

/-- The leaf that was split got the new key. -/
theorem Shape.splitLeaf {n : Node Bytes} (h : Shape H lab lab m) (hp : lab p = some L)
    (hL : L.height = 0) (hkey : L.Mem key) (hN : LeafOk H lab m p L N)
    (hn : n.cells = others key N.cells) (hright : n.hdr.rightSibling = N.hdr.rightSibling)
    (hsorted : Sorted n.cells) (hhalves : BTree.Halves n nl nr H.next sep key value)
    (hsep : ∃ c ∈ n.cells, c.1 = sep) (hbelow : ∃ c ∈ n.cells, c.1 < sep) :
    PendingSplit ((H.alloc.put p (.leaf nl)).put H.next (.leaf nr)) lab
      (Function.update m key (some value)) p H.next L sep := by
  obtain ⟨x, y, hxy, hall, hlt, hgt⟩ := hhalves.cells
  have hothers : others key N.cells = x ++ y := hn.symm.trans hxy
  obtain ⟨hlo, hhi⟩ := hN.sep_mem hn hsep hbelow
  refine h.divideLeaf hp hL (update_or hL hkey _) hlo hhi ?_ ?_ ?_ hhalves.lt hhalves.ge hhalves.left
    ?_
  · rw [hall]
    exact (hxy ▸ hsorted).insert hlt hgt
  · exact fun c hc => hN.mem_insert hothers hkey (hall ▸ hc)
  · intro k hk
    rw [hall]
    exact hN.get_insert hothers hlt hk
  · rw [hhalves.right, hright]
    exact hN.right

end Map

namespace BTree

section Insert

variable {H : Heap} {lab : Labels} {m : Bytes → Option Bytes} {key value : Bytes}

/-- **`insert`** sets the key in the map. -/
theorem returns_insert (h : Shape H lab lab m) (hfits : Fits key value)
    (hok : H.InsertOk key value) :
    Returns view (insert key value) H fun _ H' =>
      H'.pins = H.pins ∧ ∃ lab', Shape H' lab' lab' (Function.update m key (some value)) := by
  rw [insert, if_pos hfits]
  refine (returns_findLeaf h key).bind ?_
  rintro ⟨p, path⟩ _ ⟨hfind, rfl, j, hroot, ⟨L, hp, hL, hkey⟩, hlen, habove⟩
  obtain ⟨N, hN⟩ := (h.page hp).leaf hL
  have hlive := h.isLive hp
  have hne := h.ne_next hp
  rw [Heap.InsertOk, hfind] at hok
  dsimp only at hok
  rw [hN.node] at hok
  refine (returns_readPage (p := p) (by exact hlive.isSome)).bind ?_
  rintro ⟨id, data⟩ _ ⟨rfl, rfl⟩
  refine (returns_leafNode (N := N) (by exact hN.node)).bind ?_
  rintro n _ ⟨rfl, rfl⟩
  obtain ⟨x, y, hxy, hsxy, hlt, hgt, hyes, hno⟩ :=
    Node.insertLeafCell_spec (n := n) hN.sorted key value
  by_cases hroom : Room (x ++ y) (key, value)
  · obtain ⟨n', hins, hcells, hhdr⟩ := hyes hroom
    rw [hins]
    refine (returns_writeLeaf n' (by exact hlive.isSome)).seq ?_
    refine (returns_unpin true).last ?_
    dsimp only
    rw [Heap.put_pin, Heap.unpin_pin]
    exact ⟨rfl, lab, h.setLeaf hp hL hkey hN hxy hsxy hlt hgt (n := n'.bare) hcells (by simp [hhdr])⟩
  · -- what is left in the leaf is split
    obtain ⟨n', hins, hcells, hhdr, hcompact⟩ := hno hroom
    have hothers : n'.bare.cells = others key n.bare.cells := hcells.trans hxy.symm
    rw [hins]
    refine (returns_writeLeaf n' (by exact hlive.isSome)).seq ?_
    rw [Heap.put_pin]
    have hput : (H.put p (.leaf n'.bare)).alloc = H.alloc.put p (.leaf n'.bare) :=
      Heap.alloc_put _ _ hne
    have hsplitOk := hok.resolve_left (by rwa [Node.bare_cells, hxy])
    split at hsplitOk
    · next a c b hsplit =>
      obtain ⟨hhalf, hparents⟩ := hsplitOk
      rw [← hothers] at hsplit
      obtain ⟨-, hmid, -, ha⟩ := Node.splitCells_eq_some hsplit
      have hsn : Sorted n'.bare.cells := by
        rw [Node.bare_cells, hcells]
        exact hsxy
      refine (returns_splitLeafPage (H := H.put p (.leaf n'.bare)) (N := n'.bare) (by simp) hcompact
        hsn hsplit hne ?_ ?_ hhalf).bind ?_
      · rw [hput, Node.bare_rightSibling, hhdr]
        refine hN.right.label.imp_right ?_
        rintro ⟨Lr, hr⟩
        exact ((h.isLive hr).alloc (h.ne_next hr) h.alloc_numPages).put _ _
      · intro e he
        rw [hothers] at he
        simpa using (List.mem_filter.mp he).2
      rintro _ _ ⟨nl, nr, rfl, rfl, hhalves⟩
      rw [hput, Heap.put_put, Heap.put_next]
      have hpending := h.splitLeaf hp hL hkey hN hothers (by simp [hhdr]) hsn hhalves
        ⟨c, by rw [hmid]; simp, rfl⟩ ?_
      · refine returns_insertIntoParent hpending hkey (by rw [hL]; exact habove) ?_ ?_
        · change lab H.root = _
          rw [hroot, hL, hlen, Nat.zero_add]
        · refine hparents.congr fun z hz => ?_
          obtain ⟨Lz, hlz, hle⟩ := habove.label_of_mem hz
          rw [Heap.put_node_of_ne _ _ (h.ne_next hlz), Heap.put_node_of_ne, h.alloc_node hlz]
          rintro rfl
          cases hp.symm.trans hlz
          omega
      · obtain ⟨e, he⟩ := List.exists_mem_of_ne_nil a ha
        rw [hmid] at hsn
        exact ⟨e, by rw [hmid]; simp [he], hsn.at_slot.1 e he⟩
    · exact hsplitOk.elim

end Insert

end BTree

end KeyVDB
