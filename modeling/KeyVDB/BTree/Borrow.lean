import KeyVDB.BTree.Repair

/-!
# When a loan is possible

`fix_underflow` borrows from a sibling whose `underflow()` is false. That counts the dead bytes in
the heap of the page as well, so the sibling may have no cell to give; and what it gives may have no
room in the page or, as a separator, in the parent.
-/

namespace KeyVDB

namespace BTree

/-- The side of the sibling that lends. -/
inductive Side
  | left
  | right

namespace Side

/-- How a cell is taken from this side. -/
def steal : Side → PageId → PageId → BTreeM Store Bytes
  | .left => stealFromLeft
  | .right => stealFromRight

/-- The cells of the lender and of the page, from left to right. -/
def join (side : Side) (lender cur : List (Bytes × Bytes)) : List (Bytes × Bytes) :=
  match side with
  | .left => lender ++ cur
  | .right => cur ++ lender

/-- The cell that moves and the new separator: the last cell of a left sibling and its key, the first
cell of a right one and the key of the second. -/
def loan : Side → List (Bytes × Bytes) → Option ((Bytes × Bytes) × Bytes)
  | .left, cells => (cells.getLast?).map fun c => (c, c.1)
  | .right, c :: d :: _ => some (c, d.1)
  | .right, _ => none

end Side

/-- `fix_underflow` of the page `p` picks the sibling `sib` on a side. -/
structure Picks (H : Heap) (p par : PageId) (N : Node PageId) (slot : Nat) (side : Side) (sib : PageId)
    (cur lender : Node Bytes) : Prop where
  parent : H.node par = some (.internal N)
  page : H.node p = some (.leaf cur)
  valid : sib ≠ INVALID_PAGE_ID
  sibling : H.node sib = some (.leaf lender)
  lends : lender.underflow = false
  place : match side with
    | .left => ∃ rightSib, position N p = .ok ⟨slot, sib, rightSib⟩
    | .right => ∃ leftSib, position N p = .ok ⟨slot, leftSib, sib⟩ ∧
        (leftSib = INVALID_PAGE_ID ∨ ∃ n, H.node leftSib = some n ∧ n.underflow = true)

/-- The lender has a cell to give, and the cell and the new separator have room. -/
def LoanFits (side : Side) (N : Node PageId) (slot : Nat) (cur lender : Node Bytes) : Prop :=
  ∃ lent ∈ side.loan lender.cells, Room cur.cells lent.1 ∧ SepRoom (N.cells.eraseIdx slot) lent.2

instance (side : Side) (N : Node PageId) (slot : Nat) (cur lender : Node Bytes) :
    Decidable (LoanFits side N slot cur lender) :=
  inferInstanceAs (Decidable (∃ lent ∈ side.loan lender.cells, _))

/-- After the loan the two leaves have the same cells together, the parent has the same children, and
the other pages are as before. -/
structure CellsKept (H H' : Heap) (p par sib : PageId) (side : Side) (N : Node PageId)
    (cur lender : Node Bytes) : Prop where
  leaves : ∃ cur' lender' : Node Bytes, H'.node p = some (.leaf cur') ∧
    H'.node sib = some (.leaf lender') ∧
    side.join lender'.cells cur'.cells = side.join lender.cells cur.cells
  parent : ∃ N', H'.node par = some (.internal N') ∧ N'.hdr.firstChild = N.hdr.firstChild ∧
    (N'.cells.map Prod.snd).Perm (N.cells.map Prod.snd)
  other : ∀ q, q ≠ p → q ≠ par → q ≠ sib → H'.node q = H.node q

/-! ## The steal -/

section Steal

variable {H : Heap} {F : FullHeap} {lab : Labels} {m : Bytes → Option Bytes} {par p sib : PageId}
  {L : Label Bytes} {side : Side} {cur lender : Node Bytes}

/-- The two leaves are neighbours, in the order of the side. -/
def Side.Beside (side : Side) (lab : Labels) (par p sib : PageId) (L : Label Bytes) : Prop :=
  ∃ lo mid hi, match side with
    | .left => Neighbours lab par sib p L 0 lo mid hi
    | .right => Neighbours lab par p sib L 0 lo mid hi

theorem Side.Beside.ne (hb : side.Beside lab par p sib L) (hs : Shape H lab lab m) :
    p ≠ sib ∧ par ≠ p ∧ par ≠ sib := by
  obtain ⟨lo, mid, hi, hn⟩ := hb
  cases side with
  | left => exact ⟨(hn.ne hs).symm, hn.parent_ne_right, hn.parent_ne_left⟩
  | right => exact ⟨hn.ne hs, hn.parent_ne_left, hn.parent_ne_right⟩

theorem Side.Beside.live (hb : side.Beside lab par p sib L) (hs : Shape H lab lab m) :
    H.Live p ∧ H.Live sib := by
  obtain ⟨lo, mid, hi, hn⟩ := hb
  cases side with
  | left => exact ⟨hs.isLive hn.right, hs.isLive hn.left⟩
  | right => exact ⟨hs.isLive hn.left, hs.isLive hn.right⟩

theorem Side.Beside.sorted (hb : side.Beside lab par p sib L) (hs : Shape H lab lab m)
    (hp : H.node p = some (.leaf cur)) (hsib : H.node sib = some (.leaf lender)) :
    Sorted (side.join lender.cells cur.cells) := by
  obtain ⟨lo, mid, hi, hn⟩ := hb
  cases side with
  | left => exact (LeafOk.pair hs hn (hs.leafOk hn.left hsib).2 (hs.leafOk hn.right hp).2).sorted
  | right => exact (LeafOk.pair hs hn (hs.leafOk hn.left hp).2 (hs.leafOk hn.right hsib).2).sorted

/-- A steal that returns had a cell to take and room for it. -/
theorem ends_steal (hne : p ≠ sib) (hp : F.heap.node p = some (.leaf cur))
    (hsib : F.heap.node sib = some (.leaf lender))
    (hsorted : Sorted (side.join lender.cells cur.cells)) :
    Ends fullView (side.steal p sib) F fun newSep F' =>
      (∃ c, side.loan lender.cells = some (c, newSep) ∧ Room cur.cells c) ∧
        ∀ z, z ≠ p → z ≠ sib → F'.heap.node z = F.heap.node z := by
  cases side with
  | left =>
    refine (ends_stealFromLeft_leaf hne hp hsib hsorted).mono ?_
    rintro k F' ⟨a, v, nl, nc, hcells, hroom, hheap, -, -⟩
    refine ⟨⟨(k, v), by simp [Side.loan, hcells], hroom⟩, fun z hzp hzs => ?_⟩
    rw [hheap, Heap.put_node_of_ne _ _ hzp, Heap.put_node_of_ne _ _ hzs]
  | right =>
    refine (ends_stealFromRight_leaf hne hp hsib hsorted).mono ?_
    rintro k F' ⟨c, d, b, nr, nc, hcells, rfl, hroom, hheap, -, -⟩
    refine ⟨⟨c, by simp [Side.loan, hcells], hroom⟩, fun z hzp hzs => ?_⟩
    rw [hheap, Heap.put_node_of_ne _ _ hzp, Heap.put_node_of_ne _ _ hzs]

/-- With a cell to take and room for it the steal returns, and no cell is lost. -/
theorem returns_steal {c : Bytes × Bytes} {newSep : Bytes} (hne : p ≠ sib)
    (hp : H.node p = some (.leaf cur)) (hsib : H.node sib = some (.leaf lender))
    (hsorted : Sorted (side.join lender.cells cur.cells))
    (hloan : side.loan lender.cells = some (c, newSep)) (hroom : Room cur.cells c) :
    Returns view (side.steal p sib) H fun r H' =>
      newSep = r ∧ ∃ nl nc : Node Bytes, H' = (H.put sib (.leaf nl)).put p (.leaf nc) ∧
        side.join nl.cells nc.cells = side.join lender.cells cur.cells := by
  cases side with
  | left =>
    obtain ⟨d, hlast, hd⟩ := Option.map_eq_some_iff.mp hloan
    cases hd
    obtain ⟨a, hcells⟩ := List.getLast?_eq_some_iff.mp hlast
    obtain ⟨-, hcur, hlt⟩ := Sorted.append_iff.mp hsorted
    refine (returns_stealFromLeft (k := c.1) (v := c.2) hne hp hsib hcells hcur
      (hlt c (by rw [hcells]; simp)) hroom).mono ?_
    rintro _ _ ⟨rfl, nl, nc, rfl, hnl, hnc, -, -⟩
    exact ⟨rfl, nl, nc, rfl, by simp [Side.join, hnl, hnc, hcells]⟩
  | right =>
    rcases hcells : lender.cells with _ | ⟨e, _ | ⟨d, b⟩⟩
    · rw [hcells] at hloan
      cases hloan
    · rw [hcells] at hloan
      cases hloan
    · rw [hcells] at hloan
      cases hloan
      have hfirst : Sorted (cur.cells ++ [c]) := by
        rw [Side.join, hcells, List.append_cons] at hsorted
        exact (Sorted.append_iff.mp hsorted).1
      refine (returns_stealFromRight (k := c.1) (v := c.2) hne hp hsib hcells hfirst hroom).mono ?_
      rintro _ _ ⟨rfl, nr, nc, rfl, hnr, hnc, -, -⟩
      exact ⟨rfl, nr, nc, rfl, by simp [Side.join, hnr, hnc]⟩

end Steal

/-! ## The level -/

section Level

variable {H : Heap} {F : FullHeap} {lab : Labels} {m : Bytes → Option Bytes} {par p sib : PageId}
  {L : Label Bytes} {side : Side} {N : Node PageId} {slot : Nat} {cur lender : Node Bytes}
  {u b : List (Bytes × PageId)} {old : Bytes} {child : PageId}

/-- A borrow from the picked sibling that returns had all it needs for the loan. -/
theorem ends_borrow_picks (hs : Shape F.heap lab lab m) (hb : side.Beside lab par p sib L)
    (hpick : Picks F.heap p par N slot side sib cur lender) (hslot : slot = u.length)
    (hcells : N.cells = u ++ (old, child) :: b) (cond : String) :
    Ends fullView (borrow side.steal par par p sib slot cond) (F.pin par)
      fun r _ => true = r ∧ LoanFits side N slot cur lender := by
  obtain ⟨hne, hpp, hps⟩ := hb.ne hs
  have hsorted := hb.sorted hs hpick.page hpick.sibling
  refine (ends_borrow (n := .leaf lender) (N := N) cond hpick.valid (by exact hpick.sibling)
    hpick.lends (ends_steal hne (by exact hpick.page) (by exact hpick.sibling) hsorted) ?_).mono ?_
  · intro k F' hsteal
    rw [hsteal.2 par hpp hps]
    exact hpick.parent
  · rintro r F' ⟨rfl, k, F₁, parent, n', ⟨⟨c, hloan, hroom⟩, -⟩, rfl, hreplace, -⟩
    refine ⟨rfl, (c, k), hloan, hroom, ?_⟩
    rw [hslot] at hreplace ⊢
    rw [hcells, eraseIdx_append_cons]
    exact (replaceSeparator_eq (n := parent) hcells hreplace).1

/-- A call of `fix_underflow` that picks a sibling and returns had all it needs for the loan. -/
theorem ends_fixSiblings_picks (hs : Shape F.heap lab lab m) (hb : side.Beside lab par p sib L)
    (hpick : Picks F.heap p par N slot side sib cur lender) (hslot : slot = u.length)
    (hcells : N.cells = u ++ (old, child) :: b) :
    Ends fullView (fixSiblings p par) F fun _ _ => LoanFits side N slot cur lender := by
  have hborrow := ends_borrow_picks hs hb hpick hslot hcells
  refine (ends_fetch _).seqVal ?_
  refine (ends_internalNode (N := N) (by exact hpick.parent)).bind ?_
  rintro parent _ ⟨rfl, -, -, rfl⟩
  refine Ends.ofExcept.bind ?_
  rintro pos _ ⟨hpos, rfl⟩
  have hplace := hpick.place
  cases side with
  | left =>
    obtain ⟨r, hr⟩ := hplace
    cases hpos.symm.trans (show position parent p = _ from hr)
    refine (hborrow _).bind ?_
    rintro _ F' ⟨rfl, hfits⟩
    exact .pure hfits
  | right =>
    obtain ⟨l, hl, hskip⟩ := hplace
    cases hpos.symm.trans (show position parent p = _ from hl)
    refine (ends_borrow_skip stealFromLeft _ _ (by exact hskip)).bind ?_
    rintro _ _ ⟨rfl, rfl⟩
    rw [if_neg Bool.false_ne_true]
    refine (hborrow _).bind ?_
    rintro _ F' ⟨rfl, hfits⟩
    exact .pure hfits

theorem replacedCells_perm (u b : List (Bytes × PageId)) (old k : Bytes) (child : PageId) :
    ((replacedCells u b old k child).map Prod.snd).Perm ((u ++ (old, child) :: b).map Prod.snd) := by
  unfold replacedCells
  split
  · simp
  · refine ((List.perm_insertIdx (k, child) (u ++ b) (lowerBound_le _ _)).map Prod.snd).trans ?_
    rw [List.map_cons, List.map_append, List.map_append, List.map_cons]
    exact List.perm_middle.symm

/-- A borrow from the picked sibling that has all it needs for the loan returns. -/
theorem returns_borrow_picks (hs : Shape H lab lab m) (hb : side.Beside lab par p sib L)
    (hpick : Picks H p par N slot side sib cur lender) (hslot : slot = u.length)
    (hcells : N.cells = u ++ (old, child) :: b) (hfits : LoanFits side N slot cur lender)
    (cond : String) :
    Returns view (borrow side.steal par par p sib slot cond) (H.pin par)
      fun r H' => true = r ∧ CellsKept H H' p par sib side N cur lender := by
  obtain ⟨hne, hpp, hps⟩ := hb.ne hs
  obtain ⟨hlive, hlive'⟩ := hb.live hs
  obtain ⟨⟨c, newSep⟩, hloan, hroom, hsep⟩ := hfits
  rw [hslot, hcells, eraseIdx_append_cons] at hsep
  refine (returns_borrow_of (n := .leaf lender) (N := N) cond newSep hlive' hpick.sibling hpick.lends
    hlive
    (P := fun K => ∃ nl nc : Node Bytes, K = (H.put sib (.leaf nl)).put p (.leaf nc) ∧
      side.join nl.cells nc.cells = side.join lender.cells cur.cells)
    (R := fun n' => n'.hdr.firstChild = N.hdr.firstChild ∧
      (n'.cells.map Prod.snd).Perm (N.cells.map Prod.snd)) ?_ ?_ ?_).mono ?_
  · refine (returns_steal hne (by exact hpick.page) (by exact hpick.sibling)
      (hb.sorted hs hpick.page hpick.sibling) hloan hroom).mono ?_
    rintro _ _ ⟨rfl, nl, nc, rfl, hjoin⟩
    exact ⟨rfl, _, rfl, nl, nc, rfl, hjoin⟩
  · rintro _ ⟨nl, nc, rfl, -⟩
    rw [Heap.put_node_of_ne _ _ hpp, Heap.put_node_of_ne _ _ hps, hpick.parent]
  · rintro parent rfl
    have hcells : parent.cells = u ++ (old, child) :: b := hcells
    have hsep : Room (u ++ b) (newSep, child) := hsep
    obtain ⟨n', hreplace⟩ := replaceSeparator_room hcells hsep
    obtain ⟨-, hhdr, hcells'⟩ := replaceSeparator_eq hcells hreplace
    refine ⟨n', by rw [hslot]; exact hreplace, ?_, ?_⟩
    · rw [Node.bare_firstChild, hhdr, Node.bare_firstChild]
    · rw [Node.bare_cells, Node.bare_cells, hcells', hcells]
      exact replacedCells_perm u b old newSep child
  · rintro _ _ ⟨rfl, _, n', ⟨nl, nc, rfl, hjoin⟩, rfl, hfirst, hperm⟩
    refine ⟨rfl, ⟨nc, nl, ?_, ?_, hjoin⟩, ⟨n', Heap.put_node_self .., hfirst, hperm⟩, ?_⟩
    · rw [Heap.put_node_of_ne _ _ hpp.symm, Heap.put_node_self]
    · rw [Heap.put_node_of_ne _ _ hps.symm, Heap.put_node_of_ne _ _ hne.symm, Heap.put_node_self]
    · intro q hqp hqpar hqs
      rw [Heap.put_node_of_ne _ _ hqpar, Heap.put_node_of_ne _ _ hqp, Heap.put_node_of_ne _ _ hqs]

/-- A call of `fix_underflow` that picks a sibling and has all it needs for the loan returns. -/
theorem returns_fixSiblings_picks (hs : Shape H lab lab m) (hb : side.Beside lab par p sib L)
    (hpar : H.Live par) (hpick : Picks H p par N slot side sib cur lender) (hslot : slot = u.length)
    (hcells : N.cells = u ++ (old, child) :: b)
    (hleft : ∀ pos, position N p = .ok pos → pos.leftSib = INVALID_PAGE_ID ∨ H.Live pos.leftSib)
    (hfits : LoanFits side N slot cur lender) :
    Returns view (fixSiblings p par) H fun r H' =>
      (∃ x y, r = .borrowed x y) ∧ CellsKept H H' p par sib side N cur lender := by
  have hborrow := returns_borrow_picks hs hb hpick hslot hcells hfits
  refine (returns_fetch _ hpar.pos hpar.lt).seqVal ?_
  refine (returns_internalNode (N := N) (by exact hpick.parent)).bind ?_
  rintro parent _ ⟨rfl, rfl⟩
  have hplace := hpick.place
  cases side with
  | left =>
    obtain ⟨r, hr⟩ := hplace
    refine (Returns.ofExcept (show position parent p = _ from hr)).bind ?_
    rintro _ _ ⟨rfl, rfl⟩
    refine (hborrow _).bind ?_
    rintro _ H' ⟨rfl, hkept⟩
    exact .pure ⟨⟨_, _, rfl⟩, hkept⟩
  | right =>
    obtain ⟨l, hl, hskip⟩ := hplace
    refine (Returns.ofExcept (show position parent p = _ from hl)).bind ?_
    rintro _ _ ⟨rfl, rfl⟩
    have hlive : l = INVALID_PAGE_ID ∨ H.Live l := hleft _ hl
    refine (returns_borrow_skip stealFromLeft _ _ ?_).bind ?_
    · by_cases hinv : l = INVALID_PAGE_ID
      · exact Or.inl hinv
      · exact Or.inr ⟨(hlive.resolve_left hinv).pin _, hskip.resolve_left hinv⟩
    rintro _ _ ⟨rfl, rfl⟩
    rw [if_neg Bool.false_ne_true]
    refine (hborrow _).bind ?_
    rintro _ H' ⟨rfl, hkept⟩
    exact .pure ⟨⟨_, _, rfl⟩, hkept⟩

end Level

/-! ## The call -/

section Call

variable {s₀ : Store} {t₀ t t₁ : BTree Store} {ops : List TreeOp} {key : Bytes} {path : List PageId}
  {H : Heap} {lab : Labels} {m : Bytes → Option Bytes} {par p sib : PageId} {L : Label Bytes}
  {side : Side} {N : Node PageId} {slot : Nat} {cur lender : Node Bytes}

/-- The sibling that is picked is a neighbour of the page, and the slot is one of the parent. -/
theorem Picks.beside (hpick : Picks H p par N slot side sib cur lender) (hs : Shape H lab lab m)
    (hpar : lab par = some L) (hL : L.height = 0 + 1) (hN : InternalOk H lab par L 0 N)
    (hp : p ∈ N.children) :
    side.Beside lab par p sib L ∧
      (∃ u old child b, slot = u.length ∧ N.cells = u ++ (old, child) :: b) ∧
      ∀ pos, position N p = .ok pos → pos.leftSib = INVALID_PAGE_ID ∨ H.Live pos.leftSib := by
  have hplace := hpick.place
  obtain ⟨lo, hmem⟩ := (mem_children L.lo).mp hp
  rcases List.mem_cons.mp hmem with hfirst | hmem
  · have hfirst : N.hdr.firstChild = p := (congrArg Prod.snd hfirst).symm
    cases hcells : N.cells with
    | nil =>
      obtain ⟨e, he⟩ := position_first_error hfirst hcells
      cases side with
      | left =>
        obtain ⟨r, hr⟩ := hplace
        cases he.symm.trans hr
      | right =>
        obtain ⟨l, hl, -⟩ := hplace
        cases he.symm.trans hl
    | cons c b =>
      have hpos := position_first hfirst hcells
      have hleft : ∀ pos, position N p = .ok pos →
          pos.leftSib = INVALID_PAGE_ID ∨ H.Live pos.leftSib := by
        intro pos h
        cases hpos.symm.trans h
        exact Or.inl rfl
      cases side with
      | left =>
        obtain ⟨r, hr⟩ := hplace
        cases hpos.symm.trans hr
        exact (hpick.valid rfl).elim
      | right =>
        obtain ⟨l, hl, -⟩ := hplace
        cases hpos.symm.trans hl
        have hn := hN.neighbours hpar hL (hfirst ▸ Adjacent.of_first hcells)
        exact ⟨⟨_, _, _, hn⟩, ⟨[], c.1, c.2, b, rfl, rfl⟩, hleft⟩
  · obtain ⟨a, b, hcells⟩ := List.append_of_mem hmem
    have hadj : Adjoining N (((a.getLast?).map Prod.snd).getD N.hdr.firstChild) p a lo b :=
      ⟨hcells, rfl⟩
    have hpos := position_of_adjoining hN hadj
    have hn := hN.neighbours hpar hL hadj.adjacent
    have hleft : ∀ pos, position N p = .ok pos →
        pos.leftSib = INVALID_PAGE_ID ∨ H.Live pos.leftSib := by
      intro pos h
      cases hpos.symm.trans h
      exact Or.inr (hs.isLive hn.left)
    cases side with
    | left =>
      obtain ⟨r, hr⟩ := hplace
      cases hpos.symm.trans hr
      exact ⟨⟨_, _, _, hn⟩, ⟨a, lo, p, b, rfl, hcells⟩, hleft⟩
    | right =>
      obtain ⟨l, hl, -⟩ := hplace
      cases hpos.symm.trans hl
      cases b with
      | nil => exact (hpick.valid rfl).elim
      | cons c b =>
        exact ⟨⟨_, _, _, hN.neighbours hpar hL hadj.adjacent_right⟩,
          ⟨a, lo, p, c :: b, rfl, hcells⟩, hleft⟩

/-- The parent of the page where `fix_underflow` is called. -/
theorem Called.parent (hs : Shape H lab lab m) (hc : Called H lab key p (par :: path))
    (hN : H.node par = some (.internal N)) :
    ∃ L, lab par = some L ∧ L.height = 0 + 1 ∧ InternalOk H lab par L 0 N ∧ p ∈ N.children := by
  obtain ⟨⟨L', hp, hL', hkey'⟩, -, ⟨L, hpar, hL, hkey⟩, -⟩ := hc.found
  obtain ⟨h, hh, hok⟩ := hs.internalOk hpar hN
  have hzero : h = 0 := by omega
  subst hzero
  obtain ⟨a, b, hentries, -⟩ := hs.entry_of_mem hp hkey' (hL' ▸ hok) hkey
  refine ⟨L, hpar, hh, hok, (mem_children L.lo).mpr ⟨L'.lo, ?_⟩⟩
  rw [hentries]
  simp

/-- **A loan succeeds exactly if the lender has a cell to give and there is room** for the cell in
the page and for the new separator in the parent. -/
theorem fixUnderflow_borrow_iff (hpool : (view { store := s₀ }).PoolOk)
    (hcreate : exec create { store := s₀ } = (.ok (), t₀)) (hrun : run calmStep t₀ ops = some t)
    (hcall : callStep t key = some (t₁, p, par :: path))
    (hpick : Picks (view t₁) p par N slot side sib cur lender) :
    (∃ t', exec (fixUnderflow p (par :: path)) t₁ = (.ok (), t') ∧
        CellsKept (view t₁) (view t') p par sib side N cur lender) ↔
      LoanFits side N slot cur lender := by
  obtain ⟨m, lab, hs, hl⟩ := resting_of_run hpool hcreate hrun
  obtain ⟨found, hexec⟩ := callStep_eq_some hcall
  obtain ⟨⟨m', hs'⟩, -, -, hcalled⟩ := ends_removeFromLeaf hs hl t _ t₁ rfl hexec
  have hs' : Shape (view t₁) lab lab m' := hs'
  obtain ⟨L, hpar, hL, hN, hp⟩ := (hcalled _ rfl).parent hs' hpick.parent
  obtain ⟨hb, ⟨u, old, child, b, hslot, hcells⟩, hleft⟩ := hpick.beside hs' hpar hL hN hp
  rw [fixUnderflow_cons]
  constructor
  · intro h
    obtain ⟨t', hfix, -⟩ := h
    have hends : Ends fullView (fixSiblings p par >>= fixAbove par path) (fullView t₁)
        fun _ _ => LoanFits side N slot cur lender := by
      refine (ends_fixSiblings_picks hs' hb hpick hslot hcells).bind ?_
      intro r F hfits t r' t' _ _
      exact hfits
    exact hends t₁ () t' rfl hfix
  · intro hfits
    have hreturns : Returns view (fixSiblings p par >>= fixAbove par path) (view t₁)
        fun _ H' => CellsKept (view t₁) H' p par sib side N cur lender := by
      refine (returns_fixSiblings_picks hs' hb (hs'.isLive hpar) hpick hslot hcells hleft hfits).bind ?_
      intro r H' h
      obtain ⟨⟨x, y, rfl⟩, hkept⟩ := h
      exact .pure hkept
    obtain ⟨r, t', hfix, hkept⟩ := hreturns t₁ rfl
    exact ⟨t', hfix, hkept⟩

end Call

/-! ## A lender of dead bytes -/

section Concrete

variable {H : Heap} {p par : PageId}

/-- The slot and the left sibling that are picked, and whether the loan fits. -/
def leftPick (H : Heap) (p par : PageId) : Option (Nat × PageId × Bool) :=
  match H.node par, H.node p with
  | some (.internal N), some (.leaf cur) =>
    match position N p with
    | .ok pos =>
      match H.node pos.leftSib with
      | some (.leaf lender) =>
        if pos.leftSib ≠ INVALID_PAGE_ID ∧ lender.underflow = false then
          some (pos.sepSlot, pos.leftSib, LoanFits .left N pos.sepSlot cur lender)
        else none
      | _ => none
    | .error _ => none
  | _, _ => none

theorem picks_of_leftPick {slot : Nat} {sib : PageId} {fits : Bool}
    (h : leftPick H p par = some (slot, sib, fits)) :
    ∃ N cur lender, Picks H p par N slot .left sib cur lender ∧
      (fits = true ↔ LoanFits .left N slot cur lender) := by
  unfold leftPick at h
  split at h
  · next N cur hN hcur =>
    split at h
    · next pos hpos =>
      split at h
      · next lender hlender =>
        split at h
        · next hlends =>
          cases h
          exact ⟨N, cur, lender, ⟨hN, hcur, hlends.1, hlender, hlends.2, pos.rightSib, hpos⟩,
            decide_eq_true_iff⟩
        · cases h
      · cases h
    · cases h
  · cases h

/-- Three keys in two leaves; the first leaf has the first key, with a value of 3000 bytes. -/
def threeKeys : List TreeOp :=
  [.insert [1] (List.replicate 3000 0), .insert [2] (List.replicate 900 0),
    .insert [3] (List.replicate 500 0)]

/-- The arguments of the call of `fix_underflow`, and what it picks. -/
def pickAt (ops : List TreeOp) (key : Bytes) :
    Option (PageId × List PageId × Option (Nat × PageId × Bool)) :=
  (run calmStep (exec create { store := Store.init }).2 ops).bind fun t =>
    (callStep t key).map fun call => (call.2.1, call.2.2, leftPick (view call.1) call.2.1 3)

theorem run_of_pickAt {ops : List TreeOp} {key : Bytes} {path : List PageId}
    {pick : Option (Nat × PageId × Bool)} (h : pickAt ops key = some (p, path, pick)) :
    ∃ t t₁, run calmStep (exec create { store := Store.init }).2 ops = some t ∧
      callStep t key = some (t₁, p, path) ∧ leftPick (view t₁) p 3 = pick := by
  obtain ⟨t, hrun, hmap⟩ := Option.bind_eq_some_iff.mp h
  obtain ⟨⟨t₁, p', path'⟩, hcall, heq⟩ := Option.map_eq_some_iff.mp hmap
  cases heq
  exact ⟨t, t₁, hrun, hcall, rfl⟩

/-- The removal of the first key leaves 3000 dead bytes in the first leaf. The removal of the second
then picks that leaf, which has no cell. -/
theorem not_cellsKept_threeKeys :
    ¬ ∀ (s₀ : Store) (t₀ t t₁ : BTree Store) (ops : List TreeOp) (key : Bytes) (path : List PageId)
      (par p sib : PageId) (side : Side) (N : Node PageId) (slot : Nat) (cur lender : Node Bytes),
      (view { store := s₀ }).PoolOk → exec create { store := s₀ } = (.ok (), t₀) →
      run calmStep t₀ ops = some t → callStep t key = some (t₁, p, par :: path) →
      Picks (view t₁) p par N slot side sib cur lender →
      ∃ t', exec (fixUnderflow p (par :: path)) t₁ = (.ok (), t') ∧
        CellsKept (view t₁) (view t') p par sib side N cur lender := by
  intro h
  have hcheck : pickAt (threeKeys ++ [.remove [1]]) [2] = some (2, [3], some (0, 1, false)) := by
    decide +kernel
  have hfails : (atCall (threeKeys ++ [.remove [1]]) [2]).map
      (fun t => (exec (fixUnderflow 2 [3]) t).1.isOk) = some false := by decide +kernel
  obtain ⟨t, t₁, hrun, hcall, hpick⟩ := run_of_pickAt hcheck
  obtain ⟨N, cur, lender, hpicks, -⟩ := picks_of_leftPick hpick
  have hcreate := exec_eq_of_isOk (x := create) (s := { store := Store.init }) (by decide +kernel)
  obtain ⟨t', hexec, -⟩ := h Store.init _ t t₁ _ [2] [] 3 2 1 .left N 0 cur lender poolOk_init hcreate
    hrun hcall hpicks
  rw [atCall, hrun, Option.bind_some, hcall, Option.map_some, Option.map_some, hexec] at hfails
  cases hfails

/-- While the first key is there, it is lent. -/
theorem fixUnderflow_borrow_iff_threeKeys :
    ∃ t t₁ t' N cur lender,
      run calmStep (exec create { store := Store.init }).2 threeKeys = some t ∧
      callStep t [2] = some (t₁, 2, [3]) ∧ Picks (view t₁) 2 3 N 0 .left 1 cur lender ∧
      LoanFits .left N 0 cur lender ∧ exec (fixUnderflow 2 [3]) t₁ = (.ok (), t') ∧
      CellsKept (view t₁) (view t') 2 3 1 .left N cur lender := by
  have hcheck : pickAt threeKeys [2] = some (2, [3], some (0, 1, true)) := by decide +kernel
  obtain ⟨t, t₁, hrun, hcall, hpick⟩ := run_of_pickAt hcheck
  obtain ⟨N, cur, lender, hpicks, hfits⟩ := picks_of_leftPick hpick
  have hcreate := exec_eq_of_isOk (x := create) (s := { store := Store.init }) (by decide +kernel)
  obtain ⟨t', hexec, hkept⟩ :=
    (fixUnderflow_borrow_iff poolOk_init hcreate hrun hcall hpicks).mpr (hfits.mp rfl)
  exact ⟨t, t₁, t', N, cur, lender, hrun, hcall, hpicks, hfits.mp rfl, hexec, hkept⟩

end Concrete

end BTree

end KeyVDB
