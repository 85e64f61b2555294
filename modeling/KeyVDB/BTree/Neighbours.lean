import KeyVDB.BTree.Insert

/-!
# Neighbours under one parent

What `fix_underflow` does to two adjacent children of a node: cells move from one to the other and
the separator between them moves along, or the right one is merged into the left one and the
separator goes.
-/

namespace KeyVDB

/-- `x` and `y` are adjacent children of a node with label `L`: `y` is in the slot after the
separators `u`. -/
structure Adjacent (N : Node PageId) (L : Label Bytes) (x y : PageId) (lo mid : Bytes)
    (u b : List (Bytes × PageId)) : Prop where
  cells : N.cells = u ++ (mid, y) :: b
  left : ∃ a, (L.lo, N.hdr.firstChild) :: u = a ++ [(lo, x)]

section Parent

variable {H : Heap} {lab : Labels} {m : Bytes → Option Bytes} {par x y : PageId} {L : Label Bytes}
  {h : Nat} {N N' : Node PageId} {lo mid mid' : Bytes} {u b : List (Bytes × PageId)}

theorem Adjacent.entries_eq (ha : Adjacent N L x y lo mid u b) :
    ∃ a, (L.lo, N.hdr.firstChild) :: u = a ++ [(lo, x)] ∧
      entries L.lo N = a ++ (lo, x) :: (mid, y) :: b := by
  obtain ⟨a, hu⟩ := ha.left
  refine ⟨a, hu, ?_⟩
  rw [entries, ha.cells, ← List.cons_append, hu, List.append_assoc, List.singleton_append]

/-- Adjacent children are neighbours. -/
theorem InternalOk.neighbours (hN : InternalOk H lab par L h N) (hpar : lab par = some L)
    (hL : L.height = h + 1) (ha : Adjacent N L x y lo mid u b) :
    Neighbours lab par x y L h lo mid (nextKey L.hi b) := by
  obtain ⟨a, -, hentries⟩ := ha.entries_eq
  have hchain := hN.chain
  have hx : (lo, x) ∈ entries L.lo N := by rw [hentries]; simp
  have hy : (mid, y) ∈ entries L.lo N := by rw [hentries]; simp
  rw [hentries] at hchain
  obtain ⟨-, hleft, -, hright, -, -⟩ := chain_append.mp hchain
  exact ⟨hpar, hleft, hright, hL, hN.chain.mem_label hx, hN.chain.mem_label hy⟩

/-- The other children of the parent keep their labels. -/
theorem InternalOk.regroup_others {a : List (Bytes × PageId)} (hN : InternalOk H lab par L h N)
    (e : WithTop Bytes) (Ly : Option (Label Bytes))
    (hentries : entries L.lo N = a ++ (lo, x) :: (mid, y) :: b) :
    ∀ z ∈ a ++ b, regroupLab lab x y ⟨h, lo, e⟩ Ly z.2 = lab z.2 := by
  have hchain := hN.chain
  rw [hentries] at hchain
  have hsorted := hchain.sorted
  obtain ⟨hltx, hgtx⟩ := hsorted.at_slot
  rw [List.append_cons] at hsorted
  obtain ⟨hlty, hgty⟩ := hsorted.at_slot
  intro z hz
  have hz' : z ∈ a ++ (lo, x) :: (mid, y) :: b := by
    rcases List.mem_append.mp hz with hz | hz
    · exact List.mem_append_left _ hz
    · exact List.mem_append_right a (List.mem_cons_of_mem _ (List.mem_cons_of_mem _ hz))
  refine regroupLab_other ?_ ?_
  · intro hzx
    have hsame := hchain.eq_of_child_eq hz' (y := (lo, x)) (by simp) hzx
    rcases List.mem_append.mp hz with hz | hz
    · exact (hltx z hz).ne (congrArg Prod.fst hsame)
    · exact (hgtx z (List.mem_cons_of_mem _ hz)).ne' (congrArg Prod.fst hsame)
  · intro hzy
    have hsame := hchain.eq_of_child_eq hz' (y := (mid, y)) (by simp) hzy
    rcases List.mem_append.mp hz with hz | hz
    · exact (hlty z (List.mem_append_left _ hz)).ne (congrArg Prod.fst hsame)
    · exact (hgty z hz).ne' (congrArg Prod.fst hsame)

/-- The parent after the separator has moved. -/
theorem InternalOk.moved (hN : InternalOk H lab par L h N) (hne : x ≠ y)
    (ha : Adjacent N L x y lo mid u b) (hlo : lo < mid')
    (hhi : (mid' : WithTop Bytes) < nextKey L.hi b) (hcells : N'.cells = u ++ (mid', y) :: b)
    (hfirst : N'.hdr.firstChild = N.hdr.firstChild) :
    Chain (regroupLab lab x y ⟨h, lo, mid'⟩ (some ⟨h, mid', nextKey L.hi b⟩)) h L.hi
      (entries L.lo N') := by
  obtain ⟨a, hu, hentries⟩ := ha.entries_eq
  have hothers := hN.regroup_others mid' (some ⟨h, mid', nextKey L.hi b⟩) hentries
  have hchain := hN.chain
  rw [hentries] at hchain
  obtain ⟨hca, -, -, -, -, hcb⟩ := chain_append.mp hchain
  rw [entries, hcells, hfirst, ← List.cons_append, hu, List.append_assoc, List.singleton_append]
  refine chain_append.mpr ⟨hca.congr fun z hz => hothers z (List.mem_append_left b hz), ?_⟩
  refine ⟨regroupLab_left hne, WithTop.coe_lt_coe.mpr hlo, regroupLab_right, hhi, ?_⟩
  exact hcb.congr fun z hz => hothers z (List.mem_append_right a hz)

/-- The parent after the separator has gone. -/
theorem InternalOk.merged (hN : InternalOk H lab par L h N) (hne : x ≠ y)
    (ha : Adjacent N L x y lo mid u b) (hcells : N'.cells = u ++ b)
    (hfirst : N'.hdr.firstChild = N.hdr.firstChild) :
    Chain (regroupLab lab x y ⟨h, lo, nextKey L.hi b⟩ none) h L.hi (entries L.lo N') := by
  obtain ⟨a, hu, hentries⟩ := ha.entries_eq
  have hothers := hN.regroup_others (nextKey L.hi b) none hentries
  have hchain := hN.chain
  rw [hentries] at hchain
  obtain ⟨hca, -, hlo, -, hhi, hcb⟩ := chain_append.mp hchain
  rw [entries, hcells, hfirst, ← List.cons_append, hu, List.append_assoc, List.singleton_append]
  refine chain_append.mpr ⟨hca.congr fun z hz => hothers z (List.mem_append_left b hz), ?_⟩
  refine ⟨regroupLab_left hne, hlo.trans hhi, ?_⟩
  exact hcb.congr fun z hz => hothers z (List.mem_append_right a hz)

/-- The separators around a key between two children. -/
theorem InternalOk.around {k : Bytes} (hN : InternalOk H lab par L h N)
    (ha : Adjacent N L x y lo mid u b) (hlo : lo < k) (hhi : (k : WithTop Bytes) < nextKey L.hi b) :
    (∀ c ∈ u, c.1 < k) ∧ ∀ c ∈ b, k < c.1 := by
  obtain ⟨a, hu, hentries⟩ := ha.entries_eq
  have hsorted := hN.chain.sorted
  rw [hentries] at hsorted
  obtain ⟨hlt, -⟩ := hsorted.at_slot
  constructor
  · intro c hc
    have hmem : c ∈ a ++ [(lo, x)] := hu ▸ List.mem_cons_of_mem _ hc
    rcases List.mem_append.mp hmem with hc | hc
    · exact (hlt c hc).trans hlo
    · rw [List.mem_singleton.mp hc]
      exact hlo
  · intro c hc
    cases b with
    | nil => cases hc
    | cons d b =>
      have hd : k < d.1 := WithTop.coe_lt_coe.mp hhi
      rcases List.mem_cons.mp hc with rfl | hc
      · exact hd
      · have hb : Sorted (d :: b) := by
          have hcells := (Sorted.cons_iff.mp hN.chain.sorted).2
          rw [ha.cells] at hcells
          exact (Sorted.cons_iff.mp (Sorted.append_iff.mp hcells).2.1).2
        exact hd.trans ((Sorted.cons_iff.mp hb).1 c hc)

end Parent

/-! ## Two leaves -/

section Leaves

variable {H H' : Heap} {lab : Labels} {m : Bytes → Option Bytes} {par x y : PageId} {L : Label Bytes}
  {lo mid mid' : Bytes} {hi e : WithTop Bytes} {Nx Ny Nx' Ny' : Node Bytes}
  {Ly : Option (Label Bytes)}

/-- What two neighbouring leaves hold together. -/
structure LeafPair (m : Bytes → Option Bytes) (lo : Bytes) (hi : WithTop Bytes)
    (cells : List (Bytes × Bytes)) : Prop where
  sorted : Sorted cells
  lo_le : ∀ c ∈ cells, lo ≤ c.1
  lt_hi : ∀ c ∈ cells, (c.1 : WithTop Bytes) < hi
  get : ∀ {k : Bytes}, lo ≤ k → (k : WithTop Bytes) < hi → m k = slotGet cells k

theorem LeafOk.pair (hs : Shape H lab lab m) (hn : Neighbours lab par x y L 0 lo mid hi)
    (hx : LeafOk H lab m x ⟨0, lo, mid⟩ Nx) (hy : LeafOk H lab m y ⟨0, mid, hi⟩ Ny) :
    LeafPair m lo hi (Nx.cells ++ Ny.cells) := by
  have hlt : ∀ c ∈ Nx.cells, c.1 < mid := fun c hc => WithTop.coe_lt_coe.mp (hx.mem c hc).2
  have hge : ∀ c ∈ Ny.cells, mid ≤ c.1 := fun c hc => (hy.mem c hc).1
  have hlm : lo < mid := WithTop.coe_lt_coe.mp (hs.proper hn.left)
  constructor
  case sorted =>
    refine Sorted.append_iff.mpr ⟨hx.sorted, hy.sorted, fun c hc d hd => ?_⟩
    exact (hlt c hc).trans_le (hge d hd)
  case lo_le =>
    intro c hc
    rcases List.mem_append.mp hc with hc | hc
    · exact (hx.mem c hc).1
    · exact hlm.le.trans (hge c hc)
  case lt_hi =>
    intro c hc
    rcases List.mem_append.mp hc with hc | hc
    · exact (hx.mem c hc).2.trans (hs.proper hn.right)
    · exact (hy.mem c hc).2
  case get =>
    intro k hlo hhi
    rw [slotGet_append]
    rcases lt_or_ge k mid with hk | hk
    · rw [hx.get k ⟨hlo, WithTop.coe_lt_coe.mpr hk⟩,
        slotGet_eq_none (l := Ny.cells) fun c hc => (hk.trans_le (hge c hc)).ne', Option.or_none]
    · rw [hy.get k ⟨hk, hhi⟩,
        slotGet_eq_none (l := Nx.cells) fun c hc => ((hlt c hc).trans_le hk).ne, Option.none_or]

/-- The right sibling of the left neighbour is the right one. -/
theorem LeafOk.right_eq (hs : Shape H lab lab m) (hn : Neighbours lab par x y L 0 lo mid hi)
    (hx : LeafOk H lab m x ⟨0, lo, mid⟩ Nx) : Nx.hdr.rightSibling = y := by
  obtain ⟨hi', hr⟩ := hx.right.next mid rfl
  exact hs.apart hr hn.right rfl (hs.proper hr).mem (hs.proper hn.right).mem

/-- What is to the right of two neighbours is still there after they were regrouped. -/
theorem RightOk.regroupLab {r : PageId} (hs : Shape H lab lab m)
    (hn : Neighbours lab par x y L 0 lo mid hi) (hr : RightOk lab hi r) :
    RightOk (regroupLab lab x y ⟨0, lo, e⟩ Ly) hi r := by
  refine ⟨hr.last, fun k hk => ?_⟩
  obtain ⟨hi', hlr⟩ := hr.next k hk
  have hlm : (lo : WithTop Bytes) < mid := hs.proper hn.left
  have hmh : (mid : WithTop Bytes) < k := hk ▸ hs.proper hn.right
  refine ⟨hi', ?_⟩
  rw [regroupLab_other, hlr]
  · rintro rfl
    cases hn.left.symm.trans hlr
    exact lt_asymm hlm hmh
  · rintro rfl
    cases hn.right.symm.trans hlr
    exact lt_irrefl _ hmh

/-- The left leaf when cells have moved between the two. -/
theorem LeafPair.left (hp : LeafPair m lo hi (Nx'.cells ++ Ny'.cells))
    (hlt : ∀ c ∈ Nx'.cells, c.1 < mid') (hge : ∀ c ∈ Ny'.cells, mid' ≤ c.1)
    (hhi : (mid' : WithTop Bytes) < hi) (hnode : H'.node x = some (.leaf Nx'))
    (hright : Nx'.hdr.rightSibling = y) :
    LeafOk H' (regroupLab lab x y ⟨0, lo, mid'⟩ (some ⟨0, mid', hi⟩)) m x ⟨0, lo, mid'⟩ Nx' := by
  constructor
  case node => exact hnode
  case sorted => exact (Sorted.append_iff.mp hp.sorted).1
  case mem =>
    intro c hc
    exact ⟨hp.lo_le c (List.mem_append_left _ hc), WithTop.coe_lt_coe.mpr (hlt c hc)⟩
  case get =>
    intro k hk
    have hk' : k < mid' := WithTop.coe_lt_coe.mp hk.2
    rw [hp.get hk.1 (hk.2.trans hhi), slotGet_append,
      slotGet_eq_none (l := Ny'.cells) fun c hc => (hk'.trans_le (hge c hc)).ne', Option.or_none]
  case right =>
    refine ⟨fun htop => (WithTop.coe_ne_top htop).elim, fun k hk => ?_⟩
    cases WithTop.coe_injective hk
    exact ⟨hi, by rw [hright, regroupLab_right]⟩

/-- The right leaf when cells have moved between the two. -/
theorem LeafPair.right (hp : LeafPair m lo hi (Nx'.cells ++ Ny'.cells))
    (hlt : ∀ c ∈ Nx'.cells, c.1 < mid') (hge : ∀ c ∈ Ny'.cells, mid' ≤ c.1) (hlo : lo < mid')
    (hnode : H'.node y = some (.leaf Ny')) {lab' : Labels}
    (hright : RightOk lab' hi Ny'.hdr.rightSibling) :
    LeafOk H' lab' m y ⟨0, mid', hi⟩ Ny' := by
  constructor
  case node => exact hnode
  case sorted => exact (Sorted.append_iff.mp hp.sorted).2.1
  case mem =>
    intro c hc
    exact ⟨hge c hc, hp.lt_hi c (List.mem_append_right _ hc)⟩
  case get =>
    intro k hk
    rw [hp.get (hlo.le.trans hk.1) hk.2, slotGet_append,
      slotGet_eq_none (l := Nx'.cells) fun c hc => ((hlt c hc).trans_le hk.1).ne, Option.none_or]
  case right => exact hright

end Leaves

/-! ## The moves -/

namespace Shape

variable {H H' : Heap} {lab : Labels} {m : Bytes → Option Bytes} {par x y : PageId} {L : Label Bytes}
  {h : Nat} {N N' : Node PageId} {lo mid mid' : Bytes} {u b : List (Bytes × PageId)}

/-- **Cells move between two leaves**, and the separator with them. -/
theorem borrowLeaf {Nx Ny : Node Bytes} (hs : Shape H lab lab m) (hpar : lab par = some L)
    (hL : L.height = 1) (hN : InternalOk H lab par L 0 N) (ha : Adjacent N L x y lo mid u b)
    (hpair : LeafPair m lo (nextKey L.hi b) (Nx.cells ++ Ny.cells))
    (hlt : ∀ c ∈ Nx.cells, c.1 < mid') (hge : ∀ c ∈ Ny.cells, mid' ≤ c.1) (hlo : lo < mid')
    (hhi : (mid' : WithTop Bytes) < nextKey L.hi b) (hleft : Nx.hdr.rightSibling = y)
    (hright : RightOk lab (nextKey L.hi b) Ny.hdr.rightSibling)
    (hcells : N'.cells = u ++ (mid', y) :: b) (hfirst : N'.hdr.firstChild = N.hdr.firstChild)
    (hx : H'.node x = some (.leaf Nx)) (hy : H'.node y = some (.leaf Ny))
    (hpar' : H'.node par = some (.internal N'))
    (hother : ∀ z, z ≠ par → z ≠ x → z ≠ y → H'.node z = H.node z)
    (hnum : H'.numPages = H.numPages) (hfree : H'.freePages = H.freePages)
    (hroot : H'.root = H.root) : ∃ lab', Shape H' lab' lab' m := by
  have hn := hN.neighbours hpar hL ha
  refine ⟨_, hs.regroup hn (.two hlo hhi) hother hnum hfree hroot ?_ ?_ ?_⟩
  · exact InternalOk.pageOk ⟨hpar', hN.moved (hn.ne hs) ha hlo hhi hcells hfirst⟩ hL
  · exact (hpair.left hlt hge hhi hx hleft).pageOk rfl
  · rintro _ ⟨⟩
    exact (hpair.right hlt hge hlo hy (hright.regroupLab hs hn)).pageOk rfl

/-- **The right neighbour is merged into the left one.** -/
theorem merge {nx : AnyNode} (hs : Shape H lab lab m) (hpar : lab par = some L)
    (hL : L.height = h + 1) (hN : InternalOk H lab par L h N)
    (ha : Adjacent N L x y lo mid u b) (hcells : N'.cells = u ++ b)
    (hfirst : N'.hdr.firstChild = N.hdr.firstChild)
    (hx : PageOk (((H.put x nx).put par (.internal N')).release y)
      (regroupLab lab x y ⟨h, lo, nextKey L.hi b⟩ none)
      (regroupLab lab x y ⟨h, lo, nextKey L.hi b⟩ none) m x ⟨h, lo, nextKey L.hi b⟩) :
    Shape (((H.put x nx).put par (.internal N')).release y)
      (regroupLab lab x y ⟨h, lo, nextKey L.hi b⟩ none)
      (regroupLab lab x y ⟨h, lo, nextKey L.hi b⟩ none) m := by
  have hn := hN.neighbours hpar hL ha
  refine hs.regroup hn .one ?_ rfl rfl rfl ?_ hx nofun
  · intro z hzpar hzx hzy
    rw [Heap.release_node_of_ne _ hzy, Heap.put_node_of_ne _ _ hzpar, Heap.put_node_of_ne _ _ hzx]
  · refine InternalOk.pageOk (N := N') ⟨?_, hN.merged (hn.ne hs) ha hcells hfirst⟩ hL
    rw [Heap.release_node_of_ne _ hn.parent_ne_right, Heap.put_node_self]

/-- The left one of two leaves that were merged. -/
theorem merge_leaf {Nx Ny Nx' : Node Bytes} {hi : WithTop Bytes} (hs : Shape H lab lab m)
    (hn : Neighbours lab par x y L 0 lo mid hi) (hx : LeafOk H lab m x ⟨0, lo, mid⟩ Nx)
    (hy : LeafOk H lab m y ⟨0, mid, hi⟩ Ny) (hcells : Nx'.cells = Nx.cells ++ Ny.cells)
    (hright : Nx'.hdr.rightSibling = Ny.hdr.rightSibling)
    (hnode : H'.node x = some (.leaf Nx')) :
    PageOk H' (regroupLab lab x y ⟨0, lo, hi⟩ none) (regroupLab lab x y ⟨0, lo, hi⟩ none) m x
      ⟨0, lo, hi⟩ := by
  have hpair := LeafOk.pair hs hn hx hy
  rw [← hcells] at hpair
  refine LeafOk.pageOk (N := Nx') ⟨hnode, hpair.sorted, ?_, ?_, ?_⟩ rfl
  · exact fun c hc => ⟨hpair.lo_le c hc, hpair.lt_hi c hc⟩
  · exact fun k hk => hpair.get hk.1 hk.2
  · rw [hright]
    exact hy.right.regroupLab hs hn

/-- The left one of two internal nodes that were merged, with the separator between their
children. -/
theorem merge_internal {j : Nat} {Nx Ny Nx' : Node PageId} {hi : WithTop Bytes}
    (hn : Neighbours lab par x y L (j + 1) lo mid hi)
    (hx : InternalOk H lab x ⟨j + 1, lo, mid⟩ j Nx) (hy : InternalOk H lab y ⟨j + 1, mid, hi⟩ j Ny)
    (hcells : Nx'.cells = Nx.cells ++ (mid, Ny.hdr.firstChild) :: Ny.cells)
    (hfirst : Nx'.hdr.firstChild = Nx.hdr.firstChild)
    (hnode : H'.node x = some (.internal Nx')) :
    PageOk H' (regroupLab lab x y ⟨j + 1, lo, hi⟩ none)
      (regroupLab lab x y ⟨j + 1, lo, hi⟩ none) m x ⟨j + 1, lo, hi⟩ := by
  refine InternalOk.pageOk (N := Nx') ⟨hnode, ?_⟩ rfl
  have hchain : Chain lab j hi (entries lo Nx') := by
    rw [entries, hcells, hfirst, ← List.cons_append]
    exact chain_append.mpr ⟨hx.chain, hy.chain⟩
  -- the children are lower than the two
  refine hchain.congr fun z hz => ?_
  obtain ⟨k, hk⟩ := hchain.label_of_mem hz
  refine regroupLab_other ?_ ?_
  · intro e
    rw [e, hn.left] at hk
    exact absurd (congrArg Label.height (Option.some.inj hk)) (Nat.succ_ne_self j)
  · intro e
    rw [e, hn.right] at hk
    exact absurd (congrArg Label.height (Option.some.inj hk)) (Nat.succ_ne_self j)

end Shape

end KeyVDB
