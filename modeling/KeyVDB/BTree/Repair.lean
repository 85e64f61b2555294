import KeyVDB.BTree.Siblings
import KeyVDB.BTree.Splits

/-!
# The parent after a repair

`fix_underflow` works on one slot of the parent, that of the page itself, whichever sibling it takes.
That is the slot between the page and its left sibling. For the first child it is the right one as
well; for a page between two siblings whose left one cannot lend it is not.
-/

namespace KeyVDB

/-! ## What a subtree holds -/

/-- The keys in the leaves under a page. -/
inductive Heap.Holds (H : Heap) : PageId → Bytes → Prop
  | leaf {p : PageId} {n : Node Bytes} {c : Bytes × Bytes} :
      H.node p = some (.leaf n) → c ∈ n.cells → Holds H p c.1
  | child {p c : PageId} {n : Node PageId} {k : Bytes} :
      H.node p = some (.internal n) → c ∈ n.children → Holds H c k → Holds H p k

/-- A key separates what two pages hold. -/
def Heap.Separates (H : Heap) (x : PageId) (s : Bytes) (y : PageId) : Prop :=
  (∀ k, H.Holds x k → k < s) ∧ ∀ k, H.Holds y k → s ≤ k

section Holds

variable {H H' : Heap} {lab : Labels} {m : Bytes → Option Bytes} {x : PageId} {j : Nat} {k : Bytes}

theorem Heap.Holds.cell {n : Node Bytes} (hx : H.node x = some (.leaf n)) (h : H.Holds x k) :
    ∃ c ∈ n.cells, c.1 = k := by
  cases h with
  | leaf hn hc =>
    cases hx.symm.trans hn
    exact ⟨_, hc, rfl⟩
  | child hn _ _ => cases hx.symm.trans hn

theorem Heap.Holds.under {n : Node PageId} (hx : H.node x = some (.internal n)) (h : H.Holds x k) :
    ∃ c ∈ n.children, H.Holds c k := by
  cases h with
  | leaf hn _ => cases hx.symm.trans hn
  | child hn hc hk =>
    cases hx.symm.trans hn
    exact ⟨_, hc, hk⟩

/-- The pages below the height `j` are as in `H`. -/
def SameBelow (lab : Labels) (j : Nat) (H H' : Heap) : Prop :=
  ∀ {z L}, lab z = some L → L.height < j → H'.node z = H.node z

/-- A subtree holds keys of its interval only. -/
theorem Shape.mem_of_holds (hs : Shape H lab lab m) (hsame : SameBelow lab j H H')
    (hk : H'.Holds x k) {L : Label Bytes} (hx : lab x = some L) (hL : L.height < j) : L.Mem k := by
  induction hk generalizing L with
  | leaf hn hc =>
    rw [hsame hx hL] at hn
    exact (hs.leafOk hx hn).2.mem _ hc
  | child hn hc _ ih =>
    rw [hsame hx hL] at hn
    obtain ⟨i, hi, hN⟩ := hs.internalOk hx hn
    obtain ⟨key, hmem⟩ := (mem_children L.lo).mp hc
    obtain ⟨e, he, hlab⟩ := hN.chain.label_le hmem
    obtain ⟨hle, hlt⟩ := ih hlab (by rw [hi] at hL; exact Nat.lt_of_succ_lt hL)
    exact ⟨(hN.chain.mem_label hmem).1.trans hle, hlt.trans_le he⟩

/-- What a node holds whose children are among those of a chain. -/
theorem Shape.holds_chain {n : Node PageId} {hi : WithTop Bytes} {l : List (Bytes × PageId)}
    (hs : Shape H lab lab m) (hsame : SameBelow lab (j + 1) H H')
    (hx : H'.node x = some (.internal n)) (hc : Chain lab j hi l)
    (hmem : ∀ c ∈ n.children, ∃ key, (key, c) ∈ l) (hk : H'.Holds x k) :
    (∃ e ∈ l, e.1 ≤ k) ∧ (k : WithTop Bytes) < hi := by
  obtain ⟨c, hchild, hk⟩ := hk.under hx
  obtain ⟨key, hmem⟩ := hmem c hchild
  obtain ⟨top, htop, hlab⟩ := hc.label_le hmem
  obtain ⟨hle, hlt⟩ := hs.mem_of_holds hsame hk hlab (Nat.lt_succ_self j)
  exact ⟨⟨_, hmem, hle⟩, hlt.trans_le htop⟩

end Holds

/-! ## Borrowing -/

/-- What two pages hold after a steal is separated by `k`, whatever else is changed above them. -/
def Parted (lab : Labels) (h : Nat) (H : Heap) (x y : PageId) (nx ny : AnyNode) (k : Bytes) : Prop :=
  ∀ {H'}, H'.node x = some nx → H'.node y = some ny → SameBelow lab h H H' → H'.Separates x k y

section Parted

variable {H : Heap} {lab : Labels} {m : Bytes → Option Bytes} {x y : PageId} {j : Nat} {k : Bytes}

theorem parted_leaf {h : Nat} {nx ny : Node Bytes} (hlt : ∀ c ∈ nx.cells, c.1 < k)
    (hge : ∀ c ∈ ny.cells, k ≤ c.1) : Parted lab h H x y (.leaf nx) (.leaf ny) k := by
  intro H' hx hy _
  constructor
  · intro key hkey
    obtain ⟨c, hc, rfl⟩ := hkey.cell hx
    exact hlt c hc
  · intro key hkey
    obtain ⟨c, hc, rfl⟩ := hkey.cell hy
    exact hge c hc

/-- The children of the two nodes are those of two chains, one that ends at `k` and one that starts
there. -/
theorem Shape.parted_internal {nx ny : Node PageId} {hi : WithTop Bytes} {c : PageId}
    {l l' : List (Bytes × PageId)} (hs : Shape H lab lab m) (hl : Chain lab j k l)
    (hl' : Chain lab j hi ((k, c) :: l')) (hx : ∀ c ∈ nx.children, ∃ key, (key, c) ∈ l)
    (hy : ∀ d ∈ ny.children, ∃ key, (key, d) ∈ (k, c) :: l') :
    Parted lab (j + 1) H x y (.internal nx) (.internal ny) k := by
  intro H' hx' hy' hsame
  constructor
  · intro key hkey
    exact WithTop.coe_lt_coe.mp (hs.holds_chain hsame hx' hl hx hkey).2
  · intro key hkey
    obtain ⟨⟨e, he, hle⟩, -⟩ := hs.holds_chain hsame hy' hl' hy hkey
    rcases List.mem_cons.mp he with rfl | he
    · exact hle
    · exact ((Sorted.cons_iff.mp hl'.sorted).1 e he).le.trans hle

end Parted

/-- The last key of a node. -/
def AnyNode.lastKey : AnyNode → Option Bytes
  | .leaf n => (n.cells.getLast?).map Prod.fst
  | .internal n => (n.cells.getLast?).map Prod.fst

/-- The children of a node, none for a leaf. -/
def AnyNode.children : AnyNode → List PageId
  | .leaf _ => []
  | .internal n => n.children

/-- After a steal between `x` and `y` with the new separator `k`. -/
def Stolen (lab : Labels) (h : Nat) (H : Heap) (x y : PageId) (k : Bytes) (H' : Heap) : Prop :=
  ∃ nx ny, H'.node x = some nx ∧ H'.node y = some ny ∧ Parted lab h H x y nx ny k ∧
    ∀ z, z ≠ x → z ≠ y → H'.node z = H.node z

theorem stolen_put {lab : Labels} {h : Nat} {H H' : Heap} {x y : PageId} {k : Bytes}
    {nx ny : AnyNode} (hne : x ≠ y) (hparted : Parted lab h H x y nx ny k)
    (hH' : H'.node = ((H.put x nx).put y ny).node ∨ H'.node = ((H.put y ny).put x nx).node) :
    Stolen lab h H x y k H' := by
  refine ⟨nx, ny, ?_, ?_, hparted, fun z hzx hzy => ?_⟩
  · rcases hH' with e | e <;> simp [e, hne]
  · rcases hH' with e | e <;> simp [e, hne.symm]
  · rcases hH' with e | e <;> simp [e, hzx, hzy]

namespace BTree

section Steal

variable {F : FullHeap} {lab : Labels} {m : Bytes → Option Bytes} {par x y : PageId} {L : Label Bytes}
  {h : Nat} {lo mid : Bytes} {hi : WithTop Bytes}

/-- **`steal_from_left`**: the last key of the left page becomes the separator. -/
theorem ends_stealFromLeft {nx : AnyNode} (hs : Shape F.heap lab lab m)
    (hn : Neighbours lab par x y L h lo mid hi) (hx : F.heap.node x = some nx) :
    Ends fullView (stealFromLeft y x) (((F.pin par).pin x).pin y) fun k F' =>
      (nx.lastKey = some k ∧ lo ≤ k ∧ k < mid) ∧ Stolen lab h F.heap x y k F'.heap := by
  have hne := hn.ne hs
  cases h with
  | zero =>
    obtain ⟨Nx, hNx⟩ := (hs.page hn.left).leaf rfl
    obtain ⟨Ny, hNy⟩ := (hs.page hn.right).leaf rfl
    cases hx.symm.trans hNx.node
    refine (ends_stealFromLeft_leaf hne.symm (by exact hNy.node) (by exact hNx.node)
      (LeafOk.pair hs hn hNx hNy).sorted).mono ?_
    rintro k F' ⟨a, v, nl, nc, hcells, -, hheap, hnl, hnc⟩
    have hmem := hNx.mem (k, v) (by rw [hcells]; simp)
    have hk : k < mid := WithTop.coe_lt_coe.mp hmem.2
    have hsorted := hNx.sorted
    rw [hcells] at hsorted
    refine ⟨⟨by simp [AnyNode.lastKey, hcells], hmem.1, hk⟩,
      stolen_put hne (parted_leaf ?_ ?_) (Or.inl (by rw [hheap]; rfl))⟩
    · intro c hc
      exact (Sorted.append_iff.mp hsorted).2.2 c (hnl ▸ hc) (k, v) List.mem_cons_self
    · intro c hc
      rw [hnc] at hc
      rcases List.mem_cons.mp hc with rfl | hc
      · exact le_rfl
      · exact hk.le.trans (hNy.mem c hc).1
  | succ j =>
    obtain ⟨Nx, hNx⟩ := (hs.page hn.left).internal rfl
    obtain ⟨Ny, hNy⟩ := (hs.page hn.right).internal rfl
    cases hx.symm.trans hNx.node
    refine (ends_stealFromLeft_internal hne.symm (by exact hNy.node) (by exact hNx.node) ?_).mono ?_
    · intro c hc
      obtain ⟨e, -, hlab⟩ := hNx.chain.label_le (List.mem_cons_of_mem _ hc)
      exact (((hs.isLive hlab).pin par).pin x).pin y
    rintro k F' ⟨a, c, nl, nc, hcells, hheap, hnl, hfl, hnc, hfc⟩
    have hmem : (k, c) ∈ entries lo Nx := by rw [entries, hcells]; simp
    have hk : k < mid := WithTop.coe_lt_coe.mp (hNx.chain.lt_hi hmem)
    have hchain := hNx.chain
    rw [entries, hcells, ← List.cons_append] at hchain
    obtain ⟨hleft, hlast⟩ := chain_append.mp hchain
    -- the stolen child and the children that were there
    have hright : Chain lab j hi ((k, c) :: entries mid Ny) := chain_append.mpr ⟨hlast, hNy.chain⟩
    refine ⟨⟨by simp [AnyNode.lastKey, hcells], (hNx.chain.mem_label hmem).1, hk⟩,
      stolen_put hne (hs.parted_internal hleft hright ?_ ?_) (Or.inl (by rw [hheap]; rfl))⟩
    · intro d hd
      obtain ⟨key, hkey⟩ := (mem_children lo).mp hd
      rw [entries, hnl, hfl] at hkey
      exact ⟨key, hkey⟩
    · intro d hd
      obtain ⟨key, hkey⟩ := (mem_children k).mp hd
      rw [entries, hnc, hfc] at hkey
      rcases List.mem_cons.mp hkey with hkey | hkey
      · exact ⟨key, hkey ▸ List.mem_cons_self⟩
      rcases List.mem_cons.mp hkey with hkey | hkey
      · cases hkey
        exact ⟨mid, by simp [entries]⟩
      · exact ⟨key, by simp [entries, hkey]⟩

/-- **`steal_from_right`**: the separator becomes the first key that the right leaf keeps, or the key
that moved from an internal page. -/
theorem ends_stealFromRight (hs : Shape F.heap lab lab m)
    (hn : Neighbours lab par x y L h lo mid hi) :
    Ends fullView (stealFromRight x y) (((F.pin par).pin y).pin x) fun k F' =>
      (mid < k ∧ (k : WithTop Bytes) < hi) ∧ Stolen lab h F.heap x y k F'.heap := by
  have hne := hn.ne hs
  cases h with
  | zero =>
    obtain ⟨Nx, hNx⟩ := (hs.page hn.left).leaf rfl
    obtain ⟨Ny, hNy⟩ := (hs.page hn.right).leaf rfl
    refine (ends_stealFromRight_leaf hne (by exact hNx.node) (by exact hNy.node)
      (LeafOk.pair hs hn hNx hNy).sorted).mono ?_
    rintro k F' ⟨c, d, b, nr, nc, hcells, rfl, -, hheap, hnr, hnc⟩
    have hsorted := hNy.sorted
    rw [hcells] at hsorted
    obtain ⟨hfirst, hrest⟩ := Sorted.cons_iff.mp hsorted
    have hc := hNy.mem c (by rw [hcells]; exact List.mem_cons_self)
    have hd := hNy.mem d (by rw [hcells]; simp)
    have hcd : c.1 < d.1 := hfirst d List.mem_cons_self
    refine ⟨⟨hc.1.trans_lt hcd, hd.2⟩,
      stolen_put hne (parted_leaf ?_ ?_) (Or.inr (by rw [hheap]; rfl))⟩
    · intro e he
      rw [hnc] at he
      rcases List.mem_append.mp he with he | he
      · exact (WithTop.coe_lt_coe.mp (hNx.mem e he).2).trans (hc.1.trans_lt hcd)
      · rw [List.mem_singleton.mp he]
        exact hcd
    · intro e he
      rw [hnr] at he
      rcases List.mem_cons.mp he with rfl | he
      · exact le_rfl
      · exact ((Sorted.cons_iff.mp hrest).1 e he).le
  | succ j =>
    obtain ⟨Nx, hNx⟩ := (hs.page hn.left).internal rfl
    obtain ⟨Ny, hNy⟩ := (hs.page hn.right).internal rfl
    obtain ⟨e, -, hlab⟩ := hNy.chain.label_le List.mem_cons_self
    refine (ends_stealFromRight_internal hne (by exact hNx.node) (by exact hNy.node)
      ((((hs.isLive hlab).pin par).pin y).pin x) ?_).mono ?_
    · intro c hc d hd
      have hlt : c.1 < mid := WithTop.coe_lt_coe.mp (hNx.chain.lt_hi (List.mem_cons_of_mem _ hc))
      exact hlt.trans ((Sorted.cons_iff.mp hNy.chain.sorted).1 d hd)
    rintro k F' ⟨c, b, nr, nc, hcells, hheap, hnr, hfr, hnc, hfc⟩
    have hchain := hNy.chain
    rw [entries, hcells] at hchain
    obtain ⟨hfirst, hmk, hrest⟩ := hchain
    -- the children that were there and the stolen one
    have hleft : Chain lab j k (entries lo Nx ++ [(mid, Ny.hdr.firstChild)]) :=
      chain_append.mpr ⟨hNx.chain, hfirst, hmk, trivial⟩
    refine ⟨⟨WithTop.coe_lt_coe.mp hmk, hrest.lt_hi List.mem_cons_self⟩,
      stolen_put hne (hs.parted_internal hleft hrest ?_ ?_) (Or.inr (by rw [hheap]; rfl))⟩
    · intro d hd
      obtain ⟨key, hkey⟩ := (mem_children lo).mp hd
      rw [entries, hnc, hfc, ← List.cons_append] at hkey
      rcases List.mem_append.mp hkey with hkey | hkey
      · exact ⟨key, List.mem_append_left _ hkey⟩
      · cases List.mem_singleton.mp hkey
        exact ⟨mid, by simp⟩
    · intro d hd
      obtain ⟨key, hkey⟩ := (mem_children k).mp hd
      rw [entries, hnr, hfr] at hkey
      exact ⟨key, hkey⟩

/-- The cells of a node whose separator in the slot after `u` is replaced. -/
def replacedCells (u b : List (Bytes × PageId)) (old k : Bytes) (child : PageId) :
    List (Bytes × PageId) :=
  if old.length = k.length then u ++ (k, child) :: b
  else (u ++ b).insertIdx (lowerBound (u ++ b) k) (k, child)

/-- After a loan between `x` and `y` the separator `old` of `child`, in the slot after `u`, is
replaced by one that separates the two. -/
def LoanAt (F' : FullHeap) (par : PageId) (N : Node PageId) (x y : PageId) (u : List (Bytes × PageId))
    (old : Bytes) (child : PageId) (b : List (Bytes × PageId)) (R : Bytes → Prop) : Prop :=
  ∃ k N', R k ∧ F'.heap.node par = some (.internal N') ∧
    N'.hdr.firstChild = N.hdr.firstChild ∧ N'.cells = replacedCells u b old k child ∧
    F'.heap.Separates x k y

/-- **A sibling lends a cell**, and the separator in the slot after `u` is replaced. -/
theorem ends_lend {steal : PageId → PageId → BTreeM Store Bytes} {cur sib child : PageId}
    {old : Bytes} {n : AnyNode} {N : Node PageId} {u b : List (Bytes × PageId)} {R : Bytes → Prop}
    (cond : String) (hn : Neighbours lab par x y L h lo mid hi) (hlive : F.heap.Live sib)
    (hsib : F.heap.node sib = some n) (hlend : n.underflow = false)
    (hN : F.heap.node par = some (.internal N)) (hcells : N.cells = u ++ (old, child) :: b)
    (hsteal : Ends fullView (steal cur sib) (((F.pin par).pin sib).pin cur) fun k F' =>
      R k ∧ Stolen lab h F.heap x y k F'.heap) :
    Ends fullView (borrow steal par par cur sib u.length cond) (F.pin par) fun r F' =>
      true = r ∧ LoanAt F' par N x y u old child b R := by
  refine (ends_borrow (N := N) cond hlive.ne_invalid (by exact hsib) hlend hsteal ?_).mono ?_
  · rintro k F' ⟨-, nx, ny, -, -, -, hother⟩
    rw [hother par hn.parent_ne_left hn.parent_ne_right, hN]
  · rintro r F' ⟨rfl, k, F₁, parent, n', ⟨hR, nx, ny, hx, hy, hparted, hother⟩, rfl, hreplace, hnode⟩
    obtain ⟨-, hhdr, hcells'⟩ := replaceSeparator_eq (n := parent) hcells hreplace
    refine ⟨rfl, k, n'.bare, hR, by rw [hnode, Heap.put_node_self], ?_, hcells', ?_⟩
    · rw [Node.bare_firstChild, hhdr, Node.bare_firstChild]
    · refine hparted ?_ ?_ ?_
      · rw [hnode, Heap.put_node_of_ne _ _ hn.parent_ne_left.symm, hx]
      · rw [hnode, Heap.put_node_of_ne _ _ hn.parent_ne_right.symm, hy]
      · -- the pages below the two are others
        intro z Lz hz hLz
        rw [hnode, Heap.put_node_of_ne, hother]
        · rintro rfl
          cases hz.symm.trans hn.left
          exact lt_irrefl _ hLz
        · rintro rfl
          cases hz.symm.trans hn.right
          exact lt_irrefl _ hLz
        · rintro rfl
          cases hz.symm.trans hn.parent
          rw [hn.height] at hLz
          exact absurd hLz (by omega)

end Steal

/-! ## Merging -/

section Merge

variable {F : FullHeap} {lab : Labels} {m : Bytes → Option Bytes} {par x y : PageId} {L : Label Bytes}
  {h : Nat} {lo mid : Bytes} {hi : WithTop Bytes}

/-- The node that two nodes and the separator between them are merged into. -/
inductive PulledDown (sep : Bytes) : AnyNode → AnyNode → AnyNode → Prop
  | leaf {x y n : Node Bytes} : n.cells = x.cells ++ y.cells →
      PulledDown sep (.leaf x) (.leaf y) (.leaf n)
  | internal {x y n : Node PageId} :
      n.cells = x.cells ++ (sep, y.hdr.firstChild) :: y.cells →
      n.hdr.firstChild = x.hdr.firstChild →
      PulledDown sep (.internal x) (.internal y) (.internal n)

theorem PulledDown.child {sep : Bytes} {nx ny n : AnyNode} (h : PulledDown sep nx ny n) {c : PageId}
    (hc : c ∈ n.children) : c ∈ nx.children ∨ c ∈ ny.children := by
  cases h with
  | leaf _ => cases hc
  | internal hcells hfirst =>
    simp only [AnyNode.children, Node.children, hcells, hfirst, List.map_append, List.map_cons] at hc ⊢
    rcases List.mem_cons.mp hc with rfl | hc
    · exact Or.inl List.mem_cons_self
    rcases List.mem_append.mp hc with hc | hc
    · exact Or.inl (List.mem_cons_of_mem _ hc)
    · exact Or.inr hc

/-- What `merge_from` leaves of the two pages, with the separator between them. -/
structure MergedInto (F F₁ : FullHeap) (x : PageId) (sep : Bytes) (nx ny n : AnyNode) : Prop where
  cells : PulledDown sep nx ny n
  left : F₁.left = F.left
  parent : F₁.parent = fun z => if z ∈ ny.children then x else F.parent z
  page : ∀ l, n = .leaf l → ∀ r, ny = .leaf r → l.hdr.rightSibling = r.hdr.rightSibling

theorem ends_mergeFrom {nx ny : AnyNode} (sep : Bytes) (hs : Shape F.heap lab lab m)
    (hn : Neighbours lab par x y L h lo mid hi) (hx : F.heap.node x = some nx)
    (hy : F.heap.node y = some ny) :
    Ends fullView (mergeFrom x y sep) (((F.pin par).pin x).pin y) fun _ F' =>
      ∃ F₁ n, F' = ((F₁.pin par).pin x).pin y ∧ F₁.heap = F.heap.put x n ∧
        (sep = mid → MergedInto F F₁ x mid nx ny n) ∧ Relinks (F.heap.put x n) n := by
  cases h with
  | zero =>
    obtain ⟨Nx, hNx⟩ := (hs.page hn.left).leaf rfl
    obtain ⟨Ny, hNy⟩ := (hs.page hn.right).leaf rfl
    cases hx.symm.trans hNx.node
    cases hy.symm.trans hNy.node
    refine (ends_mergeFrom_leaf sep (by exact hNx.node) (by exact hNy.node)
      (LeafOk.pair hs hn hNx hNy).sorted).mono ?_
    rintro _ _ ⟨n, rfl, hcells, hright⟩
    refine ⟨F.rewrite x (.leaf n), .leaf n, rfl, rfl, fun _ => ⟨.leaf hcells, rfl, ?_, ?_⟩, ?_⟩
    · funext z
      exact (if_neg List.not_mem_nil).symm
    · rintro _ ⟨⟩ _ ⟨⟩
      exact hright
    · rw [Relinks, hright]
      exact (hs.right_live hNy.right).imp_right fun hlive => hlive.put _ _
  | succ j =>
    obtain ⟨Nx, hNx⟩ := (hs.page hn.left).internal rfl
    obtain ⟨Ny, hNy⟩ := (hs.page hn.right).internal rfl
    cases hx.symm.trans hNx.node
    cases hy.symm.trans hNy.node
    refine (ends_mergeFrom_internal sep (by exact hNx.node) (by exact hNy.node) ?_).mono ?_
    · intro c hc
      obtain ⟨Lc, hlab⟩ := hs.child_seen hn.right hNy.node hc
      exact (((hs.isLive hlab).pin par).pin x).pin y
    rintro _ F' ⟨n, hheap, hfacts⟩
    refine ⟨{ F' with heap := F.heap.put x (.internal n) }, .internal n, ?_, rfl, ?_, trivial⟩
    · exact FullHeap.ext hheap rfl rfl rfl
    · rintro rfl
      have hsorted : Sorted (Nx.cells ++ (sep, Ny.hdr.firstChild) :: Ny.cells) := by
        have hall : Chain lab j hi (entries lo Nx ++ entries sep Ny) :=
          chain_append.mpr ⟨hNx.chain, hNy.chain⟩
        exact (Sorted.cons_iff.mp hall.sorted).2
      obtain ⟨hcells, hfirst, hleft, hparent⟩ := hfacts hsorted
      exact ⟨.internal hcells hfirst, hleft, hparent, fun l hl => by cases hl⟩

/-- After a merge of `x` and `y` the slot after `u` is gone; if its separator was the one between the
two it was pulled down. -/
def MergeAt (F F' : FullHeap) (par : PageId) (N : Node PageId) (x y : PageId)
    (u : List (Bytes × PageId)) (sep mid : Bytes) : Prop :=
  ∃ F₁ nx ny n, F.heap.node x = some nx ∧ F.heap.node y = some ny ∧
    (sep = mid → MergedInto F F₁ x mid nx ny n) ∧
    F' = ((relinked F₁ x n).rewrite par (.internal (N.removeCell u.length))).release y ∧
    F'.heap = mergedHeap F.heap par x y n (N.removeCell u.length)

theorem ends_mergeAt {N : Node PageId} {u b : List (Bytes × PageId)} {sep : Bytes} {child : PageId}
    (hs : Shape F.heap lab lab m) (hn : Neighbours lab par x y L h lo mid hi)
    (hN : F.heap.node par = some (.internal N)) (hcells : N.cells = u ++ (sep, child) :: b) :
    Ends fullView (mergeSiblings par par x y u.length) (F.pin par) fun _ F' =>
      MergeAt F F' par N x y u sep mid := by
  obtain ⟨nx, hx⟩ := Option.isSome_iff_exists.mp (hs.isLive hn.left).isSome
  obtain ⟨ny, hy⟩ := Option.isSome_iff_exists.mp (hs.isLive hn.right).isSome
  refine (ends_mergeSiblings (hs.isLive hn.right).pos hn.parent_ne_left hN hcells
    (ends_mergeFrom sep hs hn hx hy) fun F₁ n hP => hP.2).mono ?_
  rintro _ F' ⟨F₁, n, ⟨hm, -⟩, hfull, hheap⟩
  exact ⟨F₁, nx, ny, n, hx, hy, hm, hfull, hheap⟩

/-- The merged page has the label of the two. -/
theorem MergedInto.pageOk {F₁ : FullHeap} {H' : Heap} {nx ny n : AnyNode}
    (hm : MergedInto F F₁ x mid nx ny n) (hs : Shape F.heap lab lab m)
    (hn : Neighbours lab par x y L h lo mid hi) (hx : F.heap.node x = some nx)
    (hy : F.heap.node y = some ny) (hnode : H'.node x = some n) :
    PageOk H' (regroupLab lab x y ⟨h, lo, hi⟩ none) (regroupLab lab x y ⟨h, lo, hi⟩ none) m x
      ⟨h, lo, hi⟩ := by
  have hcells := hm.cells
  cases h with
  | zero =>
    obtain ⟨Nx, hNx⟩ := (hs.page hn.left).leaf rfl
    obtain ⟨Ny, hNy⟩ := (hs.page hn.right).leaf rfl
    cases hx.symm.trans hNx.node
    cases hy.symm.trans hNy.node
    cases hcells with
    | @leaf _ _ n hcells => exact Shape.merge_leaf hs hn hNx hNy hcells (hm.page n rfl Ny rfl) hnode
  | succ j =>
    obtain ⟨Nx, hNx⟩ := (hs.page hn.left).internal rfl
    obtain ⟨Ny, hNy⟩ := (hs.page hn.right).internal rfl
    cases hx.symm.trans hNx.node
    cases hy.symm.trans hNy.node
    cases hcells with
    | internal hcells hfirst => exact Shape.merge_internal hn hNx hNy hcells hfirst hnode

theorem relinked_parent (F : FullHeap) (x : PageId) (n : AnyNode) :
    (relinked F x n).parent = F.parent := by
  cases n with
  | leaf n => exact FullHeap.setLeftIfAny_parent F x
  | internal n => rfl

end Merge

end BTree

/-- The parent ids of the pages with labels, and the left sibling ids of the leaves. -/
structure BackLinks (F : FullHeap) (lab : Labels) : Prop where
  parent : ∀ {p L N}, lab p = some L → F.heap.node p = some (.internal N) →
    ∀ c ∈ N.children, F.parent c = p
  root : F.parent F.heap.root = INVALID_PAGE_ID
  left : ∀ {p lo hi}, lab p = some ⟨0, lo, hi⟩ → LeftOk lab lo (F.left p)

namespace BTree

/-- The pages form a search tree, with the right parents and left siblings. -/
def SearchTree (t : BTree Store) : Prop :=
  ∃ lab m, Shape (view t) lab lab m ∧ BackLinks (fullView t) lab

/-- The page is not in the tree, and no page of the tree has it as its parent or its sibling. -/
structure Unreferenced (t : BTree Store) (y : PageId) : Prop where
  tree : ¬ InTree t y
  parent : ∀ {p}, InTree t p → (t.store.pages p).hdr.parentId ≠ y
  siblings : ∀ {p} {n : Node Bytes}, InTree t p →
    t.store.pages p = { pageId := p, data := .leaf n } →
    n.hdr.leftSibling ≠ y ∧ n.hdr.rightSibling ≠ y

section Unreferenced

variable {t t' : BTree Store} {F₁ : FullHeap} {lab : Labels} {m : Bytes → Option Bytes}
  {par x y : PageId} {L : Label Bytes} {h : Nat} {N : Node PageId} {lo mid : Bytes}
  {u b : List (Bytes × PageId)} {nx ny n : AnyNode}

/-- No leaf has the merged page on its left. -/
theorem left_ne_of_merge {hi : WithTop Bytes} (hs : Shape (view t) lab lab m)
    (hl : BackLinks (fullView t) lab) (hn : Neighbours lab par x y L h lo mid hi)
    (hy : (view t).node y = some ny) (hm : MergedInto (fullView t) F₁ x mid nx ny n) {p : PageId}
    {lo' : Bytes} {hi' : WithTop Bytes} (hp : lab p = some ⟨0, lo', hi'⟩) :
    (relinked F₁ x n).left p ≠ y := by
  have hlive := hs.isLive hn.right
  have hold : (fullView t).left p = y → h = 0 ∧ (lo' : WithTop Bytes) = hi := by
    intro e
    have hleft := hl.left hp
    rw [e] at hleft
    by_cases hlo : lo' = []
    · exact (hlive.ne_invalid (hleft.first hlo)).elim
    · obtain ⟨lo'', hlab⟩ := hleft.prev hlo
      cases hn.right.symm.trans hlab
      exact ⟨rfl, rfl⟩
  have hcells := hm.cells
  cases n with
  | internal n =>
    rw [relinked, hm.left]
    intro e
    obtain ⟨rfl, -⟩ := hold e
    obtain ⟨Ny, hNy⟩ := (hs.page hn.right).leaf rfl
    cases hy.symm.trans hNy.node
    cases hcells
  | leaf n =>
    by_cases hpr : p = n.hdr.rightSibling
    · rw [relinked, ← hpr, FullHeap.setLeftIfAny_left_self _ _ (hs.isLive hp).ne_invalid]
      exact hn.ne hs
    · rw [relinked, FullHeap.setLeftIfAny_left_of_ne _ _ hpr, hm.left]
      intro e
      obtain ⟨rfl, hhi⟩ := hold e
      obtain ⟨Ny, hNy⟩ := (hs.page hn.right).leaf rfl
      cases hy.symm.trans hNy.node
      -- the page on the right of `y` starts where `y` ends
      obtain ⟨hi'', hlab⟩ := hNy.right.next lo' hhi.symm
      refine hpr ?_
      rw [hm.page n rfl Ny rfl]
      exact hs.apart hp hlab rfl (hs.proper hp).mem (hs.proper hlab).mem

/-- No page of the tree has the merged page as its parent, except for the children it had. -/
theorem parent_ne_of_merge (hs : Shape (view t) lab lab m) (hl : BackLinks (fullView t) lab)
    (hpar : lab par = some L) (hN : InternalOk (view t) lab par L h N)
    (hn : Neighbours lab par x y L h lo mid (nextKey L.hi b))
    (hx : (view t).node x = some nx) (hm : MergedInto (fullView t) F₁ x mid nx ny n)
    (hheap : view t' = mergedHeap (view t) par x y n (N.removeCell u.length))
    (hshape : Shape (view t') (regroupLab lab x y ⟨h, lo, nextKey L.hi b⟩ none)
      (regroupLab lab x y ⟨h, lo, nextKey L.hi b⟩ none) m) {p : PageId} (hp : InTree t' p)
    (hchild : p ∉ ny.children) : (fullView t).parent p ≠ y := by
  have hne := hn.ne hs
  cases hp with
  | root =>
    have hroot : t'.rootPageId = t.rootPageId := congrArg Heap.root hheap
    have hinv : (fullView t).parent t.rootPageId = INVALID_PAGE_ID := hl.root
    rw [hroot, hinv]
    exact (hs.isLive hn.right).ne_invalid.symm
  | @child q _ k hq hpage hc =>
    obtain ⟨Lq, hLq⟩ := hq.label hshape
    have hnode := node_of_page hpage
    have hc : p ∈ k.bare.children := hc
    rw [hheap, mergedHeap] at hnode
    rcases regroupLab_cases hLq with ⟨-, hnone⟩ | ⟨-, rfl, -⟩ | ⟨hqy, hqx, hlab⟩
    · cases hnone
    · -- a child of the merged page
      rw [Heap.release_node_of_ne _ hne, Heap.put_node_of_ne _ _ hn.parent_ne_left.symm,
        Heap.put_node_self] at hnode
      cases hnode
      have hleft := (hm.cells.child hc).resolve_right hchild
      cases nx with
      | leaf _ => cases hleft
      | internal Nx =>
        rw [hl.parent hn.left hx p hleft]
        exact hne
    · rw [Heap.release_node_of_ne _ hqy] at hnode
      by_cases hqpar : q = par
      · subst hqpar
        rw [Heap.put_node_self] at hnode
        rw [← AnyNode.internal.inj (Option.some.inj hnode)] at hc
        have hold : p ∈ N.children := by
          rcases List.mem_cons.mp hc with rfl | hc
          · exact List.mem_cons_self
          · obtain ⟨e, he, rfl⟩ := List.mem_map.mp hc
            exact List.mem_cons_of_mem _ (List.mem_map_of_mem (List.mem_of_mem_eraseIdx he))
        rw [hl.parent hpar hN.node p hold]
        exact hn.parent_ne_right
      · rw [Heap.put_node_of_ne _ _ hqpar, Heap.put_node_of_ne _ _ hqx] at hnode
        rw [hl.parent hlab hnode p hc]
        exact hqy

/-- **After a merge on the right slot** the right page is not referenced any more. -/
theorem unreferenced_of_merge (hs : Shape (view t) lab lab m) (hl : BackLinks (fullView t) lab)
    (hpar : lab par = some L) (hL : L.height = h + 1) (hN : InternalOk (view t) lab par L h N)
    (ha : Adjacent N L x y lo mid u b) (hx : (view t).node x = some nx)
    (hy : (view t).node y = some ny) (hm : MergedInto (fullView t) F₁ x mid nx ny n)
    (hfull : fullView t' =
      ((relinked F₁ x n).rewrite par (.internal (N.removeCell u.length))).release y)
    (hheap : view t' = mergedHeap (view t) par x y n (N.removeCell u.length)) :
    Unreferenced t' y := by
  have hn := hN.neighbours hpar hL ha
  have hne := hn.ne hs
  have hcells : (N.removeCell u.length).cells = u ++ b := by
    rw [Node.removeCell_cells, ha.cells, eraseIdx_append_cons]
  have hnode : (view t').node x = some n := by
    rw [hheap, mergedHeap, Heap.release_node_of_ne _ hne,
      Heap.put_node_of_ne _ _ hn.parent_ne_left.symm, Heap.put_node_self]
  have hshape : Shape (view t') (regroupLab lab x y ⟨h, lo, nextKey L.hi b⟩ none)
      (regroupLab lab x y ⟨h, lo, nextKey L.hi b⟩ none) m := by
    have hpage := hm.pageOk hs hn hx hy hnode
    rw [hheap] at hpage ⊢
    exact hs.merge hpar hL hN ha hcells rfl hpage
  have hnone : regroupLab lab x y ⟨h, lo, nextKey L.hi b⟩ none y = none := regroupLab_right
  have hlive := hs.isLive hn.right
  have htree : ¬ InTree t' y := by
    intro hin
    obtain ⟨L', hL'⟩ := hin.label hshape
    rw [hnone] at hL'
    cases hL'
  have hother : ∀ {p}, InTree t' p → p ≠ y := by
    rintro p hp rfl
    exact htree hp
  have hparents : ∀ {p}, p ≠ y → (t'.store.pages p).hdr.parentId = F₁.parent p := by
    intro p hp
    have e := congrFun (congrArg FullHeap.parent hfull) p
    rw [FullHeap.release_parent, Function.update_of_ne hp, FullHeap.rewrite_parent,
      relinked_parent] at e
    exact e
  refine ⟨htree, fun {p} hp => ?_, ?_⟩
  · rw [hparents (hother hp), hm.parent]
    dsimp only
    split
    · exact hne
    · next hchild => exact parent_ne_of_merge hs hl hpar hN hn hx hm hheap hshape hp hchild
  · intro p l hp hpage
    obtain ⟨L', hL'⟩ := hp.label hshape
    obtain ⟨hzero, hleaf⟩ := hshape.leafOk hL' (N := l.bare) (by
      change (t'.store.pages p).node p = _
      rw [hpage]
      exact Page.node_mk (.leaf l))
    constructor
    · have e := congrFun (congrArg FullHeap.left hfull) p
      rw [FullHeap.release_left, Function.update_of_ne (hother hp), FullHeap.rewrite_left] at e
      have hleft : (fullView t').left p = l.hdr.leftSibling := by
        change (t'.store.pages p).hdr.leftSibling = _
        rw [hpage]
        rfl
      rw [← hleft, e]
      rcases regroupLab_cases hL' with ⟨-, hnone'⟩ | ⟨-, rfl, rfl⟩ | ⟨-, -, hlab⟩
      · cases hnone'
      · cases hzero
        exact left_ne_of_merge hs hl hn hy hm hn.left
      · obtain ⟨_, lo', hi'⟩ := L'
        cases hzero
        exact left_ne_of_merge hs hl hn hy hm hlab
    · intro e
      rcases hleaf.right.label with hinv | ⟨Lr, hr⟩
      · rw [Node.bare_rightSibling, e] at hinv
        exact hlive.ne_invalid hinv
      · rw [Node.bare_rightSibling, e, hnone] at hr
        cases hr

end Unreferenced

/-! ## One level -/

/-- `x` and `y` are adjacent children of a node, with the separator `sep` after the slots `u`. -/
structure Adjoining (N : Node PageId) (x y : PageId) (u : List (Bytes × PageId)) (sep : Bytes)
    (b : List (Bytes × PageId)) : Prop where
  cells : N.cells = u ++ (sep, y) :: b
  left : ((u.getLast?).map Prod.snd).getD N.hdr.firstChild = x

/-- The parent fits the two pages that were repaired: after a loan it has the same children, and the
separator between the two is a new one that separates what they hold; after a merge the right one is
gone with the separator before it. -/
def Consistent (t t' : BTree Store) (par : PageId) (N : Node PageId) : Repaired → Prop
  | .borrowed x y => ∃ u old b new N', Adjoining N x y u old b ∧
      (view t').node par = some (.internal N') ∧ N'.hdr.firstChild = N.hdr.firstChild ∧
      N'.cells = u ++ (new, y) :: b ∧ (view t').Separates x new y
  | .merged x y _ _ => ∃ u sep b N' nx ny n, Adjoining N x y u sep b ∧
      (view t').node par = some (.internal N') ∧ N'.hdr.firstChild = N.hdr.firstChild ∧
      N'.cells = u ++ b ∧ (view t).node x = some nx ∧ (view t).node y = some ny ∧
      (view t').node x = some n ∧ PulledDown sep nx ny n ∧ y ∈ t'.store.freePages ∧
      Unreferenced t' y
  | .alone => False

/-- A new separator for a slot keeps the place of the old one: it is not among the separators before
it, or it has the same length and is written over the old one. -/
def KeepsPlace (N : Node PageId) (slot : Nat) (k : Bytes) : Prop :=
  (N.cells[slot]?).any (fun c => c.1.length = k.length) ∨ ∀ c ∈ N.cells.take slot, c.1 ≠ k

/-- The slot of the page is the one between the two pages that are repaired: the page is the first
child, or the left sibling lends a key that can be the separator, or there is no right sibling. -/
def SlotOk (H : Heap) (N : Node PageId) (p : PageId) : Prop :=
  match position N p with
  | .error _ => False
  | .ok pos => pos.leftSib = INVALID_PAGE_ID ∨
    match H.node pos.leftSib with
    | none => False
    | some left =>
      if left.underflow then pos.rightSib = INVALID_PAGE_ID
      else ∀ k ∈ left.lastKey, KeepsPlace N pos.sepSlot k

instance decidableKeepsPlace (N : Node PageId) (slot : Nat) (k : Bytes) :
    Decidable (KeepsPlace N slot k) :=
  inferInstanceAs (Decidable (_ ∨ ∀ c ∈ N.cells.take slot, c.1 ≠ k))

instance decidableSlotOk (H : Heap) (N : Node PageId) (p : PageId) : Decidable (SlotOk H N p) := by
  unfold SlotOk
  split
  · infer_instance
  · have : ∀ pos : Position, Decidable (match H.node pos.leftSib with
        | none => False
        | some left =>
          if left.underflow then pos.rightSib = INVALID_PAGE_ID
          else ∀ k ∈ left.lastKey, KeepsPlace N pos.sepSlot k) := by
      intro pos
      split
      · infer_instance
      · infer_instance
    infer_instance

section Level

variable {t t' : BTree Store} {F F' : FullHeap} {lab : Labels} {m : Bytes → Option Bytes}
  {par p x y : PageId} {L : Label Bytes} {h : Nat} {N : Node PageId} {lo mid k : Bytes}
  {u b : List (Bytes × PageId)}

/-- A child has one slot in its parent. -/
theorem slot_unique {H : Heap} {u' b' : List (Bytes × PageId)} (hN : InternalOk H lab par L h N)
    (hcells : N.cells = u ++ (mid, y) :: b) (hcells' : N.cells = u' ++ (k, y) :: b') :
    u = u' ∧ mid = k ∧ b = b' := by
  have hsame : ((mid, y) : Bytes × PageId) = (k, y) := by
    refine hN.chain.eq_of_child_eq ?_ ?_ rfl
    · rw [entries, hcells]
      simp
    · rw [entries, hcells']
      simp
  cases hsame
  have hsorted := (Sorted.cons_iff.mp hN.chain.sorted).2
  rw [hcells] at hsorted
  obtain ⟨hu, hb⟩ := hsorted.slot_unique (hcells ▸ hcells')
  exact ⟨hu, rfl, hb⟩

/-- A separator beyond those before it and below those after it stands in its slot. -/
theorem replacedCells_eq (old : Bytes) (y : PageId) (hgt : ∀ c ∈ b, k < c.1)
    (hlt : old.length = k.length ∨ ∀ c ∈ u, c.1 < k) :
    replacedCells u b old k y = u ++ (k, y) :: b := by
  unfold replacedCells
  split
  · rfl
  · next hlen =>
    have hcut : Cut u b k := ⟨hlt.resolve_left hlen, fun c hc => (hgt c hc).le⟩
    rw [hcut.lowerBound, insertIdx_append]

theorem mem_replacedCells (u b : List (Bytes × PageId)) (old k : Bytes) (c : PageId) :
    (k, c) ∈ replacedCells u b old k c := by
  unfold replacedCells
  split
  · simp
  · exact (List.mem_insertIdx (lowerBound_le _ _)).mpr (Or.inl rfl)

/-- The first child is repaired through its right sibling. -/
theorem ends_fixSiblings_first (hs : Shape F.heap lab lab m) (hpar : lab par = some L)
    (hL : L.height = h + 1) (hN : InternalOk F.heap lab par L h N) (hfirst : N.hdr.firstChild = p)
    (hcells : N.cells = (mid, y) :: b) :
    Ends fullView (fixSiblings p par) F fun r F' =>
      (r = .borrowed p y ∧
        LoanAt F' par N p y [] mid y b fun k => mid < k ∧ (k : WithTop Bytes) < nextKey L.hi b) ∨
      (∃ parent root, r = .merged p y parent root) ∧ MergeAt F F' par N p y [] mid mid := by
  have hn := hN.neighbours hpar hL (hfirst ▸ Adjacent.of_first hcells)
  have hlive := hs.isLive hn.right
  obtain ⟨ny, hny⟩ := Option.isSome_iff_exists.mp hlive.isSome
  refine (ends_fetch _).seqVal ?_
  refine (ends_internalNode (N := N) (by exact hN.node)).bind ?_
  rintro parent _ ⟨rfl, -, -, rfl⟩
  refine Ends.ofExcept.bind ?_
  rintro pos _ ⟨hpos, rfl⟩
  cases hpos.symm.trans (position_first (N := parent) hfirst hcells)
  refine (ends_borrow_skip stealFromLeft 0 _ (Or.inl rfl)).bind ?_
  rintro _ _ ⟨rfl, rfl⟩
  rw [if_neg Bool.false_ne_true]
  dsimp only
  by_cases hunder : ny.underflow = true
  · refine (ends_borrow_skip stealFromRight 0 _ (Or.inr ⟨ny, by exact hny, hunder⟩)).bind ?_
    rintro _ _ ⟨rfl, rfl⟩
    rw [if_neg Bool.false_ne_true, if_pos hlive.ne_invalid]
    refine (ends_mergeAt (u := []) hs hn hN.node hcells).bind ?_
    intro r F' hmerge
    exact .pure (Or.inr ⟨⟨r.1, r.2, rfl⟩, hmerge⟩)
  · refine (ends_lend (u := []) _ hn hlive hny (Bool.eq_false_iff.mpr hunder) hN.node hcells
      (ends_stealFromRight hs hn)).bind ?_
    rintro _ F' ⟨rfl, hloan⟩
    rw [if_pos rfl]
    exact .pure (Or.inl ⟨rfl, hloan⟩)

/-- How a later child `p` was repaired, with the left sibling `x` and its node `nl`: where the right
sibling is taken the slot is still that of the page. -/
inductive LaterRepair (F F' : FullHeap) (par : PageId) (L : Label Bytes) (N : Node PageId)
    (x p : PageId) (a : List (Bytes × PageId)) (lo : Bytes) (nl : AnyNode) :
    List (Bytes × PageId) → Repaired → Prop
  | lent {b : List (Bytes × PageId)} : nl.underflow = false →
      (LoanAt F' par N x p a lo p b fun k =>
        nl.lastKey = some k ∧ ((a.getLast?).map Prod.fst).getD L.lo ≤ k ∧ k < lo) →
      LaterRepair F F' par L N x p a lo nl b (.borrowed x p)
  | merged {parent : Node PageId} {root : PageId} : nl.underflow = true →
      MergeAt F F' par N x p a lo lo → LaterRepair F F' par L N x p a lo nl [] (.merged x p parent root)
  | lentRight {c : Bytes × PageId} {b : List (Bytes × PageId)} : nl.underflow = true →
      (LoanAt F' par N p c.2 a lo p (c :: b) fun k => c.1 < k ∧ (k : WithTop Bytes) < nextKey L.hi b) →
      LaterRepair F F' par L N x p a lo nl (c :: b) (.borrowed p c.2)
  | mergedRight {c : Bytes × PageId} {b : List (Bytes × PageId)} {parent : Node PageId}
      {root : PageId} : nl.underflow = true → MergeAt F F' par N p c.2 a lo c.1 →
      LaterRepair F F' par L N x p a lo nl (c :: b) (.merged p c.2 parent root)

/-- The position of a later child. -/
theorem position_of_adjoining {H : Heap} {a : List (Bytes × PageId)}
    (hN : InternalOk H lab par L h N) (hadj : Adjoining N x p a lo b) :
    position N p = .ok
      { sepSlot := a.length, leftSib := x
        rightSib := ((b.head?).map Prod.snd).getD INVALID_PAGE_ID } := by
  have hchain := hN.chain
  rw [entries, hadj.cells, ← List.cons_append] at hchain
  have hother : ∀ c ∈ (L.lo, N.hdr.firstChild) :: a, c.2 ≠ p := fun c hc =>
    hchain.child_ne hc (y := (lo, p)) List.mem_cons_self
  rw [position_later (hother _ List.mem_cons_self) hadj.cells fun c hc =>
    hother c (List.mem_cons_of_mem _ hc), hadj.left]

theorem Adjoining.adjacent {a : List (Bytes × PageId)} (hadj : Adjoining N x p a lo b) :
    Adjacent N L x p (((a.getLast?).map Prod.fst).getD L.lo) lo a b :=
  hadj.left ▸ Adjacent.of_later hadj.cells

/-- The page and its right sibling. -/
theorem Adjoining.adjacent_right {a : List (Bytes × PageId)} {c : Bytes × PageId}
    (hadj : Adjoining N x p a lo (c :: b)) : Adjacent N L p c.2 lo c.1 (a ++ [(lo, p)]) b := by
  refine ⟨?_, (L.lo, N.hdr.firstChild) :: a, rfl⟩
  rw [hadj.cells]
  simp

theorem ends_fixSiblings_later {a : List (Bytes × PageId)} {nl : AnyNode}
    (hs : Shape F.heap lab lab m) (hpar : lab par = some L) (hL : L.height = h + 1)
    (hN : InternalOk F.heap lab par L h N) (hadj : Adjoining N x p a lo b)
    (hnl : F.heap.node x = some nl) :
    Ends fullView (fixSiblings p par) F fun r F' => LaterRepair F F' par L N x p a lo nl b r := by
  have hn := hN.neighbours hpar hL hadj.adjacent
  have hlive := hs.isLive hn.left
  have hpos := position_of_adjoining hN hadj
  have hcells := hadj.cells
  refine (ends_fetch _).seqVal ?_
  refine (ends_internalNode (N := N) (by exact hN.node)).bind ?_
  rintro parent _ ⟨rfl, -, -, rfl⟩
  refine Ends.ofExcept.bind ?_
  rintro pos _ ⟨hpos', rfl⟩
  cases hpos'.symm.trans (show position parent p = _ from hpos)
  dsimp only
  by_cases hunder : nl.underflow = true
  · refine (ends_borrow_skip stealFromLeft _ _ (Or.inr ⟨nl, by exact hnl, hunder⟩)).bind ?_
    rintro _ _ ⟨rfl, rfl⟩
    rw [if_neg Bool.false_ne_true]
    cases b with
    | nil =>
      refine (ends_borrow_skip stealFromRight _ _ (Or.inl rfl)).bind ?_
      rintro _ _ ⟨rfl, rfl⟩
      have hslot := leftMergeSlot_eq hN hcells
      rw [hadj.left] at hslot
      rw [if_neg Bool.false_ne_true, if_neg (by simp), if_pos hlive.ne_invalid,
        ← leftMergeSlot_bare, hslot]
      refine (ends_mergeAt hs hn hN.node hcells).bind ?_
      intro r F' hmerge
      exact .pure (.merged hunder hmerge)
    | cons c b =>
      have hn' := hN.neighbours hpar hL hadj.adjacent_right
      have hlive' := hs.isLive hn'.right
      obtain ⟨nr, hnr⟩ := Option.isSome_iff_exists.mp hlive'.isSome
      by_cases hunder' : nr.underflow = true
      · refine (ends_borrow_skip stealFromRight _ _ (Or.inr ⟨nr, by exact hnr, hunder'⟩)).bind ?_
        rintro _ _ ⟨rfl, rfl⟩
        rw [if_neg Bool.false_ne_true, if_pos (by exact hlive'.ne_invalid)]
        refine (ends_mergeAt hs hn' hN.node hcells).bind ?_
        intro r F' hmerge
        exact .pure (.mergedRight hunder hmerge)
      · refine (ends_lend _ hn' hlive' hnr (Bool.eq_false_iff.mpr hunder') hN.node hcells
          (ends_stealFromRight hs hn')).bind ?_
        rintro _ F' ⟨rfl, hloan⟩
        rw [if_pos rfl]
        exact .pure (.lentRight hunder hloan)
  · have hlend := Bool.eq_false_iff.mpr hunder
    refine (ends_lend _ hn hlive hnl hlend hN.node hcells (ends_stealFromLeft hs hn hnl)).bind ?_
    rintro _ F' ⟨rfl, hloan⟩
    rw [if_pos rfl]
    exact .pure (.lent hlend hloan)

/-! ## The parent -/

/-- A loan on the right slot, with a separator that keeps the place. -/
theorem consistent_borrowed {N' : Node PageId} (hadj : Adjoining N x y u mid b)
    (hnode : (view t').node par = some (.internal N')) (hfirst : N'.hdr.firstChild = N.hdr.firstChild)
    (hcells : N'.cells = replacedCells u b mid k y) (hsep : (view t').Separates x k y)
    (hgt : ∀ c ∈ b, k < c.1) (hlt : mid.length = k.length ∨ ∀ c ∈ u, c.1 < k) :
    Consistent t t' par N (.borrowed x y) := by
  rw [replacedCells_eq mid y hgt hlt] at hcells
  exact ⟨u, mid, b, k, N', hadj, hnode, hfirst, hcells, hsep⟩

/-- A merge on the right slot. -/
theorem consistent_merged {parent : Node PageId} {root : PageId} (hs : Shape (view t) lab lab m)
    (hl : BackLinks (fullView t) lab) (hpar : lab par = some L) (hL : L.height = h + 1)
    (hN : InternalOk (view t) lab par L h N) (hadj : Adjoining N x y u mid b)
    (hmerge : MergeAt (fullView t) (fullView t') par N x y u mid mid) :
    Consistent t t' par N (.merged x y parent root) := by
  obtain ⟨F₁, nx, ny, n, hx, hy, hm, hfull, hheap⟩ := hmerge
  have hm := hm rfl
  have hheap : view t' = mergedHeap (view t) par x y n (N.removeCell u.length) := hheap
  have hn := hN.neighbours hpar hL hadj.adjacent
  refine ⟨u, mid, b, N.removeCell u.length, nx, ny, n, hadj, ?_, rfl, ?_, hx, hy, ?_, hm.cells, ?_,
    unreferenced_of_merge hs hl hpar hL hN hadj.adjacent hx hy hm hfull hheap⟩
  · rw [hheap, mergedHeap, Heap.release_node_of_ne _ hn.parent_ne_right, Heap.put_node_self]
  · rw [Node.removeCell_cells, hadj.cells, eraseIdx_append_cons]
  · rw [hheap, mergedHeap, Heap.release_node_of_ne _ (hn.ne hs),
      Heap.put_node_of_ne _ _ hn.parent_ne_left.symm, Heap.put_node_self]
  · have hfree : t'.store.freePages = (view t).freePages ++ [y] := congrArg Heap.freePages hheap
    rw [hfree]
    simp

/-- A loan from the right sibling on the slot of the page itself: the page gets a separator beyond
that of its sibling. -/
theorem not_consistent_lentRight {a : List (Bytes × PageId)} {c : Bytes × PageId} {N' : Node PageId}
    (hN : InternalOk (view t) lab par L h N) (hadj : Adjoining N x p a lo (c :: b))
    (hnode : (view t').node par = some (.internal N'))
    (hcells : N'.cells = replacedCells a (c :: b) lo k p) (hk : c.1 < k) :
    ¬ Consistent t t' par N (.borrowed p c.2) := by
  rintro ⟨u', old, b', new, N'', hadj', hnode', -, hcells', -⟩
  cases hnode.symm.trans hnode'
  have hsplit : N.cells = (a ++ [(lo, p)]) ++ (c.1, c.2) :: b := by rw [hadj.cells]; simp
  obtain ⟨rfl, -, rfl⟩ := slot_unique hN hsplit hadj'.cells
  have hsorted := (Sorted.cons_iff.mp hN.chain.sorted).2
  rw [hsplit] at hsorted
  have hlo : lo < c.1 := hsorted.at_slot.1 (lo, p) (by simp)
  have hp : (lo, p) ∈ entries L.lo N := List.mem_cons_of_mem _ (by rw [hsplit]; simp)
  have hne : p ≠ c.2 := by
    intro e
    have hc : c ∈ entries L.lo N := List.mem_cons_of_mem _ (by rw [hsplit]; simp)
    exact hlo.ne (congrArg Prod.fst (hN.chain.eq_of_child_eq hp hc e))
  have hmem := mem_replacedCells a (c :: b) lo k p
  rw [← hcells, hcells'] at hmem
  have hold : (k, p) ∈ N.cells := by
    rw [hsplit]
    rcases List.mem_append.mp hmem with hmem | hmem
    · exact List.mem_append_left _ hmem
    rcases List.mem_cons.mp hmem with hmem | hmem
    · exact (hne (congrArg Prod.snd hmem)).elim
    · exact List.mem_append_right _ (List.mem_cons_of_mem _ hmem)
  have hsame := hN.chain.eq_of_child_eq (List.mem_cons_of_mem _ hold) hp rfl
  exact absurd (congrArg Prod.fst hsame) (hlo.trans hk).ne'

/-- A merge with the right sibling on the slot of the page itself: the freed page is still there. -/
theorem not_consistent_mergedRight {a : List (Bytes × PageId)} {c : Bytes × PageId}
    {parent : Node PageId} {root : PageId} (hN : InternalOk (view t) lab par L h N)
    (hadj : Adjoining N x p a lo (c :: b))
    (hnode : (view t').node par = some (.internal (N.removeCell a.length))) :
    ¬ Consistent t t' par N (.merged p c.2 parent root) := by
  rintro ⟨u', sep, b', N'', nx, ny, n, hadj', hnode', -, hcells', -⟩
  cases hnode.symm.trans hnode'
  have hsplit : N.cells = (a ++ [(lo, p)]) ++ (c.1, c.2) :: b := by rw [hadj.cells]; simp
  obtain ⟨rfl, -, rfl⟩ := slot_unique hN hsplit hadj'.cells
  have hsorted := (Sorted.cons_iff.mp hN.chain.sorted).2
  rw [hsplit] at hsorted
  have hlo : lo < c.1 := hsorted.at_slot.1 (lo, p) (by simp)
  rw [Node.removeCell_cells, hadj.cells, eraseIdx_append_cons, List.append_assoc] at hcells'
  have hc := (List.cons.inj (List.append_cancel_left hcells')).1
  rw [hc] at hlo
  exact lt_irrefl _ hlo

/-- A separator that was written into the slot of the page is beyond those before it, unless it was
written over the old one. -/
theorem lt_of_replacedCells {a : List (Bytes × PageId)} {new : Bytes}
    (hsorted : Sorted (a ++ (lo, p) :: b)) (hother : ∀ c ∈ a ++ b, c.2 ≠ p)
    (h : replacedCells a b lo k p = a ++ (new, p) :: b) : lo.length = k.length ∨ ∀ c ∈ a, c.1 < k := by
  unfold replacedCells at h
  split at h
  · next hlen => exact Or.inl hlen
  · obtain ⟨a', b', hab, hcut⟩ := hsorted.remove.cut k
    rw [hab, hcut.lowerBound, insertIdx_append] at h
    -- only one cell of the two lists has the child `p`
    have ha : a' = a := by
      rcases List.append_eq_append_iff.mp h with ⟨c, ha, hb⟩ | ⟨c, ha, hb⟩
      · cases c with
        | nil => rw [ha, List.append_nil]
        | cons y c =>
          have hy := (List.cons.inj hb).1
          exact absurd (congrArg Prod.snd hy).symm (hother y (by rw [ha]; simp))
      · cases c with
        | nil => rw [ha, List.append_nil]
        | cons y c =>
          have hy := (List.cons.inj hb).1
          exact absurd (congrArg Prod.snd hy).symm (hother y (by rw [hab, ha]; simp))
    exact Or.inr (ha ▸ hcut.lt)

/-- A loan from the left sibling: the new separator must keep the place of the old one. -/
theorem consistent_lent_iff {a : List (Bytes × PageId)} {N' : Node PageId}
    (hN : InternalOk (view t) lab par L h N) (hadj : Adjoining N x p a lo b)
    (hnode : (view t').node par = some (.internal N')) (hfirst : N'.hdr.firstChild = N.hdr.firstChild)
    (hcells : N'.cells = replacedCells a b lo k p) (hsep : (view t').Separates x k p)
    (hlow : ((a.getLast?).map Prod.fst).getD L.lo ≤ k) (hk : k < lo) :
    Consistent t t' par N (.borrowed x p) ↔ KeepsPlace N a.length k := by
  have hchain := hN.chain
  rw [entries, hadj.cells] at hchain
  have hsorted := (Sorted.cons_iff.mp hchain.sorted).2
  obtain ⟨hlt, hgt⟩ := hsorted.at_slot
  have hkeeps : KeepsPlace N a.length k ↔ lo.length = k.length ∨ ∀ c ∈ a, c.1 ≠ k := by
    rw [KeepsPlace, hadj.cells, List.getElem?_append_right le_rfl, Nat.sub_self, List.take_left]
    simp
  rw [hkeeps]
  constructor
  · rintro ⟨u', old, b', new, N'', hadj', hnode', -, hcells', -⟩
    cases hnode.symm.trans hnode'
    obtain ⟨rfl, -, rfl⟩ := slot_unique hN hadj.cells hadj'.cells
    have hother : ∀ c ∈ a ++ b, c.2 ≠ p := by
      intro c hc e
      have hmem : c ∈ a ++ (lo, p) :: b :=
        (List.Sublist.append_left (List.sublist_cons_self (lo, p) b) a).subset hc
      have hsame := hchain.eq_of_child_eq (List.mem_cons_of_mem _ hmem) (y := (lo, p)) (by simp) e
      rw [hsame] at hc
      rcases List.mem_append.mp hc with hc | hc
      · exact lt_irrefl _ (hlt _ hc)
      · exact lt_irrefl _ (hgt _ hc)
    exact (lt_of_replacedCells hsorted hother (hcells.symm.trans hcells')).imp_right
      fun h c hc => (h c hc).ne
  · intro hplace
    refine consistent_borrowed hadj hnode hfirst hcells hsep (fun c hc => hk.trans (hgt c hc)) ?_
    refine hplace.imp_right fun hne c hc => lt_of_le_of_ne ?_ (hne c hc)
    -- the last separator before the page is where the left sibling starts
    rcases List.eq_nil_or_concat a with rfl | ⟨a, e, rfl⟩
    · cases hc
    · rw [List.concat_eq_append] at hc hsorted hlow
      rw [List.getLast?_concat] at hlow
      refine le_trans ?_ hlow
      rcases List.mem_append.mp hc with hc | hc
      · exact ((Sorted.append_iff.mp (Sorted.append_iff.mp hsorted).1).2.2 c hc e
          List.mem_cons_self).le
      · rw [List.mem_singleton.mp hc]
        exact le_rfl

/-- A parent without separators has no sibling to look for. -/
theorem ends_fixSiblings_only (hN : F.heap.node par = some (.internal N))
    (hfirst : N.hdr.firstChild = p) (hcells : N.cells = []) :
    Ends fullView (fixSiblings p par) F fun _ _ => False := by
  refine (ends_fetch _).seqVal ?_
  refine (ends_internalNode (N := N) (by exact hN)).bind ?_
  rintro parent _ ⟨rfl, -, -, rfl⟩
  refine Ends.ofExcept.bind ?_
  rintro pos _ ⟨hpos, -⟩
  obtain ⟨e, he⟩ := position_first_error (N := parent) hfirst hcells
  cases hpos.symm.trans he

/-- The first child. -/
theorem consistent_first {r : Repaired} {c : Bytes × PageId} (hs : Shape (view t) lab lab m)
    (hl : BackLinks (fullView t) lab) (hpar : lab par = some L) (hL : L.height = h + 1)
    (hN : InternalOk (view t) lab par L h N) (hfirst : N.hdr.firstChild = p)
    (hcells : N.cells = c :: b) (hexec : exec (fixSiblings p par) t = (.ok r, t')) :
    Consistent t t' par N r := by
  have hadj : Adjoining N p c.2 [] c.1 b := ⟨hcells, hfirst⟩
  rcases ends_fixSiblings_first hs hpar hL hN hfirst hcells t r t' rfl hexec with
    ⟨rfl, k, N', ⟨hk, hhi⟩, hnode, hfc, hcells', hsep⟩ | ⟨⟨parent, root, rfl⟩, hmerge⟩
  · have hlo : L.lo < c.1 := (Sorted.cons_iff.mp hN.chain.sorted).1 c (by rw [hcells]; simp)
    have hgt := (hN.around hadj.adjacent (hlo.trans hk) hhi).2
    exact consistent_borrowed hadj hnode hfc hcells' hsep hgt (Or.inr nofun)
  · exact consistent_merged hs hl hpar hL hN hadj hmerge

/-- A later child. -/
theorem consistent_later_iff {r : Repaired} {a : List (Bytes × PageId)} {nl : AnyNode}
    (hs : Shape (view t) lab lab m) (hl : BackLinks (fullView t) lab) (hpar : lab par = some L)
    (hL : L.height = h + 1) (hN : InternalOk (view t) lab par L h N) (hadj : Adjoining N x p a lo b)
    (hnl : (view t).node x = some nl) (hexec : exec (fixSiblings p par) t = (.ok r, t')) :
    Consistent t t' par N r ↔
      if nl.underflow then ((b.head?).map Prod.snd).getD INVALID_PAGE_ID = INVALID_PAGE_ID
      else ∀ k ∈ nl.lastKey, KeepsPlace N a.length k := by
  have hrepair := ends_fixSiblings_later hs hpar hL hN hadj hnl t r t' rfl hexec
  cases hrepair with
  | lent hlend hloan =>
    obtain ⟨k, N', ⟨hlast, hlow, hk⟩, hnode, hfc, hcells', hsep⟩ := hloan
    rw [consistent_lent_iff hN hadj hnode hfc hcells' hsep hlow hk, hlast]
    simp [hlend]
  | merged hunder hmerge =>
    rw [if_pos hunder]
    exact iff_of_true (consistent_merged hs hl hpar hL hN hadj hmerge) rfl
  | @lentRight c b hunder hloan =>
    obtain ⟨k, N', ⟨hk, -⟩, hnode, -, hcells', -⟩ := hloan
    have hn := hN.neighbours hpar hL hadj.adjacent_right
    rw [if_pos hunder]
    exact iff_of_false (not_consistent_lentRight hN hadj hnode hcells' hk)
      (hs.isLive hn.right).ne_invalid
  | @mergedRight c b _ _ hunder hmerge =>
    obtain ⟨F₁, nx, ny, n, -, -, -, -, hheap⟩ := hmerge
    have hheap : view t' = mergedHeap (view t) par p c.2 n (N.removeCell a.length) := hheap
    have hn := hN.neighbours hpar hL hadj.adjacent_right
    rw [if_pos hunder]
    refine iff_of_false (not_consistent_mergedRight hN hadj ?_) (hs.isLive hn.right).ne_invalid
    rw [hheap, mergedHeap, Heap.release_node_of_ne _ hn.parent_ne_right, Heap.put_node_self]

/-- **The parent after one level of `fix_underflow`** fits the repaired pages exactly if the slot of
the page is the one between them. -/
theorem fixUnderflow_consistent_iff (breadcrumbs : List PageId) (ht : SearchTree t)
    (hpar : InTree t par) (hN : (view t).node par = some (.internal N)) (hp : p ∈ N.children) :
    fixUnderflow (σ := Store) p (par :: breadcrumbs) =
        fixSiblings p par >>= fixAbove par breadcrumbs ∧
      ∀ r t', exec (fixSiblings p par) t = (.ok r, t') →
        (Consistent t t' par N r ↔ SlotOk (view t) N p) := by
  refine ⟨fixUnderflow_cons p par breadcrumbs, fun r t' hexec => ?_⟩
  obtain ⟨lab, m, hs, hl⟩ := ht
  obtain ⟨L, hL⟩ := hpar.label hs
  obtain ⟨h, hh, hok⟩ := hs.internalOk hL hN
  obtain ⟨key, hmem⟩ := (mem_children L.lo).mp hp
  rcases List.mem_cons.mp hmem with hfirst | hmem
  · have hfirst : N.hdr.firstChild = p := (congrArg Prod.snd hfirst).symm
    cases hcells : N.cells with
    | nil => exact (ends_fixSiblings_only hN hfirst hcells t r t' rfl hexec).elim
    | cons c b =>
      refine iff_of_true (consistent_first hs hl hL hh hok hfirst hcells hexec) ?_
      rw [SlotOk, position_first hfirst hcells]
      exact Or.inl rfl
  · obtain ⟨a, b, hcells⟩ := List.append_of_mem hmem
    have hadj : Adjoining N (((a.getLast?).map Prod.snd).getD N.hdr.firstChild) p a key b :=
      ⟨hcells, rfl⟩
    have hlive := hs.isLive (hok.neighbours hL hh hadj.adjacent).left
    obtain ⟨nl, hnl⟩ := Option.isSome_iff_exists.mp hlive.isSome
    rw [consistent_later_iff hs hl hL hh hok hadj hnl hexec, SlotOk, position_of_adjoining hok hadj]
    dsimp only
    rw [hnl]
    exact (or_iff_right hlive.ne_invalid).symm

end Level

/-! ## A parent that keeps a freed page -/

/-- The tree where `fix_underflow` is called in a removal that follows a run from an empty file. -/
def atCall (ops : List TreeOp) (key : Bytes) : Option (BTree Store) :=
  (run calmStep (exec create { store := Store.init }).2 ops).bind fun t =>
    (callStep t key).map Prod.fst

theorem searchTree_atCall {ops : List TreeOp} {key : Bytes} {t : BTree Store}
    (h : atCall ops key = some t) : SearchTree t := by
  obtain ⟨t₁, hrun, hcall⟩ := Option.bind_eq_some_iff.mp h
  obtain ⟨⟨t', p, path⟩, hstep, rfl⟩ := Option.map_eq_some_iff.mp hcall
  obtain ⟨found, hexec⟩ := callStep_eq_some hstep
  have hcreate := exec_eq_of_isOk (x := create) (s := { store := Store.init }) (by decide +kernel)
  obtain ⟨m, lab, hs, hl⟩ := resting_of_run poolOk_init hcreate hrun
  obtain ⟨⟨m', hs'⟩, hl', -⟩ := ends_removeFromLeaf hs hl t₁ _ t' rfl hexec
  exact ⟨lab, m', hs', hl'.parent, hl'.root, hl'.left⟩

/-- Five keys with values of 1500 bytes, the largest first: the leaves are 1 and 2, then 3, 4 and 5
each on its own. -/
def descending : List TreeOp := [5, 4, 3, 2, 1].map fun k => .insert [k] (List.replicate 1500 0)

/-- The two pages of a merge. -/
def mergedIds : Except Exn Repaired → Option (PageId × PageId)
  | .ok (.merged left right _ _) => some (left, right)
  | _ => none

theorem exec_of_mergedIds {t : BTree Store} {x : BTreeM Store Repaired} {left right : PageId}
    (h : mergedIds (exec x t).1 = some (left, right)) :
    ∃ parent root, exec x t = (.ok (.merged left right parent root), (exec x t).2) := by
  unfold mergedIds at h
  split at h
  · next parent root hexec =>
    cases h
    exact ⟨parent, root, Prod.ext hexec rfl⟩
  · cases h

/-- The key 4 is removed: its page is merged with the one on the right, which is then free and still
a child of the root, while the page itself is not. -/
theorem not_consistent_descending :
    ¬ ∀ (t t' : BTree Store) (par p : PageId) (N : Node PageId) (r : Repaired), SearchTree t →
      InTree t par → (view t).node par = some (.internal N) → p ∈ N.children →
      exec (fixSiblings p par) t = (.ok r, t') → Consistent t t' par N r := by
  intro h
  have hcheck : (atCall descending [4]).map (fun t => (childIds t t.rootPageId,
      mergedIds (exec (fixSiblings 4 t.rootPageId) t).1,
      childIds (exec (fixSiblings 4 t.rootPageId) t).2
        (exec (fixSiblings 4 t.rootPageId) t).2.rootPageId)) =
      some (some [1, 5, 4, 2], some (4, 2), some [1, 5, 2]) := by decide +kernel
  obtain ⟨t, hcall, ht⟩ := Option.map_eq_some_iff.mp hcheck
  simp only [Prod.mk.injEq] at ht
  obtain ⟨hids, hmerged, hids'⟩ := ht
  obtain ⟨n, hpage, hchildren⟩ := page_of_childIds hids
  obtain ⟨n', hpage', hchildren'⟩ := page_of_childIds hids'
  obtain ⟨parent, root, hexec⟩ := exec_of_mergedIds hmerged
  have hchild : 4 ∈ n.bare.children := by
    change 4 ∈ n.children
    rw [hchildren]
    decide
  obtain ⟨u, sep, b, N', nx, ny, n₁, -, -, -, -, -, -, -, -, -, hunref⟩ := h t _ _ 4 n.bare _
    (searchTree_atCall hcall) .root (node_of_page hpage) hchild hexec
  refine hunref.tree (.child .root hpage' ?_)
  rw [hchildren']
  decide

/-- Whether the condition on the slot of a child of the root holds. -/
def slotOkAtRoot (t : BTree Store) (p : PageId) : Bool :=
  match (view t).node t.rootPageId with
  | some (.internal N) => SlotOk (view t) N p
  | _ => false

/-- The key 5 is removed: its page is the last one, and is merged into the one on its left. -/
theorem fixUnderflow_consistent_iff_descending :
    ∃ t t' N parent root, SearchTree t ∧
      exec (fixSiblings 2 t.rootPageId) t = (.ok (.merged 4 2 parent root), t') ∧
      SlotOk (view t) N 2 ∧ Consistent t t' t.rootPageId N (.merged 4 2 parent root) := by
  have hcheck : (atCall descending [5]).map (fun t => (childIds t t.rootPageId,
      mergedIds (exec (fixSiblings 2 t.rootPageId) t).1, slotOkAtRoot t 2)) =
      some (some [1, 5, 4, 2], some (4, 2), true) := by decide +kernel
  obtain ⟨t, hcall, ht⟩ := Option.map_eq_some_iff.mp hcheck
  simp only [Prod.mk.injEq] at ht
  obtain ⟨hids, hmerged, hslot⟩ := ht
  obtain ⟨n, hpage, hchildren⟩ := page_of_childIds hids
  obtain ⟨parent, root, hexec⟩ := exec_of_mergedIds hmerged
  have hchild : 2 ∈ n.bare.children := by
    change 2 ∈ n.children
    rw [hchildren]
    decide
  have hslot : SlotOk (view t) n.bare 2 := by
    unfold slotOkAtRoot at hslot
    rw [node_of_page hpage] at hslot
    exact of_decide_eq_true hslot
  have hiff := (fixUnderflow_consistent_iff [] (searchTree_atCall hcall) .root (node_of_page hpage)
    hchild).2 _ _ hexec
  exact ⟨t, _, n.bare, parent, root, searchTree_atCall hcall, hexec, hslot, hiff.mpr hslot⟩

end BTree

end KeyVDB
