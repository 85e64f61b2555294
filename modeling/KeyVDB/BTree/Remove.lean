import KeyVDB.BTree.Neighbours

/-!
# Removal

`remove` takes the key out of its leaf; a page that underflows borrows from a sibling or is merged
with one, and a merge takes a separator out of the parent. `RemoveOk` says, on the heap before the
call, which of these repairs go right: leaves borrow, internal nodes are merged, and a page between
two siblings is repaired only through a left sibling that can lend.
-/

namespace KeyVDB

/-! ## When a repair goes right -/

namespace Heap

/-- The key from which the page below a path starts. -/
def lowerKey (H : Heap) (key : Bytes) : List PageId → Bytes
  | [] => []
  | p :: path =>
    match H.node p with
    | some (.internal n) =>
      match (n.cells.filter fun c => c.1 ≤ key).getLast? with
      | some c => c.1
      | none => H.lowerKey key path
    | _ => []

/-- The key from which the left sibling of the page in a slot starts. -/
def leftLow (H : Heap) (key : Bytes) (parent : Node PageId) (path : List PageId) : Nat → Bytes
  | 0 => H.lowerKey key path
  | slot + 1 => ((parent.cells[slot]?).map Prod.fst).getD []

/-- A leaf can borrow the last cell of its left sibling: the sibling, which starts at `lo`, keeps a
range of keys, the cell fits, and so does the new separator. -/
def StealLeftOk (lo : Bytes) (parent : Node PageId) (slot : Nat) : AnyNode → AnyNode → Prop
  | .leaf left, .leaf cur =>
    match left.cells.getLast? with
    | some (k, v) => lo < k ∧ Room cur.cells (k, v) ∧ SepRoom (parent.cells.eraseIdx slot) k
    | none => False
  | _, _ => False

/-- A leaf can borrow the first cell of its right sibling: the sibling has another one, the cell
fits, and so does the new separator. -/
def StealRightOk (parent : Node PageId) (slot : Nat) : AnyNode → AnyNode → Prop
  | .leaf cur, .leaf right =>
    match right.cells with
    | (k, v) :: (k', _) :: _ => Room cur.cells (k, v) ∧ SepRoom (parent.cells.eraseIdx slot) k'
    | _ => False
  | _, _ => False

theorem StealLeftOk.cases {lo : Bytes} {parent : Node PageId} {slot : Nat} {left cur : AnyNode}
    (h : StealLeftOk lo parent slot left cur) :
    ∃ Nl Nc a k v, left = .leaf Nl ∧ cur = .leaf Nc ∧ Nl.cells = a ++ [(k, v)] ∧ lo < k ∧
      Room Nc.cells (k, v) ∧ SepRoom (parent.cells.eraseIdx slot) k := by
  unfold StealLeftOk at h
  split at h
  · next Nl Nc =>
    rcases List.eq_nil_or_concat Nl.cells with hnil | ⟨a, c, hcells⟩
    · rw [hnil] at h
      exact h.elim
    · rw [List.concat_eq_append] at hcells
      rw [hcells, List.getLast?_concat] at h
      exact ⟨Nl, Nc, a, c.1, c.2, rfl, rfl, hcells, h⟩
  · exact h.elim

theorem StealRightOk.cases {parent : Node PageId} {slot : Nat} {cur right : AnyNode}
    (h : StealRightOk parent slot cur right) :
    ∃ Nc Nr k v d b, cur = .leaf Nc ∧ right = .leaf Nr ∧ Nr.cells = (k, v) :: d :: b ∧
      Room Nc.cells (k, v) ∧ SepRoom (parent.cells.eraseIdx slot) d.1 := by
  unfold StealRightOk at h
  split at h
  · next Nc Nr =>
    split at h
    · next k v k' v' b hcells => exact ⟨Nc, Nr, k, v, (k', v'), b, rfl, rfl, hcells, h⟩
    · exact h.elim
  · exact h.elim

/-- Two nodes can be merged: internal ones have room for the separator as well. -/
def MergeOk (sep : Bytes) : AnyNode → AnyNode → Prop
  | .leaf _, .leaf _ => True
  | .internal left, .internal right =>
    cellsCost (left.cells ++ (sep, right.hdr.firstChild) :: right.cells) ≤ NODE_USABLE_SIZE
  | _, _ => False

/-- How `fix_underflow` repairs a node. -/
inductive Repair
  | fromLeft (left : AnyNode)
  | fromRight (right : AnyNode)
  | merge (left right : AnyNode)

/-- The repair for a node at a position, where the slot it uses is the right one. -/
def repair (H : Heap) (cur : AnyNode) (pos : BTree.Position) : Option Repair :=
  if pos.leftSib = INVALID_PAGE_ID then
    (H.node pos.rightSib).map fun right =>
      if right.underflow then .merge cur right else .fromRight right
  else
    (H.node pos.leftSib).bind fun left =>
      if left.underflow then
        if pos.rightSib = INVALID_PAGE_ID then some (.merge left cur) else none
      else some (.fromLeft left)

/-- The underflow of `cur`, now `n`, can be repaired, when `freed` pages were freed before. -/
def FixOk (H : Heap) (key : Bytes) : Nat → PageId → AnyNode → List PageId → Prop
  | _, _, _, [] => True
  | freed, cur, n, par :: path =>
    match H.node par with
    | some (.internal parent) =>
      match BTree.position parent cur with
      | .ok pos =>
        match H.repair n pos with
        | some (.fromLeft left) =>
          StealLeftOk (H.leftLow key parent path pos.sepSlot) parent pos.sepSlot left n
        | some (.fromRight right) => StealRightOk parent pos.sepSlot n right
        | some (.merge left right) =>
          MergeOk (((parent.cells[pos.sepSlot]?).map Prod.fst).getD []) left right ∧
          H.freePages.length + freed < MAX_FREE_PAGES ∧
          if (parent.removeCell pos.sepSlot).underflow ∧ par ≠ H.root then
            H.FixOk key (freed + 1) par (.internal (parent.removeCell pos.sepSlot)) path
          else
            (parent.removeCell pos.sepSlot).numKeys = 0 → par = H.root →
              H.freePages.length + freed + 1 < MAX_FREE_PAGES
        | none => False
      | .error _ => False
    | _ => False

/-- The removal of a key needs no repair, or one that goes right. -/
def RemoveOk (H : Heap) (key : Bytes) : Prop :=
  match H.findLeaf key with
  | some (p, path) =>
    match H.node p with
    | some (.leaf n) =>
      (n.cells[lowerBound n.cells key]?).any (fun c => c.1 = key) →
      (n.removeCell (lowerBound n.cells key)).underflow → p ≠ H.root →
        H.FixOk key 0 p (.leaf (n.removeCell (lowerBound n.cells key))) path
    | _ => False
  | none => False

instance (lo : Bytes) (parent : Node PageId) (slot : Nat) (left cur : AnyNode) :
    Decidable (StealLeftOk lo parent slot left cur) := by
  unfold StealLeftOk
  split
  · split
    · infer_instance
    · infer_instance
  · infer_instance

instance (parent : Node PageId) (slot : Nat) (cur right : AnyNode) :
    Decidable (StealRightOk parent slot cur right) := by
  unfold StealRightOk
  split
  · split
    · infer_instance
    · infer_instance
  · infer_instance

instance (sep : Bytes) (left right : AnyNode) : Decidable (MergeOk sep left right) := by
  unfold MergeOk
  split
  · infer_instance
  · infer_instance
  · infer_instance

instance decidableFixOk (H : Heap) (key : Bytes) : (freed : Nat) → (cur : PageId) → (n : AnyNode) →
    (path : List PageId) → Decidable (H.FixOk key freed cur n path)
  | _, _, _, [] => instDecidableTrue
  | freed, cur, n, par :: path => by
    have hdec := fun n => decidableFixOk H key (freed + 1) par n path
    unfold FixOk
    split
    · split
      · split
        · infer_instance
        · infer_instance
        · infer_instance
        · infer_instance
      · infer_instance
    · infer_instance

instance (H : Heap) (key : Bytes) : Decidable (H.RemoveOk key) :=
  match hfind : H.findLeaf key with
  | some (p, path) =>
    match hnode : H.node p with
    | some (.leaf n) =>
      decidable_of_iff
        ((n.cells[lowerBound n.cells key]?).any (fun c => c.1 = key) →
          (n.removeCell (lowerBound n.cells key)).underflow → p ≠ H.root →
            H.FixOk key 0 p (.leaf (n.removeCell (lowerBound n.cells key))) path)
        (by simp only [RemoveOk, hfind, hnode])
    | some (.internal _) => isFalse (by simp only [RemoveOk, hfind, hnode, not_false_eq_true])
    | none => isFalse (by simp only [RemoveOk, hfind, hnode, not_false_eq_true])
  | none => isFalse (by simp only [RemoveOk, hfind, not_false_eq_true])

end Heap

/-! ## Where a page starts -/

theorem Shape.lowerKey_eq {H : Heap} {lab : Labels} {m : Bytes → Option Bytes} {p : PageId}
    {L : Label Bytes} {key : Bytes} {path : List PageId} (hs : Shape H lab lab m)
    (hp : lab p = some L) (hkey : L.Mem key) (hpath : Path lab key (L.height + 1) path)
    (hroot : lab H.root = some ⟨L.height + path.length, [], ⊤⟩) : H.lowerKey key path = L.lo := by
  induction path generalizing p L with
  | nil =>
    have hpr : p = H.root := hs.apart hp hroot rfl hkey ⟨nil_le_bytes _, WithTop.coe_lt_top _⟩
    rw [← hpr, hp] at hroot
    exact (congrArg Label.lo (Option.some.inj hroot)).symm
  | cons par path ih =>
    obtain ⟨⟨L', hpar, hL', hkey'⟩, hpath⟩ := hpath
    obtain ⟨N, hN⟩ := (hs.page hpar).internal hL'
    obtain ⟨a, b, hab, hgt⟩ := hs.entry_of_mem hp hkey hN hkey'
    have hb : b.filter (fun c => decide (c.1 ≤ key)) = [] :=
      List.filter_eq_nil_iff.mpr fun c hc => by simpa using hgt c hc
    rw [Heap.lowerKey, hN.node]
    dsimp only
    cases a with
    | nil =>
      obtain ⟨hx, hcells⟩ := List.cons.inj hab
      rw [hcells, hb, List.getLast?_nil]
      dsimp only
      rw [ih hpar hkey' (by rw [hL']; exact hpath) ?_]
      · exact congrArg Prod.fst hx
      · rw [hroot, hL', List.length_cons]
        congr 2
        omega
    | cons e a =>
      rw [List.cons_append, entries] at hab
      obtain ⟨-, hcells⟩ := List.cons.inj hab
      have hlast : (N.cells.filter fun c => decide (c.1 ≤ key)).getLast? = some (L.lo, p) := by
        rw [hcells, List.filter_append, List.filter_cons_of_pos (by simpa using hkey.1), hb]
        simp
      rw [hlast]

/-! ## What a page is -/

namespace Shape

variable {H : Heap} {lab : Labels} {m : Bytes → Option Bytes} {p : PageId} {L : Label Bytes}

theorem leafOk {N : Node Bytes} (hs : Shape H lab lab m) (hp : lab p = some L)
    (hn : H.node p = some (.leaf N)) : L.height = 0 ∧ LeafOk H lab m p L N := by
  cases hL : L.height with
  | zero =>
    obtain ⟨N', hN⟩ := (hs.page hp).leaf hL
    rw [hN.node] at hn
    cases hn
    exact ⟨rfl, hN⟩
  | succ j =>
    obtain ⟨N', hN⟩ := (hs.page hp).internal hL
    rw [hN.node] at hn
    cases hn

theorem internalOk {N : Node PageId} (hs : Shape H lab lab m) (hp : lab p = some L)
    (hn : H.node p = some (.internal N)) : ∃ j, L.height = j + 1 ∧ InternalOk H lab p L j N := by
  cases hL : L.height with
  | zero =>
    obtain ⟨N', hN⟩ := (hs.page hp).leaf hL
    rw [hN.node] at hn
    cases hn
  | succ j =>
    obtain ⟨N', hN⟩ := (hs.page hp).internal hL
    rw [hN.node] at hn
    cases hn
    exact ⟨j, rfl, hN⟩

theorem right_live {hi : WithTop Bytes} {r : PageId} (hs : Shape H lab lab m)
    (hr : RightOk lab hi r) : r = INVALID_PAGE_ID ∨ H.Live r := by
  refine hr.label.imp_right ?_
  rintro ⟨Lr, hlabel⟩
  exact hs.isLive hlabel

end Shape

/-! ## Where a page stands in its parent -/

namespace BTree

section Position

variable {N : Node PageId} {p : PageId}

theorem position_first {c : Bytes × PageId} {b : List (Bytes × PageId)}
    (hfirst : N.hdr.firstChild = p) (hcells : N.cells = c :: b) :
    position N p = .ok { sepSlot := 0, leftSib := INVALID_PAGE_ID, rightSib := c.2 } := by
  have hval : N.valueAt 0 = .ok c.2 := Node.valueAt_middle (a := []) hcells
  rw [position, if_pos hfirst, hval]
  rfl

theorem position_first_error (hfirst : N.hdr.firstChild = p) (hcells : N.cells = []) :
    ∃ e, position N p = .error e := by
  rw [position, if_pos hfirst, Node.valueAt, hcells]
  exact ⟨_, rfl⟩

theorem position_later {k : Bytes} {a b : List (Bytes × PageId)} (hfirst : N.hdr.firstChild ≠ p)
    (hcells : N.cells = a ++ (k, p) :: b) (ha : ∀ c ∈ a, c.2 ≠ p) :
    position N p = .ok
      { sepSlot := a.length
        leftSib := ((a.getLast?).map Prod.snd).getD N.hdr.firstChild
        rightSib := ((b.head?).map Prod.snd).getD INVALID_PAGE_ID } := by
  have hfind : N.cells.findIdx? (fun c => decide (c.2 = p)) = some a.length := by
    rw [hcells, List.findIdx?_append, List.findIdx?_eq_none_iff.mpr (by simpa using ha)]
    simp [List.findIdx?_cons]
  have hright : N.cells[a.length + 1]? = b.head? := by
    rw [hcells, List.getElem?_append_right (by omega)]
    simp [List.head?_eq_getElem?]
  rw [position, if_neg hfirst, hfind]
  simp only [hright, Except.ok.injEq, Position.mk.injEq, true_and, and_true]
  rcases List.eq_nil_or_concat a with rfl | ⟨a, x, rfl⟩
  · rfl
  · rw [hcells]
    simp

theorem leftMergeSlot_bare (N : Node PageId) (leftSib p : PageId) :
    leftMergeSlot N.bare leftSib p = leftMergeSlot N leftSib p := rfl

/-- Where no other child is the page or the first child, the slot is the one before the page. -/
theorem leftMergeSlot_later {k : Bytes} {a b : List (Bytes × PageId)}
    (hcells : N.cells = a ++ (k, p) :: b) (ha : ∀ c ∈ a, c.2 ≠ p)
    (hfirst : ∀ c ∈ a, c.2 ≠ N.hdr.firstChild) :
    leftMergeSlot N (((a.getLast?).map Prod.snd).getD N.hdr.firstChild) p = a.length := by
  have hfind : N.cells.findIdx? (fun c => decide (c.2 = p)) = some a.length := by
    rw [hcells, List.findIdx?_append, List.findIdx?_eq_none_iff.mpr (by simpa using ha)]
    simp [List.findIdx?_cons]
  rcases List.eq_nil_or_concat a with rfl | ⟨a, x, rfl⟩
  · exact if_pos rfl
  · have hx : N.hdr.firstChild ≠ x.2 := (hfirst x (by simp)).symm
    rw [leftMergeSlot, List.concat_eq_append, List.getLast?_concat]
    exact (if_neg hx).trans (by rw [hfind, List.concat_eq_append]; rfl)

end Position

/-- The children of a node are different pages. -/
theorem leftMergeSlot_eq {H : Heap} {lab : Labels} {par p : PageId} {L : Label Bytes} {h : Nat}
    {N : Node PageId} {k : Bytes} {a b : List (Bytes × PageId)} (hN : InternalOk H lab par L h N)
    (hcells : N.cells = a ++ (k, p) :: b) :
    leftMergeSlot N (((a.getLast?).map Prod.snd).getD N.hdr.firstChild) p = a.length := by
  have hchain := hN.chain
  rw [entries, hcells] at hchain
  have hfirst : ∀ c ∈ a, c.2 ≠ N.hdr.firstChild := fun c hc =>
    (hchain.child_ne (a := [(L.lo, N.hdr.firstChild)]) List.mem_cons_self
      (List.mem_append_left _ hc)).symm
  rw [← List.cons_append] at hchain
  have hpage : ∀ c ∈ a, c.2 ≠ p := fun c hc =>
    hchain.child_ne (List.mem_cons_of_mem _ hc) (y := (k, p)) List.mem_cons_self
  exact leftMergeSlot_later hcells hpage hfirst

/-! ## Borrowing -/

section Borrow

variable {H : Heap} {par cur sib : PageId}

@[simp] theorem AnyNode.bare_underflow (n : AnyNode) : n.bare.underflow = n.underflow := by
  cases n <;> rfl

/-- No borrowing from a sibling that is not there or underflows itself. -/
theorem returns_borrow_skip (steal : PageId → PageId → BTreeM Store Bytes) (slot : Nat)
    (cond : String) (h : sib = INVALID_PAGE_ID ∨
      H.Live sib ∧ ∃ n, H.node sib = some n ∧ n.underflow = true) :
    Returns view (borrow steal par par cur sib slot cond) H fun r H' => false = r ∧ H = H' := by
  rcases h with rfl | ⟨hlive, n, hn, hunder⟩
  · exact .pure ⟨rfl, rfl⟩
  · rw [borrow, if_neg hlive.ne_invalid]
    refine (returns_fetch cond hlive.pos hlive.lt).seqVal ?_
    refine (returns_node (N := n) (by exact hn)).bind ?_
    rintro n' _ ⟨rfl, rfl⟩
    rw [AnyNode.bare_underflow] at hunder
    rw [if_pos hunder]
    refine (returns_unpin false).seq ?_
    exact .pure ⟨rfl, (Heap.unpin_pin _ _).symm⟩

/-- Borrowing from a sibling that can lend, given the steal and the new separator. -/
theorem returns_borrow_of {steal : PageId → PageId → BTreeM Store Bytes} (cond : String)
    (newSep : Bytes) {n : AnyNode} {slot : Nat} {P : Heap → Prop} {R : Node PageId → Prop}
    {N : Node PageId} (hsib : H.Live sib) (hn : H.node sib = some n) (hlend : n.underflow = false)
    (hcur : H.Live cur)
    (hsteal : Returns view (steal cur sib) (((H.pin par).pin sib).pin cur) fun r H' =>
      newSep = r ∧ ∃ K, H' = ((K.pin par).pin sib).pin cur ∧ P K)
    (hpar : ∀ K, P K → K.node par = some (.internal N))
    (hreplace : ∀ parent : Node PageId, parent.bare = N →
      ∃ n', replaceSeparator parent slot newSep = .ok n' ∧ R n'.bare) :
    Returns view (borrow steal par par cur sib slot cond) (H.pin par) fun r H' =>
      true = r ∧ ∃ K n', P K ∧ H' = K.put par (.internal n') ∧ R n' := by
  rw [borrow, if_neg hsib.ne_invalid]
  refine (returns_fetch cond (hsib.pin par).pos (hsib.pin par).lt).seqVal ?_
  refine (returns_node (N := n) (by exact hn)).bind ?_
  rintro n _ ⟨rfl, rfl⟩
  rw [AnyNode.bare_underflow] at hlend
  rw [if_neg (by rw [hlend]; exact Bool.false_ne_true)]
  have hcur := (hcur.pin par).pin sib
  refine (returns_fetch _ hcur.pos hcur.lt).seqVal ?_
  refine hsteal.bind ?_
  rintro _ _ ⟨rfl, K, rfl, hK⟩
  have hnode := hpar K hK
  refine (returns_internalNode (N := N) (by exact hnode)).bind ?_
  rintro parent _ ⟨hparent, rfl⟩
  obtain ⟨n', hrep, hR⟩ := hreplace parent hparent
  refine (Returns.ofExcept hrep).bind ?_
  rintro _ _ ⟨rfl, rfl⟩
  refine (returns_writeInternal n' (by simp [hnode])).seq ?_
  refine (returns_unpin true).seq ?_
  refine (returns_unpin true).seq ?_
  refine (returns_unpin true).seq ?_
  refine .pure ⟨rfl, K, n'.bare, hK, ?_, hR⟩
  simp only [Heap.put_pin, Heap.unpin_pin]

/-- The separator in the parent moves within its gap. -/
theorem returns_borrow {steal : PageId → PageId → BTreeM Store Bytes} (cond : String)
    (newSep : Bytes) {n : AnyNode} {old : Bytes} {child : PageId} {u b : List (Bytes × PageId)}
    {P : Heap → Prop}
    {N : Node PageId} (hsib : H.Live sib) (hn : H.node sib = some n) (hlend : n.underflow = false)
    (hcur : H.Live cur)
    (hsteal : Returns view (steal cur sib) (((H.pin par).pin sib).pin cur) fun r H' =>
      newSep = r ∧ ∃ K, H' = ((K.pin par).pin sib).pin cur ∧ P K)
    (hpar : ∀ K, P K → K.node par = some (.internal N))
    (hcells : N.cells = u ++ (old, child) :: b) (hlt : ∀ c ∈ u, c.1 < newSep)
    (hgt : ∀ c ∈ b, newSep < c.1) (hroom : SepRoom (u ++ b) newSep) :
    Returns view (borrow steal par par cur sib u.length cond) (H.pin par) fun r H' =>
      true = r ∧ ∃ K n', P K ∧ H' = K.put par (.internal n') ∧
        n'.cells = u ++ (newSep, child) :: b ∧ n'.hdr.firstChild = N.hdr.firstChild := by
  refine returns_borrow_of cond newSep hsib hn hlend hcur hsteal hpar ?_
  rintro parent rfl
  have hroom : Room (u ++ b) (newSep, child) := hroom
  obtain ⟨n', hrep, hcells', hhdr⟩ := replaceSeparator_spec (n := parent) hcells hlt hgt hroom
  exact ⟨n', hrep, hcells', by rw [Node.bare_firstChild, hhdr, Node.bare_firstChild]⟩

/-- A leaf takes the last cell of its left sibling. -/
theorem returns_stealFromLeft {Nc Nl : Node Bytes} {a : List (Bytes × Bytes)} {k v : Bytes}
    (hne : cur ≠ sib) (hc : H.node cur = some (.leaf Nc)) (hl : H.node sib = some (.leaf Nl))
    (hcells : Nl.cells = a ++ [(k, v)]) (hs : Sorted Nc.cells) (hlt : ∀ c ∈ Nc.cells, k < c.1)
    (hroom : Room Nc.cells (k, v)) :
    Returns view (stealFromLeft cur sib) H fun r H' =>
      k = r ∧ ∃ nl nc, H' = (H.put sib (.leaf nl)).put cur (.leaf nc) ∧ nl.cells = a ∧
        nc.cells = (k, v) :: Nc.cells ∧ nl.hdr.rightSibling = Nl.hdr.rightSibling ∧
        nc.hdr.rightSibling = Nc.hdr.rightSibling := by
  refine (returns_node hc).bind ?_
  rintro (n | n) _ ⟨hbare, rfl⟩
  · cases hbare
    refine (returns_node hl).bind ?_
    rintro (left | left) _ ⟨hbare, rfl⟩
    · cases hbare
      have hcells : left.cells = a ++ [(k, v)] := hcells
      obtain ⟨nc, nl, hsteal, hnc, hch, hnl, hlh⟩ :=
        Node.stealFromLeftLeaf_spec (n := n) hcells hs hlt hroom
      refine (Returns.ofExcept hsteal).bind ?_
      rintro _ _ ⟨rfl, rfl⟩
      refine (returns_writeLeaf nl (by simp [hl])).seq ?_
      refine (returns_writeLeaf nc (by simp [hne, hc])).seq ?_
      exact .pure ⟨rfl, nl.bare, nc.bare, rfl, hnl, hnc, by simp [hlh], by simp [hch]⟩
    · cases hbare
  · cases hbare

/-- A leaf takes the first cell of its right sibling. -/
theorem returns_stealFromRight {Nc Nr : Node Bytes} {b : List (Bytes × Bytes)} {k v : Bytes}
    {c : Bytes × Bytes} (hne : cur ≠ sib) (hc : H.node cur = some (.leaf Nc))
    (hr : H.node sib = some (.leaf Nr)) (hcells : Nr.cells = (k, v) :: c :: b)
    (hs : Sorted (Nc.cells ++ [(k, v)])) (hroom : Room Nc.cells (k, v)) :
    Returns view (stealFromRight cur sib) H fun r H' =>
      c.1 = r ∧ ∃ nr nc, H' = (H.put sib (.leaf nr)).put cur (.leaf nc) ∧ nr.cells = c :: b ∧
        nc.cells = Nc.cells ++ [(k, v)] ∧ nr.hdr.rightSibling = Nr.hdr.rightSibling ∧
        nc.hdr.rightSibling = Nc.hdr.rightSibling := by
  refine (returns_node hc).bind ?_
  rintro (n | n) _ ⟨hbare, rfl⟩
  · cases hbare
    refine (returns_node hr).bind ?_
    rintro (right | right) _ ⟨hbare, rfl⟩
    · cases hbare
      have hcells : right.cells = (k, v) :: c :: b := hcells
      obtain ⟨nc, nr, hsteal, hnc, hch, hnr, hrh⟩ :=
        Node.stealFromRightLeaf_spec (n := n) hcells hs hroom
      refine (Returns.ofExcept hsteal).bind ?_
      rintro _ _ ⟨rfl, rfl⟩
      refine (returns_writeLeaf nr (by simp [hr])).seq ?_
      refine (returns_writeLeaf nc (by simp [hne, hc])).seq ?_
      exact .pure ⟨rfl, nr.bare, nc.bare, rfl, hnr, hnc, by simp [hrh], by simp [hch]⟩
    · cases hbare
  · cases hbare

end Borrow

/-! ## Merging -/

section Merge

variable {H : Heap} {par left right : PageId} {sep : Bytes}

theorem returns_mergeLeaves {Nl Nr : Node Bytes} (sep : Bytes) (hl : H.node left = some (.leaf Nl))
    (hr : H.node right = some (.leaf Nr)) (hs : Sorted (Nl.cells ++ Nr.cells))
    (hcost : cellsCost (Nl.cells ++ Nr.cells) ≤ NODE_USABLE_SIZE) :
    Returns view (mergeFrom left right sep) H fun _ H' =>
      ∃ n : Node Bytes, H' = H.put left (.leaf n) ∧ n.cells = Nl.cells ++ Nr.cells ∧
        n.hdr.rightSibling = Nr.hdr.rightSibling := by
  refine (returns_node hl).bind ?_
  rintro (l | l) _ ⟨hbare, rfl⟩
  · cases hbare
    refine (returns_node hr).bind ?_
    rintro (r | r) _ ⟨hbare, rfl⟩
    · cases hbare
      obtain ⟨n, hmerge, hcells, hright⟩ := Node.mergeLeaf_spec (n := l) (r := r) hs hcost
      refine (Returns.ofExcept hmerge).bind ?_
      rintro _ _ ⟨rfl, rfl⟩
      refine (returns_writeLeaf n (by rw [hl]; rfl)).last ?_
      exact ⟨n.bare, rfl, hcells, hright⟩
    · cases hbare
  · cases hbare

theorem returns_mergeInternals {Nl Nr : Node PageId} (hl : H.node left = some (.internal Nl))
    (hr : H.node right = some (.internal Nr))
    (hs : Sorted (Nl.cells ++ (sep, Nr.hdr.firstChild) :: Nr.cells))
    (hcost : cellsCost (Nl.cells ++ (sep, Nr.hdr.firstChild) :: Nr.cells) ≤ NODE_USABLE_SIZE)
    (hlive : ∀ c ∈ Nr.hdr.firstChild :: Nr.cells.map Prod.snd, H.Live c) :
    Returns view (mergeFrom left right sep) H fun _ H' =>
      ∃ n : Node PageId, H' = H.put left (.internal n) ∧
        n.cells = Nl.cells ++ (sep, Nr.hdr.firstChild) :: Nr.cells ∧
        n.hdr.firstChild = Nl.hdr.firstChild := by
  refine (returns_node hl).bind ?_
  rintro (l | l) _ ⟨hbare, rfl⟩
  · cases hbare
  · cases hbare
    refine (returns_node hr).bind ?_
    rintro (r | r) _ ⟨hbare, rfl⟩
    · cases hbare
    · cases hbare
      obtain ⟨n, hmerge, hcells, hhdr⟩ := Node.mergeInternal_spec (n := l) (r := r) hs hcost
      refine (Returns.ofExcept hmerge).bind ?_
      rintro _ _ ⟨rfl, rfl⟩
      refine (returns_writeInternal n (by rw [hl]; rfl)).seq ?_
      refine (returns_readPage (by rw [Heap.put_node_self]; rfl)).bind ?_
      rintro ⟨id, data⟩ _ ⟨rfl, rfl⟩
      refine (returns_reparentAll _ fun c hc => ?_).mono ?_
      · refine (hlive c ?_).put _ _
        rcases List.mem_append.mp hc with hc | hc
        · exact hc
        · rw [List.mem_singleton.mp hc]
          exact List.mem_cons_self
      · rintro _ _ rfl
        refine ⟨n.bare, rfl, hcells, ?_⟩
        rw [Node.bare_firstChild, hhdr, Node.bare_firstChild]

/-- The page right of a merged leaf can be fetched, if there is one. -/
def Relinks (H : Heap) : AnyNode → Prop
  | .leaf n => n.hdr.rightSibling = INVALID_PAGE_ID ∨ H.Live n.hdr.rightSibling
  | .internal _ => True

theorem Relinks.pin {n : AnyNode} (h : Relinks H n) (p : PageId) : Relinks (H.pin p) n := by
  cases n with
  | leaf n => exact h.imp_right fun hlive => hlive.pin p
  | internal n => trivial

theorem returns_relinkRight {n : AnyNode} (leftId : PageId) (hl : H.node left = some n)
    (hn : Relinks H n) : Returns view (relinkRight left leftId) H fun _ H' => H' = H := by
  refine (returns_node hl).bind ?_
  rintro (n | n) _ ⟨rfl, rfl⟩
  · exact returns_setLeft leftId _ hn
  · exact .pure rfl

/-- The heap after the merge of `right` into `left`. -/
def mergedHeap (H : Heap) (par left right : PageId) (nl : AnyNode) (parent : Node PageId) : Heap :=
  ((H.put left nl).put par (.internal parent)).release right

/-- What `mergePages` leaves: the parent may have to be repaired, and an empty root is gone. -/
inductive Merged (K : Heap) (par left : PageId) (parent : Node PageId) : Bool → Heap → Prop
  | up : parent.underflow = true → par ≠ K.root → Merged K par left parent true K
  | done : Merged K par left parent false K
  | collapsed : parent.numKeys = 0 → par = K.root →
      Merged K par left parent false ((K.release par).setRoot left)

theorem returns_collapseInto {newRoot oldRoot : PageId} (cond : String) (hnew : H.Live newRoot)
    (hold : 0 < oldRoot) (hpins : H.pins = 0) (hfree : H.freePages.length < MAX_FREE_PAGES)
    (hnum : 0 < H.numPages) :
    Returns view (collapseInto newRoot oldRoot cond) H fun _ H' =>
      H' = (H.release oldRoot).setRoot newRoot := by
  refine (returns_setParent INVALID_PAGE_ID cond hnew).seq ?_
  refine (returns_deletePage hold (by rw [hpins]; exact Multiset.notMem_zero _) hfree).seq ?_
  exact returns_setRoot hnum

/-- **The merge of two pages**, given what `merge_from` does. -/
theorem returns_mergePages {N : Node PageId} {u b : List (Bytes × PageId)} {child : PageId}
    {P : AnyNode → Prop} (hpins : H.pins = 0) (hlive : H.Live left) (hrlive : H.Live right)
    (hplive : H.Live par) (hne : par ≠ left) (hpr : par ≠ right) (hlr : left ≠ right)
    (hN : H.node par = some (.internal N)) (hcells : N.cells = u ++ (sep, child) :: b)
    (hmerge : Returns view (mergeFrom left right sep) (((H.pin par).pin left).pin right) fun _ H' =>
      ∃ n, H' = (((H.put left n).pin par).pin left).pin right ∧ P n)
    (hrelink : ∀ n, P n → Relinks (H.put left n) n)
    (hfree : H.freePages.length < MAX_FREE_PAGES)
    (hfree' : (N.removeCell u.length).numKeys = 0 → par = H.root →
      H.freePages.length + 1 < MAX_FREE_PAGES) (hnum : 0 < H.numPages) :
    Returns view (mergePages par par left right u.length) (H.pin par) fun r H' =>
      ∃ n, P n ∧ Merged (mergedHeap H par left right n (N.removeCell u.length)) par left
        (N.removeCell u.length) r H' := by
  refine (returns_fetch _ (hlive.pin par).pos (hlive.pin par).lt).seqVal ?_
  have hrlive' := (hrlive.pin par).pin left
  refine (returns_fetch _ hrlive'.pos hrlive'.lt).seqVal ?_
  refine (returns_internalNode (N := N) (by exact hN)).bind ?_
  rintro parent _ ⟨rfl, rfl⟩
  have hcells : parent.cells = u ++ (sep, child) :: b := hcells
  refine (Returns.ofExcept (Node.keyAt_middle hcells)).bind ?_
  rintro _ _ ⟨rfl, rfl⟩
  refine hmerge.bind ?_
  rintro _ _ ⟨n, rfl, hn⟩
  have hleft : (H.put left n).node left = some n := Heap.put_node_self ..
  have hlinks := ((hrelink n hn).pin par).pin left |>.pin right
  refine (returns_relinkRight left (by exact hleft) hlinks).seq ?_
  have hpar : (H.put left n).node par = some (.internal parent.bare) := by
    rw [Heap.put_node_of_ne _ _ hne, hN]
  refine (returns_internalNode (N := parent.bare) (by exact hpar)).bind ?_
  rintro parent' _ ⟨hbare, rfl⟩
  refine (returns_writeInternal (parent'.removeCell u.length) (by simp [hpar])).seq ?_
  rw [Node.bare_removeCell, hbare]
  refine (returns_unpin true).seq ?_
  refine (returns_unpin true).seq ?_
  simp only [Heap.put_pin, Heap.unpin_pin, Heap.unpin_pin_pin]
  have hunpinned : right ∉ par ::ₘ H.pins := by
    rw [hpins, Multiset.mem_cons]
    exact not_or.mpr ⟨hpr.symm, Multiset.notMem_zero right⟩
  refine (returns_deletePage hrlive.pos (by exact hunpinned) (by exact hfree)).seq ?_
  refine .get_bind ?_
  intro t ht
  have hroot : t.rootPageId = H.root := congrArg Heap.root ht
  rw [hroot]
  refine (returns_unpin true).seq ?_
  rw [Heap.release_pin, Heap.unpin_pin]
  have hparent : (parent'.removeCell u.length).bare = parent.bare.removeCell u.length := by
    rw [Node.bare_removeCell, hbare]
  have hunder : (parent'.removeCell u.length).underflow =
      (parent.bare.removeCell u.length).underflow := by rw [← hparent, Node.bare_underflow]
  have hkeys : (parent'.removeCell u.length).numKeys =
      (parent.bare.removeCell u.length).numKeys := by rw [← hparent]; rfl
  rw [hunder, hkeys]
  split
  · next h => exact .pure ⟨n, hn, .up h.1 h.2⟩
  split
  · next h =>
    have hleft : (mergedHeap H par left right n (parent.bare.removeCell u.length)).Live left := by
      refine ⟨hlive.pos, hlive.lt, ?_⟩
      rw [mergedHeap, Heap.release_node_of_ne _ hlr, Heap.put_node_of_ne _ _ hne.symm, hleft]
      rfl
    refine (returns_collapseInto _ hleft hplive.pos hpins ?_ hnum).bind ?_
    · change (H.freePages ++ [right]).length < MAX_FREE_PAGES
      rw [List.length_append]
      exact hfree' h.1 h.2
    · rintro _ _ rfl
      exact .pure ⟨n, hn, .collapsed h.1 h.2⟩
  · exact .pure ⟨n, hn, .done⟩

end Merge

/-! ## One level of the repair -/

section Level

variable {H : Heap} {lab : Labels} {m : Bytes → Option Bytes} {par cur sib : PageId}
  {L : Label Bytes} {N : Node PageId} {lo mid : Bytes} {hi : WithTop Bytes}
  {u b : List (Bytes × PageId)}

/-- **Borrowing from the right leaf.** -/
theorem returns_borrowRight {Nc Nr : Node Bytes} {k v : Bytes} {d : Bytes × Bytes}
    {b' : List (Bytes × Bytes)} (cond : String) (hs : Shape H lab lab m) (hpar : lab par = some L)
    (hL : L.height = 1) (hN : InternalOk H lab par L 0 N) (ha : Adjacent N L cur sib lo mid u b)
    (hc : LeafOk H lab m cur ⟨0, lo, mid⟩ Nc)
    (hr : LeafOk H lab m sib ⟨0, mid, nextKey L.hi b⟩ Nr) (hcells : Nr.cells = (k, v) :: d :: b')
    (hlend : Nr.underflow = false) (hroom : Room Nc.cells (k, v)) (hsep : SepRoom (u ++ b) d.1) :
    Returns view (borrow stealFromRight par par cur sib u.length cond) (H.pin par) fun r H' =>
      true = r ∧ H'.pins = H.pins ∧ ∃ lab', Shape H' lab' lab' m := by
  have hn := hN.neighbours hpar hL ha
  have hpair := LeafOk.pair hs hn hc hr
  rw [hcells, List.append_cons] at hpair
  obtain ⟨hsorted, -, hbetween⟩ := Sorted.append_iff.mp hpair.sorted
  have hk : k < d.1 := hbetween (k, v) (by simp) d List.mem_cons_self
  have hmid : mid ≤ k := (hr.mem (k, v) (by rw [hcells]; exact List.mem_cons_self)).1
  have hlm : lo < mid := WithTop.coe_lt_coe.mp (hs.proper hn.left)
  have hlo : lo < d.1 := hlm.trans (hmid.trans_lt hk)
  have hhi : (d.1 : WithTop Bytes) < nextKey L.hi b := (hr.mem d (by rw [hcells]; simp)).2
  obtain ⟨hlt, hgt⟩ := hN.around ha hlo hhi
  refine (returns_borrow cond d.1 (hs.isLive hn.right) hr.node hlend (hs.isLive hn.left)
    (P := fun K => ∃ nr nc, K = (H.put sib (.leaf nr)).put cur (.leaf nc) ∧ nr.cells = d :: b' ∧
      nc.cells = Nc.cells ++ [(k, v)] ∧ nr.hdr.rightSibling = Nr.hdr.rightSibling ∧
      nc.hdr.rightSibling = Nc.hdr.rightSibling) ?_ ?_ ha.cells hlt hgt hsep).mono ?_
  · refine (returns_stealFromRight (hn.ne hs) (by exact hc.node) (by exact hr.node) hcells hsorted
      hroom).mono ?_
    rintro _ _ ⟨rfl, nr, nc, rfl, hfacts⟩
    exact ⟨rfl, _, rfl, nr, nc, rfl, hfacts⟩
  · rintro _ ⟨nr, nc, rfl, -⟩
    rw [Heap.put_node_of_ne _ _ hn.parent_ne_left, Heap.put_node_of_ne _ _ hn.parent_ne_right,
      hN.node]
  · rintro _ _ ⟨rfl, _, n', ⟨nr, nc, rfl, hnr, hnc, hrr, hcr⟩, rfl, hcells', hfirst⟩
    refine ⟨rfl, rfl, ?_⟩
    rw [← hnc, ← hnr] at hpair
    refine hs.borrowLeaf hpar hL hN ha hpair ?_ ?_ hlo hhi ?_ ?_ hcells' hfirst ?_ ?_
      (Heap.put_node_self ..) ?_ rfl rfl rfl
    · intro c hc
      exact hbetween c (hnc ▸ hc) d List.mem_cons_self
    · intro c hc
      rw [hnr] at hc
      have hsorted := hr.sorted
      rw [hcells] at hsorted
      rcases List.mem_cons.mp hc with rfl | hc
      · exact le_rfl
      · exact ((Sorted.cons_iff.mp (Sorted.cons_iff.mp hsorted).2).1 c hc).le
    · rw [hcr]
      exact hc.right_eq hs hn
    · rw [hrr]
      exact hr.right
    · rw [Heap.put_node_of_ne _ _ hn.parent_ne_left.symm, Heap.put_node_self]
    · rw [Heap.put_node_of_ne _ _ hn.parent_ne_right.symm, Heap.put_node_of_ne _ _ (hn.ne hs).symm,
        Heap.put_node_self]
    · intro z hzpar hzx hzy
      rw [Heap.put_node_of_ne _ _ hzpar, Heap.put_node_of_ne _ _ hzx, Heap.put_node_of_ne _ _ hzy]

/-- **Borrowing from the left leaf.** -/
theorem returns_borrowLeft {Nc Nl : Node Bytes} {k v : Bytes} {a : List (Bytes × Bytes)}
    (cond : String) (hs : Shape H lab lab m) (hpar : lab par = some L) (hL : L.height = 1)
    (hN : InternalOk H lab par L 0 N) (ha : Adjacent N L sib cur lo mid u b)
    (hc : LeafOk H lab m cur ⟨0, mid, nextKey L.hi b⟩ Nc) (hl : LeafOk H lab m sib ⟨0, lo, mid⟩ Nl)
    (hcells : Nl.cells = a ++ [(k, v)]) (hlend : Nl.underflow = false) (hlo : lo < k)
    (hroom : Room Nc.cells (k, v)) (hsep : SepRoom (u ++ b) k) :
    Returns view (borrow stealFromLeft par par cur sib u.length cond) (H.pin par) fun r H' =>
      true = r ∧ H'.pins = H.pins ∧ ∃ lab', Shape H' lab' lab' m := by
  have hn := hN.neighbours hpar hL ha
  have hpair := LeafOk.pair hs hn hl hc
  rw [hcells, List.append_assoc, List.singleton_append] at hpair
  obtain ⟨-, hsorted, hbetween⟩ := Sorted.append_iff.mp hpair.sorted
  have hk : k < mid := by
    have hmem := (hl.mem (k, v) (by rw [hcells]; simp)).2
    exact WithTop.coe_lt_coe.mp hmem
  have hhi : (k : WithTop Bytes) < nextKey L.hi b :=
    (WithTop.coe_lt_coe.mpr hk).trans (hs.proper hn.right)
  obtain ⟨hlt, hgt⟩ := hN.around ha hlo hhi
  refine (returns_borrow cond k (hs.isLive hn.left) hl.node hlend (hs.isLive hn.right)
    (P := fun K => ∃ nl nc, K = (H.put sib (.leaf nl)).put cur (.leaf nc) ∧ nl.cells = a ∧
      nc.cells = (k, v) :: Nc.cells ∧ nl.hdr.rightSibling = Nl.hdr.rightSibling ∧
      nc.hdr.rightSibling = Nc.hdr.rightSibling) ?_ ?_ ha.cells hlt hgt hsep).mono ?_
  · refine (returns_stealFromLeft (hn.ne hs).symm (by exact hc.node) (by exact hl.node) hcells
      hc.sorted (Sorted.cons_iff.mp hsorted).1 hroom).mono ?_
    rintro _ _ ⟨rfl, nl, nc, rfl, hfacts⟩
    exact ⟨rfl, _, rfl, nl, nc, rfl, hfacts⟩
  · rintro _ ⟨nl, nc, rfl, -⟩
    rw [Heap.put_node_of_ne _ _ hn.parent_ne_right, Heap.put_node_of_ne _ _ hn.parent_ne_left,
      hN.node]
  · rintro _ _ ⟨rfl, _, n', ⟨nl, nc, rfl, hnl, hnc, hlr, hcr⟩, rfl, hcells', hfirst⟩
    refine ⟨rfl, rfl, ?_⟩
    rw [← hnc, ← hnl] at hpair
    refine hs.borrowLeaf hpar hL hN ha hpair ?_ ?_ hlo hhi ?_ ?_ hcells' hfirst ?_ ?_
      (Heap.put_node_self ..) ?_ rfl rfl rfl
    · intro c hc
      exact hbetween c (hnl ▸ hc) (k, v) List.mem_cons_self
    · intro c hc
      rw [hnc] at hc
      rcases List.mem_cons.mp hc with rfl | hc
      · exact le_rfl
      · exact ((Sorted.cons_iff.mp hsorted).1 c hc).le
    · rw [hlr]
      exact hl.right_eq hs hn
    · rw [hcr]
      exact hc.right
    · rw [Heap.put_node_of_ne _ _ hn.parent_ne_left.symm, Heap.put_node_of_ne _ _ (hn.ne hs),
        Heap.put_node_self]
    · rw [Heap.put_node_of_ne _ _ hn.parent_ne_right.symm, Heap.put_node_self]
    · intro z hzpar hzx hzy
      rw [Heap.put_node_of_ne _ _ hzpar, Heap.put_node_of_ne _ _ hzy, Heap.put_node_of_ne _ _ hzx]

/-- What `merge_from` leaves in the left one of two neighbours. -/
theorem returns_mergeFrom {j : Nat} {nl nr : AnyNode} (hs : Shape H lab lab m)
    (hn : Neighbours lab par cur sib L j lo mid hi) (hl : H.node cur = some nl)
    (hr : H.node sib = some nr) (hul : nl.underflow = true) (hur : nr.underflow = true)
    (hok : Heap.MergeOk mid nl nr) (parent : Node PageId) :
    Returns view (mergeFrom cur sib mid) (((H.pin par).pin cur).pin sib) fun _ H' =>
      ∃ n, H' = (((H.put cur n).pin par).pin cur).pin sib ∧ Relinks (H.put cur n) n ∧
        PageOk (mergedHeap H par cur sib n parent) (regroupLab lab cur sib ⟨j, lo, hi⟩ none)
          (regroupLab lab cur sib ⟨j, lo, hi⟩ none) m cur ⟨j, lo, hi⟩ := by
  have hnode : ∀ n, (mergedHeap H par cur sib n parent).node cur = some n := by
    intro n
    rw [mergedHeap, Heap.release_node_of_ne _ (hn.ne hs),
      Heap.put_node_of_ne _ _ hn.parent_ne_left.symm, Heap.put_node_self]
  cases nl with
  | leaf Nl =>
    cases nr with
    | internal Nr => exact hok.elim
    | leaf Nr =>
      obtain ⟨hj, hx⟩ := hs.leafOk hn.left hl
      obtain ⟨-, hy⟩ := hs.leafOk hn.right hr
      cases hj
      refine (returns_mergeLeaves mid (by exact hl) (by exact hr) (LeafOk.pair hs hn hx hy).sorted
        (Node.cost_of_underflow hul hur)).mono ?_
      rintro _ _ ⟨n, rfl, hcells, hright⟩
      refine ⟨.leaf n, rfl, ?_, hs.merge_leaf hn hx hy hcells hright (hnode _)⟩
      rw [Relinks, hright]
      exact (hs.right_live hy.right).imp_right fun hlive => hlive.put _ _
  | internal Nl =>
    cases nr with
    | leaf Nr => exact hok.elim
    | internal Nr =>
      obtain ⟨i, hj, hx⟩ := hs.internalOk hn.left hl
      obtain ⟨i', hj', hy⟩ := hs.internalOk hn.right hr
      cases hj
      cases hj'
      have hchain := chain_append.mpr ⟨hx.chain, hy.chain⟩
      refine (returns_mergeInternals (by exact hl) (by exact hr)
        (Sorted.cons_iff.mp hchain.sorted).2 hok ?_).mono ?_
      · intro c hc
        have hmem : ∃ k, (k, c) ∈ entries mid Nr := by
          rcases List.mem_cons.mp hc with rfl | hc
          · exact ⟨mid, List.mem_cons_self⟩
          · obtain ⟨x, hx, rfl⟩ := List.mem_map.mp hc
            exact ⟨x.1, List.mem_cons_of_mem _ hx⟩
        obtain ⟨k, hk⟩ := hmem
        obtain ⟨e, hlabel⟩ := hy.chain.label_of_mem hk
        exact (((hs.isLive hlabel).pin _).pin _).pin _
      · rintro _ _ ⟨n, rfl, hcells, hfirst⟩
        exact ⟨.internal n, rfl, trivial, Shape.merge_internal hn hx hy hcells hfirst (hnode _)⟩

/-- **The merge of two neighbours.** -/
theorem returns_mergeNeighbours {j : Nat} {nl nr : AnyNode} {top : Nat} (hs : Shape H lab lab m)
    (hpar : lab par = some L) (hL : L.height = j + 1) (hN : InternalOk H lab par L j N)
    (ha : Adjacent N L cur sib lo mid u b) (hroot : lab H.root = some ⟨top, [], ⊤⟩)
    (hpins : H.pins = 0) (hl : H.node cur = some nl) (hr : H.node sib = some nr)
    (hul : nl.underflow = true) (hur : nr.underflow = true) (hok : Heap.MergeOk mid nl nr)
    (hfree : H.freePages.length < MAX_FREE_PAGES)
    (hfree' : (N.removeCell u.length).numKeys = 0 → par = H.root →
      H.freePages.length + 1 < MAX_FREE_PAGES) :
    Returns view (mergePages par par cur sib u.length) (H.pin par) fun r H' =>
      (r = true ∧ (N.removeCell u.length).underflow = true ∧ par ≠ H.root ∧
        ∃ n, H' = mergedHeap H par cur sib n (N.removeCell u.length) ∧
          Shape H' (regroupLab lab cur sib ⟨j, lo, nextKey L.hi b⟩ none)
            (regroupLab lab cur sib ⟨j, lo, nextKey L.hi b⟩ none) m) ∨
      r = false ∧ H'.pins = 0 ∧ ∃ lab', Shape H' lab' lab' m := by
  have hn := hN.neighbours hpar hL ha
  have hcells : (N.removeCell u.length).cells = u ++ b := by
    rw [Node.removeCell_cells, ha.cells, eraseIdx_append_cons]
  refine (returns_mergePages hpins (hs.isLive hn.left) (hs.isLive hn.right) (hs.isLive hpar)
    hn.parent_ne_left hn.parent_ne_right (hn.ne hs) hN.node ha.cells
    (returns_mergeFrom hs hn hl hr hul hur hok (N.removeCell u.length)) (fun n h => h.1) hfree
    hfree' hs.numPages_pos).mono ?_
  rintro r H' ⟨n, ⟨-, hpage⟩, hmerged⟩
  have hshape := hs.merge hpar hL hN ha hcells rfl hpage
  cases hmerged with
  | up hunder hne => exact Or.inl ⟨rfl, hunder, hne, n, rfl, hshape⟩
  | done => exact Or.inr ⟨rfl, hpins, _, hshape⟩
  | collapsed hkeys hpr =>
    -- the root has the merged page as its only child
    have hempty : u ++ b = [] := by
      rw [← hcells]
      exact List.length_eq_zero_iff.mp hkeys
    obtain ⟨rfl, rfl⟩ := List.append_eq_nil_iff.mp hempty
    have hpr : par = H.root := hpr
    subst hpr
    rw [hpar] at hroot
    cases hroot
    cases hL
    obtain ⟨a, hleft⟩ := ha.left
    have hlo : lo = [] := by
      have hlast := congrArg List.getLast? hleft
      simp only [List.getLast?_singleton, List.getLast?_concat, Option.some.injEq,
        Prod.mk.injEq] at hlast
      exact hlast.1.symm
    subst hlo
    refine Or.inr ⟨rfl, hpins, _,
      hshape.collapse (c := cur) (h := j) ?_ (regroupLab_left (hn.ne hs)) ?_ rfl rfl rfl⟩
    · rw [← hpar]
      exact regroupLab_other hn.parent_ne_left hn.parent_ne_right
    · intro x hx
      exact Heap.release_node_of_ne _ hx

end Level

end BTree

/-! ## The whole repair -/

namespace Adjacent

variable {N : Node PageId} {L : Label Bytes} {y : PageId} {mid : Bytes}
  {u b : List (Bytes × PageId)}

theorem of_first (hcells : N.cells = (mid, y) :: b) :
    Adjacent N L N.hdr.firstChild y L.lo mid [] b :=
  ⟨hcells, [], rfl⟩

theorem of_later (hcells : N.cells = u ++ (mid, y) :: b) :
    Adjacent N L (((u.getLast?).map Prod.snd).getD N.hdr.firstChild) y
      (((u.getLast?).map Prod.fst).getD L.lo) mid u b := by
  refine ⟨hcells, ?_⟩
  rcases List.eq_nil_or_concat u with rfl | ⟨u, x, rfl⟩
  · exact ⟨[], rfl⟩
  · exact ⟨(L.lo, N.hdr.firstChild) :: u, by simp⟩

end Adjacent

theorem Path.mono {lab lab' : Labels} {key : Bytes} {h : Nat} {path : List PageId}
    (hpath : Path lab key h path)
    (hlab : ∀ {x L}, lab x = some L → h ≤ L.height → lab' x = some L) : Path lab' key h path := by
  induction path generalizing h with
  | nil => trivial
  | cons p path ih =>
    obtain ⟨⟨L, hp, hL, hkey⟩, hpath⟩ := hpath
    refine ⟨⟨L, hlab hp hL.ge, hL, hkey⟩, ih hpath fun hx hle => hlab hx ?_⟩
    omega

namespace Heap

variable {H H' : Heap} {key : Bytes} {path : List PageId}

theorem lowerKey_congr (h : ∀ x ∈ path, H.node x = H'.node x) :
    H.lowerKey key path = H'.lowerKey key path := by
  induction path with
  | nil => rfl
  | cons p path ih =>
    rw [lowerKey, lowerKey, h p List.mem_cons_self,
      ih fun x hx => h x (List.mem_cons_of_mem p hx)]

theorem leftLow_eq {parent : Node PageId} {u b : List (Bytes × PageId)}
    (hcells : parent.cells = u ++ b) :
    H.leftLow key parent path u.length =
      ((u.getLast?).map Prod.fst).getD (H.lowerKey key path) := by
  rcases List.eq_nil_or_concat u with rfl | ⟨u, x, rfl⟩
  · rfl
  · rw [List.concat_eq_append] at hcells
    simp [leftLow, hcells]

end Heap

/-- A page `p`, on the path to `key`, is to be repaired: `H₀` is the heap before the repair began,
and from the height of `p` on nothing has changed but `p`. -/
structure Fixing (H₀ H : Heap) (lab : Labels) (m : Bytes → Option Bytes) (key : Bytes) (freed : Nat)
    (p : PageId) (L : Label Bytes) (n : AnyNode) (path : List PageId) : Prop where
  shape : Shape H lab lab m
  label : lab p = some L
  mem : L.Mem key
  node : H.node p = some n
  underflow : n.underflow = true
  above : Path lab key (L.height + 1) path
  root : lab H.root = some ⟨L.height + path.length, [], ⊤⟩
  ne_root : p ≠ H.root
  pins : H.pins = 0
  free : H.freePages.length = H₀.freePages.length + freed
  root_eq : H.root = H₀.root
  same : ∀ {x Lx}, lab x = some Lx → L.height ≤ Lx.height → x ≠ p → H.node x = H₀.node x

namespace Fixing

variable {H₀ H : Heap} {lab : Labels} {m : Bytes → Option Bytes} {key : Bytes} {freed : Nat}
  {p par x y : PageId} {L L' : Label Bytes} {n : AnyNode} {path : List PageId} {N' : Node PageId}
  {lo mid : Bytes} {hi : WithTop Bytes}

theorem above_root (hf : Fixing H₀ H lab m key freed p L n (par :: path))
    (hL' : L'.height = L.height + 1) : lab H.root = some ⟨L'.height + path.length, [], ⊤⟩ := by
  have hroot := hf.root
  rwa [List.length_cons, ← Nat.add_assoc, Nat.add_right_comm, ← hL'] at hroot

/-- The key from which the parent starts. -/
theorem lowerKey (hf : Fixing H₀ H lab m key freed p L n (par :: path)) (hpar : lab par = some L')
    (hL' : L'.height = L.height + 1) (hkey : L'.Mem key) : H₀.lowerKey key path = L'.lo := by
  have hpath := hf.above.2
  rw [← hL'] at hpath
  rw [← hf.shape.lowerKey_eq hpar hkey hpath (hf.above_root hL')]
  refine Heap.lowerKey_congr fun x hx => ?_
  obtain ⟨Lx, hlx, hle⟩ := hpath.label_of_mem hx
  refine (hf.same hlx (by omega) ?_).symm
  rintro rfl
  cases hf.label.symm.trans hlx
  omega

/-- After two neighbours, one of them `p`, were merged, the parent is to be repaired. -/
theorem up (hf : Fixing H₀ H lab m key freed p L n (par :: path)) {nl : AnyNode}
    (hn : Neighbours lab par x y L' L.height lo mid hi) (hp : p = x ∨ p = y) (hkey : L'.Mem key)
    (hne : par ≠ H.root) (hunder : N'.underflow = true)
    (hshape : Shape (BTree.mergedHeap H par x y nl N')
      (regroupLab lab x y ⟨L.height, lo, hi⟩ none) (regroupLab lab x y ⟨L.height, lo, hi⟩ none) m) :
    Fixing H₀ (BTree.mergedHeap H par x y nl N') (regroupLab lab x y ⟨L.height, lo, hi⟩ none) m key
      (freed + 1) par L' (.internal N') path := by
  have hkeep : ∀ {z Lz}, lab z = some Lz → L'.height ≤ Lz.height →
      regroupLab lab x y ⟨L.height, lo, hi⟩ none z = some Lz := by
    intro z Lz hz hle
    rw [hn.height] at hle
    rw [regroupLab_other, hz]
    · rintro rfl
      cases hn.left.symm.trans hz
      exact Nat.not_succ_le_self _ hle
    · rintro rfl
      cases hn.right.symm.trans hz
      exact Nat.not_succ_le_self _ hle
  constructor
  case shape => exact hshape
  case label => exact hkeep hn.parent le_rfl
  case mem => exact hkey
  case node =>
    rw [BTree.mergedHeap, Heap.release_node_of_ne _ hn.parent_ne_right, Heap.put_node_self]
  case underflow => exact hunder
  case above =>
    rw [hn.height]
    exact hf.above.2.mono fun hz hle => hkeep hz (by rw [hn.height]; omega)
  case root =>
    exact hkeep (hf.above_root hn.height) (Nat.le_add_right _ _)
  case ne_root => exact hne
  case pins => exact hf.pins
  case free =>
    change (H.freePages ++ [y]).length = _
    rw [List.length_append, hf.free, Nat.add_assoc]
    rfl
  case root_eq => exact hf.root_eq
  case same =>
    intro z Lz hz hle hzpar
    rcases regroupLab_cases hz with ⟨-, hnone⟩ | ⟨-, -, rfl⟩ | ⟨hzy, hzx, hlz⟩
    · cases hnone
    · rw [hn.height] at hle
      exact absurd hle (Nat.not_succ_le_self _)
    · rw [BTree.mergedHeap, Heap.release_node_of_ne _ hzy, Heap.put_node_of_ne _ _ hzpar,
        Heap.put_node_of_ne _ _ hzx]
      refine hf.same hlz ?_ ?_
      · rw [hn.height] at hle
        omega
      · rintro rfl
        exact hp.elim hzx hzy

end Fixing

namespace BTree

section Fix

variable {H₀ H : Heap} {lab : Labels} {m : Bytes → Option Bytes} {key : Bytes} {freed : Nat}
  {p par x y : PageId} {L L' : Label Bytes} {n : AnyNode} {path : List PageId} {N : Node PageId}
  {lo mid : Bytes} {u b : List (Bytes × PageId)}

/-- A merge, and the repair of the parent where it is needed. -/
theorem returns_mergeThenFix {nl nr : AnyNode}
    (hf : Fixing H₀ H lab m key freed p L n (par :: path)) (hpar : lab par = some L')
    (hL' : L'.height = L.height + 1) (hkey : L'.Mem key) (hN : InternalOk H lab par L' L.height N)
    (ha : Adjacent N L' x y lo mid u b) (hp : p = x ∨ p = y) (hl : H.node x = some nl)
    (hr : H.node y = some nr) (hul : nl.underflow = true) (hur : nr.underflow = true)
    (hok : Heap.MergeOk mid nl nr) (hfree : H₀.freePages.length + freed < MAX_FREE_PAGES)
    (hrest : if (N.removeCell u.length).underflow ∧ par ≠ H₀.root then
        H₀.FixOk key (freed + 1) par (.internal (N.removeCell u.length)) path
      else (N.removeCell u.length).numKeys = 0 → par = H₀.root →
        H₀.freePages.length + freed + 1 < MAX_FREE_PAGES)
    (ih : ∀ {K lab'}, Fixing H₀ K lab' m key (freed + 1) par L'
        (.internal (N.removeCell u.length)) path →
      H₀.FixOk key (freed + 1) par (.internal (N.removeCell u.length)) path →
      Returns view (fixUnderflow par path) K fun _ H' =>
        H'.pins = 0 ∧ ∃ lab', Shape H' lab' lab' m) :
    Returns view (do if ← mergePages par par x y u.length then fixUnderflow par path) (H.pin par)
      fun _ H' => H'.pins = 0 ∧ ∃ lab', Shape H' lab' lab' m := by
  rw [← hf.free] at hfree hrest
  rw [← hf.root_eq] at hrest
  have hn := hN.neighbours hpar hL' ha
  refine (returns_mergeNeighbours hf.shape hpar hL' hN ha hf.root hf.pins hl hr hul hur hok hfree
    ?_).bind ?_
  · intro hkeys hroot
    rw [if_neg fun h => h.2 hroot] at hrest
    exact hrest hkeys hroot
  · rintro r K (⟨rfl, hunder, hne, nx, rfl, hshape⟩ | ⟨rfl, hpins, hshape⟩)
    · rw [if_pos ⟨hunder, hne⟩] at hrest
      exact ih (hf.up hn hp hkey hne hunder hshape) hrest
    · exact .pure ⟨hpins, hshape⟩

/-- The repair of the first child of a node, through its right sibling. -/
theorem returns_fixFirst {b : List (Bytes × PageId)} {c : Bytes × PageId}
    (hf : Fixing H₀ H lab m key freed p L n (par :: path)) (hpar : lab par = some L')
    (hL' : L'.height = L.height + 1) (hkey : L'.Mem key) (hN : InternalOk H lab par L' L.height N)
    (hnode : H₀.node par = some (.internal N)) (hfirst : N.hdr.firstChild = p)
    (hcells : N.cells = c :: b) (hok : H₀.FixOk key freed p n (par :: path))
    (ih : ∀ {K lab'} {N' : Node PageId}, Fixing H₀ K lab' m key (freed + 1) par L' (.internal N') path →
      H₀.FixOk key (freed + 1) par (.internal N') path →
      Returns view (fixUnderflow par path) K fun _ H' =>
        H'.pins = 0 ∧ ∃ lab', Shape H' lab' lab' m) :
    Returns view (fixUnderflow p (par :: path)) H
      fun _ H' => H'.pins = 0 ∧ ∃ lab', Shape H' lab' lab' m := by
  have hs := hf.shape
  have ha : Adjacent N L' p c.2 L'.lo c.1 [] b := hfirst ▸ Adjacent.of_first hcells
  have hn := hN.neighbours hpar hL' ha
  obtain ⟨nr, hnr⟩ := Option.isSome_iff_exists.mp (hs.isLive hn.right).isSome
  have hnr₀ : H₀.node c.2 = some nr := by
    rw [← hf.same hn.right le_rfl (hn.ne hs).symm, hnr]
  have hpos := position_first hfirst hcells
  rw [Heap.FixOk, hnode] at hok
  dsimp only at hok
  rw [hpos] at hok
  dsimp only at hok
  rw [Heap.repair, if_pos rfl, hnr₀, Option.map_some] at hok
  refine (returns_fetch _ (hs.isLive hpar).pos (hs.isLive hpar).lt).seqVal ?_
  refine (returns_internalNode (N := N) (by exact hN.node)).bind ?_
  rintro parent _ ⟨rfl, rfl⟩
  refine (Returns.ofExcept hpos).bind ?_
  rintro _ _ ⟨rfl, rfl⟩
  refine (returns_borrow_skip stealFromLeft 0 _ (Or.inl rfl)).bind ?_
  rintro _ _ ⟨rfl, rfl⟩
  rw [if_neg Bool.false_ne_true]
  by_cases hunder : nr.underflow = true
  · rw [if_pos hunder] at hok
    obtain ⟨hmerge, hfree, hrest⟩ := hok
    refine (returns_borrow_skip stealFromRight 0 _ (Or.inr ⟨(hs.isLive hn.right).pin _, nr, hnr,
      hunder⟩)).bind ?_
    rintro _ _ ⟨rfl, rfl⟩
    rw [if_neg Bool.false_ne_true, if_pos (hs.isLive hn.right).ne_invalid]
    have hsep : ((parent.bare.cells[0]?).map Prod.fst).getD [] = c.1 := by rw [hcells]; rfl
    rw [hsep] at hmerge
    have hfix := returns_mergeThenFix hf hpar hL' hkey hN ha (Or.inl rfl) hf.node hnr hf.underflow hunder
      hmerge hfree hrest ih
    exact hfix
  · rw [if_neg hunder] at hok
    have hlend : nr.underflow = false := Bool.eq_false_iff.mpr hunder
    obtain ⟨Nc, Nr, k, v, d, b', rfl, rfl, hcr, hroom, hsep⟩ := hok.cases
    obtain ⟨hL, hc⟩ := hs.leafOk hf.label hf.node
    obtain ⟨-, hr⟩ := hs.leafOk hn.right hnr
    have hlabel : L = ⟨0, L'.lo, c.1⟩ := by
      have hleft := Option.some.inj (hf.label.symm.trans hn.left)
      rwa [hL] at hleft
    rw [hL] at hN hn hL' hr
    rw [hlabel] at hc
    rw [hcells] at hsep
    refine (returns_borrowRight _ hs hpar hL' hN ha hc hr hcr hlend hroom hsep).bind ?_
    rintro _ _ ⟨rfl, hpins, hshape⟩
    exact .pure ⟨hpins.trans hf.pins, hshape⟩

/-- The repair of a later child of a node, through its left sibling. -/
theorem returns_fixLater {a : List (Bytes × PageId)}
    (hf : Fixing H₀ H lab m key freed p L n (par :: path)) (hpar : lab par = some L')
    (hL' : L'.height = L.height + 1) (hkey : L'.Mem key) (hN : InternalOk H lab par L' L.height N)
    (hnode : H₀.node par = some (.internal N)) (hcells : N.cells = a ++ (L.lo, p) :: b)
    (hok : H₀.FixOk key freed p n (par :: path))
    (ih : ∀ {K lab'} {N' : Node PageId}, Fixing H₀ K lab' m key (freed + 1) par L' (.internal N') path →
      H₀.FixOk key (freed + 1) par (.internal N') path →
      Returns view (fixUnderflow par path) K fun _ H' =>
        H'.pins = 0 ∧ ∃ lab', Shape H' lab' lab' m) :
    Returns view (fixUnderflow p (par :: path)) H
      fun _ H' => H'.pins = 0 ∧ ∃ lab', Shape H' lab' lab' m := by
  have hs := hf.shape
  have ha : Adjacent N L' _ p _ L.lo a b := Adjacent.of_later hcells
  have hn := hN.neighbours hpar hL' ha
  have hleft := hs.isLive hn.left
  obtain ⟨nl, hnl⟩ := Option.isSome_iff_exists.mp hleft.isSome
  have hnl₀ := hnl
  rw [hf.same hn.left le_rfl (hn.ne hs)] at hnl₀
  -- the other children are other pages
  have hother : ∀ c ∈ (L'.lo, N.hdr.firstChild) :: a, c.2 ≠ p := by
    have hchain := hN.chain
    rw [entries, hcells, ← List.cons_append] at hchain
    obtain ⟨hlt, -⟩ := hchain.sorted.at_slot
    intro c hc hcp
    have hsame := hchain.eq_of_child_eq (List.mem_append_left _ hc) (y := (L.lo, p)) (by simp) hcp
    exact (hlt c hc).ne (congrArg Prod.fst hsame)
  have hpos := position_later (hother _ List.mem_cons_self) hcells fun c hc =>
    hother c (List.mem_cons_of_mem _ hc)
  have hsep : ((N.cells[a.length]?).map Prod.fst).getD [] = L.lo := by rw [hcells]; simp
  have hlow : H₀.leftLow key N path a.length = ((a.getLast?).map Prod.fst).getD L'.lo := by
    rw [Heap.leftLow_eq hcells, hf.lowerKey hpar hL' hkey]
  rw [Heap.FixOk, hnode] at hok
  dsimp only at hok
  rw [hpos] at hok
  dsimp only at hok
  rw [Heap.repair, if_neg hleft.ne_invalid, hnl₀, Option.bind_some] at hok
  refine (returns_fetch _ (hs.isLive hpar).pos (hs.isLive hpar).lt).seqVal ?_
  refine (returns_internalNode (N := N) (by exact hN.node)).bind ?_
  rintro parent _ ⟨rfl, rfl⟩
  refine (Returns.ofExcept hpos).bind ?_
  rintro _ _ ⟨rfl, rfl⟩
  dsimp only
  by_cases hunder : nl.underflow = true
  · rw [if_pos hunder] at hok
    refine (returns_borrow_skip stealFromLeft _ _ (Or.inr ⟨hleft.pin _, nl, hnl, hunder⟩)).bind ?_
    rintro _ _ ⟨rfl, rfl⟩
    rw [if_neg Bool.false_ne_true]
    by_cases hright : ((b.head?).map Prod.snd).getD INVALID_PAGE_ID = INVALID_PAGE_ID
    · rw [if_pos hright] at hok
      obtain ⟨hmerge, hfree, hrest⟩ := hok
      rw [hright]
      refine (returns_borrow_skip stealFromRight _ _ (Or.inl rfl)).bind ?_
      rintro _ _ ⟨rfl, rfl⟩
      rw [if_neg Bool.false_ne_true, if_neg (not_not_intro rfl), if_pos hleft.ne_invalid,
        ← leftMergeSlot_bare, leftMergeSlot_eq hN hcells]
      rw [hsep] at hmerge
      exact returns_mergeThenFix hf hpar hL' hkey hN ha (Or.inr rfl) hnl hf.node hunder hf.underflow
        hmerge hfree hrest ih
    · rw [if_neg hright] at hok
      exact hok.elim
  · rw [if_neg hunder] at hok
    have hlend : nl.underflow = false := Bool.eq_false_iff.mpr hunder
    dsimp only at hok
    rw [hlow] at hok
    obtain ⟨Nl, Nc, a', k, v, rfl, rfl, hcl, hlo, hroom, hroom'⟩ := hok.cases
    obtain ⟨hL, hc⟩ := hs.leafOk hf.label hf.node
    obtain ⟨-, hl⟩ := hs.leafOk hn.left hnl
    have hlabel := Option.some.inj (hf.label.symm.trans hn.right)
    rw [hL] at hN hn hL' hl hlabel
    rw [hlabel] at hc
    rw [hcells, eraseIdx_append_cons] at hroom'
    refine (returns_borrowLeft _ hs hpar hL' hN ha hc hl hcl hlend hlo hroom hroom').bind ?_
    rintro _ _ ⟨rfl, hpins, hshape⟩
    exact .pure ⟨hpins.trans hf.pins, hshape⟩

/-- **`fix_underflow`** repairs the page and the pages above it. -/
theorem returns_fixUnderflow (hf : Fixing H₀ H lab m key freed p L n path)
    (hok : H₀.FixOk key freed p n path) :
    Returns view (fixUnderflow p path) H fun _ H' => H'.pins = 0 ∧ ∃ lab', Shape H' lab' lab' m := by
  induction path generalizing H lab freed p L n with
  | nil =>
    -- a page without a parent is the root
    have hroot := hf.shape.apart hf.label hf.root rfl hf.mem ⟨nil_le_bytes _, WithTop.coe_lt_top _⟩
    exact (hf.ne_root hroot).elim
  | cons par path ih =>
    obtain ⟨⟨L', hpar, hL', hkey⟩, -⟩ := hf.above
    obtain ⟨N, hN⟩ := (hf.shape.page hpar).internal hL'
    have hnode : H₀.node par = some (.internal N) := by
      rw [← hf.same hpar (by rw [hL']; exact Nat.le_succ _) ?_, hN.node]
      rintro rfl
      rw [hf.label] at hpar
      exact absurd (congrArg Label.height (Option.some.inj hpar)) (by rw [hL']; omega)
    obtain ⟨a, b, hentries, -⟩ := hf.shape.entry_of_mem hf.label hf.mem hN hkey
    cases a with
    | cons e a =>
      obtain ⟨-, hcells⟩ := List.cons.inj hentries
      exact returns_fixLater hf hpar hL' hkey hN hnode hcells hok ih
    | nil =>
      obtain ⟨hfirst, hcells⟩ := List.cons.inj hentries
      have hfirst : N.hdr.firstChild = p := congrArg Prod.snd hfirst
      cases b with
      | cons c b => exact returns_fixFirst hf hpar hL' hkey hN hnode hfirst hcells hok ih
      | nil =>
        obtain ⟨e, he⟩ := position_first_error hfirst hcells
        rw [Heap.FixOk, hnode] at hok
        dsimp only at hok
        rw [he] at hok
        exact hok.elim

end Fix

/-! ## Removal -/

section Remove

variable {H : Heap} {lab : Labels} {m : Bytes → Option Bytes} {key : Bytes} {p : PageId}
  {L : Label Bytes} {N : Node Bytes}

/-- The leaf without the key holds the map without it. -/
theorem shape_removeCell {a b : List (Bytes × Bytes)} {v : Bytes} (h : Shape H lab lab m)
    (hp : lab p = some L) (hL : L.height = 0) (hkey : L.Mem key) (hN : LeafOk H lab m p L N)
    (hcells : N.cells = a ++ (key, v) :: b) :
    Shape (H.put p (.leaf (N.removeCell a.length))) lab lab (Function.update m key none) := by
  have hrest : (N.removeCell a.length).cells = a ++ b := by
    rw [Node.removeCell_cells, hcells, eraseIdx_append_cons]
  have hsorted := hN.sorted
  rw [hcells] at hsorted
  refine h.rewrite hp (Pending.refl lab L) (update_or hL hkey none) ?_
  refine LeafOk.pageOk (N := N.removeCell a.length) ⟨Heap.put_node_self .., ?_, ?_, ?_, hN.right⟩ hL
  · rw [hrest]
    exact hsorted.remove
  · intro c hc
    rw [hrest] at hc
    refine hN.mem c ?_
    rw [hcells]
    exact List.mem_of_mem_eraseIdx (i := a.length) (by rwa [eraseIdx_append_cons])
  · intro k hk
    rw [hrest, slotGet_remove hsorted, Function.update_apply]
    by_cases e : k = key
    · rw [if_pos e, if_pos e]
    · rw [if_neg e, if_neg e, hN.get k hk, hcells]

/-- **`remove`** takes the key out of the map, and says whether it was there. -/
theorem returns_remove (h : Shape H lab lab m) (hpins : H.pins = 0) (hok : H.RemoveOk key) :
    Returns view (remove key) H fun r H' =>
      r = (m key).isSome ∧ H'.pins = 0 ∧ ∃ lab', Shape H' lab' lab' (Function.update m key none) := by
  refine (returns_findLeaf h key).bind ?_
  rintro ⟨p, path⟩ _ ⟨hfind, rfl, j, hroot, ⟨L, hp, hL, hkey⟩, hlen, habove⟩
  dsimp only at hp hlen habove ⊢
  obtain ⟨N, hN⟩ := (h.page hp).leaf hL
  have hlive := h.isLive hp
  rw [Heap.RemoveOk, hfind] at hok
  dsimp only at hok
  rw [hN.node] at hok
  dsimp only at hok
  refine (returns_readPage (p := p) (by exact hlive.isSome)).bind ?_
  rintro ⟨id, data⟩ _ ⟨rfl, rfl⟩
  refine (returns_leafNode (N := N) (by exact hN.node)).bind ?_
  rintro n _ ⟨rfl, rfl⟩
  dsimp only
  obtain ⟨a, b, hab, hcut⟩ := hN.sorted.cut key
  rw [Node.bare_cells] at hab
  rw [Node.bare_cells, hab, hcut.lowerBound, List.getElem?_append_right le_rfl, Nat.sub_self] at hok
  rw [hab, hcut.lowerBound, List.getElem?_append_right le_rfl, Nat.sub_self]
  have hm : m key = slotGet b key := by
    rw [hN.get key hkey, Node.bare_cells, hab, slotGet_append,
      slotGet_eq_none fun c hc => (hcut.lt c hc).ne, Option.none_or]
  have hsorted := hN.sorted
  rw [Node.bare_cells, hab] at hsorted
  rcases hsorted.cut_cases hcut with ⟨v, b, rfl⟩ | hgt
  · have hany : ((((key, v) :: b)[0]?).any fun c => decide (c.1 = key)) = true := by simp
    have hshape := shape_removeCell h hp hL hkey hN hab
    rw [if_pos hany]
    refine (returns_writeLeaf _ (by exact hlive.isSome)).seq ?_
    rw [Node.bare_removeCell, Heap.put_pin]
    refine .get_bind ?_
    intro t ht
    have hroot' : t.rootPageId = H.root := congrArg Heap.root ht
    rw [hroot']
    refine (returns_unpin true).seq ?_
    rw [Heap.unpin_pin]
    have hpresent : true = (m key).isSome := by rw [hm]; simp [slotGet_cons]
    split
    · next hunder =>
      have hfix : Fixing H (H.put p (.leaf (n.bare.removeCell a.length))) lab
          (Function.update m key none) key 0 p L (.leaf (n.bare.removeCell a.length)) path := by
        constructor
        case shape => exact hshape
        case label => exact hp
        case mem => exact hkey
        case node => exact Heap.put_node_self ..
        case underflow => exact hunder.1
        case above =>
          rw [hL]
          exact habove
        case root =>
          rw [hL, hlen, Nat.zero_add]
          exact hroot
        case ne_root => exact hunder.2
        case pins => exact hpins
        case free => rfl
        case root_eq => rfl
        case same => exact fun _ _ hne => Heap.put_node_of_ne _ _ hne
      refine (returns_fixUnderflow hfix (hok hany hunder.1 hunder.2)).bind ?_
      rintro _ _ ⟨hpins', hshape'⟩
      exact .pure ⟨hpresent, hpins', hshape'⟩
    · exact .pure ⟨hpresent, hpins, lab, hshape⟩
  · have habsent : m key = none := by
      rw [hm]
      exact slotGet_eq_none fun c hc => (hgt c hc).ne'
    have hany : ¬ ((b[0]?).any fun c => decide (c.1 = key)) = true := by
      cases b with
      | nil => exact nofun
      | cons c b => simp [(hgt c List.mem_cons_self).ne']
    rw [if_neg hany]
    refine (returns_unpin false).seq ?_
    rw [Heap.unpin_pin]
    refine .pure ⟨by rw [habsent]; rfl, hpins, lab, ?_⟩
    rwa [← habsent, Function.update_eq_self]

end Remove

end BTree

end KeyVDB
