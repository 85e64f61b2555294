import KeyVDB.BTree.Shape

/-!
# The search

`find_leaf` and `get` on a heap with the shape of a search tree. The breadcrumbs are the pages
that cover the key at the heights above the leaf, and the descent ends because every height has a
page of its own.
-/

namespace KeyVDB

namespace Heap

/-- The loop of `find_leaf` on the heap. -/
def descend (H : Heap) (key : Bytes) : Nat → PageId → List PageId → Option (PageId × List PageId)
  | 0, _, _ => none
  | fuel + 1, cur, breadcrumbs =>
    match H.node cur with
    | some (.leaf _) => some (cur, breadcrumbs)
    | some (.internal n) => H.descend key fuel (n.childFor key) (cur :: breadcrumbs)
    | none => none

/-- The leaf for a key and the pages above it, the innermost first. -/
def findLeaf (H : Heap) (key : Bytes) : Option (PageId × List PageId) :=
  H.descend key (H.numPages + 1) H.root []

end Heap

/-- The pages that cover `key` at the heights `h`, `h + 1`, … -/
def Path (lab : Labels) (key : Bytes) : Nat → List PageId → Prop
  | _, [] => True
  | h, p :: path => (∃ L, lab p = some L ∧ L.height = h ∧ L.Mem key) ∧ Path lab key (h + 1) path

theorem Path.label_of_mem {lab : Labels} {key : Bytes} {h : Nat} {path : List PageId}
    (hpath : Path lab key h path) {p : PageId} (hp : p ∈ path) :
    ∃ L, lab p = some L ∧ h ≤ L.height := by
  induction path generalizing h with
  | nil => cases hp
  | cons q path ih =>
    obtain ⟨⟨L, hq, hL, -⟩, hpath⟩ := hpath
    rcases List.mem_cons.mp hp with rfl | hp
    · exact ⟨L, hq, hL.ge⟩
    · obtain ⟨L', hp, hle⟩ := ih hpath hp
      exact ⟨L', hp, by omega⟩

namespace Shape

variable {H : Heap} {seen lab : Labels} {m : Bytes → Option Bytes} {p : PageId} {L : Label Bytes}

/-! ## The height of the tree -/

/-- There is a page at every height below that of a page. -/
theorem exists_page_of_height (h : Shape H lab lab m) {j i : Nat} (hp : lab p = some L)
    (hL : L.height = j) (hi : i ≤ j) : ∃ q Lq, lab q = some Lq ∧ Lq.height = i := by
  induction j generalizing p L with
  | zero => exact ⟨p, L, hp, by omega⟩
  | succ j ih =>
    rcases hi.eq_or_lt with rfl | hlt
    · exact ⟨p, L, hp, hL⟩
    · obtain ⟨N, hN⟩ := (h.page hp).internal hL
      exact ih hN.chain.1 rfl (Nat.le_of_lt_succ hlt)

/-- **The tree is not higher than the file is long.** -/
theorem height_lt (h : Shape H lab lab m) (hp : lab p = some L) : L.height < H.numPages := by
  choose f Lf hf hheight using fun i : Fin (L.height + 1) =>
    h.exists_page_of_height hp rfl (Nat.le_of_lt_succ i.isLt)
  have hpos : ∀ i, 0 ≤ f i := fun i => (h.live (hf i)).1.le
  have hlt : ∀ i, (f i).toNat < H.numPages := by
    intro i
    have hbound := (h.live (hf i)).2.1
    exact (Int.toNat_lt (hpos i)).mpr hbound
  have hinj : Function.Injective fun i => (⟨(f i).toNat, hlt i⟩ : Fin H.numPages) := by
    intro i i' e
    have hnat : (f i).toNat = (f i').toNat := congrArg Fin.val e
    have hpage : f i = f i' := by
      rw [← Int.toNat_of_nonneg (hpos i), hnat, Int.toNat_of_nonneg (hpos i')]
    have hlabel := hf i
    rw [hpage, hf i'] at hlabel
    refine Fin.ext ?_
    rw [← hheight i, ← hheight i', Option.some.inj hlabel]
  have hcard := Fintype.card_le_of_injective _ hinj
  simp only [Fintype.card_fin] at hcard
  exact hcard

end Shape

/-! ## Routing -/

/-- The child for a key covers it. -/
theorem InternalOk.childFor {H : Heap} {seen : Labels} {p : PageId} {L : Label Bytes} {j : Nat}
    {N : Node PageId} (hN : InternalOk H seen p L j N) {key : Bytes} (hkey : L.Mem key) :
    ∃ a x b, entries L.lo N = a ++ x :: b ∧ x.2 = N.childFor key ∧ (∀ y ∈ b, key < y.1) ∧
      ∃ L', seen x.2 = some L' ∧ L'.height = j ∧ L'.Mem key ∧ L'.lo = x.1 := by
  obtain ⟨a, x, b, hab, hx, hle, hgt⟩ :=
    Node.childFor_spec (Sorted.cons_iff.mp hN.chain.sorted).2 hkey.1
  have hchain := hN.chain
  rw [entries, hab] at hchain
  obtain ⟨L', hL', hheight, hmem⟩ := hchain.route hkey.2 hle hgt
  obtain ⟨k, hlabel⟩ := hchain.label_of_mem (x := x) (by simp)
  refine ⟨a, x, b, hab, hx, hgt, L', hL', hheight, hmem, ?_⟩
  rw [hL'] at hlabel
  exact congrArg Label.lo (Option.some.inj hlabel)

/-- A page that covers the key stands in its parent where the key is looked for. -/
theorem Shape.entry_of_mem {H : Heap} {seen lab : Labels} {m : Bytes → Option Bytes}
    {p par : PageId} {L L' : Label Bytes} {N : Node PageId} {key : Bytes}
    (h : Shape H seen lab m) (hp : seen p = some L) (hkey : L.Mem key)
    (hN : InternalOk H seen par L' L.height N) (hkey' : L'.Mem key) :
    ∃ a b, entries L'.lo N = a ++ (L.lo, p) :: b ∧ ∀ y ∈ b, key < y.1 := by
  obtain ⟨a, x, b, hab, -, hgt, Lx, hx, hLx, hkeyx, hlo⟩ := hN.childFor hkey'
  have hxp : x.2 = p := h.apart_seen hx hp hLx hkeyx hkey
  rw [hxp, hp] at hx
  refine ⟨a, b, ?_, hgt⟩
  rw [hab, ← hxp, Option.some.inj hx, hlo]

namespace BTree

variable {H : Heap} {lab : Labels} {m : Bytes → Option Bytes}

/-- What `find_leaf` returns: a leaf that covers the key, pinned, and the path to it. -/
structure Found (lab : Labels) (key : Bytes) (top : Nat) (p : PageId) (path : List PageId) :
    Prop where
  leaf : ∃ L, lab p = some L ∧ L.height = 0 ∧ L.Mem key
  length : path.length = top
  above : Path lab key 1 path

theorem returns_descend (h : Shape H lab lab m) {key : Bytes} {fuel j : Nat} {cur : PageId}
    {breadcrumbs : List PageId} {L : Label Bytes} (hcur : lab cur = some L) (hL : L.height = j)
    (hkey : L.Mem key) (hpath : Path lab key (j + 1) breadcrumbs) (hfuel : j < fuel) :
    Returns view (descend key fuel cur breadcrumbs) H fun r H' =>
      H.descend key fuel cur breadcrumbs = some r ∧ H' = H.pin r.1 ∧
        Found lab key (breadcrumbs.length + j) r.1 r.2 := by
  induction fuel generalizing cur L j breadcrumbs with
  | zero => omega
  | succ fuel ih =>
    have hlive := h.isLive hcur
    refine (returns_fetch _ hlive.pos hlive.lt).seqVal ?_
    cases j with
    | zero =>
      obtain ⟨N, hN⟩ := (h.page hcur).leaf hL
      refine (returns_node (N := .leaf N) (by exact hN.node)).bind ?_
      rintro (n | n) _ ⟨hbare, rfl⟩
      · refine .pure ⟨?_, rfl, ⟨L, hcur, hL, hkey⟩, rfl, hpath⟩
        simp only [Heap.descend, hN.node]
      · cases hbare
    | succ j =>
      obtain ⟨N, hN⟩ := (h.page hcur).internal hL
      obtain ⟨-, x, -, -, hx, -, L', hchild, hL', hkey', -⟩ := hN.childFor hkey
      rw [hx] at hchild
      refine (returns_node (N := .internal N) (by exact hN.node)).bind ?_
      rintro (n | n) _ ⟨hbare, rfl⟩
      · cases hbare
      · cases hbare
        refine (returns_unpin false).seq ?_
        rw [Heap.unpin_pin]
        have hpath' : Path lab key (j + 1) (cur :: breadcrumbs) := ⟨⟨L, hcur, hL, hkey⟩, hpath⟩
        refine (ih hchild hL' hkey' hpath' (by omega)).mono ?_
        rintro r _ ⟨hdesc, rfl, hfound⟩
        refine ⟨?_, rfl, hfound.leaf, ?_, hfound.above⟩
        · simp only [Heap.descend, hN.node]
          exact hdesc
        · have hlen := hfound.length
          rw [List.length_cons] at hlen
          omega

/-- **`find_leaf`** returns the leaf that covers the key. -/
theorem returns_findLeaf (h : Shape H lab lab m) (key : Bytes) :
    Returns view (findLeaf key) H fun r H' =>
      H.findLeaf key = some r ∧ H' = H.pin r.1 ∧
        ∃ j, lab H.root = some ⟨j, [], ⊤⟩ ∧ Found lab key j r.1 r.2 := by
  obtain ⟨j, hroot, -⟩ := h.root
  refine .get_bind ?_
  rintro t rfl
  have hkey : (⟨j, [], ⊤⟩ : Label Bytes).Mem key := ⟨nil_le_bytes key, WithTop.coe_lt_top _⟩
  have hpath : Path lab key (j + 1) [] := trivial
  refine (returns_descend h hroot rfl hkey hpath ?_).mono ?_
  · have hlt := h.height_lt hroot
    exact Nat.lt_succ_of_lt hlt
  · rintro r _ ⟨hdesc, rfl, hfound⟩
    refine ⟨hdesc, rfl, j, hroot, hfound.leaf, ?_, hfound.above⟩
    rw [hfound.length, List.length_nil, Nat.zero_add]

/-- What a leaf has under a key, as `get` looks it up. -/
theorem getElem?_lowerBound {cells : List (Bytes × Bytes)} (hs : Sorted cells) (key : Bytes) :
    (match cells[lowerBound cells key]? with
      | some (k, value) => if k = key then some value else none
      | none => none) = slotGet cells key := by
  obtain ⟨a, b, rfl, hcut⟩ := hs.cut key
  rw [hcut.lowerBound, List.getElem?_append_right le_rfl, Nat.sub_self, slotGet_append,
    slotGet_eq_none fun c hc => (hcut.lt c hc).ne, Option.none_or]
  rcases hs.cut_cases hcut with ⟨v, b, rfl⟩ | hgt
  · simp [slotGet_cons]
  · rw [slotGet_eq_none fun c hc => (hgt c hc).ne']
    cases b with
    | nil => rfl
    | cons c b => simp [(hgt c List.mem_cons_self).ne']

/-- **`get`** returns what the map has, and leaves the heap alone. -/
theorem returns_get (h : Shape H lab lab m) (key : Bytes) :
    Returns view (get key) H fun r H' => r = m key ∧ H = H' := by
  refine (returns_findLeaf h key).bind ?_
  rintro ⟨p, path⟩ _ ⟨-, rfl, -, -, ⟨L, hp, hL, hkey⟩, -⟩
  obtain ⟨N, hN⟩ := (h.page hp).leaf hL
  refine (returns_readPage (by exact (h.isLive hp).isSome)).bind ?_
  rintro ⟨id, data⟩ _ ⟨rfl, rfl⟩
  refine (returns_leafNode (N := N) (by exact hN.node)).bind ?_
  rintro n _ ⟨rfl, rfl⟩
  refine (returns_unpin false).seq ?_
  refine .pure ⟨?_, (Heap.unpin_pin _ _).symm⟩
  rw [hN.get key hkey]
  exact getElem?_lowerBound hN.sorted key

end BTree

end KeyVDB
