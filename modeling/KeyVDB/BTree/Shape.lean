import KeyVDB.BTree.Store
import KeyVDB.Lib.Chain
import Mathlib.Data.Fintype.Card

/-!
# The search tree in the heap

Every page of the tree carries a label, the interval of keys it covers and its height; labels are
proof data that no page stores. `Shape` relates the pages to their labels and to the map `m`
that the tree stands for. A page that was split and whose parent does not know it yet is seen by the
parent with its old label, so there are two labellings: `lab`, and `seen` from above. At rest they
are the same.

The lemmas of the second half are the moves that keep the shape: one page is rewritten, a page is
split in two, a new root is put on top, two neighbours divide their keys anew, the root is taken
away.
-/

namespace KeyVDB

/-- The labels of the pages that are in the tree. -/
abbrev Labels := PageId → Option (Label Bytes)

theorem nil_le_bytes (k : Bytes) : [] ≤ k := not_lt.mp (List.not_lt_nil k)

/-- The children of a node, each with the key from which it starts. -/
def entries (lo : Bytes) (N : Node PageId) : List (Bytes × PageId) :=
  (lo, N.hdr.firstChild) :: N.cells

/-- The right sibling of a leaf starts where the leaf ends. -/
structure RightOk (lab : Labels) (hi : WithTop Bytes) (right : PageId) : Prop where
  last : hi = ⊤ → right = INVALID_PAGE_ID
  next : ∀ x : Bytes, hi = x → ∃ hi', lab right = some ⟨0, x, hi'⟩

/-- A leaf with label `L`: it holds what the map has for the keys it covers. -/
structure LeafOk (H : Heap) (lab : Labels) (m : Bytes → Option Bytes) (p : PageId)
    (L : Label Bytes) (N : Node Bytes) : Prop where
  node : H.node p = some (.leaf N)
  sorted : Sorted N.cells
  mem : ∀ c ∈ N.cells, L.Mem c.1
  get : ∀ k, L.Mem k → m k = slotGet N.cells k
  right : RightOk lab L.hi N.hdr.rightSibling

/-- An internal node with label `L`: its children divide what it covers. -/
structure InternalOk (H : Heap) (seen : Labels) (p : PageId) (L : Label Bytes) (h : Nat)
    (N : Node PageId) : Prop where
  node : H.node p = some (.internal N)
  chain : Chain seen h L.hi (entries L.lo N)

/-- The page is what its label says. -/
def PageOk (H : Heap) (seen lab : Labels) (m : Bytes → Option Bytes) (p : PageId)
    (L : Label Bytes) : Prop :=
  match L.height with
  | 0 => ∃ N, LeafOk H lab m p L N
  | h + 1 => ∃ N, InternalOk H seen p L h N

/-- The heap is a search tree for the map `m`. -/
structure Shape (H : Heap) (seen lab : Labels) (m : Bytes → Option Bytes) : Prop where
  page : ∀ {p L}, lab p = some L → PageOk H seen lab m p L
  live : ∀ {p L}, lab p = some L → 0 < p ∧ p < H.numPages ∧ p ∉ H.freePages
  proper : ∀ {p L}, lab p = some L → L.Proper
  apart : Apart lab
  apart_seen : Apart seen
  root : ∃ h, seen H.root = some ⟨h, [], ⊤⟩ ∧ ∀ {p L}, lab p = some L → L.height ≤ h
  free_nodup : H.freePages.Nodup
  free_live : ∀ p ∈ H.freePages, 0 < p ∧ p < H.numPages
  numPages_pos : 0 < H.numPages

/-! ## New pages -/

namespace Heap

/-- There is page 0, and the free list has distinct pages of the file. -/
structure PoolOk (H : Heap) : Prop where
  free_nodup : H.freePages.Nodup
  free_live : ∀ p ∈ H.freePages, 0 < p ∧ p < H.numPages
  numPages_pos : 0 < H.numPages

namespace PoolOk

variable {H : Heap}

/-- The page that `new_page` takes is the last one of the free list, or the first one beyond the
file. -/
theorem next_cases (h : H.PoolOk) :
    (H.freePages = [] ∧ H.next = H.numPages ∧ H.alloc.numPages = H.numPages + 1) ∨
      ∃ l, H.freePages = l ++ [H.next] ∧ H.alloc.freePages = l ∧
        H.alloc.numPages = H.numPages := by
  rcases List.eq_nil_or_concat H.freePages with hnil | ⟨l, id, hl⟩
  · refine Or.inl ⟨hnil, ?_, ?_⟩
    · simp only [Heap.next, nextPage, hnil, List.getLast?_nil]
    · simp only [Heap.alloc, nextPage, hnil, List.getLast?_nil]
  · rw [List.concat_eq_append] at hl
    have hid : id ≠ INVALID_PAGE_ID := by
      rintro rfl
      exact absurd (h.free_live INVALID_PAGE_ID (by rw [hl]; simp)).1 (by decide)
    have hnext : nextPage H.freePages H.numPages = (id, H.numPages) := by
      rw [nextPage, hl, List.getLast?_concat]
      exact if_neg hid
    refine Or.inr ⟨l, ?_, ?_, ?_⟩
    · rw [Heap.next, hnext, hl]
    · rw [Heap.alloc, hl, List.dropLast_concat]
    · rw [Heap.alloc, hnext]

theorem next_live (h : H.PoolOk) :
    0 < H.next ∧ H.next < H.alloc.numPages ∧ H.next ∉ H.alloc.freePages := by
  rcases h.next_cases with ⟨hnil, hnext, hnum⟩ | ⟨l, hl, hfree, hnum⟩
  · have hpos := h.numPages_pos
    have hfree : H.alloc.freePages = [] := by rw [Heap.alloc, hnil]; rfl
    rw [hnext, hnum, hfree]
    exact ⟨by exact_mod_cast hpos, by exact_mod_cast Nat.lt_succ_self _, nofun⟩
  · obtain ⟨hpos, hlt⟩ := h.free_live H.next (by rw [hl]; simp)
    have hnodup := h.free_nodup
    rw [hl, List.nodup_append] at hnodup
    rw [hnum, hfree]
    exact ⟨hpos, hlt, fun hmem => hnodup.2.2 _ hmem _ List.mem_cons_self rfl⟩

theorem alloc_numPages (h : H.PoolOk) : H.numPages ≤ H.alloc.numPages := by
  rcases h.next_cases with ⟨-, -, hnum⟩ | ⟨l, -, -, hnum⟩ <;> omega

theorem mem_of_alloc {q : PageId} (hq : q ∈ H.alloc.freePages) : q ∈ H.freePages :=
  List.dropLast_subset _ hq

theorem free_alloc (h : H.PoolOk) :
    H.alloc.freePages.Nodup ∧ ∀ q ∈ H.alloc.freePages, 0 < q ∧ q < H.alloc.numPages := by
  refine ⟨h.free_nodup.sublist (List.dropLast_sublist _), fun q hq => ?_⟩
  obtain ⟨hpos, hlt⟩ := h.free_live q (mem_of_alloc hq)
  have hnum := h.alloc_numPages
  exact ⟨hpos, lt_of_lt_of_le hlt (by exact_mod_cast hnum)⟩

/-- A page that was in use joins the free list. -/
theorem release {H' : Heap} {p : PageId} (h : H.PoolOk) (hpos : 0 < p) (hlt : p < H.numPages)
    (hmem : p ∉ H.freePages) (hnum : H'.numPages = H.numPages)
    (hfree : H'.freePages = H.freePages ++ [p]) : H'.PoolOk where
  free_nodup := by
    rw [hfree]
    refine List.nodup_append.mpr ⟨h.free_nodup, List.nodup_singleton p, fun x hx y hy => ?_⟩
    rw [List.mem_singleton.mp hy]
    rintro rfl
    exact hmem hx
  free_live x hx := by
    rw [hnum]
    rw [hfree] at hx
    rcases List.mem_append.mp hx with hx | hx
    · exact h.free_live x hx
    · rw [List.mem_singleton.mp hx]
      exact ⟨hpos, hlt⟩
  numPages_pos := by
    rw [hnum]
    exact h.numPages_pos

end PoolOk

end Heap

section Pages

variable {H H' : Heap} {seen seen' lab lab' : Labels} {m m' : Bytes → Option Bytes} {p : PageId}
  {L : Label Bytes}

theorem PageOk.isSome (h : PageOk H seen lab m p L) : (H.node p).isSome := by
  unfold PageOk at h
  split at h
  · obtain ⟨N, hN⟩ := h
    rw [hN.node]
    rfl
  · obtain ⟨N, hN⟩ := h
    rw [hN.node]
    rfl

theorem PageOk.leaf (h : PageOk H seen lab m p L) (hL : L.height = 0) :
    ∃ N, LeafOk H lab m p L N := by
  unfold PageOk at h
  rwa [hL] at h

theorem PageOk.internal {j : Nat} (h : PageOk H seen lab m p L) (hL : L.height = j + 1) :
    ∃ N, InternalOk H seen p L j N := by
  unfold PageOk at h
  rwa [hL] at h

theorem LeafOk.pageOk {N : Node Bytes} (h : LeafOk H lab m p L N) (hL : L.height = 0) :
    PageOk H seen lab m p L := by
  unfold PageOk
  rw [hL]
  exact ⟨N, h⟩

theorem InternalOk.pageOk {N : Node PageId} {j : Nat} (h : InternalOk H seen p L j N)
    (hL : L.height = j + 1) : PageOk H seen lab m p L := by
  unfold PageOk
  rw [hL]
  exact ⟨N, h⟩

/-- **The frame rule.** A page that is not changed stays what its label says if the map is the same
there, its right sibling still starts at the same key and its children are seen as before. -/
theorem PageOk.frame (h : PageOk H seen lab m p L) (hnode : H'.node p = H.node p)
    (hm : L.height = 0 → ∀ k, L.Mem k → m' k = m k)
    (hright : L.height = 0 → ∀ {r hi'} {x : Bytes}, L.hi = x → lab r = some ⟨0, x, hi'⟩ →
      ∃ hi'', lab' r = some ⟨0, x, hi''⟩)
    (hchild : ∀ {c L'}, L.height = L'.height + 1 → seen c = some L' → L.Mem L'.lo →
      seen' c = some L') : PageOk H' seen' lab' m' p L := by
  cases hL : L.height with
  | zero =>
    obtain ⟨N, hN⟩ := h.leaf hL
    refine LeafOk.pageOk ⟨by rw [hnode, hN.node], hN.sorted, hN.mem, ?_, hN.right.last, ?_⟩ hL
    · intro k hk
      rw [hm hL k hk, hN.get k hk]
    · intro x hx
      obtain ⟨hi', hr⟩ := hN.right.next x hx
      exact hright hL hx hr
  | succ j =>
    obtain ⟨N, hN⟩ := h.internal hL
    refine InternalOk.pageOk ⟨by rw [hnode, hN.node], hN.chain.congr ?_⟩ hL
    intro x hx
    obtain ⟨hi', hlabel⟩ := hN.chain.label_of_mem hx
    rw [hlabel]
    exact hchild hL hlabel (hN.chain.mem_label hx)

end Pages

/-- Only children of the page with label `L` are seen otherwise than they are. -/
def Pending (seen lab : Labels) (L : Label Bytes) : Prop :=
  ∀ {c L'}, seen c = some L' → lab c = some L' ∨ L'.height + 1 = L.height ∧ L.Mem L'.lo

theorem Pending.refl (lab : Labels) (L : Label Bytes) : Pending lab lab L := fun hc => Or.inl hc

namespace Shape

variable {H : Heap} {seen lab : Labels} {m m' : Bytes → Option Bytes} {p : PageId}
  {L : Label Bytes}

theorem isLive (h : Shape H seen lab m) (hp : lab p = some L) : H.Live p :=
  ⟨(h.live hp).1, (h.live hp).2.1, (h.page hp).isSome⟩

theorem poolOk (h : Shape H seen lab m) : H.PoolOk :=
  ⟨h.free_nodup, h.free_live, h.numPages_pos⟩

theorem next_live (h : Shape H seen lab m) :
    0 < H.next ∧ H.next < H.alloc.numPages ∧ H.next ∉ H.alloc.freePages :=
  h.poolOk.next_live

theorem alloc_numPages (h : Shape H seen lab m) : H.numPages ≤ H.alloc.numPages :=
  h.poolOk.alloc_numPages

theorem free_alloc (h : Shape H seen lab m) :
    H.alloc.freePages.Nodup ∧ ∀ q ∈ H.alloc.freePages, 0 < q ∧ q < H.alloc.numPages :=
  h.poolOk.free_alloc

theorem next_fresh (h : Shape H seen lab m) : lab H.next = none := by
  refine Option.eq_none_iff_forall_ne_some.mpr fun L hL => ?_
  obtain ⟨-, hlt, hfree⟩ := h.live hL
  rcases h.poolOk.next_cases with ⟨-, hnext, -⟩ | ⟨l, hl, -⟩
  · rw [hnext] at hlt
    exact lt_irrefl _ hlt
  · exact hfree (by rw [hl]; simp)

theorem ne_next (h : Shape H seen lab m) (hp : lab p = some L) : p ≠ H.next := by
  rintro rfl
  rw [h.next_fresh] at hp
  cases hp

/-- A page of the tree is still there after `new_page`. -/
theorem live_alloc (h : Shape H seen lab m) (hp : lab p = some L) :
    0 < p ∧ p < H.alloc.numPages ∧ p ∉ H.alloc.freePages := by
  obtain ⟨hpos, hlt, hfree⟩ := h.live hp
  have hnum := h.alloc_numPages
  exact ⟨hpos, lt_of_lt_of_le hlt (by exact_mod_cast hnum), fun hmem =>
    hfree (Heap.PoolOk.mem_of_alloc hmem)⟩

theorem alloc_node (h : Shape H seen lab m) (hp : lab p = some L) :
    H.alloc.node p = H.node p :=
  Function.update_of_ne (h.ne_next hp) ..

/-! ## One page is rewritten -/

/-- Pages other than the one with label `L` see their children as they are. -/
theorem child_of_ne (h : Shape H seen lab m) (hp : lab p = some L) (hpend : Pending seen lab L)
    {x c : PageId} {Lx L' : Label Bytes} (hx : lab x = some Lx) (hne : x ≠ p)
    (hh : Lx.height = L'.height + 1) (hc : seen c = some L') (hmem : Lx.Mem L'.lo) :
    lab c = some L' := by
  refine (hpend hc).resolve_right ?_
  rintro ⟨hL, hmem'⟩
  exact hne (h.apart hx hp (hh.trans hL) hmem hmem')

theorem root_of_pending (h : Shape H seen lab m) (hp : lab p = some L)
    (hpend : Pending seen lab L) :
    ∃ j, lab H.root = some ⟨j, [], ⊤⟩ ∧ ∀ {q L'}, lab q = some L' → L'.height ≤ j := by
  obtain ⟨j, hroot, htop⟩ := h.root
  refine ⟨j, (hpend hroot).resolve_right ?_, htop⟩
  rintro ⟨hL, -⟩
  have hle := htop hp
  rw [← hL] at hle
  exact absurd hle (Nat.not_succ_le_self j)

/-- **One page is rewritten**, and its children are seen as they are from now on. -/
theorem rewrite {n : AnyNode} (h : Shape H seen lab m) (hp : lab p = some L)
    (hpend : Pending seen lab L) (hm : ∀ k, m' k = m k ∨ L.height = 0 ∧ L.Mem k)
    (hpage : PageOk (H.put p n) lab lab m' p L) : Shape (H.put p n) lab lab m' where
  page {x Lx} hx := by
    by_cases hne : x = p
    · subst hne
      rw [hp] at hx
      exact Option.some.inj hx ▸ hpage
    · refine (h.page hx).frame (Heap.put_node_of_ne _ _ hne) ?_ (fun _ {r hi' x} _ hr => ⟨hi', hr⟩)
        fun hh hc hmem => h.child_of_ne hp hpend hx hne hh hc hmem
      intro hLx k hk
      refine (hm k).resolve_right ?_
      rintro ⟨hL, hk'⟩
      exact hne (h.apart hx hp (hLx.trans hL.symm) hk hk')
  live := h.live
  proper := h.proper
  apart := h.apart
  apart_seen := h.apart
  root := h.root_of_pending hp hpend
  free_nodup := h.free_nodup
  free_live := h.free_live
  numPages_pos := h.numPages_pos

/-! ## A page is split -/

/-- The labels after a split of `p`: a new page `q` takes the keys from `sep` on. -/
def splitLab (lab : Labels) (p q : PageId) (L : Label Bytes) (sep : Bytes) : Labels :=
  Function.update (Function.update lab p (some { L with hi := sep })) q (some { L with lo := sep })

section SplitLab

variable {q : PageId} {sep : Bytes}

theorem splitLab_left (hne : p ≠ q) : splitLab lab p q L sep p = some { L with hi := sep } := by
  rw [splitLab, Function.update_of_ne hne, Function.update_self]

theorem splitLab_right : splitLab lab p q L sep q = some { L with lo := sep } :=
  Function.update_self ..

theorem splitLab_other {x : PageId} (hp : x ≠ p) (hq : x ≠ q) :
    splitLab lab p q L sep x = lab x := by
  rw [splitLab, Function.update_of_ne hq, Function.update_of_ne hp]

/-- What the labels are after a split. -/
theorem splitLab_cases {x : PageId} {Lx : Label Bytes} (hx : splitLab lab p q L sep x = some Lx) :
    x = q ∧ Lx = { L with lo := sep } ∨ x ≠ q ∧ x = p ∧ Lx = { L with hi := sep } ∨
      x ≠ q ∧ x ≠ p ∧ lab x = some Lx := by
  by_cases hq : x = q
  · subst hq
    rw [splitLab_right] at hx
    exact Or.inl ⟨rfl, (Option.some.inj hx).symm⟩
  · by_cases hp : x = p
    · subst hp
      rw [splitLab_left hq] at hx
      exact Or.inr (Or.inl ⟨hq, rfl, (Option.some.inj hx).symm⟩)
    · rw [splitLab_other hp hq] at hx
      exact Or.inr (Or.inr ⟨hq, hp, hx⟩)

theorem apart_splitLab (hapart : Apart lab) (hp : lab p = some L) (hne : p ≠ q)
    (hlo : L.lo < sep) (hhi : (sep : WithTop Bytes) < L.hi) :
    Apart (splitLab lab p q L sep) := by
  refine hapart.relabel (p := p) (q := q) (fun x hxp hxq => splitLab_other hxp hxq) ?_ ?_
  · intro x Lx k hx hlx hk
    refine ⟨p, L, Or.inl rfl, hp, ?_⟩
    rcases splitLab_cases hlx with ⟨-, rfl⟩ | ⟨-, -, rfl⟩ | ⟨hq, hp, -⟩
    · exact ⟨rfl, hlo.le.trans hk.1, hk.2⟩
    · exact ⟨rfl, hk.1, hk.2.trans hhi⟩
    · exact (hx.elim hp hq).elim
  · intro L₁ L₂ k h₁ h₂ hk hk'
    have hq : L₂ = { L with lo := sep } := Option.some.inj (h₂.symm.trans splitLab_right)
    have hp : L₁ = { L with hi := sep } := Option.some.inj (h₁.symm.trans (splitLab_left hne))
    subst hp hq
    exact not_lt.mpr hk'.1 (WithTop.coe_lt_coe.mp hk.2)

end SplitLab

/-- **A page is split.** Its parent still sees it with the old label. -/
theorem split {nl nr : AnyNode} {sep : Bytes} (h : Shape H seen lab m) (hp : lab p = some L)
    (hpend : Pending seen lab L) (hlo : L.lo < sep) (hhi : (sep : WithTop Bytes) < L.hi)
    (hm : ∀ k, m' k = m k ∨ L.height = 0 ∧ L.Mem k)
    (hl : PageOk ((H.alloc.put p nl).put H.next nr) lab (splitLab lab p H.next L sep) m' p
      { L with hi := sep })
    (hr : PageOk ((H.alloc.put p nl).put H.next nr) lab (splitLab lab p H.next L sep) m' H.next
      { L with lo := sep }) :
    Shape ((H.alloc.put p nl).put H.next nr) lab (splitLab lab p H.next L sep) m' where
  page {x Lx} hx := by
    rcases splitLab_cases hx with ⟨rfl, rfl⟩ | ⟨-, rfl, rfl⟩ | ⟨hnext, hne, hx⟩
    · exact hr
    · exact hl
    · refine (h.page hx).frame ?_ ?_ ?_ fun hh hc hmem => h.child_of_ne hp hpend hx hne hh hc hmem
      · rw [Heap.put_node_of_ne _ _ hnext, Heap.put_node_of_ne _ _ hne, h.alloc_node hx]
      · intro hLx k hk
        refine (hm k).resolve_right ?_
        rintro ⟨hL, hk'⟩
        exact hne (h.apart hx hp (hLx.trans hL.symm) hk hk')
      · -- the left half starts where the page started
        intro _ r hi' y _ hy
        by_cases hrp : r = p
        · subst hrp
          cases hp.symm.trans hy
          exact ⟨sep, splitLab_left (h.ne_next hp)⟩
        · exact ⟨hi', by rw [splitLab_other hrp (h.ne_next hy), hy]⟩
  live {x Lx} hx := by
    rcases splitLab_cases hx with ⟨rfl, -⟩ | ⟨-, rfl, -⟩ | ⟨-, -, hx⟩
    · exact h.next_live
    · exact h.live_alloc hp
    · exact h.live_alloc hx
  proper {x Lx} hx := by
    rcases splitLab_cases hx with ⟨-, rfl⟩ | ⟨-, -, rfl⟩ | ⟨-, -, hx⟩
    · exact hhi
    · exact WithTop.coe_lt_coe.mpr hlo
    · exact h.proper hx
  apart := apart_splitLab h.apart hp (h.ne_next hp) hlo hhi
  apart_seen := h.apart
  root := by
    obtain ⟨j, hroot, htop⟩ := h.root_of_pending hp hpend
    refine ⟨j, hroot, fun {x Lx} hx => ?_⟩
    rcases splitLab_cases hx with ⟨-, rfl⟩ | ⟨-, -, rfl⟩ | ⟨-, -, hx⟩
    · exact (htop hp : L.height ≤ j)
    · exact (htop hp : L.height ≤ j)
    · exact htop hx
  free_nodup := h.free_alloc.1
  free_live := h.free_alloc.2
  numPages_pos := h.numPages_pos.trans_le h.alloc_numPages

/-! ## A new root -/

/-- **A new root** over the old one, which was split. -/
theorem grow {n : AnyNode} {j : Nat} (h : Shape H seen lab m)
    (hroot : seen H.root = some ⟨j, [], ⊤⟩)
    (hpend : Pending seen lab ⟨j + 1, [], ⊤⟩)
    (hpage : PageOk ((H.alloc.put H.next n).setRoot H.next)
      (Function.update lab H.next (some ⟨j + 1, [], ⊤⟩))
      (Function.update lab H.next (some ⟨j + 1, [], ⊤⟩)) m H.next ⟨j + 1, [], ⊤⟩) :
    Shape ((H.alloc.put H.next n).setRoot H.next)
      (Function.update lab H.next (some ⟨j + 1, [], ⊤⟩))
      (Function.update lab H.next (some ⟨j + 1, [], ⊤⟩)) m := by
  have htop : ∀ {x Lx}, lab x = some Lx → Lx.height ≤ j := by
    obtain ⟨j', hroot', htop⟩ := h.root
    cases hroot.symm.trans hroot'
    exact htop
  have hold : ∀ {x Lx}, lab x = some Lx →
      Function.update lab H.next (some ⟨j + 1, [], ⊤⟩) x = some Lx := by
    intro x Lx hx
    rw [Function.update_of_ne (h.ne_next hx), hx]
  have hcases : ∀ {x Lx}, Function.update lab H.next (some ⟨j + 1, [], ⊤⟩) x = some Lx →
      x = H.next ∧ Lx = ⟨j + 1, [], ⊤⟩ ∨ x ≠ H.next ∧ lab x = some Lx := by
    intro x Lx hx
    by_cases hne : x = H.next
    · subst hne
      rw [Function.update_self] at hx
      exact Or.inl ⟨rfl, (Option.some.inj hx).symm⟩
    · rw [Function.update_of_ne hne] at hx
      exact Or.inr ⟨hne, hx⟩
  have hapart : Apart (Function.update lab H.next (some ⟨j + 1, [], ⊤⟩)) := by
    intro x y Lx Ly k hx hy hh hk hk'
    rcases hcases hx with ⟨rfl, rfl⟩ | ⟨-, hx⟩ <;> rcases hcases hy with ⟨rfl, rfl⟩ | ⟨-, hy⟩
    · rfl
    · exact absurd (htop hy) (by rw [← hh]; exact Nat.not_succ_le_self j)
    · exact absurd (htop hx) (by rw [hh]; exact Nat.not_succ_le_self j)
    · exact h.apart hx hy hh hk hk'
  constructor
  case page =>
    intro x Lx hx
    rcases hcases hx with ⟨rfl, rfl⟩ | ⟨hne, hx⟩
    · exact hpage
    · refine (h.page hx).frame ?_ (fun _ _ _ => rfl) (fun _ {r hi' y} _ hr => ⟨hi', hold hr⟩) ?_
      · change (H.alloc.put H.next n).node x = _
        rw [Heap.put_node_of_ne _ _ hne, h.alloc_node hx]
      · intro c L' hh hc _
        refine hold ((hpend hc).resolve_right ?_)
        rintro ⟨hL, -⟩
        -- no page is as high as the new root
        exact absurd (htop hx) (by rw [hh, hL]; exact Nat.not_succ_le_self j)
  case live =>
    intro x Lx hx
    rcases hcases hx with ⟨rfl, -⟩ | ⟨-, hx⟩
    · exact h.next_live
    · exact h.live_alloc hx
  case proper =>
    intro x Lx hx
    rcases hcases hx with ⟨-, rfl⟩ | ⟨-, hx⟩
    · exact WithTop.coe_lt_top _
    · exact h.proper hx
  case apart => exact hapart
  case apart_seen => exact hapart
  case root =>
    refine ⟨j + 1, Function.update_self .., fun {x Lx} hx => ?_⟩
    rcases hcases hx with ⟨-, rfl⟩ | ⟨-, hx⟩
    · exact le_rfl
    · exact (htop hx).trans (Nat.le_succ j)
  case free_nodup => exact h.free_alloc.1
  case free_live => exact h.free_alloc.2
  case numPages_pos => exact h.numPages_pos.trans_le h.alloc_numPages

end Shape

/-! ## Neighbours -/

/-- `p` and `q` are neighbours under the parent `par`; `mid` is the key between them. -/
structure Neighbours (lab : Labels) (par p q : PageId) (L : Label Bytes) (h : Nat) (lo mid : Bytes)
    (hi : WithTop Bytes) : Prop where
  parent : lab par = some L
  left : lab p = some ⟨h, lo, mid⟩
  right : lab q = some ⟨h, mid, hi⟩
  height : L.height = h + 1
  mem_left : L.Mem lo
  mem_right : L.Mem mid

namespace Neighbours

variable {H H' : Heap} {lab lab' : Labels} {m : Bytes → Option Bytes} {par p q : PageId}
  {L : Label Bytes} {h : Nat} {lo mid : Bytes} {hi : WithTop Bytes}

theorem ne (hn : Neighbours lab par p q L h lo mid hi) (hs : Shape H lab lab m) : p ≠ q := by
  rintro rfl
  have hproper : (lo : WithTop Bytes) < mid := hs.proper hn.left
  cases hn.left.symm.trans hn.right
  exact lt_irrefl _ hproper

theorem parent_ne_left (hn : Neighbours lab par p q L h lo mid hi) : par ≠ p := by
  rintro rfl
  cases hn.parent.symm.trans hn.left
  exact absurd hn.height (Nat.succ_ne_self h).symm

theorem parent_ne_right (hn : Neighbours lab par p q L h lo mid hi) : par ≠ q := by
  rintro rfl
  cases hn.parent.symm.trans hn.right
  exact absurd hn.height (Nat.succ_ne_self h).symm

/-- The pages that are neither of the two nor their parent do not notice. -/
theorem frame (hn : Neighbours lab par p q L h lo mid hi) (hs : Shape H lab lab m)
    (hother : ∀ x, x ≠ p → x ≠ q → lab' x = lab x) {e : WithTop Bytes}
    (hleft : lab' p = some ⟨h, lo, e⟩) {x : PageId} {Lx : Label Bytes} (hx : lab x = some Lx)
    (hxp : x ≠ p) (hxpar : x ≠ par) (hnode : H'.node x = H.node x) :
    PageOk H' lab' lab' m x Lx := by
  refine (hs.page hx).frame hnode (fun _ _ _ => rfl) ?_ ?_
  · intro hLx r hi' y hy hr
    by_cases hrp : r = p
    · subst hrp
      cases hn.left.symm.trans hr
      exact ⟨e, hleft⟩
    · by_cases hrq : r = q
      · -- only `p` ends where `q` starts
        subst hrq
        cases hn.right.symm.trans hr
        exact (hxp (Apart.eq_of_hi_eq hs.apart hx hn.left hLx (hs.proper hx) (hs.proper hn.left)
          hy)).elim
      · exact ⟨hi', by rw [hother r hrp hrq, hr]⟩
  · intro c L' hh hc hmem
    by_cases hcp : c = p
    · subst hcp
      cases hn.left.symm.trans hc
      exact (hxpar (hs.apart hx hn.parent (hh.trans hn.height.symm) hmem hn.mem_left)).elim
    · by_cases hcq : c = q
      · subst hcq
        cases hn.right.symm.trans hc
        exact (hxpar (hs.apart hx hn.parent (hh.trans hn.height.symm) hmem hn.mem_right)).elim
      · rw [hother c hcp hcq, hc]

/-- A key between the two ends is covered by one of the two. -/
theorem cover (hn : Neighbours lab par p q L h lo mid hi) {k : Bytes} (hlo : lo ≤ k)
    (hhi : (k : WithTop Bytes) < hi) :
    ∃ y L', (y = p ∨ y = q) ∧ lab y = some L' ∧ L'.height = h ∧ L'.Mem k := by
  rcases lt_or_ge k mid with hlt | hge
  · exact ⟨p, _, Or.inl rfl, hn.left, rfl, hlo, WithTop.coe_lt_coe.mpr hlt⟩
  · exact ⟨q, _, Or.inr rfl, hn.right, rfl, hge, hhi⟩

end Neighbours

/-- The labels after two neighbours divided their keys anew; `q` may be gone. -/
def regroupLab (lab : Labels) (p q : PageId) (L : Label Bytes) (L' : Option (Label Bytes)) :
    Labels :=
  Function.update (Function.update lab p (some L)) q L'

section Regroup

variable {lab : Labels} {p q : PageId} {L : Label Bytes} {L' : Option (Label Bytes)}

theorem regroupLab_left (hne : p ≠ q) : regroupLab lab p q L L' p = some L := by
  rw [regroupLab, Function.update_of_ne hne, Function.update_self]

theorem regroupLab_right : regroupLab lab p q L L' q = L' := Function.update_self ..

theorem regroupLab_other {x : PageId} (hp : x ≠ p) (hq : x ≠ q) :
    regroupLab lab p q L L' x = lab x := by
  rw [regroupLab, Function.update_of_ne hq, Function.update_of_ne hp]

theorem regroupLab_cases {x : PageId} {Lx : Label Bytes}
    (hx : regroupLab lab p q L L' x = some Lx) :
    x = q ∧ L' = some Lx ∨ x ≠ q ∧ x = p ∧ Lx = L ∨ x ≠ q ∧ x ≠ p ∧ lab x = some Lx := by
  by_cases hq : x = q
  · subst hq
    rw [regroupLab_right] at hx
    exact Or.inl ⟨rfl, hx⟩
  · by_cases hp : x = p
    · subst hp
      rw [regroupLab_left hq] at hx
      exact Or.inr (Or.inl ⟨hq, rfl, (Option.some.inj hx).symm⟩)
    · rw [regroupLab_other hp hq] at hx
      exact Or.inr (Or.inr ⟨hq, hp, hx⟩)

end Regroup

/-- How the keys from `lo` to `hi` are divided: `p` has those up to `e`, and `q` the rest, if
any. -/
inductive Divided (h : Nat) (lo : Bytes) (hi : WithTop Bytes) :
    WithTop Bytes → Option (Label Bytes) → Prop
  | two {mid : Bytes} : lo < mid → (mid : WithTop Bytes) < hi →
      Divided h lo hi mid (some ⟨h, mid, hi⟩)
  | one : Divided h lo hi hi none

namespace Shape

variable {H H' : Heap} {lab : Labels} {m : Bytes → Option Bytes} {par p q : PageId}
  {L : Label Bytes} {h : Nat} {lo mid : Bytes} {hi e : WithTop Bytes} {L' : Option (Label Bytes)}

/-- The pages that are free after two neighbours were regrouped. -/
def freed (free : List PageId) (q : PageId) : Option (Label Bytes) → List PageId
  | some _ => free
  | none => free ++ [q]

theorem apart_regroupLab (hs : Shape H lab lab m) (hn : Neighbours lab par p q L h lo mid hi)
    (hd : Divided h lo hi e L') : Apart (regroupLab lab p q ⟨h, lo, e⟩ L') := by
  refine Apart.relabel hs.apart (p := p) (q := q) (fun x hxp hxq => regroupLab_other hxp hxq) ?_ ?_
  · intro x Lx k hx hlx hk
    rcases regroupLab_cases hlx with ⟨-, hL⟩ | ⟨-, -, rfl⟩ | ⟨hxq, hxp, -⟩
    · cases hd with
      | two hlo hhi =>
        cases hL
        exact hn.cover (hlo.le.trans hk.1) hk.2
      | one => cases hL
    · cases hd with
      | two hlo hhi => exact hn.cover hk.1 (hk.2.trans hhi)
      | one => exact hn.cover hk.1 hk.2
    · exact (hx.elim hxp hxq).elim
  · intro L₁ L₂ k h₁ h₂ hk hk'
    rw [regroupLab_left (hn.ne hs)] at h₁
    rw [regroupLab_right] at h₂
    cases h₁
    cases hd with
    | two hlo hhi =>
      cases h₂
      exact not_lt.mpr hk'.1 (WithTop.coe_lt_coe.mp hk.2)
    | one => cases h₂

theorem poolOk_freed (hs : Shape H lab lab m) (hn : Neighbours lab par p q L h lo mid hi)
    (hd : Divided h lo hi e L') (hnum : H'.numPages = H.numPages)
    (hfree : H'.freePages = freed H.freePages q L') : H'.PoolOk := by
  cases hd with
  | two =>
    have hfree : H'.freePages = H.freePages := hfree
    constructor
    · rw [hfree]
      exact hs.free_nodup
    · rw [hfree, hnum]
      exact hs.free_live
    · rw [hnum]
      exact hs.numPages_pos
  | one =>
    obtain ⟨hpos, hlt, hmem⟩ := hs.live hn.right
    exact hs.poolOk.release hpos hlt hmem hnum hfree

/-- **Neighbours divide their keys anew**, or the left one takes them all and the right one is
freed. -/
theorem regroup (hs : Shape H lab lab m) (hn : Neighbours lab par p q L h lo mid hi)
    (hd : Divided h lo hi e L')
    (hnode : ∀ x, x ≠ par → x ≠ p → x ≠ q → H'.node x = H.node x)
    (hnum : H'.numPages = H.numPages) (hfree : H'.freePages = freed H.freePages q L')
    (hroot : H'.root = H.root)
    (hpar : PageOk H' (regroupLab lab p q ⟨h, lo, e⟩ L')
      (regroupLab lab p q ⟨h, lo, e⟩ L') m par L)
    (hp : PageOk H' (regroupLab lab p q ⟨h, lo, e⟩ L')
      (regroupLab lab p q ⟨h, lo, e⟩ L') m p ⟨h, lo, e⟩)
    (hq : ∀ Lq, L' = some Lq → PageOk H' (regroupLab lab p q ⟨h, lo, e⟩ L')
      (regroupLab lab p q ⟨h, lo, e⟩ L') m q Lq) :
    Shape H' (regroupLab lab p q ⟨h, lo, e⟩ L') (regroupLab lab p q ⟨h, lo, e⟩ L') m := by
  have hne := hn.ne hs
  have hpool := hs.poolOk_freed hn hd hnum hfree
  have hsub : ∀ {x Lx}, regroupLab lab p q ⟨h, lo, e⟩ L' x = some Lx →
      x ∉ H.freePages → x ∉ H'.freePages := by
    intro x Lx hx hmem
    rw [hfree]
    cases hd with
    | two hlo hhi => exact hmem
    | one =>
      rcases regroupLab_cases hx with ⟨-, hL⟩ | ⟨hxq, -⟩ | ⟨hxq, -⟩
      · cases hL
      · simpa [freed, hxq] using hmem
      · simpa [freed, hxq] using hmem
  constructor
  case page =>
    intro x Lx hx
    rcases regroupLab_cases hx with ⟨rfl, hL⟩ | ⟨-, rfl, rfl⟩ | ⟨hxq, hxp, hlx⟩
    · exact hq Lx hL
    · exact hp
    · by_cases hxpar : x = par
      · subst hxpar
        cases hn.parent.symm.trans hlx
        exact hpar
      · exact hn.frame hs (fun x hxp hxq => regroupLab_other hxp hxq) (regroupLab_left hne) hlx hxp
          hxpar (hnode x hxpar hxp hxq)
  case live =>
    intro x Lx hx
    have hold : 0 < x ∧ x < H.numPages ∧ x ∉ H.freePages := by
      rcases regroupLab_cases hx with ⟨rfl, -⟩ | ⟨-, rfl, -⟩ | ⟨-, -, hlx⟩
      · exact hs.live hn.right
      · exact hs.live hn.left
      · exact hs.live hlx
    rw [hnum]
    exact ⟨hold.1, hold.2.1, hsub hx hold.2.2⟩
  case proper =>
    intro x Lx hx
    rcases regroupLab_cases hx with ⟨-, hL⟩ | ⟨-, -, rfl⟩ | ⟨-, -, hlx⟩
    · cases hd with
      | two hlo hhi =>
        cases hL
        exact hhi
      | one => cases hL
    · cases hd with
      | two hlo hhi => exact WithTop.coe_lt_coe.mpr hlo
      | one =>
        have hleft : (lo : WithTop Bytes) < mid := hs.proper hn.left
        exact hleft.trans (hs.proper hn.right)
    · exact hs.proper hlx
  case apart => exact hs.apart_regroupLab hn hd
  case apart_seen => exact hs.apart_regroupLab hn hd
  case root =>
    obtain ⟨j, hlroot, htop⟩ := hs.root
    have hle : h < j := by
      have hL := htop hn.parent
      rw [hn.height] at hL
      omega
    refine ⟨j, ?_, fun {x Lx} hx => ?_⟩
    · rw [hroot, regroupLab_other, hlroot]
      · intro e
        rw [e, hn.left] at hlroot
        cases hlroot
      · intro e
        rw [e, hn.right] at hlroot
        cases hlroot
        exact lt_irrefl _ hle
    · rcases regroupLab_cases hx with ⟨-, hL⟩ | ⟨-, -, rfl⟩ | ⟨-, -, hlx⟩
      · cases hd with
        | two => cases hL; exact hle.le
        | one => cases hL
      · exact hle.le
      · exact htop hlx
  case free_nodup => exact hpool.free_nodup
  case free_live => exact hpool.free_live
  case numPages_pos => exact hpool.numPages_pos

/-- **The root is taken away** when it has one child only. -/
theorem collapse {c : PageId} (hs : Shape H lab lab m) (hroot : lab H.root = some ⟨h + 1, [], ⊤⟩)
    (hc : lab c = some ⟨h, [], ⊤⟩) (hnode : ∀ x, x ≠ H.root → H'.node x = H.node x)
    (hnum : H'.numPages = H.numPages) (hfree : H'.freePages = H.freePages ++ [H.root])
    (hnew : H'.root = c) :
    Shape H' (Function.update lab H.root none) (Function.update lab H.root none) m := by
  have hold : ∀ {x Lx}, Function.update lab H.root none x = some Lx →
      x ≠ H.root ∧ lab x = some Lx := by
    intro x Lx hx
    by_cases hne : x = H.root
    · subst hne
      rw [Function.update_self] at hx
      cases hx
    · rw [Function.update_of_ne hne] at hx
      exact ⟨hne, hx⟩
  -- all the other pages are lower than the root
  have hlow : ∀ {x Lx}, lab x = some Lx → x ≠ H.root → Lx.height ≤ h := by
    intro x Lx hx hne
    obtain ⟨j, hroot', htop⟩ := hs.root
    cases hroot.symm.trans hroot'
    refine Nat.le_of_lt_succ ((htop hx).lt_of_ne fun hh => hne ?_)
    exact hs.apart hx hroot hh (hs.proper hx).mem ⟨nil_le_bytes _, WithTop.coe_lt_top _⟩
  have hkeep : ∀ {x Lx}, lab x = some Lx → Lx.height ≤ h →
      Function.update lab H.root none x = some Lx := by
    intro x Lx hx hh
    rw [Function.update_of_ne, hx]
    rintro rfl
    cases hroot.symm.trans hx
    exact Nat.not_succ_le_self h hh
  have hpool : H'.PoolOk := by
    obtain ⟨hpos, hlt, hmem⟩ := hs.live hroot
    exact hs.poolOk.release hpos hlt hmem hnum hfree
  have hapart : Apart (Function.update lab H.root none) := by
    intro x y Lx Ly k hx hy hh hk hk'
    exact hs.apart (hold hx).2 (hold hy).2 hh hk hk'
  constructor
  case page =>
    intro x Lx hx
    obtain ⟨hne, hlx⟩ := hold hx
    refine (hs.page hlx).frame (hnode x hne) (fun _ _ _ => rfl) ?_ ?_
    · intro _ r hi' y _ hr
      exact ⟨hi', hkeep hr (Nat.zero_le h)⟩
    · intro c L' hh hc _
      refine hkeep hc ?_
      have hle := hlow hlx hne
      omega
  case live =>
    intro x Lx hx
    obtain ⟨hne, hlx⟩ := hold hx
    obtain ⟨hpos, hlt, hmem⟩ := hs.live hlx
    rw [hnum, hfree]
    exact ⟨hpos, hlt, by simpa [hne] using hmem⟩
  case proper => exact fun hx => hs.proper (hold hx).2
  case apart => exact hapart
  case apart_seen => exact hapart
  case root =>
    refine ⟨h, ?_, fun {x Lx} hx => hlow (hold hx).2 (hold hx).1⟩
    rw [hnew]
    exact hkeep hc le_rfl
  case free_nodup => exact hpool.free_nodup
  case free_live => exact hpool.free_live
  case numPages_pos => exact hpool.numPages_pos

end Shape

end KeyVDB
