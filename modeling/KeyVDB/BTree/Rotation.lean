import KeyVDB.BTree.Cells

/-!
# Rotations of internal nodes

Two adjacent internal nodes and the separator between them in the parent are one alternating
sequence of children and separators (`gaps`), and a rotation should move the boundary along that
sequence. The code puts the key that left the sibling into the node and into the parent both, and
drops the separator that stood there.
-/

namespace KeyVDB

namespace Node

/-- The leftmost child, then each separator with the child to its right. -/
def gaps (left : Node PageId) (sep : Bytes) (right : Node PageId) :
    PageId × List (Bytes × PageId) :=
  (left.hdr.firstChild, left.cells ++ (sep, right.hdr.firstChild) :: right.cells)

/-- The keys of the sequence. -/
def gapKeys (left : Node PageId) (sep : Bytes) (right : Node PageId) : List Bytes :=
  (gaps left sep right).2.map Prod.fst

/-- The children of the sequence. -/
def gapChildren (left : Node PageId) (sep : Bytes) (right : Node PageId) : List PageId :=
  left.hdr.firstChild :: (gaps left sep right).2.map Prod.snd

/-- Where a search key ends up that comes to one of the two nodes. -/
def route (left : Node PageId) (sep : Bytes) (right : Node PageId) (key : Bytes) : PageId :=
  if key < sep then left.childFor key else right.childFor key

/-- `steal_from_left` on internal nodes, and the new separator in the parent. -/
def rotateFromLeft (parent : Node PageId) (slot : Nat) (left cur : Node PageId) :
    Except Exn (Node PageId × Node PageId × Node PageId) := do
  let (cur, left, newSep, _) ← cur.stealFromLeftInternal left
  let parent ← BTree.replaceSeparator parent slot newSep
  return (parent, left, cur)

/-- `steal_from_right` on internal nodes, and the new separator in the parent. -/
def rotateFromRight (parent : Node PageId) (slot : Nat) (cur right : Node PageId) :
    Except Exn (Node PageId × Node PageId × Node PageId) := do
  let (cur, right, newSep, _) ← cur.stealFromRightInternal right
  let parent ← BTree.replaceSeparator parent slot newSep
  return (parent, cur, right)

/-- Adjacent children of a parent, with the separator between them at `slot`: all keys are in
order. -/
def Adjacent (parent : Node PageId) (slot : Nat) (left : Node PageId) (sep : Bytes)
    (right : Node PageId) : Prop :=
  ∃ p rightId q, parent.cells = p ++ (sep, rightId) :: q ∧ p.length = slot ∧
    Sorted (p ++ (left.cells ++ (sep, right.hdr.firstChild) :: right.cells) ++ q)

/-- Nothing of the sequence survives: neither the sequence, nor its keys, nor where the keys go. -/
structure Misrouted (parent' : Node PageId) (slot : Nat) (left : Node PageId) (sep : Bytes)
    (right left' : Node PageId) (newSep : Bytes) (right' : Node PageId) : Prop where
  replaced : parent'.keyAt slot = .ok newSep
  gaps_ne : gaps left' newSep right' ≠ gaps left sep right
  keys_ne : ¬ (gapKeys left' newSep right').Perm (gapKeys left sep right)
  route_ne : (gapChildren left sep right).Nodup →
    ∃ key, route left' newSep right' key ≠ route left sep right key

section Lost

variable {left right left' right' : Node PageId} {sep newSep : Bytes}

/-- A separator that is in the old sequence only. -/
theorem not_perm_of_lost (hmem : sep ∈ gapKeys left sep right)
    (hlost : sep ∉ gapKeys left' newSep right') :
    ¬ (gapKeys left' newSep right').Perm (gapKeys left sep right) :=
  fun h => hlost (h.mem_iff.mpr hmem)

theorem gaps_ne_of_not_perm
    (h : ¬ (gapKeys left' newSep right').Perm (gapKeys left sep right)) :
    gaps left' newSep right' ≠ gaps left sep right := by
  intro heq
  apply h
  rw [gapKeys, heq, gapKeys]

end Lost

theorem Adjacent.sorted {parent left right : Node PageId} {slot : Nat} {sep : Bytes}
    (h : Adjacent parent slot left sep right) :
    Sorted (left.cells ++ (sep, right.hdr.firstChild) :: right.cells) := by
  obtain ⟨p, rightId, q, -, -, hs⟩ := h
  exact (Sorted.append_iff.mp (Sorted.append_iff.mp hs).1).2.1

/-- The stolen key in the parent. -/
theorem Adjacent.replaceSeparator {parent parent' left right : Node PageId} {slot : Nat}
    {sep newSep : Bytes} (h : Adjacent parent slot left sep right)
    (hmem : newSep ∈ (left.cells ++ right.cells).map Prod.fst)
    (hr : BTree.replaceSeparator parent slot newSep = .ok parent') :
    parent'.keyAt slot = .ok newSep := by
  obtain ⟨p, rightId, q, hcells, rfl, hs⟩ := h
  obtain ⟨c, hc, rfl⟩ := List.mem_map.mp hmem
  -- every key of the two nodes lies between the neighbours of the separator
  obtain ⟨hpm, -, hpmq⟩ := Sorted.append_iff.mp hs
  obtain ⟨-, -, hpm⟩ := Sorted.append_iff.mp hpm
  have hmid : c ∈ left.cells ++ (sep, right.hdr.firstChild) :: right.cells := by
    rcases List.mem_append.mp hc with hc | hc
    · exact List.mem_append_left _ hc
    · exact List.mem_append_right _ (List.mem_cons_of_mem _ hc)
  obtain ⟨n', hr', hcells', -⟩ := BTree.replaceSeparator_spec hcells
    (fun x hx => hpm x hx c hmid) (fun x hx => hpmq c (List.mem_append_right _ hmid) x hx)
    (BTree.replaceSeparator_eq hcells hr).1
  rw [hr] at hr'
  cases hr'
  exact keyAt_middle (c := (c.1, rightId)) hcells'

theorem stealFromLeftInternal_eq {n n' left left' : Node PageId} {newSep : Bytes}
    {child : PageId} (h : n.stealFromLeftInternal left = .ok (n', left', newSep, child)) :
    ∃ a, left.cells = a ++ [(newSep, child)] ∧ left'.cells = a ∧ left'.hdr = left.hdr ∧
      n'.cells = (newSep, n.hdr.firstChild) :: n.cells ∧ n'.hdr.firstChild = child := by
  unfold stealFromLeftInternal at h
  split at h
  · cases h
  · next k c hlast =>
    obtain ⟨a, ha⟩ := List.getLast?_eq_some_iff.mp hlast
    dsimp only at h
    split at h
    · next n₁ hplace =>
      cases h
      obtain ⟨-, hcells, hhdr⟩ := place_eq_true hplace
      have hlen : left.numKeys - 1 = a.length := by simp [numKeys, ha]
      refine ⟨a, ha, ?_, rfl, ?_, by rw [hhdr]⟩
      · rw [removeCell_cells, hlen, ha, eraseIdx_append_cons, List.append_nil]
      · rw [hcells, List.insertIdx_zero]
    · cases h

theorem stealFromRightInternal_eq {n n' right right' : Node PageId} {newSep : Bytes}
    {child : PageId} (h : n.stealFromRightInternal right = .ok (n', right', newSep, child)) :
    ∃ c b, right.cells = (newSep, c) :: b ∧ right'.cells = b ∧ right'.hdr.firstChild = c ∧
      n'.cells = n.cells.insertIdx (lowerBound n.cells newSep) (newSep, right.hdr.firstChild) ∧
      n'.hdr = n.hdr ∧ child = right.hdr.firstChild := by
  unfold stealFromRightInternal at h
  obtain ⟨k, hk, h⟩ := except_bind_eq_ok.mp h
  obtain ⟨c, hc, h⟩ := except_bind_eq_ok.mp h
  cases hright : right.cells with
  | nil =>
    rw [keyAt, hright] at hk
    cases hk
  | cons x b =>
    have hk' := keyAt_middle (a := []) hright
    have hc' := valueAt_middle (a := []) hright
    rw [List.length_nil, hk] at hk'
    rw [List.length_nil, hc] at hc'
    cases hk'
    cases hc'
    dsimp only at h
    split at h
    · next n₁ hins =>
      cases h
      obtain ⟨-, hcells, hhdr⟩ := place_eq_true hins
      refine ⟨x.2, b, rfl, ?_, rfl, hcells, hhdr, rfl⟩
      rw [removeCell_cells, hright]
      rfl
    · cases h

/-- **From the left**: the old separator is lost, and the stolen key no longer leads to its
child. -/
theorem misrouted_rotateFromLeft {parent left right parent' left' right' : Node PageId}
    {slot : Nat} {sep : Bytes} (hadj : Adjacent parent slot left sep right)
    (h : rotateFromLeft parent slot left right = .ok (parent', left', right')) :
    ∃ newSep, Misrouted parent' slot left sep right left' newSep right' := by
  unfold rotateFromLeft at h
  obtain ⟨⟨right₁, left₁, newSep, child⟩, hsteal, h⟩ := except_bind_eq_ok.mp h
  obtain ⟨parent₁, hreplace, h⟩ := except_bind_eq_ok.mp h
  cases h
  obtain ⟨a, hleft, hleft', hhdr, hright', hfc⟩ := stealFromLeftInternal_eq hsteal
  have hs := hadj.sorted
  obtain ⟨hlt, hgt⟩ := hs.at_slot
  have hnew : newSep < sep := hlt (newSep, child) (by rw [hleft]; simp)
  have hlost : sep ∉ gapKeys left' newSep right' := by
    simp only [gapKeys, gaps, hleft', hright', List.map_append, List.map_cons, List.mem_append,
      List.mem_cons, List.mem_map, not_or]
    refine ⟨?_, hnew.ne', hnew.ne', ?_⟩
    · intro hmem
      obtain ⟨c, hc, hkey⟩ := hmem
      exact (hlt c (by rw [hleft]; exact List.mem_append_left _ hc)).ne hkey
    · intro hmem
      obtain ⟨c, hc, hkey⟩ := hmem
      exact (hgt c hc).ne' hkey
  have hmem : sep ∈ gapKeys left sep right := by simp [gapKeys, gaps]
  have hperm := not_perm_of_lost hmem hlost
  refine ⟨newSep, hadj.replaceSeparator ?_ hreplace, gaps_ne_of_not_perm hperm, hperm, ?_⟩
  · rw [List.map_append, hleft]
    simp
  · intro hnodup
    refine ⟨newSep, ?_⟩
    have hsleft : Sorted left.cells := (Sorted.append_iff.mp hs).1
    have hsright : Sorted right'.cells := by
      rw [hright']
      refine Sorted.cons_iff.mpr ⟨fun c hc => hnew.trans (hgt c hc), ?_⟩
      exact (Sorted.cons_iff.mp (Sorted.append_iff.mp hs).2.1).2
    have hbefore : left.childFor newSep = child := by
      rw [childFor_eq (a := left.cells) (b := []) (List.append_nil _).symm ?_ nofun hsleft]
      · rw [hleft]
        simp
      · intro c hc
        rw [hleft] at hc hsleft
        rcases List.mem_append.mp hc with hc | hc
        · exact (hsleft.at_slot.1 c hc).le
        · exact (List.mem_singleton.mp hc) ▸ le_rfl
    have hafter : right'.childFor newSep = right.hdr.firstChild := by
      rw [childFor_eq (a := [(newSep, right.hdr.firstChild)]) (b := right.cells) hright' ?_
        (fun c hc => hnew.trans (hgt c hc)) hsright]
      · rfl
      · intro c hc
        exact (List.mem_singleton.mp hc) ▸ le_rfl
    rw [route, if_neg (lt_irrefl _), hafter, route, if_pos hnew, hbefore]
    intro heq
    have hnodup := (List.nodup_cons.mp hnodup).2
    rw [gaps, hleft, List.map_append] at hnodup
    exact (List.nodup_append.mp hnodup).2.2 child (by simp) right.hdr.firstChild (by simp)
      heq.symm

/-- **From the right**: the old separator is lost, and as a key it no longer leads to the child
that followed it. -/
theorem misrouted_rotateFromRight {parent left right parent' left' right' : Node PageId}
    {slot : Nat} {sep : Bytes} (hadj : Adjacent parent slot left sep right)
    (h : rotateFromRight parent slot left right = .ok (parent', left', right')) :
    ∃ newSep, Misrouted parent' slot left sep right left' newSep right' := by
  unfold rotateFromRight at h
  obtain ⟨⟨left₁, right₁, newSep, child⟩, hsteal, h⟩ := except_bind_eq_ok.mp h
  obtain ⟨parent₁, hreplace, h⟩ := except_bind_eq_ok.mp h
  cases h
  obtain ⟨c, b, hright, hright', hfc, hleft', hhdr, -⟩ := stealFromRightInternal_eq hsteal
  have hs := hadj.sorted
  obtain ⟨hlt, hgt⟩ := hs.at_slot
  rw [hright] at hgt
  have hnew : sep < newSep := hgt (newSep, c) List.mem_cons_self
  have hcut : Cut left.cells [] newSep := ⟨fun x hx => (hlt x hx).trans hnew, nofun⟩
  have hcells : left'.cells = left.cells ++ [(newSep, right.hdr.firstChild)] := by
    have hlower := hcut.lowerBound
    rw [List.append_nil] at hlower
    rw [hleft', hlower, List.insertIdx_length_self]
  have hlost : sep ∉ gapKeys left' newSep right' := by
    simp only [gapKeys, gaps, hcells, hright', List.map_append, List.map_cons, List.map_nil,
      List.mem_append, List.mem_cons, List.mem_map, List.not_mem_nil, or_false, not_or]
    refine ⟨⟨?_, hnew.ne⟩, hnew.ne, ?_⟩
    · intro hmem
      obtain ⟨x, hx, hkey⟩ := hmem
      exact (hlt x hx).ne hkey
    · intro hmem
      obtain ⟨x, hx, hkey⟩ := hmem
      exact (hgt x (List.mem_cons_of_mem _ hx)).ne' hkey
  have hmem : sep ∈ gapKeys left sep right := by simp [gapKeys, gaps]
  have hperm := not_perm_of_lost hmem hlost
  refine ⟨newSep, hadj.replaceSeparator ?_ hreplace, gaps_ne_of_not_perm hperm, hperm, ?_⟩
  · rw [List.map_append, hright]
    simp
  · intro hnodup
    refine ⟨sep, ?_⟩
    obtain ⟨hsleft, hsright, -⟩ := Sorted.append_iff.mp hs
    have hbefore : right.childFor sep = right.hdr.firstChild := by
      rw [childFor_eq (a := []) (b := right.cells) rfl nofun (fun x hx => hgt x (hright ▸ hx))
        (Sorted.cons_iff.mp hsright).2]
      rfl
    have hsleft' : Sorted left'.cells := by
      rw [hcells]
      exact Sorted.insert (b := []) (by rwa [List.append_nil]) hcut.lt nofun
    have hafter : left'.childFor sep =
        ((left.cells.getLast?).map Prod.snd).getD left.hdr.firstChild := by
      rw [childFor_eq (a := left.cells) hcells (fun x hx => (hlt x hx).le) ?_ hsleft', hhdr]
      intro x hx
      exact (List.mem_singleton.mp hx) ▸ hnew
    rw [route, if_pos hnew, hafter, route, if_neg (lt_irrefl _), hbefore]
    rw [gapChildren, gaps, List.map_append, ← List.cons_append] at hnodup
    have hdisjoint := (List.nodup_append.mp hnodup).2.2
    refine hdisjoint _ ?_ _ (by simp)
    -- the last child of the left node is one of its children
    cases hlast : left.cells.getLast? with
    | none => exact List.mem_cons_self
    | some x =>
      exact List.mem_cons_of_mem _ (List.mem_map_of_mem (List.mem_of_getLast? hlast))

/-- **A rotation of internal nodes never keeps the routing.** -/
theorem misrouted_rotate (parent left right : Node PageId) (slot : Nat) (sep : Bytes)
    (hadj : Adjacent parent slot left sep right) :
    (∀ parent' left' right',
      rotateFromLeft parent slot left right = .ok (parent', left', right') →
        ∃ newSep, Misrouted parent' slot left sep right left' newSep right') ∧
    (∀ parent' left' right',
      rotateFromRight parent slot left right = .ok (parent', left', right') →
        ∃ newSep, Misrouted parent' slot left sep right left' newSep right') := by
  constructor
  · intro parent' left' right' h
    exact misrouted_rotateFromLeft hadj h
  · intro parent' left' right' h
    exact misrouted_rotateFromRight hadj h

/-- An internal node with a first child and cells. -/
def ofCells (firstChild : PageId) (cells : List (Bytes × PageId)) : Node PageId :=
  cells.foldl (fun n c => (n.insertSeparator c.1 c.2).2)
    { (init INVALID_PAGE_ID : Node PageId) with
      hdr := { parentId := INVALID_PAGE_ID, firstChild } }

/-- The separator 5 stands between a node with the keys 2 and 3 and one with 7 and 9. -/
theorem adjacent_ofCells : Adjacent (ofCells 10 [([5], 11)]) 0 (ofCells 1 [([2], 3), ([3], 4)]) [5]
    (ofCells 6 [([7], 8), ([9], 12)]) :=
  ⟨[], 11, [], by decide +kernel, rfl, by decide +kernel⟩

/-- After the rotation the key 3 is there twice and 5 is gone: the key 4, which led to child 4,
leads to child 6. -/
theorem not_keepsRouting_rotateFromLeft :
    ¬ ∀ (parent left right : Node PageId) (slot : Nat) (sep : Bytes),
      Adjacent parent slot left sep right → ∃ parent' left' right' newSep,
        rotateFromLeft parent slot left right = .ok (parent', left', right') ∧
        parent'.keyAt slot = .ok newSep ∧ gaps left' newSep right' = gaps left sep right ∧
        ∀ key, route left' newSep right' key = route left sep right key := by
  intro h
  obtain ⟨parent', left', right', newSep, hrotate, hkey, -, hroute⟩ := h _ _ _ _ _ adjacent_ofCells
  have hrun : (rotateFromLeft (ofCells 10 [([5], 11)]) 0 (ofCells 1 [([2], 3), ([3], 4)])
      (ofCells 6 [([7], 8), ([9], 12)])).toOption.map (fun r =>
        ((r.1.keyAt 0).toOption, (gaps r.2.1 [3] r.2.2).2, route r.2.1 [3] r.2.2 [4])) =
      some (some [3], [([2], 3), ([3], 4), ([3], 6), ([7], 8), ([9], 12)], 6) := by
    decide +kernel
  rw [hrotate] at hrun
  simp only [Except.toOption, Option.map_some, hkey, Option.some.injEq, Prod.mk.injEq] at hrun
  obtain ⟨hsep, -, hchild⟩ := hrun
  rw [← hsep] at hchild
  have hbefore : route (ofCells 1 [([2], 3), ([3], 4)]) [5] (ofCells 6 [([7], 8), ([9], 12)]) [4] =
      4 := by decide +kernel
  have hsame := hroute [4]
  rw [hchild, hbefore] at hsame
  cases hsame

theorem misrouted_rotate_ofCells :
    (∃ parent' left' right' newSep, Misrouted parent' 0 (ofCells 1 [([2], 3), ([3], 4)]) [5]
      (ofCells 6 [([7], 8), ([9], 12)]) left' newSep right' ∧
      rotateFromLeft (ofCells 10 [([5], 11)]) 0 (ofCells 1 [([2], 3), ([3], 4)])
        (ofCells 6 [([7], 8), ([9], 12)]) = .ok (parent', left', right')) ∧
    ∃ parent' left' right' newSep, Misrouted parent' 0 (ofCells 1 [([2], 3), ([3], 4)]) [5]
      (ofCells 6 [([7], 8), ([9], 12)]) left' newSep right' ∧
      rotateFromRight (ofCells 10 [([5], 11)]) 0 (ofCells 1 [([2], 3), ([3], 4)])
        (ofCells 6 [([7], 8), ([9], 12)]) = .ok (parent', left', right') := by
  constructor
  · cases hr : rotateFromLeft (ofCells 10 [([5], 11)]) 0 (ofCells 1 [([2], 3), ([3], 4)])
        (ofCells 6 [([7], 8), ([9], 12)]) with
    | error e =>
      have hok : (rotateFromLeft (ofCells 10 [([5], 11)]) 0 (ofCells 1 [([2], 3), ([3], 4)])
        (ofCells 6 [([7], 8), ([9], 12)])).toOption.isSome = true := by decide +kernel
      rw [hr] at hok
      cases hok
    | ok r =>
      obtain ⟨newSep, hmis⟩ := (misrouted_rotate _ _ _ _ _ adjacent_ofCells).1 _ _ _ hr
      exact ⟨_, _, _, newSep, hmis, rfl⟩
  · cases hr : rotateFromRight (ofCells 10 [([5], 11)]) 0 (ofCells 1 [([2], 3), ([3], 4)])
        (ofCells 6 [([7], 8), ([9], 12)]) with
    | error e =>
      have hok : (rotateFromRight (ofCells 10 [([5], 11)]) 0 (ofCells 1 [([2], 3), ([3], 4)])
        (ofCells 6 [([7], 8), ([9], 12)])).toOption.isSome = true := by decide +kernel
      rw [hr] at hok
      cases hok
    | ok r =>
      obtain ⟨newSep, hmis⟩ := (misrouted_rotate _ _ _ _ _ adjacent_ofCells).2 _ _ _ hr
      exact ⟨_, _, _, newSep, hmis, rfl⟩

end Node

end KeyVDB
