import Mathlib.Order.Lattice
import Mathlib.Data.List.Basic

/-!
# Sorted slots

Lists of keys with payloads, sorted by key, and the binary search over them. A key cuts a sorted
list in two (`Sorted.cut`), and what the search, an insertion at the slot it returns and a lookup do
is stated at that cut.
-/

namespace KeyVDB

section Slots

variable {K α : Type} [LinearOrder K]

/-- The keys are strictly increasing. -/
def Sorted (l : List (K × α)) : Prop := l.Pairwise fun x y => x.1 < y.1

instance decidableSorted (l : List (K × α)) : Decidable (Sorted l) :=
  inferInstanceAs (Decidable (List.Pairwise _ l))

/-- The payload under a key. -/
def slotGet (l : List (K × α)) (key : K) : Option α := (l.find? fun x => x.1 = key).map Prod.snd

/-- The loop of the binary search in `[lo, hi)`. -/
def lowerBoundIn (l : List (K × α)) (key : K) : Nat → Nat → Nat → Nat
  | 0, lo, _ => lo
  | fuel + 1, lo, hi =>
    if lo < hi then
      let mid := lo + (hi - lo) / 2
      if l[mid]?.any fun x => x.1 < key then lowerBoundIn l key fuel (mid + 1) hi
      else lowerBoundIn l key fuel lo mid
    else lo

/-- The first slot whose key is not below `key`. -/
def lowerBound (l : List (K × α)) (key : K) : Nat := lowerBoundIn l key l.length 0 l.length

theorem lowerBoundIn_le (l : List (K × α)) (key : K) {fuel lo hi : Nat} (h : lo ≤ hi) :
    lowerBoundIn l key fuel lo hi ≤ hi := by
  induction fuel generalizing lo hi with
  | zero => exact h
  | succ fuel ih =>
    rw [lowerBoundIn]
    split
    · have hmid : lo + (hi - lo) / 2 ≤ hi := by omega
      dsimp only
      split
      · exact ih (by omega)
      · exact Nat.le_trans (ih (Nat.le_add_right _ _)) hmid
    · exact h

theorem lowerBound_le (l : List (K × α)) (key : K) : lowerBound l key ≤ l.length :=
  lowerBoundIn_le l key (Nat.zero_le _)

/-- `key` cuts the list: the keys before are below it, those after are not. -/
structure Cut (a b : List (K × α)) (key : K) : Prop where
  lt : ∀ x ∈ a, x.1 < key
  ge : ∀ x ∈ b, key ≤ x.1

theorem Cut.lowerBoundIn {a b : List (K × α)} {key : K} (h : Cut a b key) {fuel lo hi : Nat}
    (hlo : lo ≤ a.length) (hhi : a.length ≤ hi) (hlen : hi ≤ (a ++ b).length)
    (hfuel : hi - lo ≤ fuel) : lowerBoundIn (a ++ b) key fuel lo hi = a.length := by
  induction fuel generalizing lo hi with
  | zero =>
    rw [KeyVDB.lowerBoundIn]
    omega
  | succ fuel ih =>
    rw [KeyVDB.lowerBoundIn]
    split
    · next hlt =>
      dsimp only
      by_cases hmid : lo + (hi - lo) / 2 < a.length
      · have hget : (a ++ b)[lo + (hi - lo) / 2]? = some (a.get ⟨_, hmid⟩) := by
          rw [List.getElem?_append_left hmid, List.getElem?_eq_getElem hmid]
          rfl
        have hkey : (a.get ⟨_, hmid⟩).1 < key := h.lt _ (List.get_mem _ _)
        rw [hget, if_pos (by simpa using hkey)]
        exact ih (by omega) hhi hlen (by omega)
      · have hge : a.length ≤ lo + (hi - lo) / 2 := Nat.le_of_not_lt hmid
        have hb : lo + (hi - lo) / 2 - a.length < b.length := by
          rw [List.length_append] at hlen
          omega
        have hget : (a ++ b)[lo + (hi - lo) / 2]? = some (b.get ⟨_, hb⟩) := by
          rw [List.getElem?_append_right hge, List.getElem?_eq_getElem hb]
          rfl
        have hkey : key ≤ (b.get ⟨_, hb⟩).1 := h.ge _ (List.get_mem _ _)
        rw [hget, if_neg (by simpa using hkey)]
        exact ih hlo hge (by omega) (by omega)
    · omega

theorem Cut.lowerBound {a b : List (K × α)} {key : K} (h : Cut a b key) :
    lowerBound (a ++ b) key = a.length :=
  h.lowerBoundIn (Nat.zero_le _) (by simp) (Nat.le_refl _) (by simp)

/-- The keys do not decrease. -/
def Ascending (l : List (K × α)) : Prop := l.Pairwise fun x y => x.1 ≤ y.1

namespace Ascending

variable {a b l : List (K × α)} {x : K × α}

theorem append_iff :
    Ascending (a ++ b) ↔ Ascending a ∧ Ascending b ∧ ∀ x ∈ a, ∀ y ∈ b, x.1 ≤ y.1 :=
  List.pairwise_append

theorem cons_iff : Ascending (x :: l) ↔ (∀ y ∈ l, x.1 ≤ y.1) ∧ Ascending l :=
  List.pairwise_cons

/-- Every key cuts an ascending list. -/
theorem cut (h : Ascending l) (key : K) : ∃ a b, l = a ++ b ∧ Cut a b key := by
  induction l with
  | nil => exact ⟨[], [], rfl, nofun, nofun⟩
  | cons x l ih =>
    obtain ⟨hx, hl⟩ := cons_iff.mp h
    by_cases hk : x.1 < key
    · obtain ⟨a, b, rfl, hcut⟩ := ih hl
      refine ⟨x :: a, b, rfl, ?_, hcut.ge⟩
      intro y hy
      rcases List.mem_cons.mp hy with rfl | hy
      · exact hk
      · exact hcut.lt y hy
    · refine ⟨[], x :: l, rfl, nofun, ?_⟩
      intro y hy
      rcases List.mem_cons.mp hy with rfl | hy
      · exact not_lt.mp hk
      · exact (not_lt.mp hk).trans (hx y hy)

end Ascending

namespace Sorted

variable {a b l : List (K × α)} {key : K} {v : α}

theorem append_iff : Sorted (a ++ b) ↔ Sorted a ∧ Sorted b ∧ ∀ x ∈ a, ∀ y ∈ b, x.1 < y.1 :=
  List.pairwise_append

theorem cons_iff {x : K × α} : Sorted (x :: l) ↔ (∀ y ∈ l, x.1 < y.1) ∧ Sorted l :=
  List.pairwise_cons

theorem ascending (h : Sorted l) : Ascending l := h.imp fun hlt => hlt.le

/-- Every key cuts a sorted list. -/
theorem cut (h : Sorted l) (key : K) : ∃ a b, l = a ++ b ∧ Cut a b key := h.ascending.cut key

/-- What stands at the cut: the key itself, or only larger keys. -/
theorem cut_cases (h : Sorted (a ++ b)) (hcut : Cut a b key) :
    (∃ v b', b = (key, v) :: b') ∨ ∀ x ∈ b, key < x.1 := by
  cases b with
  | nil => exact Or.inr nofun
  | cons x b =>
    obtain ⟨hx, -⟩ := cons_iff.mp (append_iff.mp h).2.1
    rcases (hcut.ge x List.mem_cons_self).eq_or_lt with e | hlt
    · exact Or.inl ⟨x.2, b, by rw [e]⟩
    · refine Or.inr fun y hy => ?_
      rcases List.mem_cons.mp hy with rfl | hy
      · exact hlt
      · exact hlt.trans (hx y hy)

/-- A key that is at the cut already can be exchanged with its payload, one that is not can be
put there. -/
theorem insert (h : Sorted (a ++ b)) (hlt : ∀ x ∈ a, x.1 < key) (hgt : ∀ x ∈ b, key < x.1) :
    Sorted (a ++ (key, v) :: b) := by
  obtain ⟨ha, hb, hab⟩ := append_iff.mp h
  refine append_iff.mpr ⟨ha, cons_iff.mpr ⟨hgt, hb⟩, ?_⟩
  intro x hx y hy
  rcases List.mem_cons.mp hy with rfl | hy
  · exact hlt x hx
  · exact hab x hx y hy

theorem remove {x : K × α} (h : Sorted (a ++ x :: b)) : Sorted (a ++ b) :=
  h.sublist (List.Sublist.append_left (List.sublist_cons_self x b) a)

theorem at_slot {x : K × α} (h : Sorted (a ++ x :: b)) :
    (∀ y ∈ a, y.1 < x.1) ∧ ∀ y ∈ b, x.1 < y.1 := by
  obtain ⟨-, hb, hab⟩ := append_iff.mp h
  exact ⟨fun y hy => hab y hy x List.mem_cons_self, (cons_iff.mp hb).1⟩

theorem slot_le {x : K × α} (h : Sorted (a ++ x :: b)) : ∀ y ∈ x :: b, x.1 ≤ y.1 := by
  intro y hy
  rcases List.mem_cons.mp hy with rfl | hy
  · exact le_rfl
  · exact (h.at_slot.2 y hy).le

/-- A cell has one slot. -/
theorem slot_unique {x : K × α} {a' b' : List (K × α)} (h : Sorted (a ++ x :: b))
    (e : a ++ x :: b = a' ++ x :: b') : a = a' ∧ b = b' := by
  obtain ⟨hlt, -⟩ := h.at_slot
  obtain ⟨hlt', -⟩ := (e ▸ h).at_slot
  rcases List.append_eq_append_iff.mp e with ⟨c, ha, hb⟩ | ⟨c, ha, hb⟩
  · cases c with
    | nil =>
      rw [List.append_nil] at ha
      exact ⟨ha.symm, (List.cons.inj hb).2⟩
    | cons y c =>
      have hy : x ∈ a' := by rw [ha, (List.cons.inj hb).1]; simp
      exact absurd (hlt' x hy) (lt_irrefl _)
  · cases c with
    | nil =>
      rw [List.append_nil] at ha
      exact ⟨ha, (List.cons.inj hb).2.symm⟩
    | cons y c =>
      have hy : x ∈ a := by rw [ha, (List.cons.inj hb).1]; simp
      exact absurd (hlt x hy) (lt_irrefl _)

end Sorted

section Get

variable {a b l : List (K × α)} {key k : K} {v : α}

theorem slotGet_append : slotGet (a ++ b) k = (slotGet a k).or (slotGet b k) := by
  rw [slotGet, List.find?_append, Option.map_or]
  rfl

theorem slotGet_cons {x : K × α} :
    slotGet (x :: l) k = if x.1 = k then some x.2 else slotGet l k := by
  unfold slotGet
  by_cases h : x.1 = k
  · simp [h]
  · simp [h]

theorem slotGet_eq_none (h : ∀ x ∈ l, x.1 ≠ k) : slotGet l k = none := by
  rw [slotGet, List.find?_eq_none.mpr (by simpa using h)]
  rfl

/-- A new payload at the cut changes what is found under its key only. -/
theorem slotGet_insert (hlt : ∀ x ∈ a, x.1 < key) :
    slotGet (a ++ (key, v) :: b) k = if k = key then some v else slotGet (a ++ b) k := by
  rw [slotGet_append, slotGet_cons, slotGet_append]
  by_cases h : k = key
  · subst h
    rw [slotGet_eq_none fun x hx => (hlt x hx).ne]
    simp
  · rw [if_neg (Ne.symm h), if_neg h]

theorem slotGet_remove (h : Sorted (a ++ (key, v) :: b)) :
    slotGet (a ++ b) k = if k = key then none else slotGet (a ++ (key, v) :: b) k := by
  obtain ⟨hlt, hgt⟩ := h.at_slot
  rw [slotGet_insert hlt]
  by_cases e : k = key
  · subst e
    rw [if_pos rfl, slotGet_eq_none]
    intro x hx
    rcases List.mem_append.mp hx with hx | hx
    · exact (hlt x hx).ne
    · exact (hgt x hx).ne'
  · rw [if_neg e, if_neg e]

end Get

theorem insertIdx_append (a b : List α) (x : α) : (a ++ b).insertIdx a.length x = a ++ x :: b := by
  induction a with
  | nil => rfl
  | cons y a ih => simp [List.insertIdx_succ_cons, ih]

theorem eraseIdx_append_cons (a b : List α) (x : α) :
    (a ++ x :: b).eraseIdx a.length = a ++ b := by
  induction a with
  | nil => rfl
  | cons y a ih => simp [ih]

end Slots

/-! ## Insertion one after the other -/

section InsertEach

variable {K α : Type} [LinearOrder K] {a b l l' xs : List (K × α)} {key : K} {x : K × α}

/-- What the list has under the key, in its order. -/
def underKey (l : List (K × α)) (key : K) : List (K × α) := l.filter fun x => x.1 = key

@[simp] theorem mem_underKey : x ∈ underKey l key ↔ x ∈ l ∧ x.1 = key := by
  simp [underKey]

theorem underKey_append : underKey (a ++ b) key = underKey a key ++ underKey b key :=
  List.filter_append a b

theorem underKey_cons :
    underKey (x :: l) key = if x.1 = key then x :: underKey l key else underKey l key := by
  simp [underKey, List.filter_cons]

theorem underKey_eq_nil (h : ∀ x ∈ l, x.1 ≠ key) : underKey l key = [] :=
  List.filter_eq_nil_iff.mpr (by simpa using h)

/-- Each entry goes to the slot that the search returns for it. -/
def insertEach (l xs : List (K × α)) : List (K × α) :=
  xs.foldl (fun l x => l.insertIdx (lowerBound l x.1) x) l

namespace Ascending

theorem insert (h : Ascending (a ++ b)) (hcut : Cut a b x.1) : Ascending (a ++ x :: b) := by
  obtain ⟨ha, hb, hab⟩ := append_iff.mp h
  refine append_iff.mpr ⟨ha, cons_iff.mpr ⟨hcut.ge, hb⟩, ?_⟩
  intro y hy z hz
  rcases List.mem_cons.mp hz with rfl | hz
  · exact (hcut.lt y hy).le
  · exact hab y hy z hz

/-- An entry that goes in stands before those with its key. -/
theorem insertIdx_lowerBound (h : Ascending l) (x : K × α) :
    Ascending (l.insertIdx (lowerBound l x.1) x) ∧
      ∀ key, underKey (l.insertIdx (lowerBound l x.1) x) key =
        underKey [x] key ++ underKey l key := by
  obtain ⟨a, b, rfl, hcut⟩ := h.cut x.1
  rw [hcut.lowerBound, insertIdx_append]
  refine ⟨h.insert hcut, fun key => ?_⟩
  rw [underKey_append, underKey_append, underKey_cons, underKey_cons]
  by_cases hkey : x.1 = key
  · have hnone : underKey a key = [] :=
      underKey_eq_nil fun y hy => ((hcut.lt y hy).trans_eq hkey).ne
    rw [hnone, if_pos hkey, if_pos hkey]
    rfl
  · rw [if_neg hkey, if_neg hkey]
    rfl

/-- The entries under each key end up in the other order. -/
theorem insertEach (h : Ascending l) (xs : List (K × α)) :
    Ascending (insertEach l xs) ∧
      ∀ key, underKey (KeyVDB.insertEach l xs) key = (underKey xs key).reverse ++ underKey l key := by
  induction xs generalizing l with
  | nil => exact ⟨h, fun key => rfl⟩
  | cons x xs ih =>
    obtain ⟨hx, hunder⟩ := h.insertIdx_lowerBound x
    obtain ⟨hasc, hrest⟩ := ih hx
    refine ⟨hasc, fun key => ?_⟩
    have hcons : underKey (x :: xs) key = underKey [x] key ++ underKey xs key := by
      rw [← underKey_append, List.singleton_append]
    have hone : (underKey [x] key).reverse = underKey [x] key := by
      by_cases hkey : x.1 = key
      · simp [underKey, hkey]
      · simp [underKey, hkey]
    rw [hcons, List.reverse_append, hone, List.append_assoc, ← hunder key]
    exact hrest key

/-- An ascending list is what it has under the keys. -/
theorem ext (h : Ascending l) (h' : Ascending l') (heq : ∀ key, underKey l key = underKey l' key) :
    l = l' := by
  induction l generalizing l' with
  | nil =>
    cases l' with
    | nil => rfl
    | cons y l' =>
      have hy := heq y.1
      simp [underKey] at hy
  | cons x l ih =>
    cases l' with
    | nil =>
      have hx := heq x.1
      simp [underKey] at hx
    | cons y l' =>
      obtain ⟨hx, hl⟩ := cons_iff.mp h
      obtain ⟨hy, hl'⟩ := cons_iff.mp h'
      -- the first of each list is the first one under the smallest key
      have hle : ∀ {u v : K × α} {r r' : List (K × α)}, (∀ z ∈ r', v.1 ≤ z.1) →
          underKey (u :: r) u.1 = underKey (v :: r') u.1 → v.1 ≤ u.1 := by
        intro u v r r' hv he
        have hmem : u ∈ underKey (v :: r') u.1 := he ▸ mem_underKey.mpr ⟨List.mem_cons_self, rfl⟩
        rcases List.mem_cons.mp (mem_underKey.mp hmem).1 with rfl | hu
        · exact le_rfl
        · exact hv u hu
      have hkey : x.1 = y.1 := le_antisymm (hle hx (heq y.1).symm) (hle hy (heq x.1))
      have hfirst := heq x.1
      rw [underKey_cons, underKey_cons, if_pos rfl, if_pos hkey.symm] at hfirst
      obtain ⟨hxy, hrest⟩ := List.cons.inj hfirst
      rw [hxy, ih hl hl' fun key => ?_]
      have hboth := heq key
      rw [underKey_cons, underKey_cons, hxy] at hboth
      by_cases hk : y.1 = key
      · rw [if_pos hk, if_pos hk] at hboth
        exact (List.cons.inj hboth).2
      · rwa [if_neg hk, if_neg hk] at hboth

end Ascending

theorem insertEach_perm (l xs : List (K × α)) : (insertEach l xs).Perm (l ++ xs) := by
  induction xs generalizing l with
  | nil => rw [List.append_nil]; rfl
  | cons x xs ih =>
    refine (ih _).trans ?_
    rw [List.append_cons]
    refine List.Perm.append_right xs ?_
    exact (List.perm_insertIdx x l (lowerBound_le l x.1)).trans (List.perm_append_singleton x l).symm

/-- The keys do not decrease, and what stands under one key reads the same backwards. -/
def KeepsOrder (l : List (K × α)) : Prop :=
  Ascending l ∧ ∀ key, (underKey l key).reverse = underKey l key

/-- **A list that is inserted into an empty one** comes out as it was exactly if its keys do not
decrease and what it has under each key reads the same backwards. -/
theorem insertEach_nil_iff : insertEach [] xs = xs ↔ KeepsOrder xs := by
  obtain ⟨hasc, hunder⟩ := Ascending.insertEach (l := []) List.Pairwise.nil xs
  have hrev : ∀ key, underKey (insertEach [] xs) key = (underKey xs key).reverse := fun key =>
    (hunder key).trans (List.append_nil _)
  constructor
  · intro heq
    rw [heq] at hasc hrev
    exact ⟨hasc, fun key => (hrev key).symm⟩
  · intro h
    exact hasc.ext h.1 fun key => (hrev key).trans (h.2 key)

/-- Strictly increasing keys keep their order. -/
theorem Sorted.keepsOrder (h : Sorted l) : KeepsOrder l := by
  refine ⟨h.ascending, fun key => ?_⟩
  have hone : (underKey l key).length ≤ 1 := by
    have hsorted : Sorted (underKey l key) := h.sublist List.filter_sublist
    cases hkey : underKey l key with
    | nil => exact Nat.zero_le 1
    | cons x rest =>
      cases rest with
      | nil => exact le_rfl
      | cons y rest =>
        rw [hkey] at hsorted
        have hlt := (Sorted.cons_iff.mp hsorted).1 y List.mem_cons_self
        have hof : ∀ z ∈ x :: y :: rest, z.1 = key := fun z hz => (mem_underKey.mp (hkey ▸ hz)).2
        rw [hof x (by simp), hof y (by simp)] at hlt
        exact absurd hlt (lt_irrefl key)
  cases hkey : underKey l key with
  | nil => rfl
  | cons x rest =>
    rw [hkey, List.length_cons] at hone
    rw [List.length_eq_zero_iff.mp (by omega : rest.length = 0)]
    rfl

end InsertEach

end KeyVDB
