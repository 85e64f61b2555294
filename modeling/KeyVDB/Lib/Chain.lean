import KeyVDB.Lib.Slots
import Mathlib.Order.WithBot

/-!
# Key intervals

The abstract side of a search tree. A node covers the keys of a half-open interval and stands at a
height; `Label` is the two. The children of a node, each with the key from which it starts, form
a `Chain`: every child is labelled with the interval up to where the next one starts. Splits,
merges and moved separators are rewritings of a chain as a list (`chain_append`). Nodes of one
height cover disjoint intervals (`Apart`); this is kept when two neighbours divide what they cover
in another way (`Apart.relabel`).
-/

namespace KeyVDB

/-- The height of a node, and the keys `lo ≤ k < hi` it covers. -/
structure Label (K : Type) where
  height : Nat
  lo : K
  hi : WithTop K

section Chain

variable {K ι : Type} [LinearOrder K]

namespace Label

/-- The key is in the interval. -/
def Mem (L : Label K) (k : K) : Prop := L.lo ≤ k ∧ (k : WithTop K) < L.hi

/-- The interval is not empty. -/
def Proper (L : Label K) : Prop := (L.lo : WithTop K) < L.hi

theorem Proper.mem {L : Label K} (h : L.Proper) : L.Mem L.lo := ⟨le_rfl, h⟩

/-- Intervals with one upper end meet. -/
theorem exists_mem_of_hi_eq {L L' : Label K} (h : L.Proper) (h' : L'.Proper) (e : L.hi = L'.hi) :
    ∃ k, L.Mem k ∧ L'.Mem k := by
  rcases le_total L.lo L'.lo with hle | hle
  · exact ⟨L'.lo, ⟨hle, e ▸ h'⟩, h'.mem⟩
  · exact ⟨L.lo, h.mem, ⟨hle, e ▸ h⟩⟩

end Label

omit [LinearOrder K] in
/-- Where the next child starts, `hi` after the last one. -/
def nextKey (hi : WithTop K) : List (K × ι) → WithTop K
  | [] => hi
  | x :: _ => x.1

/-- Each child is labelled with the interval from its own key to the next one. -/
def Chain (lab : ι → Option (Label K)) (h : Nat) (hi : WithTop K) : List (K × ι) → Prop
  | [] => True
  | x :: l => lab x.2 = some ⟨h, x.1, nextKey hi l⟩ ∧ (x.1 : WithTop K) < nextKey hi l ∧
      Chain lab h hi l

variable {lab lab' : ι → Option (Label K)} {h : Nat} {hi : WithTop K} {a b l : List (K × ι)}
  {x y : K × ι}

omit [LinearOrder K] in
theorem nextKey_append : nextKey hi (a ++ b) = nextKey (nextKey hi b) a := by
  cases a <;> rfl

theorem chain_cons : Chain lab h hi (x :: l) ↔
    lab x.2 = some ⟨h, x.1, nextKey hi l⟩ ∧ (x.1 : WithTop K) < nextKey hi l ∧
      Chain lab h hi l := Iff.rfl

theorem chain_append :
    Chain lab h hi (a ++ b) ↔ Chain lab h (nextKey hi b) a ∧ Chain lab h hi b := by
  induction a with
  | nil => simp [Chain]
  | cons x a ih =>
    rw [List.cons_append, chain_cons, chain_cons, nextKey_append, ih, and_assoc, and_assoc]

theorem Chain.congr (hc : Chain lab h hi l) (hlab : ∀ x ∈ l, lab' x.2 = lab x.2) :
    Chain lab' h hi l := by
  induction l with
  | nil => trivial
  | cons x l ih =>
    obtain ⟨hx, hlt, hl⟩ := hc
    exact ⟨by rw [hlab x List.mem_cons_self, hx], hlt,
      ih hl fun y hy => hlab y (List.mem_cons_of_mem x hy)⟩

namespace Chain

theorem label_of_mem (hc : Chain lab h hi l) (hx : x ∈ l) :
    ∃ k, lab x.2 = some ⟨h, x.1, k⟩ := by
  induction l with
  | nil => cases hx
  | cons y l ih =>
    rcases List.mem_cons.mp hx with rfl | hx
    · exact ⟨_, hc.1⟩
    · exact ih hc.2.2 hx

theorem lt_hi (hc : Chain lab h hi l) (hx : x ∈ l) : (x.1 : WithTop K) < hi := by
  induction l generalizing x with
  | nil => cases hx
  | cons y l ih =>
    obtain ⟨-, hlt, hl⟩ := hc
    rcases List.mem_cons.mp hx with rfl | hx
    · cases l with
      | nil => exact hlt
      | cons z l => exact hlt.trans (ih hl List.mem_cons_self)
    · exact ih hl hx

theorem sorted (hc : Chain lab h hi l) : Sorted l := by
  induction l with
  | nil => exact List.Pairwise.nil
  | cons x l ih =>
    obtain ⟨-, hlt, hl⟩ := hc
    refine Sorted.cons_iff.mpr ⟨?_, ih hl⟩
    cases l with
    | nil => exact nofun
    | cons y l =>
      have hxy : x.1 < y.1 := WithTop.coe_lt_coe.mp hlt
      intro z hz
      rcases List.mem_cons.mp hz with rfl | hz
      · exact hxy
      · exact hxy.trans ((Sorted.cons_iff.mp (ih hl)).1 z hz)

/-- A child stands at one place of its chain. -/
theorem eq_of_child_eq (hc : Chain lab h hi l) (hx : x ∈ l) (hy : y ∈ l) (e : x.2 = y.2) : x = y := by
  obtain ⟨k, hk⟩ := hc.label_of_mem hx
  obtain ⟨k', hk'⟩ := hc.label_of_mem hy
  rw [e, hk'] at hk
  exact Prod.ext (congrArg Label.lo (Option.some.inj hk)).symm e

theorem child_ne (hc : Chain lab h hi (a ++ b)) (hx : x ∈ a) (hy : y ∈ b) : x.2 ≠ y.2 := by
  intro e
  have heq := hc.eq_of_child_eq (List.mem_append_left b hx) (List.mem_append_right a hy) e
  have hlt := (Sorted.append_iff.mp hc.sorted).2.2 x hx y hy
  exact hlt.ne (congrArg Prod.fst heq)

/-- Splitting a list at a child. -/
theorem focus (hc : Chain lab h hi l) (hx : x ∈ l) :
    ∃ a b, l = a ++ x :: b ∧ lab x.2 = some ⟨h, x.1, nextKey hi b⟩ := by
  obtain ⟨a, b, rfl⟩ := List.append_of_mem hx
  exact ⟨a, b, rfl, ((chain_append.mp hc).2).1⟩

/-- The intervals of the children end at or below `hi`. -/
theorem label_le (hc : Chain lab h hi l) (hx : x ∈ l) : ∃ e ≤ hi, lab x.2 = some ⟨h, x.1, e⟩ := by
  obtain ⟨a, b, rfl, hlab⟩ := hc.focus hx
  refine ⟨_, ?_, hlab⟩
  cases b with
  | nil => exact le_rfl
  | cons y b => exact (hc.lt_hi (x := y) (by simp)).le

/-- **Routing.** A key below `hi` is covered by the last child that starts at or below it. -/
theorem route {key : K} (hc : Chain lab h hi (a ++ x :: b)) (hhi : (key : WithTop K) < hi)
    (hle : x.1 ≤ key) (hgt : ∀ y ∈ b, key < y.1) :
    ∃ L, lab x.2 = some L ∧ L.height = h ∧ L.Mem key := by
  refine ⟨_, (chain_append.mp hc).2.1, rfl, hle, ?_⟩
  cases b with
  | nil => exact hhi
  | cons y b => exact WithTop.coe_lt_coe.mpr (hgt y List.mem_cons_self)

/-- A child that was split gets a new neighbour on its right. -/
theorem absorb {sep : K} {q : ι} (hc : Chain lab h hi (a ++ x :: b))
    (hx : lab' x.2 = some ⟨h, x.1, sep⟩) (hq : lab' q = some ⟨h, sep, nextKey hi b⟩)
    (hlt : x.1 < sep) (hlt' : (sep : WithTop K) < nextKey hi b)
    (hother : ∀ y ∈ a ++ b, lab' y.2 = lab y.2) :
    Chain lab' h hi (a ++ x :: (sep, q) :: b) := by
  obtain ⟨ha, -, -, hb⟩ := chain_append.mp hc
  refine chain_append.mpr ⟨ha.congr fun y hy => hother y (List.mem_append_left b hy), ?_⟩
  refine ⟨hx, WithTop.coe_lt_coe.mpr hlt, hq, hlt', ?_⟩
  exact hb.congr fun y hy => hother y (List.mem_append_right a hy)

/-- All keys of a chain are at or above the first one. -/
theorem mem_label {L : Label K} {c : ι} (hc : Chain lab h L.hi ((L.lo, c) :: l))
    (hx : x ∈ (L.lo, c) :: l) : L.Mem x.1 := by
  refine ⟨?_, hc.lt_hi hx⟩
  rcases List.mem_cons.mp hx with rfl | hx
  · exact le_rfl
  · exact ((Sorted.cons_iff.mp hc.sorted).1 x hx).le

end Chain

/-! ## Disjoint intervals -/

/-- Nodes of one height cover disjoint intervals. -/
def Apart (lab : ι → Option (Label K)) : Prop :=
  ∀ {p q L L' k}, lab p = some L → lab q = some L' → L.height = L'.height → L.Mem k → L'.Mem k →
    p = q

namespace Apart

variable {p q : ι} {L L' : Label K}

/-- A node is determined by its height and the upper end of its interval. -/
theorem eq_of_hi_eq (hapart : Apart lab) (hp : lab p = some L) (hq : lab q = some L')
    (hh : L.height = L'.height) (hL : L.Proper) (hL' : L'.Proper) (e : L.hi = L'.hi) : p = q := by
  obtain ⟨k, hk, hk'⟩ := Label.exists_mem_of_hi_eq hL hL' e
  exact hapart hp hq hh hk hk'

/-- Two nodes take over a set of keys, which only they covered before, with disjoint intervals. -/
theorem relabel (hapart : Apart lab) (hother : ∀ x, x ≠ p → x ≠ q → lab' x = lab x)
    (hcover : ∀ x L k, x = p ∨ x = q → lab' x = some L → L.Mem k →
      ∃ y L', (y = p ∨ y = q) ∧ lab y = some L' ∧ L'.height = L.height ∧ L'.Mem k)
    (hdisj : ∀ L L' k, lab' p = some L → lab' q = some L' → L.Mem k → ¬ L'.Mem k) :
    Apart lab' := by
  -- a node that keeps its label shares no key with the two
  have hnew : ∀ {x y L L' k}, x = p ∨ x = q → ¬ (y = p ∨ y = q) → lab' x = some L →
      lab' y = some L' → L.height = L'.height → L.Mem k → ¬ L'.Mem k := by
    intro x y L L' k hx hy hlx hly hh hk hk'
    obtain ⟨z, Lz, hz, hlz, hhz, hkz⟩ := hcover x L k hx hlx hk
    rw [hother y (fun e => hy (Or.inl e)) fun e => hy (Or.inr e)] at hly
    exact hy (hapart hlz hly (hhz.trans hh) hkz hk' ▸ hz)
  intro x y L L' k hlx hly hh hk hk'
  by_cases hx : x = p ∨ x = q
  · by_cases hy : y = p ∨ y = q
    · rcases hx with rfl | rfl <;> rcases hy with rfl | rfl
      · rfl
      · exact (hdisj L L' k hlx hly hk hk').elim
      · exact (hdisj L' L k hly hlx hk' hk).elim
      · rfl
    · exact (hnew hx hy hlx hly hh hk hk').elim
  · by_cases hy : y = p ∨ y = q
    · exact (hnew hy hx hly hlx hh.symm hk' hk).elim
    · rw [hother x (fun e => hx (Or.inl e)) fun e => hx (Or.inr e)] at hlx
      rw [hother y (fun e => hy (Or.inl e)) fun e => hy (Or.inr e)] at hly
      exact hapart hlx hly hh hk hk'

end Apart

end Chain

end KeyVDB
