import Mathlib.Data.List.Nodup
import Mathlib.Logic.Function.Basic
import Mathlib.Tactic.Common

/-!
# A list with an index into its nodes

A doubly linked list and a map from its elements to their nodes, so that an element is moved to the
front or removed without a search. A node has an address, which stays the same while the node is in
the list and is not used again after it. `Valid` ties the map to the list; under it `touch` and
`remove` are what they look like on plain lists.
-/

namespace KeyVDB

/-- The nodes from the front, and where each element is. -/
structure IndexedList (α : Type*) where
  nodes : List (Nat × α) := []
  index : α → Option Nat := fun _ => none
  /-- The address of the next node. -/
  fresh : Nat := 0

namespace IndexedList

variable {α : Type*}

/-- The elements from the front. -/
def toList (l : IndexedList α) : List α := l.nodes.map Prod.snd

/-- The map has an entry for the node of each element, and no other. -/
structure Valid (l : IndexedList α) : Prop where
  nodup : l.toList.Nodup
  addresses : (l.nodes.map Prod.fst).Nodup
  index_iff : ∀ a addr, l.index a = some addr ↔ (addr, a) ∈ l.nodes
  lt_fresh : ∀ n ∈ l.nodes, n.1 < l.fresh

theorem valid_empty : Valid ({} : IndexedList α) where
  nodup := List.nodup_nil
  addresses := List.nodup_nil
  index_iff a addr := ⟨fun h => (by cases h), fun h => absurd h List.not_mem_nil⟩
  lt_fresh n hn := absurd hn List.not_mem_nil

theorem mem_toList (l : IndexedList α) {a : α} : a ∈ l.toList ↔ ∃ addr, (addr, a) ∈ l.nodes := by
  rw [toList, List.mem_map]
  constructor
  · rintro ⟨⟨addr, b⟩, hn, rfl⟩
    exact ⟨addr, hn⟩
  · rintro ⟨addr, hn⟩
    exact ⟨(addr, a), hn, rfl⟩

variable [DecidableEq α]

/-- The node that the map has for the element goes, with its entry. -/
def remove (l : IndexedList α) (a : α) : IndexedList α :=
  match l.index a with
  | none => l
  | some addr =>
    { l with
      nodes := l.nodes.filter fun n => n.1 ≠ addr
      index := Function.update l.index a none }

/-- A new node for the element at the front. -/
def pushFront (l : IndexedList α) (a : α) : IndexedList α :=
  { nodes := (l.fresh, a) :: l.nodes
    index := Function.update l.index a (some l.fresh)
    fresh := l.fresh + 1 }

/-- The element moves to the front, or comes there. -/
def touch (l : IndexedList α) (a : α) : IndexedList α := (l.remove a).pushFront a

namespace Valid

variable {l : IndexedList α}

omit [DecidableEq α] in
theorem index_eq_none (h : Valid l) {a : α} : l.index a = none ↔ a ∉ l.toList := by
  rw [mem_toList]
  constructor
  · rintro hnone ⟨addr, hn⟩
    rw [(h.index_iff a addr).mpr hn] at hnone
    cases hnone
  · intro hnot
    cases hindex : l.index a with
    | none => rfl
    | some addr => exact (hnot ⟨addr, (h.index_iff a addr).mp hindex⟩).elim

omit [DecidableEq α] in
/-- A node of the list is known by its address and by its element. -/
theorem addr_eq_iff (h : Valid l) {n : Nat × α} (hn : n ∈ l.nodes) {a : α} {addr : Nat}
    (ha : (addr, a) ∈ l.nodes) : n.1 = addr ↔ n.2 = a := by
  constructor
  · intro he
    exact congrArg Prod.snd (List.inj_on_of_nodup_map h.addresses hn ha he)
  · intro he
    exact congrArg Prod.fst (List.inj_on_of_nodup_map h.nodup hn ha he)

theorem remove_eq (h : Valid l) (a : α) : l.remove a =
    { l with
      nodes := l.nodes.filter fun n => n.2 ≠ a
      index := Function.update l.index a none } := by
  rw [IndexedList.remove]
  cases hindex : l.index a with
  | none =>
    have hnot : ∀ n ∈ l.nodes, n.2 ≠ a := by
      rintro ⟨addr, b⟩ hn rfl
      exact h.index_eq_none.mp hindex (l.mem_toList.mpr ⟨addr, hn⟩)
    have hnodes : l.nodes.filter (fun n => n.2 ≠ a) = l.nodes :=
      List.filter_eq_self.mpr fun n hn => decide_eq_true (hnot n hn)
    have hsame : Function.update l.index a none = l.index := by
      rw [← hindex, Function.update_eq_self]
    rw [hnodes, hsame]
  | some addr =>
    have ha := (h.index_iff a addr).mp hindex
    have hnodes : l.nodes.filter (fun n => n.1 ≠ addr) = l.nodes.filter fun n => n.2 ≠ a := by
      refine List.filter_congr fun n hn => ?_
      simp only [ne_eq, h.addr_eq_iff hn ha]
    rw [← hnodes]

theorem toList_remove (h : Valid l) (a : α) : (l.remove a).toList = l.toList.erase a := by
  rw [h.nodup.erase_eq_filter, h.remove_eq, toList, toList, List.filter_map]
  refine congrArg (List.map Prod.snd) (List.filter_congr fun n _ => ?_)
  simp only [ne_eq, Function.comp, bne, decide_not, beq_eq_decide]

theorem remove (h : Valid l) (a : α) : Valid (l.remove a) := by
  refine ⟨h.toList_remove a ▸ h.nodup.erase a, ?_, ?_, ?_⟩
  · rw [h.remove_eq]
    exact h.addresses.sublist (List.filter_sublist.map _)
  · intro b addr
    rw [h.remove_eq, List.mem_filter, decide_eq_true_iff]
    dsimp only
    by_cases he : b = a
    · subst he
      rw [Function.update_self]
      exact ⟨fun e => (by cases e), fun hn => absurd rfl hn.2⟩
    · rw [Function.update_of_ne he, h.index_iff]
      exact ⟨fun hn => ⟨hn, he⟩, fun hn => hn.1⟩
  · intro n hn
    rw [h.remove_eq] at hn ⊢
    exact h.lt_fresh n (List.mem_filter.mp hn).1

theorem pushFront (h : Valid l) {a : α} (ha : a ∉ l.toList) : Valid (l.pushFront a) := by
  refine ⟨List.nodup_cons.mpr ⟨ha, h.nodup⟩, List.nodup_cons.mpr ⟨?_, h.addresses⟩, ?_, ?_⟩
  · intro hmem
    obtain ⟨n, hn, he⟩ := List.mem_map.mp hmem
    exact Nat.ne_of_lt (h.lt_fresh n hn) he
  · intro b addr
    rw [IndexedList.pushFront, List.mem_cons, Prod.mk.injEq]
    dsimp only
    by_cases he : b = a
    · subst he
      rw [Function.update_self, Option.some.injEq, eq_comm]
      refine ⟨fun e => .inl ⟨e, rfl⟩, ?_⟩
      rintro (⟨e, -⟩ | hn)
      · exact e
      · exact (ha (l.mem_toList.mpr ⟨addr, hn⟩)).elim
    · rw [Function.update_of_ne he, h.index_iff]
      refine ⟨.inr, ?_⟩
      rintro (⟨-, e⟩ | hn)
      · exact (he e).elim
      · exact hn
  · intro n hn
    rcases List.mem_cons.mp hn with rfl | hn
    · exact Nat.lt_succ_self _
    · exact Nat.lt_succ_of_lt (h.lt_fresh n hn)

theorem toList_touch (h : Valid l) (a : α) : (l.touch a).toList = a :: l.toList.erase a := by
  rw [← h.toList_remove a]
  rfl

theorem touch (h : Valid l) (a : α) : Valid (l.touch a) := by
  refine (h.remove a).pushFront ?_
  rw [h.toList_remove]
  exact h.nodup.not_mem_erase

end Valid

end IndexedList

end KeyVDB
