import KeyVDB.BTree.Defs
import Mathlib.Logic.Function.Basic

/-!
# The B+Tree as a map

What the transaction layer sees of the tree: a map from keys to values that holds only pairs which
passed the size check of `BTree::insert`. `insert` throws on any other pair and leaves the map
alone; `remove` and `get` cannot fail.
-/

namespace KeyVDB

/-- The contents of a B+Tree. Only pairs that `insert` accepted can be there. -/
@[ext] structure KV where
  get : Bytes → Option Bytes
  fits : ∀ {k v}, get k = some v → Fits k v

namespace KV

/-- The empty tree. -/
def empty : KV := ⟨fun _ => none, nofun⟩

/-- The contents with `k` set to `v`. -/
def set (m : KV) (k v : Bytes) (h : Fits k v) : KV where
  get := Function.update m.get k (some v)
  fits {k' v'} hk := by
    by_cases e : k' = k
    · subst e; simp only [Function.update_self, Option.some.injEq] at hk; exact hk ▸ h
    · rw [Function.update_of_ne e] at hk; exact m.fits hk

/-- `BTree::insert`. -/
def insert (m : KV) (k v : Bytes) : Except Exn KV :=
  if h : Fits k v then .ok (m.set k v h) else .error (tooLarge k v)

/-- `BTree::remove`. -/
def remove (m : KV) (k : Bytes) : KV where
  get := Function.update m.get k none
  fits {k' v'} hk := by
    by_cases e : k' = k
    · subst e; simp at hk
    · rw [Function.update_of_ne e] at hk; exact m.fits hk

/-- The current value of `k` in `src` (or its absence) is written to `m`. -/
def writeOut (m src : KV) (k : Bytes) : KV where
  get := Function.update m.get k (src.get k)
  fits {k' v'} hk := by
    by_cases e : k' = k
    · subst e; simp only [Function.update_self] at hk; exact src.fits hk
    · rw [Function.update_of_ne e] at hk; exact m.fits hk

@[simp] theorem set_get (m : KV) (k v : Bytes) (h : Fits k v) (k' : Bytes) :
    (m.set k v h).get k' = if k' = k then some v else m.get k' := by
  simp [set, Function.update_apply]

@[simp] theorem remove_get (m : KV) (k k' : Bytes) :
    (m.remove k).get k' = if k' = k then none else m.get k' := by
  simp [remove, Function.update_apply]

@[simp] theorem writeOut_get (m src : KV) (k k' : Bytes) :
    (m.writeOut src k).get k' = if k' = k then src.get k' else m.get k' := by
  by_cases h : k' = k
  · subst h; simp [writeOut]
  · simp [writeOut, h]

theorem insert_of_fits (m : KV) {k v : Bytes} (h : Fits k v) : m.insert k v = .ok (m.set k v h) :=
  dif_pos h

theorem insert_of_not_fits (m : KV) {k v : Bytes} (h : ¬ Fits k v) :
    m.insert k v = .error (tooLarge k v) :=
  dif_neg h

end KV

end KeyVDB
