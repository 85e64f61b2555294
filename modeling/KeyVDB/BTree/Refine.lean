import KeyVDB.BTree.CrashImage
import KeyVDB.BTree.Map
import KeyVDB.BTree.Remove
import KeyVDB.Lib.Run

/-!
# The tree refines a map

`answers` are what the calls of a run return, from the tree or from the map. `CallOk` is the
condition, on the tree before a call, that the pages have the room the code takes for granted;
a run of such calls cannot be told from a run on the map.
-/

namespace KeyVDB

/-- What a call returns. -/
inductive TreeAnswer
  | value (value : Option Bytes)
  | done
  | removed (present : Bool)

namespace KV

/-- A call on the map. -/
def answer (m : KV) : TreeCall → Except Exn TreeAnswer × KV
  | .get key => (.ok (.value (m.get key)), m)
  | .insert key value =>
    match m.insert key value with
    | .ok m' => (.ok .done, m')
    | .error e => (.error e, m)
  | .remove key => (.ok (.removed (m.get key).isSome), m.remove key)

def answers : KV → List TreeCall → List (Except Exn TreeAnswer)
  | _, [] => []
  | m, c :: calls => (m.answer c).1 :: answers (m.answer c).2 calls

/-- Nothing throws when the insertions pass the size check. -/
theorem answers_ok {m : KV} {calls : List TreeCall}
    (hfits : ∀ key value, .insert key value ∈ calls → Fits key value) :
    ∀ r ∈ m.answers calls, ∃ a, r = .ok a := by
  induction calls generalizing m with
  | nil => exact nofun
  | cons c calls ih =>
    intro r hr
    rcases List.mem_cons.mp hr with rfl | hr
    · cases c with
      | get key => exact ⟨_, rfl⟩
      | remove key => exact ⟨_, rfl⟩
      | insert key value =>
        rw [answer, m.insert_of_fits (hfits key value List.mem_cons_self)]
        exact ⟨_, rfl⟩
    · exact ih (fun key value h => hfits key value (List.mem_cons_of_mem c h)) r hr

theorem answer_ends {m : KV} {c : TreeCall} {e : Exn} (h : (m.answer c).1 = .error e) :
    e.ends = false := by
  cases c with
  | get key => cases h
  | remove key => cases h
  | insert key value =>
    rw [answer, insert] at h
    split at h
    · cases h
    · next e' he =>
      split at he
      · cases he
      · cases he
        cases h
        rfl

end KV

namespace BTree

section Answers

variable {σ Ptr : Type} [PageStore σ Ptr]

/-- A call on the tree. -/
def answer : TreeCall → BTreeM σ TreeAnswer
  | .get key => do return .value (← get key)
  | .insert key value => do
    insert key value
    return .done
  | .remove key => do return .removed (← remove key)

/-- What the calls return, up to one that ends the process. -/
def answers : BTree σ → List TreeCall → List (Except Exn TreeAnswer)
  | _, [] => []
  | t, c :: calls =>
    match exec (answer c) t with
    | (.ok a, t') => .ok a :: answers t' calls
    | (.error e, t') => .error e :: if e.ends then [] else answers t' calls

end Answers

/-- `BTree::create` where pages are always available. -/
def fresh : BTree Store := (exec create { store := Store.init }).2

/-- The call finds the room it takes for granted. -/
def CallOk (t : BTree Store) : TreeCall → Prop
  | .get _ => True
  | .insert key value => Fits key value → (view t).InsertOk key value
  | .remove key => (view t).RemoveOk key

instance (t : BTree Store) (c : TreeCall) : Decidable (CallOk t c) :=
  match c with
  | .get _ => instDecidableTrue
  | .insert key value => inferInstanceAs (Decidable (Fits key value → (view t).InsertOk key value))
  | .remove key => inferInstanceAs (Decidable ((view t).RemoveOk key))

/-- The tree after a call. -/
def step (t : BTree Store) (c : TreeCall) : Option (BTree Store) := some (exec (answer c) t).2

/-- The tree is at rest and stands for the map. -/
structure Refines (t : BTree Store) (m : KV) : Prop where
  pins : (view t).pins = 0
  shape : ∃ lab, Shape (view t) lab lab m.get

/-- A new tree stands for the empty map. -/
theorem refines_fresh : Refines fresh .empty := by
  have hnode : (view fresh).node 1 = some (.leaf (Node.init INVALID_PAGE_ID)) := rfl
  have hlab : ∀ {p : PageId} {L : Label Bytes},
      (if p = 1 then some ⟨0, [], ⊤⟩ else none : Option (Label Bytes)) = some L →
        p = 1 ∧ L = ⟨0, [], ⊤⟩ := by
    intro p L h
    split at h
    · next hp => exact ⟨hp, (Option.some.inj h).symm⟩
    · cases h
  refine ⟨rfl, fun p => if p = 1 then some ⟨0, [], ⊤⟩ else none, ?_⟩
  constructor
  case page =>
    intro p L h
    obtain ⟨rfl, rfl⟩ := hlab h
    refine LeafOk.pageOk ⟨hnode, List.Pairwise.nil, nofun, fun _ _ => rfl, fun _ => rfl, ?_⟩ rfl
    intro x hx
    cases hx
  case live =>
    intro p L h
    obtain ⟨rfl, rfl⟩ := hlab h
    exact ⟨by decide, by decide +kernel, nofun⟩
  case proper =>
    intro p L h
    obtain ⟨rfl, rfl⟩ := hlab h
    exact WithTop.coe_lt_top _
  case apart => exact fun h h' _ _ _ => (hlab h).1.trans (hlab h').1.symm
  case apart_seen => exact fun h h' _ _ _ => (hlab h).1.trans (hlab h').1.symm
  case root => exact ⟨0, rfl, fun h => by rw [(hlab h).2]⟩
  case free_nodup => exact List.nodup_nil
  case free_live => exact nofun
  case numPages_pos => decide +kernel

/-- **One call** on a tree that stands for a map returns what the map returns. -/
theorem Refines.answer {t : BTree Store} {m : KV} (h : Refines t m) {c : TreeCall}
    (hok : CallOk t c) :
    (exec (answer c) t).1 = (m.answer c).1 ∧ Refines (exec (answer c) t).2 (m.answer c).2 := by
  obtain ⟨hpins, lab, hshape⟩ := h
  cases c with
  | get key =>
    obtain ⟨r, t', hexec, rfl, hview⟩ := returns_get hshape key t rfl
    rw [BTree.answer, exec_bind_ok hexec]
    exact ⟨rfl, hview ▸ hpins, lab, hview ▸ hshape⟩
  | insert key value =>
    by_cases hfits : Fits key value
    · obtain ⟨r, t', hexec, hpins', hshape'⟩ := returns_insert hshape hfits (hok hfits) t rfl
      rw [BTree.answer, exec_bind_ok hexec, KV.answer, m.insert_of_fits hfits]
      exact ⟨rfl, hpins'.trans hpins, hshape'⟩
    · have hexec : exec (insert key value) t = (.error (tooLarge key value), t) := by
        rw [insert, if_neg hfits]
        rfl
      rw [BTree.answer, exec_bind_error hexec, KV.answer, m.insert_of_not_fits hfits]
      exact ⟨rfl, hpins, lab, hshape⟩
  | remove key =>
    obtain ⟨r, t', hexec, rfl, hpins', hshape'⟩ := returns_remove hshape hpins hok t rfl
    rw [BTree.answer, exec_bind_ok hexec]
    exact ⟨rfl, hpins', hshape'⟩

/-- What a tree that stands for a map returns, call after call. -/
theorem Refines.answers {t : BTree Store} {m : KV} (h : Refines t m) {calls : List TreeCall}
    (hok : Steps step CallOk t calls) : answers t calls = m.answers calls := by
  induction calls generalizing t m with
  | nil => rfl
  | cons c calls ih =>
    obtain ⟨hfirst, hrest⟩ := hok
    obtain ⟨hanswer, hnext⟩ := h.answer hfirst
    have hrest := ih hnext (hrest _ rfl)
    rw [BTree.answers, KV.answers, ← hanswer]
    rcases hexec : exec (BTree.answer c) t with ⟨e | a, t'⟩
    · rw [hexec] at hanswer hrest
      simp only [KV.answer_ends hanswer.symm, hrest]
      rfl
    · rw [hexec] at hrest
      simp only [hrest]

/-- **The tree refines a finite map** along every run whose calls find the room they take for
granted. -/
theorem answers_fresh (calls : List TreeCall)
    (hfits : ∀ key value, .insert key value ∈ calls → Fits key value)
    (hok : Steps step CallOk fresh calls) :
    answers fresh calls = KV.empty.answers calls ∧ ∀ r ∈ answers fresh calls, ∃ a, r = .ok a := by
  have hanswers := refines_fresh.answers hok
  refine ⟨hanswers, ?_⟩
  rw [hanswers]
  exact KV.answers_ok hfits

set_option maxRecDepth 10000 in
/-- A leaf is split, compacted, emptied and merged with its sibling, and the root goes. -/
theorem answers_fresh_merged :
    let calls : List TreeCall :=
      [.insert [97] (List.replicate 2500 0), .insert [98] (List.replicate 700 0),
        .insert [99] (List.replicate 700 0), .insert [100] (List.replicate 300 0), .remove [97],
        .insert [97] (List.replicate 300 0), .remove [97], .get [98], .remove [97]]
    Steps step CallOk fresh calls ∧ answers fresh calls = KV.empty.answers calls := by
  have hsteps : Steps step CallOk fresh
      [.insert [97] (List.replicate 2500 0), .insert [98] (List.replicate 700 0),
        .insert [99] (List.replicate 700 0), .insert [100] (List.replicate 300 0), .remove [97],
        .insert [97] (List.replicate 300 0), .remove [97], .get [98], .remove [97]] := by
    decide +kernel
  refine ⟨hsteps, (answers_fresh _ (fun key value h => ?_) hsteps).1⟩
  simp only [List.mem_cons, TreeCall.insert.injEq, reduceCtorEq, List.not_mem_nil, or_false,
    false_or] at h
  rcases h with ⟨rfl, rfl⟩ | ⟨rfl, rfl⟩ | ⟨rfl, rfl⟩ | ⟨rfl, rfl⟩ | ⟨rfl, rfl⟩ <;> decide +kernel

set_option maxRecDepth 10000 in
/-- Two values that fill more than half a page each: the leaf holds one cell, and `split_into`
asserts that there are two. -/
theorem split_of_one_cell_asserts :
    ¬ ∀ calls : List TreeCall, (∀ key value, .insert key value ∈ calls → Fits key value) →
      answers fresh calls = KV.empty.answers calls := by
  intro h
  have hcalls := h [.insert [97] (List.replicate 3000 0), .insert [98] (List.replicate 3000 0)] ?_
  · have hfail : (answers fresh [.insert [97] (List.replicate 3000 0),
        .insert [98] (List.replicate 3000 0)]).map Except.isOk = [true, false] := by decide +kernel
    rw [hcalls] at hfail
    revert hfail
    decide +kernel
  · intro key value hmem
    simp only [List.mem_cons, TreeCall.insert.injEq, List.not_mem_nil, or_false] at hmem
    rcases hmem with ⟨rfl, rfl⟩ | ⟨rfl, rfl⟩ <;> decide +kernel

end BTree

end KeyVDB
