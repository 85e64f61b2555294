import KeyVDB.Server.Lifecycle
import KeyVDB.Txn.PowerLoss

/-!
# What a session adds to the history

The calls of the database that a session makes, seen in the history of the database: other threads
add to it as well, but never to the calls of a transaction of the session. A `Get`, `Put` or
`Delete` that does not time out is exactly one call of its transaction, and nothing else that the
session does is one.
-/

namespace KeyVDB

/-- Only the body of a call of `t` adds to the calls of `t`. -/
theorem callsOf_eventOf {s : Sys} {a : Action} {t : TxnId} (h : a ≠ .body t) :
    callsOf (eventOf s a) t = [] := by
  cases a with
  | body u =>
    have hne : u ≠ t := fun e => h (congrArg Action.body e)
    simp only [eventOf]
    split
    · simp [callsOf, hne]
    · rfl
  | _ => rfl

theorem callsOf_append (events events' : List Event) (t : TxnId) :
    callsOf (events ++ events') t = callsOf events t ++ callsOf events' t :=
  List.filterMap_append

theorem run_trans {ts ts' ts'' : Traced} (h : ∃ as, run tstep ts as = some ts')
    (h' : ∃ as, run tstep ts' as = some ts'') : ∃ as, run tstep ts as = some ts'' := by
  obtain ⟨as, hrun⟩ := h
  obtain ⟨as', hrun'⟩ := h'
  exact ⟨as ++ as', by rw [run_append, hrun]; exact hrun'⟩

/-! ## Commits -/

theorem Reachable.commitOrder_eq {m₀ : KV} {ts : Traced} (h : Reachable m₀ ts) :
    commitOrder ts.events = commitIds ts.log := by
  obtain ⟨as, hrun⟩ := h
  have hstep : ∀ ts a ts', commitOrder ts.events = commitIds ts.log → True →
      KeyVDB.tstep ts a = some ts' → commitOrder ts'.events = commitIds ts'.log :=
    fun _ _ _ hts _ hs => commitOrder_tstep hts hs
  exact run_inv hstep rfl (steps_of_forall (fun _ _ => trivial) _ _) hrun

/-- The transactions in the commit order are those that are committed in the log. -/
theorem Reachable.mem_commitOrder {m₀ : KV} {ts : Traced} (h : Reachable m₀ ts) {t : TxnId} :
    t ∈ commitOrder ts.events ↔ ts.sys.fate t = some .committed := by
  have hends := h.endsLogged t
  have hmem : t ∈ commitIds ts.log ↔ .COMMIT ∈ endTypes ts.log t := by
    rw [mem_commitIds, endTypes, List.mem_map]
    constructor
    · intro hlog
      obtain ⟨c, hc, htype, hid⟩ := hlog
      exact ⟨c, List.mem_filter.mpr ⟨hc, decide_eq_true ⟨hid, Or.inl htype⟩⟩, htype⟩
    · intro hlog
      obtain ⟨c, hc, htype⟩ := hlog
      obtain ⟨hc, hid⟩ := List.mem_filter.mp hc
      exact ⟨c, hc, htype, (of_decide_eq_true hid).1⟩
  rw [h.commitOrder_eq, hmem, hends]
  cases hfate : ts.sys.fate t with
  | none => simp [Fate.endTypes]
  | some f => cases f <;> simp [Fate.endTypes]

/-- A transaction that has committed makes no more calls. -/
theorem Reachable.callsOf_eq {m₀ : KV} {ts ts' : Traced} {as : List Action} (h : Reachable m₀ ts)
    (hrun : run KeyVDB.tstep ts as = some ts') {t : TxnId} (ht : t ∈ commitOrder ts.events) :
    callsOf ts'.events t = callsOf ts.events t := by
  have hstep : ∀ ts₁ a ts₂, (Reachable m₀ ts₁ ∧ t ∈ commitOrder ts₁.events ∧
      callsOf ts₁.events t = callsOf ts.events t) → True → KeyVDB.tstep ts₁ a = some ts₂ →
      Reachable m₀ ts₂ ∧ t ∈ commitOrder ts₂.events ∧
        callsOf ts₂.events t = callsOf ts.events t := by
    intro ts₁ a ts₂ hts _ hs
    obtain ⟨hreach, hmem, hcalls⟩ := hts
    obtain ⟨hs', hevents, -⟩ := tstep_eq hs
    refine ⟨hreach.tstep hs, ?_, ?_⟩
    · rw [hevents]
      exact (List.prefix_append _ _).filterMap _ |>.subset hmem
    · rw [hevents, callsOf_append, hcalls, callsOf_eventOf, List.append_nil]
      rintro rfl
      obtain ⟨view, hserial⟩ := hreach.serial
      obtain ⟨tx, htx, hlive⟩ := hserial.committed t hmem
      generalize ts₂.sys = s₂ at hs'
      cases hs' with
      | body hat =>
        rw [hat] at htx
        cases htx
        exact hlive trivial
  exact (run_inv hstep ⟨h, ht, rfl⟩ (steps_of_forall (fun _ _ => trivial) _ _) hrun).2.2

/-! ## The session -/

namespace World

variable {m₀ : KV} {past : List (Option TxnId × UInt8)} {w w' w'' : World} {t : TxnId}

/-- The database went on, and the session began no transaction. -/
structure Extends (w w' : World) : Prop where
  mine : w'.mine = w.mine
  run : ∃ as, run tstep w.ts as = some w'.ts

namespace Extends

theorem refl (w : World) : Extends w w := ⟨rfl, [], rfl⟩

theorem trans (h : Extends w w') (h' : Extends w' w'') : Extends w w'' :=
  ⟨h'.mine.trans h.mine, run_trans h.run h'.run⟩

theorem move {a : Action} (h : w.move a = some w') : Extends w w' := by
  obtain ⟨ts, hs, rfl⟩ := Option.map_eq_some_iff.mp h
  refine ⟨rfl, [a], ?_⟩
  rw [KeyVDB.run, hs]
  rfl

theorem other (w : World) (a : Action) : Extends w (w.other a) := by
  unfold World.other
  split
  · exact refl w
  · cases hm : w.move a with
    | none => exact refl w
    | some w' => exact move hm

theorem wait (w : World) : Extends w w.wait := by
  have hfold : ∀ (as : List Action) (w : World), Extends w (as.foldl World.other w) := by
    intro as
    induction as with
    | nil => exact refl
    | cons a as ih => exact fun w => (other w a).trans (ih _)
  have h := hfold (w.plan 0).others w
  exact ⟨h.mine, h.run⟩

end Extends

/-- Meanwhile `t` made these calls. -/
structure Grows (t : TxnId) (calls : List (Op × Res)) (w w' : World) : Prop extends
    Extends w w' where
  calls : callsOf w'.ts.events t = callsOf w.ts.events t ++ calls

namespace Grows

theorem refl (t : TxnId) (w : World) : Grows t [] w w :=
  ⟨Extends.refl w, (List.append_nil _).symm⟩

theorem trans {calls calls' : List (Op × Res)} (h : Grows t calls w w')
    (h' : Grows t calls' w' w'') : Grows t (calls ++ calls') w w'' := by
  refine ⟨h.toExtends.trans h'.toExtends, ?_⟩
  rw [h'.calls, h.calls, List.append_assoc]

/-- An action adds the calls of its event. -/
theorem move {a : Action} (h : w.move a = some w') :
    Grows t (callsOf (eventOf w.ts.sys a) t) w w' := by
  refine ⟨Extends.move h, ?_⟩
  obtain ⟨ts, hs, rfl⟩ := Option.map_eq_some_iff.mp h
  rw [(tstep_eq hs).2.1, callsOf_append]

theorem move_silent {a : Action} (h : w.move a = some w') (ha : a ≠ .body t) : Grows t [] w w' := by
  have hgrows := move (t := t) h
  rw [callsOf_eventOf ha] at hgrows
  exact hgrows

theorem other (ht : t ∈ w.mine) (a : Action) : Grows t [] w (w.other a) := by
  unfold World.other
  split
  · exact refl t w
  · next hnot =>
    cases hm : w.move a with
    | none => exact refl t w
    | some w' =>
      refine move_silent hm ?_
      intro e
      exact hnot ⟨t, ht, by rw [e]; rfl⟩

theorem wait (ht : t ∈ w.mine) : Grows t [] w w.wait := by
  have hfold : ∀ (as : List Action) (w : World), t ∈ w.mine →
      Grows t [] w (as.foldl World.other w) := by
    intro as
    induction as with
    | nil => exact fun w _ => refl t w
    | cons a as ih =>
      intro w ht
      have hone := other ht a
      exact hone.trans (ih _ (hone.mine ▸ ht))
  exact ⟨Extends.wait w, (hfold (w.plan 0).others w ht).calls⟩

/-- Actions of the session that are not bodies. -/
theorem moves {as : List Action} (ht : t ∈ w.mine) (has : ∀ a ∈ as, a ≠ .body t)
    (h : w.moves as = some w') : Grows t [] w w' := by
  induction as generalizing w with
  | nil =>
    cases h
    exact refl t w'
  | cons a as ih =>
    obtain ⟨w₁, hm, hrest⟩ := Option.bind_eq_some_iff.mp h
    have hone := (wait ht).trans (move_silent hm (has a List.mem_cons_self))
    exact hone.trans (ih (hone.mine ▸ ht) (fun b hb => has b (List.mem_cons_of_mem _ hb)) hrest)

end Grows

theorem commit_grows (ht : t ∈ w.mine) : Grows t [] w (w.commit t).2 := by
  unfold World.commit
  split
  · exact Grows.refl t w
  · split
    · next w' hm => exact Grows.moves ht (by simp) hm
    · exact Grows.refl t w

theorem rollback_grows (ht : t ∈ w.mine) : Grows t [] w (w.rollback t).2 := by
  unfold World.rollback
  split
  · exact Grows.refl t w
  · have hwait := Grows.wait ht
    split
    · exact Grows.refl t w
    · dsimp only
      split
      · exact Grows.refl t w
      · next w₁ hm =>
        have hundo := hwait.trans (Grows.move_silent hm Action.noConfusion)
        split
        · exact hundo
        · split
          · next w₂ hm₂ => exact hundo.trans (Grows.moves (hundo.mine ▸ ht) (by simp) hm₂)
          · exact hundo

theorem destroy_grows (ht : t ∈ w.mine) : Grows t [] w (sessionDb.destroy t w) := by
  show Grows t [] w (if w.done t then w else (w.rollback t).2)
  split
  · exact Grows.refl t w
  · exact rollback_grows ht

/-- A call times out and leaves no trace, or it is one call of the history. -/
theorem Inv.call_cases (h : Inv m₀ past (some (t, .idle)) w) (name : String) (op : Op) :
    (∃ what w', w.call name t op = (.deadlock what, w') ∧ Grows t [] w w') ∨
      ∃ res w', w.call name t op = (res.outcome, w') ∧ Grows t [(op, res)] w w' := by
  obtain ⟨ht, -⟩ := h.current t _ rfl
  have hwait := Grows.wait ht
  have htimeout : ∃ what w', ((.deadlock (lockTimeout t op.key),
      (w.wait.move (.timeout t op)).getD w.wait) : Outcome Res × World) = (.deadlock what, w') ∧
      Grows t [] w w' := by
    refine ⟨_, _, rfl, ?_⟩
    cases hm : w.wait.move (.timeout t op) with
    | none => exact hwait
    | some w' => exact hwait.trans (Grows.move_silent hm Action.noConfusion)
  rw [World.call, h.done_eq, if_neg (by decide)]
  dsimp only
  split
  · cases hm : w.wait.move (.lock t op) with
    | none => exact Or.inl htimeout
    | some w₁ =>
      -- the lock is granted, and the others run once more before the body
      right
      dsimp only
      obtain ⟨ws, hat⟩ := (step_of_move hm).lock_at
      have hlocked := h.wait.move_own rfl hm hat Fate.noConfusion
      have hgrows := hwait.trans (Grows.move_silent (t := t) hm Action.noConfusion)
      obtain ⟨ht₁, -⟩ := hlocked.current t _ rfl
      obtain ⟨-, ws', hat'⟩ := hlocked.wait.current t _ rfl
      have hat' : w₁.wait.ts.sys.txns t = some { stage := .locked op, writeSet := ws' } := hat'
      obtain ⟨w₂, hm₂, -⟩ := hlocked.act rfl (advances_body t op) Fate.noConfusion
      have hbody := (hgrows.trans (Grows.wait ht₁)).trans (Grows.move (t := t) hm₂)
      have hevent : callsOf (eventOf w₁.wait.ts.sys (.body t)) t =
          [(op, (body w₁.wait.ts.sys t ws' op).res)] := by
        simp [eventOf, hat', callsOf]
      rw [hevent] at hbody
      refine ⟨(body w₁.wait.ts.sys t ws' op).res, w₂, ?_, hbody⟩
      rw [World.callBody, hat']
      dsimp only
      rw [hm₂]
  · exact Or.inl htimeout

/-- `Begin` adds a transaction that was not there before and has made no call. -/
theorem Inv.begin_cases (h : Inv m₀ past none w) :
    (∃ t w', w.begin = (.returned t, w') ∧ Inv m₀ past (some (t, .idle)) w' ∧
        w'.mine = w.mine ++ [t] ∧ (∃ as, run tstep w.ts as = some w'.ts) ∧
        t ∉ w.mine ∧ t ∉ commitOrder w.ts.events ∧ callsOf w'.ts.events t = []) ∨
      ∃ w', w.begin = (.died, w') ∧ Inv m₀ past none w' ∧ Extends w w' := by
  have hext := Extends.wait w
  obtain ⟨as, hrun⟩ := hext.run
  rcases h.begin with ⟨t, w', hbegin, hinv⟩ | ⟨w', hbegin, hinv⟩
  · left
    refine ⟨t, w', hbegin, hinv, ?_⟩
    unfold World.begin at hbegin
    cases hs : tstep w.wait.ts .begin with
    | none =>
      rw [hs] at hbegin
      cases hbegin
    | some ts =>
      rw [hs] at hbegin
      cases hbegin
      obtain ⟨view, hserial⟩ := h.wait.reach.serial
      have hfresh := hserial.iso.fresh_next
      have hevents : ts.events = w.wait.ts.events := by
        rw [(tstep_eq hs).2.1]
        exact List.append_nil _
      refine ⟨congrArg (· ++ _) hext.mine, ⟨as ++ [.begin], run_snoc hrun hs⟩, ?_, ?_, ?_⟩
      · intro hmine
        obtain ⟨tx, htx⟩ := h.wait.exists_txn (hext.mine ▸ hmine)
        rw [hfresh] at htx
        cases htx
      · intro hcommit
        have hpre : commitOrder w.ts.events <+: commitOrder w.wait.ts.events :=
          (history_grows hrun).2.filterMap _
        obtain ⟨tx, htx, -⟩ := hserial.committed _ (hpre.subset hcommit)
        rw [hfresh] at htx
        cases htx
      · show callsOf ts.events _ = []
        rw [hevents]
        exact hserial.iso.fresh hfresh
  · right
    refine ⟨w', hbegin, hinv, ?_⟩
    unfold World.begin at hbegin
    cases hs : tstep w.wait.ts .begin with
    | none =>
      rw [hs] at hbegin
      cases hbegin
      exact hext
    | some ts =>
      rw [hs] at hbegin
      cases hbegin

end World

end KeyVDB
