import KeyVDB.Client.Transaction
import KeyVDB.Server.History
import KeyVDB.Txn.Life

/-!
# Calls of `transact`

The client of `client/src/index.ts` on a session of the server, in any interleaving with other
threads. `Told` is the spec of the methods of `Transaction`: a call fails with a deadlock and the
transaction is gone, or it is one call of the database whose result the callback sees.
`Script.Proper.ends` carries it over to a callback, by induction on it, and `transactFrom_spec` to
the retries. The serial order of the database then says what each committed transaction did.
-/

namespace KeyVDB

namespace Client

/-! ## One request -/

section Link

variable {m₀ : KV} {past : List (Option TxnId × UInt8)} {l l' : Link World} {t : TxnId}
  (lossy : Bytes → String)

/-- The connection has the transaction `t` open. -/
structure Link.Open (m₀ : KV) (past : List (Option TxnId × UInt8)) (t : TxnId) (l : Link World) :
    Prop where
  up : l.up = true
  inStep : l.inStep = true
  txn : l.session.txn = some t
  inv : l.session.db.Inv m₀ past (some (t, .idle))

/-- No transaction is open. -/
structure Link.Idle (m₀ : KV) (past : List (Option TxnId × UInt8)) (l : Link World) : Prop where
  inStep : l.inStep = true
  txn : l.session.txn = none
  inv : l.session.db.Inv m₀ past none

/-- The response to a call that ended with this result. -/
def answer (f : Res → KeyVDB.Response) : Res → KeyVDB.Response
  | .threw e => .error (what e)
  | res => f res

theorem outcome_threw {e : Exn} (h : (e.outcome : KeyVDB.Outcome Res) ≠ .died) :
    (e.outcome : KeyVDB.Outcome Res) = .threw (what e) := by
  cases e with
  | assertion cond => exact absurd rfl h
  | diverges => exact absurd rfl h
  | _ => rfl

/-- `GET`, `PUT` and `DELETE` with a transaction open: the server has dropped it, or the answer is
that of one call of it. -/
theorem Link.Open.send_call {β : Type} {m : Message} {op : Op} (name : String) (call : DbCall)
    {f : Res → β} {g : β → KeyVDB.Response} (h : l.Open m₀ past t) (hread : m.Read (some t))
    (hturn : m.turn sessionDb l.session = l.session.finish sessionDb t call
      (Outcome.respond g (Prod.map (Outcome.map f) id (l.session.db.call name t op)))) :
    (∃ l', l.send sessionDb m = (.ok (parsed .deadlock), l') ∧ l'.Idle m₀ past ∧
        World.Grows t [] l.session.db l'.session.db) ∨
      ∃ res l', l.send sessionDb m = (.ok (parsed (answer (g ∘ f) res)), l') ∧ l'.Open m₀ past t ∧
        World.Grows t [(op, res)] l.session.db l'.session.db := by
  obtain ⟨ht, -⟩ := h.inv.current t _ rfl
  obtain ⟨hinv, hdied⟩ := h.inv.call name op
  rw [Link.send, if_pos h.up, h.txn, if_pos hread, hturn]
  rcases h.inv.call_cases name op with ⟨what, w', hcall, hgrows⟩ | ⟨res, w', hcall, hgrows⟩
  · rw [hcall] at hinv ⊢
    exact Or.inl ⟨_, rfl, ⟨h.inStep, rfl, hinv.destroy (Or.inl rfl)⟩,
      hgrows.trans (World.destroy_grows (hgrows.mine ▸ ht))⟩
  · right
    rw [hcall] at hinv hdied ⊢
    cases res with
    | threw e =>
      rw [Res.outcome, outcome_threw hdied]
      exact ⟨.threw e, _, rfl, ⟨h.up, h.inStep, h.txn, hinv⟩, hgrows⟩
    | got v => exact ⟨.got v, _, rfl, ⟨h.up, h.inStep, h.txn, hinv⟩, hgrows⟩
    | wrote => exact ⟨.wrote, _, rfl, ⟨h.up, h.inStep, h.txn, hinv⟩, hgrows⟩
    | nothing => exact ⟨.nothing, _, rfl, ⟨h.up, h.inStep, h.txn, hinv⟩, hgrows⟩

/-- Where no transaction is open, COMMIT and ROLLBACK are refused. -/
theorem Link.Idle.refused {m : Message} (h : l.Idle m₀ past) (hm : m = .commit ∨ m = .rollback) :
    ∃ e l', l.request sessionDb lossy m = (.error e, l') ∧ l'.Idle m₀ past ∧
      l'.session.db = l.session.db := by
  rw [Link.request, Link.send]
  cases hup : l.up with
  | false => exact ⟨_, _, rfl, h, rfl⟩
  | true =>
    have hread : m.Read l.session.txn := by
      rcases hm with rfl | rfl
      · trivial
      · trivial
    have hturn : m.turn sessionDb l.session = l.session.reply REFUSED := by
      rcases hm with rfl | rfl
      · simp only [Message.turn, handleCommit, h.txn]
      · simp only [Message.turn, handleRollback, h.txn]
    rw [if_pos rfl, if_pos hread, hturn]
    exact ⟨newKeyVDBError (stripZeros (utf8Slice lossy REFUSED.payload)), _, rfl,
      ⟨h.inStep, h.txn, h.inv⟩, rfl⟩

/-- `Commit` succeeds. -/
theorem Link.Open.commit (h : l.Open m₀ past t) :
    ∃ l', l.request sessionDb lossy .commit = (.ok (), l') ∧
      l'.Idle m₀ (past ++ [(some t, OP_COMMIT)]) ∧ l'.session.db.ts.sys.fate t = some .committed ∧
      World.Grows t [] l.session.db l'.session.db := by
  obtain ⟨ht, -⟩ := h.inv.current t _ rfl
  have hpast := h.inv.mono fun x hx => List.mem_append_left [(some t, OP_COMMIT)] hx
  obtain ⟨w', hcommit, hinv⟩ := hpast.commit (List.mem_append_right _ List.mem_cons_self)
  have hgrows := World.commit_grows ht
  rw [hcommit] at hgrows
  -- the destructor finds the transaction ended
  have hdestroy : sessionDb.destroy t w' = w' := by
    show (if w'.done t then w' else (w'.rollback t).2) = w'
    rw [hinv.done_eq]
    rfl
  have hfate : w'.ts.sys.fate t = some .committed := by
    obtain ⟨-, ws, hat⟩ := hinv.current t _ rfl
    exact hat.fate
  have hturn : Message.turn sessionDb l.session .commit =
      { ({ l.session with txn := none, db := w' } : Session World).reply .ok with
        calls := [.commit] } := by
    have hcommit : sessionDb.commit t l.session.db = (.returned (), w') := hcommit
    simp only [Message.turn, handleCommit, h.txn, hcommit, hdestroy]
  have hread : Message.commit.Read l.session.txn := trivial
  rw [Link.request, Link.send, if_pos h.up, if_pos hread, hturn]
  exact ⟨_, rfl, ⟨h.inStep, rfl, hinv.close trivial⟩, hfate, hgrows⟩

/-- `Rollback` succeeds. -/
theorem Link.Open.rollback (h : l.Open m₀ past t) :
    ∃ l', l.request sessionDb lossy .rollback = (.ok (), l') ∧ l'.Idle m₀ past ∧
      World.Grows t [] l.session.db l'.session.db := by
  obtain ⟨ht, -⟩ := h.inv.current t _ rfl
  obtain ⟨w', hrollback, hinv⟩ := h.inv.rollback
  have hgrows := World.rollback_grows ht
  rw [hrollback] at hgrows
  have hdestroy : sessionDb.destroy t w' = w' := by
    show (if w'.done t then w' else (w'.rollback t).2) = w'
    rw [hinv.done_eq]
    rfl
  have hturn : Message.turn sessionDb l.session .rollback =
      { ({ l.session with txn := none, db := w' } : Session World).reply .ok with
        calls := [.rollback] } := by
    have hrollback : sessionDb.rollback t l.session.db = (.returned (), w') := hrollback
    simp only [Message.turn, handleRollback, h.txn, hrollback, hdestroy]
  have hread : Message.rollback.Read l.session.txn := trivial
  rw [Link.request, Link.send, if_pos h.up, if_pos hread, hturn]
  exact ⟨_, rfl, ⟨h.inStep, rfl, hinv.close trivial⟩, hgrows⟩

/-- The transaction `t` was begun; it was not there before. -/
structure Link.Begun (m₀ : KV) (past : List (Option TxnId × UInt8)) (t : TxnId)
    (l l' : Link World) : Prop where
  isOpen : l'.Open m₀ past t
  mine : l'.session.db.mine = l.session.db.mine ++ [t]
  run : ∃ as, run tstep l.session.db.ts as = some l'.session.db.ts
  new : t ∉ l.session.db.mine
  order : t ∉ commitOrder l.session.db.ts.events
  calls : callsOf l'.session.db.ts.events t = []

/-- `begin` opens a transaction, or fails and opens none. -/
theorem Link.Idle.begin (h : l.Idle m₀ past) :
    (∃ t l', begin sessionDb lossy l = (.ok (), l') ∧ l.Begun m₀ past t l') ∨
      ∃ e l', begin sessionDb lossy l = (.error e, l') ∧ e ≠ .deadlockError ∧ l'.Idle m₀ past ∧
        World.Extends l.session.db l'.session.db := by
  rw [Client.begin, Link.request, Link.send]
  cases hup : l.up with
  | false => exact Or.inr ⟨_, _, rfl, ClientError.noConfusion, h, World.Extends.refl _⟩
  | true =>
    have hread : Message.begin.Read l.session.txn := trivial
    rw [if_pos rfl, if_pos hread]
    rcases h.inv.begin_cases with
      ⟨t, w', hbegin, hinv, hmine, hrun, hnew, horder, hcalls⟩ | ⟨w', hbegin, hinv, hext⟩
    · left
      have hturn : Message.turn sessionDb l.session .begin =
          { ({ l.session with txn := some t, db := w' } : Session World).reply .ok with
            calls := [.begin] } := by
        have hbegin : sessionDb.begin l.session.db = (.returned t, w') := hbegin
        simp only [Message.turn, handleBegin, h.txn, hbegin]
      rw [hturn]
      exact ⟨t, _, rfl, ⟨rfl, h.inStep, rfl, hinv⟩, hmine, hrun, hnew, horder, hcalls⟩
    · right
      have hturn : Message.turn sessionDb l.session .begin =
          { session := { l.session with db := w' }, calls := [.begin], ended := true } := by
        have hbegin : sessionDb.begin l.session.db = (.died, w') := hbegin
        simp only [Message.turn, handleBegin, h.txn, hbegin]
      rw [hturn]
      exact ⟨_, _, rfl, ClientError.noConfusion, ⟨h.inStep, h.txn, hinv⟩, hext⟩

end Link

/-! ## Callbacks -/

section Callbacks

variable {α : Type}

/-- Until it ends the transaction the callback makes no call that reads or writes. -/
def Script.Quiet : Script α → Prop
  | .get _ _ => False
  | .put _ _ _ => False
  | .delete _ _ => False
  | _ => True

/-- The callback leaves the commit to `transact`, and once a call has failed with a deadlock it
makes no further call that reads or writes, as the documentation of `Transaction` asks. -/
def Script.Proper : Script α → Prop
  | .returns _ => True
  | .throws _ => True
  | .get _ next =>
    (next (.error .deadlockError)).Quiet ∧ ∀ r, r ≠ .error .deadlockError → (next r).Proper
  | .put _ _ next =>
    (next (.error .deadlockError)).Quiet ∧ ∀ r, r ≠ .error .deadlockError → (next r).Proper
  | .delete _ next =>
    (next (.error .deadlockError)).Quiet ∧ ∀ r, r ≠ .error .deadlockError → (next r).Proper
  | .commit _ => False
  | .rollback _ => True

/-- Once `done` is set nothing is sent. -/
theorem Script.run_done {σ : Type} (db : Database σ) (lossy : Bytes → String) (fn : Script α)
    (l : Link σ) : (fn.run db lossy true l).2 = (true, l) := by
  induction fn with
  | returns a => rfl
  | throws e => rfl
  | get key next ih => exact ih _
  | put key value next ih => exact ih _
  | delete key next ih => exact ih _
  | commit next ih => exact ih _
  | rollback next ih => exact ih _

variable {m₀ : KV} {past : List (Option TxnId × UInt8)} {l : Link World} {t : TxnId}
  (lossy : Bytes → String)

/-- A callback that goes on without a transaction. -/
theorem Script.Quiet.run {fn : Script α} (hfn : fn.Quiet) (h : l.Idle m₀ past) :
    (fn.run sessionDb lossy false l).2.2.Idle m₀ past ∧
      (fn.run sessionDb lossy false l).2.2.session.db = l.session.db := by
  cases fn with
  | returns a => exact ⟨h, rfl⟩
  | throws e => exact ⟨h, rfl⟩
  | get key next => exact hfn.elim
  | put key value next => exact hfn.elim
  | delete key next => exact hfn.elim
  | commit next =>
    obtain ⟨e, l', hreq, hidle, hdb⟩ := h.refused lossy (Or.inl rfl)
    have hrun : (Script.commit next).run sessionDb lossy false l =
        (next (.error e)).run sessionDb lossy true l' := by
      rw [Script.run, txnCommit, if_neg (by decide), hreq]
    rw [hrun, Script.run_done]
    exact ⟨hidle, hdb⟩
  | rollback next =>
    obtain ⟨e, l', hreq, hidle, hdb⟩ := h.refused lossy (Or.inr rfl)
    have hrun : (Script.rollback next).run sessionDb lossy false l =
        (next (.error e)).run sessionDb lossy true l' := by
      rw [Script.run, txnRollback, if_neg (by decide), hreq]
    rw [hrun, Script.run_done]
    exact ⟨hidle, hdb⟩

/-! ## One call of a callback -/

theorem replay_append_replay (m : KV) (ops ops' : List Op) :
    replay m (ops ++ ops') =
      ((replay (replay m ops).1 ops').1, (replay m ops).2 ++ (replay (replay m ops).1 ops').2) := by
  induction ops generalizing m with
  | nil => rfl
  | cons op ops ih => simp only [List.cons_append, replay, ih]

theorem length_replay (m : KV) (ops : List Op) : (replay m ops).2.length = ops.length := by
  induction ops generalizing m with
  | nil => rfl
  | cons op ops ih => rw [replay, List.length_cons, ih, List.length_cons]

/-- The calls give the results they had, when they are executed alone on `m`. -/
def Reproduces (m : KV) (calls : List (Op × Res)) : Prop :=
  (replay m (calls.map Prod.fst)).2 = calls.map Prod.snd

/-- The map after the calls. -/
def mapAfter (m : KV) (calls : List (Op × Res)) : KV := (replay m (calls.map Prod.fst)).1

theorem reproduces_append {m : KV} {calls calls' : List (Op × Res)} :
    Reproduces m (calls ++ calls') ↔ Reproduces m calls ∧ Reproduces (mapAfter m calls) calls' := by
  unfold Reproduces mapAfter
  rw [List.map_append, replay_append_replay, List.map_append]
  constructor
  · intro h
    exact List.append_inj h (by rw [length_replay, List.length_map, List.length_map])
  · intro h
    rw [h.1, h.2]

theorem mapAfter_append (m : KV) (calls calls' : List (Op × Res)) :
    mapAfter m (calls ++ calls') = mapAfter (mapAfter m calls) calls' := by
  unfold mapAfter
  rw [List.map_append, replay_append_replay]

/-- A method of `Transaction` that reads or writes: it fails with a deadlock and the transaction is
gone, or it makes the calls of `ops` and returns what `out` says, if these are executed alone. -/
def Told {β : Type} (call : Bool → Link World → Except ClientError β × Link World) (ops : List Op)
    (out : KV → Except ClientError β) : Prop :=
  ∀ {m₀ past t l}, Link.Open m₀ past t l →
    (∃ l', call false l = (.error .deadlockError, l') ∧ l'.Idle m₀ past ∧
      World.Grows t [] l.session.db l'.session.db) ∨
    ∃ r l' calls, call false l = (r, l') ∧ r ≠ .error .deadlockError ∧ l'.Open m₀ past t ∧
      World.Grows t calls l.session.db l'.session.db ∧ calls.map Prod.fst = ops ∧
      ∀ m, Reproduces m calls → r = out m

/-- A string that is too long never leaves the client. -/
theorem told_rangeError {β : Type} (call : Bool → Link World → Except ClientError β × Link World)
    (h : ∀ l, call false l = (.error .rangeError, l)) :
    Told call [] fun _ => .error .rangeError := by
  intro m₀ past t l hopen
  exact Or.inr ⟨_, l, [], h l, nofun, hopen, World.Grows.refl _ _, rfl, fun _ _ => rfl⟩

/-- A request with its answer. -/
theorem told_of_send {β : Type} {call : Bool → Link World → Except ClientError β × Link World}
    {op : Op} (m : Message) (f : Res → KeyVDB.Response)
    (parse : Response → Except ClientError β) {out : KV → Except ClientError β}
    (hcall : ∀ l res l', l.send sessionDb m = (.ok res, l') → call false l = (parse res, l'))
    (hsend : ∀ {m₀ past t l}, Link.Open m₀ past t l →
      (∃ l', l.send sessionDb m = (.ok (parsed .deadlock), l') ∧ l'.Idle m₀ past ∧
        World.Grows t [] l.session.db l'.session.db) ∨
      ∃ res l', l.send sessionDb m = (.ok (parsed (answer f res)), l') ∧ l'.Open m₀ past t ∧
        World.Grows t [(op, res)] l.session.db l'.session.db)
    (hdeadlock : parse (parsed .deadlock) = .error .deadlockError)
    (hne : ∀ res, parse (parsed (answer f res)) ≠ .error .deadlockError)
    (hout : ∀ m, parse (parsed (answer f (op.exec m).2)) = out m) : Told call [op] out := by
  intro m₀ past t l hopen
  rcases hsend hopen with ⟨l', hs, hidle, hgrows⟩ | ⟨res, l', hs, hopen', hgrows⟩
  · exact Or.inl ⟨l', by rw [hcall l _ l' hs, hdeadlock], hidle, hgrows⟩
  · right
    refine ⟨_, l', [(op, res)], hcall l _ l' hs, hne res, hopen', hgrows, rfl, ?_⟩
    intro m hm
    have hres : (op.exec m).2 = res := List.head_eq_of_cons_eq hm
    rw [← hres]
    exact hout m

theorem checkResponse_ne_deadlock {r : KeyVDB.Response} (h : r ≠ .deadlock) :
    checkResponse lossy (parsed r) ≠ .error .deadlockError := by
  cases r with
  | deadlock => exact absurd rfl h
  | _ => nofun

theorem parseValue_ne_deadlock {r : KeyVDB.Response} (h : r ≠ .deadlock) :
    parseValue lossy (parsed r) ≠ .error .deadlockError := by
  cases r with
  | deadlock => exact absurd rfl h
  | okValue v =>
    have hparse : parseValue lossy (parsed (.okValue v)) =
        if (beBytes 2 v.length ++ v).length < 2 then .error .rangeError
        else .ok (some (utf8Slice lossy (slice (beBytes 2 v.length ++ v) 2
          (2 + beNat ((beBytes 2 v.length ++ v).take 2))))) := rfl
    rw [hparse]
    split
    · nofun
    · nofun
  | _ => nofun

theorem Fits.value_length_lt_wire {k v : Bytes} (h : Fits k v) : v.length < 2 ^ 16 := by
  simp only [Fits, leafCellSize, SLOT_SIZE, NODE_USABLE_SIZE, DATA_SIZE, PAGE_SIZE,
    KeyVDB.HEADER_SIZE, NODE_HEADER_SIZE] at h
  omega

theorem ok_ne_deadlock : KeyVDB.Response.ok ≠ .deadlock := by
  decide

theorem ofValue_ne_deadlock (v : Option Bytes) : KeyVDB.Response.ofValue v ≠ .deadlock := by
  cases v with
  | none => exact KeyVDB.Response.noConfusion
  | some v => exact KeyVDB.Response.noConfusion

/-- Only a timeout is answered with a deadlock. -/
theorem answer_ne_deadlock {f : Res → KeyVDB.Response} (h : ∀ res, f res ≠ .deadlock) (res : Res) :
    answer f res ≠ .deadlock := by
  cases res with
  | threw e => exact KeyVDB.Response.noConfusion
  | _ => exact h _

/-- `get` returns the value of the key. -/
theorem told_get {key : String} {k : WireString} (hk : wireString key = some k) :
    Told (txnGet sessionDb lossy key) [.get k.val] fun m =>
      .ok ((m.get k.val).map (utf8Slice lossy)) := by
  refine told_of_send (.get k) (KeyVDB.Response.ofValue ∘ Res.value)
    (parseValue lossy) ?_ ?_ rfl ?_ ?_
  · intro l res l' hs
    rw [txnGet, if_neg (by decide), hk]
    dsimp only
    rw [hs]
  · intro m₀ past t l hopen
    refine hopen.send_call "Transaction::Get" (.get k.val) rfl ?_
    rw [Message.turn, hopen.txn]
    rfl
  · intro res
    apply parseValue_ne_deadlock
    exact answer_ne_deadlock (fun res => ofValue_ne_deadlock res.value) res
  · intro m
    show parseValue lossy (parsed (.ofValue (m.get k.val))) = _
    cases hget : m.get k.val with
    | none => rfl
    | some v => exact parseValue_okValue (Fits.value_length_lt_wire (m.fits hget))

/-- `put` fails exactly where the tree refuses the pair. -/
theorem told_put {key value : String} {k v : WireString} (hk : wireString key = some k)
    (hv : wireString value = some v) :
    Told (txnPut sessionDb lossy key value) [.put k.val v.val] fun m =>
      match m.insert k.val v.val with
      | .ok _ => .ok ()
      | .error e => .error (newKeyVDBError (what e)) := by
  refine told_of_send (.put k v) (fun _ => .ok) (checkResponse lossy)
    ?_ ?_ rfl ?_ ?_
  · intro l res l' hs
    rw [txnPut, if_neg (by decide), hk, hv]
    dsimp only
    rw [Link.request, hs]
  · intro m₀ past t l hopen
    refine hopen.send_call "Transaction::Put" (.put k.val v.val)
      (f := fun _ => ()) (g := fun _ => .ok) rfl ?_
    rw [Message.turn, hopen.txn]
    rfl
  · intro res
    apply checkResponse_ne_deadlock
    exact answer_ne_deadlock (fun _ => ok_ne_deadlock) res
  · intro m
    by_cases hf : Fits k.val v.val
    · simp only [Op.exec, KV.insert_of_fits m hf]
      rfl
    · simp only [Op.exec, KV.insert_of_not_fits m hf]
      exact checkResponse_error (what_tooLarge _ _)

/-- `delete` does not fail. -/
theorem told_delete {key : String} {k : WireString} (hk : wireString key = some k) :
    Told (txnDelete sessionDb lossy key) [.delete k.val] fun _ => .ok () := by
  refine told_of_send (.delete k) (fun _ => .ok) (checkResponse lossy)
    ?_ ?_ rfl ?_ ?_
  · intro l res l' hs
    rw [txnDelete, if_neg (by decide), hk]
    dsimp only
    rw [Link.request, hs]
  · intro m₀ past t l hopen
    refine hopen.send_call "Transaction::Delete" (.delete k.val)
      (f := fun _ => ()) (g := fun _ => .ok) rfl ?_
    rw [Message.turn, hopen.txn]
    rfl
  · intro res
    apply checkResponse_ne_deadlock
    exact answer_ne_deadlock (fun _ => ok_ne_deadlock) res
  · intro m
    cases hget : m.get k.val <;> simp only [Op.exec, hget] <;> rfl

end Callbacks

/-! ## A whole callback -/

section Attempt

variable {α : Type} {m₀ : KV} {past : List (Option TxnId × UInt8)} {l : Link World} {t : TxnId}
  (lossy : Bytes → String)

/-- How a callback ends: the transaction is gone, or it is open and the callback did what it does
alone. -/
def Script.Ends (lossy : Bytes → String) (m₀ : KV) (past : List (Option TxnId × UInt8)) (t : TxnId)
    (fn : Script α) (l : Link World) : Prop :=
  ∃ calls, World.Grows t calls l.session.db (fn.run sessionDb lossy false l).2.2.session.db ∧
    ((fn.run sessionDb lossy false l).2.2.Idle m₀ past ∨
      (fn.run sessionDb lossy false l).2.1 = false ∧
      (fn.run sessionDb lossy false l).2.2.Open m₀ past t ∧
      ∀ a m, (fn.run sessionDb lossy false l).1 = .ok a → Reproduces m calls →
        fn.alone lossy m = some (a, mapAfter m calls))

/-- A callback that makes a call first. -/
theorem Script.Ends.call {β : Type} {fn : Script α} {next : Except ClientError β → Script α}
    {call : Bool → Link World → Except ClientError β × Link World} {ops : List Op}
    {out : KV → Except ClientError β} (htold : Told call ops out)
    (hrun : ∀ l, fn.run sessionDb lossy false l =
      (next (call false l).1).run sessionDb lossy false (call false l).2)
    (halone : ∀ m, fn.alone lossy m = (next (out m)).alone lossy (replay m ops).1)
    (hquiet : (next (.error .deadlockError)).Quiet)
    (hnext : ∀ r l', r ≠ .error .deadlockError → l'.Open m₀ past t →
      (next r).Ends lossy m₀ past t l')
    (h : l.Open m₀ past t) : fn.Ends lossy m₀ past t l := by
  unfold Script.Ends
  rw [hrun]
  rcases htold h with ⟨l', hcall, hidle, hgrows⟩ |
    ⟨r, l', calls, hcall, hne, hopen, hgrows, hops, hout⟩
  · rw [hcall]
    obtain ⟨hidle', hdb⟩ := hquiet.run lossy hidle
    exact ⟨[], hdb ▸ hgrows, Or.inl hidle'⟩
  · rw [hcall]
    obtain ⟨calls', hgrows', hend⟩ := hnext r l' hne hopen
    refine ⟨calls ++ calls', hgrows.trans hgrows', ?_⟩
    rcases hend with hidle | ⟨hdone, hopen', hspec⟩
    · exact Or.inl hidle
    · refine Or.inr ⟨hdone, hopen', ?_⟩
      intro a m ha hrep
      rw [reproduces_append] at hrep
      rw [halone, ← hout m hrep.1, mapAfter_append, ← hops]
      exact hspec a _ ha hrep.2

/-- A `Delete` removes the key, whether or not it is there. -/
theorem exec_delete (m : KV) (k : Bytes) : ((Op.delete k).exec m).1 = m.remove k := by
  cases hget : m.get k with
  | none =>
    simp only [Op.exec, hget]
    ext k' : 2
    rw [KV.remove_get]
    split
    · next e => rw [e, hget]
    · rfl
  | some v => simp only [Op.exec, hget]

theorem Script.Proper.ends {fn : Script α} (hfn : fn.Proper) (h : l.Open m₀ past t) :
    fn.Ends lossy m₀ past t l := by
  induction fn generalizing l with
  | returns a =>
    refine ⟨[], World.Grows.refl _ _, Or.inr ⟨rfl, h, ?_⟩⟩
    intro b m hb _
    cases hb
    rfl
  | throws e => exact ⟨[], World.Grows.refl _ _, Or.inr ⟨rfl, h, nofun⟩⟩
  | get key next ih =>
    have hnext := fun r l' hr hl => ih r (l := l') (hfn.2 r hr) hl
    cases hk : wireString key with
    | none =>
      refine Ends.call lossy (told_rangeError (txnGet sessionDb lossy key) ?_) (fun _ => rfl) ?_
        hfn.1 hnext h
      · intro l
        simp only [txnGet, hk, Bool.false_eq_true, if_false]
      · intro m
        simp only [Script.alone, hk, replay]
    | some k =>
      refine Ends.call lossy (told_get lossy hk) (fun _ => rfl) ?_ hfn.1 hnext h
      intro m
      simp only [Script.alone, hk, replay, Op.exec]
  | put key value next ih =>
    have hnext := fun r l' hr hl => ih r (l := l') (hfn.2 r hr) hl
    cases hk : wireString key with
    | none =>
      refine Ends.call lossy (told_rangeError (txnPut sessionDb lossy key value) ?_)
        (fun _ => rfl) ?_ hfn.1 hnext h
      · intro l
        simp only [txnPut, hk, Bool.false_eq_true, if_false]
      · intro m
        simp only [Script.alone, hk, replay]
    | some k =>
      cases hv : wireString value with
      | none =>
        refine Ends.call lossy (told_rangeError (txnPut sessionDb lossy key value) ?_)
          (fun _ => rfl) ?_ hfn.1 hnext h
        · intro l
          simp only [txnPut, hk, hv, Bool.false_eq_true, if_false]
        · intro m
          simp only [Script.alone, hk, hv, replay]
      | some v =>
        refine Ends.call lossy (told_put lossy hk hv) (fun _ => rfl) ?_ hfn.1 hnext h
        intro m
        by_cases hf : Fits k.val v.val
        · simp only [Script.alone, hk, hv, replay, Op.exec, KV.insert_of_fits m hf]
        · simp only [Script.alone, hk, hv, replay, Op.exec, KV.insert_of_not_fits m hf]
  | delete key next ih =>
    have hnext := fun r l' hr hl => ih r (l := l') (hfn.2 r hr) hl
    cases hk : wireString key with
    | none =>
      refine Ends.call lossy (told_rangeError (txnDelete sessionDb lossy key) ?_)
        (fun _ => rfl) ?_ hfn.1 hnext h
      · intro l
        simp only [txnDelete, hk, Bool.false_eq_true, if_false]
      · intro m
        simp only [Script.alone, hk, replay]
    | some k =>
      refine Ends.call lossy (told_delete lossy hk) (fun _ => rfl) ?_ hfn.1 hnext h
      intro m
      rw [Script.alone, hk, replay, replay, exec_delete]
  | commit next ih => exact hfn.elim
  | rollback next ih =>
    obtain ⟨l', hreq, hidle, hgrows⟩ := h.rollback lossy
    have hrun : (Script.rollback next).run sessionDb lossy false l =
        (next (.ok ())).run sessionDb lossy true l' := by
      rw [Script.run, txnRollback, if_neg (by decide), hreq]
    refine ⟨[], ?_, Or.inl ?_⟩
    · rw [hrun, Script.run_done]
      exact hgrows
    · rw [hrun, Script.run_done]
      exact hidle

end Attempt

/-! ## `transact` -/

section Transact

variable {α : Type} {m₀ : KV} {past : List (Option TxnId × UInt8)} {l l' : Link World} {t : TxnId}
  (lossy : Bytes → String)

/-- The transaction of an attempt commits with what the callback does alone, or it does not
commit. -/
theorem attempt_cases {fn : Script α} (hfn : fn.Proper) (h : l.Open m₀ past t) :
    (∃ a l' calls, attempt sessionDb lossy fn l = (.ok a, l') ∧
        l'.Idle m₀ (past ++ [(some t, OP_COMMIT)]) ∧
        l'.session.db.ts.sys.fate t = some .committed ∧
        World.Grows t calls l.session.db l'.session.db ∧
        ∀ m, Reproduces m calls → fn.alone lossy m = some (a, mapAfter m calls)) ∨
      ∃ e l', attempt sessionDb lossy fn l = (.error e, l') ∧ l'.Idle m₀ past ∧
        World.Extends l.session.db l'.session.db := by
  obtain ⟨calls, hgrows, hend⟩ := hfn.ends lossy h
  unfold attempt
  generalize fn.run sessionDb lossy false l = out at hgrows hend
  obtain ⟨r, done, l₁⟩ := out
  dsimp only at hgrows hend
  cases r with
  | error e =>
    right
    dsimp only
    cases done with
    | true =>
      rcases hend with hidle | ⟨hdone, -⟩
      · exact ⟨e, l₁, rfl, hidle, hgrows.toExtends⟩
      · cases hdone
    | false =>
      rw [txnRollback, if_neg (by decide)]
      rcases hend with hidle | ⟨-, hopen, -⟩
      · obtain ⟨e', l₂, hreq, hidle', hdb⟩ := hidle.refused lossy (Or.inr rfl)
        rw [hreq]
        exact ⟨e, l₂, rfl, hidle', hdb ▸ hgrows.toExtends⟩
      · obtain ⟨l₂, hreq, hidle, hgrows'⟩ := hopen.rollback lossy
        rw [hreq]
        exact ⟨e, l₂, rfl, hidle, hgrows.toExtends.trans hgrows'.toExtends⟩
  | ok a =>
    dsimp only
    rcases hend with hidle | ⟨hdone, hopen, hspec⟩
    · right
      -- the callback ended the transaction itself, or went on after a deadlock
      cases done with
      | true => exact ⟨_, l₁, rfl, hidle, hgrows.toExtends⟩
      | false =>
        obtain ⟨e, l₂, hreq, hidle', hdb⟩ := hidle.refused lossy (Or.inl rfl)
        rw [txnCommit, if_neg (by decide), hreq]
        exact ⟨e, l₂, rfl, hidle', hdb ▸ hgrows.toExtends⟩
    · left
      obtain rfl : done = false := hdone
      obtain ⟨l₂, hreq, hidle, hfate, hgrows'⟩ := hopen.commit lossy
      rw [txnCommit, if_neg (by decide), hreq]
      refine ⟨a, l₂, calls, rfl, hidle, hfate, ?_, fun m hm => hspec a m rfl hm⟩
      have htrans := hgrows.trans hgrows'
      rw [List.append_nil] at htrans
      exact htrans

/-- What a `transact` did that began with attempt number `n`: an error commits nothing, a result is
that of the last attempt, whose transaction alone commits. -/
structure Transacted (lossy : Bytes → String) (m₀ : KV) (past : List (Option TxnId × UInt8))
    (fn : Nat → Script α) (n retries : Nat) (l : Link World) (r : Except ClientError α)
    (l' : Link World) (ids : List TxnId) : Prop where
  mine : l'.session.db.mine = l.session.db.mine ++ ids
  count : ids.length ≤ retries
  new : ∀ u ∈ ids, u ∉ l.session.db.mine
  run : ∃ as, run tstep l.session.db.ts as = some l'.session.db.ts
  error : ∀ e, r = .error e → l'.Idle m₀ past
  ok : ∀ a, r = .ok a → ∃ failed t, ids = failed ++ [t] ∧ t ∉ failed ∧
    l'.Idle m₀ (past ++ [(some t, OP_COMMIT)]) ∧ l'.session.db.ts.sys.fate t = some .committed ∧
    t ∉ commitOrder l.session.db.ts.events ∧
    ∀ m, Reproduces m (callsOf l'.session.db.ts.events t) →
      (fn (n + failed.length)).alone lossy m =
        some (a, mapAfter m (callsOf l'.session.db.ts.events t))

namespace Transacted

variable {lossy}

variable {fn : Nat → Script α} {n : Nat} {l₁ l₂ : Link World}

/-- No transaction was begun. -/
theorem of_begin {e : ClientError} (retries : Nat) (hidle : l₁.Idle m₀ past)
    (hext : World.Extends l.session.db l₁.session.db) :
    Transacted lossy m₀ past fn n retries l (.error e : Except ClientError α) l₁ [] where
  mine := by rw [hext.mine, List.append_nil]
  count := Nat.zero_le _
  new := nofun
  run := hext.run
  error _ _ := hidle
  ok := nofun

/-- The only attempt fails. -/
theorem of_error {e : ClientError} (retries : Nat) (hbegun : l.Begun m₀ past t l₁)
    (hidle : l₂.Idle m₀ past) (hext : World.Extends l₁.session.db l₂.session.db) :
    Transacted lossy m₀ past fn n (retries + 1) l (.error e : Except ClientError α) l₂ [t] where
  mine := by rw [hext.mine, hbegun.mine]
  count := Nat.le_add_left _ _
  new u hu := List.mem_singleton.mp hu ▸ hbegun.new
  run := run_trans hbegun.run hext.run
  error _ _ := hidle
  ok := nofun

/-- The only attempt succeeds. -/
theorem of_ok {a : α} {calls : List (Op × Res)} (retries : Nat) (hbegun : l.Begun m₀ past t l₁)
    (hidle : l₂.Idle m₀ (past ++ [(some t, OP_COMMIT)]))
    (hfate : l₂.session.db.ts.sys.fate t = some .committed)
    (hgrows : World.Grows t calls l₁.session.db l₂.session.db)
    (hspec : ∀ m, Reproduces m calls → (fn n).alone lossy m = some (a, mapAfter m calls)) :
    Transacted lossy m₀ past fn n (retries + 1) l (.ok a) l₂ [t] where
  mine := by rw [hgrows.mine, hbegun.mine]
  count := Nat.le_add_left _ _
  new u hu := List.mem_singleton.mp hu ▸ hbegun.new
  run := run_trans hbegun.run hgrows.run
  error := nofun
  ok b hb := by
    cases hb
    have hcalls : callsOf l₂.session.db.ts.events t = calls := by
      rw [hgrows.calls, hbegun.calls, List.nil_append]
    refine ⟨[], t, rfl, List.not_mem_nil, hidle, hfate, hbegun.order, ?_⟩
    rw [hcalls]
    exact hspec

/-- An attempt fails, and the next ones follow. -/
theorem retry {r : Except ClientError α} {retries : Nat} {ids : List TxnId}
    (hbegun : l.Begun m₀ past t l₁) (hext : World.Extends l₁.session.db l₂.session.db)
    (h : Transacted lossy m₀ past fn (n + 1) retries l₂ r l' ids) :
    Transacted lossy m₀ past fn n (retries + 1) l r l' (t :: ids) where
  mine := by rw [h.mine, hext.mine, hbegun.mine, List.append_assoc, List.singleton_append]
  count := Nat.succ_le_succ h.count
  new u hu := by
    rcases List.mem_cons.mp hu with rfl | hu
    · exact hbegun.new
    · intro hmine
      refine h.new u hu ?_
      rw [hext.mine, hbegun.mine]
      exact List.mem_append_left _ hmine
  run := run_trans hbegun.run (run_trans hext.run h.run)
  error := h.error
  ok a ha := by
    obtain ⟨failed, u, rfl, hu, hidle, hfate, horder, hspec⟩ := h.ok a ha
    have hut : u ≠ t := by
      intro e
      refine h.new u (List.mem_append_right _ List.mem_cons_self) ?_
      rw [hext.mine, hbegun.mine, e]
      exact List.mem_append_right _ List.mem_cons_self
    refine ⟨t :: failed, u, rfl, ?_, hidle, hfate, ?_, ?_⟩
    · intro hmem
      rcases List.mem_cons.mp hmem with e | hmem
      · exact hut e
      · exact hu hmem
    · -- what had committed at the start had done so at the retry
      intro hmem
      obtain ⟨as, hrun⟩ := run_trans hbegun.run hext.run
      exact horder ((history_grows hrun).2.filterMap _ |>.subset hmem)
    · intro m hm
      rw [List.length_cons, Nat.add_comm failed.length 1, ← Nat.add_assoc]
      exact hspec m hm

end Transacted

theorem transactFrom_spec {fn : Nat → Script α} (hfn : ∀ n, (fn n).Proper) (n retries : Nat)
    (h : l.Idle m₀ past) :
    ∃ ids, Transacted lossy m₀ past fn n (retries + 1) l
      (transactFrom sessionDb lossy fn n retries l).1
      (transactFrom sessionDb lossy fn n retries l).2 ids := by
  induction retries generalizing n l with
  | zero =>
    unfold transactFrom
    rcases h.begin lossy with ⟨t, l₁, hbegin, hbegun⟩ | ⟨e, l₁, hbegin, -, hidle, hext⟩
    · rw [hbegin]
      dsimp only
      rcases attempt_cases lossy (hfn n) hbegun.isOpen with
        ⟨a, l₂, calls, hattempt, hidle, hfate, hgrows, hspec⟩ | ⟨e, l₂, hattempt, hidle, hext⟩
      · rw [hattempt]
        exact ⟨[t], Transacted.of_ok 0 hbegun hidle hfate hgrows hspec⟩
      · rw [hattempt]
        exact ⟨[t], Transacted.of_error 0 hbegun hidle hext⟩
    · rw [hbegin]
      exact ⟨[], Transacted.of_begin 1 hidle hext⟩
  | succ retries ih =>
    unfold transactFrom
    rcases h.begin lossy with ⟨t, l₁, hbegin, hbegun⟩ | ⟨e, l₁, hbegin, -, hidle, hext⟩
    · rw [hbegin]
      dsimp only
      rcases attempt_cases lossy (hfn n) hbegun.isOpen with
        ⟨a, l₂, calls, hattempt, hidle, hfate, hgrows, hspec⟩ | ⟨e, l₂, hattempt, hidle, hext⟩
      · rw [hattempt]
        exact ⟨[t], Transacted.of_ok _ hbegun hidle hfate hgrows hspec⟩
      · rw [hattempt]
        dsimp only
        split
        · obtain ⟨ids, hids⟩ := ih (n + 1) hidle
          exact ⟨t :: ids, hids.retry hbegun hext⟩
        · exact ⟨[t], Transacted.of_error _ hbegun hidle hext⟩
    · rw [hbegin]
      exact ⟨[], Transacted.of_begin _ hidle hext⟩

end Transact

/-! ## The serial order -/

/-- The map that the given transactions leave, one after the other. -/
def serialMap (m₀ : KV) (events : List KeyVDB.Event) (order : List TxnId) : KV :=
  (serial m₀ (order.map (opsOf events))).1

theorem length_serial (m : KV) (txs : List (List Op)) : (serial m txs).2.length = txs.length := by
  induction txs generalizing m with
  | nil => rfl
  | cons tx txs ih => rw [serial, List.length_cons, ih, List.length_cons]

/-- A committed transaction has the results that it has in the serial order. -/
theorem exists_place {m₀ : KV} {ts : Traced} (h : Reachable m₀ ts) {t : TxnId}
    (ht : t ∈ commitOrder ts.events) :
    ∃ pre post, commitOrder ts.events = pre ++ t :: post ∧
      Reproduces (serialMap m₀ ts.events pre) (callsOf ts.events t) ∧
      mapAfter (serialMap m₀ ts.events pre) (callsOf ts.events t) =
        serialMap m₀ ts.events (pre ++ [t]) := by
  obtain ⟨pre, post, horder⟩ := List.append_of_mem ht
  obtain ⟨view, hserial⟩ := h.serial
  have heq := congrArg Prod.snd hserial.serial_eq
  rw [horder] at heq
  simp only [List.map_append, List.map_cons, serial_append_serial, serial] at heq
  refine ⟨pre, post, horder, ?_, ?_⟩
  · have hlen : ((serial m₀ (pre.map (opsOf ts.events))).2).length =
        (pre.map (resultsOf ts.events)).length := by
      rw [length_serial, List.length_map, List.length_map]
    exact List.head_eq_of_cons_eq (List.append_inj heq hlen).2
  · unfold serialMap mapAfter
    rw [List.map_append, List.map_singleton, serial_append]
    rfl

/-! ## A client -/

section Client

variable {α : Type} {lossy : Bytes → String} {m₀ : KV}

/-- A call of `transact`: the callback of each attempt, and `maxRetries`. -/
structure Call (α : Type) where
  fn : Nat → Script α
  maxRetries : Int := 10

/-- A client that makes one call of `transact` after the other. -/
def transacts {σ : Type} (db : Database σ) (lossy : Bytes → String) :
    List (Call α) → Link σ → List (Except ClientError α) × Link σ
  | [], l => ([], l)
  | c :: cs, l =>
    let (r, l) := transact db lossy c.fn c.maxRetries l
    let (rs, l) := transacts db lossy cs l
    (r :: rs, l)

/-- In the history the transaction `t` is what one of the attempts of the call does alone, at its
place in the commit order. -/
def Call.Did (lossy : Bytes → String) (m₀ : KV) (events : List KeyVDB.Event) (c : Call α) (a : α)
    (t : TxnId) : Prop :=
  ∃ (n : Nat) (pre post : List TxnId), n ≤ c.maxRetries ∧ commitOrder events = pre ++ t :: post ∧
    (c.fn n).alone lossy (serialMap m₀ events pre) = some (a, serialMap m₀ events (pre ++ [t]))

/-- Each call that returned has its transaction among `own`; a call that failed has none. -/
inductive Effects (did : Call α → α → TxnId → Prop) :
    List (Call α) → List (Except ClientError α) → List TxnId → Prop
  | nil : Effects did [] [] []
  | failed {c : Call α} {e : ClientError} {cs : List (Call α)} {rs : List (Except ClientError α)}
      {own : List TxnId} (h : Effects did cs rs own) : Effects did (c :: cs) (.error e :: rs) own
  | returned {c : Call α} {a : α} {t : TxnId} {cs : List (Call α)}
      {rs : List (Except ClientError α)} {own : List TxnId} (hdid : did c a t)
      (h : Effects did cs rs own) : Effects did (c :: cs) (.ok a :: rs) (t :: own)

end Client

section Serial

variable {α : Type} {lossy : Bytes → String} {m₀ : KV} {past : List (Option TxnId × UInt8)}
  {l l' : Link World}

theorem transact_spec (lossy : Bytes → String) (c : Call α) (hfn : ∀ n, (c.fn n).Proper)
    (h : l.Idle m₀ past) :
    ∃ ids, Transacted lossy m₀ past c.fn 0 (c.maxRetries + 1).toNat l
      (transact sessionDb lossy c.fn c.maxRetries l).1
      (transact sessionDb lossy c.fn c.maxRetries l).2 ids := by
  unfold transact
  split
  · exact ⟨[], Transacted.of_begin _ h (World.Extends.refl _)⟩
  · next hnonneg =>
    have hcount : (c.maxRetries + 1).toNat = c.maxRetries.toNat + 1 := by omega
    rw [hcount]
    exact transactFrom_spec lossy hfn 0 _ h

/-- What a call did, seen from the end of the history. -/
theorem Transacted.did {c : Call α} {a : α} {ids : List TxnId} {ts : Traced}
    (hinv : Reachable m₀ l'.session.db.ts)
    (h : Transacted lossy m₀ past c.fn 0 (c.maxRetries + 1).toNat l (.ok a) l' ids)
    (hrun : ∃ as, KeyVDB.run tstep l'.session.db.ts as = some ts) :
    ∃ t ∈ ids, l'.Idle m₀ (past ++ [(some t, OP_COMMIT)]) ∧
      t ∉ commitOrder l.session.db.ts.events ∧ t ∈ commitOrder l'.session.db.ts.events ∧
      c.Did lossy m₀ ts.events a t := by
  obtain ⟨failed, t, rfl, -, hidle, hfate, horder, hspec⟩ := h.ok a rfl
  obtain ⟨as, hrun⟩ := hrun
  obtain ⟨as₀, hrun₀⟩ := hinv
  have hreach : Reachable m₀ ts := ⟨as₀ ++ as, by rw [run_append, hrun₀]; exact hrun⟩
  have hmem : t ∈ commitOrder l'.session.db.ts.events := hidle.inv.reach.mem_commitOrder.mpr hfate
  have hmem' : t ∈ commitOrder ts.events := (history_grows hrun).2.filterMap _ |>.subset hmem
  obtain ⟨pre, post, hplace, hrep, hafter⟩ := exists_place hreach hmem'
  rw [hidle.inv.reach.callsOf_eq hrun hmem] at hrep hafter
  refine ⟨t, List.mem_append_right _ List.mem_cons_self, hidle, horder, hmem, failed.length, pre,
    post, ?_, hplace, ?_⟩
  · have hcount := h.count
    rw [List.length_append, List.length_singleton] at hcount
    omega
  · have halone := hspec _ hrep
    rw [Nat.zero_add, hafter] at halone
    exact halone

/-- What a sequence of calls did; `own` are the transactions of those that returned. -/
structure Served (lossy : Bytes → String) (m₀ : KV) (past : List (Option TxnId × UInt8))
    (cs : List (Call α)) (l : Link World) (rs : List (Except ClientError α)) (l' : Link World)
    (own : List TxnId) : Prop where
  idle : l'.Idle m₀ (past ++ own.map fun t => (some t, OP_COMMIT))
  run : ∃ as, run tstep l.session.db.ts as = some l'.session.db.ts
  mine : ∃ new, l'.session.db.mine = l.session.db.mine ++ new ∧ own ⊆ new ∧
    new.length ≤ (cs.map fun c => (c.maxRetries + 1).toNat).sum
  order : ∃ rest, commitOrder l'.session.db.ts.events =
    commitOrder l.session.db.ts.events ++ rest ∧ own.Sublist rest
  effects : Effects (Call.Did lossy m₀ l'.session.db.ts.events) cs rs own

theorem commitOrder_of_run {ts ts' : Traced} (h : ∃ as, run tstep ts as = some ts') :
    ∃ rest, commitOrder ts'.events = commitOrder ts.events ++ rest := by
  obtain ⟨as, hrun⟩ := h
  obtain ⟨rest, hrest⟩ := (history_grows hrun).2
  exact ⟨commitOrder rest, by rw [← hrest]; exact List.filterMap_append⟩

namespace Served

variable {c : Call α} {cs : List (Call α)} {rs : List (Except ClientError α)} {l₁ : Link World}
  {own ids : List TxnId}

/-- The transactions that were begun add up. -/
theorem mine_cons {r : Except ClientError α}
    (hids : Transacted lossy m₀ past c.fn 0 (c.maxRetries + 1).toNat l r l₁ ids)
    {own' : List TxnId}
    (h : ∃ new, l'.session.db.mine = l₁.session.db.mine ++ new ∧ own' ⊆ new ∧
      new.length ≤ (cs.map fun c => (c.maxRetries + 1).toNat).sum) :
    ∃ new, l'.session.db.mine = l.session.db.mine ++ new ∧ ids ++ own' ⊆ new ∧
      new.length ≤ ((c :: cs).map fun c => (c.maxRetries + 1).toNat).sum := by
  obtain ⟨new, hmine, hown, hlen⟩ := h
  refine ⟨ids ++ new, ?_, ?_, ?_⟩
  · rw [hmine, hids.mine, List.append_assoc]
  · exact List.append_subset.mpr ⟨List.subset_append_left _ _,
      fun t ht => List.mem_append_right _ (hown ht)⟩
  · rw [List.length_append, List.map_cons, List.sum_cons]
    exact Nat.add_le_add hids.count hlen

theorem cons_error {e : ClientError}
    (hids : Transacted lossy m₀ past c.fn 0 (c.maxRetries + 1).toNat l (.error e) l₁ ids)
    (h : Served lossy m₀ past cs l₁ rs l' own) :
    Served lossy m₀ past (c :: cs) l (.error e :: rs) l' own where
  idle := h.idle
  run := run_trans hids.run h.run
  mine := by
    obtain ⟨new, hmine, hown, hlen⟩ := mine_cons hids h.mine
    exact ⟨new, hmine, (List.append_subset.mp hown).2, hlen⟩
  order := by
    obtain ⟨rest, hrest⟩ := commitOrder_of_run hids.run
    obtain ⟨rest', hrest', hsub⟩ := h.order
    refine ⟨rest ++ rest', by rw [hrest', hrest, List.append_assoc], ?_⟩
    exact hsub.trans (List.sublist_append_right _ _)
  effects := .failed h.effects

theorem cons_ok {a : α} {t : TxnId} (ht : t ∈ ids)
    (hids : Transacted lossy m₀ past c.fn 0 (c.maxRetries + 1).toNat l (.ok a) l₁ ids)
    (hnew : t ∉ commitOrder l.session.db.ts.events) (hmem : t ∈ commitOrder l₁.session.db.ts.events)
    (hdid : c.Did lossy m₀ l'.session.db.ts.events a t)
    (h : Served lossy m₀ (past ++ [(some t, OP_COMMIT)]) cs l₁ rs l' own) :
    Served lossy m₀ past (c :: cs) l (.ok a :: rs) l' (t :: own) where
  idle := by
    have hidle := h.idle
    rw [List.append_assoc] at hidle
    exact hidle
  run := run_trans hids.run h.run
  mine := by
    obtain ⟨new, hmine, hown, hlen⟩ := mine_cons hids h.mine
    obtain ⟨hids', hown⟩ := List.append_subset.mp hown
    exact ⟨new, hmine, List.cons_subset.mpr ⟨hids' ht, hown⟩, hlen⟩
  order := by
    obtain ⟨rest, hrest⟩ := commitOrder_of_run hids.run
    obtain ⟨rest', hrest', hsub⟩ := h.order
    have htrest : t ∈ rest := by
      rw [hrest] at hmem
      exact (List.mem_append.mp hmem).resolve_left hnew
    refine ⟨rest ++ rest', by rw [hrest', hrest, List.append_assoc], ?_⟩
    exact (List.singleton_sublist.mpr htrest).append hsub
  effects := .returned hdid h.effects

end Served

/-- The calls of a client one after the other. -/
theorem transacts_spec (lossy : Bytes → String) (cs : List (Call α))
    (hfn : ∀ c ∈ cs, ∀ n, (c.fn n).Proper) (h : l.Idle m₀ past) :
    ∃ own, Served lossy m₀ past cs l (transacts sessionDb lossy cs l).1
      (transacts sessionDb lossy cs l).2 own := by
  induction cs generalizing l past with
  | nil =>
    refine ⟨[], ?_, ⟨[], rfl⟩, ⟨[], (List.append_nil _).symm, List.Subset.refl _, le_rfl⟩,
      ⟨[], (List.append_nil _).symm, List.Sublist.refl _⟩, .nil⟩
    rw [List.map_nil, List.append_nil]
    exact h
  | cons c cs ih =>
    obtain ⟨ids, hids⟩ := transact_spec lossy c (hfn c List.mem_cons_self) h
    have htail : ∀ (l : Link World) (past : List (Option TxnId × UInt8)), l.Idle m₀ past → _ :=
      fun _ _ hidle => ih (fun c' hc => hfn c' (List.mem_cons_of_mem _ hc)) hidle
    unfold transacts
    generalize transact sessionDb lossy c.fn c.maxRetries l = out at hids
    obtain ⟨r, l₁⟩ := out
    dsimp only at hids ⊢
    cases r with
    | error e =>
      obtain ⟨own, hown⟩ := htail l₁ past (hids.error e rfl)
      exact ⟨own, hown.cons_error hids⟩
    | ok a =>
      obtain ⟨failed, u, -, -, hidle, -⟩ := hids.ok a rfl
      obtain ⟨own, hown⟩ := htail l₁ _ hidle
      obtain ⟨t, ht, hidle', hnew, hmem, hdid⟩ := hids.did hidle.inv.reach hown.run
      obtain ⟨own', hown'⟩ := htail l₁ _ hidle'
      exact ⟨t :: own', hown'.cons_ok ht hids hnew hmem hdid⟩

/-- **Calls of `transact`**, from a fresh connection to a database in any state, in any interleaving
with other clients and with any outcome of the lock requests. However they end, the connection is
left in step and without a transaction. Each call that returns has committed exactly one
transaction, durably, and a call that throws has committed none. The transactions stand in the
commit order in the order of the calls, and each is what its callback does alone at its place in the
serial execution of that order: the callback returns the same value and leaves the same map. -/
theorem transacts_serial (lossy : Bytes → String) (m₀ : KV) (as : List Action) (ts : Traced)
    (hrun : run tstep (.opened m₀) as = some ts) (plan : Nat → Choice) (cs : List (Call α))
    (hfn : ∀ c ∈ cs, ∀ n, (c.fn n).Proper) (rs : List (Except ClientError α)) (l : Link World)
    (hcalls : transacts sessionDb lossy cs { session := { input := [], db := { ts, plan } } } =
      (rs, l)) :
    l.inStep = true ∧ l.session.txn = none ∧
    ∃ own rest, Effects (Call.Did lossy m₀ l.session.db.ts.events) cs rs own ∧
      commitOrder l.session.db.ts.events = commitOrder ts.events ++ rest ∧ own.Sublist rest ∧
      (∀ t ∈ l.session.db.mine, t ∈ commitOrder l.session.db.ts.events ↔ t ∈ own) ∧
      (∀ t ∈ own, l.session.db.ts.Acknowledged t) ∧
      l.session.db.mine.length ≤ (cs.map fun c => (c.maxRetries + 1).toNat).sum := by
  have hidle : Link.Idle m₀ [] { session := { input := [], db := { ts, plan } } } :=
    ⟨rfl, rfl, ⟨⟨as, hrun⟩, nofun, nofun, nofun, nofun⟩⟩
  obtain ⟨own, h⟩ := transacts_spec lossy cs hfn hidle
  rw [hcalls] at h
  obtain ⟨new, hmine, hown, hlen⟩ := h.mine
  obtain ⟨rest, hrest, hsub⟩ := h.order
  have hmem : ∀ t ∈ own, t ∈ commitOrder l.session.db.ts.events := by
    intro t ht
    rw [hrest]
    exact List.mem_append_right _ (hsub.subset ht)
  refine ⟨h.idle.inStep, h.idle.txn, own, rest, h.effects, hrest, hsub, ?_, ?_, ?_⟩
  · intro t ht
    refine ⟨?_, hmem t⟩
    intro hcommit
    have hpast := h.idle.inv.commits t ht (h.idle.inv.reach.mem_commitOrder.mp hcommit)
    rw [List.nil_append, List.mem_map] at hpast
    obtain ⟨u, hu, e⟩ := hpast
    cases e
    exact hu
  · intro t ht
    have hfate := h.idle.inv.reach.mem_commitOrder.mp (hmem t ht)
    obtain ⟨tx, htx, hended⟩ := h.idle.inv.ended t (by rw [hmine]; exact hown ht) nofun
    refine ⟨tx, htx, ?_⟩
    rw [Sys.fate, htx] at hfate
    cases hst : tx.stage with
    | committed => trivial
    | rolledBack => rw [Option.map_some, hst] at hfate; cases hfate
    | failed => rw [Option.map_some, hst] at hfate; cases hfate
    | _ => rw [hst] at hended; exact hended.elim
  · rw [hmine]
    exact hlen

end Serial

/-! ## A client in a run -/

/-- Writes a key and lets errors through. -/
def writing (key value : String) (last : Script Unit) : Script Unit :=
  .put key value fun
    | .ok () => last
    | .error e => .throws e

theorem proper_writing (key value : String) {last : Script Unit} (h : last.Proper) :
    (writing key value last).Proper := by
  refine ⟨trivial, ?_⟩
  intro r _
  cases r with
  | ok u => exact h
  | error e => trivial

/-- Two calls: the second one throws after its write. -/
def twoCalls : List (Call Unit) :=
  [{ fn := fun _ => writing "a" "1" (.returns ()) },
    { fn := fun _ => writing "a" "2" (.throws (.error "no")) }]

/-- Another client begins first, and the first lock request times out. -/
def busyPlan : Nat → Choice
  | 0 => { others := [.begin] }
  | 1 => { granted := false }
  | _ => {}

/-- The first call commits in its second attempt, the second call commits nothing. -/
theorem transacts_serial_retried :
    ∃ rs l, transacts sessionDb (fun _ => "") twoCalls
        { session := { input := [], db := { ts := .opened .empty, plan := busyPlan } } } = (rs, l) ∧
      rs = [.ok (), .error (.error "no")] ∧ l.session.db.mine = [2, 3, 4] ∧
      commitOrder l.session.db.ts.events = [3] ∧
      ∃ own, Effects (Call.Did (fun _ => "") .empty l.session.db.ts.events) twoCalls rs own := by
  have hfn : ∀ c ∈ twoCalls, ∀ n, (c.fn n).Proper := by
    intro c hc n
    simp only [twoCalls, List.mem_cons, List.not_mem_nil, or_false] at hc
    rcases hc with rfl | rfl
    · exact proper_writing _ _ trivial
    · exact proper_writing _ _ trivial
  refine ⟨_, _, rfl, by decide +kernel, by decide +kernel, by decide +kernel, ?_⟩
  obtain ⟨-, -, own, rest, heffects, -⟩ :=
    transacts_serial (fun _ => "") .empty [] _ rfl busyPlan twoCalls hfn _ _ rfl
  exact ⟨own, heffects⟩

end Client

end KeyVDB
