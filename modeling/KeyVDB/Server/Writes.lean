import KeyVDB.Server.Lifecycle

/-!
# Writes to a client that is gone

The handlers answer with plain `::write`s, and the server leaves SIGPIPE at its default: a write to a
connection that the client has closed ends the process, and with it an open transaction that nobody
rolls back. `writeExact` runs on the results of its `::write`s, and `loopWrites` is the loop of `run`
with them. Where every write takes what it is given, it is the loop of `Session.run`
(`loopWrites_nil`).

What becomes of the transactions of a session is told for every byte stream, every interleaving with
other threads, every outcome of the lock requests and every sequence of results of the writes
(`session_lifecycle_iff`): they all end as they should unless a write raises SIGPIPE while one is
open.
-/

namespace KeyVDB

/-! ## The writes -/

/-- How a `::write` to the connection ends. -/
inductive WriteResult
  | took (n : Nat)  -- the bytes it takes
  | failed          -- an error that `errno` tells
  | sigpipe         -- the client has closed the connection
  deriving DecidableEq, Repr

/-- What has been written to the connection, with the results of the writes to come. -/
structure Written where
  bytes : Bytes := []
  results : List WriteResult
  killed : Bool := false

/-- `write_exact`. Behind the results that are listed, a write takes all it is given. -/
def writeExact : List WriteResult → Bytes → Written
  | [], buf => { bytes := buf, results := [] }
  | w :: ws, buf =>
    if buf = [] then { results := w :: ws }
    else
      match w with
      | .took 0 => { results := ws }           -- `w <= 0`
      | .took (n + 1) =>
        let rest := writeExact ws (buf.drop (n + 1))
        { rest with bytes := buf.take (n + 1) ++ rest.bytes }
      | .failed => { results := ws }
      | .sigpipe => { results := ws, killed := true }

namespace Written

/-- A further `write_exact`; nobody looks at what the one before returned. -/
def write (x : Written) (buf : Bytes) : Written :=
  if x.killed then x
  else
    let y := writeExact x.results buf
    { y with bytes := x.bytes ++ y.bytes }

/-- `send_response`. -/
def respond (x : Written) (r : Response) : Written :=
  ((x.write [r.status]).write (beBytes 4 r.payload.length)).write r.payload

end Written

/-- The responses of a turn. -/
def sendAll (ws : List WriteResult) (rs : List Response) : Written :=
  rs.foldl Written.respond { results := ws }

/-! ## The loop with its writes -/

/-- What `run` has done. -/
structure Served (σ : Type) where
  rounds : List (Option TxnId × Round) := []  -- each with `txn_` at its start
  session : Session σ
  killed : Bool := false                      -- a write of the last round has raised SIGPIPE

section Loop

variable {σ : Type} (db : Database σ)

/-- The loop of `run`. The response is the last thing that a handler does. -/
def loopWrites : Nat → List WriteResult → Session σ → Served σ
  | 0, _, s => { session := s }
  | n + 1, ws, s =>
    match serve db s with
    | none => { session := disconnect db s }
    | some (r, t) =>
      let x := sendAll ws t.sent
      let s' := { t.session with output := s.output ++ x.bytes }
      if x.killed then { rounds := [(s.txn, r)], session := s', killed := true }
      else if t.ended then { rounds := [(s.txn, r)], session := s' }
      else
        let rest := loopWrites n x.results s'
        { rest with rounds := (s.txn, r) :: rest.rounds }

/-- `ClientHandler::run` on a connection whose writes end as listed. -/
def Session.runWrites (ws : List WriteResult) (s : Session σ) : Served σ :=
  loopWrites db (s.input.length + 1) ws s

variable {db}

/-- The messages that were handled, each with the transaction that was open. -/
def Served.messages (x : Served σ) : List (Option TxnId × UInt8) :=
  x.rounds.map fun y => (y.1, y.2.opcode)

/-! ### Writes that succeed -/

theorem writeExact_nil (buf : Bytes) : writeExact [] buf = { bytes := buf, results := [] } := rfl

theorem respond_of_nil (bytes : Bytes) (r : Response) :
    Written.respond { bytes := bytes, results := [] } r =
      { bytes := bytes ++ r.encode, results := [] } := by
  simp [Written.respond, Written.write, writeExact_nil, Response.encode]

theorem sendAll_nil (rs : List Response) :
    sendAll [] rs = { bytes := rs.flatMap Response.encode, results := [] } := by
  have hfold : ∀ bytes : Bytes, rs.foldl Written.respond { bytes := bytes, results := [] } =
      { bytes := bytes ++ rs.flatMap Response.encode, results := [] } := by
    induction rs with
    | nil => simp
    | cons r rs ih => simp [respond_of_nil, ih]
  exact hfold []

theorem handleGet_output (n : Nat) (s : Session σ) : (handleGet db n s).session.output =
    s.output ++ (handleGet db n s).sent.flatMap Response.encode := by
  unfold handleGet
  split
  · exact (s.reply_answers _).output
  · split
    · simp
    · exact (Session.finish_answers _ _ _ _).output

theorem handlePut_output (n : Nat) (s : Session σ) : (handlePut db n s).session.output =
    s.output ++ (handlePut db n s).sent.flatMap Response.encode := by
  unfold handlePut
  split
  · exact (s.reply_answers _).output
  · split
    · simp
    · split
      · simp
      · exact (Session.finish_answers _ _ _ _).output

theorem handleDelete_output (n : Nat) (s : Session σ) : (handleDelete db n s).session.output =
    s.output ++ (handleDelete db n s).sent.flatMap Response.encode := by
  unfold handleDelete
  split
  · exact (s.reply_answers _).output
  · split
    · simp
    · exact (Session.finish_answers _ _ _ _).output

/-- A handler writes its responses. -/
theorem dispatch_output (opcode : UInt8) (n : Nat) (s : Session σ) :
    (dispatch db opcode n s).session.output =
      s.output ++ (dispatch db opcode n s).sent.flatMap Response.encode := by
  unfold dispatch
  split
  · exact (handleBegin_answers s).output
  split
  · exact handleGet_output n s
  split
  · exact handlePut_output n s
  split
  · exact handleDelete_output n s
  split
  · exact (handleCommit_answers s).output
  split
  · exact (handleRollback_answers s).output
  · exact (s.reply_answers _).output

/-- **The loop of `Session.run`** is the one whose writes take what they are given. -/
theorem loopWrites_nil (n : Nat) (s : Session σ) :
    (loopWrites db n [] s).rounds.map Prod.snd = (loop db n s).1 ∧
      (loopWrites db n [] s).session = (loop db n s).2 ∧
      (loopWrites db n [] s).killed = false := by
  induction n generalizing s with
  | zero => exact ⟨rfl, rfl, rfl⟩
  | succ n ih =>
    unfold loopWrites loop
    cases hserve : serve db s with
    | none => exact ⟨rfl, rfl, rfl⟩
    | some x =>
      obtain ⟨r, turn⟩ := x
      obtain ⟨-, -, len, rest, hturn, -⟩ := serve_eq_some hserve
      have houtput : { turn.session with output := s.output ++ turn.sent.flatMap Response.encode } =
          turn.session := by
        rw [hturn, ← dispatch_output r.opcode len { s with input := rest }]
      simp only [sendAll_nil, houtput, Bool.false_eq_true, if_false]
      split
      · exact ⟨rfl, rfl, rfl⟩
      · obtain ⟨hrounds, hsession, hkilled⟩ := ih turn.session
        exact ⟨congrArg (r :: ·) hrounds, hsession, hkilled⟩

/-! ### The transaction after the response -/

/-- No transaction is open when the response of the round is written: the one there was has been
committed or rolled back, or its lock request has timed out, or there was none and the message is
not BEGIN. -/
def Round.EndsIdle (r : Round) : Prop :=
  if r.opened then r.opcode = OP_COMMIT ∨ r.opcode = OP_ROLLBACK ∨ r.sent = [.deadlock]
  else r.opcode ≠ OP_BEGIN

instance (r : Round) : Decidable r.EndsIdle := by
  unfold Round.EndsIdle
  infer_instance

theorem reply_txn (s : Session σ) (r : Response) : (s.reply r).session.txn = s.txn := rfl

theorem ofValue_ne_deadlock (v : Option Bytes) : Response.ofValue v ≠ .deadlock := by
  cases v <;> nofun

/-- The calls with a lock request leave their transaction open unless the request times out. -/
theorem finish_txn {α : Type} {s : Session σ} {t : TxnId} (htxn : s.txn = some t) (call : DbCall)
    {f : α → Response} (hf : ∀ a, f a ≠ .deadlock) (o : Outcome α × σ)
    (hsent : (s.finish db t call (Outcome.respond f o)).sent ≠ []) :
    (s.finish db t call (Outcome.respond f o)).session.txn = none ↔
      (s.finish db t call (Outcome.respond f o)).sent = [.deadlock] := by
  obtain ⟨o, d⟩ := o
  cases o with
  | returned a => simp [Outcome.respond, Session.finish, Session.reply, Session.send, htxn, hf a]
  | deadlock what => simp [Outcome.respond, Session.finish, Session.reply, Session.send]
  | threw what => simp [Outcome.respond, Session.finish, Session.reply, Session.send, htxn]
  | died => exact absurd rfl hsent

theorem handleBegin_txn {s : Session σ} (hsent : (handleBegin db s).sent ≠ []) :
    (handleBegin db s).session.txn ≠ none := by
  unfold handleBegin at hsent ⊢
  cases htxn : s.txn with
  | some t =>
    rw [reply_txn, htxn]
    nofun
  | none =>
    simp only [htxn] at hsent ⊢
    generalize db.begin s.db = x at hsent ⊢
    obtain ⟨o, d⟩ := x
    cases o with
    | returned t => nofun
    | _ => exact absurd rfl hsent

theorem handleGet_txn {n : Nat} {s : Session σ} (hsent : (handleGet db n s).sent ≠ []) :
    (handleGet db n s).session.txn = none ↔
      (s.txn.isSome = true → (handleGet db n s).sent = [.deadlock]) := by
  unfold handleGet at hsent ⊢
  cases htxn : s.txn with
  | none => simp [reply_txn, htxn]
  | some t =>
    simp only [htxn, Option.isSome_some, forall_const] at hsent ⊢
    split at hsent
    · exact absurd rfl hsent
    · exact finish_txn rfl _ ofValue_ne_deadlock _ hsent

theorem handlePut_txn {n : Nat} {s : Session σ} (hsent : (handlePut db n s).sent ≠ []) :
    (handlePut db n s).session.txn = none ↔
      (s.txn.isSome = true → (handlePut db n s).sent = [.deadlock]) := by
  unfold handlePut at hsent ⊢
  cases htxn : s.txn with
  | none => simp [reply_txn, htxn]
  | some t =>
    simp only [htxn, Option.isSome_some, forall_const] at hsent ⊢
    split at hsent
    · exact absurd rfl hsent
    · split at hsent
      · exact absurd rfl hsent
      · exact finish_txn (f := fun _ : Unit => .ok) rfl _ (fun _ => nofun) _ hsent

theorem handleDelete_txn {n : Nat} {s : Session σ} (hsent : (handleDelete db n s).sent ≠ []) :
    (handleDelete db n s).session.txn = none ↔
      (s.txn.isSome = true → (handleDelete db n s).sent = [.deadlock]) := by
  unfold handleDelete at hsent ⊢
  cases htxn : s.txn with
  | none => simp [reply_txn, htxn]
  | some t =>
    simp only [htxn, Option.isSome_some, forall_const] at hsent ⊢
    split at hsent
    · exact absurd rfl hsent
    · exact finish_txn (f := fun _ : Unit => .ok) rfl _ (fun _ => nofun) _ hsent

theorem handleCommit_txn {s : Session σ} (hsent : (handleCommit db s).sent ≠ []) :
    (handleCommit db s).session.txn = none := by
  unfold handleCommit at hsent ⊢
  cases htxn : s.txn with
  | none => rw [reply_txn, htxn]
  | some t =>
    simp only [htxn] at hsent ⊢
    generalize db.commit t s.db = x at hsent ⊢
    obtain ⟨o, d⟩ := x
    cases o with
    | died => exact absurd rfl hsent
    | _ => rfl

theorem handleRollback_txn {s : Session σ} (hsent : (handleRollback db s).sent ≠ []) :
    (handleRollback db s).session.txn = none := by
  unfold handleRollback at hsent ⊢
  cases htxn : s.txn with
  | none => rw [reply_txn, htxn]
  | some t =>
    simp only [htxn] at hsent ⊢
    generalize db.rollback t s.db = x at hsent ⊢
    obtain ⟨o, d⟩ := x
    cases o with
    | died => exact absurd rfl hsent
    | _ => rfl

/-- For a message that is neither BEGIN nor COMMIT nor ROLLBACK. -/
theorem Round.endsIdle_iff {r : Round} (h : r.opcode ∉ [OP_BEGIN, OP_COMMIT, OP_ROLLBACK]) :
    r.EndsIdle ↔ (r.opened = true → r.sent = [.deadlock]) := by
  simp only [List.mem_cons, List.not_mem_nil, or_false, not_or] at h
  unfold Round.EndsIdle
  split
  · next hopened => simp [hopened, h.2.1, h.2.2]
  · next hclosed => simp [hclosed, h.1]

/-- Whether a transaction is open when the response of a turn is written. -/
theorem dispatch_txn {r : Round} {n : Nat} {s : Session σ} (hopened : r.opened = s.txn.isSome)
    (hr : r.sent = (dispatch db r.opcode n s).sent) (hsent : r.sent ≠ []) :
    (dispatch db r.opcode n s).session.txn = none ↔ r.EndsIdle := by
  obtain ⟨opcode, opened, consumed, calls, sent⟩ := r
  dsimp only at hopened hr hsent ⊢
  subst hr hopened
  by_cases h1 : opcode = OP_BEGIN
  · subst h1
    refine iff_of_false (handleBegin_txn hsent) ?_
    cases htxn : s.txn with
    | none => simp [Round.EndsIdle]
    | some t => simp [Round.EndsIdle, dispatch, handleBegin, htxn, Session.reply, BEGIN_REFUSED,
        OP_BEGIN, OP_COMMIT, OP_ROLLBACK]
  by_cases h2 : opcode = OP_GET
  · subst h2
    rw [Round.endsIdle_iff (by simp [OP_GET, OP_BEGIN, OP_COMMIT, OP_ROLLBACK])]
    exact handleGet_txn (n := n) hsent
  by_cases h3 : opcode = OP_PUT
  · subst h3
    rw [Round.endsIdle_iff (by simp [OP_PUT, OP_BEGIN, OP_COMMIT, OP_ROLLBACK])]
    exact handlePut_txn (n := n) hsent
  by_cases h4 : opcode = OP_DELETE
  · subst h4
    rw [Round.endsIdle_iff (by simp [OP_DELETE, OP_BEGIN, OP_COMMIT, OP_ROLLBACK])]
    exact handleDelete_txn (n := n) hsent
  by_cases h5 : opcode = OP_COMMIT
  · subst h5
    refine iff_of_true (handleCommit_txn hsent) ?_
    cases s.txn <;> simp [Round.EndsIdle, OP_BEGIN, OP_COMMIT]
  by_cases h6 : opcode = OP_ROLLBACK
  · subst h6
    refine iff_of_true (handleRollback_txn hsent) ?_
    cases s.txn <;> simp [Round.EndsIdle, OP_BEGIN, OP_ROLLBACK]
  · have hunknown : dispatch db opcode n s = s.reply UNKNOWN_OPCODE := by
      simp [dispatch, h1, h2, h3, h4, h5, h6]
    rw [Round.endsIdle_iff (by simp [h1, h5, h6]), hunknown, reply_txn]
    cases s.txn <;> simp [Session.reply, UNKNOWN_OPCODE]

/-- Nothing is written where nothing is sent. -/
theorem killed_sent {ws : List WriteResult} {rs : List Response}
    (h : (sendAll ws rs).killed = true) : rs ≠ [] := by
  rintro rfl
  cases h

/-- Whether a transaction is open when a write raises SIGPIPE. -/
theorem loopWrites_killed {n : Nat} {ws : List WriteResult} {s : Session σ}
    (h : (loopWrites db n ws s).killed = true) :
    ∃ y, (loopWrites db n ws s).rounds.getLast? = some y ∧
      ((loopWrites db n ws s).session.txn = none ↔ y.2.EndsIdle) := by
  induction n generalizing ws s with
  | zero => cases h
  | succ n ih =>
    unfold loopWrites at h ⊢
    cases hserve : serve db s with
    | none =>
      rw [hserve] at h
      cases h
    | some x =>
      obtain ⟨r, turn⟩ := x
      obtain ⟨hopened, hsent, len, rest, rfl, -⟩ := serve_eq_some hserve
      simp only [hserve] at h ⊢
      split
      · next hkilled =>
        refine ⟨_, rfl, dispatch_txn (s := { s with input := rest }) hopened hsent ?_⟩
        rw [hsent]
        exact killed_sent hkilled
      · next halive =>
        rw [if_neg halive] at h
        split at h
        · cases h
        · next hgoes =>
          rw [if_neg hgoes]
          obtain ⟨y, hlast, hy⟩ := ih h
          refine ⟨y, ?_, hy⟩
          rw [List.getLast?_cons, hlast]
          rfl

end Loop

/-! ## What is left of the transactions -/

section Lifecycle

variable {m₀ : KV} {past : List (Option TxnId × UInt8)} {s : Session World}

/-- **The loop.** Unless a write raises SIGPIPE, no transaction of the session is open at its end. -/
theorem loopWrites_inv {n : Nat} (ws : List WriteResult) (h : s.Inv m₀ past)
    (hn : s.input.length < n) :
    (loopWrites sessionDb n ws s).session.Inv m₀
        (past ++ (loopWrites sessionDb n ws s).messages) ∧
      ((loopWrites sessionDb n ws s).killed = false →
        (loopWrites sessionDb n ws s).session.txn = none) := by
  induction n generalizing s past ws with
  | zero => exact absurd hn (Nat.not_lt_zero _)
  | succ n ih =>
    unfold loopWrites
    cases hserve : serve sessionDb s with
    | none =>
      have hclosed : (disconnect sessionDb s).txn = none := by
        unfold disconnect
        cases s.txn <;> rfl
      refine ⟨?_, fun _ => hclosed⟩
      rw [Served.messages, List.map_nil, List.append_nil, Session.Inv, hclosed]
      exact disconnect_inv h
    | some x =>
      obtain ⟨r, turn⟩ := x
      obtain ⟨-, -, len, rest, rfl, hrest⟩ := serve_eq_some hserve
      dsimp only
      have hpast : s.Inv m₀ (past ++ [(s.txn, r.opcode)]) :=
        World.Inv.mono h fun x hx => List.mem_append_left _ hx
      obtain ⟨hinv, hended⟩ := dispatch_inv (s := { s with input := rest }) r.opcode len hpast
        (List.mem_append_right _ List.mem_cons_self)
      have hlen := dispatch_le sessionDb r.opcode len { s with input := rest }
      generalize dispatch sessionDb r.opcode len { s with input := rest } = turn at *
      generalize sendAll ws turn.sent = x
      split
      · exact ⟨hinv, fun e => by cases e⟩
      · split
        · next hend => exact ⟨hinv, fun _ => hended hend⟩
        · -- the invariant does not see what was written
          have hrun := @ih (past ++ [(s.txn, r.opcode)]) { turn.session with
            output := s.output ++ x.bytes } x.results hinv (hlen.trans_lt (by dsimp only; omega))
          rw [List.append_assoc] at hrun
          exact hrun

/-- What is left of the transactions of a session that got the messages `msgs`, when its thread has
returned from `run` or the process has ended. -/
structure Lifecycle (m₀ : KV) (msgs : List (Option TxnId × UInt8)) (returned : Bool) (w : World) :
    Prop where
  /-- At any time at most one transaction of the session was open. -/
  one : ∀ x ∈ w.seen, ∀ t ∈ x.1, ∀ u ∈ x.1, x.2.Open t → x.2.Open u → t = u
  /-- Each has one end record. -/
  record : ∀ t ∈ w.mine, (endTypes w.ts.log t).length = 1
  /-- A COMMIT record stands for a COMMIT message that came while the transaction was open. -/
  commit : ∀ t ∈ w.mine, .COMMIT ∈ endTypes w.ts.log t → (some t, OP_COMMIT) ∈ msgs
  locks : returned = true → ∀ t ∈ w.mine, ∀ k, ¬ w.ts.sys.locks.Holds t k
  /-- The tree is what the committed transactions of all sessions leave, but for the keys that
  transactions of other sessions have written that can still make calls. -/
  undone : returned = true → ∀ k, (∀ u tx, u ∉ w.mine → w.ts.sys.txns u = some tx →
      tx.stage.Live → k ∉ tx.writeSet) →
    w.ts.sys.tree.get k =
      (serial m₀ ((commitOrder w.ts.events).map (opsOf w.ts.events))).1.get k
  /-- Under those the tree has what that transaction makes of it. -/
  others : returned = true → ∀ k u tx, u ∉ w.mine → w.ts.sys.txns u = some tx → tx.stage.Live →
    k ∈ tx.writeSet →
    w.ts.sys.tree.get k = (replay (serial m₀ ((commitOrder w.ts.events).map (opsOf w.ts.events))).1
      (opsOf w.ts.events u)).1.get k

theorem Stage.Ended.not_live {st : Stage} (h : st.Ended) : ¬ st.Live := by
  cases st <;> first | exact id | exact h.elim

/-- Where none is open, they have all ended as they should. -/
theorem World.Inv.lifecycle {w : World} (h : w.Inv m₀ past none) (returned : Bool) :
    Lifecycle m₀ past returned w := by
  obtain ⟨view, hserial⟩ := h.reach.serial
  have hview : (serial m₀ ((commitOrder w.ts.events).map (opsOf w.ts.events))).1 = view := by
    rw [hserial.serial_eq]
  refine ⟨h.one, ?_, ?_, fun _ => ?_, fun _ => ?_, fun _ => ?_⟩
  · intro t ht
    obtain ⟨tx, htx, hended⟩ := h.ended t ht nofun
    rw [h.reach.endsLogged t, Sys.fate, htx]
    have hne := hserial.iso.not_failed htx
    cases hst : tx.stage with
    | committed => simp [hst, Stage.fate, Fate.endTypes]
    | rolledBack => simp [hst, Stage.fate, Fate.endTypes]
    | failed => exact absurd hst hne
    | _ =>
      rw [hst] at hended
      exact hended.elim
  · intro t ht hmem
    refine h.commits t ht ?_
    rw [h.reach.endsLogged t] at hmem
    cases hfate : w.ts.sys.fate t with
    | none =>
      rw [hfate] at hmem
      cases hmem
    | some f =>
      rw [hfate] at hmem
      cases f with
      | committed => rfl
      | loser => cases hmem
      | aborted => exact absurd hmem (by decide)
  · intro t ht k
    obtain ⟨tx, htx, hended⟩ := h.ended t ht nofun
    exact h.reach.lockless htx hended k
  · intro k hk
    rw [hview]
    refine hserial.iso.clean k ?_
    intro u tx hu hlive
    refine hk u tx ?_ hu hlive
    intro hmine
    obtain ⟨tx', htx', hended⟩ := h.ended u hmine nofun
    rw [hu] at htx'
    cases htx'
    exact hended.not_live hlive
  · intro k u tx _ hu hlive hk
    rw [hview]
    exact (hserial.iso.own hu hlive k hk).symm

/-- An open transaction has no end record. -/
theorem World.Inv.endTypes_eq {w : World} {t : TxnId} (h : w.Inv m₀ past (some (t, .idle))) :
    t ∈ w.mine ∧ endTypes w.ts.log t = [] := by
  obtain ⟨hmine, ws, hat⟩ := h.current t .idle rfl
  refine ⟨hmine, ?_⟩
  rw [h.reach.endsLogged t, hat.fate]
  rfl

/-- **The transactions of a session**, on any byte stream, in any interleaving with other threads,
with any outcome of its lock requests and any results of its writes: they end as they should if and
only if no write raises SIGPIPE while one is open. -/
theorem session_lifecycle_iff (as : List Action) (ts : Traced)
    (h : run tstep (.opened m₀) as = some ts) (plan : Nat → Choice) (ws : List WriteResult)
    (input : Bytes) :
    let x := Session.runWrites sessionDb ws { input, db := { ts, plan } }
    Lifecycle m₀ x.messages (!x.killed) x.session.db ↔
      (x.killed = true → ∀ y, x.rounds.getLast? = some y → y.2.EndsIdle) := by
  intro x
  have hstart : Session.Inv m₀ [] { input, db := { ts, plan } } := by
    constructor
    case reach => exact ⟨as, h⟩
    case current => intro t st hcur; cases hcur
    case ended => intro t ht; cases ht
    case one => intro x hx; cases hx
    case commits => intro t ht; cases ht
  obtain ⟨hinv, hreturned⟩ := loopWrites_inv ws hstart (Nat.lt_succ_self _)
  rw [List.nil_append] at hinv
  change x.session.Inv m₀ x.messages at hinv
  change x.killed = false → x.session.txn = none at hreturned
  have hclosed : x.session.txn = none → Lifecycle m₀ x.messages (!x.killed) x.session.db := by
    intro htxn
    rw [Session.Inv, htxn] at hinv
    exact World.Inv.lifecycle hinv _
  cases hkilled : x.killed with
  | false =>
    rw [hkilled] at hclosed
    exact iff_of_true (hclosed (hreturned hkilled)) fun e => by cases e
  | true =>
    rw [hkilled] at hclosed
    obtain ⟨y, hlast, hidle⟩ := loopWrites_killed hkilled
    change x.session.txn = none ↔ _ at hidle
    constructor
    · intro hlife _ y' hlast'
      cases hlast.symm.trans hlast'
      refine hidle.mp ?_
      cases htxn : x.session.txn with
      | none => rfl
      | some t =>
        rw [Session.Inv, htxn] at hinv
        obtain ⟨hmine, hnone⟩ := World.Inv.endTypes_eq hinv
        have hone := hlife.record t hmine
        rw [hnone] at hone
        cases hone
    · intro hall
      exact hclosed (hidle.mpr (hall rfl y hlast))

/-- A transaction that writes the key `a` and commits, and a second one that writes `b`; then the
client is gone in the middle of a header. -/
def cutStream : Bytes :=
  [Message.begin, .put ⟨[97], by decide⟩ ⟨[1], by decide⟩, .commit, .begin,
    .put ⟨[98], by decide⟩ ⟨[2], by decide⟩].flatMap Message.encode ++ [OP_COMMIT, 0, 0]

/-- Another client writes `c` between the two calls. -/
def otherWriter : Nat → Choice
  | 0 => { others := [.begin, .lock 1 (.put [99] [3])] }
  | 2 => { others := [.body 1] }
  | _ => { order := [[98]] }

/-- What is left of the run: the transactions of the session with their end records, and the values
of the three keys. -/
def cutSummary (w : World) : List (TxnId × List WalRecordType) × List (Option Bytes) :=
  (w.mine.map fun t => (t, endTypes w.ts.log t), [[97], [98], [99]].map w.ts.sys.tree.get)

/-- The first transaction commits, the second is rolled back: writes are short or fail, but none
raises the signal. -/
theorem session_lifecycle_iff_cutStream :
    let ws : List WriteResult := [.took 1, .took 3, .took 9, .failed, .took 0]
    let x := Session.runWrites sessionDb ws
      { input := cutStream, db := { ts := .opened .empty, plan := otherWriter } }
    x.killed = false ∧ Lifecycle .empty x.messages (!x.killed) x.session.db ∧
      cutSummary x.session.db = ([(2, [.COMMIT]), (3, [.ABORT])], [some [1], none, some [3]]) := by
  intro ws x
  have halive : x.killed = false := by decide +kernel
  refine ⟨halive, (session_lifecycle_iff [] _ rfl otherWriter ws cutStream).mpr ?_, by decide +kernel⟩
  intro hkilled
  cases halive.symm.trans hkilled

/-- A client sends BEGIN and closes the connection: the second write of the response raises SIGPIPE,
and the transaction has no end record. -/
theorem not_lifecycle_sigpipe :
    let s : Session World :=
      { input := Message.begin.encode, db := { ts := .opened .empty, plan := fun _ => {} } }
    let x := Session.runWrites sessionDb [.took 1, .sigpipe] s
    x.killed = true ∧ ¬ Lifecycle .empty x.messages (!x.killed) x.session.db := by
  intro s x
  refine ⟨by decide +kernel, fun hlife => ?_⟩
  have hone := hlife.record 1 (by decide +kernel)
  exact absurd hone (by decide +kernel)

end Lifecycle

end KeyVDB
