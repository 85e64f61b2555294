import KeyVDB.BTree.Map
import KeyVDB.Server.Protocol
import KeyVDB.Wal.LogManager

/-!
# Client sessions

`server/client_handler.{h,cpp}`: the request loop of one connection. The database is a parameter:
what a call returns or throws depends on a state that the other connections change as well. The
connection is the stream of bytes not read yet and the bytes written so far; writes to the
socket do not fail here (`Server.Writes` has the loop with the results of its writes).

No handler looks at `payload_len`. `GET`, `PUT` and `DELETE` read their strings only after the
check that a transaction is open, and nobody reads the payload of an unknown opcode, so a stream of
well-formed messages keeps its framing exactly when it is `InStep` (`framed_iff`).
-/

namespace KeyVDB

/-! ## The database -/

/-- How a call on the database ends. -/
inductive Outcome (α : Type)
  | returned (a : α)
  /-- `DeadlockException` -/
  | deadlock (what : String)
  /-- Any other `std::exception`. -/
  | threw (what : String)
  /-- The process ends inside the call. -/
  | died
  deriving DecidableEq

/-- `DB` and `Transaction`, as the handler calls them. `destroy` is the destructor. -/
structure Database (σ : Type) where
  begin : σ → Outcome TxnId × σ
  get : TxnId → Bytes → σ → Outcome (Option Bytes) × σ
  put : TxnId → Bytes → Bytes → σ → Outcome Unit × σ
  delete : TxnId → Bytes → σ → Outcome Unit × σ
  commit : TxnId → σ → Outcome Unit × σ
  rollback : TxnId → σ → Outcome Unit × σ
  destroy : TxnId → σ → σ

/-- A call that a handler makes for its client. -/
inductive DbCall
  | begin
  | get (key : Bytes)
  | put (key value : Bytes)
  | delete (key : Bytes)
  | commit
  | rollback
  deriving DecidableEq, Repr

/-! ## The handlers -/

/-- A `ClientHandler` and its connection. -/
structure Session (σ : Type) where
  input : Bytes                -- what the client sent and nobody read yet
  output : Bytes := []         -- what was written to the connection
  txn : Option TxnId := none   -- `txn_`
  db : σ

/-- What the handling of one message did. -/
structure Turn (σ : Type) where
  session : Session σ
  calls : List DbCall := []
  sent : List Response := []
  ended : Bool := false        -- an exception left `run`, or the process ended

section Handlers

variable {σ : Type} (db : Database σ)

/-- `read_exact`. A read that meets the end of the stream has taken what was there. -/
def readExact (n : Nat) (input : Bytes) : Option Bytes × Bytes :=
  if n ≤ input.length then (some (input.take n), input.drop n) else (none, [])

/-- `read_string`. -/
def readString (input : Bytes) : Option Bytes × Bytes :=
  match readExact 2 input with
  | (none, rest) => (none, rest)
  | (some len, rest) => readExact (beNat len) rest

namespace Session

/-- One of the `send_*` helpers. -/
def send (s : Session σ) (r : Response) : Session σ := { s with output := s.output ++ r.encode }

/-- The turn that only sends `r`. -/
def reply (s : Session σ) (r : Response) : Turn σ := { session := s.send r, sent := [r] }

/-- The `try` block that `handle_get`, `handle_put` and `handle_delete` share: a deadlock drops the
transaction, whose destructor rolls it back. -/
def finish (s : Session σ) (t : TxnId) (call : DbCall) : Outcome Response × σ → Turn σ
  | (.returned r, d) => { ({ s with db := d }).reply r with calls := [call] }
  | (.deadlock _, d) =>
    { ({ s with txn := none, db := db.destroy t d }).reply .deadlock with calls := [call] }
  | (.threw what, d) => { ({ s with db := d }).reply (.error what) with calls := [call] }
  | (.died, d) => { session := { s with db := d }, calls := [call], ended := true }

end Session

/-- The outcome of a call with its response in place of its result. -/
def Outcome.respond {α : Type} (f : α → Response) : Outcome α × σ → Outcome Response × σ
  | (.returned a, d) => (.returned (f a), d)
  | (.deadlock what, d) => (.deadlock what, d)
  | (.threw what, d) => (.threw what, d)
  | (.died, d) => (.died, d)

/-- `send_ok_value` or `send_not_found`. -/
def Response.ofValue : Option Bytes → Response
  | some v => .okValue v
  | none => .notFound

def BEGIN_REFUSED : Response := .error "transaction already open — COMMIT or ROLLBACK first"

def GET_REFUSED : Response := .error "no open transaction — send BEGIN first"

def REFUSED : Response := .error "no open transaction"

def UNKNOWN_OPCODE : Response := .error "unknown opcode"

/-- `handle_begin`. Nothing catches what `Begin` throws: it leaves the thread. -/
def handleBegin (s : Session σ) : Turn σ :=
  match s.txn with
  | some _ => s.reply BEGIN_REFUSED
  | none =>
    match db.begin s.db with
    | (.returned t, d) => { ({ s with txn := some t, db := d }).reply .ok with calls := [.begin] }
    | (_, d) => { session := { s with db := d }, calls := [.begin], ended := true }

/-- `handle_get`. -/
def handleGet (_payloadLen : Nat) (s : Session σ) : Turn σ :=
  match s.txn with
  | none => s.reply GET_REFUSED
  | some t =>
    match readString s.input with
    | (none, rest) => { session := { s with input := rest } }
    | (some key, rest) =>
      Session.finish db { s with input := rest } t (.get key)
        (Outcome.respond .ofValue (db.get t key s.db))

/-- `handle_put`. -/
def handlePut (_payloadLen : Nat) (s : Session σ) : Turn σ :=
  match s.txn with
  | none => s.reply REFUSED
  | some t =>
    match readString s.input with
    | (none, rest) => { session := { s with input := rest } }
    | (some key, rest) =>
      match readString rest with
      | (none, rest) => { session := { s with input := rest } }
      | (some value, rest) =>
        Session.finish db { s with input := rest } t (.put key value)
          (Outcome.respond (fun _ => .ok) (db.put t key value s.db))

/-- `handle_delete`. -/
def handleDelete (_payloadLen : Nat) (s : Session σ) : Turn σ :=
  match s.txn with
  | none => s.reply REFUSED
  | some t =>
    match readString s.input with
    | (none, rest) => { session := { s with input := rest } }
    | (some key, rest) =>
      Session.finish db { s with input := rest } t (.delete key)
        (Outcome.respond (fun _ => .ok) (db.delete t key s.db))

/-- `handle_commit`. The transaction is destroyed whether or not `Commit` throws. -/
def handleCommit (s : Session σ) : Turn σ :=
  match s.txn with
  | none => s.reply REFUSED
  | some t =>
    match db.commit t s.db with
    | (.returned _, d) =>
      { ({ s with txn := none, db := db.destroy t d }).reply .ok with calls := [.commit] }
    | (.deadlock what, d) | (.threw what, d) =>
      { ({ s with txn := none, db := db.destroy t d }).reply (.error what) with calls := [.commit] }
    | (.died, d) => { session := { s with db := d }, calls := [.commit], ended := true }

/-- `handle_rollback`. -/
def handleRollback (s : Session σ) : Turn σ :=
  match s.txn with
  | none => s.reply REFUSED
  | some t =>
    match db.rollback t s.db with
    | (.died, d) => { session := { s with db := d }, calls := [.rollback], ended := true }
    | (_, d) =>
      { ({ s with txn := none, db := db.destroy t d }).reply .ok with calls := [.rollback] }

/-- The `switch` of `run`. -/
def dispatch (opcode : UInt8) (payloadLen : Nat) (s : Session σ) : Turn σ :=
  if opcode = OP_BEGIN then handleBegin db s
  else if opcode = OP_GET then handleGet db payloadLen s
  else if opcode = OP_PUT then handlePut db payloadLen s
  else if opcode = OP_DELETE then handleDelete db payloadLen s
  else if opcode = OP_COMMIT then handleCommit db s
  else if opcode = OP_ROLLBACK then handleRollback db s
  else s.reply UNKNOWN_OPCODE

/-! ## The request loop -/

/-- What one turn of the loop did with the stream, with the client and with the database. -/
structure Round where
  opcode : UInt8
  opened : Bool     -- a transaction was open at its start
  consumed : Nat    -- the bytes it took from the stream
  calls : List DbCall
  sent : List Response
  deriving DecidableEq, Repr

/-- One turn of the loop of `run`; `none` where the header cannot be read. -/
def serve (s : Session σ) : Option (Round × Turn σ) :=
  match readExact 1 s.input with
  | (none, _) => none
  | (some opcode, rest) =>
    match readExact 4 rest with
    | (none, _) => none
    | (some len, rest) =>
      let t := dispatch db (opcode.headD 0) (beNat len) { s with input := rest }
      some ({ opcode := opcode.headD 0
              opened := s.txn.isSome
              consumed := s.input.length - t.session.input.length
              calls := t.calls
              sent := t.sent }, t)

/-- What `run` does once the client is gone: an open transaction is rolled back. -/
def disconnect (s : Session σ) : Session σ :=
  match s.txn with
  | none => { s with input := [] }
  | some t => { s with input := [], txn := none, db := db.destroy t (db.rollback t s.db).2 }

/-- The loop, for at most the given number of turns. -/
def loop : Nat → Session σ → List Round × Session σ
  | 0, s => ([], s)
  | n + 1, s =>
    match serve db s with
    | none => ([], disconnect db s)
    | some (r, t) =>
      if t.ended then ([r], t.session)
      else (r :: (loop n t.session).1, (loop n t.session).2)

/-- `ClientHandler::run`. A turn takes at least the five bytes of a header, so there are
fewer turns than bytes. -/
def Session.run (s : Session σ) : List Round × Session σ := loop db (s.input.length + 1) s

end Handlers

/-! ## What the protocol asks for -/

namespace Message

/-- The calls that the message stands for: `BEGIN` needs a session without a transaction, the
others need one. -/
def calls : Message → Bool → List DbCall
  | begin, false => [.begin]
  | get k, true => [.get k.val]
  | put k v, true => [.put k.val v.val]
  | delete k, true => [.delete k.val]
  | commit, true => [.commit]
  | rollback, true => [.rollback]
  | _, _ => []

/-- What a handler does that has the message before it and no stream to read. -/
def turn {σ : Type} (db : Database σ) (s : Session σ) : Message → Turn σ
  | begin => handleBegin db s
  | get k =>
    match s.txn with
    | none => s.reply GET_REFUSED
    | some t => s.finish db t (.get k.val) (Outcome.respond .ofValue (db.get t k.val s.db))
  | put k v =>
    match s.txn with
    | none => s.reply REFUSED
    | some t =>
      s.finish db t (.put k.val v.val) (Outcome.respond (fun _ => .ok) (db.put t k.val v.val s.db))
  | delete k =>
    match s.txn with
    | none => s.reply REFUSED
    | some t =>
      s.finish db t (.delete k.val) (Outcome.respond (fun _ => .ok) (db.delete t k.val s.db))
  | commit => handleCommit db s
  | rollback => handleRollback db s
  | unknown _ _ => s.reply UNKNOWN_OPCODE

/-- The handler reads the payload: the transaction it checks for is open, or there is no payload. -/
def Read (txn : Option TxnId) : Message → Prop
  | get _ => txn.isSome
  | put _ _ => txn.isSome
  | delete _ => txn.isSome
  | unknown _ p => p.val = []
  | _ => True

instance (txn : Option TxnId) (m : Message) : Decidable (m.Read txn) :=
  match m with
  | begin => instDecidableTrue
  | get _ => inferInstanceAs (Decidable (txn.isSome = true))
  | put _ _ => inferInstanceAs (Decidable (txn.isSome = true))
  | delete _ => inferInstanceAs (Decidable (txn.isSome = true))
  | commit => instDecidableTrue
  | rollback => instDecidableTrue
  | unknown _ p => inferInstanceAs (Decidable (p.val = []))

/-- The round is the one that the message asks for. -/
structure Matches (m : Message) (r : Round) : Prop where
  opcode : r.opcode = m.opcode
  consumed : r.consumed = 5 + m.payload.length
  calls : r.calls = m.calls r.opened
  sent : r.sent.length = 1

end Message

section Framing

variable {σ : Type} (db : Database σ)

/-- The bytes that the rounds sent. -/
def sentBytes (rounds : List Round) : Bytes :=
  rounds.flatMap fun r => r.sent.flatMap Response.encode

/-- The session takes the stream apart as the client put it together: one round for each message,
and on the wire one response for each round, in order. -/
structure Framed (s : Session σ) (msgs : List Message) : Prop where
  rounds : List.Forall₂ Message.Matches msgs
    (Session.run db { s with input := msgs.flatMap Message.encode }).1
  output : (Session.run db { s with input := msgs.flatMap Message.encode }).2.output =
    s.output ++ sentBytes (Session.run db { s with input := msgs.flatMap Message.encode }).1

/-- Every message arrives in a state in which its handler reads its payload, and the database
call it makes does not end the process. -/
def InStep : Session σ → List Message → Prop
  | _, [] => True
  | s, m :: ms => m.Read s.txn ∧ (m.turn db s).ended = false ∧ InStep (m.turn db s).session ms

/-! ## Reading -/

variable {db}

theorem readExact_append {n : Nat} {a : Bytes} (h : a.length = n) (b : Bytes) :
    readExact n (a ++ b) = (some a, b) := by
  subst h
  simp [readExact]

theorem readString_encodeString (k : WireString) (rest : Bytes) :
    readString (encodeString k.val ++ rest) = (some k.val, rest) := by
  have hlen : beNat (beBytes 2 k.val.length) = k.val.length :=
    beNat_beBytes_of_lt (by simpa using k.property)
  rw [encodeString, List.append_assoc, readString, readExact_append (length_beBytes 2 _)]
  simp only [hlen]
  exact readExact_append rfl rest

/-- A header is read as it was built. -/
theorem serve_buildMessage (s : Session σ) (opcode : UInt8) {payload : Bytes}
    (h : payload.length < 256 ^ 4) (rest : Bytes) {t : Turn σ}
    (ht : t = dispatch db opcode payload.length { s with input := payload ++ rest }) :
    serve db { s with input := buildMessage opcode payload ++ rest } =
      some ({ opcode := opcode
              opened := s.txn.isSome
              consumed := 5 + (payload ++ rest).length - t.session.input.length
              calls := t.calls
              sent := t.sent }, t) := by
  have h1 : buildMessage opcode payload ++ rest =
      [opcode] ++ (beBytes 4 payload.length ++ (payload ++ rest)) := by
    simp [buildMessage]
  have hlen : (buildMessage opcode payload ++ rest).length = 5 + (payload ++ rest).length := by
    simp [buildMessage]
    omega
  subst ht
  simp only [serve, hlen]
  rw [h1, readExact_append (n := 1) rfl]
  simp only [readExact_append (length_beBytes 4 _), beNat_beBytes_of_lt h, List.headD_cons]

/-! ## One message -/

/-- The turn leaves the stream alone, makes the given calls and sends one response unless it is the
last. -/
structure Turn.Answers (s : Session σ) (calls : List DbCall) (t : Turn σ) : Prop where
  input : t.session.input = s.input
  output : t.session.output = s.output ++ t.sent.flatMap Response.encode
  calls : t.calls = calls
  sent : t.sent.length = if t.ended then 0 else 1

theorem Session.reply_answers (s : Session σ) (r : Response) : (s.reply r).Answers s [] := by
  constructor <;> simp [reply, send]

theorem Session.finish_answers (s : Session σ) (t : TxnId) (call : DbCall)
    (o : Outcome Response × σ) : (s.finish db t call o).Answers s [call] := by
  obtain ⟨o, d⟩ := o
  cases o <;> constructor <;> simp [finish, reply, send]

theorem handleBegin_answers (s : Session σ) :
    (handleBegin db s).Answers s (Message.calls .begin s.txn.isSome) := by
  unfold handleBegin
  cases htxn : s.txn with
  | some t => exact s.reply_answers _
  | none =>
    obtain ⟨o, d⟩ := db.begin s.db
    cases o <;> constructor <;> simp [Session.reply, Session.send, Message.calls]

theorem handleCommit_answers (s : Session σ) :
    (handleCommit db s).Answers s (Message.calls .commit s.txn.isSome) := by
  unfold handleCommit
  cases htxn : s.txn with
  | none => exact s.reply_answers _
  | some t =>
    simp only
    obtain ⟨o, d⟩ := db.commit t s.db
    cases o <;> constructor <;> simp [Session.reply, Session.send, Message.calls]

theorem handleRollback_answers (s : Session σ) :
    (handleRollback db s).Answers s (Message.calls .rollback s.txn.isSome) := by
  unfold handleRollback
  cases htxn : s.txn with
  | none => exact s.reply_answers _
  | some t =>
    simp only
    obtain ⟨o, d⟩ := db.rollback t s.db
    cases o <;> constructor <;> simp [Session.reply, Session.send, Message.calls]

namespace Message

theorem turn_answers (db : Database σ) (m : Message) (s : Session σ) :
    (m.turn db s).Answers s (m.calls s.txn.isSome) := by
  cases m with
  | begin => exact handleBegin_answers s
  | commit => exact handleCommit_answers s
  | rollback => exact handleRollback_answers s
  | unknown o p => exact s.reply_answers _
  | get k =>
    unfold turn
    cases htxn : s.txn with
    | none => exact s.reply_answers _
    | some t => exact s.finish_answers t _ _
  | put k v =>
    unfold turn
    cases htxn : s.txn with
    | none => exact s.reply_answers _
    | some t => exact s.finish_answers t _ _
  | delete k =>
    unfold turn
    cases htxn : s.txn with
    | none => exact s.reply_answers _
    | some t => exact s.finish_answers t _ _

/-- What follows in the stream has no part in the turn. -/
theorem turn_input (m : Message) (s : Session σ) (rest : Bytes) :
    m.turn db { s with input := rest } =
      { m.turn db s with session := { (m.turn db s).session with input := rest } } := by
  obtain ⟨input, output, txn, d₀⟩ := s
  cases m with
  | unknown o p => rfl
  | begin =>
    unfold turn handleBegin
    cases txn with
    | some t => rfl
    | none =>
      simp only
      obtain ⟨o, d⟩ := db.begin d₀
      cases o <;> rfl
  | get k =>
    unfold turn
    cases txn with
    | none => rfl
    | some t =>
      simp only
      obtain ⟨o, d⟩ := Outcome.respond .ofValue (db.get t k.val d₀)
      cases o <;> rfl
  | put k v =>
    unfold turn
    cases txn with
    | none => rfl
    | some t =>
      simp only
      obtain ⟨o, d⟩ := Outcome.respond (fun _ => .ok) (db.put t k.val v.val d₀)
      cases o <;> rfl
  | delete k =>
    unfold turn
    cases txn with
    | none => rfl
    | some t =>
      simp only
      obtain ⟨o, d⟩ := Outcome.respond (fun _ => .ok) (db.delete t k.val d₀)
      cases o <;> rfl
  | commit =>
    unfold turn handleCommit
    cases txn with
    | none => rfl
    | some t =>
      simp only
      obtain ⟨o, d⟩ := db.commit t d₀
      cases o <;> rfl
  | rollback =>
    unfold turn handleRollback
    cases txn with
    | none => rfl
    | some t =>
      simp only
      obtain ⟨o, d⟩ := db.rollback t d₀
      cases o <;> rfl

/-- A handler that reads the payload does what the message asks for. -/
theorem dispatch_of_read (db : Database σ) {m : Message} {s : Session σ} (h : m.Read s.txn)
    (n : Nat) (rest : Bytes) :
    dispatch db m.opcode n { s with input := m.payload ++ rest } =
      m.turn db { s with input := rest } := by
  cases m with
  | begin => rfl
  | commit => rfl
  | rollback => rfl
  | get k =>
    obtain ⟨t, ht⟩ := Option.isSome_iff_exists.mp h
    change handleGet db n _ = _
    simp only [handleGet, turn, ht, payload, readString_encodeString]
  | put k v =>
    obtain ⟨t, ht⟩ := Option.isSome_iff_exists.mp h
    change handlePut db n _ = _
    simp only [handlePut, turn, ht, payload, List.append_assoc, readString_encodeString]
  | delete k =>
    obtain ⟨t, ht⟩ := Option.isSome_iff_exists.mp h
    change handleDelete db n _ = _
    simp only [handleDelete, turn, ht, payload, readString_encodeString]
  | unknown o p =>
    have hp : p.val = [] := h
    have ho := o.property
    simp only [opcodes, List.mem_cons, List.not_mem_nil, or_false, not_or] at ho
    simp [dispatch, turn, opcode, payload, ho, hp]

/-- A handler that does not read the payload leaves it, and there is one. -/
theorem dispatch_of_not_read (db : Database σ) {m : Message} {s : Session σ}
    (h : ¬ m.Read s.txn) (n : Nat) :
    (dispatch db m.opcode n s).session.input = s.input ∧ 0 < m.payload.length := by
  cases m with
  | begin => exact absurd trivial h
  | commit => exact absurd trivial h
  | rollback => exact absurd trivial h
  | get k =>
    have ht : s.txn = none := by simpa [Read] using h
    change (handleGet db n s).session.input = _ ∧ _
    simp only [handleGet, ht, payload, length_encodeString]
    exact ⟨rfl, by omega⟩
  | put k v =>
    have ht : s.txn = none := by simpa [Read] using h
    change (handlePut db n s).session.input = _ ∧ _
    simp only [handlePut, ht, payload, List.length_append, length_encodeString]
    exact ⟨rfl, by omega⟩
  | delete k =>
    have ht : s.txn = none := by simpa [Read] using h
    change (handleDelete db n s).session.input = _ ∧ _
    simp only [handleDelete, ht, payload, length_encodeString]
    exact ⟨rfl, by omega⟩
  | unknown o p =>
    have ho := o.property
    simp only [opcodes, List.mem_cons, List.not_mem_nil, or_false, not_or] at ho
    refine ⟨?_, List.length_pos_iff.mpr h⟩
    simp [dispatch, opcode, ho, Session.reply, Session.send]

end Message

/-! ## The stream -/

/-- The round that serves the first message of a stream, where its payload is read. -/
theorem serve_of_read {m : Message} {s : Session σ} (h : m.Read s.txn) (rest : Bytes) :
    serve db { s with input := m.encode ++ rest } =
      some ({ opcode := m.opcode
              opened := s.txn.isSome
              consumed := 5 + m.payload.length
              calls := m.calls s.txn.isSome
              sent := (m.turn db s).sent },
        { m.turn db s with session := { (m.turn db s).session with input := rest } }) := by
  have ht := (Message.dispatch_of_read db h m.payload.length rest).symm
  rw [Message.turn_input] at ht
  rw [Message.encode, serve_buildMessage s m.opcode m.length_payload_lt rest ht]
  have hconsumed : 5 + (m.payload ++ rest).length - rest.length = 5 + m.payload.length := by
    rw [List.length_append]
    omega
  simp only [hconsumed, (m.turn_answers db s).calls]

/-- Where it is not read, the round takes the header alone. -/
theorem serve_of_not_read (db : Database σ) {m : Message} {s : Session σ}
    (h : ¬ m.Read s.txn) (rest : Bytes) :
    ∃ r t, serve db { s with input := m.encode ++ rest } = some (r, t) ∧
      r.consumed ≠ 5 + m.payload.length := by
  refine ⟨_, _, serve_buildMessage s m.opcode m.length_payload_lt rest rfl, ?_⟩
  obtain ⟨hin, hpos⟩ := Message.dispatch_of_not_read db
    (s := { s with input := m.payload ++ rest }) h m.payload.length
  simp only [hin]
  omega

theorem sentBytes_cons (r : Round) (rs : List Round) :
    sentBytes (r :: rs) = r.sent.flatMap Response.encode ++ sentBytes rs := by
  simp [sentBytes]

/-- A stream in step is taken apart message by message. -/
theorem loop_of_inStep {s : Session σ} {msgs : List Message} (h : InStep db s msgs) {n : Nat}
    (hn : msgs.length < n) :
    List.Forall₂ Message.Matches msgs
        (loop db n { s with input := msgs.flatMap Message.encode }).1 ∧
      (loop db n { s with input := msgs.flatMap Message.encode }).2.output =
        s.output ++ sentBytes (loop db n { s with input := msgs.flatMap Message.encode }).1 := by
  induction msgs generalizing s n with
  | nil =>
    obtain ⟨n, rfl⟩ := Nat.exists_eq_succ_of_ne_zero (Nat.ne_zero_of_lt hn)
    cases htxn : s.txn <;> simp [loop, serve, readExact, disconnect, sentBytes]
  | cons m ms ih =>
    obtain ⟨n, rfl⟩ := Nat.exists_eq_succ_of_ne_zero (Nat.ne_zero_of_lt hn)
    obtain ⟨hread, hended, hms⟩ := h
    obtain ⟨hrounds, hout⟩ := ih hms (n := n) (by simpa using hn)
    have hans := m.turn_answers db s
    rw [List.flatMap_cons, loop, serve_of_read hread]
    simp only [hended, Bool.false_eq_true, if_false]
    refine ⟨.cons ⟨rfl, rfl, rfl, ?_⟩ hrounds, ?_⟩
    · simpa [hended] using hans.sent
    · rw [hout, hans.output, sentBytes_cons, List.append_assoc]

/-- A stream that is taken apart message by message was in step. -/
theorem inStep_of_loop {s : Session σ} {msgs : List Message} {n : Nat} (hn : msgs.length < n)
    (h : List.Forall₂ Message.Matches msgs
      (loop db n { s with input := msgs.flatMap Message.encode }).1) : InStep db s msgs := by
  induction msgs generalizing s n with
  | nil => trivial
  | cons m ms ih =>
    obtain ⟨n, rfl⟩ := Nat.exists_eq_succ_of_ne_zero (Nat.ne_zero_of_lt hn)
    rw [List.flatMap_cons, loop] at h
    by_cases hread : m.Read s.txn
    · rw [serve_of_read hread] at h
      have hans := m.turn_answers db s
      cases hended : (m.turn db s).ended with
      | true =>
        -- a turn that ends the process sends nothing
        simp only [hended, if_true] at h
        have hsent := (List.forall₂_cons.mp h).1.sent
        simp [hans.sent, hended] at hsent
      | false =>
        simp only [hended, Bool.false_eq_true, if_false] at h
        exact ⟨hread, hended, ih (by simpa using hn) (List.forall₂_cons.mp h).2⟩
    · obtain ⟨r, t, hserve, hconsumed⟩ := serve_of_not_read db hread
        (ms.flatMap Message.encode)
      rw [hserve] at h
      simp only at h
      split at h
      · exact absurd (List.forall₂_cons.mp h).1.consumed hconsumed
      · exact absurd (List.forall₂_cons.mp h).1.consumed hconsumed

theorem length_le_stream (msgs : List Message) :
    msgs.length ≤ (msgs.flatMap Message.encode).length := by
  induction msgs with
  | nil => simp
  | cons m ms ih =>
    simp only [List.flatMap_cons, List.length_append, List.length_cons, Message.length_encode]
    omega

variable (db) in
/-- The framing of a stream of well-formed messages survives exactly if the stream is in step. -/
theorem framed_iff (s : Session σ) (msgs : List Message) :
    Framed db s msgs ↔ InStep db s msgs := by
  have hn := Nat.lt_succ_of_le (length_le_stream msgs)
  constructor
  · intro h
    exact inStep_of_loop hn h.rounds
  · intro h
    obtain ⟨hrounds, hout⟩ := loop_of_inStep h hn
    exact ⟨hrounds, hout⟩

end Framing

/-! ## A `DELETE` before `BEGIN` -/

/-- The database of a server with one client, in memory: the contents, and while a transaction is
open the contents that its rollback restores. -/
def soleClient : Database (KV × Option KV) where
  begin s := (.returned 1, s.1, some s.1)
  get _ k s := (.returned (s.1.get k), s)
  put _ k v s :=
    match s.1.insert k v with
    | .ok m => (.returned (), m, s.2)
    | .error (.invalidArgument what) => (.threw what, s)
    | .error _ => (.died, s)
  delete _ k s := (.returned (), s.1.remove k, s.2)
  commit _ s := (.returned (), s.1, none)
  rollback _ s := (.returned (), s.2.getD s.1, none)
  destroy _ s := (s.2.getD s.1, none)

/-- `DELETE` of the key `abc` followed by the bytes of a `BEGIN`. -/
def deleteOfBegin : Message := .delete ⟨[0x61, 0x62, 0x63, 0x01, 0, 0, 0, 0], by decide⟩

/-- Without an open transaction the payload of the `DELETE` is taken for two more messages, and the
second of them opens a transaction. -/
theorem deleteOfBegin_opens :
    (Session.run soleClient { input := deleteOfBegin.encode, db := (.empty, none) }).1 =
        [⟨OP_DELETE, false, 5, [], [REFUSED]⟩, ⟨0, false, 5, [], [UNKNOWN_OPCODE]⟩,
          ⟨OP_BEGIN, false, 5, [.begin], [.ok]⟩] ∧
      ¬ Framed soleClient { input := [], db := (.empty, none) } [deleteOfBegin] := by
  refine ⟨by decide +kernel, fun h => ?_⟩
  have hstep := inStep_of_loop (Nat.lt_succ_of_le (length_le_stream _)) h.rounds
  exact absurd hstep.1 (by decide)

end KeyVDB
