import KeyVDB.Client.Connection
import KeyVDB.Server.Session
import KeyVDB.Txn.Isolation

/-!
# Transactions of the client

`client/src/transaction.ts` and the methods `begin` and `transact` of `client/src/index.ts`, on a
connection whose other end is a session of the server. A callback of `transact` awaits each of its
calls before it makes the next, so it is a tree: a node is a call, with a branch for every way the
call can end. The client's strings are the strings of the language; `lossy` stands for what
`toString('utf8')` makes of bytes that are no UTF-8.

`send` is exact for a message whose handler reads it (`framed_iff`). The first one that is not read
puts the connection out of step, and what follows is not modelled.
-/

namespace KeyVDB

namespace Client

/-! ## Strings -/

/-- `Buffer.from(s, 'utf8')`. -/
def utf8 (s : String) : Bytes := s.toUTF8.data.toList

/-- `toString('utf8')`. -/
def utf8Slice (lossy : Bytes → String) (buf : Bytes) : String :=
  (String.fromUTF8? ⟨buf.toArray⟩).getD (lossy buf)

/-- `encodeString`, where `writeUInt16BE` accepts the length. -/
def wireString (s : String) : Option WireString :=
  if h : (utf8 s).length < 2 ^ 16 then some ⟨utf8 s, h⟩ else none

/-- `replace(/\0+$/, '')`. -/
def stripZeros (s : String) : String :=
  String.ofList (s.toList.reverse.dropWhile fun c => c = '\x00').reverse

/-- What a promise is rejected with, or a method throws. -/
inductive ClientError
  | deadlockError
  | keyVDBError (message : String)
  | error (message : String)  -- a plain `Error`
  | rangeError  -- thrown by a method of `Buffer`
  deriving DecidableEq

/-- `new KeyVDBError(message)`. -/
def newKeyVDBError (message : String) : ClientError := .keyVDBError ("KeyVDB: " ++ message)

/-- `Connection.checkResponse`. -/
def checkResponse (lossy : Bytes → String) (res : Response) : Except ClientError Unit :=
  if res.status = STATUS_OK then .ok ()
  else if res.status = STATUS_NOT_FOUND then .ok ()
  else if res.status = STATUS_DEADLOCK then .error .deadlockError
  else if res.status = STATUS_ERROR then
    .error (newKeyVDBError (stripZeros (utf8Slice lossy res.payload)))
  else
    .error (newKeyVDBError
      ("unexpected status byte: 0x" ++ String.ofList (Nat.toDigits 16 res.status.toNat)))

/-- The end of `Transaction.get`. -/
def parseValue (lossy : Bytes → String) (res : Response) :
    Except ClientError (Option String) :=
  if res.status = STATUS_NOT_FOUND then .ok none
  else do
    checkResponse lossy res
    if res.payload.length < 2 then .error .rangeError
    else
      let valLen := beNat (res.payload.take 2)
      return some (utf8Slice lossy (slice res.payload 2 (2 + valLen)))

/-! ## The connection -/

/-- A response of the server, as `drainResponses` cuts it out. -/
def parsed (r : KeyVDB.Response) : Response := ⟨r.status, r.payload⟩

/-- A connection to a session of the server. -/
structure Link (σ : Type) where
  session : Session σ
  up : Bool := true  -- the socket is not destroyed
  inStep : Bool := true  -- every message so far was read by its handler

section Calls

variable {σ : Type} (db : Database σ) (lossy : Bytes → String)

/-- `conn.send`, and the wait for its response. -/
def Link.send (m : Message) (l : Link σ) : Except ClientError Response × Link σ :=
  if l.up then
    if m.Read l.session.txn then
      let t := m.turn db l.session
      match t.ended, t.sent with
      | false, r :: _ => (.ok (parsed r), { l with session := t.session })
      | _, _ =>
        (.error (.error "KeyVDB: connection closed"), { l with session := t.session, up := false })
    else (.error (.error "out of step"), { l with inStep := false })
  else (.error (.error "KeyVDB: not connected"), l)

/-- A request whose response only has to be checked. -/
def Link.request (m : Message) (l : Link σ) : Except ClientError Unit × Link σ :=
  match l.send db m with
  | (.error e, l) => (.error e, l)
  | (.ok res, l) => (checkResponse lossy res, l)

/-- `assertOpen`. -/
def alreadyEnded : ClientError :=
  .error "KeyVDB: transaction already ended — call db.begin() for a new one"

/-- `Transaction.get`; `done` is the field of the object. -/
def txnGet (key : String) (done : Bool) (l : Link σ) :
    Except ClientError (Option String) × Link σ :=
  if done then (.error alreadyEnded, l)
  else
    match wireString key with
    | none => (.error .rangeError, l)
    | some k =>
      match l.send db (.get k) with
      | (.error e, l) => (.error e, l)
      | (.ok res, l) => (parseValue lossy res, l)

/-- `Transaction.put`. -/
def txnPut (key value : String) (done : Bool) (l : Link σ) : Except ClientError Unit × Link σ :=
  if done then (.error alreadyEnded, l)
  else
    match wireString key, wireString value with
    | some k, some v => l.request db lossy (.put k v)
    | _, _ => (.error .rangeError, l)

/-- `Transaction.delete`. -/
def txnDelete (key : String) (done : Bool) (l : Link σ) : Except ClientError Unit × Link σ :=
  if done then (.error alreadyEnded, l)
  else
    match wireString key with
    | some k => l.request db lossy (.delete k)
    | none => (.error .rangeError, l)

/-- `Transaction.commit`, after which `done` is set. -/
def txnCommit (done : Bool) (l : Link σ) : Except ClientError Unit × Link σ :=
  if done then (.error alreadyEnded, l) else l.request db lossy .commit

/-- `Transaction.rollback`, after which `done` is set. -/
def txnRollback (done : Bool) (l : Link σ) : Except ClientError Unit × Link σ :=
  if done then (.ok (), l) else l.request db lossy .rollback

/-- `KeyVDB.begin`. -/
def begin (l : Link σ) : Except ClientError Unit × Link σ := l.request db lossy .begin

end Calls

/-! ## Callbacks -/

/-- A callback of `transact` that awaits each of its calls before the next. -/
inductive Script (α : Type)
  | returns (a : α)
  | throws (e : ClientError)
  | get (key : String) (next : Except ClientError (Option String) → Script α)
  | put (key value : String) (next : Except ClientError Unit → Script α)
  | delete (key : String) (next : Except ClientError Unit → Script α)
  | commit (next : Except ClientError Unit → Script α)
  | rollback (next : Except ClientError Unit → Script α)

section Transact

variable {σ α : Type} (db : Database σ) (lossy : Bytes → String)

/-- The callback on a transaction: how it ends, and `done` then. -/
def Script.run : Script α → Bool → Link σ → Except ClientError α × Bool × Link σ
  | .returns a, done, l => (.ok a, done, l)
  | .throws e, done, l => (.error e, done, l)
  | .get key next, done, l =>
    let (r, l) := txnGet db lossy key done l
    (next r).run done l
  | .put key value next, done, l =>
    let (r, l) := txnPut db lossy key value done l
    (next r).run done l
  | .delete key next, done, l =>
    let (r, l) := txnDelete db lossy key done l
    (next r).run done l
  | .commit next, done, l =>
    let (r, l) := txnCommit db lossy done l
    (next r).run true l
  | .rollback next, done, l =>
    let (r, l) := txnRollback db lossy done l
    (next r).run true l

/-- The `try` block of `transact` with its `catch`: an error is thrown after a rollback whose own
error is dropped. -/
def attempt (fn : Script α) (l : Link σ) : Except ClientError α × Link σ :=
  match fn.run db lossy false l with
  | (.error e, done, l) => (.error e, (txnRollback db lossy done l).2)
  | (.ok a, done, l) =>
    match txnCommit db lossy done l with
    | (.ok (), l) => (.ok a, l)
    | (.error e, l) => (.error e, (txnRollback db lossy true l).2)

/-- The loop of `transact`, from an attempt on; `fn` may do something else at each attempt. -/
def transactFrom (fn : Nat → Script α) (n : Nat) :
    Nat → Link σ → Except ClientError α × Link σ
  | retries, l =>
    match begin db lossy l with
    | (.error e, l) => (.error e, l)
    | (.ok (), l) =>
      match attempt db lossy (fn n) l with
      | (.ok a, l) => (.ok a, l)
      | (.error e, l) =>
        match retries with
        | 0 => (.error e, l)
        | retries + 1 =>
          if e = .deadlockError then transactFrom fn (n + 1) retries l else (.error e, l)

/-- `KeyVDB.transact`. With a negative `maxRetries` the loop does not start. -/
def transact (fn : Nat → Script α) (maxRetries : Int) (l : Link σ) :
    Except ClientError α × Link σ :=
  if maxRetries < 0 then (.error .deadlockError, l)
  else transactFrom db lossy fn 0 maxRetries.toNat l

end Transact

/-! ## Callbacks alone on the data -/

/-- `what()`; the two ends of the process have none. -/
def what : Exn → String
  | .runtimeError what => what
  | .invalidArgument what => what
  | .outOfRange what => what
  | .systemError what => what
  | .assertion _ => ""
  | .diverges => ""

/-- The callback executed alone on a map: what it returns and the map after it; `none` if it throws
or ends the transaction itself. -/
def Script.alone {α : Type} (lossy : Bytes → String) : Script α → KV → Option (α × KV)
  | .returns a, m => some (a, m)
  | .throws _, _ => none
  | .get key next, m =>
    match wireString key with
    | none => (next (.error .rangeError)).alone lossy m
    | some k => (next (.ok ((m.get k.val).map (utf8Slice lossy)))).alone lossy m
  | .put key value next, m =>
    match wireString key, wireString value with
    | some k, some v =>
      match m.insert k.val v.val with
      | .ok m' => (next (.ok ())).alone lossy m'
      | .error e => (next (.error (newKeyVDBError (what e)))).alone lossy m
    | _, _ => (next (.error .rangeError)).alone lossy m
  | .delete key next, m =>
    match wireString key with
    | none => (next (.error .rangeError)).alone lossy m
    | some k => (next (.ok ())).alone lossy (m.remove k.val)
  | .commit _, _ => none
  | .rollback _, _ => none

/-! ## What the other end reads -/

section Reading

variable {lossy : Bytes → String}

theorem toList_eq_data (b : ByteArray) : b.toList = b.data.toList := by
  have hloop : ∀ i r, ByteArray.toList.loop b i r = r.reverse ++ b.data.toList.drop i := by
    intro i r
    fun_induction ByteArray.toList.loop b i r with
    | case1 i r hi ih =>
      have hlen : i < b.data.toList.length := hi
      rw [ih, List.drop_eq_getElem_cons hlen, List.reverse_cons, List.append_assoc]
      have hget : b.get! i = b.data.toList[i] := by
        show b.data[i]! = _
        rw [getElem!_pos b.data i hi, Array.getElem_toList]
      rw [hget]
      rfl
    | case2 i r hi =>
      have hlen : b.data.toList.length ≤ i := Nat.le_of_not_lt hi
      rw [List.drop_of_length_le hlen, List.append_nil]
  exact hloop 0 []

/-- What one end encodes, the other decodes. -/
theorem utf8Slice_utf8 (s : String) : utf8Slice lossy (utf8 s) = s := by
  have hbytes : (⟨(utf8 s).toArray⟩ : ByteArray) = s.toByteArray := rfl
  rw [utf8Slice, hbytes, String.fromUTF8?, dif_pos s.isValidUTF8]
  rfl

/-- The terminating zero of a message is taken off again. -/
theorem stripZeros_push {s : String} (h : s.toList.getLast? ≠ some '\x00') :
    stripZeros (s ++ "\x00") = s := by
  have hrev : (s ++ "\x00").toList.reverse = '\x00' :: s.toList.reverse := by
    rw [String.toList_append, List.reverse_append]
    rfl
  rw [stripZeros, hrev, List.dropWhile_cons_of_pos (by decide)]
  cases hs : s.toList.reverse with
  | nil =>
    rw [List.reverse_eq_nil_iff] at hs
    rw [← String.ofList_toList (s := s), hs]
    rfl
  | cons c cs =>
    have hlast : s.toList.getLast? = some c := by
      rw [← List.head?_reverse, hs]
      rfl
    rw [List.dropWhile_cons_of_neg, ← hs, List.reverse_reverse, String.ofList_toList]
    intro e
    rw [of_decide_eq_true e] at hlast
    exact h hlast

/-- An error of the server, as the client reports it. -/
theorem checkResponse_error {text : String} (h : text.toList.getLast? ≠ some '\x00') :
    checkResponse lossy (parsed (.error text)) =
      .error (newKeyVDBError text) := by
  have hpayload : (KeyVDB.Response.error text).payload = utf8 (text ++ "\x00") := by
    rw [KeyVDB.Response.payload, toList_eq_data, utf8]
    show _ = (text ++ "\x00").toByteArray.data.toList
    rw [String.toByteArray_append, ByteArray.toList_data_append]
    rfl
  show checkResponse lossy ⟨STATUS_ERROR, _⟩ = _
  rw [hpayload]
  have hcheck : checkResponse lossy ⟨STATUS_ERROR, utf8 (text ++ "\x00")⟩ =
      .error (newKeyVDBError (stripZeros (utf8Slice lossy (utf8 (text ++ "\x00"))))) := rfl
  rw [hcheck, utf8Slice_utf8, stripZeros_push h]

theorem what_tooLarge (k v : Bytes) : (what (tooLarge k v)).toList.getLast? ≠ some '\x00' := by
  rw [tooLarge, what, String.toList_append, List.getLast?_append]
  exact fun e => absurd (Option.some.inj e) (by decide)

/-- A value that the tree holds is read back as it is. -/
theorem parseValue_okValue {v : Bytes} (h : v.length < 2 ^ 16) :
    parseValue lossy (parsed (.okValue v)) =
      .ok (some (utf8Slice lossy v)) := by
  have hlen : ¬ (beBytes 2 v.length ++ v).length < 2 := by
    rw [List.length_append, length_beBytes]
    omega
  have hfield : beNat ((beBytes 2 v.length ++ v).take 2) = v.length := by
    rw [take_append_field (length_beBytes 2 _)]
    exact beNat_beBytes_of_lt (by simpa using h)
  have hslice : slice (beBytes 2 v.length ++ v) 2 (2 + v.length) = v := by
    rw [slice, List.take_of_length_le (by simp)]
    exact drop_append_field (length_beBytes 2 _)
  have hparse : parseValue lossy (parsed (.okValue v)) =
      if (beBytes 2 v.length ++ v).length < 2 then .error .rangeError
      else .ok (some (utf8Slice lossy (slice (beBytes 2 v.length ++ v) 2
        (2 + beNat ((beBytes 2 v.length ++ v).take 2))))) := rfl
  rw [hparse, if_neg hlen, hfield, hslice]

/-- A request that its handler reads: `send` answers what the handler of `data` cuts out of the
bytes that the server writes. -/
theorem send_of_serve {σ : Type} (db : Database σ) {m : Message} {l : Link σ} (hup : l.up = true)
    (h : m.Read l.session.txn) (hended : (m.turn db l.session).ended = false) (rest : Bytes) :
    ∃ round t r, serve db { l.session with input := m.encode ++ rest } = some (round, t) ∧
      t.session.output = l.session.output ++ r.encode ∧
      l.send db m =
        (.ok (parsed r), { l with session := { t.session with input := l.session.input } }) ∧
      ∀ (c : Connection) (id : RequestId), c.recvBuf = [] → c.pendingResolvers = [id] →
        r.payload.length < 2 ^ 32 → (c.onData r.encode).2 = [(id, .resolved (parsed r))] := by
  have hanswers := m.turn_answers db l.session
  have hlen := hanswers.sent
  rw [hended] at hlen
  obtain ⟨r, hr⟩ := List.length_eq_one_iff.mp hlen
  refine ⟨_, _, r, serve_of_read h rest, ?_, ?_, ?_⟩
  · rw [hanswers.output, hr, List.flatMap_singleton]
  · rw [Link.send, if_pos hup, if_pos h]
    dsimp only
    rw [hended, hr, ← hanswers.input]
  · intro c id hbuf hpending hfits
    have hwire : c.recvBuf ++ r.encode = Reply.encode ⟨parsed r, hfits⟩ ++ [] := by
      rw [hbuf, List.nil_append, List.append_nil]
      rfl
    rw [Connection.onData, Connection.drainResponses_whole hwire, hpending]
    rfl

end Reading

end Client

end KeyVDB
