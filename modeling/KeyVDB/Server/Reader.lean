import KeyVDB.Lib.Run
import KeyVDB.Server.Session

/-!
# Requests that come in parts

`read_exact` calls `::read` until it has all bytes, and each `::read` returns what has come in so
far. Here a turn of the loop of `run` is no longer one step: the thread is in one of six
`read_exact` calls with some of its bytes, and the database is called once the last byte of a
request is there. `read_in_parts` takes this back to `Session.run`: for any stream of bytes,
well-formed or not, it does not show in how many parts it came in.
-/

namespace KeyVDB

/-! ## The thread of a connection -/

/-- The `read_exact` that the thread is in. The handlers of `GET`, `PUT` and `DELETE` have found a
transaction open before they read. -/
inductive Awaits
  | opcode
  | payloadLen (opcode : UInt8)
  | keyLen (opcode : UInt8) (txn : TxnId)
  | key (opcode : UInt8) (txn : TxnId) (len : Nat)
  | valueLen (txn : TxnId) (key : Bytes)
  | value (txn : TxnId) (key : Bytes) (len : Nat)

namespace Awaits

/-- The number of bytes it asks for. -/
def size : Awaits → Nat
  | opcode => 1
  | payloadLen _ => 4
  | keyLen _ _ => 2
  | key _ _ len => len
  | valueLen _ _ => 2
  | value _ _ len => len

end Awaits

/-- A `ClientHandler` in the middle of a request. -/
structure Reader (σ : Type) where
  session : Session σ
  awaits : Awaits := .opcode
  got : Bytes := []             -- the bytes that its `read_exact` has
  sent : List Response := []    -- the responses so far
  ended : Bool := false         -- `run` returned or threw, or the process ended

/-- The opcodes whose handlers read a key. -/
def takesKey (opcode : UInt8) : Bool := opcode = OP_GET ∨ opcode = OP_PUT ∨ opcode = OP_DELETE

namespace Reader

variable {σ : Type} (db : Database σ)

/-- The next `read_exact`. -/
def await (r : Reader σ) (a : Awaits) : Reader σ := { r with awaits := a, got := [] }

/-- A handler is done. -/
def finish (r : Reader σ) (t : Turn σ) : Reader σ :=
  { session := t.session, sent := r.sent ++ t.sent, ended := t.ended }

/-- The `switch` of `run`, as far as the first `read_string`. -/
def onHeader (opcode : UInt8) (payloadLen : Nat) (r : Reader σ) : Reader σ :=
  match r.session.txn with
  | none => r.finish (dispatch db opcode payloadLen r.session)
  | some t =>
    if takesKey opcode then r.await (.keyLen opcode t)
    else r.finish (dispatch db opcode payloadLen r.session)

/-- The handler has its key. -/
def onKey (opcode : UInt8) (t : TxnId) (key : Bytes) (r : Reader σ) : Reader σ :=
  if opcode = OP_GET then
    r.finish (r.session.finish db t (.get key)
      (Outcome.respond .ofValue (db.get t key r.session.db)))
  else if opcode = OP_PUT then r.await (.valueLen t key)
  else
    r.finish (r.session.finish db t (.delete key)
      (Outcome.respond (fun _ => .ok) (db.delete t key r.session.db)))

/-- `handle_put` has its value too. -/
def onValue (t : TxnId) (key value : Bytes) (r : Reader σ) : Reader σ :=
  r.finish (r.session.finish db t (.put key value)
    (Outcome.respond (fun _ => .ok) (db.put t key value r.session.db)))

/-- A `read_exact` returns. `read_string` makes no second one for an empty string. -/
def complete (r : Reader σ) : Reader σ :=
  match r.awaits with
  | .opcode => r.await (.payloadLen (r.got.headD 0))
  | .payloadLen opcode => r.onHeader db opcode (beNat r.got)
  | .keyLen opcode t =>
    if beNat r.got = 0 then r.onKey db opcode t [] else r.await (.key opcode t (beNat r.got))
  | .key opcode t _ => r.onKey db opcode t r.got
  | .valueLen t key =>
    if beNat r.got = 0 then r.onValue db t key [] else r.await (.value t key (beNat r.got))
  | .value t key _ => r.onValue db t key r.got

/-- A `::read` takes the next `n` bytes of the stream. -/
def take (n : Nat) (r : Reader σ) : Reader σ :=
  { r with
    session := { r.session with input := r.session.input.drop n }
    got := r.got ++ r.session.input.take n }

/-- A `::read` that returns `n`. -/
def read (n : Nat) (r : Reader σ) : Option (Reader σ) :=
  if r.ended = false ∧ 0 < n ∧ n ≤ r.session.input.length ∧ r.got.length + n ≤ r.awaits.size then
    some (if (r.take n).got.length = r.awaits.size then (r.take n).complete db else r.take n)
  else none

/-- A `::read` that returns 0: the client is gone, and every `read_exact` fails from here on. -/
def eof (r : Reader σ) : Option (Reader σ) :=
  if r.ended = false ∧ r.session.input = [] then
    some { session := disconnect db r.session, sent := r.sent, ended := true }
  else none

end Reader

/-- What happens at the server's end of a connection. -/
inductive ReadEvent
  | arrive (bytes : Bytes)
  | read (n : Nat)
  | eof

def Reader.step {σ : Type} (db : Database σ) (r : Reader σ) : ReadEvent → Option (Reader σ)
  | .arrive bytes =>
    if r.ended = false then
      some { r with session := { r.session with input := r.session.input ++ bytes } }
    else none
  | .read n => r.read db n
  | .eof => r.eof db

/-- All bytes that came in. -/
def arrived : List ReadEvent → Bytes
  | [] => []
  | .arrive bytes :: events => bytes ++ arrived events
  | .read _ :: events => arrived events
  | .eof :: events => arrived events

theorem arrived_append (events events' : List ReadEvent) :
    arrived (events ++ events') = arrived events ++ arrived events' := by
  induction events with
  | nil => rfl
  | cons e events ih =>
    cases e with
    | arrive bytes => rw [List.cons_append, arrived, arrived, ih, List.append_assoc]
    | read n => exact ih
    | eof => exact ih

/-! ## One request -/

/-- The bytes of a request that the `read_exact` calls before this one have taken. -/
inductive Awaits.Taken (txn : Option TxnId) : Awaits → Bytes → Prop
  | opcode : Taken txn .opcode []
  | payloadLen (opcode : UInt8) : Taken txn (.payloadLen opcode) [opcode]
  | keyLen {opcode : UInt8} {t : TxnId} {len : Bytes} (htxn : txn = some t)
      (hop : takesKey opcode = true) (hlen : len.length = 4) :
      Taken txn (.keyLen opcode t) (opcode :: len)
  | key {opcode : UInt8} {t : TxnId} {len klen : Bytes} (htxn : txn = some t)
      (hop : takesKey opcode = true) (hlen : len.length = 4) (hklen : klen.length = 2) :
      Taken txn (.key opcode t (beNat klen)) (opcode :: (len ++ klen))
  | valueLen {t : TxnId} {len klen key : Bytes} (htxn : txn = some t) (hlen : len.length = 4)
      (hklen : klen.length = 2) (hkey : key.length = beNat klen) :
      Taken txn (.valueLen t key) (OP_PUT :: (len ++ (klen ++ key)))
  | value {t : TxnId} {len klen key vlen : Bytes} (htxn : txn = some t) (hlen : len.length = 4)
      (hklen : klen.length = 2) (hkey : key.length = beNat klen) (hvlen : vlen.length = 2) :
      Taken txn (.value t key (beNat vlen)) (OP_PUT :: (len ++ (klen ++ (key ++ vlen))))

section Serve

variable {σ : Type} {db : Database σ} {s : Session σ} {t : Turn σ}

/-- The round of a turn that takes `bytes` off the stream. -/
def Turn.round (t : Turn σ) (s : Session σ) (bytes : Bytes) : Round where
  opcode := bytes.headD 0
  opened := s.txn.isSome
  consumed := bytes.length
  calls := t.calls
  sent := t.sent

/-- `bytes` are a request that the loop takes off the stream in one turn, whatever follows. -/
structure Takes (db : Database σ) (s : Session σ) (bytes : Bytes) (t : Turn σ) : Prop where
  input : t.session.input = s.input
  length : 5 ≤ bytes.length
  serve : ∀ rest, serve db { s with input := bytes ++ rest } =
    some (t.round s bytes, { t with session := { t.session with input := rest } })

theorem serve_header (db : Database σ) (s : Session σ) (opcode : UInt8) {len : Bytes}
    (hlen : len.length = 4) (rest : Bytes) :
    let t := dispatch db opcode (beNat len) { s with input := rest }
    serve db { s with input := opcode :: (len ++ rest) } =
      some ({ opcode
              opened := s.txn.isSome
              consumed := 5 + rest.length - t.session.input.length
              calls := t.calls
              sent := t.sent }, t) := by
  have hfirst : opcode :: (len ++ rest) = [opcode] ++ (len ++ rest) := rfl
  have hsize : (opcode :: (len ++ rest)).length = 5 + rest.length := by
    rw [List.length_cons, List.length_append]
    omega
  simp only [serve, hsize]
  rw [hfirst, readExact_append (n := 1) rfl]
  simp only [readExact_append hlen, List.headD_cons]

/-- A string whose length is `len`. -/
theorem readString_append {len str : Bytes} (hlen : len.length = 2) (hstr : str.length = beNat len)
    (rest : Bytes) : readString (len ++ (str ++ rest)) = (some str, rest) := by
  rw [readString, readExact_append hlen]
  exact readExact_append hstr rest

theorem Session.finish_input (s : Session σ) (t : TxnId) (call : DbCall)
    (o : Outcome Response × σ) (rest : Bytes) :
    Session.finish db { s with input := rest } t call o =
      { s.finish db t call o with
        session := { (s.finish db t call o).session with input := rest } } := by
  obtain ⟨o, d⟩ := o
  cases o with
  | returned r => rfl
  | deadlock what => rfl
  | threw what => rfl
  | died => rfl

/-- A handler that reads no string has no part in the stream. -/
theorem dispatch_input (db : Database σ) (s : Session σ) {opcode : UInt8}
    (h : s.txn = none ∨ takesKey opcode = false) (n : Nat) (rest : Bytes) :
    dispatch db opcode n { s with input := rest } =
      { dispatch db opcode n s with
        session := { (dispatch db opcode n s).session with input := rest } } := by
  by_cases hkey : takesKey opcode = true
  · have htxn : s.txn = none := h.resolve_right fun hno => by rw [hkey] at hno; cases hno
    have hop : opcode = OP_GET ∨ opcode = OP_PUT ∨ opcode = OP_DELETE := of_decide_eq_true hkey
    obtain ⟨input, output, txn, d⟩ := s
    cases htxn
    rcases hop with rfl | rfl | rfl
    · rfl
    · rfl
    · rfl
  · have hop : ¬ (opcode = OP_GET ∨ opcode = OP_PUT ∨ opcode = OP_DELETE) := fun hop =>
      hkey (decide_eq_true hop)
    obtain ⟨hget, hput, hdelete⟩ := not_or.mp hop |>.imp_right not_or.mp
    simp only [dispatch, if_neg hget, if_neg hput, if_neg hdelete]
    split
    · exact Message.turn_input .begin s rest
    · split
      · exact Message.turn_input .commit s rest
      · split
        · exact Message.turn_input .rollback s rest
        · rfl

theorem dispatch_keeps_input (db : Database σ) (s : Session σ) {opcode : UInt8}
    (h : s.txn = none ∨ takesKey opcode = false) (n : Nat) :
    (dispatch db opcode n s).session.input = s.input := by
  have hself := dispatch_input db s h n s.input
  exact congrArg (fun t => t.session.input) hself

/-- A request is a header and the strings that its handler reads. -/
theorem takes_of_dispatch {opcode : UInt8} {len strs : Bytes} (hlen : len.length = 4)
    (hinput : t.session.input = s.input)
    (h : ∀ rest, dispatch db opcode (beNat len) { s with input := strs ++ rest } =
      { t with session := { t.session with input := rest } }) :
    Takes db s (opcode :: (len ++ strs)) t where
  input := hinput
  length := by
    rw [List.length_cons, List.length_append]
    omega
  serve := by
    intro rest
    have hserve := serve_header db s opcode hlen (strs ++ rest)
    have hsize : 5 + (strs ++ rest).length - rest.length = (opcode :: (len ++ strs)).length := by
      rw [List.length_append, List.length_cons, List.length_append]
      omega
    simp only [h rest, hsize] at hserve
    rw [List.cons_append, List.append_assoc]
    exact hserve

theorem takes_get {i : TxnId} {len klen key : Bytes} (htxn : s.txn = some i) (hlen : len.length = 4)
    (hklen : klen.length = 2) (hkey : key.length = beNat klen) :
    Takes db s (OP_GET :: (len ++ (klen ++ key)))
      (s.finish db i (.get key) (Outcome.respond .ofValue (db.get i key s.db))) := by
  refine takes_of_dispatch hlen (s.finish_answers i _ _).input fun rest => ?_
  change handleGet db (beNat len) _ = _
  simp only [handleGet, htxn, List.append_assoc, readString_append hklen hkey]
  rw [← Session.finish_input, htxn]

theorem takes_delete {i : TxnId} {len klen key : Bytes} (htxn : s.txn = some i)
    (hlen : len.length = 4) (hklen : klen.length = 2) (hkey : key.length = beNat klen) :
    Takes db s (OP_DELETE :: (len ++ (klen ++ key)))
      (s.finish db i (.delete key) (Outcome.respond (fun _ => .ok) (db.delete i key s.db))) := by
  refine takes_of_dispatch hlen (s.finish_answers i _ _).input fun rest => ?_
  change handleDelete db (beNat len) _ = _
  simp only [handleDelete, htxn, List.append_assoc, readString_append hklen hkey]
  rw [← Session.finish_input, htxn]

theorem takes_put {i : TxnId} {len klen key vlen value : Bytes} (htxn : s.txn = some i)
    (hlen : len.length = 4) (hklen : klen.length = 2) (hkey : key.length = beNat klen)
    (hvlen : vlen.length = 2) (hvalue : value.length = beNat vlen) :
    Takes db s (OP_PUT :: (len ++ (klen ++ (key ++ (vlen ++ value)))))
      (s.finish db i (.put key value)
        (Outcome.respond (fun _ => .ok) (db.put i key value s.db))) := by
  refine takes_of_dispatch hlen (s.finish_answers i _ _).input fun rest => ?_
  change handlePut db (beNat len) _ = _
  simp only [handlePut, htxn, List.append_assoc, readString_append hklen hkey,
    readString_append hvlen hvalue]
  rw [← Session.finish_input, htxn]

end Serve

namespace Reader

variable {σ : Type} {db : Database σ} {r : Reader σ} {taken : Bytes}

/-- The thread goes on with the request, or the request is whole. -/
def Advances (db : Database σ) (r : Reader σ) (bytes : Bytes) (r' : Reader σ) : Prop :=
  (∃ a : Awaits, r' = r.await a ∧ a.Taken r.session.txn bytes ∧ 0 < a.size) ∨
    ∃ t, r' = r.finish t ∧ Takes db r.session bytes t

theorem onHeader_advances (opcode : UInt8) {len : Bytes} (hlen : len.length = 4) :
    Advances db r (opcode :: len) (r.onHeader db opcode (beNat len)) := by
  have hdone (h : r.session.txn = none ∨ takesKey opcode = false) :
      Takes db r.session (opcode :: len) (dispatch db opcode (beNat len) r.session) := by
    have htakes : Takes db r.session (opcode :: (len ++ [])) _ :=
      takes_of_dispatch hlen (dispatch_keeps_input db r.session h _) fun rest =>
        dispatch_input db r.session h (beNat len) rest
    rwa [List.append_nil] at htakes
  rw [onHeader]
  cases htxn : r.session.txn with
  | none => exact .inr ⟨_, rfl, hdone (.inl htxn)⟩
  | some t =>
    by_cases hkey : takesKey opcode = true
    · dsimp only
      rw [if_pos hkey]
      exact .inl ⟨_, rfl, .keyLen htxn hkey hlen, Nat.two_pos⟩
    · dsimp only
      rw [if_neg hkey]
      exact .inr ⟨_, rfl, hdone (.inr (Bool.eq_false_of_not_eq_true hkey))⟩

theorem onKey_advances {opcode : UInt8} {t : TxnId} {len klen key : Bytes}
    (htxn : r.session.txn = some t) (hop : takesKey opcode = true) (hlen : len.length = 4)
    (hklen : klen.length = 2) (hkey : key.length = beNat klen) :
    Advances db r (opcode :: (len ++ (klen ++ key))) (r.onKey db opcode t key) := by
  have hop : opcode = OP_GET ∨ opcode = OP_PUT ∨ opcode = OP_DELETE := of_decide_eq_true hop
  rcases hop with rfl | rfl | rfl
  · exact .inr ⟨_, rfl, takes_get htxn hlen hklen hkey⟩
  · exact .inl ⟨_, rfl, .valueLen htxn hlen hklen hkey, Nat.two_pos⟩
  · exact .inr ⟨_, rfl, takes_delete htxn hlen hklen hkey⟩

/-- A `read_exact` has all its bytes. -/
theorem complete_advances (db : Database σ) (h : r.awaits.Taken r.session.txn taken)
    (hgot : r.got.length = r.awaits.size) : Advances db r (taken ++ r.got) (r.complete db) := by
  obtain ⟨session, awaits, got, sent, ended⟩ := r
  dsimp only at h hgot
  cases h with
  | opcode =>
    obtain ⟨opcode, rfl⟩ := List.length_eq_one_iff.mp hgot
    exact .inl ⟨_, rfl, .payloadLen opcode, Nat.succ_pos 3⟩
  | payloadLen opcode => exact onHeader_advances opcode hgot
  | @keyLen opcode t len htxn hop hlen =>
    simp only [complete]
    by_cases hzero : beNat got = 0
    · rw [if_pos hzero]
      have hdone : Advances db ⟨session, .keyLen opcode t, got, sent, ended⟩
          (opcode :: (len ++ (got ++ []))) _ := onKey_advances htxn hop hlen hgot hzero.symm
      rwa [List.append_nil] at hdone
    · rw [if_neg hzero]
      exact .inl ⟨_, rfl, .key htxn hop hlen hgot, Nat.pos_of_ne_zero hzero⟩
  | @key opcode t len klen htxn hop hlen hklen =>
    rw [List.cons_append, List.append_assoc]
    exact onKey_advances htxn hop hlen hklen hgot
  | @valueLen t len klen key htxn hlen hklen hkey =>
    simp only [complete, List.cons_append, List.append_assoc]
    by_cases hzero : beNat got = 0
    · rw [if_pos hzero]
      have hdone : Takes db session (OP_PUT :: (len ++ (klen ++ (key ++ (got ++ []))))) _ :=
        takes_put htxn hlen hklen hkey hgot hzero.symm
      rw [List.append_nil] at hdone
      exact .inr ⟨_, rfl, hdone⟩
    · rw [if_neg hzero]
      exact .inl ⟨_, rfl, .value htxn hlen hklen hkey hgot, Nat.pos_of_ne_zero hzero⟩
  | @value t len klen key vlen htxn hlen hklen hkey hvlen =>
    simp only [List.cons_append, List.append_assoc]
    exact .inr ⟨_, rfl, takes_put htxn hlen hklen hkey hvlen hgot⟩

end Reader

/-! ## The loop -/

section Loop

variable {σ : Type} {db : Database σ} {s s' : Session σ} {t : Turn σ} {bytes : Bytes}
  {sent : List Response}

/-- The loop takes `bytes` off the stream in whole turns, whatever follows. They answer with `sent`
and lead to `s'`. -/
def Through (db : Database σ) (s : Session σ) (bytes : Bytes) (sent : List Response)
    (s' : Session σ) : Prop :=
  ∃ rounds : List Round, rounds.length ≤ bytes.length ∧ rounds.flatMap Round.sent = sent ∧
    ∀ n rest, loop db (rounds.length + n) { s with input := bytes ++ rest } =
      (rounds ++ (loop db n { s' with input := rest }).1, (loop db n { s' with input := rest }).2)

theorem Through.refl (s : Session σ) : Through db s [] [] s := by
  refine ⟨[], Nat.le_refl _, rfl, fun n rest => ?_⟩
  rw [List.length_nil, Nat.zero_add]
  rfl

theorem loop_of_takes (h : Takes db s bytes t) (n : Nat) (rest : Bytes) :
    loop db (n + 1) { s with input := bytes ++ rest } =
      if t.ended then ([t.round s bytes], { t.session with input := rest })
      else (t.round s bytes :: (loop db n { t.session with input := rest }).1,
        (loop db n { t.session with input := rest }).2) := by
  rw [loop, h.serve rest]

/-- One turn more. -/
theorem Through.snoc (h : Through db s bytes sent s') {bytes' : Bytes} (ht : Takes db s' bytes' t)
    (hended : t.ended = false) : Through db s (bytes ++ bytes') (sent ++ t.sent) t.session := by
  obtain ⟨rounds, hlen, hsent, hloop⟩ := h
  refine ⟨rounds ++ [t.round s' bytes'], ?_, ?_, fun n rest => ?_⟩
  · have hpos := ht.length
    rw [List.length_append, List.length_append, List.length_singleton]
    omega
  · rw [List.flatMap_append, hsent, List.flatMap_singleton]
    rfl
  · have hturns : (rounds ++ [t.round s' bytes']).length + n = rounds.length + (n + 1) := by
      rw [List.length_append, List.length_singleton]
      omega
    rw [hturns, List.append_assoc, hloop, loop_of_takes ht, hended]
    simp only [Bool.false_eq_true, if_false, List.append_assoc, List.singleton_append]

/-- The whole run, where the first `bytes` are taken off in whole turns. -/
theorem Through.run (h : Through db s bytes sent s') (rest : Bytes) :
    ∃ n, ∃ rounds : List Round, rest.length < n ∧ rounds.flatMap Round.sent = sent ∧
      Session.run db { s with input := bytes ++ rest } =
        (rounds ++ (loop db n { s' with input := rest }).1,
          (loop db n { s' with input := rest }).2) := by
  obtain ⟨rounds, hlen, hsent, hloop⟩ := h
  refine ⟨bytes.length + rest.length + 1 - rounds.length, rounds, by omega, hsent, ?_⟩
  rw [← hloop, Session.run]
  have hturns : rounds.length + (bytes.length + rest.length + 1 - rounds.length) =
      (bytes ++ rest).length + 1 := by
    rw [List.length_append]
    omega
  rw [hturns]

/-- A header that is cut off ends the loop. -/
theorem serve_of_short (h : s.input.length < 5) : serve db s = none := by
  rw [serve, readExact]
  by_cases hone : 1 ≤ s.input.length
  · have hrest : ¬ 4 ≤ (s.input.drop 1).length := by
      rw [List.length_drop]
      omega
    simp only [if_pos hone, readExact, if_neg hrest]
  · simp only [if_neg hone]

theorem loop_of_short (h : s.input.length < 5) {n : Nat} (hn : 0 < n) :
    loop db n s = ([], disconnect db s) := by
  obtain ⟨n, rfl⟩ := Nat.exists_eq_succ_of_ne_zero hn.ne'
  rw [loop, serve_of_short h]

theorem disconnect_input (db : Database σ) (s : Session σ) (rest : Bytes) :
    disconnect db { s with input := rest } = disconnect db s := by
  obtain ⟨input, output, txn, d⟩ := s
  cases txn with
  | none => rfl
  | some t => rfl

theorem readExact_cut {n : Nat} {part : Bytes} (h : part.length < n) :
    readExact n part = (none, []) := by
  rw [readExact, if_neg (Nat.not_le.mpr h)]

theorem readString_cut_length {part : Bytes} (h : part.length < 2) :
    readString part = (none, []) := by
  rw [readString, readExact_cut h]

theorem readString_cut {len part : Bytes} (hlen : len.length = 2) (h : part.length < beNat len) :
    readString (len ++ part) = (none, []) := by
  rw [readString, readExact_append hlen]
  exact readExact_cut h

theorem dispatch_of_cut_key {opcode : UInt8} {i : TxnId} {part : Bytes} (htxn : s.txn = some i)
    (hop : takesKey opcode = true) (h : readString part = (none, [])) {n : Nat} :
    dispatch db opcode n { s with input := part } = { session := { s with input := [] } } := by
  have hop : opcode = OP_GET ∨ opcode = OP_PUT ∨ opcode = OP_DELETE := of_decide_eq_true hop
  rcases hop with rfl | rfl | rfl
  · change handleGet db n _ = _
    simp only [handleGet, htxn, h]
  · change handlePut db n _ = _
    simp only [handlePut, htxn, h]
  · change handleDelete db n _ = _
    simp only [handleDelete, htxn, h]

theorem dispatch_of_cut_value {i : TxnId} {klen key part : Bytes} (htxn : s.txn = some i)
    (hklen : klen.length = 2) (hkey : key.length = beNat klen) (h : readString part = (none, []))
    {n : Nat} :
    dispatch db OP_PUT n { s with input := klen ++ (key ++ part) } =
      { session := { s with input := [] } } := by
  change handlePut db n _ = _
  simp only [handlePut, htxn, readString_append hklen hkey, h]

/-- A handler that meets the end of the stream within a string returns without a word. -/
theorem serve_of_cut_string {opcode : UInt8} {len part : Bytes} (hlen : len.length = 4)
    (h : dispatch db opcode (beNat len) { s with input := part } =
      { session := { s with input := [] } }) :
    ∃ round, round.sent = [] ∧ serve db { s with input := opcode :: (len ++ part) } =
      some (round, { session := { s with input := [] } }) := by
  have hserve := serve_header db s opcode hlen part
  rw [h] at hserve
  exact ⟨_, rfl, hserve⟩

/-- The stream ends within a request. -/
theorem serve_of_cut (db : Database σ) {a : Awaits} {taken got : Bytes} (h : a.Taken s.txn taken)
    (hgot : got.length < a.size) :
    (taken ++ got).length < 5 ∨
      ∃ round, round.sent = [] ∧ serve db { s with input := taken ++ got } =
        some (round, { session := { s with input := [] } }) := by
  cases h with
  | opcode => exact .inl (Nat.lt_of_lt_of_le hgot (by decide))
  | payloadLen opcode =>
    rw [List.singleton_append, List.length_cons]
    exact .inl (Nat.succ_lt_succ hgot)
  | @keyLen opcode t len htxn hop hlen =>
    refine .inr (serve_of_cut_string hlen (dispatch_of_cut_key htxn hop ?_))
    exact readString_cut_length hgot
  | @key opcode t len klen htxn hop hlen hklen =>
    rw [List.cons_append, List.append_assoc]
    refine .inr (serve_of_cut_string hlen (dispatch_of_cut_key htxn hop ?_))
    exact readString_cut hklen hgot
  | @valueLen t len klen key htxn hlen hklen hkey =>
    simp only [List.cons_append, List.append_assoc]
    refine .inr (serve_of_cut_string hlen (dispatch_of_cut_value htxn hklen hkey ?_))
    exact readString_cut_length hgot
  | @value t len klen key vlen htxn hlen hklen hkey hvlen =>
    simp only [List.cons_append, List.append_assoc]
    refine .inr (serve_of_cut_string hlen (dispatch_of_cut_value htxn hklen hkey ?_))
    exact readString_cut hvlen hgot

theorem loop_of_cut (db : Database σ) {a : Awaits} {taken got : Bytes} (h : a.Taken s.txn taken)
    (hgot : got.length < a.size) {n : Nat} (hn : (taken ++ got).length < n) :
    ∃ rounds, loop db n { s with input := taken ++ got } = (rounds, disconnect db s) ∧
      rounds.flatMap Round.sent = [] := by
  have hend {rest : Bytes} {k : Nat} (hrest : rest.length < 5) (hk : 0 < k) :
      loop db k { s with input := rest } = ([], disconnect db s) := by
    rw [loop_of_short (s := { s with input := rest }) hrest hk, disconnect_input]
  rcases Nat.lt_or_ge (taken ++ got).length 5 with hshort | hlong
  · exact ⟨[], hend hshort (Nat.zero_lt_of_lt hn), rfl⟩
  · rcases serve_of_cut db h hgot with hshort | ⟨round, hsent, hserve⟩
    · exact absurd hshort (Nat.not_lt.mpr hlong)
    · obtain ⟨n, rfl⟩ := Nat.exists_eq_succ_of_ne_zero (Nat.ne_zero_of_lt hn)
      have hmore : 0 < n := Nat.lt_of_lt_of_le (Nat.succ_pos 4) (hlong.trans (Nat.le_of_lt_succ hn))
      have hempty : loop db n { s with input := [] } = ([], disconnect db s) :=
        hend (Nat.succ_pos 4) hmore
      refine ⟨[round], ?_, ?_⟩
      · rw [loop, hserve]
        simp only [Bool.false_eq_true, if_false, hempty]
      · rw [List.flatMap_singleton, hsent]

end Loop

/-! ## Whole runs -/

namespace Reader

variable {σ : Type} {db : Database σ} {s : Session σ} {r r' : Reader σ} {bytes : Bytes}

/-- The thread is within a request, or between two: what came in is whole requests that were
answered, the part of the request that the thread has, and what is in the stream. -/
structure Reading (db : Database σ) (s : Session σ) (bytes : Bytes) (r : Reader σ) : Prop where
  split : ∃ before taken, bytes = before ++ (taken ++ (r.got ++ r.session.input)) ∧
    Through db s before r.sent r.session ∧ r.awaits.Taken r.session.txn taken
  got_lt : r.got.length < r.awaits.size

/-- The thread is done, with all that came in. -/
structure Done (db : Database σ) (s : Session σ) (bytes : Bytes) (r : Reader σ) : Prop where
  session : (Session.run db { s with input := bytes }).2 = r.session
  sent : (Session.run db { s with input := bytes }).1.flatMap Round.sent = r.sent

/-- What came in and what was done with it. -/
def OnCourse (db : Database σ) (s : Session σ) (bytes : Bytes) (r : Reader σ) : Prop :=
  if r.ended then Done db s bytes r else Reading db s bytes r

/-- A request is whole. -/
theorem done_of_ended {before request rest : Bytes} {sent : List Response} {s' : Session σ}
    {t : Turn σ} (h : Through db s before sent s') (ht : Takes db s' request t)
    (hended : t.ended = true) (hrest : rest = t.session.input) :
    (Session.run db { s with input := before ++ (request ++ rest) }).2 = t.session ∧
      (Session.run db { s with input := before ++ (request ++ rest) }).1.flatMap Round.sent =
        sent ++ t.sent := by
  obtain ⟨n, rounds, hn, hsent, hrun⟩ := h.run (request ++ rest)
  obtain ⟨n, rfl⟩ := Nat.exists_eq_succ_of_ne_zero (Nat.ne_zero_of_lt hn)
  rw [hrun, loop_of_takes ht, if_pos hended]
  constructor
  · rw [hrest]
  · rw [List.flatMap_append, hsent, List.flatMap_singleton]
    rfl

theorem onCourse_of_reading (hended : r.ended = false) (h : Reading db s bytes r) :
    OnCourse db s bytes r := by
  rw [OnCourse, hended]
  exact h

theorem OnCourse.reading (h : OnCourse db s bytes r) (hended : r.ended = false) :
    Reading db s bytes r := by
  rw [OnCourse, hended] at h
  exact h

theorem Reading.arrive (h : Reading db s bytes r) (more : Bytes) :
    Reading db s (bytes ++ more)
      { r with session := { r.session with input := r.session.input ++ more } } := by
  obtain ⟨⟨before, taken, hsplit, hthrough, htaken⟩, hgot⟩ := h
  refine ⟨⟨before, taken, ?_, hthrough, htaken⟩, hgot⟩
  rw [hsplit]
  simp only [List.append_assoc]

/-- A `read_exact` returns. -/
theorem onCourse_complete {before taken : Bytes} (hended : r.ended = false)
    (hthrough : Through db s before r.sent r.session) (htaken : r.awaits.Taken r.session.txn taken)
    (hgot : r.got.length = r.awaits.size) :
    OnCourse db s (before ++ (taken ++ r.got ++ r.session.input)) (r.complete db) := by
  rcases complete_advances db htaken hgot with ⟨a, hnext, htaken', hsize⟩ | ⟨t, hnext, ht⟩
  · rw [hnext]
    exact onCourse_of_reading hended ⟨⟨before, _, rfl, hthrough, htaken'⟩, hsize⟩
  · rw [hnext, OnCourse, finish]
    cases hlast : t.ended with
    | true =>
      obtain ⟨hsession, hsent⟩ := done_of_ended hthrough ht hlast ht.input.symm
      exact ⟨hsession, hsent⟩
    | false =>
      refine ⟨⟨_, [], ?_, hthrough.snoc ht hlast, .opcode⟩, Nat.one_pos⟩
      rw [ht.input]
      simp only [List.append_assoc, List.nil_append]

theorem Reading.read (h : Reading db s bytes r) {n : Nat} (hread : r.read db n = some r') :
    OnCourse db s bytes r' := by
  obtain ⟨⟨before, taken, hsplit, hthrough, htaken⟩, hgot⟩ := h
  rw [Reader.read] at hread
  split at hread
  · next hguard =>
    obtain ⟨hended, hpos, hn, hle⟩ := hguard
    have hbytes : bytes = before ++ (taken ++ (r.take n).got ++ (r.take n).session.input) := by
      rw [hsplit, take]
      simp only [List.append_assoc, List.take_append_drop]
    cases hread
    rw [hbytes]
    split
    · next hall => exact onCourse_complete hended hthrough htaken hall
    · next hpart =>
      refine onCourse_of_reading hended ⟨⟨before, taken, ?_, hthrough, htaken⟩, ?_⟩
      · rw [List.append_assoc]
      · have hlen : (r.take n).got.length = r.got.length + n := by
          rw [take, List.length_append, List.length_take_of_le hn]
        exact Nat.lt_of_le_of_ne (hlen ▸ hle) hpart
  · cases hread

/-- The run on what came in, when the stream ends here. -/
theorem Reading.run (h : Reading db s bytes r) (hinput : r.session.input = []) :
    (Session.run db { s with input := bytes }).2 = disconnect db r.session ∧
      (Session.run db { s with input := bytes }).1.flatMap Round.sent = r.sent := by
  obtain ⟨⟨before, taken, hsplit, hthrough, htaken⟩, hgot⟩ := h
  rw [hinput, List.append_nil] at hsplit
  obtain ⟨n, rounds, hn, hsent, hrun⟩ := hthrough.run (taken ++ r.got)
  obtain ⟨last, hloop, hlast⟩ := loop_of_cut db htaken hgot hn
  rw [hsplit, hrun, hloop, List.flatMap_append, hlast, hsent, List.append_nil]
  exact ⟨rfl, rfl⟩

theorem Reading.eof (h : Reading db s bytes r) (heof : r.eof db = some r') :
    OnCourse db s bytes r' := by
  rw [Reader.eof] at heof
  split at heof
  · next hguard =>
    cases heof
    obtain ⟨hsession, hsent⟩ := h.run hguard.2
    exact ⟨hsession, hsent⟩
  · cases heof

theorem running_of_step {e : ReadEvent} (hstep : r.step db e = some r') : r.ended = false := by
  cases hended : r.ended with
  | false => rfl
  | true =>
    cases e with
    | arrive more => simp [step, hended] at hstep
    | read n => simp [step, read, hended] at hstep
    | eof => simp [step, eof, hended] at hstep

theorem OnCourse.step (h : OnCourse db s bytes r) {e : ReadEvent} (hstep : r.step db e = some r') :
    OnCourse db s (bytes ++ arrived [e]) r' := by
  have hended := running_of_step hstep
  have hreading := h.reading hended
  cases e with
  | arrive more =>
    rw [Reader.step, if_pos hended] at hstep
    cases hstep
    rw [arrived, arrived, List.append_nil]
    exact onCourse_of_reading hended (hreading.arrive more)
  | read n =>
    rw [arrived, arrived, List.append_nil]
    exact hreading.read hstep
  | eof =>
    rw [arrived, arrived, List.append_nil]
    exact hreading.eof hstep

theorem OnCourse.run (h : OnCourse db s bytes r) {events : List ReadEvent}
    (hrun : KeyVDB.run (Reader.step db) r events = some r') :
    OnCourse db s (bytes ++ arrived events) r' := by
  induction events generalizing r bytes with
  | nil =>
    cases hrun
    rw [arrived, List.append_nil]
    exact h
  | cons e events ih =>
    obtain ⟨r₁, hstep, hrun⟩ := run_cons hrun
    have hdone := ih (h.step hstep) hrun
    have hevents : arrived (e :: events) = arrived [e] ++ arrived events :=
      arrived_append [e] events
    rw [hevents, ← List.append_assoc]
    exact hdone

/-- As long as there are bytes, the thread can read. -/
theorem Reading.exists_read (h : Reading db s bytes r) (hended : r.ended = false)
    (hinput : r.session.input ≠ []) : ∃ r', r.read db 1 = some r' := by
  have hpos := List.length_pos_iff.mpr hinput
  rw [Reader.read, if_pos ⟨hended, Nat.one_pos, hpos, h.got_lt⟩]
  exact ⟨_, rfl⟩

/-- What was sent so far is the start of what is sent. -/
theorem Reading.sent_isPrefix (h : Reading db s bytes r) :
    r.sent <+: (Session.run db { s with input := bytes }).1.flatMap Round.sent := by
  obtain ⟨⟨before, taken, hsplit, hthrough, -⟩, -⟩ := h
  obtain ⟨n, rounds, -, hsent, hrun⟩ := hthrough.run (taken ++ (r.got ++ r.session.input))
  rw [hsplit, hrun, List.flatMap_append, hsent]
  exact List.prefix_append _ _

theorem onCourse_start (db : Database σ) (s : Session σ) :
    OnCourse db s [] { session := { s with input := [] } } :=
  onCourse_of_reading rfl ⟨⟨[], [], rfl, .refl s, .opcode⟩, Nat.one_pos⟩

end Reader

/-- **A request may come in any number of parts.** Whatever the stream, and however many bytes each
`::read` returned: a thread that is done leaves the session, the database and the responses as
`Session.run` does on all that came in. Before that it has sent the first of these responses, it can
go on as long as there are bytes, and it has sent all of them once there are none. -/
theorem read_in_parts {σ : Type} (db : Database σ) (s : Session σ) (events : List ReadEvent)
    {r : Reader σ}
    (hrun : run (Reader.step db) { session := { s with input := [] } } events = some r) :
    let whole := Session.run db { s with input := arrived events }
    (r.ended = true → r.session = whole.2 ∧ r.sent = whole.1.flatMap Round.sent) ∧
      (r.ended = false → r.sent <+: whole.1.flatMap Round.sent ∧
        (r.session.input ≠ [] → ∃ r', r.step db (.read 1) = some r') ∧
        (r.session.input = [] → r.sent = whole.1.flatMap Round.sent)) := by
  have h := (Reader.onCourse_start db s).run hrun
  rw [List.nil_append] at h
  refine ⟨fun hended => ?_, fun hended => ?_⟩
  · rw [Reader.OnCourse, if_pos hended] at h
    exact ⟨h.session.symm, h.sent.symm⟩
  · have hreading := h.reading hended
    exact ⟨hreading.sent_isPrefix, hreading.exists_read hended,
      fun hinput => (hreading.run hinput).2.symm⟩

/-- A `BEGIN` and a `PUT` that is cut off within its value: the transaction is rolled back. -/
theorem read_in_parts_cut :
    let events : List ReadEvent := [.arrive [1, 0, 0], .read 1, .read 2, .arrive [0, 0, 3, 0],
      .read 2, .read 1, .arrive [0, 0, 7, 0, 1, 97, 0, 2, 98], .read 1, .read 2, .read 1, .read 1,
      .read 1, .read 1, .read 2, .read 1, .eof]
    let start : Session (KV × Option KV) := { input := [], db := (.empty, none) }
    ∃ r, run (Reader.step soleClient) { session := start } events = some r ∧ r.ended = true ∧
      r.sent = [.ok] ∧
      r.session = (Session.run soleClient { start with input := arrived events }).2 := by
  intro events start
  have hend : ((run (Reader.step soleClient) { session := start } events).map fun r =>
      (r.ended, r.sent)) = some (true, [.ok]) := by decide +kernel
  obtain ⟨r, hrun, hr⟩ := Option.map_eq_some_iff.mp hend
  obtain ⟨hended, hsent⟩ := Prod.mk.inj hr
  exact ⟨r, hrun, hended, hsent, ((read_in_parts soleClient start events hrun).1 hended).1⟩

end KeyVDB
