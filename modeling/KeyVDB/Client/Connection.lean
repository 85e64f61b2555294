import KeyVDB.Server.Protocol

/-!
# The client's connection

The state of a `Connection` of `client/src/connection.ts` and what its methods and the handlers of
its sockets do to it. The receive buffer and the two queues belong to the `Connection`, not to a
socket. A promise that `send` returned is named by a number; what settles it is a result of the
method or handler.

`drainResponses_wire` is the spec of the loop that cuts the buffer into responses: on the first
bytes of a sequence of responses it takes off the whole ones, in order, and keeps the rest.
-/

namespace KeyVDB

namespace Client

def HEADER_SIZE : Nat := 5

/-- A response parsed from the server. -/
structure Response where
  status : UInt8
  payload : Bytes
  deriving DecidableEq

/-- `net.Socket` objects. -/
abbrev SocketId := Nat

/-- Promises of `send`. -/
abbrev RequestId := Nat

/-- How a promise of `send` is settled. -/
inductive Outcome
  | resolved (res : Response)
  | rejected (err : String)
  deriving DecidableEq

structure Connection where
  socket : Option SocketId := none
  /-- Incoming data that hasn't been fully read yet. -/
  recvBuf : Bytes := []
  pendingResolvers : List RequestId := []
  pendingRejecters : List RequestId := []

/-- `Buffer.slice`. -/
def slice (buf : Bytes) (start stop : Nat) : Bytes := (buf.take stop).drop start

theorem slice_append {a b : Bytes} {start stop : Nat} (h : stop ≤ a.length) :
    slice (a ++ b) start stop = slice a start stop := by
  rw [slice, slice, List.take_append_of_le_length h]

namespace Connection

/-- The loop of `drainResponses`, a number of rounds. -/
def drain : Nat → Connection → Connection × List (RequestId × Outcome)
  | 0, c => (c, [])
  | rounds + 1, c =>
    if HEADER_SIZE ≤ c.recvBuf.length then
      let status := c.recvBuf.headD 0
      let payloadLen := beNat (slice c.recvBuf 1 HEADER_SIZE)
      let totalLen := HEADER_SIZE + payloadLen
      if c.recvBuf.length < totalLen then (c, [])
      else
        let payload := slice c.recvBuf HEADER_SIZE totalLen
        -- a response that nobody waits for is dropped
        let settled := (c.pendingResolvers.head?).map fun id => (id, Outcome.resolved ⟨status, payload⟩)
        let (c', rest) := drain rounds
          { c with
            recvBuf := c.recvBuf.drop totalLen
            pendingResolvers := c.pendingResolvers.tail
            pendingRejecters := c.pendingRejecters.tail }
        (c', settled.toList ++ rest)
    else (c, [])

/-- Every round takes a header off the buffer, so it has at least as many bytes as there are
rounds. -/
def drainResponses (c : Connection) : Connection × List (RequestId × Outcome) :=
  c.drain c.recvBuf.length

/-- The handler of `data`. -/
def onData (c : Connection) (chunk : Bytes) : Connection × List (RequestId × Outcome) :=
  { c with recvBuf := c.recvBuf ++ chunk }.drainResponses

/-- The loop of the handler of `close`, over the two queues. -/
def rejectPending (err : String) :
    List RequestId → List RequestId → List RequestId × List (RequestId × Outcome)
  | [], resolvers => (resolvers, [])
  | id :: rejecters, resolvers =>
    let (rest, settled) := rejectPending err rejecters resolvers.tail
    (rest, (id, .rejected err) :: settled)

/-- The handler of `close`. -/
def onClose (c : Connection) : Connection × List (RequestId × Outcome) :=
  let (resolvers, settled) :=
    rejectPending "KeyVDB: connection closed" c.pendingRejecters c.pendingResolvers
  ({ c with pendingRejecters := [], pendingResolvers := resolvers }, settled)

/-- `send`: the socket the message is written to, or the error that rejects the promise. -/
def send (destroyed : SocketId → Bool) (id : RequestId) (c : Connection) :
    Except String (SocketId × Connection) :=
  match c.socket with
  | none => .error "KeyVDB: not connected"
  | some s =>
    if destroyed s then .error "KeyVDB: not connected"
    else .ok (s,
      { c with
        pendingResolvers := c.pendingResolvers ++ [id]
        pendingRejecters := c.pendingRejecters ++ [id] })

end Connection

/-! ## Whole responses -/

/-- A response whose payload length fits its field. -/
structure Reply extends Response where
  fits : payload.length < 2 ^ 32

/-- The bytes `send_response` writes. -/
def Reply.encode (r : Reply) : Bytes :=
  r.status :: (beBytes 4 r.payload.length ++ r.payload)

/-- The bytes of a sequence of responses. -/
def wire (rs : List Reply) : Bytes := rs.flatMap Reply.encode

@[simp] theorem wire_nil : wire [] = [] := rfl

@[simp] theorem wire_cons (r : Reply) (rs : List Reply) : wire (r :: rs) = r.encode ++ wire rs := rfl

@[simp] theorem wire_append (rs rs' : List Reply) : wire (rs ++ rs') = wire rs ++ wire rs' :=
  List.flatMap_append

namespace Reply

@[simp] theorem length_encode (r : Reply) :
    r.encode.length = HEADER_SIZE + r.payload.length := by
  simp [encode, HEADER_SIZE]
  omega

/-- The length field of the header. -/
theorem payloadLen_encode (r : Reply) :
    beNat (slice r.encode 1 HEADER_SIZE) = r.payload.length := by
  have hfield : slice r.encode 1 HEADER_SIZE = beBytes 4 r.payload.length := by
    rw [slice, encode, HEADER_SIZE, List.take_succ_cons, List.drop_succ_cons, List.drop_zero]
    exact take_append_field (length_beBytes _ _)
  rw [hfield]
  exact beNat_beBytes_of_lt r.fits

theorem payload_encode (r : Reply) :
    slice r.encode HEADER_SIZE (HEADER_SIZE + r.payload.length) = r.payload := by
  rw [slice, List.take_of_length_le (length_encode r).le, encode, HEADER_SIZE, List.drop_succ_cons]
  exact drop_append_field (length_beBytes _ _)

end Reply

/-! ## The loop -/

namespace Connection

/-- The number of rounds does not matter once it is large enough. -/
theorem drain_congr {n k : Nat} {c : Connection} (hn : c.recvBuf.length ≤ n)
    (hk : c.recvBuf.length ≤ k) : c.drain n = c.drain k := by
  induction n generalizing c k with
  | zero =>
    have hempty : ¬ HEADER_SIZE ≤ c.recvBuf.length := by
      rw [HEADER_SIZE]
      omega
    cases k with
    | zero => rfl
    | succ k => rw [drain, drain, if_neg hempty]
  | succ n ih =>
    cases k with
    | zero =>
      have hempty : ¬ HEADER_SIZE ≤ c.recvBuf.length := by
        rw [HEADER_SIZE]
        omega
      rw [drain, drain, if_neg hempty]
    | succ k =>
      have hdrop : ∀ m, (c.recvBuf.drop (HEADER_SIZE + m)).length ≤ c.recvBuf.length - 1 := by
        intro m
        rw [List.length_drop, HEADER_SIZE]
        omega
      rw [drain, drain]
      split
      · dsimp only
        rw [ih (k := k) ((hdrop _).trans (by omega)) ((hdrop _).trans (by omega))]
      · rfl

/-- A round of the loop. -/
theorem drainResponses_whole {c : Connection} {r : Reply} {rest : Bytes}
    (hbuf : c.recvBuf = r.encode ++ rest) :
    c.drainResponses =
      let (c', settled) := drainResponses
        { c with
          recvBuf := rest
          pendingResolvers := c.pendingResolvers.tail
          pendingRejecters := c.pendingRejecters.tail }
      (c', ((c.pendingResolvers.head?).map fun id => (id, .resolved r.toResponse)).toList ++ settled) := by
  have hlen : c.recvBuf.length = HEADER_SIZE + r.payload.length + rest.length := by
    rw [hbuf, List.length_append, Reply.length_encode]
  have hhead : HEADER_SIZE ≤ r.encode.length := by
    rw [Reply.length_encode]
    exact Nat.le_add_right _ _
  rw [drainResponses, drain_congr le_rfl (Nat.le_succ _), drain, if_pos (by omega)]
  have hpayloadLen : beNat (slice c.recvBuf 1 HEADER_SIZE) = r.payload.length := by
    rw [hbuf, slice_append hhead, Reply.payloadLen_encode]
  rw [hpayloadLen, if_neg (by omega)]
  have hstatus : c.recvBuf.headD 0 = r.status := by rw [hbuf]; rfl
  have hpayload : slice c.recvBuf HEADER_SIZE (HEADER_SIZE + r.payload.length) =
      r.payload := by
    rw [hbuf, slice_append (by rw [Reply.length_encode]), Reply.payload_encode]
  have hdrop : c.recvBuf.drop (HEADER_SIZE + r.payload.length) = rest := by
    rw [hbuf]
    exact drop_append_field (Reply.length_encode r)
  dsimp only
  rw [hstatus, hpayload, hdrop, drain_congr (k := rest.length) (by dsimp only; omega) le_rfl]
  rfl

/-- The loop stops where the buffer does not hold a whole response. -/
theorem drainResponses_part {c : Connection} {r : Reply} (hbuf : c.recvBuf <+: r.encode)
    (hlen : c.recvBuf.length < r.encode.length) : c.drainResponses = (c, []) := by
  obtain ⟨rest, hrest⟩ := hbuf
  rw [drainResponses, drain_congr le_rfl (Nat.le_succ _), drain]
  split
  · next hhead =>
    have hpayloadLen : beNat (slice c.recvBuf 1 HEADER_SIZE) = r.payload.length := by
      rw [← Reply.payloadLen_encode, ← hrest, slice_append hhead]
    dsimp only
    rw [hpayloadLen, if_pos (by rw [← Reply.length_encode]; exact hlen)]
  · rfl

/-- **The loop on the first bytes of a sequence of responses** takes off the whole ones. -/
theorem drainResponses_wire {c : Connection} {rs : List Reply} (hbuf : c.recvBuf <+: wire rs) :
    ∃ j rest, j ≤ rs.length ∧ c.recvBuf = wire (rs.take j) ++ rest ∧
      (∀ r, rs[j]? = some r → rest.length < r.encode.length) ∧
      c.drainResponses.1 = { c with
        recvBuf := rest
        pendingResolvers := c.pendingResolvers.drop j
        pendingRejecters := c.pendingRejecters.drop j } ∧
      c.drainResponses.2 =
        (c.pendingResolvers.zip (rs.take j)).map fun x => (x.1, .resolved x.2.toResponse) := by
  induction rs generalizing c with
  | nil =>
    have hempty : c.recvBuf = [] := List.prefix_nil.mp hbuf
    have hdrain : c.drainResponses = (c, []) := by rw [drainResponses, hempty]; rfl
    rw [hdrain]
    exact ⟨0, [], le_rfl, hempty, nofun, by rw [← hempty]; rfl, by simp⟩
  | cons r rs ih =>
    rw [wire_cons] at hbuf
    by_cases hwhole : r.encode.length ≤ c.recvBuf.length
    · obtain ⟨rest, hrest⟩ := List.prefix_of_prefix_length_le (List.prefix_append _ _) hbuf hwhole
      rw [← hrest, List.prefix_append_right_inj] at hbuf
      obtain ⟨j, rest', hj, hsplit, hshort, hc', hsettled⟩ := ih
        (c := { c with
          recvBuf := rest
          pendingResolvers := c.pendingResolvers.tail
          pendingRejecters := c.pendingRejecters.tail }) hbuf
      rw [drainResponses_whole hrest.symm]
      dsimp only at hsplit hc' hsettled ⊢
      refine ⟨j + 1, rest', Nat.succ_le_succ hj, ?_, ?_, ?_, ?_⟩
      · rw [← hrest, hsplit]
        simp
      · simpa using hshort
      · rw [hc']
        simp
      · rw [hsettled]
        cases c.pendingResolvers with
        | nil => simp
        | cons id q => simp
    · have hpart : c.recvBuf <+: r.encode :=
        List.prefix_of_prefix_length_le hbuf (List.prefix_append _ _) (by omega)
      rw [drainResponses_part hpart (by omega)]
      refine ⟨0, c.recvBuf, Nat.zero_le _, rfl, ?_, rfl, by simp⟩
      intro r' hr'
      cases hr'
      omega

/-- The handler of `data`: the first `j` requests get the first `j` answers. -/
theorem onData_wire {c : Connection} {chunk : Bytes} {rs : List Reply}
    (hbuf : c.recvBuf ++ chunk <+: wire rs) :
    ∃ j rest, j ≤ rs.length ∧ c.recvBuf ++ chunk = wire (rs.take j) ++ rest ∧
      (∀ r, rs[j]? = some r → rest.length < r.encode.length) ∧
      (c.onData chunk).1 = { c with
        recvBuf := rest
        pendingResolvers := c.pendingResolvers.drop j
        pendingRejecters := c.pendingRejecters.drop j } ∧
      (c.onData chunk).2 =
        (c.pendingResolvers.zip (rs.take j)).map fun x => (x.1, .resolved x.2.toResponse) :=
  drainResponses_wire (c := { c with recvBuf := c.recvBuf ++ chunk }) hbuf

/-- The handler of `close` rejects every request that is pending. -/
theorem rejectPending_eq (err : String) (rejecters resolvers : List RequestId) :
    rejectPending err rejecters resolvers =
      (resolvers.drop rejecters.length, rejecters.map fun id => (id, .rejected err)) := by
  induction rejecters generalizing resolvers with
  | nil => rfl
  | cons id rejecters ih =>
    rw [rejectPending, ih]
    simp

end Connection

end Client

end KeyVDB
