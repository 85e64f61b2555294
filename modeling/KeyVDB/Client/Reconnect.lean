import KeyVDB.Client.Connection
import KeyVDB.Lib.Run
import Mathlib.Logic.Function.Basic

/-!
# Connections one after the other

A `Connection` together with all the sockets it ever opened and the server behind each of them. A
socket is followed through its life, with what was written to it, what the server answered and how
many of these bytes have come in; a step is a call of the client, an event of a socket or an answer
of the server. After `destroy` a socket has no event but `close`.

Requests and answers are matched by position: the server answers the requests of a socket in order,
one answer each. `Isolated` says that the requests of a socket are settled by that socket alone and
with the answers of the server. As the buffer and the queues are shared, this is so in the runs that
are `Undisturbed`.
-/

namespace KeyVDB

namespace Client

/-- The life of a `net.Socket`. -/
inductive Phase
  | absent
  | connecting
  | open
  /-- The server has ended its side. -/
  | ended
  /-- `close` is still to come. -/
  | destroyed
  | closed
  deriving DecidableEq

/-- The property `destroyed` of a socket. -/
def Phase.isDestroyed : Phase → Bool
  | destroyed => true
  | closed => true
  | _ => false

/-- The method `destroy` of a socket. -/
def Phase.destroy : Phase → Phase
  | closed => closed
  | _ => destroyed

/-- A socket and the server behind it. -/
structure Socket where
  phase : Phase := .absent
  /-- The requests written to the socket. -/
  written : List (RequestId × Bytes) := []
  /-- The answers of the server. -/
  replies : List Reply := []
  /-- How many bytes of the answers have come in. -/
  received : Nat := 0

namespace Socket

def ids (k : Socket) : List RequestId := k.written.map Prod.fst

theorem ids_write (k : Socket) (id : RequestId) (msg : Bytes) :
    Socket.ids { k with written := k.written ++ [(id, msg)] } = k.ids ++ [id] :=
  List.map_append

/-- The bytes of a `data` event. -/
def chunk (k : Socket) (n : Nat) : Bytes := ((wire k.replies).drop k.received).take n

end Socket

/-- A promise of `send` that was settled, with the socket whose event did it. -/
structure Settlement where
  source : Option SocketId
  request : RequestId
  outcome : Outcome
  deriving DecidableEq

structure System where
  conn : Connection := {}
  sockets : SocketId → Socket := fun _ => {}
  /-- The next request. -/
  next : RequestId := 0
  /-- The socket that had the last `data` event. -/
  fed : Option SocketId := none
  settled : List Settlement := []

inductive Event
  /-- `connect`, with the new socket. -/
  | connect (s : SocketId)
  | onConnect (s : SocketId)
  | onData (s : SocketId) (n : Nat)
  | ended (s : SocketId)
  /-- The timeout of `connect`, an error, or the end of both sides. -/
  | destroy (s : SocketId)
  | onClose (s : SocketId)
  | send (msg : Bytes)
  | close
  /-- The server answers the next request on the socket. -/
  | reply (s : SocketId) (r : Reply)

namespace System

/-- Changes one socket. -/
def update (st : System) (s : SocketId) (k : Socket) : System :=
  { st with sockets := Function.update st.sockets s k }

/-- Moves a socket on in its life. -/
def setPhase (st : System) (s : SocketId) (phase : Phase) : System :=
  st.update s { st.sockets s with phase := phase }

/-- The connection after a handler of the socket `s`, and what it settled. -/
def handled (st : System) (s : SocketId) (r : Connection × List (RequestId × Outcome)) : System :=
  { st with conn := r.1, settled := st.settled ++ r.2.map fun x => ⟨some s, x.1, x.2⟩ }

/-- A step; `none` if the event cannot come. -/
def step (st : System) : Event → Option System
  | .connect s =>
    if (st.sockets s).phase = .absent then some (st.setPhase s .connecting) else none
  | .onConnect s =>
    if (st.sockets s).phase = .connecting then
      some { st.setPhase s .open with conn := { st.conn with socket := some s } }
    else none
  | .onData s n =>
    let k := st.sockets s
    if k.phase = .open ∧ 0 < n ∧ k.received + n ≤ (wire k.replies).length then
      some { (st.handled s (st.conn.onData (k.chunk n))).update s
        { k with received := k.received + n } with fed := some s }
    else none
  | .ended s => if (st.sockets s).phase = .open then some (st.setPhase s .ended) else none
  | .destroy s =>
    if (st.sockets s).phase ∈ [.connecting, .open, .ended] then some (st.setPhase s .destroyed)
    else none
  | .onClose s =>
    if (st.sockets s).phase = .destroyed then
      some ((st.handled s st.conn.onClose).setPhase s .closed)
    else none
  | .send msg =>
    match st.conn.send (fun s => (st.sockets s).phase.isDestroyed) st.next with
    | .error err =>
      some { st with next := st.next + 1, settled := st.settled ++ [⟨none, st.next, .rejected err⟩] }
    | .ok (s, conn) =>
      let k := st.sockets s
      some { st.update s { k with written := k.written ++ [(st.next, msg)] } with
        conn := conn, next := st.next + 1 }
  | .close =>
    match st.conn.socket with
    | none => some st
    | some s =>
      some { st.setPhase s (st.sockets s).phase.destroy with conn := { st.conn with socket := none } }
  | .reply s r =>
    let k := st.sockets s
    if k.replies.length < k.written.length then
      some (st.update s { k with replies := k.replies ++ [r] })
    else none

/-! ## Isolation -/

/-- The promise was settled by the socket its request went to; if it was resolved, with the answer of
the server to this request. Without a socket it was rejected. -/
def Sound (st : System) (e : Settlement) : Prop :=
  match e.source with
  | none => ∃ err, e.outcome = .rejected err
  | some s => ∃ k : Nat, (st.sockets s).ids[k]? = some e.request ∧
      ∀ res, e.outcome = .resolved res → ((st.sockets s).replies[k]?).map Reply.toResponse = some res

/-- No connection leaks into another: what settles a request comes from its own connection, and every
answer that has come in whole has resolved its request. -/
structure Isolated (st : System) : Prop where
  sound : ∀ e ∈ st.settled, st.Sound e
  framed : ∀ (s : SocketId) (k : Nat) (id : RequestId) (r : Reply),
    (st.sockets s).ids[k]? = some id → (st.sockets s).replies[k]? = some r →
    (wire ((st.sockets s).replies.take (k + 1))).length ≤ (st.sockets s).received →
    ⟨some s, id, .resolved r.toResponse⟩ ∈ st.settled

/-- The requests of the socket that wait for an answer. -/
def pendingOf (st : System) (s : SocketId) : List RequestId :=
  st.conn.pendingResolvers.filter fun id => id ∈ (st.sockets s).ids

/-- At a `data` event the buffer holds no byte of another socket and the requests of the socket come
first in the queue; at a `close` event there are no requests of another socket. -/
def Undisturbed (st : System) : Event → Prop
  | .onData s _ => (st.conn.recvBuf = [] ∨ st.fed = some s) ∧
      st.pendingOf s <+: st.conn.pendingResolvers
  | .onClose s => ∀ id ∈ st.conn.pendingRejecters, id ∈ (st.sockets s).ids
  | _ => True

instance decidableUndisturbed (st : System) : (a : Event) → Decidable (st.Undisturbed a)
  | .onData _ _ => inferInstanceAs (Decidable (_ ∧ _))
  | .onClose _ => inferInstanceAs (Decidable (∀ id ∈ st.conn.pendingRejecters, _))
  | .connect _ | .onConnect _ | .ended _ | .destroy _ | .send _ | .close | .reply _ _ =>
    inferInstanceAs (Decidable True)

end System

/-! ## One socket -/

/-- What is known of a socket: the first `d` answers have resolved their requests, `rest` is what
came in after them, and `pending` is what still waits. -/
structure Socket.Follows (k : Socket) (d : Nat) (rest : Bytes) (pending : List RequestId) : Prop where
  answered : k.replies.length ≤ k.written.length
  decoded : d ≤ k.replies.length
  received : k.received ≤ (wire k.replies).length
  stream : (wire k.replies).take k.received = wire (k.replies.take d) ++ rest
  short : ∀ r, k.replies[d]? = some r → rest.length < r.encode.length
  pending : pending = if k.phase = .closed then [] else k.ids.drop d

namespace Socket.Follows

variable {k : Socket} {d : Nat} {rest : Bytes} {pending : List RequestId}

theorem setPhase {phase : Phase} (h : k.Follows d rest pending)
    (hclosed : phase = .closed ↔ k.phase = .closed) :
    Socket.Follows { k with phase := phase } d rest pending := by
  refine ⟨h.answered, h.decoded, h.received, h.stream, h.short, ?_⟩
  rw [h.pending]
  exact if_congr hclosed.symm rfl rfl

theorem close (h : k.Follows d rest pending) :
    Socket.Follows { k with phase := .closed } d rest [] :=
  ⟨h.answered, h.decoded, h.received, h.stream, h.short, (if_pos rfl).symm⟩

/-- A request is written. -/
theorem write (h : k.Follows d rest pending) (hphase : k.phase ≠ .closed) (id : RequestId)
    (msg : Bytes) :
    Socket.Follows { k with written := k.written ++ [(id, msg)] } d rest (pending ++ [id]) := by
  refine ⟨?_, h.decoded, h.received, h.stream, h.short, ?_⟩
  · rw [List.length_append]
    exact h.answered.trans (Nat.le_add_right _ _)
  · have hd : d ≤ k.ids.length := by
      rw [Socket.ids, List.length_map]
      exact h.decoded.trans h.answered
    rw [h.pending, if_neg hphase, if_neg (by exact hphase), Socket.ids_write,
      List.drop_append_of_le_length hd]

/-- The server answers. -/
theorem reply (h : k.Follows d rest pending) (hlt : k.replies.length < k.written.length)
    (r : Reply) : Socket.Follows { k with replies := k.replies ++ [r] } d rest pending := by
  have htake : (wire (k.replies ++ [r])).take k.received = (wire k.replies).take k.received := by
    rw [wire_append, List.take_append_of_le_length h.received]
  refine ⟨?_, ?_, ?_, ?_, ?_, h.pending⟩
  · rw [List.length_append]
    exact hlt
  · rw [List.length_append]
    exact h.decoded.trans (Nat.le_add_right _ _)
  · rw [wire_append, List.length_append]
    exact h.received.trans (Nat.le_add_right _ _)
  · rw [htake, List.take_append_of_le_length h.decoded]
    exact h.stream
  · intro r' hr'
    dsimp only at hr'
    rcases h.decoded.lt_or_eq with hd | hd
    · rw [List.getElem?_append_left hd] at hr'
      exact h.short r' hr'
    · -- all the answers have come in, and nothing is left
      have hlen := congrArg List.length h.stream
      rw [hd, List.take_length, List.length_append, List.length_take] at hlen
      rw [Reply.length_encode, HEADER_SIZE]
      omega

/-- The buffer with a new chunk begins the answers that are still to come. -/
theorem prefix_chunk (h : k.Follows d rest pending) (n : Nat) :
    rest ++ k.chunk n <+: wire (k.replies.drop d) := by
  have hwire : wire k.replies = wire (k.replies.take d) ++ wire (k.replies.drop d) := by
    rw [← wire_append, List.take_append_drop]
  have htake : wire (k.replies.take d) ++ (rest ++ k.chunk n) =
      (wire k.replies).take (k.received + n) := by
    rw [List.take_add, h.stream, Socket.chunk, List.append_assoc]
  have hprefix := List.take_prefix (k.received + n) (wire k.replies)
  rw [← htake, hwire] at hprefix
  exact (List.prefix_append_right_inj _).mp hprefix

/-- A chunk comes in, and the loop takes off `j` answers. -/
theorem data (h : k.Follows d rest pending) (hphase : k.phase ≠ .closed) {n j : Nat}
    (hn : k.received + n ≤ (wire k.replies).length) {rest' : Bytes}
    (hj : j ≤ (k.replies.drop d).length)
    (hsplit : rest ++ k.chunk n = wire ((k.replies.drop d).take j) ++ rest')
    (hshort : ∀ r, (k.replies.drop d)[j]? = some r → rest'.length < r.encode.length) :
    Socket.Follows { k with received := k.received + n } (d + j) rest' (pending.drop j) := by
  have hd := h.decoded
  rw [List.length_drop] at hj
  refine ⟨h.answered, by dsimp only; omega, hn, ?_, ?_, ?_⟩
  · rw [List.take_add, h.stream, List.append_assoc, List.take_add, wire_append, List.append_assoc,
      ← hsplit]
    rfl
  · intro r hr
    exact hshort r (by rw [List.getElem?_drop]; exact hr)
  · rw [h.pending, if_neg hphase, if_neg (by exact hphase), List.drop_drop]
    rfl

end Socket.Follows

/-! ## The system -/

namespace System

variable {st st' : System} {d : SocketId → Nat} {s : SocketId}

/-- The bytes of the socket that are in the buffer. -/
def rest (st : System) (s : SocketId) : Bytes := if st.fed = some s then st.conn.recvBuf else []

structure Inv (st : System) (d : SocketId → Nat) : Prop where
  queues : st.conn.pendingRejecters = st.conn.pendingResolvers
  fresh : ∀ s, ∀ id ∈ (st.sockets s).ids, id < st.next
  waiting : ∀ id ∈ st.conn.pendingResolvers, id < st.next
  apart : ∀ s s' id, id ∈ (st.sockets s).ids → id ∈ (st.sockets s').ids → s = s'
  follows : ∀ s, (st.sockets s).Follows (d s) (st.rest s) (st.pendingOf s)
  sound : ∀ e ∈ st.settled, st.Sound e
  done : ∀ (s : SocketId) (k : Nat) (id : RequestId) (r : Reply), k < d s →
    (st.sockets s).ids[k]? = some id → (st.sockets s).replies[k]? = some r →
    ⟨some s, id, .resolved r.toResponse⟩ ∈ st.settled

theorem Inv.init : Inv {} fun _ => 0 := by
  refine ⟨rfl, nofun, nofun, nofun, ?_, nofun, nofun⟩
  intro s
  exact ⟨le_rfl, le_rfl, le_rfl, rfl, nofun, rfl⟩

/-- An answer that has come in whole is one of the first `d s`. -/
theorem Inv.isolated (h : Inv st d) : st.Isolated := by
  refine ⟨h.sound, ?_⟩
  intro s k id r hid hr hlen
  refine h.done s k id r ?_ hid hr
  by_contra hk
  obtain ⟨hanswered, hdecoded, hreceived, hstream, hshort, -⟩ := h.follows s
  have hd : d s ≤ k := Nat.le_of_not_lt hk
  have hks : k < (st.sockets s).replies.length := (List.getElem?_eq_some_iff.mp hr).1
  have hget := List.getElem?_eq_getElem (hd.trans_lt hks)
  have hrest := hshort _ hget
  have htotal := congrArg List.length hstream
  rw [List.length_take, List.length_append, Nat.min_eq_left hreceived] at htotal
  -- the answer at `d s` is among the first `k + 1`
  have hmono : (wire ((st.sockets s).replies.take (d s + 1))).length ≤
      (wire ((st.sockets s).replies.take (k + 1))).length := by
    obtain ⟨more, hmore⟩ := List.take_prefix_take_left (l := (st.sockets s).replies)
      (Nat.succ_le_succ hd)
    rw [← hmore, wire_append, List.length_append]
    exact Nat.le_add_right _ _
  rw [List.take_add_one, hget, wire_append, List.length_append] at hmono
  simp only [Option.toList_some, wire_cons, wire_nil, List.append_nil] at hmono
  omega

theorem getElem?_eq_some_mono {α : Type} {l l' : List α} {k : Nat} {a : α} (h : l <+: l')
    (hk : l[k]? = some a) : l'[k]? = some a := by
  obtain ⟨hlt, rfl⟩ := List.getElem?_eq_some_iff.mp hk
  exact List.prefix_iff_getElem?.mp h k hlt

/-- What was written and answered stays. -/
theorem Sound.mono {e : Settlement} (h : st.Sound e)
    (hids : ∀ s, (st.sockets s).ids <+: (st'.sockets s).ids)
    (hreplies : ∀ s, (st.sockets s).replies <+: (st'.sockets s).replies) : st'.Sound e := by
  unfold Sound at h ⊢
  split at h
  · exact h
  · next s hs =>
    obtain ⟨k, hid, hres⟩ := h
    refine ⟨k, getElem?_eq_some_mono (hids s) hid, ?_⟩
    intro res hout
    obtain ⟨r, hr, hval⟩ := Option.map_eq_some_iff.mp (hres res hout)
    rw [getElem?_eq_some_mono (hreplies s) hr, Option.map_some, hval]

/-! ## Steps -/

@[simp] theorem update_sockets_self (st : System) (s : SocketId) (k : Socket) :
    (st.update s k).sockets s = k :=
  Function.update_self ..

theorem update_sockets_of_ne (st : System) (k : Socket) {s s' : SocketId} (h : s' ≠ s) :
    (st.update s k).sockets s' = st.sockets s' :=
  Function.update_of_ne h ..

theorem update_ids (st : System) {k : Socket} (h : k.ids = (st.sockets s).ids) (s' : SocketId) :
    ((st.update s k).sockets s').ids = (st.sockets s').ids := by
  by_cases hs : s' = s
  · subst hs
    rw [update_sockets_self, h]
  · rw [update_sockets_of_ne _ _ hs]

theorem update_replies (st : System) {k : Socket} (h : (st.sockets s).replies <+: k.replies)
    (s' : SocketId) :
    (st.sockets s').replies <+: ((st.update s k).sockets s').replies := by
  by_cases hs : s' = s
  · subst hs
    rw [update_sockets_self]
    exact h
  · simp only [update_sockets_of_ne _ _ hs, List.prefix_rfl]

/-- One socket at a time. -/
theorem follows_update (st : System) {k : Socket} {f : SocketId → Nat} {rest : SocketId → Bytes}
    {pending : SocketId → List RequestId} (hself : k.Follows (f s) (rest s) (pending s))
    (hother : ∀ s', s' ≠ s → (st.sockets s').Follows (f s') (rest s') (pending s')) (s' : SocketId) :
    ((st.update s k).sockets s').Follows (f s') (rest s') (pending s') := by
  by_cases hs : s' = s
  · subst hs
    rw [update_sockets_self]
    exact hself
  · rw [update_sockets_of_ne _ _ hs]
    exact hother s' hs

/-- A step that writes no request: what there is to show. -/
theorem Inv.of_ids {d' : SocketId → Nat} {new : List Settlement} (h : Inv st d)
    (hids : ∀ s, (st'.sockets s).ids = (st.sockets s).ids)
    (hreplies : ∀ s, (st.sockets s).replies <+: (st'.sockets s).replies) (hnext : st'.next = st.next)
    (hqueues : st'.conn.pendingRejecters = st'.conn.pendingResolvers)
    (hwaiting : ∀ id ∈ st'.conn.pendingResolvers, id ∈ st.conn.pendingResolvers)
    (hfollows : ∀ s, (st'.sockets s).Follows (d' s) (st'.rest s) (st'.pendingOf s))
    (hsettled : st'.settled = st.settled ++ new) (hsound : ∀ e ∈ new, st'.Sound e)
    (hdone : ∀ (s : SocketId) (k : Nat) (id : RequestId) (r : Reply), d s ≤ k → k < d' s →
      (st.sockets s).ids[k]? = some id → (st'.sockets s).replies[k]? = some r →
      ⟨some s, id, .resolved r.toResponse⟩ ∈ new) : Inv st' d' := by
  refine ⟨hqueues, ?_, ?_, ?_, hfollows, ?_, ?_⟩
  · intro s id hid
    rw [hnext]
    exact h.fresh s id (hids s ▸ hid)
  · intro id hid
    rw [hnext]
    exact h.waiting id (hwaiting id hid)
  · intro s s' id hid hid'
    exact h.apart s s' id (hids s ▸ hid) (hids s' ▸ hid')
  · intro e he
    rw [hsettled] at he
    rcases List.mem_append.mp he with he | he
    · exact (h.sound e he).mono (fun s => hids s ▸ List.prefix_rfl) hreplies
    · exact hsound e he
  · intro s k id r hk hid hr
    rw [hids s] at hid
    rw [hsettled]
    by_cases hd : d s ≤ k
    · exact List.mem_append_right _ (hdone s k id r hd hk hid hr)
    · have hlt : k < (st.sockets s).replies.length := by
        have := (h.follows s).decoded
        omega
      have hget := List.prefix_iff_getElem?.mp (hreplies s) k hlt
      rw [hr] at hget
      cases hget
      exact List.mem_append_left _
        (h.done s k id _ (Nat.lt_of_not_le hd) hid (List.getElem?_eq_getElem hlt))

theorem pendingOf_congr (hids : ∀ s, (st'.sockets s).ids = (st.sockets s).ids)
    (hpending : st'.conn.pendingResolvers = st.conn.pendingResolvers) (s : SocketId) :
    st'.pendingOf s = st.pendingOf s := by
  unfold pendingOf
  rw [hids s, hpending]

/-- A socket moves on in its life, short of `close`. -/
theorem Inv.setPhase (h : Inv st d) {phase : Phase} (socket : Option SocketId)
    (hclosed : phase = .closed ↔ (st.sockets s).phase = .closed) :
    Inv { st.setPhase s phase with conn := { st.conn with socket := socket } } d := by
  have hids := update_ids st (k := { st.sockets s with phase := phase }) rfl
  have hpending : ∀ s', System.pendingOf { st.setPhase s phase with
      conn := { st.conn with socket := socket } } s' = st.pendingOf s' := pendingOf_congr hids rfl
  refine h.of_ids hids (update_replies st List.prefix_rfl) rfl h.queues (fun _ hid => hid) ?_
    (List.append_nil _).symm nofun (fun s k id r hd hk => absurd hk (Nat.not_lt.mpr hd))
  simp only [hpending]
  exact follows_update st ((h.follows s).setPhase hclosed) fun s' _ => h.follows s'

/-- The server answers. -/
theorem Inv.reply (h : Inv st d) (r : Reply)
    (hlt : (st.sockets s).replies.length < (st.sockets s).written.length) :
    Inv (st.update s { st.sockets s with replies := (st.sockets s).replies ++ [r] }) d := by
  have hids := update_ids st (k := { st.sockets s with replies := (st.sockets s).replies ++ [r] }) rfl
  refine h.of_ids hids (update_replies st (List.prefix_append _ _)) rfl h.queues (fun _ hid => hid) ?_
    (List.append_nil _).symm nofun (fun s k id r hd hk => absurd hk (Nat.not_lt.mpr hd))
  simp only [pendingOf_congr hids rfl]
  exact follows_update st ((h.follows s).reply hlt r) fun s' _ => h.follows s'

/-- The handler of `close`, with no request of another socket in the queue. -/
theorem Inv.onClose (h : Inv st d) (hall : ∀ id ∈ st.conn.pendingRejecters, id ∈ (st.sockets s).ids) :
    Inv ((st.handled s st.conn.onClose).setPhase s .closed) d := by
  have hclose : st.conn.onClose = ({ st.conn with pendingRejecters := [], pendingResolvers := [] },
      st.conn.pendingRejecters.map fun id => (id, .rejected "KeyVDB: connection closed")) := by
    rw [Connection.onClose, Connection.rejectPending_eq, h.queues, List.drop_length]
  rw [hclose]
  have hids := update_ids st (k := { st.sockets s with phase := .closed }) rfl
  refine h.of_ids hids (update_replies st List.prefix_rfl) rfl rfl nofun ?_ rfl ?_
    (fun s k id r hd hk => absurd hk (Nat.not_lt.mpr hd))
  · refine follows_update st (h.follows s).close ?_
    -- no request of another socket was pending
    intro s' hs
    have hnone : st.pendingOf s' = [] := by
      refine List.filter_eq_nil_iff.mpr ?_
      intro id hid hmem
      rw [← h.queues] at hid
      exact hs (h.apart s' s id (of_decide_eq_true hmem) (hall id hid))
    have hfollows := h.follows s'
    rw [hnone] at hfollows
    exact hfollows
  · intro e he
    simp only [List.map_map, List.mem_map, Function.comp_apply] at he
    obtain ⟨id, hid, rfl⟩ := he
    obtain ⟨k, hk⟩ := List.mem_iff_getElem?.mp (hall id hid)
    exact ⟨k, (hids s).symm ▸ hk, nofun⟩

/-- `st'` is the system after `send` has written a request to the socket. -/
structure Sent (st st' : System) (s : SocketId) (msg : Bytes) : Prop where
  sockets : st'.sockets = (st.update s { st.sockets s with
    written := (st.sockets s).written ++ [(st.next, msg)] }).sockets
  conn : st'.conn = { st.conn with
    pendingResolvers := st.conn.pendingResolvers ++ [st.next]
    pendingRejecters := st.conn.pendingRejecters ++ [st.next] }
  next : st'.next = st.next + 1
  fed : st'.fed = st.fed
  settled : st'.settled = st.settled

namespace Sent

variable {msg : Bytes}

theorem ids_self (h : Sent st st' s msg) : (st'.sockets s).ids = (st.sockets s).ids ++ [st.next] := by
  rw [h.sockets, update_sockets_self, Socket.ids_write]

theorem sockets_of_ne (h : Sent st st' s msg) {s' : SocketId} (hs : s' ≠ s) :
    st'.sockets s' = st.sockets s' := by
  rw [h.sockets, update_sockets_of_ne _ _ hs]

theorem replies (h : Sent st st' s msg) (s' : SocketId) :
    (st'.sockets s').replies = (st.sockets s').replies := by
  by_cases hs : s' = s
  · subst hs
    rw [h.sockets, update_sockets_self]
  · rw [h.sockets_of_ne hs]

theorem ids_prefix (h : Sent st st' s msg) (s' : SocketId) :
    (st.sockets s').ids <+: (st'.sockets s').ids := by
  by_cases hs : s' = s
  · subst hs
    rw [h.ids_self]
    exact List.prefix_append _ _
  · simp only [h.sockets_of_ne hs, List.prefix_rfl]

theorem mem_ids (h : Sent st st' s msg) {s' : SocketId} {id : RequestId}
    (hid : id ∈ (st'.sockets s').ids) : id ∈ (st.sockets s').ids ∨ id = st.next ∧ s' = s := by
  by_cases hs : s' = s
  · subst hs
    rw [h.ids_self, List.mem_append, List.mem_singleton] at hid
    exact hid.imp_right fun e => ⟨e, rfl⟩
  · rw [h.sockets_of_ne hs] at hid
    exact Or.inl hid

theorem rest (h : Sent st st' s msg) (s' : SocketId) : st'.rest s' = st.rest s' := by
  rw [System.rest, System.rest, h.fed, h.conn]

/-- The new request is pending on the socket it went to. -/
theorem pendingOf_self (h : Sent st st' s msg) (hinv : Inv st d) :
    st'.pendingOf s = st.pendingOf s ++ [st.next] := by
  unfold pendingOf
  rw [h.conn, h.ids_self, List.filter_append]
  congr 1
  · refine List.filter_congr fun id hid => ?_
    have hlt := hinv.waiting id hid
    simp only [List.mem_append, List.mem_singleton, hlt.ne, or_false]
  · simp

/-- It is pending on no other. -/
theorem pendingOf_of_ne (h : Sent st st' s msg) (hinv : Inv st d) {s' : SocketId} (hs : s' ≠ s) :
    st'.pendingOf s' = st.pendingOf s' := by
  have hnot : st.next ∉ (st.sockets s').ids := fun hid => lt_irrefl _ (hinv.fresh s' _ hid)
  unfold pendingOf
  rw [h.conn, h.sockets_of_ne hs, List.filter_append]
  simp [hnot]

end Sent

/-- A request is written. -/
theorem Inv.send {msg : Bytes} (h : Inv st d) (hsent : Sent st st' s msg)
    (hphase : (st.sockets s).phase ≠ .closed) : Inv st' d := by
  refine ⟨by rw [hsent.conn]; exact congrArg (· ++ [st.next]) h.queues, ?_, ?_, ?_, ?_, ?_, ?_⟩
  · intro s' id hid
    rw [hsent.next]
    rcases hsent.mem_ids hid with hid | ⟨rfl, -⟩
    · exact (h.fresh s' id hid).trans (Nat.lt_succ_self _)
    · exact Nat.lt_succ_self _
  · intro id hid
    rw [hsent.conn, List.mem_append, List.mem_singleton] at hid
    rw [hsent.next]
    rcases hid with hid | rfl
    · exact (h.waiting id hid).trans (Nat.lt_succ_self _)
    · exact Nat.lt_succ_self _
  · intro s₁ s₂ id h₁ h₂
    rcases hsent.mem_ids h₁ with h₁ | ⟨rfl, rfl⟩
    · rcases hsent.mem_ids h₂ with h₂ | ⟨rfl, rfl⟩
      · exact h.apart s₁ s₂ id h₁ h₂
      · exact absurd (h.fresh s₁ _ h₁) (lt_irrefl _)
    · rcases hsent.mem_ids h₂ with h₂ | ⟨-, rfl⟩
      · exact absurd (h.fresh s₂ _ h₂) (lt_irrefl _)
      · rfl
  · intro s'
    rw [hsent.rest, hsent.sockets]
    refine follows_update st ?_ ?_ s'
    · rw [hsent.pendingOf_self h]
      exact (h.follows s).write hphase st.next msg
    · intro s' hs
      rw [hsent.pendingOf_of_ne h hs]
      exact h.follows s'
  · intro e he
    rw [hsent.settled] at he
    exact (h.sound e he).mono hsent.ids_prefix fun s' => (hsent.replies s').symm ▸ List.prefix_rfl
  · intro s' k id r hk hid hr
    rw [hsent.replies] at hr
    rw [hsent.settled]
    have hlt : k < (st.sockets s').ids.length := by
      have hdecoded := (h.follows s').decoded
      have hanswered := (h.follows s').answered
      rw [Socket.ids, List.length_map]
      omega
    have hget := List.prefix_iff_getElem?.mp (hsent.ids_prefix s') k hlt
    rw [hid] at hget
    cases hget
    exact h.done s' k _ r hk (List.getElem?_eq_getElem hlt) hr

/-- A request without a socket is rejected at once. -/
theorem Inv.refuse (h : Inv st d) (err : String) :
    Inv { st with next := st.next + 1, settled := st.settled ++ [⟨none, st.next, .rejected err⟩] } d := by
  refine ⟨h.queues, fun s id hid => (h.fresh s id hid).trans (Nat.lt_succ_self _),
    fun id hid => (h.waiting id hid).trans (Nat.lt_succ_self _), h.apart, h.follows, ?_, ?_⟩
  · intro e he
    rcases List.mem_append.mp he with he | he
    · exact h.sound e he
    · rw [List.mem_singleton.mp he]
      exact ⟨err, rfl⟩
  · intro s k id r hk hid hr
    exact List.mem_append_left _ (h.done s k id r hk hid hr)

/-- The requests that wait on the socket, after the first `j` of the queue are gone. -/
theorem pendingOf_drop {j : Nat} (h : Inv st d) (hfront : st.pendingOf s <+: st.conn.pendingResolvers)
    (hj : j ≤ (st.pendingOf s).length) :
    ((st.conn.pendingResolvers.drop j).filter fun id => id ∈ (st.sockets s).ids) =
        (st.pendingOf s).drop j ∧
      ∀ s', s' ≠ s → ((st.conn.pendingResolvers.drop j).filter fun id => id ∈ (st.sockets s').ids) =
        st.pendingOf s' := by
  obtain ⟨q, hq⟩ := hfront
  have hmine : ∀ id ∈ st.pendingOf s, id ∈ (st.sockets s).ids := fun id hid =>
    of_decide_eq_true (List.mem_filter.mp hid).2
  have hdrop : st.conn.pendingResolvers.drop j = (st.pendingOf s).drop j ++ q := by
    rw [← hq, List.drop_append_of_le_length hj]
  -- `q` has no request of the socket
  have hrest : (q.filter fun id => id ∈ (st.sockets s).ids) = [] := by
    have hfilter : st.pendingOf s ++ (q.filter fun id => id ∈ (st.sockets s).ids) =
        st.pendingOf s := by
      have hself : ((st.pendingOf s).filter fun id => id ∈ (st.sockets s).ids) = st.pendingOf s :=
        List.filter_eq_self.mpr fun id hid => decide_eq_true (hmine id hid)
      calc st.pendingOf s ++ (q.filter fun id => id ∈ (st.sockets s).ids)
          = (st.pendingOf s ++ q).filter fun id => id ∈ (st.sockets s).ids := by
            rw [List.filter_append, hself]
        _ = st.pendingOf s := by rw [hq]; rfl
    exact List.append_right_eq_self.mp hfilter
  constructor
  · rw [hdrop, List.filter_append, hrest, List.append_nil]
    exact List.filter_eq_self.mpr fun id hid => decide_eq_true (hmine id (List.mem_of_mem_drop hid))
  · intro s' hs
    have hnone : ((st.pendingOf s).filter fun id => id ∈ (st.sockets s').ids) = [] := by
      refine List.filter_eq_nil_iff.mpr ?_
      intro id hid hmem
      exact hs (h.apart s' s id (of_decide_eq_true hmem) (hmine id hid))
    have hnone' : (((st.pendingOf s).drop j).filter fun id => id ∈ (st.sockets s').ids) = [] := by
      refine List.filter_eq_nil_iff.mpr ?_
      intro id hid
      exact List.filter_eq_nil_iff.mp hnone id (List.mem_of_mem_drop hid)
    have hwhole : st.pendingOf s' = q.filter fun id => id ∈ (st.sockets s').ids := by
      rw [pendingOf, ← hq, List.filter_append, hnone, List.nil_append]
    rw [hdrop, List.filter_append, hnone', List.nil_append, hwhole]

/-- A buffer without bytes of another socket. -/
theorem rest_of_buffer (hbuf : st.conn.recvBuf = [] ∨ st.fed = some s) :
    st.rest s = st.conn.recvBuf ∧ ∀ s', s' ≠ s → st.rest s' = [] := by
  unfold rest
  constructor
  · split
    · rfl
    · next hfed => exact (hbuf.resolve_right hfed).symm
  · intro s' hs
    split
    · next hfed =>
      refine hbuf.resolve_right ?_
      rw [hfed]
      exact fun e => hs (Option.some.inj e)
    · rfl

/-- Where the queue begins with the requests from `d` on, its first `j` requests and the answers from
`d` on go together by position. -/
theorem mem_zip_iff {q ids : List RequestId} {rs : List Reply} {d j : Nat}
    (hplace : ∀ i, i < j → q[i]? = ids[d + i]?) {x : RequestId × Reply} :
    x ∈ q.zip ((rs.drop d).take j) ↔
      ∃ i, i < j ∧ ids[d + i]? = some x.1 ∧ rs[d + i]? = some x.2 := by
  constructor
  · intro hx
    obtain ⟨i, hi⟩ := List.mem_iff_getElem?.mp hx
    obtain ⟨hid, hr⟩ := List.getElem?_zip_eq_some.mp hi
    have hij : i < j := by
      have hlt := (List.getElem?_eq_some_iff.mp hr).1
      rw [List.length_take] at hlt
      omega
    rw [List.getElem?_take_of_lt hij, List.getElem?_drop] at hr
    rw [hplace i hij] at hid
    exact ⟨i, hij, hid, hr⟩
  · intro hx
    obtain ⟨i, hij, hid, hr⟩ := hx
    refine List.mem_iff_getElem?.mpr ⟨i, List.getElem?_zip_eq_some.mpr ⟨?_, ?_⟩⟩
    · rw [hplace i hij, hid]
    · rw [List.getElem?_take_of_lt hij, List.getElem?_drop, hr]

/-- The handler of `data`, with the buffer and the front of the queue for this socket: `st'` is the
system after it. -/
theorem Inv.onData {n : Nat} (h : Inv st d) (hphase : (st.sockets s).phase ≠ .closed)
    (hn : (st.sockets s).received + n ≤ (wire (st.sockets s).replies).length)
    (hbuf : st.conn.recvBuf = [] ∨ st.fed = some s)
    (hfront : st.pendingOf s <+: st.conn.pendingResolvers)
    (hsockets : st'.sockets = (st.update s { st.sockets s with
      received := (st.sockets s).received + n }).sockets)
    (hconn : st'.conn = (st.conn.onData ((st.sockets s).chunk n)).1) (hnext : st'.next = st.next)
    (hfed : st'.fed = some s)
    (hsettled : st'.settled = st.settled ++
      (st.conn.onData ((st.sockets s).chunk n)).2.map fun x => ⟨some s, x.1, x.2⟩) :
    ∃ d', Inv st' d' := by
  obtain ⟨hrest, hrest'⟩ := rest_of_buffer hbuf
  have hfollows := h.follows s
  have hprefix := hfollows.prefix_chunk n
  rw [hrest] at hprefix hfollows
  obtain ⟨j, rest', hj, hsplit, hshort, htaken, houtcomes⟩ := Connection.onData_wire hprefix
  rw [htaken] at hconn
  rw [houtcomes] at hsettled
  have hpending : st.pendingOf s = (st.sockets s).ids.drop (d s) := by
    rw [hfollows.pending, if_neg hphase]
  have hjlen : j ≤ (st.pendingOf s).length := by
    have hanswered := hfollows.answered
    rw [List.length_drop] at hj
    rw [hpending, List.length_drop, Socket.ids, List.length_map]
    omega
  obtain ⟨hown, hothers⟩ := pendingOf_drop h hfront hjlen
  have hids : ∀ s', (st'.sockets s').ids = (st.sockets s').ids := by
    rw [hsockets]
    exact update_ids st rfl
  have hreplies : ∀ s', (st.sockets s').replies <+: (st'.sockets s').replies := by
    rw [hsockets]
    exact update_replies st List.prefix_rfl
  -- a request at the front of the queue is at the same place among those of the socket
  have hplace : ∀ i, i < j → st.conn.pendingResolvers[i]? = (st.sockets s).ids[d s + i]? := by
    intro i hi
    rw [← List.getElem?_drop, ← hpending]
    obtain ⟨q, hq⟩ := hfront
    rw [← hq, List.getElem?_append_left (hi.trans_le hjlen)]
  refine ⟨Function.update d s (d s + j), h.of_ids hids hreplies hnext ?_ ?_ ?_ hsettled ?_ ?_⟩
  · rw [hconn, h.queues]
  · intro id hid
    rw [hconn] at hid
    exact List.mem_of_mem_drop hid
  · rw [hsockets]
    refine follows_update st ?_ ?_
    · have hrestNew : st'.rest s = rest' := by rw [rest, if_pos hfed, hconn]
      have hpendingNew : st'.pendingOf s = (st.pendingOf s).drop j := by
        rw [pendingOf, hids, hconn]
        exact hown
      rw [Function.update_self, hrestNew, hpendingNew]
      exact hfollows.data hphase hn hj hsplit hshort
    · intro s' hs
      have hrestNew : st'.rest s' = st.rest s' := by
        rw [hrest' s' hs, rest, hfed, if_neg fun e => hs (Option.some.inj e).symm]
      have hpendingNew : st'.pendingOf s' = st.pendingOf s' := by
        rw [pendingOf, hids, hconn]
        exact hothers s' hs
      rw [Function.update_of_ne hs, hrestNew, hpendingNew]
      exact h.follows s'
  · intro e he
    obtain ⟨x, hx, rfl⟩ := List.mem_map.mp he
    obtain ⟨y, hzip, rfl⟩ := List.mem_map.mp hx
    obtain ⟨i, -, hid, hr⟩ := (mem_zip_iff hplace).mp hzip
    refine ⟨d s + i, by rw [hids, hid], ?_⟩
    intro res hres
    cases hres
    rw [getElem?_eq_some_mono (hreplies s) hr]
    rfl
  · intro s' k id r hd hk hid hr
    have hs : s' = s := by
      by_contra hs
      rw [Function.update_of_ne hs] at hk
      omega
    subst hs
    rw [Function.update_self] at hk
    obtain ⟨i, rfl⟩ := Nat.exists_eq_add_of_le hd
    rw [hsockets, update_sockets_self] at hr
    have hzip : (id, r) ∈ st.conn.pendingResolvers.zip (((st.sockets s').replies.drop (d s')).take j) :=
      (mem_zip_iff hplace).mpr ⟨i, by omega, hid, hr⟩
    exact List.mem_map.mpr ⟨_, List.mem_map.mpr ⟨_, hzip, rfl⟩, rfl⟩

/-! ## Runs -/

/-- An undisturbed step keeps the invariant. -/
theorem Inv.step {a : Event} (h : Inv st d) (hundisturbed : st.Undisturbed a)
    (hstep : st.step a = some st') : ∃ d', Inv st' d' := by
  unfold System.step at hstep
  cases a with
  | connect s =>
    obtain ⟨hphase, hst⟩ := Option.ite_none_right_eq_some.mp hstep
    cases hst
    exact ⟨d, h.setPhase _ (by simp [hphase])⟩
  | onConnect s =>
    obtain ⟨hphase, hst⟩ := Option.ite_none_right_eq_some.mp hstep
    cases hst
    exact ⟨d, h.setPhase (some s) (by simp [hphase])⟩
  | onData s n =>
    obtain ⟨⟨hphase, -, hn⟩, hst⟩ := Option.ite_none_right_eq_some.mp hstep
    cases hst
    exact h.onData (by simp [hphase]) hn hundisturbed.1 hundisturbed.2 rfl rfl rfl rfl rfl
  | ended s =>
    obtain ⟨hphase, hst⟩ := Option.ite_none_right_eq_some.mp hstep
    cases hst
    exact ⟨d, h.setPhase _ (by simp [hphase])⟩
  | destroy s =>
    obtain ⟨hphase, hst⟩ := Option.ite_none_right_eq_some.mp hstep
    cases hst
    have hopen : (st.sockets s).phase ≠ .closed := by
      intro hclosed
      rw [hclosed] at hphase
      revert hphase
      decide
    exact ⟨d, h.setPhase _ (by simp [hopen])⟩
  | onClose s =>
    obtain ⟨hphase, hst⟩ := Option.ite_none_right_eq_some.mp hstep
    cases hst
    exact ⟨d, h.onClose hundisturbed⟩
  | send msg =>
    dsimp only [Connection.send] at hstep
    cases hsocket : st.conn.socket with
    | none =>
      rw [hsocket] at hstep
      cases hstep
      exact ⟨d, h.refuse _⟩
    | some s =>
      rw [hsocket] at hstep
      dsimp only at hstep
      by_cases hdestroyed : (st.sockets s).phase.isDestroyed
      · rw [if_pos hdestroyed] at hstep
        cases hstep
        exact ⟨d, h.refuse _⟩
      · rw [if_neg hdestroyed] at hstep
        cases hstep
        have hopen : (st.sockets s).phase ≠ .closed := fun hclosed => hdestroyed (by rw [hclosed]; rfl)
        exact ⟨d, h.send ⟨rfl, by rw [← hsocket], rfl, rfl, rfl⟩ hopen⟩
  | close =>
    dsimp only at hstep
    split at hstep
    · cases hstep
      exact ⟨d, h⟩
    · next s hsocket =>
      cases hstep
      refine ⟨d, h.setPhase none ?_⟩
      cases (st.sockets s).phase <;> decide
  | reply s r =>
    obtain ⟨hlt, hst⟩ := Option.ite_none_right_eq_some.mp hstep
    cases hst
    exact ⟨d, h.reply r hlt⟩

/-- **Connections do not leak into each other** in the runs whose steps are undisturbed. -/
theorem isolated_of_undisturbed (events : List Event)
    (h : Steps System.step System.Undisturbed {} events) :
    Along System.step System.Isolated {} events := by
  have hstep : ∀ st a st', (∃ d, Inv st d) → st.Undisturbed a → st.step a = some st' →
      ∃ d', Inv st' d' := by
    intro st a st' hinv hundisturbed hstep
    obtain ⟨d, hd⟩ := hinv
    exact hd.step hundisturbed hstep
  have hisolated : ∀ st, (∃ d, Inv st d) → st.Isolated := by
    intro st hinv
    obtain ⟨d, hd⟩ := hinv
    exact hd.isolated
  exact along_of_inv hstep hisolated ⟨_, Inv.init⟩ h

/-! ## A connection that ends in the middle of an answer -/

def okReply : Reply := ⟨⟨STATUS_OK, []⟩, by decide⟩

def notFoundReply : Reply := ⟨⟨STATUS_NOT_FOUND, []⟩, by decide⟩

/-- The server is gone after four bytes of its first answer; the client connects again and asks for a
key that is not there. -/
def halfAnswer : List Event :=
  [.connect 0, .onConnect 0, .send (buildMessage OP_BEGIN []), .reply 0 okReply, .onData 0 4,
    .destroy 0, .onClose 0, .connect 1, .onConnect 1,
    .send (buildMessage OP_GET (encodeString [1])), .reply 1 notFoundReply, .onData 1 5]

/-- The four bytes and the first of the new answer are taken for a header: the second request is
resolved with `STATUS_OK` and a payload of one byte. -/
theorem not_isolated_halfAnswer :
    ¬ ∀ events : List Event, Along System.step System.Isolated {} events := by
  intro h
  have hcheck : (run System.step {} halfAnswer).map System.settled = some
      [⟨some 0, 0, .rejected "KeyVDB: connection closed"⟩,
        ⟨some 1, 1, .resolved ⟨STATUS_OK, [0]⟩⟩] := by decide +kernel
  have hreplies : (run System.step {} halfAnswer).map
      (fun st => ((st.sockets 1).replies.map Reply.toResponse)) = some [⟨STATUS_NOT_FOUND, []⟩] := by
    decide +kernel
  obtain ⟨st, hrun, hsettled⟩ := Option.map_eq_some_iff.mp hcheck
  rw [hrun, Option.map_some, Option.some.injEq] at hreplies
  have hsound := ((h halfAnswer).at hrun).sound ⟨some 1, 1, .resolved ⟨STATUS_OK, [0]⟩⟩
    (by rw [hsettled]; simp)
  obtain ⟨k, -, hres⟩ := hsound
  have hreply := hres _ rfl
  rw [← List.getElem?_map, hreplies] at hreply
  have hmem := List.mem_of_getElem? hreply
  simp [STATUS_OK, STATUS_NOT_FOUND] at hmem

/-- The answer comes in whole, in two chunks, before the connection is closed and opened again. -/
def wholeAnswer : List Event :=
  [.connect 0, .onConnect 0, .send (buildMessage OP_BEGIN []), .reply 0 okReply, .onData 0 4,
    .onData 0 1, .close, .onClose 0, .connect 1, .onConnect 1,
    .send (buildMessage OP_GET (encodeString [1])), .reply 1 notFoundReply, .onData 1 5]

theorem isolated_of_undisturbed_wholeAnswer :
    ∃ st, run System.step {} wholeAnswer = some st ∧ st.settled =
      [⟨some 0, 0, .resolved okReply.toResponse⟩, ⟨some 1, 1, .resolved notFoundReply.toResponse⟩] ∧
      st.Isolated := by
  have hcheck : (run System.step {} wholeAnswer).map System.settled = some
      [⟨some 0, 0, .resolved okReply.toResponse⟩,
        ⟨some 1, 1, .resolved notFoundReply.toResponse⟩] := by decide +kernel
  obtain ⟨st, hrun, hsettled⟩ := Option.map_eq_some_iff.mp hcheck
  exact ⟨st, hrun, hsettled, (isolated_of_undisturbed wholeAnswer (by decide +kernel)).at hrun⟩

end System

end Client

end KeyVDB
