import KeyVDB.Client.Reassembly
import KeyVDB.Server.Reader

/-!
# Requests in a pipeline

Both ends of a connection with the bytes between them. The client calls `send` without waiting for
the responses; the server's thread reads what has come in, in any parts; the responses come back in
any chunks; other connections change the database in between; and the connection may be lost at any
byte, which may end the process. `pipelined` says that each promise is settled with the response to
its own request, as if the server handled one message after the other (`Desk`).
-/

namespace KeyVDB

namespace Client

/-! ## Both ends -/

/-- What happens on a connection. `others` is what other connections do to the database. -/
inductive WireEvent (σ : Type)
  | send (m : Message)
  | read (n : Nat)
  | deliver (n : Nat)
  | others (db : σ)
  /-- The connection is lost; of what the client sent, the server still gets `k` bytes. -/
  | lose (k : Nat)
  /-- A write to a connection that is lost ends the process: nothing ignores `SIGPIPE`. -/
  | kill
  | eof

structure Wire (σ : Type) where
  line : Line                   -- the client
  reader : Reader σ             -- the server, with what it has not read
  delivered : Nat := 0          -- the bytes of the responses that the client has
  asked : List Message := []    -- the requests so far
  lost : Bool := false

namespace Wire

variable {σ : Type} (db : Database σ)

/-- A connection that has just been opened. -/
def start (socket : SocketId) (d : σ) : Wire σ where
  line := Line.run socket []
  reader := { session := { input := [], db := d } }

/-- The handler of `close`. -/
def close (l : Line) : Line :=
  let (conn, settled) := l.conn.onClose
  { l with conn, settled := l.settled ++ settled }

/-- The thread of the connection, on what is left of the stream. -/
def setInput (w : Wire σ) (input : Bytes) : Reader σ :=
  { w.reader with session := { w.reader.session with input } }

def step (w : Wire σ) : WireEvent σ → Option (Wire σ)
  | .send m =>
    if w.lost = false then
      some { w with
        line := w.line.step (.send m.encode)
        reader := w.setInput (w.reader.session.input ++ m.encode)
        asked := w.asked ++ [m] }
    else none
  | .read n => (w.reader.read db n).map fun reader => { w with reader }
  | .deliver n =>
    if w.lost = false ∧ 0 < n ∧ w.delivered + n ≤ w.reader.session.output.length then
      some { w with
        line := w.line.step (.data ((w.reader.session.output.drop w.delivered).take n))
        delivered := w.delivered + n }
    else none
  | .others d =>
    some { w with reader := { w.reader with session := { w.reader.session with db := d } } }
  | .lose k =>
    if w.lost = false then
      some { w with
        line := close w.line
        reader := w.setInput (w.reader.session.input.take k)
        lost := true }
    else none
  | .kill =>
    if w.lost = true ∧ w.reader.ended = false then
      some { w with reader := { w.reader with ended := true } }
    else none
  | .eof => if w.lost = true then (w.reader.eof db).map fun reader => { w with reader } else none

/-- The request that the thread reads is one whose handler reads it, and the response to it is not
longer than its length field can say. -/
def InTurn (w : Wire σ) : WireEvent σ → Prop
  | .read _ => ∀ m ∈ w.asked[w.reader.sent.length]?, m.Read w.reader.session.txn ∧
      ∀ r ∈ (m.turn db w.reader.session).sent, r.payload.length < 2 ^ 32
  | _ => True

instance (w : Wire σ) : (e : WireEvent σ) → Decidable (w.InTurn db e)
  | .read _ => inferInstanceAs (Decidable (∀ m ∈ w.asked[w.reader.sent.length]?, _))
  | .send _ => instDecidableTrue
  | .deliver _ => instDecidableTrue
  | .others _ => instDecidableTrue
  | .lose _ => instDecidableTrue
  | .kill => instDecidableTrue
  | .eof => instDecidableTrue

end Wire

/-- What another connection did. -/
def WireEvent.other? {σ : Type} : WireEvent σ → Option σ
  | .others d => some d
  | _ => none

/-! ## One message after the other -/

/-- The server as it would be if whole messages came in. -/
structure Desk (σ : Type) where
  session : Session σ
  answers : List (Message × KeyVDB.Response) := []

inductive DeskEvent (σ : Type)
  | handle (m : Message)
  | others (db : σ)
  | hangup

def DeskEvent.other? {σ : Type} : DeskEvent σ → Option σ
  | .others d => some d
  | _ => none

/-- The event is one of this connection. -/
def DeskEvent.isOwn {σ : Type} : DeskEvent σ → Bool
  | .others _ => false
  | _ => true

/-- The requests are handled in the order in which they were asked, and after them the server may hang
up, once. -/
def InOrder {σ : Type} (asked : List Message) (own : List (DeskEvent σ)) : Prop :=
  ∃ ms, ms <+: asked ∧ (own = ms.map .handle ∨ own = ms.map .handle ++ [.hangup])

/-- The requests are settled with the responses to them, in order. -/
def resolved (answers : List (Message × KeyVDB.Response)) : List (RequestId × Outcome) :=
  answers.zipIdx.map fun x => (x.2, .resolved ⟨x.1.2.status, x.1.2.payload⟩)

def Desk.step {σ : Type} (db : Database σ) (d : Desk σ) : DeskEvent σ → Desk σ
  | .handle m =>
    { session := (m.turn db d.session).session
      answers := d.answers ++ (m.turn db d.session).sent.map fun r => (m, r) }
  | .others x => { d with session := { d.session with db := x } }
  | .hangup => { d with session := disconnect db d.session }

/-! ## The client -/

/-- Responses that have not come in do not show. -/
theorem whole_append {rs : List Reply} (rs' : List Reply) {n : Nat} (h : n ≤ (wire rs).length) :
    whole (rs ++ rs') n = whole rs n := by
  induction rs generalizing n with
  | nil =>
    have hzero : n = 0 := Nat.le_zero.mp h
    cases rs' with
    | nil => rfl
    | cons r rs' =>
      have hhead : ¬ r.encode.length ≤ 0 := by
        rw [Reply.length_encode, HEADER_SIZE]
        omega
      rw [hzero]
      exact if_neg hhead
  | cons r rs ih =>
    rw [wire_cons, List.length_append] at h
    rw [List.cons_append, whole, whole, ih (by omega)]

theorem Line.after_append {rs : List Reply} (rs' : List Reply) {bytes : Bytes}
    (h : bytes <+: wire rs) (s : SocketId) (sent : Nat) :
    after s (rs ++ rs') bytes sent = after s rs bytes sent := by
  have htake : (rs ++ rs').take (whole rs bytes.length) = rs.take (whole rs bytes.length) :=
    List.take_append_of_le_length (whole_le rs _)
  simp only [after, whole_append rs' h.length_le, htake]

/-- The requests that the connection took with it. -/
def rejected (first last : Nat) : List (RequestId × Outcome) :=
  ((List.range last).drop first).map fun id => (id, .rejected "KeyVDB: connection closed")

theorem close_after (s : SocketId) (rs : List Reply) (bytes : Bytes) (sent : Nat) :
    (Wire.close (Line.after s rs bytes sent)).settled =
      Line.answers (rs.take (whole rs bytes.length)) ++
        rejected (whole rs bytes.length) sent := by
  rw [Wire.close, Line.after, Connection.onClose, Connection.rejectPending_eq]
  rfl

namespace Wire

variable {σ : Type} {db : Database σ} {w w' : Wire σ}

/-- The responses as the client sees them. -/
abbrev replies (sent : List KeyVDB.Response) (h : ∀ r ∈ sent, r.payload.length < 2 ^ 32) :
    List Reply :=
  sent.pmap Reply.ofResponse h

theorem wire_replies {sent : List KeyVDB.Response} (h : ∀ r ∈ sent, r.payload.length < 2 ^ 32) :
    wire (replies sent h) = sent.flatMap Response.encode := by
  induction sent with
  | nil => rfl
  | cons r sent ih =>
    rw [replies, List.pmap_cons, wire_cons, Reply.encode_ofResponse, List.flatMap_cons]
    exact congrArg (r.encode ++ ·) (ih fun r hr => h r (List.mem_cons_of_mem _ hr))

/-- What the server has sent is on the wire, and the client has settled its requests with what it
has of it. -/
structure ClientSide (socket : SocketId) (w : Wire σ) : Prop where
  short : ∀ r ∈ w.reader.sent, r.payload.length < 2 ^ 32
  output : w.reader.session.output = w.reader.sent.flatMap Response.encode
  delivered_le : w.delivered ≤ w.reader.session.output.length
  sent_le : w.reader.sent.length ≤ w.asked.length
  line : w.lost = false → w.line = Line.after socket (replies w.reader.sent short)
    (w.reader.session.output.take w.delivered) w.asked.length
  settled : w.lost = true → ∃ k ≤ w.reader.sent.length, w.line.settled =
    Line.answers ((replies w.reader.sent short).take k) ++ rejected k w.asked.length

namespace ClientSide

variable {socket : SocketId}

theorem wire_eq (h : ClientSide socket w) :
    wire (replies w.reader.sent h.short) = w.reader.session.output := by
  rw [wire_replies, h.output]

theorem whole_le_asked (h : ClientSide socket w) (n : Nat) :
    whole (replies w.reader.sent h.short) n ≤ w.asked.length := by
  have hle := whole_le (replies w.reader.sent h.short) n
  rw [List.length_pmap] at hle
  exact hle.trans h.sent_le

theorem start (socket : SocketId) (d : σ) : ClientSide socket (Wire.start socket d) where
  short := fun r hr => absurd hr List.not_mem_nil
  output := rfl
  delivered_le := Nat.le_refl _
  sent_le := Nat.le_refl _
  line := fun _ => rfl
  settled := fun h => by cases h

theorem send (h : ClientSide socket w) (hlost : w.lost = false) (m : Message) (input : Bytes) :
    ClientSide socket { w with
      line := w.line.step (.send m.encode)
      reader := w.setInput input
      asked := w.asked ++ [m] } where
  short := h.short
  output := h.output
  delivered_le := h.delivered_le
  sent_le := by
    rw [List.length_append]
    exact Nat.le_add_right_of_le h.sent_le
  line := by
    intro _
    rw [h.line hlost, Line.after_send _ (h.whole_le_asked _), List.length_append]
    rfl
  settled := fun hyes => by rw [hlost] at hyes; cases hyes

theorem deliver (h : ClientSide socket w) (hlost : w.lost = false) {n : Nat}
    (hn : w.delivered + n ≤ w.reader.session.output.length) :
    ClientSide socket { w with
      line := w.line.step (.data ((w.reader.session.output.drop w.delivered).take n))
      delivered := w.delivered + n } where
  short := h.short
  output := h.output
  delivered_le := hn
  sent_le := h.sent_le
  line := by
    intro _
    have hbytes : w.reader.session.output.take w.delivered ++
        (w.reader.session.output.drop w.delivered).take n =
          w.reader.session.output.take (w.delivered + n) := List.take_add.symm
    have hwire : w.reader.session.output.take w.delivered ++
        (w.reader.session.output.drop w.delivered).take n <+:
          wire (replies w.reader.sent h.short) := by
      rw [hbytes, h.wire_eq]
      exact List.take_prefix _ _
    rw [h.line hlost, Line.after_data hwire (h.whole_le_asked _), hbytes]
  settled := fun hyes => by rw [hlost] at hyes; cases hyes

theorem lose (h : ClientSide socket w) (hlost : w.lost = false) (input : Bytes) :
    ClientSide socket { w with
      line := close w.line, reader := w.setInput input, lost := true } where
  short := h.short
  output := h.output
  delivered_le := h.delivered_le
  sent_le := h.sent_le
  line := fun hno => by cases hno
  settled := by
    intro _
    refine ⟨whole (replies w.reader.sent h.short)
      (w.reader.session.output.take w.delivered).length, ?_, ?_⟩
    · have hle := whole_le (replies w.reader.sent h.short)
        (w.reader.session.output.take w.delivered).length
      rwa [List.length_pmap] at hle
    · rw [h.line hlost, close_after]
      rfl

/-- The server has sent more. -/
theorem grow (h : ClientSide socket w) {reader : Reader σ} (more : List KeyVDB.Response)
    (hsent : reader.sent = w.reader.sent ++ more)
    (houtput : reader.session.output = w.reader.session.output ++ more.flatMap Response.encode)
    (hshort : ∀ r ∈ more, r.payload.length < 2 ^ 32) (hle : reader.sent.length ≤ w.asked.length) :
    ClientSide socket { w with reader } := by
  obtain ⟨session, awaits, got, sent, ended⟩ := reader
  dsimp only at hsent houtput hle
  subst hsent
  have hall : ∀ r ∈ w.reader.sent ++ more, r.payload.length < 2 ^ 32 := fun r hr =>
    (List.mem_append.mp hr).elim (h.short r) (hshort r)
  have hreplies : replies (w.reader.sent ++ more) hall =
      replies w.reader.sent h.short ++ replies more hshort := List.pmap_append _
  have hbefore : session.output.take w.delivered = w.reader.session.output.take w.delivered := by
    rw [houtput, List.take_append_of_le_length h.delivered_le]
  exact
    { short := hall
      output := by
        change session.output = _
        rw [houtput, h.output, List.flatMap_append]
      delivered_le := by
        change w.delivered ≤ session.output.length
        rw [houtput, List.length_append]
        exact Nat.le_add_right_of_le h.delivered_le
      sent_le := hle
      line := by
        intro hlost
        have hwire : w.reader.session.output.take w.delivered <+:
            wire (replies w.reader.sent h.short) := by
          rw [h.wire_eq]
          exact List.take_prefix _ _
        change w.line = Line.after socket (replies (w.reader.sent ++ more) hall)
          (session.output.take w.delivered) w.asked.length
        rw [hreplies, hbefore, Line.after_append _ hwire]
        exact h.line hlost
      settled := by
        intro hlost
        obtain ⟨k, hk, hsettled⟩ := h.settled hlost
        refine ⟨k, ?_, ?_⟩
        · change k ≤ (w.reader.sent ++ more).length
          rw [List.length_append]
          exact Nat.le_add_right_of_le hk
        · change w.line.settled = Line.answers ((replies (w.reader.sent ++ more) hall).take k) ++ _
          rw [hreplies, List.take_append_of_le_length (by rwa [List.length_pmap])]
          exact hsettled }

end ClientSide

/-! ## The server -/

/-- The request that the loop takes off the stream is the message that the client sent. -/
theorem takes_message {s : Session σ} {bytes rest tail : Bytes} {t : Turn σ} {m : Message}
    (h : Takes db s bytes t) (hread : m.Read s.txn) (heq : bytes ++ rest = m.encode ++ tail) :
    rest = tail ∧ t = m.turn db s := by
  have hserve := h.serve rest
  rw [heq, serve_of_read hread] at hserve
  have hturn := (Prod.mk.inj (Option.some.inj hserve)).2
  refine ⟨(congrArg (fun t => t.session.input) hturn).symm, ?_⟩
  have hinput := h.input.trans (m.turn_answers db s).input.symm
  generalize m.turn db s = t' at hturn hinput
  obtain ⟨⟨input, output, txn, d⟩, calls, sent, ended⟩ := t
  obtain ⟨⟨input', output', txn', d'⟩, calls', sent', ended'⟩ := t'
  dsimp only at hinput
  cases hturn
  cases hinput
  rfl

/-- A `read_exact` returns: the thread is still within the message, or the message is handled. -/
theorem complete_message (db : Database σ) {r : Reader σ} {taken rest tail : Bytes} {m : Message}
    (htaken : r.awaits.Taken r.session.txn taken) (hgot : r.got.length = r.awaits.size)
    (hread : m.Read r.session.txn) (heq : taken ++ (r.got ++ rest) = m.encode ++ tail) :
    (∃ a : Awaits, r.complete db = r.await a ∧ a.Taken r.session.txn (taken ++ r.got) ∧
        0 < a.size) ∨
      r.complete db = r.finish (m.turn db r.session) ∧ rest = tail := by
  rcases Reader.complete_advances db htaken hgot with hstill | ⟨t, hnext, ht⟩
  · exact .inl hstill
  · rw [← List.append_assoc] at heq
    obtain ⟨hrest, rfl⟩ := takes_message ht hread heq
    exact .inr ⟨hnext, hrest⟩

/-- A message that is read is not cut off. -/
theorem not_whole_of_cut (db : Database σ) {s : Session σ} {a : Awaits} {taken got tail : Bytes}
    {m : Message} (htaken : a.Taken s.txn taken) (hgot : got.length < a.size) (hread : m.Read s.txn) :
    taken ++ got ≠ m.encode ++ tail := by
  intro heq
  rcases serve_of_cut db htaken hgot with hshort | ⟨round, -, hserve⟩
  · rw [heq, List.length_append, Message.length_encode] at hshort
    omega
  · rw [heq, serve_of_read hread] at hserve
    have hturn := (Prod.mk.inj (Option.some.inj hserve)).2
    have hsent : (m.turn db s).sent = [] := congrArg Turn.sent hturn
    have hended : (m.turn db s).ended = false := congrArg Turn.ended hturn
    have hone := (m.turn_answers db s).sent
    rw [hsent, hended] at hone
    cases hone

/-- The bytes of the requests that were not answered. -/
def pending (w : Wire σ) : Bytes := (w.asked.drop w.reader.sent.length).flatMap Message.encode

/-- The first of them. -/
theorem exists_first (h : w.pending ≠ []) :
    ∃ m, w.asked[w.reader.sent.length]? = some m ∧
      w.pending = m.encode ++ (w.asked.drop (w.reader.sent.length + 1)).flatMap Message.encode := by
  by_cases hlt : w.reader.sent.length < w.asked.length
  · refine ⟨w.asked[w.reader.sent.length], List.getElem?_eq_getElem hlt, ?_⟩
    rw [pending, List.drop_eq_getElem_cons hlt, List.flatMap_cons]
  · refine absurd ?_ h
    rw [pending, List.drop_of_length_le (Nat.not_lt.mp hlt)]
    rfl

/-- The thread is within the first request that was not answered, and the rest of the requests is on
the wire, as far as it was not lost. -/
structure ServerSide (w : Wire σ) : Prop where
  stream : ∃ taken missing, w.reader.awaits.Taken w.reader.session.txn taken ∧
    taken ++ (w.reader.got ++ (w.reader.session.input ++ missing)) = w.pending ∧
    (w.lost = false → missing = []) ∧
    (taken ++ w.reader.got ≠ [] → ∀ m ∈ w.asked[w.reader.sent.length]?,
      m.Read w.reader.session.txn)
  got_lt : w.reader.got.length < w.reader.awaits.size

namespace ServerSide

theorem start (socket : SocketId) (d : σ) : ServerSide (Wire.start socket d) where
  stream := ⟨[], [], .opcode, rfl, fun _ => rfl, fun h => absurd rfl h⟩
  got_lt := Nat.one_pos

theorem pending_send (w : Wire σ) (hle : w.reader.sent.length ≤ w.asked.length) (m : Message) :
    ((w.asked ++ [m]).drop w.reader.sent.length).flatMap Message.encode =
      w.pending ++ m.encode := by
  rw [List.drop_append_of_le_length hle, List.flatMap_append, List.flatMap_singleton]
  rfl

theorem send (h : ServerSide w) (hle : w.reader.sent.length ≤ w.asked.length)
    (hlost : w.lost = false) (m : Message) (line : Line) :
    ServerSide { w with
      line
      reader := w.setInput (w.reader.session.input ++ m.encode)
      asked := w.asked ++ [m] } := by
  obtain ⟨⟨taken, missing, htaken, hstream, hmissing, hread⟩, hgot⟩ := h
  have hnone := hmissing hlost
  subst hnone
  refine ⟨⟨taken, [], htaken, ?_, fun _ => rfl, fun hne m' hm' => ?_⟩, hgot⟩
  · change _ = ((w.asked ++ [m]).drop w.reader.sent.length).flatMap Message.encode
    rw [pending_send w hle, ← hstream]
    simp only [setInput, List.append_nil, List.append_assoc]
  · -- the request that the thread is in was sent before
    refine hread hne m' ?_
    have hpending : w.pending ≠ [] := by
      rw [← hstream, ← List.append_assoc]
      exact List.append_ne_nil_of_left_ne_nil hne _
    obtain ⟨m₀, hfirst, -⟩ := exists_first hpending
    have hlt : w.reader.sent.length < w.asked.length :=
      (List.getElem?_eq_some_iff.mp hfirst).1
    change m' ∈ (w.asked ++ [m])[w.reader.sent.length]? at hm'
    rwa [List.getElem?_append_left hlt] at hm'

theorem others (h : ServerSide w) (d : σ) :
    ServerSide { w with
      reader := { w.reader with session := { w.reader.session with db := d } } } :=
  ⟨h.stream, h.got_lt⟩

theorem lose (h : ServerSide w) (k : Nat) (line : Line) :
    ServerSide { w with
      line, reader := w.setInput (w.reader.session.input.take k), lost := true } := by
  obtain ⟨⟨taken, missing, htaken, hstream, -, hread⟩, hgot⟩ := h
  refine ⟨⟨taken, w.reader.session.input.drop k ++ missing, htaken, ?_, fun hno => ?_, hread⟩, hgot⟩
  · have hsplit : w.reader.session.input.take k ++ (w.reader.session.input.drop k ++ missing) =
        w.reader.session.input ++ missing := by
      rw [← List.append_assoc, List.take_append_drop]
    change taken ++ (w.reader.got ++ (w.reader.session.input.take k ++ _)) = w.pending
    rw [hsplit, hstream]
  · cases hno

/-- Where the thread is after a `::read`: still within its request, or done with it. -/
theorem read (h : ServerSide w) {n : Nat} (hturn : w.InTurn db (.read n)) {reader : Reader σ}
    (hread : w.reader.read db n = some reader) :
    (reader.sent = w.reader.sent ∧ reader.session = (w.reader.take n).session ∧
        ServerSide { w with reader }) ∨
      ∃ m, w.asked[w.reader.sent.length]? = some m ∧
        reader = (w.reader.take n).finish (m.turn db (w.reader.take n).session) ∧
        (reader.ended = false → ServerSide { w with reader }) := by
  obtain ⟨⟨taken, missing, htaken, hstream, hmissing, -⟩, -⟩ := h
  rw [Reader.read] at hread
  split at hread
  · next hguard =>
    obtain ⟨hended, hpos, hn, hle⟩ := hguard
    have hlen : (w.reader.take n).got.length = w.reader.got.length + n := by
      rw [Reader.take, List.length_append, List.length_take_of_le hn]
    have htxn : (w.reader.take n).awaits.Taken (w.reader.take n).session.txn taken := htaken
    have hstream' : taken ++ ((w.reader.take n).got ++
        ((w.reader.take n).session.input ++ missing)) = w.pending := by
      rw [← hstream, Reader.take]
      simp only [List.append_assoc, ← List.append_assoc (w.reader.session.input.take n),
        List.take_append_drop]
    have hpending : w.pending ≠ [] := by
      rw [← hstream']
      refine List.append_ne_nil_of_right_ne_nil _ (List.append_ne_nil_of_left_ne_nil ?_ _)
      refine List.length_pos_iff.mp ?_
      rw [hlen]
      exact Nat.add_pos_right _ hpos
    obtain ⟨m, hfirst, hm⟩ := exists_first hpending
    have hreads : ∀ m ∈ w.asked[w.reader.sent.length]?, m.Read w.reader.session.txn :=
      fun m hm => (hturn m hm).1
    cases hread
    split
    · next hall =>
      rcases complete_message db htxn hall (hreads m hfirst) (hstream'.trans hm) with
        ⟨a, hnext, htaken', hsize⟩ | ⟨hnext, htail⟩
      · rw [hnext]
        refine .inl ⟨rfl, rfl, ⟨_, missing, htaken', ?_, hmissing, fun _ => hreads⟩, hsize⟩
        rw [List.append_assoc]
        exact hstream'
      · rw [hnext]
        refine .inr ⟨m, hfirst, rfl, fun hrunning => ?_⟩
        have hinput := (m.turn_answers db (w.reader.take n).session).input
        have hone : (m.turn db (w.reader.take n).session).sent.length = 1 := by
          rw [(m.turn_answers db (w.reader.take n).session).sent]
          exact if_neg (Bool.eq_false_iff.mp hrunning)
        refine ⟨⟨[], missing, .opcode, ?_, hmissing, fun hne => absurd rfl hne⟩, Nat.one_pos⟩
        rw [pending, Reader.finish, List.length_append, hone, hinput, htail]
        rfl
    · next hpart =>
      refine .inl ⟨rfl, rfl, ⟨taken, missing, htaken, hstream', hmissing, fun _ => hreads⟩, ?_⟩
      exact Nat.lt_of_le_of_ne (hlen ▸ hle) hpart
  · cases hread

/-- When nothing is on the wire, every request is answered. -/
theorem quiet (db : Database σ) (h : ServerSide w) (hlost : w.lost = false)
    (hinput : w.reader.session.input = []) : w.asked.length ≤ w.reader.sent.length := by
  obtain ⟨⟨taken, missing, htaken, hstream, hmissing, hreads⟩, hgot⟩ := h
  rw [hmissing hlost, hinput, List.append_nil, List.append_nil] at hstream
  by_contra hlt
  have hpending : w.pending ≠ [] := by
    rw [pending, List.drop_eq_getElem_cons (Nat.not_le.mp hlt), List.flatMap_cons]
    refine List.append_ne_nil_of_left_ne_nil (List.length_pos_iff.mp ?_) _
    rw [Message.length_encode]
    omega
  obtain ⟨m, hfirst, hm⟩ := exists_first hpending
  have hread : m.Read w.reader.session.txn := by
    refine hreads ?_ m hfirst
    rwa [hstream]
  exact not_whole_of_cut db htaken hgot hread (hstream.trans hm)

end ServerSide

/-! ## The server and the desk -/

/-- The server is where the desk is. -/
structure Mirrors (w : Wire σ) (d : Desk σ) : Prop where
  session : { w.reader.session with input := [] } = d.session
  sent : d.answers.map Prod.snd = w.reader.sent
  asked : d.answers.map Prod.fst <+: w.asked

/-- What holds in every state of a run. -/
structure Inv (socket : SocketId) (w : Wire σ) (d : Desk σ) : Prop where
  client : ClientSide socket w
  server : w.reader.ended = false → ServerSide w
  desk : Mirrors w d

theorem snoc_prefix {l asked : List Message} {m : Message} (h : l <+: asked)
    (hnext : asked[l.length]? = some m) : l ++ [m] <+: asked := by
  obtain ⟨rest, hrest⟩ := h
  rw [← hrest, List.getElem?_append_right (Nat.le_refl _), Nat.sub_self] at hnext
  cases rest with
  | nil => cases hnext
  | cons m' rest =>
    cases hnext
    exact ⟨rest, by rw [← hrest, List.append_assoc, List.singleton_append]⟩

/-- The events of the connection so far. As long as the thread runs it has answered each request that
it handled. -/
structure Handling (w : Wire σ) (own : List (DeskEvent σ)) : Prop where
  inOrder : InOrder w.asked own
  running : w.reader.ended = false → ∃ ms, ms <+: w.asked ∧ own = ms.map .handle ∧
    ms.length = w.reader.sent.length

namespace Handling

variable {own : List (DeskEvent σ)}

theorem start (socket : SocketId) (d : σ) : Handling (Wire.start socket d) [] where
  inOrder := ⟨[], List.prefix_rfl, .inl rfl⟩
  running := fun _ => ⟨[], List.prefix_rfl, rfl, rfl⟩

/-- Nothing was handled. -/
theorem same (h : Handling w own) (hasked : w.asked <+: w'.asked)
    (hended : w'.reader.ended = false → w.reader.ended = false)
    (hsent : w'.reader.sent = w.reader.sent) : Handling w' own where
  inOrder := by
    obtain ⟨ms, hms, hown⟩ := h.inOrder
    exact ⟨ms, hms.trans hasked, hown⟩
  running := by
    intro hrunning
    obtain ⟨ms, hms, hown, hlen⟩ := h.running (hended hrunning)
    exact ⟨ms, hms.trans hasked, hown, by rw [hlen, hsent]⟩

theorem handle (h : Handling w own) (hrunning : w.reader.ended = false) {m : Message}
    (hfirst : w.asked[w.reader.sent.length]? = some m) {reader : Reader σ}
    (hsent : reader.ended = false → reader.sent.length = w.reader.sent.length + 1) :
    Handling { w with reader } (own ++ [.handle m]) := by
  obtain ⟨ms, hms, rfl, hlen⟩ := h.running hrunning
  rw [← hlen] at hfirst
  have hnext := snoc_prefix hms hfirst
  have hown : ms.map DeskEvent.handle ++ [.handle m] = (ms ++ [m]).map (DeskEvent.handle (σ := σ)) := by
    rw [List.map_append, List.map_singleton]
  refine ⟨⟨_, hnext, .inl hown⟩, fun hreader => ⟨_, hnext, hown, ?_⟩⟩
  rw [List.length_append, List.length_singleton, hlen]
  exact (hsent hreader).symm

theorem hangup (h : Handling w own) (hrunning : w.reader.ended = false) {reader : Reader σ}
    (hended : reader.ended = true) : Handling { w with reader } (own ++ [.hangup]) := by
  obtain ⟨ms, hms, rfl, -⟩ := h.running hrunning
  refine ⟨⟨ms, hms, .inr rfl⟩, fun hno => ?_⟩
  rw [show reader.ended = false from hno] at hended
  cases hended

end Handling

theorem inv_start (socket : SocketId) (d : σ) :
    Inv socket (start socket d) { session := { input := [], db := d } } where
  client := .start socket d
  server := fun _ => .start socket d
  desk := ⟨rfl, rfl, List.prefix_rfl⟩

namespace Inv

variable {socket : SocketId} {d : Desk σ}

/-- The thread is still within its request. -/
theorem read_part (h : Inv socket w d) {reader : Reader σ} (hsent : reader.sent = w.reader.sent)
    {input : Bytes} (hsession : reader.session = { w.reader.session with input })
    (hserver : reader.ended = false → ServerSide { w with reader }) :
    Inv socket { w with reader } d where
  client := by
    refine h.client.grow [] ?_ ?_ (fun r hr => absurd hr List.not_mem_nil) ?_
    · rw [hsent, List.append_nil]
    · rw [hsession, List.flatMap_nil, List.append_nil]
    · rw [hsent]
      exact h.client.sent_le
  server := hserver
  desk := by
    refine ⟨?_, ?_, h.desk.asked⟩
    · rw [← h.desk.session, hsession]
    · rw [h.desk.sent, hsent]

/-- The desk has answered the requests before this one. -/
theorem asked_snoc (h : Mirrors w d) {m : Message}
    (hfirst : w.asked[w.reader.sent.length]? = some m) :
    d.answers.map Prod.fst ++ [m] <+: w.asked := by
  have hlen : (d.answers.map Prod.fst).length = w.reader.sent.length := by
    rw [← h.sent, List.length_map, List.length_map]
  rw [← hlen] at hfirst
  exact snoc_prefix h.asked hfirst

/-- The request is handled. -/
theorem read_whole (h : Inv socket w d) {n : Nat} {m : Message}
    (hfirst : w.asked[w.reader.sent.length]? = some m)
    (hshort : ∀ r ∈ (m.turn db w.reader.session).sent, r.payload.length < 2 ^ 32)
    {reader : Reader σ}
    (hreader : reader = (w.reader.take n).finish (m.turn db (w.reader.take n).session))
    (hserver : reader.ended = false → ServerSide { w with reader }) :
    Inv socket { w with reader } (d.step db (.handle m)) := by
  have hturn : m.turn db (w.reader.take n).session =
      { m.turn db w.reader.session with
        session := { (m.turn db w.reader.session).session with
          input := w.reader.session.input.drop n } } := m.turn_input _ _
  have hdesk : m.turn db d.session =
      { m.turn db w.reader.session with
        session := { (m.turn db w.reader.session).session with input := [] } } := by
    rw [← h.desk.session, m.turn_input]
  have hanswers := m.turn_answers db w.reader.session
  rw [hturn] at hreader
  rw [Desk.step, hdesk]
  generalize m.turn db w.reader.session = t at *
  subst hreader
  have hone : t.sent.length ≤ 1 := by
    rw [hanswers.sent]
    split
    · exact Nat.zero_le _
    · exact Nat.le_refl _
  have hlt : w.reader.sent.length < w.asked.length := (List.getElem?_eq_some_iff.mp hfirst).1
  refine ⟨h.client.grow t.sent rfl hanswers.output hshort ?_, hserver, rfl, ?_, ?_⟩
  · change (w.reader.sent ++ t.sent).length ≤ w.asked.length
    rw [List.length_append]
    omega
  · change _ = w.reader.sent ++ t.sent
    rw [List.map_append, h.desk.sent, List.map_map]
    exact congrArg (w.reader.sent ++ ·) (List.map_id _)
  · change (d.answers ++ t.sent.map fun r => (m, r)).map Prod.fst <+: w.asked
    cases hsent : t.sent with
    | nil =>
      rw [List.map_nil, List.append_nil]
      exact h.desk.asked
    | cons r rs =>
      rw [hsent, List.length_cons] at hone
      have hnil : rs = [] := List.eq_nil_of_length_eq_zero (by omega)
      rw [hnil, List.map_append]
      exact asked_snoc h.desk hfirst

theorem eof (h : Inv socket w d) {reader : Reader σ} (heof : w.reader.eof db = some reader) :
    Inv socket { w with reader } (d.step db .hangup) := by
  rw [Reader.eof] at heof
  split at heof
  · cases heof
    have houtput : (disconnect db w.reader.session).output = w.reader.session.output := by
      rw [disconnect]
      split
      · rfl
      · rfl
    have hinput : { disconnect db w.reader.session with input := [] } =
        disconnect db w.reader.session := by
      rw [disconnect]
      split
      · rfl
      · rfl
    refine ⟨h.client.grow [] (List.append_nil _).symm ?_ (fun r hr => absurd hr List.not_mem_nil)
      h.client.sent_le, fun hno => ?_, ?_, h.desk.sent, h.desk.asked⟩
    · rw [houtput, List.flatMap_nil, List.append_nil]
    · cases hno
    · change { disconnect db w.reader.session with input := [] } = disconnect db d.session
      rw [hinput, ← h.desk.session]
      exact (disconnect_input db w.reader.session []).symm
  · cases heof

/-- **One step.** -/
theorem step (h : Inv socket w d) {own : List (DeskEvent σ)} (hown : Handling w own) {e : WireEvent σ}
    (hturn : w.InTurn db e) (hstep : w.step db e = some w') :
    ∃ plain : List (DeskEvent σ),
      plain.filterMap DeskEvent.other? = [e].filterMap WireEvent.other? ∧
      Inv socket w' (plain.foldl (Desk.step db) d) ∧
      Handling w' (own ++ plain.filter DeskEvent.isOwn) := by
  have hsame : ∀ {w' : Wire σ}, w.asked <+: w'.asked →
      (w'.reader.ended = false → w.reader.ended = false) → w'.reader.sent = w.reader.sent →
      Handling w' (own ++ []) := fun hasked hended hsent => by
    rw [List.append_nil]
    exact hown.same hasked hended hsent
  cases e with
  | send m =>
    rw [Wire.step] at hstep
    split at hstep
    · next hlost =>
      cases hstep
      refine ⟨[], rfl, ⟨h.client.send hlost m _, fun hrunning => ?_, h.desk.session, h.desk.sent,
        h.desk.asked.trans (List.prefix_append _ _)⟩, ?_⟩
      · exact (h.server hrunning).send h.client.sent_le hlost m _
      · exact hsame (List.prefix_append _ _) (fun hrunning => hrunning) rfl
    · cases hstep
  | read n =>
    obtain ⟨reader, hread, rfl⟩ := Option.map_eq_some_iff.mp hstep
    have hended : w.reader.ended = false := Reader.running_of_step (e := .read n) hread
    rcases (h.server hended).read hturn hread with
      ⟨hsent, hsession, hserver⟩ | ⟨m, hfirst, hreader, hserver⟩
    · refine ⟨[], rfl, h.read_part hsent hsession fun _ => hserver, ?_⟩
      exact hsame List.prefix_rfl (fun _ => hended) hsent
    · refine ⟨[.handle m], rfl, h.read_whole hfirst (hturn m hfirst).2 hreader hserver, ?_⟩
      refine hown.handle hended hfirst fun hrunning => ?_
      have hone : (m.turn db (w.reader.take n).session).sent.length = 1 := by
        rw [hreader] at hrunning
        rw [(m.turn_answers db (w.reader.take n).session).sent]
        exact if_neg (Bool.eq_false_iff.mp hrunning)
      rw [hreader, Reader.finish, List.length_append, hone]
      rfl
  | deliver n =>
    rw [Wire.step] at hstep
    split at hstep
    · next hguard =>
      cases hstep
      refine ⟨[], rfl, ⟨h.client.deliver hguard.1 hguard.2.2,
        fun hrunning => ⟨(h.server hrunning).stream, (h.server hrunning).got_lt⟩,
        h.desk.session, h.desk.sent, h.desk.asked⟩, ?_⟩
      exact hsame List.prefix_rfl (fun hrunning => hrunning) rfl
    · cases hstep
  | others x =>
    cases hstep
    refine ⟨[.others x], rfl, ⟨?_, fun hrunning => (h.server hrunning).others x, ?_, h.desk.sent,
      h.desk.asked⟩, hsame List.prefix_rfl (fun hrunning => hrunning) rfl⟩
    · exact ⟨h.client.short, h.client.output, h.client.delivered_le, h.client.sent_le,
        h.client.line, h.client.settled⟩
    · rw [List.foldl_cons, List.foldl_nil, Desk.step, ← h.desk.session]
  | lose k =>
    rw [Wire.step] at hstep
    split at hstep
    · next hlost =>
      cases hstep
      refine ⟨[], rfl, ⟨h.client.lose hlost _, fun hrunning => (h.server hrunning).lose k _,
        h.desk.session, h.desk.sent, h.desk.asked⟩, ?_⟩
      exact hsame List.prefix_rfl (fun hrunning => hrunning) rfl
    · cases hstep
  | kill =>
    rw [Wire.step] at hstep
    split at hstep
    · cases hstep
      refine ⟨[], rfl, ⟨?_, (fun hno => by cases hno), h.desk.session, h.desk.sent, h.desk.asked⟩,
        hsame List.prefix_rfl (fun hno => by cases hno) rfl⟩
      exact ⟨h.client.short, h.client.output, h.client.delivered_le, h.client.sent_le,
        h.client.line, h.client.settled⟩
    · cases hstep
  | eof =>
    rw [Wire.step] at hstep
    split at hstep
    · obtain ⟨reader, heof, rfl⟩ := Option.map_eq_some_iff.mp hstep
      refine ⟨[.hangup], rfl, h.eof heof, ?_⟩
      rw [Reader.eof] at heof
      split at heof
      · next hguard =>
        cases heof
        exact hown.hangup hguard.1 rfl
      · cases heof
    · cases hstep

theorem run (h : Inv socket w d) {own : List (DeskEvent σ)} (hown : Handling w own)
    {events : List (WireEvent σ)} (hok : Steps (Wire.step db) (fun w e => w.InTurn db e) w events)
    (hrun : run (Wire.step db) w events = some w') :
    ∃ plain : List (DeskEvent σ),
      plain.filterMap DeskEvent.other? = events.filterMap WireEvent.other? ∧
      Inv socket w' (plain.foldl (Desk.step db) d) ∧
      Handling w' (own ++ plain.filter DeskEvent.isOwn) := by
  induction events generalizing w d own with
  | nil =>
    cases hrun
    refine ⟨[], rfl, h, ?_⟩
    rw [List.filter_nil, List.append_nil]
    exact hown
  | cons e events ih =>
    obtain ⟨w₁, hstep, hrun⟩ := run_cons hrun
    obtain ⟨first, hfirst, h₁, hown₁⟩ := h.step hown hok.1 hstep
    obtain ⟨plain, hplain, h', hown'⟩ := ih h₁ hown₁ (hok.2 w₁ hstep) hrun
    refine ⟨first ++ plain, ?_, ?_, ?_⟩
    · have hevents : (e :: events).filterMap WireEvent.other? =
          [e].filterMap WireEvent.other? ++ events.filterMap WireEvent.other? :=
        List.filterMap_append (l := [e])
      rw [List.filterMap_append, hfirst, hplain, hevents]
    · rw [List.foldl_append]
      exact h'
    · rw [List.filter_append, ← List.append_assoc]
      exact hown'

theorem answers_eq_resolved {rs : List Reply} {answers : List (Message × KeyVDB.Response)}
    (h : rs.map Reply.toResponse = answers.map fun x => ⟨x.2.status, x.2.payload⟩) :
    Line.answers rs = resolved answers := by
  have hindexed := congrArg (fun l : List Response =>
    l.zipIdx.map fun x => (x.2, Outcome.resolved x.1)) h
  simp only [List.zipIdx_map, List.map_map] at hindexed
  exact hindexed

/-- The number of requests that the client has settled with a response. -/
theorem settled_eq (h : Inv socket w d) :
    ∃ k ≤ d.answers.length,
      w.line.settled = resolved (d.answers.take k) ++
        (if w.lost = true then rejected k w.asked.length else []) ∧
      (w.lost = false → w.delivered = w.reader.session.output.length →
        k = w.reader.sent.length) := by
  have hlen : d.answers.length = w.reader.sent.length := by
    rw [← h.desk.sent, List.length_map]
  have hanswers (k : Nat) : Line.answers ((replies w.reader.sent h.client.short).take k) =
      resolved (d.answers.take k) := by
    apply answers_eq_resolved
    rw [List.map_take, List.map_take]
    refine congrArg (List.take k) ?_
    rw [List.map_pmap]
    have hsent : w.reader.sent.map (fun r => (⟨r.status, r.payload⟩ : Response)) =
        d.answers.map fun x => ⟨x.2.status, x.2.payload⟩ := by
      rw [← h.desk.sent, List.map_map]
      rfl
    rw [← hsent]
    exact List.pmap_eq_map _
  cases hlost : w.lost with
  | true =>
    obtain ⟨k, hk, hsettled⟩ := h.client.settled hlost
    refine ⟨k, hlen ▸ hk, ?_, fun hno => by cases hno⟩
    rw [hsettled, hanswers, if_pos rfl]
  | false =>
    refine ⟨whole (replies w.reader.sent h.client.short)
      (w.reader.session.output.take w.delivered).length, ?_, ?_, fun _ hall => ?_⟩
    · have hle := whole_le (replies w.reader.sent h.client.short)
        (w.reader.session.output.take w.delivered).length
      rwa [List.length_pmap, ← hlen] at hle
    · rw [← hanswers, h.client.line hlost, if_neg Bool.false_ne_true, List.append_nil]
      rfl
    · rw [hall, List.take_length, ← h.client.wire_eq, whole_wire, List.length_pmap]

end Inv

end Wire

/-- **A pipeline of requests.** However the bytes are cut in both directions, and whatever the other
connections do to the database, the session and the database are where they would be if the server
got whole messages, in the order in which they were asked, and then hung up once at most; and each
request is settled with the response to it, in order; those without one are rejected when the
connection is lost, and not before. Once nothing is on the wire, every request is settled. The
condition is on each read: the message that the thread is in is one whose handler reads it. -/
theorem pipelined {σ : Type} (db : Database σ) (socket : SocketId) (d₀ : σ)
    (events : List (WireEvent σ)) {w : Wire σ}
    (hok : Steps (Wire.step db) (fun w e => w.InTurn db e) (Wire.start socket d₀) events)
    (hrun : run (Wire.step db) (Wire.start socket d₀) events = some w) :
    ∃ plain : List (DeskEvent σ),
      plain.filterMap DeskEvent.other? = events.filterMap WireEvent.other? ∧
      InOrder w.asked (plain.filter DeskEvent.isOwn) ∧
      let desk := plain.foldl (Desk.step db) { session := { input := [], db := d₀ } }
      { w.reader.session with input := [] } = desk.session ∧
      desk.answers.map Prod.fst <+: w.asked ∧
      ∃ k ≤ desk.answers.length,
        w.line.settled = resolved (desk.answers.take k) ++
          (if w.lost = true then rejected k w.asked.length else []) ∧
        (w.lost = false → w.reader.ended = false → w.reader.session.input = [] →
          w.delivered = w.reader.session.output.length → k = w.asked.length) := by
  obtain ⟨plain, hplain, h, hown⟩ := (Wire.inv_start socket d₀).run (.start socket d₀) hok hrun
  refine ⟨plain, hplain, hown.inOrder, h.desk.session, h.desk.asked, ?_⟩
  obtain ⟨k, hk, hsettled, hall⟩ := h.settled_eq
  refine ⟨k, hk, hsettled, fun hlost hended hinput hdelivered => ?_⟩
  rw [hall hlost hdelivered]
  exact Nat.le_antisymm h.client.sent_le ((h.server hended).quiet db hlost hinput)

/-- Four requests at once, read and answered in odd parts; the connection is lost within the third
response, with the `COMMIT` on its way. -/
theorem pipelined_lost :
    let a : WireString := ⟨[97], by decide⟩
    let events : List (WireEvent (KV × Option KV)) :=
      [.send .begin, .send (.put a ⟨[98, 99], by decide⟩), .read 1, .read 3, .send (.get a),
        .send .commit, .read 1, .read 1, .deliver 3, .read 4, .read 2, .read 1, .read 2, .read 1,
        .read 1, .deliver 4, .read 1, .read 4, .read 2, .read 1, .deliver 6, .lose 5, .read 1,
        .read 4, .eof]
    ∃ w, run (Wire.step soleClient) (Wire.start 0 (.empty, none)) events = some w ∧
      w.reader.ended = true ∧ w.reader.session.txn = none ∧
      w.line.settled = [(0, .resolved ⟨STATUS_OK, []⟩), (1, .resolved ⟨STATUS_OK, []⟩),
        (2, .rejected "KeyVDB: connection closed"), (3, .rejected "KeyVDB: connection closed")] ∧
      ∃ plain : List (DeskEvent (KV × Option KV)),
        (plain.foldl (Desk.step soleClient)
          { session := { input := [], db := (.empty, none) } }).session =
            { w.reader.session with input := [] } := by
  intro a events
  have hok : Steps (Wire.step soleClient) (fun w e => w.InTurn soleClient e)
      (Wire.start 0 (.empty, none)) events := by decide +kernel
  have hend : ((run (Wire.step soleClient) (Wire.start 0 (.empty, none)) events).map fun w =>
      (w.reader.ended, w.reader.session.txn, w.line.settled)) =
        some (true, none, [(0, .resolved ⟨STATUS_OK, []⟩), (1, .resolved ⟨STATUS_OK, []⟩),
          (2, .rejected "KeyVDB: connection closed"),
          (3, .rejected "KeyVDB: connection closed")]) := by decide +kernel
  obtain ⟨w, hrun, hw⟩ := Option.map_eq_some_iff.mp hend
  obtain ⟨hended, htxn, hsettled⟩ := Prod.mk.inj hw |>.imp_right Prod.mk.inj
  obtain ⟨plain, -, -, hsession, -⟩ := pipelined soleClient 0 (.empty, none) events hok hrun
  exact ⟨w, hrun, hended, htxn, hsettled, plain, hsession.symm⟩

end Client

end KeyVDB
