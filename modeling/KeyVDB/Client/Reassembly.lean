import KeyVDB.Client.Connection
import Mathlib.Data.List.Infix

/-!
# Responses cut into chunks

One connection on one open socket: calls of `send` in any order with `data` events, and the bytes of
the responses cut into chunks anywhere. `Line.run_eq` gives the whole state after such a run as a
function of two things only, the bytes that have come in and the number of requests sent; where the
chunks were cut and how the sends fell between them does not show in it.
-/

namespace KeyVDB

namespace Client

/-- A response of the server's handler, as `send_response` gets it. -/
def Reply.ofResponse (r : KeyVDB.Response) (h : r.payload.length < 2 ^ 32) : Reply :=
  ⟨⟨r.status, r.payload⟩, h⟩

theorem Reply.encode_ofResponse (r : KeyVDB.Response) (h : r.payload.length < 2 ^ 32) :
    (Reply.ofResponse r h).encode = r.encode :=
  rfl

/-- What happens on a connection whose socket is open. -/
inductive LineEvent
  | send (msg : Bytes)
  | data (chunk : Bytes)

/-- A connection with the requests it was given. -/
structure Line where
  conn : Connection
  /-- The next request. -/
  next : RequestId := 0
  /-- What the promises were settled with, in the order in which it was done. -/
  settled : List (RequestId × Outcome) := []

namespace Line

def step (l : Line) : LineEvent → Line
  | .send _ =>
    match l.conn.send (fun _ => false) l.next with
    | .ok (_, conn) => { l with conn := conn, next := l.next + 1 }
    | .error err =>
      { l with next := l.next + 1, settled := l.settled ++ [(l.next, .rejected err)] }
  | .data chunk =>
    let (conn, settled) := l.conn.onData chunk
    { l with conn := conn, settled := l.settled ++ settled }

/-- The events one after the other, on a connection that has just opened the socket `s`. -/
def run (s : SocketId) (evs : List LineEvent) : Line :=
  evs.foldl step { conn := { socket := some s } }

theorem run_snoc (s : SocketId) (evs : List LineEvent) (e : LineEvent) :
    run s (evs ++ [e]) = (run s evs).step e :=
  List.foldl_concat ..

end Line

/-! ## What has come in and gone out -/

/-- The bytes of the `data` events. -/
def received : List LineEvent → Bytes
  | [] => []
  | .send _ :: evs => received evs
  | .data chunk :: evs => chunk ++ received evs

/-- The number of `send` calls. -/
def sends : List LineEvent → Nat
  | [] => 0
  | .send _ :: evs => sends evs + 1
  | .data _ :: evs => sends evs

theorem received_append (evs evs' : List LineEvent) :
    received (evs ++ evs') = received evs ++ received evs' := by
  induction evs with
  | nil => rfl
  | cons e evs ih =>
    cases e with
    | send msg => exact ih
    | data chunk => rw [List.cons_append, received, received, ih, List.append_assoc]

theorem sends_append (evs evs' : List LineEvent) :
    sends (evs ++ evs') = sends evs + sends evs' := by
  induction evs with
  | nil => exact (Nat.zero_add _).symm
  | cons e evs ih =>
    cases e with
    | send msg => rw [List.cons_append, sends, sends, ih, Nat.add_right_comm]
    | data chunk => exact ih

/-- How many of the responses are whole in the first `n` bytes. -/
def whole : List Reply → Nat → Nat
  | [], _ => 0
  | r :: rs, n => if r.encode.length ≤ n then whole rs (n - r.encode.length) + 1 else 0

/-- Each request is sent before the last byte of its response has come in. -/
def InTime (rs : List Reply) (evs : List LineEvent) : Prop :=
  ∀ pre ∈ evs.inits, whole rs (received pre).length ≤ sends pre

theorem whole_le (rs : List Reply) (n : Nat) : whole rs n ≤ rs.length := by
  induction rs generalizing n with
  | nil => exact le_rfl
  | cons r rs ih =>
    rw [whole]
    split
    · exact Nat.succ_le_succ (ih _)
    · exact Nat.zero_le _

theorem length_wire_whole (rs : List Reply) (n : Nat) :
    (wire (rs.take (whole rs n))).length ≤ n := by
  induction rs generalizing n with
  | nil => exact Nat.zero_le _
  | cons r rs ih =>
    rw [whole]
    split
    · next hle =>
      have := ih (n - r.encode.length)
      rw [List.take_succ_cons, wire_cons, List.length_append]
      omega
    · exact Nat.zero_le _

theorem lt_length_wire_whole {rs : List Reply} {n : Nat} {r : Reply}
    (h : rs[whole rs n]? = some r) :
    n < (wire (rs.take (whole rs n))).length + r.encode.length := by
  induction rs generalizing n with
  | nil => cases h
  | cons r' rs ih =>
    rw [whole] at h ⊢
    split at h
    · next hle =>
      have := ih h
      rw [if_pos hle, List.take_succ_cons, wire_cons, List.length_append]
      omega
    · next hlt =>
      cases h
      rw [if_neg hlt]
      exact Nat.lt_add_left _ (Nat.not_le.mp hlt)

/-- `whole` is where a cut into whole responses and less than one response stands. -/
theorem whole_eq {rs : List Reply} {j : Nat} {rest : Bytes} (hj : j ≤ rs.length)
    (hshort : ∀ r, rs[j]? = some r → rest.length < r.encode.length) :
    whole rs (wire (rs.take j) ++ rest).length = j := by
  induction rs generalizing j with
  | nil => exact (Nat.le_zero.mp hj).symm
  | cons r rs ih =>
    cases j with
    | zero =>
      have hlt := hshort r rfl
      rw [List.take_zero, wire_nil, List.nil_append, whole, if_neg (by omega)]
    | succ j =>
      have hlen : (wire ((r :: rs).take (j + 1)) ++ rest).length =
          r.encode.length + (wire (rs.take j) ++ rest).length := by
        rw [List.take_succ_cons, wire_cons, List.append_assoc, List.length_append]
      rw [hlen, whole, if_pos (Nat.le_add_right _ _), Nat.add_sub_cancel_left,
        ih (Nat.le_of_succ_le_succ hj) hshort]

theorem whole_wire (rs : List Reply) : whole rs (wire rs).length = rs.length := by
  have hshort : ∀ r, rs[rs.length]? = some r → ([] : Bytes).length < r.encode.length := by
    intro r hr
    rw [List.getElem?_eq_none le_rfl] at hr
    cases hr
  have h := whole_eq le_rfl hshort
  rwa [List.take_length, List.append_nil] at h

/-- The first bytes of the responses, cut after the whole ones. -/
theorem wire_whole {rs : List Reply} {bytes : Bytes} (h : bytes <+: wire rs) :
    wire (rs.take (whole rs bytes.length)) ++
      bytes.drop (wire (rs.take (whole rs bytes.length))).length = bytes := by
  have hwhole : wire (rs.take (whole rs bytes.length)) <+: wire rs := by
    conv_rhs => rw [← List.take_append_drop (whole rs bytes.length) rs, wire_append]
    exact List.prefix_append _ _
  exact List.prefix_iff_eq_append.mp
    (List.prefix_of_prefix_length_le hwhole h (length_wire_whole rs _))

/-! ## The state after a run -/

namespace Line

/-- Each of the responses for the request of its number. -/
def answers (rs : List Reply) : List (RequestId × Outcome) :=
  rs.zipIdx.map fun x => (x.2, .resolved x.1.toResponse)

/-- The line once `bytes` have come in and `sent` requests have gone out. -/
def after (s : SocketId) (rs : List Reply) (bytes : Bytes) (sent : Nat) : Line :=
  let j := whole rs bytes.length
  { conn :=
      { socket := some s
        recvBuf := bytes.drop (wire (rs.take j)).length
        pendingResolvers := (List.range sent).drop j
        pendingRejecters := (List.range sent).drop j }
    next := sent
    settled := answers (rs.take j) }

/-- What the loop settles from the queue of the requests from number `k` on. -/
theorem zip_requests {rs : List Reply} {k sent : Nat} (h : k + rs.length ≤ sent) :
    (((List.range sent).drop k).zip rs).map (fun x => (x.1, Outcome.resolved x.2.toResponse)) =
      (rs.zipIdx k).map fun x => (x.2, .resolved x.1.toResponse) := by
  induction rs generalizing k with
  | nil => rw [List.zip_nil_right, List.zipIdx_nil, List.map_nil, List.map_nil]
  | cons r rs ih =>
    rw [List.length_cons] at h
    have hk : k < (List.range sent).length := by
      rw [List.length_range]
      omega
    rw [List.drop_eq_getElem_cons hk, List.getElem_range, List.zip_cons_cons, List.zipIdx_cons,
      List.map_cons, List.map_cons, ih (by omega)]

theorem answers_append (rs rs' : List Reply) {sent : Nat} (h : rs.length + rs'.length ≤ sent) :
    answers (rs ++ rs') = answers rs ++
      (((List.range sent).drop rs.length).zip rs').map fun x => (x.1, .resolved x.2.toResponse) := by
  rw [zip_requests h, answers, List.zipIdx_append, List.map_append, Nat.zero_add]
  rfl

variable {s : SocketId} {rs : List Reply} {bytes : Bytes} {sent : Nat}

theorem after_send (msg : Bytes) (h : whole rs bytes.length ≤ sent) :
    (after s rs bytes sent).step (.send msg) = after s rs bytes (sent + 1) := by
  have hqueue : (List.range sent).drop (whole rs bytes.length) ++ [sent] =
      (List.range (sent + 1)).drop (whole rs bytes.length) := by
    rw [List.range_succ, List.drop_append_of_le_length (by rwa [List.length_range])]
  simp only [step, Connection.send, after, Bool.false_eq_true, if_false, hqueue]

theorem after_data {chunk : Bytes} (hwire : bytes ++ chunk <+: wire rs)
    (h : whole rs (bytes ++ chunk).length ≤ sent) :
    (after s rs bytes sent).step (.data chunk) = after s rs (bytes ++ chunk) sent := by
  have hcut := wire_whole ((List.prefix_append bytes chunk).trans hwire)
  have hj := whole_le rs bytes.length
  simp only [step, after]
  generalize whole rs bytes.length = j at *
  generalize bytes.drop (wire (rs.take j)).length = rest at *
  subst hcut
  -- the buffer holds the first bytes of the responses after the `j`-th
  have hbuf : rest ++ chunk <+: wire (rs.drop j) := by
    conv at hwire => rhs; rw [← List.take_append_drop j rs, wire_append]
    rwa [List.append_assoc, List.prefix_append_right_inj] at hwire
  obtain ⟨i, rest', hi, hrest, hshort, hconn, hsettled⟩ :=
    Connection.onData_wire (c :=
      { socket := some s, recvBuf := rest, pendingResolvers := (List.range sent).drop j,
        pendingRejecters := (List.range sent).drop j }) hbuf
  rw [List.length_drop] at hi
  have hbytes : wire (rs.take j) ++ rest ++ chunk = wire (rs.take (j + i)) ++ rest' := by
    rw [List.append_assoc, hrest, List.take_add, wire_append, List.append_assoc]
  have hwhole : whole rs (wire (rs.take j) ++ rest ++ chunk).length = j + i := by
    rw [hbytes]
    refine whole_eq (by omega) fun r hr => hshort r ?_
    rwa [List.getElem?_drop]
  rw [hwhole] at h ⊢
  have htail : (wire (rs.take j) ++ rest ++ chunk).drop (wire (rs.take (j + i))).length = rest' := by
    rw [hbytes]
    exact drop_append_field rfl
  have hlen : (rs.take j).length = j := List.length_take_of_le hj
  have hsent : (rs.take j).length + ((rs.drop j).take i).length ≤ sent := by
    rw [hlen, List.length_take_of_le (by rwa [List.length_drop])]
    exact h
  have hanswers := answers_append (rs.take j) ((rs.drop j).take i) hsent
  rw [hlen, ← List.take_add] at hanswers
  rw [hconn, hsettled, htail, hanswers, List.drop_drop]

theorem inTime_of_append {evs : List LineEvent} {e : LineEvent} (h : InTime rs (evs ++ [e])) :
    InTime rs evs := by
  intro pre hpre
  refine h pre ?_
  rw [List.mem_inits] at hpre ⊢
  exact hpre.trans (List.prefix_append _ _)

/-- **The state after a run** depends on the bytes and on the number of requests only. -/
theorem run_eq {evs : List LineEvent} (hwire : received evs <+: wire rs) (htime : InTime rs evs) :
    run s evs = after s rs (received evs) (sends evs) := by
  induction evs using List.reverseRecOn with
  | nil =>
    have hzero : whole rs 0 = 0 := by
      cases rs with
      | nil => rfl
      | cons r rs => rw [whole, if_neg (by rw [Reply.length_encode, HEADER_SIZE]; omega)]
    simp [run, after, received, sends, answers, hzero]
  | append_singleton evs e ih =>
    have hnow := htime (evs ++ [e]) ((List.mem_inits _ _).mpr List.prefix_rfl)
    have hbefore := htime evs ((List.mem_inits _ _).mpr (List.prefix_append _ _))
    rw [received_append] at hwire hnow ⊢
    rw [sends_append] at hnow ⊢
    rw [run_snoc, ih ((List.prefix_append _ _).trans hwire) (inTime_of_append htime)]
    cases e with
    | send msg =>
      rw [after_send msg hbefore]
      simp only [received, sends, List.append_nil]
    | data chunk =>
      simp only [received, sends, List.append_nil, Nat.add_zero] at hwire hnow ⊢
      exact after_data hwire hnow

end Line

/-- **Reassembly does not depend on the chunks.** Whatever the chunks and the sends between them,
the responses that are whole among the bytes that came in have settled the first requests, each the
request of its number and once; the buffer holds the other bytes, less than a response; and every
other run with the same bytes and as many requests ends in the same state. -/
theorem reassembles_responses (s : SocketId) (rs : List Reply) (evs : List LineEvent)
    (hwire : received evs <+: wire rs) (htime : InTime rs evs) :
    let l := Line.run s evs
    (∃ j, j ≤ rs.length ∧
      received evs = wire (rs.take j) ++ l.conn.recvBuf ∧
      (∀ r, rs[j]? = some r → l.conn.recvBuf.length < r.encode.length) ∧
      l.settled = Line.answers (rs.take j) ∧
      l.conn.pendingResolvers = (List.range (sends evs)).drop j ∧
      l.conn.pendingRejecters = (List.range (sends evs)).drop j) ∧
    (received evs = wire rs → l.settled = Line.answers rs ∧ l.conn.recvBuf = []) ∧
    ∀ evs', received evs' = received evs → sends evs' = sends evs → InTime rs evs' →
      Line.run s evs' = l := by
  dsimp only
  rw [Line.run_eq hwire htime]
  refine ⟨⟨whole rs (received evs).length, whole_le rs _, (wire_whole hwire).symm, ?_, rfl, rfl, rfl⟩,
    ?_, ?_⟩
  · intro r hr
    have hlt := lt_length_wire_whole hr
    simp only [Line.after, List.length_drop]
    have := length_wire_whole rs (received evs).length
    omega
  · intro hall
    have hwhole : whole rs (received evs).length = rs.length := by rw [hall, whole_wire]
    simp only [Line.after]
    rw [hwhole, List.take_length, hall, List.drop_length]
    exact ⟨rfl, rfl⟩
  · intro evs' hreceived hsends htime'
    rw [Line.run_eq (hreceived ▸ hwire) htime', hreceived, hsends]

/-- Two answers, cut within a header and within a payload, the second request sent in between. -/
theorem reassembles_responses_cut :
    let rs : List Reply := [⟨⟨STATUS_OK, [0, 1, 97]⟩, by decide⟩, ⟨⟨STATUS_NOT_FOUND, []⟩, by decide⟩]
    let evs : List LineEvent := [.send [2], .data [0, 0, 0], .data [0, 3, 0, 1], .send [3],
      .data [97, 1, 0, 0, 0, 0]]
    let l := Line.run 0 evs
    received evs = wire rs ∧ InTime rs evs ∧ l.settled = Line.answers rs ∧ l.conn.recvBuf = [] := by
  intro rs evs
  have hall : received evs = wire rs := by decide
  have htime : InTime rs evs := by unfold InTime; decide
  have hwire : received evs <+: wire rs := hall ▸ List.prefix_rfl
  exact ⟨hall, htime, (reassembles_responses 0 rs evs hwire htime).2.1 hall⟩

end Client

end KeyVDB
