import KeyVDB.Wal.Codec
import KeyVDB.Lib.Run

/-!
# The counters of the log over its sessions

The log manager keeps no counter on disk: each time the file is opened `scan_for_max_ids` rebuilds
the next LSN and the next transaction id from the headers. Two loops parse the file, this one by
hopping over the payloads and `read_all` field by field; `scanFrom_eq` says that they stop at the
same offsets on every file that `read_all` accepts. A history of the file is a run of append calls
and reopenings, and `Counted` is what every step of it keeps.
-/

namespace KeyVDB

namespace LogManager

/-! ## The two loops -/

/-- `readFrom` with the offset of each record, and the offset at which the loop ends. -/
def readFromAt (file : Bytes) : Nat → Nat → Except Exn (List (Nat × WalRecord) × Nat)
  | 0, _ => .error (.runtimeError "unreachable")
  | fuel + 1, offset =>
    let b := pread file WalRecordHeader.SIZE offset
    if b.length < WalRecordHeader.SIZE then .ok ([], offset)
    else
      let hdr := WalRecordHeader.ofBytes b
      if hdr.type = .INVALID then .ok ([], offset)
      else do
        let (rec, next) ← readPayload file hdr offset
        let (rest, stop) ← readFromAt file fuel next
        return ((offset, rec) :: rest, stop)

/-- `readAll` with the offsets. -/
def readAllAt (file : Bytes) : Except Exn (List (Nat × WalRecord) × Nat) :=
  readFromAt file (file.length + 1) 0

theorem map_readFromAt (file : Bytes) (fuel offset : Nat) :
    (readFromAt file fuel offset).map (fun x => x.1.map Prod.snd) = readFrom file fuel offset := by
  induction fuel generalizing offset with
  | zero => rfl
  | succ fuel ih =>
    rw [readFromAt, readFrom]
    dsimp only
    split
    · rfl
    · split
      · rfl
      · cases readPayload file _ offset with
        | error e => rfl
        | ok x =>
          simp only [bind, Except.bind]
          rw [← ih]
          cases readFromAt file fuel x.2 <;> rfl

/-- The larger of the two, as the scan takes it. -/
def larger (m a : Int64) : Int64 := if m < a then a else m

/-- A round of both loops, where the reader returns. -/
theorem readFromAt_cases {file : Bytes} {fuel offset stop : Nat}
    {decoded : List (Nat × WalRecord)}
    (h : readFromAt file (fuel + 1) offset = .ok (decoded, stop)) :
    (decoded = [] ∧ stop = offset ∧ ∀ s : Scan, s.offset = offset → scanRound file s = none) ∨
    ∃ r rest, decoded = (offset, r) :: rest ∧
      readFromAt file fuel (offset + r.toBytes.length) = .ok (rest, stop) ∧
      ∀ s : Scan, s.offset = offset → scanRound file s = some
        { offset := offset + r.toBytes.length
          maxLsn := larger s.maxLsn r.lsn
          maxTxnId := larger s.maxTxnId r.txnId } := by
  rw [readFromAt] at h
  dsimp only at h
  split at h
  · next hshort =>
    cases h
    refine .inl ⟨rfl, rfl, ?_⟩
    rintro s rfl
    rw [scanRound, if_pos hshort]
  · next hlong =>
    split at h
    · next hinvalid =>
      cases h
      refine .inl ⟨rfl, rfl, ?_⟩
      rintro s rfl
      rw [scanRound, if_neg hlong, if_pos hinvalid]
    · next hvalid =>
      obtain ⟨⟨r, next⟩, hpayload, h⟩ := except_bind_eq_ok.mp h
      obtain ⟨⟨rest, last⟩, hrest, h⟩ := except_bind_eq_ok.mp h
      obtain ⟨hlsn, htxn, hnext, hlen⟩ := readPayload_header hpayload
      cases h
      refine .inr ⟨r, rest, rfl, hnext ▸ hrest, ?_⟩
      rintro s rfl
      rw [scanRound, if_neg hlong, if_neg hvalid, hlen, hlsn, htxn]
      rfl

/-- **The loops agree**: where the reader returns, the scan looks for a header at the offset of each
record and at the end, and nowhere else. -/
theorem scanFrom_eq {file : Bytes} {fuel : Nat} {s : Scan} {decoded : List (Nat × WalRecord)}
    {stop : Nat} (h : readFromAt file fuel s.offset = .ok (decoded, stop)) :
    scanFrom file fuel s =
      (decoded.map Prod.fst ++ [stop],
        { offset := stop
          maxLsn := (decoded.map fun d => d.2.lsn).foldl larger s.maxLsn
          maxTxnId := (decoded.map fun d => d.2.txnId).foldl larger s.maxTxnId }) := by
  induction fuel generalizing s decoded with
  | zero => cases h
  | succ fuel ih =>
    rw [scanFrom]
    rcases readFromAt_cases h with ⟨rfl, rfl, hround⟩ | ⟨r, rest, rfl, hrest, hround⟩
    · rw [hround s rfl]
      rfl
    · rw [hround s rfl]
      dsimp only
      rw [ih hrest]
      simp only [List.map_cons, List.cons_append, List.foldl_cons]

/-- The reader passes the bytes of the records it returns. -/
theorem readFromAt_stop {file : Bytes} {fuel offset stop : Nat} {decoded : List (Nat × WalRecord)}
    (h : readFromAt file fuel offset = .ok (decoded, stop)) :
    stop = offset + (encodeLog (decoded.map Prod.snd)).length := by
  induction fuel generalizing offset decoded with
  | zero => cases h
  | succ fuel ih =>
    rcases readFromAt_cases h with ⟨rfl, rfl, -⟩ | ⟨r, rest, rfl, hrest, -⟩
    · rfl
    · rw [ih hrest, List.map_cons, encodeLog_cons, List.length_append, Nat.add_assoc]

/-! ## The largest of the ids -/

theorem toInt_larger (m a : Int64) : (larger m a).toInt = max m.toInt a.toInt := by
  rw [larger]
  split
  · next h => exact (max_eq_right (Int64.lt_iff_toInt_lt.mp h).le).symm
  · next h => exact (max_eq_left (Int64.le_iff_toInt_le.mp (Int64.not_lt.mp h))).symm

/-- What the scan finds is one of the ids and none of them is larger. -/
theorem foldl_larger (l : List Int64) (m : Int64) :
    m.toInt ≤ (l.foldl larger m).toInt ∧ (∀ a ∈ l, a.toInt ≤ (l.foldl larger m).toInt) ∧
      (l.foldl larger m = m ∨ l.foldl larger m ∈ l) := by
  induction l generalizing m with
  | nil => exact ⟨le_rfl, fun a ha => absurd ha List.not_mem_nil, .inl rfl⟩
  | cons b l ih =>
    obtain ⟨hm, hall, hmem⟩ := ih (larger m b)
    rw [toInt_larger] at hm
    rw [List.foldl_cons]
    refine ⟨(le_max_left _ _).trans hm, ?_, ?_⟩
    · intro a ha
      rcases List.mem_cons.mp ha with rfl | ha
      · exact (le_max_right _ _).trans hm
      · exact hall a ha
    · rcases hmem with hmem | hmem
      · by_cases hlt : m < b
        · exact .inr (List.mem_cons.mpr (.inl (hmem.trans (if_pos hlt))))
        · exact .inl (hmem.trans (if_neg hlt))
      · exact .inr (List.mem_cons_of_mem _ hmem)

theorem toInt_succ {x : Int64} (h : x.toInt + 1 < 2 ^ 63) : (x + 1).toInt = x.toInt + 1 := by
  have hlow := x.le_toInt
  have hone : (1 : Int64).toInt = 1 := rfl
  rw [Int64.toInt_add, hone]
  exact Int.bmod_eq_of_le (by omega) (by omega)

/-- The counter that the scan puts in place after it has found `m`. -/
def following (m : Int64) : Int64 := if 0 < m then m + 1 else 1

theorem toInt_following {m : Int64} (hpos : 0 ≤ m.toInt) (h : m.toInt + 1 < 2 ^ 63) :
    (following m).toInt = m.toInt + 1 := by
  have hzero : (0 : Int64).toInt = 0 := rfl
  rw [following]
  split
  · exact toInt_succ h
  · next hle =>
    rw [Int64.lt_iff_toInt_lt, hzero] at hle
    have hm : m.toInt = 0 := by omega
    rw [hm]
    rfl

theorem openFile_nextLsn (file : Bytes) :
    (openFile file).nextLsn = following (scan file).2.maxLsn :=
  rfl

theorem openFile_nextTxnId (file : Bytes) :
    (openFile file).nextTxnId = following (scan file).2.maxTxnId :=
  rfl

end LogManager

/-! ## Histories of a log file -/

/-- The transaction a call is given. -/
def LogCall.txnId? : LogCall → Option TxnId
  | beginTxn => none
  | appendWrite txnId _ _ _ _ => some txnId
  | appendCommit txnId => some txnId
  | appendAbort txnId => some txnId

inductive LogAction
  | call (c : LogCall)
  /-- The log manager is destroyed and another one constructed on the file. -/
  | reopen

/-- A log file with what was done to it. -/
structure LogHistory where
  log : LogManager := .openFile []
  /-- The ids that `begin_txn` returned. -/
  begun : List TxnId := []
  /-- The records of the calls. -/
  appended : List WalRecord := []

namespace LogHistory

/-- A step; `none` where the call throws, or is given an id that `begin_txn` did not return. -/
def step (h : LogHistory) : LogAction → Option LogHistory
  | .call c =>
    let r := (h.log.exec c).1
    if (c.txnId?.all fun id => id ∈ h.begun) ∧ Transfers h.log.file.length r.toBytes.length then
      some
        { log := (h.log.exec c).2
          begun := if c = .beginTxn then h.begun ++ [r.txnId] else h.begun
          appended := h.appended ++ [r] }
    else none
  | .reopen => some { h with log := .openFile h.log.file }

/-- The ids in the records, and the next one. -/
structure IdsBelow (rs : List WalRecord) (next : TxnId) : Prop where
  ids : ∀ r ∈ rs, 1 ≤ r.txnId.toInt ∧ r.txnId.toInt < next.toInt
  last : next.toInt = 1 ∨ ∃ r ∈ rs, next.toInt = r.txnId.toInt + 1
  le : next.toInt ≤ rs.length + 1

/-- What every step keeps. -/
structure Counted (h : LogHistory) : Prop where
  file : h.log.file = encodeLog h.appended
  wellFormed : ∀ r ∈ h.appended, r.Appended ∧ r.Short
  inRange : h.log.file.length < 2 ^ 63
  lsns : h.appended.map (fun r => r.lsn.toInt) =
    (List.range h.appended.length).map fun i : Nat => (i : Int) + 1
  nextLsn : h.log.nextLsn.toInt = h.appended.length + 1
  idsBelow : IdsBelow h.appended h.log.nextTxnId
  begun : ∀ id ∈ h.begun, ∃ r ∈ h.appended, r.txnId = id

/-! ## A call -/

section Call

variable (lm : LogManager) (c : LogCall)

theorem exec_lsn : (lm.exec c).1.lsn = lm.nextLsn := by cases c <;> rfl

theorem exec_nextLsn : (lm.exec c).2.nextLsn = lm.nextLsn + 1 := by cases c <;> rfl

/-- `begin_txn` takes the next id, another call uses the id it is given. -/
theorem exec_txnId :
    (c = .beginTxn ∧ (lm.exec c).1.txnId = lm.nextTxnId ∧
      (lm.exec c).2.nextTxnId = lm.nextTxnId + 1) ∨
    (c ≠ .beginTxn ∧ c.txnId? = some (lm.exec c).1.txnId ∧
      (lm.exec c).2.nextTxnId = lm.nextTxnId) := by
  cases c with
  | beginTxn => exact .inl ⟨rfl, rfl, rfl⟩
  | appendWrite t k e b a => exact .inr ⟨(fun e => by cases e), rfl, rfl⟩
  | appendCommit t => exact .inr ⟨(fun e => by cases e), rfl, rfl⟩
  | appendAbort t => exact .inr ⟨(fun e => by cases e), rfl, rfl⟩

end Call

theorem short_of_transfers {r : WalRecord} {offset : Nat} (h : Transfers offset r.toBytes.length) :
    r.Short :=
  LogManager.short_of_le h.1

/-- The file is too short for the counters to wrap. -/
theorem size_mul_le_encodeLog (rs : List WalRecord) :
    WalRecordHeader.SIZE * rs.length ≤ (encodeLog rs).length := by
  induction rs with
  | nil => exact Nat.zero_le _
  | cons r rs ih =>
    have := r.size_le_length
    rw [encodeLog_cons, List.length_cons, List.length_append, Nat.mul_succ]
    omega

namespace IdsBelow

variable {rs : List WalRecord} {next : TxnId} {r : WalRecord}

theorem one_le (h : IdsBelow rs next) : 1 ≤ next.toInt := by
  rcases h.last with he | ⟨r, hr, he⟩
  · exact he.ge
  · have := (h.ids r hr).1
    omega

theorem begin (h : IdsBelow rs next) (hr : r.txnId = next) (hlen : next.toInt + 1 < 2 ^ 63) :
    IdsBelow (rs ++ [r]) (next + 1) := by
  have hsucc := LogManager.toInt_succ hlen
  have hone := h.one_le
  have hle := h.le
  refine ⟨?_, .inr ⟨r, List.mem_append.mpr (.inr List.mem_cons_self), by rw [hr, hsucc]⟩, ?_⟩
  · intro q hq
    rw [hsucc]
    rcases List.mem_append.mp hq with hq | hq
    · have := h.ids q hq
      omega
    · rw [List.mem_singleton.mp hq, hr]
      omega
  · rw [hsucc, List.length_append, List.length_singleton]
    omega

theorem append (h : IdsBelow rs next) (hr : ∃ q ∈ rs, q.txnId = r.txnId) :
    IdsBelow (rs ++ [r]) next := by
  obtain ⟨q, hq, he⟩ := hr
  refine ⟨?_, ?_, ?_⟩
  · intro p hp
    rcases List.mem_append.mp hp with hp | hp
    · exact h.ids p hp
    · rw [List.mem_singleton.mp hp, ← he]
      exact h.ids q hq
  · exact h.last.imp_right fun ⟨p, hp, e⟩ => ⟨p, List.mem_append_left _ hp, e⟩
  · have := h.le
    rw [List.length_append]
    omega

/-- The scan finds the last of the ids. -/
theorem reopen (h : IdsBelow rs next) (hlen : (rs.length : Int) + 1 < 2 ^ 63) :
    IdsBelow rs (LogManager.following ((rs.map WalRecord.txnId).foldl LogManager.larger 0)) := by
  obtain ⟨hpos, hall, hmem⟩ := LogManager.foldl_larger (rs.map WalRecord.txnId) 0
  generalize (rs.map WalRecord.txnId).foldl LogManager.larger 0 = m at *
  have hle : m.toInt + 1 ≤ next.toInt := by
    rcases hmem with rfl | hmem
    · exact h.one_le
    · obtain ⟨r, hr, rfl⟩ := List.mem_map.mp hmem
      exact (h.ids r hr).2
  have hbound := h.le
  have hnext : (LogManager.following m).toInt = m.toInt + 1 :=
    LogManager.toInt_following hpos (by omega)
  refine ⟨?_, ?_, by omega⟩
  · intro r hr
    have := hall r.txnId (List.mem_map_of_mem hr)
    exact ⟨(h.ids r hr).1, by omega⟩
  · rcases hmem with rfl | hmem
    · exact .inl hnext
    · obtain ⟨r, hr, rfl⟩ := List.mem_map.mp hmem
      exact .inr ⟨r, hr, hnext⟩

end IdsBelow

/-- The scan finds the last of the LSNs. -/
theorem toInt_following_lsns {rs : List WalRecord}
    (hlsns : rs.map (fun r => r.lsn.toInt) = (List.range rs.length).map fun i : Nat => (i : Int) + 1)
    (hlen : (rs.length : Int) + 1 < 2 ^ 63) :
    (LogManager.following ((rs.map WalRecord.lsn).foldl LogManager.larger 0)).toInt =
      rs.length + 1 := by
  obtain ⟨hpos, hall, hmem⟩ := LogManager.foldl_larger (rs.map WalRecord.lsn) 0
  generalize (rs.map WalRecord.lsn).foldl LogManager.larger 0 = m at *
  have hle : m.toInt ≤ rs.length := by
    rcases hmem with rfl | hmem
    · exact Int.natCast_nonneg _
    · obtain ⟨r, hr, rfl⟩ := List.mem_map.mp hmem
      have hmem : r.lsn.toInt ∈ (List.range rs.length).map fun i : Nat => (i : Int) + 1 :=
        hlsns ▸ List.mem_map_of_mem (f := fun r : WalRecord => r.lsn.toInt) hr
      obtain ⟨i, hi, he⟩ := List.mem_map.mp hmem
      have := List.mem_range.mp hi
      omega
  have hge : (rs.length : Int) ≤ m.toInt := by
    cases hn : rs.length with
    | zero => exact hpos
    | succ n =>
      have hlast : ((n : Int) + 1) ∈ rs.map fun r => r.lsn.toInt := by
        rw [hlsns, hn]
        exact List.mem_map.mpr ⟨n, List.mem_range.mpr (Nat.lt_succ_self n), rfl⟩
      obtain ⟨r, hr, he⟩ := List.mem_map.mp hlast
      have := hall r.lsn (List.mem_map_of_mem hr)
      push_cast
      omega
  rw [LogManager.toInt_following hpos (by omega)]
  omega

namespace Counted

variable {h : LogHistory}

theorem length_lt (hc : Counted h) : WalRecordHeader.SIZE * h.appended.length < 2 ^ 63 :=
  (size_mul_le_encodeLog _).trans_lt (hc.file ▸ hc.inRange)

theorem call (hc : Counted h) {c : LogCall} (hid : ∀ id ∈ c.txnId?, id ∈ h.begun)
    (htransfers : Transfers h.log.file.length (h.log.exec c).1.toBytes.length) :
    Counted
      { log := (h.log.exec c).2
        begun := if c = .beginTxn then h.begun ++ [(h.log.exec c).1.txnId] else h.begun
        appended := h.appended ++ [(h.log.exec c).1] } := by
  have hlen := hc.length_lt
  rw [WalRecordHeader.SIZE] at hlen
  have hle := hc.idsBelow.le
  have hnext : (h.log.nextLsn + 1).toInt = h.log.nextLsn.toInt + 1 :=
    LogManager.toInt_succ (by rw [hc.nextLsn]; omega)
  refine
    { file := ?_, wellFormed := ?_, inRange := ?_, lsns := ?_, nextLsn := ?_, idsBelow := ?_
      begun := ?_ }
  · rw [LogManager.exec_file, hc.file, encodeLog_append, encodeLog_cons, encodeLog_nil,
      List.append_nil]
  · intro r hr
    rcases List.mem_append.mp hr with hr | hr
    · exact hc.wellFormed r hr
    · rw [List.mem_singleton.mp hr]
      exact ⟨LogManager.exec_appended h.log c, short_of_transfers htransfers⟩
  · rw [LogManager.exec_file, List.length_append]
    exact htransfers.2
  · simp only [List.map_append, List.map_cons, List.map_nil, List.length_append,
      List.length_singleton, List.range_succ, hc.lsns, exec_lsn, hc.nextLsn]
  · rw [exec_nextLsn, hnext, hc.nextLsn, List.length_append]
    rfl
  · rcases exec_txnId h.log c with ⟨-, htxn, hnextId⟩ | ⟨-, htxn, hnextId⟩
    · rw [hnextId]
      exact hc.idsBelow.begin htxn (by omega)
    · rw [hnextId]
      exact hc.idsBelow.append (hc.begun _ (hid _ htxn))
  · have hold : ∀ id ∈ h.begun, ∃ r ∈ h.appended ++ [(h.log.exec c).1], r.txnId = id := by
      intro id hid
      obtain ⟨r, hr, he⟩ := hc.begun id hid
      exact ⟨r, List.mem_append_left _ hr, he⟩
    dsimp only
    split
    · intro id hid
      rcases List.mem_append.mp hid with hid | hid
      · exact hold id hid
      · exact ⟨_, List.mem_append_right _ List.mem_cons_self, (List.mem_singleton.mp hid).symm⟩
    · exact hold

/-- The reader takes the whole file for the records of the calls. -/
theorem readAllAt (hc : Counted h) :
    ∃ decoded, LogManager.readAllAt h.log.file = .ok (decoded, h.log.file.length) ∧
      decoded.map Prod.snd = h.appended.map WalRecord.wire := by
  have hread : LogManager.readAll (encodeLog h.appended ++ []) =
      .ok (h.appended.map WalRecord.wire) :=
    LogManager.readAll_encodeLog_wire h.appended hc.wellFormed (by decide)
  rw [List.append_nil, ← hc.file, LogManager.readAll, ← LogManager.map_readFromAt] at hread
  cases hat : LogManager.readFromAt h.log.file (h.log.file.length + 1) 0 with
  | error e =>
    rw [hat] at hread
    cases hread
  | ok x =>
    obtain ⟨decoded, stop⟩ := x
    rw [hat] at hread
    have hrecords : decoded.map Prod.snd = h.appended.map WalRecord.wire := Except.ok.inj hread
    have hsame : encodeLog (h.appended.map WalRecord.wire) = encodeLog h.appended :=
      List.flatMap_map _ _ _
    have hstop := LogManager.readFromAt_stop hat
    rw [hrecords, hsame, ← hc.file, Nat.zero_add] at hstop
    exact ⟨decoded, hstop ▸ hat, hrecords⟩

theorem reopen (hc : Counted h) : Counted { h with log := .openFile h.log.file } := by
  obtain ⟨decoded, hread, hrecords⟩ := hc.readAllAt
  have hscan := LogManager.scanFrom_eq (s := {}) hread
  have hlsns : (decoded.map fun d => d.2.lsn) = h.appended.map WalRecord.lsn := by
    have := congrArg (List.map WalRecord.lsn) hrecords
    rwa [List.map_map, List.map_map] at this
  have hids : (decoded.map fun d => d.2.txnId) = h.appended.map WalRecord.txnId := by
    have := congrArg (List.map WalRecord.txnId) hrecords
    rwa [List.map_map, List.map_map] at this
  rw [hlsns, hids] at hscan
  have hlen := hc.length_lt
  rw [WalRecordHeader.SIZE] at hlen
  refine { hc with nextLsn := ?_, idsBelow := ?_ }
  · rw [LogManager.openFile_nextLsn, LogManager.scan, hscan]
    exact toInt_following_lsns hc.lsns (by omega)
  · rw [LogManager.openFile_nextTxnId, LogManager.scan, hscan]
    exact hc.idsBelow.reopen (by omega)

theorem step (hc : Counted h) {a : LogAction} {h' : LogHistory} (hstep : h.step a = some h') :
    Counted h' := by
  cases a with
  | call c =>
    simp only [LogHistory.step] at hstep
    split at hstep
    · next hcall =>
      cases hstep
      refine hc.call (fun id hid => ?_) hcall.2
      exact of_decide_eq_true ((Option.all_eq_true _ _).mp hcall.1 id hid)
    · cases hstep
  | reopen =>
    cases hstep
    exact hc.reopen

end Counted

theorem counted_init : Counted {} where
  file := rfl
  wellFormed := fun r hr => absurd hr List.not_mem_nil
  inRange := by decide
  lsns := rfl
  nextLsn := rfl
  idsBelow := ⟨fun r hr => absurd hr List.not_mem_nil, .inl rfl, by decide⟩
  begun := fun id hid => absurd hid List.not_mem_nil

theorem counted_run {actions : List LogAction} {h : LogHistory}
    (hrun : run step {} actions = some h) : Counted h :=
  run_inv (C := fun _ _ => True) (fun _ _ _ hc _ hstep => hc.step hstep) counted_init
    (steps_of_forall (fun _ _ => trivial) _ _) hrun

end LogHistory

/-- **The counters continue over every reopening.** In every history of a log file, the reader
returns a record for each call, decoded one after the other up to the end of the file; the scan
looks for headers at the offsets of these records and at the end; the LSNs count from 1 in the
order of the file; and the id that `begin_txn` would return next is in none of the records. -/
theorem log_counters_continue (actions : List LogAction) (h : LogHistory)
    (hrun : run LogHistory.step {} actions = some h) :
    ∃ decoded, LogManager.readAllAt h.log.file = .ok (decoded, h.log.file.length) ∧
      LogManager.readAll h.log.file = .ok (decoded.map Prod.snd) ∧
      decoded.length = h.appended.length ∧
      (LogManager.scan h.log.file).1 = decoded.map Prod.fst ++ [h.log.file.length] ∧
      decoded.map (fun d => d.2.lsn.toInt) =
        (List.range decoded.length).map (fun i : Nat => (i : Int) + 1) ∧
      h.log.beginTxn.1.txnId ∉ decoded.map fun d => d.2.txnId := by
  have hc := LogHistory.counted_run hrun
  obtain ⟨decoded, hread, hrecords⟩ := hc.readAllAt
  have hlen : decoded.length = h.appended.length := by
    have := congrArg List.length hrecords
    rwa [List.length_map, List.length_map] at this
  refine ⟨decoded, hread, ?_, hlen, ?_, ?_, ?_⟩
  · rw [LogManager.readAll, ← LogManager.map_readFromAt]
    exact congrArg (Except.map fun x => x.1.map Prod.snd) hread
  · exact congrArg Prod.fst (LogManager.scanFrom_eq (s := {}) hread)
  · have hlsns := congrArg (List.map fun r : WalRecord => r.lsn.toInt) hrecords
    rw [List.map_map, List.map_map] at hlsns
    rw [hlen, ← hc.lsns]
    exact hlsns
  · intro hmem
    obtain ⟨d, hd, he⟩ := List.mem_map.mp hmem
    have hwire : d.2 ∈ h.appended.map WalRecord.wire :=
      hrecords ▸ List.mem_map_of_mem hd
    obtain ⟨r, hr, hrd⟩ := List.mem_map.mp hwire
    have hlt := (hc.idsBelow.ids r hr).2
    have hsame : r.txnId = h.log.nextTxnId := (congrArg WalRecord.txnId hrd).trans he
    rw [hsame] at hlt
    exact lt_irrefl _ hlt

/-- Two transactions, with a restart in the middle of the first and one after it. -/
theorem log_counters_continue_restart :
    ∃ h, run LogHistory.step {} [.call .beginTxn, .call (.appendWrite 1 [97] false [] [98]), .reopen,
        .call (.appendCommit 1), .reopen, .call .beginTxn] = some h ∧
      (LogManager.scan h.log.file).1 = [0, 32, 66, 98, 130] ∧ h.log.beginTxn.1.txnId = 3 ∧
      ∃ decoded, LogManager.readAllAt h.log.file = .ok (decoded, h.log.file.length) ∧
        (LogManager.scan h.log.file).1 = decoded.map Prod.fst ++ [h.log.file.length] ∧
        h.log.beginTxn.1.txnId ∉ decoded.map fun d => d.2.txnId := by
  have hruns : (run LogHistory.step {} [.call .beginTxn, .call (.appendWrite 1 [97] false [] [98]),
      .reopen, .call (.appendCommit 1), .reopen, .call .beginTxn]).map (fun h =>
        ((LogManager.scan h.log.file).1, h.log.beginTxn.1.txnId)) =
      some ([0, 32, 66, 98, 130], 3) := by decide +kernel
  obtain ⟨h, hrun, hvalues⟩ := Option.map_eq_some_iff.mp hruns
  obtain ⟨hoffsets, hid⟩ := Prod.mk.inj hvalues
  refine ⟨h, hrun, hoffsets, hid, ?_⟩
  obtain ⟨decoded, hread, -, -, hscan, -, hfresh⟩ := log_counters_continue _ _ hrun
  exact ⟨decoded, hread, hscan, hfresh⟩

end KeyVDB
