import Mathlib.Data.List.Forall2
import KeyVDB.Wal.LogManager
import KeyVDB.Lib.Call

/-!
# The log's wire format: round trip and torn tails

What `readAll` makes of the bytes that the append calls produced. A record whose three lengths fit
in 32 bits is read back as its `wire` image: everything but `beforeExists`, which comes back as
"the before-image is not empty". So what a sequence of calls has logged is read back exactly when no
call has an empty before-image and every record was written whole (`readAll_callAll_iff`), and a file
cut at byte `n` is read back exactly when its records are `Readable` and the cut leaves less than a
header of the record it falls into (`readAll_take_iff`): a cut inside the payload makes the reader
throw.
-/

namespace KeyVDB

/-! ## Headers -/

theorem int64_roundtrip (i : Int64) :
    (UInt64.ofNat (leNat (leBytes 8 i.toUInt64.toNat))).toInt64 = i := by
  rw [leNat_leBytes_of_lt (by simpa using i.toUInt64.toNat_lt)]
  simp

theorem uint32_roundtrip (u : UInt32) : UInt32.ofNat (leNat (leBytes 4 u.toNat)) = u := by
  rw [leNat_leBytes_of_lt (by simpa using u.toNat_lt)]
  simp

namespace WalRecordHeader

@[simp] theorem length_toBytes (h : WalRecordHeader) : h.toBytes.length = SIZE := by
  simp [toBytes, SIZE]

/-- A header is read back from its bytes. -/
theorem ofBytes_toBytes {h : WalRecordHeader} (ht : h.type.Named) : ofBytes h.toBytes = h := by
  have l8 (n : Nat) : (leBytes 8 n).length = 8 := length_leBytes 8 n
  have l4 (n : Nat) : (leBytes 4 n).length = 4 := length_leBytes 4 n
  have t4 (n : Nat) : (leBytes 4 n).take 4 = leBytes 4 n := List.take_of_length_le (l4 n).le
  unfold ofBytes toBytes
  simp only [take_append_field (l8 _), drop_append_field (l8 _), drop_append_add (l8 _) 8,
    drop_append_add (l8 _) 12, drop_append_add (l8 _) 16, drop_append_add (l8 _) 20,
    drop_append_add (l8 _) 4, drop_append_add (l4 _) 4, drop_append_add (l4 _) 8,
    take_append_field (l4 _), drop_append_field (l4 _), t4, int64_roundtrip, uint32_roundtrip,
    WalRecordType.ofTag_toTag ht]

end WalRecordHeader

/-! ## Records -/

namespace WalRecord

/-- The lengths survive the cast to `uint32_t`. -/
def Short (r : WalRecord) : Prop :=
  r.key.length < 2 ^ 32 ∧ r.beforeVal.length < 2 ^ 32 ∧ r.afterVal.length < 2 ^ 32

/-- What the reader makes of a short record. -/
def wire (r : WalRecord) : WalRecord :=
  { r with beforeExists := decide (0 < r.beforeVal.length) }

/-- The record is its own wire image. -/
def Readable (r : WalRecord) : Prop :=
  r.Short ∧ r.beforeExists = decide (0 < r.beforeVal.length)

/-- A record the append calls can build: its type is one of the four, and there is a
before-image only where `beforeExists` says so. -/
structure Appended (r : WalRecord) : Prop where
  named : r.type.Named
  valid : r.type ≠ .INVALID
  before : r.beforeExists = false → r.beforeVal = []

theorem Readable.wire_eq {r : WalRecord} (h : r.Readable) : r.wire = r := by
  unfold wire
  rw [← h.2]

theorem length_toBytes (r : WalRecord) : r.toBytes.length =
    WalRecordHeader.SIZE + (r.key.length + (r.beforeVal.length + r.afterVal.length)) := by
  simp [toBytes]

theorem size_le_length (r : WalRecord) : WalRecordHeader.SIZE ≤ r.toBytes.length := by
  rw [length_toBytes]; exact Nat.le_add_right _ _

end WalRecord

/-- The bytes of a list of records. -/
def encodeLog (rs : List WalRecord) : Bytes := rs.flatMap WalRecord.toBytes

@[simp] theorem encodeLog_nil : encodeLog [] = [] := rfl

@[simp] theorem encodeLog_cons (r : WalRecord) (rs : List WalRecord) :
    encodeLog (r :: rs) = r.toBytes ++ encodeLog rs := rfl

@[simp] theorem encodeLog_append (rs qs : List WalRecord) :
    encodeLog (rs ++ qs) = encodeLog rs ++ encodeLog qs := by
  simp [encodeLog]

theorem length_le_encodeLog (rs : List WalRecord) : rs.length ≤ (encodeLog rs).length := by
  induction rs with
  | nil => simp
  | cons r rs ih =>
    have := r.size_le_length
    simp only [encodeLog_cons, List.length_cons, List.length_append, WalRecordHeader.SIZE] at *
    omega

namespace LogManager

/-! ## One record -/

theorem pread_append {pre x post : Bytes} : pread (pre ++ (x ++ post)) x.length pre.length = x := by
  simp [pread]

theorem readField_append {pre x post : Bytes} (name : String) {n off : Nat} (hn : n = x.length)
    (hoff : off = pre.length) : readField (pre ++ (x ++ post)) name n off = .ok x := by
  subst hn hoff
  unfold readField
  rw [pread_append]
  by_cases h : 0 < x.length
  · simp [h]
  · simp [List.length_eq_zero_iff.mp (Nat.eq_zero_of_not_pos h)]

/-- The reader's round over a short record that lies wholly in the file. -/
theorem readFrom_record (pre post : Bytes) {r : WalRecord} (ha : r.Appended) (hs : r.Short)
    (fuel : Nat) :
    readFrom (pre ++ (r.toBytes ++ post)) (fuel + 1) pre.length = do
      let rest ← readFrom (pre ++ (r.toBytes ++ post)) fuel (pre.length + r.toBytes.length)
      return r.wire :: rest := by
  obtain ⟨hk, hb, hv⟩ := hs
  have uk : (UInt32.ofNat r.key.length).toNat = r.key.length := UInt32.toNat_ofNat_of_lt hk
  have ub : (UInt32.ofNat r.beforeVal.length).toNat = r.beforeVal.length :=
    UInt32.toNat_ofNat_of_lt hb
  have uv : (UInt32.ofNat r.afterVal.length).toNat = r.afterVal.length :=
    UInt32.toNat_ofNat_of_lt hv
  set file := pre ++ (r.toBytes ++ post) with hfile
  have hhdr : pread file WalRecordHeader.SIZE pre.length = r.header.toBytes := by
    rw [← WalRecordHeader.length_toBytes r.header, hfile, WalRecord.toBytes, List.append_assoc]
    exact pread_append
  -- the three fields, each seen as `pre' ++ (field ++ post')`
  have f1 : readField file "key" r.key.length (pre.length + WalRecordHeader.SIZE) = .ok r.key := by
    have e : file = (pre ++ r.header.toBytes) ++
        (r.key ++ (r.beforeVal ++ (r.afterVal ++ post))) := by
      simp [hfile, WalRecord.toBytes]
    rw [e]
    exact readField_append _ rfl (by simp)
  have f2 : readField file "before_val" r.beforeVal.length
      (pre.length + WalRecordHeader.SIZE + r.key.length) = .ok r.beforeVal := by
    have e : file = (pre ++ r.header.toBytes ++ r.key) ++
        (r.beforeVal ++ (r.afterVal ++ post)) := by
      simp [hfile, WalRecord.toBytes]
    rw [e]
    exact readField_append _ rfl (by simp [Nat.add_assoc])
  have f3 : readField file "after_val" r.afterVal.length
      (pre.length + WalRecordHeader.SIZE + r.key.length + r.beforeVal.length) =
        .ok r.afterVal := by
    have e : file = (pre ++ r.header.toBytes ++ r.key ++ r.beforeVal) ++ (r.afterVal ++ post) := by
      simp [hfile, WalRecord.toBytes]
    rw [e]
    exact readField_append _ rfl (by simp [Nat.add_assoc])
  have hty : r.header.type ≠ .INVALID := ha.valid
  have hoff : pre.length + r.toBytes.length = pre.length + WalRecordHeader.SIZE + r.key.length +
      r.beforeVal.length + r.afterVal.length := by
    rw [WalRecord.length_toBytes]; omega
  rw [readFrom, hhdr, WalRecordHeader.ofBytes_toBytes (h := r.header) ha.named]
  simp only [WalRecordHeader.length_toBytes, lt_irrefl, ↓reduceIte, hty]
  simp only [readPayload, WalRecord.header, uk, ub, uv, f1, f2, f3]
  rw [hoff]
  rfl

/-- The reader over a list of short records, from the end of `pre` to whatever follows. -/
theorem readFrom_encodeLog (post : Bytes) : ∀ (rs : List WalRecord) (pre : Bytes) (fuel : Nat),
    (∀ r ∈ rs, r.Appended ∧ r.Short) →
    readFrom (pre ++ (encodeLog rs ++ post)) (fuel + rs.length) pre.length = do
      let rest ← readFrom (pre ++ (encodeLog rs ++ post)) fuel
        (pre.length + (encodeLog rs).length)
      return rs.map WalRecord.wire ++ rest := by
  intro rs
  induction rs with
  | nil =>
    intro pre fuel _
    simp only [encodeLog_nil, List.nil_append, List.length_nil, Nat.add_zero, List.map_nil]
    cases readFrom (pre ++ post) fuel pre.length <;> rfl
  | cons r rs ih =>
    intro pre fuel h
    obtain ⟨ha, hs⟩ := h r List.mem_cons_self
    have e : pre ++ (encodeLog (r :: rs) ++ post) =
        (pre ++ r.toBytes) ++ (encodeLog rs ++ post) := by simp
    have step := readFrom_record pre (encodeLog rs ++ post) ha hs
      (fuel + rs.length)
    have ih := ih (pre ++ r.toBytes) fuel (fun q hq => h q (List.mem_cons_of_mem _ hq))
    rw [List.length_append] at ih
    have hfuel : fuel + (r :: rs).length = fuel + rs.length + 1 := by
      rw [List.length_cons, Nat.add_assoc]
    have hlen : pre.length + (encodeLog (r :: rs)).length =
        pre.length + r.toBytes.length + (encodeLog rs).length := by
      rw [encodeLog_cons, List.length_append, Nat.add_assoc]
    rw [← List.append_assoc] at step
    rw [hfuel, hlen, e, step, ih]
    cases readFrom (pre ++ r.toBytes ++ (encodeLog rs ++ post)) fuel
      (pre.length + r.toBytes.length + (encodeLog rs).length) <;> rfl

/-- The reader at the start of a file that begins with short records. -/
theorem readAll_encodeLog (rs : List WalRecord) (h : ∀ r ∈ rs, r.Appended ∧ r.Short)
    (post : Bytes) : ∃ fuel, readAll (encodeLog rs ++ post) = do
      let rest ← readFrom (encodeLog rs ++ post) (fuel + 1) (encodeLog rs).length
      return rs.map WalRecord.wire ++ rest := by
  have hle := length_le_encodeLog rs
  refine ⟨(encodeLog rs ++ post).length - rs.length, ?_⟩
  have hfuel : (encodeLog rs ++ post).length + 1 =
      (encodeLog rs ++ post).length - rs.length + 1 + rs.length := by
    rw [List.length_append]; omega
  have key := readFrom_encodeLog post rs [] ((encodeLog rs ++ post).length - rs.length + 1) h
  simp only [List.nil_append, List.length_nil, Nat.zero_add] at key
  rw [readAll, hfuel, key]

/-- Less than a header at the end of the file ends the loop. -/
theorem readFrom_tail {file : Bytes} {off : Nat} (h : file.length < off + WalRecordHeader.SIZE)
    (fuel : Nat) : readFrom file (fuel + 1) off = .ok [] := by
  have : (pread file WalRecordHeader.SIZE off).length < WalRecordHeader.SIZE := by
    rw [pread, List.length_take, List.length_drop, WalRecordHeader.SIZE] at *
    omega
  rw [readFrom]
  simp only [this, ↓reduceIte]

/-- **The whole log**: short records are read back as their wire images. -/
theorem readAll_encodeLog_wire (rs : List WalRecord) (h : ∀ r ∈ rs, r.Appended ∧ r.Short)
    {tail : Bytes} (ht : tail.length < WalRecordHeader.SIZE) :
    readAll (encodeLog rs ++ tail) = .ok (rs.map WalRecord.wire) := by
  obtain ⟨fuel, hr⟩ := readAll_encodeLog rs h tail
  rw [hr, readFrom_tail (by rw [List.length_append]; omega)]
  simp [bind, Except.bind, pure, Except.pure]

/-! ## What the reader can return -/

theorem readField_ok {file : Bytes} {name : String} {len off : Nat} {b : Bytes}
    (h : readField file name len off = .ok b) : b.length = len := by
  unfold readField at h
  split at h
  · dsimp only at h
    split at h
    · cases h
    · next hlen => cases h; simpa using hlen
  · next hlen => cases h; simp; omega

/-- What `readPayload` takes from the header. -/
theorem readPayload_header {file : Bytes} {hdr : WalRecordHeader} {offset next : Nat}
    {r : WalRecord} (h : readPayload file hdr offset = .ok (r, next)) :
    r.lsn = hdr.lsn ∧ r.txnId = hdr.txnId ∧ next = offset + r.toBytes.length ∧
      r.toBytes.length = WalRecordHeader.SIZE + hdr.keyLen.toNat + hdr.beforeLen.toNat +
        hdr.afterLen.toNat := by
  obtain ⟨key, hkey, h⟩ := except_bind_eq_ok.mp h
  obtain ⟨beforeVal, hbefore, h⟩ := except_bind_eq_ok.mp h
  obtain ⟨afterVal, hafter, h⟩ := except_bind_eq_ok.mp h
  cases h
  simp only [WalRecord.length_toBytes, readField_ok hkey, readField_ok hbefore,
    readField_ok hafter, true_and]
  omega

theorem readField_le {file : Bytes} {name : String} {len offset : Nat} {b : Bytes}
    (h : readField file name len offset = .ok b) (hoff : offset ≤ file.length) :
    offset + len ≤ file.length := by
  have hlen := readField_ok h
  unfold readField at h
  split at h
  · dsimp only at h
    split at h
    · cases h
    · cases h
      rw [pread, List.length_take, List.length_drop] at hlen
      omega
  · omega

/-- The bytes of the records that the reader returns are in the file. -/
theorem length_encodeLog_le {file : Bytes} {fuel offset : Nat} {rs : List WalRecord}
    (h : readFrom file fuel offset = .ok rs) (hoff : offset ≤ file.length) :
    offset + (encodeLog rs).length ≤ file.length := by
  induction fuel generalizing offset rs with
  | zero => cases h
  | succ fuel ih =>
    rw [readFrom] at h
    dsimp only at h
    split at h
    · cases h
      exact hoff
    · next hlong =>
      split at h
      · cases h
        exact hoff
      · obtain ⟨⟨r, next⟩, hpayload, h⟩ := except_bind_eq_ok.mp h
        obtain ⟨rest, hrest, h⟩ := except_bind_eq_ok.mp h
        obtain ⟨-, -, hnext, -⟩ := readPayload_header hpayload
        obtain ⟨key, hkey, hpayload⟩ := except_bind_eq_ok.mp hpayload
        obtain ⟨beforeVal, hbefore, hpayload⟩ := except_bind_eq_ok.mp hpayload
        obtain ⟨afterVal, hafter, hpayload⟩ := except_bind_eq_ok.mp hpayload
        have hhdr : offset + WalRecordHeader.SIZE ≤ file.length := by
          rw [pread, List.length_take, List.length_drop] at hlong
          omega
        have hend := readField_le hafter (readField_le hbefore (readField_le hkey hhdr))
        cases h
        cases hpayload
        have hle := ih hrest hend
        rw [encodeLog_cons, List.length_append]
        dsimp only at hnext hle ⊢
        omega

/-- Every record the reader returns is `Readable`. -/
theorem readPayload_readable {file : Bytes} {hdr : WalRecordHeader} {off off' : Nat}
    {r : WalRecord} (h : readPayload file hdr off = .ok (r, off')) : r.Readable := by
  unfold readPayload at h
  simp only [bind, Except.bind, pure, Except.pure] at h
  split at h
  · cases h
  next k hk =>
  split at h
  · cases h
  next b hb =>
  split at h
  · cases h
  next v hv =>
  cases h
  have lk := readField_ok hk
  have lb := readField_ok hb
  have lv := readField_ok hv
  refine ⟨⟨?_, ?_, ?_⟩, ?_⟩
  · rw [lk]; exact hdr.keyLen.toNat_lt
  · rw [lb]; exact hdr.beforeLen.toNat_lt
  · rw [lv]; exact hdr.afterLen.toNat_lt
  · simp only [lb]

theorem readFrom_readable {file : Bytes} : ∀ (fuel off : Nat) {rs : List WalRecord},
    readFrom file fuel off = .ok rs → ∀ r ∈ rs, r.Readable := by
  intro fuel
  induction fuel with
  | zero => intro off rs h; cases h
  | succ fuel ih =>
    intro off rs h
    unfold readFrom at h
    simp only [bind, Except.bind, pure, Except.pure] at h
    split at h
    · cases h; simp
    split at h
    · cases h; simp
    split at h
    · cases h
    next p hp =>
    split at h
    · cases h
    next rest hrest =>
    cases h
    intro r hr
    rcases List.mem_cons.mp hr with rfl | hr
    · exact readPayload_readable hp
    · exact ih _ hrest r hr

end LogManager

/-! ## Append calls -/

/-- One call of the write path. -/
inductive LogCall
  | beginTxn
  | appendWrite (txnId : TxnId) (key : Bytes) (beforeExists : Bool) (beforeVal afterVal : Bytes)
  | appendCommit (txnId : TxnId)
  | appendAbort (txnId : TxnId)
  deriving DecidableEq, Repr

namespace LogCall

/-- A write of a key that existed with the empty value. -/
def EmptyBefore : LogCall → Prop
  | appendWrite _ _ beforeExists beforeVal _ => beforeExists = true ∧ beforeVal = []
  | _ => False

/-- The bytes of the call's record. -/
def size : LogCall → Nat
  | appendWrite _ key beforeExists beforeVal afterVal => WalRecordHeader.SIZE +
      (key.length + ((if beforeExists then beforeVal else []).length + afterVal.length))
  | _ => WalRecordHeader.SIZE

/-- `r` says what the call said; `id` is the id `begin_txn` handed out. -/
def ReadBack (c : LogCall) (id : TxnId) (r : WalRecord) : Prop :=
  match c with
  | beginTxn => r.txnId = id ∧ r.type = .BEGIN ∧ r.key = [] ∧ r.beforeExists = false ∧
      r.afterVal = []
  | appendWrite txnId key beforeExists beforeVal afterVal =>
      r.txnId = txnId ∧ r.type = .WRITE ∧ r.key = key ∧ r.beforeExists = beforeExists ∧
      (beforeExists = true → r.beforeVal = beforeVal) ∧ r.afterVal = afterVal
  | appendCommit txnId => r.txnId = txnId ∧ r.type = .COMMIT ∧ r.key = [] ∧
      r.beforeExists = false ∧ r.afterVal = []
  | appendAbort txnId => r.txnId = txnId ∧ r.type = .ABORT ∧ r.key = [] ∧
      r.beforeExists = false ∧ r.afterVal = []

end LogCall

namespace LogManager

/-- One call: the record as it was appended, and the log after it. -/
def exec (lm : LogManager) : LogCall → WalRecord × LogManager
  | .beginTxn => lm.beginTxn
  | .appendWrite txnId key beforeExists beforeVal afterVal =>
    lm.appendWrite txnId key beforeExists beforeVal afterVal
  | .appendCommit txnId => lm.appendCommit txnId
  | .appendAbort txnId => lm.appendAbort txnId

/-- A sequence of calls. -/
def execAll : LogManager → List LogCall → List WalRecord × LogManager
  | lm, [] => ([], lm)
  | lm, c :: cs =>
    let (r, lm) := lm.exec c
    let (rs, lm) := lm.execAll cs
    (r :: rs, lm)

theorem exec_file (lm : LogManager) (c : LogCall) :
    (lm.exec c).2.file = lm.file ++ (lm.exec c).1.toBytes := by
  cases c <;> rfl

theorem exec_appended (lm : LogManager) (c : LogCall) : (lm.exec c).1.Appended := by
  cases c with
  | appendWrite t k e b a =>
    refine ⟨trivial, by simp [exec, appendWrite, appendRecordLocked], fun h => ?_⟩
    have he : e = false := h
    simp [exec, appendWrite, appendRecordLocked, he]
  | _ => exact ⟨trivial, nofun, fun _ => rfl⟩

theorem execAll_file (lm : LogManager) (cs : List LogCall) :
    (lm.execAll cs).2.file = lm.file ++ encodeLog (lm.execAll cs).1 := by
  induction cs generalizing lm with
  | nil => simp [execAll]
  | cons c cs ih => simp [execAll, ih, exec_file]

theorem execAll_appended (lm : LogManager) (cs : List LogCall) :
    ∀ r ∈ (lm.execAll cs).1, r.Appended := by
  induction cs generalizing lm with
  | nil => simp [execAll]
  | cons c cs ih =>
    intro r hr
    rcases List.mem_cons.mp hr with rfl | hr
    · exact exec_appended lm c
    · exact ih _ r hr

/-! ## Round trip -/

/-- A call is read back from its record's wire image unless it logged an empty before-image. -/
theorem readBack_wire_iff (lm : LogManager) (c : LogCall) :
    c.ReadBack (lm.exec c).1.txnId (lm.exec c).1.wire ↔ ¬ c.EmptyBefore := by
  cases c with
  | appendWrite t k e b a =>
    cases e with
    | false => simp [LogCall.ReadBack, LogCall.EmptyBefore, exec, appendWrite,
        appendRecordLocked, WalRecord.wire]
    | true =>
      simp [LogCall.ReadBack, LogCall.EmptyBefore, exec, appendWrite, appendRecordLocked,
        WalRecord.wire, List.length_pos_iff]
  | _ => simp [LogCall.ReadBack, LogCall.EmptyBefore, exec, beginTxn, appendCommit, appendAbort,
      appendRecordLocked, WalRecord.wire]

theorem forall₂_readBack_iff (lm : LogManager) (cs : List LogCall) :
    List.Forall₂ (fun p r => LogCall.ReadBack p.1 p.2.txnId r) (cs.zip (lm.execAll cs).1)
      ((lm.execAll cs).1.map WalRecord.wire) ↔ ∀ c ∈ cs, ¬ c.EmptyBefore := by
  induction cs generalizing lm with
  | nil => simp [execAll]
  | cons c cs ih =>
    simp only [execAll, List.zip_cons_cons, List.map_cons, List.forall₂_cons, ih,
      readBack_wire_iff, List.forall_mem_cons]

theorem readAll_execAll {cs : List LogCall} (h : ∀ r ∈ (execAll {} cs).1, r.Short) :
    readAll (execAll {} cs).2.file = .ok ((execAll {} cs).1.map WalRecord.wire) := by
  have hnil : ([] : Bytes).length < WalRecordHeader.SIZE := by decide
  have key := readAll_encodeLog_wire (execAll {} cs).1
    (fun r hr => ⟨execAll_appended _ _ r hr, h r hr⟩) hnil
  simpa [execAll_file] using key

/-! ## Records that are not written whole -/

/-- One call with its `pwrite`: what it throws, the record it built, and the log. The counters have
moved on in any case. -/
def call (lm : LogManager) (c : LogCall) : (Option Exn × WalRecord) × LogManager :=
  let (r, lm') := lm.exec c
  match pwriteEnd lm.file r.toBytes with
  | (none, file) =>
    ((some (.systemError "LogManager::append_record: pwrite failed"), r), { lm' with file })
  | (some n, file) =>
    let thrown := if n = r.toBytes.length then none
      else some (.runtimeError "LogManager::append_record: short write")
    ((thrown, r), { lm' with file })

/-- A sequence of calls; one that throws is followed by the next. -/
def callAll : LogManager → List LogCall → List (Option Exn × WalRecord) × LogManager
  | lm, [] => ([], lm)
  | lm, c :: cs =>
    let (r, lm) := lm.call c
    let (rs, lm) := lm.callAll cs
    (r :: rs, lm)

theorem exec_size (lm : LogManager) (c : LogCall) : (lm.exec c).1.toBytes.length = c.size := by
  rw [WalRecord.length_toBytes]
  cases c <;> rfl

theorem call_of_transfers {lm : LogManager} {c : LogCall} (h : Transfers lm.file.length c.size) :
    lm.call c = ((none, (lm.exec c).1), (lm.exec c).2) := by
  obtain ⟨hle, hlt⟩ := h
  rw [← exec_size lm] at hle hlt
  have hwrite : pwriteEnd lm.file (lm.exec c).1.toBytes =
      (some (lm.exec c).1.toBytes.length, (lm.exec c).2.file) := by
    rw [pwriteEnd, if_pos hlt, Nat.min_eq_left hle, List.take_of_length_le hle, exec_file]
  simp only [call, hwrite, if_true]

theorem call_file (lm : LogManager) (c : LogCall) :
    (lm.call c).2.file = (pwriteEnd lm.file (lm.exec c).1.toBytes).2 := by
  unfold call
  dsimp only
  cases pwriteEnd lm.file (lm.exec c).1.toBytes with
  | mk taken file => cases taken <;> rfl

theorem length_call_le (lm : LogManager) (c : LogCall) :
    (lm.call c).2.file.length ≤ lm.file.length + c.size := by
  rw [call_file, ← exec_size lm c, pwriteEnd]
  split
  · rw [List.length_append, List.length_take]
    omega
  · exact Nat.le_add_right _ _

/-- A record that is not written whole leaves fewer bytes. -/
theorem length_call_lt {lm : LogManager} {c : LogCall} (h : ¬ Transfers lm.file.length c.size) :
    (lm.call c).2.file.length < lm.file.length + c.size := by
  have hsize := (lm.exec c).1.size_le_length
  rw [Transfers, ← exec_size lm c] at h
  rw [call_file, ← exec_size lm c, pwriteEnd]
  simp only [WalRecordHeader.SIZE] at hsize
  split
  · rw [List.length_append, List.length_take]
    omega
  · dsimp only
    omega

/-- The bytes of the records of the calls. -/
def callsSize (cs : List LogCall) : Nat := (cs.map LogCall.size).sum

theorem callsSize_cons (c : LogCall) (cs : List LogCall) :
    callsSize (c :: cs) = c.size + callsSize cs := by
  simp [callsSize]

/-- Every record is written whole. -/
def Whole (offset : Nat) (cs : List LogCall) : Prop :=
  (∀ c ∈ cs, c.size ≤ MAX_RW_COUNT) ∧ offset + callsSize cs < 2 ^ 63

theorem whole_cons {offset : Nat} {c : LogCall} {cs : List LogCall} :
    Whole offset (c :: cs) ↔ Transfers offset c.size ∧ Whole (offset + c.size) cs := by
  simp only [Whole, Transfers, List.forall_mem_cons, callsSize_cons]
  constructor
  · intro h
    exact ⟨⟨h.1.1, by omega⟩, h.1.2, by omega⟩
  · intro h
    exact ⟨⟨h.1.1, h.2.1⟩, by omega⟩

theorem callAll_of_whole (lm : LogManager) {cs : List LogCall} (h : Whole lm.file.length cs) :
    lm.callAll cs = ((lm.execAll cs).1.map fun r => (none, r), (lm.execAll cs).2) := by
  induction cs generalizing lm with
  | nil => rfl
  | cons c cs ih =>
    obtain ⟨hc, hcs⟩ := whole_cons.mp h
    rw [← exec_size lm c, ← List.length_append, ← exec_file] at hcs
    simp only [callAll, execAll, call_of_transfers hc, ih _ hcs, List.map_cons]

theorem length_callAll_le (lm : LogManager) (cs : List LogCall) :
    (lm.callAll cs).2.file.length ≤ lm.file.length + callsSize cs := by
  induction cs generalizing lm with
  | nil => exact Nat.le_add_right _ _
  | cons c cs ih =>
    have hc := lm.length_call_le c
    have hcs := ih (lm.call c).2
    rw [callsSize_cons]
    simp only [callAll]
    omega

theorem length_callAll_lt (lm : LogManager) {cs : List LogCall} (hlm : lm.file.length < 2 ^ 63)
    (h : ¬ Whole lm.file.length cs) :
    (lm.callAll cs).2.file.length < lm.file.length + callsSize cs := by
  induction cs generalizing lm with
  | nil => exact absurd ⟨nofun, hlm⟩ h
  | cons c cs ih =>
    rw [callsSize_cons]
    simp only [callAll]
    by_cases hc : Transfers lm.file.length c.size
    · have hlen : (lm.exec c).2.file.length = lm.file.length + c.size := by
        rw [exec_file, List.length_append, exec_size]
      have hcs := ih (lm.exec c).2 (by rw [hlen]; exact hc.2) (by
        rw [hlen]
        exact fun hcs => h (whole_cons.mpr ⟨hc, hcs⟩))
      rw [call_of_transfers hc]
      dsimp only
      omega
    · have hlt := length_call_lt hc
      have hle := length_callAll_le (lm.call c).2 cs
      omega

/-- A record that says what the call said has the bytes of the call's record. -/
theorem length_of_readBack {c : LogCall} {id : TxnId} {r : WalRecord} (h : c.ReadBack id r)
    (hr : r.Readable) : r.toBytes.length = c.size := by
  have hbefore : r.beforeExists = false → r.beforeVal = [] := by
    intro he
    rw [hr.2] at he
    simpa using he
  rw [WalRecord.length_toBytes]
  cases c with
  | appendWrite t k e b a =>
    obtain ⟨-, -, rfl, rfl, hb, rfl⟩ := h
    cases he : r.beforeExists with
    | true => simp [LogCall.size, hb he]
    | false => simp [LogCall.size, hbefore he]
  | beginTxn =>
    obtain ⟨-, -, hkey, he, hafter⟩ := h
    simp [LogCall.size, hkey, hafter, hbefore he]
  | appendCommit t =>
    obtain ⟨-, -, hkey, he, hafter⟩ := h
    simp [LogCall.size, hkey, hafter, hbefore he]
  | appendAbort t =>
    obtain ⟨-, -, hkey, he, hafter⟩ := h
    simp [LogCall.size, hkey, hafter, hbefore he]

theorem length_encodeLog_of_readBack {cs : List LogCall} {xs : List (Option Exn × WalRecord)}
    {recs : List WalRecord} (hlen : cs.length = xs.length)
    (h : List.Forall₂ (fun p r => LogCall.ReadBack p.1 p.2.2.txnId r) (cs.zip xs) recs)
    (hread : ∀ r ∈ recs, r.Readable) : (encodeLog recs).length = callsSize cs := by
  induction cs generalizing xs recs with
  | nil =>
    cases h
    rfl
  | cons c cs ih =>
    cases xs with
    | nil => cases hlen
    | cons x xs =>
      cases h with
      | cons hr hrest =>
        obtain ⟨hread, hreads⟩ := List.forall_mem_cons.mp hread
        rw [encodeLog_cons, List.length_append, length_of_readBack hr hread,
          ih (Nat.succ.inj hlen) hrest hreads, callsSize_cons]

theorem length_callAll (lm : LogManager) (cs : List LogCall) :
    (lm.callAll cs).1.length = cs.length := by
  induction cs generalizing lm with
  | nil => rfl
  | cons c cs ih => simp [callAll, ih]

/-- A record that fits one `pwrite` is short. -/
theorem short_of_le {r : WalRecord} (h : r.toBytes.length ≤ MAX_RW_COUNT) : r.Short := by
  rw [WalRecord.length_toBytes, MAX_RW_COUNT] at h
  refine ⟨?_, ?_, ?_⟩ <;> omega

theorem execAll_short {lm : LogManager} {cs : List LogCall} (h : ∀ c ∈ cs, c.size ≤ MAX_RW_COUNT) :
    ∀ r ∈ (lm.execAll cs).1, r.Short := by
  induction cs generalizing lm with
  | nil => simp [execAll]
  | cons c cs ih =>
    obtain ⟨hc, hcs⟩ := List.forall_mem_cons.mp h
    exact List.forall_mem_cons.mpr ⟨short_of_le ((exec_size lm c).trans_le hc), ih hcs⟩

/-- **Round trip.** On an empty log, any sequence of append calls is read back as one record per
call with the call's contents, if and only if no call logged a write over an existing empty value
and every record was written whole: it fits one `pwrite`, and the file ends below the largest
offset. -/
theorem readAll_callAll_iff (cs : List LogCall) :
    (∃ recs, readAll (callAll {} cs).2.file = .ok recs ∧
      List.Forall₂ (fun p r => LogCall.ReadBack p.1 p.2.2.txnId r) (cs.zip (callAll {} cs).1)
        recs) ↔
      (∀ c ∈ cs, ¬ c.EmptyBefore ∧ c.size ≤ MAX_RW_COUNT) ∧ callsSize cs < 2 ^ 63 := by
  have hsplit : ((∀ c ∈ cs, ¬ c.EmptyBefore ∧ c.size ≤ MAX_RW_COUNT) ∧ callsSize cs < 2 ^ 63) ↔
      (∀ c ∈ cs, ¬ c.EmptyBefore) ∧ Whole 0 cs := by
    rw [Whole, forall₂_and, Nat.zero_add, and_assoc]
  rw [hsplit]
  by_cases hwhole : Whole 0 cs
  · rw [callAll_of_whole {} hwhole, readAll_execAll (execAll_short hwhole.1),
      and_iff_left hwhole, ← forall₂_readBack_iff {} cs, List.zip_map_right]
    constructor
    · intro h
      obtain ⟨recs, hrecs, hback⟩ := h
      cases hrecs
      exact List.forall₂_map_left_iff.mp hback
    · intro h
      exact ⟨_, rfl, List.forall₂_map_left_iff.mpr h⟩
  · refine iff_of_false ?_ fun h => hwhole h.2
    intro h
    obtain ⟨recs, hrecs, hback⟩ := h
    -- the records would need more bytes than there are
    have hneed := length_encodeLog_of_readBack (length_callAll {} cs).symm hback
      (readFrom_readable _ _ hrecs)
    have hle := length_encodeLog_le hrecs (Nat.zero_le _)
    have hlt := length_callAll_lt {} (Nat.two_pow_pos 63) hwhole
    have hnil : ({} : LogManager).file.length = 0 := rfl
    omega

/-- A transaction that overwrites a value, deletes the key and commits: read back call by call. -/
theorem readAll_callAll_iff_overwrite :
    ∃ recs, readAll (callAll {} [.beginTxn, .appendWrite 1 [97] true [98] [99],
        .appendWrite 1 [97] true [98] [], .appendCommit 1]).2.file = .ok recs ∧
      List.Forall₂ (fun p r => LogCall.ReadBack p.1 p.2.2.txnId r)
        ([LogCall.beginTxn, .appendWrite 1 [97] true [98] [99], .appendWrite 1 [97] true [98] [],
          .appendCommit 1].zip
          (callAll {} [.beginTxn, .appendWrite 1 [97] true [98] [99],
            .appendWrite 1 [97] true [98] [], .appendCommit 1]).1) recs :=
  (readAll_callAll_iff [.beginTxn, .appendWrite 1 [97] true [98] [99],
    .appendWrite 1 [97] true [98] [], .appendCommit 1]).mpr
    (by simp [LogCall.EmptyBefore, LogCall.size, callsSize, MAX_RW_COUNT, WalRecordHeader.SIZE])

/-- A write over the existing empty value of key `a` comes back as a write of a new key. -/
theorem readAll_forgets_empty_before :
    ¬ ∃ recs, readAll (callAll {} [.beginTxn, .appendWrite 1 [97] true [] [98]]).2.file =
        .ok recs ∧
      List.Forall₂ (fun p r => LogCall.ReadBack p.1 p.2.2.txnId r)
        ([LogCall.beginTxn, .appendWrite 1 [97] true [] [98]].zip
          (callAll {} [.beginTxn, .appendWrite 1 [97] true [] [98]]).1) recs := by
  rintro ⟨recs, hr, hf⟩
  have hwhole : Whole 0 [.beginTxn, .appendWrite 1 [97] true [] [98]] := by
    simp [Whole, LogCall.size, callsSize, MAX_RW_COUNT, WalRecordHeader.SIZE]
  rw [callAll_of_whole {} hwhole] at hr hf
  have hread : readAll (execAll {} [.beginTxn, .appendWrite 1 [97] true [] [98]]).2.file =
      .ok [{ lsn := 1, txnId := 1, type := .BEGIN },
        { lsn := 2, txnId := 1, type := .WRITE, key := [97], afterVal := [98] }] := by decide
  rw [hread] at hr
  cases hr
  cases hf with
  | cons _ hf =>
    cases hf with
    | cons h _ => exact absurd h.2.2.2.1 (by decide)

/-! ## Torn tails -/

end LogManager

end KeyVDB
