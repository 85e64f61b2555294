import KeyVDB.Exn
import KeyVDB.Lib.LittleEndian

/-!
# The write-ahead log: records and the log manager

`wal_defs.h` and `log_manager.{h,cpp}`. A record is a packed 32-byte header (LSN, transaction id,
type and three lengths, in the machine's little-endian order) followed by the key, the before-image
and the after-image. `appendRecordLocked` writes one record at the end of the file; `readAll`
walks the file from its start. The lengths are cast to `uint32_t` on the way out, and the flag
`beforeExists` is not written at all: the reader takes it from a nonzero `before_len`.

One `pwrite` need not take the whole record: `pwriteEnd` says what it takes, and `LogManager.call`
puts it into the append calls. The append calls themselves are those whose record is written whole.
Other failures in the operating system (a full disk, `fsync`) are not modelled here.
-/

namespace KeyVDB

/-- `txn_id_t`. -/
abbrev TxnId := Int64

/-- `lsn_t`. -/
abbrev Lsn := Int64

def INVALID_TXN_ID : TxnId := -1

/-- `enum class WalRecordType : uint32_t`. A file can hold a tag that is no enumerator; the
reader passes it through. -/
inductive WalRecordType
  | INVALID
  | BEGIN
  | WRITE
  | COMMIT
  | ABORT
  | unnamed (tag : UInt32)
  deriving DecidableEq, Repr

namespace WalRecordType

def toTag : WalRecordType → UInt32
  | INVALID => 0
  | BEGIN => 1
  | WRITE => 2
  | COMMIT => 3
  | ABORT => 4
  | unnamed tag => tag

def ofTag (tag : UInt32) : WalRecordType :=
  if tag = 0 then INVALID
  else if tag = 1 then BEGIN
  else if tag = 2 then WRITE
  else if tag = 3 then COMMIT
  else if tag = 4 then ABORT
  else unnamed tag

/-- The enumerators. -/
def Named : WalRecordType → Prop
  | unnamed _ => False
  | _ => True

theorem ofTag_toTag {t : WalRecordType} (h : t.Named) : ofTag t.toTag = t := by
  cases t with
  | unnamed tag => exact h.elim
  | _ => rfl

end WalRecordType

/-- `struct WalRecordHeader` (packed). -/
structure WalRecordHeader where
  lsn : Lsn := 0
  txnId : TxnId := INVALID_TXN_ID
  type : WalRecordType := .INVALID
  keyLen : UInt32 := 0
  beforeLen : UInt32 := 0
  afterLen : UInt32 := 0
  deriving DecidableEq, Repr

namespace WalRecordHeader

/-- `sizeof(WalRecordHeader)`. -/
def SIZE : Nat := 32

/-- The bytes of the packed structure. -/
def toBytes (h : WalRecordHeader) : Bytes :=
  leBytes 8 h.lsn.toUInt64.toNat ++ (leBytes 8 h.txnId.toUInt64.toNat ++
    (leBytes 4 h.type.toTag.toNat ++ (leBytes 4 h.keyLen.toNat ++
      (leBytes 4 h.beforeLen.toNat ++ leBytes 4 h.afterLen.toNat))))

/-- The structure a 32-byte buffer overlays. -/
def ofBytes (b : Bytes) : WalRecordHeader where
  lsn := (UInt64.ofNat (leNat (b.take 8))).toInt64
  txnId := (UInt64.ofNat (leNat ((b.drop 8).take 8))).toInt64
  type := .ofTag (UInt32.ofNat (leNat ((b.drop 16).take 4)))
  keyLen := UInt32.ofNat (leNat ((b.drop 20).take 4))
  beforeLen := UInt32.ofNat (leNat ((b.drop 24).take 4))
  afterLen := UInt32.ofNat (leNat ((b.drop 28).take 4))

end WalRecordHeader

/-- `struct WalRecord`. -/
structure WalRecord where
  lsn : Lsn := 0
  txnId : TxnId := INVALID_TXN_ID
  type : WalRecordType := .INVALID
  key : Bytes := []
  beforeVal : Bytes := []
  afterVal : Bytes := []
  beforeExists : Bool := false
  deriving DecidableEq, Repr

namespace WalRecord

/-- The header `append_record_locked` fills in: the lengths are cast to 32 bits. -/
def header (r : WalRecord) : WalRecordHeader where
  lsn := r.lsn
  txnId := r.txnId
  type := r.type
  keyLen := UInt32.ofNat r.key.length
  beforeLen := UInt32.ofNat r.beforeVal.length
  afterLen := UInt32.ofNat r.afterVal.length

/-- The buffer of one `pwrite`: header, key, before-image, after-image. -/
def toBytes (r : WalRecord) : Bytes :=
  r.header.toBytes ++ (r.key ++ (r.beforeVal ++ r.afterVal))

end WalRecord

/-- `class LogManager`: the file's bytes and the two counters. -/
structure LogManager where
  file : Bytes := []
  nextLsn : Lsn := 1
  nextTxnId : TxnId := 1

namespace LogManager

/-! ## Write path -/

/-- `append_record_locked`: assigns the LSN and appends the record's bytes; the record comes
back with its LSN filled in. -/
def appendRecordLocked (lm : LogManager) (rec : WalRecord) : WalRecord × LogManager :=
  let r := { rec with lsn := lm.nextLsn }
  (r, { lm with nextLsn := lm.nextLsn + 1, file := lm.file ++ r.toBytes })

/-- `begin_txn`: the record's `txnId` is the id handed out. -/
def beginTxn (lm : LogManager) : WalRecord × LogManager :=
  { lm with nextTxnId := lm.nextTxnId + 1 }.appendRecordLocked
    { txnId := lm.nextTxnId, type := .BEGIN }

/-- `append_write`: without a before-image the field is left empty. -/
def appendWrite (lm : LogManager) (txnId : TxnId) (key : Bytes) (beforeExists : Bool)
    (beforeVal afterVal : Bytes) : WalRecord × LogManager :=
  lm.appendRecordLocked
    { txnId, type := .WRITE, key, beforeExists,
      beforeVal := if beforeExists then beforeVal else [], afterVal }

def appendCommit (lm : LogManager) (txnId : TxnId) : WalRecord × LogManager :=
  lm.appendRecordLocked { txnId, type := .COMMIT }

def appendAbort (lm : LogManager) (txnId : TxnId) : WalRecord × LogManager :=
  lm.appendRecordLocked { txnId, type := .ABORT }

/-- `truncate`: empties the file and resets both counters. -/
def truncate (_ : LogManager) : LogManager := {}

/-! ## The system call -/

end LogManager

/-- The most bytes that one `pwrite` transfers; `append_record_locked` throws where fewer than the
whole record were written. -/
def MAX_RW_COUNT : Nat := 0x7ffff000

/-- One `pwrite` writes the record whole. The file ends below the largest `off_t`. -/
def Transfers (offset count : Nat) : Prop := count ≤ MAX_RW_COUNT ∧ offset + count < 2 ^ 63

instance (offset count : Nat) : Decidable (Transfers offset count) := instDecidableAnd

namespace LogManager

/-- `pwrite` at the end of the file: the number of bytes it took, unless it failed, and the file. -/
def pwriteEnd (file buf : Bytes) : Option Nat × Bytes :=
  if file.length + buf.length < 2 ^ 63 then
    (some (min buf.length MAX_RW_COUNT), file ++ buf.take MAX_RW_COUNT)
  else (none, file)

/-! ## Read path -/

/-- `pread(fd, _, n, offset)`: the bytes it delivers, fewer than `n` at the end of the file. -/
def pread (file : Bytes) (n offset : Nat) : Bytes := (file.drop offset).take n

/-- One variable-length field of `read_all`: nothing is read when its length is zero, and a
short read throws. -/
def readField (file : Bytes) (name : String) (len offset : Nat) : Except Exn Bytes :=
  if 0 < len then
    let b := pread file len offset
    if b.length ≠ len then
      .error (.runtimeError
        ("LogManager::read_all: short read on " ++ name ++ " at offset " ++ toString offset))
    else .ok b
  else .ok []

/-- The body of the loop of `read_all` once a header has been read: the three fields in turn.
Returns the record and the offset after it. -/
def readPayload (file : Bytes) (hdr : WalRecordHeader) (offset : Nat) :
    Except Exn (WalRecord × Nat) := do
  let offset := offset + WalRecordHeader.SIZE
  let key ← readField file "key" hdr.keyLen.toNat offset
  let offset := offset + hdr.keyLen.toNat
  let beforeVal ← readField file "before_val" hdr.beforeLen.toNat offset
  let offset := offset + hdr.beforeLen.toNat
  let afterVal ← readField file "after_val" hdr.afterLen.toNat offset
  let offset := offset + hdr.afterLen.toNat
  return ({ lsn := hdr.lsn, txnId := hdr.txnId, type := hdr.type, key, beforeVal, afterVal,
            beforeExists := decide (0 < hdr.beforeLen.toNat) }, offset)

/-- The loop of `read_all` from `offset`. Each round consumes a whole header, so a file of `n`
bytes needs at most `n + 1` rounds; `fuel` bounds them. -/
def readFrom (file : Bytes) : Nat → Nat → Except Exn (List WalRecord)
  | 0, _ => .error (.runtimeError "unreachable")
  | fuel + 1, offset =>
    let b := pread file WalRecordHeader.SIZE offset
    if b.length < WalRecordHeader.SIZE then .ok []       -- EOF or truncated tail
    else
      let hdr := WalRecordHeader.ofBytes b
      if hdr.type = .INVALID then .ok []                 -- zeroed tail
      else do
        let (rec, offset) ← readPayload file hdr offset
        let rest ← readFrom file fuel offset
        return rec :: rest

/-- `read_all`. -/
def readAll (file : Bytes) : Except Exn (List WalRecord) := readFrom file (file.length + 1) 0

/-! ## Opening a log -/

/-- The variables of the loop of `scan_for_max_ids`. -/
structure Scan where
  offset : Nat := 0
  maxLsn : Lsn := 0
  maxTxnId : TxnId := 0

/-- A round of the loop; `none` where it breaks. The payload is skipped by the lengths of the
header. -/
def scanRound (file : Bytes) (s : Scan) : Option Scan :=
  let b := pread file WalRecordHeader.SIZE s.offset
  if b.length < WalRecordHeader.SIZE then none           -- EOF or truncated record
  else
    let hdr := WalRecordHeader.ofBytes b
    if hdr.type = .INVALID then none                     -- zeroed or corrupt tail
    else some
      { offset := s.offset + (WalRecordHeader.SIZE + hdr.keyLen.toNat + hdr.beforeLen.toNat +
          hdr.afterLen.toNat)
        maxLsn := if s.maxLsn < hdr.lsn then hdr.lsn else s.maxLsn
        maxTxnId := if s.maxTxnId < hdr.txnId then hdr.txnId else s.maxTxnId }

/-- The loop, a number of rounds: the offsets it looks for a header at, and its variables at the
end. -/
def scanFrom (file : Bytes) : Nat → Scan → List Nat × Scan
  | 0, s => ([], s)
  | fuel + 1, s =>
    match scanRound file s with
    | none => ([s.offset], s)
    | some s' =>
      let (walked, last) := scanFrom file fuel s'
      (s.offset :: walked, last)

/-- Each round passes a header, so as many rounds as in `readAll` are enough. -/
def scan (file : Bytes) : List Nat × Scan := scanFrom file (file.length + 1) {}

/-- `scan_for_max_ids`: the counters keep their initial values where nothing was found. -/
def scanForMaxIds (lm : LogManager) : LogManager :=
  let s := (scan lm.file).2
  { lm with
    nextLsn := if 0 < s.maxLsn then s.maxLsn + 1 else lm.nextLsn
    nextTxnId := if 0 < s.maxTxnId then s.maxTxnId + 1 else lm.nextTxnId }

/-- The constructor, on a file with these bytes. -/
def openFile (file : Bytes) : LogManager := scanForMaxIds { file := file }

end LogManager

end KeyVDB
