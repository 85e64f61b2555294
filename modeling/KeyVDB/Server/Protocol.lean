import KeyVDB.Lib.LittleEndian

/-!
# The wire format

`server/protocol.h` and the client's encoders of `client/src/protocol.ts`. Every message is an
opcode (in a response: a status), a big-endian `uint32_t` payload length and the payload. A string in
a payload is a big-endian `uint16_t` length and its bytes.

`Message` is the type of well-formed requests: strings and payloads carry the bound that their
length field sets, and an opcode outside `protocol.h` comes with any payload, as `protocol.h` says
nothing about it.
-/

namespace KeyVDB

/-! ## Codes -/

def OP_BEGIN : UInt8 := 0x01

def OP_GET : UInt8 := 0x02

def OP_PUT : UInt8 := 0x03

def OP_DELETE : UInt8 := 0x04

def OP_COMMIT : UInt8 := 0x05

def OP_ROLLBACK : UInt8 := 0x06

/-- The opcodes that `protocol.h` gives a meaning. -/
def opcodes : List UInt8 := [OP_BEGIN, OP_GET, OP_PUT, OP_DELETE, OP_COMMIT, OP_ROLLBACK]

def STATUS_OK : UInt8 := 0x00

def STATUS_NOT_FOUND : UInt8 := 0x01

def STATUS_ERROR : UInt8 := 0x02

def STATUS_DEADLOCK : UInt8 := 0x03

/-! ## Requests -/

/-- `buildMessage`. -/
def buildMessage (opcode : UInt8) (payload : Bytes) : Bytes :=
  opcode :: (beBytes 4 payload.length ++ payload)

/-- `encodeString`. -/
def encodeString (s : Bytes) : Bytes := beBytes 2 s.length ++ s

/-- A string whose length fits `uint16_t`; `writeUInt16BE` refuses any other. -/
def WireString := { s : Bytes // s.length < 2 ^ 16 }
  deriving DecidableEq

/-- A well-formed request. -/
inductive Message
  | begin
  | get (key : WireString)
  | put (key value : WireString)
  | delete (key : WireString)
  | commit
  | rollback
  /-- An opcode that `protocol.h` does not list. -/
  | unknown (opcode : { o : UInt8 // o ∉ opcodes }) (payload : { p : Bytes // p.length < 2 ^ 32 })

namespace Message

def opcode : Message → UInt8
  | begin => OP_BEGIN
  | get _ => OP_GET
  | put _ _ => OP_PUT
  | delete _ => OP_DELETE
  | commit => OP_COMMIT
  | rollback => OP_ROLLBACK
  | unknown o _ => o.val

def payload : Message → Bytes
  | get k => encodeString k.val
  | put k v => encodeString k.val ++ encodeString v.val
  | delete k => encodeString k.val
  | unknown _ p => p.val
  | _ => []

/-- The bytes of the request. -/
def encode (m : Message) : Bytes := buildMessage m.opcode m.payload

end Message

@[simp] theorem length_encodeString (s : Bytes) : (encodeString s).length = 2 + s.length := by
  simp [encodeString]

namespace Message

/-- The payload's length fits its field. -/
theorem length_payload_lt (m : Message) : m.payload.length < 256 ^ 4 := by
  cases m with
  | get k => have := k.property; simp [payload]; omega
  | put k v => have := k.property; have := v.property; simp [payload]; omega
  | delete k => have := k.property; simp [payload]; omega
  | unknown o p => have := p.property; simpa [payload] using this
  | _ => simp [payload]

@[simp] theorem length_encode (m : Message) : m.encode.length = 5 + m.payload.length := by
  simp [encode, buildMessage]
  omega

end Message

/-! ## Responses -/

/-- What the `send_*` helpers of the handler send. -/
inductive Response
  | ok
  | okValue (value : Bytes)
  | notFound
  | error (msg : String)
  | deadlock
  deriving DecidableEq, Repr

namespace Response

def status : Response → UInt8
  | ok => STATUS_OK
  | okValue _ => STATUS_OK
  | notFound => STATUS_NOT_FOUND
  | error _ => STATUS_ERROR
  | deadlock => STATUS_DEADLOCK

/-- An error message goes out with its terminating zero; the length of a value is cast to
`uint16_t`. -/
def payload : Response → Bytes
  | okValue v => beBytes 2 v.length ++ v
  | error msg => msg.toUTF8.toList ++ [0]
  | _ => []

/-- `send_response`: the bytes written to the socket. -/
def encode (r : Response) : Bytes := r.status :: (beBytes 4 r.payload.length ++ r.payload)

end Response

end KeyVDB
