import FluxOS.Frames

/-! The handlers of the transports, `UDP::processUDPPacket` and `TCP::processTCPPacket`: what they
read of a received frame and what they do then. -/
namespace FluxOS
open Words UserMemoryOps BlockDevice NetUtils

/-- What becomes of a packet in the end. -/
inductive Answer where
  | dropped
  /-- `TCP::sendTCPPacket`, without a payload. -/
  | segment (srcIP destIP : Word) (srcPort destPort flags : Half) (acknumber seqnumber : Word)
  /-- `ICMP::sendICMPReply` with the packet that could not be delivered. -/
  | unreachable (srcIP destIP : Word) (data : List Byte)
  /-- The copy that is appended to the socket's datagrams. -/
  | stored (port : Half) (datagram : List Byte)
  /-- A neighbour advertisement; the address is kept with the hardware address of the request. -/
  | advertisement (saddr linkLayerAddress : List Byte)
  | echoReply (id seqN : Half) (data : List Byte)
  deriving DecidableEq

namespace TCP

def sizeofTCPHeader : Nat := 20

def flagFIN : Half := 1#16
def flagSYN : Half := 2#16
def flagACK : Half := 16#16

/-- The fields of the header that are read. -/
structure TCPHeader where
  sourceport : Half
  destport : Half
  seqnumber : Word
  acknumber : Word
  flags : Half
  deriving DecidableEq

/-- `htonl`. -/
def ntohl (value : Word) : Word := ntohs (value.setWidth 16) ++ ntohs ((value >>> 16).setWidth 16)

def has (flags flag : Half) : Bool := decide (flags &&& flag ≠ 0#16)

/-- `processTCPPacket`, once the fields are read. -/
def processTCPPacket (header : TCPHeader) (size : Int) (saddr daddr : Word) : Answer :=
  let flags := ntohs header.flags
  let headerSize : Int := flags.toNat / 4096 * 4
  let answer := Answer.segment daddr saddr header.destport header.sourceport
  if has flags flagSYN then answer (flagSYN ||| flagACK) (ntohl header.seqnumber + 1#32) 10#32
  else if has flags flagFIN then answer (flagACK ||| flagFIN) (ntohl header.seqnumber + 1#32) (ntohl header.acknumber)
  else if has flags flagACK ∧ size - headerSize ≠ 0 then
    answer flagACK (ntohl header.seqnumber + BitVec.ofInt 32 (size - headerSize)) (ntohl header.acknumber)
  else .dropped

/-- The reads of `processTCPPacket`. The flags are read first in any case, and no field that is read
after them lies behind them. -/
def receive (frame : Frame) (packet : Nat) (size : Int) (ipHeader : Nat) : Option Answer := do
  let flags ← frame.read16 (packet + 12)
  let sourceport ← frame.read16 packet
  let destport ← frame.read16 (packet + 2)
  let seqnumber ← frame.read32 (packet + 4)
  let acknumber ← frame.read32 (packet + 8)
  let saddr ← frame.read32 (ipHeader + 12)
  let daddr ← frame.read32 (ipHeader + 16)
  pure (processTCPPacket ⟨sourceport, destport, seqnumber, acknumber, flags⟩ size saddr daddr)

/-- The flags ask for no answer. -/
def Quiet (flags : Half) (size : Int) : Prop :=
  has (ntohs flags) flagSYN = false ∧ has (ntohs flags) flagFIN = false ∧
    (has (ntohs flags) flagACK = false ∨ size = (ntohs flags).toNat / 4096 * 4)

theorem processTCPPacket_eq_dropped {header : TCPHeader} {size : Int} {saddr daddr : Word} :
    processTCPPacket header size saddr daddr = .dropped ↔ Quiet header.flags size := by
  unfold processTCPPacket Quiet
  cases syn : has (ntohs header.flags) flagSYN
  · cases fin : has (ntohs header.flags) flagFIN
    · cases ack : has (ntohs header.flags) flagACK
      · simp [syn, fin, ack]
      · simp [syn, fin, ack, sub_eq_zero]
    · simp [syn, fin]
  · simp [syn]

end TCP

namespace UDP

def sizeofUDPHeader : Nat := 8

/-- The length and the ports of a header are refused. -/
def refuses (length destport : Half) (size : Int) : Prop :=
  (ntohs length).toNat < sizeofUDPHeader ∨ (BitVec.ofInt 16 size).toNat < sizeofUDPHeader ∨
    ((ntohs length).toNat : Int) > size ∨ destport = 0#16

instance (length destport : Half) (size : Int) : Decidable (refuses length destport size) :=
  inferInstanceAs (Decidable (_ ∨ _))

/-- `processUDPPacket`; `header->length` is copied as it is, in network byte order. -/
def receive (openPorts : Half → Bool) (frame : Frame) (packet : Nat) (size : Int) (ipHeader previousHeaderType : Nat) :
    Option Answer := do
  let length ← frame.read16 (packet + 4)
  let destport ← frame.read16 (packet + 2)
  if refuses length destport size then pure .dropped
  else if openPorts destport then
    let dataBuff ← frame.read packet length.toNat
    pure (.stored destport dataBuff)
  else if previousHeaderType = 4 then
    let daddr ← frame.read32 (ipHeader + 16)
    let saddr ← frame.read32 (ipHeader + 12)
    let data ← frame.read ipHeader (size + 20).toNat
    pure (.unreachable daddr saddr data)
  else pure .dropped

end UDP

end FluxOS
