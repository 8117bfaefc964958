import FluxOS.NetUtils

/-! `IP`: the header that is built for a packet, and what a received one is checked for before
its payload is handed on. -/
namespace FluxOS
open Words UserMemoryOps BlockDevice

namespace IP
open NetUtils

def sizeofIPHeader : Nat := 20

def sizeofIPFakeHeader : Nat := 12

/-- The header before its checksum is computed; an address is kept in network byte order. -/
def newIPHeader (buffer : Block) (sourceIP destinationIP : Word) (protocol : Byte) (dataLen : Half) : Block :=
  let buffer := store8 buffer 0 0x45#8
  let buffer := store8 buffer 1 0#8
  let buffer := store16 buffer 2 (htons dataLen)
  let buffer := store16 buffer 4 0#16
  let buffer := store16 buffer 6 (htons 0x4000#16)
  let buffer := store8 buffer 8 64#8
  let buffer := store8 buffer 9 protocol
  let buffer := store16 buffer 10 0#16
  let buffer := store32 buffer 12 sourceIP
  store32 buffer 16 destinationIP

def buildIPHeader (buffer : Block) (sourceIP destinationIP : Word) (protocol : Byte) (dataLen : Half) : Block :=
  let header := newIPHeader buffer sourceIP destinationIP protocol dataLen
  store16 header 10 (checksum header sizeofIPHeader)

/-- `IPFakeHeader`, in the order of its fields. -/
def fakeHeader (saddr daddr : Word) (protocol : Byte) (size : Half) : Block :=
  let header := store32 (fun _ => 0#8) 0 saddr
  let header := store32 header 4 daddr
  let header := store8 header 8 0#8
  let header := store8 header 9 protocol
  store16 header 10 (htons size)

def upperLayerChecksum (saddr daddr : Word) (protocol : Byte) (header : Block) (size : Nat) : Half :=
  checksumWithHeader (fakeHeader saddr daddr protocol (BitVec.ofNat 16 size)) sizeofIPFakeHeader header size

/-! ## Received packets -/

/-- Where a payload goes. -/
inductive Handler where
  | icmp | tcp | udp
  deriving DecidableEq, Repr

/-- What `processIPPacket` does: nothing, a call of `forwardPacket`, or a call of a handler with
the payload's distance from the packet and its size. -/
inductive Verdict where
  | dropped
  | forwarded
  | handed (handler : Handler) (offset : Nat) (size : Int)
  deriving DecidableEq, Repr

/-- `header->version`, the high half of the first byte. -/
def version (packet : Block) : Nat := (packet 0).toNat / 16

/-- `header->ihl*4`. -/
def headerLen (packet : Block) : Nat := (packet 0).toNat % 16 * 4

/-- `ntohs(header->tot_len)`. -/
def totalLen (packet : Block) : Nat := (ntohs (le16 packet 2)).toNat

/-- The handler of a protocol number. -/
def handlerOf (protocol : Byte) : Option Handler :=
  if protocol = 1#8 then some .icmp
  else if protocol = 6#8 then some .tcp
  else if protocol = 17#8 then some .udp
  else none

def processIPPacket (ipForwardingEnabled : Bool) (myIP : Word) (packet : Block) (size : Int) : Verdict :=
  if (BitVec.ofInt 16 size).toNat < sizeofIPHeader then .dropped
  else if version packet ≠ 4 then .dropped
  else if headerLen packet < sizeofIPHeader then .dropped
  else if (totalLen packet : Int) > size then .dropped
  else if headerLen packet > totalLen packet then .dropped
  else if le32 packet 16 ≠ myIP then if ipForwardingEnabled then .forwarded else .dropped
  -- `processIPFragment` returns at once
  else if ntohs (le16 packet 6) ≠ 0#16 ∧ ntohs (le16 packet 6) &&& 0x4000#16 = 0#16 then .dropped
  else match handlerOf (packet 9) with
    | some handler => .handed handler (headerLen packet) (totalLen packet - headerLen packet)
    | none => .dropped

end IP

namespace Ethernet
open NetUtils

inductive Handler where
  | arp | ip | ipv6
  deriving DecidableEq, Repr

def sizeofEthernetIIHeader : Nat := 14

/-- The handler that `processEthernetIIFrame` calls, with the packet's distance from the frame and
its size. -/
def processEthernetIIFrame (frame : Block) (size : Int) : Option (Handler × Nat × Int) :=
  let passed (handler : Handler) := some (handler, sizeofEthernetIIHeader, size - sizeofEthernetIIHeader)
  if ntohs (le16 frame 12) = 0x0806#16 then passed .arp
  else if ntohs (le16 frame 12) = 0x0800#16 then passed .ip
  else if ntohs (le16 frame 12) = 0x86DD#16 then passed .ipv6
  else none

theorem processEthernetIIFrame_cases (frame : Block) (size : Int) :
    processEthernetIIFrame frame size = none ∨
      ∃ handler, processEthernetIIFrame frame size = some (handler, 14, size - 14) := by
  unfold processEthernetIIFrame
  split
  · exact .inr ⟨.arp, rfl⟩
  split
  · exact .inr ⟨.ip, rfl⟩
  split
  · exact .inr ⟨.ipv6, rfl⟩
  · exact .inl rfl

end Ethernet

namespace IP
open NetUtils Ethernet

/-- The memory from `offset` bytes further on. -/
def after (block : Block) (offset : Nat) : Block := fun i => block (offset + i)

/-- What becomes of a payload: it is handed on as a range of the packet that lies in the first
`size` bytes, or the packet is dropped. -/
inductive Contained (packet : Block) (size : Int) : Verdict → Prop where
  | dropped : Contained packet size .dropped
  | handed {handler : Handler} {length : Int} (protocol : handlerOf (packet 9) = some handler)
      (header : sizeofIPHeader ≤ headerLen packet) (nonneg : 0 ≤ length)
      (stop : headerLen packet + length = totalLen packet) (inside : totalLen packet ≤ size) :
      Contained packet size (.handed handler (headerLen packet) length)

/-- Without forwarding a payload is contained, whatever the three lengths are. -/
theorem processIPPacket_contained (myIP : Word) (packet : Block) (size : Int) :
    Contained packet size (processIPPacket false myIP packet size) := by
  unfold processIPPacket
  split
  · exact .dropped
  split
  · exact .dropped
  split
  · exact .dropped
  split
  · exact .dropped
  split
  · exact .dropped
  split
  · exact .dropped
  split
  · exact .dropped
  rename_i header inside fits _ _
  split
  · rename_i handler protocol
    exact .handed protocol (Nat.not_lt.mp header) (by omega) (by omega) (by omega)
  · exact .dropped

/-- **Payload containment** for every frame of type IPv4, of any size and content: the payload that
a handler gets is the range from the end of the packet's header to its total length, and that
lies in the `size - 14` bytes behind the header of the frame. -/
theorem ip_frame_contained (frame : Block) (size : Int) (type : ntohs (le16 frame 12) = 0x0800#16) (myIP : Word) :
    processEthernetIIFrame frame size = some (Ethernet.Handler.ip, 14, size - 14) ∧
    Contained (after frame 14) (size - 14) (processIPPacket false myIP (after frame 14) (size - 14)) := by
  refine ⟨?_, processIPPacket_contained myIP (after frame 14) _⟩
  rw [processEthernetIIFrame, type]
  rfl

/-- An echo request of 28 bytes in a frame of 60. -/
def pingFrame : Block := fun i =>
  if i = 12 then 0x08#8 else if i = 14 then 0x45#8 else if i = 17 then 28#8 else if i = 23 then 1#8 else 0#8

theorem pingFrame_contained : Contained (after pingFrame 14) 46 (.handed .icmp 20 8) :=
  (ip_frame_contained pingFrame 60 (by decide) 0#32).2

end IP
end FluxOS
