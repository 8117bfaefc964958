import FluxOS.Transport

/-! `IPv6` and `ICMPv6`: what is read of a received packet, and the whole way of a frame to the
handlers of the transports. -/
namespace FluxOS
open Words UserMemoryOps BlockDevice NetUtils

namespace ICMPv6

/-- `processICMPv6Packet`. The payload of a reply is as long as the length in the IPv6 header says,
in unsigned arithmetic. -/
def receive (frame : Frame) (packet ipHeader : Nat) : Option Answer := do
  let type ← frame.read8 packet
  if type = 135#8 then
    let saddr ← frame.read (ipHeader + 8) 16
    let linkLayerAddress ← frame.read (packet + 4 + 20 + 2) 6
    pure (.advertisement saddr linkLayerAddress)
  else if type = 128#8 then
    let payloadLen ← frame.read16 (ipHeader + 4)
    let replyDataSize : Word := (ntohs payloadLen).setWidth 32 - 8#32
    let id ← frame.read16 (packet + 4)
    let seqN ← frame.read16 (packet + 4 + 2)
    let data ← frame.read (packet + 4 + 4) replyDataSize.toNat
    pure (.echoReply id seqN data)
  else pure .dropped

end ICMPv6

namespace IPv6

def sizeofIPv6Header : Nat := 40

/-- `processIPv6Packet`; the source address is read for its text, and `header->payloadLen` is passed
on in network byte order. -/
def receive (openPorts : Half → Bool) (frame : Frame) (packet : Nat) : Option Answer := do
  let _ ← frame.read (packet + 8) 16
  let nextHeader ← frame.read8 (packet + 6)
  if nextHeader = 58#8 then ICMPv6.receive frame (packet + sizeofIPv6Header) packet
  else if nextHeader = 6#8 then
    let payloadLen ← frame.read16 (packet + 4)
    TCP.receive frame (packet + sizeofIPv6Header) payloadLen.toNat packet
  else if nextHeader = 17#8 then
    let payloadLen ← frame.read16 (packet + 4)
    UDP.receive openPorts frame (packet + sizeofIPv6Header) payloadLen.toNat packet 6
  else pure .dropped

end IPv6

namespace Ethernet

/-- A frame's way through `processEthernetIIFrame` to the handlers of UDP, TCP and ICMPv6. Answers of
ARP and of ICMP are not looked at. -/
def receive (openPorts : Half → Bool) (myIP : Word) (frame : Frame) : Option Answer :=
  match processEthernetIIFrame frame.bytes frame.size with
  | some (.ip, packet, size) =>
    match IP.processIPPacket false myIP (IP.after frame.bytes packet) size with
    | .handed .tcp offset length => TCP.receive frame (packet + offset) length packet
    | .handed .udp offset length => UDP.receive openPorts frame (packet + offset) length packet 4
    | _ => pure .dropped
  | some (.ipv6, packet, _) => IPv6.receive openPorts frame packet
  | _ => pure .dropped

end Ethernet
end FluxOS
