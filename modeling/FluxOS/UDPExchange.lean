import FluxOS.Forwarding
import FluxOS.UDPSocket

/-! UDP from one host to another: what `UDP::sendTo` gives the interface for a payload, what the other host makes of
the frame, and what the calls of `recvfrom` return there over a network that loses, repeats and reorders frames. -/
namespace FluxOS
open Words UserMemoryOps BlockDevice NetUtils

namespace Ethernet
open IP

def storeMac (block : Block) (offset : Nat) (mac : MacAddr) : Block :=
  fun i => if offset ≤ i ∧ i < offset + 6 then (mac >>> (8 * (i - offset))).setWidth 8 else block i

def ethertypeIP : Half := 0x0800#16

/-- `buildEthernetIIHeader`. -/
def buildEthernetIIHeader (buffer : Block) (destinationMAC myMAC : MacAddr) (type : Half) : Block :=
  store16 (storeMac (storeMac buffer 0 destinationMAC) 6 myMAC) 12 (htons type)

/-- `Ethernet::sendTo`, with the packet that lies behind the header: the frame that the interface sends. -/
def sendTo (fresh : Block) (myMAC : MacAddr) (packet : Block) (size : Nat) (destMAC : MacAddr) : Block × Nat :=
  (joined (buildEthernetIIHeader fresh destMAC myMAC ethertypeIP) sizeofEthernetIIHeader packet, sizeofEthernetIIHeader + size)

end Ethernet

namespace UDP
open IP

/-- The header and the data behind it, before the checksum is stored. -/
def newUDPHeader (newPacket : Block) (srcPort destPort : Half) (packet : List Byte) : Block :=
  let header := store16 newPacket 0 srcPort
  let header := store16 header 2 destPort
  let header := store16 header 4 (htons (BitVec.ofNat 16 (packet.length + sizeofUDPHeader)))
  let header := store16 header 6 0#16
  fun i => if sizeofUDPHeader ≤ i then packet.getD (i - sizeofUDPHeader) (header i) else header i

def udpMessage (newPacket : Block) (myIP destIp : Word) (srcPort destPort : Half) (packet : List Byte) : Block :=
  let header := newUDPHeader newPacket srcPort destPort packet
  store16 header 6 (upperLayerChecksum myIP destIp 17#8 header (packet.length + sizeofUDPHeader))

/-- `UDP::sendTo`. Without a route `allocPacketFor` returns a null pointer and leaves the offset undefined. -/
def sendTo (net : Routing) (iface : NetIface) (srcIP destIp : Word) (srcPort destPort : Half) (packet : List Byte) :
    Option (List Sent) := do
  let (asked, _, _) ← routeTo net destIp
  let message := udpMessage (after net.fresh sizeofIPHeader) iface.myIP destIp srcPort destPort packet
  return asked ++ IP.sendTo net (joined net.fresh sizeofIPHeader message) (sizeofUDPHeader + packet.length) srcIP destIp 17#8

end UDP

/-! ## Two hosts -/

/-- The host that sends from its interface `eth0`, and the one whose socket is bound to a port. -/
structure UDPHosts where
  net : IP.Routing
  iface : IP.NetIface
  myMAC : IP.MacAddr
  ipForwardingEnabled : Bool
  receiver : Word
  port : Half

namespace UDPHosts
open IP Ethernet UDPSocket

/-- What a process sends: a payload that fits an IPv4 packet, from a socket with this port. -/
structure Datagram where
  srcPort : Half
  payload : List Byte
  fits : payload.length + 28 ≤ 65535

inductive Action where
  | sendto (datagram : Datagram)
  /-- The arrival of a frame that was sent, by its number. It may come late, again or never. -/
  | deliver (frame : Nat)
  /-- A call with a queue that is not empty. -/
  | recvfrom (len : Word)

/-- The frames that were sent, and the queue of the socket. -/
structure State where
  frames : List (Block × Nat)
  datagrams : List (List Byte)

variable (hosts : UDPHosts)

/-- The frame of a packet; a request for an address is no IPv4 packet. -/
def frameOf : Sent → Option (Block × Nat)
  | .arpRequest _ _ => none
  | .packet _ destMAC bytes size => some (Ethernet.sendTo hosts.net.fresh hosts.myMAC bytes size destMAC)

/-- `processEthernetIIFrame` and `processIPPacket`, up to the call of `processUDPPacket`: the packet it is given. -/
def received (frame : Block × Nat) : Option Frame :=
  match processEthernetIIFrame frame.1 frame.2 with
  | some (.ip, offset, size) =>
    match processIPPacket hosts.ipForwardingEnabled hosts.receiver (after frame.1 offset) size with
    | .handed .udp start length =>
      if fits : length.toNat < 2 ^ 31 then some ⟨after (after frame.1 offset) start, length.toNat, fits⟩ else none
    | _ => none
  | _ => none

/-- A step, with what a call of `recvfrom` returns. -/
def step (state : State) : Action → Option (State × Option (List Byte))
  | .sendto datagram =>
    (UDP.sendTo hosts.net hosts.iface hosts.iface.myIP hosts.receiver datagram.srcPort hosts.port datagram.payload).map
      fun sent => ({ state with frames := state.frames ++ sent.filterMap hosts.frameOf }, none)
  | .deliver frame =>
    match (state.frames[frame]?).bind hosts.received with
    | some packet => (UDPSocket.step hosts.port state.datagrams (.arrives packet)).map fun (datagrams, returned) =>
        ({ state with datagrams := datagrams }, returned)
    | none => some (state, none)
  | .recvfrom len => (UDPSocket.step hosts.port state.datagrams (.recvfrom len)).map fun (datagrams, returned) =>
      ({ state with datagrams := datagrams }, returned)

/-- What the calls of `recvfrom` return, in order. -/
def run : List Action → State → Option (List (List Byte))
  | [], _ => some []
  | action :: actions, state => do
    let (state, returned) ← step hosts state action
    let later ← run actions state
    pure (returned.toList ++ later)

/-! ## What the network is for -/

/-- Each call returns as much as it asks for of the payload that arrived first and was not returned yet. -/
def meaning : List Action → List (List Byte) → List (List Byte) → Option (List (List Byte))
  | [], _, _ => some []
  | .sendto datagram :: actions, sent, waiting => meaning actions (sent ++ [datagram.payload]) waiting
  | .deliver frame :: actions, sent, waiting => meaning actions sent (waiting ++ sent[frame]?.toList)
  | .recvfrom _ :: _, _, [] => none
  | .recvfrom len :: actions, sent, payload :: waiting =>
    (meaning actions sent waiting).map (payload.take len.toNat :: ·)

/-- The length of a datagram with its bytes exchanged. -/
def exchanged (size : Nat) : Nat := (size + 8) % 256 * 256 + (size + 8) / 256

/-- The exchanged length of what arrives is not more than its length; and a call finds in the copy the length, and the
same number of bytes to return by either length. -/
def Met : List Action → List (List Byte) → List (List Byte) → Prop
  | [], _, _ => True
  | .sendto datagram :: actions, sent, waiting => Met actions (sent ++ [datagram.payload]) waiting
  | .deliver frame :: actions, sent, waiting =>
    (∀ payload ∈ sent[frame]?, exchanged payload.length ≤ payload.length + 8) ∧
      Met actions sent (waiting ++ sent[frame]?.toList)
  | .recvfrom _ :: _, _, [] => True
  | .recvfrom len :: actions, sent, payload :: waiting =>
    6 ≤ exchanged payload.length ∧
      (len = 0#32 ∨ 8 ≤ exchanged payload.length ∧
        min len.toNat (exchanged payload.length - 8) = min len.toNat payload.length) ∧
      Met actions sent waiting

/-! ## Headers -/

section Packets

variable (buffer : Block) (sourceIP destinationIP : Word) (protocol : Byte) (dataLen : Half)

theorem buildIPHeader_first : buildIPHeader buffer sourceIP destinationIP protocol dataLen 0 = 0x45#8 := by
  simp [buildIPHeader, newIPHeader, store32, store16, store8]

theorem buildIPHeader_tot_len :
    le16 (buildIPHeader buffer sourceIP destinationIP protocol dataLen) 2 = htons dataLen := by
  have low : buildIPHeader buffer sourceIP destinationIP protocol dataLen 2 =
      store16 buffer 2 (htons dataLen) 2 := by
    simp [buildIPHeader, newIPHeader, store32, store16, store8]
  have high : buildIPHeader buffer sourceIP destinationIP protocol dataLen (2 + 1) =
      store16 buffer 2 (htons dataLen) (2 + 1) := by
    simp [buildIPHeader, newIPHeader, store32, store16, store8]
  rw [le16, low, high]
  exact le16_store16 _

theorem buildIPHeader_frag_off :
    le16 (buildIPHeader buffer sourceIP destinationIP protocol dataLen) 6 = htons 0x4000#16 := by
  have low : buildIPHeader buffer sourceIP destinationIP protocol dataLen 6 =
      store16 buffer 6 (htons 0x4000#16) 6 := by
    simp [buildIPHeader, newIPHeader, store32, store16, store8]
  have high : buildIPHeader buffer sourceIP destinationIP protocol dataLen (6 + 1) =
      store16 buffer 6 (htons 0x4000#16) (6 + 1) := by
    simp [buildIPHeader, newIPHeader, store32, store16, store8]
  rw [le16, low, high]
  exact le16_store16 _

end Packets

section Messages

variable (newPacket : Block) (myIP destIp : Word) (srcPort destPort : Half) (packet : List Byte)

theorem udpMessage_destport : le16 (UDP.udpMessage newPacket myIP destIp srcPort destPort packet) 2 = destPort := by
  have low : UDP.udpMessage newPacket myIP destIp srcPort destPort packet 2 = store16 newPacket 2 destPort 2 := by
    simp [UDP.udpMessage, UDP.newUDPHeader, UDP.sizeofUDPHeader, store16, store8, Function.update]
  have high : UDP.udpMessage newPacket myIP destIp srcPort destPort packet (2 + 1) =
      store16 newPacket 2 destPort (2 + 1) := by
    simp [UDP.udpMessage, UDP.newUDPHeader, UDP.sizeofUDPHeader, store16, store8, Function.update]
  rw [le16, low, high]
  exact le16_store16 _

theorem udpMessage_length : le16 (UDP.udpMessage newPacket myIP destIp srcPort destPort packet) 4 =
    htons (BitVec.ofNat 16 (packet.length + UDP.sizeofUDPHeader)) := by
  have low : UDP.udpMessage newPacket myIP destIp srcPort destPort packet 4 =
      store16 newPacket 4 (htons (BitVec.ofNat 16 (packet.length + UDP.sizeofUDPHeader))) 4 := by
    simp [UDP.udpMessage, UDP.newUDPHeader, UDP.sizeofUDPHeader, store16, store8, Function.update]
  have high : UDP.udpMessage newPacket myIP destIp srcPort destPort packet (4 + 1) =
      store16 newPacket 4 (htons (BitVec.ofNat 16 (packet.length + UDP.sizeofUDPHeader))) (4 + 1) := by
    simp [UDP.udpMessage, UDP.newUDPHeader, UDP.sizeofUDPHeader, store16, store8, Function.update]
  rw [le16, low, high]
  exact le16_store16 _

theorem udpMessage_payload {i : Nat} (inside : i < packet.length) :
    UDP.udpMessage newPacket myIP destIp srcPort destPort packet (8 + i) = packet[i] := by
  have behind : UDP.udpMessage newPacket myIP destIp srcPort destPort packet (8 + i) =
      UDP.newUDPHeader newPacket srcPort destPort packet (8 + i) :=
    store16_other (by omega) (by omega) _
  rw [behind, UDP.newUDPHeader]
  dsimp only
  rw [UDP.sizeofUDPHeader, if_pos (Nat.le_add_right 8 i), Nat.add_sub_cancel_left, List.getD_eq_getElem?_getD,
    List.getElem?_eq_getElem inside, Option.getD_some]

end Messages

/-! ## What one payload becomes -/

variable {hosts : UDPHosts} {rt : Route}

/-- The message of a datagram, and the packet that it is sent in. -/
def Datagram.message (datagram : Datagram) (hosts : UDPHosts) : Block :=
  UDP.udpMessage (after hosts.net.fresh sizeofIPHeader) hosts.iface.myIP hosts.receiver datagram.srcPort hosts.port
    datagram.payload

def Datagram.ipPacket (datagram : Datagram) (hosts : UDPHosts) (rt : Route) : Block :=
  buildIPHeader (joined hosts.net.fresh sizeofIPHeader (datagram.message hosts))
    (if hosts.iface.myIP = 0#32 then rt.iface.myIP else hosts.iface.myIP) hosts.receiver 17#8
    (BitVec.ofNat 16 (sizeofIPHeader + (UDP.sizeofUDPHeader + datagram.payload.length)))

def Datagram.sentFrame (datagram : Datagram) (hosts : UDPHosts) (rt : Route) : Block × Nat :=
  Ethernet.sendTo hosts.net.fresh hosts.myMAC (datagram.ipPacket hosts rt)
    (sizeofIPHeader + (UDP.sizeofUDPHeader + datagram.payload.length)) (rt.macAddr hosts.receiver)

theorem Datagram.packet_fits (datagram : Datagram) : UDP.sizeofUDPHeader + datagram.payload.length < 2 ^ 31 := by
  have small := datagram.fits
  rw [UDP.sizeofUDPHeader]
  omega

/-- The packet as the receiver's `processUDPPacket` is given it. -/
def Datagram.packet (datagram : Datagram) (hosts : UDPHosts) : Frame where
  bytes := datagram.message hosts
  size := UDP.sizeofUDPHeader + datagram.payload.length
  fits := datagram.packet_fits

/-- Where there is a route a payload is sent in one frame. -/
theorem sendTo_frames (routed : hosts.net.route hosts.receiver = some rt) (datagram : Datagram) :
    ∃ sent, UDP.sendTo hosts.net hosts.iface hosts.iface.myIP hosts.receiver datagram.srcPort hosts.port
        datagram.payload = some sent ∧ sent.filterMap hosts.frameOf = [datagram.sentFrame hosts rt] := by
  refine ⟨asked rt hosts.receiver ++ (asked rt hosts.receiver ++ [.packet rt.iface (rt.macAddr hosts.receiver)
    (datagram.ipPacket hosts rt) (sizeofIPHeader + (UDP.sizeofUDPHeader + datagram.payload.length))]), ?_, ?_⟩
  · simp only [UDP.sendTo, IP.sendTo, routeTo_some routed, Option.bind_eq_bind, Option.bind_some]
    rfl
  · have request : (asked rt hosts.receiver).filterMap hosts.frameOf = [] := by
      rw [asked]
      split
      · rfl
      · rfl
    rw [List.filterMap_append, List.filterMap_append, request]
    rfl

theorem after_sentFrame (hosts : UDPHosts) (rt : Route) (datagram : Datagram) :
    after (datagram.sentFrame hosts rt).1 14 = datagram.ipPacket hosts rt := by
  funext i
  have behind : ¬14 + i < sizeofEthernetIIHeader := Nat.not_lt_of_le (Nat.le_add_right 14 i)
  exact (if_neg behind).trans (congrArg _ (Nat.add_sub_cancel_left 14 i))

theorem after_ipPacket (hosts : UDPHosts) (rt : Route) (datagram : Datagram) :
    after (datagram.ipPacket hosts rt) 20 = datagram.message hosts := by
  funext i
  rw [after, Datagram.ipPacket, buildIPHeader_behind _ _ _ _ _ (Nat.le_add_right 20 i), joined, sizeofIPHeader,
    if_neg (by omega), Nat.add_sub_cancel_left]

/-- The other host hands the message to its `processUDPPacket`. -/
theorem received_sentFrame (rt : Route) (datagram : Datagram) :
    hosts.received (datagram.sentFrame hosts rt) = some (datagram.packet hosts) := by
  have small := datagram.fits
  have type : le16 (datagram.sentFrame hosts rt).1 12 = htons ethertypeIP := by
    have header : le16 (datagram.sentFrame hosts rt).1 12 =
        le16 (buildEthernetIIHeader hosts.net.fresh (rt.macAddr hosts.receiver) hosts.myMAC ethertypeIP) 12 := rfl
    rw [header, buildEthernetIIHeader, le16_store16]
  have frame : processEthernetIIFrame (datagram.sentFrame hosts rt).1 (datagram.sentFrame hosts rt).2 =
      some (.ip, 14, ((28 + datagram.payload.length : Nat) : Int)) := by
    rw [processEthernetIIFrame, type, ntohs_htons, ethertypeIP, if_neg (by decide), if_pos rfl]
    have size : ((datagram.sentFrame hosts rt).2 : Int) - sizeofEthernetIIHeader =
        ((28 + datagram.payload.length : Nat) : Int) := by
      rw [Datagram.sentFrame, Ethernet.sendTo, sizeofEthernetIIHeader, sizeofIPHeader, UDP.sizeofUDPHeader]
      omega
    rw [size, sizeofEthernetIIHeader]
  have total : totalLen (datagram.ipPacket hosts rt) = 28 + datagram.payload.length := by
    rw [totalLen, Datagram.ipPacket, buildIPHeader_tot_len, ntohs_htons, sizeofIPHeader, UDP.sizeofUDPHeader,
      BitVec.toNat_ofNat]
    omega
  have first : datagram.ipPacket hosts rt 0 = 0x45#8 := buildIPHeader_first ..
  have header : headerLen (datagram.ipPacket hosts rt) = 20 := by
    rw [headerLen, first]
    rfl
  have four : version (datagram.ipPacket hosts rt) = 4 := by
    rw [version, first]
    rfl
  have here : le32 (datagram.ipPacket hosts rt) 16 = hosts.receiver := buildIPHeader_daddr ..
  have whole : le16 (datagram.ipPacket hosts rt) 6 = htons 0x4000#16 := buildIPHeader_frag_off ..
  have protocol : datagram.ipPacket hosts rt 9 = 17#8 := buildIPHeader_protocol ..
  have size : (BitVec.ofInt 16 ((28 + datagram.payload.length : Nat) : Int)).toNat = 28 + datagram.payload.length := by
    rw [BitVec.toNat_ofInt]
    omega
  have verdict : processIPPacket hosts.ipForwardingEnabled hosts.receiver (datagram.ipPacket hosts rt)
      ((28 + datagram.payload.length : Nat) : Int) =
        .handed .udp 20 (((28 + datagram.payload.length : Nat) : Int) - ((20 : Nat) : Int)) := by
    rw [processIPPacket, size, four, header, total, here, whole, ntohs_htons, protocol, sizeofIPHeader,
      if_neg (by omega), if_neg (by decide), if_neg (by decide), if_neg (by omega), if_neg (by omega),
      if_neg (fun other => other rfl), if_neg (by decide)]
    rfl
  have length : (((28 + datagram.payload.length : Nat) : Int) - ((20 : Nat) : Int)).toNat =
      UDP.sizeofUDPHeader + datagram.payload.length := by
    rw [UDP.sizeofUDPHeader]
    omega
  rw [received, frame]
  dsimp only
  rw [after_sentFrame, verdict]
  dsimp only
  rw [dif_pos (by omega), Option.some_inj]
  simp only [Datagram.packet, after_ipPacket, length]

theorem length_packet (datagram : Datagram) :
    UDPSocket.length (datagram.packet hosts) = datagram.payload.length + 8 := by
  have small := datagram.fits
  have stored : le16 (datagram.packet hosts).bytes 4 =
      htons (BitVec.ofNat 16 (datagram.payload.length + UDP.sizeofUDPHeader)) := udpMessage_length ..
  rw [UDPSocket.length, stored, ntohs_htons, UDP.sizeofUDPHeader, BitVec.toNat_ofNat]
  omega

theorem swapped_packet (datagram : Datagram) :
    swapped (datagram.packet hosts) = exchanged datagram.payload.length := by
  have small := datagram.fits
  have stored : le16 (datagram.packet hosts).bytes 4 =
      htons (BitVec.ofNat 16 (datagram.payload.length + UDP.sizeofUDPHeader)) := udpMessage_length ..
  rw [swapped, stored, htons, toNat_bswap16, UDP.sizeofUDPHeader, BitVec.toNat_ofNat, exchanged]
  omega

theorem payload_packet (datagram : Datagram) : payload (datagram.packet hosts) = datagram.payload := by
  rw [payload, length_packet, Nat.add_sub_cancel]
  refine List.ext_getElem (Frame.length_range _ _ _) fun i ranged inside => ?_
  have read : ((datagram.packet hosts).range 8 datagram.payload.length)[i] = datagram.message hosts (8 + i) := by
    simp only [Frame.range, List.getElem_map, List.getElem_range]
    rfl
  rw [read]
  exact udpMessage_payload _ _ _ _ _ _ inside

theorem packet_wellFormed (bound : hosts.port ≠ 0#16) (datagram : Datagram) :
    WellFormed hosts.port (datagram.packet hosts) where
  header := by
    rw [length_packet]
    exact Nat.le_add_left _ _
  inside := by
    rw [length_packet, Nat.add_comm]
    exact Nat.le_refl _
  small := by
    have small := datagram.fits
    have size : (datagram.packet hosts).size = 8 + datagram.payload.length := rfl
    omega
  bound := udpMessage_destport ..
  port_ne_zero := bound

/-! ## Runs -/

/-- What the socket of the receiver comes across. -/
def events (hosts : UDPHosts) : List Action → List Datagram → List Event
  | [], _ => []
  | .sendto datagram :: actions, sent => events hosts actions (sent ++ [datagram])
  | .deliver frame :: actions, sent =>
    sent[frame]?.toList.map (fun datagram => .arrives (datagram.packet hosts)) ++ events hosts actions sent
  | .recvfrom len :: actions, sent => .recvfrom len :: events hosts actions sent

theorem events_wellFormed (bound : hosts.port ≠ 0#16) (actions : List Action) (sent : List Datagram) (packet : Frame)
    (mem : .arrives packet ∈ events hosts actions sent) : WellFormed hosts.port packet := by
  induction actions generalizing sent with
  | nil => cases mem
  | cons action actions ih =>
    cases action with
    | sendto datagram => exact ih _ mem
    | deliver frame =>
      rcases List.mem_append.mp mem with arrival | later
      · obtain ⟨datagram, -, same⟩ := List.mem_map.mp arrival
        cases same
        exact packet_wellFormed bound datagram
      · exact ih _ later
    | recvfrom len =>
      rcases List.mem_cons.mp mem with same | later
      · cases same
      · exact ih _ later

theorem run_cons (action : Action) (actions : List Action) (state : State) : run hosts (action :: actions) state =
    (step hosts state action).bind fun done => (run hosts actions done.1).map (done.2.toList ++ ·) := by
  simp only [Option.map_eq_bind]
  rfl

theorem socket_run_cons (port : Half) (event : Event) (events : List Event) (datagrams : List (List Byte)) :
    UDPSocket.run port (event :: events) datagrams =
      (UDPSocket.step port datagrams event).bind fun done =>
        (UDPSocket.run port events done.1).map (done.2.toList ++ ·) := by
  simp only [Option.map_eq_bind]
  rfl

theorem map_nothing (later : Option (List (List Byte))) :
    later.map ((none : Option (List Byte)).toList ++ ·) = later := by
  cases later with
  | none => rfl
  | some results => rfl

/-- A run of both hosts is one of the socket, with the datagrams that were sent. -/
theorem run_eq_events (routed : hosts.net.route hosts.receiver = some rt) (actions : List Action) (sent : List Datagram)
    (datagrams : List (List Byte)) :
    run hosts actions ⟨sent.map fun datagram => datagram.sentFrame hosts rt, datagrams⟩ =
      UDPSocket.run hosts.port (events hosts actions sent) datagrams := by
  induction actions generalizing sent datagrams with
  | nil => rfl
  | cons action actions ih =>
    rw [run_cons]
    cases action with
    | sendto datagram =>
      obtain ⟨frames, done, sentOne⟩ := sendTo_frames routed datagram
      have added : (sent ++ [datagram]).map (fun datagram => datagram.sentFrame hosts rt) =
          sent.map (fun datagram => datagram.sentFrame hosts rt) ++ [datagram.sentFrame hosts rt] := List.map_append
      rw [step, done, Option.map_some, sentOne, Option.bind_some, events, ← ih, added]
      exact map_nothing _
    | deliver frame =>
      have received := fun datagram => @received_sentFrame hosts rt datagram
      rw [step, events, List.getElem?_map]
      cases sent[frame]? with
      | none => exact (map_nothing _).trans (ih sent datagrams)
      | some datagram =>
        rw [Option.map_some, Option.bind_some, received]
        rw [Option.toList_some, List.map_singleton, List.singleton_append, socket_run_cons, Option.bind_map]
        exact congrArg _ (funext fun done => congrArg _ (ih sent done.1))
    | recvfrom len =>
      rw [step, events, socket_run_cons, Option.bind_map]
      exact congrArg _ (funext fun done => congrArg _ (ih sent done.1))

/-- What the socket should return is what the network is for. -/
theorem delivered_events (actions : List Action) (sent waiting : List Datagram) :
    delivered (events hosts actions sent) (waiting.map fun datagram => datagram.packet hosts) =
      meaning actions (sent.map Datagram.payload) (waiting.map Datagram.payload) := by
  induction actions generalizing sent waiting with
  | nil => rfl
  | cons action actions ih =>
    cases action with
    | sendto datagram =>
      rw [events, meaning, ih, List.map_append]
      rfl
    | deliver frame =>
      rw [events, meaning, List.getElem?_map]
      cases sent[frame]? with
      | none => exact (ih sent waiting).trans (by rw [Option.map_none, Option.toList_none, List.append_nil])
      | some datagram =>
        have next := ih sent (waiting ++ [datagram])
        rw [List.map_append, List.map_append] at next
        exact next
    | recvfrom len =>
      rw [events]
      cases waiting with
      | nil => rfl
      | cons datagram waiting =>
        rw [List.map_cons, delivered, ih, payload_packet]
        rfl

theorem met_events (actions : List Action) (sent waiting : List Datagram) :
    UDPSocket.Met (events hosts actions sent) (waiting.map fun datagram => datagram.packet hosts) ↔
      Met actions (sent.map Datagram.payload) (waiting.map Datagram.payload) := by
  induction actions generalizing sent waiting with
  | nil => exact Iff.rfl
  | cons action actions ih =>
    cases action with
    | sendto datagram =>
      rw [events, Met, ih, List.map_append]
      exact Iff.rfl
    | deliver frame =>
      rw [events, Met, List.getElem?_map]
      cases sent[frame]? with
      | none =>
        have nothing : ∀ payload ∈ (none : Option (List Byte)), exchanged payload.length ≤ payload.length + 8 :=
          fun _ none => nomatch none
        have kept : waiting.map Datagram.payload ++ (none : Option (List Byte)).toList = waiting.map Datagram.payload :=
          List.append_nil _
        rw [Option.map_none, and_iff_right nothing, kept]
        exact ih sent waiting
      | some datagram =>
        have next := ih sent (waiting ++ [datagram])
        rw [List.map_append, List.map_append] at next
        have size : (datagram.packet hosts).size = datagram.payload.length + 8 := Nat.add_comm _ _
        refine (and_congr ?_ next).trans Iff.rfl
        rw [swapped_packet, size]
        exact ⟨fun short payload same => Option.some.inj same ▸ short, fun short => short _ rfl⟩
    | recvfrom len =>
      rw [events]
      cases waiting with
      | nil => exact Iff.rfl
      | cons datagram waiting =>
        rw [List.map_cons, UDPSocket.Met, ih, swapped_packet, length_packet, Nat.add_sub_cancel]
        exact Iff.rfl

/-- **UDP between two hosts**: over a network that loses, repeats and reorders frames every call of `recvfrom` returns
the payload that was sent, exactly when the run meets the condition on the lengths. -/
theorem exchange_iff (routed : hosts.net.route hosts.receiver = some rt) (bound : hosts.port ≠ 0#16)
    {actions : List Action} {results : List (List Byte)} (right : meaning actions [] [] = some results) :
    run hosts actions ⟨[], []⟩ = some results ↔ Met actions [] [] := by
  have socket := run_eq_events routed actions [] []
  have met := @met_events hosts actions [] []
  have delivery := @run_eq_iff _ _ results (fun packet mem => events_wellFormed bound actions [] packet mem) []
    ((delivered_events actions [] []).trans right)
  rw [List.map_nil] at socket
  rw [socket]
  exact delivery.trans met

/-- Two hosts on one link. -/
def linked : UDPHosts where
  net := everywhere
  iface := neighbour
  myMAC := 2#48
  ipForwardingEnabled := false
  receiver := 0x0200000A#32
  port := 0x3500#16

/-- A payload whose length with the header reads the same in either byte order. -/
def evenLetters : Datagram := ⟨0x3600#16, List.replicate 249 0x61#8, by rw [List.length_replicate]; decide⟩

/-- A frame that arrives twice is returned twice. -/
theorem linked_exchange : run linked
    [.sendto evenLetters, .deliver 0, .deliver 1, .deliver 0, .recvfrom 2#32, .recvfrom 1#32] ⟨[], []⟩ =
      some [[0x61#8, 0x61#8], [0x61#8]] := by
  have length : evenLetters.payload.length = 249 := List.length_replicate
  have same : exchanged evenLetters.payload.length = 257 := by
    rw [length]
    rfl
  have routed : linked.net.route linked.receiver = some ⟨0#32, 0#32, 0#32, neighbour⟩ := rfl
  have arrives : ∀ payload ∈ some evenLetters.payload, exchanged payload.length ≤ payload.length + 8 := by
    rintro payload mem
    cases mem
    rw [same, length]
  have returned (len : Word) (short : len.toNat < 249) : 6 ≤ exchanged evenLetters.payload.length ∧
      (len = 0#32 ∨ 8 ≤ exchanged evenLetters.payload.length ∧
        min len.toNat (exchanged evenLetters.payload.length - 8) = min len.toNat evenLetters.payload.length) := by
    rw [same, length]
    omega
  obtain ⟨two, twoSame⟩ := returned 2#32 (by decide)
  obtain ⟨one, oneSame⟩ := returned 1#32 (by decide)
  exact (exchange_iff routed (by decide) rfl).mpr ⟨arrives, nofun, arrives, two, twoSame, one, oneSame, trivial⟩

end UDPHosts
end FluxOS
