import FluxOS.IPv6

/-! For which frames the handlers stay inside, answer an echo request with its payload, and drop
what is too short for its headers. -/
namespace FluxOS
open Words UserMemoryOps BlockDevice NetUtils

/-- The reads succeed, and a frame that is too short is dropped. -/
def Settled (result : Option Answer) (tooShort : Prop) (good : Answer → Prop) : Prop :=
  ∃ answer, result = some answer ∧ good answer ∧ (tooShort → answer = .dropped)

theorem not_settled_none (tooShort : Prop) (good : Answer → Prop) : ¬Settled none tooShort good := by
  rintro ⟨_, read, -⟩
  cases read

theorem settled_some {answer : Answer} {tooShort : Prop} {good : Answer → Prop} :
    Settled (some answer) tooShort good ↔ good answer ∧ (tooShort → answer = .dropped) := by
  constructor
  · rintro ⟨_, read, right⟩
    cases read
    exact right
  · exact fun right => ⟨answer, rfl, right⟩

namespace TCP

theorem processTCPPacket_ne_echoReply (header : TCPHeader) (size : Int) (saddr daddr : Word) (id seqN : Half)
    (data : List Byte) : processTCPPacket header size saddr daddr ≠ .echoReply id seqN data := by
  simp only [processTCPPacket]
  split_ifs <;> exact Answer.noConfusion

/-- The flags lie in the frame, and so does the whole header if they ask for an answer. -/
def Safe (frame : Frame) (packet : Nat) (size : Int) : Prop :=
  packet + 14 ≤ frame.size ∧ (frame.size < packet + sizeofTCPHeader → Quiet (le16 frame.bytes (packet + 12)) size)

theorem receive_of_le {frame : Frame} {packet ipHeader : Nat} (flags : packet + 14 ≤ frame.size)
    (before : ipHeader + 20 ≤ packet) (size : Int) :
    ∃ header saddr daddr, header.flags = le16 frame.bytes (packet + 12) ∧
      receive frame packet size ipHeader = some (processTCPPacket header size saddr daddr) := by
  refine ⟨⟨le16 frame.bytes packet, le16 frame.bytes (packet + 2), le32 frame.bytes (packet + 4),
    le32 frame.bytes (packet + 8), le16 frame.bytes (packet + 12)⟩, le32 frame.bytes (ipHeader + 12),
    le32 frame.bytes (ipHeader + 16), rfl, ?_⟩
  rw [receive, Frame.read16_of_le (by omega), Frame.read16_of_le (by omega), Frame.read16_of_le (by omega),
    Frame.read32_of_le (by omega), Frame.read32_of_le (by omega), Frame.read32_of_le (by omega),
    Frame.read32_of_le (by omega)]
  rfl

theorem receive_settled_iff {frame : Frame} {packet ipHeader : Nat} (before : ipHeader + 20 ≤ packet) (size : Int)
    {good : Answer → Prop} (others : ∀ answer, (∀ id seqN data, answer ≠ .echoReply id seqN data) → good answer) :
    Settled (receive frame packet size ipHeader) (frame.size < packet + sizeofTCPHeader) good ↔ Safe frame packet size := by
  by_cases flags : packet + 14 ≤ frame.size
  · obtain ⟨header, saddr, daddr, same, read⟩ := receive_of_le flags before size
    have right := others _ (processTCPPacket_ne_echoReply header size saddr daddr)
    rw [read, settled_some, processTCPPacket_eq_dropped, same]
    exact ⟨fun settled => ⟨flags, settled.2⟩, fun safe => ⟨right, safe.2⟩⟩
  · have outside : frame.read16 (packet + 12) = none := Frame.read16_of_lt (by omega)
    rw [receive, outside]
    exact iff_of_false (not_settled_none _ _) fun safe => flags safe.1

end TCP

namespace UDP

/-- The length lies in the frame, and what is copied of an accepted packet lies in it as well. -/
def Safe (openPorts : Half → Bool) (frame : Frame) (packet : Nat) (size : Int) : Prop :=
  packet + 6 ≤ frame.size ∧
    (¬refuses (le16 frame.bytes (packet + 4)) (le16 frame.bytes (packet + 2)) size →
      openPorts (le16 frame.bytes (packet + 2)) = true →
      packet + sizeofUDPHeader ≤ frame.size ∧ packet + (le16 frame.bytes (packet + 4)).toNat ≤ frame.size)

/-- An IPv4 packet lies in its frame, and its header is in front of the payload. -/
def Enclosed (frame : Frame) (packet : Nat) (size : Int) (ipHeader : Nat) : Prop :=
  packet + size ≤ frame.size ∧ ipHeader + 20 ≤ packet

theorem length_of_accepted {length destport : Half} {size : Int} (accepted : ¬refuses length destport size) :
    length.toNat ≠ 0 ∧ 8 ≤ size := by
  obtain ⟨long, -, fits, -⟩ : 8 ≤ (ntohs length).toNat ∧ _ ∧ ((ntohs length).toNat : Int) ≤ size ∧ _ := by
    simpa only [refuses, not_or, Nat.not_lt, Int.not_lt, sizeofUDPHeader] using accepted
  refine ⟨fun zero => ?_, by omega⟩
  rw [ntohs, toNat_bswap16, zero] at long
  exact absurd long (by decide)

theorem receive_settled_iff {openPorts : Half → Bool} {frame : Frame} {packet ipHeader previousHeaderType : Nat} {size : Int}
    (enclosed : previousHeaderType = 4 → Enclosed frame packet size ipHeader)
    {good : Answer → Prop} (others : ∀ answer, (∀ id seqN data, answer ≠ .echoReply id seqN data) → good answer) :
    Settled (receive openPorts frame packet size ipHeader previousHeaderType) (frame.size < packet + sizeofUDPHeader) good ↔
      Safe openPorts frame packet size := by
  have dropped : Settled (some .dropped) (frame.size < packet + sizeofUDPHeader) good :=
    settled_some.mpr ⟨others _ fun _ _ _ => Answer.noConfusion, fun _ => rfl⟩
  by_cases header : packet + 6 ≤ frame.size
  · have length : frame.read16 (packet + 4) = some (le16 frame.bytes (packet + 4)) := Frame.read16_of_le (by omega)
    have destport : frame.read16 (packet + 2) = some (le16 frame.bytes (packet + 2)) := Frame.read16_of_le (by omega)
    rw [receive, length, destport, Option.bind_eq_bind, Option.bind_some, Option.bind_eq_bind, Option.bind_some]
    split
    · rename_i refused
      exact iff_of_true dropped ⟨header, fun accepted => absurd refused accepted⟩
    rename_i accepted
    obtain ⟨positive, long⟩ := length_of_accepted accepted
    split
    · rename_i bound
      by_cases copied : packet + (le16 frame.bytes (packet + 4)).toNat ≤ frame.size
      · rw [Frame.read_of_inside (Frame.inside_of_le copied), Option.bind_some]
        refine settled_some.trans ⟨fun settled => ⟨header, fun _ _ => ⟨?_, copied⟩⟩, fun safe => ⟨?_, fun short => ?_⟩⟩
        · exact Nat.not_lt.mp fun short => Answer.noConfusion (settled.2 short)
        · exact others _ fun _ _ _ => Answer.noConfusion
        · exact absurd (safe.2 accepted bound).1 (Nat.not_le.mpr short)
      · rw [Frame.read, if_neg fun inside => copied ((Frame.inside_iff positive).mp inside)]
        exact iff_of_false (not_settled_none _ _) fun safe => copied (safe.2 accepted bound).2
    · rename_i unbound
      refine iff_of_true ?_ ⟨header, fun _ bound => absurd bound unbound⟩
      split
      · rename_i four
        obtain ⟨inside, before⟩ := enclosed four
        rw [Frame.read32_of_le (by omega), Frame.read32_of_le (by omega),
          Frame.read_of_inside (Frame.inside_of_le (by omega))]
        exact settled_some.mpr ⟨others _ fun _ _ _ => Answer.noConfusion, fun short => by
          rw [sizeofUDPHeader] at short; omega⟩
      · exact dropped
  · have outside : frame.read16 (packet + 4) = none := Frame.read16_of_lt (by omega)
    rw [receive, outside]
    exact iff_of_false (not_settled_none _ _) fun safe => header safe.1

end UDP

namespace ICMPv6

/-- The payload of an echo request in a packet with this header: what its length counts behind
the headers of ICMPv6. -/
def ExactEcho (frame : Frame) (packet ipHeader : Nat) : Answer → Prop
  | .echoReply id seqN data =>
    8 ≤ (ntohs (le16 frame.bytes (ipHeader + 4))).toNat ∧
      id = le16 frame.bytes (packet + 4) ∧ seqN = le16 frame.bytes (packet + 6) ∧
      data = frame.range (packet + 8) ((ntohs (le16 frame.bytes (ipHeader + 4))).toNat - 8)
  | _ => True

theorem exactEcho_of_ne {frame : Frame} {packet ipHeader : Nat} (answer : Answer)
    (other : ∀ id seqN data, answer ≠ .echoReply id seqN data) : ExactEcho frame packet ipHeader answer := by
  cases answer with
  | echoReply id seqN data => exact absurd rfl (other id seqN data)
  | _ => trivial

/-- The bytes from the beginning that a message of this type needs. -/
def sizeofMessage (type : Byte) : Nat := if type = 135#8 then 4 + 20 + 8 else if type = 128#8 then 4 + 4 else 4

/-- The type lies in the frame; so does all of a solicitation with its option, and all of an echo
request, which is not shorter than its headers. -/
def Safe (frame : Frame) (packet ipHeader : Nat) : Prop :=
  packet + 1 ≤ frame.size ∧ (frame.bytes packet = 135#8 → packet + 32 ≤ frame.size) ∧
    (frame.bytes packet = 128#8 → 8 ≤ (ntohs (le16 frame.bytes (ipHeader + 4))).toNat ∧
      packet + (ntohs (le16 frame.bytes (ipHeader + 4))).toNat ≤ frame.size)

/-- The length of the reply's payload is right when the packet's length counts its headers; else it
is larger than any frame. -/
theorem replyDataSize_inside {frame : Frame} {offset : Nat} (length : Half) :
    frame.Inside (offset + 8) (length.setWidth 32 - 8#32 : Word).toNat ∧ offset + 8 ≤ frame.size ↔
      8 ≤ length.toNat ∧ offset + length.toNat ≤ frame.size := by
  have bound := length.isLt
  have fits := frame.fits
  have value : (length.setWidth 32 - 8#32 : Word).toNat = (2 ^ 32 - 8 + length.toNat) % 2 ^ 32 := by
    rw [BitVec.toNat_sub, BitVec.toNat_setWidth, Nat.mod_eq_of_lt (a := length.toNat) (by omega), BitVec.toNat_ofNat]
  rw [value, Frame.Inside]
  omega

section Echo

variable {frame : Frame} {packet ipHeader : Nat}

/-- The end of `processICMPv6Packet` for an echo request. -/
theorem echo_settled_iff (header : ipHeader + 6 ≤ frame.size) :
    Settled (do
      let payloadLen ← frame.read16 (ipHeader + 4)
      let replyDataSize : Word := (ntohs payloadLen).setWidth 32 - 8#32
      let id ← frame.read16 (packet + 4)
      let seqN ← frame.read16 (packet + 4 + 2)
      let data ← frame.read (packet + 4 + 4) replyDataSize.toNat
      pure (.echoReply id seqN data)) (frame.size < packet + 8) (ExactEcho frame packet ipHeader) ↔
    8 ≤ (ntohs (le16 frame.bytes (ipHeader + 4))).toNat ∧
      packet + (ntohs (le16 frame.bytes (ipHeader + 4))).toNat ≤ frame.size := by
  have reply := @replyDataSize_inside frame packet (ntohs (le16 frame.bytes (ipHeader + 4)))
  rw [Frame.read16_of_le (by omega), Option.bind_eq_bind, Option.bind_some, ← reply]
  by_cases fields : packet + 8 ≤ frame.size
  · rw [Frame.read16_of_le (by omega), Frame.read16_of_le (by omega)]
    by_cases copied : frame.Inside (packet + 8) ((ntohs (le16 frame.bytes (ipHeader + 4))).setWidth 32 - 8#32 : Word).toNat
    · have data : frame.read (packet + 4 + 4)
          ((ntohs (le16 frame.bytes (ipHeader + 4))).setWidth 32 - 8#32 : Word).toNat = some _ := if_pos copied
      simp only [data, Option.bind_some, Option.bind_eq_bind]
      refine settled_some.trans ⟨fun _ => ⟨copied, fields⟩, fun safe => ⟨?_, fun short => absurd fields (by omega)⟩⟩
      obtain ⟨counted, -⟩ := reply.mp safe
      have bound := (ntohs (le16 frame.bytes (ipHeader + 4))).isLt
      refine ⟨counted, rfl, rfl, congrArg _ ?_⟩
      rw [BitVec.toNat_sub, BitVec.toNat_setWidth, Nat.mod_eq_of_lt (a := BitVec.toNat _) (by omega), BitVec.toNat_ofNat]
      omega
    · have outside : frame.read (packet + 4 + 4)
          ((ntohs (le16 frame.bytes (ipHeader + 4))).setWidth 32 - 8#32 : Word).toNat = none := if_neg copied
      simp only [outside, Option.bind_none, Option.bind_some, Option.bind_eq_bind]
      exact iff_of_false (not_settled_none _ _) fun safe => copied safe.1
  · refine iff_of_false ?_ fun safe => fields safe.2
    have outside : frame.read16 (packet + 4 + 2) = none := Frame.read16_of_lt (by omega)
    obtain read | read := Option.eq_none_or_eq_some (frame.read16 (packet + 4))
    · rw [read]
      exact not_settled_none _ _
    · obtain ⟨id, read⟩ := read
      rw [read, outside]
      exact not_settled_none _ _

end Echo

theorem receive_settled_iff {frame : Frame} {packet ipHeader : Nat} (before : ipHeader + 40 ≤ packet) :
    Settled (receive frame packet ipHeader) (frame.size < packet + sizeofMessage (frame.bytes packet))
      (ExactEcho frame packet ipHeader) ↔ Safe frame packet ipHeader := by
  by_cases type : packet + 1 ≤ frame.size
  · rw [receive, Frame.read8_of_le type, Option.bind_eq_bind, Option.bind_some]
    split
    · rename_i solicitation
      have short : sizeofMessage (frame.bytes packet) = 32 := if_pos solicitation
      have notRequest : frame.bytes packet ≠ 128#8 := by
        rw [solicitation]
        decide
      rw [short, Frame.read_of_inside (Frame.inside_of_le (by omega)), Option.bind_eq_bind, Option.bind_some]
      by_cases option : packet + 32 ≤ frame.size
      · rw [Frame.read_of_inside (Frame.inside_of_le (by omega))]
        exact iff_of_true (settled_some.mpr ⟨trivial, fun short => absurd option (Nat.not_le.mpr short)⟩)
          ⟨type, fun _ => option, fun request => absurd request notRequest⟩
      · have outside : ¬frame.Inside (packet + 4 + 20 + 2) 6 := by
          rw [Frame.inside_iff (by decide)]
          omega
        rw [Frame.read, if_neg outside]
        exact iff_of_false (not_settled_none _ _) fun safe => option (safe.2.1 solicitation)
    split
    · rename_i noSolicitation request
      have short : sizeofMessage (frame.bytes packet) = 8 := by
        rw [sizeofMessage, if_neg noSolicitation, if_pos request]
      rw [short, Safe, and_iff_right type, and_iff_right fun same => absurd same noSolicitation,
        forall_prop_of_true request]
      exact echo_settled_iff (by omega)
    · rename_i noSolicitation noRequest
      exact iff_of_true (settled_some.mpr ⟨trivial, fun _ => rfl⟩)
        ⟨type, fun same => absurd same noSolicitation, fun same => absurd same noRequest⟩
  · rw [receive, Frame.read8_of_lt (by omega)]
    exact iff_of_false (not_settled_none _ _) fun safe => type safe.1

end ICMPv6

namespace IPv6

/-- The end of the headers that the packet announces. -/
def headersEnd (frame : Frame) (packet : Nat) : Nat :=
  if frame.bytes (packet + 6) = 58#8 then packet + 40 + ICMPv6.sizeofMessage (frame.bytes (packet + 40))
  else if frame.bytes (packet + 6) = 6#8 then packet + 40 + TCP.sizeofTCPHeader
  else if frame.bytes (packet + 6) = 17#8 then packet + 40 + UDP.sizeofUDPHeader
  else packet + 40

/-- The source address lies in the frame, and the handler of the next header finds what it needs. -/
def Safe (openPorts : Half → Bool) (frame : Frame) (packet : Nat) : Prop :=
  packet + 24 ≤ frame.size ∧
    (frame.bytes (packet + 6) = 58#8 → ICMPv6.Safe frame (packet + 40) packet) ∧
    (frame.bytes (packet + 6) = 6#8 → TCP.Safe frame (packet + 40) (le16 frame.bytes (packet + 4)).toNat) ∧
    (frame.bytes (packet + 6) = 17#8 → UDP.Safe openPorts frame (packet + 40) (le16 frame.bytes (packet + 4)).toNat)

theorem receive_settled_iff (openPorts : Half → Bool) (frame : Frame) (packet : Nat) :
    Settled (receive openPorts frame packet) (frame.size < headersEnd frame packet)
      (ICMPv6.ExactEcho frame (packet + 40) packet) ↔ Safe openPorts frame packet := by
  by_cases addresses : packet + 24 ≤ frame.size
  · rw [receive, Frame.read_of_inside (Frame.inside_of_le (by omega)), Option.bind_eq_bind, Option.bind_some,
      Frame.read8_of_le (by omega), Option.bind_eq_bind, Option.bind_some, Safe, and_iff_right addresses]
    split
    · rename_i icmp
      rw [headersEnd, if_pos icmp, sizeofIPv6Header, ICMPv6.receive_settled_iff (Nat.le_refl _), icmp]
      simp
    split
    · rename_i _ tcp
      rw [headersEnd, tcp, Frame.read16_of_le (by omega)]
      simp only [sizeofIPv6Header]
      refine (TCP.receive_settled_iff (by omega) _ ICMPv6.exactEcho_of_ne).trans ?_
      simp
    split
    · rename_i _ _ udp
      rw [headersEnd, udp, Frame.read16_of_le (by omega)]
      simp only [sizeofIPv6Header]
      refine (UDP.receive_settled_iff (fun four => absurd four (by decide)) ICMPv6.exactEcho_of_ne).trans ?_
      simp
    · rename_i noICMP noTCP noUDP
      refine iff_of_true (settled_some.mpr ⟨trivial, fun _ => rfl⟩) ⟨?_, ?_, ?_⟩
      · exact fun same => absurd same noICMP
      · exact fun same => absurd same noTCP
      · exact fun same => absurd same noUDP
  · refine iff_of_false ?_ fun safe => addresses safe.1
    have outside : ¬frame.Inside (packet + 8) 16 := by
      rw [Frame.inside_iff (by decide)]
      omega
    rw [receive, Frame.read, if_neg outside]
    exact not_settled_none _ _

end IPv6

namespace Ethernet

/-- The end of the headers that the frame announces; a packet that `processIPPacket` drops
announces none. -/
def headersEnd (myIP : Word) (frame : Frame) : Nat :=
  match processEthernetIIFrame frame.bytes frame.size with
  | some (.ip, packet, size) =>
    match IP.processIPPacket false myIP (IP.after frame.bytes packet) size with
    | .handed .tcp offset _ => packet + offset + TCP.sizeofTCPHeader
    | .handed .udp offset _ => packet + offset + UDP.sizeofUDPHeader
    | _ => packet
  | some (.ipv6, packet, _) => IPv6.headersEnd frame packet
  | _ => sizeofEthernetIIHeader

/-- Every read is inside, an echo reply carries the payload of the request, and a frame that is too
short for the headers it announces is dropped. -/
def Right (openPorts : Half → Bool) (myIP : Word) (frame : Frame) : Prop :=
  Settled (receive openPorts myIP frame) (frame.size < headersEnd myIP frame) (ICMPv6.ExactEcho frame 54 14)

def Safe (openPorts : Half → Bool) (myIP : Word) (frame : Frame) : Prop :=
  match processEthernetIIFrame frame.bytes frame.size with
  | some (.ip, packet, size) =>
    match IP.processIPPacket false myIP (IP.after frame.bytes packet) size with
    | .handed .tcp offset length => TCP.Safe frame (packet + offset) length
    | .handed .udp offset length => UDP.Safe openPorts frame (packet + offset) length
    | _ => True
  | some (.ipv6, packet, _) => IPv6.Safe openPorts frame packet
  | _ => True

theorem ip_right_iff (openPorts : Half → Bool) (myIP : Word) (frame : Frame)
    (ip : processEthernetIIFrame frame.bytes frame.size = some (Handler.ip, 14, (frame.size : Int) - 14)) :
    Right openPorts myIP frame ↔ Safe openPorts myIP frame := by
  have contained := IP.processIPPacket_contained myIP (IP.after frame.bytes 14) (frame.size - 14)
  have dropped : Settled (some .dropped) (frame.size < 14) (ICMPv6.ExactEcho frame 54 14) :=
    settled_some.mpr ⟨trivial, fun _ => rfl⟩
  simp only [Right, Safe, receive, headersEnd, ip]
  generalize IP.processIPPacket false myIP (IP.after frame.bytes 14) (frame.size - 14) = verdict at contained
  cases contained with
  | dropped => exact iff_of_true dropped trivial
  | @handed handler length protocol header nonneg stop inside =>
    cases handler with
    | icmp => exact iff_of_true dropped trivial
    | tcp =>
      rw [IP.sizeofIPHeader] at header
      exact TCP.receive_settled_iff (by omega) length ICMPv6.exactEcho_of_ne
    | udp =>
      rw [IP.sizeofIPHeader] at header
      exact UDP.receive_settled_iff (fun _ => ⟨by omega, by omega⟩) ICMPv6.exactEcho_of_ne

/-- **The parsers stay inside the frame** exactly when what they take for granted is there. -/
theorem frame_right_iff (openPorts : Half → Bool) (myIP : Word) (frame : Frame) :
    Right openPorts myIP frame ↔ Safe openPorts myIP frame := by
  have dropped : Settled (some .dropped) (frame.size < 14) (ICMPv6.ExactEcho frame 54 14) :=
    settled_some.mpr ⟨trivial, fun _ => rfl⟩
  obtain unknown | ⟨handler, passed⟩ := processEthernetIIFrame_cases frame.bytes frame.size
  · simp only [Right, Safe, receive, headersEnd, unknown]
    exact iff_of_true dropped trivial
  · cases handler with
    | arp =>
      simp only [Right, Safe, receive, headersEnd, passed]
      exact iff_of_true dropped trivial
    | ip => exact ip_right_iff openPorts myIP frame passed
    | ipv6 =>
      simp only [Right, Safe, receive, headersEnd, passed]
      exact IPv6.receive_settled_iff openPorts frame 14

/-- A UDP datagram with eight bytes of payload. -/
def udpFrame : Frame where
  bytes i := if i = 12 then 0x08#8 else if i = 14 then 0x45#8 else if i = 17 then 36#8 else if i = 23 then 17#8
    else if i = 37 then 53#8 else if i = 39 then 16#8 else 0#8
  size := 50
  fits := by decide

/-- An echo request that is one byte shorter than its length says. -/
def echoFrame : Frame where
  bytes i := if i = 12 then 0x86#8 else if i = 13 then 0xDD#8 else if i = 19 then 9#8 else if i = 20 then 58#8
    else if i = 54 then 128#8 else 0#8
  size := 62
  fits := by decide

/-- The first fourteen bytes of a SYN. -/
def synFrame : Frame where
  bytes i := if i = 12 then 0x08#8 else if i = 14 then 0x45#8 else if i = 17 then 34#8 else if i = 23 then 6#8
    else if i = 47 then 2#8 else 0#8
  size := 48
  fits := by decide

/-- The copy of the datagram, 4096 bytes long, leaves the frame, and so does the reply's payload;
the beginning of a SYN is answered. -/
theorem frames_left : ¬Right (fun _ => true) 0#32 udpFrame ∧ ¬Right (fun _ => true) 0#32 echoFrame ∧
    ¬Right (fun _ => true) 0#32 synFrame := by
  have udp : receive (fun _ => true) 0#32 udpFrame = none := by decide
  have echo : receive (fun _ => true) 0#32 echoFrame = none := by decide
  have syn : receive (fun _ => true) 0#32 synFrame = some (.segment 0#32 0#32 0#16 0#16 18#16 1#32 10#32) := by decide
  refine ⟨?_, ?_, ?_⟩
  · rw [Right, udp]
    exact not_settled_none _ _
  · rw [Right, echo]
    exact not_settled_none _ _
  · rw [Right, syn, settled_some]
    exact fun settled => Answer.noConfusion (settled.2 (by decide))

end Ethernet
end FluxOS
