import FluxOS.AnswerChains
import FluxOS.Transport

/-! Two hosts that answer each other's ICMP and TCP packets: which packets may be injected without
an exchange that never ends. -/
namespace FluxOS
open Words UserMemoryOps BlockDevice NetUtils AnswerChains

/-- The payload of an IPv4 packet that reaches a handler: an ICMP message in full, or the fields of a
TCP header that are read, with the size of the segment. -/
inductive Body where
  | icmp (message : List Byte)
  | tcp (header : TCP.TCPHeader) (size : Int)
  deriving DecidableEq

structure Packet where
  saddr : Word
  daddr : Word
  body : Body
  deriving DecidableEq

namespace ICMP

def icmpHeaderAdditionalSize (type : Byte) : Nat := if type = 3#8 then 4 else 0

/-- The message of `sendICMPReply`. -/
def reply (data : List Byte) (type code : Byte) : List Byte :=
  let additional : List Byte := List.replicate (icmpHeaderAdditionalSize type) 0#8
  let unsigned := type :: code :: 0#8 :: 0#8 :: (additional ++ data)
  let sum := checksum (fun i => unsigned.getD i 0#8) unsigned.length
  type :: code :: sum.setWidth 8 :: (sum >>> 8).setWidth 8 :: (additional ++ data)

def sendICMPReply (data : List Byte) (srcIP destIP : Word) (type code : Byte) : Packet :=
  ⟨srcIP, destIP, .icmp (reply data type code)⟩

/-- `processICMPPacket`; an empty message is too short whatever is read as its type. The case of an echo
reply falls through to that of a request. -/
def processICMPPacket (myIP : Word) (message : List Byte) (saddr daddr : Word) : Option Packet :=
  let type := message.headD 0#8
  if message.length < 4 + icmpHeaderAdditionalSize type then none
  else if type = 0#8 ∨ type = 8#8 then
    if daddr = myIP then some (sendICMPReply (message.drop 4) daddr saddr 0#8 0#8) else none
  else none

end ICMP

namespace TCP

/-- `htonl`, the inverse of `ntohl`. -/
def htonl (value : Word) : Word := ntohl value

/-- `sendTCPPacket` without a payload: the header has its five words, and the segment ends with it. -/
def sendTCPPacket (srcIP destIP : Word) (srcPort destPort flags : Half) (acknumber seqnumber : Word) : Packet :=
  ⟨srcIP, destIP, .tcp ⟨srcPort, destPort, htonl seqnumber, htonl acknumber, htons (0x5000#16 ||| flags)⟩ sizeofTCPHeader⟩

end TCP

/-- The packet that a host sends for a packet that its IP layer hands on. -/
def Packet.processed (myIP : Word) (packet : Packet) : Option Packet :=
  match packet.body with
  | .icmp message => ICMP.processICMPPacket myIP message packet.saddr packet.daddr
  | .tcp header size =>
    match TCP.processTCPPacket header size packet.saddr packet.daddr with
    | .segment srcIP destIP srcPort destPort flags acknumber seqnumber =>
      some (TCP.sendTCPPacket srcIP destIP srcPort destPort flags acknumber seqnumber)
    | _ => none

theorem Packet.processed_icmp (myIP saddr daddr : Word) (message : List Byte) :
    processed myIP ⟨saddr, daddr, .icmp message⟩ = ICMP.processICMPPacket myIP message saddr daddr := rfl

section Hosts

variable (first second : Word)

/-- The network delivers a packet to the host that has its address; other packets leave it. -/
def exchanged (packet : Packet) : Option Packet :=
  if packet.daddr = first ∨ packet.daddr = second then packet.processed packet.daddr else none

/-- The packet asks for an answer that asks for an answer. -/
def Body.Asks : Body → Prop
  | .icmp message => 4 ≤ message.length ∧ (message.headD 0#8 = 0#8 ∨ message.headD 0#8 = 8#8)
  | .tcp header _ => TCP.has (ntohs header.flags) TCP.flagSYN = true ∨ TCP.has (ntohs header.flags) TCP.flagFIN = true

/-- A packet from one of the hosts to one of them that asks. -/
structure Endless (packet : Packet) : Prop where
  source : packet.saddr = first ∨ packet.saddr = second
  destination : packet.daddr = first ∨ packet.daddr = second
  asks : packet.body.Asks

end Hosts

namespace ICMP

theorem processICMPPacket_asks {message : List Byte} (asks : (Body.icmp message).Asks) (saddr daddr : Word) :
    processICMPPacket daddr message saddr daddr = some (sendICMPReply (message.drop 4) daddr saddr 0#8 0#8) := by
  obtain ⟨long, type⟩ := asks
  have additional : icmpHeaderAdditionalSize (message.headD 0#8) = 0 := by
    obtain reply | request := type
    · rw [reply]
      rfl
    · rw [request]
      rfl
  rw [processICMPPacket, additional, if_neg (by omega), if_pos type, if_pos rfl]

theorem processICMPPacket_eq_none {message : List Byte} (quiet : ¬(Body.icmp message).Asks) (saddr daddr : Word) :
    processICMPPacket daddr message saddr daddr = none := by
  simp only [processICMPPacket]
  split
  · rfl
  · rename_i long
    exact if_neg fun type => quiet ⟨by omega, type⟩

theorem reply_asks (data : List Byte) : (Body.icmp (reply data 0#8 0#8)).Asks :=
  ⟨by simp [reply], .inl rfl⟩

end ICMP

namespace TCP

variable {header : TCPHeader} {size : Int}

theorem processTCPPacket_acknowledgement (flags : header.flags = htons (0x5000#16 ||| flagACK)) (saddr daddr : Word) :
    processTCPPacket header sizeofTCPHeader saddr daddr = .dropped := by
  rw [processTCPPacket_eq_dropped, flags]
  simp only [Quiet, ntohs_htons]
  decide

/-- A SYN is answered with a SYN, a FIN with a FIN. -/
theorem processed_asks (asks : (Body.tcp header size).Asks) (saddr daddr : Word) :
    ∃ reply, Packet.processed daddr ⟨saddr, daddr, .tcp header size⟩ = some reply ∧
      reply.saddr = daddr ∧ reply.daddr = saddr ∧ reply.body.Asks := by
  by_cases syn : has (ntohs header.flags) flagSYN = true
  · refine ⟨sendTCPPacket daddr saddr header.destport header.sourceport (flagSYN ||| flagACK)
      (ntohl header.seqnumber + 1#32) 10#32, ?_, rfl, rfl, .inl ?_⟩
    · simp only [Packet.processed, processTCPPacket, syn, if_true]
    · simp only [ntohs_htons]
      decide
  · have fin := asks.resolve_left syn
    refine ⟨sendTCPPacket daddr saddr header.destport header.sourceport (flagACK ||| flagFIN)
      (ntohl header.seqnumber + 1#32) (ntohl header.acknumber), ?_, rfl, rfl, .inr ?_⟩
    · simp only [Packet.processed, processTCPPacket, syn, fin, if_true]
      rfl
    · simp only [ntohs_htons]
      decide

/-- Without them there is no answer, or a pure acknowledgement, which has none. -/
theorem processed_quiet (quiet : ¬(Body.tcp header size).Asks) (saddr daddr : Word) :
    Packet.processed daddr ⟨saddr, daddr, .tcp header size⟩ = none ∨
      ∃ reply, Packet.processed daddr ⟨saddr, daddr, .tcp header size⟩ = some reply ∧ reply.daddr = saddr ∧
        ¬reply.body.Asks ∧ ∀ myIP, reply.processed myIP = none := by
  obtain ⟨syn, fin⟩ := not_or.mp quiet
  by_cases ack : has (ntohs header.flags) flagACK ∧ size - (ntohs header.flags).toNat / 4096 * 4 ≠ 0
  · refine .inr ⟨sendTCPPacket daddr saddr header.destport header.sourceport flagACK
      (ntohl header.seqnumber + BitVec.ofInt 32 (size - (ntohs header.flags).toNat / 4096 * 4)) (ntohl header.acknumber),
      ?_, rfl, ?_, fun myIP => ?_⟩
    · simp only [Packet.processed, processTCPPacket]
      rw [if_neg syn, if_neg fin, if_pos ack]
    · simp only [sendTCPPacket, Body.Asks, ntohs_htons]
      decide
    · simp only [Packet.processed, sendTCPPacket]
      rw [processTCPPacket_acknowledgement rfl]
  · left
    simp only [Packet.processed, processTCPPacket]
    rw [if_neg syn, if_neg fin, if_neg ack]

end TCP

/-- An answer goes back to the source. -/
theorem Packet.processed_daddr {myIP : Word} {packet reply : Packet} (answered : packet.processed myIP = some reply) :
    reply.daddr = packet.saddr := by
  obtain ⟨saddr, daddr, body⟩ := packet
  cases body with
  | icmp message =>
    simp only [processed, ICMP.processICMPPacket] at answered
    split_ifs at answered
    cases answered
    rfl
  | tcp header size =>
    simp only [processed, TCP.processTCPPacket] at answered
    split_ifs at answered <;> cases answered <;> rfl

section Storms

variable {first second : Word} {packet reply : Packet}

theorem Endless.answered (endless : Endless first second packet) :
    ∃ reply, exchanged first second packet = some reply ∧ Endless first second reply := by
  obtain ⟨source, destination, asks⟩ := endless
  obtain ⟨saddr, daddr, body⟩ := packet
  rw [exchanged, if_pos destination]
  cases body with
  | icmp message =>
    exact ⟨_, ICMP.processICMPPacket_asks asks saddr daddr, destination, source, ICMP.reply_asks _⟩
  | tcp header size =>
    obtain ⟨reply, answered, from_, to_, again⟩ := TCP.processed_asks asks saddr daddr
    exact ⟨reply, answered, from_ ▸ destination, to_ ▸ source, again⟩

/-- Every other packet is answered once at most. -/
theorem answered_once (ends : ¬Endless first second packet) (answered : exchanged first second packet = some reply) :
    ¬Endless first second reply ∧ exchanged first second reply = none := by
  obtain ⟨saddr, daddr, body⟩ := packet
  unfold exchanged at answered
  split at answered
  · rename_i destination
    by_cases source : saddr = first ∨ saddr = second
    · have quiet : ¬body.Asks := fun asks => ends ⟨source, destination, asks⟩
      cases body with
      | icmp message =>
        rw [Packet.processed_icmp, ICMP.processICMPPacket_eq_none quiet] at answered
        cases answered
      | tcp header size =>
        obtain none | ⟨last, same, -, silent, none⟩ := TCP.processed_quiet quiet saddr daddr
        · rw [none] at answered
          cases answered
        · rw [same] at answered
          cases answered
          refine ⟨fun endless => silent endless.asks, ?_⟩
          rw [exchanged]
          split
          · exact none _
          · rfl
    · have away : ¬(reply.daddr = first ∨ reply.daddr = second) := by
        rw [Packet.processed_daddr answered]
        exact source
      exact ⟨fun endless => away endless.destination, if_neg away⟩
  · cases answered

/-- **No packet storm** from exactly the packets that do not ask, or that come from another address. -/
theorem storm_free_iff {injected : Multiset Packet}
    (addressed : ∀ packet ∈ injected, packet.daddr = first ∨ packet.daddr = second) :
    Bounded (exchanged first second) injected ↔
      ∀ packet ∈ injected, packet.saddr = first ∨ packet.saddr = second → ¬packet.body.Asks := by
  constructor
  · intro bounded packet mem source asks
    exact not_bounded_of_closed (Endless first second) (fun _ endless => endless.answered) mem ⟨source, addressed packet mem, asks⟩ bounded
  · intro quiet
    refine bounded_of_rank (fun packet => ¬Endless first second packet)
      (fun packet => if exchanged first second packet = none then 0 else 1) ?_ ?_
    · exact fun packet mem endless => quiet packet mem endless.source endless.asks
    · intro packet reply ends answered
      obtain ⟨still, none⟩ := answered_once ends answered
      refine ⟨still, ?_⟩
      rw [if_pos none, answered]
      simp

end Storms

/-- An echo request from elsewhere and an acknowledgement with a payload between the hosts. -/
theorem ping_and_data_end : Bounded (exchanged 1#32 2#32)
    {⟨9#32, 1#32, .icmp [8#8, 0#8, 0#8, 0#8]⟩, ⟨1#32, 2#32, .tcp ⟨80#16, 99#16, 0#32, 0#32, 0x1050#16⟩ 21⟩} := by
  refine (storm_free_iff ?_).mpr ?_
  · simp
  · simp only [Multiset.insert_eq_cons, Multiset.mem_cons, Multiset.mem_singleton]
    rintro packet (rfl | rfl) source
    · exact absurd source (by decide)
    · rintro (syn | fin)
      · exact absurd syn (by decide)
      · exact absurd fin (by decide)

/-- One echo request, and one SYN, with the address of the other host. -/
theorem ping_and_syn_storm : ¬Bounded (exchanged 1#32 2#32) {⟨2#32, 1#32, .icmp [8#8, 0#8, 0#8, 0#8]⟩} ∧
    ¬Bounded (exchanged 1#32 2#32) {⟨2#32, 1#32, .tcp ⟨99#16, 80#16, 0#32, 0#32, 0x0250#16⟩ 20⟩} := by
  have storm {packet : Packet} (endless : Endless 1#32 2#32 packet) : ¬Bounded (exchanged 1#32 2#32) {packet} :=
    not_bounded_of_closed (Endless 1#32 2#32) (fun _ again => again.answered) (Multiset.mem_singleton_self packet) endless
  refine ⟨storm ⟨.inr rfl, .inl rfl, ?_⟩, storm ⟨.inr rfl, .inl rfl, ?_⟩⟩
  · exact ⟨by decide, .inr rfl⟩
  · exact .inl (by decide)

end FluxOS
