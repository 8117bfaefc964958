import FluxOS.Transport
import FluxOS.Buffers

/-! A bound UDP socket: datagrams that arrive are appended to its queue, `recvfrom` takes the first
one; and in which runs every call returns what the datagram carried. -/
namespace FluxOS.UDPSocket
open Words UserMemoryOps BlockDevice NetUtils Buffers

inductive Event where
  | arrives (packet : Frame)
  /-- A call with a queue that is not empty. -/
  | recvfrom (len : Word)

/-- The part of `recvfrom` after `takeFirst`: `header->length` is used as it is stored, and the
subtraction is unsigned. -/
def readDatagram (datagram : List Byte) (len : Word) : Option (List Byte) := do
  let low ← datagram[4]?
  let high ← datagram[5]?
  let length : Half := high ++ low
  let readData := min len.toNat (length.setWidth 32 - 8#32 : Word).toNat
  slice datagram UDP.sizeofUDPHeader readData

/-- An event's effect on the queue, with what a call returns; no result when a read leaves the
packet or the copy. -/
def step (port : Half) (datagrams : List (List Byte)) : Event → Option (List (List Byte) × Option (List Byte))
  | .arrives packet =>
    match UDP.receive (fun destport => decide (destport = port)) packet 0 packet.size 0 4 with
    | some (.stored _ datagram) => some (datagrams ++ [datagram], none)
    | some _ => some (datagrams, none)
    | none => none
  | .recvfrom len =>
    match datagrams with
    | [] => none
    | datagram :: rest => (readDatagram datagram len).map fun data => (rest, some data)

/-- What the calls of a run return, in order. -/
def run (port : Half) : List Event → List (List Byte) → Option (List (List Byte))
  | [], _ => some []
  | event :: events, datagrams => do
    let (datagrams, returned) ← step port datagrams event
    let later ← run port events datagrams
    pure (returned.toList ++ later)

/-! ## What a socket is for -/

/-- The length of a datagram, in the byte order of the machine. -/
def length (packet : Frame) : Nat := (ntohs (le16 packet.bytes 4)).toNat

def payload (packet : Frame) : List Byte := packet.range 8 (length packet - 8)

structure WellFormed (port : Half) (packet : Frame) : Prop where
  header : 8 ≤ length packet
  inside : length packet ≤ packet.size
  small : packet.size ≤ 65535
  bound : le16 packet.bytes 2 = port
  port_ne_zero : port ≠ 0#16

/-- Every call returns as much as it asks for of the payload that arrived first and was not returned
yet; there is no answer for a call with nothing to return. -/
def delivered : List Event → List Frame → Option (List (List Byte))
  | [], _ => some []
  | .arrives packet :: events, waiting => delivered events (waiting ++ [packet])
  | .recvfrom _ :: _, [] => none
  | .recvfrom len :: events, packet :: waiting =>
    (delivered events waiting).map ((payload packet).take len.toNat :: ·)

/-! ## When the code does it -/

/-- The length as it stands in the header. -/
def swapped (packet : Frame) : Nat := (le16 packet.bytes 4).toNat

/-- As many bytes as the swapped length lie in the packet; and a call finds in the copy its length, and
the same number of bytes to return by either length. -/
def Met : List Event → List Frame → Prop
  | [], _ => True
  | .arrives packet :: events, waiting => swapped packet ≤ packet.size ∧ Met events (waiting ++ [packet])
  | .recvfrom _ :: _, [] => True
  | .recvfrom len :: events, packet :: waiting =>
    6 ≤ swapped packet ∧
      (len = 0#32 ∨ 8 ≤ swapped packet ∧ min len.toNat (swapped packet - 8) = min len.toNat (length packet - 8)) ∧
      Met events waiting

/-- The copy of a packet. -/
def stored (packet : Frame) : List Byte := packet.range 0 (swapped packet)

section Packets

variable {port : Half} {packet : Frame}

theorem WellFormed.accepted (formed : WellFormed port packet) :
    ¬UDP.refuses (le16 packet.bytes 4) (le16 packet.bytes 2) packet.size := by
  have header := formed.header
  have inside := formed.inside
  have small := formed.small
  have port_ne_zero := formed.port_ne_zero
  rw [length] at header inside
  have size : (BitVec.ofInt 16 (packet.size : Int)).toNat = packet.size := by
    rw [BitVec.toNat_ofInt]
    omega
  rw [UDP.refuses, formed.bound, size, UDP.sizeofUDPHeader]
  rintro (short | short | long | zero)
  · omega
  · omega
  · omega
  · exact port_ne_zero zero

/-- What an arriving packet does. -/
theorem step_arrives (formed : WellFormed port packet) (datagrams : List (List Byte)) :
    step port datagrams (.arrives packet) =
      if swapped packet ≤ packet.size then some (datagrams ++ [stored packet], none) else none := by
  have header := formed.header
  have inside := formed.inside
  have destport : Frame.read16 packet (0 + 2) = some port := by
    rw [← formed.bound]
    exact Frame.read16_of_le (by omega)
  have len : Frame.read16 packet (0 + 4) = some (le16 packet.bytes 4) := Frame.read16_of_le (by omega)
  have accepted := formed.accepted
  rw [formed.bound] at accepted
  rw [step, UDP.receive, len, destport, Option.bind_eq_bind, Option.bind_some, Option.bind_eq_bind, Option.bind_some,
    if_neg accepted, if_pos (decide_eq_true rfl)]
  by_cases fits : swapped packet ≤ packet.size
  · rw [Frame.read_of_inside (Frame.inside_of_le (by rwa [Nat.zero_add])), if_pos fits]
    rfl
  · have some : (le16 packet.bytes 4).toNat ≠ 0 := fun zero => fits (zero.trans_le (Nat.zero_le _))
    have outside : ¬packet.Inside 0 (le16 packet.bytes 4).toNat := by
      rw [Frame.inside_iff some, Nat.zero_add]
      exact fits
    rw [Frame.read, if_neg outside, if_neg fits]
    rfl

/-- What a call makes of the copy. -/
theorem readDatagram_stored (packet : Frame) (len : Word) :
    readDatagram (stored packet) len =
      if 6 ≤ swapped packet ∧ (len = 0#32 ∨ 8 ≤ swapped packet) then
        some (packet.range 8 (min len.toNat (swapped packet - 8)))
      else none := by
  have small : swapped packet < 2 ^ 16 := (le16 packet.bytes 4).isLt
  rw [readDatagram, stored]
  by_cases header : 6 ≤ swapped packet
  · rw [Frame.getElem?_range _ _ _ (by omega : 4 < swapped packet), Frame.getElem?_range _ _ _ (by omega : 5 < swapped packet),
      Option.bind_eq_bind, Option.bind_some, Option.bind_some]
    have same : packet.bytes (0 + 5) ++ packet.bytes (0 + 4) = le16 packet.bytes 4 := by
      rw [le16, Nat.zero_add, Nat.zero_add]
    have value : ((le16 packet.bytes 4).setWidth 32 - 8#32 : Word).toNat = (2 ^ 32 - 8 + swapped packet) % 2 ^ 32 := by
      rw [BitVec.toNat_sub, BitVec.toNat_setWidth, ← swapped, Nat.mod_eq_of_lt (a := swapped packet) (by omega),
        BitVec.toNat_ofNat]
    have copied : Inside (packet.range 0 (swapped packet)) 8 (min len.toNat ((2 ^ 32 - 8 + swapped packet) % 2 ^ 32)) ↔
        len = 0#32 ∨ 8 ≤ swapped packet := by
      rw [← BitVec.toNat_inj, Inside, Frame.length_range, BitVec.toNat_zero]
      omega
    have taken : (((packet.range 0 (swapped packet)).drop 8).take (min len.toNat ((2 ^ 32 - 8 + swapped packet) % 2 ^ 32))) =
        packet.range 8 (min len.toNat (swapped packet - 8)) := by
      rw [Frame.drop_range, Frame.take_range, Nat.zero_add]
      congr 1
      omega
    simp only [same, value, UDP.sizeofUDPHeader, slice, copied, taken, header, true_and]
  · rw [if_neg fun found => header found.1, List.getElem?_eq_none (i := 5) (by rw [Frame.length_range]; omega)]
    cases (packet.range 0 (swapped packet))[4]? <;> rfl

theorem range_eq_take_iff (packet : Frame) (n len : Nat) :
    packet.range 8 n = (payload packet).take len ↔ n = min len (length packet - 8) := by
  rw [payload, Frame.take_range]
  constructor
  · intro same
    have lengths := congrArg List.length same
    rwa [Frame.length_range, Frame.length_range] at lengths
  · exact congrArg _

end Packets

section Runs

variable {port : Half} {events : List Event}

theorem run_arrives {packet : Frame} (formed : WellFormed port packet) (datagrams : List (List Byte)) :
    run port (.arrives packet :: events) datagrams =
      if swapped packet ≤ packet.size then run port events (datagrams ++ [stored packet]) else none := by
  rw [run, step_arrives formed]
  split
  · cases later : run port events (datagrams ++ [stored packet]) <;> simp [later]
  · rfl

theorem run_recvfrom (datagram : List Byte) (rest : List (List Byte)) (len : Word) :
    run port (.recvfrom len :: events) (datagram :: rest) =
      (readDatagram datagram len).bind fun data => (run port events rest).map (data :: ·) := by
  rw [run, step]
  cases readDatagram datagram len with
  | none => rfl
  | some data => cases later : run port events rest <;> simp [later]

private theorem map_cons_eq_some {data head : List Byte} {later : Option (List (List Byte))} {rest : List (List Byte)} :
    later.map (data :: ·) = some (head :: rest) ↔ data = head ∧ later = some rest := by
  cases later <;> simp

theorem run_eq_iff {results : List (List Byte)} (formed : ∀ packet, .arrives packet ∈ events → WellFormed port packet)
    {waiting : List Frame} (right : delivered events waiting = some results) :
    run port events (waiting.map stored) = some results ↔ Met events waiting := by
  induction events generalizing waiting results with
  | nil =>
    cases right
    exact iff_of_true rfl trivial
  | cons event events ih =>
    have later : ∀ packet, .arrives packet ∈ events → WellFormed port packet := fun packet mem => formed packet (.tail _ mem)
    cases event with
    | arrives packet =>
      rw [run_arrives (formed packet (.head _)), Met, ← ih later right, List.map_append]
      by_cases fits : swapped packet ≤ packet.size
      · rw [if_pos fits]
        exact (and_iff_right fits).symm
      · rw [if_neg fits]
        exact iff_of_false (Option.some_ne_none results).symm fun met => fits met.1
    | recvfrom len =>
      cases waiting with
      | nil => cases right
      | cons packet waiting =>
        obtain ⟨rest, returned, rfl⟩ := Option.map_eq_some_iff.mp right
        rw [List.map_cons, run_recvfrom, readDatagram_stored, Met, ← ih later returned]
        by_cases found : 6 ≤ swapped packet ∧ (len = 0#32 ∨ 8 ≤ swapped packet)
        · obtain ⟨header, copied⟩ := found
          have zero : len = 0#32 → min len.toNat (swapped packet - 8) = min len.toNat (length packet - 8) := by
            rintro rfl
            rw [BitVec.toNat_zero, Nat.zero_min, Nat.zero_min]
          rw [if_pos ⟨header, copied⟩, Option.bind_some, map_cons_eq_some, range_eq_take_iff, and_iff_right header]
          refine and_congr_left fun _ => ⟨fun same => copied.imp_right fun long => ⟨long, same⟩, ?_⟩
          rintro (none | ⟨-, same⟩)
          · exact zero none
          · exact same
        · rw [if_neg found]
          refine iff_of_false (Option.some_ne_none _).symm fun met => found ⟨met.1, ?_⟩
          exact met.2.1.imp_right And.left

/-- **UDP delivery**: the calls of a run return the payloads in the order of their arrival, each one
once and cut to what was asked for, exactly when the run meets the condition. -/
theorem delivery_iff {results : List (List Byte)} (formed : ∀ packet, .arrives packet ∈ events → WellFormed port packet)
    (right : delivered events [] = some results) : run port events [] = some results ↔ Met events [] :=
  run_eq_iff formed right

end Runs

/-- A datagram of 257 bytes: its length reads the same in either byte order. -/
def palindrome : Frame where
  bytes i := if i = 3 then 53#8 else if i = 4 ∨ i = 5 then 1#8 else 0#8
  size := 257
  fits := by decide

theorem palindrome_delivered :
    run 0x3500#16 [.arrives palindrome, .recvfrom 4#32] [] = some [[0#8, 0#8, 0#8, 0#8]] := by
  have formed : ∀ packet, .arrives packet ∈ [.arrives palindrome, Event.recvfrom 4#32] → WellFormed 0x3500#16 packet := by
    intro packet mem
    obtain rfl : packet = palindrome := by simpa using mem
    exact ⟨by decide, by decide, by decide, by decide, by decide⟩
  have met : Met [.arrives palindrome, .recvfrom 4#32] [] :=
    ⟨by decide, by decide, .inr ⟨by decide, by decide⟩, trivial⟩
  exact (delivery_iff formed (by decide)).mpr met

/-- A datagram with one byte of payload. -/
def letter : Frame where
  bytes i := if i = 3 then 53#8 else if i = 5 then 9#8 else if i = 8 then 0x61#8 else 0#8
  size := 9
  fits := by decide

/-- Its copy is 2304 bytes long, 2295 of them behind the packet. -/
theorem letter_overrun : WellFormed 0x3500#16 letter ∧
    delivered [.arrives letter, .recvfrom 4#32] [] = some [[0x61#8]] ∧
    run 0x3500#16 [.arrives letter, .recvfrom 4#32] [] = none :=
  ⟨⟨by decide, by decide, by decide, by decide, by decide⟩, by decide, by decide⟩

end FluxOS.UDPSocket
