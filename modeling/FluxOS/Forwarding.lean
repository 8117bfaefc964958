import FluxOS.InternetChecksum
import FluxOS.PacketStorm

/-! `IP::forwardPacket`: the routes, what is sent for a packet that is addressed to another host, and when that is what
a router should send. -/
namespace FluxOS.IP
open Words UserMemoryOps BlockDevice NetUtils OnesComplement

/-- A `macaddr`, its first byte the lowest one. -/
abbrev MacAddr := BitVec 48

/-- `macCache.value` is zero for an address that is not there. -/
structure NetIface where
  myIP : Word
  macCache : Word → MacAddr

structure Route where
  dest : Word
  mask : Word
  gateway : Word
  iface : NetIface

/-- What the interfaces are given: a request for the address of a host, or the bytes of an IPv4 packet. -/
inductive Sent where
  | arpRequest (iface : NetIface) (targetIP : Word)
  | packet (iface : NetIface) (destMAC : MacAddr) (bytes : Block) (size : Nat)

/-- The routes, and what a new block of memory holds. -/
structure Routing where
  routes : List Route
  defaultRoute : Option Route
  fresh : Block

/-- `route(destIP)`. -/
def Routing.route (net : Routing) (destIP : Word) : Option Route :=
  (net.routes.find? fun rt => destIP &&& rt.mask = rt.dest).or net.defaultRoute

/-- `targetIP`, the host that a packet is handed to next. -/
def Route.target (rt : Route) (destIP : Word) : Word := if rt.gateway ≠ 0#32 then rt.gateway else destIP

def Route.macAddr (rt : Route) (destIP : Word) : MacAddr := rt.iface.macCache (rt.target destIP)

/-- One of the first four bytes is not zero. -/
def Route.Known (rt : Route) (destIP : Word) : Prop := (rt.macAddr destIP).setWidth 32 ≠ 0#32

instance (rt : Route) (destIP : Word) : Decidable (rt.Known destIP) := inferInstanceAs (Decidable (_ ≠ _))

/-- `route(destIP, &destIf, &destMac)`: what it sends, and what it stores where it returns true. -/
def routeTo (net : Routing) (destIP : Word) : Option (List Sent × NetIface × MacAddr) :=
  (net.route destIP).map fun rt =>
    (if rt.Known destIP then [] else [.arpRequest rt.iface (rt.target destIP)], rt.iface, rt.macAddr destIP)

/-- `IP::sendTo`, with the buffer from the header on. -/
def sendTo (net : Routing) (buf : Block) (size : Nat) (srcIP destIP : Word) (protocol : Byte) : List Sent :=
  match routeTo net destIP with
  | none => []
  | some (asked, iface, macAddr) =>
    let srcIP := if srcIP = 0#32 then iface.myIP else srcIP
    asked ++ [.packet iface macAddr
      (buildIPHeader buf srcIP destIP protocol (BitVec.ofNat 16 (sizeofIPHeader + size))) (sizeofIPHeader + size)]

/-- `ICMP::sendICMPReply`. Without a route `allocPacketFor` returns a null pointer and leaves the offset undefined. -/
def sendICMPReply (net : Routing) (data : List Byte) (srcIP destIP : Word) (type code : Byte) : Option (List Sent) := do
  let (asked, _, _) ← routeTo net destIP
  let message := ICMP.reply data type code
  let newPacket := joined net.fresh sizeofIPHeader fun i => message.getD i 0#8
  return asked ++ sendTo net newPacket message.length srcIP destIP 1#8

/-- `header->ttl`. -/
def ttl (packet : Block) : Byte := packet 8

/-- `header->saddr`. -/
def saddr (packet : Block) : Word := le32 packet 12

/-- `header->daddr`. -/
def daddr (packet : Block) : Word := le32 packet 16

/-- The `tot_len` bytes of a packet. -/
def contents (packet : Block) : List Byte := (List.range (totalLen packet)).map packet

/-- `ttl--` and `check = 0`. -/
def lowered (header : Block) : Block := store16 (store8 header 8 (ttl header - 1#8)) 10 0#16

/-- `forwardPacket`. Where there is no route, the interface that is used for the answer is undefined. -/
def forwardPacket (net : Routing) (packet : Block) : Option (List Sent) :=
  match routeTo net (daddr packet) with
  | none => none
  | some (asked, iface, macAddr) =>
    let newPacket := joined packet (totalLen packet) net.fresh
    if 1 < (ttl newPacket).toNat then
      let newPacket := lowered newPacket
      some (asked ++
        [.packet iface macAddr (store16 newPacket 10 (checksum newPacket sizeofIPHeader)) (totalLen packet)])
    else (sendICMPReply net (contents packet) iface.myIP (saddr packet) 11#8 0#8).map (asked ++ ·)

/-! ## What a router should send -/

/-- The packet with its lifetime lowered, and a checksum over the whole header. -/
structure Lowered (packet bytes : Block) : Prop where
  lifetime : ttl bytes = ttl packet - 1#8
  others : ∀ i < totalLen packet, i ≠ 8 → i ≠ 10 → i ≠ 11 → bytes i = packet i
  verifies : sumAround 0x10000 (digits bytes (headerLen packet)) = 0xFFFF

/-- An ICMP message of the type and code to a host. -/
structure Reply (destIP : Word) (type code : Byte) (bytes : Block) : Prop where
  protocol : bytes 9 = 1#8
  destination : daddr bytes = destIP
  type : bytes 20 = type
  code : bytes 21 = code

/-- One packet is sent and nothing else: the lowered one by the interface of its route, or else a message to the
sender. -/
def Answered (net : Routing) (packet : Block) : Prop :=
  ∃ iface macAddr bytes size, forwardPacket net packet = some [.packet iface macAddr bytes size] ∧
    match net.route (daddr packet) with
    | some rt =>
      if 1 < (ttl packet).toNat then
        iface = rt.iface ∧ macAddr = rt.macAddr (daddr packet) ∧ size = totalLen packet ∧ Lowered packet bytes
      else Reply (saddr packet) 11#8 0#8 bytes
    | none => Reply (saddr packet) 3#8 0#8 bytes

/-- There is a route to the host, by a neighbour whose address is known. -/
def Reachable (net : Routing) (destIP : Word) : Prop := ∃ rt, net.route destIP = some rt ∧ rt.Known destIP

/-- The sum of the words behind the first twenty bytes of the header. -/
def optionsSum (packet : Block) : Nat := (digits (after packet sizeofIPHeader) (headerLen packet - sizeofIPHeader)).sum

/-- The options add nothing to the checksum over the first twenty bytes, nor what its fold loses. -/
def Balanced (packet : Block) : Prop :=
  (optionsSum packet + if FoldsOnce (lowered packet) sizeofIPHeader then 0 else 1) % 0xFFFF = 0

instance (packet : Block) : Decidable (Balanced packet) := inferInstanceAs (Decidable (_ = _))

/-- The destination is reachable; the checksum of a packet with some lifetime left is that of its whole header; and the
sender of another one is reachable. -/
structure Forwardable (net : Routing) (packet : Block) : Prop where
  destination : Reachable net (daddr packet)
  balanced : 1 < (ttl packet).toNat → Balanced packet
  sender : ¬1 < (ttl packet).toNat → Reachable net (saddr packet)

/-! ## The checksum of the lowered header -/

section Checksum

variable {packet : Block}

theorem digits_congr {data other : Block} {size : Nat} (same : ∀ i < size, data i = other i) :
    digits data size = digits other size := by
  refine List.map_congr_left fun i among => ?_
  have inside := List.mem_range.mp among
  rw [same (2 * i) (by omega)]
  split
  · rw [same (2 * i + 1) ‹_›]
  · rfl

/-- The words of a header, and those behind it. -/
theorem digits_after {data : Block} {first size : Nat} (even : first % 2 = 0) (inside : first ≤ size) :
    digits data size = digits data first ++ digits (after data first) (size - first) := by
  have split : joined data first (after data first) = data := by
    funext i
    rw [joined]
    split
    · rfl
    · rw [after]
      congr 1
      omega
  have whole := @digits_joined (after data first) data (size - first) first even
  rwa [split, Nat.add_sub_cancel' inside] at whole

theorem lowered_check (header : Block) : lowered header 10 = 0#8 ∧ lowered header 11 = 0#8 := by
  simp [lowered, store16, store8]

theorem lowered_ttl (header : Block) : lowered header 8 = ttl header - 1#8 := by
  simp [lowered, store16, store8]

theorem lowered_others (header : Block) {i : Nat} (lifetime : i ≠ 8) (low : i ≠ 10) (high : i ≠ 11) :
    lowered header i = header i := by
  rw [lowered, store16, store8, store8, store8, Function.update_of_ne high, Function.update_of_ne low,
    Function.update_of_ne lifetime]

/-- A lowered copy is a copy of what has been lowered. -/
theorem lowered_copy (packet fresh : Block) {size i : Nat} (inside : i < size) (lifetime : 8 < size) :
    lowered (joined packet size fresh) i = lowered packet i := by
  have same (k : Nat) (inside : k < size) : joined packet size fresh k = packet k := if_pos inside
  by_cases first : i = 8
  · rw [first, lowered_ttl, lowered_ttl, ttl, same 8 lifetime, ttl]
  by_cases low : i = 10
  · rw [low, (lowered_check _).1, (lowered_check _).1]
  by_cases high : i = 11
  · rw [high, (lowered_check _).2, (lowered_check _).2]
  · rw [lowered_others _ first low high, lowered_others _ first low high, same i inside]

/-- What `processIPPacket` has seen of a packet that it passes to `forwardPacket`. -/
theorem of_forwarded {enabled : Bool} {myIP : Word} {size : Int}
    (accepted : processIPPacket enabled myIP packet size = .forwarded) :
    version packet = 4 ∧ sizeofIPHeader ≤ headerLen packet ∧ headerLen packet ≤ totalLen packet := by
  rw [processIPPacket] at accepted
  split at accepted
  · cases accepted
  split at accepted
  · cases accepted
  split at accepted
  · cases accepted
  split at accepted
  · cases accepted
  split at accepted
  · cases accepted
  · rename_i version header _ inside
    exact ⟨not_not.mp version, Nat.not_lt.mp header, Nat.not_lt.mp inside⟩

/-- A total with the complement of the fold of its first part. -/
theorem complement_balances_iff {first rest : Nat} (bound : first ≤ 10 * 0xFFFF) :
    (first + rest + (0xFFFF - fold 0x10000 first % 0x10000)) % (0x10000 - 1) = 0 ↔
      (rest + if fold 0x10000 first < 0x10000 then 0 else 1) % 0xFFFF = 0 := by
  have split := Nat.div_add_mod first 0x10000
  rw [fold]
  obtain once | carries := Nat.lt_or_ge (first % 0x10000 + first / 0x10000) 0x10000
  · rw [if_pos once, Nat.mod_eq_of_lt once]
    omega
  · rw [if_neg (Nat.not_lt.mpr carries), Nat.mod_eq_sub_mod carries, Nat.mod_eq_of_lt (a := _ - _) (by omega)]
    omega

/-- The checksum over the first twenty bytes is that of the whole header exactly for balanced options. -/
theorem lowered_verifies_iff (version : version packet = 4) (header : sizeofIPHeader ≤ headerLen packet)
    (inside : headerLen packet ≤ totalLen packet) (fresh : Block) :
    sumAround 0x10000 (digits (store16 (lowered (joined packet (totalLen packet) fresh)) 10
      (checksum (lowered (joined packet (totalLen packet) fresh)) sizeofIPHeader)) (headerLen packet)) = 0xFFFF ↔
      Balanced packet := by
  have small : sizeofIPHeader = 20 := rfl
  set copy := lowered (joined packet (totalLen packet) fresh) with made
  have copied (i : Nat) (within : i < totalLen packet) : copy i = lowered packet i :=
    lowered_copy packet fresh within (by omega)
  have front : digits copy sizeofIPHeader = digits (lowered packet) sizeofIPHeader :=
    digits_congr fun i within => copied i (by omega)
  have back : digits (after copy sizeofIPHeader) (headerLen packet - sizeofIPHeader) =
      digits (after packet sizeofIPHeader) (headerLen packet - sizeofIPHeader) := by
    refine digits_congr fun i within => ?_
    rw [after, after, copied _ (by omega), lowered_others _ (by omega) (by omega) (by omega)]
  have bound := sum_digits_le (lowered packet) sizeofIPHeader
  have check : (ntohs (checksum copy sizeofIPHeader)).toNat =
      0xFFFF - fold 0x10000 (digits (lowered packet) sizeofIPHeader).sum % 0x10000 := by
    rw [toNat_checksum, front]
    rw [front]
    omega
  have total : (digits (store16 copy 10 (checksum copy sizeofIPHeader)) (headerLen packet)).sum =
      (digits (lowered packet) sizeofIPHeader).sum + optionsSum packet +
        (0xFFFF - fold 0x10000 (digits (lowered packet) sizeofIPHeader).sum % 0x10000) := by
    rw [sum_digits_store16 (k := 5) (by omega) (lowered_check _).1 (lowered_check _).2, check,
      digits_after (show sizeofIPHeader % 2 = 0 from rfl) header, List.sum_append, front, back, optionsSum]
  have some : (digits (lowered packet) sizeofIPHeader).sum ≠ 0 := by
    intro zero
    have word := List.sum_eq_zero_iff_forall_eq_nat.mp zero _
      (List.mem_map_of_mem (List.mem_range.mpr (by decide : 0 < (sizeofIPHeader + 1) / 2)))
    rw [Nat.mul_zero, lowered_others _ (by decide) (by decide) (by decide)] at word
    rw [IP.version] at version
    omega
  have positive : (digits (store16 copy 10 (checksum copy sizeofIPHeader)) (headerLen packet)).sum ≠ 0 := by
    rw [total]
    omega
  rw [sumAround_eq_ones (by decide) (digits_small _ _) positive, total,
    complement_balances_iff (Nat.le_trans bound (by decide))]
  rfl

end Checksum

/-! ## What is sent -/

section Sending

variable {net : Routing} {packet : Block} {destIP : Word} {rt : Route}

/-- What `route` sends on the way to a host. -/
def asked (rt : Route) (destIP : Word) : List Sent :=
  if rt.Known destIP then [] else [.arpRequest rt.iface (rt.target destIP)]

theorem routeTo_some (routed : net.route destIP = some rt) :
    routeTo net destIP = some (asked rt destIP, rt.iface, rt.macAddr destIP) := by
  rw [routeTo, routed]
  rfl

theorem routeTo_none (unrouted : net.route destIP = none) : routeTo net destIP = none := by
  rw [routeTo, unrouted]
  rfl

theorem asked_length : (asked rt destIP).length = 0 ↔ rt.Known destIP := by
  rw [asked]
  split
  · exact iff_of_true rfl ‹_›
  · exact iff_of_false (Nat.succ_ne_zero 0) ‹_›

theorem asked_known (known : rt.Known destIP) : asked rt destIP = [] := if_pos known

theorem reachable_of_routed (routed : net.route destIP = some rt) : Reachable net destIP ↔ rt.Known destIP := by
  constructor
  · rintro ⟨rt', routed', known⟩
    cases routed.symm.trans routed'
    exact known
  · exact fun known => ⟨rt, routed, known⟩

section Header

variable (buffer : Block) (sourceIP destinationIP : Word) (protocol : Byte) (dataLen : Half)

theorem buildIPHeader_protocol : buildIPHeader buffer sourceIP destinationIP protocol dataLen 9 = protocol := by
  simp [buildIPHeader, newIPHeader, store32, store16, store8]

theorem buildIPHeader_daddr : daddr (buildIPHeader buffer sourceIP destinationIP protocol dataLen) = destinationIP := by
  have kept := le32_congr (newIPHeader buffer sourceIP destinationIP protocol dataLen) fun i (_ : i < 4) =>
    show buildIPHeader buffer sourceIP destinationIP protocol dataLen (16 + i) = _ from
      store16_other (by omega) (by omega) _
  exact kept.trans (le32_store32 destinationIP)

theorem buildIPHeader_behind {i : Nat} (behind : 20 ≤ i) :
    buildIPHeader buffer sourceIP destinationIP protocol dataLen i = buffer i := by
  have other (k : Nat) (inside : k < 20) : i ≠ k := by omega
  simp [buildIPHeader, newIPHeader, store32, store16, store8, Function.update, other]

end Header

/-- What `sendICMPReply` sends where there is a route: the route is asked for twice. -/
theorem sendICMPReply_some (routed : net.route destIP = some rt) (data : List Byte) (srcIP : Word) (type code : Byte) :
    ∃ bytes size, sendICMPReply net data srcIP destIP type code = some (asked rt destIP ++
      (asked rt destIP ++ [.packet rt.iface (rt.macAddr destIP) bytes size])) ∧ Reply destIP type code bytes := by
  simp only [sendICMPReply, sendTo, routeTo_some routed, Option.bind_eq_bind, Option.bind_some]
  refine ⟨_, _, rfl, buildIPHeader_protocol .., buildIPHeader_daddr .., ?_, ?_⟩
  · rw [buildIPHeader_behind _ _ _ _ _ (Nat.le_refl 20)]
    rfl
  · rw [buildIPHeader_behind _ _ _ _ _ (by decide)]
    rfl

theorem sendICMPReply_none (unrouted : net.route destIP = none) (data : List Byte) (srcIP : Word) (type code : Byte) :
    sendICMPReply net data srcIP destIP type code = none := by
  rw [sendICMPReply, routeTo_none unrouted]
  rfl

theorem forwardPacket_none (unrouted : net.route (daddr packet) = none) : forwardPacket net packet = none := by
  rw [forwardPacket, routeTo_none unrouted]

/-- The copy that is sent. -/
def copied (net : Routing) (packet : Block) : Block :=
  store16 (lowered (joined packet (totalLen packet) net.fresh)) 10
    (checksum (lowered (joined packet (totalLen packet) net.fresh)) sizeofIPHeader)

theorem forwardPacket_lives (routed : net.route (daddr packet) = some rt) (long : 8 < totalLen packet)
    (lives : 1 < (ttl packet).toNat) : forwardPacket net packet = some (asked rt (daddr packet) ++
      [.packet rt.iface (rt.macAddr (daddr packet)) (copied net packet) (totalLen packet)]) := by
  have same : ttl (joined packet (totalLen packet) net.fresh) = ttl packet := if_pos long
  simp only [forwardPacket, routeTo_some routed, same, if_pos lives]
  rfl

theorem forwardPacket_expires (routed : net.route (daddr packet) = some rt) (long : 8 < totalLen packet)
    (expires : ¬1 < (ttl packet).toNat) : forwardPacket net packet =
      (sendICMPReply net (contents packet) rt.iface.myIP (saddr packet) 11#8 0#8).map
        (asked rt (daddr packet) ++ ·) := by
  have same : ttl (joined packet (totalLen packet) net.fresh) = ttl packet := if_pos long
  simp only [forwardPacket, routeTo_some routed, same, if_neg expires]

/-- What is in front of the only thing that is sent is nothing. -/
theorem front_nil {front : List Sent} {last only : Sent} (same : front ++ [last] = [only]) :
    front.length = 0 ∧ last = only := by
  have length := congrArg List.length same
  rw [List.length_append, List.length_singleton, List.length_singleton] at length
  have none : front = [] := List.eq_nil_of_length_eq_zero (by omega)
  subst none
  exact ⟨rfl, (List.cons.inj same).1⟩

/-- The copy is the lowered packet as far as its checksum is right. -/
theorem copied_lowered_iff (version : version packet = 4) (header : sizeofIPHeader ≤ headerLen packet)
    (inside : headerLen packet ≤ totalLen packet) : Lowered packet (copied net packet) ↔ Balanced packet := by
  have small : sizeofIPHeader = 20 := rfl
  rw [← lowered_verifies_iff version header inside net.fresh]
  refine ⟨fun lowered => lowered.verifies, fun verifies => ⟨?_, fun i within lifetime low high => ?_, verifies⟩⟩
  · rw [ttl, copied, store16_other (by decide) (by decide), lowered_copy packet _ (by omega) (by omega), lowered_ttl]
  · rw [copied, store16_other low high, lowered_copy packet _ within (by omega), lowered_others _ lifetime low high]

theorem answered_lives_iff (routed : net.route (daddr packet) = some rt) (version : version packet = 4)
    (header : sizeofIPHeader ≤ headerLen packet) (inside : headerLen packet ≤ totalLen packet)
    (lives : 1 < (ttl packet).toNat) : Answered net packet ↔ rt.Known (daddr packet) ∧ Balanced packet := by
  have small : sizeofIPHeader = 20 := rfl
  have right_iff : Lowered packet (copied net packet) ↔ Balanced packet := copied_lowered_iff version header inside
  rw [Answered, forwardPacket_lives routed (by omega) lives, routed, ← right_iff]
  simp only [if_pos lives]
  constructor
  · rintro ⟨iface, macAddr, bytes, size, sent, -, -, -, right⟩
    obtain ⟨none, same⟩ := front_nil (Option.some.inj sent)
    cases same
    exact ⟨asked_length.mp none, right⟩
  · rintro ⟨known, right⟩
    exact ⟨_, _, _, _, by rw [asked_known known]; rfl, rfl, rfl, rfl, right⟩

theorem answered_expires_iff (routed : net.route (daddr packet) = some rt) (long : 8 < totalLen packet)
    (expires : ¬1 < (ttl packet).toNat) :
    Answered net packet ↔ rt.Known (daddr packet) ∧ Reachable net (saddr packet) := by
  rw [Answered, forwardPacket_expires routed long expires, routed]
  simp only [if_neg expires]
  cases back : net.route (saddr packet) with
  | none =>
    rw [sendICMPReply_none back]
    refine iff_of_false ?_ ?_
    · rintro ⟨iface, macAddr, bytes, size, sent, -⟩
      cases sent
    · rintro ⟨-, rt', routed', -⟩
      rw [back] at routed'
      cases routed'
  | some rt' =>
    obtain ⟨bytes, size, sent, reply⟩ := sendICMPReply_some back (contents packet) rt.iface.myIP 11#8 0#8
    rw [reachable_of_routed back, sent, Option.map_some]
    constructor
    · rintro ⟨iface, macAddr, bytes', size', only, -⟩
      rw [← List.append_assoc, ← List.append_assoc, Option.some.injEq] at only
      have none := (front_nil only).1
      rw [List.length_append, List.length_append] at none
      exact ⟨asked_length.mp (by omega), asked_length.mp (by omega)⟩
    · rintro ⟨known, known'⟩
      rw [asked_known known, asked_known known']
      exact ⟨_, _, _, _, rfl, reply⟩

/-- A packet that is passed on is answered as it should be if and only if its destination is reachable, and its options
are balanced or, without a lifetime left, its sender is reachable. -/
theorem forwardPacket_iff {myIP : Word} {size : Int} (accepted : processIPPacket true myIP packet size = .forwarded) :
    Answered net packet ↔ Forwardable net packet := by
  obtain ⟨version, header, inside⟩ := of_forwarded accepted
  have small : sizeofIPHeader = 20 := rfl
  cases routed : net.route (daddr packet) with
  | none =>
    refine iff_of_false ?_ ?_
    · rintro ⟨iface, macAddr, bytes, size, sent, -⟩
      rw [forwardPacket_none routed] at sent
      cases sent
    · rintro ⟨⟨rt, routed', -⟩, -⟩
      rw [routed] at routed'
      cases routed'
  | some rt =>
    by_cases lives : 1 < (ttl packet).toNat
    · rw [answered_lives_iff routed version header inside lives]
      constructor
      · rintro ⟨known, balanced⟩
        exact ⟨⟨rt, routed, known⟩, fun _ => balanced, fun expires => absurd lives expires⟩
      · rintro ⟨destination, balanced, -⟩
        exact ⟨(reachable_of_routed routed).mp destination, balanced lives⟩
    · rw [answered_expires_iff routed (by omega) lives]
      constructor
      · rintro ⟨known, sender⟩
        exact ⟨⟨rt, routed, known⟩, fun left => absurd left lives, fun _ => sender⟩
      · rintro ⟨destination, -, sender⟩
        exact ⟨(reachable_of_routed routed).mp destination, sender lives⟩

end Sending

section Instances

/-- An interface that knows the addresses of all its neighbours, and one route to everywhere. -/
def neighbour : NetIface := ⟨0x0100000A#32, fun _ => 1#48⟩

def everywhere : Routing := ⟨[⟨0#32, 0#32, 0#32, neighbour⟩], none, fun _ => 0#8⟩

def nowhere : Routing := ⟨[], none, fun _ => 0#8⟩

/-- A header for 10.0.0.2 with the number of its words, its length and its lifetime, and four bytes of options behind it. -/
def headerTo (ihl : Byte) (length : Byte) (lifetime : Byte) : Block := fun i =>
  [0x40#8 ||| ihl, 0#8, 0#8, length, 0#8, 0#8, 0#8, 0#8, lifetime, 17#8, 0#8, 0#8, 10#8, 0#8, 0#8, 3#8, 10#8, 0#8, 0#8,
    2#8, 1#8, 7#8, 3#8, 4#8].getD i 0#8

theorem answered_everywhere : processIPPacket true 0x0100000A#32 (headerTo 5#8 20#8 64#8) 20 = .forwarded ∧
    Answered everywhere (headerTo 5#8 20#8 64#8) := by
  have accepted : processIPPacket true 0x0100000A#32 (headerTo 5#8 20#8 64#8) 20 = .forwarded := by decide
  refine ⟨accepted, (forwardPacket_iff accepted).mpr ⟨⟨⟨0#32, 0#32, 0#32, neighbour⟩, rfl, by decide⟩, fun _ => ?_, ?_⟩⟩
  · decide
  · intro expires
    exact absurd (by decide) expires

/-- Without a route the interface of the answer is undefined, and a header with options gets a wrong checksum. -/
theorem not_answered : (processIPPacket true 0x0100000A#32 (headerTo 5#8 20#8 64#8) 20 = .forwarded ∧
      forwardPacket nowhere (headerTo 5#8 20#8 64#8) = none) ∧
    ¬Answered nowhere (headerTo 5#8 20#8 64#8) ∧
    processIPPacket true 0x0100000A#32 (headerTo 6#8 24#8 64#8) 24 = .forwarded ∧
    ¬Answered everywhere (headerTo 6#8 24#8 64#8) := by
  refine ⟨⟨by decide, forwardPacket_none rfl⟩, ?_, by decide, fun answered => ?_⟩
  · rintro ⟨iface, macAddr, bytes, size, sent, -⟩
    rw [forwardPacket_none rfl] at sent
    cases sent
  · have routed : everywhere.route (daddr (headerTo 6#8 24#8 64#8)) = some ⟨0#32, 0#32, 0#32, neighbour⟩ := rfl
    have balanced := ((answered_lives_iff routed (by decide) (by decide) (by decide) (by decide)).mp answered).2
    exact absurd balanced (by decide)

end Instances

end FluxOS.IP
