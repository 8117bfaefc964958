import FluxOS.NetUtils
import FluxOS.QHashIndices
import FluxOS.QHashSizes

/-! `ARP`: what an interface does with the ARP packets that reach it, and a link with
any number of hosts on it, whose frames are lost, repeated and overtaken by others. -/
namespace FluxOS.ARP
open Words NetUtils QHash

abbrev MacAddr := BitVec 48

structure ARPPacket where
  hardwareType : Half
  protocolType : Half
  hardwareSize : BitVec 8
  protocolSize : BitVec 8
  opcode : Half
  senderMAC : MacAddr
  senderIP : Word
  targetMAC : MacAddr
  targetIP : Word
  deriving DecidableEq

/-- A frame that carries an ARP packet. -/
structure EthernetIIFrame where
  destination : MacAddr
  source : MacAddr
  type : Half
  payload : ARPPacket
  deriving DecidableEq

structure NetIface where
  myIP : Word
  myMAC : MacAddr
  macCache : QHash KernelKey MacAddr

def arpOpcodeRequest : Half := 1#16
def arpOpcodeReply : Half := 2#16
def ethertypeARP : Half := 0x0806#16
def broadcastMAC : MacAddr := 0xFFFFFFFFFFFF#48

/-- `iface->sendTo` builds the header. -/
def sendTo (iface : NetIface) (payload : ARPPacket) (destMAC : MacAddr) : EthernetIIFrame where
  destination := destMAC
  source := iface.myMAC
  type := htons ethertypeARP
  payload := payload

def sendARPReply (iface : NetIface) (arpPacket : ARPPacket) : EthernetIIFrame :=
  sendTo iface
    { hardwareType := htons 1#16
      protocolType := htons 0x0800#16
      hardwareSize := 6#8
      protocolSize := 4#8
      opcode := htons arpOpcodeReply
      senderMAC := iface.myMAC
      senderIP := arpPacket.targetIP
      targetMAC := arpPacket.senderMAC
      targetIP := arpPacket.senderIP } arpPacket.senderMAC

def sendARPRequest (iface : NetIface) (ip : Word) : EthernetIIFrame :=
  sendTo iface
    { hardwareType := htons 1#16
      protocolType := htons 0x0800#16
      hardwareSize := 6#8
      protocolSize := 4#8
      opcode := htons arpOpcodeRequest
      senderMAC := iface.myMAC
      senderIP := iface.myIP
      targetMAC := broadcastMAC
      targetIP := ip } broadcastMAC

/-- `processARPPacket`. The sizes of the addresses are not acted upon. There is no
result where the table of addresses is written outside of its array. -/
def processARPPacket (iface : NetIface) (arp : ARPPacket) : Option (NetIface × List EthernetIIFrame) := do
  let macCache ← insertCall kernelHash iface.macCache (.ipAddress arp.senderIP) arp.senderMAC
  let iface := { iface with macCache := macCache }
  if arp.opcode = htons arpOpcodeRequest then
    if arp.targetIP = iface.myIP then return (iface, [sendARPReply iface arp]) else return (iface, [])
  else return (iface, [])

/-- `processEthernetIIFrame`, for the type of an ARP packet. -/
def processEthernetIIFrame (iface : NetIface) (frame : EthernetIIFrame) : Option (NetIface × List EthernetIIFrame) :=
  if ntohs frame.type = ethertypeARP then processARPPacket iface frame.payload else some (iface, [])

/-- `macCache.value(ip)`. -/
def value (iface : NetIface) (ip : Word) : Option MacAddr := valueCall kernelHash iface.macCache (.ipAddress ip)

/-! ## A link -/

/-- The hosts on a link and the frames that were sent. A frame that is lost is one that
never reaches a host, and a frame may reach a host more than once. -/
structure Link (Host : Type) where
  ifaces : Host → NetIface
  frames : List EthernetIIFrame

inductive Action (Host : Type) where
  | ask (host : Host) (ip : Word)
  | deliver (frame : EthernetIIFrame) (host : Host)
  deriving DecidableEq

variable {Host : Type}

section Steps
variable [DecidableEq Host]

def step (link : Link Host) : Action Host → Option (Link Host)
  | .ask host ip => some { link with frames := link.frames ++ [sendARPRequest (link.ifaces host) ip] }
  | .deliver frame host => do
    let (iface, answers) ← processEthernetIIFrame (link.ifaces host) frame
    return { ifaces := Function.update link.ifaces host iface, frames := link.frames ++ answers }

def run (link : Link Host) (actions : List (Action Host)) : Option (Link Host) := actions.foldlM step link

/-- Only frames that were sent reach a host. -/
def Enabled (link : Link Host) : Action Host → Prop
  | .ask _ _ => True
  | .deliver frame _ => frame ∈ link.frames

def Possible (link : Link Host) : List (Action Host) → Prop
  | [] => True
  | a :: rest => Enabled link a ∧ ∀ next ∈ step link a, Possible next rest

instance (link : Link Host) : (a : Action Host) → Decidable (Enabled link a)
  | .ask _ _ => inferInstanceAs (Decidable True)
  | .deliver frame _ => inferInstanceAs (Decidable (frame ∈ link.frames))

instance decidablePossible : (link : Link Host) → (actions : List (Action Host)) → Decidable (Possible link actions)
  | _, [] => inferInstanceAs (Decidable True)
  | link, a :: rest =>
    have (next : Link Host) : Decidable (Possible next rest) := decidablePossible next rest
    inferInstanceAs (Decidable (Enabled link a ∧ ∀ next ∈ step link a, Possible next rest))

end Steps

/-- A link that has come up: no address is known and nothing was sent. -/
structure Fresh (link : Link Host) : Prop where
  caches : ∀ host, (link.ifaces host).macCache = init defaultCapacity
  silent : link.frames = []

/-! ## What was sent and what was heard -/

variable (first : Link Host)

/-- A frame in which host `k` says what its address is has reached the host. -/
def Heard (actions : List (Action Host)) (host k : Host) : Prop :=
  ∃ frame, .deliver frame host ∈ actions ∧ frame.payload.senderIP = (first.ifaces k).myIP

/-- The request of `host` for the address of `k`. -/
def request (host k : Host) : EthernetIIFrame := sendARPRequest (first.ifaces host) (first.ifaces k).myIP

/-- The answer of `k` to that request. -/
def reply (host k : Host) : EthernetIIFrame := sendARPReply (first.ifaces k) (request first host k).payload

/-- The frames that the hosts have to send: what they ask, and one answer each time
that a request reaches the host it asks for. -/
def Sent (actions : List (Action Host)) (frame : EthernetIIFrame) : Prop :=
  (∃ host ip, .ask host ip ∈ actions ∧ frame = sendARPRequest (first.ifaces host) ip) ∨
    ∃ host k, .deliver (request first host k) k ∈ actions ∧ frame = reply first host k

/-- Every frame says truly who sent it. -/
structure Truthful (frame : EthernetIIFrame) (k : Host) : Prop where
  senderIP : frame.payload.senderIP = (first.ifaces k).myIP
  senderMAC : frame.payload.senderMAC = (first.ifaces k).myMAC
  type : ntohs frame.type = ethertypeARP

variable {first}

theorem heard_deliver (actions : List (Action Host)) (frame : EthernetIIFrame) (receiver host k : Host) :
    Heard first (actions ++ [.deliver frame receiver]) host k ↔
      Heard first actions host k ∨ (receiver = host ∧ frame.payload.senderIP = (first.ifaces k).myIP) := by
  constructor
  · rintro ⟨heard, member, same⟩
    obtain before | last := List.mem_append.mp member
    · exact .inl ⟨heard, before, same⟩
    · obtain ⟨rfl, rfl⟩ := Action.deliver.inj (List.mem_singleton.mp last)
      exact .inr ⟨rfl, same⟩
  · rintro (⟨heard, member, same⟩ | ⟨rfl, same⟩)
    · exact ⟨heard, List.mem_append_left _ member, same⟩
    · exact ⟨frame, List.mem_append_right _ (List.mem_singleton_self _), same⟩

theorem heard_ask (actions : List (Action Host)) (asker : Host) (ip : Word) (host k : Host) :
    Heard first (actions ++ [.ask asker ip]) host k ↔ Heard first actions host k := by
  constructor
  · rintro ⟨heard, member, same⟩
    obtain before | last := List.mem_append.mp member
    · exact ⟨heard, before, same⟩
    · cases List.mem_singleton.mp last
  · rintro ⟨heard, member, same⟩
    exact ⟨heard, List.mem_append_left _ member, same⟩

theorem Sent.truthful {actions : List (Action Host)} {frame : EthernetIIFrame} (sent : Sent first actions frame) :
    ∃ k, Truthful first frame k := by
  obtain ⟨host, ip, -, rfl⟩ | ⟨host, k, -, rfl⟩ := sent
  · exact ⟨host, rfl, rfl, ntohs_htons _⟩
  · exact ⟨k, rfl, rfl, ntohs_htons _⟩

/-- The frames that are answered by a host are the requests for its address. -/
theorem Sent.answered_iff {actions : List (Action Host)} {frame : EthernetIIFrame} (sent : Sent first actions frame)
    (k : Host) : frame.payload.opcode = htons arpOpcodeRequest ∧ frame.payload.targetIP = (first.ifaces k).myIP ↔
      ∃ host, frame = request first host k := by
  obtain ⟨host, ip, -, rfl⟩ | ⟨host, j, -, rfl⟩ := sent
  · constructor
    · rintro ⟨-, same⟩
      exact ⟨host, by rw [request, ← same]; rfl⟩
    · rintro ⟨other, same⟩
      rw [same]
      exact ⟨rfl, rfl⟩
  · have opcode : (reply first host j).payload.opcode ≠ htons arpOpcodeRequest := by
      show htons arpOpcodeReply ≠ htons arpOpcodeRequest
      decide
    constructor
    · rintro ⟨same, -⟩
      exact absurd same opcode
    · rintro ⟨other, same⟩
      exact absurd (by rw [same]; rfl) opcode

/-! ## The invariant -/

/-- The table of a host holds just the addresses it has heard of. -/
structure Cached (first : Link Host) (actions : List (Action Host)) (host : Host) (cache : QHash KernelKey MacAddr) :
    Prop where
  sound : Sound kernelHash cache
  size : cache.mSize.toNat = cache.nodes.length
  refines : ∃ map, Refines kernelHash cache map ∧ ∀ key mac, map key = some mac ↔
    ∃ k, key = .ipAddress (first.ifaces k).myIP ∧ mac = (first.ifaces k).myMAC ∧ Heard first actions host k

structure Invariant (first : Link Host) (actions : List (Action Host)) (link : Link Host) : Prop where
  addresses : ∀ host, (link.ifaces host).myIP = (first.ifaces host).myIP ∧
    (link.ifaces host).myMAC = (first.ifaces host).myMAC
  frames : ∀ frame, frame ∈ link.frames ↔ Sent first actions frame
  caches : ∀ host, Cached first actions host (link.ifaces host).macCache

theorem Cached.key {actions : List (Action Host)} {host : Host} {cache : QHash KernelKey MacAddr}
    (cached : Cached first actions host cache) {key : KernelKey} (member : key ∈ cache.keys) :
    ∃ k, key = .ipAddress (first.ifaces k).myIP := by
  obtain ⟨node, inside, rfl⟩ := List.mem_map.mp member
  obtain ⟨map, refines, known⟩ := cached.refines
  have found := refines.placed.value_eq_some_iff.mpr (show (node.1, node.2) ∈ cache.nodes from inside)
  rw [refines.value] at found
  obtain ⟨k, same, -⟩ := (known _ _).mp found
  exact ⟨k, same⟩

/-- A table has no more entries than there are hosts. -/
theorem Cached.length_le [Fintype Host] {actions : List (Action Host)} {host : Host} {cache : QHash KernelKey MacAddr}
    (cached : Cached first actions host cache) : cache.nodes.length ≤ Fintype.card Host := by
  have inside : cache.keys ⊆
      (Finset.univ : Finset Host).toList.map fun k => KernelKey.ipAddress (first.ifaces k).myIP := by
    intro key member
    obtain ⟨k, rfl⟩ := cached.key member
    exact List.mem_map.mpr ⟨k, by simp, rfl⟩
  have bound := (cached.sound.unique.subperm inside).length_le
  simpa [keys] using bound

theorem Cached.start {host : Host} (empty : (first.ifaces host).macCache = init defaultCapacity) :
    Cached first [] host (first.ifaces host).macCache := by
  rw [empty]
  refine ⟨Sound.replicate 0#32 defaultCapacity, ?_, fun _ => none, refines_init (by decide), fun key mac => ?_⟩
  · rw [show (init defaultCapacity : QHash KernelKey MacAddr).nodes = [] from nodes_replicate 0#32 defaultCapacity _]
    rfl
  · constructor
    · exact nofun
    · rintro ⟨k, -, -, frame, member, -⟩
      cases member

/-- One more sender. -/
theorem Cached.insert [Fintype Host] (few : Fintype.card Host < 2 ^ 29)
    (nonneg : ∀ k, 0 ≤ (first.ifaces k).myIP.toInt) (distinct : Function.Injective fun k => (first.ifaces k).myIP)
    {actions : List (Action Host)} {host k : Host} {cache : QHash KernelKey MacAddr}
    (cached : Cached first actions host cache) {frame : EthernetIIFrame} (truthful : Truthful first frame k) :
    ∃ cache', insertCall kernelHash cache (.ipAddress frame.payload.senderIP) frame.payload.senderMAC = some cache' ∧
      Cached first (actions ++ [.deliver frame host]) host cache' := by
  obtain ⟨map, refines, known⟩ := cached.refines
  have small := cached.length_le
  have room : cache.mSize.toNat < 2 ^ 29 := by rw [cached.size]; omega
  have usable : Usable kernelHash map := by
    intro key present
    obtain ⟨mac, found⟩ := Option.ne_none_iff_exists'.mp present
    obtain ⟨j, rfl, -⟩ := (known key mac).mp found
    exact nonneg j
  have own : (kernelHash (.ipAddress frame.payload.senderIP)).Nonneg := by
    rw [truthful.senderIP]
    exact nonneg k
  have inserted := refines.insertCall_eq usable room own frame.payload.senderMAC
  have sound := cached.sound.insert inserted
  have counts := cached.sound.insert_counts inserted
  refine ⟨_, inserted, sound, ?_, _, refines.insert _ _ (refines.grown_positive room), fun key mac => ?_⟩
  · rw [counts.1, counts.2]
    split
    · exact cached.size
    · rw [toNat_add_one (by omega), cached.size]
  · by_cases same : key = .ipAddress frame.payload.senderIP
    · rw [same, Function.update_self, Option.some.injEq]
      constructor
      · rintro rfl
        exact ⟨k, by rw [truthful.senderIP], truthful.senderMAC,
          (heard_deliver _ _ _ _ _).mpr (.inr ⟨rfl, truthful.senderIP⟩)⟩
      · rintro ⟨j, sender, rfl, -⟩
        rw [KernelKey.ipAddress.injEq, truthful.senderIP] at sender
        rw [truthful.senderMAC, distinct sender]
    · rw [Function.update_of_ne same, known]
      constructor
      · rintro ⟨j, rfl, isMac, heard⟩
        exact ⟨j, rfl, isMac, (heard_deliver _ _ _ _ _).mpr (.inl heard)⟩
      · rintro ⟨j, rfl, isMac, heard⟩
        refine ⟨j, rfl, isMac, ((heard_deliver _ _ _ _ _).mp heard).resolve_right fun ⟨_, sender⟩ => same ?_⟩
        rw [sender]

/-- What another host hears changes nothing here. -/
theorem Cached.unheard {actions actions' : List (Action Host)} {host : Host} {cache : QHash KernelKey MacAddr}
    (cached : Cached first actions host cache) (same : ∀ k, Heard first actions' host k ↔ Heard first actions host k) :
    Cached first actions' host cache := by
  obtain ⟨map, refines, known⟩ := cached.refines
  refine ⟨cached.sound, cached.size, map, refines, fun key mac => ?_⟩
  simp only [same]
  exact known key mac

/-! ## Runs -/

theorem sendARPRequest_congr {iface iface' : NetIface} (ip : iface.myIP = iface'.myIP) (mac : iface.myMAC = iface'.myMAC)
    (target : Word) : sendARPRequest iface target = sendARPRequest iface' target := by
  simp only [sendARPRequest, sendTo, ip, mac]

theorem sendARPReply_congr {iface iface' : NetIface} (mac : iface.myMAC = iface'.myMAC) (packet : ARPPacket) :
    sendARPReply iface packet = sendARPReply iface' packet := by
  simp only [sendARPReply, sendTo, mac]

/-- What a frame does where the table can be written. -/
theorem processEthernetIIFrame_eq {iface : NetIface} {frame : EthernetIIFrame} {cache : QHash KernelKey MacAddr}
    (type : ntohs frame.type = ethertypeARP)
    (inserted : insertCall kernelHash iface.macCache (.ipAddress frame.payload.senderIP) frame.payload.senderMAC =
      some cache) :
    processEthernetIIFrame iface frame = some ({ iface with macCache := cache },
      if frame.payload.opcode = htons arpOpcodeRequest ∧ frame.payload.targetIP = iface.myIP then
        [sendARPReply iface frame.payload] else []) := by
  rw [processEthernetIIFrame, if_pos type, processARPPacket, inserted]
  simp only [Option.bind_eq_bind, Option.bind_some]
  by_cases isRequest : frame.payload.opcode = htons arpOpcodeRequest
  · by_cases own : frame.payload.targetIP = iface.myIP
    · rw [if_pos isRequest, if_pos own, if_pos ⟨isRequest, own⟩]
      rfl
    · rw [if_pos isRequest, if_neg own, if_neg fun both => own both.2]
      rfl
  · rw [if_neg isRequest, if_neg fun both => isRequest both.1]
    rfl

theorem Sent.mem_answers_iff {actions : List (Action Host)} {frame : EthernetIIFrame} (sent : Sent first actions frame)
    (host : Host) (answer : EthernetIIFrame) :
    answer ∈ (if frame.payload.opcode = htons arpOpcodeRequest ∧ frame.payload.targetIP = (first.ifaces host).myIP then
        [sendARPReply (first.ifaces host) frame.payload] else []) ↔
      ∃ asker, frame = request first asker host ∧ answer = reply first asker host := by
  have answered := sent.answered_iff host
  by_cases isRequest : frame.payload.opcode = htons arpOpcodeRequest ∧
      frame.payload.targetIP = (first.ifaces host).myIP
  · obtain ⟨asker, rfl⟩ := answered.mp isRequest
    rw [if_pos isRequest, List.mem_singleton]
    constructor
    · rintro rfl
      exact ⟨asker, rfl, rfl⟩
    · rintro ⟨other, same, rfl⟩
      rw [reply, same]
  · rw [if_neg isRequest]
    constructor
    · exact nofun
    · rintro ⟨asker, same, -⟩
      exact absurd (answered.mpr ⟨asker, same⟩) isRequest

variable [DecidableEq Host]

theorem Invariant.ask {actions : List (Action Host)} {link : Link Host} (invariant : Invariant first actions link)
    (host : Host) (ip : Word) : ∃ next, step link (.ask host ip) = some next ∧
      Invariant first (actions ++ [.ask host ip]) next := by
  obtain ⟨sameIP, sameMAC⟩ := invariant.addresses host
  refine ⟨_, rfl, invariant.addresses, fun frame => ?_, fun k => (invariant.caches k).unheard (heard_ask _ _ _ _)⟩
  rw [List.mem_append, invariant.frames, List.mem_singleton, sendARPRequest_congr sameIP sameMAC]
  constructor
  · rintro ((⟨asker, target, member, rfl⟩ | ⟨asker, k, member, rfl⟩) | rfl)
    · exact .inl ⟨asker, target, List.mem_append_left _ member, rfl⟩
    · exact .inr ⟨asker, k, List.mem_append_left _ member, rfl⟩
    · exact .inl ⟨host, ip, List.mem_append_right _ (List.mem_singleton_self _), rfl⟩
  · rintro (⟨asker, target, member, rfl⟩ | ⟨asker, k, member, rfl⟩)
    · obtain before | last := List.mem_append.mp member
      · exact .inl (.inl ⟨asker, target, before, rfl⟩)
      · obtain ⟨rfl, rfl⟩ := Action.ask.inj (List.mem_singleton.mp last)
        exact .inr rfl
    · obtain before | last := List.mem_append.mp member
      · exact .inl (.inr ⟨asker, k, before, rfl⟩)
      · cases List.mem_singleton.mp last

theorem Invariant.deliver [Fintype Host] (few : Fintype.card Host < 2 ^ 29)
    (nonneg : ∀ k, 0 ≤ (first.ifaces k).myIP.toInt) (distinct : Function.Injective fun k => (first.ifaces k).myIP)
    {actions : List (Action Host)} {link : Link Host} (invariant : Invariant first actions link)
    {frame : EthernetIIFrame} (member : frame ∈ link.frames) (host : Host) :
    ∃ next, step link (.deliver frame host) = some next ∧
      Invariant first (actions ++ [.deliver frame host]) next := by
  have sent := (invariant.frames frame).mp member
  obtain ⟨k, truthful⟩ := sent.truthful
  obtain ⟨sameIP, sameMAC⟩ := invariant.addresses host
  obtain ⟨cache, inserted, cached⟩ := (invariant.caches host).insert few nonneg distinct truthful
  have did := processEthernetIIFrame_eq truthful.type inserted
  have answers_iff := sent.mem_answers_iff host
  simp only [← sameIP, ← sendARPReply_congr sameMAC] at answers_iff
  refine ⟨_, by rw [step, did]; rfl, fun other => ?_, fun answer => ?_, fun other => ?_⟩
  · by_cases same : other = host
    · subst same
      simp [sameIP, sameMAC]
    · simpa [same] using invariant.addresses other
  · rw [List.mem_append, invariant.frames, answers_iff]
    constructor
    · rintro ((⟨asker, target, before, rfl⟩ | ⟨asker, j, before, rfl⟩) | ⟨asker, rfl, rfl⟩)
      · exact .inl ⟨asker, target, List.mem_append_left _ before, rfl⟩
      · exact .inr ⟨asker, j, List.mem_append_left _ before, rfl⟩
      · exact .inr ⟨asker, host, List.mem_append_right _ (List.mem_singleton_self _), rfl⟩
    · rintro (⟨asker, target, there, rfl⟩ | ⟨asker, j, there, rfl⟩)
      · obtain before | last := List.mem_append.mp there
        · exact .inl (.inl ⟨asker, target, before, rfl⟩)
        · cases List.mem_singleton.mp last
      · obtain before | last := List.mem_append.mp there
        · exact .inl (.inr ⟨asker, j, before, rfl⟩)
        · obtain ⟨same, rfl⟩ := Action.deliver.inj (List.mem_singleton.mp last)
          exact .inr ⟨asker, same.symm, rfl⟩
  · by_cases same : other = host
    · subst same
      simpa using cached
    · have unheard : ∀ j, Heard first (actions ++ [.deliver frame host]) other j ↔ Heard first actions other j := by
        intro j
        rw [heard_deliver]
        exact or_iff_left fun ⟨here, _⟩ => same here.symm
      simpa [same] using (invariant.caches other).unheard unheard

/-- **Addresses on a link**: however frames are lost, repeated and overtaken by others,
every host knows the right address of just those hosts that it has heard of, and the
frames are those of the hosts that ask and of the hosts that are asked for. -/
theorem run_link [Fintype Host] (few : Fintype.card Host < 2 ^ 29)
    (nonneg : ∀ k, 0 ≤ (first.ifaces k).myIP.toInt) (distinct : Function.Injective fun k => (first.ifaces k).myIP)
    (fresh : Fresh first) {actions : List (Action Host)} (possible : Possible first actions) :
    ∃ link, run first actions = some link ∧ (∀ frame, frame ∈ link.frames ↔ Sent first actions frame) ∧
      ∀ host, (∀ k, Heard first actions host k →
          value (link.ifaces host) (first.ifaces k).myIP = some (first.ifaces k).myMAC) ∧
        ∀ ip, 0 ≤ ip.toInt → (∀ k, Heard first actions host k → ip ≠ (first.ifaces k).myIP) →
          value (link.ifaces host) ip = some 0#48 := by
  suffices rest : ∀ rest done (link : Link Host), Invariant first done link → Possible link rest →
      ∃ last, run link rest = some last ∧ Invariant first (done ++ rest) last by
    have start : Invariant first [] first := by
      refine ⟨fun host => ⟨rfl, rfl⟩, fun frame => ?_, fun host => Cached.start (fresh.caches host)⟩
      rw [fresh.silent]
      constructor
      · exact nofun
      · rintro (⟨host, ip, none, -⟩ | ⟨host, k, none, -⟩) <;> cases none
    obtain ⟨link, ran, invariant⟩ := rest actions [] first start possible
    refine ⟨link, ran, invariant.frames, fun host => ?_⟩
    obtain ⟨-, -, map, refines, known⟩ := invariant.caches host
    refine ⟨fun k heard => ?_, fun ip positive unheard => ?_⟩
    · have positive : (kernelHash (.ipAddress (first.ifaces k).myIP)).Nonneg := nonneg k
      rw [value, refines.valueCall_eq positive, (known _ _).mpr ⟨k, rfl, rfl, heard⟩]
      rfl
    · have unknown : map (.ipAddress ip) = none := by
        by_contra some
        obtain ⟨mac, found⟩ := Option.ne_none_iff_exists'.mp some
        obtain ⟨k, same, -, heard⟩ := (known _ _).mp found
        exact unheard k heard (KernelKey.ipAddress.inj same)
      have positive : (kernelHash (.ipAddress ip)).Nonneg := positive
      rw [value, refines.valueCall_eq positive, unknown]
      rfl
  intro rest
  induction rest with
  | nil =>
    intro done link invariant _
    exact ⟨link, rfl, by simpa using invariant⟩
  | cons a rest ih =>
    intro done link invariant possible
    obtain ⟨next, did, after⟩ : ∃ next, step link a = some next ∧ Invariant first (done ++ [a]) next := by
      cases a with
      | ask host ip => exact invariant.ask host ip
      | deliver frame host => exact invariant.deliver few nonneg distinct possible.1 host
    obtain ⟨last, ran, final⟩ := ih (done ++ [a]) next after (possible.2 next did)
    refine ⟨last, ?_, by simpa using final⟩
    rw [run, List.foldlM_cons, did]
    exact ran

/-- Two hosts, 10.0.0.1 and 10.0.0.2. -/
def twoHosts : Link Bool where
  ifaces
    | false => ⟨0x0100000A#32, 0x563412005452#48, init defaultCapacity⟩
    | true => ⟨0x0200000A#32, 0x573412005452#48, init defaultCapacity⟩
  frames := []

/-- The first asks for the second, and the answer arrives twice. -/
def askTwice : List (Action Bool) :=
  [.ask false 0x0200000A#32, .deliver (request twoHosts false true) true, .deliver (reply twoHosts false true) false,
    .deliver (reply twoHosts false true) false]

theorem twoHosts_link :
    ∃ link, run twoHosts askTwice = some link ∧ (∀ frame, frame ∈ link.frames ↔ Sent twoHosts askTwice frame) ∧
      ∀ host, (∀ k, Heard twoHosts askTwice host k →
          value (link.ifaces host) (twoHosts.ifaces k).myIP = some (twoHosts.ifaces k).myMAC) ∧
        ∀ ip, 0 ≤ ip.toInt → (∀ k, Heard twoHosts askTwice host k → ip ≠ (twoHosts.ifaces k).myIP) →
          value (link.ifaces host) ip = some 0#48 := by
  refine run_link (by decide) (by decide) ?_ ⟨fun host => ?_, rfl⟩ (by decide)
  · rintro (_ | _) (_ | _) same <;> first | rfl | exact absurd same (by decide)
  · cases host <;> rfl

end FluxOS.ARP
