import FluxOS.QHashMap
import FluxOS.TmpFS

/-! The registered devices: what `CharDeviceManager` and `BlockDeviceManager` keep of them, and the names that `DevFS`
has for them. The tables are compared with maps, and the maps with what a name should open. -/
namespace FluxOS
open Words VFS QHash

/-- A `CharDevice` or a `BlockDevice`; `calls` are its `read`, `write`, `ioctl` and `mmap`. -/
structure Device (C : Type) where
  major : Word
  minor : Word
  name : List Char
  calls : C

structure DevId where
  major : Word
  minor : Word
  deriving DecidableEq

def DevId.qHash (id : DevId) : HashValue := .uint (id.minor + id.major)

/-- `qHash(QString)`. -/
def nameHash (name : List Char) : HashValue := .uint (TmpFS.qHash name)

inductive DeviceKind where
  | char
  | block
  deriving DecidableEq

def sIfchr : Word := 0o020000#32
def sIfblk : Word := 0o060000#32

def sIschr (mode : Word) : Bool := mode &&& sIfmt = sIfchr
def sIsblk (mode : Word) : Bool := mode &&& sIfmt = sIfblk

/-- The type that a device of the kind is registered with. -/
def DeviceKind.mode : DeviceKind → Word
  | .char => sIfchr
  | .block => sIfblk

/-- `CharDevices` and `CharDevicesByName`, or `BlockDevices` and `BlockDevicesByName`, of pointers that may be null. -/
structure DeviceTables (C : Type) where
  devices : QHash DevId (Option (Device C))
  devicesByName : QHash (List Char) (Option (Device C))

/-- A `TmpInode` of `DevFS`, as far as names and devices go. -/
structure DevInode where
  mode : BitVec 16
  major : Word
  minor : Word
  directory : Option (QHash (List Char) Nat)

/-- `Inodes`; there is no inode 0. -/
abbrev DevInodes := List (Option DevInode)

structure Devices (C : Type) where
  tables : DeviceKind → DeviceTables C
  inodes : DevInodes

/-! ## The names -/

namespace DevFSNodes

def inode (inodes : DevInodes) (id : Nat) : Option DevInode := (inodes[id]?).getD none

/-- `Init`: the names of the directory that is inode 1. -/
def newDirectory : Option (QHash (List Char) Nat) := do
  let directory ← insertCall nameHash (QHash.init defaultCapacity) TmpFS.dot 1
  insertCall nameHash directory dotDot 1

def init : DevInodes := [none, some ⟨sIfdir.setWidth 16, 0#32, 0#32, newDirectory⟩]

/-- The inode that `mknod` makes; `dev` has the upper half for `Major`. -/
def nodeInode (mode dev : Word) : DevInode := ⟨mode.setWidth 16, dev >>> 16, dev &&& 0xFFFF#32, none⟩

def mknod (inodes : DevInodes) (newName : List Char) (mode dev : Word) : Option DevInodes := do
  let inodes := inodes ++ [some (nodeInode mode dev)]
  let id := inodes.length - 1
  let root ← inode inodes 1
  let directory ← root.directory
  let directory ← insertCall nameHash directory newName id
  return inodes.set 1 (some { root with directory := some directory })

end DevFSNodes

/-! ## The managers -/

namespace Devices

variable {C : Type}

def setTables (s : Devices C) (kind : DeviceKind) (tables : DeviceTables C) : Devices C :=
  { s with tables := Function.update s.tables kind tables }

/-- `Register`, of either kind; nothing where an index of a table is wrong. -/
def register (kind : DeviceKind) (s : Devices C) : Option (Device C) → Option (Devices C)
  | none => some s
  | some cd => do
    let tables := s.tables kind
    match ← valueCall DevId.qHash tables.devices ⟨cd.major, cd.minor⟩ with
    | some _ => return s
    | none =>
      let devices ← insertCall DevId.qHash tables.devices ⟨cd.major, cd.minor⟩ (some cd)
      let devicesByName ← insertCall nameHash tables.devicesByName cd.name (some cd)
      let inodes ← DevFSNodes.mknod s.inodes cd.name kind.mode (cd.major <<< 16 ||| cd.minor)
      return { (s.setTables kind ⟨devices, devicesByName⟩) with inodes := inodes }

/-- `Unregister`, of either kind. -/
def unregister (kind : DeviceKind) (s : Devices C) (name : List Char) : Option (Devices C) := do
  let tables := s.tables kind
  let (dev, devicesByName) ← takeCall nameHash tables.devicesByName name
  match dev with
  | none => return s.setTables kind { tables with devicesByName := devicesByName }
  | some dev =>
    let (_, devices) ← removeCall DevId.qHash tables.devices ⟨dev.major, dev.minor⟩
    return s.setTables kind ⟨devices, devicesByName⟩

/-- `Device(major, minor)`, of either kind. -/
def device (kind : DeviceKind) (s : Devices C) (major minor : Word) : Option (Option (Device C)) :=
  valueCall DevId.qHash (s.tables kind).devices ⟨major, minor⟩

end Devices

namespace CharDeviceManager

variable {C : Type}

def register (s : Devices C) (cd : Option (Device C)) : Option (Devices C) := s.register .char cd
def unregister (s : Devices C) (name : List Char) : Option (Devices C) := s.unregister .char name
def device (s : Devices C) (major minor : Word) : Option (Option (Device C)) := s.device .char major minor

end CharDeviceManager

namespace BlockDeviceManager

variable {C : Type}

def register (s : Devices C) (bd : Option (Device C)) : Option (Devices C) := s.register .block bd
def unregister (s : Devices C) (name : List Char) : Option (Devices C) := s.unregister .block name
def device (s : Devices C) (major minor : Word) : Option (Option (Device C)) := s.device .block major minor

end BlockDeviceManager

/-- What `lookup` finds: the id of the node, its type, and the device that the node has as `privdata` and whose calls
its mount gets. -/
structure FoundNode (C : Type) where
  id : Nat
  ntype : Word
  privdata : Option (Device C)

namespace DevFSNodes

variable {C : Type}

/-- `DevFS::lookup`; nothing where a null pointer is used. -/
def lookup (s : Devices C) (node : Nat) (name : List Char) : Option (Except Int (FoundNode C)) := do
  let directory ← inode s.inodes node
  if sIsdir (directory.mode.setWidth 32) then
    let names ← directory.directory
    let inodeIndex ← valueCall nameHash names name
    if inodeIndex = 0 then return .error (-enoent)
    else
      let found ← inode s.inodes inodeIndex
      let ntype := found.mode.setWidth 32
      if sIschr ntype then
        -- `dev->read` of a device that is not there is a read through a null pointer
        let dev ← ← CharDeviceManager.device s found.major found.minor
        return .ok ⟨inodeIndex, ntype, some dev⟩
      else if sIsblk ntype then
        let dev ← ← BlockDeviceManager.device s found.major found.minor
        return .ok ⟨inodeIndex, ntype, some dev⟩
      else return .ok ⟨inodeIndex, ntype, none⟩
  else return .error (-enotdir)

end DevFSNodes

/-! ## Runs -/

inductive DeviceEvent (C : Type) where
  | register (kind : DeviceKind) (device : Option (Device C))
  | unregister (kind : DeviceKind) (name : List Char)

namespace Devices

variable {C : Type}

/-- The state after `Init` of both managers and of `DevFS`. -/
def init : Devices C := ⟨fun _ => ⟨QHash.init defaultCapacity, QHash.init defaultCapacity⟩, DevFSNodes.init⟩

def step (s : Devices C) : DeviceEvent C → Option (Devices C)
  | .register .char cd => CharDeviceManager.register s cd
  | .register .block bd => BlockDeviceManager.register s bd
  | .unregister .char name => CharDeviceManager.unregister s name
  | .unregister .block name => BlockDeviceManager.unregister s name

def run (s : Devices C) : List (DeviceEvent C) → Option (Devices C)
  | [] => some s
  | event :: rest => (s.step event).bind (·.run rest)

/-- What a lookup of the name in the root directory gives: a type, and a device. -/
def answer (s : Devices C) (name : List Char) : Option (Except Int (Word × Option (Device C))) :=
  (DevFSNodes.lookup s 1 name).map fun reply => reply.map fun found => (found.ntype, found.privdata)

theorem step_register (s : Devices C) (kind : DeviceKind) (device : Option (Device C)) :
    s.step (.register kind device) = s.register kind device := by cases kind <;> rfl

theorem step_unregister (s : Devices C) (kind : DeviceKind) (name : List Char) :
    s.step (.unregister kind name) = s.unregister kind name := by cases kind <;> rfl

end Devices

/-! ## What the devices are for -/

/-- The registered devices as maps: by their numbers and by their names, and the last one that a node was made for
under each name. `current` is what a name should open: the device registered last under it, until it is unregistered. -/
structure DeviceRegistry (C : Type) where
  ids : DeviceKind → DevId → Option (Device C)
  names : DeviceKind → List Char → Option (Device C)
  nodes : List Char → Option (DeviceKind × Device C)
  current : List Char → Option (DeviceKind × Device C)

namespace Device

variable {C : Type}

def id (device : Device C) : DevId := ⟨device.major, device.minor⟩

/-- The number of a device as its node has it. -/
def dev (device : Device C) : Word := device.major <<< 16 ||| device.minor

def nodeId (device : Device C) : DevId := ⟨device.dev >>> 16, device.dev &&& 0xFFFF#32⟩

end Device

namespace DeviceRegistry

variable {C : Type}

def empty : DeviceRegistry C := ⟨fun _ _ => none, fun _ _ => none, fun _ => none, fun _ => none⟩

def add (r : DeviceRegistry C) (kind : DeviceKind) (device : Device C) : DeviceRegistry C where
  ids := Function.update r.ids kind (Function.update (r.ids kind) device.id (some device))
  names := Function.update r.names kind (Function.update (r.names kind) device.name (some device))
  nodes := Function.update r.nodes device.name (some (kind, device))
  current := Function.update r.current device.name (some (kind, device))

def drop (r : DeviceRegistry C) (kind : DeviceKind) (name : List Char) (device : Device C) : DeviceRegistry C where
  ids := Function.update r.ids kind (Function.update (r.ids kind) device.id none)
  names := Function.update r.names kind (Function.update (r.names kind) name none)
  nodes := r.nodes
  current := Function.update r.current name ((r.current name).filter (·.1 ≠ kind))

def step (r : DeviceRegistry C) : DeviceEvent C → DeviceRegistry C
  | .register _ none => r
  | .register kind (some device) => if (r.ids kind device.id).isSome then r else r.add kind device
  | .unregister kind name => (r.names kind name).elim r (r.drop kind name)

def run (r : DeviceRegistry C) (events : List (DeviceEvent C)) : DeviceRegistry C := events.foldl step r

/-- What is under a name that no device has. -/
def absent (name : List Char) : Except Int (Word × Option (Device C)) :=
  if name = TmpFS.dot ∨ name = dotDot then .ok (sIfdir, none) else .error (-enoent)

def expected (r : DeviceRegistry C) (name : List Char) : Except Int (Word × Option (Device C)) :=
  (r.current name).elim (absent name) fun (kind, device) => .ok (kind.mode, some device)

/-- What the tables give for a name. -/
def given (r : DeviceRegistry C) (name : List Char) : Option (Except Int (Word × Option (Device C))) :=
  (r.nodes name).elim (some (absent name)) fun (kind, device) =>
    (r.ids kind device.nodeId).map fun found => .ok (kind.mode, some found)

/-- A device that is accepted has numbers of 16 bits, and what a name opens is not unregistered. -/
def Allows (r : DeviceRegistry C) : DeviceEvent C → Prop
  | .register _ none => True
  | .register kind (some device) => r.ids kind device.id = none → device.nodeId = device.id
  | .unregister kind name => ∀ device, r.current name ≠ some (kind, device)

def AllowsAll (r : DeviceRegistry C) : List (DeviceEvent C) → Prop
  | [] => True
  | event :: rest => r.Allows event ∧ (r.step event).AllowsAll rest

end DeviceRegistry

/-! ## Tables are maps -/

/-- The table holds the map, and no more than so many keys were inserted. -/
structure TableHolds {Key T : Type} [DecidableEq Key] (hash : Key → HashValue) (h : QHash Key T) (map : Key → Option T)
    (inserted : Nat) : Prop where
  refines : Refines hash h map
  size : h.mSize.toNat ≤ inserted

namespace TableHolds

variable {Key T : Type} [DecidableEq Key] {hash : Key → HashValue} {h : QHash Key T} {map : Key → Option T}
  {inserted : Nat}

theorem mono (holds : TableHolds hash h map inserted) {more : Nat} (le : inserted ≤ more) : TableHolds hash h map more :=
  ⟨holds.refines, holds.size.trans le⟩

variable (nonneg : ∀ key, (hash key).Nonneg)
include nonneg

theorem insert (holds : TableHolds hash h map inserted) (room : inserted < 2 ^ 29) (key : Key) (value : T) :
    ∃ h', insertCall hash h key value = some h' ∧
      TableHolds hash h' (Function.update map key (some value)) (inserted + 1) := by
  have small : h.mSize.toNat < 2 ^ 29 := Nat.lt_of_le_of_lt holds.size room
  refine ⟨_, holds.refines.insertCall_eq (fun key _ => nonneg key) small (nonneg key) value, ?_, ?_⟩
  · exact holds.refines.insert key value (holds.refines.grown_positive small)
  · exact (holds.refines.mSize_insert small key value).trans (Nat.succ_le_succ holds.size)

theorem remove (holds : TableHolds hash h map inserted) (key : Key) :
    ∃ h', removeFromTable hash h key = some (map key, h') ∧
      TableHolds hash h' (Function.update map key none) inserted := by
  refine ⟨h.remove (words hash) key, ?_, holds.refines.remove key, holds.size⟩
  rw [removeFromTable_of_fits h (fits_of_nonneg (nonneg key) holds.refines.capacity), holds.refines.value]

theorem value (holds : TableHolds hash h map inserted) [Inhabited T] (key : Key) :
    valueCall hash h key = some ((map key).getD default) := holds.refines.valueCall_eq (nonneg key)

end TableHolds

theorem DevId.nonneg (id : DevId) : id.qHash.Nonneg := trivial

theorem nameHash_nonneg (name : List Char) : (nameHash name).Nonneg := trivial

theorem update_map {Key T : Type} [DecidableEq Key] (map : Key → Option T) (key : Key) (value : Option T) :
    Function.update (fun key => (map key).map some) key (value.map some) =
      fun other => (Function.update map key value other).map some := by
  funext other
  by_cases same : other = key
  · rw [same, Function.update_self, Function.update_self]
  · rw [Function.update_of_ne same, Function.update_of_ne same]

namespace DevFSNodes

/-- A name in the root directory: the node of the device that was registered last under it. -/
def Named {C : Type} (inodes : DevInodes) (name : List Char) (place : Option Nat) : Option (DeviceKind × Device C) → Prop
  | some (kind, device) => ∃ id, 1 < id ∧ place = some id ∧ inodes[id]? = some (some (nodeInode kind.mode device.dev))
  | none => place = if name = TmpFS.dot ∨ name = dotDot then some 1 else none

/-- The root directory has the nodes. -/
structure Holds {C : Type} (inodes : DevInodes) (nodes : List Char → Option (DeviceKind × Device C)) (made : Nat)
    (root : DevInode) (directory : QHash (List Char) Nat) (places : List Char → Option Nat) : Prop where
  first : inodes[1]? = some (some root)
  mode : root.mode = sIfdir.setWidth 16
  names : root.directory = some directory
  table : TableHolds nameHash directory places (made + 2)
  named : ∀ name, Named inodes name (places name) (nodes name)

variable {C : Type} {inodes : DevInodes} {nodes : List Char → Option (DeviceKind × Device C)}

theorem Named.mono {inodes' : DevInodes} {name : List Char} {place : Option Nat} {held : Option (DeviceKind × Device C)}
    (named : Named inodes name place held)
    (same : ∀ id, 1 < id → ∀ found, inodes[id]? = some found → inodes'[id]? = some found) :
    Named inodes' name place held := by
  rcases held with _ | ⟨kind, device⟩
  · exact named
  · obtain ⟨id, behind, here, found⟩ := named
    exact ⟨id, behind, here, same id behind _ found⟩

variable {made : Nat} {root : DevInode} {directory : QHash (List Char) Nat} {places : List Char → Option Nat}

theorem Holds.mknod (holds : Holds inodes nodes made root directory places) (room : made + 2 < 2 ^ 29)
    (kind : DeviceKind) (device : Device C) :
    ∃ inodes' root' directory' places', DevFSNodes.mknod inodes device.name kind.mode device.dev = some inodes' ∧
      Holds inodes' (Function.update nodes device.name (some (kind, device))) (made + 1) root' directory' places' := by
  obtain ⟨directory', inserted, table⟩ := holds.table.insert nameHash_nonneg room device.name inodes.length
  have some_inodes : 1 < inodes.length := (List.getElem?_eq_some_iff.mp holds.first).1
  let all := inodes ++ [some (nodeInode kind.mode device.dev)]
  have first : all[1]? = some (some root) := by rw [List.getElem?_append_left some_inodes, holds.first]
  have last : all.length - 1 = inodes.length := by rw [List.length_append, List.length_singleton, Nat.add_sub_cancel]
  have within : 1 < all.length := (List.getElem?_eq_some_iff.mp first).1
  have others (id : Nat) (behind : 1 < id) (inode : DevInode) : (all.set 1 (some inode))[id]? = all[id]? :=
    List.getElem?_set_ne (Nat.ne_of_lt behind)
  refine ⟨all.set 1 (some { root with directory := some directory' }), { root with directory := some directory' },
    directory', _, ?_, List.getElem?_set_self within, holds.mode, rfl, table, fun name => ?_⟩
  · have found : inode all 1 = some root := by rw [inode, first, Option.getD_some]
    simp only [DevFSNodes.mknod]
    rw [show inodes ++ [some (nodeInode kind.mode device.dev)] = all from rfl, found, last]
    simp only [Option.bind_eq_bind, Option.bind_some, holds.names, inserted, Option.pure_def]
  · by_cases same : name = device.name
    · rw [same, Function.update_self, Function.update_self]
      refine ⟨inodes.length, some_inodes, rfl, ?_⟩
      rw [others _ some_inodes, List.getElem?_append_right (Nat.le_refl _), Nat.sub_self]
      rfl
    · rw [Function.update_of_ne same, Function.update_of_ne same]
      refine (holds.named name).mono fun id behind found held => ?_
      rw [others id behind, List.getElem?_append_left (List.getElem?_eq_some_iff.mp held).1, held]

theorem holds_init : ∃ root directory places,
    Holds DevFSNodes.init (fun _ => (none : Option (DeviceKind × Device C))) 0 root directory places := by
  have start : TableHolds nameHash (QHash.init defaultCapacity : QHash (List Char) Nat) (fun _ => none) 0 :=
    ⟨refines_init (by decide), Nat.le_refl 0⟩
  obtain ⟨one, first, table⟩ := start.insert nameHash_nonneg (by decide) TmpFS.dot 1
  obtain ⟨two, second, table⟩ := table.insert nameHash_nonneg (by decide) dotDot 1
  refine ⟨⟨sIfdir.setWidth 16, 0#32, 0#32, newDirectory⟩, two, _, rfl, rfl, ?_, table, fun name => ?_⟩
  · simp only [newDirectory, first, second, Option.bind_eq_bind, Option.bind_some]
  · simp only [Named, Function.update_apply]
    by_cases isDot : name = TmpFS.dot
    · subst isDot
      decide
    · by_cases isDotDot : name = dotDot
      · rw [if_pos isDotDot, if_pos (.inr isDotDot)]
      · rw [if_neg isDotDot, if_neg isDot, if_neg (not_or.mpr ⟨isDot, isDotDot⟩)]

end DevFSNodes

/-! ## The code keeps the maps -/

theorem getD_map_some {T : Type} (value : Option T) : (value.map some).getD none = value := by cases value <;> rfl

namespace Devices

variable {C : Type} {s : Devices C} {r : DeviceRegistry C} {n : Nat}

structure Holds (s : Devices C) (r : DeviceRegistry C) (n : Nat) : Prop where
  devices : ∀ kind, TableHolds DevId.qHash (s.tables kind).devices (fun id => (r.ids kind id).map some) n
  byName : ∀ kind, TableHolds nameHash (s.tables kind).devicesByName (fun name => (r.names kind name).map some) n
  nodes : ∃ root directory places, DevFSNodes.Holds s.inodes r.nodes n root directory places

theorem holds_init : (init : Devices C).Holds .empty 0 where
  devices _ := ⟨refines_init (by decide), Nat.le_refl 0⟩
  byName _ := ⟨refines_init (by decide), Nat.le_refl 0⟩
  nodes := DevFSNodes.holds_init

theorem Holds.mono (holds : s.Holds r n) {more : Nat} (le : n ≤ more) : s.Holds r more where
  devices kind := (holds.devices kind).mono le
  byName kind := (holds.byName kind).mono le
  nodes := by
    obtain ⟨root, directory, places, nodes⟩ := holds.nodes
    exact ⟨root, directory, places, { nodes with table := nodes.table.mono (Nat.add_le_add_right le 2) }⟩

/-- The tables of one kind are replaced. -/
theorem Holds.set (holds : s.Holds r n) {s' : Devices C} {r' : DeviceRegistry C} {more : Nat} (le : n ≤ more)
    {kind : DeviceKind} {tables : DeviceTables C} {ids : DevId → Option (Device C)}
    {names : List Char → Option (Device C)}
    (devices : TableHolds DevId.qHash tables.devices (fun id => (ids id).map some) more)
    (byName : TableHolds nameHash tables.devicesByName (fun name => (names name).map some) more)
    (nodes : ∃ root directory places, DevFSNodes.Holds s'.inodes r'.nodes more root directory places)
    (setTables : s'.tables = Function.update s.tables kind tables) (setIds : r'.ids = Function.update r.ids kind ids)
    (setNames : r'.names = Function.update r.names kind names) : s'.Holds r' more := by
  refine ⟨fun other => ?_, fun other => ?_, nodes⟩
  · rw [setTables, setIds]
    by_cases same : other = kind
    · rw [same, Function.update_self, Function.update_self]
      exact devices
    · rw [Function.update_of_ne same, Function.update_of_ne same]
      exact (holds.devices other).mono le
  · rw [setTables, setNames]
    by_cases same : other = kind
    · rw [same, Function.update_self, Function.update_self]
      exact byName
    · rw [Function.update_of_ne same, Function.update_of_ne same]
      exact (holds.byName other).mono le

theorem Holds.register (holds : s.Holds r n) (room : n + 2 < 2 ^ 29) (kind : DeviceKind) (device : Option (Device C)) :
    ∃ s', s.register kind device = some s' ∧ s'.Holds (r.step (.register kind device)) (n + 1) := by
  rcases device with _ | device
  · exact ⟨s, rfl, holds.mono (Nat.le_succ n)⟩
  have looked : valueCall DevId.qHash (s.tables kind).devices ⟨device.major, device.minor⟩ =
      some (r.ids kind device.id) :=
    ((holds.devices kind).value DevId.nonneg device.id).trans (congrArg some (getD_map_some _))
  rw [DeviceRegistry.step]
  cases taken : r.ids kind device.id with
  | some other =>
    refine ⟨s, ?_, ?_⟩
    · simp only [Devices.register, looked, taken, Option.bind_eq_bind, Option.bind_some, Option.pure_def]
    · rw [Option.isSome_some, if_pos rfl]
      exact holds.mono (Nat.le_succ n)
  | none =>
    have small : n < 2 ^ 29 := by omega
    obtain ⟨devices, insertId, tableId⟩ := (holds.devices kind).insert DevId.nonneg small device.id (some device)
    obtain ⟨byName, insertName, tableName⟩ := (holds.byName kind).insert nameHash_nonneg small device.name (some device)
    obtain ⟨root, directory, places, nodes⟩ := holds.nodes
    obtain ⟨inodes, root', directory', places', made, nodes'⟩ := nodes.mknod room kind device
    refine ⟨{ (s.setTables kind ⟨devices, byName⟩) with inodes := inodes }, ?_, ?_⟩
    · have dev : DevFSNodes.mknod s.inodes device.name kind.mode (device.major <<< 16 ||| device.minor) =
          some inodes := made
      rw [Devices.register, looked, taken]
      simp only [Option.bind_eq_bind, Option.bind_some, insertName, dev, Option.pure_def]
      rw [show (⟨device.major, device.minor⟩ : DevId) = device.id from rfl, insertId]
      rfl
    · rw [Option.isSome_none, if_neg Bool.false_ne_true]
      refine holds.set (Nat.le_succ n) ?_ ?_ ⟨root', directory', places', nodes'⟩ rfl rfl rfl
      · rw [← update_map]
        exact tableId
      · rw [← update_map]
        exact tableName

theorem Holds.unregister (holds : s.Holds r n) (kind : DeviceKind) (name : List Char) :
    ∃ s', s.unregister kind name = some s' ∧ s'.Holds (r.step (.unregister kind name)) (n + 1) := by
  obtain ⟨byName, removed, tableName⟩ := (holds.byName kind).remove nameHash_nonneg name
  have take : takeCall nameHash (s.tables kind).devicesByName name = some (r.names kind name, byName) := by
    rw [takeCall, removed, Option.map_some]
    exact congrArg (fun value => some (value, byName)) (getD_map_some _)
  have named : TableHolds nameHash byName (fun other => (Function.update (r.names kind) name none other).map some) n := by
    rw [← update_map]
    exact tableName
  rw [DeviceRegistry.step]
  cases taken : r.names kind name with
  | none =>
    refine ⟨s.setTables kind ⟨(s.tables kind).devices, byName⟩, ?_, ?_⟩
    · simp only [Devices.unregister, take, taken, Option.bind_eq_bind, Option.bind_some, Option.pure_def]
    · -- nothing was under the name
      rw [← taken, Function.update_eq_self] at named
      have devices : TableHolds DevId.qHash (⟨(s.tables kind).devices, byName⟩ : DeviceTables C).devices
          (fun id => (r.ids kind id).map some) (n + 1) := (holds.devices kind).mono (Nat.le_succ n)
      exact holds.set (Nat.le_succ n) devices (named.mono (Nat.le_succ n)) (holds.mono (Nat.le_succ n)).nodes rfl
        (Function.update_eq_self ..).symm (Function.update_eq_self ..).symm
  | some device =>
    obtain ⟨devices, removedId, tableId⟩ := (holds.devices kind).remove DevId.nonneg device.id
    have remove : removeCall DevId.qHash (s.tables kind).devices ⟨device.major, device.minor⟩ =
        some (((r.ids kind device.id).map some).isSome, devices) := by
      rw [removeCall, show (⟨device.major, device.minor⟩ : DevId) = device.id from rfl, removedId, Option.map_some]
    refine ⟨s.setTables kind ⟨devices, byName⟩, ?_, ?_⟩
    · simp only [Devices.unregister, take, taken, remove, Option.bind_eq_bind, Option.bind_some, Option.pure_def]
    · refine holds.set (Nat.le_succ n) ?_ (named.mono (Nat.le_succ n)) (holds.mono (Nat.le_succ n)).nodes rfl rfl rfl
      rw [← update_map]
      exact tableId.mono (Nat.le_succ n)

theorem Holds.step (holds : s.Holds r n) (room : n + 2 < 2 ^ 29) (event : DeviceEvent C) :
    ∃ s', s.step event = some s' ∧ s'.Holds (r.step event) (n + 1) := by
  cases event with
  | register kind device =>
    rw [step_register]
    exact holds.register room kind device
  | unregister kind name =>
    rw [step_unregister]
    exact holds.unregister kind name

theorem Holds.run (holds : s.Holds r n) (events : List (DeviceEvent C)) (room : n + events.length + 1 < 2 ^ 29) :
    ∃ s', s.run events = some s' ∧ s'.Holds (r.run events) (n + events.length) := by
  induction events generalizing s r n with
  | nil => exact ⟨s, rfl, holds⟩
  | cons event rest ih =>
    rw [List.length_cons] at room ⊢
    obtain ⟨next, stepped, after⟩ := holds.step (by omega) event
    obtain ⟨s', ran, final⟩ := ih after (by omega)
    refine ⟨s', ?_, ?_⟩
    · rw [Devices.run, stepped, Option.bind_some, ran]
    · rw [show n + (rest.length + 1) = n + 1 + rest.length by omega]
      exact final

/-! ## What a lookup gives -/

theorem mode_nodeInode (kind : DeviceKind) (dev : Word) :
    (DevFSNodes.nodeInode kind.mode dev).mode.setWidth 32 = kind.mode := by
  cases kind <;> rfl

theorem Holds.device_eq (holds : s.Holds r n) (kind : DeviceKind) (id : DevId) :
    s.device kind id.major id.minor = some (r.ids kind id) :=
  ((holds.devices kind).value DevId.nonneg id).trans (congrArg some (getD_map_some _))

theorem Holds.answer_eq (holds : s.Holds r n) (name : List Char) : s.answer name = r.given name := by
  obtain ⟨root, directory, places, nodes⟩ := holds.nodes
  have rootInode : DevFSNodes.inode s.inodes 1 = some root := by rw [DevFSNodes.inode, nodes.first, Option.getD_some]
  have isRoot : sIsdir (root.mode.setWidth 32) = true := by
    rw [nodes.mode]
    decide
  have place := nodes.table.value nameHash_nonneg name
  have named := nodes.named name
  unfold answer DevFSNodes.lookup DeviceRegistry.given
  simp only [rootInode, Option.bind_eq_bind, Option.bind_some, if_pos isRoot, nodes.names, place]
  cases held : r.nodes name with
  | none =>
    rw [held] at named
    rw [show places name = _ from named, Option.elim_none, DeviceRegistry.absent]
    by_cases special : name = TmpFS.dot ∨ name = dotDot
    · rw [if_pos special, if_pos special]
      have notDevice : sIschr (root.mode.setWidth 32) = false ∧ sIsblk (root.mode.setWidth 32) = false := by
        rw [nodes.mode]
        decide
      simp only [Option.getD_some, rootInode, Option.bind_some, notDevice, Option.pure_def]
      rw [if_neg (by decide), nodes.mode]
      rfl
    · rw [if_neg special, if_neg special]
      rfl
  | some node =>
    obtain ⟨kind, device⟩ := node
    rw [held] at named
    obtain ⟨id, behind, here, found⟩ := named
    have inode : DevFSNodes.inode s.inodes id = some (DevFSNodes.nodeInode kind.mode device.dev) := by
      rw [DevFSNodes.inode, found, Option.getD_some]
    have looked := holds.device_eq kind device.nodeId
    rw [here, Option.getD_some, if_neg (Nat.ne_of_gt (Nat.lt_of_succ_lt behind)), inode, Option.elim_some]
    simp only [Option.bind_some]
    rw [mode_nodeInode]
    cases kind with
    | char =>
      rw [if_pos (by decide)]
      have looked : CharDeviceManager.device s (device.dev >>> 16) (device.dev &&& 0xFFFF#32) =
        some (r.ids .char device.nodeId) := looked
      simp only [DevFSNodes.nodeInode, looked, Option.bind_some]
      cases r.ids .char device.nodeId <;> rfl
    | block =>
      rw [if_neg (by decide), if_pos (by decide)]
      have looked : BlockDeviceManager.device s (device.dev >>> 16) (device.dev &&& 0xFFFF#32) =
        some (r.ids .block device.nodeId) := looked
      simp only [DevFSNodes.nodeInode, looked, Option.bind_some]
      cases r.ids .block device.nodeId <;> rfl

end Devices

/-! ## Which lookups are right -/

namespace DeviceRegistry

variable {C : Type} {r : DeviceRegistry C}

/-- What stays true of the maps. -/
structure Tidy (r : DeviceRegistry C) : Prop where
  id : ∀ kind id device, r.ids kind id = some device → device.id = id
  name : ∀ kind name device, r.names kind name = some device → device.name = name ∧ r.ids kind device.id = some device
  held : ∀ name kind device, r.current name = some (kind, device) → r.names kind name = some device
  node : ∀ name node, r.current name = some node → r.nodes name = some node

theorem tidy_empty : (empty : DeviceRegistry C).Tidy where
  id _ _ _ found := by cases found
  name _ _ _ found := by cases found
  held _ _ _ found := by cases found
  node _ _ found := by cases found

/-- One map of a family is changed at one key. -/
theorem update_update {A B T : Type} [DecidableEq A] [DecidableEq B] (map : A → B → T) (a a' : A) (b b' : B)
    (value : T) :
    Function.update map a (Function.update (map a) b value) a' b' = if a' = a ∧ b' = b then value else map a' b' := by
  by_cases same : a' = a
  · rw [same, Function.update_self, Function.update_apply]
    simp only [true_and]
  · rw [Function.update_of_ne same, if_neg fun both => same both.1]

theorem Tidy.add (tidy : r.Tidy) {kind : DeviceKind} {device : Device C} (free : r.ids kind device.id = none) :
    (r.add kind device).Tidy where
  id other id found changed := by
    simp only [DeviceRegistry.add, update_update] at changed
    split at changed
    · rename_i here
      cases changed
      exact here.2.symm
    · exact tidy.id other id found changed
  name other name found changed := by
    simp only [DeviceRegistry.add, update_update] at changed ⊢
    split at changed
    · rename_i here
      cases changed
      exact ⟨here.2.symm, if_pos ⟨here.1, rfl⟩⟩
    · obtain ⟨named, held⟩ := tidy.name other name found changed
      refine ⟨named, ?_⟩
      rw [if_neg, held]
      rintro ⟨rfl, same⟩
      rw [same, free] at held
      cases held
  held name other found changed := by
    simp only [DeviceRegistry.add, update_update] at changed ⊢
    by_cases same : name = device.name
    · rw [same, Function.update_self] at changed
      cases changed
      exact if_pos ⟨rfl, same⟩
    · rw [Function.update_of_ne same] at changed
      rw [if_neg fun both => same both.2]
      exact tidy.held name other found changed
  node name found changed := by
    simp only [DeviceRegistry.add, Function.update_apply] at changed ⊢
    split
    · rename_i same
      rwa [if_pos same] at changed
    · rename_i other
      rw [if_neg other] at changed
      exact tidy.node name found changed

theorem Tidy.drop (tidy : r.Tidy) {kind : DeviceKind} {name : List Char} {device : Device C}
    (taken : r.names kind name = some device) : (r.drop kind name device).Tidy where
  id other id found changed := by
    simp only [DeviceRegistry.drop, update_update] at changed
    split at changed
    · cases changed
    · exact tidy.id other id found changed
  name other otherName found changed := by
    simp only [DeviceRegistry.drop, update_update] at changed ⊢
    split at changed
    · cases changed
    · rename_i elsewhere
      obtain ⟨named, held⟩ := tidy.name other otherName found changed
      refine ⟨named, ?_⟩
      rw [if_neg, held]
      -- two names of one kind have devices of different numbers
      rintro ⟨rfl, same⟩
      obtain ⟨ownName, own⟩ := tidy.name other name device taken
      rw [same, own] at held
      cases held
      exact elsewhere ⟨rfl, named.symm.trans ownName⟩
  held otherName other found changed := by
    simp only [DeviceRegistry.drop, update_update] at changed ⊢
    by_cases same : otherName = name
    · rw [same, Function.update_self, Option.filter_eq_some_iff] at changed
      have different : other ≠ kind := of_decide_eq_true changed.2
      rw [if_neg fun both => different both.1, same]
      exact tidy.held name other found changed.1
    · rw [Function.update_of_ne same] at changed
      rw [if_neg fun both => same both.2]
      exact tidy.held otherName other found changed
  node otherName found changed := by
    simp only [DeviceRegistry.drop] at changed ⊢
    by_cases same : otherName = name
    · rw [same, Function.update_self, Option.filter_eq_some_iff] at changed
      rw [same]
      exact tidy.node name found changed.1
    · rw [Function.update_of_ne same] at changed
      exact tidy.node otherName found changed

theorem Tidy.step (tidy : r.Tidy) (event : DeviceEvent C) : (r.step event).Tidy := by
  cases event with
  | register kind device =>
    cases device with
    | none => exact tidy
    | some device =>
      rw [DeviceRegistry.step]
      cases taken : r.ids kind device.id with
      | some other => exact tidy
      | none => exact tidy.add taken
  | unregister kind name =>
    rw [DeviceRegistry.step]
    cases taken : r.names kind name with
    | none => exact tidy
    | some device => exact tidy.drop taken

/-- The name has the node of what it should open, and no other. -/
def Shown (r : DeviceRegistry C) (name : List Char) : Prop :=
  r.nodes name = r.current name ∧ ∀ kind device, r.current name = some (kind, device) → device.nodeId = device.id

theorem given_iff (tidy : r.Tidy) (name : List Char) : r.given name = some (r.expected name) ↔ r.Shown name := by
  rw [given, expected, Shown]
  cases current : r.current name with
  | none =>
    cases node : r.nodes name with
    | none => simp
    | some held =>
      -- a device is found, or none, and never what is under a free name
      obtain ⟨kind, device⟩ := held
      have noDevice : absent name ≠ .ok (kind.mode, r.ids kind device.nodeId) ∨ r.ids kind device.nodeId = none := by
        cases r.ids kind device.nodeId with
        | none => exact .inr rfl
        | some found =>
          rw [absent]
          split
          · refine .inl fun same => ?_
            injection same with pair
            injection pair with _ second
            cases second
          · exact .inl fun same => by cases same
      cases found : r.ids kind device.nodeId with
      | none => simp [found]
      | some other =>
        rw [found] at noDevice
        simpa [found, eq_comm] using noDevice
  | some held =>
    obtain ⟨kind, device⟩ := held
    have own := (tidy.name kind name device (tidy.held name kind device current)).2
    rw [tidy.node name _ current]
    simp only [Option.elim_some, Option.map_eq_some_iff, true_and, Option.some.injEq, Prod.mk.injEq, Except.ok.injEq]
    constructor
    · rintro ⟨found, here, same⟩ _ _ ⟨rfl, rfl⟩
      rw [same] at here
      exact (tidy.id _ _ _ here).symm
    · intro fits
      exact ⟨device, by rw [fits kind device ⟨rfl, rfl⟩, own], rfl⟩

/-- One call leaves every name right just when it is allowed. -/
theorem shown_step_iff (tidy : r.Tidy) (shown : ∀ name, r.Shown name) (event : DeviceEvent C) :
    (∀ name, (r.step event).Shown name) ↔ r.Allows event := by
  cases event with
  | register kind device =>
    cases device with
    | none => exact iff_of_true shown trivial
    | some device =>
      rw [DeviceRegistry.step, Allows]
      cases taken : r.ids kind device.id with
      | some other => exact iff_of_true shown fun free => by cases free
      | none =>
        rw [Option.isSome_none, if_neg Bool.false_ne_true]
        constructor
        · intro after _
          have here := (after device.name).2 kind device
          simp only [DeviceRegistry.add, Function.update_self, true_implies] at here
          exact here
        · intro fits name
          rw [Shown]
          simp only [DeviceRegistry.add, Function.update_apply]
          split
          · refine ⟨rfl, fun _ _ same => ?_⟩
            cases same
            exact fits rfl
          · exact shown name
  | unregister kind name =>
    rw [DeviceRegistry.step, Allows]
    cases taken : r.names kind name with
    | none =>
      refine iff_of_true shown fun device current => ?_
      have held := tidy.held name kind device current
      rw [taken] at held
      cases held
    | some device =>
      rw [Option.elim_some]
      constructor
      · intro after other current
        have here := (after name).1
        have node := tidy.node name _ current
        simp only [DeviceRegistry.drop, Function.update_self, current, node] at here
        rw [Option.filter_some, if_neg (by simp)] at here
        cases here
      · intro others
        have kept : Function.update r.current name ((r.current name).filter (·.1 ≠ kind)) = r.current := by
          refine Function.update_eq_self_iff.mpr ?_
          cases current : r.current name with
          | none => rfl
          | some held =>
            have different : held.1 ≠ kind := by
              rintro rfl
              exact others held.2 current
            rw [Option.filter_some, if_pos (decide_eq_true different)]
        rw [show (r.drop kind name device).Shown = r.Shown from ?_]
        · exact shown
        · funext name
          rw [Shown, DeviceRegistry.drop, kept]
          rfl

theorem shown_run_iff (events : List (DeviceEvent C)) {r : DeviceRegistry C} (tidy : r.Tidy) :
    (∀ before, before <+: events → ∀ name, (r.run before).Shown name) ↔
      (∀ name, r.Shown name) ∧ r.AllowsAll events := by
  induction events generalizing r with
  | nil => simp [AllowsAll, DeviceRegistry.run]
  | cons event rest ih =>
    have split : (∀ before, before <+: event :: rest → ∀ name, (r.run before).Shown name) ↔
        (∀ name, r.Shown name) ∧ ∀ before, before <+: rest → ∀ name, ((r.step event).run before).Shown name := by
      constructor
      · intro always
        refine ⟨always [] List.nil_prefix, fun before early => always (event :: before) ?_⟩
        exact List.cons_prefix_cons.mpr ⟨rfl, early⟩
      · rintro ⟨now, later⟩ before early
        rcases List.prefix_cons_iff.mp early with rfl | ⟨behind, rfl, early'⟩
        · exact now
        · exact later behind early'
    rw [split, ih (tidy.step event), AllowsAll, ← and_assoc, ← and_assoc]
    refine and_congr_left fun _ => and_congr_right fun shown => shown_step_iff tidy shown event

end DeviceRegistry

namespace Devices

open DeviceRegistry

variable {C : Type}

/-- **Names of devices.** In every state of a run of registrations and removals, each name in the directory of the
devices opens the device registered last under it, or nothing when that was unregistered, if and only if no such device
was: the node stays, with the numbers of a device that is gone. A node has 16 bits of each number, so the devices that
were accepted must have no more. -/
theorem lookups_right_iff (events : List (DeviceEvent C)) (room : events.length + 1 < 2 ^ 29) :
    (∀ before, before <+: events → ∃ s : Devices C, init.run before = some s ∧
      ∀ name, s.answer name = some ((DeviceRegistry.empty.run before).expected name)) ↔
    DeviceRegistry.empty.AllowsAll events := by
  have start : ∀ name, (DeviceRegistry.empty : DeviceRegistry C).Shown name := fun name =>
    ⟨rfl, fun _ _ held => by cases held⟩
  rw [← and_iff_right start (b := empty.AllowsAll events), ← shown_run_iff events tidy_empty]
  refine forall₂_congr fun before early => ?_
  have short := early.length_le
  obtain ⟨s, ran, holds⟩ := holds_init.run before (by omega)
  have tidy : (DeviceRegistry.empty.run before : DeviceRegistry C).Tidy := by
    rw [DeviceRegistry.run]
    exact List.foldlRecOn before _ tidy_empty fun _ tidy event _ => tidy.step event
  constructor
  · rintro ⟨s', ran', right⟩ name
    cases ran.symm.trans ran'
    rw [← given_iff tidy, ← holds.answer_eq]
    exact right name
  · intro shown
    refine ⟨s, ran, fun name => ?_⟩
    rw [holds.answer_eq, (given_iff tidy name).mpr (shown name)]

/-- The devices of a boot with a disk in memory, registered once more for the second part of it. -/
def bootDevices : List (DeviceEvent Unit) :=
  [.register .char (some ⟨7#32, 1#32, "null".toList, ()⟩), .register .block (some ⟨0#32, 0#32, "ramd0".toList, ()⟩),
    .register .block none, .register .block (some ⟨0#32, 0#32, "ramd1".toList, ()⟩)]

theorem bootDevices_lookups : DeviceRegistry.empty.AllowsAll bootDevices ∧
    ∀ before, before <+: bootDevices → ∃ s : Devices Unit, init.run before = some s ∧
      ∀ name, s.answer name = some ((DeviceRegistry.empty.run before).expected name) := by
  have allowed : DeviceRegistry.empty.AllowsAll bootDevices :=
    ⟨fun _ => by decide, fun _ => by decide, trivial, fun _ => by decide, trivial⟩
  exact ⟨allowed, (lookups_right_iff bootDevices (by decide)).mpr allowed⟩

/-- A device that a name opens is unregistered: the next lookup of the name goes through a null pointer. -/
theorem lookup_unregistered {s : Devices C} {r : DeviceRegistry C} {n : Nat} (holds : s.Holds r n) (tidy : r.Tidy)
    {name : List Char} {kind : DeviceKind} {device : Device C} (current : r.current name = some (kind, device))
    (fits : device.nodeId = device.id) :
    ∃ s', s.step (.unregister kind name) = some s' ∧ s'.answer name = none := by
  obtain ⟨s', done, after⟩ := holds.unregister kind name
  refine ⟨s', (step_unregister s kind name).trans done, ?_⟩
  rw [after.answer_eq, DeviceRegistry.step, tidy.held name kind device current, Option.elim_some, given]
  have node : (r.drop kind name device).nodes name = some (kind, device) := tidy.node name _ current
  have gone : (r.drop kind name device).ids kind device.nodeId = none := by
    rw [fits]
    simp only [DeviceRegistry.drop, Function.update_self]
  rw [node, Option.elim_some]
  simp only [gone, Option.map_none]

end Devices

end FluxOS
