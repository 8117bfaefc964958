import FluxOS.PathMeaning
import FluxOS.Ext2

/-! `VFS::Mount` and `VFS::Umount`: a file system is put in front of a directory, and taken away. -/
namespace FluxOS
open Words LinkedPointers

def enodev : Nat := 19

/-- The nodes, with the mounts they belong to and what the file systems answer about them.
A mount is known by its address. -/
structure VFSState where
  rootNode : Option VNode
  mountOf : VNode → Nat
  mounts : Nat → FSMount
  coveredBy : VNode → Option VNode
  lookup : VNode → List Char → Except Int (VNode × Word)
  readlink : VNode → Except Int (List Char)
  refCount : VNode → Int
  firstFreeMntID : Word

/-- `FileSystemInfo`: `mount` gets the address of the mount and its id. There is no result where it
uses a null pointer. -/
structure FileSystemInfo where
  mount : Nat → Word → Option Disk → VFSState → Option (Int × VFSState)

/-- What a call of `Mount` finds: the registered file systems, the devices, the heap, and what
`new FSMount` gives. -/
structure MountEnvironment where
  fileSystems : List Char → Option FileSystemInfo
  device : List Char → Option Disk
  heap : KernelHeap
  newMount : Option Nat

namespace VFSState

/-- What a resolution looks at. -/
def tree (state : VFSState) (root : VNode) : FileTree where
  rootNode := root
  mount node := state.mounts (state.mountOf node)
  coveredBy := state.coveredBy
  lookup := state.lookup
  readlink := state.readlink

/-- `RelativePathToVnode` without a node to start from. There is no result where a missing root
would be referenced. -/
def resolve (state : VFSState) (heap : KernelHeap) (path : List Char) : Option (Resolved × Effects) :=
  match state.rootNode with
  | some root => some (VFS.relativePathToVnode (state.tree root) heap none path true)
  | none =>
    if path.head? = some '/' ∧ heap.grants 0 then none
    else some (VFS.relativePathToVnode (state.tree 0) heap none path true)

/-- The references of a resolution are taken. -/
def charge (state : VFSState) (e : Effects) : VFSState :=
  { state with refCount := state.refCount + e.references }

def put (state : VFSState) (node : VNode) : VFSState :=
  { state with refCount := state.refCount - points (some node) }

/-- `coversVNode` of a mount. -/
def setCovers (state : VFSState) (fsmount : Nat) (covers : Option VNode) : VFSState :=
  { state with mounts := Function.update state.mounts fsmount { state.mounts fsmount with coversVNode := covers } }

end VFSState

namespace VFS
open VFSState

/-- The text in front of the name of a device. -/
def devPrefix : List Char := ['/', 'd', 'e', 'v', '/']

/-- `fsinfo->mount`, with the device that the source names: the error where there is no such device. -/
def callMount (env : MountEnvironment) (info : FileSystemInfo) (source : List Char) (fsmount : Nat) (state : VFSState) :
    Except Int (Option (Int × VFSState)) :=
  if source.take 5 = devPrefix then
    match env.device (source.drop 5) with
    | none => .error (-enoent)
    | some blkDev => .ok (info.mount fsmount state.firstFreeMntID (some blkDev) state)
  else .ok (info.mount fsmount state.firstFreeMntID none state)

/-- The first mount. What `fsinfo->mount` returns is not looked at. -/
def mountRoot (env : MountEnvironment) (info : FileSystemInfo) (source : List Char) (state : VFSState) :
    Option (Int × VFSState) :=
  match env.newMount with
  | none => some (-enomem, state)
  | some fsmount =>
    match callMount env info source fsmount state with
    | .error code => some (code, state)
    | .ok called => called.map fun (_, state) =>
      let state := { state with rootNode := some (state.mounts fsmount).fsRootVNode }
      let state := state.setCovers fsmount none
      (0, { state with firstFreeMntID := state.firstFreeMntID + 1#32 })

/-- A mount on a node. -/
def mountOn (env : MountEnvironment) (info : FileSystemInfo) (source : List Char) (mntnode : VNode) (state : VFSState) :
    Option (Int × VFSState) :=
  match env.newMount with
  | none => some (-enomem, state)
  | some fsmount =>
    match callMount env info source fsmount state with
    | .error code => some (code, state)
    | .ok called => called.map fun (_, state) =>
      let state := { state with
        coveredBy := Function.update state.coveredBy mntnode (some (state.mounts fsmount).fsRootVNode) }
      let state := state.setCovers fsmount (some mntnode)
      (0, { state with firstFreeMntID := state.firstFreeMntID + 1#32 })

/-- `Mount`. -/
def mount (env : MountEnvironment) (source mountpoint fstype : List Char) (state : VFSState) : Option (Int × VFSState) :=
  match env.fileSystems fstype with
  | none => some (-enodev, state)
  | some info =>
    match state.rootNode with
    | none => if mountpoint = ['/'] then mountRoot env info source state else some (-1, state)
    | some _ =>
      (state.resolve env.heap mountpoint).bind fun
        | (.failed code _, e) => some (code, state.charge e)
        | (.found mntnode, e) => mountOn env info source mntnode (state.charge e)

/-- `Umount`; `umountOp` is that of the file system. -/
def umount (umountOp : VNode → VFSState → Int × VFSState) (heap : KernelHeap) (mountpoint : List Char) (state : VFSState) :
    Option (Int × VFSState) :=
  (state.resolve heap mountpoint).map fun
    | (.failed code _, e) => (code, state.charge e)
    | (.found node, e) =>
      let state := state.charge e
      let state := match (state.mounts (state.mountOf node)).coversVNode with
        | some coversVNode => state.put coversVNode
        | none => state
      let (retVal, state) := umountOp node state
      if retVal < 0 then (retVal, state.put node)
      else
        let state := (state.put node).put node
        (0, { state with rootNode := if state.rootNode = some node then none else state.rootNode })

/-! ## When the file system refuses -/

section Failure

variable (env : MountEnvironment) (source mountpoint fstype : List Char) (state : VFSState)

/-- What `fsinfo->mount` returns, where there is memory for a mount and the device exists. -/
def calledWith (info : FileSystemInfo) (state : VFSState) : Option (Int × VFSState) :=
  env.newMount.bind fun fsmount =>
    match callMount env info source fsmount state with
    | .error _ => none
    | .ok called => called

/-- What `fsinfo->mount` returns when `Mount` comes to call it. -/
def mountCalled : Option (Int × VFSState) :=
  (env.fileSystems fstype).bind fun info =>
    match state.rootNode with
    | none => if mountpoint = ['/'] then calledWith env source info state else none
    | some _ =>
      (state.resolve env.heap mountpoint).bind fun
        | (.failed _ _, _) => none
        | (.found _, e) => calledWith env source info (state.charge e)

/-- The mount operation of the file system is called, and fails. -/
def MountFails : Prop := ∃ code after, mountCalled env source mountpoint fstype state = some (code, after) ∧ code < 0

/-- If the mount operation fails, so does `Mount`, and leaves everything as it was. -/
def AtomicOnFailure : Prop :=
  MountFails env source mountpoint fstype state →
    ∃ code after, mount env source mountpoint fstype state = some (code, after) ∧ code < 0 ∧
      after.rootNode = state.rootNode ∧ after.coveredBy = state.coveredBy ∧
      after.firstFreeMntID = state.firstFreeMntID ∧ after.refCount = state.refCount

variable {env source mountpoint fstype state}

theorem calledWith_eq_some {info : FileSystemInfo} {called : Int × VFSState}
    (run : calledWith env source info state = some called) : ∃ fsmount, env.newMount = some fsmount ∧
      callMount env info source fsmount state = .ok (some called) := by
  obtain ⟨fsmount, granted, run⟩ := Option.bind_eq_some_iff.mp run
  refine ⟨fsmount, granted, ?_⟩
  cases answer : callMount env info source fsmount state with
  | error code =>
    rw [answer] at run
    cases run
  | ok result =>
    rw [answer] at run
    exact congrArg Except.ok run

/-- Whatever the mount operation returns, `Mount` returns 0, and the mount is linked. -/
theorem mount_of_called {called : Int × VFSState}
    (run : mountCalled env source mountpoint fstype state = some called) :
    ∃ after, mount env source mountpoint fstype state = some (0, after) := by
  obtain ⟨info, registered, run⟩ := Option.bind_eq_some_iff.mp run
  rw [mount, registered]
  cases root : state.rootNode with
  | none =>
    rw [root] at run
    dsimp only at run ⊢
    split at run
    · rename_i first
      obtain ⟨fsmount, granted, answer⟩ := calledWith_eq_some run
      rw [if_pos first, mountRoot, granted]
      simp only [answer, Option.map_some]
      exact ⟨_, rfl⟩
    · cases run
  | some node =>
    rw [root] at run
    dsimp only at run ⊢
    obtain ⟨⟨resolved, e⟩, resolution, run⟩ := Option.bind_eq_some_iff.mp run
    rw [resolution, Option.bind_some]
    cases resolved with
    | failed code cleared => cases run
    | found mntnode =>
      obtain ⟨fsmount, granted, answer⟩ := calledWith_eq_some run
      dsimp only
      rw [mountOn, granted]
      simp only [answer, Option.map_some]
      exact ⟨_, rfl⟩

/-- `Mount` is atomic on failure exactly where the mount operation does not fail. -/
theorem mount_atomic_iff (env : MountEnvironment) (source mountpoint fstype : List Char) (state : VFSState) :
    AtomicOnFailure env source mountpoint fstype state ↔ ¬ MountFails env source mountpoint fstype state := by
  constructor
  · intro atomic fails
    obtain ⟨code, after, run, negative, _⟩ := atomic fails
    obtain ⟨called, _, answer, _⟩ := fails
    obtain ⟨after', zero⟩ := mount_of_called answer
    rw [zero] at run
    cases run
    exact absurd negative (by decide)
  · exact fun succeeds fails => absurd fails succeeds

/-- `Ext2::Mount` as the file system's operation; `rootVNode` is the node `GetVnode` gives for the inode 2. -/
def ext2Info (heap : DirtyHeap) (request : Nat) (rootVNode : Word → VNode) : FileSystemInfo where
  mount fsmount mountId device state := device.bind fun disk =>
    (Ext2.mount disk heap request).map fun
      | .error code => (code, state)
      | .ok _ =>
        let root := rootVNode mountId
        (0, { state with
          mountOf := Function.update state.mountOf root fsmount
          mounts := Function.update state.mounts fsmount { state.mounts fsmount with fsRootVNode := root }
          refCount := state.refCount + points (some root) })

/-- The root file system with a directory `m`. -/
def plainState : VFSState where
  rootNode := some 0
  mountOf _ := 1
  mounts _ := ⟨0, none⟩
  coveredBy _ := none
  lookup dir name :=
    if dir = 0 ∧ name = ['m'] then .ok (1, sIfdir)
    else if dir = 1 ∧ name = dotDot then .ok (0, sIfdir)
    else .error (-enoent)
  readlink _ := .error (-einval)
  refCount _ := 1
  firstFreeMntID := 1#32

/-- One device that holds zeros, and memory. -/
def blankDevice : MountEnvironment where
  fileSystems fstype :=
    if fstype = ['e', 'x', 't', '2'] then some (ext2Info ⟨fun _ => true, fun _ _ => 0#8⟩ 0 fun _ => 10) else none
  device name := if name = ['d'] then some fun _ => 0#8 else none
  heap := clearHeap
  newMount := some 2

/-- A device without the magic of the file system is mounted on `/m` nonetheless. -/
theorem blank_device_mounted :
    MountFails blankDevice ['/', 'd', 'e', 'v', '/', 'd'] ['/', 'm'] ['e', 'x', 't', '2'] plainState ∧
    ¬ AtomicOnFailure blankDevice ['/', 'd', 'e', 'v', '/', 'd'] ['/', 'm'] ['e', 'x', 't', '2'] plainState := by
  have refused : (mountCalled blankDevice ['/', 'd', 'e', 'v', '/', 'd'] ['/', 'm'] ['e', 'x', 't', '2']
      plainState).map (·.1) = some (-(einval : Int)) := by decide
  obtain ⟨⟨code, after⟩, called, failed⟩ := Option.map_eq_some_iff.mp refused
  have fails : MountFails blankDevice ['/', 'd', 'e', 'v', '/', 'd'] ['/', 'm'] ['e', 'x', 't', '2'] plainState :=
    ⟨code, after, called, by rw [show code = -(einval : Int) from failed]; decide⟩
  refine ⟨fails, fun atomic => ?_⟩
  obtain ⟨code', after', run, negative, _⟩ := atomic fails
  obtain ⟨final, zero⟩ := mount_of_called called
  rw [zero] at run
  cases run
  exact absurd negative (by decide)

end Failure

end VFS
end FluxOS
