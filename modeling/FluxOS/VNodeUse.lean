import FluxOS.FileCreation
import FluxOS.MemoryUAPI

/-! The calls on files and processes, with every vnode reference they take and
put. The tables are changed as the other models of these calls change them; the
counts are what is added here. -/
namespace FluxOS
open Words LinkedPointers

def exdev : Nat := 18

/-- The system, with `refCount` of every vnode. -/
structure VNodeUse where
  system : System
  refCount : VNode → Int

/-- What the file systems and the kernel heap answer during one call. A lookup or an
unlink that fails has taken no reference: ext2's own keep one where `readInode` gets no
memory. `mountId` and `renameOf` (the address of its file system's `rename`) are read
from a vnode. -/
structure Surroundings where
  tree : FileTree
  heap : KernelHeap
  creat : FSUAPI.Creat
  type : VNode → Except Int Word
  stat : VNode → Int
  utime : VNode → Int
  chown : VNode → Word → Word → Int
  unlink : VNode → List Char → Int
  mkdir : VNode → List Char → Word → Int
  mknod : VNode → List Char → Word → Word → Int
  link : VNode → VNode → List Char → Int
  rename : VNode → List Char → VNode → List Char → Int
  mountId : VNode → Nat
  renameOf : VNode → Nat

namespace VNodeUse
open FSUAPI VFS ListWithHoles

section Resolving

variable (around : Surroundings) (process : ProcessControlBlock)

/-- `RelativePathToVnode` from the working directory. -/
def resolve (path : List Char) (traverseLeafLink : Bool) : Resolved × Effects :=
  relativePathToVnode around.tree around.heap (some process.currentWorkingDirNode) path traverseLeafLink

def split (path : List Char) (e : Effects) : Split × Effects :=
  pathToParentAndName around.tree around.heap process.currentWorkingDirNode path e

/-- The calls that resolve a path and go on with its node. -/
def withNode (pathname : UserString) (traverseLeafLink : Bool) (onward : VNode → Effects → Int × Effects) :
    Int × Effects :=
  match pathname with
  | none => (-efault, Effects.none)
  | some path =>
    match resolve around process path traverseLeafLink with
    | (.failed result _, e) => (result, e)
    | (.found node, e) => onward node e

def stat (path : UserString) (bufWritable : Bool) : Int × Effects :=
  withNode around process path true fun node e =>
    let result := around.stat node
    let e := e.put node
    if result < 0 then (result, e) else if bufWritable then (result, e) else (-efault, e)

/-- A buffer that cannot be read is noticed with the node in hand. -/
def utime (filename : UserString) (bufReadable : Bool) : Int × Effects :=
  withNode around process filename false fun node e =>
    if bufReadable then (around.utime node, e.put node) else (-efault, e)

/-- `chown` puts the node; `lchown` does not. -/
def lchown (path : UserString) (owner group : Word) : Int × Effects :=
  withNode around process path false fun node e => (around.chown node owner group, e)

/-- The calls that change an entry of a directory. An invalid name is noticed with the
directory in hand. -/
def withParent (pathname : UserString) (operation : VNode → List Char → Int) : Int × Effects :=
  match pathname with
  | none => (-efault, Effects.none)
  | some path =>
    match split around process path Effects.none with
    | (.failed result _, e) => (result, e)
    | (.into node name, e) =>
      let result := isValidUserFileName name
      if result < 0 then (result, e) else (operation node name, e.put node)

def unlink (pathname : UserString) : Int × Effects := withParent around process pathname around.unlink

def mkdir (pathname : UserString) (mode : Word) : Int × Effects :=
  withParent around process pathname fun node name => around.mkdir node name mode

def mknod (pathname : UserString) (mode dev : Word) : Int × Effects :=
  withParent around process pathname fun node name => around.mknod node name mode dev

def rename (oldpath newpath : UserString) : Int × Effects :=
  match oldpath, newpath with
  | some oldPath, some newPath =>
    match split around process oldPath Effects.none with
    | (.failed result _, e) => (result, e)
    | (.into oldNode oldName, e) =>
      let result := isValidUserFileName oldName
      if result < 0 then (result, e)
      else
        match split around process newPath e with
        | (.failed result _, e) => (result, e.put oldNode)
        | (.into newNode newName, e) =>
          let result := isValidUserFileName newName
          if result < 0 then (result, e)
          else
            let sameMount := around.mountId oldNode = around.mountId newNode ∧
              around.renameOf oldNode = around.renameOf newNode
            let result := if sameMount then around.rename oldNode oldName newNode newName else -exdev
            (result, (e.put oldNode).put newNode)
  | _, _ => (-efault, Effects.none)

/-- The new name is not checked. -/
def link (oldpath newpath : UserString) : Int × Effects :=
  match newpath with
  | none => (-efault, Effects.none)
  | some newPath =>
    withNode around process oldpath false fun oldNode e =>
      match split around process newPath e with
      | (.failed result _, e) => (result, e.put oldNode)
      | (.into node name, e) => (around.link node oldNode name, (e.put oldNode).put node)

end Resolving

section Changing

variable (around : Surroundings) (process : ProcessControlBlock)

/-- The process with another working directory. The old one is not put. -/
def setDirectory (node : VNode) : ProcessControlBlock := { process with currentWorkingDirNode := node }

def setFiles (files : OpenFiles) : ProcessControlBlock := { process with openFiles := files }

def chdir (path : UserString) : ProcessControlBlock × Int × Effects :=
  match path with
  | none => (process, -efault, Effects.none)
  | some path =>
    match resolve around process path true with
    | (.failed result _, e) => (process, result, e)
    | (.found node, e) =>
      match around.type node with
      | .error retVal => (process, retVal, e.put node)
      | .ok type =>
        if type &&& sIfdir = 0#32 then (process, -enotdir, e.put node) else (setDirectory process node, 0, e)

def fchdir (fd : Int) : ProcessControlBlock × Int × Effects :=
  match descriptor process.openFiles fd with
  | none => (process, -ebadf, Effects.none)
  | some fdesc =>
    match around.type fdesc.node with
    | .error retVal => (process, retVal, Effects.none)
    | .ok type =>
      if type &&& sIfdir = 0#32 then (process, -enotdir, Effects.none)
      else (setDirectory process fdesc.node, 0, Effects.none.reference fdesc.node)

/-- The table as `openAtVNode` has it, where a descriptor may be without a vnode. -/
def openNodes (files : OpenFiles) : OpenNodes := files.map (Option.map fun fdesc => (.node fdesc.node, fdesc.flags))

/-- `open`. There is no result where the new descriptor is without a vnode. -/
def openFile (pathname : UserString) (flags : Word) : Option (ProcessControlBlock × Int × Effects) :=
  let cwd := process.currentWorkingDirNode
  match openAtVNode around.tree around.heap around.creat cwd cwd pathname flags (openNodes process.openFiles) with
  | (.refused error, _, _, e) => some (process, error, e)
  | (.opened (.node node) _, _, _, e) =>
    let (files, fd) := openNode process.openFiles node flags
    some (setFiles process files, fd, e)
  | (.opened _ _, _, _, _) => none

/-- The table of open files and the new number are those that `openAtVNode` leaves. -/
theorem openFile_table {pathname : UserString} {flags : Word} {left : ProcessControlBlock × Int × Effects}
    (opened : openFile around process pathname flags = some left) :
    ∃ ending tree, openAtVNode around.tree around.heap around.creat process.currentWorkingDirNode
        process.currentWorkingDirNode pathname flags (openNodes process.openFiles) =
      (ending, openNodes left.1.openFiles, tree, left.2.2) ∧
      ∀ node fd, ending = .opened node fd → left.2.1 = fd := by
  unfold openFile at opened
  simp only at opened
  have same := openAtVNode_table around.tree around.heap around.creat process.currentWorkingDirNode
    process.currentWorkingDirNode pathname flags (openNodes process.openFiles)
  revert opened same
  rcases openAtVNode around.tree around.heap around.creat process.currentWorkingDirNode
    process.currentWorkingDirNode pathname flags (openNodes process.openFiles) with ⟨ending, files, tree, e⟩
  intro opened same
  cases ending with
  | refused error =>
    cases opened
    cases same
    exact ⟨_, _, rfl, fun node fd no => by cases no⟩
  | opened slot fd =>
    cases slot with
    | uninitialised => cases opened
    | null => cases opened
    | node vnode =>
      cases opened
      have moved := add_map (fun fdesc : FileDescriptor => (NodeSlot.node fdesc.node, fdesc.flags)) process.openFiles
        ⟨vnode, 0, flags⟩
      cases moved.symm.trans same
      refine ⟨_, _, rfl, ?_⟩
      rintro node fd ⟨⟩
      rfl

/-- The reference a descriptor has to its vnode. -/
def descriptorNode (fd : Int) : Option VNode := (descriptor process.openFiles fd).map fun fdesc => fdesc.node

def close (fd : Int) : ProcessControlBlock × Int × Effects :=
  let (files, result) := closePB process.openFiles fd
  (setFiles process files, result, (descriptorNode process fd).elim Effects.none Effects.none.put)

def dup (oldfd : Int) : ProcessControlBlock × Int × Effects :=
  let (files, result) := FSUAPI.dup process.openFiles oldfd
  (setFiles process files, result, (descriptorNode process oldfd).elim Effects.none Effects.none.reference)

/-- `dup3`. There is no result where it writes past the end of the table. -/
def dup3 (oldfd newfd : Int) (flags : Word) : Option (ProcessControlBlock × Int × Effects) :=
  (FSUAPI.dup3 process.openFiles oldfd newfd flags).map fun (files, result) =>
    let e :=
      if newfd < 0 ∨ newfd = oldfd then Effects.none
      else
        match descriptorNode process oldfd with
        | none => Effects.none
        | some node => ((descriptorNode process newfd).elim Effects.none Effects.none.put).reference node
    (setFiles process files, result, e)

/-- `mmap`. `mapFileSegmentToMemory` references the node of the file once it has found
a place for it. -/
def mmap (fuel : Nat) (addr length prot flags : Word) (fd : Int) (offset : Word) :
    Option (ProcessControlBlock × Int × Effects) :=
  (MemoryUAPI.mmap fuel process addr length prot flags fd offset).map fun (after, address) =>
    let sharing := flags &&& (MemoryUAPI.mapPrivate ||| MemoryUAPI.mapShared)
    let e :=
      if sharing = MemoryUAPI.mapPrivate ||| MemoryUAPI.mapShared ∨ sharing = 0#32 ∨ length = 0#32 then Effects.none
      else if has flags MemoryUAPI.mapAnonymous then Effects.none
      else
        match descriptorNode process fd, process.memoryContext.findEmptyMemoryExtent fuel addr length .fixedHint with
        | some node, some (_, foundBaseAddr) =>
          if foundBaseAddr = 0#32 then Effects.none else Effects.none.reference node
        | _, _ => Effects.none
    (after, address.toInt, e)

end Changing

/-- One round of the loop of `NewProcess` over the parent's descriptors. -/
def referenceFile (e : Effects) (oldFd : Option FileDescriptor) : Effects :=
  match oldFd with
  | some oldFd => e.reference oldFd.node
  | none => e

/-- What `NewProcess` references: the node of each open file, and the working directory. -/
def forkReferences (parent : ProcessControlBlock) : Effects :=
  (parent.openFiles.foldl referenceFile Effects.none).reference parent.currentWorkingDirNode

/-- What `releaseDescriptor` puts. -/
def putMapping (e : Effects) (descriptor : MemoryDescriptor) : Effects :=
  match descriptor.kind with
  | .memoryMappedFile node _ => e.put node
  | _ => e

/-- One round of `closeAllFiles` in the process itself. -/
def putFile (state : OpenFiles × Effects) (i : Nat) : OpenFiles × Effects :=
  let (files, e) := state
  match entry files i with
  | some fdesc => ((closePB files i).1, e.put fdesc.node)
  | none => (files, e)

/-- What `terminateProcess` puts: the mapped files, the open files, and the working directory. -/
def exitReferences (process : ProcessControlBlock) : Effects :=
  let e := process.memoryContext.descriptors.reverse.foldl putMapping Effects.none
  let (_, e) := (List.range process.openFiles.length).foldl putFile (process.openFiles, e)
  e.put process.currentWorkingDirNode

inductive Call where
  | openFile (pathname : UserString) (flags : Word)
  | close (fd : Int)
  | dup (oldfd : Int)
  | dup3 (oldfd newfd : Int) (flags : Word)
  | chdir (path : UserString)
  | fchdir (fd : Int)
  | stat (path : UserString) (bufWritable : Bool)
  | utime (filename : UserString) (bufReadable : Bool)
  | unlink (pathname : UserString)
  | mkdir (pathname : UserString) (mode : Word)
  | mknod (pathname : UserString) (mode dev : Word)
  | rename (oldpath newpath : UserString)
  | link (oldpath newpath : UserString)
  | lchown (path : UserString) (owner group : Word)
  | mmap (fuel : Nat) (addr length prot flags : Word) (fd : Int) (offset : Word)
  | fork (forkThread : Int) (raw : ProcessControlBlock) (newPD : Word)
  | exit (exitStatus : Int)

/-- `spoiled`: a descriptor is without a vnode, or a table has been written past its end. -/
inductive Outcome where
  | returned (s : VNodeUse) (result : Int)
  | noReturn
  | spoiled

/-- The call has changed its own process only. -/
def finish (s : VNodeUse) (caller : Nat) (left : ProcessControlBlock × Int × Effects) : Outcome :=
  .returned ⟨s.system.setProcess caller left.1, s.refCount + left.2.2.references⟩ left.2.1

/-- A call of the process `caller`. Nothing returns to a process that exits: its result is
the state it leaves. -/
def perform (around : Surroundings) (s : VNodeUse) (caller : Nat) (call : Call) : Outcome :=
  match s.system.processes caller with
  | none => .noReturn
  | some process =>
    match call with
    | .openFile pathname flags => (openFile around process pathname flags).elim .spoiled (s.finish caller)
    | .close fd => s.finish caller (close process fd)
    | .dup oldfd => s.finish caller (dup process oldfd)
    | .dup3 oldfd newfd flags => (dup3 process oldfd newfd flags).elim .spoiled (s.finish caller)
    | .chdir path => s.finish caller (chdir around process path)
    | .fchdir fd => s.finish caller (fchdir around process fd)
    | .stat path bufWritable => s.finish caller (process, stat around process path bufWritable)
    | .utime filename bufReadable => s.finish caller (process, utime around process filename bufReadable)
    | .unlink pathname => s.finish caller (process, unlink around process pathname)
    | .mkdir pathname mode => s.finish caller (process, mkdir around process pathname mode)
    | .mknod pathname mode dev => s.finish caller (process, mknod around process pathname mode dev)
    | .rename oldpath newpath => s.finish caller (process, rename around process oldpath newpath)
    | .link oldpath newpath => s.finish caller (process, link around process oldpath newpath)
    | .lchown path owner group => s.finish caller (process, lchown around process path owner group)
    | .mmap fuel addr length prot flags fd offset =>
      (mmap process fuel addr length prot flags fd offset).elim .noReturn (s.finish caller)
    | .fork forkThread raw newPD =>
      if forkThread < 0 then .returned s forkThread
      else
        match ProcessUAPI.fork s.system caller raw newPD with
        | none => .noReturn
        | some (system, pid) => .returned ⟨system, s.refCount + (forkReferences process).references⟩ pid
    | .exit exitStatus =>
      match ProcessUAPI.exit s.system caller exitStatus with
      | none => .noReturn
      | some system => .returned ⟨system, s.refCount + (exitReferences process).references⟩ exitStatus

/-- The state after `CreateNewTask` has made the first process: the terminal's vnode is
resolved once and referenced twice more, and the root is resolved. -/
def boot (physicalMM : PhysicalMM) (tables : Nat → Nat → Word) (mountLinks : VNode → Int) (ttyNode cwdNode : VNode)
    (raw : ProcessControlBlock) : VNodeUse where
  system := ⟨physicalMM, tables, Function.update (fun _ => none) 1 (some (Task.createNewTask 1 ttyNode cwdNode raw)), 1⟩
  refCount := mountLinks +
    ((((Effects.none.reference ttyNode).reference ttyNode).reference ttyNode).reference cwdNode).references

end VNodeUse

end FluxOS
