import FluxOS.FSUAPI

/-! Processes, and the calls that make and end them: `Task`, and `fork`, `kill`
and `exit` of `ProcessUAPI`. -/
namespace FluxOS
open Words

inductive TaskStatus where
  | notStarted
  | ready
  | waiting
  | sleeping
  | running
  | terminated
  deriving DecidableEq, Repr

/-- A process. `addressSpaceTable` is the page directory of its main thread. -/
structure ProcessControlBlock where
  pid : Nat
  uid : Nat
  euid : Nat
  gid : Nat
  egid : Nat
  pgid : Nat
  sid : Nat
  status : TaskStatus
  exitStatus : Int
  parent : Option Nat
  addressSpaceTable : Nat → Word
  memoryContext : MemoryContext
  dataSegmentStart : Word
  dataSegmentEnd : Word
  openFiles : OpenFiles
  currentWorkingDirNode : VNode
  umask : Nat

/-- A process whose every field is zero, as fresh memory may read. -/
instance : Inhabited ProcessControlBlock where
  default :=
    { pid := 0, uid := 0, euid := 0, gid := 0, egid := 0, pgid := 0, sid := 0, status := .notStarted, exitStatus := 0
      parent := none, addressSpaceTable := fun _ => 0#32, memoryContext := MemoryContext.new
      dataSegmentStart := 0#32, dataSegmentEnd := 0#32, openFiles := [], currentWorkingDirNode := 0, umask := 0 }

/-- The page bitmap, the page tables and the table of processes. `lastUsedPID` is an `int`
in the source, which has room for `2 ^ 31 - 2` forks. -/
structure System where
  physicalMM : PhysicalMM
  tables : Nat → Nat → Word
  processes : Nat → Option ProcessControlBlock
  lastUsedPID : Nat

namespace System

/-- The page tables with a directory loaded. -/
def paging (s : System) (dir : Nat → Word) : Paging := ⟨s.physicalMM, s.tables, dir⟩

def setProcess (s : System) (pid : Nat) (process : ProcessControlBlock) : System :=
  { s with processes := Function.update s.processes pid (some process) }

/-- What the process with the loaded directory left of the page tables. -/
def storePaging (s : System) (pid : Nat) (process : ProcessControlBlock) (p : Paging) : System :=
  { s with physicalMM := p.physicalMM, tables := p.tables }.setProcess pid
    { process with addressSpaceTable := p.pageDir }

@[simp] theorem processes_setProcess_self (s : System) (pid : Nat) (process : ProcessControlBlock) :
    (s.setProcess pid process).processes pid = some process := Function.update_self _ _ _

theorem processes_setProcess_of_ne {pid q : Nat} (other : q ≠ pid) (s : System) (process : ProcessControlBlock) :
    (s.setProcess pid process).processes q = s.processes q := Function.update_of_ne other _ _

theorem setProcess_self {s : System} {pid : Nat} {process : ProcessControlBlock}
    (found : s.processes pid = some process) : s.setProcess pid process = s := by
  rw [setProcess, ← found, Function.update_eq_self]

theorem setProcess_setProcess (s : System) (pid : Nat) (first second : ProcessControlBlock) :
    (s.setProcess pid first).setProcess pid second = s.setProcess pid second := by
  simp only [setProcess, Function.update_idem]

end System

namespace Task
open ListWithHoles

/-- `CreateNewTask`, which makes the first process, with the nodes that its
terminal and the root directory were found at. -/
def createNewTask (pid : Nat) (ttyNode cwdNode : VNode) (raw : ProcessControlBlock) : ProcessControlBlock :=
  { raw with
    pid := pid
    uid := 0
    euid := 0
    gid := 0
    egid := 0
    pgid := 0
    sid := 0
    parent := none
    memoryContext := MemoryContext.new
    dataSegmentStart := 0#32
    openFiles :=
      let (files, _) := add [] ⟨ttyNode, 0, FSUAPI.oRdonly⟩
      let (files, _) := add files ⟨ttyNode, 0, FSUAPI.oWronly⟩
      (add files ⟨ttyNode, 0, FSUAPI.oWronly⟩).1
    currentWorkingDirNode := cwdNode
    umask := 0
    status := .ready }

/-- The loop of `NewProcess` over the parent's descriptors. -/
def copyDescriptors (openFiles : OpenFiles) : OpenFiles :=
  openFiles.foldl (fun files oldFd =>
    match oldFd with
    | some oldFd => (add files ⟨oldFd.node, oldFd.fpos, oldFd.flags⟩).1
    | none => files) []

/-- `NewProcess`. The fields it does not assign are as the allocation left them,
in `raw`. -/
def newProcess (parent : ProcessControlBlock) (pid : Nat) (raw : ProcessControlBlock) : ProcessControlBlock :=
  { raw with
    pid := pid
    uid := parent.uid
    euid := parent.euid
    gid := parent.gid
    egid := parent.egid
    pgid := parent.pgid
    sid := parent.sid
    parent := some parent.pid
    memoryContext := MemoryContext.new
    dataSegmentStart := 0#32
    openFiles := copyDescriptors parent.openFiles
    currentWorkingDirNode := parent.currentWorkingDirNode
    umask := parent.umask
    status := .ready }

/-- One round of `closeAllFiles`: the descriptor is looked up in the process, and
closed by a system call of the scheduled one. -/
def closeFile (current target : Nat) (conditionalFlag : Word) (s : System) (i : Nat) : System :=
  match s.processes target, s.processes current with
  | some process, some scheduled =>
    match entry process.openFiles i with
    | some fdesc =>
      if fdesc.flags &&& conditionalFlag = conditionalFlag then
        s.setProcess current { scheduled with openFiles := (FSUAPI.closePB scheduled.openFiles i).1 }
      else s
    | none => s
  | _, _ => s

def closeAllFiles (s : System) (current target : Nat) (conditionalFlag : Word) : System :=
  match s.processes target with
  | some process => (List.range process.openFiles.length).foldl (closeFile current target conditionalFlag) s
  | none => s

/-- `terminateProcess`, while `current` is scheduled. There is no result for
`init`, whose end is a kernel panic, for a process that has ended before, whose
memory context would be deleted again, and where removing the pages fails. -/
def terminateProcess (s : System) (current target : Nat) (exitStatus : Int) : Option System :=
  match s.processes target, s.processes current with
  | some process, some scheduled =>
    if target = 1 ∨ process.status = .terminated then none
    else
      match process.memoryContext.destroy (s.paging scheduled.addressSpaceTable) with
      | none => none
      | some (memoryContext, p) =>
        let s := s.storePaging current scheduled p
        let s := match s.processes target with
          | some process => s.setProcess target { process with memoryContext := memoryContext }
          | none => s
        let s := closeAllFiles s current target 0#32
        match s.processes target with
        | some process => some (s.setProcess target { process with exitStatus := exitStatus, status := .terminated })
        | none => none
  | _, _ => none

end Task

namespace ProcessUAPI
open PagingManager

def sigkill : Int := 9
def sigsegv : Int := 11
def esrch : Nat := 3
def eperm : Nat := 1

/-- `fork` in process `caller`. The directory of the child comes from the kernel heap, at
physical address `newPD`. -/
def fork (s : System) (caller : Nat) (raw : ProcessControlBlock) (newPD : Word) : Option (System × Nat) :=
  match s.processes caller with
  | none => none
  | some parent =>
    let pid := s.lastUsedPID + 1
    let child := Task.newProcess parent pid raw
    let p := changeRegionFlags (s.paging parent.addressSpaceTable) userspaceLowAddr userspaceLen 0#32 write present true
    let s := s.storePaging caller parent p
    some ({ s.setProcess pid { child with addressSpaceTable := clonePageDir p newPD } with lastUsedPID := pid }, pid)

/-- `kill`, called by process `caller`: the system and the result. -/
def kill (s : System) (caller pid : Nat) (signal : Int) : Option (System × Int) :=
  match s.processes pid, s.processes caller with
  | some target, some currentProcess =>
    if currentProcess.uid ≠ 0 ∧ currentProcess.uid ≠ target.uid then some (s, -eperm)
    else if signal = sigkill ∨ signal = sigsegv then (Task.terminateProcess s caller pid (-1)).map fun s => (s, 0)
    else some (s, -einval)
  | _, _ => some (s, -esrch)

def exit (s : System) (caller : Nat) (exitStatus : Int) : Option System :=
  Task.terminateProcess s caller caller exitStatus

end ProcessUAPI

end FluxOS
