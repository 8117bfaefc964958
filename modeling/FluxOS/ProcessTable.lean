import FluxOS.LinkedPointers

/-! The table of processes with its reference counts and its linked list:
`NewProcess`, `getProcess`, `putProcess`, `removePid` of `Task`, and the thread
of a process as `fork` and `terminateThread` leave it. A process is named by its
pid, and memory that was freed is never read: a step that would read it, or that
would follow a null pointer, has no result. -/
namespace FluxOS
open LinkedPointers

/-- The fields of `ProcessControlBlock` that hold the processes together, each
as a function of the process. `references` counts the `ProcessRef`s and the
pointers from `getProcess` that were not given back yet. `lastUsedPID` is an `int`
in the source, which has room for `2 ^ 31 - 2` forks. -/
structure ProcessTable where
  processes : Nat → Bool
  firstProcess : Option Nat
  lastUsedPID : Nat
  allocated : Nat → Bool
  refCount : Nat → Int
  parent : Nat → Option Nat
  prev : Nat → Option Nat
  next : Nat → Option Nat
  parentProcess : Nat → Option Nat
  references : Nat → Nat

namespace ProcessTable

/-- Reading a field of a process. -/
def load (s : ProcessTable) (field : Nat → Option Nat) (p : Nat) : Option (Option Nat) :=
  if s.allocated p then some (field p) else none

def setParent (s : ProcessTable) (p : Nat) (value : Option Nat) : ProcessTable :=
  { s with parent := Function.update s.parent p value }

def setPrev (s : ProcessTable) (p : Nat) (value : Option Nat) : ProcessTable :=
  { s with prev := Function.update s.prev p value }

def setNext (s : ProcessTable) (p : Nat) (value : Option Nat) : ProcessTable :=
  { s with next := Function.update s.next p value }

def setThread (s : ProcessTable) (thread : Nat) (value : Option Nat) : ProcessTable :=
  { s with parentProcess := Function.update s.parentProcess thread value }

def setReferences (s : ProcessTable) (p : Nat) (count : Nat) : ProcessTable :=
  { s with references := Function.update s.references p count }

def setFirst (s : ProcessTable) (value : Option Nat) : ProcessTable := { s with firstProcess := value }

/-- `processes->remove`. -/
def unlist (s : ProcessTable) (p : Nat) : ProcessTable :=
  { s with processes := Function.update s.processes p false }

/-- Writing a field of a process. -/
def store (s : ProcessTable) (p : Nat) (write : ProcessTable → ProcessTable) : Option ProcessTable :=
  if s.allocated p then some (write s) else none

/-- `refCount++` -/
def bump (s : ProcessTable) (p : Nat) : ProcessTable :=
  { s with refCount := Function.update s.refCount p (s.refCount p + 1) }

/-- `--refCount`, and `deleteProcess` at zero. -/
def drop (s : ProcessTable) (p : Nat) : ProcessTable :=
  if s.refCount p - 1 = 0 then
    { s with refCount := Function.update s.refCount p 0, allocated := Function.update s.allocated p false }
  else { s with refCount := Function.update s.refCount p (s.refCount p - 1) }

def referenceProcess (s : ProcessTable) : Option Nat → Option ProcessTable
  | none => some s
  | some p => s.store p (·.bump p)

def putProcess (s : ProcessTable) : Option Nat → Option ProcessTable
  | none => some s
  | some p => s.store p (·.drop p)

/-- The first process, as `CreateNewTask` leaves it. Its thread points to it
without a reference. -/
def createNewTask : ProcessTable where
  processes := Function.update (fun _ => false) 1 true
  firstProcess := some 1
  lastUsedPID := 1
  allocated := Function.update (fun _ => false) 1 true
  refCount := Function.update (fun _ => 0) 1 2
  parent := fun _ => none
  prev := fun _ => none
  next := fun _ => none
  parentProcess := Function.update (fun _ => none) 1 (some 1)
  references := fun _ => 0

/-- The new process of `NewProcess`, in front of the list. -/
def create (s : ProcessTable) (parent first : Nat) : ProcessTable :=
  let pid := s.lastUsedPID + 1
  { s with
    lastUsedPID := pid
    processes := Function.update s.processes pid true
    allocated := Function.update s.allocated pid true
    refCount := Function.update s.refCount pid 3
    parent := Function.update s.parent pid (some parent)
    prev := Function.update s.prev pid none
    next := Function.update s.next pid (some first)
    firstProcess := some pid }

/-- `NewProcess`, called by the thread of `caller`. -/
def newProcess (s : ProcessTable) (caller : Nat) : Option ProcessTable := do
  let parent ← s.parentProcess caller
  let s ← s.referenceProcess (some parent)
  let first ← s.firstProcess
  let s := s.create parent first
  s.store first (·.setPrev first s.firstProcess)

/-- `ProcessUAPI::fork`: the new thread takes a reference of its own. -/
def fork (s : ProcessTable) (caller : Nat) : Option ProcessTable := do
  let s ← s.newProcess caller
  let s ← s.referenceProcess (some s.lastUsedPID)
  some (s.setThread s.lastUsedPID (some s.lastUsedPID))

/-- A reference that is handed out. -/
def handOut (s : ProcessTable) (p : Nat) : Option ProcessTable := do
  let s ← s.referenceProcess (some p)
  some (s.setReferences p (s.references p + 1))

/-- `getProcess`, and a `ProcessRef` of the process: null where the table has no such pid. -/
def getProcess (s : ProcessTable) (pid : Nat) : Option ProcessTable :=
  if s.processes pid then s.handOut pid else some s

/-- A holder gives its reference back. -/
def giveBack (s : ProcessTable) (pid : Nat) : Option ProcessTable := do
  let s ← s.putProcess (some pid)
  some (s.setReferences pid (s.references pid - 1))

/-- `terminateThread`: `terminateProcess` holds the process while it works. -/
def terminateThread (s : ProcessTable) (thread : Nat) : Option ProcessTable := do
  let process ← s.parentProcess thread
  let s ← s.referenceProcess (some process)
  let s ← s.putProcess (some process)
  let s ← s.putProcess (some process)
  some (s.setThread thread none)

/-- `removePid` where the process is the first of the list. -/
def unlinkFirst (s : ProcessTable) (p : Nat) : Option ProcessTable := do
  let s ← s.putProcess s.firstProcess
  let s := s.setFirst (← s.load s.next p)
  let first ← s.firstProcess
  let s ← s.putProcess (← s.load s.prev first)
  s.store first (·.setPrev first none)

/-- `removePid` where another process stands before it. -/
def unlinkInner (s : ProcessTable) (p : Nat) : Option ProcessTable := do
  match ← s.load s.prev p with
  | none => some s
  | some before =>
    let s ← s.putProcess (← s.load s.next before)
    let following ← s.load s.next p
    let s ← s.store before (·.setNext before following)
    match ← s.load s.next p with
    | none => some s
    | some after =>
      let s ← s.putProcess (← s.load s.prev after)
      let preceding ← s.load s.prev p
      s.store after (·.setPrev after preceding)

def unlink (s : ProcessTable) (p : Nat) : Option ProcessTable :=
  if s.firstProcess = some p then s.unlinkFirst p else s.unlinkInner p

def removePid (s : ProcessTable) (pid : Nat) : Option ProcessTable :=
  if s.processes pid then do
    let s ← s.referenceProcess (some pid)
    let s ← s.unlink pid
    let s ← (s.unlist pid).putProcess (some pid)
    let s ← s.putProcess (← s.load s.parent pid)
    let s ← s.store pid (·.setParent pid none)
    s.putProcess (some pid)
  else some s

inductive Action where
  | fork (caller : Nat)
  | getProcess (pid : Nat)
  | putProcess (pid : Nat)
  | exit (thread : Nat)
  | removePid (pid : Nat)
  deriving DecidableEq, Repr

def step (s : ProcessTable) : Action → Option ProcessTable
  | .fork caller => s.fork caller
  | .getProcess pid => s.getProcess pid
  | .putProcess pid => s.giveBack pid
  | .exit thread => s.terminateThread thread
  | .removePid pid => s.removePid pid

/-- What the callers keep to: a thread that forks or exits still has its process,
a reference is given back by a holder, and the first process neither exits, which
panics the kernel, nor is removed. -/
def Allowed (s : ProcessTable) : Action → Prop
  | .fork caller => s.parentProcess caller ≠ none
  | .getProcess _ => True
  | .putProcess pid => 0 < s.references pid
  | .exit thread => thread ≠ 1 ∧ s.parentProcess thread ≠ none
  | .removePid pid => pid ≠ 1

instance (s : ProcessTable) : (action : Action) → Decidable (s.Allowed action)
  | .fork caller => inferInstanceAs (Decidable (s.parentProcess caller ≠ none))
  | .getProcess _ => inferInstanceAs (Decidable True)
  | .putProcess pid => inferInstanceAs (Decidable (0 < s.references pid))
  | .exit thread => inferInstanceAs (Decidable (thread ≠ 1 ∧ s.parentProcess thread ≠ none))
  | .removePid pid => inferInstanceAs (Decidable (pid ≠ 1))

/-- The references a call gives back, process by process. -/
def drops (s : ProcessTable) : Action → Nat → Int
  | .putProcess pid => points (some pid)
  | .exit thread => points (s.parentProcess thread)
  | .removePid pid => fun q => if s.processes pid then 3 * points (some pid) q + points (s.parent pid) q else 0
  | _ => 0

/-- `s'` is reached from `s` by allowed actions. -/
inductive Run : ProcessTable → List Action → ProcessTable → Prop where
  | start (s : ProcessTable) : Run s [] s
  | step {s s' s'' : ProcessTable} {actions : List Action} {action : Action} (before : Run s actions s')
      (allowed : s'.Allowed action) (result : s'.step action = some s'') : Run s (actions ++ [action]) s''

@[simp] theorem processes_drop (s : ProcessTable) (p : Nat) : (s.drop p).processes = s.processes := by
  unfold drop; split <;> rfl

@[simp] theorem firstProcess_drop (s : ProcessTable) (p : Nat) : (s.drop p).firstProcess = s.firstProcess := by
  unfold drop; split <;> rfl

@[simp] theorem lastUsedPID_drop (s : ProcessTable) (p : Nat) : (s.drop p).lastUsedPID = s.lastUsedPID := by
  unfold drop; split <;> rfl

@[simp] theorem parent_drop (s : ProcessTable) (p : Nat) : (s.drop p).parent = s.parent := by
  unfold drop; split <;> rfl

@[simp] theorem prev_drop (s : ProcessTable) (p : Nat) : (s.drop p).prev = s.prev := by
  unfold drop; split <;> rfl

@[simp] theorem next_drop (s : ProcessTable) (p : Nat) : (s.drop p).next = s.next := by
  unfold drop; split <;> rfl

@[simp] theorem parentProcess_drop (s : ProcessTable) (p : Nat) : (s.drop p).parentProcess = s.parentProcess := by
  unfold drop; split <;> rfl

@[simp] theorem references_drop (s : ProcessTable) (p : Nat) : (s.drop p).references = s.references := by
  unfold drop; split <;> rfl

theorem load_of_allocated {s : ProcessTable} {p : Nat} (live : s.allocated p = true) (field : Nat → Option Nat) :
    s.load field p = some (field p) := if_pos live

theorem store_of_allocated {s : ProcessTable} {p : Nat} (live : s.allocated p = true)
    (write : ProcessTable → ProcessTable) : s.store p write = some (write s) := if_pos live

end ProcessTable
end FluxOS
