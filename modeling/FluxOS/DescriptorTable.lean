import FluxOS.FSUAPI
import FluxOS.HoledArray

/-! The table of open files as the kernel keeps it, in an array that grows: what open,
dup, dup2, dup3, pipe2, socket and close do to it. -/
namespace FluxOS
open Words HoledArray

abbrev FileTable := HoledArray FileDescriptor

namespace FileTable

def oRdwr : Word := 2#32

/-- The calls that change a table. A call that opens a file is given the node that the path
has led to, `pipe2` and `socket` the node they have made. -/
inductive Call where
  | openAtVNode (node : VNode) (flags : Word)
  | dup (oldfd : Word)
  | dup2 (oldfd newfd : Word)
  | dup3 (oldfd newfd flags : Word)
  | pipe2 (node : VNode) (flags : Word)
  | socket (node : VNode)
  | close (fd : Word)

section Operations

variable (heap again : ArrayHeap (Option FileDescriptor)) (files : FileTable)

/-- The descriptor at `fd`, with the checks every call makes first. -/
def descriptor (fd : Word) : Option (Option FileDescriptor) :=
  if 0 ≤ fd.toInt ∧ fd.toInt < files.mSize.toInt then entry files fd else some none

def closePB (fd : Word) : Option (Int × FileTable) := do
  match ← descriptor files fd with
  | none => return (-ebadf, files)
  | some _ =>
    let files ← remove files fd
    return (0, files)

def dup (oldfd : Word) : Option (Int × FileTable) := do
  match ← descriptor files oldfd with
  | none => return (-ebadf, files)
  | some oldFdesc => add heap files oldFdesc

/-- The part of `dup3` that makes place for `newfd`. -/
def makePlace (newfd : Word) : Option FileTable := do
  if newfd.toInt < files.mSize.toInt then
    match ← entry files newfd with
    | some _ =>
      let (_, files) ← closePB files newfd
      return files
    | none => return files
  else QList.resize heap files newfd

def dup3 (oldfd newfd flags : Word) : Option (Int × FileTable) := do
  if newfd.toInt < 0 then return (-ebadf, files)
  match ← descriptor files oldfd with
  | none => return (-ebadf, files)
  | some oldFdesc =>
    if newfd = oldfd then return (-einval, files)
    let files ← makePlace heap files newfd
    let files ← QList.write files newfd (some { oldFdesc with flags := oldFdesc.flags ||| flags })
    return (newfd.toInt, files)

def dup2 (oldfd newfd : Word) : Option (Int × FileTable) :=
  if newfd = oldfd then some (newfd.toInt, files) else dup3 heap files oldfd newfd 0#32

/-- `pipe2`: the numbers of the read end and of the write end. `again` answers for the write end. -/
def pipe2 (node : VNode) (flags : Word) : Option (Int × Int × FileTable) := do
  let (readEnd, files) ← add heap files ⟨node, 0, FSUAPI.oRdonly ||| flags⟩
  let (writeEnd, files) ← add again files ⟨node, 0, FSUAPI.oWronly ||| flags⟩
  return (readEnd, writeEnd, files)

/-- A call, with the number it returns; `pipe2` stores two. -/
def perform : Call → Option (List Int × FileTable)
  | .openAtVNode node flags => (add heap files ⟨node, 0, flags⟩).map fun (fd, files) => ([fd], files)
  | .dup oldfd => (dup heap files oldfd).map fun (fd, files) => ([fd], files)
  | .dup2 oldfd newfd => (dup2 heap files oldfd newfd).map fun (fd, files) => ([fd], files)
  | .dup3 oldfd newfd flags => (dup3 heap files oldfd newfd flags).map fun (fd, files) => ([fd], files)
  | .pipe2 node flags => (pipe2 heap again files node flags).map fun (readEnd, writeEnd, files) => ([readEnd, writeEnd], files)
  | .socket node => (add heap files ⟨node, 0, oRdwr⟩).map fun (fd, files) => ([fd], files)
  | .close fd => (closePB files fd).map fun (result, files) => ([result], files)

end Operations

section Meaning

/-- What a table is for: which descriptors are open, and what they refer to. -/
abbrev Opened := Nat → Option FileDescriptor

def opened (files : FileTable) : Opened := ListWithHoles.entry (QList.contents files)

/-- The descriptor with a number that a caller gives. -/
def Opened.lookup (before : Opened) (fd : Word) : Option FileDescriptor := if 0 ≤ fd.toInt then before fd.toNat else none

/-- The number is the lowest one that was free, and no other descriptor has changed. -/
def Lowest (before : Opened) (fdesc : FileDescriptor) (fd : Int) (after : Opened) : Prop :=
  ∃ i : Nat, fd = i ∧ before i = none ∧ (∀ j < i, (before j).isSome) ∧ after = Function.update before i (some fdesc)

def Failed (before : Opened) (numbers : List Int) (after : Opened) : Prop :=
  ∃ error < 0, numbers = [error] ∧ after = before

variable (heap again : ArrayHeap (Option FileDescriptor)) (files : FileTable)

/-- A descriptor that was added, unless there was no memory for a larger table. -/
def Added (fdesc : FileDescriptor) (numbers : List Int) (after : Opened) : Prop :=
  (∃ fd, numbers = [fd] ∧ Lowest (opened files) fdesc fd after) ∨
    (places files = 0 ∧ heap.grants (files.mCapacity * 2#32) = false ∧ Failed (opened files) numbers after)

/-- What `dup3` should do: `newfd` is a number of the table, and refers to the node of `oldfd`, at its position. -/
def Replaced (oldfd newfd : Word) (numbers : List Int) (files' : FileTable) : Prop :=
  match (opened files).lookup oldfd with
  | none => Failed (opened files) numbers (opened files')
  | some oldFdesc =>
    if newfd.toInt < 0 ∨ newfd = oldfd then Failed (opened files) numbers (opened files')
    else numbers = [newfd.toInt] ∧ newfd.toInt < files'.mSize.toInt ∧ ∃ fdesc, fdesc.node = oldFdesc.node ∧
      fdesc.fpos = oldFdesc.fpos ∧ opened files' = Function.update (opened files) newfd.toNat (some fdesc)

def Right (call : Call) (numbers : List Int) (files' : FileTable) : Prop :=
  match call with
  | .openAtVNode node flags => Added heap files ⟨node, 0, flags⟩ numbers (opened files')
  | .socket node => Added heap files ⟨node, 0, oRdwr⟩ numbers (opened files')
  | .dup oldfd =>
    match (opened files).lookup oldfd with
    | none => Failed (opened files) numbers (opened files')
    | some oldFdesc => Added heap files oldFdesc numbers (opened files')
  | .dup2 oldfd newfd =>
    if newfd = oldfd then numbers = [newfd.toInt] ∧ opened files' = opened files
    else Replaced files oldfd newfd numbers files'
  | .dup3 oldfd newfd _ => Replaced files oldfd newfd numbers files'
  | .pipe2 node flags => ∃ readEnd writeEnd middle, numbers = [readEnd, writeEnd] ∧
      Lowest (opened files) ⟨node, 0, FSUAPI.oRdonly ||| flags⟩ readEnd middle ∧
      Lowest middle ⟨node, 0, FSUAPI.oWronly ||| flags⟩ writeEnd (opened files')
  | .close fd =>
    match (opened files).lookup fd with
    | none => Failed (opened files) numbers (opened files')
    | some _ => numbers = [0] ∧ opened files' = Function.update (opened files) fd.toNat none

/-- A call, with what the heap answers when it asks for a larger array. `pipe2` may ask twice. -/
structure Request where
  call : Call
  heap : ArrayHeap (Option FileDescriptor)
  again : ArrayHeap (Option FileDescriptor)

/-- Every access of every call is inside the array, and every call does what it should. -/
def AllRight (files : FileTable) : List Request → Prop
  | [] => True
  | request :: rest => ∃ numbers files', perform request.heap request.again files request.call = some (numbers, files') ∧
      Right request.heap files request.call numbers files' ∧ AllRight files' rest

/-- Whether a full table can grow. -/
def Grows (heap : ArrayHeap (Option FileDescriptor)) (files : FileTable) : Prop :=
  files.mCapacity.toNat < 2 ^ 30 ∧ heap.grants (files.mCapacity * 2#32) = true

/-- What the calls need: `newfd` is a number that the table has already, and the table can grow. -/
def Meets : Call → Prop
  | .openAtVNode _ _ | .socket _ => places files = 0 → files.mCapacity.toNat < 2 ^ 30
  | .dup oldfd => ((opened files).lookup oldfd).isSome → places files = 0 → files.mCapacity.toNat < 2 ^ 30
  | .dup2 oldfd newfd | .dup3 oldfd newfd _ => ((opened files).lookup oldfd).isSome → 0 ≤ newfd.toInt → newfd ≠ oldfd →
      newfd.toInt < files.mSize.toInt
  | .pipe2 _ _ => (places files = 0 → Grows heap files) ∧ (places files = 1 → Grows again files)
  | .close _ => True

def MeetsAll (files : FileTable) : List Request → Prop
  | [] => True
  | request :: rest => Meets request.heap request.again files request.call ∧ ∀ numbers files',
      perform request.heap request.again files request.call = some (numbers, files') → MeetsAll files' rest

end Meaning

end FileTable
end FluxOS
