import FluxOS.ListWithHoles
import FluxOS.MemoryContext

/-! The table of open files and the calls that change it. -/
namespace FluxOS
open Words

structure FileDescriptor where
  node : VNode
  fpos : BitVec 64
  flags : Word
  deriving DecidableEq, Repr

abbrev OpenFiles := List (Option FileDescriptor)

def ebadf : Nat := 9
def efault : Nat := 14
def einval : Nat := 22

namespace FSUAPI
open ListWithHoles

def oRdonly : Word := 0#32
def oWronly : Word := 1#32

/-- The descriptor at `fd`, with the checks every call makes first. -/
def descriptor (files : OpenFiles) (fd : Int) : Option FileDescriptor :=
  if 0 ≤ fd ∧ fd < files.length then entry files fd.toNat else none

theorem descriptor_eq_entry (files : OpenFiles) (fd : Nat) : descriptor files fd = entry files fd := by
  by_cases inside : fd < files.length
  · have both : (0 : Int) ≤ fd ∧ (fd : Int) < files.length := ⟨Int.natCast_nonneg fd, Int.ofNat_lt.mpr inside⟩
    rw [descriptor, if_pos both, Int.toNat_natCast]
  · have outside : ¬((0 : Int) ≤ fd ∧ (fd : Int) < files.length) := fun both => inside (Int.ofNat_lt.mp both.2)
    rw [descriptor, if_neg outside, entry_eq_none_of_le (Nat.le_of_not_lt inside)]

theorem descriptors_none_iff (files : OpenFiles) :
    (∀ fd, descriptor files fd = none) ↔ ∀ i, entry files i = none := by
  constructor
  · intro closed i
    rw [← descriptor_eq_entry]
    exact closed i
  · intro closed fd
    cases fd with
    | ofNat i => exact (descriptor_eq_entry files i).trans (closed i)
    | negSucc i => rfl

/-- The end of `openAtVNode`, once the path has led to a node. -/
def openNode (files : OpenFiles) (node : VNode) (flags : Word) : OpenFiles × Int :=
  let (files, fd) := add files ⟨node, 0, flags⟩
  (files, fd)

/-- `closePB`, with the table of the scheduled process: the process it is asked
to close for is not looked at. -/
def closePB (files : OpenFiles) (fd : Int) : OpenFiles × Int :=
  match descriptor files fd with
  | some _ => (remove files fd.toNat, 0)
  | none => (files, -ebadf)

def dup (files : OpenFiles) (oldfd : Int) : OpenFiles × Int :=
  match descriptor files oldfd with
  | some oldFdesc =>
    let (files, fd) := add files oldFdesc
    (files, fd)
  | none => (files, -ebadf)

/-- `dup3`. Past the end the table grows to `newfd` entries, and entry `newfd`
is written behind them: no table results. -/
def dup3 (files : OpenFiles) (oldfd newfd : Int) (flags : Word) : Option (OpenFiles × Int) :=
  if newfd < 0 then some (files, -ebadf)
  else
    match descriptor files oldfd with
    | none => some (files, -ebadf)
    | some oldFdesc =>
      if newfd = oldfd then some (files, -einval)
      else if newfd < files.length then
        let fdesc := { oldFdesc with flags := oldFdesc.flags ||| flags }
        some ((closePB files newfd).1.set newfd.toNat (some fdesc), newfd)
      else none

/-- `pipe2`, with the node of the new pipe: the table and the two ends. -/
def pipe2 (files : OpenFiles) (node : VNode) (flags : Word) : OpenFiles × Nat × Nat :=
  let (files, readEnd) := add files ⟨node, 0, oRdonly ||| flags⟩
  let (files, writeEnd) := add files ⟨node, 0, oWronly ||| flags⟩
  (files, readEnd, writeEnd)

end FSUAPI

end FluxOS
