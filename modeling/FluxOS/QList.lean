import FluxOS.Buffers
import FluxOS.Words

/-! `QList`: a size, a capacity and the array they are about. Every access is to a block
that is still there, and inside it, or has no result. -/
namespace FluxOS
open Words

/-- The heap as `new T[n]` shows it: which blocks it grants, and what stands in a new one. -/
structure ArrayHeap (T : Type) where
  grants : Word → Bool
  holds : Nat → T

/-- `mArray`: the block that `m_array` points to; there is none once it has been deleted. -/
structure QList (T : Type) where
  mSize : Word
  mCapacity : Word
  mArray : Option (List T)

namespace QList
open Buffers

variable {T : Type}

/-- The calls that change a list. -/
inductive Call (T : Type) where
  | append (value : T)
  | reserve (newCapacity : Word)
  | squeeze
  | resize (size : Word)
  | clear
  | remove (i count : Word)
  | takeAt (i : Word)

section Operations

variable (heap : ArrayHeap T)

def newArray (n : Word) : List T := (List.range n.toNat).map heap.holds

/-- `init` and the default constructor, where the block is granted. -/
def init (size capacity : Word) : QList T := ⟨size, capacity, some (newArray heap capacity)⟩

def empty : QList T := init heap 0#32 2#32

/-- `QList(int size)`, where the block is granted. -/
def ofSize [Inhabited T] (size : Word) : QList T := ⟨size, size, some (List.replicate size.toNat default)⟩

/-- What can be read from and written to through `m_array`. -/
def block (l : QList T) : List T := l.mArray.getD []

/-- `delete m_array`, which is right for a block that has not been deleted. -/
def deleteArray (l : QList T) : Option (List T) := l.mArray

/-- `m_array[i] = value`. -/
def write (l : QList T) (i : Word) (value : T) : Option (QList T) :=
  if i.toNat < l.block.length then some { l with mArray := some (l.block.set i.toNat value) } else none

/-- `reserve`, with what it returns. There is no block of a negative size. -/
def reserve (l : QList T) (newCapacity : Word) : Option (Bool × QList T) :=
  if newCapacity.toInt < 0 then none
  else if heap.grants newCapacity = false then some (false, l)
  else do
    let newSize := if l.mSize.toInt < newCapacity.toInt then l.mSize else newCapacity
    let entries ← slice l.block 0 newSize.toNat
    let tmpArray ← patch (newArray heap newCapacity) 0 entries
    let _ ← deleteArray l
    return (true, ⟨newSize, newCapacity, some tmpArray⟩)

/-- `resize` does not look at what `reserve` returns. -/
def resize [Inhabited T] (l : QList T) (size : Word) : Option (QList T) := do
  let (_, l) ← reserve heap l size
  let fill := List.replicate (size.toInt - l.mSize.toInt).toNat default
  let block ← patch l.block l.mSize.toNat fill
  return { l with mSize := size, mArray := l.mArray.map fun _ => block }

def clear (l : QList T) : Option (QList T) := do
  let _ ← deleteArray l
  return ⟨0#32, 0#32, none⟩

/-- The first step of `append`: a full list doubles its capacity. -/
def grow (l : QList T) : Option (Bool × QList T) :=
  if l.mSize = l.mCapacity then reserve heap l (l.mCapacity * 2#32) else some (true, l)

/-- `append`: the index of the value, or -1, and the list. -/
def append (l : QList T) (value : T) : Option (Int × QList T) := do
  let (ok, l) ← grow heap l
  if ok = false then return (-1, l)
  let index := l.mSize
  let l ← write l index value
  return (index.toInt, { l with mSize := l.mSize + 1#32 })

/-- The loop of `remove`: `n` entries, from index `i` on, are moved down by `count`. -/
def moveDown (count : Nat) (i : Nat) : Nat → List T → Option (List T)
  | 0, block => some block
  | n + 1, block => do
    let value ← block[i + count]?
    moveDown count (i + 1) n (block.set i value)

def remove (l : QList T) (i count : Word) : Option (QList T) := do
  let block ← moveDown count.toNat i.toNat (l.mSize.toInt - count.toInt - i.toInt).toNat l.block
  return { l with mSize := l.mSize - count, mArray := l.mArray.map fun _ => block }

def takeAt (l : QList T) (i : Word) : Option (T × QList T) := do
  let tmpVal ← l.block[i.toNat]?
  let l ← remove l i 1#32
  return (tmpVal, l)

variable [Inhabited T]

/-- A call, and whether it was refused a block. -/
def perform (l : QList T) : Call T → Option (Bool × QList T)
  | .append value => (append heap l value).map fun (index, l) => (decide (index ≠ -1), l)
  | .reserve newCapacity => reserve heap l newCapacity
  | .squeeze => reserve heap l l.mSize
  | .resize size => (resize heap l size).map fun l => (true, l)
  | .clear => (clear l).map fun l => (true, l)
  | .remove i count => (remove l i count).map fun l => (true, l)
  | .takeAt i => (takeAt l i).map fun (_, l) => (true, l)

end Operations

/-- The elements of a list. -/
def contents (l : QList T) : List T := l.block.take l.mSize.toNat

/-- A call on the sequence that a list should be; `ok` is whether the call was granted its block. -/
def apply [Inhabited T] (sequence : List T) (call : Call T) (ok : Bool) : List T :=
  match call, ok with
  | .append value, true => sequence ++ [value]
  | .append _, false => sequence
  | .reserve newCapacity, true => sequence.take newCapacity.toNat
  | .reserve _, false => sequence
  | .squeeze, _ => sequence
  | .resize size, _ => sequence.take size.toNat ++ List.replicate (size.toNat - sequence.length) default
  | .clear, _ => []
  | .remove i count, _ => sequence.take i.toNat ++ sequence.drop (i.toNat + count.toNat)
  | .takeAt i, _ => sequence.take i.toNat ++ sequence.drop (i.toNat + 1)

/-- What may be asked of a sequence: capacities, sizes and counts are not negative, and what is removed is there. -/
def Allowed (sequence : List T) : Call T → Prop
  | .append _ | .squeeze | .clear => True
  | .reserve newCapacity => 0 ≤ newCapacity.toInt
  | .resize size => 0 ≤ size.toInt
  | .remove i count => 0 ≤ i.toInt ∧ 0 ≤ count.toInt ∧ i.toInt + count.toInt ≤ sequence.length
  | .takeAt i => 0 ≤ i.toInt ∧ i.toInt + 1 ≤ sequence.length

end QList
end FluxOS
