import FluxOS.LinkedPointers

/-! `QLinkedList`: nodes in memory, linked both ways. Following a pointer to a node that
has been freed, or a null pointer, has no result. -/
namespace FluxOS

/-- A `Node`, at an address of type `A`. -/
structure LinkedNode (A T : Type) where
  next : Option A
  prev : Option A
  body : T

/-- The nodes that are allocated. -/
abbrev NodeHeap (A T : Type) := A → Option (LinkedNode A T)

/-- `mSize` is an `int`; each node takes 12 bytes, so that it cannot overflow. -/
structure QLinkedList (A T : Type) where
  heap : NodeHeap A T
  mHead : Option A
  mTail : Option A
  mSize : Int

namespace QLinkedList

variable {A T : Type}

/-- The node that a pointer leads to. -/
def deref (heap : NodeHeap A T) (pointer : Option A) : Option (LinkedNode A T) := pointer.bind heap

/-- `node`: the pointer after `index` steps from the head. -/
def node (heap : NodeHeap A T) : Nat → Option A → Option (Option A)
  | 0, tmpNode => some tmpNode
  | index + 1, tmpNode => do
    let here ← deref heap tmpNode
    node heap index here.next

section Writing

variable [DecidableEq A]

/-- `pointer->next = value`. -/
def setNext (heap : NodeHeap A T) (pointer value : Option A) : Option (NodeHeap A T) := do
  let address ← pointer
  let here ← heap address
  return Function.update heap address (some { here with next := value })

/-- `pointer->prev = value`. -/
def setPrev (heap : NodeHeap A T) (pointer value : Option A) : Option (NodeHeap A T) := do
  let address ← pointer
  let here ← heap address
  return Function.update heap address (some { here with prev := value })

/-- `delete pointer`. -/
def delete (heap : NodeHeap A T) : Option A → Option (NodeHeap A T)
  | none => some heap
  | some address => do
    let _ ← heap address
    return Function.update heap address none

/-- The calls that change a list. -/
inductive Call (T : Type) where
  | append (value : T)
  | prepend (value : T)
  | insert (before : Int) (value : T)
  | remove (i : Int)
  | takeFirst
  | takeLast
  | clear

/-- A new list, wherever other nodes are. -/
def empty (heap : NodeHeap A T) : QLinkedList A T := ⟨heap, none, none, 0⟩

/-- `append`, where `new` gives the address `a`. -/
def append (l : QLinkedList A T) (a : A) (value : T) : Option (QLinkedList A T) := do
  let heap := Function.update l.heap a (some ⟨none, l.mTail, value⟩)
  if l.mSize ≠ 0 then
    let heap ← setNext heap l.mTail (some a)
    return ⟨heap, l.mHead, some a, l.mSize + 1⟩
  else
    return ⟨heap, some a, some a, l.mSize + 1⟩

def prepend (l : QLinkedList A T) (a : A) (value : T) : Option (QLinkedList A T) := do
  let heap := Function.update l.heap a (some ⟨l.mHead, none, value⟩)
  if l.mSize ≠ 0 then
    let heap ← setPrev heap l.mHead (some a)
    return ⟨heap, some a, l.mTail, l.mSize + 1⟩
  else
    return ⟨heap, some a, some a, l.mSize + 1⟩

def insert (l : QLinkedList A T) (a : A) (before : Int) (value : T) : Option (QLinkedList A T) :=
  if before = 0 then prepend l a value
  else if before = l.mSize then append l a value
  else do
    let prevNode ← node l.heap before.toNat l.mHead
    let there ← deref l.heap prevNode
    let heap := Function.update l.heap a (some ⟨prevNode, there.prev, value⟩)
    let there ← deref heap prevNode
    let heap ← setNext heap there.prev (some a)
    let heap ← setPrev heap prevNode (some a)
    return { l with heap := heap, mSize := l.mSize + 1 }

def remove (l : QLinkedList A T) (i : Int) : Option (QLinkedList A T) := do
  if i = 0 then
    let tmpNode := l.mHead
    let here ← deref l.heap l.mHead
    let mHead := here.next
    let heap ← if mHead ≠ none then setPrev l.heap mHead none else some l.heap
    let heap ← delete heap tmpNode
    return ⟨heap, mHead, l.mTail, l.mSize - 1⟩
  else if i = l.mSize - 1 then
    let tmpNode := l.mTail
    let here ← deref l.heap l.mTail
    let mTail := here.prev
    let heap ← setNext l.heap mTail none
    let heap ← delete heap tmpNode
    return ⟨heap, l.mHead, mTail, l.mSize - 1⟩
  else
    let tmpNode ← node l.heap i.toNat l.mHead
    let here ← deref l.heap tmpNode
    let heap ← setNext l.heap here.prev here.next
    let here ← deref heap tmpNode
    let heap ← setPrev heap here.next here.prev
    let heap ← delete heap tmpNode
    return { l with heap := heap, mSize := l.mSize - 1 }

def takeFirst (l : QLinkedList A T) : Option (T × QLinkedList A T) := do
  let here ← deref l.heap l.mHead
  let l ← remove l 0
  return (here.body, l)

def takeLast (l : QLinkedList A T) : Option (T × QLinkedList A T) := do
  let here ← deref l.heap l.mTail
  let l ← remove l (l.mSize - 1)
  return (here.body, l)

/-- The loop of `removeAllNodes`, for so many rounds at most. -/
def removeAllNodes : Nat → NodeHeap A T → Option A → Option (NodeHeap A T)
  | _, heap, none => some heap
  | 0, _, some _ => none
  | rounds + 1, heap, some tmpNode => do
    let here ← heap tmpNode
    let heap ← delete heap (some tmpNode)
    removeAllNodes rounds heap here.next

/-- `clear`. A list takes one round for each of its nodes. -/
def clear (l : QLinkedList A T) : Option (QLinkedList A T) := do
  let heap ← removeAllNodes l.mSize.toNat l.heap l.mHead
  return ⟨heap, none, none, 0⟩

/-- A call, with the value that it returns, if it returns one. -/
def perform (l : QLinkedList A T) (a : A) : Call T → Option (Option T × QLinkedList A T)
  | .append value => (append l a value).map fun l => (none, l)
  | .prepend value => (prepend l a value).map fun l => (none, l)
  | .insert before value => (insert l a before value).map fun l => (none, l)
  | .remove i => (remove l i).map fun l => (none, l)
  | .takeFirst => (takeFirst l).map fun (value, l) => (some value, l)
  | .takeLast => (takeLast l).map fun (value, l) => (some value, l)
  | .clear => (clear l).map fun l => (none, l)

end Writing

/-- The bodies from a pointer on, for so many nodes at most. -/
def forward (heap : NodeHeap A T) : Nat → Option A → Option (List T)
  | _, none => some []
  | 0, some _ => none
  | count + 1, some a => do
    let here ← heap a
    let rest ← forward heap count here.next
    return here.body :: rest

/-- The bodies from a pointer back over so many links. -/
def backward (heap : NodeHeap A T) : Nat → Option A → Option (List T)
  | 0, pointer => do
    let here ← deref heap pointer
    return [here.body]
  | links + 1, pointer => do
    let here ← deref heap pointer
    let rest ← backward heap links here.prev
    return here.body :: rest

/-- A call on the sequence that a list should be, with the value that it returns. -/
def apply (sequence : List T) : Call T → Option T × List T
  | .append value => (none, sequence ++ [value])
  | .prepend value => (none, value :: sequence)
  | .insert before value => (none, sequence.take before.toNat ++ value :: sequence.drop before.toNat)
  | .remove i => (none, sequence.eraseIdx i.toNat)
  | .takeFirst => (sequence.head?, sequence.tail)
  | .takeLast => (sequence.getLast?, sequence.dropLast)
  | .clear => (none, [])

/-- What may be asked of a sequence. -/
def Allowed (sequence : List T) : Call T → Prop
  | .append _ | .prepend _ | .clear => True
  | .insert before _ => 0 ≤ before ∧ before ≤ sequence.length
  | .remove i => 0 ≤ i ∧ i < sequence.length
  | .takeFirst | .takeLast => sequence ≠ []

end QLinkedList
end FluxOS
