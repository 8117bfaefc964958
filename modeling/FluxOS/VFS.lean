import FluxOS.FSUAPI
import FluxOS.LinkedPointers
import FluxOS.SeparatedNames

/-! `VFS::RelativePathToVnode`: a path is walked component by component, across
mounts in both directions and through symbolic links, and every node on the way
is referenced and put. -/
namespace FluxOS
open Words LinkedPointers SeparatedNames

def enotdir : Nat := 20
def eloop : Nat := 40

/-- `MAX_COUNT`, and the size of the buffer a link is read into. -/
def maxCount : Nat := 256
def linkBufferSize : Nat := 20480

structure FSMount where
  fsRootVNode : VNode
  coversVNode : Option VNode

/-- The mounted file systems. `lookup` gives a node that carries a new reference,
with its type; `readlink` gives the bytes it has written. -/
structure FileTree where
  rootNode : VNode
  mount : VNode → FSMount
  coveredBy : VNode → Option VNode
  lookup : VNode → List Char → Except Int (VNode × Word)
  readlink : VNode → Except Int (List Char)

/-- The kernel heap, by the number of the request: which requests it grants, and
what the granted block (and the memory behind it) held before. -/
structure KernelHeap where
  grants : Nat → Bool
  holds : Nat → List Char

/-- What a resolution has done so far: by how much it changed each reference
count, and how many blocks it asked the heap for. -/
@[ext] structure Effects where
  references : VNode → Int
  requests : Nat

/-- What a resolution ends with. `cleared`: the failure has set `*node` to null. -/
inductive Resolved where
  | found (node : VNode)
  | failed (error : Int) (cleared : Bool)
  deriving DecidableEq, Repr

namespace Effects

def none : Effects := ⟨0, 0⟩

def reference (e : Effects) (node : VNode) : Effects := { e with references := e.references + points (some node) }

def put (e : Effects) (node : VNode) : Effects := { e with references := e.references - points (some node) }

def request (e : Effects) : Effects := { e with requests := e.requests + 1 }

theorem put_reference (e : Effects) (node : VNode) : (e.reference node).put node = e :=
  Effects.ext (add_sub_cancel_right _ _) rfl

end Effects

namespace VFS

def sIfmt : Word := 0o170000#32
def sIfreg : Word := 0o100000#32
def sIflnk : Word := 0o120000#32
def sIfdir : Word := 0o040000#32

def sIsreg (mode : Word) : Bool := mode &&& sIfmt = sIfreg

def sIslnk (mode : Word) : Bool := mode &&& sIfmt = sIflnk

def sIsdir (mode : Word) : Bool := mode &&& sIfmt = sIfdir

def dotDot : List Char := ['.', '.']

/-- What a buffer says when it is read as a C string. -/
def cString (buffer : List Char) : List Char := buffer.takeWhile (· ≠ Char.ofNat 0)

/-- A buffer after bytes have been copied to its beginning. -/
def overwritten (buffer bytes : List Char) : List Char := bytes ++ buffer.drop bytes.length

section Walking

variable (tree : FileTree) (heap : KernelHeap) (traverseLeafLink : Bool)

/-- `..` at the root of a mount goes back to the node it has been mounted on. -/
def leaveMount (tmpnode : VNode) (component : List Char) (e : Effects) : VNode × Effects :=
  if component = dotDot ∧ (tree.mount tmpnode).fsRootVNode = tmpnode then
    match (tree.mount tmpnode).coversVNode with
    | some coversVNode => (coversVNode, (e.reference coversVNode).put tmpnode)
    | none => (tmpnode, e)
  else (tmpnode, e)

/-- A node that is covered by a mount is replaced by the root of that mount. -/
def enterMount (nextVnode : VNode) (e : Effects) : VNode × Effects :=
  match tree.coveredBy nextVnode with
  | some coveredBy => (coveredBy, (e.reference coveredBy).put nextVnode)
  | none => (nextVnode, e)

variable (expand : VNode → List Char → Effects → Resolved × Effects)

/-- A link is read into a fresh buffer, and the buffer resolved from the directory
of the link. The node of the link is forgotten; without a buffer, or when the link
cannot be read, `*node` keeps what it had. -/
def followLink (tmpnode link : VNode) (e : Effects) : Resolved × Effects :=
  if heap.grants e.requests then
    match tree.readlink link with
    | .error code => (.failed code false, e.request)
    | .ok bytes =>
      let tmplnkbuf := overwritten (heap.holds e.requests) (bytes.take linkBufferSize)
      match expand tmpnode (cString tmplnkbuf) e.request with
      | (.found node, e) => (.found node, e)
      | (.failed code _, e) => (.failed code true, e)
  else (.failed (-enomem) false, e.request)

/-- One round of the loop. `last`: `nextPath` is at the end of the string. -/
def resolveComponent (tmpnode : VNode) (component : List Char) (last : Bool) (e : Effects) : Resolved × Effects :=
  let (tmpnode, e) := leaveMount tree tmpnode component e
  match tree.lookup tmpnode component with
  | .error code => (.failed code true, e.put tmpnode)
  | .ok (nextVnode, nodeType) =>
    let e := e.reference nextVnode
    if sIsreg nodeType ∧ last = false then (.failed (-enotdir) true, e.put tmpnode)
    else
      match if sIslnk nodeType ∧ ¬(traverseLeafLink = false ∧ last = true)
        then followLink tree heap expand tmpnode nextVnode e else (.found nextVnode, e) with
      | (.failed code cleared, e) => (.failed code cleared, e.put tmpnode)
      | (.found nextVnode, e) =>
        let (nextVnode, e) := enterMount tree nextVnode e
        (.found nextVnode, e.put tmpnode)

/-- The loop; every round shortens the path. -/
def resolvePath : Nat → VNode → List Char → Effects → Resolved × Effects
  | _, tmpnode, [], e => (.found tmpnode, e)
  | 0, tmpnode, _ :: _, e => (.found tmpnode, e)
  | length + 1, tmpnode, first :: rest, e =>
    let component := first :: beforeSeparator '/' rest
    let nextPath := skipSeparators '/' (fromSeparator '/' rest)
    match resolveComponent tree heap traverseLeafLink expand tmpnode component nextPath.isEmpty e with
    | (.failed code cleared, e) => (.failed code cleared, e)
    | (.found nextVnode, e) => resolvePath length nextVnode nextPath e

end Walking

/-- Where a path starts from: an absolute one from the root node. -/
def origin (tree : FileTree) (start : Option VNode) (path : List Char) : Option VNode :=
  if path.head? = some '/' then some tree.rootNode else start

/-- `RelativePathToVnode`, with `remaining` nested expansions left until `MAX_COUNT`. -/
def resolveNested (tree : FileTree) (heap : KernelHeap) (traverseLeafLink : Bool) :
    Nat → Option VNode → List Char → Effects → Resolved × Effects
  | remaining, start, path, e =>
    if heap.grants e.requests then
      match origin tree start path with
      | none => (.failed (-einval) false, e.request)
      | some start =>
        match remaining with
        | 0 => (.failed (-eloop) false, e.request)
        | remaining + 1 =>
          resolvePath tree heap traverseLeafLink
            (fun node target e => resolveNested tree heap traverseLeafLink remaining (some node) target e)
            path.length start (skipSeparators '/' path) (e.request.reference start)
    else (.failed (-enomem) false, e.request)

/-- `RelativePathToVnode` as it is called from outside. -/
def relativePathToVnode (tree : FileTree) (heap : KernelHeap) (start : Option VNode) (path : List Char)
    (traverseLeafLink : Bool) : Resolved × Effects :=
  resolveNested tree heap traverseLeafLink maxCount start path Effects.none

/-- A heap whose blocks hold zeros. -/
def clearHeap : KernelHeap := ⟨fun _ => true, fun _ => List.replicate 4 (Char.ofNat 0)⟩

end VFS
end FluxOS
