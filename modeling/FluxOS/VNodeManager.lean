import FluxOS.MemoryContext
import FluxOS.QHash

/-! `VNodeManager`: one `VNode` for each id in use, found through a hash table and
freed by the put that drops its last reference. -/
namespace FluxOS
open Words

/-- `VNodeId`, with the mount id its comment excludes left out. -/
structure VNodeId where
  mountId : Word
  id : BitVec 64
  legal : mountId ≠ 0xFFFFFFFF#32
  deriving DecidableEq

/-- A `VNode` as its manager sees it. `mounted`: `mount` and its `fs` are set; `freed`: it was deleted. -/
structure VNodeObject where
  vnid : VNodeId
  refCount : Word
  mounted : Bool
  freed : Bool

/-- The table, all nodes ever made, and for each of them how often `GetVnode` gave it out,
it was referenced, it was put, and `closevnode` was called for it. -/
structure VNodeManager where
  vNodes : QHash VNodeId VNode
  objects : VNode → Option VNodeObject
  made : Nat
  gets : VNode → Nat
  references : VNode → Nat
  puts : VNode → Nat
  closes : VNode → Nat

namespace VNodeManager

def qHash (vid : VNodeId) : Word := BitVec.ofNat 32 (vid.id.toNat % (vid.mountId + 1#32).toNat)

def increment (count : VNode → Nat) (node : VNode) : VNode → Nat := Function.update count node (count node + 1)

/-- Reading a node; one that was freed cannot be read. -/
def load (s : VNodeManager) (node : VNode) : Option VNodeObject := (s.objects node).filter fun vnode => !vnode.freed

def store (s : VNodeManager) (node : VNode) (vnode : VNodeObject) : VNodeManager :=
  { s with objects := Function.update s.objects node (some vnode) }

/-- `Init`. -/
def init : VNodeManager where
  vNodes := QHash.init QHash.defaultCapacity
  objects := fun _ => none
  made := 0
  gets := fun _ => 0
  references := fun _ => 0
  puts := fun _ => 0
  closes := fun _ => 0

def lookupVnode (s : VNodeManager) (vid : VNodeId) : Option VNode := s.vNodes.value qHash vid

/-- `granted`: there is room for another node. -/
def newVnode (s : VNodeManager) (vid : VNodeId) (granted : Bool) : VNodeManager × Option VNode :=
  if granted then
    let s' := s.store s.made ⟨vid, 0#32, false, false⟩
    ({ s' with made := s.made + 1, vNodes := s.vNodes.insert qHash vid s.made }, some s.made)
  else (s, none)

def countReference (s : VNodeManager) (node : VNode) : Option VNodeManager :=
  (s.load node).map fun vnode => s.store node { vnode with refCount := vnode.refCount + 1#32 }

def getVnode (s : VNodeManager) (vid : VNodeId) (granted : Bool) : Option (VNodeManager × Option VNode) :=
  let (s, node) := match s.lookupVnode vid with
    | some node => (s, some node)
    | none => s.newVnode vid granted
  match node with
  | some node => (s.countReference node).map fun s => ({ s with gets := increment s.gets node }, some node)
  | none => some (s, none)

def referenceVnode (s : VNodeManager) (node : VNode) : Option VNodeManager :=
  (s.countReference node).map fun s => { s with references := increment s.references node }

def putVnode (s : VNodeManager) (node : VNode) : Option VNodeManager :=
  (s.load node).map fun vnode =>
    let vnode := { vnode with refCount := vnode.refCount - 1#32 }
    let s := { s.store node vnode with puts := increment s.puts node }
    if vnode.refCount = 0#32 then
      let s := { s with vNodes := s.vNodes.remove qHash vnode.vnid }
      let s := if vnode.mounted then { s with closes := increment s.closes node } else s
      s.store node { vnode with freed := true }
    else s

/-- A file system sets `mount` of a node it has got. -/
def setMount (s : VNodeManager) (node : VNode) (mounted : Bool) : Option VNodeManager :=
  (s.load node).map fun vnode => s.store node { vnode with mounted := mounted }

inductive Action where
  | getVnode (vid : VNodeId) (granted : Bool)
  | referenceVnode (node : VNode)
  | putVnode (node : VNode)
  | setMount (node : VNode) (mounted : Bool)

def step (s : VNodeManager) : Action → Option VNodeManager
  | .getVnode vid granted => (s.getVnode vid granted).map Prod.fst
  | .referenceVnode node => s.referenceVnode node
  | .putVnode node => s.putVnode node
  | .setMount node mounted => s.setMount node mounted

/-- Somebody holds a reference to the node. -/
def Held (s : VNodeManager) (node : VNode) : Prop := s.puts node < s.gets node + s.references node

/-- A node is used only by who holds a reference. -/
def Allowed (s : VNodeManager) : Action → Prop
  | .getVnode _ _ => True
  | .referenceVnode node => s.Held node
  | .putVnode node => s.Held node
  | .setMount node _ => s.Held node

/-- Whether an action is a call of the manager. -/
def Action.calls : Action → Nat
  | .setMount _ _ => 0
  | _ => 1

/-- `s` is reached from the empty table by `calls` calls. -/
inductive Run : Nat → VNodeManager → Prop where
  | start : Run 0 init
  | step {calls : Nat} {s s' : VNodeManager} (action : Action) (before : Run calls s) (allowed : s.Allowed action)
      (result : s.step action = some s') : Run (calls + action.calls) s'

end VNodeManager
end FluxOS
