import FluxOS.PathMeaning
import FluxOS.ProcFS
import FluxOS.TmpNames

/-! `VFS::GetDirPathFromVnode`: the names of a directory and of those around it, up to one that is named `.`. -/
namespace FluxOS
open Words

/-- `DevFS`: its inodes are as those of a tmpfs, and every node is named as the root. What it makes of a device is
left out. -/
def DevFS.lookup (inodes : TmpInodes) (node : Nat) (name : List Char) : Option (Except Int (Nat × Word)) :=
  TmpFS.lookup inodes node name

def DevFS.name : TmpFS.NameAnswer := .named TmpFS.dot

/-- The file systems that have names for their nodes. -/
inductive NamedFS where
  | tmpfs (inodes : TmpInodes)
  | procfs (isValidPID : Word → Bool)
  | devfs (inodes : TmpInodes)

namespace NamedFS

def lookup (fs : NamedFS) (node : Nat) (name : List Char) : Option (Except Int (Nat × Word)) :=
  match fs with
  | tmpfs inodes => TmpFS.lookup inodes node name
  | procfs isValidPID =>
    some ((ProcFS.lookup isValidPID (BitVec.ofNat 64 node) name).map fun entry => (entry.1.toNat, entry.2))
  | devfs inodes => DevFS.lookup inodes node name

def name (fs : NamedFS) (directory node : Nat) : Option TmpFS.NameAnswer :=
  match fs with
  | tmpfs inodes => TmpFS.name inodes directory node
  | procfs _ => some (ProcFS.name (BitVec.ofNat 64 node))
  | devfs _ => some DevFS.name

/-- The node that `Mount` makes the root of a mount. -/
def rootId : Nat := 1

end NamedFS

/-- Where a node is, as a `VNodeId` says it: the number of its mount, and its number in there. -/
structure NodePlace where
  mountId : Nat
  id : Nat
  deriving DecidableEq, Repr

/-- There is one node for each `VNodeId`. -/
def NodePlace.node (place : NodePlace) : VNode := Nat.pair place.mountId place.id

def placeOf (node : VNode) : NodePlace := ⟨node.unpair.1, node.unpair.2⟩

/-- The mounted file systems by their numbers, and how they are linked. -/
structure MountTree where
  rootMount : Nat
  fs : Nat → NamedFS
  covers : Nat → Option NodePlace
  coveredBy : NodePlace → Option NodePlace
  readlink : VNode → Except Int (List Char)

namespace MountTree
open VFS

variable (tree : MountTree)

def rootOf (mountId : Nat) : VNode := NodePlace.node ⟨mountId, NamedFS.rootId⟩

/-- What resolutions see. Where `lookup` would use a null inode, they are told that there is nothing. -/
def fileTree : FileTree where
  rootNode := rootOf tree.rootMount
  mount node := ⟨rootOf (placeOf node).mountId, (tree.covers (placeOf node).mountId).map NodePlace.node⟩
  coveredBy node := (tree.coveredBy (placeOf node)).map NodePlace.node
  lookup node name :=
    match (tree.fs (placeOf node).mountId).lookup (placeOf node).id name with
    | none => .error (-enoent)
    | some answer => answer.map fun entry => (NodePlace.node ⟨(placeOf node).mountId, entry.1⟩, entry.2)
  readlink := tree.readlink

/-- The name of a node in a directory, by the file system of the directory. -/
def name (directory node : VNode) : Option TmpFS.NameAnswer :=
  (tree.fs (placeOf directory).mountId).name (placeOf directory).id (placeOf node).id

/-- The loop, with the names so far. The root of a mount is left as by a walk that meets `..`. There is no result where it goes on forever, or where a name stays unset. -/
def climb : Nat → VNode → List (List Char) → Effects → Option (Except Int (List (List Char)) × Effects)
  | 0, _, _, _ => none
  | fuel + 1, node, pathStack, e =>
    let (node, e) := leaveMount tree.fileTree node dotDot e
    match tree.fileTree.lookup node dotDot with
    | .error code => some (.error code, e.put node)
    | .ok (tmpnode, _) =>
      let e := e.reference tmpnode
      match tree.name tmpnode node with
      | some (.named dirName) =>
        let e := e.put node
        if dirName = TmpFS.dot then some (.ok pathStack, e.put tmpnode) else climb fuel tmpnode (pathStack ++ [dirName]) e
      | some (.refused code) => some (.error code, (e.put node).put tmpnode)
      | _ => none

/-- The names on the stack, from the last one on, with a separator in front of each of them. -/
def pathOf (pathStack : List (List Char)) : List Char := '/' :: List.intercalate ['/'] pathStack.reverse

/-- `GetDirPathFromVnode`. -/
def getDirPathFromVnode (fuel : Nat) (node : VNode) : Option (Except Int (List Char) × Effects) :=
  (tree.climb fuel node [] (Effects.none.reference node)).map fun (result, e) => (result.map pathOf, e)

end MountTree

section Statement
open VFS MountTree

/-- The call comes to an end with a path, and the path resolves to the node. -/
def RoundTrip (tree : MountTree) (node : VNode) : Prop :=
  ∃ fuel path e, tree.getDirPathFromVnode fuel node = some (.ok path, e) ∧
    ∀ heap : KernelHeap, heap.grants 0 = true → (relativePathToVnode tree.fileTree heap none path true).1 = .found node

/-- A name that is none of the two that every directory has, and is the name of something in a path. -/
structure ProperName (name : List Char) : Prop where
  not_dot : name ≠ TmpFS.dot
  not_dotDot : name ≠ dotDot
  some_name : name ≠ []
  plain : '/' ∉ name

/-- The directories that a path of directories leads to. -/
inductive ReachedByName (tree : MountTree) : VNode → Prop
  | root : ReachedByName tree tree.fileTree.rootNode
  | entry {dir node : VNode} {name : List Char} {type : Word} (before : ReachedByName tree dir) (proper : ProperName name)
      (answer : tree.fileTree.lookup dir name = .ok (node, type)) (directory : sIsdir type = true) :
      ReachedByName tree (below tree.fileTree node)

/-- One step of the way up: the directory that `..` of a node (behind the mount, at its root) leads to, and the name
that this directory gives for it. -/
def Up (tree : MountTree) (node parent : VNode) (name : List Char) : Prop :=
  (∃ type, tree.fileTree.lookup (above tree.fileTree node dotDot) dotDot = .ok (parent, type)) ∧
    tree.name parent (above tree.fileTree node dotDot) = some (.named name)

/-- The directories whose way up is the way down to them: `..` of each of them leads to a directory that has it under
the name that it gives for it, and the root directory is named `.` -/
inductive LeadsHome (tree : MountTree) : VNode → Prop
  | root {parent : VNode} (up : Up tree tree.fileTree.rootNode parent TmpFS.dot) : LeadsHome tree tree.fileTree.rootNode
  | entry {node parent : VNode} {name : List Char} {type : Word} (before : LeadsHome tree parent)
      (up : Up tree (below tree.fileTree node) parent name) (proper : ProperName name)
      (answer : tree.fileTree.lookup parent name = .ok (node, type)) (directory : sIsdir type = true) :
      LeadsHome tree (below tree.fileTree node)

/-- The names of a tmpfs form a tree: every directory but the root has one name, in the directory around it. -/
structure TreeShaped (inodes : TmpInodes) : Prop extends TmpFS.Sound inodes where
  null : TmpFS.inode inodes 0 = none
  top : TmpFS.IsDirectory inodes NamedFS.rootId
  single {dir child : Nat} {name other : List Char} (entry : TmpFS.Entry inodes dir name child)
    (proper : TmpFS.Plain name) (also : TmpFS.Entry inodes dir other child) (directory : TmpFS.IsDirectory inodes child) :
    other = name
  named {dir child : Nat} {name : List Char} (entry : TmpFS.Entry inodes dir name child) : name ≠ [] ∧ '/' ∉ name

/-- The trees: processes have ids that fit into the numbers of their nodes, and devfs has no directory but its root. -/
def NamedFS.IsTree : NamedFS → Prop
  | tmpfs inodes => TreeShaped inodes
  | procfs isValidPID => ∀ pid, isValidPID pid = true → 0 < pid.toNat ∧ pid.toNat < 2 ^ 21
  | devfs inodes => TreeShaped inodes ∧ ∀ id, TmpFS.IsDirectory inodes id → id = rootId

/-- A tree of mounts: the root mount covers nothing, and what is covered is covered by the root of a mount. -/
structure MountTree.IsTree (tree : MountTree) : Prop where
  root : tree.covers tree.rootMount = none
  covering {place top : NodePlace} (covered : tree.coveredBy place = some top) :
    top.id = NamedFS.rootId ∧ tree.covers top.mountId = some place
  systems (mountId : Nat) : (tree.fs mountId).IsTree

/-- The root directory is named `.` in itself. -/
def RootIsDot (tree : MountTree) : Prop :=
  (tree.fs tree.rootMount).name NamedFS.rootId NamedFS.rootId = some (.named TmpFS.dot)

end Statement
end FluxOS
