import FluxOS.MountEffect

/-! Mounts one after the other: what a resolution relies on is kept by each of them. -/
namespace FluxOS.VFS
open Words VFSState

section Runs

/-- What a file system brings along with its root: a tree of nodes that were not in use, with `.` and `..` in it.
Nodes and mounts for later stay apart from it. -/
structure BringsTree (state called : VFSState) (unused later : VNode → Prop) (fsmount next : Nat) (root : VNode) : Prop
    extends Brings state called unused fsmount root where
  still {node : VNode} (left : later node) : unused node
  taken : ¬ later root
  next_apart : next ≠ fsmount
  own_mount {node : VNode} (brought : unused node) (used : ¬ later node) : called.mountOf node = fsmount
  silent {dir : VNode} (left : later dir) (name : List Char) : ∃ code, called.lookup dir name = .error code
  closed {dir node : VNode} {name : List Char} {type : Word} (brought : unused dir) (used : ¬ later dir)
    (answer : called.lookup dir name = .ok (node, type)) : ¬ later node
  own_self {dir node : VNode} {type : Word} (brought : unused dir)
    (answer : called.lookup dir dot = .ok (node, type)) : node = dir ∧ sIsdir type
  own_parent {dir node : VNode} {type : Word} (brought : unused dir)
    (answer : called.lookup dir dotDot = .ok (node, type)) : sIsdir type ∧ (node = dir → dir = root)
  own_top : ∃ type, called.lookup root dotDot = .ok (root, type)

variable {state called : VFSState} {unused later : VNode → Prop} {fsmount next : Nat} {dir root : VNode}

/-- What had been in use is a root where it was one. -/
theorem Linked.isRoot_old {mounted : VFSState} {node : VNode} (linked : Linked state mounted unused dir root)
    (old : ¬ unused node) : IsRoot mounted node ↔ IsRoot state node := by
  unfold IsRoot
  rw [(linked.old old).1]

/-- No mount uncovers a node. -/
theorem Linked.covered_more {mounted : VFSState} {node : VNode} (linked : Linked state mounted unused dir root)
    (covered : state.coveredBy node ≠ none) : mounted.coveredBy node ≠ none := by
  rw [linked.coveredBy]
  by_cases here : node = dir
  · rw [here, Function.update_self]
    exact Option.some_ne_none root
  · rw [Function.update_of_ne here]
    exact covered

/-- The nodes that have been brought are of the new mount. -/
theorem BringsTree.mounts_own {node : VNode} (brings : BringsTree state called unused later fsmount next root)
    (linked : Linked state (linkedOn called fsmount dir) unused dir root) (brought : unused node) (taken : ¬ later node) :
    (linkedOn called fsmount dir).mounts ((linkedOn called fsmount dir).mountOf node) = ⟨root, some dir⟩ := by
  have same : (linkedOn called fsmount dir).mountOf node = (linkedOn called fsmount dir).mountOf root :=
    (brings.own_mount brought taken).trans brings.mountOf.symm
  rw [same]
  exact linked.mount

/-- Its root is the only one among them. -/
theorem BringsTree.isRoot_own {node : VNode} (brings : BringsTree state called unused later fsmount next root)
    (linked : Linked state (linkedOn called fsmount dir) unused dir root) (brought : unused node) (taken : ¬ later node) :
    IsRoot (linkedOn called fsmount dir) node ↔ node = root := by
  unfold IsRoot
  rw [brings.mounts_own linked brought taken]
  exact eq_comm

/-- A mount on a directory in use keeps what resolutions rely on. -/
theorem BringsTree.consistent (brings : BringsTree state called unused later fsmount next root)
    (consistent : Consistent state unused fsmount) (apart : ∀ {node}, ¬ unused node → state.mountOf node ≠ next)
    (used : ¬ unused dir) :
    Consistent (linkedOn called fsmount dir) later next := by
  have linked : Linked state (linkedOn called fsmount dir) unused dir root := brings.toBrings.linked consistent
  -- a node in use was in use before, or has been brought
  have kept {node : VNode} (old : ¬ unused node) : ¬ later node := fun left => old (brings.still left)
  have same_lookup {node : VNode} (old : ¬ unused node) :
      (linkedOn called fsmount dir).lookup node = state.lookup node := (linked.old old).2.1
  constructor
  case apart =>
    intro node taken
    by_cases brought : unused node
    · exact (brings.own_mount brought taken).trans_ne brings.next_apart.symm
    · exact (brings.old brought).1.trans_ne (apart brought)
  case uncovered =>
    intro node left
    have other : node ≠ dir := fun same => used (same ▸ brings.still left)
    rw [linked.coveredBy, Function.update_of_ne other]
    exact consistent.uncovered (brings.still left)
  case silent => exact fun left name => brings.silent left name
  case stays =>
    intro place node name type taken answer
    by_cases brought : unused place
    · exact brings.closed brought taken answer
    · rw [same_lookup brought] at answer
      exact kept (consistent.stays brought answer)
  case root =>
    intro node first
    rw [linked.rootNode] at first
    obtain ⟨old, is_root⟩ := consistent.root first
    exact ⟨kept old, (linked.isRoot_old old).mpr is_root⟩
  case covered =>
    intro node top mounted
    rw [linked.coveredBy] at mounted
    by_cases here : node = dir
    · rw [here, Function.update_self] at mounted
      cases mounted
      exact ⟨brings.taken, (brings.isRoot_own linked linked.fresh brings.taken).mpr rfl⟩
    · rw [Function.update_of_ne here] at mounted
      obtain ⟨old, is_root⟩ := consistent.covered mounted
      exact ⟨kept old, (linked.isRoot_old old).mpr is_root⟩
  case covers =>
    intro top node taken is_root mounted
    by_cases brought : unused top
    · rw [brings.mounts_own linked brought taken] at mounted
      cases mounted
      refine ⟨kept used, ?_⟩
      rw [linked.coveredBy, Function.update_self]
      exact Option.some_ne_none root
    · rw [(linked.old brought).1] at mounted
      obtain ⟨old, covered⟩ := consistent.covers brought ((linked.isRoot_old brought).mp is_root) mounted
      exact ⟨kept old, linked.covered_more covered⟩
  case self =>
    intro place node type answer
    by_cases brought : unused place
    · exact brings.own_self brought answer
    · rw [same_lookup brought] at answer
      exact consistent.self answer
  case parent =>
    intro place node type answer
    by_cases brought : unused place
    · obtain ⟨is_dir, top⟩ := brings.own_parent brought answer
      refine ⟨is_dir, fun same => ?_⟩
      obtain rfl := top same
      exact (brings.isRoot_own linked brought brings.taken).mpr rfl
    · rw [same_lookup brought] at answer
      obtain ⟨is_dir, top⟩ := consistent.parent answer
      exact ⟨is_dir, fun same => (linked.isRoot_old brought).mpr (top same)⟩
  case top =>
    intro place taken is_root
    by_cases brought : unused place
    · obtain rfl := (brings.isRoot_own linked brought taken).mp is_root
      exact brings.own_top
    · rw [same_lookup brought]
      exact consistent.top brought ((linked.isRoot_old brought).mp is_root)

/-- `Mount` succeeds with such a file system. -/
def MountsTree (env : MountEnvironment) (source mountpoint fstype : List Char) (state mounted : VFSState)
    (unused later : VNode → Prop) (fsmount next : Nat) (root : VNode) : Prop :=
  env.newMount = some fsmount ∧
    (∃ code called, mountCalled env source mountpoint fstype state = some (code, called) ∧ 0 ≤ code ∧
      BringsTree state called unused later fsmount next root) ∧
    mount env source mountpoint fstype state = some (0, mounted)

/-- Mounts one after the other, each with nodes and an address that are left for the next one. -/
inductive MountRun (start : VFSState) (free : VNode → Prop) (address : Nat) : VFSState → (VNode → Prop) → Nat → Prop
  | none : MountRun start free address start free address
  | mount {state mounted : VFSState} {unused later : VNode → Prop} {fsmount next : Nat} {env : MountEnvironment}
      {source path fstype : List Char} {dir root : VNode} (before : MountRun start free address state unused fsmount)
      (found : resolution state env.heap path = some (.ok dir))
      (mounts : MountsTree env source path fstype state mounted unused later fsmount next root)
      (apart : ∀ {node}, ¬ unused node → state.mountOf node ≠ next) : MountRun start free address mounted later next

/-- Whatever has been mounted, and wherever, what resolutions rely on still holds. -/
theorem MountRun.consistent {start mounted : VFSState} {free : VNode → Prop} {address : Nat}
    (run : MountRun start free address mounted later next) (consistent : Consistent start free address)
    (rooted : start.rootNode ≠ Option.none) : mounted.rootNode ≠ Option.none ∧ Consistent mounted later next := by
  induction run with
  | none => exact ⟨rooted, consistent⟩
  | mount before found mounts apart ih =>
    obtain ⟨rooted, consistent⟩ := ih
    obtain ⟨first, top⟩ := Option.ne_none_iff_exists'.mp rooted
    obtain ⟨granted, ⟨code, called, run, _, brings⟩, result⟩ := mounts
    obtain rfl := mounted_eq_linkedOn top found granted run result
    refine ⟨?_, brings.consistent consistent apart (consistent.used top found)⟩
    rw [(brings.toBrings.linked consistent).rootNode]
    exact rooted

end Runs
end FluxOS.VFS
