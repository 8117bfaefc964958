import FluxOS.TreeSimulation
import FluxOS.Umounting

/-! On which directories a mount takes effect. -/
namespace FluxOS.VFS
open Words SeparatedNames VFSState

def dot : List Char := ['.']

section Statement

/-- A node is the root of its mount. -/
def IsRoot (state : VFSState) (node : VNode) : Prop := (state.mounts (state.mountOf node)).fsRootVNode = node

/-- A state as the mounts so far leave it, with nodes that are not in use yet, and the address of a mount that is
to have them. -/
structure Consistent (state : VFSState) (unused : VNode → Prop) (fsmount : Nat) : Prop where
  apart {node : VNode} (used : ¬ unused node) : state.mountOf node ≠ fsmount
  uncovered {node : VNode} (fresh : unused node) : state.coveredBy node = none
  silent {dir : VNode} (fresh : unused dir) (name : List Char) : ∃ code, state.lookup dir name = .error code
  stays {dir node : VNode} {name : List Char} {type : Word} (used : ¬ unused dir)
    (answer : state.lookup dir name = .ok (node, type)) : ¬ unused node
  root {node : VNode} (first : state.rootNode = some node) : ¬ unused node ∧ IsRoot state node
  covered {node top : VNode} (mounted : state.coveredBy node = some top) : ¬ unused top ∧ IsRoot state top
  covers {top node : VNode} (used : ¬ unused top) (is_root : IsRoot state top)
    (mounted : (state.mounts (state.mountOf top)).coversVNode = some node) : ¬ unused node ∧ state.coveredBy node ≠ none
  self {dir node : VNode} {type : Word} (answer : state.lookup dir dot = .ok (node, type)) : node = dir ∧ sIsdir type
  parent {dir node : VNode} {type : Word} (answer : state.lookup dir dotDot = .ok (node, type)) :
    sIsdir type ∧ (node = dir → IsRoot state dir)
  top {dir : VNode} (used : ¬ unused dir) (is_root : IsRoot state dir) : ∃ type, state.lookup dir dotDot = .ok (dir, type)

/-- A directory: it has an entry for itself, and is not reported as a regular file. -/
structure IsDirectory (state : VFSState) (node : VNode) : Prop where
  self : ∃ type, state.lookup node dot = .ok (node, type)
  reported {dir : VNode} {name : List Char} {type : Word} (answer : state.lookup dir name = .ok (node, type)) :
    sIsreg type = false

/-- What the mount operation of a file system brings: a root directory among nodes that were not in use; all
else stays as it is. -/
structure Brings (state called : VFSState) (unused : VNode → Prop) (fsmount : Nat) (root : VNode) : Prop where
  rootNode : called.rootNode = state.rootNode
  coveredBy : called.coveredBy = state.coveredBy
  old {node : VNode} (used : ¬ unused node) : called.mountOf node = state.mountOf node ∧
    called.lookup node = state.lookup node ∧ called.readlink node = state.readlink node
  mounts {other : Nat} (different : other ≠ fsmount) : called.mounts other = state.mounts other
  fsRootVNode : (called.mounts fsmount).fsRootVNode = root
  mountOf : called.mountOf root = fsmount
  fresh : unused root
  own {dir node : VNode} {name : List Char} {type : Word} (brought : unused dir)
    (answer : called.lookup dir name = .ok (node, type)) : unused node
  self : ∃ type, called.lookup root dot = .ok (root, type) ∧ sIsdir type
  reported {dir : VNode} {name : List Char} {type : Word} (answer : called.lookup dir name = .ok (root, type)) :
    sIsreg type = false

/-- `Mount` succeeds with a file system that brings the root `root`. -/
def MountsRoot (env : MountEnvironment) (source mountpoint fstype : List Char) (state mounted : VFSState)
    (unused : VNode → Prop) (fsmount : Nat) (root : VNode) : Prop :=
  env.newMount = some fsmount ∧
    (∃ code called, mountCalled env source mountpoint fstype state = some (code, called) ∧ 0 ≤ code ∧
      Brings state called unused fsmount root) ∧
    mount env source mountpoint fstype state = some (0, mounted)

/-- The targets of links, within a resolution that has begun. -/
def expansion (tree : FileTree) (heap : KernelHeap) : VNode → List Char → Effects → Resolved × Effects :=
  fun node target e => resolveNested tree heap true (maxCount - 1) (some node) target e

/-- The mount point resolves to the root of the mount, its entries are looked up in there, and `..` leads from it
to where it led before. -/
structure TakesEffect (heap : KernelHeap) (path : List Char) (state mounted : VFSState) (first root : VNode) : Prop where
  resolves : resolution mounted heap path = some (.ok root)
  entries {name : List Char} (some_name : name ≠ []) (plain : '/' ∉ name) : ∃ e,
    mounted.resolve heap path = some (.found root, e) ∧ resolution mounted heap (path ++ '/' :: name) =
      some (resolveNames (mounted.tree first) heap true (expansion (mounted.tree first) heap) root [name] e).1.result
  parent : resolution mounted heap (path ++ '/' :: dotDot) = resolution state heap (path ++ '/' :: dotDot)

/-- The state in which a directory has no entries but `.` and `..`. -/
def onlyDots (state : VFSState) (dir : VNode) : VFSState :=
  { state with lookup := fun node name =>
      if node = dir ∧ name ≠ dot ∧ name ≠ dotDot then .error (-enoent) else state.lookup node name }

/-- The directory is no root, and the path comes to it without having looked for anything in it but `.` and `..`. -/
def ComesAfresh (heap : KernelHeap) (path : List Char) (state : VFSState) (dir : VNode) : Prop :=
  ¬ IsRoot state dir ∧ resolution (onlyDots state dir) heap path = some (.ok dir)

end Statement

/-! ## Paths that go on -/

section Append

variable {tree : FileTree} {heap : KernelHeap} {expand : VNode → List Char → Effects → Resolved × Effects}

/-- A node that is no regular file for any lookup that leads to it. -/
def NeverRegular (tree : FileTree) (node : VNode) : Prop :=
  ∀ {dir found : VNode} {name : List Char} {type : Word}, tree.lookup dir name = .ok (found, type) →
    below tree found = node → sIsreg type = false

theorem not_sIslnk_of_sIsreg {type : Word} (regular : sIsreg type = true) : sIslnk type = false := by
  simp only [sIsreg, sIslnk, decide_eq_true_eq, decide_eq_false_iff_not] at regular ⊢
  rw [regular]
  decide

/-- The last name of a path may have more names behind it. -/
theorem resolveComponent_onward {dir node : VNode} {name : List Char} {e e' : Effects} (never : NeverRegular tree node)
    (run : resolveComponent tree heap true expand dir name true e = (.found node, e')) :
    resolveComponent tree heap true expand dir name false e = (.found node, e') := by
  simp only [resolveComponent, leaveMount_eq, enterMount_eq, Bool.true_eq_false, false_and, not_false_eq_true, and_true,
    and_false, if_false] at run ⊢
  cases answer : tree.lookup (above tree dir name) name with
  | error code =>
    rw [answer] at run
    cases run
  | ok entry =>
    obtain ⟨found, type⟩ := entry
    rw [answer] at run
    dsimp only at run ⊢
    by_cases regular : sIsreg type = true
    · rw [if_neg (by rw [not_sIslnk_of_sIsreg regular]; decide)] at run
      have reported := never answer (congrArg (fun r : Resolved × Effects => r.1) run |> Resolved.found.inj)
      rw [regular] at reported
      cases reported
    · rw [if_neg regular]
      exact run

theorem resolveNames_append {dir node : VNode} {path more : List (List Char)} {e e' : Effects}
    (never : NeverRegular tree node)
    (run : resolveNames tree heap true expand dir path e = (.found node, e')) :
    resolveNames tree heap true expand dir (path ++ more) e = resolveNames tree heap true expand node more e' := by
  induction path generalizing dir e with
  | nil =>
    cases run
    rfl
  | cons name rest ih =>
    rw [List.cons_append]
    rw [resolveNames] at run ⊢
    have same : ∀ next after, resolveComponent tree heap true expand dir name rest.isEmpty e = (.found next, after) →
        resolveNames tree heap true expand next rest after = (.found node, e') →
          resolveComponent tree heap true expand dir name (rest ++ more).isEmpty e = (.found next, after) := by
      intro next after step onward
      cases rest with
      | cons => exact step
      | nil =>
        cases more with
        | nil => exact step
        | cons =>
          cases onward
          exact resolveComponent_onward never step
    cases step : resolveComponent tree heap true expand dir name rest.isEmpty e with
    | mk resolved after =>
      rw [step] at run
      cases resolved with
      | failed code cleared => cases run
      | found next =>
        rw [same next after step run]
        exact ih run

end Append

section Resolving

variable {state mounted called : VFSState} {unused : VNode → Prop} {fsmount : Nat} {heap : KernelHeap}
  {path : List Char} {dir first root : VNode}

/-- A resolution that finds something is a walk from the root node. -/
theorem resolve_eq (top : state.rootNode = some first) (absolute : path.head? = some '/') (granted : heap.grants 0 = true) :
    state.resolve heap path = some (resolveNames (state.tree first) heap true (expansion (state.tree first) heap) first
      (names '/' path) (Effects.none.request.reference first)) := by
  rw [resolve, top]
  dsimp only
  rw [relativePathToVnode, maxCount, resolveNested_eq granted (if_pos absolute)]
  rfl

theorem resolve_found {e : Effects} (top : state.rootNode = some first)
    (found : state.resolve heap path = some (.found dir, e)) : path.head? = some '/' ∧ heap.grants 0 = true := by
  rw [resolve, top] at found
  exact absolute_of_found (Option.some.inj found)

/-- A path goes on where it has come to. -/
theorem resolve_append {e : Effects} {more : List Char} (top : state.rootNode = some first)
    (found : state.resolve heap path = some (.found dir, e)) (never : NeverRegular (state.tree first) dir) :
    state.resolve heap (path ++ '/' :: more) = some (resolveNames (state.tree first) heap true
      (expansion (state.tree first) heap) dir (names '/' more) e) := by
  obtain ⟨absolute, granted⟩ := resolve_found top found
  have absolute' : (path ++ '/' :: more).head? = some '/' := by
    cases path with
    | nil => cases absolute
    | cons head rest => exact absolute
  rw [resolve_eq top absolute granted] at found
  rw [resolve_eq top absolute' granted, names_append_separator]
  exact congrArg some (resolveNames_append never (Option.some.inj found))

/-- One step of `..`. -/
theorem resolveNames_dotDot {tree : FileTree} {expand : VNode → List Char → Effects → Resolved × Effects} {dir : VNode}
    (dirs : ∀ {node : VNode} {type : Word}, tree.lookup (above tree dir dotDot) dotDot = .ok (node, type) →
      sIsdir type = true) (e : Effects) :
    (resolveNames tree heap true expand dir [dotDot] e).1.result =
      (tree.lookup (above tree dir dotDot) dotDot).map fun entry => below tree entry.1 := by
  cases answer : tree.lookup (above tree dir dotDot) dotDot with
  | error code =>
    simp only [resolveNames, resolveComponent, leaveMount_eq, answer]
    rfl
  | ok entry =>
    have is_dir := dirs answer
    simp only [resolveNames, resolveComponent, leaveMount_eq, enterMount_eq, answer, sIsreg_of_sIsdir is_dir,
      sIslnk_of_sIsdir is_dir, Bool.false_eq_true, false_and, if_false]
    rfl

/-- What the nodes of a tree say after a mount on `dir`. -/
structure Linked (state mounted : VFSState) (unused : VNode → Prop) (dir root : VNode) : Prop where
  rootNode : mounted.rootNode = state.rootNode
  coveredBy : mounted.coveredBy = Function.update state.coveredBy dir (some root)
  old {node : VNode} (used : ¬ unused node) : mounted.mounts (mounted.mountOf node) = state.mounts (state.mountOf node) ∧
    mounted.lookup node = state.lookup node ∧ mounted.readlink node = state.readlink node
  mount : mounted.mounts (mounted.mountOf root) = ⟨root, some dir⟩
  fresh : unused root
  own {dir node : VNode} {name : List Char} {type : Word} (brought : unused dir)
    (answer : mounted.lookup dir name = .ok (node, type)) : unused node
  self : ∃ type, mounted.lookup root dot = .ok (root, type) ∧ sIsdir type
  reported {dir : VNode} {name : List Char} {type : Word} (answer : mounted.lookup dir name = .ok (root, type)) :
    sIsreg type = false

/-- A mount, put in front of a node. -/
def linkedOn (called : VFSState) (fsmount : Nat) (mntnode : VNode) : VFSState :=
  let linked := { called with
    coveredBy := Function.update called.coveredBy mntnode (some (called.mounts fsmount).fsRootVNode) }
  let linked := linked.setCovers fsmount (some mntnode)
  { linked with firstFreeMntID := linked.firstFreeMntID + 1#32 }

/-- A mount operation that has been called has its mount put in front of the mount point. -/
theorem mount_eq_linkedOn {env : MountEnvironment} {source fstype : List Char} {code : Int} {e : Effects}
    (top : state.rootNode = some first) (resolves : state.resolve env.heap path = some (.found dir, e))
    (granted : env.newMount = some fsmount) (run : mountCalled env source path fstype state = some (code, called)) :
    mount env source path fstype state = some (0, linkedOn called fsmount dir) := by
  obtain ⟨info, registered, run⟩ := Option.bind_eq_some_iff.mp run
  rw [top] at run
  dsimp only at run
  rw [resolves, Option.bind_some] at run
  obtain ⟨address, granted', answer⟩ := calledWith_eq_some run
  rw [granted] at granted'
  cases granted'
  rw [mount, registered]
  dsimp only
  rw [top]
  dsimp only
  rw [resolves, Option.bind_some]
  dsimp only
  rw [mountOn, granted]
  dsimp only
  rw [answer]
  rfl

theorem Brings.linked (consistent : Consistent state unused fsmount) (brings : Brings state called unused fsmount root) :
    Linked state (linkedOn called fsmount dir) unused dir root where
  rootNode := brings.rootNode
  coveredBy := by
    change Function.update called.coveredBy dir (some (called.mounts fsmount).fsRootVNode) = _
    rw [brings.coveredBy, brings.fsRootVNode]
  old := by
    intro node used
    have different : called.mountOf node ≠ fsmount := by
      rw [(brings.old used).1]
      exact consistent.apart used
    refine ⟨?_, (brings.old used).2⟩
    change Function.update called.mounts fsmount _ (called.mountOf node) = _
    rw [Function.update_of_ne different, brings.mounts different, (brings.old used).1]
  mount := by
    change Function.update called.mounts fsmount _ (called.mountOf root) = _
    rw [brings.mountOf, Function.update_self]
    exact congrArg (fun top => FSMount.mk top (some dir)) brings.fsRootVNode
  fresh := brings.fresh
  own := brings.own
  self := brings.self
  reported := brings.reported

/-- The state after a `Mount` that has succeeded. -/
theorem mounted_eq_linkedOn {env : MountEnvironment} {source fstype : List Char} {code : Int}
    (top : state.rootNode = some first) (found : resolution state env.heap path = some (.ok dir))
    (granted : env.newMount = some fsmount) (run : mountCalled env source path fstype state = some (code, called))
    (result : mount env source path fstype state = some (0, mounted)) : mounted = linkedOn called fsmount dir := by
  obtain ⟨e, resolves⟩ := resolution_eq_some found
  rw [mount_eq_linkedOn top resolves granted run] at result
  cases result
  rfl

theorem MountsRoot.linked {env : MountEnvironment} {source fstype : List Char} (consistent : Consistent state unused fsmount)
    (top : state.rootNode = some first) (found : resolution state env.heap path = some (.ok dir))
    (mounts : MountsRoot env source path fstype state mounted unused fsmount root) :
    Linked state mounted unused dir root := by
  obtain ⟨granted, ⟨code, called, run, _, brings⟩, result⟩ := mounts
  obtain rfl := mounted_eq_linkedOn top found granted run result
  exact brings.linked consistent

/-- A walk ends where it began, or behind the covers of a node. -/
theorem resolveNames_below {tree : FileTree} {expand : VNode → List Char → Effects → Resolved × Effects} {dir node : VNode}
    {path : List (List Char)} {e e' : Effects}
    (run : resolveNames tree heap true expand dir path e = (.found node, e')) : node = dir ∨ ∃ found, node = below tree found := by
  induction path generalizing dir e with
  | nil =>
    cases run
    exact .inl rfl
  | cons name rest ih =>
    rw [resolveNames] at run
    cases step : resolveComponent tree heap true expand dir name rest.isEmpty e with
    | mk resolved after =>
      rw [step] at run
      cases resolved with
      | failed code cleared => cases run
      | found next =>
        refine .inr ((ih run).elim (fun same => ?_) id)
        subst same
        simp only [resolveComponent, leaveMount_eq, enterMount_eq] at step
        split at step
        · cases step
        · split at step
          · cases step
          · split at step
            · cases step
            · cases step
              exact ⟨_, rfl⟩

/-- Walks stay among the nodes in use. -/
theorem Consistent.used (consistent : Consistent state unused fsmount) (top : state.rootNode = some first)
    (found : resolution state heap path = some (.ok dir)) : ¬ unused dir := by
  have entered {node : VNode} (used : ¬ unused node) : ¬ unused (below (state.tree first) node) := by
    unfold below
    cases mounted : (state.tree first).coveredBy node with
    | none => exact used
    | some top => exact (consistent.covered mounted).1
  have above_used {node : VNode} {name : List Char} (used : ¬ unused node) : ¬ unused (above (state.tree first) node name) := by
    unfold above
    split
    · rename_i leaves
      cases covers : ((state.tree first).mount node).coversVNode with
      | none => exact used
      | some covered => exact (consistent.covers used leaves.2 covers).1
    · exact used
  have closed : Simulation False (state.tree first) (state.tree first) fun node node' => node' = node ∧ ¬ unused node :=
    { root := ⟨rfl, (consistent.root top).1⟩
      found := by
        rintro dir _ node name type ⟨rfl, used⟩ answer
        exact ⟨node, type, answer, rfl, rfl, ⟨rfl, entered (consistent.stays (above_used used) answer)⟩,
          fun _ => ⟨⟨rfl, above_used used⟩, rfl⟩⟩
      failed := fun impossible => impossible.elim
      entered := by
        rintro node _ ⟨rfl, used⟩
        exact ⟨rfl, entered used⟩ }
  have ends := relativePathToVnode_alike closed heap path true
  obtain ⟨e, resolves⟩ := resolution_eq_some found
  rw [resolve, top] at resolves
  rw [EndsAs, Option.some.inj resolves] at ends
  obtain ⟨_, _, ⟨_, used⟩, _⟩ := ends
  exact used

/-- A directory that is found and is no root is not covered. -/
theorem Consistent.uncovered_of_found (consistent : Consistent state unused fsmount) (top : state.rootNode = some first)
    (found : resolution state heap path = some (.ok dir)) (not_root : ¬ IsRoot state dir) : state.coveredBy dir = none := by
  obtain ⟨e, resolves⟩ := resolution_eq_some found
  obtain ⟨absolute, granted⟩ := resolve_found top resolves
  rw [resolve_eq top absolute granted] at resolves
  rcases resolveNames_below (Option.some.inj resolves) with same | ⟨node, behind⟩
  · exact absurd (same ▸ (consistent.root top).2) not_root
  · cases covered : state.coveredBy node with
    | none =>
      have same : dir = node := by
        rw [behind, below]
        change (state.coveredBy node).getD node = node
        rw [covered]
        rfl
      rw [same, covered]
    | some top =>
      have same : dir = top := by
        rw [behind, below]
        change (state.coveredBy node).getD node = top
        rw [covered]
        rfl
      exact absurd (same ▸ (consistent.covered covered).2) not_root

/-- Where the nodes of the tree before a mount are to be found behind it. -/
def Behind (unused : VNode → Prop) (dir root : VNode) (node node' : VNode) : Prop :=
  ¬ unused node ∧ node' = if node = dir then root else node

section Mounted

variable (first)
variable (consistent : Consistent state unused fsmount) (linked : Linked state mounted unused dir root)
  (not_root : ¬ IsRoot state dir) (uncovered : state.coveredBy dir = none) (used : ¬ unused dir)

include linked in
theorem Linked.above_root (name : List Char) :
    above (mounted.tree first) root name = if name = dotDot then dir else root := by
  unfold above
  change (if name = dotDot ∧ (mounted.mounts (mounted.mountOf root)).fsRootVNode = root then
    (mounted.mounts (mounted.mountOf root)).coversVNode.getD root else root) = _
  rw [linked.mount]
  by_cases up : name = dotDot
  · rw [if_pos up, if_pos ⟨up, rfl⟩]
    rfl
  · rw [if_neg up, if_neg fun both => up both.1]

include not_root in
theorem above_not_root (name : List Char) : above (state.tree first) dir name = dir :=
  if_neg fun both => not_root both.2

include consistent linked uncovered in
/-- Elsewhere the walk leaves a mount as before, and never to the mount point. -/
theorem Linked.above_other {node : VNode} (elsewhere : ¬ unused node) (different : node ≠ dir) (name : List Char) :
    above (mounted.tree first) node name = above (state.tree first) node name ∧
      ¬ unused (above (state.tree first) node name) ∧ above (state.tree first) node name ≠ dir := by
  have same : (mounted.tree first).mount node = (state.tree first).mount node := (linked.old elsewhere).1
  unfold above
  rw [same]
  refine ⟨rfl, ?_⟩
  split
  · rename_i leaves
    cases covers : ((state.tree first).mount node).coversVNode with
    | none => exact ⟨elsewhere, different⟩
    | some covered =>
      obtain ⟨used, is_covered⟩ := consistent.covers elsewhere leaves.2 covers
      exact ⟨used, fun same => is_covered (by rw [show covered = dir from same]; exact uncovered)⟩
  · exact ⟨elsewhere, different⟩

include consistent linked not_root uncovered in
/-- What is found is behind the mount as before, except for the mount point itself. -/
theorem Linked.below_behind {node : VNode} (used : ¬ unused node) :
    Behind unused dir root (below (state.tree first) node) (below (mounted.tree first) node) := by
  have new : (mounted.tree first).coveredBy = Function.update (state.tree first).coveredBy dir (some root) :=
    linked.coveredBy
  unfold below Behind
  rw [new]
  by_cases same : node = dir
  · subst same
    have bare : (state.tree first).coveredBy node = none := uncovered
    rw [bare, Function.update_self, Option.getD_none, if_pos rfl]
    exact ⟨used, rfl⟩
  · rw [Function.update_of_ne same]
    cases covered : (state.tree first).coveredBy node with
    | none => exact ⟨used, (if_neg same).symm⟩
    | some top =>
      obtain ⟨top_used, is_root⟩ := consistent.covered covered
      have other : top ≠ dir := fun same => not_root (same ▸ is_root)
      exact ⟨top_used, (if_neg other).symm⟩

include consistent linked uncovered used in
/-- The root of the mount is behind the mount point. -/
theorem Linked.root_behind :
    Behind unused dir root (below (state.tree first) dir) (below (mounted.tree first) root) := by
  have other : root ≠ dir := fun same => used (same ▸ linked.fresh)
  have bare : below (mounted.tree first) root = root := by
    unfold below
    change (mounted.coveredBy root).getD root = root
    rw [linked.coveredBy, Function.update_of_ne other, consistent.uncovered linked.fresh]
    rfl
  have bare' : below (state.tree first) dir = dir := by
    unfold below
    change (state.coveredBy dir).getD dir = dir
    rw [uncovered]
    rfl
  rw [bare, bare']
  exact ⟨used, (if_pos rfl).symm⟩

/-- The lookups that a directory without other entries answers. -/
theorem onlyDots_lookup {node : VNode} {name : List Char} (kept : node ≠ dir ∨ name = dot ∨ name = dotDot) :
    ((onlyDots state dir).tree first).lookup node name = state.lookup node name := by
  refine if_neg fun refused => ?_
  rcases kept with elsewhere | self | up
  · exact elsewhere refused.1
  · exact refused.2.1 self
  · exact refused.2.2 up

theorem onlyDots_refuses {name : List Char} (other : name ≠ dot) (other' : name ≠ dotDot) :
    ((onlyDots state dir).tree first).lookup dir name = .error (-enoent) := if_pos ⟨rfl, other, other'⟩

include linked in
/-- A node that was in use answers as before. -/
theorem Linked.lookup_old {node : VNode} (elsewhere : ¬ unused node) (name : List Char) :
    (mounted.tree first).lookup node name = state.lookup node name := congrFun (linked.old elsewhere).2.1 name

include consistent linked not_root uncovered used in
/-- `..` of the mount point is found behind the mount. -/
theorem Linked.found_parent {found : VNode} {type : Word} (answer : state.lookup dir dotDot = .ok (found, type)) :
    (mounted.tree first).lookup dir dotDot = .ok (found, type) ∧ sIslnk type = false ∧
      Behind unused dir root (below (state.tree first) found) (below (mounted.tree first) found) := by
  refine ⟨(linked.lookup_old first used dotDot).trans answer, sIslnk_of_sIsdir (consistent.parent answer).1, ?_⟩
  exact linked.below_behind first consistent not_root uncovered (consistent.stays used answer)

include consistent linked uncovered used in
/-- For its `.` there is the one of the mount's root. -/
theorem Linked.found_self {found : VNode} {type : Word} (answer : state.lookup dir dot = .ok (found, type)) :
    ∃ type', (mounted.tree first).lookup root dot = .ok (root, type') ∧ sIsreg type' = sIsreg type ∧
      sIslnk type' = sIslnk type ∧ sIslnk type = false ∧
      Behind unused dir root (below (state.tree first) found) (below (mounted.tree first) root) := by
  obtain ⟨rfl, is_dir⟩ := consistent.self answer
  obtain ⟨type', answer', is_dir'⟩ := linked.self
  refine ⟨type', answer', ?_, ?_, sIslnk_of_sIsdir is_dir, linked.root_behind first consistent uncovered used⟩
  · rw [sIsreg_of_sIsdir is_dir, sIsreg_of_sIsdir is_dir']
  · rw [sIslnk_of_sIsdir is_dir, sIslnk_of_sIsdir is_dir']

include consistent linked not_root uncovered used in
/-- Before the mount, in the directory that only has its dots, and behind it. -/
theorem Linked.simulation (directory : IsDirectory state dir) (top : state.rootNode = some first) {strict : Prop}
    (silent : strict → ∀ name, name ≠ dot → mounted.lookup root name = .error (-enoent)) :
    Simulation strict ((onlyDots state dir).tree first) (mounted.tree first) (Behind unused dir root) where
  root := by
    obtain ⟨first_used, is_root⟩ := consistent.root top
    have other : first ≠ dir := fun same => not_root (same ▸ is_root)
    exact ⟨first_used, (if_neg other).symm⟩
  found := by
    rintro node _ found name type ⟨node_used, rfl⟩ answer
    change ((onlyDots state dir).tree first).lookup (above (state.tree first) node name) name = _ at answer
    by_cases here : node = dir
    · subst here
      rw [above_not_root first not_root] at answer
      by_cases up : name = dotDot
      · subst up
        rw [onlyDots_lookup first (.inr (.inr rfl))] at answer
        obtain ⟨known, no_link, behind⟩ := linked.found_parent first consistent not_root uncovered used answer
        rw [if_pos rfl, linked.above_root, if_pos rfl]
        exact ⟨found, type, known, rfl, rfl, behind, fun link => absurd (no_link.symm.trans link) Bool.false_ne_true⟩
      · have self : name = dot := by
          by_contra other
          rw [onlyDots_refuses first other up] at answer
          cases answer
        subst self
        rw [onlyDots_lookup first (.inr (.inl rfl))] at answer
        obtain ⟨type', known, reg, lnk, no_link, behind⟩ := linked.found_self first consistent uncovered used answer
        rw [if_pos rfl, linked.above_root, if_neg up]
        exact ⟨root, type', known, reg, lnk, behind, fun link => absurd (no_link.symm.trans link) Bool.false_ne_true⟩
    · obtain ⟨same, above_used, elsewhere⟩ := linked.above_other first consistent uncovered node_used here name
      rw [if_neg here, same]
      rw [onlyDots_lookup first (.inl elsewhere)] at answer
      have found_used := consistent.stays above_used answer
      refine ⟨found, type, (linked.lookup_old first above_used name).trans answer, rfl, rfl,
        linked.below_behind first consistent not_root uncovered found_used, fun _ => ⟨?_, (linked.old found_used).2.2⟩⟩
      exact ⟨above_used, (if_neg elsewhere).symm⟩
  failed := by
    rintro node _ name code exact ⟨node_used, rfl⟩ answer
    change ((onlyDots state dir).tree first).lookup (above (state.tree first) node name) name = _ at answer
    by_cases here : node = dir
    · subst here
      rw [above_not_root first not_root] at answer
      rw [if_pos rfl, linked.above_root]
      by_cases up : name = dotDot
      · subst up
        rw [onlyDots_lookup first (.inr (.inr rfl))] at answer
        rw [if_pos rfl]
        exact (linked.lookup_old first used dotDot).trans answer
      · rw [if_neg up]
        by_cases self : name = dot
        · subst self
          rw [onlyDots_lookup first (.inr (.inl rfl))] at answer
          obtain ⟨type, found⟩ := directory.self
          rw [found] at answer
          cases answer
        · rw [onlyDots_refuses first self up] at answer
          exact (silent exact name self).trans answer
    · obtain ⟨same, above_used, elsewhere⟩ := linked.above_other first consistent uncovered node_used here name
      rw [if_neg here, same]
      rw [onlyDots_lookup first (.inl elsewhere)] at answer
      exact (linked.lookup_old first above_used name).trans answer
  entered := by
    rintro node _ ⟨node_used, rfl⟩
    change Behind unused dir root (below (state.tree first) node) _
    by_cases here : node = dir
    · subst here
      rw [if_pos rfl]
      exact linked.root_behind first consistent uncovered used
    · rw [if_neg here]
      exact linked.below_behind first consistent not_root uncovered node_used

end Mounted

end Resolving
end FluxOS.VFS
