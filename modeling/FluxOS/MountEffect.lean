import FluxOS.MountPoints

/-! A mount takes effect on a directory that is no root, for paths that have not passed through it: it is put in
front of a node, but never in front of a mount. -/
namespace FluxOS.VFS
open Words SeparatedNames VFSState

section Taking

variable {state mounted called : VFSState} {unused : VNode → Prop} {fsmount : Nat} {heap : KernelHeap}
  {path : List Char} {dir first root : VNode}

/-! ## Around the mount point -/

/-- No lookup reports a directory that is no root as a regular file. -/
theorem Consistent.neverRegular (consistent : Consistent state unused fsmount) (directory : IsDirectory state dir)
    (not_root : ¬ IsRoot state dir) : NeverRegular (state.tree first) dir := by
  intro above_dir found name type answer behind
  change (state.coveredBy found).getD found = dir at behind
  cases covered : state.coveredBy found with
  | none =>
    rw [covered] at behind
    have same : found = dir := behind
    subst same
    exact directory.reported answer
  | some top =>
    rw [covered] at behind
    have same : top = dir := behind
    exact absurd (same ▸ (consistent.covered covered).2) not_root

/-- Nor the root of the mount. -/
theorem Linked.neverRegular (consistent : Consistent state unused fsmount) (linked : Linked state mounted unused dir root)
    (directory : IsDirectory state dir) (used : ¬ unused dir) : NeverRegular (mounted.tree first) root := by
  intro above_dir found name type answer behind
  change (mounted.coveredBy found).getD found = root at behind
  rw [linked.coveredBy] at behind
  change mounted.lookup above_dir name = .ok (found, type) at answer
  by_cases here : found = dir
  · subst here
    by_cases brought : unused above_dir
    · exact absurd (linked.own brought answer) used
    · rw [(linked.old brought).2.1] at answer
      exact directory.reported answer
  · rw [Function.update_of_ne here] at behind
    cases covered : state.coveredBy found with
    | none =>
      rw [covered] at behind
      have same : found = root := behind
      subst same
      exact linked.reported answer
    | some top =>
      rw [covered] at behind
      have same : top = root := behind
      exact absurd linked.fresh (same ▸ (consistent.covered covered).1)

/-- Where `..` leads from the root of the mount. -/
theorem Linked.resolve_parent {e : Effects} (consistent : Consistent state unused fsmount)
    (linked : Linked state mounted unused dir root) (directory : IsDirectory state dir) (used : ¬ unused dir)
    (top : state.rootNode = some first) (found : mounted.resolve heap path = some (.found root, e)) :
    resolution mounted heap (path ++ '/' :: dotDot) =
      some ((state.lookup dir dotDot).map fun entry => below (mounted.tree first) entry.1) := by
  have same : (mounted.tree first).lookup (above (mounted.tree first) root dotDot) dotDot = state.lookup dir dotDot := by
    rw [linked.above_root, if_pos rfl]
    exact congrFun (linked.old used).2.1 dotDot
  rw [resolution, resolve_append (linked.rootNode.trans top) found (linked.neverRegular consistent directory used)]
  refine congrArg some ((resolveNames_dotDot (fun answer => ?_) e).trans (congrArg _ same))
  exact (consistent.parent (same ▸ answer)).1

/-- Where `..` leads from a directory that is no root. -/
theorem Consistent.resolve_parent {e : Effects} (consistent : Consistent state unused fsmount)
    (directory : IsDirectory state dir) (not_root : ¬ IsRoot state dir) (top : state.rootNode = some first)
    (found : state.resolve heap path = some (.found dir, e)) :
    resolution state heap (path ++ '/' :: dotDot) =
      some ((state.lookup dir dotDot).map fun entry => below (state.tree first) entry.1) := by
  have same : (state.tree first).lookup (above (state.tree first) dir dotDot) dotDot = state.lookup dir dotDot := by
    rw [above_not_root first not_root]
    rfl
  rw [resolution, resolve_append top found (consistent.neverRegular directory not_root)]
  refine congrArg some ((resolveNames_dotDot (fun answer => ?_) e).trans (congrArg _ same))
  exact (consistent.parent (same ▸ answer)).1

/-- A mount on a root is not seen: its own root leads back to itself. -/
theorem TakesEffect.not_root (consistent : Consistent state unused fsmount) (linked : Linked state mounted unused dir root)
    (directory : IsDirectory state dir) (top : state.rootNode = some first)
    (found : resolution state heap path = some (.ok dir)) (takes : TakesEffect heap path state mounted first root) :
    ¬ IsRoot state dir := by
  intro is_root
  have used := consistent.used top found
  obtain ⟨e, resolves⟩ := resolution_eq_some takes.resolves
  obtain ⟨type, answer⟩ := consistent.top used is_root
  have back : below (mounted.tree first) dir = root := by
    change (mounted.coveredBy dir).getD dir = root
    rw [linked.coveredBy, Function.update_self]
    rfl
  have leads : resolution mounted heap (path ++ '/' :: dotDot) = some (.ok root) := by
    rw [linked.resolve_parent consistent directory used top resolves, answer]
    exact congrArg (fun node => some (Except.ok node)) back
  exact consistent.used top (takes.parent ▸ leads) linked.fresh

/-- A path that comes to the mount point leads to the root of the mount. -/
theorem Linked.resolves (consistent : Consistent state unused fsmount) (linked : Linked state mounted unused dir root)
    (directory : IsDirectory state dir) (top : state.rootNode = some first)
    (found : resolution state heap path = some (.ok dir)) (comes : ComesAfresh heap path state dir) :
    resolution mounted heap path = some (.ok root) := by
  have used := consistent.used top found
  have uncovered := consistent.uncovered_of_found top found comes.1
  have ends := relativePathToVnode_alike
    (linked.simulation first consistent comes.1 uncovered used directory top (fun impossible : False => impossible.elim))
    heap path true
  obtain ⟨e, run⟩ := resolution_eq_some comes.2
  rw [resolve, show (onlyDots state dir).rootNode = some first from top] at run
  rw [EndsAs, Option.some.inj run] at ends
  obtain ⟨node, same, ⟨_, behind⟩, _⟩ := ends
  rw [if_pos rfl] at behind
  rw [resolution, resolve, linked.rootNode.trans top, Option.map_some, same, behind]
  rfl

/-- What comes behind the mount point is looked up in the mount. -/
theorem Linked.entries {name : List Char} (consistent : Consistent state unused fsmount)
    (linked : Linked state mounted unused dir root) (directory : IsDirectory state dir) (top : state.rootNode = some first)
    (used : ¬ unused dir) (resolves : resolution mounted heap path = some (.ok root)) (some_name : name ≠ [])
    (plain : '/' ∉ name) : ∃ e, mounted.resolve heap path = some (.found root, e) ∧
      resolution mounted heap (path ++ '/' :: name) =
        some (resolveNames (mounted.tree first) heap true (expansion (mounted.tree first) heap) root [name] e).1.result := by
  obtain ⟨e, run⟩ := resolution_eq_some resolves
  refine ⟨e, run, ?_⟩
  rw [resolution, resolve_append (linked.rootNode.trans top) run (linked.neverRegular consistent directory used),
    names_of_not_mem plain, if_neg some_name]
  rfl

end Taking
end FluxOS.VFS
