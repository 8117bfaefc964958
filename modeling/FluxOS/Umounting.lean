import FluxOS.Mounting

/-! What `Umount` leaves behind: the node that was covered still points to the root of the mount
that has been deleted. -/
namespace FluxOS.VFS
open Words LinkedPointers VFSState

section Undoing

/-- The node of a resolution, or its error. -/
def resolution (state : VFSState) (heap : KernelHeap) (path : List Char) : Option (Except Int VNode) :=
  (state.resolve heap path).map fun run => run.1.result

/-- The file system is mounted on the node that the mount point resolves to. -/
def Mounts (env : MountEnvironment) (source mountpoint fstype : List Char) (state mounted : VFSState) : Prop :=
  (∃ code called, mountCalled env source mountpoint fstype state = some (code, called) ∧ 0 ≤ code) ∧
    mount env source mountpoint fstype state = some (0, mounted)

/-- The mount of the node that the mount point resolves to is unmounted. -/
def Unmounts (umountOp : VNode → VFSState → Int × VFSState) (heap : KernelHeap) (mountpoint : List Char)
    (mounted after : VFSState) (node : VNode) : Prop :=
  resolution mounted heap mountpoint = some (.ok node) ∧ umount umountOp heap mountpoint mounted = some (0, after)

variable {env : MountEnvironment} {source mountpoint fstype : List Char} {state mounted after : VFSState}
  {umountOp : VNode → VFSState → Int × VFSState} {heap : KernelHeap} {node : VNode}

/-- Without a node to start from, only absolute paths are resolved. -/
theorem absolute_of_found {tree : FileTree} {path : List Char} {e : Effects} {follow : Bool}
    (run : relativePathToVnode tree heap none path follow = (.found node, e)) :
    path.head? = some '/' ∧ heap.grants 0 = true := by
  unfold relativePathToVnode maxCount at run
  rw [resolveNested] at run
  split at run
  · rename_i granted
    refine ⟨?_, granted⟩
    by_contra relative
    rw [origin, if_neg relative] at run
    cases run
  · cases run

theorem resolution_eq_some (found : resolution state heap mountpoint = some (.ok node)) :
    ∃ e, state.resolve heap mountpoint = some (.found node, e) := by
  obtain ⟨⟨resolved, e⟩, run, result⟩ := Option.map_eq_some_iff.mp found
  cases resolved with
  | failed code cleared => cases result
  | found other =>
    cases result
    exact ⟨e, run⟩

/-- Where a mount has been made on top of a root, its mount point resolves, and is an absolute path. -/
theorem Mounts.resolves (mounts : Mounts env source mountpoint fstype state mounted) (root : state.rootNode ≠ none) :
    ∃ mntnode, resolution state env.heap mountpoint = some (.ok mntnode) ∧
      mountpoint.head? = some '/' ∧ env.heap.grants 0 = true := by
  obtain ⟨code, called, run, _⟩ := mounts.1
  obtain ⟨info, _, run⟩ := Option.bind_eq_some_iff.mp run
  obtain ⟨top, top_eq⟩ := Option.ne_none_iff_exists'.mp root
  rw [top_eq] at run
  dsimp only at run
  obtain ⟨⟨resolved, e⟩, resolves, run⟩ := Option.bind_eq_some_iff.mp run
  cases resolved with
  | failed code cleared => cases run
  | found mntnode =>
    refine ⟨mntnode, by rw [resolution, resolves]; rfl, ?_⟩
    rw [resolve, top_eq] at resolves
    exact absolute_of_found (Option.some.inj resolves)

/-- Before the file system is called, only reference counts change. -/
def unreferenced (state : VFSState) (node : VNode) : VFSState :=
  match (state.mounts (state.mountOf node)).coversVNode with
  | some coversVNode => state.put coversVNode
  | none => state

theorem Unmounts.called (unmounts : Unmounts umountOp heap mountpoint mounted after node) :
    ∃ e, let called := umountOp node (unreferenced (mounted.charge e) node)
      after = { (called.2.put node).put node with
        rootNode := if called.2.rootNode = some node then none else called.2.rootNode } := by
  obtain ⟨found, run⟩ := unmounts
  obtain ⟨e, resolves⟩ := resolution_eq_some found
  refine ⟨e, ?_⟩
  rw [umount, resolves] at run
  have run := Option.some.inj run
  dsimp only at run
  change (if (umountOp node (unreferenced (mounted.charge e) node)).1 < 0 then _ else _) = _ at run
  split at run
  · rename_i negative
    have zero : (umountOp node (unreferenced (mounted.charge e) node)).1 = 0 := congrArg Prod.fst run
    omega
  · exact (congrArg Prod.snd run).symm

end Undoing
end FluxOS.VFS
