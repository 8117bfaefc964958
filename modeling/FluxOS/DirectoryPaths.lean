import FluxOS.WorkingDirectory

/-! The way up from a directory is the way down to it, if the root directory comes first under its own name. -/
namespace FluxOS
open Words VFS SeparatedNames

/-! ## Names in the file systems -/

section Tmpfs
open TmpFS

variable {inodes : TmpInodes} {dir node : Nat} {name : List Char} {type : Word}

theorem TmpFS.lookup_eq_ok (answer : TmpFS.lookup inodes dir name = some (.ok (node, type))) :
    Entry inodes dir name node ∧ node ≠ 0 ∧ ∃ found, inode inodes node = some found ∧ type = found.mode.setWidth 32 := by
  obtain ⟨directory, present, answer⟩ := Option.bind_eq_some_iff.mp answer
  split at answer
  · rename_i is_dir
    dsimp only at answer
    split at answer
    · cases answer
    · rename_i some_id
      obtain ⟨found, known, answer⟩ := Option.bind_eq_some_iff.mp answer
      cases answer
      refine ⟨⟨directory, present, is_dir, ?_⟩, some_id, found, known, rfl⟩
      unfold TmpFS.value at some_id ⊢
      cases stored : directory.directory.value qHash name with
      | none =>
        rw [stored] at some_id
        exact absurd rfl some_id
      | some id => rfl
  · cases answer

theorem TmpFS.lookup_of_entry {found : TmpInode} (entry : Entry inodes dir name node) (some_id : node ≠ 0)
    (known : inode inodes node = some found) :
    TmpFS.lookup inodes dir name = some (.ok (node, found.mode.setWidth 32)) := by
  obtain ⟨directory, present, is_dir, stored⟩ := entry
  have value : TmpFS.value directory name = node := by rw [TmpFS.value, stored, Option.getD_some]
  unfold TmpFS.lookup
  simp only [present, Option.bind_eq_bind, Option.bind_some, is_dir, if_true, value, if_neg some_id, known]

/-- `name` gives a name that the directory has for the node. -/
theorem TreeShaped.name_eq (tree : TreeShaped inodes) (entry : Entry inodes dir name node) :
    ∃ other, TmpFS.name inodes dir node = some (.named other) ∧ Entry inodes dir other node := by
  obtain ⟨directory, present, is_dir, stored⟩ := entry
  have placed := tree.tables dir directory present
  have member := placed.value_eq_some_iff.mp stored
  cases found : directory.directory.nodes.find? (·.2 = node) with
  | none =>
    have missing := List.find?_eq_none.mp found _ member
    exact absurd (decide_eq_true rfl) missing
  | some entry =>
    obtain ⟨other, id⟩ := entry
    have same : id = node := by simpa using List.find?_some found
    subst same
    refine ⟨other, ?_, directory, present, is_dir, placed.value_eq_some_iff.mpr (List.mem_of_find?_eq_some found)⟩
    unfold TmpFS.name
    simp only [present, Option.bind_eq_bind, Option.bind_some, is_dir, if_true, found]

/-- In a tree the root has no name but its dots. -/
theorem TreeShaped.root_names (tree : TreeShaped inodes) (entry : Entry inodes NamedFS.rootId name NamedFS.rootId) :
    name = TmpFS.dot ∨ name = dotDot := by
  by_contra proper
  have self := tree.single entry (not_or.mp proper) (tree.dot _ tree.top) tree.top
  exact proper (.inl self.symm)

/-- Nor is it in a directory. -/
theorem TreeShaped.not_root (tree : TreeShaped inodes) (entry : Entry inodes dir name node) (proper : Plain name) :
    node ≠ NamedFS.rootId := by
  rintro rfl
  have up := tree.contained dir name NamedFS.rootId proper.1 proper.2 entry tree.top
  obtain ⟨directory, present, _, stored⟩ := up
  obtain ⟨directory', present', _, stored'⟩ := tree.root
  have same : directory = directory' := Option.some.inj (present.symm.trans present')
  subst same
  have here : dir = NamedFS.rootId := Option.some.inj (stored.symm.trans stored')
  rw [here] at entry
  exact not_or.mpr proper (tree.root_names entry)

theorem treeShaped_mount : TreeShaped TmpFS.mount where
  toSound := sound_mount
  null := rfl
  top := ⟨_, rfl, by decide⟩
  single entry proper _ _ := by
    rcases (entry_mount entry).2.2 with same | same
    · exact absurd same proper.1
    · exact absurd same proper.2
  named entry := by
    rcases (entry_mount entry).2.2 with rfl | rfl <;> decide

/-- A new inode under a new name, in a directory of the tree. -/
theorem TreeShaped.make (tree : TreeShaped inodes) (isDir : IsDirectory inodes dir) (room : Room inodes dir)
    (proper : ProperName name) {new : TmpInode} (placed : new.directory.Placed qHash)
    (names : isDirectory new → ∀ entryName target, new.directory.value qHash entryName = some target ↔
      entryName = TmpFS.dot ∧ target = inodes.length ∨ entryName = dotDot ∧ target = dir) :
    TreeShaped (setInode (inodes ++ [some new]) dir (insertName name inodes.length)) := by
  have appended := tree.append isDir placed names
  have isDir' : IsDirectory (inodes ++ [some new]) dir := by
    rw [isDirectory_append, if_neg isDir.ne_length]
    exact isDir
  have kinds (other : Nat) : IsDirectory (setInode (inodes ++ [some new]) dir (insertName name inodes.length)) other ↔
      IsDirectory (inodes ++ [some new]) other :=
    isDirectory_setInode _ dir (insertName name inodes.length) (fun _ => rfl) other
  have old_entry {other child : Nat} {entryName : List Char} (entry : Entry inodes other entryName child) :
      child ≠ inodes.length := by
    rintro rfl
    have present := tree.existing _ _ _ entry
    rw [inode_length] at present
    cases present
  -- an entry is the new one, or one of the new directory, or an old one
  have cases_of {other child : Nat} {entryName : List Char}
      (entry : Entry (setInode (inodes ++ [some new]) dir (insertName name inodes.length)) other entryName child) :
      (other = dir ∧ entryName = name ∧ child = inodes.length) ∨
        (other = inodes.length ∧ (entryName = TmpFS.dot ∨ entryName = dotDot)) ∨
        Entry inodes other entryName child := by
    rw [appended.entry_insertName (room_append isDir room) isDir'] at entry
    split at entry
    · rename_i here
      exact .inl ⟨here.1, here.2, entry⟩
    · rw [entry_append] at entry
      split at entry
      · rename_i new_dir
        rcases (names entry.1 entryName child).mp entry.2 with ⟨self, _⟩ | ⟨up, _⟩
        · exact .inr (.inl ⟨new_dir, .inl self⟩)
        · exact .inr (.inl ⟨new_dir, .inr up⟩)
      · exact .inr (.inr entry)
  refine ⟨tree.toSound.make isDir room ⟨proper.not_dot, proper.not_dotDot⟩ placed names, ?_, ?_, ?_, ?_⟩
  · obtain ⟨directory, present, _⟩ := isDir
    have some_dir : 0 ≠ dir := by
      rintro rfl
      rw [tree.null] at present
      cases present
    have before := lt_length_of_inode present
    rw [inode_setInode, if_neg some_dir, inode_append, if_neg (by omega)]
    exact tree.null
  · rw [kinds, isDirectory_append, if_neg tree.top.ne_length]
    exact tree.top
  · intro other child entryName entryName' entry plain also is_dir
    rcases cases_of entry with ⟨at_dir, rfl, is_new⟩ | ⟨_, dots⟩ | old
    · rcases cases_of also with ⟨_, same, _⟩ | ⟨in_new, _⟩ | old'
      · exact same
      · exact absurd (at_dir.symm.trans in_new) isDir.ne_length
      · exact absurd is_new (old_entry old')
    · exact absurd dots (not_or.mpr plain)
    · have was_dir : IsDirectory inodes child := by
        rw [kinds, isDirectory_append, if_neg (old_entry old)] at is_dir
        exact is_dir
      rcases cases_of also with ⟨_, _, is_new⟩ | ⟨in_new, _⟩ | old'
      · exact absurd is_new (old_entry old)
      · exact absurd in_new old.isDirectory.ne_length
      · exact tree.single old plain old' was_dir
  · intro other child entryName entry
    rcases cases_of entry with ⟨_, rfl, _⟩ | ⟨_, rfl | rfl⟩ | old
    · exact ⟨proper.some_name, proper.plain⟩
    · decide
    · decide
    · exact tree.named old

/-- `mkdir` keeps the tree. -/
theorem TreeShaped.mkdir (tree : TreeShaped inodes) (isDir : IsDirectory inodes dir) (room : Room inodes dir)
    (proper : ProperName name) (mode : Word) : TreeShaped (TmpFS.mkdir inodes dir name mode).1 := by
  obtain ⟨placed, names⟩ := newDirectory_names inodes.length dir
  have new_length {new : TmpInode} : (inodes ++ [some new]).length - 1 = inodes.length := by simp
  simp only [TmpFS.mkdir, creatInode, new_length, setInode_new isDir]
  exact tree.make isDir room proper placed fun _ => names

end Tmpfs

namespace NamedFS

variable {fs : NamedFS} {dir node : Nat} {name : List Char} {type : Word}

/-- A directory in a directory: its `..` leads there, and it is named by what it is found under. -/
structure Child (fs : NamedFS) (dir node : Nat) : Prop where
  not_root : node ≠ rootId
  up : ∃ type, fs.lookup node dotDot = some (.ok (dir, type))
  named : ∃ name type, fs.name dir node = some (.named name) ∧ ProperName name ∧
    fs.lookup dir name = some (.ok (node, type)) ∧ sIsdir type = true

/-- The root leads to itself, and has one of its dots for a name. -/
structure Top (fs : NamedFS) : Prop where
  up : ∃ type, fs.lookup rootId dotDot = some (.ok (rootId, type))
  named : fs.name rootId rootId = some (.named TmpFS.dot) ∨ fs.name rootId rootId = some (.named dotDot)

theorem tmpfs_child {inodes : TmpInodes} (tree : TreeShaped inodes) (proper : ProperName name)
    (answer : TmpFS.lookup inodes dir name = some (.ok (node, type))) (directory : sIsdir type = true) :
    Child (.tmpfs inodes) dir node := by
  obtain ⟨entry, some_id, found, known, same⟩ := TmpFS.lookup_eq_ok answer
  have plain : TmpFS.Plain name := ⟨proper.not_dot, proper.not_dotDot⟩
  have is_dir : TmpFS.IsDirectory inodes node := ⟨found, known, by rw [same] at directory; exact directory⟩
  obtain ⟨parent, present, _, _⟩ := id entry
  have some_dir : dir ≠ 0 := by
    rintro rfl
    rw [tree.null] at present
    cases present
  refine ⟨tree.not_root entry plain, ?_, ?_⟩
  · exact ⟨_, TmpFS.lookup_of_entry (tree.contained dir name node plain.1 plain.2 entry is_dir) some_dir present⟩
  · obtain ⟨other, called, also⟩ := tree.name_eq entry
    have one : other = name := tree.single entry plain also is_dir
    subst one
    exact ⟨other, type, called, proper, answer, directory⟩

/-- In procfs the directories besides the dots are the processes. -/
theorem procfs_directory {isValidPID : Word → Bool} {place id : ProcFS.NodeId} (proper : ProperName name)
    (answer : ProcFS.lookup isValidPID place name = .ok (id, type)) (directory : sIsdir type = true) :
    place = ProcFS.rootId ∧ isValidPID (atoi name) = true ∧ id = ProcFS.pidToVnodeId (atoi name) := by
  have dots : ¬ (name = TmpFS.dot ∨ name = dotDot) := not_or.mpr ⟨proper.not_dot, proper.not_dotDot⟩
  unfold ProcFS.lookup at answer
  by_cases at_root : place = ProcFS.rootId
  · rw [if_pos at_root, if_neg dots] at answer
    split at answer
    · dsimp only at answer
      split at answer
      · rename_i valid
        cases answer
        exact ⟨at_root, valid, rfl⟩
      · cases answer
    · cases answer
  · rw [if_neg at_root] at answer
    split at answer
    · split at answer
      · cases answer
        exact absurd directory (by decide)
      · rw [if_neg proper.not_dot, if_neg proper.not_dotDot] at answer
        cases answer
    · cases answer

theorem properName_of_isNum (number : ProcFS.isNum name = true) : ProperName name := by
  have digits := of_decide_eq_true number
  refine ⟨?_, ?_, digits.1, fun inside => ?_⟩
  · rintro rfl
    exact absurd number (by decide)
  · rintro rfl
    exact absurd number (by decide)
  · exact absurd (List.all_eq_true.mp digits.2 _ inside) (by decide)

/-- The ids of the nodes. -/
def IsId (fs : NamedFS) (id : Nat) : Prop :=
  match fs with
  | procfs _ => id < 2 ^ 64
  | _ => True

theorem isId_rootId (fs : NamedFS) : fs.IsId rootId := by
  cases fs with
  | procfs isValidPID => exact (by decide : rootId < 2 ^ 64)
  | _ => trivial

theorem isId_of_lookup (answer : fs.lookup dir name = some (.ok (node, type))) : fs.IsId node := by
  cases fs with
  | procfs isValidPID =>
    have answer := Option.some.inj answer
    cases result : ProcFS.lookup isValidPID (BitVec.ofNat 64 dir) name with
    | error code =>
      rw [result] at answer
      cases answer
    | ok entry =>
      rw [result] at answer
      cases answer
      exact entry.1.isLt
  | _ => trivial

theorem procfs_child {isValidPID : Word → Bool} (tree : IsTree (.procfs isValidPID)) (small : dir < 2 ^ 64)
    (proper : ProperName name) (answer : (procfs isValidPID).lookup dir name = some (.ok (node, type)))
    (directory : sIsdir type = true) : Child (.procfs isValidPID) dir node := by
  have answer := Option.some.inj answer
  cases result : ProcFS.lookup isValidPID (BitVec.ofNat 64 dir) name with
  | error code =>
    rw [result] at answer
    cases answer
  | ok entry =>
    obtain ⟨id, type'⟩ := entry
    rw [result] at answer
    cases answer
    obtain ⟨at_root, valid, rfl⟩ := procfs_directory proper result directory
    have here : dir = rootId := (Nat.mod_eq_of_lt small).symm.trans (congrArg BitVec.toNat at_root)
    subst here
    obtain ⟨positive, fits⟩ := tree _ valid
    have process := ProcFS.isPid_of_small positive fits
    have back : BitVec.ofNat 64 (ProcFS.pidToVnodeId (atoi name)).toNat = ProcFS.pidToVnodeId (atoi name) := by
      rw [BitVec.ofNat_toNat, BitVec.setWidth_eq]
    have other : ProcFS.pidToVnodeId (atoi name) ≠ ProcFS.rootId := ProcFS.not_rootId_of_isPid process
    refine ⟨fun same => other (BitVec.eq_of_toNat_eq same), ⟨sIfdir, ?_⟩, itoaz (atoi name).toNat 10, sIfdir, ?_,
      properName_of_isNum (ProcFS.isNum_itoaz positive), ?_, rfl⟩
    · have up : ProcFS.lookup isValidPID (ProcFS.pidToVnodeId (atoi name)) dotDot = .ok (ProcFS.rootId, sIfdir) := by
        rw [ProcFS.lookup, if_neg other, if_pos process]
        rfl
      simp only [lookup, back, up]
      rfl
    · simp only [NamedFS.name, back, ProcFS.name_pidToVnodeId positive fits]
    · simp only [lookup]
      rw [at_root, ProcFS.lookup_itoaz valid positive]
      rfl

theorem IsTree.child (tree : fs.IsTree) (is_id : fs.IsId dir) (proper : ProperName name)
    (answer : fs.lookup dir name = some (.ok (node, type))) (directory : sIsdir type = true) : Child fs dir node := by
  cases fs with
  | tmpfs inodes => exact tmpfs_child tree proper answer directory
  | procfs isValidPID => exact procfs_child tree is_id proper answer directory
  | devfs inodes =>
    -- there is no directory but the root, and that is in no directory
    obtain ⟨shaped, only⟩ := tree
    obtain ⟨entry, _, found, known, same⟩ := TmpFS.lookup_eq_ok answer
    have is_dir : TmpFS.IsDirectory inodes node := ⟨found, known, by rw [same] at directory; exact directory⟩
    exact absurd (only node is_dir) (shaped.not_root entry ⟨proper.not_dot, proper.not_dotDot⟩)

theorem tmpfs_top {inodes : TmpInodes} (tree : TreeShaped inodes) :
    (∃ type, TmpFS.lookup inodes rootId dotDot = some (.ok (rootId, type))) ∧
      ∃ name, TmpFS.name inodes rootId rootId = some (.named name) ∧ (name = TmpFS.dot ∨ name = dotDot) := by
  obtain ⟨directory, present, _⟩ := tree.top
  obtain ⟨name, called, entry⟩ := tree.name_eq (tree.dot _ tree.top)
  exact ⟨⟨_, TmpFS.lookup_of_entry tree.root (by decide) present⟩, name, called, tree.root_names entry⟩

theorem IsTree.top (tree : fs.IsTree) : Top fs := by
  cases fs with
  | tmpfs inodes =>
    obtain ⟨up, name, called, dots⟩ := tmpfs_top tree
    refine ⟨up, ?_⟩
    rcases dots with rfl | rfl
    · exact .inl called
    · exact .inr called
  | procfs isValidPID => exact ⟨⟨sIfdir, rfl⟩, .inl rfl⟩
  | devfs inodes => exact ⟨(tmpfs_top tree.1).1, .inl rfl⟩

end NamedFS
/-! ## Down -/

section Down

/-- Names of directories, one in the other. -/
inductive Leads (tree : FileTree) : VNode → List (List Char) → VNode → Prop
  | here {dir : VNode} : Leads tree dir [] dir
  | entry {dir node target : VNode} {name : List Char} {names : List (List Char)} {type : Word} (proper : ProperName name)
      (answer : tree.lookup dir name = .ok (node, type)) (directory : sIsdir type = true)
      (onward : Leads tree (below tree node) names target) : Leads tree dir (name :: names) target

variable {tree : FileTree} {dir node target : VNode} {name : List Char} {names : List (List Char)} {type : Word}

theorem Leads.append (leads : Leads tree dir names target) (proper : ProperName name)
    (answer : tree.lookup target name = .ok (node, type)) (directory : sIsdir type = true) :
    Leads tree dir (names ++ [name]) (VFS.below tree node) := by
  induction leads with
  | here => exact .entry proper answer directory .here
  | entry first found is_dir _ ih => exact .entry first found is_dir (ih answer)

theorem Leads.proper (leads : Leads tree dir names target) : ∀ name ∈ names, ProperName name := by
  induction leads with
  | here => exact fun _ among => absurd among List.not_mem_nil
  | entry first _ _ _ ih =>
    intro name among
    rcases List.mem_cons.mp among with rfl | later
    · exact first
    · exact ih name later

/-- A walk along them finds what they lead to. -/
theorem Leads.resolveNames (leads : Leads tree dir names target) (heap : KernelHeap)
    (expand : VNode → List Char → Effects → Resolved × Effects) (e : Effects) :
    ∃ e', VFS.resolveNames tree heap true expand dir names e = (.found target, e') := by
  induction leads generalizing e with
  | here => exact ⟨e, rfl⟩
  | entry proper answer directory _ ih =>
    rename_i place _ _ name names _ _
    have stays : above tree place name = place := if_neg fun both => proper.not_dotDot both.1
    simp only [VFS.resolveNames, resolveComponent, leaveMount_eq, enterMount_eq, stays, answer,
      sIsreg_of_sIsdir directory, sIslnk_of_sIsdir directory, Bool.false_eq_true, false_and, if_false]
    exact ih _

/-- The names of a path are those it has been put together of. -/
theorem names_intercalate (proper : ∀ name ∈ names, ProperName name) :
    SeparatedNames.names '/' (List.intercalate ['/'] names) = names := by
  induction names with
  | nil => rfl
  | cons name rest ih =>
    have first := proper name List.mem_cons_self
    cases rest with
    | nil => rw [List.intercalate_singleton, names_of_not_mem first.plain, if_neg first.some_name]
    | cons next rest =>
      have joined : List.intercalate ['/'] (name :: next :: rest) = name ++ '/' :: List.intercalate ['/'] (next :: rest) := by
        rw [List.intercalate_cons_cons, List.append_assoc, List.singleton_append]
      rw [joined, names_append_separator, names_of_not_mem first.plain, if_neg first.some_name,
        ih fun name among => proper name (List.mem_cons_of_mem _ among), List.singleton_append]

/-- An absolute path of such names. -/
theorem Leads.resolves (leads : Leads tree tree.rootNode names target) {heap : KernelHeap} (granted : heap.grants 0 = true) :
    (relativePathToVnode tree heap none (MountTree.pathOf names.reverse) true).1 = .found target := by
  have path : SeparatedNames.names '/' (MountTree.pathOf names.reverse) = names := by
    rw [MountTree.pathOf, names_separator, List.reverse_reverse, names_intercalate leads.proper]
  have begins : origin tree none (MountTree.pathOf names.reverse) = some tree.rootNode := if_pos rfl
  rw [relativePathToVnode, maxCount, resolveNested_eq granted begins, path]
  obtain ⟨e', run⟩ := leads.resolveNames heap _ _
  rw [run]

end Down
/-! ## Up -/

namespace MountTree

variable {tree : MountTree} {dir node : VNode} {name : List Char} {type : Word} {fuel : Nat}

@[simp] theorem placeOf_node (place : NodePlace) : placeOf place.node = place := by
  simp [placeOf, NodePlace.node]

@[simp] theorem node_placeOf (node : VNode) : (placeOf node).node = node := Nat.pair_unpair node

/-- A lookup stays in its file system. -/
theorem lookup_ok_iff : tree.fileTree.lookup dir name = .ok (node, type) ↔
    ∃ id, (tree.fs (placeOf dir).mountId).lookup (placeOf dir).id name = some (.ok (id, type)) ∧
      node = NodePlace.node ⟨(placeOf dir).mountId, id⟩ := by
  simp only [fileTree]
  cases answer : (tree.fs (placeOf dir).mountId).lookup (placeOf dir).id name with
  | none => simp
  | some result =>
    cases result with
    | error code => simp [Except.map]
    | ok entry =>
      obtain ⟨id, type'⟩ := entry
      simp only [Except.map, Except.ok.injEq, Prod.mk.injEq, Option.some.injEq]
      constructor
      · rintro ⟨rfl, rfl⟩
        exact ⟨id, ⟨rfl, rfl⟩, rfl⟩
      · rintro ⟨_, ⟨rfl, rfl⟩, rfl⟩
        exact ⟨rfl, rfl⟩

theorem below_node (place : NodePlace) :
    below tree.fileTree place.node = ((tree.coveredBy place).getD place).node := by
  unfold below
  change ((tree.coveredBy (placeOf place.node)).map NodePlace.node).getD place.node = _
  rw [placeOf_node]
  cases tree.coveredBy place <;> rfl

/-- The way up from a node. -/
theorem above_node (place : NodePlace) : above tree.fileTree place.node dotDot =
    if place.id = NamedFS.rootId then ((tree.covers place.mountId).getD place).node else place.node := by
  have is_root : rootOf place.mountId = place.node ↔ place.id = NamedFS.rootId := by
    constructor
    · intro same
      have same := congrArg placeOf same
      rw [placeOf_node, rootOf, placeOf_node] at same
      exact (congrArg NodePlace.id same).symm
    · intro here
      rw [rootOf, ← here]
  unfold above
  change (if dotDot = dotDot ∧ rootOf (placeOf place.node).mountId = place.node then
    ((tree.covers (placeOf place.node).mountId).map NodePlace.node).getD place.node else place.node) = _
  rw [placeOf_node]
  by_cases here : place.id = NamedFS.rootId
  · rw [if_pos here, if_pos ⟨rfl, is_root.mpr here⟩]
    cases tree.covers place.mountId <;> rfl
  · rw [if_neg here, if_neg fun both => here (is_root.mp both.2)]

/-- The way up leaves a mount for the node it has been entered by. -/
theorem IsTree.above_below (shaped : tree.IsTree) {place : NodePlace} (not_root : place.id ≠ NamedFS.rootId) :
    above tree.fileTree (below tree.fileTree place.node) dotDot = place.node := by
  rw [below_node, above_node]
  cases covered : tree.coveredBy place with
  | none => rw [Option.getD_none, if_neg not_root]
  | some top =>
    obtain ⟨is_root, covers⟩ := shaped.covering covered
    rw [Option.getD_some, if_pos is_root, covers, Option.getD_some]

/-- The root node has nothing above it. -/
theorem IsTree.above_root (shaped : tree.IsTree) :
    above tree.fileTree tree.fileTree.rootNode dotDot = tree.fileTree.rootNode := by
  have value := @above_node tree ⟨tree.rootMount, NamedFS.rootId⟩
  rw [if_pos rfl, shaped.root] at value
  exact value

/-- One round of the loop. -/
theorem climb_succ (stack : List (List Char)) (e : Effects) {parent : VNode} {dirName : List Char}
    (step : Up tree node parent dirName) : ∃ e', ∀ fuel, tree.climb (fuel + 1) node stack e =
      if dirName = TmpFS.dot then some (.ok stack, e') else tree.climb fuel parent (stack ++ [dirName]) e' := by
  obtain ⟨⟨type, up⟩, named⟩ := step
  by_cases last : dirName = TmpFS.dot
  · simp only [climb, leaveMount_eq, up, named, if_pos last]
    exact ⟨_, fun _ => rfl⟩
  · simp only [climb, leaveMount_eq, up, named, if_neg last]
    exact ⟨_, fun _ => rfl⟩

/-- More rounds than are needed change nothing. -/
theorem climb_mono {stack : List (List Char)} {e : Effects} {result : Except Int (List (List Char)) × Effects}
    (run : tree.climb fuel node stack e = some result) (more : Nat) : tree.climb (fuel + more) node stack e = some result := by
  induction fuel generalizing node stack e with
  | zero => cases run
  | succ fuel ih =>
    rw [Nat.succ_add]
    simp only [climb] at run ⊢
    cases up : tree.fileTree.lookup (leaveMount tree.fileTree node dotDot e).1 dotDot with
    | error code =>
      rw [up] at run
      exact run
    | ok entry =>
      simp only [up] at run ⊢
      cases named : tree.name entry.1 (leaveMount tree.fileTree node dotDot e).1 with
      | none =>
        simp only [named] at run
        cases run
      | some answer =>
        simp only [named] at run ⊢
        cases answer with
        | named dirName =>
          dsimp only at run ⊢
          split
          · rename_i last
            rw [if_pos last] at run
            exact run
          · rename_i last
            rw [if_neg last] at run
            exact ih run
        | unset => cases run
        | refused code => exact run

/-- A directory that is reached by names is in one that its `..` leads to, by the name that this has for it. -/
theorem IsTree.up (shaped : tree.IsTree) (is_id : (tree.fs (placeOf dir).mountId).IsId (placeOf dir).id)
    (proper : ProperName name) (answer : tree.fileTree.lookup dir name = .ok (node, type))
    (directory : sIsdir type = true) :
    (tree.fs (placeOf (below tree.fileTree node)).mountId).IsId (placeOf (below tree.fileTree node)).id ∧
      ∃ dirName type', Up tree (below tree.fileTree node) dir dirName ∧ ProperName dirName ∧
        tree.fileTree.lookup dir dirName = .ok (node, type') ∧ sIsdir type' = true := by
  obtain ⟨id, found, rfl⟩ := lookup_ok_iff.mp answer
  obtain ⟨not_root, ⟨type', up⟩, dirName, type'', named, proper', found', directory'⟩ :=
    (shaped.systems _).child is_id proper found directory
  have inner : above tree.fileTree (below tree.fileTree (NodePlace.node ⟨(placeOf dir).mountId, id⟩)) dotDot =
      NodePlace.node ⟨(placeOf dir).mountId, id⟩ := shaped.above_below not_root
  have outer : tree.fileTree.lookup (NodePlace.node ⟨(placeOf dir).mountId, id⟩) dotDot = .ok (dir, type') := by
    refine lookup_ok_iff.mpr ⟨(placeOf dir).id, ?_, ?_⟩
    · rw [placeOf_node]
      exact up
    · rw [placeOf_node]
      exact (node_placeOf dir).symm
  have called : tree.name dir (NodePlace.node ⟨(placeOf dir).mountId, id⟩) = some (.named dirName) := by
    rw [MountTree.name, placeOf_node]
    exact named
  refine ⟨?_, dirName, type'', ⟨⟨type', inner.symm ▸ outer⟩, inner.symm ▸ called⟩, proper',
    lookup_ok_iff.mpr ⟨id, found', rfl⟩, directory'⟩
  rw [below_node, placeOf_node]
  cases covered : tree.coveredBy ⟨(placeOf dir).mountId, id⟩ with
  | none => exact NamedFS.isId_of_lookup found
  | some top =>
    rw [Option.getD_some, (shaped.covering covered).1]
    exact NamedFS.isId_rootId _

/-- One more step of the way up behind one more step of the way down. -/
theorem climbs_entry {parent : VNode} {names : List (List Char)} (leads : Leads tree.fileTree tree.fileTree.rootNode names parent)
    (climbs : ∀ stack e, ∃ e', ∀ fuel, tree.climb (fuel + names.length) parent stack e =
      tree.climb fuel tree.fileTree.rootNode (stack ++ names.reverse) e')
    (up : Up tree (below tree.fileTree node) parent name) (proper : ProperName name)
    (answer : tree.fileTree.lookup parent name = .ok (node, type)) (directory : sIsdir type = true) :
    Leads tree.fileTree tree.fileTree.rootNode (names ++ [name]) (below tree.fileTree node) ∧ ∀ stack e, ∃ e', ∀ fuel,
      tree.climb (fuel + (names ++ [name]).length) (below tree.fileTree node) stack e =
        tree.climb fuel tree.fileTree.rootNode (stack ++ (names ++ [name]).reverse) e' := by
  refine ⟨leads.append proper answer directory, fun stack e => ?_⟩
  obtain ⟨e', once⟩ := climb_succ stack e up
  obtain ⟨e'', rest⟩ := climbs (stack ++ [name]) e'
  refine ⟨e'', fun fuel => ?_⟩
  rw [List.length_append, List.length_singleton, ← Nat.add_assoc, once, if_neg proper.not_dot, rest,
    List.reverse_append, List.reverse_singleton, List.singleton_append, List.append_assoc, List.singleton_append]

/-- A directory that is reached by names is climbed out of by names that lead to it. -/
theorem IsTree.climbs (shaped : tree.IsTree) (reached : ReachedByName tree node) :
    (tree.fs (placeOf node).mountId).IsId (placeOf node).id ∧
      ∃ names, Leads tree.fileTree tree.fileTree.rootNode names node ∧ ∀ stack e, ∃ e', ∀ fuel,
        tree.climb (fuel + names.length) node stack e =
          tree.climb fuel tree.fileTree.rootNode (stack ++ names.reverse) e' := by
  induction reached with
  | root =>
    refine ⟨?_, [], .here, fun stack e => ⟨e, fun fuel => ?_⟩⟩
    · have here : placeOf tree.fileTree.rootNode = ⟨tree.rootMount, NamedFS.rootId⟩ := placeOf_node _
      rw [here]
      exact NamedFS.isId_rootId _
    · rw [List.reverse_nil, List.append_nil, List.length_nil, Nat.add_zero]
  | entry before proper answer directory ih =>
    obtain ⟨is_id, names, leads, climbs⟩ := ih
    obtain ⟨is_id', dirName, type', up, proper', answer', directory'⟩ := shaped.up is_id proper answer directory
    exact ⟨is_id', names ++ [dirName], climbs_entry leads climbs up proper' answer' directory'⟩

/-- The root directory in its own directory. -/
theorem IsTree.up_root (shaped : tree.IsTree) : ∃ name, Up tree tree.fileTree.rootNode tree.fileTree.rootNode name ∧
    (tree.fs tree.rootMount).name NamedFS.rootId NamedFS.rootId = some (.named name) ∧
    (name = TmpFS.dot ∨ name = dotDot) := by
  obtain ⟨⟨type, up⟩, named⟩ := (shaped.systems tree.rootMount).top
  have here : placeOf tree.fileTree.rootNode = ⟨tree.rootMount, NamedFS.rootId⟩ := placeOf_node _
  have outer : tree.fileTree.lookup (above tree.fileTree tree.fileTree.rootNode dotDot) dotDot =
      .ok (tree.fileTree.rootNode, type) := by
    rw [shaped.above_root]
    refine lookup_ok_iff.mpr ⟨NamedFS.rootId, ?_, ?_⟩
    · rw [here]
      exact up
    · rw [here]
      rfl
  have called : tree.name tree.fileTree.rootNode (above tree.fileTree tree.fileTree.rootNode dotDot) =
      (tree.fs tree.rootMount).name NamedFS.rootId NamedFS.rootId := by
    rw [shaped.above_root, MountTree.name, here]
  obtain dot | dots := named
  · exact ⟨TmpFS.dot, ⟨⟨type, outer⟩, called.trans dot⟩, dot, .inl rfl⟩
  · exact ⟨dotDot, ⟨⟨type, outer⟩, called.trans dots⟩, dots, .inr rfl⟩

/-- At the root the loop ends, or goes on with the same node. -/
theorem IsTree.climb_root (shaped : tree.IsTree) (stack : List (List Char)) (e : Effects) :
    ∃ e', ∀ fuel, (RootIsDot tree → tree.climb (fuel + 1) tree.fileTree.rootNode stack e = some (.ok stack, e')) ∧
      (¬ RootIsDot tree → tree.climb (fuel + 1) tree.fileTree.rootNode stack e =
        tree.climb fuel tree.fileTree.rootNode (stack ++ [dotDot]) e') := by
  obtain ⟨name, up, named, dots⟩ := shaped.up_root
  obtain ⟨e', once⟩ := climb_succ stack e up
  have same : RootIsDot tree ↔ name = TmpFS.dot := by
    rw [RootIsDot, named, Option.some.injEq, TmpFS.NameAnswer.named.injEq]
  refine ⟨e', fun fuel => ⟨fun right => (once fuel).trans (if_pos (same.mp right)), fun wrong => ?_⟩⟩
  obtain rfl := dots.resolve_left fun dot => wrong (same.mpr dot)
  exact (once fuel).trans (if_neg (by decide))

/-- The way up never ends where the root is named `..`. -/
theorem IsTree.climb_never (shaped : tree.IsTree) (wrong : ¬ RootIsDot tree) (fuel : Nat) (stack : List (List Char))
    (e : Effects) : tree.climb fuel tree.fileTree.rootNode stack e = none := by
  induction fuel generalizing stack e with
  | zero => rfl
  | succ fuel ih =>
    obtain ⟨e', once⟩ := shaped.climb_root stack e
    exact ((once fuel).2 wrong).trans (ih _ _)

end MountTree

/-- The way home ends at the root directory, and its names lead back. -/
theorem LeadsHome.climbs {tree : MountTree} {node : VNode} (home : LeadsHome tree node) :
    (∃ parent, Up tree tree.fileTree.rootNode parent TmpFS.dot) ∧
      ∃ names, Leads tree.fileTree tree.fileTree.rootNode names node ∧ ∀ stack e, ∃ e', ∀ fuel,
        tree.climb (fuel + names.length) node stack e =
          tree.climb fuel tree.fileTree.rootNode (stack ++ names.reverse) e' := by
  induction home with
  | root up =>
    refine ⟨⟨_, up⟩, [], .here, fun stack e => ⟨e, fun fuel => ?_⟩⟩
    rw [List.reverse_nil, List.append_nil, List.length_nil, Nat.add_zero]
  | entry before up proper answer directory ih =>
    obtain ⟨root, names, leads, climbs⟩ := ih
    exact ⟨root, names ++ [_], MountTree.climbs_entry leads climbs up proper answer directory⟩

theorem LeadsHome.roundTrip {tree : MountTree} {node : VNode} (home : LeadsHome tree node) : RoundTrip tree node := by
  obtain ⟨⟨parent, up⟩, names, leads, climbs⟩ := home.climbs
  obtain ⟨e', rest⟩ := climbs [] (Effects.none.reference node)
  obtain ⟨e'', once⟩ := MountTree.climb_succ names.reverse e' up
  have ends : tree.climb (0 + 1 + names.length) node [] (Effects.none.reference node) = some (.ok names.reverse, e'') := by
    rw [rest (0 + 1), List.nil_append]
    exact (once 0).trans (if_pos rfl)
  exact ⟨0 + 1 + names.length, MountTree.pathOf names.reverse, e'', congrArg (Option.map _) ends,
    fun heap granted => leads.resolves granted⟩

/-- In a tree every directory that is reached by names leads home, where the root directory is named `.` -/
theorem MountTree.IsTree.leadsHome {tree : MountTree} {node : VNode} (shaped : tree.IsTree)
    (reached : ReachedByName tree node) (right : RootIsDot tree) : LeadsHome tree node := by
  induction reached with
  | root =>
    obtain ⟨name, up, named, -⟩ := shaped.up_root
    rw [RootIsDot, named, Option.some.injEq, TmpFS.NameAnswer.named.injEq] at right
    exact .root (right ▸ up)
  | entry before proper answer directory ih =>
    obtain ⟨-, dirName, type', up, proper', answer', directory'⟩ :=
      shaped.up (shaped.climbs before).1 proper answer directory
    exact .entry ih up proper' answer' directory'

/-- Where the root directory is named `..`, no call for a directory of the tree comes to an end. -/
theorem MountTree.IsTree.rootIsDot_of_roundTrip {tree : MountTree} {node : VNode} (shaped : tree.IsTree)
    (reached : ReachedByName tree node) (found : RoundTrip tree node) : RootIsDot tree := by
  obtain ⟨_, names, leads, climbs⟩ := shaped.climbs reached
  obtain ⟨fuel, path, e, run, _⟩ := found
  by_contra wrong
  obtain ⟨⟨result, e'⟩, climbed, _⟩ := Option.map_eq_some_iff.mp run
  obtain ⟨e'', rest⟩ := climbs [] (Effects.none.reference node)
  have longer := MountTree.climb_mono climbed names.length
  rw [rest fuel, shaped.climb_never wrong] at longer
  cases longer

/-- A directory whose way up is the way down to it has a path, and is found under it; in a tree, where this is so of
every directory that is reached by names if it is of the root, no other has. -/
theorem getcwd_round_trip_iff (tree : MountTree) (node : VNode) :
    (LeadsHome tree node → RoundTrip tree node) ∧
      (tree.IsTree → ReachedByName tree node →
        (RoundTrip tree node ↔ LeadsHome tree node) ∧ (LeadsHome tree node ↔ RootIsDot tree)) := by
  refine ⟨LeadsHome.roundTrip, fun shaped reached => ⟨⟨fun found => ?_, LeadsHome.roundTrip⟩, fun home => ?_,
    shaped.leadsHome reached⟩⟩
  · exact shaped.leadsHome reached (shaped.rootIsDot_of_roundTrip reached found)
  · exact shaped.rootIsDot_of_roundTrip reached home.roundTrip

section Sample

/-- A tmpfs with the directory `d`, which is the inode 2. -/
def oneDirectory : TmpInodes := (TmpFS.mkdir TmpFS.mount NamedFS.rootId ['d'] 0#32).1

theorem treeShaped_oneDirectory : TreeShaped oneDirectory := by
  refine treeShaped_mount.mkdir treeShaped_mount.top ?_ ⟨by decide, by decide, by decide, by decide⟩ 0#32
  intro table present
  rw [(TmpFS.inode_mount present).2]
  decide

/-- procfs as the root, with the process 1, and the tmpfs on that. -/
def processTree : MountTree where
  rootMount := 1
  fs mountId := if mountId = 2 then .tmpfs oneDirectory else .procfs fun pid => pid = 1#32
  covers mountId := if mountId = 2 then some ⟨1, 1024⟩ else none
  coveredBy place := if place = ⟨1, 1024⟩ then some ⟨2, NamedFS.rootId⟩ else none
  readlink _ := .error (-einval)

/-- The tmpfs alone. -/
def loneTree : MountTree where
  rootMount := 1
  fs _ := .tmpfs oneDirectory
  covers _ := none
  coveredBy _ := none
  readlink _ := .error (-einval)

theorem processTree_isTree : processTree.IsTree where
  root := rfl
  covering {place top} covered := by
    simp only [processTree] at covered
    split at covered
    · rename_i here
      cases covered
      exact ⟨rfl, congrArg some here.symm⟩
    · cases covered
  systems mountId := by
    simp only [processTree]
    split
    · exact treeShaped_oneDirectory
    · intro pid valid
      rw [of_decide_eq_true valid]
      decide

/-- The directory `/1/d` has its path. -/
theorem mounted_directory_found : RoundTrip processTree (NodePlace.node ⟨2, 2⟩) := by
  have process : processTree.fileTree.lookup (NodePlace.node ⟨1, NamedFS.rootId⟩) ['1'] =
      .ok (NodePlace.node ⟨1, 1024⟩, sIfdir) := by
    refine MountTree.lookup_ok_iff.mpr ⟨1024, ?_, ?_⟩ <;> rw [MountTree.placeOf_node]
    decide
  have directory : processTree.fileTree.lookup (NodePlace.node ⟨2, NamedFS.rootId⟩) ['d'] =
      .ok (NodePlace.node ⟨2, 2⟩, sIfdir) := by
    refine MountTree.lookup_ok_iff.mpr ⟨2, ?_, ?_⟩ <;> rw [MountTree.placeOf_node]
    decide
  have entered : below processTree.fileTree (NodePlace.node ⟨1, 1024⟩) = NodePlace.node ⟨2, NamedFS.rootId⟩ :=
    MountTree.below_node _
  have bare : below processTree.fileTree (NodePlace.node ⟨2, 2⟩) = NodePlace.node ⟨2, 2⟩ := MountTree.below_node _
  have mounted := ReachedByName.entry .root ⟨by decide, by decide, by decide, by decide⟩ process rfl
  rw [entered] at mounted
  have inside := ReachedByName.entry mounted ⟨by decide, by decide, by decide, by decide⟩ directory rfl
  rw [bare] at inside
  obtain ⟨found, homeward⟩ := (getcwd_round_trip_iff processTree (NodePlace.node ⟨2, 2⟩)).2 processTree_isTree inside
  exact found.mpr (homeward.mpr rfl)

/-- With the directory `d`, the root of a tmpfs is named `..` in itself, and the call for it never ends. -/
theorem root_without_path : loneTree.IsTree ∧ ReachedByName loneTree loneTree.fileTree.rootNode ∧
    ¬ RoundTrip loneTree loneTree.fileTree.rootNode := by
  have shaped : loneTree.IsTree :=
    { root := rfl
      covering := fun covered => by cases covered
      systems := fun _ => treeShaped_oneDirectory }
  have wrong : ¬ RootIsDot loneTree := by
    unfold RootIsDot
    decide
  refine ⟨shaped, .root, ?_⟩
  rintro ⟨fuel, path, e, run, _⟩
  rw [MountTree.getDirPathFromVnode, shaped.climb_never wrong] at run
  cases run

end Sample
end FluxOS
