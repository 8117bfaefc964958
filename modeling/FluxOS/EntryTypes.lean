import FluxOS.DirectoryNames
import FluxOS.PathMeaning
import FluxOS.ProcFS
import FluxOS.TmpFS

/-! The type that `lookup` reports, and the links that a walk follows because of it. -/
namespace FluxOS
open Words UserMemoryOps BlockDevice SeparatedNames

/-- A mounted ext2 file system. `inodes`: what the nodes have as their private data. The search in a directory and
the reading of an inode make their requests from these numbers on. -/
structure Ext2Volume where
  disk : Disk
  heap : DirtyHeap
  privdata : Ext2Privdata
  fuel : Nat
  request : Nat
  inodeRequest : Nat
  inodes : VNode → Option Ext2Inode

namespace Ext2Volume
open Ext2

/-- A name as it lies in memory. -/
def nameText (name : List Char) : Block := fun i => BitVec.ofNat 8 ((name[i]?.map Char.toNat).getD 0)

variable (volume : Ext2Volume)

/-- `iNodeNumberToVNode`: the inode is read, if the node has none yet. -/
def iNodeNumberToVNode (id : Word) : Option (Except Int Ext2Volume) :=
  match volume.inodes id.toNat with
  | some _ => some (.ok volume)
  | none =>
    (readInode volume.disk volume.heap volume.privdata volume.inodeRequest id).map fun
      | none => .error (-enomem)
      | some fileInode => .ok { volume with inodes := Function.update volume.inodes id.toNat (some fileInode) }

/-- `findDirectoryEntry` in the directory that a node is. -/
def search (node : VNode) (name : List Char) : Option DirectorySearch :=
  (volume.inodes node).bind fun inode =>
    findDirectoryEntry volume.disk volume.heap volume.privdata volume.fuel inode (nameText name) volume.request

/-- `Lookup`. There is no result where the node has no inode, as for the calls it makes. -/
def lookup (node : VNode) (name : List Char) : Option (Except Int (VNode × Word) × Ext2Volume) :=
  (volume.search node name).bind fun search =>
    match search.result with
    | .error code => some (.error code, volume)
    | .ok found =>
      (volume.iNodeNumberToVNode found.inodeNumber).bind fun
        | .error code => some (.error code, volume)
        | .ok after => (after.inodes node).map fun inode =>
          (.ok (found.inodeNumber.toNat, inode.iMode.setWidth 32), after)

end Ext2Volume

/-- A file system that is mounted. -/
inductive MountedFS where
  | ext2 (volume : Ext2Volume)
  | tmpfs (inodes : TmpInodes)
  | procfs (isValidPID : Word → Bool)

namespace MountedFS

def lookup (fs : MountedFS) (node : VNode) (name : List Char) : Option (Except Int (VNode × Word) × MountedFS) :=
  match fs with
  | ext2 volume => (volume.lookup node name).map fun (result, after) => (result, ext2 after)
  | tmpfs inodes => (TmpFS.lookup inodes node name).map fun result => (result, tmpfs inodes)
  | procfs isValidPID =>
    some ((ProcFS.lookup isValidPID (BitVec.ofNat 64 node) name).map fun (id, type) => (id.toNat, type), procfs isValidPID)

/-- The mode of a node. -/
def mode (fs : MountedFS) (node : VNode) : Option Word :=
  match fs with
  | ext2 volume => (volume.inodes node).map fun inode => inode.iMode.setWidth 32
  | tmpfs inodes => (TmpFS.inode inodes node).map fun inode => inode.mode.setWidth 32
  | procfs _ => some (ProcFS.nodeType (BitVec.ofNat 64 node))

end MountedFS

namespace VFS
open MountedFS

section Statement

/-- The walk asks the heap for a buffer to read a link into. -/
def FollowsLink (tree : FileTree) (heap : KernelHeap) (follow : Bool) (remaining : Nat) (dir : VNode) (name : List Char)
    (last : Bool) (e : Effects) : Prop :=
  e.requests < (resolveComponent tree heap follow
    (fun node target e => resolveNested tree heap follow remaining (some node) target e) dir name last e).2.requests

/-- The type is that of the node, and every walk that gets it follows a link inside of a path, and nothing else. -/
def SeenAsSuch (fs : MountedFS) (dir : VNode) (name : List Char) : Prop :=
  ∀ node ntype after, fs.lookup dir name = some (.ok (node, ntype), after) → ∃ mode, after.mode node = some mode ∧
    ntype &&& sIfmt = mode &&& sIfmt ∧
      ∀ tree heap follow remaining place last e, tree.lookup (above tree place name) name = .ok (node, ntype) →
        (FollowsLink tree heap follow remaining place name last e ↔
          sIslnk mode = true ∧ ¬ (follow = false ∧ last = true))

/-- In ext2 the entry is a directory; in procfs the process has a number of its own. -/
def TypeInSight (fs : MountedFS) (dir : VNode) (name : List Char) : Prop :=
  match fs with
  | ext2 volume => ∀ search found after inode, volume.search dir name = some search → search.result = .ok found →
      volume.iNodeNumberToVNode found.inodeNumber = some (.ok after) → after.inodes found.inodeNumber.toNat = some inode →
        sIsdir (inode.iMode.setWidth 32) = true
  | tmpfs _ => True
  | procfs isValidPID => BitVec.ofNat 64 dir = ProcFS.rootId → ProcFS.isNum name = true →
      isValidPID (atoi name) = true → (atoi name).toNat % 2 ^ 22 ≠ 0

end Statement

/-! ## What a walk requests -/

section Requests

variable (tree : FileTree) (heap : KernelHeap) (follow : Bool)
  {expand : VNode → List Char → Effects → Resolved × Effects}

/-- No request is taken back. -/
def Keeps (expand : VNode → List Char → Effects → Resolved × Effects) : Prop :=
  ∀ node target e, e.requests ≤ (expand node target e).2.requests

theorem followLink_requests (keeps : Keeps expand) (dir link : VNode) (e : Effects) :
    e.requests < (followLink tree heap expand dir link e).2.requests := by
  unfold followLink
  split
  · cases tree.readlink link with
    | error code => exact Nat.lt_succ_self _
    | ok bytes =>
      simp only
      have more := keeps dir (cString (overwritten (heap.holds e.requests) (bytes.take linkBufferSize))) e.request
      cases run : expand dir (cString (overwritten (heap.holds e.requests) (bytes.take linkBufferSize))) e.request with
      | mk resolved after =>
        rw [run] at more
        cases resolved <;> exact more
  · exact Nat.lt_succ_self _

/-- A name that is found is followed exactly where its type is that of a link, and there is more to come or the walk
goes through links at the end. -/
theorem resolveComponent_requests {tree : FileTree} (last : Bool) (e : Effects) (keeps : Keeps expand) {dir node : VNode}
    {name : List Char} {type : Word} (answer : tree.lookup (above tree dir name) name = .ok (node, type)) :
    (sIslnk type = true ∧ ¬ (follow = false ∧ last = true) →
      e.requests < (resolveComponent tree heap follow expand dir name last e).2.requests) ∧
    (¬ (sIslnk type = true ∧ ¬ (follow = false ∧ last = true)) →
      (resolveComponent tree heap follow expand dir name last e).2.requests = e.requests) := by
  simp only [resolveComponent, leaveMount_eq, enterMount_eq, answer]
  constructor
  · intro followed
    have not_regular : ¬ (sIsreg type = true ∧ last = false) := by
      rintro ⟨regular, _⟩
      have link := followed.1
      simp only [sIsreg, sIslnk, decide_eq_true_eq] at regular link
      rw [regular] at link
      exact absurd link (by decide)
    rw [if_neg not_regular, if_pos followed]
    have more := followLink_requests tree heap keeps (above tree dir name) node
      (((e.reference (above tree dir name)).put dir).reference node)
    cases run : followLink tree heap expand (above tree dir name) node
        (((e.reference (above tree dir name)).put dir).reference node) with
    | mk resolved after =>
      rw [run] at more
      cases resolved <;> exact more
  · intro kept
    by_cases regular : sIsreg type = true ∧ last = false
    · rw [if_pos regular]
      rfl
    · rw [if_neg regular, if_neg kept]
      rfl

theorem resolveComponent_keeps (keeps : Keeps expand) (dir : VNode) (name : List Char) (last : Bool) (e : Effects) :
    e.requests ≤ (resolveComponent tree heap follow expand dir name last e).2.requests := by
  cases answer : tree.lookup (above tree dir name) name with
  | error code =>
    simp only [resolveComponent, leaveMount_eq, answer]
    exact le_rfl
  | ok entry =>
    obtain ⟨followed, kept⟩ := resolveComponent_requests heap follow last e keeps answer
    by_cases goes : sIslnk entry.2 = true ∧ ¬ (follow = false ∧ last = true)
    · exact (followed goes).le
    · exact (kept goes).ge

theorem resolvePath_keeps (keeps : Keeps expand) {length : Nat} (dir : VNode) (path : List Char) (e : Effects) :
    e.requests ≤ (resolvePath tree heap follow expand length dir path e).2.requests := by
  induction length generalizing dir path e with
  | zero => cases path <;> exact le_rfl
  | succ length ih =>
    cases path with
    | nil => exact le_rfl
    | cons first rest =>
      simp only [resolvePath]
      have more := resolveComponent_keeps tree heap follow keeps dir
        (first :: beforeSeparator '/' rest) (skipSeparators '/' (fromSeparator '/' rest)).isEmpty e
      cases run : resolveComponent tree heap follow expand dir (first :: beforeSeparator '/' rest)
          (skipSeparators '/' (fromSeparator '/' rest)).isEmpty e with
      | mk resolved after =>
        rw [run] at more
        cases resolved with
        | failed code cleared => exact more
        | found next => exact more.trans (ih next _ after)

theorem resolveNested_keeps (remaining : Nat) :
    Keeps fun node target e => resolveNested tree heap follow remaining (some node) target e := by
  induction remaining with
  | zero =>
    intro node target e
    dsimp only
    rw [resolveNested, origin_some]
    split <;> exact Nat.le_succ _
  | succ remaining ih =>
    intro node target e
    dsimp only
    rw [resolveNested, origin_some]
    dsimp only
    split
    · exact (Nat.le_succ _).trans (resolvePath_keeps tree heap follow ih _ _ (e.request.reference _))
    · exact Nat.le_succ _

/-- A walk follows what is reported as a link. -/
theorem followsLink_iff {tree : FileTree} (remaining : Nat) (last : Bool) (e : Effects) {dir node : VNode}
    {name : List Char} {type : Word} (answer : tree.lookup (above tree dir name) name = .ok (node, type)) :
    FollowsLink tree heap follow remaining dir name last e ↔
      sIslnk type = true ∧ ¬ (follow = false ∧ last = true) := by
  obtain ⟨followed, kept⟩ :=
    resolveComponent_requests heap follow last e (resolveNested_keeps tree heap follow remaining) answer
  refine ⟨fun follows => ?_, followed⟩
  by_contra stays
  exact absurd follows (kept stays).not_gt

end Requests

/-! ## What the file systems report -/

section Reported

/-- A type of the right kind is enough for the links. -/
theorem sIslnk_congr {type mode : Word} (same : type &&& sIfmt = mode &&& sIfmt) : sIslnk type = sIslnk mode := by
  unfold sIslnk
  rw [same]

theorem seen_of_same_kind {fs : MountedFS} {dir : VNode} {name : List Char}
    (kinds : ∀ node ntype after, fs.lookup dir name = some (.ok (node, ntype), after) →
      ∃ mode, after.mode node = some mode ∧ ntype &&& sIfmt = mode &&& sIfmt) : SeenAsSuch fs dir name := by
  intro node ntype after answer
  obtain ⟨mode, known, same⟩ := kinds node ntype after answer
  refine ⟨mode, known, same, fun tree heap follow remaining place last e found => ?_⟩
  rw [followsLink_iff heap follow remaining last e found, sIslnk_congr same]

theorem tmpfs_mode {inodes : TmpInodes} {node : VNode} {inode : TmpInode} (known : TmpFS.inode inodes node = some inode) :
    (MountedFS.tmpfs inodes).mode node = some (inode.mode.setWidth 32) := by
  simp only [mode, known, Option.map_some]

theorem ext2_mode {volume : Ext2Volume} {node : VNode} {inode : Ext2Inode} (known : volume.inodes node = some inode) :
    (MountedFS.ext2 volume).mode node = some (inode.iMode.setWidth 32) := by
  simp only [mode, known, Option.map_some]

/-- `TmpFS::lookup` reports the mode of the inode it has found. -/
theorem tmpfs_seen (inodes : TmpInodes) (dir : VNode) (name : List Char) : SeenAsSuch (.tmpfs inodes) dir name := by
  refine seen_of_same_kind fun node ntype after answer => ?_
  obtain ⟨result, run, same⟩ := Option.map_eq_some_iff.mp answer
  cases same
  obtain ⟨directory, _, run⟩ := Option.bind_eq_some_iff.mp run
  split at run
  · dsimp only at run
    split at run
    · cases run
    · obtain ⟨found, known, run⟩ := Option.bind_eq_some_iff.mp run
      cases run
      exact ⟨_, tmpfs_mode known, rfl⟩
  · cases run

/-- What is in the directory of a process is no directory. -/
theorem isPidSubdir_cmdline {id : ProcFS.NodeId} (process : ProcFS.IsPid id) :
    id + ProcFS.cmdlineFileId ≠ ProcFS.rootId ∧ ¬ ProcFS.IsPid (id + ProcFS.cmdlineFileId) ∧
      ProcFS.IsPidSubdir (id + ProcFS.cmdlineFileId) := by
  obtain ⟨large, divides⟩ := process
  have below := id.isLt
  have divides : id.toNat % 1024 = 0 := congrArg BitVec.toNat divides
  have large : 1024 ≤ id.toNat := large
  have value : (id + ProcFS.cmdlineFileId).toNat = id.toNat + 1 := by
    rw [BitVec.toNat_add]
    exact Nat.mod_eq_of_lt (by change id.toNat + 1 < 2 ^ 64; omega)
  have other : (id + ProcFS.cmdlineFileId).toNat % 1024 ≠ 0 := by omega
  have above : 1024 ≤ (id + ProcFS.cmdlineFileId).toNat := by omega
  refine ⟨fun same => ?_, fun both => other (congrArg BitVec.toNat both.2), above, fun zero =>
    other (congrArg BitVec.toNat zero)⟩
  have one : id.toNat + 1 = 1 := value.symm.trans (congrArg BitVec.toNat same)
  omega

/-- `ProcFS::lookup` reports a directory for a process, which is one unless its number is 0. -/
theorem procfs_lookup {isValidPID : Word → Bool} {dir id : ProcFS.NodeId} {name : List Char} {ntype : Word}
    (answer : ProcFS.lookup isValidPID dir name = .ok (id, ntype)) : ntype = ProcFS.nodeType id ∨
      dir = ProcFS.rootId ∧ ProcFS.isNum name = true ∧ isValidPID (atoi name) = true ∧
        id = ProcFS.pidToVnodeId (atoi name) ∧ id = 0#64 ∧ ntype = sIfdir := by
  unfold ProcFS.lookup at answer
  by_cases at_root : dir = ProcFS.rootId
  · rw [if_pos at_root] at answer
    by_cases dots : name = TmpFS.dot ∨ name = dotDot
    · rw [if_pos dots] at answer
      cases answer
      exact .inl (if_pos (.inl rfl)).symm
    · rw [if_neg dots] at answer
      by_cases number : ProcFS.isNum name = true
      · rw [if_pos number] at answer
        by_cases valid : isValidPID (atoi name) = true
        · simp only [if_pos valid] at answer
          cases answer
          by_cases zero : ProcFS.pidToVnodeId (atoi name) = 0#64
          · exact .inr ⟨at_root, number, valid, rfl, zero, rfl⟩
          · exact .inl (if_pos (.inr (ProcFS.isPid_pidToVnodeId zero))).symm
        · simp only [if_neg valid] at answer
          cases answer
      · rw [if_neg number] at answer
        cases answer
  · rw [if_neg at_root] at answer
    by_cases process : ProcFS.IsPid dir
    · rw [if_pos process] at answer
      by_cases file : name = ProcFS.cmdline
      · rw [if_pos file] at answer
        cases answer
        obtain ⟨not_root, not_pid, inside⟩ := isPidSubdir_cmdline process
        refine .inl (Eq.symm ?_)
        rw [ProcFS.nodeType, if_neg (not_or.mpr ⟨not_root, not_pid⟩), if_pos inside]
      · rw [if_neg file] at answer
        by_cases self : name = TmpFS.dot
        · rw [if_pos self] at answer
          cases answer
          exact .inl (if_pos (.inr process)).symm
        · rw [if_neg self] at answer
          split at answer
          · cases answer
            exact .inl (if_pos (.inl rfl)).symm
          · cases answer
    · rw [if_neg process] at answer
      cases answer

/-- The number 0 is no file. -/
theorem procfs_seen_iff (isValidPID : Word → Bool) (dir : VNode) (name : List Char) :
    SeenAsSuch (.procfs isValidPID) dir name ↔ TypeInSight (.procfs isValidPID) dir name := by
  constructor
  · intro seen at_root number valid multiple
    have zero := (ProcFS.pidToVnodeId_eq_zero_iff _).mpr multiple
    have dots : ¬ (name = TmpFS.dot ∨ name = dotDot) := by
      rintro (rfl | rfl) <;> exact absurd number (by decide)
    have answer : (MountedFS.procfs isValidPID).lookup dir name = some (.ok (0, sIfdir), .procfs isValidPID) := by
      simp only [lookup, ProcFS.lookup, if_pos at_root, if_neg dots, if_pos number, if_pos valid, zero]
      rfl
    obtain ⟨mode, known, same, _⟩ := seen _ _ _ answer
    cases known
    exact absurd same (by decide)
  · refine fun numbered => seen_of_same_kind fun node ntype after answer => ?_
    have answer := Option.some.inj answer
    cases result : ProcFS.lookup isValidPID (BitVec.ofNat 64 dir) name with
    | error code =>
      rw [result] at answer
      cases answer
    | ok entry =>
      obtain ⟨id, type⟩ := entry
      rw [result] at answer
      cases answer
      refine ⟨_, rfl, ?_⟩
      rw [BitVec.ofNat_toNat, BitVec.setWidth_eq]
      rcases procfs_lookup result with same | ⟨at_root, number, valid, process, zero, _⟩
      · rw [same]
      · exact absurd ((ProcFS.pidToVnodeId_eq_zero_iff _).mp (process.symm.trans zero)) (numbered at_root number valid)

namespace Ext2Lookup
open Ext2Volume

variable {volume after : Ext2Volume} {dir : VNode} {name : List Char}

/-- An inode that a node has stays what it is. -/
theorem inodes_kept {id : Word} {inode : Ext2Inode} (run : volume.iNodeNumberToVNode id = some (.ok after))
    (known : volume.inodes dir = some inode) : after.inodes dir = some inode := by
  unfold iNodeNumberToVNode at run
  cases here : volume.inodes id.toNat with
  | some other =>
    rw [here] at run
    cases run
    exact known
  | none =>
    rw [here] at run
    obtain ⟨read, _, result⟩ := Option.map_eq_some_iff.mp run
    cases read with
    | none => cases result
    | some fileInode =>
      cases result
      have other : dir ≠ id.toNat := by
        intro same
        rw [same, here] at known
        cases known
      exact (Function.update_of_ne other _ _).trans known

theorem inodes_found {id : Word} (run : volume.iNodeNumberToVNode id = some (.ok after)) :
    ∃ inode, after.inodes id.toNat = some inode := by
  unfold iNodeNumberToVNode at run
  cases here : volume.inodes id.toNat with
  | some other =>
    rw [here] at run
    cases run
    exact ⟨other, here⟩
  | none =>
    rw [here] at run
    obtain ⟨read, _, result⟩ := Option.map_eq_some_iff.mp run
    cases read with
    | none => cases result
    | some fileInode =>
      cases result
      exact ⟨fileInode, Function.update_self _ _ _⟩

/-- Only a directory is searched. -/
theorem directory_of_search {search : DirectorySearch} {found : FoundEntry} (run : volume.search dir name = some search)
    (result : search.result = .ok found) : ∃ directory, volume.inodes dir = some directory ∧
      sIsdir (directory.iMode.setWidth 32) = true := by
  obtain ⟨directory, known, run⟩ := Option.bind_eq_some_iff.mp run
  refine ⟨directory, known, ?_⟩
  by_contra other
  rw [Ext2.findDirectoryEntry, if_pos (Bool.eq_false_iff.mpr other)] at run
  cases run
  cases result

/-- `Lookup` reports the mode of the directory. -/
theorem lookup_iff {node : VNode} {ntype : Word} :
    volume.lookup dir name = some (.ok (node, ntype), after) ↔
      ∃ search found directory, volume.search dir name = some search ∧ search.result = .ok found ∧
        volume.iNodeNumberToVNode found.inodeNumber = some (.ok after) ∧ after.inodes dir = some directory ∧
        node = found.inodeNumber.toNat ∧ ntype = directory.iMode.setWidth 32 := by
  constructor
  · intro answer
    obtain ⟨search, run, answer⟩ := Option.bind_eq_some_iff.mp answer
    cases result : search.result with
    | error code =>
      rw [result] at answer
      cases answer
    | ok found =>
      rw [result] at answer
      obtain ⟨got, read, answer⟩ := Option.bind_eq_some_iff.mp answer
      cases got with
      | error code => cases answer
      | ok volume' =>
        obtain ⟨directory, known, answer⟩ := Option.map_eq_some_iff.mp answer
        cases answer
        exact ⟨search, found, directory, run, result, read, known, rfl, rfl⟩
  · rintro ⟨search, found, directory, run, result, read, known, rfl, rfl⟩
    simp only [Ext2Volume.lookup, run, Option.bind_some, result, read, known, Option.map_some]

end Ext2Lookup

theorem sIsdir_iff {type : Word} : sIsdir type = true ↔ type &&& sIfmt = sIfdir := decide_eq_true_iff

/-- In ext2 the types agree where the entry is a directory too. -/
theorem ext2_seen_iff (volume : Ext2Volume) (dir : VNode) (name : List Char) :
    SeenAsSuch (.ext2 volume) dir name ↔ TypeInSight (.ext2 volume) dir name := by
  constructor
  · intro seen search found after inode run result read known
    obtain ⟨directory, searched, is_dir⟩ := Ext2Lookup.directory_of_search run result
    have kept := Ext2Lookup.inodes_kept read searched
    have answer : (MountedFS.ext2 volume).lookup dir name =
        some (.ok (found.inodeNumber.toNat, directory.iMode.setWidth 32), .ext2 after) :=
      congrArg (Option.map _) (Ext2Lookup.lookup_iff.mpr ⟨search, found, directory, run, result, read, kept, rfl, rfl⟩)
    obtain ⟨mode, same_mode, same, _⟩ := seen _ _ _ answer
    rw [ext2_mode known] at same_mode
    cases same_mode
    exact sIsdir_iff.mpr (same.symm.trans (sIsdir_iff.mp is_dir))
  · refine fun directories => seen_of_same_kind fun node ntype after answer => ?_
    obtain ⟨⟨result, volume'⟩, looked_up, same⟩ := Option.map_eq_some_iff.mp answer
    cases same
    obtain ⟨search, found, directory, run, result, read, known, rfl, rfl⟩ := Ext2Lookup.lookup_iff.mp looked_up
    obtain ⟨inode, has⟩ := Ext2Lookup.inodes_found read
    obtain ⟨directory', searched, is_dir⟩ := Ext2Lookup.directory_of_search run result
    have same : directory = directory' := Option.some.inj (known.symm.trans (Ext2Lookup.inodes_kept read searched))
    refine ⟨_, ext2_mode has, ?_⟩
    rw [same, sIsdir_iff.mp is_dir]
    exact (sIsdir_iff.mp (directories search found _ inode run result read has)).symm

end Reported

/-- A lookup tells what the node is, and walks follow the links, exactly where the entry of an ext2 directory is a
directory itself, and a process of procfs does not have the number 0. -/
theorem lookup_seen_iff (fs : MountedFS) (dir : VNode) (name : List Char) :
    SeenAsSuch fs dir name ↔ TypeInSight fs dir name := by
  cases fs with
  | ext2 volume => exact ext2_seen_iff volume dir name
  | tmpfs inodes => exact iff_of_true (tmpfs_seen inodes dir name) trivial
  | procfs isValidPID => exact procfs_seen_iff isValidPID dir name

section Sample
open Ext2

/-- A link. -/
def linkInode : Ext2Inode := fun i => (([(0, 0xff#8), (1, 0xa1#8)] : List (Nat × Byte)).lookup i.val).getD 0#8

/-- The directory of one block is the inode 2, and the inode 11, its entry `a`, is a link. -/
def linkVolume (fuel : Nat) : Ext2Volume where
  disk := sampleDirectory
  heap := sampleHeap
  privdata := samplePrivdata
  fuel := fuel
  request := 0
  inodeRequest := 2
  inodes node := if node = 2 then some (sampleInode 1) else if node = 11 then some linkInode else none

theorem nameText_letter : Ext2Volume.nameText ['a'] = letter 97#8 := by
  funext i
  cases i with
  | zero => rfl
  | succ i => rfl

/-- The link is found, and not seen as such. -/
theorem link_not_seen : ∃ fuel, ¬ SeenAsSuch (.ext2 (linkVolume fuel)) 2 ['a'] := by
  have directory := sample_wellFormed (show 1 ∈ [1, 2] by decide)
  have geometry : BlockGeometry samplePrivdata := blockGeometry (by decide)
  have present : ∃ fuel search, findDirectoryEntry sampleDirectory sampleHeap samplePrivdata fuel (sampleInode 1)
      (letter 97#8) 0 = some search ∧ Finds sampleDirectory samplePrivdata (sampleInode 1) 1 sampleRecords [97#8]
        search.result :=
    (directory.finds_iff geometry (letter_string (by decide))).mpr
      ⟨rfl, .inl ⟨[0, 12], 24, [], rfl, by decide, by decide, by decide⟩⟩
  obtain ⟨fuel, search, run, finds, _⟩ := present
  obtain ⟨found, result, number⟩ := finds 0 (by decide) 24 (by decide) (by decide) (by decide)
  have eleven : found.inodeNumber = 11#32 := number.trans (by decide)
  refine ⟨fuel, fun seen => ?_⟩
  have searched : (linkVolume fuel).search 2 ['a'] = some search := by
    rw [Ext2Volume.search, nameText_letter]
    exact run
  have read : (linkVolume fuel).iNodeNumberToVNode found.inodeNumber = some (.ok (linkVolume fuel)) := by
    rw [eleven]
    rfl
  have is_dir := (ext2_seen_iff _ _ _).mp seen search found _ linkInode searched result read (by rw [eleven]; rfl)
  exact absurd is_dir (by decide)

end Sample

end VFS
end FluxOS
