import FluxOS.Task
import FluxOS.TmpFile
import FluxOS.TmpNames

/-! `read`, `write` and the calls beside them: what several processes get of the files of a tmpfs through their
descriptors. The files are compared with sequences of bytes, on which the same calls are made. -/
namespace FluxOS
open Words UserMemoryOps

/-- The calls of a file system on the contents of its nodes, over what it keeps. -/
structure FileOps (S : Type) where
  read : S → VNode → BitVec 64 → Word → Option (Int × List Byte)
  write : S → VNode → BitVec 64 → List Byte → Option (Int × S)
  truncate : S → VNode → BitVec 64 → Option (Int × S)

namespace FSUAPI

def oAccmode : Word := 3#32

/-- `fdesc->fpos += ret`, for a result above zero. -/
def advance (files : OpenFiles) (fd : Int) (fdesc : FileDescriptor) (ret : Int) : OpenFiles :=
  if 0 < ret then files.set fd.toNat (some { fdesc with fpos := fdesc.fpos + BitVec.ofInt 64 ret }) else files

section Calls

variable {S : Type} (ops : FileOps S) (fs : S) (files : OpenFiles) (fd : Int)

def read (count : Word) : Option (FileReply × OpenFiles) :=
  match descriptor files fd with
  | none => some ((-ebadf, []), files)
  | some fdesc =>
    if fdesc.flags &&& oAccmode = oWronly then some ((-ebadf, []), files)
    else do
      let (ret, bytes) ← ops.read fs fdesc.node fdesc.fpos count
      return ((ret, bytes), advance files fd fdesc ret)

def write (buffer : List Byte) : Option (Int × S × OpenFiles) :=
  match descriptor files fd with
  | none => some (-ebadf, fs, files)
  | some fdesc =>
    if fdesc.flags &&& oAccmode = oRdonly then some (-ebadf, fs, files)
    else do
      let (ret, fs) ← ops.write fs fdesc.node fdesc.fpos buffer
      return (ret, fs, advance files fd fdesc ret)

/-- `pread`; what the descriptor was opened for is not looked at, as in the calls below. -/
def pread (count : Word) (offset : BitVec 64) : Option FileReply :=
  match descriptor files fd with
  | none => some (-ebadf, [])
  | some fdesc => ops.read fs fdesc.node offset count

def pwrite (buffer : List Byte) (offset : BitVec 64) : Option (Int × S) :=
  match descriptor files fd with
  | none => some (-ebadf, fs)
  | some fdesc => ops.write fs fdesc.node offset buffer

def ftruncate (length : BitVec 64) : Option (Int × S) :=
  match descriptor files fd with
  | none => some (-ebadf, fs)
  | some fdesc => ops.truncate fs fdesc.node length

end Calls

end FSUAPI

/-- The calls on descriptors; `openNode` is an `open` whose path has led to a node, and `fork` gives the process of
that number a copy of the table. -/
inductive DescriptorCall where
  | openNode (node : VNode) (flags : Word)
  | close (fd : Int)
  | dup (oldfd : Int)
  | dup3 (oldfd newfd : Int) (flags : Word)
  | fork (child : Nat)
  | read (fd : Int) (count : Word)
  | write (fd : Int) (buffer : List Byte)
  | pread (fd : Int) (count : Word) (offset : BitVec 64)
  | pwrite (fd : Int) (buffer : List Byte) (offset : BitVec 64)
  | ftruncate (fd : Int) (length : BitVec 64)

/-- A call of a process, with the heap as it is then. -/
structure FileEvent where
  process : Nat
  heap : PageHeap
  call : DescriptorCall

/-- The tables of the processes, and what the file system keeps. -/
structure FilesInUse (S : Type) where
  tables : Nat → OpenFiles
  fs : S

namespace FilesInUse

variable {S : Type}

def setTable (s : FilesInUse S) (process : Nat) (files : OpenFiles) : FilesInUse S :=
  { s with tables := Function.update s.tables process files }

@[simp] theorem tables_setTable_self (s : FilesInUse S) (process : Nat) (files : OpenFiles) :
    (s.setTable process files).tables process = files := Function.update_self ..

@[simp] theorem tables_setTable_of_ne (s : FilesInUse S) {process other : Nat} (ne : other ≠ process) (files : OpenFiles) :
    (s.setTable process files).tables other = s.tables other := Function.update_of_ne ne _ _

def step (ops : FileOps S) (s : FilesInUse S) (process : Nat) : DescriptorCall → Option (FileReply × FilesInUse S)
  | .openNode node flags =>
    let (files, fd) := FSUAPI.openNode (s.tables process) node flags
    some ((fd, []), s.setTable process files)
  | .close fd =>
    let (files, result) := FSUAPI.closePB (s.tables process) fd
    some ((result, []), s.setTable process files)
  | .dup oldfd =>
    let (files, result) := FSUAPI.dup (s.tables process) oldfd
    some ((result, []), s.setTable process files)
  | .dup3 oldfd newfd flags => do
    let (files, result) ← FSUAPI.dup3 (s.tables process) oldfd newfd flags
    return ((result, []), s.setTable process files)
  | .fork child => some ((child, []), s.setTable child (Task.copyDescriptors (s.tables process)))
  | .read fd count => do
    let (reply, files) ← FSUAPI.read ops s.fs (s.tables process) fd count
    return (reply, s.setTable process files)
  | .write fd buffer => do
    let (ret, fs, files) ← FSUAPI.write ops s.fs (s.tables process) fd buffer
    return ((ret, []), { s.setTable process files with fs := fs })
  | .pread fd count offset => do
    let reply ← FSUAPI.pread ops s.fs (s.tables process) fd count offset
    return (reply, s)
  | .pwrite fd buffer offset => do
    let (ret, fs) ← FSUAPI.pwrite ops s.fs (s.tables process) fd buffer offset
    return ((ret, []), { s with fs := fs })
  | .ftruncate fd length => do
    let (ret, fs) ← FSUAPI.ftruncate ops s.fs (s.tables process) fd length
    return ((ret, []), { s with fs := fs })

def run (ops : PageHeap → FileOps S) (s : FilesInUse S) : List FileEvent → Option (List FileReply × FilesInUse S)
  | [] => some ([], s)
  | event :: rest => do
    let (reply, s) ← s.step (ops event.heap) event.process event.call
    let (replies, s) ← s.run ops rest
    return (reply :: replies, s)

end FilesInUse

namespace TmpFS

/-- The calls on the nodes of a mount, which are named by the numbers of their inodes. -/
def fileOps (heap : PageHeap) : FileOps TmpInodes where
  read inodes node pos bufsize := (inode inodes node).bind fun inode => read inode pos bufsize
  write inodes node pos buffer := (inode inodes node).bind fun inode =>
    (write heap inode pos buffer).map fun (ret, changed) => (ret, setInode inodes node fun _ => changed)
  truncate inodes node length := (inode inodes node).bind fun inode =>
    (truncate heap inode length).map fun (ret, changed) => (ret, setInode inodes node fun _ => changed)

end TmpFS

/-- The same calls on sequences of bytes. -/
def SparseFile.fileOps : FileOps (VNode → Option SparseFile) where
  read files node pos bufsize := (files node).map fun file => (file.perform (.read pos bufsize)).1
  write files node pos buffer := (files node).map fun file =>
    let (reply, changed) := file.perform (.write pos buffer)
    (reply.1, Function.update files node (some changed))
  truncate files node length := (files node).map fun file =>
    let (reply, changed) := file.perform (.truncate length)
    (reply.1, Function.update files node (some changed))

namespace SparseFile

variable {files : VNode → Option SparseFile} {node : VNode} {file : SparseFile}

theorem fileOps_read (held : files node = some file) (pos : BitVec 64) (count : Word) :
    fileOps.read files node pos count = some (file.perform (.read pos count)).1 := by
  simp only [fileOps, held, Option.map_some]

theorem fileOps_write (held : files node = some file) (pos : BitVec 64) (buffer : List Byte) :
    fileOps.write files node pos buffer =
      some ((buffer.length : Int), Function.update files node (some (file.write pos.toNat buffer))) := by
  simp only [fileOps, held, Option.map_some, perform]

theorem fileOps_truncate (held : files node = some file) (length : BitVec 64) :
    fileOps.truncate files node length =
      some (0, Function.update files node (some (file.truncate length.toNat))) := by
  simp only [fileOps, held, Option.map_some, perform]

theorem le_size_write (file : SparseFile) (pos : Nat) (buffer : List Byte) : file.size ≤ (file.write pos buffer).size := by
  simp only [write]
  split
  · exact Nat.le_refl _
  · exact Nat.le_max_left _ _

theorem end_le_size_write (file : SparseFile) (pos : Nat) {buffer : List Byte} (filled : buffer ≠ []) :
    pos + buffer.length ≤ (file.write pos buffer).size := by
  simp only [write, if_neg filled]
  exact Nat.le_max_right _ _

theorem length_read_le (file : SparseFile) (pos count : Nat) : (file.read pos count).length ≤ file.size - pos := by
  rw [read, List.length_map, List.length_range]
  exact Nat.min_le_right _ _

end SparseFile

/-! ## Descriptors -/

namespace OpenFiles
open ListWithHoles

variable {files : OpenFiles} {property : VNode → BitVec 64 → Prop}

/-- Every descriptor of the table has the property, which is one of its node and its position. -/
def All (property : VNode → BitVec 64 → Prop) (files : OpenFiles) : Prop :=
  ∀ fdesc, some fdesc ∈ files → property fdesc.node fdesc.fpos

theorem All.descriptor (all : All property files) {fd : Int} {fdesc : FileDescriptor}
    (found : FSUAPI.descriptor files fd = some fdesc) : property fdesc.node fdesc.fpos := by
  unfold FSUAPI.descriptor at found
  split at found
  · exact all _ (List.mem_of_getElem? (Option.join_eq_some_iff.mp found))
  · cases found

theorem All.set (all : All property files) (i : Nat) {entry : Option FileDescriptor}
    (new : ∀ fdesc, entry = some fdesc → property fdesc.node fdesc.fpos) : All property (files.set i entry) := by
  intro fdesc member
  rcases List.mem_or_eq_of_mem_set member with old | rfl
  · exact all fdesc old
  · exact new fdesc rfl

theorem All.add (all : All property files) {value : FileDescriptor} (new : property value.node value.fpos) :
    All property (ListWithHoles.add files value).1 := by
  unfold ListWithHoles.add
  split
  · refine all.set _ fun fdesc same => ?_
    cases same
    exact new
  · intro fdesc member
    rcases List.mem_append.mp member with old | here
    · exact all fdesc old
    · cases List.mem_singleton.mp here
      exact new

theorem All.closePB (all : All property files) (fd : Int) : All property (FSUAPI.closePB files fd).1 := by
  unfold FSUAPI.closePB
  split
  · exact all.set _ fun _ none => by cases none
  · exact all

theorem All.dup (all : All property files) (oldfd : Int) : All property (FSUAPI.dup files oldfd).1 := by
  unfold FSUAPI.dup
  split
  · rename_i found
    exact all.add (all.descriptor found)
  · exact all

theorem All.dup3 (all : All property files) {oldfd newfd : Int} {flags : Word} {after : OpenFiles} {result : Int}
    (done : FSUAPI.dup3 files oldfd newfd flags = some (after, result)) : All property after := by
  unfold FSUAPI.dup3 at done
  split at done
  · cases done
    exact all
  split at done
  · cases done
    exact all
  rename_i found
  have old := all.descriptor found
  split at done
  · cases done
    exact all
  split at done
  · cases done
    refine (all.closePB newfd).set _ fun fdesc same => ?_
    cases same
    exact old
  · cases done

theorem All.copyDescriptors (all : All property files) : All property (Task.copyDescriptors files) := by
  unfold Task.copyDescriptors
  refine List.foldlRecOn files _ (fun _ none => by cases none) fun copied held entry member => ?_
  split
  · exact held.add (all _ member)
  · exact held

theorem All.advance (all : All property files) {fd : Int} {fdesc : FileDescriptor} {ret : Int}
    (new : 0 < ret → property fdesc.node (fdesc.fpos + BitVec.ofInt 64 ret)) :
    All property (FSUAPI.advance files fd fdesc ret) := by
  unfold FSUAPI.advance
  split
  · rename_i positive
    refine all.set _ fun moved same => ?_
    cases same
    exact new positive
  · exact all

theorem All.mono (all : All property files) {weaker : VNode → BitVec 64 → Prop}
    (le : ∀ node fpos, property node fpos → weaker node fpos) : All weaker files :=
  fun fdesc member => le _ _ (all fdesc member)

end OpenFiles

/-! ## The files are sequences of bytes -/

namespace TmpFS

variable {inodes : TmpInodes} {files : VNode → Option SparseFile} {heap : PageHeap}

/-- The inodes hold the files. -/
def HoldsAll (inodes : TmpInodes) (files : VNode → Option SparseFile) : Prop :=
  ∀ node file, files node = some file → ∃ found, inode inodes node = some found ∧ Holds found file

theorem HoldsAll.update (holds : HoldsAll inodes files) {node : VNode} {found changed : TmpInode} {file : SparseFile}
    (here : inode inodes node = some found) (after : Holds changed file) :
    HoldsAll (setInode inodes node fun _ => changed) (Function.update files node (some file)) := by
  intro other otherFile held
  rw [inode_setInode]
  by_cases same : other = node
  · rw [same, Function.update_self] at held
    cases held
    rw [if_pos same, here]
    exact ⟨changed, rfl, after⟩
  · rw [Function.update_of_ne same] at held
    rw [if_neg same]
    exact holds other otherFile held

variable {node : VNode} {file : SparseFile}

theorem HoldsAll.read (holds : HoldsAll inodes files) (held : files node = some file) {pos : BitVec 64} {count : Word}
    (careful : Careful heap file (.read pos count)) :
    (fileOps heap).read inodes node pos count = SparseFile.fileOps.read files node pos count := by
  obtain ⟨found, here, holdsFile⟩ := holds node file held
  have done := read_careful holdsFile careful
  simp only [perform, Option.map_eq_some_iff, Prod.mk.injEq] at done
  obtain ⟨reply, result, rfl, -⟩ := done
  simp only [fileOps, SparseFile.fileOps, here, held, Option.bind_some, Option.map_some, result]

theorem HoldsAll.write (holds : HoldsAll inodes files) (held : files node = some file) {pos : BitVec 64}
    {buffer : List Byte} (careful : Careful heap file (.write pos buffer)) :
    ∃ inodes', (fileOps heap).write inodes node pos buffer = some ((buffer.length : Int), inodes') ∧
      HoldsAll inodes' (Function.update files node (some (file.write pos.toNat buffer))) := by
  obtain ⟨found, here, holdsFile⟩ := holds node file held
  obtain ⟨changed, written, after⟩ := write_careful holdsFile careful
  refine ⟨setInode inodes node fun _ => changed, ?_, holds.update here after⟩
  simp only [fileOps, here, Option.bind_some, written, Option.map_some]

theorem HoldsAll.truncate (holds : HoldsAll inodes files) (held : files node = some file) {length : BitVec 64}
    (careful : Careful heap file (.truncate length)) :
    ∃ inodes', (fileOps heap).truncate inodes node length = some (0, inodes') ∧
      HoldsAll inodes' (Function.update files node (some (file.truncate length.toNat))) := by
  obtain ⟨found, here, holdsFile⟩ := holds node file held
  obtain ⟨changed, truncated, after⟩ := truncate_careful holdsFile careful
  refine ⟨setInode inodes node fun _ => changed, ?_, holds.update here after⟩
  simp only [fileOps, here, Option.bind_some, truncated, Option.map_some]

end TmpFS

namespace FilesInUse

/-- The process has the file open. -/
def Opened (a : FilesInUse (VNode → Option SparseFile)) (process : Nat) (fd : Int) (fdesc : FileDescriptor)
    (file : SparseFile) : Prop :=
  FSUAPI.descriptor (a.tables process) fd = some fdesc ∧ a.fs fdesc.node = some file

/-- What is opened is a file. No count is above the largest `int`, no file reaches `2 ^ 32` bytes, and the heap grants
a block for a longer file. The calls with a position of their own stay within the file, or lengthen it. -/
def Careful (heap : PageHeap) (a : FilesInUse (VNode → Option SparseFile)) (process : Nat) : DescriptorCall → Prop
  | .openNode node _ => ∃ file, a.fs node = some file
  | .close _ | .dup _ | .fork _ => True
  | .dup3 oldfd newfd flags => ∃ result, FSUAPI.dup3 (a.tables process) oldfd newfd flags = some result
  | .read fd count => ∀ fdesc file, a.Opened process fd fdesc file →
    min count.toNat (file.size - fdesc.fpos.toNat) < 2 ^ 31
  | .write fd buffer => ∀ fdesc file, a.Opened process fd fdesc file → buffer.length < 2 ^ 31 ∧
    fdesc.fpos.toNat + buffer.length < 2 ^ 32 ∧
    (file.size < fdesc.fpos.toNat + buffer.length → heap.grants (fdesc.fpos.toNat + buffer.length) = true)
  | .pread fd count offset => ∀ fdesc file, a.Opened process fd fdesc file →
    TmpFS.Careful heap file (.read offset count)
  | .pwrite fd buffer offset => ∀ fdesc file, a.Opened process fd fdesc file →
    TmpFS.Careful heap file (.write offset buffer)
  | .ftruncate fd length => ∀ fdesc file, a.Opened process fd fdesc file → TmpFS.Careful heap file (.truncate length)

/-- Every call of the run is careful where it is made. -/
def CarefulRun (a : FilesInUse (VNode → Option SparseFile)) : List FileEvent → Prop
  | [] => True
  | event :: rest => Careful event.heap a event.process event.call ∧
    ∀ reply a', a.step SparseFile.fileOps event.process event.call = some (reply, a') → CarefulRun a' rest

/-- A position within a file. -/
def InFile (files : VNode → Option SparseFile) (node : VNode) (fpos : BitVec 64) : Prop :=
  ∃ file, files node = some file ∧ fpos.toNat ≤ file.size

/-- The processes have the same tables, the inodes hold the files, and no descriptor is behind the end of its file. -/
structure Matches (s : FilesInUse TmpInodes) (a : FilesInUse (VNode → Option SparseFile)) : Prop where
  tables : s.tables = a.tables
  files : TmpFS.HoldsAll s.fs a.fs
  inside : ∀ process, OpenFiles.All (InFile a.fs) (a.tables process)

variable {s : FilesInUse TmpInodes} {a : FilesInUse (VNode → Option SparseFile)} {heap : PageHeap} {process : Nat}

theorem Matches.setTable (same : Matches s a) {files : OpenFiles} (inside : files.All (InFile a.fs)) :
    Matches (s.setTable process files) (a.setTable process files) where
  tables := by rw [FilesInUse.setTable, FilesInUse.setTable, same.tables]
  files := same.files
  inside other := by
    by_cases here : other = process
    · rw [here, tables_setTable_self]
      exact inside
    · rw [tables_setTable_of_ne _ here]
      exact same.inside other

/-- The file of a node becomes one that is no shorter. -/
theorem Matches.setFile (same : Matches s a) {inodes : TmpInodes} {node : VNode} {file changed : SparseFile}
    (held : a.fs node = some file) (longer : file.size ≤ changed.size)
    (holds : TmpFS.HoldsAll inodes (Function.update a.fs node (some changed))) :
    Matches { s with fs := inodes } { a with fs := Function.update a.fs node (some changed) } where
  tables := same.tables
  files := holds
  inside process := (same.inside process).mono fun other fpos inFile => by
    obtain ⟨old, found, within⟩ := inFile
    by_cases here : other = node
    · rw [here, held] at found
      cases found
      rw [here]
      exact ⟨changed, Function.update_self .., within.trans longer⟩
    · exact ⟨old, (Function.update_of_ne here _ _).trans found, within⟩

theorem toNat_moved {fpos : BitVec 64} {n : Nat} (small : fpos.toNat + n < 2 ^ 64) :
    (fpos + BitVec.ofInt 64 n).toNat = fpos.toNat + n := by
  rw [BitVec.ofInt_natCast, BitVec.toNat_add, BitVec.toNat_ofNat]
  omega

/-- The descriptor that a call finds, with its file. -/
theorem Matches.opened (same : Matches s a) {fd : Int} {fdesc : FileDescriptor}
    (found : FSUAPI.descriptor (a.tables process) fd = some fdesc) :
    ∃ file, a.Opened process fd fdesc file ∧ fdesc.fpos.toNat ≤ file.size ∧ file.size < 2 ^ 32 := by
  obtain ⟨file, held, within⟩ := (same.inside process).descriptor found
  obtain ⟨_, _, holds⟩ := same.files _ file held
  exact ⟨file, ⟨found, held⟩, within, holds.size_lt⟩

theorem Matches.read (same : Matches s a) (fd : Int) (count : Word)
    (careful : Careful heap a process (.read fd count)) :
    ∃ reply s' a', s.step (TmpFS.fileOps heap) process (.read fd count) = some (reply, s') ∧
      a.step SparseFile.fileOps process (.read fd count) = some (reply, a') ∧ Matches s' a' := by
  simp only [step, FSUAPI.read, same.tables]
  cases found : FSUAPI.descriptor (a.tables process) fd with
  | none => exact ⟨_, _, _, rfl, rfl, same.setTable (same.inside process)⟩
  | some fdesc =>
    dsimp only
    by_cases writeOnly : fdesc.flags &&& FSUAPI.oAccmode = FSUAPI.oWronly
    · simp only [if_pos writeOnly]
      exact ⟨_, _, _, rfl, rfl, same.setTable (same.inside process)⟩
    simp only [if_neg writeOnly]
    obtain ⟨file, opened, within, small⟩ := same.opened found
    have done := @TmpFS.HoldsAll.read _ _ heap _ _ same.files opened.2 _ _ ⟨within, careful fdesc file opened⟩
    rw [done, SparseFile.fileOps_read opened.2]
    refine ⟨_, _, _, rfl, rfl, same.setTable ((same.inside process).advance fun _ => ⟨file, opened.2, ?_⟩)⟩
    -- the bytes read end within the file
    have bytes := file.length_read_le fdesc.fpos.toNat count.toNat
    rw [SparseFile.perform, toNat_moved (by omega)]
    omega

theorem Matches.write (same : Matches s a) (fd : Int) (buffer : List Byte)
    (careful : Careful heap a process (.write fd buffer)) :
    ∃ reply s' a', s.step (TmpFS.fileOps heap) process (.write fd buffer) = some (reply, s') ∧
      a.step SparseFile.fileOps process (.write fd buffer) = some (reply, a') ∧ Matches s' a' := by
  simp only [step, FSUAPI.write, same.tables]
  cases found : FSUAPI.descriptor (a.tables process) fd with
  | none => exact ⟨_, _, _, rfl, rfl, same.setTable (same.inside process)⟩
  | some fdesc =>
    dsimp only
    by_cases readOnly : fdesc.flags &&& FSUAPI.oAccmode = FSUAPI.oRdonly
    · simp only [if_pos readOnly]
      exact ⟨_, _, _, rfl, rfl, same.setTable (same.inside process)⟩
    simp only [if_neg readOnly]
    obtain ⟨file, opened, within, small⟩ := same.opened found
    obtain ⟨short, below, granted⟩ := careful fdesc file opened
    obtain ⟨inodes, written, holds⟩ := @TmpFS.HoldsAll.write _ _ heap _ _ same.files opened.2 fdesc.fpos buffer
      ⟨short, below, fun _ => within, granted⟩
    rw [written, SparseFile.fileOps_write opened.2]
    have after := same.setFile opened.2 (file.le_size_write fdesc.fpos.toNat buffer) holds
    refine ⟨_, _, _, rfl, rfl, after.setTable ?_⟩
    refine (after.inside process).advance fun some_bytes => ⟨_, Function.update_self .., ?_⟩
    have filled : buffer ≠ [] := by
      rintro rfl
      exact Int.lt_irrefl 0 some_bytes
    rw [toNat_moved (by omega)]
    exact file.end_le_size_write _ filled

theorem Matches.pread (same : Matches s a) (fd : Int) (count : Word) (offset : BitVec 64)
    (careful : Careful heap a process (.pread fd count offset)) :
    ∃ reply s' a', s.step (TmpFS.fileOps heap) process (.pread fd count offset) = some (reply, s') ∧
      a.step SparseFile.fileOps process (.pread fd count offset) = some (reply, a') ∧ Matches s' a' := by
  simp only [step, FSUAPI.pread, same.tables]
  cases found : FSUAPI.descriptor (a.tables process) fd with
  | none => exact ⟨_, _, _, rfl, rfl, same⟩
  | some fdesc =>
    obtain ⟨file, opened, -⟩ := same.opened found
    dsimp only
    rw [same.files.read opened.2 (careful fdesc file opened), SparseFile.fileOps_read opened.2]
    exact ⟨_, _, _, rfl, rfl, same⟩

theorem Matches.pwrite (same : Matches s a) (fd : Int) (buffer : List Byte) (offset : BitVec 64)
    (careful : Careful heap a process (.pwrite fd buffer offset)) :
    ∃ reply s' a', s.step (TmpFS.fileOps heap) process (.pwrite fd buffer offset) = some (reply, s') ∧
      a.step SparseFile.fileOps process (.pwrite fd buffer offset) = some (reply, a') ∧ Matches s' a' := by
  obtain ⟨tables, inodes⟩ := s
  obtain rfl : tables = a.tables := same.tables
  simp only [step, FSUAPI.pwrite]
  cases found : FSUAPI.descriptor (a.tables process) fd with
  | none => exact ⟨_, _, _, rfl, rfl, same⟩
  | some fdesc =>
    obtain ⟨file, opened, -⟩ := same.opened found
    obtain ⟨inodes', written, holds⟩ := same.files.write opened.2 (careful fdesc file opened)
    dsimp only
    rw [written, SparseFile.fileOps_write opened.2]
    exact ⟨_, _, _, rfl, rfl, same.setFile opened.2 (file.le_size_write offset.toNat buffer) holds⟩

theorem Matches.ftruncate (same : Matches s a) (fd : Int) (length : BitVec 64)
    (careful : Careful heap a process (.ftruncate fd length)) :
    ∃ reply s' a', s.step (TmpFS.fileOps heap) process (.ftruncate fd length) = some (reply, s') ∧
      a.step SparseFile.fileOps process (.ftruncate fd length) = some (reply, a') ∧ Matches s' a' := by
  obtain ⟨tables, inodes⟩ := s
  obtain rfl : tables = a.tables := same.tables
  simp only [step, FSUAPI.ftruncate]
  cases found : FSUAPI.descriptor (a.tables process) fd with
  | none => exact ⟨_, _, _, rfl, rfl, same⟩
  | some fdesc =>
    obtain ⟨file, opened, -⟩ := same.opened found
    have longer : file.size ≤ length.toNat := (careful fdesc file opened).1
    obtain ⟨inodes', truncated, holds⟩ := same.files.truncate opened.2 (careful fdesc file opened)
    dsimp only
    rw [truncated, SparseFile.fileOps_truncate opened.2]
    exact ⟨_, _, _, rfl, rfl, same.setFile opened.2 longer holds⟩

/-- One call of a process returns what it would return on sequences of bytes. -/
theorem Matches.step (same : Matches s a) (call : DescriptorCall) (careful : Careful heap a process call) :
    ∃ reply s' a', s.step (TmpFS.fileOps heap) process call = some (reply, s') ∧
      a.step SparseFile.fileOps process call = some (reply, a') ∧ Matches s' a' := by
  cases call with
  | openNode node flags =>
    obtain ⟨file, held⟩ := careful
    simp only [FilesInUse.step, FSUAPI.openNode, same.tables]
    exact ⟨_, _, _, rfl, rfl, same.setTable ((same.inside process).add ⟨file, held, Nat.zero_le _⟩)⟩
  | close fd =>
    simp only [FilesInUse.step, same.tables]
    exact ⟨_, _, _, rfl, rfl, same.setTable ((same.inside process).closePB fd)⟩
  | dup oldfd =>
    simp only [FilesInUse.step, same.tables]
    exact ⟨_, _, _, rfl, rfl, same.setTable ((same.inside process).dup oldfd)⟩
  | dup3 oldfd newfd flags =>
    obtain ⟨⟨files, result⟩, done⟩ := careful
    simp only [FilesInUse.step, same.tables, done]
    exact ⟨_, _, _, rfl, rfl, same.setTable ((same.inside process).dup3 done)⟩
  | fork child =>
    simp only [FilesInUse.step, same.tables]
    exact ⟨_, _, _, rfl, rfl, same.setTable (same.inside process).copyDescriptors⟩
  | read fd count => exact same.read fd count careful
  | write fd buffer => exact same.write fd buffer careful
  | pread fd count offset => exact same.pread fd count offset careful
  | pwrite fd buffer offset => exact same.pwrite fd buffer offset careful
  | ftruncate fd length => exact same.ftruncate fd length careful

/-- **Open files.** However the calls of several processes interleave on the files of a tmpfs, each returns what it
would return, and the files and positions become what they would become, were the files sequences of bytes. A position
is never behind the end of its file, where a read would leave the block of the file. -/
theorem file_calls_match (events : List FileEvent) {s : FilesInUse TmpInodes}
    {a : FilesInUse (VNode → Option SparseFile)} (same : Matches s a) (careful : CarefulRun a events) :
    ∃ replies s' a', s.run TmpFS.fileOps events = some (replies, s') ∧
      a.run (fun _ => SparseFile.fileOps) events = some (replies, a') ∧ Matches s' a' := by
  induction events generalizing s a with
  | nil => exact ⟨_, _, _, rfl, rfl, same⟩
  | cons event rest ih =>
    obtain ⟨now, later⟩ := careful
    obtain ⟨reply, s₁, a₁, done, should, same₁⟩ := same.step event.call now
    obtain ⟨replies, s', a', ran, shouldRun, same'⟩ := ih same₁ (later reply a₁ should)
    refine ⟨reply :: replies, s', a', ?_, ?_, same'⟩
    · simp only [FilesInUse.run, done, ran, Option.bind_eq_bind, Option.bind_some, Option.pure_def]
    · simp only [FilesInUse.run, should, shouldRun, Option.bind_eq_bind, Option.bind_some, Option.pure_def]

/-- A mount with one file, which no process has open. -/
def oneNewFile : FilesInUse TmpInodes :=
  ⟨fun _ => [], (TmpFS.creat TmpFS.mount 1 ['f'] 0#32 (some [1#8, 1#8, 1#8, 1#8])).1⟩

def oneEmptyFile : FilesInUse (VNode → Option SparseFile) :=
  ⟨fun _ => [], Function.update (fun _ => none) 2 (some SparseFile.empty)⟩

theorem matches_oneNewFile : Matches oneNewFile oneEmptyFile where
  tables := rfl
  files node file held := by
    by_cases same : node = 2
    · rw [same] at held ⊢
      cases held
      exact ⟨_, TmpFS.inode_creat (by decide) ['f'] 0#32 _, TmpFS.newFile_holds 0#32 _⟩
    · rw [oneEmptyFile] at held
      dsimp only at held
      rw [Function.update_of_ne same] at held
      cases held
  inside _ _ member := by cases member

/-- One process writes two bytes, and another has read one of them before the third is written. -/
def sharedFile : List FileEvent :=
  [⟨0, TmpFS.usedHeap, .openNode 2 1#32⟩, ⟨1, TmpFS.usedHeap, .openNode 2 0#32⟩,
    ⟨0, TmpFS.usedHeap, .write 0 [7#8, 8#8]⟩, ⟨1, TmpFS.usedHeap, .read 0 1#32⟩,
    ⟨0, TmpFS.usedHeap, .write 0 [9#8]⟩, ⟨1, TmpFS.usedHeap, .read 0 4#32⟩]

theorem sharedFile_match : ∃ replies s' a', oneNewFile.run TmpFS.fileOps sharedFile = some (replies, s') ∧
    oneEmptyFile.run (fun _ => SparseFile.fileOps) sharedFile = some (replies, a') ∧ Matches s' a' := by
  refine file_calls_match sharedFile matches_oneNewFile ⟨⟨_, rfl⟩, ?_⟩
  rintro _ _ ⟨⟩
  refine ⟨⟨_, rfl⟩, ?_⟩
  rintro _ _ ⟨⟩
  refine ⟨?_, ?_⟩
  · rintro _ _ ⟨⟨⟩, ⟨⟩⟩
    exact ⟨by decide, by decide, fun _ => rfl⟩
  rintro _ _ ⟨⟩
  refine ⟨?_, ?_⟩
  · rintro _ _ ⟨⟨⟩, ⟨⟩⟩
    decide
  rintro _ _ ⟨⟩
  refine ⟨?_, ?_⟩
  · rintro _ _ ⟨⟨⟩, ⟨⟩⟩
    exact ⟨by decide, by decide, fun _ => rfl⟩
  rintro _ _ ⟨⟩
  refine ⟨?_, fun _ _ _ => trivial⟩
  rintro _ _ ⟨⟨⟩, ⟨⟩⟩
  decide

end FilesInUse

end FluxOS
