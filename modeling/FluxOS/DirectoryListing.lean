import FluxOS.DirectoryEntries
import FluxOS.ProcFS
import FluxOS.RecordListing
import Mathlib.Data.Nat.Digits.Lemmas

/-! `getdents` of the four file systems: records of one size, written behind each other to the buffer of
the caller. -/
namespace FluxOS
open Words UserMemoryOps

/-- A `dirent`, with what is written to `d_name`. -/
structure Dirent where
  dReclen : Nat
  dOff : Nat
  dName : List Byte

/-- `NAME_MAX`; and `sizeof(dirent)`, with a `long` and an `off_t` of 4 bytes. -/
def nameMax : Nat := 255
def sizeofDirent : Nat := 268

/-- `rawstrcpy` behind the first bytes, `left` bytes before the last one it may write. -/
def rawCopy (src : Block) (i : Nat) : Nat → List Byte
  | 0 => [0#8]
  | left + 1 => if src i = 0#8 then [src i] else src i :: rawCopy src (i + 1) left

/-- `rawstrcpy`: what `dest` gets. -/
def rawstrcpy (src : Block) (destSize srcSize : Nat) : List Byte :=
  let n := if srcSize < destSize then srcSize else destSize
  rawCopy src 0 (n - 1)

def newDirent (off : Nat) (name : List Byte) : Dirent := ⟨sizeofDirent, off, name⟩

/-- What a `getdents` returns, and the records at the beginning of the buffer. -/
abbrev GetdentsResult := Option (Int × List Dirent)

/-- The loop of a `getdents`, as the number that is returned and the records. -/
def listed (result : Word × List Dirent) : Int × List Dirent := (result.1.toInt, result.2)

namespace TmpFS

/-- The bytes of a string, as memory. -/
def asciiBytes (name : List Char) : Block := fun i => (stringBytes name).getD i 0#8

def nameDirent (name : List Char) : Dirent :=
  newDirent sizeofDirent (rawstrcpy (asciiBytes name) (nameMax + 1) (name.length + 1))

/-- The loop over the names of a directory. -/
def listNames (fuel : Nat) (names : List (List Char)) (count : Word) : Option (Word × List Dirent) :=
  RecordListing.list sizeofDirent (fun names => names.head?.map nameDirent) List.tail (fun names => !names.isEmpty) count
    fuel names 0#32 []

/-- `getdents`. Without an entry the first name is read through a null pointer. -/
def getdents (fuel : Nat) (inode : TmpInode) (count : Word) : GetdentsResult :=
  if isDirectory inode then
    let names := inode.directory.nodes.map Prod.fst
    if names = [] then none else (listNames fuel names count).map listed
  else some (-enotdir, [])

end TmpFS

/-- `getdents`, which does the same with the table of an inode of its own. -/
def DevFS.getdents : Nat → TmpInode → Word → GetdentsResult := TmpFS.getdents

namespace ProcFS

/-- `strcpy` of a name. -/
def fileDirent (name : List Char) : Dirent := newDirent 268 (TmpFS.stringBytes name)

def pidName (pid : Word) : List Char := itoaz pid.toInt 10

/-- `getdents`, with the processes that the enumeration comes to. The `count` is not looked at. -/
def getdents (pids : List Word) (node : NodeId) (_count : Word) : GetdentsResult :=
  let dirents :=
    if node = rootId then [fileDirent TmpFS.dot, fileDirent VFS.dotDot] ++ pids.map fun pid => fileDirent (pidName pid)
    else if IsPid node then pidSubdirFiles.map fileDirent ++ [fileDirent VFS.dotDot]
    else []
  some ((BitVec.ofNat 32 (sizeofDirent * dirents.length)).toInt, dirents)

end ProcFS

namespace Ext2
open BlockDevice

/-- The record behind the one at an offset, which is counted in 32 bits. -/
def nextRecord (dir : Block) (readBytes : Word) : Word := readBytes + BitVec.ofNat 32 (recLen dir readBytes.toNat)

def entryDirent (dir : Block) (offset : Nat) : Dirent :=
  newDirent sizeofDirent (rawstrcpy (nameBytes dir offset) (nameMax + 1) (nameLen dir offset + 1))

/-- What is written of a record: nothing if it has no name. -/
def listedEntry (dir : Block) (readBytes : Word) : Option Dirent :=
  if nameLen dir readBytes.toNat ≠ 0 then some (entryDirent dir readBytes.toNat) else none

def listEntries (fuel : Nat) (dir : Block) (iSize count : Word) : Option (Word × List Dirent) :=
  RecordListing.list sizeofDirent (listedEntry dir) (nextRecord dir) (fun readBytes => decide (readBytes < iSize)) count
    fuel 0#32 0#32 []

section GetDEnts

variable (disk : Disk) (heap : DirtyHeap) (privdata : Ext2Privdata)

/-- The block that the contents of a directory are read to, and the memory behind it. There is none where
`ReadData` has no result. -/
def directoryData (readFuel : Nat) (inode : Ext2Inode) (request : Nat) : Option Block :=
  (readData disk heap privdata readFuel inode (request + 1) 0#64 (fun address => heap.holds request address.toNat) 0#32
    inode.iSize).map fun read => fun i => read.mem (BitVec.ofNat 32 i)

/-- `GetDEnts`. What `ReadData` returns is not looked at. -/
def getDEnts (readFuel fuel : Nat) (inode : Ext2Inode) (request : Nat) (count : Word) : GetdentsResult :=
  if VFS.sIsdir (inode.iMode.setWidth 32) = false then some (-enotdir, [])
  else if heap.grants request = false then some (-enoent, [])
  else
    (directoryData disk heap privdata readFuel inode request).bind fun dir =>
      (listEntries fuel dir inode.iSize count).map listed

end GetDEnts
end Ext2

/-! ## The room for the records -/

/-- A directory as `FSUAPI::getdents` calls its file system. -/
inductive OpenDirectory where
  | tmpfs (inode : TmpInode)
  | devfs (inode : TmpInode)
  | procfs (pids : List Word) (node : ProcFS.NodeId)
  | ext2 (disk : Disk) (heap : DirtyHeap) (privdata : Ext2Privdata) (inode : Ext2Inode) (request : Nat)

namespace OpenDirectory

def getdents (readFuel fuel : Nat) (count : Word) : OpenDirectory → GetdentsResult
  | tmpfs inode => TmpFS.getdents fuel inode count
  | devfs inode => DevFS.getdents fuel inode count
  | procfs pids node => ProcFS.getdents pids node count
  | ext2 disk heap privdata inode request => Ext2.getDEnts disk heap privdata readFuel fuel inode request count

/-- Records that lie in `count` bytes, each with its name in its field, and the number of their bytes; or an
error and nothing written. -/
structure Respects (count : Word) (ret : Int) (dirents : List Dirent) : Prop where
  inside : sizeofDirent * dirents.length ≤ count.toNat
  names : ∀ dirent ∈ dirents, dirent.dName.length ≤ nameMax + 1
  bytes : ret = sizeofDirent * dirents.length ∨ ret < 0 ∧ dirents = []

def RespectsBuffer (directory : OpenDirectory) (count : Word) : Prop :=
  ∃ readFuel fuel ret dirents, directory.getdents readFuel fuel count = some (ret, dirents) ∧ Respects count ret dirents

/-- So many records are `2 ^ 31` bytes or more. -/
def manyRecords : Nat := 8012999

/-- There are names, the first one has room, and they do not come to `2 ^ 31` bytes, or the room does not. -/
def NamesFit (inode : TmpInode) (count : Word) : Prop :=
  TmpFS.isDirectory inode = true → inode.directory.nodes ≠ [] ∧ sizeofDirent ≤ count.toNat ∧
    (inode.directory.nodes.length < manyRecords ∨ count.toNat ≤ sizeofDirent * manyRecords)

/-- The records of the first places of an ext2 directory that are written. -/
def entryDirents (dir : Block) (places : Nat) : List Dirent :=
  RecordListing.records (Ext2.listedEntry dir) (Ext2.nextRecord dir) 0#32 places

/-- The offset of the record behind so many others. -/
def recordOffset (dir : Block) (places : Nat) : Word := (Ext2.nextRecord dir)^[places] 0#32

/-- The first record has room or no name, and behind some record the directory or the room for one more ends,
before `2 ^ 31` bytes. -/
def EntriesFit (dir : Block) (iSize count : Word) : Prop :=
  (sizeofDirent ≤ count.toNat ∨ Ext2.nameLen dir 0 = 0) ∧
    ∃ places, 0 < places ∧ (entryDirents dir places).length < manyRecords ∧
      (iSize ≤ recordOffset dir places ∨ count.toNat ≤ sizeofDirent * ((entryDirents dir places).length + 1))

/-- What the room must be for. -/
def RoomFor (count : Word) : OpenDirectory → Prop
  | tmpfs inode => NamesFit inode count
  | devfs inode => NamesFit inode count
  | procfs pids node =>
    (node = ProcFS.rootId → sizeofDirent * (pids.length + 2) ≤ count.toNat ∧ pids.length + 2 < manyRecords) ∧
      (ProcFS.IsPid node → sizeofDirent * 3 ≤ count.toNat)
  | ext2 disk heap privdata inode request =>
    VFS.sIsdir (inode.iMode.setWidth 32) = true → heap.grants request = true →
      ∃ readFuel dir, Ext2.directoryData disk heap privdata readFuel inode request = some dir ∧
        EntriesFit dir inode.iSize count

theorem lt_manyRecords_iff (records : Nat) : records < manyRecords ↔ sizeofDirent * records < 2 ^ 31 := by
  unfold manyRecords sizeofDirent
  omega

theorem length_rawCopy (src : Block) (i left : Nat) : (rawCopy src i left).length ≤ left + 1 := by
  induction left generalizing i with
  | zero => exact Nat.le_refl _
  | succ left ih =>
    rw [rawCopy]
    split
    · exact Nat.le_add_left _ _
    · exact Nat.succ_le_succ (ih (i + 1))

/-- `rawstrcpy` stays in `dest`, as long as there is room for the byte that ends it. -/
theorem length_rawstrcpy (src : Block) {destSize srcSize : Nat} (room : 0 < destSize) (ends : 0 < srcSize) :
    (rawstrcpy src destSize srcSize).length ≤ destSize := by
  rw [rawstrcpy]
  refine Nat.le_trans (length_rawCopy src 0 _) ?_
  split <;> omega

theorem length_itoaz (pid : Word) : (itoaz pid.toInt 10).length ≤ 12 := by
  have digits : (Nat.digits 10 pid.toInt.natAbs).length ≤ 10 := by
    rw [Nat.digits_length_le_iff (by decide)]
    have low := BitVec.le_toInt pid
    have high := BitVec.toInt_lt (x := pid)
    omega
  rw [itoaz, List.length_reverse, List.length_append, List.length_map]
  split <;> split <;> simp only [List.length_cons, List.length_nil] <;> omega

/-- A listing keeps to the room as its loop does. -/
theorem listing_respects_iff {S : Type*} {emits : S → Option Dirent} {next : S → S} {more : S → Bool} {count : Word}
    {place : S} (short : ∀ place dirent, emits place = some dirent → dirent.dName.length ≤ nameMax + 1) :
    (∃ fuel ret dirents,
        (RecordListing.list sizeofDirent emits next more count fuel place 0#32 []).map listed = some (ret, dirents) ∧
          Respects count ret dirents) ↔
      (sizeofDirent ≤ count.toNat ∨ emits place = none) ∧
        ∃ places, 0 < places ∧ (RecordListing.records emits next place places).length < manyRecords ∧
          (more (next^[places] place) = false ∨
            count.toNat ≤ sizeofDirent * ((RecordListing.records emits next place places).length + 1)) := by
  simp only [lt_manyRecords_iff]
  rw [← RecordListing.list_fits_iff (by decide)]
  constructor
  · rintro ⟨fuel, ret, dirents, run, inside, -, bytes⟩
    obtain ⟨result, ended, same⟩ := Option.map_eq_some_iff.mp run
    cases same
    refine ⟨fuel, result, ended, inside, ?_⟩
    rcases bytes with bytes | ⟨negative, nothing⟩
    · exact bytes
    · -- a loop that wrote nothing has counted nothing
      obtain ⟨last, -, -, -, rfl⟩ := (RecordListing.list_iff place result).mp ⟨fuel, ended⟩
      have zero : (RecordListing.usedAfter sizeofDirent emits next place last).toInt = 0 := by
        dsimp only at nothing
        rw [RecordListing.usedAfter, nothing]
        decide
      dsimp only at negative
      omega
  · rintro ⟨fuel, result, run, inside, bytes⟩
    refine ⟨fuel, result.1.toInt, result.2, by rw [run]; rfl, inside, fun dirent mem => ?_, .inl bytes⟩
    obtain ⟨at_place, written⟩ := RecordListing.exists_place_of_mem run mem
    exact short at_place dirent written

/-! ### Names in a table -/

theorem iterate_tail {α : Type*} (names : List α) (places : Nat) : List.tail^[places] names = names.drop places := by
  induction places with
  | zero => rfl
  | succ places ih => rw [Function.iterate_succ_apply', ih, List.tail_drop]

theorem length_records_names (names : List (List Char)) (places : Nat) :
    (RecordListing.records (fun names => names.head?.map TmpFS.nameDirent) List.tail names places).length =
      min places names.length := by
  induction places with
  | zero => rw [Nat.zero_min]; rfl
  | succ places ih =>
    rw [RecordListing.records_succ, List.length_append, ih, iterate_tail, List.head?_drop]
    by_cases inside : places < names.length
    · rw [List.getElem?_eq_getElem inside, Option.map_some, Option.toList, List.length_singleton]
      omega
    · rw [List.getElem?_eq_none (Nat.le_of_not_lt inside), Option.map_none, Option.toList, List.length_nil]
      omega

theorem tmpfs_respects_iff (inode : TmpInode) (count : Word) :
    RespectsBuffer (tmpfs inode) count ↔ NamesFit inode count := by
  by_cases directory : TmpFS.isDirectory inode = true
  swap
  · refine iff_of_true ⟨0, 0, -enotdir, [], ?_, ?_⟩ fun isDirectory => absurd isDirectory directory
    · exact if_neg directory
    · exact ⟨Nat.zero_le _, List.forall_mem_nil _, .inr ⟨by decide, rfl⟩⟩
  rw [NamesFit, forall_prop_of_true directory, RespectsBuffer]
  simp only [getdents, TmpFS.getdents, if_pos directory, exists_const]
  cases entries : inode.directory.nodes with
  | nil =>
    refine iff_of_false ?_ fun fits => fits.1 rfl
    rintro ⟨fuel, ret, dirents, run, -⟩
    cases run
  | cons first later =>
    simp only [List.map_cons, reduceCtorEq, if_false, TmpFS.listNames]
    rw [listing_respects_iff]
    swap
    · intro names dirent written
      obtain ⟨name, -, rfl⟩ := Option.map_eq_some_iff.mp written
      exact length_rawstrcpy _ (by decide) (Nat.succ_pos _)
    have named : Option.map TmpFS.nameDirent (first.1 :: later.map Prod.fst).head? ≠ none :=
      fun unnamed => Option.some_ne_none _ unnamed
    simp only [length_records_names, iterate_tail, named, or_false, Bool.not_eq_eq_eq_not, Bool.not_false,
      List.isEmpty_iff, List.drop_eq_nil_iff, ne_eq, reduceCtorEq, not_false_eq_true, true_and, List.length_cons,
      List.length_map]
    refine and_congr_right fun _ => ?_
    constructor
    · rintro ⟨places, positive, few, ends⟩
      unfold manyRecords sizeofDirent at *
      omega
    · rintro (few | narrow)
      · exact ⟨later.length + 1, Nat.succ_pos _, by omega, .inl (Nat.le_refl _)⟩
      · refine ⟨manyRecords - 1, by decide, ?_, ?_⟩
        · unfold manyRecords
          omega
        · unfold manyRecords sizeofDirent at *
          omega

/-! ### The processes -/

theorem length_pidSubdirFiles : ∀ name ∈ ProcFS.pidSubdirFiles, (TmpFS.stringBytes name).length ≤ nameMax + 1 := by
  decide

theorem length_stringBytes (name : List Char) : (TmpFS.stringBytes name).length = name.length + 1 := by
  rw [TmpFS.stringBytes, List.length_append, List.length_map, List.length_singleton]

/-- Every name that is copied has room in its record. -/
theorem procfs_names (pids : List Word) (node : ProcFS.NodeId) (count : Word) (ret : Int) (dirents : List Dirent)
    (returned : ProcFS.getdents pids node count = some (ret, dirents)) :
    ∀ dirent ∈ dirents, dirent.dName.length ≤ nameMax + 1 := by
  have dots : (ProcFS.fileDirent VFS.dotDot).dName.length ≤ nameMax + 1 := by decide
  have dot : (ProcFS.fileDirent TmpFS.dot).dName.length ≤ nameMax + 1 := by decide
  rw [ProcFS.getdents] at returned
  obtain ⟨-, rfl⟩ := Prod.mk.inj (Option.some.inj returned)
  split
  · intro dirent mem
    rcases List.mem_append.mp mem with first | process
    · rcases List.mem_cons.mp first with rfl | second
      · exact dot
      · cases List.mem_singleton.mp second
        exact dots
    · obtain ⟨pid, -, rfl⟩ := List.mem_map.mp process
      change (TmpFS.stringBytes (ProcFS.pidName pid)).length ≤ nameMax + 1
      rw [length_stringBytes]
      exact Nat.le_trans (Nat.succ_le_succ (length_itoaz pid)) (by decide)
  · split
    · intro dirent mem
      rcases List.mem_append.mp mem with file | last
      · obtain ⟨name, among, rfl⟩ := List.mem_map.mp file
        exact length_pidSubdirFiles name among
      · cases List.mem_singleton.mp last
        exact dots
    · exact List.forall_mem_nil _

/-- So many records are written whatever the room is. -/
theorem respects_iff_of_written {count : Word} {dirents : List Dirent}
    (names : ∀ dirent ∈ dirents, dirent.dName.length ≤ nameMax + 1) :
    Respects count (BitVec.ofNat 32 (sizeofDirent * dirents.length)).toInt dirents ↔
      sizeofDirent * dirents.length ≤ count.toNat ∧ dirents.length < manyRecords := by
  rw [lt_manyRecords_iff, ← RecordListing.toInt_ofNat_iff]
  constructor
  · rintro ⟨inside, -, bytes | ⟨negative, rfl⟩⟩
    · exact ⟨inside, bytes⟩
    · exact absurd negative (by decide)
  · rintro ⟨inside, bytes⟩
    exact ⟨inside, names, .inl bytes⟩

theorem procfs_respects_iff (pids : List Word) (node : ProcFS.NodeId) (count : Word) :
    RespectsBuffer (procfs pids node) count ↔ RoomFor count (procfs pids node) := by
  obtain ⟨dirents, returned⟩ : ∃ dirents, ProcFS.getdents pids node count =
      some ((BitVec.ofNat 32 (sizeofDirent * dirents.length)).toInt, dirents) := ⟨_, rfl⟩
  have names := procfs_names pids node count _ dirents returned
  have answers : RespectsBuffer (procfs pids node) count ↔
      sizeofDirent * dirents.length ≤ count.toNat ∧ dirents.length < manyRecords := by
    rw [← respects_iff_of_written names]
    constructor
    · rintro ⟨_, _, ret, dirents', run, respects⟩
      cases returned.symm.trans run
      exact respects
    · exact fun respects => ⟨0, 0, _, _, returned, respects⟩
  have same := (Prod.mk.inj (Option.some.inj returned)).2
  rw [answers, RoomFor, ← same]
  by_cases root : node = ProcFS.rootId
  · have noProcess : ¬ProcFS.IsPid node := fun process => ProcFS.not_rootId_of_isPid process root
    rw [if_pos root, forall_prop_of_true root, List.length_append, List.length_map, Nat.add_comm]
    exact (and_iff_left fun process => absurd process noProcess).symm
  · rw [if_neg root]
    by_cases process : ProcFS.IsPid node
    · rw [if_pos process, forall_prop_of_true process]
      exact ⟨fun both => ⟨fun root' => absurd root' root, both.1⟩, fun both => ⟨both.2, by decide⟩⟩
    · rw [if_neg process]
      exact ⟨fun _ => ⟨fun root' => absurd root' root, fun process' => absurd process' process⟩,
        fun _ => ⟨Nat.zero_le _, by decide⟩⟩

/-! ### Records of a disk -/

theorem ext2_respects_iff (disk : Disk) (heap : DirtyHeap) (privdata : Ext2Privdata) (inode : Ext2Inode) (request : Nat)
    (count : Word) :
    RespectsBuffer (ext2 disk heap privdata inode request) count ↔
      RoomFor count (ext2 disk heap privdata inode request) := by
  by_cases directory : VFS.sIsdir (inode.iMode.setWidth 32) = true
  swap
  · refine iff_of_true ⟨0, 0, -enotdir, [], ?_, ?_⟩ fun isDirectory => absurd isDirectory directory
    · exact if_pos (Bool.eq_false_iff.mpr directory)
    · exact ⟨Nat.zero_le _, List.forall_mem_nil _, .inr ⟨by decide, rfl⟩⟩
  by_cases granted : heap.grants request = true
  swap
  · refine iff_of_true ⟨0, 0, -enoent, [], ?_, ?_⟩ fun _ grants => absurd grants granted
    · exact (if_neg fun no => absurd (directory.symm.trans no) (by decide)).trans (if_pos (Bool.eq_false_iff.mpr granted))
    · exact ⟨Nat.zero_le _, List.forall_mem_nil _, .inr ⟨by decide, rfl⟩⟩
  rw [RoomFor, forall_prop_of_true directory, forall_prop_of_true granted]
  have goesOn (readFuel fuel : Nat) : getdents readFuel fuel count (ext2 disk heap privdata inode request) =
      (Ext2.directoryData disk heap privdata readFuel inode request).bind fun dir =>
        (Ext2.listEntries fuel dir inode.iSize count).map listed :=
    (if_neg fun no => absurd (directory.symm.trans no) (by decide)).trans
      (if_neg fun no => absurd (granted.symm.trans no) (by decide))
  have listing (dir : Block) : (∃ fuel ret dirents,
      (Ext2.listEntries fuel dir inode.iSize count).map listed = some (ret, dirents) ∧ Respects count ret dirents) ↔
      EntriesFit dir inode.iSize count := by
    refine (listing_respects_iff ?_).trans ?_
    · intro readBytes dirent written
      obtain ⟨-, same⟩ := Option.ite_none_right_eq_some.mp written
      cases same
      exact length_rawstrcpy _ (by decide) (Nat.succ_pos _)
    · have unnamed : Ext2.listedEntry dir 0#32 = none ↔ Ext2.nameLen dir 0 = 0 := by
        rw [Ext2.listedEntry, ite_not, ite_eq_left_iff]
        exact ⟨fun empty => not_not.mp fun named => Option.some_ne_none _ (empty named),
          fun empty named => absurd empty named⟩
      simp only [unnamed, decide_eq_false_iff_not, BitVec.not_lt]
      rfl
  constructor
  · rintro ⟨readFuel, fuel, ret, dirents, run, respects⟩
    rw [goesOn] at run
    obtain ⟨dir, read, run⟩ := Option.bind_eq_some_iff.mp run
    exact ⟨readFuel, dir, read, (listing dir).mp ⟨fuel, ret, dirents, run, respects⟩⟩
  · rintro ⟨readFuel, dir, read, fits⟩
    obtain ⟨fuel, ret, dirents, run, respects⟩ := (listing dir).mpr fits
    refine ⟨readFuel, fuel, ret, dirents, ?_, respects⟩
    rw [goesOn, read]
    exact run

/-- **The buffer of `getdents`** is respected by a file system exactly if it has room for what is written without
a look at `count`: the first record, or all of them; and if the number of bytes is one that can be returned. -/
theorem getdents_respects_iff (directory : OpenDirectory) (count : Word) :
    directory.RespectsBuffer count ↔ directory.RoomFor count := by
  cases directory with
  | tmpfs inode => exact tmpfs_respects_iff inode count
  | devfs inode => exact tmpfs_respects_iff inode count
  | procfs pids node => exact procfs_respects_iff pids node count
  | ext2 disk heap privdata inode request => exact ext2_respects_iff disk heap privdata inode request count

/-- The root of a new file system, with `.` and `..`. -/
def newRoot : TmpInode := ⟨VFS.sIfdir.setWidth 16, 0#32, none,
  (TmpFS.newDirectory.insert TmpFS.qHash TmpFS.dot 1).insert TmpFS.qHash VFS.dotDot 1⟩

/-- A record is written where there is no room for any. -/
theorem newRoot_overruns : ¬(tmpfs newRoot).RespectsBuffer 100#32 := by
  rw [tmpfs_respects_iff]
  intro fits
  exact absurd (fits (by decide)).2.1 (by decide)

end OpenDirectory
end FluxOS
