import FluxOS.TmpFS

/-! What a tmpfs file is for: a sequence of bytes that grows with zeros. Calls that
read from within the file and only make it longer treat it as that. -/
namespace FluxOS
open Words UserMemoryOps

/-- A file as the calls on it should see it. Behind its end there is nothing but zeros. -/
@[ext] structure SparseFile where
  size : Nat
  byteAt : Nat → Byte
  zero_above : ∀ i, size ≤ i → byteAt i = 0#8

namespace SparseFile

def empty : SparseFile := ⟨0, fun _ => 0#8, fun _ _ => rfl⟩

/-- The bytes that a read of `count` bytes gives. -/
def read (file : SparseFile) (pos count : Nat) : List Byte :=
  (List.range (min count (file.size - pos))).map fun i => file.byteAt (pos + i)

/-- Writing nothing leaves the file as it is, wherever it is written. -/
def write (file : SparseFile) (pos : Nat) (bytes : List Byte) : SparseFile where
  size := if bytes = [] then file.size else max file.size (pos + bytes.length)
  byteAt i := if pos ≤ i ∧ i < pos + bytes.length then bytes.getD (i - pos) 0#8 else file.byteAt i
  zero_above i above := by
    cases bytes with
    | nil =>
      simp only [List.length_nil]
      rw [if_neg (by omega)]
      exact file.zero_above i (by simpa using above)
    | cons first rest =>
      rw [if_neg (List.cons_ne_nil first rest)] at above
      rw [if_neg (by omega)]
      exact file.zero_above i (by omega)

def truncate (file : SparseFile) (length : Nat) : SparseFile where
  size := length
  byteAt i := if i < length then file.byteAt i else 0#8
  zero_above i above := if_neg (by omega)

end SparseFile

inductive FileCall where
  | read (pos : BitVec 64) (bufsize : Word)
  | write (pos : BitVec 64) (buffer : List Byte)
  | truncate (length : BitVec 64)

/-- What a call returns, and the bytes it hands out. -/
abbrev FileReply := Int × List Byte

/-- A call on the file it should be. -/
def SparseFile.perform (file : SparseFile) : FileCall → FileReply × SparseFile
  | .read pos bufsize =>
    let bytes := file.read pos.toNat bufsize.toNat
    ((bytes.length, bytes), file)
  | .write pos buffer => ((buffer.length, []), file.write pos.toNat buffer)
  | .truncate length => ((0, []), file.truncate length.toNat)

def SparseFile.run (file : SparseFile) : List FileCall → List FileReply × SparseFile
  | [] => ([], file)
  | call :: rest =>
    let (reply, file) := file.perform call
    let (replies, file) := file.run rest
    (reply :: replies, file)

namespace TmpFS
open Buffers

/-- A call as the code does it, with the heap as it is then. -/
def perform (heap : PageHeap) (inode : TmpInode) : FileCall → Option (FileReply × TmpInode)
  | .read pos bufsize => (read inode pos bufsize).map fun reply => (reply, inode)
  | .write pos buffer => (write heap inode pos buffer).map fun (result, inode) => ((result, []), inode)
  | .truncate length => (truncate heap inode length).map fun (result, inode) => ((result, []), inode)

def run (inode : TmpInode) : List (PageHeap × FileCall) → Option (List FileReply × TmpInode)
  | [] => some ([], inode)
  | (heap, call) :: rest => do
    let (reply, inode) ← perform heap inode call
    let (replies, inode) ← run inode rest
    some (reply :: replies, inode)

/-- The new file of `creat`, with what `malloc(4)` gave. -/
def newFile (mode : Word) (block : Option (List Byte)) : TmpInode :=
  ⟨(mode ||| VFS.sIfreg).setWidth 16, 0#32, block, newDirectory⟩

/-- `FileData` has the bytes of the file at its beginning. -/
structure Holds (inode : TmpInode) (file : SparseFile) : Prop where
  regular : isDirectory inode = false
  size : inode.size.toNat = file.size
  bytes : ∀ i < file.size, (contents inode)[i]? = some (file.byteAt i)

/-- A read begins within the file, or at its end; a write ends below `2 ^ 32`, and one of no bytes
does not begin behind the end; `truncate` does not shorten the file, and stays below `2 ^ 32`. No
count is above the largest `int`, and a larger block is granted when one is needed. -/
def Careful (heap : PageHeap) (file : SparseFile) : FileCall → Prop
  | .read pos bufsize => pos.toNat ≤ file.size ∧ min bufsize.toNat (file.size - pos.toNat) < 2 ^ 31
  | .write pos buffer =>
    buffer.length < 2 ^ 31 ∧ pos.toNat + buffer.length < 2 ^ 32 ∧ (buffer = [] → pos.toNat ≤ file.size) ∧
      (file.size < pos.toNat + buffer.length → heap.grants (pos.toNat + buffer.length) = true)
  | .truncate length => file.size ≤ length.toNat ∧ length.toNat < 2 ^ 32 ∧ heap.grants length.toNat = true

/-- Every call of the run is careful, at the file as it should be then. -/
def CarefulRun (file : SparseFile) : List (PageHeap × FileCall) → Prop
  | [] => True
  | (heap, call) :: rest => Careful heap file call ∧ CarefulRun (file.perform call).2 rest

section Calls

variable {inode : TmpInode} {file : SparseFile} {heap : PageHeap}

theorem Holds.size_lt (holds : Holds inode file) : file.size < 2 ^ 32 := holds.size ▸ inode.size.isLt

theorem Holds.size_le (holds : Holds inode file) : file.size ≤ (contents inode).length := by
  rcases Nat.eq_zero_or_pos file.size with empty | filled
  · omega
  · have last := holds.bytes (file.size - 1) (by omega)
    have bound := (List.getElem?_eq_some_iff.mp last).1
    omega

/-- A slice of the file's own bytes. -/
theorem Holds.slice (holds : Holds inode file) (pos count : Nat) (inside : pos + count ≤ file.size) :
    Buffers.slice (contents inode) pos count =
      some ((List.range count).map fun i => file.byteAt (pos + i)) := by
  have bound := holds.size_le
  rw [slice_of_inside (inside.trans bound), Option.some.injEq]
  apply List.ext_getElem?
  intro i
  by_cases within : i < count
  · have byte := holds.bytes (pos + i) (by omega)
    simpa [List.getElem?_take, List.getElem?_drop, within] using byte
  · simp [within]

theorem read_careful (holds : Holds inode file) {pos : BitVec 64} {bufsize : Word}
    (careful : Careful heap file (.read pos bufsize)) :
    perform heap inode (.read pos bufsize) =
      some (((file.perform (.read pos bufsize)).1), inode) := by
  obtain ⟨within, small⟩ := careful
  have sizeBound := holds.size_lt
  have posBound : (pos.setWidth 32).toNat = pos.toNat := by
    simp
    omega
  have count : (if inode.size.setWidth 64 < bufsize.setWidth 64 + pos then (inode.size.setWidth 64 - pos).setWidth 32
      else bufsize).toNat = min bufsize.toNat (file.size - pos.toNat) := by
    have bufBound := bufsize.isLt
    have sum : (bufsize.setWidth 64 + pos).toNat = bufsize.toNat + pos.toNat := by
      rw [BitVec.toNat_add, toNat_setWidth_word]
      omega
    have difference : (inode.size.setWidth 64 - pos).toNat = file.size - pos.toNat := by
      rw [BitVec.toNat_sub, toNat_setWidth_word, holds.size]
      omega
    split
    · rename_i beyond
      rw [BitVec.lt_def, sum, toNat_setWidth_word, holds.size] at beyond
      rw [BitVec.toNat_setWidth, difference]
      omega
    · rename_i inside
      rw [BitVec.lt_def, sum, toNat_setWidth_word, holds.size] at inside
      omega
  simp only [perform, read, holds.regular, Bool.false_eq_true, if_false, posBound, count]
  rw [holds.slice _ _ (by omega)]
  simp only [SparseFile.perform, SparseFile.read, List.length_map, List.length_range, Option.map_some,
    Option.some.injEq, Prod.mk.injEq, and_true]
  rw [BitVec.toInt_eq_toNat_of_lt (by omega), count]

/-- The new block holds the old bytes, and zeros behind them. -/
theorem truncate_careful (holds : Holds inode file) {length : BitVec 64}
    (careful : Careful heap file (.truncate length)) :
    ∃ inode', truncate heap inode length = some (0, inode') ∧ Holds inode' (file.truncate length.toNat) := by
  obtain ⟨longer, small, granted⟩ := careful
  have size := holds.size
  have request : (length.setWidth 32).toNat = length.toNat := by
    simp
    omega
  have area : ((length - inode.size.setWidth 64).setWidth 32).toNat = length.toNat - file.size := by
    rw [BitVec.toNat_setWidth, BitVec.toNat_sub, toNat_setWidth_word, size]
    omega
  have old := holds.slice 0 file.size (by omega)
  rw [← size] at old
  obtain ⟨copied, copy⟩ := patch_of_inside ((List.range length.toNat).map heap.holds) 0
    ((List.range inode.size.toNat).map fun i => file.byteAt (0 + i)) (by simp; omega)
  have copiedLength : copied.length = length.toNat := by
    simpa using length_of_patch copy
  have copiedByte (i : Nat) (below : i < file.size) : copied[i]? = some (file.byteAt i) := by
    have byte := getElem?_of_patch copy i
    rw [if_pos (by simp; omega)] at byte
    simpa [size, below] using byte
  have cleared : ∃ grown, (if inode.size.setWidth 64 < length then
        patch copied inode.size.toNat (List.replicate (length.toNat - file.size) 0#8) else some copied) = some grown ∧
      ∀ i < length.toNat, grown[i]? = some (if i < file.size then file.byteAt i else 0#8) := by
    by_cases grows : file.size < length.toNat
    · obtain ⟨grown, written⟩ := patch_of_inside copied inode.size.toNat
        (List.replicate (length.toNat - file.size) 0#8) (by simp; omega)
      refine ⟨grown, ?_, fun i below => ?_⟩
      · rw [if_pos (by rw [BitVec.lt_def, toNat_setWidth_word, size]; exact grows)]
        exact written
      · have byte := getElem?_of_patch written i
        rw [size, List.length_replicate] at byte
        by_cases first : i < file.size
        · rw [if_neg (by omega), copiedByte i first] at byte
          rw [byte, if_pos first]
        · rw [if_pos (by omega)] at byte
          rw [byte, if_neg first, List.getElem?_replicate, if_pos (by omega)]
    · refine ⟨copied, ?_, fun i below => ?_⟩
      · rw [if_neg (by rw [BitVec.lt_def, toNat_setWidth_word, size]; exact grows)]
      · rw [if_pos (by omega), copiedByte i (by omega)]
  obtain ⟨grown, cleared, byte⟩ := cleared
  refine ⟨{ inode with fileData := some grown, size := length.setWidth 32 }, ?_, holds.regular, request,
    fun i below => ?_⟩
  swap
  · rw [show contents _ = grown from rfl, byte i below]
    have inside : i < length.toNat := below
    simp only [SparseFile.truncate, if_pos inside]
    split
    · rfl
    · rw [file.zero_above i (by omega)]
  simp only [truncate, request, granted, if_true, area, old, Option.bind_eq_bind, Option.bind_some, copy, cleared]

/-- Bytes that are written within the file. -/
theorem patch_holds (holds : Holds inode file) (pos : Nat) (buffer : List Byte)
    (inside : pos + buffer.length ≤ file.size) :
    ∃ written, patch (contents inode) pos buffer = some written ∧
      Holds { inode with fileData := inode.fileData.map fun _ => written } (file.write pos buffer) := by
  obtain ⟨written, stored⟩ := patch_of_inside (contents inode) pos buffer (inside.trans holds.size_le)
  have same : (file.write pos buffer).size = file.size := by
    simp only [SparseFile.write]
    split
    · rfl
    · omega
  refine ⟨written, stored, holds.regular, holds.size.trans same.symm, fun i below => ?_⟩
  rw [same] at below
  have present := holds.bytes i below
  have behind : contents { inode with fileData := inode.fileData.map fun _ => written } = written := by
    cases block : inode.fileData with
    | none => simp [contents, block] at present
    | some bytes => rfl
  rw [behind, getElem?_of_patch stored, present]
  simp only [SparseFile.write]
  split
  · rename_i within
    rw [List.getD_eq_getElem?_getD, List.getElem?_eq_getElem (by omega), Option.getD_some]
  · rfl

/-- A write behind the end first makes the file longer. -/
theorem write_after_truncate {pos : Nat} {buffer : List Byte} (nonempty : buffer ≠ [])
    (beyond : file.size < pos + buffer.length) :
    (file.truncate (pos + buffer.length)).write pos buffer = file.write pos buffer := by
  refine SparseFile.ext ?_ (funext fun i => ?_)
  · simp only [SparseFile.write, SparseFile.truncate, if_neg nonempty]
    omega
  · simp only [SparseFile.write, SparseFile.truncate]
    by_cases within : pos ≤ i ∧ i < pos + buffer.length
    · rw [if_pos within, if_pos within]
    · rw [if_neg within, if_neg within]
      by_cases below : i < pos + buffer.length
      · rw [if_pos below]
      · rw [if_neg below, file.zero_above i (by omega)]

theorem write_careful (holds : Holds inode file) {pos : BitVec 64} {buffer : List Byte}
    (careful : Careful heap file (.write pos buffer)) :
    ∃ inode', write heap inode pos buffer = some ((buffer.length : Int), inode') ∧ Holds inode' (file.write pos.toNat buffer) := by
  obtain ⟨small, below, nothing, granted⟩ := careful
  have posBound : (pos.setWidth 32).toNat = pos.toNat := by
    simp
    omega
  have length : (BitVec.ofNat 32 buffer.length).toNat = buffer.length := by
    simp
    omega
  have result : (BitVec.ofNat 32 buffer.length).toInt = buffer.length := by
    rw [BitVec.toInt_eq_toNat_of_lt (by omega), length]
  have stop : ((BitVec.ofNat 32 buffer.length).setWidth 64 + pos).toNat = pos.toNat + buffer.length := by
    rw [BitVec.toNat_add, toNat_setWidth_word, length]
    omega
  by_cases beyond : file.size < pos.toNat + buffer.length
  · have nonempty : buffer ≠ [] := by
      rintro rfl
      have before := nothing rfl
      simp at beyond
      omega
    have longer : Careful heap file (.truncate ((BitVec.ofNat 32 buffer.length).setWidth 64 + pos)) := by
      refine ⟨?_, ?_, ?_⟩ <;> rw [stop]
      · omega
      · exact below
      · exact granted beyond
    obtain ⟨grown, truncated, holdsGrown⟩ := truncate_careful holds longer
    rw [stop] at holdsGrown
    obtain ⟨written, stored, after⟩ := patch_holds holdsGrown pos.toNat buffer le_rfl
    rw [write_after_truncate nonempty beyond] at after
    refine ⟨_, ?_, after⟩
    have grows : inode.size.setWidth 64 < (BitVec.ofNat 32 buffer.length).setWidth 64 + pos := by
      rw [BitVec.lt_def, toNat_setWidth_word, holds.size, stop]
      exact beyond
    simp only [write, holds.regular, Bool.false_eq_true, if_false, grows, if_true, truncated, Option.bind_eq_bind,
      Option.bind_some, lt_irrefl, posBound, stored, result]
  · obtain ⟨written, stored, after⟩ := patch_holds holds pos.toNat buffer (by omega)
    refine ⟨_, ?_, after⟩
    have stays : ¬inode.size.setWidth 64 < (BitVec.ofNat 32 buffer.length).setWidth 64 + pos := by
      rw [BitVec.lt_def, toNat_setWidth_word, holds.size, stop]
      exact beyond
    simp only [write, holds.regular, Bool.false_eq_true, if_false, stays, Option.bind_eq_bind, Option.bind_some,
      lt_irrefl, posBound, stored, result]

/-- A careful call does what it should. -/
theorem perform_careful (holds : Holds inode file) {call : FileCall} (careful : Careful heap file call) :
    ∃ inode', perform heap inode call = some ((file.perform call).1, inode') ∧ Holds inode' (file.perform call).2 := by
  cases call with
  | read pos bufsize => exact ⟨inode, read_careful holds careful, holds⟩
  | write pos buffer =>
    obtain ⟨inode', written, after⟩ := write_careful holds careful
    exact ⟨inode', by simp only [perform, written, Option.map_some, SparseFile.perform], after⟩
  | truncate length =>
    obtain ⟨inode', truncated, after⟩ := truncate_careful holds careful
    exact ⟨inode', by simp only [perform, truncated, Option.map_some, SparseFile.perform], after⟩

/-- A careful run does what it should. -/
theorem run_careful (holds : Holds inode file) {calls : List (PageHeap × FileCall)} (careful : CarefulRun file calls) :
    ∃ inode', run inode calls = some ((file.run (calls.map Prod.snd)).1, inode') ∧
      Holds inode' (file.run (calls.map Prod.snd)).2 := by
  induction calls generalizing inode file with
  | nil => exact ⟨inode, rfl, holds⟩
  | cons first rest ih =>
    obtain ⟨heap, call⟩ := first
    obtain ⟨now, later⟩ := careful
    obtain ⟨between, performed, holdsBetween⟩ := perform_careful holds now
    obtain ⟨inode', ran, after⟩ := ih holdsBetween later
    refine ⟨inode', ?_, after⟩
    simp only [run, performed, ran, Option.bind_eq_bind, Option.bind_some, List.map_cons, SparseFile.run]

end Calls

/-- Whatever mode it is asked for, `creat` makes no directory. -/
theorem isDirectory_newFile (mode : Word) (block : Option (List Byte)) : isDirectory (newFile mode block) = false := by
  unfold isDirectory VFS.sIsdir
  rw [decide_eq_false_iff_not]
  intro directory
  have bit := congrArg (fun w : Word => w.getLsbD 15) directory
  revert bit
  simp [newFile, VFS.sIfreg, VFS.sIfmt, VFS.sIfdir]

theorem newFile_holds (mode : Word) (block : Option (List Byte)) : Holds (newFile mode block) SparseFile.empty where
  regular := isDirectory_newFile mode block
  size := rfl
  bytes i below := absurd below (Nat.not_lt_zero i)

theorem inode_creat {inodes : TmpInodes} {directory : Nat} (known : directory < inodes.length) (name : List Char)
    (mode : Word) (block : Option (List Byte)) :
    inode (creat inodes directory name mode block).1 inodes.length = some (newFile mode block) := by
  simp [creat, creatInode, setInode, inode, ListWithHoles.entry, known.ne, newFile]

/-- From the file that `creat` makes, any sequence of careful calls returns what it should, and
reads and writes within `FileData` only. -/
theorem careful_file_runs_match (inodes : TmpInodes) (directory : Nat) (name : List Char) (mode : Word)
    (block : Option (List Byte)) (calls : List (PageHeap × FileCall)) (known : directory < inodes.length)
    (careful : CarefulRun SparseFile.empty calls) :
    ∃ file inode', inode (creat inodes directory name mode block).1 inodes.length = some file ∧
      run file calls = some ((SparseFile.empty.run (calls.map Prod.snd)).1, inode') ∧
      Holds inode' (SparseFile.empty.run (calls.map Prod.snd)).2 := by
  obtain ⟨inode', ran, after⟩ := run_careful (newFile_holds mode block) careful
  exact ⟨_, inode', inode_creat known name mode block, ran, after⟩

/-- A heap that grants everything, with ones in it. -/
def usedHeap : PageHeap := ⟨fun _ => true, fun _ => 1#8, false⟩

theorem hole_reads_as_zeros :
    ∃ file inode', inode (creat mount 1 ['f'] 0#32 (some [1#8, 1#8, 1#8, 1#8])).1 2 = some file ∧
      run file [(usedHeap, .write 2#64 [7#8]), (usedHeap, .truncate 5#64), (usedHeap, .read 1#64 9#32)] =
        some ([(1, []), (0, []), (4, [0#8, 7#8, 0#8, 0#8])], inode') ∧ Holds inode'
          (SparseFile.empty.run [.write 2#64 [7#8], .truncate 5#64, .read 1#64 9#32]).2 :=
  careful_file_runs_match mount 1 ['f'] 0#32 _ [(usedHeap, .write 2#64 [7#8]), (usedHeap, .truncate 5#64),
    (usedHeap, .read 1#64 9#32)] (by decide) (by simp [CarefulRun, Careful, usedHeap, SparseFile.empty,
      SparseFile.perform, SparseFile.write, SparseFile.truncate])

/-- A read behind the end of the file asks for nearly `2 ^ 32` bytes, and the bytes of a file that
is made shorter do not fit the new block. -/
theorem file_calls_leave_block :
    (run (newFile 0#32 (some [0#8, 0#8, 0#8, 0#8])) [(usedHeap, .read 1#64 1#32)] = none ∧
      (SparseFile.empty.run [.read 1#64 1#32]).1 = [(0, [])]) ∧
    run (newFile 0#32 (some [0#8, 0#8, 0#8, 0#8])) [(usedHeap, .write 0#64 [7#8, 7#8]), (usedHeap, .truncate 1#64)] =
      none := by
  exact ⟨⟨rfl, rfl⟩, rfl⟩

end TmpFS
end FluxOS
