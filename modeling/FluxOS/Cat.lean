import FluxOS.FileCalls

/-! `cat`: for each argument the file is opened, read and written one character at a time, and closed. -/
namespace FluxOS.Cat
open Words UserMemoryOps FilesInUse

section Program

variable {S : Type} (ops : FileOps S) (process : Nat)

/-- The loop on one file, with what `c` has: the characters that are given to `write`, what the last `read` returned,
and the files. There is no result where the fuel is not enough. -/
def copy (tfd : Int) : Nat → Byte → FilesInUse S → Option (List Byte × Int × FilesInUse S)
  | 0, _, _ => none
  | fuel + 1, c, s => do
    let (reply, s) ← s.step ops process (.read tfd 1#32)
    if 0 < reply.1 then
      let c := reply.2.headD c
      let (out, readRetVal, s) ← copy tfd fuel c s
      return (c :: out, readRetVal, s)
    else return ([], reply.1, s)

/-- The body of the loop on the arguments, for a path that leads to a node or to an error: what is written, what
`exitVal` is raised by, and the files. -/
def catFile (fuel : Nat) (c : Byte) (s : FilesInUse S) : Except Int VNode → Option (List Byte × Nat × FilesInUse S)
  | .error _ => some ([], 1, s)
  | .ok node => do
    let (opened, s) ← s.step ops process (.openNode node 0#32)
    let tfd := opened.1
    if tfd < 0 then return ([], 1, s)
    else
      let (out, readRetVal, s) ← copy ops process tfd fuel c s
      let (closed, s) ← s.step ops process (.close tfd)
      return (out, (if readRetVal < 0 then 1 else 0) + (if closed.1 < 0 then 1 else 0), s)

def catFiles (fuel : Nat) (c : Byte) : FilesInUse S → List (Except Int VNode) → Option (List Byte × Nat × FilesInUse S)
  | s, [] => some ([], 0, s)
  | s, argument :: rest => do
    let (out, failed, s) ← catFile ops process fuel c s argument
    let (outRest, failedRest, s) ← catFiles fuel c s rest
    return (out ++ outRest, failed + failedRest, s)

/-- `main`, with what the paths of the arguments lead to: what is written, the exit status, and the files. -/
def main (fuel : Nat) (c : Byte) (s : FilesInUse S) (arguments : List (Except Int VNode)) :
    Option (List Byte × Int × FilesInUse S) := do
  let (out, exitVal, s) ← catFiles ops process fuel c s arguments
  return (out, if 0 < exitVal then 1 else 0, s)

end Program

/-! ## What is written -/

/-- The bytes of the file that an argument leads to. -/
def contents (files : VNode → Option SparseFile) : Except Int VNode → List Byte
  | .error _ => []
  | .ok node => ((files node).map fun file => file.read 0 file.size).getD []

/-- The argument leads to a file. -/
def isFile (files : VNode → Option SparseFile) : Except Int VNode → Bool
  | .error _ => false
  | .ok node => (files node).isSome

/-- What `exitVal` should count. -/
def failures (files : VNode → Option SparseFile) (arguments : List (Except Int VNode)) : Nat :=
  arguments.countP fun argument => !isFile files argument

/-- What a path leads to on a tmpfs: a file that the fuel is enough for, or a directory. -/
def Leads (fuel : Nat) (s : FilesInUse TmpInodes) (files : VNode → Option SparseFile) (node : VNode) : Prop :=
  (∃ file, files node = some file ∧ file.size < fuel) ∨
    0 < fuel ∧ ∃ found, TmpFS.inode s.fs node = some found ∧ TmpFS.isDirectory found = true

theorem read_end (file : SparseFile) (count : Nat) : file.read file.size count = [] := by
  rw [SparseFile.read, Nat.sub_self, Nat.min_zero]
  rfl

theorem read_one {file : SparseFile} {pos : Nat} (inside : pos < file.size) : file.read pos 1 = [file.byteAt pos] := by
  rw [SparseFile.read, show min 1 (file.size - pos) = 1 by omega]
  rfl

theorem read_cons {file : SparseFile} {pos : Nat} (inside : pos < file.size) :
    file.read pos (file.size - pos) = file.byteAt pos :: file.read (pos + 1) (file.size - (pos + 1)) := by
  have more : file.size - pos = file.size - (pos + 1) + 1 := by omega
  rw [SparseFile.read, SparseFile.read, Nat.min_self, Nat.min_self, more, List.range_succ_eq_map, List.map_cons,
    List.map_map]
  refine congrArg _ (List.map_congr_left fun i _ => ?_)
  rw [Function.comp_apply, Nat.succ_eq_add_one, Nat.add_right_comm, Nat.add_assoc]

theorem descriptor_advance {files : OpenFiles} {fd : Int} {fdesc : FileDescriptor} {ret : Int}
    (found : FSUAPI.descriptor files fd = some fdesc) (positive : 0 < ret) :
    FSUAPI.descriptor (FSUAPI.advance files fd fdesc ret) fd =
      some { fdesc with fpos := fdesc.fpos + BitVec.ofInt 64 ret } := by
  rw [FSUAPI.advance, if_pos positive]
  unfold FSUAPI.descriptor at found ⊢
  split at found
  · rename_i bounds
    have within : fd.toNat < files.length := by omega
    rw [List.length_set, if_pos bounds, ListWithHoles.entry, List.getElem?_set_self within, Option.join_some]
  · cases found

section Kept

variable {S : Type} {ops : FileOps S} {process : Nat}

/-- Reading leaves the file system as it is. -/
theorem copy_fs {tfd : Int} {fuel : Nat} {c : Byte} {s s' : FilesInUse S} {out : List Byte} {readRetVal : Int}
    (ran : copy ops process tfd fuel c s = some (out, readRetVal, s')) : s'.fs = s.fs := by
  induction fuel generalizing c s out with
  | zero => cases ran
  | succ fuel ih =>
    obtain ⟨⟨reply, s₁⟩, stepped, rest⟩ := Option.bind_eq_some_iff.mp ran
    have kept : s₁.fs = s.fs := by
      obtain ⟨_, _, same⟩ := Option.bind_eq_some_iff.mp stepped
      cases same
      rfl
    dsimp only at rest
    split at rest
    · obtain ⟨⟨_, _, last⟩, copied, same⟩ := Option.bind_eq_some_iff.mp rest
      cases same
      exact (ih copied).trans kept
    · cases rest
      exact kept

theorem catFile_fs {fuel : Nat} {c : Byte} {s s' : FilesInUse S} {argument : Except Int VNode} {out : List Byte}
    {failed : Nat} (ran : catFile ops process fuel c s argument = some (out, failed, s')) : s'.fs = s.fs := by
  cases argument with
  | error code =>
    cases ran
    rfl
  | ok node =>
    rw [catFile] at ran
    simp only [FilesInUse.step, Option.bind_eq_bind, Option.bind_some, Option.pure_def] at ran
    split at ran
    · cases ran
      rfl
    · obtain ⟨⟨_, _, s₁⟩, copied, same⟩ := Option.bind_eq_some_iff.mp ran
      cases same
      have kept := copy_fs copied
      exact kept

end Kept

section Runs

variable {s : FilesInUse TmpInodes} {a : FilesInUse (VNode → Option SparseFile)} {heap : PageHeap} {process : Nat}

/-- A `read` with a descriptor that is open for reading. -/
theorem step_read {tfd : Int} {fdesc : FileDescriptor} {file : SparseFile} (opened : a.Opened process tfd fdesc file)
    (readable : fdesc.flags &&& FSUAPI.oAccmode ≠ FSUAPI.oWronly) (count : Word) :
    a.step SparseFile.fileOps process (.read tfd count) =
      some ((file.perform (.read fdesc.fpos count)).1, a.setTable process
        (FSUAPI.advance (a.tables process) tfd fdesc (file.read fdesc.fpos.toNat count.toNat).length)) := by
  simp only [FilesInUse.step, FSUAPI.read, opened.1, if_neg readable, SparseFile.fileOps_read opened.2,
    Option.bind_eq_bind, Option.bind_some, Option.pure_def]
  rfl

/-- The rest of the file is written, and the last `read` returns zero. -/
theorem copy_eq {tfd : Int} (fuel : Nat) {fdesc : FileDescriptor} {file : SparseFile} (same : Matches s a)
    (opened : a.Opened process tfd fdesc file) (readable : fdesc.flags &&& FSUAPI.oAccmode ≠ FSUAPI.oWronly)
    (enough : file.size - fdesc.fpos.toNat < fuel) (c : Byte) :
    ∃ s' a', copy (TmpFS.fileOps heap) process tfd fuel c s =
        some (file.read fdesc.fpos.toNat (file.size - fdesc.fpos.toNat), 0, s') ∧
      Matches s' a' ∧ a'.fs = a.fs ∧ ∃ last, FSUAPI.descriptor (a'.tables process) tfd = some last := by
  induction fuel generalizing s a fdesc c with
  | zero => exact absurd enough (Nat.not_lt_zero _)
  | succ fuel ih =>
    obtain ⟨file', opened', within, small⟩ := same.opened opened.1
    obtain rfl : file = file' := Option.some.inj (opened.2.symm.trans opened'.2)
    have careful : Careful heap a process (.read tfd 1#32) := fun _ _ _ =>
      Nat.lt_of_le_of_lt (Nat.min_le_left _ _) (by decide)
    obtain ⟨reply, s₁, a₁, done, should, same₁⟩ := same.read tfd 1#32 careful
    rw [step_read opened readable, Option.some.injEq, Prod.mk.injEq] at should
    obtain ⟨rfl, rfl⟩ := should
    rcases Nat.lt_or_eq_of_le within with before | atEnd
    · have one : file.read fdesc.fpos.toNat (1#32).toNat = [file.byteAt fdesc.fpos.toNat] := read_one before
      have moved := descriptor_advance opened.1 (show 0 < ((1 : Nat) : Int) by decide)
      have position : (fdesc.fpos + BitVec.ofInt 64 ((1 : Nat) : Int)).toNat = fdesc.fpos.toNat + 1 :=
        toNat_moved (by omega)
      simp only [SparseFile.perform, one, List.length_singleton] at done same₁
      have openedNext : (a.setTable process (FSUAPI.advance (a.tables process) tfd fdesc ((1 : Nat) : Int))).Opened process
          tfd { fdesc with fpos := fdesc.fpos + BitVec.ofInt 64 ((1 : Nat) : Int) } file := by
        refine ⟨?_, opened.2⟩
        rw [tables_setTable_self, moved]
      obtain ⟨s', a', copied, same', files, last⟩ := ih same₁ openedNext readable
        (by rw [position]; omega) (file.byteAt fdesc.fpos.toNat)
      refine ⟨s', a', ?_, same', files, last⟩
      rw [position] at copied
      rw [copy, done, read_cons before]
      simp only [Option.bind_eq_bind, Option.bind_some, List.headD_cons, copied, Option.pure_def]
      rfl
    · have none : file.read fdesc.fpos.toNat (1#32).toNat = [] := by rw [atEnd, read_end]
      simp only [SparseFile.perform, none, List.length_nil] at done same₁
      refine ⟨s₁, _, ?_, same₁, rfl, fdesc, ?_⟩
      · rw [copy, done, atEnd, read_end]
        rfl
      · rw [tables_setTable_self]
        exact opened.1

/-- Opening a file gives a descriptor at its beginning. -/
theorem open_eq (same : Matches s a) {node : VNode} {file : SparseFile} (held : a.fs node = some file) (flags : Word) :
    ∃ (fd : Nat) (s' : FilesInUse TmpInodes) (a' : FilesInUse (VNode → Option SparseFile)),
      s.step (TmpFS.fileOps heap) process (.openNode node flags) = some (((fd : Int), []), s') ∧ Matches s' a' ∧
      a'.fs = a.fs ∧ a'.Opened process fd ⟨node, 0, flags⟩ file := by
  obtain ⟨reply, s', a', done, should, same'⟩ :=
    @Matches.step s a heap process same (.openNode node flags) ⟨file, held⟩
  cases should
  refine ⟨_, s', _, done, same', rfl, ?_, held⟩
  rw [tables_setTable_self, FSUAPI.descriptor_eq_entry]
  exact ListWithHoles.entry_add _ _

theorem close_eq (same : Matches s a) {tfd : Int} {fdesc : FileDescriptor}
    (found : FSUAPI.descriptor (a.tables process) tfd = some fdesc) :
    ∃ s' a', s.step (TmpFS.fileOps heap) process (.close tfd) = some ((0, []), s') ∧ Matches s' a' ∧ a'.fs = a.fs := by
  obtain ⟨reply, s', a', done, should, same'⟩ := @Matches.step s a heap process same (.close tfd) trivial
  simp only [FilesInUse.step, FSUAPI.closePB, found, Option.some.injEq, Prod.mk.injEq] at should
  obtain ⟨rfl, rfl⟩ := should
  exact ⟨s', _, done, same', rfl⟩

/-- A file is written, and closed. -/
theorem catFile_file (same : Matches s a) (fuel : Nat) (c : Byte) {node : VNode} {file : SparseFile}
    (held : a.fs node = some file) (enough : file.size < fuel) :
    ∃ s' a', catFile (TmpFS.fileOps heap) process fuel c s (.ok node) = some (contents a.fs (.ok node), 0, s') ∧
      Matches s' a' ∧ a'.fs = a.fs := by
  obtain ⟨fd, s₁, a₁, opens, same₁, files₁, opened⟩ := @open_eq _ _ heap process same _ _ held 0#32
  have readable : 0#32 &&& FSUAPI.oAccmode ≠ FSUAPI.oWronly := by decide
  obtain ⟨s₂, a₂, copied, same₂, files₂, last, found⟩ := @copy_eq s₁ a₁ heap process fd fuel ⟨node, 0, 0#32⟩ file
    same₁ opened readable (Nat.lt_of_le_of_lt (Nat.sub_le _ _) enough) c
  obtain ⟨s', a', closes, same', files'⟩ := @close_eq _ _ heap process same₂ _ _ found
  refine ⟨s', a', ?_, same', files'.trans (files₂.trans files₁)⟩
  have start : (0 : BitVec 64).toNat = 0 := rfl
  rw [start, Nat.sub_zero] at copied
  simp only [catFile, opens, copied, closes, contents, held, Option.bind_eq_bind, Option.bind_some, Option.pure_def,
    Option.map_some, Option.getD_some, Int.lt_irrefl, if_false, if_neg (Int.not_lt.mpr (Int.natCast_nonneg fd))]

theorem setTable_setTable (files files' : OpenFiles) :
    (s.setTable process files).setTable process files' = s.setTable process files' := by
  simp only [FilesInUse.setTable, Function.update_idem]

/-- The table with a directory opened, and closed again. -/
theorem closed_inside {files : OpenFiles} {property : VNode → BitVec 64 → Prop} (inside : files.All property)
    (value : FileDescriptor) :
    OpenFiles.All property (ListWithHoles.remove (ListWithHoles.add files value).1 (ListWithHoles.add files value).2) := by
  unfold ListWithHoles.add ListWithHoles.remove
  split
  · rw [List.set_set]
    exact inside.set _ fun _ none => by cases none
  · intro fdesc member
    rw [List.set_append_right _ _ (Nat.le_refl _), Nat.sub_self, List.set_cons_zero] at member
    rcases List.mem_append.mp member with old | hole
    · exact inside fdesc old
    · cases List.mem_singleton.mp hole

/-- A directory is opened, not read, and closed. -/
theorem catFile_directory (same : Matches s a) (fuel : Nat) (c : Byte) {node : VNode} {found : TmpInode}
    (here : TmpFS.inode s.fs node = some found) (directory : TmpFS.isDirectory found = true) :
    ∃ s' a', catFile (TmpFS.fileOps heap) process (fuel + 1) c s (.ok node) = some ([], 1, s') ∧ Matches s' a' ∧
      a'.fs = a.fs := by
  have refused : (TmpFS.fileOps heap).read s.fs node 0 1#32 = some (-(eisdir : Int), []) := by
    simp only [TmpFS.fileOps, here, Option.bind_some, TmpFS.read, directory, if_true]
  obtain ⟨files, fd, opens, entry, closed⟩ : ∃ files fd,
      FSUAPI.openNode (s.tables process) node 0#32 = (files, ((fd : Nat) : Int)) ∧
        FSUAPI.descriptor files fd = some ⟨node, 0, 0#32⟩ ∧ OpenFiles.All (InFile a.fs) (ListWithHoles.remove files fd) := by
    refine ⟨_, _, rfl, ?_, ?_⟩
    · rw [FSUAPI.descriptor_eq_entry]
      exact ListWithHoles.entry_add _ _
    · rw [same.tables]
      exact closed_inside (same.inside process) _
  have readable : 0#32 &&& FSUAPI.oAccmode ≠ FSUAPI.oWronly := by decide
  have unmoved : ¬ 0 < -(eisdir : Int) := by decide
  have reads : FSUAPI.read (TmpFS.fileOps heap) s.fs files fd 1#32 = some ((-(eisdir : Int), []), files) := by
    simp only [FSUAPI.read, entry, if_neg readable, refused, Option.bind_eq_bind, Option.bind_some, Option.pure_def,
      FSUAPI.advance, if_neg unmoved]
  have closes : FSUAPI.closePB files fd = (ListWithHoles.remove files fd, 0) := by
    rw [FSUAPI.closePB, entry, Int.toNat_natCast]
  refine ⟨s.setTable process (ListWithHoles.remove files fd), a.setTable process (ListWithHoles.remove files fd), ?_,
    same.setTable closed, rfl⟩
  have negative : -(eisdir : Int) < 0 := by decide
  have fs (files : OpenFiles) : (s.setTable process files).fs = s.fs := rfl
  simp only [catFile, copy, FilesInUse.step, opens, reads, closes, if_neg unmoved, if_pos negative, Option.bind_eq_bind,
    Option.bind_some, Option.pure_def, tables_setTable_self, setTable_setTable, fs,
    if_neg (Int.not_lt.mpr (Int.natCast_nonneg fd)), Int.lt_irrefl, if_false]

theorem failures_cons (files : VNode → Option SparseFile) (argument : Except Int VNode) (rest : List (Except Int VNode)) :
    failures files (argument :: rest) = (if isFile files argument then 0 else 1) + failures files rest := by
  rw [failures, List.countP_cons, failures, Nat.add_comm]
  cases isFile files argument <;> rfl

/-- No file is a directory. -/
theorem not_file (same : Matches s a) {node : VNode} {found : TmpInode} (here : TmpFS.inode s.fs node = some found)
    (directory : TmpFS.isDirectory found = true) : a.fs node = none := by
  by_contra held
  obtain ⟨file, held⟩ := Option.ne_none_iff_exists'.mp held
  obtain ⟨inode, here', holds⟩ := same.files node file held
  obtain rfl : found = inode := Option.some.inj (here.symm.trans here')
  exact Bool.false_ne_true (holds.regular.symm.trans directory)

theorem catFile_eq (same : Matches s a) (fuel : Nat) (c : Byte) (argument : Except Int VNode)
    (leads : ∀ node, argument = .ok node → Leads fuel s a.fs node) :
    ∃ s' a', catFile (TmpFS.fileOps heap) process fuel c s argument =
        some (contents a.fs argument, if isFile a.fs argument then 0 else 1, s') ∧ Matches s' a' ∧ a'.fs = a.fs := by
  cases argument with
  | error code => exact ⟨s, a, rfl, same, rfl⟩
  | ok node =>
    rcases leads node rfl with ⟨file, held, enough⟩ | ⟨positive, found, here, directory⟩
    · obtain ⟨s', a', ran, same', kept⟩ := @catFile_file _ _ heap process same fuel c _ _ held enough
      rw [isFile, held]
      exact ⟨s', a', ran, same', kept⟩
    · obtain ⟨fuel, rfl⟩ := Nat.exists_eq_succ_of_ne_zero positive.ne'
      obtain ⟨s', a', ran, same', kept⟩ := @catFile_directory _ _ heap process same fuel c _ _ here directory
      rw [contents, isFile, not_file same here directory]
      exact ⟨s', a', ran, same', kept⟩

theorem catFiles_eq (fuel : Nat) (c : Byte) (arguments : List (Except Int VNode)) (same : Matches s a)
    (leads : ∀ node, .ok node ∈ arguments → Leads fuel s a.fs node) :
    ∃ s' a', catFiles (TmpFS.fileOps heap) process fuel c s arguments =
        some (arguments.flatMap (contents a.fs), failures a.fs arguments, s') ∧ Matches s' a' ∧ a'.fs = a.fs := by
  induction arguments generalizing s a with
  | nil => exact ⟨s, a, rfl, same, rfl⟩
  | cons argument rest ih =>
    obtain ⟨s₁, a₁, first, same₁, files₁⟩ := @catFile_eq _ _ heap process same fuel c argument
      fun node argument => leads node (argument ▸ List.mem_cons_self)
    obtain ⟨s', a', others, same', files'⟩ := ih same₁ fun node member => by
      rw [Leads, catFile_fs first, files₁]
      exact leads node (List.mem_cons_of_mem _ member)
    refine ⟨s', a', ?_, same', files'.trans files₁⟩
    rw [files₁] at others
    simp only [catFiles, first, others, failures_cons, List.flatMap_cons, Option.bind_eq_bind, Option.bind_some,
      Option.pure_def]

theorem failures_eq_zero_iff (files : VNode → Option SparseFile) (arguments : List (Except Int VNode)) :
    failures files arguments = 0 ↔ ∀ argument ∈ arguments, ∃ node file, argument = .ok node ∧ files node = some file := by
  rw [failures, List.countP_eq_zero]
  refine forall₂_congr fun argument _ => ?_
  cases argument with
  | error code => simp [isFile]
  | ok node =>
    rw [isFile, Bool.not_eq_true', Bool.not_eq_false, Option.isSome_iff_exists]
    exact ⟨fun ⟨file, held⟩ => ⟨node, file, rfl, held⟩, fun ⟨_, file, same, held⟩ => ⟨file, Except.ok.inj same ▸ held⟩⟩

/-- **`cat`** writes the bytes of the files that its arguments lead to, one file behind the other, and exits with zero
if and only if every argument leads to a file, and none to a directory or nowhere. The files stay as they are. -/
theorem cat_writes_files (fuel : Nat) (c : Byte) (arguments : List (Except Int VNode)) (same : Matches s a)
    (leads : ∀ node, .ok node ∈ arguments → Leads fuel s a.fs node) :
    ∃ status s' a', main (TmpFS.fileOps heap) process fuel c s arguments =
        some (arguments.flatMap (contents a.fs), status, s') ∧ Matches s' a' ∧ a'.fs = a.fs ∧
      (status = 0 ↔ ∀ argument ∈ arguments, ∃ node file, argument = .ok node ∧ a.fs node = some file) := by
  obtain ⟨s', a', ran, same', files'⟩ := @catFiles_eq s a heap process fuel c arguments same leads
  refine ⟨if 0 < failures a.fs arguments then 1 else 0, s', a', ?_, same', files', ?_⟩
  · simp only [main, ran, Option.bind_eq_bind, Option.bind_some, Option.pure_def]
  · rw [← failures_eq_zero_iff]
    by_cases failed : 0 < failures a.fs arguments
    · rw [if_pos failed]
      exact iff_of_false (by decide) failed.ne'
    · rw [if_neg failed]
      exact iff_of_true rfl (Nat.eq_zero_of_not_pos failed)

end Runs

/-- A mount whose one file has two bytes. -/
def twoByteFile : FilesInUse TmpInodes :=
  ⟨fun _ => [], TmpFS.mount ++ [some ⟨VFS.sIfreg.setWidth 16, 2#32, some [7#8, 8#8], TmpFS.newDirectory⟩]⟩

def twoBytes : FilesInUse (VNode → Option SparseFile) :=
  ⟨fun _ => [], Function.update (fun _ => none) 2 (some (SparseFile.empty.write 0 [7#8, 8#8]))⟩

theorem matches_twoBytes : Matches twoByteFile twoBytes where
  tables := rfl
  files node file held := by
    by_cases same : node = 2
    · rw [same] at held ⊢
      cases held
      refine ⟨_, rfl, by decide, rfl, fun i below => ?_⟩
      have inside : i < 2 := below
      obtain rfl | rfl : i = 0 ∨ i = 1 := by omega
      · rfl
      · rfl
    · rw [twoBytes] at held
      dsimp only at held
      rw [Function.update_of_ne same] at held
      cases held
  inside _ _ member := by cases member

/-- The file is given twice, and between a path that leads nowhere and the root. -/
theorem twoBytes_written : ∃ status s' a', main (TmpFS.fileOps TmpFS.usedHeap) 1 3 0#8 twoByteFile
      [.ok 2, .error (-2), .ok 1, .ok 2] = some ([7#8, 8#8, 7#8, 8#8], status, s') ∧ Matches s' a' ∧ a'.fs = twoBytes.fs ∧
    (status = 0 ↔ ∀ argument ∈ ([.ok 2, .error (-2), .ok 1, .ok 2] : List (Except Int VNode)),
      ∃ node file, argument = .ok node ∧ twoBytes.fs node = some file) := by
  refine cat_writes_files 3 0#8 _ matches_twoBytes fun node member => ?_
  have leads : node = 2 ∨ node = 1 ∨ node = 2 := by simpa using member
  rcases leads with rfl | rfl | rfl
  · exact .inl ⟨_, rfl, by decide⟩
  · exact .inr ⟨by decide, _, rfl, rfl⟩
  · exact .inl ⟨_, rfl, by decide⟩

end FluxOS.Cat
