import FluxOS.DirectoryListing

/-! The directory streams of the C library over `getdents`: one call fills a buffer of 4096 bytes, and
`readdir_r` goes through its records. -/
namespace FluxOS
open Words UserMemoryOps OpenDirectory

/-- A stream: what `getdents` has written to `entries`, and the two counters. -/
structure DirectoryStream where
  entries : List Dirent
  pos : Int
  sizeInBytes : Int

namespace DirectoryStream

def sizeofDIR : Nat := 16
def entriesSize : Nat := 4096

/-- The macro `RETURN`, without `errno`. -/
def syscallReturn (result : Int) : Int := if 0 ≤ result then result else -1

/-- `fdopendir`. There is no result if the call does not return or writes behind the buffer. -/
def fdopendir (grants : Nat → Bool) (directory : OpenDirectory) (readFuel fuel : Nat) : Option (Option DirectoryStream) :=
  if grants sizeofDIR = false then some none
  else if grants entriesSize = false then some none
  else
    (directory.getdents readFuel fuel (BitVec.ofNat 32 entriesSize)).bind fun (result, entries) =>
      if sizeofDirent * entries.length ≤ entriesSize then some (some ⟨entries, 0, syscallReturn result⟩) else none

/-- The record that begins at an offset. -/
def recordAt : List Dirent → Int → Option Dirent
  | [], _ => none
  | entry :: entries, pos => if pos = 0 then some entry else recordAt entries (pos - sizeofDirent)

/-- `readdir_r`: the stream behind it, and what is copied, if it is not the end. There is no result where no record
begins. -/
def readdirR (stream : DirectoryStream) : Option (DirectoryStream × Option Dirent) :=
  if stream.pos < stream.sizeInBytes then
    (recordAt stream.entries stream.pos).map fun ent => ({ stream with pos := stream.pos + ent.dReclen }, some ent)
  else some (stream, none)

/-- What so many calls of `readdir_r` give. -/
def readdirs : Nat → DirectoryStream → Option (List (Option Dirent))
  | 0, _ => some []
  | calls + 1, stream => stream.readdirR.bind fun (stream, entry) => (readdirs calls stream).map (entry :: ·)

/-! ## What a directory holds -/

/-- All records of a directory: of its names, of the processes or the files of one, or of the places of its data
up to the first one that lies behind its size. -/
def Holds (readFuel : Nat) (dirents : List Dirent) : OpenDirectory → Prop
  | tmpfs inode | devfs inode => TmpFS.isDirectory inode = true ∧
      dirents = inode.directory.nodes.map fun entry => TmpFS.nameDirent entry.1
  | procfs pids node => ∃ result, ProcFS.getdents pids node (BitVec.ofNat 32 entriesSize) = some (result, dirents)
  | ext2 disk heap privdata inode request => VFS.sIsdir (inode.iMode.setWidth 32) = true ∧ heap.grants request = true ∧
      ∃ dir places, Ext2.directoryData disk heap privdata readFuel inode request = some dir ∧
        0 < places ∧ inode.iSize ≤ recordOffset dir places ∧
        (∀ i, 0 < i → i < places → recordOffset dir i < inode.iSize) ∧ dirents = entryDirents dir places

/-- There is a first name to read, where names are read without asking. -/
def Filled : OpenDirectory → Prop
  | tmpfs inode | devfs inode => inode.directory.nodes ≠ []
  | procfs _ _ | ext2 _ _ _ _ _ => True

/-- The records that one call of `getdents` has room for. -/
def room : Nat := 15

/-! ## Reading the records -/

theorem recordAt_eq (entries : List Dirent) (place : Nat) :
    recordAt entries (sizeofDirent * place : Nat) = entries[place]? := by
  induction entries generalizing place with
  | nil => rfl
  | cons entry entries ih =>
    rw [recordAt]
    cases place with
    | zero => rfl
    | succ place =>
      have behind : ((sizeofDirent * (place + 1) : Nat) : Int) - sizeofDirent = (sizeofDirent * place : Nat) := by
        rw [Nat.mul_succ]
        omega
      have positive : ((sizeofDirent * (place + 1) : Nat) : Int) ≠ 0 := by
        unfold sizeofDirent
        omega
      rw [if_neg positive, behind, ih, List.getElem?_cons_succ]

/-- A stream that has come to a place, of records that are all of one size. -/
structure At (entries : List Dirent) (place : Nat) (stream : DirectoryStream) : Prop where
  holds : stream.entries = entries
  reclen : ∀ entry ∈ entries, entry.dReclen = sizeofDirent
  offset : stream.pos = (sizeofDirent * place : Nat)
  size : stream.sizeInBytes = (sizeofDirent * entries.length : Nat)

/-- One call gives the record of the place and goes to the next, or gives none and stays. -/
theorem At.readdirR {entries : List Dirent} {place : Nat} {stream : DirectoryStream} (here : At entries place stream) :
    ∃ next after, stream.readdirR = some (next, entries[place]?) ∧ At entries after next ∧
      (place < entries.length → after = place + 1) ∧ (entries.length ≤ place → after = place) := by
  have order : stream.pos < stream.sizeInBytes ↔ place < entries.length := by
    rw [here.offset, here.size]
    unfold sizeofDirent
    omega
  rw [DirectoryStream.readdirR]
  by_cases inside : place < entries.length
  · rw [if_pos (order.mpr inside), here.holds, here.offset, recordAt_eq, List.getElem?_eq_getElem inside]
    refine ⟨_, place + 1, rfl, ⟨rfl, here.reclen, ?_, here.size⟩, fun _ => rfl, fun behind => ?_⟩
    · rw [here.reclen _ (List.getElem_mem inside), Nat.mul_succ]
      exact (Int.natCast_add _ _).symm
    · exact absurd inside (Nat.not_lt_of_le behind)
  · rw [if_neg fun less => inside (order.mp less), List.getElem?_eq_none (Nat.le_of_not_lt inside)]
    exact ⟨_, place, rfl, here, fun less => absurd less inside, fun _ => rfl⟩

/-- Calls give one record after the other, and nothing from then on. -/
theorem At.readdirs {entries : List Dirent} {place : Nat} {stream : DirectoryStream} (here : At entries place stream)
    (calls : Nat) : stream.readdirs calls = some ((List.range' place calls).map fun i => entries[i]?) := by
  induction calls generalizing place stream with
  | zero => rfl
  | succ calls ih =>
    obtain ⟨next, after, given, there, goesOn, stays⟩ := here.readdirR
    rw [DirectoryStream.readdirs, given, Option.bind_some]
    dsimp only
    rw [ih there, List.range'_succ, List.map_cons, Option.map_some]
    rcases Nat.lt_or_ge place entries.length with inside | behind
    · rw [goesOn inside]
    · have nothing (first : Nat) (from_end : entries.length ≤ first) :
          (List.range' first calls).map (fun i => entries[i]?) = List.replicate calls none := by
        refine List.eq_replicate_iff.mpr ⟨by rw [List.length_map, List.length_range'], fun entry mem => ?_⟩
        obtain ⟨i, among, rfl⟩ := List.mem_map.mp mem
        exact List.getElem?_eq_none (Nat.le_trans from_end (List.mem_range'_1.mp among).1)
      rw [stays behind, nothing place behind, nothing (place + 1) (Nat.le_succ_of_le behind)]

/-! ## What one call of `getdents` gives -/

/-- What is listed of places that end behind the first `all` ones. -/
theorem listing_first {S : Type*} {emits : S → Option Dirent} {next : S → S} {more : S → Bool} {place : S} {all : Nat}
    (ended : more (next^[all] place) = false) (goesOn : ∀ i, 0 < i → i < all → more (next^[i] place) = true)
    (some_places : 0 < all) :
    (∃ fuel result, (RecordListing.list sizeofDirent emits next more (BitVec.ofNat 32 entriesSize) fuel place 0#32 []).map
        listed = some result) ∧
      ∀ fuel ret entries, (RecordListing.list sizeofDirent emits next more (BitVec.ofNat 32 entriesSize) fuel place 0#32
          []).map listed = some (ret, entries) →
        entries = (RecordListing.records emits next place all).take room ∧
          ret = (BitVec.ofNat 32 (sizeofDirent * entries.length)).toInt := by
  have holds (n : Nat) : (BitVec.ofNat 32 entriesSize).toNat ≤ sizeofDirent * (n + 1) ↔ room ≤ n := by
    have value : (BitVec.ofNat 32 entriesSize).toNat = 4096 := rfl
    rw [value]
    unfold sizeofDirent room
    omega
  constructor
  · obtain ⟨last, after, -, stops, first⟩ := RecordListing.exists_first_stop some_places (.inl ended)
    obtain ⟨fuel, run⟩ := (RecordListing.list_iff place _).mpr ⟨last, after, stops, first, rfl⟩
    exact ⟨fuel, _, congrArg (Option.map listed) run⟩
  · intro fuel ret entries run
    obtain ⟨result, run, same⟩ := Option.map_eq_some_iff.mp run
    obtain ⟨last, after, stops, first, rfl⟩ := (RecordListing.list_iff place result).mp ⟨fuel, run⟩
    cases same
    exact ⟨RecordListing.records_of_first_stop (by decide) (by decide) holds (by decide) ended goesOn some_places after
      stops first, rfl⟩

theorem records_names (names : List (List Char)) : RecordListing.records
    (fun names => names.head?.map TmpFS.nameDirent) List.tail names names.length = names.map TmpFS.nameDirent := by
  suffices ∀ places, RecordListing.records (fun names => names.head?.map TmpFS.nameDirent) List.tail names places =
      (names.take places).map TmpFS.nameDirent by rw [this, List.take_length]
  intro places
  induction places with
  | zero => rfl
  | succ places ih =>
    rw [RecordListing.records_succ, ih, iterate_tail, List.head?_drop, List.take_add_one, List.map_append]
    cases names[places]? with
    | none => rfl
    | some name => rfl

/-- The records of names: those that there is room for. -/
theorem tmpfs_getdents_spec {inode : TmpInode} (isDirectory : TmpFS.isDirectory inode = true)
    (some_names : inode.directory.nodes ≠ []) :
    (∃ fuel result, TmpFS.getdents fuel inode (BitVec.ofNat 32 entriesSize) = some result) ∧
      ∀ fuel ret entries, TmpFS.getdents fuel inode (BitVec.ofNat 32 entriesSize) = some (ret, entries) →
        entries = (inode.directory.nodes.map fun entry => TmpFS.nameDirent entry.1).take room ∧
          ret = (BitVec.ofNat 32 (sizeofDirent * entries.length)).toInt := by
  have unequal : inode.directory.nodes.map Prod.fst ≠ [] := fun none => some_names (List.map_eq_nil_iff.mp none)
  have more (places : Nat) : (!(List.tail^[places] (inode.directory.nodes.map Prod.fst)).isEmpty) =
      decide (places < (inode.directory.nodes.map Prod.fst).length) := by
    rw [iterate_tail, Bool.eq_iff_iff, Bool.not_eq_true', decide_eq_true_iff, ← Bool.not_eq_true,
      List.isEmpty_iff, List.drop_eq_nil_iff, Nat.not_le]
  obtain ⟨exists_run, runs⟩ := @listing_first _ (fun names => names.head?.map TmpFS.nameDirent) List.tail
    (fun names => !names.isEmpty) (inode.directory.nodes.map Prod.fst) (inode.directory.nodes.map Prod.fst).length
    ((more _).trans (decide_eq_false (Nat.lt_irrefl _))) (fun i _ before => (more i).trans (decide_eq_true before))
    (List.length_pos_iff.mpr unequal)
  rw [records_names, List.map_map] at runs
  simp only [TmpFS.getdents, if_pos isDirectory, if_neg unequal]
  exact ⟨exists_run, runs⟩

theorem ext2_getdents_spec {disk : Disk} {heap : DirtyHeap} {privdata : Ext2Privdata} {inode : Ext2Inode} {request : Nat}
    {readFuel places : Nat} {dir : Block} (isDirectory : VFS.sIsdir (inode.iMode.setWidth 32) = true)
    (granted : heap.grants request = true)
    (read : Ext2.directoryData disk heap privdata readFuel inode request = some dir) (some_places : 0 < places)
    (ended : inode.iSize ≤ recordOffset dir places)
    (before : ∀ i, 0 < i → i < places → recordOffset dir i < inode.iSize) :
    (∃ fuel result, Ext2.getDEnts disk heap privdata readFuel fuel inode request (BitVec.ofNat 32 entriesSize) =
        some result) ∧
      ∀ fuel ret entries, Ext2.getDEnts disk heap privdata readFuel fuel inode request (BitVec.ofNat 32 entriesSize) =
          some (ret, entries) →
        entries = (entryDirents dir places).take room ∧
          ret = (BitVec.ofNat 32 (sizeofDirent * entries.length)).toInt := by
  have goesOn (fuel : Nat) : Ext2.getDEnts disk heap privdata readFuel fuel inode request (BitVec.ofNat 32 entriesSize) =
      (Ext2.listEntries fuel dir inode.iSize (BitVec.ofNat 32 entriesSize)).map listed := by
    rw [Ext2.getDEnts, if_neg fun no => absurd (isDirectory.symm.trans no) (by decide),
      if_neg fun no => absurd (granted.symm.trans no) (by decide), read]
    rfl
  simp only [goesOn]
  exact listing_first (decide_eq_false (BitVec.not_lt.mpr ended))
    (fun i after earlier => decide_eq_true (before i after earlier)) some_places

/-- The call has a result: the first records, or all of them whatever the room is. -/
theorem getdents_spec {readFuel : Nat} {dirents : List Dirent} {directory : OpenDirectory}
    (holds : Holds readFuel dirents directory) (filled : Filled directory) :
    (∃ fuel result, directory.getdents readFuel fuel (BitVec.ofNat 32 entriesSize) = some result) ∧
      ∀ fuel ret entries, directory.getdents readFuel fuel (BitVec.ofNat 32 entriesSize) = some (ret, entries) →
        (entries = dirents.take room ∨ entries = dirents) ∧
          ret = (BitVec.ofNat 32 (sizeofDirent * entries.length)).toInt := by
  cases directory with
  | tmpfs inode | devfs inode =>
    obtain ⟨isDirectory, rfl⟩ := holds
    obtain ⟨exists_run, runs⟩ := tmpfs_getdents_spec isDirectory filled
    exact ⟨exists_run, fun fuel ret entries run => (runs fuel ret entries run).imp .inl id⟩
  | procfs pids node =>
    obtain ⟨result, returned⟩ := holds
    refine ⟨⟨0, _, returned⟩, fun fuel ret entries run => ?_⟩
    cases returned.symm.trans run
    obtain ⟨counted, listed⟩ := Prod.mk.inj (Option.some.inj returned)
    exact ⟨.inr rfl, by rw [← counted, listed]⟩
  | ext2 disk heap privdata inode request =>
    obtain ⟨isDirectory, granted, dir, places, read, some_places, ended, before, rfl⟩ := holds
    obtain ⟨exists_run, runs⟩ := ext2_getdents_spec isDirectory granted read some_places ended before
    exact ⟨exists_run, fun fuel ret entries run => (runs fuel ret entries run).imp .inl id⟩

/-- The first name of none is read through a null pointer. -/
theorem filled_of_getdents {readFuel fuel : Nat} {dirents : List Dirent} {directory : OpenDirectory} {count : Word}
    {result : Int × List Dirent} (holds : Holds readFuel dirents directory)
    (run : directory.getdents readFuel fuel count = some result) : Filled directory := by
  cases directory with
  | tmpfs inode | devfs inode =>
    obtain ⟨isDirectory, -⟩ := holds
    intro empty
    rw [OpenDirectory.getdents] at run
    simp only [DevFS.getdents, TmpFS.getdents, if_pos isDirectory, empty] at run
    cases run
  | procfs pids node => trivial
  | ext2 disk heap privdata inode request => trivial

theorem reclen_of_holds {readFuel : Nat} {dirents : List Dirent} {directory : OpenDirectory}
    (holds : Holds readFuel dirents directory) : ∀ entry ∈ dirents, entry.dReclen = sizeofDirent := by
  intro entry mem
  cases directory with
  | tmpfs inode | devfs inode =>
    obtain ⟨-, rfl⟩ := holds
    obtain ⟨name, -, rfl⟩ := List.mem_map.mp mem
    rfl
  | procfs pids node =>
    obtain ⟨result, returned⟩ := holds
    obtain ⟨-, rfl⟩ := Prod.mk.inj (Option.some.inj returned)
    split at mem
    · rcases List.mem_append.mp mem with dots | process
      · rcases List.mem_pair.mp dots with rfl | rfl
        · rfl
        · rfl
      · obtain ⟨pid, -, rfl⟩ := List.mem_map.mp process
        rfl
    · split at mem
      · rcases List.mem_append.mp mem with file | last
        · obtain ⟨name, -, rfl⟩ := List.mem_map.mp file
          rfl
        · cases List.mem_singleton.mp last
          rfl
      · cases mem
  | ext2 disk heap privdata inode request =>
    obtain ⟨-, -, dir, places, -, -, -, -, rfl⟩ := holds
    obtain ⟨i, -, written⟩ := List.mem_filterMap.mp mem
    obtain ⟨-, same⟩ := Option.ite_none_right_eq_some.mp written
    cases same
    rfl

/-! ## Streams -/

/-- A stream that is opened lies at the first of its records, and they lie in the buffer. -/
theorem at_of_fdopendir {grants : Nat → Bool} {readFuel fuel : Nat} {dirents : List Dirent} {directory : OpenDirectory}
    {stream : DirectoryStream} (holds : Holds readFuel dirents directory)
    (opened : fdopendir grants directory readFuel fuel = some (some stream)) :
    Filled directory ∧
      ∃ entries, (entries = dirents.take room ∨ entries = dirents) ∧ entries.length ≤ room ∧ At entries 0 stream := by
  rw [fdopendir] at opened
  split at opened
  · cases opened
  split at opened
  · cases opened
  obtain ⟨⟨ret, entries⟩, run, opened⟩ := Option.bind_eq_some_iff.mp opened
  dsimp only at opened
  split at opened
  · rename_i inside
    cases opened
    obtain ⟨which, bytes⟩ := (getdents_spec holds (filled_of_getdents holds run)).2 fuel ret entries run
    have few : entries.length ≤ room := by
      unfold sizeofDirent entriesSize at inside
      unfold room
      omega
    have signed : ret = (sizeofDirent * entries.length : Nat) := by
      rw [bytes, RecordListing.toInt_ofNat_iff]
      unfold room at few
      unfold sizeofDirent
      omega
    refine ⟨filled_of_getdents holds run, entries, which, few, rfl, fun entry mem => reclen_of_holds holds entry ?_, rfl, ?_⟩
    · rcases which with rfl | rfl
      · exact List.mem_of_mem_take mem
      · exact mem
    · dsimp only
      rw [syscallReturn, signed, if_pos (Int.natCast_nonneg _)]
  · cases opened

/-- **A directory stream** gives every record of its directory once, in order, and then nothing for ever, exactly if
there are no more than one call of `getdents` has room for, and a table of names has one. -/
theorem readdirs_all_iff {grants : Nat → Bool} {readFuel : Nat} {dirents : List Dirent} {directory : OpenDirectory}
    (holds : Holds readFuel dirents directory) (stream_granted : grants sizeofDIR = true)
    (entries_granted : grants entriesSize = true) :
    (∃ fuel stream, fdopendir grants directory readFuel fuel = some (some stream) ∧
        ∀ calls, stream.readdirs calls = some ((List.range calls).map fun i => dirents[i]?)) ↔
      dirents.length ≤ room ∧ Filled directory := by
  constructor
  · rintro ⟨fuel, stream, opened, all⟩
    obtain ⟨filled, entries, -, few, here⟩ := at_of_fdopendir holds opened
    refine ⟨?_, filled⟩
    have given := all (dirents.length + 1)
    rw [here.readdirs, List.range_eq_range'] at given
    have same (i : Nat) (inside : i < dirents.length + 1) : entries[i]? = dirents[i]? :=
      List.map_inj_left.mp (Option.some.inj given) i (List.mem_range'_1.mpr ⟨Nat.zero_le _, by omega⟩)
    by_contra many
    have missing := same entries.length (by omega)
    rw [List.getElem?_eq_none (Nat.le_refl _), List.getElem?_eq_getElem (by omega)] at missing
    cases missing
  · rintro ⟨few, filled⟩
    obtain ⟨⟨fuel, ⟨ret, entries⟩, run⟩, spec⟩ := getdents_spec holds filled
    obtain ⟨which, -⟩ := spec fuel ret entries run
    have whole : entries = dirents := which.elim (fun first => first.trans (List.take_of_length_le few)) id
    have inside : sizeofDirent * entries.length ≤ entriesSize := by
      rw [whole]
      unfold room at few
      unfold sizeofDirent entriesSize
      omega
    have opened : fdopendir grants directory readFuel fuel = some (some ⟨entries, 0, syscallReturn ret⟩) := by
      rw [fdopendir, if_neg fun no => absurd (stream_granted.symm.trans no) (by decide),
        if_neg fun no => absurd (entries_granted.symm.trans no) (by decide), run]
      exact if_pos inside
    obtain ⟨-, given, which', -, here⟩ := at_of_fdopendir holds opened
    have same : given = dirents := which'.elim (fun first => first.trans (List.take_of_length_le few)) id
    refine ⟨fuel, _, opened, fun calls => ?_⟩
    rw [here.readdirs, same, List.range_eq_range']

theorem newRoot_readdirs : ∃ fuel stream, fdopendir (fun _ => true) (tmpfs newRoot) 0 fuel = some (some stream) ∧
    ∀ calls, stream.readdirs calls = some ((List.range calls).map fun i =>
      ((newRoot.directory.nodes.map fun entry => TmpFS.nameDirent entry.1)[i]?)) :=
  (@readdirs_all_iff (fun _ => true) 0 _ (tmpfs newRoot) ⟨by decide, rfl⟩ rfl rfl).mpr
    ⟨by decide, List.cons_ne_nil _ _⟩

end DirectoryStream
end FluxOS
