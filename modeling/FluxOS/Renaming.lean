import FluxOS.DirectoryUpdates

/-! `Rename` within a directory: what a record is that has another name, and when the directory has the new name in
place of the old one. -/
namespace FluxOS.Ext2
open Words UserMemoryOps BlockDevice NetUtils

/-! ## Strings -/

section Strings

variable {name : Block} {text : List Byte}

theorem CString.nonzero (string : CString name text) {i : Nat} (inside : i < text.length) : name i ≠ 0#8 := by
  rw [string.bytes i inside]
  exact fun zero => string.text (zero ▸ List.getElem_mem inside)

/-- `strlen` of a name that memory can hold. -/
theorem CString.strlen_iff (string : CString name text) {length : Nat} :
    strlen (fun address => name address.toNat) 0#32 = some length ↔ length = text.length ∧ length < 2 ^ 32 := by
  have place {i : Nat} (bound : i < 2 ^ 32) : (0#32 + BitVec.ofNat 32 i).toNat = i := by
    rw [BitVec.zero_add, BitVec.toNat_ofNat, Nat.mod_eq_of_lt bound]
  have only {length : Nat} (found : strlen (fun address => name address.toNat) 0#32 = some length) :
      length = text.length ∧ length < 2 ^ 32 := by
    obtain ⟨proper, last, bound⟩ := strlen_spec found
    refine ⟨?_, bound⟩
    rcases Nat.lt_trichotomy length text.length with shorter | equal | longer
    · rw [place bound] at last
      exact absurd last (string.nonzero shorter)
    · exact equal
    · have ends := proper text.length longer
      rw [place (by omega)] at ends
      exact absurd string.ends ends
  refine ⟨only, ?_⟩
  rintro ⟨rfl, bound⟩
  have zero : name (0#32 + BitVec.ofNat 32 text.length).toNat = 0#8 := by
    rw [place bound]
    exact string.ends
  obtain ⟨length, _, found⟩ := @strlen_of_zero (fun address => name address.toNat) 0#32 text.length zero bound
  rw [found, (only found).1]

end Strings

/-! ## A record that has another name -/

section Naming

variable {blockSize offset : Nat} {block : Block} (newName : Block) (length : Nat) {newText : List Byte}

variable {newName length} in
theorem renameRecord_apply {i : Nat} (outside : i < offset + 6 ∨ i = offset + 7 ∨ offset + 8 + length ≤ i) :
    renameRecord block offset newName length i = block i := by
  rw [renameRecord, store8, Function.update_of_ne (by omega), if_neg (by omega)]

variable {newName length} in
theorem renameRecord_congr {buffer : Block} (same : ∀ i < blockSize, buffer i = block i) :
    ∀ i < blockSize, renameRecord buffer offset newName length i = renameRecord block offset newName length i := by
  intro i bound
  simp only [renameRecord, store8, Function.update_apply, same i bound]

/-- What a record keeps whose fields lie apart from the new name. -/
theorem renameRecord_fields {other : Nat} (apart : ∀ i < 8, i ≠ 6 →
    other + i < offset + 6 ∨ other + i = offset + 7 ∨ offset + 8 + length ≤ other + i) :
    entryInode (renameRecord block offset newName length) other = entryInode block other ∧
      recLen (renameRecord block offset newName length) other = recLen block other ∧
        fileType (renameRecord block offset newName length) other = fileType block other := by
  refine ⟨?_, ?_, ?_⟩
  · exact le32_congr _ fun i bound => renameRecord_apply (apart i (by omega) (by omega))
  · rw [recLen, recLen, le16, le16, renameRecord_apply (apart 4 (by decide) (by decide)),
      renameRecord_apply (apart 5 (by decide) (by decide))]
  · rw [fileType, fileType, renameRecord_apply (apart 7 (by decide) (by decide))]

/-- Records apart from it have what they had. -/
theorem renameRecord_other {other : Nat} (long : nameLen block other + 8 ≤ recLen block other)
    (apart : other + recLen block other ≤ offset ∨ offset + 8 + length ≤ other) :
    SameEntry block (renameRecord block offset newName length) other ∧
      recLen (renameRecord block offset newName length) other = recLen block other := by
  obtain ⟨inode, size, type⟩ := @renameRecord_fields offset block newName length other fun i bound _ => by omega
  refine ⟨⟨inode, ?_, type, ?_⟩, size⟩
  · rw [nameLen, nameLen, renameRecord_apply (by omega)]
  · exact fun i bound => renameRecord_apply (by omega)

/-- The renamed record has the same inode, type and length. -/
theorem renameRecord_kept : entryInode (renameRecord block offset newName length) offset = entryInode block offset ∧
    recLen (renameRecord block offset newName length) offset = recLen block offset ∧
      fileType (renameRecord block offset newName length) offset = fileType block offset :=
  renameRecord_fields newName length fun i bound _ => by omega

variable {newName length} in
/-- The length of its name is kept in a byte. -/
theorem nameLen_renameRecord : nameLen (renameRecord block offset newName length) offset = length % 2 ^ 8 := by
  rw [nameLen, renameRecord, store8, Function.update_self, BitVec.toNat_ofNat]

theorem entryName_renameRecord (string : CString newName newText) (short : newText.length < 2 ^ 8) :
    entryName (renameRecord block offset newName newText.length) offset = newText := by
  have length : nameLen (renameRecord block offset newName newText.length) offset = newText.length := by
    rw [nameLen_renameRecord, Nat.mod_eq_of_lt short]
  refine List.ext_getElem (by rw [entryName_length, length]) fun i inside inside' => ?_
  rw [entryName_getElem, ← string.bytes i inside', nameBytes, renameRecord, store8, Function.update_of_ne (by omega),
    if_pos (by omega), Nat.add_sub_cancel_left]

/-- The records are where they were. -/
theorem renamed_tiled {before behind : List Nat} (tiled : Tiled blockSize block 0 (before ++ offset :: behind))
    (fits : length + 8 ≤ recLen block offset) :
    Tiled blockSize (renameRecord block offset newName length) 0 (before ++ offset :: behind) ∧
      ∀ record ∈ before ++ offset :: behind, record ≠ offset →
        SameEntry block (renameRecord block offset newName length) record ∧
          recLen (renameRecord block offset newName length) record = recLen block record := by
  obtain ⟨from_offset, _, inside⟩ := tiled.split
  obtain ⟨start, aligned, rest⟩ : offset < blockSize ∧ recLen block offset % 4 = 0 ∧
      Tiled blockSize block (offset + recLen block offset) behind := by
    cases from_offset with
    | cons start long aligned rest => exact ⟨start, aligned, rest⟩
  have earlier_same (record : Nat) (earlier : record ∈ before) :=
    renameRecord_other newName length
      (tiled.bounds record (List.mem_append_left _ earlier)).2 (.inl (inside record earlier).2)
  have later_same (record : Nat) (later : record ∈ behind) := by
    have start := rest.start_le record later
    exact @renameRecord_other offset block newName length record
      (rest.bounds record later).2 (.inr (by omega))
  obtain ⟨_, kept, _⟩ := @renameRecord_kept offset block newName length
  constructor
  · refine tiled.replace (fun record earlier => (earlier_same record earlier).2)
      (fun record earlier => (earlier_same record earlier).1.length) (.cons start ?_ (by rw [kept]; exact aligned) ?_)
    · have least := Nat.mod_le length (2 ^ 8)
      rw [nameLen_renameRecord, kept]
      omega
    · rw [kept]
      exact rest.congr_fields (fun record later => (later_same record later).2) fun record later =>
        (later_same record later).1.length
  · intro record among other
    rcases List.mem_append.mp among with earlier | later
    · exact earlier_same record earlier
    · exact later_same record ((List.mem_cons.mp later).resolve_left other)

end Naming

/-! ## What `Rename` does -/

section Rename

variable (disk : Disk) (heap : DirtyHeap) (privdata : Ext2Privdata) (inode : Ext2Inode) (request next : Nat)
variable (blocks : Nat) (records : Nat → List Nat) (name newName : Block) (text newText : List Byte)

/-- A record in use has the name. -/
def HasName (k offset : Nat) : Prop :=
  k < blocks ∧ offset ∈ records k ∧ Live (dirBlock disk privdata inode k) offset ∧
    entryName (dirBlock disk privdata inode k) offset = newText

/-- The new name leads where the old one led, which leads nowhere; it occurs once, and all others lead where they did. -/
structure Renamed (disk disk' : Disk) : Prop where
  leads : ∃ k offset, HasName disk privdata inode blocks records text k offset ∧
    Resolves disk' heap privdata inode request newName (.ok (entryInode (dirBlock disk privdata inode k) offset))
  gone : Resolves disk' heap privdata inode request name (.error (-enoent))
  once : ∃ k offset, HasName disk' privdata inode blocks records newText k offset ∧
    ∀ k' offset', HasName disk' privdata inode blocks records newText k' offset' → k' = k ∧ offset' = offset
  kept : ∀ other otherText, CString other otherText → otherText ≠ text → otherText ≠ newText → ∀ result,
    Resolves disk heap privdata inode request other result → Resolves disk' heap privdata inode request other result

/-- `Rename` within the directory renames, or leaves the device as it is. -/
def RenamesRight : Prop :=
  ∃ fuel res disk', rename heap privdata fuel inode name request next newName true disk = some (res, disk') ∧
    (res = 0 → Renamed heap privdata inode request blocks records name newName text newText disk disk') ∧
    (res ≠ 0 → disk' = disk)

/-- The record can have the new name: it is in use in the only block, the new name has a length, which fits in a byte,
no further record decides the search for the old name, no earlier one that for the new name, and none in use has it. -/
structure Renamable (before : List Nat) (offset : Nat) (behind : List Nat) : Prop where
  live : Live (dirBlock disk privdata inode 0) offset
  single : blocks = 1
  positive : newText ≠ []
  short : newText.length < 2 ^ 8
  last : ∀ other ∈ behind, ¬ Decides privdata.blockSize.toNat name (dirBlock disk privdata inode 0) other
  first : ∀ other ∈ before, ¬ Matches newName (dirBlock disk privdata inode 0) other
  new : ∀ other ∈ behind, Live (dirBlock disk privdata inode 0) other →
    entryName (dirBlock disk privdata inode 0) other ≠ newText

/-- The search refuses a record or finds none; or the new name is a string of less than two gigabytes that does not fit
in the record that is found, or can be its name. -/
def RenameFits : Prop :=
  (¬ ∃ before offset behind, Hit disk privdata inode name (records 0) before offset behind) ∨
  ∃ before offset behind, Hit disk privdata inode name (records 0) before offset behind ∧
    newText.length + 8 < 2 ^ 31 ∧
    (recLen (dirBlock disk privdata inode 0) offset < newText.length + 8 ∨
      Renamable disk privdata inode blocks name newName newText before offset behind)

/-- The device when the record has the new name. -/
def renamedDisk (offset : Nat) : Disk :=
  writeFirstBlock privdata inode disk (renameRecord (dirBlock disk privdata inode 0) offset newName newText.length)

variable {disk heap privdata inode request next blocks records name newName text newText}

variable (next) in
/-- What `Rename` does with the record that is found. -/
theorem rename_of_hit (geometry : BlockGeometry privdata) (granted : ∀ n, heap.grants n = true) {found : List Nat}
    (firstBlock : FirstBlock disk privdata inode found) {fuel : Nat} {search : DirectorySearch}
    (run : findDirectoryEntry disk heap privdata fuel inode name request = some search) {before behind : List Nat}
    {offset : Nat} (hit : Hit disk privdata inode name found before offset behind) (string : CString newName newText) :
    rename heap privdata fuel inode name request next newName true disk =
      if 2 ^ 31 ≤ newText.length + 8 then none
      else if newText.length + 8 ≤ recLen (dirBlock disk privdata inode 0) offset then
        some (0, renamedDisk disk privdata inode newName newText offset)
      else some (-(erofs : Int), disk) := by
  obtain ⟨buffer, read, same⟩ := firstBlock.buffered geometry fuel (granted next)
  have result := (firstBlock.search name geometry (granted request)).2 fuel search run
  have bounds := firstBlock.tiled.bounds offset hit.mem
  have length : recLen buffer offset = recLen (dirBlock disk privdata inode 0) offset := recLen_congr same (by omega)
  rw [rename, run, Option.bind_some, result, hit.search]
  dsimp only [hitEntry]
  rw [read, Option.bind_some]
  dsimp only
  by_cases huge : 2 ^ 32 ≤ newText.length
  · cases measured : strlen (fun address => newName address.toNat) 0#32 with
    | none => rw [Option.bind_none, if_pos (by omega)]
    | some length =>
      obtain ⟨equal, bound⟩ := string.strlen_iff.mp measured
      omega
  · rw [string.strlen_iff.mpr ⟨rfl, by omega⟩, Option.bind_some]
    simp only [and_true, length]
    congr 2
    rw [firstBlock.written_congr geometry (renameRecord_congr same)]
    rfl

section Renaming

variable (newName newText) {before behind : List Nat} {offset : Nat} (geometry : BlockGeometry privdata)
  (firstBlock : FirstBlock disk privdata inode (before ++ offset :: behind))
  (fits : newText.length + 8 ≤ recLen (dirBlock disk privdata inode 0) offset)

include geometry firstBlock

theorem dirBlock_renamed : ∀ i < privdata.blockSize.toNat,
    dirBlock (renamedDisk disk privdata inode newName newText offset) privdata inode 0 i =
      renameRecord (dirBlock disk privdata inode 0) offset newName newText.length i :=
  firstBlock.dirBlock_written geometry

include fits

/-- The records of the first block are where they were. -/
theorem firstBlock_renamed :
    FirstBlock (renamedDisk disk privdata inode newName newText offset) privdata inode (before ++ offset :: behind) :=
  firstBlock.after geometry (renamed_tiled newName newText.length firstBlock.tiled fits).1

/-- The other ones have what they had. -/
theorem renamed_other {record : Nat} (among : record ∈ before ++ offset :: behind) (other : record ≠ offset) :
    SameEntry (dirBlock disk privdata inode 0)
        (dirBlock (renamedDisk disk privdata inode newName newText offset) privdata inode 0) record ∧
      recLen (dirBlock (renamedDisk disk privdata inode newName newText offset) privdata inode 0) record =
        recLen (dirBlock disk privdata inode 0) record := by
  obtain ⟨tiled, same⟩ := renamed_tiled newName newText.length firstBlock.tiled fits
  have bounds := tiled.bounds record among
  have whole := dirBlock_renamed newName newText geometry firstBlock
  obtain ⟨entry, length⟩ := same record among other
  exact ⟨entry.trans (sameEntry_of_block whole (by omega)), (recLen_congr whole (by omega)).trans length⟩

/-- The record itself has the new name, or what a byte keeps of its length. -/
theorem renamed_record :
    let block := dirBlock (renamedDisk disk privdata inode newName newText offset) privdata inode 0
    entryInode block offset = entryInode (dirBlock disk privdata inode 0) offset ∧
      recLen block offset = recLen (dirBlock disk privdata inode 0) offset ∧
      fileType block offset = fileType (dirBlock disk privdata inode 0) offset ∧
      nameLen block offset = newText.length % 2 ^ 8 ∧
      (CString newName newText → newText.length < 2 ^ 8 → entryName block offset = newText) := by
  have whole := dirBlock_renamed newName newText geometry firstBlock
  have bounds := (renamed_tiled newName newText.length firstBlock.tiled fits).1.bounds offset
    (List.mem_append_right _ List.mem_cons_self)
  have same := sameEntry_of_block whole (show offset + 8 + nameLen _ offset ≤ privdata.blockSize.toNat by omega)
  obtain ⟨inode_kept, length_kept, type_kept⟩ := @renameRecord_kept offset (dirBlock disk privdata inode 0) newName newText.length
  refine ⟨same.inode.trans inode_kept, (recLen_congr whole (by omega)).trans length_kept, same.type.trans type_kept,
    same.length.trans nameLen_renameRecord, fun string short => ?_⟩
  rw [same.entryName]
  exact entryName_renameRecord newName string short

/-- The record is refused no more than it was, if the new name has a length that fits in a byte. -/
theorem renamed_sound (sound : ¬ Corrupted privdata.blockSize.toNat (dirBlock disk privdata inode 0) offset)
    (positive : newText ≠ []) (short : newText.length < 2 ^ 8) : ¬ Corrupted privdata.blockSize.toNat
      (dirBlock (renamedDisk disk privdata inode newName newText offset) privdata inode 0) offset := by
  obtain ⟨_, length, type, name, _⟩ := renamed_record newName newText geometry firstBlock fits
  have some_length := List.length_pos_iff.mpr positive
  simp only [Corrupted, not_or, not_lt, length, type, name] at sound ⊢
  omega

/-- A name that leads to the record neither before nor afterwards leads where it did. -/
theorem resolved_renamed {other : Block} {otherText : List Byte}
    (sound : ¬ Corrupted privdata.blockSize.toNat (dirBlock disk privdata inode 0) offset)
    (positive : newText ≠ []) (short : newText.length < 2 ^ 8) (string : CString newName newText)
    (string' : CString other otherText) (old : ¬ Matches other (dirBlock disk privdata inode 0) offset)
    (new : otherText ≠ newText) :
    resolved (renamedDisk disk privdata inode newName newText offset) privdata inode other (before ++ offset :: behind) =
      resolved disk privdata inode other (before ++ offset :: behind) := by
  obtain ⟨inode_kept, _, _, _, named⟩ := renamed_record newName newText geometry firstBlock fits
  have sound' := renamed_sound newName newText geometry firstBlock fits sound positive short
  have named := named string short
  have unmatched : ¬ Matches other
      (dirBlock (renamedDisk disk privdata inode newName newText offset) privdata inode 0) offset := by
    rw [matches_iff string' (by rw [named]; exact string.text), named]
    exact new.symm
  rw [resolved, resolved, scanInodes_congr]
  · intro record among
    by_cases equal : record = offset
    · rw [equal]
      exact iff_of_false sound' sound
    · obtain ⟨same, length⟩ := renamed_other newName newText geometry firstBlock fits among equal
      exact same.corrupted_iff length
  · intro record among
    by_cases equal : record = offset
    · rw [equal]
      exact iff_of_false unmatched old
    · exact (renamed_other newName newText geometry firstBlock fits among equal).1.matches_iff
  · intro record among
    by_cases equal : record = offset
    · rw [equal]
      exact inode_kept
    · exact (renamed_other newName newText geometry firstBlock fits among equal).1.inode

end Renaming

section Directories

variable {before behind : List Nat} {offset : Nat} (geometry : BlockGeometry privdata)
  (directory : WellFormedDirectory disk privdata inode blocks records) (string : CString name text)
  (newString : CString newName newText) (granted : ∀ n, heap.grants n = true)
  (hit : Hit disk privdata inode name (records 0) before offset behind)
  (fits : newText.length + 8 ≤ recLen (dirBlock disk privdata inode 0) offset)

include geometry directory string newString granted hit fits

/-- A record that can have the new name gets it. -/
theorem renamed_of_renamable (distinct : text ≠ newText)
    (renamable : Renamable disk privdata inode blocks name newName newText before offset behind) :
    Renamed heap privdata inode request blocks records name newName text newText disk
      (renamedDisk disk privdata inode newName newText offset) := by
  have within := directory.positive
  have firstBlock := directory.firstBlock
  have split := hit.split
  have goesOn := hit.goesOn
  have named := (directory.decides_live string within hit.mem renamable.live).mp (.inr hit.found)
  have single := renamable.single
  rw [split] at firstBlock
  have firstBlock' := firstBlock_renamed newName newText geometry firstBlock fits
  obtain ⟨inode_kept, _, _, _, renamed⟩ := renamed_record newName newText geometry firstBlock fits
  have renamed := renamed newString renamable.short
  have sound := renamed_sound newName newText geometry firstBlock fits hit.sound renamable.positive renamable.short
  have matches_record {other : Block} {otherText : List Byte} (string' : CString other otherText) :
      Matches other (dirBlock (renamedDisk disk privdata inode newName newText offset) privdata inode 0) offset ↔
        newText = otherText := by
    rw [matches_iff string' (by rw [renamed]; exact newString.text), renamed]
  have same {record : Nat} (among : record ∈ before ++ offset :: behind) (other : record ≠ offset) :=
    renamed_other newName newText geometry firstBlock fits among other
  have earlier_other (record : Nat) (earlier : record ∈ before) : record ≠ offset := fun equal =>
    firstBlock.tiled.not_mem.1 (equal ▸ earlier)
  refine ⟨⟨0, offset, ⟨within, hit.mem, renamable.live, named⟩, ?_⟩, ?_, ⟨0, offset, ⟨within, hit.mem, ?_, renamed⟩, ?_⟩, ?_⟩
  · refine (firstBlock'.resolves_iff geometry (granted request)).mpr ?_
    rw [resolved, scanInodes_append_of_goesOn, scanInodes, if_neg sound, if_pos ((matches_record newString).mpr rfl),
      Option.getD_some, inode_kept]
    intro record earlier
    obtain ⟨entry, length⟩ := same (List.mem_append_left _ earlier) (earlier_other record earlier)
    rw [entry.decides_iff length]
    exact not_or.mpr ⟨fun corrupted => goesOn record earlier (.inl corrupted), renamable.first record earlier⟩
  · refine (firstBlock'.resolves_iff geometry (granted request)).mpr (resolved_enoent_iff.mpr ⟨?_, ?_⟩).symm
    · exact (directory.single_iff geometry).mpr single
    · intro record among
      by_cases equal : record = offset
      · rw [equal, Decides, matches_record string]
        exact not_or.mpr ⟨sound, distinct.symm⟩
      · obtain ⟨entry, length⟩ := same among equal
        rw [entry.decides_iff length]
        rcases List.mem_append.mp among with earlier | later
        · exact goesOn record earlier
        · exact renamable.last record ((List.mem_cons.mp later).resolve_left equal)
  · rw [Live, inode_kept]
    exact renamable.live
  · rintro k' offset' ⟨inside', among', live', named'⟩
    have first : k' = 0 := by omega
    subst first
    refine ⟨rfl, ?_⟩
    by_contra other
    have among := among'
    rw [split] at among
    obtain ⟨entry, _⟩ := same among other
    rw [entry.entryName] at named'
    rw [entry.live_iff] at live'
    rcases List.mem_append.mp among with earlier | later
    · exact renamable.first offset' earlier
        ((matches_iff newString (directory.live 0 within offset' among' live').text).mpr named')
    · exact renamable.new offset' ((List.mem_cons.mp later).resolve_left other) live' named'
  · intro other otherText string' not_old not_new result leads
    rw [firstBlock.resolves_iff geometry (granted request)] at leads
    rw [firstBlock'.resolves_iff geometry (granted request), leads]
    refine (resolved_renamed newName newText geometry firstBlock fits hit.sound renamable.positive renamable.short newString string' ?_
      not_new).symm
    intro found
    have equal := (directory.decides_live string' within hit.mem renamable.live).mp (.inr found)
    exact not_old (equal.symm.trans named)

/-- What is renamed could have the new name. -/
theorem renamable_of_renamed
    (renamed : Renamed heap privdata inode request blocks records name newName text newText disk
      (renamedDisk disk privdata inode newName newText offset)) :
    Renamable disk privdata inode blocks name newName newText before offset behind := by
  obtain ⟨⟨k, old, ⟨within, among, live, named⟩, leads⟩, gone, ⟨k', new, _, only⟩, _⟩ := renamed
  have firstBlock := directory.firstBlock
  have split := hit.split
  rw [split] at firstBlock
  have firstBlock' := firstBlock_renamed newName newText geometry firstBlock fits
  obtain ⟨inode_kept, _, _, length, renamed⟩ := renamed_record newName newText geometry firstBlock fits
  have same {record : Nat} (among : record ∈ before ++ offset :: behind) (other : record ≠ offset) :=
    renamed_other newName newText geometry firstBlock fits among other
  obtain ⟨not_before, not_behind⟩ := firstBlock.tiled.not_mem
  rw [firstBlock'.resolves_iff geometry (granted request)] at leads gone
  obtain ⟨small, goesOn'⟩ := resolved_enoent_iff.mp gone.symm
  have single := (directory.single_iff geometry).mp small
  have last (record : Nat) (later : record ∈ behind) :
      ¬ Decides privdata.blockSize.toNat name (dirBlock disk privdata inode 0) record := by
    have among : record ∈ before ++ offset :: behind := List.mem_append_right _ (List.mem_cons_of_mem _ later)
    obtain ⟨entry, length⟩ := same among fun equal => not_behind (equal ▸ later)
    exact (entry.decides_iff length).not.mp (goesOn' record among)
  -- the record in use that had the old name is the one that was found
  have first : k = 0 := by omega
  subst first
  have found_old : old = offset := by
    have decided := (directory.decides_live string within among live).mpr named
    rw [split] at among
    rcases List.mem_append.mp among with earlier | later
    · exact absurd decided (hit.goesOn old earlier)
    · exact (List.mem_cons.mp later).resolve_right fun later => last old later decided
  subst found_old
  have scan := resolved_ok_iff.mp leads.symm
  have long_enough : newText.length % 2 ^ 8 ≠ 0 := by
    intro zero
    exact goesOn' old (List.mem_append_right _ List.mem_cons_self) (.inl (.inr (.inr (.inr (.inl (length.trans zero))))))
  have short : newText.length < 2 ^ 8 := by
    by_contra long
    obtain ⟨record, _, found, _⟩ := mem_of_scanInodes scan
    have bound : nameLen (dirBlock (renamedDisk disk privdata inode newName newText old) privdata inode 0) record < 2 ^ 8 :=
      BitVec.isLt _
    exact newString.nonzero (by omega) found.2
  have new_name := renamed newString short
  -- the record itself has the new name, and no other one that is in use
  have only_record {record : Nat} (among : record ∈ before ++ old :: behind) (other : record ≠ old)
      (live' : Live (dirBlock disk privdata inode 0) record) :
      entryName (dirBlock disk privdata inode 0) record ≠ newText := by
    intro named'
    obtain ⟨entry, _⟩ := same among other
    have here := only 0 old ⟨within, split ▸ hit.mem, by rw [Live, inode_kept]; exact live, new_name⟩
    have there := only 0 record ⟨within, split ▸ among, entry.live_iff.mpr live', entry.entryName.trans named'⟩
    exact other (there.2.trans here.2.symm)
  refine ⟨live, single, ?_, short, last, ?_, ?_⟩
  · rintro rfl
    exact long_enough rfl
  · intro record earlier found
    have other {record : Nat} (earlier : record ∈ before) : record ≠ old := fun equal => not_before (equal ▸ earlier)
    cases part : scanInodes privdata.blockSize.toNat newName
        (dirBlock (renamedDisk disk privdata inode newName newText old) privdata inode 0) before with
    | none =>
      have goesOn := scanInodes_eq_none_iff.mp part record earlier
      exact goesOn (.inr ((same (List.mem_append_left _ earlier) (other earlier)).1.matches_iff.mpr found))
    | some result =>
      -- the record that the name leads to there is in use
      rw [scanInodes_append, part, Option.some_or] at scan
      cases scan
      obtain ⟨taken, member, matched, leads⟩ := mem_of_scanInodes part
      have among : taken ∈ before ++ old :: behind := List.mem_append_left _ member
      obtain ⟨entry, _⟩ := same among (other member)
      have live' : Live (dirBlock disk privdata inode 0) taken := by
        rw [Live, ← entry.inode, leads]
        exact live
      have clean := (directory.live 0 within taken (split ▸ among) live').text
      exact only_record among (other member) live' ((matches_iff newString clean).mp (entry.matches_iff.mp matched))
  · intro record later live'
    exact only_record (List.mem_append_right _ (List.mem_cons_of_mem _ later)) (fun equal => not_behind (equal ▸ later)) live'

end Directories

/-- **Rename** within a directory is right exactly if the new name does not fit in the record, or the record can have it. -/
theorem rename_iff {sblock : Ext2SuperBlock} (sizes : sblock.sLogBlockSize.toNat ≤ 6)
    (granted : ∀ n, heap.grants n = true) (directory : WellFormedDirectory disk (privdataOf sblock) inode blocks records)
    (string : CString name text) (newString : CString newName newText) (distinct : text ≠ newText) :
    RenamesRight disk heap (privdataOf sblock) inode request next blocks records name newName text newText ↔
      RenameFits disk (privdataOf sblock) inode blocks records name newName newText := by
  have geometry := blockGeometry sizes
  have firstBlock := directory.firstBlock
  obtain ⟨⟨fuel, search, run⟩, found⟩ := firstBlock.search name geometry (granted request)
  constructor
  · rintro ⟨fuel, res, disk', ran, renames, _⟩
    obtain ⟨search, run, rest⟩ := Option.bind_eq_some_iff.mp ran
    rcases search_cases disk (privdataOf sblock) inode name (records 0) with ⟨before, offset, behind, hit⟩ | ⟨no_hit, _⟩
    · refine .inr ⟨before, offset, behind, hit, ?_⟩
      rw [rename_of_hit _ geometry granted firstBlock run hit newString] at ran
      by_cases huge : 2 ^ 31 ≤ newText.length + 8
      · rw [if_pos huge] at ran
        cases ran
      rw [if_neg huge] at ran
      refine ⟨by omega, ?_⟩
      by_cases fits : newText.length + 8 ≤ recLen (dirBlock disk (privdataOf sblock) inode 0) offset
      · rw [if_pos fits] at ran
        cases ran
        exact .inr (renamable_of_renamed geometry directory string newString granted hit fits (renames rfl))
      · exact .inl (by omega)
    · exact .inl no_hit
  · rintro (no_hit | ⟨before, offset, behind, hit, small, room⟩)
    · obtain ⟨_, failed⟩ := (search_cases disk (privdataOf sblock) inode name (records 0)).resolve_left no_hit
      have ends {res : Int} (failed : searchRecords disk (privdataOf sblock) inode name (records 0) = .error res)
          (nonzero : res ≠ 0) : RenamesRight disk heap (privdataOf sblock) inode request next blocks records name newName
            text newText := by
        refine ⟨fuel, res, disk, ?_, fun zero => absurd zero nonzero, fun _ => rfl⟩
        rw [rename, run, Option.bind_some, found fuel search run, failed]
      exact failed.elim (fun failed => ends failed (by decide)) fun failed => ends failed (by decide)
    · have outcome := rename_of_hit next geometry granted firstBlock run hit newString
      rw [if_neg (by omega)] at outcome
      by_cases fits : newText.length + 8 ≤ recLen (dirBlock disk (privdataOf sblock) inode 0) offset
      · rw [if_pos fits] at outcome
        refine ⟨fuel, 0, _, outcome, fun _ => ?_, fun other => absurd rfl other⟩
        exact renamed_of_renamable geometry directory string newString granted hit fits distinct
          (room.resolve_left (by omega))
      · rw [if_neg fits] at outcome
        exact ⟨fuel, _, disk, outcome, fun zero => absurd zero (by decide), fun _ => rfl⟩

end Rename

section Sample

/-- `a` gets the name `c`. -/
theorem letter_renamed : RenamesRight sampleDirectory sampleHeap samplePrivdata (sampleInode 1) 0 1 1 sampleRecords
    (letter 97#8) (letter 99#8) [97#8] [99#8] := by
  refine (rename_iff (by decide) (fun _ => rfl) (sample_wellFormed (show 1 ∈ [1, 2] by decide))
    (letter_string (by decide)) (letter_string (by decide)) (by decide)).mpr (.inr ⟨[0, 12], 24, [], ?_, by decide, .inr ?_⟩)
  · exact ⟨rfl, by decide, by decide, by decide⟩
  · exact ⟨by decide, rfl, by decide, by decide, List.forall_mem_nil _, by decide, List.forall_mem_nil _⟩

/-- `a` gets the name of `b`, which is then there twice. -/
theorem name_duplicated : WellFormedDirectory filesDirectory samplePrivdata (sampleInode 1) 1 filesRecords ∧
    ¬ RenamesRight filesDirectory sampleHeap samplePrivdata (sampleInode 1) 0 1 1 filesRecords
      (letter 97#8) (letter 98#8) [97#8] [98#8] := by
  have geometry : BlockGeometry samplePrivdata := blockGeometry (by decide)
  have granted : ∀ n, sampleHeap.grants n = true := fun _ => rfl
  have newString : CString (letter 98#8) [98#8] := letter_string (by decide)
  have hit : Hit filesDirectory samplePrivdata (sampleInode 1) (letter 97#8) (filesRecords 0) [0, 12] 24 [36] :=
    ⟨rfl, by decide, by decide, by decide⟩
  refine ⟨files_wellFormed, ?_⟩
  rintro ⟨fuel, res, disk', ran, renames, _⟩
  obtain ⟨search, run, _⟩ := Option.bind_eq_some_iff.mp ran
  rw [rename_of_hit _ geometry granted files_wellFormed.firstBlock run hit newString, if_neg (by decide),
    if_pos (by decide)] at ran
  cases ran
  have renamable := renamable_of_renamed geometry files_wellFormed (letter_string (by decide)) newString granted hit
    (by decide) (renames rfl)
  exact renamable.new 36 (by decide) (by decide) (by decide)

end Sample
end FluxOS.Ext2
