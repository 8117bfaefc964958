import FluxOS.DirectoryListing
import FluxOS.DirectoryNames
import FluxOS.UserStrings

/-! The two walks through the contents of an ext2 directory that look at no record's length: `GetDEnts` and
`Name`. When they end, what they read, and what they make of a well-formed directory. -/
namespace FluxOS.Ext2
open Words UserMemoryOps BlockDevice

/-! ## What the walks read -/

/-- How many bytes `rawstrcpy` reads. -/
def rawReads (src : Block) (i : Nat) : Nat → Nat
  | 0 => 0
  | left + 1 => if src i = 0#8 then 1 else rawReads src (i + 1) left + 1

/-- What `GetDEnts` reads of a record. -/
def entryReads (dir : Block) (offset : Nat) : List (Nat × Nat) :=
  if nameLen dir offset ≠ 0 then
    [(offset + 6, 1), (offset + 8, rawReads (nameBytes dir offset) 0 (nameLen dir offset)), (offset + 4, 2)]
  else [(offset + 6, 1), (offset + 4, 2)]

/-- The offsets of the records that `GetDEnts` comes to. -/
def visitedEntries (fuel : Nat) (dir : Block) (iSize count : Word) : List Word :=
  RecordListing.visits sizeofDirent (listedEntry dir) (nextRecord dir) (fun readBytes => decide (readBytes < iSize)) count
    fuel 0#32 0#32

/-- Those of the records it writes. -/
def listedOffsets (fuel : Nat) (dir : Block) (iSize count : Word) : List Nat :=
  ((visitedEntries fuel dir iSize count).map BitVec.toNat).filter fun offset => nameLen dir offset ≠ 0

/-- What `Name` returns, with `*name`, null where there is no memory for it, and `*len`; where it has read; and how far
behind the beginning of the contents the pointer is that it frees. -/
structure NameSearch where
  result : Except Int (Option (List Byte) × Nat)
  reads : List (Nat × Nat)
  freed : Option Word

/-- `strndup`, which measures the string first: what is copied, and how much is read. -/
def strndup (dir : Block) (s n : Nat) : Option (List Byte × Nat) :=
  (strlen (fun address => dir address.toNat) (BitVec.ofNat 32 s)).map fun slen =>
    ((List.range (if slen < n then slen else n)).map fun i => dir (s + i), slen + 1)

/-- The loop of `Name`; `granted` is whether there is memory for the name. -/
def searchName (dir : Block) (iSize : Word) (id : BitVec 64) (granted : Bool) :
    Nat → Word → List (Nat × Nat) → Option NameSearch
  | 0, _, _ => none
  | fuel + 1, readBytes, reads =>
    let offset := readBytes.toNat
    if (entryInode dir offset).setWidth 64 = id then
      (strndup dir (offset + 8) (nameLen dir offset)).map fun (name, read) =>
        ⟨.ok (if granted then some name else none, nameLen dir offset),
          reads ++ [(offset, 4), (offset + 6, 1), (offset + 8, read)], some 0#32⟩
    else
      let readBytes := nextRecord dir readBytes
      let reads := reads ++ [(offset, 4), (offset + 4, 2)]
      if readBytes < iSize then
        if entryInode dir readBytes.toNat ≠ 0#32 then searchName dir iSize id granted fuel readBytes reads
        -- the pointer that is freed here is the one that moved
        else some ⟨.error (-enoent), reads ++ [(readBytes.toNat, 4)], some readBytes⟩
      else some ⟨.error (-enoent), reads, some readBytes⟩

section Calls

variable (disk : Disk) (heap : DirtyHeap) (privdata : Ext2Privdata)

/-- `Name`, with the inode of the directory and the private data of the mount of the node. -/
def name (readFuel fuel : Nat) (inode : Ext2Inode) (request : Nat) (id : BitVec 64) (granted : Bool) :
    Option NameSearch :=
  if VFS.sIsdir (inode.iMode.setWidth 32) = false then some ⟨.error (-enotdir), [], none⟩
  else if heap.grants request = false then some ⟨.error (-enomem), [], none⟩
  else
    (directoryData disk heap privdata readFuel inode request).bind fun dir =>
      searchName dir inode.iSize id granted fuel 0#32 []

end Calls

/-! ## What the walks should do -/

section Purpose

variable (dir : Block) (iSize count : Word) (id : BitVec 64) (granted : Bool)

/-- The contents of a directory as the format has them: records from the beginning to the end, those in use with
a name. -/
structure WellFormedContents (offsets : List Nat) : Prop where
  tiled : Tiled iSize.toNat dir 0 offsets
  positive : 0 < iSize.toNat
  live : ∀ offset ∈ offsets, Live dir offset → WellFormedEntry iSize.toNat dir offset

/-- `GetDEnts` ends, and has read nothing outside the contents. -/
def ListsInside : Prop :=
  ∃ fuel result, listEntries fuel dir iSize count = some result ∧
    ∀ readBytes ∈ visitedEntries fuel dir iSize count, InBlock iSize.toNat (entryReads dir readBytes.toNat)

/-- `Name` ends, has read nothing outside the contents, and frees the block that it got: of any other pointer `dlfree`
takes the bytes before it for the head of a chunk. -/
def SearchesInside : Prop :=
  ∃ fuel search, searchName dir iSize id granted fuel 0#32 [] = some search ∧ InBlock iSize.toNat search.reads ∧
    search.freed = some 0#32

/-- `GetDEnts` writes the records in use that there is room for, and no others. -/
def ListsLive (offsets : List Nat) : Prop :=
  ∃ fuel result, listEntries fuel dir iSize count = some result ∧
    listedOffsets fuel dir iSize count = (offsets.filter fun offset => Live dir offset).take (count.toNat / sizeofDirent)

/-- `Name` gives the name of a record of the node, if there is one. -/
def NamesNode (offsets : List Nat) : Prop :=
  ∀ offset ∈ offsets, Live dir offset → (entryInode dir offset).setWidth 64 = id →
    ∃ fuel search, searchName dir iSize id granted fuel 0#32 [] = some search ∧
      ∃ named ∈ offsets, (entryInode dir named).setWidth 64 = id ∧
        search.result = .ok (some (entryName dir named), nameLen dir named)

/-- Both walks as they should be. -/
structure WalksRightly : Prop where
  listsInside : ListsInside dir iSize count
  searchesInside : SearchesInside dir iSize id granted
  listsLive : ∀ offsets, WellFormedContents dir iSize offsets → ListsLive dir iSize count offsets
  namesNode : ∀ offsets, WellFormedContents dir iSize offsets → NamesNode dir iSize id granted offsets

end Purpose

/-! ## When they do it -/

section Conditions

variable (dir : Block) (iSize count : Word) (id : BitVec 64) (granted : Bool)

/-- Behind so many records the contents end, or the room as the loop tests it. -/
abbrev EntriesEnd (places : Nat) : Prop :=
  RecordListing.Stops sizeofDirent (listedEntry dir) (nextRecord dir) (fun readBytes => decide (readBytes < iSize)) count
    0#32 places

/-- The listing ends behind some record, and the records up to there lie in the contents. -/
def EntriesInside : Prop :=
  ∃ places, 0 < places ∧ EntriesEnd dir iSize count places ∧
    ∀ i < places, InBlock iSize.toNat (entryReads dir ((nextRecord dir)^[i] 0#32).toNat)

/-- From the record at an offset the search comes to one of the node, whose name a zero ends inside the contents,
or back to the beginning and the first record is not in use, and does not leave the contents before. -/
inductive SearchStays : Word → Prop
  | found {readBytes : Word} {k : Nat} (inside : readBytes.toNat + 8 + k < iSize.toNat)
      (same : (entryInode dir readBytes.toNat).setWidth 64 = id) (zero : dir (readBytes.toNat + 8 + k) = 0#8) :
      SearchStays readBytes
  | unused {readBytes : Word} (inside : readBytes.toNat + 6 ≤ iSize.toNat)
      (other : (entryInode dir readBytes.toNat).setWidth 64 ≠ id) (home : nextRecord dir readBytes = 0#32)
      (unused : entryInode dir 0 = 0#32) : SearchStays readBytes
  | step {readBytes : Word} (inside : readBytes.toNat + 6 ≤ iSize.toNat)
      (other : (entryInode dir readBytes.toNat).setWidth 64 ≠ id) (more : nextRecord dir readBytes < iSize)
      (used : entryInode dir (nextRecord dir readBytes).toNat ≠ 0#32)
      (rest : SearchStays (nextRecord dir readBytes)) : SearchStays readBytes

/-- So many records are almost `2 ^ 32` bytes: behind them the test for room begins again. -/
def allRecords : Nat := 16025997

/-- How many records with a name are written, as long as there are so many. -/
def listedCount : Nat :=
  if nameLen dir 0 = 0 ∧ count.toNat ≤ sizeofDirent then 0 else max 1 ((count.toNat - 1) / sizeofDirent)

def namedOffsets (offsets : List Nat) : List Nat := offsets.filter fun offset => nameLen dir offset ≠ 0

def liveOffsets (offsets : List Nat) : List Nat := offsets.filter fun offset => Live dir offset

/-- The records with a name that are written are in use, and as many as there is room for. -/
def LiveFirst (offsets : List Nat) : Prop :=
  (count.toNat ≤ sizeofDirent * allRecords ∨ (namedOffsets dir offsets).length ≤ allRecords) ∧
    (∀ offset ∈ (namedOffsets dir offsets).take (listedCount dir count), Live dir offset) ∧
    min (listedCount dir count) (namedOffsets dir offsets).length =
      min (count.toNat / sizeofDirent) (liveOffsets dir offsets).length

/-- A node that is there has a record with no unused one, apart from the first, before it; and there is memory
for the name. -/
def NodeEarly (offsets : List Nat) : Prop :=
  ∀ offset ∈ offsets, Live dir offset → (entryInode dir offset).setWidth 64 = id →
    granted = true ∧ ∃ before named behind, offsets = before ++ named :: behind ∧
      (entryInode dir named).setWidth 64 = id ∧ ∀ other ∈ before.tail, Live dir other

/-- What the contents, the room and the node must be for both walks to be right. -/
structure WalkedRightly : Prop where
  entriesInside : EntriesInside dir iSize count
  searchStays : SearchStays dir iSize id 0#32
  liveFirst : ∀ offsets, WellFormedContents dir iSize offsets → LiveFirst dir count offsets
  nodeEarly : ∀ offsets, WellFormedContents dir iSize offsets → NodeEarly dir id granted offsets

end Conditions

variable {dir : Block} {iSize count : Word} {id : BitVec 64} {granted : Bool}

/-! ## The listing -/

theorem filterMap_listedEntry (visited : List Word) :
    visited.filterMap (listedEntry dir) =
      ((visited.map BitVec.toNat).filter fun offset => nameLen dir offset ≠ 0).map (entryDirent dir) := by
  induction visited with
  | nil => rfl
  | cons readBytes later ih =>
    by_cases named : nameLen dir readBytes.toNat ≠ 0
    · have written : listedEntry dir readBytes = some (entryDirent dir readBytes.toNat) := if_pos named
      rw [List.filterMap_cons_some written, List.map_cons,
        List.filter_cons_of_pos (p := fun offset => decide (nameLen dir offset ≠ 0)) (decide_eq_true named),
        List.map_cons, ih]
    · have skipped : listedEntry dir readBytes = none := if_neg named
      rw [List.filterMap_cons_none skipped, List.map_cons,
        List.filter_cons_of_neg (p := fun offset => decide (nameLen dir offset ≠ 0))
          fun yes => named (of_decide_eq_true yes), ih]

/-- What `GetDEnts` writes are the records it lists. -/
theorem listEntries_listedOffsets {fuel : Nat} {result : Word × List Dirent}
    (run : listEntries fuel dir iSize count = some result) :
    result.2 = (listedOffsets fuel dir iSize count).map (entryDirent dir) := by
  obtain ⟨last, -, -, -, rfl, visited⟩ := RecordListing.visits_of_list run
  rw [listedOffsets, visitedEntries, visited, ← filterMap_listedEntry, List.filterMap_map]
  rfl

theorem listsInside_iff : ListsInside dir iSize count ↔ EntriesInside dir iSize count :=
  RecordListing.list_visits_iff 0#32 fun readBytes => InBlock iSize.toNat (entryReads dir readBytes.toNat)

/-- Behind a record of well-formed contents the next one begins. -/
theorem Tiled.next {offset first : Nat} {later : List Nat} (tiled : Tiled iSize.toNat dir offset (first :: later))
    {readBytes : Word} (here : readBytes.toNat = offset) :
    first = offset ∧ (nextRecord dir readBytes).toNat = offset + recLen dir offset ∧
      Tiled iSize.toNat dir (offset + recLen dir offset) later := by
  have bound := (tiled.bounds first List.mem_cons_self).1
  have top := iSize.isLt
  cases tiled with
  | cons before long aligned rest =>
    refine ⟨rfl, ?_, rest⟩
    rw [nextRecord, here, BitVec.toNat_add, BitVec.toNat_ofNat, here, Nat.add_mod_mod, Nat.mod_eq_of_lt (by omega)]

/-- In well-formed contents the walk comes to one record after the other, and to the end. -/
theorem Tiled.walk {offset : Nat} {offsets : List Nat} (tiled : Tiled iSize.toNat dir offset offsets) {readBytes : Word}
    (here : readBytes.toNat = offset) :
    (∀ i (inside : i < offsets.length), ((nextRecord dir)^[i] readBytes).toNat = offsets[i]) ∧
      (nextRecord dir)^[offsets.length] readBytes = iSize := by
  induction tiled generalizing readBytes with
  | nil => exact ⟨fun i inside => absurd inside (Nat.not_lt_zero i), BitVec.eq_of_toNat_eq here⟩
  | @cons offset later before long aligned rest ih =>
    have next := (Tiled.next (.cons before long aligned rest) here).2.1
    obtain ⟨each, ends⟩ := ih next
    refine ⟨fun i inside => ?_, ends⟩
    cases i with
    | zero => exact here
    | succ i => exact each i (Nat.lt_of_succ_lt_succ inside)

theorem Tiled.walk_start {offsets : List Nat} (tiled : Tiled iSize.toNat dir 0 offsets) :
    (∀ i (inside : i < offsets.length), ((nextRecord dir)^[i] 0#32).toNat = offsets[i]) ∧
      (nextRecord dir)^[offsets.length] 0#32 = iSize :=
  tiled.walk BitVec.toNat_zero

/-- A prefix of a list against a prefix of the elements with a property. -/
theorem take_eq_take_filter_iff {α : Type*} (xs : List α) (p : α → Bool) (t m : Nat) :
    xs.take t = (xs.filter p).take m ↔
      (∀ x ∈ xs.take t, p x = true) ∧ min t xs.length = min m (xs.filter p).length := by
  constructor
  · intro same
    refine ⟨fun x among => ?_, ?_⟩
    · rw [same] at among
      exact (List.mem_filter.mp (List.mem_of_mem_take among)).2
    · rw [← List.length_take, ← List.length_take, same]
  · rintro ⟨all, lengths⟩
    have kept : xs.filter p = xs.take t ++ (xs.drop t).filter p := by
      conv_lhs => rw [← List.take_append_drop t xs, List.filter_append, List.filter_eq_self.mpr all]
    rw [kept, List.length_append, List.length_take] at lengths
    rw [kept, List.take_append, List.length_take]
    by_cases few : m ≤ min t xs.length
    · have whole : m = (xs.take t).length := by
        rw [List.length_take]
        omega
      rw [Nat.sub_eq_zero_of_le few, List.take_zero, List.append_nil, whole, List.take_length]
    · have nothing : (xs.drop t).filter p = [] := List.eq_nil_of_length_eq_zero (by omega)
      have short : (xs.take t).length ≤ m := by
        rw [List.length_take]
        omega
      rw [nothing, List.take_nil, List.append_nil, List.take_of_length_le short]

/-- Up to the room's end the bytes of one record more are counted as they are. -/
theorem bytes_unwrapped {written : Nat} (few : written < allRecords) :
    sizeofDirent * (written + 1) % 2 ^ 32 = sizeofDirent * (written + 1) := by
  unfold allRecords at few
  apply Nat.mod_eq_of_lt
  unfold sizeofDirent
  omega

section FirstStop

variable {c : Nat → Nat} {len before count : Nat} (zero : c 0 = 0) (step : ∀ i, c i ≤ c (i + 1) ∧ c (i + 1) ≤ c i + 1)
  (le : c (before + 1) ≤ c len)
  (ends : before + 1 = len ∨ count ≤ sizeofDirent * (c (before + 1) + 1) % 2 ^ 32)
  (first : ∀ i, 0 < i → i < before + 1 → sizeofDirent * (c i + 1) % 2 ^ 32 < count)

theorem first_counted_le {c : Nat → Nat} (step : ∀ i, c i ≤ c (i + 1) ∧ c (i + 1) ≤ c i + 1) (i : Nat) : c 1 ≤ c (i + 1) := by
  induction i with
  | zero => exact Nat.le_refl _
  | succ i ih => exact ih.trans (step (i + 1)).1

include zero step le ends first

/-- Where the buffer is no larger than the room, the number of bytes has not come around at its end. -/
theorem first_stop_narrow (narrow : count ≤ sizeofDirent * allRecords) :
    c (before + 1) = min (if c 1 = 0 ∧ count ≤ sizeofDirent then 0 else max 1 ((count - 1) / sizeofDirent)) (c len) := by
  have start : c 1 ≤ 1 := by
    have both := (step 0).2
    rwa [zero] at both
  have lastStep := step before
  have straight (written : Nat) (few : written < allRecords) := bytes_unwrapped few
  unfold sizeofDirent allRecords at *
  have unwrapped : ∀ i, i < before → 268 * (c (i + 1) + 1) < count := by
    intro i
    induction i with
    | zero =>
      intro upTo
      have test := first 1 Nat.one_pos (by omega)
      rwa [straight _ (by omega)] at test
    | succ i ih =>
      intro upTo
      have test := first (i + 1 + 1) (Nat.succ_pos _) (by omega)
      have grows := step (i + 1)
      have earlier := ih (by omega)
      rwa [straight _ (by omega)] at test
  have atEnd (same : before + 1 = len) : c (before + 1) = c len := by rw [same]
  cases before with
  | zero =>
    have one : c (0 + 1) = c 1 := rfl
    rw [straight _ (by omega)] at ends
    split <;> omega
  | succ before =>
    have room := unwrapped before (Nat.lt_succ_self _)
    have fewer := first_counted_le step before
    rw [straight _ (by omega)] at ends
    split <;> omega

omit zero first in
/-- In a larger one it comes around before the room ends, so that the loop goes on to the end, or past the room. -/
theorem first_stop_wide (bound : count < 2 ^ 32) (wide : sizeofDirent * allRecords < count) :
    (c len ≤ allRecords →
        c (before + 1) =
          min (if c 1 = 0 ∧ count ≤ sizeofDirent then 0 else max 1 ((count - 1) / sizeofDirent)) (c len)) ∧
      (allRecords < c len → allRecords < c (before + 1)) := by
  have most := first_counted_le step before
  have straight (written : Nat) (few : written < allRecords) := bytes_unwrapped few
  unfold sizeofDirent allRecords at *
  have goesOn (written : Nat) (few : written ≤ 16025997) : 268 * (written + 1) % 2 ^ 32 < count := by
    rcases Nat.lt_or_eq_of_le few with few | rfl
    · rw [straight _ few]
      omega
    · omega
  constructor
  · intro few
    have atEnd : before + 1 = len := by
      refine ends.resolve_right fun stops => ?_
      have more := goesOn _ (le.trans few)
      omega
    rw [atEnd]
    split <;> omega
  · intro more
    by_contra less
    rcases ends with atEnd | stops
    · exact absurd (atEnd ▸ Nat.le_of_not_lt less) (Nat.not_le.mpr more)
    · have more := goesOn _ (Nat.le_of_not_lt less)
      omega

end FirstStop

/-- The records written when the test first ends the loop, by a counter of those so far. -/
theorem first_stop_count {c : Nat → Nat} {len last count : Nat} (zero : c 0 = 0)
    (step : ∀ i, c i ≤ c (i + 1) ∧ c (i + 1) ≤ c i + 1) (bound : count < 2 ^ 32) (after : 0 < last) (le : c last ≤ c len)
    (ends : last = len ∨ count ≤ sizeofDirent * (c last + 1) % 2 ^ 32)
    (first : ∀ i, 0 < i → i < last → sizeofDirent * (c i + 1) % 2 ^ 32 < count) :
    (count ≤ sizeofDirent * allRecords ∨ c len ≤ allRecords →
        c last = min (if c 1 = 0 ∧ count ≤ sizeofDirent then 0 else max 1 ((count - 1) / sizeofDirent)) (c len)) ∧
      (¬(count ≤ sizeofDirent * allRecords ∨ c len ≤ allRecords) → allRecords < c last) := by
  obtain ⟨before, rfl⟩ := Nat.exists_eq_add_one.mpr after
  by_cases narrow : count ≤ sizeofDirent * allRecords
  · exact ⟨fun _ => first_stop_narrow zero step le ends first narrow, fun neither => absurd (Or.inl narrow) neither⟩
  · obtain ⟨inside, beyond⟩ := first_stop_wide step le ends bound (Nat.lt_of_not_le narrow)
    exact ⟨fun either => inside (either.resolve_left narrow), fun neither => beyond (Nat.lt_of_not_le (not_or.mp neither).2)⟩

section WellFormed

variable {offsets : List Nat}

/-- How many of the first records have a name. -/
def namedCount (dir : Block) (offsets : List Nat) (places : Nat) : Nat := (namedOffsets dir (offsets.take places)).length

theorem namedCount_step (places : Nat) : namedCount dir offsets places ≤ namedCount dir offsets (places + 1) ∧
    namedCount dir offsets (places + 1) ≤ namedCount dir offsets places + 1 := by
  have split : namedOffsets dir (offsets.take (places + 1)) =
      namedOffsets dir (offsets.take places) ++ namedOffsets dir offsets[places]?.toList := by
    rw [namedOffsets, List.take_add_one, List.filter_append]
    rfl
  have single : (namedOffsets dir offsets[places]?.toList).length ≤ 1 := by
    refine (List.length_filter_le _ _).trans ?_
    cases offsets[places]? with
    | none => exact Nat.zero_le _
    | some offset => exact Nat.le_refl _
  rw [namedCount, namedCount, split, List.length_append]
  omega

theorem namedOffsets_take (places : Nat) :
    namedOffsets dir (offsets.take places) = (namedOffsets dir offsets).take (namedCount dir offsets places) := by
  have split : namedOffsets dir offsets =
      namedOffsets dir (offsets.take places) ++ namedOffsets dir (offsets.drop places) := by
    rw [namedOffsets, namedOffsets, namedOffsets, ← List.filter_append, List.take_append_drop]
  rw [split, namedCount, List.take_left]

theorem namedCount_le (places : Nat) : namedCount dir offsets places ≤ (namedOffsets dir offsets).length := by
  rw [namedCount, namedOffsets_take]
  exact List.length_take_le' _ _

theorem Tiled.visited (tiled : Tiled iSize.toNat dir 0 offsets) {places : Nat} (le : places ≤ offsets.length) :
    ((List.range places).map fun i => (nextRecord dir)^[i] 0#32).map BitVec.toNat = offsets.take places := by
  refine List.ext_getElem ?_ fun i inside inside' => ?_
  · rw [List.length_map, List.length_map, List.length_range, List.length_take]
    omega
  · rw [List.length_take] at inside'
    rw [List.getElem_map, List.getElem_map, List.getElem_range, List.getElem_take]
    exact tiled.walk_start.1 i (by omega)

theorem Tiled.length_records (tiled : Tiled iSize.toNat dir 0 offsets) {places : Nat} (le : places ≤ offsets.length) :
    (RecordListing.records (listedEntry dir) (nextRecord dir) 0#32 places).length = namedCount dir offsets places := by
  have listed := @filterMap_listedEntry dir ((List.range places).map fun i => (nextRecord dir)^[i] 0#32)
  rw [tiled.visited le, List.filterMap_map] at listed
  rw [namedCount, namedOffsets, ← List.length_map (entryDirent dir), ← listed]
  rfl

/-- The test behind so many records of well-formed contents. -/
theorem Tiled.stops_iff (tiled : Tiled iSize.toNat dir 0 offsets) {places : Nat} (le : places ≤ offsets.length) :
    EntriesEnd dir iSize count places ↔
      places = offsets.length ∨ count.toNat ≤ sizeofDirent * (namedCount dir offsets places + 1) % 2 ^ 32 := by
  rw [EntriesEnd, RecordListing.Stops, RecordListing.usedAfter, tiled.length_records le, ← BitVec.ofNat_add, BitVec.le_def,
    BitVec.toNat_ofNat, ← Nat.mul_succ]
  refine or_congr_left ?_
  rw [decide_eq_false_iff_not]
  constructor
  · intro past
    by_contra other
    have inside : places < offsets.length := Nat.lt_of_le_of_ne le other
    have here := tiled.walk_start.1 places inside
    have bounds := tiled.bounds offsets[places] (List.getElem_mem inside)
    rw [BitVec.lt_def, here] at past
    omega
  · rintro rfl
    rw [tiled.walk_start.2]
    exact BitVec.lt_irrefl iSize

/-- The records in use are among those with a name. -/
theorem WellFormedContents.liveOffsets_eq (formed : WellFormedContents dir iSize offsets) :
    liveOffsets dir offsets = (namedOffsets dir offsets).filter fun offset => Live dir offset := by
  rw [liveOffsets, namedOffsets, List.filter_filter]
  refine List.filter_congr fun offset among => ?_
  rw [Bool.eq_iff_iff, Bool.and_eq_true, decide_eq_true_iff, decide_eq_true_iff]
  exact ⟨fun live => ⟨live, (formed.live offset among live).named⟩, fun both => both.1⟩

/-- How many records are written before the listing ends. -/
theorem WellFormedContents.namedCount_last (formed : WellFormedContents dir iSize offsets) {last : Nat} (after : 0 < last)
    (le : last ≤ offsets.length) (ends : EntriesEnd dir iSize count last)
    (first : ∀ i, 0 < i → i < last → ¬EntriesEnd dir iSize count i) :
    (count.toNat ≤ sizeofDirent * allRecords ∨ (namedOffsets dir offsets).length ≤ allRecords →
        namedCount dir offsets last = min (listedCount dir count) (namedOffsets dir offsets).length) ∧
      (¬(count.toNat ≤ sizeofDirent * allRecords ∨ (namedOffsets dir offsets).length ≤ allRecords) →
        allRecords < namedCount dir offsets last) := by
  have tiled := formed.tiled
  have nameless : namedCount dir offsets 1 = 0 ↔ nameLen dir 0 = 0 := by
    cases offsets with
    | nil => exact absurd (after.trans_le le) (Nat.lt_irrefl 0)
    | cons offset later =>
      have start : offset = 0 := (tiled.next BitVec.toNat_zero).1
      rw [start, namedCount, List.take_succ_cons, List.take_zero, namedOffsets, List.length_eq_zero_iff, List.filter_eq_nil_iff]
      simp only [List.mem_singleton, forall_eq, decide_eq_true_eq, not_not]
  have all : namedCount dir offsets offsets.length = (namedOffsets dir offsets).length := by
    rw [namedCount, List.take_length]
  have upTo : namedCount dir offsets last ≤ namedCount dir offsets offsets.length := by
    rw [all]
    exact namedCount_le last
  have tests (i : Nat) (positive : 0 < i) (before : i < last) :
      sizeofDirent * (namedCount dir offsets i + 1) % 2 ^ 32 < count.toNat := by
    have goesOn := first i positive before
    rw [tiled.stops_iff (by omega), not_or] at goesOn
    exact Nat.lt_of_not_le goesOn.2
  have counted := first_stop_count rfl namedCount_step count.isLt after upTo ((tiled.stops_iff le).mp ends) tests
  rw [all] at counted
  simp only [nameless] at counted
  exact counted

theorem WellFormedContents.listsLive_iff (formed : WellFormedContents dir iSize offsets) :
    ListsLive dir iSize count offsets ↔ LiveFirst dir count offsets := by
  have tiled := formed.tiled
  have nonempty : 0 < offsets.length := by
    cases offsets with
    | nil => exact absurd tiled.ends formed.positive.ne
    | cons => exact Nat.succ_pos _
  have atEnd : EntriesEnd dir iSize count offsets.length := (tiled.stops_iff (Nat.le_refl _)).mpr (.inl rfl)
  have listed {fuel last : Nat} (le : last ≤ offsets.length)
      (visited : visitedEntries fuel dir iSize count = (List.range last).map fun i => (nextRecord dir)^[i] 0#32) :
      listedOffsets fuel dir iSize count = (namedOffsets dir offsets).take (namedCount dir offsets last) := by
    rw [listedOffsets, visited, tiled.visited le]
    exact namedOffsets_take last
  constructor
  · rintro ⟨fuel, result, run, same⟩
    obtain ⟨last, after, ends, first, -, visited⟩ := RecordListing.visits_of_list run
    have le : last ≤ offsets.length := by
      by_contra less
      exact first _ nonempty (Nat.lt_of_not_le less) atEnd
    obtain ⟨fits, past⟩ := formed.namedCount_last after le ends first
    rw [listed le visited, ← liveOffsets] at same
    by_cases narrow : count.toNat ≤ sizeofDirent * allRecords ∨ (namedOffsets dir offsets).length ≤ allRecords
    · refine ⟨narrow, ?_⟩
      rw [fits narrow, formed.liveOffsets_eq, ← List.take_eq_take_min, take_eq_take_filter_iff] at same
      simp only [decide_eq_true_eq] at same
      rw [formed.liveOffsets_eq]
      exact same
    · -- more records are written than there can be room for
      have many := past narrow
      have written := congrArg List.length same
      have whole := count.isLt
      rw [List.length_take, List.length_take] at written
      have upTo := @namedCount_le dir offsets last
      unfold sizeofDirent allRecords at *
      omega
  · rintro ⟨narrow, live⟩
    obtain ⟨last, after, le, ends, first⟩ := RecordListing.exists_first_stop nonempty atEnd
    obtain ⟨fuel, run, visited⟩ := RecordListing.exists_list_visits after ends first
    refine ⟨fuel, _, run, ?_⟩
    rw [formed.liveOffsets_eq] at live
    rw [listed le visited, ← liveOffsets, (formed.namedCount_last after le ends first).1 narrow, formed.liveOffsets_eq,
      ← List.take_eq_take_min, take_eq_take_filter_iff]
    simp only [decide_eq_true_eq]
    exact live

end WellFormed

/-! ## The search for a name -/

/-- The bytes of the string at an offset, as `strlen` reads them. -/
theorem memory_add (dir : Block) {s i : Nat} (inside : s + i < 2 ^ 32) :
    dir (BitVec.ofNat 32 s + BitVec.ofNat 32 i).toNat = dir (s + i) := by
  rw [← BitVec.ofNat_add, BitVec.toNat_ofNat, Nat.mod_eq_of_lt inside]

/-- A string that ends inside the contents is copied, and nothing behind its end is read. -/
theorem strndup_of_zero {s k n : Nat} (inside : s + k < iSize.toNat) (zero : dir (s + k) = 0#8) :
    ∃ len ≤ k, strndup dir s n =
      some ((List.range (if len < n then len else n)).map fun i => dir (s + i), len + 1) ∧ dir (s + len) = 0#8 := by
  have top := iSize.isLt
  have ends := (memory_add dir (show s + k < 2 ^ 32 by omega)).trans zero
  obtain ⟨len, le, measured⟩ := @strlen_of_zero (fun address => dir address.toNat) _ _ ends (by omega)
  have last := (strlen_spec measured).2.1
  rw [memory_add dir (by omega)] at last
  exact ⟨len, le, by rw [strndup, measured, Option.map_some], last⟩

theorem strndup_reads {s n read : Nat} {text : List Byte} (copied : strndup dir s n = some (text, read))
    (inside : s + read ≤ iSize.toNat) : ∃ k, s + k < iSize.toNat ∧ dir (s + k) = 0#8 := by
  have top := iSize.isLt
  obtain ⟨slen, measured, same⟩ := Option.map_eq_some_iff.mp copied
  cases same
  refine ⟨slen, by omega, ?_⟩
  rw [← memory_add dir (by omega)]
  exact (strlen_spec measured).2.1

/-- The search takes one of four ways at a record. -/
theorem searchName_found {readBytes : Word} (same : (entryInode dir readBytes.toNat).setWidth 64 = id) (fuel : Nat)
    (reads : List (Nat × Nat)) : searchName dir iSize id granted (fuel + 1) readBytes reads =
      (strndup dir (readBytes.toNat + 8) (nameLen dir readBytes.toNat)).map fun copied =>
        ⟨.ok (if granted then some copied.1 else none, nameLen dir readBytes.toNat),
          reads ++ [(readBytes.toNat, 4), (readBytes.toNat + 6, 1), (readBytes.toNat + 8, copied.2)], some 0#32⟩ := by
  rw [searchName]
  exact if_pos same

theorem searchName_passed {readBytes : Word} (other : (entryInode dir readBytes.toNat).setWidth 64 ≠ id) (fuel : Nat)
    (reads : List (Nat × Nat)) : searchName dir iSize id granted (fuel + 1) readBytes reads =
      if nextRecord dir readBytes < iSize then
        if entryInode dir (nextRecord dir readBytes).toNat ≠ 0#32 then
          searchName dir iSize id granted fuel (nextRecord dir readBytes)
            (reads ++ [(readBytes.toNat, 4), (readBytes.toNat + 4, 2)])
        else some ⟨.error (-enoent), reads ++ [(readBytes.toNat, 4), (readBytes.toNat + 4, 2)] ++
          [((nextRecord dir readBytes).toNat, 4)], some (nextRecord dir readBytes)⟩
      else some ⟨.error (-enoent), reads ++ [(readBytes.toNat, 4), (readBytes.toNat + 4, 2)],
        some (nextRecord dir readBytes)⟩ := by
  rw [searchName]
  exact if_neg other

theorem inBlock_header {readBytes : Word} :
    InBlock iSize.toNat [(readBytes.toNat, 4), (readBytes.toNat + 4, 2)] ↔ readBytes.toNat + 6 ≤ iSize.toNat := by
  simp only [InBlock, List.forall_mem_cons, List.not_mem_nil, false_implies, implies_true, and_true]
  omega

theorem SearchStays.runs {readBytes : Word} (stays : SearchStays dir iSize id readBytes) {reads : List (Nat × Nat)}
    (sofar : InBlock iSize.toNat reads) : ∃ fuel search,
      searchName dir iSize id granted fuel readBytes reads = some search ∧ InBlock iSize.toNat search.reads ∧
        search.freed = some 0#32 := by
  induction stays generalizing reads with
  | @found readBytes k inside same zero =>
    obtain ⟨len, le, copied, -⟩ := strndup_of_zero (n := nameLen dir readBytes.toNat) inside zero
    refine ⟨1, _, (searchName_found same 0 reads).trans (by rw [copied]; rfl), inBlock_append.mpr ⟨sofar, ?_⟩, rfl⟩
    simp only [InBlock, List.forall_mem_cons, List.not_mem_nil, false_implies, implies_true, and_true]
    omega
  | @unused readBytes inside other home unused =>
    have more : nextRecord dir readBytes < iSize := by
      rw [BitVec.lt_def, home, BitVec.toNat_ofNat]
      omega
    have idle : ¬entryInode dir (nextRecord dir readBytes).toNat ≠ 0#32 := by
      rw [home]
      exact not_not.mpr unused
    refine ⟨1, _, ((searchName_passed other 0 reads).trans (if_pos more)).trans (if_neg idle), ?_, congrArg some home⟩
    refine inBlock_append.mpr ⟨inBlock_append.mpr ⟨sofar, inBlock_header.mpr inside⟩, ?_⟩
    refine List.forall_mem_singleton.mpr ?_
    rw [home, BitVec.toNat_ofNat]
    omega
  | step inside other more used rest ih =>
    obtain ⟨fuel, search, run, right⟩ := ih (inBlock_append.mpr ⟨sofar, inBlock_header.mpr inside⟩)
    exact ⟨fuel + 1, search, ((searchName_passed other fuel reads).trans (if_pos more)).trans ((if_pos used).trans run),
      right⟩

theorem searchStays_of_run {fuel : Nat} {readBytes : Word} {reads : List (Nat × Nat)} {search : NameSearch}
    (run : searchName dir iSize id granted fuel readBytes reads = some search)
    (all : InBlock iSize.toNat search.reads) (own : search.freed = some 0#32) :
    SearchStays dir iSize id readBytes ∧ InBlock iSize.toNat reads := by
  induction fuel generalizing readBytes reads with
  | zero => cases run
  | succ fuel ih =>
    by_cases same : (entryInode dir readBytes.toNat).setWidth 64 = id
    · rw [searchName_found same] at run
      obtain ⟨⟨text, read⟩, copied, rfl⟩ := Option.map_eq_some_iff.mp run
      obtain ⟨before, here⟩ := inBlock_append.mp all
      have inside : readBytes.toNat + 8 + read ≤ iSize.toNat := here (readBytes.toNat + 8, read) (by simp)
      obtain ⟨k, ends, zero⟩ := strndup_reads copied inside
      exact ⟨.found ends same zero, before⟩
    · rw [searchName_passed same] at run
      by_cases more : nextRecord dir readBytes < iSize
      · rw [if_pos more] at run
        by_cases used : entryInode dir (nextRecord dir readBytes).toNat ≠ 0#32
        · rw [if_pos used] at run
          obtain ⟨rest, upTo⟩ := ih run
          obtain ⟨before, header⟩ := inBlock_append.mp upTo
          exact ⟨.step (inBlock_header.mp header) same more used rest, before⟩
        · rw [if_neg used] at run
          cases run
          have home : nextRecord dir readBytes = 0#32 := Option.some.inj own
          obtain ⟨upTo, -⟩ := inBlock_append.mp all
          obtain ⟨before, header⟩ := inBlock_append.mp upTo
          rw [home] at used
          exact ⟨.unused (inBlock_header.mp header) same home (not_not.mp used), before⟩
      · -- behind the end the pointer has moved
        rw [if_neg more] at run
        cases run
        have home : nextRecord dir readBytes = 0#32 := Option.some.inj own
        obtain ⟨-, header⟩ := inBlock_append.mp all
        have inside := inBlock_header.mp header
        rw [home, BitVec.lt_def, BitVec.toNat_ofNat] at more
        omega

theorem searchesInside_iff : SearchesInside dir iSize id granted ↔ SearchStays dir iSize id 0#32 := by
  constructor
  · rintro ⟨fuel, search, run, all, own⟩
    exact (searchStays_of_run run all own).1
  · intro stays
    exact stays.runs (List.forall_mem_nil _)

section Naming

variable {offsets : List Nat}

/-- A found name is that of a record of the node, and the records before it, but for the first, are in use. -/
theorem Tiled.named_of_run {offset : Nat} (tiled : Tiled iSize.toNat dir offset offsets) {fuel : Nat} {readBytes : Word}
    (here : readBytes.toNat = offset) (more : offsets ≠ []) {reads : List (Nat × Nat)} {search : NameSearch}
    (run : searchName dir iSize id granted fuel readBytes reads = some search) {text : List Byte} {len : Nat}
    (found : search.result = .ok (some text, len)) :
    granted = true ∧ ∃ before named behind, offsets = before ++ named :: behind ∧
      (entryInode dir named).setWidth 64 = id ∧ ∀ other ∈ before.tail, Live dir other := by
  induction fuel generalizing readBytes reads offset offsets with
  | zero => cases run
  | succ fuel ih =>
    cases offsets with
    | nil => exact absurd rfl more
    | cons first later =>
      obtain ⟨start, next, rest⟩ := tiled.next here
      by_cases same : (entryInode dir readBytes.toNat).setWidth 64 = id
      · rw [searchName_found same] at run
        obtain ⟨copied, -, rfl⟩ := Option.map_eq_some_iff.mp run
        refine ⟨?_, [], first, later, rfl, ?_, List.forall_mem_nil _⟩
        · cases granted with
          | true => rfl
          | false => cases found
        · rw [start, ← here, same]
      · rw [searchName_passed same] at run
        by_cases further : nextRecord dir readBytes < iSize
        swap
        · rw [if_neg further] at run
          cases run
          cases found
        rw [if_pos further] at run
        by_cases used : entryInode dir (nextRecord dir readBytes).toNat ≠ 0#32
        swap
        · rw [if_neg used] at run
          cases run
          cases found
        rw [if_pos used] at run
        have nonempty : later ≠ [] := by
          rintro rfl
          rw [BitVec.lt_def, next, rest.ends] at further
          exact Nat.lt_irrefl _ further
        obtain ⟨memory, before, named, behind, rfl, node, live⟩ := ih rest next nonempty run
        refine ⟨memory, first :: before, named, behind, rfl, node, fun other among => ?_⟩
        -- the record behind the first is in use, or the search would have ended at it
        cases before with
        | nil => cases among
        | cons second before =>
          rcases List.mem_cons.mp among with rfl | among
          · rw [(rest.next next).1, ← next]
            exact used
          · exact live other among

/-- The name of a record in use is copied as it is. -/
theorem WellFormedEntry.copied {size offset : Nat} (formed : WellFormedEntry size dir offset) {len : Nat}
    (zero : dir (offset + 8 + len) = 0#8) :
    ((List.range (if len < nameLen dir offset then len else nameLen dir offset)).map fun i => dir (offset + 8 + i)) =
      entryName dir offset := by
  have long : ¬len < nameLen dir offset := fun short =>
    formed.text (List.mem_map.mpr ⟨len, List.mem_range.mpr short, zero⟩)
  rw [if_neg long]
  rfl

/-- At a record of the node the search ends with its name. -/
theorem SearchStays.names {readBytes : Word} (stays : SearchStays dir iSize id readBytes)
    (same : (entryInode dir readBytes.toNat).setWidth 64 = id) {size : Nat}
    (formed : WellFormedEntry size dir readBytes.toNat) (reads : List (Nat × Nat)) :
    ∃ fuel search, searchName dir iSize id true fuel readBytes reads = some search ∧
      search.result = .ok (some (entryName dir readBytes.toNat), nameLen dir readBytes.toNat) := by
  have string : ∃ k, readBytes.toNat + 8 + k < iSize.toNat ∧ dir (readBytes.toNat + 8 + k) = 0#8 := by
    cases stays with
    | found inside _ zero => exact ⟨_, inside, zero⟩
    | unused _ other => exact absurd same other
    | step _ other => exact absurd same other
  obtain ⟨k, inside, zero⟩ := string
  obtain ⟨len, -, copied, ends⟩ := strndup_of_zero (n := nameLen dir readBytes.toNat) inside zero
  rw [formed.copied ends] at copied
  exact ⟨1, _, (searchName_found same 0 reads).trans (by rw [copied]; rfl), rfl⟩

/-- A record of the node is come to over records in use. -/
theorem SearchStays.finds {before : List Nat} {offset named : Nat} {behind : List Nat}
    (tiled : Tiled iSize.toNat dir offset (before ++ named :: behind)) {readBytes : Word}
    (here : readBytes.toNat = offset) (stays : SearchStays dir iSize id readBytes)
    (formed : ∀ record ∈ before ++ named :: behind, Live dir record → WellFormedEntry iSize.toNat dir record)
    (node : (entryInode dir named).setWidth 64 = id) (nonzero : id ≠ 0#64)
    (live : ∀ other ∈ before.tail, Live dir other) (reads : List (Nat × Nat)) :
    ∃ fuel search, searchName dir iSize id true fuel readBytes reads = some search ∧
      ∃ record ∈ before ++ named :: behind, (entryInode dir record).setWidth 64 = id ∧
        search.result = .ok (some (entryName dir record), nameLen dir record) := by
  have used {record : Nat} (same : (entryInode dir record).setWidth 64 = id) : Live dir record := by
    intro zero
    rw [zero] at same
    exact nonzero same.symm
  induction before generalizing offset readBytes reads with
  | nil =>
    have start : readBytes.toNat = named := here.trans (tiled.next here).1.symm
    have form := formed named List.mem_cons_self (used node)
    rw [← start] at node form
    obtain ⟨fuel, search, run, name⟩ := stays.names node form reads
    exact ⟨fuel, search, run, readBytes.toNat, start ▸ List.mem_cons_self, node, name⟩
  | cons first before ih =>
    obtain ⟨same, next, rest⟩ := tiled.next here
    rw [List.append_eq] at rest
    have start : readBytes.toNat = first := here.trans same.symm
    by_cases same : (entryInode dir readBytes.toNat).setWidth 64 = id
    · have form := formed first List.mem_cons_self (start ▸ used same)
      rw [← start] at form
      obtain ⟨fuel, search, run, name⟩ := stays.names same form reads
      exact ⟨fuel, search, run, readBytes.toNat, start ▸ List.mem_cons_self, same, name⟩
    -- the next record is one before that of the node, or that one
    have following : ∃ second later, before ++ named :: behind = second :: later ∧ Live dir second := by
      cases before with
      | nil => exact ⟨named, behind, rfl, used node⟩
      | cons second before => exact ⟨second, before ++ named :: behind, rfl, live second List.mem_cons_self⟩
    obtain ⟨second, later, split, alive⟩ := following
    have place : second = (nextRecord dir readBytes).toNat := by
      rw [split] at rest
      exact (rest.next next).1.trans next.symm
    have among : second ∈ before ++ named :: behind := by
      rw [split]
      exact List.mem_cons_self
    have bounds := rest.bounds second among
    rw [place] at bounds alive
    cases stays with
    | found _ same' => exact absurd same' same
    | unused _ _ home unused =>
      rw [home] at alive
      exact absurd unused alive
    | step _ _ more live' further =>
      have ahead (other : Nat) (among : other ∈ before.tail) : Live dir other := live other (List.mem_of_mem_tail among)
      have forms (record : Nat) (among : record ∈ before ++ named :: behind) := formed record (.tail _ among)
      obtain ⟨fuel, search, run, record, among', node', name⟩ :=
        ih rest next further forms ahead (reads ++ [(readBytes.toNat, 4), (readBytes.toNat + 4, 2)])
      refine ⟨fuel + 1, search, ?_, record, .tail _ among', node', name⟩
      exact ((searchName_passed same fuel reads).trans (if_pos more)).trans ((if_pos live').trans run)

theorem WellFormedContents.namesNode_iff (formed : WellFormedContents dir iSize offsets)
    (stays : SearchStays dir iSize id 0#32) :
    NamesNode dir iSize id granted offsets ↔ NodeEarly dir id granted offsets := by
  refine forall₂_congr fun offset among => forall₂_congr fun live node => ?_
  have nonempty : offsets ≠ [] := List.ne_nil_of_mem among
  have nonzero : id ≠ 0#64 := by
    rintro rfl
    refine live (BitVec.eq_of_toNat_eq ?_)
    have zero := congrArg BitVec.toNat node
    have top := (entryInode dir offset).isLt
    rw [BitVec.toNat_setWidth, Nat.mod_eq_of_lt (by omega)] at zero
    exact zero
  constructor
  · rintro ⟨fuel, search, run, named, -, -, found⟩
    exact formed.tiled.named_of_run BitVec.toNat_zero nonempty run found
  · rintro ⟨rfl, before, named, behind, rfl, named', live⟩
    exact stays.finds formed.tiled BitVec.toNat_zero formed.live named' nonzero live []

end Naming

/-! ## Both walks -/

theorem walksRightly_iff : WalksRightly dir iSize count id granted ↔ WalkedRightly dir iSize count id granted := by
  constructor
  · rintro ⟨listsInside, searchesInside, listsLive, namesNode⟩
    have stays := searchesInside_iff.mp searchesInside
    exact ⟨listsInside_iff.mp listsInside, stays, fun offsets formed => formed.listsLive_iff.mp (listsLive offsets formed),
      fun offsets formed => (formed.namesNode_iff stays).mp (namesNode offsets formed)⟩
  · rintro ⟨entriesInside, stays, liveFirst, nodeEarly⟩
    exact ⟨listsInside_iff.mpr entriesInside, searchesInside_iff.mpr stays,
      fun offsets formed => formed.listsLive_iff.mpr (liveFirst offsets formed),
      fun offsets formed => (formed.namesNode_iff stays).mpr (nodeEarly offsets formed)⟩

section Disks

variable (disk : Disk) (heap : DirtyHeap) (privdata : Ext2Privdata) (inode : Ext2Inode) (request : Nat)

/-- The calls on a directory are the walks through what `ReadData` leaves. -/
theorem calls_eq (directory : VFS.sIsdir (inode.iMode.setWidth 32) = true) (grants : heap.grants request = true)
    {readFuel : Nat} (read : directoryData disk heap privdata readFuel inode request = some dir) (fuel : Nat) :
    getDEnts disk heap privdata readFuel fuel inode request count =
        (listEntries fuel dir inode.iSize count).map listed ∧
      name disk heap privdata readFuel fuel inode request id granted =
        searchName dir inode.iSize id granted fuel 0#32 [] := by
  have notFile : ¬VFS.sIsdir (inode.iMode.setWidth 32) = false := ne_false_of_eq_true directory
  have memory : ¬heap.grants request = false := ne_false_of_eq_true grants
  rw [getDEnts, name, if_neg notFile, if_neg notFile, if_neg memory, if_neg memory, read]
  exact ⟨rfl, rfl⟩

/-- `GetDEnts` and `Name` on a directory of a disk: `ReadData` ends, and what it leaves is walked through rightly. -/
def DirectoryWalks (count : Word) (id : BitVec 64) (granted : Bool) : Prop :=
  VFS.sIsdir (inode.iMode.setWidth 32) = true → heap.grants request = true →
    ∃ readFuel dir, directoryData disk heap privdata readFuel inode request = some dir ∧
      WalksRightly dir inode.iSize count id granted

/-- **Walks through a directory of a disk** are right exactly if its contents let them be. -/
theorem directoryWalks_iff (count : Word) (id : BitVec 64) (granted : Bool) :
    DirectoryWalks disk heap privdata inode request count id granted ↔
      (VFS.sIsdir (inode.iMode.setWidth 32) = true → heap.grants request = true →
        ∃ readFuel dir, directoryData disk heap privdata readFuel inode request = some dir ∧
          WalkedRightly dir inode.iSize count id granted) := by
  refine imp_congr_right fun _ => imp_congr_right fun _ => exists_congr fun _ => exists_congr fun dir => ?_
  exact and_congr_right fun _ => walksRightly_iff

end Disks

/-- A record of length 0 without a name leads to itself. -/
theorem not_entriesInside {dir : Block} (length : recLen dir 0 = 0) (nameless : nameLen dir 0 = 0) {iSize count : Word}
    (bytes : 0#32 < iSize) (room : 268#32 < count) : ¬EntriesInside dir iSize count := by
  rintro ⟨places, -, ends, -⟩
  have stays : nextRecord dir 0#32 = 0#32 := by rw [nextRecord, BitVec.toNat_zero, length, BitVec.add_zero]
  have here (i : Nat) : (nextRecord dir)^[i] 0#32 = 0#32 := Function.iterate_fixed stays i
  have nothing : RecordListing.records (listedEntry dir) (nextRecord dir) 0#32 places = [] := by
    refine List.filterMap_eq_nil_iff.mpr fun i _ => ?_
    rw [here]
    exact if_neg (not_not.mpr nameless)
  rcases ends with past | full
  · rw [here] at past
    exact of_decide_eq_false past bytes
  · rw [RecordListing.usedAfter, nothing] at full
    exact BitVec.not_lt.mpr full room

/-- An inode of a directory of 60 bytes, all of them 0, that are stored in the inode. -/
def zeroDirectory : Ext2Inode := fun i => if i = 1 then 0x40#8 else if i = 4 then 60#8 else 0#8

theorem zeroDirectory_loops :
    ¬DirectoryWalks (fun _ => 0#8) sampleHeap samplePrivdata zeroDirectory 0 1024#32 2#64 true := by
  intro walks
  obtain ⟨readFuel, dir, read, right⟩ := walks (by decide) rfl
  have zero : recLen dir 0 = 0 ∧ nameLen dir 0 = 0 := by
    cases read
    decide
  exact not_entriesInside zero.1 zero.2 (by decide) (by decide) (listsInside_iff.mp right.listsInside)

end FluxOS.Ext2
