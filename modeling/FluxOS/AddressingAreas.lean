import FluxOS.InodeTable
import FluxOS.Ext2Read

/-! The areas of a file that `Mount` computes the sizes of in 32 bits, and what `ReadData` divides by. -/
namespace FluxOS.Ext2
open Words UserMemoryOps BlockDevice

/-! ## What the sizes are for -/

/-- The bytes of a block, and the block numbers in it. -/
def blockBytes (sblock : Ext2SuperBlock) : Nat := 1024 * 2 ^ sblock.sLogBlockSize.toNat

def blockEntries (sblock : Ext2SuperBlock) : Nat := blockBytes sblock / 4

/-- The sizes of the areas, as numbers. -/
def directBytes (sblock : Ext2SuperBlock) : Nat := 12 * blockBytes sblock
def indirectBytes (sblock : Ext2SuperBlock) : Nat := blockBytes sblock * blockEntries sblock
def doubleIndirectBytes (sblock : Ext2SuperBlock) : Nat := indirectBytes sblock * blockEntries sblock

/-! ## What is divided by -/

section Divisors

variable (privdata : Ext2Privdata)

/-- The divisors of `ReadBlocksData`. -/
def blocksDivisors : List Word := [privdata.blockSize]

/-- Those of `ReadDoubleIndirectBlocksData`, with the reader it calls. -/
def doubleIndirectDivisors : List Word :=
  [privdata.indirectBlockEntries * privdata.blockSize, privdata.indirectBlocksAreaSize] ++ blocksDivisors privdata

/-- Those of `ReadTripleIndirectBlocksData`. -/
def tripleIndirectDivisors : List Word :=
  [privdata.indirectBlockEntries * privdata.indirectBlockEntries * privdata.blockSize,
    privdata.doubleIndirectBlocksAreaSize] ++ doubleIndirectDivisors privdata

/-- The divisors of a `ReadData` from a position on: those of the areas it comes to before it returns. -/
def readDivisors (inode : Ext2Inode) (pos : BitVec 64) (bufsize : Word) : List Word :=
  let size := inode.iSize.setWidth 64
  if size ≤ pos then []
  else
    let bufsize := if size < bufsize.setWidth 64 + pos then (size - pos).setWidth 32 else bufsize
    let stop := pos + bufsize.setWidth 64
    let endOfDirect := privdata.directBlocksAreaSize.setWidth 64
    let endOfIndirect := privdata.directIndirectBlocksAreaSize.setWidth 64
    let endOfDouble := privdata.dirIndirDIndirBlocksAreaSize.setWidth 64
    if 0#32 < inode.iSize ∧ inode.iBlocks = 0#32 then []
    else
      (if pos < endOfDirect then blocksDivisors privdata else []) ++
        if pos < endOfDirect ∧ stop < endOfDirect then []
        else
          (if pos < endOfIndirect then blocksDivisors privdata else []) ++
            if pos < endOfIndirect ∧ stop < endOfIndirect then []
            else
              (if pos < endOfDouble then doubleIndirectDivisors privdata else []) ++
                if pos < endOfDouble ∧ stop < endOfDouble then [] else tripleIndirectDivisors privdata

/-- The sizes that `Mount` keeps are the numbers they should be, and no read of any file divides by zero. -/
structure AreasRight : Prop where
  direct : privdata.directBlocksAreaSize.toNat = directBytes privdata.sblock
  indirect : privdata.indirectBlocksAreaSize.toNat = indirectBytes privdata.sblock
  doubleIndirect : privdata.doubleIndirectBlocksAreaSize.toNat = doubleIndirectBytes privdata.sblock
  directIndirect : privdata.directIndirectBlocksAreaSize.toNat =
    directBytes privdata.sblock + indirectBytes privdata.sblock
  dirIndirDIndir : privdata.dirIndirDIndirBlocksAreaSize.toNat =
    directBytes privdata.sblock + indirectBytes privdata.sblock + doubleIndirectBytes privdata.sblock
  ordered : privdata.directBlocksAreaSize < privdata.directIndirectBlocksAreaSize ∧
    privdata.directIndirectBlocksAreaSize < privdata.dirIndirDIndirBlocksAreaSize
  divisors : ∀ inode pos bufsize, ∀ divisor ∈ readDivisors privdata inode pos bufsize, divisor ≠ 0#32

end Divisors

section

variable {privdata : Ext2Privdata}

theorem blocksDivisors_subset : blocksDivisors privdata ⊆ doubleIndirectDivisors privdata :=
  List.subset_append_right _ _

theorem doubleIndirectDivisors_subset : doubleIndirectDivisors privdata ⊆ tripleIndirectDivisors privdata :=
  List.subset_append_right _ _

/-- Whatever is divided by is divided by in the triple indirect blocks. -/
theorem readDivisors_subset (inode : Ext2Inode) (pos : BitVec 64) (bufsize : Word) :
    readDivisors privdata inode pos bufsize ⊆ tripleIndirectDivisors privdata := by
  have blocks : blocksDivisors privdata ⊆ tripleIndirectDivisors privdata :=
    List.Subset.trans blocksDivisors_subset doubleIndirectDivisors_subset
  have part (condition : Prop) [Decidable condition] (divisors : List Word)
      (subset : divisors ⊆ tripleIndirectDivisors privdata) :
      (if condition then divisors else []) ⊆ tripleIndirectDivisors privdata := by
    split
    · exact subset
    · exact List.nil_subset _
  have rest (condition : Prop) [Decidable condition] (divisors : List Word)
      (subset : divisors ⊆ tripleIndirectDivisors privdata) :
      (if condition then [] else divisors) ⊆ tripleIndirectDivisors privdata := by
    split
    · exact List.nil_subset _
    · exact subset
  rw [readDivisors]
  refine rest _ _ (rest _ _ ?_)
  refine List.append_subset.mpr ⟨part _ _ blocks, rest _ _ ?_⟩
  refine List.append_subset.mpr ⟨part _ _ blocks, rest _ _ ?_⟩
  exact List.append_subset.mpr ⟨part _ _ doubleIndirectDivisors_subset, rest _ _ (List.Subset.refl _)⟩

/-- The sizes for blocks of 1024 and 2048 bytes. -/
theorem small_areas : ∀ log < 2,
    let blockSize := 1024#32 <<< BitVec.ofNat 32 log
    let entries := blockSize / 4#32
    let bytes := 1024 * 2 ^ log
    let direct := blockSize * ext2NdirBlocks
    let indirect := blockSize * entries
    direct.toNat = 12 * bytes ∧ indirect.toNat = bytes * (bytes / 4) ∧
      (indirect * entries).toNat = bytes * (bytes / 4) * (bytes / 4) ∧
      (direct + indirect).toNat = 12 * bytes + bytes * (bytes / 4) ∧
      (direct + indirect + blockSize * entries * entries).toNat =
        12 * bytes + bytes * (bytes / 4) + bytes * (bytes / 4) * (bytes / 4) ∧
      (direct < direct + indirect ∧ direct + indirect < direct + indirect + blockSize * entries * entries) ∧
      0#32 ∉ [entries * entries * blockSize, indirect * entries, entries * blockSize, indirect, blockSize] := by
  decide

/-- For larger blocks the bytes under a double indirect block are a multiple of `2 ^ 32`. -/
theorem large_areas : ∀ log < 7, 2 ≤ log →
    let blockSize := 1024#32 <<< BitVec.ofNat 32 log
    let entries := blockSize / 4#32
    let bytes := 1024 * 2 ^ log
    (blockSize * entries * entries).toNat ≠ bytes * (bytes / 4) * (bytes / 4) := by
  decide

theorem areasRight_iff {sblock : Ext2SuperBlock} (sizes : sblock.sLogBlockSize.toNat ≤ 6) :
    AreasRight (privdataOf sblock) ↔ sblock.sLogBlockSize.toNat ≤ 1 := by
  constructor
  · intro right
    by_contra larger
    have wrong := large_areas sblock.sLogBlockSize.toNat (by omega) (by omega)
    rw [BitVec.ofNat_toNat, BitVec.setWidth_eq] at wrong
    exact wrong right.doubleIndirect
  · intro small
    obtain ⟨direct, indirect, doubleIndirect, directIndirect, dirIndirDIndir, ordered, nonzero⟩ :=
      small_areas sblock.sLogBlockSize.toNat (by omega)
    rw [BitVec.ofNat_toNat, BitVec.setWidth_eq] at direct indirect doubleIndirect directIndirect dirIndirDIndir
    rw [BitVec.ofNat_toNat, BitVec.setWidth_eq] at ordered
    have divisors : 0#32 ∉ tripleIndirectDivisors (privdataOf sblock) := by
      simp only [BitVec.ofNat_toNat, BitVec.setWidth_eq] at nonzero
      simp only [tripleIndirectDivisors, doubleIndirectDivisors, blocksDivisors, List.cons_append, List.nil_append,
        privdataOf]
      exact nonzero
    refine ⟨direct, indirect, doubleIndirect, directIndirect, dirIndirDIndir, ordered, ?_⟩
    rintro inode pos bufsize divisor among rfl
    exact divisors (readDivisors_subset inode pos bufsize among)

theorem privdata_of_mount {disk : Disk} {heap : DirtyHeap} {request : Nat} {rootInode : Ext2Inode}
    (accepted : mount disk heap request = some (.ok (privdata, rootInode))) : privdata = privdataOf privdata.sblock := by
  simp only [mount] at accepted
  split at accepted
  · split at accepted
    · cases accepted
    · split at accepted
      · obtain ⟨read, _, found⟩ := Option.map_eq_some_iff.mp accepted
        cases read with
        | some inode =>
          cases found
          rfl
        | none => cases found
      · cases accepted
  · cases accepted

/-- **The areas of a file** that a mounted image has are right exactly if its blocks have 1024 or 2048 bytes. -/
theorem mounted_areas_iff (disk : Disk) (heap : DirtyHeap) (request : Nat) {rootInode : Ext2Inode}
    (accepted : mount disk heap request = some (.ok (privdata, rootInode)))
    (sizes : privdata.sblock.sLogBlockSize.toNat ≤ 6) :
    AreasRight privdata ↔ privdata.sblock.sLogBlockSize.toNat ≤ 1 := by
  have same := privdata_of_mount accepted
  rw [same]
  exact areasRight_iff sizes

end

/-- A device whose superblock has the given size of the blocks. -/
def blocksDisk (log : BitVec 8) : Disk := fun address => if address = 1048 then log else smallDisk 128#16 address

def blocksSuperBlock (log : BitVec 8) : Ext2SuperBlock := ⟨log.setWidth 32, 8#32, ext2Magic, 128#16⟩

theorem mount_blocksDisk {log : BitVec 8}
    (same : readSuperBlock (readBlock (blocksDisk log) 2#32 1#32 fun _ => 0#8) = blocksSuperBlock log) : ∃ rootInode,
    mount (blocksDisk log) (uniformHeap 0#8) 0 = some (.ok (privdataOf (blocksSuperBlock log), rootInode)) := by
  have read : readSuperBlock (readBlock (blocksDisk log) 2#32 1#32 ((uniformHeap 0#8).holds 0)) = blocksSuperBlock log :=
    same
  simp [mount, grants_uniformHeap, read, readInode, blocksSuperBlock]

theorem blocksDisk_areas : ∃ rootInode,
    mount (blocksDisk 1#8) (uniformHeap 0#8) 0 = some (.ok (privdataOf (blocksSuperBlock 1#8), rootInode)) ∧
      AreasRight (privdataOf (blocksSuperBlock 1#8)) := by
  obtain ⟨rootInode, accepted⟩ := @mount_blocksDisk 1#8 (by decide)
  exact ⟨rootInode, accepted, (mounted_areas_iff _ _ _ accepted (by decide)).mpr (by decide)⟩

/-- A file of four gigabytes. -/
def largeInode : Ext2Inode := fun _ => 255#8

/-- With blocks of 4096 bytes a double indirect block leads to four gigabytes: `Mount` keeps this as 0, and it is
divided by. -/
theorem large_blocks_divide_by_zero : ∃ rootInode,
    mount (blocksDisk 2#8) (uniformHeap 0#8) 0 = some (.ok (privdataOf (blocksSuperBlock 2#8), rootInode)) ∧
      0#32 ∈ readDivisors (privdataOf (blocksSuperBlock 2#8)) largeInode 0x10000000#64 512#32 ∧
      ¬AreasRight (privdataOf (blocksSuperBlock 2#8)) := by
  have zero : 0#32 ∈ readDivisors (privdataOf (blocksSuperBlock 2#8)) largeInode 0x10000000#64 512#32 := by
    decide
  obtain ⟨rootInode, accepted⟩ := @mount_blocksDisk 2#8 (by decide)
  exact ⟨rootInode, accepted, zero, fun right => right.divisors _ _ _ _ zero rfl⟩

end FluxOS.Ext2
