import FluxOS.Partitions

/-! `DiskPart::ReadBlock`: which sectors of the parent disk a request to a partition's device comes to. -/
namespace FluxOS.DiskPart
open Words UserMemoryOps BlockDevice

/-- A registered partition, with its `ParentBlockDevice`. -/
structure PartitionOn (Device : Type) where
  partition : Partition
  parentBlockDevice : Device

/-- A call of a disk's `ReadBlock`. -/
structure BlockRequest (Device : Type) where
  device : Device
  block : Word
  blockn : Word

variable {Device : Type}

/-- `Partitions->value(name)`: what was inserted last under the name. -/
def value (partitions : List (PartitionOn Device)) (name : List Byte) : Option (PartitionOn Device) :=
  partitions.reverse.find? fun entry => decide (entry.partition.name = name)

/-- `ReadBlock` of the device with this name: the request that it makes. -/
def readBlock (partitions : List (PartitionOn Device)) (name : List Byte) (block blockn : Word) :
    Option (BlockRequest Device) :=
  (value partitions name).map fun p => ⟨p.parentBlockDevice, p.partition.firstSector + block, blockn⟩

/-- The sectors that a request touches, as many as `blockn` says as an `int`. -/
def BlockRequest.sectors (request : BlockRequest Device) : List Nat :=
  List.range' request.block.toNat request.blockn.toInt.toNat

/-- The request is for sectors of the partition. -/
def Within (p : Partition) (block blockn : Word) : Prop :=
  0 ≤ block.toInt ∧ block.toInt + blockn.toInt ≤ p.length.toNat

/-- Only sectors of the partition are touched, and none at all unless the request is for these. -/
structure Isolated (p : PartitionOn Device) (block blockn : Word) (result : Option (BlockRequest Device)) : Prop where
  inside : ∀ request ∈ result, ∀ sector ∈ request.sectors, request.device = p.parentBlockDevice ∧
    p.partition.firstSector.toNat ≤ sector ∧ sector < p.partition.firstSector.toNat + p.partition.length.toNat
  refused : ¬Within p.partition block blockn → ∀ request ∈ result, request.sectors = []

/-- Counted from the first sector of the partition that was last registered under the name, the request comes out inside
the partition. That is the partition itself, unless another one was given the same name after it. -/
def ComesInside (partitions : List (PartitionOn Device)) (p : PartitionOn Device) (block blockn : Word) : Prop :=
  ∃ q, value partitions p.partition.name = some q ∧ q.parentBlockDevice = p.parentBlockDevice ∧
    p.partition.firstSector.toNat ≤ (q.partition.firstSector + block).toNat ∧
    (q.partition.firstSector + block).toNat + blockn.toInt ≤
      p.partition.firstSector.toNat + p.partition.length.toNat

section Requests

variable {partitions : List (PartitionOn Device)} {name : List Byte} {p q : PartitionOn Device} {block blockn : Word}

theorem readBlock_found (found : value partitions name = some q) : readBlock partitions name block blockn =
    some ⟨q.parentBlockDevice, q.partition.firstSector + block, blockn⟩ := by
  rw [readBlock, found]
  rfl

theorem value_registered (registered : p ∈ partitions) : ∃ q, value partitions p.partition.name = some q :=
  Option.isSome_iff_exists.mp (List.find?_isSome.mpr ⟨p, List.mem_reverse.mpr registered, decide_eq_true rfl⟩)

theorem mem_sectors {request : BlockRequest Device} {sector : Nat} : sector ∈ request.sectors ↔
    request.block.toNat ≤ sector ∧ sector < request.block.toNat + request.blockn.toInt.toNat :=
  List.mem_range'_1

/-- The partition finds its own request inside as long as there are numbers for the sectors. -/
theorem comesInside_own (found : value partitions p.partition.name = some p) (within : Within p.partition block blockn)
    (some : 1 ≤ blockn.toInt) :
    ComesInside partitions p block blockn ↔ p.partition.firstSector.toNat + block.toNat < 2 ^ 32 := by
  obtain ⟨nonneg, stop⟩ := within
  have bound := block.isLt
  have number : block.toInt = block.toNat := by
    rw [BitVec.toInt_eq_toNat_cond] at nonneg ⊢
    split <;> omega
  have sum := BitVec.toNat_add p.partition.firstSector block
  constructor
  · rintro ⟨q, same, -, low, -⟩
    cases found.symm.trans same
    by_contra wraps
    have first := p.partition.firstSector.isLt
    omega
  · intro fits
    rw [Nat.mod_eq_of_lt fits] at sum
    exact ⟨p, found, rfl, by omega, by omega⟩

theorem isolated_found (found : value partitions p.partition.name = some q) (some : 1 ≤ blockn.toInt) :
    Isolated p block blockn (readBlock partitions p.partition.name block blockn) ↔
      Within p.partition block blockn ∧ ComesInside partitions p block blockn := by
  rw [readBlock_found found]
  constructor
  · rintro ⟨inside, refused⟩
    have first := inside _ rfl (q.partition.firstSector + block).toNat (mem_sectors.mpr ⟨Nat.le_refl _, by dsimp only; omega⟩)
    have last := inside _ rfl ((q.partition.firstSector + block).toNat + (blockn.toInt.toNat - 1))
      (mem_sectors.mpr ⟨Nat.le_add_right _ _, by dsimp only; omega⟩)
    refine ⟨?_, q, found, first.1, first.2.1, by omega⟩
    by_contra outside
    have none := refused outside _ rfl
    rw [BlockRequest.sectors, List.range'_eq_nil_iff] at none
    dsimp only at none
    omega
  · rintro ⟨within, q', same, device, low, high⟩
    cases found.symm.trans same
    constructor
    · rintro _ ⟨⟩ sector touched
      have between := mem_sectors.mp touched
      dsimp only at between
      exact ⟨device, by omega, by omega⟩
    · exact fun outside => absurd within outside

/-- **Isolation of partitions**: a request stays inside the partition if and only if it is for sectors of the partition and
comes out inside, and for a partition that is found under its name this only takes numbers for the sectors. -/
theorem isolated_iff (registered : p ∈ partitions) (some : 1 ≤ blockn.toInt) :
    (Isolated p block blockn (readBlock partitions p.partition.name block blockn) ↔
      Within p.partition block blockn ∧ ComesInside partitions p block blockn) ∧
    (value partitions p.partition.name = .some p → Within p.partition block blockn →
      (ComesInside partitions p block blockn ↔ p.partition.firstSector.toNat + block.toNat < 2 ^ 32)) := by
  obtain ⟨q, found⟩ := value_registered registered
  exact ⟨isolated_found found some, fun own within => comesInside_own own within some⟩

end Requests

/-- Ten sectors from sector 100 on, on the only disk. -/
def samplePartition : PartitionOn Unit := ⟨⟨[112#8, 49#8], 0#32, 100#32, 10#32⟩, ()⟩

/-- The last sector. -/
theorem last_sector_isolated :
    Isolated samplePartition 9#32 1#32 (readBlock [samplePartition] [112#8, 49#8] 9#32 1#32) := by
  obtain ⟨isolated, own⟩ := @isolated_iff Unit [samplePartition] samplePartition 9#32 1#32 (.head _) (by decide)
  have within : Within samplePartition.partition 9#32 1#32 := ⟨by decide, by decide⟩
  exact isolated.mpr ⟨within, (own rfl within).mpr (by decide)⟩

/-- The sector behind it is read all the same. -/
theorem next_sector_read : value [samplePartition] [112#8, 49#8] = some samplePartition ∧
    ¬Isolated samplePartition 10#32 1#32 (readBlock [samplePartition] [112#8, 49#8] 10#32 1#32) := by
  refine ⟨rfl, fun isolated => ?_⟩
  obtain ⟨-, -, high⟩ := isolated.inside _ (readBlock_found rfl) 110 (by decide)
  exact absurd high (by decide)

end FluxOS.DiskPart
