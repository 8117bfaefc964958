import FluxOS.UserMemoryOps

/-! A block device: bytes by their address, read and written in sectors of 512 bytes;
and the little-endian words that lie in memory. -/
namespace FluxOS
open Words UserMemoryOps

/-- The bytes of a device, by their distance from its first one. -/
abbrev Disk := Nat → Byte

/-- Memory from some pointer on, by the distance from it. -/
abbrev Block := Nat → Byte

namespace BlockDevice

def sectorSize : Nat := 512

/-- `ReadBlock`: the block with the sectors at its beginning. -/
def readBlock (disk : Disk) (block blocksN : Word) (blockbuffer : Block) : Block := fun i =>
  if i < sectorSize * blocksN.toNat then disk (sectorSize * block.toNat + i) else blockbuffer i

/-- `WriteBlock`: the device with the beginning of the block in its sectors. -/
def writeBlock (disk : Disk) (block blocksN : Word) (blockbuffer : Block) : Disk := fun address =>
  if sectorSize * block.toNat ≤ address ∧ address < sectorSize * block.toNat + sectorSize * blocksN.toNat
  then blockbuffer (address - sectorSize * block.toNat) else disk address

/-- The 16-bit word at an offset. -/
def le16 (block : Block) (offset : Nat) : BitVec 16 := block (offset + 1) ++ block offset

/-- The 32-bit word at an offset. -/
def le32 (block : Block) (offset : Nat) : Word := le16 block (offset + 2) ++ le16 block offset

theorem le32_congr {block : Block} (other : Block) {offset : Nat}
    (same : ∀ i < 4, block (offset + i) = other (offset + i)) : le32 block offset = le32 other offset := by
  have first : block offset = other offset := same 0 (by omega)
  have second := same 1 (by omega)
  have third := same 2 (by omega)
  have fourth := same 3 (by omega)
  simp only [le32, le16, Nat.add_assoc, Nat.reduceAdd]
  rw [first, second, third, fourth]

theorem le32_zero {block : Block} {offset : Nat} (zero : ∀ i < 4, block (offset + i) = 0#8) :
    le32 block offset = 0#32 :=
  (le32_congr (fun _ => 0#8) zero).trans (by simp [le32, le16])

end BlockDevice
end FluxOS
