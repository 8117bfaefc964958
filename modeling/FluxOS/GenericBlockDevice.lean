import Mathlib.Algebra.Group.Int.Defs
import FluxOS.BlockDevice

/-! `GenericBlockDevice::read`: bytes from any position of a device that is read in sectors. -/
namespace FluxOS.GenericBlockDevice
open Words UserMemoryOps BlockDevice

/-- What has been read of a request, and the memory it was read to. -/
structure Progress where
  readBytes : BitVec 64
  mem : Memory

section Reading

variable (disk : Disk) (pos : BitVec 64) (buffer bufsize : Word)

/-- The number of the sector that the read has come to, an `int`. -/
def sectorAt (readBytes : BitVec 64) : Word := ((pos + readBytes) / 512#64).setWidth 32

/-- A read that begins inside of a sector takes what it wants of it. -/
def readHead (mem : Memory) : Progress :=
  if pos % 512#64 ≠ 0#64 then
    let tmpBuf := readBlock disk (sectorAt pos 0#64) 1#32 fun _ => 0#8
    let rest := 512#64 - pos % 512#64
    let readBytes := if bufsize.setWidth 64 < rest then bufsize.setWidth 64 else rest
    ⟨readBytes, copyIn mem buffer (fun i => tmpBuf ((pos % 512#64).toNat + i)) readBytes.toNat⟩
  else ⟨0#64, mem⟩

/-- The sectors that are read right to where they are wanted. -/
def readWhole (progress : Progress) : Progress :=
  if 512#32 < bufsize ∨ bufsize % 512#32 = 0#32 then
    let blocksN := (bufsize.setWidth 64 - progress.readBytes) / 512#64
    let sectors := readBlock disk (sectorAt pos progress.readBytes) (blocksN.setWidth 32) fun _ => 0#8
    ⟨progress.readBytes + blocksN * 512#64,
      copyIn progress.mem (buffer + progress.readBytes.setWidth 32) sectors (sectorSize * (blocksN.setWidth 32).toNat)⟩
  else progress

/-- What is still missing is the beginning of a sector. -/
def readTail (progress : Progress) : Memory :=
  if progress.readBytes < bufsize.setWidth 64 then
    let tmpBuf := readBlock disk (sectorAt pos progress.readBytes) 1#32 fun _ => 0#8
    copyIn progress.mem (buffer + progress.readBytes.setWidth 32) tmpBuf (bufsize.setWidth 64 - progress.readBytes).toNat
  else progress.mem

/-- `read`, with the `int` that it returns. -/
def read (mem : Memory) : Int × Memory :=
  (bufsize.toInt, readTail disk pos buffer bufsize (readWhole disk pos buffer bufsize (readHead disk pos buffer bufsize mem)))

end Reading

/-! ## What the steps have copied -/

/-- The first bytes that were asked for are in their place, and all others as before. -/
structure Copied (disk : Disk) (pos : BitVec 64) (buffer : Word) (mem : Memory) (count : Nat) (progress : Progress) : Prop where
  counted : progress.readBytes.toNat = count
  copied : progress.mem = copyIn mem buffer (fun i => disk (pos.toNat + i)) count

section Steps

variable {disk : Disk} {pos : BitVec 64} {buffer bufsize : Word} {mem : Memory} {progress : Progress} {count : Nat}

theorem readBlock_inside {block blocksN : Word} {memory : Block} {i : Nat} (inside : i < 512 * blocksN.toNat) :
    readBlock disk block blocksN memory i = disk (512 * block.toNat + i) := if_pos inside

theorem toNat_sectorAt (readBytes : BitVec 64) (reached : (pos.toNat + readBytes.toNat) / 512 < 2 ^ 31) :
    (sectorAt pos readBytes).toNat = (pos.toNat + readBytes.toNat) / 512 := by
  have sector : (512#64).toNat = 512 := rfl
  rw [sectorAt, BitVec.toNat_setWidth, BitVec.toNat_udiv, BitVec.toNat_add, sector]
  omega

/-- The next bytes are copied behind those that were copied before. -/
theorem Copied.continue (done : Copied disk pos buffer mem count progress) {source : Block} {more : Nat}
    (right : ∀ i < more, source i = disk (pos.toNat + (count + i))) :
    copyIn progress.mem (buffer + progress.readBytes.setWidth 32) source more =
      copyIn mem buffer (fun i => disk (pos.toNat + i)) (count + more) := by
  have place : progress.readBytes.setWidth 32 = BitVec.ofNat 32 count := by
    rw [← done.counted]
    exact BitVec.eq_of_toNat_eq (by simp)
  rw [done.copied, place]
  exact copyIn_continue mem buffer _ right

/-- What the head takes of a sector. -/
def headCount (pos : BitVec 64) (bufsize : Word) : Nat :=
  if pos.toNat % 512 = 0 then 0 else min bufsize.toNat (512 - pos.toNat % 512)

theorem readHead_copied (reached : (pos.toNat + bufsize.toNat) / 512 < 2 ^ 31) :
    Copied disk pos buffer mem (headCount pos bufsize) (readHead disk pos buffer bufsize mem) := by
  have bound := bufsize.isLt
  have offset : (pos % 512#64).toNat = pos.toNat % 512 := by simp
  have size := toNat_setWidth_word bufsize
  unfold readHead headCount
  by_cases aligned : pos.toNat % 512 = 0
  · have zero : pos % 512#64 = 0#64 := BitVec.eq_of_toNat_eq (offset.trans aligned)
    rw [if_neg (not_not.mpr zero), if_pos aligned]
    exact ⟨rfl, rfl⟩
  · have some : pos % 512#64 ≠ 0#64 := fun zero => aligned (by rw [← offset, zero]; rfl)
    have rest : (512#64 - pos % 512#64).toNat = 512 - pos.toNat % 512 := by
      rw [BitVec.toNat_sub, offset, BitVec.toNat_ofNat]
      omega
    have taken : (if bufsize.setWidth 64 < 512#64 - pos % 512#64 then bufsize.setWidth 64
        else 512#64 - pos % 512#64).toNat = min bufsize.toNat (512 - pos.toNat % 512) := by
      simp only [BitVec.lt_def, size, rest]
      split
      · rw [size]
        omega
      · rw [rest]
        omega
    have sector : (sectorAt pos 0#64).toNat = pos.toNat / 512 := by
      refine (toNat_sectorAt 0#64 ?_).trans ?_
      · rw [BitVec.toNat_zero]
        omega
      · rw [BitVec.toNat_zero, Nat.add_zero]
    rw [if_pos some, if_neg aligned]
    constructor
    · dsimp only
      exact taken
    · dsimp only
      rw [taken]
      refine copyIn_congr _ _ fun i inside => ?_
      have within : pos.toNat % 512 + i < 512 * (1#32).toNat := by
        rw [show (1#32).toNat = 1 from rfl]
        omega
      rw [offset, readBlock_inside within, sector]
      have place : 512 * (pos.toNat / 512) + (pos.toNat % 512 + i) = pos.toNat + i := by omega
      exact congrArg disk place

/-- Where the head ends: with the request, or at the end of a sector. -/
theorem headCount_ends (pos : BitVec 64) (bufsize : Word) :
    headCount pos bufsize ≤ bufsize.toNat ∧
      (headCount pos bufsize = bufsize.toNat ∨ (pos.toNat + headCount pos bufsize) % 512 = 0) := by
  unfold headCount
  split
  · exact ⟨Nat.zero_le _, .inr (by omega)⟩
  · omega

/-- What is copied when the whole sectors are, too. -/
def wholeCount (pos : BitVec 64) (bufsize : Word) : Nat :=
  if 512 < bufsize.toNat ∨ bufsize.toNat % 512 = 0 then
    headCount pos bufsize + 512 * ((bufsize.toNat - headCount pos bufsize) / 512)
  else headCount pos bufsize

theorem readWhole_copied (reached : (pos.toNat + bufsize.toNat) / 512 < 2 ^ 31)
    (done : Copied disk pos buffer mem (headCount pos bufsize) progress) :
    Copied disk pos buffer mem (wholeCount pos bufsize) (readWhole disk pos buffer bufsize progress) := by
  obtain ⟨short, ends⟩ := headCount_ends pos bufsize
  have bound := bufsize.isLt
  have counted := done.counted
  have size := toNat_setWidth_word bufsize
  have long : 512#32 < bufsize ∨ bufsize % 512#32 = 0#32 ↔ 512 < bufsize.toNat ∨ bufsize.toNat % 512 = 0 := by
    rw [BitVec.lt_def, ← BitVec.toNat_inj, BitVec.toNat_umod]
    rfl
  have count : ((bufsize.setWidth 64 - progress.readBytes) / 512#64).toNat =
      (bufsize.toNat - headCount pos bufsize) / 512 := by
    rw [BitVec.toNat_udiv, BitVec.toNat_sub_of_le (by rw [BitVec.le_def, size, counted]; exact short), size, counted]
    rfl
  unfold readWhole wholeCount
  by_cases takes : 512 < bufsize.toNat ∨ bufsize.toNat % 512 = 0
  · rw [if_pos (long.mpr takes), if_pos takes]
    dsimp only
    generalize (bufsize.setWidth 64 - progress.readBytes) / 512#64 = blocksN at count ⊢
    have blocks : (blocksN.setWidth 32).toNat = (bufsize.toNat - headCount pos bufsize) / 512 := by
      rw [BitVec.toNat_setWidth, count]
      omega
    have sector : (512#64).toNat = 512 := rfl
    constructor
    · dsimp only
      rw [BitVec.toNat_add, BitVec.toNat_mul, counted, count, sector]
      omega
    · dsimp only
      rw [blocks, sectorSize]
      refine done.continue fun i inside => ?_
      -- a head that ends with the request leaves no sector to be read
      have aligned : (pos.toNat + headCount pos bufsize) % 512 = 0 := by omega
      rw [readBlock_inside (by rw [blocks]; exact inside), toNat_sectorAt _ (by rw [counted]; omega), counted]
      have place : 512 * ((pos.toNat + headCount pos bufsize) / 512) + i = pos.toNat + (headCount pos bufsize + i) := by
        omega
      exact congrArg disk place
  · rw [if_neg (mt long.mp takes), if_neg takes]
    exact done

theorem wholeCount_ends (pos : BitVec 64) (bufsize : Word) :
    wholeCount pos bufsize ≤ bufsize.toNat ∧ (wholeCount pos bufsize = bufsize.toNat ∨
      (pos.toNat + wholeCount pos bufsize) % 512 = 0 ∧ bufsize.toNat ≤ wholeCount pos bufsize + 512) := by
  obtain ⟨short, ends⟩ := headCount_ends pos bufsize
  unfold wholeCount
  split <;> omega

theorem readTail_copied (reached : (pos.toNat + bufsize.toNat) / 512 < 2 ^ 31)
    (done : Copied disk pos buffer mem (wholeCount pos bufsize) progress) :
    readTail disk pos buffer bufsize progress = copyIn mem buffer (fun i => disk (pos.toNat + i)) bufsize.toNat := by
  obtain ⟨short, ends⟩ := wholeCount_ends pos bufsize
  have bound := bufsize.isLt
  have counted := done.counted
  have size := toNat_setWidth_word bufsize
  unfold readTail
  by_cases missing : progress.readBytes < bufsize.setWidth 64
  · rw [if_pos missing]
    rw [BitVec.lt_def, size, counted] at missing
    have aligned := ends.resolve_left (Nat.ne_of_lt missing)
    have rest : (bufsize.setWidth 64 - progress.readBytes).toNat = bufsize.toNat - wholeCount pos bufsize := by
      rw [BitVec.toNat_sub_of_le (by rw [BitVec.le_def, size, counted]; exact short), size, counted]
    have whole : wholeCount pos bufsize + (bufsize.toNat - wholeCount pos bufsize) = bufsize.toNat := by omega
    dsimp only
    rw [rest]
    refine (done.continue fun i inside => ?_).trans (by rw [whole])
    have within : i < 512 * (1#32).toNat := by
      rw [show (1#32).toNat = 1 from rfl]
      omega
    rw [readBlock_inside within, toNat_sectorAt _ (by rw [counted]; omega), counted]
    have place : 512 * ((pos.toNat + wholeCount pos bufsize) / 512) + i = pos.toNat + (wholeCount pos bufsize + i) := by
      omega
    exact congrArg disk place
  · rw [if_neg missing, done.copied]
    rw [BitVec.lt_def, size, counted] at missing
    rw [show wholeCount pos bufsize = bufsize.toNat by omega]

end Steps

/-- **A read of any bytes**: exactly those that were asked for are copied to the buffer, and their number is returned
as an `int`. -/
theorem read_exact (disk : Disk) (pos : BitVec 64) (buffer bufsize : Word) (mem : Memory)
    (reached : (pos.toNat + bufsize.toNat) / 512 < 2 ^ 31) :
    (read disk pos buffer bufsize mem).2 = copyIn mem buffer (fun i => disk (pos.toNat + i)) bufsize.toNat ∧
    (read disk pos buffer bufsize mem).1 =
      if bufsize.toNat < 2 ^ 31 then (bufsize.toNat : Int) else bufsize.toNat - 2 ^ 32 := by
  constructor
  · exact readTail_copied reached (readWhole_copied reached (readHead_copied reached))
  · rw [read, BitVec.toInt_eq_toNat_cond]
    split <;> omega

/-- Four bytes across the end of a sector. -/
theorem four_bytes_read : (510 + 4) / 512 < 2 ^ 31 ∧
    read (fun address => BitVec.ofNat 8 address) 510#64 0x1000#32 4#32 (fun _ => 0#8) =
      (4, copyIn (fun _ => 0#8) 0x1000#32 (fun i => BitVec.ofNat 8 (510 + i)) 4) := by
  obtain ⟨copied, returned⟩ :=
    read_exact (fun address => BitVec.ofNat 8 address) 510#64 0x1000#32 4#32 (fun _ => 0#8) (by decide)
  exact ⟨by decide, Prod.ext returned copied⟩

/-- Half of the address space is a number of bytes that no `int` says. -/
theorem large_read_negative : (0 + (0x80000000#32).toNat) / 512 < 2 ^ 31 ∧
    (read (fun _ => 0#8) 0#64 0#32 0x80000000#32 fun _ => 0#8).1 ≠ (0x80000000#32).toNat :=
  ⟨by decide, by decide⟩

end FluxOS.GenericBlockDevice
