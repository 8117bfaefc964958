import Mathlib.Data.Nat.Find
import FluxOS.NetUtils

/-! `ATA::readBlock`: programmed input from a disk on one of the two channels. -/
namespace FluxOS.ATA
open Words UserMemoryOps BlockDevice NetUtils

/-- A channel with its two disks: the registers that a command looks at, and the words that it has left to be read.
`answers` is what byte reads of the data port give, and a disk with words to deliver says so in the end. -/
structure Channel where
  master : Disk
  slave : Disk
  sectorCount : Byte
  lbaLow : Byte
  lbaMid : Byte
  lbaHigh : Byte
  device : Byte
  pending : List Half
  answers : Nat → Byte
  asked : Nat
  ready : ∀ k, ∃ j, k ≤ j ∧ answers j &&& 0x08#8 ≠ 0#8

def featuresOff : Nat := 1
def sectCountOff : Nat := 2
def lbaLowOff : Nat := 3
def lbaMidOff : Nat := 4
def lbaHighOff : Nat := 5
def deviceOff : Nat := 6
def commandOff : Nat := 7

namespace Channel

def selected (channel : Channel) : Disk := if channel.device &&& 0x10#8 = 0#8 then channel.master else channel.slave

/-- The 28 bits that the registers hold. -/
def address (channel : Channel) : Nat :=
  channel.lbaLow.toNat + 2 ^ 8 * channel.lbaMid.toNat + 2 ^ 16 * channel.lbaHigh.toNat + 2 ^ 24 * (channel.device.toNat % 16)

/-- A word of a disk, from some sector on. -/
def word (disk : Disk) (sector i : Nat) : Half := le16 disk (sectorSize * sector + 2 * i)

/-- The command to read: the words of as many sectors as were asked for, and none of those before. -/
def readSectors (channel : Channel) : Channel :=
  { channel with pending := (List.range (channel.sectorCount.toNat * 256)).map (word channel.selected channel.address) }

/-- `outportb`, by the distance from the base address. -/
def outportb (channel : Channel) (off : Nat) (value : Byte) : Channel :=
  if off = sectCountOff then { channel with sectorCount := value }
  else if off = lbaLowOff then { channel with lbaLow := value }
  else if off = lbaMidOff then { channel with lbaMid := value }
  else if off = lbaHighOff then { channel with lbaHigh := value }
  else if off = deviceOff then { channel with device := value }
  else if off = commandOff then if value = 0x20#8 then channel.readSectors else channel
  else channel

/-- `while (!(inportb(baseAddr + DATA_OFF) & 0x08));` asks the data port, and takes no word of it. -/
def waitForData (channel : Channel) : Channel := { channel with asked := Nat.find (channel.ready channel.asked) + 1 }

/-- `inport16` of the data port. -/
def inport16 (channel : Channel) : Option (Half × Channel) :=
  match channel.pending with
  | [] => none
  | word :: rest => some (word, { channel with pending := rest })

end Channel

/-- A word, and its distance from `blockbuffer`. -/
abbrev Store := Nat × Half

section Reading

variable (cookie blockn : Word)

/-- `(bd->int_cookie >> 4) & 1`. -/
def isSlave : Bool := decide (cookie >>> 4 &&& 1#32 ≠ 0#32)

/-- The command for the sector that the loop has come to. -/
def command (b : Word) (channel : Channel) : Channel :=
  let channel := channel.outportb featuresOff 0x00#8
  let channel := channel.outportb sectCountOff (blockn.setWidth 8)
  let channel := channel.outportb lbaLowOff ((b &&& 0xFF#32).setWidth 8)
  let channel := channel.outportb lbaMidOff (((b &&& 0xFF00#32) >>> 8).setWidth 8)
  let channel := channel.outportb lbaHighOff (((b &&& 0xFF0000#32) >>> 16).setWidth 8)
  let channel := channel.outportb deviceOff
    (((if isSlave cookie then 0xF0#32 else 0xE0#32) ||| (b &&& 0xF000000#32) >>> 24).setWidth 8)
  channel.outportb commandOff 0x20#8

/-- The inner loop, from word `i` on. -/
def readWords (start i : Nat) : Nat → Channel → Option (List Store × Channel)
  | 0, channel => some ([], channel)
  | left + 1, channel => do
    let (word, channel) ← channel.inport16
    let (stores, channel) ← readWords start (i + 1) left channel
    return ((start + 2 * i, word) :: stores, channel)

/-- The outer loop, from sector `block + k` on. -/
def readEach (block : Word) (k : Nat) : Nat → Channel → Option (List Store × Channel)
  | 0, channel => some ([], channel)
  | left + 1, channel => do
    let channel := (command cookie blockn (block + BitVec.ofNat 32 k) channel).waitForData
    let bytesToRead := (blockn * 256#32).toNat
    let (stores, channel) ← readWords (k * 512) 0 bytesToRead channel
    let (more, channel) ← readEach block (k + 1) left channel
    return (stores ++ more, channel)

/-- `readBlock`: what it stores through `blockbuffer`, in order. -/
def readBlock (block : Word) (channel : Channel) : Option (List Store × Channel) :=
  readEach cookie blockn block 0 ((block + blockn).toInt - block.toInt).toNat channel

/-- The disk of the device. -/
def diskOf (channel : Channel) : Disk := if isSlave cookie then channel.slave else channel.master

end Reading

/-! ## A command -/

section Command

variable {cookie blockn b : Word} {channel : Channel}

/-- The number that eight bits of a mask and a shift take out. -/
theorem toNat_taken (b mask : Word) (shift : Nat) (all : mask.toNat >>> shift = 2 ^ 8 - 1) :
    (((b &&& mask) >>> shift).setWidth 8).toNat = b.toNat / 2 ^ shift % 2 ^ 8 := by
  rw [BitVec.toNat_setWidth, BitVec.toNat_ushiftRight, BitVec.toNat_and, Nat.shiftRight_and_distrib, all,
    Nat.and_two_pow_sub_one_eq_mod, Nat.mod_mod, Nat.shiftRight_eq_div_pow]

theorem device_register : ∀ slave : Bool, ∀ high < 16,
    (((if slave then 0xF0#32 else 0xE0#32) ||| BitVec.ofNat 32 high).setWidth 8).toNat % 16 = high ∧
    (((if slave then 0xF0#32 else 0xE0#32) ||| BitVec.ofNat 32 high).setWidth 8 &&& 0x10#8 = 0#8 ↔ slave = false) := by
  decide

theorem high_bits (b : Word) : (b &&& 0xF000000#32) >>> 24 = BitVec.ofNat 32 (b.toNat / 2 ^ 24 % 2 ^ 4) := by
  apply BitVec.eq_of_toNat_eq
  have mask : (0xF000000#32).toNat >>> 24 = 2 ^ 4 - 1 := rfl
  rw [BitVec.toNat_ushiftRight, BitVec.toNat_and, Nat.shiftRight_and_distrib, mask, Nat.and_two_pow_sub_one_eq_mod,
    Nat.shiftRight_eq_div_pow, BitVec.toNat_ofNat]
  omega

/-- The registers when the command is given. -/
theorem command_eq (cookie blockn b : Word) (channel : Channel) : command cookie blockn b channel =
    { channel with
      sectorCount := blockn.setWidth 8
      lbaLow := (b &&& 0xFF#32).setWidth 8
      lbaMid := ((b &&& 0xFF00#32) >>> 8).setWidth 8
      lbaHigh := ((b &&& 0xFF0000#32) >>> 16).setWidth 8
      device := ((if isSlave cookie then 0xF0#32 else 0xE0#32) ||| (b &&& 0xF000000#32) >>> 24).setWidth 8 }.readSectors :=
  rfl

/-- The command names the lowest 28 bits of the sector, on the disk of the device. -/
theorem command_pending (cookie blockn b : Word) (channel : Channel) :
    (command cookie blockn b channel).pending =
      (List.range (blockn.toNat % 256 * 256)).map (Channel.word (diskOf cookie channel) (b.toNat % 2 ^ 28)) := by
  have low : ((b &&& 0xFF#32).setWidth 8).toNat = b.toNat % 2 ^ 8 := by
    simpa using toNat_taken b 0xFF#32 0 rfl
  have mid : (((b &&& 0xFF00#32) >>> 8).setWidth 8).toNat = b.toNat / 2 ^ 8 % 2 ^ 8 := toNat_taken b _ _ rfl
  have high : (((b &&& 0xFF0000#32) >>> 16).setWidth 8).toNat = b.toNat / 2 ^ 16 % 2 ^ 8 := toNat_taken b _ _ rfl
  have small : b.toNat / 2 ^ 24 % 2 ^ 4 < 16 := Nat.mod_lt _ (by decide)
  have device := device_register (isSlave cookie) _ small
  rw [← high_bits] at device
  rw [command_eq]
  generalize ((if isSlave cookie then 0xF0#32 else 0xE0#32) ||| (b &&& 0xF000000#32) >>> 24).setWidth 8 = register at device
  obtain ⟨four, chosen⟩ := device
  have address : b.toNat % 2 ^ 8 + 2 ^ 8 * (b.toNat / 2 ^ 8 % 2 ^ 8) + 2 ^ 16 * (b.toNat / 2 ^ 16 % 2 ^ 8) +
      2 ^ 24 * (b.toNat / 2 ^ 24 % 2 ^ 4) = b.toNat % 2 ^ 28 := by omega
  have disk : (if register &&& 0x10#8 = 0#8 then channel.master else channel.slave) = diskOf cookie channel := by
    unfold diskOf
    cases slave : isSlave cookie with
    | false => rw [if_pos (chosen.mpr slave), if_neg Bool.false_ne_true]
    | true => rw [if_neg (fun zero => Bool.false_ne_true ((chosen.mp zero).symm.trans slave)), if_pos rfl]
  simp only [Channel.readSectors, Channel.address, Channel.selected, low, mid, high, four, address, disk,
    BitVec.toNat_setWidth]

theorem waitForData_pending (channel : Channel) : channel.waitForData.pending = channel.pending := rfl

theorem command_disks (cookie blockn b : Word) (channel : Channel) :
    (command cookie blockn b channel).master = channel.master ∧
      (command cookie blockn b channel).slave = channel.slave :=
  ⟨rfl, rfl⟩

/-- A command, and what is read behind it, leaves the disks as they are. -/
theorem diskOf_command (cookie blockn b : Word) (channel : Channel) (rest : List Half) :
    diskOf cookie { (command cookie blockn b channel).waitForData with pending := rest } = diskOf cookie channel := by
  obtain ⟨master, slave⟩ := command_disks cookie blockn b channel
  simp only [diskOf, Channel.waitForData, master, slave]

end Command

/-! ## What the loops store -/

section Loops

variable {cookie blockn block : Word} {channel : Channel}

/-- The inner loop stores the words that it takes, the one behind the other. -/
theorem readWords_eq (start i : Nat) (words : List Half) {channel : Channel} {rest : List Half}
    (pending : channel.pending = words ++ rest) : readWords start i words.length channel =
      some ((words.zipIdx i).map fun (word, i) => (start + 2 * i, word), { channel with pending := rest }) := by
  induction words generalizing i channel with
  | nil =>
    obtain rfl : rest = channel.pending := pending.symm
    rfl
  | cons word words ih =>
    have taken : channel.inport16 = some (word, { channel with pending := words ++ rest }) := by
      rw [Channel.inport16, pending]
      rfl
    rw [List.length_cons, readWords, taken]
    have later := @ih (i + 1) { channel with pending := words ++ rest } rfl
    simp only [Option.bind_eq_bind, Option.bind_some, later, List.zipIdx_cons, List.map_cons]
    rfl

private theorem zipIdx_range (f : Nat → Half) (start n : Nat) :
    (((List.range n).map f).zipIdx 0).map (fun (word, i) => (start + 2 * i, word)) =
      (List.range n).map fun i => (start + 2 * i, f i) := by
  apply List.ext_getElem
  · simp
  · intro i _ _
    simp

/-- What one turn of the outer loop stores: as many sectors as the whole call is about, from its own sector on. -/
def turn (disk : Disk) (blockn block : Word) (k : Nat) : List Store :=
  (List.range (blockn.toNat * 256)).map fun i =>
    (k * 512 + 2 * i, Channel.word disk ((block + BitVec.ofNat 32 k).toNat % 2 ^ 28) i)

theorem readEach_eq (few : blockn.toNat < 256) (left k : Nat) (channel : Channel) :
    ∃ after, readEach cookie blockn block k left channel =
      some ((List.range' k left).flatMap (turn (diskOf cookie channel) blockn block), after) := by
  induction left generalizing k channel with
  | zero => exact ⟨channel, rfl⟩
  | succ left ih =>
    have all : (blockn * 256#32).toNat = blockn.toNat * 256 := by
      rw [BitVec.toNat_mul, show (256#32).toNat = 256 from rfl]
      omega
    have pending : (command cookie blockn (block + BitVec.ofNat 32 k) channel).waitForData.pending =
        (List.range (blockn.toNat * 256)).map
          (Channel.word (diskOf cookie channel) ((block + BitVec.ofNat 32 k).toNat % 2 ^ 28)) ++ [] := by
      rw [List.append_nil, waitForData_pending, command_pending, Nat.mod_eq_of_lt few]
    have read := readWords_eq (k * 512) 0 _ pending
    rw [List.length_map, List.length_range, zipIdx_range] at read
    obtain ⟨after, more⟩ := ih (k + 1)
      { (command cookie blockn (block + BitVec.ofNat 32 k) channel).waitForData with pending := [] }
    rw [diskOf_command] at more
    refine ⟨after, ?_⟩
    rw [readEach]
    dsimp only
    rw [all, read]
    simp only [Option.bind_eq_bind, Option.bind_some, more]
    rfl

end Loops

/-! ## What the caller's buffer holds -/

/-- The memory from `blockbuffer` on, after some stores. -/
def stored (blockbuffer : Block) (stores : List Store) : Block :=
  stores.foldl (fun buffer (offset, word) => store16 buffer offset word) blockbuffer

/-- The call returns with the sectors in the buffer, and has stored nothing behind it. -/
def ReadsExactly (cookie block blockn : Word) (channel : Channel) (blockbuffer : Block) : Prop :=
  ∃ stores after, readBlock cookie blockn block channel = some (stores, after) ∧
    (∀ i < 512 * blockn.toNat, stored blockbuffer stores i = diskOf cookie channel (512 * block.toNat + i)) ∧
    ∀ store ∈ stores, store.1 + 2 ≤ 512 * blockn.toNat

section Buffer

variable {disk : Disk} {blockbuffer : Block}

/-- A word of a disk is stored as its two bytes. -/
theorem store16_word (buffer : Block) (disk : Disk) (sector i j : Nat) :
    store16 buffer (2 * i) (Channel.word disk sector i) j =
      if 2 * i ≤ j ∧ j < 2 * i + 2 then disk (512 * sector + j) else buffer j := by
  have value := toNat_le16 disk (sectorSize * sector + 2 * i)
  have first := (disk (sectorSize * sector + 2 * i)).isLt
  by_cases low : j = 2 * i
  · subst low
    rw [if_pos ⟨Nat.le_refl _, by omega⟩, store16, store8, Function.update_of_ne (by omega), store8, Function.update_self]
    apply BitVec.eq_of_toNat_eq
    rw [BitVec.toNat_setWidth, Channel.word, value, ← sectorSize]
    omega
  · by_cases high : j = 2 * i + 1
    · subst high
      rw [if_pos ⟨by omega, by omega⟩, store16, store8, Function.update_self]
      apply BitVec.eq_of_toNat_eq
      rw [BitVec.toNat_setWidth, BitVec.toNat_ushiftRight, Nat.shiftRight_eq_div_pow, Channel.word, value, ← sectorSize,
        ← Nat.add_assoc]
      have second := (disk (sectorSize * sector + 2 * i + 1)).isLt
      omega
    · rw [if_neg (by omega), store16, store8, Function.update_of_ne high, store8, Function.update_of_ne low]

/-- Words that are stored one behind the other leave the bytes of the disk. -/
theorem stored_words (sector count j : Nat) :
    stored blockbuffer ((List.range count).map fun i => (2 * i, Channel.word disk sector i)) j =
      if j < 2 * count then disk (512 * sector + j) else blockbuffer j := by
  induction count with
  | zero => rfl
  | succ count ih =>
    have step : stored blockbuffer ((List.range (count + 1)).map fun i => (2 * i, Channel.word disk sector i)) =
        store16 (stored blockbuffer ((List.range count).map fun i => (2 * i, Channel.word disk sector i))) (2 * count)
          (Channel.word disk sector count) := by
      rw [List.range_succ, List.map_append, stored, List.foldl_append]
      rfl
    rw [step, store16_word, ih]
    split_ifs <;> first | rfl | omega

end Buffer

section Main

variable {cookie block blockn : Word}

theorem readBlock_eq (cookie : Word) (inside : block.toNat < 2 ^ 28) (some : 0 < blockn.toNat)
    (few : blockn.toNat < 256) (channel : Channel) :
    ∃ after, readBlock cookie blockn block channel =
      .some ((List.range blockn.toNat).flatMap (turn (diskOf cookie channel) blockn block), after) := by
  have last : (block + blockn).toNat = block.toNat + blockn.toNat := by
    rw [BitVec.toNat_add]
    omega
  have turns : ((block + blockn).toInt - block.toInt).toNat = blockn.toNat := by
    rw [BitVec.toInt_eq_toNat_of_lt (by omega), BitVec.toInt_eq_toNat_of_lt (by omega), last]
    omega
  rw [readBlock, turns, List.range_eq_range']
  exact readEach_eq few _ _ channel

/-- The last turn of a call for more than one sector stores behind the buffer. -/
theorem turn_outside (disk : Disk) (block : Word) (more : 1 < blockn.toNat) :
    ∃ store ∈ (List.range blockn.toNat).flatMap (turn disk blockn block), 512 * blockn.toNat < store.1 + 2 := by
  refine ⟨_, List.mem_flatMap.mpr ⟨blockn.toNat - 1, List.mem_range.mpr (by omega), List.mem_map.mpr
    ⟨blockn.toNat * 256 - 1, List.mem_range.mpr (by omega), rfl⟩⟩, ?_⟩
  dsimp only
  omega

theorem not_readsExactly (inside : block.toNat < 2 ^ 28) (few : blockn.toNat < 256) (more : 1 < blockn.toNat)
    (channel : Channel) (blockbuffer : Block) : ¬ReadsExactly cookie block blockn channel blockbuffer := by
  obtain ⟨after, result⟩ := readBlock_eq cookie inside (by omega) few channel
  rintro ⟨stores, last, same, -, bounded⟩
  cases result.symm.trans same
  obtain ⟨store, among, outside⟩ := turn_outside (diskOf cookie channel) block more
  exact Nat.not_le.mpr outside (bounded store among)

/-- The only turn of a call for one sector stores that sector. -/
theorem turns_one (disk : Disk) (inside : block.toNat < 2 ^ 28) :
    (List.range (1#32).toNat).flatMap (turn disk 1#32 block) =
      (List.range 256).map fun i => (2 * i, Channel.word disk block.toNat i) := by
  have first : (block + BitVec.ofNat 32 0).toNat % 2 ^ 28 = block.toNat := by
    rw [show block + BitVec.ofNat 32 0 = block from BitVec.add_zero block]
    exact Nat.mod_eq_of_lt inside
  rw [show (1#32).toNat = 1 from rfl, List.range_one, List.flatMap_singleton, turn, first]
  simp

/-- **A read of several sectors** leaves exactly these in the buffer if and only if there is only one of them. -/
theorem reads_exactly_iff (inside : block.toNat < 2 ^ 28) (some : 0 < blockn.toNat) (few : blockn.toNat < 256)
    (channel : Channel) (blockbuffer : Block) : ReadsExactly cookie block blockn channel blockbuffer ↔ blockn = 1#32 := by
  constructor
  · intro reads
    by_contra several
    have other : blockn.toNat ≠ 1 := fun one => several (BitVec.eq_of_toNat_eq one)
    exact not_readsExactly inside few (by omega) channel blockbuffer reads
  · rintro rfl
    obtain ⟨after, result⟩ := readBlock_eq cookie inside some few channel
    have one : (1#32).toNat = 1 := rfl
    rw [turns_one _ inside] at result
    refine ⟨_, after, result, fun i bound => ?_, fun store among => ?_⟩
    · rw [one] at bound
      rw [stored_words, if_pos (by omega)]
    · obtain ⟨i, counted, rfl⟩ := List.mem_map.mp among
      have bound := List.mem_range.mp counted
      rw [one]
      dsimp only
      omega

/-- A channel whose disks hold nothing but zeros. -/
def blankChannel : Channel where
  master := fun _ => 0#8
  slave := fun _ => 0#8
  sectorCount := 0#8
  lbaLow := 0#8
  lbaMid := 0#8
  lbaHigh := 0#8
  device := 0#8
  pending := []
  answers := fun _ => 0xFF#8
  asked := 0
  ready := fun k => ⟨k, Nat.le_refl k, by decide⟩

/-- The last sector of the first master. -/
theorem last_sector_read : ReadsExactly 0x1F000A0#32 0xFFFFFFF#32 1#32 blankChannel fun _ => 0xFF#8 :=
  (reads_exactly_iff (by decide) (by decide) (by decide) blankChannel _).mpr rfl

/-- Two sectors from the first one on: the second command delivers two more, and 512 bytes are stored behind the buffer. -/
theorem two_sectors_overrun : ¬ReadsExactly 0x1F000A0#32 0#32 2#32 blankChannel fun _ => 0xFF#8 :=
  not_readsExactly (by decide) (by decide) (by decide) blankChannel _

end Main
end FluxOS.ATA
