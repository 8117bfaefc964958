import FluxOS.MemoryContext
import FluxOS.FSUAPI
import FluxOS.UserStrings

/-! `execve` takes its arguments and its environment over to the new image: one pass over
each vector measures it, one copies it to the kernel, one builds the table on the new stack. -/
namespace FluxOS
open Words UserMemoryOps

namespace UserProcessImage

def initUserStackSize : Word := 8192#32
def maxEnvVarsNumber : Nat := 10
def maxEnvVarLen : Word := 256#32
def maxArgsNumber : Nat := 5
def maxArgLen : Word := 256#32
def auxTableSize : Word := 13#32

def padToWord (addr : Word) : Word := (addr &&& 0xFFFFFFFC#32) + 4#32

/-- Where a vector of pointers has its entry `i`. -/
def entryAt (v : Word) (i : Nat) : Word := v + BitVec.ofNat 32 (4 * i)

/-- The loop of `stringsVectorSize`, from entry `i` on: the size or the error, and what is in
`*num` afterwards. -/
def stringsVectorSizeFrom (mem : Memory) (v maxStrLen num : Word) : Nat → Nat → Word → Option (Word × Word)
  | 0, _, size => some (size, num)
  | rounds + 1, i, size =>
    match getFromUser32 mem (entryAt v i) with
    | .error ret => some (ret, num)
    | .ok srcString =>
      if srcString = 0#32 then some (size, BitVec.ofNat 32 i)
      else (strnlenUser mem srcString maxStrLen).bind fun len =>
        if len.slt 0#32 then some (len, num)
        else stringsVectorSizeFrom mem v maxStrLen num rounds (i + 1) (size + (len + 1#32))

def stringsVectorSize (mem : Memory) (v num : Word) (maxNum : Nat) (maxStrLen : Word) : Option (Word × Word) :=
  stringsVectorSizeFrom mem v maxStrLen num maxNum 0 0#32

/-- How copying a vector ends. Behind a write past the block nothing is known. -/
inductive Copying where
  | refused (ret : Word) (mem : Memory)
  | overrun
  | copied (mem : Memory)

/-- The loop of `copyUserspaceStringsVectorToBlock`, from entry `i` and from `offset` in the
block on. After 2^30 entries it is where it began. -/
def copyStringsFrom (block blockSize v : Word) : Nat → Memory → Nat → Nat → Option Copying
  | 0, _, _, _ => none
  | rounds + 1, mem, i, offset =>
    if word32 mem (entryAt v i) = 0#32 then some (.copied mem)
    else
      match getFromUser32 mem (entryAt v i) with
      | .error ret => some (.refused ret mem)
      | .ok srcString =>
        (strnlenUser mem srcString (blockSize - 1#32)).bind fun len =>
          if len.slt 0#32 then some (.refused len mem)
          else
            let size := len + 1#32
            let (ret, after) :=
              strncpyFromUser mem (block + BitVec.ofNat 32 offset) (word32 mem (entryAt v i)) size
            if ret.slt 0#32 then some (.refused ret after)
            else if blockSize.toNat < offset + size.toNat then some .overrun
            else copyStringsFrom block blockSize v rounds after (i + 1) (offset + size.toNat)

def copyUserspaceStringsVectorToBlock (mem : Memory) (destStringsBlock v destStringsBlockSize : Word) : Option Copying :=
  copyStringsFrom destStringsBlock destStringsBlockSize v (2 ^ 30 + 1) mem 0 0

/-- Where `setupStackAndRegisters` puts things. -/
structure StackLayout where
  sp : Word
  argsList : Word
  envList : Word
  auxList : Word
  argsBlock : Word
  envBlock : Word
  auxBlock : Word

/-- The positions that `setupStackAndRegisters` works out. -/
def stackLayout (userSpaceStack userStackSize argc argsSize envc envSize auxc auxSize : Word) : StackLayout :=
  let varsBlockSize := 4#32 + 4#32 * (argc + 1#32) + 4#32 * (envc + 1#32) + 4#32 * 2#32 * auxc +
    padToWord argsSize + padToWord envSize + padToWord auxSize
  let sp := userSpaceStack + userStackSize - varsBlockSize
  let argsPos := 1#32
  let envPos := argsPos + (argc + 1#32)
  let auxPos := envPos + (envc + 1#32)
  let argsBlockPos := auxPos + (auxc + 1#32) * 2#32
  let envBlockPos := argsBlockPos + (argsSize.sdiv 4#32 + 1#32)
  let auxBlockPos := envBlockPos + (envSize.sdiv 4#32 + 1#32)
  { sp := sp
    argsList := sp + 4#32 * argsPos
    envList := sp + 4#32 * envPos
    auxList := sp + 4#32 * auxPos
    argsBlock := sp + 4#32 * argsBlockPos
    envBlock := sp + 4#32 * envBlockPos
    auxBlock := sp + 4#32 * auxBlockPos }

/-- What `malloc` answers for the two blocks of strings: NULL, or a block of the kernel's
memory, the two apart from each other. -/
structure Heap where
  argsBlock : Word → Word
  envBlock : Word → Word
  argsInside : ∀ size, argsBlock size ≠ 0#32 → (argsBlock size).toNat + size.toNat ≤ userspaceLowAddr.toNat
  envInside : ∀ size, envBlock size ≠ 0#32 → (envBlock size).toNat + size.toNat ≤ userspaceLowAddr.toNat
  apart : ∀ argsSize envSize, argsBlock argsSize ≠ 0#32 → envBlock envSize ≠ 0#32 →
    (argsBlock argsSize).toNat + argsSize.toNat ≤ (envBlock envSize).toNat ∨
      (envBlock envSize).toNat + envSize.toNat ≤ (argsBlock argsSize).toNat

/-- A file name that was taken over from the caller. -/
structure FileName where
  chars : List Byte
  short : chars.length ≤ 1024

/-- `auxBlockSize` of `auxVectorSizeAndCount`. -/
def FileName.auxBlockSize (fileName : FileName) : Word := BitVec.ofNat 32 (fileName.chars.length + 1)

/-- What `execve` changes of the process: its address space, its mappings and its data segment. -/
structure ProcessImage where
  addressSpaceTable : Word
  memoryContext : Word
  dataSegmentStart : Word
  dataSegmentEnd : Word

/-- What the other steps of `execve` do. `granted`: there is memory for what it allocates before it changes the
address space. Then the results of loading the executable and of placing the data segment, the memory of the new
address space, its stack, the addresses that its other mappings take a write at, and what is passed on in the
auxiliary vector. -/
structure NewImage where
  granted : Bool
  addressSpaceTable : Word
  memoryContext : Word
  loaded : Word
  dataSegment : Word
  dataSegmentStart : Word
  memory : Memory
  stack : Word
  others : Word → Bool
  auxVec : List Byte
  stackLow : userspaceLowAddr.toNat ≤ stack.toNat
  stackHigh : stack.toNat ≤ 0x88000000
  stackAligned : stack.toNat % 4096 = 0
  auxLength : auxVec.length = 8 * auxTableSize.toNat

/-- The other address space: the kernel's part is the same. -/
def changeAddressSpace (mem : Memory) (image : NewImage) : Memory :=
  fun address => if address < userspaceLowAddr then mem address else image.memory address

/-- Back in the address space of before. -/
def restoreAddressSpace (mem previous : Memory) : Memory :=
  fun address => if address < userspaceLowAddr then mem address else previous address

/-- What `createUserProcessStack` maps. -/
def NewImage.stackDescriptor (image : NewImage) (size : Word) : MemoryDescriptor where
  baseAddress := image.stack
  length := size
  permissions := ⟨true, true, false⟩
  kind := .anonymousMemory

/-- Every byte is in the new stack or in another mapping, so that the page fault of a write finds a descriptor. -/
def NewImage.Writable (image : NewImage) (stackSize address : Word) (bytes : Nat) : Prop :=
  ∀ i < bytes, (image.stackDescriptor stackSize).contains (address + BitVec.ofNat 32 i) ∨
    image.others (address + BitVec.ofNat 32 i)

instance (image : NewImage) (stackSize address : Word) (bytes : Nat) : Decidable (image.Writable stackSize address bytes) :=
  inferInstanceAs (Decidable (∀ i < bytes, _))

/-- The loop of `buildStringsPtrVector`: the entries left, the next entry and the next string. Where a write finds no
mapping there is no result: the process is killed. -/
def buildStringsFrom (image : NewImage) (stackSize : Word) : Nat → Memory → Word → Word → Word → Option Memory
  | 0, mem, _, _, _ => some mem
  | left + 1, mem, destArgsTable, destArgsBlock, srcArgsBlock => do
    guard (image.Writable stackSize destArgsTable 4)
    let mem := storeWord mem destArgsTable destArgsBlock
    let len ← strlen mem srcArgsBlock
    let size := BitVec.ofNat 32 (len + 1)
    guard (image.Writable stackSize destArgsBlock (len + 1))
    let mem ← strcpy mem destArgsBlock srcArgsBlock
    buildStringsFrom image stackSize left mem (destArgsTable + 4#32) (destArgsBlock + size) (srcArgsBlock + size)

def buildStringsPtrVector (image : NewImage) (stackSize : Word) (mem : Memory)
    (destArgsTable destArgsBlock srcArgsBlock argsCount : Word) : Option Memory := do
  let mem ← buildStringsFrom image stackSize argsCount.toInt.toNat mem destArgsTable destArgsBlock srcArgsBlock
  guard (image.Writable stackSize (destArgsTable + 4#32 * argsCount) 4)
  return storeWord mem (destArgsTable + 4#32 * argsCount) 0#32

/-- `memcpyToUser` to the new address space. -/
def copyToImage (image : NewImage) (stackSize : Word) (mem : Memory) (dest : Word) (src : List Byte) (size : Word) :
    Option Memory := do
  let (ret, mem) := memcpyToUser mem dest (fun i => src.getD i 0#8) size
  guard (ret < 0 ∨ image.Writable stackSize dest size.toNat)
  return mem

/-- `buildAuxVector`, as far as it writes. -/
def buildAuxVector (image : NewImage) (stackSize : Word) (mem : Memory) (fileName : FileName)
    (auxTable auxBlock : Word) : Option Memory := do
  let mem ← copyToImage image stackSize mem auxBlock fileName.chars fileName.auxBlockSize
  copyToImage image stackSize mem auxTable image.auxVec (8#32 * auxTableSize)

/-- How `execve` ends, with what it leaves of the process. -/
inductive Executed where
  | refused (ret : Word) (mem : Memory) (process : ProcessImage)
  | overrun
  | started (mem : Memory) (sp : Word) (process : ProcessImage)

/-- `execve`, once the strings are in the kernel. -/
def buildImage (mem : Memory) (process : ProcessImage) (fileName : FileName) (image : NewImage)
    (argc argsBlockSize tmpArgsBlock envc envBlockSize tmpEnvBlock : Word) : Option Executed := do
  if !image.granted then return .refused (errorCode enomem) mem process
  let previous := process
  let previousMemory := mem
  let process := { process with addressSpaceTable := image.addressSpaceTable, memoryContext := image.memoryContext }
  let mem := changeAddressSpace mem image
  if image.loaded.slt 0#32 then
    return .refused image.loaded (restoreAddressSpace mem previousMemory)
      { process with addressSpaceTable := previous.addressSpaceTable, memoryContext := previous.memoryContext }
  let stackSize := padToWord (initUserStackSize + argsBlockSize + envBlockSize + fileName.auxBlockSize)
  let layout := stackLayout image.stack stackSize argc argsBlockSize envc envBlockSize auxTableSize fileName.auxBlockSize
  guard (image.Writable stackSize layout.sp 4)
  let mem := storeWord mem layout.sp argc
  let mem ← buildStringsPtrVector image stackSize mem layout.argsList layout.argsBlock tmpArgsBlock argc
  let mem ← buildStringsPtrVector image stackSize mem layout.envList layout.envBlock tmpEnvBlock envc
  let mem ← buildAuxVector image stackSize mem fileName layout.auxList layout.auxBlock
  if image.dataSegment.slt 0#32 then
    return .refused (errorCode enomem) (restoreAddressSpace mem previousMemory)
      { process with addressSpaceTable := previous.addressSpaceTable, memoryContext := previous.memoryContext }
  return .started mem layout.sp
    { process with dataSegmentStart := image.dataSegmentStart, dataSegmentEnd := image.dataSegmentStart + 4096#32 }

/-- `execve`, once it has the file name. What `argc` and `envc` hold at first is what was on the
kernel's stack. -/
def execve (heap : Heap) (mem : Memory) (process : ProcessImage) (fileName : FileName) (argv envp argc envc : Word)
    (image : NewImage) : Option Executed := do
  if argv = 0#32 then return .refused (errorCode einval) mem process
  if envp = 0#32 then return .refused (errorCode einval) mem process
  let (argsBlockSize, argc) ← stringsVectorSize mem argv argc maxArgsNumber maxArgLen
  let (envBlockSize, envc) ← stringsVectorSize mem envp envc maxEnvVarsNumber maxEnvVarLen
  let tmpArgsBlock := heap.argsBlock argsBlockSize
  if tmpArgsBlock = 0#32 then return .refused (errorCode enomem) mem process
  match ← copyUserspaceStringsVectorToBlock mem tmpArgsBlock argv argsBlockSize with
  | .refused ret mem => return .refused ret mem process
  | .overrun => return .overrun
  | .copied mem =>
    let tmpEnvBlock := heap.envBlock envBlockSize
    if tmpEnvBlock = 0#32 then return .refused (errorCode enomem) mem process
    match ← copyUserspaceStringsVectorToBlock mem tmpEnvBlock envp envBlockSize with
    | .refused ret mem => return .refused ret mem process
    | .overrun => return .overrun
    | .copied mem =>
      buildImage mem process fileName image argc argsBlockSize tmpArgsBlock envc envBlockSize tmpEnvBlock

end UserProcessImage
end FluxOS
