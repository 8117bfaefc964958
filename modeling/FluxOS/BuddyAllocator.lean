import Mathlib.Logic.Function.Basic
import FluxOS.DyadicChunks

/-! The kernel's buddy allocator, function by function as `BuddyAllocator.cpp`
computes it. A free list is the list of the block indices of its nodes, head
first. Block numbers are C `int`s: with the at most 31 orders an `int` block
count gives, every value formed below stays inside `int`, so they are integers
here. -/
namespace FluxOS
open DyadicChunks

/-- The allocator object: `m_orders` and the free list of each order. Entries
of `lists` at or past `orders` are not part of the array. -/
structure BuddyAllocator where
  orders : Nat
  lists : Nat → List Int

namespace BuddyAllocator

/-- `n & ~(1 << j)`. -/
def clearBit (n : Int) (j : Nat) : Int := if bit n j then n - 2 ^ j else n

/-- The index of the highest set bit at or below `maxLog`, or -1. `init` also
asks for bit 32, and the shift takes its count modulo 32 as the processor does. -/
def log2i (n : Int) : Nat → Int
  | 0 => if bit n 0 then 0 else -1
  | i + 1 => if bit n ((i + 1) % 32) then (i + 1 : Nat) else log2i n i

/-- The object with `orders` lists, all empty but the last, which holds the
one chunk at block 0. -/
def withOrders (orders : Nat) : BuddyAllocator where
  orders := orders
  lists := Function.update (fun _ => []) (orders - 1) [0]

/-- `init`. -/
def init (blocks : Int) : BuddyAllocator := withOrders (log2i blocks 32 + 1).toNat

/-- A new node in front of list `index`. -/
def prependNewNode (s : BuddyAllocator) (index : Nat) (blockIndex : Int) : BuddyAllocator :=
  { s with lists := Function.update s.lists index (blockIndex :: s.lists index) }

/-- Unlinks the first node of list `index` that carries `blockIndex`. -/
def removeNode (s : BuddyAllocator) (index : Nat) (blockIndex : Int) : BuddyAllocator :=
  { s with lists := Function.update s.lists index ((s.lists index).erase blockIndex) }

/-- The loop that gives the remainder behind an allocation back, from the far
end: `remaining` free blocks that begin at `base`. -/
def releaseTail : Nat → BuddyAllocator → Int → Int → BuddyAllocator
  | 0, s, _, _ => s
  | j + 1, s, base, remaining =>
    if bit remaining j then
      releaseTail j (prependNewNode s j (base + remaining - 2 ^ j)) base (clearBit remaining j)
    else releaseTail j s base remaining

/-- The search of `allocateBlocks(int)` over the lists `i`, `i + 1`, ...: the
first non-empty one gives up its head. -/
def allocateBlocksFrom (s : BuddyAllocator) (sizeInBlocks : Int) : Nat → Nat → BuddyAllocator × Int
  | 0, _ => (s, -1)
  | lists + 1, i =>
    match s.lists i with
    | found :: _ =>
      (releaseTail i (removeNode s i found) (found + sizeInBlocks) (2 ^ i - sizeInBlocks), found)
    | [] => allocateBlocksFrom s sizeInBlocks lists (i + 1)

/-- The order `allocateBlocks(int)` starts its search at. -/
def startIndex (s : BuddyAllocator) (sizeInBlocks : Int) : Int :=
  let index := log2i sizeInBlocks s.orders
  index + if clearBit sizeInBlocks (index % 32).toNat ≠ 0 then 1 else 0

/-- `allocateBlocks(int)`. There is no result when the search would start below
the first list, as it does for no blocks at all. -/
def allocateBlocks (s : BuddyAllocator) (sizeInBlocks : Int) : Option (BuddyAllocator × Int) :=
  let index := startIndex s sizeInBlocks
  if index < 0 then none
  else some (allocateBlocksFrom s sizeInBlocks (s.orders - index.toNat) index.toNat)

/-- `allocateAlignedBlocks` over the lists below `i`: takes the free chunk that
begins exactly at `blockIndex` and returns its size, or 0. -/
def allocateAlignedBlocksFrom (s : BuddyAllocator) (blockIndex : Int) : Nat → BuddyAllocator × Int
  | 0 => (s, 0)
  | i + 1 =>
    if blockIndex ∈ s.lists i then (removeNode s i blockIndex, 2 ^ i)
    else allocateAlignedBlocksFrom s blockIndex i

def allocateAlignedBlocks (s : BuddyAllocator) (blockIndex : Int) : BuddyAllocator × Int :=
  allocateAlignedBlocksFrom s blockIndex s.orders

/-- The comparison with which `allocateBlocks(int, int)` picks a chunk. Its
upper bound admits the block just past the chunk. -/
def matchesChunk (i : Nat) (blockIndex chunk : Int) : Bool :=
  decide (chunk ≤ blockIndex) && decide (blockIndex ≤ chunk + 2 ^ i)

/-- The chunk search of `allocateBlocks(int, int)` over the lists below `i`,
larger chunks first. -/
def locateFrom (s : BuddyAllocator) (blockIndex : Int) : Nat → Option Chunk
  | 0 => none
  | i + 1 =>
    match (s.lists i).find? (matchesChunk i blockIndex) with
    | some chunk => some ⟨i, chunk⟩
    | none => locateFrom s blockIndex i

def locate (s : BuddyAllocator) (blockIndex : Int) : Option Chunk :=
  locateFrom s blockIndex s.orders

/-- The loop that gives the blocks before the request back. -/
def releaseHead : Nat → BuddyAllocator → Int → Int → BuddyAllocator × Int
  | 0, s, _, newBlockIndex => (s, newBlockIndex)
  | j + 1, s, remaining, newBlockIndex =>
    if bit remaining j then
      releaseHead j (prependNewNode s j newBlockIndex) remaining (newBlockIndex + 2 ^ j)
    else releaseHead j s remaining newBlockIndex

/-- What the `do`/`while` over the following chunks leaves behind. -/
structure ChunkWalk where
  allocator : BuddyAllocator
  newBlockIndex : Int
  blocksToRead : Int
  lastReadChunkSize : Int

/-- The `do`/`while` that takes chunks until the request is covered. A search
that finds no chunk takes nothing, and the loop then spins: no `fuel` is enough. -/
def readChunks : Nat → BuddyAllocator → Int → Int → Option ChunkWalk
  | 0, _, _, _ => none
  | fuel + 1, s, newBlockIndex, blocksToRead =>
    let (s, lastReadChunkSize) := allocateAlignedBlocks s newBlockIndex
    let blocksToRead := blocksToRead - lastReadChunkSize
    let newBlockIndex := newBlockIndex + lastReadChunkSize
    if blocksToRead > 0 then readChunks fuel s newBlockIndex blocksToRead
    else some ⟨s, newBlockIndex, blocksToRead, lastReadChunkSize⟩

/-- The body of `allocateBlocks(int, int)` once a chunk is picked. -/
def carve (fuel : Nat) (s : BuddyAllocator) (fc : Chunk) (blockIndex sizeInBlocks : Int) :
    Option BuddyAllocator :=
  let chunkSizeInBlocks : Int := 2 ^ fc.order
  let remainingFreeBlocks := blockIndex - fc.start
  let (s, newBlockIndex) := releaseHead fc.order (removeNode s fc.order fc.start)
    remainingFreeBlocks (blockIndex - remainingFreeBlocks)
  let blocksToRead := -(chunkSizeInBlocks - sizeInBlocks - (blockIndex - fc.start))
  if blocksToRead > 0 then
    match readChunks fuel s (newBlockIndex + (fc.start + chunkSizeInBlocks - blockIndex))
        blocksToRead with
    | none => none
    | some walk =>
      let newBlockIndex := walk.newBlockIndex - walk.lastReadChunkSize
      let remainingSize := blockIndex + sizeInBlocks - newBlockIndex
      if walk.blocksToRead < 0 then
        -- the orders below the first chunk's are the only ones given back
        some (releaseTail fc.order walk.allocator (newBlockIndex + remainingSize) (-walk.blocksToRead))
      else some walk.allocator
  else if blocksToRead < 0 then
    some (releaseTail fc.order s (newBlockIndex + sizeInBlocks) (-blocksToRead))
  else some s

/-- `allocateBlocks(int, int)`, running its chunk loop at most `fuel` times. -/
def allocateBlocksAt (fuel : Nat) (s : BuddyAllocator) (blockIndex sizeInBlocks : Int) :
    Option (BuddyAllocator × Int) :=
  match locate s blockIndex with
  | none => some (s, -1)
  | some fc => (carve fuel s fc blockIndex sizeInBlocks).map fun s => (s, blockIndex)

/-- `freeAlignedBlock`. There is no result when the list index lies outside the
array. -/
def freeAlignedBlock (s : BuddyAllocator) (blockIndex : Int) (order : Int) : Option BuddyAllocator :=
  if 0 ≤ order ∧ order < s.orders then some (prependNewNode s order.toNat blockIndex) else none

/-- The first loop of `freeBlocks`, for the bits from `32 - bits` up. -/
def freeLowBits (limit : Int) : Nat → BuddyAllocator → Int → Option (BuddyAllocator × Int)
  | 0, s, pos => some (s, pos)
  | bits + 1, s, pos =>
    let i := 31 - bits
    if bit pos i ∧ pos + 2 ^ i ≤ limit then
      match freeAlignedBlock s pos (2 ^ i) with
      | none => none
      | some s => freeLowBits limit bits s (pos + 2 ^ i)
    else freeLowBits limit bits s pos

/-- The second loop of `freeBlocks`, for the bits from 32 down. -/
def freeHighBits (remaining : Int) : Nat → BuddyAllocator → Int → Option BuddyAllocator
  | 0, s, _ => some s
  | i + 1, s, pos =>
    if bit remaining (i % 32) then
      match freeAlignedBlock s pos (2 ^ (i % 32)) with
      | none => none
      | some s => freeHighBits remaining i s (pos + 2 ^ (i % 32))
    else freeHighBits remaining i s pos

/-- `freeBlocks`. -/
def freeBlocks (s : BuddyAllocator) (firstBlockNumber sizeInBlocks : Int) : Option BuddyAllocator :=
  match freeLowBits (firstBlockNumber + sizeInBlocks) 32 s firstBlockNumber with
  | none => none
  | some (s, pos) => freeHighBits (firstBlockNumber + sizeInBlocks - pos) 33 s pos

end BuddyAllocator

end FluxOS
