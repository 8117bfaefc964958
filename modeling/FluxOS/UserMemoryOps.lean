import FluxOS.PagingManager

/-! The checks on user pointers and the copies that rely on them. The checks
compare a 32-bit sum, so a size that carries the sum past the end of the address
space passes them. -/
namespace FluxOS.UserMemoryOps
open Words

abbrev Byte := BitVec 8

/-- The memory of the address space at hand. -/
abbrev Memory := Word → Byte

def efault : Int := 14

def canWriteUserMemory (ptr size : Word) : Bool :=
  decide (userspaceLowAddr ≤ ptr) && decide (ptr + size ≤ userspaceHiAddr)

def canReadUserMemory (ptr size : Word) : Bool :=
  decide (userspaceLowAddr ≤ ptr) && decide (ptr + size ≤ userspaceHiAddr)

/-- `memcpy` into memory: byte after byte, the address counting modulo 2^32. -/
def copyIn (mem : Memory) (dest : Word) (src : Nat → Byte) : Nat → Memory
  | 0 => mem
  | i + 1 => Function.update (copyIn mem dest src i) (dest + BitVec.ofNat 32 i) (src i)

/-- `memcpy` out of memory. -/
def copyOut (mem : Memory) (src : Word) (size : Nat) : List Byte :=
  (List.range size).map fun i => mem (src + BitVec.ofNat 32 i)

/-- Only the bytes that are copied matter. -/
theorem copyIn_congr (mem : Memory) (dest : Word) {src other : Nat → Byte} {size : Nat}
    (same : ∀ i < size, src i = other i) : copyIn mem dest src size = copyIn mem dest other size := by
  induction size with
  | zero => rfl
  | succ size ih =>
    rw [copyIn, copyIn, ih fun i bound => same i (by omega), same size (by omega)]

/-- Two copies, the one behind the other, are one. -/
theorem copyIn_append (mem : Memory) (dest : Word) (src next : Nat → Byte) (size more : Nat) :
    copyIn (copyIn mem dest src size) (dest + BitVec.ofNat 32 size) next more =
      copyIn mem dest (fun i => if i < size then src i else next (i - size)) (size + more) := by
  induction more with
  | zero => exact copyIn_congr mem dest fun i bound => (if_pos bound).symm
  | succ more ih =>
    have place : dest + BitVec.ofNat 32 size + BitVec.ofNat 32 more = dest + BitVec.ofNat 32 (size + more) := by
      rw [BitVec.ofNat_add, BitVec.add_assoc]
    rw [← Nat.add_assoc, copyIn, copyIn, ih, place, if_neg (by omega), Nat.add_sub_cancel_left]

/-- A copy that goes on where another one ended. -/
theorem copyIn_continue (mem : Memory) (dest : Word) (src : Nat → Byte) {next : Nat → Byte} {size more : Nat}
    (goesOn : ∀ i < more, next i = src (size + i)) :
    copyIn (copyIn mem dest src size) (dest + BitVec.ofNat 32 size) next more = copyIn mem dest src (size + more) := by
  rw [copyIn_append]
  apply copyIn_congr
  intro i bound
  by_cases first : i < size
  · rw [if_pos first]
  · rw [if_neg first, goesOn _ (by omega), Nat.add_sub_cancel' (by omega)]

/-- `memcpyToUser`: the result and the memory afterwards. -/
def memcpyToUser (mem : Memory) (dest : Word) (src : Nat → Byte) (size : Word) : Int × Memory :=
  if canWriteUserMemory dest size then (0, copyIn mem dest src size.toNat) else (-efault, mem)

/-- `memcpyFromUser`: the result and the bytes that reach the kernel. -/
def memcpyFromUser (mem : Memory) (src size : Word) : Int × List Byte :=
  if canReadUserMemory src size then (0, copyOut mem src size.toNat) else (-efault, [])

/-- The address, as a number, lies in user space. -/
def UserAddress (address : Nat) : Prop := userspaceLowAddr.toNat ≤ address ∧ address ≤ userspaceHiAddr.toNat

/-- Every byte of the access lies in user space, without wrapping around. -/
def TouchesOnlyUser (ptr size : Word) : Prop := ∀ i < size.toNat, UserAddress (ptr.toNat + i)

/-- The checks pass only accesses to user space, so `memcpyToUser` changes no
other byte and what `memcpyFromUser` hands on depends on no other byte. -/
structure PointerChecked (ptr size : Word) : Prop where
  canWrite : canWriteUserMemory ptr size → TouchesOnlyUser ptr size
  canRead : canReadUserMemory ptr size → TouchesOnlyUser ptr size
  writes : ∀ mem src address, ¬ UserAddress address.toNat → (memcpyToUser mem ptr src size).2 address = mem address
  reads : ∀ mem mem' : Memory, (∀ address, UserAddress address.toNat → mem address = mem' address) →
    memcpyFromUser mem ptr size = memcpyFromUser mem' ptr size

/-- The pointer is below user space, or its sum with the size does not reach
2^32, or it reaches so far that the rest is past the end of user space again. -/
def SumChecked (ptr size : Word) : Prop :=
  ptr.toNat < userspaceLowAddr.toNat ∨ ptr.toNat + size.toNat < 2 ^ 32 ∨
    userspaceHiAddr.toNat < ptr.toNat + size.toNat - 2 ^ 32

theorem canWriteUserMemory_iff (ptr size : Word) : canWriteUserMemory ptr size ↔
    userspaceLowAddr.toNat ≤ ptr.toNat ∧ (ptr.toNat + size.toNat) % 2 ^ 32 ≤ userspaceHiAddr.toNat := by
  simp [canWriteUserMemory, BitVec.le_def, BitVec.toNat_add]

/-- What passes touches only user space exactly when the sum did not wrap into it. -/
theorem touchesOnlyUser_iff {ptr size : Word} (passes : canWriteUserMemory ptr size) :
    TouchesOnlyUser ptr size ↔ ptr.toNat + size.toNat < 2 ^ 32 := by
  obtain ⟨low, high⟩ := (canWriteUserMemory_iff ptr size).mp passes
  have small := ptr.isLt
  have top := toNat_userspaceHiAddr
  constructor
  · intro touches
    by_contra wraps
    -- the last byte is at or behind the end of the address space
    have last := (touches (size.toNat - 1) (by omega)).2
    omega
  · intro noWrap i bound
    rw [Nat.mod_eq_of_lt noWrap] at high
    exact ⟨by omega, by omega⟩

theorem passes_iff {ptr size : Word} (wraps : 2 ^ 32 ≤ ptr.toNat + size.toNat) :
    canWriteUserMemory ptr size ↔ ¬ SumChecked ptr size := by
  have sizeBound := size.isLt
  have small := ptr.isLt
  have rest : (ptr.toNat + size.toNat) % 2 ^ 32 = ptr.toNat + size.toNat - 2 ^ 32 := by omega
  rw [canWriteUserMemory_iff, rest, SumChecked]
  omega

/-! ## The copies -/

theorem toNat_offset {ptr : Word} {i : Nat} (noWrap : ptr.toNat + i < 2 ^ 32) :
    (ptr + BitVec.ofNat 32 i).toNat = ptr.toNat + i := by
  rw [BitVec.toNat_add, BitVec.toNat_ofNat]
  omega

theorem copyIn_other {dest address : Word} (mem : Memory) (src : Nat → Byte) {n : Nat}
    (outside : ∀ i < n, address ≠ dest + BitVec.ofNat 32 i) : copyIn mem dest src n address = mem address := by
  induction n with
  | zero => rfl
  | succ n ih =>
    rw [copyIn, Function.update_of_ne (outside n (Nat.lt_succ_self n))]
    exact ih fun i bound => outside i (Nat.lt_succ_of_lt bound)

/-- Below 2^32 bytes no byte is written twice. -/
theorem copyIn_at (mem : Memory) (dest : Word) (src : Nat → Byte) {n i : Nat} (bound : i < n) (size : n ≤ 2 ^ 32) :
    copyIn mem dest src n (dest + BitVec.ofNat 32 i) = src i := by
  induction n with
  | zero => exact absurd bound (Nat.not_lt_zero i)
  | succ n ih =>
    rw [copyIn]
    by_cases last : i = n
    · rw [last, Function.update_self]
    · have different : dest + BitVec.ofNat 32 i ≠ dest + BitVec.ofNat 32 n := by
        intro same
        have offsets := congrArg BitVec.toNat (BitVec.add_right_inj dest |>.mp same)
        simp only [BitVec.toNat_ofNat] at offsets
        omega
      rw [Function.update_of_ne different]
      exact ih (by omega) (by omega)

theorem copyOut_congr {mem mem' : Memory} {src : Word} {n : Nat}
    (same : ∀ i < n, mem (src + BitVec.ofNat 32 i) = mem' (src + BitVec.ofNat 32 i)) :
    copyOut mem src n = copyOut mem' src n :=
  List.map_congr_left fun i member => same i (List.mem_range.mp member)

/-- **User pointers are checked** exactly when the 32-bit sum did not wrap into
the accepted range. -/
theorem pointer_checked_iff (ptr size : Word) : PointerChecked ptr size ↔ SumChecked ptr size := by
  constructor
  · intro checked
    by_contra unchecked
    have wraps : 2 ^ 32 ≤ ptr.toNat + size.toNat := by
      simp only [SumChecked] at unchecked
      omega
    have passes := (passes_iff wraps).mpr unchecked
    have noWrap := (touchesOnlyUser_iff passes).mp (checked.canWrite passes)
    omega
  · intro sumChecked
    have touches : canWriteUserMemory ptr size → TouchesOnlyUser ptr size := by
      intro passes
      by_cases noWrap : ptr.toNat + size.toNat < 2 ^ 32
      · exact (touchesOnlyUser_iff passes).mpr noWrap
      · exact absurd sumChecked ((passes_iff (by omega)).mp passes)
    have inUser : canWriteUserMemory ptr size → ∀ i < size.toNat,
        UserAddress (ptr + BitVec.ofNat 32 i).toNat := by
      intro passes i bound
      have noWrap := (touchesOnlyUser_iff passes).mp (touches passes)
      rw [toNat_offset (by omega)]
      exact touches passes i bound
    refine ⟨touches, touches, fun mem src address kernel => ?_, fun mem mem' agree => ?_⟩
    · unfold memcpyToUser
      split
      · rename_i passes
        exact copyIn_other mem src fun i bound same => kernel (same ▸ inUser passes i bound)
      · rfl
    · unfold memcpyFromUser
      split
      · rename_i passes
        rw [copyOut_congr fun i bound => agree _ (inUser passes i bound)]
      · rfl

/-- A write of everything from the start of user space to the end of memory
passes, and reaches the page directory at 0xFFFFF000. -/
theorem write_reaches_page_directory :
    canWriteUserMemory 0x08000000#32 0xF8000000#32 = true ∧ ¬ PointerChecked 0x08000000#32 0xF8000000#32 ∧
      ∀ mem, (memcpyToUser mem 0x08000000#32 (fun _ => 7#8) 0xF8000000#32).2 0xFFFFF000#32 = 7#8 := by
  have passes : canWriteUserMemory 0x08000000#32 0xF8000000#32 = true := by decide
  refine ⟨passes, fun checked => ?_, fun mem => ?_⟩
  · have last := (checked.canWrite passes (0xF8000000 - 1) (by decide)).2
    exact absurd last (by decide)
  · have reached : ∀ n, 0xF7FFF000 < n → n ≤ 2 ^ 32 →
        copyIn mem 0x08000000#32 (fun _ => 7#8) n 0xFFFFF000#32 = 7#8 := by
      intro n bound size
      have written := copyIn_at mem 0x08000000#32 (fun _ => 7#8) bound size
      rwa [show 0x08000000#32 + BitVec.ofNat 32 0xF7FFF000 = 0xFFFFF000#32 by decide] at written
    simp only [memcpyToUser, if_pos passes]
    exact reached _ (by decide) (by decide)

end FluxOS.UserMemoryOps
