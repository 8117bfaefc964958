import FluxOS.MemoryContext

/-! A memory context read as an address space: what a fault at an address is
served from, and the addresses of a descriptor as a range of numbers. -/
namespace FluxOS
open Words

/-- What a page fault is served from. A mapped file comes with the offset of the
faulting page. -/
structure Mapping where
  permissions : Permissions
  kind : DescriptorKind
  deriving DecidableEq, Repr

/-- The address, as a number, lies in the page-rounded range. -/
def InRounded (base length : Word) (address : Nat) : Prop :=
  base.toNat ≤ address ∧ address < base.toNat + (roundToPageMultiples length).toNat

/-- Lengths are rounded up, modulo 2^32. -/
theorem toNat_roundToPageMultiples (length : Word) :
    (roundToPageMultiples length).toNat = (length.toNat + 4095) / 4096 * 4096 % 2 ^ 32 := by
  have bound := length.isLt
  have offset := toNat_and_offset length
  rw [roundToPageMultiples, BitVec.toNat_add, toNat_and_page]
  by_cases whole : length &&& 0xFFF#32 = 0#32
  · rw [whole, BitVec.toNat_ofNat] at offset
    rw [if_neg (not_not.mpr whole), BitVec.toNat_ofNat]
    omega
  · have partPage : length.toNat % 4096 ≠ 0 := by
      rw [← offset]
      exact fun zero => whole (BitVec.eq_of_toNat_eq zero)
    rw [if_pos whole, BitVec.toNat_ofNat]
    omega

namespace MemoryDescriptor

def mapping (d : MemoryDescriptor) (address : Word) : Mapping where
  permissions := d.permissions
  kind :=
    match d.kind with
    | .memoryMappedFile node offset =>
      .memoryMappedFile node ((address &&& 0xFFFFF000#32) - d.baseAddress + offset)
    | kind => kind

def Covers (d : MemoryDescriptor) (address : Nat) : Prop := InRounded d.baseAddress d.length address

theorem contains_iff (d : MemoryDescriptor) (address : Word) :
    d.contains address ↔ d.baseAddress.toNat ≤ address.toNat ∧ address.toNat < d.endAddress.toNat := by
  simp [contains, BitVec.le_def, BitVec.lt_def]

/-- A descriptor with an address has a last one. -/
theorem exists_last {d : MemoryDescriptor} {address : Word} (contained : d.contains address) :
    ∃ last : Word, last.toNat + 1 = d.endAddress.toNat := by
  have inside := (d.contains_iff address).mp contained
  have bound := d.endAddress.isLt
  refine ⟨BitVec.ofNat 32 (d.endAddress.toNat - 1), ?_⟩
  rw [BitVec.toNat_ofNat]
  omega

private theorem toNat_endAddress_le (d : MemoryDescriptor) :
    d.endAddress.toNat ≤ d.baseAddress.toNat + (roundToPageMultiples d.length).toNat := by
  rw [endAddress, BitVec.toNat_add]
  exact Nat.mod_le _ _

theorem Covers.of_contains {d : MemoryDescriptor} {address : Word} (contained : d.contains address) :
    d.Covers address.toNat := by
  obtain ⟨low, high⟩ := (d.contains_iff address).mp contained
  exact ⟨low, Nat.lt_of_lt_of_le high d.toNat_endAddress_le⟩

end MemoryDescriptor

namespace MemoryContext

def mappingAt (ctx : MemoryContext) (address : Word) : Option Mapping :=
  (ctx.findMemoryDescriptor address).map fun d => d.mapping address

theorem mappingAt_eq_none_iff (ctx : MemoryContext) (address : Word) :
    ctx.mappingAt address = none ↔ ∀ d ∈ ctx.descriptors, d.contains address = false := by
  rw [mappingAt, Option.map_eq_none_iff, findMemoryDescriptor, List.find?_eq_none]
  simp only [Bool.not_eq_true]

end MemoryContext

end FluxOS
