import FluxOS.Unmapping

/-! Changing the protection of a range, `mprotect`. The test that is to keep the
range in user space has its two comparisons the wrong way round and joined the
wrong way: what passes it begins below user space and ends above. Every range
that lies in user space is refused. -/
namespace FluxOS

namespace MemoryContext
open Words MemoryDescriptor

/-- `updatePermissions`, for all the descriptors that `findMemoryDescriptorsByRange`
gives. -/
def updatePermissions (ctx : MemoryContext) (low hi : Word) (permissions : Permissions) : MemoryContext :=
  { ctx with descriptors := ctx.descriptors.map fun d =>
      if endsInRange low hi d then { d with permissions := permissions } else d }

end MemoryContext

namespace MemoryUAPI
open Words PagingManager MemoryContext

def mprotect (process : ProcessControlBlock) (addr len prot : Word) : ProcessControlBlock × Word :=
  if addr = 0#32 then (process, errorCode einval)
  else if ¬ (addr < userspaceLowAddr ∧ addr + len > userspaceHiAddr) then (process, errorCode enomem)
  else if addr.toNat % 4096 ≠ 0 then (process, errorCode einval)
  else
    let permissions := protFlagsToPermissions prot
    (setContext process (process.memoryContext.updatePermissions addr (addr + len) permissions), 0#32)

/-- Every address of `[addr, addr + len)` lies in user space. -/
def InUserSpace (addr len : Word) : Prop :=
  ∀ address : Nat, addr.toNat ≤ address → address < addr.toNat + len.toNat →
    userspaceLowAddr.toNat ≤ address ∧ address ≤ userspaceHiAddr.toNat

/-- Every address of the range is in some descriptor. -/
def EntirelyMapped (ctx : MemoryContext) (addr len : Word) : Prop :=
  ∀ address, InRange addr len address → (ctx.findMemoryDescriptor address).isSome

def permissionsAt (ctx : MemoryContext) (address : Word) : Option Permissions :=
  (ctx.findMemoryDescriptor address).map MemoryDescriptor.permissions

/-- The call changes the permissions of exactly the range, where it is to, and
refuses without a change otherwise. -/
structure ProtectsRightly (process : ProcessControlBlock) (addr len prot : Word) : Prop where
  changes : InUserSpace addr len → EntirelyMapped process.memoryContext addr len →
    ∃ after, mprotect process addr len prot = (after, 0#32) ∧
      (∀ address, InRange addr len address →
        permissionsAt after.memoryContext address = some (protFlagsToPermissions prot)) ∧
      ∀ address, ¬ InRange addr len address →
        permissionsAt after.memoryContext address = permissionsAt process.memoryContext address
  refuses : ¬ (InUserSpace addr len ∧ EntirelyMapped process.memoryContext addr len) →
    ∃ error, 0 < error ∧ error < 4096 ∧ mprotect process addr len prot = (process, errorCode error)

/-- The call passes its tests. -/
def Passes (addr len : Word) : Prop :=
  addr ≠ 0#32 ∧ addr < userspaceLowAddr ∧ addr + len > userspaceHiAddr

/-- No range that begins below user space, other than an empty one, lies in it. -/
theorem Passes.not_inUserSpace {addr len : Word} (passes : Passes addr len) : ¬ InUserSpace addr len := by
  obtain ⟨-, below, above⟩ := passes
  have low : addr.toNat < userspaceLowAddr.toNat := below
  have bottom := toNat_userspaceLowAddr
  have some : 0 < len.toNat := by
    by_contra none
    have empty : len = 0#32 := BitVec.eq_of_toNat_eq (by simpa using none)
    rw [empty, BitVec.add_zero] at above
    have high : userspaceHiAddr.toNat < addr.toNat := above
    have top := toNat_userspaceHiAddr
    omega
  intro inside
  have first := inside addr.toNat le_rfl (by omega)
  omega

theorem mprotect_refused {addr len : Word} (fails : ¬ Passes addr len)
    (process : ProcessControlBlock) (prot : Word) :
    ∃ error, 0 < error ∧ error < 4096 ∧ mprotect process addr len prot = (process, errorCode error) := by
  rw [mprotect]
  by_cases null : addr = 0#32
  · rw [if_pos null]
    exact ⟨einval, by decide, by decide, rfl⟩
  · rw [if_neg null, if_pos fun both => fails ⟨null, both.1, both.2⟩]
    exact ⟨enomem, by decide, by decide, rfl⟩

theorem mprotect_passed {addr len : Word} (aligned : addr.toNat % 4096 = 0) (passes : Passes addr len)
    (process : ProcessControlBlock) (prot : Word) :
    mprotect process addr len prot = (setContext process
      (process.memoryContext.updatePermissions addr (addr + len) (protFlagsToPermissions prot)), 0#32) := by
  rw [mprotect, if_neg passes.1, if_neg (not_not.mpr passes.2), if_neg (not_not.mpr aligned)]

/-- An error is not the answer for success. -/
theorem errorCode_ne_zero {error : Nat} (positive : 0 < error) (small : error < 4096) : errorCode error ≠ 0#32 := by
  intro zero
  have value := congrArg BitVec.toNat zero
  rw [errorCode, BitVec.toNat_neg, BitVec.toNat_ofNat, BitVec.toNat_ofNat] at value
  omega

/-- **`mprotect` is right** only about ranges that it is to refuse, and among them about
those that do not begin below user space and end above it. -/
theorem protects_rightly_iff (process : ProcessControlBlock) {addr : Word} (len prot : Word)
    (aligned : addr.toNat % 4096 = 0) :
    ProtectsRightly process addr len prot ↔
      ¬ (InUserSpace addr len ∧ EntirelyMapped process.memoryContext addr len) ∧ ¬ Passes addr len := by
  constructor
  · rintro ⟨changes, refuses⟩
    have failed : ¬ Passes addr len := by
      intro passes
      obtain ⟨error, positive, small, refused⟩ := refuses fun both => passes.not_inUserSpace both.1
      rw [mprotect_passed aligned passes] at refused
      exact errorCode_ne_zero positive small (congrArg Prod.snd refused).symm
    refine ⟨fun both => ?_, failed⟩
    obtain ⟨after, succeeded, -⟩ := changes both.1 both.2
    obtain ⟨error, positive, small, refused⟩ := mprotect_refused failed process prot
    rw [refused] at succeeded
    exact errorCode_ne_zero positive small (congrArg Prod.snd succeeded)
  · rintro ⟨toRefuse, failed⟩
    exact ⟨fun inside mapped => absurd ⟨inside, mapped⟩ toRefuse,
      fun _ => mprotect_refused failed process prot⟩

/-- A process with one page, mapped where user space begins. -/
def protectedPage : ProcessControlBlock := { (default : ProcessControlBlock) with
  memoryContext := { MemoryContext.new with
    descriptors := [⟨0x08000000#32, 0x1000#32, ⟨true, true, false⟩, .anonymousMemory⟩] } }

/-- The page below it is refused. -/
theorem page_below_refused : ProtectsRightly protectedPage 0x07FFF000#32 0x1000#32 protRead := by
  refine (protects_rightly_iff protectedPage 0x1000#32 protRead (by decide)).mpr ⟨fun both => ?_, fun passes => ?_⟩
  · exact absurd (both.1 0x07FFF000 (by decide) (by decide)).1 (by decide)
  · exact absurd passes.2.2 (by decide)

/-- So is the page itself. -/
theorem page_not_protected :
    Apart protectedPage.memoryContext.descriptors ∧ InUserSpace 0x08000000#32 0x1000#32 ∧
      EntirelyMapped protectedPage.memoryContext 0x08000000#32 0x1000#32 ∧
      mprotect protectedPage 0x08000000#32 0x1000#32 protRead = (protectedPage, errorCode enomem) ∧
      ¬ ProtectsRightly protectedPage 0x08000000#32 0x1000#32 protRead := by
  have inside : InUserSpace 0x08000000#32 0x1000#32 := by
    intro address low high
    simp only [BitVec.toNat_ofNat] at low high
    exact ⟨low, by rw [toNat_userspaceHiAddr]; omega⟩
  have mapped : EntirelyMapped protectedPage.memoryContext 0x08000000#32 0x1000#32 := by
    intro address within
    have held : (⟨0x08000000#32, 0x1000#32, ⟨true, true, false⟩, .anonymousMemory⟩ : MemoryDescriptor).contains
        address := by
      rw [MemoryDescriptor.contains_iff]
      exact ⟨within.1, within.2⟩
    rw [findMemoryDescriptor, List.find?_isSome]
    exact ⟨_, List.mem_singleton_self _, held⟩
  have refused : mprotect protectedPage 0x08000000#32 0x1000#32 protRead = (protectedPage, errorCode enomem) := rfl
  refine ⟨List.pairwise_singleton _ _, inside, mapped, refused, fun right => ?_⟩
  obtain ⟨after, succeeded, -⟩ := right.changes inside mapped
  have same : errorCode enomem = 0#32 := congrArg Prod.snd (refused.symm.trans succeeded)
  exact absurd same (by decide)

end MemoryUAPI

end FluxOS
