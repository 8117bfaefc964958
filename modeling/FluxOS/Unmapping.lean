import FluxOS.AddressSpace
import FluxOS.MemoryUAPI

/-! What `munmap` takes out of an address space. It releases whole descriptors,
and it picks them by where they end. -/
namespace FluxOS
open Words PagingManager

namespace MemoryContext
open MemoryDescriptor

/-- No address lies in two descriptors. -/
def Apart (descriptors : List MemoryDescriptor) : Prop :=
  descriptors.Pairwise fun d d' => ∀ address, ¬(d.contains address ∧ d'.contains address)

/-- The address lies in `[low, low + length)`, as a number. -/
def InRange (low length address : Word) : Prop :=
  low.toNat ≤ address.toNat ∧ address.toNat < low.toNat + length.toNat

/-- Where no address has two descriptors, the one that contains an address is
found. -/
theorem Apart.find {descriptors : List MemoryDescriptor} (apart : Apart descriptors) {d : MemoryDescriptor}
    (member : d ∈ descriptors) {address : Word} (contained : d.contains address) :
    descriptors.find? (fun d => d.contains address) = some d := by
  induction descriptors with
  | nil => cases member
  | cons first rest ih =>
    obtain ⟨firstApart, restApart⟩ := List.pairwise_cons.mp apart
    rcases List.mem_cons.mp member with rfl | later
    · exact List.find?_cons_of_pos (p := fun e : MemoryDescriptor => e.contains address) contained
    · have other : ¬ first.contains address := fun both => firstApart d later address ⟨both, contained⟩
      exact (List.find?_cons_of_neg (p := fun e : MemoryDescriptor => e.contains address) other).trans (ih restApart later)

/-- Among some of the descriptors an address is mapped as before, if the one that
contains it is among them, and else not at all. -/
theorem Apart.mappingAt_filter {ctx : MemoryContext} (apart : Apart ctx.descriptors) (test : MemoryDescriptor → Bool)
    {d : MemoryDescriptor} (member : d ∈ ctx.descriptors) {address : Word} (contained : d.contains address) :
    mappingAt { ctx with descriptors := ctx.descriptors.filter test } address =
      if test d then some (d.mapping address) else none := by
  by_cases kept : test d
  · have keptApart : Apart (ctx.descriptors.filter test) := List.Pairwise.filter test apart
    have found := keptApart.find (List.mem_filter.mpr ⟨member, kept⟩) contained
    rw [mappingAt, findMemoryDescriptor, found, if_pos kept]
    rfl
  · rw [if_neg kept, mappingAt_eq_none_iff]
    intro other otherMember
    obtain ⟨inside, otherKept⟩ := List.mem_filter.mp otherMember
    by_contra alsoContained
    have same := (apart.find inside (Bool.eq_true_of_not_eq_false alsoContained)).symm.trans (apart.find member contained)
    rw [Option.some.injEq] at same
    exact kept (same ▸ otherKept)

end MemoryContext

namespace MemoryUAPI
open MemoryContext MemoryDescriptor

/-- `munmap` returns, no address of the range is left in a descriptor, and every
other address that was mapped is mapped as before. -/
def UnmapsExactly (process : ProcessControlBlock) (p : Paging) (addr length : Word) : Prop :=
  ∃ after p', munmap process p addr length = some (after, p', 0#32) ∧
    (∀ address, InRange addr length address → ∀ d ∈ after.memoryContext.descriptors, d.contains address = false) ∧
    ∀ address mapping, ¬ InRange addr length address → process.memoryContext.mappingAt address = some mapping →
      after.memoryContext.mappingAt address = some mapping

/-- Every descriptor with an address in the range lies wholly in it, and then the
range ends below 2^32. -/
def CutsNothing (ctx : MemoryContext) (addr length : Word) : Prop :=
  ∀ d ∈ ctx.descriptors, ∀ address, d.contains address → InRange addr length address →
    addr.toNat + length.toNat < 2 ^ 32 ∧ ∀ other, d.contains other → InRange addr length other

theorem munmap_eq (process : ProcessControlBlock) (p : Paging) (addr length : Word) :
    munmap process p addr length =
      (removeRanges p (releasedRanges (process.memoryContext.findMemoryDescriptorsByRange addr (addr + length)))).toOption.map
        fun p => (setContext process { process.memoryContext with
          descriptors := process.memoryContext.descriptors.filter fun d => !endsInRange addr (addr + length) d }, p, 0#32) := by
  rw [munmap, releaseAll_eq, findMemoryDescriptorsByRange, diff_filter, Option.map_map]
  rfl

/-- A descriptor with an address in the range is picked when it ends in the range. -/
theorem endsInRange_iff (addr length : Word) (d : MemoryDescriptor) : endsInRange addr (addr + length) d ↔
    addr.toNat < d.endAddress.toNat ∧ d.endAddress.toNat ≤ (addr.toNat + length.toNat) % 2 ^ 32 := by
  simp [endsInRange, BitVec.lt_def, BitVec.le_def, BitVec.toNat_add]

/-- The descriptors that are picked are those with an address in the range, and
nothing is picked that sticks out, exactly when no descriptor is cut. -/
theorem cutsNothing_iff (ctx : MemoryContext) (addr length : Word) : CutsNothing ctx addr length ↔
    ∀ d ∈ ctx.descriptors, ∀ address, d.contains address →
      (InRange addr length address ↔ endsInRange addr (addr + length) d) := by
  have bound := addr.isLt
  have size := length.isLt
  have wraps : 2 ^ 32 ≤ addr.toNat + length.toNat →
      (addr.toNat + length.toNat) % 2 ^ 32 = addr.toNat + length.toNat - 2 ^ 32 := by
    intro past
    omega
  constructor
  · intro whole d member address contained
    have inside := (d.contains_iff address).mp contained
    rw [endsInRange_iff]
    constructor
    · intro hit
      obtain ⟨below, all⟩ := whole d member address contained hit
      obtain ⟨last, lastValue⟩ := exists_last contained
      have lastInside := all last ((d.contains_iff last).mpr (by omega))
      rw [Nat.mod_eq_of_lt below]
      simp only [InRange] at hit lastInside
      omega
    · intro picked
      obtain ⟨last, lastValue⟩ := exists_last contained
      have lastContained : d.contains last := (d.contains_iff last).mpr (by omega)
      have below : addr.toNat + length.toNat < 2 ^ 32 := by
        by_contra past
        rw [wraps (by omega)] at picked
        omega
      rw [Nat.mod_eq_of_lt below] at picked
      have lastHit : InRange addr length last := ⟨by omega, by omega⟩
      exact (whole d member last lastContained lastHit).2 address contained
  · intro picks d member address contained hit
    have picked := (endsInRange_iff addr length d).mp ((picks d member address contained).mp hit)
    refine ⟨?_, fun other otherContained => (picks d member other otherContained).mpr
      ((endsInRange_iff addr length d).mpr picked)⟩
    by_contra past
    rw [wraps (by omega)] at picked
    omega

/-- Where no address has two descriptors, `munmap` is exact when it cuts no
descriptor and the pages of those in the range can be removed, and only then. -/
theorem munmap_exact_iff {process : ProcessControlBlock} (apart : Apart process.memoryContext.descriptors)
    (p : Paging) (addr length : Word) : UnmapsExactly process p addr length ↔
      CutsNothing process.memoryContext addr length ∧
      RangesComplete p (releasedRanges (process.memoryContext.findMemoryDescriptorsByRange addr (addr + length))) := by
  rw [cutsNothing_iff]
  rcases removeRanges_returns p
    (releasedRanges (process.memoryContext.findMemoryDescriptorsByRange addr (addr + length))) with
    ⟨complete, p', ran, -⟩ | ⟨blocked, failure, failed⟩
  · rw [UnmapsExactly, munmap_eq, ran]
    constructor
    · rintro ⟨after, last, did, cleared, kept⟩
      simp only [Except.toOption, Option.map_some, Option.some.injEq, Prod.mk.injEq] at did
      obtain ⟨rfl, -, -⟩ := did
      refine ⟨fun d member address contained => ⟨fun hit => ?_, fun picked => ?_⟩, complete⟩
      · by_contra unpicked
        have left := cleared address hit d (List.mem_filter.mpr ⟨member, by simpa using unpicked⟩)
        rw [contained] at left
        cases left
      · by_contra outside
        have before : process.memoryContext.mappingAt address = some (d.mapping address) :=
          congrArg (Option.map _) (apart.find member contained)
        have after := kept address _ outside before
        rw [setContext, apart.mappingAt_filter _ member contained, picked] at after
        cases after
    · rintro ⟨picks, -⟩
      refine ⟨_, p', rfl, fun address hit d member => ?_, fun address mapping outside mapped => ?_⟩
      · obtain ⟨stays, unpicked⟩ := List.mem_filter.mp member
        by_contra contained
        have picked := (picks d stays address (Bool.eq_true_of_not_eq_false contained)).mp hit
        rw [picked] at unpicked
        cases unpicked
      · obtain ⟨d, found, mapping⟩ := Option.map_eq_some_iff.mp mapped
        have member := List.mem_of_find?_eq_some found
        have contained : d.contains address := List.find?_some (p := fun e : MemoryDescriptor => e.contains address) found
        have unpicked := mt (picks d member address contained).mpr outside
        rw [setContext, apart.mappingAt_filter _ member contained]
        simp [unpicked, mapping]
  · refine iff_of_false (fun ⟨after, last, did, _⟩ => ?_) fun both => blocked both.2
    rw [munmap_eq, failed] at did
    cases did

/-- One page of a mapped file, unmapped as a whole beside another mapping. -/
theorem munmap_exact_page : ∃ process p, UnmapsExactly process p 0x08000000#32 0x1000#32 := by
  let file : MemoryDescriptor := ⟨0x08000000#32, 0x1000#32, ⟨true, false, false⟩, .memoryMappedFile 5 0#32⟩
  let data : MemoryDescriptor := ⟨0x08001000#32, 0x2000#32, ⟨true, true, false⟩, .anonymousMemory⟩
  have fileEnd : file.endAddress.toNat = 0x08001000 := by decide
  have fileStart : file.baseAddress.toNat = 0x08000000 := by decide
  have dataStart : data.baseAddress.toNat = 0x08001000 := by decide
  have apart : Apart [file, data] := by
    refine List.pairwise_pair.mpr fun address both => ?_
    have inFile := (file.contains_iff address).mp both.1
    have inData := (data.contains_iff address).mp both.2
    omega
  let process : ProcessControlBlock := { (default : ProcessControlBlock) with
    memoryContext := { MemoryContext.new with descriptors := [file, data] } }
  refine ⟨process, ⟨⟨fun _ => 0#32⟩, fun _ _ => 0#32, fun _ => 0#32⟩, ?_⟩
  refine (munmap_exact_iff (show Apart process.memoryContext.descriptors from apart) _ _ _).mpr ⟨fun d member address contained hit => ?_, ?_⟩
  · rcases List.mem_pair.mp member with rfl | rfl
    · refine ⟨by decide, fun other otherContained => ?_⟩
      have inFile := (file.contains_iff other).mp otherContained
      refine ⟨?_, ?_⟩ <;> simp <;> omega
    · have inData := (data.contains_iff address).mp contained
      simp only [InRange, BitVec.toNat_ofNat] at hit
      omega
  · have nothing : releasedRanges (process.memoryContext.findMemoryDescriptorsByRange 0x08000000#32
        (0x08000000#32 + 0x1000#32)) = [] := by decide
    rw [nothing]
    exact ⟨nofun, completes_nil _⟩

/-- Of two mapped pages, the first cannot be unmapped, and unmapping the second
takes the first with it. -/
theorem munmap_picks_by_end : ∃ process : ProcessControlBlock, ∃ p after p',
    process.memoryContext.descriptors =
      [⟨0x08000000#32, 0x2000#32, ⟨true, false, false⟩, .memoryMappedFile 5 0#32⟩] ∧
    munmap process p 0x08000000#32 0x1000#32 = some (process, p, 0#32) ∧
    munmap process p 0x08001000#32 0x1000#32 = some (after, p', 0#32) ∧
    process.memoryContext.mappingAt 0x08000000#32 ≠ none ∧ after.memoryContext.mappingAt 0x08000000#32 = none := by
  let process : ProcessControlBlock := { (default : ProcessControlBlock) with
    memoryContext := { MemoryContext.new with descriptors :=
      [⟨0x08000000#32, 0x2000#32, ⟨true, false, false⟩, .memoryMappedFile 5 0#32⟩] } }
  exact ⟨process, ⟨⟨fun _ => 0#32⟩, fun _ _ => 0#32, fun _ => 0#32⟩, _, _, rfl, rfl, rfl, by decide, by decide⟩

end MemoryUAPI

end FluxOS
