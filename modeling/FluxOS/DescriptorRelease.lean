import FluxOS.MemoryContext
import FluxOS.RemovalEffect

/-! Releasing descriptors one after the other: the pages that go, and the
descriptors that stay. -/
namespace FluxOS.MemoryContext
open Words PagingManager

/-- The ranges whose pages are removed: those of mapped files stay mapped. -/
def releasedRanges (descriptors : List MemoryDescriptor) : List (Word × Word) :=
  (descriptors.filter fun d => !d.isMappedFile).map fun d => (d.baseAddress, roundToPageMultiples d.length)

/-- `releaseDescriptor` for each of the descriptors. -/
def releaseAll (ctx : MemoryContext) (p : Paging) (descriptors : List MemoryDescriptor) :
    Option (MemoryContext × Paging) :=
  descriptors.foldlM (fun (ctx, p) d => ctx.releaseDescriptor p d) (ctx, p)

theorem releaseAll_cons (ctx : MemoryContext) (p : Paging) (d : MemoryDescriptor) (rest : List MemoryDescriptor) :
    ctx.releaseAll p (d :: rest) = (ctx.releaseDescriptor p d).bind fun (ctx, p) => ctx.releaseAll p rest := by
  rw [releaseAll, List.foldlM_cons]
  rfl

theorem releaseAll_eq (ctx : MemoryContext) (p : Paging) (descriptors : List MemoryDescriptor) :
    ctx.releaseAll p descriptors = (removeRanges p (releasedRanges descriptors)).toOption.map
      fun p => ({ ctx with descriptors := ctx.descriptors.diff descriptors }, p) := by
  induction descriptors generalizing ctx p with
  | nil => rfl
  | cons d rest ih =>
    rw [List.diff_cons]
    by_cases file : d.isMappedFile
    · have skipped : releasedRanges (d :: rest) = releasedRanges rest := by
        simp [releasedRanges, file]
      rw [releaseAll_cons, releaseDescriptor, if_pos file, skipped]
      exact ih _ p
    · have taken : releasedRanges (d :: rest) = (d.baseAddress, roundToPageMultiples d.length) :: releasedRanges rest := by
        simp [releasedRanges, file]
      rw [releaseAll_cons, releaseDescriptor, if_neg file, taken, removeRanges, List.foldlM_cons]
      cases removePages p d.baseAddress (roundToPageMultiples d.length) with
      | error failure => rfl
      | ok next => exact ih _ next

/-- Releasing what a test selects leaves what it does not select. -/
theorem diff_filter (test : MemoryDescriptor → Bool) (descriptors : List MemoryDescriptor) :
    descriptors.diff (descriptors.filter test) = descriptors.filter fun d => !test d := by
  induction descriptors with
  | nil => rfl
  | cons d rest ih =>
    by_cases selected : test d
    · rw [List.filter_cons_of_pos selected, List.diff_cons, List.erase_cons_head, ih]
      simp [selected]
    · have absent : d ∉ rest.filter test := fun member => selected (List.mem_filter.mp member).2
      rw [List.filter_cons_of_neg selected, List.cons_diff_of_not_mem absent, ih]
      simp [selected]

/-- The destructor leaves no descriptor, where the removal of the pages completes. -/
theorem destroy_eq (ctx : MemoryContext) (p : Paging) :
    ctx.destroy p = (removeRanges p (releasedRanges ctx.descriptors.reverse)).toOption.map
      fun p => ({ ctx with descriptors := [] }, p) := by
  have none : ctx.descriptors.diff ctx.descriptors.reverse = [] := by
    rw [(List.reverse_perm ctx.descriptors).diff_left]
    simpa using diff_filter (fun _ => true) ctx.descriptors
  rw [← none]
  exact releaseAll_eq ctx p _

end FluxOS.MemoryContext
