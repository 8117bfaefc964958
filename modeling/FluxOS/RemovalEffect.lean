import FluxOS.PageRemoval

/-! What removing pages does at any address, the window of the page tables
included: when a removal runs to its end, and what it has cleared then. -/
namespace FluxOS.PagingManager
open Words PhysicalMM

/-- An entry of the loaded directory, or an entry of the table in a page. -/
inductive Slot where
  | dir (ti : Nat)
  | table (page ti : Nat)
  deriving DecidableEq

def Slot.entry (p : Paging) : Slot → Word
  | dir ti => p.pageDir ti
  | table n ti => p.tables n ti

/-- The slot that maps the address. -/
def slotOf (dir : Nat → Word) (address : Word) : Slot :=
  if addrToPageDirIndex address = 1023 then .dir (addrToPageTableIndex address)
  else .table (page (dir (addrToPageDirIndex address))) (addrToPageTableIndex address)

/-- The page mapped at the address, 0 where there is none. -/
def mappedPage (p : Paging) (address : Word) : Nat := page ((slotOf p.pageDir address).entry p)

/-- The slot of the address is cleared, and the page it named is free. -/
structure Clears (p : Paging) (address : Word) (p' : Paging) : Prop where
  entries : ∀ s : Slot, s.entry p' = if s = slotOf p.pageDir address then 0#32 else s.entry p
  bits : ∀ n, p'.physicalMM.allocated n =
    (p.physicalMM.allocated n && !(decide (mappedPage p address ≠ 0) && decide (n = mappedPage p address)))

/-- A table maps the address, and the page it maps there is not free already. -/
structure Clearable (p : Paging) (address : Word) : Prop where
  present : has (p.pageDir (addrToPageDirIndex address)) present
  marked : mappedPage p address ≠ 0 → p.physicalMM.allocated (mappedPage p address)

private theorem pageTable_eq_entry (p : Paging) (address : Word) :
    pageTable p (addrToPageDirIndex address) (addrToPageTableIndex address) = (slotOf p.pageDir address).entry p := by
  by_cases window : addrToPageDirIndex address = 1023
  · simp only [pageTable, slotOf, if_pos window, Slot.entry]
  · simp only [pageTable, slotOf, if_neg window, Slot.entry]

private theorem entry_setEntry (p : Paging) (address : Word) (s : Slot) :
    s.entry (setEntry p (addrToPageDirIndex address) (addrToPageTableIndex address) 0#32) =
      if s = slotOf p.pageDir address then 0#32 else s.entry p := by
  by_cases window : addrToPageDirIndex address = 1023
  · cases s with
    | dir ti => simp [setEntry, setPageTable, pageTable, slotOf, window, Slot.entry, Function.update_apply]
    | table n ti => simp [setEntry, setPageTable, slotOf, window, Slot.entry]
  · cases s with
    | dir ti => simp [setEntry, setPageTable, slotOf, window, Slot.entry]
    | table n ti =>
      by_cases same : n = page (p.pageDir (addrToPageDirIndex address))
      · simp [setEntry, setPageTable, pageTable, slotOf, window, Slot.entry, same, Function.update_apply]
      · simp [setEntry, setPageTable, slotOf, window, Slot.entry, same]

/-- `removePage` returns exactly at an address that can be cleared, and clears it. -/
theorem removePage_returns (p : Paging) (address : Word) :
    (Clearable p address ∧ ∃ p', removePage p address = .ok p' ∧ Clears p address p') ∨
      (¬ Clearable p address ∧ ∃ failure, removePage p address = .error failure) := by
  by_cases live : has (p.pageDir (addrToPageDirIndex address)) present
  · have named : page (pageTableEntryPhysicalAddress ((slotOf p.pageDir address).entry p)) = mappedPage p address :=
      page_physicalAddress _
    simp only [removePage, if_pos live, pageTable_eq_entry, setEntry_physicalMM, freePage, named,
      physicalAddress_eq_zero]
    by_cases unmapped : page ((slotOf p.pageDir address).entry p) = 0
    · rw [if_pos unmapped]
      refine .inl ⟨⟨live, fun mapped => absurd unmapped mapped⟩, _, rfl, entry_setEntry p address, fun n => ?_⟩
      simp [setEntry_physicalMM, mappedPage, unmapped]
    · rw [if_neg unmapped]
      by_cases set : p.physicalMM.allocated (mappedPage p address)
      · refine .inl ⟨⟨live, fun _ => set⟩, ?_⟩
        rw [if_pos set]
        refine ⟨_, rfl, fun s => ?_, fun n => ?_⟩
        · rw [← entry_setEntry]
          cases s <;> rfl
        · have mapped : mappedPage p address ≠ 0 := unmapped
          simp [allocated_resetBit, mapped, Bool.and_comm]
      · refine .inr ⟨fun clearable => set (clearable.marked unmapped), .doubleFree, ?_⟩
        rw [if_neg set]
  · refine .inr ⟨fun clearable => live clearable.present, .missingTable, ?_⟩
    simp only [removePage, if_neg live]

/-! ## A whole removal -/

/-- Removing the pages at the addresses, in this order, runs to its end: every
address has a table, which the removal itself has not unmapped before, and every
page freed is marked and mapped in one of the slots only. -/
structure Completes (p : Paging) (addresses : List Word) : Prop where
  clearable : ∀ a ∈ addresses, Clearable p a
  apart : ∀ a ∈ addresses, ∀ b ∈ addresses, slotOf p.pageDir a ≠ slotOf p.pageDir b →
    mappedPage p a ≠ 0 → mappedPage p a ≠ mappedPage p b
  tables : addresses.Pairwise fun a b => slotOf p.pageDir a ≠ .dir (addrToPageDirIndex b)

theorem completes_nil (p : Paging) : Completes p [] := ⟨nofun, nofun, .nil⟩

private theorem Clears.pageDir {p p' : Paging} {a b : Word} (clears : Clears p a p')
    (kept : slotOf p.pageDir a ≠ .dir (addrToPageDirIndex b)) :
    p'.pageDir (addrToPageDirIndex b) = p.pageDir (addrToPageDirIndex b) := by
  have entry := clears.entries (.dir (addrToPageDirIndex b))
  rwa [if_neg (Ne.symm kept)] at entry

/-- A table that is unmapped is not present any more. -/
private theorem Clears.absent {p p' : Paging} {a b : Word} (clears : Clears p a p')
    (unmapped : slotOf p.pageDir a = .dir (addrToPageDirIndex b)) : ¬ Clearable p' b := by
  intro clearable
  have entry := clears.entries (.dir (addrToPageDirIndex b))
  rw [if_pos unmapped.symm] at entry
  have present := clearable.present
  rw [show p'.pageDir (addrToPageDirIndex b) = 0#32 from entry, has_zero] at present
  cases present

private theorem slotOf_congr {dir dir' : Nat → Word} {address : Word}
    (same : dir' (addrToPageDirIndex address) = dir (addrToPageDirIndex address)) :
    slotOf dir' address = slotOf dir address := by
  simp only [slotOf, same]

private theorem Clears.mappedPage {p p' : Paging} {a b : Word} (clears : Clears p a p')
    (kept : slotOf p.pageDir a ≠ .dir (addrToPageDirIndex b)) :
    mappedPage p' b = if slotOf p.pageDir b = slotOf p.pageDir a then 0 else mappedPage p b := by
  rw [PagingManager.mappedPage, slotOf_congr (clears.pageDir kept), clears.entries]
  by_cases same : slotOf p.pageDir b = slotOf p.pageDir a
  · rw [if_pos same, if_pos same]
    rfl
  · rw [if_neg same, if_neg same, PagingManager.mappedPage]

private theorem mappedPage_congr {p : Paging} {a b : Word} (same : slotOf p.pageDir b = slotOf p.pageDir a) :
    mappedPage p b = mappedPage p a := by
  rw [mappedPage, mappedPage, same]

/-- A removal that completes still does after its first address. -/
private theorem Completes.rest {p p' : Paging} {a : Word} {rest : List Word} (completes : Completes p (a :: rest))
    (clears : Clears p a p') : Completes p' rest := by
  obtain ⟨kept, tables⟩ := List.pairwise_cons.mp completes.tables
  have sameSlot : ∀ b ∈ rest, slotOf p'.pageDir b = slotOf p.pageDir b :=
    fun b member => slotOf_congr (clears.pageDir (kept b member))
  have still : ∀ b ∈ rest, mappedPage p' b ≠ 0 →
      slotOf p.pageDir b ≠ slotOf p.pageDir a ∧ mappedPage p' b = mappedPage p b := by
    intro b member mapped
    rw [clears.mappedPage (kept b member)] at mapped ⊢
    by_cases same : slotOf p.pageDir b = slotOf p.pageDir a
    · rw [if_pos same] at mapped
      exact absurd rfl mapped
    · exact ⟨same, if_neg same⟩
  refine ⟨fun b member => ⟨?_, fun mapped => ?_⟩, fun b bMember c cMember different mapped => ?_, ?_⟩
  · rw [clears.pageDir (kept b member)]
    exact (completes.clearable b (List.mem_cons_of_mem _ member)).present
  · obtain ⟨different, page⟩ := still b member mapped
    rw [page] at mapped ⊢
    have set := (completes.clearable b (List.mem_cons_of_mem _ member)).marked mapped
    have other := completes.apart b (List.mem_cons_of_mem _ member) a List.mem_cons_self different mapped
    simp [clears.bits, set, other]
  · by_cases unmapped : mappedPage p' c = 0
    · rwa [unmapped]
    · rw [sameSlot b bMember, sameSlot c cMember] at different
      have bPage := (still b bMember mapped).2
      rw [bPage] at mapped ⊢
      rw [(still c cMember unmapped).2]
      exact completes.apart b (List.mem_cons_of_mem _ bMember) c (List.mem_cons_of_mem _ cMember) different mapped
  · refine tables.imp_of_mem fun {b c} bMember _ mapped => ?_
    rwa [sameSlot b bMember]

/-- A removal that completes after its first address does so before it. -/
private theorem Completes.cons {p p' : Paging} {a : Word} {rest : List Word} (completes : Completes p' rest)
    (clears : Clears p a p') (clearable : Clearable p a) : Completes p (a :: rest) := by
  have kept : ∀ b ∈ rest, slotOf p.pageDir a ≠ .dir (addrToPageDirIndex b) :=
    fun b member unmapped => clears.absent unmapped (completes.clearable b member)
  have sameSlot : ∀ b ∈ rest, slotOf p'.pageDir b = slotOf p.pageDir b :=
    fun b member => slotOf_congr (clears.pageDir (kept b member))
  have later : ∀ b ∈ a :: rest, slotOf p.pageDir b ≠ slotOf p.pageDir a →
      b ∈ rest ∧ mappedPage p' b = mappedPage p b := by
    intro b member different
    rcases List.mem_cons.mp member with rfl | member
    · exact absurd rfl different
    · refine ⟨member, ?_⟩
      rw [clears.mappedPage (kept b member), if_neg different]
  -- a page mapped in another slot is marked before, and is not the one that is freed
  have marked : ∀ b ∈ a :: rest, slotOf p.pageDir b ≠ slotOf p.pageDir a → mappedPage p b ≠ 0 →
      p.physicalMM.allocated (mappedPage p b) ∧ mappedPage p b ≠ mappedPage p a := by
    intro b member different mapped
    obtain ⟨inRest, page⟩ := later b member different
    have set := (completes.clearable b inRest).marked (by rwa [page])
    rw [page, clears.bits, Bool.and_eq_true] at set
    refine ⟨set.1, fun same => ?_⟩
    rw [same] at mapped
    simp [mapped, same] at set
  refine ⟨fun b member => ⟨?_, fun mapped => ?_⟩, fun b bMember c cMember different mapped => ?_, ?_⟩
  · rcases List.mem_cons.mp member with rfl | inRest
    · exact clearable.present
    · rw [← clears.pageDir (kept b inRest)]
      exact (completes.clearable b inRest).present
  · by_cases same : slotOf p.pageDir b = slotOf p.pageDir a
    · rw [mappedPage_congr same] at mapped ⊢
      exact clearable.marked mapped
    · exact (marked b member same mapped).1
  · by_cases bFirst : slotOf p.pageDir b = slotOf p.pageDir a
    · rw [bFirst] at different
      by_cases unmapped : mappedPage p c = 0
      · rwa [unmapped]
      · rw [mappedPage_congr bFirst]
        exact Ne.symm (marked c cMember (Ne.symm different) unmapped).2
    · by_cases cFirst : slotOf p.pageDir c = slotOf p.pageDir a
      · rw [mappedPage_congr cFirst]
        exact (marked b bMember bFirst mapped).2
      · obtain ⟨bRest, bPage⟩ := later b bMember bFirst
        obtain ⟨cRest, cPage⟩ := later c cMember cFirst
        have apart := completes.apart b bRest c cRest
        rw [sameSlot b bRest, sameSlot c cRest, bPage, cPage] at apart
        exact apart different mapped
  · refine List.pairwise_cons.mpr ⟨kept, completes.tables.imp_of_mem fun {b c} bMember _ mapped => ?_⟩
    rwa [← sameSlot b bMember]

/-- A removal returns exactly when it completes, and then its slots are cleared
and no other. -/
theorem removal_returns (p : Paging) (addresses : List Word) :
    (Completes p addresses ∧ ∃ p', addresses.foldlM removePage p = .ok p' ∧
      ∀ s : Slot, s.entry p' = if s ∈ addresses.map (slotOf p.pageDir) then 0#32 else s.entry p) ∨
    (¬ Completes p addresses ∧ ∃ failure, addresses.foldlM removePage p = .error failure) := by
  induction addresses generalizing p with
  | nil => exact .inl ⟨completes_nil p, p, rfl, fun s => rfl⟩
  | cons a rest ih =>
    rw [List.foldlM_cons]
    rcases removePage_returns p a with ⟨clearable, p', removed, clears⟩ | ⟨blocked, failure, failed⟩
    · rw [removed]
      rcases ih p' with ⟨completes, last, ran, entries⟩ | ⟨blocked, failure, failed⟩
      · have all : Completes p (a :: rest) := completes.cons clears clearable
        have sameSlots : rest.map (slotOf p'.pageDir) = rest.map (slotOf p.pageDir) :=
          List.map_congr_left fun b member =>
            slotOf_congr (clears.pageDir ((List.pairwise_cons.mp all.tables).1 b member))
        refine .inl ⟨all, last, ran, fun s => ?_⟩
        rw [entries, sameSlots, clears.entries, List.map_cons]
        by_cases first : s = slotOf p.pageDir a
        · rw [if_pos first, ite_self, if_pos (first ▸ List.mem_cons_self)]
        · rw [if_neg first]
          simp only [List.mem_cons, first, false_or]
      · exact .inr ⟨fun completes => blocked (completes.rest clears), failure, failed⟩
    · rw [failed]
      exact .inr ⟨fun completes => blocked (completes.clearable a List.mem_cons_self), failure, rfl⟩

/-! ## Ranges -/

/-- The addresses at which `removePages` removes a page, with the end of the
range computed in 32 bits. -/
def removedAddresses (addr len : Word) : List Word :=
  addressesFrom (((addr + len).toNat - addr.toNat + 4095) / 4096) addr

/-- The loop of `removePages` meets the end of the range before its address
wraps around. -/
def Ends (addr len : Word) : Prop := (addr + len).toNat ≤ 0xFFFFF000 + addr.toNat % 4096

/-- Removing the pages of the ranges, one after the other, runs to its end. -/
structure RangesComplete (p : Paging) (ranges : List (Word × Word)) : Prop where
  ends : ∀ range ∈ ranges, Ends range.1 range.2
  completes : Completes p (ranges.flatMap fun range => removedAddresses range.1 range.2)

theorem removePages_of_ends {addr len : Word} (ends : Ends addr len) (p : Paging) :
    removePages p addr len = (removedAddresses addr len).foldlM removePage p := by
  have bound := (addr + len).isLt
  exact removePagesFrom_eq (by omega) ends rfl

private theorem removePagesFrom_endless {endAddress : Word} (rounds : Nat) (p : Paging) (address : Word)
    (endless : 0xFFFFF000 + address.toNat % 4096 < endAddress.toNat) :
    ∃ failure, removePagesFrom rounds p address endAddress = .error failure := by
  induction rounds generalizing p address with
  | zero => exact ⟨.endless, rfl⟩
  | succ rounds ih =>
    have bound := address.isLt
    have more : address < endAddress := BitVec.lt_def.mpr (by omega)
    simp only [removePagesFrom, if_pos more]
    cases removePage p address with
    | error failure => exact ⟨failure, rfl⟩
    | ok next =>
      have sameOffset : (address + 4096#32).toNat % 4096 = address.toNat % 4096 := by
        rw [BitVec.toNat_add, BitVec.toNat_ofNat]
        omega
      exact ih next _ (by rwa [sameOffset])

theorem removePages_of_endless {addr len : Word} (endless : ¬ Ends addr len) (p : Paging) :
    ∃ failure, removePages p addr len = .error failure :=
  removePagesFrom_endless _ _ _ (Nat.lt_of_not_le endless)

theorem removeRanges_of_ends {ranges : List (Word × Word)} (ends : ∀ range ∈ ranges, Ends range.1 range.2)
    (p : Paging) :
    removeRanges p ranges = (ranges.flatMap fun range => removedAddresses range.1 range.2).foldlM removePage p := by
  induction ranges generalizing p with
  | nil => rfl
  | cons range rest ih =>
    rw [removeRanges, List.foldlM_cons, List.flatMap_cons, List.foldlM_append,
      removePages_of_ends (ends range List.mem_cons_self)]
    congr 1
    funext next
    exact ih (fun r member => ends r (List.mem_cons_of_mem _ member)) next

theorem removeRanges_of_endless {ranges : List (Word × Word)} {range : Word × Word} (member : range ∈ ranges)
    (endless : ¬ Ends range.1 range.2) (p : Paging) : ∃ failure, removeRanges p ranges = .error failure := by
  induction ranges generalizing p with
  | nil => cases member
  | cons first rest ih =>
    rw [removeRanges, List.foldlM_cons]
    cases removed : removePages p first.1 first.2 with
    | error failure => exact ⟨failure, rfl⟩
    | ok next =>
      rcases List.mem_cons.mp member with rfl | later
      · obtain ⟨failure, failed⟩ := removePages_of_endless endless p
        rw [failed] at removed
        cases removed
      · exact ih later next

/-- Removing ranges returns exactly when it completes, and then the slots of
their addresses are cleared and no other. -/
theorem removeRanges_returns (p : Paging) (ranges : List (Word × Word)) :
    (RangesComplete p ranges ∧ ∃ p', removeRanges p ranges = .ok p' ∧ ∀ s : Slot, s.entry p' =
      if s ∈ (ranges.flatMap fun range => removedAddresses range.1 range.2).map (slotOf p.pageDir) then 0#32
      else s.entry p) ∨
    (¬ RangesComplete p ranges ∧ ∃ failure, removeRanges p ranges = .error failure) := by
  by_cases ends : ∀ range ∈ ranges, Ends range.1 range.2
  · rw [removeRanges_of_ends ends]
    rcases removal_returns p (ranges.flatMap fun range => removedAddresses range.1 range.2) with
      ⟨completes, returned⟩ | ⟨blocked, failed⟩
    · exact .inl ⟨⟨ends, completes⟩, returned⟩
    · exact .inr ⟨fun complete => blocked complete.completes, failed⟩
  · refine .inr ⟨fun complete => ends complete.ends, ?_⟩
    simp only [not_forall] at ends
    obtain ⟨range, member, endless⟩ := ends
    exact removeRanges_of_endless member endless p

end FluxOS.PagingManager
