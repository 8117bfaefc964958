import FluxOS.PagingSoundness

/-! Removing pages, address by address. A table slot that is cleared frees the
page it named, so removal is harmless for the directories that survive it when
no other slot names that page. -/
namespace FluxOS.PagingManager
open Words PhysicalMM

/-- `n` page addresses from `address` on. -/
def addressesFrom : Nat → Word → List Word
  | 0, _ => []
  | n + 1, address => address :: addressesFrom n (address + 4096#32)

/-- The addresses at which `removePages` removes a page. -/
def pageAddresses (addr len : Word) : List Word := addressesFrom ((len.toNat + 4095) / 4096) addr

/-- Removes the pages of several ranges, one range after the other. -/
def removeRanges (p : Paging) (ranges : List (Word × Word)) : Except RemovalFailure Paging :=
  ranges.foldlM (fun p range => removePages p range.1 range.2) p

/-- The loop ends when no address it steps to lies behind the last page. -/
theorem removePagesFrom_eq {rounds n : Nat} {p : Paging} {address endAddress : Word} (enough : n < rounds)
    (ends : endAddress.toNat ≤ 0xFFFFF000 + address.toNat % 4096)
    (count : n = (endAddress.toNat - address.toNat + 4095) / 4096) :
    removePagesFrom rounds p address endAddress = (addressesFrom n address).foldlM removePage p := by
  induction n generalizing rounds p address with
  | zero =>
    cases rounds with
    | zero => omega
    | succ rounds =>
      have stop : ¬ address < endAddress := by
        rw [BitVec.lt_def]
        omega
      simp only [removePagesFrom, if_neg stop]
      rfl
  | succ n ih =>
    cases rounds with
    | zero => omega
    | succ rounds =>
      have below : address.toNat < endAddress.toNat := by omega
      have more : address < endAddress := BitVec.lt_def.mpr below
      simp only [removePagesFrom, if_pos more, addressesFrom, List.foldlM_cons]
      cases removePage p address with
      | error failure => rfl
      | ok next =>
        have step : (address + 4096#32).toNat = address.toNat + 4096 := by
          rw [BitVec.toNat_add, BitVec.toNat_ofNat]
          omega
        exact ih (by omega) (by omega) (by omega)

/-- A range that does not reach the end of the address space is removed page by page. -/
theorem removePages_eq {p : Paging} {addr len : Word} (fits : addr.toNat + len.toNat ≤ 0xFFFFF000) :
    removePages p addr len = (pageAddresses addr len).foldlM removePage p := by
  have total : (addr + len).toNat = addr.toNat + len.toNat := by
    rw [BitVec.toNat_add]
    omega
  have bound := len.isLt
  exact removePagesFrom_eq (by omega) (by omega) (by rw [total]; congr 1; omega)

theorem removeRanges_eq {p : Paging} {ranges : List (Word × Word)}
    (fits : ∀ range ∈ ranges, range.1.toNat + range.2.toNat ≤ 0xFFFFF000) :
    removeRanges p ranges = (ranges.flatMap fun range => pageAddresses range.1 range.2).foldlM removePage p := by
  induction ranges generalizing p with
  | nil => rfl
  | cons range rest ih =>
    rw [removeRanges, List.foldlM_cons, List.flatMap_cons, List.foldlM_append,
      removePages_eq (fits range List.mem_cons_self)]
    congr 1
    funext next
    exact ih fun r member => fits r (List.mem_cons_of_mem _ member)

/-! ## One page -/

/-- The table slot that maps the address: its table's page and its index. -/
def slot (dir : Nat → Word) (address : Word) : Nat × Nat :=
  (page (dir (addrToPageDirIndex address)), addrToPageTableIndex address)

def entryAt (p : Paging) (s : Nat × Nat) : Word := p.tables s.1 s.2

/-- The slot names no page that the other slots name: not those of the other
addresses to be removed, and not the tables and slots of a surviving directory. -/
structure Alone (p : Paging) (survivor : (Nat → Word) → Prop) (addresses : List Word) (address : Word) : Prop where
  addresses : ∀ b ∈ addresses, slot p.pageDir b ≠ slot p.pageDir address →
    page (entryAt p (slot p.pageDir b)) ≠ page (entryAt p (slot p.pageDir address))
  tables : ∀ dir, survivor dir → ∀ di, UserIndex di → has (dir di) present →
    page (dir di) ≠ page (entryAt p (slot p.pageDir address))
  entries : ∀ dir, survivor dir → ∀ di, UserIndex di → has (dir di) present → ∀ ti < 1024,
    (page (dir di), ti) ≠ slot p.pageDir address →
      page (p.tables (page (dir di)) ti) ≠ page (entryAt p (slot p.pageDir address))

/-- The slot of the address is cleared and the page it named is free. -/
structure Cleared (p : Paging) (address : Word) (p' : Paging) : Prop where
  pageDir : p'.pageDir = p.pageDir
  entries : ∀ s, entryAt p' s = if s = slot p.pageDir address then 0#32 else entryAt p s
  bits : ∀ n, p'.physicalMM.allocated n = (p.physicalMM.allocated n &&
    !(decide (page (entryAt p (slot p.pageDir address)) ≠ 0) &&
      decide (n = page (entryAt p (slot p.pageDir address)))))

/-- What `removePage` can do at a user address whose entry is kept. -/
inductive Removal (p : Paging) (address : Word) : Except RemovalFailure Paging → Prop where
  | missing (absent : ¬ has (p.pageDir (addrToPageDirIndex address)) present) :
      Removal p address (.error .missingTable)
  | cleared (p' : Paging) (live : has (p.pageDir (addrToPageDirIndex address)) present)
      (cleared : Cleared p address p') : Removal p address (.ok p')

private theorem entryAt_setEntry {p : Paging} {address : Word} (isUser : UserIndex (addrToPageDirIndex address))
    (s : Nat × Nat) :
    entryAt (setEntry p (addrToPageDirIndex address) (addrToPageTableIndex address) 0#32) s =
      if s = slot p.pageDir address then 0#32 else entryAt p s := by
  obtain ⟨table, index⟩ := s
  rw [setEntry, setPageTable_user _ isUser, pageTable_user _ isUser]
  simp only [entryAt, slot, Prod.mk.injEq]
  by_cases sameTable : table = page (p.pageDir (addrToPageDirIndex address))
  · subst sameTable
    rw [Function.update_self]
    by_cases sameIndex : index = addrToPageTableIndex address
    · rw [sameIndex, Function.update_self, if_pos ⟨rfl, rfl⟩]
    · rw [Function.update_of_ne sameIndex, if_neg fun both => sameIndex both.2]
  · rw [Function.update_of_ne sameTable, if_neg fun both => sameTable both.1]

theorem physicalAddress_eq_zero (entry : Word) :
    pageTableEntryPhysicalAddress entry = 0#32 ↔ page entry = 0 := by
  rw [← BitVec.toNat_inj, pageTableEntryPhysicalAddress, toNat_and_page, page, BitVec.toNat_ofNat]
  omega

/-- The flags of an entry do not say which page it names. -/
theorem page_physicalAddress (entry : Word) : page (pageTableEntryPhysicalAddress entry) = page entry :=
  page_and (by decide) entry

theorem setEntry_physicalMM (p : Paging) (di ti : Nat) (entry : Word) :
    (setEntry p di ti entry).physicalMM = p.physicalMM := by
  by_cases window : di = 1023
  · simp only [setEntry, setPageTable, if_pos window]
  · simp only [setEntry, setPageTable, if_neg window]

/-- The entry of a user address, as a slot. -/
theorem pageTable_eq_entryAt {p : Paging} {address : Word} (isUser : UserIndex (addrToPageDirIndex address)) :
    pageTable p (addrToPageDirIndex address) (addrToPageTableIndex address) = entryAt p (slot p.pageDir address) := by
  rw [pageTable_user _ isUser]
  rfl

theorem removePage_removal {p : Paging} {address : Word} (isUser : UserIndex (addrToPageDirIndex address))
    (kept : has (p.pageDir (addrToPageDirIndex address)) present → Kept p (entryAt p (slot p.pageDir address))) :
    Removal p address (removePage p address) := by
  have pageDir : (setEntry p (addrToPageDirIndex address) (addrToPageTableIndex address) 0#32).pageDir =
      p.pageDir := by rw [setEntry, setPageTable_user _ isUser]
  unfold removePage
  by_cases live : has (p.pageDir (addrToPageDirIndex address)) present
  · simp only [if_pos live, pageTable_eq_entryAt isUser]
    by_cases unmapped : page (entryAt p (slot p.pageDir address)) = 0
    · rw [if_pos ((physicalAddress_eq_zero _).mpr unmapped)]
      exact .cleared _ live ⟨pageDir, entryAt_setEntry isUser, fun n => by simp [setEntry_physicalMM, unmapped]⟩
    · rw [if_neg (mt (physicalAddress_eq_zero _).mp unmapped)]
      have set := ((kept live).present_of_page unmapped).2
      simp only [freePage, setEntry_physicalMM, page_physicalAddress, if_pos set]
      refine .cleared _ live ⟨pageDir, entryAt_setEntry isUser, fun n => ?_⟩
      simp [allocated_resetBit, unmapped, Bool.and_comm]
  · simp only [if_neg live]
    exact .missing live

/-! ## All pages -/

/-- The pages at the addresses can be removed without harm to the surviving directories. -/
structure Removable (p : Paging) (survivor : (Nat → Word) → Prop) (addresses : List Word) : Prop where
  isUser : ∀ a ∈ addresses, UserIndex (addrToPageDirIndex a)
  alone : ∀ a ∈ addresses, page (entryAt p (slot p.pageDir a)) ≠ 0 → Alone p survivor addresses a

private theorem Cleared.page_le {p p' : Paging} {address : Word} (cleared : Cleared p address p') (s : Nat × Nat)
    (mapped : page (entryAt p' s) ≠ 0) :
    s ≠ slot p.pageDir address ∧ entryAt p' s = entryAt p s := by
  have entry := cleared.entries s
  by_cases same : s = slot p.pageDir address
  · rw [if_pos same] at entry
    rw [entry] at mapped
    exact absurd rfl mapped
  · rw [if_neg same] at entry
    exact ⟨same, entry⟩

/-- A kept entry stays kept while a page it does not name is freed. -/
private theorem Cleared.kept {p p' : Paging} {address : Word} (cleared : Cleared p address p') {s : Nat × Nat}
    (kept : Kept p (entryAt p s))
    (other : page (entryAt p (slot p.pageDir address)) ≠ 0 → s ≠ slot p.pageDir address →
      page (entryAt p s) ≠ page (entryAt p (slot p.pageDir address))) : Kept p' (entryAt p' s) := by
  rw [cleared.entries]
  by_cases same : s = slot p.pageDir address
  · rw [if_pos same]
    exact kept_zero p'
  · rw [if_neg same]
    rcases kept with empty | ⟨live, set⟩
    · exact Or.inl empty
    · refine Or.inr ⟨live, ?_⟩
      rw [cleared.bits, set, Bool.true_and, Bool.not_eq_true', Bool.and_eq_false_iff]
      by_cases mapped : page (entryAt p (slot p.pageDir address)) = 0
      · exact Or.inl (by simp [mapped])
      · exact Or.inr (decide_eq_false (other mapped same))

private theorem Cleared.sound {p p' : Paging} {address : Word} (cleared : Cleared p address p')
    {survivor : (Nat → Word) → Prop} {addresses : List Word}
    (alone : page (entryAt p (slot p.pageDir address)) ≠ 0 → Alone p survivor addresses address)
    {dir : Nat → Word} (survives : survivor dir) (sound : Sound p dir) : Sound p' dir := by
  intro di isUser live
  obtain ⟨set, entries⟩ := sound di isUser live
  refine ⟨?_, fun ti bound => ?_⟩
  · rw [cleared.bits, set, Bool.true_and, Bool.not_eq_true', Bool.and_eq_false_iff]
    by_cases mapped : page (entryAt p (slot p.pageDir address)) = 0
    · exact Or.inl (by simp [mapped])
    · exact Or.inr (decide_eq_false ((alone mapped).tables dir survives di isUser live))
  · exact cleared.kept (s := (page (dir di), ti)) (entries ti bound) fun mapped different =>
      (alone mapped).entries dir survives di isUser live ti bound different

private theorem Cleared.removable {p p' : Paging} {address : Word} (cleared : Cleared p address p')
    {survivor : (Nat → Word) → Prop} {rest : List Word} (removable : Removable p survivor (address :: rest)) :
    Removable p' survivor rest := by
  refine ⟨fun a member => removable.isUser a (List.mem_cons_of_mem _ member), fun a member mapped => ?_⟩
  rw [cleared.pageDir] at mapped
  obtain ⟨-, kept⟩ := cleared.page_le _ mapped
  rw [kept] at mapped
  obtain ⟨addresses, tables, entries⟩ := removable.alone a (List.mem_cons_of_mem _ member) mapped
  -- an entry of the new state is the old one or empty
  have unlike : ∀ s, page (entryAt p s) ≠ page (entryAt p (slot p.pageDir a)) →
      page (entryAt p' s) ≠ page (entryAt p (slot p.pageDir a)) := by
    intro s different
    by_cases empty : page (entryAt p' s) = 0
    · rw [empty]
      exact Ne.symm mapped
    · rwa [(cleared.page_le s empty).2]
  refine ⟨fun b bMember different => ?_, fun dir survives di isUser live => ?_,
    fun dir survives di isUser live ti bound different => ?_⟩
  · rw [cleared.pageDir] at different ⊢
    rw [kept]
    exact unlike _ (addresses b (List.mem_cons_of_mem _ bMember) different)
  · rw [cleared.pageDir, kept]
    exact tables dir survives di isUser live
  · rw [cleared.pageDir] at different ⊢
    rw [kept]
    exact unlike (page (dir di), ti) (entries dir survives di isUser live ti bound different)

/-- Removing pages that are named nowhere else never frees a page twice, and
the surviving directories stay sound. -/
theorem removal_keeps {survivor : (Nat → Word) → Prop} {p : Paging} {addresses : List Word}
    (sound : ∀ dir, survivor dir → Sound p dir)
    (kept : ∀ a ∈ addresses, has (p.pageDir (addrToPageDirIndex a)) present → Kept p (entryAt p (slot p.pageDir a)))
    (removable : Removable p survivor addresses) :
    addresses.foldlM removePage p = .error .missingTable ∨
      ∃ p', addresses.foldlM removePage p = .ok p' ∧ p'.pageDir = p.pageDir ∧ ∀ dir, survivor dir → Sound p' dir := by
  induction addresses generalizing p with
  | nil => exact Or.inr ⟨p, rfl, rfl, sound⟩
  | cons a rest ih =>
    have head := removePage_removal (removable.isUser a List.mem_cons_self) (kept a List.mem_cons_self)
    rw [List.foldlM_cons]
    generalize removePage p a = result at head
    cases head with
    | missing absent => exact Or.inl rfl
    | cleared p' live cleared =>
      have alone := removable.alone a List.mem_cons_self
      have keptAfter : ∀ b ∈ rest, has (p'.pageDir (addrToPageDirIndex b)) present →
          Kept p' (entryAt p' (slot p'.pageDir b)) := by
        intro b member bLive
        rw [cleared.pageDir] at bLive ⊢
        exact cleared.kept (kept b (List.mem_cons_of_mem _ member) bLive) fun mapped different =>
          (alone mapped).addresses b (List.mem_cons_of_mem _ member) different
      rcases ih (fun dir survives => cleared.sound alone survives (sound dir survives)) keptAfter
        (cleared.removable removable) with failed | ⟨last, ran, pageDir, after⟩
      · exact Or.inl failed
      · exact Or.inr ⟨last, ran, pageDir.trans cleared.pageDir, after⟩

end FluxOS.PagingManager
