import FluxOS.PagingSoundness
import FluxOS.PhysicalMMRuns

/-! Mapping a range of physical memory, as the kernel does for its own space and
for device memory. The loop over the directory carries the number of pages mapped
so far; the addresses it computes for each table are off by a factor of four, but
only their table index is used. -/
namespace FluxOS.PagingManager
open Words PhysicalMM

/-- The kernel heap that page tables are taken from: what `posix_memalign` answers
to a request for so many bytes on a page boundary, and the physical page behind
the address of a block. -/
structure KernelHeap (σ : Type) where
  posixMemalign : σ → Word → Option Word × σ
  physicalPage : Word → Nat

/-- How `mapPhysicalMemoryRegion` reaches a table: by its address in the heap, or
through the recursive directory entry. -/
inductive TablePointer where
  | heap (addr : Word)
  | window (di : Nat)
  deriving DecidableEq, Repr

/-- The loop's state, with the heap that it allocates from. -/
structure MappingState (σ : Type) where
  paging : Paging
  heap : σ
  physPages : Word

/-- What `createEmptyPageDir` writes to the block at `pageDir`. -/
def emptyPageDir (pageDir : Word) : Nat → Word :=
  Function.update (fun _ => 0#32) 1023 (pageDirectoryEntry pageDir kernelStdPage)

section
variable {σ : Type} (heap : KernelHeap σ)

/-- `createEmptyPageTable`. The answer of `posix_memalign` is not looked at: without
memory the pointer stays unset, and there is no result. -/
def createEmptyPageTable (st : MappingState σ) : Option (MappingState σ × Word) :=
  match heap.posixMemalign st.heap 4096#32 with
  | (some pageTable, s) => some ({ st with
      paging := { st.paging with
        tables := Function.update st.paging.tables (heap.physicalPage pageTable) fun _ => 0#32 }
      heap := s }, pageTable)
  | (none, _) => none

/-- The table of directory entry `i`, made where there is none. An entry that is
neither empty nor present leads to a page fault. -/
def reachTable (st : MappingState σ) (i : Nat) : Option (MappingState σ × TablePointer) :=
  if st.paging.pageDir i = 0#32 then
    (createEmptyPageTable heap st).map fun (st, pageTable) =>
      ({ st with paging := setDirEntry st.paging i (pageDirectoryEntry pageTable kernelStdPage) }, .heap pageTable)
  else if has (st.paging.pageDir i) present then some (st, .window i)
  else none

/-- `pageTable[j] = entry`. -/
def setTableEntry (p : Paging) : TablePointer → Nat → Word → Paging
  | .heap addr, j, entry => { p with
      tables := Function.update p.tables (heap.physicalPage addr)
        (Function.update (p.tables (heap.physicalPage addr)) j entry) }
  | .window di, j, entry => setEntry p di j entry

/-- One round of the inner loop. -/
def mapEntry (physAddr : Word) (pageTable : TablePointer) (st : MappingState σ) (j : Nat) : MappingState σ :=
  let address := physAddr + st.physPages * 4096#32
  let p := setTableEntry heap st.paging pageTable j (pageTableEntry address kernelStdPage)
  { st with
    paging := { p with physicalMM := p.physicalMM.setAllocatedPage address }
    physPages := st.physPages + 1#32 }

def startAddr (virtualAddr : Word) (i : Nat) : Word :=
  if addrToPageDirIndex virtualAddr < i then BitVec.ofNat 32 i * 4096#32 * 4096#32 else virtualAddr

def endAddr (virtualAddr len : Word) (i : Nat) : Word :=
  if addrToPageDirIndex (virtualAddr + len - 1) > i then (BitVec.ofNat 32 i + 1#32) * 4096#32 * 4096#32
  else virtualAddr + len

/-- One round of the outer loop. -/
def mapTable (physAddr virtualAddr len : Word) (st : MappingState σ) (i : Nat) : Option (MappingState σ) :=
  (reachTable heap st i).map fun (st, pageTable) =>
    let first := addrToPageTableIndex (startAddr virtualAddr i)
    let last := addrToPageTableIndex (endAddr virtualAddr len i - 1)
    (List.range' first (last + 1 - first)).foldl (mapEntry heap physAddr pageTable) st

def mapPhysicalMemoryRegion (p : Paging) (s : σ) (physAddr virtualAddr len : Word) : Option (MappingState σ) :=
  let first := addrToPageDirIndex virtualAddr
  let last := addrToPageDirIndex (virtualAddr + len - 1)
  (List.range' first (last + 1 - first)).foldlM (mapTable heap physAddr virtualAddr len) ⟨p, s, 0#32⟩

/-- `mapPhysicalMemory`, whose loops are those of `mapPhysicalMemoryRegion` on the
loaded directory. -/
def mapPhysicalMemory (p : Paging) (s : σ) (physAddr physLen : Word) : Option (MappingState σ × Word) :=
  match heap.posixMemalign s physLen with
  | (none, s) => some (⟨p, s, 0#32⟩, 0#32)
  | (some virtMemPtr, s) =>
    (mapPhysicalMemoryRegion heap p s physAddr virtMemPtr physLen).map fun st => (st, virtMemPtr)

/-! ## What is relied on -/

/-- Where the kernel heap ends. -/
def kernelSpaceUpperLimit : Nat := 0x08000000

/-- A block on a page boundary is aligned, lies in kernel space and is made of free
pages, which the kernel maps to themselves. -/
structure KernelHeap.Lawful (free : σ → Nat → Prop) : Prop where
  aligned : ∀ {s size addr s'}, heap.posixMemalign s size = (some addr, s') → addr.toNat % 4096 = 0
  bounded : ∀ {s size addr s'}, heap.posixMemalign s size = (some addr, s') →
    addr.toNat + size.toNat ≤ kernelSpaceUpperLimit
  taken : ∀ {s size addr s'}, heap.posixMemalign s size = (some addr, s') → ∀ n, page addr ≤ n →
    n * 4096 < addr.toNat + size.toNat → free s n ∧ ¬ free s' n
  shrinks : ∀ {s size addr s'}, heap.posixMemalign s size = (some addr, s') → ∀ n, free s' n → free s n
  oneToOne : ∀ {s size addr s'}, heap.posixMemalign s size = (some addr, s') → heap.physicalPage addr = page addr

/-- The heap has memory for `tables` more tables. -/
def KernelHeap.HasRoom : σ → Nat → Prop
  | _, 0 => True
  | s, tables + 1 => (heap.posixMemalign s 4096#32).1.isSome ∧ HasRoom (heap.posixMemalign s 4096#32).2 tables

end

/-- A directory as the kernel makes them: an entry is empty or leads to a table of
its own, which is no free memory. -/
structure Formed (free : Nat → Prop) (p : Paging) : Prop where
  emptyOrPresent : ∀ di < 1023, p.pageDir di = 0#32 ∨ has (p.pageDir di) present
  distinct : ∀ di < 1023, ∀ dj < 1023, has (p.pageDir di) present → has (p.pageDir dj) present →
    page (p.pageDir di) = page (p.pageDir dj) → di = dj
  inUse : ∀ di < 1023, has (p.pageDir di) present → ¬ free (page (p.pageDir di))

theorem formed_emptyPageDir (free : Nat → Prop) {p : Paging} {pageDir : Word}
    (empty : p.pageDir = emptyPageDir pageDir) :
    Formed free p := by
  have zero : ∀ di < 1023, p.pageDir di = 0#32 := by
    intro di below
    rw [empty]
    exact Function.update_of_ne (Nat.ne_of_lt below) ..
  have absent : ∀ di < 1023, ¬ has (p.pageDir di) present := by
    intro di below there
    rw [zero di below, has_zero] at there
    cases there
  exact ⟨fun di below => .inl (zero di below), fun di below _ _ there => absurd there (absent di below),
    fun di below there => absurd there (absent di below)⟩

/-- A copy of the directory leads to the same tables. -/
theorem Formed.clonePageDir {free : Nat → Prop} {p : Paging} (formed : Formed free p) (newPD : Word) :
    Formed free { p with pageDir := clonePageDir p newPD } := by
  have same : ∀ di < 1023, PagingManager.clonePageDir p newPD di = p.pageDir di :=
    fun di below => Function.update_of_ne (Nat.ne_of_lt below) ..
  refine ⟨fun di below => ?_, fun di below dj below' there there' => ?_, fun di below there => ?_⟩
  · simp only [same di below]
    exact formed.emptyOrPresent di below
  · simp only [same di below, same dj below'] at there there' ⊢
    exact formed.distinct di below dj below' there there'
  · simp only [same di below] at there ⊢
    exact formed.inUse di below there

/-- The entry that maps a virtual page, where one does. -/
def mapping (p : Paging) (v : Nat) : Option Word :=
  if has (p.pageDir (v / 1024)) present ∧ has (pageTable p (v / 1024) (v % 1024)) present then
    some (pageTable p (v / 1024) (v % 1024))
  else none

/-- A page-aligned range of physical memory. -/
structure PhysicalRange (physAddr len : Word) : Prop where
  aligned : physAddr.toNat % 4096 = 0
  multiple : len.toNat % 4096 = 0
  positive : 0 < len.toNat
  fits : physAddr.toNat + len.toNat ≤ 2 ^ 32

/-- The virtual range maps the physical one, page by page, every other mapping
stays, and no other physical page is marked. -/
structure MapsRightly (p after : Paging) (physAddr virtualAddr len : Word) : Prop where
  maps : ∀ i < len.toNat / 4096, mapping after (page virtualAddr + i) =
    some (pageTableEntry (pageAddress (page physAddr + i)) kernelStdPage)
  spares : ∀ v < 2 ^ 20, ¬ (page virtualAddr ≤ v ∧ v < page virtualAddr + len.toNat / 4096) →
    ∀ entry, mapping p v = some entry → mapping after v = some entry
  marks : ∀ n, after.physicalMM.allocated n ↔
    p.physicalMM.allocated n ∨ (page physAddr ≤ n ∧ n < page physAddr + len.toNat / 4096)

/-! ## Writing an entry -/

/-- Entry `j` of the table behind directory entry `di`, written through any pointer
to it. -/
def storeEntry (p : Paging) (di j : Nat) (entry : Word) : Paging :=
  { p with
    tables := Function.update p.tables (page (p.pageDir di))
      (Function.update (p.tables (page (p.pageDir di))) j entry) }

theorem pageTable_below (p : Paging) {di : Nat} (below : di < 1023) :
    pageTable p di = p.tables (page (p.pageDir di)) := if_neg (Nat.ne_of_lt below)

theorem mapping_below (p : Paging) {v : Nat} (below : v / 1024 < 1023) :
    mapping p v = if has (p.pageDir (v / 1024)) present ∧
        has (p.tables (page (p.pageDir (v / 1024))) (v % 1024)) present then
      some (p.tables (page (p.pageDir (v / 1024))) (v % 1024)) else none := by
  rw [mapping, pageTable_below p below]

/-- The mappings depend on the directory and the tables. -/
theorem mapping_congr {p q : Paging} (tables : q.tables = p.tables) (pageDir : q.pageDir = p.pageDir) (v : Nat) :
    mapping q v = mapping p v := by
  cases p
  cases q
  cases tables
  cases pageDir
  rfl

theorem mapping_storeEntry_self {p : Paging} {v : Nat} (below : v / 1024 < 1023)
    (there : has (p.pageDir (v / 1024)) present) {entry : Word} (live : has entry present) :
    mapping (storeEntry p (v / 1024) (v % 1024) entry) v = some entry := by
  rw [mapping_below _ below]
  simp only [storeEntry, Function.update_self]
  exact if_pos ⟨there, live⟩

theorem mapping_storeEntry_of_ne {free : Nat → Prop} {p : Paging} (formed : Formed free p) {v w : Nat}
    (below : v / 1024 < 1023) (there : has (p.pageDir (v / 1024)) present) (bound : w < 2 ^ 20) (other : w ≠ v)
    (entry : Word) : mapping (storeEntry p (v / 1024) (v % 1024) entry) w = mapping p w := by
  by_cases last : w / 1024 = 1023
  · -- the window shows the directory, which is not written
    simp only [mapping, pageTable, last, if_true, storeEntry]
  have wBelow : w / 1024 < 1023 := by omega
  rw [mapping_below _ wBelow, mapping_below _ wBelow]
  by_cases live : has (p.pageDir (w / 1024)) present
  · have same : Function.update p.tables (page (p.pageDir (v / 1024)))
        (Function.update (p.tables (page (p.pageDir (v / 1024)))) (v % 1024) entry)
        (page (p.pageDir (w / 1024))) (w % 1024) = p.tables (page (p.pageDir (w / 1024))) (w % 1024) := by
      by_cases table : page (p.pageDir (w / 1024)) = page (p.pageDir (v / 1024))
      · have directory := formed.distinct _ wBelow _ below live there table
        have index : w % 1024 ≠ v % 1024 := by omega
        rw [table, Function.update_self, Function.update_of_ne index]
      · rw [Function.update_of_ne table]
    simp only [storeEntry, same]
  · rw [if_neg (fun both => live both.1), if_neg (fun both => live both.1)]

/-- The pointer leads to the table of directory entry `di`. -/
def Leads {σ : Type} (heap : KernelHeap σ) (p : Paging) (pageTable : TablePointer) (di : Nat) : Prop :=
  has (p.pageDir di) present ∧
    match pageTable with
    | .heap addr => heap.physicalPage addr = page (p.pageDir di)
    | .window k => k = di

theorem leads_congr {σ : Type} {heap : KernelHeap σ} {p q : Paging} {pageTable : TablePointer} {di : Nat}
    (same : q.pageDir = p.pageDir) (leads : Leads heap p pageTable di) : Leads heap q pageTable di := by
  cases pageTable <;> simpa only [Leads, same] using leads

theorem setTableEntry_leads {σ : Type} {heap : KernelHeap σ} {p : Paging} {pageTable : TablePointer} {di : Nat}
    (below : di < 1023) (leads : Leads heap p pageTable di) (j : Nat) (entry : Word) :
    setTableEntry heap p pageTable j entry = storeEntry p di j entry := by
  cases pageTable with
  | heap addr =>
    have same : heap.physicalPage addr = page (p.pageDir di) := leads.2
    rw [setTableEntry, same, storeEntry]
  | window k =>
    have same : k = di := leads.2
    rw [setTableEntry, same, setEntry, setPageTable, if_neg (Nat.ne_of_lt below), pageTable_below p below, storeEntry]

/-! ## The loops -/

section
variable {σ : Type} {heap : KernelHeap σ} {free : σ → Nat → Prop} {p : Paging} {physAddr virtualAddr len : Word}

/-- The loops have mapped the virtual range up to page `v`. -/
structure Progress (free : σ → Nat → Prop) (p : Paging) (physAddr virtualAddr : Word) (st : MappingState σ)
    (v : Nat) : Prop where
  count : st.physPages = BitVec.ofNat 32 (v - page virtualAddr)
  maps : ∀ w, page virtualAddr ≤ w → w < v → mapping st.paging w =
    some (pageTableEntry (pageAddress (page physAddr + (w - page virtualAddr))) kernelStdPage)
  spares : ∀ w < 2 ^ 20, ¬ (page virtualAddr ≤ w ∧ w < v) →
    ∀ entry, mapping p w = some entry → mapping st.paging w = some entry
  marks : ∀ n, st.paging.physicalMM.allocated n ↔
    p.physicalMM.allocated n ∨ (page physAddr ≤ n ∧ n < page physAddr + (v - page virtualAddr))
  formed : Formed (free st.heap) st.paging

theorem progress_start {s : σ} (formed : Formed (free s) p) :
    Progress free p physAddr virtualAddr ⟨p, s, 0#32⟩ (page virtualAddr) := by
  refine ⟨by rw [Nat.sub_self], fun w low high => absurd high (by omega), fun w _ _ entry mapped => mapped,
    fun n => ?_, formed⟩
  rw [Nat.sub_self]
  exact ⟨.inl, fun either => either.resolve_right (by omega)⟩

/-- The address that the inner loop maps at page `v`. -/
theorem mapped_address (range : PhysicalRange physAddr len) (v : Nat) :
    physAddr + BitVec.ofNat 32 (v - page virtualAddr) * 4096#32 =
      pageAddress (page physAddr + (v - page virtualAddr)) := by
  have aligned := range.aligned
  have bound := physAddr.isLt
  apply BitVec.eq_of_toNat_eq
  simp only [pageAddress, page, BitVec.toNat_add, BitVec.toNat_mul, BitVec.toNat_ofNat]
  omega

theorem range_page_lt (range : PhysicalRange physAddr len) {i : Nat} (bound : i < len.toNat / 4096) :
    page physAddr + i < 2 ^ 20 := by
  have aligned := range.aligned
  have fits := range.fits
  simp only [page]
  omega

theorem live_pageTableEntry (addr : Word) : has (pageTableEntry addr kernelStdPage) present := by
  rw [pageTableEntry, has_or, show has kernelStdPage present = true by decide, Bool.or_true]

/-- One round of the inner loop maps one page. -/
theorem progress_mapEntry (range : PhysicalRange physAddr len) {st : MappingState σ} {v : Nat}
    (progress : Progress free p physAddr virtualAddr st v) (low : page virtualAddr ≤ v)
    (high : v < page virtualAddr + len.toNat / 4096) (below : v / 1024 < 1023) {pageTable : TablePointer}
    (leads : Leads heap st.paging pageTable (v / 1024)) :
    Progress free p physAddr virtualAddr (mapEntry heap physAddr pageTable st (v % 1024)) (v + 1) := by
  have step : v + 1 - page virtualAddr = v - page virtualAddr + 1 := Nat.sub_add_comm low
  have inPhysical : page physAddr + (v - page virtualAddr) < 2 ^ 20 := range_page_lt range (by omega)
  have live := live_pageTableEntry (pageAddress (page physAddr + (v - page virtualAddr)))
  obtain ⟨after, stored⟩ : ∃ after, after = storeEntry st.paging (v / 1024) (v % 1024)
      (pageTableEntry (pageAddress (page physAddr + (v - page virtualAddr))) kernelStdPage) := ⟨_, rfl⟩
  have made : mapEntry heap physAddr pageTable st (v % 1024) = { st with
      paging := { after with physicalMM := st.paging.physicalMM.setBit (page physAddr + (v - page virtualAddr)) }
      physPages := st.physPages + 1#32 } := by
    simp only [mapEntry, progress.count, mapped_address range v, setTableEntry_leads below leads, stored,
      setAllocatedPage, page_pageAddress inPhysical]
    rfl
  have same : ∀ w, mapping { after with
      physicalMM := st.paging.physicalMM.setBit (page physAddr + (v - page virtualAddr)) } w = mapping after w :=
    fun w => mapping_congr rfl rfl w
  rw [made]
  refine ⟨?_, fun w first last => ?_, fun w bound outside entry mapped => ?_, fun n => ?_, ?_⟩
  · show st.physPages + 1#32 = _
    rw [progress.count, step, BitVec.ofNat_add]
  · show mapping _ w = _
    rw [same, stored]
    by_cases now : w = v
    · rw [now]
      exact mapping_storeEntry_self below leads.1 live
    · rw [mapping_storeEntry_of_ne progress.formed below leads.1 (by omega) now]
      exact progress.maps w first (by omega)
  · show mapping _ w = _
    have now : w ≠ v := by omega
    rw [same, stored, mapping_storeEntry_of_ne progress.formed below leads.1 bound now]
    exact progress.spares w bound (by omega) entry mapped
  · show (st.paging.physicalMM.setBit _).allocated n ↔ _
    rw [allocated_setBit, Bool.or_eq_true, decide_eq_true_eq, progress.marks n, step]
    constructor
    · rintro (same | before | inside)
      · exact .inr (by omega)
      · exact .inl before
      · exact .inr (by omega)
    · rintro (before | inside)
      · exact .inr (.inl before)
      · by_cases same : n = page physAddr + (v - page virtualAddr)
        · exact .inl same
        · exact .inr (.inr (by omega))
  · rw [stored]
    exact ⟨progress.formed.emptyOrPresent, progress.formed.distinct, progress.formed.inUse⟩

/-- The inner loop maps the pages of its table. -/
theorem progress_entries (range : PhysicalRange physAddr len) {di : Nat} (below : di < 1023)
    {pageTable : TablePointer} (count : Nat) : ∀ (first : Nat) (st : MappingState σ),
    first + count ≤ 1024 → page virtualAddr ≤ di * 1024 + first →
    di * 1024 + first + count ≤ page virtualAddr + len.toNat / 4096 →
    Progress free p physAddr virtualAddr st (di * 1024 + first) → Leads heap st.paging pageTable di →
    ∃ after, (List.range' first count).foldl (mapEntry heap physAddr pageTable) st = after ∧
      Progress free p physAddr virtualAddr after (di * 1024 + first + count) ∧
      after.heap = st.heap ∧ after.paging.pageDir = st.paging.pageDir := by
  induction count with
  | zero =>
    intro first st _ _ _ progress _
    rw [Nat.add_zero]
    exact ⟨st, rfl, progress, rfl, rfl⟩
  | succ count ih =>
    intro first st bound low high progress leads
    have directory : (di * 1024 + first) / 1024 = di := by omega
    have index : (di * 1024 + first) % 1024 = first := by omega
    have there : Leads heap st.paging pageTable ((di * 1024 + first) / 1024) := by rwa [directory]
    have step := progress_mapEntry range progress low (by omega) (by omega) there
    rw [index, Nat.add_assoc] at step
    have pageDir : (mapEntry heap physAddr pageTable st first).paging.pageDir = st.paging.pageDir := by
      simp only [mapEntry, setTableEntry_leads below leads]
      rfl
    have still : Leads heap (mapEntry heap physAddr pageTable st first).paging pageTable di :=
      leads_congr pageDir leads
    obtain ⟨after, done, reached, sameHeap, sameDir⟩ := ih (first + 1) _ (by omega) (by omega) (by omega) step still
    refine ⟨after, by rw [List.range'_succ, List.foldl_cons, done], ?_, sameHeap, sameDir.trans pageDir⟩
    rwa [show di * 1024 + first + (count + 1) = di * 1024 + (first + 1) + count by omega]

/-- A new table behind an empty directory entry. -/
def addTable (p : Paging) (di : Nat) (pageTable : Word) : Paging :=
  setDirEntry { p with tables := Function.update p.tables (page pageTable) fun _ => 0#32 } di
    (pageDirectoryEntry pageTable kernelStdPage)

theorem addTable_pageDir_of_ne (p : Paging) {di k : Nat} (other : k ≠ di) (pageTable : Word) :
    (addTable p di pageTable).pageDir k = p.pageDir k := Function.update_of_ne other ..

theorem addTable_pageDir_self (p : Paging) (di : Nat) (pageTable : Word) :
    (addTable p di pageTable).pageDir di = pageDirectoryEntry pageTable kernelStdPage := Function.update_self ..

theorem page_pageDirectoryEntry (pageTable : Word) :
    page (pageDirectoryEntry pageTable kernelStdPage) = page pageTable :=
  page_or (by decide) pageTable

theorem live_pageDirectoryEntry (pageTable : Word) : has (pageDirectoryEntry pageTable kernelStdPage) present :=
  live_pageTableEntry pageTable

/-- It leaves every page mapped that was. -/
theorem mapping_addTable {isFree : Nat → Prop} (formed : Formed isFree p) {di : Nat}
    (empty : p.pageDir di = 0#32) {pageTable : Word} (fresh : isFree (page pageTable)) {w : Nat} (bound : w < 2 ^ 20)
    {entry : Word} (mapped : mapping p w = some entry) : mapping (addTable p di pageTable) w = some entry := by
  have absent : ∀ k, has (p.pageDir k) present → k ≠ di := by
    intro k there same
    rw [same, empty, has_zero] at there
    cases there
  by_cases last : w / 1024 = 1023
  · simp only [mapping, PagingManager.pageTable, last, if_true] at mapped ⊢
    obtain ⟨both, same⟩ := Option.ite_none_right_eq_some.mp mapped
    rw [addTable_pageDir_of_ne p (absent _ both.1), addTable_pageDir_of_ne p (absent _ both.2)]
    exact mapped
  have wBelow : w / 1024 < 1023 := by omega
  rw [mapping_below _ wBelow] at mapped ⊢
  obtain ⟨both, same⟩ := Option.ite_none_right_eq_some.mp mapped
  have table : page (p.pageDir (w / 1024)) ≠ page pageTable := by
    intro same
    have used := formed.inUse _ wBelow both.1
    rw [same] at used
    exact used fresh
  have tables : (addTable p di pageTable).tables (page (p.pageDir (w / 1024))) =
      p.tables (page (p.pageDir (w / 1024))) := Function.update_of_ne table ..
  rw [addTable_pageDir_of_ne p (absent _ both.1), tables]
  exact mapped

theorem formed_addTable {isFree after : Nat → Prop} (formed : Formed isFree p) {di : Nat}
    {pageTable : Word} (fresh : isFree (page pageTable)) (taken : ¬ after (page pageTable))
    (shrinks : ∀ n, after n → isFree n) : Formed after (addTable p di pageTable) := by
  refine ⟨fun k below => ?_, fun k below l lower there there' same => ?_, fun k below there => ?_⟩
  · by_cases own : k = di
    · rw [own, addTable_pageDir_self]
      exact .inr (live_pageDirectoryEntry pageTable)
    · rw [addTable_pageDir_of_ne p own]
      exact formed.emptyOrPresent k below
  · -- a table that was in use is not the new one
    have apart : ∀ m < 1023, has (p.pageDir m) present → page (p.pageDir m) ≠ page pageTable := by
      intro m inside live equal
      have used := formed.inUse m inside live
      rw [equal] at used
      exact used fresh
    by_cases own : k = di
    · by_cases other : l = di
      · rw [own, other]
      · rw [own, addTable_pageDir_self, addTable_pageDir_of_ne p other, page_pageDirectoryEntry] at same
        rw [addTable_pageDir_of_ne p other] at there'
        exact absurd same.symm (apart l lower there')
    · rw [addTable_pageDir_of_ne p own] at there same
      by_cases other : l = di
      · rw [other, addTable_pageDir_self, page_pageDirectoryEntry] at same
        exact absurd same (apart k below there)
      · rw [addTable_pageDir_of_ne p other] at there' same
        exact formed.distinct k below l lower there there' same
  · by_cases own : k = di
    · rwa [own, addTable_pageDir_self, page_pageDirectoryEntry]
    · rw [addTable_pageDir_of_ne p own] at there ⊢
      exact fun given => formed.inUse k below there (shrinks _ given)

/-- The first half of a round of the outer loop: the table is there, or is made. -/
theorem progress_reachTable (lawful : heap.Lawful free) {st : MappingState σ} {v di room : Nat} (below : di < 1023)
    (bound : v ≤ 2 ^ 20) (progress : Progress free p physAddr virtualAddr st v)
    (fits : heap.HasRoom st.heap (if st.paging.pageDir di = 0#32 then room + 1 else room)) :
    ∃ after pageTable, reachTable heap st di = some (after, pageTable) ∧
      Progress free p physAddr virtualAddr after v ∧ Leads heap after.paging pageTable di ∧
      heap.HasRoom after.heap room ∧ ∀ k, k ≠ di → after.paging.pageDir k = st.paging.pageDir k := by
  by_cases empty : st.paging.pageDir di = 0#32
  · rw [if_pos empty, KernelHeap.HasRoom] at fits
    obtain ⟨given, rest⟩ := fits
    obtain ⟨addr, answer⟩ := Option.isSome_iff_exists.mp given
    obtain ⟨s, got⟩ : ∃ s, heap.posixMemalign st.heap 4096#32 = (some addr, s) := ⟨_, Prod.ext answer rfl⟩
    rw [got] at rest
    have inBlock : page addr * 4096 < addr.toNat + (4096#32 : Word).toNat := by
      have size : (4096#32 : Word).toNat = 4096 := rfl
      rw [size, page]
      omega
    have fresh := lawful.taken got (page addr) (Nat.le_refl _) inBlock
    have identity := lawful.oneToOne got
    refine ⟨⟨addTable st.paging di addr, s, st.physPages⟩, .heap addr, ?_, ?_, ⟨?_, ?_⟩, rest, ?_⟩
    · rw [reachTable, if_pos empty, createEmptyPageTable, got]
      simp only [Option.map_some, identity]
      rfl
    · have kept : ∀ w < 2 ^ 20, ∀ entry, mapping st.paging w = some entry →
          mapping (addTable st.paging di addr) w = some entry :=
        fun w inside entry mapped => mapping_addTable progress.formed empty fresh.1 inside mapped
      exact ⟨progress.count, fun w low high => kept w (by omega) _ (progress.maps w low high),
        fun w inside outside entry mapped => kept w inside entry (progress.spares w inside outside entry mapped),
        progress.marks, formed_addTable progress.formed fresh.1 fresh.2 (lawful.shrinks got)⟩
    · rw [addTable_pageDir_self]
      exact live_pageDirectoryEntry addr
    · show heap.physicalPage addr = page _
      rw [addTable_pageDir_self, page_pageDirectoryEntry, identity]
    · exact fun k other => addTable_pageDir_of_ne st.paging other addr
  · have there := (progress.formed.emptyOrPresent di below).resolve_left empty
    rw [if_neg empty] at fits
    refine ⟨st, .window di, ?_, progress, ⟨there, rfl⟩, fits, fun _ _ => rfl⟩
    rw [reachTable, if_neg empty, if_pos there]

/-- The virtual range is page-aligned and ends before the window. -/
structure VirtualRange (virtualAddr len : Word) : Prop where
  aligned : virtualAddr.toNat % 4096 = 0
  multiple : len.toNat % 4096 = 0
  positive : 0 < len.toNat
  fits : virtualAddr.toNat + len.toNat ≤ 0xFFC00000

theorem VirtualRange.last (range : VirtualRange virtualAddr len) :
    (virtualAddr + len - 1).toNat = virtualAddr.toNat + len.toNat - 1 := by
  have positive := range.positive
  have fits := range.fits
  bv_omega

/-- The table index at which round `i` begins. -/
theorem VirtualRange.first_index (range : VirtualRange virtualAddr len) {i : Nat}
    (low : addrToPageDirIndex virtualAddr ≤ i) :
    addrToPageTableIndex (startAddr virtualAddr i) = max (page virtualAddr) (i * 1024) - i * 1024 := by
  have aligned := range.aligned
  rw [startAddr]
  simp only [addrToPageDirIndex] at low
  by_cases later : addrToPageDirIndex virtualAddr < i
  · rw [if_pos later]
    simp only [addrToPageDirIndex] at later
    simp only [addrToPageTableIndex, page, BitVec.toNat_mul, BitVec.toNat_ofNat]
    omega
  · rw [if_neg later]
    simp only [addrToPageDirIndex] at later
    simp only [addrToPageTableIndex, page]
    omega

/-- The table index at which round `i` ends. -/
theorem VirtualRange.last_index (range : VirtualRange virtualAddr len) {i : Nat}
    (high : i ≤ addrToPageDirIndex (virtualAddr + len - 1)) :
    addrToPageTableIndex (endAddr virtualAddr len i - 1) =
      min (page virtualAddr + len.toNat / 4096) ((i + 1) * 1024) - i * 1024 - 1 := by
  have aligned := range.aligned
  have multiple := range.multiple
  have positive := range.positive
  have fits := range.fits
  have last := range.last
  rw [endAddr]
  simp only [addrToPageDirIndex, last] at high
  by_cases before : addrToPageDirIndex (virtualAddr + len - 1) > i
  · rw [if_pos before]
    simp only [addrToPageDirIndex, last] at before
    -- the address of the next table comes out four times too large; its last bits are right
    have ends : ((BitVec.ofNat 32 i + 1#32) * 4096#32 * 4096#32 - 1 : Word).toNat / 2 ^ 12 % 2 ^ 10 = 1023 := by
      have one : (1 : Word).toNat = 1 := rfl
      simp only [BitVec.toNat_sub, BitVec.toNat_mul, BitVec.toNat_add, BitVec.toNat_ofNat, one]
      omega
    simp only [addrToPageTableIndex, ends, page]
    omega
  · rw [if_neg before]
    simp only [addrToPageDirIndex, last] at before
    simp only [addrToPageTableIndex, last, page]
    omega

/-- The page before which the loops stand when round `i` begins. -/
def reached (virtualAddr len : Word) (i : Nat) : Nat :=
  min (page virtualAddr + len.toNat / 4096) (max (page virtualAddr) (i * 1024))

/-- One round of the outer loop. -/
theorem progress_mapTable (lawful : heap.Lawful free) (physical : PhysicalRange physAddr len)
    (virtual : VirtualRange virtualAddr len) {st : MappingState σ} {i room : Nat}
    (low : addrToPageDirIndex virtualAddr ≤ i) (high : i ≤ addrToPageDirIndex (virtualAddr + len - 1))
    (progress : Progress free p physAddr virtualAddr st (reached virtualAddr len i))
    (fits : heap.HasRoom st.heap (if st.paging.pageDir i = 0#32 then room + 1 else room)) :
    ∃ after, mapTable heap physAddr virtualAddr len st i = some after ∧
      Progress free p physAddr virtualAddr after (reached virtualAddr len (i + 1)) ∧
      heap.HasRoom after.heap room ∧ ∀ k, k ≠ i → after.paging.pageDir k = st.paging.pageDir k := by
  have aligned := virtual.aligned
  have multiple := virtual.multiple
  have positive := virtual.positive
  have within := virtual.fits
  have directory := high
  simp only [addrToPageDirIndex, virtual.last] at directory
  have below : i < 1023 := by omega
  have starts := virtual.first_index low
  have ends := virtual.last_index high
  simp only [addrToPageDirIndex] at low
  have begins : reached virtualAddr len i = i * 1024 + addrToPageTableIndex (startAddr virtualAddr i) := by
    rw [starts, reached]
    simp only [page]
    omega
  have count : reached virtualAddr len (i + 1) = i * 1024 + addrToPageTableIndex (startAddr virtualAddr i) +
      (addrToPageTableIndex (endAddr virtualAddr len i - 1) + 1 - addrToPageTableIndex (startAddr virtualAddr i)) := by
    rw [starts, ends, reached]
    simp only [page]
    omega
  have inTable : addrToPageTableIndex (startAddr virtualAddr i) +
      (addrToPageTableIndex (endAddr virtualAddr len i - 1) + 1 - addrToPageTableIndex (startAddr virtualAddr i)) ≤
        1024 := by
    rw [starts, ends]
    simp only [page]
    omega
  have bound : reached virtualAddr len i ≤ 2 ^ 20 := by
    simp only [reached, page]
    omega
  have from_low : page virtualAddr ≤ reached virtualAddr len i := by
    simp only [reached]
    omega
  have to_high : reached virtualAddr len (i + 1) ≤ page virtualAddr + len.toNat / 4096 := Nat.min_le_left ..
  obtain ⟨middle, pageTable, made, progressed, leads, rest, others⟩ :=
    progress_reachTable lawful below bound progress fits
  rw [begins] at progressed from_low
  rw [count] at to_high
  obtain ⟨after, done, final, sameHeap, sameDir⟩ :=
    progress_entries physical below _ _ _ inTable from_low to_high progressed leads
  refine ⟨after, ?_, ?_, ?_, fun k other => ?_⟩
  · rw [mapTable, made, Option.map_some]
    exact congrArg some done
  · rwa [count]
  · rwa [sameHeap]
  · rw [sameDir, others k other]

/-- The directory entries of a range that lead to no table. -/
def missingTables (p : Paging) (first count : Nat) : Nat :=
  (List.range' first count).countP fun di => p.pageDir di = 0#32

theorem missingTables_succ (p : Paging) (first count : Nat) : missingTables p first (count + 1) =
    if p.pageDir first = 0#32 then missingTables p (first + 1) count + 1 else missingTables p (first + 1) count := by
  rw [missingTables, List.range'_succ, List.countP_cons, missingTables]
  by_cases empty : p.pageDir first = 0#32 <;> simp [empty]

theorem missingTables_congr {q : Paging} {first count : Nat}
    (same : ∀ k, first ≤ k → q.pageDir k = p.pageDir k) :
    missingTables q first count = missingTables p first count := by
  refine List.countP_congr fun di member => ?_
  obtain ⟨k, -, index⟩ := List.mem_range'.mp member
  rw [same di (by omega)]

theorem progress_tables (lawful : heap.Lawful free) (physical : PhysicalRange physAddr len)
    (virtual : VirtualRange virtualAddr len) (count : Nat) : ∀ (i : Nat) (st : MappingState σ),
    addrToPageDirIndex virtualAddr ≤ i → i + count = addrToPageDirIndex (virtualAddr + len - 1) + 1 →
    Progress free p physAddr virtualAddr st (reached virtualAddr len i) →
    heap.HasRoom st.heap (missingTables st.paging i count) →
    ∃ after, (List.range' i count).foldlM (mapTable heap physAddr virtualAddr len) st = some after ∧
      Progress free p physAddr virtualAddr after (reached virtualAddr len (i + count)) := by
  induction count with
  | zero => exact fun i st _ _ progress _ => ⟨st, rfl, progress⟩
  | succ count ih =>
    intro i st low high progress fits
    rw [missingTables_succ] at fits
    obtain ⟨next, mapped, step, room, others⟩ := progress_mapTable lawful physical virtual low (by omega) progress fits
    have same : missingTables next.paging (i + 1) count = missingTables st.paging (i + 1) count :=
      missingTables_congr fun k later => others k (by omega)
    obtain ⟨after, done, final⟩ := ih (i + 1) next (by omega) (by omega) step (by rwa [same])
    refine ⟨after, ?_, ?_⟩
    · rw [List.range'_succ, List.foldlM_cons, mapped]
      exact done
    · rwa [← Nat.add_assoc, Nat.add_right_comm]

/-- The tables that the loops have to make. -/
def tablesToMake (p : Paging) (virtualAddr len : Word) : Nat :=
  missingTables p (addrToPageDirIndex virtualAddr)
    (addrToPageDirIndex (virtualAddr + len - 1) + 1 - addrToPageDirIndex virtualAddr)

/-- The loops come to their end and map the range; the directory stays one that they
can be run on again. -/
theorem mapPhysicalMemoryRegion_maps (lawful : heap.Lawful free) (physical : PhysicalRange physAddr len)
    (virtual : VirtualRange virtualAddr len) {s : σ} (formed : Formed (free s) p)
    (room : heap.HasRoom s (tablesToMake p virtualAddr len)) :
    ∃ after, mapPhysicalMemoryRegion heap p s physAddr virtualAddr len = some after ∧
      MapsRightly p after.paging physAddr virtualAddr len ∧ Formed (free after.heap) after.paging := by
  have aligned := virtual.aligned
  have multiple := virtual.multiple
  have positive := virtual.positive
  have low : addrToPageDirIndex virtualAddr ≤ addrToPageDirIndex (virtualAddr + len - 1) := by
    simp only [addrToPageDirIndex, virtual.last]
    omega
  have begins : reached virtualAddr len (addrToPageDirIndex virtualAddr) = page virtualAddr := by
    simp only [reached, addrToPageDirIndex, page]
    omega
  have start : Progress free p physAddr virtualAddr ⟨p, s, 0#32⟩
      (reached virtualAddr len (addrToPageDirIndex virtualAddr)) := begins ▸ progress_start formed
  obtain ⟨after, done, final⟩ := progress_tables lawful physical virtual _ _ _ (Nat.le_refl _) (by omega) start room
  have ends : reached virtualAddr len (addrToPageDirIndex virtualAddr +
      (addrToPageDirIndex (virtualAddr + len - 1) + 1 - addrToPageDirIndex virtualAddr)) =
        page virtualAddr + len.toNat / 4096 := by
    rw [Nat.add_sub_of_le (by omega)]
    simp only [reached, addrToPageDirIndex, virtual.last, page]
    omega
  rw [ends] at final
  refine ⟨after, done, ⟨fun i bound => ?_, fun v bound outside => ?_, fun n => ?_⟩, final.formed⟩
  · have mapped := final.maps (page virtualAddr + i) (Nat.le_add_right ..) (by omega)
    rwa [Nat.add_sub_cancel_left] at mapped
  · exact final.spares v bound outside
  · have marked := final.marks n
    rwa [Nat.add_sub_cancel_left] at marked

theorem mapPhysicalMemory_maps (lawful : heap.Lawful free) (physical : PhysicalRange physAddr len) {s s₁ : σ}
    (formed : Formed (free s) p) {virtMemPtr : Word} (got : heap.posixMemalign s len = (some virtMemPtr, s₁))
    (room : heap.HasRoom s₁ (tablesToMake p virtMemPtr len)) :
    ∃ after, mapPhysicalMemory heap p s physAddr len = some (after, virtMemPtr) ∧
      MapsRightly p after.paging physAddr virtMemPtr len ∧ Formed (free after.heap) after.paging := by
  have limit := lawful.bounded got
  have virtual : VirtualRange virtMemPtr len :=
    ⟨lawful.aligned got, physical.multiple, physical.positive, Nat.le_trans limit (by decide)⟩
  have still : Formed (free s₁) p := ⟨formed.emptyOrPresent, formed.distinct,
    fun di below there given => formed.inUse di below there (lawful.shrinks got _ given)⟩
  obtain ⟨after, done, right, kept⟩ := mapPhysicalMemoryRegion_maps lawful physical virtual still room
  refine ⟨after, ?_, right, kept⟩
  rw [mapPhysicalMemory, got]
  exact congrArg (Option.map fun st => (st, virtMemPtr)) done

/-- **A range of physical memory is mapped** page by page, whatever directory
boundaries it crosses, on a formed or an empty directory, at an address that is
given or at one that the heap gives. -/
theorem physical_memory_mapped (lawful : heap.Lawful free) (physical : PhysicalRange physAddr len) {s : σ}
    (usable : Formed (free s) p ∨ ∃ pageDir, p.pageDir = emptyPageDir pageDir) :
    (∀ virtualAddr, VirtualRange virtualAddr len → heap.HasRoom s (tablesToMake p virtualAddr len) →
      ∃ after, mapPhysicalMemoryRegion heap p s physAddr virtualAddr len = some after ∧
        MapsRightly p after.paging physAddr virtualAddr len) ∧
    (∀ virtMemPtr s₁, heap.posixMemalign s len = (some virtMemPtr, s₁) →
      heap.HasRoom s₁ (tablesToMake p virtMemPtr len) →
      ∃ after, mapPhysicalMemory heap p s physAddr len = some (after, virtMemPtr) ∧
        MapsRightly p after.paging physAddr virtMemPtr len) := by
  have formed : Formed (free s) p := by
    rcases usable with formed | ⟨pageDir, empty⟩
    · exact formed
    · exact formed_emptyPageDir (free s) empty
  constructor
  · intro virtualAddr virtual room
    obtain ⟨after, done, right, -⟩ := mapPhysicalMemoryRegion_maps lawful physical virtual formed room
    exact ⟨after, done, right⟩
  · intro virtMemPtr s₁ got room
    obtain ⟨after, done, right, -⟩ := mapPhysicalMemory_maps lawful physical formed got room
    exact ⟨after, done, right⟩

end

/-! ## A heap -/

/-- A heap that gives its pages one after the other. -/
def pagesInOrder : KernelHeap Nat where
  posixMemalign next size :=
    if next * 4096 + size.toNat ≤ kernelSpaceUpperLimit then
      (some (pageAddress next), next + (size.toNat + 4095) / 4096)
    else (none, next)
  physicalPage := page

theorem pagesInOrder_given {next after : Nat} {size addr : Word}
    (got : pagesInOrder.posixMemalign next size = (some addr, after)) :
    addr.toNat = next * 4096 ∧ next * 4096 + size.toNat ≤ kernelSpaceUpperLimit ∧
      after = next + (size.toNat + 4095) / 4096 := by
  simp only [pagesInOrder] at got
  by_cases fits : next * 4096 + size.toNat ≤ kernelSpaceUpperLimit
  · rw [if_pos fits] at got
    cases got
    have small : next < 2 ^ 20 := by
      simp only [kernelSpaceUpperLimit] at fits
      omega
    exact ⟨toNat_pageAddress small, fits, rfl⟩
  · rw [if_neg fits] at got
    cases got

theorem pagesInOrder_lawful : pagesInOrder.Lawful fun next n => next ≤ n := by
  refine ⟨fun got => ?_, fun got => ?_, fun got n low high => ?_, fun got n later => ?_, fun _ => rfl⟩
  · have given := pagesInOrder_given got
    omega
  · have given := pagesInOrder_given got
    omega
  · have given := pagesInOrder_given got
    simp only [page] at low
    omega
  · have given := pagesInOrder_given got
    omega

/-- Two pages of device memory on both sides of a directory boundary. -/
theorem device_memory_mapped : ∃ after,
    mapPhysicalMemoryRegion pagesInOrder ⟨⟨fun _ => 0#32⟩, fun _ _ => 0#32, emptyPageDir 0x100000#32⟩ 0x300
        0xE0000000#32 0x003FF000#32 0x2000#32 = some after ∧
      MapsRightly ⟨⟨fun _ => 0#32⟩, fun _ _ => 0#32, emptyPageDir 0x100000#32⟩ after.paging
        0xE0000000#32 0x003FF000#32 0x2000#32 := by
  have two : tablesToMake ⟨⟨fun _ => 0#32⟩, fun _ _ => 0#32, emptyPageDir 0x100000#32⟩
      0x003FF000#32 0x2000#32 = 2 := by decide
  refine (physical_memory_mapped pagesInOrder_lawful ⟨by decide, by decide, by decide, by decide⟩
    (.inr ⟨_, rfl⟩)).1 _ ⟨by decide, by decide, by decide, by decide⟩ ?_
  rw [two]
  exact ⟨by decide, by decide, trivial⟩

end FluxOS.PagingManager
