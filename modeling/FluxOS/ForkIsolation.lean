import FluxOS.CopyOnWrite
import FluxOS.DemandPaging
import FluxOS.PageSharing
import Mathlib.Data.List.Induction

/-! What processes see of their memory while forks share it: page faults bring in
pages of zeros, a store to a page that may not be written copies its table and the
page first, and a fork takes the permission to write from both sides. Each process
has a memory of its own, up to the one way in which the tables let a page through
to another process. -/
namespace FluxOS
open Words PagingManager

/-- The page tables with one directory loaded, and what is in the pages. -/
structure PagedMemory extends Paging where
  contents : Nat → PageContents

namespace PagedMemory

/-- The entry of the page table that maps the address. -/
def entryOf (m : PagedMemory) (addr : Word) : Word :=
  pageTable m.toPaging (addrToPageDirIndex addr) (addrToPageTableIndex addr)

/-- `newPage` with its `memset`, which goes through the new entry. -/
def newPage (m : PagedMemory) (addr flags : Word) : PagedMemory :=
  let m : PagedMemory := { m with toPaging := PagingManager.newPage m.toPaging addr flags }
  { m with contents := Function.update m.contents (page (m.entryOf addr)) MemoryContext.zeroPage }

/-- The `memcpy` of a read-only page to the page that is allocated for it. -/
def copyContents (p : Paging) (di ti : Nat) (contents : Nat → PageContents) : Nat → PageContents :=
  if has (pageTable p di ti) write then contents
  else Function.update contents (page (allocTemporaryWriteablePage p).2) (contents (page (pageTable p di ti)))

/-- `makeWriteablePageCopy` with what is in the pages. -/
def makeWriteablePageCopy (m : PagedMemory) (sourceAddress : Word) : PagedMemory where
  toPaging := PagingManager.makeWriteablePageCopy m.toPaging sourceAddress
  contents :=
    let di := addrToPageDirIndex sourceAddress
    copyContents (copyTable m.toPaging di) di (addrToPageTableIndex sourceAddress) m.contents

/-- The processor lets a program write at the address. -/
def UserWriteable (m : PagedMemory) (addr : Word) : Prop :=
  ∀ flag ∈ [present, write, user], has (m.pageDir (addrToPageDirIndex addr)) flag ∧ has (m.entryOf addr) flag

instance (m : PagedMemory) (addr : Word) : Decidable (m.UserWriteable addr) :=
  inferInstanceAs (Decidable (∀ _ ∈ _, _))

/-- A program stores a byte: where the processor does not let it, the fault makes
a copy and the store is tried again. -/
def storeByte (m : PagedMemory) (addr : Word) (byte : BitVec 8) : PagedMemory :=
  let m := if m.UserWriteable addr then m else m.makeWriteablePageCopy addr
  let frame := page (m.entryOf addr)
  { m with contents := Function.update m.contents frame (Function.update (m.contents frame) (addr.toNat % 4096) byte) }

end PagedMemory

/-- The page tables of all processes, and what is in the pages. -/
structure MemorySystem extends PagingSystem where
  contents : Nat → PageContents

namespace MemorySystem

def load (s : MemorySystem) (dir : Nat → Word) : PagedMemory :=
  { toPaging := s.toPagingSystem.load dir, contents := s.contents }

def store (s : MemorySystem) (pid : Nat) (m : PagedMemory) : MemorySystem :=
  { toPagingSystem := s.toPagingSystem.store pid m.toPaging, contents := m.contents }

inductive Action where
  | touch (pid : Nat) (addr : Word) (writeable : Bool)
  | write (pid : Nat) (addr : Word) (byte : BitVec 8)
  | fork (parent child : Nat) (newPD : Word)

/-- One action: a first access to a page, a store to a page that is there, or a
fork. -/
def step (s : MemorySystem) : Action → MemorySystem
  | .touch pid addr writeable =>
    match s.spaces pid with
    | some dir => s.store pid ((s.load dir).newPage addr (PagingSystem.npFlags writeable))
    | none => s
  | .write pid addr byte =>
    match s.spaces pid with
    | some dir => s.store pid ((s.load dir).storeByte addr byte)
    | none => s
  | .fork parent child newPD =>
    match s.spaces parent with
    | some dir =>
      let p := changeRegionFlags (s.load dir).toPaging userspaceLowAddr userspaceLen 0#32 write present true
      let s := s.store parent { s.load dir with toPaging := p }
      { s with spaces := Function.update s.spaces child (some (clonePageDir p newPD)) }
    | none => s

def run (s : MemorySystem) (actions : List Action) : MemorySystem := actions.foldl step s

/-- The action can happen: it is one of a live process, on a page that is missing
or there, and a fork makes a process that was not there. -/
def Enabled (s : MemorySystem) : Action → Prop
  | .touch pid addr _ => ∃ dir, s.spaces pid = some dir ∧ PagingSystem.InUserspace addr ∧
      ¬ PagingSystem.Mapped (s.load dir).toPaging addr
  | .write pid addr _ => ∃ dir, s.spaces pid = some dir ∧ PagingSystem.InUserspace addr ∧
      PagingSystem.Mapped (s.load dir).toPaging addr
  | .fork parent child _ => (∃ dir, s.spaces parent = some dir) ∧ s.spaces child = none

/-- The directory entries that a fork protects. -/
def ForkedDir (di : Nat) : Prop := 32 ≤ di ∧ di < 1022

instance (di : Nat) : Decidable (ForkedDir di) := inferInstanceAs (Decidable (_ ∧ _))

/-- The address lies in what a fork protects, and there are pages left for what the
action allocates. -/
def Room (s : MemorySystem) : Action → Prop
  | .touch pid addr _ => ∀ dir, s.spaces pid = some dir → addrToPageDirIndex addr < 1022 ∧
      FreePages (s.load dir).toPaging (if has (dir (addrToPageDirIndex addr)) present then 1 else 2)
  | .write pid addr _ => ∀ dir, s.spaces pid = some dir → addrToPageDirIndex addr < 1022 ∧
      FreePages (s.load dir).toPaging
        ((if has ((s.load dir).entryOf addr) write then 0 else 1) +
          if has (dir (addrToPageDirIndex addr)) write then 0 else 1)
  | .fork _ _ _ => True

/-- The page goes into a table that another process, or another directory entry,
has as well. -/
def MapsIntoSharedTable (s : MemorySystem) : Action → Prop
  | .touch pid addr _ => ∃ dir, s.spaces pid = some dir ∧ has (dir (addrToPageDirIndex addr)) present ∧
      ∃ q other di, s.spaces q = some other ∧ ForkedDir di ∧ has (other di) present ∧
        page (other di) = page (dir (addrToPageDirIndex addr)) ∧ (q, di) ≠ (pid, addrToPageDirIndex addr)
  | .write _ _ _ => False
  | .fork _ _ _ => False

/-! ## The tables as links -/

/-- What the processor makes of an entry. -/
def link (entry : Word) : Option (Link Nat) :=
  if has entry present then some ⟨page entry, has entry write⟩ else none

def linkTable (table : Nat → Word) (ti : Nat) : Option (Link Nat) := if ti < 1024 then link (table ti) else none

def translation (spaces : Nat → Option (Nat → Word)) (tables : Nat → Nat → Word) (contents : Nat → PageContents) :
    Translation Nat Nat Nat Nat PageContents where
  directory pid di := if ForkedDir di then (spaces pid).bind fun dir => link (dir di) else none
  table f := linkTable (tables f)
  contents := contents

/-- What each process sees of its pages. -/
def memory (s : MemorySystem) : Memories Nat Nat Nat PageContents :=
  (translation s.spaces s.tables s.contents).memory

/-- What the action does to processes that have a memory of their own. -/
def privateStep (m : Memories Nat Nat Nat PageContents) : Action → Memories Nat Nat Nat PageContents
  | .touch pid addr _ => m.set pid (addrToPageDirIndex addr) (addrToPageTableIndex addr) MemoryContext.zeroPage
  | .write pid addr byte =>
    match m pid (addrToPageDirIndex addr) (addrToPageTableIndex addr) with
    | some contents => m.set pid (addrToPageDirIndex addr) (addrToPageTableIndex addr)
        (Function.update contents (addr.toNat % 4096) byte)
    | none => m
  | .fork parent child _ => Function.update m child (m parent)

theorem link_eq_some {entry : Word} {l : Link Nat} :
    link entry = some l ↔ has entry present ∧ l = ⟨page entry, has entry write⟩ := by
  unfold link
  split
  · rename_i there
    rw [Option.some.injEq]
    exact ⟨fun same => ⟨there, same.symm⟩, fun ⟨_, same⟩ => same.symm⟩
  · rename_i missing
    exact ⟨nofun, fun ⟨there, _⟩ => absurd there missing⟩

theorem link_of_present {entry : Word} (there : has entry present) :
    link entry = some ⟨page entry, has entry write⟩ := if_pos there

theorem link_of_missing {entry : Word} (missing : ¬ has entry present) : link entry = none := if_neg missing

theorem linkTable_update {ti : Nat} (bound : ti < 1024) (table : Nat → Word) (entry : Word) :
    linkTable (Function.update table ti entry) = Function.update (linkTable table) ti (link entry) := by
  funext tj
  by_cases same : tj = ti
  · simp [same, linkTable, bound]
  · simp [same, linkTable]

/-- A table behind a new directory entry that lets writes pass. -/
theorem translation_setTable {di : Nat} (isUser : ForkedDir di) {entry : Word} (there : has entry present)
    (writeable : has entry write) (spaces : Nat → Option (Nat → Word)) (pid : Nat) (dir : Nat → Word)
    (tables : Nat → Nat → Word) (table : Nat → Word) (contents : Nat → PageContents) :
    translation (Function.update spaces pid (some (Function.update dir di entry)))
        (Function.update tables (page entry) table) contents =
      (translation (Function.update spaces pid (some dir)) tables contents).setTable pid di (page entry)
        (linkTable table) := by
  refine Translation.ext ?_ ?_ rfl
  · funext q dj
    rw [Translation.directory_setTable]
    by_cases space : q = pid
    · subst space
      by_cases same : dj = di
      · simp [translation, same, isUser, link_of_present there, writeable]
      · simp [translation, same]
    · simp [translation, space]
  · funext f
    by_cases same : f = page entry <;> simp [translation, Translation.setTable, same]

/-- A page behind a new table entry. -/
theorem translation_setPage {ti : Nat} (bound : ti < 1024) {entry : Word} (there : has entry present)
    (spaces : Nat → Option (Nat → Word)) (tables : Nat → Nat → Word) (f : Nat) (contents : Nat → PageContents)
    (content : PageContents) :
    translation spaces (Function.update tables f (Function.update (tables f) ti entry))
        (Function.update contents (page entry) content) =
      (translation spaces tables contents).setPage f ti ⟨page entry, has entry write⟩ content := by
  refine Translation.ext rfl ?_ rfl
  funext g
  by_cases same : g = f
  · subst same
    simp [translation, Translation.setPage, linkTable_update bound, link_of_present there]
  · simp [translation, Translation.setPage, same]

/-! ## One process at a time -/

/-- The links of all processes, with the directory of process `pid` loaded. -/
def view (spaces : Nat → Option (Nat → Word)) (pid : Nat) (p : Paging) (contents : Nat → PageContents) :
    Translation Nat Nat Nat Nat PageContents :=
  translation (Function.update spaces pid (some p.pageDir)) p.tables contents

section Operations
variable {spaces : Nat → Option (Nat → Word)} {pid : Nat} {p : Paging} {contents : Nat → PageContents} {di ti : Nat}
  {entry : Word}

theorem ForkedDir.userIndex (forked : ForkedDir di) : UserIndex di := ⟨forked.1, by have := forked.2; omega⟩

theorem view_newTable (forked : ForkedDir di) (there : has entry present) (writeable : has entry write)
    (table : Nat → Word) :
    view spaces pid (setPageTable (setDirEntry p di entry) di table) contents =
      (view spaces pid p contents).setTable pid di (page entry) (linkTable table) := by
  rw [setPageTable_user _ forked.userIndex]
  simp only [setDirEntry, Function.update_self, view]
  exact translation_setTable forked there writeable spaces pid p.pageDir p.tables table contents

theorem view_setEntry (forked : ForkedDir di) (bound : ti < 1024) (there : has entry present)
    (content : PageContents) :
    view spaces pid (setEntry p di ti entry) (Function.update contents (page entry) content) =
      (view spaces pid p contents).setPage (page (p.pageDir di)) ti ⟨page entry, has entry write⟩ content := by
  rw [setEntry, setPageTable_user _ forked.userIndex, pageTable_user _ forked.userIndex]
  exact translation_setPage bound there _ p.tables _ contents content

theorem pageTable_setEntry (forked : ForkedDir di) : pageTable (setEntry p di ti entry) di ti = entry := by
  rw [setEntry, setPageTable_user _ forked.userIndex, pageTable_user _ forked.userIndex]
  simp only [Function.update_self]

/-- The last two writes of `makeWriteablePageCopy`. -/
def addUserFlag (p : Paging) (di ti : Nat) : Paging :=
  let p := setDirEntry p di (p.pageDir di ||| user)
  setEntry p di ti (pageTable p di ti ||| user)

/-- The user flag is nothing that a link has. -/
theorem link_user (entry : Word) : link (entry ||| user) = link entry := by
  have low : user.toNat < 4096 := by decide
  have noPresent : has user present = false := by decide
  have noWrite : has user write = false := by decide
  simp [link, page_or low, noPresent, noWrite]

theorem view_userFlag (spaces : Nat → Option (Nat → Word)) (pid : Nat) (contents : Nat → PageContents)
    (forked : ForkedDir di) (p : Paging) (ti : Nat) :
    view spaces pid (addUserFlag p di ti) contents = view spaces pid p contents := by
  have low : user.toNat < 4096 := by decide
  rw [addUserFlag, setEntry, setPageTable_user _ forked.userIndex, pageTable_user _ forked.userIndex]
  simp only [setDirEntry, Function.update_self, page_or low, view]
  refine Translation.ext ?_ ?_ rfl
  · funext q dj
    by_cases space : q = pid
    · subst space
      by_cases same : dj = di <;> simp [translation, same, link_user]
    · simp [translation, space]
  · funext f
    by_cases same : f = page (p.pageDir di)
    · subst same
      funext tj
      by_cases sameEntry : tj = ti <;> simp [translation, linkTable, sameEntry, link_user]
    · simp [translation, same]

/-- With the user flag in both entries, the processor lets through what both let. -/
theorem userWriteable_userFlag (forked : ForkedDir di) {flag : Word} (dir : flag = user ∨ has (p.pageDir di) flag)
    (entry : flag = user ∨ has (pageTable p di ti) flag) :
    has ((addUserFlag p di ti).pageDir di) flag ∧ has (pageTable (addUserFlag p di ti) di ti) flag := by
  have low : user.toNat < 4096 := by decide
  have own : has user user := by decide
  rw [addUserFlag, pageTable_setEntry forked, setEntry, setPageTable_user _ forked.userIndex,
    pageTable_user _ forked.userIndex]
  rw [pageTable_user _ forked.userIndex] at entry
  simp only [setDirEntry, Function.update_self, page_or low, has_or, Bool.or_eq_true]
  exact ⟨dir.elim (fun same => .inr (same ▸ own)) .inl, entry.elim (fun same => .inr (same ▸ own)) .inl⟩

/-- Every table and page that a process has is allocated. -/
def AllAllocated (spaces : Nat → Option (Nat → Word)) (pid : Nat) (p : Paging) : Prop :=
  ∀ q dir, Function.update spaces pid (some p.pageDir) q = some dir → Sound p dir

theorem unused_of_free (allocated : AllAllocated spaces pid p) {f : Nat} (free : p.physicalMM.allocated f = false) :
    (view spaces pid p contents).Unused f := by
  have entries : ∀ q dj l, (view spaces pid p contents).directory q dj = some l → p.physicalMM.allocated l.frame ∧
      ∀ tj page, (view spaces pid p contents).table l.frame tj = some page → p.physicalMM.allocated page.frame := by
    intro q dj l there
    simp only [view, translation] at there ⊢
    split at there
    · rename_i forked
      obtain ⟨dir, live, entry⟩ := Option.bind_eq_some_iff.mp there
      obtain ⟨dirThere, rfl⟩ := link_eq_some.mp entry
      obtain ⟨set, kept⟩ := allocated q dir live dj forked.userIndex dirThere
      refine ⟨set, fun tj page mapped => ?_⟩
      simp only [linkTable] at mapped
      split at mapped
      · rename_i bound
        obtain ⟨pageThere, rfl⟩ := link_eq_some.mp mapped
        rcases kept tj bound with empty | ⟨-, pageSet⟩
        · rw [empty, has_zero] at pageThere
          cases pageThere
        · exact pageSet
      · cases mapped
    · cases there
  refine ⟨fun q dj l there same => ?_, fun q dj tj l page there mapped same => ?_⟩
  · have set := (entries q dj l there).1
    rw [same, free] at set
    cases set
  · have set := (entries q dj l there).2 tj page mapped
    rw [same, free] at set
    cases set

theorem allocPage_fresh (free : FreePages p 1) : p.physicalMM.allocated (page (allocPage p).2) = false := by
  have allocation := PhysicalMM.allocPage_allocation p.physicalMM
  simp only [allocPage]
  revert allocation
  generalize p.physicalMM.allocPage = result
  intro allocation
  cases allocation with
  | exhausted full =>
    obtain ⟨pages, -, single, unused⟩ := free
    obtain ⟨n, rfl⟩ := List.length_eq_one_iff.mp single
    have clear := unused n (List.mem_singleton_self n)
    rw [full n clear.1] at clear
    exact absurd clear.2 (by decide)
  | taken n bound clear => rwa [page_pageAddress bound]

theorem linkTable_empty : linkTable (fun _ => 0#32) = fun _ => none := by
  funext ti
  simp [linkTable, link]

/-- The flags of a new page lie below its address. -/
private theorem low_newFlags (writeable : Bool) :
    (present ||| user ||| (present ||| user ||| PagingSystem.npFlags writeable)).toNat < 4096 := by
  cases writeable <;> decide

private theorem present_newFlags (address : Word) (writeable : Bool) :
    has (pageTableEntry address (present ||| user ||| (present ||| user ||| PagingSystem.npFlags writeable))) present := by
  simp only [pageTableEntry, has_or]
  rw [show has present present = true by decide, Bool.true_or, Bool.true_or, Bool.or_true]

private theorem has_flags {flags flag : Word} (set : has flags flag = true) (address : Word) :
    has (address ||| flags) flag := by rw [has_or, set, Bool.or_true]

/-- An empty table where there was none, in a page that was free. -/
theorem view_ensureTable (spaces : Nat → Option (Nat → Word)) (pid : Nat) (contents : Nat → PageContents)
    (forked : ForkedDir di) (missing : ¬ has (p.pageDir di) present) (room : FreePages p 1) :
    p.physicalMM.allocated (page ((ensureTable p di).pageDir di)) = false ∧
      view spaces pid (ensureTable p di) contents =
        (view spaces pid p contents).setTable pid di (page ((ensureTable p di).pageDir di)) fun _ => none := by
  have low : (kernelStdPage ||| user).toNat < 4096 := by decide
  have made : ensureTable p di = setPageTable (setDirEntry (allocPage p).1 di
      (pageDirectoryEntry (allocPage p).2 (kernelStdPage ||| user))) di fun _ => 0#32 := if_neg missing
  have frame : page ((ensureTable p di).pageDir di) = page (allocPage p).2 := by
    rw [made, setPageTable_user _ forked.userIndex]
    simp only [setDirEntry, Function.update_self, pageDirectoryEntry, page_or low]
  rw [frame]
  refine ⟨allocPage_fresh room, ?_⟩
  rw [made, pageDirectoryEntry, view_newTable forked (has_flags (by decide) _) (has_flags (by decide) _),
    linkTable_empty, page_or low]
  rfl

variable {m : PagedMemory} {addr : Word}

/-- What `newPage` does to the links: an empty table where there was none, and the
page in the table. -/
theorem view_newPage (forked : ForkedDir (addrToPageDirIndex addr)) (allocated : AllAllocated spaces pid m.toPaging)
    (room : FreePages m.toPaging (if has (m.pageDir (addrToPageDirIndex addr)) present then 1 else 2))
    (writeable : Bool) :
    let t := view spaces pid m.toPaging m.contents
    let m' := m.newPage addr (PagingSystem.npFlags writeable)
    let t' := view spaces pid m'.toPaging m'.contents
    let ti := addrToPageTableIndex addr
    ∃ new : Link Nat, t.Unused new.frame ∧
      ((has (m.pageDir (addrToPageDirIndex addr)) present ∧
          t' = t.setPage (page (m.pageDir (addrToPageDirIndex addr))) ti new MemoryContext.zeroPage) ∨
        (¬ has (m.pageDir (addrToPageDirIndex addr)) present ∧ ∃ f, t.Unused f ∧ f ≠ new.frame ∧
          t' = (t.setTable pid (addrToPageDirIndex addr) f fun _ => none).setPage f ti new
            MemoryContext.zeroPage)) := by
  intro t m' t' ti
  have enough : FreePages m.toPaging 1 := room.weaken (by split <;> omega)
  have taken := allocPage_taken enough
  have fresh := allocPage_fresh enough
  -- the page tables before the entry of the new page is written, and that entry
  obtain ⟨tables, tablesEq⟩ : ∃ q, q = ensureTable (allocPage m.toPaging).1 (addrToPageDirIndex addr) := ⟨_, rfl⟩
  obtain ⟨entry, entryEq⟩ : ∃ entry, entry = pageTableEntry (allocPage m.toPaging).2
    (present ||| user ||| (present ||| user ||| PagingSystem.npFlags writeable)) := ⟨_, rfl⟩
  have there : has entry present := entryEq ▸ present_newFlags _ writeable
  have frame : page entry = page (allocPage m.toPaging).2 := by rw [entryEq, pageTableEntry, page_or (low_newFlags _)]
  have after : t' = (view spaces pid tables m.contents).setPage (page (tables.pageDir (addrToPageDirIndex addr))) ti
      ⟨page entry, has entry write⟩ MemoryContext.zeroPage := by
    have same : m' = { toPaging := setEntry tables (addrToPageDirIndex addr) ti entry, contents :=
        Function.update m.contents (page (pageTable (setEntry tables (addrToPageDirIndex addr) ti entry)
          (addrToPageDirIndex addr) ti)) MemoryContext.zeroPage } := by
      rw [entryEq, tablesEq]
      rfl
    rw [← view_setEntry forked (addrToPageTableIndex_lt addr) there]
    simp only [t', ti, same, pageTable_setEntry forked]
  refine ⟨⟨page entry, has entry write⟩, unused_of_free allocated (frame ▸ fresh), ?_⟩
  by_cases live : has (m.pageDir (addrToPageDirIndex addr)) present
  · have kept : tables = (allocPage m.toPaging).1 := tablesEq.trans (if_pos live)
    refine .inl ⟨live, ?_⟩
    rw [after, kept]
    rfl
  · rw [if_neg live] at room
    obtain ⟨free, made⟩ := view_ensureTable spaces pid m.contents (p := (allocPage m.toPaging).1) forked live
      (taken.remaining 1 room)
    rw [← tablesEq] at free made
    refine .inr ⟨live, page (tables.pageDir (addrToPageDirIndex addr)), unused_of_free allocated ?_, fun same => ?_, ?_⟩
    · by_contra set
      rw [taken.keeps.allocated _ (by simpa using set)] at free
      cases free
    · rw [same, frame, taken.allocated] at free
      cases free
    · rw [after, made]
      rfl

/-! ## Copies -/

theorem AllAllocated.keeps (allocated : AllAllocated spaces pid p) {q : Paging} (keeps : Keeps p q) :
    AllAllocated spaces pid q := by
  intro other dir live
  by_cases same : other = pid
  · rw [same, Function.update_self, Option.some.injEq] at live
    rw [← live]
    exact keeps.own (allocated pid p.pageDir (Function.update_self _ _ _))
  · rw [Function.update_of_ne same] at live
    exact keeps.others dir (allocated other dir (by rwa [Function.update_of_ne same]))

/-- The links keep apart what they kept apart, and every process sees what it saw. -/
structure Unnoticed (t t' : Translation Nat Nat Nat Nat PageContents) : Prop where
  isolated : t'.Isolated
  memory : t'.memory = t.memory

theorem Unnoticed.trans {t t' t'' : Translation Nat Nat Nat Nat PageContents} (first : Unnoticed t t')
    (second : Unnoticed t' t'') : Unnoticed t t'' := ⟨second.isolated, second.memory.trans first.memory⟩

theorem view_directory (spaces : Nat → Option (Nat → Word)) (pid : Nat) (contents : Nat → PageContents)
    (forked : ForkedDir di) (live : has (p.pageDir di) present) :
    (view spaces pid p contents).directory pid di = some ⟨page (p.pageDir di), has (p.pageDir di) write⟩ := by
  simp [view, translation, forked, link_of_present live]

theorem view_table (spaces : Nat → Option (Nat → Word)) (pid : Nat) (contents : Nat → PageContents)
    (forked : ForkedDir di) (bound : ti < 1024) (there : has (pageTable p di ti) present) :
    (view spaces pid p contents).table (page (p.pageDir di)) ti =
      some ⟨page (pageTable p di ti), has (pageTable p di ti) write⟩ := by
  rw [pageTable_user _ forked.userIndex] at there ⊢
  simp [view, translation, linkTable, bound, link_of_present there]

/-- A table of its own for a process that is about to write. -/
theorem copyTable_unnoticed (contents : Nat → PageContents) (forked : ForkedDir di) (allocated : AllAllocated spaces pid p)
    (isolated : (view spaces pid p contents).Isolated) (live : has (p.pageDir di) present)
    (room : FreePages p (if has (p.pageDir di) write then 0 else 1)) :
    Unnoticed (view spaces pid p contents) (view spaces pid (copyTable p di) contents) ∧
      has ((copyTable p di).pageDir di) write := by
  unfold copyTable
  split
  · rename_i writeable
    exact ⟨⟨isolated, rfl⟩, writeable⟩
  · rename_i readOnly
    rw [if_neg readOnly] at room
    have taken := allocPage_taken room
    have low : (kernelStdPage ||| user ||| write).toNat < 4096 := by decide
    simp only [allocTemporaryWriteablePage, taken.aligned]
    obtain ⟨entry, entryEq⟩ : ∃ entry, entry = pageDirectoryEntry (allocPage p).2 (kernelStdPage ||| user ||| write) :=
      ⟨_, rfl⟩
    have there : has entry present := by rw [entryEq]; exact has_flags (by decide) _
    have writeable : has entry write := by rw [entryEq]; exact has_flags (by decide) _
    have frame : page entry = page (allocPage p).2 := by rw [entryEq, pageDirectoryEntry, page_or low]
    have unused : (view spaces pid p contents).Unused (page entry) :=
      unused_of_free allocated (frame ▸ allocPage_fresh room)
    have copied := view_directory spaces pid contents forked live
    have after : view spaces pid (setPageTable (setDirEntry (allocPage p).1 di entry) di (pageTable p di)) contents =
        (view spaces pid p contents).setTable pid di (page entry)
          ((view spaces pid p contents).table (page (p.pageDir di))) := by
      rw [view_newTable forked there writeable, pageTable_user _ forked.userIndex]
      rfl
    rw [← entryEq, after]
    refine ⟨⟨isolated.copyTable unused copied, Translation.memory_setTable unused fun ti => ?_⟩, ?_⟩
    · rw [copied]
      rfl
    · rw [setPageTable_user _ forked.userIndex]
      simpa only [setDirEntry, Function.update_self] using writeable

/-- A page of its own, in a table of its own. -/
theorem copyPage_unnoticed (forked : ForkedDir di) (bound : ti < 1024) (allocated : AllAllocated spaces pid p)
    (isolated : (view spaces pid p contents).Isolated) (live : has (p.pageDir di) present)
    (dirWriteable : has (p.pageDir di) write) (there : has (pageTable p di ti) present)
    (room : FreePages p (if has (pageTable p di ti) write then 0 else 1)) :
    Unnoticed (view spaces pid p contents) (view spaces pid (copyPage p di ti) (PagedMemory.copyContents p di ti contents)) ∧
      (copyPage p di ti).pageDir = p.pageDir ∧ has (pageTable (copyPage p di ti) di ti) present ∧
      has (pageTable (copyPage p di ti) di ti) write := by
  unfold copyPage PagedMemory.copyContents
  split
  · rename_i writeable
    exact ⟨⟨isolated, rfl⟩, rfl, there, writeable⟩
  · rename_i readOnly
    rw [if_neg readOnly] at room
    have taken := allocPage_taken room
    have low : (kernelStdPage ||| user ||| write).toNat < 4096 := by decide
    simp only [allocTemporaryWriteablePage, taken.aligned]
    obtain ⟨entry, entryEq⟩ : ∃ entry, entry = pageTableEntry (allocPage p).2 (kernelStdPage ||| user ||| write) :=
      ⟨_, rfl⟩
    have newThere : has entry present := by rw [entryEq]; exact has_flags (by decide) _
    have writeable : has entry write := by rw [entryEq]; exact has_flags (by decide) _
    have frame : page entry = page (allocPage p).2 := by rw [entryEq, pageTableEntry, page_or low]
    have unused : (view spaces pid p contents).Unused (page entry) :=
      unused_of_free allocated (frame ▸ allocPage_fresh room)
    have exclusive := isolated.exclusive (view_directory spaces pid contents forked live) dirWriteable
    have old := view_table spaces pid contents forked bound there
    have after : view spaces pid (setEntry (allocPage p).1 di ti entry)
          (Function.update contents (page entry) (contents (page (pageTable p di ti)))) =
        (view spaces pid p contents).setPage (page (p.pageDir di)) ti ⟨page entry, has entry write⟩
          (contents (page (pageTable p di ti))) := view_setEntry forked bound newThere _
    rw [← entryEq, ← frame, after]
    refine ⟨⟨isolated.setPage exclusive unused, Translation.memory_copyPage old unused⟩, ?_, ?_, ?_⟩
    · rw [setEntry, setPageTable_user _ forked.userIndex]
      rfl
    · rwa [pageTable_setEntry forked]
    · rwa [pageTable_setEntry forked]

/-- A write fault on a page that is there changes nothing that is seen, and the
processor lets the store that is tried again pass. -/
theorem makeWriteablePageCopy_unnoticed (forked : ForkedDir (addrToPageDirIndex addr))
    (allocated : AllAllocated spaces pid m.toPaging) (isolated : (view spaces pid m.toPaging m.contents).Isolated)
    (mapped : PagingSystem.Mapped m.toPaging addr)
    (room : FreePages m.toPaging ((if has (m.entryOf addr) write then 0 else 1) +
      if has (m.pageDir (addrToPageDirIndex addr)) write then 0 else 1)) :
    Unnoticed (view spaces pid m.toPaging m.contents)
        (view spaces pid (m.makeWriteablePageCopy addr).toPaging (m.makeWriteablePageCopy addr).contents) ∧
      (m.makeWriteablePageCopy addr).UserWriteable addr := by
  have bound := addrToPageTableIndex_lt addr
  have own := allocated pid m.pageDir (Function.update_self _ _ _)
  have tableCopy := copyTable_copied forked.userIndex own mapped.1 (room.weaken (Nat.le_add_left _ _))
  obtain ⟨tableUnnoticed, dirWriteable⟩ := copyTable_unnoticed m.contents forked allocated isolated
    mapped.1 (room.weaken (Nat.le_add_left _ _))
  have entryThere : has (pageTable (copyTable m.toPaging (addrToPageDirIndex addr)) (addrToPageDirIndex addr)
      (addrToPageTableIndex addr)) present := by rw [tableCopy.table]; exact mapped.2
  have left : FreePages (copyTable m.toPaging (addrToPageDirIndex addr))
      (if has (pageTable (copyTable m.toPaging (addrToPageDirIndex addr)) (addrToPageDirIndex addr)
        (addrToPageTableIndex addr)) write then 0 else 1) := by
    rw [tableCopy.table]
    exact tableCopy.remaining _ room
  obtain ⟨pageUnnoticed, sameDir, pageThere, pageWriteable⟩ := copyPage_unnoticed forked bound
    (allocated.keeps tableCopy.keeps) tableUnnoticed.isolated tableCopy.live dirWriteable entryThere left
  have unnoticed := tableUnnoticed.trans pageUnnoticed
  have after := view_userFlag spaces pid (m.makeWriteablePageCopy addr).contents forked
    (copyPage (copyTable m.toPaging (addrToPageDirIndex addr)) (addrToPageDirIndex addr) (addrToPageTableIndex addr))
    (addrToPageTableIndex addr)
  refine ⟨after ▸ unnoticed, fun flag member => userWriteable_userFlag forked ?_ ?_⟩
  · rw [sameDir]
    simp only [List.mem_cons, List.not_mem_nil, or_false] at member
    obtain rfl | rfl | rfl := member
    exacts [.inr tableCopy.live, .inr dirWriteable, .inl rfl]
  · simp only [List.mem_cons, List.not_mem_nil, or_false] at member
    obtain rfl | rfl | rfl := member
    exacts [.inr pageThere, .inr pageWriteable, .inl rfl]

/-- What a store changes of what is seen: the byte, in the page of that process. -/
theorem storeByte_view (forked : ForkedDir (addrToPageDirIndex addr)) (allocated : AllAllocated spaces pid m.toPaging)
    (isolated : (view spaces pid m.toPaging m.contents).Isolated) (mapped : PagingSystem.Mapped m.toPaging addr)
    (room : FreePages m.toPaging ((if has (m.entryOf addr) write then 0 else 1) +
      if has (m.pageDir (addrToPageDirIndex addr)) write then 0 else 1)) (byte : BitVec 8) :
    let t := view spaces pid m.toPaging m.contents
    let t' := view spaces pid (m.storeByte addr byte).toPaging (m.storeByte addr byte).contents
    t'.Isolated ∧ ∃ content, t.memory pid (addrToPageDirIndex addr) (addrToPageTableIndex addr) = some content ∧
      t'.memory = t.memory.set pid (addrToPageDirIndex addr) (addrToPageTableIndex addr)
        (Function.update content (addr.toNat % 4096) byte) := by
  intro t t'
  -- the memory that the store finds, after the fault if there is one
  obtain ⟨now, nowEq⟩ : ∃ now, now = if m.UserWriteable addr then m else m.makeWriteablePageCopy addr := ⟨_, rfl⟩
  obtain ⟨unnoticed, writeable⟩ : Unnoticed t (view spaces pid now.toPaging now.contents) ∧ now.UserWriteable addr := by
    rw [nowEq]
    split
    · rename_i allowed
      exact ⟨⟨isolated, rfl⟩, allowed⟩
    · exact makeWriteablePageCopy_unnoticed forked allocated isolated mapped room
  obtain ⟨dirThere, entryThere⟩ := writeable present (by decide)
  obtain ⟨dirWriteable, entryWriteable⟩ := writeable write (by decide)
  have table := view_directory spaces pid now.contents forked dirThere
  have entry := view_table spaces pid now.contents forked (addrToPageTableIndex_lt addr) entryThere
  have stored : t' = (view spaces pid now.toPaging now.contents).setContents (page (now.entryOf addr))
      (Function.update (now.contents (page (now.entryOf addr))) (addr.toNat % 4096) byte) := by
    simp only [t', PagedMemory.storeByte, ← nowEq]
    rfl
  rw [stored]
  refine ⟨unnoticed.isolated.setContents, now.contents (page (now.entryOf addr)), ?_, ?_⟩
  · rw [← unnoticed.memory, Translation.memory, table, Option.bind_some, entry]
    rfl
  · rw [← unnoticed.memory]
    exact Translation.memory_write unnoticed.isolated table dirWriteable entry entryWriteable

/-! ## Forks -/

theorem link_protect (entry : Word) :
    link (changeFlags 0#32 write present entry) = (link entry).map Translation.protectLink := by
  by_cases there : has entry present
  · have cleared : changeFlags 0#32 write present entry = entry &&& ~~~write ||| 0#32 := if_pos there
    have low : (0#32).toNat < 4096 := by decide
    have noWrite : has (entry &&& ~~~write) write = false := by
      rw [has, BitVec.and_assoc, show ~~~write &&& write = 0#32 by decide]
      simp
    rw [cleared, link_of_present there, link_of_present (by rw [has_or, has_and_of_sub (by decide), there, Bool.true_or]),
      page_or low, page_and (by decide), has_or, noWrite, has_zero]
    rfl
  · have kept : changeFlags 0#32 write present entry = entry := if_neg there
    rw [kept, link_of_missing there]
    rfl

/-- One round of the loop that protects what a fork shares. -/
theorem protects_changeTableFlags (spaces : Nat → Option (Nat → Word)) (pid : Nat) (p : Paging)
    (contents : Nat → PageContents) (forked : ForkedDir di) :
    Translation.Protects pid (· = di) (view spaces pid p contents)
      (view spaces pid (changeTableFlags userspaceLowAddr userspaceLen 0#32 write present true p di) contents) := by
  by_cases there : has (p.pageDir di) present
  · have low : (0#32).toNat < 4096 := by decide
    have frame : page (changeFlags 0#32 write present (p.pageDir di)) = page (p.pageDir di) := by
      rw [changeFlags, if_pos there, page_or low, page_and (by decide)]
    have start : (if di = addrToPageDirIndex userspaceLowAddr then addrToPageTableIndex userspaceLowAddr else 0) = 0 := by
      split <;> rfl
    have last : di ≠ addrToPageDirIndex (userspaceLowAddr + userspaceLen) := by
      rw [show addrToPageDirIndex (userspaceLowAddr + userspaceLen) = 1023 by decide]
      have := forked.2
      omega
    have round : changeTableFlags userspaceLowAddr userspaceLen 0#32 write present true p di =
        { p with
          pageDir := Function.update p.pageDir di (changeFlags 0#32 write present (p.pageDir di))
          tables := Function.update p.tables (page (p.pageDir di)) fun ti =>
            if 0 ≤ ti ∧ ti < 1024 then changeFlags 0#32 write present (p.tables (page (p.pageDir di)) ti)
            else p.tables (page (p.pageDir di)) ti } := by
      rw [changeTableFlags]
      simp only [↓reduceIte, there, start, if_neg last]
      rw [setPageTable_user _ forked.userIndex, pageTable_user _ forked.userIndex]
      simp only [setDirEntry, Function.update_self, frame]
    rw [round]
    have entries : ∀ ti, linkTable (fun ti =>
        if 0 ≤ ti ∧ ti < 1024 then changeFlags 0#32 write present (p.tables (page (p.pageDir di)) ti)
        else p.tables (page (p.pageDir di)) ti) ti =
          (linkTable (p.tables (page (p.pageDir di))) ti).map Translation.protectLink := by
      intro ti
      by_cases bound : ti < 1024 <;> simp [linkTable, bound, link_protect]
    refine ⟨fun d same => ?_, fun d other => ?_, fun q other => ?_, fun d l ti same entry => ?_, fun f ti => ?_, rfl⟩
    · subst same
      simp [view, translation, forked, link_protect]
    · simp [view, translation, other]
    · simp [view, translation, other]
    · subst same
      rw [view_directory spaces pid contents forked there, Option.some.injEq] at entry
      rw [← entry]
      simpa [view, translation] using entries ti
    · by_cases same : f = page (p.pageDir di)
      · subst same
        exact .inr (by simpa [view, translation] using entries ti)
      · exact .inl (by simp [view, translation, same])
  · have nothing : changeTableFlags userspaceLowAddr userspaceLen 0#32 write present true p di = p := by
      have kept : changeFlags 0#32 write present (p.pageDir di) = p.pageDir di := if_neg there
      simp only [changeTableFlags, ↓reduceIte, there, Bool.false_eq_true, kept, setDirEntry, Function.update_eq_self]
    have missing : (view spaces pid p contents).directory pid di = none := by
      simp [view, translation, link_of_missing there]
    rw [nothing]
    refine ⟨fun d same => ?_, fun d other => rfl, fun q other => rfl, fun d l ti same entry => ?_, fun f ti => .inl rfl, rfl⟩
    · subst same
      rw [missing]
      rfl
    · subst same
      rw [missing] at entry
      cases entry

/-- The write protection before a fork. -/
theorem protects_fork (spaces : Nat → Option (Nat → Word)) (pid : Nat) (p : Paging)
    (contents : Nat → PageContents) :
    Translation.Protects pid ForkedDir (view spaces pid p contents)
      (view spaces pid (changeRegionFlags p userspaceLowAddr userspaceLen 0#32 write present true) contents) := by
  suffices loop : ∀ count first (q : Paging), 32 ≤ first → first + count ≤ 1022 →
      Translation.Protects pid (fun d => first ≤ d ∧ d < first + count) (view spaces pid q contents)
        (view spaces pid ((List.range' first count).foldl
          (changeTableFlags userspaceLowAddr userspaceLen 0#32 write present true) q) contents) from
    loop 990 32 p (by decide) (by decide)
  intro count
  induction count with
  | zero =>
    intro first q _ _
    exact ⟨fun d none => by omega, fun d _ => rfl, fun q' _ => rfl, fun d l ti none => by omega, fun f ti => .inl rfl, rfl⟩
  | succ count ih =>
    intro first q low high
    have round := protects_changeTableFlags spaces pid q contents (show ForkedDir first from ⟨low, by omega⟩)
    have both := round.trans (ih (first + 1) _ (by omega) (by omega)) fun d same => by omega
    have dirs : (fun d => first ≤ d ∧ d < first + (count + 1)) =
        fun d => d = first ∨ first + 1 ≤ d ∧ d < first + 1 + count := by
      funext d
      exact propext (by omega)
    rw [dirs]
    exact both

end Operations

/-! ## Whole runs -/

/-- What every step keeps: the pages of each process are allocated, and the links
keep the processes apart. -/
structure Separate (s : MemorySystem) : Prop where
  allSound : s.toPagingSystem.AllSound
  isolated : (translation s.spaces s.tables s.contents).Isolated

/-- The links of the system, with the directory of a live process loaded. -/
theorem view_load {s : MemorySystem} {pid : Nat} {dir : Nat → Word} (live : s.spaces pid = some dir) :
    view s.spaces pid (s.load dir).toPaging (s.load dir).contents = translation s.spaces s.tables s.contents := by
  show translation (Function.update s.spaces pid (some dir)) s.tables s.contents = _
  rw [← live, Function.update_eq_self]

theorem Separate.allocated {s : MemorySystem} (separate : s.Separate) {pid : Nat} {dir : Nat → Word}
    (live : s.spaces pid = some dir) : AllAllocated s.spaces pid (s.load dir).toPaging := by
  intro q other liveOther
  change Function.update s.spaces pid (some dir) q = some other at liveOther
  rw [← live, Function.update_eq_self] at liveOther
  exact separate.allSound q other liveOther

private theorem forkedDir_of {addr : Word} (inside : PagingSystem.InUserspace addr)
    (below : addrToPageDirIndex addr < 1022) : ForkedDir (addrToPageDirIndex addr) := by
  have low : (0x08000000#32).toNat ≤ addr.toNat := BitVec.le_def.mp inside.1
  refine ⟨?_, below⟩
  simp only [BitVec.toNat_ofNat] at low
  simp only [addrToPageDirIndex]
  omega

/-- A process that ran, with what was shown of its links. -/
theorem Separate.stored {s : MemorySystem} {pid : Nat} {m : PagedMemory} {seen : Memories Nat Nat Nat PageContents}
    (sound : (s.store pid m).toPagingSystem.AllSound) (isolated : (view s.spaces pid m.toPaging m.contents).Isolated)
    (memory : (view s.spaces pid m.toPaging m.contents).memory = seen) :
    (s.store pid m).Separate ∧ (s.store pid m).memory = seen := ⟨⟨sound, isolated⟩, memory⟩

/-- A page in a table that no one else has is seen by its process only. -/
theorem touch_private {s : MemorySystem} (separate : s.Separate) {pid : Nat} {addr : Word} {writeable : Bool}
    (enabled : s.Enabled (.touch pid addr writeable)) (room : s.Room (.touch pid addr writeable))
    (own : ¬ s.MapsIntoSharedTable (.touch pid addr writeable)) :
    (s.step (.touch pid addr writeable)).Separate ∧
      (s.step (.touch pid addr writeable)).memory = privateStep s.memory (.touch pid addr writeable) := by
  obtain ⟨dir, live, inside, missing⟩ := enabled
  obtain ⟨below, pages⟩ := room dir live
  have forked := forkedDir_of inside below
  have low : (PagingSystem.npFlags writeable).toNat < 4096 := by cases writeable <;> decide
  have sound := separate.allSound.store live
    (keeps_newPage forked.userIndex (separate.allSound pid dir live) low pages)
  have did : s.step (.touch pid addr writeable) =
      s.store pid ((s.load dir).newPage addr (PagingSystem.npFlags writeable)) := by simp only [step, live]
  have links := view_load live
  have isolated : (view s.spaces pid (s.load dir).toPaging (s.load dir).contents).Isolated := links ▸ separate.isolated
  rw [did]
  obtain ⟨new, unused, ⟨there, changed⟩ | ⟨absent, f, free, other, changed⟩⟩ :=
    view_newPage forked (separate.allocated live) pages writeable
  · have exclusive : (view s.spaces pid (s.load dir).toPaging (s.load dir).contents).Exclusive pid
        (addrToPageDirIndex addr) (page (dir (addrToPageDirIndex addr))) := by
      intro q di l leads same
      by_contra elsewhere
      rw [links] at leads
      simp only [translation] at leads
      split at leads
      · rename_i otherForked
        obtain ⟨otherDir, otherLive, entry⟩ := Option.bind_eq_some_iff.mp leads
        obtain ⟨otherThere, rfl⟩ := link_eq_some.mp entry
        exact own ⟨dir, live, there, q, otherDir, di, otherLive, otherForked, otherThere, same, elsewhere⟩
      · cases leads
    have table := view_directory s.spaces pid (s.load dir).contents forked there
    refine Separate.stored sound (changed ▸ isolated.setPage exclusive unused) ?_
    rw [changed]
    exact (Translation.memory_putPage table exclusive unused).trans (by rw [links]; rfl)
  · -- the new table has no other reference, since its frame was free
    have absentTable : (view s.spaces pid (s.load dir).toPaging (s.load dir).contents).directory pid
        (addrToPageDirIndex addr) = none := by
      simp [view, translation, link_of_missing absent]
    have isolated' := isolated.addTable (s := pid) (d := addrToPageDirIndex addr) free
    have table : ((view s.spaces pid (s.load dir).toPaging (s.load dir).contents).setTable pid
        (addrToPageDirIndex addr) f fun _ => none).directory pid (addrToPageDirIndex addr) = some ⟨f, true⟩ := by
      rw [Translation.directory_setTable, if_pos rfl]
    have exclusive := isolated'.exclusive table rfl
    have unused' : ((view s.spaces pid (s.load dir).toPaging (s.load dir).contents).setTable pid
        (addrToPageDirIndex addr) f fun _ => none).Unused new.frame := unused.setTable free other nofun
    refine Separate.stored sound (changed ▸ isolated'.setPage exclusive unused') ?_
    rw [changed]
    refine (Translation.memory_putPage table exclusive unused').trans ?_
    rw [Translation.memory_setTable free fun ti => by rw [absentTable]; rfl, links]
    rfl

/-- A store is seen by its process only. -/
theorem write_private {s : MemorySystem} (separate : s.Separate) {pid : Nat} {addr : Word} {byte : BitVec 8}
    (enabled : s.Enabled (.write pid addr byte)) (room : s.Room (.write pid addr byte)) :
    (s.step (.write pid addr byte)).Separate ∧
      (s.step (.write pid addr byte)).memory = privateStep s.memory (.write pid addr byte) := by
  obtain ⟨dir, live, inside, mapped⟩ := enabled
  obtain ⟨below, pages⟩ := room dir live
  have forked := forkedDir_of inside below
  have keeps : Keeps (s.load dir).toPaging ((s.load dir).storeByte addr byte).toPaging := by
    unfold PagedMemory.storeByte
    split
    · exact Keeps.refl _
    · exact keeps_makeWriteablePageCopy forked.userIndex (separate.allSound pid dir live) mapped.1 mapped.2 pages
  have sound := separate.allSound.store live keeps
  have did : s.step (.write pid addr byte) = s.store pid ((s.load dir).storeByte addr byte) := by
    simp only [step, live]
  have links := view_load live
  have isolated : (view s.spaces pid (s.load dir).toPaging (s.load dir).contents).Isolated := links ▸ separate.isolated
  obtain ⟨isolated', content, seen, changed⟩ := storeByte_view forked (separate.allocated live) isolated mapped pages byte
  rw [did]
  refine Separate.stored sound isolated' ?_
  rw [changed, links]
  rw [links] at seen
  have before : s.memory pid (addrToPageDirIndex addr) (addrToPageTableIndex addr) = some content := seen
  simp only [privateStep, before]
  rfl

/-- A fork copies what the parent sees, to a process that was not there. -/
theorem fork_private {s : MemorySystem} (separate : s.Separate) {parent child : Nat} {newPD : Word}
    (enabled : s.Enabled (.fork parent child newPD)) :
    (s.step (.fork parent child newPD)).Separate ∧
      (s.step (.fork parent child newPD)).memory = privateStep s.memory (.fork parent child newPD) := by
  obtain ⟨⟨dir, live⟩, absent⟩ := enabled
  obtain ⟨p, pEq⟩ : ∃ p, p = changeRegionFlags (s.load dir).toPaging userspaceLowAddr userspaceLen 0#32 write present
    true := ⟨_, rfl⟩
  have did : s.step (.fork parent child newPD) = { s.store parent { s.load dir with toPaging := p } with
      spaces := Function.update (Function.update s.spaces parent (some p.pageDir)) child
        (some (clonePageDir p newPD)) } := by
    rw [pEq]
    simp only [step, live]
    rfl
  have links : view s.spaces parent (s.load dir).toPaging s.contents = translation s.spaces s.tables s.contents :=
    view_load live
  have isolated : (view s.spaces parent (s.load dir).toPaging s.contents).Isolated := links ▸ separate.isolated
  have protects := protects_fork s.spaces parent (s.load dir).toPaging s.contents
  rw [← pEq] at protects
  have keeps : Keeps (s.load dir).toPaging p := pEq ▸ keeps_writeProtect (separate.allSound parent dir live)
  have shared : translation (Function.update (Function.update s.spaces parent (some p.pageDir)) child
      (some (clonePageDir p newPD))) p.tables s.contents = (view s.spaces parent p s.contents).share parent child := by
    refine Translation.ext ?_ rfl rfl
    funext q di
    rw [Translation.directory_share]
    by_cases copy : q = child
    · subst copy
      by_cases forked : ForkedDir di
      · have same : clonePageDir p newPD di = p.pageDir di :=
          Function.update_of_ne (Nat.ne_of_lt forked.userIndex.2) _ _
        simp [translation, view, forked, same]
      · simp [translation, view, forked]
    · simp [translation, view, copy]
  have readOnly := protects.readOnly fun d l leads => by
    by_contra outside
    simp [view, translation, outside] at leads
  rw [did]
  refine ⟨⟨separate.allSound.share live keeps child newPD, ?_⟩, ?_⟩
  · exact shared ▸ (isolated.protect protects).share readOnly
  · show (translation _ p.tables s.contents).memory = _
    rw [shared, Translation.memory_share, Translation.memory_protect protects, links]
    rfl

/-- One step that maps no page into a shared table does to what the processes see
what it would do to memories of their own. -/
theorem step_private {s : MemorySystem} (separate : s.Separate) {a : Action} (enabled : s.Enabled a) (room : s.Room a)
    (own : ¬ s.MapsIntoSharedTable a) : (s.step a).Separate ∧ (s.step a).memory = privateStep s.memory a := by
  cases a with
  | touch => exact touch_private separate enabled room own
  | write => exact write_private separate enabled room
  | fork => exact fork_private separate enabled

/-- A page in a shared table is seen by another process as well, or at another place. -/
theorem shared_touch_leaks {s : MemorySystem} (separate : s.Separate) {a : Action} (enabled : s.Enabled a)
    (room : s.Room a) (shared : s.MapsIntoSharedTable a) : (s.step a).memory ≠ privateStep s.memory a := by
  cases a with
  | write => exact shared.elim
  | fork => exact shared.elim
  | touch pid addr writeable =>
    obtain ⟨dir, live, inside, missing⟩ := enabled
    obtain ⟨below, pages⟩ := room dir live
    have forked := forkedDir_of inside below
    obtain ⟨dir', live', there, q, other, di, otherLive, otherForked, otherThere, same, elsewhere⟩ := shared
    cases live.symm.trans live'
    have did : s.step (.touch pid addr writeable) =
        s.store pid ((s.load dir).newPage addr (PagingSystem.npFlags writeable)) := by simp only [step, live]
    have links := view_load live
    have leads : (view s.spaces pid (s.load dir).toPaging (s.load dir).contents).directory q di =
        some ⟨page (other di), has (other di) write⟩ := by
      rw [links]
      simp [translation, otherForked, otherLive, link_of_present otherThere]
    -- the entry was missing at the other place as well
    have before : s.memory q di (addrToPageTableIndex addr) = none := by
      have empty : ¬ has (s.tables (page (dir (addrToPageDirIndex addr))) (addrToPageTableIndex addr)) present := by
        intro entry
        refine missing ⟨there, ?_⟩
        rw [pageTable_user _ forked.userIndex]
        exact entry
      rw [links] at leads
      rw [memory, Translation.memory, leads, Option.bind_some]
      simp [translation, linkTable, same, link_of_missing empty]
    intro equal
    have place := congrFun (congrFun (congrFun equal q) di) (addrToPageTableIndex addr)
    have notHere : ¬ (q = pid ∧ di = addrToPageDirIndex addr ∧ addrToPageTableIndex addr = addrToPageTableIndex addr) := by
      rintro ⟨rfl, rfl, -⟩
      exact elsewhere rfl
    rw [privateStep, Memories.set_apply, if_neg notHere, before, did] at place
    obtain ⟨new, unused, ⟨-, changed⟩ | ⟨absent, -⟩⟩ := view_newPage forked (separate.allocated live) pages writeable
    · have seen : (view s.spaces pid ((s.load dir).newPage addr (PagingSystem.npFlags writeable)).toPaging
          ((s.load dir).newPage addr (PagingSystem.npFlags writeable)).contents).memory q di
            (addrToPageTableIndex addr) = none := place
      rw [changed, Translation.memory_setPage unused, leads, Option.bind_some, if_pos (by rw [same]; rfl)] at seen
      cases seen
    · exact absent there

theorem Separate.first {s : MemorySystem} (empty : s.toPagingSystem.NoUserPages) : s.Separate := by
  have nothing : ∀ pid di, (translation s.spaces s.tables s.contents).directory pid di = none := by
    intro pid di
    simp only [translation]
    split
    · rename_i forked
      cases live : s.spaces pid with
      | none => rfl
      | some dir => exact link_of_missing (empty pid dir live di forked.userIndex)
    · rfl
  refine ⟨empty.allSound, fun here => ?_, fun here => ?_, fun here => ?_⟩ <;>
  · rw [nothing] at here
    cases here

theorem memory_first {s : MemorySystem} (empty : s.toPagingSystem.NoUserPages) : s.memory = fun _ _ _ => none := by
  funext pid di ti
  simp only [memory, Translation.memory, translation]
  split
  · rename_i forked
    cases live : s.spaces pid with
    | none => rfl
    | some dir => rw [Option.bind_some, link_of_missing (empty pid dir live di forked.userIndex), Option.bind_none]
  · rfl

theorem run_append (s : MemorySystem) (before : List Action) (a : Action) :
    s.run (before ++ [a]) = (s.run before).step a := List.foldl_concat _ _ _ _

/-- **Memories of their own**: in a run of page faults, stores and forks each process
sees just what it would see with a memory of its own, up to the first page that is
mapped into a shared table. -/
theorem run_private_iff {first : MemorySystem} (empty : first.toPagingSystem.NoUserPages) {actions : List Action}
    (possible : ∀ before a after, actions = before ++ a :: after →
      (first.run before).Enabled a ∧ (first.run before).Room a) :
    (∀ before, before <+: actions →
        (first.run before).memory = before.foldl privateStep fun _ _ _ => none) ↔
      ∀ before a after, actions = before ++ a :: after → ¬ (first.run before).MapsIntoSharedTable a := by
  constructor
  · intro seen
    have separate : ∀ before, before <+: actions → (first.run before).Separate := by
      intro before
      induction before using List.reverseRecOn with
      | nil => exact fun _ => Separate.first empty
      | append_singleton before a ih =>
        rintro ⟨after, rfl⟩
        have split : before ++ [a] ++ after = before ++ a :: after := by simp
        obtain ⟨enabled, room⟩ := possible before a after split
        have kept := ih ⟨a :: after, split.symm⟩
        rw [run_append]
        refine (step_private kept enabled room fun shared => ?_).1
        refine shared_touch_leaks kept enabled room shared ?_
        rw [← run_append, seen _ ⟨after, rfl⟩, seen before ⟨a :: after, split.symm⟩, List.foldl_concat]
    intro before a after split shared
    obtain ⟨enabled, room⟩ := possible before a after split
    refine shared_touch_leaks (separate before ⟨a :: after, split.symm⟩) enabled room shared ?_
    rw [← run_append, seen _ ⟨after, by rw [split]; simp⟩, seen before ⟨a :: after, split.symm⟩, List.foldl_concat]
  · intro own before
    suffices both : before <+: actions → (first.run before).Separate ∧
        (first.run before).memory = before.foldl privateStep fun _ _ _ => none from fun pre => (both pre).2
    induction before using List.reverseRecOn with
    | nil => exact fun _ => ⟨Separate.first empty, memory_first empty⟩
    | append_singleton before a ih =>
      rintro ⟨after, rfl⟩
      have split : before ++ [a] ++ after = before ++ a :: after := by simp
      obtain ⟨enabled, room⟩ := possible before a after split
      obtain ⟨kept, same⟩ := ih ⟨a :: after, split.symm⟩
      rw [run_append, List.foldl_concat, ← same]
      exact step_private kept enabled room (own before a after split)

/-- One process without pages, and all of the physical memory free. -/
def oneProcess : MemorySystem where
  physicalMM := ⟨fun _ => 0#32⟩
  tables _ _ := 0#32
  spaces pid := if pid = 0 then some fun _ => 0#32 else none
  contents _ := MemoryContext.zeroPage

/-- A page, and then a fork. -/
def touchAndFork : List Action := [.touch 0 0x08000000#32 true, .fork 0 1 0x1000#32]

theorem touchAndFork_private : (∀ before, before <+: touchAndFork →
      (oneProcess.run before).memory = before.foldl privateStep fun _ _ _ => none) ↔
    ∀ before a after, touchAndFork = before ++ a :: after → ¬ (oneProcess.run before).MapsIntoSharedTable a := by
  refine run_private_iff (fun pid dir live di _ => ?_) fun before a after split => ?_
  · simp only [oneProcess] at live
    split at live
    · cases live
      simp
    · cases live
  · have two : FreePages (oneProcess.load fun _ => 0#32).toPaging 2 :=
      ⟨[0, 1], by decide, rfl, by simp [oneProcess, load, PagingSystem.load, PhysicalMM.allocated]⟩
    rcases before with _ | ⟨b, _ | ⟨c, more⟩⟩
    · obtain ⟨rfl, -⟩ := List.cons.inj split
      refine ⟨⟨fun _ => 0#32, rfl, by decide, fun mapped => absurd mapped.1 (by decide)⟩, fun dir live => ?_⟩
      cases (show some (fun _ => 0#32) = some dir from live)
      exact ⟨by decide, by rw [if_neg (by decide)]; exact two⟩
    · obtain ⟨rfl, rest⟩ := List.cons.inj split
      obtain ⟨rfl, -⟩ := List.cons.inj rest
      exact ⟨⟨⟨_, rfl⟩, rfl⟩, trivial⟩
    · simp [touchAndFork] at split

end MemorySystem

end FluxOS
