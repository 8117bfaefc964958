import FluxOS.PagingManager

/-! Every user entry of a page table is either empty or names an allocated page.
The operations that map pages keep this for every directory at once, since a
table they write holds only such entries. Removing pages keeps it for a directory
that refers to none of the freed pages elsewhere. -/
namespace FluxOS.PagingManager
open Words PhysicalMM

/-- Directory entries below 32 map the kernel, entry 1023 the tables. -/
def UserIndex (di : Nat) : Prop := 32 ≤ di ∧ di < 1023

/-- The entry is empty, or present with an allocated page. -/
def Kept (p : Paging) (entry : Word) : Prop :=
  entry = 0#32 ∨ (has entry present ∧ p.physicalMM.allocated (page entry))

/-- Every user table of the directory is allocated and holds only kept entries. -/
def Sound (p : Paging) (dir : Nat → Word) : Prop :=
  ∀ di, UserIndex di → has (dir di) present →
    p.physicalMM.allocated (page (dir di)) ∧ ∀ ti < 1024, Kept p (p.tables (page (dir di)) ti)

/-- The operation keeps the soundness of the loaded directory and of all others. -/
structure Keeps (p p' : Paging) : Prop where
  others : ∀ dir, Sound p dir → Sound p' dir
  own : Sound p p.pageDir → Sound p' p'.pageDir
  allocated : ∀ n, p.physicalMM.allocated n → p'.physicalMM.allocated n

theorem Keeps.refl (p : Paging) : Keeps p p := ⟨fun _ => id, id, fun _ => id⟩

theorem Keeps.trans {p q r : Paging} (first : Keeps p q) (second : Keeps q r) : Keeps p r :=
  ⟨fun dir sound => second.others dir (first.others dir sound), fun sound => second.own (first.own sound),
    fun n set => second.allocated n (first.allocated n set)⟩

theorem addrToPageTableIndex_lt (addr : Word) : addrToPageTableIndex addr < 1024 := Nat.mod_lt _ (by decide)

theorem kept_zero (p : Paging) : Kept p 0#32 := Or.inl rfl

theorem Kept.mono {p p' : Paging} (more : ∀ n, p.physicalMM.allocated n → p'.physicalMM.allocated n)
    {entry : Word} (kept : Kept p entry) : Kept p' entry :=
  kept.imp id fun ⟨live, set⟩ => ⟨live, more _ set⟩

theorem Kept.present_of_page {p : Paging} {entry : Word} (kept : Kept p entry) (mapped : page entry ≠ 0) :
    has entry present ∧ p.physicalMM.allocated (page entry) := by
  rcases kept with empty | live
  · rw [empty] at mapped
    exact absurd rfl mapped
  · exact live

/-- The table behind a user entry of the loaded directory. -/
theorem pageTable_user (p : Paging) {di : Nat} (isUser : UserIndex di) :
    pageTable p di = p.tables (page (p.pageDir di)) := if_neg (Nat.ne_of_lt isUser.2)

theorem setPageTable_user (p : Paging) {di : Nat} (isUser : UserIndex di) (table : Nat → Word) :
    setPageTable p di table =
      { p with tables := Function.update p.tables (page (p.pageDir di)) table } := if_neg (Nat.ne_of_lt isUser.2)

/-! ## Writing tables and directory entries -/

theorem keeps_setPageTable {p : Paging} {di : Nat} (isUser : UserIndex di) {table : Nat → Word}
    (kept : ∀ ti < 1024, Kept p (table ti)) : Keeps p (setPageTable p di table) := by
  have others : ∀ dir, Sound p dir → Sound (setPageTable p di table) dir := by
    intro dir sound dj inUser live
    obtain ⟨allocated, entries⟩ := sound dj inUser live
    rw [setPageTable_user p isUser]
    refine ⟨allocated, fun ti bound => ?_⟩
    by_cases same : page (dir dj) = page (p.pageDir di)
    · simp only [same, Function.update_self]
      exact kept ti bound
    · simp only [Function.update_of_ne same]
      exact entries ti bound
  refine ⟨others, fun sound => ?_, fun n set => ?_⟩
  · have after := others p.pageDir sound
    rwa [setPageTable_user p isUser] at after ⊢
  · rwa [setPageTable_user p isUser]

theorem keeps_setEntry {p : Paging} {di ti : Nat} (isUser : UserIndex di) (live : has (p.pageDir di) present)
    (own : Sound p p.pageDir) {entry : Word} (kept : Kept p entry) : Keeps p (setEntry p di ti entry) := by
  refine keeps_setPageTable isUser fun tj bound => ?_
  by_cases same : tj = ti
  · rw [same, Function.update_self]
    exact kept
  · rw [Function.update_of_ne same, pageTable_user p isUser]
    exact (own di isUser live).2 tj bound

theorem keeps_setDirEntry {p : Paging} {di : Nat} {entry : Word}
    (kept : p.physicalMM.allocated (page entry) ∧ ∀ ti < 1024, Kept p (p.tables (page entry) ti)) :
    Keeps p (setDirEntry p di entry) := by
  refine ⟨fun dir sound => sound, fun sound dj inUser live => ?_, fun n set => set⟩
  by_cases same : dj = di
  · simp only [setDirEntry, same, Function.update_self]
    exact kept
  · simp only [setDirEntry, Function.update_of_ne same] at live ⊢
    exact sound dj inUser live

/-! ## Taking pages -/

/-- At least `k` pages are free. -/
def FreePages (p : Paging) (k : Nat) : Prop :=
  ∃ pages : List Nat, pages.Nodup ∧ pages.length = k ∧ ∀ n ∈ pages, n < 2 ^ 20 ∧ p.physicalMM.allocated n = false

/-- An allocation with a free page at hand: the page was free, and is the only
one whose bit changes. -/
structure Taken (p p' : Paging) (address : Word) : Prop where
  keeps : Keeps p p'
  tables : p'.tables = p.tables
  pageDir : p'.pageDir = p.pageDir
  aligned : pageTableEntryPhysicalAddress address = address
  allocated : p'.physicalMM.allocated (page address)
  remaining : ∀ k, FreePages p (k + 1) → FreePages p' k

theorem keeps_of_more {p p' : Paging} (tables : p'.tables = p.tables) (pageDir : p'.pageDir = p.pageDir)
    (more : ∀ n, p.physicalMM.allocated n → p'.physicalMM.allocated n) : Keeps p p' := by
  have others : ∀ dir, Sound p dir → Sound p' dir := by
    intro dir sound di inUser live
    obtain ⟨allocated, entries⟩ := sound di inUser live
    rw [tables]
    exact ⟨more _ allocated, fun ti bound => (entries ti bound).mono more⟩
  exact ⟨others, fun sound => pageDir ▸ others p.pageDir sound, more⟩

private theorem pageAddress_aligned {n : Nat} (bound : n < 2 ^ 20) :
    pageTableEntryPhysicalAddress (pageAddress n) = pageAddress n := by
  apply BitVec.eq_of_toNat_eq
  rw [pageTableEntryPhysicalAddress, toNat_and_page, toNat_pageAddress bound]
  omega

theorem allocPage_taken {p : Paging} (free : FreePages p 1) : Taken p (allocPage p).1 (allocPage p).2 := by
  have allocation := allocPage_allocation p.physicalMM
  simp only [allocPage]
  revert allocation
  generalize p.physicalMM.allocPage = result
  intro allocation
  cases allocation with
  | exhausted full =>
    obtain ⟨pages, -, single, unused⟩ := free
    obtain ⟨n, rfl⟩ := List.length_eq_one_iff.mp single
    have clear := unused n (List.mem_singleton_self n)
    rw [full n clear.1] at clear
    exact absurd clear.2 (by decide)
  | taken n bound clear =>
    have bits := allocated_setBit p.physicalMM n
    refine ⟨keeps_of_more rfl rfl fun k set => ?_, rfl, rfl, pageAddress_aligned bound, ?_, fun k more => ?_⟩
    · rw [bits, set, Bool.or_true]
    · rw [page_pageAddress bound, bits]
      simp
    · -- whichever page was taken, the others of the list stay free
      obtain ⟨pages, distinct, length, unused⟩ := more
      refine ⟨(pages.erase n).take k, (distinct.erase n).sublist (List.take_sublist _ _), ?_, fun j member => ?_⟩
      · have shorter : pages.length - 1 ≤ (pages.erase n).length := by
          rw [List.length_erase]
          split <;> omega
        rw [List.length_take]
        omega
      · have inErased := List.mem_of_mem_take member
        have different : j ≠ n := fun same => (distinct.not_mem_erase) (same ▸ inErased)
        obtain ⟨small, unset⟩ := unused j (List.mem_of_mem_erase inErased)
        exact ⟨small, by simp [bits, different, unset]⟩

theorem FreePages.weaken {p : Paging} {k l : Nat} (free : FreePages p l) (fewer : k ≤ l) : FreePages p k := by
  obtain ⟨pages, distinct, length, unused⟩ := free
  refine ⟨pages.take k, distinct.sublist (List.take_sublist _ _), ?_, fun n member =>
    unused n (List.mem_of_mem_take member)⟩
  rw [List.length_take]
  omega

/-! ## The operations that map -/

private theorem low_or {v w : Word} (left : v.toNat < 4096) (right : w.toNat < 4096) :
    (v ||| w).toNat < 4096 := by
  rw [BitVec.toNat_or]
  exact Nat.or_lt_two_pow (n := 12) left right

/-- A table of kept entries behind a new directory entry. -/
theorem keeps_newTable {p : Paging} {di : Nat} (isUser : UserIndex di) {entry : Word} {table : Nat → Word}
    (allocated : p.physicalMM.allocated (page entry)) (kept : ∀ ti < 1024, Kept p (table ti)) :
    Keeps p (setPageTable (setDirEntry p di entry) di table) := by
  have others : ∀ dir, Sound p dir → Sound (setPageTable (setDirEntry p di entry) di table) dir :=
    (keeps_setPageTable (p := setDirEntry p di entry) isUser kept).others
  refine ⟨others, fun sound dj inUser live => ?_, fun n set => ?_⟩
  · rw [setPageTable_user _ isUser] at live ⊢
    simp only [setDirEntry, Function.update_self] at live ⊢
    by_cases same : dj = di
    · subst same
      simp only [Function.update_self]
      exact ⟨allocated, kept⟩
    · simp only [Function.update_of_ne same] at live ⊢
      obtain ⟨set, entries⟩ := sound dj inUser live
      refine ⟨set, fun ti bound => ?_⟩
      by_cases shared : page (p.pageDir dj) = page entry
      · rw [shared, Function.update_self]
        exact kept ti bound
      · rw [Function.update_of_ne shared]
        exact entries ti bound
  · rwa [setPageTable_user _ isUser]

theorem keeps_ensureTable {p : Paging} {di : Nat} (isUser : UserIndex di)
    (room : has (p.pageDir di) present ∨ FreePages p 1) :
    Keeps p (ensureTable p di) ∧ has ((ensureTable p di).pageDir di) present := by
  unfold ensureTable
  split
  · rename_i live
    exact ⟨Keeps.refl p, live⟩
  · rename_i missing
    have taken := allocPage_taken (room.resolve_left missing)
    have low : (kernelStdPage ||| user).toNat < 4096 := by decide
    dsimp only
    refine ⟨taken.keeps.trans (keeps_newTable isUser ?_ fun ti _ => kept_zero _), ?_⟩
    · rw [pageDirectoryEntry, page_or low]
      exact taken.allocated
    · rw [setPageTable_user _ isUser]
      simp only [setDirEntry, Function.update_self, pageDirectoryEntry, has_or]
      rw [show has kernelStdPage present = true by decide, Bool.true_or, Bool.or_true]

theorem keeps_mapPage {p : Paging} {physicalAddress addr flags : Word}
    (isUser : UserIndex (addrToPageDirIndex addr)) (sound : Sound p p.pageDir)
    (room : has (p.pageDir (addrToPageDirIndex addr)) present ∨ FreePages p 1) (low : flags.toNat < 4096)
    (allocated : p.physicalMM.allocated (page physicalAddress)) :
    Keeps p (mapPage p physicalAddress addr flags) := by
  obtain ⟨keeps, live⟩ := keeps_ensureTable isUser room
  refine keeps.trans (keeps_setEntry isUser live (keeps.own sound) (Or.inr ⟨?_, ?_⟩))
  · simp only [pageTableEntry, has_or]
    rw [show has present present = true by decide, Bool.true_or, Bool.true_or, Bool.or_true]
  · rw [pageTableEntry, page_or (low_or (by decide) low)]
    exact keeps.allocated _ allocated

theorem keeps_newPage {p : Paging} {addr flags : Word} (isUser : UserIndex (addrToPageDirIndex addr))
    (sound : Sound p p.pageDir) (low : flags.toNat < 4096)
    (room : FreePages p (if has (p.pageDir (addrToPageDirIndex addr)) present then 1 else 2)) :
    Keeps p (newPage p addr flags) := by
  have taken := allocPage_taken (room.weaken (by split <;> omega))
  refine taken.keeps.trans (keeps_mapPage isUser (taken.keeps.own sound) ?_ (low_or (by decide) low) taken.allocated)
  rw [taken.pageDir]
  by_cases live : has (p.pageDir (addrToPageDirIndex addr)) present
  · exact Or.inl live
  · rw [if_neg live] at room
    exact Or.inr (taken.remaining 1 room)

/-! ## Copy on write -/

/-- What copying a read-only table has done: the entry leads to an equal table. -/
structure TableCopied (p : Paging) (di : Nat) (p' : Paging) : Prop where
  keeps : Keeps p p'
  live : has (p'.pageDir di) present
  table : pageTable p' di = pageTable p di
  remaining : ∀ k, FreePages p (k + if has (p.pageDir di) write then 0 else 1) → FreePages p' k

/-- The flags of a copy's entry lie below its address, and `present` is one of them. -/
theorem low_copyFlags : (kernelStdPage ||| user ||| write).toNat < 4096 := by decide

theorem present_copyEntry (page : Word) : has (page ||| (kernelStdPage ||| user ||| write)) present := by
  simp only [has_or]
  rw [show has kernelStdPage present = true by decide, Bool.true_or, Bool.true_or, Bool.or_true]

theorem copyTable_copied {p : Paging} {di : Nat} (isUser : UserIndex di) (sound : Sound p p.pageDir)
    (live : has (p.pageDir di) present) (room : FreePages p (if has (p.pageDir di) write then 0 else 1)) :
    TableCopied p di (copyTable p di) := by
  unfold copyTable
  split
  · rename_i writeable
    exact ⟨Keeps.refl p, live, rfl, fun k free => by rwa [if_pos writeable, Nat.add_zero] at free⟩
  · rename_i readOnly
    rw [if_neg readOnly] at room
    have taken := allocPage_taken room
    simp only [allocTemporaryWriteablePage, taken.aligned]
    refine ⟨taken.keeps.trans (keeps_newTable isUser ?_ fun ti bound => ?_), ?_, ?_, fun k free => ?_⟩
    · rw [pageDirectoryEntry, page_or low_copyFlags]
      exact taken.allocated
    · rw [pageTable_user p isUser]
      exact ((sound di isUser live).2 ti bound).mono taken.keeps.allocated
    · rw [setPageTable_user _ isUser]
      simp only [setDirEntry, Function.update_self]
      exact present_copyEntry _
    · rw [setPageTable_user _ isUser, pageTable_user _ isUser]
      simp only [setDirEntry, Function.update_self]
    · rw [if_neg readOnly] at free
      rw [setPageTable_user _ isUser]
      exact taken.remaining k free

theorem keeps_copyPage {p : Paging} {di ti : Nat} (isUser : UserIndex di) (sound : Sound p p.pageDir)
    (live : has (p.pageDir di) present) (entryLive : has (pageTable p di ti) present)
    (room : FreePages p (if has (pageTable p di ti) write then 0 else 1)) :
    Keeps p (copyPage p di ti) ∧ has ((copyPage p di ti).pageDir di) present ∧
      has (pageTable (copyPage p di ti) di ti) present := by
  unfold copyPage
  split
  · exact ⟨Keeps.refl p, live, entryLive⟩
  · rename_i readOnly
    rw [if_neg readOnly] at room
    have taken := allocPage_taken room
    simp only [allocTemporaryWriteablePage, taken.aligned]
    have there : has ((allocPage p).1.pageDir di) present := by rwa [taken.pageDir]
    have entry : has (pageTableEntry (allocPage p).2 (kernelStdPage ||| user ||| write)) present := present_copyEntry _
    refine ⟨taken.keeps.trans (keeps_setEntry isUser there (taken.keeps.own sound) (Or.inr ⟨entry, ?_⟩)), ?_, ?_⟩
    · rw [pageTableEntry, page_or low_copyFlags]
      exact taken.allocated
    · rw [setEntry, setPageTable_user _ isUser]
      exact there
    · rw [setEntry, setPageTable_user _ isUser, pageTable_user _ isUser]
      simp only [Function.update_self]
      exact entry

private theorem keeps_userFlag {p : Paging} {di ti : Nat} (isUser : UserIndex di) (sound : Sound p p.pageDir)
    (live : has (p.pageDir di) present) (bound : ti < 1024) (entryLive : has (pageTable p di ti) present) :
    Keeps p (setEntry (setDirEntry p di (p.pageDir di ||| user)) di ti
      (pageTable (setDirEntry p di (p.pageDir di ||| user)) di ti ||| user)) := by
  have low : user.toNat < 4096 := by decide
  obtain ⟨allocated, entries⟩ := sound di isUser live
  have dirKept : Keeps p (setDirEntry p di (p.pageDir di ||| user)) :=
    keeps_setDirEntry (by rw [page_or low]; exact ⟨allocated, entries⟩)
  refine dirKept.trans (keeps_setEntry isUser ?_ (dirKept.own sound) ?_)
  · simp only [setDirEntry, Function.update_self, has_or, live, Bool.true_or]
  · have same : pageTable (setDirEntry p di (p.pageDir di ||| user)) di = pageTable p di := by
      rw [pageTable_user _ isUser, pageTable_user _ isUser]
      simp only [setDirEntry, Function.update_self, page_or low]
    rw [same]
    rw [pageTable_user p isUser] at entryLive ⊢
    rcases entries ti bound with empty | ⟨there, set⟩
    · rw [empty, has_zero] at entryLive
      cases entryLive
    · exact Or.inr ⟨by rw [has_or, there, Bool.true_or], by rwa [page_or low]⟩

theorem keeps_makeWriteablePageCopy {p : Paging} {addr : Word} (isUser : UserIndex (addrToPageDirIndex addr))
    (sound : Sound p p.pageDir) (live : has (p.pageDir (addrToPageDirIndex addr)) present)
    (entryLive : has (pageTable p (addrToPageDirIndex addr) (addrToPageTableIndex addr)) present)
    (room : FreePages p
      ((if has (pageTable p (addrToPageDirIndex addr) (addrToPageTableIndex addr)) write then 0 else 1) +
        if has (p.pageDir (addrToPageDirIndex addr)) write then 0 else 1)) :
    Keeps p (makeWriteablePageCopy p addr) := by
  have copied := copyTable_copied isUser sound live (room.weaken (Nat.le_add_left _ _))
  have ownAfter := copied.keeps.own sound
  have entryAfter : has (pageTable (copyTable p (addrToPageDirIndex addr)) (addrToPageDirIndex addr)
      (addrToPageTableIndex addr)) present := by rwa [copied.table]
  obtain ⟨pageKeeps, pageLive, pageEntry⟩ := keeps_copyPage isUser ownAfter copied.live entryAfter
    (by rw [copied.table]; exact copied.remaining _ room)
  exact (copied.keeps.trans pageKeeps).trans
    (keeps_userFlag isUser (pageKeeps.own ownAfter) pageLive (addrToPageTableIndex_lt addr) pageEntry)

/-! ## Sharing a directory -/

private theorem page_clearWrite (entry : Word) : page (entry &&& ~~~write ||| 0#32) = page entry := by
  rw [page_or (by decide), page_and (by decide)]

theorem kept_clearWrite {p : Paging} {entry : Word} (kept : Kept p entry) :
    Kept p (changeFlags 0#32 write present entry) := by
  unfold changeFlags
  split
  · rename_i live
    rcases kept with empty | ⟨-, set⟩
    · rw [empty, has_zero] at live
      cases live
    · refine Or.inr ⟨?_, ?_⟩
      · rw [has_or, has_and_of_sub (by decide), live, Bool.true_or]
      · rwa [page_clearWrite]
  · exact kept

theorem keeps_changeTableFlags {p : Paging} {i : Nat} (isUser : UserIndex i) (sound : Sound p p.pageDir)
    (virtAddr len : Word) : Keeps p (changeTableFlags virtAddr len 0#32 write present true p i) := by
  simp only [changeTableFlags, ↓reduceIte]
  have samePage : page (changeFlags 0#32 write present (p.pageDir i)) = page (p.pageDir i) := by
    unfold changeFlags
    split
    · exact page_clearWrite _
    · rfl
  split
  · rename_i live
    obtain ⟨allocated, entries⟩ := sound i isUser live
    have dirKept : Keeps p (setDirEntry p i (changeFlags 0#32 write present (p.pageDir i))) :=
      keeps_setDirEntry (by rw [samePage]; exact ⟨allocated, entries⟩)
    refine dirKept.trans (keeps_setPageTable isUser fun ti bound => ?_)
    have table : pageTable (setDirEntry p i (changeFlags 0#32 write present (p.pageDir i))) i =
        p.tables (page (p.pageDir i)) := by
      rw [pageTable_user _ isUser]
      simp only [setDirEntry, Function.update_self, samePage]
    rw [table]
    have either : ∀ (inside : Prop) [Decidable inside], Kept p
        (if inside then changeFlags 0#32 write present (p.tables (page (p.pageDir i)) ti)
          else p.tables (page (p.pageDir i)) ti) := by
      intro inside _
      by_cases within : inside
      · rw [if_pos within]
        exact kept_clearWrite (entries ti bound)
      · rw [if_neg within]
        exact entries ti bound
    exact either _
  · rename_i missing
    have unchanged : changeFlags 0#32 write present (p.pageDir i) = p.pageDir i := if_neg missing
    rw [unchanged, setDirEntry, Function.update_eq_self]
    exact Keeps.refl p

/-- The write protection that precedes a fork. -/
theorem keeps_writeProtect {p : Paging} (sound : Sound p p.pageDir) :
    Keeps p (changeRegionFlags p userspaceLowAddr userspaceLen 0#32 write present true) := by
  suffices loop : ∀ count first (q : Paging), 32 ≤ first → first + count ≤ 1023 → Sound q q.pageDir →
      Keeps q ((List.range' first count).foldl
        (changeTableFlags userspaceLowAddr userspaceLen 0#32 write present true) q) from
    loop _ _ p (by decide) (by decide) sound
  intro count
  induction count with
  | zero => exact fun first q _ _ _ => Keeps.refl q
  | succ count ih =>
    intro first q low high own
    have step := keeps_changeTableFlags (p := q) (i := first) ⟨low, by omega⟩ own userspaceLowAddr userspaceLen
    exact step.trans (ih (first + 1) _ (by omega) (by omega) (step.own own))

theorem sound_clonePageDir {p : Paging} (sound : Sound p p.pageDir) (newPD : Word) :
    Sound p (clonePageDir p newPD) := by
  intro di inUser live
  have same : clonePageDir p newPD di = p.pageDir di := Function.update_of_ne (Nat.ne_of_lt inUser.2) _ _
  rw [same] at live ⊢
  exact sound di inUser live

end FluxOS.PagingManager
