import FluxOS.PageRemoval

/-! The physical pages of all processes, over any run of page faults, forks,
unmappings and terminations. After a fork tables and then single pages are shared
between address spaces, and nothing counts the references to a page: a page that
one process unmaps goes back to the free pages even while another process still
maps it. -/
namespace FluxOS
open Words PagingManager

/-- The page bitmap, the page tables, and the directory of every process whose thread can run. -/
structure PagingSystem where
  physicalMM : PhysicalMM
  tables : Nat → Nat → Word
  spaces : Nat → Option (Nat → Word)

namespace PagingSystem

/-- The paging state with the directory loaded. -/
def load (s : PagingSystem) (dir : Nat → Word) : Paging := ⟨s.physicalMM, s.tables, dir⟩

/-- The system after process `pid` ran with its directory loaded. -/
def store (s : PagingSystem) (pid : Nat) (p : Paging) : PagingSystem where
  physicalMM := p.physicalMM
  tables := p.tables
  spaces := Function.update s.spaces pid (some p.pageDir)

@[simp] theorem load_pageDir (s : PagingSystem) (dir : Nat → Word) : (s.load dir).pageDir = dir := rfl

@[simp] theorem spaces_store_self (s : PagingSystem) (pid : Nat) (p : Paging) :
    (s.store pid p).spaces pid = some p.pageDir := Function.update_self _ _ _

theorem spaces_store_of_ne {pid q : Nat} (other : q ≠ pid) (s : PagingSystem) (p : Paging) :
    (s.store pid p).spaces q = s.spaces q := Function.update_of_ne other _ _

/-- Storing a directory that has not changed. -/
theorem spaces_store_own {s : PagingSystem} {pid : Nat} {p : Paging} (live : s.spaces pid = some p.pageDir) :
    (s.store pid p).spaces = s.spaces := by
  rw [store, ← live]
  exact Function.update_eq_self pid s.spaces

/-- What happens to the page tables. A termination carries the ranges of the target's
descriptors. `exit` stops the thread of the process. `kill` removes the ranges from
the caller's directory, and leaves the target's thread running with its own; a
segmentation fault is a `kill` of the process by itself. -/
inductive Action where
  | newPage (pid : Nat) (addr : Word) (writeable : Bool)
  | mapPage (pid : Nat) (physicalAddress addr : Word) (writeable : Bool)
  | makeWriteablePageCopy (pid : Nat) (addr : Word)
  | fork (parent child : Nat) (newPD : Word)
  | removePages (pid : Nat) (addr len : Word)
  | exit (pid : Nat) (ranges : List (Word × Word))
  | kill (caller target : Nat) (ranges : List (Word × Word))

def npFlags (writeable : Bool) : Word := if writeable then write else 0#32

/-- One action, on the directory of the process that runs it. -/
def step (s : PagingSystem) : Action → Except RemovalFailure PagingSystem
  | .newPage pid addr writeable =>
    match s.spaces pid with
    | some dir => .ok (s.store pid (newPage (s.load dir) addr (npFlags writeable)))
    | none => .ok s
  | .mapPage pid physicalAddress addr writeable =>
    match s.spaces pid with
    | some dir => .ok (s.store pid (mapPage (s.load dir) physicalAddress addr (npFlags writeable)))
    | none => .ok s
  | .makeWriteablePageCopy pid addr =>
    match s.spaces pid with
    | some dir => .ok (s.store pid (makeWriteablePageCopy (s.load dir) addr))
    | none => .ok s
  | .fork parent child newPD =>
    match s.spaces parent with
    | some dir =>
      let p := changeRegionFlags (s.load dir) userspaceLowAddr userspaceLen 0#32 write present true
      let s := s.store parent p
      .ok { s with spaces := Function.update s.spaces child (some (clonePageDir p newPD)) }
    | none => .ok s
  | .removePages pid addr len =>
    match s.spaces pid with
    | some dir => (PagingManager.removePages (s.load dir) addr len).map (s.store pid)
    | none => .ok s
  | .exit pid ranges =>
    match s.spaces pid with
    | some dir => (removeRanges (s.load dir) ranges).map fun p =>
        let s := s.store pid p
        { s with spaces := Function.update s.spaces pid none }
    | none => .ok s
  | .kill caller _ ranges =>
    match s.spaces caller with
    | some dir => (removeRanges (s.load dir) ranges).map (s.store caller)
    | none => .ok s

/-- The table entry of the address, and the table itself, are present. -/
def Mapped (p : Paging) (addr : Word) : Prop :=
  has (p.pageDir (addrToPageDirIndex addr)) present ∧
    has (pageTable p (addrToPageDirIndex addr) (addrToPageTableIndex addr)) present

def InUserspace (addr : Word) : Prop := userspaceLowAddr ≤ addr ∧ addr ≤ userspaceHiAddr

instance (p : Paging) (addr : Word) : Decidable (Mapped p addr) := inferInstanceAs (Decidable (_ ∧ _))

instance (addr : Word) : Decidable (InUserspace addr) := inferInstanceAs (Decidable (_ ∧ _))

/-- When the processor and the kernel let the action happen: a missing page
faults in the one way, a page that is there in the other. -/
def Enabled (s : PagingSystem) : Action → Prop
  | .newPage pid addr _ => ∃ dir, s.spaces pid = some dir ∧ InUserspace addr ∧ ¬ Mapped (s.load dir) addr
  | .mapPage pid _ addr _ => ∃ dir, s.spaces pid = some dir ∧ InUserspace addr ∧ ¬ Mapped (s.load dir) addr
  | .makeWriteablePageCopy pid addr => ∃ dir, s.spaces pid = some dir ∧ InUserspace addr ∧ Mapped (s.load dir) addr
  | .fork parent child _ => (∃ dir, s.spaces parent = some dir) ∧ s.spaces child = none
  | .removePages pid _ _ => ∃ dir, s.spaces pid = some dir
  | .exit pid _ => ∃ dir, s.spaces pid = some dir
  | .kill caller target _ => (∃ dir, s.spaces caller = some dir) ∧ ∃ dir, s.spaces target = some dir

/-- No present user entry of a live process names a page that is marked free. -/
def NoDanglingPages (s : PagingSystem) : Prop :=
  ∀ pid dir, s.spaces pid = some dir → ∀ di, UserIndex di → has (dir di) present →
    ∀ ti < 1024, has (s.tables (page (dir di)) ti) present →
      s.physicalMM.allocated (page (s.tables (page (dir di)) ti))

/-- The condition on a step. Faults stay below the window of the page tables and
find enough free pages, a page that a file system hands out is marked allocated,
and removed ranges are user ranges whose mapped pages no other slot names: not one
of the other removed slots, and no table or slot of a process that runs on. -/
def Unshared (s : PagingSystem) : Action → Prop
  | .newPage pid addr _ => ∀ dir, s.spaces pid = some dir → addrToPageDirIndex addr < 1023 ∧
      FreePages (s.load dir) (if has (dir (addrToPageDirIndex addr)) present then 1 else 2)
  | .mapPage pid physicalAddress addr _ => ∀ dir, s.spaces pid = some dir → addrToPageDirIndex addr < 1023 ∧
      s.physicalMM.allocated (page physicalAddress) ∧
        (has (dir (addrToPageDirIndex addr)) present ∨ FreePages (s.load dir) 1)
  | .makeWriteablePageCopy pid addr => ∀ dir, s.spaces pid = some dir → addrToPageDirIndex addr < 1023 ∧
      FreePages (s.load dir)
        ((if has (pageTable (s.load dir) (addrToPageDirIndex addr) (addrToPageTableIndex addr)) write then 0 else 1) +
          if has (dir (addrToPageDirIndex addr)) write then 0 else 1)
  | .fork _ _ _ => True
  | .removePages pid addr len => addr.toNat + len.toNat ≤ 0xFFFFF000 ∧ ∀ dir, s.spaces pid = some dir →
      Removable (s.load dir) (fun other => ∃ q, s.spaces q = some other) (pageAddresses addr len)
  | .exit pid ranges => (∀ range ∈ ranges, range.1.toNat + range.2.toNat ≤ 0xFFFFF000) ∧
      ∀ dir, s.spaces pid = some dir →
        Removable (s.load dir) (fun other => ∃ q, q ≠ pid ∧ s.spaces q = some other)
          (ranges.flatMap fun range => pageAddresses range.1 range.2)
  | .kill caller _ ranges => (∀ range ∈ ranges, range.1.toNat + range.2.toNat ≤ 0xFFFFF000) ∧
      ∀ dir, s.spaces caller = some dir →
        Removable (s.load dir) (fun other => ∃ q, s.spaces q = some other)
          (ranges.flatMap fun range => pageAddresses range.1 range.2)

/-- A run from `first` whose steps all meet the condition. -/
inductive Run (condition : PagingSystem → Action → Prop) (first : PagingSystem) : PagingSystem → Prop where
  | start : Run condition first first
  | next {s s' : PagingSystem} (run : Run condition first s) (a : Action) (enabled : s.Enabled a)
      (meets : condition s a) (did : s.step a = .ok s') : Run condition first s'

/-! ## Soundness of the system -/

/-- The directory of every live process is sound. -/
def AllSound (s : PagingSystem) : Prop := ∀ pid dir, s.spaces pid = some dir → Sound (s.load dir) dir

theorem AllSound.noDangling {s : PagingSystem} (sound : s.AllSound) : s.NoDanglingPages := by
  intro pid dir live di isUser there ti bound entryThere
  rcases (sound pid dir live di isUser there).2 ti bound with empty | ⟨-, set⟩
  · have zero : s.tables (page (dir di)) ti = 0#32 := empty
    rw [zero, has_zero] at entryThere
    cases entryThere
  · exact set

/-- No live process has a user page yet. -/
def NoUserPages (s : PagingSystem) : Prop :=
  ∀ pid dir, s.spaces pid = some dir → ∀ di, UserIndex di → ¬ has (dir di) present

theorem NoUserPages.allSound {s : PagingSystem} (empty : s.NoUserPages) : s.AllSound :=
  fun pid dir live di isUser there => absurd there (empty pid dir live di isUser)

/-- Storing a directory that an operation kept sound. -/
theorem AllSound.store {s : PagingSystem} (sound : s.AllSound) {pid : Nat} {dir : Nat → Word}
    (live : s.spaces pid = some dir) {p : Paging} (keeps : Keeps (s.load dir) p) : (s.store pid p).AllSound := by
  intro q other liveOther
  by_cases same : q = pid
  · subst same
    simp only [spaces_store_self, Option.some.injEq] at liveOther
    subst liveOther
    exact keeps.own (sound q dir live)
  · rw [spaces_store_of_ne same] at liveOther
    exact keeps.others other (sound q other liveOther)

/-- The child of a fork gets a copy of a sound directory. -/
theorem AllSound.share {s : PagingSystem} (sound : s.AllSound) {parent : Nat} {dir : Nat → Word}
    (live : s.spaces parent = some dir) {p : Paging} (keeps : Keeps (s.load dir) p) (child : Nat) (newPD : Word) :
    AllSound { s.store parent p with
      spaces := Function.update (s.store parent p).spaces child (some (clonePageDir p newPD)) } := by
  intro q other liveOther
  by_cases same : q = child
  · simp only [same, Function.update_self, Option.some.injEq] at liveOther
    subst liveOther
    exact sound_clonePageDir (keeps.own (sound parent dir live)) newPD
  · simp only [Function.update_of_ne same] at liveOther
    exact sound.store live keeps q other liveOther

private theorem userIndex_of {addr : Word} (inside : InUserspace addr) (below : addrToPageDirIndex addr < 1023) :
    UserIndex (addrToPageDirIndex addr) := by
  refine ⟨?_, below⟩
  have low : (0x08000000#32).toNat ≤ addr.toNat := BitVec.le_def.mp inside.1
  simp only [BitVec.toNat_ofNat] at low
  simp only [addrToPageDirIndex]
  omega

private theorem npFlags_low (writeable : Bool) : (npFlags writeable).toNat < 4096 := by
  cases writeable <;> decide

/-- Removal on the caller's directory keeps the directories that live on. -/
private theorem removal_sound {s : PagingSystem} (sound : s.AllSound) {pid : Nat} {dir : Nat → Word}
    (live : s.spaces pid = some dir) {survivor : (Nat → Word) → Prop} {addresses : List Word}
    (survives : ∀ other, survivor other → ∃ q, s.spaces q = some other)
    (removable : Removable (s.load dir) survivor addresses) :
    addresses.foldlM removePage (s.load dir) = .error .missingTable ∨
      ∃ p, addresses.foldlM removePage (s.load dir) = .ok p ∧ p.pageDir = dir ∧
        ∀ other, survivor other → Sound p other := by
  refine removal_keeps (fun other kept => ?_) (fun a member there => ?_) removable
  · obtain ⟨q, liveOther⟩ := survives other kept
    exact sound q other liveOther
  · exact (sound pid dir live _ (removable.isUser a member) there).2 _ (addrToPageTableIndex_lt a)

/-- A step that succeeds with a sound system. -/
private theorem AllSound.of_step {s next : PagingSystem} {a : Action} (did : s.step a = .ok next)
    (sound : next.AllSound) : (∀ s', s.step a = .ok s' → s'.AllSound) ∧ s.step a ≠ .error .doubleFree := by
  rw [did]
  refine ⟨fun s' ran => ?_, fun same => ?_⟩
  · rw [← Except.ok.inj ran]
    exact sound
  · cases same

private theorem AllSound.of_missing {s : PagingSystem} {a : Action} (failed : s.step a = .error .missingTable) :
    (∀ s', s.step a = .ok s' → s'.AllSound) ∧ s.step a ≠ .error .doubleFree := by
  rw [failed]
  refine ⟨fun s' ran => ?_, fun same => ?_⟩
  · cases ran
  · cases same

/-- One step under the condition keeps every live directory sound, and frees no
page twice. -/
theorem step_sound {s : PagingSystem} (sound : s.AllSound) {a : Action} (enabled : s.Enabled a)
    (meets : s.Unshared a) :
    (∀ s', s.step a = .ok s' → s'.AllSound) ∧ s.step a ≠ .error .doubleFree := by
  cases a with
  | newPage pid addr writeable =>
    obtain ⟨dir, live, inside, -⟩ := enabled
    obtain ⟨below, room⟩ := meets dir live
    have keeps := keeps_newPage (p := s.load dir) (userIndex_of inside below) (sound pid dir live)
      (npFlags_low writeable) room
    exact AllSound.of_step (by simp only [step, live]) (sound.store live keeps)
  | mapPage pid physicalAddress addr writeable =>
    obtain ⟨dir, live, inside, -⟩ := enabled
    obtain ⟨below, set, room⟩ := meets dir live
    have keeps := keeps_mapPage (p := s.load dir) (userIndex_of inside below) (sound pid dir live) room
      (npFlags_low writeable) set
    exact AllSound.of_step (by simp only [step, live]) (sound.store live keeps)
  | makeWriteablePageCopy pid addr =>
    obtain ⟨dir, live, inside, there, entryThere⟩ := enabled
    obtain ⟨below, room⟩ := meets dir live
    have keeps := keeps_makeWriteablePageCopy (p := s.load dir) (userIndex_of inside below) (sound pid dir live)
      there entryThere room
    exact AllSound.of_step (by simp only [step, live]) (sound.store live keeps)
  | fork parent child newPD =>
    obtain ⟨⟨dir, live⟩, -⟩ := enabled
    have keeps := keeps_writeProtect (p := s.load dir) (sound parent dir live)
    exact AllSound.of_step (by simp only [step, live]) (sound.share live keeps child newPD)
  | removePages pid addr len =>
    obtain ⟨dir, live⟩ := enabled
    obtain ⟨fits, removable⟩ := meets
    rcases removal_sound sound live (fun other kept => kept) (removable dir live) with failed | ⟨p, ran, rfl, after⟩
    · exact AllSound.of_missing (by simp only [step, live, removePages_eq fits, failed]; rfl)
    · refine AllSound.of_step (by simp only [step, live, removePages_eq fits, ran]; rfl) fun q other liveOther => ?_
      rw [spaces_store_own live] at liveOther
      exact after other ⟨q, liveOther⟩
  | exit pid ranges =>
    obtain ⟨dir, live⟩ := enabled
    obtain ⟨fits, removable⟩ := meets
    rcases removal_sound sound live (fun other ⟨q, _, kept⟩ => ⟨q, kept⟩) (removable dir live) with
      failed | ⟨p, ran, rfl, after⟩
    · exact AllSound.of_missing (by simp only [step, live, removeRanges_eq fits, failed]; rfl)
    · refine AllSound.of_step (by simp only [step, live, removeRanges_eq fits, ran]; rfl) fun q other liveOther => ?_
      by_cases dead : q = pid
      · simp [dead] at liveOther
      · simp only [Function.update_of_ne dead, spaces_store_own live] at liveOther
        exact after other ⟨q, dead, liveOther⟩
  | kill caller target ranges =>
    obtain ⟨⟨dir, live⟩, -⟩ := enabled
    obtain ⟨fits, removable⟩ := meets
    rcases removal_sound sound live (fun other kept => kept) (removable dir live) with failed | ⟨p, ran, rfl, after⟩
    · exact AllSound.of_missing (by simp only [step, live, removeRanges_eq fits, failed]; rfl)
    · refine AllSound.of_step (by simp only [step, live, removeRanges_eq fits, ran]; rfl) fun q other liveOther => ?_
      rw [spaces_store_own live] at liveOther
      exact after other ⟨q, liveOther⟩

theorem Run.allSound {first s : PagingSystem} (empty : first.NoUserPages) (run : Run Unshared first s) :
    s.AllSound := by
  induction run with
  | start => exact empty.allSound
  | next run a enabled meets did ih => exact (step_sound ih enabled meets).1 _ did

/-- **No page is freed while it is mapped**, in any run of any number of
processes whose steps remove no page that is named elsewhere. -/
theorem unshared_run_no_dangling {first s : PagingSystem} (empty : first.NoUserPages) (run : Run Unshared first s) :
    s.NoDanglingPages ∧ ∀ a, s.Enabled a → s.Unshared a → s.step a ≠ .error .doubleFree :=
  ⟨(run.allSound empty).noDangling, fun _ enabled meets => (step_sound (run.allSound empty) enabled meets).2⟩

/-! ## Sharing that goes wrong -/

private theorem changeTableFlags_absent {p : Paging} {i : Nat} (absent : ¬ has (p.pageDir i) present)
    (virtAddr len : Word) : changeTableFlags virtAddr len 0#32 write present true p i = p := by
  have unchanged : changeFlags 0#32 write present (p.pageDir i) = p.pageDir i := if_neg absent
  simp only [changeTableFlags, ↓reduceIte, if_neg absent, unchanged, setDirEntry, Function.update_eq_self]

/-- Write protecting a process whose pages all lie behind entry 32. -/
theorem changeRegionFlags_single {p : Paging} (absent : ∀ i < 1022, 32 < i → ¬ has (p.pageDir i) present) :
    changeRegionFlags p userspaceLowAddr userspaceLen 0#32 write present true =
      changeTableFlags userspaceLowAddr userspaceLen 0#32 write present true p 32 := by
  suffices skipped : ∀ count first (q : Paging), 32 < first → first + count ≤ 1022 →
      (∀ i < 1022, 32 < i → ¬ has (q.pageDir i) present) →
        (List.range' first count).foldl (changeTableFlags userspaceLowAddr userspaceLen 0#32 write present true) q = q by
    have first : addrToPageDirIndex userspaceLowAddr = 32 := by decide
    have last : addrToPageDirIndex (userspaceLowAddr + userspaceLen - 1) - 32 = 989 + 1 := by decide
    simp only [changeRegionFlags, first, last]
    rw [List.range'_succ, List.foldl_cons]
    refine skipped 989 33 _ (by decide) (by decide) fun i high low => ?_
    have other : i ≠ 32 := by omega
    have pageDir : (changeTableFlags userspaceLowAddr userspaceLen 0#32 write present true p 32).pageDir i =
        p.pageDir i := by
      simp only [changeTableFlags, ↓reduceIte]
      split
      · rw [setPageTable_user _ ⟨by decide, by decide⟩]
        exact Function.update_of_ne other _ _
      · exact Function.update_of_ne other _ _
    rw [pageDir]
    exact absent i high low
  intro count
  induction count with
  | zero => exact fun first q _ _ _ => rfl
  | succ count ih =>
    intro first q low high qAbsent
    rw [List.range'_succ, List.foldl_cons, changeTableFlags_absent (qAbsent first (by omega) low)]
    exact ih (first + 1) q (by omega) (by omega) qAbsent

/-- Removing a page that is marked free already. -/
private theorem removePage_doubleFree {p : Paging} {addr : Word} (isUser : UserIndex (addrToPageDirIndex addr))
    (there : has (p.pageDir (addrToPageDirIndex addr)) present) (mapped : page (entryAt p (slot p.pageDir addr)) ≠ 0)
    (free : p.physicalMM.allocated (page (entryAt p (slot p.pageDir addr))) = false) :
    removePage p addr = .error .doubleFree := by
  have nonzero : pageTableEntryPhysicalAddress (entryAt p (slot p.pageDir addr)) ≠ 0#32 :=
    mt (physicalAddress_eq_zero _).mp mapped
  simp only [removePage, if_pos there, pageTable_eq_entryAt isUser, if_neg nonzero, setEntry_physicalMM,
    PhysicalMM.freePage, page_physicalAddress, free, Bool.false_eq_true, ↓reduceIte]

/-- One page of two address spaces, each through a table of its own: when one
process unmaps it, the other still maps a free page, and unmapping it there too
frees it twice. -/
theorem shared_removal_dangles {s : PagingSystem} {pid q : Nat} {dir other : Nat → Word} {addr : Word}
    (live : s.spaces pid = some dir) (otherLive : s.spaces q = some other) (apart : q ≠ pid)
    (isUser : UserIndex (addrToPageDirIndex addr)) (fits : addr.toNat + 4096 ≤ 0xFFFFF000)
    (there : has (dir (addrToPageDirIndex addr)) present) (otherThere : has (other (addrToPageDirIndex addr)) present)
    (kept : Kept (s.load dir) (entryAt (s.load dir) (slot dir addr)))
    (mapped : page (entryAt (s.load dir) (slot dir addr)) ≠ 0) (slots : slot other addr ≠ slot dir addr)
    (shared : entryAt (s.load dir) (slot other addr) = entryAt (s.load dir) (slot dir addr)) :
    ∃ s', s.step (.removePages pid addr 4096#32) = .ok s' ∧ ¬ s'.NoDanglingPages ∧
      s'.step (.removePages q addr 4096#32) = .error .doubleFree := by
  have single : pageAddresses addr 4096#32 = [addr] := rfl
  have alone : ∀ p : Paging, PagingManager.removePages p addr 4096#32 = removePage p addr := by
    intro p
    rw [removePages_eq fits, single, List.foldlM_cons]
    cases removePage p addr <;> rfl
  have removal := removePage_removal (p := s.load dir) isUser fun _ => kept
  cases removed : removePage (s.load dir) addr with
  | error failure =>
    rw [removed] at removal
    cases removal with
    | missing absent => exact absurd there absent
  | ok p =>
    rw [removed] at removal
    cases removal with
    | cleared _ _ cleared =>
      have entry : entryAt p (slot other addr) = entryAt (s.load dir) (slot dir addr) := by
        rw [cleared.entries, load_pageDir, if_neg slots, shared]
      have free : p.physicalMM.allocated (page (entryAt (s.load dir) (slot dir addr))) = false := by
        rw [cleared.bits, load_pageDir]
        simp [mapped]
      have entryThere := (kept.present_of_page mapped).1
      have stays : (s.store pid p).spaces q = some other := by
        rw [spaces_store_of_ne apart, otherLive]
      refine ⟨s.store pid p, by simp only [step, live, alone, removed]; rfl, fun sound => ?_, ?_⟩
      · have set := sound q other stays _ isUser otherThere _ (addrToPageTableIndex_lt addr)
          (by rw [← entry] at entryThere; exact entryThere)
        have same : p.physicalMM.allocated (page (entryAt p (slot other addr))) = true := set
        rw [entry, free] at same
        cases same
      · have twice : removePage ((s.store pid p).load other) addr = .error .doubleFree :=
          removePage_doubleFree isUser otherThere (by rw [← entry] at mapped; exact mapped)
            (by rw [← entry] at free; exact free)
        simp only [step, stays, alone, twice]
        rfl

/-- A directory without user pages. -/
def bootDir : Nat → Word :=
  fun di => if di = 1023 then pageDirectoryEntry 0x1000#32 kernelStdPage else 0#32

/-- One process without user pages; the kernel has the first 32 physical pages. -/
def booted : PagingSystem where
  physicalMM := ⟨fun i => if i = 0 then 0xFFFFFFFF#32 else 0#32⟩
  tables _ _ := 0#32
  spaces pid := if pid = 1 then some bootDir else none

/-- The first process after a fault on its first user page, and on the second. -/
def firstFault : Paging := newPage (booted.load bootDir) 0x08000000#32 write
def secondFault : Paging := newPage firstFault 0x08001000#32 write

/-- The same process, write protected by a fork. -/
def protectedParent : Paging := changeTableFlags userspaceLowAddr userspaceLen 0#32 write present true secondFault 32

def childDir : Nat → Word := clonePageDir protectedParent 0x2000#32

/-- The parent after it wrote its first page again. -/
def copiedParent : Paging := makeWriteablePageCopy protectedParent 0x08000000#32

def faultedOnce : PagingSystem := booted.store 1 firstFault
def faultedTwice : PagingSystem := faultedOnce.store 1 secondFault

def forked : PagingSystem :=
  { faultedTwice.store 1 protectedParent with
    spaces := Function.update (faultedTwice.store 1 protectedParent).spaces 2 (some childDir) }

def copied : PagingSystem := forked.store 1 copiedParent

private theorem fork_step : faultedTwice.step (.fork 1 2 0x2000#32) = .ok forked := by
  have absent : ∀ i < 1022, 32 < i → ¬ has (secondFault.pageDir i) present := by decide +kernel
  have live : faultedTwice.spaces 1 = some secondFault.pageDir := spaces_store_self _ _ _
  have same : faultedTwice.load secondFault.pageDir = secondFault := rfl
  simp only [step, live, same, changeRegionFlags_single absent]
  rfl

theorem booted_noUserPages : booted.NoUserPages := by
  intro pid dir live di isUser
  simp only [booted] at live
  split at live
  · rw [← Option.some.inj live, bootDir, if_neg (Nat.ne_of_lt isUser.2), has_zero]
    exact Bool.false_ne_true
  · cases live

theorem unshared_run_first_fault : faultedOnce.NoDanglingPages := by
  have free : FreePages (booted.load bootDir) 2 := ⟨[32, 33], by decide, rfl, by decide⟩
  have room : Unshared booted (.newPage 1 0x08000000#32 true) := by
    intro dir live
    rw [← Option.some.inj live]
    exact ⟨by decide, free⟩
  have run : Run Unshared booted faultedOnce :=
    .next .start (.newPage 1 0x08000000#32 true) ⟨bootDir, rfl, by decide, by decide⟩ room rfl
  exact (unshared_run_no_dangling booted_noUserPages run).1

/-- Two pages are faulted in, the process forks, and copy on write gives the
parent a table of its own in which the second page is the child's as well. -/
theorem shared_page_freed :
    ∃ s, Run (fun _ _ => True) booted s ∧ ¬ s.NoDanglingPages ∧
      s.step (.removePages 1 0x08001000#32 4096#32) = .error .doubleFree := by
  have once : Run (fun _ _ => True) booted faultedOnce :=
    .next .start (.newPage 1 0x08000000#32 true) ⟨bootDir, rfl, by decide, by decide⟩ trivial rfl
  have twice : Run (fun _ _ => True) booted faultedTwice :=
    once.next (.newPage 1 0x08001000#32 true) ⟨firstFault.pageDir, rfl, by decide, by decide +kernel⟩ trivial rfl
  have shared : Run (fun _ _ => True) booted forked :=
    twice.next (.fork 1 2 0x2000#32) ⟨⟨secondFault.pageDir, rfl⟩, rfl⟩ trivial fork_step
  have written : Run (fun _ _ => True) booted copied :=
    shared.next (.makeWriteablePageCopy 1 0x08000000#32) ⟨protectedParent.pageDir, rfl, by decide, by decide +kernel⟩
      trivial rfl
  have childLive : copied.spaces 2 = some childDir := rfl
  have parentLive : copied.spaces 1 = some copiedParent.pageDir := rfl
  have isUser : UserIndex (addrToPageDirIndex 0x08001000#32) := ⟨by decide, by decide⟩
  obtain ⟨s, removed, dangling, double⟩ := shared_removal_dangles childLive parentLive (by decide) isUser (by decide)
    (by decide +kernel) (by decide +kernel) (Or.inr (by decide +kernel)) (by decide +kernel) (by decide +kernel)
    (by decide +kernel)
  exact ⟨s, written.next (.removePages 2 0x08001000#32 4096#32) ⟨childDir, childLive⟩ trivial removed, dangling, double⟩

end PagingSystem

end FluxOS
