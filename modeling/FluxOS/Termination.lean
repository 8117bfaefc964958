import FluxOS.DescriptorRelease
import FluxOS.Task

/-! What ending a process does to the others. `terminateProcess` runs with the
caller scheduled: the pages are removed from the caller's directory, and the
descriptors are closed in the caller's table. -/
namespace FluxOS
open Words ListWithHoles PagingManager

/-- What a directory maps below the window of the page tables. -/
def userEntry (tables : Nat → Nat → Word) (dir : Nat → Word) (di ti : Nat) : Word :=
  if has (dir di) present then tables (page (dir di)) ti else 0#32

/-- What clearing slots leaves mapped. -/
theorem userEntry_cleared_iff {tables tables' : Nat → Nat → Word} {dir dir' : Nat → Word} {di ti : Nat}
    {entryGone dirGone : Prop} [Decidable entryGone] [Decidable dirGone]
    (entry : tables' (page (dir di)) ti = if entryGone then 0#32 else tables (page (dir di)) ti)
    (dirEntry : dir' di = if dirGone then 0#32 else dir di) :
    userEntry tables' dir' di ti = userEntry tables dir di ti ↔
      (userEntry tables dir di ti ≠ 0#32 → ¬ entryGone ∧ ¬ dirGone) := by
  by_cases tableGone : dirGone
  · have nothing : userEntry tables' dir' di ti = 0#32 := by
      rw [userEntry, dirEntry, if_pos tableGone, has_zero]
      rfl
    rw [nothing]
    refine ⟨fun same mapped => absurd same.symm mapped, fun kept => ?_⟩
    by_contra mapped
    exact (kept (Ne.symm mapped)).2 tableGone
  · rw [userEntry, userEntry, dirEntry, if_neg tableGone, entry]
    by_cases live : has (dir di) present
    · rw [if_pos live, if_pos live]
      by_cases gone : entryGone
      · rw [if_pos gone]
        refine ⟨fun same mapped => absurd same.symm mapped, fun kept => ?_⟩
        by_contra mapped
        exact (kept (Ne.symm mapped)).1 gone
      · rw [if_neg gone]
        exact iff_of_true rfl fun _ => ⟨gone, tableGone⟩
    · rw [if_neg live, if_neg live]
      exact iff_of_true rfl fun mapped => absurd rfl mapped

namespace System

/-- The target has no descriptor left, and every other process keeps its
descriptors, its working directory and its mappings. -/
structure Framed (s s' : System) (target : Nat) : Prop where
  closed : ∃ after, s'.processes target = some after ∧ ∀ fd, FSUAPI.descriptor after.openFiles fd = none
  others : ∀ q other, q ≠ target → s.processes q = some other → ∃ after, s'.processes q = some after ∧
    after.openFiles = other.openFiles ∧ after.currentWorkingDirNode = other.currentWorkingDirNode ∧
    after.memoryContext = other.memoryContext ∧
    ∀ di ti, UserIndex di → ti < 1024 → userEntry s'.tables after.addressSpaceTable di ti =
      userEntry s.tables other.addressSpaceTable di ti

end System

namespace Task

/-- Removing an entry that is not there changes nothing. -/
theorem remove_of_none {files : OpenFiles} {i : Nat} (hole : entry files i = none) : remove files i = files := by
  by_cases inside : i < files.length
  · have same : files[i] = none := by
      simpa only [entry, List.getElem?_eq_getElem inside, Option.join_some] using hole
    rw [remove, ← same, List.set_getElem_self]
  · exact List.set_eq_of_length_le (Nat.le_of_not_lt inside)

/-- A process that closes its own files removes entry after entry. -/
private theorem closeFile_own {s : System} {target : Nat} {process : ProcessControlBlock}
    (found : s.processes target = some process) (i : Nat) :
    closeFile target target 0#32 s i =
      s.setProcess target { process with openFiles := remove process.openFiles i } := by
  simp only [closeFile, found]
  cases held : entry process.openFiles i with
  | none =>
    rw [remove_of_none held]
    exact (System.setProcess_self found).symm
  | some fdesc =>
    simp [FSUAPI.closePB, FSUAPI.descriptor_eq_entry, held]

private theorem foldl_closeFile_own {s : System} {target : Nat} {process : ProcessControlBlock}
    (found : s.processes target = some process) (indices : List Nat) :
    indices.foldl (closeFile target target 0#32) s =
      s.setProcess target { process with openFiles := indices.foldl remove process.openFiles } := by
  induction indices generalizing s process with
  | nil => exact (System.setProcess_self found).symm
  | cons i rest ih =>
    rw [List.foldl_cons, closeFile_own found, ih (System.processes_setProcess_self _ _ _),
      System.setProcess_setProcess]
    rfl

private theorem entry_foldl_remove (files : OpenFiles) (indices : List Nat) (fd : Nat) :
    entry (indices.foldl remove files) fd = if fd ∈ indices then none else entry files fd := by
  induction indices generalizing files with
  | nil => rfl
  | cons i rest ih =>
    rw [List.foldl_cons, ih, entry_remove]
    by_cases later : fd ∈ rest
    · simp [later]
    · by_cases first : fd = i
      · simp [first]
      · simp [later, first]

/-- Whatever the target holds, only files of the scheduled process are closed. -/
private theorem closeFile_scheduled {s : System} {current : Nat} {scheduled : ProcessControlBlock}
    (running : s.processes current = some scheduled) (target i : Nat) :
    ∃ files, closeFile current target 0#32 s i = s.setProcess current { scheduled with openFiles := files } := by
  have unchanged : s = s.setProcess current { scheduled with openFiles := scheduled.openFiles } :=
    (System.setProcess_self running).symm
  simp only [closeFile, running]
  cases s.processes target with
  | none => exact ⟨_, unchanged⟩
  | some process =>
    simp only
    cases entry process.openFiles i with
    | none => exact ⟨_, unchanged⟩
    | some fdesc => exact ⟨_, if_pos BitVec.and_zero⟩

private theorem foldl_closeFile_scheduled {s : System} {current : Nat} {scheduled : ProcessControlBlock}
    (running : s.processes current = some scheduled) (target : Nat) (indices : List Nat) :
    ∃ files, indices.foldl (closeFile current target 0#32) s =
      s.setProcess current { scheduled with openFiles := files } := by
  induction indices generalizing s scheduled with
  | nil => exact ⟨scheduled.openFiles, (System.setProcess_self running).symm⟩
  | cons i rest ih =>
    obtain ⟨files, closed⟩ := closeFile_scheduled running target i
    obtain ⟨last, all⟩ := ih (s := closeFile current target 0#32 s i) (by
      rw [closed]
      exact System.processes_setProcess_self _ _ _)
    refine ⟨last, ?_⟩
    rw [List.foldl_cons, all, closed, System.setProcess_setProcess]

/-- A target without open files has none closed, not even the caller's. -/
private theorem closeFile_idle {s : System} {current target : Nat} {process : ProcessControlBlock}
    (found : s.processes target = some process) (empty : ∀ fd, entry process.openFiles fd = none) (i : Nat) :
    closeFile current target 0#32 s i = s := by
  simp only [closeFile, found]
  cases s.processes current with
  | none => rfl
  | some scheduled => simp only [empty]

private theorem foldl_closeFile_idle {s : System} {current target : Nat} {process : ProcessControlBlock}
    (found : s.processes target = some process) (empty : ∀ fd, entry process.openFiles fd = none)
    (indices : List Nat) : indices.foldl (closeFile current target 0#32) s = s := by
  induction indices with
  | nil => rfl
  | cons i rest ih => rw [List.foldl_cons, closeFile_idle found empty, ih]

/-- What is left when `target` has ended while `current` was scheduled, and `p`
the page tables after the removal. -/
structure Ended (s : System) (current target : Nat) (scheduled process : ProcessControlBlock) (p : Paging)
    (s' : System) : Prop where
  tables : s'.tables = p.tables
  ended : ∃ after, s'.processes target = some after ∧
    ((∀ fd, entry after.openFiles fd = none) ↔ current = target ∨ ∀ fd, entry process.openFiles fd = none)
  bystander : ∀ q, q ≠ target → q ≠ current → s'.processes q = s.processes q
  caller : current ≠ target → ∃ files,
    s'.processes current = some { scheduled with addressSpaceTable := p.pageDir, openFiles := files } ∧
      ((∀ fd, entry process.openFiles fd = none) → files = scheduled.openFiles)

/-- The target's own end: it is scheduled, and its own files are closed. -/
private theorem terminateProcess_own_eq {s : System} {target : Nat} {process : ProcessControlBlock}
    (found : s.processes target = some process) (notInit : target ≠ 1) (alive : process.status ≠ .terminated)
    {p : Paging} {ctx : MemoryContext}
    (removed : process.memoryContext.destroy (s.paging process.addressSpaceTable) = some (ctx, p))
    (exitStatus : Int) : ∃ after, terminateProcess s target target exitStatus =
        some ({ s with physicalMM := p.physicalMM, tables := p.tables }.setProcess target after) ∧
      after.openFiles = (List.range process.openFiles.length).foldl remove process.openFiles ∧
      after.status = .terminated := by
  have goesOn : ¬(target = 1 ∨ process.status = .terminated) := not_or.mpr ⟨notInit, alive⟩
  simp only [terminateProcess, found, if_neg goesOn, removed, System.storePaging,
    System.processes_setProcess_self, System.setProcess_setProcess, closeAllFiles]
  rw [foldl_closeFile_own (System.processes_setProcess_self _ _ _)]
  simp only [System.processes_setProcess_self, System.setProcess_setProcess]
  exact ⟨_, rfl, rfl, rfl⟩

/-- The table of open files, once each of its entries has been removed. -/
theorem entry_foldl_remove_all (files : OpenFiles) (fd : Nat) :
    entry ((List.range files.length).foldl remove files) fd = none := by
  rw [entry_foldl_remove]
  by_cases inside : fd < files.length
  · rw [if_pos (List.mem_range.mpr inside)]
  · rw [if_neg (mt List.mem_range.mp inside), entry_eq_none_of_le (Nat.le_of_not_lt inside)]

private theorem terminateProcess_own {s : System} {target : Nat} {process : ProcessControlBlock}
    (found : s.processes target = some process) (notInit : target ≠ 1) (alive : process.status ≠ .terminated)
    {p : Paging} {ctx : MemoryContext}
    (removed : process.memoryContext.destroy (s.paging process.addressSpaceTable) = some (ctx, p))
    (exitStatus : Int) : ∃ s', terminateProcess s target target exitStatus = some s' ∧
      Ended s target target process process p s' := by
  obtain ⟨after, done, files, _⟩ := terminateProcess_own_eq found notInit alive removed exitStatus
  refine ⟨_, done, rfl, ⟨after, System.processes_setProcess_self _ _ _, iff_of_true (fun fd => ?_) (.inl rfl)⟩,
    fun q other _ => System.processes_setProcess_of_ne other _ _, fun different => absurd rfl different⟩
  rw [files]
  exact entry_foldl_remove_all process.openFiles fd

/-- Another process's end: the target's own table of files stays as it is. -/
private theorem terminateProcess_other {s : System} {current target : Nat} {scheduled process : ProcessControlBlock}
    (different : current ≠ target) (running : s.processes current = some scheduled)
    (found : s.processes target = some process) (notInit : target ≠ 1) (alive : process.status ≠ .terminated)
    {p : Paging} {ctx : MemoryContext}
    (removed : process.memoryContext.destroy (s.paging scheduled.addressSpaceTable) = some (ctx, p))
    (exitStatus : Int) : ∃ s', terminateProcess s current target exitStatus = some s' ∧
      Ended s current target scheduled process p s' := by
  have goesOn : ¬(target = 1 ∨ process.status = .terminated) := not_or.mpr ⟨notInit, alive⟩
  have still : (s.storePaging current scheduled p).processes target = some process := by
    rw [System.storePaging, System.processes_setProcess_of_ne (Ne.symm different)]
    exact found
  -- the state in which the files are closed
  obtain ⟨s₁, made⟩ : ∃ s₁, (s.storePaging current scheduled p).setProcess target
      { process with memoryContext := ctx } = s₁ := ⟨_, rfl⟩
  have found₁ : s₁.processes target = some { process with memoryContext := ctx } := by
    rw [← made]
    exact System.processes_setProcess_self _ _ _
  have running₁ : s₁.processes current = some { scheduled with addressSpaceTable := p.pageDir } := by
    rw [← made, System.processes_setProcess_of_ne different]
    exact System.processes_setProcess_self _ _ _
  obtain ⟨files, closed⟩ := foldl_closeFile_scheduled running₁ target
    (List.range process.openFiles.length)
  have kept : (s₁.setProcess current { scheduled with addressSpaceTable := p.pageDir, openFiles := files }).processes
      target = some { process with memoryContext := ctx } := by
    rw [System.processes_setProcess_of_ne (Ne.symm different)]
    exact found₁
  refine ⟨(s₁.setProcess current { scheduled with addressSpaceTable := p.pageDir, openFiles := files }).setProcess
    target { process with memoryContext := ctx, exitStatus := exitStatus, status := .terminated }, ?_, by rw [← made]; rfl,
    ⟨_, System.processes_setProcess_self _ _ _, by simp [different]⟩, fun q notTarget notCurrent => ?_,
    fun _ => ⟨files, ?_, fun empty => ?_⟩⟩
  · have all : closeAllFiles s₁ current target 0#32 =
        s₁.setProcess current { scheduled with addressSpaceTable := p.pageDir, openFiles := files } := by
      simp only [closeAllFiles, found₁]
      exact closed
    simp only [terminateProcess, found, running, if_neg goesOn, removed, still, made, all, kept]
  · rw [System.processes_setProcess_of_ne notTarget, System.processes_setProcess_of_ne notCurrent, ← made,
      System.processes_setProcess_of_ne notTarget, System.storePaging, System.processes_setProcess_of_ne notCurrent]
  · rw [System.processes_setProcess_of_ne different, System.processes_setProcess_self]
  · rw [foldl_closeFile_idle found₁ empty] at closed
    have same := running₁
    rw [closed, System.processes_setProcess_self, Option.some.injEq] at same
    exact congrArg ProcessControlBlock.openFiles same

/-- A process that exits is terminated, and the others are left as they were. -/
theorem exit_ends {s s' : System} {caller : Nat} {process : ProcessControlBlock} {exitStatus : Int}
    (running : s.processes caller = some process) (done : ProcessUAPI.exit s caller exitStatus = some s') :
    ∃ after, after.status = .terminated ∧ s'.processes = Function.update s.processes caller (some after) ∧
      s'.lastUsedPID = s.lastUsedPID := by
  unfold ProcessUAPI.exit at done
  by_cases ends : caller = 1 ∨ process.status = .terminated
  · simp only [terminateProcess, running, if_pos ends] at done
    cases done
  · obtain ⟨notInit, alive⟩ := not_or.mp ends
    cases removed : process.memoryContext.destroy (s.paging process.addressSpaceTable) with
    | none =>
      simp only [terminateProcess, running, if_neg ends, removed] at done
      cases done
    | some rest =>
      obtain ⟨after, ended, _, terminated⟩ := terminateProcess_own_eq running notInit alive removed exitStatus
      rw [ended] at done
      cases done
      exact ⟨after, terminated, rfl, rfl⟩

/-- The slots that the end of the process clears, in the caller's directory. -/
def clearedSlots (scheduled process : ProcessControlBlock) : List Slot :=
  ((MemoryContext.releasedRanges process.memoryContext.descriptors.reverse).flatMap
    fun range => removedAddresses range.1 range.2).map (slotOf scheduled.addressSpaceTable)

/-- The target is not `init` and has not ended before; it is the caller itself or
has no open file; its pages can be removed; and no slot that is cleared is one
through which another process maps a page. -/
structure Undisturbed (s : System) (current target : Nat) (scheduled process : ProcessControlBlock) : Prop where
  notInit : target ≠ 1
  alive : process.status ≠ .terminated
  files : current = target ∨ ∀ fd, FSUAPI.descriptor process.openFiles fd = none
  pages : RangesComplete (s.paging scheduled.addressSpaceTable)
    (MemoryContext.releasedRanges process.memoryContext.descriptors.reverse)
  slots : ∀ q other, q ≠ target → s.processes q = some other → ∀ di ti, UserIndex di → ti < 1024 →
    userEntry s.tables other.addressSpaceTable di ti ≠ 0#32 →
      Slot.table (page (other.addressSpaceTable di)) ti ∉ clearedSlots scheduled process ∧
        ¬(q = current ∧ Slot.dir di ∈ clearedSlots scheduled process)

/-- `terminateProcess` returns exactly where the removal of the pages completes. -/
private theorem terminateProcess_returns {s : System} {current target : Nat} {scheduled process : ProcessControlBlock}
    (running : s.processes current = some scheduled) (found : s.processes target = some process) (exitStatus : Int) :
    ((target ≠ 1 ∧ process.status ≠ .terminated ∧ RangesComplete (s.paging scheduled.addressSpaceTable)
        (MemoryContext.releasedRanges process.memoryContext.descriptors.reverse)) ∧
      ∃ s' p, terminateProcess s current target exitStatus = some s' ∧
        Ended s current target scheduled process p s' ∧ ∀ slot : Slot, slot.entry p =
          if slot ∈ clearedSlots scheduled process then 0#32
          else slot.entry (s.paging scheduled.addressSpaceTable)) ∨
    (¬(target ≠ 1 ∧ process.status ≠ .terminated ∧ RangesComplete (s.paging scheduled.addressSpaceTable)
        (MemoryContext.releasedRanges process.memoryContext.descriptors.reverse)) ∧
      terminateProcess s current target exitStatus = none) := by
  by_cases ends : target = 1 ∨ process.status = .terminated
  · refine .inr ⟨fun may => ends.elim may.1 may.2.1, ?_⟩
    simp only [terminateProcess, found, running, if_pos ends]
  · obtain ⟨notInit, alive⟩ := not_or.mp ends
    rcases removeRanges_returns (s.paging scheduled.addressSpaceTable)
      (MemoryContext.releasedRanges process.memoryContext.descriptors.reverse) with
      ⟨complete, p, ran, entries⟩ | ⟨blocked, failure, failed⟩
    · have removed := MemoryContext.destroy_eq process.memoryContext (s.paging scheduled.addressSpaceTable)
      rw [ran] at removed
      refine .inl ⟨⟨notInit, alive, complete⟩, ?_⟩
      by_cases same : current = target
      · subst same
        rw [running, Option.some.injEq] at found
        subst found
        obtain ⟨s', did, ended⟩ := terminateProcess_own running notInit alive removed exitStatus
        exact ⟨s', p, did, ended, entries⟩
      · obtain ⟨s', did, ended⟩ := terminateProcess_other same running found notInit alive removed exitStatus
        exact ⟨s', p, did, ended, entries⟩
    · refine .inr ⟨fun may => blocked may.2.2, ?_⟩
      have stuck := MemoryContext.destroy_eq process.memoryContext (s.paging scheduled.addressSpaceTable)
      rw [failed] at stuck
      simp only [terminateProcess, found, running, if_neg ends, stuck]
      rfl

/-- What every process other than the target keeps, and what its directory loses. -/
private theorem Ended.keeps {s s' : System} {current target : Nat} {scheduled process : ProcessControlBlock} {p : Paging}
    (ended : Ended s current target scheduled process p s') (running : s.processes current = some scheduled)
    (entries : ∀ slot : Slot, slot.entry p = if slot ∈ clearedSlots scheduled process then 0#32
      else slot.entry (s.paging scheduled.addressSpaceTable))
    {q : Nat} {other : ProcessControlBlock} (notTarget : q ≠ target) (live : s.processes q = some other) :
    ∃ after, s'.processes q = some after ∧ after.currentWorkingDirNode = other.currentWorkingDirNode ∧
      after.memoryContext = other.memoryContext ∧
      ((current = target ∨ ∀ fd, entry process.openFiles fd = none) → after.openFiles = other.openFiles) ∧
      ∀ di, after.addressSpaceTable di =
        if q = current ∧ Slot.dir di ∈ clearedSlots scheduled process then 0#32 else other.addressSpaceTable di := by
  by_cases isCaller : q = current
  · subst isCaller
    rw [running, Option.some.injEq] at live
    subst live
    obtain ⟨files, after, same⟩ := ended.caller notTarget
    refine ⟨_, after, rfl, rfl, fun safe => same (safe.resolve_left notTarget), fun di => ?_⟩
    simp only [true_and]
    exact entries (.dir di)
  · refine ⟨other, (ended.bystander q notTarget isCaller).trans live, rfl, rfl, fun _ => rfl, fun di => ?_⟩
    rw [if_neg fun both => isCaller both.1]

/-- Ending a process closes its files and leaves the other processes alone
exactly in the undisturbed case. -/
theorem termination_framed_iff {s : System} {current target : Nat} {scheduled process : ProcessControlBlock}
    (running : s.processes current = some scheduled) (found : s.processes target = some process) (exitStatus : Int) :
    (∃ s', terminateProcess s current target exitStatus = some s' ∧ s.Framed s' target) ↔
      Undisturbed s current target scheduled process := by
  rcases terminateProcess_returns running found exitStatus with
    ⟨⟨notInit, alive, complete⟩, s', p, did, ended, entries⟩ | ⟨blocked, stuck⟩
  · have tableEntry : ∀ n ti, s'.tables n ti =
        if Slot.table n ti ∈ clearedSlots scheduled process then 0#32 else s.tables n ti :=
      fun n ti => ended.tables ▸ entries (.table n ti)
    obtain ⟨last, foundLast, closed⟩ := ended.ended
    constructor
    · rintro ⟨s'', did', framed⟩
      rw [did, Option.some.injEq] at did'
      subst did'
      refine ⟨notInit, alive, ?_, complete, fun q other notTarget live di ti isUser bound => ?_⟩
      · obtain ⟨after, foundAfter, none⟩ := framed.closed
        rw [foundLast, Option.some.injEq] at foundAfter
        subst foundAfter
        rw [FSUAPI.descriptors_none_iff] at none ⊢
        exact closed.mp none
      · obtain ⟨after, foundAfter, -, -, -, mapped⟩ := framed.others q other notTarget live
        obtain ⟨after', foundAfter', -, -, -, dirEntry⟩ := ended.keeps running entries notTarget live
        rw [foundAfter, Option.some.injEq] at foundAfter'
        subst foundAfter'
        exact (userEntry_cleared_iff (tableEntry _ ti) (dirEntry di)).mp (mapped di ti isUser bound)
    · intro safe
      have files := safe.files
      rw [FSUAPI.descriptors_none_iff] at files
      refine ⟨s', did, ⟨last, foundLast, ?_⟩, fun q other notTarget live => ?_⟩
      · rw [FSUAPI.descriptors_none_iff]
        exact closed.mpr files
      · obtain ⟨after, foundAfter, dirNode, context, same, dirEntry⟩ := ended.keeps running entries notTarget live
        refine ⟨after, foundAfter, same files, dirNode, context, fun di ti isUser bound => ?_⟩
        exact (userEntry_cleared_iff (tableEntry _ ti) (dirEntry di)).mpr
          (safe.slots q other notTarget live di ti isUser bound)
  · refine iff_of_false (fun ⟨s', did, _⟩ => ?_) fun safe => blocked ⟨safe.notInit, safe.alive, safe.pages⟩
    rw [stuck] at did
    cases did

/-- Two processes, the second forked from the first. -/
def twoProcesses : System :=
  let first := createNewTask 1 7 3 default
  let second := newProcess first 2 default
  ⟨⟨fun _ => 0#32⟩, fun _ _ => 0#32, Function.update (Function.update (fun _ => none) 1 (some first)) 2 (some second), 2⟩

/-- A process that has mapped nothing exits. -/
theorem termination_framed_exit : ∃ s', ProcessUAPI.exit twoProcesses 2 0 = some s' ∧ twoProcesses.Framed s' 2 := by
  obtain ⟨process, found, alive, unmapped, noTables⟩ : ∃ process, twoProcesses.processes 2 = some process ∧
      process.status ≠ .terminated ∧ process.memoryContext.descriptors = [] ∧
      process.addressSpaceTable = fun _ => 0#32 := ⟨_, rfl, by decide, rfl, rfl⟩
  refine (termination_framed_iff found found 0).mpr ⟨by decide, alive, .inl rfl, ?_, fun _ _ _ _ _ _ _ _ _ => ?_⟩
  · rw [unmapped]
    exact ⟨nofun, completes_nil _⟩
  · simp [clearedSlots, unmapped, MemoryContext.releasedRanges]

/-- The first process kills the second: it loses its own terminal, and the killed
process still holds it. -/
theorem kill_closes_own_files : ∃ s' caller target, ProcessUAPI.kill twoProcesses 1 2 ProcessUAPI.sigkill = some (s', 0) ∧
    s'.processes 1 = some caller ∧ s'.processes 2 = some target ∧ target.status = .terminated ∧
    FSUAPI.descriptor caller.openFiles 0 = none ∧ FSUAPI.descriptor target.openFiles 0 = some ⟨7, 0, FSUAPI.oRdonly⟩ :=
  ⟨_, _, _, rfl, rfl, rfl, by decide, by decide, by decide⟩

end Task

end FluxOS
