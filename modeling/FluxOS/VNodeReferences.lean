import Mathlib.Algebra.BigOperators.Pi
import Mathlib.Algebra.BigOperators.Ring.Finset
import FluxOS.ForkedProcess
import FluxOS.Termination
import FluxOS.VNodeHolders

/-! Over any run of calls whose conditions are met, the count of every vnode is the
number of descriptors, working directories, mapped files and mounts that lead to it. -/
namespace FluxOS.VNodeUse
open Words FSUAPI VFS ListWithHoles LinkedPointers

/-- How many descriptors, working directories and mapped files of a process lead to the
vnode. One that has ended has none. -/
def holds (process : ProcessControlBlock) (node : VNode) : Nat :=
  if process.status = .terminated then 0
  else process.openFiles.countP (fun fdesc => fdesc.any fun fdesc => fdesc.node = node) +
    (if process.currentWorkingDirNode = node then 1 else 0) +
    process.memoryContext.descriptors.countP fun d => mappedNode d = some node

def holders (mountLinks : VNode → Int) (s : System) (node : VNode) : Int :=
  mountLinks node + ∑ pid ∈ Finset.range (s.lastUsedPID + 1), ((s.processes pid).elim 0 fun process => holds process node : Nat)

/-- `uses` of a process that may have ended. -/
def held (process : Option ProcessControlBlock) : VNode → Int :=
  process.elim 0 fun process => if process.status = .terminated then 0 else uses process

theorem openUses_apply (files : OpenFiles) (node : VNode) :
    openUses files node = files.countP fun fdesc => fdesc.any fun fdesc => fdesc.node = node := by
  induction files with
  | nil => rfl
  | cons x rest ih =>
    unfold openUses at ih ⊢
    rw [total_cons, Pi.add_apply, ih, List.countP_cons]
    cases x with
    | none => simp
    | some fdesc =>
      by_cases same : fdesc.node = node
      · simp [same, add_comm]
      · simp [same, points_of_ne same]

theorem mappedUses_apply (descriptors : List MemoryDescriptor) (node : VNode) :
    mappedUses descriptors node = descriptors.countP fun d => mappedNode d = some node := by
  induction descriptors with
  | nil => rfl
  | cons d rest ih =>
    unfold mappedUses at ih ⊢
    rw [List.map_cons, List.sum_cons, Pi.add_apply, ih, List.countP_cons]
    by_cases same : mappedNode d = some node
    · simp [same, add_comm]
    · simp [same, points]

theorem held_apply (process : Option ProcessControlBlock) (node : VNode) :
    held process node = (process.elim 0 fun process => holds process node : Nat) := by
  cases process with
  | none => rfl
  | some process =>
    simp only [held, holds, Option.elim_some]
    by_cases ended : process.status = .terminated
    · simp only [if_pos ended]
      rfl
    · simp only [if_neg ended, uses, Pi.add_apply, openUses_apply, mappedUses_apply, points, Option.some.injEq]
      push_cast
      rfl

/-- The counts are right, and no process has a number that is still to come. -/
structure Sound (mountLinks : VNode → Int) (s : VNodeUse) : Prop where
  numbered : ∀ pid, s.system.lastUsedPID < pid → s.system.processes pid = none
  counted : s.refCount = mountLinks + ∑ pid ∈ Finset.range (s.system.lastUsedPID + 1), held (s.system.processes pid)

variable {mountLinks : VNode → Int} {s : VNodeUse} {caller : Nat} {process : ProcessControlBlock}

theorem Sound.holders (sound : Sound mountLinks s) (node : VNode) : s.refCount node = holders mountLinks s.system node := by
  rw [sound.counted, Pi.add_apply, Finset.sum_apply, VNodeUse.holders]
  push_cast
  simp only [held_apply]

theorem Sound.inside (sound : Sound mountLinks s) (running : s.system.processes caller = some process) :
    caller < s.system.lastUsedPID + 1 := by
  by_contra beyond
  have absent := sound.numbered caller (by omega)
  rw [running] at absent
  cases absent

theorem held_of_alive (alive : process.status ≠ .terminated) : held (some process) = uses process := if_neg alive

/-- One process of the table has changed, and the counts by as much as its holds. -/
theorem Sound.update (sound : Sound mountLinks s) (running : s.system.processes caller = some process)
    {after : VNodeUse} {left : ProcessControlBlock}
    (processes : after.system.processes = Function.update s.system.processes caller (some left))
    (last : after.system.lastUsedPID = s.system.lastUsedPID)
    (counts : after.refCount = s.refCount - held (some process) + held (some left)) : Sound mountLinks after := by
  have inside := sound.inside running
  constructor
  · intro pid beyond
    rw [last] at beyond
    rw [processes, Function.update_of_ne (by omega)]
    exact sound.numbered pid beyond
  · rw [counts, last, processes, sum_range_update held s.system.processes inside (some left), running, sound.counted]
    abel

theorem Sound.finish (sound : Sound mountLinks s) (running : s.system.processes caller = some process)
    (alive : process.status ≠ .terminated) {left : ProcessControlBlock × Int × Effects} (keeps : Keeps process left) :
    Sound mountLinks ⟨s.system.setProcess caller left.1, s.refCount + left.2.2.references⟩ := by
  refine sound.update running rfl rfl ?_
  have still : left.1.status ≠ .terminated := keeps.status ▸ alive
  simp only [held_of_alive alive, held_of_alive still, keeps.uses]
  abel

/-- What `fork` leaves of the table of processes. -/
theorem fork_changes {s s' : System} {pid : Nat} {raw parent : ProcessControlBlock} {newPD : Word}
    (running : s.processes caller = some parent) (forked : ProcessUAPI.fork s caller raw newPD = some (s', pid)) :
    s'.lastUsedPID = s.lastUsedPID + 1 ∧ ∃ dir childDir, s'.processes =
      Function.update (Function.update s.processes caller (some { parent with addressSpaceTable := dir }))
        (s.lastUsedPID + 1)
        (some { Task.newProcess parent (s.lastUsedPID + 1) raw with addressSpaceTable := childDir }) := by
  simp only [ProcessUAPI.fork, running, Option.some.injEq, Prod.mk.injEq] at forked
  obtain ⟨rfl, rfl⟩ := forked
  exact ⟨rfl, _, _, rfl⟩

theorem foldl_referenceFile (files : OpenFiles) (e : Effects) :
    (files.foldl referenceFile e).references = e.references + openUses files := by
  induction files generalizing e with
  | nil => exact (add_zero _).symm
  | cons x rest ih =>
    rw [List.foldl_cons, ih]
    unfold openUses
    rw [total_cons]
    cases x with
    | none =>
      simp only [referenceFile, Option.elim_none]
      abel
    | some fdesc =>
      simp only [referenceFile, Option.elim_some, Effects.reference]
      abel

theorem forkReferences_references (parent : ProcessControlBlock) :
    (forkReferences parent).references = openUses parent.openFiles + points (some parent.currentWorkingDirNode) := by
  simp only [forkReferences, Effects.reference, foldl_referenceFile, Effects.none, zero_add]

/-- A child holds what has been referenced for it. -/
theorem uses_newProcess (parent raw : ProcessControlBlock) (pid : Nat) (dir : Nat → Word) :
    uses { Task.newProcess parent pid raw with addressSpaceTable := dir } = (forkReferences parent).references := by
  have copied : openUses (Task.copyDescriptors parent.openFiles) = openUses parent.openFiles := by
    rw [Task.copyDescriptors_eq_refill]
    exact total_refill _ parent.openFiles
  rw [forkReferences_references, ← copied]
  exact add_zero _

theorem held_newProcess (parent raw : ProcessControlBlock) (pid : Nat) (dir : Nat → Word) :
    held (some { Task.newProcess parent pid raw with addressSpaceTable := dir }) =
      (forkReferences parent).references := by
  have ready : (Task.newProcess parent pid raw).status ≠ .terminated := show TaskStatus.ready ≠ .terminated by decide
  rw [← uses_newProcess parent raw pid dir]
  exact held_of_alive ready

theorem Sound.fork (sound : Sound mountLinks s) (running : s.system.processes caller = some process)
    (alive : process.status ≠ .terminated) {raw : ProcessControlBlock} {newPD : Word} {system : System} {pid : Nat}
    (forked : ProcessUAPI.fork s.system caller raw newPD = some (system, pid)) :
    Sound mountLinks ⟨system, s.refCount + (forkReferences process).references⟩ := by
  obtain ⟨last, dir, childDir, processes⟩ := fork_changes running forked
  have inside := sound.inside running
  constructor
  · intro other beyond
    simp only [last] at beyond
    simp only [processes]
    rw [Function.update_of_ne (by omega), Function.update_of_ne (by omega)]
    exact sound.numbered other (by omega)
  · have parentHeld : held (some { process with addressSpaceTable := dir }) = uses process := held_of_alive alive
    simp only [last, processes]
    rw [Finset.sum_range_succ, Function.update_self, sum_range_update_of_le held _ le_rfl,
      sum_range_update held _ inside, running, sound.counted, parentHeld, held_newProcess,
      held_of_alive alive]
    abel

theorem foldl_putMapping (descriptors : List MemoryDescriptor) (e : Effects) :
    (descriptors.foldl putMapping e).references = e.references - mappedUses descriptors := by
  induction descriptors generalizing e with
  | nil => exact (sub_zero _).symm
  | cons d rest ih =>
    rw [List.foldl_cons, ih]
    unfold mappedUses
    rw [List.map_cons, List.sum_cons]
    cases d with
    | mk base length permissions kind =>
      cases kind with
      | memoryMappedFile node offset =>
        simp only [putMapping, mappedNode, Effects.put]
        abel
      | anonymousMemory => exact congrArg (e.references - ·) (zero_add _).symm
      | delayedLoadFile node fileOffset pageOffset fileLen => exact congrArg (e.references - ·) (zero_add _).symm

/-- A file that is closed is put: what is open and what is still to be put stay together. -/
theorem putFile_eq (files : OpenFiles) (e : Effects) (i : Nat) : (putFile (files, e) i).1 = remove files i ∧
    (putFile (files, e) i).2.references - openUses (putFile (files, e) i).1 = e.references - openUses files := by
  cases present : entry files i with
  | none =>
    simp only [putFile, present]
    exact ⟨(Task.remove_of_none present).symm, trivial⟩
  | some fdesc =>
    have removed := total_remove (fun fdesc : FileDescriptor => points (some fdesc.node)) files i
    rw [present] at removed
    simp only [putFile, present, closePB, descriptor_eq_entry, Int.toNat_natCast, openUses, removed, Option.elim_some,
      Effects.put, true_and]
    abel

theorem foldl_putFile (indices : List Nat) (files : OpenFiles) (e : Effects) :
    (indices.foldl putFile (files, e)).1 = indices.foldl remove files ∧
      (indices.foldl putFile (files, e)).2.references - openUses (indices.foldl putFile (files, e)).1 =
        e.references - openUses files := by
  induction indices generalizing files e with
  | nil => exact ⟨rfl, rfl⟩
  | cons i rest ih =>
    obtain ⟨removed, together⟩ := putFile_eq files e i
    obtain ⟨rest_removed, rest_together⟩ := ih (putFile (files, e) i).1 (putFile (files, e) i).2
    rw [List.foldl_cons, List.foldl_cons, ← removed]
    exact ⟨rest_removed, rest_together.trans together⟩

/-- A process that exits puts whatever it holds. -/
theorem exitReferences_references (process : ProcessControlBlock) :
    (exitReferences process).references = -uses process := by
  unfold exitReferences
  have mapped := foldl_putMapping process.memoryContext.descriptors.reverse Effects.none
  obtain ⟨removed, together⟩ := foldl_putFile (List.range process.openFiles.length) process.openFiles
    (process.memoryContext.descriptors.reverse.foldl putMapping Effects.none)
  have closed : openUses ((List.range process.openFiles.length).foldl remove process.openFiles) = 0 :=
    total_eq_zero _ (Task.entry_foldl_remove_all process.openFiles)
  have reversed : mappedUses process.memoryContext.descriptors.reverse = mappedUses process.memoryContext.descriptors := by
    unfold mappedUses
    rw [List.map_reverse, List.sum_reverse]
  rw [removed, closed, sub_zero, mapped, reversed] at together
  simp only [Effects.put]
  rw [together, uses, show Effects.none.references = 0 from rfl]
  abel

theorem Sound.exit (sound : Sound mountLinks s) (running : s.system.processes caller = some process)
    (alive : process.status ≠ .terminated) {exitStatus : Int} {system : System}
    (exited : ProcessUAPI.exit s.system caller exitStatus = some system) :
    Sound mountLinks ⟨system, s.refCount + (exitReferences process).references⟩ := by
  obtain ⟨after, terminated, processes, last⟩ := Task.exit_ends running exited
  apply sound.update running processes last
  have nothing : held (some after) = 0 := if_pos terminated
  simp only [exitReferences_references, held_of_alive alive, nothing]
  abel

/-- What a call has to meet for the counts to stay right: paths are resolved without
forgetting a reference, the directory of a path is found where it is asked for alone, no
directory is entered, no owner changed, and an invalid name or buffer is not met with a
node in hand. -/
def Careful (around : Surroundings) (process : ProcessControlBlock) : Call → Prop
  | .openFile pathname flags => ∀ path, pathname = some path →
      Even around process path true ∧ Leads around process path flags
  | .dup3 oldfd newfd _ => (descriptor process.openFiles oldfd).isSome → 0 ≤ newfd → newfd ≠ oldfd →
      newfd < process.openFiles.length
  | .chdir pathname => ∀ path, pathname = some path → Even around process path true ∧ ∀ node type,
      (resolve around process path true).1 = .found node → around.type node = .ok type → type &&& sIfdir = 0#32
  | .fchdir fd => ∀ fdesc type, descriptor process.openFiles fd = some fdesc → around.type fdesc.node = .ok type →
      type &&& sIfdir = 0#32
  | .stat pathname _ => ∀ path, pathname = some path → Even around process path true
  | .utime filename bufReadable => ∀ path, filename = some path → Even around process path false ∧
      (bufReadable = false → ∀ node, (resolve around process path false).1 ≠ .found node)
  | .lchown pathname _ _ => ∀ path, pathname = some path → Even around process path false ∧
      ∀ node, (resolve around process path false).1 ≠ .found node
  | .unlink pathname | .mkdir pathname _ | .mknod pathname _ _ => ∀ path, pathname = some path →
      EvenSplit around process path Effects.none ∧ ValidName around process path Effects.none
  | .rename oldpath newpath => ∀ oldPath newPath, oldpath = some oldPath → newpath = some newPath →
      EvenSplit around process oldPath Effects.none ∧ ValidName around process oldPath Effects.none ∧
        ∀ node name e, split around process oldPath Effects.none = (.into node name, e) →
          EvenSplit around process newPath e ∧ ValidName around process newPath e
  | .link oldpath newpath => ∀ oldPath newPath, oldpath = some oldPath → newpath = some newPath →
      Even around process oldPath false ∧ ∀ node e, resolve around process oldPath false = (.found node, e) →
        EvenSplit around process newPath e
  | .close _ | .dup _ | .mmap _ _ _ _ _ _ _ | .fork _ _ _ | .exit _ => True

variable {around : Surroundings} {call : Call}

/-- The call returns to a state in which the counts are right, or does not return. -/
def Safe (mountLinks : VNode → Int) : Outcome → Prop
  | .returned s _ => Sound mountLinks s
  | .noReturn => True
  | .spoiled => False

/-- One call: a case for each, by what it leaves of its process. -/
theorem Sound.perform (sound : Sound mountLinks s) (running : s.system.processes caller = some process)
    (alive : process.status ≠ .terminated) (careful : Careful around process call) :
    Safe mountLinks (perform around s caller call) := by
  have ends : ∀ {left}, Keeps process left → Safe mountLinks (s.finish caller left) := sound.finish running alive
  unfold VNodeUse.perform
  simp only [running]
  cases call with
  | openFile pathname flags =>
    obtain ⟨left, opened, keeps⟩ := openFile_keeps careful
    simp only [opened]
    exact ends keeps
  | close fd => exact ends (close_keeps process fd)
  | dup oldfd => exact ends (dup_keeps process oldfd)
  | dup3 oldfd newfd flags =>
    obtain ⟨left, duplicated⟩ := dup3_returns flags careful
    simp only [duplicated]
    exact ends (dup3_keeps duplicated)
  | chdir path => exact ends (chdir_keeps careful)
  | fchdir fd => exact ends (fchdir_keeps careful)
  | stat path bufWritable => exact ends (keeps_same process (stat_balanced careful bufWritable))
  | utime filename bufReadable => exact ends (keeps_same process (utime_balanced careful))
  | unlink pathname => exact ends (keeps_same process (withParent_balanced careful))
  | mkdir pathname mode => exact ends (keeps_same process (withParent_balanced careful))
  | mknod pathname mode dev => exact ends (keeps_same process (withParent_balanced careful))
  | rename oldpath newpath => exact ends (keeps_same process (rename_balanced careful))
  | link oldpath newpath => exact ends (keeps_same process (link_balanced careful))
  | lchown path owner group => exact ends (keeps_same process (lchown_balanced owner group careful))
  | mmap fuel addr length prot flags fd offset =>
    cases mapped : mmap process fuel addr length prot flags fd offset with
    | none => simp only [mapped, Option.elim_none, Safe]
    | some left =>
      simp only [mapped]
      exact ends (mmap_keeps mapped)
  | fork forkThread raw newPD =>
    by_cases refused : forkThread < 0
    · simp only [if_pos refused]
      exact sound
    · simp only [if_neg refused]
      cases forked : ProcessUAPI.fork s.system caller raw newPD with
      | none => exact trivial
      | some child => exact sound.fork running alive forked
  | exit exitStatus =>
    cases exited : ProcessUAPI.exit s.system caller exitStatus with
    | none => simp only [exited, Safe]
    | some system =>
      simp only [exited]
      exact sound.exit running alive exited

/-- Calls of processes that have not ended, one after the other, each of which meets a condition. -/
inductive Run (meets : Surroundings → ProcessControlBlock → Call → Prop) (first : VNodeUse) : VNodeUse → Prop
  | start : Run meets first first
  | called {s s' : VNodeUse} {caller : Nat} {process : ProcessControlBlock} {result : Int} (before : Run meets first s)
      (around : Surroundings) (call : Call) (running : s.system.processes caller = some process)
      (alive : process.status ≠ .terminated) (met : meets around process call)
      (done : perform around s caller call = .returned s' result) : Run meets first s'

theorem sound_boot (physicalMM : PhysicalMM) (tables : Nat → Nat → Word) (mountLinks : VNode → Int)
    (ttyNode cwdNode : VNode) (raw : ProcessControlBlock) :
    Sound mountLinks (boot physicalMM tables mountLinks ttyNode cwdNode raw) := by
  have first : held (some (Task.createNewTask 1 ttyNode cwdNode raw)) =
      ((((Effects.none.reference ttyNode).reference ttyNode).reference ttyNode).reference cwdNode).references := by
    have ready : (Task.createNewTask 1 ttyNode cwdNode raw).status ≠ .terminated :=
      show TaskStatus.ready ≠ .terminated by decide
    have terminal : openUses (Task.createNewTask 1 ttyNode cwdNode raw).openFiles =
        points (some ttyNode) + (points (some ttyNode) + (points (some ttyNode) + 0)) := rfl
    have unmapped : mappedUses (Task.createNewTask 1 ttyNode cwdNode raw).memoryContext.descriptors = 0 := rfl
    rw [held_of_alive ready, uses, terminal, unmapped]
    simp only [Task.createNewTask, Effects.reference, Effects.none]
    abel
  constructor
  · intro pid beyond
    have apart : pid ≠ 1 := Nat.ne_of_gt beyond
    simp only [boot]
    rw [Function.update_of_ne apart]
  · simp only [boot]
    rw [Finset.sum_range_succ, Finset.sum_range_one, Function.update_self, first]
    rw [show Function.update (fun _ => none) 1 (some (Task.createNewTask 1 ttyNode cwdNode raw)) 0 = none from rfl]
    exact congrArg (mountLinks + ·) (zero_add _).symm

theorem Run.sound {first : VNodeUse} (run : Run Careful first s) (sound : Sound mountLinks first) : Sound mountLinks s := by
  induction run with
  | start => exact sound
  | called before around call running alive careful done ih =>
    have safe := ih.perform running alive careful
    rw [done] at safe
    exact safe

/-- In every run of careful calls from the first process on, the count of every vnode is
the number of its holders, and the next careful call does not spoil a table. -/
theorem careful_runs_count_holders (physicalMM : PhysicalMM) (tables : Nat → Nat → Word) (mountLinks : VNode → Int)
    (ttyNode cwdNode : VNode) (raw : ProcessControlBlock) {s : VNodeUse}
    (run : Run Careful (boot physicalMM tables mountLinks ttyNode cwdNode raw) s) :
    (∀ node, s.refCount node = VNodeUse.holders mountLinks s.system node) ∧
      ∀ around caller process call, s.system.processes caller = some process → process.status ≠ .terminated →
        Careful around process call → perform around s caller call ≠ .spoiled := by
  have sound := run.sound (sound_boot physicalMM tables mountLinks ttyNode cwdNode raw)
  refine ⟨sound.holders, fun around caller process call running alive careful spoiled => ?_⟩
  have safe := sound.perform running alive careful
  rw [spoiled] at safe
  exact safe

/-- A call among the files of `smallTree`, whose file system grants everything. -/
def smallSurroundings : Surroundings where
  tree := smallTree
  heap := clearHeap
  creat _ _ := (0, smallTree)
  type node := .ok (if node = 2 then sIfreg else sIfdir)
  stat _ := 0
  utime _ := 0
  chown _ _ _ := 0
  unlink _ _ := 0
  mkdir _ _ _ := 0
  mknod _ _ _ _ := 0
  link _ _ _ := 0
  rename _ _ _ _ := 0
  mountId _ := 0
  renameOf _ := 0

/-- The first process in the root of `smallTree`, with its terminal at vnode 7. -/
def firstUse : VNodeUse := boot ⟨fun _ => 0#32⟩ (fun _ _ => 0#32) 0 7 0 default

/-- What a call of a process among these files leads to. -/
def after (s : VNodeUse) (caller : Nat) (call : Call) : VNodeUse :=
  match perform smallSurroundings s caller call with
  | .returned s _ => s
  | _ => s

/-- A file is opened, the process forks, and the child closes the file again. -/
theorem careful_runs_count_holders_shared : ∃ s, Run Careful firstUse s ∧ s.refCount 2 = 1 ∧ s.refCount 7 = 6 ∧
    VNodeUse.holders 0 s.system 2 = 1 ∧ VNodeUse.holders 0 s.system 7 = 6 := by
  have opens : Careful smallSurroundings (Task.createNewTask 1 7 0 default) (.openFile (some ['d', '/', 'x']) 0#32) := by
    rintro path ⟨⟩
    have kept : NothingForgotten smallTree true 0 [['d'], ['x']] := by
      refine ⟨?_, ?_, ?_, ?_, trivial⟩ <;> decide
    exact ⟨fun _ => kept, fun code cleared e fails => by cases fails⟩
  let s₁ := after firstUse 1 (.openFile (some ['d', '/', 'x']) 0#32)
  let s₂ := after s₁ 1 (.fork 0 default 0#32)
  obtain ⟨parent, foundParent, parentReady⟩ : ∃ parent, s₁.system.processes 1 = some parent ∧ parent.status = .ready :=
    ⟨_, rfl, rfl⟩
  obtain ⟨child, foundChild, childReady⟩ : ∃ child, s₂.system.processes 2 = some child ∧ child.status = .ready :=
    ⟨_, rfl, rfl⟩
  have alive : TaskStatus.ready ≠ .terminated := by decide
  have running : firstUse.system.processes 1 = some (Task.createNewTask 1 7 0 default) := rfl
  have opened : Run Careful firstUse s₁ := Run.start.called smallSurroundings _ running alive opens rfl
  have forked : Run Careful firstUse s₂ :=
    opened.called smallSurroundings (.fork 0 default 0#32) foundParent (parentReady ▸ alive) trivial rfl
  have closed : Run Careful firstUse (after s₂ 2 (.close 3)) :=
    forked.called smallSurroundings (.close 3) foundChild (childReady ▸ alive) trivial rfl
  have counted := (careful_runs_count_holders _ _ _ _ _ _ closed).1
  exact ⟨_, closed, rfl, rfl, (counted 2).symm, (counted 7).symm⟩

/-- The first process makes the call, and the count of the vnode is wrong afterwards. -/
def Leaks (call : Call) (node : VNode) : Prop :=
  ∃ s result, perform smallSurroundings firstUse 1 call = .returned s result ∧
    s.refCount node ≠ VNodeUse.holders 0 s.system node

theorem calls_leak_references :
    Leaks (.chdir (some ['d'])) 0 ∧ Leaks (.lchown (some ['d']) 0#32 0#32) 1 ∧ Leaks (.utime (some ['d']) false) 1 ∧
      Leaks (.mkdir (some ['/']) 0#32) 0 ∧ Leaks (.rename (some ['d']) (some ['/'])) 0 :=
  ⟨⟨_, _, rfl, by decide⟩, ⟨_, _, rfl, by decide⟩, ⟨_, _, rfl, by decide⟩, ⟨_, _, rfl, by decide⟩, ⟨_, _, rfl, by decide⟩⟩

end FluxOS.VNodeUse
