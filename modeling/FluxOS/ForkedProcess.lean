import FluxOS.AddressSpace
import FluxOS.Task

/-! What a new process has of its parent. `NewProcess` adds the parent's open
files one after the other to an empty table, which closes every gap, and it
makes a memory context without any descriptor. -/
namespace FluxOS
open Words ListWithHoles

namespace FSUAPI

/-- The tables that the calls on descriptors lead to, from an empty one. -/
inductive Reached : OpenFiles → Prop where
  | empty : Reached []
  | openNode {files : OpenFiles} (before : Reached files) (node : VNode) (flags : Word) :
      Reached (openNode files node flags).1
  | dup {files : OpenFiles} (before : Reached files) (oldfd : Int) : Reached (dup files oldfd).1
  | dup3 {files after : OpenFiles} {fd : Int} (before : Reached files) (oldfd newfd : Int) (flags : Word)
      (done : dup3 files oldfd newfd flags = some (after, fd)) : Reached after
  | pipe2 {files : OpenFiles} (before : Reached files) (node : VNode) (flags : Word) :
      Reached (pipe2 files node flags).1
  | close {files : OpenFiles} (before : Reached files) (fd : Int) : Reached (closePB files fd).1

/-- Tables agree on every descriptor when they agree on every entry. -/
theorem descriptors_eq_iff (files other : OpenFiles) :
    (∀ fd, descriptor files fd = descriptor other fd) ↔ ∀ i, entry files i = entry other i := by
  constructor
  · intro same i
    rw [← descriptor_eq_entry, ← descriptor_eq_entry]
    exact same i
  · intro same fd
    cases fd with
    | ofNat i =>
      rw [Int.ofNat_eq_natCast, descriptor_eq_entry, descriptor_eq_entry]
      exact same i
    | negSucc i => simp [descriptor]

end FSUAPI

namespace Task
open FSUAPI

/-- The table of a new process is the parent's, entered anew. -/
theorem copyDescriptors_eq_refill (files : OpenFiles) : copyDescriptors files = refill files := by
  rw [refill, ← foldl_add_full, List.foldl_filterMap, copyDescriptors]
  congr 1
  funext copied oldFd
  cases oldFd <;> rfl

/-- A new process has the parent's descriptors exactly when the parent's table
has no hole below an open descriptor. -/
theorem descriptors_inherited_iff (parent raw : ProcessControlBlock) (pid : Nat) :
    (∀ fd, descriptor (newProcess parent pid raw).openFiles fd = descriptor parent.openFiles fd) ↔
      Packed parent.openFiles := by
  rw [descriptors_eq_iff, ← refill_eq_iff, ← copyDescriptors_eq_refill]
  rfl

/-- The first process closes its standard input: in its child the terminal, open
for writing, is descriptor 0. -/
theorem closed_descriptor_shifts : ∃ parent raw : ProcessControlBlock, Reached parent.openFiles ∧
    descriptor parent.openFiles 0 = none ∧
    descriptor (newProcess parent 2 raw).openFiles 0 = some ⟨7, 0, oWronly⟩ := by
  let first := createNewTask 1 7 3 default
  refine ⟨{ first with openFiles := (closePB first.openFiles 0).1 }, default, ?_, by decide, by decide⟩
  exact (((Reached.empty.openNode 7 oRdonly).openNode 7 oWronly).openNode 7 oWronly).close 0

end Task

/-- The two processes see the same memory: every user address is mapped alike,
and the data segments have the same bounds. -/
structure SameAddressSpace (parent child : ProcessControlBlock) : Prop where
  mappings : ∀ address, userspaceLowAddr ≤ address → address ≤ userspaceHiAddr →
    child.memoryContext.mappingAt address = parent.memoryContext.mappingAt address
  dataSegmentStart : child.dataSegmentStart = parent.dataSegmentStart
  dataSegmentEnd : child.dataSegmentEnd = parent.dataSegmentEnd

/-- No descriptor of the process contains a user address. -/
def NoUserMapping (process : ProcessControlBlock) : Prop :=
  ∀ address, userspaceLowAddr ≤ address → address ≤ userspaceHiAddr →
    ∀ d ∈ process.memoryContext.descriptors, d.contains address = false

namespace ProcessUAPI

/-- What `fork` leaves: the child is a new process with the caller's page tables. -/
theorem fork_child {s s' : System} {caller pid : Nat} {raw parent child : ProcessControlBlock} {newPD : Word}
    (running : s.processes caller = some parent) (forked : fork s caller raw newPD = some (s', pid))
    (found : s'.processes pid = some child) :
    ∃ dir, child = { Task.newProcess parent pid raw with addressSpaceTable := dir } := by
  simp only [fork, running, Option.some.injEq, Prod.mk.injEq] at forked
  obtain ⟨rfl, rfl⟩ := forked
  simp only [System.processes_setProcess_self, Option.some.injEq] at found
  exact ⟨_, found.symm⟩

/-- The child sees the parent's memory exactly when there is nothing to see: no
user mapping, no data segment, and an end of it that is what the child's block of
memory held before. -/
theorem fork_keeps_address_space_iff {s s' : System} {caller pid : Nat}
    {raw parent child : ProcessControlBlock} {newPD : Word} (running : s.processes caller = some parent)
    (forked : fork s caller raw newPD = some (s', pid)) (found : s'.processes pid = some child) :
    SameAddressSpace parent child ↔
      NoUserMapping parent ∧ parent.dataSegmentStart = 0#32 ∧ parent.dataSegmentEnd = raw.dataSegmentEnd := by
  obtain ⟨dir, rfl⟩ := fork_child running forked found
  have unmapped : ∀ address, MemoryContext.new.mappingAt address = none := fun address => rfl
  constructor
  · intro same
    refine ⟨fun address low high => ?_, same.dataSegmentStart.symm, same.dataSegmentEnd.symm⟩
    rw [← MemoryContext.mappingAt_eq_none_iff, ← same.mappings address low high]
    exact unmapped address
  · rintro ⟨nothing, start, bound⟩
    refine ⟨fun address low high => ?_, start.symm, bound.symm⟩
    have absent := (MemoryContext.mappingAt_eq_none_iff _ _).mpr (nothing address low high)
    rw [absent]
    exact unmapped address

/-- Just after boot there is one process, with nothing mapped yet. -/
theorem fork_of_first_process : ∃ (s s' : System) (parent child : ProcessControlBlock),
    s.processes 1 = some parent ∧ fork s 1 default 0#32 = some (s', 2) ∧ s'.processes 2 = some child ∧
      SameAddressSpace parent child := by
  let first := Task.createNewTask 1 7 3 default
  let s : System := ⟨⟨fun _ => 0#32⟩, fun _ _ => 0#32, Function.update (fun _ => none) 1 (some first), 1⟩
  have running : s.processes 1 = some first := rfl
  obtain ⟨s', child, forked, found⟩ : ∃ s' child, fork s 1 default 0#32 = some (s', 2) ∧
      s'.processes 2 = some child := ⟨_, _, rfl, rfl⟩
  refine ⟨s, s', first, child, running, forked, found, ?_⟩
  refine (fork_keeps_address_space_iff running forked found).mpr ⟨fun address _ _ d member => ?_, rfl, rfl⟩
  cases member

/-- A process with one page mapped at 0x08000000 forks: the address is unmapped
in the child. -/
theorem fork_drops_mapping : ∃ (s s' : System) (parent child : ProcessControlBlock),
    s.processes 1 = some parent ∧ fork s 1 default 0#32 = some (s', 2) ∧ s'.processes 2 = some child ∧
      parent.memoryContext.mappingAt 0x08000000#32 = some ⟨⟨true, true, false⟩, .anonymousMemory⟩ ∧
      child.memoryContext.mappingAt 0x08000000#32 = none := by
  let first := Task.createNewTask 1 7 3 default
  let data : MemoryDescriptor := ⟨0x08000000#32, 0x1000#32, ⟨true, true, false⟩, .anonymousMemory⟩
  let parent := { first with memoryContext := first.memoryContext.insertMemoryDescriptor data }
  let s : System := ⟨⟨fun _ => 0#32⟩, fun _ _ => 0#32, Function.update (fun _ => none) 1 (some parent), 1⟩
  exact ⟨s, _, parent, _, rfl, rfl, rfl, by decide, by decide⟩

end ProcessUAPI

end FluxOS
