import FluxOS.ResolutionBalance
import FluxOS.VNodeUse

/-! Who holds a vnode: open files, working directories, mapped files and mounts. A
call of one process keeps the books when it takes as many references as its process
has gained holds. -/
namespace FluxOS.VNodeUse
open Words FSUAPI VFS ListWithHoles LinkedPointers SeparatedNames

def mappedNode (d : MemoryDescriptor) : Option VNode :=
  match d.kind with
  | .memoryMappedFile node _ => some node
  | _ => none

/-- How many descriptors of a table lead to a vnode. -/
def openUses (files : OpenFiles) : VNode → Int := total (fun fdesc => points (some fdesc.node)) files

def mappedUses (descriptors : List MemoryDescriptor) : VNode → Int := (descriptors.map fun d => points (mappedNode d)).sum

/-- How often a process leads to a vnode. -/
def uses (process : ProcessControlBlock) : VNode → Int :=
  openUses process.openFiles + points (some process.currentWorkingDirNode) + mappedUses process.memoryContext.descriptors

/-- The call leaves its process with a hold more for every reference more. -/
structure Keeps (process : ProcessControlBlock) (left : ProcessControlBlock × Int × Effects) : Prop where
  status : left.1.status = process.status
  uses : uses left.1 = uses process + left.2.2.references

theorem keeps_same (process : ProcessControlBlock) {result : Int} {e : Effects} (nothing : e.references = 0) :
    Keeps process (process, result, e) := by
  refine ⟨rfl, ?_⟩
  simp only
  rw [nothing, add_zero]

/-- The conditions under which the directory of a path is found without forgetting anything. -/
def SplitsEvenly (tree : FileTree) (heap : KernelHeap) (cwd : VNode) (path : List Char) (requests : Nat) : Prop :=
  1 < currentPathToken path 0 0 →
    ResolvesEvenly tree heap cwd (path.take (currentPathToken path 0 0 - 1)) true (requests + 2)

/-- The reference that is handed over with a parent directory. -/
def splitGained : Split → VNode → Int
  | .into parent _ => points (some parent)
  | .failed _ _ => 0

theorem SplitsEvenly.balanced {tree : FileTree} {heap : KernelHeap} {cwd : VNode} {path : List Char} {e : Effects}
    (even : SplitsEvenly tree heap cwd path e.requests) :
    (pathToParentAndName tree heap cwd path e).2.references =
      e.references + splitGained (pathToParentAndName tree heap cwd path e).1 := by
  unfold pathToParentAndName
  by_cases nameless : path.drop (currentPathToken path 0 0) = []
  · simp only [if_pos nameless, splitGained, Effects.request, add_zero]
  · by_cases deep : 1 < currentPathToken path 0 0
    · have positive : 0 < (currentPathToken path 0 0 : Int) - 1 := by omega
      simp only [if_neg nameless, if_pos positive]
      have balanced := (show ResolvesEvenly tree heap cwd _ true e.request.request.requests from even deep).balanced
      revert balanced
      cases resolveNested tree heap true maxCount (some cwd) (path.take (currentPathToken path 0 0 - 1))
          e.request.request with
      | mk resolved after =>
        intro balanced
        cases resolved with
        | found node => exact balanced
        | failed code cleared => exact balanced
    · have shallow : ¬0 < (currentPathToken path 0 0 : Int) - 1 := by omega
      simp only [if_neg nameless, if_neg shallow]
      rfl

section Paths

variable {around : Surroundings} {process : ProcessControlBlock}

/-- `ResolvesEvenly` for a path argument of the process. -/
def Even (around : Surroundings) (process : ProcessControlBlock) (path : List Char) (traverseLeafLink : Bool) : Prop :=
  ResolvesEvenly around.tree around.heap process.currentWorkingDirNode path traverseLeafLink 0

/-- The same for its directory, which is found: where it is not, `pathToParentAndName`
passes the address of its caller's pointer to `free`. -/
def EvenSplit (around : Surroundings) (process : ProcessControlBlock) (path : List Char) (e : Effects) : Prop :=
  SplitsEvenly around.tree around.heap process.currentWorkingDirNode path e.requests ∧
    ∀ code cleared, (split around process path e).1 = .failed code cleared → path = []

variable {path : List Char} {traverseLeafLink : Bool} {node : VNode} {name : List Char} {code : Int} {cleared : Bool}
  {e e' : Effects}

theorem Even.found (even : Even around process path traverseLeafLink)
    (resolution : resolve around process path traverseLeafLink = (.found node, e)) : e.references = points (some node) := by
  have balanced := ResolvesEvenly.balanced (e := Effects.none) even
  unfold resolve relativePathToVnode at resolution
  rw [resolution] at balanced
  exact balanced.trans (zero_add _)

theorem Even.failed (even : Even around process path traverseLeafLink)
    (resolution : resolve around process path traverseLeafLink = (.failed code cleared, e)) : e.references = 0 := by
  have balanced := ResolvesEvenly.balanced (e := Effects.none) even
  unfold resolve relativePathToVnode at resolution
  rw [resolution] at balanced
  exact balanced.trans (zero_add 0)

theorem EvenSplit.into (even : EvenSplit around process path e)
    (splitting : split around process path e = (.into node name, e')) :
    e'.references = e.references + points (some node) := by
  have balanced := even.1.balanced
  unfold split at splitting
  rw [splitting] at balanced
  exact balanced

theorem EvenSplit.failed (even : EvenSplit around process path e)
    (splitting : split around process path e = (.failed code cleared, e')) : e'.references = e.references := by
  have balanced := even.1.balanced
  unfold split at splitting
  rw [splitting] at balanced
  exact balanced.trans (add_zero _)

theorem withNode_balanced {pathname : UserString} {onward : VNode → Effects → Int × Effects}
    (even : ∀ path, pathname = some path → Even around process path traverseLeafLink)
    (puts : ∀ path node e, pathname = some path → resolve around process path traverseLeafLink = (.found node, e) →
      (onward node e).2.references = e.references - points (some node)) :
    (withNode around process pathname traverseLeafLink onward).2.references = 0 := by
  unfold withNode
  cases pathname with
  | none => rfl
  | some path =>
    cases resolution : resolve around process path traverseLeafLink with
    | mk resolved e =>
      simp only [resolution]
      cases resolved with
      | failed code cleared => exact (even path rfl).failed resolution
      | found node =>
        simp only
        rw [puts path node e rfl resolution, (even path rfl).found resolution]
        exact sub_self _

/-- The name of a path is one that a file may have. -/
def ValidName (around : Surroundings) (process : ProcessControlBlock) (path : List Char) (e : Effects) : Prop :=
  ∀ node name, (split around process path e).1 = .into node name → ¬isValidUserFileName name < 0

theorem withParent_balanced {pathname : UserString} {operation : VNode → List Char → Int}
    (even : ∀ path, pathname = some path → EvenSplit around process path Effects.none ∧ ValidName around process path Effects.none) :
    (withParent around process pathname operation).2.references = 0 := by
  unfold withParent
  cases pathname with
  | none => rfl
  | some path =>
    obtain ⟨evenly, valid⟩ := even path rfl
    cases splitting : split around process path Effects.none with
    | mk ending e =>
      simp only [splitting]
      cases ending with
      | failed code cleared => exact evenly.failed splitting
      | into node name =>
        have taken := evenly.into splitting
        simp only [if_neg (valid node name (by rw [splitting])), Effects.put]
        rw [taken]
        exact add_sub_cancel_right _ _

/-- `stat` puts what it has found, whether or not the answer can be handed over. -/
theorem stat_balanced {pathname : UserString} (even : ∀ path, pathname = some path → Even around process path true)
    (bufWritable : Bool) : (stat around process pathname bufWritable).2.references = 0 := by
  refine withNode_balanced even fun path node e _ _ => ?_
  by_cases refused : around.stat node < 0
  · rw [if_pos refused]
    rfl
  · rw [if_neg refused]
    cases bufWritable <;> rfl

theorem utime_balanced {filename : UserString} {bufReadable : Bool}
    (even : ∀ path, filename = some path → Even around process path false ∧
      (bufReadable = false → ∀ node, (resolve around process path false).1 ≠ .found node)) :
    (utime around process filename bufReadable).2.references = 0 := by
  refine withNode_balanced (fun path same => (even path same).1) fun path node e same resolution => ?_
  cases bufReadable with
  | true => rfl
  | false => exact absurd (by rw [resolution]) ((even path same).2 rfl node)

theorem lchown_balanced {pathname : UserString} (owner group : Word)
    (even : ∀ path, pathname = some path → Even around process path false ∧
      ∀ node, (resolve around process path false).1 ≠ .found node) :
    (lchown around process pathname owner group).2.references = 0 :=
  withNode_balanced (fun path same => (even path same).1) fun path node e same resolution =>
    absurd (by rw [resolution]) ((even path same).2 node)

theorem link_balanced {oldpath newpath : UserString}
    (even : ∀ oldPath newPath, oldpath = some oldPath → newpath = some newPath →
      Even around process oldPath false ∧ ∀ node e, resolve around process oldPath false = (.found node, e) →
        EvenSplit around process newPath e) :
    (link around process oldpath newpath).2.references = 0 := by
  unfold link
  cases newpath with
  | none => rfl
  | some newPath =>
    refine withNode_balanced (fun path same => (even path newPath same rfl).1) fun path node e same resolution => ?_
    have evenly := (even path newPath same rfl).2 node e resolution
    cases splitting : split around process newPath e with
    | mk ending e' =>
      cases ending with
      | failed code cleared =>
        simp only [Effects.put]
        rw [evenly.failed splitting]
      | into parent name =>
        simp only [Effects.put]
        rw [evenly.into splitting]
        abel

theorem rename_balanced {oldpath newpath : UserString}
    (even : ∀ oldPath newPath, oldpath = some oldPath → newpath = some newPath →
      EvenSplit around process oldPath Effects.none ∧ ValidName around process oldPath Effects.none ∧
        ∀ node name e, split around process oldPath Effects.none = (.into node name, e) →
          EvenSplit around process newPath e ∧ ValidName around process newPath e) :
    (rename around process oldpath newpath).2.references = 0 := by
  unfold rename
  cases oldpath with
  | none => rfl
  | some oldPath =>
    cases newpath with
    | none => rfl
    | some newPath =>
      obtain ⟨evenly, valid, onward⟩ := even oldPath newPath rfl rfl
      cases splitting : split around process oldPath Effects.none with
      | mk ending e =>
        simp only [splitting]
        cases ending with
        | failed code cleared => exact evenly.failed splitting
        | into oldNode oldName =>
          have taken := evenly.into splitting
          obtain ⟨newEvenly, newValid⟩ := onward oldNode oldName e splitting
          simp only [if_neg (valid oldNode oldName (by rw [splitting]))]
          cases newSplitting : split around process newPath e with
          | mk newEnding e' =>
            cases newEnding with
            | failed code cleared =>
              simp only [Effects.put]
              rw [newEvenly.failed newSplitting, taken]
              exact add_sub_cancel_right _ _
            | into newNode newName =>
              simp only [if_neg (newValid newNode newName (by rw [newSplitting])), Effects.put]
              rw [newEvenly.into newSplitting, taken]
              simp only [Effects.none]
              abel

end Paths

section Tables

variable {around : Surroundings} {process : ProcessControlBlock}

/-- A directory that is entered costs the reference to the one that is left. -/
theorem chdir_keeps {path : UserString}
    (even : ∀ name, path = some name → Even around process name true ∧ ∀ node type,
      (resolve around process name true).1 = .found node → around.type node = .ok type → type &&& sIfdir = 0#32) :
    Keeps process (chdir around process path) := by
  unfold chdir
  cases path with
  | none => exact keeps_same process rfl
  | some name =>
    obtain ⟨evenly, plain⟩ := even name rfl
    cases resolution : resolve around process name true with
    | mk resolved e =>
      simp only [resolution]
      cases resolved with
      | failed code cleared => exact keeps_same process (evenly.failed resolution)
      | found node =>
        have put : (e.put node).references = 0 := by
          simp only [Effects.put]
          rw [evenly.found resolution]
          exact sub_self _
        simp only
        cases answer : around.type node with
        | error retVal => exact keeps_same process put
        | ok type =>
          simp only [if_pos (plain node type (by rw [resolution]) answer)]
          exact keeps_same process put

theorem fchdir_keeps {fd : Int}
    (plain : ∀ fdesc type, descriptor process.openFiles fd = some fdesc → around.type fdesc.node = .ok type →
      type &&& sIfdir = 0#32) : Keeps process (fchdir around process fd) := by
  unfold fchdir
  cases found : descriptor process.openFiles fd with
  | none => exact keeps_same process rfl
  | some fdesc =>
    simp only
    cases answer : around.type fdesc.node with
    | error retVal => exact keeps_same process rfl
    | ok type =>
      simp only [if_pos (plain fdesc type found answer)]
      exact keeps_same process rfl

/-- Only the table of open files has changed. -/
theorem keeps_setFiles {files : OpenFiles} {result : Int} {e : Effects}
    (change : openUses files = openUses process.openFiles + e.references) :
    Keeps process (setFiles process files, result, e) := by
  refine ⟨rfl, ?_⟩
  simp only [uses, setFiles, change]
  abel

theorem openUses_add (files : OpenFiles) (fdesc : FileDescriptor) :
    openUses (add files fdesc).1 = openUses files + points (some fdesc.node) := total_add _ files fdesc

theorem entry_of_descriptor {files : OpenFiles} {fd : Int} {fdesc : FileDescriptor}
    (found : descriptor files fd = some fdesc) : 0 ≤ fd ∧ fd < files.length ∧ entry files fd.toNat = some fdesc := by
  unfold descriptor at found
  by_cases inside : 0 ≤ fd ∧ fd < files.length
  · rw [if_pos inside] at found
    exact ⟨inside.1, inside.2, found⟩
  · rw [if_neg inside] at found
    cases found

theorem close_keeps (process : ProcessControlBlock) (fd : Int) : Keeps process (close process fd) := by
  unfold close closePB descriptorNode
  cases found : descriptor process.openFiles fd with
  | none => exact keeps_setFiles (add_zero _).symm
  | some fdesc =>
    obtain ⟨_, _, present⟩ := entry_of_descriptor found
    apply keeps_setFiles
    have removed := total_remove (fun fdesc : FileDescriptor => points (some fdesc.node)) process.openFiles fd.toNat
    rw [present] at removed
    simp only [openUses, removed, Option.map_some, Option.elim_some, Effects.put, Effects.none]
    abel

theorem dup_keeps (process : ProcessControlBlock) (oldfd : Int) : Keeps process (dup process oldfd) := by
  unfold dup FSUAPI.dup descriptorNode
  cases descriptor process.openFiles oldfd with
  | none => exact keeps_setFiles (add_zero _).symm
  | some fdesc =>
    refine keeps_setFiles ((openUses_add process.openFiles fdesc).trans ?_)
    simp only [Option.map_some, Option.elim_some, Effects.reference, Effects.none, zero_add]

/-- A descriptor that is overwritten need not have been closed first. -/
theorem set_closePB (files : OpenFiles) (fd : Nat) (value : Option FileDescriptor) :
    (closePB files fd).1.set fd value = files.set fd value := by
  unfold closePB
  cases descriptor files fd with
  | none => rfl
  | some fdesc => exact List.set_set none

theorem dup3_keeps {oldfd newfd : Int} {flags : Word} {left : ProcessControlBlock × Int × Effects}
    (done : dup3 process oldfd newfd flags = some left) : Keeps process left := by
  obtain ⟨⟨files, result⟩, duplicated, rfl⟩ := Option.map_eq_some_iff.mp done
  apply keeps_setFiles
  unfold FSUAPI.dup3 at duplicated
  by_cases negative : newfd < 0
  · rw [if_pos negative] at duplicated
    cases duplicated
    rw [if_pos (.inl negative)]
    exact (add_zero _).symm
  rw [if_neg negative] at duplicated
  cases found : descriptor process.openFiles oldfd with
  | none =>
    simp only [found] at duplicated
    cases duplicated
    simp only [descriptorNode, found, Option.map_none, ite_self]
    exact (add_zero _).symm
  | some oldFdesc =>
    simp only [found] at duplicated
    by_cases same : newfd = oldfd
    · rw [if_pos same] at duplicated
      cases duplicated
      rw [if_pos (.inr same)]
      exact (add_zero _).symm
    · rw [if_neg same] at duplicated
      by_cases inside : newfd < process.openFiles.length
      · rw [if_pos inside] at duplicated
        cases duplicated
        obtain ⟨fd, rfl⟩ := Int.eq_ofNat_of_zero_le (Int.not_lt.mp negative)
        have bound : fd < process.openFiles.length := Int.ofNat_lt.mp inside
        rw [if_neg (not_or.mpr ⟨negative, same⟩), Int.toNat_natCast, set_closePB]
        simp only [openUses, total_set _ bound, descriptorNode, found, descriptor_eq_entry, Option.map_some]
        cases entry process.openFiles fd with
        | none =>
          simp only [Option.elim_none, Option.elim_some, Option.map_none, Effects.reference, Effects.none]
          abel
        | some closefdesc =>
          simp only [Option.elim_some, Option.map_some, Effects.reference, Effects.put, Effects.none]
          abel
      · rw [if_neg inside] at duplicated
        cases duplicated

/-- The new descriptor number is in the table, or an error is returned. -/
theorem dup3_returns {oldfd newfd : Int} (flags : Word)
    (inside : (descriptor process.openFiles oldfd).isSome → 0 ≤ newfd → newfd ≠ oldfd → newfd < process.openFiles.length) :
    ∃ left, dup3 process oldfd newfd flags = some left := by
  apply Option.isSome_iff_exists.mp
  unfold dup3 FSUAPI.dup3
  rw [Option.isSome_map]
  by_cases negative : newfd < 0
  · rw [if_pos negative]
    rfl
  rw [if_neg negative]
  cases found : descriptor process.openFiles oldfd with
  | none => rfl
  | some oldFdesc =>
    by_cases same : newfd = oldfd
    · simp only [if_pos same]
      rfl
    · rw [found] at inside
      simp only [if_neg same, if_pos (inside rfl (Int.not_lt.mp negative) same)]
      rfl

/-- What `open` needs to find: the file, or with `O_CREAT` at least its directory. -/
def Leads (around : Surroundings) (process : ProcessControlBlock) (path : List Char) (flags : Word) : Prop :=
  ∀ code cleared e, resolve around process path true = (.failed code cleared, e) → flags &&& oCreat ≠ 0 →
    EvenSplit around process path e ∧ ∃ parent name, (split around process path e).1 = .into parent name

theorem openFile_keeps {pathname : UserString} {flags : Word}
    (even : ∀ path, pathname = some path → Even around process path true ∧ Leads around process path flags) :
    ∃ left, openFile around process pathname flags = some left ∧ Keeps process left := by
  unfold openFile openAtVNode
  cases pathname with
  | none => exact ⟨_, rfl, keeps_same process rfl⟩
  | some path =>
    obtain ⟨evenly, leads⟩ := even path rfl
    have opens : ∀ node (e : Effects), e.references = points (some node) →
        Keeps process (setFiles process (openNode process.openFiles node flags).1,
          (openNode process.openFiles node flags).2, e) := by
      intro node e taken
      refine keeps_setFiles ((openUses_add process.openFiles ⟨node, 0, flags⟩).trans ?_)
      rw [taken]
    cases resolution : resolve around process path true with
    | mk resolved e =>
      have begun := resolution
      unfold resolve at begun
      simp only [begun]
      cases resolved with
      | found node => exact ⟨_, rfl, opens node e (evenly.found resolution)⟩
      | failed code cleared =>
        by_cases creates : flags &&& oCreat ≠ 0
        · obtain ⟨apart, parent, name, into⟩ := leads code cleared e resolution creates
          cases splitting : split around process path e with
          | mk ending e' =>
            rw [splitting] at into
            cases into
            have taken : e'.references = points (some parent) := by
              rw [apart.into splitting, evenly.failed resolution, zero_add]
            unfold split at splitting
            simp only [if_pos creates, createNewFile, splitting]
            by_cases invalid : isValidUserFileName name < 0
            · simp only [if_pos invalid]
              exact ⟨_, rfl, opens parent e' taken⟩
            · simp only [if_neg invalid]
              exact ⟨_, rfl, opens parent e' taken⟩
        · simp only [if_neg creates]
          exact ⟨_, rfl, keeps_same process (evenly.failed resolution)⟩

theorem allocVirtualMemory_descriptors {ctx ctx' : MemoryContext} {size address : Word}
    (found : ctx.allocVirtualMemory size = some (ctx', address)) : ctx'.descriptors = ctx.descriptors := by
  obtain ⟨_, _, same⟩ := Option.map_eq_some_iff.mp found
  cases same
  rfl

theorem allocVirtualMemoryAt_descriptors {fuel : Nat} {ctx ctx' : MemoryContext} {address size : Word}
    (found : ctx.allocVirtualMemoryAt fuel address size = some ctx') : ctx'.descriptors = ctx.descriptors := by
  obtain ⟨_, _, same⟩ := Option.map_eq_some_iff.mp found
  cases same
  rfl

/-- Looking for room changes the allocator alone. -/
theorem findEmptyMemoryExtent_descriptors {fuel : Nat} {ctx ctx' : MemoryContext} {base length address : Word}
    {hints : MemoryAllocationHints} (found : ctx.findEmptyMemoryExtent fuel base length hints = some (ctx', address)) :
    ctx'.descriptors = ctx.descriptors := by
  unfold MemoryContext.findEmptyMemoryExtent at found
  by_cases given : base ≠ 0#32
  · simp only [if_pos given] at found
    split at found
    · cases found
      rfl
    · split at found
      · obtain ⟨after, reserved, same⟩ := Option.map_eq_some_iff.mp found
        cases same
        exact allocVirtualMemoryAt_descriptors reserved
      · cases found
        rfl
  · rw [if_neg given] at found
    exact allocVirtualMemory_descriptors found

theorem mappedUses_append (descriptors : List MemoryDescriptor) (d : MemoryDescriptor) :
    mappedUses (descriptors ++ [d]) = mappedUses descriptors + points (mappedNode d) := by
  unfold mappedUses
  rw [List.map_append, List.sum_append, List.map_singleton, List.sum_singleton]

theorem mappedUses_anonymous {fuel : Nat} {ctx ctx' : MemoryContext} {base length address result : Word}
    {permissions : Permissions} {hints : MemoryAllocationHints}
    (done : ctx.allocateAnonymousMemoryAnywhere fuel base length permissions hints = some (ctx', address, result)) :
    mappedUses ctx'.descriptors = mappedUses ctx.descriptors := by
  obtain ⟨⟨found, start⟩, room, inserted⟩ := Option.map_eq_some_iff.mp done
  have kept := findEmptyMemoryExtent_descriptors room
  simp only at inserted
  by_cases refused : start = 0#32
  · rw [if_pos refused] at inserted
    cases inserted
    rw [kept]
  · rw [if_neg refused] at inserted
    cases inserted
    rw [MemoryContext.insertMemoryDescriptor, mappedUses_append, kept]
    exact add_zero _

theorem mappedUses_file {fuel : Nat} {ctx ctx' : MemoryContext} {node : VNode} {base length offset address : Word}
    {permissions : Permissions}
    (done : ctx.mapFileSegmentToMemory fuel node base length offset permissions = some (ctx', address)) :
    ∃ found start, ctx.findEmptyMemoryExtent fuel base length .fixedHint = some (found, start) ∧
      mappedUses ctx'.descriptors = mappedUses ctx.descriptors + if start = 0#32 then 0 else points (some node) := by
  obtain ⟨⟨found, start⟩, room, inserted⟩ := Option.map_eq_some_iff.mp done
  have kept := findEmptyMemoryExtent_descriptors room
  refine ⟨found, start, room, ?_⟩
  simp only at inserted
  by_cases refused : start = 0#32
  · rw [if_pos refused] at inserted ⊢
    cases inserted
    rw [kept, add_zero]
  · rw [if_neg refused] at inserted ⊢
    cases inserted
    rw [MemoryContext.insertMemoryDescriptor, mappedUses_append, kept]
    rfl

/-- Only the memory context has changed. -/
theorem keeps_setContext {ctx : MemoryContext} {result : Int} {e : Effects}
    (change : mappedUses ctx.descriptors = mappedUses process.memoryContext.descriptors + e.references) :
    Keeps process (MemoryUAPI.setContext process ctx, result, e) := by
  refine ⟨rfl, ?_⟩
  simp only [uses, MemoryUAPI.setContext, change]
  abel

theorem mmap_keeps {fuel : Nat} {addr length prot flags : Word} {fd : Int} {offset : Word}
    {left : ProcessControlBlock × Int × Effects}
    (done : mmap process fuel addr length prot flags fd offset = some left) : Keeps process left := by
  obtain ⟨⟨after, address⟩, mapped, rfl⟩ := Option.map_eq_some_iff.mp done
  unfold MemoryUAPI.mmap at mapped
  simp only at mapped ⊢
  generalize flags &&& (MemoryUAPI.mapPrivate ||| MemoryUAPI.mapShared) = sharing at mapped ⊢
  by_cases shared : sharing = MemoryUAPI.mapPrivate ||| MemoryUAPI.mapShared ∨ sharing = 0#32
  · rw [if_pos shared] at mapped
    cases mapped
    rw [if_pos (or_assoc.mp (.inl shared))]
    exact keeps_same process rfl
  rw [if_neg shared] at mapped
  by_cases empty : length = 0#32
  · rw [if_pos empty] at mapped
    cases mapped
    rw [if_pos (.inr (.inr empty))]
    exact keeps_same process rfl
  rw [if_neg empty] at mapped
  rw [if_neg fun refused => (or_assoc.mpr refused).elim shared empty]
  by_cases anonymous : has flags MemoryUAPI.mapAnonymous
  · rw [if_pos anonymous] at mapped ⊢
    obtain ⟨⟨ctx, newAddr, code⟩, allocated, same⟩ := Option.map_eq_some_iff.mp mapped
    cases same
    apply keeps_setContext
    rw [mappedUses_anonymous allocated]
    exact (add_zero _).symm
  · rw [if_neg anonymous] at mapped ⊢
    cases opened : descriptor process.openFiles fd with
    | none =>
      simp only [opened] at mapped
      cases mapped
      simp only [descriptorNode, opened, Option.map_none]
      exact keeps_same process rfl
    | some fdesc =>
      simp only [opened] at mapped
      obtain ⟨⟨ctx, address⟩, segment, same⟩ := Option.map_eq_some_iff.mp mapped
      cases same
      obtain ⟨found, start, room, mappings⟩ := mappedUses_file segment
      apply keeps_setContext
      simp only [descriptorNode, opened, Option.map_some, room, mappings]
      by_cases refused : start = 0#32
      · rw [if_pos refused, if_pos refused]
        rfl
      · rw [if_neg refused, if_neg refused]
        simp only [Effects.reference, Effects.none, zero_add]

end Tables

end FluxOS.VNodeUse
