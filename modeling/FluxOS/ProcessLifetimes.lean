import FluxOS.ProcessHolders

/-! Every run of process calls keeps the counts equal to the holders, the list
equal to the table, and never reads a process that was freed. -/
namespace FluxOS.ProcessTable
open LinkedPointers

/-- `firstProcess`, `next` and `prev` make one list of the processes in the
table, the newest first. -/
def Listed (s : ProcessTable) (members : Nat → Prop) : Prop :=
  ∃ chain, Chained s.next s.prev none chain none ∧ s.firstProcess = chain.head? ∧ chain.Pairwise (· > ·) ∧
    ∀ q, q ∈ chain ↔ members q

structure Sound (s : ProcessTable) : Prop where
  counted : s.Counted 0
  linked : s.Listed fun q => s.processes q = true
  initListed : s.processes 1 = true
  old : ∀ q, s.processes q = true → 1 ≤ q ∧ q ≤ s.lastUsedPID
  fresh : ∀ q, s.lastUsedPID < q → s.allocated q = false
  orphan : ∀ q, s.processes q = false → s.parent q = none
  parents : ∀ q p, s.parent q = some p → p < q
  threads : ∀ thread p, s.parentProcess thread = some p → p = thread ∧ thread ≤ s.lastUsedPID

/-- A step to a sound state: new pids, and only they, enter the table, at most
one process leaves it, a process outside the table keeps its `next`, at most `drops`
references go, and at most `back` of those handed out are given back. -/
structure Stepped (s s' : ProcessTable) (drops back : Nat → Int) : Prop where
  sound : s'.Sound
  listed : ∀ q, s'.processes q = true → s.processes q = true ∨ s.lastUsedPID < q
  entered : ∀ q, s.lastUsedPID < q → q ≤ s'.lastUsedPID → s'.processes q = true
  stays : ∀ p q, s.processes p = true → s'.processes p = false → s.processes q = true → q ≠ p → s'.processes q = true
  stale : ∀ q, q ≤ s.lastUsedPID → s'.processes q = false → s'.next q = s.next q
  last : s.lastUsedPID ≤ s'.lastUsedPID
  costs : s.Costs s' drops
  handedOut : ∀ q, (s.references q : Int) - back q ≤ s'.references q

section Steps

variable {s s' : ProcessTable} {p : Nat}

theorem memory_of_drop {q : Nat} (live : (s.drop p).allocated q = true) : s.allocated q = true := by
  rw [allocated_drop] at live
  split at live
  · cases live
  · exact live

/-- A step that leaves the table, the list and the parents alone. -/
theorem Sound.of_same (sound : s.Sound) (counted : s'.Counted 0) (processes : s'.processes = s.processes)
    (first : s'.firstProcess = s.firstProcess) (last : s'.lastUsedPID = s.lastUsedPID) (next : s'.next = s.next)
    (prev : s'.prev = s.prev) (parent : s'.parent = s.parent)
    (memory : ∀ q, s'.allocated q = true → s.allocated q = true)
    (threads : ∀ thread p, s'.parentProcess thread = some p → s.parentProcess thread = some p) : s'.Sound where
  counted := counted
  linked := by
    unfold Listed
    rw [processes, first, next, prev]
    exact sound.linked
  initListed := by rw [processes]; exact sound.initListed
  old := by rw [processes, last]; exact sound.old
  fresh q young := by
    rw [last] at young
    refine Bool.eq_false_iff.mpr fun live => ?_
    have freed := sound.fresh q young
    rw [memory q live] at freed
    cases freed
  orphan := by rw [processes, parent]; exact sound.orphan
  parents := by rw [parent]; exact sound.parents
  threads thread p found := by rw [last]; exact sound.threads thread p (threads thread p found)

theorem Sound.stepped_of_same {drops back : Nat → Int} (sound : s.Sound) (counted : s'.Counted 0)
    (processes : s'.processes = s.processes) (first : s'.firstProcess = s.firstProcess)
    (last : s'.lastUsedPID = s.lastUsedPID) (next : s'.next = s.next) (prev : s'.prev = s.prev)
    (parent : s'.parent = s.parent) (memory : ∀ q, s'.allocated q = true → s.allocated q = true)
    (threads : ∀ thread p, s'.parentProcess thread = some p → s.parentProcess thread = some p)
    (costs : s.Costs s' drops) (handedOut : ∀ q, (s.references q : Int) - back q ≤ s'.references q) :
    s.Stepped s' drops back where
  sound := sound.of_same counted processes first last next prev parent memory threads
  listed _ member := .inl (processes ▸ member)
  entered _ young old := absurd (last ▸ old) (Nat.not_le.mpr young)
  stays _ _ _ _ member _ := processes ▸ member
  stale _ _ _ := congrFun next _
  last := last.ge
  costs := costs
  handedOut := handedOut

/-- A step that enters one new process and its own thread. -/
theorem Sound.of_entered {parent : Nat} (sound : s.Sound) (older : parent ≤ s.lastUsedPID) (counted : s'.Counted 0)
    (linked : s'.Listed fun q => s'.processes q = true) (last : s'.lastUsedPID = s.lastUsedPID + 1)
    (processes : s'.processes = Function.update s.processes (s.lastUsedPID + 1) true)
    (parents : s'.parent = Function.update s.parent (s.lastUsedPID + 1) (some parent))
    (threads : s'.parentProcess = Function.update s.parentProcess (s.lastUsedPID + 1) (some (s.lastUsedPID + 1)))
    (memory : ∀ q, q ≠ s.lastUsedPID + 1 → s'.allocated q = s.allocated q) : s'.Sound where
  counted := counted
  linked := linked
  initListed := by
    have initOld := (sound.old 1 sound.initListed).2
    rw [processes, Function.update_of_ne (by omega)]
    exact sound.initListed
  old q isListed := by
    rw [last]
    rw [processes] at isListed
    by_cases here : q = s.lastUsedPID + 1
    · exact ⟨here ▸ Nat.succ_pos s.lastUsedPID, here.le⟩
    · rw [Function.update_of_ne here] at isListed
      obtain ⟨positive, older⟩ := sound.old q isListed
      exact ⟨positive, Nat.le_succ_of_le older⟩
  fresh q young := by
    rw [last] at young
    rw [memory q (Nat.ne_of_gt young)]
    exact sound.fresh q (Nat.lt_of_succ_lt young)
  orphan q unlisted := by
    rw [processes] at unlisted
    rw [parents]
    by_cases here : q = s.lastUsedPID + 1
    · rw [here, Function.update_self] at unlisted
      cases unlisted
    · rw [Function.update_of_ne here] at unlisted ⊢
      exact sound.orphan q unlisted
  parents q r child := by
    rw [parents] at child
    by_cases here : q = s.lastUsedPID + 1
    · rw [here, Function.update_self, Option.some.injEq] at child
      omega
    · rw [Function.update_of_ne here] at child
      exact sound.parents q r child
  threads thread r attached := by
    rw [last]
    rw [threads] at attached
    by_cases here : thread = s.lastUsedPID + 1
    · rw [here, Function.update_self, Option.some.injEq] at attached
      exact ⟨attached.symm.trans here.symm, here.le⟩
    · rw [Function.update_of_ne here] at attached
      obtain ⟨same, older⟩ := sound.threads thread r attached
      exact ⟨same, Nat.le_succ_of_le older⟩

/-- A step that takes one process out of the table and from its parent. -/
theorem Sound.of_removed (sound : s.Sound) (isListed : s.processes p = true) (notInit : p ≠ 1) (counted : s'.Counted 0)
    (linked : s'.Listed fun q => s'.processes q = true) (last : s'.lastUsedPID = s.lastUsedPID)
    (processes : s'.processes = Function.update s.processes p false)
    (parents : s'.parent = Function.update s.parent p none) (threads : s'.parentProcess = s.parentProcess)
    (memory : ∀ q, s'.allocated q = true → s.allocated q = true) : s'.Sound where
  counted := counted
  linked := linked
  initListed := by
    rw [processes, Function.update_of_ne (Ne.symm notInit)]
    exact sound.initListed
  old q stays := by
    rw [last]
    rw [processes] at stays
    by_cases here : q = p
    · rw [here]
      exact sound.old p isListed
    · rw [Function.update_of_ne here] at stays
      exact sound.old q stays
  fresh q young := by
    rw [last] at young
    refine Bool.eq_false_iff.mpr fun stays => ?_
    have before := memory q stays
    rw [sound.fresh q young] at before
    cases before
  orphan q unlisted := by
    rw [processes] at unlisted
    rw [parents]
    by_cases here : q = p
    · rw [here, Function.update_self]
    · rw [Function.update_of_ne here] at unlisted ⊢
      exact sound.orphan q unlisted
  parents q r child := by
    rw [parents] at child
    by_cases here : q = p
    · rw [here, Function.update_self] at child
      cases child
    · rw [Function.update_of_ne here] at child
      exact sound.parents q r child
  threads thread r attached := by
    rw [last]
    rw [threads] at attached
    exact sound.threads thread r attached

theorem Sound.allocated_of_listed (sound : s.Sound) (isListed : s.processes p = true) : s.allocated p = true :=
  sound.counted.allocated_of_listed isListed (le_refl 0)

/-- A process is allocated for as long as its own thread points to it. -/
theorem Sound.allocated_of_thread {thread : Nat} (sound : s.Sound) (found : s.parentProcess thread = some p) :
    s.allocated p = true := by
  obtain ⟨same, older⟩ := sound.threads thread p found
  by_cases init : thread = 1
  · rw [same, init]
    exact sound.allocated_of_listed sound.initListed
  · have held := holds_le_holders (Nat.zero_le _) (Nat.zero_le _) (Nat.zero_le _) older p
    have thread : ofThreads s.parentProcess thread = some p := (if_neg init).trans found
    have listed := entry_nonneg s.processes p
    have next := points_nonneg (ofListed s.processes s.next 0) p
    have prev := points_nonneg (ofListed s.processes s.prev 0) p
    have parent := points_nonneg (s.parent 0) p
    rw [thread, points_self] at held
    apply sound.counted.allocated_iff.mpr
    rw [Pi.zero_apply]
    omega

theorem Sound.handOut (sound : s.Sound) (live : s.allocated p = true) :
    ∃ s', s.handOut p = some s' ∧ s.Stepped s' 0 (-points (some p)) ∧ s'.processes = s.processes ∧ s'.next = s.next := by
  have bumped := sound.counted.bump live
  refine ⟨(s.bump p).setReferences p (s.references p + 1), ?_, ?_, rfl, rfl⟩
  · rw [ProcessTable.handOut, referenceProcess, store_of_allocated live]
    rfl
  refine sound.stepped_of_same (bumped.moved rfl rfl fun q => ?_) rfl rfl rfl rfl rfl rfl (fun _ live => live)
    (fun _ _ h => h) ?_ fun q => ?_
  · by_cases here : q = p
    · simp only [holders, here, ProcessTable.bump, setReferences, Function.update_self, Pi.add_apply, Pi.zero_apply, points_self]
      omega
    · simp only [holders, ProcessTable.bump, setReferences, Function.update_of_ne here, Pi.add_apply, Pi.zero_apply,
        points_of_ne (Ne.symm here)]
      omega
  · refine Costs.mono ((costs_bump_zero s p).trans (costs_of_same rfl rfl) fun _ => le_rfl) fun q => ?_
    simp only [Pi.add_apply, Pi.zero_apply]
    decide
  · by_cases here : q = p
    · simp only [here, ProcessTable.bump, setReferences, Function.update_self, Pi.neg_apply, points_self]
      omega
    · simp only [ProcessTable.bump, setReferences, Function.update_of_ne here, Pi.neg_apply, points_of_ne (Ne.symm here)]
      omega

theorem Sound.getProcess (sound : s.Sound) (pid : Nat) : ∃ s', s.getProcess pid = some s' ∧ s.Stepped s' 0 0 := by
  unfold ProcessTable.getProcess
  by_cases isListed : s.processes pid = true
  · rw [if_pos isListed]
    obtain ⟨s', result, stepped, _⟩ := sound.handOut (sound.allocated_of_listed isListed)
    refine ⟨s', result, stepped.sound, stepped.listed, stepped.entered, stepped.stays, stepped.stale, stepped.last, stepped.costs, fun q => ?_⟩
    have handed := stepped.handedOut q
    have one := points_nonneg (some pid) q
    rw [Pi.neg_apply] at handed
    rw [Pi.zero_apply]
    omega
  · rw [if_neg isListed]
    exact ⟨s, rfl, sound, fun _ => .inl, fun _ young old => absurd old (Nat.not_le.mpr young),
      fun _ _ _ _ member _ => member, fun _ _ _ => rfl, le_rfl, costs_of_same rfl rfl, fun q => by
      rw [Pi.zero_apply, Int.sub_zero]⟩

theorem Sound.allocated_of_reference (sound : s.Sound) (holds : 0 < s.references p) : s.allocated p = true := by
  have held := holds_le_holders (Nat.zero_le _) (Nat.zero_le _) (Nat.zero_le _) (Nat.zero_le s.lastUsedPID) p
  have listed := entry_nonneg s.processes p
  have next := points_nonneg (ofListed s.processes s.next 0) p
  have prev := points_nonneg (ofListed s.processes s.prev 0) p
  have parent := points_nonneg (s.parent 0) p
  have thread := points_nonneg (ofThreads s.parentProcess 0) p
  apply sound.counted.allocated_iff.mpr
  rw [Pi.zero_apply]
  omega

theorem Sound.giveBack (sound : s.Sound) (holds : 0 < s.references p) :
    ∃ s', s.giveBack p = some s' ∧ s.Stepped s' (points (some p)) (points (some p)) ∧
      s'.processes = s.processes ∧ s'.next = s.next := by
  have live := sound.allocated_of_reference holds
  refine ⟨(s.drop p).setReferences p ((s.drop p).references p - 1), ?_, ?_, processes_drop s p, next_drop s p⟩
  · rw [ProcessTable.giveBack, putProcess, store_of_allocated live]
    rfl
  refine sound.stepped_of_same ((sound.counted.drop live).moved rfl rfl fun q => ?_) (processes_drop s p)
    (firstProcess_drop s p) (lastUsedPID_drop s p) (next_drop s p) (prev_drop s p) (parent_drop s p)
    (fun q => memory_of_drop) (fun _ _ found => parentProcess_drop s p ▸ found) (costs_drop s p) fun q => ?_
  · by_cases here : q = p
    · simp only [holders, here, references_drop, setReferences, Function.update_self, Pi.sub_apply, Pi.zero_apply, points_self]
      omega
    · simp only [holders, references_drop, setReferences, Function.update_of_ne here, Pi.sub_apply, Pi.zero_apply,
        points_of_ne (Ne.symm here)]
      omega
  · by_cases here : q = p
    · simp only [here, references_drop, setReferences, Function.update_self, points_self]
      omega
    · simp only [references_drop, setReferences, Function.update_of_ne here, points_of_ne (Ne.symm here)]
      omega

theorem Sound.terminateThread {thread : Nat} (sound : s.Sound) (notInit : thread ≠ 1)
    (running : s.parentProcess thread ≠ none) :
    ∃ s', s.terminateThread thread = some s' ∧ s.Stepped s' (points (s.parentProcess thread)) 0 := by
  obtain ⟨p, found⟩ := Option.ne_none_iff_exists'.mp running
  obtain ⟨rfl, older⟩ := sound.threads thread p found
  have live := sound.allocated_of_thread found
  have positive := sound.counted.allocated_iff.mp live
  rw [Pi.zero_apply] at positive
  -- `terminateProcess` takes a reference and gives it back before the thread's own goes
  have bumped := sound.counted.bump live
  have bumpedLive : (s.bump p).allocated p = true := live
  have once := bumped.drop bumpedLive
  have onceLive : ((s.bump p).drop p).allocated p = true := by
    apply once.allocated_iff.mpr
    rw [holders_drop, Pi.sub_apply, Pi.add_apply, points_self, Pi.zero_apply]
    exact positive
  have twice := once.drop onceLive
  have detached := twice.setThread notInit (by simpa [ProcessTable.bump] using older) none
  refine ⟨_, by
    simp only [ProcessTable.terminateThread, found, referenceProcess, putProcess, store_of_allocated live,
      store_of_allocated bumpedLive, store_of_allocated onceLive, Option.bind_eq_bind, Option.bind_some]; rfl, ?_⟩
  refine sound.stepped_of_same (detached.congr fun q => ?_) ?_ ?_ ?_ ?_ ?_ ?_ (fun q live => ?_)
    (fun t p' attached => ?_) ?_ fun q => ?_
  · simp only [parentProcess_drop, ProcessTable.bump, found, Pi.add_apply, Pi.sub_apply, Pi.zero_apply, points_none]
    omega
  · exact (processes_drop _ p).trans (processes_drop _ p)
  · exact (firstProcess_drop _ p).trans (firstProcess_drop _ p)
  · exact (lastUsedPID_drop _ p).trans (lastUsedPID_drop _ p)
  · exact (next_drop _ p).trans (next_drop _ p)
  · exact (prev_drop _ p).trans (prev_drop _ p)
  · exact (parent_drop _ p).trans (parent_drop _ p)
  · have left : (((s.bump p).drop p).drop p).allocated q = true := live
    have before : (s.bump p).allocated q = true := memory_of_drop (memory_of_drop left)
    exact before
  · by_cases here : t = p
    · rw [here, ProcessTable.setThread] at attached
      simp at attached
    · simpa [ProcessTable.setThread, ProcessTable.bump, Function.update_of_ne here] using attached
  · have twiceCosts := ((costs_bump s p).trans (costs_drop _ p) (points_nonneg _)).trans (costs_drop _ p) (points_nonneg _)
    refine Costs.mono (twiceCosts.trans (costs_of_same rfl rfl) fun _ => le_rfl) fun q => ?_
    rw [found]
    simp only [Pi.add_apply, Pi.neg_apply, Pi.zero_apply]
    omega
  · have same : (((s.bump p).drop p).drop p).references = s.references :=
      (references_drop _ p).trans (references_drop _ p)
    show _ ≤ (((((s.bump p).drop p).drop p).references q : Nat) : Int)
    rw [same, Pi.zero_apply, Int.sub_zero]

/-- The table behind a fork: the new process, which the former first one gets for its `prev`, and then its thread. -/
def forked (s : ProcessTable) (parent first : Nat) : ProcessTable :=
  ((((s.bump parent).create parent first).setPrev first (some (s.lastUsedPID + 1))).bump (s.lastUsedPID + 1)).setThread
    (s.lastUsedPID + 1) (some (s.lastUsedPID + 1))

section Forking

variable {parent first : Nat}

/-- The next pid is that of no process and of no thread. -/
theorem Sound.newPID (sound : s.Sound) : s.processes (s.lastUsedPID + 1) = false ∧
    s.parentProcess (s.lastUsedPID + 1) = none ∧ s.lastUsedPID + 1 ≠ 1 := by
  refine ⟨?_, ?_, ?_⟩
  · exact Bool.eq_false_iff.mpr fun isListed => absurd (sound.old _ isListed).2 (Nat.not_succ_le_self _)
  · exact Option.eq_none_iff_forall_ne_some.mpr fun p attached =>
      absurd (sound.threads _ p attached).2 (Nat.not_succ_le_self _)
  · have initOld := (sound.old 1 sound.initListed).2
    omega

theorem fork_eq {caller : Nat} (found : s.parentProcess caller = some parent) (liveParent : s.allocated parent = true)
    (head : s.firstProcess = some first) (liveFirst : s.allocated first = true) (older : first ≤ s.lastUsedPID) :
    s.fork caller = some (s.forked parent first) := by
  have firstOther : first ≠ s.lastUsedPID + 1 := by omega
  have firstLive : ((s.bump parent).create parent first).allocated first = true :=
    (Function.update_of_ne firstOther _ _).trans liveFirst
  have newLive : (((s.bump parent).create parent first).setPrev first (some (s.lastUsedPID + 1))).allocated
      (s.lastUsedPID + 1) = true := Function.update_self _ _ _
  have headBumped : (s.bump parent).firstProcess = some first := head
  simp only [ProcessTable.fork, newProcess, found, referenceProcess, store_of_allocated liveParent, headBumped,
    Option.bind_eq_bind, Option.bind_some, store_of_allocated firstLive]
  exact congrArg (Option.bind · _) (store_of_allocated newLive _)

theorem Sound.counted_forked (sound : s.Sound) (older : parent ≤ s.lastUsedPID) (liveParent : s.allocated parent = true)
    (head : s.firstProcess = some first) (isListed : s.processes first = true) (headPrev : s.prev first = none) :
    (s.forked parent first).Counted 0 := by
  obtain ⟨newUnlisted, newUnthreaded, newNotInit⟩ := sound.newPID
  have firstOld := (sound.old first isListed).2
  have firstOther : first ≠ s.lastUsedPID + 1 := by omega
  have created : ((s.bump parent).create parent first).Counted (0 + points (some parent) - points (some parent) +
      points (some (s.lastUsedPID + 1))) :=
    (sound.counted.bump liveParent).create head (sound.fresh _ (Nat.lt_succ_self _)) newUnlisted older newUnthreaded
  have firstKept : ((s.bump parent).create parent first).processes first = true :=
    (Function.update_of_ne firstOther _ _).trans isListed
  have firstPrev : ((s.bump parent).create parent first).prev first = none :=
    (Function.update_of_ne firstOther _ _).trans headPrev
  have prefixed := created.setPrev firstKept (Nat.le_succ_of_le firstOld) (some (s.lastUsedPID + 1))
  have newLive : (((s.bump parent).create parent first).setPrev first (some (s.lastUsedPID + 1))).allocated
      (s.lastUsedPID + 1) = true := Function.update_self _ _ _
  have held := (prefixed.bump newLive).setThread newNotInit le_rfl (some (s.lastUsedPID + 1))
  have unthreaded : ((((s.bump parent).create parent first).setPrev first (some (s.lastUsedPID + 1))).bump
    (s.lastUsedPID + 1)).parentProcess (s.lastUsedPID + 1) = none := newUnthreaded
  refine held.congr fun q => ?_
  rw [firstPrev, unthreaded]
  simp only [Pi.add_apply, Pi.sub_apply, Pi.zero_apply, points_none]
  omega

/-- The new process comes before the others in the list. -/
theorem Sound.listed_forked {rest : List Nat} (sound : s.Sound)
    (linked : Chained s.next s.prev none (first :: rest) none) (falling : (first :: rest).Pairwise (· > ·))
    (members : ∀ q, q ∈ first :: rest ↔ s.processes q = true) :
    (s.forked parent first).Listed fun q => (s.forked parent first).processes q = true := by
  have newUnlisted := sound.newPID.1
  have chainOld : s.lastUsedPID + 1 ∉ first :: rest := fun member => by
    rw [(members _).mp member] at newUnlisted
    cases newUnlisted
  have unique : first ∉ rest := fun member => (List.pairwise_cons.mp falling).1 first member |>.ne rfl
  refine ⟨(s.lastUsedPID + 1) :: first :: rest, chained_push chainOld unique linked, rfl, ?_, fun q => ?_⟩
  · refine List.pairwise_cons.mpr ⟨fun q member => ?_, falling⟩
    exact Nat.lt_succ_of_le (sound.old q ((members q).mp member)).2
  · show q ∈ (s.lastUsedPID + 1) :: first :: rest ↔ Function.update s.processes (s.lastUsedPID + 1) true q = true
    by_cases here : q = s.lastUsedPID + 1
    · rw [here, Function.update_self]
      exact iff_of_true List.mem_cons_self rfl
    · rw [Function.update_of_ne here, List.mem_cons]
      exact (or_iff_right here).trans (members q)

theorem costs_forked (newFreed : s.allocated (s.lastUsedPID + 1) = false) : s.Costs (s.forked parent first) 0 := by
  have viaCreate : (s.bump parent).Costs ((s.bump parent).create parent first) 0 := costs_create newFreed
  have viaPrev : ((s.bump parent).create parent first).Costs
      (((s.bump parent).create parent first).setPrev first (some (s.lastUsedPID + 1))) 0 := costs_of_same rfl rfl
  have viaThread := costs_bump_zero (((s.bump parent).create parent first).setPrev first (some (s.lastUsedPID + 1)))
    (s.lastUsedPID + 1)
  have whole := (((costs_bump_zero s parent).trans viaCreate fun _ => le_rfl).trans viaPrev fun _ => le_rfl).trans
    viaThread fun _ => le_rfl
  refine Costs.mono (whole.trans (costs_of_same rfl rfl) fun _ => le_rfl) fun q => ?_
  simp only [Pi.add_apply, Pi.zero_apply]
  decide

theorem Sound.fork {caller : Nat} (sound : s.Sound) (running : s.parentProcess caller ≠ none) :
    ∃ s', s.fork caller = some s' ∧ s.Stepped s' 0 0 := by
  obtain ⟨parent, found⟩ := Option.ne_none_iff_exists'.mp running
  obtain ⟨parentSame, parentOld⟩ := sound.threads caller parent found
  obtain ⟨chain, linked, head, falling, members⟩ := sound.linked
  have liveParent := sound.allocated_of_thread found
  have newUnlisted := sound.newPID.1
  have newFreed := sound.fresh _ (Nat.lt_succ_self s.lastUsedPID)
  cases chain with
  | nil => exact absurd ((members 1).mpr sound.initListed) List.not_mem_nil
  | cons first rest =>
    have firstListed := (members first).mp List.mem_cons_self
    have liveFirst := sound.allocated_of_listed firstListed
    refine ⟨_, fork_eq found liveParent head liveFirst (sound.old first firstListed).2, ?_, ?_, ?_, ?_, ?_, Nat.le_succ _,
      costs_forked newFreed, ?_⟩
    · exact sound.of_entered (parentSame ▸ parentOld)
        (sound.counted_forked (parentSame ▸ parentOld) liveParent head firstListed linked.1)
        (sound.listed_forked linked falling members) rfl rfl rfl rfl fun q other => Function.update_of_ne other _ _
    · intro q isListed
      by_cases here : q = s.lastUsedPID + 1
      · exact .inr (by omega)
      · exact .inl ((Function.update_of_ne here _ _).symm.trans isListed)
    · intro q young old
      have here : q = s.lastUsedPID + 1 := Nat.le_antisymm old young
      show Function.update s.processes (s.lastUsedPID + 1) true q = true
      rw [here, Function.update_self]
    · intro _ q _ _ isListed _
      have other : q ≠ s.lastUsedPID + 1 := fun same => by
        rw [← same, isListed] at newUnlisted
        cases newUnlisted
      exact (Function.update_of_ne other _ _).trans isListed
    · intro q older _
      exact Function.update_of_ne (Nat.ne_of_lt (Nat.lt_add_one_of_le older)) _ _
    · intro q
      rw [Pi.zero_apply, Int.sub_zero]
      rfl

end Forking

/-- `u` is `s` after `p`'s neighbours were joined: the references of `p`'s two
pointers have gone to the neighbours, and those to `p` but for its entry are given back. -/
structure Unlinked (s u : ProcessTable) (p : Nat) : Prop where
  counted : u.Counted (points (some p) - points (s.next p) - points (s.prev p))
  linked : u.Listed fun q => s.processes q = true ∧ q ≠ p
  nextKept : u.next p = s.next p
  prevKept : u.prev p = s.prev p
  processes : u.processes = s.processes
  parent : u.parent = s.parent
  parentProcess : u.parentProcess = s.parentProcess
  lastUsedPID : u.lastUsedPID = s.lastUsedPID
  references : u.references = s.references
  memory : ∀ q, u.allocated q = true → s.allocated q = true
  stale : ∀ q, s.processes q = false → u.next q = s.next q
  costs : s.Costs u (points (some p))

/-- What `putProcess` leaves alone. -/
structure Quiet (s s' : ProcessTable) (drops : Nat → Int) : Prop where
  processes : s'.processes = s.processes
  firstProcess : s'.firstProcess = s.firstProcess
  lastUsedPID : s'.lastUsedPID = s.lastUsedPID
  parent : s'.parent = s.parent
  prev : s'.prev = s.prev
  next : s'.next = s.next
  parentProcess : s'.parentProcess = s.parentProcess
  references : s'.references = s.references
  memory : ∀ q, s'.allocated q = true → s.allocated q = true
  costs : s.Costs s' drops

theorem Counted.putProcess {extra extra' : Nat → Int} (counted : s.Counted extra) (live : s.allocated p = true)
    (after : ∀ q, extra' q = extra q - points (some p) q) :
    ∃ s', s.putProcess (some p) = some s' ∧ s'.Counted extra' ∧ s.Quiet s' (points (some p)) :=
  ⟨s.drop p, store_of_allocated live (·.drop p), (counted.drop live).congr after, processes_drop s p, firstProcess_drop s p,
    lastUsedPID_drop s p, parent_drop s p, prev_drop s p, next_drop s p, parentProcess_drop s p, references_drop s p,
    fun _ => memory_of_drop, costs_drop s p⟩

/-- Two references given back, of which one was taken before. -/
theorem costs_twice {t u : ProcessTable} (first : (s.bump p).Costs t (points (some p)))
    (second : t.Costs u (points (some p))) : s.Costs u (points (some p)) := by
  refine Costs.mono (((costs_bump s p).trans first (points_nonneg _)).trans second (points_nonneg _)) fun q => ?_
  simp only [Pi.add_apply, Pi.neg_apply]
  omega

/-- `putProcess` for `p`, once the pointer to it that was counted last leads to the process
`n` behind it, and then a new `prev` for `n`. -/
theorem Counted.rejoin {n : Nat} (counted : s.Counted (points (some p) - points (some n))) (apart : p ≠ n)
    (live : s.allocated p = true) (pListed : s.processes p = true) (pOld : p ≤ s.lastUsedPID)
    (nListed : s.processes n = true) (nOld : n ≤ s.lastUsedPID) (next : s.next p = some n) (pointer : Option Nat) :
    s.allocated n = true ∧ ∃ s', s.putProcess (some p) = some s' ∧ s'.Counted (-points (some n)) ∧
      s'.allocated n = true ∧ s.Quiet s' (points (some p)) ∧
      (s'.setPrev n pointer).Counted (-points (some n) + points (s.prev n) - points pointer) := by
  have borrowed : (-1 : Int) ≤ (points (some p) - points (some n)) n := by
    rw [Pi.sub_apply, points_self, points_of_ne apart]
    decide
  obtain ⟨s', put, after, quiet⟩ := counted.putProcess live fun q => show (-points (some n)) q = _ by
    simp only [Pi.sub_apply, Pi.neg_apply]; omega
  have nLive : s'.allocated n = true := by
    refine after.allocated_of_next (quiet.processes ▸ nListed) (quiet.processes ▸ pListed) (quiet.lastUsedPID ▸ pOld)
      ((congrFun quiet.next p).trans next) ?_
    rw [Pi.neg_apply, points_self]
  have joined := after.setPrev (quiet.processes ▸ nListed) (quiet.lastUsedPID ▸ nOld) pointer
  rw [quiet.prev] at joined
  exact ⟨counted.allocated_of_next nListed pListed pOld next borrowed, s', put, after, nLive, quiet, joined⟩

/-- The reference taken before the removal is given back. -/
theorem Sound.putBumped (sound : s.Sound) (live : s.allocated p = true) :
    ∃ s', (s.bump p).putProcess (some p) = some s' ∧ s'.Counted 0 ∧ (s.bump p).Quiet s' (points (some p)) := by
  apply Counted.putProcess (sound.counted.bump live) live
  intro q
  simp only [Pi.add_apply, Pi.zero_apply]
  omega

/-- Taking one member out of a list without duplicates. -/
theorem mem_without {front rest : List Nat} {listed : Nat → Prop} (unique : (front ++ p :: rest).Nodup)
    (members : ∀ q, q ∈ front ++ p :: rest ↔ listed q) (q : Nat) : q ∈ front ++ rest ↔ listed q ∧ q ≠ p := by
  have outside : p ∉ front ++ rest := (List.nodup_cons.mp (List.nodup_middle.mp unique)).1
  rw [← members, List.mem_append, List.mem_append, List.mem_cons, or_left_comm]
  refine ⟨fun member => ⟨.inr member, fun same => outside (List.mem_append.mpr (same ▸ member))⟩, fun both => ?_⟩
  exact both.1.resolve_left both.2

/-- Both ways to unlink end so: a quiet put, one pointer changed, another quiet put, and the `prev` of a neighbour. -/
theorem Unlinked.of_puts {s₂ t s₄ u : ProcessTable} (quiet₂ : (s.bump p).Quiet s₂ (points (some p)))
    (sameT : t = { s₂ with firstProcess := t.firstProcess, next := t.next }) (quiet₄ : t.Quiet s₄ (points (some p)))
    (sameU : u = { s₄ with prev := u.prev }) (counted : u.Counted (points (some p) - points (s.next p) - points (s.prev p)))
    (linked : u.Listed fun q => s.processes q = true ∧ q ≠ p) (nextKept : t.next p = s.next p)
    (prevKept : u.prev p = s.prev p) (stale : ∀ q, s.processes q = false → t.next q = s.next q) : s.Unlinked u p := by
  have next : u.next = t.next := by
    rw [sameU]
    exact quiet₄.next
  refine ⟨counted, linked, (congrFun next p).trans nextKept, prevKept, ?_, ?_, ?_, ?_, ?_, fun q live => ?_,
    fun q unlisted => (congrFun next q).trans (stale q unlisted), ?_⟩
  · rw [sameU]
    refine quiet₄.processes.trans ?_
    rw [sameT]
    exact quiet₂.processes
  · rw [sameU]
    refine quiet₄.parent.trans ?_
    rw [sameT]
    exact quiet₂.parent
  · rw [sameU]
    refine quiet₄.parentProcess.trans ?_
    rw [sameT]
    exact quiet₂.parentProcess
  · rw [sameU]
    refine quiet₄.lastUsedPID.trans ?_
    rw [sameT]
    exact quiet₂.lastUsedPID
  · rw [sameU]
    refine quiet₄.references.trans ?_
    rw [sameT]
    exact quiet₂.references
  · rw [sameU] at live
    have before := quiet₄.memory q live
    rw [sameT] at before
    exact quiet₂.memory q before
  · rw [sameU]
    have second := quiet₄.costs
    rw [sameT] at second
    exact costs_twice quiet₂.costs second

theorem Sound.unlinkFirst {n : Nat} {rest : List Nat} (sound : s.Sound)
    (linked : Chained s.next s.prev none (p :: n :: rest) none) (head : s.firstProcess = some p)
    (falling : (p :: n :: rest).Pairwise (· > ·)) (members : ∀ q, q ∈ p :: n :: rest ↔ s.processes q = true) :
    ∃ u, (s.bump p).unlinkFirst p = some u ∧ s.Unlinked u p := by
  obtain ⟨noPrev, hasNext, hasPrev, _, _⟩ := id linked
  replace hasNext : s.next p = some n := hasNext
  obtain ⟨above, below⟩ := List.pairwise_cons.mp falling
  have isListed := (members p).mp List.mem_cons_self
  have nextListed := (members n).mp (by simp)
  have old := (sound.old p isListed).2
  have apart : p ≠ n := (above n List.mem_cons_self).ne'
  have fresh : n ∉ rest := fun member => ((List.pairwise_cons.mp below).1 n member).ne rfl
  have live := sound.allocated_of_listed isListed
  obtain ⟨s₂, put₂, counted₂, quiet₂⟩ := sound.putBumped live
  have listed₂ : s₂.processes = s.processes := quiet₂.processes
  have next₂ : s₂.next = s.next := quiet₂.next
  have last₂ : s₂.lastUsedPID = s.lastUsedPID := quiet₂.lastUsedPID
  have first₂ : s₂.firstProcess = some p := quiet₂.firstProcess.trans head
  have live₂ : s₂.allocated p = true := counted₂.allocated_of_listed (listed₂ ▸ isListed) le_rfl
  have counted₃ : (s₂.setFirst (some n)).Counted (points (some p) - points (some n)) := by
    refine (counted₂.setFirst (some n)).congr fun q => ?_
    simp only [first₂, Pi.sub_apply, Pi.add_apply, Pi.zero_apply]
    omega
  obtain ⟨nextLive₃, s₄, put₄, _, nextLive₄, quiet₄, counted₅⟩ := counted₃.rejoin apart live₂ (listed₂ ▸ isListed)
    (last₂ ▸ old) (listed₂ ▸ nextListed) (last₂ ▸ (sound.old n nextListed).2) ((congrFun next₂ p).trans hasNext) none
  have next₄ : s₄.next = s.next := quiet₄.next.trans next₂
  have prev₂ : (s₂.setFirst (some n)).prev n = some p := (congrFun quiet₂.prev n).trans hasPrev
  have prev₄ : s₄.prev = s.prev := quiet₄.prev.trans quiet₂.prev
  refine ⟨s₄.setPrev n none, ?_, ?_⟩
  · have thirdFirst : (s₂.setFirst (some n)).firstProcess = some n := rfl
    have put₂' : (s.bump p).putProcess (s.bump p).firstProcess = some s₂ := by
      rw [← put₂]
      exact congrArg _ head
    simp only [ProcessTable.unlinkFirst, put₂', load_of_allocated live₂, next₂, hasNext, thirdFirst,
      load_of_allocated nextLive₃, prev₂, put₄, store_of_allocated nextLive₄, Option.bind_eq_bind,
      Option.bind_some]
  · refine .of_puts quiet₂ rfl quiet₄ rfl (counted₅.congr fun q => ?_) ?_ (congrFun next₂ p)
      ((Function.update_of_ne apart _ _).trans (congrFun prev₄ p)) fun q _ => congrFun next₂ q
    · rw [prev₂, hasNext, noPrev]
      simp only [Pi.sub_apply, Pi.add_apply, Pi.neg_apply, points_none]
      omega
    · refine ⟨n :: rest, ?_, quiet₄.firstProcess, below, @mem_without p [] _ _ falling.nodup members⟩
      have closed := chained_redirect_prev fresh linked.2.2 none
      rw [← next₄, ← prev₄] at closed
      exact closed

section Inner

variable {m n : Nat} {front rest : List Nat}

/-- A process in the middle of the list, and the two next to it. -/
structure Between (s : ProcessTable) (m p n : Nat) : Prop where
  nextM : s.next m = some p
  prevP : s.prev p = some m
  nextP : s.next p = some n
  prevN : s.prev n = some p
  mp : m ≠ p
  pn : p ≠ n
  mListed : s.processes m = true
  pListed : s.processes p = true
  nListed : s.processes n = true

theorem between_of_chained (linked : Chained s.next s.prev none (front ++ m :: p :: n :: rest) none)
    (falling : (front ++ m :: p :: n :: rest).Pairwise (· > ·))
    (members : ∀ q, q ∈ front ++ m :: p :: n :: rest ↔ s.processes q = true) : s.Between m p n := by
  obtain ⟨_, _, nextM, prevP, nextP, prevN, _, _⟩ := chained_append.mp linked
  have below := (List.pairwise_append.mp falling).2.1
  exact ⟨nextM, prevP, nextP, prevN, ((List.pairwise_cons.mp below).1 p List.mem_cons_self).ne',
    ((List.pairwise_cons.mp (List.pairwise_cons.mp below).2).1 n List.mem_cons_self).ne', (members m).mp (by simp),
    (members p).mp (by simp), (members n).mp (by simp)⟩

/-- The list without the process, once its neighbours are joined. -/
theorem listed_of_joined {u : ProcessTable} (linked : Chained s.next s.prev none (front ++ m :: p :: n :: rest) none)
    (head : s.firstProcess = (front ++ m :: p :: n :: rest).head?)
    (falling : (front ++ m :: p :: n :: rest).Pairwise (· > ·))
    (members : ∀ q, q ∈ front ++ m :: p :: n :: rest ↔ s.processes q = true)
    (next : u.next = Function.update s.next m (some n)) (prev : u.prev = Function.update s.prev n (some m))
    (first : u.firstProcess = s.firstProcess) : u.Listed fun q => s.processes q = true ∧ q ≠ p := by
  refine ⟨front ++ m :: n :: rest, ?_, ?_, ?_, fun q => ?_⟩
  · rw [next, prev]
    exact chained_unlink falling.nodup linked
  · refine first.trans (head.trans ?_)
    cases front <;> rfl
  · exact falling.sublist (List.Sublist.append_left (.cons_cons m (.cons p (.refl _))) front)
  · have regroup (rest : List Nat) : front ++ m :: rest = (front ++ [m]) ++ rest := by simp
    rw [regroup] at falling ⊢
    exact mem_without falling.nodup (fun q => regroup (p :: n :: rest) ▸ members q) q

theorem Sound.unlinkInner (sound : s.Sound) (linked : Chained s.next s.prev none (front ++ m :: p :: n :: rest) none)
    (head : s.firstProcess = (front ++ m :: p :: n :: rest).head?)
    (falling : (front ++ m :: p :: n :: rest).Pairwise (· > ·))
    (members : ∀ q, q ∈ front ++ m :: p :: n :: rest ↔ s.processes q = true) :
    ∃ u, (s.bump p).unlinkInner p = some u ∧ s.Unlinked u p := by
  obtain ⟨nextM, prevP, nextP, prevN, mp, pn, mListed, isListed, nListed⟩ := between_of_chained linked falling members
  have old := (sound.old p isListed).2
  have live := sound.allocated_of_listed isListed
  obtain ⟨s₂, put₂, counted₂, quiet₂⟩ := sound.putBumped live
  have listed₂ : s₂.processes = s.processes := quiet₂.processes
  have next₂ : s₂.next = s.next := quiet₂.next
  have last₂ : s₂.lastUsedPID = s.lastUsedPID := quiet₂.lastUsedPID
  have live₂ : s₂.allocated p = true := counted₂.allocated_of_listed (listed₂ ▸ isListed) le_rfl
  have mLive₂ : s₂.allocated m = true := counted₂.allocated_of_listed (listed₂ ▸ mListed) le_rfl
  -- `m` leads past `p`
  have next₃ : (s₂.setNext m (some n)).next p = some n :=
    (Function.update_of_ne mp.symm _ _).trans ((congrFun next₂ p).trans nextP)
  have counted₃ : (s₂.setNext m (some n)).Counted (points (some p) - points (some n)) := by
    refine (counted₂.setNext (listed₂ ▸ mListed) (last₂ ▸ (sound.old m mListed).2) (some n)).congr fun q => ?_
    simp only [next₂, nextM, Pi.sub_apply, Pi.add_apply, Pi.zero_apply]
    omega
  have prevN₃ : (s₂.setNext m (some n)).prev n = some p := (congrFun quiet₂.prev n).trans prevN
  have live₃ : (s₂.setNext m (some n)).allocated p = true := live₂
  -- and `n` back past it
  obtain ⟨nLive₃, s₄, put₄, counted₄, nLive₄, quiet₄, counted₅⟩ := counted₃.rejoin pn live₃ (listed₂ ▸ isListed)
    (last₂ ▸ old) (listed₂ ▸ nListed) (last₂ ▸ (sound.old n nListed).2) next₃ (some m)
  have prev₄ : s₄.prev = s.prev := quiet₄.prev.trans quiet₂.prev
  have next₄ : s₄.next = Function.update s.next m (some n) := by
    rw [quiet₄.next, ← next₂]
    rfl
  have prev₅ : (s₄.setPrev n (some m)).prev = Function.update s.prev n (some m) := by
    rw [← prev₄]
    rfl
  have live₄ : s₄.allocated p = true := by
    apply counted₄.allocated_of_listed (quiet₄.processes ▸ listed₂ ▸ isListed)
    rw [Pi.neg_apply, points_of_ne pn.symm]
    decide
  refine ⟨s₄.setPrev n (some m), ?_, .of_puts quiet₂ rfl quiet₄ rfl (counted₅.congr fun q => ?_)
    (listed_of_joined linked head falling members next₄ prev₅
      (quiet₄.firstProcess.trans quiet₂.firstProcess)) (next₃.trans nextP.symm)
    ((Function.update_of_ne pn _ _).trans (congrFun prev₄ p)) fun q unlisted => ?_⟩
  · have bumpLive : (s.bump p).allocated p = true := live
    have bumpMLive : (s.bump p).allocated m = true := sound.allocated_of_listed mListed
    have bumpPrev : (s.bump p).prev p = some m := prevP
    have bumpNext : (s.bump p).next m = some p := nextM
    simp only [ProcessTable.unlinkInner, load_of_allocated bumpLive, bumpPrev, load_of_allocated bumpMLive, bumpNext,
      put₂, load_of_allocated live₂, next₂, nextP, store_of_allocated mLive₂, load_of_allocated live₃, next₃,
      load_of_allocated nLive₃, prevN₃, put₄, load_of_allocated live₄, prev₄, prevP, store_of_allocated nLive₄,
      Option.bind_eq_bind, Option.bind_some]
  · rw [prevN₃, nextP, prevP]
    simp only [Pi.sub_apply, Pi.add_apply, Pi.neg_apply]
    omega
  · have other : q ≠ m := fun same => by
      rw [same, mListed] at unlisted
      cases unlisted
    exact (Function.update_of_ne other _ _).trans (congrFun next₂ q)

end Inner

/-- Joining the neighbours of any process but the first one made. -/
theorem Sound.unlink (sound : s.Sound) (isListed : s.processes p = true) (notInit : p ≠ 1) :
    ∃ u, (s.bump p).unlink p = some u ∧ s.Unlinked u p := by
  obtain ⟨chain, linked, head, falling, members⟩ := sound.linked
  have initOlder : 1 < p := lt_of_le_of_ne (sound.old p isListed).1 (Ne.symm notInit)
  obtain ⟨front, back, rfl⟩ := List.append_of_mem ((members p).mpr isListed)
  have bumpHead : (s.bump p).firstProcess = s.firstProcess := rfl
  cases back with
  | nil =>
    -- every process but the first one made has an older one behind it
    have init : 1 ∈ front := by
      have member := (members 1).mpr sound.initListed
      rw [List.mem_append, List.mem_singleton] at member
      exact member.resolve_right (Ne.symm notInit)
    have later := (List.pairwise_append.mp falling).2.2 1 init p (by simp)
    omega
  | cons n rest =>
    rcases List.eq_nil_or_concat front with rfl | ⟨earlier, m, rfl⟩
    · have first : s.firstProcess = some p := head
      rw [ProcessTable.unlink, bumpHead, if_pos first]
      exact sound.unlinkFirst linked head falling members
    · have shape : (earlier ++ [m]) ++ p :: n :: rest = earlier ++ m :: p :: n :: rest := by simp
      rw [List.concat_eq_append, shape] at linked head falling
      have notHead : s.firstProcess ≠ some p := by
        intro first
        have member : p ∈ earlier ++ [m] := by
          cases earlier with
          | nil => rw [first] at head; simp at head; simp [head]
          | cons a _ => rw [first] at head; simp at head; simp [head]
        have before := (List.pairwise_append.mp (shape ▸ falling)).2.2 p member p (by simp)
        omega
      rw [ProcessTable.unlink, bumpHead, if_neg notHead]
      refine sound.unlinkInner linked head falling fun q => ?_
      rw [← shape]
      simpa using members q

/-- Giving back what a process holds of its parent. -/
theorem Counted.putParent (counted : s.Counted (points (some p))) (old : p ≤ s.lastUsedPID)
    (older : ∀ r, s.parent p = some r → r < p) :
    ∃ s', s.putProcess (s.parent p) = some s' ∧ s'.Counted (points (some p) - points (s.parent p)) ∧
      s.Quiet s' (points (s.parent p)) ∧ s'.allocated p = true := by
  cases found : s.parent p with
  | none =>
    refine ⟨s, rfl, counted.congr fun q => ?_, ⟨rfl, rfl, rfl, rfl, rfl, rfl, rfl, rfl, fun _ live => live, ?_⟩, ?_⟩
    · rw [Pi.sub_apply, points_none, Int.sub_zero]
    · exact costs_of_same rfl rfl
    · have held := holders_nonneg s p
      apply counted.allocated_iff.mpr
      rw [points_self]
      omega
  | some r =>
    have live := counted.allocated_of_parent old found (points_nonneg _ _)
    obtain ⟨s', put, after, quiet⟩ := counted.putProcess live fun q => show (points (some p) - points (some r)) q = _ from rfl
    refine ⟨s', put, after, quiet, after.allocated_iff.mpr ?_⟩
    have held := holders_nonneg s' p
    rw [Pi.sub_apply, points_self, points_of_ne (older r found).ne]
    omega

/-- `s'` is `u` after `p` was taken out of the table, let go of its parent, and was put for
its entry and by the caller. -/
structure Forgotten (u s' : ProcessTable) (p : Nat) : Prop where
  counted : s'.Counted 0
  processes : s'.processes = Function.update u.processes p false
  parent : s'.parent = Function.update u.parent p none
  firstProcess : s'.firstProcess = u.firstProcess
  lastUsedPID : s'.lastUsedPID = u.lastUsedPID
  next : s'.next = u.next
  prev : s'.prev = u.prev
  parentProcess : s'.parentProcess = u.parentProcess
  references : s'.references = u.references
  memory : ∀ q, s'.allocated q = true → u.allocated q = true
  costs : u.Costs s' (points (some p) + points (u.parent p) + points (some p))

/-- The second half of `removePid`. -/
theorem Unlinked.forget {u : ProcessTable} (unlinked : s.Unlinked u p) (isListed : u.processes p = true)
    (old : p ≤ u.lastUsedPID) (older : ∀ r, u.parent p = some r → r < p) :
    ∃ v w s', (u.unlist p).putProcess (some p) = some v ∧ v.allocated p = true ∧ v.putProcess (v.parent p) = some w ∧
      w.allocated p = true ∧ (w.setParent p none).putProcess (some p) = some s' ∧ Forgotten u s' p := by
  have left : (u.unlist p).Counted (points (some p) + points (some p)) := by
    refine (unlinked.counted.unlist isListed old).congr fun q => ?_
    rw [unlinked.nextKept, unlinked.prevKept]
    simp only [Pi.add_apply, Pi.sub_apply]
    omega
  have held := holders_nonneg (u.unlist p) p
  have leftLive : (u.unlist p).allocated p = true := by
    apply left.allocated_iff.mpr
    rw [Pi.add_apply, points_self]
    omega
  obtain ⟨v, put, counted, quiet⟩ := left.putProcess leftLive fun q => show points (some p) q = _ by
    rw [Pi.add_apply]; omega
  have vLive : v.allocated p = true := by
    have vHeld := holders_nonneg v p
    apply counted.allocated_iff.mpr
    rw [points_self]
    omega
  have vParent : v.parent = u.parent := quiet.parent
  obtain ⟨w, putParent, orphaned, still, wLive⟩ := counted.putParent (quiet.lastUsedPID ▸ old)
    fun r found => older r (vParent ▸ found)
  have wParent : w.parent = u.parent := still.parent.trans vParent
  have cleared : (w.setParent p none).Counted (points (some p)) := by
    refine (orphaned.setParent ((still.lastUsedPID.trans quiet.lastUsedPID) ▸ old) none).congr fun q => ?_
    rw [wParent, vParent]
    simp only [Pi.add_apply, Pi.sub_apply, points_none]
    omega
  obtain ⟨s', putLast, done, last⟩ := cleared.putProcess wLive fun q => show (0 : Nat → Int) q = _ by
    rw [Pi.zero_apply]; omega
  refine ⟨v, w, s', put, vLive, putParent, wLive, putLast, done, ?_, ?_, last.firstProcess.trans
    (still.firstProcess.trans quiet.firstProcess), last.lastUsedPID.trans (still.lastUsedPID.trans quiet.lastUsedPID),
    last.next.trans (still.next.trans quiet.next), last.prev.trans (still.prev.trans quiet.prev),
    last.parentProcess.trans (still.parentProcess.trans quiet.parentProcess),
    last.references.trans (still.references.trans quiet.references),
    fun q stays => quiet.memory q (still.memory q (last.memory q stays)), ?_⟩
  · exact last.processes.trans (still.processes.trans quiet.processes)
  · rw [last.parent, ← wParent]
    rfl
  · have leaving : u.Costs (u.unlist p) 0 := costs_of_same rfl rfl
    have clearing : w.Costs (w.setParent p none) 0 := costs_of_same rfl rfl
    have whole := (((leaving.trans quiet.costs (points_nonneg _)).trans still.costs (points_nonneg _)).trans clearing
      fun _ => le_rfl).trans last.costs (points_nonneg _)
    refine whole.mono fun q => ?_
    simp only [vParent, Pi.add_apply, Pi.zero_apply]
    omega

theorem Sound.removePid (sound : s.Sound) (notInit : p ≠ 1) :
    ∃ s', s.removePid p = some s' ∧ s.Stepped s' (s.drops (.removePid p)) 0 := by
  unfold ProcessTable.removePid
  by_cases isListed : s.processes p = true
  · obtain ⟨u, unlinks, unlinked⟩ := sound.unlink isListed notInit
    have live := sound.allocated_of_listed isListed
    obtain ⟨v, w, s', put, vLive, putParent, wLive, putLast, forgotten⟩ := unlinked.forget
      (unlinked.processes ▸ isListed) (unlinked.lastUsedPID ▸ (sound.old p isListed).2)
      fun r found => sound.parents p r (unlinked.parent ▸ found)
    have processes : s'.processes = Function.update s.processes p false := by
      rw [forgotten.processes, unlinked.processes]
    have parent : s'.parent = Function.update s.parent p none := by
      rw [forgotten.parent, unlinked.parent]
    have lastUsed : s'.lastUsedPID = s.lastUsedPID := forgotten.lastUsedPID.trans unlinked.lastUsedPID
    refine ⟨s', ?_, ?_, ?_, ?_, ?_, ?_, lastUsed.ge, ?_, ?_⟩
    · rw [if_pos isListed]
      simp only [referenceProcess, store_of_allocated live, Option.bind_eq_bind, Option.bind_some, unlinks, put,
        load_of_allocated vLive, putParent, store_of_allocated wLive, putLast]
    · refine sound.of_removed isListed notInit forgotten.counted ?_ lastUsed processes parent
        (forgotten.parentProcess.trans unlinked.parentProcess) fun q stays => unlinked.memory q (forgotten.memory q stays)
      obtain ⟨chain, linked, head, falling, members⟩ := unlinked.linked
      refine ⟨chain, ?_, forgotten.firstProcess.trans head, falling, fun q => (members q).trans ?_⟩
      · rw [forgotten.next, forgotten.prev]
        exact linked
      · show (s.processes q = true ∧ q ≠ p) ↔ s'.processes q = true
        rw [processes]
        by_cases here : q = p
        · rw [here, Function.update_self]
          exact iff_of_false (fun both => both.2 rfl) Bool.false_ne_true
        · rw [Function.update_of_ne here]
          exact and_iff_left here
    · intro q stays
      rw [processes] at stays
      by_cases here : q = p
      · exact .inl (here ▸ isListed)
      · exact .inl ((Function.update_of_ne here _ _).symm.trans stays)
    · intro q young old
      rw [lastUsed] at old
      exact absurd old (Nat.not_le.mpr young)
    · intro r q isListedR gone isListedQ other
      rw [processes] at gone ⊢
      by_cases here : r = p
      · rw [Function.update_of_ne (here ▸ other)]
        exact isListedQ
      · rw [Function.update_of_ne here, isListedR] at gone
        cases gone
    · intro q _ unlisted
      rw [forgotten.next]
      rw [processes] at unlisted
      by_cases here : q = p
      · rw [here]
        exact unlinked.nextKept
      · exact unlinked.stale q ((Function.update_of_ne here _ _).symm.trans unlisted)
    · have positive : ∀ q, (0 : Int) ≤ (points (some p) + points (u.parent p) + points (some p)) q := fun q =>
        Int.add_nonneg (Int.add_nonneg (points_nonneg _ q) (points_nonneg _ q)) (points_nonneg _ q)
      refine (unlinked.costs.trans forgotten.costs positive).mono fun q => ?_
      simp only [drops, if_pos isListed, unlinked.parent, Pi.add_apply]
      omega
    · intro q
      rw [forgotten.references, unlinked.references, Pi.zero_apply, Int.sub_zero]
  · rw [if_neg isListed]
    refine ⟨s, rfl, sound, fun _ => .inl, fun _ young old => absurd old (Nat.not_le.mpr young),
      fun _ _ _ _ member _ => member, fun _ _ _ => rfl, le_rfl, ?_, fun q => by rw [Pi.zero_apply, Int.sub_zero]⟩
    refine Costs.mono (costs_of_same rfl rfl) fun q => ?_
    simp only [drops, if_neg isListed, Pi.zero_apply]
    decide

end Steps

private theorem absent {q : Nat} (init : q ≠ 1) : Function.update (fun _ : Nat => false) 1 true q = false :=
  Function.update_of_ne init _ _

private theorem detached {thread : Nat} (init : thread ≠ 1) : createNewTask.parentProcess thread = none :=
  show Function.update (fun _ => none) 1 (some 1) thread = none from Function.update_of_ne init _ _

theorem sound_createNewTask : createNewTask.Sound where
  counted q := by
    have unlinked : ofListed createNewTask.processes (fun _ => none) = fun _ => none := by
      funext p
      exact ite_self none
    have unthreaded : ofThreads createNewTask.parentProcess = fun _ => none := by
      funext thread
      unfold ofThreads
      split
      · rfl
      · exact detached ‹_›
    have held : createNewTask.holders q = entry createNewTask.processes q + points (some 1) q := by
      rw [holders, unthreaded]
      show _ + _ + pointersTo _ (ofListed _ fun _ => none) q + pointersTo _ (ofListed _ fun _ => none) q +
        pointersTo _ (fun _ => none) q + _ + ((0 : Nat) : Int) = _
      rw [unlinked, pointersTo_none]
      show _ + points (some 1) q + 0 + 0 + 0 + 0 + ((0 : Nat) : Int) = _
      omega
    rw [held, Pi.zero_apply]
    by_cases init : q = 1
    · rw [init]
      exact .inl ⟨rfl, by decide, rfl⟩
    · have unlisted : entry createNewTask.processes q = 0 := if_neg (ne_true_of_eq_false (absent init))
      have freed : createNewTask.allocated q = false := absent init
      rw [unlisted, points_of_ne (Ne.symm init)]
      exact .inr ⟨freed, rfl⟩
  linked := by
    refine ⟨[1], ⟨rfl, rfl, trivial⟩, rfl, List.pairwise_singleton _ _, fun q => ?_⟩
    show q ∈ [1] ↔ Function.update (fun _ => false) 1 true q = true
    by_cases init : q = 1
    · rw [init, Function.update_self]
      exact iff_of_true List.mem_cons_self rfl
    · rw [Function.update_of_ne init, List.mem_singleton]
      exact iff_of_false init Bool.false_ne_true
  initListed := rfl
  old q isListed := by
    by_cases init : q = 1
    · rw [init]
      exact ⟨le_rfl, le_rfl⟩
    · exact absurd isListed (ne_true_of_eq_false (absent init))
  fresh _ young := absent (Nat.ne_of_gt young)
  orphan _ _ := rfl
  parents _ _ child := by cases child
  threads thread p attached := by
    by_cases init : thread = 1
    · rw [init] at attached ⊢
      exact ⟨(Option.some.inj attached).symm, le_rfl⟩
    · rw [detached init] at attached
      cases attached

/-- The references that holders give back themselves. -/
def givenBack : Action → Nat → Int
  | .putProcess pid => points (some pid)
  | _ => 0

theorem sound_step {s : ProcessTable} {action : Action} (sound : s.Sound) (allowed : s.Allowed action) :
    ∃ s', s.step action = some s' ∧ s.Stepped s' (s.drops action) (givenBack action) := by
  cases action with
  | fork caller => exact sound.fork allowed
  | getProcess pid => exact sound.getProcess pid
  | putProcess pid =>
    obtain ⟨s', result, stepped, _⟩ := sound.giveBack allowed
    exact ⟨s', result, stepped⟩
  | exit thread => exact sound.terminateThread allowed.1 allowed.2
  | removePid pid => exact sound.removePid allowed

theorem sound_run {s s' : ProcessTable} {actions : List Action} (sound : s.Sound) (run : Run s actions s') :
    s'.Sound := by
  induction run with
  | start => exact sound
  | step _ allowed result ih =>
    obtain ⟨after, found, kept⟩ := sound_step ih allowed
    rw [found] at result
    exact Option.some.inj result ▸ kept.sound

/-- After any run the list holds the processes of the table, every process `fork`
made has as many references as holders and is freed once it has none, and a
further call reads no freed process and frees exactly those whose last holder it
drops. -/
theorem reference_counts_equal_holders {s : ProcessTable} {actions : List Action}
    (run : Run createNewTask actions s) :
    (s.Listed fun q => s.processes q = true) ∧
      (∀ q, 2 ≤ q → s.allocated q = true → s.refCount q = s.holders q) ∧
      (∀ q, 2 ≤ q → (s.allocated q = true ↔ 0 < s.holders q)) ∧
      ∀ action, s.Allowed action → ∃ s', s.step action = some s' ∧
        ∀ q, 2 ≤ q → ((s.allocated q = true ∧ s'.allocated q = false) ↔ (0 < s.holders q ∧ s'.holders q = 0)) := by
  have sound := sound_run sound_createNewTask run
  have allocated {t : ProcessTable} (sound : t.Sound) (q : Nat) : t.allocated q = true ↔ 0 < t.holders q := by
    rw [sound.counted.allocated_iff, Pi.zero_apply, Int.add_zero]
  refine ⟨sound.linked, fun q _ live => ?_, fun q _ => allocated sound q, fun action allowed => ?_⟩
  · exact (sound.counted.refCount_eq live).trans (Int.add_zero _)
  · obtain ⟨s', result, after⟩ := sound_step sound allowed
    refine ⟨s', result, fun q _ => and_congr (allocated sound q) ?_⟩
    have none := holders_nonneg s' q
    rw [← Bool.not_eq_true, allocated after.sound]
    omega

/-- The child exits and is reaped, and nothing of it is left. -/
theorem reaped_child_is_freed : ∃ s, Run createNewTask [.fork 1, .exit 2, .removePid 2] s ∧
    s.allocated 2 = false ∧ s.holders 2 = 0 ∧ s.allocated 1 = true := by
  have run : ∃ s, Run createNewTask [.fork 1, .exit 2, .removePid 2] s ∧ s.allocated 2 = false ∧
      s.allocated 1 = true :=
    ⟨_, .step (.step (.step (.start createNewTask) (by decide) rfl) (by decide) rfl) (by decide) rfl, rfl, rfl⟩
  obtain ⟨s, steps, freed, kept⟩ := run
  have unheld := ((reference_counts_equal_holders steps).2.2.1 2 le_rfl).not.mp (by rw [freed]; exact Bool.false_ne_true)
  exact ⟨s, steps, freed, le_antisymm (Int.not_lt.mp unheld) (holders_nonneg s 2), kept⟩

end FluxOS.ProcessTable
