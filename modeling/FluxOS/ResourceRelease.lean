import FluxOS.Task

/-! Who gives back what a process owns: its `MemoryContext` and its reference to
the working directory. `terminateProcess` gives them back each time it is called,
and `kill` leaves the thread of the killed process running. -/
namespace FluxOS
open ProcessUAPI

def echild : Nat := 10

/-- A process as its end sees it. `attached`: the `parentProcess` of its main
thread still points to it. -/
structure EndingProcess where
  uid : Nat
  parent : Option Nat
  status : TaskStatus
  exitStatus : Int
  attached : Bool
  deriving DecidableEq, Repr

/-- The processes ever made, with the table of those not removed. For each of
them: how often its `MemoryContext` was deleted and its working directory was
put, and how often the deleted context was used. `lastUsedPID` is an `int` in the
source, which has room for `2 ^ 31 - 2` forks. -/
structure ProcessLives where
  made : Nat → Option EndingProcess
  processes : Nat → Bool
  lastUsedPID : Nat
  deleted : Nat → Nat
  cwdPut : Nat → Nat
  usedDeleted : Nat → Nat

/-- A system call returns, waits, panics the kernel, or follows a null pointer. -/
inductive Outcome where
  | returns (s : ProcessLives) (value : Int)
  | waits (s : ProcessLives)
  | panics
  | faults

namespace ProcessLives

def increment (count : Nat → Nat) (pid : Nat) : Nat → Nat := Function.update count pid (count pid + 1)

/-- A use of the `MemoryContext` of a process. -/
def useContext (s : ProcessLives) (pid : Nat) : ProcessLives :=
  if s.deleted pid = 0 then s else { s with usedDeleted := increment s.usedDeleted pid }

def setMade (s : ProcessLives) (pid : Nat) (process : EndingProcess) : ProcessLives :=
  { s with made := Function.update s.made pid (some process) }

@[simp] theorem made_setMade_self (s : ProcessLives) (pid : Nat) (process : EndingProcess) :
    (s.setMade pid process).made pid = some process := Function.update_self _ _ _

theorem made_setMade_of_ne {pid q : Nat} (other : q ≠ pid) (s : ProcessLives) (process : EndingProcess) :
    (s.setMade pid process).made q = s.made q := Function.update_of_ne other _ _

theorem increment_self (count : Nat → Nat) (pid : Nat) : increment count pid pid = count pid + 1 :=
  Function.update_self _ _ _

theorem increment_of_ne {pid q : Nat} (other : q ≠ pid) (count : Nat → Nat) : increment count pid q = count q :=
  Function.update_of_ne other _ _

/-- The first process. -/
def first : ProcessLives where
  made := Function.update (fun _ => none) 1 (some ⟨0, none, .ready, 0, true⟩)
  processes := Function.update (fun _ => false) 1 true
  lastUsedPID := 1
  deleted := fun _ => 0
  cwdPut := fun _ => 0
  usedDeleted := fun _ => 0

/-- `terminateProcess` on the main thread of `pid`. Deleting the context is a use of it. -/
def terminateProcess (s : ProcessLives) (pid : Nat) (exitStatus : Int) : Outcome :=
  match s.made pid with
  | none => .faults
  | some process =>
    if process.attached then
      if pid = 1 then .panics
      else
        let s := s.useContext pid
        let s := { s with deleted := increment s.deleted pid, cwdPut := increment s.cwdPut pid }
        .returns (s.setMade pid { process with exitStatus := exitStatus, status := .terminated }) 0
    else .faults

/-- `fork`; `enough`: there is memory for the thread and the process. -/
def fork (s : ProcessLives) (caller : Nat) (enough : Bool) : Outcome :=
  match s.made caller with
  | none => .faults
  | some parent =>
    if enough then
      let pid := s.lastUsedPID + 1
      .returns
        { s.setMade pid ⟨parent.uid, some caller, .ready, 0, true⟩ with
          processes := Function.update s.processes pid true
          lastUsedPID := pid } pid
    else .returns s (-enomem)

/-- What `kill` asks before it comes to `terminateProcess`. -/
def Kills (s : ProcessLives) (caller pid : Nat) (signal : Int) : Prop :=
  s.processes pid = true ∧ (∃ current target, s.made caller = some current ∧ s.made pid = some target ∧
    (current.uid = 0 ∨ current.uid = target.uid)) ∧ (signal = sigkill ∨ signal = sigsegv)

def kill (s : ProcessLives) (caller pid : Nat) (signal : Int) : Outcome :=
  if s.processes pid then
    match s.made pid, s.made caller with
    | some target, some currentProcess =>
      if currentProcess.uid ≠ 0 ∧ currentProcess.uid ≠ target.uid then .returns s (-eperm)
      else if signal = sigkill ∨ signal = sigsegv then s.terminateProcess pid (-1)
      else .returns s (-einval)
    | _, _ => .faults
  else .returns s (-esrch)

/-- `exit`: the thread lets go of the process and never runs again. -/
def exit (s : ProcessLives) (caller : Nat) (exitStatus : Int) : Outcome :=
  match s.terminateProcess caller exitStatus with
  | .returns s value =>
    match s.made caller with
    | some process => .returns (s.setMade caller { process with attached := false }) value
    | none => .faults
  | other => other

def removePid (s : ProcessLives) (pid : Nat) : ProcessLives :=
  match s.made pid with
  | some process =>
    { s.setMade pid { process with parent := none } with processes := Function.update s.processes pid false }
  | none => s

/-- A terminated child that `waitpid` may take. -/
def terminatedChild (s : ProcessLives) (caller pid : Nat) : Bool :=
  s.processes pid && (s.made pid).any fun process => process.status = .terminated && process.parent = some caller

/-- The child `waitpid` is after, or its error. For `-1` the list is walked from the newest process on. -/
def awaited (s : ProcessLives) (caller : Nat) (pid : Int) : Except Int (Option Nat) :=
  if pid = -1 then .ok ((List.range (s.lastUsedPID + 1)).reverse.find? (s.terminatedChild caller))
  else if s.processes pid.toNat && (s.made pid.toNat).any fun process => process.parent = some caller then
    .ok (if s.terminatedChild caller pid.toNat then some pid.toNat else none)
  else .error (-echild)

/-- `waitpid`. `writable`: the status pointer passes the check; `pageFault`: writing
through it takes a page fault, which the caller's `MemoryContext` answers;
`written`: the write succeeds. -/
def waitpid (s : ProcessLives) (caller : Nat) (pid : Int) (writable pageFault written : Bool) : Outcome :=
  if writable then
    match s.awaited caller pid with
    | .error code => .returns s code
    | .ok none => .waits s
    | .ok (some child) =>
      let s := if pageFault then s.useContext caller else s
      if written then .returns (s.removePid child) child else .returns s (-efault)
  else .returns s (-efault)

/-- What the thread does with its `MemoryContext`: a page fault, or `mmap`, `munmap`, `brk` or `mprotect` behind their
first checks. `refused`: it is a page fault that ends in `segmentationFault`, which kills the process. -/
def useMemory (s : ProcessLives) (caller : Nat) (refused : Bool) : Outcome :=
  let s := s.useContext caller
  if refused then s.kill caller caller sigsegv else .returns s 0

inductive Call where
  | fork (caller : Nat) (enough : Bool)
  | kill (caller pid : Nat) (signal : Int)
  | exit (caller : Nat) (exitStatus : Int)
  | waitpid (caller : Nat) (pid : Int) (writable pageFault written : Bool)
  | useMemory (caller : Nat) (refused : Bool)

def Call.caller : Call → Nat
  | .fork caller _ => caller
  | .kill caller _ _ => caller
  | .exit caller _ => caller
  | .waitpid caller _ _ _ _ => caller
  | .useMemory caller _ => caller

def step (s : ProcessLives) : Call → Outcome
  | .fork caller enough => s.fork caller enough
  | .kill caller pid signal => s.kill caller pid signal
  | .exit caller exitStatus => s.exit caller exitStatus
  | .waitpid caller pid writable pageFault written => s.waitpid caller pid writable pageFault written
  | .useMemory caller refused => s.useMemory caller refused

/-- The thread of the process can still run. -/
def Runs (s : ProcessLives) (pid : Nat) : Prop := ∃ process, s.made pid = some process ∧ process.attached = true

def Terminated (s : ProcessLives) (pid : Nat) : Prop :=
  ∃ process, s.made pid = some process ∧ process.status = .terminated

/-- `exit` and the killing of a process come for one that has not ended before, and
neither `waitpid` nor the thread itself uses the memory of a process that has. -/
def Timely (s : ProcessLives) : Call → Prop
  | .fork _ _ => True
  | .kill caller pid signal => s.Kills caller pid signal → ¬ s.Terminated pid
  | .exit caller _ => ¬ s.Terminated caller
  | .waitpid caller pid writable pageFault _ =>
    writable = true → pageFault = true → (∃ child, s.awaited caller pid = .ok (some child)) → ¬ s.Terminated caller
  | .useMemory caller _ => ¬ s.Terminated caller

/-- Nothing was given back twice, and no deleted context was used. -/
def ReleasedOnce (s : ProcessLives) : Prop := ∀ pid, s.deleted pid ≤ 1 ∧ s.cwdPut pid ≤ 1 ∧ s.usedDeleted pid = 0

end ProcessLives

/-- What a call leaves is released once, and no null pointer was followed. -/
def Outcome.ReleasedOnce : Outcome → Prop
  | .returns s _ => s.ReleasedOnce
  | .waits s => s.ReleasedOnce
  | .panics => True
  | .faults => False

namespace ProcessLives

/-- `s'` is reached from `s` by timely calls of threads that can run. -/
inductive Run : ProcessLives → List Call → ProcessLives → Prop where
  | start (s : ProcessLives) : Run s [] s
  | step {s s' s'' : ProcessLives} {calls : List Call} {call : Call} {value : Int} (before : Run s calls s')
      (runs : s'.Runs call.caller) (timely : s'.Timely call) (result : s'.step call = .returns s'' value) :
      Run s (calls ++ [call]) s''

/-- A process that has not ended owns its resources and has its thread; one that
has ended gave them back once. -/
structure Sound (s : ProcessLives) : Prop where
  living : ∀ pid process, s.made pid = some process → process.status ≠ .terminated →
    process.attached = true ∧ s.deleted pid = 0 ∧ s.cwdPut pid = 0
  ended : ∀ pid process, s.made pid = some process → process.status = .terminated →
    s.deleted pid = 1 ∧ s.cwdPut pid = 1
  unmade : ∀ pid, s.made pid = none → s.deleted pid = 0 ∧ s.cwdPut pid = 0
  unused : ∀ pid, s.usedDeleted pid = 0
  old : ∀ pid, s.lastUsedPID < pid → s.made pid = none
  listed : ∀ pid, s.processes pid = true → s.made pid ≠ none
  init : ¬ s.Terminated 1

end ProcessLives

def Outcome.Sound : Outcome → Prop
  | .returns s _ => s.Sound
  | .waits s => s.Sound
  | .panics => True
  | .faults => False

namespace ProcessLives

section Calls

variable {s s' : ProcessLives} {caller pid : Nat}

theorem Sound.deleted_eq_zero_iff (sound : s.Sound) : s.deleted pid = 0 ↔ ¬ s.Terminated pid := by
  constructor
  · rintro none ⟨process, found, terminated⟩
    have once := (sound.ended pid process found terminated).1
    omega
  · intro alive
    cases found : s.made pid with
    | none => exact (sound.unmade pid found).1
    | some process => exact (sound.living pid process found fun ended => alive ⟨process, found, ended⟩).2.1

/-- A process record may change as long as what its end did is still told by its status. -/
theorem Sound.setMade {process after : EndingProcess} (sound : s.Sound) (found : s.made pid = some process)
    (status : after.status = process.status)
    (attached : after.status ≠ .terminated → after.attached = process.attached) : (s.setMade pid after).Sound where
  living q other here alive := by
    by_cases same : q = pid
    · rw [same, made_setMade_self] at here
      cases here
      rw [same]
      obtain ⟨runs, owned⟩ := sound.living pid process found (status ▸ alive)
      exact ⟨(attached alive).trans runs, owned⟩
    · exact sound.living q other ((made_setMade_of_ne same s after).symm.trans here) alive
  ended q other here terminated := by
    by_cases same : q = pid
    · rw [same, made_setMade_self] at here
      cases here
      exact same ▸ sound.ended pid process found (status ▸ terminated)
    · exact sound.ended q other ((made_setMade_of_ne same s after).symm.trans here) terminated
  unmade q missing := by
    by_cases same : q = pid
    · rw [same, made_setMade_self] at missing
      cases missing
    · exact sound.unmade q ((made_setMade_of_ne same s after).symm.trans missing)
  unused := sound.unused
  old q young := by
    by_cases same : q = pid
    · rw [← same, sound.old q young] at found
      cases found
    · exact (made_setMade_of_ne same s after).trans (sound.old q young)
  listed q isListed := by
    by_cases same : q = pid
    · rw [same, made_setMade_self]
      exact Option.some_ne_none after
    · rw [made_setMade_of_ne same]
      exact sound.listed q isListed
  init := by
    rintro ⟨other, here, terminated⟩
    by_cases same : 1 = pid
    · rw [same, made_setMade_self] at here
      cases here
      exact sound.init ⟨process, same ▸ found, status ▸ terminated⟩
    · exact sound.init ⟨other, (made_setMade_of_ne same s after).symm.trans here, terminated⟩

theorem useContext_of_owned (owned : s.deleted pid = 0) : s.useContext pid = s := if_pos owned

/-- Ending a process that had not ended gives its resources back for the first time. -/
theorem Sound.terminateProcess {process : EndingProcess} (sound : s.Sound) (found : s.made pid = some process)
    (alive : process.status ≠ .terminated) (notInit : pid ≠ 1) (exitStatus : Int) :
    ∃ s', s.terminateProcess pid exitStatus = .returns s' 0 ∧ s'.Sound ∧
      s'.made pid = some { process with exitStatus := exitStatus, status := .terminated } := by
  obtain ⟨attached, context, cwd⟩ := sound.living pid process found alive
  refine ⟨_, by simp only [ProcessLives.terminateProcess, found, attached, if_true, if_neg notInit,
    useContext_of_owned context]; rfl, ?_, made_setMade_self _ _ _⟩
  constructor
  · intro q other here living
    by_cases same : q = pid
    · rw [same, made_setMade_self] at here
      cases here
      exact absurd rfl living
    · have untouched := sound.living q other ((made_setMade_of_ne same _ _).symm.trans here) living
      rw [← increment_of_ne same s.deleted, ← increment_of_ne same s.cwdPut] at untouched
      exact untouched
  · intro q other here terminated
    by_cases same : q = pid
    · have once := increment_self s.deleted pid
      have put := increment_self s.cwdPut pid
      rw [context] at once
      rw [cwd] at put
      rw [same]
      exact ⟨once, put⟩
    · have untouched := sound.ended q other ((made_setMade_of_ne same _ _).symm.trans here) terminated
      rw [← increment_of_ne same s.deleted, ← increment_of_ne same s.cwdPut] at untouched
      exact untouched
  · intro q missing
    by_cases same : q = pid
    · rw [same, made_setMade_self] at missing
      cases missing
    · have untouched := sound.unmade q ((made_setMade_of_ne same _ _).symm.trans missing)
      rw [← increment_of_ne same s.deleted, ← increment_of_ne same s.cwdPut] at untouched
      exact untouched
  · exact sound.unused
  · intro q young
    have other : q ≠ pid := fun same => by
      rw [same] at young
      rw [sound.old pid young] at found
      cases found
    exact (made_setMade_of_ne other _ _).trans (sound.old q young)
  · intro q isListed
    by_cases same : q = pid
    · rw [same, made_setMade_self]
      exact Option.some_ne_none _
    · rw [made_setMade_of_ne same]
      exact sound.listed q isListed
  · rintro ⟨other, here, terminated⟩
    exact sound.init ⟨other, (made_setMade_of_ne (Ne.symm notInit) _ _).symm.trans here, terminated⟩

/-- A process that had ended is given back a second time, or its null pointer is followed. -/
theorem Sound.terminateProcess_again (sound : s.Sound) (notInit : pid ≠ 1) (ended : s.Terminated pid)
    (exitStatus : Int) : ¬ (s.terminateProcess pid exitStatus).ReleasedOnce := by
  obtain ⟨process, found, terminated⟩ := ended
  have context := (sound.ended pid process found terminated).1
  unfold ProcessLives.terminateProcess
  rw [found]
  by_cases attached : process.attached = true
  · simp only [attached, if_true, if_neg notInit]
    intro once
    have again := (once pid).1
    have twice : (s.useContext pid).deleted pid = 1 := by
      unfold useContext
      split <;> exact context
    have counted := increment_self (s.useContext pid).deleted pid
    rw [twice] at counted
    have bad : increment (s.useContext pid).deleted pid pid ≤ 1 := again
    omega
  · simp only [attached]
    exact id

/-- Terminating, whoever asks: timely exactly for a process that has not ended. -/
theorem Sound.terminates (sound : s.Sound) (found : s.made pid ≠ none) (exitStatus : Int) :
    (¬ s.Terminated pid → (s.terminateProcess pid exitStatus).Sound) ∧
      (s.Terminated pid → pid ≠ 1 → ¬ (s.terminateProcess pid exitStatus).ReleasedOnce) := by
  obtain ⟨process, found⟩ := Option.ne_none_iff_exists'.mp found
  refine ⟨fun alive => ?_, fun ended notInit => sound.terminateProcess_again notInit ended exitStatus⟩
  have living : process.status ≠ .terminated := fun ended => alive ⟨process, found, ended⟩
  by_cases init : pid = 1
  · have attached := (sound.living pid process found living).1
    simp only [ProcessLives.terminateProcess, found, attached, if_true, if_pos init]
    trivial
  · obtain ⟨s', result, after, _⟩ := sound.terminateProcess found living init exitStatus
    rw [result]
    exact after

/-- A killing that is asked for is carried out, and otherwise nothing changes. -/
theorem Sound.kill_cases (sound : s.Sound) {current : EndingProcess} (here : s.made caller = some current)
    (pid : Nat) (signal : Int) :
    (s.Kills caller pid signal → s.kill caller pid signal = s.terminateProcess pid (-1)) ∧
      (¬ s.Kills caller pid signal → ∃ value, s.kill caller pid signal = .returns s value) := by
  unfold ProcessLives.kill
  by_cases isListed : s.processes pid = true
  · obtain ⟨target, found⟩ := Option.ne_none_iff_exists'.mp (sound.listed pid isListed)
    rw [if_pos isListed, found, here]
    by_cases refused : current.uid ≠ 0 ∧ current.uid ≠ target.uid
    · simp only [if_pos refused]
      refine ⟨fun kills => ?_, fun _ => ⟨_, rfl⟩⟩
      obtain ⟨_, ⟨first, second, isCurrent, isTarget, permitted⟩, _⟩ := kills
      rw [here] at isCurrent
      rw [found] at isTarget
      cases isCurrent
      cases isTarget
      exact absurd permitted (by tauto)
    · simp only [if_neg refused]
      by_cases deadly : signal = sigkill ∨ signal = sigsegv
      · rw [if_pos deadly]
        refine ⟨fun _ => rfl, fun spared => absurd ⟨isListed, ⟨current, target, here, found, ?_⟩, deadly⟩ spared⟩
        tauto
      · rw [if_neg deadly]
        exact ⟨fun kills => absurd kills.2.2 deadly, fun _ => ⟨_, rfl⟩⟩
  · rw [if_neg isListed]
    exact ⟨fun kills => absurd kills.1 isListed, fun _ => ⟨_, rfl⟩⟩

theorem Sound.fork (sound : s.Sound) {parent : EndingProcess} (here : s.made caller = some parent) (enough : Bool) :
    (s.fork caller enough).Sound := by
  unfold ProcessLives.fork
  rw [here]
  cases enough with
  | false => exact sound
  | true =>
    have unmade := sound.old _ (Nat.lt_succ_self s.lastUsedPID)
    obtain ⟨context, cwd⟩ := sound.unmade _ unmade
    constructor
    · intro q other made living
      by_cases same : q = s.lastUsedPID + 1
      · rw [same] at made ⊢
        cases (Function.update_self _ _ s.made).symm.trans made
        exact ⟨rfl, context, cwd⟩
      · exact sound.living q other ((Function.update_of_ne same _ s.made).symm.trans made) living
    · intro q other made terminated
      by_cases same : q = s.lastUsedPID + 1
      · rw [same] at made
        cases (Function.update_self _ _ s.made).symm.trans made
        cases terminated
      · exact sound.ended q other ((Function.update_of_ne same _ s.made).symm.trans made) terminated
    · intro q missing
      by_cases same : q = s.lastUsedPID + 1
      · rw [same]
        exact ⟨context, cwd⟩
      · exact sound.unmade q ((Function.update_of_ne same _ s.made).symm.trans missing)
    · exact sound.unused
    · intro q young
      have later : s.lastUsedPID + 1 < q := young
      exact (Function.update_of_ne later.ne' _ s.made).trans (sound.old q (Nat.lt_of_succ_lt later))
    · intro q isListed
      by_cases same : q = s.lastUsedPID + 1
      · intro missing
        rw [same] at missing
        cases (Function.update_self _ _ s.made).symm.trans missing
      · have before := sound.listed q ((Function.update_of_ne same _ s.processes).symm.trans isListed)
        exact fun missing => before ((Function.update_of_ne same _ s.made).symm.trans missing)
    · rintro ⟨other, made, terminated⟩
      by_cases same : 1 = s.lastUsedPID + 1
      · have written : Function.update s.made (s.lastUsedPID + 1) (some ⟨parent.uid, some caller, .ready, 0, true⟩) 1 =
          some other := made
        rw [Function.update_apply, if_pos same] at written
        cases written
        cases terminated
      · exact sound.init ⟨other, (Function.update_of_ne same _ s.made).symm.trans made, terminated⟩

theorem Sound.removePid (sound : s.Sound) (pid : Nat) : (s.removePid pid).Sound := by
  unfold ProcessLives.removePid
  cases found : s.made pid with
  | none => exact sound
  | some process =>
    have unlinked : (s.setMade pid { process with parent := none }).Sound := sound.setMade found rfl fun _ => rfl
    refine ⟨unlinked.living, unlinked.ended, unlinked.unmade, unlinked.unused, unlinked.old, fun q isListed => ?_,
      unlinked.init⟩
    apply unlinked.listed q
    by_cases same : q = pid
    · have gone : Function.update s.processes pid false q = true := isListed
      rw [same, Function.update_self] at gone
      cases gone
    · exact (Function.update_of_ne same _ _).symm.trans isListed

theorem used_useContext (ended : s.deleted caller ≠ 0) : 0 < (s.useContext caller).usedDeleted caller := by
  have more := increment_self s.usedDeleted caller
  rw [useContext, if_neg ended]
  show 0 < increment s.usedDeleted caller caller
  omega

/-- Writing the status: the caller's `MemoryContext` is used where a page is missing. -/
theorem Sound.waitpid (sound : s.Sound) {pid : Int} {writable pageFault written : Bool} :
    (s.Timely (.waitpid caller pid writable pageFault written) →
      (s.waitpid caller pid writable pageFault written).Sound) ∧
    (¬ s.Timely (.waitpid caller pid writable pageFault written) →
      ¬ (s.waitpid caller pid writable pageFault written).ReleasedOnce) := by
  unfold ProcessLives.waitpid Timely
  cases writable with
  | false => exact ⟨fun _ => sound, fun late => absurd (fun no => nomatch no) late⟩
  | true =>
    cases answer : s.awaited caller pid with
    | error code =>
      refine ⟨fun _ => sound, fun late => absurd (fun _ _ found => ?_) late⟩
      obtain ⟨child, found⟩ := found
      cases answer.symm.trans found
    | ok found =>
      cases found with
      | none =>
        refine ⟨fun _ => sound, fun late => absurd (fun _ _ found => ?_) late⟩
        obtain ⟨child, found⟩ := found
        cases answer.symm.trans found
      | some child =>
        cases pageFault with
        | false =>
          refine ⟨fun _ => ?_, fun late => absurd (fun _ no => nomatch no) late⟩
          cases written with
          | false => exact sound
          | true => exact sound.removePid child
        | true =>
          constructor
          · intro timely
            have owned := sound.deleted_eq_zero_iff.mpr (timely rfl rfl ⟨child, answer⟩)
            simp only [if_true, useContext_of_owned owned]
            cases written with
            | false => exact sound
            | true => exact sound.removePid child
          · intro late once
            have ended : s.deleted caller ≠ 0 := fun owned =>
              late fun _ _ _ => sound.deleted_eq_zero_iff.mp owned
            have used := used_useContext ended
            have kept (t : ProcessLives) : (t.removePid child).usedDeleted = t.usedDeleted := by
              unfold ProcessLives.removePid
              split <;> rfl
            cases written with
            | false =>
              have none : (s.useContext caller).usedDeleted caller = 0 := (once caller).2.2
              omega
            | true =>
              have none : ((s.useContext caller).removePid child).usedDeleted caller = 0 := (once caller).2.2
              rw [kept] at none
              omega

/-- Being terminated does not take a use of a deleted context back. -/
theorem used_terminateProcess {exitStatus : Int} (notInit : pid ≠ 1) (used : 0 < s.usedDeleted caller) :
    ¬ (s.terminateProcess pid exitStatus).ReleasedOnce := by
  have more : 0 < (s.useContext pid).usedDeleted caller := by
    unfold useContext
    split
    · exact used
    · show 0 < increment s.usedDeleted pid caller
      by_cases same : caller = pid
      · have count := increment_self s.usedDeleted pid
        rw [same]
        omega
      · rw [increment_of_ne same]
        exact used
  unfold ProcessLives.terminateProcess
  cases s.made pid with
  | none => exact id
  | some process =>
    dsimp only
    cases process.attached with
    | false =>
      simp only [Bool.false_eq_true, if_false]
      exact id
    | true =>
      simp only [if_true, if_neg notInit]
      intro once
      exact absurd (once caller).2.2 more.ne'

theorem useContext_made (s : ProcessLives) (caller : Nat) :
    (s.useContext caller).made = s.made ∧ (s.useContext caller).processes = s.processes := by
  unfold useContext
  split <;> exact ⟨rfl, rfl⟩

/-- The thread uses the memory of its process, and may be killed for it. -/
theorem Sound.useMemory (sound : s.Sound) {current : EndingProcess} (here : s.made caller = some current)
    (refused : Bool) :
    (¬ s.Terminated caller → (s.useMemory caller refused).Sound) ∧
      (s.Terminated caller → ¬ (s.useMemory caller refused).ReleasedOnce) := by
  unfold ProcessLives.useMemory
  constructor
  · intro alive
    rw [useContext_of_owned (sound.deleted_eq_zero_iff.mpr alive)]
    cases refused with
    | false => exact sound
    | true =>
      obtain ⟨carriedOut, spared⟩ := sound.kill_cases here caller sigsegv
      by_cases kills : s.Kills caller caller sigsegv
      · have found : s.made caller ≠ none := by
          rw [here]
          exact Option.some_ne_none _
        change (s.kill caller caller sigsegv).Sound
        rw [carriedOut kills]
        exact (sound.terminates found (-1)).1 alive
      · obtain ⟨value, result⟩ := spared kills
        change (s.kill caller caller sigsegv).Sound
        rw [result]
        exact sound
  · intro ended once
    have used := used_useContext fun owned => sound.deleted_eq_zero_iff.mp owned ended
    have notInit : caller ≠ 1 := fun init => sound.init (init ▸ ended)
    obtain ⟨made, processes⟩ := useContext_made s caller
    cases refused with
    | false => exact absurd (once caller).2.2 used.ne'
    | true =>
      simp only [if_true] at once
      unfold ProcessLives.kill at once
      rw [made, here, processes] at once
      by_cases isListed : s.processes caller = true
      · have allowed : ¬(current.uid ≠ 0 ∧ current.uid ≠ current.uid) := fun both => both.2 rfl
        simp only [if_pos isListed, if_neg allowed, or_true, if_true] at once
        exact used_terminateProcess notInit used once
      · rw [if_neg isListed] at once
        exact absurd (once caller).2.2 used.ne'

/-- A call leaves every resource given back at most once exactly when it is timely. -/
theorem Sound.step {call : Call} (sound : s.Sound) (runs : s.Runs call.caller) :
    (s.Timely call → (s.step call).Sound) ∧ (¬ s.Timely call → ¬ (s.step call).ReleasedOnce) := by
  obtain ⟨current, here, attached⟩ := runs
  cases call with
  | fork caller enough => exact ⟨fun _ => sound.fork here enough, fun late => absurd trivial late⟩
  | waitpid caller pid writable pageFault written => exact sound.waitpid
  | useMemory caller refused =>
    obtain ⟨timely, late⟩ := sound.useMemory here refused
    exact ⟨timely, fun ended => late (not_not.mp ended)⟩
  | kill caller pid signal =>
    obtain ⟨carriedOut, refused⟩ := sound.kill_cases here pid signal
    by_cases kills : s.Kills caller pid signal
    · obtain ⟨first, again⟩ := sound.terminates (sound.listed pid kills.1) (-1)
      rw [show s.step (.kill caller pid signal) = s.terminateProcess pid (-1) from carriedOut kills]
      refine ⟨fun timely => first (timely kills), fun late => ?_⟩
      have ended : s.Terminated pid := by
        by_contra alive
        exact late fun _ => alive
      exact again ended fun init => sound.init (init ▸ ended)
    · obtain ⟨value, result⟩ := refused kills
      rw [show s.step (.kill caller pid signal) = .returns s value from result]
      exact ⟨fun _ => sound, fun late => absurd (fun asked => absurd asked kills) late⟩
  | exit caller exitStatus =>
    have here : s.made caller = some current := here
    constructor
    · intro alive
      have living : current.status ≠ .terminated := fun ended => alive ⟨current, here, ended⟩
      by_cases init : caller = 1
      · have panic : s.step (.exit caller exitStatus) = .panics := by
          simp only [ProcessLives.step, ProcessLives.exit, ProcessLives.terminateProcess, here, attached, if_true,
            if_pos init]
        rw [panic]
        trivial
      · obtain ⟨s', result, after, made⟩ := sound.terminateProcess here living init exitStatus
        have left : s.step (.exit caller exitStatus) = .returns (s'.setMade caller
            { current with exitStatus := exitStatus, status := .terminated, attached := false }) 0 := by
          simp only [ProcessLives.step, ProcessLives.exit, result, made]
        rw [left]
        exact after.setMade made rfl fun ended => absurd rfl ended
    · intro late once
      have ended : s.Terminated caller := not_not.mp late
      have notInit : caller ≠ 1 := fun init => sound.init (init ▸ ended)
      apply sound.terminateProcess_again notInit ended exitStatus
      simp only [ProcessLives.step, ProcessLives.exit] at once
      cases result : s.terminateProcess caller exitStatus with
      | panics => trivial
      | faults => simp only [result, Outcome.ReleasedOnce] at once
      | waits s' => simpa only [result] using once
      | returns s' value =>
        rw [result] at once
        cases made : s'.made caller with
        | none => simp only [made, Outcome.ReleasedOnce] at once
        | some process =>
          simp only [made] at once
          exact once

end Calls

theorem Sound.run {s s' : ProcessLives} {calls : List Call} (sound : s.Sound) (run : Run s calls s') : s'.Sound := by
  induction run with
  | start => exact sound
  | step before runs timely result reached =>
    have after := (reached.step runs).1 timely
    rw [result] at after
    exact after

end ProcessLives
end FluxOS
