import FluxOS.QListInsertion
import FluxOS.SocketWakeup
import Mathlib.Data.List.Chain

/-! `SystemTimer`: the timers that `sleep` appends, and the timer interrupt that takes out the expired
ones while it counts through the list. -/
namespace FluxOS
open Words QList SocketWakeup

structure Timespec where
  tv_sec : Word
  tv_nsec : Word

/-- `expiralSystemTime` is an `unsigned long`, which has 32 bits here. -/
structure ThreadTimer (T : Type) where
  parentThread : T
  expiralSystemTime : Word

structure SystemTimer (T : Type) where
  systemTicks : BitVec 64
  timers : QList (ThreadTimer T)
  tickFrequency : Word
  status : T → ThreadStatus

namespace SystemTimer

variable {T : Type}

/-- What the two functions called `sleep` are asked for. -/
inductive Request where
  | millis (millis : Word)
  | duration (duration : Timespec)

/-- The terms that `sleep` adds to `systemTicks`, with products and quotients of 32 bits. -/
def addTicks (systemTicks : BitVec 64) (tickFrequency : Word) : Request → BitVec 64
  | .millis millis => systemTicks + ((millis * tickFrequency).sdiv 1000#32).signExtend 64
  | .duration duration =>
    systemTicks + (duration.tv_sec * tickFrequency).signExtend 64 +
      ((duration.tv_nsec * tickFrequency).sdiv 1000000000#32).signExtend 64

/-- `timer.expiralSystemTime`. -/
def expiralSystemTime (s : SystemTimer T) (request : Request) : Word :=
  (addTicks s.systemTicks s.tickFrequency request).setWidth 32

/-- `timers->at(i).expiralSystemTime < systemTicks`. -/
def Expired (systemTicks : BitVec 64) (timer : ThreadTimer T) : Prop :=
  timer.expiralSystemTime.toNat < systemTicks.toNat

instance (systemTicks : BitVec 64) (timer : ThreadTimer T) : Decidable (Expired systemTicks timer) :=
  inferInstanceAs (Decidable (_ < _))

inductive Event (T : Type) where
  | timerTickISR
  | sleep (request : Request) (thread : T)

section Calls

variable [DecidableEq T]

/-- `sleep`, up to where another thread is scheduled. -/
def sleep (heap : ArrayHeap (ThreadTimer T)) (s : SystemTimer T) (request : Request) (thread : T) : Option (SystemTimer T) := do
  let (_, timers) ← append heap s.timers ⟨thread, s.expiralSystemTime request⟩
  return { s with timers := timers, status := Function.update s.status thread .iWaiting }

/-- So many rounds of the loop in `timerTickISR`. An entry that is removed leaves its index to the one behind it. -/
def scan : Nat → Nat → SystemTimer T → Option (SystemTimer T)
  | 0, _, _ => none
  | rounds + 1, i, s =>
    if i < s.timers.mSize.toInt then do
      let timer ← entry s.timers.block i
      if Expired s.systemTicks timer then
        let timers ← remove s.timers (BitVec.ofNat 32 i) 1#32
        scan rounds (i + 1) { s with timers := timers, status := Function.update s.status timer.parentThread .running }
      else scan rounds (i + 1) s
    else some s

/-- There are no more rounds than entries, and the one that finds the end. -/
def timerTickISR (s : SystemTimer T) : Option (SystemTimer T) :=
  scan (s.timers.mSize.toNat + 1) 0 { s with systemTicks := s.systemTicks + 1#64 }
end Calls

/-! ## What a tick should do -/

/-- The timers that fired are those that are gone. They had expired, their threads are running, and no other thread
was woken; no expired timer is left. -/
structure Timely (s s' : SystemTimer T) : Prop where
  ticks : s'.systemTicks = s.systemTicks + 1#64
  cleared : ∀ timer ∈ contents s'.timers, ¬Expired s'.systemTicks timer
  fired : ∃ fired, (contents s.timers).Perm (fired ++ contents s'.timers) ∧
    (∀ timer ∈ fired, Expired s'.systemTicks timer ∧ s'.status timer.parentThread = .running) ∧
    ∀ thread, s'.status thread ≠ s.status thread → ∃ timer ∈ fired, timer.parentThread = thread

/-- No two neighbours in the list have both expired when the tick comes. -/
def Apart (s : SystemTimer T) : Prop :=
  (contents s.timers).IsChain fun timer next => ¬(Expired (s.systemTicks + 1#64) timer ∧ Expired (s.systemTicks + 1#64) next)

section Runs

variable [DecidableEq T]

/-- Every tick of these events does. -/
def AllTimely (heap : ArrayHeap (ThreadTimer T)) : List (Event T) → SystemTimer T → Prop
  | [], _ => True
  | .timerTickISR :: later, s => ∃ s', timerTickISR s = some s' ∧ Timely s s' ∧ AllTimely heap later s'
  | .sleep request thread :: later, s => ∀ s', sleep heap s request thread = some s' → AllTimely heap later s'

/-- At every tick of these events no two do. -/
def AllApart (heap : ArrayHeap (ThreadTimer T)) : List (Event T) → SystemTimer T → Prop
  | [], _ => True
  | .timerTickISR :: later, s => Apart s ∧ ∀ s', timerTickISR s = some s' → AllApart heap later s'
  | .sleep request thread :: later, s => ∀ s', sleep heap s request thread = some s' → AllApart heap later s'

end Runs

/-! ## One tick -/

section Sweep

variable (systemTicks : BitVec 64)

/-- The timers that the loop leaves in the list: behind one that is removed, the next is not looked at. -/
def kept : List (ThreadTimer T) → List (ThreadTimer T)
  | [] => []
  | timer :: later =>
    if Expired systemTicks timer then
      match later with
      | [] => []
      | skipped :: rest => skipped :: kept rest
    else timer :: kept later

/-- The timers that it takes out. -/
def fired : List (ThreadTimer T) → List (ThreadTimer T)
  | [] => []
  | timer :: later =>
    if Expired systemTicks timer then
      match later with
      | [] => [timer]
      | _ :: rest => timer :: fired rest
    else fired later

end Sweep

variable {systemTicks : BitVec 64} {timers : List (ThreadTimer T)}

theorem kept_waiting {timer : ThreadTimer T} (later : List (ThreadTimer T)) (waiting : ¬Expired systemTicks timer) :
    kept systemTicks (timer :: later) = timer :: kept systemTicks later := by
  cases later <;> simp [kept, waiting]

theorem fired_waiting {timer : ThreadTimer T} (later : List (ThreadTimer T)) (waiting : ¬Expired systemTicks timer) :
    fired systemTicks (timer :: later) = fired systemTicks later := by
  cases later <;> simp [fired, waiting]

theorem fired_expired (timers : List (ThreadTimer T)) : ∀ timer ∈ fired systemTicks timers, Expired systemTicks timer := by
  fun_induction fired systemTicks timers with
  | case1 => simp
  | case2 timer expired => simpa using expired
  | case3 timer expired skipped rest ih => simpa [expired] using ih
  | case4 timer later waiting ih => exact ih

theorem fired_append_kept (timers : List (ThreadTimer T)) :
    timers.Perm (fired systemTicks timers ++ kept systemTicks timers) := by
  fun_induction fired systemTicks timers with
  | case1 => exact .refl _
  | case2 timer expired => simp [kept, expired]
  | case3 timer expired skipped rest ih =>
    rw [kept, if_pos expired]
    exact ((ih.cons skipped).trans List.perm_middle.symm).cons timer
  | case4 timer later waiting ih =>
    rw [kept_waiting later waiting]
    exact (ih.cons timer).trans List.perm_middle.symm

/-- An entry that the loop skips is left, also when it has expired. -/
theorem kept_cleared_iff (timers : List (ThreadTimer T)) :
    (∀ timer ∈ kept systemTicks timers, ¬Expired systemTicks timer) ↔
      timers.IsChain fun timer next => ¬(Expired systemTicks timer ∧ Expired systemTicks next) := by
  fun_induction kept systemTicks timers with
  | case1 => simp
  | case2 timer expired => simp
  | case3 timer expired skipped rest ih =>
    rw [List.forall_mem_cons, ih, List.isChain_cons_cons]
    simp only [expired, true_and]
    refine and_congr_right fun waiting => ?_
    cases rest with
    | nil => simp
    | cons next rest => simp [waiting]
  | case4 timer later waiting ih =>
    rw [List.forall_mem_cons, ih]
    cases later with
    | nil => simp [waiting]
    | cons next rest => simp [waiting]

section Tick

variable [DecidableEq T]

/-- The statuses behind the loop. -/
def wake (fired : List (ThreadTimer T)) (status : T → ThreadStatus) : T → ThreadStatus :=
  fired.foldl (fun status timer => Function.update status timer.parentThread .running) status

variable {s s' : SystemTimer T}

theorem wake_eq (fired : List (ThreadTimer T)) (status : T → ThreadStatus) (thread : T) :
    wake fired status thread = if thread ∈ fired.map (·.parentThread) then .running else status thread := by
  induction fired generalizing status with
  | nil => rfl
  | cons timer later ih =>
    rw [wake, List.foldl_cons, ← wake, ih]
    by_cases here : thread = timer.parentThread
    · simp [here]
    · simp [here]

omit [DecidableEq T] in
/-- There is a timer at an index that has others behind it. -/
theorem entry_at {before later : List (ThreadTimer T)} {timer : ThreadTimer T}
    (holds : Holds s.timers (before ++ timer :: later)) :
    (before.length : Int) < s.timers.mSize.toInt ∧ entry s.timers.block before.length = some timer := by
  have inside : before.length < (before ++ timer :: later).length := by simp
  have found := holds.entry inside
  rw [List.getElem_append_right (Nat.le_refl _)] at found
  refine ⟨?_, by simpa using found⟩
  rw [toInt_of_small holds.size_small, holds.size]
  omega

/-- A round of the loop at an entry that has not expired. -/
theorem scan_waiting {before later : List (ThreadTimer T)} {timer : ThreadTimer T} (rounds : Nat)
    (holds : Holds s.timers (before ++ timer :: later)) (waiting : ¬Expired s.systemTicks timer) :
    scan (rounds + 1) before.length s = scan rounds (before.length + 1) s := by
  obtain ⟨more, found⟩ := entry_at holds
  rw [scan, if_pos more, found]
  simp [waiting]

/-- A round at one that has. -/
theorem scan_expired {before later : List (ThreadTimer T)} {timer : ThreadTimer T}
    (holds : Holds s.timers (before ++ timer :: later)) (expired : Expired s.systemTicks timer) :
    ∃ timers', Holds timers' (before ++ later) ∧ ∀ rounds, scan (rounds + 1) before.length s =
      scan rounds (before.length + 1) { s with
        timers := timers', status := Function.update s.status timer.parentThread .running } := by
  have small := holds.size_small
  have size := holds.size
  have inside : before.length < (before ++ timer :: later).length := by simp
  obtain ⟨more, found⟩ := entry_at holds
  have index : (BitVec.ofNat 32 before.length).toNat = before.length := by
    rw [BitVec.toNat_ofNat]
    exact Nat.mod_eq_of_lt (by omega)
  obtain ⟨timers', removed, after⟩ := holds.remove (i := BitVec.ofNat 32 before.length)
    (by rw [toInt_of_small (by omega)]; omega) (show 0 ≤ (1#32).toInt by decide)
    (by rw [toInt_of_small (by omega), index, show (1#32).toInt = 1 from rfl]; omega)
  rw [index, show (1#32).toNat = 1 from rfl, List.take_left, List.drop_append, List.drop_of_length_le (by omega)] at after
  refine ⟨timers', by simpa using after, fun rounds => ?_⟩
  rw [scan, if_pos more, found]
  simp [expired, removed]

theorem scan_end {before : List (ThreadTimer T)} (rounds : Nat) {i : Nat} (holds : Holds s.timers before)
    (behind : before.length ≤ i) : scan (rounds + 1) i s = some s := by
  rw [scan, if_neg]
  rw [toInt_of_small holds.size_small, holds.size]
  omega

/-- What the loop does from an index on. -/
theorem scan_eq (timers : List (ThreadTimer T)) {before : List (ThreadTimer T)} (holds : Holds s.timers (before ++ timers))
    (more : Nat) : ∃ timers', scan (timers.length + more + 1) before.length s = some { s with
        timers := timers', status := wake (fired s.systemTicks timers) s.status } ∧
      Holds timers' (before ++ kept s.systemTicks timers) := by
  generalize now : s.systemTicks = systemTicks
  fun_induction kept systemTicks timers generalizing s before more with
  | case1 =>
    subst now
    exact ⟨s.timers, scan_end _ (by rwa [List.append_nil] at holds) (Nat.le_refl _), holds⟩
  | case2 timer expired =>
    subst now
    obtain ⟨timers', after, round⟩ := scan_expired holds expired
    rw [List.append_nil] at after
    refine ⟨timers', ?_, by rwa [List.append_nil]⟩
    rw [round, List.length_singleton, Nat.add_comm, scan_end more (by exact after) (Nat.le_succ _)]
    simp [fired, expired, wake]
  | case3 timer expired skipped rest ih =>
    subst now
    obtain ⟨timers', after, round⟩ := scan_expired holds expired
    rw [List.append_cons] at after
    obtain ⟨final, rounds, result⟩ := @ih { s with
      timers := timers', status := Function.update s.status timer.parentThread .running } (before ++ [skipped]) after
      (more + 1) rfl
    refine ⟨final, ?_, by rwa [List.append_cons]⟩
    rw [List.length_append, List.length_singleton] at rounds
    have count : (timer :: skipped :: rest).length + more = rest.length + (more + 1) + 1 := by
      rw [List.length_cons, List.length_cons]
      omega
    rw [round, count, rounds]
    simp [fired, expired, wake]
  | case4 timer later waiting ih =>
    subst now
    rw [scan_waiting _ holds waiting]
    rw [List.append_cons] at holds
    obtain ⟨final, rounds, result⟩ := ih holds more rfl
    refine ⟨final, ?_, by rwa [List.append_cons]⟩
    rw [List.length_append, List.length_singleton] at rounds
    rw [fired_waiting later waiting, List.length_cons, Nat.add_right_comm, rounds]

theorem timerTickISR_eq (holds : Holds s.timers timers) : ∃ timers', timerTickISR s = some { s with
      systemTicks := s.systemTicks + 1#64
      timers := timers'
      status := wake (fired (s.systemTicks + 1#64) timers) s.status } ∧
    Holds timers' (kept (s.systemTicks + 1#64) timers) := by
  obtain ⟨timers', scanned, after⟩ := @scan_eq T _ { s with systemTicks := s.systemTicks + 1#64 } timers [] holds 0
  rw [Nat.add_zero, ← holds.size] at scanned
  exact ⟨timers', scanned, after⟩

/-- A tick comes to its end, and does what it should exactly if no two neighbours have expired. -/
theorem tick_timely_iff (holds : Holds s.timers timers) : ∃ s', timerTickISR s = some s' ∧
    Holds s'.timers (kept (s.systemTicks + 1#64) timers) ∧ (Timely s s' ↔ Apart s) := by
  obtain ⟨timers', ticked, after⟩ := timerTickISR_eq holds
  refine ⟨_, ticked, after, ?_⟩
  rw [Apart, holds.contents_eq, ← kept_cleared_iff]
  constructor
  · intro timely
    have cleared := timely.cleared
    rwa [after.contents_eq] at cleared
  · intro cleared
    refine ⟨rfl, by rwa [after.contents_eq], fired (s.systemTicks + 1#64) timers, ?_, fun timer member => ⟨?_, ?_⟩, ?_⟩
    · rw [holds.contents_eq, after.contents_eq]
      exact fired_append_kept timers
    · exact fired_expired timers timer member
    · exact (wake_eq _ _ _).trans (if_pos (List.mem_map_of_mem member))
    · intro thread changed
      by_contra none
      exact changed ((wake_eq _ _ _).trans (if_neg (by simpa using none)))

end Tick

section Runs

variable [DecidableEq T] {heap : ArrayHeap (ThreadTimer T)} {s s' : SystemTimer T}

theorem sleep_holds (holds : Holds s.timers timers) {request : Request} {thread : T}
    (slept : sleep heap s request thread = some s') : ∃ timers', Holds s'.timers timers' := by
  let timer : ThreadTimer T := ⟨thread, s.expiralSystemTime request⟩
  let _ : Inhabited (ThreadTimer T) := ⟨timer⟩
  cases appended : append heap s.timers timer with
  | none => simp [sleep, timer, appended] at slept
  | some result =>
    rw [sleep, appended] at slept
    cases slept
    exact ⟨_, holds.after_append appended⟩

/-- The timers of a run fire on time exactly if no two neighbours have expired at any of its ticks. -/
theorem timers_fire_on_time_iff (holds : Holds s.timers timers) (events : List (Event T)) :
    AllTimely heap events s ↔ AllApart heap events s := by
  induction events generalizing s timers with
  | nil => exact Iff.rfl
  | cons event later ih =>
    cases event with
    | timerTickISR =>
      obtain ⟨s', ticked, after, timely⟩ := tick_timely_iff holds
      constructor
      · rintro ⟨s₁, ticked₁, timely₁, rest⟩
        cases ticked.symm.trans ticked₁
        refine ⟨timely.mp timely₁, fun s₂ ticked₂ => ?_⟩
        cases ticked.symm.trans ticked₂
        exact (ih after).mp rest
      · rintro ⟨apart, rest⟩
        exact ⟨s', ticked, timely.mpr apart, (ih after).mpr (rest s' ticked)⟩
    | sleep request thread =>
      refine forall_congr' fun s' => forall_congr' fun slept => ?_
      obtain ⟨timers', after⟩ := sleep_holds holds slept
      exact ih after

/-- A heap that grants every block. -/
def timerHeap : ArrayHeap (ThreadTimer Nat) := ⟨fun _ => true, fun _ => ⟨0, 0#32⟩⟩

/-- A hundred ticks a second, threads that run, and no timer yet. -/
def atBoot : SystemTimer Nat := ⟨0#64, empty timerHeap, 100#32, fun _ => .running⟩

theorem one_sleeper_wakes :
    AllTimely timerHeap [.sleep (.millis 10#32) 1, .timerTickISR, .timerTickISR] atBoot := by
  refine (timers_fire_on_time_iff (holds_empty _) _).mpr fun s' slept => ?_
  cases slept
  refine ⟨.singleton _, fun s' ticked => ?_⟩
  cases ticked
  exact ⟨.singleton _, fun _ _ => trivial⟩

/-- Two threads sleep for ten milliseconds, and the second one is still asleep when the first one was woken. -/
theorem second_sleeper_left : ¬AllTimely timerHeap
    [.sleep (.millis 10#32) 1, .sleep (.millis 10#32) 2, .timerTickISR, .timerTickISR] atBoot := by
  intro timely
  obtain ⟨s₁, first, -, rest⟩ := timely _ rfl _ rfl
  cases first
  obtain ⟨s₂, second, missed, -⟩ := rest
  cases second
  exact missed.cleared ⟨2, 1#32⟩ (.head _) (by decide)

end Runs

end SystemTimer
end FluxOS
