import FluxOS.QListInsertion
import FluxOS.SocketWakeup

/-! `Scheduler::nextThread` over a list of threads that grows and whose statuses change from call to
call: a thread that stays running has its turn within one round of the list. -/
namespace FluxOS.Scheduler
open Words QList SocketWakeup

structure State (T : Type) where
  threads : QList T
  s_currentThread : Word
  status : T → ThreadStatus

variable {T : Type}

def init (heap : ArrayHeap T) (status : T → ThreadStatus) : State T := ⟨empty heap, 0#32, status⟩

def currentThread (s : State T) : Option T := entry s.threads.block s.s_currentThread.toInt

/-- `s_currentThread = (s_currentThread + 1) % threads->size()`, where there is a size to divide by. -/
def advance (s : State T) : Option (State T) :=
  if s.threads.mSize = 0#32 then none
  else some { s with s_currentThread := (s.s_currentThread + 1#32).srem s.threads.mSize }

/-- So many rounds of the loop of `nextThread`. -/
def nextThread : Nat → State T → Option (T × State T)
  | 0, _ => none
  | rounds + 1, s => do
    let s ← advance s
    let tB ← currentThread s
    if s.status tB = .running then return (tB, s) else nextThread rounds s

/-- A call of `nextThread`: the state it is made in, and the thread it returns. -/
structure Turn (T : Type) where
  before : State T
  tB : T

/-- The calls of a run. Between them threads are appended, as `fork` does it, and statuses change. -/
inductive Run (heap : ArrayHeap T) : State T → List (Turn T) → State T → Prop
  | done (s : State T) : Run heap s [] s
  | append {s s' : State T} {thread : T} {index : Int} {threads : QList T} {turns : List (Turn T)}
      (appended : QList.append heap s.threads thread = some (index, threads))
      (later : Run heap { s with threads := threads } turns s') : Run heap s turns s'
  | changed {s s' : State T} {status : T → ThreadStatus} {turns : List (Turn T)}
      (later : Run heap { s with status := status } turns s') : Run heap s turns s'
  | turn {s after s' : State T} {rounds : Nat} {tB : T} {turns : List (Turn T)}
      (returned : nextThread rounds s = some (tB, after)) (later : Run heap after turns s') :
      Run heap s (⟨s, tB⟩ :: turns) s'

/-! ## One call -/

/-- These threads, and a cursor at one of them; without threads it is at the start. -/
structure Schedules (s : State T) (threads : List T) : Prop where
  holds : Holds s.threads threads
  cursor : s.s_currentThread.toNat < max threads.length 1

variable {s s' : State T} {threads : List T}

theorem schedules_init (heap : ArrayHeap T) (status : T → ThreadStatus) : Schedules (init heap status) [] :=
  ⟨holds_empty heap, Nat.one_pos⟩

/-- The position that comes behind the cursor. -/
def following (cursor size : Nat) : Nat := if cursor + 1 < size then cursor + 1 else 0

theorem Schedules.advance (schedules : Schedules s threads) (nonempty : threads ≠ []) :
    ∃ after, Scheduler.advance s = some after ∧ after.threads = s.threads ∧ after.status = s.status ∧
      after.s_currentThread.toNat = following s.s_currentThread.toNat threads.length := by
  have positive := List.length_pos_iff.mpr nonempty
  have cursor := schedules.cursor
  have size := schedules.holds.size
  have small := schedules.holds.size_small
  have some : s.threads.mSize ≠ 0#32 := by
    intro zero
    rw [zero] at size
    exact absurd size (by simp only [BitVec.toNat_ofNat]; omega)
  have next : (s.s_currentThread + 1#32).toNat = s.s_currentThread.toNat + 1 := toNat_add_one (by omega)
  have dividend : (s.s_currentThread + 1#32).msb = false := by
    rw [BitVec.msb_eq_false_iff_two_mul_lt, next]
    omega
  have divisor : s.threads.mSize.msb = false := by
    rw [BitVec.msb_eq_false_iff_two_mul_lt]
    omega
  have remainder : ((s.s_currentThread + 1#32).srem s.threads.mSize).toNat =
      (s.s_currentThread.toNat + 1) % threads.length := by
    rw [BitVec.toNat_srem, dividend, divisor, ← next, ← size]
  refine ⟨_, if_neg some, rfl, rfl, remainder.trans ?_⟩
  rw [following]
  split
  · rename_i inside
    exact Nat.mod_eq_of_lt inside
  · rw [show s.s_currentThread.toNat + 1 = threads.length by omega]
    exact Nat.mod_self _

/-- How far it is from the cursor to position `k`, round the end of a list of size `n`. -/
def wait (n cursor k : Nat) : Nat := if cursor < k then k - cursor else n - cursor + k

theorem wait_le {n cursor k : Nat} (inside : k < n) : wait n cursor k ≤ n := by
  unfold wait
  split <;> omega

theorem wait_pos {n cursor k : Nat} (start : cursor < n) : 0 < wait n cursor k := by
  unfold wait
  split <;> omega

/-- The step to the next position comes to `k` or nearer to it, also where more threads are counted than there are. -/
theorem following_nearer {size n cursor k : Nat} (start : cursor < size) (inside : k < size) (more : size ≤ n) :
    following cursor size = k ∨ wait n (following cursor size) k < wait n cursor k := by
  unfold following wait
  grind

theorem following_lt {size cursor : Nat} (positive : 0 < size) : following cursor size < size := by
  unfold following
  split <;> omega

/-- A round of the loop: the step, and the thread that is found there. -/
theorem Schedules.round (schedules : Schedules s threads) (nonempty : threads ≠ []) :
    ∃ after tB, Schedules after threads ∧ after.threads = s.threads ∧ after.status = s.status ∧
      after.s_currentThread.toNat = following s.s_currentThread.toNat threads.length ∧
      threads[after.s_currentThread.toNat]? = some tB ∧
      ∀ rounds, nextThread (rounds + 1) s =
        if s.status tB = .running then some (tB, after) else nextThread rounds after := by
  obtain ⟨after, advanced, kept, status, cursor⟩ := schedules.advance nonempty
  have inside : after.s_currentThread.toNat < threads.length := by
    rw [cursor]
    exact following_lt (List.length_pos_iff.mpr nonempty)
  have still : Schedules after threads := ⟨kept ▸ schedules.holds, by omega⟩
  have found : currentThread after = some threads[after.s_currentThread.toNat] := by
    have small := still.holds.size_small
    have size := still.holds.size
    rw [currentThread, toInt_of_small (by omega)]
    exact still.holds.entry inside
  refine ⟨after, threads[after.s_currentThread.toNat], still, kept, status, cursor, List.getElem?_eq_getElem inside,
    fun rounds => ?_⟩
  simp only [nextThread, advanced, found, status, Option.bind_eq_bind, Option.bind_some, Option.pure_def]

theorem nextThread_more {rounds : Nat} {result : T × State T} (returned : nextThread rounds s = some result) (more : Nat) :
    nextThread (rounds + more) s = some result := by
  induction rounds generalizing s with
  | zero => cases returned
  | succ rounds ih =>
    rw [Nat.add_right_comm]
    unfold nextThread at returned ⊢
    cases advanced : advance s with
    | none => simp [advanced] at returned
    | some after =>
      cases found : currentThread after with
      | none => simp [advanced, found] at returned
      | some tB =>
        simp only [advanced, found, Option.bind_eq_bind, Option.bind_some, Option.pure_def] at returned ⊢
        split at returned
        · rename_i running
          rw [if_pos running]
          exact returned
        · rename_i waiting
          rw [if_neg waiting]
          exact ih returned

/-- A call with a running thread returns one. -/
theorem Schedules.nextThread_returns (schedules : Schedules s threads) {k : Nat} {thread : T} (there : threads[k]? = some thread)
    (running : s.status thread = .running) :
    ∃ rounds tB after, nextThread rounds s = some (tB, after) ∧ tB ∈ threads ∧ s.status tB = .running := by
  have inside : k < threads.length := (List.getElem?_eq_some_iff.mp there).1
  have nonempty : threads ≠ [] := List.ne_nil_of_length_pos (by omega)
  -- the loop has less far to go to the running thread in every round
  induction distance : wait threads.length s.s_currentThread.toNat k using Nat.strongRecOn generalizing s with
  | ind distance ih =>
    obtain ⟨after, tB, still, -, status, cursor, found, round⟩ := schedules.round nonempty
    by_cases stops : s.status tB = .running
    · exact ⟨1, tB, after, by rw [round, if_pos stops], List.mem_of_getElem? found, stops⟩
    · have start : s.s_currentThread.toNat < threads.length := by
        have start := schedules.cursor
        omega
      have nearer := (following_nearer start inside (Nat.le_refl _)).resolve_left (by
        intro same
        rw [cursor, same, there] at found
        cases found
        exact stops running)
      obtain ⟨rounds, tB', after', returned, member, runs⟩ := ih _ (by rw [cursor, ← distance]; exact nearer) still
        (by rw [status]; exact running) rfl
      exact ⟨rounds + 1, tB', after', by rw [round, if_neg stops]; exact returned, member, by rwa [status] at runs⟩

/-- What a call does: it leaves the cursor at the running thread that it returns, and no running thread was passed. -/
structure Passes (threads : List T) (s : State T) (tB : T) (after : State T) : Prop where
  schedules : Schedules after threads
  kept : after.threads = s.threads
  status : after.status = s.status
  found : threads[after.s_currentThread.toNat]? = some tB
  running : s.status tB = .running
  nearer : ∀ k thread n, threads[k]? = some thread → s.status thread = .running → threads.length ≤ n →
    after.s_currentThread.toNat = k ∨ wait n after.s_currentThread.toNat k < wait n s.s_currentThread.toNat k

theorem Schedules.passes (schedules : Schedules s threads) {rounds : Nat} {tB : T} {after : State T}
    (returned : nextThread rounds s = some (tB, after)) : Passes threads s tB after := by
  induction rounds generalizing s with
  | zero => cases returned
  | succ rounds ih =>
    have nonempty : threads ≠ [] := by
      rintro rfl
      have size : s.threads.mSize = 0#32 := BitVec.eq_of_toNat_eq schedules.holds.size
      simp [nextThread, Scheduler.advance, size] at returned
    have start : s.s_currentThread.toNat < threads.length := by
      have positive := List.length_pos_iff.mpr nonempty
      have start := schedules.cursor
      omega
    obtain ⟨here, other, still, kept, status, cursor, found, round⟩ := schedules.round nonempty
    rw [round] at returned
    split at returned
    · rename_i running
      cases returned
      refine ⟨still, kept, status, found, running, fun k thread n there _ more => ?_⟩
      rw [cursor]
      exact following_nearer start (List.getElem?_eq_some_iff.mp there).1 more
    · rename_i waiting
      have passes := ih still returned
      refine ⟨passes.schedules, passes.kept.trans kept, passes.status.trans status, passes.found, ?_,
        fun k thread n there running more => ?_⟩
      · rw [← status]
        exact passes.running
      · rcases passes.nearer k thread n there (by rwa [status]) more with same | nearer
        · exact .inl same
        · have first := (following_nearer start (List.getElem?_eq_some_iff.mp there).1 more).resolve_left (by
            intro same
            rw [cursor, same, there] at found
            cases found
            exact waiting running)
          rw [cursor] at nearer
          exact .inr (Nat.lt_trans nearer first)

/-! ## Runs -/

variable {heap : ArrayHeap T}

/-- A run only puts threads behind those that there are. -/
theorem Run.schedules {turns : List (Turn T)} (run : Run heap s turns s') (schedules : Schedules s threads) :
    ∃ more, Schedules s' (threads ++ more) := by
  induction run generalizing threads with
  | done s => exact ⟨[], by rwa [List.append_nil]⟩
  | @append s s' thread index grown turns appended later ih =>
    let _ : Inhabited T := ⟨thread⟩
    have after := schedules.holds.after_append appended
    have cursor := schedules.cursor
    split at after
    · exact ih ⟨after, cursor⟩
    · obtain ⟨more, final⟩ := @ih (threads ++ [thread])
        ⟨after, by rw [List.length_append, List.length_singleton]; exact Nat.lt_of_lt_of_le cursor (by omega)⟩
      exact ⟨thread :: more, by rwa [List.append_assoc] at final⟩
  | changed _ ih => exact ih ⟨schedules.holds, schedules.cursor⟩
  | turn returned _ ih => exact ih (schedules.passes returned).schedules

/-- The same for the states that calls are made in. -/
theorem Run.turn_schedules {turns : List (Turn T)} (run : Run heap s turns s') (schedules : Schedules s threads)
    {turn : Turn T} (member : turn ∈ turns) : ∃ more, Schedules turn.before (threads ++ more) := by
  induction run generalizing threads with
  | done s => cases member
  | @append s s' thread index grown turns appended later ih =>
    obtain ⟨more, here⟩ := Run.schedules (.append appended (.done _)) schedules
    obtain ⟨others, final⟩ := ih here member
    exact ⟨more ++ others, by rwa [List.append_assoc] at final⟩
  | changed _ ih => exact ih ⟨schedules.holds, schedules.cursor⟩ member
  | turn returned _ ih =>
    cases member with
    | head => exact ⟨[], by rwa [List.append_nil]⟩
    | tail _ member => exact ih (schedules.passes returned).schedules member

/-- What comes before the first call may be left out. -/
theorem Run.from_first {turns : List (Turn T)} {turn : Turn T} (run : Run heap s (turn :: turns) s') :
    Run heap turn.before (turn :: turns) s' := by
  generalize all : turn :: turns = calls at run
  induction run with
  | done s => cases all
  | append _ _ ih => exact ih all
  | changed _ ih => exact ih all
  | turn returned later =>
    cases all
    exact .turn returned later

/-- A thread that is passed over in every call is nearer to the cursor after each of them. -/
theorem Run.wait_longer {turns : List (Turn T)} {k n : Nat} {thread : T} (run : Run heap s turns s')
    (schedules : Schedules s threads) (inside : k < n) (more : s'.threads.mSize.toNat ≤ n)
    (running : ∀ turn ∈ turns, (contents turn.before.threads)[k]? = some thread ∧ turn.before.status thread = .running)
    (passed : ∀ turn ∈ turns, turn.tB ≠ thread) : turns.length < wait n s.s_currentThread.toNat k := by
  induction run generalizing threads with
  | done s =>
    have cursor := schedules.cursor
    rw [schedules.holds.size] at more
    exact wait_pos (by omega)
  | append appended _ ih =>
    obtain ⟨more', here⟩ := Run.schedules (.append appended (.done _)) schedules
    exact ih here more running passed
  | changed _ ih => exact ih ⟨schedules.holds, schedules.cursor⟩ more running passed
  | @turn s after s' rounds tB turns returned later ih =>
    have passes := schedules.passes returned
    have rest := ih passes.schedules more (fun turn member => running turn (.tail _ member))
      (fun turn member => passed turn (.tail _ member))
    obtain ⟨there, runs⟩ := running _ (.head _)
    rw [schedules.holds.contents_eq] at there
    have size : threads.length ≤ n := by
      obtain ⟨others, final⟩ := later.schedules passes.schedules
      rw [final.holds.size, List.length_append] at more
      omega
    rcases passes.nearer k thread n there runs size with same | nearer
    · have found := passes.found
      rw [same, there] at found
      cases found
      exact absurd rfl (passed _ (.head _))
    · rw [List.length_cons]
      omega

/-- A call with a running thread returns a running thread, and a thread that is running at each of as many calls as
there are threads in the end is returned by one of them. -/
theorem running_thread_has_its_turn {status : T → ThreadStatus} {earlier : List (Turn T)}
    (reached : Run heap (init heap status) earlier s) :
    ((∃ thread ∈ contents s.threads, s.status thread = .running) → ∃ rounds tB after,
      (∀ more, nextThread (rounds + more) s = some (tB, after)) ∧ tB ∈ contents s.threads ∧ s.status tB = .running) ∧
    ∀ turns s', Run heap s turns s' → s'.threads.mSize.toNat ≤ turns.length → ∀ thread ∈ contents s'.threads,
      (∀ turn ∈ turns, thread ∈ contents turn.before.threads ∧ turn.before.status thread = .running) →
      ∃ turn ∈ turns, turn.tB = thread := by
  obtain ⟨threads, schedules⟩ := reached.schedules (schedules_init heap status)
  rw [List.nil_append] at schedules
  constructor
  · rw [schedules.holds.contents_eq]
    rintro ⟨thread, member, running⟩
    obtain ⟨k, there⟩ := List.mem_iff_getElem?.mp member
    obtain ⟨rounds, tB, after, returned, found, runs⟩ := schedules.nextThread_returns there running
    exact ⟨rounds, tB, after, nextThread_more returned, found, runs⟩
  · intro turns s' run enough thread member running
    by_contra never
    have passed : ∀ turn ∈ turns, turn.tB ≠ thread := fun turn here same => never ⟨turn, here, same⟩
    obtain ⟨more, final⟩ := run.schedules schedules
    rw [final.holds.contents_eq] at member
    rw [final.holds.size] at enough
    cases turns with
    | nil =>
      rw [List.eq_nil_of_length_eq_zero (Nat.le_zero.mp enough)] at member
      cases member
    | cons first later =>
      obtain ⟨others, start⟩ := run.turn_schedules schedules (.head _)
      have there := (running first (.head _)).1
      rw [start.holds.contents_eq] at there
      obtain ⟨k, there⟩ := List.mem_iff_getElem?.mp there
      have inside := (List.getElem?_eq_some_iff.mp there).1
      have stays : ∀ turn ∈ first :: later, (contents turn.before.threads)[k]? = some thread ∧
          turn.before.status thread = .running := by
        intro turn here
        obtain ⟨behind, schedules'⟩ := run.from_first.turn_schedules start here
        rw [schedules'.holds.contents_eq, List.getElem?_append_left inside]
        exact ⟨there, (running turn here).2⟩
      obtain ⟨behind, grown⟩ := run.from_first.schedules start
      have size := grown.holds.size
      rw [final.holds.size, @List.length_append _ _ behind] at size
      have kn : k < (threads ++ more).length := by omega
      have longer := run.from_first.wait_longer start kn (Nat.le_of_eq final.holds.size) stays passed
      have short := @wait_le _ first.before.s_currentThread.toNat _ kn
      omega

/-- Every thread is running but 7. -/
def oneWaits (thread : Nat) : ThreadStatus := if thread = 7 then .uWaiting else .running

def threeThreads (cursor : Word) : State Nat := ⟨⟨3#32, 4#32, some [5, 7, 8, 0]⟩, cursor, oneWaits⟩

def fourThreads (cursor : Word) : State Nat := ⟨⟨4#32, 4#32, some [5, 7, 8, 9]⟩, cursor, oneWaits⟩

theorem threeThreads_reached : Run generousHeap (init generousHeap oneWaits) [] (threeThreads 0#32) :=
  @Run.append Nat generousHeap _ _ 5 0 _ _ rfl <| @Run.append Nat generousHeap _ _ 7 1 _ _ rfl <|
    @Run.append Nat generousHeap _ _ 8 2 _ _ rfl (.done _)

/-- The waiting thread is passed over, and one that is forked behind the first call has its turn, before the first
thread has. -/
theorem first_thread_has_its_turn :
    ∃ turn ∈ [(⟨threeThreads 0#32, 8⟩ : Turn Nat), ⟨fourThreads 2#32, 9⟩, ⟨fourThreads 3#32, 5⟩, ⟨fourThreads 0#32, 8⟩],
      turn.tB = 5 := by
  have turns : Run generousHeap (threeThreads 0#32)
      [⟨threeThreads 0#32, 8⟩, ⟨fourThreads 2#32, 9⟩, ⟨fourThreads 3#32, 5⟩, ⟨fourThreads 0#32, 8⟩] (fourThreads 2#32) :=
    @Run.turn Nat generousHeap _ _ _ 2 _ _ rfl <| @Run.append Nat generousHeap _ _ 9 3 _ _ rfl <|
      @Run.turn Nat generousHeap _ _ _ 1 _ _ rfl <| @Run.turn Nat generousHeap _ _ _ 1 _ _ rfl <|
        @Run.turn Nat generousHeap _ _ _ 2 _ _ rfl (.done _)
  refine (running_thread_has_its_turn threeThreads_reached).2 _ _ turns (by decide) 5 (.head _) fun turn member => ?_
  simp only [List.mem_cons, List.not_mem_nil, or_false] at member
  rcases member with rfl | rfl | rfl | rfl <;> exact ⟨.head _, rfl⟩

end FluxOS.Scheduler
