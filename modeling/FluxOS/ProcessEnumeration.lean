import FluxOS.ProcessLifetimes

/-! A `ProcessIterator` among other calls. It holds the process it is at, which
may leave the list under it; the pointers it then follows carry no reference. -/
namespace FluxOS.ProcessTable
open LinkedPointers

/-- A loop over the processes: its iterator, null at the end, and the processes
it has been at, the last one first. -/
structure Enumeration where
  table : ProcessTable
  processPtr : Option Nat
  visited : List Nat

def processEnumerationBegin (s : ProcessTable) : Option Enumeration :=
  match s.firstProcess with
  | none => some ⟨s, none, []⟩
  | some p => do
    let s ← s.handOut p
    some ⟨s, some p, [p]⟩

namespace Enumeration

/-- `operator++` -/
def next (e : Enumeration) : Option Enumeration := do
  let p ← e.processPtr
  match ← e.table.load e.table.next p with
  | none =>
    let s ← e.table.giveBack p
    some ⟨s, none, e.visited⟩
  | some following =>
    let s ← e.table.handOut following
    let s ← s.giveBack p
    some ⟨s, some following, following :: e.visited⟩

inductive Move where
  | advance
  | call (action : Action)

def step (e : Enumeration) : Move → Option Enumeration
  | .advance => e.next
  | .call action => (e.table.step action).map fun s => { e with table := s }

/-- The loop ends at the null iterator, and nobody gives the iterator's reference back. -/
def Allowed (e : Enumeration) : Move → Prop
  | .advance => e.processPtr ≠ none
  | .call action => e.table.Allowed action ∧ ∀ pid, action = .putProcess pid → e.processPtr = some pid →
      1 < e.table.references pid

/-- `q` follows `p` through processes that have left the list. -/
inductive Ahead (s : ProcessTable) : Nat → Nat → Prop where
  | near {p q : Nat} (gone : s.processes p = false) (link : s.next p = some q) : Ahead s p q
  | far {p q r : Nat} (gone : s.processes p = false) (link : s.next p = some q) (rest : Ahead s q r) : Ahead s p r

/-- No process that the iterator would come to through processes that have left
the list loses its last references. -/
def Spares (e : Enumeration) : Move → Prop
  | .advance => True
  | .call action => ∀ p q, e.processPtr = some p → Ahead e.table p q → e.table.drops action q < e.table.refCount q

/-- The loop begun at `s` has come to `e` with so many increments, every call sparing what is ahead. -/
inductive Run (s : ProcessTable) : Enumeration → Nat → Prop where
  | start {e : Enumeration} (begins : s.processEnumerationBegin = some e) : Run s e 0
  | advance {e e' : Enumeration} {increments : Nat} (before : Run s e increments) (allowed : e.Allowed .advance)
      (result : e.step .advance = some e') : Run s e' (increments + 1)
  | call {e e' : Enumeration} {increments : Nat} {action : Action} (before : Run s e increments)
      (allowed : e.Allowed (.call action)) (spares : e.Spares (.call action))
      (result : e.step (.call action) = some e') : Run s e' increments

end Enumeration

/-- The `next` of a process, in the list or out of it, is an older process, and
skips none that is still in the list. -/
structure Follows (s : ProcessTable) (p : Nat) : Prop where
  older : ∀ q, s.next p = some q → 1 ≤ q ∧ q < p
  skipsNone : ∀ x, s.processes x = true → x < p → ∃ q, s.next p = some q ∧ x ≤ q

section Follows

variable {s s' : ProcessTable} {p q : Nat} {drops back : Nat → Int}

theorem Sound.next_listed (sound : s.Sound) (isListed : s.processes p = true) (link : s.next p = some q) :
    s.processes q = true ∧ q < p := by
  obtain ⟨chain, linked, _, falling, members⟩ := sound.linked
  obtain ⟨member, less⟩ := next_of_falling linked falling ((members p).mpr isListed) link
  exact ⟨(members q).mp member, less⟩

theorem Sound.follows_of_listed (sound : s.Sound) (isListed : s.processes p = true) : s.Follows p where
  older q link := by
    obtain ⟨nextListed, less⟩ := sound.next_listed isListed link
    exact ⟨(sound.old q nextListed).1, less⟩
  skipsNone x there less := by
    obtain ⟨chain, linked, _, falling, members⟩ := sound.linked
    obtain ⟨n, found, _, least⟩ :=
      le_next_of_falling linked falling ((members p).mpr isListed) ((members x).mpr there) less
    exact ⟨n, found, least⟩

/-- Once a process is out of the list its `next` stays, and nothing older enters the list. -/
theorem Stepped.follows (stepped : s.Stepped s' drops back) (before : ∀ p, p ≤ s.lastUsedPID → s.Follows p) :
    ∀ p, p ≤ s'.lastUsedPID → s'.Follows p := by
  intro p young
  by_cases isListed : s'.processes p = true
  · exact stepped.sound.follows_of_listed isListed
  · by_cases old : p ≤ s.lastUsedPID
    · have link := stepped.stale p old (Bool.eq_false_iff.mpr isListed)
      refine ⟨fun q found => (before p old).older q (link ▸ found), fun x there less => ?_⟩
      rw [link]
      rcases stepped.listed x there with listed | later
      · exact (before p old).skipsNone x listed less
      · omega
    · exact absurd (stepped.entered p (Nat.not_le.mp old) young) isListed

theorem follows_createNewTask (p : Nat) (old : p ≤ createNewTask.lastUsedPID) : createNewTask.Follows p := by
  by_cases init : p = 1
  · exact sound_createNewTask.follows_of_listed (init ▸ rfl)
  · have last : p ≤ 1 := old
    exact ⟨fun q found => (by cases found), fun x _ less => absurd less (by omega)⟩

theorem follows_run {first : ProcessTable} {actions : List Action} (sound : first.Sound)
    (follows : ∀ p, p ≤ first.lastUsedPID → first.Follows p) (run : Run first actions s) :
    ∀ p, p ≤ s.lastUsedPID → s.Follows p := by
  induction run with
  | start => exact follows
  | step before allowed result ih =>
    obtain ⟨after, found, stepped⟩ := sound_step (sound_run sound before) allowed
    rw [found] at result
    exact Option.some.inj result ▸ stepped.follows ih

/-- What is ahead through processes outside the list was ahead before a call, or is in the list still. -/
theorem Stepped.ahead (stepped : s.Stepped s' drops back) (sound : s.Sound)
    (follows : ∀ p, p ≤ s.lastUsedPID → s.Follows p) (old : p ≤ s.lastUsedPID) (ahead : Enumeration.Ahead s' p q) :
    s'.processes q = true ∨ Enumeration.Ahead s p q := by
  induction ahead with
  | @near p q gone link =>
    rw [stepped.stale p old gone] at link
    by_cases isListed : s.processes p = true
    · obtain ⟨nextListed, less⟩ := sound.next_listed isListed link
      exact .inl (stepped.stays p q isListed gone nextListed less.ne)
    · exact .inr (.near (Bool.eq_false_iff.mpr isListed) link)
  | @far p q r gone link rest ih =>
    rw [stepped.stale p old gone] at link
    have less := (follows p old).older q link
    rcases ih (less.2.le.trans old) with stays | before
    · exact .inl stays
    · by_cases isListed : s.processes p = true
      · obtain ⟨nextListed, less⟩ := sound.next_listed isListed link
        have stays := stepped.stays p q isListed gone nextListed less.ne
        cases before with
        | near away => rw [nextListed] at away; cases away
        | far away => rw [nextListed] at away; cases away
      · exact .inr (.far (Bool.eq_false_iff.mpr isListed) link before)

theorem Sound.refCount_pos (sound : s.Sound) (live : s.allocated p = true) : 0 < s.refCount p := by
  have held := sound.counted.allocated_iff.mp live
  have count := sound.counted.refCount_eq live
  omega

end Follows

namespace Enumeration

theorem Ahead.congr {s s' : ProcessTable} {p q : Nat} (ahead : Ahead s' p q) (processes : s'.processes = s.processes)
    (next : s'.next = s.next) : Ahead s p q := by
  induction ahead with
  | near gone link => exact .near (processes ▸ gone) (next ▸ link)
  | far gone link _ ih => exact .far (processes ▸ gone) (next ▸ link) ih

theorem Ahead.less {s : ProcessTable} {p q : Nat} (ahead : Ahead s p q)
    (follows : ∀ p, p ≤ s.lastUsedPID → s.Follows p) (old : p ≤ s.lastUsedPID) : q < p := by
  induction ahead with
  | near _ link => exact ((follows _ old).older _ link).2
  | far _ link _ ih =>
    have less := ((follows _ old).older _ link).2
    exact (ih (less.le.trans old)).trans less

variable {s : ProcessTable} {e e' : Enumeration} {increments : Nat}

/-- Where a loop that began at `s` stands. -/
structure Tracking (s : ProcessTable) (e : Enumeration) (increments : Nat) : Prop where
  begun : s.Sound
  sound : e.table.Sound
  follows : ∀ p, p ≤ e.table.lastUsedPID → e.table.Follows p
  later : s.lastUsedPID ≤ e.table.lastUsedPID
  held : ∀ p, e.processPtr = some p → 0 < e.table.references p
  spared : ∀ p q, e.processPtr = some p → Ahead e.table p q → e.table.allocated q = true
  here : ∀ p, e.processPtr = some p → ∃ earlier, e.visited = p :: earlier
  falling : e.visited.Pairwise (· < ·)
  bounded : ∀ q ∈ e.visited, 1 ≤ q ∧ q ≤ s.lastUsedPID
  counted : increments ≤ e.visited.length
  running : e.processPtr ≠ none → increments < e.visited.length
  covered : ∀ q, s.processes q = true → e.table.processes q = true →
    q ∈ e.visited ∨ ∃ p, e.processPtr = some p ∧ q < p

theorem tracking_start (sound : s.Sound) (follows : ∀ p, p ≤ s.lastUsedPID → s.Follows p) :
    ∃ e, s.processEnumerationBegin = some e ∧ Tracking s e 0 := by
  obtain ⟨chain, linked, head, falling, members⟩ := sound.linked
  cases chain with
  | nil => exact absurd ((members 1).mpr sound.initListed) List.not_mem_nil
  | cons first rest =>
    have first_eq : s.firstProcess = some first := head
    have isListed := (members first).mp List.mem_cons_self
    obtain ⟨s', handed, stepped, processes, _⟩ := sound.handOut (sound.allocated_of_listed isListed)
    refine ⟨⟨s', some first, [first]⟩, ?_, sound, stepped.sound, stepped.follows follows, stepped.last, ?_, ?_, ?_, ?_, ?_,
      Nat.zero_le _, fun _ => Nat.one_pos, ?_⟩
    · simp only [processEnumerationBegin, first_eq, handed, Option.bind_eq_bind, Option.bind_some]
    · rintro p same
      cases same
      have one := stepped.handedOut first
      rw [Pi.neg_apply, points_self] at one
      show 0 < s'.references first
      omega
    · rintro p q same ahead
      cases same
      have stays : s'.processes first = true := processes ▸ isListed
      cases ahead with
      | near gone => rw [stays] at gone; cases gone
      | far gone => rw [stays] at gone; cases gone
    · rintro p same
      cases same
      exact ⟨[], rfl⟩
    · exact List.pairwise_singleton _ _
    · intro q member
      rw [List.mem_singleton.mp member]
      exact sound.old first isListed
    · intro q before _
      rcases List.mem_cons.mp ((members q).mpr before) with same | older
      · exact .inl (same ▸ List.mem_cons_self)
      · exact .inr ⟨first, rfl, (List.pairwise_cons.mp falling).1 q older⟩

theorem Tracking.old {p : Nat} (tracking : Tracking s e increments) (here : e.processPtr = some p) :
    p ≤ e.table.lastUsedPID := by
  by_contra young
  have live := tracking.sound.allocated_of_reference (tracking.held p here)
  rw [tracking.sound.fresh p (Nat.not_le.mp young)] at live
  cases live

theorem Tracking.call {action : Action} (tracking : Tracking s e increments) (allowed : e.Allowed (.call action))
    (spares : e.Spares (.call action)) : ∃ e', e.step (.call action) = some e' ∧ Tracking s e' increments := by
  obtain ⟨permitted, keeps⟩ := allowed
  obtain ⟨s', result, stepped⟩ := sound_step tracking.sound permitted
  refine ⟨⟨s', e.processPtr, e.visited⟩, by simp only [step, result, Option.map_some], tracking.begun,
    stepped.sound, stepped.follows tracking.follows, tracking.later.trans stepped.last, ?_, ?_, tracking.here, tracking.falling,
    tracking.bounded, tracking.counted, tracking.running, ?_⟩
  · intro p here
    have held := tracking.held p here
    have kept : givenBack action p < e.table.references p := by
      cases action with
      | putProcess pid =>
        show points (some pid) p < _
        by_cases same : pid = p
        · have more := keeps pid rfl (same ▸ here)
          rw [same, points_self]
          rw [same] at more
          omega
        · rw [points_of_ne same]
          omega
      | _ => exact Int.natCast_pos.mpr held
    have left := stepped.handedOut p
    show 0 < s'.references p
    omega
  · intro p q here ahead
    rcases stepped.ahead tracking.sound tracking.follows (tracking.old here) ahead with stays | before
    · exact stepped.sound.allocated_of_listed stays
    · have live := tracking.spared p q here before
      have more := spares p q here before
      exact (stepped.costs q 0 le_rfl live (by omega)).1
  · intro q before now
    rcases stepped.listed q now with listed | young
    · exact tracking.covered q before listed
    · have old := (tracking.begun.old q before).2.trans tracking.later
      omega

/-- `operator++` at the end of the list. -/
theorem Tracking.finish {p : Nat} (tracking : Tracking s e increments) (here : e.processPtr = some p)
    (link : e.table.next p = none) : ∃ e', e.step .advance = some e' ∧ Tracking s e' (increments + 1) := by
  have held := tracking.held p here
  have live := tracking.sound.allocated_of_reference held
  have follow := tracking.follows p (tracking.old here)
  have allowed : e.processPtr ≠ none := by simp [here]
  obtain ⟨s', gave, stepped, processes, _⟩ := tracking.sound.giveBack held
  refine ⟨⟨s', none, e.visited⟩, ?_, tracking.begun, stepped.sound, stepped.follows tracking.follows,
    tracking.later.trans stepped.last, ?_, ?_, ?_, tracking.falling, tracking.bounded, tracking.running allowed, ?_, ?_⟩
  · simp only [step, next, here, load_of_allocated live, link, gave, Option.bind_eq_bind, Option.bind_some]
  · intro q same
    cases same
  · intro q _ same
    cases same
  · intro q same
    cases same
  · exact fun running => absurd rfl running
  · intro q before now
    have listed : e.table.processes q = true := processes ▸ now
    rcases tracking.covered q before listed with seen | ⟨r, same, less⟩
    · exact .inl seen
    · cases here.symm.trans same
      obtain ⟨n, found, _⟩ := follow.skipsNone q listed less
      cases link.symm.trans found

/-- `operator++` finds the next process allocated. -/
theorem Tracking.move {p n : Nat} (tracking : Tracking s e increments) (here : e.processPtr = some p)
    (link : e.table.next p = some n) : ∃ e', e.step .advance = some e' ∧ Tracking s e' (increments + 1) := by
  have held := tracking.held p here
  have live := tracking.sound.allocated_of_reference held
  have old := tracking.old here
  have follow := tracking.follows p old
  have allowed : e.processPtr ≠ none := by simp [here]
  obtain ⟨earlier, visits⟩ := tracking.here p here
  obtain ⟨positive, less⟩ := follow.older n link
  have nextLive : e.table.allocated n = true := by
    by_cases isListed : e.table.processes p = true
    · exact tracking.sound.allocated_of_listed (tracking.sound.next_listed isListed link).1
    · exact tracking.spared p n here (.near (Bool.eq_false_iff.mpr isListed) link)
  obtain ⟨s₁, handed, stepped₁, processes₁, next₁⟩ := tracking.sound.handOut nextLive
  have handedTo (q : Nat) : (e.table.references q : Int) + points (some n) q ≤ s₁.references q := by
    have left := stepped₁.handedOut q
    rw [Pi.neg_apply] at left
    omega
  have held₁ : 0 < s₁.references p := by
    have one := points_nonneg (some n) p
    have left := handedTo p
    omega
  obtain ⟨s₂, gave, stepped₂, processes₂, next₂⟩ := stepped₁.sound.giveBack held₁
  have processes : s₂.processes = e.table.processes := processes₂.trans processes₁
  have nexts : s₂.next = e.table.next := next₂.trans next₁
  refine ⟨⟨s₂, some n, n :: e.visited⟩, ?_, tracking.begun, stepped₂.sound,
    stepped₂.follows (stepped₁.follows tracking.follows), (tracking.later.trans stepped₁.last).trans stepped₂.last,
    ?_, ?_, ?_, ?_, ?_, Nat.succ_le_succ tracking.counted, fun _ => Nat.succ_lt_succ (tracking.running allowed), ?_⟩
  · simp only [step, next, here, load_of_allocated live, link, handed, gave, Option.bind_eq_bind, Option.bind_some]
  · intro q same
    cases same
    have left := handedTo n
    have kept := stepped₂.handedOut n
    rw [points_self] at left
    rw [points_of_ne less.ne'] at kept
    show 0 < s₂.references n
    omega
  · intro q r same ahead
    cases same
    have before : Ahead e.table n r := ahead.congr processes nexts
    have less' : r < p := (before.less tracking.follows (less.le.trans old)).trans less
    have nextListed (isListed : e.table.processes p = true) : e.table.processes n = true :=
      (tracking.sound.next_listed isListed link).1
    have outside : e.table.processes p = false := by
      refine Bool.eq_false_iff.mpr fun isListed => ?_
      cases before with
      | near gone => rw [nextListed isListed] at gone; cases gone
      | far gone => rw [nextListed isListed] at gone; cases gone
    have spared := tracking.spared p r here (.far outside link before)
    have positive := tracking.sound.refCount_pos spared
    obtain ⟨kept, count⟩ := stepped₁.costs r 0 le_rfl spared (by rw [Pi.zero_apply]; omega)
    exact (stepped₂.costs r 0 le_rfl kept (by rw [points_of_ne less'.ne']; omega)).1
  · rintro q same
    cases same
    exact ⟨e.visited, rfl⟩
  · refine List.pairwise_cons.mpr ⟨fun q member => ?_, tracking.falling⟩
    rw [visits] at member
    rcases List.mem_cons.mp member with same | earlierMember
    · exact same ▸ less
    · exact less.trans ((List.pairwise_cons.mp (visits ▸ tracking.falling)).1 q earlierMember)
  · intro q member
    rcases List.mem_cons.mp member with same | older
    · have bound := (tracking.bounded p (visits ▸ List.mem_cons_self)).2
      exact same ▸ ⟨positive, less.le.trans bound⟩
    · exact tracking.bounded q older
  · intro q before now
    have listed : e.table.processes q = true := processes ▸ now
    rcases tracking.covered q before listed with seen | ⟨r, same, older⟩
    · exact .inl (List.mem_cons_of_mem n seen)
    · cases here.symm.trans same
      obtain ⟨m, found, most⟩ := follow.skipsNone q listed older
      cases link.symm.trans found
      rcases Nat.eq_or_lt_of_le most with same | further
      · exact .inl (same ▸ List.mem_cons_self)
      · exact .inr ⟨n, rfl, further⟩

theorem Tracking.advance (tracking : Tracking s e increments) (allowed : e.Allowed .advance) :
    ∃ e', e.step .advance = some e' ∧ Tracking s e' (increments + 1) := by
  obtain ⟨p, here⟩ := Option.ne_none_iff_exists'.mp allowed
  cases link : e.table.next p with
  | none => exact tracking.finish here link
  | some n => exact tracking.move here link

theorem tracking_run (sound : s.Sound) (follows : ∀ p, p ≤ s.lastUsedPID → s.Follows p)
    (run : Run s e increments) : Tracking s e increments := by
  induction run with
  | start begins =>
    obtain ⟨first, found, tracking⟩ := tracking_start sound follows
    rw [found] at begins
    exact Option.some.inj begins ▸ tracking
  | advance _ allowed result ih =>
    obtain ⟨after, found, tracking⟩ := ih.advance allowed
    rw [found] at result
    exact Option.some.inj result ▸ tracking
  | call _ allowed spares result ih =>
    obtain ⟨after, found, tracking⟩ := ih.call allowed spares
    rw [found] at result
    exact Option.some.inj result ▸ tracking

/-- A loop among calls that free nothing ahead of its iterator reads no freed
process, makes at most `lastUsedPID` increments, and when it ends has been
exactly once at every process that was in the list all the time. -/
theorem sparing_enumeration_visits_once {actions : List Action} (before : ProcessTable.Run createNewTask actions s)
    (run : Run s e increments) :
    (∀ move, e.Allowed move → e.Spares move → ∃ e', e.step move = some e') ∧ increments ≤ s.lastUsedPID ∧
      (e.processPtr = none → ∀ q, s.processes q = true → e.table.processes q = true → e.visited.count q = 1) := by
  have sound := sound_run sound_createNewTask before
  have tracking := tracking_run sound (follows_run sound_createNewTask follows_createNewTask before) run
  have once : e.visited.Nodup := tracking.falling.imp fun less => less.ne
  refine ⟨fun move allowed spares => ?_, ?_, fun ended q first last => ?_⟩
  · cases move with
    | advance =>
      obtain ⟨e', result, _⟩ := tracking.advance allowed
      exact ⟨e', result⟩
    | call action =>
      obtain ⟨e', result, _⟩ := tracking.call allowed spares
      exact ⟨e', result⟩
  · have inside : e.visited ⊆ List.range' 1 s.lastUsedPID := fun q member => by
      obtain ⟨positive, old⟩ := tracking.bounded q member
      exact List.mem_range'_1.mpr ⟨positive, by omega⟩
    have few := (once.subperm inside).length_le
    rw [List.length_range'] at few
    exact tracking.counted.trans few
  · rcases tracking.covered q first last with seen | ⟨p, here, _⟩
    · exact List.count_eq_one_of_mem once seen
    · rw [ended] at here
      cases here

/-- The process the loop is at is reaped, and the others are still visited once. -/
theorem enumeration_outlives_reaped_process : ∃ s e, ProcessTable.Run createNewTask [.fork 1, .fork 1] s ∧
    Run s e 3 ∧ e.table.processes 3 = false ∧ e.visited.count 2 = 1 := by
  have run : ∃ s e, ProcessTable.Run createNewTask [.fork 1, .fork 1] s ∧ Run s e 3 ∧ e.table.processes 3 = false ∧
      e.processPtr = none ∧ s.processes 2 = true ∧ e.table.processes 2 = true := by
    refine ⟨_, _, .step (.step (.start createNewTask) (by decide) rfl) (by decide) rfl, .advance (.advance
      (.advance (.call (.start rfl) (show Allowed _ (.call (.removePid 3)) from ⟨by decide, fun _ put => by cases put⟩)
        ?_ rfl) (by exact Option.some_ne_none 3) rfl) (by exact Option.some_ne_none 2) rfl) (by exact Option.some_ne_none 1) rfl,
      rfl, rfl, rfl, rfl⟩
    rintro p q here ahead
    cases here
    cases ahead with
    | near gone => cases gone
    | far gone => cases gone
  obtain ⟨s, e, before, loop, reaped, ended, first, last⟩ := run
  exact ⟨s, e, before, loop, reaped, (sparing_enumeration_visits_once before loop).2.2 ended 2 first last⟩

/-- Two processes end and are reaped while the loop is at the first of them: it
then reads the other one, which was freed. -/
theorem enumeration_reads_freed_process : ∃ s e e₁ e₂,
    ProcessTable.Run createNewTask [.fork 1, .fork 1, .fork 1, .exit 4, .exit 3] s ∧
    s.processEnumerationBegin = some e ∧
    e.Allowed (.call (.removePid 4)) ∧ e.step (.call (.removePid 4)) = some e₁ ∧
    e₁.Allowed (.call (.removePid 3)) ∧ e₁.step (.call (.removePid 3)) = some e₂ ∧
    e₂.Allowed .advance ∧ e₂.processPtr = some 4 ∧ e₂.table.next 4 = some 3 ∧ e₂.table.allocated 3 = false ∧
    e₂.step .advance = none :=
  ⟨_, _, _, _, .step (.step (.step (.step (.step (.start createNewTask) (by decide) rfl) (by decide) rfl) (by decide)
    rfl) (by decide) rfl) (by decide) rfl, rfl, ⟨by decide, fun _ put => by cases put⟩, rfl,
    ⟨by decide, fun _ put => by cases put⟩, rfl, by exact Option.some_ne_none 4, rfl, rfl, rfl, rfl⟩

end Enumeration

end FluxOS.ProcessTable
