import FluxOS.Words

/-! A reader that waits for a datagram, step by step, and the datagrams that arrive between its
steps: when it cannot sleep with a datagram in its queue. -/
namespace FluxOS
open Words

namespace EventsManager

variable {V T : Type*}

structure EventListener (V T : Type*) where
  resource : V
  thread : T
  filter : Word

def newDataAvail : Word := 1#32

def connectEventListener (eventListeners : List (EventListener V T)) (resource : V) (thread : T) (filter : Word) :
    List (EventListener V T) :=
  eventListeners ++ [⟨resource, thread, filter⟩]

/-- The first listener of the resource for one of the events, and the others. -/
def takeEventListener [DecidableEq V] (resource : V) (filter : Word) :
    List (EventListener V T) → Option T × List (EventListener V T)
  | [] => (none, [])
  | listener :: later =>
    if listener.resource = resource ∧ has listener.filter filter then (some listener.thread, later)
    else ((takeEventListener resource filter later).1, listener :: (takeEventListener resource filter later).2)

theorem takeEventListener_none [DecidableEq V] {resource : V} {filter : Word} {eventListeners : List (EventListener V T)}
    (others : ∀ listener ∈ eventListeners, listener.resource ≠ resource) :
    takeEventListener resource filter eventListeners = (none, eventListeners) := by
  induction eventListeners with
  | nil => rfl
  | cons listener later ih =>
    have rest := ih fun other mem => others other (.tail _ mem)
    rw [takeEventListener, if_neg fun found => others listener (.head _) found.1, rest]

/-- A listener that was connected behind those of other resources is the one taken. -/
theorem takeEventListener_connected [DecidableEq V] {resource : V} {filter : Word} {thread : T}
    {eventListeners : List (EventListener V T)} (others : ∀ listener ∈ eventListeners, listener.resource ≠ resource)
    (same : has filter filter = true) :
    takeEventListener resource filter (connectEventListener eventListeners resource thread filter) =
      (some thread, eventListeners) := by
  induction eventListeners with
  | nil => simp [connectEventListener, takeEventListener, same]
  | cons listener later ih =>
    have rest := ih fun other mem => others other (.tail _ mem)
    rw [connectEventListener] at rest
    rw [connectEventListener, List.cons_append, takeEventListener,
      if_neg fun found => others listener (.head _) found.1, rest]

end EventsManager

namespace SocketWakeup
open EventsManager

inductive ThreadStatus where
  | running | uWaiting | iWaiting | defunct
  deriving DecidableEq, Repr

/-- Where in `recvfrom` the reader is: in no call, behind each of its steps, or in the loop of
`schedule`, and behind it. -/
inductive Place where
  | outside | tested | marked | registered | asleep | woken
  deriving DecidableEq, Repr

structure State (V T D : Type*) where
  datagrams : List D
  status : T → ThreadStatus
  eventListeners : List (EventListener V T)
  place : Place

inductive Action (D : Type*) where
  | reader
  | arrives (datagram : D)

variable {V T D : Type*} [DecidableEq V] [DecidableEq T] (socknode : V) (currentThread : T)

/-- The reader's next step in `recvfrom`; in the loop of `schedule` there is none before its status
changes. -/
def recvfromStep (s : State V T D) : Option (State V T D) :=
  match s.place with
  | .outside =>
    match s.datagrams with
    | _ :: rest => some { s with datagrams := rest }
    | [] => some { s with place := .tested }
  | .tested => some { s with status := Function.update s.status currentThread .iWaiting, place := .marked }
  | .marked =>
    some { s with
      eventListeners := connectEventListener s.eventListeners socknode currentThread newDataAvail
      place := .registered }
  | .registered => some { s with place := .asleep }
  | .asleep => if s.status currentThread = .running then some { s with place := .woken } else none
  | .woken => some { s with datagrams := s.datagrams.tail, place := .outside }

/-- The end of `processUDPPacket`, in the interrupt. -/
def arrival (s : State V T D) (datagram : D) : State V T D :=
  let (thread, eventListeners) := takeEventListener socknode newDataAvail s.eventListeners
  { s with
    datagrams := s.datagrams ++ [datagram]
    status := match thread with
      | some thread => Function.update s.status thread .running
      | none => s.status
    eventListeners := eventListeners }

def step (s : State V T D) : Action D → Option (State V T D)
  | .reader => recvfromStep socknode currentThread s
  | .arrives datagram => some (arrival socknode s datagram)

/-- The reader is in no call, and nobody listens to its socket. -/
structure Fresh (s : State V T D) : Prop where
  place : s.place = .outside
  status : s.status currentThread = .running
  others : ∀ listener ∈ s.eventListeners, listener.resource ≠ socknode

/-- Nothing arrives between the test of the queue and the listener's registration. -/
def Met (s : State V T D) : Action D → Prop
  | .reader => True
  | .arrives _ => s.place ≠ .tested ∧ s.place ≠ .marked

/-- The states of the runs whose steps all meet the condition. -/
inductive Reached (first : State V T D) : State V T D → Prop where
  | first : Reached first first
  | step {s next : State V T D} {action : Action D} (reached : Reached first s) (met : Met s action)
      (does : step socknode currentThread s action = some next) : Reached first next

variable {socknode currentThread} in
theorem Reached.reader {first s next : State V T D} (reached : Reached socknode currentThread first s)
    (does : recvfromStep socknode currentThread s = some next) : Reached socknode currentThread first next :=
  have met : Met s Action.reader := trivial
  reached.step met does

variable {socknode currentThread} in
theorem Reached.arrives {first s : State V T D} (reached : Reached socknode currentThread first s)
    (met : s.place ≠ .tested ∧ s.place ≠ .marked) (datagram : D) :
    Reached socknode currentThread first (arrival socknode s datagram) :=
  have met : Met s (Action.arrives datagram) := met
  reached.step met rfl

/-- A reader in the loop of `schedule` has nothing to read or is about to leave it. -/
def Awake (s : State V T D) : Prop :=
  s.place = .asleep → s.datagrams = [] ∨ s.status currentThread = .running

/-- The reader's listener is the last one, and the only one of the socket; or there is none. -/
def Listening (s : State V T D) : Prop :=
  ∃ others, (∀ listener ∈ others, listener.resource ≠ socknode) ∧
    s.eventListeners = connectEventListener others socknode currentThread newDataAvail

def Unheard (s : State V T D) : Prop := ∀ listener ∈ s.eventListeners, listener.resource ≠ socknode

/-- What holds at each place. -/
def Consistent (s : State V T D) : Prop :=
  match s.place with
  | .outside | .woken => s.status currentThread = .running ∧ Unheard socknode s
  | .tested => s.status currentThread = .running ∧ Unheard socknode s ∧ s.datagrams = []
  | .marked => s.status currentThread = .iWaiting ∧ Unheard socknode s ∧ s.datagrams = []
  | .registered | .asleep =>
    s.status currentThread = .iWaiting ∧ Listening socknode currentThread s ∧ s.datagrams = [] ∨
      s.status currentThread = .running ∧ Unheard socknode s

variable {socknode currentThread}

theorem arrival_unheard {s : State V T D} (unheard : Unheard socknode s) (datagram : D) :
    arrival socknode s datagram = { s with datagrams := s.datagrams ++ [datagram] } := by
  rw [arrival, takeEventListener_none unheard]

theorem arrival_listening {s : State V T D} (listening : Listening socknode currentThread s) (datagram : D) :
    (arrival socknode s datagram).place = s.place ∧
      (arrival socknode s datagram).status currentThread = .running ∧ Unheard socknode (arrival socknode s datagram) := by
  obtain ⟨others, different, same⟩ := listening
  rw [arrival, same, takeEventListener_connected different (by decide)]
  exact ⟨rfl, Function.update_self _ _ _, different⟩

/-- Behind its registration the reader is awake after an arrival: its listener is taken
now, or was taken by an earlier one. -/
theorem arrival_wakes {s : State V T D}
    (registered : s.status currentThread = .iWaiting ∧ Listening socknode currentThread s ∧ s.datagrams = [] ∨
      s.status currentThread = .running ∧ Unheard socknode s) (datagram : D) :
    (arrival socknode s datagram).place = s.place ∧
      (arrival socknode s datagram).status currentThread = .running ∧ Unheard socknode (arrival socknode s datagram) := by
  obtain ⟨-, listening, -⟩ | awake := registered
  · exact arrival_listening listening datagram
  · rw [arrival_unheard awake.2]
    exact ⟨rfl, awake⟩

omit [DecidableEq V] in
theorem Consistent.reader {s next : State V T D} (holds : Consistent socknode currentThread s)
    (does : recvfromStep socknode currentThread s = some next) : Consistent socknode currentThread next := by
  obtain ⟨datagrams, status, eventListeners, place⟩ := s
  cases place with
  | outside =>
    cases datagrams with
    | nil =>
      cases does
      exact ⟨holds.1, holds.2, rfl⟩
    | cons datagram rest =>
      cases does
      exact holds
  | tested =>
    cases does
    exact ⟨Function.update_self _ _ _, holds.2⟩
  | marked =>
    cases does
    exact .inl ⟨holds.1, ⟨eventListeners, holds.2.1, rfl⟩, holds.2.2⟩
  | registered =>
    cases does
    exact holds
  | asleep =>
    obtain ⟨running, same⟩ := Option.ite_none_right_eq_some.mp does
    cases same
    obtain ⟨waiting, -⟩ | awake := holds
    · rw [waiting] at running
      cases running
    · exact awake
  | woken =>
    cases does
    exact holds

theorem Consistent.arrives {s : State V T D} (holds : Consistent socknode currentThread s)
    (met : s.place ≠ .tested ∧ s.place ≠ .marked) (datagram : D) :
    Consistent socknode currentThread (arrival socknode s datagram) := by
  obtain ⟨datagrams, status, eventListeners, place⟩ := s
  cases place with
  | outside =>
    rw [arrival_unheard holds.2]
    exact holds
  | tested => exact absurd rfl met.1
  | marked => exact absurd rfl met.2
  | registered =>
    obtain ⟨place, awake⟩ := arrival_wakes holds datagram
    rw [Consistent, place]
    exact .inr awake
  | asleep =>
    obtain ⟨place, awake⟩ := arrival_wakes holds datagram
    rw [Consistent, place]
    exact .inr awake
  | woken =>
    rw [arrival_unheard holds.2]
    exact holds

omit [DecidableEq V] [DecidableEq T] in
theorem Fresh.consistent {first : State V T D} (fresh : Fresh socknode currentThread first) :
    Consistent socknode currentThread first := by
  rw [Consistent, fresh.place]
  exact ⟨fresh.status, fresh.others⟩

theorem Reached.consistent {first s : State V T D} (fresh : Fresh socknode currentThread first)
    (reached : Reached socknode currentThread first s) : Consistent socknode currentThread s := by
  induction reached with
  | first => exact fresh.consistent
  | @step s next action reached met does ih =>
    cases action with
    | reader => exact ih.reader does
    | arrives datagram =>
      cases does
      exact ih.arrives met datagram

/-- **No lost wakeup** in a run in which nothing arrives between the test and the registration. -/
theorem awake_of_reached {first s : State V T D} (fresh : Fresh socknode currentThread first)
    (reached : Reached socknode currentThread first s) : Awake currentThread s := by
  intro asleep
  have holds := reached.consistent fresh
  rw [Consistent, asleep] at holds
  obtain ⟨-, -, empty⟩ | ⟨running, -⟩ := holds
  · exact .inl empty
  · exact .inr running

def idle : State Nat Nat Unit := ⟨[], fun _ => .running, [], .outside⟩

/-- The reader asleep with nothing in its queue. -/
def sleeper : State Nat Nat Unit :=
  ⟨[], Function.update (fun _ => .running) 0 .iWaiting, connectEventListener [] 0 0 newDataAvail, .asleep⟩

theorem sleeper_woken : Awake 0 (arrival 0 sleeper ()) := by
  have fresh : Fresh 0 0 idle := ⟨rfl, rfl, fun _ mem => absurd mem List.not_mem_nil⟩
  have asleep : Reached 0 0 idle sleeper := (((Reached.first.reader rfl).reader rfl).reader rfl).reader rfl
  exact awake_of_reached fresh (asleep.arrives ⟨by decide, by decide⟩ ())

/-- The reader goes on by itself until it sleeps. -/
inductive FallsAsleep (socknode : V) (currentThread : T) : State V T D → State V T D → Prop where
  | asleep {s : State V T D} (place : s.place = .asleep) : FallsAsleep socknode currentThread s s
  | step {s next last : State V T D} (does : recvfromStep socknode currentThread s = some next)
      (later : FallsAsleep socknode currentThread next last) : FallsAsleep socknode currentThread s last

/-- What arrives in between is lost on the reader when it comes to sleep. -/
theorem arrival_between_lost {s : State V T D} (holds : Consistent socknode currentThread s)
    (between : s.place = .tested ∨ s.place = .marked) (datagram : D) :
    ∃ last, FallsAsleep socknode currentThread (arrival socknode s datagram) last ∧ ¬Awake currentThread last := by
  obtain ⟨datagrams, status, eventListeners, place⟩ := s
  obtain tested | marked := between
  · cases tested
    obtain ⟨running, unheard, empty⟩ := holds
    rw [arrival_unheard unheard]
    refine ⟨_, .step rfl (.step rfl (.step rfl (.asleep rfl))), fun awake => ?_⟩
    obtain none | running := awake rfl
    · exact absurd none (List.append_ne_nil_of_right_ne_nil _ (List.cons_ne_nil _ _))
    · have waiting : Function.update status currentThread ThreadStatus.iWaiting currentThread = .iWaiting :=
        Function.update_self _ _ _
      exact ThreadStatus.noConfusion (waiting.symm.trans running)
  · cases marked
    obtain ⟨waiting, unheard, empty⟩ := holds
    rw [arrival_unheard unheard]
    refine ⟨_, .step rfl (.step rfl (.asleep rfl)), fun awake => ?_⟩
    obtain none | running := awake rfl
    · exact absurd none (List.append_ne_nil_of_right_ne_nil _ (List.cons_ne_nil _ _))
    · exact ThreadStatus.noConfusion (waiting.symm.trans running)

/-- The queue is tested, a datagram arrives, and the reader falls asleep. -/
theorem arrival_after_test :
    (([.reader, .arrives (), .reader, .reader, .reader] : List (Action Unit)).foldlM (step 0 0) idle).map
      (fun s => (s.place, s.datagrams, s.status 0)) = some (.asleep, [()], .iWaiting) := rfl

end SocketWakeup
end FluxOS
