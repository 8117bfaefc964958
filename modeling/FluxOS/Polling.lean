import FluxOS.FSUAPI
import FluxOS.SocketWakeup

/-! `poll`: a listener for each entry that names an open file, and what is read off them when the
thread wakes. -/
namespace FluxOS
open Words

namespace EventsManager

variable {V T : Type*}

def noEvent : Word := 0#32

/-- Whether there was a listener of the thread for the resource, and the listeners without the first. -/
def disconnectEventListener [DecidableEq V] [DecidableEq T] (resource : V) (thread : T) :
    List (EventListener V T) → Bool × List (EventListener V T)
  | [] => (false, [])
  | listener :: later =>
    if listener.thread = thread ∧ listener.resource = resource then (true, later)
    else
      let (found, rest) := disconnectEventListener resource thread later
      (found, listener :: rest)

/-- The listeners that an arrival on the node may wake. -/
def hears [DecidableEq V] (node : V) (listener : EventListener V T) : Bool :=
  decide (listener.resource = node ∧ has listener.filter newDataAvail = true)

def own [DecidableEq V] [DecidableEq T] (thread : T) (node : V) (listener : EventListener V T) : Bool :=
  decide (listener.thread = thread ∧ listener.resource = node)

theorem takeEventListener_snd [DecidableEq V] (node : V) (listeners : List (EventListener V T)) :
    (takeEventListener node newDataAvail listeners).2 = listeners.eraseP (hears node) := by
  induction listeners with
  | nil => rfl
  | cons listener later ih =>
    by_cases first : listener.resource = node ∧ has listener.filter newDataAvail = true
    · have heard : hears node listener = true := decide_eq_true first
      rw [takeEventListener, if_pos first, List.eraseP_cons_of_pos heard]
    · have passes : ¬hears node listener = true := fun heard => first (of_decide_eq_true heard)
      rw [takeEventListener, if_neg first, List.eraseP_cons_of_neg passes, ih]

theorem disconnectEventListener_eq [DecidableEq V] [DecidableEq T] (node : V) (thread : T)
    (listeners : List (EventListener V T)) :
    disconnectEventListener node thread listeners =
      (listeners.any (own thread node), listeners.eraseP (own thread node)) := by
  induction listeners with
  | nil => rfl
  | cons listener later ih =>
    by_cases first : listener.thread = thread ∧ listener.resource = node
    · have mine : own thread node listener = true := decide_eq_true first
      rw [disconnectEventListener, if_pos first, List.eraseP_cons_of_pos mine, List.any_cons, mine, Bool.true_or]
    · have passes : own thread node listener = false := decide_eq_false first
      rw [disconnectEventListener, if_neg first, List.eraseP_cons_of_neg (Bool.eq_false_iff.mp passes), ih,
        List.any_cons, passes, Bool.false_or]

end EventsManager

structure PollFd where
  fd : Int
  events : BitVec 16
  revents : BitVec 16
  deriving DecidableEq, Repr

namespace FSUAPI
open EventsManager

def pollin : BitVec 16 := 1#16
def pollnval : BitVec 16 := 32#16

/-- `events & POLLIN`, of `events` and of `revents`. -/
def hasPollin (events : BitVec 16) : Bool := decide (events &&& pollin ≠ 0#16)

variable {T : Type*} [DecidableEq T] (files : OpenFiles) (currentThread : T)

/-- What every listener of the call is registered for: it is the first entry that is asked. -/
def eType (fds : List PollFd) : Word :=
  match fds with
  | [] => noEvent
  | first :: _ => if hasPollin first.events then noEvent ||| newDataAvail else noEvent

/-- The first loop of `poll`. -/
def registerAll (eType : Word) :
    List PollFd → List (EventListener VNode T) → List (EventListener VNode T)
  | [], listeners => listeners
  | entry :: later, listeners =>
    match descriptor files entry.fd with
    | none => registerAll eType later listeners
    | some fdesc => registerAll eType later (connectEventListener listeners fdesc.node currentThread eType)

/-- What arrives while the thread is in `schedule`, each datagram for the node it is for. -/
def waitFor (arrivals : List VNode) (listeners : List (EventListener VNode T)) : List (EventListener VNode T) :=
  arrivals.foldl (fun listeners node => (takeEventListener node newDataAvail listeners).2) listeners

/-- Whether one of the arrivals sets the thread running again. -/
def woken : List VNode → List (EventListener VNode T) → Bool
  | [], _ => false
  | node :: arrivals, listeners =>
    let (thread, listeners) := takeEventListener node newDataAvail listeners
    decide (thread = some currentThread) || woken arrivals listeners

/-- The second loop of `poll`. -/
def reportAll : List PollFd → List (EventListener VNode T) → List PollFd × List (EventListener VNode T)
  | [], listeners => ([], listeners)
  | entry :: later, listeners =>
    match descriptor files entry.fd with
    | none =>
      let (reported, rest) := reportAll later listeners
      ({ entry with revents := pollnval } :: reported, rest)
    | some fdesc =>
      let (found, listeners) := disconnectEventListener fdesc.node currentThread listeners
      let (reported, rest) := reportAll later listeners
      ({ entry with revents := if found then 0#16 else 0#16 ||| pollin } :: reported, rest)

/-- `poll` with the first `nfds` entries of the array, where it returns; it then returns 0. A thread that no
arrival wakes may still be woken by a timer it left behind. -/
def poll (fds : List PollFd) (timeout : Int) (arrivals : List VNode) (timerExpires : Bool)
    (listeners : List (EventListener VNode T)) : Option (List PollFd × List (EventListener VNode T)) :=
  if timeout = 0 then some (fds, listeners)
  else
    let registered := registerAll files currentThread (eType fds) fds listeners
    if timerExpires || woken currentThread arrivals registered then
      some (reportAll files currentThread fds (waitFor arrivals registered))
    else none

/-- The node of the open file that an entry names. -/
def polledNode (entry : PollFd) : Option VNode := (descriptor files entry.fd).map FileDescriptor.node

/-- How many of the entries name an open file on the node. -/
def timesPolled (node : VNode) (fds : List PollFd) : Nat := fds.countP fun entry => polledNode files entry = some node

/-- What `poll` should give: data that arrived is reported where it was asked for, nothing else is, and the
thread does not listen any more. -/
structure Reports (fds : List PollFd) (arrivals : List VNode) (result : List PollFd × List (EventListener VNode T)) :
    Prop where
  length : result.1.length = fds.length
  requested : ∀ (i : Nat) (entry reported : PollFd) (node : VNode),
    fds[i]? = some entry → result.1[i]? = some reported →
    polledNode files entry = some node → hasPollin entry.events = true →
    (hasPollin reported.revents = true ↔ node ∈ arrivals)
  others : ∀ (i : Nat) (entry reported : PollFd), fds[i]? = some entry → result.1[i]? = some reported →
    polledNode files entry = none ∨ hasPollin entry.events = false → hasPollin reported.revents = false
  disconnected : ∀ entry ∈ fds, ∀ node, polledNode files entry = some node →
    ∀ listener ∈ result.2, ¬(listener.thread = currentThread ∧ listener.resource = node)

/-- How many of the call's own listeners on the node are taken by what arrives: those before them in the
list come first, and where the first entry does not ask for input none is. -/
def served (fds : List PollFd) (arrivals : List VNode) (listeners : List (EventListener VNode T)) (node : VNode) :
    Nat :=
  if has (eType fds) newDataAvail = true then
    min (arrivals.count node - (listeners.filter (hears node)).length) (timesPolled files node fds)
  else 0

/-- How many listeners the thread had on the node before the call are not taken. -/
def stale (arrivals : List VNode) (listeners : List (EventListener VNode T)) (node : VNode) : Nat :=
  ((listeners.filter (hears node)).drop (arrivals.count node)).countP (own currentThread node) +
    listeners.countP fun listener => own currentThread node listener && !hears node listener

/-- On a node with data the entries that ask for input are the last ones, as many as are served. -/
def LastOnesAsk (fds : List PollFd) (arrivals : List VNode) (listeners : List (EventListener VNode T)) : Prop :=
  ∀ (i : Nat) (entry : PollFd) (node : VNode), fds[i]? = some entry → polledNode files entry = some node →
    stale currentThread arrivals listeners node ≤ served files fds arrivals listeners node ∧
      (node ∈ arrivals →
        (hasPollin entry.events = true ↔
          timesPolled files node (fds.drop i) + stale currentThread arrivals listeners node ≤
            served files fds arrivals listeners node))

/-! ## The three passes over the listeners -/

section FirstRemoved

variable {α : Type*} {p q : α → Bool}

theorem filter_eraseP (l : List α) : (l.eraseP p).filter p = (l.filter p).tail := by
  induction l with
  | nil => rfl
  | cons x l ih =>
    by_cases first : p x = true
    · rw [List.eraseP_cons_of_pos first, List.filter_cons_of_pos first, List.tail_cons]
    · rw [List.eraseP_cons_of_neg first, List.filter_cons_of_neg first, List.filter_cons_of_neg first, ih]

theorem filter_eraseP_of_disjoint (disjoint : ∀ x, p x = true → q x = false) (l : List α) :
    (l.eraseP p).filter q = l.filter q := by
  induction l with
  | nil => rfl
  | cons x l ih =>
    by_cases first : p x = true
    · rw [List.eraseP_cons_of_pos first, List.filter_cons_of_neg (Bool.eq_false_iff.mp (disjoint x first))]
    · rw [List.eraseP_cons_of_neg first, List.filter_cons, List.filter_cons, ih]

theorem countP_eraseP (l : List α) : (l.eraseP p).countP p = l.countP p - 1 := by
  rw [List.countP_eq_length_filter, filter_eraseP, List.length_tail, List.countP_eq_length_filter]

theorem countP_eraseP_of_disjoint (disjoint : ∀ x, p x = true → q x = false) (l : List α) :
    (l.eraseP p).countP q = l.countP q := by
  rw [List.countP_eq_length_filter, filter_eraseP_of_disjoint disjoint, List.countP_eq_length_filter]

end FirstRemoved

variable {files currentThread}

theorem polledNode_none {entry : PollFd} : polledNode files entry = none ↔ descriptor files entry.fd = none :=
  Option.map_eq_none_iff

theorem timesPolled_cons_self {node : VNode} {entry : PollFd} (names : polledNode files entry = some node)
    (fds : List PollFd) : timesPolled files node (entry :: fds) = timesPolled files node fds + 1 :=
  List.countP_cons_of_pos (decide_eq_true names)

theorem timesPolled_cons_other {node : VNode} {entry : PollFd} (other : polledNode files entry ≠ some node)
    (fds : List PollFd) : timesPolled files node (entry :: fds) = timesPolled files node fds :=
  List.countP_cons_of_neg fun names => other (of_decide_eq_true names)

/-- The listeners that the first loop appends. -/
def registered (files : OpenFiles) (currentThread : T) (eType : Word) (fds : List PollFd) :
    List (EventListener VNode T) :=
  fds.filterMap fun entry => (polledNode files entry).map fun node => ⟨node, currentThread, eType⟩

omit [DecidableEq T] in
theorem registerAll_eq (eType : Word) (fds : List PollFd) (listeners : List (EventListener VNode T)) :
    registerAll files currentThread eType fds listeners = listeners ++ registered files currentThread eType fds := by
  induction fds generalizing listeners with
  | nil => exact (List.append_nil listeners).symm
  | cons entry later ih =>
    rw [registerAll, registered, List.filterMap_cons, polledNode]
    cases descriptor files entry.fd with
    | none => exact ih listeners
    | some fdesc =>
      refine (ih _).trans ?_
      rw [connectEventListener, List.append_assoc]
      rfl

omit [DecidableEq T] in
theorem mem_registered {eType : Word} {fds : List PollFd} {listener : EventListener VNode T}
    (mem : listener ∈ registered files currentThread eType fds) :
    listener.thread = currentThread ∧ listener.filter = eType := by
  obtain ⟨entry, -, same⟩ := List.mem_filterMap.mp mem
  obtain ⟨node, -, same⟩ := Option.map_eq_some_iff.mp same
  cases same
  exact ⟨rfl, rfl⟩

variable (currentThread) in
omit [DecidableEq T] in
theorem countP_registered (eType : Word) (fds : List PollFd) (node : VNode) :
    (registered files currentThread eType fds).countP (fun listener => decide (listener.resource = node)) =
      timesPolled files node fds := by
  rw [registered, List.countP_filterMap, timesPolled]
  congr 1
  funext entry
  cases polledNode files entry with
  | none => rfl
  | some named => exact decide_eq_decide.mpr (Option.some_inj.symm)

omit [DecidableEq T] in
theorem waitFor_cons (node : VNode) (arrivals : List VNode) (listeners : List (EventListener VNode T)) :
    waitFor (node :: arrivals) listeners = waitFor arrivals (listeners.eraseP (hears node)) := by
  rw [waitFor, List.foldl_cons, takeEventListener_snd, waitFor]

omit [DecidableEq T] in
/-- The listeners that may be woken are taken from the first one on. -/
theorem filter_waitFor (node : VNode) (arrivals : List VNode) (listeners : List (EventListener VNode T)) :
    (waitFor arrivals listeners).filter (hears node) =
      (listeners.filter (hears node)).drop (arrivals.count node) := by
  induction arrivals generalizing listeners with
  | nil => rfl
  | cons arrived arrivals ih =>
    rw [waitFor_cons, ih]
    by_cases same : arrived = node
    · rw [same, filter_eraseP, List.count_cons_self, List.drop_tail]
    · have elsewhere (listener : EventListener VNode T) (heard : hears arrived listener = true) :
          hears node listener = false :=
        decide_eq_false fun both => same ((of_decide_eq_true heard).1.symm.trans both.1)
      rw [filter_eraseP_of_disjoint elsewhere, List.count_cons_of_ne same]

theorem countP_deaf_waitFor (node : VNode) (arrivals : List VNode) (listeners : List (EventListener VNode T)) :
    (waitFor arrivals listeners).countP (fun listener => own currentThread node listener && !hears node listener) =
      listeners.countP fun listener => own currentThread node listener && !hears node listener := by
  induction arrivals generalizing listeners with
  | nil => rfl
  | cons arrived arrivals ih =>
    rw [waitFor_cons, ih]
    refine countP_eraseP_of_disjoint (fun listener heard => ?_) listeners
    by_cases mine : own currentThread node listener = true
    · have same : arrived = node := (of_decide_eq_true heard).1.symm.trans (of_decide_eq_true mine).2
      rw [← same, heard, Bool.not_true, Bool.and_false]
    · rw [Bool.eq_false_iff.mpr mine, Bool.false_and]

/-- What the first loop appended, as far as it is for one node: all of it may be woken, or nothing. -/
theorem countP_drop_registered (eType : Word) (fds : List PollFd) (node : VNode) (taken : Nat) :
    (((registered files currentThread eType fds).filter (hears node)).drop taken).countP (own currentThread node) =
      if has eType newDataAvail = true then timesPolled files node fds - taken else 0 := by
  have all : ∀ listener ∈ ((registered files currentThread eType fds).filter (hears node)).drop taken,
      own currentThread node listener = true := by
    intro listener mem
    have kept := List.mem_filter.mp (List.mem_of_mem_drop mem)
    exact decide_eq_true ⟨(mem_registered kept.1).1, (of_decide_eq_true kept.2).1⟩
  rw [List.countP_eq_length.mpr all, List.length_drop, ← List.countP_eq_length_filter]
  by_cases input : has eType newDataAvail = true
  · rw [if_pos input, ← countP_registered currentThread eType fds node]
    congr 1
    refine List.countP_congr fun listener mem => ?_
    rw [hears, (mem_registered mem).2, decide_eq_true_iff, decide_eq_true_iff, and_iff_left input]
  · have none : (registered files currentThread eType fds).countP (hears node) = 0 := by
      refine List.countP_eq_zero.mpr fun listener mem heard => input ?_
      rw [← (mem_registered mem).2]
      exact (of_decide_eq_true heard).2
    rw [if_neg input, none, Nat.zero_sub]

theorem countP_deaf_registered (eType : Word) (fds : List PollFd) (node : VNode) :
    (registered files currentThread eType fds).countP
        (fun listener => own currentThread node listener && !hears node listener) =
      if has eType newDataAvail = true then 0 else timesPolled files node fds := by
  by_cases input : has eType newDataAvail = true
  · rw [if_pos input]
    refine List.countP_eq_zero.mpr fun listener mem deaf => ?_
    obtain ⟨mine, deaf⟩ := Bool.and_eq_true_iff.mp deaf
    have heard : hears node listener = true :=
      decide_eq_true ⟨(of_decide_eq_true mine).2, (mem_registered mem).2 ▸ input⟩
    rw [heard] at deaf
    cases deaf
  · rw [if_neg input, ← countP_registered currentThread eType fds node]
    refine List.countP_congr fun listener mem => ?_
    have deaf : hears node listener = false :=
      decide_eq_false fun both => input ((mem_registered mem).2 ▸ both.2)
    rw [deaf, Bool.not_false, Bool.and_true, own, decide_eq_true_iff, decide_eq_true_iff,
      and_iff_right (mem_registered mem).1]

/-- How many listeners the thread has on a node when it wakes. -/
theorem countP_own_waitFor (fds : List PollFd) (arrivals : List VNode) (listeners : List (EventListener VNode T))
    (node : VNode) :
    (waitFor arrivals (registerAll files currentThread (eType fds) fds listeners)).countP (own currentThread node) =
      stale currentThread arrivals listeners node +
        (timesPolled files node fds - served files fds arrivals listeners node) := by
  rw [List.countP_eq_countP_filter_add _ _ (hears node),
    List.countP_filter (q := fun listener => !hears node listener), countP_deaf_waitFor, filter_waitFor,
    registerAll_eq, List.filter_append, List.drop_append, List.countP_append, List.countP_append,
    countP_drop_registered, countP_deaf_registered, stale, served]
  split <;> omega

omit [DecidableEq T] in
theorem hasPollin_revents (found : Bool) : hasPollin (if found then 0#16 else 0#16 ||| pollin) = !found := by
  cases found <;> decide

/-- What the second loop reads off the listeners: the entries of a node report from where its listeners are
used up. -/
structure ReadOff (files : OpenFiles) (currentThread : T) (fds : List PollFd)
    (listeners : List (EventListener VNode T)) (result : List PollFd × List (EventListener VNode T)) : Prop where
  length : result.1.length = fds.length
  unnamed : ∀ (i : Nat) (entry reported : PollFd), fds[i]? = some entry → result.1[i]? = some reported →
    polledNode files entry = none → hasPollin reported.revents = false
  named : ∀ (i : Nat) (entry reported : PollFd) (node : VNode),
    fds[i]? = some entry → result.1[i]? = some reported →
    polledNode files entry = some node →
    (hasPollin reported.revents = true ↔
      listeners.countP (own currentThread node) ≤ timesPolled files node (fds.take i))
  rest : ∀ node, result.2.countP (own currentThread node) =
    listeners.countP (own currentThread node) - timesPolled files node fds

theorem ReadOff.cons_closed {first : PollFd} {later : List PollFd} {listeners : List (EventListener VNode T)}
    (unnamed : polledNode files first = none)
    {result : List PollFd × List (EventListener VNode T)}
    (readOff : ReadOff files currentThread later listeners result) :
    ReadOff files currentThread (first :: later) listeners
      ({ first with revents := pollnval } :: result.1, result.2) := by
  have other (node : VNode) : polledNode files first ≠ some node := by
    rw [unnamed]
    exact (Option.some_ne_none node).symm
  refine ⟨congrArg (· + 1) readOff.length, fun i entry reported at_i here closed => ?_,
    fun i entry reported node at_i here names => ?_, fun node => ?_⟩
  · cases i with
    | zero =>
      cases here
      exact (by decide : hasPollin pollnval = false)
    | succ i => exact readOff.unnamed i entry reported at_i here closed
  · cases i with
    | zero =>
      cases at_i
      exact absurd names (other node)
    | succ i =>
      rw [List.take_succ_cons, timesPolled_cons_other (other node)]
      exact readOff.named i entry reported node at_i here names
  · rw [timesPolled_cons_other (other node)]
    exact readOff.rest node

/-- An open entry uses up a listener of its node; those of other nodes are untouched. -/
theorem ReadOff.cons_open {first : PollFd} {later : List PollFd} {listeners : List (EventListener VNode T)}
    {polled : VNode} (names : polledNode files first = some polled)
    {result : List PollFd × List (EventListener VNode T)}
    (readOff : ReadOff files currentThread later (listeners.eraseP (own currentThread polled)) result) :
    ReadOff files currentThread (first :: later) listeners
      ({ first with revents := if listeners.any (own currentThread polled) then 0#16 else 0#16 ||| pollin } ::
        result.1, result.2) := by
  have other {node : VNode} (different : polled ≠ node) : polledNode files first ≠ some node :=
    fun both => different (Option.some_inj.mp (names.symm.trans both))
  have elsewhere {node : VNode} (different : polled ≠ node) :
      (listeners.eraseP (own currentThread polled)).countP (own currentThread node) =
        listeners.countP (own currentThread node) := by
    refine countP_eraseP_of_disjoint (fun listener mine => decide_eq_false fun both => ?_) listeners
    exact different ((of_decide_eq_true mine).2.symm.trans both.2)
  refine ⟨congrArg (· + 1) readOff.length, fun i entry reported at_i here closed => ?_,
    fun i entry reported node at_i here named => ?_, fun node => ?_⟩
  · cases i with
    | zero =>
      cases at_i
      rw [names] at closed
      cases closed
    | succ i => exact readOff.unnamed i entry reported at_i here closed
  · cases i with
    | zero =>
      cases at_i
      cases here
      cases names.symm.trans named
      dsimp only
      rw [hasPollin_revents, List.take_zero, timesPolled, List.countP_nil, Nat.le_zero, List.countP_eq_zero,
        Bool.not_eq_true', List.any_eq_false]
    | succ i =>
      refine (readOff.named i entry reported node at_i here named).trans ?_
      rw [List.take_succ_cons]
      by_cases same : polled = node
      · rw [← same, countP_eraseP, timesPolled_cons_self names, Nat.sub_le_iff_le_add]
      · rw [elsewhere same, timesPolled_cons_other (other same)]
  · refine (readOff.rest node).trans ?_
    by_cases same : polled = node
    · rw [← same, countP_eraseP, timesPolled_cons_self names, Nat.add_comm, Nat.sub_sub]
    · rw [elsewhere same, timesPolled_cons_other (other same)]

theorem readOff_reportAll (fds : List PollFd) (listeners : List (EventListener VNode T)) :
    ReadOff files currentThread fds listeners (reportAll files currentThread fds listeners) := by
  induction fds generalizing listeners with
  | nil => exact ⟨rfl, fun _ _ _ at_i => (by cases at_i), fun _ _ _ _ at_i => (by cases at_i), fun _ => rfl⟩
  | cons first later ih =>
    rw [reportAll]
    cases opened : descriptor files first.fd with
    | none => exact (ih listeners).cons_closed (polledNode_none.mpr opened)
    | some fdesc =>
      have names : polledNode files first = some fdesc.node := by rw [polledNode, opened, Option.map_some]
      dsimp only
      rw [disconnectEventListener_eq]
      exact (ih _).cons_open names

variable (files) in
/-- The entries of a node split at one of them. -/
theorem timesPolled_take_add_drop (node : VNode) (fds : List PollFd) (i : Nat) :
    timesPolled files node (fds.take i) + timesPolled files node (fds.drop i) = timesPolled files node fds := by
  rw [timesPolled, timesPolled, ← List.countP_append, List.take_append_drop, timesPolled]

theorem timesPolled_drop_pos {node : VNode} {fds : List PollFd} {i : Nat} {entry : PollFd}
    (at_i : fds[i]? = some entry) (names : polledNode files entry = some node) :
    0 < timesPolled files node (fds.drop i) := by
  refine List.countP_pos_iff.mpr ⟨entry, ?_, decide_eq_true names⟩
  rw [List.mem_iff_getElem?]
  exact ⟨0, by rw [List.getElem?_drop, Nat.add_zero, at_i]⟩

section Meaning

variable {fds : List PollFd} {arrivals : List VNode} {listeners : List (EventListener VNode T)}
  {result : List PollFd × List (EventListener VNode T)}

omit [DecidableEq T] in
theorem served_le (node : VNode) : served files fds arrivals listeners node ≤ timesPolled files node fds := by
  rw [served]
  split
  · exact Nat.min_le_right _ _
  · exact Nat.zero_le _

omit [DecidableEq T] in
theorem served_of_notMem {node : VNode} (absent : node ∉ arrivals) :
    served files fds arrivals listeners node = 0 := by
  rw [served, List.count_eq_zero_of_not_mem absent, Nat.zero_sub, Nat.zero_min, ite_self]

/-- An entry reports input exactly if it is one of the last that are served. -/
theorem ReadOff.reports_iff
    (readOff : ReadOff files currentThread fds
      (waitFor arrivals (registerAll files currentThread (eType fds) fds listeners)) result)
    {i : Nat} {entry reported : PollFd} {node : VNode} (at_i : fds[i]? = some entry)
    (here : result.1[i]? = some reported) (names : polledNode files entry = some node) :
    hasPollin reported.revents = true ↔
      timesPolled files node (fds.drop i) + stale currentThread arrivals listeners node ≤
        served files fds arrivals listeners node := by
  have split := timesPolled_take_add_drop files node fds i
  have few : served files fds arrivals listeners node ≤ timesPolled files node fds := served_le node
  rw [readOff.named i entry reported node at_i here names, countP_own_waitFor]
  omega

theorem ReadOff.disconnected_iff
    (readOff : ReadOff files currentThread fds
      (waitFor arrivals (registerAll files currentThread (eType fds) fds listeners)) result) (node : VNode) :
    (∀ listener ∈ result.2, ¬(listener.thread = currentThread ∧ listener.resource = node)) ↔
      stale currentThread arrivals listeners node ≤ served files fds arrivals listeners node := by
  have few : served files fds arrivals listeners node ≤ timesPolled files node fds := served_le node
  have left := readOff.rest node
  rw [countP_own_waitFor] at left
  have none_left : (∀ listener ∈ result.2, ¬(listener.thread = currentThread ∧ listener.resource = node)) ↔
      result.2.countP (own currentThread node) = 0 := by
    rw [List.countP_eq_zero]
    exact forall₂_congr fun listener _ => not_congr decide_eq_true_iff.symm
  rw [none_left, left]
  omega

theorem readOff_poll (timeout : Int) (waits : timeout ≠ 0) (timerExpires : Bool)
    (returned : poll files currentThread fds timeout arrivals timerExpires listeners = some result) :
    ReadOff files currentThread fds
      (waitFor arrivals (registerAll files currentThread (eType fds) fds listeners)) result := by
  rw [poll, if_neg waits] at returned
  obtain ⟨-, same⟩ := Option.ite_none_right_eq_some.mp returned
  cases same
  exact readOff_reportAll _ _

theorem ReadOff.lastOnesAsk
    (readOff : ReadOff files currentThread fds
      (waitFor arrivals (registerAll files currentThread (eType fds) fds listeners)) result)
    (reports : Reports files currentThread fds arrivals result) :
    LastOnesAsk files currentThread fds arrivals listeners := by
  intro i entry node at_i names
  have disconnected := reports.disconnected entry (List.mem_of_getElem? at_i) node names
  refine ⟨(readOff.disconnected_iff node).mp disconnected, fun arrived => ?_⟩
  have inside : i < result.1.length := reports.length.symm ▸ (List.getElem?_eq_some_iff.mp at_i).1
  have here : result.1[i]? = some result.1[i] := List.getElem?_eq_getElem inside
  rw [← readOff.reports_iff at_i here names]
  constructor
  · intro asks
    exact (reports.requested i entry _ node at_i here names asks).mpr arrived
  · intro reported
    by_contra silent
    have quiet := reports.others i entry _ at_i here (.inr (Bool.eq_false_iff.mpr silent))
    rw [quiet] at reported
    cases reported

theorem ReadOff.reports
    (readOff : ReadOff files currentThread fds
      (waitFor arrivals (registerAll files currentThread (eType fds) fds listeners)) result)
    (lastOnes : LastOnesAsk files currentThread fds arrivals listeners) :
    Reports files currentThread fds arrivals result := by
  -- without data on its node an entry is not served
  have silent {i : Nat} {entry reported : PollFd} {node : VNode} (at_i : fds[i]? = some entry)
      (here : result.1[i]? = some reported) (names : polledNode files entry = some node) (absent : node ∉ arrivals) :
      ¬hasPollin reported.revents = true := by
    have pos := timesPolled_drop_pos at_i names
    rw [readOff.reports_iff at_i here names, served_of_notMem absent]
    omega
  refine ⟨readOff.length, fun i entry reported node at_i here names asks => ?_,
    fun i entry reported at_i here silentOrClosed => ?_, fun entry mem node names => ?_⟩
  · by_cases arrived : node ∈ arrivals
    · have served := ((lastOnes i entry node at_i names).2 arrived).mp asks
      exact iff_of_true ((readOff.reports_iff at_i here names).mpr served) arrived
    · exact iff_of_false (silent at_i here names arrived) arrived
  · cases names : polledNode files entry with
    | none => exact readOff.unnamed i entry reported at_i here names
    | some node =>
      rw [names] at silentOrClosed
      obtain closed | quiet := silentOrClosed
      · cases closed
      · by_cases arrived : node ∈ arrivals
        · refine Bool.eq_false_iff.mpr fun reports => ?_
          have served := (readOff.reports_iff at_i here names).mp reports
          have asks := ((lastOnes i entry node at_i names).2 arrived).mpr served
          rw [quiet] at asks
          cases asks
        · exact Bool.eq_false_iff.mpr (silent at_i here names arrived)
  · obtain ⟨i, at_i⟩ := List.mem_iff_getElem?.mp mem
    exact (readOff.disconnected_iff node).mpr (lastOnes i entry node at_i names).1

/-- **A poll that returns** reports what it should exactly if, on every node with data, the entries that ask for
input are the last ones, as many of them as there are arrivals for the call. -/
theorem poll_reports_iff (timeout : Int) (waits : timeout ≠ 0) (timerExpires : Bool)
    (returned : poll files currentThread fds timeout arrivals timerExpires listeners = some result) :
    Reports files currentThread fds arrivals result ↔ LastOnesAsk files currentThread fds arrivals listeners := by
  have readOff := readOff_poll timeout waits timerExpires returned
  exact ⟨readOff.lastOnesAsk, readOff.reports⟩

theorem stale_eq_zero (unheard : ∀ listener ∈ listeners, listener.thread ≠ currentThread) (node : VNode) :
    stale currentThread arrivals listeners node = 0 := by
  have notOwn (listener : EventListener VNode T) (mem : listener ∈ listeners) :
      own currentThread node listener = false :=
    decide_eq_false fun both => unheard listener mem both.1
  refine Nat.add_eq_zero_iff.mpr ⟨List.countP_eq_zero.mpr fun listener mem mine => ?_,
    List.countP_eq_zero.mpr fun listener mem mine => ?_⟩
  · rw [notOwn listener (List.mem_filter.mp (List.mem_of_mem_drop mem)).1] at mine
    cases mine
  · rw [notOwn listener mem] at mine
    cases mine

/-- A thread that listens to nothing when it calls `poll` does not listen to what it polled afterwards. -/
theorem poll_disconnects (unheard : ∀ listener ∈ listeners, listener.thread ≠ currentThread) (timeout : Int)
    (waits : timeout ≠ 0) (timerExpires : Bool)
    (returned : poll files currentThread fds timeout arrivals timerExpires listeners = some result) (node : VNode) :
    ∀ listener ∈ result.2, ¬(listener.thread = currentThread ∧ listener.resource = node) := by
  refine ((readOff_poll timeout waits timerExpires returned).disconnected_iff node).mpr ?_
  rw [stale_eq_zero unheard]
  exact Nat.zero_le _

end Meaning

/-- Two files, and an array whose first entry asks for input and whose second asks for nothing. -/
def twoFiles : OpenFiles := [some ⟨7, 0, oRdonly⟩, some ⟨8, 0, oRdonly⟩]
def secondSilent : List PollFd := [⟨0, pollin, 0#16⟩, ⟨1, 0#16, 0#16⟩]

def nobody : List (EventListener VNode Nat) := []

/-- Data for the first file: it is reported, and nothing else. -/
theorem secondSilent_reports :
    Reports twoFiles 0 secondSilent [7] ([⟨0, pollin, pollin⟩, ⟨1, 0#16, 0#16⟩], nobody) := by
  have returned : poll twoFiles 0 secondSilent 1 [7] false nobody =
      some ([⟨0, pollin, pollin⟩, ⟨1, 0#16, 0#16⟩], nobody) := rfl
  refine (poll_reports_iff 1 (by decide) false returned).mpr fun i entry node at_i names => ?_
  match i with
  | 0 =>
    cases at_i
    cases names
    decide
  | 1 =>
    cases at_i
    cases names
    decide
  | i + 2 => cases at_i

/-- Data for the second file: its entry reports input that it did not ask for. -/
theorem secondSilent_reported :
    ∃ result, poll twoFiles 0 secondSilent 1 [8] false nobody = some result ∧
      ¬Reports twoFiles 0 secondSilent [8] result := by
  refine ⟨_, rfl, fun reports => ?_⟩
  have silent := reports.others 1 _ _ rfl rfl (.inr (by decide))
  exact absurd silent (by decide)

end FSUAPI
end FluxOS
