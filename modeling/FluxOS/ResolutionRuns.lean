import Mathlib.Computability.StateTransition
import FluxOS.VFS

/-! `VFS::RelativePathToVnode` step by step, character by character and with the calls that wait for a nested
one. Every run ends, with what the resolution gives. -/
namespace FluxOS.VFS
open Words SeparatedNames StateTransition

/-- A call that waits while a link is expanded: the directory of the link, and what is left of the path. -/
structure Frame where
  tmpnode : VNode
  nextPath : List Char

/-- Where the innermost call stands. -/
inductive Point where
  | call (start : Option VNode) (path : List Char)
  | leading (start : VNode) (path : List Char)
  | counted (start : VNode) (path : List Char)
  | loop (tmpnode : VNode) (path : List Char)
  | scanning (tmpnode : VNode) (component rest : List Char)
  | separators (tmpnode : VNode) (component rest : List Char)
  | component (tmpnode : VNode) (component nextPath : List Char)
  | back (result : Resolved)

/-- The innermost call, those that wait for it, and what has been done. `count` is how many wait. -/
structure Machine where
  point : Point
  frames : List Frame
  effects : Effects

def calling (start : Option VNode) (path : List Char) : Machine := ⟨.call start path, [], Effects.none⟩

def finished (run : Resolved × Effects) : Machine := ⟨.back run.1, [], run.2⟩

section Steps

variable (tree : FileTree) (heap : KernelHeap) (traverseLeafLink : Bool)

/-- The end of a round: the next node becomes `tmpnode`. -/
def advance (tmpnode nextVnode : VNode) (nextPath : List Char) (frames : List Frame) (e : Effects) : Machine :=
  let (nextVnode, e) := enterMount tree nextVnode e
  ⟨.loop nextVnode nextPath, frames, e.put tmpnode⟩

/-- The body of the loop behind the two that look for the next name. -/
def visit (tmpnode : VNode) (component nextPath : List Char) (frames : List Frame) (e : Effects) : Machine :=
  let (tmpnode, e) := leaveMount tree tmpnode component e
  match tree.lookup tmpnode component with
  | .error code => ⟨.back (.failed code true), frames, e.put tmpnode⟩
  | .ok (nextVnode, nodeType) =>
    let e := e.reference nextVnode
    if sIsreg nodeType ∧ nextPath.isEmpty = false then ⟨.back (.failed (-enotdir) true), frames, e.put tmpnode⟩
    else if sIslnk nodeType ∧ ¬(traverseLeafLink = false ∧ nextPath.isEmpty = true) then
      if heap.grants e.requests then
        match tree.readlink nextVnode with
        | .error code => ⟨.back (.failed code false), frames, e.request.put tmpnode⟩
        | .ok bytes =>
          let tmplnkbuf := overwritten (heap.holds e.requests) (bytes.take linkBufferSize)
          ⟨.call (some tmpnode) (cString tmplnkbuf), ⟨tmpnode, nextPath⟩ :: frames, e.request⟩
      else ⟨.back (.failed (-enomem) false), frames, e.request.put tmpnode⟩
    else advance tree tmpnode nextVnode nextPath frames e

/-- One step. `atLimit` is the test of `count`; the outermost call has nowhere to go back to. -/
def step (atLimit : Nat → Bool) (m : Machine) : Option Machine :=
  match m.point with
  | .call start path =>
    if heap.grants m.effects.requests then
      match origin tree start path with
      | none => some ⟨.back (.failed (-einval) false), m.frames, m.effects.request⟩
      | some start => some ⟨.leading start path, m.frames, m.effects.request⟩
    else some ⟨.back (.failed (-enomem) false), m.frames, m.effects.request⟩
  | .leading start path =>
    if path.head? = some '/' then some { m with point := .leading start path.tail }
    else some { m with point := .counted start path }
  | .counted start path =>
    if atLimit m.frames.length then some { m with point := .back (.failed (-eloop) false) }
    else some ⟨.loop start path, m.frames, m.effects.reference start⟩
  | .loop tmpnode [] => some { m with point := .back (.found tmpnode) }
  | .loop tmpnode (first :: rest) => some { m with point := .scanning tmpnode [first] rest }
  | .scanning tmpnode component [] => some { m with point := .component tmpnode component [] }
  | .scanning tmpnode component (next :: rest) =>
    if next = '/' then some { m with point := .separators tmpnode component rest }
    else some { m with point := .scanning tmpnode (component ++ [next]) rest }
  | .separators tmpnode component rest =>
    if rest.head? = some '/' then some { m with point := .separators tmpnode component rest.tail }
    else some { m with point := .component tmpnode component rest }
  | .component tmpnode component nextPath =>
    some (visit tree heap traverseLeafLink tmpnode component nextPath m.frames m.effects)
  | .back result =>
    match m.frames, result with
    | [], _ => none
    | frame :: frames, .found nextVnode =>
      some (advance tree frame.tmpnode nextVnode frame.nextPath frames m.effects)
    | frame :: frames, .failed code _ => some ⟨.back (.failed code true), frames, m.effects.put frame.tmpnode⟩

end Steps

section Runs

variable {tree : FileTree} {heap : KernelHeap} {traverseLeafLink : Bool} {atLimit : Nat → Bool}
  {expand : VNode → List Char → Effects → Resolved × Effects} {frames : List Frame} {e : Effects}

theorem reaches_head {a b c : Machine} (first : step tree heap traverseLeafLink atLimit a = some b)
    (more : Reaches (step tree heap traverseLeafLink atLimit) b c) :
    Reaches (step tree heap traverseLeafLink atLimit) a c :=
  .head first more

/-- A loop that passes separators comes to what is behind them. -/
theorem skipping_reaches {passing behind : List Char → Machine}
    (pass : ∀ rest, step tree heap traverseLeafLink atLimit (passing ('/' :: rest)) = some (passing rest))
    (leave : ∀ rest, rest.head? ≠ some '/' → step tree heap traverseLeafLink atLimit (passing rest) = some (behind rest))
    (path : List Char) :
    Reaches (step tree heap traverseLeafLink atLimit) (passing path) (behind (skipSeparators '/' path)) := by
  induction path with
  | nil => exact .single (leave [] nofun)
  | cons first rest ih =>
    by_cases separates : first = '/'
    · rw [separates, skipSeparators_self]
      exact reaches_head (pass rest) ih
    · rw [skipSeparators_of_ne rest separates]
      exact .single (leave _ fun first => separates (Option.some.inj first))

theorem leading_reaches (start : VNode) (path : List Char) :
    Reaches (step tree heap traverseLeafLink atLimit) ⟨.leading start path, frames, e⟩
      ⟨.counted start (skipSeparators '/' path), frames, e⟩ :=
  @skipping_reaches _ _ _ _ (fun path => ⟨.leading start path, frames, e⟩)
    (fun path => ⟨.counted start path, frames, e⟩) (fun _ => rfl) (fun _ other => if_neg other) path

theorem separators_reaches (tmpnode : VNode) (component rest : List Char) :
    Reaches (step tree heap traverseLeafLink atLimit) ⟨.separators tmpnode component rest, frames, e⟩
      ⟨.component tmpnode component (skipSeparators '/' rest), frames, e⟩ :=
  @skipping_reaches _ _ _ _ (fun rest => ⟨.separators tmpnode component rest, frames, e⟩)
    (fun rest => ⟨.component tmpnode component rest, frames, e⟩) (fun _ => rfl) (fun _ other => if_neg other) rest

/-- The next name is read up to the separators behind it, and they are passed. -/
theorem scanning_reaches (tmpnode : VNode) (component rest : List Char) :
    Reaches (step tree heap traverseLeafLink atLimit) ⟨.scanning tmpnode component rest, frames, e⟩
      ⟨.component tmpnode (component ++ beforeSeparator '/' rest) (skipSeparators '/' (fromSeparator '/' rest)),
        frames, e⟩ := by
  induction rest generalizing component with
  | nil =>
    rw [beforeSeparator_nil, List.append_nil]
    exact .single rfl
  | cons next rest ih =>
    by_cases separates : next = '/'
    · rw [separates, beforeSeparator_self, List.append_nil, fromSeparator_self, skipSeparators_self]
      exact reaches_head rfl (separators_reaches tmpnode component rest)
    · rw [beforeSeparator_of_ne rest separates, fromSeparator_of_ne rest separates, List.append_cons]
      exact reaches_head (if_neg separates) (ih _)

/-- Where a round leads to: back with the failure, or to the next round. -/
def afterRound (nextPath : List Char) (frames : List Frame) : Resolved × Effects → Machine
  | (.failed code cleared, e) => ⟨.back (.failed code cleared), frames, e⟩
  | (.found node, e) => ⟨.loop node nextPath, frames, e⟩

/-- A nested call that comes back with what the expansion gives. -/
def ComesBack (tree : FileTree) (heap : KernelHeap) (traverseLeafLink : Bool) (atLimit : Nat → Bool) (depth : Nat)
    (expand : VNode → List Char → Effects → Resolved × Effects) : Prop :=
  ∀ node target e frames, frames.length = depth →
    Reaches (step tree heap traverseLeafLink atLimit) ⟨.call (some node) target, frames, e⟩
      ⟨.back (expand node target e).1, frames, (expand node target e).2⟩

theorem component_reaches (expands : ComesBack tree heap traverseLeafLink atLimit (frames.length + 1) expand)
    (tmpnode : VNode) (component nextPath : List Char) :
    Reaches (step tree heap traverseLeafLink atLimit) ⟨.component tmpnode component nextPath, frames, e⟩
      (afterRound nextPath frames
        (resolveComponent tree heap traverseLeafLink expand tmpnode component nextPath.isEmpty e)) := by
  refine reaches_head rfl ?_
  simp only [visit, resolveComponent]
  obtain ⟨dir, e⟩ := leaveMount tree tmpnode component e
  simp only
  cases tree.lookup dir component with
  | error code => exact .refl
  | ok answer =>
    obtain ⟨nextVnode, nodeType⟩ := answer
    simp only
    by_cases blocked : sIsreg nodeType ∧ nextPath.isEmpty = false
    · rw [if_pos blocked, if_pos blocked]
      exact .refl
    rw [if_neg blocked, if_neg blocked]
    by_cases followed : sIslnk nodeType ∧ ¬(traverseLeafLink = false ∧ nextPath.isEmpty = true)
    · rw [if_pos followed, if_pos followed, followLink]
      by_cases granted : heap.grants (e.reference nextVnode).requests
      · rw [if_pos granted, if_pos granted]
        cases tree.readlink nextVnode with
        | error code => exact .refl
        | ok bytes =>
          simp only
          refine (expands dir _ _ _ rfl).trans (.single ?_)
          obtain ⟨result, after⟩ := expand dir
            (cString (overwritten (heap.holds (e.reference nextVnode).requests) (bytes.take linkBufferSize)))
            (e.reference nextVnode).request
          cases result with
          | found node => rfl
          | failed code cleared => rfl
      · rw [if_neg granted, if_neg granted]
        exact .refl
    · rw [if_neg followed, if_neg followed]
      exact .refl

/-- The loop comes to its end: every round leaves less of the path. -/
theorem loop_reaches (expands : ComesBack tree heap traverseLeafLink atLimit (frames.length + 1) expand) (length : Nat)
    (tmpnode : VNode) (path : List Char) (enough : path.length ≤ length) :
    Reaches (step tree heap traverseLeafLink atLimit) ⟨.loop tmpnode path, frames, e⟩
      ⟨.back (resolvePath tree heap traverseLeafLink expand length tmpnode path e).1, frames,
        (resolvePath tree heap traverseLeafLink expand length tmpnode path e).2⟩ := by
  induction length generalizing tmpnode path e with
  | zero =>
    rw [List.eq_nil_of_length_eq_zero (Nat.le_zero.mp enough)]
    exact .single rfl
  | succ length ih =>
    cases path with
    | nil => exact .single rfl
    | cons first rest =>
      refine reaches_head rfl ((scanning_reaches tmpnode [first] rest).trans ?_)
      have shorter : (skipSeparators '/' (fromSeparator '/' rest)).length ≤ length :=
        ((List.dropWhile_suffix _).trans (List.dropWhile_suffix _)).length_le.trans (Nat.le_of_succ_le_succ enough)
      refine (component_reaches expands tmpnode _ _).trans ?_
      simp only [resolvePath, List.singleton_append]
      obtain ⟨result, after⟩ := resolveComponent tree heap traverseLeafLink expand tmpnode
        (first :: beforeSeparator '/' rest) (skipSeparators '/' (fromSeparator '/' rest)).isEmpty e
      cases result with
      | failed code cleared => exact .refl
      | found node => exact ih node _ shorter

theorem call_reaches_counted {start : Option VNode} {path : List Char} {node : VNode}
    (granted : heap.grants e.requests) (starts : origin tree start path = some node) :
    Reaches (step tree heap traverseLeafLink atLimit) ⟨.call start path, frames, e⟩
      ⟨.counted node (skipSeparators '/' path), frames, e.request⟩ :=
  reaches_head (by simp [step, granted, starts]) (leading_reaches node path)

/-- Every call comes back, whatever it is asked to resolve and however deep it is nested. -/
theorem call_reaches (remaining : Nat) (nesting : frames.length + remaining = maxCount) (start : Option VNode)
    (path : List Char) :
    Reaches (step tree heap traverseLeafLink (· = maxCount)) ⟨.call start path, frames, e⟩
      ⟨.back (resolveNested tree heap traverseLeafLink remaining start path e).1, frames,
        (resolveNested tree heap traverseLeafLink remaining start path e).2⟩ := by
  induction remaining using Nat.strong_induction_on generalizing start path e frames with
  | _ remaining ih =>
    unfold resolveNested
    by_cases granted : heap.grants e.requests
    · cases starts : origin tree start path with
      | none =>
        rw [if_pos granted]
        exact .single (by simp [step, granted, starts])
      | some node =>
        rw [if_pos granted]
        refine (call_reaches_counted granted starts).trans ?_
        cases remaining with
        | zero => exact .single (by simp [step, show frames.length = maxCount from nesting])
        | succ remaining =>
          have below : frames.length ≠ maxCount := by omega
          have counted : step tree heap traverseLeafLink (· = maxCount)
              ⟨.counted node (skipSeparators '/' path), frames, e.request⟩ =
                some ⟨.loop node (skipSeparators '/' path), frames, e.request.reference node⟩ := by
            simp [step, below]
          refine reaches_head counted (loop_reaches ?_ path.length node _ (List.dropWhile_suffix _).length_le)
          intro dir target e inner deeper
          exact ih remaining (Nat.lt_succ_self _) (by omega) (some dir) target
    · rw [if_neg granted]
      exact .single (by simp [step, granted])

theorem finished_mem_eval (tree : FileTree) (heap : KernelHeap) (traverseLeafLink : Bool) (start : Option VNode)
    (path : List Char) : finished (relativePathToVnode tree heap start path traverseLeafLink) ∈
      eval (step tree heap traverseLeafLink (· = maxCount)) (calling start path) :=
  mem_eval.mpr ⟨call_reaches maxCount (Nat.zero_add _) start path, rfl⟩

end Runs

section Nesting

variable {tree : FileTree} {heap : KernelHeap} {traverseLeafLink : Bool} {m m' : Machine}

/-- Points behind the test of `count`. -/
def Point.Counted : Point → Prop
  | .loop .. | .scanning .. | .separators .. | .component .. => True
  | _ => False

/-- What a step does to the calls that wait. -/
inductive Moves (atLimit : Nat → Bool) (m m' : Machine) : Prop
  | stays (frames : m'.frames = m.frames) (counted : m'.point.Counted → m.point.Counted)
  | enters (below : atLimit m.frames.length = false) (frames : m'.frames = m.frames)
  | nests (counted : m.point.Counted) (frame : Frame) (frames : m'.frames = frame :: m.frames)
      (call : ¬ m'.point.Counted)
  | returns (frame : Frame) (frames : m.frames = frame :: m'.frames)

theorem visit_moves (atLimit : Nat → Bool) (tmpnode : VNode) (component nextPath : List Char) (frames : List Frame)
    (e : Effects) : Moves atLimit ⟨.component tmpnode component nextPath, frames, e⟩
      (visit tree heap traverseLeafLink tmpnode component nextPath frames e) := by
  unfold visit
  obtain ⟨dir, e⟩ := leaveMount tree tmpnode component e
  simp only
  cases tree.lookup dir component with
  | error code => exact .stays rfl fun _ => trivial
  | ok answer =>
    simp only
    split
    · exact .stays rfl fun _ => trivial
    split
    · split
      · cases tree.readlink answer.1 with
        | error code => exact .stays rfl fun _ => trivial
        | ok bytes => exact .nests trivial _ rfl id
      · exact .stays rfl fun _ => trivial
    · exact .stays rfl fun _ => trivial

theorem step_moves {atLimit : Nat → Bool} (steps : step tree heap traverseLeafLink atLimit m = some m') :
    Moves atLimit m m' := by
  obtain ⟨point, frames, e⟩ := m
  cases point with
  | call start path =>
    simp only [step] at steps
    split at steps
    · split at steps <;> cases steps <;> exact .stays rfl nofun
    · cases steps
      exact .stays rfl nofun
  | leading start path =>
    simp only [step] at steps
    split at steps <;> cases steps <;> exact .stays rfl nofun
  | counted start path =>
    simp only [step] at steps
    split at steps
    · cases steps
      exact .stays rfl nofun
    · rename_i below
      cases steps
      exact .enters (Bool.eq_false_iff.mpr below) rfl
  | loop tmpnode path => cases path <;> cases steps <;> exact .stays rfl fun _ => trivial
  | scanning tmpnode component rest =>
    cases rest with
    | nil =>
      cases steps
      exact .stays rfl fun _ => trivial
    | cons next rest =>
      simp only [step] at steps
      split at steps <;> cases steps <;> exact .stays rfl fun _ => trivial
  | separators tmpnode component rest =>
    simp only [step] at steps
    split at steps <;> cases steps <;> exact .stays rfl fun _ => trivial
  | component tmpnode component nextPath =>
    cases steps
    exact visit_moves atLimit tmpnode component nextPath frames e
  | back result =>
    cases frames with
    | nil => cases steps
    | cons frame frames => cases result <;> cases steps <;> exact .returns frame rfl

/-- At most `MAX_COUNT` calls wait, and fewer where a further one can be made. -/
def Shallow (m : Machine) : Prop :=
  m.frames.length ≤ maxCount ∧ (m.point.Counted → m.frames.length < maxCount)

theorem Shallow.step (shallow : Shallow m)
    (steps : step tree heap traverseLeafLink (· = maxCount) m = some m') : Shallow m' := by
  obtain ⟨most, fewer⟩ := shallow
  cases step_moves steps with
  | stays frames counted =>
    rw [Shallow, frames]
    exact ⟨most, fun behind => fewer (counted behind)⟩
  | enters below frames =>
    rw [Shallow, frames]
    exact ⟨most, fun _ => lt_of_le_of_ne most (of_decide_eq_false below)⟩
  | nests counted frame frames call =>
    rw [Shallow, frames]
    exact ⟨fewer counted, fun behind => absurd behind call⟩
  | returns frame frames =>
    rw [frames] at most
    exact ⟨Nat.le_of_succ_le most, fun _ => most⟩

theorem Shallow.reaches (shallow : Shallow m)
    (reaches : Reaches (VFS.step tree heap traverseLeafLink (· = maxCount)) m m') : Shallow m' := by
  induction reaches with
  | refl => exact shallow
  | tail _ steps ih => exact ih.step steps

end Nesting

section Forever

variable {tree : FileTree} {heap : KernelHeap} {traverseLeafLink : Bool} {m m' : Machine}

/-- The same code without the test of `count`. -/
def unlimited (_ : Nat) : Bool := false

/-- The limit has been hit, and the calls go back one by one. -/
def GivesUp (m : Machine) : Prop := ∃ cleared, m.point = .back (.failed (-eloop) cleared)

theorem GivesUp.step {atLimit : Nat → Bool} (givesUp : GivesUp m)
    (steps : step tree heap traverseLeafLink atLimit m = some m') : GivesUp m' := by
  obtain ⟨point, frames, e⟩ := m
  obtain ⟨cleared, rfl⟩ := givesUp
  cases frames with
  | nil => cases steps
  | cons frame frames =>
    cases steps
    exact ⟨true, rfl⟩

/-- Only at the limit does the test make a difference. -/
theorem step_unlimited {atLimit : Nat → Bool} (steps : step tree heap traverseLeafLink atLimit m = some m') :
    step tree heap traverseLeafLink unlimited m = some m' ∨ GivesUp m' := by
  obtain ⟨point, frames, e⟩ := m
  cases point with
  | counted start path =>
    simp only [step] at steps
    split at steps
    · cases steps
      exact .inr ⟨false, rfl⟩
    · cases steps
      exact .inl rfl
  | loop tmpnode path => cases path <;> exact .inl steps
  | scanning tmpnode component rest => cases rest <;> exact .inl steps
  | call => exact .inl steps
  | leading => exact .inl steps
  | separators => exact .inl steps
  | component => exact .inl steps
  | back => exact .inl steps

theorem reaches_unlimited {atLimit : Nat → Bool} (reaches : Reaches (step tree heap traverseLeafLink atLimit) m m') :
    Reaches (step tree heap traverseLeafLink unlimited) m m' ∨ GivesUp m' := by
  induction reaches with
  | refl => exact .inl .refl
  | tail _ steps ih =>
    obtain same | givesUp := ih
    · obtain next | givesUp := step_unlimited steps
      · exact .inl (same.tail next)
      · exact .inr givesUp
    · exact .inr (givesUp.step steps)

/-- Without the limit, the resolution never comes to its end. -/
def ExpandsForEver (tree : FileTree) (heap : KernelHeap) (traverseLeafLink : Bool) (start : Option VNode)
    (path : List Char) : Prop :=
  ¬ (eval (step tree heap traverseLeafLink unlimited) (calling start path)).Dom

theorem eloop_of_expandsForEver {start : Option VNode} {path : List Char}
    (forEver : ExpandsForEver tree heap traverseLeafLink start path) :
    ∃ cleared, (relativePathToVnode tree heap start path traverseLeafLink).1 = .failed (-eloop) cleared := by
  obtain ⟨reaches, -⟩ := mem_eval.mp (finished_mem_eval tree heap traverseLeafLink start path)
  obtain same | ⟨cleared, point⟩ := reaches_unlimited reaches
  · exact absurd (Part.dom_iff_mem.mpr ⟨_, mem_eval.mpr ⟨same, rfl⟩⟩) forEver
  · exact ⟨cleared, Point.back.inj point⟩

end Forever

/-- Path resolution ends, never waits in more than `MAX_COUNT` calls, and ends with `ELOOP` where links expand for
ever. The kernel stack is taken to hold the frames of `MAX_COUNT` calls. -/
theorem resolution_terminates (tree : FileTree) (heap : KernelHeap) (traverseLeafLink : Bool) (start : Option VNode)
    (path : List Char) :
    finished (relativePathToVnode tree heap start path traverseLeafLink) ∈
      eval (step tree heap traverseLeafLink (· = maxCount)) (calling start path) ∧
    (∀ m, Reaches (step tree heap traverseLeafLink (· = maxCount)) (calling start path) m →
      m.frames.length ≤ maxCount) ∧
    (ExpandsForEver tree heap traverseLeafLink start path →
      ∃ cleared, (relativePathToVnode tree heap start path traverseLeafLink).1 = .failed (-eloop) cleared) := by
  refine ⟨finished_mem_eval tree heap traverseLeafLink start path, fun m reaches => ?_, eloop_of_expandsForEver⟩
  have shallow : Shallow (calling start path) := ⟨Nat.zero_le _, nofun⟩
  exact (shallow.reaches reaches).1

/-- One directory, in which every name is a link to the name `a` in it. -/
def linkToItself : FileTree where
  rootNode := 0
  mount := fun _ => ⟨0, none⟩
  coveredBy := fun _ => none
  lookup := fun _ _ => .ok (1, sIflnk)
  readlink := fun _ => .ok ['a']

/-- Where the resolution of `a` may stand: on its way to the link, with any number of calls that wait. -/
inductive Circling : Point → Prop
  | call : Circling (.call (some 0) ['a'])
  | leading : Circling (.leading 0 ['a'])
  | counted : Circling (.counted 0 ['a'])
  | loop : Circling (.loop 0 ['a'])
  | scanning : Circling (.scanning 0 ['a'] [])
  | component : Circling (.component 0 ['a'] [])

theorem Circling.step {m : Machine} (circling : Circling m.point) :
    ∃ m', VFS.step linkToItself clearHeap true unlimited m = some m' ∧ Circling m'.point := by
  obtain ⟨point, frames, e⟩ := m
  cases circling with
  | call => exact ⟨_, rfl, .leading⟩
  | leading => exact ⟨_, rfl, .counted⟩
  | counted => exact ⟨_, rfl, .loop⟩
  | loop => exact ⟨_, rfl, .scanning⟩
  | scanning => exact ⟨_, rfl, .component⟩
  | component => exact ⟨_, rfl, .call⟩

theorem Circling.reaches {m m' : Machine} (circling : Circling m.point)
    (reaches : Reaches (VFS.step linkToItself clearHeap true unlimited) m m') : Circling m'.point := by
  induction reaches with
  | refl => exact circling
  | tail _ steps ih =>
    obtain ⟨next, same, circling⟩ := ih.step
    cases same.symm.trans steps
    exact circling

theorem linkToItself_expandsForEver : ExpandsForEver linkToItself clearHeap true (some 0) ['a'] := by
  intro ends
  obtain ⟨last, reaches, ended⟩ := (Part.dom_iff_mem.mp ends).imp fun _ => mem_eval.mp
  obtain ⟨next, steps, -⟩ := (Circling.call.reaches reaches).step
  cases steps.symm.trans ended

theorem linkToItself_eloop :
    ∃ cleared, (relativePathToVnode linkToItself clearHeap (some 0) ['a'] true).1 = .failed (-eloop) cleared :=
  (resolution_terminates linkToItself clearHeap true (some 0) ['a']).2.2 linkToItself_expandsForEver

end FluxOS.VFS
