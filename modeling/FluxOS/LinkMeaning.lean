import FluxOS.PathMeaning

/-! What a path with symbolic links means, whatever links lead to links: every
link before the end of a path stands for the node at the end of its chain. The
code agrees where no buffer runs on behind its target and no chain is cut short. -/
namespace FluxOS.VFS
open SeparatedNames

section Meaning

variable (tree : FileTree)

/-- What a link in the directory `dir` stands for, once its target is expanded. -/
def targetMeaning (expand : VNode → List Char → Option (Except Int VNode)) (dir link : VNode) :
    Option (Except Int VNode) :=
  match tree.readlink link with
  | .error code => some (.error code)
  | .ok target => expand dir target

/-- The meaning of the names of a path. `expand` gives the meaning of a target;
`follow` decides about a link in the last name only. -/
def namesMeaning (expand : VNode → List Char → Option (Except Int VNode)) (follow : Bool) :
    VNode → List (List Char) → Option (Except Int VNode)
  | dir, [] => some (.ok dir)
  | dir, name :: rest =>
    match tree.lookup (above tree dir name) name with
    | .error code => some (.error code)
    | .ok (node, type) =>
      if sIsreg type ∧ rest ≠ [] then some (.error (-enotdir))
      else if sIslnk type ∧ (rest ≠ [] ∨ follow) then
        match targetMeaning tree expand (above tree dir name) node with
        | some (.ok next) => namesMeaning expand follow (below tree next) rest
        | failed => failed
      else namesMeaning expand follow (below tree node) rest

/-- The meaning of a path, when fewer than `nesting` targets have to be expanded within
each other. A target is followed to its end, whatever is done with the last name of the path. -/
def meaning : Nat → Bool → VNode → List Char → Option (Except Int VNode)
  | 0, _, _, _ => none
  | nesting + 1, follow, start, path =>
    namesMeaning tree (meaning nesting true) follow (beginning tree start path) (names '/' path)

variable (heap : KernelHeap) (follow : Bool)

/-- The buffer a target is read into ends where the target does. -/
def Terminated (request : Nat) (target : List Char) : Prop :=
  cString (overwritten (heap.holds request) (target.take linkBufferSize)) = target

instance (request : Nat) (target : List Char) : Decidable (Terminated heap request target) :=
  inferInstanceAs (Decidable (_ = _))

/-- How many requests the heap has seen once a link has been followed, if they were granted
and the buffer ends with the target. -/
def targetIntact (intact : VNode → List Char → Nat → Option Nat) (dir link : VNode) (requests : Nat) : Option Nat :=
  if heap.grants requests then
    match tree.readlink link with
    | .error _ => some (requests + 1)
    | .ok target => if Terminated heap requests target then intact dir target (requests + 1) else none
  else none

/-- How many requests the heap has seen in the end, if on the way every link is followed
safely, and no target ends with a link that is not followed. `nested`: the path is a target. -/
def namesIntact (expand : VNode → List Char → Option (Except Int VNode))
    (intact : VNode → List Char → Nat → Option Nat) (nested : Bool) :
    VNode → List (List Char) → Nat → Option Nat
  | _, [], requests => some requests
  | dir, name :: rest, requests =>
    match tree.lookup (above tree dir name) name with
    | .error _ => some requests
    | .ok (node, type) =>
      if sIsreg type ∧ rest ≠ [] then some requests
      else if sIslnk type ∧ (rest ≠ [] ∨ follow) then
        match targetIntact tree heap intact (above tree dir name) node requests with
        | none => none
        | some requests =>
          match targetMeaning tree expand (above tree dir name) node with
          | some (.ok next) => namesIntact expand intact nested (below tree next) rest requests
          | _ => some requests
      else if sIslnk type ∧ nested then none
      else namesIntact expand intact nested (below tree node) rest requests

/-- `namesIntact` for a path that is resolved with the leaf flag `follow`, and for the targets within it. -/
def intact : Nat → Bool → VNode → List Char → Nat → Option Nat
  | 0, _, _, _, _ => none
  | nesting + 1, nested, start, path, requests =>
    if heap.grants requests then
      namesIntact tree heap follow (meaning tree nesting true) (intact nesting true) nested
        (beginning tree start path) (names '/' path) (requests + 1)
    else none

end Meaning

section Agreement

variable {tree : FileTree} {heap : KernelHeap} {follow nested : Bool}

/-- The code does what the path means, and has asked for as many blocks as expected. -/
def Agrees (outcome : Except Int VNode) (requests : Nat) (run : Resolved × Effects) : Prop :=
  run.1.result = outcome ∧ run.2.requests = requests

/-- The targets are expanded as they should be. -/
def Expands (expand : VNode → List Char → Option (Except Int VNode)) (survey : VNode → List Char → Nat → Option Nat)
    (code : VNode → List Char → Effects → Resolved × Effects) : Prop :=
  ∀ dir target e outcome requests, expand dir target = some outcome →
    survey dir target e.requests = some requests → Agrees outcome requests (code dir target e)

variable {expand : VNode → List Char → Option (Except Int VNode)} {survey : VNode → List Char → Nat → Option Nat}
  {code : VNode → List Char → Effects → Resolved × Effects} {dir : VNode} {e : Effects} {outcome : Except Int VNode}
  {requests : Nat}

theorem followLink_agrees (expands : Expands expand survey code) {link : VNode}
    (means : targetMeaning tree expand dir link = some outcome)
    (unspoilt : targetIntact tree heap survey dir link e.requests = some requests) :
    Agrees outcome requests (followLink tree heap code dir link e) := by
  unfold targetMeaning at means
  unfold targetIntact at unspoilt
  unfold followLink
  split at unspoilt
  · rename_i granted
    rw [if_pos granted]
    cases read : tree.readlink link with
    | error error =>
      rw [read] at means unspoilt
      cases means
      cases unspoilt
      exact ⟨rfl, rfl⟩
    | ok target =>
      rw [read] at means unspoilt
      simp only at means unspoilt ⊢
      split at unspoilt
      · rename_i terminated
        obtain ⟨resolved, counted⟩ := expands dir target e.request outcome requests means unspoilt
        rw [show cString _ = target from terminated]
        cases run : code dir target e.request with
        | mk ending e' =>
          rw [run] at resolved counted
          cases ending with
          | found node => exact ⟨resolved, counted⟩
          | failed error cleared => exact ⟨resolved, counted⟩
      · cases unspoilt
  · cases unspoilt

/-- A link that is followed leads on to what its target means, or ends the resolution with its error. -/
theorem followLink_cases (expands : Expands expand survey code) {link : VNode}
    {onward : VNode → Option (Except Int VNode)} {surveyed : VNode → Nat → Option Nat}
    (means : (match targetMeaning tree expand dir link with
      | some (.ok next) => onward next
      | failed => failed) = some outcome)
    (unspoilt : (match targetIntact tree heap survey dir link e.requests with
      | none => none
      | some requests =>
        match targetMeaning tree expand dir link with
        | some (.ok next) => surveyed next requests
        | _ => some requests) = some requests) :
    (∃ next e', followLink tree heap code dir link e = (.found next, e') ∧ onward next = some outcome ∧
      surveyed next e'.requests = some requests) ∨
    ∃ error cleared e', followLink tree heap code dir link e = (.failed error cleared, e') ∧ outcome = .error error ∧
      e'.requests = requests := by
  cases seen : targetIntact tree heap survey dir link e.requests with
  | none =>
    rw [seen] at unspoilt
    cases unspoilt
  | some counted =>
    cases meant : targetMeaning tree expand dir link with
    | none =>
      rw [meant] at means
      cases means
    | some resolution =>
      obtain ⟨resolved, asked⟩ := followLink_agrees expands meant seen
      rw [seen, meant] at unspoilt
      rw [meant] at means
      cases run : followLink tree heap code dir link e with
      | mk ending e' =>
        rw [run] at resolved asked
        cases ending with
        | found next =>
          cases resolved
          cases asked
          exact .inl ⟨next, e', rfl, means, unspoilt⟩
        | failed error cleared =>
          cases resolved
          cases asked
          cases means
          cases unspoilt
          exact .inr ⟨error, cleared, e', rfl, rfl, rfl⟩

/-- One name after the other. -/
theorem resolveNames_agrees (expands : Expands expand survey code) {path : List (List Char)}
    (means : namesMeaning tree expand (follow || nested) dir path = some outcome)
    (unspoilt : namesIntact tree heap follow expand survey nested dir path e.requests = some requests) :
    Agrees outcome requests (resolveNames tree heap follow code dir path e) := by
  induction path generalizing dir e with
  | nil =>
    cases means
    cases unspoilt
    exact ⟨rfl, rfl⟩
  | cons name rest ih =>
    unfold namesMeaning at means
    unfold namesIntact at unspoilt
    simp only [resolveNames, resolveComponent, leaveMount_eq, enterMount_eq, isEmpty_eq_false_iff]
    cases answer : tree.lookup (above tree dir name) name with
    | error error =>
      rw [answer] at means unspoilt
      cases means
      cases unspoilt
      exact ⟨rfl, rfl⟩
    | ok entry =>
      obtain ⟨node, type⟩ := entry
      rw [answer] at means unspoilt
      simp only at means unspoilt ⊢
      by_cases blocked : sIsreg type ∧ rest ≠ []
      · rw [if_pos blocked] at means unspoilt ⊢
        cases means
        cases unspoilt
        exact ⟨rfl, rfl⟩
      · rw [if_neg blocked] at means unspoilt ⊢
        by_cases followed : sIslnk type ∧ (rest ≠ [] ∨ follow)
        · rw [if_pos followed] at unspoilt
          rw [if_pos ⟨followed.1, followed.2.imp_right fun on => by rw [on, Bool.true_or]⟩] at means
          rw [if_pos (leaf_followed.mpr followed)]
          obtain ⟨next, e', run, means, unspoilt⟩ | ⟨error, cleared, e', run, rfl, rfl⟩ :=
            followLink_cases (e := ((e.reference (above tree dir name)).put dir).reference node) expands means unspoilt
          · rw [run]
            exact ih means unspoilt
          · rw [run]
            exact ⟨rfl, rfl⟩
        · rw [if_neg followed] at unspoilt
          rw [if_neg fun coded => followed (leaf_followed.mp coded)]
          by_cases cut : sIslnk type ∧ nested
          · rw [if_pos cut] at unspoilt
            cases unspoilt
          · rw [if_neg cut] at unspoilt
            have passed : ¬(sIslnk type ∧ (rest ≠ [] ∨ (follow || nested))) := by
              rintro ⟨link, more | leaf⟩
              · exact followed ⟨link, .inl more⟩
              · obtain on | on := Bool.or_eq_true_iff.mp leaf
                · exact followed ⟨link, .inr on⟩
                · exact cut ⟨link, on⟩
            rw [if_neg passed] at means
            exact ih means unspoilt

/-- A resolution within any number of others. -/
theorem resolveNested_agrees {nesting : Nat} {start : VNode} {path : List Char}
    (means : meaning tree nesting (follow || nested) start path = some outcome)
    (unspoilt : intact tree heap follow nesting nested start path e.requests = some requests) :
    Agrees outcome requests (resolveNested tree heap follow nesting (some start) path e) := by
  induction nesting generalizing nested start path e outcome requests with
  | zero => cases means
  | succ nesting ih =>
    unfold intact at unspoilt
    split at unspoilt
    · rename_i granted
      rw [resolveNested_eq granted (origin_some tree start path)]
      refine resolveNames_agrees (fun dir target e outcome requests means unspoilt => ?_) means unspoilt
      have through : meaning tree nesting (follow || true) dir target = some outcome := by
        rw [Bool.or_true]
        exact means
      exact ih through unspoilt
    · cases unspoilt

end Agreement

/-- Where every buffer ends with its target and no chain of links is cut short,
a path resolves to what it means. -/
theorem intact_resolution_agrees (tree : FileTree) (heap : KernelHeap) (start : VNode) (path : List Char)
    (traverseLeafLink : Bool) (outcome : Except Int VNode)
    (means : meaning tree maxCount traverseLeafLink start path = some outcome)
    (unspoilt : (intact tree heap traverseLeafLink maxCount false start path 0).isSome) :
    (relativePathToVnode tree heap (some start) path traverseLeafLink).1.result = outcome := by
  obtain ⟨requests, found⟩ := Option.isSome_iff_exists.mp unspoilt
  have means : meaning tree maxCount (traverseLeafLink || false) start path = some outcome := by
    rw [Bool.or_false]
    exact means
  exact (resolveNested_agrees (e := Effects.none) means found).1

/-- A chain of two links before a directory with a file, and a link to the file. -/
def linkedTree : FileTree where
  rootNode := 0
  mount _ := ⟨0, none⟩
  coveredBy _ := none
  lookup dir name :=
    if dir = 0 ∧ name = ['a'] then .ok (1, sIflnk)
    else if dir = 0 ∧ name = ['b'] then .ok (2, sIflnk)
    else if dir = 0 ∧ name = ['d'] then .ok (3, sIfdir)
    else if dir = 3 ∧ name = ['x'] then .ok (4, sIfreg)
    else .error (-enotdir)
  readlink node := .ok (if node = 1 then ['b'] else ['d'])

theorem chain_followed_to_file :
    (relativePathToVnode linkedTree clearHeap (some 0) ['a', '/', 'x'] true).1.result = .ok 4 :=
  intact_resolution_agrees linkedTree clearHeap 0 ['a', '/', 'x'] true (.ok 4) rfl rfl

/-- With the leaf flag off, a chain of links in the middle of the path is cut short;
and what the buffer held before is resolved after the target. -/
theorem links_not_resolved_as_meant :
    (meaning linkedTree maxCount false 0 ['a', '/', 'x'] = some (.ok 4) ∧
      (relativePathToVnode linkedTree clearHeap (some 0) ['a', '/', 'x'] false).1.result = .error (-enotdir)) ∧
    (meaning linkedTree maxCount true 0 ['b'] = some (.ok 3) ∧
      (relativePathToVnode linkedTree ⟨fun _ => true, fun _ => ['?', '/', 'x']⟩ (some 0) ['b'] true).1.result =
        .ok 4) :=
  ⟨⟨rfl, rfl⟩, rfl, rfl⟩

end FluxOS.VFS
