import FluxOS.PathMeaning

/-! Two trees in which a path resolves alike: related nodes answer every lookup with related
nodes. -/
namespace FluxOS.VFS
open SeparatedNames

/-- What holds between the nodes of two trees is kept by every step of a walk. Where the trees are related
strictly, a lookup that fails in the first one fails in the second one. -/
structure Simulation (strict : Prop) (tree other : FileTree) (related : VNode → VNode → Prop) : Prop where
  root : related tree.rootNode other.rootNode
  found {dir dir' node : VNode} {name : List Char} {type : Words.Word} (at_dir : related dir dir')
    (answer : tree.lookup (above tree dir name) name = .ok (node, type)) :
    ∃ node' type', other.lookup (above other dir' name) name = .ok (node', type') ∧
      sIsreg type' = sIsreg type ∧ sIslnk type' = sIslnk type ∧ related (below tree node) (below other node') ∧
      (sIslnk type = true → related (above tree dir name) (above other dir' name) ∧
        other.readlink node' = tree.readlink node)
  failed {dir dir' : VNode} {name : List Char} {code : Int} (exact : strict) (at_dir : related dir dir')
    (answer : tree.lookup (above tree dir name) name = .error code) :
    other.lookup (above other dir' name) name = .error code
  entered {node node' : VNode} (at_node : related node node') : related (below tree node) (below other node')

/-- A run ends as another: at a related node, with as many blocks requested. -/
def EndsAs (strict : Prop) (related : VNode → VNode → Prop) (run run' : Resolved × Effects) : Prop :=
  match run.1 with
  | .found node => ∃ node', run'.1 = .found node' ∧ related node node' ∧ run'.2.requests = run.2.requests
  | .failed code _ => strict → run'.1.result = .error code

section Walking

variable {strict : Prop} {tree other : FileTree} {related : VNode → VNode → Prop} {heap : KernelHeap} {follow : Bool}
  {expand expand' : VNode → List Char → Effects → Resolved × Effects}

/-- The targets of links are expanded alike. -/
def ExpandAlike (strict : Prop) (related : VNode → VNode → Prop)
    (expand expand' : VNode → List Char → Effects → Resolved × Effects) : Prop :=
  ∀ dir dir' target e e', related dir dir' → e'.requests = e.requests →
    EndsAs strict related (expand dir target e) (expand' dir' target e')

theorem EndsAs.of_failed {run run' : Resolved × Effects} {code : Int} {cleared : Bool} (ends : run.1 = .failed code cleared)
    (also_fails : strict → run'.1.result = .error code) : EndsAs strict related run run' := by
  rw [EndsAs, ends]
  exact also_fails

theorem followLink_alike (heap : KernelHeap) (alike : ExpandAlike strict related expand expand') {dir dir' link link' : VNode} {e e' : Effects}
    (at_dir : related dir dir') (same : other.readlink link' = tree.readlink link) (requests : e'.requests = e.requests) :
    EndsAs strict related (followLink tree heap expand dir link e) (followLink other heap expand' dir' link' e') := by
  unfold followLink
  rw [requests, same]
  split
  · cases tree.readlink link with
    | error code => exact fun _ => rfl
    | ok bytes =>
      simp only
      have ends := alike dir dir' (cString (overwritten (heap.holds e.requests) (bytes.take linkBufferSize))) e.request
        e'.request at_dir (congrArg (· + 1) requests)
      cases run : expand dir (cString (overwritten (heap.holds e.requests) (bytes.take linkBufferSize))) e.request with
      | mk resolved after =>
        rw [run] at ends
        cases resolved with
        | found node =>
          obtain ⟨node', found, at_node, counted⟩ := ends
          cases run' : expand' dir' (cString (overwritten (heap.holds e.requests) (bytes.take linkBufferSize)))
              e'.request with
          | mk resolved' after' =>
            rw [run'] at found counted
            cases found
            exact ⟨node', rfl, at_node, counted⟩
        | failed code cleared =>
          intro exact
          have fails := ends exact
          cases run' : expand' dir' (cString (overwritten (heap.holds e.requests) (bytes.take linkBufferSize)))
              e'.request with
          | mk resolved' after' =>
            rw [run'] at fails
            cases resolved' with
            | found node => cases fails
            | failed code' cleared' => exact fails
  · exact fun _ => rfl

/-- One name after the other. -/
theorem resolveNames_alike (simulation : Simulation strict tree other related)
    (alike : ExpandAlike strict related expand expand') {dir dir' : VNode} {path : List (List Char)} {e e' : Effects}
    (at_dir : related dir dir') (requests : e'.requests = e.requests) :
    EndsAs strict related (resolveNames tree heap follow expand dir path e)
      (resolveNames other heap follow expand' dir' path e') := by
  induction path generalizing dir dir' e e' with
  | nil => exact ⟨dir', rfl, at_dir, requests⟩
  | cons name rest ih =>
    simp only [resolveNames, resolveComponent, leaveMount_eq, enterMount_eq, isEmpty_eq_false_iff]
    cases answer : tree.lookup (above tree dir name) name with
    | error code =>
      refine .of_failed rfl fun exact => ?_
      rw [simulation.failed exact at_dir answer]
      rfl
    | ok entry =>
      obtain ⟨node, type⟩ := entry
      obtain ⟨node', type', answer', regular, linked, at_node, target⟩ := simulation.found at_dir answer
      rw [answer']
      simp only [regular, linked]
      by_cases blocked : sIsreg type ∧ rest ≠ []
      · rw [if_pos blocked, if_pos blocked]
        exact .of_failed rfl fun _ => rfl
      · rw [if_neg blocked, if_neg blocked]
        by_cases followed : sIslnk type ∧ ¬(follow = false ∧ rest.isEmpty = true)
        · rw [if_pos followed, if_pos followed]
          obtain ⟨at_above, same⟩ := target followed.1
          have counted : (((e'.reference (above other dir' name)).put dir').reference node').requests =
              (((e.reference (above tree dir name)).put dir).reference node).requests := requests
          have ends := followLink_alike heap alike at_above same counted
          cases run : followLink tree heap expand (above tree dir name) node
              (((e.reference (above tree dir name)).put dir).reference node) with
          | mk resolved after =>
            cases run' : followLink other heap expand' (above other dir' name) node'
                (((e'.reference (above other dir' name)).put dir').reference node') with
            | mk resolved' after' =>
              rw [run, run'] at ends
              cases resolved with
              | found next =>
                obtain ⟨next', found, at_next, counted⟩ := ends
                cases found
                exact ih (simulation.entered at_next) counted
              | failed code cleared =>
                refine .of_failed rfl fun exact => ?_
                have fails := ends exact
                cases resolved' with
                | found next => cases fails
                | failed code' cleared' => exact fails
        · rw [if_neg followed, if_neg followed]
          exact ih at_node requests

/-- A path from related nodes. -/
theorem resolveNested_alike (simulation : Simulation strict tree other related) (remaining : Nat) :
    ExpandAlike strict related
      (fun dir target e => resolveNested tree heap follow remaining (some dir) target e)
      (fun dir target e => resolveNested other heap follow remaining (some dir) target e) := by
  induction remaining with
  | zero =>
    intro dir dir' target e e' at_dir requests
    dsimp only
    rw [resolveNested, resolveNested, requests, origin_some, origin_some]
    split <;> exact .of_failed rfl fun _ => rfl
  | succ remaining ih =>
    intro dir dir' target e e' at_dir requests
    dsimp only
    by_cases granted : heap.grants e.requests = true
    · rw [resolveNested_eq granted (origin_some tree dir target),
        resolveNested_eq (requests ▸ granted) (origin_some other dir' target)]
      refine resolveNames_alike simulation ih ?_ (congrArg (· + 1) requests)
      unfold beginning
      split
      · exact simulation.root
      · exact at_dir
    · rw [resolveNested, resolveNested, requests, if_neg granted, if_neg granted]
      exact .of_failed rfl fun _ => rfl

/-- An absolute path. -/
theorem relativePathToVnode_alike (simulation : Simulation strict tree other related) (heap : KernelHeap)
    (path : List Char) (follow : Bool) :
    EndsAs strict related (relativePathToVnode tree heap none path follow)
      (relativePathToVnode other heap none path follow) := by
  unfold relativePathToVnode maxCount
  by_cases granted : heap.grants Effects.none.requests = true
  · by_cases absolute : path.head? = some '/'
    · rw [resolveNested_eq granted (if_pos absolute), resolveNested_eq granted (if_pos absolute)]
      exact resolveNames_alike simulation (resolveNested_alike simulation _) simulation.root rfl
    · rw [resolveNested, resolveNested, if_pos granted, if_pos granted, origin, origin, if_neg absolute, if_neg absolute]
      exact .of_failed rfl fun _ => rfl
  · rw [resolveNested, resolveNested, if_neg granted, if_neg granted]
    exact .of_failed rfl fun _ => rfl

end Walking
end FluxOS.VFS
