import Mathlib.Algebra.Order.Pi
import Mathlib.Tactic.Abel
import FluxOS.LinkMeaning

/-! Which references a path resolution takes and does not put. It never puts one
too many; it forgets that of each symbolic link it follows, and that of a regular
file that is followed by a further name. -/
namespace FluxOS.VFS
open SeparatedNames LinkedPointers

/-- The reference a resolution hands over with its node. -/
def gained : Resolved → VNode → Int
  | .found node => points (some node)
  | .failed _ _ => 0

/-- Beyond what was held at first, only the node that was found has one reference more. -/
def Balanced (held : VNode → Int) (run : Resolved × Effects) : Prop := run.2.references = held + gained run.1

/-- As `Balanced`, but the references `lost` were not put. -/
def Loses (held lost : VNode → Int) (run : Resolved × Effects) : Prop :=
  0 ≤ lost ∧ run.2.references = held + lost + gained run.1

/-- The walk over the names follows no link and meets no regular file before a further name. -/
def NothingForgotten (tree : FileTree) (traverseLeafLink : Bool) : VNode → List (List Char) → Prop
  | _, [] => True
  | dir, name :: rest =>
    match tree.lookup (above tree dir name) name with
    | .error _ => True
    | .ok (node, type) =>
      ¬(sIsreg type ∧ rest ≠ []) ∧ ¬(sIslnk type ∧ (rest ≠ [] ∨ traverseLeafLink)) ∧
        NothingForgotten tree traverseLeafLink (below tree node) rest

theorem points_nonneg_fun (node : VNode) : 0 ≤ points (some node) := points_nonneg (some node)

theorem points_ne_zero (node : VNode) : points (some node) ≠ 0 := by
  intro none
  have self := congrFun none node
  rw [points_self] at self
  cases self

theorem Loses.balanced_iff {held lost : VNode → Int} {run : Resolved × Effects} (loses : Loses held lost run) :
    Balanced held run ↔ lost = 0 := by
  unfold Balanced
  rw [loses.2, add_right_cancel_iff, add_eq_left]

section Walking

variable {tree : FileTree} {expand : VNode → List Char → Effects → Resolved × Effects} {dir node : VNode}
  {name : List Char} {last : Bool} {type : Words.Word} (heap : KernelHeap) (traverseLeafLink : Bool)

/-- Whatever an expansion is asked for, it puts no reference it has not taken. -/
def KeepsAll (expand : VNode → List Char → Effects → Resolved × Effects) : Prop :=
  ∀ dir target e, ∃ lost, Loses e.references lost (expand dir target e)

theorem followLink_loses (tree : FileTree) (expands : KeepsAll expand) (dir link : VNode) (e : Effects) :
    ∃ lost, Loses e.references lost (followLink tree heap expand dir link e) := by
  have nothing : e.references = e.references + 0 + 0 := by
    abel
  unfold followLink
  split
  · cases tree.readlink link with
    | error code => exact ⟨0, le_rfl, nothing⟩
    | ok bytes =>
      simp only
      obtain ⟨lost, kept, left⟩ := expands dir
        (cString (overwritten (heap.holds e.requests) (bytes.take linkBufferSize))) e.request
      refine ⟨lost, kept, ?_⟩
      split
      · rename_i run
        rw [run] at left
        exact left
      · rename_i run
        rw [run] at left
        exact left
  · exact ⟨0, le_rfl, nothing⟩

/-- A failing lookup: everything is put. -/
theorem resolveComponent_of_error (expand : VNode → List Char → Effects → Resolved × Effects) (last : Bool)
    (e : Effects) {code : Int} (answer : tree.lookup (above tree dir name) name = .error code) :
    ∃ e', resolveComponent tree heap traverseLeafLink expand dir name last e = (.failed code true, e') ∧
      e'.references = e.references - points (some dir) := by
  simp only [resolveComponent, leaveMount_eq, answer]
  refine ⟨_, rfl, ?_⟩
  simp only [Effects.reference, Effects.put]
  abel

/-- A regular file before a further name: its reference is kept. -/
theorem resolveComponent_of_blocked (expand : VNode → List Char → Effects → Resolved × Effects) (e : Effects)
    (answer : tree.lookup (above tree dir name) name = .ok (node, type))
    (blocked : sIsreg type ∧ last = false) :
    ∃ e', resolveComponent tree heap traverseLeafLink expand dir name last e = (.failed (-enotdir) true, e') ∧
      e'.references = e.references - points (some dir) + points (some node) := by
  simp only [resolveComponent, leaveMount_eq, answer, if_pos blocked]
  refine ⟨_, rfl, ?_⟩
  simp only [Effects.reference, Effects.put]
  abel

/-- A node that is neither blocked nor a link to follow. -/
theorem resolveComponent_of_plain (expand : VNode → List Char → Effects → Resolved × Effects) (e : Effects)
    (answer : tree.lookup (above tree dir name) name = .ok (node, type))
    (unblocked : ¬(sIsreg type ∧ last = false)) (plain : ¬(sIslnk type ∧ ¬(traverseLeafLink = false ∧ last = true))) :
    ∃ e', resolveComponent tree heap traverseLeafLink expand dir name last e = (.found (below tree node), e') ∧
      e'.references = e.references - points (some dir) + points (some (below tree node)) := by
  simp only [resolveComponent, leaveMount_eq, enterMount_eq, answer, if_neg unblocked, if_neg plain]
  refine ⟨_, rfl, ?_⟩
  simp only [Effects.reference, Effects.put]
  abel

/-- A link that is followed: at least its own reference is kept. -/
theorem resolveComponent_of_link (expands : KeepsAll expand) (e : Effects)
    (answer : tree.lookup (above tree dir name) name = .ok (node, type))
    (unblocked : ¬(sIsreg type ∧ last = false)) (followed : sIslnk type ∧ ¬(traverseLeafLink = false ∧ last = true)) :
    ∃ lost, Loses (e.references - points (some dir)) (points (some node) + lost)
      (resolveComponent tree heap traverseLeafLink expand dir name last e) ∧ 0 ≤ lost := by
  simp only [resolveComponent, leaveMount_eq, enterMount_eq, answer, if_neg unblocked, if_pos followed]
  obtain ⟨lost, kept, left⟩ := followLink_loses heap tree expands (above tree dir name) node
    (((e.reference (above tree dir name)).put dir).reference node)
  refine ⟨lost, ⟨add_nonneg (points_nonneg_fun node) kept, ?_⟩, kept⟩
  split
  · rename_i run
    rw [run] at left
    simp only [Effects.reference, Effects.put, gained] at left ⊢
    rw [left]
    abel
  · rename_i run
    rw [run] at left
    simp only [Effects.reference, Effects.put, gained] at left ⊢
    rw [left]
    abel

/-- More than nothing is lost where a reference is. -/
theorem points_add_ne_zero {lost : VNode → Int} (kept : 0 ≤ lost) (node : VNode) : points (some node) + lost ≠ 0 := by
  intro none
  have all := (add_eq_zero_iff_of_nonneg (points_nonneg_fun node) kept).mp none
  exact points_ne_zero node all.1

theorem resolveNames_loses (expands : KeepsAll expand) (dir : VNode) (path : List (List Char)) (e : Effects) :
    ∃ lost, Loses (e.references - points (some dir)) lost
        (resolveNames tree heap traverseLeafLink expand dir path e) ∧
      (lost = 0 ↔ NothingForgotten tree traverseLeafLink dir path) := by
  induction path generalizing dir e with
  | nil =>
    refine ⟨0, ⟨le_rfl, ?_⟩, iff_of_true rfl trivial⟩
    simp only [resolveNames, gained]
    abel
  | cons name rest ih =>
    unfold NothingForgotten
    cases answer : tree.lookup (above tree dir name) name with
    | error code =>
      obtain ⟨e', stops, left⟩ := resolveComponent_of_error heap traverseLeafLink expand rest.isEmpty e answer
      refine ⟨0, ⟨le_rfl, ?_⟩, iff_of_true rfl trivial⟩
      simp only [resolveNames, stops, gained, left, add_zero]
    | ok entry =>
      obtain ⟨node, type⟩ := entry
      by_cases blocked : sIsreg type ∧ rest.isEmpty = false
      · obtain ⟨e', stops, left⟩ := resolveComponent_of_blocked heap traverseLeafLink expand e answer blocked
        refine ⟨points (some node), ⟨points_nonneg_fun node, ?_⟩, iff_of_false (points_ne_zero node) ?_⟩
        · simp only [resolveNames, stops, gained, left, add_zero]
        · exact fun kept => kept.1 ⟨blocked.1, isEmpty_eq_false_iff.mp blocked.2⟩
      · have unblocked : ¬(sIsreg type ∧ rest ≠ []) := fun both =>
          blocked ⟨both.1, isEmpty_eq_false_iff.mpr both.2⟩
        by_cases followed : sIslnk type ∧ ¬(traverseLeafLink = false ∧ rest.isEmpty = true)
        · obtain ⟨lost, ⟨_, left⟩, kept⟩ := resolveComponent_of_link heap traverseLeafLink expands e answer blocked
            followed
          have known : 0 ≤ points (some node) + lost := add_nonneg (points_nonneg_fun node) kept
          have follows : ¬(¬(sIsreg type ∧ rest ≠ []) ∧ ¬(sIslnk type ∧ (rest ≠ [] ∨ traverseLeafLink)) ∧
              NothingForgotten tree traverseLeafLink (below tree node) rest) := fun kept =>
            kept.2.1 (leaf_followed.mp followed)
          simp only [resolveNames]
          cases run : resolveComponent tree heap traverseLeafLink expand dir name rest.isEmpty e with
          | mk ending e' =>
            rw [run] at left
            cases ending with
            | failed code cleared =>
              exact ⟨_, ⟨known, left⟩, iff_of_false (points_add_ne_zero kept node) follows⟩
            | found next =>
              obtain ⟨more, ⟨nonneg, onward⟩, _⟩ := ih next e'
              refine ⟨points (some node) + (lost + more), ⟨?_, ?_⟩,
                iff_of_false (points_add_ne_zero (add_nonneg kept nonneg) node) follows⟩
              · exact add_nonneg (points_nonneg_fun node) (add_nonneg kept nonneg)
              · simp only [gained] at left
                simp only
                rw [onward, left]
                abel
        · obtain ⟨e', goes, left⟩ := resolveComponent_of_plain heap traverseLeafLink expand e answer blocked followed
          obtain ⟨lost, loses, balanced⟩ := ih (below tree node) e'
          refine ⟨lost, ?_, ?_⟩
          · rw [left, add_sub_cancel_right] at loses
            simp only [resolveNames, goes]
            exact loses
          · have passed : ¬(sIslnk type ∧ (rest ≠ [] ∨ traverseLeafLink)) := fun both =>
              followed (leaf_followed.mpr both)
            rw [balanced]
            exact ⟨fun kept => ⟨unblocked, passed, kept⟩, fun kept => kept.2.2⟩

theorem resolveNested_keepsAll (tree : FileTree) (remaining : Nat) :
    KeepsAll fun node target e => resolveNested tree heap traverseLeafLink remaining (some node) target e := by
  induction remaining with
  | zero =>
    intro node target e
    refine ⟨0, le_rfl, ?_⟩
    simp only [resolveNested, origin_some]
    split <;> simp only [gained, Effects.request, add_zero]
  | succ remaining ih =>
    intro node target e
    by_cases copied : heap.grants e.requests = true
    · obtain ⟨lost, loses, _⟩ := resolveNames_loses heap traverseLeafLink ih (beginning tree node target)
        (names '/' target) (e.request.reference (beginning tree node target))
      refine ⟨lost, ?_⟩
      simp only
      rw [resolveNested_eq copied (origin_some tree node target)]
      simp only [Effects.reference, add_sub_cancel_right] at loses
      exact loses
    · refine ⟨0, le_rfl, ?_⟩
      simp only
      rw [resolveNested, if_neg copied]
      simp only [gained, Effects.request, add_zero]

/-- A path that gets its copy is walked without forgetting anything. `requests` have been made of the heap before. -/
def ResolvesEvenly (tree : FileTree) (heap : KernelHeap) (start : VNode) (path : List Char) (traverseLeafLink : Bool)
    (requests : Nat) : Prop :=
  heap.grants requests = true → NothingForgotten tree traverseLeafLink (beginning tree start path) (names '/' path)

theorem ResolvesEvenly.balanced {start : VNode} {path : List Char} {e : Effects} {heap : KernelHeap}
    {traverseLeafLink : Bool} (even : ResolvesEvenly tree heap start path traverseLeafLink e.requests) :
    Balanced e.references (resolveNested tree heap traverseLeafLink maxCount (some start) path e) := by
  unfold maxCount
  by_cases copied : heap.grants e.requests = true
  · rw [resolveNested_eq copied (origin_some tree start path)]
    obtain ⟨lost, loses, balanced⟩ := resolveNames_loses heap traverseLeafLink
      (resolveNested_keepsAll heap traverseLeafLink tree 255) (beginning tree start path) (names '/' path)
      (e.request.reference (beginning tree start path))
    have began : (e.request.reference (beginning tree start path)).references - points (some (beginning tree start path)) =
        e.references := add_sub_cancel_right _ _
    rw [began] at loses
    exact loses.balanced_iff.mpr (balanced.mpr (even copied))
  · rw [resolveNested, if_neg copied]
    simp only [Balanced, gained, Effects.request, add_zero]

end Walking

/-- Resolving a path is reference-balanced exactly when it walks a path from somewhere
and forgets nothing on the way, or comes to no walk. -/
theorem resolution_balanced_iff (tree : FileTree) (heap : KernelHeap) (start : Option VNode) (path : List Char)
    (traverseLeafLink : Bool) :
    Balanced 0 (relativePathToVnode tree heap start path traverseLeafLink) ↔
      ∀ dir, heap.grants 0 = true → origin tree start path = some dir →
        NothingForgotten tree traverseLeafLink dir (names '/' path) := by
  unfold relativePathToVnode maxCount
  by_cases copied : heap.grants 0 = true
  · cases begins : origin tree start path with
    | none =>
      refine iff_of_true ?_ fun dir _ no => absurd no (by simp)
      rw [resolveNested, if_pos (show heap.grants Effects.none.requests = true from copied), begins]
      rfl
    | some dir =>
      rw [resolveNested_eq copied begins]
      obtain ⟨lost, loses, balanced⟩ := resolveNames_loses heap traverseLeafLink
        (resolveNested_keepsAll heap traverseLeafLink tree 255) dir (names '/' path)
        (Effects.none.request.reference dir)
      have began : (Effects.none.request.reference dir).references - points (some dir) = 0 :=
        add_sub_cancel_right _ _
      rw [began] at loses
      rw [loses.balanced_iff, balanced]
      exact ⟨fun kept _ _ same => Option.some.inj same ▸ kept, fun kept => kept dir copied rfl⟩
  · refine iff_of_true ?_ fun dir granted => absurd granted copied
    rw [resolveNested, if_neg (show ¬heap.grants Effects.none.requests = true from copied)]
    rfl

/-- The node of a followed link, and that of a regular file before a further name. -/
theorem resolution_forgets_references :
    ¬Balanced 0 (relativePathToVnode linkedTree clearHeap (some 0) ['b'] true) ∧
      ¬Balanced 0 (relativePathToVnode linkedTree clearHeap (some 0) ['d', '/', 'x', '/', 'y'] true) := by
  constructor
  · intro balanced
    have link := congrFun balanced 2
    revert link
    decide
  · intro balanced
    have file := congrFun balanced 4
    revert file
    decide

end FluxOS.VFS
