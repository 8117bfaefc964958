import FluxOS.VFS

/-! What a path means: `lookup` folded over its names. Resolving a path agrees
with that where no symbolic link is met. -/
namespace FluxOS
open SeparatedNames

/-- Whether a resolution has led to a node, or failed. -/
def Resolved.result : Resolved → Except Int VNode
  | .found node => .ok node
  | .failed code _ => .error code

namespace VFS

section Crossing

variable (tree : FileTree)

/-- The directory in which a name is looked up, when the walk is at `dir`. -/
def above (dir : VNode) (name : List Char) : VNode :=
  if name = dotDot ∧ (tree.mount dir).fsRootVNode = dir then (tree.mount dir).coversVNode.getD dir else dir

/-- Where the walk is, once lookup has led to `node`. -/
def below (node : VNode) : VNode := (tree.coveredBy node).getD node

theorem leaveMount_eq (dir : VNode) (name : List Char) (e : Effects) :
    leaveMount tree dir name e = (above tree dir name, (e.reference (above tree dir name)).put dir) := by
  unfold leaveMount above
  split
  · cases (tree.mount dir).coversVNode with
    | some covered => rfl
    | none => exact Prod.ext rfl (e.put_reference dir).symm
  · exact Prod.ext rfl (e.put_reference dir).symm

theorem enterMount_eq (node : VNode) (e : Effects) :
    enterMount tree node e = (below tree node, (e.reference (below tree node)).put node) := by
  unfold enterMount below
  cases tree.coveredBy node with
  | some root => rfl
  | none => exact Prod.ext rfl (e.put_reference node).symm

end Crossing

section Names

variable (tree : FileTree) (heap : KernelHeap) (traverseLeafLink : Bool)
  (expand : VNode → List Char → Effects → Resolved × Effects)

/-- The loop, over the names of the path. -/
def resolveNames : VNode → List (List Char) → Effects → Resolved × Effects
  | dir, [], e => (.found dir, e)
  | dir, name :: rest, e =>
    match resolveComponent tree heap traverseLeafLink expand dir name rest.isEmpty e with
    | (.failed code cleared, e) => (.failed code cleared, e)
    | (.found next, e) => resolveNames next rest e

/-- The loop reads exactly the names of the path, in their order. -/
theorem resolvePath_eq_resolveNames {length : Nat} {path : List Char} (dir : VNode) (enough : path.length ≤ length)
    (e : Effects) :
    resolvePath tree heap traverseLeafLink expand length dir (skipSeparators '/' path) e =
      resolveNames tree heap traverseLeafLink expand dir (names '/' path) e := by
  induction length generalizing path dir e with
  | zero =>
    cases List.eq_nil_of_length_eq_zero (Nat.le_zero.mp enough)
    rfl
  | succ length ih =>
    rw [← names_skipSeparators]
    cases left : skipSeparators '/' path with
    | nil => rfl
    | cons first rest =>
      have shorter : (fromSeparator '/' rest).length ≤ length := by
        have bound := length_skipSeparators_le '/' path
        have more := length_fromSeparator_le '/' rest
        rw [left, List.length_cons] at bound
        omega
      have ends : (skipSeparators '/' (fromSeparator '/' rest)).isEmpty =
          (names '/' (fromSeparator '/' rest)).isEmpty := by
        rw [Bool.eq_iff_iff, List.isEmpty_iff, List.isEmpty_iff, names_eq_nil_iff]
      rw [names_cons (head_skipSeparators left)]
      simp only [resolvePath, resolveNames, ends]
      cases resolveComponent tree heap traverseLeafLink expand dir (first :: beforeSeparator '/' rest)
          (names '/' (fromSeparator '/' rest)).isEmpty e with
      | mk resolved e =>
        cases resolved with
        | failed code cleared => rfl
        | found next => exact ih next shorter e

end Names

theorem isEmpty_eq_false_iff {rest : List (List Char)} : rest.isEmpty = false ↔ rest ≠ [] := by
  cases rest <;> simp

/-- The code's test of a link against the leaf flag. -/
theorem leaf_followed {follow : Bool} {type : Words.Word} {rest : List (List Char)} :
    (sIslnk type ∧ ¬(follow = false ∧ rest.isEmpty = true)) ↔ (sIslnk type ∧ (rest ≠ [] ∨ follow)) := by
  cases follow <;> cases rest <;> simp

theorem sIsreg_of_sIsdir {type : Words.Word} (is_dir : sIsdir type = true) : sIsreg type = false := by
  simp only [sIsreg, sIsdir, decide_eq_true_eq, decide_eq_false_iff_not] at is_dir ⊢
  rw [is_dir]
  decide

theorem sIslnk_of_sIsdir {type : Words.Word} (is_dir : sIsdir type = true) : sIslnk type = false := by
  simp only [sIslnk, sIsdir, decide_eq_true_eq, decide_eq_false_iff_not] at is_dir ⊢
  rw [is_dir]
  decide

/-- Where a path that is not null begins. -/
def beginning (tree : FileTree) (start : VNode) (path : List Char) : VNode :=
  if path.head? = some '/' then tree.rootNode else start

theorem origin_some (tree : FileTree) (start : VNode) (path : List Char) :
    origin tree (some start) path = some (beginning tree start path) := by
  unfold origin beginning
  split <;> rfl

/-- A resolution that may still expand links and gets its copy of the path. -/
theorem resolveNested_eq {tree : FileTree} {heap : KernelHeap} {traverseLeafLink : Bool} {remaining : Nat}
    {start : Option VNode} {dir : VNode} {path : List Char} {e : Effects} (copied : heap.grants e.requests = true)
    (begins : origin tree start path = some dir) :
    resolveNested tree heap traverseLeafLink (remaining + 1) start path e =
      resolveNames tree heap traverseLeafLink
        (fun node target e => resolveNested tree heap traverseLeafLink remaining (some node) target e) dir
        (names '/' path) (e.request.reference dir) := by
  rw [resolveNested, if_pos copied, begins]
  exact resolvePath_eq_resolveNames tree heap traverseLeafLink _ dir le_rfl _

section Folding

variable (tree : FileTree)

/-- `lookup` folded over the names: `..` at the root of a mount is looked up from the
node it covers, and what is covered by a mount is replaced by its root. -/
def foldLookup : VNode → List (List Char) → Except Int VNode
  | dir, [] => .ok dir
  | dir, name :: rest =>
    match tree.lookup (above tree dir name) name with
    | .error code => .error code
    | .ok (node, type) =>
      if sIsreg type ∧ rest ≠ [] then .error (-enotdir) else foldLookup (below tree node) rest

/-- No name on the way is that of a symbolic link. -/
def LinkFree : VNode → List (List Char) → Prop
  | _, [] => True
  | dir, name :: rest =>
    match tree.lookup (above tree dir name) name with
    | .error _ => True
    | .ok (node, type) => sIslnk type = false ∧ (sIsreg type ∧ rest ≠ [] ∨ LinkFree (below tree node) rest)

instance decidableLinkFree : ∀ (dir : VNode) (path : List (List Char)), Decidable (LinkFree tree dir path)
  | _, [] => isTrue trivial
  | dir, name :: rest =>
    match answer : tree.lookup (above tree dir name) name with
    | .error _ => isTrue (by simp only [LinkFree, answer])
    | .ok (node, type) =>
      have := decidableLinkFree (below tree node) rest
      decidable_of_iff (sIslnk type = false ∧ (sIsreg type ∧ rest ≠ [] ∨ LinkFree tree (below tree node) rest))
        (by simp only [LinkFree, answer])

variable {tree} {heap : KernelHeap} {traverseLeafLink : Bool}
  {expand : VNode → List Char → Effects → Resolved × Effects}

theorem resolveNames_of_linkFree {dir : VNode} {path : List (List Char)} (plain : LinkFree tree dir path)
    (e : Effects) :
    (resolveNames tree heap traverseLeafLink expand dir path e).1.result = foldLookup tree dir path := by
  induction path generalizing dir e with
  | nil => rfl
  | cons name rest ih =>
    unfold LinkFree at plain
    simp only [resolveNames, resolveComponent, leaveMount_eq, enterMount_eq, foldLookup]
    cases answer : tree.lookup (above tree dir name) name with
    | error code => rfl
    | ok entry =>
      obtain ⟨node, type⟩ := entry
      rw [answer] at plain
      obtain ⟨noLink, onward⟩ := plain
      by_cases blocked : sIsreg type ∧ rest ≠ []
      · simp only [isEmpty_eq_false_iff, if_pos blocked]
        rfl
      · simp only [isEmpty_eq_false_iff, if_neg blocked, noLink, Bool.false_eq_true, false_and, if_false]
        exact ih (onward.resolve_left blocked) _

end Folding

/-- Resolving a path on which no symbolic link is met folds `lookup` over the names between
its slashes, from the root node when the path begins with a slash. -/
theorem resolution_folds_lookup (tree : FileTree) (heap : KernelHeap) (start : VNode) (path : List Char)
    (traverseLeafLink : Bool) (copied : heap.grants 0 = true)
    (plain : LinkFree tree (beginning tree start path) (names '/' path)) :
    (relativePathToVnode tree heap (some start) path traverseLeafLink).1.result =
      foldLookup tree (beginning tree start path) (names '/' path) := by
  unfold relativePathToVnode maxCount
  rw [resolveNested_eq copied (origin_some tree start path)]
  exact resolveNames_of_linkFree plain _

/-- A file system mounted on the directory `m` of the root file system; it holds a file `f`. -/
def mountedTree : FileTree where
  rootNode := 0
  mount node := if node < 10 then ⟨0, none⟩ else ⟨10, some 1⟩
  coveredBy node := if node = 1 then some 10 else none
  lookup dir name :=
    if dir = 0 ∧ name = ['m'] then .ok (1, sIfdir)
    else if dir = 1 ∧ name = dotDot then .ok (0, sIfdir)
    else if dir = 10 ∧ name = ['f'] then .ok (11, sIfreg)
    else .error (-enotdir)
  readlink _ := .error (-einval)

theorem mounted_file_resolves :
    (relativePathToVnode mountedTree ⟨fun _ => true, fun _ => []⟩ (some 10) ['.', '.', '/', 'm', '/', '/', 'f', '/']
      false).1.result = .ok 11 := by
  refine (resolution_folds_lookup mountedTree _ 10 _ false rfl ?_).trans rfl
  decide

end VFS
end FluxOS
