import FluxOS.FileCreation
import FluxOS.PathMeaning

/-! `pathToParentAndName` parses a path a second time. It agrees with the walk of
`RelativePathToVnode` unless the path has one name behind one slash, or ends with
two slashes. -/
namespace FluxOS.FSUAPI
open SeparatedNames VFS

section Parsing

theorem currentPathToken_of_not_mem {text : List Char} (plain : '/' ∉ text) (last : Char) (i token : Nat) :
    currentPathToken (text ++ [last]) i token = token := by
  induction text generalizing i with
  | nil => simp [currentPathToken]
  | cons head rest ih =>
    have other : head ≠ '/' := fun same => plain (same ▸ List.mem_cons_self)
    rw [List.cons_append, currentPathToken, if_neg fun both => other both.1]
    exact ih (fun member => plain (List.mem_cons_of_mem head member)) (i + 1)

theorem currentPathToken_append (front : List Char) {text : List Char} (plain : '/' ∉ text) (last : Char) (i token : Nat) :
    currentPathToken (front ++ '/' :: (text ++ [last])) i token = i + front.length + 1 := by
  induction front generalizing i token with
  | nil =>
    rw [List.nil_append, currentPathToken, if_pos ⟨rfl, by simp⟩, currentPathToken_of_not_mem plain]
    rfl
  | cons head rest ih =>
    rw [List.cons_append, currentPathToken, ih, List.length_cons]
    omega

/-- The last slash of a text, if it has one. -/
theorem last_slash (text : List Char) :
    '/' ∉ text ∨ ∃ front rest, text = front ++ '/' :: rest ∧ '/' ∉ rest := by
  by_cases member : '/' ∈ text
  · obtain ⟨rest, front, reversed, plain⟩ := List.eq_append_cons_of_mem (List.mem_reverse.mpr member)
    refine .inr ⟨front.reverse, rest.reverse, ?_, fun inside => plain (List.mem_reverse.mp inside)⟩
    rw [← List.reverse_reverse text, reversed]
    simp
  · exact .inl member

/-- What follows the last slash that does not end the path: a name, with at most one slash behind it. -/
theorem word_cases {text : List Char} (plain : '/' ∉ text) (last : Char) : ∃ name tail, text ++ [last] = name ++ tail ∧
    withoutLastSlash (text ++ [last]) = name ∧ '/' ∉ name ∧ (tail = [] ∧ name ≠ [] ∨ tail = ['/']) := by
  unfold withoutLastSlash
  rw [List.getLast?_append_cons, List.getLast?_singleton, List.dropLast_concat]
  by_cases ends : last = '/'
  · refine ⟨text, ['/'], by rw [ends], if_pos (by rw [ends]), plain, .inr rfl⟩
  · refine ⟨text ++ [last], [], (List.append_nil _).symm, if_neg fun same => ends (Option.some.inj same), ?_,
      .inl ⟨rfl, by simp⟩⟩
    rw [List.mem_append, List.mem_singleton, not_or]
    exact ⟨plain, fun same => ends same.symm⟩

theorem names_word {name tail : List Char} (plain : '/' ∉ name) (short : tail = [] ∧ name ≠ [] ∨ tail = ['/']) :
    names '/' (name ++ tail) = if name = [] then [] else [name] := by
  obtain ⟨rfl, _⟩ | rfl := short
  · rw [List.append_nil, names_of_not_mem plain]
  · rw [names_append_separator, names_of_not_mem plain, names_nil, List.append_nil]

/-- The two parsers' views of a path: in front of its last name it has nothing, a slash, or more. -/
theorem path_cases {path : List Char} (nonempty : path ≠ []) : ∃ name tail, '/' ∉ name ∧
    (tail = [] ∧ name ≠ [] ∨ tail = ['/']) ∧ path.drop (currentPathToken path 0 0) = name ++ tail ∧
    withoutLastSlash (name ++ tail) = name ∧
    (currentPathToken path 0 0 = 0 ∧ path = name ++ tail ∨
      ∃ front, currentPathToken path 0 0 = front.length + 1 ∧ path = front ++ '/' :: (name ++ tail)) := by
  obtain ⟨text, last, rfl⟩ := (List.eq_nil_or_concat' path).resolve_left nonempty
  obtain plain | ⟨front, rest, rfl, plain⟩ := last_slash text
  · obtain ⟨name, tail, word, stripped, free, short⟩ := word_cases plain last
    have token := currentPathToken_of_not_mem plain last 0 0
    exact ⟨name, tail, free, short, by rw [token, List.drop_zero, word], word ▸ stripped, .inl ⟨token, word⟩⟩
  · obtain ⟨name, tail, word, stripped, free, short⟩ := word_cases plain last
    have whole : front ++ '/' :: rest ++ [last] = front ++ '/' :: (rest ++ [last]) := by simp
    have token : currentPathToken (front ++ '/' :: rest ++ [last]) 0 0 = front.length + 1 := by
      rw [whole, currentPathToken_append front plain, Nat.zero_add]
    refine ⟨name, tail, free, short, ?_, word ▸ stripped, .inr ⟨front, token, by rw [whole, word]⟩⟩
    rw [token, whole, word, List.drop_append]
    simp

end Parsing

/-- The heap gives out blocks that are all alike, so what a path resolves to is no matter of chance. -/
def Steady (heap : KernelHeap) : Prop := ∀ request, heap.grants request = true ∧ heap.holds request = heap.holds 0

section Repeating

variable (tree : FileTree) {heap : KernelHeap} (traverseLeafLink : Bool)
  {expand : VNode → List Char → Effects → Resolved × Effects}

/-- Expanding the same target twice leads to the same. -/
def Repeats (expand : VNode → List Char → Effects → Resolved × Effects) : Prop :=
  ∀ dir target e e', (expand dir target e).1 = (expand dir target e').1

theorem followLink_repeats (steady : Steady heap) (repeats : Repeats expand) (dir link : VNode) (e e' : Effects) :
    (followLink tree heap expand dir link e).1 = (followLink tree heap expand dir link e').1 := by
  unfold followLink
  rw [if_pos (steady e.requests).1, if_pos (steady e'.requests).1, (steady e.requests).2, (steady e'.requests).2]
  cases tree.readlink link with
  | error code => rfl
  | ok bytes =>
    simp only
    have same := repeats dir (cString (overwritten (heap.holds 0) (bytes.take linkBufferSize))) e.request e'.request
    cases first : expand dir (cString (overwritten (heap.holds 0) (bytes.take linkBufferSize))) e.request with
    | mk ending left =>
      cases second : expand dir (cString (overwritten (heap.holds 0) (bytes.take linkBufferSize))) e'.request with
      | mk ending' left' =>
        rw [first, second] at same
        cases same
        cases ending <;> rfl

theorem resolveComponent_repeats (steady : Steady heap) (repeats : Repeats expand) (dir : VNode) (name : List Char)
    (last : Bool) (e e' : Effects) :
    (resolveComponent tree heap traverseLeafLink expand dir name last e).1 =
      (resolveComponent tree heap traverseLeafLink expand dir name last e').1 := by
  simp only [resolveComponent, leaveMount_eq, enterMount_eq]
  cases tree.lookup (above tree dir name) name with
  | error code => rfl
  | ok entry =>
    obtain ⟨node, type⟩ := entry
    simp only
    split
    · rfl
    · by_cases followed : sIslnk type ∧ ¬(traverseLeafLink = false ∧ last = true)
      · have same := followLink_repeats tree steady repeats (above tree dir name) node
          (((e.reference (above tree dir name)).put dir).reference node)
          (((e'.reference (above tree dir name)).put dir).reference node)
        rw [if_pos followed, if_pos followed]
        cases first : followLink tree heap expand (above tree dir name) node
            (((e.reference (above tree dir name)).put dir).reference node) with
        | mk ending left =>
          cases second : followLink tree heap expand (above tree dir name) node
              (((e'.reference (above tree dir name)).put dir).reference node) with
          | mk ending' left' =>
            rw [first, second] at same
            cases same
            cases ending <;> rfl
      · rw [if_neg followed, if_neg followed]

theorem resolveNames_repeats (steady : Steady heap) (repeats : Repeats expand) (dir : VNode)
    (path : List (List Char)) (e e' : Effects) :
    (resolveNames tree heap traverseLeafLink expand dir path e).1 =
      (resolveNames tree heap traverseLeafLink expand dir path e').1 := by
  induction path generalizing dir e e' with
  | nil => rfl
  | cons name rest ih =>
    have same := resolveComponent_repeats tree traverseLeafLink steady repeats dir name rest.isEmpty e e'
    simp only [resolveNames]
    cases first : resolveComponent tree heap traverseLeafLink expand dir name rest.isEmpty e with
    | mk ending left =>
      cases second : resolveComponent tree heap traverseLeafLink expand dir name rest.isEmpty e' with
      | mk ending' left' =>
        rw [first, second] at same
        cases same
        cases ending with
        | failed code cleared => rfl
        | found next => exact ih next left left'

theorem resolveNested_repeats (steady : Steady heap) (remaining : Nat) :
    Repeats fun node target e => resolveNested tree heap traverseLeafLink remaining (some node) target e := by
  induction remaining with
  | zero =>
    intro node target e e'
    simp only
    rw [resolveNested, resolveNested, if_pos (steady e.requests).1, if_pos (steady e'.requests).1, origin_some]
  | succ remaining ih =>
    intro node target e e'
    simp only
    rw [resolveNested_eq (steady e.requests).1 (origin_some tree node target),
      resolveNested_eq (steady e'.requests).1 (origin_some tree node target)]
    exact resolveNames_repeats tree traverseLeafLink steady ih _ _ _ _

/-- A component that is passed in the middle of a path is passed at its end as well. -/
theorem resolveComponent_passed {dir next : VNode} {name : List Char} {e e' : Effects} (last : Bool)
    (passed : resolveComponent tree heap true expand dir name false e = (.found next, e')) :
    resolveComponent tree heap true expand dir name last e = (.found next, e') := by
  simp only [resolveComponent, leaveMount_eq, enterMount_eq] at passed ⊢
  cases answer : tree.lookup (above tree dir name) name with
  | error code =>
    rw [answer] at passed
    cases passed
  | ok entry =>
    obtain ⟨node, type⟩ := entry
    rw [answer] at passed
    simp only [and_true, Bool.true_eq_false, false_and, not_false_eq_true] at passed ⊢
    by_cases regular : sIsreg type = true
    · rw [if_pos regular] at passed
      cases passed
    · rw [if_neg regular] at passed
      rw [if_neg fun both => regular both.1]
      exact passed

/-- The walk comes to the last name where the names before it lead. -/
theorem resolveNames_concat {dir target : VNode} {before : List (List Char)} {name : List Char} {e : Effects}
    (leads : (resolveNames tree heap true expand dir (before ++ [name]) e).1 = .found target) :
    ∃ parent e', resolveNames tree heap true expand dir before e = (.found parent, e') ∧
      ∃ node type, tree.lookup (above tree parent name) name = .ok (node, type) := by
  induction before generalizing dir e with
  | nil =>
    refine ⟨dir, e, rfl, ?_⟩
    simp only [List.nil_append, resolveNames, resolveComponent, leaveMount_eq] at leads
    cases answer : tree.lookup (above tree dir name) name with
    | error code =>
      rw [answer] at leads
      cases leads
    | ok entry => exact ⟨entry.1, entry.2, rfl⟩
  | cons first rest ih =>
    have more : (rest ++ [name]).isEmpty = false := by
      cases rest <;> rfl
    simp only [List.cons_append, resolveNames, more] at leads ⊢
    cases step : resolveComponent tree heap true expand dir first false e with
    | mk ending e' =>
      rw [step] at leads
      cases ending with
      | failed code cleared => cases leads
      | found next =>
        rw [resolveComponent_passed tree rest.isEmpty step]
        exact ih leads

end Repeating

section Agreement

variable {tree : FileTree} {heap : KernelHeap} {cwd : VNode} {path : List Char}

/-- Where the walk of a path looks its last name up, with the link it may be not followed
and the mount on it not entered. Without a name this is where the path begins. -/
def lastLookup (tree : FileTree) (heap : KernelHeap) (cwd : VNode) (path : List Char) : Option VNode :=
  let dir := beginning tree cwd path
  match (names '/' path).getLast? with
  | none => some dir
  | some name =>
    match (resolveNames tree heap true
        (fun node target e => resolveNested tree heap true (maxCount - 1) (some node) target e) dir
        (names '/' path).dropLast (Effects.none.request.reference dir)).1 with
    | .failed _ _ => none
    | .found parent =>
      match tree.lookup (above tree parent name) name with
      | .ok (node, _) => some node
      | .error _ => none

/-- The path is split into a directory and a name that lead to what the walk finds last. -/
def SplitAgrees (tree : FileTree) (heap : KernelHeap) (cwd : VNode) (path : List Char) : Prop :=
  ∃ parent name, (pathToParentAndName tree heap cwd path Effects.none).1 = .into parent name ∧ '/' ∉ name ∧
    ∃ node type, tree.lookup parent name = .ok (node, type) ∧ lastLookup tree heap cwd path = some node

/-- One name behind one slash. -/
def BehindSlash (path name : List Char) : Prop :=
  '/' ∉ name ∧ name ≠ [] ∧ (path = '/' :: name ∨ path = '/' :: (name ++ ['/']))

/-- The directory in front of two slashes, or the working directory where nothing stands in front of them, has
an entry with the empty name, for the node that the path leads to. -/
def EmptyNameLeads (tree : FileTree) (heap : KernelHeap) (cwd : VNode) (path front : List Char) : Prop :=
  ∃ parent node type, (if front = [] then parent = cwd
      else (relativePathToVnode tree heap (some cwd) front true).1 = .found parent) ∧
    tree.lookup parent [] = .ok (node, type) ∧ lastLookup tree heap cwd path = some node

theorem lastLookup_eq (steady : Steady heap) {target : VNode}
    (resolves : (relativePathToVnode tree heap (some cwd) path true).1 = .found target) {before : List (List Char)}
    {name : List Char} (parts : names '/' path = before ++ [name]) :
    ∃ parent node type, (∀ e, (resolveNames tree heap true
        (fun node target e => resolveNested tree heap true 255 (some node) target e) (beginning tree cwd path)
        before e).1 = .found parent) ∧
      tree.lookup (above tree parent name) name = .ok (node, type) ∧ lastLookup tree heap cwd path = some node := by
  unfold relativePathToVnode maxCount at resolves
  rw [resolveNested_eq (steady _).1 (origin_some tree cwd path), parts] at resolves
  obtain ⟨parent, e', leads, node, type, answer⟩ := resolveNames_concat tree resolves
  have always (e : Effects) : (resolveNames tree heap true
      (fun node target e => resolveNested tree heap true 255 (some node) target e) (beginning tree cwd path)
      before e).1 = .found parent := by
    rw [resolveNames_repeats tree true steady (resolveNested_repeats tree true steady 255) _ before e
      (Effects.none.request.reference (beginning tree cwd path)), leads]
  refine ⟨parent, node, type, always, answer, ?_⟩
  unfold lastLookup
  simp only [parts, List.getLast?_concat, List.dropLast_concat, maxCount, Nat.reduceSub, always, answer]

/-- A path with nothing but perhaps one slash in front of its last name is split in the working directory. -/
theorem split_in_cwd (tree : FileTree) (heap : KernelHeap) (cwd : VNode) {word : List Char}
    (rest : path.drop (currentPathToken path 0 0) = word) (nonempty : word ≠ [])
    (near : currentPathToken path 0 0 ≤ 1) :
    (pathToParentAndName tree heap cwd path Effects.none).1 = .into cwd (withoutLastSlash word) := by
  have short : ¬0 < (currentPathToken path 0 0 : Int) - 1 := by
    omega
  unfold pathToParentAndName
  simp only [rest, if_neg nonempty, if_neg short]

/-- Any other path is split where the part before its last slash leads. -/
theorem split_behind (tree : FileTree) (heap : KernelHeap) (cwd : VNode) {front word : List Char}
    (rest : path.drop (currentPathToken path 0 0) = word) (nonempty : word ≠ []) (token : currentPathToken path 0 0 = front.length + 1) (more : front ≠ [])
    (taken : path.take front.length = front) :
    (pathToParentAndName tree heap cwd path Effects.none).1 =
      match (resolveNested tree heap true maxCount (some cwd) front Effects.none.request.request).1 with
      | .found parent => .into parent (withoutLastSlash word)
      | .failed code cleared => .failed code cleared := by
  have long : 0 < (currentPathToken path 0 0 : Int) - 1 := by
    have positive := List.length_pos_iff.mpr more
    omega
  unfold pathToParentAndName
  simp only [rest, if_neg nonempty, if_pos long]
  rw [token, Nat.add_sub_cancel, taken]
  cases resolveNested tree heap true maxCount (some cwd) front Effects.none.request.request with
  | mk ending e' => cases ending <;> rfl

theorem splitAgrees_iff {parent : VNode} {name : List Char}
    (split : (pathToParentAndName tree heap cwd path Effects.none).1 = .into parent name) :
    SplitAgrees tree heap cwd path ↔ '/' ∉ name ∧ ∃ node type, tree.lookup parent name = .ok (node, type) ∧
      lastLookup tree heap cwd path = some node := by
  constructor
  · rintro ⟨parent', name', same, agrees⟩
    rw [split] at same
    cases same
    exact agrees
  · exact fun agrees => ⟨parent, name, split, agrees⟩

/-- A name with at most one slash behind it does not end with two. -/
theorem not_ends_twice (front : List Char) {name tail : List Char} (plain : '/' ∉ name) (nonempty : name ≠ [])
    (short : tail = [] ∧ name ≠ [] ∨ tail = ['/']) : ¬['/', '/'] <:+ front ++ (name ++ tail) := by
  rintro ⟨before, same⟩
  obtain ⟨text, last, rfl⟩ := (List.eq_nil_or_concat' name).resolve_left nonempty
  have ends : last = '/' := by
    have reversed := congrArg List.reverse same
    obtain ⟨rfl, _⟩ | rfl := short
    · simp at reversed
      exact reversed.1.symm
    · simp at reversed
      exact reversed.1.symm
  exact plain (by simp [ends])

theorem head_ne_slash {name : List Char} (tail : List Char) (plain : '/' ∉ name) (nonempty : name ≠ []) :
    (name ++ tail).head? ≠ some '/' := by
  cases name with
  | nil => exact absurd rfl nonempty
  | cons first rest =>
    intro same
    cases same
    exact plain List.mem_cons_self

/-- A slash that nothing but a slash-free name precedes has nothing behind it, or stands in the name. -/
theorem behind_last_slash {name front rest : List Char} (plain : '/' ∉ name)
    (same : name ++ ['/'] = front ++ '/' :: rest) : rest = [] := by
  obtain ⟨between, _, right⟩ | ⟨between, left, right⟩ := List.append_eq_append_iff.mp same
  · cases between with
    | nil =>
      cases right
      rfl
    | cons first more => simp at right
  · cases between with
    | nil =>
      cases right
      rfl
    | cons first more =>
      cases right
      exact absurd (by simp [left]) plain

/-- A path that is one name behind one slash has only that slash in front of it. -/
theorem not_behindSlash {front name tail other : List Char} (nonempty : name ≠ []) (more : front ≠ [])
    (whole : path = front ++ '/' :: (name ++ tail)) : ¬BehindSlash path other := by
  rintro ⟨plain, -, behind⟩
  cases front with
  | nil => exact more rfl
  | cons first rest =>
    rw [List.cons_append] at whole
    obtain same | same := behind
    · rw [whole] at same
      exact plain (by rw [← (List.cons.inj same).2]; simp)
    · rw [whole] at same
      have empty := behind_last_slash plain (List.cons.inj same).2.symm
      exact nonempty (List.append_eq_nil_iff.mp empty).1

theorem behindSlash_names {name : List Char} (behind : BehindSlash path name) (nonempty : names '/' path ≠ []) :
    names '/' path = [name] := by
  have word (tail : List Char) (short : tail = [] ∧ name ≠ [] ∨ tail = ['/']) (whole : path = '/' :: (name ++ tail)) :
      names '/' path = [name] := by
    rw [whole, names_separator, names_word behind.1 short] at nonempty ⊢
    split
    · rename_i empty
      rw [if_pos empty] at nonempty
      exact absurd rfl nonempty
    · rfl
  obtain whole | whole := behind.2.2
  · exact word [] (.inl ⟨rfl, behind.2.1⟩) (by rw [whole, List.append_nil])
  · exact word ['/'] (.inr rfl) whole

/-- Nor does a name behind one slash. -/
theorem BehindSlash.not_ends_twice {name : List Char} (behind : BehindSlash path name) : ¬['/', '/'] <:+ path := by
  obtain ⟨plain, nonempty, whole | whole⟩ := behind
  · rw [whole, ← List.append_nil name]
    exact FSUAPI.not_ends_twice ['/'] plain nonempty (.inl ⟨rfl, nonempty⟩)
  · rw [whole]
    exact FSUAPI.not_ends_twice ['/'] plain nonempty (.inr rfl)

/-- Two slashes at the end: the name is the empty one, in the directory in front of them. -/
theorem agrees_twice_iff (steady : Steady heap) {front : List Char} (whole : path = front ++ ['/', '/'])
    (token : currentPathToken path 0 0 = front.length + 1) :
    SplitAgrees tree heap cwd path ↔ EmptyNameLeads tree heap cwd path front := by
  have rest : path.drop (currentPathToken path 0 0) = ['/'] := by
    rw [token, whole, List.drop_append]
    simp
  rw [EmptyNameLeads]
  by_cases more : front = []
  · have split := split_in_cwd tree heap cwd rest (by simp) (by rw [token, more]; exact le_rfl)
    simp only [splitAgrees_iff split, if_pos more]
    constructor
    · rintro ⟨-, node, type, answer, last⟩
      exact ⟨cwd, node, type, rfl, answer, last⟩
    · rintro ⟨parent, node, type, rfl, answer, last⟩
      exact ⟨List.not_mem_nil, node, type, answer, last⟩
  · have split := split_behind tree heap cwd rest (by simp) token more (by rw [whole, List.take_left])
    rw [resolveNested_repeats tree true steady maxCount cwd front _ Effects.none] at split
    change _ = match (relativePathToVnode tree heap (some cwd) front true).1 with
      | .found parent => Split.into parent []
      | .failed code cleared => .failed code cleared at split
    simp only [if_neg more]
    cases leads : (relativePathToVnode tree heap (some cwd) front true).1 with
    | failed code cleared =>
      rw [leads] at split
      refine iff_of_false ?_ fun ⟨_, _, _, found, _⟩ => nomatch found
      rintro ⟨parent, name, same, _⟩
      cases split.symm.trans same
    | found parent =>
      rw [leads] at split
      rw [splitAgrees_iff split]
      constructor
      · rintro ⟨-, node, type, answer, last⟩
        exact ⟨parent, node, type, rfl, answer, last⟩
      · rintro ⟨_, node, type, same, answer, last⟩
        cases same
        exact ⟨List.not_mem_nil, node, type, answer, last⟩

/-- One name that is looked up in the directory the walk begins at. -/
theorem lastLookup_single (steady : Steady heap) {target : VNode}
    (resolves : (relativePathToVnode tree heap (some cwd) path true).1 = .found target) {name : List Char}
    (single : names '/' path = [name]) (ordinary : name ≠ dotDot) : ∃ node type,
      tree.lookup (beginning tree cwd path) name = .ok (node, type) ∧ lastLookup tree heap cwd path = some node := by
  obtain ⟨parent, node, type, always, answer, last⟩ := lastLookup_eq steady resolves (List.nil_append [name] ▸ single)
  have start : beginning tree cwd path = parent := Resolved.found.inj (always Effects.none)
  rw [above, if_neg fun both => ordinary both.1, ← start] at answer
  exact ⟨node, type, answer, last⟩

/-- A path without a slash in front of its last name. -/
theorem agrees_relative (steady : Steady heap) {target : VNode}
    (resolves : (relativePathToVnode tree heap (some cwd) path true).1 = .found target) {name tail : List Char}
    (plain : '/' ∉ name) (nonempty : name ≠ []) (short : tail = [] ∧ name ≠ [] ∨ tail = ['/']) (ordinary : name ≠ dotDot)
    (whole : path = name ++ tail)
    (split : (pathToParentAndName tree heap cwd path Effects.none).1 = .into cwd name) :
    SplitAgrees tree heap cwd path := by
  have single : names '/' path = [name] := by
    rw [whole, names_word plain short, if_neg nonempty]
  obtain ⟨node, type, answer, last⟩ := lastLookup_single steady resolves single ordinary
  have start : beginning tree cwd path = cwd := by
    rw [beginning, whole, if_neg (head_ne_slash tail plain nonempty)]
  rw [start] at answer
  exact ⟨cwd, name, split, plain, node, type, answer, last⟩

/-- A path with a slash after other characters in front of its last name. -/
theorem agrees_behind (steady : Steady heap) {target : VNode}
    (resolves : (relativePathToVnode tree heap (some cwd) path true).1 = .found target) {front name tail : List Char}
    (plain : '/' ∉ name) (nonempty : name ≠ []) (short : tail = [] ∧ name ≠ [] ∨ tail = ['/']) (ordinary : name ≠ dotDot)
    (more : front ≠ []) (whole : path = front ++ '/' :: (name ++ tail))
    (split : (pathToParentAndName tree heap cwd path Effects.none).1 =
      match (resolveNested tree heap true maxCount (some cwd) front Effects.none.request.request).1 with
      | .found parent => .into parent name
      | .failed code cleared => .failed code cleared) : SplitAgrees tree heap cwd path := by
  have parts : names '/' path = names '/' front ++ [name] := by
    rw [whole, names_append_separator, names_word plain short, if_neg nonempty]
  have start : beginning tree cwd front = beginning tree cwd path := by
    cases front with
    | nil => exact absurd rfl more
    | cons first rest => rw [whole, beginning, beginning, List.cons_append, List.head?_cons, List.head?_cons]
  obtain ⟨parent, node, type, always, answer, last⟩ := lastLookup_eq steady resolves parts
  unfold maxCount at split
  rw [resolveNested_eq (steady _).1 (origin_some tree cwd front), start, always] at split
  rw [above, if_neg fun both => ordinary both.1] at answer
  exact ⟨parent, name, split, plain, node, type, answer, last⟩

/-- One name behind one slash: it is looked for in the working directory. -/
theorem agrees_behind_slash_iff (steady : Steady heap) {target : VNode}
    (resolves : (relativePathToVnode tree heap (some cwd) path true).1 = .found target) {name tail : List Char}
    (plain : '/' ∉ name) (nonempty : name ≠ []) (short : tail = [] ∧ name ≠ [] ∨ tail = ['/']) (ordinary : name ≠ dotDot)
    (whole : path = '/' :: (name ++ tail))
    (split : (pathToParentAndName tree heap cwd path Effects.none).1 = .into cwd name) :
    SplitAgrees tree heap cwd path ↔ ∀ name, BehindSlash path name →
      (tree.lookup cwd name).map Prod.fst = (tree.lookup tree.rootNode name).map Prod.fst := by
  have single : names '/' path = [name] := by
    rw [whole, names_separator, names_word plain short, if_neg nonempty]
  obtain ⟨node, type, answer, last⟩ := lastLookup_single steady resolves single ordinary
  have start : beginning tree cwd path = tree.rootNode := by
    rw [beginning, whole, List.head?_cons, if_pos rfl]
  rw [start] at answer
  have behind : BehindSlash path name := by
    refine ⟨plain, nonempty, ?_⟩
    obtain ⟨rfl, _⟩ | rfl := short
    · exact .inl (by rw [whole, List.append_nil])
    · exact .inr whole
  rw [splitAgrees_iff split]
  constructor
  · rintro ⟨_, node', type', found, same⟩ other otherBehind
    have agree := behindSlash_names otherBehind (by rw [single]; exact List.cons_ne_nil _ _)
    rw [single] at agree
    cases agree
    cases last.symm.trans same
    rw [found, answer]
    rfl
  · intro every
    have agree := every name behind
    rw [answer] at agree
    cases found : tree.lookup cwd name with
    | error code =>
      rw [found] at agree
      cases agree
    | ok entry =>
      rw [found] at agree
      cases agree
      exact ⟨plain, entry.1, entry.2, rfl, last⟩

end Agreement

/-- Splitting a path agrees with resolving it exactly when it is not empty, the directory in front of two slashes at
its end has the node under the empty name and, should it be one name behind one slash, the working directory has that
name as the root has it. -/
theorem split_agrees_iff (tree : FileTree) (heap : KernelHeap) (cwd : VNode) (path : List Char) (target : VNode)
    (steady : Steady heap) (resolves : (relativePathToVnode tree heap (some cwd) path true).1 = .found target)
    (notRoot : path ≠ ['/'])
    (ordinary : ∀ name, (names '/' path).getLast? = some name → name ≠ ['.'] ∧ name ≠ dotDot) :
    SplitAgrees tree heap cwd path ↔ path ≠ [] ∧
      (∀ front, path = front ++ ['/', '/'] → EmptyNameLeads tree heap cwd path front) ∧
      ∀ name, BehindSlash path name →
        (tree.lookup cwd name).map Prod.fst = (tree.lookup tree.rootNode name).map Prod.fst := by
  by_cases nonempty : path = []
  · rw [nonempty]
    refine iff_of_false ?_ fun holds => holds.1 rfl
    rintro ⟨parent, name, split, _⟩
    cases split
  rw [and_iff_right nonempty]
  have onceOnly (once : ¬['/', '/'] <:+ path) :
      ∀ front, path = front ++ ['/', '/'] → EmptyNameLeads tree heap cwd path front :=
    fun front whole => absurd ⟨front, whole.symm⟩ once
  obtain ⟨name, tail, plain, short, rest, stripped, shape⟩ := path_cases nonempty
  have word : name ++ tail ≠ [] := by
    obtain ⟨rfl, more⟩ | rfl := short
    · simpa using more
    · simp
  obtain ⟨token, whole⟩ | ⟨front, token, whole⟩ := shape
  · have real : name ≠ [] := by
      rintro rfl
      obtain ⟨_, more⟩ | rfl := short
      · exact more rfl
      · exact notRoot whole
    have parts : names '/' path = [name] := by
      rw [whole, names_word plain short, if_neg real]
    have split := split_in_cwd tree heap cwd rest word (le_of_eq_of_le token (Nat.zero_le 1))
    rw [stripped] at split
    refine iff_of_true (agrees_relative steady resolves plain real short (ordinary name (by rw [parts]; rfl)).2 whole
      split) ⟨onceOnly ?_, ?_⟩
    · rw [whole]
      exact not_ends_twice [] plain real short
    · rintro other ⟨_, _, behind⟩
      have head := head_ne_slash tail plain real
      rw [← whole] at head
      obtain same | same := behind <;> exact absurd (by rw [same]; rfl) head
  · by_cases empty : name = []
    · -- nothing between the last two slashes
      subst empty
      obtain ⟨_, absent⟩ | rfl := short
      · exact absurd rfl absent
      rw [agrees_twice_iff steady whole token]
      constructor
      · intro leads
        refine ⟨fun other same => ?_, fun other behind => absurd ⟨front, whole.symm⟩ behind.not_ends_twice⟩
        rwa [List.append_cancel_right (same.symm.trans whole)]
      · exact fun condition => condition.1 front whole
    · have last : (names '/' path).getLast? = some name := by
        rw [whole, names_append_separator, names_word plain short, if_neg empty, List.getLast?_concat]
      have once : ¬['/', '/'] <:+ path := by
        rw [whole, List.append_cons]
        exact not_ends_twice (front ++ ['/']) plain empty short
      by_cases more : front = []
      · rw [and_iff_right (onceOnly once)]
        exact agrees_behind_slash_iff steady resolves plain empty short (ordinary name last).2 (by rw [whole, more]; rfl)
          (by rw [split_in_cwd tree heap cwd rest word (by rw [token, more]; exact le_rfl), stripped])
      · have split := split_behind tree heap cwd rest word token more (by rw [whole]; simp)
        rw [stripped] at split
        exact iff_of_true (agrees_behind steady resolves plain empty short (ordinary name last).2 more whole split)
          ⟨onceOnly once, fun other behind => absurd behind (not_behindSlash empty more whole)⟩

theorem slash_runs_split : SplitAgrees smallTree clearHeap 0 ['d', '/', '/', 'x', '/'] := by
  refine (split_agrees_iff smallTree clearHeap 0 _ 2 (fun _ => ⟨rfl, rfl⟩) rfl (by decide) ?_).mpr ⟨by decide, ?_, ?_⟩
  · intro name last
    cases last
    decide
  · intro front same
    have twice := congrArg List.reverse same
    simp at twice
  · rintro name ⟨_, _, same | same⟩ <;> cases same

/-- `/d` is split in the working directory instead of the root, and `d//` into `d` and no name. -/
theorem splits_astray :
    ((relativePathToVnode smallTree clearHeap (some 1) ['/', 'd'] true).1 = .found 1 ∧
      (pathToParentAndName smallTree clearHeap 1 ['/', 'd'] Effects.none).1 = .into 1 ['d'] ∧
      ¬SplitAgrees smallTree clearHeap 1 ['/', 'd']) ∧
    ((relativePathToVnode smallTree clearHeap (some 0) ['d', '/', '/'] true).1 = .found 1 ∧
      (pathToParentAndName smallTree clearHeap 0 ['d', '/', '/'] Effects.none).1 = .into 1 [] ∧
      ¬SplitAgrees smallTree clearHeap 0 ['d', '/', '/']) := by
  refine ⟨⟨rfl, rfl, ?_⟩, rfl, rfl, ?_⟩
  · rintro ⟨parent, name, split, _, node, type, answer, _⟩
    cases split
    cases answer
  · rintro ⟨parent, name, split, _, node, type, answer, _⟩
    cases split
    cases answer

end FluxOS.FSUAPI
