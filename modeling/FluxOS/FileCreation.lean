import FluxOS.VFS

/-! `FSUAPI::pathToParentAndName`, and the calls that make a file: `createNewFile`
and `openAtVNode`. One `VNode *` variable is passed through all of them. -/
namespace FluxOS
open Words LinkedPointers

def enametoolong : Nat := 91

/-- What a `VNode *` variable holds. -/
inductive NodeSlot where
  | uninitialised
  | null
  | node (vnode : VNode)
  deriving DecidableEq, Repr

/-- What `pathToParentAndName` ends with; `cleared` as in `Resolved`. -/
inductive Split where
  | into (parent : VNode) (name : List Char)
  | failed (error : Int) (cleared : Bool)
  deriving DecidableEq, Repr

/-- A failure may have set the variable to null. -/
def NodeSlot.afterFailure (slot : NodeSlot) (cleared : Bool) : NodeSlot := if cleared then .null else slot

namespace FSUAPI
open ListWithHoles VFS

def oCreat : Word := 0o100#32

/-- A string of user memory; `none` when the pointer does not pass the check. -/
abbrev UserString := Option (List Char)

/-- Where the last name begins: behind the last slash that does not end the string.
`i` characters have been read. -/
def currentPathToken : List Char → Nat → Nat → Nat
  | [], _, token => token
  | char :: rest, i, token => currentPathToken rest (i + 1) (if char = '/' ∧ rest ≠ [] then i + 1 else token)

def withoutLastSlash (name : List Char) : List Char := if name.getLast? = some '/' then name.dropLast else name

/-- `pathToParentAndName`, in a process with the working directory `cwd`. Neither
`strndup` is checked. Where the directory is not found the source frees the address of
its caller's pointer; what the heap makes of that is not part of the result. -/
def pathToParentAndName (tree : FileTree) (heap : KernelHeap) (cwd : VNode) (pathname : List Char) (e : Effects) :
    Split × Effects :=
  let token := currentPathToken pathname 0 0
  let name := pathname.drop token
  let e := e.request
  if name = [] then (.failed (-enoent) false, e)
  else
    let name := withoutLastSlash name
    if 0 < (token : Int) - 1 then
      let tmpPath := pathname.take (token - 1)
      match resolveNested tree heap true maxCount (some cwd) tmpPath e.request with
      | (.found parentDirectory, e) => (.into parentDirectory name, e)
      | (.failed code cleared, e) => (.failed code cleared, e)
    else (.into cwd name, e.reference cwd)

def isValidFileName (name : List Char) : Int :=
  if name = [] then -enoent else if 8192 ≤ name.length then -enametoolong else 0

def isValidUserFileName (name : List Char) : Int :=
  let retVal := isValidFileName name
  if retVal < 0 then retVal else 0

/-- What a file system's `creat` returns, and the files as they are then. -/
abbrev Creat := VNode → List Char → Int × FileTree

/-- `createNewFile`: its result, what the variable holds then, and the files. -/
def createNewFile (tree : FileTree) (heap : KernelHeap) (creat : Creat) (cwd : VNode) (pathname : List Char)
    (node : NodeSlot) (e : Effects) : Int × NodeSlot × FileTree × Effects :=
  match pathToParentAndName tree heap cwd pathname e with
  | (.failed code cleared, e) => (code, node.afterFailure cleared, tree, e)
  | (.into parent name, e) =>
    let result := isValidUserFileName name
    if result < 0 then (result, .node parent, tree, e)
    else
      let (result, tree) := creat parent name
      (result, .node parent, tree, e)

/-- A table of descriptors, each with the pointer to its node and its flags. -/
abbrev OpenNodes := List (Option (NodeSlot × Word))

inductive Opened where
  | refused (error : Int)
  | opened (node : NodeSlot) (fd : Nat)
  deriving DecidableEq, Repr

/-- `openAtVNode`, in a process with the working directory `cwd`: what it returns, the
table, the files and the effects. What `createNewFile` returns is not looked at. -/
def openAtVNode (tree : FileTree) (heap : KernelHeap) (creat : Creat) (cwd dirNode : VNode) (pathname : UserString)
    (flags : Word) (openFiles : OpenNodes) : Opened × OpenNodes × FileTree × Effects :=
  match pathname with
  | none => (.refused (-efault), openFiles, tree, Effects.none)
  | some path =>
    match relativePathToVnode tree heap (some dirNode) path true with
    | (.found node, e) =>
      let (openFiles, fd) := add openFiles (.node node, flags)
      (.opened (.node node) fd, openFiles, tree, e)
    | (.failed result cleared, e) =>
      if flags &&& oCreat ≠ 0 then
        let (_, node, tree, e) :=
          createNewFile tree heap creat cwd path (NodeSlot.uninitialised.afterFailure cleared) e
        let (openFiles, fd) := add openFiles (node, flags)
        (.opened node fd, openFiles, tree, e)
      else (.refused result, openFiles, tree, e)

/-- A refusal leaves the table; otherwise one descriptor has been added. -/
theorem openAtVNode_table (tree : FileTree) (heap : KernelHeap) (creat : Creat) (cwd dirNode : VNode)
    (pathname : UserString) (flags : Word) (openFiles : OpenNodes) :
    match openAtVNode tree heap creat cwd dirNode pathname flags openFiles with
    | (.refused _, openFiles', _, _) => openFiles' = openFiles
    | (.opened node fd, openFiles', _, _) => add openFiles (node, flags) = (openFiles', fd) := by
  unfold openAtVNode
  cases pathname with
  | none => rfl
  | some path =>
    simp only
    rcases relativePathToVnode tree heap (some dirNode) path true with ⟨resolved, e⟩
    cases resolved with
    | found node => rfl
    | failed code cleared =>
      by_cases creates : flags &&& oCreat ≠ 0
      · simp only [if_pos creates]
      · simp only [if_neg creates]

section Opening

variable (tree : FileTree) (heap : KernelHeap) (creat : Creat) (cwd dirNode : VNode) (pathname : UserString)
  (flags : Word) (openFiles : OpenNodes)

end Opening

/-- A root directory with the directory `d` that holds the file `x`. -/
def smallTree : FileTree where
  rootNode := 0
  mount _ := ⟨0, none⟩
  coveredBy _ := none
  lookup dir name :=
    if dir = 0 ∧ name = ['d'] then .ok (1, sIfdir)
    else if dir = 1 ∧ name = ['x'] then .ok (2, sIfreg)
    else .error (-enoent)
  readlink _ := .error (-einval)

end FSUAPI
end FluxOS
