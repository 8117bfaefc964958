import FluxOS.TmpFile

/-! The names of a tmpfs: what every directory must hold, and which calls keep it. -/
namespace FluxOS.TmpFS
open VFS Words UserMemoryOps ListWithHoles

/-- The inode is there, and is a directory. -/
def IsDirectory (inodes : TmpInodes) (id : Nat) : Prop := ∃ directory, inode inodes id = some directory ∧ isDirectory directory

/-- The directory has an entry of that name, for that id. -/
def Entry (inodes : TmpInodes) (dir : Nat) (name : List Char) (id : Nat) : Prop :=
  ∃ directory, inode inodes dir = some directory ∧ isDirectory directory ∧
    directory.directory.value qHash name = some id

/-- Entries name inodes; `.` names its directory, and `..` the directory that contains it. -/
structure SoundNames (inodes : TmpInodes) : Prop where
  existing : ∀ dir name id, Entry inodes dir name id → (inode inodes id).isSome
  dot : ∀ dir, IsDirectory inodes dir → Entry inodes dir dot dir
  dotDot : ∀ dir, IsDirectory inodes dir → ∃ parent, Entry inodes dir dotDot parent
  contained : ∀ dir name child, name ≠ TmpFS.dot → name ≠ VFS.dotDot → Entry inodes dir name child →
    IsDirectory inodes child → Entry inodes child VFS.dotDot dir
  root : Entry inodes 1 VFS.dotDot 1

inductive NameCall where
  | creat (directory : Nat) (name : List Char) (mode : Word) (block : Option (List Byte))
  | mkdir (directory : Nat) (newName : List Char) (mode : Word)
  | mknod (directory : Nat) (newName : List Char) (mode : Word)
  | symlink (directory : Nat) (oldName newName : List Char)
  | link (directory oldNode : Nat) (newName : List Char)
  | rename (oldDirectory : Nat) (oldName : List Char) (newDirectory : Nat) (newName : List Char)
  | unlink (directory : Nat) (name : List Char)
  | rmdir (directory : Nat) (name : List Char)

def performName (inodes : TmpInodes) : NameCall → TmpInodes × Int
  | .creat directory name mode block => creat inodes directory name mode block
  | .mkdir directory newName mode => mkdir inodes directory newName mode
  | .mknod directory newName mode => mknod inodes directory newName mode
  | .symlink directory oldName newName => symlink inodes directory oldName newName
  | .link directory oldNode newName => link inodes directory oldNode newName
  | .rename oldDirectory oldName newDirectory newName => rename inodes oldDirectory oldName newDirectory newName
  | .unlink directory name => unlink inodes directory name
  | .rmdir directory name => rmdir inodes directory name

/-- The directories of the call are directories. -/
def NameCall.Given (inodes : TmpInodes) : NameCall → Prop
  | .creat directory _ _ _ | .mkdir directory _ _ | .mknod directory _ _ | .symlink directory _ _
  | .link directory _ _ | .unlink directory _ | .rmdir directory _ => IsDirectory inodes directory
  | .rename oldDirectory _ newDirectory _ => IsDirectory inodes oldDirectory ∧ IsDirectory inodes newDirectory

/-- Not one of the two names that every directory has. -/
def Plain (name : List Char) : Prop := name ≠ dot ∧ name ≠ dotDot

instance (name : List Char) : Decidable (Plain name) := inferInstanceAs (Decidable (_ ∧ _))

/-- A table that gets a name has had fewer than `2 ^ 29` of them: its array still fits the address space. -/
def Room (inodes : TmpInodes) (directory : Nat) : Prop :=
  ∀ table, inode inodes directory = some table → table.directory.mSize.toNat < 2 ^ 29

/-- No call touches `.` or `..`; `mknod` makes no directory; what is linked or renamed is there, and a
directory keeps the directory it is in. -/
def NameCall.Careful (inodes : TmpInodes) : NameCall → Prop
  | .creat directory name _ _ => Plain name ∧ Room inodes directory
  | .mkdir directory newName _ => Plain newName ∧ Room inodes directory
  | .mknod directory newName mode =>
    Plain newName ∧ Room inodes directory ∧ sIsdir ((mode.setWidth 16).setWidth 32) = false
  | .symlink directory _ newName => Plain newName ∧ Room inodes directory
  | .link directory oldNode newName =>
    Plain newName ∧ Room inodes directory ∧ (inode inodes oldNode).isSome ∧
      (IsDirectory inodes oldNode → Entry inodes oldNode dotDot directory)
  | .rename oldDirectory oldName newDirectory newName =>
    Plain oldName ∧ Plain newName ∧ Room inodes newDirectory ∧
      ∃ id, Entry inodes oldDirectory oldName id ∧ (IsDirectory inodes id → newDirectory = oldDirectory)
  | .unlink _ name => Plain name
  | .rmdir _ name => Plain name

/-- The inodes that careful calls can lead to from a fresh mount. -/
inductive NameRun : TmpInodes → Prop where
  | start : NameRun mount
  | step {inodes : TmpInodes} (call : NameCall) (before : NameRun inodes) (given : call.Given inodes)
      (careful : call.Careful inodes) : NameRun (performName inodes call).1

section Inodes

variable {inodes : TmpInodes} {dir id : Nat} {name : List Char}

theorem inode_setInode (inodes : TmpInodes) (id : Nat) (change : TmpInode → TmpInode) (other : Nat) :
    inode (setInode inodes id change) other = if other = id then (inode inodes id).map change else inode inodes other := by
  by_cases same : other = id
  · subst same
    rw [if_pos rfl]
    cases present : inodes[other]? <;> simp [inode, setInode, entry, present]
  · simp [inode, setInode, entry, same, Ne.symm same]

theorem inode_append (inodes : TmpInodes) (new : TmpInode) (other : Nat) :
    inode (inodes ++ [some new]) other = if other = inodes.length then some new else inode inodes other := by
  unfold inode entry
  rcases Nat.lt_trichotomy other inodes.length with old | last | beyond
  · rw [List.getElem?_append_left old, if_neg old.ne]
  · simp [last]
  · rw [if_neg beyond.ne', List.getElem?_eq_none (by simp; omega), List.getElem?_eq_none (by omega)]

theorem lt_length_of_inode {found : TmpInode} (present : inode inodes id = some found) : id < inodes.length := by
  by_contra beyond
  rw [inode, entry_eq_none_of_le (Nat.le_of_not_lt beyond)] at present
  cases present

theorem inode_length (inodes : TmpInodes) : inode inodes inodes.length = none := entry_eq_none_of_le le_rfl

theorem Entry.isDirectory {target : Nat} (there : Entry inodes dir name target) : IsDirectory inodes dir := by
  obtain ⟨directory, present, isDir, _⟩ := there
  exact ⟨directory, present, isDir⟩

end Inodes

/-- What holds of the inodes besides: their tables are in order. -/
structure Sound (inodes : TmpInodes) : Prop extends SoundNames inodes where
  tables : ∀ id table, inode inodes id = some table → table.directory.Placed qHash

section Changes

variable {inodes : TmpInodes} {dir id : Nat} {name : List Char}

/-- Changing the table of a directory changes neither which inodes there are nor their kinds. -/
theorem isDirectory_setInode (inodes : TmpInodes) (id : Nat) (change : TmpInode → TmpInode)
    (kind : ∀ table, isDirectory (change table) = isDirectory table) (other : Nat) : IsDirectory (setInode inodes id change) other ↔ IsDirectory inodes other := by
  unfold IsDirectory
  rw [inode_setInode]
  split
  · rename_i same
    subst same
    cases inode inodes other <;> simp [kind]
  · rfl

theorem isSome_setInode (inodes : TmpInodes) (id : Nat) (change : TmpInode → TmpInode) (other : Nat) :
    (inode (setInode inodes id change) other).isSome = (inode inodes other).isSome := by
  rw [inode_setInode]
  split
  · rename_i same
    subst same
    simp
  · rfl

/-- One more entry, or another one of that name. -/
theorem Sound.entry_insertName (sound : Sound inodes) (room : Room inodes dir) (isDir : IsDirectory inodes dir)
    (name : List Char) (id : Nat) (other : Nat) (entryName : List Char) (target : Nat) :
    Entry (setInode inodes dir (insertName name id)) other entryName target ↔
      if other = dir ∧ entryName = name then target = id else Entry inodes other entryName target := by
  obtain ⟨table, present, kind⟩ := isDir
  unfold Entry
  rw [inode_setInode]
  by_cases same : other = dir
  · subst same
    have inserted := (sound.tables _ _ present).value_insert (room _ present) name id entryName
    simp only [if_true, present, Option.map_some, Option.some.injEq, insertName, true_and, exists_eq_left']
    rw [inserted]
    by_cases named : entryName = name
    · have kept : isDirectory { table with directory := table.directory.insert qHash name id } = true := kind
      simp [named, kept, eq_comm]
    · rw [if_neg named, if_neg named]
      exact Iff.rfl
  · simp [same]

theorem Sound.entry_removeName (sound : Sound inodes) (name : List Char) (other : Nat) (entryName : List Char)
    (target : Nat) : Entry (setInode inodes dir (removeName name)) other entryName target ↔
      ¬(other = dir ∧ entryName = name) ∧ Entry inodes other entryName target := by
  unfold Entry
  rw [inode_setInode]
  by_cases same : other = dir
  · subst same
    rw [if_pos rfl]
    cases present : inode inodes other with
    | none => simp
    | some table =>
      have removed := (sound.tables _ _ present).value_remove name entryName
      simp only [Option.map_some, Option.some.injEq, removeName, true_and, exists_eq_left']
      rw [removed]
      by_cases named : entryName = name
      · simp [named]
      · rw [if_neg named]
        exact ⟨fun there => ⟨named, there⟩, And.right⟩
  · simp [same]

theorem entry_append (inodes : TmpInodes) (new : TmpInode) (other : Nat) (entryName : List Char) (target : Nat) :
    Entry (inodes ++ [some new]) other entryName target ↔
      if other = inodes.length then isDirectory new ∧ new.directory.value qHash entryName = some target
      else Entry inodes other entryName target := by
  unfold Entry
  rw [inode_append]
  by_cases same : other = inodes.length
  · simp [same]
  · simp [same]

theorem isDirectory_append (inodes : TmpInodes) (new : TmpInode) (other : Nat) :
    IsDirectory (inodes ++ [some new]) other ↔
      if other = inodes.length then isDirectory new = true else IsDirectory inodes other := by
  unfold IsDirectory
  rw [inode_append]
  by_cases same : other = inodes.length
  · simp [same]
  · simp [same]

theorem IsDirectory.ne_length (isDir : IsDirectory inodes dir) : dir ≠ inodes.length := by
  obtain ⟨table, present, _⟩ := isDir
  exact (lt_length_of_inode present).ne

theorem Sound.tables_setInode (sound : Sound inodes) {change : TmpInode → TmpInode}
    (placed : ∀ table, inode inodes id = some table → (change table).directory.Placed qHash) (other : Nat)
    (table : TmpInode) (present : inode (setInode inodes id change) other = some table) :
    table.directory.Placed qHash := by
  rw [inode_setInode] at present
  split at present
  · obtain ⟨before, found, rfl⟩ := Option.map_eq_some_iff.mp present
    exact placed before found
  · exact sound.tables other table present

/-- A change to the entry of one name in a table, that is gone afterwards or leads to an inode that is there, and that is
in this directory if it is one. -/
theorem Sound.change (sound : Sound inodes) (plain : Plain name) {change : TmpInode → TmpInode}
    (kind : ∀ table, isDirectory (change table) = isDirectory table)
    (placed : ∀ table, inode inodes dir = some table → (change table).directory.Placed qHash)
    (kept : ∀ {other : Nat} {entryName : List Char} {target : Nat}, entryName ≠ name →
      Entry inodes other entryName target → Entry (setInode inodes dir change) other entryName target)
    (right : ∀ {other : Nat} {entryName : List Char} {target : Nat}, Entry (setInode inodes dir change) other entryName target →
      Entry inodes other entryName target ∨
        (inode inodes target).isSome ∧ (IsDirectory inodes target → Entry inodes target dotDot other)) :
    Sound (setInode inodes dir change) := by
  have kinds (other : Nat) : IsDirectory (setInode inodes dir change) other ↔ IsDirectory inodes other :=
    isDirectory_setInode inodes dir change kind other
  refine ⟨⟨?_, ?_, ?_, ?_, kept plain.2.symm sound.root⟩, ?_⟩
  · intro other entryName target there
    rw [isSome_setInode]
    obtain old | ⟨present, -⟩ := right there
    · exact sound.existing other entryName target old
    · exact present
  · intro other isOther
    exact kept plain.1.symm (sound.dot other ((kinds other).mp isOther))
  · intro other isOther
    obtain ⟨parent, up⟩ := sound.dotDot other ((kinds other).mp isOther)
    exact ⟨parent, kept plain.2.symm up⟩
  · intro other entryName child notDot notDotDot there isChild
    apply kept plain.2.symm
    obtain old | ⟨-, within⟩ := right there
    · exact sound.contained other entryName child notDot notDotDot old ((kinds child).mp isChild)
    · exact within ((kinds child).mp isChild)
  · exact sound.tables_setInode placed

/-- A name of an inode that is there, and that is in this directory if it is one. -/
theorem Sound.enter (sound : Sound inodes) (room : Room inodes dir) (isDir : IsDirectory inodes dir)
    (plain : Plain name) (present : (inode inodes id).isSome)
    (within : IsDirectory inodes id → Entry inodes id dotDot dir) :
    Sound (setInode inodes dir (insertName name id)) := by
  refine sound.change plain (fun _ => rfl)
    (fun table found => ((sound.tables _ _ found).insert (room _ found) name id).1) ?_ ?_
  · intro other entryName target other_name there
    rw [sound.entry_insertName room isDir, if_neg fun both => other_name both.2]
    exact there
  · intro other entryName target there
    rw [sound.entry_insertName room isDir] at there
    split at there
    · rename_i here
      subst there
      rw [here.1]
      exact .inr ⟨present, within⟩
    · exact .inl there

/-- A name fewer. -/
theorem Sound.leave (sound : Sound inodes) (plain : Plain name) : Sound (setInode inodes dir (removeName name)) := by
  refine sound.change plain (fun _ => rfl) (fun table found => ((sound.tables _ _ found).remove name).1) ?_ ?_
  · intro other entryName target other_name there
    exact (sound.entry_removeName name other entryName target).mpr ⟨fun both => other_name both.2, there⟩
  · intro other entryName target there
    exact .inl ((sound.entry_removeName name other entryName target).mp there).2

/-- A new inode that no directory names yet; when it is a directory, it has the two names only. -/
theorem Sound.append (sound : Sound inodes) (isDir : IsDirectory inodes dir) {new : TmpInode}
    (placed : new.directory.Placed qHash)
    (names : isDirectory new → ∀ entryName target, new.directory.value qHash entryName = some target ↔
      entryName = dot ∧ target = inodes.length ∨ entryName = dotDot ∧ target = dir) :
    Sound (inodes ++ [some new]) := by
  have old {other : Nat} {entryName : List Char} {target : Nat} (there : Entry inodes other entryName target) :
      Entry (inodes ++ [some new]) other entryName target := by
    rw [entry_append, if_neg there.isDirectory.ne_length]
    exact there
  have known {target : Nat} (present : (inode inodes target).isSome) : (inode (inodes ++ [some new]) target).isSome := by
    obtain ⟨found, present⟩ := Option.isSome_iff_exists.mp present
    rw [inode_append, if_neg (lt_length_of_inode present).ne, present]
    rfl
  refine ⟨⟨?_, ?_, ?_, ?_, old sound.root⟩, ?_⟩
  · intro other entryName target there
    rw [entry_append] at there
    split at there
    · obtain ⟨_, rfl⟩ | ⟨_, rfl⟩ := (names there.1 entryName target).mp there.2
      · simp [inode_append]
      · obtain ⟨table, present, _⟩ := isDir
        exact known (by simp [present])
    · exact known (sound.existing other entryName target there)
  · intro other isOther
    rw [isDirectory_append] at isOther
    split at isOther
    · rename_i here
      rw [entry_append, if_pos here]
      exact ⟨isOther, (names isOther dot other).mpr (.inl ⟨rfl, here⟩)⟩
    · exact old (sound.dot other isOther)
  · intro other isOther
    rw [isDirectory_append] at isOther
    split at isOther
    · rename_i here
      refine ⟨dir, ?_⟩
      rw [entry_append, if_pos here]
      exact ⟨isOther, (names isOther dotDot dir).mpr (.inr ⟨rfl, rfl⟩)⟩
    · obtain ⟨parent, up⟩ := sound.dotDot other isOther
      exact ⟨parent, old up⟩
  · intro other entryName child notDot notDotDot there isChild
    rw [entry_append] at there
    split at there
    · obtain ⟨same, _⟩ | ⟨same, _⟩ := (names there.1 entryName child).mp there.2
      · exact absurd same notDot
      · exact absurd same notDotDot
    · obtain ⟨found, present⟩ := Option.isSome_iff_exists.mp (sound.existing other entryName child there)
      rw [isDirectory_append, if_neg (lt_length_of_inode present).ne] at isChild
      exact old (sound.contained other entryName child notDot notDotDot there isChild)
  · intro other table present
    rw [inode_append] at present
    split at present
    · cases present
      exact placed
    · exact sound.tables other table present

end Changes

section Calls

variable {inodes : TmpInodes} {dir : Nat} {name : List Char}

/-- The pointer to the new inode may be used after the directory has its entry, as well as before. -/
theorem setInode_new (isDir : IsDirectory inodes dir) (change : TmpInode → TmpInode) (new : TmpInode)
    (setup : TmpInode → TmpInode) :
    setInode (setInode (inodes ++ [some new]) dir change) inodes.length setup =
      setInode (inodes ++ [some (setup new)]) dir change := by
  apply List.ext_getElem?
  intro i
  have different := isDir.ne_length
  simp only [setInode, List.getElem?_modify]
  rcases Nat.lt_trichotomy i inodes.length with old | last | beyond
  · simp [List.getElem?_append_left old, old.ne']
  · simp [last, different]
  · rw [List.getElem?_eq_none (by simp; omega), List.getElem?_eq_none (by simp; omega)]
    rfl

theorem room_append {new : TmpInode} (isDir : IsDirectory inodes dir) (room : Room inodes dir) :
    Room (inodes ++ [some new]) dir := by
  intro table present
  rw [inode_append, if_neg isDir.ne_length] at present
  exact room table present

/-- A new inode under a plain name. -/
theorem Sound.make (sound : Sound inodes) (isDir : IsDirectory inodes dir) (room : Room inodes dir)
    (plain : Plain name) {new : TmpInode} (placed : new.directory.Placed qHash)
    (names : isDirectory new → ∀ entryName target, new.directory.value qHash entryName = some target ↔
      entryName = dot ∧ target = inodes.length ∨ entryName = dotDot ∧ target = dir) :
    Sound (setInode (inodes ++ [some new]) dir (insertName name inodes.length)) := by
  have isDir' : IsDirectory (inodes ++ [some new]) dir := by
    rw [isDirectory_append, if_neg isDir.ne_length]
    exact isDir
  refine (sound.append isDir placed names).enter (room_append isDir room) isDir' plain (by simp [inode_append]) ?_
  intro isNew
  rw [isDirectory_append, if_pos rfl] at isNew
  rw [entry_append, if_pos rfl]
  exact ⟨isNew, (names isNew dotDot dir).mpr (.inr ⟨rfl, rfl⟩)⟩

theorem newDirectory_empty : newDirectory.Placed qHash ∧ newDirectory.nodes = [] := QHash.placed_init (by decide)

theorem placed_newDirectory : newDirectory.Placed qHash := newDirectory_empty.1

/-- The table of a new directory. -/
theorem newDirectory_names (self parent : Nat) :
    ((newDirectory.insert qHash dot self).insert qHash dotDot parent).Placed qHash ∧
      ∀ entryName target, ((newDirectory.insert qHash dot self).insert qHash dotDot parent).value qHash entryName =
          some target ↔ entryName = dot ∧ target = self ∨ entryName = dotDot ∧ target = parent := by
  have emptyRoom : newDirectory.mSize.toNat < 2 ^ 29 := by decide
  obtain ⟨placed, _, size⟩ := placed_newDirectory.insert emptyRoom dot self
  have room : (newDirectory.insert qHash dot self).mSize.toNat < 2 ^ 29 := by
    have none : newDirectory.mSize.toNat = 0 := rfl
    omega
  refine ⟨(placed.insert room dotDot parent).1, fun entryName target => ?_⟩
  rw [placed.value_insert room, placed_newDirectory.value_insert emptyRoom]
  have empty : newDirectory.value qHash entryName = none := by
    cases found : newDirectory.value qHash entryName with
    | none => rfl
    | some value =>
      have member := placed_newDirectory.value_eq_some_iff.mp found
      rw [newDirectory_empty.2] at member
      cases member
  have different : dotDot ≠ dot := by decide
  by_cases up : entryName = dotDot
  · simp [up, different, eq_comm]
  · by_cases self : entryName = dot
    · simp [self, different.symm, eq_comm]
    · simp [self, up, empty]

theorem inode_mount {other : Nat} {found : TmpInode} (present : inode mount other = some found) :
    other = 1 ∧ found = ⟨sIfdir.setWidth 16, 0#32, none, (newDirectory.insert qHash dot 1).insert qHash dotDot 1⟩ := by
  have bound := lt_length_of_inode present
  match other, bound with
  | 0, _ => cases present
  | 1, _ => exact ⟨rfl, (Option.some.inj present).symm⟩

/-- A fresh mount has the two names of its root. -/
theorem entry_mount {other target : Nat} {entryName : List Char} (there : Entry mount other entryName target) :
    other = 1 ∧ target = 1 ∧ (entryName = dot ∨ entryName = dotDot) := by
  obtain ⟨table, present, _, value⟩ := there
  obtain ⟨rfl, rfl⟩ := inode_mount present
  obtain ⟨named, same⟩ | ⟨named, same⟩ := ((newDirectory_names 1 1).2 entryName target).mp value
  · exact ⟨rfl, same, .inl named⟩
  · exact ⟨rfl, same, .inr named⟩

theorem sound_mount : Sound mount := by
  obtain ⟨placed, names⟩ := newDirectory_names 1 1
  have has {entryName : List Char} (two : entryName = dot ∨ entryName = dotDot) : Entry mount 1 entryName 1 :=
    ⟨_, rfl, by decide, (names entryName 1).mpr (two.imp (fun named => ⟨named, rfl⟩) fun named => ⟨named, rfl⟩)⟩
  refine ⟨⟨?_, ?_, ?_, ?_, has (.inr rfl)⟩, ?_⟩
  · intro other entryName target there
    rw [(entry_mount there).2.1]
    rfl
  · rintro other ⟨table, present, _⟩
    rw [(inode_mount present).1]
    exact has (.inl rfl)
  · rintro other ⟨table, present, _⟩
    rw [(inode_mount present).1]
    exact ⟨1, has (.inr rfl)⟩
  · intro other entryName child notDot notDotDot there
    obtain ⟨_, _, named | named⟩ := entry_mount there
    · exact absurd named notDot
    · exact absurd named notDotDot
  · intro other table present
    rw [(inode_mount present).2]
    exact placed

theorem Sound.rename (sound : Sound inodes) {newDirectory id : Nat} {newName : List Char}
    (isNew : IsDirectory inodes newDirectory) (plainOld : Plain name) (plainNew : Plain newName)
    (room : Room inodes newDirectory) (there : Entry inodes dir name id)
    (within : IsDirectory inodes id → newDirectory = dir) : Sound (rename inodes dir name newDirectory newName).1 := by
  have entry := there
  obtain ⟨table, present, kind, value⟩ := entry
  have moved : ((inode inodes dir).map fun oldInode => TmpFS.value oldInode name).getD 0 = id := by
    simp [present, TmpFS.value, value]
  simp only [TmpFS.rename, moved]
  have kinds (other : Nat) : IsDirectory (setInode inodes dir (removeName name)) other ↔ IsDirectory inodes other :=
    isDirectory_setInode inodes dir (removeName name) (fun _ => rfl) other
  refine (sound.leave plainOld).enter ?_ ((kinds newDirectory).mpr isNew) plainNew ?_ ?_
  · intro other found
    rw [inode_setInode] at found
    split at found
    · rename_i same
      obtain ⟨before, old, rfl⟩ := Option.map_eq_some_iff.mp found
      rw [← same] at old
      exact room before old
    · exact room other found
  · rw [isSome_setInode]
    exact sound.existing dir name id there
  · intro isChild
    have isChild := (kinds id).mp isChild
    rw [sound.entry_removeName]
    refine ⟨fun both => plainOld.2 both.2.symm, ?_⟩
    rw [within isChild]
    exact sound.contained dir name id plainOld.1 plainOld.2 there isChild

/-- A careful call keeps the names sound. -/
theorem Sound.perform (sound : Sound inodes) {call : NameCall} (given : call.Given inodes)
    (careful : call.Careful inodes) : Sound (performName inodes call).1 := by
  have noNames {new : TmpInode} (plainFile : isDirectory new = false) (directory : Nat) : isDirectory new →
      ∀ entryName target, new.directory.value qHash entryName = some target ↔
        entryName = dot ∧ target = inodes.length ∨ entryName = dotDot ∧ target = directory := by
    intro isDir
    rw [plainFile] at isDir
    cases isDir
  have new_length {new : TmpInode} : (inodes ++ [some new]).length - 1 = inodes.length := by simp
  cases call with
  | creat directory name mode block =>
    obtain ⟨plain, room⟩ := careful
    simp only [performName, creat, creatInode, new_length, setInode_new given]
    exact sound.make given room plain placed_newDirectory (noNames (isDirectory_newFile mode block) directory)
  | mkdir directory newName mode =>
    obtain ⟨plain, room⟩ := careful
    obtain ⟨placed, names⟩ := newDirectory_names inodes.length directory
    simp only [performName, mkdir, creatInode, new_length, setInode_new given]
    exact sound.make given room plain placed fun _ => names
  | mknod directory newName mode =>
    obtain ⟨plain, room, noDirectory⟩ := careful
    have plainNode : isDirectory ⟨mode.setWidth 16, 0#32, none, newDirectory⟩ = false := noDirectory
    simp only [performName, mknod, creatInode, new_length]
    exact sound.make given room plain placed_newDirectory (noNames plainNode directory)
  | symlink directory oldName newName =>
    obtain ⟨plain, room⟩ := careful
    have linkMode : sIsdir ((sIflnk.setWidth 16).setWidth 32) = false := by decide
    have plainLink : isDirectory ⟨sIflnk.setWidth 16, BitVec.ofNat 32 (stringBytes oldName).length,
      some (stringBytes oldName), newDirectory⟩ = false := linkMode
    simp only [performName, symlink, creatInode, new_length, setInode_new given]
    exact sound.make given room plain placed_newDirectory (noNames plainLink directory)
  | link directory oldNode newName =>
    obtain ⟨plain, room, present, within⟩ := careful
    exact sound.enter room given plain present within
  | rename oldDirectory oldName newDirectory newName =>
    obtain ⟨plainOld, plainNew, room, id, there, within⟩ := careful
    exact sound.rename given.2 plainOld plainNew room there within
  | unlink directory name =>
    simp only [performName, unlink]
    split
    · exact sound.leave careful
    · exact sound
  | rmdir directory name =>
    simp only [performName, rmdir, unlink]
    split
    · exact sound.leave careful
    · exact sound

theorem sound_of_run (ran : NameRun inodes) : Sound inodes := by
  induction ran with
  | start => exact sound_mount
  | step call _ given careful ih => exact ih.perform given careful

/-- A call that fails leaves every inode as it is. -/
theorem performName_failed (inodes : TmpInodes) (call : NameCall) (failed : (performName inodes call).2 < 0) :
    (performName inodes call).1 = inodes := by
  cases call with
  | unlink directory name | rmdir directory name =>
    simp only [performName, rmdir, unlink] at failed ⊢
    split
    · rename_i found
      rw [if_pos found] at failed
      exact absurd failed (lt_irrefl 0)
    · rfl
  | _ => exact absurd failed (lt_irrefl 0)

end Calls

/-- Whatever careful calls were made since the mount, the names are as they should be, and any
further call that fails leaves the directories alone. -/
theorem careful_names_stay_sound (inodes : TmpInodes) (ran : NameRun inodes) :
    SoundNames inodes ∧
      ∀ call : NameCall, (performName inodes call).2 < 0 → (performName inodes call).1 = inodes :=
  ⟨(sound_of_run ran).toSoundNames, performName_failed inodes⟩

theorem directory_in_mount_sound :
    SoundNames (mkdir mount 1 ['d'] 0#32).1 ∧
      ∀ call : NameCall, (performName (mkdir mount 1 ['d'] 0#32).1 call).2 < 0 →
        (performName (mkdir mount 1 ['d'] 0#32).1 call).1 = (mkdir mount 1 ['d'] 0#32).1 := by
  refine careful_names_stay_sound _ (.step (.mkdir 1 ['d'] 0#32) .start ⟨_, rfl, by decide⟩ ⟨by decide, ?_⟩)
  rintro table ⟨⟩
  decide

/-- The directories `a` and `b`, made in a fresh mount. -/
def twoDirectories : TmpInodes := (mkdir (mkdir mount 1 ['a'] 0#32).1 1 ['b'] 0#32).1

/-- Renaming a name that is not there makes an entry for inode 0; a directory that is moved keeps `..`;
and `.` can be taken away. -/
theorem names_spoilt :
    (∀ id, ¬Entry mount 1 ['x'] id) ∧ Entry (rename mount 1 ['x'] 1 ['y']).1 1 ['y'] 0 ∧
      ¬SoundNames (rename mount 1 ['x'] 1 ['y']).1 ∧
    ¬SoundNames (rename twoDirectories 1 ['a'] 3 ['c']).1 ∧ ¬SoundNames (unlink mount 1 dot).1 := by
  have missing : Entry (rename mount 1 ['x'] 1 ['y']).1 1 ['y'] 0 := ⟨_, rfl, by decide, by decide⟩
  refine ⟨?_, missing, ?_, ?_, ?_⟩
  · rintro id ⟨table, ⟨⟩, _, value⟩
    cases value
  · intro sound
    exact absurd (sound.existing 1 ['y'] 0 missing) (by decide)
  · intro sound
    obtain ⟨table, present, _, value⟩ := sound.contained 3 ['c'] 2 (by decide) (by decide)
      ⟨_, rfl, by decide, by decide⟩ ⟨_, rfl, by decide⟩
    cases present
    revert value
    decide
  · intro sound
    obtain ⟨table, present, _, value⟩ := sound.dot 1 ⟨_, rfl, by decide⟩
    cases present
    revert value
    decide

end FluxOS.TmpFS
