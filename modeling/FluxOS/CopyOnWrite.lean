import Mathlib.Logic.Function.Basic
import Mathlib.Data.Prod.Basic

/-! Address spaces whose pages are reached through tables. Tables and pages are
frames, and several spaces may share them until one of them writes. What a space
sees is a memory of its own as long as the frames that can be written are reached
in one way only. -/
namespace FluxOS

/-- A reference to a frame, and whether writes pass through it. -/
@[ext]
structure Link (Frame : Type*) where
  frame : Frame
  writeable : Bool

/-- Each space has a directory of tables, each table links to pages, and the
pages hold contents. -/
@[ext]
structure Translation (Space Dir Entry Frame Content : Type*) where
  directory : Space → Dir → Option (Link Frame)
  table : Frame → Entry → Option (Link Frame)
  contents : Frame → Content

/-- What each space sees at each place. -/
abbrev Memories (Space Dir Entry Content : Type*) := Space → Dir → Entry → Option Content

namespace Memories
variable {Space Dir Entry Content : Type*} [DecidableEq Space] [DecidableEq Dir] [DecidableEq Entry]

def set (m : Memories Space Dir Entry Content) (s : Space) (d : Dir) (e : Entry) (c : Content) :
    Memories Space Dir Entry Content :=
  Function.update m s (Function.update (m s) d (Function.update (m s d) e (some c)))

theorem set_apply (m : Memories Space Dir Entry Content) (s : Space) (d : Dir) (e : Entry) (c : Content)
    (s' : Space) (d' : Dir) (e' : Entry) :
    m.set s d e c s' d' e' = if s' = s ∧ d' = d ∧ e' = e then some c else m s' d' e' := by
  by_cases space : s' = s
  · subst space
    by_cases dir : d' = d
    · subst dir
      by_cases entry : e' = e <;> simp [set, entry]
    · simp [set, dir]
  · simp [set, space]

end Memories

namespace Translation
variable {Space Dir Entry Frame Content : Type*}

/-- What the space sees. -/
def memory (t : Translation Space Dir Entry Frame Content) : Memories Space Dir Entry Content := fun s d e =>
  (t.directory s d).bind fun table => (t.table table.frame e).map fun page => t.contents page.frame

/-- No frame that can be written is reached in two ways, and no page is a table.
A table with two references to it only links to pages that cannot be written. -/
structure Isolated (t : Translation Space Dir Entry Frame Content) : Prop where
  tables : ∀ {s d s' d'} {l l' : Link Frame}, t.directory s d = some l → t.directory s' d' = some l' →
    l'.frame = l.frame → (s', d') ≠ (s, d) →
    l.writeable = false ∧ ∀ e page, t.table l.frame e = some page → page.writeable = false
  pages : ∀ {s d e s' d' e'} {l l' page page' : Link Frame}, t.directory s d = some l →
    t.directory s' d' = some l' → t.table l.frame e = some page → t.table l'.frame e' = some page' →
    page'.frame = page.frame → (l'.frame, e') ≠ (l.frame, e) → page.writeable = false
  apart : ∀ {s d s' d' e} {l l' page : Link Frame}, t.directory s d = some l → t.directory s' d' = some l' →
    t.table l'.frame e = some page → page.frame ≠ l.frame

/-- The frame is neither a table of a space nor a page. -/
structure Unused (t : Translation Space Dir Entry Frame Content) (f : Frame) : Prop where
  table : ∀ s d l, t.directory s d = some l → l.frame ≠ f
  page : ∀ s d e l page, t.directory s d = some l → t.table l.frame e = some page → page.frame ≠ f

/-- Only this place of this space leads to the table. -/
def Exclusive (t : Translation Space Dir Entry Frame Content) (s : Space) (d : Dir) (f : Frame) : Prop :=
  ∀ s' d' l, t.directory s' d' = some l → l.frame = f → (s', d') = (s, d)

theorem Isolated.exclusive {t : Translation Space Dir Entry Frame Content} (isolated : t.Isolated) {s : Space}
    {d : Dir} {l : Link Frame} (there : t.directory s d = some l) (writeable : l.writeable) :
    t.Exclusive s d l.frame := by
  intro s' d' l' other same
  by_contra different
  rw [(isolated.tables there other same different).1] at writeable
  cases writeable

/-! ## The operations -/

/-- A table in a frame, behind a directory entry that lets writes pass. -/
def setTable [DecidableEq Space] [DecidableEq Dir] [DecidableEq Frame]
    (t : Translation Space Dir Entry Frame Content) (s : Space) (d : Dir) (f : Frame)
    (entries : Entry → Option (Link Frame)) : Translation Space Dir Entry Frame Content where
  directory := Function.update t.directory s (Function.update (t.directory s) d (some ⟨f, true⟩))
  table := Function.update t.table f entries
  contents := t.contents

/-- A page in the table of frame `f`. -/
def setPage [DecidableEq Entry] [DecidableEq Frame] (t : Translation Space Dir Entry Frame Content) (f : Frame)
    (e : Entry) (page : Link Frame) (content : Content) : Translation Space Dir Entry Frame Content where
  directory := t.directory
  table := Function.update t.table f (Function.update (t.table f) e (some page))
  contents := Function.update t.contents page.frame content

def setContents [DecidableEq Frame] (t : Translation Space Dir Entry Frame Content) (f : Frame)
    (content : Content) : Translation Space Dir Entry Frame Content :=
  { t with contents := Function.update t.contents f content }

/-- Space `s'` gets the directory of `s`. -/
def share [DecidableEq Space] (t : Translation Space Dir Entry Frame Content) (s s' : Space) :
    Translation Space Dir Entry Frame Content :=
  { t with directory := Function.update t.directory s' (t.directory s) }

variable {t : Translation Space Dir Entry Frame Content} {s s' : Space} {d d' : Dir} {e : Entry} {f : Frame}

/-! ## Tables -/

section Tables
variable [DecidableEq Space] [DecidableEq Dir] [DecidableEq Frame]

theorem directory_setTable (entries : Entry → Option (Link Frame)) :
    (t.setTable s d f entries).directory s' d' =
      if (s', d') = (s, d) then some ⟨f, true⟩ else t.directory s' d' := by
  by_cases space : s' = s
  · subst space
    by_cases dir : d' = d <;> simp [setTable, dir]
  · simp [setTable, space]

/-- The directory entries after a table was set, with the tables behind them. -/
theorem setTable_cases (unused : t.Unused f) {entries : Entry → Option (Link Frame)} {l : Link Frame}
    (there : (t.setTable s d f entries).directory s' d' = some l) :
    ((s', d') = (s, d) ∧ l = ⟨f, true⟩ ∧ (t.setTable s d f entries).table l.frame = entries) ∨
      ((s', d') ≠ (s, d) ∧ t.directory s' d' = some l ∧ l.frame ≠ f ∧
        (t.setTable s d f entries).table l.frame = t.table l.frame) := by
  rw [directory_setTable] at there
  split at there
  · rename_i same
    cases there
    exact .inl ⟨same, rfl, Function.update_self _ _ _⟩
  · rename_i different
    have other := unused.table s' d' l there
    exact .inr ⟨different, there, other, Function.update_of_ne other _ _⟩

/-- A frame stays unused when another one becomes a table. -/
theorem Unused.setTable {g : Frame} (free : t.Unused g) (unused : t.Unused f) (other : f ≠ g)
    {entries : Entry → Option (Link Frame)} (apart : ∀ e page, entries e = some page → page.frame ≠ g) :
    (t.setTable s d f entries).Unused g := by
  refine ⟨fun s' d' l there => ?_, fun s' d' e l page there entry => ?_⟩
  · obtain ⟨-, rfl, -⟩ | ⟨-, old, -, -⟩ := setTable_cases unused there
    · exact other
    · exact free.table s' d' l old
  · obtain ⟨-, -, table⟩ | ⟨-, old, -, table⟩ := setTable_cases unused there
    · rw [table] at entry
      exact apart e page entry
    · rw [table] at entry
      exact free.page s' d' e l page old entry

/-- A table that links to what was linked before, in a frame of its own, changes
nothing that is seen. -/
theorem memory_setTable (unused : t.Unused f) {entries : Entry → Option (Link Frame)}
    (same : ∀ e, ((t.directory s d).bind fun table => t.table table.frame e) = entries e) :
    (t.setTable s d f entries).memory = t.memory := by
  funext s' d' e
  by_cases place : (s', d') = (s, d)
  · cases place
    have entry := same e
    simp only [memory, setTable, Option.bind_some, Function.update_self, ← entry]
    cases t.directory s d <;> rfl
  · simp only [memory, directory_setTable, if_neg place]
    cases there : t.directory s' d' with
    | none => rfl
    | some l =>
      simp only [Option.bind_some, setTable, Function.update_of_ne (unused.table s' d' l there)]

/-- A table in a frame of its own is shared with no one. -/
theorem tables_setTable (isolated : t.Isolated) (unused : t.Unused f) {entries : Entry → Option (Link Frame)}
    {s₁ s₂ : Space} {d₁ d₂ : Dir} {l l' : Link Frame}
    (here : (t.setTable s d f entries).directory s₁ d₁ = some l)
    (there : (t.setTable s d f entries).directory s₂ d₂ = some l') (same : l'.frame = l.frame)
    (different : (s₂, d₂) ≠ (s₁, d₁)) :
    l.writeable = false ∧
      ∀ e page, (t.setTable s d f entries).table l.frame e = some page → page.writeable = false := by
  obtain ⟨place, rfl, -⟩ | ⟨-, old, other, table⟩ := setTable_cases unused here
  · obtain ⟨place', -⟩ | ⟨-, -, other', -⟩ := setTable_cases unused there
    · exact absurd (place'.trans place.symm) different
    · exact absurd same other'
  · obtain ⟨-, rfl, -⟩ | ⟨-, old', -⟩ := setTable_cases unused there
    · exact absurd same.symm other
    · rw [table]
      exact isolated.tables old old' same different

theorem Isolated.addTable (isolated : t.Isolated) (unused : t.Unused f) :
    (t.setTable s d f fun _ => none).Isolated := by
  -- a page is behind one of the old tables, since the new one is empty
  have origin : ∀ {s' d' e l page}, (t.setTable s d f fun _ => none).directory s' d' = some l →
      (t.setTable s d f fun _ => none).table l.frame e = some page →
      t.directory s' d' = some l ∧ t.table l.frame e = some page := by
    intro s' d' e l page there entry
    obtain ⟨-, -, table⟩ | ⟨-, old, -, table⟩ := setTable_cases unused there
    · rw [table] at entry
      cases entry
    · rw [table] at entry
      exact ⟨old, entry⟩
  refine ⟨tables_setTable isolated unused, fun here there entry entry' same different => ?_,
    fun here there entry => ?_⟩
  · obtain ⟨old, oldEntry⟩ := origin here entry
    obtain ⟨old', oldEntry'⟩ := origin there entry'
    exact isolated.pages old old' oldEntry oldEntry' same different
  · obtain ⟨old', oldEntry⟩ := origin there entry
    obtain ⟨-, rfl, -⟩ | ⟨-, old, -, -⟩ := setTable_cases unused here
    · exact unused.page _ _ _ _ _ old' oldEntry
    · exact isolated.apart old old' oldEntry

/-- The old table is no longer reached from here, and where it still is reached
from elsewhere its pages cannot be written. -/
theorem Isolated.copyTable (isolated : t.Isolated) (unused : t.Unused f) {l : Link Frame}
    (copied : t.directory s d = some l) : (t.setTable s d f (t.table l.frame)).Isolated := by
  -- each place leads to the page that it led to
  have origin : ∀ {s' d' l'}, (t.setTable s d f (t.table l.frame)).directory s' d' = some l' →
      ∃ old, t.directory s' d' = some old ∧ (t.setTable s d f (t.table l.frame)).table l'.frame = t.table old.frame := by
    intro s' d' l' there
    obtain ⟨place, -, table⟩ | ⟨-, old, -, table⟩ := setTable_cases unused there
    · cases place
      exact ⟨l, copied, table⟩
    · exact ⟨l', old, table⟩
  refine ⟨tables_setTable isolated unused,
    fun {s₁ d₁ e₁ s₂ d₂ e₂ l₁ l₂ _ _} here there entry entry' same different => ?_, fun here there entry => ?_⟩
  · obtain ⟨old, before, table⟩ := origin here
    obtain ⟨old', before', table'⟩ := origin there
    rw [table] at entry
    rw [table'] at entry'
    by_cases slot : (old'.frame, e₂) = (old.frame, e₁)
    · obtain ⟨frames, entries⟩ := Prod.mk.inj slot
      refine (isolated.tables before before' frames fun place => different ?_).2 e₁ _ entry
      obtain ⟨rfl, rfl⟩ := Prod.mk.inj place
      rw [here, Option.some.injEq] at there
      rw [there, entries]
    · exact isolated.pages before before' entry entry' same slot
  · obtain ⟨old', before', table'⟩ := origin there
    rw [table'] at entry
    obtain ⟨-, rfl, -⟩ | ⟨-, before, -⟩ := setTable_cases unused here
    · exact unused.page _ _ _ _ _ before' entry
    · exact isolated.apart before before' entry

end Tables

/-! ## Pages -/

section Pages
variable [DecidableEq Entry] [DecidableEq Frame] {page : Link Frame} {content : Content}

/-- A page behind a directory entry after a page was set. -/
theorem setPage_cases {f' : Frame} {e' : Entry} {page' : Link Frame}
    (there : (t.setPage f e page content).table f' e' = some page') :
    ((f', e') = (f, e) ∧ page' = page) ∨ ((f', e') ≠ (f, e) ∧ t.table f' e' = some page') := by
  by_cases frame : f' = f
  · subst frame
    by_cases entry : e' = e
    · subst entry
      simp only [setPage, Function.update_self, Option.some.injEq] at there
      exact .inl ⟨rfl, there.symm⟩
    · simp only [setPage, Function.update_self, Function.update_of_ne entry] at there
      exact .inr ⟨fun pair => entry (Prod.mk.inj pair).2, there⟩
  · simp only [setPage, Function.update_of_ne frame] at there
    exact .inr ⟨fun pair => frame (Prod.mk.inj pair).1, there⟩

/-- A page in an unused frame keeps the isolation where its table has no other
reference. -/
theorem Isolated.setPage (isolated : t.Isolated) (exclusive : t.Exclusive s d f) (unused : t.Unused page.frame) :
    (t.setPage f e page content).Isolated := by
  refine ⟨fun {s₁ d₁ s₂ d₂ l₁ l₂} here there same different =>
    ⟨(isolated.tables here there same different).1,
    fun e' page' entry => ?_⟩, fun here there entry entry' same different => ?_, fun here there entry => ?_⟩
  · obtain ⟨slot, -⟩ | ⟨-, old⟩ := setPage_cases entry
    · have frame := (Prod.mk.inj slot).1
      have first := exclusive s₁ d₁ l₁ here frame
      have second := exclusive s₂ d₂ l₂ there (same.trans frame)
      exact absurd (second.trans first.symm) different
    · exact (isolated.tables here there same different).2 e' page' old
  · obtain ⟨slot, rfl⟩ | ⟨-, old⟩ := setPage_cases entry
    · obtain ⟨slot', -⟩ | ⟨-, old'⟩ := setPage_cases entry'
      · exact absurd (slot'.trans slot.symm) different
      · exact absurd same (unused.page _ _ _ _ _ there old')
    · obtain ⟨-, rfl⟩ | ⟨-, old'⟩ := setPage_cases entry'
      · exact absurd same.symm (unused.page _ _ _ _ _ here old)
      · exact isolated.pages here there old old' same different
  · obtain ⟨-, rfl⟩ | ⟨-, old⟩ := setPage_cases entry
    · exact (unused.table _ _ _ here).symm
    · exact isolated.apart here there old

/-- What a page in an unused frame changes of what is seen. -/
theorem memory_setPage (unused : t.Unused page.frame) (s' : Space) (d' : Dir) (e' : Entry) :
    (t.setPage f e page content).memory s' d' e' =
      (t.directory s' d').bind fun table =>
        if (table.frame, e') = (f, e) then some content
        else (t.table table.frame e').map fun page => t.contents page.frame := by
  simp only [memory]
  rw [show (t.setPage f e page content).directory = t.directory from rfl]
  cases there : t.directory s' d' with
  | none => rfl
  | some l =>
    rw [Option.bind_some, Option.bind_some]
    cases entry : (t.setPage f e page content).table l.frame e' with
    | none =>
      split
      · rename_i slot
        obtain ⟨frame, same⟩ := Prod.mk.inj slot
        simp [setPage, frame, same] at entry
      · rename_i slot
        cases old : t.table l.frame e' with
        | none => rfl
        | some page' =>
          have kept : (t.setPage f e page content).table l.frame e' = some page' := by
            by_cases frame : l.frame = f
            · have other : e' ≠ e := fun same => slot (by rw [frame, same])
              rw [frame] at old
              simp [setPage, frame, other, old]
            · simp [setPage, frame, old]
          rw [entry] at kept
          cases kept
    | some page' =>
      obtain ⟨slot, rfl⟩ | ⟨slot, old⟩ := setPage_cases entry
      · rw [if_pos slot, Option.map_some]
        simp [setPage]
      · rw [if_neg slot, old, Option.map_some, Option.map_some]
        simp only [setPage, Function.update_of_ne (unused.page s' d' e' l page' there old)]

omit [DecidableEq Entry] in
theorem Isolated.setContents (isolated : t.Isolated) : (t.setContents f content).Isolated :=
  ⟨isolated.tables, isolated.pages, isolated.apart⟩

/-- A copy of the page that was there changes nothing that is seen. -/
theorem memory_copyPage {old : Link Frame} (entry : t.table f e = some old) (unused : t.Unused page.frame) :
    (t.setPage f e page (t.contents old.frame)).memory = t.memory := by
  funext s' d' e'
  rw [memory_setPage unused, memory]
  cases there : t.directory s' d' with
  | none => rfl
  | some l =>
    rw [Option.bind_some, Option.bind_some]
    split
    · rename_i slot
      obtain ⟨frame, same⟩ := Prod.mk.inj slot
      rw [frame, same, entry]
      rfl
    · rfl

variable [DecidableEq Space] [DecidableEq Dir]

/-- A page in an unused frame, in a table that only one place leads to, is seen at
that place only. -/
theorem memory_putPage {l : Link Frame} (table : t.directory s d = some l) (exclusive : t.Exclusive s d l.frame)
    (unused : t.Unused page.frame) : (t.setPage l.frame e page content).memory = t.memory.set s d e content := by
  funext s' d' e'
  rw [memory_setPage unused, Memories.set_apply]
  cases there : t.directory s' d' with
  | none =>
    have elsewhere : ¬ (s' = s ∧ d' = d ∧ e' = e) := by
      rintro ⟨rfl, rfl, -⟩
      rw [table] at there
      cases there
    rw [if_neg elsewhere, memory, there]
    rfl
  | some l' =>
    rw [Option.bind_some]
    by_cases slot : (l'.frame, e') = (l.frame, e)
    · obtain ⟨frame, rfl⟩ := Prod.mk.inj slot
      obtain ⟨rfl, rfl⟩ := Prod.mk.inj (exclusive s' d' l' there frame)
      rw [if_pos slot, if_pos ⟨rfl, rfl, rfl⟩]
    · have elsewhere : ¬ (s' = s ∧ d' = d ∧ e' = e) := by
        rintro ⟨rfl, rfl, rfl⟩
        rw [table, Option.some.injEq] at there
        exact slot (by rw [there])
      rw [if_neg slot, if_neg elsewhere, memory, there, Option.bind_some]

/-- A write through links that let it pass is seen at that place only. -/
theorem memory_write (isolated : t.Isolated) {l : Link Frame} (table : t.directory s d = some l)
    (tableWriteable : l.writeable) (entry : t.table l.frame e = some page) (writeable : page.writeable) :
    (t.setContents page.frame content).memory = t.memory.set s d e content := by
  have exclusive := isolated.exclusive table tableWriteable
  funext s' d' e'
  rw [Memories.set_apply]
  simp only [memory]
  rw [show (t.setContents page.frame content).directory = t.directory from rfl,
    show (t.setContents page.frame content).table = t.table from rfl]
  by_cases place : s' = s ∧ d' = d ∧ e' = e
  · obtain ⟨rfl, rfl, rfl⟩ := place
    rw [if_pos ⟨rfl, rfl, rfl⟩, table, Option.bind_some, entry]
    simp [setContents]
  · rw [if_neg place]
    cases there : t.directory s' d' with
    | none => rfl
    | some l' =>
      rw [Option.bind_some, Option.bind_some]
      cases entry' : t.table l'.frame e' with
      | none => rfl
      | some page' =>
        have other : page'.frame ≠ page.frame := by
          intro same
          by_cases slot : (l'.frame, e') = (l.frame, e)
          · obtain ⟨frame, rfl⟩ := Prod.mk.inj slot
            obtain ⟨rfl, rfl⟩ := Prod.mk.inj (exclusive s' d' l' there frame)
            exact place ⟨rfl, rfl, rfl⟩
          · rw [isolated.pages table there entry entry' same slot] at writeable
            cases writeable
        simp only [setContents, Option.map_some, Function.update_of_ne other]

end Pages

/-! ## Sharing -/

/-- The link without its permission to write. -/
def protectLink (l : Link Frame) : Link Frame := { l with writeable := false }

/-- Takes the permission to write from entries of the directory of a space, and from
every page of every table behind them. -/
structure Protects (s : Space) (dirs : Dir → Prop) (t t' : Translation Space Dir Entry Frame Content) : Prop where
  own : ∀ d, dirs d → t'.directory s d = (t.directory s d).map protectLink
  kept : ∀ d, ¬ dirs d → t'.directory s d = t.directory s d
  others : ∀ s', s' ≠ s → t'.directory s' = t.directory s'
  reached : ∀ d l e, dirs d → t.directory s d = some l → t'.table l.frame e = (t.table l.frame e).map protectLink
  tables : ∀ f e, t'.table f e = t.table f e ∨ t'.table f e = (t.table f e).map protectLink
  contents : t'.contents = t.contents

/-- Nothing behind the directory of the space can be written. -/
def ReadOnly (t : Translation Space Dir Entry Frame Content) (s : Space) : Prop :=
  ∀ d l, t.directory s d = some l → l.writeable = false ∧
    ∀ e page, t.table l.frame e = some page → page.writeable = false

section Sharing
variable {t' : Translation Space Dir Entry Frame Content} {dirs : Dir → Prop}

theorem map_protectLink (l : Option (Link Frame)) : (l.map protectLink).map protectLink = l.map protectLink := by
  cases l <;> rfl

/-- Entries protected one after the other. -/
theorem Protects.trans {t'' : Translation Space Dir Entry Frame Content} {dirs' : Dir → Prop}
    (first : Protects s dirs t t') (second : Protects s dirs' t' t'') (apart : ∀ d, dirs d → ¬ dirs' d) :
    Protects s (fun d => dirs d ∨ dirs' d) t t'' := by
  refine ⟨fun d either => ?_, fun d neither => ?_, fun s' other => ?_, fun d l e either there => ?_, fun f e => ?_, ?_⟩
  · obtain before | after := either
    · rw [second.kept d (apart d before), first.own d before]
    · rw [second.own d after, first.kept d fun before => apart d before after]
  · rw [second.kept d fun after => neither (.inr after), first.kept d fun before => neither (.inl before)]
  · rw [second.others s' other, first.others s' other]
  · obtain before | after := either
    · obtain same | lost := second.tables l.frame e
      · rw [same, first.reached d l e before there]
      · rw [lost, first.reached d l e before there, map_protectLink]
    · have there' := (first.kept d fun before => apart d before after).trans there
      rw [second.reached d l e after there']
      obtain same | lost := first.tables l.frame e
      · rw [same]
      · rw [lost, map_protectLink]
  · obtain same | lost := second.tables f e
    · rw [same]
      exact first.tables f e
    · rw [lost]
      obtain same' | lost' := first.tables f e
      · exact .inr (by rw [same'])
      · exact .inr (by rw [lost', map_protectLink])
  · rw [second.contents, first.contents]

/-- A link that may have lost its permission to write. -/
theorem Protects.directory (protects : Protects s dirs t t') {l' : Link Frame}
    (there : t'.directory s' d = some l') :
    ∃ l, t.directory s' d = some l ∧ l'.frame = l.frame ∧ (l.writeable = false → l'.writeable = false) := by
  by_cases space : s' = s
  · subst space
    by_cases inside : dirs d
    · rw [protects.own d inside, Option.map_eq_some_iff] at there
      obtain ⟨l, old, rfl⟩ := there
      exact ⟨l, old, rfl, fun _ => rfl⟩
    · exact ⟨l', (protects.kept d inside).symm.trans there, rfl, id⟩
  · rw [protects.others s' space] at there
    exact ⟨l', there, rfl, id⟩

theorem Protects.table (protects : Protects s dirs t t') {page' : Link Frame} (there : t'.table f e = some page') :
    ∃ page, t.table f e = some page ∧ page'.frame = page.frame ∧
      (page.writeable = false → page'.writeable = false) := by
  obtain same | lost := protects.tables f e
  · exact ⟨page', same ▸ there, rfl, id⟩
  · rw [lost, Option.map_eq_some_iff] at there
    obtain ⟨page, old, rfl⟩ := there
    exact ⟨page, old, rfl, fun _ => rfl⟩

theorem Protects.readOnly (protects : Protects s dirs t t') (all : ∀ d l, t.directory s d = some l → dirs d) :
    t'.ReadOnly s := by
  intro d l' there
  obtain ⟨l, old, frame, -⟩ := protects.directory there
  rw [protects.own d (all d l old), old, Option.map_some, Option.some.injEq] at there
  refine ⟨there ▸ rfl, fun e page' entry => ?_⟩
  rw [frame, protects.reached d l e (all d l old) old, Option.map_eq_some_iff] at entry
  obtain ⟨page, -, rfl⟩ := entry
  rfl

theorem Isolated.protect (isolated : t.Isolated) (protects : Protects s dirs t t') : t'.Isolated := by
  refine ⟨fun here there same different => ?_, fun here there entry entry' same different => ?_,
    fun here there entry => ?_⟩
  · obtain ⟨l, old, frame, write⟩ := protects.directory here
    obtain ⟨l', old', frame', -⟩ := protects.directory there
    obtain ⟨closed, pages⟩ := isolated.tables old old' (frame'.symm.trans (same.trans frame)) different
    refine ⟨write closed, fun e page' entry => ?_⟩
    obtain ⟨page, oldEntry, -, pageWrite⟩ := protects.table entry
    rw [frame] at oldEntry
    exact pageWrite (pages e page oldEntry)
  · obtain ⟨l, old, frame, -⟩ := protects.directory here
    obtain ⟨l', old', frame', -⟩ := protects.directory there
    obtain ⟨page, oldEntry, pageFrame, write⟩ := protects.table entry
    obtain ⟨page', oldEntry', pageFrame', -⟩ := protects.table entry'
    rw [frame] at oldEntry different
    rw [frame'] at oldEntry' different
    exact write (isolated.pages old old' oldEntry oldEntry' (pageFrame'.symm.trans (same.trans pageFrame)) different)
  · obtain ⟨l, old, frame, -⟩ := protects.directory here
    obtain ⟨l', old', frame', -⟩ := protects.directory there
    obtain ⟨page, oldEntry, pageFrame, -⟩ := protects.table entry
    rw [frame'] at oldEntry
    rw [frame, pageFrame]
    exact isolated.apart old old' oldEntry

theorem memory_protect (protects : Protects s dirs t t') : t'.memory = t.memory := by
  have tables : ∀ f e, (t'.table f e).map (fun page => t'.contents page.frame) =
      (t.table f e).map fun page => t.contents page.frame := by
    intro f e
    rw [protects.contents]
    obtain same | lost := protects.tables f e
    · rw [same]
    · rw [lost, Option.map_map]
      rfl
  funext s' d e
  simp only [memory, tables]
  by_cases space : s' = s
  · subst space
    by_cases inside : dirs d
    · rw [protects.own d inside]
      cases t.directory s' d <;> rfl
    · rw [protects.kept d inside]
  · rw [protects.others s' space]

variable [DecidableEq Space]

/-- Places behind a shared directory lead to where the original leads. -/
theorem directory_share (s'' : Space) (d : Dir) :
    (t.share s s').directory s'' d = t.directory (if s'' = s' then s else s'') d := by
  by_cases copy : s'' = s' <;> simp [share, copy]

theorem memory_share : (t.share s s').memory = Function.update t.memory s' (t.memory s) := by
  funext s'' d e
  simp only [memory, directory_share]
  by_cases copy : s'' = s' <;> simp [share, copy, memory]

/-- A directory that lets nothing be written may be shared. -/
theorem Isolated.share (isolated : t.Isolated) (readOnly : t.ReadOnly s) : (t.share s s').Isolated := by
  refine ⟨fun {s₁ d₁ s₂ d₂ l l'} here there same different => ?_,
    fun here there entry entry' same different => ?_, fun here there entry => ?_⟩
  · rw [directory_share] at here there
    by_cases copy : s₁ = s'
    · rw [if_pos copy] at here
      exact readOnly d₁ l here
    by_cases origin : (if s₂ = s' then s else s₂, d₂) = (s₁, d₁)
    · -- the other place is in the copy, and this is the place it was copied from
      obtain ⟨space, rfl⟩ := Prod.mk.inj origin
      by_cases copy' : s₂ = s'
      · rw [if_pos copy'] at space
        rw [if_neg copy, ← space] at here
        exact readOnly d₂ l here
      · rw [if_neg copy'] at space
        exact absurd (by rw [space]) different
    · rw [if_neg copy] at here
      exact isolated.tables here there same origin
  · rw [directory_share] at here there
    exact isolated.pages here there entry entry' same different
  · rw [directory_share] at here there
    exact isolated.apart here there entry

end Sharing

end Translation

end FluxOS
