import FluxOS.DescriptorTable

/-! Any run of calls on a table of open files: the lowest free number is handed out, only
the named descriptors change and every access is inside the array, as long as no descriptor
is copied to a number beyond the table. -/
namespace FluxOS.FileTable
open Words HoledArray QList

variable {heap again : ArrayHeap (Option FileDescriptor)} {files : FileTable} {entries : OpenFiles}

/-- A table with these entries. It has never had fewer than two places. -/
structure Kept (files : FileTable) (entries : OpenFiles) : Prop where
  holds : Holds files entries
  several : 2 ≤ files.mCapacity.toNat

namespace Kept

theorem opened_eq (kept : Kept files entries) : opened files = ListWithHoles.entry entries := by
  rw [opened, kept.holds.contents_eq]

theorem size_eq (kept : Kept files entries) : files.mSize.toInt = entries.length := by
  rw [toInt_of_small kept.holds.size_small, kept.holds.size]

theorem entry_eq (kept : Kept files entries) {fd : Word} (inside : fd.toNat < entries.length) :
    entry files fd = some (ListWithHoles.entry entries fd.toNat) := by
  obtain ⟨rest, split⟩ := kept.holds.elements
  rw [entry, ← split, List.getElem?_append_left inside, List.getElem?_eq_getElem inside, ListWithHoles.entry,
    List.getElem?_eq_getElem inside, Option.join_some]

/-- The checks find the descriptor that is open, and look at no entry outside the table. -/
theorem descriptor_eq (kept : Kept files entries) (fd : Word) :
    descriptor files fd = some ((opened files).lookup fd) := by
  rw [kept.opened_eq]
  unfold descriptor Opened.lookup
  by_cases least : 0 ≤ fd.toInt
  · have value := (toNat_of_nonneg least).2
    by_cases most : fd.toInt < files.mSize.toInt
    · rw [if_pos ⟨least, most⟩, if_pos least]
      rw [kept.size_eq] at most
      exact kept.entry_eq (by omega)
    · rw [if_neg (fun both => most both.2), if_pos least, ListWithHoles.entry_eq_none_of_le]
      rw [kept.size_eq] at most
      omega
  · rw [if_neg (fun both => least both.1), if_neg least]

/-- A descriptor that is open has a number of the table. -/
theorem inside_of_open (kept : Kept files entries) {fd : Word} {fdesc : FileDescriptor}
    (present : (opened files).lookup fd = some fdesc) : 0 ≤ fd.toInt ∧ fd.toNat < entries.length := by
  rw [kept.opened_eq, Opened.lookup] at present
  split at present
  · refine ⟨‹_›, ?_⟩
    by_contra beyond
    rw [ListWithHoles.entry_eq_none_of_le (Nat.le_of_not_lt beyond)] at present
    cases present
  · cases present

/-- An entry of the table can be written to. -/
theorem write (kept : Kept files entries) {fd : Word} (inside : fd.toNat < entries.length) (value : Option FileDescriptor) :
    ∃ files' entries', QList.write files fd value = some files' ∧ Kept files' entries' ∧
      entries'.length = entries.length ∧ opened files' = Function.update (opened files) fd.toNat value := by
  obtain ⟨files', written, after, capacity⟩ := kept.holds.set inside value
  have kept' : Kept files' (entries.set fd.toNat value) := ⟨after, by rw [capacity]; exact kept.several⟩
  refine ⟨files', _, written, kept', List.length_set, ?_⟩
  rw [kept'.opened_eq, kept.opened_eq, entry_set inside]

end Kept

/-- Either a call meets its condition and does what it should, or it does not and goes wrong. -/
def Settled (heap again : ArrayHeap (Option FileDescriptor)) (files : FileTable) (call : Call) : Prop :=
  (Meets heap again files call ∧ ∃ numbers files' entries', perform heap again files call = some (numbers, files') ∧
    Right heap files call numbers files' ∧ Kept files' entries') ∨
  (¬Meets heap again files call ∧ ∀ numbers files', perform heap again files call = some (numbers, files') →
    ¬Right heap files call numbers files')

section Adding

/-- What `add` does where there is room, or a larger array. -/
theorem Kept.add_lowest (kept : Kept files entries) {fd : Int} {files' : FileTable} {fdesc : FileDescriptor}
    (index : fd = (ListWithHoles.add entries fdesc).2) (after : Holds files' (ListWithHoles.add entries fdesc).1) :
    Lowest (opened files) fdesc fd (opened files') := by
  obtain ⟨free, lower, updated⟩ := HoledArray.add_lowest entries fdesc
  rw [kept.opened_eq, opened, after.contents_eq]
  exact ⟨_, index, free, lower, updated⟩

theorem Kept.add_room (kept : Kept files entries) (heap : ArrayHeap (Option FileDescriptor)) (place : 0 < places files)
    (fdesc : FileDescriptor) :
    ∃ fd files' entries', add heap files fdesc = some (fd, files') ∧ Lowest (opened files) fdesc fd (opened files') ∧
      Kept files' entries' ∧ files'.mCapacity = files.mCapacity ∧ places files' = places files - 1 := by
  obtain ⟨files', added, after, capacity, left⟩ := add_of_place heap kept.holds place fdesc
  exact ⟨_, files', _, added, kept.add_lowest rfl after, ⟨after, by rw [capacity]; exact kept.several⟩, capacity, left⟩

theorem Kept.add_grown (kept : Kept files entries) (full : places files = 0) (limit : files.mCapacity.toNat < 2 ^ 30)
    (granted : heap.grants (files.mCapacity * 2#32) = true) (fdesc : FileDescriptor) :
    ∃ fd files' entries', add heap files fdesc = some (fd, files') ∧ Lowest (opened files) fdesc fd (opened files') ∧
      Kept files' entries' ∧ 0 < places files' := by
  have several := kept.several
  obtain ⟨files', added, after, capacity, left⟩ :=
    add_granted kept.holds full (Nat.lt_of_lt_of_le Nat.two_pos several) limit granted fdesc
  exact ⟨_, files', _, added, kept.add_lowest rfl after, ⟨after, by omega⟩, by omega⟩

/-- One descriptor is added, or nothing happens because there is no memory, or the table is at its limit. -/
theorem Kept.added (kept : Kept files entries) (heap : ArrayHeap (Option FileDescriptor)) (fdesc : FileDescriptor) :
    ((places files = 0 → files.mCapacity.toNat < 2 ^ 30) ∧ ∃ fd files' entries', add heap files fdesc = some (fd, files') ∧
      Added heap files fdesc [fd] (opened files') ∧ Kept files' entries') ∨
    (¬(places files = 0 → files.mCapacity.toNat < 2 ^ 30) ∧ add heap files fdesc = none) := by
  by_cases place : 0 < places files
  · obtain ⟨fd, files', entries', added, lowest, kept', -⟩ := kept.add_room heap place fdesc
    exact .inl ⟨fun full => absurd full (Nat.ne_of_gt place), fd, files', entries', added, .inl ⟨fd, rfl, lowest⟩, kept'⟩
  · have full := Nat.eq_zero_of_not_pos place
    by_cases limit : files.mCapacity.toNat < 2 ^ 30
    · cases granted : heap.grants (files.mCapacity * 2#32) with
      | true =>
        obtain ⟨fd, files', entries', added, lowest, kept', -⟩ := kept.add_grown full limit granted fdesc
        exact .inl ⟨fun _ => limit, fd, files', entries', added, .inl ⟨fd, rfl, lowest⟩, kept'⟩
      | false =>
        have failed : Failed (opened files) [-1] (opened files) := ⟨-1, by decide, rfl, rfl⟩
        exact .inl ⟨fun _ => limit, -1, files, entries, add_refused kept.holds full limit granted fdesc,
          .inr ⟨full, granted, failed⟩, kept⟩
    · exact .inr ⟨fun meets => limit (meets full), add_limit kept.holds full (Nat.le_of_not_lt limit) fdesc⟩

theorem Kept.settled_open (kept : Kept files entries) (node : VNode) (flags : Word) :
    Settled heap again files (.openAtVNode node flags) := by
  obtain ⟨meets, fd, files', entries', added, right, kept'⟩ | ⟨unmet, wrong⟩ := kept.added heap ⟨node, 0, flags⟩
  · exact .inl ⟨meets, [fd], files', entries', by rw [perform, added]; rfl, right, kept'⟩
  · exact .inr ⟨unmet, fun _ _ done => by rw [perform, wrong] at done; cases done⟩

theorem Kept.settled_socket (kept : Kept files entries) (node : VNode) : Settled heap again files (.socket node) := by
  obtain ⟨meets, fd, files', entries', added, right, kept'⟩ | ⟨unmet, wrong⟩ := kept.added heap ⟨node, 0, oRdwr⟩
  · exact .inl ⟨meets, [fd], files', entries', by rw [perform, added]; rfl, right, kept'⟩
  · exact .inr ⟨unmet, fun _ _ done => by rw [perform, wrong] at done; cases done⟩

theorem failed_ebadf (files : FileTable) : Failed (opened files) [-ebadf] (opened files) := ⟨-ebadf, by decide, rfl, rfl⟩

theorem Kept.settled_dup (kept : Kept files entries) (oldfd : Word) : Settled heap again files (.dup oldfd) := by
  cases found : (opened files).lookup oldfd with
  | none =>
    refine .inl ⟨by simp [Meets, found], [-ebadf], files, entries, ?_, ?_, kept⟩
    · simp [perform, dup, kept.descriptor_eq, found]
    · simpa [Right, found] using failed_ebadf files
  | some oldFdesc =>
    have same : dup heap files oldfd = add heap files oldFdesc := by simp [dup, kept.descriptor_eq, found]
    obtain ⟨meets, fd, files', entries', added, right, kept'⟩ | ⟨unmet, wrong⟩ := kept.added heap oldFdesc
    · refine .inl ⟨fun _ => meets, [fd], files', entries', by rw [perform, same, added]; rfl, ?_, kept'⟩
      simpa [Right, found] using right
    · refine .inr ⟨fun meets => unmet (meets (by simp [found])), fun _ _ done => ?_⟩
      rw [perform, same, wrong] at done
      cases done

end Adding

section Closing

/-- `closePB` gives up an open descriptor. -/
theorem Kept.close_open (kept : Kept files entries) {fd : Word} {fdesc : FileDescriptor}
    (present : (opened files).lookup fd = some fdesc) :
    ∃ files' entries', closePB files fd = some (0, files') ∧ Kept files' entries' ∧ entries'.length = entries.length ∧
      opened files' = Function.update (opened files) fd.toNat none := by
  obtain ⟨files', entries', written, kept', length, update⟩ := kept.write (kept.inside_of_open present).2 none
  exact ⟨files', entries', by simp [closePB, kept.descriptor_eq, present, HoledArray.remove, written], kept', length, update⟩

theorem Kept.settled_close (kept : Kept files entries) (fd : Word) : Settled heap again files (.close fd) := by
  cases found : (opened files).lookup fd with
  | none =>
    refine .inl ⟨trivial, [-ebadf], files, entries, ?_, ?_, kept⟩
    · simp [perform, closePB, kept.descriptor_eq, found]
    · simpa [Right, found] using failed_ebadf files
  | some fdesc =>
    obtain ⟨files', entries', closed, kept', -, update⟩ := kept.close_open found
    refine .inl ⟨trivial, [0], files', entries', by simp [perform, closed], ?_, kept'⟩
    simpa [Right, found] using update

end Closing

section Replacing

/-- A number of the table is free then, whatever it was before. -/
theorem Kept.makePlace_inside (kept : Kept files entries) (heap : ArrayHeap (Option FileDescriptor)) {newfd : Word}
    (least : 0 ≤ newfd.toInt) (below : newfd.toInt < files.mSize.toInt) :
    ∃ files' entries', makePlace heap files newfd = some files' ∧ Kept files' entries' ∧ entries'.length = entries.length ∧
      ∀ value, Function.update (opened files') newfd.toNat value = Function.update (opened files) newfd.toNat value := by
  have inside : newfd.toNat < entries.length := by
    have value := (toNat_of_nonneg least).2
    rw [kept.size_eq] at below
    omega
  have same : (opened files).lookup newfd = ListWithHoles.entry entries newfd.toNat := by
    rw [Opened.lookup, if_pos least, kept.opened_eq]
  rw [makePlace, if_pos below, kept.entry_eq inside, ← same]
  cases found : (opened files).lookup newfd with
  | none => exact ⟨files, entries, by simp, kept, rfl, fun _ => rfl⟩
  | some fdesc =>
    obtain ⟨files', entries', closed, kept', length, update⟩ := kept.close_open found
    exact ⟨files', entries', by simp [closed], kept', length, fun value => by rw [update, Function.update_idem]⟩

/-- Behind the end `dup3` makes the table one entry too short. -/
theorem size_of_dup3_beyond (kept : Kept files entries) {oldfd newfd flags : Word} {oldFdesc : FileDescriptor}
    (present : (opened files).lookup oldfd = some oldFdesc) (least : 0 ≤ newfd.toInt) (other : newfd ≠ oldfd)
    (beyond : ¬newfd.toInt < files.mSize.toInt) {fd : Int} {files' : FileTable}
    (done : dup3 heap files oldfd newfd flags = some (fd, files')) : files'.mSize = newfd := by
  simp only [dup3, if_neg (Int.not_lt.mpr least), kept.descriptor_eq, present, if_neg other, makePlace, if_neg beyond,
    Option.bind_eq_bind, Option.bind_some, Option.bind_eq_some_iff] at done
  obtain ⟨resized, grown, written, stored, result⟩ := done
  cases result
  simp only [resize, Option.bind_eq_bind, Option.bind_eq_some_iff] at grown
  obtain ⟨_, -, _, -, result⟩ := grown
  cases result
  unfold QList.write at stored
  split at stored
  · cases stored
    rfl
  · cases stored

theorem Kept.dup3_settled (kept : Kept files entries) (heap again : ArrayHeap (Option FileDescriptor))
    (oldfd newfd flags : Word) :
    (Meets heap again files (.dup3 oldfd newfd flags) ∧ ∃ fd files' entries',
      dup3 heap files oldfd newfd flags = some (fd, files') ∧ Replaced files oldfd newfd [fd] files' ∧ Kept files' entries') ∨
    (¬Meets heap again files (.dup3 oldfd newfd flags) ∧ ∀ fd files',
      dup3 heap files oldfd newfd flags = some (fd, files') → ¬Replaced files oldfd newfd [fd] files') := by
  by_cases negative : newfd.toInt < 0
  · refine .inl ⟨fun _ least => absurd least (Int.not_le.mpr negative), -ebadf, files, entries, by simp [dup3, negative], ?_, kept⟩
    cases found : (opened files).lookup oldfd <;> simpa [Replaced, found, negative] using failed_ebadf files
  have least : 0 ≤ newfd.toInt := Int.not_lt.mp negative
  cases found : (opened files).lookup oldfd with
  | none =>
    refine .inl ⟨by simp [Meets, found], -ebadf, files, entries, ?_, ?_, kept⟩
    · simp [dup3, negative, kept.descriptor_eq, found]
    · simpa [Replaced, found] using failed_ebadf files
  | some oldFdesc =>
    by_cases same : newfd = oldfd
    · refine .inl ⟨fun _ _ other => absurd same other, -einval, files, entries, ?_, ?_, kept⟩
      · rw [same] at negative
        simp [dup3, negative, kept.descriptor_eq, found, same]
      · simp only [Replaced, found, same, or_true, if_true]
        exact ⟨-einval, by decide, rfl, rfl⟩
    by_cases below : newfd.toInt < files.mSize.toInt
    · obtain ⟨freed, entries₁, emptied, kept₁, length₁, updates⟩ := kept.makePlace_inside heap least below
      have inside : newfd.toNat < entries₁.length := by
        have value := (toNat_of_nonneg least).2
        rw [kept.size_eq] at below
        omega
      obtain ⟨files', entries', written, kept', length', update⟩ := kept₁.write inside
        (some { oldFdesc with flags := oldFdesc.flags ||| flags })
      refine .inl ⟨fun _ _ _ => below, newfd.toInt, files', entries', ?_, ?_, kept'⟩
      · simp [dup3, negative, kept.descriptor_eq, found, same, emptied, written]
      · have size : files'.mSize.toInt = files.mSize.toInt := by
          rw [kept'.size_eq, kept.size_eq, length', length₁]
        simp only [Replaced, found, negative, same, or_self, if_false]
        refine ⟨trivial, by rw [size]; exact below, { oldFdesc with flags := oldFdesc.flags ||| flags }, rfl, rfl, ?_⟩
        rw [update, updates]
    · refine .inr ⟨fun meets => below (meets (by simp [found]) least same), fun fd files' done right => ?_⟩
      have size := size_of_dup3_beyond kept found least same below done
      simp only [Replaced, found, negative, same, or_self, if_false, size] at right
      exact Int.lt_irrefl _ right.2.1

theorem Kept.settled_dup3 (kept : Kept files entries) (oldfd newfd flags : Word) :
    Settled heap again files (.dup3 oldfd newfd flags) := by
  obtain ⟨meets, fd, files', entries', done, right, kept'⟩ | ⟨unmet, wrong⟩ := kept.dup3_settled heap again oldfd newfd flags
  · exact .inl ⟨meets, [fd], files', entries', by rw [perform, done]; rfl, right, kept'⟩
  · refine .inr ⟨unmet, fun numbers files' done => ?_⟩
    obtain ⟨⟨fd, files₁⟩, result, same⟩ := Option.map_eq_some_iff.mp done
    cases same
    exact wrong fd _ result

theorem Kept.settled_dup2 (kept : Kept files entries) (oldfd newfd : Word) : Settled heap again files (.dup2 oldfd newfd) := by
  by_cases same : newfd = oldfd
  · refine .inl ⟨fun _ _ other => absurd same other, [newfd.toInt], files, entries, by simp [perform, dup2, same], ?_, kept⟩
    simp [Right, same]
  · have unfolded : dup2 heap files oldfd newfd = dup3 heap files oldfd newfd 0#32 := if_neg same
    obtain ⟨meets, fd, files', entries', done, right, kept'⟩ | ⟨unmet, wrong⟩ := kept.dup3_settled heap again oldfd newfd 0#32
    · refine .inl ⟨meets, [fd], files', entries', by rw [perform, unfolded, done]; rfl, ?_, kept'⟩
      simpa only [Right, if_neg same] using right
    · refine .inr ⟨unmet, fun numbers files' done => ?_⟩
      rw [perform, unfolded] at done
      obtain ⟨⟨fd, files₁⟩, result, outcome⟩ := Option.map_eq_some_iff.mp done
      cases outcome
      simpa only [Right, if_neg same] using wrong fd _ result

end Replacing

section Piping

/-- A full table that cannot grow stays as it is. -/
theorem Kept.add_stuck (kept : Kept files entries) (full : places files = 0) (stuck : ¬Grows heap files)
    {fdesc : FileDescriptor} {fd : Int} {files' : FileTable} (done : add heap files fdesc = some (fd, files')) :
    fd = -1 ∧ files' = files := by
  by_cases limit : files.mCapacity.toNat < 2 ^ 30
  · have refused : heap.grants (files.mCapacity * 2#32) = false := Bool.eq_false_iff.mpr fun granted => stuck ⟨limit, granted⟩
    rw [add_refused kept.holds full limit refused] at done
    cases done
    exact ⟨rfl, rfl⟩
  · rw [add_limit kept.holds full (Nat.le_of_not_lt limit)] at done
    cases done

/-- Two descriptors in a row have their places, or can have them. -/
theorem Kept.added_twice (kept : Kept files entries) (none : places files = 0 → Grows heap files)
    (one : places files = 1 → Grows again files) (a b : FileDescriptor) :
    ∃ fd middle fd' files' entries', add heap files a = some (fd, middle) ∧ add again middle b = some (fd', files') ∧
      Lowest (opened files) a fd (opened middle) ∧ Lowest (opened middle) b fd' (opened files') ∧ Kept files' entries' := by
  by_cases place : 0 < places files
  · obtain ⟨fd, middle, entries₁, first, lowest, kept₁, capacity, left⟩ := kept.add_room heap place a
    by_cases room : 0 < places middle
    · obtain ⟨fd', files', entries', second, lowest', kept', -⟩ := kept₁.add_room again room b
      exact ⟨fd, middle, fd', files', entries', first, second, lowest, lowest', kept'⟩
    · obtain ⟨limit, granted⟩ := one (by omega)
      rw [← capacity] at limit granted
      obtain ⟨fd', files', entries', second, lowest', kept', -⟩ :=
        kept₁.add_grown (Nat.eq_zero_of_not_pos room) limit granted b
      exact ⟨fd, middle, fd', files', entries', first, second, lowest, lowest', kept'⟩
  · have full := Nat.eq_zero_of_not_pos place
    obtain ⟨limit, granted⟩ := none full
    obtain ⟨fd, middle, entries₁, first, lowest, kept₁, room⟩ := kept.add_grown full limit granted a
    obtain ⟨fd', files', entries', second, lowest', kept', -⟩ := kept₁.add_room again room b
    exact ⟨fd, middle, fd', files', entries', first, second, lowest, lowest', kept'⟩

/-- The second one gets no number when the first has taken the last place. -/
theorem Kept.second_stuck (kept : Kept files entries) (one : places files = 1) (stuck : ¬Grows again files)
    {a b : FileDescriptor} {fd fd' : Int} {middle files' : FileTable} (first : add heap files a = some (fd, middle))
    (second : add again middle b = some (fd', files')) : fd' = -1 := by
  obtain ⟨fd₁, middle₁, entries₁, first₁, -, kept₁, capacity, left⟩ := kept.add_room heap (by omega) a
  cases first.symm.trans first₁
  have still : ¬Grows again middle := by simpa only [Grows, capacity] using stuck
  exact (kept₁.add_stuck (by omega) still second).1

theorem Kept.settled_pipe2 (kept : Kept files entries) (node : VNode) (flags : Word) :
    Settled heap again files (.pipe2 node flags) := by
  by_cases enough : (places files = 0 → Grows heap files) ∧ (places files = 1 → Grows again files)
  · obtain ⟨readEnd, middle, writeEnd, files', entries', first, second, lowest, lowest', kept'⟩ :=
      kept.added_twice enough.1 enough.2 ⟨node, 0, FSUAPI.oRdonly ||| flags⟩ ⟨node, 0, FSUAPI.oWronly ||| flags⟩
    refine .inl ⟨enough, [readEnd, writeEnd], files', entries', ?_, ⟨readEnd, writeEnd, _, rfl, lowest, lowest'⟩, kept'⟩
    simp only [perform, pipe2, first, second, Option.bind_eq_bind, Option.bind_some]
    rfl
  · refine .inr ⟨enough, fun numbers files' done right => ?_⟩
    rw [perform, pipe2, Option.map_eq_some_iff] at done
    obtain ⟨⟨readEnd, writeEnd, files₁⟩, result, outcome⟩ := done
    cases outcome
    simp only [Option.bind_eq_bind, Option.bind_eq_some_iff, Prod.exists] at result
    obtain ⟨first, middle, added, second, last, written, outcome⟩ := result
    cases outcome
    obtain ⟨_, _, _, numbers, ⟨i, index, -⟩, j, index', -⟩ := right
    cases numbers
    -- The read end is -1 where the table cannot grow for it, the write end where it cannot grow for that.
    obtain ⟨full, stuck⟩ | ⟨one, stuck⟩ := (not_and_or.mp enough).imp Classical.not_imp.mp Classical.not_imp.mp
    · have refused := (kept.add_stuck full stuck added).1
      omega
    · have refused := kept.second_stuck one stuck added written
      omega

end Piping

section Runs

theorem Kept.settled (kept : Kept files entries) (heap again : ArrayHeap (Option FileDescriptor)) (call : Call) :
    Settled heap again files call := by
  cases call with
  | openAtVNode node flags => exact kept.settled_open node flags
  | dup oldfd => exact kept.settled_dup oldfd
  | dup2 oldfd newfd => exact kept.settled_dup2 oldfd newfd
  | dup3 oldfd newfd flags => exact kept.settled_dup3 oldfd newfd flags
  | pipe2 node flags => exact kept.settled_pipe2 node flags
  | socket node => exact kept.settled_socket node
  | close fd => exact kept.settled_close fd

/-- The tables that a new process gets: one descriptor after the other, in `createNewTask`
the terminal's, in `fork` copies of the parent's. -/
inductive New : FileTable → Prop
  | empty (heap : ArrayHeap (Option FileDescriptor)) : New (QList.empty heap)
  | add {files files' : FileTable} {fd : Int} (heap : ArrayHeap (Option FileDescriptor)) (new : New files)
      (fdesc : FileDescriptor) (added : add heap files fdesc = some (fd, files')) : New files'

theorem New.kept (new : New files) : ∃ entries, Kept files entries := by
  induction new with
  | empty heap => exact ⟨[], holds_empty heap, Nat.le_refl 2⟩
  | add heap _ fdesc added ih =>
    obtain ⟨entries, kept⟩ := ih
    obtain ⟨-, fd', files', entries', result, -, kept'⟩ | ⟨-, none⟩ := kept.added heap fdesc
    · cases added.symm.trans result
      exact ⟨entries', kept'⟩
    · cases none.symm.trans added

theorem Kept.allRight_iff (requests : List Request) {files : FileTable} {entries : OpenFiles} (kept : Kept files entries) :
    AllRight files requests ↔ MeetsAll files requests := by
  induction requests generalizing files entries with
  | nil => exact Iff.rfl
  | cons request rest ih =>
    obtain ⟨meets, numbers, files', entries', result, right, kept'⟩ | ⟨unmet, wrong⟩ :=
      kept.settled request.heap request.again request.call
    · constructor
      · rintro ⟨numbers₁, files₁, result₁, -, safe⟩
        cases result.symm.trans result₁
        refine ⟨meets, fun numbers₂ files₂ result₂ => ?_⟩
        cases result.symm.trans result₂
        exact (ih kept').mp safe
      · rintro ⟨-, later⟩
        exact ⟨numbers, files', result, right, (ih kept').mpr (later numbers files' result)⟩
    · constructor
      · rintro ⟨numbers, files', result, right, -⟩
        exact absurd right (wrong numbers files' result)
      · rintro ⟨meets, -⟩
        exact absurd meets unmet

/-- All through any run of calls on the table of a new process, whatever the heap answers to
each of them, every call does what it should and every access is inside the array, exactly if
no open descriptor is copied to a number beyond the table, and the table can grow where it
has to. -/
theorem lowest_free_iff (new : New files) (requests : List Request) : AllRight files requests ↔ MeetsAll files requests := by
  obtain ⟨entries, kept⟩ := new.kept
  exact kept.allRight_iff requests

end Runs

section Instances

/-- A heap that grants every array. -/
def tableHeap : ArrayHeap (Option FileDescriptor) := ⟨fun _ => true, fun _ => none⟩

/-- A heap that refuses every array. -/
def exhaustedHeap : ArrayHeap (Option FileDescriptor) := ⟨fun _ => false, fun _ => none⟩

/-- The table with one open file. -/
def oneOpen : FileTable := ⟨1#32, 2#32, some [some ⟨7, 0, 0#32⟩, none]⟩

theorem opens : perform tableHeap tableHeap (QList.empty tableHeap) (.openAtVNode 7 0#32) = some ([0], oneOpen) := rfl

/-- A file is opened and closed, and its number is given to the next one, from an exhausted heap too. -/
theorem number_used_again : AllRight (QList.empty tableHeap)
    [⟨.openAtVNode 7 0#32, tableHeap, tableHeap⟩, ⟨.close 0#32, exhaustedHeap, exhaustedHeap⟩,
      ⟨.openAtVNode 8 1#32, exhaustedHeap, exhaustedHeap⟩] := by
  have closes : perform exhaustedHeap exhaustedHeap oneOpen (.close 0#32) =
      some ([0], ⟨1#32, 2#32, some [none, none]⟩) := rfl
  refine (lowest_free_iff (.empty tableHeap) _).mpr ⟨fun _ => by decide, fun _ _ first => ?_⟩
  cases opens.symm.trans first
  refine ⟨trivial, fun _ _ second => ?_⟩
  cases closes.symm.trans second
  exact ⟨fun _ => by decide, fun _ _ _ => trivial⟩

/-- A descriptor is copied to a number that the table does not have yet. -/
theorem copied_beyond : New (QList.empty tableHeap) ∧ ¬AllRight (QList.empty tableHeap)
    [⟨.openAtVNode 7 0#32, tableHeap, tableHeap⟩, ⟨.dup2 0#32 5#32, tableHeap, tableHeap⟩] := by
  have outside : perform tableHeap tableHeap oneOpen (.dup2 0#32 5#32) = none := rfl
  refine ⟨.empty tableHeap, ?_⟩
  rintro ⟨_, _, first, -, _, _, second, -⟩
  cases opens.symm.trans first
  cases outside.symm.trans second

end Instances

end FluxOS.FileTable
