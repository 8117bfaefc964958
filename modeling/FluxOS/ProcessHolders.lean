import FluxOS.ProcessTable

/-! The reference count of a process is the number of its holders, in every run
of `fork`, `getProcess`, `putProcess`, `exit` and `removePid`. While a call is
under way, references held in its local variables are counted apart. -/
namespace FluxOS.ProcessTable
open LinkedPointers

/-- The pointers of processes that are in the table. -/
def ofListed (processes : Nat → Bool) (pointer : Nat → Option Nat) (p : Nat) : Option Nat :=
  if processes p then pointer p else none

/-- The threads that hold their process: the first process gave its thread no reference. -/
def ofThreads (parentProcess : Nat → Option Nat) (thread : Nat) : Option Nat :=
  if thread = 1 then none else parentProcess thread

def entry (processes : Nat → Bool) (q : Nat) : Int := if processes q then 1 else 0

/-- The holders of a process: its entry in the table, the list's head or the
`next` of the process before it, the `prev` of the process after it, its
children, its thread, and the references handed out. -/
def holders (s : ProcessTable) (q : Nat) : Int :=
  entry s.processes q + points s.firstProcess q +
    pointersTo (s.lastUsedPID + 1) (ofListed s.processes s.next) q +
    pointersTo (s.lastUsedPID + 1) (ofListed s.processes s.prev) q +
    pointersTo (s.lastUsedPID + 1) s.parent q + pointersTo (s.lastUsedPID + 1) (ofThreads s.parentProcess) q +
    s.references q

/-- Every count is the number of holders and of references in local variables,
and exactly the processes without any are freed. -/
def Counted (s : ProcessTable) (extra : Nat → Int) : Prop :=
  ∀ q, (s.allocated q = true ∧ 0 < s.holders q + extra q ∧ s.refCount q = s.holders q + extra q) ∨
    (s.allocated q = false ∧ s.holders q + extra q = 0)

section Holders

variable {s s' : ProcessTable} {extra extra' : Nat → Int} {p q : Nat}

theorem entry_nonneg (processes : Nat → Bool) (q : Nat) : 0 ≤ entry processes q := by
  unfold entry
  split <;> decide

theorem entry_unlist {processes : Nat → Bool} (isListed : processes p = true) (q : Nat) :
    entry (Function.update processes p false) q = entry processes q - points (some p) q := by
  by_cases here : q = p
  · rw [here, points_self, entry, entry, Function.update_self, isListed]
    decide
  · rw [points_of_ne (Ne.symm here), entry, entry, Function.update_of_ne here, Int.sub_zero]

theorem entry_create {processes : Nat → Bool} (fresh : processes p = false) (q : Nat) :
    entry (Function.update processes p true) q = entry processes q + points (some p) q := by
  by_cases here : q = p
  · rw [here, points_self, entry, entry, Function.update_self, fresh]
    decide
  · rw [points_of_ne (Ne.symm here), entry, entry, Function.update_of_ne here, Int.add_zero]

theorem ofListed_update {processes : Nat → Bool} (isListed : processes p = true) (pointer : Nat → Option Nat)
    (value : Option Nat) : ofListed processes (Function.update pointer p value) =
      Function.update (ofListed processes pointer) p value := by
  funext i
  by_cases here : i = p
  · rw [here, Function.update_self, ofListed, if_pos isListed, Function.update_self]
  · rw [Function.update_of_ne here, ofListed, ofListed, Function.update_of_ne here]

theorem ofListed_unlist (processes : Nat → Bool) (p : Nat) (pointer : Nat → Option Nat) :
    ofListed (Function.update processes p false) pointer = Function.update (ofListed processes pointer) p none := by
  funext i
  by_cases here : i = p
  · rw [here, Function.update_self, ofListed, Function.update_self]
    exact if_neg Bool.false_ne_true
  · rw [Function.update_of_ne here, ofListed, ofListed, Function.update_of_ne here]

theorem ofListed_create (processes : Nat → Bool) (pid : Nat) (pointer : Nat → Option Nat) (value : Option Nat) :
    ofListed (Function.update processes pid true) (Function.update pointer pid value) =
      Function.update (ofListed processes pointer) pid value := by
  funext i
  by_cases here : i = pid
  · rw [here, Function.update_self, ofListed, Function.update_self, Function.update_self]
    exact if_pos rfl
  · rw [Function.update_of_ne here, ofListed, ofListed, Function.update_of_ne here, Function.update_of_ne here]

theorem ofThreads_update {thread : Nat} (other : thread ≠ 1) (parentProcess : Nat → Option Nat) (value : Option Nat) :
    ofThreads (Function.update parentProcess thread value) = Function.update (ofThreads parentProcess) thread value := by
  funext i
  by_cases here : i = thread
  · rw [here, Function.update_self, ofThreads, if_neg other, Function.update_self]
  · rw [Function.update_of_ne here, ofThreads, ofThreads, Function.update_of_ne here]

theorem holds_le_holders {i j k t : Nat} (iOld : i ≤ s.lastUsedPID) (jOld : j ≤ s.lastUsedPID)
    (kOld : k ≤ s.lastUsedPID) (tOld : t ≤ s.lastUsedPID) (q : Nat) :
    entry s.processes q + points (ofListed s.processes s.next i) q + points (ofListed s.processes s.prev j) q +
      points (s.parent k) q + points (ofThreads s.parentProcess t) q +
      s.references q ≤ s.holders q := by
  have head := points_nonneg s.firstProcess q
  have next := points_le_pointersTo (Nat.lt_add_one_of_le iOld) (ofListed s.processes s.next) q
  have prev := points_le_pointersTo (Nat.lt_add_one_of_le jOld) (ofListed s.processes s.prev) q
  have parent := points_le_pointersTo (Nat.lt_add_one_of_le kOld) s.parent q
  have thread := points_le_pointersTo (Nat.lt_add_one_of_le tOld) (ofThreads s.parentProcess) q
  unfold holders
  omega

/-- The place in the list of processes is one of the places. -/
theorem entry_le_holders (s : ProcessTable) (q : Nat) : entry s.processes q ≤ s.holders q := by
  have head := points_nonneg s.firstProcess q
  have next := pointersTo_nonneg (s.lastUsedPID + 1) (ofListed s.processes s.next) q
  have prev := pointersTo_nonneg (s.lastUsedPID + 1) (ofListed s.processes s.prev) q
  have parent := pointersTo_nonneg (s.lastUsedPID + 1) s.parent q
  have thread := pointersTo_nonneg (s.lastUsedPID + 1) (ofThreads s.parentProcess) q
  unfold holders
  omega

theorem holders_nonneg (s : ProcessTable) (q : Nat) : 0 ≤ s.holders q :=
  Int.le_trans (entry_nonneg s.processes q) (entry_le_holders s q)

theorem holders_pos_of_listed (isListed : s.processes q = true) : 0 < s.holders q := by
  have listed : entry s.processes q = 1 := if_pos isListed
  have bound := entry_le_holders s q
  omega

@[simp] theorem holders_drop (s : ProcessTable) (p q : Nat) : (s.drop p).holders q = s.holders q := by
  simp only [holders, processes_drop, firstProcess_drop, lastUsedPID_drop, parent_drop, prev_drop, next_drop,
    parentProcess_drop, references_drop]

theorem allocated_drop (s : ProcessTable) (p q : Nat) :
    (s.drop p).allocated q = if q = p ∧ s.refCount p - 1 = 0 then false else s.allocated q := by
  by_cases last : s.refCount p - 1 = 0 <;> by_cases here : q = p <;>
    simp [drop, last, here, Function.update_of_ne]

theorem refCount_drop (s : ProcessTable) (p q : Nat) :
    (s.drop p).refCount q = if q = p then s.refCount p - 1 else s.refCount q := by
  by_cases last : s.refCount p - 1 = 0 <;> by_cases here : q = p <;>
    simp [drop, last, here, Function.update_of_ne]

/-- From `s` to `s'` a process loses at most the given number of references, and
is not freed while it has more than those. -/
def Costs (s s' : ProcessTable) (drops : Nat → Int) : Prop :=
  ∀ q left, 0 ≤ left → s.allocated q = true → left + drops q < s.refCount q →
    s'.allocated q = true ∧ left < s'.refCount q

theorem Costs.trans {s'' : ProcessTable} {drops drops' : Nat → Int} (first : s.Costs s' drops)
    (second : s'.Costs s'' drops') (positive : ∀ q, 0 ≤ drops' q) : s.Costs s'' (drops + drops') := by
  intro q left enough live more
  rw [Pi.add_apply] at more
  have laterDrops := positive q
  obtain ⟨live', more'⟩ := first q (left + drops' q) (by omega) live (by omega)
  exact second q left enough live' more'

theorem Costs.mono {drops drops' : Nat → Int} (costs : s.Costs s' drops) (more : ∀ q, drops q ≤ drops' q) :
    s.Costs s' drops' := fun q left enough live kept => costs q left enough live (by have := more q; omega)

theorem costs_of_same (memory : s'.allocated = s.allocated) (counts : s'.refCount = s.refCount) : s.Costs s' 0 := by
  intro q left _ live more
  rw [memory, counts]
  rw [Pi.zero_apply] at more
  exact ⟨live, by omega⟩

theorem costs_bump (s : ProcessTable) (p : Nat) : s.Costs (s.bump p) (-points (some p)) := by
  intro q left _ live more
  rw [Pi.neg_apply] at more
  refine ⟨live, ?_⟩
  by_cases here : q = p
  · have written : (s.bump p).refCount q = s.refCount q + 1 := by
      rw [here]
      exact Function.update_self p _ s.refCount
    have self : points (some p) q = 1 := points_eq_one_iff.mpr (by rw [here])
    omega
  · have written : (s.bump p).refCount q = s.refCount q := Function.update_of_ne here _ _
    rw [points_of_ne (Ne.symm here)] at more
    omega

/-- A step that takes references only. -/
theorem costs_bump_zero (s : ProcessTable) (p : Nat) : s.Costs (s.bump p) 0 :=
  (costs_bump s p).mono fun q => by
    have one := points_nonneg (some p) q
    simp only [Pi.neg_apply, Pi.zero_apply]
    omega

theorem costs_drop (s : ProcessTable) (p : Nat) : s.Costs (s.drop p) (points (some p)) := by
  intro q left enough live more
  rw [allocated_drop, refCount_drop]
  by_cases here : q = p
  · rw [here, points_self] at more
    have survives : ¬(q = p ∧ s.refCount p - 1 = 0) := fun both => by omega
    rw [if_neg survives, if_pos here]
    exact ⟨live, by omega⟩
  · rw [points_of_ne (Ne.symm here)] at more
    rw [if_neg fun both => here both.1, if_neg here]
    exact ⟨live, by omega⟩

theorem costs_create {parent first : Nat} (fresh : s.allocated (s.lastUsedPID + 1) = false) :
    s.Costs (s.create parent first) 0 := by
  intro q left _ live more
  have other : q ≠ s.lastUsedPID + 1 := by
    rintro rfl
    rw [fresh] at live
    cases live
  have count : (s.create parent first).refCount q = s.refCount q := Function.update_of_ne other _ _
  have memory : (s.create parent first).allocated q = s.allocated q := Function.update_of_ne other _ _
  rw [Pi.zero_apply] at more
  rw [memory, count]
  exact ⟨live, by omega⟩

namespace Counted

theorem allocated_iff (counted : s.Counted extra) : s.allocated q = true ↔ 0 < s.holders q + extra q := by
  rcases counted q with ⟨live, held, _⟩ | ⟨freed, none⟩
  · exact iff_of_true live held
  · rw [freed, none]
    decide

theorem refCount_eq (counted : s.Counted extra) (live : s.allocated q = true) :
    s.refCount q = s.holders q + extra q := by
  rcases counted q with ⟨_, _, count⟩ | ⟨freed, _⟩
  · exact count
  · rw [freed] at live
    cases live

theorem allocated_of_listed (counted : s.Counted extra) (isListed : s.processes q = true) (kept : 0 ≤ extra q) :
    s.allocated q = true := by
  have held := holders_pos_of_listed isListed
  exact counted.allocated_iff.mpr (by omega)

/-- One of its two references, from the table and from the process before it, may be borrowed. -/
theorem allocated_of_next (counted : s.Counted extra) (isListed : s.processes q = true) (front : s.processes p = true)
    (old : p ≤ s.lastUsedPID) (link : s.next p = some q) (kept : -1 ≤ extra q) : s.allocated q = true := by
  have held := holds_le_holders old (Nat.zero_le _) (Nat.zero_le _) (Nat.zero_le s.lastUsedPID) q
  have listed : entry s.processes q = 1 := if_pos isListed
  have next : ofListed s.processes s.next p = some q := (if_pos front).trans link
  have prev := points_nonneg (ofListed s.processes s.prev 0) q
  have parent := points_nonneg (s.parent 0) q
  have thread := points_nonneg (ofThreads s.parentProcess 0) q
  rw [next, points_self] at held
  exact counted.allocated_iff.mpr (by omega)

theorem allocated_of_parent (counted : s.Counted extra) (old : p ≤ s.lastUsedPID) (link : s.parent p = some q)
    (kept : 0 ≤ extra q) : s.allocated q = true := by
  have held := holds_le_holders (Nat.zero_le _) (Nat.zero_le _) old (Nat.zero_le s.lastUsedPID) q
  have listed := entry_nonneg s.processes q
  have next := points_nonneg (ofListed s.processes s.next 0) q
  have prev := points_nonneg (ofListed s.processes s.prev 0) q
  have thread := points_nonneg (ofThreads s.parentProcess 0) q
  rw [link, points_self] at held
  exact counted.allocated_iff.mpr (by omega)

/-- Moving pointers, where neither a count nor the memory changes. -/
theorem moved (counted : s.Counted extra) (memory : s'.allocated = s.allocated) (counts : s'.refCount = s.refCount)
    (same : ∀ q, s'.holders q + extra' q = s.holders q + extra q) : s'.Counted extra' := by
  intro q
  rw [memory, counts, same]
  exact counted q

theorem congr (counted : s.Counted extra) (same : ∀ q, extra' q = extra q) : s.Counted extra' :=
  counted.moved rfl rfl fun q => by rw [same q]

theorem bump (counted : s.Counted extra) (live : s.allocated p = true) :
    (s.bump p).Counted (extra + points (some p)) := by
  intro q
  have held : (s.bump p).holders q = s.holders q := rfl
  rw [held, Pi.add_apply]
  by_cases here : q = p
  · have positive := counted.allocated_iff.mp live
    have count := counted.refCount_eq live
    have written : (s.bump p).refCount p = s.refCount p + 1 := Function.update_self p _ s.refCount
    rw [here, points_self, written]
    exact .inl ⟨live, by omega, by omega⟩
  · have written : (s.bump p).refCount q = s.refCount q := Function.update_of_ne here _ s.refCount
    rw [points_of_ne (Ne.symm here), Int.add_zero, written]
    exact counted q

theorem drop (counted : s.Counted extra) (live : s.allocated p = true) :
    (s.drop p).Counted (extra - points (some p)) := by
  intro q
  rw [holders_drop, allocated_drop, refCount_drop, Pi.sub_apply]
  by_cases here : q = p
  · have positive := counted.allocated_iff.mp live
    have count := counted.refCount_eq live
    rw [here, points_self, if_pos rfl]
    by_cases last : s.refCount p - 1 = 0
    · exact .inr ⟨if_pos ⟨rfl, last⟩, by omega⟩
    · exact .inl ⟨by rw [if_neg fun both => last both.2, live], by omega, by omega⟩
  · rw [points_of_ne (Ne.symm here), Int.sub_zero, if_neg here, if_neg fun both => here both.1]
    exact counted q

theorem setFirst (counted : s.Counted extra) (value : Option Nat) :
    (s.setFirst value).Counted (extra + points s.firstProcess - points value) := by
  refine counted.moved rfl rfl fun q => ?_
  simp only [holders, ProcessTable.setFirst, Pi.add_apply, Pi.sub_apply]
  omega

theorem setNext (counted : s.Counted extra) (isListed : s.processes p = true) (old : p ≤ s.lastUsedPID)
    (value : Option Nat) : (s.setNext p value).Counted (extra + points (s.next p) - points value) := by
  refine counted.moved rfl rfl fun q => ?_
  have written := pointersTo_update (Nat.lt_add_one_of_le old) (ofListed s.processes s.next) value q
  have before : ofListed s.processes s.next p = s.next p := if_pos isListed
  rw [before] at written
  simp only [holders, ProcessTable.setNext, ofListed_update isListed, Pi.add_apply, Pi.sub_apply]
  omega

theorem setPrev (counted : s.Counted extra) (isListed : s.processes p = true) (old : p ≤ s.lastUsedPID)
    (value : Option Nat) : (s.setPrev p value).Counted (extra + points (s.prev p) - points value) := by
  refine counted.moved rfl rfl fun q => ?_
  have written := pointersTo_update (Nat.lt_add_one_of_le old) (ofListed s.processes s.prev) value q
  have before : ofListed s.processes s.prev p = s.prev p := if_pos isListed
  rw [before] at written
  simp only [holders, ProcessTable.setPrev, ofListed_update isListed, Pi.add_apply, Pi.sub_apply]
  omega

theorem setParent (counted : s.Counted extra) (old : p ≤ s.lastUsedPID) (value : Option Nat) :
    (s.setParent p value).Counted (extra + points (s.parent p) - points value) := by
  refine counted.moved rfl rfl fun q => ?_
  have written := pointersTo_update (Nat.lt_add_one_of_le old) s.parent value q
  simp only [holders, ProcessTable.setParent, Pi.add_apply, Pi.sub_apply]
  omega

theorem setThread {thread : Nat} (counted : s.Counted extra) (other : thread ≠ 1) (old : thread ≤ s.lastUsedPID)
    (value : Option Nat) :
    (s.setThread thread value).Counted (extra + points (s.parentProcess thread) - points value) := by
  refine counted.moved rfl rfl fun q => ?_
  have written := pointersTo_update (Nat.lt_add_one_of_le old) (ofThreads s.parentProcess) value q
  have before : ofThreads s.parentProcess thread = s.parentProcess thread := if_neg other
  rw [before] at written
  simp only [holders, ProcessTable.setThread, ofThreads_update other, Pi.add_apply, Pi.sub_apply]
  omega

/-- A process that leaves the table leaves its entry and its two pointers. -/
theorem unlist (counted : s.Counted extra) (isListed : s.processes p = true) (old : p ≤ s.lastUsedPID) :
    (s.unlist p).Counted (extra + points (some p) + points (s.next p) + points (s.prev p)) := by
  refine counted.moved rfl rfl fun q => ?_
  have inside := Nat.lt_add_one_of_le old
  have nextWritten := pointersTo_update inside (ofListed s.processes s.next) none q
  have prevWritten := pointersTo_update inside (ofListed s.processes s.prev) none q
  have before (pointer : Nat → Option Nat) : ofListed s.processes pointer p = pointer p := if_pos isListed
  have listed := entry_unlist isListed q
  rw [before, points_none] at nextWritten prevWritten
  simp only [holders, ProcessTable.unlist, ofListed_unlist, listed, Pi.add_apply]
  omega

/-- A process that `NewProcess` makes has one reference more than its entry and
the list's head, for the `prev` that is written next. -/
theorem create {parent first : Nat} (counted : s.Counted extra) (head : s.firstProcess = some first)
    (fresh : s.allocated (s.lastUsedPID + 1) = false) (unlisted : s.processes (s.lastUsedPID + 1) = false)
    (older : parent ≤ s.lastUsedPID)
    (unthreaded : s.parentProcess (s.lastUsedPID + 1) = none) :
    (s.create parent first).Counted (extra - points (some parent) + points (some (s.lastUsedPID + 1))) := by
  have thread : ofThreads s.parentProcess (s.lastUsedPID + 1) = none := by
    rw [ofThreads, unthreaded]
    split <;> rfl
  have held (q : Nat) : (s.create parent first).holders q =
      s.holders q + 2 * points (some (s.lastUsedPID + 1)) q + points (some parent) q := by
    have listed := entry_create unlisted q
    simp only [holders, ProcessTable.create, ofListed_create, pointersTo_grow, head, listed,
      pointersTo_succ _ (ofThreads _), thread, points_none]
    omega
  intro q
  rw [held, Pi.add_apply, Pi.sub_apply]
  by_cases here : q = s.lastUsedPID + 1
  · have nothing : s.holders q + extra q = 0 := by
      rcases counted q with ⟨live, _⟩ | ⟨_, none⟩
      · rw [here, fresh] at live
        cases live
      · exact none
    have parentOther : points (some parent) q = 0 := points_of_ne (by omega)
    have live : (s.create parent first).allocated q = true := by
      rw [here]
      exact Function.update_self _ _ _
    have count : (s.create parent first).refCount q = 3 := by
      rw [here]
      exact Function.update_self _ _ _
    have self : points (some (s.lastUsedPID + 1)) q = 1 := points_eq_one_iff.mpr (by rw [here])
    exact .inl ⟨live, by omega, by omega⟩
  · have other := points_of_ne (Ne.symm here)
    have memory : (s.create parent first).allocated q = s.allocated q := Function.update_of_ne here _ _
    have count : (s.create parent first).refCount q = s.refCount q := Function.update_of_ne here _ _
    rw [memory, count, other]
    rcases counted q with ⟨live, positive, count⟩ | ⟨freed, none⟩
    · exact .inl ⟨live, by omega, by omega⟩
    · exact .inr ⟨freed, by omega⟩

end Counted

end Holders

end FluxOS.ProcessTable
