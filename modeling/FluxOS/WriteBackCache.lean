import Mathlib.Logic.Function.Basic

/-! A cache in front of a store that is written back late: an entry is made when its key is first asked for, changed
in memory, and stored when nobody uses it any more. -/
namespace FluxOS

/-- What is cached under a key: whether it has been changed, and how many use it. -/
structure CacheEntry (V : Type*) where
  value : V
  dirty : Bool
  uses : Nat

structure WriteBackCache (K V : Type*) where
  stored : K → V
  cached : K → Option (CacheEntry V)

namespace WriteBackCache

variable {K V : Type*} [DecidableEq K]

section Operations

variable (cache : WriteBackCache K V) (key : K)

def setEntry (entry : Option (CacheEntry V)) : WriteBackCache K V :=
  { cache with cached := Function.update cache.cached key entry }

/-- One use more of the entry, which is read when there is none. -/
def fetch : WriteBackCache K V :=
  let entry := (cache.cached key).getD ⟨cache.stored key, false, 0⟩
  cache.setEntry key (some { entry with uses := entry.uses + 1 })

def change (f : V → V) : WriteBackCache K V :=
  cache.setEntry key ((cache.cached key).map fun entry => { entry with value := f entry.value, dirty := true })

/-- The entry is stored if it was changed. -/
def writeBack (entry : CacheEntry V) : WriteBackCache K V :=
  if entry.dirty then { cache with stored := Function.update cache.stored key entry.value } else cache

/-- One use less; the last one writes the entry back. -/
def release : WriteBackCache K V :=
  (cache.cached key).elim cache fun entry =>
    if entry.uses = 1 then (cache.writeBack key entry).setEntry key none
    else cache.setEntry key (some { entry with uses := entry.uses - 1 })

/-- What the key stands for. -/
def view : V := (cache.cached key).elim (cache.stored key) CacheEntry.value

def uses : Nat := (cache.cached key).elim 0 CacheEntry.uses

end Operations

/-- What has not been changed is as it is stored, and what is cached is in use. -/
structure Consistent (cache : WriteBackCache K V) : Prop where
  clean : ∀ key entry, cache.cached key = some entry → entry.dirty = false → entry.value = cache.stored key
  used : ∀ key entry, cache.cached key = some entry → 0 < entry.uses

variable {cache : WriteBackCache K V} {key : K}

omit [DecidableEq K] in
theorem consistent_empty (empty : ∀ key, cache.cached key = none) : cache.Consistent :=
  ⟨fun key _ held => absurd ((empty key).symm.trans held) nofun,
    fun key _ held => absurd ((empty key).symm.trans held) nofun⟩

theorem cached_setEntry (cache : WriteBackCache K V) (key : K) (entry : Option (CacheEntry V)) (other : K) :
    (cache.setEntry key entry).cached other = if other = key then entry else cache.cached other :=
  Function.update_apply _ _ _ _

@[simp] theorem cached_writeBack (cache : WriteBackCache K V) (key : K) (entry : CacheEntry V) :
    (cache.writeBack key entry).cached = cache.cached := by
  rw [writeBack]
  split <;> rfl

@[simp] theorem stored_setEntry (cache : WriteBackCache K V) (key : K) (entry : Option (CacheEntry V)) :
    (cache.setEntry key entry).stored = cache.stored := rfl

theorem stored_writeBack (cache : WriteBackCache K V) (key : K) (entry : CacheEntry V) (other : K) :
    (cache.writeBack key entry).stored other =
      if other = key ∧ entry.dirty = true then entry.value else cache.stored other := by
  rw [writeBack]
  by_cases dirty : entry.dirty = true
  · rw [if_pos dirty]
    simp [dirty, Function.update_apply]
  · rw [if_neg dirty, if_neg fun both => dirty both.2]

/-- The entry that takes the place of a key, and the rest as it was. -/
theorem view_setEntry (cache : WriteBackCache K V) (key : K) (entry : CacheEntry V) :
    (cache.setEntry key (some entry)).view = Function.update cache.view key entry.value := by
  funext other
  rw [view, cached_setEntry, Function.update_apply]
  split <;> rfl

theorem uses_setEntry (cache : WriteBackCache K V) (key : K) (entry : Option (CacheEntry V)) :
    (cache.setEntry key entry).uses = Function.update cache.uses key (entry.elim 0 CacheEntry.uses) := by
  funext other
  rw [uses, cached_setEntry, Function.update_apply]
  split <;> rfl

theorem Consistent.setEntry (consistent : cache.Consistent) {entry : CacheEntry V} (uses : 0 < entry.uses)
    (clean : entry.dirty = false → entry.value = cache.stored key) : (cache.setEntry key (some entry)).Consistent := by
  refine ⟨fun other held here => ?_, fun other held here => ?_⟩
  · rw [cached_setEntry] at here
    split at here
    · rename_i same
      cases here
      rw [same]
      exact clean
    · exact consistent.clean other held here
  · rw [cached_setEntry] at here
    split at here
    · cases here
      exact uses
    · exact consistent.used other held here

/-! ## Each operation on the plain store -/

theorem Consistent.fetch (consistent : cache.Consistent) (key : K) : (cache.fetch key).Consistent := by
  refine consistent.setEntry (Nat.succ_pos _) fun clean => ?_
  cases here : cache.cached key with
  | none => rw [Option.getD_none]
  | some entry =>
    rw [here, Option.getD_some] at clean
    exact consistent.clean key entry here clean

theorem view_fetch (cache : WriteBackCache K V) (key : K) : (cache.fetch key).view = cache.view := by
  rw [fetch, view_setEntry]
  refine Function.update_eq_self_iff.mpr ?_
  rw [view]
  cases cache.cached key <;> rfl

theorem uses_fetch (cache : WriteBackCache K V) (key : K) :
    (cache.fetch key).uses = Function.update cache.uses key (cache.uses key + 1) := by
  rw [fetch, uses_setEntry]
  congr 1
  rw [uses]
  cases cache.cached key <;> rfl

omit [DecidableEq K] in
/-- A key that is in use has its entry. -/
theorem cached_of_uses (used : cache.uses key ≠ 0) : ∃ entry, cache.cached key = some entry ∧
    cache.uses key = entry.uses ∧ cache.view key = entry.value := by
  cases here : cache.cached key with
  | none => exact absurd (by rw [uses, here]; rfl) used
  | some entry => exact ⟨entry, rfl, by rw [uses, here]; rfl, by rw [view, here]; rfl⟩

theorem Consistent.change (consistent : cache.Consistent) (used : cache.uses key ≠ 0) (f : V → V) :
    (cache.change key f).Consistent := by
  obtain ⟨entry, here, count, -⟩ := cached_of_uses used
  rw [WriteBackCache.change, here, Option.map_some]
  exact consistent.setEntry (Nat.pos_of_ne_zero (count ▸ used)) fun clean => by cases clean

theorem view_change (used : cache.uses key ≠ 0) (f : V → V) :
    (cache.change key f).view = Function.update cache.view key (f (cache.view key)) := by
  obtain ⟨entry, here, -, value⟩ := cached_of_uses used
  rw [change, here, Option.map_some, view_setEntry, value]

theorem uses_change (cache : WriteBackCache K V) (key : K) (f : V → V) : (cache.change key f).uses = cache.uses := by
  rw [change, uses_setEntry]
  refine Function.update_eq_self_iff.mpr ?_
  rw [uses]
  cases cache.cached key <;> rfl

/-- The last use, or one of several. -/
theorem release_cases (used : cache.uses key ≠ 0) : ∃ entry, cache.cached key = some entry ∧
    (cache.uses key = 1 ∧ cache.release key = (cache.writeBack key entry).setEntry key none ∨
      1 < cache.uses key ∧ cache.release key = cache.setEntry key (some { entry with uses := entry.uses - 1 })) := by
  obtain ⟨entry, here, count, -⟩ := cached_of_uses used
  refine ⟨entry, here, ?_⟩
  rw [release, here, Option.elim_some, ← count]
  by_cases last : cache.uses key = 1
  · exact .inl ⟨last, if_pos last⟩
  · exact .inr ⟨by omega, if_neg last⟩

/-- What is written back is what the key stands for. -/
theorem Consistent.stored_release (consistent : cache.Consistent) {entry : CacheEntry V}
    (here : cache.cached key = some entry) (other : K) :
    (cache.writeBack key entry).stored other = if other = key then cache.view key else cache.stored other := by
  rw [stored_writeBack]
  have value : cache.view key = entry.value := by
    rw [view, here]
    rfl
  by_cases same : other = key
  · by_cases dirty : entry.dirty = true
    · rw [if_pos ⟨same, dirty⟩, if_pos same, value]
    · rw [if_neg fun both => dirty both.2, if_pos same, value, same]
      exact (consistent.clean key entry here (Bool.eq_false_iff.mpr dirty)).symm
  · rw [if_neg fun both => same both.1, if_neg same]

theorem Consistent.release (consistent : cache.Consistent) (used : cache.uses key ≠ 0) :
    (cache.release key).Consistent := by
  obtain ⟨entry, here, ⟨-, released⟩ | ⟨more, released⟩⟩ := release_cases used
  · rw [released]
    refine ⟨fun other held there clean => ?_, fun other held there => ?_⟩
    · rw [cached_setEntry, cached_writeBack] at there
      split at there
      · cases there
      · rename_i different
        rw [stored_setEntry, consistent.stored_release here, if_neg different]
        exact consistent.clean other held there clean
    · rw [cached_setEntry, cached_writeBack] at there
      split at there
      · cases there
      · exact consistent.used other held there
  · rw [released]
    rw [uses, here, Option.elim_some] at more
    exact consistent.setEntry (Nat.sub_pos_of_lt more) (consistent.clean key entry here)

theorem Consistent.view_release (consistent : cache.Consistent) (used : cache.uses key ≠ 0) :
    (cache.release key).view = cache.view := by
  obtain ⟨entry, here, ⟨-, released⟩ | ⟨-, released⟩⟩ := release_cases used
  · rw [released]
    funext other
    rw [view, cached_setEntry, cached_writeBack, stored_setEntry, consistent.stored_release here]
    split
    · rename_i same
      rw [same]
      rfl
    · rfl
  · rw [released, view_setEntry]
    refine Function.update_eq_self_iff.mpr ?_
    rw [view, here]
    rfl

theorem uses_release (used : cache.uses key ≠ 0) :
    (cache.release key).uses = Function.update cache.uses key (cache.uses key - 1) := by
  obtain ⟨entry, here, ⟨last, released⟩ | ⟨-, released⟩⟩ := release_cases used
  · have unchanged : (cache.writeBack key entry).uses = cache.uses := by
      funext other
      rw [uses, cached_writeBack]
      rfl
    rw [released, uses_setEntry, unchanged, last]
    rfl
  · rw [released, uses_setEntry, uses, here]
    rfl

omit [DecidableEq K] in
/-- What nobody uses is stored. -/
theorem stored_of_unused (consistent : cache.Consistent) (unused : cache.uses key = 0) :
    cache.cached key = none ∧ cache.stored key = cache.view key := by
  cases here : cache.cached key with
  | none => exact ⟨rfl, by rw [view, here]; rfl⟩
  | some entry =>
    have used := consistent.used key entry here
    rw [uses, here, Option.elim_some] at unused
    omega

end WriteBackCache
end FluxOS
