import FluxOS.PagingSoundness

/-! Changing the flags of the pages of a region, which write protects a process
before it is forked. The loop over the directory ends before the entry in which
the region ends, so whatever lies behind that entry keeps its flags. -/
namespace FluxOS.PagingManager
open Words

/-- A call of `changeRegionFlags`. -/
structure FlagChange where
  virtAddr : Word
  len : Word
  setBits : Word
  resetBits : Word
  conditionMask : Word
  updatePageDirectory : Bool

namespace FlagChange
variable (c : FlagChange)

def firstIndex : Nat := addrToPageDirIndex c.virtAddr

def lastIndex : Nat := addrToPageDirIndex (c.virtAddr + c.len - 1)

/-- The first entry of table `i` that the inner loop comes to. -/
def startIndex (i : Nat) : Nat :=
  if i = addrToPageDirIndex c.virtAddr then addrToPageTableIndex c.virtAddr else 0

/-- The entry of table `i` before which the inner loop ends. -/
def endIndex (i : Nat) : Nat :=
  if i = addrToPageDirIndex (c.virtAddr + c.len) then addrToPageTableIndex (c.virtAddr + c.len - 1) else 1024

def change (entry : Word) : Word := changeFlags c.setBits c.resetBits c.conditionMask entry

/-- Directory entry `i` when the table behind it is changed. -/
def dirEntry (p : Paging) (i : Nat) : Word :=
  if c.updatePageDirectory then c.change (p.pageDir i) else p.pageDir i

/-- One round of the outer loop. There is no result when the round takes the
table at hand out of the directory before it reads it: the kernel takes a page
fault. -/
def round (p : Paging) (i : Nat) : Option Paging :=
  if has (p.pageDir i) present ∧ c.startIndex i < c.endIndex i ∧ ¬ has (c.dirEntry p i) present then none
  else some (changeTableFlags c.virtAddr c.len c.setBits c.resetBits c.conditionMask c.updatePageDirectory p i)

/-- `changeRegionFlags`, with the page faults it can take. -/
def run (p : Paging) : Option Paging :=
  (List.range' c.firstIndex (c.lastIndex - c.firstIndex)).foldlM c.round p

/-- A call without a page fault does what `changeRegionFlags` does. -/
theorem run_eq_changeRegionFlags {p after : Paging} (finished : c.run p = some after) :
    after = changeRegionFlags p c.virtAddr c.len c.setBits c.resetBits c.conditionMask c.updatePageDirectory := by
  suffices loop : ∀ (indices : List Nat) (q : Paging), indices.foldlM c.round q = some after →
      after = indices.foldl (changeTableFlags c.virtAddr c.len c.setBits c.resetBits c.conditionMask
        c.updatePageDirectory) q from loop _ p finished
  intro indices
  induction indices with
  | nil =>
    intro q same
    exact (Option.some.inj same).symm
  | cons i indices ih =>
    intro q rounds
    rw [List.foldlM_cons, round] at rounds
    split at rounds
    · cases rounds
    · exact ih _ rounds

/-! ## One round -/

/-- The inner loop comes to entry `ti` of the table behind directory entry `i`. -/
def Comes (p : Paging) (i ti : Nat) : Prop :=
  has (p.pageDir i) present ∧ c.startIndex i ≤ ti ∧ ti < c.endIndex i

/-- What a round that takes no page fault leaves behind. -/
structure Changed (p after : Paging) (i : Nat) : Prop where
  pageDir : ∀ k, k ≠ i → after.pageDir k = p.pageDir k
  changed : ∀ table ti, c.Comes p i ti → page (c.dirEntry p i) = table →
    after.tables table ti = c.change (p.tables table ti)
  kept : ∀ table ti, ¬ (c.Comes p i ti ∧ page (c.dirEntry p i) = table) →
    after.tables table ti = p.tables table ti

theorem changeTableFlags_changed (p : Paging) {i : Nat} (below : i < 1023) :
    c.Changed p (changeTableFlags c.virtAddr c.len c.setBits c.resetBits c.conditionMask c.updatePageDirectory p i)
      i := by
  have window : ∀ q : Paging, ∀ table, setPageTable q i table =
      { q with tables := Function.update q.tables (page (q.pageDir i)) table } :=
    fun q table => if_neg (Nat.ne_of_lt below)
  have directory : ∀ q : Paging, pageTable q i = q.tables (page (q.pageDir i)) :=
    fun q => if_neg (Nat.ne_of_lt below)
  -- the directory after the update, whose entry the window goes through
  obtain ⟨q, updated⟩ : ∃ q, q = if c.updatePageDirectory then setDirEntry p i (c.change (p.pageDir i)) else p :=
    ⟨_, rfl⟩
  have tables : q.tables = p.tables := by
    rw [updated]
    split <;> rfl
  have own : q.pageDir i = c.dirEntry p i := by
    rw [updated, dirEntry]
    split
    · exact Function.update_self ..
    · rfl
  have others : ∀ k, k ≠ i → q.pageDir k = p.pageDir k := by
    intro k other
    rw [updated]
    split
    · exact Function.update_of_ne other ..
    · rfl
  have round : changeTableFlags c.virtAddr c.len c.setBits c.resetBits c.conditionMask c.updatePageDirectory p i =
      if has (p.pageDir i) present then setPageTable q i fun j =>
        if c.startIndex i ≤ j ∧ j < c.endIndex i then c.change (pageTable q i j) else pageTable q i j
      else q := by
    rw [updated]
    rfl
  rw [round]
  by_cases there : has (p.pageDir i) present
  · rw [if_pos there, window, directory, own, tables]
    refine ⟨others, fun table ti comes same => ?_, fun table ti spared => ?_⟩
    · rw [← same]
      simp only [Function.update_self]
      rw [if_pos comes.2]
    · by_cases same : page (c.dirEntry p i) = table
      · have outside : ¬ (c.startIndex i ≤ ti ∧ ti < c.endIndex i) := fun within => spared ⟨⟨there, within⟩, same⟩
        rw [← same]
        simp only [Function.update_self]
        rw [if_neg outside]
      · simp only [Function.update_of_ne (Ne.symm same)]
  · rw [if_neg there]
    exact ⟨others, fun _ _ comes => absurd comes.1 there, fun _ _ _ => by rw [tables]⟩

/-- What one round does: it takes a page fault, or it comes through. -/
theorem round_cases (p : Paging) {i : Nat} (below : i < 1023) :
    (c.round p i = none ∧ ∃ ti, c.Comes p i ti ∧ ¬ has (c.dirEntry p i) present) ∨
      ∃ after, c.round p i = some after ∧ (∀ ti, c.Comes p i ti → has (c.dirEntry p i) present) ∧
        c.Changed p after i := by
  rw [round]
  by_cases faults : has (p.pageDir i) present ∧ c.startIndex i < c.endIndex i ∧ ¬ has (c.dirEntry p i) present
  · rw [if_pos faults]
    exact .inl ⟨rfl, c.startIndex i, ⟨faults.1, Nat.le_refl _, faults.2.1⟩, faults.2.2⟩
  · rw [if_neg faults]
    refine .inr ⟨_, rfl, fun ti comes => ?_, c.changeTableFlags_changed p below⟩
    by_contra missing
    exact faults ⟨comes.1, Nat.lt_of_le_of_lt comes.2.1 comes.2.2, missing⟩

/-! ## The whole loop -/

theorem change_of_has {entry : Word} (masked : has entry c.conditionMask) :
    c.change entry = entry &&& ~~~c.resetBits ||| c.setBits := if_pos masked

theorem change_of_not {entry : Word} (spared : ¬ has entry c.conditionMask) : c.change entry = entry := if_neg spared

/-- Changing an entry twice changes it once. -/
theorem change_change (entry : Word) : c.change (c.change entry) = c.change entry := by
  by_cases again : has (c.change entry) c.conditionMask
  · by_cases masked : has entry c.conditionMask
    · rw [c.change_of_has again, c.change_of_has masked]
      apply BitVec.eq_of_getLsbD_eq
      intro k bound
      simp only [BitVec.getLsbD_or, BitVec.getLsbD_and, BitVec.getLsbD_not]
      cases entry.getLsbD k <;> cases c.resetBits.getLsbD k <;> cases c.setBits.getLsbD k <;> simp
    · rw [c.change_of_not masked, c.change_of_not masked]
  · exact c.change_of_not again

/-- Some round from `first` on comes to the entry of the table. -/
def Reached (p : Paging) (first count table ti : Nat) : Prop :=
  ∃ i, first ≤ i ∧ i < first + count ∧ c.Comes p i ti ∧ page (c.dirEntry p i) = table

/-- Every table that a round comes to is still in the directory. -/
def StayOpen (p : Paging) (first count : Nat) : Prop :=
  ∀ i ti, first ≤ i → i < first + count → c.Comes p i ti → has (c.dirEntry p i) present

theorem comes_congr {p q : Paging} {i : Nat} (same : q.pageDir i = p.pageDir i) (ti : Nat) :
    c.Comes q i ti ↔ c.Comes p i ti := by
  simp only [Comes, same]

theorem dirEntry_congr {p q : Paging} {i : Nat} (same : q.pageDir i = p.pageDir i) :
    c.dirEntry q i = c.dirEntry p i := by
  simp only [dirEntry, same]

theorem rounds_cases (count : Nat) : ∀ first (p : Paging), first + count ≤ 1023 →
    ((List.range' first count).foldlM c.round p = none ∧ ¬ c.StayOpen p first count) ∨
      ∃ after, (List.range' first count).foldlM c.round p = some after ∧ c.StayOpen p first count ∧
        (∀ table ti, c.Reached p first count table ti → after.tables table ti = c.change (p.tables table ti)) ∧
        ∀ table ti, ¬ c.Reached p first count table ti → after.tables table ti = p.tables table ti := by
  induction count with
  | zero =>
    intro first p bound
    refine .inr ⟨p, rfl, fun i _ low high => absurd high (by omega), fun table ti reached => ?_, fun _ _ _ => rfl⟩
    obtain ⟨i, low, high, -⟩ := reached
    omega
  | succ count ih =>
    intro first p bound
    rw [List.range'_succ, List.foldlM_cons]
    obtain ⟨faulted, ti, comes, missing⟩ | ⟨q, came, here, step⟩ := c.round_cases p (i := first) (by omega)
    · rw [faulted]
      exact .inl ⟨rfl, fun stay => missing (stay first ti (Nat.le_refl _) (by omega) comes)⟩
    rw [came, Option.bind_eq_bind, Option.bind_some]
    have later : ∀ i, first + 1 ≤ i → q.pageDir i = p.pageDir i := fun i low => step.pageDir i (by omega)
    have open_iff : c.StayOpen q (first + 1) count ↔ c.StayOpen p first (count + 1) := by
      constructor
      · intro stay i ti low high comes
        by_cases same : i = first
        · rw [same] at comes ⊢
          exact here ti comes
        · have rest := stay i ti (by omega) (by omega) ((c.comes_congr (later i (by omega)) ti).mpr comes)
          rwa [c.dirEntry_congr (later i (by omega))] at rest
      · intro stay i ti low high comes
        rw [c.dirEntry_congr (later i low)]
        exact stay i ti (by omega) (by omega) ((c.comes_congr (later i low) ti).mp comes)
    have reached_iff : ∀ table ti, c.Reached p first (count + 1) table ti ↔
        (c.Comes p first ti ∧ page (c.dirEntry p first) = table) ∨ c.Reached q (first + 1) count table ti := by
      intro table ti
      constructor
      · rintro ⟨i, low, high, comes, leads⟩
        by_cases same : i = first
        · rw [same] at comes leads
          exact .inl ⟨comes, leads⟩
        · refine .inr ⟨i, by omega, by omega, (c.comes_congr (later i (by omega)) ti).mpr comes, ?_⟩
          rwa [c.dirEntry_congr (later i (by omega))]
      · rintro (⟨comes, leads⟩ | ⟨i, low, high, comes, leads⟩)
        · exact ⟨first, Nat.le_refl _, by omega, comes, leads⟩
        · rw [c.dirEntry_congr (later i low)] at leads
          exact ⟨i, by omega, by omega, (c.comes_congr (later i low) ti).mp comes, leads⟩
    obtain ⟨faulted, missing⟩ | ⟨after, finished, stay, changed, kept⟩ := ih (first + 1) q (by omega)
    · exact .inl ⟨faulted, fun stay => missing (open_iff.mpr stay)⟩
    refine .inr ⟨after, finished, open_iff.mp stay, fun table ti reached => ?_, fun table ti missed => ?_⟩
    · by_cases rest : c.Reached q (first + 1) count table ti
      · rw [changed table ti rest]
        -- a table behind two directory entries is changed twice
        by_cases now : c.Comes p first ti ∧ page (c.dirEntry p first) = table
        · rw [step.changed table ti now.1 now.2, change_change]
        · rw [step.kept table ti now]
      · obtain ⟨comes, leads⟩ := ((reached_iff table ti).mp reached).resolve_right rest
        rw [kept table ti rest, step.changed table ti comes leads]
    · have neither := not_or.mp (mt (reached_iff table ti).mpr missed)
      rw [kept table ti neither.2, step.kept table ti neither.1]

/-! ## The region -/

/-- The page that entry `ti` of the table behind directory entry `di` maps lies in
`[virtAddr, virtAddr + len)`. -/
def InRegion (di ti : Nat) : Prop :=
  c.virtAddr.toNat ≤ di * 2 ^ 22 + ti * 2 ^ 12 ∧ di * 2 ^ 22 + ti * 2 ^ 12 < c.virtAddr.toNat + c.len.toNat

/-- The call comes to its end, changes the present entries in the region that the
condition selects, and no entry outside. Directory entry 1023 leads to no page
table, but back to the directory. -/
def ChangesRightly (p : Paging) : Prop :=
  ∃ after, c.run p = some after ∧ ∀ di < 1023, has (p.pageDir di) present → ∀ ti < 1024,
    let table := page (p.pageDir di)
    let entry := p.tables table ti
    (c.InRegion di ti → has entry present → has entry c.conditionMask →
      after.tables table ti = entry &&& ~~~c.resetBits ||| c.setBits) ∧
    (¬ c.InRegion di ti → after.tables table ti = entry)

/-- The loop comes to the entry of the table: before the directory entry in which
the region ends, and through the directory as it updates it. -/
def Visited (p : Paging) (table ti : Nat) : Prop :=
  ∃ i, c.firstIndex ≤ i ∧ i < c.lastIndex ∧ c.Comes p i ti ∧ page (c.dirEntry p i) = table

/-- No table is taken out of the directory, every entry that is to be changed is
visited, and no visited entry outside the region is one that a change alters. -/
structure Covers (p : Paging) : Prop where
  stay : ∀ i ti, c.firstIndex ≤ i → i < c.lastIndex → c.Comes p i ti → has (c.dirEntry p i) present
  inside : ∀ di < 1023, has (p.pageDir di) present → ∀ ti < 1024, c.InRegion di ti →
    has (p.tables (page (p.pageDir di)) ti) present →
    c.change (p.tables (page (p.pageDir di)) ti) ≠ p.tables (page (p.pageDir di)) ti →
    c.Visited p (page (p.pageDir di)) ti
  outside : ∀ di < 1023, has (p.pageDir di) present → ∀ ti < 1024, ¬ c.InRegion di ti →
    c.Visited p (page (p.pageDir di)) ti →
    c.change (p.tables (page (p.pageDir di)) ti) = p.tables (page (p.pageDir di)) ti

theorem lastIndex_le : c.lastIndex ≤ 1023 := by
  have bound := (c.virtAddr + c.len - 1).isLt
  simp only [lastIndex, addrToPageDirIndex]
  omega

theorem reached_iff_visited (p : Paging) (table ti : Nat) :
    c.Reached p c.firstIndex (c.lastIndex - c.firstIndex) table ti ↔ c.Visited p table ti := by
  constructor
  · rintro ⟨i, low, high, there⟩
    exact ⟨i, low, by omega, there⟩
  · rintro ⟨i, low, high, there⟩
    exact ⟨i, low, by omega, there⟩

/-- What a call does: it takes a page fault, or it changes what it visits. -/
theorem run_cases (p : Paging) :
    (c.run p = none ∧ ∃ i ti, c.firstIndex ≤ i ∧ i < c.lastIndex ∧ c.Comes p i ti ∧
        ¬ has (c.dirEntry p i) present) ∨
      ∃ after, c.run p = some after ∧
        (∀ i ti, c.firstIndex ≤ i → i < c.lastIndex → c.Comes p i ti → has (c.dirEntry p i) present) ∧
        (∀ table ti, c.Visited p table ti → after.tables table ti = c.change (p.tables table ti)) ∧
        ∀ table ti, ¬ c.Visited p table ti → after.tables table ti = p.tables table ti := by
  by_cases empty : c.lastIndex ≤ c.firstIndex
  · refine .inr ⟨p, ?_, fun i _ low high => absurd high (by omega), fun table ti visited => ?_, fun _ _ _ => rfl⟩
    · rw [run, Nat.sub_eq_zero_of_le empty]
      rfl
    · obtain ⟨i, low, high, -⟩ := visited
      omega
  have upper := c.lastIndex_le
  obtain ⟨faulted, missing⟩ | ⟨after, finished, stay, changed, kept⟩ :=
    c.rounds_cases (c.lastIndex - c.firstIndex) c.firstIndex p (by omega)
  · refine .inl ⟨faulted, ?_⟩
    by_contra none
    refine missing fun i ti low high comes => ?_
    by_contra absent
    exact none ⟨i, ti, low, by omega, comes, absent⟩
  · refine .inr ⟨after, finished, fun i ti low high comes => stay i ti low (by omega) comes, ?_, ?_⟩
    · exact fun table ti visited => changed table ti ((c.reached_iff_visited p table ti).mpr visited)
    · exact fun table ti missed => kept table ti (mt (c.reached_iff_visited p table ti).mp missed)

theorem ChangesRightly.covers {c : FlagChange} {p : Paging} (rightly : c.ChangesRightly p) : c.Covers p := by
  obtain ⟨same, ran, right⟩ := rightly
  obtain ⟨faulted, -⟩ | ⟨after, finished, stay, changed, kept⟩ := c.run_cases p
  · rw [faulted] at ran
    cases ran
  rw [finished] at ran
  cases ran
  refine ⟨stay, fun di below there ti bound inside live altered => ?_, fun di below there ti bound out visited => ?_⟩
  · by_contra missed
    have masked : has (p.tables (page (p.pageDir di)) ti) c.conditionMask := by
      by_contra spared
      exact altered (c.change_of_not spared)
    have entry := (right di below there ti bound).1 inside live masked
    rw [kept _ _ missed] at entry
    exact altered ((c.change_of_has masked).trans entry.symm)
  · have entry := (right di below there ti bound).2 out
    rwa [changed _ _ visited] at entry

theorem Covers.changesRightly {c : FlagChange} {p : Paging} (covers : c.Covers p) : c.ChangesRightly p := by
  obtain ⟨-, i, ti, low, high, comes, absent⟩ | ⟨after, finished, -, changed, kept⟩ := c.run_cases p
  · exact absurd (covers.stay i ti low high comes) absent
  refine ⟨after, finished, fun di below there ti bound => ⟨fun inside live masked => ?_, fun out => ?_⟩⟩
  · rw [← c.change_of_has masked]
    by_cases visited : c.Visited p (page (p.pageDir di)) ti
    · exact changed _ _ visited
    · rw [kept _ _ visited]
      by_contra altered
      exact visited (covers.inside di below there ti bound inside live (Ne.symm altered))
  · by_cases visited : c.Visited p (page (p.pageDir di)) ti
    · rw [changed _ _ visited]
      exact covers.outside di below there ti bound out visited
    · exact kept _ _ visited

/-- **The flags of a region are changed rightly** exactly where the loop over the
directory, which ends too early, covers what there is to change. -/
theorem changes_rightly_iff (p : Paging) : c.ChangesRightly p ↔ c.Covers p :=
  ⟨ChangesRightly.covers, Covers.changesRightly⟩

/-! ## Where the loop ends -/

/-- A page-aligned region that ends below 4 GiB. -/
structure Region : Prop where
  aligned : c.virtAddr.toNat % 4096 = 0
  positive : 0 < c.len.toNat
  below : c.virtAddr.toNat + c.len.toNat < 2 ^ 32

/-- The change leaves the addresses and the presence of tables alone. -/
structure FlagsOnly : Prop where
  set : c.setBits.toNat < 4096
  reset : c.resetBits.toNat < 4096
  keeps : ¬ has c.resetBits present

/-- No page table is behind two entries of the directory. -/
def Unshared (p : Paging) : Prop :=
  ∀ i < 1023, ∀ k < 1023, has (p.pageDir i) present → has (p.pageDir k) present →
    page (p.pageDir i) = page (p.pageDir k) → i = k

theorem page_change (flags : c.FlagsOnly) (entry : Word) : page (c.change entry) = page entry := by
  have mask : (~~~c.resetBits).toNat / 4096 = 0xFFFFF := by
    have low := flags.reset
    rw [BitVec.toNat_not]
    omega
  by_cases masked : has entry c.conditionMask
  · rw [c.change_of_has masked, page_or flags.set, page_and mask]
  · rw [c.change_of_not masked]

theorem present_change (flags : c.FlagsOnly) {entry : Word} (there : has entry present) :
    has (c.change entry) present := by
  by_cases masked : has entry c.conditionMask
  · have keeps : ~~~c.resetBits &&& present = present := by
      have clear : c.resetBits &&& present = 0#32 := by simpa [has] using flags.keeps
      apply BitVec.eq_of_getLsbD_eq
      intro k bound
      have bit := congrArg (fun w => w.getLsbD k) clear
      simp only [BitVec.getLsbD_and, BitVec.getLsbD_zero] at bit
      simp only [BitVec.getLsbD_and, BitVec.getLsbD_not, bound, decide_true, Bool.true_and]
      cases one : present.getLsbD k
      · simp
      · rw [one, Bool.and_true] at bit
        simp [bit]
    rw [c.change_of_has masked, has_or, has_and_of_sub keeps, there, Bool.true_or]
  · rwa [c.change_of_not masked]

theorem page_dirEntry (flags : c.FlagsOnly) (p : Paging) (i : Nat) :
    page (c.dirEntry p i) = page (p.pageDir i) := by
  rw [dirEntry]
  split
  · exact c.page_change flags _
  · rfl

theorem Region.endIndex {c : FlagChange} (region : c.Region) {i : Nat} (before : i < c.lastIndex) :
    c.endIndex i = 1024 := by
  have inside := region.below
  have positive := region.positive
  have last : (c.virtAddr + c.len - 1).toNat = c.virtAddr.toNat + c.len.toNat - 1 := by bv_omega
  have behind : (c.virtAddr + c.len).toNat = c.virtAddr.toNat + c.len.toNat := by bv_omega
  refine if_neg fun same => ?_
  simp only [lastIndex, addrToPageDirIndex, last] at before
  rw [addrToPageDirIndex, behind] at same
  omega

/-- Before the directory entry in which the region ends, the loop comes to just the
pages of the region. -/
theorem Region.comes_iff {c : FlagChange} (region : c.Region) (p : Paging) {di ti : Nat} (bound : ti < 1024)
    (before : di < c.lastIndex) :
    (c.firstIndex ≤ di ∧ c.Comes p di ti) ↔ has (p.pageDir di) present ∧ c.InRegion di ti := by
  have aligned := region.aligned
  have last : (c.virtAddr + c.len - 1).toNat = c.virtAddr.toNat + c.len.toNat - 1 := by
    have inside := region.below
    have positive := region.positive
    bv_omega
  have ends := region.endIndex before
  simp only [lastIndex, addrToPageDirIndex, last] at before
  have start : c.firstIndex ≤ di → (c.startIndex di ≤ ti ↔ c.virtAddr.toNat ≤ di * 2 ^ 22 + ti * 2 ^ 12) := by
    intro low
    simp only [firstIndex, addrToPageDirIndex] at low
    by_cases same : di = addrToPageDirIndex c.virtAddr
    · rw [startIndex, if_pos same]
      simp only [addrToPageDirIndex] at same
      simp only [addrToPageTableIndex]
      omega
    · rw [startIndex, if_neg same]
      simp only [addrToPageDirIndex] at same
      omega
  rw [Comes, ends, InRegion]
  constructor
  · rintro ⟨low, there, begins, -⟩
    exact ⟨there, (start low).mp begins, by omega⟩
  · rintro ⟨there, begins, -⟩
    have low : c.firstIndex ≤ di := by
      simp only [firstIndex, addrToPageDirIndex]
      omega
    exact ⟨low, there, (start low).mpr begins, bound⟩

theorem Region.di_le {c : FlagChange} (region : c.Region) {di ti : Nat} (inside : c.InRegion di ti) :
    di ≤ c.lastIndex := by
  have below := region.below
  have positive := region.positive
  have last : (c.virtAddr + c.len - 1).toNat = c.virtAddr.toNat + c.len.toNat - 1 := by bv_omega
  obtain ⟨-, upper⟩ := inside
  simp only [lastIndex, addrToPageDirIndex, last]
  omega

/-- **Flags in a directory without shared tables** are changed rightly exactly when
there is nothing to change behind the directory entry in which the region ends. -/
theorem changes_unshared_iff {c : FlagChange} (region : c.Region) (flags : c.FlagsOnly) {p : Paging}
    (unshared : Unshared p) :
    c.ChangesRightly p ↔ (c.lastIndex < 1023 → has (p.pageDir c.lastIndex) present →
      ∀ ti < 1024, c.InRegion c.lastIndex ti → has (p.tables (page (p.pageDir c.lastIndex)) ti) present →
        c.change (p.tables (page (p.pageDir c.lastIndex)) ti) = p.tables (page (p.pageDir c.lastIndex)) ti) := by
  have upper := c.lastIndex_le
  have visits : ∀ di < 1023, has (p.pageDir di) present → ∀ ti,
      c.Visited p (page (p.pageDir di)) ti → di < c.lastIndex ∧ c.firstIndex ≤ di ∧ c.Comes p di ti := by
    rintro di below there ti ⟨i, low, high, comes, leads⟩
    rw [c.page_dirEntry flags] at leads
    have same := unshared i (by omega) di below comes.1 there leads
    rw [← same]
    exact ⟨high, low, comes⟩
  constructor
  · intro rightly below there ti bound inside live
    have covers := rightly.covers
    by_contra altered
    have visited := visits _ below there ti (covers.inside _ below there ti bound inside live altered)
    omega
  · intro last
    refine Covers.changesRightly ⟨fun i ti _ _ comes => ?_, fun di below there ti bound inside live altered => ?_,
      fun di below there ti bound out visited => ?_⟩
    · rw [dirEntry]
      split
      · exact c.present_change flags comes.1
      · exact comes.1
    · have before : di < c.lastIndex := by
        refine Nat.lt_of_le_of_ne (region.di_le inside) fun same => altered ?_
        subst same
        exact last below there ti bound inside live
      have comes := (region.comes_iff p bound before).mpr ⟨there, inside⟩
      exact ⟨di, comes.1, before, comes.2, c.page_dirEntry flags p di⟩
    · obtain ⟨before, comes⟩ := visits di below there ti visited
      exact absurd ((region.comes_iff p bound before).mp comes).2 out

/-! ## Write protection before a fork -/

/-- The call that `fork` makes. -/
def forkProtection : FlagChange := ⟨userspaceLowAddr, userspaceLen, 0#32, write, present, true⟩

/-- A process with one page, writable, in the last 4 MiB of that region. -/
def pageInLastTable : Paging where
  physicalMM := ⟨fun _ => 0#32⟩
  tables table ti := if table = 5 ∧ ti = 0 then 0x6007#32 else 0#32
  pageDir di := if di = 1022 then 0x5007#32 else 0#32

/-- It stays writable: the loop ends before the table that maps it. -/
theorem last_page_stays_writable : ¬ forkProtection.ChangesRightly pageInLastTable := by
  rintro ⟨same, ran, right⟩
  obtain ⟨faulted, -⟩ | ⟨after, finished, -, -, kept⟩ := forkProtection.run_cases pageInLastTable
  · rw [faulted] at ran
    cases ran
  rw [finished] at ran
  cases ran
  have inside : forkProtection.InRegion 1022 0 := ⟨by decide, by decide⟩
  have entry := (right 1022 (by decide) (by decide) 0 (by decide)).1 inside (by decide) (by decide)
  have missed : ¬ forkProtection.Visited pageInLastTable (page (pageInLastTable.pageDir 1022)) 0 := by
    rintro ⟨i, -, high, comes, -⟩
    have last : forkProtection.lastIndex = 1022 := by decide
    have absent : pageInLastTable.pageDir i = 0#32 := if_neg (by omega)
    have there := comes.1
    rw [absent, has_zero] at there
    cases there
  rw [kept _ _ missed] at entry
  exact absurd entry (by decide)

end FlagChange

end FluxOS.PagingManager
