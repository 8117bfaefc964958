import FluxOS.PhysicalMMRuns
import Mathlib.Data.Finset.Card
import Mathlib.Data.Finset.Range

/-! `freePagesNum` beside the bitmap over any run of the operations: how far it is from the number
of clear bits, and after which runs it is that number. -/
namespace FluxOS.FreePageCount
open Words

/-- `BITMAP_SIZE`, in bytes. -/
def bitmapSize : Nat := 0x20000

/-- The bitmap and its counter. -/
structure State where
  physicalMM : PhysicalMM
  freePagesNum : Word

namespace State

/-- `init` clears the bitmap; the counter has the value of its declaration. -/
def init : State where
  physicalMM := PhysicalMM.init
  freePagesNum := BitVec.ofNat 32 bitmapSize

def setAllocatedPage (s : State) (addr : Word) : State where
  physicalMM := s.physicalMM.setAllocatedPage addr
  freePagesNum := s.freePagesNum - 1#32

def allocPageFrom (s : State) : Nat → Nat → State × Word
  | 0, _ => (s, 0xFFFFFFFF#32)
  | words + 1, i =>
    match (List.range 32).find? fun j => !(s.physicalMM.pageBitmap i).getLsbD j with
    | some j => (⟨s.physicalMM.setBit (i * 32 + j), s.freePagesNum - 1#32⟩, pageAddress (i * 32 + j))
    | none => allocPageFrom s words (i + 1)

def allocPage (s : State) : State × Word := s.allocPageFrom (bitmapSize / 4) 0

def freePage (s : State) (addr : Word) : Option State :=
  (s.physicalMM.freePage addr).map fun physicalMM => ⟨physicalMM, s.freePagesNum + 1#32⟩

end State

inductive Call where
  | setAllocatedPage (addr : Word)
  | allocPage
  | freePage (addr : Word)
  deriving DecidableEq, Repr

def perform (s : State) : Call → Option State
  | .setAllocatedPage addr => some (s.setAllocatedPage addr)
  | .allocPage => some s.allocPage.1
  | .freePage addr => s.freePage addr

/-- A run ends without a state where a page is freed that is not allocated. -/
def run (s : State) (calls : List Call) : Option State := calls.foldlM perform s

/-- The call marks a page that is marked already. -/
def marksAgain (s : State) : Call → Nat
  | .setAllocatedPage addr => if s.physicalMM.allocated (page addr) then 1 else 0
  | .allocPage | .freePage _ => 0

/-- How often a run does so. -/
def markedAgain (s : State) : List Call → Nat
  | [] => 0
  | call :: calls => marksAgain s call + (perform s call).elim 0 fun next => markedAgain next calls

/-! ## The bitmap underneath -/

/-- The counter goes along with the answer. -/
theorem allocPageFrom_eq (s : State) (words i : Nat) : s.allocPageFrom words i =
    (⟨(s.physicalMM.allocPageFrom words i).1,
      if (s.physicalMM.allocPageFrom words i).2 = 0xFFFFFFFF#32 then s.freePagesNum else s.freePagesNum - 1#32⟩,
      (s.physicalMM.allocPageFrom words i).2) := by
  induction words generalizing i with
  | zero => rfl
  | succ words ih =>
    rw [State.allocPageFrom, PhysicalMM.allocPageFrom]
    cases clear : (List.range 32).find? fun j => !(s.physicalMM.pageBitmap i).getLsbD j with
    | none => exact ih (i + 1)
    | some j =>
      -- a page address ends in twelve zeros
      have given : pageAddress (i * 32 + j) ≠ 0xFFFFFFFF#32 := by
        intro same
        have value := congrArg BitVec.toNat same
        rw [pageAddress, BitVec.toNat_ofNat, BitVec.toNat_ofNat] at value
        omega
      dsimp only
      rw [if_neg given]

/-- Without its counter a call is one of the bitmap's, and its run goes on. -/
theorem perform_history {s next : State} {call : Call} {events : List PhysicalMM.Event}
    (history : PhysicalMM.Run events s.physicalMM) (does : perform s call = some next) :
    ∃ event, PhysicalMM.Run (event :: events) next.physicalMM := by
  cases call with
  | setAllocatedPage addr =>
    cases does
    exact ⟨_, history.setAllocatedPage addr⟩
  | allocPage =>
    cases does
    rw [State.allocPage, allocPageFrom_eq]
    exact ⟨_, history.allocPage⟩
  | freePage addr =>
    obtain ⟨physicalMM, freed, same⟩ := Option.map_eq_some_iff.mp does
    cases same
    exact ⟨_, history.freePage addr freed⟩

/-- So a run of the calls is one of the bitmap, and what holds over those holds over it. -/
theorem run_history {s final : State} {calls : List Call} {events : List PhysicalMM.Event}
    (history : PhysicalMM.Run events s.physicalMM) (ran : run s calls = some final) :
    ∃ events', PhysicalMM.Run events' final.physicalMM := by
  induction calls generalizing s events with
  | nil =>
    cases ran
    exact ⟨events, history⟩
  | cons call calls ih =>
    obtain ⟨next, does, rest⟩ := Option.bind_eq_some_iff.mp ran
    obtain ⟨event, goesOn⟩ := perform_history history does
    exact ih goesOn rest

/-! ## Clear bits -/

/-- The bits of the bitmap that are clear. -/
def clearPages (m : PhysicalMM) : Finset Nat := (Finset.range (8 * bitmapSize)).filter fun n => m.allocated n = false

theorem mem_clearPages {m : PhysicalMM} {n : Nat} : n ∈ clearPages m ↔ n < 2 ^ 20 ∧ m.allocated n = false := by
  rw [clearPages, Finset.mem_filter, Finset.mem_range]
  rfl

theorem card_clearPages_le (m : PhysicalMM) : (clearPages m).card ≤ 2 ^ 20 :=
  (Finset.card_filter_le _ _).trans (Finset.card_range _).le

theorem card_clearPages_init : (clearPages PhysicalMM.init).card = 8 * bitmapSize := by
  rw [clearPages, Finset.filter_true_of_mem fun n _ => by simp [PhysicalMM.allocated, PhysicalMM.init], Finset.card_range]

theorem clearPages_setBit (m : PhysicalMM) (n : Nat) : clearPages (m.setBit n) = (clearPages m).erase n := by
  ext k
  rw [Finset.mem_erase, mem_clearPages, mem_clearPages, PhysicalMM.allocated_setBit, Bool.or_eq_false_iff,
    decide_eq_false_iff_not]
  exact and_left_comm

theorem clearPages_resetBit (m : PhysicalMM) {n : Nat} (bound : n < 2 ^ 20) :
    clearPages (m.resetBit n) = insert n (clearPages m) := by
  ext k
  rw [Finset.mem_insert, mem_clearPages, mem_clearPages, PhysicalMM.allocated_resetBit]
  by_cases here : k = n
  · rw [here]
    simp only [bound, true_and, decide_true, Bool.not_true, Bool.false_and, true_or]
  · simp [here]

/-- A bit that was clear and is set. -/
theorem card_setBit {m : PhysicalMM} {n : Nat} (bound : n < 2 ^ 20) (free : m.allocated n = false) :
    (clearPages (m.setBit n)).card + 1 = (clearPages m).card := by
  rw [clearPages_setBit]
  exact Finset.card_erase_add_one (mem_clearPages.mpr ⟨bound, free⟩)

/-- A bit that was set already. -/
theorem card_setBit_again {m : PhysicalMM} {n : Nat} (taken : m.allocated n = true) :
    (clearPages (m.setBit n)).card = (clearPages m).card := by
  rw [clearPages_setBit, Finset.erase_eq_of_notMem]
  rw [mem_clearPages, taken]
  exact fun both => Bool.noConfusion both.2

theorem card_resetBit {m : PhysicalMM} {n : Nat} (bound : n < 2 ^ 20) (taken : m.allocated n = true) :
    (clearPages (m.resetBit n)).card = (clearPages m).card + 1 := by
  rw [clearPages_resetBit m bound, Finset.card_insert_of_notMem]
  rw [mem_clearPages, taken]
  exact fun both => Bool.noConfusion both.2

/-! ## The account -/

/-- `lost` is by how much the counter falls short of the clear bits. -/
def FallsShort (s : State) (lost : Nat) : Prop :=
  (s.freePagesNum.toNat + lost) % 2 ^ 32 = (clearPages s.physicalMM).card % 2 ^ 32

/-- The counter starts with a number of bytes. -/
theorem fallsShort_init : FallsShort .init (7 * bitmapSize) := by
  have start : State.init.freePagesNum.toNat = bitmapSize := by
    rw [State.init, BitVec.toNat_ofNat]
    unfold bitmapSize
    omega
  have clear : (clearPages State.init.physicalMM).card = 8 * bitmapSize := card_clearPages_init
  rw [FallsShort, start, clear]
  unfold bitmapSize
  omega

theorem toNat_decremented (w : Word) : (w - 1#32).toNat = (w.toNat + (2 ^ 32 - 1)) % 2 ^ 32 := by
  rw [BitVec.toNat_sub, Nat.add_comm]
  rfl

/-- A bit that was clear is set and counted. -/
theorem FallsShort.setBit {s : State} {lost n : Nat} (short : FallsShort s lost) (bound : n < 2 ^ 20)
    (free : s.physicalMM.allocated n = false) :
    FallsShort ⟨s.physicalMM.setBit n, s.freePagesNum - 1#32⟩ lost := by
  have fewer := card_setBit bound free
  unfold FallsShort at short ⊢
  dsimp only
  rw [toNat_decremented]
  omega

/-- One that was set already is counted again. -/
theorem FallsShort.setBit_again {s : State} {lost n : Nat} (short : FallsShort s lost)
    (taken : s.physicalMM.allocated n = true) :
    FallsShort ⟨s.physicalMM.setBit n, s.freePagesNum - 1#32⟩ (lost + 1) := by
  have same := card_setBit_again taken
  unfold FallsShort at short ⊢
  dsimp only
  rw [toNat_decremented]
  omega

theorem FallsShort.resetBit {s : State} {lost n : Nat} (short : FallsShort s lost) (bound : n < 2 ^ 20)
    (taken : s.physicalMM.allocated n = true) :
    FallsShort ⟨s.physicalMM.resetBit n, s.freePagesNum + 1#32⟩ lost := by
  have more := card_resetBit bound taken
  unfold FallsShort at short ⊢
  dsimp only
  rw [BitVec.toNat_add, BitVec.toNat_ofNat]
  omega

/-- A page marked again is lost to the counter, and nothing else is. -/
theorem FallsShort.perform {s next : State} {call : Call} {lost : Nat} (short : FallsShort s lost)
    (does : perform s call = some next) : FallsShort next (lost + marksAgain s call) := by
  cases call with
  | setAllocatedPage addr =>
    cases does
    rw [marksAgain]
    by_cases taken : s.physicalMM.allocated (page addr) = true
    · rw [if_pos taken]
      exact short.setBit_again taken
    · rw [if_neg taken]
      exact short.setBit (page_lt addr) (Bool.eq_false_iff.mpr taken)
  | allocPage =>
    cases does
    rw [marksAgain, Nat.add_zero, State.allocPage, allocPageFrom_eq]
    obtain ⟨answer, -⟩ | ⟨n, bound, answer, free, -⟩ := s.physicalMM.allocPage_cases
    · rw [PhysicalMM.allocPage] at answer
      rw [bitmapSize, answer, if_pos rfl]
      exact short
    · rw [PhysicalMM.allocPage] at answer
      rw [bitmapSize, answer, if_neg (PhysicalMM.pageAddress_ne_refusal bound)]
      exact short.setBit bound free
  | freePage addr =>
    obtain ⟨physicalMM, freed, same⟩ := Option.map_eq_some_iff.mp does
    obtain ⟨taken, cleared⟩ := Option.ite_none_right_eq_some.mp freed
    cases same
    cases cleared
    exact short.resetBit (page_lt addr) taken

theorem FallsShort.run {s final : State} {calls : List Call} {lost : Nat} (short : FallsShort s lost)
    (ran : run s calls = some final) : FallsShort final (lost + markedAgain s calls) := by
  induction calls generalizing s lost with
  | nil =>
    cases ran
    exact short
  | cons call calls ih =>
    obtain ⟨next, does, rest⟩ := Option.bind_eq_some_iff.mp ran
    rw [markedAgain, does, ← Nat.add_assoc]
    exact ih (short.perform does) rest

/-- `freePagesNum` is the number of free pages. -/
def CountsFreePages (s : State) : Prop := s.freePagesNum.toNat = (clearPages s.physicalMM).card

theorem FallsShort.countsFreePages_iff {s : State} {lost : Nat} (short : FallsShort s lost) :
    CountsFreePages s ↔ lost % 2 ^ 32 = 0 := by
  have pages := card_clearPages_le s.physicalMM
  have number := s.freePagesNum.isLt
  unfold FallsShort at short
  unfold CountsFreePages
  omega

/-- **Free page accounting.** The counter is right at the end of a run exactly when the pages marked again
make up for its start. -/
theorem free_pages_counted_iff {calls : List Call} {s : State} (ran : run .init calls = some s) :
    CountsFreePages s ↔ markedAgain .init calls % 2 ^ 32 = 2 ^ 32 - 7 * bitmapSize := by
  have missing : 7 * bitmapSize = 917504 := rfl
  rw [(fallsShort_init.run ran).countsFreePages_iff, missing]
  omega

/-- A page that is marked over and over. -/
theorem run_marks {s : State} {addr : Word} (taken : s.physicalMM.allocated (page addr) = true) (n : Nat) :
    ∃ final, run s (List.replicate n (.setAllocatedPage addr)) = some final ∧
      markedAgain s (List.replicate n (.setAllocatedPage addr)) = n := by
  induction n generalizing s with
  | zero => exact ⟨s, rfl, rfl⟩
  | succ n ih =>
    have stays : (s.setAllocatedPage addr).physicalMM.allocated (page addr) = true := by
      rw [State.setAllocatedPage, PhysicalMM.setAllocatedPage, PhysicalMM.allocated_setBit, taken, Bool.or_true]
    obtain ⟨final, ran, again⟩ := ih stays
    refine ⟨final, ran, ?_⟩
    rw [List.replicate_succ, markedAgain, perform, Option.elim_some, again, marksAgain, if_pos taken, Nat.add_comm]

/-- Marking one page often enough makes up for the start. -/
theorem often_marked_counted : ∃ s, run .init (.setAllocatedPage 0x1000#32 ::
    List.replicate (2 ^ 32 - 7 * bitmapSize) (.setAllocatedPage 0x1000#32)) = some s ∧ CountsFreePages s := by
  -- the number of calls must not be counted down to zero
  obtain ⟨n, missing⟩ : ∃ n, 2 ^ 32 - 7 * bitmapSize = n := ⟨_, rfl⟩
  have small : n < 2 ^ 32 := by
    rw [← missing, bitmapSize]
    omega
  rw [missing]
  have marked : (State.init.setAllocatedPage 0x1000#32).physicalMM.allocated (page 0x1000#32) = true := rfl
  obtain ⟨final, rest, again⟩ := run_marks marked n
  have ran : run .init (.setAllocatedPage 0x1000#32 :: List.replicate n (.setAllocatedPage 0x1000#32)) = some final := rest
  refine ⟨final, ran, (free_pages_counted_iff ran).mpr ?_⟩
  have first : marksAgain .init (.setAllocatedPage 0x1000#32) = 0 := rfl
  rw [markedAgain, perform, Option.elim_some, again, first, Nat.zero_add, Nat.mod_eq_of_lt small, missing]

/-- One page is marked twice: the counter is two below `BITMAP_SIZE`, while one of eight times as many bits is set. -/
theorem page_marked_twice_miscounted : ∃ s, run .init [.setAllocatedPage 0x1000#32, .setAllocatedPage 0x1FFF#32] = some s ∧
    s.freePagesNum = 0x1FFFE#32 ∧ (clearPages s.physicalMM).card = 0xFFFFF := by
  have start := card_clearPages_init
  have once : (clearPages (PhysicalMM.init.setBit 1)).card + 1 = (clearPages PhysicalMM.init).card :=
    card_setBit (by decide) rfl
  have again : (clearPages ((PhysicalMM.init.setBit 1).setBit 1)).card = (clearPages (PhysicalMM.init.setBit 1)).card :=
    card_setBit_again rfl
  unfold bitmapSize at start
  refine ⟨⟨(PhysicalMM.init.setBit 1).setBit 1, 0x1FFFE#32⟩, rfl, rfl, ?_⟩
  dsimp only
  omega

end FluxOS.FreePageCount
