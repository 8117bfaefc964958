import FluxOS.PhysicalMM

/-! The bitmap over any run of its operations: the history says which pages are held, the
bitmap says the same, and the next page handed out is the lowest one that is not held. -/
namespace FluxOS.PhysicalMM
open Words

/-- After `init` no bit is set. -/
def init : PhysicalMM := ⟨fun _ => 0#32⟩

def setAllocatedPage (m : PhysicalMM) (addr : Word) : PhysicalMM := m.setBit (page addr)

/-- What an operation did, as its caller sees it. -/
inductive Event where
  | takes (n : Nat)
  | gives (n : Nat)
  | refuses
  deriving DecidableEq, Repr

/-- The pages taken and not given back since; the last event comes first. -/
def Held : List Event → Nat → Prop
  | [], _ => False
  | .takes n :: earlier, k => k = n ∨ Held earlier k
  | .gives n :: earlier, k => k ≠ n ∧ Held earlier k
  | .refuses :: earlier, k => Held earlier k

def answerEvent (addr : Word) : Event := if addr = 0xFFFFFFFF#32 then .refuses else .takes (page addr)

inductive Run : List Event → PhysicalMM → Prop where
  | init : Run [] init
  | setAllocatedPage {earlier : List Event} {m : PhysicalMM} (run : Run earlier m) (addr : Word) :
      Run (.takes (page addr) :: earlier) (m.setAllocatedPage addr)
  | allocPage {earlier : List Event} {m : PhysicalMM} (run : Run earlier m) :
      Run (answerEvent m.allocPage.2 :: earlier) m.allocPage.1
  | freePage {earlier : List Event} {m m' : PhysicalMM} (run : Run earlier m) (addr : Word)
      (freed : m.freePage addr = some m') : Run (.gives (page addr) :: earlier) m'

theorem pageAddress_ne_refusal {n : Nat} (bound : n < 2 ^ 20) : pageAddress n ≠ 0xFFFFFFFF#32 := by
  intro same
  have value := congrArg BitVec.toNat same
  rw [toNat_pageAddress bound, BitVec.toNat_ofNat] at value
  omega

/-- The bitmap holds what the history holds. -/
theorem Run.allocated_iff {events : List Event} {m : PhysicalMM} (run : Run events m) (k : Nat) :
    m.allocated k ↔ Held events k := by
  induction run with
  | init => simp [allocated, PhysicalMM.init, Held]
  | setAllocatedPage run addr ih =>
    rw [PhysicalMM.setAllocatedPage, allocated_setBit, Held, Bool.or_eq_true, decide_eq_true_eq, ih]
  | @allocPage earlier m run ih =>
    obtain ⟨answer, -⟩ | ⟨n, bound, answer, -, -⟩ := m.allocPage_cases
    · rw [answer]
      exact ih
    · rw [answer, answerEvent, if_neg (pageAddress_ne_refusal bound), page_pageAddress bound, allocated_setBit, Held,
        Bool.or_eq_true, decide_eq_true_eq, ih]
  | @freePage earlier m m' run addr freed ih =>
    obtain ⟨-, same⟩ := Option.ite_none_right_eq_some.mp freed
    cases same
    simp only [allocated_resetBit, Held, Bool.and_eq_true, Bool.not_eq_true', decide_eq_false_iff_not, ih, ne_eq]

/-- What every operation does next, in terms of the pages that are held. -/
structure Exact (events : List Event) (m : PhysicalMM) : Prop where
  full_iff : m.allocPage.2 = 0xFFFFFFFF#32 ↔ ∀ n < 2 ^ 20, Held events n
  lowest : m.allocPage.2 ≠ 0xFFFFFFFF#32 → ∃ n < 2 ^ 20, m.allocPage.2.toNat = n * 4096 ∧ ¬Held events n ∧
    (∀ k < n, Held events k) ∧ ∀ k, m.allocPage.1.allocated k = (decide (k = n) || m.allocated k)
  refused : m.allocPage.2 = 0xFFFFFFFF#32 → m.allocPage.1 = m
  set : ∀ addr k, (m.setAllocatedPage addr).allocated k = (decide (k = page addr) || m.allocated k)
  free : ∀ addr, Held events (page addr) →
    ∃ m', m.freePage addr = some m' ∧ ∀ k, m'.allocated k = (!decide (k = page addr) && m.allocated k)

/-- **The physical page bitmap** over every run. -/
theorem run_exact {events : List Event} {m : PhysicalMM} (run : Run events m) : Exact events m := by
  have held := run.allocated_iff
  have freed (addr : Word) (holds : Held events (page addr)) :
      ∃ m', m.freePage addr = some m' ∧ ∀ k, m'.allocated k = (!decide (k = page addr) && m.allocated k) :=
    ⟨_, if_pos ((held _).mpr holds), allocated_resetBit m (page addr)⟩
  obtain ⟨answer, full⟩ | ⟨n, bound, answer, free, before⟩ := m.allocPage_cases
  · have refused : m.allocPage.2 = 0xFFFFFFFF#32 := by rw [answer]
    refine ⟨iff_of_true refused fun n bound => (held n).mp (full n bound), fun given => absurd refused given,
      fun _ => by rw [answer], fun addr k => allocated_setBit m (page addr) k, freed⟩
  · have given : m.allocPage.2 ≠ 0xFFFFFFFF#32 := by
      rw [answer]
      exact pageAddress_ne_refusal bound
    have notHeld : ¬Held events n := by
      rw [← held n, free]
      exact Bool.false_ne_true
    refine ⟨iff_of_false given fun all => notHeld (all n bound), fun _ => ⟨n, bound, ?_, notHeld,
      fun k below => (held k).mp (before k below), fun k => ?_⟩, fun refused => absurd refused given,
      fun addr k => allocated_setBit m (page addr) k, freed⟩
    · rw [answer]
      exact toNat_pageAddress bound
    · rw [answer]
      exact allocated_setBit m n k

/-- A page that is set aside, one that is handed out, and its neighbour given back. -/
theorem neighbour_given_back : Exact [.gives 1, .takes 0, .takes 1] ((init.setAllocatedPage 0x1000#32).allocPage.1.resetBit 1) := by
  have taken := (Run.init.setAllocatedPage 0x1000#32).allocPage
  exact run_exact (taken.freePage 0x1FFF#32 rfl)

end FluxOS.PhysicalMM
