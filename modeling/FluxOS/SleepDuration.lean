import FluxOS.SystemTimer
import Mathlib.Algebra.Group.Int.Defs
import Mathlib.Tactic.Ring

/-! The deadlines that `sleep` sets: when they are as far away as was asked for, although the products
have 32 bits and the deadline too. -/
namespace FluxOS.SystemTimer
open Words QList

variable {T : Type}

/-- How long a request is for, in nanoseconds. -/
def nanoseconds : Request → Int
  | .millis millis => millis.toInt * 1000000
  | .duration duration => duration.tv_sec.toInt * 1000000000 + duration.tv_nsec.toInt

/-- What a caller may ask for. -/
def Proper : Request → Prop
  | .millis millis => 0 ≤ millis.toInt
  | .duration duration => 0 ≤ duration.tv_sec.toInt ∧ 0 ≤ duration.tv_nsec.toInt ∧ duration.tv_nsec.toInt < 1000000000

/-- The frequencies of a timer. -/
def Frequency (tickFrequency : Word) : Prop := 1 ≤ tickFrequency.toInt ∧ tickFrequency.toInt ≤ 1000000

/-- The length in ticks, rounded down. -/
def ticks (tickFrequency : Word) (request : Request) : Int := nanoseconds request * tickFrequency.toInt / 1000000000

/-- The deadline is no earlier than that. -/
def Enough (s : SystemTimer T) (request : Request) (deadline : Word) : Prop :=
  s.systemTicks.toNat + ticks s.tickFrequency request ≤ deadline.toNat

/-- What two requests made at one time should get: deadlines that are far enough away, the longer one's not earlier. -/
def Right (s : SystemTimer T) (request longer : Request) (deadline laterDeadline : Word) : Prop :=
  Enough s request deadline ∧ Enough s longer laterDeadline ∧
    (nanoseconds request ≤ nanoseconds longer → deadline.toNat ≤ laterDeadline.toNat)

/-- A call of `sleep` that appends this timer. -/
def Appends [DecidableEq T] (heap : ArrayHeap (ThreadTimer T)) (s : SystemTimer T) (request : Request) (thread : T)
    (timer : ThreadTimer T) (s' : SystemTimer T) : Prop :=
  sleep heap s request thread = some s' ∧ contents s'.timers = contents s.timers ++ [timer]

/-! ## The condition -/

/-- The product that is divided. -/
def product (tickFrequency : Word) : Request → Int
  | .millis millis => millis.toInt * tickFrequency.toInt
  | .duration duration => duration.tv_nsec.toInt * tickFrequency.toInt

def divisor : Request → Int
  | .millis _ => 1000
  | .duration _ => 1000000000

/-- The ticks of whole seconds. -/
def wholeTicks (tickFrequency : Word) : Request → Int
  | .millis _ => 0
  | .duration duration => duration.tv_sec.toInt * tickFrequency.toInt

/-- The ticks that are left of a request when its product is cut to 32 bits. -/
def cutTicks (tickFrequency : Word) (request : Request) : Int :=
  wholeTicks tickFrequency request + (Int.bmod (product tickFrequency request) (2 ^ 32)).tdiv (divisor request)

/-- The product is an `int`, and the deadline an `unsigned long`. -/
def Fits (s : SystemTimer T) (request : Request) : Prop :=
  product s.tickFrequency request < 2 ^ 31 ∧ s.systemTicks.toNat + ticks s.tickFrequency request < 2 ^ 32

/-- The product is not, and becomes so negative that the deadline falls below zero, and thereby to the far end. -/
def FallsBelow (s : SystemTimer T) (request : Request) : Prop :=
  s.systemTicks.toNat + cutTicks s.tickFrequency request < 0 ∧
    ticks s.tickFrequency request ≤ 2 ^ 32 + cutTicks s.tickFrequency request

/-- A deadline at the far end is not behind that of the longer request. -/
def Ordered (s : SystemTimer T) (request longer : Request) : Prop :=
  FallsBelow s request →
    (FallsBelow s longer → cutTicks s.tickFrequency request ≤ cutTicks s.tickFrequency longer) ∧
    (Fits s longer → 2 ^ 32 + cutTicks s.tickFrequency request ≤ ticks s.tickFrequency longer)

/-! ## One request -/

variable {s : SystemTimer T} {request longer : Request}

theorem setWidth_signExtend (w : Word) : (w.signExtend 64).setWidth 32 = w := by
  ext i inside
  rw [BitVec.getElem_setWidth, BitVec.getLsbD_signExtend, if_pos inside, BitVec.getLsbD_eq_getElem inside]
  simp [show i < 64 by omega]

/-- The quotient of a product, by a number that is positive. -/
theorem toInt_mul_sdiv (w v : Word) {d : Word} (positive : 0 < d.toInt) :
    ((w * v).sdiv d).toInt = (Int.bmod (w.toInt * v.toInt) (2 ^ 32)).tdiv d.toInt := by
  rw [BitVec.toInt_sdiv_of_ne_or_ne, BitVec.toInt_mul]
  right
  rintro rfl
  exact absurd positive (by decide)

/-- The deadline is the sum, cut to 32 bits. -/
theorem expiralSystemTime_toNat (s : SystemTimer T) (request : Request) : ((s.expiralSystemTime request).toNat : Int) =
    (s.systemTicks.toNat + cutTicks s.tickFrequency request) % 2 ^ 32 := by
  have cut : s.expiralSystemTime request = BitVec.ofInt 32 (s.systemTicks.toNat + cutTicks s.tickFrequency request) := by
    cases request with
    | millis millis =>
      have quotient := toInt_mul_sdiv millis s.tickFrequency (show 0 < (1000#32).toInt by decide)
      rw [expiralSystemTime, addTicks, BitVec.setWidth_add _ _ (by decide), setWidth_signExtend, cutTicks, wholeTicks,
        product, divisor, Int.zero_add, BitVec.ofInt_add, BitVec.ofInt_natCast, BitVec.ofNat_toNat,
        show (1000 : Int) = (1000#32).toInt from rfl, ← quotient, BitVec.ofInt_toInt]
    | duration duration =>
      have quotient := toInt_mul_sdiv duration.tv_nsec s.tickFrequency (show 0 < (1000000000#32).toInt by decide)
      rw [expiralSystemTime, addTicks, BitVec.setWidth_add _ _ (by decide), BitVec.setWidth_add _ _ (by decide),
        setWidth_signExtend, setWidth_signExtend, cutTicks, wholeTicks, product, divisor, BitVec.ofInt_add,
        BitVec.ofInt_add, BitVec.ofInt_mul, BitVec.ofInt_natCast, BitVec.ofNat_toNat,
        show (1000000000 : Int) = (1000000000#32).toInt from rfl, ← quotient, BitVec.ofInt_toInt, BitVec.ofInt_toInt,
        BitVec.ofInt_toInt, BitVec.add_assoc]
  rw [cut, BitVec.toNat_ofInt]
  omega

theorem ticks_eq (tickFrequency : Word) (request : Request) : ticks tickFrequency request =
    wholeTicks tickFrequency request + product tickFrequency request / divisor request := by
  cases request with
  | millis millis =>
    rw [ticks, nanoseconds, wholeTicks, product, divisor, Int.zero_add,
      show millis.toInt * 1000000 * tickFrequency.toInt = millis.toInt * tickFrequency.toInt * 1000000 by ring]
    exact Int.mul_ediv_mul_of_pos_left _ 1000 (show (0 : Int) < 1000000 by decide)
  | duration duration =>
    rw [ticks, nanoseconds, wholeTicks, product, divisor, show (duration.tv_sec.toInt * 1000000000 +
      duration.tv_nsec.toInt) * tickFrequency.toInt = duration.tv_nsec.toInt * tickFrequency.toInt +
      duration.tv_sec.toInt * tickFrequency.toInt * 1000000000 by ring, Int.add_mul_ediv_right _ _ (by decide), Int.add_comm]

theorem product_nonneg {tickFrequency : Word} (frequency : Frequency tickFrequency) (proper : Proper request) :
    0 ≤ product tickFrequency request ∧ 0 ≤ wholeTicks tickFrequency request := by
  have positive : 0 ≤ tickFrequency.toInt := Int.le_trans (by decide) frequency.1
  cases request with
  | millis millis => exact ⟨Int.mul_nonneg proper positive, Int.le_refl 0⟩
  | duration duration => exact ⟨Int.mul_nonneg proper.2.1 positive, Int.mul_nonneg proper.1 positive⟩

theorem ticks_nonneg {tickFrequency : Word} (frequency : Frequency tickFrequency) (proper : Proper request) :
    0 ≤ ticks tickFrequency request := by
  have nonneg := product_nonneg frequency proper
  have quotient : 0 ≤ product tickFrequency request / divisor request :=
    Int.ediv_nonneg nonneg.1 (by cases request <;> simp [divisor])
  rw [ticks_eq]
  omega

/-- A product that is an `int` is not cut. -/
theorem cutTicks_eq {tickFrequency : Word} (frequency : Frequency tickFrequency) (proper : Proper request)
    (small : product tickFrequency request < 2 ^ 31) : cutTicks tickFrequency request = ticks tickFrequency request := by
  have nonneg := (product_nonneg frequency proper).1
  rw [ticks_eq, cutTicks, Int.bmod_eq_of_le (by omega) (by omega), Int.tdiv_eq_ediv_of_nonneg nonneg]

/-- The quotients of a product and of what 32 bits leave of it. -/
theorem tdiv_bmod_lt {product : Int} (large : 2 ^ 31 ≤ product) {divisor : Int} (kind : divisor = 1000 ∨ divisor = 1000000000) :
    (Int.bmod product (2 ^ 32)).tdiv divisor < product / divisor ∧ -(2 ^ 32) ≤ (Int.bmod product (2 ^ 32)).tdiv divisor := by
  have cut : Int.bmod product (2 ^ 32) ≤ product - 2 ^ 32 ∧ -(2 ^ 31) ≤ Int.bmod product (2 ^ 32) ∧
      Int.bmod product (2 ^ 32) < 2 ^ 31 := by
    rw [Int.bmod_def]
    split <;> omega
  generalize Int.bmod product (2 ^ 32) = rest at cut ⊢
  have sign : divisor.sign = 1 := by rcases kind with rfl | rfl <;> rfl
  rw [Int.tdiv_eq_ediv, sign]
  rcases kind with rfl | rfl <;> split <;> omega

/-- One that is not loses ticks, and may become negative. -/
theorem cutTicks_lt {tickFrequency : Word} (frequency : Frequency tickFrequency) (proper : Proper request)
    (large : 2 ^ 31 ≤ product tickFrequency request) :
    cutTicks tickFrequency request < ticks tickFrequency request ∧ -(2 ^ 32) ≤ cutTicks tickFrequency request := by
  have nonneg := (product_nonneg frequency proper).2
  have kind : divisor request = 1000 ∨ divisor request = 1000000000 := by cases request <;> simp [divisor]
  have less := tdiv_bmod_lt large kind
  rw [ticks_eq, cutTicks]
  omega

/-- A request gets its time if it fits, and otherwise only at the far end. -/
theorem enough_iff (frequency : Frequency s.tickFrequency) (proper : Proper request) :
    Enough s request (s.expiralSystemTime request) ↔ Fits s request ∨ FallsBelow s request := by
  have nonneg := ticks_nonneg frequency proper
  rw [Enough, expiralSystemTime_toNat, Fits, FallsBelow]
  by_cases small : product s.tickFrequency request < 2 ^ 31
  · rw [cutTicks_eq frequency proper small]
    omega
  · have cut := cutTicks_lt frequency proper (by omega)
    omega

/-- The deadline of a request that fits is that many ticks away. -/
theorem Fits.expiralSystemTime (fits : Fits s request) (frequency : Frequency s.tickFrequency) (proper : Proper request) :
    ((s.expiralSystemTime request).toNat : Int) = s.systemTicks.toNat + ticks s.tickFrequency request := by
  have nonneg := ticks_nonneg frequency proper
  have small := fits.2
  rw [expiralSystemTime_toNat, cutTicks_eq frequency proper fits.1]
  omega

theorem Fits.not_fallsBelow (fits : Fits s request) (frequency : Frequency s.tickFrequency) (proper : Proper request) :
    ¬FallsBelow s request := by
  intro below
  have negative := below.1
  have nonneg := ticks_nonneg frequency proper
  rw [cutTicks_eq frequency proper fits.1] at negative
  omega

theorem FallsBelow.expiralSystemTime (below : FallsBelow s request) (frequency : Frequency s.tickFrequency)
    (proper : Proper request) : ((s.expiralSystemTime request).toNat : Int) =
      2 ^ 32 + (s.systemTicks.toNat + cutTicks s.tickFrequency request) := by
  have negative := below.1
  have nonneg := ticks_nonneg frequency proper
  have enough := below.2
  rw [expiralSystemTime_toNat]
  omega

/-! ## Two requests -/

theorem ticks_mono {tickFrequency : Word} (frequency : Frequency tickFrequency)
    (no_longer : nanoseconds request ≤ nanoseconds longer) : ticks tickFrequency request ≤ ticks tickFrequency longer := by
  have positive : 0 ≤ tickFrequency.toInt := Int.le_trans (by decide) frequency.1
  exact Int.ediv_le_ediv (by decide) (Int.mul_le_mul_of_nonneg_right no_longer positive)

/-- The deadlines of two requests are right just if both fit, or end at the far end in that order. -/
theorem deadlines_right_iff (frequency : Frequency s.tickFrequency) (proper : Proper request) (proper' : Proper longer) :
    Right s request longer (s.expiralSystemTime request) (s.expiralSystemTime longer) ↔
      (Fits s request ∨ FallsBelow s request) ∧ (Fits s longer ∨ FallsBelow s longer) ∧
        (nanoseconds request ≤ nanoseconds longer → Ordered s request longer) := by
  rw [Right, enough_iff frequency proper, enough_iff frequency proper']
  refine and_congr_right fun enough => and_congr_right fun enough' => forall_congr' fun no_longer => ?_
  have more := ticks_mono frequency no_longer
  rcases enough with fits | below
  · -- the longer request's deadline is behind its own ticks, and those are behind the deadline of this one
    have here := fits.expiralSystemTime frequency proper
    have there := (enough_iff frequency proper').mpr enough'
    rw [Enough] at there
    exact ⟨fun _ below => absurd below (fits.not_fallsBelow frequency proper), fun _ => by omega⟩
  · have here := below.expiralSystemTime frequency proper
    rcases enough' with fits' | below'
    · have there := fits'.expiralSystemTime frequency proper'
      have excluded := fits'.not_fallsBelow frequency proper'
      constructor
      · exact fun order _ => ⟨fun below' => absurd below' excluded, fun _ => by omega⟩
      · intro ordered
        have far := (ordered below).2 fits'
        omega
    · have there := below'.expiralSystemTime frequency proper'
      constructor
      · exact fun order _ => ⟨fun _ => by omega, fun fits' => absurd below' (fits'.not_fallsBelow frequency proper')⟩
      · intro ordered
        have far := (ordered below).1 below'
        omega

/-! ## The timers of two calls -/

section Timers

variable [DecidableEq T] {heap : ArrayHeap (ThreadTimer T)} {s₁ s₂ : SystemTimer T} {timers : List (ThreadTimer T)}
  {thread laterThread : T} {timer laterTimer : ThreadTimer T}

/-- The timer that a call has appended, and what the call leaves as it was. -/
theorem Appends.appended (holds : Holds s.timers timers) (appends : Appends heap s request thread timer s₁) :
    timer.expiralSystemTime = s.expiralSystemTime request ∧ s₁.systemTicks = s.systemTicks ∧
      s₁.tickFrequency = s.tickFrequency ∧ Holds s₁.timers (timers ++ [timer]) := by
  obtain ⟨slept, grown⟩ := appends
  let _ : Inhabited (ThreadTimer T) := ⟨timer⟩
  cases appended : append heap s.timers ⟨thread, s.expiralSystemTime request⟩ with
  | none => simp [sleep, appended] at slept
  | some result =>
    rw [sleep, appended] at slept
    cases slept
    have after := holds.after_append appended
    have same := after.contents_eq.symm.trans grown
    rw [holds.contents_eq] at same
    split at after
    · rename_i refused
      rw [if_pos refused] at same
      exact absurd (congrArg List.length same) (by simp)
    · rename_i granted
      rw [if_neg granted, List.append_cancel_left_eq] at same
      cases same
      exact ⟨rfl, rfl, rfl, after⟩

/-- The timers that two calls of `sleep` append, one behind the other before the next tick, are far enough away, and
the longer one's not earlier, just if both requests fit, or end at the far end in that order. -/
theorem sleeps_long_enough_iff (holds : Holds s.timers timers) (frequency : Frequency s.tickFrequency)
    (proper : Proper request) (proper' : Proper longer) (first : Appends heap s request thread timer s₁)
    (second : Appends heap s₁ longer laterThread laterTimer s₂) :
    Right s request longer timer.expiralSystemTime laterTimer.expiralSystemTime ↔
      (Fits s request ∨ FallsBelow s request) ∧ (Fits s longer ∨ FallsBelow s longer) ∧
        (nanoseconds request ≤ nanoseconds longer → Ordered s request longer) := by
  obtain ⟨deadline, ticks, rate, after⟩ := first.appended holds
  obtain ⟨laterDeadline, -⟩ := second.appended after
  have same : s₁.expiralSystemTime longer = s.expiralSystemTime longer := by
    rw [expiralSystemTime, expiralSystemTime, ticks, rate]
  rw [deadline, laterDeadline, same]
  exact deadlines_right_iff frequency proper proper'

end Timers

theorem frequency_atBoot : Frequency atBoot.tickFrequency := ⟨by decide, by decide⟩

/-- Two threads sleep for ten and for twenty milliseconds. -/
theorem short_sleeps : ∃ s₁ s₂, Appends timerHeap atBoot (.millis 10#32) 1 ⟨1, 1#32⟩ s₁ ∧
    Appends timerHeap s₁ (.duration ⟨0#32, 20000000#32⟩) 2 ⟨2, 2#32⟩ s₂ ∧
      Right atBoot (.millis 10#32) (.duration ⟨0#32, 20000000#32⟩) 1#32 2#32 := by
  have ten : Proper (.millis 10#32) := show 0 ≤ (10#32).toInt by decide
  have twenty : Proper (.duration ⟨0#32, 20000000#32⟩) := ⟨by decide, by decide, by decide⟩
  obtain ⟨s₁, s₂, first, second⟩ : ∃ s₁ s₂, Appends timerHeap atBoot (.millis 10#32) 1 ⟨1, 1#32⟩ s₁ ∧
      Appends timerHeap s₁ (.duration ⟨0#32, 20000000#32⟩) 2 ⟨2, 2#32⟩ s₂ := ⟨_, _, ⟨rfl, rfl⟩, rfl, rfl⟩
  refine ⟨s₁, s₂, first, second, ?_⟩
  refine (sleeps_long_enough_iff (holds_empty timerHeap) frequency_atBoot ten twenty first second).mpr ?_
  exact ⟨.inl ⟨by decide, by decide⟩, .inl ⟨by decide, by decide⟩, fun _ below => absurd below.1 (by decide)⟩

/-- Fifty milliseconds are over at once, instead of after five ticks. -/
theorem fifty_millis_are_cut : Frequency atBoot.tickFrequency ∧ Proper (.duration ⟨0#32, 50000000#32⟩) ∧
    ∃ s₁ s₂, Appends timerHeap atBoot (.duration ⟨0#32, 50000000#32⟩) 1 ⟨1, 0#32⟩ s₁ ∧
      Appends timerHeap s₁ (.duration ⟨0#32, 50000000#32⟩) 2 ⟨2, 0#32⟩ s₂ ∧
        ¬Right atBoot (.duration ⟨0#32, 50000000#32⟩) (.duration ⟨0#32, 50000000#32⟩) 0#32 0#32 := by
  refine ⟨frequency_atBoot, ⟨by decide, by decide, by decide⟩, _, _, ⟨rfl, rfl⟩, ⟨rfl, rfl⟩, fun right => ?_⟩
  have enough : (5 : Int) ≤ 0 := right.1
  exact absurd enough (by decide)

end FluxOS.SystemTimer
