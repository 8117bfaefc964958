import FluxOS.Words

/-! The physical page bitmap and its two operations, as `PhysicalMM` computes
them word by word, and what they do to the set of allocated pages. -/
namespace FluxOS
open Words

/-- `pageBitmap`: one bit a page, 32 pages a word. -/
structure PhysicalMM where
  pageBitmap : Nat → Word

namespace PhysicalMM

/-- The page's bit is set. -/
def allocated (m : PhysicalMM) (n : Nat) : Bool := (m.pageBitmap (n / 32)).getLsbD (n % 32)

/-- `pageBitmap[n / 32] |= 1 << (n % 32)`. -/
def setBit (m : PhysicalMM) (n : Nat) : PhysicalMM where
  pageBitmap := Function.update m.pageBitmap (n / 32) (m.pageBitmap (n / 32) ||| BitVec.twoPow 32 (n % 32))

/-- `pageBitmap[n / 32] &= ~(1 << (n % 32))`. -/
def resetBit (m : PhysicalMM) (n : Nat) : PhysicalMM where
  pageBitmap := Function.update m.pageBitmap (n / 32) (m.pageBitmap (n / 32) &&& ~~~BitVec.twoPow 32 (n % 32))

/-- The search of `allocPage` over the words `i`, `i + 1`, ... of the bitmap: the
lowest clear bit of the first word that has one. -/
def allocPageFrom (m : PhysicalMM) : Nat → Nat → PhysicalMM × Word
  | 0, _ => (m, 0xFFFFFFFF#32)
  | words + 1, i =>
    match (List.range 32).find? fun j => !(m.pageBitmap i).getLsbD j with
    | some j => (m.setBit (i * 32 + j), pageAddress (i * 32 + j))
    | none => allocPageFrom m words (i + 1)

/-- `allocPage`, with -1 as the address when every page is taken. -/
def allocPage (m : PhysicalMM) : PhysicalMM × Word := allocPageFrom m 0x8000 0

/-- `freePage`. There is no result when the page is free already: the kernel
panics. -/
def freePage (m : PhysicalMM) (addr : Word) : Option PhysicalMM :=
  if m.allocated (page addr) then some (m.resetBit (page addr)) else none

/-- Writing one word of the bitmap. -/
theorem allocated_write (m : PhysicalMM) (i k : Nat) (word : Word) :
    (PhysicalMM.mk (Function.update m.pageBitmap i word)).allocated k =
      if k / 32 = i then word.getLsbD (k % 32) else m.allocated k := by
  unfold allocated
  dsimp only
  by_cases here : k / 32 = i
  · rw [if_pos here, here, Function.update_self]
  · rw [if_neg here, Function.update_of_ne here]

/-- Two pages of one word differ by their bits. -/
theorem bit_eq_iff {n k : Nat} (word : k / 32 = n / 32) : k % 32 = n % 32 ↔ k = n := by
  omega

theorem allocated_setBit (m : PhysicalMM) (n k : Nat) :
    (m.setBit n).allocated k = (decide (k = n) || m.allocated k) := by
  rw [setBit, allocated_write]
  by_cases word : k / 32 = n / 32
  · have width : k % 32 < 32 := Nat.mod_lt _ (by decide)
    simp [word, allocated, width, bit_eq_iff word, Bool.or_comm]
  · have different : k ≠ n := fun same => word (by rw [same])
    simp [word, different]

theorem allocated_resetBit (m : PhysicalMM) (n k : Nat) :
    (m.resetBit n).allocated k = (!decide (k = n) && m.allocated k) := by
  rw [resetBit, allocated_write]
  by_cases word : k / 32 = n / 32
  · have width : k % 32 < 32 := Nat.mod_lt _ (by decide)
    simp [word, allocated, width, bit_eq_iff word, Bool.and_comm]
  · have different : k ≠ n := fun same => word (by rw [same])
    simp [word, different]

/-- What asking for a page can do. -/
inductive PageAllocation (m : PhysicalMM) : PhysicalMM × Word → Prop where
  | exhausted (full : ∀ n < 2 ^ 20, m.allocated n) : PageAllocation m (m, 0xFFFFFFFF#32)
  | taken (n : Nat) (bound : n < 2 ^ 20) (free : m.allocated n = false) :
      PageAllocation m (m.setBit n, pageAddress n)

/-- The search takes the lowest free page, if there is one. -/
theorem allocPage_cases (m : PhysicalMM) : (m.allocPage = (m, 0xFFFFFFFF#32) ∧ ∀ n < 2 ^ 20, m.allocated n) ∨
    ∃ n < 2 ^ 20, m.allocPage = (m.setBit n, pageAddress n) ∧ m.allocated n = false ∧ ∀ k < n, m.allocated k := by
  suffices search : ∀ words i, i + words = 0x8000 → (∀ n < i * 32, m.allocated n) →
      (m.allocPageFrom words i = (m, 0xFFFFFFFF#32) ∧ ∀ n < 2 ^ 20, m.allocated n) ∨
        ∃ n < 2 ^ 20, m.allocPageFrom words i = (m.setBit n, pageAddress n) ∧ m.allocated n = false ∧
          ∀ k < n, m.allocated k from search 0x8000 0 rfl (by simp)
  intro words
  induction words with
  | zero =>
    intro i all full
    exact .inl ⟨rfl, fun n bound => full n (by omega)⟩
  | succ words ih =>
    intro i all full
    simp only [allocPageFrom]
    have inWord (n : Nat) (here : n / 32 = i) : m.allocated n = (m.pageBitmap i).getLsbD (n % 32) := by
      rw [allocated, here]
    cases clear : (List.range 32).find? fun j => !(m.pageBitmap i).getLsbD j with
    | some j =>
      obtain ⟨unset, member, before⟩ := List.find?_range_eq_some.mp clear
      have bound : j < 32 := List.mem_range.mp member
      refine .inr ⟨i * 32 + j, by omega, rfl, ?_, fun k below => ?_⟩
      · rw [inWord _ (by omega), show (i * 32 + j) % 32 = j by omega]
        simpa using unset
      · by_cases earlier : k < i * 32
        · exact full k earlier
        · rw [inWord k (by omega)]
          simpa using before (k % 32) (by omega)
    | none =>
      refine ih (i + 1) (by omega) fun n bound => ?_
      by_cases below : n < i * 32
      · exact full n below
      · have set := List.find?_eq_none.mp clear (n % 32) (List.mem_range.mpr (Nat.mod_lt _ (by decide)))
        rw [inWord n (by omega)]
        simpa using set

theorem allocPage_allocation (m : PhysicalMM) : PageAllocation m m.allocPage := by
  obtain ⟨answer, full⟩ | ⟨n, bound, answer, free, -⟩ := m.allocPage_cases
  · rw [answer]
    exact .exhausted full
  · rw [answer]
    exact .taken n bound free

end PhysicalMM

end FluxOS
