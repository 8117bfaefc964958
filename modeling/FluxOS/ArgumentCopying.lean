import FluxOS.UserProcessImage
import Mathlib.Data.List.TakeWhile

/-! The passes over a vector of strings, in terms of the strings: what the measuring pass
answers, and which strings the copying pass takes before it stops. -/
namespace FluxOS.UserProcessImage
open Words UserMemoryOps

/-- A string of a vector: where its entry is, where its bytes are, and the bytes. -/
structure StringAt where
  entry : Word
  pointer : Word
  chars : List Byte

/-- A NULL-terminated vector of NUL-terminated strings. -/
def IsVector (mem : Memory) : Word → List StringAt → Prop
  | v, [] => v.toNat + 4 ≤ 2 ^ 32 ∧ word32 mem v = 0#32
  | v, s :: rest => (s.entry = v ∧ v.toNat + 8 ≤ 2 ^ 32) ∧ (word32 mem v = s.pointer ∧ s.pointer ≠ 0#32) ∧
      IsString mem s.pointer s.chars ∧ IsVector mem (v + 4#32) rest

/-- The strings one after the other, each with its NUL. -/
def contents (strings : List StringAt) : List Byte := strings.flatMap fun s => s.chars ++ [0#8]

/-- The measuring pass accepts the string. -/
def measurable (maxStrLen : Word) (s : StringAt) : Bool :=
  canReadUserMemory s.entry 4#32 && canReadUserMemory s.pointer maxStrLen && decide (s.chars.length < 2 ^ 31)

/-- The measuring pass accepts the vector: the strings that it looks at, and the end if it comes to it. -/
def Accepted (v : Word) (strings : List StringAt) (maxNum : Nat) (maxStrLen : Word) : Prop :=
  (∀ s ∈ strings.take maxNum, measurable maxStrLen s) ∧
    (strings.length < maxNum → canReadUserMemory (entryAt v strings.length) 4#32)

/-- The size that the measuring pass answers then. -/
def measuredSize (strings : List StringAt) (maxNum : Nat) : Word :=
  BitVec.ofNat 32 (contents (strings.take maxNum)).length

/-- The copying pass accepts the string. -/
def readable (blockSize : Word) (s : StringAt) : Bool :=
  canReadUserMemory s.entry 4#32 && canReadUserMemory s.pointer (blockSize - 1#32) &&
    decide (s.chars.length < 2 ^ 31) && canReadUserMemory s.pointer (BitVec.ofNat 32 (s.chars.length + 1))

section Measuring

variable {mem : Memory} {v : Word} {strings : List StringAt}

@[simp] theorem contents_cons (s : StringAt) (rest : List StringAt) :
    contents (s :: rest) = (s.chars ++ [0#8]) ++ contents rest := rfl

theorem length_contents_cons (s : StringAt) (rest : List StringAt) :
    (contents (s :: rest)).length = s.chars.length + 1 + (contents rest).length := by
  rw [contents_cons, List.length_append, List.length_append]
  rfl

theorem accepted_cons {maxNum : Nat} {maxStrLen : Word} {s : StringAt} : Accepted v (s :: strings) (maxNum + 1) maxStrLen ↔
    measurable maxStrLen s ∧ Accepted (v + 4#32) strings maxNum maxStrLen := by
  have last : entryAt v (s :: strings).length = entryAt (v + 4#32) strings.length := by
    rw [entryAt, entryAt, List.length_cons, Nat.mul_succ, BitVec.add_assoc, BitVec.add_comm 4#32, ← BitVec.ofNat_add]
  rw [Accepted, Accepted, last]
  simp only [List.take_succ_cons, List.forall_mem_cons, List.length_cons, Nat.add_lt_add_iff_right, and_assoc]

end Measuring

section Copying

variable {mem mem₀ : Memory} {block blockSize v : Word} {strings : List StringAt}

/-- Where the copying pass comes to before a check stops it. -/
def taken (blockSize : Word) (strings : List StringAt) : List StringAt := strings.takeWhile (readable blockSize)

/-- How copying the strings to this place in the block ends. -/
structure CopySpec (mem : Memory) (block blockSize : Word) (offset : Nat) (strings : List StringAt) (outcome : Copying) :
    Prop where
  overrun : blockSize.toNat < offset + (contents (taken blockSize strings)).length → outcome = .overrun
  refused : offset + (contents (taken blockSize strings)).length ≤ blockSize.toNat →
    (¬∀ s ∈ strings, readable blockSize s) → ∃ ret mem', outcome = .refused ret mem' ∧ ret.slt 0#32 ∧
      ∀ a : Word, userspaceLowAddr.toNat ≤ a.toNat → mem' a = mem a
  copied : offset + (contents (taken blockSize strings)).length ≤ blockSize.toNat →
    (∀ s ∈ strings, readable blockSize s) → ∃ mem', outcome = .copied mem' ∧
      Reads mem' (block + BitVec.ofNat 32 offset) (contents strings) ∧
      ∀ a : Word, (a.toNat < block.toNat + offset ∨ block.toNat + offset + (contents strings).length ≤ a.toNat) →
        mem' a = mem a

theorem taken_cons_of_readable {s : StringAt} (read : readable blockSize s) :
    taken blockSize (s :: strings) = s :: taken blockSize strings := List.takeWhile_cons_of_pos read

theorem taken_eq (all : ∀ s ∈ strings, readable blockSize s) : taken blockSize strings = strings :=
  List.takeWhile_eq_self_iff.mpr all

/-- A pointer that passes the check is a user address. -/
theorem user_of_canRead {ptr size : Word} (allowed : canReadUserMemory ptr size) : userspaceLowAddr.toNat ≤ ptr.toNat := by
  simp only [canReadUserMemory, Bool.and_eq_true, decide_eq_true_eq, BitVec.le_def] at allowed
  exact allowed.1

/-- Behind a string that is copied the copying goes on. -/
theorem CopySpec.cons {offset : Nat} {s : StringAt} {outcome : Copying} (read : readable blockSize s)
    (kernel : block.toNat + blockSize.toNat ≤ userspaceLowAddr.toNat)
    (room : offset + (s.chars.length + 1) ≤ blockSize.toNat)
    (spec : CopySpec (storeBytes mem (block + BitVec.ofNat 32 offset) (s.chars ++ [0#8])) block blockSize
      (offset + (s.chars.length + 1)) strings outcome) : CopySpec mem block blockSize offset (s :: strings) outcome := by
  have counted := length_contents_cons s (taken blockSize strings)
  rw [← taken_cons_of_readable read] at counted
  have low : userspaceLowAddr.toNat < 2 ^ 32 := userspaceLowAddr.isLt
  have place : (block + BitVec.ofNat 32 offset).toNat = block.toNat + offset := toNat_offset (by omega)
  have length : (s.chars ++ [0#8]).length = s.chars.length + 1 := by simp
  refine ⟨fun outgrown => spec.overrun (by omega), fun within some => ?_, fun within all => ?_⟩
  · have unread : ¬∀ s ∈ strings, readable blockSize s := fun all => some (List.forall_mem_cons.mpr ⟨read, all⟩)
    obtain ⟨ret, mem', stopped, negative, kept⟩ := spec.refused (by omega) unread
    refine ⟨ret, mem', stopped, negative, fun a high => ?_⟩
    rw [kept a high, storeBytes_other (by omega) (by omega)]
  · have others := (List.forall_mem_cons.mp all).2
    rw [taken_eq all] at within
    have whole := length_contents_cons s strings
    obtain ⟨mem', same, reads, kept⟩ := spec.copied (by rw [taken_eq others]; omega) others
    have first : Reads mem' (block + BitVec.ofNat 32 offset) (s.chars ++ [0#8]) :=
      (reads_storeBytes (by omega)).congr (by omega) fun a _ high => kept a (.inl (by omega))
    refine ⟨mem', same, ?_, fun a outside => ?_⟩
    · rw [contents_cons, reads_append, length, BitVec.add_assoc, ← BitVec.ofNat_add]
      exact ⟨first, reads⟩
    · rw [kept a (by omega), storeBytes_other (by omega) (by omega)]

theorem IsVector.length_le (vector : IsVector mem v strings) : v.toNat + 4 * (strings.length + 1) ≤ 2 ^ 32 := by
  induction strings generalizing v with
  | nil => exact vector.1
  | cons s rest ih =>
    obtain ⟨⟨-, inside⟩, -, -, others⟩ := vector
    have next : (v + 4#32).toNat = v.toNat + 4 := toNat_offset (i := 4) (by omega)
    have later := ih others
    rw [List.length_cons]
    omega

end Copying

end FluxOS.UserProcessImage
