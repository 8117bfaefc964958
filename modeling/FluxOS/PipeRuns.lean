import FluxOS.Pipe

/-! Any sequence of calls on one pipe: what its reads return is what its writes
accepted, in the same order. -/
namespace FluxOS.Pipe
open Words UserMemoryOps

/-- The calls made on one pipe so far: all the bytes its writes accepted, all that its reads returned, and the
pipe. -/
inductive PipeRun : List Byte → List Byte → PipeDesc → Prop
  | newPipe {buf} (room : buf.length = 8192) : PipeRun [] [] (newPipe buf)
  | write {accepted returned pd buf size bytes pd'} (run : PipeRun accepted returned pd)
      (within : size.toNat + 8192 < 2 ^ 32) (room : size.toNat ≤ buf.length)
      (wrote : write pd buf size = some (bytes, pd')) : PipeRun (accepted ++ buf.take bytes.toNat) returned pd'
  | read {accepted returned pd buf size bytes buf' pd'} (run : PipeRun accepted returned pd)
      (within : size.toNat + 8192 < 2 ^ 32) (room : size.toNat ≤ buf.length)
      (got : read pd buf size = some (bytes, buf', pd')) : PipeRun accepted (returned ++ buf'.take bytes.toNat) pd'

/-- At any time the pipe holds what has been accepted and not been returned. -/
theorem PipeRun.holds {accepted returned : List Byte} {pd : PipeDesc} (run : PipeRun accepted returned pd) :
    ∃ queue, Holds pd queue ∧ accepted = returned ++ queue := by
  induction run with
  | newPipe room => exact ⟨[], holds_newPipe room, rfl⟩
  | write run within room wrote ih =>
    obtain ⟨queue, holds, rfl⟩ := ih
    obtain ⟨bytes, pd', result, -, after⟩ := write_spec holds _ _ within room
    cases wrote.symm.trans result
    exact ⟨_, after, List.append_assoc _ _ _⟩
  | read run within room got ih =>
    obtain ⟨queue, holds, rfl⟩ := ih
    obtain ⟨bytes, buf', pd', result, -, -, copied, after⟩ := read_spec holds _ _ within room
    cases got.symm.trans result
    refine ⟨_, after, ?_⟩
    rw [copied, List.append_assoc, List.take_append_drop]

/-- A pipe is first in, first out, and every call transfers as much as it can. -/
theorem first_in_first_out {accepted returned : List Byte} {pd : PipeDesc} (run : PipeRun accepted returned pd) :
    returned <+: accepted ∧ accepted = returned ++ buffered pd ∧
    pd.count.toNat = (buffered pd).length ∧ pd.count.toNat ≤ 8192 ∧
    (∀ (buf : List Byte) (size : Word), size.toNat + 8192 < 2 ^ 32 → size.toNat ≤ buf.length →
      ∃ bytes pd', write pd buf size = some (bytes, pd') ∧
        bytes.toNat = min size.toNat (8192 - (buffered pd).length)) ∧
    ∀ (buf : List Byte) (size : Word), size.toNat + 8192 < 2 ^ 32 → size.toNat ≤ buf.length →
      ∃ bytes buf' pd', read pd buf size = some (bytes, buf', pd') ∧
        bytes.toNat = min size.toNat (buffered pd).length := by
  obtain ⟨queue, holds, total⟩ := run.holds
  rw [holds.buffered_eq]
  refine ⟨⟨queue, total.symm⟩, total, holds.count, ?_, ?_, ?_⟩
  · rw [holds.count]
    exact holds.fits
  · intro buf size within room
    obtain ⟨bytes, pd', result, amount, -⟩ := write_spec holds _ _ within room
    exact ⟨bytes, pd', result, amount⟩
  · intro buf size within room
    obtain ⟨bytes, buf', pd', result, amount, -⟩ := read_spec holds _ _ within room
    exact ⟨bytes, buf', pd', result, amount⟩

/-- Three bytes written and two of them read: the third is left. -/
theorem third_byte_left : ∃ pd returned, PipeRun [1#8, 2#8, 3#8] returned pd ∧ returned.length = 2 ∧
    returned <+: [1#8, 2#8, 3#8] ∧ (buffered pd).length = 1 := by
  have created : PipeRun [] [] (newPipe (List.replicate 8192 0#8)) := .newPipe List.length_replicate
  obtain ⟨queue, holds, total⟩ := created.holds
  cases total
  obtain ⟨bytes, pd, wrote, amount, stored⟩ :=
    write_spec holds [1#8, 2#8, 3#8] 3#32 (by decide) (by decide)
  have three : bytes.toNat = 3 := amount
  have written := PipeRun.write created (by decide) (by decide) wrote
  rw [three] at written stored
  obtain ⟨bytes', buf', pd', got, amount', -, copied, -⟩ :=
    read_spec stored [0#8, 0#8] 2#32 (by decide) (by decide)
  have two : bytes'.toNat = 2 := amount'
  have readOut := PipeRun.read written (by decide) (by decide) got
  rw [copied, two] at readOut
  obtain ⟨first, whole, -⟩ := first_in_first_out readOut
  refine ⟨pd', _, readOut, rfl, first, ?_⟩
  have lengths : 3 = (buffered pd').length + 1 + 1 := by simpa using congrArg List.length whole
  omega

end FluxOS.Pipe
