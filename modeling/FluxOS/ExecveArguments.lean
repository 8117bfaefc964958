import FluxOS.ArgumentTables
import Mathlib.Tactic.IntervalCases

/-! The arguments of `execve`: the pass that measures stops after a number of strings and says
nothing about it, and the pass that copies does not. -/
namespace FluxOS.UserProcessImage
open Words UserMemoryOps

/-- `execve` refused and left the process image as it was. -/
def Refused (mem : Memory) (process : ProcessImage) (executed : Executed) : Prop :=
  ∃ ret mem' process', executed = .refused ret mem' process' ∧ ret.slt 0#32 ∧ Unchanged mem mem' process process'

/-- However the variables and the other steps are, `execve` refuses and leaves the process image as it was, or it never
writes past a block and the new process finds its arguments and its environment. -/
def Passes (heap : Heap) (mem : Memory) (process : ProcessImage) (fileName : FileName) (argv envp : Word)
    (args env : List StringAt) : Prop :=
  ∀ argc envc image, ∃ executed, execve heap mem process fileName argv envp argc envc image = some executed ∧
    (Refused mem process executed ∨
      ∃ mem' sp process', executed = .started mem' sp process' ∧ Started mem' sp args env)

/-- The vector is measured, and `malloc` has a block of that size. -/
def Granted (block : Word → Word) (v : Word) (strings : List StringAt) (maxNum : Nat) (maxStrLen : Word) : Prop :=
  Accepted v strings maxNum maxStrLen ∧ block (measuredSize strings maxNum) ≠ 0#32

/-- The strings up to the first one that the copying pass refuses are no more than was measured. -/
def Fitting (strings : List StringAt) (maxNum : Nat) : Prop :=
  (contents (taken (measuredSize strings maxNum) strings)).length ≤ (measuredSize strings maxNum).toNat

instance (strings : List StringAt) (maxNum : Nat) : Decidable (Fitting strings maxNum) := inferInstanceAs (Decidable (_ ≤ _))

/-- Every check of both passes goes well. -/
def Copyable (block : Word → Word) (v : Word) (strings : List StringAt) (maxNum : Nat) (maxStrLen : Word) : Prop :=
  Granted block v strings maxNum maxStrLen ∧ ∀ s ∈ strings, readable (measuredSize strings maxNum) s

/-- What the vectors need: those that get a block fit into it, and those that are copied as a
whole have fewer strings than are measured and do not push the file name off the stack. -/
structure Meets (heap : Heap) (fileName : FileName) (argv envp : Word) (args env : List StringAt) : Prop where
  argsFit : Granted heap.argsBlock argv args maxArgsNumber maxArgLen → Fitting args maxArgsNumber
  envFit : Copyable heap.argsBlock argv args maxArgsNumber maxArgLen →
    Granted heap.envBlock envp env maxEnvVarsNumber maxEnvVarLen → Fitting env maxEnvVarsNumber
  counts : Copyable heap.argsBlock argv args maxArgsNumber maxArgLen →
    Copyable heap.envBlock envp env maxEnvVarsNumber maxEnvVarLen → args.length < maxArgsNumber ∧ env.length < maxEnvVarsNumber
  auxInside : Copyable heap.argsBlock argv args maxArgsNumber maxArgLen →
    Copyable heap.envBlock envp env maxEnvVarsNumber maxEnvVarLen →
      AuxInside (measuredSize args maxArgsNumber) (measuredSize env maxEnvVarsNumber) fileName.auxBlockSize

section OneVector

variable {mem mem₀ : Memory} {block : Word → Word} {v size num num' maxStrLen : Word} {strings : List StringAt} {maxNum : Nat}

/-- A vector that is accepted is in user space. -/
theorem Accepted.user (accepted : Accepted v strings maxNum maxStrLen) (vector : IsVector mem v strings)
    (positive : 0 < maxNum) : userspaceLowAddr.toNat ≤ v.toNat := by
  cases strings with
  | nil =>
    have allowed := accepted.2 positive
    rw [List.length_nil, entryAt, Nat.mul_zero, BitVec.add_zero] at allowed
    exact user_of_canRead allowed
  | cons s rest =>
    obtain ⟨maxNum, rfl⟩ : ∃ more, maxNum = more + 1 := ⟨maxNum - 1, by omega⟩
    have counted := (accepted_cons.mp accepted).1
    simp only [measurable, Bool.and_eq_true] at counted
    rw [vector.1.1] at counted
    exact user_of_canRead counted.1.1

/-- How copying a measured vector to `block` ends. -/
inductive CopyEnds (mem : Memory) (block : Word) (strings : List StringAt) (maxNum : Nat) : Copying → Prop
  | overrun (long : ¬Fitting strings maxNum) : CopyEnds mem block strings maxNum .overrun
  | refused {ret : Word} {mem' : Memory} (fits : Fitting strings maxNum)
      (unread : ¬∀ s ∈ strings, readable (measuredSize strings maxNum) s) (negative : ret.slt 0#32)
      (kept : ∀ a : Word, userspaceLowAddr.toNat ≤ a.toNat → mem' a = mem a) :
      CopyEnds mem block strings maxNum (.refused ret mem')
  | copied {mem' : Memory} (fits : Fitting strings maxNum)
      (read : ∀ s ∈ strings, readable (measuredSize strings maxNum) s)
      (short : (contents strings).length ≤ (measuredSize strings maxNum).toNat) (bytes : Reads mem' block (contents strings))
      (kept : ∀ a : Word, (a.toNat < block.toNat ∨ block.toNat + (contents strings).length ≤ a.toNat) → mem' a = mem a) :
      CopyEnds mem block strings maxNum (.copied mem')

/-- What the copying pass says from its first string on. -/
theorem CopySpec.ends {start : Word} {outcome : Copying}
    (spec : CopySpec mem start (measuredSize strings maxNum) 0 strings outcome) :
    CopyEnds mem start strings maxNum outcome := by
  by_cases fits : Fitting strings maxNum
  case neg =>
    rw [spec.overrun (by rw [Fitting] at fits; omega)]
    exact .overrun fits
  have within : 0 + (contents (taken (measuredSize strings maxNum) strings)).length ≤
      (measuredSize strings maxNum).toNat := by rwa [Nat.zero_add]
  by_cases read : ∀ s ∈ strings, readable (measuredSize strings maxNum) s
  case neg =>
    obtain ⟨ret, mem', rfl, negative, kept⟩ := spec.refused within read
    exact .refused fits read negative kept
  obtain ⟨mem', rfl, bytes, kept⟩ := spec.copied within read
  rw [BitVec.add_zero] at bytes
  rw [taken_eq read, Nat.zero_add] at within
  exact .copied fits read within bytes kept

end OneVector

section Runs

variable {heap : Heap} {mem : Memory} {process : ProcessImage} {fileName : FileName} {argv envp : Word}
  {args env : List StringAt}

/-- What the kernel has when both vectors are copied. -/
structure Prepared (heap : Heap) (mem : Memory) (argv envp : Word) (args env : List StringAt) : Prop where
  argsCopyable : Copyable heap.argsBlock argv args maxArgsNumber maxArgLen
  envCopyable : Copyable heap.envBlock envp env maxEnvVarsNumber maxEnvVarLen
  argsFit : Fitting args maxArgsNumber
  envFit : Fitting env maxEnvVarsNumber
  argsBytes : Reads mem (heap.argsBlock (measuredSize args maxArgsNumber)) (contents args)
  envBytes : Reads mem (heap.envBlock (measuredSize env maxEnvVarsNumber)) (contents env)

theorem IsVector.proper {v : Word} {strings : List StringAt} (vector : IsVector mem v strings) :
    ∀ s ∈ strings, ∀ c ∈ s.chars, c ≠ 0#8 := by
  induction strings generalizing v with
  | nil => nofun
  | cons s rest ih =>
    obtain ⟨-, -, string, others⟩ := vector
    exact List.forall_mem_cons.mpr ⟨string.proper, ih others⟩

theorem contents_append (first last : List StringAt) : contents (first ++ last) = contents first ++ contents last :=
  List.flatMap_append

/-- The strings that are counted are made into tables. -/
theorem Prepared.build (prepared : Prepared heap mem argv envp args env) (process : ProcessImage) (image : NewImage)
    {argc envc : Nat}
    (inside : AuxInside (measuredSize args maxArgsNumber) (measuredSize env maxEnvVarsNumber) fileName.auxBlockSize)
    (argcFew : argc ≤ args.length) (envcFew : envc ≤ env.length) (argcSmall : argc ≤ 16) (envcSmall : envc ≤ 16)
    (argsProper : ∀ s ∈ args, ∀ c ∈ s.chars, c ≠ 0#8) (envProper : ∀ s ∈ env, ∀ c ∈ s.chars, c ≠ 0#8) :
    ∃ executed, buildImage mem process fileName image (BitVec.ofNat 32 argc) (measuredSize args maxArgsNumber)
        (heap.argsBlock (measuredSize args maxArgsNumber)) (BitVec.ofNat 32 envc) (measuredSize env maxEnvVarsNumber)
        (heap.envBlock (measuredSize env maxEnvVarsNumber)) = some executed ∧
      ((∃ ret mem' process', executed = .refused ret mem' process' ∧ ret.slt 0#32 ∧ Unchanged mem mem' process process' ∧
          (image.granted = false ∨ image.loaded.slt 0#32 ∨ image.dataSegment.slt 0#32)) ∨
        ∃ mem' sp process', executed = .started mem' sp process' ∧ Started mem' sp (args.take argc) (env.take envc)) := by
  have argsFit := prepared.argsFit
  have envFit := prepared.envFit
  rw [Fitting, taken_eq prepared.argsCopyable.2] at argsFit
  rw [Fitting, taken_eq prepared.envCopyable.2] at envFit
  have argsSplit : contents args = contents (args.take argc) ++ contents (args.drop argc) := by
    rw [← contents_append, List.take_append_drop]
  have envSplit : contents env = contents (env.take envc) ++ contents (env.drop envc) := by
    rw [← contents_append, List.take_append_drop]
  have argsBytes := prepared.argsBytes
  have envBytes := prepared.envBytes
  rw [argsSplit, reads_append] at argsBytes
  rw [envSplit, reads_append] at envBytes
  rw [argsSplit, List.length_append] at argsFit
  rw [envSplit, List.length_append] at envFit
  have argsLength : (args.take argc).length = argc := List.length_take_of_le argcFew
  have envLength : (env.take envc).length = envc := List.length_take_of_le envcFew
  refine buildImage_spec inside ?_ ?_ (by omega) (by omega) argsBytes.1 envBytes.1
    (fun s member => argsProper s (List.mem_of_mem_take member)) (fun s member => envProper s (List.mem_of_mem_take member))
    (by omega) (by omega) (heap.argsInside _ prepared.argsCopyable.1.2) (heap.envInside _ prepared.envCopyable.1.2)
  · rw [argsLength, BitVec.toNat_ofNat]
    omega
  · rw [envLength, BitVec.toNat_ofNat]
    omega

/-- A vector of that many pointers, each to the string "a". -/
def lettersMemory (n : Nat) : Memory := fun a =>
  if a = 0x08002000#32 then 97#8
  else if (a - 0x08001000#32).toNat < 4 * n then (wordBytes 0x08002000#32).getD ((a - 0x08001000#32).toNat % 4) 0#8
  else 0#8

theorem isString_letter (n : Nat) (few : n ≤ 6) : IsString (lettersMemory n) 0x08002000#32 [97#8] := by
  refine ⟨fun i inside => ?_, by decide, by decide⟩
  match i, inside with
  | 0, _ => rfl
  | 1, _ =>
    have outside : ¬(0x08002001#32 - 0x08001000#32 : Word).toNat < 4 * n := Nat.not_lt.mpr (by
      rw [show (0x08002001#32 - 0x08001000#32 : Word).toNat = 0x1001 from rfl]
      omega)
    exact if_neg outside

/-- "/bin/ls". -/
def listing : FileName := ⟨[47#8, 98#8, 105#8, 110#8, 47#8, 108#8, 115#8], by decide⟩

end Runs

end FluxOS.UserProcessImage
