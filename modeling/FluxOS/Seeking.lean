import FluxOS.VFS

/-! The position of an open file, `lseek`. Pipes and sockets are told from other
files by a mask that is not a type: every regular file and every directory has a
bit in it. What passes the test is sought for in 64 bits, where no position is
below zero. -/
namespace FluxOS.FSUAPI
open Words VFS

def espipe : Nat := 29

def sIfsock : Word := 0o140000#32
def sIfifo : Word := 0o010000#32

def seekSet : Word := 0#32
def seekCur : Word := 1#32
def seekEnd : Word := 2#32

/-- The calls into the node's file system: what each returns, and what it leaves
in the variable it is given. -/
structure SeekCalls where
  type : VNode → Int × Word
  size : VNode → Int × BitVec 64

/-- The `switch` of `lseek`: the new `fpos`, or nothing for `-EINVAL`. -/
def seek (fpos size : BitVec 64) (offset whence : Word) : Option (BitVec 64) :=
  let offset' := offset.signExtend 64
  if whence = seekSet then
    if offset'.toInt > size.toInt ∨ offset.toInt < 0 then none else some offset'
  else if whence = seekCur then
    -- the second comparison is one of unsigned numbers
    if (fpos + offset').toInt > size.toInt ∨ (fpos + offset').toNat < 0 then none else some (fpos + offset')
  else if whence = seekEnd then
    if (size + offset').toInt > size.toInt then none else some (size + offset')
  else none

def lseek (calls : SeekCalls) (files : OpenFiles) (fd : Int) (offset whence : Word) : OpenFiles × Int :=
  match descriptor files fd with
  | none => (files, -ebadf)
  | some fdesc =>
    let (ret, type) := calls.type fdesc.node
    if ret < 0 then (files, ret)
    else if type &&& (sIfifo ||| sIfsock) ≠ 0#32 then (files, -espipe)
    else
      let (ret, size) := calls.size fdesc.node
      if ret < 0 then (files, ret)
      else
        match seek fdesc.fpos size offset whence with
        | none => (files, -einval)
        | some fpos => (files.set fd.toNat (some { fdesc with fpos }), (fpos.setWidth 32).toInt)

/-! ## What a call is to do -/

/-- A pipe or a socket. -/
def Unseekable (type : Word) : Prop := type &&& sIfmt = sIfifo ∨ type &&& sIfmt = sIfsock

instance (type : Word) : Decidable (Unseekable type) := inferInstanceAs (Decidable (_ ∨ _))

/-- The requested base and the offset together. -/
def sought (fpos size : BitVec 64) (offset whence : Word) : Option Int :=
  if whence = seekSet then some offset.toInt
  else if whence = seekCur then some (fpos.toNat + offset.toInt)
  else if whence = seekEnd then some (size.toInt + offset.toInt)
  else none

/-- The call sets the position asked for, which lies in the file, and returns it,
or returns an error and leaves everything as it was. -/
def MovesOrFails (calls : SeekCalls) (files : OpenFiles) (fd : Int) (fdesc : FileDescriptor)
    (offset whence : Word) : Prop :=
  (∃ p : Int, sought fdesc.fpos (calls.size fdesc.node).2 offset whence = some p ∧
      0 ≤ p ∧ p ≤ (calls.size fdesc.node).2.toInt ∧
      lseek calls files fd offset whence =
        (files.set fd.toNat (some { fdesc with fpos := BitVec.ofInt 64 p }), p)) ∨
    ∃ error : Nat, 0 < error ∧ lseek calls files fd offset whence = (files, -(error : Int))

/-- What `lseek` owes to each type of file. -/
structure SeeksRightly (calls : SeekCalls) (files : OpenFiles) (fd : Int) (fdesc : FileDescriptor)
    (offset whence : Word) : Prop where
  file : sIsreg (calls.type fdesc.node).2 ∨ sIsdir (calls.type fdesc.node).2 →
    MovesOrFails calls files fd fdesc offset whence
  refused : Unseekable (calls.type fdesc.node).2 → lseek calls files fd offset whence = (files, -(espipe : Int))
  only : ¬ Unseekable (calls.type fdesc.node).2 → (lseek calls files fd offset whence).2 ≠ -(espipe : Int)

/-- The position is one that `lseek` accepts and that reads as `-ESPIPE` when it is
cut to 32 bits. -/
def ReadsAsEspipe (size p : BitVec 64) : Prop := p.toInt ≤ size.toInt ∧ (p.setWidth 32).toInt = -(espipe : Int)

/-- Nothing but a pipe or socket is told `-ESPIPE`: no bit of the mask, no such
answer about the size, and no position that reads as it. -/
structure Spared (calls : SeekCalls) (fdesc : FileDescriptor) (offset whence : Word) : Prop where
  mask : (calls.type fdesc.node).2 &&& (sIfifo ||| sIfsock) = 0#32
  size : (calls.size fdesc.node).1 ≠ -(espipe : Int)
  current : 0 ≤ (calls.size fdesc.node).1 → whence = seekCur →
    ¬ ReadsAsEspipe (calls.size fdesc.node).2 (fdesc.fpos + offset.signExtend 64)
  fromEnd : 0 ≤ (calls.size fdesc.node).1 → whence = seekEnd →
    ¬ ReadsAsEspipe (calls.size fdesc.node).2 ((calls.size fdesc.node).2 + offset.signExtend 64)

theorem mask_of_type (type : Word) :
    type &&& (sIfifo ||| sIfsock) = type &&& sIfmt &&& (sIfifo ||| sIfsock) := by
  rw [BitVec.and_assoc, show sIfmt &&& (sIfifo ||| sIfsock) = sIfifo ||| sIfsock by decide]

theorem Unseekable.mask {type : Word} (unseekable : Unseekable type) :
    type &&& (sIfifo ||| sIfsock) ≠ 0#32 := by
  rw [mask_of_type]
  rcases unseekable with fifo | sock
  · rw [fifo]
    decide
  · rw [sock]
    decide

/-- A regular file and a directory have a bit in the mask as well. -/
theorem mask_of_file {type : Word} (file : sIsreg type ∨ sIsdir type) :
    type &&& (sIfifo ||| sIfsock) ≠ 0#32 := by
  rw [mask_of_type]
  rcases file with regular | directory
  · rw [of_decide_eq_true regular]
    decide
  · rw [of_decide_eq_true directory]
    decide

/-- Cutting an offset back to 32 bits undoes its extension. -/
theorem setWidth_signExtend (offset : Word) : (offset.signExtend 64).setWidth 32 = offset := by
  ext i bound
  rw [BitVec.getElem_setWidth, BitVec.getLsbD_signExtend, if_pos bound, BitVec.getLsbD_eq_getElem bound]
  simp only [show i < 64 by omega, decide_true, Bool.true_and]

/-- The accepted positions, by the base they are counted from. -/
theorem seek_eq_some_iff {fpos size p : BitVec 64} {offset whence : Word} :
    seek fpos size offset whence = some p ↔
      (whence = seekSet ∧ p = offset.signExtend 64 ∧ 0 ≤ offset.toInt ∧ offset.toInt ≤ size.toInt) ∨
        (whence = seekCur ∧ p = fpos + offset.signExtend 64 ∧ p.toInt ≤ size.toInt) ∨
        (whence = seekEnd ∧ p = size + offset.signExtend 64 ∧ p.toInt ≤ size.toInt) := by
  have extended : (offset.signExtend 64).toInt = offset.toInt := BitVec.toInt_signExtend_of_le (by decide)
  have others : seekCur ≠ seekSet ∧ seekEnd ≠ seekSet ∧ seekEnd ≠ seekCur := by decide
  simp only [seek, extended, gt_iff_lt, Nat.not_lt_zero, or_false]
  by_cases set : whence = seekSet
  · subst set
    rw [if_pos rfl, Option.ite_none_left_eq_some, Option.some.injEq]
    constructor
    · rintro ⟨accepted, rfl⟩
      exact .inl ⟨rfl, rfl, by omega, by omega⟩
    · rintro (⟨-, rfl, low, high⟩ | ⟨other, -⟩ | ⟨other, -⟩)
      · exact ⟨by omega, rfl⟩
      · exact absurd other.symm others.1
      · exact absurd other.symm others.2.1
  · rw [if_neg set]
    by_cases current : whence = seekCur
    · subst current
      rw [if_pos rfl, Option.ite_none_left_eq_some, Option.some.injEq]
      constructor
      · rintro ⟨accepted, rfl⟩
        exact .inr (.inl ⟨rfl, rfl, Int.not_lt.mp accepted⟩)
      · rintro (⟨other, -⟩ | ⟨-, rfl, high⟩ | ⟨other, -⟩)
        · exact absurd other set
        · exact ⟨Int.not_lt.mpr high, rfl⟩
        · exact absurd other.symm others.2.2
    · rw [if_neg current]
      by_cases fromEnd : whence = seekEnd
      · subst fromEnd
        rw [if_pos rfl, Option.ite_none_left_eq_some, Option.some.injEq]
        constructor
        · rintro ⟨accepted, rfl⟩
          exact .inr (.inr ⟨rfl, rfl, Int.not_lt.mp accepted⟩)
        · rintro (⟨other, -⟩ | ⟨other, -⟩ | ⟨-, rfl, high⟩)
          · exact absurd other set
          · exact absurd other current
          · exact ⟨Int.not_lt.mpr high, rfl⟩
      · rw [if_neg fromEnd]
        constructor
        · intro absurdity
          cases absurdity
        · rintro (⟨other, -⟩ | ⟨other, -⟩ | ⟨other, -⟩)
          · exact absurd other set
          · exact absurd other current
          · exact absurd other fromEnd

/-- A sum that stays in 63 bits is the sum, and any other one is below zero. -/
theorem moved_exact_iff {base : BitVec 64} (small : base.toNat < 2 ^ 63) {size : Int} (nonneg : 0 ≤ size)
    (offset : Word) :
    ((base + offset.signExtend 64).toInt ≤ size →
        (base.toNat : Int) + offset.toInt = (base + offset.signExtend 64).toInt ∧
          0 ≤ (base + offset.signExtend 64).toInt) ↔
      0 ≤ (base.toNat : Int) + offset.toInt ∧ (base.toNat : Int) + offset.toInt < 2 ^ 63 := by
  have extended : (offset.signExtend 64).toInt = offset.toInt := BitVec.toInt_signExtend_of_le (by decide)
  have sum := BitVec.toInt_add base (offset.signExtend 64)
  have low := BitVec.le_toInt offset
  have high := BitVec.toInt_lt (x := offset)
  have value : base.toInt = base.toNat := BitVec.toInt_eq_toNat_of_lt (by omega)
  rw [extended, value, Int.bmod_def] at sum
  rw [sum]
  omega

/-- Every position found is the one asked for and lies in the file. -/
def FindsSought (fpos size : BitVec 64) (offset whence : Word) : Prop :=
  ∀ p, seek fpos size offset whence = some p →
    sought fpos size offset whence = some p.toInt ∧ 0 ≤ p.toInt ∧ p.toInt ≤ size.toInt

private theorem finds_sought_from {fpos size base : BitVec 64} {offset whence : Word} (small : base.toNat < 2 ^ 63)
    (nonneg : 0 ≤ size.toInt) (asked : sought fpos size offset whence = some (base.toNat + offset.toInt))
    (found : ∀ p, seek fpos size offset whence = some p ↔
      p = base + offset.signExtend 64 ∧ p.toInt ≤ size.toInt) :
    FindsSought fpos size offset whence ↔
      0 ≤ (base.toNat : Int) + offset.toInt ∧ (base.toNat : Int) + offset.toInt < 2 ^ 63 := by
  rw [← moved_exact_iff small nonneg]
  constructor
  · intro finds accepted
    obtain ⟨same, low, -⟩ := finds _ ((found _).mpr ⟨rfl, accepted⟩)
    rw [asked, Option.some.injEq] at same
    exact ⟨same, low⟩
  · intro exact p took
    obtain ⟨rfl, accepted⟩ := (found p).mp took
    exact ⟨by rw [asked, (exact accepted).1], (exact accepted).2, accepted⟩

/-- Past the type test, `lseek` finds what is asked for just when base and offset
together do not lead below zero or out of 63 bits. From the start of the file they
never do: a negative offset is refused there, and there only. -/
theorem finds_sought_iff {fpos size : BitVec 64} (fposSmall : fpos.toNat < 2 ^ 63) (sizeSmall : size.toNat < 2 ^ 63)
    (offset whence : Word) :
    FindsSought fpos size offset whence ↔
      ∀ q, sought fpos size offset whence = some q → whence = seekSet ∨ 0 ≤ q ∧ q < 2 ^ 63 := by
  have extended : (offset.signExtend 64).toInt = offset.toInt := BitVec.toInt_signExtend_of_le (by decide)
  have sizeValue : size.toInt = size.toNat := BitVec.toInt_eq_toNat_of_lt (by omega)
  have nonneg : 0 ≤ size.toInt := by omega
  by_cases set : whence = seekSet
  · refine ⟨fun _ q _ => .inl set, fun _ p took => ?_⟩
    rw [seek, if_pos set, Option.ite_none_left_eq_some, Option.some.injEq, extended] at took
    obtain ⟨accepted, rfl⟩ := took
    rw [extended]
    exact ⟨by rw [sought, if_pos set], by omega, by omega⟩
  · have fixed : ∀ base : Int, sought fpos size offset whence = some base →
        ((∀ q, sought fpos size offset whence = some q → whence = seekSet ∨ 0 ≤ q ∧ q < 2 ^ 63) ↔
          0 ≤ base ∧ base < 2 ^ 63) := fun base asked => by
      simp [asked, set]
    by_cases current : whence = seekCur
    · have asked : sought fpos size offset whence = some (fpos.toNat + offset.toInt) := by
        rw [sought, if_neg set, if_pos current]
      rw [fixed _ asked]
      refine finds_sought_from fposSmall nonneg asked fun p => ?_
      rw [seek, if_neg set, if_pos current, Option.ite_none_left_eq_some, Option.some.injEq]
      simp only [gt_iff_lt, Nat.not_lt_zero, or_false, Int.not_lt]
      exact ⟨fun ⟨accepted, same⟩ => ⟨same.symm, same ▸ accepted⟩,
        fun ⟨same, accepted⟩ => ⟨same ▸ accepted, same.symm⟩⟩
    · by_cases fromEnd : whence = seekEnd
      · have asked : sought fpos size offset whence = some (size.toNat + offset.toInt) := by
          rw [sought, if_neg set, if_neg current, if_pos fromEnd, sizeValue]
        rw [fixed _ asked]
        refine finds_sought_from sizeSmall nonneg asked fun p => ?_
        rw [seek, if_neg set, if_neg current, if_pos fromEnd, Option.ite_none_left_eq_some, Option.some.injEq,
          gt_iff_lt, Int.not_lt]
        exact ⟨fun ⟨accepted, same⟩ => ⟨same.symm, same ▸ accepted⟩,
          fun ⟨same, accepted⟩ => ⟨same ▸ accepted, same.symm⟩⟩
      · have nothing : seek fpos size offset whence = none := by
          rw [seek, if_neg set, if_neg current, if_neg fromEnd]
        have unasked : sought fpos size offset whence = none := by
          rw [sought, if_neg set, if_neg current, if_neg fromEnd]
        simp [FindsSought, nothing, unasked]

section Open
variable {calls : SeekCalls} {files : OpenFiles} {fd : Int} {fdesc : FileDescriptor}

/-- The file-type test comes first. -/
theorem lseek_of_mask (opened : descriptor files fd = some fdesc) (typed : 0 ≤ (calls.type fdesc.node).1)
    (mask : (calls.type fdesc.node).2 &&& (sIfifo ||| sIfsock) ≠ 0#32) (offset whence : Word) :
    lseek calls files fd offset whence = (files, -(espipe : Int)) := by
  simp only [lseek, opened, if_neg (Int.not_lt.mpr typed), if_pos mask]

/-- Past the test, the size is asked for and the position is set. -/
theorem lseek_of_clear (opened : descriptor files fd = some fdesc) (typed : 0 ≤ (calls.type fdesc.node).1)
    (clear : (calls.type fdesc.node).2 &&& (sIfifo ||| sIfsock) = 0#32) (offset whence : Word) :
    lseek calls files fd offset whence =
      if (calls.size fdesc.node).1 < 0 then (files, (calls.size fdesc.node).1)
      else match seek fdesc.fpos (calls.size fdesc.node).2 offset whence with
        | none => (files, -(einval : Int))
        | some fpos => (files.set fd.toNat (some { fdesc with fpos }), (fpos.setWidth 32).toInt) := by
  simp only [lseek, opened, if_neg (Int.not_lt.mpr typed), clear, ne_eq, not_true_eq_false, if_false]

/-- A file that no bit of the mask names is told `-ESPIPE` only by accident. -/
theorem not_espipe_iff (opened : descriptor files fd = some fdesc) (typed : 0 ≤ (calls.type fdesc.node).1)
    (clear : (calls.type fdesc.node).2 &&& (sIfifo ||| sIfsock) = 0#32) (offset whence : Word) :
    (lseek calls files fd offset whence).2 ≠ -(espipe : Int) ↔ Spared calls fdesc offset whence := by
  rw [lseek_of_clear opened typed clear]
  by_cases failed : (calls.size fdesc.node).1 < 0
  · rw [if_pos failed]
    constructor
    · intro other
      exact ⟨clear, other, fun sized => absurd failed (Int.not_lt.mpr sized),
        fun sized => absurd failed (Int.not_lt.mpr sized)⟩
    · exact fun spared => spared.size
  · rw [if_neg failed]
    have sized : (calls.size fdesc.node).1 ≠ -(espipe : Int) := by
      rw [espipe]
      omega
    have decided : (match seek fdesc.fpos (calls.size fdesc.node).2 offset whence with
        | none => (files, -(einval : Int))
        | some fpos => (files.set fd.toNat (some { fdesc with fpos }), (fpos.setWidth 32).toInt)).2 =
          -(espipe : Int) ↔
        ∃ p, seek fdesc.fpos (calls.size fdesc.node).2 offset whence = some p ∧
          (p.setWidth 32).toInt = -(espipe : Int) := by
      cases seek fdesc.fpos (calls.size fdesc.node).2 offset whence with
      | none => simp [einval, espipe]
      | some p => simp
    rw [Ne, decided]
    simp only [seek_eq_some_iff]
    constructor
    · intro never
      refine ⟨clear, sized, fun _ current reads => never ?_, fun _ fromEnd reads => never ?_⟩
      · exact ⟨_, .inr (.inl ⟨current, rfl, reads.1⟩), reads.2⟩
      · exact ⟨_, .inr (.inr ⟨fromEnd, rfl, reads.1⟩), reads.2⟩
    · rintro ⟨-, -, current, fromEnd⟩ ⟨p, ⟨-, rfl, low, -⟩ | ⟨whenceIs, rfl, high⟩ | ⟨whenceIs, rfl, high⟩, reads⟩
      · rw [setWidth_signExtend, espipe] at reads
        omega
      · exact current (Int.not_lt.mp failed) whenceIs ⟨high, reads⟩
      · exact fromEnd (Int.not_lt.mp failed) whenceIs ⟨high, reads⟩

/-- **`lseek` is right** for the pipes and sockets, and for the other files that are
not told the same: no regular file and no directory is among them. -/
theorem seeks_rightly_iff (opened : descriptor files fd = some fdesc) (typed : 0 ≤ (calls.type fdesc.node).1)
    (offset whence : Word) :
    SeeksRightly calls files fd fdesc offset whence ↔
      Unseekable (calls.type fdesc.node).2 ∨ Spared calls fdesc offset whence := by
  have exclusive : sIsreg (calls.type fdesc.node).2 ∨ sIsdir (calls.type fdesc.node).2 →
      ¬ Unseekable (calls.type fdesc.node).2 := by
    rintro (regular | directory) (fifo | sock)
    · exact absurd (fifo.symm.trans (of_decide_eq_true regular)) (by decide)
    · exact absurd (sock.symm.trans (of_decide_eq_true regular)) (by decide)
    · exact absurd (fifo.symm.trans (of_decide_eq_true directory)) (by decide)
    · exact absurd (sock.symm.trans (of_decide_eq_true directory)) (by decide)
  by_cases unseekable : Unseekable (calls.type fdesc.node).2
  · have told := lseek_of_mask opened typed unseekable.mask offset whence
    exact ⟨fun _ => .inl unseekable,
      fun _ => ⟨fun file => absurd unseekable (exclusive file), fun _ => told, fun other => absurd unseekable other⟩⟩
  · rw [or_iff_right unseekable]
    by_cases clear : (calls.type fdesc.node).2 &&& (sIfifo ||| sIfsock) = 0#32
    · rw [← not_espipe_iff opened typed clear]
      exact ⟨fun right => right.only unseekable,
        fun spared => ⟨fun file => absurd clear (mask_of_file file), fun told => absurd told unseekable,
          fun _ => spared⟩⟩
    · constructor
      · intro right
        exact absurd (congrArg Prod.snd (lseek_of_mask opened typed clear offset whence)) (right.only unseekable)
      · exact fun spared => absurd spared.mask clear

end Open

/-- One open file, at position 4 of 10 bytes. -/
def oneFile (node : VNode) : OpenFiles := [some ⟨node, 4#64, oRdonly⟩]

/-- A file system whose files all have the type and 10 bytes. -/
def tenBytes (type : Word) : SeekCalls where
  type := fun _ => (0, type)
  size := fun _ => (0, 10#64)

/-- A character device is sought in as it should be. -/
theorem device_sought :
    SeeksRightly (tenBytes 0o020644#32) (oneFile default) 0 ⟨default, 4#64, oRdonly⟩ 3#32 seekCur := by
  refine (seeks_rightly_iff rfl (by decide) 3#32 seekCur).mpr (.inr ⟨by decide, by decide, ?_, ?_⟩)
  · exact fun _ _ reads => absurd reads.2 (by decide)
  · exact fun _ other => absurd other (by decide)

/-- A regular file is told that it is a pipe. -/
theorem file_not_sought : lseek (tenBytes 0o100644#32) (oneFile default) 0 0#32 seekSet = (oneFile default, -29) ∧
    ¬ SeeksRightly (tenBytes 0o100644#32) (oneFile default) 0 ⟨default, 4#64, oRdonly⟩ 0#32 seekSet := by
  refine ⟨rfl, fun right => ?_⟩
  have regular : ¬ Unseekable ((tenBytes 0o100644#32).type default).2 := by decide
  exact right.only regular rfl

end FluxOS.FSUAPI
