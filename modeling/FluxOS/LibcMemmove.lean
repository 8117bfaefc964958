import FluxOS.Cstring
import FluxOS.UserStrings

/-! `memmove` of the user's library (`libc/string/memmove.c`): backwards by bytes where the source is overwritten, and
otherwise forwards by four words, by words and by bytes. -/
namespace FluxOS.LibcMemmove
open Words UserMemoryOps Cstring

/-- `BIGBLOCKSIZE` and `LITTLEBLOCKSIZE`, where a `long` has 4 bytes. -/
def bigBlockSize : Word := 16#32
def littleBlockSize : Word := 4#32

/-- `UNALIGNED`. -/
def unaligned (x y : Word) : Bool := (x &&& 3#32) ||| (y &&& 3#32) ≠ 0#32

/-- The pointers, what is left to copy, and the memory. -/
structure Copying where
  dst : Word
  src : Word
  length : Word
  mem : Memory

/-- `*dst++ = *src++`. -/
def Copying.byte (s : Copying) : Copying :=
  ⟨s.dst + 1#32, s.src + 1#32, s.length, Function.update s.mem s.dst (s.mem s.src)⟩

/-- `*--dst = *--src`. -/
def Copying.byteBack (s : Copying) : Copying :=
  ⟨s.dst - 1#32, s.src - 1#32, s.length, Function.update s.mem (s.dst - 1#32) (s.mem (s.src - 1#32))⟩

/-- `*aligned_dst++ = *aligned_src++`. -/
def Copying.long (s : Copying) : Copying :=
  ⟨s.dst + 4#32, s.src + 4#32, s.length, storeWord s.mem s.dst (word32 s.mem s.src)⟩

/-- `length -= ...`. -/
def Copying.less (s : Copying) (count : Word) : Copying := { s with length := s.length - count }

/-- `while (length--) { *--dst = *--src; }`: so many rounds. -/
def copyBack : Nat → Copying → Option Memory
  | 0, _ => none
  | rounds + 1, s => if s.length = 0#32 then some s.mem else copyBack rounds (s.less 1#32).byteBack

/-- `while (length--) { *dst++ = *src++; }`. -/
def copyBytes : Nat → Copying → Option Memory
  | 0, _ => none
  | rounds + 1, s => if s.length = 0#32 then some s.mem else copyBytes rounds (s.less 1#32).byte

/-- Four words at a time. -/
def copyBlocks : Nat → Copying → Option Copying
  | 0, _ => none
  | rounds + 1, s =>
    if bigBlockSize ≤ s.length then copyBlocks rounds (s.long.long.long.long.less bigBlockSize) else some s

/-- One word at a time. -/
def copyLongs : Nat → Copying → Option Copying
  | 0, _ => none
  | rounds + 1, s => if littleBlockSize ≤ s.length then copyLongs rounds (s.long.less littleBlockSize) else some s

section Functions

variable (rounds : Nat) (dst src length : Word) (mem : Memory)

/-- `memmove`: what it returns, and the memory. -/
def memmove : Option (Word × Memory) :=
  (if src < dst ∧ dst < src + length then copyBack rounds ⟨dst + length, src + length, length, mem⟩
    else if ¬ length < bigBlockSize ∧ ¬ unaligned src dst then
      (copyBlocks rounds ⟨dst, src, length, mem⟩).bind fun s => (copyLongs rounds s).bind (copyBytes rounds)
    else copyBytes rounds ⟨dst, src, length, mem⟩).map (dst, ·)

/-- `memmove` as it is compiled with `PREFER_SIZE_OVER_SPEED`. -/
def memmoveSmall : Option (Word × Memory) :=
  (if src < dst ∧ dst < src + length then copyBack rounds ⟨dst + length, src + length, length, mem⟩
    else copyBytes rounds ⟨dst, src, length, mem⟩).map (dst, ·)

end Functions

section Parts

variable {dst src i k n : Word} {before mem mem' : Memory}

theorem toNat_sum (small : i.toNat + k.toNat ≤ n.toNat) : (i + k).toNat = i.toNat + k.toNat := by
  have bound := n.isLt
  rw [BitVec.toNat_add]
  exact Nat.mod_eq_of_lt (by omega)

/-- An index of the whole is one of the first part or of the second. -/
theorem index_cases {j : Word} (small : i.toNat + k.toNat ≤ n.toNat) (inside : j < i + k) :
    j < i ∨ ∃ l < k, j = i + l := by
  rw [BitVec.lt_def, toNat_sum small] at inside
  by_cases early : j < i
  · exact .inl early
  · rw [BitVec.not_lt, BitVec.le_def] at early
    have rest : (j - i).toNat = j.toNat - i.toNat := BitVec.toNat_sub_of_le early
    refine .inr ⟨j - i, ?_, ?_⟩
    · rw [BitVec.lt_def, rest]
      omega
    · rw [BitVec.add_comm, BitVec.sub_add_cancel]

/-- An index of the second part, in the whole. -/
theorem index_behind {l : Word} (small : i.toNat + k.toNat ≤ n.toNat) (inside : l < k) :
    (i + l).toNat = i.toNat + l.toNat ∧ i + l < n ∧ i + l < i + k := by
  rw [BitVec.lt_def] at inside
  have here := toNat_sum (show i.toNat + l.toNat ≤ n.toNat by omega)
  have stop := toNat_sum small
  refine ⟨here, ?_, ?_⟩ <;>
    · rw [BitVec.lt_def]
      omega

/-- An index of the first part, in the whole. -/
theorem index_before {j : Word} (small : i.toNat + k.toNat ≤ n.toNat) (inside : j < i) : j < n ∧ j < i + k := by
  have stop := toNat_sum small
  rw [BitVec.lt_def] at inside
  refine ⟨?_, ?_⟩ <;>
    · rw [BitVec.lt_def]
      omega

/-- Two parts, the first of which is moved first: its bytes do not lie where the second part comes from. -/
theorem moved_append (region : Region dst n) (region' : Region src n) (small : i.toNat + k.toNat ≤ n.toNat)
    (apart : dst.toNat ≤ src.toNat ∨ src.toNat + n.toNat ≤ dst.toNat) (first : Moved dst src i before mem)
    (second : Moved (dst + i) (src + i) k mem mem') : Moved dst src (i + k) before mem' := by
  refine ⟨fun j inside => ?_, fun address outside => ?_⟩
  · rcases index_cases small inside with early | ⟨l, late, rfl⟩
    · rw [second.others (dst + j) fun l there same => ?_, first.copied j early]
      rw [BitVec.add_assoc, BitVec.add_right_inj] at same
      rw [same, BitVec.lt_def, (index_behind small there).1] at early
      omega
    · rw [← BitVec.add_assoc, second.copied l late, first.others (src + i + l) fun j there same => ?_, BitVec.add_assoc]
      have places := congrArg BitVec.toNat same
      obtain ⟨place, whole, -⟩ := index_behind small late
      rw [BitVec.add_assoc, toNat_add_inside region' whole, toNat_add_inside region (index_before small there).1,
        place] at places
      rw [BitVec.lt_def] at there whole
      omega
  · rw [second.others address fun l late => ?_, first.others address fun j early => ?_]
    · exact outside j (index_before small early).2
    · rw [BitVec.add_assoc]
      exact outside (i + l) (index_behind small late).2.2

/-- Two parts, the second of which is moved first. -/
theorem moved_prepend (region : Region dst n) (region' : Region src n) (small : i.toNat + k.toNat ≤ n.toNat)
    (above : src.toNat ≤ dst.toNat) (second : Moved (dst + i) (src + i) k before mem)
    (first : Moved dst src i mem mem') : Moved dst src (i + k) before mem' := by
  refine ⟨fun j inside => ?_, fun address outside => ?_⟩
  · rcases index_cases small inside with early | ⟨l, late, rfl⟩
    · rw [first.copied j early, second.others (src + j) fun l there same => ?_]
      have places := congrArg BitVec.toNat same
      obtain ⟨place, whole, -⟩ := index_behind small there
      rw [BitVec.add_assoc, toNat_add_inside region' (index_before small early).1, toNat_add_inside region whole,
        place] at places
      rw [BitVec.lt_def] at early
      omega
    · rw [first.others (dst + (i + l)) fun j there same => ?_, ← BitVec.add_assoc, second.copied l late,
        BitVec.add_assoc]
      rw [BitVec.add_right_inj] at same
      rw [← same, BitVec.lt_def, (index_behind small late).1] at there
      omega
  · rw [first.others address fun j early => ?_, second.others address fun l late => ?_]
    · rw [BitVec.add_assoc]
      exact outside (i + l) (index_behind small late).2.2
    · exact outside j (index_before small early).2

theorem moved_nothing (dst src : Word) (mem : Memory) : Moved dst src 0#32 mem mem :=
  ⟨fun _ none => absurd none BitVec.not_lt_zero, fun _ _ => rfl⟩

theorem moved_byte (dst src : Word) (mem : Memory) :
    Moved dst src 1#32 mem (Function.update mem dst (mem src)) := by
  refine ⟨fun j inside => ?_, fun address outside => Function.update_of_ne ?_ _ _⟩
  · obtain rfl : j = 0#32 := by
      rw [BitVec.lt_def] at inside
      exact BitVec.eq_of_toNat_eq (by simpa using inside)
    rw [BitVec.add_zero, BitVec.add_zero, Function.update_self]
  · have first := outside 0#32 (by decide)
    rwa [BitVec.add_zero] at first

/-- The bytes of a word that is read. -/
theorem wordBytes_word32 (mem : Memory) (address : Word) : wordBytes (word32 mem address) =
    [mem address, mem (address + 1#32), mem (address + 2#32), mem (address + 3#32)] := by
  simp only [wordBytes, word32, List.cons.injEq, and_true]
  refine ⟨?_, ?_, ?_, ?_⟩ <;>
    · apply BitVec.eq_of_getLsbD_eq
      intro i bound
      simp only [BitVec.getLsbD_append, BitVec.getLsbD_extractLsb']
      grind

theorem moved_long (dst src : Word) (mem : Memory) : Moved dst src 4#32 mem (storeWord mem dst (word32 mem src)) := by
  refine ⟨fun j inside => ?_, fun address outside => ?_⟩
  · have reads : Reads (storeWord mem dst (word32 mem src)) dst (wordBytes (word32 mem src)) := reads_storeWord
    rw [wordBytes_word32] at reads
    obtain ⟨first, second, third, fourth⟩ : _ ∧ _ ∧ _ ∧ _ :=
      ⟨reads 0 (by simp), reads 1 (by simp), reads 2 (by simp), reads 3 (by simp)⟩
    have cases : j = 0#32 ∨ j = 1#32 ∨ j = 2#32 ∨ j = 3#32 := by
      rw [BitVec.lt_def] at inside
      simp only [← BitVec.toNat_inj, BitVec.toNat_ofNat] at inside ⊢
      omega
    rcases cases with rfl | rfl | rfl | rfl
    · rw [BitVec.add_zero src]
      exact first
    · exact second
    · exact third
    · exact fourth
  · refine copyIn_other _ _ fun i inside => ?_
    refine outside (BitVec.ofNat 32 i) ?_
    rw [BitVec.lt_def, BitVec.toNat_ofNat]
    change i < 4 at inside
    change i % 2 ^ 32 < 4
    omega

end Parts

/-! ## The loops -/

/-- So many bytes have been moved, and the pointers are behind them. -/
structure Reached (dst src : Word) (before : Memory) (s : Copying) (i : Word) : Prop where
  dstAt : s.dst = dst + i
  srcAt : s.src = src + i
  moved : Moved dst src i before s.mem

section Loops

variable {dst src n i : Word} {before : Memory} {s : Copying}

theorem Reached.start (dst src n : Word) (mem : Memory) : Reached dst src mem ⟨dst, src, n, mem⟩ 0#32 :=
  ⟨(BitVec.add_zero dst).symm, (BitVec.add_zero src).symm, moved_nothing dst src mem⟩

theorem Reached.less (reached : Reached dst src before s i) (count : Word) :
    Reached dst src before (s.less count) i :=
  ⟨reached.dstAt, reached.srcAt, reached.moved⟩

section Forwards

variable (region : Region dst n) (region' : Region src n)
  (apart : dst.toNat ≤ src.toNat ∨ src.toNat + n.toNat ≤ dst.toNat)
include region region' apart

/-- The next part, where the pointers are. -/
theorem Reached.next (reached : Reached dst src before s i) {s' : Copying} {k : Word}
    (small : i.toNat + k.toNat ≤ n.toNat) (dst' : s'.dst = s.dst + k) (src' : s'.src = s.src + k)
    (second : Moved s.dst s.src k s.mem s'.mem) : Reached dst src before s' (i + k) := by
  rw [reached.dstAt] at dst' second
  rw [reached.srcAt] at src' second
  refine ⟨?_, ?_, moved_append region region' small apart reached.moved second⟩
  · rw [dst', BitVec.add_assoc]
  · rw [src', BitVec.add_assoc]

theorem Reached.byte (reached : Reached dst src before s i) (small : i.toNat + 1 ≤ n.toNat) :
    Reached dst src before s.byte (i + 1#32) :=
  reached.next region region' apart small rfl rfl (moved_byte s.dst s.src s.mem)

theorem Reached.long (reached : Reached dst src before s i) (small : i.toNat + 4 ≤ n.toNat) :
    Reached dst src before s.long (i + 4#32) :=
  reached.next region region' apart small rfl rfl (moved_long s.dst s.src s.mem)

theorem copyBytes_moved (rounds : Nat) (reached : Reached dst src before s i)
    (left : i.toNat + s.length.toNat = n.toNat) (enough : s.length.toNat < rounds) :
    ∃ mem', copyBytes rounds s = some mem' ∧ Moved dst src n before mem' := by
  induction rounds generalizing s i with
  | zero => exact absurd enough (Nat.not_lt_zero _)
  | succ rounds ih =>
    rw [copyBytes]
    by_cases none : s.length = 0#32
    · rw [if_pos none]
      rw [none] at left
      obtain rfl : i = n := BitVec.eq_of_toNat_eq left
      exact ⟨s.mem, rfl, reached.moved⟩
    · have some := toNat_pos none
      have fewer : (s.length - 1#32).toNat = s.length.toNat - 1 := toNat_sub_one (by omega)
      have next := (reached.less 1#32).byte region region' apart (by omega)
      have place : (i + 1#32).toNat = i.toNat + 1 := toNat_add_one (by have := n.isLt; omega)
      rw [if_neg none]
      refine ih next ?_ ?_
      · change (i + 1#32).toNat + (s.length - 1#32).toNat = n.toNat
        omega
      · change (s.length - 1#32).toNat < rounds
        omega

theorem copyLongs_reached (rounds : Nat) (reached : Reached dst src before s i)
    (left : i.toNat + s.length.toNat = n.toNat) (enough : s.length.toNat < rounds) :
    ∃ s' i', copyLongs rounds s = some s' ∧ Reached dst src before s' i' ∧ i'.toNat + s'.length.toNat = n.toNat := by
  induction rounds generalizing s i with
  | zero => exact absurd enough (Nat.not_lt_zero _)
  | succ rounds ih =>
    rw [copyLongs]
    by_cases more : littleBlockSize ≤ s.length
    · have four : 4 ≤ s.length.toNat := more
      have fewer : (s.length - littleBlockSize).toNat = s.length.toNat - 4 := BitVec.toNat_sub_of_le more
      have next := (reached.long region region' apart (by omega)).less littleBlockSize
      have place : (i + 4#32).toNat = i.toNat + 4 := toNat_sum (n := n) (show i.toNat + 4 ≤ n.toNat by omega)
      rw [if_pos more]
      refine ih next ?_ ?_
      · change (i + 4#32).toNat + (s.length - littleBlockSize).toNat = n.toNat
        omega
      · change (s.length - littleBlockSize).toNat < rounds
        omega
    · rw [if_neg more]
      exact ⟨s, i, rfl, reached, left⟩

theorem copyBlocks_reached (rounds : Nat) (reached : Reached dst src before s i)
    (left : i.toNat + s.length.toNat = n.toNat) (enough : s.length.toNat < rounds) :
    ∃ s' i', copyBlocks rounds s = some s' ∧ Reached dst src before s' i' ∧ i'.toNat + s'.length.toNat = n.toNat := by
  induction rounds generalizing s i with
  | zero => exact absurd enough (Nat.not_lt_zero _)
  | succ rounds ih =>
    rw [copyBlocks]
    by_cases more : bigBlockSize ≤ s.length
    · have sixteen : 16 ≤ s.length.toNat := more
      have fewer : (s.length - bigBlockSize).toNat = s.length.toNat - 16 := BitVec.toNat_sub_of_le more
      have place (k : Word) (small : k.toNat ≤ 16) : (i + k).toNat = i.toNat + k.toNat :=
        toNat_sum (n := n) (by omega)
      have first := reached.long region region' apart (by omega)
      have second := first.long region region' apart (by rw [place 4#32 (by decide)]; change i.toNat + 4 + 4 ≤ _; omega)
      rw [BitVec.add_assoc] at second
      have third := second.long region region' apart (by rw [place _ (by decide)]; change i.toNat + 8 + 4 ≤ _; omega)
      rw [BitVec.add_assoc] at third
      have fourth := third.long region region' apart (by rw [place _ (by decide)]; change i.toNat + 12 + 4 ≤ _; omega)
      rw [BitVec.add_assoc] at fourth
      have stop := place 16#32 (by decide)
      rw [if_pos more]
      refine ih (fourth.less bigBlockSize) ?_ ?_
      · change (i + 16#32).toNat + (s.length - bigBlockSize).toNat = n.toNat
        rw [stop, fewer]
        change i.toNat + 16 + _ = _
        omega
      · change (s.length - bigBlockSize).toNat < rounds
        omega
    · rw [if_neg more]
      exact ⟨s, i, rfl, reached, left⟩

end Forwards

/-- From the end on, the first byte that is moved is the last one. -/
theorem copyBack_moved (region : Region dst n) (region' : Region src n) (above : src.toNat ≤ dst.toNat) (rounds : Nat)
    {length : Word} (small : length.toNat ≤ n.toNat) (enough : length.toNat < rounds) (mem : Memory) :
    ∃ mem', copyBack rounds ⟨dst + length, src + length, length, mem⟩ = some mem' ∧ Moved dst src length mem mem' := by
  induction rounds generalizing length mem with
  | zero => exact absurd enough (Nat.not_lt_zero _)
  | succ rounds ih =>
    rw [copyBack]
    by_cases none : length = 0#32
    · subst none
      exact ⟨mem, if_pos rfl, moved_nothing dst src mem⟩
    · have some := toNat_pos none
      have fewer : (length - 1#32).toNat = length.toNat - 1 := toNat_sub_one (by omega)
      have before (base : Word) : base + length - 1#32 = base + (length - 1#32) := by
        rw [BitVec.sub_eq_add_neg, BitVec.sub_eq_add_neg, BitVec.add_assoc]
      have short : (length - 1#32).toNat ≤ n.toNat := by omega
      obtain ⟨mem', ends, moved⟩ := ih short (by omega)
        (Function.update mem (dst + (length - 1#32)) (mem (src + (length - 1#32))))
      refine ⟨mem', ?_, ?_⟩
      · rw [if_neg none, Copying.byteBack, Copying.less]
        simp only [before]
        exact ends
      · have last : (length - 1#32).toNat + (1#32 : Word).toNat ≤ n.toNat := by
          change (length - 1#32).toNat + 1 ≤ n.toNat
          omega
        have whole := moved_prepend region region' last above (moved_byte _ _ mem) moved
        rwa [BitVec.sub_add_cancel] at whole

end Loops

section Results

variable {dst src n : Word}

/-- The test of the two pointers fails for regions where a copy forwards reads no byte that it has written. -/
theorem apart_of_not_overlap (region : Region dst n) (region' : Region src n) (not : ¬ (src < dst ∧ dst < src + n)) :
    dst.toNat ≤ src.toNat ∨ src.toNat + n.toNat ≤ dst.toNat := by
  rw [Region] at region region'
  by_cases above : src < dst
  · have outside : ¬ dst < src + n := fun inside => not ⟨above, inside⟩
    rw [BitVec.lt_def] at above
    rw [BitVec.lt_def, BitVec.toNat_add] at outside
    omega
  · rw [BitVec.lt_def] at above
    omega

/-- What has been moved where is one memory. -/
theorem moved_unique {mem first second : Memory} (moved : Moved dst src n mem first)
    (moved' : Moved dst src n mem second) : first = second := by
  funext address
  by_cases inside : ∃ i < n, address = dst + i
  · obtain ⟨i, small, rfl⟩ := inside
    rw [moved.copied i small, moved'.copied i small]
  · have outside (i : Word) (small : i < n) : address ≠ dst + i := fun same => inside ⟨i, small, same⟩
    rw [moved.others address outside, moved'.others address outside]

/-- **`memmove`.** Both ways to compile it end and move the bytes, wherever the regions overlap, and change nothing
else. -/
theorem memmove_moves (region : Region dst n) (region' : Region src n) (mem : Memory) :
    ∃ mem', Moved dst src n mem mem' ∧ ∀ rounds, n.toNat < rounds →
      memmove rounds dst src n mem = some (dst, mem') ∧ memmoveSmall rounds dst src n mem = some (dst, mem') := by
  by_cases overlap : src < dst ∧ dst < src + n
  · have above : src.toNat ≤ dst.toNat := Nat.le_of_lt overlap.1
    have back (rounds : Nat) (enough : n.toNat < rounds) :=
      copyBack_moved region region' above rounds (Nat.le_refl _) enough mem
    obtain ⟨mem', -, moved⟩ := back (n.toNat + 1) (Nat.lt_succ_self _)
    refine ⟨mem', moved, fun rounds enough => ?_⟩
    obtain ⟨other, ends, moved'⟩ := back rounds enough
    rw [memmove, memmoveSmall, if_pos overlap, if_pos overlap, ends, moved_unique moved' moved]
    exact ⟨rfl, rfl⟩
  · have apart := apart_of_not_overlap region region' overlap
    have start := Reached.start dst src n mem
    have bytes (rounds : Nat) (enough : n.toNat < rounds) :=
      copyBytes_moved region region' apart rounds start (Nat.zero_add _) enough
    obtain ⟨mem', -, moved⟩ := bytes (n.toNat + 1) (Nat.lt_succ_self _)
    refine ⟨mem', moved, fun rounds enough => ⟨?_, ?_⟩⟩
    · rw [memmove, if_neg overlap]
      split_ifs with aligned
      · obtain ⟨blocks, i, blocksEnd, reached, left⟩ :=
          copyBlocks_reached region region' apart rounds start (Nat.zero_add _) enough
        obtain ⟨longs, j, longsEnd, reached', left'⟩ :=
          copyLongs_reached region region' apart rounds reached left (by omega)
        obtain ⟨other, ends, moved'⟩ := copyBytes_moved region region' apart rounds reached' left' (by omega)
        rw [blocksEnd, Option.bind_some, longsEnd, Option.bind_some, ends, moved_unique moved' moved]
        rfl
      · obtain ⟨other, ends, moved'⟩ := bytes rounds enough
        rw [ends, moved_unique moved' moved]
        rfl
    · obtain ⟨other, ends, moved'⟩ := bytes rounds enough
      rw [memmoveSmall, if_neg overlap, ends, moved_unique moved' moved]
      rfl

/-- Twenty bytes of a memory whose bytes are their addresses, four places up (backwards) and four places down (by
words). -/
theorem memmove_overlapping :
    (∃ up, Moved 1004#32 1000#32 20#32 (·.setWidth 8) up ∧
      memmove 21 1004#32 1000#32 20#32 (·.setWidth 8) = some (1004#32, up)) ∧
    ∃ down, Moved 1000#32 1004#32 20#32 (·.setWidth 8) down ∧
      memmove 21 1000#32 1004#32 20#32 (·.setWidth 8) = some (1000#32, down) := by
  have high : Region 1004#32 20#32 := show 1004 + 20 ≤ 2 ^ 32 by decide
  have low : Region 1000#32 20#32 := show 1000 + 20 ≤ 2 ^ 32 by decide
  obtain ⟨up, moved, ends⟩ := memmove_moves high low (·.setWidth 8)
  obtain ⟨down, moved', ends'⟩ := memmove_moves low high (·.setWidth 8)
  exact ⟨⟨up, moved, (ends 21 (by decide)).1⟩, ⟨down, moved', (ends' 21 (by decide)).1⟩⟩

end Results

end FluxOS.LibcMemmove
