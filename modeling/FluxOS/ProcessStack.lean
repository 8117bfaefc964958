import FluxOS.ArgumentTables

/-! The top of a new process's stack, `setupStackAndRegisters`. The stack pointer
is the end of the stack less one sum, and the parts are placed from there by
another one, which counts one pair of words more for the auxiliary vector. So
everything behind that vector lies eight bytes too high. -/
namespace FluxOS.UserProcsManager
open Words UserMemoryOps UserProcessImage

/-- What the call leaves: the stack pointer and the program counter of the frame,
the memory, and where the parts lie. -/
structure Setup where
  sp : Word
  pc : Word
  mem : Memory
  layout : StackLayout

/-- The ia32 version. -/
def setupStackAndRegisters (mem : Memory) (entryPoint userSpaceStack userStackSize argc argsSize envc envSize auxc
    auxSize : Word) : Setup :=
  let layout := stackLayout userSpaceStack userStackSize argc argsSize envc envSize auxc auxSize
  { sp := layout.sp, pc := entryPoint, mem := storeWord mem layout.sp argc, layout := layout }

/-- The MIPS version. The position of the auxiliary vector is worked out as on
ia32; the pointer it would be stored through is no `char **` there. -/
def Mips.setupStackAndRegisters (mem : Memory) (entryPoint userSpaceStack userStackSize argc argsSize envc envSize auxc
    auxSize : Word) : Setup :=
  let varsBlockSize := 4#32 + 4#32 * (argc + 1#32) + 4#32 * (envc + 1#32) + 4#32 * 2#32 * auxc +
    padToWord argsSize + padToWord envSize + padToWord auxSize
  let sp := userSpaceStack + userStackSize - varsBlockSize
  let mem := storeWord mem sp argc
  let pos := 1#32
  let argsList := sp + 4#32 * pos
  let pos := pos + (argc + 1#32)
  let envList := sp + 4#32 * pos
  let pos := pos + (envc + 1#32)
  let auxList := sp + 4#32 * pos
  let pos := pos + (auxc + 1#32) * 2#32
  let argsBlock := sp + 4#32 * pos
  let pos := pos + (argsSize.sdiv 4#32 + 1#32)
  let envBlock := sp + 4#32 * pos
  let pos := pos + (envSize.sdiv 4#32 + 1#32)
  let auxBlock := sp + 4#32 * pos
  { sp := sp, pc := entryPoint, mem := mem, layout := { sp, argsList, envList, auxList, argsBlock, envBlock, auxBlock } }

/-- Both versions compute the same. -/
theorem mips_eq_ia32 : @Mips.setupStackAndRegisters = @setupStackAndRegisters := rfl

/-! ## Regions -/

/-- Consecutive bytes of the stack. -/
structure Region where
  start : Word
  bytes : Nat
  deriving DecidableEq

namespace Region

def Holds (r : Region) (a : Nat) : Prop := r.start.toNat ≤ a ∧ a < r.start.toNat + r.bytes

/-- Every byte of the one lies below every byte of the other. -/
def Before (r s : Region) : Prop := ∀ a b, r.Holds a → s.Holds b → a < b

def Inside (r : Region) (low high : Nat) : Prop := ∀ a, r.Holds a → low ≤ a ∧ a < high

/-- A region without bytes lies below and above every other. -/
theorem before_iff (r s : Region) :
    r.Before s ↔ 0 < r.bytes → 0 < s.bytes → r.start.toNat + r.bytes ≤ s.start.toNat := by
  simp only [Before, Holds]
  constructor
  · intro before some other
    have last := before (r.start.toNat + r.bytes - 1) s.start.toNat (by omega) (by omega)
    omega
  · intro apart a b here there
    have ends := apart (by omega) (by omega)
    omega

theorem inside_iff (r : Region) (low high : Nat) :
    r.Inside low high ↔ 0 < r.bytes → low ≤ r.start.toNat ∧ r.start.toNat + r.bytes ≤ high := by
  simp only [Inside, Holds]
  constructor
  · intro inside some
    have first := inside r.start.toNat (by omega)
    have last := inside (r.start.toNat + r.bytes - 1) (by omega)
    omega
  · intro inside a here
    have within := inside (by omega)
    omega

end Region

/-- The parts of the stack in the order the comment in the source gives them. -/
def regions (layout : StackLayout) (argc argsSize envc envSize auxc auxSize : Word) : List Region :=
  [⟨layout.sp, 4⟩, ⟨layout.argsList, 4 * (argc.toNat + 1)⟩, ⟨layout.envList, 4 * (envc.toNat + 1)⟩,
    ⟨layout.auxList, 8 * auxc.toNat⟩, ⟨layout.argsBlock, argsSize.toNat⟩, ⟨layout.envBlock, envSize.toNat⟩,
    ⟨layout.auxBlock, auxSize.toNat⟩]

/-- The regions share no byte, lie in this order and inside `[low, high)`. -/
structure LaidOut (low high : Nat) (parts : List Region) : Prop where
  ordered : parts.Pairwise Region.Before
  inside : ∀ r ∈ parts, r.Inside low high

/-- The bytes that the call takes off the end of the stack, were there no end to numbers. -/
def reserved (argc argsSize envc envSize auxc auxSize : Word) : Nat :=
  4 + 4 * (argc.toNat + 1) + 4 * (envc.toNat + 1) + 8 * auxc.toNat + (argsSize.toNat / 4 * 4 + 4) +
    (envSize.toNat / 4 * 4 + 4) + (auxSize.toNat / 4 * 4 + 4)

/-- The six counts and sizes are `int`s that are not negative. -/
structure NonNegative (argc argsSize envc envSize auxc auxSize : Word) : Prop where
  argc : argc.toNat < 2 ^ 31
  argsSize : argsSize.toNat < 2 ^ 31
  envc : envc.toNat < 2 ^ 31
  envSize : envSize.toNat < 2 ^ 31
  auxc : auxc.toNat < 2 ^ 31
  auxSize : auxSize.toNat < 2 ^ 31

section Positions
variable {stack size argc argsSize envc envSize auxc auxSize : Word}

/-- Adding in words is adding numbers and cutting the sum. -/
theorem toNat_step (sp pos more : Word) (n : Nat) (counted : more.toNat = n % 2 ^ 32) :
    (sp + 4#32 * (pos + more)).toNat = ((sp + 4#32 * pos).toNat + 4 * n) % 2 ^ 32 := by
  simp only [BitVec.toNat_add, BitVec.toNat_mul, BitVec.toNat_ofNat, counted]
  omega

/-- Where the parts begin: each behind the one before, as far as addresses go. -/
structure Positions (layout : StackLayout) (argc argsSize envc envSize auxc : Word) : Prop where
  argsList : layout.argsList.toNat = (layout.sp.toNat + 4) % 2 ^ 32
  envList : layout.envList.toNat = (layout.argsList.toNat + 4 * (argc.toNat + 1)) % 2 ^ 32
  auxList : layout.auxList.toNat = (layout.envList.toNat + 4 * (envc.toNat + 1)) % 2 ^ 32
  argsBlock : layout.argsBlock.toNat = (layout.auxList.toNat + 4 * (2 * (auxc.toNat + 1))) % 2 ^ 32
  envBlock : layout.envBlock.toNat = (layout.argsBlock.toNat + 4 * (argsSize.toNat / 4 + 1)) % 2 ^ 32
  auxBlock : layout.auxBlock.toNat = (layout.envBlock.toNat + 4 * (envSize.toNat / 4 + 1)) % 2 ^ 32

theorem positions_stackLayout (nonneg : NonNegative argc argsSize envc envSize auxc auxSize) (stack size : Word) :
    Positions (stackLayout stack size argc argsSize envc envSize auxc auxSize) argc argsSize envc envSize auxc := by
  have argsWords := toNat_sdiv_four nonneg.argsSize
  have envWords := toNat_sdiv_four nonneg.envSize
  have argsSmall := nonneg.argsSize
  have envSmall := nonneg.envSize
  refine ⟨?_, toNat_step _ _ _ _ ?_, toNat_step _ _ _ _ ?_, toNat_step _ _ _ _ ?_, toNat_step _ _ _ _ ?_,
    toNat_step _ _ _ _ ?_⟩
  · simp only [stackLayout, BitVec.toNat_add, BitVec.toNat_mul, BitVec.toNat_ofNat]
  · simp only [BitVec.toNat_add, BitVec.toNat_ofNat]
  · simp only [BitVec.toNat_add, BitVec.toNat_ofNat]
  · rw [BitVec.toNat_mul, BitVec.toNat_add, show (2#32).toNat = 2 from rfl, show (1#32).toNat = 1 from rfl]
    omega
  · rw [BitVec.toNat_add, argsWords]
    rfl
  · rw [BitVec.toNat_add, envWords]
    rfl

/-- The stack pointer is the end of the stack less the sum, as far as addresses go. -/
theorem sp_stackLayout (nonneg : NonNegative argc argsSize envc envSize auxc auxSize) (stack size : Word) :
    ((stackLayout stack size argc argsSize envc envSize auxc auxSize).sp.toNat +
        reserved argc argsSize envc envSize auxc auxSize) % 2 ^ 32 =
      (stack.toNat + size.toNat) % 2 ^ 32 := by
  have ofNat_toNat : ∀ w : Word, BitVec.ofNat 32 w.toNat = w := fun w => by simp
  have padded : ∀ w : Word, w.toNat < 2 ^ 31 → padToWord w = BitVec.ofNat 32 (w.toNat / 4 * 4 + 4) := fun w small =>
    BitVec.eq_of_toNat_eq (by rw [toNat_padToWord (by omega), BitVec.toNat_ofNat]; omega)
  have sum : 4#32 + 4#32 * (argc + 1#32) + 4#32 * (envc + 1#32) + 4#32 * 2#32 * auxc + padToWord argsSize +
      padToWord envSize + padToWord auxSize =
        BitVec.ofNat 32 (reserved argc argsSize envc envSize auxc auxSize) := by
    rw [padded _ nonneg.argsSize, padded _ nonneg.envSize, padded _ nonneg.auxSize]
    simp only [reserved, BitVec.ofNat_add, BitVec.ofNat_mul, ofNat_toNat]
    rfl
  rw [← BitVec.toNat_ofNat, ← BitVec.toNat_ofNat, BitVec.ofNat_add, BitVec.ofNat_add, ofNat_toNat, ofNat_toNat,
    ofNat_toNat,
    ← sum, stackLayout, BitVec.sub_add_cancel]

/-- The words `entryPoint` and `mem` have no part in the layout. -/
theorem layout_setup (mem : Memory) (entryPoint : Word) :
    (setupStackAndRegisters mem entryPoint stack size argc argsSize envc envSize auxc auxSize).layout =
      stackLayout stack size argc argsSize envc envSize auxc auxSize := rfl

/-- A start that does not lie below the part before it was not cut. -/
theorem start_uncut {before gap start : Nat} (begins : start = (before + gap) % 2 ^ 32) (bound : before < 2 ^ 32)
    (short : gap < 2 ^ 32) (above : before ≤ start) : start = before + gap := by
  omega

/-- Where the tables end, when the parts are laid out: nothing is cut before that. -/
structure Tables (layout : StackLayout) (argc envc auxc : Word) (low high tablesEnd : Nat) : Prop where
  ends : tablesEnd = layout.sp.toNat + (4 + 4 * (argc.toNat + 1) + 4 * (envc.toNat + 1) + 8 * auxc.toNat)
  low : low ≤ layout.sp.toNat
  high : tablesEnd ≤ high
  envList : layout.envList.toNat + 4 * (envc.toNat + 1) + 8 * auxc.toNat = tablesEnd
  auxList : 0 < auxc.toNat → layout.auxList.toNat + 8 * auxc.toNat = tablesEnd
  argsBlock : layout.argsBlock.toNat = (tablesEnd + 8) % 2 ^ 32

theorem tables_of_laidOut {layout : StackLayout} (places : Positions layout argc argsSize envc envSize auxc)
    {low high : Nat} (highest : high ≤ 2 ^ 32)
    (laid : LaidOut low high (regions layout argc argsSize envc envSize auxc auxSize)) :
    ∃ tablesEnd, Tables layout argc envc auxc low high tablesEnd := by
  obtain ⟨ordered, inside⟩ := laid
  simp only [regions, List.pairwise_cons, List.mem_cons, List.not_mem_nil, or_false, forall_eq_or_imp, forall_eq,
    Region.before_iff, Region.inside_iff] at ordered inside
  obtain ⟨⟨first, -⟩, ⟨second, -⟩, ⟨third, -⟩, -⟩ := ordered
  obtain ⟨spIn, argsIn, envIn, auxIn, -⟩ := inside
  replace spIn := spIn (by decide)
  replace argsIn := argsIn (Nat.mul_pos (by decide) (Nat.succ_pos _))
  replace envIn := envIn (Nat.mul_pos (by decide) (Nat.succ_pos _))
  replace first := first (by decide) (Nat.mul_pos (by decide) (Nat.succ_pos _))
  replace second := second (Nat.mul_pos (by decide) (Nat.succ_pos _)) (Nat.mul_pos (by decide) (Nat.succ_pos _))
  replace third := third (Nat.mul_pos (by decide) (Nat.succ_pos _))
  have argsStart : layout.argsList.toNat = layout.sp.toNat + 4 :=
    start_uncut places.argsList layout.sp.isLt (by decide) (Nat.le_of_add_right_le first)
  have envStart : layout.envList.toNat = layout.argsList.toNat + 4 * (argc.toNat + 1) :=
    start_uncut places.envList layout.argsList.isLt
      (by clear third auxIn second; have bound := layout.argsList.isLt; omega) (Nat.le_of_add_right_le second)
  have blockStart := places.argsBlock
  rw [places.auxList, Nat.mod_add_mod] at blockStart
  have auxStart : 0 < auxc.toNat → layout.auxList.toNat = layout.envList.toNat + 4 * (envc.toNat + 1) := fun some =>
    start_uncut places.auxList layout.envList.isLt
      (by clear auxIn second third; have bound := layout.envList.isLt; omega)
      (Nat.le_of_add_right_le (third (Nat.mul_pos (by decide) some)))
  have reach : layout.envList.toNat + 4 * (envc.toNat + 1) + 8 * auxc.toNat ≤ high := by
    rcases Nat.eq_zero_or_pos auxc.toNat with none | some
    · rw [none]
      exact envIn.2
    · rw [← auxStart some]
      exact (auxIn (Nat.mul_pos (by decide) some)).2
  clear third auxIn first second
  exact ⟨layout.envList.toNat + 4 * (envc.toNat + 1) + 8 * auxc.toNat, by omega, spIn.1, reach, rfl,
    fun some => by rw [auxStart some], by rw [blockStart]; congr 1; omega⟩

/-- The blocks that have bytes lie behind the tables and each behind the ones before. -/
structure Blocks (layout : StackLayout) (argsSize envSize auxSize : Word) (high tablesEnd : Nat) : Prop where
  args : 0 < argsSize.toNat → tablesEnd ≤ layout.argsBlock.toNat ∧ layout.argsBlock.toNat + argsSize.toNat ≤ high
  env : 0 < envSize.toNat → tablesEnd ≤ layout.envBlock.toNat ∧ layout.envBlock.toNat + envSize.toNat ≤ high ∧
    (0 < argsSize.toNat → layout.argsBlock.toNat + argsSize.toNat ≤ layout.envBlock.toNat)
  aux : 0 < auxSize.toNat → tablesEnd ≤ layout.auxBlock.toNat ∧ layout.auxBlock.toNat + auxSize.toNat ≤ high ∧
    (0 < argsSize.toNat → layout.argsBlock.toNat + argsSize.toNat ≤ layout.auxBlock.toNat) ∧
    (0 < envSize.toNat → layout.envBlock.toNat + envSize.toNat ≤ layout.auxBlock.toNat)

theorem blocks_of_laidOut {layout : StackLayout} {low high tablesEnd : Nat}
    (laid : LaidOut low high (regions layout argc argsSize envc envSize auxc auxSize))
    (tables : Tables layout argc envc auxc low high tablesEnd) :
    Blocks layout argsSize envSize auxSize high tablesEnd := by
  obtain ⟨ordered, inside⟩ := laid
  simp only [regions, List.pairwise_cons, List.mem_cons, List.not_mem_nil, or_false, forall_eq_or_imp, forall_eq,
    Region.before_iff, Region.inside_iff] at ordered inside
  obtain ⟨-, -, ⟨-, thirdArgs, thirdEnv, thirdAux⟩, ⟨fourthArgs, fourthEnv, fourthAux⟩, ⟨fifthEnv, fifthAux⟩, sixth, -⟩ :=
    ordered
  obtain ⟨-, -, -, -, argsIn, envIn, auxIn⟩ := inside
  have tableBytes : 0 < 4 * (envc.toNat + 1) := Nat.mul_pos (by decide) (Nat.succ_pos _)
  -- whatever lies behind the last table that has bytes lies behind the tables
  have behind : ∀ start : Nat, layout.envList.toNat + 4 * (envc.toNat + 1) ≤ start →
      (0 < 8 * auxc.toNat → layout.auxList.toNat + 8 * auxc.toNat ≤ start) → tablesEnd ≤ start := by
    intro start env aux
    rcases Nat.eq_zero_or_pos auxc.toNat with none | some
    · have ends := tables.envList
      omega
    · rw [← tables.auxList some]
      exact aux (by omega)
  refine ⟨fun some => ⟨?_, (argsIn some).2⟩, fun some => ⟨?_, (envIn some).2, fun other => fifthEnv other some⟩,
    fun some => ⟨?_, (auxIn some).2, fun other => fifthAux other some, fun other => sixth other some⟩⟩
  · exact behind _ (thirdArgs tableBytes some) fun other => fourthArgs other some
  · exact behind _ (thirdEnv tableBytes some) fun other => fourthEnv other some
  · exact behind _ (thirdAux tableBytes some) fun other => fourthAux other some

/-- A position that is reached from below without passing 2^32 was not cut. -/
theorem position_uncut {position lower start : Nat} (begins : start = position % 2 ^ 32) (above : lower ≤ start)
    (near : position < lower + 2 ^ 32) : start = position := by
  omega

/-- With the blocks behind the tables, the last one has no bytes, the one before fills
its words, and the whole is as long as what was taken off the stack. -/
theorem sizes_of_blocks {layout : StackLayout} (places : Positions layout argc argsSize envc envSize auxc)
    (nonneg : NonNegative argc argsSize envc envSize auxc auxSize) {high tablesEnd : Nat}
    (highest : high ≤ 2 ^ 32) (positive : 0 < tablesEnd) (reach : tablesEnd ≤ high)
    (begins : layout.argsBlock.toNat = (tablesEnd + 8) % 2 ^ 32)
    (blocks : Blocks layout argsSize envSize auxSize high tablesEnd)
    (ends : (tablesEnd + (argsSize.toNat / 4 * 4 + 4) + (envSize.toNat / 4 * 4 + 4) + (auxSize.toNat / 4 * 4 + 4)) %
      2 ^ 32 = high % 2 ^ 32) :
    auxSize.toNat = 0 ∧ envSize.toNat % 4 = 0 ∧
      tablesEnd + (argsSize.toNat / 4 * 4 + 4) + (envSize.toNat / 4 * 4 + 4) + (auxSize.toNat / 4 * 4 + 4) = high := by
  have envBegins := places.envBlock
  have auxBegins := places.auxBlock
  rw [begins, Nat.mod_add_mod] at envBegins
  rw [envBegins, Nat.mod_add_mod] at auxBegins
  obtain ⟨args, env, aux⟩ := blocks
  have argsSmall := nonneg.argsSize
  have envSmall := nonneg.envSize
  have auxSmall := nonneg.auxSize
  clear places nonneg
  generalize layout.argsBlock.toNat = argsBlock at *
  generalize layout.envBlock.toNat = envBlock at *
  generalize layout.auxBlock.toNat = auxBlock at *
  generalize argsSize.toNat = a at *
  generalize envSize.toNat = e at *
  generalize auxSize.toNat = x at *
  have argsAt : 0 < a → argsBlock = tablesEnd + 8 := fun some =>
    position_uncut begins (args some).1 (by omega)
  have envAt : 0 < e → envBlock = tablesEnd + 8 + 4 * (a / 4 + 1) := fun some => by
    refine position_uncut envBegins (?_ : tablesEnd + a ≤ envBlock) (by omega)
    rcases Nat.eq_zero_or_pos a with rfl | bytes
    · exact (env some).1
    · have behind := (env some).2.2 bytes
      rw [argsAt bytes] at behind
      omega
  have auxAt : 0 < x → auxBlock = tablesEnd + 8 + 4 * (a / 4 + 1) + 4 * (e / 4 + 1) := fun some => by
    refine position_uncut auxBegins (?_ : tablesEnd + a + e ≤ auxBlock) (by omega)
    rcases Nat.eq_zero_or_pos e with rfl | bytes
    · rcases Nat.eq_zero_or_pos a with rfl | bytes
      · exact (aux some).1
      · have behind := (aux some).2.2.1 bytes
        rw [argsAt bytes] at behind
        omega
    · have behind := (aux some).2.2.2 bytes
      rw [envAt bytes] at behind
      omega
  clear begins envBegins auxBegins
  -- the block that ends last ends eight bytes past what its padding leaves
  rcases Nat.eq_zero_or_pos x with rfl | bytes
  · clear aux auxAt
    rcases Nat.eq_zero_or_pos e with rfl | bytes
    · clear env envAt
      rcases Nat.eq_zero_or_pos a with rfl | bytes
      · omega
      · have fits := (args bytes).2
        rw [argsAt bytes] at fits
        clear args argsAt
        omega
    · have fits := (env bytes).2.1
      rw [envAt bytes] at fits
      clear env envAt args argsAt
      omega
  · have fits := (aux bytes).2.1
    rw [auxAt bytes] at fits
    clear aux auxAt env envAt args argsAt
    omega

/-- Where the parts lie when the sum is right: each where it is counted to be. -/
theorem laidOut_of_sizes {layout : StackLayout} (places : Positions layout argc argsSize envc envSize auxc)
    {low high : Nat} (highest : high ≤ 2 ^ 32) (inside : low ≤ layout.sp.toNat)
    (noAux : auxSize.toNat = 0) (fullEnv : envSize.toNat % 4 = 0)
    (ends : layout.sp.toNat + reserved argc argsSize envc envSize auxc auxSize = high) :
    LaidOut low high (regions layout argc argsSize envc envSize auxc auxSize) := by
  rw [reserved, noAux] at ends
  have argsList : layout.argsList.toNat = layout.sp.toNat + 4 := by
    rw [places.argsList]
    omega
  have envList : layout.envList.toNat = layout.sp.toNat + 4 + 4 * (argc.toNat + 1) := by
    rw [places.envList, argsList]
    omega
  have auxList : layout.auxList.toNat = layout.sp.toNat + 4 + 4 * (argc.toNat + 1) + 4 * (envc.toNat + 1) := by
    rw [places.auxList, envList]
    omega
  have argsBlock : layout.argsBlock.toNat = layout.auxList.toNat + 8 * auxc.toNat + 8 := by
    rw [places.argsBlock, auxList]
    omega
  have envBlock : 0 < envSize.toNat → layout.envBlock.toNat + envSize.toNat = high ∧
      layout.argsBlock.toNat + argsSize.toNat ≤ layout.envBlock.toNat := by
    intro some
    rw [places.envBlock, argsBlock, auxList]
    omega
  have argsEnd : layout.argsBlock.toNat + argsSize.toNat ≤ high := by omega
  clear places ends
  constructor
  · simp only [regions, List.pairwise_cons, List.mem_cons, List.not_mem_nil, or_false, forall_eq_or_imp, forall_eq,
      Region.before_iff, noAux, lt_irrefl, false_implies, implies_true, and_true, List.Pairwise.nil]
    refine ⟨⟨?_, ?_, ?_, ?_, ?_⟩, ⟨?_, ?_, ?_, ?_⟩, ⟨?_, ?_, ?_⟩, ⟨?_, ?_⟩, ?_⟩ <;> intro _ _ <;> omega
  · simp only [regions, List.mem_cons, List.not_mem_nil, or_false, forall_eq_or_imp, forall_eq, Region.inside_iff, noAux,
      lt_irrefl, false_implies, and_true]
    refine ⟨?_, ?_, ?_, ?_, ?_, ?_⟩ <;> intro _ <;> omega

/-- **The layout is right** just when there is no auxiliary block, the environment block
fills its words, and what is taken off the stack is on it. On MIPS it is the same. -/
theorem laid_out_iff (mem : Memory) (entryPoint : Word)
    (nonneg : NonNegative argc argsSize envc envSize auxc auxSize)
    (fits : stack.toNat + size.toNat ≤ 2 ^ 32) :
    (LaidOut stack.toNat (stack.toNat + size.toNat)
        (regions (setupStackAndRegisters mem entryPoint stack size argc argsSize envc envSize auxc auxSize).layout argc
          argsSize envc envSize auxc auxSize) ↔
      auxSize.toNat = 0 ∧ envSize.toNat % 4 = 0 ∧ reserved argc argsSize envc envSize auxc auxSize ≤ size.toNat) ∧
    Mips.setupStackAndRegisters mem entryPoint stack size argc argsSize envc envSize auxc auxSize =
      setupStackAndRegisters mem entryPoint stack size argc argsSize envc envSize auxc auxSize := by
  refine ⟨?_, by rw [mips_eq_ia32]⟩
  rw [layout_setup]
  have places := positions_stackLayout nonneg stack size
  have spAt := sp_stackLayout nonneg stack size
  generalize stackLayout stack size argc argsSize envc envSize auxc auxSize = layout at *
  constructor
  · intro laid
    obtain ⟨tablesEnd, tables⟩ := tables_of_laidOut places fits laid
    have blocks := blocks_of_laidOut laid tables
    have whole : layout.sp.toNat + reserved argc argsSize envc envSize auxc auxSize =
        tablesEnd + (argsSize.toNat / 4 * 4 + 4) + (envSize.toNat / 4 * 4 + 4) + (auxSize.toNat / 4 * 4 + 4) := by
      rw [tables.ends, reserved]
      ring
    rw [whole] at spAt
    obtain ⟨noAux, fullEnv, ends⟩ := sizes_of_blocks places nonneg fits
      (by rw [tables.ends]; omega) tables.high tables.argsBlock blocks spAt
    have low := tables.low
    exact ⟨noAux, fullEnv, by omega⟩
  · rintro ⟨noAux, fullEnv, room⟩
    have bound := layout.sp.isLt
    have some : 0 < reserved argc argsSize envc envSize auxc auxSize := by
      rw [reserved]
      omega
    have ends : layout.sp.toNat + reserved argc argsSize envc envSize auxc auxSize = stack.toNat + size.toNat := by
      omega
    exact laidOut_of_sizes places fits (by omega) noAux fullEnv ends

end Positions

/-- The stack of a process that is started with one argument of a word and nothing else. -/
theorem bare_stack_laid_out :
    LaidOut (0x10000000#32).toNat ((0x10000000#32).toNat + (8196#32).toNat)
      (regions (setupStackAndRegisters (fun _ => 0#8) 0#32 0x10000000#32 8196#32 1#32 4#32 0#32 0#32 0#32 0#32).layout
        1#32 4#32 0#32 0#32 0#32 0#32) :=
  (laid_out_iff (fun _ => 0#8) 0#32 (by constructor <;> decide) (by decide)).1.mpr (by decide)

/-- What `execve` asks for to start a file by a name of ten letters, its only argument:
the stack of 8216 bytes is larger than the sum, and the name in the auxiliary block ends
seven bytes behind it. -/
theorem file_name_behind_stack :
    padToWord (initUserStackSize + 11#32 + 0#32 + 11#32) = 8216#32 ∧
      reserved 1#32 11#32 0#32 0#32 13#32 11#32 ≤ (8216#32).toNat ∧
      (setupStackAndRegisters (fun _ => 0#8) 0#32 0x10000000#32 8216#32 1#32 11#32 0#32 0#32 13#32 11#32).layout.auxBlock +
        11#32 = 0x10000000#32 + 8216#32 + 7#32 ∧
      ¬ LaidOut (0x10000000#32).toNat ((0x10000000#32).toNat + (8216#32).toNat)
        (regions (setupStackAndRegisters (fun _ => 0#8) 0#32 0x10000000#32 8216#32 1#32 11#32 0#32 0#32 13#32
          11#32).layout 1#32 11#32 0#32 0#32 13#32 11#32) := by
  refine ⟨by decide, by decide, by decide, fun laid => ?_⟩
  -- the first byte behind the stack
  have within := laid.inside ⟨0x10000000#32 + 8216#32 - 4#32, 11⟩ (by decide) ((0x10000000#32).toNat + 8216)
    (by simp only [Region.Holds]; decide)
  exact absurd within.2 (by decide)

end FluxOS.UserProcsManager
