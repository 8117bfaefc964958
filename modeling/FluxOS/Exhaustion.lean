import FluxOS.MappingCycles

/-! What `mmap` answers when no address is left. The allocator's -1 is a page
number to `allocVirtualMemory`, and a length that is rounded up past 2^32 asks for
no pages at all. What comes back is then an address below user space, or nothing. -/
namespace FluxOS.MemoryUAPI
open Words PagingManager MemoryContext BuddyAllocator DyadicChunks

/-- The pages of a length, none of them cut off. -/
def pageCount (length : Word) : Nat := (length.toNat + 4095) / 4096

def UserAddress (address : Word) : Prop :=
  userspaceLowAddr.toNat ≤ address.toNat ∧ address.toNat ≤ userspaceHiAddr.toNat

instance (address : Word) : Decidable (UserAddress address) := inferInstanceAs (Decidable (_ ∧ _))

/-- The word is an errno as a system call returns it. -/
def IsError (ret : Word) : Prop := ∃ error, 0 < error ∧ error < 4096 ∧ ret = errorCode error

/-- No free chunk has as many pages as the length. -/
def Exhausted (s : BuddyAllocator) (length : Word) : Prop := ∀ c ∈ s.freeChunks, 2 ^ c.order < pageCount length

/-- With no room for it, a mapping at NULL is refused and changes nothing; and an
answer is an error or an address in user space. -/
structure AnswersSoundly (process : ProcessControlBlock) (addr length prot flags : Word) (fd : Int)
    (offset : Word) : Prop where
  exhausted : addr = 0#32 → Exhausted (allocator process) length →
    ∃ ret, IsError ret ∧ ∀ fuel, mmap fuel process addr length prot flags fd offset = some (process, ret)
  inside : ∀ fuel after ret, mmap fuel process addr length prot flags fd offset = some (after, ret) →
    IsError ret ∨ UserAddress ret

/-- The flags, the length and the file are not refused. -/
structure Accepted (process : ProcessControlBlock) (length flags : Word) (fd : Int) : Prop where
  sharing : ¬(flags &&& (mapPrivate ||| mapShared) = mapPrivate ||| mapShared ∨
    flags &&& (mapPrivate ||| mapShared) = 0#32)
  nonempty : length ≠ 0#32
  file : has flags mapAnonymous = true ∨ FSUAPI.descriptor process.openFiles fd ≠ none

/-- A file mapping is always made with `FixedHint`. -/
def hintsOf (flags : Word) : MemoryAllocationHints :=
  if has flags mapAnonymous then if has flags mapFixed then .fixedHint else .noHints else .fixedHint

section Call
variable {process : ProcessControlBlock} {addr length prot flags : Word} {fd : Int} {offset : Word}

/-- What is not accepted is refused before anything is looked for. -/
theorem mmap_refused (addr prot offset : Word) (refused : ¬ Accepted process length flags fd) :
    ∃ ret, IsError ret ∧ ∀ fuel, mmap fuel process addr length prot flags fd offset = some (process, ret) := by
  by_cases sharing : flags &&& (mapPrivate ||| mapShared) = mapPrivate ||| mapShared ∨
      flags &&& (mapPrivate ||| mapShared) = 0#32
  · exact ⟨_, ⟨einval, by decide, by decide, rfl⟩, fun fuel => by rw [mmap, if_pos sharing]⟩
  · by_cases empty : length = 0#32
    · exact ⟨_, ⟨einval, by decide, by decide, rfl⟩, fun fuel => by rw [mmap, if_neg sharing, if_pos empty]⟩
    · have file : ¬ has flags mapAnonymous = true := fun anonymous => refused ⟨sharing, empty, .inl anonymous⟩
      have closed : FSUAPI.descriptor process.openFiles fd = none := by
        by_contra opened
        exact refused ⟨sharing, empty, .inr opened⟩
      exact ⟨_, ⟨ebadf, by decide, by decide, rfl⟩, fun fuel => by
        simp only [mmap, if_neg sharing, if_neg empty, if_neg file, closed]⟩

/-- What is accepted is placed where an extent is found. NULL is an error for a file,
and for anonymous memory it leaves the address that was asked for. -/
theorem mmap_accepted (addr prot offset : Word) (accepted : Accepted process length flags fd) :
    ∃ insert : MemoryContext → Word → MemoryContext, ∀ fuel,
      mmap fuel process addr length prot flags fd offset =
        (process.memoryContext.findEmptyMemoryExtent fuel addr length (hintsOf flags)).map fun (ctx, found) =>
          if found = 0#32 then
            (setContext process ctx, if has flags mapAnonymous then addr else errorCode enomem)
          else (setContext process (insert ctx found), found) := by
  by_cases anonymous : has flags mapAnonymous = true
  · refine ⟨fun ctx found => ctx.insertMemoryDescriptor ⟨found, length, protFlagsToPermissions prot, .anonymousMemory⟩,
      fun fuel => ?_⟩
    simp only [mmap, if_neg accepted.sharing, if_neg accepted.nonempty, if_pos anonymous, hintsOf,
      allocateAnonymousMemoryAnywhere, Option.map_map]
    congr 1
    funext result
    obtain ⟨ctx, found⟩ := result
    simp only [Function.comp_apply]
    split <;> rfl
  · obtain ⟨fdesc, opened⟩ := Option.ne_none_iff_exists'.mp (accepted.file.resolve_left anonymous)
    refine ⟨fun ctx found => ctx.insertMemoryDescriptor
      ⟨found, length, protFlagsToPermissions prot, .memoryMappedFile fdesc.node offset⟩, fun fuel => ?_⟩
    simp only [mmap, if_neg accepted.sharing, if_neg accepted.nonempty, if_neg anonymous, hintsOf, opened,
      mapFileSegmentToMemory, Option.map_map]
    congr 1
    funext result
    obtain ⟨ctx, found⟩ := result
    simp only [Function.comp_apply]
    split <;> rfl

/-- The address that `allocVirtualMemory` makes of a block number, whatever it is. -/
def addressOf (block : Int) : Word := (BitVec.ofInt 32 block <<< 12) + userspaceLowAddr

/-- Page addresses are no errors. -/
theorem not_isError_addressOf (block : Int) : ¬ IsError (addressOf block) := by
  rintro ⟨error, positive, small, same⟩
  have value := congrArg BitVec.toNat same
  rw [addressOf, errorCode, BitVec.toNat_add, BitVec.toNat_shiftLeft, BitVec.toNat_neg, BitVec.toNat_ofNat,
    Nat.shiftLeft_eq, toNat_userspaceLowAddr] at value
  omega

theorem not_isError_zero : ¬ IsError 0#32 := by
  rintro ⟨error, positive, small, same⟩
  have value := congrArg BitVec.toNat same
  rw [errorCode, BitVec.toNat_neg, BitVec.toNat_ofNat, BitVec.toNat_ofNat] at value
  omega

theorem pages_of_length (rounds : length.toNat ≤ 0xFFFFF000) :
    pagesOf (roundToPageMultiples length) = pageCount length := by
  rw [pagesOf_eq, toNat_roundToPageMultiples, pageCount]
  omega

/-- Behind the last page boundary nothing is left of a length. -/
theorem no_pages_of_length (wraps : 0xFFFFF000 < length.toNat) : pagesOf (roundToPageMultiples length) = 0 := by
  have bound := length.isLt
  rw [pagesOf_eq, toNat_roundToPageMultiples]
  omega

/-- The search at NULL. -/
theorem extent_anywhere (ctx : MemoryContext) (fuel : Nat) (length : Word) (hints : MemoryAllocationHints) :
    ctx.findEmptyMemoryExtent fuel 0#32 length hints =
      (ctx.vmemAlloc.allocateBlocks (pagesOf (roundToPageMultiples length))).map fun (vmemAlloc, block) =>
        ({ ctx with vmemAlloc := vmemAlloc }, addressOf block) := by
  rw [MemoryContext.findEmptyMemoryExtent, if_neg (not_not.mpr rfl)]
  rfl

/-- The calls whose answer is sound. -/
inductive SoundCall (process : ProcessControlBlock) (addr length flags : Word) (fd : Int) : Prop where
  | refused (refused : ¬ Accepted process length flags fd)
  | anywhere (null : addr = 0#32) (rounds : length.toNat ≤ 0xFFFFF000) (c : Chunk)
      (first : ComesTo (allocator process) (pageCount length) c)
      (placed : UserAddress (addressOf c.start) ∨ has flags mapAnonymous = false ∧ addressOf c.start = 0#32)
  | asked (hint : addr ≠ 0#32) (answer : IsError addr ∨ UserAddress addr)
  | overlaps (hint : addr ≠ 0#32) (file : has flags mapAnonymous = false)
      (ending : process.memoryContext.findMemoryDescriptorsByRange addr (addr + length) ≠ [])
  | spins (hint : addr ≠ 0#32)
      (ending : process.memoryContext.findMemoryDescriptorsByRange addr (addr + length) = [])
      (spins : ∀ fuel, (allocator process).allocateBlocksAt fuel (blockOf addr)
        (pagesOf (roundToPageMultiples length)) = none)

theorem one_le_pageCount (nonempty : length ≠ 0#32) : 1 ≤ pageCount length := by
  have positive : length.toNat ≠ 0 := fun zero => nonempty (BitVec.eq_of_toNat_eq (by simpa using zero))
  rw [pageCount]
  omega

/-- A chunk has room for the pages just when its order is large enough. -/
theorem exhausted_iff (s : BuddyAllocator) (length : Word) :
    Exhausted s length ↔ ∀ c ∈ s.freeChunks, c.order < Nat.clog 2 (pageCount length) := by
  simp only [Exhausted, Nat.lt_clog_iff_pow_lt (show 1 < 2 by decide)]

/-- Where the search comes to a chunk there is room. -/
theorem not_exhausted {s : BuddyAllocator} {length : Word} {c : Chunk} (first : ComesTo s (pageCount length) c) :
    ¬ Exhausted s length := by
  intro exhausted
  have small := (exhausted_iff s length).mp exhausted c first.member
  have large := first.fits
  rw [Int.toNat_natCast] at large
  omega

/-- What a mapping at NULL returns when the extent found is at the address. -/
def answerAt (flags address : Word) : Word :=
  if address = 0#32 then if has flags mapAnonymous then 0#32 else errorCode enomem else address

theorem answerAt_sound_iff (flags : Word) (block : Int) :
    IsError (answerAt flags (addressOf block)) ∨ UserAddress (answerAt flags (addressOf block)) ↔
      UserAddress (addressOf block) ∨ has flags mapAnonymous = false ∧ addressOf block = 0#32 := by
  have bottom : ¬ UserAddress 0#32 := fun user => absurd user.1 (by decide)
  by_cases zero : addressOf block = 0#32
  · rw [answerAt, if_pos zero, zero, or_iff_right bottom, and_iff_left rfl]
    by_cases anonymous : has flags mapAnonymous = true
    · rw [if_pos anonymous, anonymous]
      exact ⟨fun sound => (sound.elim not_isError_zero bottom).elim, fun file => by cases file⟩
    · rw [if_neg anonymous]
      exact ⟨fun _ => Bool.eq_false_iff.mpr anonymous, fun _ => .inl ⟨enomem, by decide, by decide, rfl⟩⟩
  · rw [answerAt, if_neg zero, or_iff_right (not_isError_addressOf block), or_iff_left fun file => zero file.2]

/-- What a mapping at NULL comes to where its length can be rounded. -/
theorem mmap_anywhere (prot offset : Word) (accepted : Accepted process length flags fd)
    (orders : (allocator process).orders = 20)
    (rounds : length.toNat ≤ 0xFFFFF000) :
    (Exhausted (allocator process) length ∧
        ∀ fuel, ∃ after, mmap fuel process 0#32 length prot flags fd offset = some (after, addressOf (-1))) ∨
      ∃ c, ComesTo (allocator process) (pageCount length) c ∧
        ∀ fuel, ∃ after, mmap fuel process 0#32 length prot flags fd offset =
          some (after, answerAt flags (addressOf c.start)) := by
  obtain ⟨insert, mapped⟩ := mmap_accepted 0#32 prot offset accepted
  have bound := length.isLt
  have positive := one_le_pageCount accepted.nonempty
  have few : pageCount length < 2 ^ 21 := by
    rw [pageCount]
    omega
  have searched := allocateBlocks_comesTo (s := allocator process) (n := pageCount length) (by omega) (by omega)
    (by rw [orders]; omega)
  rw [Int.toNat_natCast] at searched
  simp only [extent_anywhere, pages_of_length rounds, Option.map_map] at mapped
  rcases searched with ⟨nothing, small⟩ | ⟨c, first, found⟩
  · refine .inl ⟨(exhausted_iff _ _).mpr small, fun fuel => ?_⟩
    have address : addressOf (-1) ≠ 0#32 := by decide
    simp only [mapped, nothing, Option.map_some, Function.comp_apply, if_neg address]
    exact ⟨_, rfl⟩
  · refine .inr ⟨c, first, fun fuel => ?_⟩
    have got := mapped fuel
    rw [found, Option.map_some, Function.comp_apply] at got
    dsimp only at got
    rw [got, answerAt]
    by_cases zero : addressOf c.start = 0#32
    · rw [if_pos zero, if_pos zero]
      exact ⟨_, rfl⟩
    · rw [if_neg zero, if_neg zero]
      exact ⟨_, rfl⟩

/-- A length that is rounded up past 2^32 asks the allocator for nothing, which it does
not answer. -/
theorem mmap_wraps (accepted : Accepted process length flags fd) (wraps : 0xFFFFF000 < length.toNat) (fuel : Nat) :
    mmap fuel process 0#32 length prot flags fd offset = none := by
  obtain ⟨insert, mapped⟩ := mmap_accepted 0#32 prot offset accepted
  rw [mapped, extent_anywhere, no_pages_of_length wraps, allocateBlocks_zero]
  rfl

/-- At NULL, a call is sound when its length can be rounded and the chunk that the search
comes to lies in user space. -/
theorem sound_anywhere_iff (accepted : Accepted process length flags fd) (orders : (allocator process).orders = 20) :
    AnswersSoundly process 0#32 length prot flags fd offset ↔
      length.toNat ≤ 0xFFFFF000 ∧ ∃ c, ComesTo (allocator process) (pageCount length) c ∧
        (UserAddress (addressOf c.start) ∨ has flags mapAnonymous = false ∧ addressOf c.start = 0#32) := by
  rcases Nat.lt_or_ge 0xFFFFF000 length.toNat with wraps | rounds
  · -- as many pages as no chunk has
    have exhausted : Exhausted (allocator process) length := by
      intro c member
      have order := (mem_freeChunks.mp member).1
      have most : 2 ^ c.order ≤ 2 ^ 19 := Nat.pow_le_pow_right (by decide) (by omega)
      rw [pageCount]
      omega
    constructor
    · intro sound
      obtain ⟨ret, -, answered⟩ := sound.exhausted rfl exhausted
      have none := answered 0
      rw [mmap_wraps accepted wraps] at none
      cases none
    · exact fun ⟨rounds, _⟩ => absurd rounds (Nat.not_le.mpr wraps)
  · rcases mmap_anywhere prot offset accepted orders rounds with
      ⟨exhausted, answered⟩ | ⟨c, first, answered⟩
    · constructor
      · intro sound
        obtain ⟨ret, isError, refused⟩ := sound.exhausted rfl exhausted
        obtain ⟨after, ran⟩ := answered 0
        rw [refused 0, Option.some.injEq, Prod.mk.injEq] at ran
        rw [ran.2] at isError
        exact absurd isError (not_isError_addressOf (-1))
      · rintro ⟨-, c, first, -⟩
        exact absurd exhausted (not_exhausted first)
    · have room := not_exhausted first
      have reduced : AnswersSoundly process 0#32 length prot flags fd offset ↔
          IsError (answerAt flags (addressOf c.start)) ∨ UserAddress (answerAt flags (addressOf c.start)) := by
        constructor
        · intro sound
          obtain ⟨after, ran⟩ := answered 0
          exact sound.inside 0 after _ ran
        · intro answer
          refine ⟨fun _ exhausted => absurd exhausted room, fun fuel after ret ran => ?_⟩
          obtain ⟨after', same⟩ := answered fuel
          rw [same, Option.some.injEq, Prod.mk.injEq] at ran
          rw [← ran.2]
          exact answer
      rw [reduced, answerAt_sound_iff]
      constructor
      · exact fun placed => ⟨rounds, c, first, placed⟩
      · rintro ⟨-, d, other, placed⟩
        rwa [first.unique other]

/-- A mapping at an address where no mapping ends asks for that place. -/
theorem mmap_at_free (prot offset : Word) (accepted : Accepted process length flags fd) (hint : addr ≠ 0#32)
    (free : process.memoryContext.findMemoryDescriptorsByRange addr (addr + length) = []) (fuel : Nat) :
    ((allocator process).allocateBlocksAt fuel (blockOf addr) (pagesOf (roundToPageMultiples length)) = none ∧
        mmap fuel process addr length prot flags fd offset = none) ∨
      (allocator process).allocateBlocksAt fuel (blockOf addr) (pagesOf (roundToPageMultiples length)) ≠ none ∧
        ∃ after, mmap fuel process addr length prot flags fd offset = some (after, addr) := by
  obtain ⟨insert, mapped⟩ := mmap_accepted addr prot offset accepted
  have got := mapped fuel
  simp only [MemoryContext.findEmptyMemoryExtent, if_pos hint, free, List.isEmpty_nil, not_true_eq_false, false_and,
    if_false, if_true, allocVirtualMemoryAt, Option.map_map] at got
  rw [allocator, blockOf, pagesOf]
  cases placed : process.memoryContext.vmemAlloc.allocateBlocksAt fuel ((addr - userspaceLowAddr) >>> 12).toInt
      (roundToPageMultiples length >>> 12).toInt with
  | none =>
    rw [placed, Option.map_none] at got
    exact .inl ⟨rfl, got⟩
  | some result =>
    rw [placed, Option.map_some, Function.comp_apply, Function.comp_apply] at got
    dsimp only at got
    rw [if_neg hint] at got
    exact .inr ⟨Option.some_ne_none result, _, got⟩

/-- A mapping at an address where a mapping ends already is refused to files only. -/
theorem mmap_at_taken (prot offset : Word) (accepted : Accepted process length flags fd) (hint : addr ≠ 0#32)
    (taken : process.memoryContext.findMemoryDescriptorsByRange addr (addr + length) ≠ []) (fuel : Nat) :
    ∃ after, mmap fuel process addr length prot flags fd offset =
      some (after, if has flags mapAnonymous then addr else errorCode enomem) := by
  obtain ⟨insert, mapped⟩ := mmap_accepted addr prot offset accepted
  have got := mapped fuel
  have some : (process.memoryContext.findMemoryDescriptorsByRange addr (addr + length)).isEmpty = false :=
    List.isEmpty_eq_false_iff.mpr taken
  by_cases fixed : hintsOf flags = .fixedHint
  · simp only [MemoryContext.findEmptyMemoryExtent, if_pos hint, some, fixed, Bool.false_eq_true, not_false_eq_true,
      and_self, if_true, Option.map_some] at got
    exact ⟨_, got⟩
  · have anonymous : has flags mapAnonymous = true := by
      by_contra file
      exact fixed (if_neg file)
    simp only [MemoryContext.findEmptyMemoryExtent, if_pos hint, some, fixed, Bool.false_eq_true, and_false, if_false,
      Option.map_some, if_neg hint] at got
    exact ⟨_, by rw [got, if_pos anonymous]⟩

/-- At an address, a call is sound when the address is one, when a file is kept from
overlapping, or when it never comes back. -/
theorem sound_at_iff (accepted : Accepted process length flags fd) (hint : addr ≠ 0#32) :
    AnswersSoundly process addr length prot flags fd offset ↔
      (IsError addr ∨ UserAddress addr) ∨
        (has flags mapAnonymous = false ∧
          process.memoryContext.findMemoryDescriptorsByRange addr (addr + length) ≠ []) ∨
        process.memoryContext.findMemoryDescriptorsByRange addr (addr + length) = [] ∧
          ∀ fuel, (allocator process).allocateBlocksAt fuel (blockOf addr) (pagesOf (roundToPageMultiples length)) =
            none := by
  by_cases free : process.memoryContext.findMemoryDescriptorsByRange addr (addr + length) = []
  · have asked := mmap_at_free prot offset accepted hint free
    simp only [free, ne_eq, not_true_eq_false, and_false, false_or, true_and]
    constructor
    · intro sound
      by_cases spins : ∀ fuel, (allocator process).allocateBlocksAt fuel (blockOf addr)
          (pagesOf (roundToPageMultiples length)) = none
      · exact .inr spins
      · obtain ⟨fuel, returns⟩ := not_forall.mp spins
        obtain ⟨after, ran⟩ := ((asked fuel).resolve_left fun both => returns both.1).2
        exact .inl (sound.inside fuel after addr ran)
    · intro answer
      refine ⟨fun null => absurd null hint, fun fuel after ret ran => ?_⟩
      rcases asked fuel with ⟨-, none⟩ | ⟨returns, after', same⟩
      · rw [none] at ran
        cases ran
      · rw [same, Option.some.injEq, Prod.mk.injEq] at ran
        rw [← ran.2]
        exact answer.resolve_right fun spins => returns (spins fuel)
  · have asked := mmap_at_taken prot offset accepted hint free
    simp only [free, ne_eq, not_false_eq_true, and_true, false_and, or_false]
    constructor
    · intro sound
      obtain ⟨after, ran⟩ := asked 0
      have answer := sound.inside 0 after _ ran
      by_cases anonymous : has flags mapAnonymous = true
      · rw [if_pos anonymous] at answer
        exact .inl answer
      · exact .inr (Bool.eq_false_iff.mpr anonymous)
    · intro answer
      refine ⟨fun null => absurd null hint, fun fuel after ret ran => ?_⟩
      obtain ⟨after', same⟩ := asked fuel
      rw [same, Option.some.injEq, Prod.mk.injEq] at ran
      rw [← ran.2]
      by_cases anonymous : has flags mapAnonymous = true
      · rw [if_pos anonymous]
        exact answer.resolve_right (by rw [anonymous]; decide)
      · rw [if_neg anonymous]
        exact .inl ⟨enomem, by decide, by decide, rfl⟩

/-- **Answers are sound** for exactly these calls. With `m_orders` as the constructor
sets it, a length that cannot be rounded is never among those at NULL. -/
theorem answers_soundly_iff (orders : (allocator process).orders = 20) (addr length prot flags : Word) (fd : Int)
    (offset : Word) :
    AnswersSoundly process addr length prot flags fd offset ↔ SoundCall process addr length flags fd := by
  by_cases accepted : Accepted process length flags fd
  · by_cases null : addr = 0#32
    · subst null
      rw [sound_anywhere_iff accepted orders]
      constructor
      · rintro ⟨rounds, c, first, placed⟩
        exact .anywhere rfl rounds c first placed
      · intro sound
        cases sound with
        | refused refused => exact absurd accepted refused
        | anywhere _ rounds c first placed => exact ⟨rounds, c, first, placed⟩
        | asked hint => exact absurd rfl hint
        | overlaps hint => exact absurd rfl hint
        | spins hint => exact absurd rfl hint
    · rw [sound_at_iff accepted null]
      constructor
      · rintro (answer | ⟨file, ending⟩ | ⟨ending, spins⟩)
        · exact .asked null answer
        · exact .overlaps null file ending
        · exact .spins null ending spins
      · intro sound
        cases sound with
        | refused refused => exact absurd accepted refused
        | anywhere zero => exact absurd zero null
        | asked _ answer => exact .inl answer
        | overlaps _ file ending => exact .inr (.inl ⟨file, ending⟩)
        | spins _ ending spins => exact .inr (.inr ⟨ending, spins⟩)
  · obtain ⟨ret, isError, refused⟩ := mmap_refused addr prot offset accepted
    refine ⟨fun _ => .refused accepted, fun _ => ⟨fun _ _ => ⟨ret, isError, refused⟩, fun fuel after got ran => ?_⟩⟩
    rw [refused fuel, Option.some.injEq, Prod.mk.injEq] at ran
    exact .inl (ran.2 ▸ isError)

/-- Where the allocator is in order, every free chunk lies in user space. -/
theorem user_of_freeChunk (wf : (allocator process).WellFormed) (orders : (allocator process).orders = 20) {c : Chunk}
    (member : c ∈ (allocator process).freeChunks) : UserAddress (addressOf c.start) := by
  have bounds := wf.inside c member
  have nonempty := c.start_lt_stop
  rw [orders] at bounds
  obtain ⟨block, at_⟩ := Int.eq_ofNat_of_zero_le bounds.1
  rw [UserAddress, addressOf, at_, BitVec.toNat_add, BitVec.toNat_shiftLeft, Nat.shiftLeft_eq,
    toNat_userspaceLowAddr, toNat_userspaceHiAddr]
  have value : (BitVec.ofInt 32 (block : Int)).toNat = block := by
    rw [BitVec.ofInt_natCast, BitVec.toNat_ofNat]
    omega
  omega

end Call

/-- A process whose address space is new. -/
def newSpace : ProcessControlBlock := { (default : ProcessControlBlock) with memoryContext := MemoryContext.new }

/-- Private anonymous memory. -/
def privateAnonymous : Word := mapPrivate ||| mapAnonymous

/-- The first page is mapped where user space begins. -/
theorem first_page_answered : AnswersSoundly newSpace 0#32 0x1000#32 protRead privateAnonymous (-1) 0#32 := by
  have empty : ∀ i < 19, (allocator newSpace).lists i = [] := by decide
  exact (answers_soundly_iff (by decide) _ _ _ _ _ _).mpr
    (.anywhere rfl (by decide) ⟨19, 0⟩ ⟨by decide, by decide, ⟨[], by decide⟩, fun i _ below => empty i below⟩
      (.inl (by decide)))

/-- In the same address space, a length of one page more than half of 2^32 cannot be had.
What is returned is the page below user space, and a descriptor for it is there. -/
theorem page_below_answered :
    Exhausted (allocator newSpace) 0x80001000#32 ∧
      (∃ after, mmap 0 newSpace 0#32 0x80001000#32 protRead privateAnonymous (-1) 0#32 = some (after, 0x07FFF000#32) ∧
        after.memoryContext.descriptors =
          [⟨0x07FFF000#32, 0x80001000#32, ⟨true, false, false⟩, .anonymousMemory⟩]) ∧
      ¬ AnswersSoundly newSpace 0#32 0x80001000#32 protRead privateAnonymous (-1) 0#32 := by
  have exhausted : Exhausted (allocator newSpace) 0x80001000#32 := by
    intro c member
    have order : c.order < 20 := (mem_freeChunks.mp member).1
    have most : 2 ^ c.order ≤ 2 ^ 19 := Nat.pow_le_pow_right (by decide) (by omega)
    exact most.trans_lt (by decide)
  obtain ⟨after, ran, kept⟩ : ∃ after,
      mmap 0 newSpace 0#32 0x80001000#32 protRead privateAnonymous (-1) 0#32 = some (after, 0x07FFF000#32) ∧
        after.memoryContext.descriptors =
          [⟨0x07FFF000#32, 0x80001000#32, ⟨true, false, false⟩, .anonymousMemory⟩] := ⟨_, rfl, rfl⟩
  refine ⟨exhausted, ⟨after, ran, kept⟩, fun sound => ?_⟩
  obtain ⟨ret, isError, refused⟩ := sound.exhausted rfl exhausted
  rw [refused 0, Option.some.injEq, Prod.mk.injEq] at ran
  rw [ran.2, show 0x07FFF000#32 = addressOf (-1) by decide] at isError
  exact not_isError_addressOf (-1) isError

end FluxOS.MemoryUAPI
