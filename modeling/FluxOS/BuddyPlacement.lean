import FluxOS.BuddyFreeChunks

/-! Placement allocation, `allocateBlocks(int, int)`. When it returns, the
chunk it picked really held the first block, the whole request was free, and
exactly the request leaves the free set, except that blocks behind it are lost
when the last chunk sticks out further than the first chunk's size. When the
picked chunk merely ends at the first block, the chunk loop never stops. -/
namespace FluxOS.BuddyAllocator
open DyadicChunks

/-! ## The chunk loop -/

/-- What the chunk loop has done once it stops: it took the chunks that tile
`[start, newBlockIndex)`, the last of them reaching past the request. -/
structure WalkDone (s : BuddyAllocator) (start size : Int) (walk : ChunkWalk) : Prop where
  orders : walk.allocator.orders = s.orders
  count : ∀ block, walk.allocator.freeCount block + span start walk.newBlockIndex block = s.freeCount block
  kept : ∀ c ∈ walk.allocator.freeChunks, c ∈ s.freeChunks
  balance : walk.newBlockIndex + walk.blocksToRead = start + size
  covered : walk.blocksToRead ≤ 0
  last : ∃ d ∈ s.freeChunks, d.stop = walk.newBlockIndex ∧
    walk.lastReadChunkSize = 2 ^ d.order ∧ 0 < walk.blocksToRead + 2 ^ d.order

/-- A loop that stops has taken free chunks all the way. -/
theorem readChunks_done {fuel : Nat} {s : BuddyAllocator} {start size : Int} {walk : ChunkWalk}
    (positive : 0 < size) (ran : readChunks fuel s start size = some walk) :
    WalkDone s start size walk := by
  induction fuel generalizing s start size with
  | zero => cases ran
  | succ fuel ih =>
    simp only [readChunks] at ran
    cases taken : s.allocateAlignedBlocks start with
    | mk next length =>
      have take := allocateAlignedBlocks_take s start
      rw [taken] at take ran
      dsimp only at ran
      cases take with
      | missed absent =>
        -- the chunk is missing: the loop runs again from the same place
        rw [sub_zero, add_zero, if_pos positive] at ran
        exact ih positive ran
      | taken c member begins =>
        subst begins
        have size_pos : (0 : Int) < 2 ^ c.order := by positivity
        have stops : c.stop = c.start + 2 ^ c.order := rfl
        split at ran
        · rename_i more
          obtain ⟨orders, count, kept, balance, covered, d, dMember, dStop, dSize, dReach⟩ := ih more ran
          have grows : c.stop ≤ walk.newBlockIndex := by omega
          refine ⟨orders, fun block => ?_, fun e eMember => mem_of_mem_removeNode member (kept e eMember),
            by omega, covered, d, mem_of_mem_removeNode member dMember, dStop, dSize, dReach⟩
          have before := freeCount_removeNode member block
          have after := count block
          have joined := span_add c.start_lt_stop.le grows block
          rw [← stops] at after
          omega
        · rename_i enough
          simp only [Option.some.injEq] at ran
          subst ran
          exact ⟨rfl, freeCount_removeNode member, fun e eMember => mem_of_mem_removeNode member eMember,
            by dsimp only; omega, by dsimp only; omega, c, member, stops, rfl, by dsimp only; omega⟩

/-- A loop that starts on a chunk boundary in an entirely free request stops. -/
theorem readChunks_stops {s : BuddyAllocator} {start size : Int} (once : ∀ block, s.freeCount block ≤ 1)
    (positive : 0 < size) (boundary : s.freeCount (start - 1) = 0)
    (free : ∀ block, start ≤ block → block < start + size → s.Free block) :
    ∃ fuel walk, readChunks fuel s start size = some walk := by
  induction bound : size.toNat using Nat.strong_induction_on generalizing s start size with
  | _ measure ih =>
    -- the chunk with the first block begins there, since the block before it is not free
    obtain ⟨c, member, holds⟩ := free start le_rfl (by omega)
    have begins : c.start = start := by
      by_contra different
      have earlier : c.Holds (start - 1) := by
        simp only [Chunk.Holds] at holds ⊢
        omega
      have counted : 0 < s.freeCount (start - 1) := cover_pos_iff.mpr ⟨c, member, earlier⟩
      omega
    have size_pos : (0 : Int) < 2 ^ c.order := by positivity
    cases taken : s.allocateAlignedBlocks start with
    | mk next length =>
      have take := allocateAlignedBlocks_take s start
      rw [taken] at take
      cases take with
      | missed absent => exact absurd begins (absent c member)
      | taken d dMember dBegins =>
        have same : d = c := holder_unique (once start) dMember member
          (by rw [← dBegins]; exact d.holds_start) holds
        subst same
        have stops : d.stop = start + 2 ^ d.order := by rw [Chunk.stop, begins]
        by_cases more : size - 2 ^ d.order > 0
        · have removed := freeCount_removeNode member
          have nextOnce : ∀ block, (s.removeNode d.order d.start).freeCount block ≤ 1 := fun block => by
            have whole := removed block
            have bounded := once block
            omega
          have nextBoundary : (s.removeNode d.order d.start).freeCount (start + 2 ^ d.order - 1) = 0 := by
            have whole := removed (start + 2 ^ d.order - 1)
            have bounded := once (start + 2 ^ d.order - 1)
            have inside : 0 < span d.start d.stop (start + 2 ^ d.order - 1) :=
              span_pos_iff.mpr ⟨by omega, by omega⟩
            omega
          have nextFree : ∀ block, start + 2 ^ d.order ≤ block →
              block < start + 2 ^ d.order + (size - 2 ^ d.order) →
              (s.removeNode d.order d.start).Free block := fun block low high => by
            have whole := removed block
            have counted := free_iff_freeCount.mp (free block (by omega) (by omega))
            rw [span, if_neg (by omega)] at whole
            exact free_iff_freeCount.mpr (by omega)
          obtain ⟨fuel, walk, ran⟩ := ih (size - 2 ^ d.order).toNat (by omega) nextOnce more
            nextBoundary nextFree rfl
          exact ⟨fuel + 1, walk, by simpa only [readChunks, taken, if_pos more] using ran⟩
        · exact ⟨1, ⟨s.removeNode d.order d.start, start + 2 ^ d.order, size - 2 ^ d.order, 2 ^ d.order⟩,
            by simp only [readChunks, taken, if_neg more]⟩

/-! ## The chunk search -/

/-- What the search over the lists picks: the first chunk, larger orders first
and then in list order, that satisfies the comparison. -/
structure Located (s : BuddyAllocator) (block : Int) (fc : Chunk) (skipped : List Int) : Prop where
  bound : fc.order < s.orders
  position : ∃ rest, s.lists fc.order = skipped ++ fc.start :: rest
  matched : fc.start ≤ block ∧ block ≤ fc.stop
  above : ∀ d ∈ s.freeChunks, fc.order < d.order → ¬ (d.start ≤ block ∧ block ≤ d.stop)
  before : ∀ start ∈ skipped, ¬ (start ≤ block ∧ block ≤ start + 2 ^ fc.order)

theorem matchesChunk_iff {i : Nat} {block chunk : Int} :
    matchesChunk i block chunk = true ↔ chunk ≤ block ∧ block ≤ chunk + 2 ^ i := by
  simp [matchesChunk]

theorem Located.member {s : BuddyAllocator} {block : Int} {fc : Chunk} {skipped : List Int}
    (located : Located s block fc skipped) : fc ∈ s.freeChunks := by
  obtain ⟨rest, listed⟩ := located.position
  exact mem_freeChunks.mpr ⟨located.bound, by simp [listed]⟩

theorem locate_some {s : BuddyAllocator} {block : Int} {fc : Chunk} (found : s.locate block = some fc) :
    ∃ skipped, Located s block fc skipped := by
  suffices search : ∀ i ≤ s.orders,
      (∀ d ∈ s.freeChunks, i ≤ d.order → ¬ (d.start ≤ block ∧ block ≤ d.stop)) →
        s.locateFrom block i = some fc → ∃ skipped, Located s block fc skipped from
    search s.orders le_rfl (fun d member high =>
      absurd (mem_freeChunks.mp member).1 (Nat.not_lt.mpr high)) found
  intro i bound above ran
  induction i with
  | zero => cases ran
  | succ i ih =>
    simp only [locateFrom] at ran
    cases search : (s.lists i).find? (matchesChunk i block) with
    | none =>
      rw [search] at ran
      refine ih (by omega) (fun d member high => ?_) ran
      rcases Nat.eq_or_lt_of_le high with rfl | higher
      · have missed := List.find?_eq_none.mp search d.start (mem_freeChunks.mp member).2
        rwa [matchesChunk_iff] at missed
      · exact above d member higher
    | some chunk =>
      rw [search] at ran
      simp only [Option.some.injEq] at ran
      subst ran
      obtain ⟨matched, skipped, rest, listed, before⟩ := List.find?_eq_some_iff_append.mp search
      refine ⟨skipped, by dsimp only; omega, ⟨rest, listed⟩, matchesChunk_iff.mp matched, above,
        fun start member => ?_⟩
      have unmatched := before start member
      rw [Bool.not_eq_true', Bool.eq_false_iff] at unmatched
      rwa [Ne, matchesChunk_iff] at unmatched

theorem locate_none {s : BuddyAllocator} {block : Int} (missing : s.locate block = none) :
    ∀ d ∈ s.freeChunks, ¬ (d.start ≤ block ∧ block ≤ d.stop) := by
  suffices search : ∀ i, s.locateFrom block i = none →
      ∀ d ∈ s.freeChunks, d.order < i → ¬ (d.start ≤ block ∧ block ≤ d.stop) from
    fun d member => search s.orders missing d member (mem_freeChunks.mp member).1
  intro i ran
  induction i with
  | zero => exact fun d _ low => absurd low (Nat.not_lt_zero _)
  | succ i ih =>
    intro d member low
    simp only [locateFrom] at ran
    cases search : (s.lists i).find? (matchesChunk i block) with
    | some chunk => simp [search] at ran
    | none =>
      rw [search] at ran
      rcases Nat.eq_or_lt_of_le (Nat.le_of_lt_succ low) with rfl | lower
      · have missed := List.find?_eq_none.mp search d.start (mem_freeChunks.mp member).2
        rwa [matchesChunk_iff] at missed
      · exact ih ran d member lower

/-- Nothing is found exactly when neither the block nor the one before it is free. -/
theorem locate_none_iff {s : BuddyAllocator} {block : Int} :
    s.locate block = none ↔ ¬ s.Free block ∧ ¬ s.Free (block - 1) := by
  constructor
  · intro missing
    have unmatched := locate_none missing
    constructor
    · rintro ⟨d, member, holds⟩
      exact unmatched d member ⟨holds.1, holds.2.le⟩
    · rintro ⟨d, member, holds⟩
      have contains := unmatched d member
      simp only [Chunk.Holds] at holds
      omega
  · rintro ⟨notHere, notBefore⟩
    cases search : s.locate block with
    | none => rfl
    | some fc =>
      obtain ⟨skipped, located⟩ := locate_some search
      have matched := located.matched
      have nonempty := fc.start_lt_stop
      by_cases inside : block < fc.stop
      · exact absurd ⟨fc, located.member, matched.1, inside⟩ notHere
      · exact absurd ⟨fc, located.member, by omega, by omega⟩ notBefore

/-! ## Carving the request out of the picked chunk -/

/-- The blocks a placement takes out of the free set: the request, and behind
it what of the last chunk `d` is not given back. -/
def takenStop (fc d : Chunk) (requestStop : Int) : Int :=
  d.stop - (d.stop - requestStop) % 2 ^ fc.order

/-- What a returning placement has done. -/
structure Carved (s : BuddyAllocator) (fc : Chunk) (block size : Int) (s' : BuddyAllocator) : Prop where
  inside : block < fc.stop
  free : ∀ x, block ≤ x → x < block + size → s.Free x
  last : ∃ d ∈ s.freeChunks, d.Holds (block + size - 1) ∧
    ∀ x, s'.freeCount x + span block (takenStop fc d (block + size)) x = s.freeCount x
  orders : s'.orders = s.orders
  wf : s'.WellFormed

/-- After the head loop the picked chunk has given its blocks before the
request back. -/
structure HeadReleased (s : BuddyAllocator) (fc : Chunk) (block : Int) (s' : BuddyAllocator) : Prop where
  orders : s'.orders = s.orders
  aligned : ∀ c ∈ s'.freeChunks, c.Aligned
  kept : ∀ c ∈ s'.freeChunks, block < c.stop → c ∈ s.freeChunks
  count : ∀ x, s'.freeCount x + span block fc.stop x = s.freeCount x

private theorem head_released {s : BuddyAllocator} (wf : s.WellFormed) {fc : Chunk}
    (member : fc ∈ s.freeChunks) {block : Int} (low : fc.start ≤ block) (high : block < fc.stop) :
    HeadReleased s fc block
      (releaseHead fc.order (s.removeNode fc.order fc.start) (block - fc.start) fc.start).1 := by
  have bound := (mem_freeChunks.mp member).1
  have whole : (block - fc.start) % 2 ^ fc.order = block - fc.start :=
    Int.emod_eq_of_lt (by omega) (by rw [Chunk.stop] at high; omega)
  have parts := freeChunks_releaseHead (s := s.removeNode fc.order fc.start) bound.le
    (block - fc.start) fc.start
  refine ⟨by simp, fun c held => ?_, fun c held beyond => ?_, fun x => ?_⟩
  · rcases List.mem_append.mp (parts.mem_iff.mp held) with cut | kept
    · exact aligned_of_mem_upward (wf.aligned fc member) cut
    · exact wf.aligned c (mem_of_mem_removeNode member kept)
  · rcases List.mem_append.mp (parts.mem_iff.mp held) with cut | kept
    · -- the head chunks end before the request
      have nonempty := c.start_lt_stop
      have counted : 0 < cover (upward fc.order (block - fc.start) fc.start) (c.stop - 1) :=
        cover_pos_iff.mpr ⟨c, cut, by omega, by omega⟩
      rw [cover_upward, span_pos_iff, whole] at counted
      omega
    · exact mem_of_mem_removeNode member kept
  · rw [freeCount_releaseHead (by simpa using bound.le), whole]
    have removed := freeCount_removeNode member x
    have joined := span_add low high.le x
    rw [add_sub_cancel]
    omega

/-- The two ways to cover the request, with the blocks behind it given back in
either. -/
theorem carve_eq (fuel : Nat) (s : BuddyAllocator) (fc : Chunk) (block size : Int) :
    carve fuel s fc block size =
      let head := releaseHead fc.order (s.removeNode fc.order fc.start) (block - fc.start) fc.start
      if fc.stop < block + size then
        (readChunks fuel head.1 (head.2 + (fc.stop - block)) (block + size - fc.stop)).map fun walk =>
          if walk.blocksToRead < 0 then
            releaseTail fc.order walk.allocator (block + size) (-walk.blocksToRead)
          else walk.allocator
      else some (releaseTail fc.order head.1 (head.2 + size) (fc.stop - (block + size))) := by
  have start : block - (block - fc.start) = fc.start := by ring
  have length : -(2 ^ fc.order - size - (block - fc.start)) = block + size - fc.stop := by
    rw [Chunk.stop]
    ring
  have stop : fc.start + 2 ^ fc.order = fc.stop := rfl
  simp only [carve, start, length, stop, gt_iff_lt, sub_pos, sub_neg, neg_sub, add_sub_cancel]
  split
  · generalize readChunks fuel _ _ _ = result
    cases result with
    | none => rfl
    | some walk =>
      simp only [Option.map_some]
      split <;> rfl
  · split
    · rfl
    · have exact : fc.stop - (block + size) = 0 := by omega
      rw [exact, releaseTail_zero]

/-- Giving the end of the last chunk back completes a placement. -/
private theorem tail_released {s middle : BuddyAllocator} (wf : s.WellFormed) {fc d : Chunk}
    {block size : Int} (bound : fc.order < s.orders) (member : d ∈ s.freeChunks) (positive : 1 ≤ size)
    (last : d.Holds (block + size - 1)) (released : middle.orders = s.orders)
    (aligned : ∀ c ∈ middle.freeChunks, c.Aligned)
    (count : ∀ x, middle.freeCount x + span block d.stop x = s.freeCount x) :
    let after := releaseTail fc.order middle (block + size) (d.stop - (block + size))
    (∀ x, after.freeCount x + span block (takenStop fc d (block + size)) x = s.freeCount x) ∧
      after.orders = s.orders ∧ after.WellFormed := by
  intro after
  have stopEq : d.stop = d.start + 2 ^ d.order := rfl
  have nonneg : 0 ≤ d.stop - (block + size) := by
    simp only [Chunk.Holds] at last
    omega
  have small : d.stop - (block + size) < 2 ^ d.order := by
    simp only [Chunk.Holds] at last
    omega
  have power : (0 : Int) < 2 ^ fc.order := by positivity
  have part := emod_two_pow_le nonneg fc.order
  have partNonneg := Int.emod_nonneg (d.stop - (block + size)) power.ne'
  have inBounds : fc.order ≤ middle.orders := released ▸ bound.le
  have counts : ∀ x, after.freeCount x + span block (takenStop fc d (block + size)) x = s.freeCount x := by
    intro x
    have given := freeCount_releaseTail inBounds (block + size) (d.stop - (block + size)) x
    rw [add_sub_cancel] at given
    change after.freeCount x = _ at given
    have joined := span_add (show block ≤ takenStop fc d (block + size) by rw [takenStop]; omega)
      (show takenStop fc d (block + size) ≤ d.stop by rw [takenStop]; omega) x
    have whole := count x
    rw [takenStop] at joined ⊢
    omega
  refine ⟨counts, by simp [after, released], wf.of_fewer (by simp [after, released]) (fun x => ?_) ?_⟩
  · have whole := counts x
    omega
  · intro c held
    have parts := (freeChunks_releaseTail inBounds _ _).mem_iff.mp held
    rcases List.mem_append.mp parts with cut | kept
    · rw [add_sub_cancel] at cut
      refine aligned_of_mem_downward_of_lt nonneg small ?_ cut
      exact dvd_add (wf.aligned d member) dvd_rfl
    · exact aligned c kept

/-- Giving back what lies before a block in its chunk comes to the block. -/
theorem releaseHead_reaches (s : BuddyAllocator) {fc : Chunk} {block : Int} (low : fc.start ≤ block)
    (inside : block < fc.stop) : (releaseHead fc.order s (block - fc.start) fc.start).2 = block := by
  have position := releaseHead_position fc.order s (block - fc.start) fc.start
  rw [Chunk.stop] at inside
  rwa [Int.emod_eq_of_lt (by omega) (by omega), add_sub_cancel] at position

private theorem carve_within {fuel : Nat} {s s' : BuddyAllocator} (wf : s.WellFormed) {fc : Chunk}
    (member : fc ∈ s.freeChunks) {block size : Int} (positive : 1 ≤ size) (low : fc.start ≤ block)
    (inside : block < fc.stop) (fits : block + size ≤ fc.stop)
    (ran : carve fuel s fc block size = some s') : Carved s fc block size s' := by
  have bound := (mem_freeChunks.mp member).1
  have head := head_released wf member low inside
  have position := releaseHead_reaches (s.removeNode fc.order fc.start) low inside
  rw [carve_eq] at ran
  dsimp only at ran
  rw [if_neg (by omega), position, Option.some.injEq] at ran
  subst ran
  have last : fc.Holds (block + size - 1) := ⟨by omega, by omega⟩
  obtain ⟨counts, orders, formed⟩ :=
    tail_released wf bound member positive last head.orders head.aligned head.count
  refine ⟨inside, fun x from_ to_ => ⟨fc, member, by omega, by omega⟩, ⟨fc, member, last, counts⟩,
    orders, formed⟩

private theorem carve_across {fuel : Nat} {s s' : BuddyAllocator} (wf : s.WellFormed) {fc : Chunk}
    (member : fc ∈ s.freeChunks) {block size : Int} (positive : 1 ≤ size) (low : fc.start ≤ block)
    (inside : block < fc.stop) (crosses : fc.stop < block + size)
    (ran : carve fuel s fc block size = some s') : Carved s fc block size s' := by
  have bound := (mem_freeChunks.mp member).1
  have head := head_released wf member low inside
  have position := releaseHead_reaches (s.removeNode fc.order fc.start) low inside
  rw [carve_eq] at ran
  dsimp only at ran
  rw [if_pos crosses, position, add_sub_cancel] at ran
  obtain ⟨walk, walked, result⟩ := Option.map_eq_some_iff.mp ran
  have done := readChunks_done (by omega) walked
  obtain ⟨d, dRead, dStop, dSize, dReach⟩ := done.last
  have balance := done.balance
  have covered := done.covered
  have stopEq : d.stop = d.start + 2 ^ d.order := rfl
  have dMember : d ∈ s.freeChunks := head.kept d dRead (by omega)
  have last : d.Holds (block + size - 1) := ⟨by omega, by omega⟩
  have count : ∀ x, walk.allocator.freeCount x + span block d.stop x = s.freeCount x := by
    intro x
    have read := done.count x
    have released := head.count x
    have joined := span_add inside.le (show fc.stop ≤ d.stop by omega) x
    rw [dStop] at joined ⊢
    omega
  -- nothing is given back exactly when the remainder is empty
  have uniform : s' = releaseTail fc.order walk.allocator (block + size) (d.stop - (block + size)) := by
    rw [show d.stop - (block + size) = -walk.blocksToRead by omega, ← result]
    split
    · rfl
    · rw [show walk.blocksToRead = 0 by omega, neg_zero, releaseTail_zero]
  obtain ⟨counts, orders, formed⟩ := tail_released wf bound dMember positive last
    (done.orders.trans head.orders) (fun c held => head.aligned c (done.kept c held)) count
  rw [← uniform] at counts orders formed
  refine ⟨inside, fun x from_ to_ => ?_, ⟨d, dMember, last, counts⟩, orders, formed⟩
  have whole := count x
  have taken : 0 < span block d.stop x := span_pos_iff.mpr ⟨from_, by omega⟩
  exact free_iff_freeCount.mpr (by omega)

/-- A chunk that ends at the request sends the chunk loop back to its own
start, where nothing is free any more: the loop spins. -/
theorem carve_past_end (fuel : Nat) {s : BuddyAllocator} (wf : s.WellFormed) {fc : Chunk}
    (member : fc ∈ s.freeChunks) {size : Int} (positive : 1 ≤ size) :
    carve fuel s fc fc.stop size = none := by
  have bound := (mem_freeChunks.mp member).1
  have length : fc.stop - fc.start = 2 ^ fc.order := by rw [Chunk.stop]; ring
  have position := releaseHead_position fc.order (s.removeNode fc.order fc.start) (fc.stop - fc.start) fc.start
  rw [length, Int.emod_self, add_zero] at position
  rw [carve_eq]
  dsimp only
  rw [if_pos (by omega), sub_self, add_zero, length, position]
  cases walked : readChunks fuel _ fc.start (fc.stop + size - fc.stop) with
  | none => rfl
  | some walk =>
    exfalso
    have done := readChunks_done (by omega) walked
    have read := done.count fc.start
    have reached : 0 < span fc.start walk.newBlockIndex fc.start :=
      span_pos_iff.mpr ⟨le_rfl, by have balance := done.balance; have covered := done.covered; omega⟩
    have given := freeCount_releaseHead (s := s.removeNode fc.order fc.start) bound.le
      (2 ^ fc.order) fc.start fc.start
    rw [Int.emod_self, add_zero, span_empty le_rfl] at given
    have removed := freeCount_removeNode member fc.start
    have own : 0 < span fc.start fc.stop fc.start := span_pos_iff.mpr fc.holds_start
    have once := wf.once fc.start
    omega

/-- A placement that returns has taken the request and nothing before it. -/
theorem carve_carved {fuel : Nat} {s s' : BuddyAllocator} (wf : s.WellFormed) {fc : Chunk}
    (member : fc ∈ s.freeChunks) {block size : Int} (positive : 1 ≤ size) (low : fc.start ≤ block)
    (high : block ≤ fc.stop) (ran : carve fuel s fc block size = some s') :
    Carved s fc block size s' := by
  rcases high.lt_or_eq with inside | rfl
  · rcases le_or_gt (block + size) fc.stop with fits | crosses
    · exact carve_within wf member positive low inside fits ran
    · exact carve_across wf member positive low inside crosses ran
  · rw [carve_past_end fuel wf member positive] at ran
    cases ran

/-- A placement into an entirely free request returns. -/
theorem carve_returns {s : BuddyAllocator} (wf : s.WellFormed) {fc : Chunk} (member : fc ∈ s.freeChunks)
    {block size : Int} (low : fc.start ≤ block) (inside : block < fc.stop)
    (free : ∀ x, block ≤ x → x < block + size → s.Free x) :
    ∃ fuel s', carve fuel s fc block size = some s' := by
  rcases le_or_gt (block + size) fc.stop with fits | crosses
  · have carved := carve_eq 0 s fc block size
    dsimp only at carved
    rw [if_neg (by omega)] at carved
    exact ⟨0, _, carved⟩
  · have head := head_released wf member low inside
    have position := releaseHead_reaches (s.removeNode fc.order fc.start) low inside
    have boundary : (releaseHead fc.order (s.removeNode fc.order fc.start) (block - fc.start)
        fc.start).1.freeCount (fc.stop - 1) = 0 := by
      have whole := head.count (fc.stop - 1)
      have taken : 0 < span block fc.stop (fc.stop - 1) := span_pos_iff.mpr ⟨by omega, by omega⟩
      have once := wf.once (fc.stop - 1)
      omega
    have once : ∀ x, (releaseHead fc.order (s.removeNode fc.order fc.start) (block - fc.start)
        fc.start).1.freeCount x ≤ 1 := fun x => by
      have whole := head.count x
      have bounded := wf.once x
      omega
    obtain ⟨fuel, walk, walked⟩ := readChunks_stops once (show 0 < block + size - fc.stop by omega)
      boundary fun x from_ to_ => by
        have whole := head.count x
        rw [span, if_neg (by omega)] at whole
        have counted := free_iff_freeCount.mp (free x (by omega) (by omega))
        exact free_iff_freeCount.mpr (by omega)
    have carved := carve_eq fuel s fc block size
    dsimp only at carved
    rw [if_pos crosses, position, add_sub_cancel, walked, Option.map_some] at carved
    exact ⟨fuel, _, carved⟩

/-! ## Placement as a whole -/

/-- A placement that returns has either found no chunk and changed nothing, or
carved the request out of the chunk it picked. -/
theorem allocateBlocksAt_cases {fuel : Nat} {s s' : BuddyAllocator} {block size result : Int}
    (wf : s.WellFormed) (positive : 1 ≤ size)
    (ran : s.allocateBlocksAt fuel block size = some (s', result)) :
    (result = -1 ∧ s' = s ∧ ¬ s.Free block ∧ ¬ s.Free (block - 1)) ∨
      (result = block ∧ ∃ fc skipped, Located s block fc skipped ∧ Carved s fc block size s') := by
  unfold allocateBlocksAt at ran
  cases search : s.locate block with
  | none =>
    rw [search] at ran
    simp only [Option.some.injEq, Prod.mk.injEq] at ran
    exact Or.inl ⟨ran.2.symm, ran.1.symm, locate_none_iff.mp search⟩
  | some fc =>
    rw [search] at ran
    obtain ⟨skipped, located⟩ := locate_some search
    obtain ⟨carved, carving, same⟩ := Option.map_eq_some_iff.mp ran
    simp only [Prod.mk.injEq] at same
    obtain ⟨rfl, rfl⟩ := same
    exact Or.inr ⟨rfl, fc, skipped, located,
      carve_carved wf located.member positive located.matched.1 located.matched.2 carving⟩

/-- Placement returns exactly when whatever chunk it picks holds the first block of
an entirely free request. -/
theorem allocateBlocksAt_returns_iff {s : BuddyAllocator} (wf : s.WellFormed) {block size : Int}
    (positive : 1 ≤ size) :
    (∃ fuel result, s.allocateBlocksAt fuel block size = some result) ↔
      ∀ fc, s.locate block = some fc → block < fc.stop ∧ ∀ x, block ≤ x → x < block + size → s.Free x := by
  constructor
  · rintro ⟨fuel, result, ran⟩ fc search
    rw [allocateBlocksAt, search] at ran
    obtain ⟨carved, carving, -⟩ := Option.map_eq_some_iff.mp ran
    obtain ⟨skipped, located⟩ := locate_some search
    have done := carve_carved wf located.member positive located.matched.1 located.matched.2 carving
    exact ⟨done.inside, done.free⟩
  · intro picks
    cases search : s.locate block with
    | none => exact ⟨0, (s, -1), by rw [allocateBlocksAt, search]⟩
    | some fc =>
      obtain ⟨inside, free⟩ := picks fc search
      obtain ⟨skipped, located⟩ := locate_some search
      obtain ⟨fuel, s', ran⟩ := carve_returns wf located.member located.matched.1 inside free
      exact ⟨fuel, (s', block), by simp only [allocateBlocksAt, search, ran, Option.map_some]⟩

/-- Behind a block that is not free, placement returns unless its request is free
only in part. -/
theorem allocateBlocksAt_returns_behind_iff {s : BuddyAllocator} (wf : s.WellFormed) {block size : Int}
    (positive : 1 ≤ size) (behind : ¬ s.Free (block - 1)) :
    (∃ fuel result, s.allocateBlocksAt fuel block size = some result) ↔
      (s.Free block → ∀ x, block ≤ x → x < block + size → s.Free x) := by
  rw [allocateBlocksAt_returns_iff wf positive]
  constructor
  · intro picks free
    cases search : s.locate block with
    | none => exact absurd free (locate_none_iff.mp search).1
    | some fc => exact (picks fc search).2
  · intro whole fc search
    obtain ⟨skipped, located⟩ := locate_some search
    have matched := located.matched
    have nonempty := fc.start_lt_stop
    have inside : block < fc.stop := by
      by_contra past
      exact behind ⟨fc, located.member, by omega, by omega⟩
    exact ⟨inside, whole ⟨fc, located.member, matched.1, inside⟩⟩

private theorem readChunks_mono {fuel more : Nat} (enough : fuel ≤ more) {s : BuddyAllocator} {start size : Int}
    {walk : ChunkWalk} (ran : readChunks fuel s start size = some walk) :
    readChunks more s start size = some walk := by
  induction fuel generalizing more s start size with
  | zero => cases ran
  | succ fuel ih =>
    cases more with
    | zero => cases enough
    | succ more =>
      simp only [readChunks] at ran ⊢
      split at ran
      · rename_i unfinished
        rw [if_pos unfinished]
        exact ih (Nat.le_of_succ_le_succ enough) ran
      · rename_i finished
        rwa [if_neg finished]

/-- More fuel does not change a placement that returns. -/
theorem allocateBlocksAt_mono {fuel more : Nat} (enough : fuel ≤ more) {s : BuddyAllocator} {block size : Int}
    {result : BuddyAllocator × Int} (ran : s.allocateBlocksAt fuel block size = some result) :
    s.allocateBlocksAt more block size = some result := by
  unfold allocateBlocksAt at ran ⊢
  cases search : s.locate block with
  | none =>
    rw [search] at ran
    exact ran
  | some fc =>
    rw [search] at ran
    obtain ⟨carved, carving, same⟩ := Option.map_eq_some_iff.mp ran
    refine Option.map_eq_some_iff.mpr ⟨carved, ?_, same⟩
    rw [carve_eq] at carving ⊢
    dsimp only at carving ⊢
    split at carving
    · rename_i crosses
      obtain ⟨walk, walked, rest⟩ := Option.map_eq_some_iff.mp carving
      rw [if_pos crosses, readChunks_mono enough walked, Option.map_some, rest]
    · rename_i fits
      rwa [if_neg fits]

/-- What any placement that returns leaves: no block is free that was not, and if
the first block was free none of the request is. -/
structure PlacementOutcome (s : BuddyAllocator) (block size : Int) (s' : BuddyAllocator) : Prop where
  wf : s'.WellFormed
  orders : s'.orders = s.orders
  fewer : ∀ x, s'.Free x → s.Free x
  taken : s.Free block → ∀ x, block ≤ x → x < block + size → ¬ s'.Free x

theorem allocateBlocksAt_outcome {fuel : Nat} {s s' : BuddyAllocator} {block size result : Int}
    (wf : s.WellFormed) (positive : 1 ≤ size) (ran : s.allocateBlocksAt fuel block size = some (s', result)) :
    PlacementOutcome s block size s' := by
  rcases allocateBlocksAt_cases wf positive ran with ⟨-, rfl, notHere, -⟩ | ⟨-, fc, skipped, located, carved⟩
  · exact ⟨wf, rfl, fun x free => free, fun here => absurd here notHere⟩
  · obtain ⟨d, member, holds, count⟩ := carved.last
    refine ⟨carved.wf, carved.orders, fun x free => ?_, fun _ x low high free => ?_⟩
    · have counted := free_iff_freeCount.mp free
      have whole := count x
      exact free_iff_freeCount.mpr (by omega)
    · have counted := free_iff_freeCount.mp free
      have whole := count x
      have once := wf.once x
      have part := emod_two_pow_le (n := d.stop - (block + size)) (by have beyond := holds.2; omega) fc.order
      have requested : 0 < span block (takenStop fc d (block + size)) x :=
        span_pos_iff.mpr ⟨low, by rw [takenStop]; omega⟩
      omega

/-- The placement returns the requested block and takes exactly the request out
of the free set, leaving disjoint aligned chunks. -/
def PlacesExactly (s : BuddyAllocator) (block size : Int) : Prop :=
  ∃ fuel s', s.allocateBlocksAt fuel block size = some (s', block) ∧
    (∀ x, s'.Free x ↔ s.Free x ∧ ¬ (block ≤ x ∧ x < block + size)) ∧ s'.WellFormed

/-- No free chunk that merely ends at the request is searched before the chunk
`fc` with the request's first block, and the chunk with its last block sticks
out by less than the size of `fc`. -/
def PlacementReady (s : BuddyAllocator) (block size : Int) : Prop :=
  ∃ (fc : Chunk) (skipped rest : List Int),
    fc.order < s.orders ∧ s.lists fc.order = skipped ++ fc.start :: rest ∧
    fc.Holds block ∧ (∀ i, fc.order < i → i < s.orders → block - 2 ^ i ∉ s.lists i) ∧
    block - 2 ^ fc.order ∉ skipped ∧
    ∀ d ∈ s.freeChunks, d.Holds (block + size - 1) → d.stop < block + size + 2 ^ fc.order

private theorem lost_block {s s' : BuddyAllocator} (wf : s.WellFormed) {fc : Chunk} {block size : Int}
    (carved : Carved s fc block size s') (positive : 1 ≤ size)
    (exactly : ∀ x, s'.Free x ↔ s.Free x ∧ ¬ (block ≤ x ∧ x < block + size)) :
    ∀ d ∈ s.freeChunks, d.Holds (block + size - 1) → d.stop < block + size + 2 ^ fc.order := by
  intro d member holds
  obtain ⟨e, eMember, eHolds, count⟩ := carved.last
  have same : e = d := holder_unique (wf.once _) eMember member eHolds holds
  subst same
  by_contra far
  have power : (0 : Int) < 2 ^ fc.order := by positivity
  have part := Int.emod_lt_of_pos (e.stop - (block + size)) power
  -- the block right behind the request is free before and not after
  have free : s.Free (block + size) := ⟨e, member, by simp only [Chunk.Holds] at holds; omega, by omega⟩
  have freeAfter := free_iff_freeCount.mp ((exactly (block + size)).mpr ⟨free, by omega⟩)
  have whole := count (block + size)
  have taken : 0 < span block (takenStop fc e (block + size)) (block + size) :=
    span_pos_iff.mpr ⟨by omega, by rw [takenStop]; omega⟩
  have once := wf.once (block + size)
  omega

private theorem ready_of_exact {s : BuddyAllocator} (wf : s.WellFormed) {block size : Int}
    (positive : 1 ≤ size) (free : s.Free block) (exactly : PlacesExactly s block size) :
    PlacementReady s block size := by
  obtain ⟨fuel, s', ran, free', -⟩ := exactly
  rcases allocateBlocksAt_cases wf positive ran with ⟨refused, -⟩ | ⟨-, fc, skipped, located, carved⟩
  · have bounds := wf.free_inside free
    omega
  · obtain ⟨rest, listed⟩ := located.position
    have power : ∀ i, (0 : Int) < 2 ^ i := fun i => by positivity
    refine ⟨fc, skipped, rest, located.bound, listed, ⟨located.matched.1, carved.inside⟩,
      fun i higher bound member => ?_, fun member => ?_, lost_block wf carved positive free'⟩
    · refine located.above ⟨i, block - 2 ^ i⟩ (mem_freeChunks.mpr ⟨bound, member⟩) higher ?_
      have positivePower := power i
      simp only [Chunk.stop_mk]
      omega
    · have positivePower := power fc.order
      have unmatched := located.before _ member
      omega

/-- With nothing ending at the request searched first, the search picks the
chunk with the request's first block. -/
private theorem locate_ready {s : BuddyAllocator} (wf : s.WellFormed) {fc : Chunk} {block : Int}
    {skipped rest : List Int} (bound : fc.order < s.orders)
    (listed : s.lists fc.order = skipped ++ fc.start :: rest) (holds : fc.Holds block)
    (above : ∀ i, fc.order < i → i < s.orders → block - 2 ^ i ∉ s.lists i)
    (before : block - 2 ^ fc.order ∉ skipped) : s.locate block = some fc := by
  have member : fc ∈ s.freeChunks := mem_freeChunks.mpr ⟨bound, by simp [listed]⟩
  cases search : s.locate block with
  | none => exact absurd ⟨fc, member, holds⟩ (locate_none_iff.mp search).1
  | some d =>
    obtain ⟨passed, located⟩ := locate_some search
    have matched := located.matched
    rcases matched.2.lt_or_eq with inside | ends
    · rw [holder_unique (wf.once block) located.member member ⟨matched.1, inside⟩ holds]
    · exfalso
      have start : block - 2 ^ d.order = d.start := by rw [ends, Chunk.stop]; ring
      obtain ⟨after, dListed⟩ := located.position
      rcases lt_trichotomy fc.order d.order with higher | same | lower
      · exact above d.order higher located.bound (by rw [start, dListed]; simp)
      · -- both chunks are in one list, and the search stops at the first that matches
        rw [same] at listed before
        rw [listed] at dListed
        have apart : fc.start ≠ d.start := fun same_start => by
          simp only [Chunk.Holds] at holds
          rw [Chunk.stop, same] at holds
          rw [Chunk.stop] at ends
          omega
        rcases List.append_eq_append_iff.mp dListed with ⟨gap, split, tail⟩ | ⟨gap, split, tail⟩
        · cases gap with
          | nil =>
            simp only [List.nil_append, List.cons.injEq] at tail
            exact apart (by omega)
          | cons first others =>
            simp only [List.cons_append, List.cons.injEq] at tail
            have passedHere : fc.start ∈ passed := by simp [split, tail.1]
            have unmatched := located.before fc.start passedHere
            simp only [Chunk.Holds] at holds
            rw [Chunk.stop, same] at holds
            omega
        · cases gap with
          | nil =>
            simp only [List.nil_append, List.cons.injEq] at tail
            exact apart (by omega)
          | cons first others =>
            simp only [List.cons_append, List.cons.injEq] at tail
            exact before (by simp [split, start, tail.1])
      · exact located.above fc member lower ⟨holds.1, holds.2.le⟩

/-- **Placement is exact** for a free request just when the search meets no
chunk that ends at the request and the last chunk sticks out by less than the
first one's size. -/
theorem placement_exact_iff {s : BuddyAllocator} (wf : s.WellFormed) {block size : Int}
    (positive : 1 ≤ size) (free : ∀ x, block ≤ x → x < block + size → s.Free x) :
    PlacesExactly s block size ↔ PlacementReady s block size := by
  constructor
  · exact ready_of_exact wf positive (free block le_rfl (by omega))
  · rintro ⟨fc, skipped, rest, bound, listed, holds, above, before, shortTail⟩
    have search := locate_ready wf bound listed holds above before
    have member : fc ∈ s.freeChunks := mem_freeChunks.mpr ⟨bound, by simp [listed]⟩
    obtain ⟨fuel, s', ran⟩ := carve_returns wf member holds.1 holds.2 free
    have carved := carve_carved wf member positive holds.1 holds.2.le ran
    refine ⟨fuel, s', by simp [allocateBlocksAt, search, ran], fun x => ?_, carved.wf⟩
    obtain ⟨d, dMember, dHolds, count⟩ := carved.last
    have nonneg : 0 ≤ d.stop - (block + size) := by
      simp only [Chunk.Holds] at dHolds
      omega
    have small := shortTail d dMember dHolds
    have whole := count x
    have once := wf.once x
    rw [takenStop, Int.emod_eq_of_lt nonneg (by omega), sub_sub_cancel] at whole
    rw [free_iff_freeCount, free_iff_freeCount, ← span_pos_iff]
    have requested : 0 < span block (block + size) x → 0 < s.freeCount x := fun taken => by omega
    omega

/-- The whole managed range is one chunk, so any request inside it is placed exactly. -/
theorem placement_exact_fresh : PlacesExactly (withOrders 3) 1 2 := by
  refine (placement_exact_iff (s := withOrders 3) ⟨by decide, by decide, by decide⟩ (by decide) ?_).mpr ?_
  · intro x low high
    exact ⟨⟨2, 0⟩, by decide, by simp only [Chunk.Holds, Chunk.stop_mk]; omega⟩
  · refine ⟨⟨2, 0⟩, [], [], by decide, rfl, by decide, fun i higher bound => ?_, by decide, by decide⟩
    exact absurd bound (Nat.not_lt.mpr higher)

/-- What placing block 5 in eight free blocks leaves: `[0, 4)`, `[4, 5)` and `[6, 8)`. -/
def aroundFive : BuddyAllocator where
  orders := 4
  lists
    | 0 => [4]
    | 1 => [6]
    | 2 => [0]
    | _ => []

theorem aroundFive_wellFormed : aroundFive.WellFormed := by constructor <;> decide

/-- Block 4 is free, but the search picks `[0, 4)`, which ends there. -/
theorem placement_spins_past_chunk :
    (∃ s, (withOrders 4).allocateBlocksAt 0 5 1 = some (s, 5) ∧ s.freeChunks = aroundFive.freeChunks) ∧
      aroundFive.WellFormed ∧ aroundFive.Free 4 ∧ (∀ fuel, aroundFive.allocateBlocksAt fuel 4 1 = none) ∧
      ¬ PlacesExactly aroundFive 4 1 := by
  have spins : ∀ fuel, aroundFive.allocateBlocksAt fuel 4 1 = none := by
    intro fuel
    have found : aroundFive.locate 4 = some ⟨2, 0⟩ := by decide
    have member : ⟨2, 0⟩ ∈ aroundFive.freeChunks := by decide
    have stuck := carve_past_end fuel aroundFive_wellFormed member (show (1 : Int) ≤ 1 by decide)
    rw [show (⟨2, 0⟩ : Chunk).stop = 4 by decide] at stuck
    simp only [allocateBlocksAt, found, stuck, Option.map_none]
  refine ⟨⟨_, rfl, by decide⟩, aroundFive_wellFormed, ⟨⟨0, 4⟩, by decide, by decide⟩, spins, ?_⟩
  rintro ⟨fuel, s', ran, -⟩
  rw [spins fuel] at ran
  cases ran

/-! ## Refusal -/

/-- The placement comes back with -1, and the free blocks are what they were. -/
def Refuses (s : BuddyAllocator) (block size : Int) : Prop :=
  ∃ fuel s', s.allocateBlocksAt fuel block size = some (s', -1) ∧ ∀ x, s'.Free x ↔ s.Free x

/-- A placement that is not to succeed comes back only when the chunk search finds
nothing, the block before the request included. Otherwise the chunk loop spins. -/
theorem placement_spins_iff {s : BuddyAllocator} (wf : s.WellFormed) {block size : Int} (positive : 1 ≤ size)
    (missing : ∃ x, block ≤ x ∧ x < block + size ∧ ¬ s.Free x) :
    (∀ fuel, s.allocateBlocksAt fuel block size = none) ↔ s.Free block ∨ s.Free (block - 1) := by
  obtain ⟨x, low, high, notFree⟩ := missing
  have decided : (∀ fuel, s.allocateBlocksAt fuel block size = none) ↔ s.locate block ≠ none := by
    constructor
    · intro spins absent
      have stopped := spins 0
      simp [allocateBlocksAt, absent] at stopped
    · intro found fuel
      cases ran : s.allocateBlocksAt fuel block size with
      | none => rfl
      | some result =>
        have picks := (allocateBlocksAt_returns_iff wf positive).mp ⟨fuel, result, ran⟩
        obtain ⟨fc, search⟩ := Option.ne_none_iff_exists'.mp found
        exact absurd ((picks fc search).2 x low high) notFree
  rw [decided, Ne, locate_none_iff, not_and_or, not_not, not_not]

/-- **Placement refuses** exactly the requests where neither the first block nor the
one before it is free, whatever else is free in the request. -/
theorem refuses_iff (s : BuddyAllocator) {block : Int} (size : Int) (nonneg : 0 ≤ block) :
    Refuses s block size ↔ ¬ s.Free block ∧ ¬ s.Free (block - 1) := by
  rw [← locate_none_iff]
  constructor
  · rintro ⟨fuel, s', ran, -⟩
    cases search : s.locate block with
    | none => rfl
    | some fc =>
      rw [allocateBlocksAt, search] at ran
      obtain ⟨carved, -, same⟩ := Option.map_eq_some_iff.mp ran
      have result : block = -1 := congrArg Prod.snd same
      omega
  · intro absent
    exact ⟨0, s, by rw [allocateBlocksAt, absent], fun x => Iff.rfl⟩

/-- With blocks 0 to 3 taken out of eight, a request for blocks 1 and 2 is refused. -/
theorem refuses_taken : Refuses { orders := 4, lists := Function.update (fun _ => []) 2 [4] } 1 2 := by
  refine (refuses_iff _ 2 (by decide)).mpr ⟨?_, ?_⟩ <;> rintro ⟨c, member, holds⟩ <;>
    exact absurd holds (by revert c; decide)

/-- Block 5 is taken and block 4 before it is free: asking for block 5 again never
comes back. -/
theorem taken_block_not_refused :
    aroundFive.WellFormed ∧ ¬ aroundFive.Free 5 ∧ (∀ fuel, aroundFive.allocateBlocksAt fuel 5 1 = none) ∧
      ¬ Refuses aroundFive 5 1 := by
  have taken : ¬ aroundFive.Free 5 := by
    rintro ⟨c, member, holds⟩
    exact absurd holds (by revert c; decide)
  have before : aroundFive.Free (5 - 1) := ⟨⟨0, 4⟩, by decide, by decide⟩
  have spins := (placement_spins_iff aroundFive_wellFormed (show (1 : Int) ≤ 1 by decide)
    ⟨5, by decide, by decide, taken⟩).mpr (Or.inr before)
  refine ⟨aroundFive_wellFormed, taken, spins, ?_⟩
  rintro ⟨fuel, s', ran, -⟩
  rw [spins fuel] at ran
  cases ran

end FluxOS.BuddyAllocator
