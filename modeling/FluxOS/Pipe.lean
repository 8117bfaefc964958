import FluxOS.RingBuffers
import FluxOS.UserMemoryOps

/-! Pipes: the ring of bytes behind a pipe node, `Pipe::write` and `Pipe::Read` on
it, and the queue of bytes that it holds. -/
namespace FluxOS.Pipe
open Words UserMemoryOps Buffers

/-- `PIPE_SIZE`. -/
def pipeSize : Word := 8192#32

theorem pipeSize_toNat : pipeSize.toNat = 8192 := rfl

structure PipeDesc where
  rpos : Word
  wpos : Word
  count : Word
  buf : List Byte

/-- `Pipe::newPipe`, where `malloc` has given the block. -/
def newPipe (buf : List Byte) : PipeDesc := ⟨0#32, 0#32, 0#32, buf⟩

/-- A call under way: the caller's block, how far its pointer has moved and what is left of the size. -/
structure Transfer where
  pd : PipeDesc
  buf : List Byte
  size : Word
  bytes : Word

/-- One of the two stretches of `Pipe::Read`. `size` and `buf` are moved on in both; behind the second the
code does not read them. -/
def readStretch (t : Transfer) (limit : Word) : Option Transfer := do
  let rs := if limit < t.size + t.pd.rpos then limit - t.pd.rpos else t.size
  let found ← slice t.pd.buf t.pd.rpos.toNat rs.toNat
  let buf ← patch t.buf t.bytes.toNat found
  return ⟨{ t.pd with rpos := (t.pd.rpos + rs) % pipeSize }, buf, t.size - rs, t.bytes + rs⟩

/-- `Pipe::Read`: what it returns, the caller's block and the pipe. There is no result where an access is
outside its block. -/
def read (pd : PipeDesc) (buf : List Byte) (size : Word) : Option (Word × List Byte × PipeDesc) :=
  if pd.count = 0#32 then some (0#32, buf, pd)
  else do
    let t : Transfer := ⟨pd, buf, size, 0#32⟩
    let t ← if t.pd.wpos ≤ t.pd.rpos then readStretch t pipeSize else some t
    let t ← if t.pd.rpos < t.pd.wpos then readStretch t t.pd.wpos else some t
    return (t.bytes, t.buf, { t.pd with count := t.pd.count - t.bytes })

/-- One of the two stretches of `Pipe::write`. -/
def writeStretch (t : Transfer) (limit : Word) : Option Transfer := do
  let ws := if limit < t.size + t.pd.wpos then limit - t.pd.wpos else t.size
  let given ← slice t.buf t.bytes.toNat ws.toNat
  let ring ← patch t.pd.buf t.pd.wpos.toNat given
  return ⟨{ t.pd with wpos := (t.pd.wpos + ws) % pipeSize, buf := ring }, t.buf, t.size - ws, t.bytes + ws⟩

/-- `Pipe::write`: what it returns, and the pipe. -/
def write (pd : PipeDesc) (buf : List Byte) (size : Word) : Option (Word × PipeDesc) :=
  if pd.count = pipeSize then some (0#32, pd)
  else do
    let t : Transfer := ⟨pd, buf, size, 0#32⟩
    let t ← if t.pd.rpos ≤ t.pd.wpos then writeStretch t pipeSize else some t
    let t ← if t.pd.wpos < t.pd.rpos then writeStretch t t.pd.rpos else some t
    return (t.bytes, { t.pd with count := t.pd.count + t.bytes })

/-- The bytes a pipe holds: `count` of them, from `rpos` on and round the end. -/
def buffered (pd : PipeDesc) : List Byte := (pd.buf.rotate pd.rpos.toNat).take pd.count.toNat

/-- The positions and the bytes between them; `count` follows at the end of a call. -/
structure Stands (pd : PipeDesc) (queue : List Byte) : Prop where
  room : pd.buf.length = 8192
  rpos : pd.rpos.toNat < 8192
  wpos : pd.wpos.toNat = (pd.rpos.toNat + queue.length) % 8192
  window : Window pd.buf pd.rpos.toNat queue

/-- A pipe with these bytes in it, the oldest first. -/
structure Holds (pd : PipeDesc) (queue : List Byte) : Prop extends Stands pd queue where
  count : pd.count.toNat = queue.length

theorem Stands.fits {pd : PipeDesc} {queue : List Byte} (stands : Stands pd queue) : queue.length ≤ 8192 := by
  have fits := stands.window.fits
  rwa [stands.room] at fits

theorem Holds.buffered_eq {pd : PipeDesc} {queue : List Byte} (holds : Holds pd queue) : buffered pd = queue := by
  rw [buffered, holds.count]
  exact holds.window.take_rotate

theorem holds_newPipe {buf : List Byte} (room : buf.length = 8192) : Holds (newPipe buf) [] where
  room := room
  rpos := by simp [newPipe]
  wpos := by simp [newPipe]
  window := .nil buf _
  count := by simp [newPipe]

section Sizes

/-- What a stretch transfers: as much as is asked for, and no more than up to the limit. -/
theorem stretch_toNat {size pos limit : Word} (within : size.toNat + pos.toNat < 2 ^ 32) (before : pos.toNat ≤ limit.toNat) :
    (if limit < size + pos then limit - pos else size).toNat = min size.toNat (limit.toNat - pos.toNat) := by
  have sum : (size + pos).toNat = size.toNat + pos.toNat := by
    rw [BitVec.toNat_add]
    exact Nat.mod_eq_of_lt within
  split
  · rename_i above
    have aboveNat : limit.toNat < size.toNat + pos.toNat := by rwa [BitVec.lt_def, sum] at above
    rw [BitVec.toNat_sub_of_le before]
    omega
  · rename_i below
    have belowNat : size.toNat + pos.toNat ≤ limit.toNat := by rwa [BitVec.lt_def, sum, Nat.not_lt] at below
    omega

theorem moved_toNat {pos moved : Word} (begins : pos.toNat < 8192) (short : moved.toNat ≤ 8192) :
    ((pos + moved) % pipeSize).toNat = (pos.toNat + moved.toNat) % 8192 := by
  rw [BitVec.toNat_umod, BitVec.toNat_add, Nat.mod_eq_of_lt (show pos.toNat + moved.toNat < 2 ^ 32 by omega)]
  rfl

/-! Transfers that go round the end of the ring: `first` bytes from `start` on, and then `second` at its front, up to
`limit`. Read and write have the two positions the other way round. -/

variable {size start limit available first second : Nat}

theorem whole_of_further (inside : start < 8192) (order : limit ≤ start) (amount : first = min size (8192 - start))
    (further : (start + first) % 8192 < limit) : first = 8192 - start := by
  by_contra part
  have straight : start + first < 8192 := by omega
  rw [Nat.mod_eq_of_lt straight] at further
  omega

theorem total_of_further (round : start + available = limit + 8192) (inside : start < 8192)
    (amount : first = min size (8192 - start)) (whole : first = 8192 - start) (more : second = min (size - first) limit) :
    first + second = min size available := by
  omega

theorem total_of_not_further (round : start + available = limit + 8192) (inside : start < 8192)
    (amount : first = min size (8192 - start)) (ended : limit ≤ (start + first) % 8192) : first = min size available := by
  by_cases whole : first = 8192 - start
  · rw [whole, Nat.add_sub_cancel' inside.le, Nat.mod_self] at ended
    omega
  · omega

end Sizes

section Reading

variable {t : Transfer} {queue : List Byte}

/-- What has been read so far stands at the front of the caller's block. -/
theorem patch_behind {buf front : List Byte} (begun : front <+: buf) (more : List Byte)
    (room : front.length + more.length ≤ buf.length) :
    ∃ buf', patch buf front.length more = some buf' ∧ buf'.length = buf.length ∧ front ++ more <+: buf' := by
  obtain ⟨rest, rfl⟩ := begun
  refine ⟨front ++ more ++ rest.drop more.length, ?_, ?_, List.prefix_append _ _⟩
  · have inside : Inside (front ++ rest) front.length more.length := .inr room
    simp [patch, inside, List.drop_append]
  · simp only [List.length_append, List.length_drop] at room ⊢
    omega

theorem readStretch_spec (t : Transfer) (limit : Word) (stands : Stands t.pd queue) (within : t.size.toNat + 8192 < 2 ^ 32)
    (before : t.pd.rpos.toNat ≤ limit.toNat) (small : limit.toNat ≤ 8192)
    (held : limit.toNat - t.pd.rpos.toNat ≤ queue.length) {front : List Byte} (begun : front <+: t.buf)
    (moved : t.bytes.toNat = front.length) (room : front.length + t.size.toNat ≤ t.buf.length)
    (short : front.length ≤ 8192) {n : Nat} (amount : n = min t.size.toNat (limit.toNat - t.pd.rpos.toNat)) :
    ∃ t', readStretch t limit = some t' ∧ Stands t'.pd (queue.drop n) ∧ t'.pd.count = t.pd.count ∧
      t'.pd.wpos = t.pd.wpos ∧ t'.pd.rpos.toNat = (t.pd.rpos.toNat + n) % 8192 ∧ t'.size.toNat = t.size.toNat - n ∧
      t'.bytes.toNat = (front ++ queue.take n).length ∧ t'.buf.length = t.buf.length ∧ front ++ queue.take n <+: t'.buf := by
  obtain ⟨rs, rsEq⟩ : ∃ rs, (if limit < t.size + t.pd.rpos then limit - t.pd.rpos else t.size) = rs := ⟨_, rfl⟩
  have rsNat : rs.toNat = n := by
    rw [← rsEq, amount]
    exact stretch_toNat (by omega) before
  have taken : (queue.take n).length = n := by
    rw [List.length_take]
    omega
  have found : slice t.pd.buf t.pd.rpos.toNat rs.toNat = some (queue.take n) := by
    rw [rsNat]
    apply stands.window.slice_eq
    · rw [stands.room]
      omega
    · omega
  obtain ⟨buf', written, size, begun'⟩ := patch_behind begun (queue.take n) (by omega)
  have position : ((t.pd.rpos + rs) % pipeSize).toNat = (t.pd.rpos.toNat + n) % 8192 := by
    rw [moved_toNat stands.rpos (by omega), rsNat]
  refine ⟨⟨{ t.pd with rpos := (t.pd.rpos + rs) % pipeSize }, buf', t.size - rs, t.bytes + rs⟩, ?_, ?_, rfl, rfl,
    position, ?_, ?_, size, begun'⟩
  · simp [readStretch, rsEq, found, moved, written]
  · refine ⟨stands.room, ?_, ?_, ?_⟩
    · rw [position]
      exact Nat.mod_lt _ (by decide)
    · rw [position, stands.wpos, Nat.mod_add_mod, List.length_drop]
      congr 1
      omega
    · have window := stands.window.drop n
      rwa [stands.room, ← position] at window
  · rw [BitVec.toNat_sub_of_le (show rs.toNat ≤ t.size.toNat by omega), rsNat]
  · rw [BitVec.toNat_add, List.length_append, taken, moved, rsNat]
    apply Nat.mod_eq_of_lt
    omega

/-- The end of a read that has taken `n` bytes. -/
private theorem read_done {pd : PipeDesc} (holds : Holds pd queue) {n : Nat} (all : n ≤ queue.length)
    (stands : Stands t.pd (queue.drop n)) (count : t.pd.count = pd.count) (bytes : t.bytes.toNat = n)
    (begun : queue.take n <+: t.buf) : t.buf.take n = queue.take n ∧
      Holds ⟨t.pd.rpos, t.pd.wpos, t.pd.count - t.bytes, t.pd.buf⟩ (queue.drop n) := by
  have taken : (queue.take n).length = n := List.length_take_of_le all
  refine ⟨?_, ⟨stands.room, stands.rpos, stands.wpos, stands.window⟩, ?_⟩
  · obtain ⟨rest, whole⟩ := begun
    rw [← whole, List.take_append_of_le_length taken.ge, List.take_take, Nat.min_self]
  · have enough : t.bytes.toNat ≤ t.pd.count.toNat := by
      rw [count, holds.count, bytes]
      exact all
    simp only
    rw [BitVec.toNat_sub_of_le enough, count, holds.count, bytes, List.length_drop]

/-- A read hands out the oldest bytes: as many as are asked for and are there. -/
theorem read_spec {pd : PipeDesc} (holds : Holds pd queue) (buf : List Byte) (size : Word)
    (within : size.toNat + 8192 < 2 ^ 32) (room : size.toNat ≤ buf.length) :
    ∃ bytes buf' pd', read pd buf size = some (bytes, buf', pd') ∧ bytes.toNat = min size.toNat queue.length ∧
      buf'.length = buf.length ∧ buf'.take bytes.toNat = queue.take bytes.toNat ∧
      Holds pd' (queue.drop bytes.toNat) := by
  have fits := holds.fits
  have rpos := holds.rpos
  have wpos := holds.wpos
  unfold read
  by_cases empty : pd.count = 0#32
  · have none : queue.length = 0 := by simp [← holds.count, empty]
    refine ⟨0#32, buf, pd, if_pos empty, ?_, rfl, by simp, by simpa using holds⟩
    simp [none]
  have some : 0 < queue.length := by
    rw [← holds.count]
    apply Nat.pos_of_ne_zero
    intro zero
    exact empty (BitVec.eq_of_toNat_eq zero)
  rw [if_neg empty]
  have begun : [] <+: buf := List.nil_prefix
  by_cases order : pd.wpos ≤ pd.rpos
  · -- the bytes go up to the end of the ring, and then perhaps on at its front
    have orderNat : pd.wpos.toNat ≤ pd.rpos.toNat := order
    have round : pd.rpos.toNat + queue.length = pd.wpos.toNat + 8192 := by omega
    obtain ⟨n, amount⟩ : ∃ n, n = min size.toNat (8192 - pd.rpos.toNat) := ⟨_, rfl⟩
    obtain ⟨t, first, stands, count, wposEq, rposEq, sizeEq, bytes, length, front⟩ :=
      readStretch_spec ⟨pd, buf, size, 0#32⟩ pipeSize holds.toStands within (by exact rpos.le)
        le_rfl (by simp only [pipeSize_toNat]; omega) begun rfl (by simpa using room) (by simp) amount
    simp only at wposEq rposEq sizeEq count length
    have taken : (queue.take n).length = n := by
      rw [List.length_take]
      omega
    rw [List.nil_append] at bytes front
    simp only [if_pos order, first, Option.bind_eq_bind, Option.bind_some, wposEq]
    by_cases further : t.pd.rpos < pd.wpos
    · have furtherNat : t.pd.rpos.toNat < pd.wpos.toNat := further
      have whole : n = 8192 - pd.rpos.toNat := whole_of_further rpos orderNat amount (rposEq ▸ furtherNat)
      have front0 : t.pd.rpos.toNat = 0 := by
        rw [rposEq, whole, Nat.add_sub_cancel' rpos.le]
      obtain ⟨m, more⟩ : ∃ m, m = min t.size.toNat (pd.wpos.toNat - t.pd.rpos.toNat) := ⟨_, rfl⟩
      obtain ⟨t', second, stands', count', -, -, -, bytes', length', front'⟩ :=
        readStretch_spec t pd.wpos stands (by omega) (by omega) (by omega)
          (by simp only [List.length_drop]; omega) front bytes (by omega) (by omega) more
      rw [← List.take_add] at bytes' front'
      rw [List.length_take] at bytes'
      rw [List.drop_drop] at stands'
      rw [front0, Nat.sub_zero, sizeEq] at more
      have total : n + m = min size.toNat queue.length := total_of_further round rpos amount whole more
      obtain ⟨copied, rest⟩ := read_done holds (by omega) stands' (count'.trans count)
        (show t'.bytes.toNat = n + m by omega) front'
      have bytesNat : t'.bytes.toNat = n + m := by omega
      simp only [if_pos further, second, Option.bind_some]
      refine ⟨_, _, _, rfl, bytesNat.trans total, length'.trans length, ?_, ?_⟩
      · rw [bytesNat, copied]
      · rw [bytesNat]
        exact rest
    · have furtherNat : pd.wpos.toNat ≤ t.pd.rpos.toNat := Nat.not_lt.mp further
      have total : n = min size.toNat queue.length := total_of_not_further round rpos amount (rposEq ▸ furtherNat)
      obtain ⟨copied, rest⟩ := read_done holds (by omega) stands count (bytes.trans taken) front
      rw [wposEq] at rest
      simp only [if_neg further]
      refine ⟨_, _, _, rfl, by omega, length, ?_, ?_⟩
      · rw [bytes, taken, copied]
      · rw [bytes, taken]
        exact rest
  · -- the bytes lie in one stretch
    have orderNat : pd.rpos.toNat < pd.wpos.toNat := Nat.not_le.mp order
    have straight : pd.rpos.toNat + queue.length = pd.wpos.toNat := by omega
    obtain ⟨n, amount⟩ : ∃ n, n = min size.toNat (pd.wpos.toNat - pd.rpos.toNat) := ⟨_, rfl⟩
    obtain ⟨t, first, stands, count, -, -, -, bytes, length, front⟩ :=
      readStretch_spec ⟨pd, buf, size, 0#32⟩ pd.wpos holds.toStands within (by exact orderNat.le)
        (by omega) (by simp only; omega) begun rfl (by simpa using room) (by simp) amount
    rw [List.nil_append] at bytes front
    have taken : t.bytes.toNat = n := by
      rw [bytes, List.length_take]
      omega
    have total : n = min size.toNat queue.length := by omega
    obtain ⟨copied, rest⟩ := read_done holds (by omega) stands count taken front
    simp only [if_neg order, if_pos (show pd.rpos < pd.wpos from orderNat), first, Option.bind_eq_bind, Option.bind_some]
    refine ⟨_, _, _, rfl, taken.trans total, length, ?_, ?_⟩
    · rw [taken, copied]
    · rw [taken]
      exact rest

end Reading

section Writing

variable {t : Transfer} {queue : List Byte}

theorem writeStretch_spec (t : Transfer) (limit : Word) (stands : Stands t.pd queue) (within : t.size.toNat + 8192 < 2 ^ 32)
    (before : t.pd.wpos.toNat ≤ limit.toNat) (small : limit.toNat ≤ 8192)
    (free : queue.length + (limit.toNat - t.pd.wpos.toNat) ≤ 8192)
    (room : t.bytes.toNat + t.size.toNat ≤ t.buf.length) (short : t.bytes.toNat ≤ 8192) {n : Nat}
    (amount : n = min t.size.toNat (limit.toNat - t.pd.wpos.toNat)) :
    ∃ t', writeStretch t limit = some t' ∧ Stands t'.pd (queue ++ (t.buf.drop t.bytes.toNat).take n) ∧
      t'.pd.count = t.pd.count ∧ t'.pd.rpos = t.pd.rpos ∧ t'.pd.wpos.toNat = (t.pd.wpos.toNat + n) % 8192 ∧
      t'.size.toNat = t.size.toNat - n ∧ t'.bytes.toNat = t.bytes.toNat + n ∧ t'.buf = t.buf := by
  obtain ⟨ws, wsEq⟩ : ∃ ws, (if limit < t.size + t.pd.wpos then limit - t.pd.wpos else t.size) = ws := ⟨_, rfl⟩
  have wsNat : ws.toNat = n := by
    rw [← wsEq, amount]
    exact stretch_toNat (by omega) before
  obtain ⟨given, givenEq⟩ : ∃ given, (t.buf.drop t.bytes.toNat).take n = given := ⟨_, rfl⟩
  have found : slice t.buf t.bytes.toNat ws.toNat = some given := by
    rw [wsNat, ← givenEq]
    apply slice_of_inside
    omega
  have amountGiven : given.length = n := (length_of_slice found).trans wsNat
  have wposLt : t.pd.wpos.toNat < 8192 := by
    rw [stands.wpos]
    exact Nat.mod_lt _ (by decide)
  have straight : t.pd.wpos.toNat + given.length ≤ t.pd.buf.length := by
    rw [stands.room]
    omega
  obtain ⟨ring, written⟩ := patch_of_inside t.pd.buf t.pd.wpos.toNat given straight
  have position : ((t.pd.wpos + ws) % pipeSize).toNat = (t.pd.wpos.toNat + n) % 8192 := by
    rw [moved_toNat wposLt (by omega), wsNat]
  refine ⟨⟨{ t.pd with wpos := (t.pd.wpos + ws) % pipeSize, buf := ring }, t.buf, t.size - ws, t.bytes + ws⟩, ?_, ?_,
    rfl, rfl, position, ?_, ?_, rfl⟩
  · simp [writeStretch, wsEq, found, written]
  · rw [givenEq]
    refine ⟨(length_of_patch written).trans stands.room, stands.rpos, ?_, ?_⟩
    · rw [position, stands.wpos, Nat.mod_add_mod, List.length_append, amountGiven, Nat.add_assoc]
    · apply stands.window.append
      · rw [stands.room]
        exact stands.rpos
      · rw [stands.room, ← stands.wpos]
        exact written
      · rw [stands.room, ← stands.wpos, ← stands.room]
        exact straight
      · rw [stands.room]
        omega
  · rw [BitVec.toNat_sub_of_le (show ws.toNat ≤ t.size.toNat by omega), wsNat]
  · rw [BitVec.toNat_add, wsNat]
    apply Nat.mod_eq_of_lt
    omega

/-- The end of a write that has put `n` bytes behind those that were there. -/
private theorem write_done {pd : PipeDesc} (holds : Holds pd queue) {given : List Byte}
    (stands : Stands t.pd (queue ++ given)) (count : t.pd.count = pd.count) (bytes : t.bytes.toNat = given.length) :
    Holds ⟨t.pd.rpos, t.pd.wpos, t.pd.count + t.bytes, t.pd.buf⟩ (queue ++ given) := by
  have fits := stands.fits
  refine ⟨⟨stands.room, stands.rpos, stands.wpos, stands.window⟩, ?_⟩
  simp only
  rw [List.length_append] at fits ⊢
  rw [BitVec.toNat_add, count, holds.count, bytes]
  apply Nat.mod_eq_of_lt
  omega

/-- A write puts bytes behind those that are there: as many as are given and as there is room for. -/
theorem write_spec {pd : PipeDesc} (holds : Holds pd queue) (buf : List Byte) (size : Word)
    (within : size.toNat + 8192 < 2 ^ 32) (room : size.toNat ≤ buf.length) :
    ∃ bytes pd', write pd buf size = some (bytes, pd') ∧ bytes.toNat = min size.toNat (8192 - queue.length) ∧
      Holds pd' (queue ++ buf.take bytes.toNat) := by
  have fits := holds.fits
  have rpos := holds.rpos
  have wpos := holds.wpos
  have wposLt : pd.wpos.toNat < 8192 := by omega
  unfold write
  by_cases full : pd.count = pipeSize
  · have all : queue.length = 8192 := by rw [← holds.count, full, pipeSize_toNat]
    refine ⟨0#32, pd, if_pos full, ?_, by simpa using holds⟩
    simp [all]
  have some : queue.length < 8192 := by
    apply lt_of_le_of_ne fits
    intro all
    apply full
    apply BitVec.eq_of_toNat_eq
    rw [holds.count, all, pipeSize_toNat]
  rw [if_neg full]
  by_cases order : pd.rpos ≤ pd.wpos
  · -- the free bytes go up to the end of the ring, and then perhaps on at its front
    have orderNat : pd.rpos.toNat ≤ pd.wpos.toNat := order
    have straight : pd.rpos.toNat + queue.length = pd.wpos.toNat := by omega
    have round : pd.wpos.toNat + (8192 - queue.length) = pd.rpos.toNat + 8192 := by omega
    obtain ⟨n, amount⟩ : ∃ n, n = min size.toNat (8192 - pd.wpos.toNat) := ⟨_, rfl⟩
    obtain ⟨t, first, stands, count, rposEq, wposEq, sizeEq, bytes, same⟩ :=
      writeStretch_spec ⟨pd, buf, size, 0#32⟩ pipeSize holds.toStands within (by exact wposLt.le)
        le_rfl (by simp only [pipeSize_toNat]; omega) (by simpa using room) (by simp) amount
    simp only [BitVec.toNat_zero, Nat.zero_add, List.drop_zero] at rposEq wposEq sizeEq count bytes same stands
    have given : (buf.take n).length = n := by
      rw [List.length_take]
      omega
    simp only [if_pos order, first, Option.bind_eq_bind, Option.bind_some, rposEq]
    by_cases further : t.pd.wpos < pd.rpos
    · have furtherNat : t.pd.wpos.toNat < pd.rpos.toNat := further
      have whole : n = 8192 - pd.wpos.toNat := whole_of_further wposLt orderNat amount (wposEq ▸ furtherNat)
      have front0 : t.pd.wpos.toNat = 0 := by
        rw [wposEq, whole, Nat.add_sub_cancel' wposLt.le]
      obtain ⟨m, more⟩ : ∃ m, m = min t.size.toNat (pd.rpos.toNat - t.pd.wpos.toNat) := ⟨_, rfl⟩
      obtain ⟨t', second, stands', count', rposEq', -, -, bytes', -⟩ :=
        writeStretch_spec t pd.rpos stands (by omega) (by omega) (by omega)
          (by simp only [List.length_append]; omega) (by rw [same]; omega) (by omega) more
      rw [same, bytes, List.append_assoc, ← List.take_add] at stands'
      rw [front0, Nat.sub_zero, sizeEq] at more
      have total : n + m = min size.toNat (8192 - queue.length) := total_of_further round wposLt amount whole more
      have bytesNat : t'.bytes.toNat = n + m := by omega
      have after := write_done holds stands' (count'.trans count) (by rw [List.length_take]; omega)
      rw [rposEq', rposEq] at after
      simp only [if_pos further, second, Option.bind_some, rposEq', rposEq]
      refine ⟨_, _, rfl, bytesNat.trans total, ?_⟩
      rw [bytesNat]
      exact after
    · have furtherNat : pd.rpos.toNat ≤ t.pd.wpos.toNat := Nat.not_lt.mp further
      have total : n = min size.toNat (8192 - queue.length) :=
        total_of_not_further round wposLt amount (wposEq ▸ furtherNat)
      have after := write_done holds stands count (bytes.trans given.symm)
      rw [rposEq] at after
      simp only [if_neg further]
      refine ⟨_, _, rfl, bytes.trans total, ?_⟩
      rw [bytes]
      simpa only [rposEq] using after
  · -- the free bytes lie in one stretch
    have orderNat : pd.wpos.toNat < pd.rpos.toNat := Nat.not_le.mp order
    have round : pd.rpos.toNat + queue.length = pd.wpos.toNat + 8192 := by omega
    obtain ⟨n, amount⟩ : ∃ n, n = min size.toNat (pd.rpos.toNat - pd.wpos.toNat) := ⟨_, rfl⟩
    obtain ⟨t, first, stands, count, -, -, -, bytes, -⟩ :=
      writeStretch_spec ⟨pd, buf, size, 0#32⟩ pd.rpos holds.toStands within (by exact orderNat.le)
        (by omega) (by simp only; omega) (by simpa using room) (by simp) amount
    simp only [BitVec.toNat_zero, Nat.zero_add, List.drop_zero] at count bytes stands
    have given : (buf.take n).length = n := by
      rw [List.length_take]
      omega
    have after := write_done holds stands count (bytes.trans given.symm)
    simp only [if_neg order, if_pos (show pd.wpos < pd.rpos from orderNat), first, Option.bind_eq_bind, Option.bind_some]
    refine ⟨_, _, rfl, by omega, ?_⟩
    rw [bytes]
    exact after

end Writing

end FluxOS.Pipe
