import FluxOS.UserMemoryOps

/-! Words and NUL-terminated strings in memory: reading them, storing them, and where they
stay as they are. -/
namespace FluxOS.UserMemoryOps
open Words

/-- The bytes are in memory one after the other. -/
def Reads (mem : Memory) (address : Word) (bytes : List Byte) : Prop :=
  ∀ i (inside : i < bytes.length), mem (address + BitVec.ofNat 32 i) = bytes[i]

def storeBytes (mem : Memory) (dest : Word) (bytes : List Byte) : Memory :=
  copyIn mem dest (fun i => bytes.getD i 0#8) bytes.length

/-- A word in the order of the machine. -/
def wordBytes (word : Word) : List Byte :=
  [word.extractLsb' 0 8, word.extractLsb' 8 8, word.extractLsb' 16 8, word.extractLsb' 24 8]

def word32 (mem : Memory) (address : Word) : Word :=
  mem (address + 3#32) ++ mem (address + 2#32) ++ mem (address + 1#32) ++ mem address

def storeWord (mem : Memory) (dest word : Word) : Memory := storeBytes mem dest (wordBytes word)

/-- The loop of `strlen`. After 2^32 rounds it is where it began. -/
def strlenFrom (mem : Memory) : Nat → Word → Option Nat
  | 0, _ => none
  | rounds + 1, s => if mem s = 0#8 then some 0 else (strlenFrom mem rounds (s + 1#32)).map (· + 1)

def strlen (mem : Memory) (s : Word) : Option Nat := strlenFrom mem (2 ^ 32) s

def strcpy (mem : Memory) (dest src : Word) : Option Memory :=
  (strlen mem src).map fun len => storeBytes mem dest (copyOut mem src (len + 1))

/-- What `strncpy` stores: the string up to its end, then zeros. -/
def strncpyBytes (mem : Memory) (src : Word) (n : Nat) : List Byte :=
  let chars := (copyOut mem src n).takeWhile (· ≠ 0#8)
  chars ++ List.replicate (n - chars.length) 0#8

def fault : Word := BitVec.ofInt 32 (-efault)

def getFromUser32 (mem : Memory) (ptr : Word) : Except Word Word :=
  if canReadUserMemory ptr 4#32 then .ok (word32 mem ptr) else .error fault

/-- `strnlenUser`. The bound is for the check alone. -/
def strnlenUser (mem : Memory) (s maxsize : Word) : Option Word :=
  if canReadUserMemory s maxsize then (strlen mem s).map (BitVec.ofNat 32) else some fault

def strncpyFromUser (mem : Memory) (dest src size : Word) : Word × Memory :=
  if canReadUserMemory src size then (0#32, storeBytes mem dest (strncpyBytes mem src size.toNat)) else (fault, mem)

section Bytes

variable {mem mem' : Memory} {address dest : Word} {bytes more : List Byte}

theorem reads_append : Reads mem address (bytes ++ more) ↔
    Reads mem address bytes ∧ Reads mem (address + BitVec.ofNat 32 bytes.length) more := by
  have place (i : Nat) : address + BitVec.ofNat 32 bytes.length + BitVec.ofNat 32 i =
      address + BitVec.ofNat 32 (bytes.length + i) := by
    rw [BitVec.ofNat_add, BitVec.add_assoc]
  constructor
  · intro reads
    refine ⟨fun i inside => ?_, fun i inside => ?_⟩
    · rw [reads i (by rw [List.length_append]; omega), List.getElem_append_left inside]
    · rw [place, reads _ (by rw [List.length_append]; omega), List.getElem_append_right (by omega)]
      simp
  · rintro ⟨first, second⟩ i inside
    by_cases early : i < bytes.length
    · rw [first i early, List.getElem_append_left early]
    · have later := second (i - bytes.length) (by rw [List.length_append] at inside; omega)
      rw [place, Nat.add_sub_cancel' (by omega)] at later
      rw [later, List.getElem_append_right (by omega)]

theorem Reads.congr (reads : Reads mem address bytes) (fits : address.toNat + bytes.length ≤ 2 ^ 32)
    (same : ∀ a : Word, address.toNat ≤ a.toNat → a.toNat < address.toNat + bytes.length → mem' a = mem a) :
    Reads mem' address bytes := by
  intro i inside
  have place : (address + BitVec.ofNat 32 i).toNat = address.toNat + i := toNat_offset (by omega)
  rw [same _ (by omega) (by omega), reads i inside]

theorem copyOut_of_reads (reads : Reads mem address bytes) : copyOut mem address bytes.length = bytes := by
  apply List.ext_getElem
  · simp [copyOut]
  · intro i _ inside
    rw [← reads i inside]
    simp [copyOut]

theorem reads_storeBytes (fits : bytes.length ≤ 2 ^ 32) : Reads (storeBytes mem dest bytes) dest bytes := by
  intro i inside
  rw [UserMemoryOps.storeBytes, copyIn_at mem dest _ inside fits]
  simp [inside]

/-- Bytes outside are as they were. -/
theorem storeBytes_other (fits : dest.toNat + bytes.length ≤ 2 ^ 32)
    (outside : address.toNat < dest.toNat ∨ dest.toNat + bytes.length ≤ address.toNat) :
    storeBytes mem dest bytes address = mem address := by
  apply copyIn_other
  rintro i inside rfl
  have place : (dest + BitVec.ofNat 32 i).toNat = dest.toNat + i := toNat_offset (by omega)
  omega

/-- What is stored apart from some bytes leaves them alone. -/
theorem Reads.storeBytes (reads : Reads mem address bytes) (fits : address.toNat + bytes.length ≤ 2 ^ 32)
    (destFits : dest.toNat + more.length ≤ 2 ^ 32)
    (apart : address.toNat + bytes.length ≤ dest.toNat ∨ dest.toNat + more.length ≤ address.toNat) :
    Reads (storeBytes mem dest more) address bytes :=
  reads.congr fits fun a low high => storeBytes_other destFits (by omega)

end Bytes

section Words

variable {mem : Memory} {address : Word}

@[simp] theorem length_wordBytes (word : Word) : (wordBytes word).length = 4 := rfl

theorem bytes_of_reads {word : Word} (reads : Reads mem address (wordBytes word)) :
    mem address = word.extractLsb' 0 8 ∧ mem (address + 1#32) = word.extractLsb' 8 8 ∧
      mem (address + 2#32) = word.extractLsb' 16 8 ∧ mem (address + 3#32) = word.extractLsb' 24 8 := by
  have first := reads 0 (by simp)
  rw [BitVec.add_zero] at first
  exact ⟨first, reads 1 (by simp), reads 2 (by simp), reads 3 (by simp)⟩

theorem word32_of_reads {word : Word} (reads : Reads mem address (wordBytes word)) : word32 mem address = word := by
  obtain ⟨first, second, third, fourth⟩ := bytes_of_reads reads
  rw [word32, first, second, third, fourth]
  apply BitVec.eq_of_getLsbD_eq
  intro i bound
  simp only [BitVec.getLsbD_append, BitVec.getLsbD_extractLsb']
  grind

theorem reads_storeWord {word : Word} : Reads (storeWord mem address word) address (wordBytes word) :=
  reads_storeBytes (by simp)

end Words

section Strings

variable {mem mem' : Memory} {s : Word} {chars : List Byte}

/-- A NUL-terminated string. -/
structure IsString (mem : Memory) (s : Word) (chars : List Byte) : Prop where
  reads : Reads mem s (chars ++ [0#8])
  proper : ∀ c ∈ chars, c ≠ 0#8
  fits : s.toNat + chars.length < 2 ^ 32

theorem IsString.congr (string : IsString mem s chars)
    (same : ∀ a : Word, s.toNat ≤ a.toNat → a.toNat ≤ s.toNat + chars.length → mem' a = mem a) : IsString mem' s chars := by
  have fits := string.fits
  have bytes : (chars ++ [0#8]).length = chars.length + 1 := by simp
  exact ⟨string.reads.congr (by omega) fun a low high => same a low (by omega), string.proper, fits⟩

theorem strlenFrom_eq {rounds : Nat} (reads : Reads mem s (chars ++ [0#8])) (proper : ∀ c ∈ chars, c ≠ 0#8)
    (enough : chars.length < rounds) : strlenFrom mem rounds s = some chars.length := by
  induction chars generalizing s rounds with
  | nil =>
    obtain ⟨rounds, rfl⟩ := Nat.exists_eq_add_of_lt enough
    have last := reads 0 (by simp)
    rw [BitVec.add_zero] at last
    rw [List.length_nil, Nat.zero_add, strlenFrom, last]
    rfl
  | cons c rest ih =>
    obtain ⟨rounds, rfl⟩ : ∃ more, rounds = more + 1 := ⟨rounds - 1, by omega⟩
    have first := reads 0 (by simp)
    rw [BitVec.add_zero] at first
    have others : Reads mem (s + 1#32) (rest ++ [0#8]) := (reads_append.mp (show Reads mem s ([c] ++ (rest ++ [0#8])) from reads)).2
    rw [strlenFrom, if_neg]
    · rw [ih others (fun c member => proper c (List.mem_cons_of_mem _ member)) (by simpa using enough)]
      rfl
    · rw [first]
      exact proper c List.mem_cons_self

theorem IsString.strlen (string : IsString mem s chars) : strlen mem s = some chars.length := by
  have fits := string.fits
  exact strlenFrom_eq string.reads string.proper (by omega)

theorem IsString.copyOut (string : IsString mem s chars) : copyOut mem s (chars.length + 1) = chars ++ [0#8] := by
  have whole := copyOut_of_reads string.reads
  rwa [List.length_append] at whole

/-- Room for the end of the string: the string is stored as it is. -/
theorem IsString.strncpyBytes (string : IsString mem s chars) : strncpyBytes mem s (chars.length + 1) = chars ++ [0#8] := by
  have taken : (chars ++ [0#8]).takeWhile (· ≠ 0#8) = chars := by
    rw [List.takeWhile_append_of_pos (by simpa using string.proper)]
    simp
  rw [UserMemoryOps.strncpyBytes, string.copyOut, taken, Nat.add_sub_cancel_left]
  rfl

theorem IsString.strcpy (string : IsString mem s chars) (dest : Word) :
    strcpy mem dest s = some (storeBytes mem dest (chars ++ [0#8])) := by
  rw [UserMemoryOps.strcpy, string.strlen, Option.map_some, string.copyOut]

theorem slt_zero_ofNat {n : Nat} (bound : n < 2 ^ 32) : (BitVec.ofNat 32 n).slt 0#32 = decide (2 ^ 31 ≤ n) := by
  rw [Bool.eq_iff_iff]
  simp only [BitVec.slt, BitVec.toInt_eq_toNat_cond, decide_eq_true_eq, BitVec.toNat_ofNat]
  omega

theorem fault_negative : fault.slt 0#32 = true := by decide

/-- What `strnlenUser` says of a string. -/
theorem strnlenUser_eq {maxsize : Word} (string : IsString mem s chars) :
    strnlenUser mem s maxsize = some (if canReadUserMemory s maxsize then BitVec.ofNat 32 chars.length else fault) := by
  rw [strnlenUser, string.strlen]
  split <;> rfl

/-- What `strlen` says of the bytes. -/
theorem strlen_spec {len : Nat} (found : strlen mem s = some len) :
    (∀ i < len, mem (s + BitVec.ofNat 32 i) ≠ 0#8) ∧ mem (s + BitVec.ofNat 32 len) = 0#8 ∧ len < 2 ^ 32 := by
  suffices loop : ∀ rounds (s : Word) (len : Nat), strlenFrom mem rounds s = some len →
      (∀ i < len, mem (s + BitVec.ofNat 32 i) ≠ 0#8) ∧ mem (s + BitVec.ofNat 32 len) = 0#8 ∧ len < rounds from
    loop _ s len found
  intro rounds
  induction rounds with
  | zero => exact fun s len none => by cases none
  | succ rounds ih =>
    intro s len found
    rw [strlenFrom] at found
    by_cases ends : mem s = 0#8
    · rw [if_pos ends] at found
      cases found
      exact ⟨fun i below => absurd below (Nat.not_lt_zero i), by rwa [BitVec.add_zero], Nat.succ_pos _⟩
    · rw [if_neg ends] at found
      obtain ⟨rest, more, same⟩ := Option.map_eq_some_iff.mp found
      obtain ⟨proper, last, bound⟩ := ih _ _ more
      have place : ∀ i, s + BitVec.ofNat 32 (i + 1) = s + 1#32 + BitVec.ofNat 32 i := by
        intro i
        rw [BitVec.add_assoc, Nat.add_comm, BitVec.ofNat_add]
      subst same
      refine ⟨fun i below => ?_, by rwa [place], by omega⟩
      cases i with
      | zero => rwa [BitVec.add_zero]
      | succ i =>
        rw [place]
        exact proper i (by omega)

/-- A zero ends the string, or one before it does. -/
theorem strlen_of_zero {k : Nat} (zero : mem (s + BitVec.ofNat 32 k) = 0#8) (bound : k < 2 ^ 32) :
    ∃ len ≤ k, strlen mem s = some len := by
  suffices loop : ∀ rounds (s : Word) (k : Nat), mem (s + BitVec.ofNat 32 k) = 0#8 → k < rounds →
      ∃ len ≤ k, strlenFrom mem rounds s = some len from loop _ s k zero bound
  intro rounds
  induction rounds with
  | zero => exact fun s k _ bound => absurd bound (Nat.not_lt_zero k)
  | succ rounds ih =>
    intro s k zero bound
    by_cases ends : mem s = 0#8
    · exact ⟨0, Nat.zero_le k, by rw [strlenFrom, if_pos ends]⟩
    · cases k with
      | zero => exact absurd ((BitVec.add_zero s).symm ▸ zero) ends
      | succ k =>
        have place : s + BitVec.ofNat 32 (k + 1) = s + 1#32 + BitVec.ofNat 32 k := by
          rw [BitVec.add_assoc, Nat.add_comm, BitVec.ofNat_add]
        obtain ⟨len, le, rest⟩ := ih (s + 1#32) k (place ▸ zero) (by omega)
        exact ⟨len + 1, Nat.succ_le_succ le, by rw [strlenFrom, if_neg ends, rest, Option.map_some]⟩

end Strings

end FluxOS.UserMemoryOps
