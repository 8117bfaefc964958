import FluxOS.Buffers
import FluxOS.ProcFS

/-! Names and nodes of `ProcFS`: which decimal names are found, where the nodes of the processes are
those of their ids, and what is read from a `cmdline`. -/
namespace FluxOS.ProcFS
open Words VFS Buffers

/-- What the processes that there are have for a command line. -/
abbrev Processes (Byte : Type) := Word → Option (List Byte)

variable {Byte : Type} (processes : Processes Byte)

def isValidPID (pid : Word) : Bool := (processes pid).isSome

/-- How many bytes `read` takes for a `cmdline`: a sum of 64 bits against a size, and their difference cut to 32 bits. -/
def buflen (cmdlineSize : Word) (pos : BitVec 64) (bufsize : Word) : Word :=
  if cmdlineSize.setWidth 64 < bufsize.setWidth 64 + pos then (cmdlineSize.signExtend 64 - pos).setWidth 32 else bufsize

/-- The `memcpy` from `cmdline + pos`, an address of 32 bits. There are no bytes outside of the command line. -/
def copyCmdline (cmdline : List Byte) (pos : BitVec 64) (bufsize : Word) : Option (List Byte) :=
  slice cmdline (pos.setWidth 32).toNat (buflen (BitVec.ofNat 32 cmdline.length) pos bufsize).toNat

/-- `read`: the bytes, or what is returned instead of their number. -/
def read (node : NodeId) (pos : BitVec 64) (bufsize : Word) : Option (Except Int (List Byte)) :=
  if IsPidSubdir node then
    match processes ((vnodeIdToPid node).setWidth 32) with
    | none => some (.error (-enoent))
    | some cmdline =>
      if node % 1024#64 = cmdlineFileId then (copyCmdline cmdline pos bufsize).map .ok else some (.error (-einval))
  else some (.error (-einval))

/-! ## What should be found -/

/-- A decimal name is found exactly if it is the id of a process, as `itoaz` writes it. -/
def NameRight (name : List Char) : Prop :=
  (∃ answer, lookup (isValidPID processes) rootId name = .ok answer) ↔
    ∃ pid, isValidPID processes pid = true ∧ name = itoaz pid.toInt 10

/-- Under its id a process has a node that leads back to the id and is the directory of a process. -/
def NodeRight (pid : Word) : Prop :=
  ∃ id, lookup (isValidPID processes) rootId (itoaz pid.toInt 10) = .ok (id, sIfdir) ∧
    (vnodeIdToPid id).setWidth 32 = pid ∧ IsPid id

/-- In that directory there is a `cmdline`, and what is read from it is what it has from the position on, up to the size. -/
def CmdlineRight (pid : Word) (content : List Byte) (pos : BitVec 64) (bufsize : Word) : Prop :=
  ∃ id, lookup (isValidPID processes) (pidToVnodeId pid) cmdline = .ok (id, sIfreg) ∧
    read processes id pos bufsize = some (.ok ((content.drop pos.toNat).take bufsize.toNat))

/-! ## Decimal names -/

/-- A leading zero in front of another digit than zero stands for octal numbers. -/
def nameBase : List Char → Nat
  | '0' :: digit :: _ => if digit = '0' then 10 else 8
  | _ => 10

/-- The number that a decimal name stands for; its digits may be 8 and 9 also in an octal one. -/
def nameNumber (name : List Char) : Nat :=
  Nat.ofDigits (nameBase name) (name.map fun digit => digit.toNat - '0'.toNat).reverse

variable {processes}

theorem isNum_digits {name : List Char} (number : isNum name = true) :
    ∃ digits : List Nat, digits ≠ [] ∧ (∀ digit ∈ digits, digit < 10) ∧ name = digits.map digitChar := by
  obtain ⟨nonempty, decimal⟩ : name ≠ [] ∧ ∀ digit ∈ name, '0' ≤ digit ∧ digit ≤ '9' := by simpa [isNum] using number
  refine ⟨name.map fun digit => digit.toNat - '0'.toNat, by simpa using nonempty, fun value among => ?_, ?_⟩
  · obtain ⟨digit, inside, rfl⟩ := List.mem_map.mp among
    exact (digitChar_toNat (decimal digit inside).1 (decimal digit inside).2).1
  · rw [List.map_map]
    refine (List.map_id name).symm.trans (List.map_congr_left fun digit inside => ?_)
    exact (digitChar_toNat (decimal digit inside).1 (decimal digit inside).2).2.symm

theorem nameNumber_digits {digits : List Nat} (decimal : ∀ digit ∈ digits, digit < 10) :
    nameNumber (digits.map digitChar) = Nat.ofDigits (nameBase (digits.map digitChar)) digits.reverse := by
  have values : (digits.map digitChar).map (fun digit => digit.toNat - '0'.toNat) = digits := by
    rw [List.map_map]
    refine (List.map_congr_left fun digit inside => ?_).trans (List.map_id digits)
    exact (digitChar_spec digit (decimal digit inside)).2.2.1
  rw [nameNumber, values]

theorem nameBase_of_lead {first : Char} (not_zero : first ≠ '0') (rest : List Char) : nameBase (first :: rest) = 10 := by
  unfold nameBase
  split
  · rename_i same
    exact absurd (List.cons.inj same).1 not_zero
  · rfl

/-- The base that `atoi` takes behind a leading zero. -/
theorem nameBase_of_zero {digit : Char} (low : '0' ≤ digit) (high : digit ≤ '9') (rest : List Char) :
    (if '0' < digit ∧ digit ≤ '9' then 8#32 else 10#32).toNat = nameBase ('0' :: digit :: rest) := by
  rw [nameBase]
  by_cases zero : digit = '0'
  · rw [if_pos zero, if_neg fun nonzero => absurd (zero ▸ nonzero.1) (by decide)]
    rfl
  · rw [if_neg zero, if_pos ⟨Char.not_le.mp fun below => zero (Char.le_antisymm below low), high⟩]
    rfl

/-- Behind a leading zero. -/
theorem atoi_zero_lead {digit : Char} (decimal : digit ≠ 'x') (s : List Char) : atoi ('0' :: digit :: s) =
    atoiDigits (if '0' < digit ∧ digit ≤ '9' then 8#32 else 10#32) (digit :: s)
      (BitVec.ofNat 32 (digit :: s).length - 1#32) 0#32 := by
  have power : BitVec.ofNat 32 ('0' :: digit :: s).length - 1#32 - 1#32 = BitVec.ofNat 32 (digit :: s).length - 1#32 := by
    rw [List.length_cons, BitVec.ofNat_add, BitVec.add_sub_cancel]
  show atoiUnsigned ('0' :: digit :: s) (BitVec.ofNat 32 ('0' :: digit :: s).length - 1#32) = _
  rw [← power]
  unfold atoiUnsigned
  split
  · rename_i hex
    exact absurd (List.cons.inj (List.cons.inj hex).2).1 decimal
  · rename_i same
    obtain ⟨rfl, rfl⟩ := List.cons.inj (List.cons.inj same).2
    rfl
  · rename_i short
    cases (List.cons.inj short).2
  · rename_i other _
    exact absurd rfl (other digit s)

/-- What `atoi` makes of a decimal name. -/
theorem atoi_name {name : List Char} (number : isNum name = true) (short : name.length < 2 ^ 32) :
    atoi name = BitVec.ofNat 32 (nameNumber name) := by
  obtain ⟨digits, nonempty, decimal, rfl⟩ := isNum_digits number
  rw [List.length_map] at short
  rw [nameNumber_digits decimal]
  cases digits with
  | nil => exact absurd rfl nonempty
  | cons digit rest =>
    obtain ⟨-, -, -, zero, minus, -⟩ := digitChar_spec digit (decimal digit (.head _))
    by_cases lead : digit = 0
    · subst lead
      cases rest with
      | nil => rfl
      | cons next more =>
        have rest_decimal : ∀ digit ∈ next :: more, digit < 10 := fun digit inside => decimal digit (.tail _ inside)
        obtain ⟨low, high, -, nextZero, -⟩ := digitChar_spec next (rest_decimal next (.head _))
        have shorter : (next :: more).length < 2 ^ 32 := Nat.lt_of_succ_lt short
        have hex : digitChar next ≠ 'x' := fun same => absurd (same ▸ high) (by decide)
        have read (base : Word) := atoiDigits_base base rest_decimal shorter 0#32
        rw [List.map_cons, List.map_cons, show digitChar 0 = '0' from rfl, atoi_zero_lead hex, List.length_cons,
          List.length_map, ← List.length_cons, ← List.map_cons, read, BitVec.zero_add, nameBase_of_zero low high]
        rw [List.reverse_cons (a := 0), Nat.ofDigits_append, Nat.ofDigits_singleton, Nat.mul_zero, Nat.add_zero]
        rfl
    · have read := atoiDigits_base 10#32 decimal short 0#32
      rw [List.map_cons, atoi_of_lead minus fun same => lead (zero same), List.length_cons, List.length_map,
        ← List.map_cons, ← List.length_cons, read, BitVec.zero_add, List.map_cons,
        nameBase_of_lead fun same => lead (zero same)]
      rfl

theorem lookup_of_isNum {name : List Char} (number : isNum name = true) :
    (∃ answer, lookup (isValidPID processes) rootId name = .ok answer) ↔ isValidPID processes (atoi name) = true := by
  have dots : ¬(name = TmpFS.dot ∨ name = dotDot) := by
    rintro (rfl | rfl) <;> exact absurd number (by decide)
  rw [lookup, if_pos rfl, if_neg dots, if_pos number]
  by_cases valid : isValidPID processes (atoi name) = true
  · simp [valid]
  · simp [valid]

theorem not_isNum_of_negative {n : Int} (negative : n < 0) : isNum (itoaz n 10) = false := by
  have minus : '-' ∈ itoaz n 10 := by simp [itoaz, negative]
  rw [isNum, decide_eq_false_iff_not]
  intro number
  have digit := List.all_eq_true.mp number.2 '-' minus
  exact absurd digit (by decide)

/-- Numbers as `itoaz` writes them are read as they are, also zero. -/
theorem atoi_itoaz_nat {n : Nat} (small : n < 2 ^ 32) : atoi (itoaz n 10) = BitVec.ofNat 32 n := by
  rcases Nat.eq_zero_or_pos n with rfl | positive
  · rfl
  · exact atoi_itoaz positive small

/-- A decimal name is found as it should be if it is written as `itoaz` writes a number that fits an `int`; otherwise
only if the number that it is read as is no process. -/
theorem nameRight_iff {name : List Char} (number : isNum name = true) (short : name.length < 2 ^ 32) :
    NameRight processes name ↔
      (∃ n : Nat, n < 2 ^ 31 ∧ name = itoaz n 10) ∨ processes (BitVec.ofNat 32 (nameNumber name)) = none := by
  have read := atoi_name number short
  have unwritten (pid : Word) (same : name = itoaz pid.toInt 10) : ∃ n : Nat, n < 2 ^ 31 ∧ pid.toInt = n := by
    have nonneg : 0 ≤ pid.toInt := by
      by_contra negative
      rw [same, not_isNum_of_negative (by omega)] at number
      cases number
    exact ⟨pid.toInt.toNat, by have bound := pid.toInt_lt; omega, (Int.toNat_of_nonneg nonneg).symm⟩
  rw [NameRight, lookup_of_isNum number]
  by_cases canonical : ∃ n : Nat, n < 2 ^ 31 ∧ name = itoaz n 10
  · obtain ⟨n, small, rfl⟩ := canonical
    refine iff_of_true ⟨fun valid => ?_, ?_⟩ (.inl ⟨n, small, rfl⟩)
    · rw [atoi_itoaz_nat (by omega)] at valid
      refine ⟨BitVec.ofNat 32 n, valid, ?_⟩
      have value : (BitVec.ofNat 32 n).toNat = n := Nat.mod_eq_of_lt (by omega)
      rw [BitVec.toInt_eq_toNat_of_lt (by omega), value]
    · rintro ⟨pid, valid, same⟩
      obtain ⟨m, bound, value⟩ := unwritten pid same
      rw [value] at same
      rw [same, atoi_itoaz_nat (by omega), ← BitVec.ofInt_natCast, ← value, BitVec.ofInt_toInt]
      exact valid
  · have unnamed : ¬∃ pid, isValidPID processes pid = true ∧ name = itoaz pid.toInt 10 := by
      rintro ⟨pid, -, same⟩
      obtain ⟨m, bound, value⟩ := unwritten pid same
      exact canonical ⟨m, bound, by rw [same, value]⟩
    rw [read, isValidPID, or_iff_right canonical, iff_false_right unnamed, Bool.not_eq_true, Option.isSome_eq_false_iff,
      Option.isNone_iff_eq_none]

/-! ## Nodes -/

/-- Two ids have one node if they differ in the highest ten bits only. -/
theorem pidToVnodeId_eq_iff {pid other : Word} :
    pidToVnodeId pid = pidToVnodeId other ↔ pid.toNat % 2 ^ 22 = other.toNat % 2 ^ 22 := by
  rw [← BitVec.toNat_inj, toNat_pidToVnodeId, toNat_pidToVnodeId, BitVec.msb_eq_decide, BitVec.msb_eq_decide,
    BitVec.toNat_mul, BitVec.toNat_mul, BitVec.toNat_ofNat]
  simp only [decide_eq_true_eq]
  split <;> split <;> omega

/-- The id that a node leads back to. -/
theorem toNat_vnodeIdToPid_pidToVnodeId (pid : Word) :
    ((vnodeIdToPid (pidToVnodeId pid)).setWidth 32).toNat =
      pid.toNat % 2 ^ 22 + if pid.toNat % 2 ^ 22 < 2 ^ 21 then 0 else 2 ^ 32 - 2 ^ 22 := by
  rw [BitVec.toNat_setWidth, vnodeIdToPid, BitVec.toNat_udiv, toNat_pidToVnodeId, BitVec.msb_eq_decide, BitVec.toNat_mul,
    BitVec.toNat_ofNat, BitVec.toNat_ofNat]
  simp only [decide_eq_true_eq, Nat.reducePow, Nat.reduceMod]
  split <;> split <;> omega

theorem toInt_of_positive {pid : Word} (positive : 0 < pid.toInt) : pid.toNat < 2 ^ 31 ∧ pid.toInt = pid.toNat := by
  have bound := pid.isLt
  rw [BitVec.toInt_eq_toNat_cond] at positive ⊢
  split at positive
  · rename_i half
    exact ⟨by omega, if_pos half⟩
  · omega

theorem nodeRight_iff {pid : Word} (positive : 0 < pid.toInt) (live : isValidPID processes pid = true) :
    NodeRight processes pid ↔ pid.toNat < 2 ^ 21 := by
  obtain ⟨half, value⟩ := toInt_of_positive positive
  have back := toNat_vnodeIdToPid_pidToVnodeId pid
  rw [NodeRight, value, lookup_itoaz live (by omega)]
  constructor
  · rintro ⟨id, found, same, -⟩
    cases found
    rw [same] at back
    split at back <;> omega
  · intro small
    refine ⟨_, rfl, BitVec.eq_of_toNat_eq (back.trans ?_), isPid_of_small (by omega) small⟩
    rw [if_pos (by omega)]
    omega

/-! ## Command lines -/

theorem toNat_buflen {size : Nat} (small : size < 2 ^ 31) (pos : BitVec 64) (bufsize : Word) :
    (buflen (BitVec.ofNat 32 size) pos bufsize).toNat =
      if size < (bufsize.toNat + pos.toNat) % 2 ^ 64 then (2 ^ 64 - pos.toNat + size) % 2 ^ 32 else bufsize.toNat := by
  have value : (BitVec.ofNat 32 size).toNat = size := Nat.mod_eq_of_lt (by omega)
  have positive : (BitVec.ofNat 32 size).msb = false := by
    rw [BitVec.msb_eq_false_iff_two_mul_lt, value]
    omega
  have bound := bufsize.isLt
  rw [buflen, BitVec.signExtend_eq_setWidth_of_msb_false positive]
  simp only [BitVec.lt_def, BitVec.toNat_setWidth, BitVec.toNat_add, value, Nat.mod_eq_of_lt (show size < 2 ^ 64 by omega),
    Nat.mod_eq_of_lt (show bufsize.toNat < 2 ^ 64 by omega)]
  split
  · rw [BitVec.toNat_setWidth, BitVec.toNat_sub, BitVec.toNat_setWidth, value, Nat.mod_eq_of_lt (show size < 2 ^ 64 by omega)]
    omega
  · rfl

/-- What is copied from the bytes of a command line is right up to its end, and behind it only where the lowest 32 bits
of the position are those of the end. -/
theorem copyCmdline_iff {content : List Byte} (small : content.length < 2 ^ 31) (pos : BitVec 64) (bufsize : Word) :
    copyCmdline content pos bufsize = some ((content.drop pos.toNat).take bufsize.toNat) ↔
      pos.toNat ≤ content.length ∨ (pos.toNat % 2 ^ 32 = content.length ∧ pos.toNat + bufsize.toNat < 2 ^ 64) := by
  have count := toNat_buflen small pos bufsize
  have bound := bufsize.isLt
  have limit := pos.isLt
  rw [copyCmdline, BitVec.toNat_setWidth, count]
  by_cases inside : pos.toNat ≤ content.length
  · refine iff_of_true ?_ (.inl inside)
    rw [Nat.mod_eq_of_lt (show pos.toNat < 2 ^ 32 by omega), slice_of_inside (by split <;> omega), Option.some.injEq,
      List.take_eq_take_iff, List.length_drop]
    split <;> omega
  · rw [List.drop_of_length_le (by omega), List.take_nil, or_iff_right inside]
    generalize taken : (if content.length < (bufsize.toNat + pos.toNat) % 2 ^ 64 then
      (2 ^ 64 - pos.toNat + content.length) % 2 ^ 32 else bufsize.toNat) = k
    have none_taken : slice content (pos.toNat % 2 ^ 32) k = some [] ↔ k = 0 := by
      constructor
      · intro copied
        have length := length_of_slice copied
        rwa [List.length_nil, eq_comm] at length
      · rintro rfl
        exact slice_zero _ _
    rw [none_taken, ← taken]
    split <;> omega

/-- What is read under an id whose node leads back to it. -/
theorem cmdlineRight_iff {pid : Word} {content : List Byte} (positive : 0 < pid.toNat) (few : pid.toNat < 2 ^ 21)
    (live : processes pid = some content) (small : content.length < 2 ^ 31) (pos : BitVec 64) (bufsize : Word) :
    CmdlineRight processes pid content pos bufsize ↔
      pos.toNat ≤ content.length ∨ (pos.toNat % 2 ^ 32 = content.length ∧ pos.toNat + bufsize.toNat < 2 ^ 64) := by
  have process := isPid_of_small positive few
  have found : lookup (isValidPID processes) (pidToVnodeId pid) cmdline =
      .ok (pidToVnodeId pid + cmdlineFileId, sIfreg) := by
    rw [lookup, if_neg (not_rootId_of_isPid process), if_pos process, if_pos rfl]
  have sum : (pidToVnodeId pid + cmdlineFileId).toNat = 1024 * pid.toNat + 1 := by
    rw [BitVec.toNat_add, pidToVnodeId_small few, cmdlineFileId, BitVec.toNat_ofNat]
    omega
  have rest : (pidToVnodeId pid + cmdlineFileId) % 1024#64 = cmdlineFileId := by
    apply BitVec.eq_of_toNat_eq
    rw [BitVec.toNat_umod, sum, cmdlineFileId, show (1024#64).toNat = 1024 from rfl, show (1#64).toNat = 1 from rfl]
    omega
  have file : IsPidSubdir (pidToVnodeId pid + cmdlineFileId) := by
    refine ⟨?_, by rw [rest]; decide⟩
    rw [BitVec.le_def, sum, BitVec.toNat_ofNat]
    omega
  have back : (vnodeIdToPid (pidToVnodeId pid + cmdlineFileId)).setWidth 32 = pid := by
    apply BitVec.eq_of_toNat_eq
    rw [BitVec.toNat_setWidth, vnodeIdToPid, BitVec.toNat_udiv, sum, show (1024#64).toNat = 1024 from rfl]
    omega
  have answer : read processes (pidToVnodeId pid + cmdlineFileId) pos bufsize =
      (copyCmdline content pos bufsize).map .ok := by
    simp only [read, if_pos file, back, live, if_pos rest]
  rw [← copyCmdline_iff small, CmdlineRight, found]
  constructor
  · rintro ⟨id, same, copied⟩
    cases same
    rw [answer] at copied
    obtain ⟨bytes, copy, same⟩ := Option.map_eq_some_iff.mp copied
    cases same
    exact copy
  · intro copied
    exact ⟨_, rfl, by rw [answer, copied]; rfl⟩

/-- Names, nodes and command lines of `ProcFS` are right exactly if a name that is not written as ids are is read as no
process, ids are below `2 ^ 21`, distinct ones differ in their lowest 22 bits, and a position behind the end of a command
line ends in the same 32 bits as that, with no overflow behind it. -/
theorem names_and_nodes_iff {name : List Char} (number : isNum name = true) (short : name.length < 2 ^ 32)
    {pid other : Word} (positive : 0 < pid.toInt) {content : List Byte} (live : processes pid = some content)
    (small : content.length < 2 ^ 31) (pos : BitVec 64) (bufsize : Word) :
    (NameRight processes name ∧ NodeRight processes pid ∧ (pid ≠ other → pidToVnodeId pid ≠ pidToVnodeId other) ∧
        CmdlineRight processes pid content pos bufsize) ↔
      ((∃ n : Nat, n < 2 ^ 31 ∧ name = itoaz n 10) ∨ processes (BitVec.ofNat 32 (nameNumber name)) = none) ∧
        pid.toNat < 2 ^ 21 ∧ (pid ≠ other → pid.toNat % 2 ^ 22 ≠ other.toNat % 2 ^ 22) ∧
        (pos.toNat ≤ content.length ∨ (pos.toNat % 2 ^ 32 = content.length ∧ pos.toNat + bufsize.toNat < 2 ^ 64)) := by
  have valid : isValidPID processes pid = true := by rw [isValidPID, live]; rfl
  obtain ⟨half, value⟩ := toInt_of_positive positive
  rw [nameRight_iff number short, nodeRight_iff positive valid, ne_eq, ne_eq, pidToVnodeId_eq_iff]
  refine and_congr_right fun _ => and_congr_right fun few => and_congr_right fun _ => ?_
  exact cmdlineRight_iff (by omega) few live small pos bufsize

/-- One process, with the id 8 and a command line of two bytes. -/
def onlyEight : Processes Nat := fun pid => if pid = 8#32 then some [115, 104] else none

theorem itoaz_eight : itoaz 8 10 = ['8'] := by simp [itoaz, digitChar]

theorem eight_is_found : NameRight onlyEight ['8'] ∧ NodeRight onlyEight 8#32 ∧
    (8#32 ≠ 9#32 → pidToVnodeId 8#32 ≠ pidToVnodeId 9#32) ∧ CmdlineRight onlyEight 8#32 [115, 104] 1#64 5#32 :=
  (names_and_nodes_iff (by decide) (by decide) (by decide) rfl (by decide) 1#64 5#32).mpr
    ⟨.inl ⟨8, by decide, itoaz_eight.symm⟩, by decide, fun _ => by decide, .inl (by decide)⟩

/-- The process is found under an octal name too. -/
theorem eight_is_found_in_octal : isNum ['0', '1', '0'] = true ∧ onlyEight 8#32 = some [115, 104] ∧
    ¬NameRight onlyEight ['0', '1', '0'] := by
  refine ⟨by decide, rfl, fun right => ?_⟩
  obtain ⟨pid, live, same⟩ := right.mp ⟨_, rfl⟩
  have eight : pid = 8#32 := by
    by_contra other
    simp [isValidPID, onlyEight, other] at live
  rw [eight, show (8#32).toInt = 8 from rfl, itoaz_eight] at same
  cases same

end FluxOS.ProcFS
