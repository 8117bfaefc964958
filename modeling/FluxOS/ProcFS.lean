import FluxOS.Cstdlib
import FluxOS.TmpFS

/-! `ProcFS`: a directory of the processes, with one directory for each of them. The number of a node
says what it is. -/
namespace FluxOS
open Words

namespace ProcFS
open VFS

/-- The number of a node, as an `unsigned long long`. -/
abbrev NodeId := BitVec 64

def rootId : NodeId := 1#64

/-- `PID_TO_VNODE_ID`: the product is an `int`. -/
def pidToVnodeId (pid : Word) : NodeId := (1024#32 * pid).signExtend 64

def vnodeIdToPid (id : NodeId) : NodeId := id / 1024#64

/-- `IS_PID` and `IS_PID_SUBDIR`. -/
def IsPid (id : NodeId) : Prop := 1024#64 ≤ id ∧ id % 1024#64 = 0#64

def IsPidSubdir (id : NodeId) : Prop := 1024#64 ≤ id ∧ id % 1024#64 ≠ 0#64

instance (id : NodeId) : Decidable (IsPid id) := inferInstanceAs (Decidable (_ ∧ _))
instance (id : NodeId) : Decidable (IsPidSubdir id) := inferInstanceAs (Decidable (_ ∧ _))

def cmdlineFileId : NodeId := 1#64

def cmdline : List Char := ['c', 'm', 'd', 'l', 'i', 'n', 'e']

def isNum (s : List Char) : Bool := s ≠ [] ∧ s.all fun digit => '0' ≤ digit ∧ digit ≤ '9'

section Lookup

variable (isValidPID : Word → Bool)

/-- `lookup`: the number of the node, and its type. -/
def lookup (node : NodeId) (name : List Char) : Except Int (NodeId × Word) :=
  if node = rootId then
    if name = TmpFS.dot ∨ name = dotDot then .ok (rootId, sIfdir)
    else if isNum name then
      let pid := atoi name
      if isValidPID pid then .ok (pidToVnodeId pid, sIfdir) else .error (-enoent)
    else .error (-enoent)
  else if IsPid node then
    if name = cmdline then .ok (node + cmdlineFileId, sIfreg)
    else if name = TmpFS.dot then .ok (node, sIfdir)
    else if name = dotDot then .ok (rootId, sIfdir)
    else .error (-enoent)
  else .error (-enotdir)

end Lookup

/-- The names in the directory of a process, by what is left of the number. -/
def pidSubdirFiles : List (List Char) := [TmpFS.dot, cmdline]

/-- `name`, which does not look at the directory. -/
def name (node : NodeId) : TmpFS.NameAnswer :=
  if node = rootId then .named TmpFS.dot
  else if IsPid node then .named (itoaz (vnodeIdToPid node).toInt 10)
  else if IsPidSubdir node then
    match pidSubdirFiles[(node % 1024#64).toNat]? with
    | some file => .named file
    | none => .refused (-enoent)
  else .unset

/-- What the calls take a node for: `lookup` goes into the root and into the processes, `read` reads from what is in
these. The number 0 is none of them. -/
def nodeType (id : NodeId) : Word :=
  if id = rootId ∨ IsPid id then sIfdir else if IsPidSubdir id then sIfreg else 0#32

theorem toNat_pidToVnodeId (pid : Word) :
    (pidToVnodeId pid).toNat =
      1024 * pid.toNat % 2 ^ 32 + if (1024#32 * pid).msb then 2 ^ 64 - 2 ^ 32 else 0 := by
  have small : 1024 * pid.toNat % 2 ^ 32 < 2 ^ 64 := (Nat.mod_lt _ (by decide)).trans (by decide)
  rw [pidToVnodeId, BitVec.toNat_signExtend, BitVec.toNat_setWidth, BitVec.toNat_mul, BitVec.toNat_ofNat,
    Nat.mod_eq_of_lt small]

/-- A process has the number 0 where its id is a multiple of `2 ^ 22`. -/
theorem pidToVnodeId_eq_zero_iff (pid : Word) : pidToVnodeId pid = 0#64 ↔ pid.toNat % 2 ^ 22 = 0 := by
  rw [← BitVec.toNat_inj, toNat_pidToVnodeId, BitVec.msb_eq_decide, BitVec.toNat_mul, BitVec.toNat_ofNat]
  simp only [decide_eq_true_eq, BitVec.toNat_ofNat]
  split <;> omega

/-- Every other process has a directory. -/
theorem isPid_pidToVnodeId {pid : Word} (nonzero : pidToVnodeId pid ≠ 0#64) : IsPid (pidToVnodeId pid) := by
  have value := toNat_pidToVnodeId pid
  have positive : (pidToVnodeId pid).toNat ≠ 0 := fun zero => nonzero (BitVec.toNat_inj.mp zero)
  refine ⟨?_, ?_⟩
  · rw [BitVec.le_def, BitVec.toNat_ofNat]
    split at value <;> omega
  · have divides : (pidToVnodeId pid).toNat % 1024 = 0 := by split at value <;> omega
    rw [← BitVec.toNat_inj, BitVec.toNat_umod]
    exact divides

/-- The ids that fit into a number. -/
theorem pidToVnodeId_small {pid : Word} (small : pid.toNat < 2 ^ 21) : (pidToVnodeId pid).toNat = 1024 * pid.toNat := by
  rw [toNat_pidToVnodeId, BitVec.msb_eq_decide, BitVec.toNat_mul, BitVec.toNat_ofNat]
  simp only [decide_eq_true_eq]
  split <;> omega

theorem isPid_of_small {pid : Word} (positive : 0 < pid.toNat) (small : pid.toNat < 2 ^ 21) : IsPid (pidToVnodeId pid) := by
  refine isPid_pidToVnodeId fun zero => ?_
  have multiple := (pidToVnodeId_eq_zero_iff pid).mp zero
  omega

theorem vnodeIdToPid_pidToVnodeId {pid : Word} (small : pid.toNat < 2 ^ 21) :
    (vnodeIdToPid (pidToVnodeId pid)).toInt = pid.toNat := by
  have value : (vnodeIdToPid (pidToVnodeId pid)).toNat = pid.toNat := by
    rw [vnodeIdToPid, BitVec.toNat_udiv, pidToVnodeId_small small]
    exact Nat.mul_div_cancel_left _ (by decide)
  rw [BitVec.toInt_eq_toNat_of_lt (by omega), value]

theorem not_rootId_of_isPid {id : NodeId} (process : IsPid id) : id ≠ rootId := by
  rintro rfl
  exact absurd process (by decide)

/-- A process is named by its id. -/
theorem name_pidToVnodeId {pid : Word} (positive : 0 < pid.toNat) (small : pid.toNat < 2 ^ 21) :
    name (pidToVnodeId pid) = .named (itoaz pid.toNat 10) := by
  have process := isPid_of_small positive small
  rw [name, if_neg (not_rootId_of_isPid process), if_pos process, vnodeIdToPid_pidToVnodeId small]

/-- The decimal number of a process is one. -/
theorem isNum_itoaz {n : Nat} (positive : 0 < n) : isNum (itoaz n 10) = true := by
  obtain ⟨digit, rest, split, _⟩ := digits_lead positive
  have decimal : ∀ digit ∈ (Nat.digits 10 n).reverse, digit < 10 := digits_decimal
  rw [itoaz_positive positive, isNum, decide_eq_true_eq]
  refine ⟨by rw [split]; exact List.cons_ne_nil _ _, List.all_eq_true.mpr fun char among => ?_⟩
  obtain ⟨digit, inside, rfl⟩ := List.mem_map.mp among
  obtain ⟨low, high, _⟩ := digitChar_spec digit (decimal digit inside)
  exact decide_eq_true ⟨low, high⟩

/-- A process is found under its id. -/
theorem lookup_itoaz {isValidPID : Word → Bool} {pid : Word} (valid : isValidPID pid = true) (positive : 0 < pid.toNat) :
    lookup isValidPID rootId (itoaz pid.toNat 10) = .ok (pidToVnodeId pid, sIfdir) := by
  have number := isNum_itoaz positive
  have read : atoi (itoaz pid.toNat 10) = pid := by rw [atoi_itoaz positive pid.isLt, BitVec.ofNat_toNat, BitVec.setWidth_eq]
  have dots : ¬ (itoaz pid.toNat 10 = TmpFS.dot ∨ itoaz pid.toNat 10 = dotDot) := by
    rintro (same | same) <;> exact absurd (same ▸ number) (by decide)
  rw [lookup, if_pos rfl, if_neg dots, if_pos number]
  simp only [read, if_pos valid]

end ProcFS
end FluxOS
