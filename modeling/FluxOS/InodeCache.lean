import FluxOS.Ext2Update
import FluxOS.InodeTable
import FluxOS.WriteBackCache

/-! The inodes of an ext2 device that are in memory: a node is made when it is first asked for, changed by `Chmod`,
`Chown`, `Utime` and `Unlink`, and written back by `CloseVNode` when nobody uses it any more. -/
namespace FluxOS
open Words UserMemoryOps BlockDevice NetUtils

/-- `struct stat`, as `Ext2::Stat` fills it. -/
structure Ext2Stat where
  stDev : Word
  stIno : Word
  stMode : Word
  stNlink : Word
  stUid : Word
  stGid : Word
  stRdev : Word
  stSize : Word
  stBlksize : Word
  stBlocks : Word
  stAtime : Word
  stMtime : Word
  stCtime : Word
  deriving DecidableEq, Repr

namespace Ext2Inode

def iUid (inode : Ext2Inode) : BitVec 16 := le16 inode.bytes 2
def iAtime (inode : Ext2Inode) : Word := le32 inode.bytes 8
def iCtime (inode : Ext2Inode) : Word := le32 inode.bytes 12
def iMtime (inode : Ext2Inode) : Word := le32 inode.bytes 16
def iGid (inode : Ext2Inode) : BitVec 16 := le16 inode.bytes 24

/-- The inode with a half word at an offset. -/
def set16 (inode : Ext2Inode) (offset : Nat) (value : BitVec 16) : Ext2Inode :=
  fun i => store16 inode.bytes offset value i

/-- The inode with a word at an offset. -/
def set32 (inode : Ext2Inode) (offset : Nat) (value : Word) : Ext2Inode := fun i => store32 inode.bytes offset value i

/-- `inode->i_mode = mode`. -/
def chmod (mode : Word) (inode : Ext2Inode) : Ext2Inode := inode.set16 0 (mode.setWidth 16)

/-- `inode->i_uid = uid; inode->i_gid = gid`. -/
def chown (uid gid : Word) (inode : Ext2Inode) : Ext2Inode :=
  (inode.set16 2 (uid.setWidth 16)).set16 24 (gid.setWidth 16)

/-- `inode->i_atime = buf->actime; inode->i_mtime = buf->modtime`. -/
def utime (actime modtime : Word) (inode : Ext2Inode) : Ext2Inode := (inode.set32 8 actime).set32 16 modtime

end Ext2Inode

/-- What is done with the nodes of the device. `get` is `iNodeNumberToVNode`, `reference` and `put` are those of
`VNodeManager`, `unlink` is the end of `Unlink`. -/
inductive InodeCall where
  | get (id : Word)
  | reference (id : Word)
  | put (id : Word)
  | stat (id : Word)
  | access (id aMode uid gid : Word)
  | chmod (id mode : Word)
  | chown (id uid gid : Word)
  | utime (id actime modtime : Word)
  | unlink (id : Word)

/-- The number of the inode. -/
def InodeCall.id : InodeCall → Word
  | get id | reference id | put id | stat id | access id _ _ _ | chmod id _ | chown id _ _ | utime id _ _
  | unlink id => id

inductive InodeReply where
  | ret (res : Int)
  | stat (buf : Ext2Stat)
  deriving DecidableEq, Repr

namespace Ext2

/-- `Stat` of a node with that number and inode. -/
def stat (privdata : Ext2Privdata) (id : Word) (inode : Ext2Inode) : Ext2Stat where
  stDev := 0#32
  stIno := id
  stMode := inode.iMode.setWidth 32
  stNlink := inode.iLinksCount.setWidth 32
  stUid := inode.iUid.setWidth 32
  stGid := inode.iGid.setWidth 32
  stRdev := 0#32
  stSize := inode.iSize
  stBlksize := privdata.blockSize
  stBlocks := inode.iBlocks
  stAtime := inode.iAtime
  stMtime := inode.iMtime
  stCtime := inode.iCtime

/-- `EACCES`. -/
def eacces : Nat := 13

/-- `Access`: the bits of the first class that the process belongs to. -/
def access (inode : Ext2Inode) (aMode uid gid : Word) : Int :=
  let iMode : Word := inode.iMode.setWidth 32
  let tmpIMode :=
    if uid = 0#32 then iMode ||| (6#32 ||| (iMode >>> 14 &&& 1#32))
    else if uid = inode.iUid.setWidth 32 then iMode >>> 6
    else if gid = inode.iGid.setWidth 32 then iMode >>> 3
    else iMode
  if aMode &&& ~~~(tmpIMode &&& 7#32) ≠ 0#32 then -eacces else 0

section Calls

variable (heap : DirtyHeap) (privdata : Ext2Privdata)

/-- The node that is in memory under a number, and its inode. -/
def nodeOf (state : Ext2State) (id : Word) : Option (Ext2Node × Ext2Inode) :=
  (state.nodes id).bind fun node => node.privdata.map (node, ·)

/-- `node->dirty = true`, and the inode changed. -/
def changeNode (state : Ext2State) (id : Word) (f : Ext2Inode → Ext2Inode) : Option (InodeReply × Ext2State) :=
  (nodeOf state id).map fun (node, inode) =>
    (.ret 0, setNode state id (some { node with privdata := some (f inode), dirty := true }))

/-- One call, with its requests for memory from that number on. There is no result where a node is used that is not in
memory. -/
def step (request : Nat) (state : Ext2State) : InodeCall → Option (InodeReply × Ext2State)
  | .get id => (iNodeNumberToVNode heap privdata state request id).map fun
    | (.error res, state) => (.ret res, state)
    | (.ok _, state) => (.ret 0, state)
  | .reference id => (nodeOf state id).map fun (node, _) =>
    (.ret 0, setNode state id (some { node with refCount := node.refCount + 1#32 }))
  | .put id => (nodeOf state id).bind fun (node, _) =>
    (putVnode heap privdata state request id node).map (.ret 0, ·)
  | .stat id => (nodeOf state id).map fun (_, inode) => (.stat (stat privdata id inode), state)
  | .access id aMode uid gid => (nodeOf state id).map fun (_, inode) => (.ret (access inode aMode uid gid), state)
  | .chmod id mode => changeNode state id (Ext2Inode.chmod mode)
  | .chown id uid gid => changeNode state id (Ext2Inode.chown uid gid)
  | .utime id actime modtime => changeNode state id (Ext2Inode.utime actime modtime)
  | .unlink id => (unlinkInode heap privdata state request id).map fun (res, state) => (.ret res, state)

/-- A run of calls, each with the number of its first request for memory, and what they return. -/
def run (state : Ext2State) : List (Nat × InodeCall) → Option (List InodeReply × Ext2State)
  | [] => some ([], state)
  | (request, call) :: rest => (step heap privdata request state call).bind fun (reply, state) =>
    (run state rest).map fun (replies, state) => (reply :: replies, state)

end Calls

end Ext2

/-! ## What the calls are for -/

/-- What `stat` gives for each file, and how many use it. -/
structure FileAttributes where
  stat : Word → Ext2Stat
  uses : Word → Nat

/-- One of the permissions 4, 2 and 1 (bits 2, 1 and 0). The superuser reads and writes every file, and uses what
everybody else uses; the mode of a directory has bit 14. -/
def Ext2Stat.permits (buf : Ext2Stat) (uid gid : Word) (i : Nat) : Bool :=
  if uid = 0#32 then i ≠ 0 || buf.stMode.getLsbD 0 || buf.stMode.getLsbD 14
  else buf.stMode.getLsbD (if uid = buf.stUid then 6 + i else if gid = buf.stGid then 3 + i else i)

/-- Whether a file may be used so. -/
def Ext2Stat.MayAccess (buf : Ext2Stat) (aMode uid gid : Word) : Prop :=
  ∀ i < 32, aMode.getLsbD i = true → i < 3 ∧ buf.permits uid gid i = true

instance (buf : Ext2Stat) (aMode uid gid : Word) : Decidable (buf.MayAccess aMode uid gid) :=
  inferInstanceAs (Decidable (∀ i < 32, _ → _))

namespace FileAttributes

variable (files : FileAttributes)

def use (id : Word) (count : Nat) : FileAttributes := { files with uses := Function.update files.uses id count }

def setStat (id : Word) (buf : Ext2Stat) : FileAttributes := { files with stat := Function.update files.stat id buf }

/-- A number of 32 bits, of which the inode keeps 16. -/
def kept (value : Word) : Word := (value.setWidth 16).setWidth 32

/-- A call on the attributes; those on a file that is not in use have no result. -/
def step : InodeCall → Option (InodeReply × FileAttributes)
  | .get id => some (.ret 0, files.use id (files.uses id + 1))
  | .reference id => if files.uses id = 0 then none else some (.ret 0, files.use id (files.uses id + 1))
  | .put id => if files.uses id = 0 then none else some (.ret 0, files.use id (files.uses id - 1))
  | .stat id => if files.uses id = 0 then none else some (.stat (files.stat id), files)
  | .access id aMode uid gid =>
    if files.uses id = 0 then none
    else some (.ret (if (files.stat id).MayAccess aMode uid gid then 0 else -Ext2.eacces), files)
  | .chmod id mode =>
    if files.uses id = 0 then none else some (.ret 0, files.setStat id { files.stat id with stMode := kept mode })
  | .chown id uid gid =>
    if files.uses id = 0 then none
    else some (.ret 0, files.setStat id { files.stat id with stUid := kept uid, stGid := kept gid })
  | .utime id actime modtime =>
    if files.uses id = 0 then none
    else some (.ret 0, files.setStat id { files.stat id with stAtime := actime, stMtime := modtime })
  | .unlink id =>
    some (.ret 0, files.setStat id { files.stat id with stNlink := kept ((files.stat id).stNlink - 1#32) })

def run (files : FileAttributes) : List InodeCall → Option (List InodeReply × FileAttributes)
  | [] => some ([], files)
  | call :: rest => (files.step call).bind fun (reply, files) =>
    (run files rest).map fun (replies, files) => (reply :: replies, files)

end FileAttributes

/-! ## The fields of an inode -/

namespace NetUtils

theorem le16_store16_other {block : Block} {offset other : Nat} (apart : other + 2 ≤ offset ∨ offset + 2 ≤ other)
    (value : Half) : le16 (store16 block offset value) other = le16 block other := by
  rw [le16, store16_other (by omega) (by omega), store16_other (by omega) (by omega), le16]

theorem le32_store16_other {block : Block} {offset other : Nat} (apart : other + 4 ≤ offset ∨ offset + 2 ≤ other)
    (value : Half) : le32 (store16 block offset value) other = le32 block other :=
  le32_congr block fun i inside => store16_other (by omega) (by omega) value

theorem le16_store32_other {block : Block} {offset other : Nat} (apart : other + 2 ≤ offset ∨ offset + 4 ≤ other)
    (value : Word) : le16 (store32 block offset value) other = le16 block other := by
  rw [store32, le16_store16_other (by omega), le16_store16_other (by omega)]

theorem le32_store32_other {block : Block} {offset other : Nat} (apart : other + 4 ≤ offset ∨ offset + 4 ≤ other)
    (value : Word) : le32 (store32 block offset value) other = le32 block other := by
  rw [store32, le32_store16_other (by omega), le32_store16_other (by omega)]

end NetUtils

namespace Ext2Inode

variable (inode : Ext2Inode)

theorem bytes_ofBytes {block : Block} (zero : ∀ i, 128 ≤ i → block i = 0#8) :
    bytes (fun i => block i) = block := by
  funext i
  rw [bytes]
  split
  · rfl
  · exact (zero i (by omega)).symm

theorem bytes_behind {i : Nat} (behind : 128 ≤ i) : inode.bytes i = 0#8 := dif_neg (by omega)

theorem bytes_set16 {offset : Nat} (inside : offset + 2 ≤ 128) (value : BitVec 16) :
    (inode.set16 offset value).bytes = store16 inode.bytes offset value :=
  bytes_ofBytes fun i behind => by
    rw [store16_other (by omega) (by omega)]
    exact inode.bytes_behind behind

theorem bytes_set32 {offset : Nat} (inside : offset + 4 ≤ 128) (value : Word) :
    (inode.set32 offset value).bytes = store32 inode.bytes offset value :=
  bytes_ofBytes fun i behind => by
    rw [store32, store16_other (by omega) (by omega), store16_other (by omega) (by omega)]
    exact inode.bytes_behind behind

/-- The bytes of the mode, the owner, the two times and the number of links. -/
def AttributeByte (i : Nat) : Prop := i < 4 ∨ 8 ≤ i ∧ i < 12 ∨ 16 ≤ i ∧ i < 20 ∨ 24 ≤ i ∧ i < 28

/-- The other bytes are those of the inode. -/
def KeepsRest (changed : Ext2Inode) : Prop := ∀ i : Fin 128, ¬ AttributeByte i → changed i = inode i

variable {inode}

theorem set16_other {offset : Nat} {i : Fin 128} (low : (i : Nat) ≠ offset) (high : (i : Nat) ≠ offset + 1)
    (value : BitVec 16) : inode.set16 offset value i = inode i := by
  rw [set16, store16_other low high, bytes, dif_pos i.isLt]

theorem set32_other {offset : Nat} {i : Fin 128} (apart : (i : Nat) < offset ∨ offset + 4 ≤ i) (value : Word) :
    inode.set32 offset value i = inode i := by
  rw [set32, store32, store16_other (by omega) (by omega), store16_other (by omega) (by omega), bytes, dif_pos i.isLt]

theorem KeepsRest.trans {changed again : Ext2Inode} (first : inode.KeepsRest changed)
    (second : changed.KeepsRest again) : inode.KeepsRest again :=
  fun i rest => (second i rest).trans (first i rest)

theorem keepsRest_chmod (mode : Word) : inode.KeepsRest (inode.chmod mode) := by
  intro i rest
  rw [AttributeByte] at rest
  exact set16_other (by omega) (by omega) _

theorem keepsRest_chown (uid gid : Word) : inode.KeepsRest (inode.chown uid gid) := by
  intro i rest
  rw [AttributeByte] at rest
  rw [chown, set16_other (by omega) (by omega), set16_other (by omega) (by omega)]

theorem keepsRest_utime (actime modtime : Word) : inode.KeepsRest (inode.utime actime modtime) := by
  intro i rest
  rw [AttributeByte] at rest
  rw [utime, set32_other (by omega), set32_other (by omega)]

theorem keepsRest_unlinked : inode.KeepsRest inode.unlinked := by
  intro i rest
  rw [AttributeByte] at rest
  exact set16_other (by omega) (by omega) _

end Ext2Inode

namespace Ext2

open Ext2Inode FileAttributes

variable {privdata : Ext2Privdata} {id : Word} {inode : Ext2Inode}

/-- A use has no permission that is missing exactly if it has every permission. -/
theorem no_missing_iff (aMode mode : Word) :
    aMode &&& ~~~(mode &&& 7#32) = 0#32 ↔ ∀ i < 32, aMode.getLsbD i = true → i < 3 ∧ mode.getLsbD i = true := by
  have seven (i : Nat) : (7#32).getLsbD i = decide (i < 3) := by
    rw [BitVec.getLsbD_ofNat, Nat.testBit_two_pow_sub_one 3 i, Bool.and_eq_right_iff_imp]
    simp only [decide_eq_true_eq]
    omega
  refine ⟨fun none i bound asked => ?_, fun all => BitVec.eq_of_getLsbD_eq fun i bound => ?_⟩
  · have bit := congrArg (·.getLsbD i) none
    simp only [BitVec.getLsbD_and, BitVec.getLsbD_not, BitVec.getLsbD_zero, asked, bound, seven] at bit
    simpa [and_comm] using bit
  · rw [BitVec.getLsbD_and, BitVec.getLsbD_not, BitVec.getLsbD_and, BitVec.getLsbD_zero, seven]
    by_cases asked : aMode.getLsbD i = true
    · obtain ⟨small, permitted⟩ := all i bound asked
      simp [small, permitted]
    · simp [asked]

/-- The last three bits of what `Access` computes are the permissions. -/
theorem tmpIMode_permits (privdata : Ext2Privdata) (id : Word) (inode : Ext2Inode) (uid gid : Word) {i : Nat}
    (small : i < 3) :
    (if uid = 0#32 then inode.iMode.setWidth 32 ||| (6#32 ||| (inode.iMode.setWidth 32 >>> 14 &&& 1#32))
      else if uid = inode.iUid.setWidth 32 then inode.iMode.setWidth 32 >>> 6
      else if gid = inode.iGid.setWidth 32 then inode.iMode.setWidth 32 >>> 3
      else inode.iMode.setWidth 32).getLsbD i = (stat privdata id inode).permits uid gid i := by
  have mode : (stat privdata id inode).stMode = inode.iMode.setWidth 32 := rfl
  have uidOf : (stat privdata id inode).stUid = inode.iUid.setWidth 32 := rfl
  have gidOf : (stat privdata id inode).stGid = inode.iGid.setWidth 32 := rfl
  rw [Ext2Stat.permits, mode, uidOf, gidOf]
  split_ifs with superuser owner group
  · have cases : i = 0 ∨ i = 1 ∨ i = 2 := by omega
    rcases cases with rfl | rfl | rfl <;> simp
  · exact BitVec.getLsbD_ushiftRight ..
  · exact BitVec.getLsbD_ushiftRight ..
  · rfl

theorem access_eq (aMode uid gid : Word) : access inode aMode uid gid =
    if (stat privdata id inode).MayAccess aMode uid gid then 0 else -(eacces : Int) := by
  rw [access]
  simp only [ne_eq, no_missing_iff, ite_not]
  refine if_congr (forall₂_congr fun i _ => imp_congr_right fun _ => and_congr_right fun small => ?_) rfl rfl
  rw [tmpIMode_permits privdata id inode uid gid small]

theorem stat_chmod (mode : Word) :
    stat privdata id (inode.chmod mode) = { stat privdata id inode with stMode := kept mode } := by
  simp (disch := decide) only [stat, iMode, iLinksCount, iUid, iGid, iSize, iBlocks, iAtime, iMtime, iCtime, kept,
    Ext2Inode.chmod, bytes_set16, le16_store16, le16_store16_other, le32_store16_other]

theorem stat_chown (uid gid : Word) : stat privdata id (inode.chown uid gid) =
    { stat privdata id inode with stUid := kept uid, stGid := kept gid } := by
  simp (disch := decide) only [stat, iMode, iLinksCount, iUid, iGid, iSize, iBlocks, iAtime, iMtime, iCtime, kept,
    Ext2Inode.chown, bytes_set16, le16_store16, le16_store16_other, le32_store16_other]

theorem stat_utime (actime modtime : Word) : stat privdata id (inode.utime actime modtime) =
    { stat privdata id inode with stAtime := actime, stMtime := modtime } := by
  simp (disch := decide) only [stat, iMode, iLinksCount, iUid, iGid, iSize, iBlocks, iAtime, iMtime, iCtime,
    Ext2Inode.utime, bytes_set32, le32_store32, le16_store32_other, le32_store32_other]

theorem stat_unlinked : stat privdata id inode.unlinked =
    { stat privdata id inode with stNlink := kept ((stat privdata id inode).stNlink - 1#32) } := by
  have bytes : inode.unlinked.bytes = store16 inode.bytes 26 (inode.iLinksCount - 1#16) :=
    inode.bytes_set16 (by decide) _
  have lowered : kept (inode.iLinksCount.setWidth 32 - 1#32) = (inode.iLinksCount - 1#16).setWidth 32 := by
    rw [kept]
    congr 1
    bv_omega
  simp (disch := decide) only [stat, iMode, iUid, iGid, iSize, iBlocks, iAtime, iMtime, iCtime, bytes, lowered,
    le16_store16_other, le32_store16_other]
  rw [iLinksCount, bytes, le16_store16]

/-! ## The nodes as a cache of the inodes on the device -/

/-- The code finds the inode of that number (`FluxOS.InodeTable`). -/
def Usable (sblock : Ext2SuperBlock) (groups : Nat) (id : Word) : Prop :=
  id ≠ 0#32 ∧ groupOf sblock id < groups ∧ Found sblock id

/-- The node of an entry. -/
def entryNode (entry : CacheEntry Ext2Inode) : Ext2Node :=
  ⟨BitVec.ofNat 32 entry.uses, some entry.value, entry.dirty⟩

/-- The nodes in memory and the inodes on the device are that cache; the rest of the device is as it was. -/
structure Represents (before : Disk) (sblock : Ext2SuperBlock) (groups : Nat) (state : Ext2State)
    (cache : WriteBackCache Word Ext2Inode) : Prop where
  wellFormed : WellFormed state.disk sblock groups
  tables : ∀ group < groups, tableStart state.disk sblock group = tableStart before sblock group
  nodes : ∀ id, state.nodes id = (cache.cached id).map entryNode
  stored : ∀ id, Usable sblock groups id → inodeOnDisk state.disk sblock id = cache.stored id
  outside : ∀ address, (∀ id, Usable sblock groups id → address < inodeAddress before sblock id ∨
    inodeAddress before sblock id + 128 ≤ address) → state.disk address = before address

section Simulation

variable {before : Disk} {sblock : Ext2SuperBlock} {groups : Nat} {state : Ext2State}
  {cache : WriteBackCache Word Ext2Inode} {id : Word} {heap : DirtyHeap} {request : Nat}

theorem Represents.inodeAddress (represents : Represents before sblock groups state cache)
    (present : groupOf sblock id < groups) :
    Ext2.inodeAddress state.disk sblock id = Ext2.inodeAddress before sblock id := by
  rw [Ext2.inodeAddress, represents.tables _ present, ← Ext2.inodeAddress]

/-- A node and its entry take another value. -/
theorem Represents.setNode (represents : Represents before sblock groups state cache) (id : Word)
    (entry : Option (CacheEntry Ext2Inode)) :
    Represents before sblock groups (setNode state id (entry.map entryNode)) (cache.setEntry id entry) := by
  refine ⟨represents.wellFormed, represents.tables, fun other => ?_, represents.stored, represents.outside⟩
  rw [WriteBackCache.cached_setEntry]
  by_cases same : other = id
  · rw [if_pos same, same]
    exact Function.update_self _ _ _
  · rw [if_neg same, ← represents.nodes other]
    exact Function.update_of_ne same _ _

theorem inodeAddress_withInode (wellFormed : WellFormed state.disk sblock groups) {other : Word}
    (present : groupOf sblock id < groups) (present' : groupOf sblock other < groups) (inode : Ext2Inode) :
    Ext2.inodeAddress (withInode state.disk (Ext2.inodeAddress state.disk sblock id) inode) sblock other =
      Ext2.inodeAddress state.disk sblock other :=
  congrArg (· + _) ((wellFormed_withInode wellFormed present inode).2 _ present')

/-- Other inodes are not where this one is written. -/
theorem inodeOnDisk_withInode_other (wellFormed : WellFormed state.disk sblock groups) (geometry : Geometry sblock)
    {other : Word} (usable : Usable sblock groups id) (usable' : Usable sblock groups other) (different : other ≠ id)
    (inode : Ext2Inode) :
    inodeOnDisk (withInode state.disk (Ext2.inodeAddress state.disk sblock id) inode) sblock other =
      inodeOnDisk state.disk sblock other := by
  funext i
  have bound := i.isLt
  have apart := inodes_apart wellFormed geometry usable.1 usable'.1 usable.2.1 usable'.2.1 different
  rw [inodeOnDisk, inodeAddress_withInode wellFormed usable.2.1 usable'.2.1, withInode,
    if_neg (by unfold inodeBytes; omega), inodeOnDisk]

/-- An inode is written to its place. -/
theorem Represents.store (represents : Represents before sblock groups state cache) (geometry : Geometry sblock)
    (usable : Usable sblock groups id) (inode : Ext2Inode) :
    Represents before sblock groups
      { state with disk := withInode state.disk (Ext2.inodeAddress state.disk sblock id) inode }
      { cache with stored := Function.update cache.stored id inode } := by
  obtain ⟨wellFormed, tables⟩ := wellFormed_withInode represents.wellFormed usable.2.1 inode
  refine ⟨wellFormed, fun group present => (tables group present).trans (represents.tables group present),
    represents.nodes, fun other usable' => ?_, fun address away => ?_⟩
  · by_cases same : other = id
    · subst same
      change _ = Function.update cache.stored other inode other
      rw [Function.update_self]
      funext i
      rw [inodeOnDisk, inodeAddress_withInode represents.wellFormed usable.2.1 usable.2.1]
      exact inodeOnDisk_withInode _ _ _ i
    · change _ = Function.update cache.stored id inode other
      rw [Function.update_of_ne same, ← represents.stored other usable']
      exact inodeOnDisk_withInode_other represents.wellFormed geometry usable usable' same inode
  · have place := away id usable
    rw [← represents.inodeAddress usable.2.1] at place
    rw [← represents.outside address away]
    exact if_neg (by unfold inodeBytes; omega)

theorem Represents.get (represents : Represents before sblock groups state cache) (geometry : Geometry sblock)
    (granted : ∀ n, heap.grants n = true) (request : Nat) (usable : Usable sblock groups id) :
    ∃ state', iNodeNumberToVNode heap (privdataOf sblock) state request id =
        some (.ok (entryNode ⟨cache.view id, ((cache.cached id).elim false CacheEntry.dirty), cache.uses id + 1⟩,
          cache.view id), state') ∧
      Represents before sblock groups state' (cache.fetch id) := by
  have read : readInode state.disk heap (privdataOf sblock) request id = some (some (cache.stored id)) := by
    rw [← represents.stored id usable]
    exact readsRight_of_found represents.wellFormed geometry granted usable.1 usable.2.1 usable.2.2 request
  refine ⟨_, ?_, represents.setNode id _⟩
  rw [iNodeNumberToVNode, represents.nodes id]
  cases here : cache.cached id with
  | none =>
    simp only [Option.map_none, Option.getD_none, read, Option.map_some, WriteBackCache.view, WriteBackCache.uses, here,
      Option.elim_none]
    rfl
  | some entry =>
    have count : BitVec.ofNat 32 entry.uses + 1#32 = BitVec.ofNat 32 (entry.uses + 1) := by
      rw [← BitVec.ofNat_add]
    simp only [Option.map_some, Option.getD_some, entryNode, WriteBackCache.view, WriteBackCache.uses, here,
      Option.elim_some, count]

/-- A node that is in use is in memory. -/
theorem Represents.nodeOf (represents : Represents before sblock groups state cache) (used : cache.uses id ≠ 0) :
    ∃ entry, cache.cached id = some entry ∧ entry.uses = cache.uses id ∧ entry.value = cache.view id ∧
      nodeOf state id = some (entryNode entry, cache.view id) := by
  obtain ⟨entry, here, count, value⟩ := WriteBackCache.cached_of_uses used
  refine ⟨entry, here, count.symm, value.symm, ?_⟩
  rw [Ext2.nodeOf, represents.nodes id, here, value]
  rfl

theorem Represents.change (represents : Represents before sblock groups state cache) (used : cache.uses id ≠ 0)
    (f : Ext2Inode → Ext2Inode) : ∃ state', changeNode state id f = some (.ret 0, state') ∧
      Represents before sblock groups state' (cache.change id f) := by
  obtain ⟨entry, here, -, value, node⟩ := represents.nodeOf used
  refine ⟨_, ?_, represents.setNode id _⟩
  rw [changeNode, node, Option.map_some, here, ← value]
  rfl

theorem closeVNode_dirty {refCount : Word} {inode : Ext2Inode} {dirty : Bool} (changed : dirty = true) :
    closeVNode heap (privdataOf sblock) state request id ⟨refCount, some inode, dirty⟩ =
      (writeINode state.disk heap (privdataOf sblock) request id inode).map fun disk => { state with disk := disk } :=
  if_pos changed

theorem closeVNode_clean {refCount : Word} {inode : Ext2Inode} {dirty : Bool} (unchanged : ¬ dirty = true) :
    closeVNode heap (privdataOf sblock) state request id ⟨refCount, some inode, dirty⟩ = some state :=
  if_neg unchanged

/-- The last `PutVnode` writes the inode back, any other takes a reference. -/
theorem Represents.put (represents : Represents before sblock groups state cache) (geometry : Geometry sblock)
    (granted : ∀ n, heap.grants n = true) (request : Nat) (usable : Usable sblock groups id)
    {entry : CacheEntry Ext2Inode} (here : cache.cached id = some entry) (used : 0 < entry.uses)
    (few : entry.uses < 2 ^ 32) :
    ∃ state', putVnode heap (privdataOf sblock) state request id (entryNode entry) = some state' ∧
      Represents before sblock groups state' (cache.release id) := by
  have count : BitVec.ofNat 32 entry.uses - 1#32 = BitVec.ofNat 32 (entry.uses - 1) := by
    refine BitVec.eq_of_toNat_eq ?_
    simp only [BitVec.toNat_sub, BitVec.toNat_ofNat]
    omega
  have last : BitVec.ofNat 32 (entry.uses - 1) = 0#32 ↔ entry.uses = 1 := by
    rw [← BitVec.toNat_inj, BitVec.toNat_ofNat, Nat.mod_eq_of_lt (by omega)]
    change entry.uses - 1 = 0 ↔ _
    omega
  rw [putVnode, WriteBackCache.release, here, Option.elim_some]
  simp only [entryNode, count]
  by_cases only : entry.uses = 1
  · rw [if_pos (last.mpr only), if_pos only, WriteBackCache.writeBack]
    by_cases dirty : entry.dirty = true
    · rw [if_pos dirty]
      refine ⟨_, ?_, (represents.store geometry usable entry.value).setNode id none⟩
      rw [closeVNode_dirty dirty, writeINode_of_found represents.wellFormed geometry granted usable.1 usable.2.1
        usable.2.2 request entry.value]
      rfl
    · rw [if_neg dirty]
      refine ⟨_, ?_, represents.setNode id none⟩
      rw [closeVNode_clean dirty]
      rfl
  · rw [if_neg (last.not.mpr only), if_neg only]
    exact ⟨_, rfl, represents.setNode id (some { entry with uses := entry.uses - 1 })⟩

/-- `ReferenceVnode` of a node in use. -/
theorem Represents.reference (represents : Represents before sblock groups state cache) (used : cache.uses id ≠ 0) :
    ∃ node, Ext2.nodeOf state id = some (node, cache.view id) ∧ Represents before sblock groups
      (Ext2.setNode state id (some { node with refCount := node.refCount + 1#32 })) (cache.fetch id) := by
  obtain ⟨entry, here, -, -, node⟩ := represents.nodeOf used
  have count : BitVec.ofNat 32 entry.uses + 1#32 = BitVec.ofNat 32 (entry.uses + 1) := by
    rw [← BitVec.ofNat_add]
  refine ⟨_, node, ?_⟩
  have next := represents.setNode id (some { entry with uses := entry.uses + 1 })
  rw [Option.map_some, entryNode, ← count] at next
  rw [WriteBackCache.fetch, here, Option.getD_some]
  exact next

/-- A node that is put is the only thing of its own that matters. -/
theorem putVnode_setNode (state : Ext2State) (request : Nat) (id : Word) (node : Ext2Node) :
    putVnode heap (privdataOf sblock) (Ext2.setNode state id (some node)) request id node =
      putVnode heap (privdataOf sblock) state request id node := by
  have again (state : Ext2State) (other : Option Ext2Node) :
      Ext2.setNode (Ext2.setNode state id (some node)) id other = Ext2.setNode state id other := by
    simp only [Ext2.setNode, Function.update_idem]
  obtain ⟨refCount, privdata, dirty⟩ := node
  rw [putVnode, putVnode]
  split
  · cases privdata with
    | none => exact congrArg some (again _ _)
    | some inode =>
      by_cases changed : dirty = true
      · rw [closeVNode_dirty changed, closeVNode_dirty changed, Option.map_map, Option.map_map]
        congr 1
        funext disk
        exact again { state with disk := disk } none
      · rw [closeVNode_clean changed, closeVNode_clean changed]
        exact congrArg some (again _ _)
  · exact congrArg some (again _ _)

/-- The end of `Unlink`: the node is used once more, changed, and put. -/
theorem Represents.unlink (represents : Represents before sblock groups state cache) (geometry : Geometry sblock)
    (granted : ∀ n, heap.grants n = true) (request : Nat) (usable : Usable sblock groups id)
    (few : cache.uses id + 1 < 2 ^ 32) :
    ∃ state', unlinkInode heap (privdataOf sblock) state request id = some (0, state') ∧
      Represents before sblock groups state' (((cache.fetch id).change id Ext2Inode.unlinked).release id) := by
  obtain ⟨fetched, got, there⟩ := represents.get geometry granted request usable
  have entry : (cache.fetch id).cached id =
      some ⟨cache.view id, (cache.cached id).elim false CacheEntry.dirty, cache.uses id + 1⟩ := by
    rw [WriteBackCache.fetch, WriteBackCache.cached_setEntry, if_pos rfl, WriteBackCache.view, WriteBackCache.uses]
    cases cache.cached id <;> rfl
  have changed := there.setNode id (some ⟨(cache.view id).unlinked, true, cache.uses id + 1⟩)
  have same : (cache.fetch id).change id Ext2Inode.unlinked =
      (cache.fetch id).setEntry id (some ⟨(cache.view id).unlinked, true, cache.uses id + 1⟩) := by
    rw [WriteBackCache.change, entry]
    rfl
  rw [← same] at changed
  have cached : ((cache.fetch id).change id Ext2Inode.unlinked).cached id =
      some ⟨(cache.view id).unlinked, true, cache.uses id + 1⟩ := by
    rw [same, WriteBackCache.cached_setEntry, if_pos rfl]
  obtain ⟨state', put, after⟩ := changed.put geometry granted (request + 3) usable cached (Nat.succ_pos _) few
  rw [Option.map_some, putVnode_setNode] at put
  refine ⟨state', ?_, after⟩
  rw [unlinkInode, got, Option.bind_some]
  exact congrArg (Option.map _) put

/-- After so many calls the device and the nodes are as the attributes say. -/
structure Holds (before : Disk) (sblock : Ext2SuperBlock) (groups n : Nat) (state : Ext2State) (files : FileAttributes)
    (cache : WriteBackCache Word Ext2Inode) : Prop where
  represents : Represents before sblock groups state cache
  consistent : cache.Consistent
  uses : files.uses = cache.uses
  few : ∀ id, cache.uses id ≤ n
  stat : ∀ id, Usable sblock groups id → files.stat id = Ext2.stat (privdataOf sblock) id (cache.view id)
  rest : ∀ id, Usable sblock groups id → (inodeOnDisk before sblock id).KeepsRest (cache.view id)

variable {n : Nat} {files : FileAttributes} {state' : Ext2State} {cache' : WriteBackCache Word Ext2Inode}

/-- A call that uses a file more or less often. -/
theorem Holds.use (holds : Holds before sblock groups n state files cache)
    (represents : Represents before sblock groups state' cache') (consistent : cache'.Consistent)
    (view : cache'.view = cache.view) {count : Nat} (uses : cache'.uses = Function.update cache.uses id count)
    (few : count ≤ n + 1) : Holds before sblock groups (n + 1) state' (files.use id count) cache' := by
  refine ⟨represents, consistent, ?_, fun other => ?_, fun other usable => ?_, fun other usable => ?_⟩
  · rw [FileAttributes.use, uses, holds.uses]
  · rw [uses, Function.update_apply]
    split
    · exact few
    · exact (holds.few other).trans (Nat.le_succ n)
  · rw [view]
    exact holds.stat other usable
  · rw [view]
    exact holds.rest other usable

/-- A call that changes the inode of a file. -/
theorem Holds.changed (holds : Holds before sblock groups n state files cache)
    (represents : Represents before sblock groups state' cache') (consistent : cache'.Consistent)
    {inode : Ext2Inode} (view : cache'.view = Function.update cache.view id inode) (uses : cache'.uses = cache.uses)
    {buf : Ext2Stat} (stat : Usable sblock groups id → Ext2.stat (privdataOf sblock) id inode = buf)
    (rest : (cache.view id).KeepsRest inode) :
    Holds before sblock groups (n + 1) state' (files.setStat id buf) cache' := by
  refine ⟨represents, consistent, holds.uses.trans uses.symm, fun other => ?_, fun other usable => ?_,
    fun other usable => ?_⟩
  · rw [uses]
    exact (holds.few other).trans (Nat.le_succ n)
  · rw [FileAttributes.setStat, view]
    by_cases same : other = id
    · subst same
      simp only [Function.update_self]
      exact (stat usable).symm
    · simp only [Function.update_of_ne same]
      exact holds.stat other usable
  · rw [view]
    by_cases same : other = id
    · subst same
      rw [Function.update_self]
      exact (holds.rest other usable).trans rest
    · rw [Function.update_of_ne same]
      exact holds.rest other usable

theorem Holds.change (holds : Holds before sblock groups n state files cache) (used : files.uses id ≠ 0)
    {f : Ext2Inode → Ext2Inode} {buf : Ext2Stat}
    (stat : Usable sblock groups id → Ext2.stat (privdataOf sblock) id (f (cache.view id)) = buf)
    (rest : (cache.view id).KeepsRest (f (cache.view id))) :
    ∃ state' cache', changeNode state id f = some (.ret 0, state') ∧
      Holds before sblock groups (n + 1) state' (files.setStat id buf) cache' := by
  rw [holds.uses] at used
  obtain ⟨state', done, represents⟩ := holds.represents.change used f
  exact ⟨state', _, done, holds.changed represents (holds.consistent.change used f)
    (WriteBackCache.view_change used f) (WriteBackCache.uses_change cache id f) stat rest⟩

theorem Holds.unchanged (holds : Holds before sblock groups n state files cache) :
    Holds before sblock groups (n + 1) state files cache :=
  ⟨holds.represents, holds.consistent, holds.uses, fun other => (holds.few other).trans (Nat.le_succ n), holds.stat,
    holds.rest⟩

theorem Holds.step_get (holds : Holds before sblock groups n state files cache) (geometry : Geometry sblock)
    (granted : ∀ n, heap.grants n = true) (request : Nat) (usable : Usable sblock groups id) :
    ∃ state' cache', Ext2.step heap (privdataOf sblock) request state (.get id) = some (.ret 0, state') ∧
      Holds before sblock groups (n + 1) state' (files.use id (files.uses id + 1)) cache' := by
  obtain ⟨state', got, represents⟩ := holds.represents.get geometry granted request usable
  refine ⟨state', cache.fetch id, ?_, ?_⟩
  · rw [Ext2.step, got]
    rfl
  · rw [holds.uses]
    exact holds.use represents (holds.consistent.fetch id) (WriteBackCache.view_fetch cache id)
      (WriteBackCache.uses_fetch cache id) (Nat.succ_le_succ (holds.few id))

theorem Holds.step_reference (holds : Holds before sblock groups n state files cache) (used : files.uses id ≠ 0) :
    ∃ state' cache', Ext2.step heap (privdataOf sblock) request state (.reference id) = some (.ret 0, state') ∧
      Holds before sblock groups (n + 1) state' (files.use id (files.uses id + 1)) cache' := by
  rw [holds.uses] at used ⊢
  obtain ⟨node, found, represents⟩ := holds.represents.reference used
  exact ⟨_, cache.fetch id, congrArg (Option.map _) found,
    holds.use represents (holds.consistent.fetch id) (WriteBackCache.view_fetch cache id)
      (WriteBackCache.uses_fetch cache id) (Nat.succ_le_succ (holds.few id))⟩

theorem Holds.step_put (holds : Holds before sblock groups n state files cache) (geometry : Geometry sblock)
    (granted : ∀ n, heap.grants n = true) (request : Nat) (short : n + 1 < 2 ^ 32) (usable : Usable sblock groups id)
    (used : files.uses id ≠ 0) :
    ∃ state' cache', Ext2.step heap (privdataOf sblock) request state (.put id) = some (.ret 0, state') ∧
      Holds before sblock groups (n + 1) state' (files.use id (files.uses id - 1)) cache' := by
  rw [holds.uses] at used ⊢
  obtain ⟨entry, here, count, -, found⟩ := holds.represents.nodeOf used
  have few := holds.few id
  obtain ⟨state', written, represents⟩ :=
    holds.represents.put geometry granted request usable here (by omega) (by omega)
  refine ⟨state', cache.release id, ?_, ?_⟩
  · rw [Ext2.step, found, Option.bind_some]
    exact congrArg (Option.map _) written
  · exact holds.use represents (holds.consistent.release used) (holds.consistent.view_release used)
      (WriteBackCache.uses_release used) (by omega)

/-- The end of `Unlink` takes the node and gives it back, with one link less. -/
theorem Holds.step_unlink (holds : Holds before sblock groups n state files cache) (geometry : Geometry sblock)
    (granted : ∀ n, heap.grants n = true) (request : Nat) (short : n + 1 < 2 ^ 32) (usable : Usable sblock groups id) :
    ∃ state' cache', Ext2.step heap (privdataOf sblock) request state (.unlink id) = some (.ret 0, state') ∧
      Holds before sblock groups (n + 1) state'
        (files.setStat id { files.stat id with stNlink := kept ((files.stat id).stNlink - 1#32) }) cache' := by
  have few := holds.few id
  obtain ⟨state', unlinked, represents⟩ := holds.represents.unlink geometry granted request usable (by omega)
  have fetched : (cache.fetch id).uses id ≠ 0 := by
    rw [WriteBackCache.uses_fetch, Function.update_self]
    exact Nat.succ_ne_zero _
  have used : ((cache.fetch id).change id Ext2Inode.unlinked).uses id ≠ 0 := by
    rw [WriteBackCache.uses_change]
    exact fetched
  have consistent := (holds.consistent.fetch id).change fetched Ext2Inode.unlinked
  have view : (((cache.fetch id).change id Ext2Inode.unlinked).release id).view =
      Function.update cache.view id (cache.view id).unlinked := by
    rw [consistent.view_release used, WriteBackCache.view_change fetched, WriteBackCache.view_fetch]
  refine ⟨state', _, ?_, holds.changed represents (consistent.release used) view ?_
    (fun usable => by rw [stat_unlinked, holds.stat id usable]) keepsRest_unlinked⟩
  · rw [Ext2.step, unlinked]
    rfl
  · rw [WriteBackCache.uses_release used, WriteBackCache.uses_change, WriteBackCache.uses_fetch, Function.update_self,
      Function.update_idem, Nat.add_sub_cancel, Function.update_eq_self]

/-- A file is in use where a call on its attributes has a result. -/
theorem inUse_of_step {result : InodeReply × FileAttributes} {reply : InodeReply} {files' : FileAttributes}
    (taken : (if files.uses id = 0 then none else some result) = some (reply, files')) :
    files.uses id ≠ 0 ∧ result = (reply, files') := by
  split at taken
  · cases taken
  · exact ⟨‹_›, Option.some.inj taken⟩

/-- Each call returns what it returns on the attributes, and keeps the cache. -/
theorem Holds.step (holds : Holds before sblock groups n state files cache) (geometry : Geometry sblock)
    (granted : ∀ n, heap.grants n = true) (request : Nat) (short : n + 1 < 2 ^ 32) {call : InodeCall}
    (usable : Usable sblock groups call.id) {reply : InodeReply} {files' : FileAttributes}
    (asked : files.step call = some (reply, files')) :
    ∃ state' cache', step heap (privdataOf sblock) request state call = some (reply, state') ∧
      Holds before sblock groups (n + 1) state' files' cache' := by
  cases call with
  | get id =>
    cases asked
    exact holds.step_get geometry granted request usable
  | reference id =>
    obtain ⟨used, same⟩ := inUse_of_step asked
    cases same
    exact holds.step_reference used
  | put id =>
    obtain ⟨used, same⟩ := inUse_of_step asked
    cases same
    exact holds.step_put geometry granted request short usable used
  | stat id =>
    change Usable sblock groups id at usable
    obtain ⟨used, same⟩ := inUse_of_step asked
    cases same
    rw [holds.uses] at used
    obtain ⟨entry, -, -, -, found⟩ := holds.represents.nodeOf used
    refine ⟨state, cache, ?_, holds.unchanged⟩
    rw [Ext2.step, found, Option.map_some, holds.stat id usable]
  | access id aMode uid gid =>
    change Usable sblock groups id at usable
    obtain ⟨used, same⟩ := inUse_of_step asked
    cases same
    rw [holds.uses] at used
    obtain ⟨entry, -, -, -, found⟩ := holds.represents.nodeOf used
    refine ⟨state, cache, ?_, holds.unchanged⟩
    rw [Ext2.step, found, Option.map_some, holds.stat id usable, ← access_eq]
  | chmod id mode =>
    obtain ⟨used, same⟩ := inUse_of_step asked
    cases same
    exact holds.change used (fun usable => by rw [stat_chmod, holds.stat id usable]) (keepsRest_chmod mode)
  | chown id uid gid =>
    obtain ⟨used, same⟩ := inUse_of_step asked
    cases same
    exact holds.change used (fun usable => by rw [stat_chown, holds.stat id usable]) (keepsRest_chown uid gid)
  | utime id actime modtime =>
    obtain ⟨used, same⟩ := inUse_of_step asked
    cases same
    exact holds.change used (fun usable => by rw [stat_utime, holds.stat id usable]) (keepsRest_utime actime modtime)
  | unlink id =>
    cases asked
    exact holds.step_unlink geometry granted request short usable

theorem Holds.run (geometry : Geometry sblock) (granted : ∀ n, heap.grants n = true) (calls : List (Nat × InodeCall))
    (usable : ∀ call ∈ calls, Usable sblock groups call.2.id) {replies : List InodeReply} {files' : FileAttributes}
    (holds : Holds before sblock groups n state files cache) (short : n + calls.length < 2 ^ 32)
    (asked : files.run (calls.map Prod.snd) = some (replies, files')) :
    ∃ state' cache' n', run heap (privdataOf sblock) state calls = some (replies, state') ∧
      Holds before sblock groups n' state' files' cache' := by
  induction calls generalizing n state files cache replies with
  | nil =>
    cases asked
    exact ⟨state, cache, n, rfl, holds⟩
  | cons call rest ih =>
    rw [List.map_cons, FileAttributes.run] at asked
    obtain ⟨⟨reply, next⟩, first, others⟩ := Option.bind_eq_some_iff.mp asked
    obtain ⟨⟨replies', files₂⟩, ran, same⟩ := Option.map_eq_some_iff.mp others
    cases same
    rw [List.length_cons] at short
    obtain ⟨state₁, cache₁, stepped, holds₁⟩ := holds.step geometry granted call.1 (by omega)
      (usable call List.mem_cons_self) first
    obtain ⟨state₂, cache₂, n₂, ran', holds₂⟩ := ih (fun other member => usable other (List.mem_cons_of_mem _ member))
      holds₁ (by omega) ran
    refine ⟨state₂, cache₂, n₂, ?_, holds₂⟩
    rw [Ext2.run, stepped, Option.bind_some]
    exact congrArg (Option.map _) ran'

/-- The attributes of the files on a device, none of them in use. -/
def attributesOf (disk : Disk) (sblock : Ext2SuperBlock) : FileAttributes :=
  ⟨fun id => stat (privdataOf sblock) id (inodeOnDisk disk sblock id), fun _ => 0⟩

theorem holds_start (wellFormed : WellFormed before sblock groups) :
    Holds before sblock groups 0 ⟨before, fun _ => none⟩ (attributesOf before sblock)
      ⟨inodeOnDisk before sblock, fun _ => none⟩ where
  represents := ⟨wellFormed, fun _ _ => rfl, fun _ => rfl, fun _ _ => rfl, fun _ _ => rfl⟩
  consistent := WriteBackCache.consistent_empty fun _ => rfl
  uses := rfl
  few _ := Nat.le_refl 0
  stat _ _ := rfl
  rest _ _ _ _ := rfl

/-- **Attributes of files.** However `stat`, `chmod`, `chown`, `utime`, `unlink` and the taking and giving back of nodes
interleave on a device, each call returns what it returns on attributes that are changed at once. Behind the run each
file that nobody uses has its attributes on the device, and everything else on the device is as it was. The heap grants
what is asked for: without memory `writeINode` returns 0 and writes nothing. -/
theorem attributes_kept (wellFormed : WellFormed before sblock groups) (geometry : Geometry sblock)
    (granted : ∀ n, heap.grants n = true) (calls : List (Nat × InodeCall))
    (usable : ∀ call ∈ calls, Usable sblock groups call.2.id) (short : calls.length < 2 ^ 32)
    {replies : List InodeReply} {files : FileAttributes}
    (asked : (attributesOf before sblock).run (calls.map Prod.snd) = some (replies, files)) :
    ∃ state, run heap (privdataOf sblock) ⟨before, fun _ => none⟩ calls = some (replies, state) ∧
      WellFormed state.disk sblock groups ∧
      (∀ id, Usable sblock groups id → files.uses id = 0 →
        (attributesOf state.disk sblock).stat id = files.stat id) ∧
      (∀ id, Usable sblock groups id → files.uses id = 0 →
        (inodeOnDisk before sblock id).KeepsRest (inodeOnDisk state.disk sblock id)) ∧
      ∀ address, (∀ id, Usable sblock groups id → address < inodeAddress before sblock id ∨
        inodeAddress before sblock id + 128 ≤ address) → state.disk address = before address := by
  obtain ⟨state, cache, n, ran, holds⟩ := (holds_start wellFormed).run geometry granted calls usable (by omega) asked
  have stored (id : Word) (found : Usable sblock groups id) (unused : files.uses id = 0) :
      inodeOnDisk state.disk sblock id = cache.view id := by
    rw [holds.uses] at unused
    rw [holds.represents.stored id found]
    exact (WriteBackCache.stored_of_unused holds.consistent unused).2
  refine ⟨state, ran, holds.represents.wellFormed, fun id found unused => ?_, fun id found unused => ?_,
    holds.represents.outside⟩
  · rw [holds.stat id found, ← stored id found unused]
    rfl
  · rw [stored id found unused]
    exact holds.rest id found

end Simulation

/-- A file whose mode and times are changed, with another user of it, that is asked for again. -/
def changedTwice : List (Nat × InodeCall) :=
  [(0, .get 2#32), (3, .chmod 2#32 0x81A4#32), (3, .get 2#32), (3, .put 2#32), (3, .utime 2#32 5#32 6#32),
    (3, .put 2#32), (5, .get 2#32), (8, .stat 2#32), (8, .put 2#32)]

theorem smallDisk_attributes : ∃ replies files,
    (attributesOf (smallDisk 128#16) (smallSuperBlock 128#16)).run (changedTwice.map Prod.snd) = some (replies, files) ∧
    ∃ state, run (uniformHeap 0#8) (privdataOf (smallSuperBlock 128#16)) ⟨smallDisk 128#16, fun _ => none⟩
        changedTwice = some (replies, state) ∧
      WellFormed state.disk (smallSuperBlock 128#16) 1 ∧
      (∀ id, Usable (smallSuperBlock 128#16) 1 id → files.uses id = 0 →
        (attributesOf state.disk (smallSuperBlock 128#16)).stat id = files.stat id) ∧
      (∀ id, Usable (smallSuperBlock 128#16) 1 id → files.uses id = 0 →
        (inodeOnDisk (smallDisk 128#16) (smallSuperBlock 128#16) id).KeepsRest
          (inodeOnDisk state.disk (smallSuperBlock 128#16) id)) ∧
      ∀ address, (∀ id, Usable (smallSuperBlock 128#16) 1 id →
        address < inodeAddress (smallDisk 128#16) (smallSuperBlock 128#16) id ∨
          inodeAddress (smallDisk 128#16) (smallSuperBlock 128#16) id + 128 ≤ address) →
        state.disk address = smallDisk 128#16 address := by
  have wellFormed : WellFormed (smallDisk 128#16) (smallSuperBlock 128#16) 1 := by
    refine ⟨by decide, fun group below => ?_, fun group below other belowOther different => ?_, fun group below => ?_⟩
    · rw [Nat.lt_one_iff.mp below]
      decide
    · omega
    · rw [Nat.lt_one_iff.mp below]
      decide
  refine ⟨_, _, rfl, attributes_kept wellFormed ⟨rfl, by decide, by decide⟩ (fun _ => rfl) changedTwice
    (fun call member => ?_) (by decide) rfl⟩
  have two : call.2.id = 2#32 := by
    revert call
    decide
  rw [two]
  exact ⟨by decide, by decide, by decide⟩

end Ext2
end FluxOS
