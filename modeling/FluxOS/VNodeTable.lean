import FluxOS.VNodeManager

/-! The table of nodes over whole runs: whatever is got, referenced and put in which
order, the table holds exactly the nodes in use, each under its own id. -/
namespace FluxOS.VNodeManager
open Words

/-- What the calls so far say about one node. -/
def Accounted : Option VNodeObject → (gets references puts closes : Nat) → Prop
  | none, gets, references, puts, closes => gets = 0 ∧ references = 0 ∧ puts = 0 ∧ closes = 0
  | some vnode, gets, references, puts, closes =>
    vnode.refCount.toNat + puts = gets + references ∧
      if vnode.freed then vnode.refCount = 0#32 ∧ closes = if vnode.mounted then 1 else 0
      else 0 < vnode.refCount.toNat ∧ closes = 0

/-- The table holds the live nodes, and the calls account for every node. `calls` bounds them all. -/
structure Sound (s : VNodeManager) (calls : Nat) : Prop where
  placed : QHash.Placed qHash s.vNodes
  inserted : s.vNodes.mSize.toNat ≤ calls
  listed : ∀ vid node, (vid, node) ∈ s.vNodes.nodes ↔ ∃ vnode, s.load node = some vnode ∧ vnode.vnid = vid
  accounted : ∀ node, Accounted (s.objects node) (s.gets node) (s.references node) (s.puts node) (s.closes node)
  bounded : ∀ node, s.gets node + s.references node ≤ calls
  fresh : ∀ node, s.made ≤ node → s.objects node = none

/-- Nothing about another node changes. -/
def SameElsewhere (s s' : VNodeManager) (node : VNode) : Prop :=
  ∀ other, other ≠ node → s'.objects other = s.objects other ∧ s'.gets other = s.gets other ∧
    s'.references other = s.references other ∧ s'.puts other = s.puts other ∧ s'.closes other = s.closes other

section Nodes

variable {s s' : VNodeManager} {node : VNode} {vnode : VNodeObject} {calls calls' : Nat}

theorem load_eq_some_iff : s.load node = some vnode ↔ s.objects node = some vnode ∧ vnode.freed = false := by
  unfold load
  rw [Option.filter_eq_some_iff, Bool.not_eq_true']

theorem accounted_live {gets references puts closes : Nat} (alive : vnode.freed = false) :
    Accounted (some vnode) gets references puts closes ↔
      vnode.refCount.toNat + puts = gets + references ∧ 0 < vnode.refCount.toNat ∧ closes = 0 := by
  simp [Accounted, alive]

theorem Sound.live (sound : Sound s calls) (loaded : s.load node = some vnode) :
    vnode.refCount.toNat + s.puts node = s.gets node + s.references node ∧ 0 < vnode.refCount.toNat ∧
      s.closes node = 0 := by
  obtain ⟨made, alive⟩ := load_eq_some_iff.mp loaded
  have accounted := sound.accounted node
  rw [made] at accounted
  exact (accounted_live alive).mp accounted

/-- Who holds a reference can use the node. -/
theorem Sound.load_of_held (sound : Sound s calls) (held : s.Held node) : ∃ vnode, s.load node = some vnode := by
  have accounted := sound.accounted node
  unfold Held at held
  cases made : s.objects node with
  | none =>
    rw [made] at accounted
    obtain ⟨gets, references, puts, _⟩ := accounted
    omega
  | some vnode =>
    cases alive : vnode.freed with
    | false => exact ⟨vnode, load_eq_some_iff.mpr ⟨made, alive⟩⟩
    | true =>
      rw [made] at accounted
      obtain ⟨counted, rest⟩ := accounted
      rw [alive] at rest
      have none : vnode.refCount.toNat = 0 := by
        rw [rest.1]
        rfl
      omega

/-- A step that touches one node has to account for that node and its place in the table. -/
theorem Sound.touch (sound : Sound s calls) (node : VNode) (more : calls ≤ calls') (same : SameElsewhere s s' node)
    (placed : QHash.Placed qHash s'.vNodes) (inserted : s'.vNodes.mSize.toNat ≤ calls')
    (listed : ∀ vid other, (vid, other) ∈ s'.vNodes.nodes ↔
      if other = node then ∃ vnode, s'.load node = some vnode ∧ vnode.vnid = vid else (vid, other) ∈ s.vNodes.nodes)
    (accounted : Accounted (s'.objects node) (s'.gets node) (s'.references node) (s'.puts node) (s'.closes node))
    (bounded : s'.gets node + s'.references node ≤ calls') (made : s.made ≤ s'.made) (old : node < s'.made) :
    Sound s' calls' where
  placed := placed
  inserted := inserted
  listed vid other := by
    rw [listed]
    split
    · rename_i here
      rw [here]
    · rename_i there
      rw [sound.listed, load, load, (same other there).1]
  accounted other := by
    by_cases here : other = node
    · rw [here]
      exact accounted
    · obtain ⟨objects, gets, references, puts, closes⟩ := same other here
      rw [objects, gets, references, puts, closes]
      exact sound.accounted other
  bounded other := by
    by_cases here : other = node
    · rw [here]
      exact bounded
    · obtain ⟨_, gets, references, _, _⟩ := same other here
      rw [gets, references]
      exact (sound.bounded other).trans more
  fresh other young := by
    have there : other ≠ node := (lt_of_lt_of_le old young).ne'
    rw [(same other there).1]
    exact sound.fresh other (made.trans young)

theorem Sound.made_of_load (sound : Sound s calls) (loaded : s.load node = some vnode) : node < s.made := by
  by_contra young
  obtain ⟨made, _⟩ := load_eq_some_iff.mp loaded
  rw [sound.fresh node (Nat.le_of_not_lt young)] at made
  cases made

/-- The table stays as it is while the node stays live under its id. -/
theorem Sound.listed_again (sound : Sound s calls) (loaded : s.load node = some vnode) {after : VNodeObject}
    (table : s'.vNodes = s.vNodes) (reloaded : s'.load node = some after) (same : after.vnid = vnode.vnid) (vid : VNodeId)
    (other : VNode) : (vid, other) ∈ s'.vNodes.nodes ↔
      if other = node then ∃ vnode, s'.load node = some vnode ∧ vnode.vnid = vid else (vid, other) ∈ s.vNodes.nodes := by
  rw [table]
  split
  · rename_i here
    rw [here, sound.listed, loaded, reloaded]
    constructor
    · rintro ⟨_, found, vnid⟩
      cases found
      exact ⟨after, rfl, same.trans vnid⟩
    · rintro ⟨_, found, vnid⟩
      cases found
      exact ⟨vnode, rfl, same.symm.trans vnid⟩
  · rfl

@[simp] theorem increment_self (count : VNode → Nat) (node : VNode) : increment count node node = count node + 1 :=
  Function.update_self _ _ _

theorem increment_of_ne {other : VNode} (there : other ≠ node) (count : VNode → Nat) :
    increment count node other = count other :=
  Function.update_of_ne there _ _

theorem load_store (s : VNodeManager) (node : VNode) {vnode : VNodeObject} (alive : vnode.freed = false) :
    (s.store node vnode).load node = some vnode :=
  load_eq_some_iff.mpr ⟨Function.update_self _ _ _, alive⟩

/-- One more reference to a live node, by a get or by `referenceVnode`. -/
theorem Sound.countReference (sound : Sound s calls) (few : calls < 2 ^ 29) (loaded : s.load node = some vnode)
    {gets references : VNode → Nat}
    (once : gets node + references node = s.gets node + s.references node + 1)
    (others : ∀ other, other ≠ node → gets other = s.gets other ∧ references other = s.references other) :
    Sound { s.store node { vnode with refCount := vnode.refCount + 1#32 } with gets := gets, references := references }
      (calls + 1) := by
  obtain ⟨counted, positive, unclosed⟩ := sound.live loaded
  obtain ⟨_, alive⟩ := load_eq_some_iff.mp loaded
  have bound := sound.bounded node
  have more := toNat_add_one (w := vnode.refCount) (by omega)
  refine sound.touch node (Nat.le_succ calls) ?_ sound.placed (sound.inserted.trans (Nat.le_succ calls))
    (sound.listed_again loaded rfl (load_store s node alive) rfl) ?_ ?_ le_rfl (sound.made_of_load loaded)
  · intro other there
    exact ⟨Function.update_of_ne there _ _, (others other there).1, (others other there).2, rfl, rfl⟩
  · simp only [store, Function.update_self]
    refine (accounted_live ?_).mpr ⟨?_, ?_, unclosed⟩
    · exact alive
    · simp only [more]
      omega
    · simp only [more]
      exact Nat.succ_pos _
  · simp only
    omega

theorem Sound.referenceVnode (sound : Sound s calls) (few : calls < 2 ^ 29) (loaded : s.load node = some vnode) :
    ∃ s', s.referenceVnode node = some s' ∧ Sound s' (calls + 1) := by
  refine ⟨_, by rw [VNodeManager.referenceVnode, VNodeManager.countReference, loaded]; rfl, ?_⟩
  refine sound.countReference few loaded ?_ fun other there => ⟨rfl, increment_of_ne there _⟩
  rw [increment_self]
  exact (Nat.add_assoc _ _ 1).symm

/-- Getting a node that is in use gives that node. -/
theorem Sound.getVnode_live (sound : Sound s calls) (few : calls < 2 ^ 29) (loaded : s.load node = some vnode) :
    ∀ granted, ∃ s', s.getVnode vnode.vnid granted = some (s', some node) ∧ Sound s' (calls + 1) := by
  intro granted
  have found : s.lookupVnode vnode.vnid = some node :=
    sound.placed.value_eq_some_iff.mpr ((sound.listed _ node).mpr ⟨vnode, loaded, rfl⟩)
  refine ⟨_, by rw [VNodeManager.getVnode, found]; simp only [VNodeManager.countReference, loaded]; rfl, ?_⟩
  refine sound.countReference few loaded ?_ fun other there => ⟨increment_of_ne there _, rfl⟩
  rw [increment_self]
  exact Nat.add_right_comm _ 1 _

/-- Without room for a node the get of an id that is not in use gives none. -/
theorem getVnode_refused {vid : VNodeId} (missing : s.lookupVnode vid = none) :
    s.getVnode vid false = some (s, none) := by
  rw [VNodeManager.getVnode, missing]
  rfl

theorem Sound.more (sound : Sound s calls) (more : calls ≤ calls') : Sound s calls' where
  placed := sound.placed
  inserted := sound.inserted.trans more
  listed := sound.listed
  accounted := sound.accounted
  bounded node := (sound.bounded node).trans more
  fresh := sound.fresh

/-- Getting an id that is not in use makes a node for it. -/
theorem Sound.getVnode_new (sound : Sound s calls) (few : calls < 2 ^ 29) {vid : VNodeId}
    (missing : s.lookupVnode vid = none) :
    ∃ s', s.getVnode vid true = some (s', some s.made) ∧ Sound s' (calls + 1) := by
  have unmade := sound.fresh s.made le_rfl
  have accounted := sound.accounted s.made
  rw [unmade] at accounted
  obtain ⟨gets, references, puts, closes⟩ := accounted
  obtain ⟨placed, members, size⟩ := sound.placed.insert (sound.inserted.trans_lt few) vid s.made
  have unlisted (other : VNode) : (vid, other) ∉ s.vNodes.nodes := fun member => by
    rw [lookupVnode, sound.placed.value_eq_some_iff.mpr member] at missing
    cases missing
  have unloaded (other : VNodeId) : (other, s.made) ∉ s.vNodes.nodes := fun member => by
    obtain ⟨vnode, loaded, _⟩ := (sound.listed other s.made).mp member
    exact absurd (sound.made_of_load loaded) (lt_irrefl _)
  have made : (s.newVnode vid true).1.load s.made = some ⟨vid, 0#32, false, false⟩ :=
    load_eq_some_iff.mpr ⟨Function.update_self _ _ _, rfl⟩
  refine ⟨_, by rw [VNodeManager.getVnode, missing]; simp only [VNodeManager.countReference]; rw [show
    (s.newVnode vid true).2 = some s.made from rfl]; simp only [made]; rfl, ?_⟩
  refine sound.touch s.made (Nat.le_succ calls) ?_ placed (size.trans (Nat.succ_le_succ sound.inserted)) ?_ ?_
    ?_ (Nat.le_succ s.made) (Nat.lt_succ_self s.made)
  · intro other there
    refine ⟨?_, increment_of_ne there _, rfl, rfl, rfl⟩
    exact (Function.update_of_ne there _ _).trans (Function.update_of_ne there _ _)
  · intro vid' other
    apply (members (vid', other)).trans
    have counted := load_store (s.newVnode vid true).1 s.made
      (show (⟨vid, 0#32 + 1#32, false, false⟩ : VNodeObject).freed = false from rfl)
    split
    · rename_i here
      constructor
      · rintro (new | ⟨_, old⟩)
        · cases new
          exact ⟨_, counted, rfl⟩
        · exact absurd (here ▸ old) (unloaded vid')
      · rintro ⟨vnode, loaded, same⟩
        cases counted.symm.trans loaded
        exact .inl (Prod.ext same.symm here)
    · rename_i there
      constructor
      · rintro (new | ⟨_, old⟩)
        · exact absurd (congrArg Prod.snd new) there
        · exact old
      · exact fun old => .inr ⟨fun same => unlisted other (same ▸ old), old⟩
  · simp only [store, Function.update_self, increment_self]
    refine (accounted_live ?_).mpr ⟨?_, ?_, closes⟩
    · rfl
    · show 1 + s.puts s.made = s.gets s.made + 1 + s.references s.made
      omega
    · exact Nat.one_pos
  · simp only [increment_self]
    show s.gets s.made + 1 + s.references s.made ≤ calls + 1
    omega

theorem Sound.setMount (sound : Sound s calls) (loaded : s.load node = some vnode) (mounted : Bool) :
    ∃ s', s.setMount node mounted = some s' ∧ Sound s' calls := by
  obtain ⟨counted, positive, unclosed⟩ := sound.live loaded
  obtain ⟨_, alive⟩ := load_eq_some_iff.mp loaded
  refine ⟨_, by rw [VNodeManager.setMount, loaded]; rfl, ?_⟩
  refine sound.touch node le_rfl (fun other there => ⟨Function.update_of_ne there _ _, rfl, rfl, rfl, rfl⟩) sound.placed
    sound.inserted (sound.listed_again loaded rfl (load_store s node alive) rfl) ?_ (sound.bounded node) le_rfl
    (sound.made_of_load loaded)
  simp only [store, Function.update_self]
  refine (accounted_live ?_).mpr ⟨counted, positive, unclosed⟩
  exact alive

/-- A put that leaves references. -/
theorem Sound.putVnode_more (sound : Sound s calls) (loaded : s.load node = some vnode)
    (more : vnode.refCount - 1#32 ≠ 0#32) : ∃ s', s.putVnode node = some s' ∧ Sound s' (calls + 1) := by
  obtain ⟨counted, positive, unclosed⟩ := sound.live loaded
  obtain ⟨_, alive⟩ := load_eq_some_iff.mp loaded
  have less := toNat_sub_one positive
  refine ⟨_, by rw [VNodeManager.putVnode, loaded]; simp only [Option.map_some, if_neg more]; rfl, ?_⟩
  refine sound.touch node (Nat.le_succ calls) (fun other there => ⟨Function.update_of_ne there _ _, rfl, rfl,
    increment_of_ne there _, rfl⟩) sound.placed (sound.inserted.trans (Nat.le_succ calls))
    (sound.listed_again loaded rfl (load_store s node alive) rfl) ?_ ((sound.bounded node).trans (Nat.le_succ calls)) le_rfl
    (sound.made_of_load loaded)
  simp only [store, Function.update_self, increment_self]
  refine (accounted_live ?_).mpr ⟨?_, ?_, unclosed⟩
  · exact alive
  · simp only [less]
    omega
  · simp only
    by_contra none
    exact more (BitVec.eq_of_toNat_eq (Nat.eq_zero_of_not_pos none))

/-- The put of the last reference takes the node out of the table, closes it if it is mounted, and frees it. -/
theorem Sound.putVnode_last (sound : Sound s calls) (loaded : s.load node = some vnode)
    (last : vnode.refCount - 1#32 = 0#32) : ∃ s', s.putVnode node = some s' ∧ Sound s' (calls + 1) := by
  obtain ⟨counted, positive, unclosed⟩ := sound.live loaded
  have less := toNat_sub_one positive
  rw [last] at less
  obtain ⟨placed, members⟩ := sound.placed.remove vnode.vnid
  have result : s.putVnode node = some { s with
      vNodes := s.vNodes.remove qHash vnode.vnid
      objects := Function.update s.objects node (some { vnode with refCount := vnode.refCount - 1#32, freed := true })
      puts := increment s.puts node
      closes := if vnode.mounted then increment s.closes node else s.closes } := by
    rw [VNodeManager.putVnode, loaded]
    simp only [Option.map_some, if_pos last]
    cases vnode.mounted <;> simp [store, Function.update_idem]
  refine ⟨_, result, ?_⟩
  refine sound.touch node (Nat.le_succ calls) ?_ placed (sound.inserted.trans (Nat.le_succ calls)) ?_ ?_
    ((sound.bounded node).trans (Nat.le_succ calls)) le_rfl (sound.made_of_load loaded)
  · intro other there
    refine ⟨Function.update_of_ne there _ _, rfl, rfl, increment_of_ne there _, ?_⟩
    cases vnode.mounted with
    | false => rfl
    | true => exact increment_of_ne there _
  · intro vid other
    apply (members (vid, other)).trans
    split
    · rename_i here
      rw [here]
      refine iff_of_false ?_ ?_
      · rintro ⟨different, listed⟩
        obtain ⟨vnode', loaded', same⟩ := (sound.listed vid node).mp listed
        cases loaded.symm.trans loaded'
        exact different same.symm
      · rintro ⟨vnode', loaded', _⟩
        obtain ⟨found, alive⟩ := load_eq_some_iff.mp loaded'
        cases (Function.update_self node _ s.objects).symm.trans found
        cases alive
    · rename_i there
      refine and_iff_right_of_imp fun listed same => there ?_
      have first := sound.placed.value_eq_some_iff.mpr listed
      have second := sound.placed.value_eq_some_iff.mpr ((sound.listed _ node).mpr ⟨vnode, loaded, rfl⟩)
      rw [show vid = vnode.vnid from same, second] at first
      exact (Option.some.inj first).symm
  · simp only [Function.update_self, increment_self]
    refine ⟨?_, ?_⟩
    · simp only [last]
      have zero : (0#32).toNat = 0 := rfl
      omega
    · simp only [if_true, last, true_and]
      cases vnode.mounted with
      | false => exact unclosed
      | true => exact (increment_self s.closes node).trans (by rw [unclosed]; rfl)

theorem Sound.step {action : Action} (sound : Sound s calls) (few : calls < 2 ^ 29) (allowed : s.Allowed action) :
    ∃ s', s.step action = some s' ∧ Sound s' (calls + action.calls) := by
  cases action with
  | getVnode vid granted =>
    cases found : s.lookupVnode vid with
    | none =>
      cases granted with
      | false => exact ⟨s, by rw [VNodeManager.step, getVnode_refused found]; rfl, sound.more (Nat.le_succ calls)⟩
      | true =>
        obtain ⟨s', result, after⟩ := sound.getVnode_new few found
        exact ⟨s', by rw [VNodeManager.step, result]; rfl, after⟩
    | some node =>
      obtain ⟨vnode, loaded, rfl⟩ := (sound.listed vid node).mp (sound.placed.value_eq_some_iff.mp found)
      obtain ⟨s', result, after⟩ := sound.getVnode_live few loaded granted
      exact ⟨s', by rw [VNodeManager.step, result]; rfl, after⟩
  | referenceVnode node =>
    obtain ⟨vnode, loaded⟩ := sound.load_of_held allowed
    exact sound.referenceVnode few loaded
  | putVnode node =>
    obtain ⟨vnode, loaded⟩ := sound.load_of_held allowed
    by_cases last : vnode.refCount - 1#32 = 0#32
    · exact sound.putVnode_last loaded last
    · exact sound.putVnode_more loaded last
  | setMount node mounted =>
    obtain ⟨vnode, loaded⟩ := sound.load_of_held allowed
    exact sound.setMount loaded mounted

theorem placed_start : QHash.Placed qHash init.vNodes ∧ init.vNodes.nodes = [] := QHash.placed_init (by decide)

theorem sound_init : Sound init 0 where
  placed := placed_start.1
  inserted := le_rfl
  listed vid node := by
    refine iff_of_false ?_ ?_
    · intro listed
      rw [show init.vNodes.nodes = [] from placed_start.2] at listed
      cases listed
    · rintro ⟨vnode, loaded, _⟩
      cases loaded
  accounted _ := ⟨rfl, rfl, rfl, rfl⟩
  bounded _ := le_rfl
  fresh _ _ := rfl

theorem Run.sound (run : Run calls s) (few : calls < 2 ^ 29) : Sound s calls := by
  induction run with
  | start => exact sound_init
  | step action before allowed result reached =>
    have earlier := (Nat.le_add_right _ _).trans_lt few
    obtain ⟨s', same, after⟩ := (reached earlier).step earlier allowed
    cases result.symm.trans same
    exact after

end Nodes

/-- After fewer than `2 ^ 29` calls the table holds exactly the nodes with references, one for each id, and
a get of the id gives that node; every count is what was got and referenced less what was put; `closevnode`
was called once for each mounted node that has come to 0, and for no other; and the next call has a result. -/
theorem vnode_table_exact {s : VNodeManager} {calls : Nat} (run : Run calls s) (few : calls < 2 ^ 29) :
    (s.vNodes.nodes.map Prod.fst).Nodup ∧
    (∀ vid node, (vid, node) ∈ s.vNodes.nodes ↔
      ∃ vnode, s.load node = some vnode ∧ vnode.vnid = vid ∧ 0 < vnode.refCount.toNat) ∧
    (∀ node vnode granted, s.load node = some vnode → ∃ s', s.getVnode vnode.vnid granted = some (s', some node)) ∧
    (∀ node vnode, s.objects node = some vnode →
      vnode.refCount.toNat + s.puts node = s.gets node + s.references node ∧
      s.closes node = if vnode.refCount = 0#32 ∧ vnode.mounted then 1 else 0) ∧
    ∀ action, s.Allowed action → ∃ s', s.step action = some s' := by
  have sound := run.sound few
  refine ⟨sound.placed.nodup_keys, fun vid node => ?_, fun node vnode granted loaded => ?_, fun node vnode made => ?_,
    fun action allowed => ?_⟩
  · rw [sound.listed]
    constructor
    · rintro ⟨vnode, loaded, same⟩
      exact ⟨vnode, loaded, same, (sound.live loaded).2.1⟩
    · rintro ⟨vnode, loaded, same, _⟩
      exact ⟨vnode, loaded, same⟩
  · obtain ⟨s', result, _⟩ := sound.getVnode_live few loaded granted
    exact ⟨s', result⟩
  · have accounted := sound.accounted node
    rw [made] at accounted
    obtain ⟨counted, rest⟩ := accounted
    refine ⟨counted, ?_⟩
    split at rest
    · obtain ⟨zero, closes⟩ := rest
      simpa only [zero, true_and] using closes
    · obtain ⟨positive, unclosed⟩ := rest
      have more : ¬(vnode.refCount = 0#32 ∧ vnode.mounted = true) := fun both => by
        rw [both.1] at positive
        exact absurd positive (lt_irrefl 0)
      rw [unclosed, if_neg more]
  · obtain ⟨s', result, _⟩ := sound.step few allowed
    exact ⟨s', result⟩

/-- Two nodes of one chain, and a third that gets no memory; the first is put until it is closed. -/
theorem shared_chain_run : ∃ s, Run 6 s ∧ s.closes 0 = 1 ∧
    (s.vNodes.nodes.map Prod.fst).Nodup ∧ s.vNodes.nodes = [(⟨1#32, 4#64, by decide⟩, 1)] := by
  have first : Run 1 _ := .step (.getVnode ⟨1#32, 2#64, by decide⟩ true) .start trivial rfl
  have second : Run 2 _ := .step (.getVnode ⟨1#32, 4#64, by decide⟩ true) first trivial rfl
  have refused : Run 3 _ := .step (.getVnode ⟨1#32, 6#64, by decide⟩ false) second trivial rfl
  have mounted : Run 3 _ := .step (.setMount 0 true) refused Nat.one_pos rfl
  have third : Run 4 _ := .step (.referenceVnode 0) mounted Nat.one_pos rfl
  have fourth : Run 5 _ := .step (.putVnode 0) third Nat.two_pos rfl
  have fifth : Run 6 _ := .step (.putVnode 0) fourth Nat.one_lt_two rfl
  exact ⟨_, fifth, rfl, (vnode_table_exact fifth (by decide)).1, rfl⟩

end FluxOS.VNodeManager
