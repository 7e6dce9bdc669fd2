import GcLite.Admission
import GcLite.PartitionIds
import GcLite.StopTheWorld
import GcLite.WeakInvariant

/-!
# The capacity of the weak table

The table never gets shorter, and the test for a full one looks at its length, before the search for
a slot to use again. As a slot is pushed only when all are in use, the length is the largest number
of nodes that have ever owned a slot at the same time. So a heap that has once had as many owners as
there are indices hands out no further slot, however many of them have died since.

## Main definitions

* `GcHeap.weakOwners` — the live nodes that own a slot
* `WeakPeak`, `PeakStep` — a heap with the largest number of owners so far
* `GcHeap.CapacityLaw` — taking a handle fails only if every index is in use
* `GcHeap.Filled` — a heap whose live nodes all own a slot

## Main results

* `length_weakOwners` — there are as many owners as slots in use
* `Step.length_weakSlots` — the table grows only when every slot is in use
* `weak_capacity`
* `downgrade_exhausted` — a panic without a single owner
-/

namespace GcLite

open Spans Transition

namespace GcHeap

/-- The live nodes that own a slot. -/
def weakOwners (h : GcHeap) : List NodePtr := h.allNodes.filter fun n => !(h.head n).weakId.isNull

/-- The nodes in the slots. -/
def slotNodes (h : GcHeap) : List NodePtr := h.weakSlots.filterMap WeakSlot.node

/-- Taking a handle of a node fails only if every index of the slot space is in use. -/
structure CapacityLaw (h : GcHeap) (n : NodePtr) : Prop where
  /-- With an index left, taking a handle succeeds. -/
  succeeds : h.weakOwners.length < 2 ^ 24 - 1 → (h.downgrade n).isSome
  /-- It panics only when no index is left. -/
  panics : h.downgrade n = none → 2 ^ 24 - 1 ≤ h.weakOwners.length

variable {h h' : GcHeap} {n m : NodePtr} {w : GcWeakRawId}

/-! ### Owners and slots -/

theorem mem_weakOwners : n ∈ h.weakOwners ↔ h.Live n ∧ (h.head n).weakId.isNull = false := by
  rw [weakOwners, List.mem_filter, mem_allNodes, Bool.not_eq_true']

theorem mem_slotNodes : n ∈ h.slotNodes ↔ ∃ i v : ℕ, h.weakSlots[i]? = some ⟨v, some n⟩ := by
  rw [slotNodes, List.mem_filterMap]
  constructor
  · rintro ⟨⟨v, node⟩, hmem, hnode⟩
    obtain ⟨i, hi⟩ := List.getElem?_of_mem hmem
    obtain rfl : node = some n := hnode
    exact ⟨i, v, hi⟩
  · rintro ⟨i, v, hi⟩
    exact ⟨_, List.mem_of_getElem? hi, rfl⟩

/-- No node is in two slots. -/
theorem WeakInv.nodup_slotNodes (hinv : h.WeakInv) : h.slotNodes.Nodup := by
  have hindex : ∀ {i : ℕ} (hi : i < h.weakSlots.length) {n}, h.weakSlots[i].node = some n →
      (h.head n).weakId.index = i := by
    intro i hi n hnode
    refine (hinv.owner i h.weakSlots[i].version n ?_).2.2.1
    rw [List.getElem?_eq_getElem hi, ← hnode]
  rw [List.Nodup, slotNodes, List.pairwise_filterMap, List.pairwise_iff_getElem]
  rintro i j hi hj hij n hn m hm rfl
  have := hindex hi hn
  have := hindex hj hm
  omega

/-- The owners are the nodes in the slots. -/
theorem WeakInv.weakOwners_perm (hinv : h.WeakInv) (hmem : h.MemInv) :
    h.weakOwners.Perm h.slotNodes := by
  have hnodup : h.weakOwners.Nodup := hmem.nodup_allNodes.filter _
  refine (List.perm_ext_iff_of_nodup hnodup hinv.nodup_slotNodes).mpr fun n => ?_
  rw [mem_weakOwners, mem_slotNodes]
  constructor
  · rintro ⟨hn, hnull⟩
    exact ⟨_, _, hinv.slot n hn hnull⟩
  · rintro ⟨i, v, hslot⟩
    obtain ⟨hn, hnull, -⟩ := hinv.owner i v n hslot
    exact ⟨hn, hnull⟩

/-- There are as many owners as slots in use. -/
theorem WeakInv.length_weakOwners (hinv : h.WeakInv) (hmem : h.MemInv) :
    h.weakOwners.length = h.weakSlots.countP fun slot => slot.node.isSome := by
  rw [(hinv.weakOwners_perm hmem).length_eq, slotNodes, List.length_filterMap_eq_countP]

theorem WeakInv.length_weakOwners_le (hinv : h.WeakInv) (hmem : h.MemInv) :
    h.weakOwners.length ≤ h.weakSlots.length :=
  hinv.length_weakOwners hmem ▸ List.countP_le_length

/-! ### The length of the table -/

theorem length_foldl_emptySlot (ws : List GcWeakRawId) : ∀ slots : List WeakSlot,
    (ws.foldl emptySlot slots).length = slots.length := by
  induction ws with
  | nil => exact fun slots => rfl
  | cons w ws ih =>
    intro slots
    rw [List.foldl_cons, ih, emptySlot]
    split
    · rfl
    · exact List.length_modify ..

/-- The new slot is the free one, or one past the end. -/
theorem Claims.length (hclaims : h.Claims n w h') :
    h'.weakSlots.length = max h.weakSlots.length (h.freeSlot + 1) := by
  refine Nat.le_antisymm ?_ (max_le ?_ ?_)
  · by_contra hlt
    have hlast := hclaims.slots (h'.weakSlots.length - 1)
    rw [if_neg (by omega), List.getElem?_eq_none (l := h.weakSlots) (by omega),
      List.getElem?_eq_none_iff] at hlast
    omega
  · by_contra hlt
    have hpast := hclaims.slots h'.weakSlots.length
    rw [List.getElem?_eq_none le_rfl] at hpast
    split at hpast
    · cases hpast
    · have := List.getElem?_eq_none_iff.mp hpast.symm
      omega
  · by_contra hlt
    have hfree := hclaims.slots h.freeSlot
    rw [if_pos rfl, List.getElem?_eq_none (by omega)] at hfree
    cases hfree

/-- When no slot is free, all are in use. -/
theorem isSome_of_freeSlot (hfree : h.freeSlot = h.weakSlots.length) :
    ∀ slot ∈ h.weakSlots, slot.node.isSome := by
  intro slot hslot
  have hnone := List.findIdx_eq_length.mp hfree slot hslot
  exact Option.isSome_iff_ne_none.mpr fun hnode => by simp [hnode] at hnone

/-- A table that has grown is in use as a whole. -/
theorem Claims.isSome (hclaims : h.Claims n w h') (hfree : h.freeSlot = h.weakSlots.length) :
    ∀ slot ∈ h'.weakSlots, slot.node.isSome := by
  intro slot hslot
  obtain ⟨j, hj⟩ := List.getElem?_of_mem hslot
  rw [hclaims.slots] at hj
  split at hj
  · exact Option.some.inj hj ▸ rfl
  · exact isSome_of_freeSlot hfree slot (List.mem_of_getElem? hj)

/-- A node without a handle gets one if the table is short enough. -/
theorem downgrade_isSome_iff (hnull : (h.head n).weakId.isNull = true) :
    (h.downgrade n).isSome ↔ h.weakSlots.length < 2 ^ 24 - 1 := by
  unfold downgrade
  rw [hnull, Bool.not_true, if_neg Bool.false_ne_true]
  split
  · next hlen => exact iff_of_false Bool.false_ne_true (Nat.not_lt.mpr hlen)
  · next hlen => exact iff_of_true rfl (Nat.lt_of_not_le hlen)

end GcHeap

/-! ### Every step -/

open GcHeap in
/-- **The table grows** only when every slot is in use. -/
theorem Step.length_weakSlots {h h' : GcHeap} {op : Op} (hmem : h.MemInv) (hst : Step h op h') :
    h'.weakSlots.length =
      max h.weakSlots.length (h'.weakSlots.countP fun slot => slot.node.isSome) := by
  have hsame : h'.weakSlots.length = h.weakSlots.length → h'.weakSlots.length =
      max h.weakSlots.length (h'.weakSlots.countP fun slot => slot.node.isSome) := by
    intro heq
    rw [← heq, max_eq_left List.countP_le_length]
  cases hst.weak hmem with
  | keep hlive hid hslots => exact hsame (congrArg _ hslots)
  | fresh hn hlive hid hslots => exact hsame (congrArg _ hslots)
  | reclaim hgone hlive hid hslots => exact hsame (hslots ▸ length_foldl_emptySlot ..)
  | claim hop hn hlive hclaims =>
    by_cases hlt : h.freeSlot < h.weakSlots.length
    · exact hsame (hclaims.length.trans (max_eq_left hlt))
    · have hfree : h.freeSlot = h.weakSlots.length :=
        Nat.le_antisymm List.findIdx_le_length (Nat.le_of_not_lt hlt)
      rw [List.countP_eq_length.mpr (hclaims.isSome hfree), hclaims.length]
      omega

open GcHeap in
/-- The indices in use fit in 24 bits. -/
theorem Step.weakSlots_le {h h' : GcHeap} {op : Op} (hmem : h.MemInv) (hst : Step h op h')
    (hle : h.weakSlots.length ≤ 2 ^ 24 - 1) : h'.weakSlots.length ≤ 2 ^ 24 - 1 := by
  cases hst.weak hmem with
  | keep hlive hid hslots => rwa [hslots]
  | fresh hn hlive hid hslots => rwa [hslots]
  | reclaim hgone hlive hid hslots => rwa [hslots, length_foldl_emptySlot]
  | @claim n w hop hn hlive hclaims =>
    subst hop
    obtain ⟨r, hok, -⟩ := Option.map_eq_some_iff.mp hst.2
    have hlt : h.weakSlots.length < 2 ^ 24 - 1 :=
      (downgrade_isSome_iff hclaims.null).mp (hok ▸ rfl)
    have hfree : h.freeSlot ≤ h.weakSlots.length := List.findIdx_le_length
    rw [hclaims.length]
    omega

/-! ### The peak -/

/-- A heap, and the largest number of nodes that have owned a slot at the same time. -/
structure WeakPeak where
  /-- The heap. -/
  heap : GcHeap
  /-- The largest number of owners so far. -/
  peak : ℕ

/-- A step, with the number of owners that it leads to. -/
def PeakStep (g : WeakPeak) (op : Op) (g' : WeakPeak) : Prop :=
  Step g.heap op g'.heap ∧ g'.peak = max g.peak g'.heap.weakOwners.length

namespace WeakPeak

/-- A new heap, without owners. -/
def new (registry : GcTypeRegistry) : WeakPeak := ⟨.new registry, 0⟩

variable {registry : GcTypeRegistry} {ops : List Op} {g : WeakPeak}

/-- The table is as long as the number of owners has ever been. -/
structure Inv (g : WeakPeak) : Prop where
  /-- The memory is in order. -/
  mem : g.heap.MemInv
  /-- So is the weak table. -/
  weak : g.heap.WeakInv
  /-- Slots are only added when all are in use. -/
  length : g.heap.weakSlots.length = g.peak
  /-- There are never more slots than indexes. -/
  le : g.heap.weakSlots.length ≤ 2 ^ 24 - 1

theorem inv_of_run (hrun : Run PeakStep (.new registry) ops g) : g.Inv := by
  refine hrun.invariant (fun g op g' hg hst => ?_)
    ⟨.new registry, .new registry, rfl, Nat.zero_le _⟩
  have hmem := hg.mem.step hst.1
  have hweak := hg.weak.step hg.mem hst.1
  refine ⟨hmem, hweak, ?_, hst.1.weakSlots_le hg.mem hg.le⟩
  rw [hst.1.length_weakSlots hg.mem, hst.2, hg.length, hweak.length_weakOwners hmem]

/-- Counting owners does not restrict a run. -/
theorem exists_run_of_run {C : GcHeap → Op → Prop} {h' : GcHeap}
    (hrun : Run (StepWith C) g.heap ops h') : ∃ g', Run PeakStep g ops g' ∧ g'.heap = h' :=
  hrun.follow heap fun g _ h' hst => ⟨⟨h', max g.peak h'.weakOwners.length⟩, ⟨hst.1, rfl⟩, rfl⟩

end WeakPeak

open GcHeap in
/-- **Weak-slot capacity.** In every reached state, taking a handle of a node that has none fails
only if every index is in use, exactly if the number of owners has never reached the number of
indices, or is that large now. -/
theorem weak_capacity {registry : GcTypeRegistry} {ops : List Op} {g : WeakPeak}
    (hrun : Run PeakStep (.new registry) ops g) {n : NodePtr}
    (hnull : (g.heap.head n).weakId.isNull = true) :
    g.heap.CapacityLaw n ↔ g.peak < 2 ^ 24 - 1 ∨ g.heap.weakOwners.length = 2 ^ 24 - 1 := by
  have hinv := WeakPeak.inv_of_run hrun
  have howners := hinv.weak.length_weakOwners_le hinv.mem
  have hsome := downgrade_isSome_iff hnull
  rw [← hinv.length]
  constructor
  · intro hlaw
    by_cases hlt : g.heap.weakSlots.length < 2 ^ 24 - 1
    · exact .inl hlt
    · have hnone : g.heap.downgrade n = none :=
        Option.not_isSome_iff_eq_none.mp fun hyes => hlt (hsome.mp hyes)
      exact .inr (Nat.le_antisymm (howners.trans hinv.le) (hlaw.panics hnone))
  · rintro (hlt | hall)
    · have hyes := hsome.mpr hlt
      exact ⟨fun _ => hyes, fun hnone => by simp [hnone] at hyes⟩
    · exact ⟨fun hlt => by omega, fun _ => hall.ge⟩

/-- One node has a handle, and another one takes a handle. -/
theorem weak_capacity_one : ∃ (g : WeakPeak) (n : NodePtr),
    g.peak = 1 ∧ (g.heap.head n).weakId.isNull = true ∧ g.heap.CapacityLaw n := by
  have hscript : (play (fun _ _ => True) [.createPartition 1024 64 (some 65536),
      .allocRaw 0 0 [] none, .downgrade 65536, .allocRaw 0 0 [] none]
      (GcHeap.new (gcTypeTableInternal 24 8 [⟨8, 8, true, none⟩]))).any fun h =>
        h.weakSlots.length = 1 ∧ (h.head 65568).weakId.isNull = true := by decide +kernel
  obtain ⟨h, hplay, hstate⟩ := (Option.any_eq_true _ _).mp hscript
  obtain ⟨hlength, hnull⟩ := of_decide_eq_true hstate
  obtain ⟨g, hrun, rfl⟩ := WeakPeak.exists_run_of_run (g := .new _) (run_of_play hplay)
  have hpeak : g.peak = 1 := (WeakPeak.inv_of_run hrun).length.symm.trans hlength
  have hlt : g.peak < 2 ^ 24 - 1 := by omega
  exact ⟨g, 65568, hpeak, hnull, (weak_capacity hrun hnull).mpr (.inl hlt)⟩

/-! ### A table that is full and empty -/

/-- Nodes of 32 bytes without references. -/
def plainTable : GcTypeRegistry := gcTypeTableInternal 24 8 [⟨8, 8, true, none⟩]

namespace GcHeap

/-- One partition of such nodes, without a limit, with room from a given address on. -/
structure Room (k : ℕ) (h : GcHeap) : Prop where
  /-- The heap can be reached with an allocator that keeps its promises. -/
  reach : ReachableWith SystemMemory h
  /-- It has the one type of the plain table. -/
  types : h.nodeDtypes = plainTable
  /-- There is no limit. -/
  limit : h.memoryLimit = 0
  /-- There is one partition. -/
  length : h.partitions.length = 1
  /-- Memory is free from some address on. -/
  blocks : ∀ o s, h.Holds o s → s.stop ≤ 1024 + 64 * k

variable {h h' : GcHeap} {k k' : ℕ} {n : NodePtr}

theorem Room.mem (hroom : h.Room k) : h.MemInv := memInv_of_reachable hroom.reach

theorem Room.smallType (hroom : h.Room k) :
    SmallType (h.typeInfo 0) ∧ (h.typeInfo 0).layoutSize = 32 := by
  rw [typeInfo, hroom.types]
  decide

theorem Room.step {op : Op} (hroom : h.Room k) (hst : Step h op h') (hmem : SystemMemory h op)
    (hcreate : op.isCreate = false)
    (hlimit : ∀ headSize headAlign limit, op ≠ .setMemoryLimit headSize headAlign limit)
    (hk : k ≤ k') (hout : ∀ s, op.handsOut h = some s → s.stop ≤ 1024 + 64 * k') :
    h'.Room k' where
  reach := by
    obtain ⟨registry, hr⟩ := hroom.reach
    exact ⟨registry, hr.tail ⟨hst, hmem⟩⟩
  types := hst.nodeDtypes.trans hroom.types
  limit := by
    rcases GcHeap.memoryLimit_exec hst.2 with heq | ⟨⟨headSize, headAlign, limit, rfl⟩, -⟩
    · exact heq.trans hroom.limit
    · exact absurd rfl (hlimit headSize headAlign limit)
  length := by
    rw [hst.length, hcreate, hroom.length]
    rfl
  blocks o s ho := by
    rcases ho.of_step hroom.mem hst with ho | hs
    · exact (hroom.blocks o s ho).trans (by omega)
    · exact hout s hs

/-- The system may hand out the next 32 bytes. -/
theorem Room.blockFree (hroom : h.Room k) (hk : k < 2 ^ 32) :
    h.BlockFree [] ⟨1024 + 64 * k, 32⟩ := by
  refine ⟨⟨?_, ?_⟩, fun n hn _ hflag => ?_, fun i A hA => ?_⟩
  · change 0 < 1024 + 64 * k
    omega
  · change 1024 + 64 * k + 32 ≤ 2 ^ 64
    omega
  · exact .inr (hroom.blocks (.node n) _ ⟨hn, hflag, rfl⟩)
  · exact .inr (hroom.blocks (.arena i) _ ⟨A, hA, rfl⟩)

theorem Room.systemFresh (hroom : h.Room k) : h.SystemFresh (1024 + 64 * k) := by
  refine ⟨fun hn => ?_, fun i A hA => .inr (hroom.blocks (.arena i) _ ⟨A, hA, rfl⟩)⟩
  obtain ⟨o, s, ho, ⟨-, hstop⟩, -⟩ := hroom.mem.exists_block hn
  have hdtype : (h.head (1024 + 64 * k)).dtype = 0 := by
    obtain ⟨i, hi⟩ := hn
    have hlt := hroom.mem.dtype i _ hi
    rw [hroom.types] at hlt
    exact Nat.lt_one_iff.mp hlt
  have hsize : (h.info (1024 + 64 * k)).layoutSize = 32 := by
    rw [info, hdtype]
    exact hroom.smallType.2
  have hle := hstop.trans (hroom.blocks o s ho)
  change 1024 + 64 * k + (h.info (1024 + 64 * k)).layoutSize ≤ 1024 + 64 * k at hle
  omega

/-- A node is allocated there. -/
theorem Room.alloc (hroom : h.Room k) (hk : k < 2 ^ 32) : ∃ h' fromArena n, h'.Room (k + 1) ∧
    ¬ h.Live n ∧ h.Attached 0 0 fromArena n h' ∧ h'.view = h.view.alloc 0 n [] := by
  obtain ⟨hsmall, hsize⟩ := hroom.smallType
  obtain ⟨layout, hlayout⟩ := hsmall.exists_layout
  have hdtype : 0 < h.nodeDtypes.typeInfoList.length := by
    rw [hroom.types]
    decide
  have hfresh : ∀ m, some (1024 + 64 * k) = some m → h.SystemFresh m :=
    fun m hm => Option.some.inj hm ▸ hroom.systemFresh
  have hadmit : refusal (h.allocNodeMem 0 0 [] false (some (1024 + 64 * k))) = none := by
    rw [refusal_allocNodeMem false hlayout, hroom.length, hroom.limit]
    simp
  obtain ⟨⟨h', n⟩, hok⟩ : ∃ r, h.allocRaw 0 0 [] (some (1024 + 64 * k)) = .ok r := by
    rw [allocRaw_eq_map]
    cases halloc : h.allocNodeMem 0 0 [] false (some (1024 + 64 * k)) with
    | ok r => exact ⟨_, rfl⟩
    | error e =>
      rw [halloc] at hadmit
      cases hadmit
  have hst : Step h (.allocRaw 0 0 [] (some (1024 + 64 * k))) h' := by
    refine ⟨⟨hroom.length ▸ Nat.one_pos, hdtype, List.forall_mem_nil _, hfresh⟩, ?_⟩
    rw [exec, hok]
    rfl
  have hroom' : h'.Room (k + 1) := by
    refine hroom.step hst (fun m hm => ?_) rfl (fun _ _ _ heq => by cases heq) (Nat.le_succ k) ?_
    · rw [hsize]
      exact Option.some.inj hm ▸ hroom.blockFree hk
    · rintro s ⟨⟩
      change 1024 + 64 * k + (h.typeInfo 0).layoutSize ≤ _
      omega
  obtain ⟨h₁, size, hnode, rfl⟩ := allocRaw_ok hok
  obtain ⟨fromArena, hatt, -⟩ := allocNodeMem_attached hnode
  exact ⟨_, fromArena, n, hroom', (hroom.mem.allocNodeMem hdtype hfresh hnode).1, hatt,
    (view_allocRaw hok).2⟩

/-- A new node without references leaves a heap at rest. -/
theorem AtRest.alloc {i : ℕ} (hrest : h.AtRest) (hn : ¬ h.Live n)
    (hview : h'.view = h.view.alloc i n []) : h'.AtRest := by
  have hlive : h.view.RefsLive := hrest.refs_live
  have hrefs : h'.view.RefsLive := hview ▸ hlive.alloc hn (List.forall_mem_nil _)
  refine ⟨fun j m hm => ?_, hrefs, fun j => ?_, fun j => ?_⟩
  · change h'.view.pid m = j
    replace hm : m ∈ h'.view.chain j := hm
    rw [hview] at hm ⊢
    rcases MarkState.mem_chain_alloc.mp hm with ⟨rfl, rfl⟩ | hm
    · exact Function.update_self ..
    · refine (Function.update_of_ne ?_ ..).trans (hrest.own j m hm)
      exact fun heq => hn ⟨j, heq ▸ hm⟩
  · exact (congrFun (congrArg MarkState.marking hview) j).trans (hrest.marking j)
  · exact (congrFun (congrArg MarkState.gray hview) j).trans (hrest.gray j)

/-- A heap at rest, as far as the marker is concerned. -/
theorem AtRest.congr (hrest : h.AtRest) (hview : h'.view = h.view) : h'.AtRest := by
  have hrefs : h'.view.RefsLive := hview ▸ hrest.refs_live
  have hown : h'.view.Owned := hview ▸ hrest.owned
  exact ⟨hown.own, hrefs, fun j => (congrFun (congrArg MarkState.marking hview) j).trans
    (hrest.marking j), fun j => (congrFun (congrArg MarkState.gray hview) j).trans (hrest.gray j)⟩

/-- As many nodes as slots, without protection, and every slot in use. -/
structure Filled (k : ℕ) (h : GcHeap) : Prop extends h.Room k where
  /-- Nothing is being marked. -/
  rest : h.AtRest
  /-- No node is a root or local. -/
  plain : ∀ n, h.Live n → (h.head n).isRootOrLocal = false
  /-- Every slot has a node. -/
  inUse : ∀ slot ∈ h.weakSlots, slot.node.isSome
  /-- There are so many slots. -/
  count : h.weakSlots.length = k

/-- One more node, with a handle. -/
theorem Filled.next (hfull : h.Filled k) (hk : k < 2 ^ 24 - 1) :
    ∃ h' : GcHeap, h'.Filled (k + 1) := by
  obtain ⟨h₁, fromArena, n, hroom, hn, hatt, hview⟩ := hfull.alloc (by omega)
  have hnull : (h₁.head n).weakId.isNull = true := by
    rw [hatt.head, Function.update_self]
    rfl
  have hslots : h₁.weakSlots = h.weakSlots := hatt.slots
  have hlen : h₁.weakSlots.length < 2 ^ 24 - 1 := by
    rw [hslots, hfull.count]
    exact hk
  obtain ⟨⟨h', w⟩, hdown⟩ := Option.isSome_iff_exists.mp ((downgrade_isSome_iff hnull).mpr hlen)
  have hview' : h'.view = h₁.view := view_downgrade hdown
  have hclaims : h₁.Claims n w h' := by
    rcases downgrade_ok hdown with ⟨hnot, -⟩ | hclaims
    · rw [hnull] at hnot
      cases hnot
    · exact hclaims
  have hfree : h₁.freeSlot = h₁.weakSlots.length := by
    refine List.findIdx_eq_length.mpr fun slot hslot => ?_
    rw [Option.isNone_eq_false_iff]
    exact hfull.inUse slot (hslots ▸ hslot)
  have hst : Step h₁ (.downgrade n) h' := by
    refine ⟨hatt.live_iff.mpr (.inl rfl), ?_⟩
    rw [exec, hdown]
    rfl
  have hroom' : h'.Room (k + 1) := hroom.step hst trivial rfl (fun _ _ _ heq => by cases heq)
    le_rfl fun _ heq => by cases heq
  refine ⟨h', hroom', ?_, fun m hm => ?_, hclaims.isSome hfree, ?_⟩
  · exact (hfull.rest.alloc hn hview).congr hview'
  · have hprot : (h'.head m).isRootOrLocal = if m = n then false else (h.head m).isRootOrLocal :=
      (congrFun (congrArg MarkState.prot (hview'.trans hview)) m).trans (Function.update_apply ..)
    have hlive : h'.view.Live m := hm
    rw [hview', hview, MarkState.live_alloc] at hlive
    rw [hprot]
    split
    · rfl
    · next hne => exact hfull.plain m (hlive.resolve_left hne)
  · rw [hclaims.length, hfree, hslots, hfull.count]
    exact Nat.max_eq_right (Nat.le_succ k)

/-- A new heap with one partition. -/
theorem exists_filled_zero : ∃ h : GcHeap, h.Filled 0 := by
  obtain ⟨h, hexec, hparts, htypes, hlimit, hslots⟩ : ∃ h : GcHeap,
      exec (.new plainTable) (.createPartition 0 0 none) = some h ∧ h.partitions = [default] ∧
        h.nodeDtypes = plainTable ∧ h.memoryLimit = 0 ∧ h.weakSlots = [] :=
    ⟨_, rfl, rfl, rfl, rfl, rfl⟩
  have hpar : ∀ i, h.par i = default := by
    intro i
    rw [par, hparts]
    cases i <;> rfl
  have hempty : ∀ i n, n ∉ (h.par i).nodes := fun i n hn => by
    rw [hpar] at hn
    cases hn
  have hst : StepWith SystemMemory (.new plainTable) (.createPartition 0 0 none) h :=
    ⟨⟨(fun _ heq => by cases heq), hexec⟩, fun _ heq => by cases heq⟩
  have hreach : ReachableWith SystemMemory h := ⟨plainTable, _, .cons hst (.nil _)⟩
  refine ⟨h, ⟨hreach, htypes, hlimit, by rw [hparts]; rfl, ?_⟩, ⟨?_, ?_, ?_, ?_⟩, ?_, ?_, ?_⟩
  · rintro (n | i) s ho
    · obtain ⟨⟨i, hn⟩, -⟩ := ho
      exact absurd hn (hempty i n)
    · obtain ⟨A, hA, -⟩ := ho
      rw [hpar] at hA
      cases hA
  · exact fun i n hn => absurd hn (hempty i n)
  · exact fun i n hn => absurd hn (hempty i n)
  · exact fun i => hpar i ▸ rfl
  · exact fun i => hpar i ▸ rfl
  · rintro n ⟨i, hn⟩
    exact absurd hn (hempty i n)
  · rw [hslots]
    exact fun slot hslot => absurd hslot List.not_mem_nil
  · exact hslots ▸ rfl

theorem exists_filled : ∀ k ≤ 2 ^ 24 - 1, ∃ h : GcHeap, h.Filled k
  | 0, _ => exists_filled_zero
  | k + 1, hk => by
    obtain ⟨h, hfull⟩ := exists_filled k (by omega)
    exact hfull.next (by omega)

end GcHeap

open GcHeap in
/-- **A panic without an owner.** After `2 ^ 24 - 1` nodes have had a handle at the same time and
have all been collected, the next node gets none. -/
theorem downgrade_exhausted : ∃ (h : GcHeap) (n : NodePtr), ReachableWith SystemMemory h ∧
    h.Live n ∧ (h.head n).weakId.isNull = true ∧ h.weakOwners = [] ∧ h.downgrade n = none ∧
    ¬ h.CapacityLaw n := by
  obtain ⟨h, hfull⟩ := exists_filled (2 ^ 24 - 1) le_rfl
  obtain ⟨h₁, bytes, hgc, hlive⟩ := hfull.rest.live_garbageCollect 0
  have hdead : ∀ m, ¬ h₁.Live m := by
    intro m hm
    obtain ⟨hmh, hkept⟩ := (hlive m).mp hm
    obtain ⟨i, hi⟩ := id hmh
    have hi0 : i = 0 := by
      have hlt := lt_length_of_mem_nodes hi
      rw [hfull.length] at hlt
      omega
    obtain ⟨r, ⟨hr, hprot⟩, -⟩ := hkept (hi0 ▸ hi)
    have hplain := hfull.plain r ⟨0, hr⟩
    exact Bool.false_ne_true (hplain.symm.trans hprot)
  have hst : Step h (.garbageCollect 0) h₁ := by
    refine ⟨trivial, ?_⟩
    rw [exec, hgc]
    rfl
  have hroom : h₁.Room (2 ^ 24 - 1) := hfull.step hst trivial rfl
    (fun _ _ _ heq => by cases heq) le_rfl fun _ heq => by cases heq
  have hcount : 2 ^ 24 - 1 ≤ h₁.weakSlots.length := by
    rw [hst.length_weakSlots hfull.mem, ← hfull.count]
    exact le_max_left ..
  obtain ⟨h', fromArena, n, hroom', -, hatt, -⟩ := hroom.alloc (by omega)
  have hnull : (h'.head n).weakId.isNull = true := by
    rw [hatt.head, Function.update_self]
    rfl
  have hnone : h'.downgrade n = none := by
    refine Option.not_isSome_iff_eq_none.mp fun hsome => ?_
    have hlt := (downgrade_isSome_iff hnull).mp hsome
    rw [hatt.slots] at hlt
    omega
  have howners : h'.weakOwners = [] := by
    refine List.eq_nil_iff_forall_not_mem.mpr fun m hm => ?_
    obtain ⟨hm, hnot⟩ := mem_weakOwners.mp hm
    rcases hatt.live_iff.mp hm with rfl | hm
    · rw [hnull] at hnot
      cases hnot
    · exact hdead m hm
  refine ⟨h', n, hroom'.reach, hatt.live_iff.mpr (.inl rfl), hnull, howners, hnone, fun hlaw => ?_⟩
  have hpanics := hlaw.panics hnone
  rw [howners] at hpanics
  cases hpanics

end GcLite
