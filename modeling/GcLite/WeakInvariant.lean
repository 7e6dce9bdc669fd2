import GcLite.MemInvariant

/-!
# The weak table

The link between a node and its weak slot is kept twice: the node's header has the slot's index and
version, and the slot has the version and the node. In every run the two agree, so that a slot in
use has one owner, which is live.

## Main definitions

* `GcHeap.WeakInv` — the invariant
* `WeakStep` — the ways in which a step changes the table

## Main results

* `getElem?_foldl_emptySlot` — what reclaiming nodes does to the table
* `downgrade_ok` — what taking a handle does to it
* `Step.weak` — what a step can do to it
* `WeakInv.step`, `weakInv_of_reachable`
* `weak_table` — handles of live nodes, in every run
-/

namespace GcLite

open Transition

/-! ### Emptying slots -/

/-- One of the ids names the slot. -/
def NamesSlot (ws : List GcWeakRawId) (i : ℕ) : Prop := ∃ w ∈ ws, w.isNull = false ∧ w.index = i

/-- A slot that keeps its version and loses its node. -/
def WeakSlot.emptied (slot : WeakSlot) : WeakSlot := { slot with node := none }

namespace GcHeap

theorem getElem?_emptySlot {slots : List WeakSlot} {w : GcWeakRawId} {i : ℕ} :
    (emptySlot slots w)[i]? = if w.isNull = false ∧ w.index = i then slots[i]?.map WeakSlot.emptied
      else slots[i]? := by
  unfold emptySlot
  cases hw : w.isNull with
  | true => simp
  | false =>
    by_cases hi : w.index = i
    · rw [if_neg Bool.false_ne_true, if_pos ⟨rfl, hi⟩, ← hi, List.getElem?_modify_eq]
      rfl
    · simp [hi]

/-- Emptying the slots of a list of ids. -/
theorem getElem?_foldl_emptySlot {ws : List GcWeakRawId} {i : ℕ} : ∀ slots : List WeakSlot,
    (NamesSlot ws i → (ws.foldl emptySlot slots)[i]? = slots[i]?.map WeakSlot.emptied) ∧
      (¬ NamesSlot ws i → (ws.foldl emptySlot slots)[i]? = slots[i]?) := by
  induction ws with
  | nil => exact fun slots => ⟨fun ⟨w, hw, _⟩ => absurd hw List.not_mem_nil, fun _ => rfl⟩
  | cons w ws ih =>
    intro slots
    obtain ⟨hnamed, hother⟩ := ih (emptySlot slots w)
    rw [List.foldl_cons]
    by_cases hws : NamesSlot ws i
    · refine ⟨fun _ => ?_, fun hnot => absurd ?_ hnot⟩
      · rw [hnamed hws, getElem?_emptySlot]
        split
        · rw [Option.map_map]
          rfl
        · rfl
      · obtain ⟨v, hv, hname⟩ := hws
        exact ⟨v, List.mem_cons_of_mem _ hv, hname⟩
    · rw [hother hws, getElem?_emptySlot]
      constructor
      · rintro ⟨v, hv, hname⟩
        rcases List.mem_cons.mp hv with rfl | hv
        · rw [if_pos hname]
        · exact absurd ⟨v, hv, hname⟩ hws
      · intro hnot
        exact if_neg fun hname => hnot ⟨w, List.mem_cons_self, hname⟩

/-- The slots in use are those that were, and that are not named. -/
theorem getElem?_foldl_emptySlot_owned {slots : List WeakSlot} {ws : List GcWeakRawId} {i v : ℕ}
    {n : NodePtr} : (ws.foldl emptySlot slots)[i]? = some ⟨v, some n⟩ ↔
      slots[i]? = some ⟨v, some n⟩ ∧ ¬ NamesSlot ws i := by
  obtain ⟨hnamed, hother⟩ := @getElem?_foldl_emptySlot ws i slots
  by_cases hnames : NamesSlot ws i
  · rw [hnamed hnames]
    refine ⟨fun hslot => ?_, fun hslot => absurd hnames hslot.2⟩
    obtain ⟨slot, -, heq⟩ := Option.map_eq_some_iff.mp hslot
    cases congrArg WeakSlot.node heq
  · rw [hother hnames]
    exact (and_iff_left hnames).symm

/-- The versions stay. -/
theorem exists_of_getElem?_foldl_emptySlot {slots : List WeakSlot} {ws : List GcWeakRawId} {i : ℕ}
    {slot : WeakSlot} (hslot : (ws.foldl emptySlot slots)[i]? = some slot) :
    ∃ slot', slots[i]? = some slot' ∧ slot'.version = slot.version := by
  obtain ⟨hnamed, hother⟩ := @getElem?_foldl_emptySlot ws i slots
  by_cases hnames : NamesSlot ws i
  · rw [hnamed hnames] at hslot
    obtain ⟨slot', hslot', rfl⟩ := Option.map_eq_some_iff.mp hslot
    exact ⟨slot', hslot', rfl⟩
  · exact ⟨slot, hother hnames ▸ hslot, rfl⟩

variable {h h' : GcHeap} {i j : ℕ} {n m : NodePtr} {w : GcWeakRawId} {K K' : NodePtr → Prop}

/-- A handle that is not null reads its slot. -/
theorem upgrade_eq_some_iff : h.upgrade w = some n ↔ w.isNull = false ∧
    h.weakSlots[w.index]? = some ⟨w.version, some n⟩ := by
  unfold upgrade
  cases hw : w.isNull with
  | true => simp
  | false =>
    simp only [Bool.false_eq_true, if_false, true_and, Option.bind_eq_some_iff]
    constructor
    · rintro ⟨⟨version, node⟩, hslot, hif⟩
      split at hif
      · next hv =>
        obtain rfl : node = some n := hif
        rw [hslot, ← hv]
      · cases hif
    · exact fun hslot => ⟨_, hslot, if_pos rfl⟩

/-- Of an emptied table, a handle finds what it found before, if its slot is not emptied. -/
theorem upgrade_of_emptied {ws : List GcWeakRawId}
    (hslots : h'.weakSlots = ws.foldl emptySlot h.weakSlots) (hup : h'.upgrade w = some n) :
    h.upgrade w = some n ∧ ¬ NamesSlot ws w.index := by
  rw [upgrade_eq_some_iff, hslots, getElem?_foldl_emptySlot_owned] at hup
  obtain ⟨hnull, hslot, hnot⟩ := hup
  exact ⟨upgrade_eq_some_iff.mpr ⟨hnull, hslot⟩, hnot⟩

/-! ### Taking a handle -/

/-- The slot that the next new handle takes: the first empty one, or one past the end. -/
def freeSlot (h : GcHeap) : ℕ := h.weakSlots.findIdx fun slot => slot.node.isNone

/-- The version that the slot has so far. -/
def freeVersion (h : GcHeap) : ℕ := (h.weakSlots.getD h.freeSlot default).version

/-- The version after it. -/
def bumpVersion (version : ℕ) : ℕ := if version = 255 then 1 else version + 1

theorem bumpVersion_pos (version : ℕ) : bumpVersion version ≠ 0 := by
  unfold bumpVersion
  split <;> omega

theorem bumpVersion_lt {version : ℕ} (hv : version < 256) : bumpVersion version < 256 := by
  unfold bumpVersion
  split <;> omega

/-- The slot is empty. -/
theorem node_freeSlot {slot : WeakSlot} (hslot : h.weakSlots[h.freeSlot]? = some slot) :
    slot.node = none := by
  obtain ⟨hlt, rfl⟩ := List.getElem?_eq_some_iff.mp hslot
  exact Option.isNone_iff_eq_none.mp (List.findIdx_getElem (w := hlt))

/-- The table with room for one more, if every slot is in use. -/
theorem slots_freeSlot (h : GcHeap) :
    let slots := if h.freeSlot < h.weakSlots.length then h.weakSlots else h.weakSlots ++ [⟨0, none⟩]
    (slots.getD h.freeSlot default).version = h.freeVersion ∧
      ∀ slot j, (slots.set h.freeSlot slot)[j]? =
        if j = h.freeSlot then some slot else h.weakSlots[j]? := by
  have hfree : h.freeSlot ≤ h.weakSlots.length := List.findIdx_le_length
  by_cases hlt : h.freeSlot < h.weakSlots.length
  · simp only [if_pos hlt]
    refine ⟨rfl, fun slot j => ?_⟩
    rw [List.getElem?_set]
    by_cases hj : h.freeSlot = j
    · simp [hj, hj ▸ hlt]
    · rw [if_neg hj, if_neg (Ne.symm hj)]
  · have hlen : h.freeSlot = h.weakSlots.length := Nat.le_antisymm hfree (Nat.le_of_not_lt hlt)
    simp only [if_neg hlt]
    refine ⟨?_, fun slot j => ?_⟩
    · simp [freeVersion, hlen, default, instInhabitedWeakSlot.default]
    · rw [List.getElem?_set, hlen]
      by_cases hj : h.weakSlots.length = j
      · simp [hj]
      · rw [if_neg hj, if_neg (Ne.symm hj)]
        by_cases hlt : j < h.weakSlots.length
        · rw [List.getElem?_append_left hlt]
        · rw [List.getElem?_eq_none (by simp; omega), List.getElem?_eq_none (by omega)]

/-- The table after the node has taken a handle. -/
structure Claims (h : GcHeap) (n : NodePtr) (w : GcWeakRawId) (h' : GcHeap) : Prop where
  /-- The node had none. -/
  null : (h.head n).weakId.isNull = true
  /-- The handle is for the free slot, in its next version. -/
  handle : w = .new h.freeSlot (bumpVersion h.freeVersion)
  /-- The node has the handle, and the others have what they had. -/
  ids : ∀ m, (h'.head m).weakId = if m = n then w else (h.head m).weakId
  /-- The slot is the node's, and no other slot has changed. -/
  slots : ∀ j, h'.weakSlots[j]? = if j = h.freeSlot then some ⟨bumpVersion h.freeVersion, some n⟩
    else h.weakSlots[j]?

/-- **Taking a handle** gives the one the node has, or makes the node the owner of the free slot. -/
theorem downgrade_ok (hok : h.downgrade n = some (h', w)) :
    ((h.head n).weakId.isNull = false ∧ h' = h ∧ w = (h.head n).weakId) ∨
    h.Claims n w h' := by
  unfold downgrade at hok
  cases hnull : (h.head n).weakId.isNull with
  | false =>
    simp only [hnull, Bool.not_false, if_true, Option.some.injEq, Prod.mk.injEq] at hok
    exact .inl ⟨rfl, hok.1.symm, hok.2.symm⟩
  | true =>
    simp only [hnull, Bool.not_true, Bool.false_eq_true, if_false] at hok
    split at hok
    · cases hok
    next hlen =>
    obtain ⟨hver, hset⟩ := h.slots_freeSlot
    obtain ⟨rfl, rfl⟩ := Prod.mk.inj (Option.some.inj hok)
    refine .inr ⟨hnull, ?_, fun m => ?_, fun j => ?_⟩
    · exact congrArg (GcWeakRawId.new h.freeSlot) (congrArg bumpVersion hver)
    · rw [head_modifyHead]
      split <;> rfl
    · exact (hset _ j).trans (by rw [← hver]; rfl)

/-- It is the node's id. -/
theorem handle_of_downgrade (hlt : h.freeVersion < 256) (hok : h.downgrade n = some (h', w)) :
    w.isNull = false ∧ (h'.head n).weakId = w := by
  rcases downgrade_ok hok with ⟨hnull, rfl, rfl⟩ | hclaims
  · exact ⟨hnull, rfl⟩
  · refine ⟨?_, by rw [hclaims.ids, if_pos rfl]⟩
    rw [hclaims.handle, GcWeakRawId.isNull_new (bumpVersion_lt hlt) (bumpVersion_pos _)]

/-! ### Who owns what -/

/-- Every slot in use is owned by one of these nodes, which has its id. -/
structure WeakOwners (K : NodePtr → Prop) (h : GcHeap) : Prop where
  /-- Who is in a slot has the handle for it, in the slot's version. -/
  owner : ∀ (i v : ℕ) (n : NodePtr), h.weakSlots[i]? = some ⟨v, some n⟩ → K n ∧
    (h.head n).weakId.isNull = false ∧ (h.head n).weakId.index = i ∧ (h.head n).weakId.version = v
  /-- Versions are bytes. -/
  version_lt : ∀ (i : ℕ) (slot : WeakSlot), h.weakSlots[i]? = some slot → slot.version < 256

/-- Every one of these nodes that has an id owns the slot. -/
def WeakFinds (K : NodePtr → Prop) (h : GcHeap) : Prop := ∀ n, K n →
  (h.head n).weakId.isNull = false →
    h.weakSlots[(h.head n).weakId.index]? = some ⟨(h.head n).weakId.version, some n⟩

/-- An occupied slot is not the free one. -/
theorem ne_freeSlot {i v : ℕ} (hslot : h.weakSlots[i]? = some ⟨v, some n⟩) : i ≠ h.freeSlot := by
  rintro rfl
  cases node_freeSlot hslot

namespace WeakOwners

theorem freeVersion_lt (hown : WeakOwners K h) : h.freeVersion < 256 := by
  rw [freeVersion, List.getD_eq_getElem?_getD]
  cases hslot : h.weakSlots[h.freeSlot]? with
  | none => decide
  | some slot => exact hown.version_lt _ _ hslot

theorem keep (hown : WeakOwners K h) (hK : ∀ n, K n → K' n)
    (hid : ∀ n, K n → (h'.head n).weakId = (h.head n).weakId)
    (hslots : h'.weakSlots = h.weakSlots) : WeakOwners K' h' := by
  refine ⟨fun i v n hslot => ?_, hslots ▸ hown.version_lt⟩
  obtain ⟨hn, howner⟩ := hown.owner i v n (hslots ▸ hslot)
  rw [hid n hn]
  exact ⟨hK n hn, howner⟩

/-- Owners whose slots have been emptied may be given up. -/
theorem emptied {ws : List GcWeakRawId} (hown : WeakOwners K h)
    (hK : ∀ n, K n → (h.head n).weakId ∉ ws → K' n)
    (hid : ∀ n, (h'.head n).weakId = (h.head n).weakId)
    (hslots : h'.weakSlots = ws.foldl emptySlot h.weakSlots) : WeakOwners K' h' := by
  refine ⟨fun i v n hslot => ?_, fun i slot hslot => ?_⟩
  · obtain ⟨hslot, hnot⟩ := getElem?_foldl_emptySlot_owned.mp (hslots ▸ hslot)
    obtain ⟨hn, hnull, hindex, hversion⟩ := hown.owner i v n hslot
    rw [hid]
    exact ⟨hK n hn fun hmem => hnot ⟨_, hmem, hnull, hindex⟩, hnull, hindex, hversion⟩
  · obtain ⟨slot', hslot', hversion⟩ := exists_of_getElem?_foldl_emptySlot (hslots ▸ hslot)
    exact hversion ▸ hown.version_lt i slot' hslot'

theorem claim (hown : WeakOwners K h) (hcl : Claims h n w h') (hn : K n) : WeakOwners K h' := by
  have hlt := bumpVersion_lt hown.freeVersion_lt
  refine ⟨fun i v m hslot => ?_, fun i slot hslot => ?_⟩
  · rw [hcl.slots] at hslot
    rw [hcl.ids]
    split at hslot
    · next hi =>
      obtain ⟨rfl, rfl⟩ : bumpVersion h.freeVersion = v ∧ n = m := by simpa using hslot
      rw [if_pos rfl, hcl.handle, GcWeakRawId.index_new hlt, GcWeakRawId.version_new hlt]
      exact ⟨hn, GcWeakRawId.isNull_new hlt (bumpVersion_pos _), hi.symm, rfl⟩
    · obtain ⟨hm, howner⟩ := hown.owner i v m hslot
      rw [if_neg]
      · exact ⟨hm, howner⟩
      · rintro rfl
        have hnull := hcl.null
        rw [howner.1] at hnull
        cases hnull
  · rw [hcl.slots] at hslot
    split at hslot
    · exact Option.some.inj hslot ▸ hlt
    · exact hown.version_lt i slot hslot

end WeakOwners

namespace WeakFinds

/-- Nodes with one slot are one node. -/
theorem eq_of_index (hfinds : WeakFinds K h) (hn : K n) (hm : K m)
    (hnn : (h.head n).weakId.isNull = false) (hmn : (h.head m).weakId.isNull = false)
    (hindex : (h.head n).weakId.index = (h.head m).weakId.index) : n = m := by
  have hslot := hfinds n hn hnn
  rw [hindex, hfinds m hm hmn] at hslot
  exact (Option.some.inj (congrArg WeakSlot.node (Option.some.inj hslot))).symm

/-- Nodes do not name the slot of another. -/
theorem not_namesSlot (hfinds : WeakFinds K h) {gone : List NodePtr} (hgone : ∀ m ∈ gone, K m)
    (hn : K n) (hnn : (h.head n).weakId.isNull = false) (hkept : n ∉ gone) :
    ¬ NamesSlot (gone.map fun m => (h.head m).weakId) (h.head n).weakId.index := by
  rintro ⟨w, hw, hnull, hindex⟩
  obtain ⟨m, hm, rfl⟩ := List.mem_map.mp hw
  exact hkept (hfinds.eq_of_index (hgone m hm) hn hnull hnn hindex ▸ hm)

theorem keep (hfinds : WeakFinds K h) (hK : ∀ n, K' n → (h'.head n).weakId.isNull = false →
      K n ∧ (h'.head n).weakId = (h.head n).weakId)
    (hslots : h'.weakSlots = h.weakSlots) : WeakFinds K' h' := by
  intro n hn hnull
  obtain ⟨hn, hid⟩ := hK n hn hnull
  rw [hid] at hnull ⊢
  rw [hslots]
  exact hfinds n hn hnull

/-- Emptying other slots. -/
theorem emptied {ws : List GcWeakRawId} (hfinds : WeakFinds K h)
    (hid : ∀ n, (h'.head n).weakId = (h.head n).weakId)
    (hslots : h'.weakSlots = ws.foldl emptySlot h.weakSlots)
    (hK : ∀ n, K' n → (h.head n).weakId.isNull = false →
      K n ∧ ¬ NamesSlot ws (h.head n).weakId.index) : WeakFinds K' h' := by
  intro n hn hnull
  rw [hid] at hnull ⊢
  obtain ⟨hn, hnot⟩ := hK n hn hnull
  rw [hslots, getElem?_foldl_emptySlot_owned]
  exact ⟨hfinds n hn hnull, hnot⟩

theorem claim (hfinds : WeakFinds K h) (hlt : h.freeVersion < 256) (hcl : Claims h n w h') :
    WeakFinds K h' := by
  have hlt := bumpVersion_lt hlt
  intro m hm hnull
  rw [hcl.ids] at hnull ⊢
  split at hnull
  · next hmn =>
    rw [if_pos hmn, hcl.slots, hcl.handle, GcWeakRawId.index_new hlt, GcWeakRawId.version_new hlt,
      if_pos rfl, hmn]
  · next hmn =>
    have hslot := hfinds m hm hnull
    rw [if_neg hmn, hcl.slots, if_neg (ne_freeSlot hslot), hslot]

end WeakFinds

/-! ### The invariant -/

/-- Nodes and slots agree on who owns what. -/
structure WeakInv (h : GcHeap) : Prop extends WeakOwners h.Live h where
  /-- Who has a handle is in the slot. -/
  slot : WeakFinds h.Live h

end GcHeap

/-- What a step can do to the weak table. -/
inductive WeakStep (h : GcHeap) (op : Op) (h' : GcHeap) : Prop
  /-- Neither nodes nor slots change. -/
  | keep (hlive : ∀ n, h'.Live n ↔ h.Live n) (hid : ∀ n, (h'.head n).weakId = (h.head n).weakId)
      (hslots : h'.weakSlots = h.weakSlots)
  /-- A node comes to life, without a handle. -/
  | fresh {n : NodePtr} (hn : ¬ h.Live n) (hlive : ∀ m, h'.Live m ↔ m = n ∨ h.Live m)
      (hid : ∀ m, (h'.head m).weakId = if m = n then .null else (h.head m).weakId)
      (hslots : h'.weakSlots = h.weakSlots)
  /-- Nodes are reclaimed, and their slots emptied. -/
  | reclaim {gone : List NodePtr} (hgone : ∀ n ∈ gone, h.Live n)
      (hlive : ∀ n, h'.Live n ↔ h.Live n ∧ n ∉ gone)
      (hid : ∀ n, (h'.head n).weakId = (h.head n).weakId)
      (hslots : h'.weakSlots = (gone.map fun n => (h.head n).weakId).foldl GcHeap.emptySlot
        h.weakSlots)
  /-- A node takes a handle. -/
  | claim {n : NodePtr} {w : GcWeakRawId} (hop : op = .downgrade n) (hn : h.Live n)
      (hlive : ∀ m, h'.Live m ↔ h.Live m) (hclaims : h.Claims n w h')

open GcHeap in
/-- A sweep, after any marking, reclaims the unlinked nodes, or nothing. -/
private theorem weakStep_sweep {h h₁ : GcHeap} {op : Op} {i : ℕ} (hmem : h.MemInv)
    (hstore : h₁.store = h.store) : WeakStep h op (h₁.twoPhaseSweep i).1 := by
  have hmem₁ : h₁.MemInv := hmem.congr hstore
  have hid : ∀ n, ((h₁.twoPhaseSweep i).1.head n).weakId = (h.head n).weakId := fun n => by
    rw [(h₁.twoPhaseSweep_frame i).1]
    exact weakId_of_store hstore n
  by_cases hdone : h₁.CycleDone i
  · have hperm := passOrder_perm (h := h₁) (l := h₁.unlinked i) fun n hn =>
      hmem₁.dtype i n (List.mem_filter.mp hn).1
    refine @WeakStep.reclaim _ _ _ (h₁.passOrder (h₁.unlinked i)) (fun n hn => ?_) (fun n => ?_)
      hid ?_
    · exact (live_of_store hstore).mp ⟨i, (List.mem_filter.mp (hperm.subset hn)).1⟩
    · rw [hmem₁.live_twoPhaseSweep hdone, live_of_store hstore, hperm.mem_iff]
    · rw [weakSlots_twoPhaseSweep hdone, weakSlots_of_store hstore]
      simp only [weakId_of_store hstore]
  · rw [twoPhaseSweep_of_not_done hdone] at hid ⊢
    exact .keep (fun n => live_of_store hstore) hid (weakSlots_of_store hstore)

open GcHeap in
/-- The end of a partition reclaims its nodes. Their slots are emptied in both phases. -/
private theorem weakStep_removePartition {h h' : GcHeap} {op : Op} {debug : Bool} {i bytes : ℕ}
    {sys : Option ℕ} (hmem : h.MemInv)
    (hok : h.removePartition debug i sys = some (h', bytes)) : WeakStep h op h' := by
  obtain rfl | ⟨hi, h₁, link, arena, log, hh₁, rfl, -, heq⟩ := removePartition_ok hok
  · exact .keep (fun _ => .rfl) (fun _ => rfl) rfl
  have hstore : h₁.store = h.store := hh₁ ▸ store_clearScopesOf
  have hi : i < h₁.partitions.length := by rwa [length_of_store hstore]
  have hmem₁ : h₁.MemInv := hmem.congr hstore
  obtain ⟨⟨hself, -⟩, hother, -⟩ := par_of_torn heq
  have hpar : ∀ j, (h'.par j).nodes = if j = i then [] else (h₁.par j).nodes := by
    intro j
    by_cases hj : j = i
    · rw [if_pos hj, hj, hself]
    · rw [if_neg hj, hother j hj]
  refine @WeakStep.reclaim _ _ _ ((h₁.par i).nodes ++ (h₁.par i).nodes) (fun n hn => ?_)
    (fun n => ?_) (fun n => ?_) ?_
  · exact (live_of_store hstore).mp ⟨i, by simpa using hn⟩
  · rw [← live_of_store hstore, List.mem_append, or_self]
    simp only [Live, hpar]
    constructor
    · rintro ⟨j, hn⟩
      split at hn
      · exact absurd hn List.not_mem_nil
      · next hj =>
        refine ⟨⟨j, hn⟩, fun hni => hj ?_⟩
        exact (hmem₁.own j n hn).symm.trans (hmem₁.own i n hni)
    · rintro ⟨⟨j, hn⟩, hkept⟩
      refine ⟨j, ?_⟩
      rwa [if_neg]
      rintro rfl
      exact hkept hn
  · rw [heq]
    exact weakId_of_store hstore n
  · rw [heq, ← weakSlots_of_store hstore]
    simp only [← weakId_of_store hstore]
    rfl

open GcHeap in
/-- **Every step** does one of these things to it. -/
theorem Step.weak {h h' : GcHeap} {op : Op} (hmem : h.MemInv) (hst : Step h op h') :
    WeakStep h op h' := by
  cases hst.store with
  | same heq =>
    exact .keep (fun n => live_of_store heq) (weakId_of_store heq) (weakSlots_of_store heq)
  | create hop hfresh hok =>
    have hlive : ∀ n, h'.Live n ↔ h.Live n := fun n => by
      have hview := congrArg (fun s => MarkState.Live s n) (view_createPartition hok)
      exact iff_of_eq hview
    obtain ⟨q, rfl, -⟩ := createPartition_ok hok
    exact .keep hlive (fun _ => rfl) rfl
  | @alloc i dtype size payload skipArena sys h₁ n htype hsys hdtype hfresh hok heq =>
    obtain ⟨fromArena, hatt, -⟩ := allocNodeMem_attached hok
    have hn := (hmem.allocNodeMem hdtype hfresh hok).1
    refine .fresh (n := n) hn (fun m => ?_) (fun m => ?_) ?_
    · rw [live_of_store heq]
      exact hatt.live_iff
    · rw [weakId_of_store heq, hatt.head, Function.update_apply]
      split <;> rfl
    · rw [weakSlots_of_store heq, hatt.slots]
  | sweep hop hstore heq =>
    rw [heq]
    exact weakStep_sweep hmem hstore
  | @downgrade n w hop hn hok =>
    have hlive : ∀ m, h'.Live m ↔ h.Live m := fun m => by
      have hview := congrArg (fun s => MarkState.Live s m) (view_downgrade hok)
      exact iff_of_eq hview
    rcases downgrade_ok hok with ⟨-, rfl, -⟩ | hclaims
    · exact .keep hlive (fun _ => rfl) rfl
    · exact .claim hop hn hlive hclaims
  | remove hop hfresh hok => exact weakStep_removePartition hmem hok

/-! ### In every run -/

section

open GcHeap

variable {h h' g : GcHeap} {op : Op} {n m : NodePtr} {w : GcWeakRawId}

namespace GcHeap.WeakInv

theorem new (registry : GcTypeRegistry) : (GcHeap.new registry).WeakInv where
  slot := by
    rintro n ⟨i, hn⟩
    rw [par_of_length_le (Nat.zero_le i)] at hn
    cases hn
  owner := fun i v n hslot => by cases hslot
  version_lt := fun i slot hslot => by cases hslot

/-- Every way of changing the table keeps the invariant. -/
theorem weakStep (hinv : h.WeakInv) (hst : WeakStep h op h') : h'.WeakInv := by
  cases hst with
  | keep hlive hid hslots =>
    refine ⟨hinv.keep (fun n => (hlive n).mpr) (fun n _ => hid n) hslots, ?_⟩
    exact hinv.slot.keep (fun n hn _ => ⟨(hlive n).mp hn, hid n⟩) hslots
  | @fresh n hn hlive hid hslots =>
    have hid' : ∀ m, h.Live m → (h'.head m).weakId = (h.head m).weakId := fun m hm => by
      rw [hid, if_neg]
      rintro rfl
      exact hn hm
    refine ⟨hinv.keep (fun m hm => (hlive m).mpr (.inr hm)) hid' hslots, ?_⟩
    refine hinv.slot.keep (fun m hm hnull => ?_) hslots
    rcases (hlive m).mp hm with rfl | hm
    · rw [hid, if_pos rfl] at hnull
      cases hnull
    · exact ⟨hm, hid' m hm⟩
  | @reclaim gone hgone hlive hid hslots =>
    refine ⟨hinv.emptied (fun n hn hnot => (hlive n).mpr ⟨hn, fun hmem => ?_⟩) hid hslots, ?_⟩
    · exact hnot (List.mem_map_of_mem hmem)
    · refine hinv.slot.emptied hid hslots fun n hn hnull => ?_
      obtain ⟨hn, hkept⟩ := (hlive n).mp hn
      exact ⟨hn, hinv.slot.not_namesSlot hgone hn hnull hkept⟩
  | @claim n w hop hn hlive hclaims =>
    refine ⟨(hinv.claim hclaims hn).keep (fun m => (hlive m).mpr) (fun _ _ => rfl) rfl, ?_⟩
    exact (hinv.slot.claim hinv.freeVersion_lt hclaims).keep
      (fun m hm _ => ⟨(hlive m).mp hm, rfl⟩) rfl

/-- **Every operation keeps the invariant.** -/
theorem step (hinv : h.WeakInv) (hmem : h.MemInv) (hst : Step h op h') : h'.WeakInv :=
  hinv.weakStep (hst.weak hmem)

/-- The handle of a live node. -/
theorem upgrade_weakId (hinv : h.WeakInv) (hn : h.Live n)
    (hnull : (h.head n).weakId.isNull = false) : h.upgrade (h.head n).weakId = some n :=
  upgrade_eq_some_iff.mpr ⟨hnull, hinv.slot n hn hnull⟩

/-- A handle that finds a node is the node's own. -/
theorem eq_weakId_of_upgrade (hinv : h.WeakInv) (hup : h.upgrade w = some n) :
    h.Live n ∧ (h.head n).weakId.isNull = false ∧ w = (h.head n).weakId := by
  obtain ⟨-, hslot⟩ := upgrade_eq_some_iff.mp hup
  obtain ⟨hn, hnn, hindex, hversion⟩ := hinv.owner _ _ _ hslot
  exact ⟨hn, hnn, GcWeakRawId.ext_of_index hindex.symm hversion.symm⟩

end GcHeap.WeakInv

/-- A handle stays with its node as long as that is live. -/
theorem WeakStep.weakId_eq (hst : WeakStep h op h') (hn : h.Live n)
    (hnull : (h.head n).weakId.isNull = false) : (h'.head n).weakId = (h.head n).weakId := by
  cases hst with
  | keep hlive hid hslots => exact hid n
  | fresh hm hlive hid hslots =>
    rw [hid, if_neg]
    rintro rfl
    exact hm hn
  | reclaim hgone hlive hid hslots => exact hid n
  | claim hop hm hlive hclaims =>
    rw [hclaims.ids, if_neg]
    rintro rfl
    rw [hclaims.null] at hnull
    cases hnull

theorem weakInv_of_reachable {C : GcHeap → Op → Prop} (hr : ReachableWith C h) :
    h.MemInv ∧ h.WeakInv := by
  obtain ⟨registry, hr⟩ := hr
  refine hr.invariant (I := fun h => h.MemInv ∧ h.WeakInv) (fun _ _ _ hs hst => ?_)
    ⟨.new registry, .new registry⟩
  exact ⟨hs.1.step hst.1, hs.2.step hs.1 hst.1⟩

/-- A node that stays live keeps its handle. -/
theorem weakId_of_run {ops : List Op} (hmem : h.MemInv) (hinv : h.WeakInv)
    (hnull : (h.head n).weakId.isNull = false) (hrun : Run (StepWith fun h _ => h.Live n) h ops g) :
    g.MemInv ∧ g.WeakInv ∧ (g.head n).weakId = (h.head n).weakId := by
  refine hrun.invariant (I := fun g => g.MemInv ∧ g.WeakInv ∧
    (g.head n).weakId = (h.head n).weakId) (fun s a t hs hst => ?_) ⟨hmem, hinv, rfl⟩
  obtain ⟨hmem, hinv, hid⟩ := hs
  obtain ⟨hst, hn⟩ := hst
  have hst' := hst.weak hmem
  exact ⟨hmem.step hst, hinv.weakStep hst', (hst'.weakId_eq hn (by rw [hid, hnull])).trans hid⟩

/-- Taking a handle gives the node's own, from then on. -/
theorem GcHeap.WeakInv.downgrade (hinv : h.WeakInv) (hmem : h.MemInv) (hn : h.Live n)
    (hok : h.downgrade n = some (h', w)) : h'.WeakInv ∧ h'.Live n ∧ w.isNull = false ∧
      (h'.head n).weakId = w := by
  have hst : WeakStep h (.downgrade n) h' :=
    Step.weak hmem ⟨hn, by rw [exec, hok]; rfl⟩
  have hlive : h'.Live n := by
    have hview := congrArg (fun s => MarkState.Live s n) (view_downgrade hok)
    exact hview.mpr hn
  exact ⟨hinv.weakStep hst, hlive, handle_of_downgrade hinv.freeVersion_lt hok⟩

/-- Of a node that has a handle, downgrading gives it again. -/
theorem GcHeap.downgrade_of_not_null (hnull : (h.head n).weakId.isNull = false) :
    h.downgrade n = some (h, (h.head n).weakId) := by
  simp [GcHeap.downgrade, hnull]

end

open GcHeap in
/-- **The weak table.** In every run the slots in use and the live nodes with a handle correspond,
so no two live nodes share a slot. A handle taken for a node is the one that `downgrade` gives
again, and it finds the node, for as long as the node is live. A step changes what a handle of a
live node finds only if it reclaims that node. -/
theorem weak_table {h : GcHeap} (hr : Reachable h) :
    (∀ n, h.Live n → (h.head n).weakId.isNull = false →
      (h.head n).weakId.index < h.weakSlots.length ∧ (h.head n).weakId.version ≠ 0 ∧
      h.weakSlots[(h.head n).weakId.index]? = some ⟨(h.head n).weakId.version, some n⟩) ∧
    (∀ (i v : ℕ) (n : NodePtr), h.weakSlots[i]? = some ⟨v, some n⟩ → h.Live n ∧
      (h.head n).weakId.isNull = false ∧ (h.head n).weakId.index = i ∧
      (h.head n).weakId.version = v) ∧
    (∀ n m, h.Live n → h.Live m → (h.head n).weakId.isNull = false →
      (h.head m).weakId.isNull = false →
      (h.head n).weakId.index = (h.head m).weakId.index → n = m) ∧
    (∀ n h' w, h.Live n → h.downgrade n = some (h', w) →
      ∀ ops g, Run (StepWith fun h _ => h.Live n) h' ops g → g.Live n →
        g.upgrade w = some n ∧ g.downgrade n = some (g, w)) ∧
    ∀ op h', Step h op h' → ∀ n w, h'.Live n → h.upgrade w = some n → h'.upgrade w = some n := by
  obtain ⟨hmem, hinv⟩ := weakInv_of_reachable hr
  refine ⟨fun n hn hnull => ?_, hinv.owner, fun n m => hinv.slot.eq_of_index,
    fun n h' w hn hok ops g hrun hlive => ?_, fun op h' hst n w hlive hup => ?_⟩
  · have hslot := hinv.slot n hn hnull
    refine ⟨(List.getElem?_eq_some_iff.mp hslot).1, fun hzero => ?_, hslot⟩
    rw [GcWeakRawId.isNull, hzero] at hnull
    cases hnull
  · obtain ⟨hinv', hn', hnull, hid⟩ := hinv.downgrade hmem hn hok
    obtain ⟨-, hinvg, hidg⟩ := weakId_of_run (hmem.downgrade hok) hinv' (hid ▸ hnull) hrun
    rw [hid] at hidg
    have hnullg : (g.head n).weakId.isNull = false := hidg ▸ hnull
    rw [← hidg]
    exact ⟨hinvg.upgrade_weakId hlive hnullg, downgrade_of_not_null hnullg⟩
  · obtain ⟨hn, hnull, rfl⟩ := hinv.eq_weakId_of_upgrade hup
    have hst' := hst.weak hmem
    have hid := hst'.weakId_eq hn hnull
    rw [← hid] at hnull ⊢
    exact (hinv.weakStep hst').upgrade_weakId hlive hnull

/-- Three nodes with handles, the second of which has been reclaimed; a fourth one takes its
slot. -/
private theorem exists_reused : ∃ h : GcHeap, Reachable h ∧ h.Live 1000 ∧ h.Live 4000 ∧
    (h.head 1000).weakId = .new 0 1 ∧ (h.head 4000).weakId = .new 1 2 :=
  exists_of_play (gcTypeTableInternal 24 8 [⟨8, 8, true, none⟩])
    [.createPartition 0 0 none, .allocRootRaw 0 0 [] (some 1000), .allocRaw 0 0 [] (some 2000),
      .allocRootRaw 0 0 [] (some 3000), .downgrade 1000, .downgrade 2000, .downgrade 3000,
      .garbageCollect 0, .allocRootRaw 0 0 [] (some 4000), .downgrade 4000]
    (by decide +kernel)

/-- The slot has its second version, and finds the new node. -/
theorem weak_table_reused : ∃ h : GcHeap, h.Live 1000 ∧
    h.weakSlots[1]? = some ⟨2, some 4000⟩ ∧
    h.downgrade 1000 = some (h, .new 0 1) ∧ h.upgrade (.new 0 1) = some 1000 := by
  obtain ⟨h, hr, h1000, h4000, hid1000, hid4000⟩ := exists_reused
  have hslot := ((weak_table hr).1 4000 h4000 (by rw [hid4000]; rfl)).2.2
  rw [hid4000] at hslot
  have hdown : h.downgrade 1000 = some (h, .new 0 1) := by
    rw [GcHeap.downgrade_of_not_null (by rw [hid1000]; rfl), hid1000]
  have hhandle := (weak_table hr).2.2.2.1 1000 h _ h1000 hdown [] h (.nil h) h1000
  exact ⟨h, h1000, hslot, hhandle.2, hhandle.1⟩

end GcLite
