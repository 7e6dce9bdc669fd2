import GcLite.Reclaim
import GcLite.Slicing
import GcLite.WeakInvariant

/-!
# What a collection leaves alone

The mark phase of a collection goes through all partitions, and its sweep empties weak slots by
their index in a table that the partitions share. All the same, what it takes away are nodes of the
partition that is collected, and elsewhere it only changes what marking is recorded in.

## Main definitions

* `GcHead.unmarked` — a header without what marking writes
* `GcHeap.CollectsOnly` — nothing but nodes of one partition is gone

## Main results

* `par_twoPhaseSweep_of_ne` — a sweep does not touch the other partitions
* `collection_frame` — what a collection leaves alone
-/

namespace GcLite

open Transition

/-- A header without what marking writes. -/
def GcHead.unmarked (hd : GcHead) : GcHead := { hd with color := .white, grayListed := false }

namespace GcHeap

open MarkState

variable {h h' : GcHeap} {i j bytes : ℕ} {n : NodePtr} {w : GcWeakRawId}

/-! ### The mark phase -/

/-- Scopes, payloads and headers, but for colours and list flags, are what they were when the sweep
begins. -/
theorem markFrame_unmarked :
    MarkFrame fun h => (h.store, h.scopeStacks, h.refs, fun n => (h.head n).unmarked) := by
  have hhead : ∀ (h : GcHeap) n (g : GcHead → GcHead), (∀ hd, (g hd).unmarked = hd.unmarked) →
      (fun m => ((h.modifyHead n g).head m).unmarked) = fun m => (h.head m).unmarked :=
    fun h n g hg => funext fun m => field_modifyHead GcHead.unmarked hg
  refine ⟨fun h n c => ?_, fun h n b => ?_, fun h i b => ?_, fun h i f => ?_, fun h => ?_⟩
  · rw [store_setColor]
    exact congrArg (fun x => (h.store, h.scopeStacks, h.refs, x)) (hhead h n _ fun _ => rfl)
  · rw [store_setGrayListed]
    exact congrArg (fun x => (h.store, h.scopeStacks, h.refs, x)) (hhead h n _ fun _ => rfl)
  · rw [store_setMarking]
    rfl
  · rw [store_modifyGray]
    rfl
  · rw [markFrame_store.allMarking]
    rfl

/-! ### The sweep -/

/-- Disposing of a node of partition `i` leaves the other partitions alone. -/
theorem par_disposeNode_of_ne {s : SweepState} (hpid : (s.heap.head n).partitionId = i)
    (hj : j ≠ i) : (s.disposeNode i n).heap.par j = s.heap.par j := by
  obtain ⟨f, hf, heq⟩ := s.heap.disposeNoDrop_eq n
  have hcount : (s.heap.modifyPar i fun q => { q with memoryUsed := f q.memoryUsed }).par j =
      s.heap.par j := par_modifyPar_of_ne (Ne.symm hj)
  rw [hpid] at heq
  unfold SweepState.disposeNode
  rw [heq]
  dsimp only
  split
  · rw [par_modifyPar_of_ne (Ne.symm hj)]
    exact hcount
  · exact hcount

theorem par_foldl_disposeNode_of_ne (hj : j ≠ i) (l : List NodePtr) : ∀ s : SweepState,
    (∀ n ∈ l, (s.heap.head n).partitionId = i) →
    (l.foldl (SweepState.disposeNode i) s).heap.par j = s.heap.par j := by
  induction l with
  | nil => exact fun s _ => rfl
  | cons n l ih =>
    intro s hpid
    obtain ⟨hn, hl⟩ := List.forall_mem_cons.mp hpid
    rw [List.foldl_cons, ih _ (by rwa [SweepState.head_disposeNode]), par_disposeNode_of_ne hn hj]

/-- **A sweep** does not touch the other partitions. -/
theorem par_twoPhaseSweep_of_ne (hinv : h.MemInv) (hj : j ≠ i) :
    (h.twoPhaseSweep i).1.par j = h.par j := by
  by_cases hdone : h.CycleDone i
  · by_cases hempty : (h.par i).nodes = []
    · rw [twoPhaseSweep_of_empty hdone hempty]
      exact par_modifyPar_of_ne (Ne.symm hj)
    · obtain ⟨s, hs, heq⟩ := twoPhaseSweep_of_done hdone hempty
      obtain ⟨f, -, -, hfinish⟩ := finishSweep_frame s.heap i s.holes
      have hunlinked : ∀ n ∈ h.unlinked i, n ∈ (h.par i).nodes := fun n hn =>
        (List.mem_filter.mp hn).1
      have hperm := passOrder_perm (h := h) (l := h.unlinked i) fun n hn =>
        hinv.dtype i n (hunlinked n hn)
      rw [heq, hfinish, par_modifyPar_of_ne (Ne.symm hj), hs,
        par_foldl_disposeNode_of_ne hj _ _ fun n hn =>
          hinv.own i n (hunlinked n (hperm.subset hn))]
      exact par_modifyPar_of_ne (Ne.symm hj)
  · rw [twoPhaseSweep_of_not_done hdone]

theorem refs_twoPhaseSweep (h : GcHeap) (i : ℕ) : (h.twoPhaseSweep i).1.refs = h.refs := by
  obtain ⟨ps, total, slots, log, heq⟩ := h.twoPhaseSweep_update i
  rw [heq]

/-- **A collection** leaves the other partitions alone, and in all of them the headers, payloads and
scopes, but for the record of marking. -/
theorem garbageCollect_frame (hinv : h.MemInv) (hi : i < h.partitions.length)
    (hgc : h.garbageCollect i = some (h', bytes)) :
    (∀ j, j ≠ i → (h'.par j).store = (h.par j).store) ∧
    (∀ n, (h'.head n).unmarked = (h.head n).unmarked) ∧ h'.refs = h.refs ∧
      h'.scopeStacks = h.scopeStacks := by
  obtain ⟨hle, -⟩ | ⟨h₁, hsame, hsweep⟩ := markFrame_unmarked.garbageCollect hgc
  · exact absurd hi (Nat.not_lt.mpr hle)
  obtain ⟨hstore, hscopes, hrefs, hhead⟩ : h₁.store = h.store ∧ h₁.scopeStacks = h.scopeStacks ∧
      h₁.refs = h.refs ∧ ∀ n, (h₁.head n).unmarked = (h.head n).unmarked := by
    simp only [Prod.mk.injEq] at hsame
    exact ⟨hsame.1, hsame.2.1, hsame.2.2.1, congrFun hsame.2.2.2⟩
  obtain ⟨hhead', -, hscopes'⟩ := h₁.twoPhaseSweep_frame i
  have hrefs' := h₁.refs_twoPhaseSweep i
  have hpar : ∀ j, j ≠ i → (h₁.twoPhaseSweep i).1.par j = h₁.par j := fun j hj =>
    par_twoPhaseSweep_of_ne (hinv.congr hstore) hj
  rw [hsweep] at hhead' hscopes' hrefs' hpar
  refine ⟨fun j hj => ?_, fun n => ?_, hrefs'.trans hrefs, hscopes'.trans hscopes⟩
  · rw [hpar j hj]
    exact par_store_congr hstore j
  · rw [hhead']
    exact hhead n

end GcHeap

/-! ### Both -/

open GcHeap

/-- A step other than taking a handle leaves every handle with what it found, unless that is no
longer live. -/
theorem WeakStep.finds_iff {h h' : GcHeap} {op : Op} {w : GcWeakRawId} {n : NodePtr}
    (hst : WeakStep h op h') (hinv : h.WeakInv) (hop : ∀ m, op ≠ .downgrade m) :
    h'.upgrade w = some n ↔ h.upgrade w = some n ∧ h'.Live n := by
  have hslots : ∀ {h₁ h₂ : GcHeap}, h₂.weakSlots = h₁.weakSlots → h₂.upgrade w = h₁.upgrade w := by
    intro h₁ h₂ heq
    rw [GcHeap.upgrade, heq, GcHeap.upgrade]
  have hlive : h.upgrade w = some n → h.Live n := fun hup => (hinv.eq_weakId_of_upgrade hup).1
  cases hst with
  | keep hlive' hid heq =>
    rw [hslots heq, hlive']
    exact ⟨fun hup => ⟨hup, hlive hup⟩, And.left⟩
  | fresh hm hlive' hid heq =>
    rw [hslots heq, hlive']
    exact ⟨fun hup => ⟨hup, .inr (hlive hup)⟩, And.left⟩
  | @reclaim gone hgone hlive' hid heq =>
    constructor
    · intro hup
      obtain ⟨hup, hnot⟩ := upgrade_of_emptied heq hup
      obtain ⟨hn, hnull, hw⟩ := hinv.eq_weakId_of_upgrade hup
      refine ⟨hup, (hlive' n).mpr ⟨hn, fun hmem => hnot ⟨_, List.mem_map_of_mem hmem, hnull, ?_⟩⟩⟩
      rw [hw]
    · rintro ⟨hup, hn'⟩
      obtain ⟨hn, hnull, hw⟩ := hinv.eq_weakId_of_upgrade hup
      obtain ⟨hwnull, hslot⟩ := upgrade_eq_some_iff.mp hup
      refine upgrade_eq_some_iff.mpr ⟨hwnull, ?_⟩
      rw [heq, getElem?_foldl_emptySlot_owned]
      refine ⟨hslot, ?_⟩
      rw [hw]
      exact hinv.slot.not_namesSlot hgone hn hnull ((hlive' n).mp hn').2
  | claim hop' _ _ _ => exact absurd hop' (hop _)

/-- From `h` to `h'`, nodes of partition `i` are gone, and otherwise only the record of marking has
changed. -/
structure GcHeap.CollectsOnly (h : GcHeap) (i : ℕ) (h' : GcHeap) : Prop where
  /-- Nothing comes to life. -/
  live : ∀ n, h'.Live n → h.Live n
  /-- Who goes was in the partition. -/
  freed : ∀ n, h.Live n → ¬ h'.Live n → n ∈ (h.par i).nodes
  /-- So was whoever is disposed of. -/
  disposed : ∀ n, .disposed n ∈ h.newEvents h' → n ∈ (h.par i).nodes
  /-- The gray list and the marking flag apart. -/
  others : ∀ j, j ≠ i → (h'.par j).store = (h.par j).store
  /-- Colour and list flag apart. -/
  head : ∀ n, h'.Live n → (h'.head n).unmarked = (h.head n).unmarked
  /-- Payloads are as they were. -/
  refs : h'.refs = h.refs
  /-- Scopes are as they were. -/
  scopes : h'.scopeStacks = h.scopeStacks
  /-- Handles that do not lead into the partition find what they found. -/
  upgrade : ∀ w, (∀ n, h.upgrade w = some n → n ∉ (h.par i).nodes) → h'.upgrade w = h.upgrade w

/-- **The frame of a collection.** In every run, a collection of a partition ends, if gray lists and
payloads name live nodes only. It frees nodes of that partition and changes nothing else, in this
partition or another, but colours, list flags, gray lists and marking flags. -/
theorem collection_frame {h : GcHeap} {i : ℕ} (hr : Reachable h) (hi : i < h.partitions.length)
    (hgray : ∀ j, ∀ n ∈ (h.par j).grayList, h.Live n)
    (hrefs : ∀ n, h.Live n → ∀ c ∈ h.refs n, h.Live c) :
    ∃ h' bytes, h.garbageCollect i = some (h', bytes) ∧ h.CollectsOnly i h' := by
  obtain ⟨hinv, hweak⟩ := weakInv_of_reachable hr
  obtain ⟨h', bytes, hgc⟩ := garbageCollect_isSome hinv hi (hgray i) hrefs
  have hstep : Step h (.garbageCollect i) h' := ⟨trivial, by rw [exec, hgc]; rfl⟩
  refine ⟨h', bytes, hgc, ?_⟩
  obtain ⟨hpar, hhead, hrefs', hscopes⟩ := garbageCollect_frame hinv hi hgc
  have hnodes : ∀ j, j ≠ i → (h'.par j).nodes = (h.par j).nodes := fun j hj =>
    (congrArg GcPartition.nodes (hpar j hj) :)
  obtain ⟨hperm, hdead⟩ := destroysOnce_garbageCollect (hinv.nodup i) (hinv.dtype i) hgc
  have hsub : ∀ n, n ∈ h.garbage i ∨ n ∈ (h'.par i).nodes → n ∈ (h.par i).nodes := fun n hn =>
    hperm.subset (List.mem_append.mpr hn)
  have hlive : ∀ n, h'.Live n → h.Live n := by
    rintro n ⟨j, hn⟩
    by_cases hj : j = i
    · exact ⟨i, hsub n (.inr (hj ▸ hn))⟩
    · exact ⟨j, hnodes j hj ▸ hn⟩
  have hkept : ∀ n, h.Live n → n ∉ (h.par i).nodes → h'.Live n := by
    rintro n ⟨j, hn⟩ hni
    have hj : j ≠ i := by
      rintro rfl
      exact hni hn
    exact ⟨j, (hnodes j hj).symm ▸ hn⟩
  refine ⟨hlive, fun n hn hgone => ?_, fun n hn => ?_, hpar, fun n _ => hhead n, hrefs', hscopes,
    fun w hw => ?_⟩
  · by_contra hni
    exact hgone (hkept n hn hni)
  · have hmem : n ∈ disposalsIn (h.newEvents h') := List.mem_filterMap.mpr ⟨_, hn, rfl⟩
    have hcount := List.count_pos_iff.mpr hmem
    rw [hdead.disposals n] at hcount
    by_contra hni
    rw [if_neg fun hd => hni (hsub n (.inl hd))] at hcount
    exact Nat.lt_irrefl 0 hcount
  · refine Option.ext fun n => ?_
    rw [(hstep.weak hinv).finds_iff hweak fun m heq => by cases heq]
    refine and_iff_left_of_imp fun hup => ?_
    exact hkept n (hweak.eq_weakId_of_upgrade hup).1 (hw n hup)

/-- Two partitions with references both ways, and a weak handle of a node of the other one. -/
theorem collection_frame_two : ∃ (h h' : GcHeap) (bytes : ℕ),
    h.garbageCollect 0 = some (h', bytes) ∧ h.CollectsOnly 0 h' ∧
    h.upgrade (.new 0 1) = some 3000 ∧ h'.upgrade (.new 0 1) = some 3000 := by
  obtain ⟨h, hr, hi, hgray, hrefs, hup, hnot⟩ : ∃ h, Reachable h ∧ 0 < h.partitions.length ∧
      (∀ q ∈ h.partitions, ∀ n ∈ q.grayList, h.Live n) ∧
      (∀ q ∈ h.partitions, ∀ n ∈ q.nodes, ∀ c ∈ h.refs n, h.Live c) ∧
      h.upgrade (.new 0 1) = some 3000 ∧ 3000 ∉ (h.par 0).nodes :=
    exists_of_play (gcTypeTableInternal 24 8 [⟨8, 8, true, none⟩])
      [.createPartition 0 0 none, .createPartition 0 0 none, .allocRaw 0 0 [] (some 1000),
        .allocRaw 0 0 [1000] (some 2000), .allocRaw 1 0 [1000] (some 3000),
        .bind 2000 3000 [1000, 3000], .downgrade 3000]
      (by decide +kernel)
  have hgray' : ∀ j, ∀ n ∈ (h.par j).grayList, h.Live n := by
    intro j n hn
    by_cases hj : j < h.partitions.length
    · exact hgray _ (List.getElem_mem hj) n (by simpa [par, hj] using hn)
    · rw [par_of_length_le (Nat.le_of_not_lt hj)] at hn
      cases hn
  have hrefs' : ∀ n, h.Live n → ∀ c ∈ h.refs n, h.Live c := by
    intro n hn
    obtain ⟨q, hq, hn⟩ := live_iff.mp hn
    exact hrefs q hq n hn
  obtain ⟨h', bytes, hgc, hframe⟩ := collection_frame hr hi hgray' hrefs'
  refine ⟨h, h', bytes, hgc, hframe, hup, ?_⟩
  rw [hframe.upgrade, hup]
  intro n hn
  rw [hup] at hn
  exact Option.some.inj hn ▸ hnot

end GcLite
