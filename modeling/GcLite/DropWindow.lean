import GcLite.Destruction
import GcLite.WeakInvariant

/-!
# Weak references while payloads are dropped

Drop functions run while the nodes that are being reclaimed are still in memory, and they may
upgrade weak references. Teardown empties the weak slots of all its nodes before the first payload
is dropped. The three-step sweep drops all payloads first, and a slot is emptied only when its node
is disposed of.

## Main definitions

* `SweepMoment`, `FinalizeMoment` — the states of the heap while a batch is being reclaimed
* `NoDroppedUpgrade` — no handle finds a node whose payload has been dropped

## Main results

* `finalizeMoment_noDroppedUpgrade` — teardown is safe
* `noDroppedUpgrade_iff` — when a sweep is
-/

namespace GcLite

open Transition GcHeap

/-- The states in which a sweep of partition `i` drops payloads, and then disposes of nodes. -/
inductive SweepMoment (h : GcHeap) (i : ℕ) : GcHeap → Prop
  /-- After some of the drop functions. -/
  | dropping {h₁ : GcHeap} {white done rest : List NodePtr}
      (hunlink : h.sweepUnlink i = (h₁, some white)) (hwhite : white = done ++ rest) :
      SweepMoment h i (h₁.emit (h₁.sweepDropPayloads done))
  /-- After all of them, and some of the disposals. -/
  | disposing {h₁ : GcHeap} {white done rest : List NodePtr}
      (hunlink : h.sweepUnlink i = (h₁, some white)) (horder : h₁.passOrder white = done ++ rest) :
      SweepMoment h i
        (done.foldl (SweepState.disposeNode i) ⟨h₁.emit (h₁.sweepDropPayloads white), [], 0⟩).heap

/-- The states in which teardown of partition `i` drops payloads, and then frees nodes. -/
inductive FinalizeMoment (h : GcHeap) (i : ℕ) : GcHeap → Prop
  /-- After some of the drop functions. -/
  | dropping {h₁ : GcHeap} {link : List NodePtr} {done rest : List GcEvent}
      (hprep : h.finalizePartitionPrepare i = some (h₁, link))
      (hdrops : h₁.finalizeDrops link = done ++ rest) : FinalizeMoment h i (h₁.emit done)
  /-- After all of them, and with some of the nodes freed. -/
  | freeing {h₁ : GcHeap} {link done rest : List NodePtr} (debug : Bool)
      (hfin : h.finalizePartition i = some (h₁, link)) (hlink : link = done ++ rest) :
      FinalizeMoment h i (done.foldl (deallocNode debug) h₁)

/-- No handle finds a node whose payload has been dropped since `h`. -/
def NoDroppedUpgrade (h g : GcHeap) : Prop :=
  ∀ w n, g.upgrade w = some n → n ∉ dropsIn (h.newEvents g)

variable {h h₁ g : GcHeap} {i : ℕ} {n : NodePtr} {link white : List NodePtr}

/-- It is enough that the slots of the dropped nodes have been emptied. -/
theorem noDroppedUpgrade_of_emptied (hinv : h.WeakInv) {ws : List GcWeakRawId}
    (hslots : g.weakSlots = ws.foldl emptySlot h.weakSlots)
    (hdrops : ∀ n ∈ dropsIn (h.newEvents g), h.Live n → (h.head n).weakId.isNull = false →
      (h.head n).weakId ∈ ws) : NoDroppedUpgrade h g := by
  intro w n hup hn
  obtain ⟨hup, hnot⟩ := upgrade_of_emptied hslots hup
  obtain ⟨hlive, hnull, rfl⟩ := hinv.eq_weakId_of_upgrade hup
  exact hnot ⟨_, hdrops n hn hlive hnull, hnull, rfl⟩

/-! ### Teardown -/

theorem finalizePartitionPrepare_frame (hprep : h.finalizePartitionPrepare i = some (h₁, link)) :
    h₁.weakSlots = (link.map fun n => (h.head n).weakId).foldl emptySlot h.weakSlots ∧
      (∀ n, (h₁.head n).weakId = (h.head n).weakId) ∧ h₁.log = h.log := by
  obtain ⟨-, -, rfl⟩ := finalizePartitionPrepare_ok hprep
  have hstore : (h.clearScopesOf i).store = h.store := store_clearScopesOf
  refine ⟨?_, fun n => (weakId_of_store hstore n :), (congrArg GcHeap.log hstore :)⟩
  simp only [weakId_of_store hstore, weakSlots_of_store hstore]

theorem mem_dropsIn_finalizeDrops {events : List GcEvent} (hpre : events <+: h.finalizeDrops link)
    (hn : n ∈ dropsIn events) : n ∈ link := by
  have hall : n ∈ dropsIn (h.finalizeDrops link) := by
    obtain ⟨rest, hrest⟩ := hpre
    rw [← hrest, dropsIn_append]
    exact List.mem_append_left _ hn
  rw [finalizeDrops_eq, dropsIn_payloads] at hall
  exact (mem_buckets.mp (List.mem_filter.mp hall).1).1

/-- **Teardown is safe**: the slots of the whole chain are empty before the first payload is
dropped. -/
theorem finalizeMoment_noDroppedUpgrade (hinv : h.WeakInv) (hm : FinalizeMoment h i g) :
    NoDroppedUpgrade h g := by
  cases hm with
  | @dropping h₁ link done rest hprep hdrops =>
    obtain ⟨hslots, -, hlog⟩ := finalizePartitionPrepare_frame hprep
    refine noDroppedUpgrade_of_emptied hinv hslots fun n hn _ _ => List.mem_map_of_mem ?_
    rw [@newEvents_of_log _ _ done (congrArg (· ++ done) hlog)] at hn
    exact mem_dropsIn_finalizeDrops ⟨rest, hdrops.symm⟩ hn
  | @freeing h₂ link done rest debug hfin hlink =>
    obtain ⟨⟨h₁, l⟩, hprep, heq⟩ := Option.map_eq_some_iff.mp hfin
    obtain ⟨rfl, rfl⟩ := Prod.mk.inj heq
    obtain ⟨hslots, hids, hlog⟩ := finalizePartitionPrepare_frame hprep
    have hevents : h.newEvents (done.foldl (deallocNode debug) (h₁.emit (h₁.finalizeDrops l))) =
        h₁.finalizeDrops l ++
          done.flatMap (deallocEvents debug (h₁.emit (h₁.finalizeDrops l))) := by
      refine newEvents_of_log ?_
      rw [log_foldl_deallocNode, ← List.append_assoc, ← hlog]
      rfl
    obtain ⟨log, hfree⟩ := foldl_deallocNode debug done (h₁.emit (h₁.finalizeDrops l))
    refine @noDroppedUpgrade_of_emptied _ _ hinv ((l ++ done).map fun n => (h.head n).weakId) ?_
      fun n hn _ _ => List.mem_map_of_mem (List.mem_append_left _ ?_)
    · rw [hfree, List.map_append, List.foldl_append, ← hslots]
      simp only [← hids]
      rfl
    · rw [hevents, dropsIn_append] at hn
      rcases List.mem_append.mp hn with hn | hn
      · exact mem_dropsIn_finalizeDrops List.prefix_rfl hn
      · rw [dropsIn_flatMap] at hn
        obtain ⟨m, -, hn⟩ := List.mem_flatMap.mp hn
        simp [dropsIn_deallocEvents] at hn

/-! ### The three-step sweep -/

theorem sweepUnlink_frame (hunlink : h.sweepUnlink i = (h₁, some white)) :
    h₁.weakSlots = h.weakSlots ∧ h₁.head = h.head ∧ h₁.info = h.info ∧ h₁.log = h.log := by
  obtain ⟨-, -, rfl⟩ := sweepUnlink_ok hunlink
  exact ⟨rfl, rfl, rfl, rfl⟩

/-- A sweep drops payloads of unlinked nodes, and empties no other slots than theirs. -/
theorem SweepMoment.spec (hm : SweepMoment h i g) : h.CycleDone i ∧ ∃ ws : List GcWeakRawId,
    g.weakSlots = ws.foldl emptySlot h.weakSlots ∧
    ∀ n ∈ dropsIn (h.newEvents g), n ∈ h.unlinked i ∧ (h.info n).dropFn = true := by
  cases hm with
  | @dropping h₁ white done rest hunlink hwhite =>
    obtain ⟨hslots, -, hinfo, hlog⟩ := sweepUnlink_frame hunlink
    obtain ⟨hdone, rfl, -⟩ := sweepUnlink_ok hunlink
    refine ⟨hdone, [], hslots, fun n hn => ?_⟩
    rw [@newEvents_of_log _ _ (h₁.sweepDropPayloads done)
      (congrArg (· ++ h₁.sweepDropPayloads done) hlog), sweepDropPayloads, dropsIn_payloads,
      List.mem_filter, hinfo] at hn
    exact ⟨hwhite ▸ List.mem_append_left _ hn.1, hn.2⟩
  | @disposing h₁ white done rest hunlink horder =>
    obtain ⟨hslots, -, hinfo, hlog⟩ := sweepUnlink_frame hunlink
    obtain ⟨hdone, rfl, -⟩ := sweepUnlink_ok hunlink
    refine ⟨hdone, done.map fun n => (h₁.head n).weakId, ?_, fun n hn => ?_⟩
    · rw [weakSlots_foldl_disposeNode, ← hslots]
      rfl
    · rw [@newEvents_of_log h _ (h₁.sweepDropPayloads (h.unlinked i) ++
        done.flatMap h₁.disposeEvents), dropsIn_append, dropsIn_disposals, List.append_nil,
        sweepDropPayloads, dropsIn_payloads, List.mem_filter, hinfo] at hn
      · exact hn
      · rw [log_foldl_disposeNode, ← List.append_assoc, ← hlog]
        rfl

/-- **No handle finds a node whose payload has been dropped**, in any state of a teardown or of a
sweep, if and only if the nodes that the sweep drops have never been downgraded. -/
theorem noDroppedUpgrade_iff {h : GcHeap} {i : ℕ} (hr : Reachable h) :
    (∀ g, SweepMoment h i g ∨ FinalizeMoment h i g → NoDroppedUpgrade h g) ↔
      (h.CycleDone i → ∀ n ∈ h.unlinked i, (h.info n).dropFn = true →
        (h.head n).weakId.isNull = true) := by
  obtain ⟨hmem, hinv⟩ := weakInv_of_reachable hr
  constructor
  · intro hsafe hdone n hn hdrop
    by_contra hnull
    rw [Bool.not_eq_true] at hnull
    obtain ⟨h₁, hunlink⟩ : ∃ h₁, h.sweepUnlink i = (h₁, some (h.unlinked i)) := by
      have hne : (h.par i).nodes ≠ [] := List.ne_nil_of_mem (List.mem_filter.mp hn).1
      obtain ⟨hi, hm, hg⟩ := hdone
      refine ⟨(h.sweepUnlink i).1, Prod.ext rfl ?_⟩
      rw [sweepUnlink, if_neg (Nat.not_le.mpr hi), if_neg (by simp [hm, hg]),
        if_neg (by simpa using hne)]
      rfl
    obtain ⟨hslots, -, hinfo, hlog⟩ := sweepUnlink_frame hunlink
    have hmoment := SweepMoment.dropping hunlink (List.append_nil _).symm
    refine hsafe _ (.inl hmoment) (h.head n).weakId n ?_ ?_
    · refine upgrade_eq_some_iff.mpr ⟨hnull, ?_⟩
      change h₁.weakSlots[(h.head n).weakId.index]? = _
      rw [hslots]
      exact hinv.slot n ⟨i, (List.mem_filter.mp hn).1⟩ hnull
    · rw [newEvents_of_log (congrArg (· ++ h₁.sweepDropPayloads _) hlog), sweepDropPayloads,
        dropsIn_payloads, List.mem_filter, hinfo]
      exact ⟨hn, hdrop⟩
  · rintro hnull g (hm | hm)
    · obtain ⟨hdone, ws, hslots, hdrops⟩ := hm.spec
      refine noDroppedUpgrade_of_emptied hinv hslots fun n hn _ hnn => ?_
      obtain ⟨hun, hdrop⟩ := hdrops n hn
      rw [hnull hdone n hun hdrop] at hnn
      cases hnn
    · exact finalizeMoment_noDroppedUpgrade hinv hm

/-- A marked-out partition with a dead node, which has a handle or not. -/
private theorem exists_dead (ops : List Op) (P : GcHeap → Prop) [DecidablePred P]
    (hplay : (play (fun _ _ => True) ([.createPartition 0 0 none, .allocRootRaw 0 0 [] (some 500),
      .allocRaw 0 0 [] (some 1000)] ++ ops ++ [.mark 0 64])
      (GcHeap.new (gcTypeTableInternal 24 8 [⟨8, 8, true, none⟩]))).any fun h => P h) :
    ∃ h, Reachable h ∧ P h := exists_of_play _ _ hplay

/-- Only the root has a handle. -/
theorem noDroppedUpgrade_root : ∃ h : GcHeap, h.unlinked 0 = [1000] ∧
    h.upgrade (.new 0 1) = some 500 ∧
    ∀ g, SweepMoment h 0 g ∨ FinalizeMoment h 0 g → NoDroppedUpgrade h g := by
  obtain ⟨h, hr, hun, hnull, hup⟩ := exists_dead [.downgrade 500] (fun h => h.unlinked 0 = [1000] ∧
    (h.head 1000).weakId.isNull = true ∧ h.upgrade (.new 0 1) = some 500) (by decide +kernel)
  refine ⟨h, hun, hup, (noDroppedUpgrade_iff hr).mpr fun _ n hn _ => ?_⟩
  rw [hun, List.mem_singleton] at hn
  rw [hn, hnull]

/-- **A handle finds a dropped payload.** -/
theorem sweep_upgrades_dropped : ∃ h g : GcHeap, Reachable h ∧ SweepMoment h 0 g ∧
    g.upgrade (.new 0 1) = some 1000 ∧ 1000 ∈ dropsIn (h.newEvents g) := by
  obtain ⟨h, hr, hun, hup, hdrop⟩ := exists_dead [.downgrade 1000] (fun h =>
    (h.sweepUnlink 0).2 = some [1000] ∧
    ((h.sweepUnlink 0).1.emit ((h.sweepUnlink 0).1.sweepDropPayloads [1000])).upgrade (.new 0 1) =
      some 1000 ∧
    1000 ∈ dropsIn (h.newEvents
      ((h.sweepUnlink 0).1.emit ((h.sweepUnlink 0).1.sweepDropPayloads [1000]))))
    (by decide +kernel)
  exact ⟨h, _, hr, .dropping (Prod.ext rfl hun) (List.append_nil _).symm, hup, hdrop⟩

end GcLite
