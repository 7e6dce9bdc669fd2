import GcLite.DropWindow
import Mathlib.Data.List.Induction

/-!
# Weak references between the phases of teardown

The two phases of teardown are separate calls, and the host may take weak handles between them.
Phase 1 empties the slots of the partition's nodes, but the nodes keep their ids, and phase 2
empties the slots with these ids once more, whoever has them by then.

## Main definitions

* `TeardownState`, `TeardownOp`, `TeardownStep` — the phases and what may come between them
* `TeardownState.HandlesWork` — every handle of a node that is not being reclaimed finds it
* `SlotsEmpty` — phase 2 finds the slots as phase 1 left them

## Main results

* `TeardownInv.step` — a slot in use belongs to a live node that is not being reclaimed
* `handlesWork_iff` — when handles of other nodes are not disturbed
-/

namespace GcLite

open Transition GcHeap

/-- A heap, and the chains that have been finalized but not yet freed. -/
structure TeardownState where
  /-- The heap as the calls see it. -/
  heap : GcHeap
  /-- The chain that the first phase has handed out, for each partition. -/
  pending : ℕ → Option (List NodePtr)

/-- A call in the window between the phases, or one of the phases. -/
inductive TeardownOp
  /-- Take a weak handle. -/
  | downgrade (n : NodePtr)
  /-- Follow a weak handle. -/
  | upgrade (w : GcWeakRawId)
  /-- `finalizePartitionPrepare` alone. -/
  | prepare (i : ℕ)
  /-- The first phase. -/
  | finalize (i : ℕ)
  /-- The second phase, with the chain that it is given. -/
  | dealloc (debug : Bool) (i : ℕ) (link : List NodePtr) (sys : Option ℕ)

namespace TeardownState

/-- The partition's chain is now to be freed. -/
def await (s : TeardownState) (i : ℕ) : Option (GcHeap × List NodePtr) → TeardownState
  | some (h, link) => ⟨h, Function.update s.pending i (some link)⟩
  | none => s

/-- What a call does; `none` when it panics. -/
def exec (s : TeardownState) : TeardownOp → Option TeardownState
  | .downgrade n => (s.heap.downgrade n).map fun r => ⟨r.1, s.pending⟩
  | .upgrade _ => some s
  | .prepare i => some (s.await i (s.heap.finalizePartitionPrepare i))
  | .finalize i => some (s.await i (s.heap.finalizePartition i))
  | .dealloc debug i link sys => (s.heap.deallocPartition debug i link sys).map fun r =>
      ⟨r.1, Function.update s.pending i none⟩

/-- The node is live and is not being reclaimed. -/
def Keeps (s : TeardownState) (n : NodePtr) : Prop :=
  s.heap.Live n ∧ s.pending (s.heap.head n).partitionId = none

instance {s : TeardownState} {n : NodePtr} : Decidable (s.Keeps n) :=
  inferInstanceAs (Decidable (_ ∧ _))

/-- Handles are taken of nodes that are not being reclaimed; a partition is finalized once, and what
is freed is what has been finalized. -/
def Pre (s : TeardownState) : TeardownOp → Prop
  | .downgrade n => s.Keeps n
  | .upgrade _ => True
  | .prepare i => s.pending i = none
  | .finalize i => s.pending i = none
  | .dealloc _ i link sys => s.pending i = some link ∧
      ∀ base, sys = some base → s.heap.RegionFresh link base (s.heap.par i).arenaCapacity

/-- Every handle of a node that is not being reclaimed finds it. -/
def HandlesWork (s : TeardownState) : Prop :=
  ∀ x, s.Keeps x → (s.heap.head x).weakId.isNull = false →
    s.heap.upgrade (s.heap.head x).weakId = some x

theorem handlesWork_iff_finds {s : TeardownState} : s.HandlesWork ↔ WeakFinds s.Keeps s.heap := by
  refine forall₃_congr fun x _ hnull => ?_
  rw [upgrade_eq_some_iff, hnull]
  exact and_iff_right rfl

end TeardownState

/-- One call. -/
def TeardownStep (s : TeardownState) (op : TeardownOp) (t : TeardownState) : Prop :=
  s.Pre op ∧ s.exec op = some t

/-- Freeing finds the weak slots of its nodes still empty. -/
def SlotsEmpty (s : TeardownState) : TeardownOp → Prop
  | .dealloc _ _ link _ => ∀ n ∈ link, (s.heap.head n).weakId.isNull = false →
      ∀ slot, s.heap.weakSlots[(s.heap.head n).weakId.index]? = some slot → slot.node = none
  | _ => True

/-- What holds whether or not handles are disturbed: chains that are pending are the partitions'
own, and a slot in use belongs to a node that is not being reclaimed. -/
structure TeardownInv (s : TeardownState) : Prop where
  /-- Headers name the partitions that the nodes are in. -/
  own : ∀ i, ∀ n ∈ (s.heap.par i).nodes, (s.heap.head n).partitionId = i
  /-- A pending chain is the partition's. -/
  link : ∀ i link, s.pending i = some link → link = (s.heap.par i).nodes
  /-- Whoever is in a slot has its handle and is not being reclaimed. -/
  owners : WeakOwners s.Keeps s.heap

variable {s t : TeardownState} {op : TeardownOp} {i : ℕ} {x : NodePtr} {h h₁ : GcHeap}
  {link : List NodePtr}

theorem TeardownStep.functional {t' : TeardownState} (hst : TeardownStep s op t)
    (hst' : TeardownStep s op t') : t = t' := Option.some.inj (hst.2.symm.trans hst'.2)

/-! ### One call -/

/-- What a call can do to the nodes and to the weak table. -/
inductive WindowStep (s : TeardownState) (op : TeardownOp) (t : TeardownState) : Prop
  /-- Nothing happens. -/
  | keep (hsafe : SlotsEmpty s op) (hstate : t = s)
  /-- A node takes a handle. -/
  | claim (hsafe : SlotsEmpty s op) {n : NodePtr} {w : GcWeakRawId} (hn : s.Keeps n)
      (hnodes : ∀ i, (t.heap.par i).nodes = (s.heap.par i).nodes)
      (hpid : ∀ m, (t.heap.head m).partitionId = (s.heap.head m).partitionId)
      (hpending : t.pending = s.pending) (hclaims : s.heap.Claims n w t.heap)
  /-- The slots of a chain are emptied, and it is pending. -/
  | finalize (hsafe : SlotsEmpty s op) {i : ℕ} (hnew : s.pending i = none)
      (hnodes : ∀ i, (t.heap.par i).nodes = (s.heap.par i).nodes)
      (hpid : ∀ m, (t.heap.head m).partitionId = (s.heap.head m).partitionId)
      (hpending : t.pending = Function.update s.pending i (some (s.heap.par i).nodes))
      (hid : ∀ m, (t.heap.head m).weakId = (s.heap.head m).weakId)
      (hslots : t.heap.weakSlots =
        ((s.heap.par i).nodes.map fun n => (s.heap.head n).weakId).foldl emptySlot s.heap.weakSlots)
  /-- A pending chain is freed, and its slots are emptied once more. -/
  | dealloc {i : ℕ} {link : List NodePtr} (hold : s.pending i = some link)
      (hnodes : ∀ j, (t.heap.par j).nodes = if j = i then [] else (s.heap.par j).nodes)
      (hpid : ∀ m, (t.heap.head m).partitionId = (s.heap.head m).partitionId)
      (hpending : t.pending = Function.update s.pending i none)
      (hid : ∀ m, (t.heap.head m).weakId = (s.heap.head m).weakId)
      (hslots : t.heap.weakSlots =
        (link.map fun n => (s.heap.head n).weakId).foldl emptySlot s.heap.weakSlots)
      (hsafe : SlotsEmpty s op ↔ ∀ n ∈ link, (s.heap.head n).weakId.isNull = false →
        ∀ slot, s.heap.weakSlots[(s.heap.head n).weakId.index]? = some slot → slot.node = none)

/-- Phase 1, with or without dropping payloads. -/
theorem windowStep_await (hsafe : SlotsEmpty s op) (hnew : s.pending i = none)
    (hprep : s.heap.finalizePartitionPrepare i = some (h, link)) (events : List GcEvent) :
    WindowStep s op (s.await i (some (h.emit events, link))) := by
  obtain ⟨hslots, hids, -⟩ := finalizePartitionPrepare_frame hprep
  obtain ⟨-, hlink, hh⟩ := finalizePartitionPrepare_ok hprep
  have hstore : (s.heap.clearScopesOf i).store = s.heap.store := store_clearScopesOf
  rw [nodes_of_store hstore] at hlink
  refine .finalize hsafe hnew (fun j => ?_) (fun m => ?_) (by rw [hlink]; rfl) hids (hlink ▸ hslots)
  · rw [hh]
    exact nodes_of_store hstore j
  · rw [hh]
    exact partitionId_of_store hstore m

/-- **Every call** does one of these things. -/
theorem TeardownStep.window (hst : TeardownStep s op t) : WindowStep s op t := by
  obtain ⟨hpre, hexec⟩ := hst
  cases op with
  | upgrade w =>
    obtain rfl := Option.some.inj hexec
    exact .keep trivial rfl
  | downgrade n =>
    obtain ⟨⟨h', w⟩, hok, rfl⟩ := Option.map_eq_some_iff.mp hexec
    have hview := view_downgrade hok
    rcases downgrade_ok hok with ⟨-, rfl, -⟩ | hclaims
    · exact .keep trivial rfl
    · exact .claim trivial hpre (fun i => congrFun (congrArg MarkState.chain hview) i)
        (fun m => congrFun (congrArg MarkState.pid hview) m) rfl hclaims
  | prepare i =>
    obtain rfl := Option.some.inj hexec
    cases hprep : s.heap.finalizePartitionPrepare i with
    | none => exact .keep trivial rfl
    | some r =>
      have hwindow := @windowStep_await s (.prepare i) _ _ _ trivial hpre hprep []
      rwa [emit, List.append_nil] at hwindow
  | finalize i =>
    obtain rfl := Option.some.inj hexec
    rw [finalizePartition]
    cases hprep : s.heap.finalizePartitionPrepare i with
    | none => exact .keep trivial rfl
    | some r => exact @windowStep_await s (.finalize i) _ _ _ trivial hpre hprep _
  | dealloc debug i link sys =>
    obtain ⟨⟨h', bytes⟩, hok, rfl⟩ := Option.map_eq_some_iff.mp hexec
    obtain ⟨arena, log, -, heq⟩ := deallocPartition_ok hok
    obtain ⟨⟨hself, -⟩, hother, -⟩ := par_of_torn heq
    subst heq
    refine .dealloc hpre.1 (fun j => ?_) (fun _ => rfl) rfl (fun _ => rfl) rfl .rfl
    by_cases hj : j = i
    · rw [if_pos hj, hj, hself]
    · rw [if_neg hj, hother j hj]

/-! ### Invariants -/

namespace TeardownInv

theorem of_reachable (hr : Reachable h) : TeardownInv ⟨h, fun _ => none⟩ := by
  obtain ⟨hmem, hinv⟩ := weakInv_of_reachable hr
  refine ⟨hmem.own, (fun i link hlink => nomatch hlink), ?_⟩
  exact hinv.keep (fun n hn => ⟨hn, rfl⟩) (fun _ _ => rfl) rfl

/-- A node of a chain that is not pending is not being reclaimed. -/
theorem keeps (hinv : TeardownInv s) (hnone : s.pending i = none)
    (hx : x ∈ (s.heap.par i).nodes) : s.Keeps x :=
  ⟨⟨i, hx⟩, by rw [hinv.own i x hx, hnone]⟩

/-- When chains stay and one more of them is pending, the nodes of the others are kept. -/
theorem keeps_finalize (hinv : TeardownInv s)
    (hnodes : ∀ i, (t.heap.par i).nodes = (s.heap.par i).nodes)
    (hpid : ∀ m, (t.heap.head m).partitionId = (s.heap.head m).partitionId)
    (hpending : t.pending = Function.update s.pending i (some link)) :
    t.Keeps x ↔ s.Keeps x ∧ x ∉ (s.heap.par i).nodes := by
  simp only [TeardownState.Keeps, Live, hnodes, hpid, hpending, Function.update_apply]
  constructor
  · rintro ⟨hx, hnone⟩
    split at hnone
    · cases hnone
    · next hne => exact ⟨⟨hx, hnone⟩, fun hxi => hne (hinv.own i x hxi)⟩
  · rintro ⟨⟨⟨j, hx⟩, hnone⟩, hxi⟩
    refine ⟨⟨j, hx⟩, ?_⟩
    rw [if_neg]
    · exact hnone
    · rintro rfl
      rw [hinv.own j x hx] at hxi
      exact hxi hx

/-- When a pending chain is freed, the same nodes are kept as before. -/
theorem keeps_dealloc (hinv : TeardownInv s) (hold : s.pending i = some link)
    (hnodes : ∀ j, (t.heap.par j).nodes = if j = i then [] else (s.heap.par j).nodes)
    (hpid : ∀ m, (t.heap.head m).partitionId = (s.heap.head m).partitionId)
    (hpending : t.pending = Function.update s.pending i none) : t.Keeps x ↔ s.Keeps x := by
  simp only [TeardownState.Keeps, Live, hnodes, hpid, hpending, Function.update_apply]
  constructor
  · rintro ⟨⟨j, hx⟩, hnone⟩
    split at hx
    · exact absurd hx List.not_mem_nil
    · next hj =>
      rw [if_neg (by rwa [hinv.own j x hx])] at hnone
      exact ⟨⟨j, hx⟩, hnone⟩
  · rintro ⟨⟨j, hx⟩, hnone⟩
    have hj : j ≠ i := by
      rintro rfl
      rw [hinv.own j x hx, hold] at hnone
      cases hnone
    refine ⟨⟨j, ?_⟩, ?_⟩
    · rwa [if_neg hj]
    · rwa [if_neg (by rwa [hinv.own j x hx])]

/-- **Every call keeps the invariant.** -/
theorem step (hinv : TeardownInv s) (hst : TeardownStep s op t) : TeardownInv t := by
  cases hst.window with
  | keep hsafe hstate => exact hstate ▸ hinv
  | @claim hsafe n w hn hnodes hpid hpending hclaims =>
    have hkeeps : ∀ m, t.Keeps m ↔ s.Keeps m := fun m => by
      simp only [TeardownState.Keeps, Live, hnodes, hpid, hpending]
    refine ⟨fun i m hm => ?_, fun i link hlink => ?_, ?_⟩
    · rw [hpid]
      exact hinv.own i m (hnodes i ▸ hm)
    · rw [hnodes]
      exact hinv.link i link (hpending ▸ hlink)
    · exact (hinv.owners.claim hclaims hn).keep (fun m => (hkeeps m).mpr) (fun _ _ => rfl) rfl
  | @finalize hsafe i hnew hnodes hpid hpending hid hslots =>
    refine ⟨fun j m hm => ?_, fun j link hlink => ?_, ?_⟩
    · rw [hpid]
      exact hinv.own j m (hnodes j ▸ hm)
    · rw [hpending, Function.update_apply] at hlink
      rw [hnodes]
      split at hlink
      · next hj => exact hj ▸ (Option.some.inj hlink).symm
      · exact hinv.link j link hlink
    · refine hinv.owners.emptied (fun n hn hnot => ?_) hid hslots
      refine (hinv.keeps_finalize hnodes hpid hpending).mpr ⟨hn, fun hmem => hnot ?_⟩
      exact List.mem_map_of_mem hmem
  | @dealloc i link hold hnodes hpid hpending hid hslots hsafe =>
    refine ⟨fun j m hm => ?_, fun j link hlink => ?_, ?_⟩
    · rw [hnodes] at hm
      split at hm
      · exact absurd hm List.not_mem_nil
      · rw [hpid]
        exact hinv.own j m hm
    · rw [hpending, Function.update_apply] at hlink
      split at hlink
      · cases hlink
      · next hj =>
        rw [hnodes, if_neg hj]
        exact hinv.link j link hlink
    · exact hinv.owners.emptied
        (fun n hn _ => (hinv.keeps_dealloc hold hnodes hpid hpending).mpr hn) hid hslots

/-- Handles go on working if freeing finds the slots of its nodes still empty. -/
theorem handlesWork (hinv : TeardownInv s) (hwork : s.HandlesWork) (hst : TeardownStep s op t)
    (hsafe : SlotsEmpty s op) : t.HandlesWork := by
  rw [TeardownState.handlesWork_iff_finds] at hwork ⊢
  cases hst.window with
  | keep _ hstate => exact hstate ▸ hwork
  | @claim _ n w hn hnodes hpid hpending hclaims =>
    refine (hwork.claim hinv.owners.freeVersion_lt hclaims).keep (fun m hm _ => ⟨?_, rfl⟩) rfl
    simpa only [TeardownState.Keeps, Live, hnodes, hpid, hpending] using hm
  | @finalize _ i hnew hnodes hpid hpending hid hslots =>
    refine hwork.emptied hid hslots fun n hn hnull => ?_
    obtain ⟨hn, hkept⟩ := (hinv.keeps_finalize hnodes hpid hpending).mp hn
    exact ⟨hn, hwork.not_namesSlot (fun m => hinv.keeps hnew) hn hnull hkept⟩
  | @dealloc i link hold hnodes hpid hpending hid hslots hsafe' =>
    refine hwork.emptied hid hslots fun n hn hnull => ?_
    have hn := (hinv.keeps_dealloc hold hnodes hpid hpending).mp hn
    refine ⟨hn, ?_⟩
    rintro ⟨w, hw, hwnull, hindex⟩
    obtain ⟨m, hm, rfl⟩ := List.mem_map.mp hw
    cases hsafe'.mp hsafe m hm hwnull _ (hindex ▸ hwork n hn hnull)

/-- If they go on working, it did. -/
theorem slotsEmpty (hinv : TeardownInv s) (hst : TeardownStep s op t) (hwork : t.HandlesWork) :
    SlotsEmpty s op := by
  rw [TeardownState.handlesWork_iff_finds] at hwork
  cases hst.window with
  | keep hsafe _ => exact hsafe
  | claim hsafe => exact hsafe
  | finalize hsafe => exact hsafe
  | @dealloc i link hold hnodes hpid hpending hid hslots hsafe =>
    refine hsafe.mpr fun m hm hnull slot hslot => ?_
    cases hnode : slot.node with
    | none => rfl
    | some x =>
      -- the slot has a new owner, which would lose it
      have hslot : s.heap.weakSlots[(s.heap.head m).weakId.index]? = some ⟨slot.version, some x⟩ :=
        hslot.trans (congrArg some (by rw [← hnode]))
      obtain ⟨hx, hxnull, hindex, -⟩ := hinv.owners.owner _ _ _ hslot
      have hfound := hwork x ((hinv.keeps_dealloc hold hnodes hpid hpending).mpr hx)
        (by rw [hid, hxnull])
      rw [hslots, getElem?_foldl_emptySlot_owned, hid, hindex] at hfound
      exact absurd ⟨_, List.mem_map_of_mem hm, hnull, rfl⟩ hfound.2

end TeardownInv

/-- A node keeps its id. -/
theorem TeardownStep.weakId_eq (hst : TeardownStep s op t)
    (hnull : (s.heap.head x).weakId.isNull = false) :
    (t.heap.head x).weakId = (s.heap.head x).weakId := by
  cases hst.window with
  | keep _ hstate => rw [hstate]
  | claim _ hn hnodes hpid hpending hclaims =>
    rw [hclaims.ids, if_neg]
    rintro rfl
    have hnull' := hclaims.null
    rw [hnull] at hnull'
    cases hnull'
  | finalize _ hnew hnodes hpid hpending hid hslots => exact hid x
  | dealloc hold hnodes hpid hpending hid hslots hsafe => exact hid x

/-- **Teardown does not disturb the handles of other nodes, if they are not taken in between from
its slots.** The handle that a call takes for a node is the node's id from then on; and in every
state of a run of calls all handles of nodes that are not being reclaimed find them, if and only if
each time a chain is freed the slots that its nodes had are still empty. -/
theorem handlesWork_iff {h : GcHeap} {s : TeardownState} {ops : List TeardownOp} (hr : Reachable h)
    (hrun : Run TeardownStep ⟨h, fun _ => none⟩ ops s) :
    (∀ pre post x t h' w, ops = pre ++ .downgrade x :: post →
      Run TeardownStep ⟨h, fun _ => none⟩ pre t → t.heap.downgrade x = some (h', w) →
        w.isNull = false ∧ (s.heap.head x).weakId = w) ∧
    ((∀ pre t, pre <+: ops → Run TeardownStep ⟨h, fun _ => none⟩ pre t → t.HandlesWork) ↔
      Run (fun s op t => TeardownStep s op t ∧ SlotsEmpty s op) ⟨h, fun _ => none⟩ ops s) := by
  have hinv := TeardownInv.of_reachable hr
  have hfun : ∀ s a t t', TeardownStep s a t → TeardownStep s a t' → t = t' :=
    fun _ _ _ _ => TeardownStep.functional
  refine ⟨?_, hrun.forall_prefix_iff hfun (fun _ _ _ => TeardownInv.step)
    (fun s op t hinv hwork hst => ⟨hinv.slotsEmpty hst, hinv.handlesWork hwork hst⟩) hinv ?_⟩
  · rintro pre post x t h' w rfl hpre hok
    obtain ⟨t', hpre', hrun⟩ := run_append.mp hrun
    obtain rfl := hpre.functional hfun hpre'
    obtain ⟨u, hst, hpost⟩ := run_cons.mp hrun
    have hinvt := hpre.invariant (I := TeardownInv) (fun _ _ _ hs hst => hs.step hst) hinv
    obtain rfl : u = ⟨h', t.pending⟩ := by
      have hexec := hst.2
      rw [TeardownState.exec, hok] at hexec
      exact (Option.some.inj hexec).symm
    have hhandle := handle_of_downgrade hinvt.owners.freeVersion_lt hok
    refine ⟨hhandle.1, ?_⟩
    refine hpost.invariant (I := fun s => (s.heap.head x).weakId = w) (fun _ _ _ hw hst => ?_)
      hhandle.2
    rw [hst.weakId_eq (by rw [hw, hhandle.1]), hw]
  · rw [TeardownState.handlesWork_iff_finds]
    exact (weakInv_of_reachable hr).2.slot.keep (fun n hn _ => ⟨hn.1, rfl⟩) rfl

/-! ### Handles in the window -/

instance {s : TeardownState} {op : TeardownOp} : Decidable (s.Pre op) := by
  cases op <;> dsimp only [TeardownState.Pre] <;> infer_instance

instance {s : TeardownState} {op : TeardownOp} : Decidable (SlotsEmpty s op) := by
  cases op <;> dsimp only [SlotsEmpty] <;> infer_instance

/-- Carry out a list of calls; `none` if a contract or the condition fails on the way, or a call
panics. -/
def TeardownState.play (C : TeardownState → TeardownOp → Prop) [∀ s op, Decidable (C s op)] :
    List TeardownOp → TeardownState → Option TeardownState
  | [], s => some s
  | op :: ops, s => if s.Pre op ∧ C s op then (s.exec op).bind (play C ops) else none

theorem TeardownState.run_of_play {C : TeardownState → TeardownOp → Prop}
    [∀ s op, Decidable (C s op)] {ops : List TeardownOp} (hplay : s.play C ops = some t) :
    Run (fun s op t => TeardownStep s op t ∧ C s op) s ops t := by
  induction ops generalizing s with
  | nil => exact run_nil.mpr (Option.some.inj hplay).symm
  | cons op ops ih =>
    rw [play] at hplay
    split at hplay
    · next hop =>
      obtain ⟨u, hexec, hplay⟩ := Option.bind_eq_some_iff.mp hplay
      exact .cons ⟨⟨hop.1, hexec⟩, hop.2⟩ (ih hplay)
    · cases hplay

/-- A node of the first partition with a handle, a node of the second with or without one, and some
calls. -/
private theorem exists_window {C : TeardownState → TeardownOp → Prop} [∀ s op, Decidable (C s op)]
    {P : TeardownState → Prop} [DecidablePred P] (setup : List Op) (ops : List TeardownOp)
    (hplay : ((play (fun _ _ => True) ([.createPartition 0 0 none, .createPartition 0 0 none,
      .allocRaw 0 0 [] (some 1000), .allocRaw 1 0 [] (some 2000), .downgrade 1000] ++ setup)
      (GcHeap.new (gcTypeTableInternal 24 8 [⟨8, 8, true, none⟩]))).bind fun h =>
        TeardownState.play C ops ⟨h, fun _ => none⟩).any fun s => P s) :
    ∃ h s, Reachable h ∧
      Run (fun s op t => TeardownStep s op t ∧ C s op) ⟨h, fun _ => none⟩ ops s ∧ P s := by
  obtain ⟨s, hs, hP⟩ := Option.any_eq_true _ _ |>.mp hplay
  obtain ⟨h, hh, hs⟩ := Option.bind_eq_some_iff.mp hs
  exact ⟨h, s, reachableWith_of_play hh, TeardownState.run_of_play hs, of_decide_eq_true hP⟩

/-- A handle taken before the window is not disturbed. -/
theorem handlesWork_before : ∃ (h : GcHeap) (s : TeardownState), Run TeardownStep ⟨h, fun _ => none⟩
    [.finalize 0, .downgrade 2000, .dealloc false 0 [1000] none] s ∧ s.HandlesWork ∧
      s.heap.Live 2000 := by
  obtain ⟨h, s, hr, hrun, hlive⟩ := exists_window (C := SlotsEmpty) (P := fun s => s.heap.Live 2000)
    [.downgrade 2000] [.finalize 0, .downgrade 2000, .dealloc false 0 [1000] none]
    (by decide +kernel)
  have hrun' := hrun.mono fun _ _ _ hst => hst.1
  exact ⟨h, s, hrun', ((handlesWork_iff hr hrun').2.mpr hrun) _ s List.prefix_rfl hrun', hlive⟩

/-- **A handle taken in the window is lost**, though its node is never reclaimed. -/
theorem dealloc_clears_new_owner : ∃ (h : GcHeap) (t s : TeardownState), Reachable h ∧
    Run TeardownStep ⟨h, fun _ => none⟩ [.finalize 0, .downgrade 2000] t ∧
    TeardownStep t (.dealloc false 0 [1000] none) s ∧
    t.heap.upgrade (.new 0 2) = some 2000 ∧ s.Keeps 2000 ∧ s.heap.upgrade (.new 0 2) = none := by
  obtain ⟨h, t, hr, hrun, hup, hpre, hafter⟩ := exists_window (C := fun _ _ => True)
    (P := fun t => t.heap.upgrade (.new 0 2) = some 2000 ∧
      t.Pre (.dealloc false 0 [1000] none) ∧ (t.exec (.dealloc false 0 [1000] none)).any fun s =>
        s.Keeps 2000 ∧ s.heap.upgrade (.new 0 2) = none)
    [] [.finalize 0, .downgrade 2000] (by decide +kernel)
  obtain ⟨s, hs, hlost⟩ := Option.any_eq_true _ _ |>.mp hafter
  obtain ⟨hkeeps, hlost⟩ := of_decide_eq_true hlost
  exact ⟨h, t, s, hr, hrun.mono fun _ _ _ hst => hst.1, ⟨hpre, hs⟩, hup, hkeeps, hlost⟩

end GcLite
