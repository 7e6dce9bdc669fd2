import GcLite.Library.Run
import GcLite.Library.TriColor
import GcLite.MarkState
import Mathlib.Data.List.Count

/-!
# Marking as a run

Working off the gray list of one partition, one entry at a time: an entry that is no longer gray is
skipped, a gray one is traced, and when the budget is spent a gray one is put back.

Seen in its own partition, this is tri-colour marking of the graph of the references that stay
inside it. A run that ends with an empty list has therefore blackened what is reachable along such
references, and nothing else.

## Main definitions

* `MarkAction`, `MarkState.MarkStep` — one entry of the list of partition `i`
* `MarkState.edge`, `MarkState.localReach` — references inside a partition
* `MarkState.Local` — what the run relies on in its own partition
* `MarkState.nonblack` — how much there is left to trace

## Main results

* `MarkState.Inv.markRun` — a run keeps the marking invariant
* `MarkState.Local.exact` — a finished run blackens exactly what is reachable
* `MarkState.Local.traces_le` — a run traces no node twice
-/

namespace GcLite

open Relation Transition

/-- What happens to an entry of a gray list. -/
inductive MarkAction
  /-- It is stale and dropped. -/
  | skip (n : NodePtr)
  /-- Its children are grayed, and it turns black. -/
  | trace (n : NodePtr)
  /-- It is put back, for the budget is spent. -/
  | requeue (n : NodePtr)
deriving DecidableEq, Repr

/-- Whether the entry was traced. -/
def MarkAction.isTrace : MarkAction → Bool
  | .trace _ => true
  | _ => false

/-- How many nodes a run traced. -/
def traces (as : List MarkAction) : ℕ := as.countP MarkAction.isTrace

theorem traces_append (as bs : List MarkAction) : traces (as ++ bs) = traces as + traces bs :=
  List.countP_append

theorem traces_cons (a : MarkAction) (as : List MarkAction) :
    traces (a :: as) = traces as + if a.isTrace then 1 else 0 := List.countP_cons

namespace MarkState

variable {s t : MarkState} {i j : ℕ} {n m c : NodePtr} {a : MarkAction} {as : List MarkAction}

/-- One entry of the gray list of partition `i`. -/
inductive MarkStep (i : ℕ) : MarkState → MarkAction → MarkState → Prop
  /-- The node is not gray any more. -/
  | skip {s : MarkState} {n : NodePtr} {rest : List NodePtr} (hg : s.gray i = n :: rest)
      (hn : s.color n ≠ .gray) : MarkStep i s (.skip n) (s.pop i n rest)
  /-- The children may be visited in any order and any number of times. -/
  | trace {s : MarkState} {n : NodePtr} {rest cs : List NodePtr} (hg : s.gray i = n :: rest)
      (hn : s.color n = .gray) (hcs : ∀ c, c ∈ cs ↔ c ∈ s.refs n) :
      MarkStep i s (.trace n) ((s.pop i n rest).trace n cs)
  /-- The node stays gray. -/
  | requeue {s : MarkState} {n : NodePtr} {rest : List NodePtr} (hg : s.gray i = n :: rest)
      (hn : s.color n = .gray) : MarkStep i s (.requeue n) (s.requeue n)

/-! ### What a run does not change -/

/-- The two states have the same graph, protection and marking flags. -/
structure SameGraph (s t : MarkState) : Prop where
  /-- There are as many partitions. -/
  count : t.count = s.count
  /-- The chains agree. -/
  chain : t.chain = s.chain
  /-- So do the marking flags. -/
  marking : t.marking = s.marking
  /-- So does protection. -/
  prot : t.prot = s.prot
  /-- The headers name the same partitions. -/
  pid : t.pid = s.pid
  /-- The payloads agree. -/
  refs : t.refs = s.refs

theorem MarkStep.sameGraph (h : MarkStep i s a t) : SameGraph s t := by
  cases h <;> exact ⟨rfl, rfl, rfl, rfl, rfl, rfl⟩

theorem SameGraph.refl (s : MarkState) : SameGraph s s := ⟨rfl, rfl, rfl, rfl, rfl, rfl⟩

theorem SameGraph.trans {u : MarkState} (h : SameGraph s t) (h' : SameGraph t u) : SameGraph s u :=
  ⟨h'.count.trans h.count, h'.chain.trans h.chain, h'.marking.trans h.marking,
    h'.prot.trans h.prot, h'.pid.trans h.pid, h'.refs.trans h.refs⟩

theorem markRun_sameGraph (h : Run (MarkStep i) s as t) : SameGraph s t := by
  induction h with
  | nil s => exact .refl s
  | cons hst _ ih => exact hst.sameGraph.trans ih

theorem MarkStep.owned (h : MarkStep i s a t) (hs : s.Owned) : t.Owned := by
  cases h with
  | skip hg hn => exact hs.pop hg
  | trace hg hn hcs => exact (hs.pop hg).trace _ _
  | requeue hg hn => exact ⟨hs.range, hs.own⟩

theorem MarkStep.wf (h : MarkStep i s a t) (hs : s.Wf) : t.Wf := by
  cases h with
  | skip hg hn => exact hs.pop hg
  | trace hg hn hcs => exact (hs.pop hg).trace _ _
  | requeue hg hn => exact hs.requeue _

theorem MarkStep.inv (h : MarkStep i s a t) (hs : s.Inv) : t.Inv := by
  cases h with
  | skip hg hn => exact hs.pop hg hn
  | trace hg hn hcs => exact hs.trace hg hcs
  | requeue hg hn => exact hs.requeue _

/-- **A mark step is sound**, whatever its budget. -/
theorem Inv.markRun (hs : s.Inv) (h : Run (MarkStep i) s as t) : t.Inv :=
  h.invariant (fun _ _ _ hs hst => hst.inv hs) hs

theorem Owned.markRun (hs : s.Owned) (h : Run (MarkStep i) s as t) : t.Owned :=
  h.invariant (fun _ _ _ hs hst => hst.owned hs) hs

/-- Nodes that have been found stay found. -/
theorem MarkStep.color_ne_white (h : MarkStep i s a t) (hm : s.color m ≠ .white) :
    t.color m ≠ .white := by
  cases h with
  | skip hg hn => exact hm
  | trace hg hn hcs => exact color_trace_ne_white (.inr (.inr hm))
  | requeue hg hn => exact hm

theorem markRun_color_ne_white (h : Run (MarkStep i) s as t) (hm : s.color m ≠ .white) :
    t.color m ≠ .white :=
  h.invariant (I := fun s => s.color m ≠ .white) (fun _ _ _ hs hst => hst.color_ne_white hs) hm

/-! ### References -/

/-- A reference from one node to another. -/
def ref (s : MarkState) (m c : NodePtr) : Prop := c ∈ s.refs m

/-- The nodes that roots and locals protect. -/
def protectedNodes (s : MarkState) : Set NodePtr := {n | s.Live n ∧ s.prot n = true}

/-- What is reachable from roots and locals of any partition, along any references. -/
def reach (s : MarkState) : Set NodePtr := TriColor.reach s.ref s.protectedNodes

/-- A reference from one node of partition `i` to another. -/
def edge (s : MarkState) (i : ℕ) (m c : NodePtr) : Prop :=
  m ∈ s.chain i ∧ c ∈ s.refs m ∧ c ∈ s.chain i

/-- What is reachable from the protected nodes of partition `i` along references inside it. -/
def localReach (s : MarkState) (i : ℕ) : Set NodePtr :=
  TriColor.reach (s.edge i) {n | n ∈ s.chain i ∧ s.prot n = true}

/-- What a run on the list of partition `i` relies on. -/
structure Local (s : MarkState) (i : ℕ) : Prop where
  /-- There is such a partition. -/
  lt_count : i < s.count
  /-- Headers name the partitions that the nodes are in. -/
  own : ∀ j, ∀ n ∈ s.chain j, s.pid n = j
  /-- The list has no other partition's nodes. -/
  entry : ∀ n ∈ s.gray i, n ∈ s.chain i
  /-- Gray nodes of the partition are listed. -/
  gray_mem : ∀ n ∈ s.chain i, s.color n = .gray → n ∈ s.gray i
  /-- The partition's nodes refer to live nodes. -/
  refs_live : ∀ n ∈ s.chain i, ∀ c ∈ s.refs n, s.Live c

theorem Local.mem_chain_of_ref (h : s.Local i) (hn : n ∈ s.chain i) (hc : c ∈ s.refs n)
    (hpid : s.pid c = i) : c ∈ s.chain i := by
  obtain ⟨j, hj⟩ := h.refs_live n hn c hc
  rwa [← hpid, h.own j c hj]

theorem Local.step (h : s.Local i) (hst : MarkStep i s a t) : t.Local i := by
  cases hst with
  | @skip n rest hg hn =>
    refine ⟨h.lt_count, h.own, fun m hm => ?_, fun m hm hc => ?_, h.refs_live⟩
    · exact h.entry m (mem_gray_of_pop hg hm)
    · have hmn : m ≠ n := by
        rintro rfl
        exact hn hc
      exact mem_gray_pop hg hmn (h.gray_mem m hm hc)
  | @trace n rest cs hg hn hcs =>
    have hni : n ∈ s.chain i := h.entry n (hg ▸ List.mem_cons_self)
    refine ⟨h.lt_count, h.own, fun m hm => ?_, fun m hm hc => ?_, h.refs_live⟩
    · rcases mem_gray_trace.mp hm with hm | ⟨-, hm, -, hpid⟩
      · exact h.entry m (mem_gray_of_pop hg hm)
      · exact h.mem_chain_of_ref hni ((hcs m).mp hm) hpid
    · rw [mem_gray_trace]
      obtain ⟨hmn, hmc | hc⟩ := color_of_trace_gray hc
      · exact .inr ⟨h.lt_count, hmc.1, hmc.2, h.own i m hm⟩
      · exact .inl (mem_gray_pop hg hmn (h.gray_mem m hm hc))
  | requeue hg hn => exact ⟨h.lt_count, h.own, h.entry, h.gray_mem, h.refs_live⟩

theorem Local.run (h : s.Local i) (hr : Run (MarkStep i) s as t) : t.Local i :=
  hr.invariant (I := fun s => s.Local i) (fun _ _ _ hs hst => hs.step hst) h

theorem Inv.local (h : s.Inv) (hi : s.marking i = true) (hlt : i < s.count) : s.Local i :=
  ⟨hlt, h.own, h.entry i, h.gray_mem i hi, h.refs_live i⟩

/-! ### A finished run -/

/-- The colours of partition `i` as a tri-colour marking. -/
def snapshot (s : MarkState) (i : ℕ) : TriColor.Marking NodePtr where
  gray := {n | n ∈ s.chain i ∧ s.color n = .gray}
  black := {n | n ∈ s.chain i ∧ s.color n = .black}

theorem edge_congr (h : SameGraph s t) : t.edge i = s.edge i := by
  funext m c
  simp only [edge, h.chain, h.refs]

/-- Tracing an entry is a tri-colour step, and nothing else changes a colour. -/
theorem Local.snapshot_step (h : s.Local i) (hst : MarkStep i s a t) :
    TriColor.Steps (s.edge i) (s.snapshot i) (t.snapshot i) := by
  cases hst with
  | skip hg hn => exact .refl
  | requeue hg hn => exact .refl
  | @trace n rest cs hg hn hcs =>
    have hni : n ∈ s.chain i := h.entry n (hg ▸ List.mem_cons_self)
    have hsnap : ((s.pop i n rest).trace n cs).snapshot i =
        ⟨((s.snapshot i).gray ∪ {w | s.edge i n w ∧ w ∉ (s.snapshot i).black}) \ {n},
          insert n (s.snapshot i).black⟩ := by
      have hgray : ∀ m, (m ∈ s.chain i ∧ ((s.pop i n rest).trace n cs).color m = .gray) ↔
          ((m ∈ s.chain i ∧ s.color m = .gray) ∨
            (s.edge i n m ∧ ¬ (m ∈ s.chain i ∧ s.color m = .black))) ∧ m ≠ n := by
        intro m
        by_cases hmn : m = n
        · simp [trace, hmn]
        · by_cases hmi : m ∈ s.chain i
          · simp only [trace, pop, hmn, edge, hni, hmi, hcs]
            by_cases hb : s.color m = .black
            · simp [hb]
            · by_cases hmc : m ∈ s.refs n <;> simp [hb, hmc, hmn]
          · simp [edge, hmi]
      have hblack : ∀ m, (m ∈ s.chain i ∧ ((s.pop i n rest).trace n cs).color m = .black) ↔
          m = n ∨ (m ∈ s.chain i ∧ s.color m = .black) := by
        intro m
        by_cases hmn : m = n
        · simp [trace, hmn, hni]
        · simp only [trace, pop, hmn]
          by_cases hb : s.color m = .black
          · simp [hb]
          · by_cases hmc : m ∈ cs <;> simp [hb, hmc]
      simp only [snapshot, TriColor.Marking.mk.injEq]
      exact ⟨Set.ext hgray, Set.ext hblack⟩
    rw [hsnap]
    exact .single (.trace ⟨hni, hn⟩)

theorem Local.snapshot_run (h : s.Local i) (hr : Run (MarkStep i) s as t) :
    TriColor.Steps (s.edge i) (s.snapshot i) (t.snapshot i) := by
  induction hr with
  | nil s => exact .refl
  | cons hst _ ih =>
    have hrest := ih (h.step hst)
    rw [edge_congr hst.sameGraph] at hrest
    exact (h.snapshot_step hst).trans hrest

/-- **Exactness.** A run that starts with the protected nodes of the partition gray and the others
white, and ends with an empty list, has blackened what is reachable inside the partition. The rest
is white. -/
theorem Local.exact (h : s.Local i) (hr : Run (MarkStep i) s as t) (hdone : t.gray i = [])
    (hstart : ∀ n ∈ s.chain i, s.color n = if s.prot n then .gray else .white)
    (hn : n ∈ s.chain i) :
    (n ∈ s.localReach i → t.color n = .black) ∧ (n ∉ s.localReach i → t.color n = .white) := by
  have hclosed : (s.snapshot i).Closed (s.edge i) := by
    rintro m ⟨hm, hb⟩
    rw [hstart m hm] at hb
    split at hb <;> cases hb
  have ht : t.Local i := h.run hr
  have hchain := (markRun_sameGraph hr).chain
  have hgray : (t.snapshot i).gray = ∅ := by
    refine Set.eq_empty_of_forall_notMem fun m hm => ?_
    have := ht.gray_mem m hm.1 hm.2
    simp [hdone] at this
  have hseeds : (s.snapshot i).marked = {n | n ∈ s.chain i ∧ s.prot n = true} := by
    ext m
    simp only [TriColor.Marking.marked, snapshot, Set.mem_union, Set.mem_ofPred_eq]
    constructor
    · rintro (⟨hm, hc⟩ | ⟨hm, hc⟩) <;> rw [hstart m hm] at hc <;> refine ⟨hm, ?_⟩ <;>
        by_contra hp <;> simp [hp] at hc
    · rintro ⟨hm, hp⟩
      exact .inl ⟨hm, by simp [hstart m hm, hp]⟩
  have hblack : n ∈ s.localReach i ↔ t.color n = .black := by
    have := (h.snapshot_run hr).black_eq_reach hclosed hgray
    rw [hseeds] at this
    rw [localReach, ← this]
    simp [snapshot, hchain, hn]
  refine ⟨hblack.mp, fun hnot => ?_⟩
  cases hc : t.color n with
  | white => rfl
  | gray => exact absurd (ht.gray_mem n (hchain ▸ hn) hc) (by simp [hdone])
  | black => exact absurd (hblack.mpr hc) hnot

/-! ### Progress -/

/-- How many nodes of partition `i` have not been traced. -/
def nonblack (s : MarkState) (i : ℕ) : ℕ := (s.chain i).countP fun n => s.color n ≠ .black

theorem nonblack_le_length : s.nonblack i ≤ (s.chain i).length := List.countP_le_length

theorem Local.nonblack_step (h : s.Local i) (hst : MarkStep i s a t) :
    t.nonblack i + (if a.isTrace then 1 else 0) ≤ s.nonblack i := by
  cases hst with
  | skip hg hn => exact Nat.le_refl _
  | requeue hg hn => exact Nat.le_refl _
  | @trace n rest cs hg hn hcs =>
    have hni : n ∈ s.chain i := h.entry n (hg ▸ List.mem_cons_self)
    have hle : ∀ m, ((s.pop i n rest).trace n cs).color m ≠ .black → s.color m ≠ .black := by
      intro m hm hb
      apply hm
      by_cases hmn : m = n
      · simp [trace, hmn]
      · simp [trace, pop, hmn, hb]
    obtain ⟨l₁, l₂, hl⟩ := List.append_of_mem hni
    have hcount : ∀ l : List NodePtr,
        l.countP (fun m => ((s.pop i n rest).trace n cs).color m ≠ .black) ≤
          l.countP (fun m => s.color m ≠ .black) := fun l =>
      List.countP_mono_left fun m _ hm => by simpa using hle m (by simpa using hm)
    have h₁ := hcount l₁
    have h₂ := hcount l₂
    have hblack : ((s.pop i n rest).trace n cs).color n = .black := by simp [trace]
    have hchain : ((s.pop i n rest).trace n cs).chain i = l₁ ++ n :: l₂ := hl
    simp only [nonblack, hchain, hl, List.countP_append, List.countP_cons, hblack, hn,
      MarkAction.isTrace]
    simp only [ne_eq, decide_not, decide_true, Bool.not_true, reduceCtorEq, decide_false,
      Bool.not_false, if_true] at h₁ h₂ ⊢
    simp only [if_false]
    omega

/-- **Progress.** Every node that a run traces was not black before it and is black after it. -/
theorem Local.traces_le (h : s.Local i) (hr : Run (MarkStep i) s as t) :
    t.nonblack i + traces as ≤ s.nonblack i := by
  induction hr with
  | nil s => simp [traces]
  | @cons s u t a as hst _ ih =>
    have hrest := ih (h.step hst)
    have hfirst := h.nonblack_step hst
    rw [traces_cons]
    omega

end MarkState

end GcLite
