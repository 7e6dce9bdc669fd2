import GcLite.JointCycle
import GcLite.Slicing

/-!
# A cycle of all partitions ends

Marking one partition may list nodes in any other, also in those that have been marked before. But
every node that is traced is black from then on, until the mutator interferes. So a driver that
marks the partitions in turn, each with any positive budget, goes round no more than once for each
live node, and once more.

## Main definitions

* `rounds` — every partition marked in turn, a number of times

## Main results

* `Joint.round` — a round traces a node, or leaves all lists empty
* `joint_cycle_ends`
-/

namespace GcLite

open Transition

namespace MarkState

variable {s t : MarkState} {i j : ℕ} {as : List MarkAction}

/-- The lists of other partitions get entries only from tracing. -/
theorem gray_of_traces_eq_zero (hr : Run (MarkStep i) s as t) (hzero : traces as = 0)
    (hj : j ≠ i) : t.gray j = s.gray j := by
  induction hr with
  | nil s => rfl
  | @cons s u t a as hst _ ih =>
    rw [traces_cons] at hzero
    have hfirst : a.isTrace = false := by
      by_contra htrace
      rw [if_pos (by simpa using htrace)] at hzero
      omega
    rw [ih (by omega)]
    cases hst with
    | skip hg hn => simp [pop, hj]
    | trace => cases hfirst
    | requeue hg hn => rfl

theorem Joint.grounded (h : s.Joint) (i : ℕ) : s.Grounded i where
  entry n hn := h.entry n ⟨i, hn⟩
  refs_live := by
    rintro n ⟨j, hn⟩ c hc
    exact h.refs_live j n hn c hc

end MarkState

/-- The given partitions marked in turn, `r` times, with the budget `k` for each. -/
def rounds (is : List ℕ) (k r : ℕ) : List Op :=
  (List.replicate r (is.map fun i => Op.mark i k)).flatten

section

open GcHeap MarkState

variable {h h' h₀ h₁ h₂ : GcHeap} {i k b : ℕ} {is : List ℕ} {ops : List Op} {live : Finset NodePtr}

/-- What a mark step leaves: the same graph, and either fewer nodes to trace, or an empty list. -/
structure Marked (live : Finset NodePtr) (is : List ℕ) (h h' : GcHeap) : Prop where
  /-- The memory is in order. -/
  mem : h'.MemInv
  /-- The cycle's invariant holds. -/
  joint : h'.view.Joint
  /-- The graph is the same. -/
  same : SameGraph h.view h'.view
  /-- There are no more nodes to trace than before. -/
  le : (h'.view.untraced live).card ≤ (h.view.untraced live).card
  /-- There are fewer, or the lists of these partitions have been emptied. -/
  progress : (h'.view.untraced live).card < (h.view.untraced live).card ∨
    ∀ j, h'.view.gray j = if j ∈ is then [] else h.view.gray j

theorem Marked.marking (hm : Marked live is h h') (j : ℕ) :
    (h'.par j).marking = (h.par j).marking := congrFun hm.same.marking j

theorem Marked.of_live {n : NodePtr} (hm : Marked live is h h') (hn : h'.Live n) : h.Live n := by
  have hlive : h'.view.Live n := hn
  rwa [MarkState.Live, hm.same.chain] at hlive

/-- **One mark step.** -/
theorem MarkState.Joint.mark (hmem : h.MemInv) (hs : h.view.Joint)
    (hlive : ∀ n, h.Live n → n ∈ live) (hi : (h.par i).marking = true) (hk : 0 < k) :
    StepWith InJointCycle h (.mark i k) (h.mark i k).1 ∧ Marked live [i] h (h.mark i k).1 := by
  have hlt : i < h.partitions.length := hs.lt_of_marking hi
  have hjoins : InJointCycle h (.mark i k) :=
    ⟨rfl, nofun, nofun, fun j hj => Option.some.inj hj ▸ hi⟩
  have hst : StepWith InJointCycle h (.mark i k) (h.mark i k).1 := ⟨⟨hlt, rfl⟩, hjoins⟩
  obtain ⟨hmem', hs'⟩ := joint_of_run hmem hs (run_cons.mpr ⟨_, hst, .nil _⟩)
  obtain ⟨s, as, hstart, hr, hempty, hspent⟩ := mark_run hmem.owned hlt k
  cases hstart with
  | fresh hm hp => exact absurd (hm.symm.trans hi) Bool.false_ne_true
  | going hm =>
    have hle := (hs.grounded i).traces_le hlive hr
    refine ⟨hst, hmem', hs', markRun_sameGraph hr, by omega, ?_⟩
    rcases Nat.eq_zero_or_pos (traces as) with hzero | hpos
    · right
      intro j
      by_cases hji : j = i
      · subst hji
        rw [if_pos (List.mem_singleton_self j)]
        refine hempty ?_
        by_contra hcut
        have := hspent (by simpa using hcut)
        omega
      · rw [if_neg (by simpa using hji)]
        exact gray_of_traces_eq_zero hr hzero hji
    · exact .inl (by omega)

/-- **A round** traces a node, or leaves all lists empty. -/
theorem MarkState.Joint.round (hmem : h.MemInv) (hs : h.view.Joint)
    (hlive : ∀ n, h.Live n → n ∈ live) (his : ∀ i ∈ is, (h.par i).marking = true) (hk : 0 < k) :
    ∃ h', Run (StepWith InJointCycle) h (is.map fun i => .mark i k) h' ∧ Marked live is h h' := by
  induction is generalizing h with
  | nil => exact ⟨h, .nil h, hmem, hs, .refl _, Nat.le_refl _, .inr fun j => rfl⟩
  | cons i is ih =>
    obtain ⟨hst, hfirst⟩ := hs.mark hmem hlive (his i List.mem_cons_self) hk
    generalize (h.mark i k).1 = g at hst hfirst
    have hmarking : ∀ i ∈ is, (g.par i).marking = true := fun j hj =>
      (hfirst.marking j).trans (his j (List.mem_cons_of_mem i hj))
    obtain ⟨h', hrun, hrest⟩ := ih hfirst.mem hfirst.joint
      (fun n hn => hlive n (hfirst.of_live hn)) hmarking
    refine ⟨h', .cons hst hrun, hrest.mem, hrest.joint, hfirst.same.trans hrest.same,
      hrest.le.trans hfirst.le, ?_⟩
    rcases hfirst.progress with hlt | hgray
    · exact .inl (Nat.lt_of_le_of_lt hrest.le hlt)
    rcases hrest.progress with hlt | hgray'
    · exact .inl (Nat.lt_of_lt_of_le hlt hfirst.le)
    · right
      intro j
      rw [hgray' j, hgray j]
      by_cases hj : j ∈ is <;> by_cases hji : j = i <;> simp [hj, hji]

/-- Enough rounds empty all lists. -/
theorem MarkState.Joint.rounds (hmem : h.MemInv) (hs : h.view.Joint)
    (hlive : ∀ n, h.Live n → n ∈ live) (his : ∀ i, i ∈ is ↔ (h.par i).marking = true)
    (hk : 0 < k) : ∃ r ≤ (h.view.untraced live).card, ∃ h',
      Run (StepWith InJointCycle) h (rounds is k (r + 1)) h' ∧ ∀ j, (h'.par j).grayList = [] := by
  induction hcard : (h.view.untraced live).card using Nat.strong_induction_on generalizing h with
  | _ b ih =>
  obtain ⟨h', hrun, hm⟩ := hs.round hmem hlive (fun i hi => (his i).mp hi) hk
  rcases hm.progress with hlt | hgray
  · obtain ⟨r, hr, h'', hrun', hdone⟩ := ih _ (hcard ▸ hlt) hm.mem hm.joint
      (fun n hn => hlive n (hm.of_live hn)) (fun i => by rw [hm.marking, his]) rfl
    exact ⟨r + 1, by omega, h'', run_append.mpr ⟨h', hrun, hrun'⟩, hdone⟩
  · refine ⟨0, Nat.zero_le b, h', by simpa [GcLite.rounds] using hrun, fun j => ?_⟩
    refine (hgray j).trans ?_
    split
    · rfl
    · next hj => exact hs.idle j (Bool.eq_false_iff.mpr fun hmark => hj ((his j).mpr hmark))

/-- **A cycle of all partitions ends.** From whatever state the mutator has left it in, marking the
partitions that take part in turn, each with the same positive budget, empties all lists. It takes
no more rounds than there are live nodes, and one. -/
theorem joint_cycle_ends (hr : Reachable h₀) (hsettled : h₀.Settled)
    (hi : i < h₀.partitions.length) (hbegin : exec h₀ (.mark i k) = some h₁)
    (hrun : Run (StepWith InJointCycle) h₁ ops h₂)
    (his : ∀ i, i ∈ is ↔ (h₂.par i).marking = true) (hb : 0 < b) :
    ∃ r ≤ h₂.liveNodes.card, ∃ h₃, Run (StepWith InJointCycle) h₂ (rounds is b (r + 1)) h₃ ∧
      ∀ j, (h₃.par j).grayList = [] := by
  have hfirst : Step h₀ (.mark i k) h₁ := ⟨hi, hbegin⟩
  obtain ⟨hmem, hs⟩ := joint_of_run ((memInv_of_reachable hr).step hfirst)
    (hsettled.mark hi hbegin).1 hrun
  obtain ⟨r, hr, hends⟩ := hs.rounds hmem (fun _ hn => mem_liveNodes.mpr hn) his hb
  exact ⟨r, hr.trans (Finset.card_filter_le _ _), hends⟩

end

/-- The root of the first partition refers to a node of the second, which refers back to the
first. -/
theorem joint_cycle_ends_cross : ∃ h h' : GcHeap, ∃ r ≤ 3, (h.par 1).grayList = [2000] ∧
    Run (StepWith InJointCycle) h (rounds [0, 1] 1 (r + 1)) h' ∧
    ∀ j, (h'.par j).grayList = [] := by
  have hplay : (play (fun _ _ => True)
      [.createPartition 0 0 none, .createPartition 0 0 none, .allocRootRaw 0 0 [] (some 1000),
        .allocRaw 0 0 [] (some 3000), .allocRaw 1 0 [3000] (some 2000), .bind 1000 2000 [2000]]
      (GcHeap.new (gcTypeTableInternal 24 8 [⟨8, 8, true, none⟩]))).any fun h₀ =>
        (h₀.Settled ∧ 0 < h₀.partitions.length) ∧ (exec h₀ (.mark 0 1)).any fun h₁ =>
          (h₁.par 1).grayList = [2000] ∧ h₁.liveNodes.card = 3 ∧ h₁.partitions.length = 2 ∧
            (h₁.par 0).marking = true ∧ (h₁.par 1).marking = true := by decide +kernel
  obtain ⟨h₀, hsetup, h⟩ := Option.any_eq_true _ _ |>.mp hplay
  obtain ⟨⟨hsettled, hi⟩, h⟩ := of_decide_eq_true h
  obtain ⟨h₁, hbegin, h⟩ := Option.any_eq_true _ _ |>.mp h
  obtain ⟨hgray, hcard, hlength, hzero, hone⟩ := of_decide_eq_true h
  have his : ∀ i, i ∈ [0, 1] ↔ (h₁.par i).marking = true := by
    intro i
    constructor
    · intro hi
      rcases List.mem_pair.mp hi with rfl | rfl
      · exact hzero
      · exact hone
    · intro hmark
      have hlt : i < h₁.partitions.length := GcHeap.lt_length_of_marking hmark
      have : i = 0 ∨ i = 1 := by omega
      exact List.mem_pair.mpr this
  obtain ⟨r, hr, h₃, hrun, hdone⟩ := joint_cycle_ends (reachableWith_of_play hsetup) hsettled hi
    hbegin (.nil h₁) his Nat.one_pos
  exact ⟨h₁, h₃, r, hcard ▸ hr, hgray, hrun, hdone⟩

end GcLite
