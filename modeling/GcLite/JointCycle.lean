import GcLite.MarkMachine
import GcLite.StopTheWorld

/-!
# A cycle of all partitions

The first mark step of a heap at rest makes every partition marking, and a child in another
partition goes to the list of that one. So the partitions can be marked together, in slices and in
any order, with the mutator at work in between. When no list has an entry left, they are swept one
after the other. References may lead from any partition to any other, and garbage may form cycles
that cross partitions.

Two things are asked of the mutator. It works in partitions that take part in the cycle, and it does
nothing between the sweeps.

A node may wait on the list of a partition that is not its own, if a scope of that one has taken it
up. This does no harm here, since all lists are worked off before any sweep.

## Main definitions

* `MarkState.Joint` — the marking invariant across partitions
* `MarkState.Grays` — what the mutator and the barriers do to colours and lists
* `InJointCycle` — the condition on the operations

## Main results

* `Joint.trans`, `Joint.step` — every step of the cycle keeps the invariant
* `joint_cycle_safe` — the sweeps free nothing that is reachable, and leave no dangling reference
* `joint_cycle_exact` — without a mutator, they leave what was reachable at the beginning
-/

namespace GcLite

open Relation Transition

namespace MarkState

variable {s t u : MarkState} {e : MarkEvent} {i j : ℕ} {n m c : NodePtr} {a : MarkAction}
  {as : List MarkAction} {payload : Payload}

/-- Some list has the node. -/
def Waits (s : MarkState) (n : NodePtr) : Prop := ∃ i, n ∈ s.gray i

/-- What a cycle of all partitions may be trusted with. Nothing is said about the list on which a
gray node waits, and a black node has no white child anywhere. -/
structure Joint (s : MarkState) : Prop extends Owned s where
  /-- Every partition that has nodes takes part. -/
  marking : ∀ i, ∀ n ∈ s.chain i, s.marking i = true
  /-- Lists of the others are empty. -/
  idle : ∀ i, s.marking i = false → s.gray i = []
  /-- Entries of lists are alive. -/
  entry : ∀ n, s.Waits n → s.Live n
  /-- A gray node is on some list. -/
  gray_waits : ∀ n, s.Live n → s.color n = .gray → s.Waits n
  /-- So is a node with its flag set. -/
  listed_waits : ∀ n, s.Live n → s.listed n = true → s.Waits n
  /-- A root or local has been found. -/
  prot_marked : ∀ n, s.Live n → s.prot n = true → s.color n ≠ .white
  /-- Children of black nodes have been found. -/
  closed : ∀ n, s.Live n → s.color n = .black → ∀ c ∈ s.refs n, s.color c ≠ .white
  /-- No reference dangles. -/
  refs_live : s.RefsLive

theorem Joint.marking_pid (h : s.Joint) (hn : s.Live n) : s.marking (s.pid n) = true :=
  h.marking _ n ((h.mem_chain_iff hn).mpr rfl)

theorem Owned.lt_of_marking (h : s.Owned) (hi : s.marking i = true) : i < s.count := by
  by_contra hle
  rw [(h.range i (Nat.le_of_not_lt hle)).2.2] at hi
  cases hi

/-! ### Graying -/

/-- Nodes are grayed and listed somewhere. Only nodes that are not white gain protection. -/
structure Grays (s t : MarkState) : Prop where
  /-- There are no new partitions. -/
  count : t.count = s.count
  /-- No chain changes. -/
  chain : t.chain = s.chain
  /-- No cycle begins or ends. -/
  marking : t.marking = s.marking
  /-- Headers name the same partitions. -/
  pid : t.pid = s.pid
  /-- No payload changes. -/
  refs : t.refs = s.refs
  /-- The lists of partitions that do not take part stay. -/
  idle : ∀ i, s.marking i = false → t.gray i = s.gray i
  /-- A new colour is gray, and the node waits. -/
  color : ∀ m, t.color m = s.color m ∨ (t.color m = .gray ∧ t.Waits m)
  /-- Who waits goes on waiting. -/
  waits : ∀ m, s.Waits m → t.Waits m
  /-- A new entry is alive. -/
  entry : ∀ m, t.Waits m → s.Waits m ∨ s.Live m
  /-- A node with a new flag waits. -/
  listed : ∀ m, t.listed m = true → s.listed m = true ∨ t.Waits m
  /-- A newly protected node has been found. -/
  prot : ∀ m, t.prot m = true → s.prot m = true ∨ t.color m ≠ .white

theorem Grays.color_ne_white (h : Grays s t) (hm : s.color m ≠ .white) : t.color m ≠ .white := by
  rcases h.color m with heq | ⟨hg, -⟩
  · rwa [heq]
  · simp [hg]

/-- **Graying keeps the invariant.** -/
theorem Joint.grays (h : s.Joint) (hst : Grays s t) : t.Joint := by
  have hlive : t.Live = s.Live := by
    funext m
    rw [Live, Live, hst.chain]
  have hrange : ∀ i, s.count ≤ i → t.gray i = s.gray i := fun i hi =>
    hst.idle i (h.range i hi).2.2
  refine { h.toOwned.of_same hst.count hst.chain hst.marking hst.pid hrange with
           marking := ?_, idle := ?_, entry := ?_, gray_waits := ?_, listed_waits := ?_,
           prot_marked := ?_, closed := ?_, refs_live := ?_ }
  · rw [hst.chain, hst.marking]
    exact h.marking
  · rw [hst.marking]
    exact fun i hi => (hst.idle i hi).trans (h.idle i hi)
  · rw [hlive]
    exact fun m hm => (hst.entry m hm).elim (h.entry m) id
  · rw [hlive]
    intro m hm hg
    rcases hst.color m with heq | ⟨-, hw⟩
    · exact hst.waits m (h.gray_waits m hm (heq ▸ hg))
    · exact hw
  · rw [hlive]
    exact fun m hm hl => (hst.listed m hl).elim (fun hl => hst.waits m (h.listed_waits m hm hl)) id
  · rw [hlive]
    exact fun m hm hp => (hst.prot m hp).elim
      (fun hp => hst.color_ne_white (h.prot_marked m hm hp)) id
  · rw [hlive, hst.refs]
    intro m hm hb c hc
    rcases hst.color m with heq | ⟨hg, -⟩
    · exact hst.color_ne_white (h.closed m hm (heq ▸ hb) c hc)
    · rw [hg] at hb
      cases hb
  · unfold RefsLive
    rw [hlive, hst.chain, hst.refs]
    exact h.refs_live

theorem Grays.refl (s : MarkState) : Grays s s :=
  ⟨rfl, rfl, rfl, rfl, rfl, fun _ _ => rfl, fun _ => .inl rfl, fun _ hm => hm, fun _ hm => .inl hm,
    fun _ hl => .inl hl, fun _ hp => .inl hp⟩

/-- Gray a node, whatever its colour, and list it in partition `i`. -/
def enlist (s : MarkState) (i : ℕ) (n : NodePtr) : MarkState :=
  { s with
    color := Function.update s.color n .gray
    listed := Function.update s.listed n true
    gray := fun j => if j = i ∧ i < s.count ∧ s.listed n = false then n :: s.gray j else s.gray j }

theorem shade_eq_enlist (s : MarkState) (i : ℕ) (n : NodePtr) :
    s.shade i n = if s.color n = .black then s else s.enlist i n := rfl

theorem Joint.grays_enlist (h : s.Joint) (hi : s.marking i = true) (hn : s.Live n) :
    Grays s (s.enlist i n) := by
  have hlt := h.lt_of_marking hi
  have hold : ∀ m, s.Waits m → (s.enlist i n).Waits m := by
    rintro m ⟨j, hm⟩
    refine ⟨j, ?_⟩
    dsimp only [enlist]
    split
    · exact List.mem_cons_of_mem n hm
    · exact hm
  have hself : (s.enlist i n).Waits n := by
    by_cases hl : s.listed n = true
    · exact hold n (h.listed_waits n hn hl)
    · exact ⟨i, by simp [enlist, hlt, hl]⟩
  refine ⟨rfl, rfl, rfl, rfl, rfl, fun j hj => ?_, fun m => ?_, hold, fun m => ?_, fun m hl => ?_,
    fun _ hp => .inl hp⟩
  · have hji : j ≠ i := by
      rintro rfl
      exact Bool.false_ne_true (hj.symm.trans hi)
    simp [enlist, hji]
  · by_cases hmn : m = n
    · subst hmn
      exact .inr ⟨by simp [enlist], hself⟩
    · exact .inl (by simp [enlist, hmn])
  · rintro ⟨j, hm⟩
    dsimp only [enlist] at hm
    split at hm
    · rcases List.mem_cons.mp hm with rfl | hm
      · exact .inr hn
      · exact .inl ⟨j, hm⟩
    · exact .inl ⟨j, hm⟩
  · by_cases hmn : m = n
    · subst hmn
      exact .inr hself
    · exact .inl (by simpa [enlist, hmn] using hl)

theorem Joint.shade (h : s.Joint) (hi : s.marking i = true) (hn : s.Live n) :
    (s.shade i n).Joint := by
  rw [shade_eq_enlist]
  split
  · exact h
  · exact h.grays (h.grays_enlist hi hn)

/-- **Protection**, through any partition that takes part. -/
theorem Joint.protect (h : s.Joint) (hi : s.marking i = true) (hn : s.Live n) :
    (s.protect i n).Joint := by
  obtain ⟨-, -, -, -, -, hsame⟩ := shade_same (s := s) (i := i) (n := n)
  have hgrays : Grays (s.shade i n) { s.shade i n with prot := Function.update s.prot n true } := by
    refine ⟨rfl, rfl, rfl, rfl, rfl, fun _ _ => rfl, fun _ => .inl rfl, fun _ hm => hm,
      fun _ hm => .inl hm, fun _ hl => .inl hl, fun m hp => ?_⟩
    by_cases hmn : m = n
    · subst hmn
      exact .inr shade_color_self_ne_white
    · rw [hsame]
      exact .inl (by simpa [hmn] using hp)
  rw [protect_eq, if_pos hi]
  exact (h.shade hi hn).grays hgrays

theorem Joint.unprotects (h : s.Joint) (hun : Unprotects s t) : t.Joint := by
  obtain ⟨prot, rfl, hprot⟩ := hun
  exact h.grays ⟨rfl, rfl, rfl, rfl, rfl, fun _ _ => rfl, fun _ => .inl rfl, fun _ hm => hm,
    fun _ hm => .inl hm, fun _ hl => .inl hl, fun m hp => .inl (hprot m hp)⟩

theorem Joint.bind (h : s.Joint) (hc : s.Live c) : (s.bind m c).Joint := by
  have hown := h.marking_pid hc
  have hfirst : (s.bindOwn m c).Joint := by
    unfold bindOwn grayOwn
    rw [if_pos hown]
    split
    · exact h.shade hown hc
    · exact h
  obtain ⟨-, hchain, hmarking, -, -, -⟩ := bindOwn_same (s := s) (m := m) (c := c)
  rw [bind_eq]
  split
  · exact hfirst.shade (hmarking ▸ hown) (by rwa [Live, hchain])
  · exact hfirst

theorem Joint.regray (h : s.Joint) (hn : s.Live n) : (s.regray n).Joint := by
  rw [regray_eq]
  split
  · have heq : { s with color := Function.update s.color n .gray }.shade (s.pid n) n =
        s.enlist (s.pid n) n := by simp [MarkState.shade, enlist]
    rw [heq]
    exact h.grays (h.grays_enlist (h.marking_pid hn) hn)
  · exact h

/-! ### The mutator -/

/-- **Payload writes.** An added reference must be live and, below a black node, not to a white
one. -/
theorem Joint.setRefs (h : s.Joint) (hpay : ∀ c ∈ payload, c ∈ s.refs n ∨
    (s.Live c ∧ (s.color n = .black → s.color c ≠ .white))) : (s.setRefs n payload).Joint := by
  refine { h with
           closed := fun m hm hb c hc => ?_
           refs_live := h.refs_live.setRefs fun c hc => (hpay c hc).imp_right And.left }
  by_cases hmn : m = n
  · subst hmn
    simp only [MarkState.setRefs, Function.update_self] at hc
    exact (hpay c hc).elim (h.closed m hm hb c) fun hc => hc.2 hb
  · simp only [MarkState.setRefs, Function.update_of_ne hmn] at hc
    exact h.closed m hm hb c hc

theorem Joint.setRefs_bind (h : s.Joint) (hc : s.Live c)
    (hpay : ∀ d ∈ payload, d ∈ s.refs m ∨ d = c) : ((s.setRefs m payload).bind m c).Joint := by
  obtain ⟨-, hchain, -, -, hrefs, -⟩ := bind_same (s := s) (m := m) (c := c)
  rw [bind_setRefs]
  refine (h.bind hc).setRefs fun d hd => ?_
  rw [hrefs]
  refine (hpay d hd).imp_right ?_
  rintro rfl
  exact ⟨by rwa [Live, hchain], bind_color_slave⟩

theorem Joint.barrier (h : s.Joint) (hn : s.Live n)
    (hpay : ∀ c ∈ payload, c ∈ s.refs n ∨ s.Live c) : ((s.regray n).setRefs n payload).Joint := by
  obtain ⟨-, hchain, -, -, hrefs, -⟩ := regray_same (s := s) (n := n)
  refine (h.regray hn).setRefs fun c hc => ?_
  rw [hrefs]
  refine (hpay c hc).imp_right fun hc => ⟨by rwa [Live, hchain], fun hb => ?_⟩
  exact absurd hb (regray_color_self (h.marking_pid hn))

/-- **Allocation**, in a partition that takes part. -/
theorem Joint.alloc (h : s.Joint) (hi : s.marking i = true) (hn : ¬ s.Live n)
    (hpay : ∀ c ∈ payload, s.Live c) : (s.alloc i n payload).Joint := by
  have hold : ∀ {m}, (s.alloc i n payload).Live m → m ≠ n → s.Live m := fun hm hmn =>
    (live_alloc.mp hm).resolve_left hmn
  have hlt := h.lt_of_marking hi
  refine { range := fun j hj => ?_, own := fun j m hm => ?_, marking := fun j m hm => ?_,
           idle := h.idle, entry := fun m hm => live_alloc.mpr (.inr (h.entry m hm)),
           gray_waits := fun m hm hg => ?_, listed_waits := fun m hm hl => ?_,
           prot_marked := fun m hm hp => ?_, closed := fun m hm hb c hc => ?_,
           refs_live := h.refs_live.alloc hn hpay }
  · have hji : j ≠ i := Nat.ne_of_gt (Nat.lt_of_lt_of_le hlt hj)
    simpa [MarkState.alloc, hji] using h.range j hj
  · rcases mem_chain_alloc.mp hm with ⟨rfl, rfl⟩ | hmj
    · simp [MarkState.alloc]
    · have hmn : m ≠ n := by
        rintro rfl
        exact hn ⟨j, hmj⟩
      simpa [MarkState.alloc, hmn] using h.own j m hmj
  · rcases mem_chain_alloc.mp hm with ⟨-, rfl⟩ | hm
    · exact hi
    · exact h.marking j m hm
  all_goals
    have hmn : m ≠ n := by
      rintro rfl
      simp_all [MarkState.alloc]
    have hm := hold hm hmn
  · exact h.gray_waits m hm (by simpa [MarkState.alloc, hmn] using hg)
  · exact h.listed_waits m hm (by simpa [MarkState.alloc, hmn] using hl)
  · simpa [MarkState.alloc, hmn] using
      h.prot_marked m hm (by simpa [MarkState.alloc, hmn] using hp)
  · have hcm : c ∈ s.refs m := by simpa [MarkState.alloc, hmn] using hc
    obtain ⟨k, hmk⟩ := hm
    have hcn : c ≠ n := by
      rintro rfl
      exact hn (h.refs_live k m hmk c hcm)
    simpa [MarkState.alloc, hcn] using
      h.closed m ⟨k, hmk⟩ (by simpa [MarkState.alloc, hmn] using hb) c hcm

/-! ### The marker -/

theorem waits_pop {rest : List NodePtr} (hg : s.gray i = n :: rest) (hmn : m ≠ n)
    (hm : s.Waits m) : (s.pop i n rest).Waits m := by
  obtain ⟨j, hm⟩ := hm
  exact ⟨j, mem_gray_pop hg hmn hm⟩

theorem waits_of_pop {rest : List NodePtr} (hg : s.gray i = n :: rest)
    (hm : (s.pop i n rest).Waits m) : s.Waits m := by
  obtain ⟨j, hm⟩ := hm
  exact ⟨j, mem_gray_of_pop hg hm⟩

theorem waits_trace {cs : List NodePtr} : (s.trace n cs).Waits m ↔
    s.Waits m ∨ (s.pid m < s.count ∧ m ∈ cs ∧ s.color m ≠ .black) := by
  constructor
  · rintro ⟨j, hm⟩
    rcases mem_gray_trace.mp hm with hm | ⟨hj, hmc, hb, rfl⟩
    · exact .inl ⟨j, hm⟩
    · exact .inr ⟨hj, hmc, hb⟩
  · rintro (⟨j, hm⟩ | ⟨hj, hmc, hb⟩)
    · exact ⟨j, mem_gray_trace.mpr (.inl hm)⟩
    · exact ⟨s.pid m, mem_gray_trace.mpr (.inr ⟨hj, hmc, hb, rfl⟩)⟩

/-- **An entry** of any list keeps the invariant. -/
theorem Joint.markStep (h : s.Joint) (hst : MarkStep i s a t) : t.Joint := by
  have hsame := hst.sameGraph
  have howned := hst.owned h.toOwned
  have hwhite : ∀ {m}, s.color m ≠ .white → t.color m ≠ .white := hst.color_ne_white
  -- the list that the entry is on belongs to a partition that takes part
  have hother : ∀ {j n rest}, s.gray i = n :: rest → s.marking j = false → j ≠ i := by
    rintro j n rest hg hj rfl
    rw [h.idle j hj] at hg
    cases hg
  cases hst with
  | @skip n rest hg hn =>
    refine { howned with
             marking := h.marking,
             idle := fun j hj => by simpa [pop, hother hg hj] using h.idle j hj,
             entry := fun m hm => h.entry m (waits_of_pop hg hm),
             gray_waits := fun m hm hc => waits_pop hg ?_ (h.gray_waits m hm hc),
             listed_waits := fun m hm hl => ?_, prot_marked := h.prot_marked,
             closed := h.closed, refs_live := h.refs_live }
    · rintro rfl
      exact hn hc
    · have hmn : m ≠ n := by
        rintro rfl
        simp [pop] at hl
      exact waits_pop hg hmn (h.listed_waits m hm (by simpa [pop, hmn] using hl))
  | @trace n rest cs hg hn hcs =>
    have hlive : s.Live n := h.entry n ⟨i, hg ▸ List.mem_cons_self⟩
    have hchild : ∀ {m}, m ∈ cs → s.Live m := fun hm => by
      obtain ⟨j, hnj⟩ := hlive
      exact h.refs_live j n hnj _ ((hcs _).mp hm)
    have hlt : ∀ {m}, s.Live m → s.pid m < s.count := fun hm =>
      h.lt_of_marking (h.marking_pid hm)
    refine { howned with
             marking := h.marking, idle := fun j hj => ?_, entry := fun m hm => ?_,
             gray_waits := fun m hm hc => ?_, listed_waits := fun m hm hl => ?_,
             prot_marked := fun m hm hp => hwhite (h.prot_marked m hm hp),
             closed := fun m hm hb c hc => ?_, refs_live := h.refs_live }
    · have hj : s.marking j = false := hj
      refine List.eq_nil_iff_forall_not_mem.mpr fun c hc => ?_
      rcases mem_gray_trace.mp hc with hc | ⟨-, hc, -, hpid⟩
      · simp [pop, hother hg hj, h.idle j hj] at hc
      · have hpid : s.pid c = j := hpid
        exact Bool.false_ne_true (hj.symm.trans (hpid ▸ h.marking_pid (hchild hc)))
    · rcases waits_trace.mp hm with hm | ⟨-, hm, -⟩
      · exact h.entry m (waits_of_pop hg hm)
      · exact hchild hm
    · obtain ⟨hmn, ⟨hmc, hb⟩ | hc⟩ := color_of_trace_gray hc
      · exact waits_trace.mpr (.inr ⟨hlt hm, hmc, hb⟩)
      · exact waits_trace.mpr (.inl (waits_pop hg hmn (h.gray_waits m hm hc)))
    · by_cases hmc : m ∈ cs ∧ s.color m ≠ .black
      · exact waits_trace.mpr (.inr ⟨hlt hm, hmc⟩)
      · have hmn : m ≠ n := by
          rintro rfl
          simp [MarkState.trace, pop, hmc] at hl
        refine waits_trace.mpr (.inl (waits_pop hg hmn (h.listed_waits m hm ?_)))
        simpa [MarkState.trace, pop, hmc, hmn] using hl
    · rcases color_of_trace_black hb with rfl | hb
      · exact color_trace_ne_white (.inr (.inl ((hcs c).mpr hc)))
      · exact hwhite (h.closed m hm hb c hc)
  | @requeue n rest hg hn =>
    refine { howned with
             marking := h.marking, idle := h.idle, entry := h.entry, gray_waits := h.gray_waits,
             listed_waits := fun m hm hl => ?_, prot_marked := h.prot_marked,
             closed := h.closed, refs_live := h.refs_live }
    have hmn : m ≠ n := by
      rintro rfl
      simp [MarkState.requeue] at hl
    exact h.listed_waits m hm (by simpa [MarkState.requeue, hmn] using hl)

/-- The colours at the beginning, when no list has an entry. -/
theorem Prepared.seed_color (hp : Prepared s t) (hgray : ∀ i, s.gray i = []) (hm : t.Live m) :
    t.color m = if s.prot m then .gray else .white := by
  obtain ⟨j, hm⟩ := hm
  rw [hp.chain] at hm
  rw [hp.color j m hm, if_pos (hgray j)]

/-- **The beginning**, when no list has an entry and no flag is set. -/
theorem joint_prepared (hs : s.Owned) (hlive : s.RefsLive) (hgray : ∀ i, s.gray i = [])
    (hlisted : ∀ n, s.Live n → s.listed n = false) (hp : Prepared s t) : t.Joint := by
  have hsame : t.Live = s.Live := by
    funext m
    rw [Live, Live, hp.chain]
  have hcolor : ∀ {m}, t.Live m → t.color m = if s.prot m then .gray else .white :=
    hp.seed_color hgray
  have hseed : ∀ {m}, t.Live m → s.prot m = true → t.Waits m := by
    rintro m ⟨j, hm⟩ hprot
    rw [hp.chain] at hm
    exact ⟨j, (hp.mem_gray j (hs.lt_count hm) m).mpr (.inr ⟨hm, hprot, .inl (hgray j)⟩)⟩
  refine { hs.prepared hp with
           marking := fun j m hm => hp.marking j (hs.lt_count (hp.chain ▸ hm)),
           idle := fun j hj => ?_, entry := ?_, gray_waits := fun m hm hg => ?_,
           listed_waits := fun m hm hl => ?_, prot_marked := fun m hm hprot => ?_,
           closed := fun m hm hb => ?_, refs_live := ?_ }
  · have hle : s.count ≤ j := by
      by_contra hlt
      exact Bool.false_ne_true (hj.symm.trans (hp.marking j (Nat.lt_of_not_le hlt)))
    rw [(hp.range j hle).1, hgray j]
  · rintro m ⟨j, hm⟩
    by_cases hj : j < s.count
    · rcases (hp.mem_gray j hj m).mp hm with hm | ⟨hm, -⟩
      · rw [hgray j] at hm
        cases hm
      · exact ⟨j, hp.chain ▸ hm⟩
    · rw [(hp.range j (Nat.le_of_not_lt hj)).1, hgray j] at hm
      cases hm
  · refine hseed hm ?_
    by_contra hprot
    rw [hcolor hm, if_neg hprot] at hg
    cases hg
  · obtain ⟨j, hmj⟩ := hm
    rw [hp.chain] at hmj
    have hl := hp.listed j m hmj ▸ hl
    simp [hlisted m ⟨j, hmj⟩, hgray j] at hl
  · rw [hcolor hm, if_pos (hp.prot ▸ hprot)]
    simp
  · rw [hcolor hm] at hb
    split at hb <;> cases hb
  · unfold RefsLive
    rw [hsame, hp.chain, hp.refs]
    exact hlive

/-! ### What is found -/

theorem ref_congr (h : SameGraph s t) : t.ref = s.ref := by
  funext m c
  rw [ref, ref, h.refs]

/-- The colours of all partitions as one tri-colour marking. -/
def jointSnapshot (s : MarkState) : TriColor.Marking NodePtr where
  gray := {n | s.Live n ∧ s.color n = .gray}
  black := {n | s.Live n ∧ s.color n = .black}

/-- Tracing an entry is a tri-colour step in the graph of all references. -/
theorem Joint.snapshot_step (h : s.Joint) (hst : MarkStep i s a t) :
    TriColor.Steps s.ref s.jointSnapshot t.jointSnapshot := by
  cases hst with
  | skip hg hn => exact .refl
  | requeue hg hn => exact .refl
  | @trace n rest cs hg hn hcs =>
    have hlive : s.Live n := h.entry n ⟨i, hg ▸ List.mem_cons_self⟩
    have hchild : ∀ {m}, m ∈ s.refs n → s.Live m := fun hm => by
      obtain ⟨j, hnj⟩ := hlive
      exact h.refs_live j n hnj _ hm
    have hsnap : ((s.pop i n rest).trace n cs).jointSnapshot =
        ⟨(s.jointSnapshot.gray ∪ {w | s.ref n w ∧ w ∉ s.jointSnapshot.black}) \ {n},
          insert n s.jointSnapshot.black⟩ := by
      have hgray : ∀ m, (s.Live m ∧ ((s.pop i n rest).trace n cs).color m = .gray) ↔
          ((s.Live m ∧ s.color m = .gray) ∨
            (m ∈ s.refs n ∧ ¬ (s.Live m ∧ s.color m = .black))) ∧ m ≠ n := by
        intro m
        by_cases hmn : m = n
        · simp [MarkState.trace, hmn]
        · by_cases hmc : m ∈ s.refs n
          · have hm := hchild hmc
            by_cases hb : s.color m = .black <;>
              simp [MarkState.trace, pop, hcs, hmn, hmc, hm, hb]
          · simp [MarkState.trace, pop, hcs, hmn, hmc]
      have hblack : ∀ m, (s.Live m ∧ ((s.pop i n rest).trace n cs).color m = .black) ↔
          m = n ∨ (s.Live m ∧ s.color m = .black) := by
        intro m
        by_cases hmn : m = n
        · simp [MarkState.trace, hmn, hlive]
        · simp only [MarkState.trace, pop, hmn]
          by_cases hb : s.color m = .black
          · simp [hb]
          · by_cases hmc : m ∈ cs <;> simp [hb, hmc]
      simp only [jointSnapshot, TriColor.Marking.mk.injEq]
      exact ⟨Set.ext hgray, Set.ext hblack⟩
    rw [hsnap]
    exact .single (.trace ⟨hlive, hn⟩)

theorem Joint.markRun (h : s.Joint) (hr : Run (MarkStep i) s as t) :
    t.Joint ∧ TriColor.Steps s.ref s.jointSnapshot t.jointSnapshot := by
  induction hr with
  | nil s => exact ⟨h, .refl⟩
  | @cons s u t a as hst _ ih =>
    obtain ⟨ht, hrest⟩ := ih (h.markStep hst)
    have href : u.ref = s.ref := ref_congr hst.sameGraph
    rw [href] at hrest
    exact ⟨ht, (h.snapshot_step hst).trans hrest⟩

/-- What a finished cycle has found is black, and so is everything that this refers to. -/
theorem Joint.black_of_done (h : s.Joint) (hdone : ∀ i, s.gray i = []) (hm : s.Live m)
    (hw : s.color m ≠ .white) : s.color m = .black := by
  cases hc : s.color m with
  | white => exact absurd hc hw
  | gray =>
    obtain ⟨j, hj⟩ := h.gray_waits m hm hc
    rw [hdone j] at hj
    cases hj
  | black => rfl

/-- Everything reachable has been found. -/
theorem Joint.reach_black (h : s.Joint) (hdone : ∀ i, s.gray i = []) (hm : m ∈ s.reach) :
    s.Live m ∧ s.color m = .black := by
  have hseeds : s.protectedNodes ⊆ {m | s.Live m ∧ s.color m = .black} := fun m hm =>
    ⟨hm.1, h.black_of_done hdone hm.1 (h.prot_marked m hm.1 hm.2)⟩
  have hclosed : ∀ m ∈ {m | s.Live m ∧ s.color m = .black}, ∀ c, s.ref m c →
      c ∈ {m | s.Live m ∧ s.color m = .black} := by
    rintro m ⟨⟨j, hm⟩, hb⟩ c hc
    have hlive := h.refs_live j m hm c hc
    exact ⟨hlive, h.black_of_done hdone hlive (h.closed m ⟨j, hm⟩ hb c hc)⟩
  exact TriColor.reach_subset_of_closed hclosed (TriColor.reach_mono hseeds hm)

/-! ### The sweeps -/

/-- The partitions of `is` have been swept. -/
def sweptOf (s : MarkState) (is : List ℕ) : MarkState :=
  { s with
    marking := fun j => if j ∈ is then false else s.marking j
    chain := fun j => if j ∈ is then (s.chain j).filter fun n => !s.garbage n else s.chain j }

theorem sweptOf_unlink (is : List ℕ) : (s.unlink i).sweptOf is = s.sweptOf (i :: is) := by
  refine MarkState.ext rfl (funext fun j => ?_) rfl (funext fun j => ?_) rfl rfl rfl rfl rfl
  · change (if j ∈ is then ((s.unlink i).chain j).filter fun n => !s.garbage n
      else (s.unlink i).chain j) = _
    by_cases hj : j ∈ is <;> by_cases hji : j = i <;>
      simp [sweptOf, MarkState.unlink, hj, hji, List.filter_filter]
  · by_cases hj : j ∈ is <;> by_cases hji : j = i <;> simp [sweptOf, MarkState.unlink, hj, hji]

end MarkState

/-- The operations that end the cycle of a partition. -/
def Op.endsCycle : Op → Bool
  | .markReset _ | .sweep _ | .garbageCollect _ | .removePartition _ _ => true
  | _ => false

/-- The cycle goes on, and the operation allocates, protects and marks in partitions that take part
in it. A partition that is created meanwhile does not. -/
structure InJointCycle (h : GcHeap) (op : Op) : Prop where
  /-- The operation neither sweeps nor resets, and removes no partition. -/
  goes_on : op.endsCycle = false
  /-- It allocates where the cycle is. -/
  allocates : ∀ r, op.allocates h = some r → (h.par r.1).marking = true
  /-- It protects there. -/
  protects : ∀ r, op.protects h = some r → (h.par r.1).marking = true
  /-- It marks there. -/
  marks : ∀ i, op.marks = some i → (h.par i).marking = true

theorem inJointCycle_iff {h : GcHeap} {op : Op} : InJointCycle h op ↔ op.endsCycle = false ∧
    (∀ r, op.allocates h = some r → (h.par r.1).marking = true) ∧
    (∀ r, op.protects h = some r → (h.par r.1).marking = true) ∧
    ∀ i, op.marks = some i → (h.par i).marking = true :=
  ⟨fun ⟨h₁, h₂, h₃, h₄⟩ => ⟨h₁, h₂, h₃, h₄⟩, fun ⟨h₁, h₂, h₃, h₄⟩ => ⟨h₁, h₂, h₃, h₄⟩⟩

instance {h : GcHeap} {op : Op} : Decidable (InJointCycle h op) :=
  decidable_of_iff' _ inJointCycle_iff

/-- No cycle is in progress, and nothing is left of the last one. -/
structure GcHeap.Settled (h : GcHeap) : Prop extends AtRest h where
  /-- No flag is set. -/
  listed : ∀ i, ∀ n ∈ (h.par i).nodes, (h.head n).grayListed = false

theorem GcHeap.settled_iff {h : GcHeap} : h.Settled ↔ h.AtRest ∧
    ∀ i < h.partitions.length, ∀ n ∈ (h.par i).nodes, (h.head n).grayListed = false :=
  ⟨fun hs => ⟨hs.toAtRest, fun i _ => hs.listed i⟩,
    fun ⟨hrest, hl⟩ => ⟨hrest, fun i n hn => hl i (lt_length_of_mem_nodes hn) n hn⟩⟩

instance {h : GcHeap} : Decidable h.Settled := decidable_of_iff' _ GcHeap.settled_iff

section

open GcHeap MarkState

variable {h h' h₀ h₁ h₂ h₃ : GcHeap} {op : Op} {s t : MarkState} {e : MarkEvent} {i k : ℕ}
  {n : NodePtr} {ops : List Op} {is : List ℕ}

/-- **Every step of the cycle** keeps the invariant. -/
theorem MarkState.Joint.emitStep (hs : s.Joint) (hst : EmitStep h op s e t)
    (hop : InJointCycle h op) : t.Joint := by
  obtain ⟨ht, hem⟩ := hst
  cases ht with
  | create =>
    exact { hs with range := fun j hj => hs.range j (Nat.le_of_succ_le hj) }
  | alloc hi hn hpay =>
    cases hem with
    | alloc hop' hview =>
      subst hview
      exact hs.alloc (hop.allocates _ hop') hn hpay
  | protect hn =>
    cases hem with
    | protect_own => exact hs.protect (hs.marking_pid hn) hn
    | protect hop' hview hprot =>
      subst hview
      exact hs.protect (hop.protects _ hop') hn
  | unprotect hun => exact hs.unprotects hun
  | bind hm hc hpay => exact hs.setRefs_bind hc hpay
  | barrier hn hpay => exact hs.barrier hn hpay
  | removeRefs hn hpay => exact hs.setRefs fun c hc => .inl (hpay c hc)
  | prepare hi hm hp =>
    cases hem with
    | prepare hop' hview =>
      subst hview
      exact absurd (hm.symm.trans (hop.marks _ hop')) Bool.false_ne_true
  | entry hst => exact hs.markStep hst
  | reset hi =>
    cases hem with
    | reset hop' =>
      subst hop'
      cases hop.goes_on
  | unlink hi hm hg =>
    cases hem with
    | unlink hop' =>
      rcases hop' with ⟨rfl, -⟩ | rfl <;> cases hop.goes_on
  | drop =>
    cases hem with
    | drop hop' =>
      subst hop'
      cases hop.goes_on

/-- **The run** of the cycle, up to the sweeps. -/
theorem joint_of_run (hmem : h.MemInv) (hs : h.view.Joint)
    (hrun : Run (StepWith InJointCycle) h ops h') : h'.MemInv ∧ h'.view.Joint := by
  refine hrun.invariant (I := fun h => h.MemInv ∧ h.view.Joint) (fun h op h' hh hst => ?_)
    ⟨hmem, hs⟩
  obtain ⟨es, hes⟩ := hst.1.events hh.1
  exact ⟨hh.1.step hst.1,
    hes.invariant (I := Joint) (fun _ _ _ hs he => hs.emitStep he hst.2) hh.2⟩

/-- **The first mark step** of a settled heap. -/
theorem GcHeap.Settled.mark (hsettled : h.Settled) (hi : i < h.partitions.length)
    (hmark : exec h (.mark i k) = some h') : h'.view.Joint ∧ h'.view.chain = h.view.chain ∧
      h'.view.refs = h.view.refs ∧
      TriColor.Steps h.view.ref ⟨h.view.protectedNodes, ∅⟩ h'.view.jointSnapshot := by
  obtain rfl := Option.some.inj hmark
  obtain ⟨s, as, hstart, hr, -⟩ := mark_run hsettled.owned hi k
  cases hstart with
  | going hm => exact absurd ((hsettled.marking i).symm.trans hm) Bool.false_ne_true
  | fresh hm hp =>
    have hlisted : ∀ n, h.view.Live n → h.view.listed n = false := by
      rintro n ⟨j, hn⟩
      exact hsettled.listed j n hn
    have hjoint := joint_prepared hsettled.owned hsettled.refs_live hsettled.gray hlisted hp
    have hseeds : s.jointSnapshot = ⟨h.view.protectedNodes, ∅⟩ := by
      have hcolor : ∀ {m}, s.Live m → s.color m = if h.view.prot m then .gray else .white :=
        hp.seed_color hsettled.gray
      have hlive : s.Live = h.view.Live := by
        funext m
        rw [MarkState.Live, MarkState.Live, hp.chain]
      simp only [jointSnapshot, TriColor.Marking.mk.injEq]
      refine ⟨Set.ext fun m => ?_, Set.eq_empty_of_forall_notMem fun m hm => ?_⟩
      · constructor
        · rintro ⟨hm, hg⟩
          refine ⟨hlive ▸ hm, ?_⟩
          by_contra hprot
          rw [hcolor hm, if_neg hprot] at hg
          cases hg
        · rintro ⟨hm, hprot⟩
          have hm : s.Live m := hlive ▸ hm
          exact ⟨hm, by rw [hcolor hm, if_pos hprot]⟩
      · obtain ⟨hm, hb⟩ := hm
        rw [hcolor hm] at hb
        split at hb <;> cases hb
    obtain ⟨hend, hsteps⟩ := hjoint.markRun hr
    have hsame := markRun_sameGraph hr
    have href : s.ref = h.view.ref := by
      funext m c
      rw [ref, ref, hp.refs]
    rw [hseeds, href] at hsteps
    exact ⟨hend, hsame.chain.trans hp.chain, hsame.refs.trans hp.refs, hsteps⟩

/-- **Mark steps only**, of any partitions and in any order. -/
theorem found_of_marks (hmem : h.MemInv) (hs : h.view.Joint)
    (hrun : Run (StepWith InJointCycle) h ops h') (hall : ∀ op ∈ ops, op.marks.isSome) :
    SameGraph h.view h'.view ∧
      TriColor.Steps h.view.ref h.view.jointSnapshot h'.view.jointSnapshot := by
  induction hrun with
  | nil h => exact ⟨.refl _, .refl⟩
  | @cons h h₁ h' op ops hst _ ih =>
    obtain ⟨hmem₁, hs₁⟩ := joint_of_run hmem hs (run_cons.mpr ⟨h₁, hst, .nil _⟩)
    obtain ⟨hsame, hrest⟩ := ih hmem₁ hs₁ fun op' hop' => hall op' (List.mem_cons_of_mem _ hop')
    have hfirst : SameGraph h.view h₁.view ∧
        TriColor.Steps h.view.ref h.view.jointSnapshot h₁.view.jointSnapshot := by
      obtain ⟨⟨hpre, hexec⟩, hop⟩ := hst
      cases op with
      | mark i k =>
        obtain rfl := Option.some.inj hexec
        obtain ⟨s, as, hstart, hr, -⟩ := mark_run hmem.owned hpre k
        cases hstart with
        | going hm => exact ⟨markRun_sameGraph hr, (hs.markRun hr).2⟩
        | fresh hm hp => exact absurd (hm.symm.trans (hop.marks i rfl)) Bool.false_ne_true
      | garbageCollect => cases hop.goes_on
      | _ => exact absurd (hall _ List.mem_cons_self) Bool.false_ne_true
    rw [ref_congr hfirst.1] at hrest
    exact ⟨hfirst.1.trans hsame, hfirst.2.trans hrest⟩

/-- **The sweeps**, in any order. -/
theorem view_sweeps (hgray : ∀ j, h.view.gray j = [])
    (hkept : ∀ j, h.view.marking j = false → ∀ n ∈ h.view.chain j, h.view.garbage n = false)
    (hrun : Run Step h (is.map .sweep) h') : h'.view = h.view.sweptOf is := by
  induction is generalizing h with
  | nil =>
    obtain rfl := run_nil.mp hrun
    simp [sweptOf]
  | cons i is ih =>
    obtain ⟨h₁, hst, hrest⟩ := run_cons.mp hrun
    obtain rfl := Option.some.inj hst.2
    by_cases hdone : i < h.view.count ∧ h.view.marking i = true ∧ h.view.gray i = []
    · have hunlink : (h.twoPhaseSweep i).1.view = h.view.unlink i := by
        rw [view_twoPhaseSweep, (view_sweepUnlink hdone.1 hdone.2.1 hdone.2.2).1]
      rw [ih ?_ ?_ hrest, hunlink, sweptOf_unlink]
      · rw [hunlink]
        exact hgray
      · rw [hunlink]
        intro j hj n hn
        obtain ⟨hn, hg⟩ := mem_chain_unlink.mp hn
        by_cases hji : j = i
        · exact hg hji
        · exact hkept j (by simpa [MarkState.unlink, hji] using hj) n hn
    · have hsame : (h.twoPhaseSweep i).1.view = h.view := by
        rw [view_twoPhaseSweep, sweepUnlink_of_not_done hdone]
      have hidle : h.view.marking i = false := by
        by_contra hmark
        have hmark : h.view.marking i = true := by simpa using hmark
        exact hdone ⟨lt_length_of_marking hmark, hmark, hgray i⟩
      rw [ih (hsame ▸ hgray) (hsame ▸ hkept) hrest, hsame]
      -- sweeping this partition changes nothing
      refine MarkState.ext rfl (funext fun j => ?_) rfl (funext fun j => ?_) rfl rfl rfl rfl rfl
      · by_cases hji : j = i
        · subst hji
          have hfilter : (h.view.chain j).filter (fun n => !h.view.garbage n) = h.view.chain j :=
            List.filter_eq_self.mpr fun n hn => by simp [hkept j hidle n hn]
          simp [sweptOf, hfilter]
        · simp [sweptOf, hji]
      · by_cases hji : j = i
        · subst hji
          simp [sweptOf, hidle]
        · simp [sweptOf, hji]

/-- A finished cycle, and the sweeps. -/
theorem MarkState.Joint.view_sweeps (hs : h₂.view.Joint) (hdone : ∀ j, (h₂.par j).grayList = [])
    (hsweeps : Run Step h₂ (is.map .sweep) h₃) : h₃.view = h₂.view.sweptOf is := by
  refine GcLite.view_sweeps hdone (fun j hj n hn => ?_) hsweeps
  exact absurd (hj.symm.trans (hs.marking j n hn)) Bool.false_ne_true

theorem MarkState.Joint.mem_sweptOf (is : List ℕ) (hs : s.Joint) (hdone : ∀ j, s.gray j = [])
    {j : ℕ} (hn : n ∈ s.chain j) : n ∈ (s.sweptOf is).chain j ↔ j ∉ is ∨ s.color n = .black := by
  have hblack : s.garbage n = false ↔ s.color n = .black := by
    constructor
    · intro hg
      refine hs.black_of_done hdone ⟨j, hn⟩ fun hw => ?_
      have hprot : s.prot n = true := by simpa [garbage, hw] using hg
      exact hs.prot_marked n ⟨j, hn⟩ hprot hw
    · intro hb
      simp [garbage, hb]
  by_cases hj : j ∈ is
  · simp [sweptOf, hj, hn, hblack]
  · simp [sweptOf, hj, hn]

/-- **A cycle of all partitions is safe.** It begins with a mark step of a settled heap. Then come
any operations, in any order, in which no partition ends its cycle and the mutator works in
partitions that take part; references may cross partitions. When all lists are empty, the partitions
are swept. This frees nothing that is reachable, and if every partition is swept, then the heap is
settled again, so that no reference dangles. -/
theorem joint_cycle_safe (hr : Reachable h₀) (hsettled : h₀.Settled)
    (hi : i < h₀.partitions.length) (hbegin : exec h₀ (.mark i k) = some h₁)
    (hrun : Run (StepWith InJointCycle) h₁ ops h₂) (hdone : ∀ j, (h₂.par j).grayList = [])
    (hsweeps : Run Step h₂ (is.map .sweep) h₃) :
    (∀ n ∈ h₂.reach, h₃.Live n) ∧ ((∀ j < h₂.partitions.length, j ∈ is) → h₃.Settled) := by
  have hfirst : Step h₀ (.mark i k) h₁ := ⟨hi, hbegin⟩
  have hmem₁ : h₁.MemInv := (memInv_of_reachable hr).step hfirst
  obtain ⟨-, hs⟩ := joint_of_run hmem₁ (hsettled.mark hi hbegin).1 hrun
  have hview := hs.view_sweeps hdone hsweeps
  have hmem : ∀ {n j}, n ∈ h₂.view.chain j →
      (n ∈ h₃.view.chain j ↔ j ∉ is ∨ h₂.view.color n = .black) := by
    intro n j hn
    rw [hview]
    exact hs.mem_sweptOf is hdone hn
  have hsub : ∀ {n j}, n ∈ h₃.view.chain j → n ∈ h₂.view.chain j := by
    intro n j hn
    rw [hview] at hn
    dsimp only [sweptOf] at hn
    split at hn
    · exact List.mem_of_mem_filter hn
    · exact hn
  constructor
  · intro n hn
    obtain ⟨⟨j, hnj⟩, hb⟩ := hs.reach_black hdone hn
    exact ⟨j, (hmem hnj).mpr (.inr hb)⟩
  · intro hall
    have hswept : ∀ {n j}, n ∈ h₃.view.chain j → h₂.view.color n = .black := fun hn =>
      ((hmem (hsub hn)).mp hn).resolve_left fun hout => hout (hall _ (hs.lt_count (hsub hn)))
    refine ⟨⟨fun j n hn => ?_, fun j n hn c hc => ?_, fun j => ?_, fun j => ?_⟩, fun j n hn => ?_⟩
    · have hpid : h₃.view.pid = h₂.view.pid := by rw [hview, sweptOf]
      exact (congrFun hpid n).trans (hs.own j n (hsub hn))
    · have hrefs : h₃.view.refs = h₂.view.refs := by rw [hview, sweptOf]
      have hc₂ : c ∈ h₂.view.refs n := hrefs ▸ hc
      obtain ⟨l, hcl⟩ := hs.refs_live j n (hsub hn) c hc₂
      have hb := hs.black_of_done hdone ⟨l, hcl⟩ (hs.closed n ⟨j, hsub hn⟩ (hswept hn) c hc₂)
      exact ⟨l, (hmem hcl).mpr (.inr hb)⟩
    · have hmarking : h₃.view.marking j = if j ∈ is then false else h₂.view.marking j := by
        rw [hview, sweptOf]
      by_cases hj : j < h₂.partitions.length
      · exact hmarking.trans (if_pos (hall j hj))
      · have hidle : h₂.view.marking j = false := (hs.range j (Nat.le_of_not_lt hj)).2.2
        exact hmarking.trans (by rw [hidle, ite_self])
    · have hgray : h₃.view.gray = h₂.view.gray := by rw [hview, sweptOf]
      exact (congrFun hgray j).trans (hdone j)
    · have hlisted : h₃.view.listed = h₂.view.listed := by rw [hview, sweptOf]
      refine (congrFun hlisted n).trans (Bool.eq_false_iff.mpr fun hl => ?_)
      obtain ⟨l, hl⟩ := hs.listed_waits n ⟨j, hsub hn⟩ hl
      rw [show h₂.view.gray l = [] from hdone l] at hl
      cases hl

end

/-- A script for such a cycle. -/
private theorem exists_joint_cycle (setup ops : List Op) (is : List ℕ) (k : ℕ) (P : GcHeap → Prop)
    [DecidablePred P]
    (hplay : (play (fun _ _ => True) setup
      (GcHeap.new (gcTypeTableInternal 24 8 [⟨8, 8, true, none⟩]))).any fun h₀ =>
        (h₀.Settled ∧ 0 < h₀.partitions.length) ∧ (exec h₀ (.mark 0 k)).any fun h₁ =>
          (play InJointCycle ops h₁).any fun h₂ =>
            (∀ j < h₂.partitions.length, (h₂.par j).grayList = [] ∧ j ∈ is) ∧
              (play (fun _ _ => True) (is.map .sweep) h₂).any fun h₃ => P h₃) :
    ∃ h₀ h₁ h₂ h₃, (Reachable h₀ ∧ h₀.Settled ∧ 0 < h₀.partitions.length) ∧
      exec h₀ (.mark 0 k) = some h₁ ∧ Run (StepWith InJointCycle) h₁ ops h₂ ∧
      ((∀ j, (h₂.par j).grayList = []) ∧ ∀ j < h₂.partitions.length, j ∈ is) ∧
      Run Step h₂ (is.map .sweep) h₃ ∧ P h₃ := by
  obtain ⟨h₀, hsetup, h⟩ := Option.any_eq_true _ _ |>.mp hplay
  obtain ⟨hstart, h⟩ := of_decide_eq_true h
  obtain ⟨h₁, hbegin, h⟩ := Option.any_eq_true _ _ |>.mp h
  obtain ⟨h₂, hops, h⟩ := Option.any_eq_true _ _ |>.mp h
  obtain ⟨hdone, h⟩ := of_decide_eq_true h
  obtain ⟨h₃, hsweeps, h⟩ := Option.any_eq_true _ _ |>.mp h
  refine ⟨h₀, h₁, h₂, h₃, ⟨reachableWith_of_play hsetup, hstart⟩, hbegin, run_of_play hops,
    ⟨fun j => ?_, fun j hj => (hdone j hj).2⟩, (run_of_play hsweeps).mono fun _ _ _ hst => hst.1,
    of_decide_eq_true h⟩
  by_cases hj : j < h₂.partitions.length
  · exact (hdone j hj).1
  · rw [GcHeap.par_of_length_le (Nat.le_of_not_lt hj)]
    rfl

/-- The root is traced, and then made to refer to a node of the other partition. The cycle of two
nodes in two partitions goes. -/
theorem joint_cycle_safe_bind : ∃ h₂ h₃ : GcHeap, (∀ n ∈ h₂.reach, h₃.Live n) ∧ h₃.Settled ∧
    (h₃.par 0).nodes = [1000] ∧ (h₃.par 1).nodes = [2000] := by
  obtain ⟨h₀, h₁, h₂, h₃, ⟨hr, hsettled, hi⟩, hbegin, hrun, ⟨hdone, hall⟩, hsweeps, hnodes⟩ :=
    exists_joint_cycle
      [.createPartition 0 0 none, .createPartition 0 0 none, .allocRootRaw 0 0 [] (some 1000),
        .allocRaw 1 0 [] (some 2000), .allocRaw 0 0 [] (some 3000),
        .allocRaw 1 0 [3000] (some 4000), .bind 3000 4000 [4000]]
      [.bind 1000 2000 [2000], .mark 1 10, .mark 0 10] [1, 0] 1
      (fun h => (h.par 0).nodes = [1000] ∧ (h.par 1).nodes = [2000]) (by decide +kernel)
  obtain ⟨hsafe, hagain⟩ := joint_cycle_safe hr hsettled hi hbegin hrun hdone hsweeps
  exact ⟨h₂, h₃, hsafe, hagain hall, hnodes⟩

section

open GcHeap MarkState

variable {h₀ h₁ h₂ h₃ : GcHeap} {i k : ℕ} {n : NodePtr} {ops : List Op} {is : List ℕ}

/-- **A cycle of all partitions is exact**, if nothing but marking happens until the sweeps. Every
partition that is swept is left with the nodes that were reachable at the beginning, also when they
are reachable through other partitions only; and garbage goes, also when it forms cycles that cross
partitions. -/
theorem joint_cycle_exact (hr : Reachable h₀) (hsettled : h₀.Settled)
    (hi : i < h₀.partitions.length) (hbegin : exec h₀ (.mark i k) = some h₁)
    (hrun : Run (StepWith InJointCycle) h₁ ops h₂) (hall : ∀ op ∈ ops, op.marks.isSome)
    (hdone : ∀ j, (h₂.par j).grayList = []) (hsweeps : Run Step h₂ (is.map .sweep) h₃) {j : ℕ}
    (hj : j ∈ is) : n ∈ (h₃.par j).nodes ↔ n ∈ (h₀.par j).nodes ∧ n ∈ h₀.reach := by
  have hfirst : Step h₀ (.mark i k) h₁ := ⟨hi, hbegin⟩
  have hmem₁ : h₁.MemInv := (memInv_of_reachable hr).step hfirst
  obtain ⟨hs₁, hchain₁, hrefs₁, hbegun⟩ := hsettled.mark hi hbegin
  obtain ⟨-, hs⟩ := joint_of_run hmem₁ hs₁ hrun
  obtain ⟨hsame, hrest⟩ := found_of_marks hmem₁ hs₁ hrun hall
  have href : h₁.view.ref = h₀.view.ref := by
    funext m c
    rw [ref, ref, hrefs₁]
  rw [href] at hrest
  have hgray : h₂.view.jointSnapshot.gray = ∅ := by
    refine Set.eq_empty_of_forall_notMem fun m hm => ?_
    obtain ⟨l, hl⟩ := hs.gray_waits m hm.1 hm.2
    rw [show h₂.view.gray l = [] from hdone l] at hl
    cases hl
  have hblack : h₂.view.jointSnapshot.black = h₀.reach := by
    have hsteps : TriColor.Steps h₀.view.ref ⟨h₀.view.protectedNodes, ∅⟩ h₂.view.jointSnapshot :=
      hbegun.trans hrest
    rw [hsteps.black_eq_reach (fun _ hv => hv.elim) hgray]
    exact congrArg _ (Set.union_empty _)
  have hchain : h₂.view.chain j = h₀.view.chain j := by rw [hsame.chain, hchain₁]
  have hview := hs.view_sweeps hdone hsweeps
  have hfilter : h₃.view.chain j =
      (h₂.view.chain j).filter fun n => !h₂.view.garbage n := by
    rw [hview]
    exact if_pos hj
  constructor
  · intro hn
    have hn₃ : n ∈ h₃.view.chain j := hn
    have hn₂ : n ∈ h₂.view.chain j := List.mem_of_mem_filter (hfilter ▸ hn₃)
    have hb : h₂.view.color n = .black := by
      refine ((hs.mem_sweptOf is hdone hn₂).mp ?_).resolve_left fun hout => hout hj
      rwa [← hview]
    have hn₀ : n ∈ h₀.view.chain j := hchain ▸ hn₂
    exact ⟨hn₀, hblack ▸ ⟨⟨j, hn₂⟩, hb⟩⟩
  · rintro ⟨hn, hreach⟩
    have hn₂ : n ∈ h₂.view.chain j := hchain ▸ hn
    have hb : n ∈ h₂.view.jointSnapshot.black := hblack ▸ hreach
    have hkept := (hs.mem_sweptOf is hdone hn₂).mpr (.inr hb.2)
    rw [← hview] at hkept
    exact hkept

end

/-- The root holds a node of the other partition, and this holds one of the root's. -/
theorem joint_cycle_exact_cross : ∃ h₀ h₃ : GcHeap, (h₃.par 0).nodes = [3000, 1000] ∧
    ∀ n, n ∈ (h₃.par 0).nodes ↔ n ∈ (h₀.par 0).nodes ∧ n ∈ h₀.reach := by
  obtain ⟨h₀, h₁, h₂, h₃, ⟨hr, hsettled, hi⟩, hbegin, hrun, ⟨hdone, -⟩, hsweeps, hnodes⟩ :=
    exists_joint_cycle
      [.createPartition 0 0 none, .createPartition 0 0 none, .allocRootRaw 0 0 [] (some 1000),
        .allocRaw 0 0 [] (some 3000), .allocRaw 1 0 [3000] (some 2000), .bind 1000 2000 [2000],
        .allocRaw 0 0 [2000] (some 4000)]
      [.mark 1 10, .mark 0 10] [0, 1] 10 (fun h => (h.par 0).nodes = [3000, 1000])
      (by decide +kernel)
  exact ⟨h₀, h₃, hnodes, fun n => joint_cycle_exact hr hsettled hi hbegin hrun
    (by decide) hdone hsweeps (by decide)⟩

end GcLite
