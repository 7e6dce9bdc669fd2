import GcLite.Incremental

/-!
# Garbage does not float for long

The other half of incremental collection. A node that becomes garbage in the middle of a cycle may
have been found already, and then the sweep that ends the cycle keeps it. The next cycle does not
find it any more, unless the mutator takes it up again. So garbage outlives one sweep of its
partition at most, and none when it is garbage before the cycle begins.

The mutator may hold on to nodes that nothing protects, such as those it has just allocated. All
that is asked of it is that it is done with the one node: no operation is handed a node that leads
to it.

Whether a sweep keeps a node is asked of the node, not of its address: the runs below are those in
which the node is chained all the time, so that the address has not been given to another.

## Main definitions

* `MarkState.leads` — the nodes from which a node can be reached
* `MarkState.Cut` — nothing outside of a set of nodes holds on to them
* `MarkState.Doomed` — moreover no cycle has found them
* `OutlivesStep` — a run that counts the sweeps a node has outlived

## Main results

* `Cut.step` — garbage stays garbage
* `Doomed.step`, `Doomed.stepWith` — what no cycle has found, no mark step finds
* `garbage_outlives_one_sweep`
-/

namespace GcLite

open Relation Transition

/-- The references of a new node are what the allocation is handed. -/
theorem Op.operands_of_allocates {h : GcHeap} {op : Op} {i : ℕ} {payload : Payload}
    (hop : op.allocates h = some (i, payload)) : op.operands = payload := by
  cases op with
  | allocRaw | allocRootRaw =>
    obtain ⟨-, rfl⟩ := Prod.mk.inj (Option.some.inj hop)
    rfl
  | allocLocal =>
    obtain ⟨s, -, heq⟩ := Option.map_eq_some_iff.mp hop
    exact (Prod.mk.inj heq).2
  | _ => cases hop

namespace MarkState

variable {s t : MarkState} {e : MarkEvent} {h h' : GcHeap} {op : Op} {i j : ℕ} {n m c : NodePtr}
  {G : Set NodePtr}

/-! ### Nothing holds on to a node -/

/-- No node of `G` is protected, and no live node outside of `G` refers into `G`. -/
structure Cut (s : MarkState) (G : Set NodePtr) : Prop where
  /-- No node of the set is a root or local. -/
  prot : ∀ n ∈ G, s.prot n = false
  /-- No reference leads into it from outside. -/
  closed : ∀ j, ∀ m ∈ s.chain j, m ∉ G → ∀ c ∈ s.refs m, c ∉ G

/-- The live nodes from which `n` can be reached. -/
def leads (s : MarkState) (n : NodePtr) : Set NodePtr := {m | s.Live m ∧ ReflTransGen s.ref m n}

/-- What leads to garbage is cut off. -/
theorem cut_leads (hn : n ∉ s.reach) : s.Cut (s.leads n) where
  prot m hm := by
    by_contra hprot
    exact hn ⟨m, ⟨hm.1, by simpa using hprot⟩, hm.2⟩
  closed j m hm hmG c hc hcG := hmG ⟨⟨j, hm⟩, .head hc hcG.2⟩

/-- Conversely, nothing that is cut off is reachable. -/
theorem Cut.notMem_reach (hcut : s.Cut G) (hs : s.RefsLive) (hn : n ∈ G) : n ∉ s.reach := by
  have hprot : s.protectedNodes ⊆ {m | s.Live m ∧ m ∉ G} := fun m hm =>
    ⟨hm.1, fun hmG => Bool.false_ne_true ((hcut.prot m hmG).symm.trans hm.2)⟩
  have hclosed : ∀ m ∈ {m | s.Live m ∧ m ∉ G}, ∀ c, s.ref m c → c ∈ {m | s.Live m ∧ m ∉ G} := by
    rintro m ⟨⟨j, hmj⟩, hmG⟩ c hc
    exact ⟨hs j m hmj c hc, hcut.closed j m hmj hmG c hc⟩
  intro hr
  exact (TriColor.reach_subset_of_closed hclosed (TriColor.reach_mono hprot hr)).2 hn

/-- Nor does anything else lead to it. -/
theorem Cut.leads_subset (hcut : s.Cut G) (hs : s.RefsLive) (hn : n ∈ G) : s.leads n ⊆ G := by
  rintro m ⟨hm, hpath⟩
  induction hpath using ReflTransGen.head_induction_on with
  | refl => exact hn
  | @head m c hmc _ ih =>
    obtain ⟨j, hmj⟩ := hm
    by_contra hmG
    exact hcut.closed j m hmj hmG c hmc (ih (hs j m hmj c hmc))

theorem Cut.of_same (hcut : s.Cut G) (hchain : ∀ j, ∀ m ∈ t.chain j, m ∈ s.chain j)
    (hrefs : t.refs = s.refs) (hprot : ∀ n ∈ G, t.prot n = true → s.prot n = true) : t.Cut G where
  prot n hn := Bool.eq_false_iff.mpr fun hp =>
    Bool.false_ne_true ((hcut.prot n hn).symm.trans (hprot n hn hp))
  closed j m hm hmG := hrefs ▸ hcut.closed j m (hchain j m hm) hmG

theorem Cut.setRefs (hcut : s.Cut G) {payload : Payload}
    (hpay : ∀ c ∈ payload, c ∈ s.refs n ∨ c ∉ G) : (s.setRefs n payload).Cut G where
  prot := hcut.prot
  closed j m hm hmG c hc := by
    by_cases hmn : m = n
    · subst hmn
      simp only [MarkState.setRefs, Function.update_self] at hc
      exact (hpay c hc).elim (hcut.closed j m hm hmG c) id
    · simp only [MarkState.setRefs, Function.update_of_ne hmn] at hc
      exact hcut.closed j m hm hmG c hc

theorem Cut.alloc (hcut : s.Cut G) {payload : Payload} (hn : n ∉ G) (hpay : ∀ c ∈ payload, c ∉ G) :
    (s.alloc i n payload).Cut G where
  prot m hm := by
    have hmn : m ≠ n := by
      rintro rfl
      exact hn hm
    simpa [MarkState.alloc, hmn] using hcut.prot m hm
  closed j m hm hmG c hc := by
    by_cases hmn : m = n
    · subst hmn
      simp only [MarkState.alloc, Function.update_self] at hc
      exact hpay c hc
    · simp only [MarkState.alloc, Function.update_of_ne hmn] at hc
      obtain ⟨rfl, -⟩ | hmj := mem_chain_alloc.mp hm
      · exact absurd rfl hmn
      · exact hcut.closed j m hmj hmG c hc

theorem Cut.protect (hcut : s.Cut G) (hn : n ∉ G) : (s.protect i n).Cut G := by
  obtain ⟨-, hchain, -, -, hrefs, hprot⟩ := shade_same (s := s) (i := i) (n := n)
  have hupdate : ∀ m ∈ G, Function.update s.prot n true m = true → s.prot m = true := by
    intro m hm hp
    have hmn : m ≠ n := by
      rintro rfl
      exact hn hm
    rwa [Function.update_of_ne hmn] at hp
  rw [protect_eq]
  split
  · exact hcut.of_same (fun j m hm => hchain ▸ hm) hrefs hupdate
  · exact hcut.of_same (fun _ _ hm => hm) rfl hupdate

/-- **Garbage stays garbage.** Whatever an operation does with nodes outside of `G`, it leaves `G`
cut off. -/
theorem Cut.step (hcut : s.Cut G) (hst : OperandStep h op s e t)
    (hG : ∀ n ∈ G, h.Live n ∧ n ∉ op.operands) : t.Cut G := by
  obtain ⟨⟨ht, hem⟩, hcov⟩ := hst
  have hout : ∀ {c}, c ∈ op.operands → c ∉ G := fun hc hcG => (hG _ hcG).2 hc
  cases ht with
  | create => exact hcut.of_same (fun _ _ hm => hm) rfl fun _ _ hp => hp
  | @alloc i n payload hi hn hlive =>
    cases hem with
    | alloc hop hview =>
      subst hview
      refine hcut.alloc (fun hnG => hn (hG n hnG).1) fun c hc => hout ?_
      rwa [Op.operands_of_allocates hop]
  | @protect i n hn => exact hcut.protect fun hnG => (hG n hnG).2 (hcov i n rfl (hG n hnG).1)
  | unprotect hun =>
    obtain ⟨prot, rfl, hprot⟩ := hun
    exact hcut.of_same (fun _ _ hm => hm) rfl fun n _ hp => hprot n hp
  | @bind m c payload hm hc hpay =>
    cases hem with
    | bind hop hview =>
      subst hop
      obtain ⟨-, hchain, -, -, hrefs, hprot⟩ := bind_same (s := s) (m := m) (c := c)
      rw [bind_setRefs]
      refine (hcut.of_same (t := s.bind m c) (fun j x hx => hchain ▸ hx) hrefs
        fun x _ hp => hprot ▸ hp).setRefs fun d hd => ?_
      rw [hrefs]
      refine (hpay d hd).imp_right fun heq => ?_
      rw [heq]
      exact hout (List.mem_singleton_self c)
  | @barrier n payload hn hpay =>
    cases hem with
    | barrier hop hview =>
      subst hop
      obtain ⟨-, hchain, -, -, hrefs, hprot⟩ := regray_same (s := s) (n := n)
      refine (hcut.of_same (t := s.regray n) (fun j x hx => hchain ▸ hx) hrefs
        fun x _ hp => hprot ▸ hp).setRefs fun c hc => .inr (hout hc)
  | removeRefs hn hpay => exact hcut.setRefs fun c hc => .inl (hpay c hc)
  | prepare hi hm hp =>
    exact hcut.of_same (fun j x hx => hp.chain ▸ hx) hp.refs fun n _ hn => hp.prot ▸ hn
  | entry hst =>
    have hsame := hst.sameGraph
    exact hcut.of_same (fun j x hx => hsame.chain ▸ hx) hsame.refs fun n _ hn => hsame.prot ▸ hn
  | reset hi => exact hcut.of_same (fun _ _ hm => hm) rfl fun _ _ hp => hp
  | unlink hi hm hg =>
    exact hcut.of_same (fun j x hx => (mem_chain_unlink.mp hx).1) rfl fun _ _ hp => hp
  | drop => exact hcut.of_same (fun j x hx => (mem_chain_drop.mp hx).1) rfl fun _ _ hp => hp

/-! ### What no cycle has found -/

/-- The nodes of `G` are of partition `i`, nothing outside holds on to them, and if `i` is marking,
none of them has been found. -/
structure Doomed (s : MarkState) (i : ℕ) (G : Set NodePtr) : Prop extends Cut s G where
  /-- They are in its chain. -/
  mem : ∀ n ∈ G, n ∈ s.chain i
  /-- None of them has been found. -/
  white : s.marking i = true → ∀ n ∈ G, s.color n = .white

/-- What leads to a node without leaving partitions is in the partition of the node. -/
theorem Enclosed.mem_chain_of_leads (hs : s.Enclosed) (hn : n ∈ s.chain i) (hm : m ∈ s.leads n) :
    m ∈ s.chain i := by
  obtain ⟨hm, hpath⟩ := hm
  induction hpath using ReflTransGen.head_induction_on with
  | refl => exact hn
  | @head m c hmc _ ih =>
    obtain ⟨j, hmj⟩ := hm
    have hci := ih (hs.refs_live j m hmj c hmc)
    obtain rfl : j = i := (hs.inside j m hmj c hmc).symm.trans (hs.own i c hci)
    exact hmj

/-- Before a cycle begins, nothing has been found. -/
theorem Enclosed.doomed (hs : s.Enclosed) (hi : s.marking i = false) (hn : n ∈ s.chain i)
    (hgarbage : n ∉ s.reach) : s.Doomed i (s.leads n) where
  toCut := cut_leads hgarbage
  mem _ hm := hs.mem_chain_of_leads hn hm
  white hm := absurd (hi.symm.trans hm) Bool.false_ne_true

theorem protect_color (hm : m ≠ n) : (s.protect i n).color m = s.color m := by
  rw [protect_eq]
  split
  · exact shade_color hm
  · rfl

theorem protect_same : (s.protect i n).chain = s.chain ∧ (s.protect i n).marking = s.marking := by
  obtain ⟨-, hchain, hmarking, -⟩ := shade_same (s := s) (i := i) (n := n)
  rw [protect_eq]
  split
  · exact ⟨hchain, hmarking⟩
  · exact ⟨rfl, rfl⟩

theorem regray_color (hm : m = n → s.marking (s.pid n) = true → s.color n ≠ .black) :
    (s.regray n).color m = s.color m := by
  rw [regray_eq]
  split
  · next hn =>
    have hmn : m ≠ n := fun heq => hm heq hn.1 hn.2
    rw [shade_color hmn]
    exact Function.update_of_ne hmn _ _
  · rfl

/-- A mark step of any partition passes the nodes over. -/
theorem Doomed.white_markStep (hd : s.Doomed i G) (hs : s.Enclosed) {a : MarkAction}
    (hst : MarkStep j s a t) (hi : s.marking i = true) (hn : n ∈ G) : t.color n = .white := by
  have hwhite := hd.white hi n hn
  cases hst with
  | skip | requeue => exact hwhite
  | @trace m rest cs hg hm hcs =>
    have hnm : n ≠ m := by
      rintro rfl
      rw [hwhite] at hm
      cases hm
    have hmj : m ∈ s.chain j := hs.entry j m (hg ▸ List.mem_cons_self)
    have hmG : m ∉ G := fun hmG => by
      rw [hd.white hi m hmG] at hm
      cases hm
    have hncs : n ∉ cs := fun hnc => hd.closed j m hmj hmG n ((hcs n).mp hnc) hn
    simpa [MarkState.trace, MarkState.pop, hnm, hncs] using hwhite

theorem Doomed.white_alloc {payload : Payload} (hd : s.Doomed i G) (hn : n ∉ G)
    (hi : s.marking i = true) (hm : m ∈ G) : (s.alloc j n payload).color m = .white := by
  have hmn : m ≠ n := ne_of_mem_of_not_mem hm hn
  simpa [MarkState.alloc, hmn] using hd.white hi m hm

theorem Doomed.white_bind (hd : s.Doomed i G) {m c : NodePtr} (hc : c ∉ G)
    (hi : s.marking i = true) (hn : n ∈ G) : (s.bind m c).color n = .white :=
  (bind_color (ne_of_mem_of_not_mem hn hc)).trans (hd.white hi n hn)

/-- The write barrier grays black nodes. -/
theorem Doomed.white_regray (hd : s.Doomed i G) (hi : s.marking i = true) (hm : m ∈ G) :
    (s.regray n).color m = .white := by
  have hwhite := hd.white hi m hm
  refine (regray_color ?_).trans hwhite
  rintro rfl _ hblack
  rw [hwhite] at hblack
  cases hblack

/-- The beginning of a cycle grays roots and locals. -/
theorem Doomed.white_prepared (hd : s.Doomed i G) (hs : s.Enclosed) (hp : Prepared s t)
    (hn : n ∈ G) : t.color n = .white := by
  rw [hp.color i n (hd.mem n hn), if_neg (Bool.eq_false_iff.mp (hd.prot n hn))]
  split
  · rfl
  · next hgray =>
    -- a partition with something on its list is in its cycle already
    refine hd.white ?_ n hn
    by_contra hi
    exact hgray (hs.idle i (by simpa using hi))

theorem Doomed.white_reset (hd : s.Doomed i G) (hi : (s.reset j).marking i = true) (hn : n ∈ G) :
    (s.reset j).color n = .white := by
  obtain ⟨-, hi⟩ := marking_reset.mp hi
  by_cases hnj : n ∈ s.chain j
  · exact if_pos hnj
  · exact (if_neg hnj).trans (hd.white hi n hn)

/-- The sweep of a cycle that has not found them takes all of them. -/
theorem Doomed.unlinked (hd : s.Doomed i G) (hi : s.marking i = true) (hn : n ∈ G) :
    n ∉ (s.unlink i).chain i := by
  intro hni
  have hgarbage : s.garbage n = true := by
    simp [MarkState.garbage, hd.white hi n hn, hd.prot n hn]
  exact Bool.false_ne_true (((mem_chain_unlink.mp hni).2 rfl).symm.trans hgarbage)

/-- **No mark step finds what is doomed**, and the sweep that ends a cycle takes all of it. -/
theorem Doomed.step (hd : s.Doomed i G) (hs : s.Enclosed) (hst : OperandStep h op s e t)
    (hG : ∀ n ∈ G, h.Live n ∧ n ∉ op.operands) : t.Doomed i G ∨ ∀ n ∈ G, n ∉ t.chain i := by
  have hcut : t.Cut G := hd.toCut.step hst hG
  have hkeep : (∀ n ∈ G, n ∈ s.chain i → n ∈ t.chain i) →
      (t.marking i = true → ∀ n ∈ G, t.color n = .white) →
      t.Doomed i G ∨ ∀ n ∈ G, n ∉ t.chain i := fun hchain hwhite =>
    .inl { hcut with mem := fun n hn => hchain n hn (hd.mem n hn), white := hwhite }
  obtain ⟨⟨ht, hem⟩, hcov⟩ := hst
  cases ht with
  | create => exact hkeep (fun _ _ hm => hm) hd.white
  | @alloc j n payload hj hn hlive =>
    cases hem with
    | alloc hop hview =>
      subst hview
      have hnG : n ∉ G := fun hnG => hn (hG n hnG).1
      exact hkeep (fun m _ hm => mem_chain_alloc.mpr (.inr hm)) fun hi m hm =>
        hd.white_alloc hnG hi hm
  | @protect j n hn =>
    have hnG : n ∉ G := fun hnG => (hG n hnG).2 (hcov j n rfl (hG n hnG).1)
    obtain ⟨hchain, hmarking⟩ := protect_same (s := s) (i := j) (n := n)
    refine hkeep (fun m _ hm => hchain ▸ hm) fun hi m hm => ?_
    rw [protect_color (ne_of_mem_of_not_mem hm hnG)]
    exact hd.white (hmarking ▸ hi) m hm
  | unprotect hun =>
    obtain ⟨prot, rfl, -⟩ := hun
    exact hkeep (fun _ _ hm => hm) hd.white
  | @bind m c payload hm hc hpay =>
    cases hem with
    | bind hop hview =>
      subst hop
      obtain ⟨-, hchain, hmarking, -, -, -⟩ := bind_same (s := s) (m := m) (c := c)
      have hcG : c ∉ G := fun hcG => (hG c hcG).2 (List.mem_singleton_self c)
      rw [bind_setRefs] at hkeep ⊢
      exact hkeep (fun n _ hn => hchain ▸ hn) fun hi n hn => hd.white_bind hcG (hmarking ▸ hi) hn
  | @barrier n payload hn hpay =>
    obtain ⟨-, hchain, hmarking, -, -, -⟩ := regray_same (s := s) (n := n)
    exact hkeep (fun m _ hm => hchain ▸ hm) fun hi m hm => hd.white_regray (hmarking ▸ hi) hm
  | removeRefs hn hpay => exact hkeep (fun _ _ hm => hm) hd.white
  | prepare hj hm hp =>
    exact hkeep (fun n _ hn => hp.chain ▸ hn) fun _ n hn => hd.white_prepared hs hp hn
  | entry hst =>
    have hsame := hst.sameGraph
    exact hkeep (fun n _ hn => hsame.chain ▸ hn) fun hi n hn =>
      hd.white_markStep hs hst (hsame.marking ▸ hi) hn
  | reset hj => exact hkeep (fun _ _ hm => hm) fun hi n hn => hd.white_reset hi hn
  | @unlink j hj hm hg =>
    by_cases hji : i = j
    · subst hji
      exact .inr fun n hn => hd.unlinked hm hn
    · refine hkeep (fun n _ hn => mem_chain_unlink.mpr ⟨hn, fun heq => absurd heq hji⟩) ?_
      intro hi
      exact hd.white (by simpa [MarkState.unlink, hji] using hi)
  | @drop j =>
    by_cases hji : i = j
    · subst hji
      exact .inr fun n _ hni => (mem_chain_drop.mp hni).2 rfl
    · refine hkeep (fun n _ hn => mem_chain_drop.mpr ⟨hn, hji⟩) ?_
      intro hi
      exact hd.white (by simpa [MarkState.drop, hji] using hi)

/-- What an operation has taken out of a chain does not come back in its course. -/
theorem mem_chain_of_operandStep (hst : OperandStep h op s e t) (hn : h.Live n)
    (hmem : n ∈ t.chain i) : n ∈ s.chain i := by
  obtain ⟨⟨ht, hem⟩, -⟩ := hst
  cases ht with
  | alloc hi hn' hlive =>
    cases hem with
    | alloc hop hview =>
      subst hview
      obtain ⟨rfl, -⟩ | hmem := mem_chain_alloc.mp hmem
      · exact absurd hn hn'
      · exact hmem
  | @protect j m hm =>
    obtain ⟨-, hchain, -⟩ := shade_same (s := s) (i := j) (n := m)
    rw [protect_eq] at hmem
    split at hmem
    · exact hchain ▸ hmem
    · exact hmem
  | unprotect hun =>
    obtain ⟨prot, rfl, -⟩ := hun
    exact hmem
  | @bind m c payload _ _ _ =>
    rw [bind_setRefs] at hmem
    exact (bind_same (s := s) (m := m) (c := c)).2.1 ▸ hmem
  | @barrier m payload _ _ => exact (regray_same (s := s) (n := m)).2.1 ▸ hmem
  | prepare _ _ hp => exact hp.chain ▸ hmem
  | entry hst => exact hst.sameGraph.chain ▸ hmem
  | unlink => exact (mem_chain_unlink.mp hmem).1
  | drop => exact (mem_chain_drop.mp hmem).1
  | create | removeRefs | reset => exact hmem

/-- What holds of a doomed set in the course of an operation. -/
def DoomedOrGone (s : MarkState) (i : ℕ) (G : Set NodePtr) : Prop :=
  s.Enclosed ∧ (s.Doomed i G ∨ ∀ n ∈ G, n ∉ s.chain i)

/-- The machine keeps what the operation began with, or frees it. -/
theorem DoomedOrGone.run {es : List MarkEvent} (hs : s.DoomedOrGone i G)
    (hes : Run (OperandStep h op) s es t) (hop : InPartition h op)
    (hG : ∀ n ∈ G, h.Live n ∧ n ∉ op.operands) : t.DoomedOrGone i G := by
  refine hes.invariant (I := fun s => s.DoomedOrGone i G) (fun s e t hs hst => ?_) hs
  refine ⟨hs.1.step hst.1 hop, ?_⟩
  rcases hs.2 with hd | hgone
  · exact hd.step hs.1 hst hG
  · exact .inr fun n hn hmem => hgone n hn (mem_chain_of_operandStep hst (hG n hn).1 hmem)

/-- The sweep at the end frees all of it. -/
theorem DoomedOrGone.unlink (hs : s.DoomedOrGone i G) (hi : s.marking i = true) (hn : n ∈ G) :
    n ∉ (s.unlink i).chain i := by
  intro hni
  obtain ⟨hmem, hkept⟩ := mem_chain_unlink.mp hni
  rcases hs.2 with hd | hgone
  · have hgarbage : s.garbage n = true := by
      simp [MarkState.garbage, hd.white hi n hn, hd.prot n hn]
    exact Bool.false_ne_true ((hkept rfl).symm.trans hgarbage)
  · exact hgone n hn hmem

end MarkState

/-! ### Sweeps -/

/-- The operation is one that completes a sweep of partition `i`. -/
def Op.Sweeps (h : GcHeap) (i : ℕ) : Op → Prop
  | .sweep j => j = i ∧ h.CycleDone i
  | .garbageCollect j => j = i
  | _ => False

instance {h : GcHeap} {i : ℕ} {op : Op} : Decidable (op.Sweeps h i) := by
  apply Op.casesOn (motive := fun op => Decidable (op.Sweeps h i)) op <;> intros <;>
    dsimp only [Op.Sweeps] <;> infer_instance

/-- The conditions on a run: references stay inside partitions, and the mutator is done with `n`, so
that no operation is handed a node that leads to it. -/
structure DoneWith (n : NodePtr) (h : GcHeap) (op : Op) : Prop extends InPartition h op where
  /-- No operand of the operation leads to the node. -/
  operands : ∀ c ∈ op.operands, c ∉ h.view.leads n

section

open GcHeap MarkState

variable {h h' : GcHeap} {op : Op} {i : ℕ} {n : NodePtr}

/-- An operation that completes a sweep ends with it. -/
theorem Step.sweeps (hmem : h.MemInv) (hst : Step h op h') (hop : op.Sweeps h i)
    (hi : i < h.view.count) : ∃ es s, Run (OperandStep h op) h.view es s ∧
      s.marking i = true ∧ h'.view = s.unlink i := by
  cases op with
  | sweep j =>
    obtain ⟨rfl, -, hmark, hgray⟩ := hop
    refine ⟨[], h.view, .nil _, hmark, ?_⟩
    obtain rfl := Option.some.inj hst.2
    rw [view_twoPhaseSweep, (view_sweepUnlink hi hmark hgray).1]
  | garbageCollect j =>
    obtain rfl : j = i := hop
    obtain ⟨⟨h₁, bytes⟩, hgc, rfl⟩ := Option.map_eq_some_iff.mp hst.2
    rcases garbageCollect_run hmem.owned hgc with ⟨hle, -⟩ |
      ⟨-, h₂, s, as, -, hstart, hrun, -, hmark, -, hview⟩
    · exact absurd hi (Nat.not_lt.mpr hle)
    · obtain ⟨es, hes⟩ := operandRun_of_started (.garbageCollect j) rfl hi hstart hrun
      exact ⟨es, h₂.view, hes, hmark, hview⟩
  | _ => exact hop.elim

/-- What a run keeps of the marker. -/
theorem enclosed_step (hmem : h.MemInv) (hs : h.view.Enclosed)
    (hst : StepWith (DoneWith n) h op h') : h'.MemInv ∧ h'.view.Enclosed := by
  obtain ⟨es, hes⟩ := hst.1.events hmem
  exact ⟨hmem.step hst.1,
    hes.invariant (I := Enclosed) (fun _ _ _ hs he => hs.step he hst.2.toInPartition) hs⟩

/-- **Garbage stays garbage**, if the mutator is done with it. -/
theorem cut_leads_step (hmem : h.MemInv) (hst : StepWith (DoneWith n) h op h')
    (hgarbage : n ∉ h.reach) : h'.view.Cut (h.view.leads n) := by
  obtain ⟨es, hes⟩ := hst.1.operandEvents hmem
  exact hes.invariant (I := fun s => s.Cut (h.view.leads n))
    (fun s e t hs he => hs.step he fun m hm => ⟨hm.1, fun hop => hst.2.operands m hop hm⟩)
    (cut_leads hgarbage)

theorem notMem_reach_step (hmem : h.MemInv) (hs : h.view.Enclosed)
    (hst : StepWith (DoneWith n) h op h') (hn : h.Live n) (hgarbage : n ∉ h.reach) :
    n ∉ h'.reach :=
  (cut_leads_step hmem hst hgarbage).notMem_reach (enclosed_step hmem hs hst).2.refs_live
    ⟨hn, .refl⟩

/-- **What no cycle has found, no cycle finds.** It leaves its chain all at once, and at the latest
with the sweep. -/
theorem MarkState.Doomed.stepWith (hmem : h.MemInv) (hs : h.view.Enclosed)
    (hd : h.view.Doomed i (h.view.leads n)) (hst : StepWith (DoneWith n) h op h')
    (hn : h.Live n) (hstays : n ∈ (h'.par i).nodes) :
    ¬ op.Sweeps h i ∧ h'.view.Doomed i (h.view.leads n) := by
  have hleads : n ∈ h.view.leads n := ⟨hn, .refl⟩
  have hout : ∀ m ∈ h.view.leads n, h.Live m ∧ m ∉ op.operands := fun m hm =>
    ⟨hm.1, fun hop => hst.2.operands m hop hm⟩
  have hstart : h.view.DoomedOrGone i (h.view.leads n) := ⟨hs, .inl hd⟩
  constructor
  · intro hop
    have hi : i < h.view.count := hs.lt_count (hd.mem n hleads)
    obtain ⟨es, s, hes, hmark, hview⟩ := hst.1.sweeps hmem hop hi
    have hgone := (hstart.run hes hst.2.toInPartition hout).unlink hmark hleads
    rw [← hview] at hgone
    exact hgone hstays
  · obtain ⟨es, hes⟩ := hst.1.operandEvents hmem
    exact (hstart.run hes hst.2.toInPartition hout).2.resolve_right fun hgone =>
      hgone n hleads hstays

end

/-! ### Counting sweeps -/

/-- A step of a mutator that is done with `n`, after which `n` is still a node of partition `i`;
with the number of sweeps of `i` completed so far. -/
def OutlivesStep (i : ℕ) (n : NodePtr) (g : GcHeap × ℕ) (op : Op) (g' : GcHeap × ℕ) : Prop :=
  StepWith (DoneWith n) g.1 op g'.1 ∧ n ∈ (g'.1.par i).nodes ∧
    g'.2 = if op.Sweeps g.1 i then g.2 + 1 else g.2

section

variable {h h' : GcHeap} {ops : List Op} {i k : ℕ} {n : NodePtr}

/-- What holds of garbage, and after `k` sweeps. -/
structure Unreachable (i : ℕ) (n : NodePtr) (g : GcHeap × ℕ) : Prop where
  /-- The memory is in order. -/
  mem : g.1.MemInv
  /-- So is marking, with all references inside their partitions. -/
  enclosed : g.1.view.Enclosed
  /-- The node is in its chain. -/
  live : n ∈ (g.1.par i).nodes
  /-- Nothing leads to it. -/
  garbage : n ∉ g.1.reach

theorem Unreachable.step {g g' : GcHeap × ℕ} {op : Op} (hg : Unreachable i n g)
    (hst : OutlivesStep i n g op g') : Unreachable i n g' := by
  obtain ⟨hmem', hs'⟩ := enclosed_step hg.mem hg.enclosed hst.1
  exact ⟨hmem', hs', hst.2.1,
    notMem_reach_step hg.mem hg.enclosed hst.1 ⟨i, hg.live⟩ hg.garbage⟩

/-- What holds of garbage that no cycle has found. -/
structure Unfound (i : ℕ) (n : NodePtr) (k : ℕ) (g : GcHeap × ℕ) : Prop
    extends Unreachable i n g where
  /-- Neither it nor what leads to it has been found. -/
  doomed : g.1.view.Doomed i (g.1.view.leads n)
  /-- So many sweeps have been completed. -/
  count : g.2 = k

/-- It outlives no sweep. -/
theorem Unfound.step {g g' : GcHeap × ℕ} {op : Op} (hg : Unfound i n k g)
    (hst : OutlivesStep i n g op g') : Unfound i n k g' := by
  have hg' := hg.toUnreachable.step hst
  obtain ⟨hop, hd⟩ := hg.doomed.stepWith hg.mem hg.enclosed hst.1 ⟨i, hg.live⟩ hst.2.1
  -- fewer nodes lead to `n` now
  have hsub := hd.leads_subset hg'.enclosed.refs_live ⟨⟨i, hg.live⟩, .refl⟩
  refine { hg' with
           doomed := ⟨MarkState.cut_leads hg'.garbage, fun m hm => hd.mem m (hsub hm),
             fun hi m hm => hd.white hi m (hsub hm)⟩
           count := ?_ }
  rw [hst.2.2, if_neg hop, hg.count]

/-- If a sweep has left it, no cycle has found it since. -/
structure Floating (i : ℕ) (n : NodePtr) (g : GcHeap × ℕ) : Prop extends Unreachable i n g where
  /-- No sweep has been completed yet, or one, and then nothing has been found. -/
  count : g.2 = 0 ∨ Unfound i n 1 g

theorem Floating.step {g g' : GcHeap × ℕ} {op : Op} (hg : Floating i n g)
    (hst : OutlivesStep i n g op g') : Floating i n g' := by
  have hg' := hg.toUnreachable.step hst
  refine { hg' with count := ?_ }
  rcases hg.count with hzero | hfound
  · by_cases hop : op.Sweeps g.1 i
    · have hi : i < g.1.view.count := hg.enclosed.lt_count hg.live
      obtain ⟨es, s, -, -, hview⟩ := hst.1.1.sweeps hg.mem hop hi
      have hidle : g'.1.view.marking i = false := by simp [hview, MarkState.unlink]
      exact .inr { hg' with
                   doomed := hg'.enclosed.doomed hidle hg'.live hg'.garbage
                   count := by rw [hst.2.2, if_pos hop, hzero] }
    · exact .inl (by rw [hst.2.2, if_neg hop, hzero])
  · exact .inr (hfound.step hst)

/-- **Garbage outlives one sweep at most.** In every run whose references and scopes stay inside
their partitions, whatever the interleaving, a node that is not reachable at some moment, and that
the mutator does not take up again, is freed by the second sweep of its partition after that at the
latest; and by the first, if the partition is not marking at that moment. -/
theorem garbage_outlives_one_sweep (hr : ReachableWith InPartition h) (hn : n ∈ (h.par i).nodes)
    (hgarbage : n ∉ h.reach) (hrun : Run (OutlivesStep i n) (h, 0) ops (h', k)) :
    k ≤ 1 ∧ ((h.par i).marking = false → k = 0) := by
  have hs := enclosed_of_reachable hr
  have hstart : Unreachable i n (h, 0) := ⟨memInv_of_reachable hr, hs, hn, hgarbage⟩
  constructor
  · have hend := hrun.invariant (I := Floating i n) (fun _ _ _ hg hst => hg.step hst)
      { hstart with count := .inl rfl }
    rcases hend.count with hzero | hfound
    · exact (Nat.le_of_eq hzero).trans (Nat.zero_le 1)
    · exact Nat.le_of_eq hfound.count
  · intro hidle
    exact (hrun.invariant (I := Unfound i n 0) (fun _ _ _ hg hst => hg.step hst)
      { hstart with doomed := hs.doomed hidle hn hgarbage, count := rfl }).count

end

/-- A node that is found and then let go floats through the sweep that ends the cycle. The second
collection frees it. -/
theorem garbage_outlives_one_sweep_floating : ∃ h h' h'' : GcHeap, 1000 ∉ h.reach ∧
    (exec h (.garbageCollect 0) = some h' ∧ exec h' (.garbageCollect 0) = some h'') ∧
    1000 ∈ (h'.par 0).nodes ∧ 1000 ∉ (h''.par 0).nodes := by
  obtain ⟨h, hr, ⟨hpars, hnodes, hprot, hrefs⟩, hcollects⟩ : ∃ h : GcHeap,
      ReachableWith InPartition h ∧
      (h.partitions.length = 1 ∧ (h.par 0).nodes = [2000, 1000] ∧
        (h.head 1000).isRootOrLocal = false ∧ h.refs 2000 = []) ∧
      (exec h (.garbageCollect 0)).any fun h' =>
        1000 ∈ (h'.par 0).nodes ∧ (exec h' (.garbageCollect 0)).isSome :=
    exists_of_play (gcTypeTableInternal 24 8 [⟨8, 8, true, none⟩])
      [.createPartition 0 0 none, .allocRaw 0 0 [] (some 1000),
        .allocRootRaw 0 0 [1000] (some 2000), .mark 0 1, .removeRefs 2000 []]
      (by decide +kernel)
  have hgarbage : 1000 ∉ h.reach := by
    have hprotected : h.view.protectedNodes ⊆ {2000} := by
      rintro m ⟨⟨j, hm⟩, hmp⟩
      obtain rfl : j = 0 := by
        have hj := (enclosed_of_reachable hr).lt_count hm
        exact Nat.lt_one_iff.mp (hpars ▸ hj)
      rcases List.mem_pair.mp (show m ∈ [2000, 1000] from hnodes ▸ hm) with rfl | rfl
      · rfl
      · exact absurd (hprot.symm.trans hmp) Bool.false_ne_true
    have hclosed : ∀ m ∈ ({2000} : Set NodePtr), ∀ c, h.view.ref m c →
        c ∈ ({2000} : Set NodePtr) := by
      rintro m rfl c hc
      exact absurd (show c ∈ [] from hrefs ▸ hc) List.not_mem_nil
    intro hin
    exact absurd (TriColor.reach_subset_of_closed hclosed (TriColor.reach_mono hprotected hin))
      (by decide)
  obtain ⟨h', hexec, hstep⟩ := Option.any_eq_true _ _ |>.mp hcollects
  obtain ⟨hstays, hsome⟩ := of_decide_eq_true hstep
  obtain ⟨h'', hexec'⟩ := Option.isSome_iff_exists.mp hsome
  have hcollect : ∀ {g g' : GcHeap}, exec g (.garbageCollect 0) = some g' →
      StepWith (DoneWith 1000) g (.garbageCollect 0) g' := fun hg =>
    ⟨⟨trivial, hg⟩, ⟨⟨nofun, nofun, nofun, nofun⟩, nofun⟩⟩
  refine ⟨h, h', h'', hgarbage, ⟨hexec, hexec'⟩, hstays, fun hstays' => ?_⟩
  have hfirst : OutlivesStep 0 1000 (h, 0) (.garbageCollect 0) (h', 1) :=
    ⟨hcollect hexec, hstays, rfl⟩
  have hsecond : OutlivesStep 0 1000 (h', 1) (.garbageCollect 0) (h'', 2) :=
    ⟨hcollect hexec', hstays', rfl⟩
  have hrun := Run.cons hfirst (.cons hsecond (.nil _))
  exact absurd (garbage_outlives_one_sweep hr (by simp [hnodes]) hgarbage hrun).1 (by decide)

end GcLite
