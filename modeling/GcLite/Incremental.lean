import GcLite.MarkMachine
import GcLite.Slicing

/-!
# Incremental collection is safe inside partitions

If no reference leaves its partition and every scope holds nodes of its own partition, then cycles
of different partitions have nothing to do with each other: a partition that is not marking has
nothing on its gray list, and so every cycle begins cleanly. Whatever the interleaving of the
mutator and the marker, a sweep then unlinks only what nothing protected reaches.

## Main definitions

* `InPartition` — the condition on the operations
* `MarkState.Enclosed` — the marking invariant, with all references inside their partitions

## Main results

* `Enclosed.step`, `enclosed_of_reachable` — every run keeps it
* `exists_garbageCollect` — every collection ends
* `sweepUnlink_safe` — what a sweep unlinks is not reachable
-/

namespace GcLite

open Relation Transition

/-- Every reference that an operation writes stays in its partition, and every node that it adds to
a scope is of the scope's partition. -/
structure InPartition (h : GcHeap) (op : Op) : Prop where
  /-- A new node refers to its own partition. -/
  alloc : ∀ i payload, op.allocates h = some (i, payload) →
    ∀ c ∈ payload, (h.head c).partitionId = i
  /-- A scope protects nodes of its own partition. -/
  protect : ∀ i n, op.protects h = some (i, n) → (h.head n).partitionId = i
  /-- `bind` joins two nodes of one partition. -/
  bind : ∀ m c payload, op = .bind m c payload →
    (h.head c).partitionId = (h.head m).partitionId
  /-- What is written through the barrier stays inside as well. -/
  barrier : ∀ n payload, op = .withWriteBarrier n payload →
    ∀ c ∈ payload, c ∈ h.refs n ∨ (h.head c).partitionId = (h.head n).partitionId

/-- The clauses of `InPartition` about written references, as one. -/
def Op.WritesInside (h : GcHeap) : Op → Prop
  | .bind m c _ => (h.head c).partitionId = (h.head m).partitionId
  | .withWriteBarrier n payload =>
      ∀ c ∈ payload, c ∈ h.refs n ∨ (h.head c).partitionId = (h.head n).partitionId
  | _ => True

instance {h : GcHeap} {op : Op} : Decidable (op.WritesInside h) := by
  apply Op.casesOn (motive := fun op => Decidable (op.WritesInside h)) op <;> intros <;>
    dsimp only [Op.WritesInside] <;> infer_instance

theorem inPartition_iff {h : GcHeap} {op : Op} : InPartition h op ↔
    (∀ r, op.allocates h = some r → ∀ c ∈ r.2, (h.head c).partitionId = r.1) ∧
      (∀ r, op.protects h = some r → (h.head r.2).partitionId = r.1) ∧ op.WritesInside h := by
  constructor
  · rintro ⟨halloc, hprot, hbind, hbarrier⟩
    refine ⟨fun r => halloc r.1 r.2, fun r => hprot r.1 r.2, ?_⟩
    cases op with
    | bind m c payload => exact hbind m c payload rfl
    | withWriteBarrier n payload => exact hbarrier n payload rfl
    | _ => trivial
  · rintro ⟨halloc, hprot, hrefs⟩
    refine ⟨fun i payload => halloc (i, payload), fun i n => hprot (i, n), ?_, ?_⟩
    · rintro m c payload rfl
      exact hrefs
    · rintro n payload rfl
      exact hrefs

instance {h : GcHeap} {op : Op} : Decidable (InPartition h op) :=
  decidable_of_iff' _ inPartition_iff

namespace MarkState

variable {s t : MarkState} {e : MarkEvent} {h : GcHeap} {op : Op} {i : ℕ} {n m c : NodePtr}

/-- References stay inside their partitions. -/
def Inside (s : MarkState) : Prop := ∀ i, ∀ n ∈ s.chain i, ∀ c ∈ s.refs n, s.pid c = i

/-- A partition that is not marking has an empty gray list. -/
def Idle (s : MarkState) : Prop := ∀ i, s.marking i = false → s.gray i = []

/-- The marking invariant, with all references inside their partitions. -/
structure Enclosed (s : MarkState) : Prop extends Inv s where
  /-- References stay inside their partitions. -/
  inside : s.Inside
  /-- Between cycles nothing is listed. -/
  idle : s.Idle

/-! ### References stay inside -/

theorem Inside.congr (hs : s.Inside) (hchain : ∀ i, ∀ n ∈ t.chain i, n ∈ s.chain i)
    (hpid : t.pid = s.pid) (hrefs : t.refs = s.refs) : t.Inside := by
  intro i n hn c hc
  rw [hpid]
  rw [hrefs] at hc
  exact hs i n (hchain i n hn) c hc

theorem Inside.setRefs (hs : s.Inside) (hwf : s.Wf) {payload : Payload} (hn : s.Live n)
    (hpay : ∀ c ∈ payload, c ∈ s.refs n ∨ s.pid c = s.pid n) : (s.setRefs n payload).Inside := by
  intro i m hm c hc
  by_cases hmn : m = n
  · subst hmn
    simp only [MarkState.setRefs, Function.update_self] at hc
    rcases hpay c hc with hc | hc
    · exact hs i m hm c hc
    · exact hc.trans (hwf.own i m hm)
  · simp only [MarkState.setRefs, Function.update_of_ne hmn] at hc
    exact hs i m hm c hc

theorem Inside.alloc (hs : s.Inside) (hinv : s.Inv) {payload : Payload} (hn : ¬ s.Live n)
    (hlive : ∀ c ∈ payload, s.Live c) (hpay : ∀ c ∈ payload, s.pid c = i) :
    (s.alloc i n payload).Inside := by
  have hpid : ∀ {c}, s.Live c → (s.alloc i n payload).pid c = s.pid c := by
    intro c hc
    have hcn : c ≠ n := by
      rintro rfl
      exact hn hc
    simp [MarkState.alloc, hcn]
  intro j m hm c hc
  rcases mem_chain_alloc.mp hm with ⟨rfl, rfl⟩ | hmj
  · simp only [MarkState.alloc, Function.update_self] at hc
    exact (hpid (hlive c hc)).trans (hpay c hc)
  · have hmn : m ≠ n := by
      rintro rfl
      exact hn ⟨j, hmj⟩
    simp only [MarkState.alloc, Function.update_of_ne hmn] at hc
    exact (hpid (hinv.refs_live j m hmj c hc)).trans (hs j m hmj c hc)

/-! ### Lists stay empty -/

theorem Idle.shade (hs : s.Idle) (hi : s.marking i = true) : (s.shade i n).Idle := by
  obtain ⟨-, -, hmarking, -, -, -⟩ := shade_same (s := s) (i := i) (n := n)
  intro j hj
  rw [hmarking] at hj
  have hji : j ≠ i := by
    rintro rfl
    rw [hi] at hj
    cases hj
  unfold MarkState.shade
  split
  · exact hs j hj
  · simpa [hji] using hs j hj

theorem Idle.congr (hs : s.Idle) (hmarking : t.marking = s.marking) (hgray : t.gray = s.gray) :
    t.Idle := by
  intro j hj
  rw [hmarking] at hj
  rw [hgray]
  exact hs j hj

theorem Idle.protect (hs : s.Idle) : (s.protect i n).Idle := by
  rw [protect_eq]
  refine Idle.congr (s := if s.marking i = true then s.shade i n else s) ?_ rfl rfl
  split
  · next hi => exact hs.shade hi
  · exact hs

theorem Idle.bind (hs : s.Idle) : (s.bind m c).Idle := by
  have hfirst : (s.bindOwn m c).Idle := by
    unfold bindOwn grayOwn
    split
    · split
      · next hi => exact hs.shade hi
      · exact hs.congr rfl rfl
    · exact hs
  obtain ⟨-, -, hmarking, -, -, -⟩ := bindOwn_same (s := s) (m := m) (c := c)
  rw [bind_eq]
  split
  · next hc => exact hfirst.shade (hmarking ▸ hc.2.2)
  · exact hfirst

theorem Idle.regray (hs : s.Idle) : (s.regray n).Idle := by
  rw [regray_eq]
  split
  · next hn =>
    exact Idle.shade (s := { s with color := Function.update s.color n .gray }) hs hn.1
  · exact hs

/-- The list of a marking partition is worked off, and its nodes have children in it only. -/
theorem Enclosed.idle_markStep (hs : s.Enclosed) {a : MarkAction} (hst : MarkStep i s a t) :
    t.Idle := by
  have hi : ∀ {n rest}, s.gray i = n :: rest → s.marking i = true := by
    intro n rest hg
    by_contra hi
    rw [hs.idle i (by simpa using hi)] at hg
    cases hg
  cases hst with
  | @skip n rest hg hn =>
    intro j hj
    have hji : j ≠ i := by
      rintro rfl
      exact Bool.false_ne_true (hj.symm.trans (hi hg))
    simpa [pop, hji] using hs.idle j hj
  | @trace n rest cs hg hn hcs =>
    intro j hj
    have hji : j ≠ i := by
      rintro rfl
      exact Bool.false_ne_true (hj.symm.trans (hi hg))
    have hni : n ∈ s.chain i := hs.entry i n (hg ▸ List.mem_cons_self)
    refine List.eq_nil_iff_forall_not_mem.mpr fun c hc => ?_
    rcases mem_gray_trace.mp hc with hc | ⟨-, hc, -, hpid⟩
    · rw [show (s.pop i n rest).gray j = s.gray j by simp [pop, hji], hs.idle j hj] at hc
      cases hc
    · exact hji (hpid.symm.trans (hs.inside i n hni c ((hcs c).mp hc)))
  | requeue hg hn => exact hs.idle

/-! ### Every step -/

theorem Inside.protect (hs : s.Inside) : (s.protect i n).Inside := by
  obtain ⟨-, hchain, -, hpid, hrefs, -⟩ := shade_same (s := s) (i := i) (n := n)
  rw [protect_eq]
  split
  · exact hs.congr (t := { s.shade i n with prot := _ }) (fun i m hm => hchain ▸ hm) hpid hrefs
  · exact hs.congr (fun _ _ hm => hm) rfl rfl

/-- A reference to a node of the same partition is written. -/
theorem Enclosed.insideBind (hs : s.Enclosed) {payload : Payload} (hm : s.Live m) (hc : s.Live c)
    (hpay : ∀ d ∈ payload, d ∈ s.refs m ∨ d = c) (hpidc : s.pid c = s.pid m) :
    ((s.setRefs m payload).bind m c).Inside := by
  obtain ⟨-, hchain, -, hpid, hrefs, -⟩ := bind_same (s := s) (m := m) (c := c)
  have hb : (s.bind m c).Inside := hs.inside.congr (fun i x hx => hchain ▸ hx) hpid hrefs
  have hwf : (s.bind m c).Wf := hs.toWf.shades (.bind hs.toWf hc)
  rw [bind_setRefs]
  refine hb.setRefs hwf (by rwa [Live, hchain]) fun d hd => ?_
  rw [hrefs, hpid]
  refine (hpay d hd).imp_right fun heq => ?_
  rw [heq]
  exact hpidc

/-- A payload is written behind the barrier. -/
theorem Enclosed.insideBarrier (hs : s.Enclosed) {payload : Payload} (hn : s.Live n)
    (hpay : ∀ c ∈ payload, c ∈ s.refs n ∨ s.pid c = s.pid n) :
    ((s.regray n).setRefs n payload).Inside := by
  obtain ⟨-, hchain, -, hpid, hrefs, -⟩ := regray_same (s := s) (n := n)
  have hr : (s.regray n).Inside := hs.inside.congr (fun i x hx => hchain ▸ hx) hpid hrefs
  have hwf : (s.regray n).Wf := hs.toWf.shades (.regray hs.toWf hn)
  refine hr.setRefs hwf (by rwa [Live, hchain]) fun d hd => ?_
  rw [hrefs, hpid]
  exact hpay d hd

theorem Idle.bindSetRefs (hs : s.Idle) {payload : Payload} :
    ((s.setRefs m payload).bind m c).Idle := by
  rw [bind_setRefs]
  exact (hs.bind (m := m) (c := c)).congr rfl rfl

/-- A cycle begins in all partitions. -/
theorem Idle.prepared (hs : s.Idle) (hp : Prepared s t) : t.Idle := by
  intro j hj
  by_cases hjc : j < s.count
  · rw [hp.marking j hjc] at hj
    cases hj
  · obtain ⟨hg, hmj⟩ := hp.range j (Nat.le_of_not_lt hjc)
    rw [hg]
    exact hs j (hmj ▸ hj)

theorem Idle.reset (hs : s.Idle) : (s.reset i).Idle := by
  intro j hj
  by_cases hji : j = i
  · simp [MarkState.reset, hji]
  · simpa [MarkState.reset, hji] using hs j (by simpa [MarkState.reset, hji] using hj)

theorem Idle.unlink (hs : s.Idle) (hg : s.gray i = []) : (s.unlink i).Idle := by
  intro j hj
  by_cases hji : j = i
  · exact hji ▸ hg
  · exact hs j (by simpa [MarkState.unlink, hji] using hj)

theorem Idle.drop (hs : s.Idle) : (s.drop i).Idle := by
  intro j hj
  by_cases hji : j = i
  · simp [MarkState.drop, hji]
  · simpa [MarkState.drop, hji] using hs j (by simpa [MarkState.drop, hji] using hj)

/-- The marking invariant survives the steps of such operations. -/
theorem Enclosed.admits (hs : s.Enclosed) (hem : Emits h op s e) (hop : InPartition h op) :
    s.Admits e := by
  cases hem with
  | protect_own => exact .inl rfl
  | protect hop' hview _ =>
    subst hview
    exact .inl (hop.protect _ _ hop')
  | prepare => exact fun j hj => .inl (hs.idle j hj)
  | unlink =>
    intro j hj m hm c hc hci
    have hcj : s.pid c = j := hs.inside j m hm c hc
    exact absurd (hcj.symm.trans (hs.own _ c hci)) hj
  | drop =>
    intro j hj m hm c hc hci
    have hcj : s.pid c = j := hs.inside j m hm c hc
    exact hj (hcj.symm.trans (hs.own _ c hci))
  | _ => trivial

/-- **Every operation on its own partition keeps the invariant.** -/
theorem Enclosed.step (hs : s.Enclosed) (hst : EmitStep h op s e t) (hop : InPartition h op) :
    t.Enclosed := by
  obtain ⟨ht, hem⟩ := hst
  have hinv : t.Inv := ht.inv hs.toInv (hs.admits hem hop)
  cases ht with
  | create => exact ⟨hinv, hs.inside, hs.idle⟩
  | alloc hi hn hlive =>
    cases hem with
    | alloc hop' hview =>
      subst hview
      exact ⟨hinv, hs.inside.alloc hs.toInv hn hlive (hop.alloc _ _ hop'), hs.idle⟩
  | protect hn => exact ⟨hinv, hs.inside.protect, hs.idle.protect⟩
  | unprotect hun =>
    obtain ⟨prot, rfl, -⟩ := hun
    exact ⟨hinv, hs.inside, hs.idle⟩
  | @bind m c payload hm hc hpay =>
    cases hem with
    | bind hop' hview =>
      subst hview
      exact ⟨hinv, hs.insideBind hm hc hpay (hop.bind m c payload hop'), hs.idle.bindSetRefs⟩
  | @barrier n payload hn hpay =>
    cases hem with
    | barrier hop' hview =>
      subst hview
      exact ⟨hinv, hs.insideBarrier hn (hop.barrier n payload hop'), hs.idle.regray.congr rfl rfl⟩
  | removeRefs hn hpay =>
    exact ⟨hinv, hs.inside.setRefs hs.toWf hn fun c hc => .inl (hpay c hc), hs.idle⟩
  | prepare hi hm hp =>
    exact ⟨hinv, hs.inside.congr (fun i x hx => hp.chain ▸ hx) hp.pid hp.refs, hs.idle.prepared hp⟩
  | entry hst =>
    have hsame := hst.sameGraph
    exact ⟨hinv, hs.inside.congr (fun i x hx => hsame.chain ▸ hx) hsame.pid hsame.refs,
      hs.idle_markStep hst⟩
  | reset hi => exact ⟨hinv, hs.inside, hs.idle.reset⟩
  | unlink hi hm hg =>
    exact ⟨hinv, hs.inside.congr (fun j x hx => (mem_chain_unlink.mp hx).1) rfl rfl,
      hs.idle.unlink hg⟩
  | drop =>
    exact ⟨hinv, hs.inside.congr (fun j x hx => (mem_chain_drop.mp hx).1) rfl rfl, hs.idle.drop⟩

/-- Before anything has happened. -/
theorem enclosed_new (registry : GcTypeRegistry) : (GcHeap.new registry).view.Enclosed := by
  have hpar : ∀ i, (GcHeap.new registry).par i = default :=
    fun i => GcHeap.par_of_length_le (Nat.zero_le i)
  have hchain : ∀ i, (GcHeap.new registry).view.chain i = [] := fun i => by
    simp [GcHeap.view, hpar, default]
  have hgray : ∀ i, (GcHeap.new registry).view.gray i = [] := fun i => by
    simp [GcHeap.view, hpar, default]
  have hmark : ∀ i, (GcHeap.new registry).view.marking i = false := fun i => by
    simp [GcHeap.view, hpar, default]
  refine { range := ?_, own := ?_, listed_mem := ?_, entry := ?_, gray_mem := ?_, prot_marked := ?_,
           closed := ?_, refs_live := ?_, inside := ?_, idle := ?_ }
  all_goals simp [hchain, hgray, hmark, Inside, Idle]

end MarkState

/-- In every run of such operations. -/
theorem enclosed_of_reachable {h : GcHeap} (hr : ReachableWith InPartition h) :
    h.view.Enclosed := by
  obtain ⟨registry, hr⟩ := hr
  have hboth : h.MemInv ∧ h.view.Enclosed := by
    refine hr.invariant (I := fun h => h.MemInv ∧ h.view.Enclosed) (fun g op g' hg hst => ?_)
      ⟨GcHeap.MemInv.new registry, MarkState.enclosed_new registry⟩
    obtain ⟨es, hes⟩ := hst.1.events hg.1
    exact ⟨hg.1.step hst.1, hes.invariant (I := MarkState.Enclosed)
      (fun _ _ _ hs he => hs.step he hst.2) hg.2⟩
  exact hboth.2

/-- So every collection in such a run ends. -/
theorem exists_garbageCollect {h : GcHeap} {i : ℕ} (hr : ReachableWith InPartition h)
    (hi : i < h.partitions.length) : ∃ h' bytes, h.garbageCollect i = some (h', bytes) := by
  have hs := enclosed_of_reachable hr
  refine GcHeap.garbageCollect_isSome (memInv_of_reachable hr) hi
    (fun n hn => ⟨i, hs.entry i n hn⟩) fun n hn => ?_
  obtain ⟨j, hn⟩ := hn
  exact hs.refs_live j n hn

/-- **Incremental safety.** In every run whose references and scopes stay inside their partitions,
whatever the interleaving, a sweep unlinks no node that is reachable from a root or a local at that
moment. -/
theorem sweepUnlink_safe {h h' : GcHeap} {i : ℕ} {white : List NodePtr} {n : NodePtr}
    (hr : ReachableWith InPartition h) (hsweep : h.sweepUnlink i = (h', some white))
    (hn : n ∈ white) : n ∉ h.reach := by
  have hs := enclosed_of_reachable hr
  obtain ⟨⟨-, hmark, hgray⟩, rfl, -⟩ := GcHeap.sweepUnlink_ok hsweep
  obtain ⟨hni, hwhite⟩ := List.mem_filter.mp hn
  rintro ⟨r, ⟨⟨j, hrj⟩, hprot⟩, hpath⟩
  -- along the path, everything is in the partition of `r`, and found if that is the one being swept
  have hfound : n ∈ h.view.chain j ∧ (j = i → h.view.color n ≠ .white) := by
    clear hn hni hwhite
    induction hpath with
    | refl =>
      refine ⟨hrj, ?_⟩
      rintro rfl
      exact hs.prot_marked j hmark r hrj hprot
    | @tail m c _ hmc ih =>
      have hcj : c ∈ h.view.chain j :=
        (hs.mem_chain_iff (hs.refs_live j m ih.1 c hmc)).mpr (hs.inside j m ih.1 c hmc)
      refine ⟨hcj, fun hji => ?_⟩
      have hb : h.view.color m = .black :=
        hs.black_of_done (hji ▸ hmark) (hji ▸ hgray) ih.1 (ih.2 hji)
      exact hs.closed j (hji ▸ hmark) m ih.1 hb c hmc hcj
  have hji : j = i := hs.eq_of_mem hfound.1 hni
  have hcolor : h.view.color n = .white := by
    simp only [GcHeap.isWhiteNonRoot, Bool.and_eq_true, decide_eq_true_eq] at hwhite
    exact hwhite.1
  exact hfound.2 hji hcolor

/-- A reference written to a black node while its child is garbage so far: after the barrier only
the node that nothing refers to goes. -/
theorem sweepUnlink_safe_barrier : ∃ h : GcHeap, (h.sweepUnlink 0).2 = some [3000] ∧
    (h.refs 2000 = [1000] ∧ (h.head 2000).isRoot) ∧ 3000 ∉ h.reach := by
  obtain ⟨h, hr, hsweep, hgraph⟩ : ∃ h, ReachableWith InPartition h ∧
      (h.sweepUnlink 0).2 = some [3000] ∧ h.refs 2000 = [1000] ∧ (h.head 2000).isRoot :=
    exists_of_play (gcTypeTableInternal 24 8 [⟨8, 8, true, none⟩])
      [.createPartition 0 0 none, .allocRaw 0 0 [] (some 1000), .allocRootRaw 0 0 [] (some 2000),
        .mark 0 1, .bind 2000 1000 [1000], .allocRaw 0 0 [] (some 3000), .mark 0 1]
      (by decide +kernel)
  exact ⟨h, hsweep, hgraph, sweepUnlink_safe hr (Prod.ext rfl hsweep) (List.mem_singleton_self _)⟩

end GcLite
