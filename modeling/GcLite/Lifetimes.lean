import GcLite.Library.Tenancy
import GcLite.Placement
import GcLite.Reclaim

/-!
# Lifetimes

From its creation to its end, what a heap does to the world is to let nodes live and die. An address
may be taken by many nodes, one after the other. Whatever the operations and their order, each of
these nodes ends in the same way: its drop function runs if its type has one, it is disposed of, and
its block goes back to the system, with the layout it was handed out with, if it came from there.
All of that has happened before the next node lives at the address, none of it happens twice, and
when the heap itself ends, no node is left that it has not happened to.

This is about builds without debug assertions. With them, teardown gives no block back, see
`deallocPartition_returns_iff`.

## Main definitions

* `Tenant` — a node that lives or has lived, and `Tenant.lastRites`, how it is to end
* `GcHeap.tenantAt` — who lives at an address
* `Op.tenant`, `LifeStep` — who comes to live in a step, and a run that keeps a list of them

## Main results

* `Retires.sweep`, `Retires.removePartition`, `Retires.dropHeap` — the ways to die
* `lifetimes`
-/

namespace GcLite

open Transition Tenancy

/-! ### Tenants -/

/-- The address an effect is about. -/
def GcEvent.node : GcEvent → NodePtr
  | .dropFn n | .disposed n | .memDealloc n _ _ => n

/-- A node that lives or has lived: its address, its type, and whether the system allocator has
handed out its block. -/
structure Tenant where
  /-- The address. -/
  node : NodePtr
  /-- The type. -/
  dtype : ℕ
  /-- Whether it is not an arena's. -/
  fromSystem : Bool
deriving DecidableEq

/-- How a node is to end. -/
def Tenant.lastRites (registry : GcTypeRegistry) (b : Tenant) : List GcEvent :=
  let info := registry.typeInfoList.getD b.dtype default
  (if info.dropFn then [.dropFn b.node] else []) ++
    .disposed b.node ::
      if b.fromSystem then [.memDealloc b.node info.layoutSize info.layoutAlign] else []

/-- The node that has come to live when an allocation succeeds. -/
def tenantOf (dtype : ℕ) (sys : Option NodePtr)
    (r : Except (GcError × Payload) (GcHeap × NodePtr)) : Option Tenant :=
  match r with
  | .ok (_, n) => some ⟨n, dtype, sys = some n⟩
  | .error _ => none

/-- The node that comes to live in a step, if one does. -/
def Op.tenant (h : GcHeap) : Op → Option Tenant
  | .allocRaw i dtype payload sys => tenantOf dtype sys (h.allocRaw i dtype payload sys)
  | .allocRootRaw i dtype payload sys => tenantOf dtype sys (h.allocRootRaw i dtype payload sys)
  | .allocLocal stackId index dtype payload sys => (h.scopeAt stackId index).bind fun s =>
      tenantOf dtype sys (h.allocLocal stackId index s dtype payload sys)
  | _ => none

/-- A step of the heap, with a list of all tenants so far. -/
def LifeStep (g : GcHeap × List Tenant) (op : Op) (g' : GcHeap × List Tenant) : Prop :=
  Step g.1 op g'.1 ∧ g'.2 = g.2 ++ (op.tenant g.1).toList

/-- An operation allocates, or no tenant comes. -/
theorem Step.tenant {h h' : GcHeap} {op : Op} (hst : Step h op h') :
    (op.tenant h = none ∧ (h' = h ∨ op.allocType = none)) ∨
    ∃ i dtype size payload skipArena sys h₁ n,
      op.tenant h = some ⟨n, dtype, decide (sys = some n)⟩ ∧
      dtype < h.nodeDtypes.typeInfoList.length ∧ (∀ n, sys = some n → h.SystemFresh n) ∧
      h.allocNodeMem i dtype payload skipArena sys = .ok (h₁, n, size) ∧
      h'.store = (h₁.attachNode i n).store := by
  obtain ⟨hpre, hexec⟩ := hst
  cases op with
  | allocRaw i dtype payload sys =>
    obtain ⟨-, hdtype, -, hfresh⟩ := hpre
    cases hexec
    rw [Op.tenant]
    cases hr : h.allocRaw i dtype payload sys with
    | error e => exact .inl ⟨rfl, .inl rfl⟩
    | ok r =>
      obtain ⟨h₁, size, hmem, heq⟩ := GcHeap.allocRaw_store hr
      exact .inr ⟨i, dtype, size, payload, false, sys, h₁, r.2, rfl, hdtype, hfresh, hmem, heq⟩
  | allocRootRaw i dtype payload sys =>
    obtain ⟨-, hdtype, -, hfresh⟩ := hpre
    cases hexec
    rw [Op.tenant]
    cases hr : h.allocRootRaw i dtype payload sys with
    | error e => exact .inl ⟨rfl, .inl rfl⟩
    | ok r =>
      obtain ⟨h₁, size, hmem, heq⟩ := GcHeap.allocRootRaw_store hr
      exact .inr ⟨i, dtype, size, payload, true, sys, h₁, r.2, rfl, hdtype, hfresh, hmem, heq⟩
  | allocLocal stackId index dtype payload sys =>
    obtain ⟨hdtype, -, hfresh⟩ := hpre
    obtain ⟨s, hs, rfl⟩ := Option.map_eq_some_iff.mp hexec
    rw [Op.tenant, hs, Option.bind_some]
    cases hr : h.allocLocal stackId index s dtype payload sys with
    | error e => exact .inl ⟨rfl, .inl rfl⟩
    | ok r =>
      obtain ⟨h₁, size, hmem, heq⟩ := GcHeap.allocLocal_store hr
      exact .inr ⟨_, dtype, size, payload, false, sys, h₁, r.2, rfl, hdtype, hfresh, hmem, heq⟩
  | _ => exact .inl ⟨rfl, .inr rfl⟩

namespace GcHeap

variable {h h' : GcHeap} {i : ℕ} {n m : NodePtr} {dead : List NodePtr}

/-- Who lives at an address. -/
def tenantAt (h : GcHeap) (n : NodePtr) : Option Tenant :=
  if h.Live n then some ⟨n, (h.head n).dtype, !(h.head n).arenaAlloc⟩ else none

theorem tenantAt_of_not_live (hn : ¬ h.Live n) : h.tenantAt n = none := if_neg hn

theorem tenantAt_congr (hlive : h'.Live n ↔ h.Live n)
    (hhead : (h'.head n).dtype = (h.head n).dtype ∧
      (h'.head n).arenaAlloc = (h.head n).arenaAlloc) : h'.tenantAt n = h.tenantAt n := by
  simp only [tenantAt, hlive, hhead.1, hhead.2]

/-- The effects that a live node still has to have. -/
theorem lastRites_tenant (h : GcHeap) (n : NodePtr) :
    Tenant.lastRites h.nodeDtypes ⟨n, (h.head n).dtype, !(h.head n).arenaAlloc⟩ =
      h.dropPayload n ++ h.disposeEvents n := by
  rw [Tenant.lastRites, dropPayload, disposeEvents, info]
  cases (h.head n).arenaAlloc <;> rfl

theorem node_dropPayload : ∀ e ∈ h.dropPayload n, e.node = n := by
  intro e he
  rw [mem_dropPayload he]
  rfl

theorem node_disposeEvents : ∀ e ∈ h.disposeEvents n, e.node = n := by
  intro e he
  unfold disposeEvents at he
  rcases List.mem_cons.mp he with rfl | he
  · rfl
  · split at he
    · cases he
    · rw [List.mem_singleton.mp he]
      rfl

/-! ### Ways to die -/

/-- The nodes of a list die, each in its way, and nothing else happens. -/
structure Retires (h h' : GcHeap) (dead : List NodePtr) : Prop where
  /-- The type table is the same. -/
  types : h'.nodeDtypes = h.nodeDtypes
  /-- The dead are dead, and no one else. -/
  live : ∀ n, h'.Live n ↔ h.Live n ∧ n ∉ dead
  /-- They were alive. -/
  lived : ∀ n ∈ dead, h.Live n
  /-- Types and origins stay, those of the dead too. -/
  head : ∀ n, (h'.head n).dtype = (h.head n).dtype ∧
    (h'.head n).arenaAlloc = (h.head n).arenaAlloc
  /-- Each of the dead has its last rites, in order, and no other node has any. -/
  log : ∀ n, entries GcEvent.node n h'.log = entries GcEvent.node n h.log ++
    if n ∈ dead then h.dropPayload n ++ h.disposeEvents n else []

namespace Retires

/-- Nobody dies. -/
theorem none (htypes : h'.nodeDtypes = h.nodeDtypes) (hlive : ∀ n, h'.Live n ↔ h.Live n)
    (hhead : ∀ n, (h'.head n).dtype = (h.head n).dtype ∧
      (h'.head n).arenaAlloc = (h.head n).arenaAlloc) (hlog : h'.log = h.log) :
    Retires h h' [] :=
  ⟨htypes, by simpa using hlive, nofun, hhead, by simp [hlog]⟩

theorem of_store (heq : h'.store = h.store) : Retires h h' [] :=
  none (nodeDtypes_of_store heq) (fun _ => live_of_store heq)
    (fun n => ⟨dtype_of_store heq n, arenaAlloc_of_store heq n⟩) (congrArg GcHeap.log heq :)

/-- After the store has been kept. -/
theorem after {h₁ : GcHeap} (hr : Retires h₁ h' dead) (heq : h₁.store = h.store) :
    Retires h h' dead where
  types := hr.types.trans (nodeDtypes_of_store heq)
  live n := by rw [hr.live, live_of_store heq]
  lived n hn := (live_of_store heq).mp (hr.lived n hn)
  head n := ⟨(hr.head n).1.trans (dtype_of_store heq n),
    (hr.head n).2.trans (arenaAlloc_of_store heq n)⟩
  log n := by
    have hlog : h₁.log = h.log := (congrArg GcHeap.log heq :)
    rw [hr.log, hlog, dropPayload_of_store heq, disposeEvents_of_store heq]

/-- What is said about the dead when all payloads are dropped before the first node is disposed
of. -/
theorem entries_phases {drops disposals : List NodePtr} (hdrops : drops.Nodup)
    (hdisposals : disposals.Nodup) (hmem : ∀ n, n ∈ drops ↔ n ∈ disposals) (n : NodePtr) :
    entries GcEvent.node n (drops.flatMap h.dropPayload ++ disposals.flatMap h.disposeEvents) =
      if n ∈ disposals then h.dropPayload n ++ h.disposeEvents n else [] := by
  rw [entries_append, entries_flatMap (fun _ => node_dropPayload) hdrops,
    entries_flatMap (fun _ => node_disposeEvents) hdisposals]
  simp only [hmem]
  split <;> rfl

/-- The white nodes of a sweep. -/
theorem sweep (hinv : h.MemInv) (i : ℕ) : ∃ dead, Retires h (h.twoPhaseSweep i).1 dead := by
  obtain ⟨hhead, htypes, -⟩ := h.twoPhaseSweep_frame i
  by_cases hdone : h.CycleDone i
  · have hsub : ∀ n ∈ h.unlinked i, n ∈ (h.par i).nodes := fun n hn => (List.mem_filter.mp hn).1
    have hperm : (h.passOrder (h.unlinked i)).Perm (h.unlinked i) :=
      passOrder_perm fun n hn => hinv.dtype i n (hsub n hn)
    have hnd : (h.unlinked i).Nodup := (hinv.nodup i).filter _
    refine ⟨h.passOrder (h.unlinked i), htypes, fun n => ?_, fun n hn => ?_, fun n => ?_,
      fun n => ?_⟩
    · rw [hinv.live_twoPhaseSweep hdone, hperm.mem_iff]
    · exact ⟨i, hsub n (hperm.mem_iff.mp hn)⟩
    · rw [hhead]
      exact ⟨rfl, rfl⟩
    · rw [log_twoPhaseSweep hdone, entries_append,
        entries_phases hnd (hperm.nodup_iff.mpr hnd) fun n => hperm.mem_iff.symm]
  · rw [twoPhaseSweep_of_not_done hdone]
    exact ⟨[], of_store rfl⟩

/-- The nodes of a partition that is torn down. -/
theorem removePartition (hinv : h.MemInv) {sys : Option ℕ} {bytes : ℕ}
    (hok : h.removePartition false i sys = some (h', bytes)) : ∃ dead, Retires h h' dead := by
  obtain rfl | ⟨hi, h₁, link, arena, log, hh₁, hlink, -, heq⟩ := removePartition_ok hok
  · exact ⟨[], of_store rfl⟩
  have hstore : h₁.store = h.store := hh₁ ▸ store_clearScopesOf
  have hlog : h'.log = h.log ++ ((h.passOrder (h.par i).nodes).flatMap h.dropPayload ++
      (h.par i).nodes.flatMap h.disposeEvents) := by
    unfold GcHeap.removePartition at hok
    cases hfin : h.finalizePartition i with
    | none =>
      rw [finalizePartition, finalizePartitionPrepare, if_neg (Nat.not_le.mpr hi)] at hfin
      cases hfin
    | some r =>
      rw [hfin] at hok
      obtain ⟨-, hl, hlog₁, hinfo, harena⟩ := log_finalizePartition hfin
      have hdispose : deallocEvents false r.1 = h.disposeEvents := by
        funext n
        simp only [deallocEvents_false, disposeEvents, hinfo, harena]
      rw [log_deallocPartition hok, hlog₁, hdispose, hl, List.append_assoc]
  have hperm := passOrder_perm (hinv.dtype i)
  obtain ⟨⟨hnil, -⟩, hother, -⟩ := par_of_torn heq
  refine ⟨(h.par i).nodes, ?_, fun n => ?_, fun n hn => ⟨i, hn⟩, fun n => ?_, fun n => ?_⟩
  · have htypes : h₁.nodeDtypes = h.nodeDtypes := nodeDtypes_of_store hstore
    rw [heq, nodeDtypes_modifyPar, ← htypes]
  · have hkept : ∀ j, j ≠ i → (h'.par j).nodes = (h.par j).nodes := fun j hj =>
      (congrArg GcPartition.nodes (hother j hj)).trans (nodes_of_store hstore j)
    constructor
    · rintro ⟨j, hn⟩
      by_cases hj : j = i
      · rw [hj, hnil] at hn
        cases hn
      · rw [hkept j hj] at hn
        exact ⟨⟨j, hn⟩, fun hni => hj ((hinv.own j n hn).symm.trans (hinv.own i n hni))⟩
    · rintro ⟨⟨j, hn⟩, hni⟩
      refine ⟨j, ?_⟩
      rwa [hkept j fun hj => hni (hj ▸ hn)]
  · rw [heq, head_modifyPar]
    exact ⟨dtype_of_store hstore n, arenaAlloc_of_store hstore n⟩
  · rw [hlog, entries_append, entries_phases (hperm.nodup_iff.mpr (hinv.nodup i)) (hinv.nodup i)
      fun n => hperm.mem_iff]

end Retires

/-- At the end of a heap all nodes die. -/
theorem MemInv.entries_dropHeap (hinv : h.MemInv) (n : NodePtr) :
    entries GcEvent.node n h.dropHeap.log = entries GcEvent.node n h.log ++
      if h.Live n then h.dropPayload n ++ h.disposeEvents n else [] := by
  have hperm : ((h.partitions.map GcPartition.nodes).flatMap h.passOrder).Perm h.allNodes := by
    rw [allNodes, List.flatMap_map]
    refine .flatMap_left _ fun q hq => passOrder_perm fun m hm => ?_
    obtain ⟨j, hj, rfl⟩ := List.getElem_of_mem hq
    exact hinv.dtype j m (by simpa [par, hj] using hm)
  have hone : ∀ m, ∀ e ∈ h.dropPayload m ++ h.disposeEvents m, e.node = m := fun m e he =>
    (List.mem_append.mp he).elim (node_dropPayload e) (node_disposeEvents e)
  rw [log_dropHeap, entries_append,
    entries_flatMap hone (hperm.nodup_iff.mpr hinv.nodup_allNodes)]
  simp only [hperm.mem_iff, mem_allNodes]

/-! ### A node is born -/

/-- What comes to live at a free address is the tenant that the allocation says. -/
theorem MemInv.tenantAt_alloc {dtype size : ℕ} {payload : Payload} {skipArena : Bool}
    {sys : Option NodePtr} {h₁ : GcHeap} (hinv : h.MemInv)
    (hfresh : ∀ n, sys = some n → h.SystemFresh n)
    (hok : h.allocNodeMem i dtype payload skipArena sys = .ok (h₁, n, size)) :
    (h₁.attachNode i n).tenantAt m =
      if m = n then some ⟨n, dtype, decide (sys = some n)⟩ else h.tenantAt m := by
  obtain ⟨fromArena, hatt, hcases⟩ := allocNodeMem_attached hok
  have hsystem : decide (sys = some n) = !fromArena := by
    rcases hcases with ⟨rfl, A, A', layout, hA, halloc, -⟩ | ⟨rfl, hsys⟩
    · obtain ⟨free, hA'⟩ := hinv.arena i A hA
      obtain ⟨free', hnew⟩ := hA'.alloc halloc
      obtain ⟨hbase, hcap⟩ := GcArena.alloc_region halloc
      have hin := hnew.block_region List.mem_cons_self
      rw [hbase, hcap] at hin
      refine decide_eq_false fun hsys => ?_
      rcases (hfresh n hsys).2 i A hA with hlt | hle
      · exact Nat.not_lt.mpr hin.1 hlt
      · exact Nat.not_lt.mpr hle hin.2
    · exact decide_eq_true hsys
  simp only [tenantAt, hatt.live_iff, hatt.head, Function.update_apply]
  by_cases hm : m = n
  · simp [hm, hsystem, GcHead.init]
  · simp [hm]

theorem log_allocNodeMem {dtype size : ℕ} {payload : Payload} {skipArena : Bool}
    {sys : Option NodePtr} {h₁ : GcHeap}
    (hok : h.allocNodeMem i dtype payload skipArena sys = .ok (h₁, n, size)) :
    h₁.log = h.log := by
  obtain ⟨f, hf⟩ := updateMemUse_eq (asI32 size)
  obtain ⟨-, layout, -, -, ⟨A, A', -, -, -, heq⟩ | ⟨-, heq⟩⟩ := allocNodeMem_ok hok <;>
    rw [heq, initNode, hf] <;> rfl

end GcHeap

/-! ### Every step -/

/-- The tenants of an address. -/
def tenantsAt (n : NodePtr) (tenants : List Tenant) : List Tenant :=
  tenants.filter fun b => b.node = n

/-- At every address, the tenancies so far are in order. -/
structure Recorded (registry : GcTypeRegistry) (g : GcHeap × List Tenant) : Prop where
  /-- The memory is in order. -/
  mem : g.1.MemInv
  /-- The type table is the first one. -/
  types : g.1.nodeDtypes = registry
  /-- What is recorded at an address are its tenants, one after the other. -/
  tenancies : ∀ n, Tenancies (Tenant.lastRites registry) (tenantsAt n g.2) (g.1.tenantAt n)
    (entries GcEvent.node n g.1.log)

variable {registry : GcTypeRegistry} {g g' : GcHeap × List Tenant} {op : Op} {h : GcHeap}
  {ops : List Op}

/-- Nodes may die. -/
theorem Recorded.retire {h' : GcHeap} {dead : List NodePtr} (hg : Recorded registry g)
    (hinv : h'.MemInv) (hr : g.1.Retires h' dead) : Recorded registry (h', g.2) := by
  refine ⟨hinv, hr.types.trans hg.types, fun n => ?_⟩
  have ht := hg.tenancies n
  change Tenancies _ _ (h'.tenantAt n) (entries GcEvent.node n h'.log)
  rw [hr.log]
  by_cases hn : n ∈ dead
  · have hlive := hr.lived n hn
    rw [GcHeap.tenantAt_of_not_live fun hn' => ((hr.live n).mp hn').2 hn, if_pos hn,
      ← GcHeap.lastRites_tenant, hg.types]
    rw [GcHeap.tenantAt, if_pos hlive] at ht
    exact ht.finish
  · rw [if_neg hn, List.append_nil,
      GcHeap.tenantAt_congr ((hr.live n).trans (and_iff_left hn)) (hr.head n)]
    exact ht

/-- A node may come to live. -/
theorem Recorded.alloc {i dtype size : ℕ} {payload : Payload} {skipArena : Bool}
    {sys : Option NodePtr} {n : NodePtr} {h₁ h' : GcHeap} (hg : Recorded registry g)
    (hdtype : dtype < g.1.nodeDtypes.typeInfoList.length)
    (hfresh : ∀ n, sys = some n → g.1.SystemFresh n)
    (hok : g.1.allocNodeMem i dtype payload skipArena sys = .ok (h₁, n, size))
    (heq : h'.store = (h₁.attachNode i n).store) :
    Recorded registry (h', g.2 ++ [⟨n, dtype, decide (sys = some n)⟩]) := by
  obtain ⟨hn, hinv⟩ := hg.mem.allocNodeMem hdtype hfresh hok
  obtain ⟨fromArena, hatt, -⟩ := GcHeap.allocNodeMem_attached hok
  have htypes := (GcHeap.nodeDtypes_of_store heq).trans (hatt.types.trans hg.types)
  refine ⟨hinv.congr heq, htypes, fun m => ?_⟩
  have ht := hg.tenancies m
  have hlog : h'.log = g.1.log := by
    have hattach : h'.log = (h₁.attachNode i n).log := (congrArg GcHeap.log heq :)
    rw [hattach, ← GcHeap.log_allocNodeMem hok]
    rfl
  have htenant := hg.mem.tenantAt_alloc (m := m) hfresh hok
  rw [← GcHeap.tenantAt_congr (GcHeap.live_of_store heq)
    ⟨GcHeap.dtype_of_store heq m, GcHeap.arenaAlloc_of_store heq m⟩] at htenant
  change Tenancies _ (tenantsAt m (g.2 ++ _)) (h'.tenantAt m) (entries GcEvent.node m h'.log)
  rw [htenant, hlog]
  by_cases hm : m = n
  · subst hm
    rw [GcHeap.tenantAt_of_not_live hn] at ht
    simpa [tenantsAt] using ht.begin ⟨m, dtype, decide (sys = some m)⟩
  · simpa [tenantsAt, hm, Ne.symm hm] using ht

/-- **Every step** keeps the record. -/
theorem Recorded.step (hg : Recorded registry g) (hst : LifeStep g op g') :
    Recorded registry g' := by
  obtain ⟨hst, hlist⟩ := hst
  obtain ⟨h', tenants⟩ := g'
  dsimp only at hst hlist
  have hinv := hg.mem.step hst
  subst hlist
  rcases hst.tenant with ⟨hnone, hcases⟩ |
    ⟨i, dtype, size, payload, skipArena, sys, h₁, n, hsome, hdtype, hfresh, hok, heq⟩
  · have hretire : ∃ dead, g.1.Retires h' dead := by
      rcases hcases with rfl | htype
      · exact ⟨[], .of_store rfl⟩
      · cases hst.store with
        | same heq => exact ⟨[], .of_store heq⟩
        | create hop hfresh hok =>
          obtain ⟨q, rfl, hpar, ⟨hnodes, -⟩, -⟩ := GcHeap.createPartition_ok hok
          refine ⟨[], .none rfl (fun n => ?_) (fun _ => ⟨rfl, rfl⟩) rfl⟩
          simp only [GcHeap.live_iff, List.mem_append, List.mem_singleton]
          constructor
          · rintro ⟨p, hp | rfl, hn⟩
            · exact ⟨p, hp, hn⟩
            · rw [hnodes] at hn
              cases hn
          · rintro ⟨p, hp, hn⟩
            exact ⟨p, .inl hp, hn⟩
        | alloc htype' =>
          rw [htype] at htype'
          cases htype'
        | sweep hop hstore heq =>
          obtain ⟨dead, hr⟩ := GcHeap.Retires.sweep (hg.mem.congr hstore) _
          exact ⟨dead, (heq ▸ hr).after hstore⟩
        | downgrade hop hn hok =>
          obtain ⟨slots, rfl⟩ := GcHeap.downgrade_frame hok
          exact ⟨[], .none rfl (fun _ => .rfl) (fun _ =>
            ⟨GcHeap.field_modifyHead GcHead.dtype fun _ => rfl,
              GcHeap.field_modifyHead GcHead.arenaAlloc fun _ => rfl⟩) rfl⟩
        | remove hop hfresh hok => exact GcHeap.Retires.removePartition hg.mem hok
    obtain ⟨dead, hr⟩ := hretire
    rw [hnone, Option.toList_none, List.append_nil]
    exact hg.retire hinv hr
  · rw [hsome]
    exact hg.alloc hdtype hfresh hok heq

theorem Recorded.new (registry : GcTypeRegistry) : Recorded registry (GcHeap.new registry, []) := by
  refine ⟨.new registry, rfl, fun n => ?_⟩
  have hn : ¬ (GcHeap.new registry).Live n := by
    rw [GcHeap.live_iff]
    rintro ⟨q, hq, -⟩
    cases hq
  rw [GcHeap.tenantAt_of_not_live hn]
  exact .start _

/-- The list of tenants is no condition on a run. -/
theorem exists_lifeRun (hrun : Run Step g.1 ops h) :
    ∃ tenants, Run LifeStep g ops (h, tenants) := by
  have hfollow : ∃ g', Run LifeStep g ops g' ∧ g'.1 = h :=
    Run.follow Prod.fst
      (fun g op h' hst => ⟨(h', g.2 ++ (op.tenant g.1).toList), ⟨hst, rfl⟩, rfl⟩) hrun
  obtain ⟨g', hlife, rfl⟩ := hfollow
  exact ⟨g'.2, hlife⟩

/-- **Lifetimes.** In every run, whatever its operations and their order, what has happened at an
address is the ends of the nodes that have lived there, one after the other and each complete; the
last of them, if it is alive, has none of it behind it yet. When the heap ends, all of them are
complete. -/
theorem lifetimes (hrun : Run Step (GcHeap.new registry) ops h) : ∃ tenants,
    Run LifeStep (GcHeap.new registry, []) ops (h, tenants) ∧ ∀ n,
      Tenancies (Tenant.lastRites registry) (tenantsAt n tenants) (h.tenantAt n)
        (entries GcEvent.node n h.log) ∧
      entries GcEvent.node n h.dropHeap.log =
        (tenantsAt n tenants).flatMap (Tenant.lastRites registry) := by
  obtain ⟨tenants, hlife⟩ := exists_lifeRun (g := (GcHeap.new registry, [])) hrun
  obtain ⟨hinv, htypes, ht⟩ := hlife.invariant (I := Recorded registry)
    (fun _ _ _ hg hst => hg.step hst) (.new registry)
  refine ⟨tenants, hlife, fun n => ⟨ht n, ?_⟩⟩
  rw [(ht n).flatMap_close, hinv.entries_dropHeap n, GcHeap.tenantAt]
  split
  · simp only [Option.toList_some, List.flatMap_singleton, ← htypes, GcHeap.lastRites_tenant]
  · rfl

/-- Two nodes live at the address 1000, one after the other. The second is alive until the heap
ends. -/
theorem lifetimes_two : ∃ (h : GcHeap) (tenants : List Tenant) (ops : List Op),
    Run LifeStep (GcHeap.new (gcTypeTableInternal 24 8 [⟨8, 8, true, none⟩]), []) ops
      (h, tenants) ∧
    h.Live 1000 ∧
    (tenantsAt 1000 tenants).flatMap
      (Tenant.lastRites (gcTypeTableInternal 24 8 [⟨8, 8, true, none⟩])) =
        [.dropFn 1000, .disposed 1000, .memDealloc 1000 32 8,
          .dropFn 1000, .disposed 1000, .memDealloc 1000 32 8] := by
  have hplay : (play (fun _ _ => True)
      [.createPartition 0 0 none, .allocRaw 0 0 [] (some 1000), .garbageCollect 0,
        .allocRootRaw 0 0 [] (some 1000)]
      (GcHeap.new (gcTypeTableInternal 24 8 [⟨8, 8, true, none⟩]))).any fun h =>
        h.Live 1000 ∧ entries GcEvent.node 1000 h.dropHeap.log =
          [.dropFn 1000, .disposed 1000, .memDealloc 1000 32 8,
            .dropFn 1000, .disposed 1000, .memDealloc 1000 32 8] := by
    decide +kernel
  obtain ⟨h, hh, hP⟩ := Option.any_eq_true _ _ |>.mp hplay
  obtain ⟨hlive, hlog⟩ := of_decide_eq_true hP
  obtain ⟨tenants, hlife, ht⟩ := lifetimes ((run_of_play hh).mono fun _ _ _ => And.left)
  exact ⟨h, tenants, _, hlife, hlive, (ht 1000).2.symm.trans hlog⟩

end GcLite
