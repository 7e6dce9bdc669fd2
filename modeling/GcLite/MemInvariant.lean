import GcLite.ArenaInvariant
import GcLite.Store
import GcLite.Sweep

/-!
# Where nodes live

In every run, the nodes of a chain are different nodes of its partition and of a known type. Those
that came from an arena are exactly the outstanding blocks of their partition's arena, and those
that came from the system lie in no arena. So a block that an arena hands out belongs to no live
node, and neither does one that the system hands out, by its contract.

## Main definitions

* `GcHeap.blocksOf` — the arena blocks of the nodes of a list
* `GcHeap.MemInv` — the invariant

## Main results

* `MemInv.not_live_of_alloc` — arena memory is fresh
* `MemInv.step` — every operation keeps the invariant
* `memInv_of_reachable`
-/

namespace GcLite

open Transition

namespace GcArena

/-- Where an arena lies. -/
def region (A : GcArena) : ℕ × ℕ := (A.base, A.capacity)

/-- An address lies outside an arena. -/
def Outside (A : GcArena) (a : ℕ) : Prop := a < A.base ∨ A.base + A.capacity ≤ a

/-- Two arenas do not overlap. -/
def Disjoint (A B : GcArena) : Prop :=
  A.base + A.capacity ≤ B.base ∨ B.base + B.capacity ≤ A.base

variable {A A' B B' : GcArena} {a : ℕ}

theorem not_outside_iff : ¬ A.Outside a ↔ A.base ≤ a ∧ a < A.base + A.capacity := by
  simp only [Outside]
  omega

theorem Disjoint.outside (h : A.Disjoint B) (ha : ¬ A.Outside a) : B.Outside a := by
  simp only [Disjoint, Outside] at *
  omega

theorem Disjoint.symm (h : A.Disjoint B) : B.Disjoint A := Or.symm h

theorem Outside.congr (h : A.Outside a) (hA : A'.region = A.region) : A'.Outside a := by
  obtain ⟨hbase, hcap⟩ := Prod.mk.inj hA
  rwa [Outside, hbase, hcap]

theorem Disjoint.congr (h : A.Disjoint B) (hA : A'.region = A.region)
    (hB : B'.region = B.region) : A'.Disjoint B' := by
  obtain ⟨hbase, hcap⟩ := Prod.mk.inj hA
  obtain ⟨hbase', hcap'⟩ := Prod.mk.inj hB
  rwa [Disjoint, hbase, hcap, hbase', hcap']

end GcArena

namespace GcHeap

open GcArena

/-- The blocks that the arena nodes of a list occupy. -/
def blocksOf (h : GcHeap) (l : List NodePtr) : List Block :=
  (l.filter fun n => (h.head n).arenaAlloc).map fun n => ⟨n, (h.info n).layoutSize⟩

/-- Where nodes live. -/
structure MemInv (h : GcHeap) : Prop where
  /-- Headers name the partitions that the nodes are in. -/
  own : ∀ i, ∀ n ∈ (h.par i).nodes, (h.head n).partitionId = i
  /-- No node is in a chain twice. -/
  nodup : ∀ i, (h.par i).nodes.Nodup
  /-- Every node has a registered type. -/
  dtype : ∀ i, ∀ n ∈ (h.par i).nodes, (h.head n).dtype < h.nodeDtypes.typeInfoList.length
  /-- The arena nodes of a chain are the outstanding blocks of the arena. -/
  arena : ∀ i A, (h.par i).arena = some A → ∃ free, A.Inv (h.blocksOf (h.par i).nodes) free []
  /-- Without an arena no node is an arena's. -/
  no_arena : ∀ i, (h.par i).arena = none → ∀ n ∈ (h.par i).nodes, (h.head n).arenaAlloc = false
  /-- The other nodes lie in no arena. -/
  system : ∀ j, ∀ n ∈ (h.par j).nodes, (h.head n).arenaAlloc = false →
    ∀ i A, (h.par i).arena = some A → A.Outside n
  /-- Two arenas do not overlap. -/
  regions : ∀ i j A B, i ≠ j → (h.par i).arena = some A → (h.par j).arena = some B →
    A.Disjoint B

variable {h h' : GcHeap} {i j : ℕ} {n m : NodePtr}

theorem mem_blocksOf {l : List NodePtr} {b : Block} : b ∈ h.blocksOf l ↔
    ∃ n ∈ l, (h.head n).arenaAlloc = true ∧ ⟨n, (h.info n).layoutSize⟩ = b := by
  simp [blocksOf, and_assoc]

theorem blocksOf_perm {l l' : List NodePtr} (hp : l.Perm l') :
    (h.blocksOf l).Perm (h.blocksOf l') := (hp.filter _).map _

theorem blocksOf_append (l l' : List NodePtr) :
    h.blocksOf (l ++ l') = h.blocksOf l ++ h.blocksOf l' := by simp [blocksOf]

/-- The blocks of a list depend on the headers of its nodes only. -/
theorem blocksOf_congr {l : List NodePtr} (hhead : ∀ n ∈ l, h'.head n = h.head n)
    (htypes : h'.nodeDtypes = h.nodeDtypes) : h'.blocksOf l = h.blocksOf l := by
  have hfilter : (l.filter fun n => (h'.head n).arenaAlloc) =
      l.filter fun n => (h.head n).arenaAlloc :=
    List.filter_congr fun n hn => by rw [hhead n hn]
  rw [blocksOf, hfilter]
  refine List.map_congr_left fun n hn => ?_
  rw [info, info, hhead n (List.mem_filter.mp hn).1, htypes]

namespace MemInv

/-- What the invariant speaks about. -/
theorem of_fields (hinv : h.MemInv) (hnodes : ∀ i, (h'.par i).nodes = (h.par i).nodes)
    (harena : ∀ i, (h'.par i).arena = (h.par i).arena) (htypes : h'.nodeDtypes = h.nodeDtypes)
    (hhead : ∀ n, (h'.head n).dtype = (h.head n).dtype ∧
      (h'.head n).partitionId = (h.head n).partitionId ∧
      (h'.head n).arenaAlloc = (h.head n).arenaAlloc) : h'.MemInv := by
  have hblocks : ∀ l, h'.blocksOf l = h.blocksOf l := by
    intro l
    simp only [blocksOf, info, (hhead _).1, (hhead _).2.2, htypes]
  refine ⟨?_, ?_, ?_, ?_, ?_, ?_, ?_⟩ <;>
    simp only [hnodes, harena, htypes, hblocks, (hhead _).1, (hhead _).2.1, (hhead _).2.2]
  · exact hinv.own
  · exact hinv.nodup
  · exact hinv.dtype
  · exact hinv.arena
  · exact hinv.no_arena
  · exact hinv.system
  · exact hinv.regions

/-- In particular, it speaks about the store only. -/
theorem congr (hinv : h.MemInv) (heq : h'.store = h.store) : h'.MemInv :=
  hinv.of_fields (nodes_of_store heq) (arena_of_store heq) (nodeDtypes_of_store heq) fun n =>
    ⟨dtype_of_store heq n, partitionId_of_store heq n, arenaAlloc_of_store heq n⟩

theorem new (registry : GcTypeRegistry) : (GcHeap.new registry).MemInv := by
  have hpar : ∀ i, (GcHeap.new registry).par i = default :=
    fun i => par_of_length_le (Nat.zero_le i)
  refine ⟨?_, ?_, ?_, ?_, ?_, ?_, ?_⟩ <;> simp [hpar, default]

/-- The chains are the partitions' own. -/
theorem owned (hinv : h.MemInv) : h.view.Owned := ⟨fun _ => view_range, hinv.own⟩

/-! ### Fresh memory -/

/-- An arena node lies in its partition's arena. -/
theorem not_outside {A : GcArena} (hinv : h.MemInv) (hA : (h.par i).arena = some A)
    (hn : n ∈ (h.par i).nodes) (harena : (h.head n).arenaAlloc = true) : ¬ A.Outside n := by
  obtain ⟨free, hA⟩ := hinv.arena i A hA
  exact not_outside_iff.mpr (hA.block_region (mem_blocksOf.mpr ⟨n, hn, harena, rfl⟩))

/-- **Arena memory is fresh**: what an arena hands out is no live node's address. -/
theorem not_live_of_alloc {A A' : GcArena} {layout : Layout} (hinv : h.MemInv)
    (hA : (h.par i).arena = some A) (ha : A.alloc layout = some (n, A')) : ¬ h.Live n := by
  rintro ⟨j, hn⟩
  obtain ⟨free, hAinv⟩ := hinv.arena i A hA
  obtain ⟨free', hA'⟩ := hAinv.alloc ha
  obtain ⟨hbase, hcap⟩ := GcArena.alloc_region ha
  have hin : ¬ A.Outside n := by
    have := hA'.block_region List.mem_cons_self
    rw [hbase, hcap] at this
    exact not_outside_iff.mpr this
  by_cases harena : (h.head n).arenaAlloc = true
  · by_cases hj : j = i
    · subst hj
      exact hA'.block_ptr_ne (mem_blocksOf.mpr ⟨n, hn, harena, rfl⟩) rfl
    · cases hB : (h.par j).arena with
      | none => simp [hinv.no_arena j hB n hn] at harena
      | some B =>
        exact hinv.not_outside hB hn harena ((hinv.regions i j A B (Ne.symm hj) hA hB).outside hin)
  · exact hin (hinv.system j n hn (by simpa using harena) i A hA)

/-! ### What keeps the invariant -/

/-- A new node joins the chain of partition `i`, from its arena or from the system. -/
theorem attach {dtype : ℕ} {fromArena : Bool} (hinv : h.MemInv) (hn : ¬ h.Live n)
    (hatt : Attached h i dtype fromArena n h')
    (hdtype : dtype < h.nodeDtypes.typeInfoList.length)
    (harena : (fromArena = true ∧ ∃ A A' layout, (h.par i).arena = some A ∧
          A.alloc layout = some (n, A') ∧ layout.size = (h.typeInfo dtype).layoutSize ∧
          (h'.par i).arena = some A') ∨
      (fromArena = false ∧ ∀ j A, (h.par j).arena = some A → A.Outside n)) : h'.MemInv := by
  have hold : ∀ {j m}, m ∈ (h.par j).nodes → h'.head m = h.head m := by
    intro j m hm
    rw [hatt.head, Function.update_of_ne]
    rintro rfl
    exact hn ⟨j, hm⟩
  have hnew : h'.head n = .init i dtype fromArena := by rw [hatt.head, Function.update_self]
  have hmem : ∀ {j m}, m ∈ (h'.par j).nodes ↔ (m = n ∧ j = i) ∨ m ∈ (h.par j).nodes := by
    intro j m
    rw [hatt.nodes]
    by_cases hj : j = i <;> simp [hj]
  have hblocks : ∀ j, h'.blocksOf (h.par j).nodes = h.blocksOf (h.par j).nodes := fun j =>
    blocksOf_congr (fun m hm => hold hm) hatt.types
  -- every arena is where it was
  have hregion : ∀ {j A'}, (h'.par j).arena = some A' →
      ∃ A, (h.par j).arena = some A ∧ A'.region = A.region := by
    intro j A' hA'
    by_cases hj : j = i
    · subst hj
      rcases harena with ⟨-, A, A₁, layout, hA, halloc, -, hA₁⟩ | ⟨hsys, -⟩
      · obtain rfl : A₁ = A' := Option.some.inj (hA₁.symm.trans hA')
        obtain ⟨hbase, hcap⟩ := alloc_region halloc
        exact ⟨A, hA, Prod.ext hbase hcap⟩
      · exact ⟨A', hatt.arena j (.inr hsys) ▸ hA', rfl⟩
    · exact ⟨A', hatt.arena j (.inl hj) ▸ hA', rfl⟩
  refine ⟨fun j m hm => ?_, fun j => ?_, fun j m hm => ?_, fun j A' hA' => ?_,
    fun j hnone m hm => ?_, fun j m hm hm' k A' hA' => ?_, fun j k A' B' hjk hA' hB' => ?_⟩
  · rcases hmem.mp hm with ⟨rfl, rfl⟩ | hm
    · rw [hnew]
      rfl
    · rw [hold hm]
      exact hinv.own j m hm
  · rw [hatt.nodes]
    split
    · exact List.nodup_cons.mpr ⟨fun hm => hn ⟨j, hm⟩, hinv.nodup j⟩
    · exact hinv.nodup j
  · rw [hatt.types]
    rcases hmem.mp hm with ⟨rfl, rfl⟩ | hm
    · rw [hnew]
      exact hdtype
    · rw [hold hm]
      exact hinv.dtype j m hm
  · rw [hatt.nodes]
    by_cases hj : j = i
    · subst hj
      rw [if_pos rfl, ← List.singleton_append, blocksOf_append, hblocks]
      rcases harena with ⟨rfl, A, A₁, layout, hA, halloc, hsize, hA₁⟩ | ⟨rfl, -⟩
      · obtain rfl : A₁ = A' := Option.some.inj (hA₁.symm.trans hA')
        obtain ⟨free, hAinv⟩ := hinv.arena j A hA
        have hblock : h'.blocksOf [n] = [⟨n, layout.size⟩] := by
          simp [blocksOf, hnew, GcHead.init, info, hatt.types, hsize, typeInfo]
        rw [hblock]
        exact hAinv.alloc halloc
      · have hblock : h'.blocksOf [n] = [] := by simp [blocksOf, hnew, GcHead.init]
        rw [hblock]
        exact hinv.arena j A' (hatt.arena j (.inr rfl) ▸ hA')
    · rw [if_neg hj, hblocks]
      exact hinv.arena j A' (hatt.arena j (.inl hj) ▸ hA')
  · have hnone' : (h.par j).arena = none := by
      by_cases hj : j = i
      · subst hj
        rcases harena with ⟨-, A, A₁, layout, -, -, -, hA₁⟩ | ⟨hsys, -⟩
        · rw [hA₁] at hnone
          cases hnone
        · exact hatt.arena j (.inr hsys) ▸ hnone
      · exact hatt.arena j (.inl hj) ▸ hnone
    rcases hmem.mp hm with ⟨rfl, rfl⟩ | hm
    · rw [hnew]
      rcases harena with ⟨-, A, A₁, layout, hA, -⟩ | ⟨rfl, -⟩
      · rw [hA] at hnone'
        cases hnone'
      · rfl
    · rw [hold hm]
      exact hinv.no_arena j hnone' m hm
  · obtain ⟨A, hA, hreg⟩ := hregion hA'
    refine Outside.congr ?_ hreg
    rcases hmem.mp hm with ⟨rfl, rfl⟩ | hm
    · rw [hnew] at hm'
      rcases harena with ⟨rfl, -⟩ | ⟨-, hout⟩
      · cases hm'
      · exact hout k A hA
    · rw [hold hm] at hm'
      exact hinv.system j m hm hm' k A hA
  · obtain ⟨A, hA, hregA⟩ := hregion hA'
    obtain ⟨B, hB, hregB⟩ := hregion hB'
    exact (hinv.regions j k A B hjk hA hB).congr hregA hregB

/-- Nodes leave their chains; one arena may be replaced by one that lies elsewhere. -/
theorem of_sublist (hinv : h.MemInv) (hhead : h'.head = h.head)
    (htypes : h'.nodeDtypes = h.nodeDtypes)
    (hsub : ∀ j, (h'.par j).nodes.Sublist (h.par j).nodes)
    (harena : ∀ j A, (h'.par j).arena = some A →
      ∃ free, A.Inv (h.blocksOf (h'.par j).nodes) free [])
    (hnone : ∀ j, (h'.par j).arena = none → ∀ n ∈ (h'.par j).nodes, (h.head n).arenaAlloc = false)
    (hregion : ∀ j A', (h'.par j).arena = some A' →
      (∃ A, (h.par j).arena = some A ∧ A'.region = A.region) ∨
      (j = i ∧ (∀ k, ∀ n ∈ (h'.par k).nodes, A'.Outside n) ∧
        ∀ k B, (h.par k).arena = some B → A'.Disjoint B)) : h'.MemInv := by
  refine ⟨fun j m hm => ?_, fun j => (hinv.nodup j).sublist (hsub j), fun j m hm => ?_,
    fun j A hA => ?_, fun j hj m hm => ?_, fun j m hm hm' k A' hA' => ?_,
    fun j k A' B' hjk hA' hB' => ?_⟩
  · rw [hhead]
    exact hinv.own j m ((hsub j).subset hm)
  · rw [hhead, htypes]
    exact hinv.dtype j m ((hsub j).subset hm)
  · rw [blocksOf_congr (fun m _ => congrFun hhead m) htypes]
    exact harena j A hA
  · rw [hhead]
    exact hnone j hj m hm
  · rw [hhead] at hm'
    rcases hregion k A' hA' with ⟨A, hA, hreg⟩ | ⟨-, hout, -⟩
    · exact (hinv.system j m ((hsub j).subset hm) hm' k A hA).congr hreg
    · exact hout j m hm
  · rcases hregion j A' hA' with ⟨A, hA, hregA⟩ | ⟨rfl, -, hdisj⟩
    · rcases hregion k B' hB' with ⟨B, hB, hregB⟩ | ⟨-, -, hdisj⟩
      · exact (hinv.regions j k A B hjk hA hB).congr hregA hregB
      · exact ((hdisj j A hA).congr rfl hregA).symm
    · rcases hregion k B' hB' with ⟨B, hB, hregB⟩ | ⟨rfl, -, -⟩
      · exact (hdisj k B hB).congr rfl hregB
      · exact absurd rfl hjk

/-- The nodes of one partition may go, and its arena be replaced by a new one. -/
theorem of_new_arena {capacity : ℕ} {sys : Option ℕ} (hinv : h.MemInv)
    (hfresh : ∀ base, sys = some base → h.RegionFresh (h.par i).nodes base capacity)
    (hhead : h'.head = h.head) (htypes : h'.nodeDtypes = h.nodeDtypes)
    (hother : ∀ j, j ≠ i → (h'.par j).nodes = (h.par j).nodes ∧ (h'.par j).arena = (h.par j).arena)
    (hnodes : (h'.par i).nodes = [])
    (harena : (h'.par i).arena = none ∨
      ∃ A, (h'.par i).arena = some A ∧ GcArena.new capacity sys = some A) : h'.MemInv := by
  have hold : ∀ {k n}, n ∈ (h'.par k).nodes → n ∈ (h.par k).nodes ∧ k ≠ i := by
    intro k n hn
    have hki : k ≠ i := by
      rintro rfl
      simp [hnodes] at hn
    exact ⟨(hother k hki).1 ▸ hn, hki⟩
  have hnew : ∀ {A}, (h'.par i).arena = some A → GcArena.new capacity sys = some A := by
    intro A hA
    obtain hnone | ⟨A', hA', hnew⟩ := harena
    · rw [hnone] at hA
      cases hA
    · rwa [← Option.some.inj (hA'.symm.trans hA)]
  refine hinv.of_sublist (i := i) hhead htypes (fun j => ?_) (fun j A hA => ?_)
    (fun j hnone n hn => ?_) fun j A hA => ?_
  · by_cases hj : j = i
    · rw [hj, hnodes]
      exact List.nil_sublist _
    · rw [(hother j hj).1]
  · by_cases hj : j = i
    · subst hj
      rw [hnodes]
      exact ⟨[], inv_new ((new_region (hnew hA)).1 ▸ hnew hA)⟩
    · rw [(hother j hj).1]
      exact hinv.arena j A ((hother j hj).2 ▸ hA)
  · obtain ⟨hn, hj⟩ := hold hn
    exact hinv.no_arena j ((hother j hj).2 ▸ hnone) n hn
  · by_cases hj : j = i
    · subst hj
      obtain ⟨hsys, hcap⟩ := new_region (hnew hA)
      obtain ⟨hout, hdisj⟩ := hfresh _ hsys
      rw [← hcap] at hout hdisj
      refine .inr ⟨rfl, fun k n hn => ?_, fun k B hB => (hdisj k B hB).symm⟩
      obtain ⟨hn, hk⟩ := hold hn
      exact hout n ⟨k, hn⟩ fun hni => hk ((hinv.own k n hn).symm.trans (hinv.own j n hni))
    · exact .inl ⟨A, (hother j hj).2 ▸ hA, rfl⟩

/-! ### The operations -/

theorem allocNodeMem {dtype size : ℕ} {payload : Payload} {skipArena : Bool} {sys : Option NodePtr}
    (hinv : h.MemInv) (hdtype : dtype < h.nodeDtypes.typeInfoList.length)
    (hfresh : ∀ n, sys = some n → h.SystemFresh n)
    (hok : h.allocNodeMem i dtype payload skipArena sys = .ok (h', n, size)) :
    ¬ h.Live n ∧ (h'.attachNode i n).MemInv := by
  obtain ⟨fromArena, hatt, hcases⟩ := allocNodeMem_attached hok
  rcases hcases with ⟨hfrom, A, A', layout, hA, halloc, hsize, hA'⟩ | ⟨hfrom, hsys⟩
  · have hn := hinv.not_live_of_alloc hA halloc
    exact ⟨hn, hinv.attach hn hatt hdtype (.inl ⟨hfrom, A, A', layout, hA, halloc, hsize, hA'⟩)⟩
  · obtain ⟨hn, hout⟩ := hfresh n hsys
    exact ⟨hn, hinv.attach hn hatt hdtype (.inr ⟨hfrom, hout⟩)⟩

theorem createPartition {capacity maxAlloc id : ℕ} {sys : Option ℕ} (hinv : h.MemInv)
    (hfresh : ∀ base, sys = some base → h.RegionFresh [] base capacity)
    (hok : h.createPartition capacity maxAlloc sys = some (h', id)) : h'.MemInv := by
  obtain ⟨q, hh', hpar, ⟨hnodes, -⟩, harena⟩ := createPartition_ok hok
  have hlast : (h.par h.partitions.length).nodes = [] := by
    rw [par_of_length_le (Nat.le_refl _)]
    rfl
  refine hinv.of_new_arena (i := h.partitions.length) (hlast ▸ hfresh) (by rw [hh']) (by rw [hh'])
    (fun j hj => ?_) ?_ ?_
  · rw [hpar, if_neg hj]
    exact ⟨rfl, rfl⟩
  · rw [hpar, if_pos rfl]
    exact hnodes
  · rw [hpar, if_pos rfl]
    exact harena

/-- Freeing the nodes of a partition, whose arena is then replaced. -/
theorem removePartition {debug : Bool} {bytes : ℕ} {sys : Option ℕ} (hinv : h.MemInv)
    (hfresh : ∀ base, sys = some base → h.RegionFresh (h.par i).nodes base (h.par i).arenaCapacity)
    (hok : h.removePartition debug i sys = some (h', bytes)) : h'.MemInv := by
  obtain rfl | ⟨hi, h₁, link, arena, log, hh₁, rfl, harena, heq⟩ := removePartition_ok hok
  · exact hinv
  have hstore : h₁.store = h.store := hh₁ ▸ store_clearScopesOf
  have hi : i < h₁.partitions.length := by rwa [length_of_store hstore]
  have hcap : (h₁.par i).arenaCapacity = (h.par i).arenaCapacity :=
    (congrArg GcPartition.arenaCapacity (par_store_congr hstore i) :)
  obtain ⟨⟨hnodes, -⟩, hpar, hnew⟩ := par_of_torn heq
  have hfresh₁ : ∀ base, sys = some base →
      h₁.RegionFresh (h₁.par i).nodes base (h₁.par i).arenaCapacity := by
    intro base hsys
    obtain ⟨hout, hdisj⟩ := hfresh base hsys
    rw [hcap, nodes_of_store hstore]
    exact ⟨fun n hn => hout n ((live_of_store hstore).mp hn),
      fun k B hB => hdisj k B (arena_of_store hstore k ▸ hB)⟩
  refine (hinv.congr hstore).of_new_arena hfresh₁ (by rw [heq]; rfl) (by rw [heq]; rfl)
    (fun j hj => ?_) hnodes (by rwa [hnew hi])
  rw [hpar j hj]
  exact ⟨rfl, rfl⟩

/-- Disposing of nodes one by one: the arena gets their blocks back, and the other blocks stay. -/
private theorem foldl_disposeNode_arena (kept : List Block) (l : List NodePtr) : ∀ s : SweepState,
    i < s.heap.partitions.length →
    (∀ A, (s.heap.par i).arena = some A →
      ∃ free, A.Inv (s.heap.blocksOf l ++ kept) free s.holes) →
    ((s.heap.par i).arena = none → ∀ n ∈ l, (s.heap.head n).arenaAlloc = false) →
    let s' := l.foldl (SweepState.disposeNode i) s
    (∀ A', (s'.heap.par i).arena = some A' → (∃ free, A'.Inv kept free s'.holes) ∧
        ∃ A, (s.heap.par i).arena = some A ∧ A'.region = A.region) ∧
      ((s'.heap.par i).arena = none → (s.heap.par i).arena = none) ∧
      ∀ j, j ≠ i → (s'.heap.par j).arena = (s.heap.par j).arena := by
  induction l with
  | nil => exact fun s _ harena _ => ⟨fun A hA => ⟨harena A hA, A, hA, rfl⟩, id, fun _ _ => rfl⟩
  | cons n l ih =>
    intro s hi harena hnone
    have hblocks : (s.disposeNode i n).heap.blocksOf l = s.heap.blocksOf l :=
      blocksOf_congr (fun m _ => by rw [SweepState.head_disposeNode])
        SweepState.nodeDtypes_disposeNode
    have hother : ∀ j, j ≠ i → ((s.disposeNode i n).heap.par j).arena = (s.heap.par j).arena :=
      fun j hj => SweepState.arena_disposeNode_of_ne hj
    have hlen : i < (s.disposeNode i n).heap.partitions.length := by
      rwa [SweepState.length_disposeNode]
    rw [List.foldl_cons]
    by_cases hn : (s.heap.head n).arenaAlloc = true
    · cases hA : (s.heap.par i).arena with
      | none => simp [hnone hA n List.mem_cons_self] at hn
      | some A =>
        obtain ⟨hcoll, hholes⟩ := SweepState.arena_disposeNode hn hA hi
        obtain ⟨free, hAinv⟩ := harena A hA
        have hcons : s.heap.blocksOf (n :: l) ++ kept =
            ⟨n, (s.heap.info n).layoutSize⟩ :: (s.heap.blocksOf l ++ kept) := by
          simp [blocksOf, hn]
        rw [hcons] at hAinv
        obtain ⟨hinv', hnone', hother'⟩ := ih (s.disposeNode i n) hlen (fun B hB => by
            obtain rfl := Option.some.inj (hcoll.symm.trans hB)
            rw [hblocks, hholes]
            exact ⟨free, hAinv.collectHole⟩) fun hnil => by
          rw [hcoll] at hnil
          cases hnil
        refine ⟨fun A' hA' => ?_, fun hnil => ?_, fun j hj => (hother' j hj).trans (hother j hj)⟩
        · obtain ⟨hkept, B, hB, hregion⟩ := hinv' A' hA'
          obtain rfl := Option.some.inj (hcoll.symm.trans hB)
          obtain ⟨hbase, hcap⟩ := collectHole_region A s.holes n (s.heap.info n).layoutSize
          exact ⟨hkept, A, rfl, hregion.trans (Prod.ext hbase hcap)⟩
        · have := hnone' hnil
          rw [hcoll] at this
          cases this
    · have hn : (s.heap.head n).arenaAlloc = false := by simpa using hn
      obtain ⟨hsame, hholes⟩ := SweepState.arena_disposeNode_of_system (i := i) hn
      have hcons : s.heap.blocksOf (n :: l) = s.heap.blocksOf l := by simp [blocksOf, hn]
      obtain ⟨hinv', hnone', hother'⟩ := ih (s.disposeNode i n) hlen (fun B hB => by
          rw [hblocks, hholes, ← hcons]
          exact harena B (hsame ▸ hB)) fun hnil m hm => by
        rw [SweepState.head_disposeNode]
        exact hnone (hsame ▸ hnil) m (List.mem_cons_of_mem _ hm)
      exact ⟨hsame ▸ hinv', hsame ▸ hnone', fun j hj => (hother' j hj).trans (hother j hj)⟩

/-- When the dead nodes have been disposed of, the arena has the blocks of the others, and holes. -/
private theorem arena_foldl_dropped (hinv : h.MemInv) (hi : i < h.partitions.length) :
    let s := (h.passOrder (h.unlinked i)).foldl (SweepState.disposeNode i) ⟨h.dropped i, [], 0⟩
    s.heap.partitions.length = h.partitions.length ∧
    (∀ A', (s.heap.par i).arena = some A' →
      (∃ free, A'.Inv (h.blocksOf (h.survivors i)) free s.holes) ∧
        ∃ A, (h.par i).arena = some A ∧ A'.region = A.region) ∧
    ((s.heap.par i).arena = none → (h.par i).arena = none) ∧
    ∀ j, j ≠ i → (s.heap.par j).arena = (h.par j).arena := by
  have hlen₀ : (h.dropped i).partitions.length = h.partitions.length := by
    simp [dropped, modifyPar]
  have harena₀ : ∀ j, ((h.dropped i).par j).arena = (h.par j).arena := fun j =>
    field_modifyPar GcPartition.arena fun _ => rfl
  have hblocks₀ : ∀ l, (h.dropped i).blocksOf l = h.blocksOf l := fun l =>
    blocksOf_congr (fun _ _ => rfl) rfl
  have horder : (h.passOrder (h.unlinked i)).Perm (h.unlinked i) :=
    passOrder_perm fun n hn => hinv.dtype i n (List.mem_filter.mp hn).1
  -- the blocks of the chain are those that the passes reach and those that stay
  have hperm : (h.blocksOf (h.par i).nodes).Perm
      (h.blocksOf (h.passOrder (h.unlinked i)) ++ h.blocksOf (h.survivors i)) := by
    rw [← blocksOf_append]
    exact blocksOf_perm (survivors_append_unlinked_perm.symm.trans (.append_right _ horder.symm))
  obtain ⟨hinv', hnone', hother'⟩ := foldl_disposeNode_arena (i := i)
    (h.blocksOf (h.survivors i)) (h.passOrder (h.unlinked i)) ⟨h.dropped i, [], 0⟩
    (hlen₀ ▸ hi)
    (fun A hA => by
      obtain ⟨free, hAinv⟩ := hinv.arena i A (harena₀ i ▸ hA)
      rw [hblocks₀]
      exact ⟨free, hAinv.perm hperm⟩)
    fun hnone n hn => hinv.no_arena i (harena₀ i ▸ hnone) n
      (List.mem_filter.mp (horder.subset hn)).1
  refine ⟨?_, fun A' hA' => ?_, fun hnone => harena₀ i ▸ hnone' hnone,
    fun j hj => (hother' j hj).trans (harena₀ j)⟩
  · exact (congrArg MarkState.count (view_foldl_disposeNode ..)).trans hlen₀
  · obtain ⟨hAinv, A, hA, hregion⟩ := hinv' A' hA'
    exact ⟨hAinv, A, harena₀ i ▸ hA, hregion⟩

/-- **After a sweep** the arena has the blocks of the nodes that stay. Other arenas do not change. -/
theorem arena_twoPhaseSweep (hinv : h.MemInv) (hdone : h.CycleDone i) :
    (∀ A', ((h.twoPhaseSweep i).1.par i).arena = some A' →
      (∃ free, A'.Inv (h.blocksOf (h.survivors i)) free []) ∧
        ∃ A, (h.par i).arena = some A ∧ A'.region = A.region) ∧
    (((h.twoPhaseSweep i).1.par i).arena = none → (h.par i).arena = none) ∧
    ∀ j, j ≠ i → ((h.twoPhaseSweep i).1.par j).arena = (h.par j).arena := by
  by_cases hempty : (h.par i).nodes = []
  · rw [twoPhaseSweep_of_empty hdone hempty]
    have harena : ∀ j, ((h.setMarking i false).par j).arena = (h.par j).arena := fun j =>
      field_modifyPar GcPartition.arena fun _ => rfl
    refine ⟨fun A hA => ⟨?_, A, harena i ▸ hA, rfl⟩, fun hnone => harena i ▸ hnone,
      fun j _ => harena j⟩
    have hAinv := hinv.arena i A (harena i ▸ hA)
    rw [hempty] at hAinv
    rwa [survivors, hempty]
  · obtain ⟨s, hs, heq⟩ := twoPhaseSweep_of_done hdone hempty
    obtain ⟨hlen, hsome, hnone, hother⟩ := hinv.arena_foldl_dropped hdone.1
    rw [← hs] at hlen hsome hnone hother
    obtain ⟨f, hfsome, hfnone, hfinish⟩ := finishSweep_frame s.heap i s.holes
    have hself : ((h.twoPhaseSweep i).1.par i).arena = f (s.heap.par i).arena := by
      rw [heq, hfinish, par_modifyPar_self (hlen ▸ hdone.1)]
    rw [hself]
    refine ⟨fun B hB => ?_, fun hB => hnone ?_, fun j hj => ?_⟩
    · cases hA : (s.heap.par i).arena with
      | none =>
        rw [hA, hfnone] at hB
        cases hB
      | some A =>
        rw [hA, hfsome] at hB
        obtain rfl := Option.some.inj hB
        obtain ⟨⟨free, hAinv⟩, C, hC, hregion⟩ := hsome A hA
        obtain ⟨hbase, hcap⟩ := finishSweep_region A s.holes
        refine ⟨?_, C, hC, (Prod.ext hbase hcap).trans hregion⟩
        rw [← finishSweep_holes A s.holes]
        exact hAinv.finishSweep
    · cases hA : (s.heap.par i).arena with
      | none => rfl
      | some A =>
        rw [hA, hfsome] at hB
        cases hB
    · rw [heq, hfinish, par_modifyPar_of_ne (Ne.symm hj)]
      exact hother j hj

/-- Sweeping a partition. -/
theorem twoPhaseSweep (hinv : h.MemInv) : (h.twoPhaseSweep i).1.MemInv := by
  by_cases hdone : h.CycleDone i
  · obtain ⟨hsome, hnone, hother⟩ := hinv.arena_twoPhaseSweep hdone
    obtain ⟨hhead, htypes, -⟩ := h.twoPhaseSweep_frame i
    refine hinv.of_sublist (i := i) hhead htypes (fun j => ?_) (fun j A hA => ?_)
      (fun j hA n hn => ?_) fun j A hA => .inl ?_
    · rw [nodes_twoPhaseSweep hdone]
      split
      · next hj => exact hj ▸ List.filter_sublist
      · exact .refl _
    · rw [nodes_twoPhaseSweep hdone]
      split
      · next hj => exact (hsome A (hj ▸ hA)).1
      · next hj => exact hinv.arena j A (hother j hj ▸ hA)
    · rw [nodes_twoPhaseSweep hdone] at hn
      split at hn
      · next hj => exact hinv.no_arena i (hnone (hj ▸ hA)) n (List.mem_filter.mp hn).1
      · next hj => exact hinv.no_arena j (hother j hj ▸ hA) n hn
    · by_cases hj : j = i
      · subst hj
        exact (hsome A hA).2
      · exact ⟨A, hother j hj ▸ hA, rfl⟩
  · rwa [twoPhaseSweep_of_not_done hdone]

theorem downgrade {w : GcWeakRawId} (hinv : h.MemInv) (hok : h.downgrade n = some (h', w)) :
    h'.MemInv := by
  obtain ⟨slots, rfl⟩ := downgrade_frame hok
  exact hinv.of_fields (fun _ => rfl) (fun _ => rfl) rfl fun m =>
    ⟨field_modifyHead GcHead.dtype fun _ => rfl,
      field_modifyHead GcHead.partitionId fun _ => rfl,
      field_modifyHead GcHead.arenaAlloc fun _ => rfl⟩

/-- The live nodes after a sweep. -/
theorem live_twoPhaseSweep (hinv : h.MemInv) (hdone : h.CycleDone i) :
    (h.twoPhaseSweep i).1.Live n ↔ h.Live n ∧ n ∉ h.unlinked i := by
  simp only [Live, mem_nodes_twoPhaseSweep, unlinked, List.mem_filter, not_and, Bool.not_eq_true]
  constructor
  · rintro ⟨j, hn, hkept⟩
    refine ⟨⟨j, hn⟩, fun hni => hkept ?_ hdone⟩
    exact (hinv.own j n hn).symm.trans (hinv.own i n hni)
  · rintro ⟨⟨j, hn⟩, hkept⟩
    exact ⟨j, hn, fun hj _ => hkept (hj ▸ hn)⟩

/-- **Every operation keeps the invariant.** -/
theorem step {op : Op} (hinv : h.MemInv) (hst : Step h op h') : h'.MemInv := by
  cases hst.store with
  | same heq => exact hinv.congr heq
  | create hop hfresh hok => exact hinv.createPartition hfresh hok
  | alloc htype hsys hdtype hfresh hok heq =>
    exact (hinv.allocNodeMem hdtype hfresh hok).2.congr heq
  | sweep hop hstore heq => exact heq ▸ (hinv.congr hstore).twoPhaseSweep
  | downgrade hop hn hok => exact hinv.downgrade hok
  | remove hop hfresh hok => exact hinv.removePartition hfresh hok

end MemInv

end GcHeap

open GcHeap in
/-- In every run, whatever its steps are. -/
theorem memInv_of_reachable {C : GcHeap → Op → Prop} {h : GcHeap} (hr : ReachableWith C h) :
    h.MemInv := by
  obtain ⟨registry, hr⟩ := hr
  exact hr.invariant (fun _ _ _ hs hst => hs.step hst.1) (MemInv.new registry)

end GcLite
