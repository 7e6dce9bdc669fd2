import GcLite.Destruction
import GcLite.MemInvariant

/-!
# Room for everything

The system allocator hands out blocks of memory that do not overlap, and each of them belongs to an
arena or to a node. So in every run the live nodes lie apart, inside the address space, and their
sizes together are below `2 ^ 64`.

## Main definitions

* `BlockOwner`, `GcHeap.Holds` — the blocks that the system has handed out, and who has them
* `SystemMemory` — the contract of the system allocator, for whole blocks
* `GcHeap.Placed` — the blocks are in memory and do not overlap
* `Op.handsOut` — the block that the system hands out in a step

## Main results

* `Holds.of_step` — a block in use was in use before or is the one just handed out
* `Placed.step`, `placed_of_reachable`
* `MemInv.sum_size_lt` — all live nodes have room in memory
-/

namespace GcLite

open Spans Transition

/-- In memory: not at the null pointer, and not past the end. -/
def InMemory (s : Span) : Prop := 0 < s.offset ∧ s.stop ≤ 2 ^ 64

instance (s : Span) : Decidable (InMemory s) := inferInstanceAs (Decidable (_ ∧ _))

/-- Who has a block of the system's. -/
inductive BlockOwner
  /-- A node that is not an arena's. -/
  | node (n : NodePtr)
  /-- The arena of a partition. -/
  | arena (i : ℕ)
deriving DecidableEq

/-- The bytes of an arena. -/
def GcArena.extent (A : GcArena) : Span := ⟨A.base, A.capacity⟩

namespace GcHeap

/-- The bytes of a node. -/
def extent (h : GcHeap) (n : NodePtr) : Span := ⟨n, (h.info n).layoutSize⟩

/-- The blocks of the system's that are in use. -/
def Holds (h : GcHeap) : BlockOwner → Span → Prop
  | .node n, s => h.Live n ∧ (h.head n).arenaAlloc = false ∧ s = h.extent n
  | .arena i, s => ∃ A, (h.par i).arena = some A ∧ s = A.extent

/-- A block that the system may hand out: it overlaps none that is in use, those of the nodes that
have been `freed` apart. -/
def BlockFree (h : GcHeap) (freed : List NodePtr) (s : Span) : Prop :=
  InMemory s ∧
    (∀ n, h.Live n → n ∉ freed → (h.head n).arenaAlloc = false → s.Disjoint (h.extent n)) ∧
    ∀ i A, (h.par i).arena = some A → s.Disjoint A.extent

instance {h : GcHeap} {freed : List NodePtr} {s : Span} : Decidable (h.BlockFree freed s) :=
  decidable_of_iff (InMemory s ∧ (∀ q ∈ h.partitions, ∀ n ∈ q.nodes, n ∉ freed →
      (h.head n).arenaAlloc = false → s.Disjoint (h.extent n)) ∧
    ∀ q ∈ h.partitions, ∀ A, q.arena = some A → s.Disjoint A.extent) <| by
    rw [BlockFree, forall_arena_iff]
    refine and_congr_right fun _ => and_congr_left fun _ =>
      ⟨fun hall n hn => ?_, fun hall q hq n hn => ?_⟩
    · obtain ⟨q, hq, hn⟩ := live_iff.mp hn
      exact hall q hq n hn
    · exact hall n (live_iff.mpr ⟨q, hq, hn⟩)

/-- The blocks in use are in memory and do not overlap. -/
structure Placed (h : GcHeap) : Prop where
  /-- Blocks lie in the address space. -/
  inMemory : ∀ o s, h.Holds o s → InMemory s
  /-- Two owners' blocks do not overlap. -/
  apart : ∀ o o' s s', o ≠ o' → h.Holds o s → h.Holds o' s' → s.Disjoint s'

end GcHeap

/-- The system allocator hands out blocks that are free. -/
def SystemMemory (h : GcHeap) : Op → Prop
  | .createPartition capacity _ sys => ∀ base, sys = some base → h.BlockFree [] ⟨base, capacity⟩
  | .allocRaw _ dtype _ sys | .allocRootRaw _ dtype _ sys | .allocLocal _ _ dtype _ sys =>
      ∀ n, sys = some n → h.BlockFree [] ⟨n, (h.typeInfo dtype).layoutSize⟩
  | .removePartition i sys => ∀ base, sys = some base →
      h.BlockFree (h.par i).nodes ⟨base, (h.par i).arenaCapacity⟩
  | _ => True

instance {h : GcHeap} {op : Op} : Decidable (SystemMemory h op) := by
  apply Op.casesOn (motive := fun op => Decidable (SystemMemory h op)) op <;> intros <;>
    dsimp only [SystemMemory] <;> infer_instance

theorem SystemMemory.alloc {h : GcHeap} {op : Op} {dtype : ℕ} {n : NodePtr}
    (hop : SystemMemory h op) (htype : op.allocType = some dtype) (hsys : op.allocSys = some n) :
    h.BlockFree [] ⟨n, (h.typeInfo dtype).layoutSize⟩ := by
  cases op with
  | allocRaw | allocRootRaw | allocLocal =>
    obtain rfl := Option.some.inj htype
    exact hop n hsys
  | _ => cases htype

namespace GcHeap

variable {h h' : GcHeap} {i j : ℕ} {n m : NodePtr}

/-! ### Fewer blocks, and one more -/

theorem Placed.of_kept (hp : h.Placed) (hkept : ∀ o s, h'.Holds o s → h.Holds o s) : h'.Placed :=
  ⟨fun o s ho => hp.inMemory o s (hkept o s ho), fun o o' s s' hne ho ho' =>
    hp.apart o o' s s' hne (hkept o s ho) (hkept o' s' ho')⟩

/-- A new block that does not overlap the old ones that remain. -/
theorem Placed.of_new {o₀ : BlockOwner} {s₀ : Span} (hp : h.Placed) (hs₀ : InMemory s₀)
    (hcases : ∀ o s, h'.Holds o s → o = o₀ ∧ s = s₀ ∨ h.Holds o s ∧ (o ≠ o₀ → s₀.Disjoint s)) :
    h'.Placed := by
  refine ⟨fun o s ho => ?_, fun o o' s s' hne ho ho' => ?_⟩
  · rcases hcases o s ho with ⟨-, rfl⟩ | ⟨ho, -⟩
    · exact hs₀
    · exact hp.inMemory o s ho
  · rcases hcases o s ho with ⟨rfl, rfl⟩ | ⟨ho, hfree⟩
    · rcases hcases o' s' ho' with ⟨rfl, -⟩ | ⟨-, hfree⟩
      · exact absurd rfl hne
      · exact hfree (Ne.symm hne)
    · rcases hcases o' s' ho' with ⟨rfl, rfl⟩ | ⟨ho', -⟩
      · exact (hfree hne).symm
      · exact hp.apart o o' s s' hne ho ho'

/-- The blocks in use depend on chains, headers and the places of the arenas. -/
theorem holds_of_fields (hlive : ∀ n, h'.Live n → h.Live n)
    (hhead : ∀ n, h'.Live n → (h'.head n).dtype = (h.head n).dtype ∧
      (h'.head n).arenaAlloc = (h.head n).arenaAlloc)
    (htypes : h'.nodeDtypes = h.nodeDtypes)
    (harena : ∀ j, (h'.par j).arena.map GcArena.extent = (h.par j).arena.map GcArena.extent)
    (o : BlockOwner) (s : Span) (ho : h'.Holds o s) : h.Holds o s := by
  cases o with
  | node n =>
    obtain ⟨hn, harena', rfl⟩ := ho
    obtain ⟨hdtype, hflag⟩ := hhead n hn
    refine ⟨hlive n hn, hflag ▸ harena', ?_⟩
    rw [extent, extent, info, info, hdtype, htypes]
  | arena j =>
    obtain ⟨A, hA, rfl⟩ := ho
    have hmap := harena j
    rw [hA] at hmap
    obtain ⟨B, hB, heq⟩ := Option.map_eq_some_iff.mp hmap.symm
    exact ⟨B, hB, heq.symm⟩

theorem holds_of_store (heq : h'.store = h.store) {o : BlockOwner} {s : Span} :
    h'.Holds o s → h.Holds o s :=
  holds_of_fields (fun _ => (live_of_store heq).mp)
    (fun n _ => ⟨dtype_of_store heq n, arenaAlloc_of_store heq n⟩) (nodeDtypes_of_store heq)
    (fun j => by rw [arena_of_store heq]) o s

theorem Placed.congr (hp : h.Placed) (heq : h'.store = h.store) : h'.Placed :=
  hp.of_kept fun _ _ => holds_of_store heq

theorem not_holds_new (registry : GcTypeRegistry) (o : BlockOwner) (s : Span) :
    ¬ (GcHeap.new registry).Holds o s := by
  have hpar : ∀ i, (GcHeap.new registry).par i = default :=
    fun i => par_of_length_le (Nat.zero_le i)
  intro ho
  cases o with
  | node n =>
    obtain ⟨⟨j, hn⟩, -⟩ := ho
    simp [hpar, default] at hn
  | arena i =>
    obtain ⟨A, hA, -⟩ := ho
    simp [hpar, default] at hA

theorem placed_new (registry : GcTypeRegistry) : (GcHeap.new registry).Placed :=
  ⟨fun o s ho => absurd ho (not_holds_new registry o s),
    fun o _ s _ _ ho => absurd ho (not_holds_new registry o s)⟩

/-! ### The operations -/

theorem extent_congr {A A' : GcArena} (hregion : A'.base = A.base ∧ A'.capacity = A.capacity) :
    A'.extent = A.extent := by
  rw [GcArena.extent, GcArena.extent, hregion.1, hregion.2]

/-- Nodes may go, and one arena may be replaced by a new one. -/
structure NewArena (h : GcHeap) (i : ℕ) (freed : List NodePtr) (capacity : ℕ) (sys : Option ℕ)
    (h' : GcHeap) : Prop where
  /-- Whoever lives has lived, and is not among the freed. -/
  live : ∀ n, h'.Live n → h.Live n ∧ n ∉ freed
  /-- Types and origins of nodes stay. -/
  head : ∀ n, (h'.head n).dtype = (h.head n).dtype ∧ (h'.head n).arenaAlloc = (h.head n).arenaAlloc
  /-- The type table is the same. -/
  types : h'.nodeDtypes = h.nodeDtypes
  /-- Other arenas stay. -/
  old : ∀ j, j ≠ i → (h'.par j).arena = (h.par j).arena
  /-- There is no arena, or the one that the system has just given. -/
  new : (h'.par i).arena = none ∨
    ∃ A, (h'.par i).arena = some A ∧ GcArena.new capacity sys = some A

/-- A block is the new one, or somebody had it before who has not been freed. -/
theorem NewArena.holds {freed : List NodePtr} {capacity : ℕ} {sys : Option ℕ} {o : BlockOwner}
    {s : Span} (hna : NewArena h i freed capacity sys h') (ho : h'.Holds o s) :
    (o = .arena i ∧ sys.map (Span.mk · capacity) = some s) ∨
      (h.Holds o s ∧ ∀ n, o = .node n → n ∉ freed) := by
  cases o with
  | node n =>
    obtain ⟨hn, hflag, rfl⟩ := ho
    obtain ⟨hdtype, hflag'⟩ := hna.head n
    refine .inr ⟨⟨(hna.live n hn).1, hflag' ▸ hflag, ?_⟩, ?_⟩
    · rw [extent, extent, info, info, hdtype, hna.types]
    · rintro m ⟨⟩
      exact (hna.live n hn).2
  | arena j =>
    obtain ⟨A, hA, rfl⟩ := ho
    by_cases hj : j = i
    · subst hj
      rcases hna.new with hnone | ⟨B, hB, hnew⟩
      · rw [hnone] at hA
        cases hA
      · obtain rfl := Option.some.inj (hA.symm.trans hB)
        obtain ⟨hsys, hcap⟩ := GcArena.new_region hnew
        exact .inl ⟨rfl, by rw [hsys, GcArena.extent, hcap, Option.map_some]⟩
    · exact .inr ⟨⟨A, hna.old j hj ▸ hA, rfl⟩, fun m heq => by cases heq⟩

theorem Placed.of_newArena {freed : List NodePtr} {capacity : ℕ} {sys : Option ℕ} (hp : h.Placed)
    (hfree : ∀ base, sys = some base → h.BlockFree freed ⟨base, capacity⟩)
    (hna : NewArena h i freed capacity sys h') : h'.Placed := by
  cases sys with
  | none =>
    refine hp.of_kept fun o s ho => ?_
    rcases hna.holds ho with ⟨-, hs⟩ | ⟨ho, -⟩
    · cases hs
    · exact ho
  | some base =>
    obtain ⟨hin, hnodes, harenas⟩ := hfree base rfl
    refine @Placed.of_new _ _ (.arena i) _ hp hin fun o s ho => ?_
    rcases hna.holds ho with ⟨rfl, hs⟩ | ⟨ho, hfreed⟩
    · exact .inl ⟨rfl, (Option.some.inj hs).symm⟩
    · refine .inr ⟨ho, fun _ => ?_⟩
      cases o with
      | node n =>
        obtain ⟨hn, hflag, rfl⟩ := ho
        exact hnodes n hn (hfreed n rfl) hflag
      | arena j =>
        obtain ⟨B, hB, rfl⟩ := ho
        exact harenas j B hB

theorem newArena_createPartition {capacity maxAlloc id : ℕ} {sys : Option ℕ}
    (hok : h.createPartition capacity maxAlloc sys = some (h', id)) :
    NewArena h h.partitions.length [] capacity sys h' := by
  obtain ⟨q, hh', hpar, ⟨hnodes, -⟩, harena⟩ := createPartition_ok hok
  refine ⟨?_, fun n => by rw [hh']; exact ⟨rfl, rfl⟩, by rw [hh'],
    fun j hj => by rw [hpar, if_neg hj], by rw [hpar, if_pos rfl]; exact harena⟩
  rintro n ⟨j, hn⟩
  rw [hpar] at hn
  split at hn
  · rw [hnodes] at hn
    exact absurd hn List.not_mem_nil
  · exact ⟨⟨j, hn⟩, List.not_mem_nil⟩

theorem newArena_removePartition {debug : Bool} {bytes : ℕ} {sys : Option ℕ} (hinv : h.MemInv)
    (hok : h.removePartition debug i sys = some (h', bytes)) :
    h' = h ∨ NewArena h i (h.par i).nodes (h.par i).arenaCapacity sys h' := by
  obtain rfl | ⟨hi, h₁, link, arena, log, hh₁, rfl, harena, heq⟩ := removePartition_ok hok
  · exact .inl rfl
  have hstore : h₁.store = h.store := hh₁ ▸ store_clearScopesOf
  have hi : i < h₁.partitions.length := by rwa [length_of_store hstore]
  have hcap : (h₁.par i).arenaCapacity = (h.par i).arenaCapacity :=
    (congrArg GcPartition.arenaCapacity (par_store_congr hstore i) :)
  obtain ⟨⟨hnodes, -⟩, hpar, hnew⟩ := par_of_torn heq
  have hhead : h'.head = h₁.head := by rw [heq]; rfl
  refine .inr ⟨?_, fun n => ?_, ?_, fun j hj => ?_, ?_⟩
  · rintro n ⟨j, hn⟩
    have hji : j ≠ i := by
      rintro rfl
      simp [hnodes] at hn
    rw [hpar j hji, nodes_of_store hstore] at hn
    exact ⟨⟨j, hn⟩, fun hni => hji ((hinv.own j n hn).symm.trans (hinv.own i n hni))⟩
  · rw [hhead]
    exact ⟨dtype_of_store hstore n, arenaAlloc_of_store hstore n⟩
  · rw [heq]
    exact (nodeDtypes_of_store hstore :)
  · rw [hpar j hj, arena_of_store hstore]
  · rw [hnew hi, ← hcap]
    exact harena

/-- A block is the new node's own one, or somebody had it before. -/
theorem Attached.holds {dtype : ℕ} {fromArena : Bool} {o : BlockOwner} {s : Span}
    (hatt : Attached h i dtype fromArena n h')
    (harena : fromArena = false ∨ ∃ A A' layout, (h.par i).arena = some A ∧
      A.alloc layout = some (n, A') ∧ (h'.par i).arena = some A') (ho : h'.Holds o s) :
    (fromArena = false ∧ o = .node n ∧ s = ⟨n, (h.typeInfo dtype).layoutSize⟩) ∨ h.Holds o s := by
  cases o with
  | node m =>
    obtain ⟨hm, hflag, rfl⟩ := ho
    by_cases hmn : m = n
    · subst hmn
      have hhead : h'.head m = .init i dtype fromArena := by rw [hatt.head, Function.update_self]
      rw [hhead] at hflag
      refine .inl ⟨hflag, rfl, ?_⟩
      rw [extent, info, hhead, hatt.types]
      rfl
    · have hhead : h'.head m = h.head m := by rw [hatt.head, Function.update_of_ne hmn]
      refine .inr ⟨(hatt.live_iff.mp hm).resolve_left hmn, hhead ▸ hflag, ?_⟩
      rw [extent, extent, info, info, hhead, hatt.types]
  | arena j =>
    obtain ⟨B, hB, rfl⟩ := ho
    right
    by_cases hj : j ≠ i ∨ fromArena = false
    · exact ⟨B, hatt.arena j hj ▸ hB, rfl⟩
    · push Not at hj
      obtain ⟨rfl, hfrom⟩ := hj
      obtain ⟨A, A', layout, hA, halloc, hA'⟩ := harena.resolve_left hfrom
      obtain rfl := Option.some.inj (hA'.symm.trans hB)
      exact ⟨A, hA, extent_congr (GcArena.alloc_region halloc)⟩

theorem Placed.attach {dtype : ℕ} {fromArena : Bool} (hp : h.Placed)
    (hatt : Attached h i dtype fromArena n h')
    (harena : fromArena = false ∨ ∃ A A' layout, (h.par i).arena = some A ∧
      A.alloc layout = some (n, A') ∧ (h'.par i).arena = some A')
    (hfree : fromArena = false → h.BlockFree [] ⟨n, (h.typeInfo dtype).layoutSize⟩) :
    h'.Placed := by
  cases hfrom : fromArena with
  | true =>
    refine hp.of_kept fun o s ho => (hatt.holds harena ho).resolve_left ?_
    rw [hfrom]
    exact fun hnew => nomatch hnew.1
  | false =>
    obtain ⟨hin, hnodes, harenas⟩ := hfree hfrom
    refine @Placed.of_new _ _ (.node n) _ hp hin fun o s ho => ?_
    rcases hatt.holds harena ho with ⟨-, hnew⟩ | ho
    · exact .inl hnew
    · refine .inr ⟨ho, fun _ => ?_⟩
      cases o with
      | node m =>
        obtain ⟨hlive, hflag, rfl⟩ := ho
        exact hnodes m hlive List.not_mem_nil hflag
      | arena j =>
        obtain ⟨B, hB, rfl⟩ := ho
        exact harenas j B hB

theorem extent_disposeNode (s : SweepState) (n : NodePtr) (j : ℕ) :
    ((s.disposeNode i n).heap.par j).arena.map GcArena.extent =
      (s.heap.par j).arena.map GcArena.extent := by
  unfold SweepState.disposeNode
  dsimp only
  split
  · next A _ hA =>
    rw [par_modifyPar]
    split
    · next hij =>
      rw [← hij.1, ← s.heap.arena_disposeNoDrop n, hA]
      exact congrArg some (extent_congr (GcArena.collectHole_region A _ _ _))
    · rw [arena_disposeNoDrop]
  · rw [arena_disposeNoDrop]

theorem extent_twoPhaseSweep (h : GcHeap) (i j : ℕ) :
    ((h.twoPhaseSweep i).1.par j).arena.map GcArena.extent =
      (h.par j).arena.map GcArena.extent := by
  have hfold : ∀ (l : List NodePtr) (s : SweepState),
      ((l.foldl (SweepState.disposeNode i) s).heap.par j).arena.map GcArena.extent =
        (s.heap.par j).arena.map GcArena.extent := by
    intro l
    induction l with
    | nil => exact fun _ => rfl
    | cons n l ih => exact fun s => (ih _).trans (extent_disposeNode s n j)
  obtain ⟨hstore, -⟩ | ⟨hdone, s, hs, heq⟩ := twoPhaseSweep_eq h i
  · rw [arena_of_store hstore]
  · have hdropped : ((h.dropped i).par j).arena = (h.par j).arena :=
      field_modifyPar GcPartition.arena fun _ => rfl
    have hs : (s.heap.par j).arena.map GcArena.extent = (h.par j).arena.map GcArena.extent := by
      rw [hs, hfold, hdropped]
    obtain ⟨f, hfsome, hfnone, hfinish⟩ := finishSweep_frame s.heap i s.holes
    rw [heq, hfinish, ← hs, par_modifyPar]
    split
    · next hij =>
      rw [← hij.1]
      cases hA : (s.heap.par i).arena with
      | none => rw [hfnone]
      | some A =>
        rw [hfsome]
        exact congrArg some (extent_congr (GcArena.finishSweep_region A _))
    · rfl

theorem holds_twoPhaseSweep {o : BlockOwner} {s : Span} :
    (h.twoPhaseSweep i).1.Holds o s → h.Holds o s := by
  obtain ⟨hhead, htypes, -⟩ := h.twoPhaseSweep_frame i
  refine holds_of_fields ?_ (fun n _ => by rw [hhead]; exact ⟨rfl, rfl⟩) htypes
    (h.extent_twoPhaseSweep i) o s
  rintro n ⟨j, hn⟩
  exact ⟨j, (mem_nodes_twoPhaseSweep.mp hn).1⟩

theorem holds_downgrade {w : GcWeakRawId} {o : BlockOwner} {s : Span}
    (hok : h.downgrade n = some (h', w)) : h'.Holds o s → h.Holds o s := by
  obtain ⟨slots, rfl⟩ := downgrade_frame hok
  intro ho
  refine holds_of_fields ?_ (fun m _ => ⟨?_, ?_⟩) ?_ ?_ o s ho
  · exact fun m hm => hm
  · exact field_modifyHead GcHead.dtype fun _ => rfl
  · exact field_modifyHead GcHead.arenaAlloc fun _ => rfl
  · rfl
  · exact fun j => rfl

end GcHeap

/-- The block that the system hands out. -/
def Op.handsOut (h : GcHeap) : Op → Option Span
  | .createPartition capacity _ sys => sys.map (Span.mk · capacity)
  | .allocRaw _ dtype _ sys | .allocRootRaw _ dtype _ sys | .allocLocal _ _ dtype _ sys =>
      sys.map (Span.mk · (h.typeInfo dtype).layoutSize)
  | .removePartition i sys => sys.map (Span.mk · (h.par i).arenaCapacity)
  | _ => none

theorem Op.handsOut_of_alloc {h : GcHeap} {op : Op} {dtype : ℕ} {n : NodePtr}
    (htype : op.allocType = some dtype) (hsys : op.allocSys = some n) :
    op.handsOut h = some ⟨n, (h.typeInfo dtype).layoutSize⟩ := by
  cases op with
  | allocRaw | allocRootRaw | allocLocal =>
    obtain rfl := Option.some.inj htype
    exact congrArg (Option.map _) hsys
  | _ => cases htype

namespace GcHeap

variable {h h' : GcHeap} {i j : ℕ} {n m : NodePtr}

/-- **A block in use** after a step was in use before, or the system has just handed it out. -/
theorem Holds.of_step {op : Op} {o : BlockOwner} {s : Span} (hinv : h.MemInv) (hst : Step h op h')
    (ho : h'.Holds o s) : h.Holds o s ∨ op.handsOut h = some s := by
  cases hst.store with
  | same heq => exact .inl (holds_of_store heq ho)
  | create hop hfresh hok =>
    subst hop
    rcases (newArena_createPartition hok).holds ho with ⟨-, hs⟩ | ⟨ho, -⟩
    · exact .inr hs
    · exact .inl ho
  | @alloc i dtype size payload skipArena sys h₁ n htype hsys hdtype hfresh hok heq =>
    obtain ⟨fromArena, hatt, hcases⟩ := allocNodeMem_attached hok
    have harena : fromArena = false ∨ ∃ A A' layout, (h.par i).arena = some A ∧
        A.alloc layout = some (n, A') ∧ ((h₁.attachNode i n).par i).arena = some A' := by
      rcases hcases with ⟨-, A, A', layout, hA, halloc, -, hA'⟩ | ⟨hfrom, -⟩
      · exact .inr ⟨A, A', layout, hA, halloc, hA'⟩
      · exact .inl hfrom
    rcases hatt.holds harena (holds_of_store heq ho) with ⟨hfrom, -, rfl⟩ | ho
    · rcases hcases with ⟨hfrom', -⟩ | ⟨-, hn⟩
      · rw [hfrom] at hfrom'
        cases hfrom'
      · exact .inr (Op.handsOut_of_alloc htype (hsys.trans hn))
    · exact .inl ho
  | sweep hop hstore heq =>
    rw [heq] at ho
    exact .inl (holds_of_store hstore (holds_twoPhaseSweep ho))
  | downgrade hop hn hok => exact .inl (holds_downgrade hok ho)
  | remove hop hfresh hok =>
    subst hop
    rcases newArena_removePartition hinv hok with rfl | hna
    · exact .inl ho
    · rcases hna.holds ho with ⟨-, hs⟩ | ⟨ho, -⟩
      · exact .inr hs
      · exact .inl ho

/-- **Every operation** keeps the blocks apart, if the system hands out free ones. -/
theorem Placed.step {op : Op} (hp : h.Placed) (hinv : h.MemInv) (hst : Step h op h')
    (hop : SystemMemory h op) : h'.Placed := by
  cases hst.store with
  | same heq => exact hp.congr heq
  | create hop' hfresh hok =>
    subst hop'
    exact hp.of_newArena hop (newArena_createPartition hok)
  | alloc htype hsys hdtype hfresh hok heq =>
    obtain ⟨fromArena, hatt, hcases⟩ := allocNodeMem_attached hok
    refine Placed.congr (hp.attach hatt ?_ fun hfrom => ?_) heq
    · rcases hcases with ⟨-, A, A', layout, hA, halloc, -, hA'⟩ | ⟨hfrom, -⟩
      · exact .inr ⟨A, A', layout, hA, halloc, hA'⟩
      · exact .inl hfrom
    · rcases hcases with ⟨hfrom', -⟩ | ⟨-, hn⟩
      · rw [hfrom] at hfrom'
        cases hfrom'
      · exact hop.alloc htype (hsys.trans hn)
  | sweep hop' hstore heq =>
    exact heq ▸ (hp.congr hstore).of_kept fun o s => holds_twoPhaseSweep
  | downgrade hop' hn hok => exact hp.of_kept fun o s => holds_downgrade hok
  | remove hop' hfresh hok =>
    subst hop'
    rcases newArena_removePartition hinv hok with rfl | hna
    · exact hp
    · exact hp.of_newArena hop hna

end GcHeap

open GcHeap in
theorem placed_of_reachable {C : GcHeap → Op → Prop} {h : GcHeap} (hr : ReachableWith C h)
    (hC : ∀ g op, C g op → SystemMemory g op) : h.Placed := by
  obtain ⟨registry, hr⟩ := hr
  refine (hr.invariant (I := fun h => h.MemInv ∧ h.Placed) (fun g op g' hg hst => ?_)
    ⟨MemInv.new registry, placed_new registry⟩).2
  exact ⟨hg.1.step hst.1, hg.2.step hg.1 hst.1 (hC _ _ hst.2)⟩

/-! ### Room for the nodes -/

namespace GcHeap

variable {h : GcHeap} {i : ℕ} {n m : NodePtr}

theorem mem_allNodes : n ∈ h.allNodes ↔ h.Live n := by
  rw [allNodes, List.mem_flatMap, live_iff]

namespace MemInv

/-- A node lies in its arena. -/
theorem extent_inside {A : GcArena} (hinv : h.MemInv) (hn : n ∈ (h.par i).nodes)
    (hA : (h.par i).arena = some A) (hflag : (h.head n).arenaAlloc = true) :
    A.extent.offset ≤ (h.extent n).offset ∧ (h.extent n).stop ≤ A.extent.stop := by
  obtain ⟨free, hAinv⟩ := hinv.arena i A hA
  have hblock : ⟨n, (h.info n).layoutSize⟩ ∈ h.blocksOf (h.par i).nodes :=
    mem_blocksOf.mpr ⟨n, hn, hflag, rfl⟩
  have hbase := hAinv.block_base _ hblock
  have hstop := hAinv.inside _ (GcArena.mem_spans.mpr (.inl ⟨_, hblock, rfl⟩))
  have hbump := hAinv.bump_le
  simp only [Block.span, Span.stop, GcArena.extent, extent] at *
  omega

/-- Two nodes of an arena lie apart. -/
theorem extent_apart {A : GcArena} (hinv : h.MemInv) (hne : n ≠ m) (hn : n ∈ (h.par i).nodes)
    (hm : m ∈ (h.par i).nodes) (hA : (h.par i).arena = some A)
    (hflag : (h.head n).arenaAlloc = true) (hflag' : (h.head m).arenaAlloc = true) :
    (h.extent n).Disjoint (h.extent m) := by
  obtain ⟨free, hAinv⟩ := hinv.arena i A hA
  have hblock : ⟨n, (h.info n).layoutSize⟩ ∈ h.blocksOf (h.par i).nodes :=
    mem_blocksOf.mpr ⟨n, hn, hflag, rfl⟩
  have hblock' : ⟨m, (h.info m).layoutSize⟩ ∈ h.blocksOf (h.par i).nodes :=
    mem_blocksOf.mpr ⟨m, hm, hflag', rfl⟩
  have hbase := hAinv.block_base _ hblock
  have hbase' := hAinv.block_base _ hblock'
  have hdisj := hAinv.apart.disjoint (GcArena.mem_spans.mpr (.inl ⟨_, hblock, rfl⟩))
    (GcArena.mem_spans.mpr (.inl ⟨_, hblock', rfl⟩)) fun heq => by
      have heq : n - A.base = m - A.base := congrArg Span.offset heq
      exact hne <| calc
        n = n - A.base + A.base := (Nat.sub_add_cancel hbase).symm
        _ = m - A.base + A.base := by rw [heq]
        _ = m := Nat.sub_add_cancel hbase'
  simp only [Span.Disjoint, Block.span, Span.stop, extent] at *
  omega

/-- Every node lies in a block of the system's, its own one or that of its partition's arena. -/
theorem exists_block (hinv : h.MemInv) (hn : h.Live n) : ∃ o s, h.Holds o s ∧
    (s.offset ≤ (h.extent n).offset ∧ (h.extent n).stop ≤ s.stop) ∧
    (o = .node n ∨ ∃ i A, o = .arena i ∧ (h.par i).arena = some A ∧ n ∈ (h.par i).nodes ∧
      (h.head n).arenaAlloc = true) := by
  obtain ⟨i, hni⟩ := id hn
  cases hflag : (h.head n).arenaAlloc with
  | false => exact ⟨.node n, _, ⟨hn, hflag, rfl⟩, ⟨le_rfl, le_rfl⟩, .inl rfl⟩
  | true =>
    cases hA : (h.par i).arena with
    | none =>
      rw [hinv.no_arena i hA n hni] at hflag
      cases hflag
    | some A =>
      exact ⟨.arena i, _, ⟨A, hA, rfl⟩, hinv.extent_inside hni hA hflag,
        .inr ⟨i, A, rfl, hA, hni, rfl⟩⟩

theorem apart_extent (hinv : h.MemInv) (hp : h.Placed) (hne : n ≠ m) (hn : h.Live n)
    (hm : h.Live m) : (h.extent n).Disjoint (h.extent m) := by
  obtain ⟨o, s, ho, hs, hcase⟩ := hinv.exists_block hn
  obtain ⟨o', s', ho', hs', hcase'⟩ := hinv.exists_block hm
  by_cases hoo : o = o'
  · rcases hcase with rfl | ⟨i, A, rfl, hA, hni, hflag⟩
    · rcases hcase' with rfl | ⟨i, A, rfl, -⟩
      · exact absurd (BlockOwner.node.inj hoo) hne
      · cases hoo
    · rcases hcase' with rfl | ⟨j, B, rfl, hB, hmj, hflag'⟩
      · cases hoo
      · obtain rfl := BlockOwner.arena.inj hoo
        exact hinv.extent_apart hne hni hmj hA hflag hflag'
  · exact (hp.apart o o' s s' hoo ho ho').mono hs hs'

theorem nodup_allNodes (hinv : h.MemInv) : h.allNodes.Nodup := by
  refine List.nodup_flatMap.mpr
    ⟨fun q hq => ?_, List.pairwise_iff_getElem.mpr fun i j hi hj hij => ?_⟩
  · obtain ⟨i, hi, rfl⟩ := List.getElem_of_mem hq
    simpa [par, hi] using hinv.nodup i
  · refine List.disjoint_left.mpr fun n hn hm => Nat.ne_of_lt hij ?_
    have hni := hinv.own i n (by simpa [par, hi] using hn)
    have hnj := hinv.own j n (by simpa [par, hj] using hm)
    exact hni.symm.trans hnj

/-- All live nodes have room between the null pointer and the end of the last block. -/
theorem sum_size_le {top : ℕ} (hinv : h.MemInv) (hp : h.Placed)
    (htop : ∀ o s, h.Holds o s → s.stop ≤ top) :
    (h.allNodes.map fun n => (h.info n).layoutSize).sum ≤ top - 1 := by
  have hapart : Apart (h.allNodes.map h.extent) := by
    rw [Apart, List.pairwise_map]
    exact hinv.nodup_allNodes.imp_of_mem fun hn hm hne =>
      hinv.apart_extent hp hne (mem_allNodes.mp hn) (mem_allNodes.mp hm)
  have hle := hapart.sum_size_le (a := 1) (b := top) fun s hs => by
    obtain ⟨n, hn, rfl⟩ := List.mem_map.mp hs
    obtain ⟨o, s, ho, ⟨hoffset, hstop⟩, -⟩ := hinv.exists_block (mem_allNodes.mp hn)
    have hpos := (hp.inMemory o s ho).1
    exact ⟨Nat.succ_le_of_lt (Nat.lt_of_lt_of_le hpos hoffset), hstop.trans (htop o s ho)⟩
  rw [List.map_map] at hle
  exact hle

/-- **All live nodes have room in memory.** -/
theorem sum_size_lt (hinv : h.MemInv) (hp : h.Placed) :
    (h.allNodes.map fun n => (h.info n).layoutSize).sum < 2 ^ 64 :=
  Nat.lt_of_le_of_lt (hinv.sum_size_le hp fun o s ho => (hp.inMemory o s ho).2) (by decide)

end MemInv

end GcHeap

end GcLite
