import GcLite.Accounting
import GcLite.CollectionFrame
import GcLite.PackedHead
import GcLite.PartitionIds
import GcLite.WeakInvariant

/-!
# Runs on the words of the headers

Every operation of the heap writes headers through the methods of `GcHead` only, apart from the
header of a node that it allocates. So a run can be carried out on the words: there they stand for
the headers at every moment, no colour is ever invalid, and nothing but a new header is ever written
to the type, to the `ARENA_ALLOC` flag, to the partition id, to the sentinel and to the reserved
bits.

The words have room for 256 types and `2 ^ 16` partitions. The macro refuses larger type tables;
for more partitions see `partition_ids_faithful`.

## Main definitions

* `Op.mayCall` — the calls that an operation makes
* `Op.newNode` — the node whose header an operation writes
* `Rewrites` — headers change by calls
* `PackedStep` — a step of the heap, and of the words

## Main results

* `Step.rewrites` — an operation makes no other calls
* `packed_heads`
-/

namespace GcLite

open Transition

/-! ### Who calls what -/

/-- The calls that marking makes. -/
def HeadCall.isMarking : HeadCall → Bool
  | .setColor _ | .setGrayListed _ => true
  | _ => false

/-- The assignment that taking a weak handle makes. -/
def HeadCall.isWeak : HeadCall → Bool
  | .setWeakId _ => true
  | _ => false

/-- The calls that an operation may make. -/
def Op.mayCall (op : Op) (call : HeadCall) : Bool :=
  match op with
  | .allocRootRaw _ _ _ _ | .setRootNode _ => call.isMarking || call == .insertFlag .root
  | .allocLocal _ _ _ _ _ | .addNonLocal _ _ _ | .protectNode _ _ =>
      call.isMarking || call == .insertFlag .isLocal
  | .popScope _ | .removeNode _ _ _ | .clear _ _ | .removePartition _ _ =>
      call == .removeFlag .isLocal
  | .bind _ _ _ | .withWriteBarrier _ _ | .mark _ _ | .markReset _ | .garbageCollect _ =>
      call.isMarking
  | .downgrade _ => call.isWeak
  | _ => false

/-- A node whose header is written. -/
structure NewNode where
  /-- Its address. -/
  node : NodePtr
  /-- The partition that it is for. -/
  partitionId : ℕ
  /-- Its type. -/
  dtype : ℕ
  /-- Whether its block is an arena's. -/
  arenaAlloc : Bool

/-- The header. -/
def NewNode.head (b : NewNode) : GcHead := .init b.partitionId b.dtype b.arenaAlloc

/-- Its words. The ids are a `u16` and a `u8`. -/
def NewNode.words (b : NewNode) : PackedHead :=
  .init (.ofNat 16 b.partitionId) (.ofNat 8 b.dtype) b.arenaAlloc

/-- The new node of an allocation that succeeds. -/
def newNodeOf (i dtype : ℕ) (r : Except (GcError × Payload) (GcHeap × NodePtr)) : Option NewNode :=
  match r with
  | .ok (h, n) => some ⟨n, i, dtype, (h.head n).arenaAlloc⟩
  | .error _ => none

/-- The node that an operation allocates. -/
def Op.newNode (h : GcHeap) : Op → Option NewNode
  | .allocRaw i dtype payload sys => newNodeOf i dtype (h.allocRaw i dtype payload sys)
  | .allocRootRaw i dtype payload sys => newNodeOf i dtype (h.allocRootRaw i dtype payload sys)
  | .allocLocal stackId index dtype payload sys => (h.scopeAt stackId index).bind fun s =>
      newNodeOf s.partitionId dtype (h.allocLocal stackId index s dtype payload sys)
  | _ => none

/-- Headers, or their words, once that of a new node has been written. -/
def withNew {α : Type*} (f : NewNode → α) (heads : NodePtr → α) : Option NewNode → NodePtr → α
  | some b => Function.update heads b.node (f b)
  | none => heads

/-! ### Changes by calls -/

/-- Each header has changed by calls of a kind. -/
def Rewrites (C : HeadCall → Bool) (heads heads' : NodePtr → GcHead) : Prop :=
  ∀ n, ∃ calls : List HeadCall, (∀ call ∈ calls, C call = true) ∧
    heads' n = calls.foldl (fun hd call => call.effect hd) (heads n)

namespace Rewrites

variable {C D : HeadCall → Bool} {heads heads₁ heads' : NodePtr → GcHead} {n : NodePtr}

theorem refl (C : HeadCall → Bool) (heads : NodePtr → GcHead) : Rewrites C heads heads :=
  fun _ => ⟨[], nofun, rfl⟩

theorem of_eq (heq : heads' = heads) : Rewrites C heads heads' := heq ▸ refl C heads

theorem trans (hr : Rewrites C heads heads₁) (hr' : Rewrites C heads₁ heads') :
    Rewrites C heads heads' := by
  intro n
  obtain ⟨calls, hcalls, heq⟩ := hr n
  obtain ⟨calls', hcalls', heq'⟩ := hr' n
  refine ⟨calls ++ calls', fun call hcall => ?_, ?_⟩
  · exact (List.mem_append.mp hcall).elim (hcalls call) (hcalls' call)
  · rw [heq', heq, List.foldl_append]

theorem mono (hCD : ∀ call, C call = true → D call = true) (hr : Rewrites C heads heads') :
    Rewrites D heads heads' := fun n => by
  obtain ⟨calls, hcalls, heq⟩ := hr n
  exact ⟨calls, fun call hcall => hCD call (hcalls call hcall), heq⟩

/-- One call on one header. -/
theorem update (call : HeadCall) (hcall : C call = true) :
    Rewrites C heads (Function.update heads n (call.effect (heads n))) := by
  intro m
  by_cases hm : m = n
  · subst hm
    exact ⟨[call], by simpa using hcall, by simp⟩
  · exact ⟨[], nofun, by simp [hm]⟩

/-- Marking changes colours and list flags. -/
theorem of_unmarked (hheads : ∀ n, (heads' n).unmarked = (heads n).unmarked) :
    Rewrites HeadCall.isMarking heads heads' := by
  intro n
  refine ⟨[.setColor (heads' n).color, .setGrayListed (heads' n).grayListed],
    fun call hcall => ?_, ?_⟩
  · simp only [List.mem_cons, List.not_mem_nil, or_false] at hcall
    rcases hcall with rfl | rfl <;> rfl
  · have hn := hheads n
    simp only [GcHead.unmarked, GcHead.mk.injEq] at hn
    obtain ⟨hdtype, -, harena, -, hroot, hlocal, hvisited, hpid, hweak⟩ := hn
    change heads' n = ⟨(heads n).dtype, (heads' n).color, (heads n).arenaAlloc,
      (heads' n).grayListed, (heads n).isRoot, (heads n).isLocal, (heads n).traverseVisited,
      (heads n).partitionId, (heads n).weakId⟩
    rw [← hdtype, ← harena, ← hroot, ← hlocal, ← hvisited, ← hpid, ← hweak]

end Rewrites

namespace GcHeap

variable {h h' : GcHeap} {i j k : ℕ} {n m : NodePtr}

/-! ### The operations -/

theorem rewrites_marking
    (heq : (h'.store, h'.scopeStacks, h'.refs, fun n => (h'.head n).unmarked) =
      (h.store, h.scopeStacks, h.refs, fun n => (h.head n).unmarked)) :
    Rewrites HeadCall.isMarking h.head h'.head :=
  .of_unmarked fun n => congrFun (congrArg (fun x => x.2.2.2) heq) n

theorem rewrites_clearLocalFlag (l : List NodePtr) : ∀ h : GcHeap,
    Rewrites (· == .removeFlag .isLocal) h.head (l.foldl clearLocalFlag h).head := by
  induction l with
  | nil => exact fun h => .refl _ _
  | cons n l ih =>
    exact fun h => .trans (.update (.removeFlag .isLocal) (beq_self_eq_true _)) (ih _)

theorem rewrites_clear (s : GcScopeState) :
    Rewrites (· == .removeFlag .isLocal) h.head (h.clear i j s).head :=
  rewrites_clearLocalFlag (s.cache.getD []) (h.modifyScope i j fun s => { s with cache := none })

theorem rewrites_popScope : Rewrites (· == .removeFlag .isLocal) h.head (h.popScope i).head := by
  unfold popScope
  split
  · exact rewrites_clear _
  · exact .refl _ _

theorem rewrites_removeNode (s : GcScopeState) :
    Rewrites (· == .removeFlag .isLocal) h.head (h.removeNode i j s n).head := by
  unfold removeNode
  split
  · exact .update (.removeFlag .isLocal) (beq_self_eq_true _)
  · exact .refl _ _

theorem rewrites_clearScopesOf :
    Rewrites (· == .removeFlag .isLocal) h.head (h.clearScopesOf i).head := by
  have hfold : ∀ (ks : List ℕ) (h : GcHeap), Rewrites (· == .removeFlag .isLocal) h.head
      (ks.foldl (fun h stackId =>
        if (h.stack stackId).partition = some i then h.clearStack stackId else h) h).head := by
    intro ks
    induction ks with
    | nil => exact fun h => .refl _ _
    | cons k ks ih =>
      intro h
      refine .trans ?_ (ih _)
      dsimp only
      split
      · exact rewrites_clearLocalFlag _ (h.modifyStack k fun st =>
          { st with list := st.list.map fun s => { s with cache := none } })
      · exact .refl _ _
  exact hfold _ h

theorem rewrites_addNode (s : GcScopeState) :
    Rewrites (fun call => call.isMarking || call == .insertFlag .isLocal) h.head
      (h.addNode i j s n).head := by
  have hset : Rewrites (fun call => call.isMarking || call == .insertFlag .isLocal) h.head
      (h.modifyHead n fun hd => { hd with isLocal := true }).head :=
    .update (.insertFlag .isLocal) (by decide)
  have hgray : ∀ h₁ : GcHeap, Rewrites (fun call => call.isMarking || call == .insertFlag .isLocal)
      h₁.head (h₁.parAddGrayNode s.partitionId n).head := fun h₁ =>
    .mono (fun _ hcall => by rw [hcall, Bool.true_or])
      (rewrites_marking markFrame_unmarked.parAddGrayNode)
  unfold addNode
  dsimp only
  split
  · exact hset.trans (hgray _)
  · exact hset

theorem rewrites_addNonLocal (s : GcScopeState) :
    Rewrites (fun call => call.isMarking || call == .insertFlag .isLocal) h.head
      (h.addNonLocal i j s n).head := by
  unfold addNonLocal
  split
  · exact .refl _ _
  · exact rewrites_addNode s

theorem rewrites_setRootNode :
    Rewrites (fun call => call.isMarking || call == .insertFlag .root) h.head
      (h.setRootNode n).head := by
  have hset : Rewrites (fun call => call.isMarking || call == .insertFlag .root) h.head
      (h.modifyHead n fun hd => { hd with isRoot := true }).head :=
    .update (.insertFlag .root) (by decide)
  unfold setRootNode
  split
  · exact .refl _ _
  · dsimp only
    split
    · exact hset.trans (.mono (fun _ hcall => by rw [hcall, Bool.true_or])
        (rewrites_marking markFrame_unmarked.parAddGrayNode))
    · exact hset

theorem rewrites_withWriteBarrier (payload : Payload → Payload) :
    Rewrites HeadCall.isMarking h.head (h.withWriteBarrier n payload).head := by
  have hgray : Rewrites HeadCall.isMarking h.head ((h.setColor n .gray).addGrayNode n).head :=
    rewrites_marking (markFrame_unmarked.addGrayNode.trans (markFrame_unmarked.color h n .gray))
  unfold withWriteBarrier
  dsimp only
  split
  · split
    · exact hgray
    · exact .refl _ _
  · exact .refl _ _

theorem rewrites_removePartition {debug : Bool} {bytes : ℕ} {sys : Option ℕ}
    (hok : h.removePartition debug i sys = some (h', bytes)) :
    Rewrites (· == .removeFlag .isLocal) h.head h'.head := by
  obtain rfl | ⟨-, h₁, link, arena, log, rfl, -, -, rfl⟩ := removePartition_ok hok
  · exact .refl _ _
  · exact rewrites_clearScopesOf

/-- The handle that is written fits its word. -/
theorem rewrites_downgrade {w : GcWeakRawId} (hinv : h.WeakInv)
    (hok : h.downgrade n = some (h', w)) : Rewrites HeadCall.isWeak h.head h'.head := by
  rcases downgrade_ok hok with ⟨-, rfl, -⟩ | hclaims
  · exact .refl _ _
  · have hlen : h.weakSlots.length < 2 ^ 24 - 1 := by
      by_contra hlen
      rw [downgrade, hclaims.null, if_neg (by simp), if_pos (Nat.le_of_not_lt hlen)] at hok
      cases hok
    have hslot : h.freeSlot ≤ h.weakSlots.length := List.findIdx_le_length
    have hversion := bumpVersion_lt hinv.freeVersion_lt
    have hraw : w.raw < 2 ^ 32 := by
      rw [hclaims.handle, GcWeakRawId.raw_new hversion]
      omega
    have hw : (⟨(BitVec.ofNat 32 w.raw).toNat⟩ : GcWeakRawId) = w := by
      rw [BitVec.toNat_ofNat, Nat.mod_eq_of_lt hraw]
    obtain ⟨slots, rfl⟩ := downgrade_frame hok
    have hcall : Rewrites HeadCall.isWeak h.head (Function.update h.head n
        ((HeadCall.setWeakId (BitVec.ofNat 32 w.raw)).effect (h.head n))) := .update _ rfl
    rw [HeadCall.effect, hw] at hcall
    exact hcall

theorem rewrites_protectNode :
    Rewrites (fun call => call.isMarking || call == .insertFlag .isLocal) h.head
      (h.protectNode i n).head := by
  unfold protectNode
  split
  · exact rewrites_addNonLocal _
  · exact .refl _ _

theorem head_promoteNodeTo (s : GcScopeState) (k l : ℕ) :
    (h.promoteNodeTo i j s n k l).head = h.head := by
  unfold promoteNodeTo
  split <;> rfl

theorem rewrites_garbageCollect {bytes : ℕ} (hgc : h.garbageCollect i = some (h', bytes)) :
    Rewrites HeadCall.isMarking h.head h'.head := by
  obtain ⟨-, rfl, -⟩ | ⟨h₁, hsame, hsweep⟩ := markFrame_unmarked.garbageCollect hgc
  · exact .refl _ _
  · have hhead := (h₁.twoPhaseSweep_frame i).1
    rw [hsweep] at hhead
    rw [hhead]
    exact rewrites_marking hsame

/-! ### A new header -/

theorem head_allocRaw {dtype : ℕ} {payload : Payload} {sys : Option NodePtr}
    (hok : h.allocRaw i dtype payload sys = .ok (h', n)) :
    h'.head = Function.update h.head n (.init i dtype (h'.head n).arenaAlloc) := by
  obtain ⟨h₁, size, hmem, rfl⟩ := allocRaw_ok hok
  obtain ⟨fromArena, hatt, -⟩ := allocNodeMem_attached hmem
  rw [hatt.head, Function.update_self]
  rfl

theorem rewrites_allocRootRaw {dtype : ℕ} {payload : Payload} {sys : Option NodePtr}
    (hok : h.allocRootRaw i dtype payload sys = .ok (h', n)) :
    Rewrites (fun call => call.isMarking || call == .insertFlag .root)
      (Function.update h.head n (.init i dtype (h'.head n).arenaAlloc)) h'.head := by
  obtain ⟨h₀, h₂, size, hmem, hh₂, hh'⟩ := allocRootRaw_ok hok
  obtain ⟨fromArena, hatt, -⟩ := allocNodeMem_attached hmem
  have hhead : h₀.head = Function.update h.head n (.init i dtype fromArena) := hatt.head
  have hroot : Rewrites (fun call => call.isMarking || call == .insertFlag .root) h₀.head
      h₂.head := by
    rw [hh₂]
    exact .update (.insertFlag .root) (by decide)
  have hgray : Rewrites (fun call => call.isMarking || call == .insertFlag .root) h₂.head
      (h₂.parAddGrayNode i n).head :=
    .mono (fun _ hcall => by rw [hcall, Bool.true_or])
      (rewrites_marking markFrame_unmarked.parAddGrayNode)
  have hflag₂ : (h₂.head n).arenaAlloc = fromArena := by
    rw [hh₂]
    change ((h₀.modifyHead n fun hd => { hd with isRoot := true }).head n).arenaAlloc = fromArena
    rw [head_modifyHead_self, hhead, Function.update_self]
    rfl
  have hflag : (h'.head n).arenaAlloc = fromArena := by
    rw [hh', ← hflag₂]
    split
    · exact arenaAlloc_of_store store_parAddGrayNode n
    · rfl
  rw [hflag, ← hhead, hh']
  split
  · exact hroot.trans hgray
  · exact hroot

theorem rewrites_allocLocal {dtype : ℕ} {payload : Payload} {sys : Option NodePtr}
    (s : GcScopeState) (hok : h.allocLocal j k s dtype payload sys = .ok (h', n)) :
    Rewrites (fun call => call.isMarking || call == .insertFlag .isLocal)
      (Function.update h.head n (.init s.partitionId dtype (h'.head n).arenaAlloc)) h'.head := by
  obtain ⟨h₁, hraw, rfl⟩ := allocLocal_ok hok
  rw [arenaAlloc_of_store (store_addNode s) n, ← head_allocRaw hraw]
  exact rewrites_addNode s

end GcHeap

/-- **Every step** changes headers by the calls that its operation makes. -/
theorem Step.rewrites {h h' : GcHeap} {op : Op} (hinv : h.WeakInv) (hst : Step h op h') :
    Rewrites op.mayCall (withNew NewNode.head h.head (op.newNode h)) h'.head := by
  obtain ⟨hpre, hexec⟩ := hst
  cases op with
  | createPartition =>
    obtain ⟨⟨h₁, id⟩, hok, rfl⟩ := Option.map_eq_some_iff.mp hexec
    obtain ⟨q, rfl, -⟩ := GcHeap.createPartition_ok hok
    exact .refl _ _
  | allocRaw i dtype payload sys =>
    cases hexec
    rw [Op.newNode]
    cases hr : h.allocRaw i dtype payload sys with
    | error e => exact .refl _ _
    | ok r => exact .of_eq (GcHeap.head_allocRaw hr)
  | allocRootRaw i dtype payload sys =>
    cases hexec
    rw [Op.newNode]
    cases hr : h.allocRootRaw i dtype payload sys with
    | error e => exact .refl _ _
    | ok r => exact GcHeap.rewrites_allocRootRaw hr
  | allocLocal stackId index dtype payload sys =>
    obtain ⟨s, hs, rfl⟩ := Option.map_eq_some_iff.mp hexec
    rw [Op.newNode, hs, Option.bind_some]
    cases hr : h.allocLocal stackId index s dtype payload sys with
    | error e => exact .refl _ _
    | ok r => exact GcHeap.rewrites_allocLocal s hr
  | addNonLocal =>
    obtain ⟨s, -, rfl⟩ := Option.map_eq_some_iff.mp hexec
    exact GcHeap.rewrites_addNonLocal s
  | protectNode =>
    cases hexec
    exact GcHeap.rewrites_protectNode
  | popScope =>
    cases hexec
    exact GcHeap.rewrites_popScope
  | removeNode =>
    obtain ⟨s, -, rfl⟩ := Option.map_eq_some_iff.mp hexec
    exact GcHeap.rewrites_removeNode s
  | promoteNodeTo =>
    obtain ⟨s, -, rfl⟩ := Option.map_eq_some_iff.mp hexec
    exact .of_eq (GcHeap.head_promoteNodeTo s _ _)
  | clear =>
    obtain ⟨s, -, rfl⟩ := Option.map_eq_some_iff.mp hexec
    exact GcHeap.rewrites_clear s
  | setRootNode =>
    cases hexec
    exact GcHeap.rewrites_setRootNode
  | bind master slave payload =>
    cases hexec
    have hbind : Rewrites HeadCall.isMarking (h.setRefs master payload).head
        ((h.setRefs master payload).bind master slave).head :=
      GcHeap.rewrites_marking GcHeap.markFrame_unmarked.bind
    exact hbind
  | withWriteBarrier =>
    cases hexec
    exact GcHeap.rewrites_withWriteBarrier _
  | removeRefs =>
    cases hexec
    exact .refl _ _
  | mark i k =>
    cases hexec
    exact GcHeap.rewrites_marking (GcHeap.markFrame_unmarked.mark k)
  | markReset =>
    cases hexec
    exact GcHeap.rewrites_marking GcHeap.markFrame_unmarked.markReset
  | sweep i =>
    cases hexec
    exact .of_eq (h.twoPhaseSweep_frame i).1
  | garbageCollect =>
    obtain ⟨⟨h₁, bytes⟩, hgc, rfl⟩ := Option.map_eq_some_iff.mp hexec
    exact GcHeap.rewrites_garbageCollect hgc
  | downgrade =>
    obtain ⟨⟨h₁, w⟩, hok, rfl⟩ := Option.map_eq_some_iff.mp hexec
    exact GcHeap.rewrites_downgrade hinv hok
  | removePartition =>
    obtain ⟨⟨h₁, bytes⟩, hok, rfl⟩ := Option.map_eq_some_iff.mp hexec
    exact GcHeap.rewrites_removePartition hok
  | acquireScopeStack | releaseScopeStack | newScope | setMemoryLimit | setGcThreshold =>
    obtain ⟨limit, threshold, scopes, rfl⟩ := exec_bookkeeping rfl hexec
    exact .refl _ _

/-! ### The words -/

/-- A step of the heap and of the words of its headers: those of a new node are written, and then
the operation makes its calls. -/
def PackedStep (g : GcHeap × (NodePtr → PackedHead)) (op : Op)
    (g' : GcHeap × (NodePtr → PackedHead)) : Prop :=
  Step g.1 op g'.1 ∧ ∀ n, ∃ calls : List HeadCall, (∀ call ∈ calls, op.mayCall call = true) ∧
    g'.2 n = calls.foldl (fun p call => call.run p)
      (withNew NewNode.words g.2 (op.newNode g.1) n)

/-- The words stand for the headers. -/
def Stands (words : NodePtr → PackedHead) (heads : NodePtr → GcHead) : Prop :=
  ∀ n, (words n).unpack = some (heads n)

/-- They do, with the sentinel and the reserved bits in place. -/
def Represents (g : GcHeap × (NodePtr → PackedHead)) : Prop :=
  ∀ n, (g.2 n).unpack = some (g.1.head n) ∧ (g.2 n).Sealed

theorem PackedHead.unpack_foldl (calls : List HeadCall) : ∀ {p : PackedHead} {hd : GcHead},
    p.unpack = some hd → (calls.foldl (fun p call => call.run p) p).unpack =
      some (calls.foldl (fun hd call => call.effect hd) hd) := by
  induction calls with
  | nil => exact fun hp => hp
  | cons call calls ih => exact fun hp => ih (PackedHead.unpack_run call hp)

theorem PackedHead.Sealed.foldl (calls : List HeadCall) : ∀ {p : PackedHead}, p.Sealed →
    (calls.foldl (fun p call => call.run p) p).Sealed := by
  induction calls with
  | nil => exact fun hp => hp
  | cons call calls ih => exact fun hp => ih (hp.run call)

variable {words words' : NodePtr → PackedHead} {heads heads' : NodePtr → GcHead}
  {h h' : GcHeap} {op : Op} {ops : List Op} {registry : GcTypeRegistry}

/-- What calls do to the headers, they do to the words. -/
theorem Stands.rewrites {C : HeadCall → Bool} (hs : Stands words heads)
    (hr : Rewrites C heads heads') : ∃ words', Stands words' heads' ∧
      ∀ n, ∃ calls : List HeadCall, (∀ call ∈ calls, C call = true) ∧
        words' n = calls.foldl (fun p call => call.run p) (words n) := by
  choose calls hcalls heq using hr
  refine ⟨fun n => (calls n).foldl (fun p call => call.run p) (words n), fun n => ?_,
    fun n => ⟨calls n, hcalls n, rfl⟩⟩
  rw [heq]
  exact PackedHead.unpack_foldl (calls n) (hs n)

/-- A new header whose ids have room. -/
theorem Stands.withNew {b : Option NewNode} (hs : Stands words heads)
    (hb : ∀ b', b = some b' → b'.partitionId < 2 ^ 16 ∧ b'.dtype < 2 ^ 8) :
    Stands (withNew NewNode.words words b) (GcLite.withNew NewNode.head heads b) := by
  cases b with
  | none => exact hs
  | some b =>
    obtain ⟨hpid, hdtype⟩ := hb b rfl
    intro n
    by_cases hn : n = b.node
    · subst hn
      simp only [GcLite.withNew, Function.update_self, NewNode.words, NewNode.head,
        PackedHead.unpack_init, BitVec.toNat_ofNat, Nat.mod_eq_of_lt hpid,
        Nat.mod_eq_of_lt hdtype]
    · simpa [GcLite.withNew, hn] using hs n

/-- There is a new node only if the allocation succeeds, and its ids are those asked for. -/
theorem newNodeOf_eq_some {i dtype : ℕ} {r : Except (GcError × Payload) (GcHeap × NodePtr)}
    {b : NewNode} (hb : newNodeOf i dtype r = some b) :
    b.partitionId = i ∧ b.dtype = dtype ∧ ∃ h' n, r = .ok (h', n) := by
  cases r with
  | error e => cases hb
  | ok r =>
    obtain rfl := Option.some.inj hb
    exact ⟨rfl, rfl, r.1, r.2, rfl⟩

/-- The ids of a new node are those of a partition and of a type. -/
theorem Step.newNode_lt (hst : Step h op h') {b : NewNode} (hb : op.newNode h = some b) :
    b.partitionId < h.partitions.length ∧ b.dtype < h.nodeDtypes.typeInfoList.length := by
  obtain ⟨hpre, -⟩ := hst
  cases op with
  | allocRaw i dtype payload sys =>
    obtain ⟨hi, hdtype, -⟩ := newNodeOf_eq_some hb
    exact ⟨hi ▸ hpre.1, hdtype ▸ hpre.2.1⟩
  | allocRootRaw i dtype payload sys =>
    obtain ⟨hi, hdtype, -⟩ := newNodeOf_eq_some hb
    exact ⟨hi ▸ hpre.1, hdtype ▸ hpre.2.1⟩
  | allocLocal stackId index dtype payload sys =>
    obtain ⟨s, hs, hb⟩ := Option.bind_eq_some_iff.mp hb
    obtain ⟨hi, hdtype, h₁, n, hok⟩ := newNodeOf_eq_some hb
    obtain ⟨_, hraw, -⟩ := GcHeap.allocLocal_ok hok
    obtain ⟨_, _, hmem, -⟩ := GcHeap.allocRaw_ok hraw
    exact ⟨hi ▸ (GcHeap.allocNodeMem_ok hmem).1, hdtype ▸ hpre.1⟩
  | _ => cases hb

/-- What holds in every run of the heap and the words of its headers. -/
structure Packed (registry : GcTypeRegistry) (g : GcHeap × (NodePtr → PackedHead)) : Prop where
  /-- The heap's bookkeeping of memory is in order. -/
  mem : g.1.MemInv
  /-- So is that of its weak handles. -/
  weak : g.1.WeakInv
  /-- No operation changes the registry. -/
  types : g.1.nodeDtypes = registry
  /-- The words stand for the headers. -/
  stands : Stands g.2 g.1.head
  /-- The other bits are in place. -/
  sealed : ∀ n, (g.2 n).Sealed

/-- An address that has never had a header is taken to have a blank one. -/
def blankWords : NodePtr → PackedHead := fun _ => .blank 0

theorem Packed.new (registry : GcTypeRegistry) :
    Packed registry (GcHeap.new registry, blankWords) := by
  have hblank : (PackedHead.blank 0).unpack = some default := by decide
  have hseal : (PackedHead.blank 0).Sealed := by decide
  exact ⟨.new registry, .new registry, rfl, fun _ => hblank, fun _ => hseal⟩

/-- **One step**, as long as the ids have room. -/
theorem Packed.step {g : GcHeap × (NodePtr → PackedHead)} (hg : Packed registry g)
    (htypes : registry.typeInfoList.length ≤ 2 ^ 8) (hparts : g.1.partitions.length ≤ 2 ^ 16)
    (hst : Step g.1 op h') :
    ∃ words', PackedStep g op (h', words') ∧ Packed registry (h', words') := by
  have hroom : ∀ b, op.newNode g.1 = some b → b.partitionId < 2 ^ 16 ∧ b.dtype < 2 ^ 8 := by
    intro b hb
    obtain ⟨hpid, hdtype⟩ := hst.newNode_lt hb
    rw [hg.types] at hdtype
    exact ⟨Nat.lt_of_lt_of_le hpid hparts, Nat.lt_of_lt_of_le hdtype htypes⟩
  obtain ⟨words', hstands, hcalls⟩ := (hg.stands.withNew hroom).rewrites (hst.rewrites hg.weak)
  have hseal : ∀ n, (withNew NewNode.words g.2 (op.newNode g.1) n).Sealed := by
    intro n
    cases hb : op.newNode g.1 with
    | none => exact hg.sealed n
    | some b =>
      by_cases hn : n = b.node
      · subst hn
        rw [withNew, Function.update_self]
        exact PackedHead.sealed_init _ _ _
      · rw [withNew, Function.update_of_ne hn]
        exact hg.sealed n
  refine ⟨words', ⟨hst, hcalls⟩, hg.mem.step hst, hg.weak.step hg.mem hst,
    hst.nodeDtypes.trans hg.types, hstands, fun n => ?_⟩
  obtain ⟨calls, -, heq⟩ := hcalls n
  change (words' n).Sealed
  rw [heq]
  exact (hseal n).foldl calls

/-- A run, as long as the ids have room. -/
theorem Packed.run {h₀ : GcHeap} {words₀ : NodePtr → PackedHead}
    (htypes : registry.typeInfoList.length ≤ 2 ^ 8) (hrun : Run Step h₀ ops h)
    (hparts : h₀.partitions.length + ops.countP Op.isCreate ≤ 2 ^ 16)
    (hg : Packed registry (h₀, words₀)) :
    ∃ words, Run (fun g op g' => PackedStep g op g' ∧ Packed registry g') (h₀, words₀) ops
        (h, words) ∧ Packed registry (h, words) := by
  induction hrun generalizing words₀ with
  | nil h₀ => exact ⟨words₀, .nil _, hg⟩
  | @cons h₀ h₁ h op ops hst _ ih =>
    rw [List.countP_cons] at hparts
    have hroom : h₀.partitions.length ≤ 2 ^ 16 := by omega
    obtain ⟨words₁, hstep, hg₁⟩ := hg.step htypes hroom hst
    have hlen₁ := hst.length
    obtain ⟨words, hrun, hg'⟩ := ih (by omega) hg₁
    exact ⟨words, .cons ⟨hstep, hg₁⟩ hrun, hg'⟩

end GcLite
