import GcLite.Library.Mirror
import GcLite.MemInvariant

/-!
# Scopes and the `LOCAL` flag

A node in the cache of a scope has the `LOCAL` flag, a live node with the flag is in the cache of
exactly one scope, and in no cache is a node twice. So long as no partition is torn down, every
operation keeps this.

## Main definitions

* `GcHeap.cached` — the nodes in the caches of all scopes
* `GcHeap.ScopeInv` — the flags mirror the caches
* `KeepsPartitions` — runs without teardown

## Main results

* `scopeInv_step` — every operation but teardown keeps the invariant
* `scopeInv_of_reachable` — so it holds in every run without teardown
-/

namespace GcLite

open Transition

/-- The nodes in the caches of a stack. -/
def ScopeStack.cached (st : ScopeStack) : List NodePtr := st.list.flatMap fun s => s.cache.getD []

/-! ### Lists of caches -/

/-- Changing one entry of a list of lists changes its share of the elements. -/
theorem flatMap_modify_perm {α β : Type*} (g : β → List α) {L : List β} {i : ℕ} {b : β}
    (hb : L[i]? = some b) : ∃ rest : List α, (L.flatMap g).Perm (g b ++ rest) ∧
      ∀ f : β → β, ((L.modify i f).flatMap g).Perm (g (f b) ++ rest) := by
  induction L generalizing i with
  | nil => simp at hb
  | cons a L ih =>
    cases i with
    | zero =>
      obtain rfl : a = b := by simpa using hb
      exact ⟨L.flatMap g, .refl _, fun f => .refl _⟩
    | succ i =>
      obtain ⟨rest, hperm, hmod⟩ := ih (by simpa using hb)
      refine ⟨g a ++ rest, ?_, fun f => ?_⟩
      · exact (hperm.append_left (g a)).trans (List.perm_append_comm_assoc _ _ _)
      · exact ((hmod f).append_left (g a)).trans (List.perm_append_comm_assoc _ _ _)

theorem flatMap_modify_eq {α β : Type*} {g : β → List α} {f : β → β} (hf : ∀ b, g (f b) = g b)
    (L : List β) (i : ℕ) : (L.modify i f).flatMap g = L.flatMap g := by
  induction L generalizing i with
  | nil => simp
  | cons a L ih =>
    cases i with
    | zero => simp [hf]
    | succ i => simp [ih]

theorem dropLast_modify_length {β : Type*} (init : List β) (b : β) (g : β → β) :
    ((init ++ [b]).modify init.length g).dropLast = init := by
  refine List.ext_getElem? fun j => ?_
  rw [List.getElem?_dropLast, List.length_modify, List.length_append, List.length_singleton]
  split
  · next hj =>
    have hne : init.length ≠ j := by omega
    rw [List.getElem?_modify_ne _ _ hne, List.getElem?_append_left (by omega)]
  · next hj => rw [List.getElem?_eq_none (by omega)]

/-- `Vec::swap_remove` removes the element. -/
theorem swapRemove_perm {l : List NodePtr} {n : NodePtr} (hn : n ∈ l) :
    (n :: swapRemove l (l.idxOf n)).Perm l := by
  have hlt := List.idxOf_lt_length_of_mem hn
  have hget : l[l.idxOf n] = n := List.getElem_idxOf hlt
  generalize l.idxOf n = i at hlt hget
  obtain ⟨init, last, rfl⟩ := List.eq_nil_or_concat' l |>.resolve_left (by
    rintro rfl
    exact absurd hn List.not_mem_nil)
  rw [swapRemove, List.getLastD_concat]
  by_cases hi : i < init.length
  · rw [List.set_append_left _ _ hi, List.dropLast_concat]
    rw [List.getElem_append_left hi] at hget
    refine (((List.set_perm_cons_eraseIdx hi last).cons n).trans (.swap _ _ _)).trans ?_
    have hinit := List.getElem_cons_eraseIdx_perm hi
    rw [hget] at hinit
    exact (hinit.cons last).trans (List.perm_append_singleton last init).symm
  · obtain rfl : i = init.length := by
      rw [List.length_append, List.length_singleton] at hlt
      omega
    rw [List.set_append_right _ _ (Nat.le_refl _)]
    simp only [Nat.sub_self, List.set_cons_zero, List.dropLast_concat]
    rw [List.getElem_append_right (Nat.le_refl _)] at hget
    simp only [Nat.sub_self, List.getElem_cons_zero] at hget
    rw [hget]
    exact (List.perm_append_singleton n init).symm

namespace GcHeap

variable {h h' : GcHeap} {i j k idx : ℕ} {n m : NodePtr} {s : GcScopeState}

/-- The nodes in the caches of all scopes. -/
def cached (h : GcHeap) : List NodePtr := h.scopeStacks.flatMap ScopeStack.cached

theorem scopeAt_stack (hs : h.scopeAt k idx = some s) :
    h.scopeStacks[k]? = some (h.stack k) ∧ (h.stack k).list[idx]? = some s := by
  refine ⟨?_, hs⟩
  by_cases hk : k < h.scopeStacks.length
  · simp [stack, hk]
  · simp [scopeAt, stack, hk, default, instInhabitedScopeStack.default] at hs

/-- Changing one scope changes its share of the cached nodes. -/
theorem cached_modifyScope (hs : h.scopeAt k idx = some s) : ∃ rest : List NodePtr,
    h.cached.Perm (s.cache.getD [] ++ rest) ∧
      ∀ f, (h.modifyScope k idx f).cached.Perm ((f s).cache.getD [] ++ rest) := by
  obtain ⟨hst, hidx⟩ := scopeAt_stack hs
  obtain ⟨rest, hperm, hmod⟩ := flatMap_modify_perm ScopeStack.cached hst
  obtain ⟨rest', hperm', hmod'⟩ := flatMap_modify_perm
    (fun s : GcScopeState => s.cache.getD []) hidx
  refine ⟨rest' ++ rest, ?_, fun f => ?_⟩
  · rw [← List.append_assoc]
    exact hperm.trans (hperm'.append_right rest)
  · rw [← List.append_assoc]
    exact (hmod _).trans ((hmod' f).append_right rest)

/-- Changing scopes neither makes nor removes any. -/
theorem isSome_scopeAt_modifyScope {f : GcScopeState → GcScopeState} :
    ((h.modifyScope k idx f).scopeAt i j).isSome = (h.scopeAt i j).isSome := by
  simp only [scopeAt, stack, modifyScope, modifyStack, List.getD_eq_getElem?_getD,
    List.getElem?_modify]
  cases h.scopeStacks[i]? with
  | none => rfl
  | some st =>
    by_cases hk : k = i
    · by_cases hj : idx = j <;> simp [hk, List.getElem?_modify]
    · simp [hk]

/-- The last scope of a stack takes its share with it. -/
theorem cached_pop (hs : (h.stack k).list.getLast? = some s) (g : GcScopeState → GcScopeState) :
    h.cached.Perm (s.cache.getD [] ++
      ((h.modifyScope k ((h.stack k).list.length - 1) g).modifyStack k
        fun st => { st with list := st.list.dropLast }).cached) := by
  obtain ⟨init, hinit⟩ := List.getLast?_eq_some_iff.mp hs
  have hst : h.scopeStacks[k]? = some (h.stack k) := by
    by_cases hk : k < h.scopeStacks.length
    · simp [stack, hk]
    · simp [stack, hk, default, instInhabitedScopeStack.default] at hinit
  obtain ⟨rest, hperm, hmod⟩ := flatMap_modify_perm ScopeStack.cached hst
  have hboth : ((h.modifyScope k ((h.stack k).list.length - 1) g).modifyStack k
      fun st => { st with list := st.list.dropLast }).cached.Perm
      (init.flatMap (fun s => s.cache.getD []) ++ rest) := by
    simp only [modifyScope, modifyStack, cached, List.modify_modify_eq]
    refine (hmod _).trans (.append_right rest ?_)
    simp [ScopeStack.cached, hinit, dropLast_modify_length]
  refine hperm.trans (.trans ?_ (hboth.symm.append_left _))
  rw [← List.append_assoc, ScopeStack.cached, hinit, List.flatMap_append]
  refine .append_right rest ?_
  simpa using List.perm_append_comm

/-! ### The flags -/

/-- What the invariant speaks about, the live nodes apart. -/
def guard (h : GcHeap) : List ScopeStack × (NodePtr → Bool) :=
  (h.scopeStacks, fun n => (h.head n).isLocal)

/-- The `LOCAL` flags mirror the caches. -/
def ScopeInv (h : GcHeap) : Prop := Mirrors h.Live (fun n => (h.head n).isLocal) h.cached

theorem guard_modifyHead {g : GcHead → GcHead} (hg : ∀ hd, (g hd).isLocal = hd.isLocal) :
    (h.modifyHead n g).guard = h.guard :=
  Prod.ext rfl (funext fun _ => field_modifyHead GcHead.isLocal hg)

theorem markFrame_guard : MarkFrame guard :=
  ⟨fun _ _ _ => guard_modifyHead fun _ => rfl, fun _ _ _ => guard_modifyHead fun _ => rfl,
    fun _ _ _ => rfl, fun _ _ _ => rfl, fun _ => rfl⟩

theorem isLocal_of_guard (heq : h'.guard = h.guard) (n : NodePtr) :
    (h'.head n).isLocal = (h.head n).isLocal := congrFun (congrArg Prod.snd heq) n

theorem cached_of_guard (heq : h'.guard = h.guard) : h'.cached = h.cached :=
  congrArg (List.flatMap ScopeStack.cached) (congrArg Prod.fst heq)

/-- Protecting a node sets its flag only. -/
theorem isLocal_modifyHead_self {b : Bool} :
    ((h.modifyHead n fun hd => { hd with isLocal := b }).head m).isLocal =
      if m = n then b else (h.head m).isLocal := by
  rw [head_modifyHead]
  split <;> rfl

theorem isLocal_foldl_clearLocalFlag (l : List NodePtr) : ∀ h : GcHeap,
    ((l.foldl clearLocalFlag h).head n).isLocal = ((h.head n).isLocal && !decide (n ∈ l)) := by
  induction l with
  | nil => simp
  | cons m l ih =>
    intro h
    rw [List.foldl_cons, ih, clearLocalFlag, isLocal_modifyHead_self]
    by_cases hnm : n = m <;> simp [hnm]

theorem scopeStacks_foldl_clearLocalFlag (l : List NodePtr) (h : GcHeap) :
    (l.foldl clearLocalFlag h).scopeStacks = h.scopeStacks := by
  have hone : ∀ (h : GcHeap) n, (h.clearLocalFlag n).scopeStacks = h.scopeStacks := fun _ _ => rfl
  exact reading_foldl hone l h

theorem cached_foldl_clearLocalFlag (l : List NodePtr) (h : GcHeap) :
    (l.foldl clearLocalFlag h).cached = h.cached := by
  rw [cached, scopeStacks_foldl_clearLocalFlag, cached]

/-- Dropping a scope takes its share of the caches and the flags. -/
theorem cached_popScope (hs : (h.stack k).list.getLast? = some s) :
    h.cached.Perm (s.cache.getD [] ++ (h.popScope k).cached) := by
  have hcached := cached_pop hs fun s => { s with cache := none }
  refine hcached.trans (.of_eq ?_)
  simp only [popScope, hs, cached, clear, modifyStack, scopeStacks_foldl_clearLocalFlag]

theorem isLocal_popScope (hs : (h.stack k).list.getLast? = some s) :
    ((h.popScope k).head n).isLocal =
      ((h.head n).isLocal && !decide (n ∈ s.cache.getD [])) := by
  simp only [popScope, hs]
  exact isLocal_foldl_clearLocalFlag _ _

/-- Protecting a node grays it at most. -/
theorem guard_addNode (h : GcHeap) (k idx : ℕ) (s : GcScopeState) (n : NodePtr) :
    (h.addNode k idx s n).guard = ((h.modifyHead n fun hd =>
      { hd with isLocal := true }).modifyScope k idx fun s => s.push n).guard := by
  have hgray : ∀ h₁ h₂ : GcHeap, h₂.guard = h₁.guard →
      (h₂.modifyScope k idx fun s => s.push n).guard =
        (h₁.modifyScope k idx fun s => s.push n).guard := by
    intro h₁ h₂ heq
    obtain ⟨hscopes, hflags⟩ := Prod.mk.inj heq
    exact Prod.ext (congrArg (fun l : List ScopeStack => l.modify k fun st =>
      { st with list := st.list.modify idx fun s => s.push n }) hscopes) hflags
  unfold addNode
  dsimp only
  split
  · exact hgray _ _ markFrame_guard.parAddGrayNode
  · rfl

theorem scopeStacks_addNode : (h.addNode k idx s n).scopeStacks =
    (h.modifyScope k idx fun s => s.push n).scopeStacks :=
  congrArg Prod.fst (h.guard_addNode k idx s n)

theorem isLocal_addNode : ((h.addNode k idx s n).head m).isLocal =
    if m = n then true else (h.head m).isLocal :=
  (congrFun (congrArg Prod.snd (h.guard_addNode k idx s n)) m).trans isLocal_modifyHead_self

namespace ScopeInv

/-- Nothing that the invariant speaks about has changed. -/
theorem congr (hinv : h.ScopeInv) (hlive : ∀ n, h'.Live n ↔ h.Live n)
    (hlocal : ∀ n, (h'.head n).isLocal = (h.head n).isLocal) (hcached : h'.cached = h.cached) :
    h'.ScopeInv := by
  have hexist : h'.Live = h.Live := funext fun n => propext (hlive n)
  rw [ScopeInv, hexist, funext hlocal, hcached]
  exact hinv

theorem of_guard (hinv : h.ScopeInv) (hlive : ∀ n, h'.Live n ↔ h.Live n)
    (heq : h'.guard = h.guard) : h'.ScopeInv :=
  hinv.congr hlive (isLocal_of_guard heq) (cached_of_guard heq)

/-- A scope takes in a live node that has no `LOCAL` flag. -/
theorem addNode (hinv : h.ScopeInv) {t : GcScopeState} (hs : h.scopeAt k idx = some s)
    (hn : h.Live n) (hoff : (h.head n).isLocal = false) : (h.addNode k idx t n).ScopeInv := by
  obtain ⟨rest, hperm, hmod⟩ := cached_modifyScope hs
  have hcached : (h.addNode k idx t n).cached.Perm (n :: h.cached) := by
    have hpush := hmod fun s => s.push n
    rw [cached, scopeStacks_addNode]
    refine hpush.trans (.trans ?_ (hperm.cons n).symm)
    simp only [GcScopeState.push, Option.getD_some]
    exact (List.perm_append_singleton n _).append_right rest
  have hlive : (h.addNode k idx t n).Live = h.Live :=
    funext fun m => propext (live_of_store (store_addNode t))
  rw [ScopeInv, hlive]
  refine Mirrors.insert hinv hn hoff hcached ?_ fun m hm => ?_
  · rw [isLocal_addNode, if_pos rfl]
  · rw [isLocal_addNode, if_neg hm]

theorem addNonLocal (hinv : h.ScopeInv) {t : GcScopeState} (hs : h.scopeAt k idx = some s)
    (hn : h.Live n) : (h.addNonLocal k idx t n).ScopeInv := by
  unfold GcHeap.addNonLocal
  split
  · exact hinv
  · next hoff =>
    simp only [GcHead.isRootOrLocal, Bool.or_eq_true, not_or, Bool.not_eq_true] at hoff
    exact hinv.addNode hs hn hoff.2

/-- A scope that has a node gives it up. -/
theorem position_eq {pos : ℕ} (hpos : s.position n = some pos) :
    n ∈ s.cache.getD [] ∧
      (n :: (s.swapRemove pos).cache.getD []).Perm (s.cache.getD []) := by
  obtain ⟨cache, hcache, hpos⟩ := Option.bind_eq_some_iff.mp hpos
  split at hpos
  · next hn =>
    obtain rfl := Option.some.inj hpos
    simp only [GcScopeState.swapRemove, hcache, Option.map_some, Option.getD_some]
    exact ⟨hn, swapRemove_perm hn⟩
  · cases hpos

theorem removeNode (hinv : h.ScopeInv) (hs : h.scopeAt k idx = some s) :
    (h.removeNode k idx s n).ScopeInv := by
  unfold GcHeap.removeNode
  split
  · next pos hpos =>
    obtain ⟨rest, hperm, hmod⟩ := cached_modifyScope hs
    obtain ⟨hn, hswap⟩ := position_eq hpos
    have hcached : h.cached.Perm
        (n :: (h.modifyScope k idx fun s => s.swapRemove pos).cached) := by
      have hremove := hmod fun s => s.swapRemove pos
      exact (hperm.trans (hswap.symm.append_right rest)).trans (hremove.symm.cons n)
    refine @Mirrors.erase _ _ _ (fun m => (((h.modifyScope k idx fun s =>
      s.swapRemove pos).clearLocalFlag n).head m).isLocal) _ _ _ hinv hcached ?_ fun m hm => ?_
    · exact isLocal_modifyHead_self.trans (if_pos rfl)
    · exact isLocal_modifyHead_self.trans (if_neg hm)
  · exact hinv

theorem promoteNodeTo {targetStack targetIndex : ℕ} (hinv : h.ScopeInv)
    (hs : h.scopeAt k idx = some s) (ht : (h.scopeAt targetStack targetIndex).isSome) :
    (h.promoteNodeTo k idx s n targetStack targetIndex).ScopeInv := by
  unfold GcHeap.promoteNodeTo
  split
  · next pos hpos =>
    obtain ⟨rest, hperm, hmod⟩ := cached_modifyScope hs
    obtain ⟨hn, hswap⟩ := position_eq hpos
    generalize hh₁ : (h.modifyScope k idx fun s => s.swapRemove pos) = h₁
    -- the target is still there, even if it is the scope itself
    obtain ⟨t, ht⟩ : ∃ t, h₁.scopeAt targetStack targetIndex = some t := by
      rw [← hh₁]
      exact Option.isSome_iff_exists.mp (isSome_scopeAt_modifyScope.trans ht)
    obtain ⟨rest', hperm', hmod'⟩ := cached_modifyScope ht
    refine Mirrors.perm (l := h.cached) ?_ ?_
    · rw [← hh₁]
      exact hinv
    · have hpush := hmod' fun t => t.push n
      refine hpush.trans (@List.Perm.trans _ _ (n :: h₁.cached) _ ?_ ?_)
      · simp only [GcScopeState.push, Option.getD_some]
        exact ((List.perm_append_singleton n _).append_right rest').trans (hperm'.symm.cons n)
      · rw [← hh₁]
        have hremove := hmod fun s => s.swapRemove pos
        exact ((hremove.cons n).trans (hswap.append_right rest)).trans hperm.symm
  · exact hinv

theorem clear (hinv : h.ScopeInv) (hs : h.scopeAt k idx = some s) : (h.clear k idx s).ScopeInv := by
  obtain ⟨rest, hperm, hmod⟩ := cached_modifyScope hs
  have hcached : h.cached.Perm (s.cache.getD [] ++ (h.clear k idx s).cached) := by
    have hempty := hmod fun s => { s with cache := none }
    rw [← cached_foldl_clearLocalFlag (s.cache.getD [])] at hempty
    exact hperm.trans (hempty.symm.append_left _)
  have hlive : (h.clear k idx s).Live = h.Live :=
    funext fun m => propext (live_of_store (store_clear s))
  rw [ScopeInv, hlive]
  refine Mirrors.clear hinv hcached (fun m hm => ?_) fun m hm => ?_ <;>
    rw [GcHeap.clear, isLocal_foldl_clearLocalFlag]
  · simp [hm]
  · simp only [hm, decide_false, Bool.not_false, Bool.and_true]
    rfl

theorem popScope (hinv : h.ScopeInv) : (h.popScope k).ScopeInv := by
  have hlive : (h.popScope k).Live = h.Live :=
    funext fun m => propext (live_of_store store_popScope)
  rw [ScopeInv, hlive]
  cases hs : (h.stack k).list.getLast? with
  | some s =>
    refine Mirrors.clear hinv (cached_popScope hs) (fun m hm => ?_) fun m hm => ?_ <;>
      rw [isLocal_popScope hs] <;> simp [hm]
  | none =>
    have hsame : h.popScope k = h := by simp [GcHeap.popScope, hs]
    rw [hsame]
    exact hinv

/-- A new node has no `LOCAL` flag. -/
theorem attach {dtype : ℕ} {fromArena : Bool} (hinv : h.ScopeInv) (hn : ¬ h.Live n)
    (hatt : Attached h i dtype fromArena n h') : h'.ScopeInv := by
  have hcached : h'.cached = h.cached := congrArg (List.flatMap ScopeStack.cached) hatt.scopes
  rw [ScopeInv, hcached]
  refine Mirrors.grow hinv hn (fun m => hatt.live_iff) ?_ fun m hm => ?_
  · rw [hatt.head, Function.update_self]
    rfl
  · rw [hatt.head, Function.update_of_ne hm]

/-- A sweep leaves local nodes alone. -/
theorem twoPhaseSweep (hinv : h.ScopeInv) (i : ℕ) : (h.twoPhaseSweep i).1.ScopeInv := by
  obtain ⟨hhead, -, hscopes⟩ := h.twoPhaseSweep_frame i
  have hcached : (h.twoPhaseSweep i).1.cached = h.cached :=
    congrArg (List.flatMap ScopeStack.cached) hscopes
  rw [ScopeInv, hcached, hhead]
  refine Mirrors.shrink hinv ?_ ?_ fun _ _ => rfl
  · rintro m ⟨j, hm⟩
    exact ⟨j, (mem_nodes_twoPhaseSweep.mp hm).1⟩
  · rintro m ⟨j, hm⟩ hlocal
    refine ⟨j, mem_nodes_twoPhaseSweep.mpr ⟨hm, fun _ _ => ?_⟩⟩
    simp [isWhiteNonRoot, GcHead.isRootOrLocal, hlocal]

theorem protectNode (hinv : h.ScopeInv) (hn : h.Live n) : (h.protectNode k n).ScopeInv := by
  unfold GcHeap.protectNode
  split
  · next s hs =>
    refine hinv.addNonLocal (s := s) ?_ hn
    rw [scopeAt, ← hs, List.getLast?_eq_getElem?]
  · exact hinv

theorem garbageCollect {bytes : ℕ} (hinv : h.ScopeInv)
    (hgc : h.garbageCollect i = some (h', bytes)) : h'.ScopeInv ∧ h'.cached = h.cached := by
  have hframe : MarkFrame fun h : GcHeap => (h.store, h.guard) :=
    ⟨fun h n c => Prod.ext (store_setColor c) (markFrame_guard.color h n c),
      fun h n b => Prod.ext (store_setGrayListed b) (markFrame_guard.listed h n b),
      fun h i b => Prod.ext (store_setMarking b) (markFrame_guard.marking h i b),
      fun h i f => Prod.ext (store_modifyGray f) (markFrame_guard.gray h i f),
      fun h => Prod.ext (markFrame_store.allMarking h) (markFrame_guard.allMarking h)⟩
  rcases hframe.garbageCollect hgc with ⟨-, rfl, -⟩ | ⟨h₁, hsame, hsweep⟩
  · exact ⟨hinv, rfl⟩
  · obtain ⟨hstore, hguard⟩ := Prod.mk.inj hsame
    have hinv₁ : h₁.ScopeInv := hinv.of_guard (fun n => live_of_store hstore) hguard
    have hswept := hinv₁.twoPhaseSweep i
    have hcached : (h₁.twoPhaseSweep i).1.cached = h₁.cached :=
      congrArg (List.flatMap ScopeStack.cached) (h₁.twoPhaseSweep_frame i).2.2
    rw [hsweep] at hswept hcached
    exact ⟨hswept, hcached.trans (cached_of_guard hguard)⟩

theorem createPartition {capacity maxAlloc id : ℕ} {sys : Option ℕ} (hinv : h.ScopeInv)
    (hok : h.createPartition capacity maxAlloc sys = some (h', id)) : h'.ScopeInv := by
  have hlive : ∀ n, h'.Live n ↔ h.Live n := fun n => by
    have hview := congrArg (fun s => MarkState.Live s n) (view_createPartition hok)
    exact iff_of_eq hview
  obtain ⟨q, rfl, -⟩ := createPartition_ok hok
  exact hinv.of_guard hlive rfl

theorem downgrade {w : GcWeakRawId} (hinv : h.ScopeInv) (hok : h.downgrade n = some (h', w)) :
    h'.ScopeInv := by
  have hlive : ∀ n, h'.Live n ↔ h.Live n := fun n => by
    have hview := congrArg (fun s => MarkState.Live s n) (view_downgrade hok)
    exact iff_of_eq hview
  refine hinv.of_guard hlive ?_
  obtain ⟨slots, rfl⟩ := downgrade_frame hok
  exact guard_modifyHead fun _ => rfl

section Alloc

variable {dtype : ℕ} {payload : Payload} {sys : Option NodePtr}

theorem allocRaw (hinv : h.ScopeInv) (hmem : h.MemInv)
    (hdtype : dtype < h.nodeDtypes.typeInfoList.length)
    (hfresh : ∀ n, sys = some n → h.SystemFresh n)
    (hok : h.allocRaw i dtype payload sys = .ok (h', n)) : h'.ScopeInv := by
  obtain ⟨h₁, size, hraw, rfl⟩ := allocRaw_ok hok
  obtain ⟨fromArena, hatt, -⟩ := allocNodeMem_attached hraw
  exact hinv.attach (hmem.allocNodeMem hdtype hfresh hraw).1 hatt

/-- The root flag and the gray list do not matter. -/
theorem allocRootRaw (hinv : h.ScopeInv) (hmem : h.MemInv)
    (hdtype : dtype < h.nodeDtypes.typeInfoList.length)
    (hfresh : ∀ n, sys = some n → h.SystemFresh n)
    (hok : h.allocRootRaw i dtype payload sys = .ok (h', n)) : h'.ScopeInv := by
  obtain ⟨h₁, h₂, size, hraw, rfl, rfl⟩ := allocRootRaw_ok hok
  obtain ⟨fromArena, hatt, -⟩ := allocNodeMem_attached hraw
  have hnew := hinv.attach (hmem.allocNodeMem hdtype hfresh hraw).1 hatt
  have hstore : ((h₁.modifyHead n fun hd => { hd with isRoot := true }).attachNode i n).store =
      (h₁.attachNode i n).store := by
    refine store_attachNode_congr ?_ i n
    exact store_modifyHead fun _ => rfl
  have hguard : ((h₁.modifyHead n fun hd => { hd with isRoot := true }).attachNode i n).guard =
      (h₁.attachNode i n).guard :=
    guard_modifyHead (h := h₁) (g := fun hd => { hd with isRoot := true }) fun _ => rfl
  split
  · exact hnew.of_guard (fun n => live_of_store (store_parAddGrayNode.trans hstore))
      (markFrame_guard.parAddGrayNode.trans hguard)
  · exact hnew.of_guard (fun n => live_of_store hstore) hguard

/-- The scope takes the new node in. -/
theorem allocLocal (hinv : h.ScopeInv) (hmem : h.MemInv) (hs : h.scopeAt k idx = some s)
    (hdtype : dtype < h.nodeDtypes.typeInfoList.length)
    (hfresh : ∀ n, sys = some n → h.SystemFresh n)
    (hok : h.allocLocal k idx s dtype payload sys = .ok (h', n)) : h'.ScopeInv := by
  obtain ⟨h₁, halloc, rfl⟩ := allocLocal_ok hok
  obtain ⟨h₂, size, hraw, rfl⟩ := allocRaw_ok halloc
  obtain ⟨fromArena, hatt, -⟩ := allocNodeMem_attached hraw
  have hnew := hinv.attach (hmem.allocNodeMem hdtype hfresh hraw).1 hatt
  have hs' : (h₂.attachNode s.partitionId n).scopeAt k idx = some s := by
    rw [scopeAt, stack, hatt.scopes]
    exact hs
  have hoff : ((h₂.attachNode s.partitionId n).head n).isLocal = false := by
    rw [hatt.head, Function.update_self]
    rfl
  exact hnew.addNode hs' (hatt.live_iff.mpr (.inl rfl)) hoff

end Alloc

end ScopeInv

end GcHeap

/-! ### Runs -/

/-- The operations on stacks and limits leave the caches alone. -/
theorem cached_bookkeeping {h h' : GcHeap} {op : Op} (hop : op.isBookkeeping = true)
    (hexec : exec h op = some h') : h'.cached = h.cached := by
  cases op with
  | acquireScopeStack i =>
    obtain ⟨⟨h₁, k⟩, hacq, rfl⟩ := Option.map_eq_some_iff.mp hexec
    unfold GcHeap.acquireScopeStack at hacq
    dsimp only at hacq
    split at hacq
    · obtain ⟨rfl, -⟩ := Prod.mk.inj (Option.some.inj hacq)
      refine flatMap_modify_eq ?_ _ _
      exact fun _ => rfl
    · split at hacq
      · obtain ⟨rfl, -⟩ := Prod.mk.inj (Option.some.inj hacq)
        simp [GcHeap.cached, ScopeStack.cached]
      · cases hacq
  | releaseScopeStack stackId =>
    cases hexec
    refine flatMap_modify_eq ?_ _ _
    exact fun _ => rfl
  | newScope stackId =>
    simp only [exec, GcHeap.newScope] at hexec
    split at hexec
    · cases hexec
    · obtain ⟨i, -, rfl⟩ := Option.map_eq_some_iff.mp hexec
      exact flatMap_modify_eq (fun st => by simp [ScopeStack.cached]) _ _
  | setMemoryLimit headSize headAlign limit =>
    cases hexec
    obtain ⟨applied, threshold, heq⟩ := h.setMemoryLimit_frame headSize headAlign limit
    rw [heq]
    rfl
  | setGcThreshold threshold =>
    cases hexec
    obtain ⟨capped, heq⟩ := h.setGcThreshold_frame threshold
    rw [heq]
    rfl
  | _ => cases hop

/-- The operation tears a partition down. -/
def Op.isTeardown : Op → Bool
  | .removePartition _ _ => true
  | _ => false

/-- No partition is torn down. -/
def KeepsPartitions (_ : GcHeap) (op : Op) : Prop := op.isTeardown = false

instance {h : GcHeap} {op : Op} : Decidable (KeepsPartitions h op) :=
  inferInstanceAs (Decidable (_ = _))

open GcHeap in
/-- The operations on stacks and limits keep the invariant. -/
theorem scopeInv_bookkeeping {h h' : GcHeap} {op : Op} (hinv : h.ScopeInv)
    (hop : op.isBookkeeping = true) (hexec : exec h op = some h') : h'.ScopeInv := by
  have hcached := cached_bookkeeping hop hexec
  obtain ⟨limit, threshold, scopes, rfl⟩ := exec_bookkeeping hop hexec
  exact hinv.congr (fun _ => Iff.rfl) (fun _ => rfl) hcached

/-- The operations on colors, gray lists, roots and payloads. -/
def Op.isMarking : Op → Bool
  | .setRootNode _ | .bind _ _ _ | .withWriteBarrier _ _ | .removeRefs _ _ => true
  | .mark _ _ | .markReset _ => true
  | _ => false

open GcHeap in
/-- They change neither the nodes nor what protects them. -/
theorem scopeInv_marking {h h' : GcHeap} {op : Op} (hinv : h.ScopeInv) (hop : op.isMarking = true)
    (hexec : exec h op = some h') : h'.ScopeInv := by
  have hstorage : op.isStorage = false := by
    cases op <;> first | rfl | cases hop
  have hlive : ∀ n, h'.Live n ↔ h.Live n := fun n => live_of_store (exec_store hstorage hexec)
  refine hinv.of_guard hlive ?_
  cases op with
  | setRootNode n =>
    cases hexec
    exact markFrame_guard.setRootNode fun _ _ => guard_modifyHead fun _ => rfl
  | bind master slave payload =>
    cases hexec
    exact markFrame_guard.bind
  | withWriteBarrier n payload =>
    cases hexec
    exact markFrame_guard.withWriteBarrier (fun _ _ _ => rfl) _
  | removeRefs n payload =>
    cases hexec
    rfl
  | mark i maxSteps =>
    cases hexec
    exact markFrame_guard.mark _
  | markReset i =>
    cases hexec
    exact markFrame_guard.markReset
  | _ => cases hop

open GcHeap in
/-- **Every operation but teardown keeps the invariant.** -/
theorem scopeInv_step {h h' : GcHeap} {op : Op} (hmem : h.MemInv) (hinv : h.ScopeInv)
    (hst : StepWith KeepsPartitions h op h') : h'.ScopeInv := by
  obtain ⟨⟨hpre, hexec⟩, hkeep⟩ := hst
  cases op with
  | createPartition capacity maxAlloc sys =>
    obtain ⟨⟨h₁, id⟩, hok, rfl⟩ := Option.map_eq_some_iff.mp hexec
    exact hinv.createPartition hok
  | allocRaw i dtype payload sys =>
    cases hexec
    exact afterAlloc_ind hinv fun _ _ hok => hinv.allocRaw hmem hpre.2.1 hpre.2.2.2 hok
  | allocRootRaw i dtype payload sys =>
    cases hexec
    exact afterAlloc_ind hinv fun _ _ hok => hinv.allocRootRaw hmem hpre.2.1 hpre.2.2.2 hok
  | allocLocal stackId index dtype payload sys =>
    obtain ⟨s, hs, rfl⟩ := Option.map_eq_some_iff.mp hexec
    exact afterAlloc_ind hinv fun _ _ hok => hinv.allocLocal hmem hs hpre.1 hpre.2.2 hok
  | popScope stackId =>
    cases hexec
    exact hinv.popScope
  | addNonLocal stackId index n =>
    obtain ⟨s, hs, rfl⟩ := Option.map_eq_some_iff.mp hexec
    exact hinv.addNonLocal hs hpre
  | protectNode stackId n =>
    cases hexec
    exact hinv.protectNode hpre
  | removeNode stackId index n =>
    obtain ⟨s, hs, rfl⟩ := Option.map_eq_some_iff.mp hexec
    exact hinv.removeNode hs
  | promoteNodeTo stackId index n targetStack targetIndex =>
    obtain ⟨s, hs, rfl⟩ := Option.map_eq_some_iff.mp hexec
    exact hinv.promoteNodeTo hs hpre.2
  | clear stackId index =>
    obtain ⟨s, hs, rfl⟩ := Option.map_eq_some_iff.mp hexec
    exact hinv.clear hs
  | sweep i =>
    cases hexec
    exact hinv.twoPhaseSweep i
  | garbageCollect i =>
    obtain ⟨⟨h₁, bytes⟩, hgc, rfl⟩ := Option.map_eq_some_iff.mp hexec
    exact (hinv.garbageCollect hgc).1
  | downgrade n =>
    obtain ⟨⟨h₁, w⟩, hok, rfl⟩ := Option.map_eq_some_iff.mp hexec
    exact hinv.downgrade hok
  | removePartition i sys => cases hkeep
  | acquireScopeStack | releaseScopeStack | newScope | setMemoryLimit | setGcThreshold =>
    exact scopeInv_bookkeeping hinv rfl hexec
  | setRootNode | bind | withWriteBarrier | removeRefs | mark | markReset =>
    exact scopeInv_marking hinv rfl hexec

open GcHeap in
theorem scopeInv_of_reachable {h : GcHeap} (hr : ReachableWith KeepsPartitions h) :
    h.ScopeInv := by
  obtain ⟨registry, hr⟩ := hr
  have hnew : (GcHeap.new registry).ScopeInv := Mirrors.empty fun _ _ => rfl
  have hboth := hr.invariant (I := fun h : GcHeap => h.MemInv ∧ h.ScopeInv)
    (fun _ _ _ hs hst => ⟨hs.1.step hst.1, scopeInv_step hs.1 hs.2 hst⟩)
    ⟨MemInv.new registry, hnew⟩
  exact hboth.2

end GcLite
