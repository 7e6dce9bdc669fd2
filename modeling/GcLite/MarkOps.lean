import GcLite.MarkMutate
import GcLite.MarkView
import GcLite.System

/-!
# The other operations, as the marker sees them

What `MarkView` does for the marker, this does for the operations of the mutator: allocation,
protection by roots and scopes, barriers, and teardown.

## Main results

* `view_allocRaw`, `view_allocRootRaw`, `view_addNode`, `view_setRootNode`
* `view_bind`, `view_withWriteBarrier`
* `view_twoPhaseSweep`, `view_removePartition`
-/

namespace GcLite

namespace GcHeap

open MarkState

variable {h h' : GcHeap} {i j : ℕ} {n m : NodePtr}

theorem marking_of_length_le (hi : h.partitions.length ≤ i) : h.view.marking i = false := by
  simp only [view, par_of_length_le hi]
  rfl

/-- There is nothing in a partition that does not exist. -/
theorem view_range (hi : h.view.count ≤ i) :
    h.view.chain i = [] ∧ h.view.gray i = [] ∧ h.view.marking i = false := by
  have hpar : h.par i = default := par_of_length_le hi
  refine ⟨?_, ?_, ?_⟩ <;> simp only [view, hpar] <;> rfl

theorem lt_length_of_marking (hm : h.view.marking i = true) : i < h.partitions.length := by
  by_contra hi
  rw [marking_of_length_le (Nat.le_of_not_lt hi)] at hm
  cases hm

/-! ### Allocation -/

/-- What keeps the chain and the cycle of a partition is not seen. -/
theorem view_modifyPar {f : GcPartition → GcPartition}
    (hf : ∀ q, (f q).nodes = q.nodes ∧ (f q).grayList = q.grayList ∧ (f q).marking = q.marking) :
    (h.modifyPar i f).view = h.view :=
  MarkState.ext length_modifyPar
    (funext fun _ => field_modifyPar GcPartition.nodes fun q => (hf q).1)
    (funext fun _ => field_modifyPar GcPartition.grayList fun q => (hf q).2.1)
    (funext fun _ => field_modifyPar GcPartition.marking fun q => (hf q).2.2) rfl rfl rfl rfl rfl

@[simp] theorem view_setArena (A : Option GcArena) :
    (h.modifyPar i fun q => { q with arena := A }).view = h.view :=
  view_modifyPar fun _ => ⟨rfl, rfl, rfl⟩

@[simp] theorem view_updateMemUse (delta : ℤ) : (h.updateMemUse i delta).view = h.view := by
  obtain ⟨f, heq⟩ := updateMemUse_eq delta
  rw [heq]
  exact view_modifyPar fun _ => ⟨rfl, rfl, rfl⟩

theorem view_initNode (dtype : ℕ) (payload : Payload) (arenaAlloc : Bool) (size : ℕ) :
    (h.initNode i dtype n payload arenaAlloc size).view =
      { h.view with
        color := Function.update h.view.color n .white
        listed := Function.update h.view.listed n false
        prot := Function.update h.view.prot n false
        pid := Function.update h.view.pid n i
        refs := Function.update h.view.refs n payload } := by
  have hupdate : ∀ {α : Type} (φ : GcHead → α),
      (fun m => φ (Function.update h.head n (.init i dtype arenaAlloc) m)) =
        Function.update (fun m => φ (h.head m)) n (φ (.init i dtype arenaAlloc)) := by
    intro α φ
    funext m
    simp only [Function.update_apply]
    split <;> rfl
  rw [initNode, view_updateMemUse]
  exact MarkState.ext rfl rfl rfl rfl (hupdate GcHead.color) (hupdate GcHead.grayListed)
    (hupdate GcHead.isRootOrLocal) (hupdate GcHead.partitionId) rfl

/-- A successful allocation, as far as the marker is concerned. -/
theorem view_allocNodeMem {dtype size : ℕ} {payload : Payload} {skipArena : Bool}
    {sys : Option NodePtr}
    (hok : h.allocNodeMem i dtype payload skipArena sys = .ok (h', n, size)) :
    i < h.view.count ∧ (h'.attachNode i n).view = h.view.alloc i n payload := by
  obtain ⟨hi, layout, -, -, hcases⟩ := allocNodeMem_ok hok
  have hinit : h'.view = { h.view with
      color := Function.update h.view.color n .white
      listed := Function.update h.view.listed n false
      prot := Function.update h.view.prot n false
      pid := Function.update h.view.pid n i
      refs := Function.update h.view.refs n payload } := by
    rcases hcases with ⟨A, A', -, -, -, heq⟩ | ⟨-, heq⟩
    · rw [heq, view_initNode, view_setArena]
    · rw [heq, view_initNode]
  refine ⟨hi, ?_⟩
  rw [attachNode, view_modifyNodes (n :: ·), hinit]
  refine MarkState.ext rfl (funext fun j => ?_) rfl rfl rfl rfl rfl rfl rfl
  simp [MarkState.alloc, show i < h.view.count from hi]

theorem view_allocRaw {dtype : ℕ} {payload : Payload} {sys : Option NodePtr}
    (hok : h.allocRaw i dtype payload sys = .ok (h', n)) :
    i < h.view.count ∧ h'.view = h.view.alloc i n payload := by
  obtain ⟨h₁, size, hmem, rfl⟩ := allocRaw_ok hok
  exact view_allocNodeMem hmem

theorem view_modifyProt (g : GcHead → GcHead) (b : Bool)
    (hg : ∀ hd, (g hd).color = hd.color ∧ (g hd).grayListed = hd.grayListed ∧
      (g hd).partitionId = hd.partitionId) (hb : (g (h.head n)).isRootOrLocal = b) :
    (h.modifyHead n g).view = { h.view with prot := Function.update h.view.prot n b } := by
  rw [view_modifyHead]
  obtain ⟨hc, hl, hp⟩ := hg (h.head n)
  refine MarkState.ext rfl rfl rfl rfl ?_ ?_ (by simp only [hb]) ?_ rfl
  · simp only [hc]
    exact Function.update_eq_self _ _
  · simp only [hl]
    exact Function.update_eq_self _ _
  · simp only [hp]
    exact Function.update_eq_self _ _

theorem view_insertRoot : (h.modifyHead n fun hd => { hd with isRoot := true }).view =
    { h.view with prot := Function.update h.view.prot n true } :=
  view_modifyProt _ _ (fun _ => ⟨rfl, rfl, rfl⟩) (by simp [GcHead.isRootOrLocal])

theorem view_insertLocal : (h.modifyHead n fun hd => { hd with isLocal := true }).view =
    { h.view with prot := Function.update h.view.prot n true } :=
  view_modifyProt _ _ (fun _ => ⟨rfl, rfl, rfl⟩) (by simp [GcHead.isRootOrLocal])

theorem view_allocRootRaw {dtype : ℕ} {payload : Payload} {sys : Option NodePtr}
    (hok : h.allocRootRaw i dtype payload sys = .ok (h', n)) :
    i < h.view.count ∧ h'.view = (h.view.alloc i n payload).protect i n := by
  obtain ⟨h₁, h₂, size, hmem, hh₂, rfl⟩ := allocRootRaw_ok hok
  obtain ⟨hi, hview⟩ := view_allocNodeMem hmem
  have hroot : h₂.view = { h.view.alloc i n payload with
      prot := Function.update (h.view.alloc i n payload).prot n true } := by
    rw [hh₂, ← hview, ← view_insertRoot]
    rfl
  have hmarking : (h₂.par i).marking = (h.view.alloc i n payload).marking i :=
    congrFun (congrArg MarkState.marking hroot) i
  refine ⟨hi, ?_⟩
  rw [hmarking, MarkState.protect]
  split
  · rw [view_parAddGrayNode, hroot]
  · exact hroot

/-! ### Protection -/

@[simp] theorem view_modifyStack (f : ScopeStack → ScopeStack) :
    (h.modifyStack i f).view = h.view := rfl

@[simp] theorem view_modifyScope (f : GcScopeState → GcScopeState) :
    (h.modifyScope i j f).view = h.view := rfl

theorem view_addNode (s : GcScopeState) :
    (h.addNode i j s n).view = h.view.protect s.partitionId n := by
  have hlocal := view_insertLocal (h := h) (n := n)
  simp only [addNode, view_modifyScope]
  rw [MarkState.protect]
  by_cases hmark : h.view.marking s.partitionId = true
  · rw [if_pos ⟨lt_length_of_marking hmark, hmark⟩, if_pos hmark, view_parAddGrayNode, hlocal]
  · rw [if_neg fun hc => hmark hc.2, if_neg hmark, hlocal]

theorem view_setRootNode : (h.setRootNode n).view = h.view ∨
    (h.setRootNode n).view = h.view.protect (h.view.pid n) n := by
  unfold setRootNode
  split
  · exact .inl rfl
  · refine .inr ?_
    have hroot := view_insertRoot (h := h) (n := n)
    have hpid : ((h.modifyHead n fun hd => { hd with isRoot := true }).head n).partitionId =
        h.view.pid n := by simp [view]
    dsimp only
    rw [hpid, MarkState.protect]
    by_cases hmark : h.view.marking (h.view.pid n) = true
    · rw [if_pos hmark, if_pos (show ((h.modifyHead n _).par _).marking = true from hmark),
        view_parAddGrayNode, hroot]
    · rw [if_neg hmark, if_neg (show ¬ ((h.modifyHead n _).par _).marking = true from hmark), hroot]

theorem unprotects_clearLocalFlag : Unprotects h.view (h.clearLocalFlag n).view := by
  refine ⟨_, view_modifyProt _ _ (fun _ => ⟨rfl, rfl, rfl⟩) rfl, fun m hm => ?_⟩
  by_cases hmn : m = n
  · subst hmn
    simp only [Function.update_self, GcHead.isRootOrLocal, Bool.or_false] at hm
    simp [view, GcHead.isRootOrLocal, hm]
  · simpa [hmn] using hm

theorem unprotects_foldl_clearLocalFlag (l : List NodePtr) : ∀ h : GcHeap,
    Unprotects h.view (l.foldl clearLocalFlag h).view := by
  induction l with
  | nil => exact fun h => .refl _
  | cons n l ih => exact fun h => unprotects_clearLocalFlag.trans (ih _)

theorem unprotects_removeNode (s : GcScopeState) :
    Unprotects h.view (h.removeNode i j s n).view := by
  unfold removeNode
  split
  · exact unprotects_clearLocalFlag (h := h.modifyScope i j _)
  · exact .refl _

theorem unprotects_clear (s : GcScopeState) : Unprotects h.view (h.clear i j s).view :=
  unprotects_foldl_clearLocalFlag _ (h.modifyScope i j _)

theorem unprotects_popScope : Unprotects h.view (h.popScope i).view := by
  unfold popScope
  split
  · exact unprotects_clear _
  · exact .refl _

theorem unprotects_clearScopesOf : Unprotects h.view (h.clearScopesOf i).view := by
  have hfold : ∀ (l : List ℕ) (h : GcHeap), Unprotects h.view (l.foldl (fun h stackId =>
      if (h.stack stackId).partition = some i then h.clearStack stackId else h) h).view := by
    intro l
    induction l with
    | nil => exact fun h => .refl _
    | cons k l ih =>
      intro h
      refine Unprotects.trans ?_ (ih _)
      dsimp only
      split
      · exact unprotects_foldl_clearLocalFlag _ (h.modifyStack k _)
      · exact .refl _
  exact hfold _ h

/-! ### Barriers -/

theorem view_bindTriColor : (h.bindTriColor m n).view =
    if h.view.color m = .black ∧ h.view.color n ≠ .black then h.view.grayOwn n else h.view := by
  unfold bindTriColor
  by_cases hc : h.view.color m = .black ∧ h.view.color n ≠ .black
  · rw [if_pos hc, if_pos (show (h.head m).color = .black ∧ (h.head n).color ≠ .black from hc)]
    have hpid : ((h.setColor n .gray).head n).partitionId = h.view.pid n := by
      simp [setColor, view]
    dsimp only
    rw [hpid, MarkState.grayOwn]
    by_cases hmark : h.view.marking (h.view.pid n) = true
    · have hgray : ((h.setColor n .gray).head n).color ≠ .black := by simp [setColor]
      rw [if_pos hmark, if_pos ⟨lt_length_of_marking hmark, hmark⟩, addGrayNode, if_pos hgray, hpid,
        view_parAddGrayNode, view_setColor, shade_of_gray h.view hc.2]
    · rw [if_neg hmark, if_neg fun hc => hmark hc.2, view_setColor]
  · rw [if_neg hc,
      if_neg (show ¬ ((h.head m).color = .black ∧ (h.head n).color ≠ .black) from hc)]

theorem view_bindCrossPartition : (h.bindCrossPartition m n).view =
    if h.view.pid m ≠ h.view.pid n ∧ h.view.color n ≠ .black ∧ h.view.marking (h.view.pid n) then
      h.view.shade (h.view.pid n) n else h.view := by
  by_cases hc : h.view.pid m ≠ h.view.pid n ∧ h.view.color n ≠ .black ∧
      h.view.marking (h.view.pid n) = true
  · have hcross : h.bindCrossPartition m n =
        (h.setColor n .gray).pushUnlisted (h.head n).partitionId n :=
      (if_pos hc.1).trans (if_pos ⟨hc.2.1, lt_length_of_marking hc.2.2, hc.2.2⟩)
    rw [if_pos hc, hcross, view_pushUnlisted, view_setColor, MarkState.shade, if_neg hc.2.1]
    rfl
  · rw [if_neg hc]
    unfold bindCrossPartition
    dsimp only
    split
    · next hpid => rw [if_neg fun hin => hc ⟨hpid, hin.1, hin.2.2⟩]
    · rfl

theorem view_bind : (h.bind m n).view = h.view.bind m n := by
  rw [GcHeap.bind, view_bindCrossPartition, view_bindTriColor, MarkState.bind]

theorem view_withWriteBarrier (f : Payload → Payload) : (h.withWriteBarrier n f).view =
    (h.view.regray n).setRefs n (f (h.refs n)) := by
  unfold withWriteBarrier
  dsimp only
  have hpid : ((h.setColor n .gray).head n).partitionId = h.view.pid n := by
    simp [setColor, view]
  have hgray : ((h.setColor n .gray).head n).color ≠ .black := by simp [setColor]
  have hrefs : ∀ h' : GcHeap, h'.view = h.view.regray n → h'.refs n = h.refs n := by
    intro h' hview
    have hsame : (h.view.regray n).refs = h.view.refs := by
      unfold MarkState.regray MarkState.shade
      split
      · split <;> rfl
      · rfl
    exact congrFun ((congrArg MarkState.refs hview).trans hsame) n
  have hbarrier : (if (h.par (h.head n).partitionId).marking then
      if (h.head n).color = .black then (h.setColor n .gray).addGrayNode n else h else h).view =
      h.view.regray n := by
    rw [MarkState.regray]
    by_cases hmark : h.view.marking (h.view.pid n) = true
    · rw [if_pos (show (h.par (h.head n).partitionId).marking = true from hmark)]
      by_cases hc : h.view.color n = .black
      · rw [if_pos (show (h.head n).color = .black from hc), if_pos ⟨hmark, hc⟩, addGrayNode,
          if_pos hgray, hpid, view_parAddGrayNode, view_setColor]
      · rw [if_neg (show ¬ (h.head n).color = .black from hc), if_neg fun hb => hc hb.2]
    · rw [if_neg (show ¬ (h.par (h.head n).partitionId).marking = true from hmark),
        if_neg fun hb => hmark hb.1]
  rw [view_setRefs, hbarrier, hrefs _ hbarrier]

/-! ### Scopes, weak slots and disposal -/

theorem view_allocLocal {s : GcScopeState} {stackId index dtype : ℕ} {payload : Payload}
    {sys : Option NodePtr} (hok : h.allocLocal stackId index s dtype payload sys = .ok (h', n)) :
    s.partitionId < h.view.count ∧
      h'.view = (h.view.alloc s.partitionId n payload).protect s.partitionId n := by
  obtain ⟨h₁, hraw, rfl⟩ := allocLocal_ok hok
  obtain ⟨hi, hview⟩ := view_allocRaw hraw
  exact ⟨hi, by rw [view_addNode, hview]⟩

theorem view_addNonLocal (s : GcScopeState) : (h.addNonLocal i j s n).view = h.view ∨
    (h.addNonLocal i j s n).view = h.view.protect s.partitionId n := by
  unfold addNonLocal
  split
  · exact .inl rfl
  · exact .inr (view_addNode s)

@[simp] theorem view_promoteNodeTo (s : GcScopeState) (targetStack targetIndex : ℕ) :
    (h.promoteNodeTo i j s n targetStack targetIndex).view = h.view := by
  unfold promoteNodeTo
  split <;> rfl

@[simp] theorem view_clearWeakSlot : (h.clearWeakSlot n).view = h.view := by
  rw [clearWeakSlot_eq]
  rfl

@[simp] theorem view_emit (events : List GcEvent) : (h.emit events).view = h.view := rfl

theorem view_downgrade {w : GcWeakRawId} (hok : h.downgrade n = some (h', w)) :
    h'.view = h.view := by
  obtain ⟨slots, rfl⟩ := downgrade_frame hok
  rw [view_modifyHead]
  refine MarkState.ext rfl rfl rfl rfl ?_ ?_ ?_ ?_ rfl <;> exact Function.update_eq_self _ _

@[simp] theorem view_disposeMemOnly (layoutAlign grossSize : ℕ) :
    (h.disposeMemOnly n i layoutAlign grossSize).1.view = h.view := by
  unfold disposeMemOnly
  dsimp only
  split <;> simp

@[simp] theorem view_disposeNode (s : SweepState) :
    (s.disposeNode i n).heap.view = s.heap.view := by
  unfold SweepState.disposeNode disposeNoDrop
  dsimp only
  split <;> simp

theorem view_sweepPass (pass : ℕ) (l : List NodePtr) : ∀ s : SweepState,
    (sweepPass i pass s l).1.heap.view = s.heap.view := by
  induction l with
  | nil => exact fun s => rfl
  | cons n l ih =>
    intro s
    unfold sweepPass
    split
    · rw [ih, view_disposeNode]
    · exact ih s

theorem view_sweepPasses (passes : List ℕ) : ∀ (s : SweepState) (l : List NodePtr),
    (sweepPasses i passes s l).heap.view = s.heap.view := by
  induction passes with
  | nil => exact fun s l => rfl
  | cons pass passes ih =>
    intro s l
    have hpass := view_sweepPass (i := i) pass l s
    unfold sweepPasses
    dsimp only
    split
    · exact hpass
    · rw [ih, hpass]

@[simp] theorem view_finishSweep (holes : List Hole) : (h.finishSweep i holes).view = h.view := by
  unfold finishSweep
  split
  · exact view_setArena _
  · rfl

@[simp] theorem view_sweepDispose (white : List NodePtr) :
    (h.sweepDispose i white).1.view = h.view := by
  simp only [sweepDispose, view_finishSweep]
  exact view_sweepPasses _ _ _

/-- A sweep is its unlinking. -/
theorem view_twoPhaseSweep : (h.twoPhaseSweep i).1.view = (h.sweepUnlink i).1.view := by
  unfold twoPhaseSweep
  rcases h.sweepUnlink i with ⟨h₁, _ | white⟩
  · rfl
  · simp

/-! ### Partitions -/

theorem view_createPartition {capacity maxAlloc id : ℕ} {sys : Option ℕ}
    (hok : h.createPartition capacity maxAlloc sys = some (h', id)) :
    h'.view = { h.view with count := h.view.count + 1 } := by
  obtain ⟨q, rfl, hpar, ⟨hnodes, hgray, hmark, -⟩, -⟩ := createPartition_ok hok
  -- past the end there was the empty partition anyway
  have hfield : ∀ {α : Type} (φ : GcPartition → α), φ q = φ default →
      (fun j => φ (GcHeap.par { h with partitions := h.partitions ++ [q] } j)) =
        fun j => φ (h.par j) := by
    intro α φ hφ
    funext j
    rw [hpar]
    split
    · next hj => rw [hφ, par_of_length_le (Nat.le_of_eq hj.symm)]
    · rfl
  exact MarkState.ext (by simp [view]) (hfield _ hnodes) (hfield _ hgray) (hfield _ hmark)
    rfl rfl rfl rfl rfl

theorem unprotects_finalizePartition {link : List NodePtr}
    (hok : h.finalizePartition i = some (h', link)) : Unprotects h.view h'.view := by
  obtain ⟨⟨h₁, link₁⟩, hprep, heq⟩ := Option.map_eq_some_iff.mp hok
  obtain ⟨rfl, -⟩ := Prod.mk.inj heq
  obtain ⟨-, -, rfl⟩ := finalizePartitionPrepare_ok hprep
  exact unprotects_clearScopesOf

theorem view_deallocPartition {debug : Bool} {link : List NodePtr} {sys : Option ℕ} {bytes : ℕ}
    (hok : h.deallocPartition debug i link sys = some (h', bytes)) :
    h'.view = h.view.drop i := by
  obtain ⟨arena, log, -, rfl⟩ := deallocPartition_ok hok
  refine MarkState.ext length_modifyPar (funext fun j => ?_) (funext fun j => ?_)
    (funext fun j => ?_) rfl rfl rfl rfl rfl
  all_goals
    by_cases hj : j = i
    · subst hj
      by_cases hlt : j < h.partitions.length
      · simp [view, MarkState.drop, modifyPar, par, hlt]
      · have hlt := Nat.le_of_not_lt hlt
        simp [view, MarkState.drop, modifyPar, par, hlt]
        try rfl
    · simp [view, MarkState.drop, modifyPar, par, hj, Ne.symm hj]

/-- **Teardown** takes the protection of the scopes away, and then the whole partition. -/
theorem view_removePartition {debug : Bool} {sys : Option ℕ} {bytes : ℕ}
    (hok : h.removePartition debug i sys = some (h', bytes)) :
    h' = h ∨ ∃ s, Unprotects h.view s ∧ h'.view = s.drop i := by
  unfold removePartition at hok
  cases hfin : h.finalizePartition i with
  | none =>
    rw [hfin] at hok
    exact .inl (Prod.mk.inj (Option.some.inj hok)).1.symm
  | some r =>
    obtain ⟨h₁, link⟩ := r
    rw [hfin] at hok
    exact .inr ⟨_, unprotects_finalizePartition hfin, view_deallocPartition hok⟩

end GcHeap

/-- The marker does not see scope stacks and limits. -/
theorem view_of_bookkeeping {h h' : GcHeap} {op : Op} (hop : op.isBookkeeping = true)
    (hexec : exec h op = some h') : h'.view = h.view := by
  obtain ⟨limit, threshold, scopes, rfl⟩ := exec_bookkeeping hop hexec
  rfl

end GcLite
