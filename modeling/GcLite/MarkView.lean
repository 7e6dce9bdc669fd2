import GcLite.Barrier
import GcLite.MarkRun
import GcLite.Teardown

/-!
# The heap refines the marker's state

Each operation of the marker, seen through `GcHeap.view`, is one of the changes of `MarkState` or a
run of them.

## Main definitions

* `GcHeap.view` — the marker's state of a heap
* `GcHeap.reach`, `GcHeap.localReach` — what roots and locals reach

## Main results

* `view_parAddGrayNode`, `view_markReset`, `view_traceGray`, `view_sweepUnlink`
* `prepared_markPrepare` — beginning a cycle seeds each partition by itself
* `markGrays_run` — a mark step is a run on the gray list of its partition
-/

namespace GcLite

open Transition

namespace GcHeap

/-- The marker's state of a heap. -/
def view (h : GcHeap) : MarkState where
  count := h.partitions.length
  chain i := (h.par i).nodes
  gray i := (h.par i).grayList
  marking i := (h.par i).marking
  color n := (h.head n).color
  listed n := (h.head n).grayListed
  prot n := (h.head n).isRootOrLocal
  pid n := (h.head n).partitionId
  refs := h.refs

/-- What is reachable from roots and locals of any partition, along references of any kind. -/
def reach (h : GcHeap) : Set NodePtr := h.view.reach

/-- What the roots and locals of one partition reach without leaving it. -/
def localReach (h : GcHeap) (i : ℕ) : Set NodePtr := h.view.localReach i

variable {h h' : GcHeap} {i j : ℕ} {n m : NodePtr}

/-! ### Changing one field -/

theorem view_modifyHead (g : GcHead → GcHead) : (h.modifyHead n g).view =
    { h.view with
      color := Function.update h.view.color n (g (h.head n)).color
      listed := Function.update h.view.listed n (g (h.head n)).grayListed
      prot := Function.update h.view.prot n (g (h.head n)).isRootOrLocal
      pid := Function.update h.view.pid n (g (h.head n)).partitionId } := by
  have hupdate : ∀ {α : Type} (φ : GcHead → α), (fun m => φ ((h.modifyHead n g).head m)) =
      Function.update (fun m => φ (h.head m)) n (φ (g (h.head n))) := by
    intro α φ
    funext m
    rw [head_modifyHead, Function.update_apply]
    split <;> rfl
  exact MarkState.ext rfl rfl rfl rfl (hupdate GcHead.color) (hupdate GcHead.grayListed)
    (hupdate GcHead.isRootOrLocal) (hupdate GcHead.partitionId) rfl

@[simp] theorem view_setColor (c : GcTriColor) :
    (h.setColor n c).view = { h.view with color := Function.update h.view.color n c } := by
  rw [setColor, view_modifyHead]
  exact MarkState.ext rfl rfl rfl rfl rfl (Function.update_eq_self _ _)
    (Function.update_eq_self _ _) (Function.update_eq_self _ _) rfl

@[simp] theorem view_setGrayListed (b : Bool) :
    (h.setGrayListed n b).view = { h.view with listed := Function.update h.view.listed n b } := by
  rw [setGrayListed, view_modifyHead]
  exact MarkState.ext rfl rfl rfl rfl (Function.update_eq_self _ _) rfl
    (Function.update_eq_self _ _) (Function.update_eq_self _ _) rfl

/-- Changing the gray list of a partition. -/
theorem view_modifyGray (f : List NodePtr → List NodePtr) :
    (h.modifyPar i fun q => { q with grayList := f q.grayList }).view =
      { h.view with gray := fun j =>
          if j = i ∧ i < h.view.count then f (h.view.gray j) else h.view.gray j } := by
  refine MarkState.ext length_modifyPar (funext fun j => ?_) (funext fun j => ?_)
    (funext fun j => ?_) rfl rfl rfl rfl rfl
  · exact field_modifyPar GcPartition.nodes fun _ => rfl
  · by_cases hj : j = i
    · subst hj
      by_cases hlt : j < h.partitions.length <;> simp [view, par_modifyPar, hlt]
    · simp [view, par_modifyPar, hj, Ne.symm hj]
  · exact field_modifyPar GcPartition.marking fun _ => rfl

/-- Changing the chain of a partition. -/
theorem view_modifyNodes (f : List NodePtr → List NodePtr) :
    (h.modifyPar i fun q => { q with nodes := f q.nodes }).view =
      { h.view with chain := fun j =>
          if j = i ∧ i < h.view.count then f (h.view.chain j) else h.view.chain j } := by
  refine MarkState.ext length_modifyPar (funext fun j => ?_) (funext fun j => ?_)
    (funext fun j => ?_) rfl rfl rfl rfl rfl
  · by_cases hj : j = i
    · subst hj
      by_cases hlt : j < h.partitions.length <;> simp [view, par_modifyPar, hlt]
    · simp [view, par_modifyPar, hj, Ne.symm hj]
  · exact field_modifyPar GcPartition.grayList fun _ => rfl
  · exact field_modifyPar GcPartition.marking fun _ => rfl

theorem view_pushGray : (h.pushGray i n).view =
    { h.view with gray := fun j =>
        if j = i ∧ i < h.view.count then n :: h.view.gray j else h.view.gray j } :=
  view_modifyGray _

theorem view_setMarking (b : Bool) (hi : i < h.view.count) : (h.setMarking i b).view =
    { h.view with marking := fun j => if j = i then b else h.view.marking j } := by
  refine MarkState.ext length_modifyPar (funext fun j => ?_) (funext fun j => ?_)
    (funext fun j => ?_) rfl rfl rfl rfl rfl
  · exact field_modifyPar GcPartition.nodes fun _ => rfl
  · exact field_modifyPar GcPartition.grayList fun _ => rfl
  · by_cases hj : j = i
    · subst hj
      simp [view, setMarking, par_modifyPar, show j < h.partitions.length from hi]
    · simp [view, setMarking, par_modifyPar, hj, Ne.symm hj]

@[simp] theorem view_setRefs (payload : Payload) :
    (h.setRefs n payload).view = h.view.setRefs n payload := rfl

/-! ### Listing a node -/

theorem view_pushUnlisted : (h.pushUnlisted i n).view =
    { h.view with
      listed := Function.update h.view.listed n true
      gray := fun j => if j = i ∧ i < h.view.count ∧ h.view.listed n = false then
        n :: h.view.gray j else h.view.gray j } := by
  unfold pushUnlisted
  split
  · next hl =>
    have hl : h.view.listed n = true := hl
    refine MarkState.ext rfl rfl ?_ rfl rfl ?_ rfl rfl rfl
    · simp [hl]
    · simp [← hl]
  · next hl =>
    have hl : h.view.listed n = false := Bool.eq_false_iff.mpr hl
    refine (view_modifyGray (n :: ·)).trans ?_
    refine MarkState.ext rfl rfl ?_ rfl ?_ ?_ ?_ ?_ rfl
    · simp only [hl, and_true]
      rfl
    all_goals
      have hview := view_setGrayListed (h := h) (n := n) true
      rw [setGrayListed] at hview
      simp [hview]

/-- `add_gray_node` is `shade`. -/
theorem view_parAddGrayNode : (h.parAddGrayNode i n).view = h.view.shade i n := by
  unfold parAddGrayNode MarkState.shade
  cases hc : (h.head n).color with
  | black => simp [view, hc]
  | white =>
    have hc' : h.view.color n ≠ .black := by simp [view, hc]
    rw [if_neg hc']
    refine view_pushUnlisted.trans ?_
    rw [← setColor, view_setColor]
  | gray =>
    have hc' : h.view.color n = .gray := hc
    rw [if_neg (by simp [hc'])]
    refine view_pushUnlisted.trans ?_
    simp [← hc']

/-! ### Tracing -/

/-- The view after `shadeChild` has gone over `cs`. -/
private def shadedView (s : MarkState) (i : ℕ) (cs : List NodePtr) : MarkState :=
  { s with
    color := fun m => if m ∈ cs ∧ s.color m ≠ .black then .gray else s.color m
    listed := fun m => if m ∈ cs ∧ s.color m ≠ .black then true else s.listed m
    gray := fun j => if j = i ∧ i < s.count then
      (cs.filter fun c => s.color c != .black && s.pid c == i).reverse ++ s.gray j else s.gray j }

/-- The buffer that `shadeChild` leaves. -/
private def crossOf (s : MarkState) (i : ℕ) (cs : List NodePtr) : List (ℕ × NodePtr) :=
  (cs.filter fun c => s.color c != .black && s.pid c != i).map fun c => (s.pid c, c)

/-- One child grayed. -/
private def shadeOne (s : MarkState) (c : NodePtr) : MarkState :=
  { s with color := Function.update s.color c .gray, listed := Function.update s.listed c true }

private theorem shadeOne_color_bne_black {s : MarkState} {c : NodePtr} (hc : s.color c ≠ .black)
    (m : NodePtr) : ((shadeOne s c).color m != .black) = (s.color m != .black) := by
  by_cases hm : m = c
  · subst hm
    rw [bne_iff_ne.mpr hc]
    simp [shadeOne]
  · simp [shadeOne, hm]

private theorem shadeOne_color_ne_black {s : MarkState} {c : NodePtr} (hc : s.color c ≠ .black)
    (m : NodePtr) : (shadeOne s c).color m ≠ .black ↔ s.color m ≠ .black := by
  simpa using congrArg (· = true) (shadeOne_color_bne_black hc m)

/-- Graying `c` first and the rest afterwards is graying all of them. -/
private theorem shadedView_cons {s : MarkState} {i : ℕ} {c : NodePtr} {cs : List NodePtr}
    (hc : s.color c ≠ .black) :
    shadedView
      { shadeOne s c with
        gray := fun j =>
          if s.pid c = i ∧ j = i ∧ i < s.count then c :: s.gray j else s.gray j } i cs =
      shadedView s i (c :: cs) := by
  simp only [shadedView, shadeOne_color_ne_black hc, shadeOne_color_bne_black hc]
  refine MarkState.ext rfl rfl (funext fun j => ?_) rfl (funext fun m => ?_) (funext fun m => ?_)
    rfl rfl rfl
  · by_cases hj : j = i ∧ i < s.count
    · by_cases hpid : s.pid c = i <;> simp [shadeOne, hj, hc, hpid]
    · have hj' : ¬ (s.pid c = i ∧ j = i ∧ i < s.count) := fun h => hj h.2
      simp only [shadeOne, if_neg hj, if_neg hj']
  · by_cases hm : m = c
    · simp [shadeOne, hm, hc]
    · simp [shadeOne, hm]
  · by_cases hm : m = c
    · simp [shadeOne, hm, hc]
    · simp [shadeOne, hm]

private theorem view_foldl_shadeChild (cs : List NodePtr) :
    ∀ (h : GcHeap) (buf : List (ℕ × NodePtr)),
      (cs.foldl (shadeChild i) (h, buf)).1.view = shadedView h.view i cs ∧
      (cs.foldl (shadeChild i) (h, buf)).2 = buf ++ crossOf h.view i cs := by
  induction cs with
  | nil => intro h buf; simp [shadedView, crossOf]
  | cons c cs ih =>
    intro h buf
    rw [List.foldl_cons]
    by_cases hc : h.view.color c = .black
    · -- a black child is passed over
      have hstep : shadeChild i (h, buf) c = (h, buf) := by
        simp [shadeChild, show (h.head c).color = .black from hc]
      obtain ⟨hview, hbuf⟩ := ih h buf
      have hmem : ∀ m, (m ∈ c :: cs ∧ h.view.color m ≠ .black) ↔
          (m ∈ cs ∧ h.view.color m ≠ .black) := by
        intro m
        by_cases hm : m = c
        · simp [hm, hc]
        · simp [hm]
      rw [hstep]
      refine ⟨hview.trans ?_, hbuf.trans (by simp [crossOf, hc])⟩
      simp only [shadedView, hmem]
      simp [hc]
    · -- the others are grayed, and one of the two lists gets them
      set h₁ := (h.setColor c .gray).setGrayListed c true with hh₁
      have hpid₁ : (h₁.head c).partitionId = h.view.pid c := by
        simp [hh₁, setColor, setGrayListed, view]
      have hview₁ : h₁.view = shadeOne h.view c := by simp [hh₁, shadeOne]
      have hstep : shadeChild i (h, buf) c =
          if h.view.pid c = i then (h₁.pushGray i c, buf)
          else (h₁, buf ++ [(h.view.pid c, c)]) := by
        simp only [shadeChild, ne_eq, show ¬ (h.head c).color = .black from hc, not_false_eq_true,
          if_true, ← hh₁, hpid₁]
      have hblack := shadeOne_color_bne_black hc
      rw [hstep, ← shadedView_cons hc]
      split
      · next hpid =>
        obtain ⟨hview, hbuf⟩ := ih (h₁.pushGray i c) buf
        rw [view_pushGray, hview₁] at hview hbuf
        refine ⟨hview.trans ?_, hbuf.trans ?_⟩
        · simp only [hpid, true_and]
          rfl
        · simp only [crossOf, hblack]
          simp [hpid, shadeOne]
      · next hpid =>
        obtain ⟨hview, hbuf⟩ := ih h₁ (buf ++ [(h.view.pid c, c)])
        rw [hview₁] at hview hbuf
        refine ⟨hview.trans ?_, hbuf.trans ?_⟩
        · simp [hpid, shadeOne]
        · simp only [crossOf, hblack]
          simp [hpid, hc, shadeOne]

private theorem view_foldl_pushGray (buf : List (ℕ × NodePtr)) : ∀ h : GcHeap,
    (buf.foldl (fun h (cpid, ch) => h.pushGray cpid ch) h).view =
      { h.view with gray := fun j => if j < h.view.count then
          ((buf.filter fun e => e.1 == j).map Prod.snd).reverse ++ h.view.gray j
          else h.view.gray j } := by
  induction buf with
  | nil => intro h; simp
  | cons e buf ih =>
    intro h
    rw [List.foldl_cons, ih, view_pushGray]
    refine MarkState.ext rfl rfl (funext fun j => ?_) rfl rfl rfl rfl rfl rfl
    by_cases hj : j < h.view.count
    · by_cases he : e.1 = j
      · subst he
        simp [hj]
      · simp [hj, he, Ne.symm he]
    · have : ¬ (j = e.1 ∧ e.1 < h.view.count) := by
        rintro ⟨rfl, hlt⟩
        exact hj hlt
      simp [hj, this]

theorem mem_traced {c : NodePtr} : c ∈ h.traced n ↔ c ∈ h.refs n := by
  have hfold : ∀ (rs acc : List NodePtr), c ∈ rs.foldl addTraced acc ↔ c ∈ acc ∨ c ∈ rs := by
    intro rs
    induction rs with
    | nil => simp
    | cons r rs ih =>
      intro acc
      rw [List.foldl_cons, ih, addTraced]
      split
      · next hr =>
        constructor
        · rintro (hc | hc) <;> simp [hc]
        · rintro (hc | hc)
          · exact .inl hc
          · rcases List.mem_cons.mp hc with rfl | hc
            · exact .inl hr
            · exact .inr hc
      · simp [or_assoc]
  simp [traced, hfold]

/-- Tracing with the buffer for other partitions is tracing. -/
theorem view_traceGray : (h.traceGray i n).view = h.view.trace n (h.traced n) := by
  obtain ⟨hview, hbuf⟩ := view_foldl_shadeChild (i := i) (h.traced n) h []
  simp only [traceGray, view_setColor, view_foldl_pushGray, hview, hbuf, List.nil_append]
  refine MarkState.ext rfl rfl (funext fun j => ?_) rfl (funext fun m => ?_) rfl rfl rfl rfl
  · have hsplit : ((crossOf h.view i (h.traced n)).filter fun e => e.1 == j).map Prod.snd =
        (h.traced n).filter fun c =>
          h.view.pid c == j && (h.view.color c != .black && h.view.pid c != i) := by
      rw [crossOf, List.filter_map, List.map_map, List.filter_filter]
      exact List.map_id _
    dsimp only
    rw [hsplit]
    simp only [shadedView, MarkState.trace]
    by_cases hj : j < h.view.count
    · by_cases hji : j = i
      · subst hji
        have hnone : ∀ c : NodePtr, (h.view.pid c == j && (h.view.color c != .black &&
            h.view.pid c != j)) = false := by
          intro c
          by_cases hc : h.view.pid c = j <;> simp [hc]
        simp [hj, hnone]
      · have hsame : ∀ c : NodePtr, (h.view.pid c == j && (h.view.color c != .black &&
            h.view.pid c != i)) = (h.view.color c != .black && h.view.pid c == j) := by
          intro c
          by_cases hc : h.view.pid c = j
          · simp [hc, hji]
          · rw [beq_eq_false_iff_ne.mpr hc, Bool.false_and, Bool.and_false]
        simp only [hj, hji, hsame, if_true, false_and, if_false]
    · have hji : ¬ (j = i ∧ i < h.view.count) := by
        rintro ⟨rfl, hlt⟩
        exact hj hlt
      simp [hj, hji]
  · simp only [shadedView, MarkState.trace, Function.update_apply]

/-! ### Working off a gray list -/

theorem lt_count_of_gray {rest : List NodePtr} (hg : h.view.gray i = n :: rest) :
    i < h.view.count := by
  by_contra hi
  have : (h.par i).grayList = [] := by rw [par_of_length_le (Nat.le_of_not_lt hi)]; rfl
  simp [view, this] at hg

private theorem view_pop {rest : List NodePtr} (hg : h.view.gray i = n :: rest) :
    ((h.modifyPar i fun q => { q with grayList := rest }).setGrayListed n false).view =
      h.view.pop i n rest := by
  have hi := lt_count_of_gray hg
  rw [view_setGrayListed, view_modifyGray fun _ => rest]
  refine MarkState.ext rfl rfl (funext fun j => ?_) rfl rfl rfl rfl rfl rfl
  simp [hi, MarkState.pop, Function.update_apply]

/-- Popping skips the entries that are no longer gray. -/
theorem popGray_run : ∀ (l : List NodePtr) (h : GcHeap), h.view.gray i = l →
    ∃ as s, Run (MarkState.MarkStep i) h.view as s ∧ traces as = 0 ∧
      match h.popGray i l with
      | (h', none) => h'.view = s ∧ s.gray i = []
      | (h', some n) => i < s.count ∧ ∃ rest, s.gray i = n :: rest ∧ s.color n = .gray ∧
          h'.view = s.pop i n rest := by
  intro l
  induction l with
  | nil => exact fun h hl => ⟨[], h.view, .nil _, rfl, rfl, hl⟩
  | cons n rest ih =>
    intro h hl
    have hpop := view_pop hl
    rw [popGray]
    generalize (h.modifyPar i fun q => { q with grayList := rest }).setGrayListed n false = h₁ at *
    have hcolor : (h₁.head n).color = h.view.color n := congrFun (congrArg MarkState.color hpop) n
    by_cases hc : h.view.color n = .gray
    · refine ⟨[], h.view, .nil _, rfl, ?_⟩
      rw [if_pos (hcolor.trans hc)]
      exact ⟨lt_count_of_gray hl, rest, hl, hc, hpop⟩
    · rw [if_neg (hcolor ▸ hc)]
      obtain ⟨as, s, hrun, has, hres⟩ := ih h₁ (by rw [hpop]; simp [MarkState.pop])
      rw [hpop] at hrun
      exact ⟨.skip n :: as, s, .cons (.skip hl hc) hrun,
        by simpa [traces_cons, MarkAction.isTrace], hres⟩

/-- The loop of `mark_grays` is a run. It traces no more nodes than the budget allows; if it stops
early the list is empty, and if it is cut off the budget has been used up. -/
theorem markGraysLoop_run : ∀ (budget : ℕ) (h : GcHeap),
    ∃ as, Run (MarkState.MarkStep i) h.view as (markGraysLoop i budget h).1.view ∧
      traces as ≤ budget ∧
      ((markGraysLoop i budget h).2 = true → (markGraysLoop i budget h).1.view.gray i = []) ∧
      ((markGraysLoop i budget h).2 = false → traces as = budget) := by
  intro budget
  induction budget with
  | zero =>
    intro h
    obtain ⟨as, s, hrun, has, hres⟩ := popGray_run (i := i) _ h rfl
    rw [markGraysLoop]
    change match h.popGray i (h.par i).grayList with
      | (h', none) => _
      | (h', some n) => _ at hres
    rcases hp : h.popGray i (h.par i).grayList with ⟨h', _ | n⟩
    · rw [hp] at hres
      obtain ⟨hview, hg⟩ := hres
      exact ⟨as, hview ▸ hrun, by omega, fun _ => hview ▸ hg, by simp⟩
    · rw [hp] at hres
      obtain ⟨hi, rest, hg, hc, hview⟩ := hres
      have hback : (h'.pushGray i n).view = s.requeue n := by
        rw [view_pushGray, hview]
        refine MarkState.ext rfl rfl (funext fun j => ?_) rfl rfl rfl rfl rfl rfl
        by_cases hj : j = i
        · subst hj
          simp [MarkState.pop, MarkState.requeue, hg, hi]
        · simp [MarkState.pop, MarkState.requeue, hj]
      have htraces : traces (as ++ [.requeue n]) = 0 := by
        rw [traces_append, has]
        rfl
      exact ⟨as ++ [.requeue n], run_append.mpr ⟨s, hrun, .cons (hback ▸ .requeue hg hc) (.nil _)⟩,
        by omega, by simp, fun _ => htraces⟩
  | succ budget ih =>
    intro h
    obtain ⟨as, s, hrun, has, hres⟩ := popGray_run (i := i) _ h rfl
    rw [markGraysLoop]
    change match h.popGray i (h.par i).grayList with
      | (h', none) => _
      | (h', some n) => _ at hres
    rcases hp : h.popGray i (h.par i).grayList with ⟨h', _ | n⟩
    · rw [hp] at hres
      obtain ⟨hview, hg⟩ := hres
      exact ⟨as, hview ▸ hrun, by omega, fun _ => hview ▸ hg, by simp⟩
    · rw [hp] at hres
      obtain ⟨-, rest, hg, hc, hview⟩ := hres
      obtain ⟨bs, hrest, hle, hdone, hcut⟩ := ih (h'.traceGray i n)
      have hcs : ∀ c, c ∈ h'.traced n ↔ c ∈ s.refs n := by
        intro c
        rw [mem_traced]
        exact iff_of_eq (congrArg (fun t => c ∈ t.refs n) hview)
      rw [view_traceGray, hview] at hrest
      have htraces : traces (as ++ .trace n :: bs) = traces bs + 1 := by
        simp [traces_append, traces_cons, has, MarkAction.isTrace]
      exact ⟨as ++ .trace n :: bs, run_append.mpr ⟨s, hrun, .cons (.trace hg hc hcs) hrest⟩,
        by omega, hdone, fun hb => by rw [htraces, hcut hb]⟩

/-- A mark step on its own list, without the preparation. -/
theorem markGrays_run (maxSteps : ℕ) :
    ∃ as, Run (MarkState.MarkStep i) h.view as (h.markGrays i maxSteps).1.view ∧
      ((h.markGrays i maxSteps).2 = true → (h.markGrays i maxSteps).1.view.gray i = []) ∧
      ((h.markGrays i maxSteps).2 = false → traces as = maxSteps) := by
  unfold markGrays
  split
  · next hzero => exact ⟨[], .nil _, by simp, fun _ => hzero ▸ rfl⟩
  · obtain ⟨as, hrun, -, hdone, hcut⟩ := markGraysLoop_run (i := i) maxSteps h
    exact ⟨as, hrun, hdone, hcut⟩

/-! ### Beginning a cycle -/

private theorem view_foldl_seedNode (pending : Bool) (l : List NodePtr) : ∀ h : GcHeap,
    (l.foldl (seedNode i pending) h).view =
      { h.view with
        color := fun m => if m ∈ l then
          if h.view.prot m then .gray else if pending then h.view.color m else .white
          else h.view.color m
        gray := fun j => if j = i ∧ i < h.view.count ∧ pending = false then
          (l.filter h.view.prot).reverse ++ h.view.gray j else h.view.gray j } := by
  induction l with
  | nil => intro h; simp
  | cons n l ih =>
    intro h
    have hstep : (seedNode i pending h n).view =
        { h.view with
          color := if h.view.prot n then Function.update h.view.color n .gray
            else if pending then h.view.color else Function.update h.view.color n .white
          gray := fun j => if j = i ∧ i < h.view.count ∧ pending = false ∧ h.view.prot n then
            n :: h.view.gray j else h.view.gray j } := by
      unfold seedNode
      by_cases hp : h.view.prot n = true
      · rw [if_pos (show (h.head n).isRootOrLocal = true from hp)]
        cases pending <;> simp [view_pushGray, hp]
      · rw [if_neg (show ¬ (h.head n).isRootOrLocal = true from hp)]
        cases pending <;> simp [hp]
    rw [List.foldl_cons, ih, hstep]
    refine MarkState.ext rfl rfl (funext fun j => ?_) rfl (funext fun m => ?_) rfl rfl rfl rfl
    · by_cases hj : j = i ∧ i < h.view.count ∧ pending = false
      · obtain ⟨rfl, hlt, rfl⟩ := hj
        by_cases hp : h.view.prot n = true <;> simp [hlt, hp]
      · have hj' : ¬ (j = i ∧ i < h.view.count ∧ pending = false ∧ h.view.prot n = true) :=
          fun h => hj ⟨h.1, h.2.1, h.2.2.1⟩
        simp only [if_neg hj, if_neg hj']
    · by_cases hm : m = n
      · subst hm
        by_cases hp : h.view.prot m = true <;> by_cases hml : m ∈ l <;> cases pending <;>
          simp [hp, hml]
      · by_cases hp : h.view.prot n = true <;> by_cases hml : m ∈ l <;> cases pending <;>
          simp [hp, hml, hm]

private theorem view_foldl_seedPendingNode (hi : i < h.view.count) (l : List NodePtr) :
    ∀ h' : GcHeap, h'.view.count = h.view.count →
    ∃ gray, (l.foldl (seedPendingNode i) h').view =
      { h'.view with
        color := fun m => if m ∈ l ∧ h'.view.prot m then .gray else h'.view.color m
        listed := fun m => h'.view.listed m || (m ∈ l && h'.view.prot m)
        gray := gray } ∧
      (∀ j, j ≠ i → gray j = h'.view.gray j) ∧
      ∀ m, m ∈ gray i ↔
        m ∈ h'.view.gray i ∨ (m ∈ l ∧ h'.view.prot m = true ∧ h'.view.listed m = false) := by
  induction l with
  | nil => exact fun h' _ => ⟨h'.view.gray, by simp, by simp, by simp⟩
  | cons n l ih =>
    intro h' hcount
    rw [List.foldl_cons]
    by_cases hp : h'.view.prot n = true
    · have hstep : (seedPendingNode i h' n).view =
          { h'.view with
            color := Function.update h'.view.color n .gray
            listed := Function.update h'.view.listed n true
            gray := fun j => if j = i ∧ h'.view.listed n = false then n :: h'.view.gray j
              else h'.view.gray j } := by
        rw [seedPendingNode, if_pos (show (h'.head n).isRootOrLocal = true from hp),
          view_pushUnlisted, view_setColor]
        simp [hcount, hi]
      obtain ⟨gray, hview, hother, hmem⟩ :=
        ih (seedPendingNode i h' n) (by rw [hstep]; exact hcount)
      rw [hstep] at hview hother hmem
      refine ⟨gray, hview.trans ?_, fun j hj => ?_, fun m => ?_⟩
      · refine MarkState.ext rfl rfl rfl rfl (funext fun m => ?_) (funext fun m => ?_) rfl rfl rfl
        · by_cases hm : m = n
          · simp [hm, hp]
          · simp [hm]
        · by_cases hm : m = n
          · simp [hm, hp]
          · simp [hm]
      · rw [hother j hj]
        simp [hj]
      · rw [hmem m]
        by_cases hm : m = n
        · subst hm
          by_cases hl : h'.view.listed m = true
          · simp [hl]
          · simp [hl, hp]
        · by_cases hl : h'.view.listed n = true <;> simp [hm, hl]
    · have hstep : seedPendingNode i h' n = h' := if_neg hp
      have hp : h'.view.prot n = false := by simpa using hp
      obtain ⟨gray, hview, hother, hmem⟩ := ih h' hcount
      rw [hstep]
      refine ⟨gray, hview.trans ?_, hother, fun m => ?_⟩
      · refine MarkState.ext rfl rfl rfl rfl (funext fun m => ?_) (funext fun m => ?_) rfl rfl rfl
        · by_cases hm : m = n
          · simp [hm, hp]
          · simp [hm]
        · by_cases hm : m = n
          · simp [hm, hp]
          · simp [hm]
      · rw [hmem m]
        by_cases hm : m = n
        · simp [hm, hp]
        · simp [hm]

/-- What seeding does to partition `i`; it leaves the other partitions alone. -/
private structure Seeded (s t : MarkState) (i : ℕ) : Prop where
  /-- Only colours, flags and lists change. -/
  frame : t = { s with color := t.color, listed := t.listed, gray := t.gray }
  /-- Protected nodes of the partition are gray, and the others white if nothing was listed. -/
  color : ∀ m, t.color m = if m ∈ s.chain i then
    if s.prot m then .gray else if s.gray i = [] then .white else s.color m else s.color m
  /-- They are on the list, beside what was there. -/
  mem_gray : ∀ m, m ∈ t.gray i ↔
    m ∈ s.gray i ∨ (m ∈ s.chain i ∧ s.prot m = true ∧ (s.gray i = [] ∨ s.listed m = false))
  /-- They are flagged if they were added to other entries. -/
  listed : ∀ m, t.listed m = (s.listed m || (m ∈ s.chain i && s.prot m && s.gray i ≠ []))
  /-- No other list changes. -/
  other : ∀ j, j ≠ i → t.gray j = s.gray j

private theorem seeded_seedPartition (hi : i < h.view.count) :
    Seeded h.view (h.seedPartition i).view i := by
  unfold seedPartition
  dsimp only
  cases hg : (h.par i).grayList with
  | nil =>
    have hg : h.view.gray i = [] := hg
    rw [if_neg (by simp), view_foldl_seedNode]
    refine ⟨rfl, fun m => ?_, fun m => ?_, fun m => ?_, fun j hj => ?_⟩
    · simp only [hg, List.isEmpty_nil, Bool.not_true, Bool.false_eq_true, if_true, if_false]
      rfl
    · simp only [hi, List.isEmpty_nil, Bool.not_true, and_self, if_true, List.mem_append,
        List.mem_reverse, List.mem_filter, hg, true_or, and_true, List.not_mem_nil, or_false,
        false_or]
      rfl
    · simp [hg]
    · simp [hj]
  | cons n rest =>
    have hg : h.view.gray i = n :: rest := hg
    have hseed := view_foldl_seedNode (i := i) true (h.par i).nodes h
    simp only [List.isEmpty_cons, Bool.not_false, if_true]
    generalize (h.par i).nodes.foldl (seedNode i true) h = h₁ at *
    have hchain : h₁.view.chain i = h.view.chain i := by rw [hseed]
    have hcount : h₁.view.count = h.view.count := by rw [hseed]
    obtain ⟨gray, hview, hother, hmem⟩ := view_foldl_seedPendingNode hi (h.view.chain i) h₁ hcount
    rw [hseed] at hview hmem hother
    rw [show (h₁.par i).nodes = h.view.chain i from hchain, hview]
    refine ⟨rfl, fun m => ?_, fun m => ?_, fun m => ?_, fun j hj => ?_⟩
    · by_cases hm : m ∈ h.view.chain i
      · by_cases hp : h.view.prot m = true <;> simp [hm, hp, hg]
      · simp [hm, show m ∉ (h.par i).nodes from hm]
    · rw [hmem m]
      simp [hg]
    · simp [hg]
    · exact (hother j hj).trans (by simp)

private theorem view_setAllMarking : h.setAllMarking.view =
    { h.view with marking := fun j => if j < h.view.count then true else h.view.marking j } := by
  have hpar : ∀ j, h.setAllMarking.par j =
      if j < h.view.count then { h.par j with marking := true } else h.par j := by
    intro j
    by_cases hj : j < h.view.count
    · simp [par, setAllMarking, hj, show j < h.partitions.length from hj]
    · simp [par, setAllMarking, hj, show h.partitions.length ≤ j from Nat.le_of_not_lt hj]
  have hfields : ∀ j, (h.setAllMarking.par j).nodes = (h.par j).nodes ∧
      (h.setAllMarking.par j).grayList = (h.par j).grayList ∧
      (h.setAllMarking.par j).marking = if j < h.view.count then true else (h.par j).marking := by
    intro j
    rw [hpar]
    by_cases hj : j < h.view.count <;> simp only [hj, if_true, if_false, and_self]
  exact MarkState.ext (List.length_map _) (funext fun j => (hfields j).1)
    (funext fun j => (hfields j).2.1) (funext fun j => (hfields j).2.2) rfl rfl rfl rfl rfl

/-- Seeding the first `k` partitions, one after the other, seeds each of them by itself. -/
private structure SeededBelow (s t : MarkState) (k : ℕ) : Prop where
  /-- Only colours, flags and lists change. -/
  frame : t = { s with color := t.color, listed := t.listed, gray := t.gray }
  /-- The protected nodes of each partition are gray. -/
  color : ∀ j < k, ∀ m ∈ s.chain j, t.color m =
    if s.prot m then .gray else if s.gray j = [] then .white else s.color m
  /-- They are listed. -/
  mem_gray : ∀ j < k, ∀ m, m ∈ t.gray j ↔
    m ∈ s.gray j ∨ (m ∈ s.chain j ∧ s.prot m = true ∧ (s.gray j = [] ∨ s.listed m = false))
  /-- They are flagged. -/
  listed : ∀ j < k, ∀ m ∈ s.chain j, t.listed m = (s.listed m || (s.prot m && s.gray j ≠ []))
  /-- The partitions from `k` on have not been touched. -/
  rest : ∀ j, k ≤ j → t.gray j = s.gray j ∧
    ∀ m ∈ s.chain j, t.color m = s.color m ∧ t.listed m = s.listed m

private theorem SeededBelow.succ {s t u : MarkState} {k : ℕ} (hs : s.Owned)
    (h : SeededBelow s t k) (hk : Seeded t u k) : SeededBelow s u (k + 1) := by
  have hframe := h.frame
  have hchain : t.chain = s.chain := by rw [hframe]
  have hprot : t.prot = s.prot := by rw [hframe]
  obtain ⟨hgk, hck⟩ := h.rest k (Nat.le_refl _)
  have hout : ∀ {j m}, j ≠ k → m ∈ s.chain j → m ∉ t.chain k := by
    intro j m hj hm hmk
    exact hj (hs.eq_of_mem hm (hchain ▸ hmk))
  have hkeep : ∀ {j m}, j ≠ k → m ∈ s.chain j →
      u.color m = t.color m ∧ u.listed m = t.listed m := by
    intro j m hj hm
    rw [hk.color m, hk.listed m]
    simp [hout hj hm]
  refine ⟨?_, fun j hj m hm => ?_, fun j hj m => ?_, fun j hj m hm => ?_, fun j hj => ?_⟩
  · rw [hk.frame, hframe]
  · rcases Nat.lt_succ_iff_lt_or_eq.mp hj with hj | rfl
    · rw [(hkeep (Nat.ne_of_lt hj) hm).1]
      exact h.color j hj m hm
    · rw [hk.color m, hchain, hprot, hgk, if_pos hm, (hck m hm).1]
  · rcases Nat.lt_succ_iff_lt_or_eq.mp hj with hj | rfl
    · rw [hk.other j (Nat.ne_of_lt hj)]
      exact h.mem_gray j hj m
    · rw [hk.mem_gray m, hchain, hprot, hgk]
      refine or_congr_right (and_congr_right fun hm => ?_)
      rw [(hck m hm).2]
  · rcases Nat.lt_succ_iff_lt_or_eq.mp hj with hj | rfl
    · rw [(hkeep (Nat.ne_of_lt hj) hm).2]
      exact h.listed j hj m hm
    · rw [hk.listed m, hchain, hprot, hgk, (hck m hm).2]
      simp [hm]
  · have hjk : j ≠ k := by omega
    obtain ⟨hg, hc⟩ := h.rest j (by omega)
    refine ⟨(hk.other j hjk).trans hg, fun m hm => ?_⟩
    obtain ⟨hcol, hl⟩ := hkeep hjk hm
    exact ⟨hcol.trans (hc m hm).1, hl.trans (hc m hm).2⟩

/-- **Beginning a cycle.** Every partition is seeded by itself and marks from now on. -/
theorem prepared_markPrepare (hs : h.view.Owned) (hi : i < h.view.count)
    (hm : h.view.marking i = false) : MarkState.Prepared h.view (h.markPrepare i).view := by
  set h₀ := h.setAllMarking with hh₀
  have hview₀ : h₀.view = { h.view with
      marking := fun j => if j < h.view.count then true else h.view.marking j } :=
    view_setAllMarking
  have hs₀ : h₀.view.Owned := by
    rw [hview₀]
    refine ⟨fun j hj => ?_, hs.own⟩
    obtain ⟨hc, hg, hmark⟩ := hs.range j hj
    exact ⟨hc, hg, (if_neg (Nat.not_lt.mpr hj)).trans hmark⟩
  have hloop : ∀ k, k ≤ h.view.count →
      SeededBelow h₀.view ((List.range k).foldl seedPartition h₀).view k := by
    intro k
    induction k with
    | zero =>
      exact fun _ => ⟨rfl, by simp, by simp, by simp, fun j _ => ⟨rfl, fun m _ => ⟨rfl, rfl⟩⟩⟩
    | succ k ih =>
      intro hk
      have hprev := ih (by omega)
      rw [List.range_succ, List.foldl_append, List.foldl_cons, List.foldl_nil]
      refine hprev.succ hs₀ (seeded_seedPartition ?_)
      rw [hprev.frame, hview₀]
      exact hk
  have hprep : h.markPrepare i = (List.range h.view.count).foldl seedPartition h₀ := by
    have hlt : i < h.partitions.length := hi
    have hmark : (h.par i).marking = false := hm
    rw [markPrepare, if_neg (Nat.not_le.mpr hlt), hmark, if_neg Bool.false_ne_true]
    rfl
  have hall := hloop h.view.count (Nat.le_refl _)
  rw [← hprep, hview₀] at hall
  have hframe := hall.frame
  refine ⟨by rw [hframe], by rw [hframe], by rw [hframe], by rw [hframe], by rw [hframe], ?_, ?_,
    hall.mem_gray, ?_, fun j hj => ⟨(hall.rest j hj).1, ?_⟩⟩
  · intro j hj
    rw [hframe]
    exact if_pos hj
  · intro j m hmj
    exact hall.color j (hs.lt_count hmj) m hmj
  · intro j m hmj
    exact hall.listed j (hs.lt_count hmj) m hmj
  · rw [hframe]
    exact if_neg (Nat.not_lt.mpr hj)

theorem markPrepare_of_marking (hm : h.view.marking i = true) : h.markPrepare i = h := by
  unfold markPrepare
  split
  · rfl
  · exact if_pos hm

/-- Whatever the heap, `mark_prepare` keeps the graph, leaves the partition marking, and lists
nothing but nodes of the chains. -/
theorem markPrepare_frame : (h.markPrepare i).view.count = h.view.count ∧
    (h.markPrepare i).view.chain = h.view.chain ∧ (h.markPrepare i).view.refs = h.view.refs ∧
    (i < h.view.count → (h.markPrepare i).view.marking i = true) ∧
    ∀ j, ∀ m ∈ (h.markPrepare i).view.gray j, m ∈ h.view.gray j ∨ m ∈ h.view.chain j := by
  have hloop : ∀ k, k ≤ h.view.count →
      ((List.range k).foldl seedPartition h.setAllMarking).view = { h.setAllMarking.view with
        color := ((List.range k).foldl seedPartition h.setAllMarking).view.color
        listed := ((List.range k).foldl seedPartition h.setAllMarking).view.listed
        gray := ((List.range k).foldl seedPartition h.setAllMarking).view.gray } ∧
      ∀ j, ∀ m ∈ ((List.range k).foldl seedPartition h.setAllMarking).view.gray j,
        m ∈ h.view.gray j ∨ m ∈ h.view.chain j := by
    intro k
    induction k with
    | zero =>
      intro _
      refine ⟨rfl, fun j m hm => .inl ?_⟩
      rwa [List.range_zero, List.foldl_nil, view_setAllMarking] at hm
    | succ k ih =>
      intro hk
      obtain ⟨hframe, hentry⟩ := ih (by omega)
      rw [List.range_succ, List.foldl_append, List.foldl_cons, List.foldl_nil]
      generalize (List.range k).foldl seedPartition h.setAllMarking = h₁ at *
      have hchain : h₁.view.chain = h.view.chain := by rw [hframe, view_setAllMarking]
      have hcount : h₁.view.count = h.view.count := by rw [hframe, view_setAllMarking]
      have hseed := seeded_seedPartition (h := h₁) (i := k) (hcount ▸ hk)
      refine ⟨?_, fun j m hm => ?_⟩
      · rw [hseed.frame, hframe]
      · by_cases hj : j = k
        · subst hj
          rcases (hseed.mem_gray m).mp hm with hm | ⟨hm, -⟩
          · exact hentry j m hm
          · exact .inr (hchain ▸ hm)
        · rw [hseed.other j hj] at hm
          exact hentry j m hm
  by_cases hi : i < h.view.count
  · cases hmark : h.view.marking i with
    | true =>
      rw [markPrepare_of_marking hmark]
      exact ⟨rfl, rfl, rfl, fun _ => hmark, fun j m hm => .inl hm⟩
    | false =>
      have hlt : i < h.partitions.length := hi
      have hmark : (h.par i).marking = false := hmark
      have hprep : h.markPrepare i =
          (List.range h.view.count).foldl seedPartition h.setAllMarking := by
        rw [markPrepare, if_neg (Nat.not_le.mpr hlt), hmark, if_neg Bool.false_ne_true]
        rfl
      obtain ⟨hframe, hentry⟩ := hloop h.view.count (Nat.le_refl _)
      rw [← hprep] at hframe hentry
      rw [view_setAllMarking] at hframe
      refine ⟨by rw [hframe], by rw [hframe], by rw [hframe], fun _ => ?_, hentry⟩
      rw [hframe]
      exact if_pos hi
  · have hprep : h.markPrepare i = h := if_pos (Nat.le_of_not_lt hi)
    rw [hprep]
    exact ⟨rfl, rfl, rfl, fun hi' => absurd hi' hi, fun j m hm => .inl hm⟩

/-! ### Ending a cycle -/

private theorem view_foldl_setGrayListed (l : List NodePtr) : ∀ h : GcHeap,
    (l.foldl (fun h n => h.setGrayListed n false) h).view =
      { h.view with listed := fun m => if m ∈ l then false else h.view.listed m } := by
  induction l with
  | nil => intro h; simp
  | cons n l ih =>
    intro h
    rw [List.foldl_cons, ih, view_setGrayListed]
    refine MarkState.ext rfl rfl rfl rfl rfl (funext fun m => ?_) rfl rfl rfl
    by_cases hm : m = n <;> simp [hm]

private theorem view_foldl_setColor (c : GcTriColor) (l : List NodePtr) : ∀ h : GcHeap,
    (l.foldl (fun h n => h.setColor n c) h).view =
      { h.view with color := fun m => if m ∈ l then c else h.view.color m } := by
  induction l with
  | nil => intro h; simp
  | cons n l ih =>
    intro h
    rw [List.foldl_cons, ih, view_setColor]
    refine MarkState.ext rfl rfl rfl rfl (funext fun m => ?_) rfl rfl rfl rfl
    by_cases hm : m = n <;> simp [hm]

theorem view_markReset (hi : i < h.view.count) : (h.markReset i).view = h.view.reset i := by
  have hview₁ : (h.setMarking i false).view =
      { h.view with marking := fun j => if j = i then false else h.view.marking j } :=
    view_setMarking false hi
  simp only [markReset]
  set h₂ := ((h.setMarking i false).par i).grayList.foldl (fun h n => h.setGrayListed n false)
    (h.setMarking i false) with hh₂
  have hgray : ((h.setMarking i false).par i).grayList = h.view.gray i :=
    congrFun (congrArg MarkState.gray hview₁) i
  have hview₂ : h₂.view = { h.view with
      marking := fun j => if j = i then false else h.view.marking j
      listed := fun m => if m ∈ h.view.gray i then false else h.view.listed m } := by
    rw [hh₂, view_foldl_setGrayListed, hgray, hview₁]
  set h₃ := h₂.modifyPar i fun q => { q with grayList := [] } with hh₃
  have hview₃ : h₃.view = { h₂.view with
      gray := fun j => if j = i ∧ i < h₂.view.count then [] else h₂.view.gray j } :=
    view_modifyGray fun _ => []
  rw [view_foldl_setColor]
  have hchain : (h₃.par i).nodes = h.view.chain i :=
    (congrFun (congrArg MarkState.chain hview₃) i).trans
      (congrFun (congrArg MarkState.chain hview₂) i)
  rw [hchain, hview₃, hview₂]
  refine MarkState.ext rfl rfl (funext fun j => ?_) rfl rfl rfl rfl rfl rfl
  by_cases hj : j = i
  · subst hj
    simp [MarkState.reset, hi]
  · simp [MarkState.reset, hj]

/-- Unlinking takes the garbage out of the chain, and hands it over unless the chain was empty. -/
theorem view_sweepUnlink (hi : i < h.view.count) (hm : h.view.marking i = true)
    (hg : h.view.gray i = []) :
    (h.sweepUnlink i).1.view = h.view.unlink i ∧
      (h.sweepUnlink i).2 = if h.view.chain i = [] then none
        else some ((h.view.chain i).filter h.view.garbage) := by
  have hguard : (!((h.par i).marking && (h.par i).grayList.isEmpty)) = false := by
    simp [show (h.par i).marking = true from hm, show (h.par i).grayList = [] from hg]
  have hview₁ := view_setMarking false hi
  have hlt : i < h.partitions.length := hi
  rw [sweepUnlink, if_neg (Nat.not_le.mpr hlt), hguard]
  simp only [Bool.false_eq_true, if_false]
  split
  · next hempty =>
    have hempty : h.view.chain i = [] := List.isEmpty_iff.mp hempty
    refine ⟨hview₁.trans ?_, by simp [hempty]⟩
    refine MarkState.ext rfl (funext fun j => ?_) rfl rfl rfl rfl rfl rfl rfl
    by_cases hj : j = i
    · subst hj
      simp [MarkState.unlink, hempty]
    · simp [MarkState.unlink, hj]
  · next hne =>
    have hne : h.view.chain i ≠ [] := fun hnil => hne (List.isEmpty_iff.mpr hnil)
    refine ⟨?_, by rw [if_neg hne]; rfl⟩
    rw [view_modifyNodes fun _ => _, hview₁]
    refine MarkState.ext rfl (funext fun j => ?_) rfl rfl rfl rfl rfl rfl rfl
    by_cases hj : j = i
    · subst hj
      simp only [hi, and_self, if_true, MarkState.unlink]
      rfl
    · simp [MarkState.unlink, hj]

theorem sweepUnlink_of_not_done (h' : ¬ (i < h.view.count ∧ h.view.marking i = true ∧
    h.view.gray i = [])) : h.sweepUnlink i = (h, none) := by
  unfold sweepUnlink
  split
  · rfl
  · next hi =>
    split
    · rfl
    · next hguard =>
      refine absurd ⟨Nat.lt_of_not_le hi, ?_⟩ h'
      simpa [view] using hguard

end GcHeap

end GcLite
