import GcLite.Admission
import GcLite.CollectionOrder

/-!
# The threshold of automatic collection

The host sets a memory limit and a threshold, in any order and as often as it likes. Each setter
looks at what the other one has left: a new limit pulls down a threshold that is not below it, and
a new threshold is capped at eight tenths of the limit. What has to come out is a threshold that
memory in use can reach before the limit stops every allocation.

Eight tenths of 1 round down to zero, and a threshold of zero switches collection off. So limits
are at least `minGcThreshold` here, the bytes of a header and of one more byte.

## Main definitions

* `Op.SetsInRange` — the limits and thresholds that the host may ask for
* `lastRequest` — the threshold asked for most recently
* `usize?`, `GcHeap.setMemoryLimitChecked`, `GcHeap.setGcThresholdChecked` — the setters with every
  result of their arithmetic checked
* `GcHeap.FitsUsize` — the memory in use and the two numbers fit a `usize`
* `GcHeap.Effective` — the invariant of the two numbers

## Main results

* `FitsUsize.step`, `Effective.step` — every operation keeps both
* `threshold_effective`
-/

namespace GcLite

open Transition

/-! ### Requests -/

open GcHeap in
/-- The header is that of the build, and a limit is zero or at least the smallest threshold. -/
def Op.SetsInRange (head : Layout) : Op → Prop
  | .setMemoryLimit headSize headAlign limit => (headSize = head.size ∧ headAlign = head.align) ∧
      limit ≤ usizeMax ∧ (limit = 0 ∨ minGcThreshold head.size head.align ≤ limit)
  | .setGcThreshold threshold => threshold ≤ usizeMax
  | _ => True

/-- The threshold that an operation asks for. -/
def Op.thresholdRequest : Op → Option ℕ
  | .setGcThreshold threshold => some threshold
  | _ => none

theorem eq_setGcThreshold {op : Op} {threshold : ℕ} (hop : op.thresholdRequest = some threshold) :
    op = .setGcThreshold threshold := by
  cases op with
  | setGcThreshold t => exact congrArg Op.setGcThreshold (Option.some.inj hop)
  | _ => cases hop

/-- The threshold asked for most recently. -/
def lastRequest (ops : List Op) : Option ℕ := (ops.filterMap Op.thresholdRequest).getLast?

theorem lastRequest_concat (ops : List Op) (op : Op) :
    lastRequest (ops ++ [op]) = op.thresholdRequest.or (lastRequest ops) := by
  rw [lastRequest, lastRequest, List.filterMap_append, List.getLast?_append]
  cases hop : op.thresholdRequest <;> simp [hop]

/-! ### Checked arithmetic -/

/-- The result of an operation on `usize`, which a build with overflow checks panics on if it is out
of range. -/
def usize? (x : ℤ) : Option ℕ := if 0 ≤ x ∧ x ≤ usizeMax then some x.toNat else none

theorem usize?_eq {n : ℕ} (hn : n ≤ usizeMax) : usize? n = some n := by
  rw [usize?, if_pos (by omega), Int.toNat_natCast]

theorem asUsize_le (x : ℤ) : asUsize x ≤ usizeMax := by
  rw [asUsize, usizeMax]
  omega

namespace GcHeap

variable {h h' : GcHeap} {headSize headAlign limit threshold : ℕ}

/-- `set_memory_limit`, with the one difference it computes checked. -/
def setMemoryLimitChecked (headSize headAlign : ℕ) (h : GcHeap) (limit : ℕ) : Option GcHeap :=
  if limit = 0 then some { h with memoryLimit := 0 }
  else
    let applied := max h.totalMemoryUsed limit
    let h := { h with memoryLimit := applied }
    if h.gcThreshold > 0 ∧ h.gcThreshold ≥ applied then do
      let quarter ← usize? (applied >>> 2 : ℕ)
      let rest ← usize? (applied - quarter)
      some { h with gcThreshold := max rest (minGcThreshold headSize headAlign) }
    else some h

/-- `set_gc_threshold`, with the quotient of the saturating product checked. -/
def setGcThresholdChecked (h : GcHeap) (threshold : ℕ) : Option GcHeap :=
  if threshold > 0 ∧ h.memoryLimit > 0 then do
    let capped ← usize? (min (h.memoryLimit * 8) usizeMax / 10 : ℕ)
    some { h with gcThreshold := min threshold capped }
  else some { h with gcThreshold := threshold }

/-- What is subtracted is a quarter. -/
theorem setMemoryLimitChecked_eq (hused : h.totalMemoryUsed ≤ usizeMax)
    (hlimit : limit ≤ usizeMax) :
    h.setMemoryLimitChecked headSize headAlign limit =
      some (h.setMemoryLimit headSize headAlign limit) := by
  have happlied : max h.totalMemoryUsed limit ≤ usizeMax := max_le hused hlimit
  rw [setMemoryLimitChecked, setMemoryLimit]
  generalize max h.totalMemoryUsed limit = applied at happlied ⊢
  have hquarter : applied >>> 2 ≤ applied := Nat.shiftRight_le applied 2
  have hrest : (applied : ℤ) - (applied >>> 2 : ℕ) = (applied - applied >>> 2 : ℕ) := by omega
  split
  · rfl
  · dsimp only
    split
    · rw [usize?_eq (hquarter.trans happlied), Option.bind_eq_bind, Option.bind_some, hrest,
        usize?_eq ((Nat.sub_le _ _).trans happlied), Option.bind_some]
    · rfl

theorem setGcThresholdChecked_eq :
    h.setGcThresholdChecked threshold = some (h.setGcThreshold threshold) := by
  rw [setGcThresholdChecked, setGcThreshold]
  split
  · have hcapped : min (h.memoryLimit * 8) usizeMax / 10 ≤ usizeMax :=
      (Nat.div_le_self _ _).trans (Nat.min_le_right _ _)
    rw [usize?_eq hcapped]
    rfl
  · rfl

/-! ### What the setters leave behind -/

/-- A limit that is not zero is raised to the memory in use, and the threshold does not exceed it; a
positive one stays positive. -/
theorem setMemoryLimit_of_ne_zero (hne : limit ≠ 0)
    (hmin : minGcThreshold headSize headAlign ≤ limit) :
    (h.setMemoryLimit headSize headAlign limit).memoryLimit = max h.totalMemoryUsed limit ∧
      (h.setMemoryLimit headSize headAlign limit).gcThreshold ≤ max h.totalMemoryUsed limit ∧
      (0 < h.gcThreshold → 0 < (h.setMemoryLimit headSize headAlign limit).gcThreshold) := by
  have happlied : limit ≤ max h.totalMemoryUsed limit := Nat.le_max_right _ _
  rw [setMemoryLimit, if_neg hne]
  generalize max h.totalMemoryUsed limit = applied at happlied ⊢
  dsimp only
  split
  · refine ⟨rfl, ?_, fun _ => ?_⟩
    · exact max_le (Nat.sub_le _ _) (hmin.trans happlied)
    · show 0 < max (applied - applied >>> 2) _
      omega
  · refine ⟨rfl, ?_, fun hpos => hpos⟩
    show h.gcThreshold ≤ applied
    omega

/-- A threshold is set no higher than asked for, and under a limit no higher than the limit. -/
theorem setGcThreshold_le : (h.setGcThreshold threshold).gcThreshold ≤ threshold ∧
    (0 < h.memoryLimit → (h.setGcThreshold threshold).gcThreshold ≤ h.memoryLimit) := by
  rw [setGcThreshold]
  split
  · show min threshold _ ≤ threshold ∧ (_ → min threshold _ ≤ _)
    omega
  · show threshold ≤ threshold ∧ (_ → threshold ≤ _)
    omega

/-- Eight tenths of at least 2 are not nothing. -/
theorem setGcThreshold_pos (hpos : 0 < threshold) (hlimit : h.memoryLimit = 0 ∨ 2 ≤ h.memoryLimit) :
    0 < (h.setGcThreshold threshold).gcThreshold := by
  rw [setGcThreshold, usizeMax]
  split
  · show 0 < min threshold _
    omega
  · exact hpos

/-- The smallest threshold is that of two bytes or more. -/
theorem two_le_minGcThreshold {head : Layout} (hhead : 0 < head.size) :
    2 ≤ minGcThreshold head.size head.align := by
  have hone : 1 ≤ alignUp 1 head.align := head.le_alignUp (by decide)
  rw [minGcThreshold]
  omega

/-! ### The memory in use -/

variable {i dtype : ℕ} {n : NodePtr} {payload : Payload} {sys : Option NodePtr}

theorem totalMemoryUsed_updateMemUse_le (h : GcHeap) (i : ℕ) (delta : ℤ) :
    (h.updateMemUse i delta).totalMemoryUsed ≤ usizeMax := by
  unfold updateMemUse
  split
  · dsimp only
    exact asUsize_le _
  · dsimp only
    exact asUsize_le _

theorem totalMemoryUsed_allocNodeMem_le {skipArena : Bool} {size : ℕ}
    (hok : h.allocNodeMem i dtype payload skipArena sys = .ok (h', n, size)) :
    h'.totalMemoryUsed ≤ usizeMax := by
  obtain ⟨-, layout, -, -, hcases⟩ := allocNodeMem_ok hok
  rcases hcases with ⟨A, A', -, -, -, heq⟩ | ⟨-, heq⟩ <;>
    · rw [heq, initNode]
      exact totalMemoryUsed_updateMemUse_le _ _ _

theorem countFreed_le (size m : ℕ) : countFreed size m ≤ usizeMax := by
  unfold countFreed
  exact asUsize_le _

theorem countAll_le (sizes : List ℕ) {m : ℕ} (hm : m ≤ usizeMax) : countAll sizes m ≤ usizeMax := by
  induction sizes generalizing m with
  | nil => exact hm
  | cons size sizes ih =>
    exact (countAll_cons size sizes m).trans_le (ih (countFreed_le size m))

theorem totalMemoryUsed_twoPhaseSweep_le (hle : h.totalMemoryUsed ≤ usizeMax) :
    (h.twoPhaseSweep i).1.totalMemoryUsed ≤ usizeMax := by
  by_cases hdone : h.CycleDone i
  · by_cases hempty : (h.par i).nodes = []
    · rw [twoPhaseSweep_of_empty hdone hempty]
      exact hle
    · obtain ⟨s, hs, heq⟩ := twoPhaseSweep_of_done hdone hempty
      obtain ⟨f, -, -, hfinish⟩ := finishSweep_frame s.heap i s.holes
      rw [heq, hfinish, totalMemoryUsed_modifyPar, hs, total_foldl_disposeNode]
      exact countAll_le _ hle
  · rw [twoPhaseSweep_of_not_done hdone]
    exact hle

/-- The counter wraps, so that it never leaves the range. -/
theorem totalMemoryUsed_step_le {op : Op} (hle : h.totalMemoryUsed ≤ usizeMax)
    (hst : Step h op h') : h'.totalMemoryUsed ≤ usizeMax := by
  cases hst.store with
  | same heq => exact (totalMemoryUsed_of_store heq).trans_le hle
  | create hop hfresh hok =>
    obtain ⟨q, rfl, -⟩ := createPartition_ok hok
    exact hle
  | alloc htype hsys hdtype hfresh hok heq =>
    exact (totalMemoryUsed_of_store heq).trans_le (totalMemoryUsed_allocNodeMem_le hok :)
  | sweep hop hstore heq =>
    rw [heq]
    exact totalMemoryUsed_twoPhaseSweep_le ((totalMemoryUsed_of_store hstore).trans_le hle)
  | downgrade hop hn hok =>
    obtain ⟨slots, rfl⟩ := downgrade_frame hok
    exact hle
  | remove hop hfresh hok =>
    obtain rfl | ⟨-, h₁, link, arena, log, -, -, -, heq⟩ := removePartition_ok hok
    · exact hle
    · rw [heq]
      exact asUsize_le _

/-! ### The invariant -/

/-- The three numbers that the setters compute with fit a `usize`. -/
structure FitsUsize (h : GcHeap) : Prop where
  /-- The bytes in use. -/
  used : h.totalMemoryUsed ≤ usizeMax
  /-- The limit. -/
  limit : h.memoryLimit ≤ usizeMax
  /-- The threshold. -/
  threshold : h.gcThreshold ≤ usizeMax

/-- What the two numbers are after the most recent request. Without a limit, any threshold is
effective. -/
structure Effective (head : Layout) (request : Option ℕ) (h : GcHeap) : Prop where
  /-- A limit leaves room for a node. -/
  limit : h.memoryLimit = 0 ∨ minGcThreshold head.size head.align ≤ h.memoryLimit
  /-- A threshold that was asked for stays positive. -/
  positive : ∀ threshold, request = some threshold → threshold ≠ 0 → 0 < h.gcThreshold
  /-- The threshold can be reached below the limit. -/
  below : 0 < h.memoryLimit → h.gcThreshold ≤ h.memoryLimit

variable {head : Layout} {request : Option ℕ} {op : Op}

theorem FitsUsize.step (hfits : h.FitsUsize) (hst : Step h op h') (hop : op.SetsInRange head) :
    h'.FitsUsize := by
  have hused : h'.totalMemoryUsed ≤ usizeMax := totalMemoryUsed_step_le hfits.used hst
  rcases limits_exec hst.2 with ⟨headSize, headAlign, limit, rfl⟩ | ⟨threshold, rfl⟩ | hlimits
  · cases hst.2
    obtain ⟨⟨rfl, rfl⟩, hlimit, hrange⟩ := hop
    by_cases hne : limit = 0
    · subst hne
      exact ⟨hused, Nat.zero_le _, hfits.threshold⟩
    · have hmax : max h.totalMemoryUsed limit ≤ usizeMax := max_le hfits.used hlimit
      obtain ⟨heq, hle, -⟩ := setMemoryLimit_of_ne_zero (h := h) hne (hrange.resolve_left hne)
      exact ⟨hused, heq.trans_le hmax, hle.trans hmax⟩
  · cases hst.2
    obtain ⟨capped, heq⟩ := h.setGcThreshold_frame threshold
    have hlimit : (h.setGcThreshold threshold).memoryLimit = h.memoryLimit := by rw [heq]
    exact ⟨hused, hlimit.trans_le hfits.limit, setGcThreshold_le.1.trans hop⟩
  · obtain ⟨hlimit, hthreshold⟩ := Prod.mk.inj hlimits
    exact ⟨hused, hlimit.trans_le hfits.limit, hthreshold.trans_le hfits.threshold⟩

theorem Effective.step (heff : h.Effective head request) (hhead : 0 < head.size)
    (hst : Step h op h') (hop : op.SetsInRange head) :
    h'.Effective head (op.thresholdRequest.or request) := by
  have htwo := two_le_minGcThreshold hhead
  cases hrequest : op.thresholdRequest with
  | some threshold =>
    obtain rfl := eq_setGcThreshold hrequest
    cases hst.2
    have hlimit : (h.setGcThreshold threshold).memoryLimit = h.memoryLimit := by
      obtain ⟨capped, heq⟩ := h.setGcThreshold_frame threshold
      rw [heq]
    refine ⟨hlimit ▸ heff.limit, fun t heq ht => ?_, fun hpos => ?_⟩
    · obtain rfl : threshold = t := Option.some.inj heq
      exact setGcThreshold_pos (Nat.pos_of_ne_zero ht) (heff.limit.imp_right htwo.trans)
    · rw [hlimit] at hpos ⊢
      exact setGcThreshold_le.2 hpos
  | none =>
    rw [Option.none_or]
    rcases limits_exec hst.2 with ⟨headSize, headAlign, limit, rfl⟩ | ⟨threshold, rfl⟩ | hlimits
    · cases hst.2
      obtain ⟨⟨rfl, rfl⟩, -, hrange⟩ := hop
      by_cases hne : limit = 0
      · subst hne
        exact ⟨.inl rfl, heff.positive, fun hpos => absurd hpos (Nat.lt_irrefl 0)⟩
      · have hmin := hrange.resolve_left hne
        obtain ⟨heq, hle, hpos⟩ := setMemoryLimit_of_ne_zero (h := h) hne hmin
        exact ⟨.inr (heq ▸ hmin.trans (Nat.le_max_right _ _)),
          fun threshold hreq ht => hpos (heff.positive threshold hreq ht),
          fun _ => hle.trans_eq heq.symm⟩
    · cases hrequest
    · obtain ⟨hlimit, hthreshold⟩ := Prod.mk.inj hlimits
      exact ⟨hlimit ▸ heff.limit, hthreshold ▸ heff.positive, hlimit ▸ hthreshold ▸ heff.below⟩

/-- At the threshold, and so at the limit, it is time to collect. -/
theorem shouldGc_of_le (hpos : 0 < h.gcThreshold) (hle : h.gcThreshold ≤ h.totalMemoryUsed) :
    h.shouldGc = true := by
  rw [shouldGc, Bool.and_eq_true, decide_eq_true_eq, decide_eq_true_eq]
  exact ⟨hpos, hle⟩

end GcHeap

/-- **The threshold stays effective.** After any run whose limits are zero or at least the smallest
threshold: if there is a limit and the last threshold asked for was not zero, then the one in force
is positive and not above the limit, and a heap that is full asks for a collection. Nothing that the
setters store or compute is out of range. -/
theorem threshold_effective {head : Layout} (hhead : 0 < head.size) {registry : GcTypeRegistry}
    {ops : List Op} {h : GcHeap}
    (hrun : Run (StepWith fun _ op => op.SetsInRange head) (GcHeap.new registry) ops h) :
    (∀ threshold, 0 < h.memoryLimit → lastRequest ops = some threshold → threshold ≠ 0 →
      (0 < h.gcThreshold ∧ h.gcThreshold ≤ h.memoryLimit) ∧
        (h.totalMemoryUsed = h.memoryLimit → h.shouldGc = true)) ∧
    h.FitsUsize ∧
    (∀ limit ≤ usizeMax, h.setMemoryLimitChecked head.size head.align limit =
      some (h.setMemoryLimit head.size head.align limit)) ∧
    ∀ threshold, h.setGcThresholdChecked threshold = some (h.setGcThreshold threshold) := by
  have heff : h.Effective head (lastRequest ops) := by
    refine hrun.invariant_trace (I := fun ops h => h.Effective head (lastRequest ops))
      (fun ops h op h' heff hst => ?_) ⟨.inl rfl, by simp [lastRequest], fun _ => Nat.zero_le _⟩
    rw [lastRequest_concat]
    exact heff.step hhead hst.1 hst.2
  have hfits : h.FitsUsize := hrun.invariant (fun _ _ _ hfits hst => hfits.step hst.1 hst.2)
    ⟨Nat.zero_le _, Nat.zero_le _, Nat.zero_le _⟩
  refine ⟨fun threshold hlimit hlast hne => ?_, hfits, fun limit hle => ?_, fun threshold => ?_⟩
  · have hpos := heff.positive threshold hlast hne
    have hbelow := heff.below hlimit
    exact ⟨⟨hpos, hbelow⟩, fun hfull => GcHeap.shouldGc_of_le hpos (hbelow.trans_eq hfull.symm)⟩
  · exact GcHeap.setMemoryLimitChecked_eq hfits.used hle
  · exact GcHeap.setGcThresholdChecked_eq

/-- A threshold set while there is no limit, a limit below it, and allocations up to the limit. -/
theorem threshold_effective_full : ∃ ops h,
    Run (StepWith fun _ op => op.SetsInRange ⟨24, 8, ⟨3, rfl⟩, by decide⟩)
      (GcHeap.new (gcTypeTableInternal 24 8 [⟨8, 8, true, none⟩])) ops h ∧
    lastRequest ops = some 1000 ∧ h.memoryLimit = 64 ∧ h.totalMemoryUsed = 64 ∧
    (0 < h.gcThreshold ∧ h.gcThreshold ≤ h.memoryLimit) ∧ h.shouldGc = true := by
  let ops : List Op := [.createPartition 0 0 none, .setGcThreshold 1000, .setMemoryLimit 24 8 64,
    .allocRootRaw 0 0 [] (some 1000), .allocRaw 0 0 [1000] (some 2000)]
  obtain ⟨h, hplay, hlimit, htotal⟩ : ∃ h,
      play (fun _ _ => True) ops (GcHeap.new (gcTypeTableInternal 24 8 [⟨8, 8, true, none⟩])) =
        some h ∧ h.memoryLimit = 64 ∧ h.totalMemoryUsed = 64 :=
    ⟨_, rfl, by decide +kernel, by decide +kernel⟩
  have hrange : ∀ op ∈ ops, op.SetsInRange ⟨24, 8, ⟨3, rfl⟩, by decide⟩ := by
    simp only [ops, List.forall_mem_cons, List.not_mem_nil, false_imp_iff, implies_true, and_true,
      Op.SetsInRange, true_and]
    decide
  have hrun := ((run_of_play hplay).mono fun _ _ _ => And.left).of_forall_mem hrange
  obtain ⟨⟨hpos, hle⟩, hfull⟩ := (threshold_effective (by decide) hrun).1 1000
    (by omega) (by decide) (by decide)
  exact ⟨ops, h, hrun, by decide, hlimit, htotal, ⟨hpos, hle⟩, hfull (by omega)⟩

end GcLite
