import GcLite.Admission

/-!
# The arithmetic of sizes

On its way to the two counters a layout size becomes an `i32`, is negated for a disposal, is tested
for its sign, negated once more and made a `usize` again. Without an overflow on the way, a counter
moves by the `i32`, so it moves by the size exactly if the size is its own `i32`.

## Main definitions

* `counted` — a counter after `update_mem_use`
* `FitsCounter` — computing it neither wraps nor underflows nor negates `i32::MIN`
* `GcHeap.AllocExact`, `GcHeap.DisposeExact` — both counters move by the size, without an overflow

## Main results

* `counted_eq` — without an overflow a counter moves by the delta
* `asI32_eq_self_iff` — the sizes that are their own `i32`
* `size_arithmetic_exact`, `allocRaw_miscounts`
-/

namespace GcLite

/-! ### One counter -/

/-- A counter after `update_mem_use`. -/
@[irreducible] def counted (delta : ℤ) (m : ℕ) : ℕ :=
  if delta ≥ 0 then asUsize (m + asUsize delta) else asUsize (m - asUsize (asI32 (-delta)))

/-- The sum fits a `usize`; the negation is not that of `i32::MIN`, and the difference is not below
zero. -/
@[irreducible] def FitsCounter (delta : ℤ) (m : ℕ) : Prop :=
  if delta ≥ 0 then m + delta < 2 ^ 64 else delta ≠ -2 ^ 31 ∧ -delta ≤ m

theorem asI32_bounds (x : ℤ) : -2 ^ 31 ≤ asI32 x ∧ asI32 x < 2 ^ 31 := by
  have hlo := Int.le_bmod (x := x) (m := 2 ^ 32) (by decide)
  have hhi := Int.bmod_lt (x := x) (m := 2 ^ 32) (by decide)
  unfold asI32
  omega

theorem asI32_of_bounds {x : ℤ} (hlo : -2 ^ 31 ≤ x) (hhi : x < 2 ^ 31) : asI32 x = x := by
  rw [asI32, Int.bmod_eq_of_le] <;> omega

/-- The sizes that are their own `i32`. -/
theorem asI32_eq_self_iff {size : ℕ} : asI32 size = size ↔ size < 2 ^ 31 := by
  constructor
  · intro heq
    have := (asI32_bounds size).2
    omega
  · exact asI32_of_lt

/-- Without an overflow a counter moves by the delta. -/
theorem counted_eq {delta : ℤ} {m : ℕ} (hdelta : -2 ^ 31 ≤ delta ∧ delta < 2 ^ 31)
    (hm : m < 2 ^ 64) (hfits : FitsCounter delta m) : (counted delta m : ℤ) = m + delta := by
  obtain ⟨hlo, hhi⟩ := hdelta
  unfold FitsCounter at hfits
  unfold counted
  by_cases hpos : delta ≥ 0
  · rw [if_pos hpos] at hfits ⊢
    unfold asUsize
    omega
  · rw [if_neg hpos] at hfits ⊢
    rw [asI32_of_bounds (by omega) (by omega)]
    unfold asUsize
    omega

/-- An allocation counts the size exactly if it fits an `i32`. -/
theorem counted_alloc_iff {size m : ℕ} (hsum : m + size < 2 ^ 64) :
    FitsCounter (asI32 size) m ∧ counted (asI32 size) m = m + size ↔ size < 2 ^ 31 := by
  rw [← asI32_eq_self_iff]
  constructor
  · rintro ⟨hfits, heq⟩
    have := counted_eq (asI32_bounds size) (by omega) hfits
    omega
  · intro hsize
    have hfits : FitsCounter (asI32 size) m := by
      rw [hsize, FitsCounter, if_pos (by omega)]
      omega
    refine ⟨hfits, ?_⟩
    have := counted_eq (asI32_bounds size) (by omega) hfits
    omega

/-- A disposal gives the size back exactly if it fits an `i32`. -/
theorem counted_dispose_iff {size m : ℕ} (hle : size ≤ m) (hm : m < 2 ^ 64) :
    asI32 size ≠ -2 ^ 31 ∧ FitsCounter (asI32 (-asI32 size)) m ∧
      m = counted (asI32 (-asI32 size)) m + size ↔ size < 2 ^ 31 := by
  have hbounds := asI32_bounds size
  rw [← asI32_eq_self_iff]
  constructor
  · rintro ⟨hmin, hfits, heq⟩
    have hneg : asI32 (-asI32 size) = -asI32 size := asI32_of_bounds (by omega) (by omega)
    have := counted_eq (asI32_bounds _) hm hfits
    omega
  · intro hsize
    have hneg : asI32 (-asI32 size) = -size := by
      rw [hsize]
      exact asI32_of_bounds (by omega) (by omega)
    have hfits : FitsCounter (asI32 (-asI32 size)) m := by
      rw [hneg]
      unfold FitsCounter
      split <;> omega
    refine ⟨by omega, hfits, ?_⟩
    have := counted_eq (asI32_bounds _) hm hfits
    omega

namespace GcHeap

variable {h h' : GcHeap} {i j dtype : ℕ} {n : NodePtr}

/-! ### Both counters -/

/-- The function of the counters is kept behind a name, so that no proof computes with `2 ^ 64`. -/
theorem updateMemUse_counted (delta : ℤ) : ∃ f, f = counted delta ∧
    ∀ (h : GcHeap) (i : ℕ), h.updateMemUse i delta =
      { h.modifyPar i fun q => { q with memoryUsed := f q.memoryUsed } with
        totalMemoryUsed := f h.totalMemoryUsed } := by
  refine ⟨_, rfl, fun h i => ?_⟩
  unfold updateMemUse counted
  by_cases hdelta : delta ≥ 0
  · simp only [if_pos hdelta]
  · simp only [if_neg hdelta]

/-- Two heaps differ, as to partition `i` and the heap's total, by one application of `f`. -/
structure Counted (h : GcHeap) (i : ℕ) (f : ℕ → ℕ) (h' : GcHeap) : Prop where
  /-- The partition's counter. -/
  used : (h'.par i).memoryUsed = f (h.par i).memoryUsed
  /-- The heap's total. -/
  total : h'.totalMemoryUsed = f h.totalMemoryUsed

theorem memoryUsed_modifyPar {f : ℕ → ℕ} (hi : i < h.partitions.length) :
    ((h.modifyPar i fun q => { q with memoryUsed := f q.memoryUsed }).par i).memoryUsed =
      f (h.par i).memoryUsed := by
  rw [par_modifyPar_self hi]

/-- An allocation counts the layout size. -/
theorem Allocates.counted (halloc : h.Allocates i dtype n h') :
    h.Counted i (counted (asI32 (h.typeInfo dtype).layoutSize)) h' := by
  obtain ⟨payload, skipArena, sys, h₁, size, hmem, hstore⟩ := halloc.nodeMem
  obtain ⟨hi, layout, hlayout, rfl, hcases⟩ := allocNodeMem_ok hmem
  have hused : (h'.par i).memoryUsed = (h₁.par i).memoryUsed :=
    (memoryUsed_of_store hstore i).trans (field_modifyPar GcPartition.memoryUsed fun _ => rfl)
  have htotal : h'.totalMemoryUsed = h₁.totalMemoryUsed :=
    (totalMemoryUsed_of_store hstore).trans rfl
  obtain ⟨f, hf, heq⟩ := updateMemUse_counted (asI32 layout.size)
  rw [← hlayout, ← hf]
  have hcount : h.Counted i f h₁ := by
    rcases hcases with ⟨A, A', -, -, -, hh₁⟩ | ⟨-, hh₁⟩
    · have hsame : ((h.modifyPar i fun q => { q with arena := some A' }).par i).memoryUsed =
          (h.par i).memoryUsed := field_modifyPar GcPartition.memoryUsed fun _ => rfl
      rw [hh₁, initNode, heq]
      exact ⟨(memoryUsed_modifyPar (by simpa using hi)).trans (congrArg f hsame), rfl⟩
    · rw [hh₁, initNode, heq]
      exact ⟨memoryUsed_modifyPar hi, rfl⟩
  exact ⟨hused.trans hcount.used, htotal.trans hcount.total⟩

/-- A disposal counts its negative, whatever else it does to weak slots and the record of
effects. -/
theorem counted_disposeMemOnly (h : GcHeap) (slots : List WeakSlot) (log : List GcEvent)
    (n : NodePtr) (align size : ℕ) (hi : i < h.partitions.length) :
    h.Counted i (counted (asI32 (-asI32 size)))
      (disposeMemOnly { h with weakSlots := slots, log := log } n i align size).1 := by
  obtain ⟨f, hf, heq⟩ := updateMemUse_counted (asI32 (-asI32 size))
  rw [← hf]
  unfold disposeMemOnly
  dsimp only
  rw [heq, heq]
  split
  · exact ⟨memoryUsed_modifyPar hi, rfl⟩
  · exact ⟨memoryUsed_modifyPar hi, rfl⟩

/-- Both ways to dispose of a node. -/
theorem counted_disposeNoDrop (hi : (h.head n).partitionId < h.partitions.length) :
    h.Counted (h.head n).partitionId (counted (asI32 (-asI32 (h.info n).layoutSize)))
      (h.disposeNoDrop n).1 := by
  unfold disposeNoDrop
  rw [clearWeakSlot_eq]
  exact counted_disposeMemOnly h _ h.log n _ _ hi

theorem counted_dispose (hi : (h.head n).partitionId < h.partitions.length) :
    h.Counted (h.head n).partitionId (counted (asI32 (-asI32 (h.info n).layoutSize)))
      (h.dispose n).1 := by
  unfold dispose
  rw [clearWeakSlot_eq]
  exact counted_disposeMemOnly h _ (h.log ++ _) n _ _ hi

/-! ### Exactness -/

/-- An allocation in partition `i` has counted the size, without an overflow. -/
structure AllocExact (h : GcHeap) (i size : ℕ) (h' : GcHeap) : Prop where
  /-- The partition's counter goes up by the size. -/
  used : (h'.par i).memoryUsed = (h.par i).memoryUsed + size
  /-- So does the total. -/
  total : h'.totalMemoryUsed = h.totalMemoryUsed + size
  /-- Neither overflows. -/
  fits : FitsCounter (asI32 size) (h.par i).memoryUsed ∧ FitsCounter (asI32 size) h.totalMemoryUsed

/-- A disposal in partition `i` has given the size back, without an overflow, be it of the negation
that computes the delta. -/
structure DisposeExact (h : GcHeap) (i size : ℕ) (h' : GcHeap) : Prop where
  /-- The partition's counter goes down by the size. -/
  used : (h.par i).memoryUsed = (h'.par i).memoryUsed + size
  /-- So does the total. -/
  total : h.totalMemoryUsed = h'.totalMemoryUsed + size
  /-- The delta can be negated. -/
  negates : asI32 size ≠ -2 ^ 31
  /-- Neither counter overflows. -/
  fits : FitsCounter (asI32 (-asI32 size)) (h.par i).memoryUsed ∧
    FitsCounter (asI32 (-asI32 size)) h.totalMemoryUsed

theorem Counted.allocExact_iff {size : ℕ} (hcount : h.Counted i (counted (asI32 size)) h')
    (hused : (h.par i).memoryUsed + size < 2 ^ 64) (htotal : h.totalMemoryUsed + size < 2 ^ 64) :
    h.AllocExact i size h' ↔ size < 2 ^ 31 := by
  constructor
  · intro hexact
    exact (counted_alloc_iff htotal).mp ⟨hexact.fits.2, hcount.total ▸ hexact.total⟩
  · intro hsize
    obtain ⟨hfits, heq⟩ := (counted_alloc_iff hused).mpr hsize
    obtain ⟨hfits', heq'⟩ := (counted_alloc_iff htotal).mpr hsize
    exact ⟨hcount.used.trans heq, hcount.total.trans heq', hfits, hfits'⟩

theorem Counted.disposeExact_iff {size : ℕ}
    (hcount : h.Counted i (counted (asI32 (-asI32 size))) h')
    (hused : size ≤ (h.par i).memoryUsed ∧ (h.par i).memoryUsed < 2 ^ 64)
    (htotal : size ≤ h.totalMemoryUsed ∧ h.totalMemoryUsed < 2 ^ 64) :
    h.DisposeExact i size h' ↔ size < 2 ^ 31 := by
  constructor
  · intro hexact
    exact (counted_dispose_iff htotal.1 htotal.2).mp
      ⟨hexact.negates, hexact.fits.2, hcount.total ▸ hexact.total⟩
  · intro hsize
    obtain ⟨hmin, hfits, heq⟩ := (counted_dispose_iff hused.1 hused.2).mpr hsize
    obtain ⟨-, hfits', heq'⟩ := (counted_dispose_iff htotal.1 htotal.2).mpr hsize
    exact ⟨hcount.used ▸ heq, hcount.total ▸ heq', hmin, hfits, hfits'⟩

end GcHeap

open GcHeap in
/-- **Size arithmetic.** Where the true sums fit a `usize`, an allocation and a disposal of a node
move both counters by the layout size, without an overflow, exactly if the size is below
`2 ^ 31`. -/
theorem size_arithmetic_exact (layout : Layout) :
    (∀ (h h' : GcHeap) (i dtype : ℕ) (n : NodePtr), (h.typeInfo dtype).layout? = some layout →
      h.Allocates i dtype n h' → (h.par i).memoryUsed + layout.size < 2 ^ 64 →
      h.totalMemoryUsed + layout.size < 2 ^ 64 →
      (h.AllocExact i layout.size h' ↔ layout.size < 2 ^ 31)) ∧
    ∀ (h h' : GcHeap) (i : ℕ) (n : NodePtr), (h.info n).layout? = some layout →
      (h.head n).partitionId = i → i < h.partitions.length →
      layout.size ≤ (h.par i).memoryUsed ∧ (h.par i).memoryUsed < 2 ^ 64 →
      layout.size ≤ h.totalMemoryUsed ∧ h.totalMemoryUsed < 2 ^ 64 →
      h' = (h.disposeNoDrop n).1 ∨ h' = (h.dispose n).1 →
      (h.DisposeExact i layout.size h' ↔ layout.size < 2 ^ 31) := by
  refine ⟨fun h h' i dtype n hlayout halloc hused htotal => ?_,
    fun h h' i n hlayout hpid hi hused htotal hh' => ?_⟩
  · have hsize : layout.size = (h.typeInfo dtype).layoutSize := Layout.size_of_fromSizeAlign hlayout
    rw [hsize] at hused htotal ⊢
    exact halloc.counted.allocExact_iff hused htotal
  · have hsize : layout.size = (h.info n).layoutSize := Layout.size_of_fromSizeAlign hlayout
    subst hpid
    rw [hsize] at hused htotal ⊢
    rcases hh' with rfl | rfl
    · exact (counted_disposeNoDrop hi).disposeExact_iff hused htotal
    · exact (counted_dispose hi).disposeExact_iff hused htotal

/-- A node of 32 bytes is allocated, and disposed of. -/
theorem size_arithmetic_exact_small : ∃ h h' : GcHeap, Reachable h ∧ h.Allocates 0 0 1000 h' ∧
    h.AllocExact 0 32 h' ∧ h'.DisposeExact 0 32 (h'.disposeNoDrop 1000).1 := by
  obtain ⟨h, hr, hsmall, ⟨hsize, hused, htotal⟩, hraw⟩ : ∃ h, Reachable h ∧
      SmallType (h.typeInfo 0) ∧
      ((h.typeInfo 0).layoutSize = 32 ∧ (h.par 0).memoryUsed = 0 ∧ h.totalMemoryUsed = 0) ∧
      (h.allocRaw 0 0 [] (some 1000)).toOption.any fun r => r.2 = 1000 ∧
        (r.1.info 1000 = h.typeInfo 0 ∧ (r.1.head 1000).partitionId = 0) ∧
        r.1.partitions.length = 1 ∧ (r.1.par 0).memoryUsed = 32 ∧ r.1.totalMemoryUsed = 32 :=
    exists_of_play (gcTypeTableInternal 24 8 [⟨8, 8, true, none⟩]) [.createPartition 0 0 none]
      (by decide +kernel)
  obtain ⟨⟨h', n⟩, hok, hh'⟩ := (Option.any_eq_true _ _).mp hraw
  replace hh' := of_decide_eq_true hh'
  dsimp only at hh'
  obtain ⟨rfl, ⟨hinfo, hpid⟩, hlen, hused', htotal'⟩ := hh'
  obtain ⟨layout, hlayout⟩ := hsmall.exists_layout
  have hlayoutSize : layout.size = 32 := (Layout.size_of_fromSizeAlign hlayout).trans hsize
  have halloc : h.Allocates 0 0 1000 h' := .of_toOption hok
  obtain ⟨hallocs, hdisposes⟩ := size_arithmetic_exact layout
  refine ⟨h, h', hr, halloc, ?_, ?_⟩
  · rw [← hlayoutSize]
    exact (hallocs h h' 0 0 1000 hlayout halloc (by omega) (by omega)).mpr (by omega)
  · rw [← hlayoutSize]
    exact (hdisposes h' _ 0 1000 (hinfo ▸ hlayout) hpid (by omega) (by omega) (by omega)
      (.inl rfl)).mpr (by omega)

open GcHeap in
/-- A node of `2 ^ 32 + 32` bytes counts as 32. -/
theorem allocRaw_miscounts : ∃ (h h' : GcHeap) (n : NodePtr) (layout : Layout), Reachable h ∧
    (h.typeInfo 0).layout? = some layout ∧ h.Allocates 0 0 n h' ∧
    (h.par 0).memoryUsed + layout.size < 2 ^ 64 ∧ h.totalMemoryUsed + layout.size < 2 ^ 64 ∧
    ¬ h.AllocExact 0 layout.size h' := by
  obtain ⟨h, hr, ⟨hlayout, hsize⟩, ⟨hused, htotal⟩, hraw⟩ : ∃ h, Reachable h ∧
      ((h.typeInfo 0).layout?.isSome ∧ (h.typeInfo 0).layoutSize = 2 ^ 32 + 32) ∧
      ((h.par 0).memoryUsed = 0 ∧ h.totalMemoryUsed = 0) ∧
      (h.allocRaw 0 0 [] (some 4096)).toOption.any fun r => r.1.totalMemoryUsed = 32 :=
    exists_of_play (gcTypeTableInternal 24 8 [⟨2 ^ 32 + 8, 8, true, none⟩])
      [.createPartition 0 0 none] (by decide +kernel)
  obtain ⟨layout, hlayout⟩ := Option.isSome_iff_exists.mp hlayout
  have hlayoutSize : layout.size = 2 ^ 32 + 32 := (Layout.size_of_fromSizeAlign hlayout).trans hsize
  obtain ⟨⟨h', n⟩, hok, htotal'⟩ := (Option.any_eq_true _ _).mp hraw
  replace htotal' := of_decide_eq_true htotal'
  dsimp only at htotal'
  refine ⟨h, h', n, layout, hr, hlayout, .of_toOption hok, by omega, by omega, fun hexact => ?_⟩
  have := hexact.total
  omega

end GcLite
