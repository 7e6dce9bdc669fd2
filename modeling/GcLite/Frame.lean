import GcLite.System

/-!
# What marking leaves alone

Marking and the barriers write colours, list flags, marking flags and gray lists, and nothing else.
So whatever can be read from a heap without looking at these is the same afterwards.

## Main definitions

* `GcHeap.MarkFrame` — a reading that does not look at them

## Main results

* `MarkFrame.mark`, `MarkFrame.markLoop`, `MarkFrame.bind`, … — it is the same after each operation
-/

namespace GcLite

namespace GcHeap

/-- A reading of the heap that does not depend on the state of marking. -/
structure MarkFrame {α : Type*} (φ : GcHeap → α) : Prop where
  /-- Colours do not matter to it. -/
  color : ∀ h n c, φ (setColor h n c) = φ h
  /-- Flags do not. -/
  listed : ∀ h n b, φ (setGrayListed h n b) = φ h
  /-- Nor whether a cycle is going on. -/
  marking : ∀ h i b, φ (setMarking h i b) = φ h
  /-- Nor what is listed. -/
  gray : ∀ (h : GcHeap) i (f : List NodePtr → List NodePtr),
    φ (h.modifyPar i fun q => { q with grayList := f q.grayList }) = φ h
  /-- Nor that all partitions begin a cycle. -/
  allMarking : ∀ h, φ (setAllMarking h) = φ h

/-- A fold of steps that a reading does not see. -/
theorem reading_foldl {α β : Type*} {φ : GcHeap → α} {f : GcHeap → β → GcHeap}
    (hf : ∀ h b, φ (f h b) = φ h) (l : List β) : ∀ h, φ (l.foldl f h) = φ h := by
  induction l with
  | nil => exact fun _ => rfl
  | cons b l ih => exact fun h => (ih (f h b)).trans (hf h b)

namespace MarkFrame

variable {α : Type*} {φ : GcHeap → α} {h h' : GcHeap} {i j : ℕ} {n m : NodePtr}

/-! ### Gray lists -/

theorem pushGray (hφ : MarkFrame φ) : φ (h.pushGray i n) = φ h := hφ.gray h i _

theorem pushUnlisted (hφ : MarkFrame φ) : φ (h.pushUnlisted i n) = φ h := by
  unfold GcHeap.pushUnlisted
  split
  · rfl
  · exact (hφ.gray _ i (n :: ·)).trans (hφ.listed h n true)

theorem parAddGrayNode (hφ : MarkFrame φ) : φ (h.parAddGrayNode i n) = φ h := by
  unfold GcHeap.parAddGrayNode
  split
  · exact hφ.pushUnlisted.trans (hφ.color h n .gray)
  · exact hφ.pushUnlisted
  · rfl

theorem addGrayNode (hφ : MarkFrame φ) : φ (h.addGrayNode n) = φ h := by
  unfold GcHeap.addGrayNode
  split
  · exact hφ.parAddGrayNode
  · rfl

/-- If it does not look at the `ROOT` flag either. -/
theorem setRootNode (hφ : MarkFrame φ)
    (hroot : ∀ (h : GcHeap) n, φ (h.modifyHead n fun hd => { hd with isRoot := true }) = φ h) :
    φ (h.setRootNode n) = φ h := by
  unfold GcHeap.setRootNode
  split
  · rfl
  · dsimp only
    split
    · exact hφ.parAddGrayNode.trans (hroot h n)
    · exact hroot h n

/-! ### Marking -/

theorem markReset (hφ : MarkFrame φ) : φ (h.markReset i) = φ h := by
  simp only [GcHeap.markReset]
  rw [reading_foldl fun _ _ => hφ.color _ _ _, hφ.gray _ _ fun _ => [],
    reading_foldl fun _ _ => hφ.listed _ _ _, hφ.marking]

theorem seedPartition (hφ : MarkFrame φ) : φ (h.seedPartition i) = φ h := by
  have hseed : ∀ pending h n, φ (seedNode i pending h n) = φ h := by
    intro pending h n
    unfold seedNode
    dsimp only
    split <;> split
    · exact hφ.pushGray.trans (hφ.color h n .gray)
    · exact hφ.color h n .gray
    · exact hφ.color h n .white
    · rfl
  have hpending : ∀ h n, φ (seedPendingNode i h n) = φ h := by
    intro h n
    unfold seedPendingNode
    split
    · exact hφ.pushUnlisted.trans (hφ.color h n .gray)
    · rfl
  unfold GcHeap.seedPartition
  dsimp only
  split
  · rw [reading_foldl hpending, reading_foldl (hseed _)]
  · rw [reading_foldl (hseed _)]

theorem markPrepare (hφ : MarkFrame φ) : φ (h.markPrepare i) = φ h := by
  unfold GcHeap.markPrepare
  split
  · rfl
  · split
    · rfl
    · rw [reading_foldl fun _ _ => hφ.seedPartition, hφ.allMarking]

theorem traceGray (hφ : MarkFrame φ) : φ (h.traceGray i n) = φ h := by
  have hshade : ∀ (l : List NodePtr) (st : GcHeap × List (ℕ × NodePtr)),
      φ (l.foldl (shadeChild i) st).1 = φ st.1 := by
    intro l
    induction l with
    | nil => exact fun _ => rfl
    | cons c l ih =>
      intro st
      rw [List.foldl_cons, ih]
      have hgray : φ ((st.1.setColor c .gray).setGrayListed c true) = φ st.1 :=
        (hφ.listed _ c true).trans (hφ.color st.1 c .gray)
      unfold shadeChild
      dsimp only
      split
      · split
        · exact hφ.pushGray.trans hgray
        · exact hgray
      · rfl
  simp only [GcHeap.traceGray]
  rw [hφ.color, reading_foldl fun _ _ => hφ.pushGray, hshade]

theorem popGray (hφ : MarkFrame φ) : ∀ (l : List NodePtr) (h : GcHeap),
    φ (GcHeap.popGray i h l).1 = φ h := by
  intro l
  induction l with
  | nil => exact fun _ => rfl
  | cons n l ih =>
    intro h
    have hpop : φ ((h.modifyPar i fun q => { q with grayList := l }).setGrayListed n false) = φ h :=
      (hφ.listed _ n false).trans (hφ.gray h i fun _ => l)
    rw [GcHeap.popGray]
    split
    · exact hpop
    · exact (ih _).trans hpop

theorem markGraysLoop (hφ : MarkFrame φ) : ∀ (budget : ℕ) (h : GcHeap),
    φ (GcHeap.markGraysLoop i budget h).1 = φ h := by
  intro budget
  induction budget with
  | zero =>
    intro h
    have hpop := hφ.popGray (i := i) (h.par i).grayList h
    rw [GcHeap.markGraysLoop]
    rcases hp : h.popGray i (h.par i).grayList with ⟨h', _ | n⟩ <;> rw [hp] at hpop
    · exact hpop
    · exact hφ.pushGray.trans hpop
  | succ budget ih =>
    intro h
    have hpop := hφ.popGray (i := i) (h.par i).grayList h
    rw [GcHeap.markGraysLoop]
    rcases hp : h.popGray i (h.par i).grayList with ⟨h', _ | n⟩ <;> rw [hp] at hpop
    · exact hpop
    · exact (ih _).trans (hφ.traceGray.trans hpop)

theorem markGrays (hφ : MarkFrame φ) (k : ℕ) : φ (h.markGrays i k).1 = φ h := by
  unfold GcHeap.markGrays
  split
  · rfl
  · exact hφ.markGraysLoop k h

theorem mark (hφ : MarkFrame φ) (k : ℕ) : φ (h.mark i k).1 = φ h := by
  unfold GcHeap.mark
  dsimp only
  split
  · rw [hφ.markGrays, hφ.markPrepare]
  · exact hφ.markPrepare

theorem markLoop (hφ : MarkFrame φ) : ∀ (fuel : ℕ) (h : GcHeap),
    GcHeap.markLoop i fuel h = some h' → φ h' = φ h := by
  intro fuel
  induction fuel with
  | zero =>
    intro h hloop
    cases hloop
  | succ fuel ih =>
    intro h hloop
    have hmark := hφ.mark (h := h) (i := i) 64
    rw [GcHeap.markLoop] at hloop
    rcases hm : h.mark i 64 with ⟨h₁, _ | _⟩ <;> rw [hm] at hloop hmark
    · exact (ih h₁ hloop).trans hmark
    · cases hloop
      exact hmark

/-- A collection is a sweep of a heap that reads the same, if the partition exists. -/
theorem garbageCollect (hφ : MarkFrame φ) {bytes : ℕ}
    (hgc : h.garbageCollect i = some (h', bytes)) :
    (h.partitions.length ≤ i ∧ h' = h ∧ bytes = 0) ∨
      ∃ h₁ : GcHeap, φ h₁ = φ h ∧ h₁.twoPhaseSweep i = (h', bytes) := by
  unfold GcHeap.garbageCollect at hgc
  split at hgc
  · next hi =>
    obtain ⟨rfl, rfl⟩ := Prod.mk.inj (Option.some.inj hgc)
    exact .inl ⟨hi, rfl, rfl⟩
  · obtain ⟨h₁, hloop, hsweep⟩ := Option.map_eq_some_iff.mp hgc
    exact .inr ⟨h₁, hφ.markLoop _ h hloop, hsweep⟩

/-! ### Barriers -/

theorem bind (hφ : MarkFrame φ) : φ (h.bind n m) = φ h := by
  have htri : ∀ h : GcHeap, φ (h.bindTriColor n m) = φ h := by
    intro h
    unfold bindTriColor
    dsimp only
    split
    · split
      · exact hφ.addGrayNode.trans (hφ.color h m .gray)
      · exact hφ.color h m .gray
    · rfl
  unfold GcHeap.bind bindCrossPartition
  dsimp only
  split
  · split
    · rw [hφ.pushUnlisted, hφ.color, htri]
    · exact htri h
  · exact htri h

/-- If it does not look at payloads either. -/
theorem withWriteBarrier (hφ : MarkFrame φ)
    (hrefs : ∀ (h : GcHeap) n payload, φ (h.setRefs n payload) = φ h) (f : Payload → Payload) :
    φ (h.withWriteBarrier n f) = φ h := by
  unfold GcHeap.withWriteBarrier
  dsimp only
  rw [hrefs]
  split
  · split
    · exact hφ.addGrayNode.trans (hφ.color h n .gray)
    · rfl
  · rfl

end MarkFrame

end GcHeap

end GcLite
