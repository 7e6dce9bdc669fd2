import GcLite.ArenaInvariant

/-!
# Alignment of arena blocks

The bump path of `alloc` aligns the offset of a block, not its address, and the base of an arena is
a multiple of 16 only. The free-list path takes the first hole with enough room, wherever it begins.

## Main definitions

* `ArenaAction.Fits` — a request that keeps the spacing of an arena
* `ReturnsAligned` — all blocks of a run are aligned
* `GcArena.firstFit` — the hole that the free-list path takes
* `GcArena.AlignedFit` — the block for a layout will be aligned

## Main results

* `GcArena.alloc_ptr` — which address an allocation returns
* `payload_aligned` — an aligned node has an aligned payload
* `returnsAligned_of_fits` — requests of one spacing get aligned blocks
* `arena_aligned_iff` — when all blocks of a run are aligned
-/

namespace GcLite

open Spans Transition

/-! ### Rounding up -/

namespace Layout

variable (layout : Layout) {value : ℕ}

theorem alignUp_eq (hv : value < 2 ^ 63) : alignUp value layout.align =
    (value + (layout.align - 1)) / layout.align * layout.align := by
  obtain ⟨size, align, ⟨k, rfl⟩, fits⟩ := layout
  have hk : k ≤ 63 := (Nat.pow_le_pow_iff_right (by omega)).mp (by omega : 2 ^ k ≤ 2 ^ 63)
  exact GcLite.alignUp_eq (by omega) (by omega)

theorem dvd_alignUp (hv : value < 2 ^ 63) : layout.align ∣ alignUp value layout.align := by
  rw [layout.alignUp_eq hv]
  exact Nat.dvd_mul_left _ _

/-- A multiple is not moved. -/
theorem alignUp_eq_self (hv : value < 2 ^ 63) (hd : layout.align ∣ value) :
    alignUp value layout.align = value := by
  obtain ⟨q, rfl⟩ := hd
  have hpos : 0 < layout.align := Nat.pos_of_isPowerOfTwo layout.pow
  rw [layout.alignUp_eq hv, Nat.mul_add_div hpos, Nat.div_eq_of_lt (by omega), Nat.add_zero,
    Nat.mul_comm]

end Layout

/-- **An aligned node has an aligned payload.** -/
theorem payload_aligned {headSize headAlign payloadAlign ptr : ℕ} (hhead : headAlign.isPowerOfTwo)
    (hpayload : payloadAlign.isPowerOfTwo) (hfits : headSize + payloadAlign ≤ 2 ^ 63)
    (hptr : layoutAlignOf headAlign payloadAlign ∣ ptr) :
    payloadAlign ∣ ptr + payloadOffsetOf headSize payloadAlign := by
  have hpos : 0 < payloadAlign := Nat.pos_of_isPowerOfTwo hpayload
  have hoffset : payloadAlign ∣ payloadOffsetOf headSize payloadAlign :=
    (⟨headSize, payloadAlign, hpayload, hfits⟩ : Layout).dvd_alignUp (by omega)
  exact Nat.dvd_add (Nat.dvd_trans (dvd_layoutAlignOf hhead hpayload).2 hptr) hoffset

/-! ### The address of a block -/

namespace GcArena

/-- The entries of the free list from `curr` on, at most as many as the fuel. -/
def freeEntries (A : GcArena) : ℕ → Option ℕ → List ℕ
  | 0, _ => []
  | _ + 1, none => []
  | fuel + 1, some entry => entry :: A.freeEntries fuel (A.mem entry).next

/-- The first entry with enough room. -/
def firstFit (A : GcArena) (needed : ℕ) : Option ℕ :=
  (A.freeEntries (A.capacity + 1) A.freeHead).find? fun entry => needed ≤ (A.mem entry).size

/-- Before an allocation: when the frontier has room, the base is a multiple of the alignment, and
when it has none, the first hole with enough room begins at one. -/
def AlignedFit (A : GcArena) (layout : Layout) : Prop :=
  if alignUp A.bump layout.align + max layout.size minAllocSize ≤ A.capacity then
    layout.align ∣ A.base
  else ∀ entry, A.firstFit (max layout.size minAllocSize) = some entry → layout.align ∣ entry

variable {A A' : GcArena} {blocks : List Block} {free : List ℕ} {holes : List Hole}
  {layout : Layout} {ptr : ℕ}

theorem findFit_fst (needed fuel : ℕ) (prev curr : Option ℕ) :
    (findFit needed fuel A prev curr).map Prod.fst =
      (A.freeEntries fuel curr).find? fun entry => needed ≤ (A.mem entry).size := by
  induction fuel generalizing prev curr with
  | zero => rfl
  | succ fuel ih =>
    cases curr with
    | none => rfl
    | some entry =>
      rw [findFit, freeEntries]
      split
      · next hfit =>
        rw [List.find?_cons_of_pos (by simpa using hfit)]
        split <;> rfl
      · next hfit => rw [List.find?_cons_of_neg (by simpa using hfit), ih]

theorem alloc_ptr (A : GcArena) (layout : Layout) : (A.alloc layout).map Prod.fst =
    if alignUp A.bump layout.align + max layout.size minAllocSize ≤ A.capacity then
      some (A.base + alignUp A.bump layout.align)
    else A.firstFit (max layout.size minAllocSize) := by
  unfold alloc
  dsimp only
  split
  · rfl
  · rw [firstFit, ← findFit_fst _ _ none, ← allocFromFreeList]
    cases A.allocFromFreeList (max layout.size minAllocSize) <;> rfl

/-- **One allocation** returns an aligned block, if it returns one, exactly when the fit is
aligned. -/
theorem alloc_aligned_iff (hinv : A.Inv blocks free holes) :
    (∀ ptr A', A.alloc layout = some (ptr, A') → layout.align ∣ ptr) ↔ A.AlignedFit layout := by
  have hptr : (∀ ptr A', A.alloc layout = some (ptr, A') → layout.align ∣ ptr) ↔
      ∀ ptr, (A.alloc layout).map Prod.fst = some ptr → layout.align ∣ ptr := by
    simp
  have hbump : A.bump < 2 ^ 63 := by
    have hle := hinv.bump_le
    have hsmall := hinv.small
    omega
  rw [hptr, alloc_ptr, AlignedFit]
  split
  · simp only [Option.some.injEq, forall_eq']
    exact Nat.dvd_add_iff_left (layout.dvd_alignUp hbump) |>.symm
  · rfl

end GcArena

/-! ### Runs with one alignment -/

/-- Everything in the arena begins at a multiple of `a` from its base. -/
structure ArenaState.Spaced (a : ℕ) (s : ArenaState) (free : List ℕ) : Prop where
  /-- So is the frontier. -/
  bump : a ∣ s.arena.bump
  /-- So are the blocks. -/
  blocks : ∀ b ∈ s.blocks, a ∣ b.ptr - s.arena.base
  /-- So are the holes. -/
  holes : ∀ hole ∈ s.holes, a ∣ hole.offset
  /-- So are the free entries. -/
  free : ∀ e ∈ free, a ∣ e - s.arena.base

/-- A request whose alignment divides `a`, for a multiple of `a` bytes. -/
def ArenaAction.Fits (a : ℕ) : ArenaAction → Prop
  | .alloc layout => layout.align ∣ a ∧ a ∣ max layout.size minAllocSize
  | _ => True

/-- The block of the step will be aligned. -/
def AlignedStep (s : ArenaState) : ArenaAction → Prop
  | .alloc layout => s.arena.AlignedFit layout
  | _ => True

namespace GcArena

variable {A : GcArena}

theorem mem_of_mem_freeEntries {free : List ℕ} {fuel e : ℕ} {curr : Option ℕ}
    (hchain : FreeChain A.mem curr free) (he : e ∈ A.freeEntries fuel curr) : e ∈ free := by
  induction fuel generalizing curr free with
  | zero => exact absurd he List.not_mem_nil
  | succ fuel ih =>
    cases curr with
    | none => exact absurd he List.not_mem_nil
    | some entry =>
      cases free with
      | nil => cases hchain
      | cons a free =>
        obtain ⟨ha, hchain⟩ := hchain
        obtain rfl := Option.some.inj ha
        rcases List.mem_cons.mp he with rfl | he
        · exact List.mem_cons_self
        · exact List.mem_cons_of_mem _ (ih hchain he)

theorem bump_finishSweep (A : GcArena) (holes : List Hole) :
    (A.finishSweep holes).1.bump = if A.liveCount = 0 then 0 else A.bump := by
  have hpush : ∀ (hs : List Hole) (B : GcArena), (hs.foldl pushFree B).bump = B.bump := by
    intro hs
    induction hs with
    | nil => exact fun B => rfl
    | cons hole hs ih => exact fun B => ih (B.pushFree hole)
  unfold finishSweep
  split
  · rfl
  · exact hpush _ _

end GcArena

namespace ArenaState.Spaced

variable {a : ℕ} {s t : ArenaState} {action : ArenaAction} {free : List ℕ}

theorem alloc (hinv : s.arena.Inv s.blocks free s.holes) (hs : s.Spaced a free) {layout : Layout}
    (hfits : ArenaAction.Fits a (.alloc layout)) {ptr : ℕ} {A' : GcArena}
    (halloc : s.arena.alloc layout = some (ptr, A')) :
    ∃ free', A'.Inv (⟨ptr, layout.size⟩ :: s.blocks) free' s.holes ∧
      Spaced a ⟨A', ⟨ptr, layout.size⟩ :: s.blocks, s.holes⟩ free' := by
  obtain ⟨hdvd, hsize⟩ := hfits
  obtain ⟨free', hsub, hinv', hcases⟩ := hinv.alloc_cases halloc
  have hbase : A'.base = s.arena.base := (GcArena.alloc_region halloc).1
  have hbump : s.arena.bump < 2 ^ 63 := by
    have hle := hinv.bump_le
    have hsmall := hinv.small
    omega
  rw [layout.alignUp_eq_self hbump (Nat.dvd_trans hdvd hs.bump)] at hcases
  refine ⟨free', hinv', ⟨?_, ?_, hs.holes, fun e he => ?_⟩⟩
  · rcases hcases with ⟨-, hnew⟩ | ⟨-, hnew⟩
    · rw [hnew]
      exact Nat.dvd_add hs.bump hsize
    · rw [hnew]
      exact hs.bump
  · dsimp only
    rw [hbase]
    refine List.forall_mem_cons.mpr ⟨?_, hs.blocks⟩
    rcases hcases with ⟨rfl, -⟩ | ⟨hptr, -⟩
    · rw [Nat.add_sub_cancel_left]
      exact hs.bump
    · exact hs.free ptr hptr
  · dsimp only
    rw [hbase]
    exact hs.free e (hsub.subset he)

theorem collectHole (hs : s.Spaced a free) {b : Block} (hb : b ∈ s.blocks) :
    Spaced a ⟨(s.arena.collectHole s.holes b.ptr b.size).1, s.blocks.erase b,
      (s.arena.collectHole s.holes b.ptr b.size).2⟩ free := by
  have hbase := (GcArena.collectHole_region s.arena s.holes b.ptr b.size).1
  refine ⟨?_, fun c hc => ?_, ?_, ?_⟩
  · unfold GcArena.collectHole
    dsimp only
    split
    · exact hs.blocks b hb
    · exact hs.bump
  · dsimp only
    rw [hbase]
    exact hs.blocks c (List.mem_of_mem_erase hc)
  · unfold GcArena.collectHole
    dsimp only
    split
    · exact hs.holes
    · intro hole hhole
      rcases List.mem_append.mp hhole with hhole | hhole
      · exact hs.holes hole hhole
      · rw [List.mem_singleton.mp hhole]
        exact hs.blocks b hb
  · dsimp only
    rw [hbase]
    exact hs.free

/-- The holes become the free entries. -/
theorem finishSweep (hinv : s.arena.Inv s.blocks free s.holes) (hs : s.Spaced a free) :
    ∃ free', (s.arena.finishSweep s.holes).1.Inv s.blocks free' (s.arena.finishSweep s.holes).2 ∧
      Spaced a ⟨(s.arena.finishSweep s.holes).1, s.blocks, (s.arena.finishSweep s.holes).2⟩
        free' := by
  have hbase := (GcArena.finishSweep_region s.arena s.holes).1
  obtain ⟨free', hinv', hfree, -⟩ := hinv.finishSweep_free
  refine ⟨free', hinv', ⟨?_, ?_, ?_, fun e he => ?_⟩⟩
  · dsimp only
    rw [s.arena.bump_finishSweep]
    split
    · exact Nat.dvd_zero a
    · exact hs.bump
  · dsimp only
    rw [hbase]
    exact hs.blocks
  · dsimp only
    rw [GcArena.finishSweep_holes]
    simp
  · dsimp only
    obtain ⟨hole, hhole, rfl⟩ := hfree e he
    rw [hbase, Nat.add_sub_cancel_left]
    exact hs.holes hole hhole

/-- **Every use keeps the spacing**, if the requests fit it. -/
theorem step (hinv : s.arena.Inv s.blocks free s.holes) (hs : s.Spaced a free)
    (hst : ArenaStep s action t) (hfits : action.Fits a) :
    ∃ free', t.arena.Inv t.blocks free' t.holes ∧ t.Spaced a free' ∧
      t.arena.base = s.arena.base := by
  cases hst with
  | alloc halloc =>
    obtain ⟨free', hinv', hs'⟩ := hs.alloc hinv hfits halloc
    exact ⟨free', hinv', hs', (GcArena.alloc_region halloc).1⟩
  | full => exact ⟨free, hinv, hs, rfl⟩
  | @collect b hb =>
    exact ⟨free, (hinv.perm (List.perm_cons_erase hb)).collectHole, hs.collectHole hb,
      (GcArena.collectHole_region s.arena s.holes b.ptr b.size).1⟩
  | finish =>
    obtain ⟨free', hinv', hs'⟩ := hs.finishSweep hinv
    exact ⟨free', hinv', hs', (GcArena.finishSweep_region s.arena s.holes).1⟩
  | write hmem => exact ⟨free, hinv.write hmem, ⟨hs.bump, hs.blocks, hs.holes, hs.free⟩, rfl⟩

/-- So the next block is aligned, if the base is. -/
theorem alignedStep (hinv : s.arena.Inv s.blocks free s.holes) (hs : s.Spaced a free)
    (hbase : a ∣ s.arena.base) (hfits : action.Fits a) : AlignedStep s action := by
  cases action with
  | alloc layout =>
    obtain ⟨hdvd, -⟩ := hfits
    change s.arena.AlignedFit layout
    unfold GcArena.AlignedFit
    split
    · exact Nat.dvd_trans hdvd hbase
    · intro entry hentry
      have hmem := GcArena.mem_of_mem_freeEntries hinv.chain (List.mem_of_find?_eq_some hentry)
      have hle := hinv.free_base entry hmem
      have hsum := Nat.dvd_add hbase (hs.free entry hmem)
      rw [Nat.add_sub_cancel' hle] at hsum
      exact Nat.dvd_trans hdvd hsum
  | _ => trivial

end ArenaState.Spaced

theorem ArenaStep.functional {s t t' : ArenaState} {action : ArenaAction}
    (hst : ArenaStep s action t) (hst' : ArenaStep s action t') : t = t' := by
  cases hst with
  | alloc halloc =>
    cases hst' with
    | alloc halloc' =>
      obtain ⟨rfl, rfl⟩ := Prod.mk.inj (Option.some.inj (halloc.symm.trans halloc'))
      rfl
    | full hnone => cases halloc.symm.trans hnone
  | full hnone =>
    cases hst' with
    | alloc halloc => cases hnone.symm.trans halloc
    | full => rfl
  | collect => cases hst'; rfl
  | finish => cases hst'; rfl
  | write => cases hst'; rfl

/-- Every allocation of the run returns an aligned block, if it returns one. -/
def ReturnsAligned (A : GcArena) (actions : List ArenaAction) : Prop :=
  ∀ pre layout post t ptr A', actions = pre ++ .alloc layout :: post →
    Run ArenaStep ⟨A, [], []⟩ pre t → t.arena.alloc layout = some (ptr, A') → layout.align ∣ ptr

section Runs

variable {capacity base : ℕ} {A : GcArena} {s : ArenaState} {actions : List ArenaAction}

theorem ArenaStep.run_functional : ∀ s a t t', ArenaStep s a t → ArenaStep s a t' → t = t' :=
  fun _ _ _ _ => ArenaStep.functional

theorem exists_inv_of_run (hnew : GcArena.new capacity (some base) = some A)
    (hrun : Run ArenaStep ⟨A, [], []⟩ actions s) : ∃ free, s.arena.Inv s.blocks free s.holes :=
  hrun.invariant (I := fun s => ∃ free, s.arena.Inv s.blocks free s.holes)
    (fun _ _ _ hs hst => GcArena.Inv.step hst hs) ⟨[], GcArena.inv_new hnew⟩

/-- A run with one spacing keeps it. -/
theorem exists_spaced_of_run {a : ℕ} (hnew : GcArena.new capacity (some base) = some A)
    (hrun : Run ArenaStep ⟨A, [], []⟩ actions s) (hfits : ∀ action ∈ actions, action.Fits a) :
    ∃ free, s.arena.Inv s.blocks free s.holes ∧ s.Spaced a free ∧ s.arena.base = base := by
  have hstart : ArenaState.Spaced a ⟨A, [], []⟩ [] :=
    ⟨(GcArena.new_bump hnew).symm ▸ Nat.dvd_zero a, by simp, by simp, by simp⟩
  have hsteps : ∀ s action t, (∃ free, s.arena.Inv s.blocks free s.holes ∧ s.Spaced a free ∧
      s.arena.base = base) → ArenaStep s action t ∧ action.Fits a →
      ∃ free, t.arena.Inv t.blocks free t.holes ∧ t.Spaced a free ∧ t.arena.base = base := by
    rintro s action t ⟨free, hinv, hsp, hb⟩ ⟨hst, hfits⟩
    obtain ⟨free', hinv', hsp', hb'⟩ := hsp.step hinv hst hfits
    exact ⟨free', hinv', hsp', hb'.trans hb⟩
  exact (hrun.of_forall_mem hfits).invariant hsteps
    ⟨[], GcArena.inv_new hnew, hstart, (Option.some.inj (GcArena.new_region hnew).1).symm⟩

/-- The blocks of a run are aligned exactly when each of its steps finds an aligned fit. -/
theorem returnsAligned_iff (hnew : GcArena.new capacity (some base) = some A)
    (hrun : Run ArenaStep ⟨A, [], []⟩ actions s) : ReturnsAligned A actions ↔
      Run (fun s action t => ArenaStep s action t ∧ AlignedStep s action) ⟨A, [], []⟩ actions
        s := by
  rw [← hrun.forall_step_iff ArenaStep.run_functional]
  constructor
  · intro hall pre action post t heq hpre
    obtain ⟨free, hinv⟩ := exists_inv_of_run hnew hpre
    cases action with
    | alloc layout =>
      exact (GcArena.alloc_aligned_iff hinv).mp fun ptr A' => hall pre layout post t ptr A' heq hpre
    | _ => trivial
  · intro hall pre layout post t ptr A' heq hpre
    obtain ⟨free, hinv⟩ := exists_inv_of_run hnew hpre
    exact (GcArena.alloc_aligned_iff hinv).mpr (hall pre _ post t heq hpre) ptr A'

/-- Requests of one spacing, from a base that is a multiple of it. -/
theorem returnsAligned_of_fits {a : ℕ} (hnew : GcArena.new capacity (some base) = some A)
    (hrun : Run ArenaStep ⟨A, [], []⟩ actions s) (hbase : a ∣ base)
    (hfits : ∀ action ∈ actions, action.Fits a) : ReturnsAligned A actions := by
  rw [returnsAligned_iff hnew hrun, ← hrun.forall_step_iff ArenaStep.run_functional]
  intro pre action post t heq hpre
  obtain ⟨free, hinv, hsp, hbaset⟩ := exists_spaced_of_run hnew hpre fun b hb =>
    hfits b (heq ▸ List.mem_append_left _ hb)
  exact hsp.alignedStep hinv (hbaset ▸ hbase) (hfits action (heq ▸ by simp))

end Runs

/-- **Aligned blocks.** In a run of an arena every allocation returns an aligned block, if it
returns one, whenever the base is a multiple of some `a`, and all requests of the run are for
multiples of `a` bytes and for an alignment that divides `a`. In any run, that is so if and only if
each time the frontier has room the base is a multiple of the alignment, and each time it has none
the first hole with enough room begins at one. An aligned node has an aligned payload. -/
theorem arena_aligned_iff {capacity base : ℕ} {A : GcArena} {s : ArenaState}
    {actions : List ArenaAction} (hnew : GcArena.new capacity (some base) = some A)
    (hrun : Run ArenaStep ⟨A, [], []⟩ actions s) :
    (∀ a, a ∣ base → (∀ action ∈ actions, action.Fits a) → ReturnsAligned A actions) ∧
    (ReturnsAligned A actions ↔
      Run (fun s action t => ArenaStep s action t ∧ AlignedStep s action) ⟨A, [], []⟩ actions s) ∧
    ∀ headSize headAlign payloadAlign ptr, headAlign.isPowerOfTwo → payloadAlign.isPowerOfTwo →
      headSize + payloadAlign ≤ 2 ^ 63 → layoutAlignOf headAlign payloadAlign ∣ ptr →
        payloadAlign ∣ ptr + payloadOffsetOf headSize payloadAlign :=
  ⟨fun _ => returnsAligned_of_fits hnew hrun, returnsAligned_iff hnew hrun,
    fun _ _ _ _ => payload_aligned⟩

/-! ### A base that is aligned too little -/

/-- Requests for 8 bytes, and for 24 bytes, are spaced by 8. -/
theorem arena_aligned_eight : ∃ (A : GcArena) (s : ArenaState),
    Run ArenaStep ⟨A, [], []⟩
      [.alloc ⟨8, 8, ⟨3, rfl⟩, by decide⟩, .alloc ⟨24, 8, ⟨3, rfl⟩, by decide⟩] s ∧
    ReturnsAligned A
      [.alloc ⟨8, 8, ⟨3, rfl⟩, by decide⟩, .alloc ⟨24, 8, ⟨3, rfl⟩, by decide⟩] := by
  have hnew : GcArena.new 64 (some 4112) = some ⟨4112, 64, 0, none, 0, fun _ => default⟩ := rfl
  have h₁ : ArenaStep ⟨⟨4112, 64, 0, none, 0, fun _ => default⟩, [], []⟩
      (.alloc ⟨8, 8, ⟨3, rfl⟩, by decide⟩)
      ⟨⟨4112, 64, 16, none, 1, fun _ => default⟩, [⟨4112, 8⟩], []⟩ := .alloc rfl
  have h₂ : ArenaStep ⟨⟨4112, 64, 16, none, 1, fun _ => default⟩, [⟨4112, 8⟩], []⟩
      (.alloc ⟨24, 8, ⟨3, rfl⟩, by decide⟩)
      ⟨⟨4112, 64, 40, none, 2, fun _ => default⟩, [⟨4128, 24⟩, ⟨4112, 8⟩], []⟩ := .alloc rfl
  have hrun := Run.cons h₁ (.cons h₂ (.nil _))
  refine ⟨_, _, hrun, (arena_aligned_iff hnew hrun).1 8 (by decide) ?_⟩
  simp only [List.forall_mem_cons, List.not_mem_nil, false_imp_iff, implies_true, and_true]
  exact ⟨⟨by decide, by decide⟩, by decide, by decide⟩

/-- **The first block of an arena at 4112, which is a multiple of 16, is not aligned to 32.** -/
theorem alloc_misaligned : ∃ A A' : GcArena, 16 ∣ 4112 ∧ GcArena.new 64 (some 4112) = some A ∧
    A.alloc ⟨32, 32, ⟨5, rfl⟩, by decide⟩ = some (4112, A') ∧ ¬ 32 ∣ 4112 :=
  ⟨⟨4112, 64, 0, none, 0, fun _ => default⟩, ⟨4112, 64, 32, none, 1, fun _ => default⟩, by decide,
    rfl, rfl, by decide⟩

end GcLite
