import GcLite.ArenaAlignment

/-!
# Dead space in an arena

Three things lose bytes of an arena. The free list is rebuilt from the holes of one sweep, and what
was on it before is forgotten. A block from the free list takes a whole entry, however large, and
the rest of the entry is nobody's. And after a rewind the frontier may skip bytes that have been in
use, to align the next block.

A run is recorded together with the bytes that have ever been part of a block. As long as none of
the three happens, every such byte below the frontier is in a block, on the free list, or in a hole
that waits for the end of the sweep.

## Main definitions

* `ArenaHistory`, `HistoryStep` — an arena and the bytes that have been in use
* `ArenaHistory.DeadSpaceListed` — the dead ones are on the free list
* `ArenaHistory.KeepsSpace` — a step that loses none

## Main results

* `HistoryStep.lossless_iff` — one step
* `arena_space_kept` — runs
-/

namespace GcLite

open Spans Transition

/-- The bytes of the outstanding blocks, as offsets from the base. -/
def ArenaState.InBlock (s : ArenaState) (byte : ℕ) : Prop :=
  Covers (s.blocks.map (Block.span s.arena.base)) byte

/-- An arena in use, and the bytes that have ever been part of a block. -/
structure ArenaHistory where
  /-- The arena and what its users hold. -/
  state : ArenaState
  /-- Whether an offset has been part of a block. -/
  used : ℕ → Prop

namespace ArenaHistory

/-- A new arena, of which nothing has been used. -/
def new (A : GcArena) : ArenaHistory := ⟨⟨A, [], []⟩, fun _ => False⟩

/-- The arena has come to this state. -/
def record (g : ArenaHistory) (s : ArenaState) : ArenaHistory :=
  ⟨s, fun byte => g.used byte ∨ s.InBlock byte⟩

/-- Every byte below the frontier that was once part of a block, and is part of none now, is covered
by an entry of the free list. -/
def DeadSpaceListed (g : ArenaHistory) : Prop :=
  ∃ free, FreeChain g.state.arena.mem g.state.arena.freeHead free ∧
    ∀ byte, g.used byte → byte < g.state.arena.bump → ¬ g.state.InBlock byte →
      Covers (free.map g.state.arena.freeSpan) byte

/-- The same, but such a byte may also be in a hole. -/
def Lossless (g : ArenaHistory) : Prop :=
  ∃ free, FreeChain g.state.arena.mem g.state.arena.freeHead free ∧
    ∀ byte, g.used byte → byte < g.state.arena.bump →
      Covers (g.state.arena.spans g.state.blocks free g.state.holes) byte

/-- Before a step: if it takes a block from the frontier, it skips no byte that has been in use; if
it takes one from the free list, the entry has just the size that is needed; if it finishes a sweep
that leaves something alive, the free list is empty. -/
def KeepsSpace (g : ArenaHistory) : ArenaAction → Prop
  | .alloc layout =>
    if alignUp g.state.arena.bump layout.align + max layout.size minAllocSize ≤
        g.state.arena.capacity then
      ∀ byte, g.state.arena.bump ≤ byte → byte < alignUp g.state.arena.bump layout.align →
        ¬ g.used byte
    else ∀ entry, g.state.arena.firstFit (max layout.size minAllocSize) = some entry →
      (g.state.arena.mem entry).size = max layout.size minAllocSize
  | .finish => g.state.arena.liveCount = 0 ∨ g.state.arena.freeHead = none
  | _ => True

end ArenaHistory

/-- One use of the arena, with the bytes of its blocks recorded. -/
def HistoryStep (g : ArenaHistory) (action : ArenaAction) (g' : ArenaHistory) : Prop :=
  ArenaStep g.state action g'.state ∧ g'.used = fun byte => g.used byte ∨ g'.state.InBlock byte

theorem HistoryStep.of_arenaStep {g : ArenaHistory} {s : ArenaState} {action : ArenaAction}
    (hst : ArenaStep g.state action s) : HistoryStep g action (g.record s) := ⟨hst, rfl⟩

theorem HistoryStep.functional {g g₁ g₂ : ArenaHistory} {action : ArenaAction}
    (h₁ : HistoryStep g action g₁) (h₂ : HistoryStep g action g₂) : g₁ = g₂ := by
  obtain ⟨s₁, used₁⟩ := g₁
  obtain ⟨s₂, used₂⟩ := g₂
  obtain ⟨hst₁, hused₁⟩ := h₁
  obtain ⟨hst₂, hused₂⟩ := h₂
  obtain rfl : s₁ = s₂ := hst₁.functional hst₂
  exact congrArg (ArenaHistory.mk s₁) (hused₁.trans hused₂.symm)

/-! ### What is accounted for -/

theorem GcArena.covers_spans {A : GcArena} {blocks : List Block} {free : List ℕ}
    {holes : List Hole} {byte : ℕ} : Covers (A.spans blocks free holes) byte ↔
      Covers (blocks.map (Block.span A.base)) byte ∨ Covers (free.map A.freeSpan) byte ∨
        Covers holes byte := by
  rw [GcArena.spans, covers_append, covers_append]

/-- A block at the frontier takes it along, and any other becomes a hole. -/
theorem GcArena.collectHole_cases (A : GcArena) (holes : List Hole) {b : Block}
    (hb : A.base ≤ b.ptr) : (A.collectHole holes b.ptr b.size).1.mem = A.mem ∧
      ((A.collectHole holes b.ptr b.size).2 = holes ∧
          (A.collectHole holes b.ptr b.size).1.bump = (b.span A.base).offset ∧
          (b.span A.base).stop = A.bump ∨
        (A.collectHole holes b.ptr b.size).2 = holes ++ [b.span A.base] ∧
          (A.collectHole holes b.ptr b.size).1.bump = A.bump) := by
  unfold GcArena.collectHole
  dsimp only
  split
  · refine ⟨rfl, .inl ⟨rfl, rfl, ?_⟩⟩
    simp only [Block.span, Span.stop]
    omega
  · exact ⟨rfl, .inr ⟨rfl, rfl⟩⟩

namespace ArenaHistory

/-- The arena's invariant, and everything it accounts for has been in use. -/
structure Recorded (g : ArenaHistory) (free : List ℕ) : Prop where
  /-- The arena is in order. -/
  inv : g.state.arena.Inv g.state.blocks free g.state.holes
  /-- What it accounts for has been in use. -/
  used : ∀ byte, Covers (g.state.arena.spans g.state.blocks free g.state.holes) byte → g.used byte

/-- Everything that has been in use is accounted for. -/
def Accounted (g : ArenaHistory) (free : List ℕ) : Prop :=
  ∀ byte, g.used byte → byte < g.state.arena.bump →
    Covers (g.state.arena.spans g.state.blocks free g.state.holes) byte

variable {g g' : ArenaHistory} {free : List ℕ} {action : ArenaAction}

theorem Recorded.lossless_iff (h : g.Recorded free) : g.Lossless ↔ g.Accounted free := by
  constructor
  · rintro ⟨free', hchain, hall⟩
    obtain rfl := h.inv.chain.unique hchain
    exact hall
  · exact fun hall => ⟨free, h.inv.chain, hall⟩

/-- A state is recorded if the blocks are, and what else it accounts for was before. -/
theorem Recorded.of_step (hst : HistoryStep g action g')
    (hinv : g'.state.arena.Inv g'.state.blocks free g'.state.holes)
    (hfree : ∀ byte, Covers (free.map g'.state.arena.freeSpan) byte → g.used byte)
    (hholes : ∀ byte, Covers g'.state.holes byte → g.used byte) : g'.Recorded free := by
  refine ⟨hinv, fun byte hbyte => ?_⟩
  rw [hst.2]
  rcases GcArena.covers_spans.mp hbyte with hbyte | hbyte | hbyte
  · exact .inr hbyte
  · exact .inl (hfree byte hbyte)
  · exact .inl (hholes byte hbyte)

theorem Recorded.used_of_free (h : g.Recorded free) {byte : ℕ}
    (hbyte : Covers (free.map g.state.arena.freeSpan) byte) : g.used byte :=
  h.used byte (GcArena.covers_spans.mpr (.inr (.inl hbyte)))

theorem Recorded.used_of_hole (h : g.Recorded free) {byte : ℕ} (hbyte : Covers g.state.holes byte) :
    g.used byte :=
  h.used byte (GcArena.covers_spans.mpr (.inr (.inr hbyte)))

/-- A byte of an entry of the free list has been in use, and nothing else covers it. -/
theorem Recorded.of_freeSpan {pre post : List ℕ} {entry : ℕ}
    (h : g.Recorded (pre ++ entry :: post)) {byte : ℕ}
    (hbyte : (g.state.arena.freeSpan entry).Contains byte) : g.used byte ∧
      byte < g.state.arena.bump ∧
      ¬ Covers (g.state.arena.spans g.state.blocks (pre ++ post) g.state.holes) byte := by
  have hperm := g.state.arena.perm_spans g.state.blocks g.state.holes pre post entry
  have hmem := hperm.symm.subset List.mem_cons_self
  have hin := h.inv.inside _ hmem
  have hlt := hbyte.2
  exact ⟨h.used byte ⟨_, hmem, hbyte⟩, by omega, (h.inv.apart.perm hperm).not_covers hbyte⟩

/-- What is not in a new block was in use before. -/
theorem accounted_iff (hst : HistoryStep g action g') : g'.Accounted free ↔
    ∀ byte, g.used byte → byte < g'.state.arena.bump →
      Covers (g'.state.arena.spans g'.state.blocks free g'.state.holes) byte := by
  refine forall_congr' fun byte => ?_
  rw [hst.2]
  constructor
  · exact fun h hused => h (.inl hused)
  · rintro h (hused | hblock)
    · exact h hused
    · exact fun _ => GcArena.covers_spans.mpr (.inl hblock)

end ArenaHistory

/-! ### One step -/

namespace HistoryStep

open ArenaHistory

variable {g g' : ArenaHistory} {free : List ℕ} {layout : Layout} {ptr : ℕ} {A' : GcArena}

/-- What a step does: it keeps the record, and if nothing was lost before, it loses nothing exactly
if it keeps the space. -/
def Kept (g : ArenaHistory) (free : List ℕ) (action : ArenaAction) (g' : ArenaHistory) : Prop :=
  ∃ free', g'.Recorded free' ∧ (g.Accounted free → (g'.Accounted free' ↔ g.KeepsSpace action))

/-- A block from the frontier. -/
theorem kept_bump (h : g.Recorded free) (hst : HistoryStep g (.alloc layout) g')
    (hg' : g'.state = ⟨A', ⟨ptr, layout.size⟩ :: g.state.blocks, g.state.holes⟩)
    (hroom : alignUp g.state.arena.bump layout.align + max layout.size minAllocSize ≤
      g.state.arena.capacity)
    (hinv : A'.Inv (⟨ptr, layout.size⟩ :: g.state.blocks) free g.state.holes)
    (hptr : ptr = g.state.arena.base + alignUp g.state.arena.bump layout.align)
    (hbump : A'.bump = alignUp g.state.arena.bump layout.align + max layout.size minAllocSize)
    (hbase : A'.base = g.state.arena.base) (hmem : A'.mem = g.state.arena.mem) :
    Kept g free (.alloc layout) g' := by
  have hfree : free.map A'.freeSpan = free.map g.state.arena.freeSpan :=
    GcArena.map_freeSpan_congr hbase fun a _ => by rw [hmem]
  have hspans : A'.spans (⟨ptr, layout.size⟩ :: g.state.blocks) free g.state.holes =
      ⟨alignUp g.state.arena.bump layout.align, max layout.size minAllocSize⟩ ::
        g.state.arena.spans g.state.blocks free g.state.holes := by
    rw [GcArena.spans, hbase, hfree, hptr]
    simp [Block.span, GcArena.spans]
  refine ⟨free, .of_step hst ?_ (fun byte hbyte => ?_) (fun byte hbyte => ?_), fun hacc => ?_⟩
  · rw [hg']
    exact hinv
  · rw [hg', hfree] at hbyte
    exact h.used_of_free hbyte
  · rw [hg'] at hbyte
    exact h.used_of_hole hbyte
  rw [accounted_iff hst, KeepsSpace, if_pos hroom, hg']
  dsimp only
  rw [hspans, hbump]
  constructor
  · intro hall byte hle hlt hused
    rcases covers_cons.mp (hall byte hused (by omega)) with hnew | ⟨s, hs, hbyte⟩
    · exact absurd hnew.1 (Nat.not_le.mpr hlt)
    · have hin := h.inv.inside s hs
      have := hbyte.2
      omega
  · intro hgap byte hused hlt
    rw [covers_cons]
    by_cases hold : byte < g.state.arena.bump
    · exact .inr (hacc byte hused hold)
    · refine .inl ⟨?_, hlt⟩
      by_contra hlow
      exact hgap byte (Nat.le_of_not_lt hold) (Nat.lt_of_not_le hlow) hused

/-- A block from the free list. -/
theorem kept_fit {pre post : List ℕ} (h : g.Recorded (pre ++ ptr :: post))
    (hst : HistoryStep g (.alloc layout) g')
    (hg' : g'.state = ⟨A', ⟨ptr, layout.size⟩ :: g.state.blocks, g.state.holes⟩)
    (hroom : ¬ alignUp g.state.arena.bump layout.align + max layout.size minAllocSize ≤
      g.state.arena.capacity)
    (hfit : g.state.arena.firstFit (max layout.size minAllocSize) = some ptr)
    (hsize : max layout.size minAllocSize ≤ (g.state.arena.mem ptr).size)
    (hinv : A'.Inv (⟨ptr, layout.size⟩ :: g.state.blocks) (pre ++ post) g.state.holes)
    (hbump : A'.bump = g.state.arena.bump) (hbase : A'.base = g.state.arena.base)
    (hsizes : ∀ a, (A'.mem a).size = (g.state.arena.mem a).size) :
    Kept g (pre ++ ptr :: post) (.alloc layout) g' := by
  have hfree : (pre ++ post).map A'.freeSpan = (pre ++ post).map g.state.arena.freeSpan :=
    GcArena.map_freeSpan_congr hbase fun a _ => hsizes a
  have hspans : A'.spans (⟨ptr, layout.size⟩ :: g.state.blocks) (pre ++ post) g.state.holes =
      ⟨ptr - g.state.arena.base, max layout.size minAllocSize⟩ ::
        g.state.arena.spans g.state.blocks (pre ++ post) g.state.holes := by
    rw [GcArena.spans, hbase, hfree]
    simp [Block.span, GcArena.spans]
  have hperm := g.state.arena.perm_spans g.state.blocks g.state.holes pre post ptr
  refine ⟨pre ++ post, .of_step hst ?_ (fun byte hbyte => ?_) (fun byte hbyte => ?_),
    fun hacc => ?_⟩
  · rw [hg']
    exact hinv
  · rw [hg', hfree] at hbyte
    refine h.used_of_free ?_
    rw [List.map_append, covers_append] at hbyte
    rw [List.map_append, List.map_cons, covers_append, covers_cons]
    exact hbyte.imp_right .inr
  · rw [hg'] at hbyte
    exact h.used_of_hole hbyte
  rw [accounted_iff hst, KeepsSpace, if_neg hroom, hfit, hg']
  dsimp only
  rw [hspans, hbump]
  simp only [Option.some.injEq, forall_eq']
  constructor
  · -- a larger entry leaves a byte behind that nothing else covers
    intro hall
    by_contra hne
    have hrest : (g.state.arena.freeSpan ptr).Contains
        (ptr - g.state.arena.base + max layout.size minAllocSize) := by
      simp only [GcArena.freeSpan, Span.Contains, Span.stop]
      omega
    obtain ⟨hused, hlt, hnot⟩ := h.of_freeSpan hrest
    rcases covers_cons.mp (hall _ hused hlt) with hnew | hother
    · exact absurd hnew.2 (Nat.lt_irrefl _)
    · exact hnot hother
  · intro hexact byte hused hlt
    rcases covers_cons.mp ((hacc byte hused hlt).perm hperm) with hentry | hother
    · rw [← hexact]
      exact covers_cons.mpr (.inl hentry)
    · exact covers_cons.mpr (.inr hother)

/-- A block that is given up goes to the holes or back behind the frontier. -/
theorem kept_collect {b : Block} (h : g.Recorded free) (hb : b ∈ g.state.blocks)
    (hst : HistoryStep g (.collect b) g')
    (hg' : g'.state = ⟨(g.state.arena.collectHole g.state.holes b.ptr b.size).1,
      g.state.blocks.erase b, (g.state.arena.collectHole g.state.holes b.ptr b.size).2⟩) :
    Kept g free (.collect b) g' := by
  have hinv := (h.inv.perm (List.perm_cons_erase hb)).collectHole
  have hbase := (GcArena.collectHole_region g.state.arena g.state.holes b.ptr b.size).1
  obtain ⟨hmem, hcases⟩ :=
    g.state.arena.collectHole_cases g.state.holes (h.inv.block_base b hb)
  have hfree : free.map (g.state.arena.collectHole g.state.holes b.ptr b.size).1.freeSpan =
      free.map g.state.arena.freeSpan :=
    GcArena.map_freeSpan_congr hbase fun a _ => by rw [hmem]
  have hblocks : ∀ byte, Covers (g.state.blocks.map (Block.span g.state.arena.base)) byte ↔
      (b.span g.state.arena.base).Contains byte ∨
        Covers ((g.state.blocks.erase b).map (Block.span g.state.arena.base)) byte := fun byte => by
    have hperm := (List.perm_cons_erase hb).map (Block.span g.state.arena.base)
    rw [← covers_cons, ← List.map_cons]
    exact ⟨fun hc => hc.perm hperm, fun hc => hc.perm hperm.symm⟩
  refine ⟨free, .of_step hst ?_ (fun byte hbyte => ?_) (fun byte hbyte => ?_), fun hacc => ?_⟩
  · rw [hg']
    exact hinv
  · rw [hg', hfree] at hbyte
    exact h.used_of_free hbyte
  · rw [hg'] at hbyte
    dsimp only at hbyte
    rcases hcases with ⟨hholes, -⟩ | ⟨hholes, -⟩ <;> rw [hholes] at hbyte
    · exact h.used_of_hole hbyte
    · rcases covers_append.mp hbyte with hbyte | hbyte
      · exact h.used_of_hole hbyte
      · refine h.used byte (GcArena.covers_spans.mpr (.inl ((hblocks byte).mpr (.inl ?_))))
        simpa using hbyte
  refine iff_of_true ((accounted_iff hst).mpr fun byte hused hlt => ?_) trivial
  rw [hg'] at hlt ⊢
  dsimp only at hlt ⊢
  rw [GcArena.covers_spans, hbase, hfree]
  have hold : byte < g.state.arena.bump := by
    rcases hcases with ⟨-, hbump, hstop⟩ | ⟨-, hbump⟩
    · simp only [Span.stop] at hstop
      omega
    · omega
  rcases GcArena.covers_spans.mp (hacc byte hused hold) with hblock | hentry | hhole
  · rcases (hblocks byte).mp hblock with hb' | hblock
    · rcases hcases with ⟨-, hbump, -⟩ | ⟨hholes, -⟩
      · exact absurd hb'.1 (Nat.not_le.mpr (hbump ▸ hlt))
      · rw [hholes, covers_append, covers_cons]
        exact .inr (.inr (.inr (.inl hb')))
    · exact .inl hblock
  · exact .inr (.inl hentry)
  · refine .inr (.inr ?_)
    rcases hcases with ⟨hholes, -⟩ | ⟨hholes, -⟩ <;> rw [hholes]
    · exact hhole
    · exact covers_append.mpr (.inl hhole)

/-- The end of a sweep replaces the free list by the holes. -/
theorem kept_finish (h : g.Recorded free) (hst : HistoryStep g .finish g')
    (hg' : g'.state = ⟨(g.state.arena.finishSweep g.state.holes).1, g.state.blocks,
      (g.state.arena.finishSweep g.state.holes).2⟩) : Kept g free .finish g' := by
  obtain ⟨free', hinv, -, hcovers⟩ := h.inv.finishSweep_free
  have hholes := g.state.arena.finishSweep_holes g.state.holes
  have hbump := g.state.arena.bump_finishSweep g.state.holes
  have hbase := (GcArena.finishSweep_region g.state.arena g.state.holes).1
  refine ⟨free', .of_step hst (by rw [hg']; exact hinv) (fun byte hbyte => ?_)
    (fun byte hbyte => ?_), fun hacc => ?_⟩
  · rw [hg'] at hbyte
    by_cases hzero : g.state.arena.liveCount = 0
    · -- the frontier is at the base, so there is nothing below it
      obtain ⟨s, hs, hb⟩ := hbyte
      have hin := hinv.inside s (List.mem_append_right _ (List.mem_append_left _ hs))
      rw [hbump, if_pos hzero] at hin
      exact absurd hb.2 (by omega)
    · exact h.used_of_hole ((hcovers hzero byte).mp hbyte)
  · rw [hg'] at hbyte
    dsimp only at hbyte
    rw [hholes] at hbyte
    exact absurd hbyte not_covers_nil
  rw [accounted_iff hst, KeepsSpace, hg']
  dsimp only
  rw [hbump]
  by_cases hzero : g.state.arena.liveCount = 0
  · rw [if_pos hzero]
    exact iff_of_true (fun _ _ hlt => absurd hlt (Nat.not_lt_zero _)) (.inl hzero)
  rw [if_neg hzero]
  simp only [hzero, false_or, GcArena.covers_spans, hbase, hholes, hcovers hzero, not_covers_nil,
    or_false]
  constructor
  · -- the first byte of an entry would be lost
    intro hall
    cases hchain : free with
    | nil =>
      have := h.inv.chain
      rw [hchain] at this
      exact this
    | cons a l =>
      subst hchain
      exfalso
      have hmin := h.inv.min_size (g.state.arena.freeSpan a)
        (GcArena.mem_spans.mpr (.inr (.inl ⟨a, List.mem_cons_self, rfl⟩)))
      have hfirst : (g.state.arena.freeSpan a).Contains (a - g.state.arena.base) := by
        simp only [GcArena.freeSpan, Span.Contains, Span.stop, minAllocSize] at hmin ⊢
        omega
      obtain ⟨hused, hlt, hnot⟩ := @Recorded.of_freeSpan g [] l a h _ hfirst
      exact hnot (GcArena.covers_spans.mpr ((hall _ hused hlt).imp_right .inr))
  · intro hnone byte hused hlt
    have hempty : free = [] := by
      exact h.inv.chain.unique (show FreeChain _ _ [] from hnone)
    have := GcArena.covers_spans.mp (hacc byte hused hlt)
    simpa [hempty] using this

/-- **Every step** loses nothing exactly if it keeps the space. -/
theorem kept {action : ArenaAction} (hst : HistoryStep g action g') (h : g.Recorded free) :
    Kept g free action g' := by
  have hst' := hst.1
  generalize hs : g'.state = s' at hst'
  cases hst' with
  | @alloc layout ptr A' halloc =>
    have hbase := (GcArena.alloc_region halloc).1
    rcases h.inv.alloc_split halloc with ⟨hroom, hinv, hptr, hbump, hmem⟩ |
      ⟨hroom, pre, post, rfl, hsize, hinv, hbump, hsizes⟩
    · exact kept_bump h hst hs hroom hinv hptr hbump hbase hmem
    · have hfit := g.state.arena.alloc_ptr layout
      rw [halloc, if_neg hroom] at hfit
      exact kept_fit h hst hs hroom hfit.symm hsize hinv hbump hbase hsizes
  | @full layout hnone =>
    have hptr := g.state.arena.alloc_ptr layout
    rw [hnone] at hptr
    refine ⟨free, .of_step hst (by rw [hs]; exact h.inv) (fun byte => ?_) (fun byte => ?_),
      fun hacc => ?_⟩
    · rw [hs]
      exact h.used_of_free
    · rw [hs]
      exact h.used_of_hole
    · refine iff_of_true ((accounted_iff hst).mpr ?_) ?_
      · rw [hs]
        exact hacc
      · split at hptr
        · cases hptr
        · next hroom =>
          rw [KeepsSpace, if_neg hroom, ← hptr]
          exact fun entry hentry => by cases hentry
  | collect hb => exact kept_collect h hb hst hs
  | finish => exact kept_finish h hst hs
  | @write mem hmem =>
    have hkeep := h.inv.mem_eq_of_write hmem
    have hfree : free.map (GcArena.freeSpan { g.state.arena with mem := mem }) =
        free.map g.state.arena.freeSpan :=
      GcArena.map_freeSpan_congr rfl fun a ha => congrArg FreeEntry.size (hkeep a ha)
    have hinv := h.inv.write hmem
    refine ⟨free, .of_step hst (by rw [hs]; exact hinv) (fun byte => ?_) (fun byte => ?_),
      fun hacc => ?_⟩
    · rw [hs, hfree]
      exact h.used_of_free
    · rw [hs]
      exact h.used_of_hole
    · refine iff_of_true ((accounted_iff hst).mpr ?_) trivial
      rw [hs]
      dsimp only [GcArena.spans]
      rw [hfree]
      exact hacc

theorem recorded {action : ArenaAction} (hst : HistoryStep g action g')
    (h : ∃ free, g.Recorded free) : ∃ free, g'.Recorded free := by
  obtain ⟨free, h⟩ := h
  obtain ⟨free', h', -⟩ := hst.kept h
  exact ⟨free', h'⟩

/-- Whether a step loses anything does not depend on the free list that is found. -/
theorem lossless_iff {action : ArenaAction} (hst : HistoryStep g action g')
    (h : ∃ free, g.Recorded free) (hg : g.Lossless) : g'.Lossless ↔ g.KeepsSpace action := by
  obtain ⟨free, h⟩ := h
  obtain ⟨free', h', hiff⟩ := hst.kept h
  exact h'.lossless_iff.trans (hiff (h.lossless_iff.mp hg))

end HistoryStep

/-! ### Runs -/

open ArenaHistory

/-- **Dead space.** In a run of an arena nothing is lost if and only if every step keeps the space.
Then after each `finish_sweep` every byte below the frontier that was once part of a block, and is
part of none now, is on the free list. -/
theorem arena_space_kept {capacity base : ℕ} {A : GcArena} {g : ArenaHistory}
    {actions : List ArenaAction} (hnew : GcArena.new capacity (some base) = some A)
    (hrun : Run HistoryStep (.new A) actions g) :
    ((∀ pre u, pre <+: actions → Run HistoryStep (.new A) pre u → u.Lossless) ↔
      Run (fun g action g' => HistoryStep g action g' ∧ g.KeepsSpace action) (.new A) actions g) ∧
    (Run (fun g action g' => HistoryStep g action g' ∧ g.KeepsSpace action) (.new A) actions g →
      ∀ pre u, pre ++ [.finish] <+: actions → Run HistoryStep (.new A) (pre ++ [.finish]) u →
        u.DeadSpaceListed) := by
  have hstart : (ArenaHistory.new A).Recorded [] :=
    ⟨GcArena.inv_new hnew, fun byte hbyte => by simp [new, GcArena.spans] at hbyte⟩
  have hfun : ∀ g a t t', HistoryStep g a t → HistoryStep g a t' → t = t' :=
    fun _ _ _ _ => HistoryStep.functional
  have hkeeps := hrun.forall_prefix_iff (I := fun g => ∃ free, g.Recorded free) (P := Lossless)
    (C := KeepsSpace) hfun (fun _ _ _ hg hst => hst.recorded hg)
    (fun _ _ _ hg hl hst => hst.lossless_iff hg hl) ⟨[], hstart⟩
    (hstart.lossless_iff.mpr fun byte hused => absurd hused id)
  refine ⟨hkeeps, fun hrun' pre u hpre hu => ?_⟩
  obtain ⟨free, hchain, hall⟩ := hkeeps.mpr hrun' _ u hpre hu
  obtain ⟨t, -, hlast⟩ := run_concat.mp hu
  have hholes : u.state.holes = [] := by
    have hst := hlast.1
    generalize u.state = s at hst
    cases hst
    exact GcArena.finishSweep_holes _ _
  refine ⟨free, hchain, fun byte hused hlt hnot => ?_⟩
  have hcovers := GcArena.covers_spans.mp (hall byte hused hlt)
  rw [hholes] at hcovers
  exact (hcovers.resolve_left hnot).resolve_right not_covers_nil

/-- One sweep that collects the first of two blocks. -/
theorem arena_space_kept_one : ∃ (A : GcArena) (g : ArenaHistory), g.state.blocks = [⟨4112, 8⟩] ∧
    Run HistoryStep (.new A) [.alloc ⟨8, 8, ⟨3, rfl⟩, by decide⟩,
      .alloc ⟨8, 8, ⟨3, rfl⟩, by decide⟩, .collect ⟨4096, 8⟩, .finish] g ∧ g.DeadSpaceListed := by
  have hnew : GcArena.new 64 (some 4096) = some ⟨4096, 64, 0, none, 0, fun _ => default⟩ := rfl
  have h₁ : ArenaStep ⟨⟨4096, 64, 0, none, 0, fun _ => default⟩, [], []⟩
      (.alloc ⟨8, 8, ⟨3, rfl⟩, by decide⟩)
      ⟨⟨4096, 64, 16, none, 1, fun _ => default⟩, [⟨4096, 8⟩], []⟩ := .alloc rfl
  have h₂ : ArenaStep ⟨⟨4096, 64, 16, none, 1, fun _ => default⟩, [⟨4096, 8⟩], []⟩
      (.alloc ⟨8, 8, ⟨3, rfl⟩, by decide⟩)
      ⟨⟨4096, 64, 32, none, 2, fun _ => default⟩, [⟨4112, 8⟩, ⟨4096, 8⟩], []⟩ := .alloc rfl
  have h₃ : ArenaStep ⟨⟨4096, 64, 32, none, 2, fun _ => default⟩, [⟨4112, 8⟩, ⟨4096, 8⟩], []⟩
      (.collect ⟨4096, 8⟩)
      ⟨⟨4096, 64, 32, none, 1, fun _ => default⟩, [⟨4112, 8⟩], [⟨0, 16⟩]⟩ := .collect (by decide)
  have hskips : ∀ (used : ℕ → Prop) k, alignUp k 8 = k →
      ∀ byte, k ≤ byte → byte < alignUp k 8 → ¬ used byte := by
    intro used k hk byte hle hlt
    rw [hk] at hlt
    omega
  have hrun : Run (fun g action g' => HistoryStep g action g' ∧ g.KeepsSpace action) _ _ _ := .cons
    ⟨.of_arenaStep (g := .new ⟨4096, 64, 0, none, 0, fun _ => default⟩) h₁, hskips _ 0 (by decide)⟩
    (.cons ⟨.of_arenaStep h₂, hskips _ 16 (by decide)⟩
      (.cons ⟨.of_arenaStep h₃, trivial⟩ (.cons ⟨.of_arenaStep .finish, .inr rfl⟩ (.nil _))))
  have hrun' := hrun.mono fun _ _ _ => And.left
  exact ⟨_, _, rfl, hrun', (arena_space_kept hnew hrun').2 hrun
    [.alloc ⟨8, 8, ⟨3, rfl⟩, by decide⟩, .alloc ⟨8, 8, ⟨3, rfl⟩, by decide⟩, .collect ⟨4096, 8⟩]
    _ (List.prefix_refl _) hrun'⟩

/-- **The second of two sweeps forgets what the first one listed.** Of three blocks the first is
collected in one round and the second in the next. Then byte 0 is nobody's. -/
theorem finishSweep_forgets : ∃ (A : GcArena) (g : ArenaHistory),
    GcArena.new 64 (some 4096) = some A ∧
    Run HistoryStep (.new A) [.alloc ⟨8, 8, ⟨3, rfl⟩, by decide⟩,
      .alloc ⟨8, 8, ⟨3, rfl⟩, by decide⟩, .alloc ⟨8, 8, ⟨3, rfl⟩, by decide⟩,
      .collect ⟨4096, 8⟩, .finish, .collect ⟨4112, 8⟩, .finish] g ∧ ¬ g.DeadSpaceListed := by
  have h₁ : ArenaStep ⟨⟨4096, 64, 0, none, 0, fun _ => default⟩, [], []⟩
      (.alloc ⟨8, 8, ⟨3, rfl⟩, by decide⟩)
      ⟨⟨4096, 64, 16, none, 1, fun _ => default⟩, [⟨4096, 8⟩], []⟩ := .alloc rfl
  have h₂ : ArenaStep ⟨⟨4096, 64, 16, none, 1, fun _ => default⟩, [⟨4096, 8⟩], []⟩
      (.alloc ⟨8, 8, ⟨3, rfl⟩, by decide⟩)
      ⟨⟨4096, 64, 32, none, 2, fun _ => default⟩, [⟨4112, 8⟩, ⟨4096, 8⟩], []⟩ := .alloc rfl
  have h₃ : ArenaStep ⟨⟨4096, 64, 32, none, 2, fun _ => default⟩, [⟨4112, 8⟩, ⟨4096, 8⟩], []⟩
      (.alloc ⟨8, 8, ⟨3, rfl⟩, by decide⟩)
      ⟨⟨4096, 64, 48, none, 3, fun _ => default⟩, [⟨4128, 8⟩, ⟨4112, 8⟩, ⟨4096, 8⟩], []⟩ :=
    .alloc rfl
  have hrun : Run HistoryStep _ _ _ := .cons
    (.of_arenaStep (g := .new ⟨4096, 64, 0, none, 0, fun _ => default⟩) h₁)
    (.cons (.of_arenaStep h₂) (.cons (.of_arenaStep h₃)
      (.cons (.of_arenaStep (.collect (b := ⟨4096, 8⟩) (by decide))) (.cons (.of_arenaStep .finish)
        (.cons (.of_arenaStep (.collect (b := ⟨4112, 8⟩) (by decide)))
          (.cons (.of_arenaStep .finish) (.nil _)))))))
  refine ⟨_, _, rfl, hrun, ?_⟩
  rintro ⟨free, hchain, hall⟩
  -- the list has one entry, the block collected last
  obtain rfl : free = [4112] := hchain.unique ⟨rfl, rfl⟩
  have hused : ArenaState.InBlock
      ⟨⟨4096, 64, 16, none, 1, fun _ => default⟩, [⟨4096, 8⟩], []⟩ 0 :=
    ⟨⟨0, 16⟩, List.mem_cons_self, by decide, by decide⟩
  have hzero := hall 0 (.inl (.inl (.inl (.inl (.inl (.inl (.inr hused))))))) (by decide) ?_
  · obtain ⟨s, hs, hle, -⟩ := hzero
    obtain rfl : s = ⟨16, 16⟩ := List.mem_singleton.mp hs
    exact absurd hle (by decide)
  · rintro ⟨s, hs, hle, -⟩
    obtain rfl : s = ⟨32, 16⟩ := List.mem_singleton.mp hs
    exact absurd hle (by decide)

end GcLite
