import GcLite.ArenaBytes

/-!
# The arena, byte by byte

The whole allocator of `arena.rs` on the bytes it lies in. `GcArena` keeps its free entries in a
memory of their own, in which no entry overlaps another or anything else. Here an entry is two
words among the bytes of dead blocks: the walk through the free list reads them, unlinking an entry
writes over the second word of the one before it, and the owners of blocks write whatever they like
next to them.

A store of an owner is a step of its own, one byte at a time, anywhere in its block or outside of
the arena.

## Main definitions

* `ByteArena.new`, `ByteArena.alloc`, `ByteArena.allocFromFreeList`, `ByteArena.collectHole`
* `ByteArena.Represents` — the bytes hold the free list of a `GcArena`
* `ByteArenaState`, `ByteArenaStep` — an arena with its outstanding blocks, and one use of it

## Main results

* `Represents.alloc`, `Represents.finishSweep` — the operations agree
* `byte_arena_refines` — a run on bytes is a run of `GcArena` from which the stores are left out
* `byte_arena_last_store` — an owner reads what it stored last
-/

namespace GcLite

open Spans Bytes Transition

/-- What the system allocator may answer to a request for `size` bytes: an address that is not null,
with as many bytes behind it before the address space ends. -/
def SysPtr (size : ℕ) : Type := {ptr : ℕ // 0 < ptr ∧ ptr + size ≤ 2 ^ 64}

attribute [ext] FreeEntry

theorem FreeChain.head_eq {mem : ℕ → FreeEntry} {cur : Option ℕ} {l : List ℕ}
    (h : FreeChain mem cur l) : cur = l.head? := by
  cases l with
  | nil => exact h
  | cons a l => exact h.1

/-- The list says what the entries on it lead to. -/
theorem FreeChain.next_eq {mem mem' : ℕ → FreeEntry} {cur cur' : Option ℕ} {l : List ℕ}
    (h : FreeChain mem cur l) (h' : FreeChain mem' cur' l) :
    ∀ a ∈ l, (mem a).next = (mem' a).next := by
  induction l generalizing cur cur' with
  | nil => exact List.forall_mem_nil _
  | cons a l ih =>
    exact List.forall_mem_cons.mpr ⟨h.2.head_eq.trans h'.2.head_eq.symm, ih h.2 h'.2⟩

namespace ByteArena

/-- A new arena, unless the layout is invalid or the system allocator has no memory. The memory is
not initialized. -/
def new (capacity : ℕ) (sys : Option (SysPtr capacity)) (bytes : Memory) : Option ByteArena := do
  let _ ← Layout.fromSizeAlign capacity 16
  let ptr ← sys
  return ⟨ptr.val, capacity, 0, none, 0, bytes, ptr.property.1, ptr.property.2⟩

/-! ### Allocation -/

/-- The first-fit walk, from `curr` on; `prev` is the entry before it. The fuel bounds the walk. -/
def findFit (needed : ℕ) : ℕ → ByteArena → Option ℕ → Option ℕ → Option (ℕ × ByteArena)
  | 0, _, _, _ => none
  | _ + 1, _, _, none => none
  | fuel + 1, A, prev, some entry =>
    if needed ≤ readFreeSize A.bytes entry then
      let next := readFreeNext A.bytes entry
      match prev with
      | some p => some (entry, { A with bytes := writeFreeNext A.bytes p next })
      | none => some (entry, { A with freeHead := next })
    else findFit needed fuel A (some entry) (readFreeNext A.bytes entry)

/-- First-fit free-list search. As in `GcArena.allocFromFreeList`, the fuel never ends the walk. -/
def allocFromFreeList (A : ByteArena) (needed : ℕ) : Option (ℕ × ByteArena) :=
  findFit needed (A.capacity + 1) A none A.freeHead

/-- Main allocation path: bump, then free list, then `none`. -/
def alloc (A : ByteArena) (layout : Layout) : Option (ℕ × ByteArena) :=
  let needed := max layout.size minAllocSize
  let offset := alignUp A.bump layout.align
  if offset + needed ≤ A.capacity then
    some (A.base + offset, { A with bump := offset + needed, liveCount := A.liveCount + 1 })
  else
    match A.allocFromFreeList needed with
    | some (ptr, A') => some (ptr, { A' with liveCount := A'.liveCount + 1 })
    | none => none

/-- Reclaim a dead node: rewind the frontier if the node ends there, else record a hole. -/
def collectHole (A : ByteArena) (holes : List Hole) (node nodeSize : ℕ) : ByteArena × List Hole :=
  let actualSize := max nodeSize minAllocSize
  if node + actualSize = A.base + A.bump then
    ({ A with bump := node - A.base, liveCount := A.liveCount - 1 }, holes)
  else
    ({ A with liveCount := A.liveCount - 1 }, holes ++ [⟨node - A.base, actualSize⟩])

/-! ### Bytes and entries -/

/-- The bytes hold the free list `free` of the arena `A`, and the two agree on all else that the
operations read. -/
structure Represents (B : ByteArena) (A : GcArena) (free : List ℕ) : Prop where
  /-- The base is the same. -/
  base : B.base = A.base
  /-- So is the capacity. -/
  capacity : B.capacity = A.capacity
  /-- So is the frontier. -/
  bump : B.bump = A.bump
  /-- So is the head of the free list. -/
  freeHead : B.freeHead = A.freeHead
  /-- So is the number of blocks. -/
  liveCount : B.liveCount = A.liveCount
  /-- The two words at each entry are what the entry says. -/
  entries : ∀ a ∈ free, B.view.mem a = A.mem a

/-- Addresses at which there is room for entries: none is null, and no two overlap. -/
structure Spaced (free : List ℕ) : Prop where
  /-- The addresses are pointers. -/
  isPtr : ∀ a ∈ free, 0 < a ∧ a < 2 ^ 64
  /-- No two entries overlap. -/
  apart : ∀ a ∈ free, ∀ c ∈ free, c ≠ a → c + minAllocSize ≤ a ∨ a + minAllocSize ≤ c

variable {A : GcArena} {B B' : ByteArena} {blocks : List Block} {free rest : List ℕ}
  {holes : List Hole}

/-- The next entry of the list is an address, if there is one. -/
theorem Spaced.isPtr_next {cur : Option ℕ} {mem : ℕ → FreeEntry} (hspaced : Spaced free)
    (hchain : FreeChain mem cur rest) (hrest : rest ⊆ free) : IsPtr cur := by
  intro ptr hptr
  cases rest with
  | nil => cases hchain.symm.trans hptr
  | cons a rest =>
    obtain rfl := Option.some.inj (hchain.1.symm.trans hptr)
    exact hspaced.isPtr a (hrest List.mem_cons_self)

theorem view_mem (a : ℕ) :
    B.view.mem a = ⟨readFreeSize B.bytes a, readFreeNext B.bytes a⟩ := rfl

/-- Outside of the entry, no byte is written. -/
theorem writeFreeNext_of_outside {m : Memory} {entry a : ℕ} {next : Option ℕ}
    (h : a < entry ∨ entry + minAllocSize ≤ a) : writeFreeNext m entry next a = m a := by
  rw [minAllocSize] at h
  rw [writeFreeNext, wordSize, write_of_outside (by omega)]

namespace Represents

theorem size_eq {a : ℕ} (hrep : B.Represents A free) (ha : a ∈ free) :
    readFreeSize B.bytes a = (A.mem a).size := by
  rw [← hrep.entries a ha, view_mem]

theorem next_eq {a : ℕ} (hrep : B.Represents A free) (ha : a ∈ free) :
    readFreeNext B.bytes a = (A.mem a).next := by
  rw [← hrep.entries a ha, view_mem]

theorem subset {free' : List ℕ} (hrep : B.Represents A free) (hsub : free' ⊆ free) :
    B.Represents A free' :=
  ⟨hrep.base, hrep.capacity, hrep.bump, hrep.freeHead, hrep.liveCount,
    fun a ha => hrep.entries a (hsub ha)⟩

/-- The invariant of the entries is one of the bytes. -/
theorem inv (hrep : B.Represents A free) (hinv : A.Inv blocks free holes) :
    B.view.Inv blocks free holes := by
  have hview : B.view = { A with mem := B.view.mem } := by
    obtain ⟨hbase, hcapacity, hbump, hhead, hlive, -⟩ := hrep
    simp only [ByteArena.view, GcArena.mk.injEq]
    exact ⟨hbase, hcapacity, hbump, hhead, hlive, trivial⟩
  rw [hview]
  exact hinv.frame hrep.entries

theorem spaced (hrep : B.Represents A free) (hinv : A.Inv blocks free holes) : Spaced free where
  isPtr a ha := by
    have hbase := hinv.free_base a ha
    have hin := hinv.inside _ (GcArena.mem_spans.mpr (.inr (.inl ⟨a, ha, rfl⟩)))
    have hsize := hinv.min_size _ (GcArena.mem_spans.mpr (.inr (.inl ⟨a, ha, rfl⟩)))
    have hbump := hinv.bump_le
    have hpos := B.nonNull
    have hspace := B.inSpace
    rw [hrep.base] at hpos hspace
    rw [hrep.capacity] at hspace
    simp only [GcArena.freeSpan, Span.stop, minAllocSize] at hin hsize
    omega
  apart := by
    have hlt : free.Pairwise fun a c => a + minAllocSize ≤ c := by
      have hinc := hinv.increasing
      rw [Increasing, List.pairwise_map] at hinc
      refine hinc.imp_of_mem fun {a c} ha hc hac => ?_
      have hsize := hinv.min_size _ (GcArena.mem_spans.mpr (.inr (.inl ⟨a, ha, rfl⟩)))
      have ha := hinv.free_base a ha
      have hc := hinv.free_base c hc
      simp only [GcArena.freeSpan, Span.stop] at hac hsize
      omega
    intro a ha c hc hne
    have hboth : free.Pairwise fun a c => c + minAllocSize ≤ a ∨ a + minAllocSize ≤ c :=
      hlt.imp .inr
    have : Std.Symm fun a c : ℕ => c + minAllocSize ≤ a ∨ a + minAllocSize ≤ c :=
      ⟨fun _ _ => Or.symm⟩
    exact hboth.forall ha hc hne.symm

/-! ### Unlinking -/

/-- Writing the next word of one entry leaves the others as they are. -/
theorem writeFreeNext {p : ℕ} {next : Option ℕ} (hrep : B.Represents A free)
    (hspaced : Spaced free) (hp : p ∈ free) (hnext : IsPtr next) :
    Represents { B with bytes := writeFreeNext B.bytes p next } (A.writeFreeNext p next) free := by
  refine ⟨hrep.base, hrep.capacity, hrep.bump, hrep.freeHead, hrep.liveCount, fun a ha => ?_⟩
  by_cases hap : a = p
  · subst hap
    simp only [GcArena.writeFreeNext, Function.update_self]
    show entryAt _ a = _
    rw [entryAt, readFreeNext_writeFreeNext hnext, readFreeSize_writeFreeNext,
      hrep.size_eq hp]
  · have happart := hspaced.apart a ha p hp (Ne.symm hap)
    simp only [GcArena.writeFreeNext, Function.update_of_ne hap]
    rw [← hrep.entries a ha]
    exact entryAt_congr fun i hi hi' => writeFreeNext_of_outside (by omega)

/-! ### The operations agree -/

/-- Two answers to an allocation agree: they are the same block, the bytes hold what is left of the
free list, and outside of its entries nothing has been written. -/
structure Answers (B : ByteArena) (free : List ℕ) (found : ℕ × ByteArena) (found' : ℕ × GcArena) :
    Prop where
  /-- The address is the same. -/
  ptr : found.1 = found'.1
  /-- What is left agrees. -/
  represents : found.2.Represents found'.2 free
  /-- Outside of the entries nothing has been written. -/
  bytes : ∀ a, (∀ p ∈ free, a < p ∨ p + minAllocSize ≤ a) → found.2.bytes a = B.bytes a

/-- **The first-fit walk.** It reads entries of the free list only, and writes one of them at
most. -/
theorem findFit (needed fuel : ℕ) (prev : Option ℕ) {curr : Option ℕ}
    (hrep : B.Represents A free) (hspaced : Spaced free) (hprev : ∀ p, prev = some p → p ∈ free)
    (hcurr : FreeChain A.mem curr rest) (hrest : rest ⊆ free) :
    Option.Rel (Answers B free) (ByteArena.findFit needed fuel B prev curr)
      (GcArena.findFit needed fuel A prev curr) := by
  induction fuel generalizing prev curr rest with
  | zero => exact .none
  | succ fuel ih =>
    cases rest with
    | nil =>
      obtain rfl : curr = none := hcurr
      exact .none
    | cons entry rest =>
      obtain ⟨rfl, htail⟩ := hcurr
      have hentry : entry ∈ free := hrest List.mem_cons_self
      have hsubset : rest ⊆ free := fun a ha => hrest (List.mem_cons_of_mem _ ha)
      rw [ByteArena.findFit, GcArena.findFit, hrep.size_eq hentry, hrep.next_eq hentry]
      by_cases hfit : needed ≤ (A.mem entry).size
      · rw [if_pos hfit, if_pos hfit]
        cases prev with
        | none =>
          have hrep' : Represents { B with freeHead := (A.mem entry).next }
              { A with freeHead := (A.mem entry).next } free :=
            ⟨hrep.base, hrep.capacity, hrep.bump, rfl, hrep.liveCount, hrep.entries⟩
          exact .some ⟨rfl, hrep', fun _ _ => rfl⟩
        | some p =>
          have hp : p ∈ free := hprev p rfl
          exact .some ⟨rfl, hrep.writeFreeNext hspaced hp (hspaced.isPtr_next htail hsubset),
            fun a ha => writeFreeNext_of_outside (ha p hp)⟩
      · rw [if_neg hfit, if_neg hfit]
        refine ih (some entry) (fun p hp => ?_) htail hsubset
        exact Option.some.inj hp ▸ hentry

/-- **Allocation.** Both find no room, or both answer with the same block. -/
theorem alloc (layout : Layout) (hrep : B.Represents A free) (hinv : A.Inv blocks free holes) :
    Option.Rel (Answers B free) (B.alloc layout) (A.alloc layout) := by
  have hfind := hrep.findFit (max layout.size minAllocSize) (A.capacity + 1) none
    (hrep.spaced hinv) (by simp) hinv.chain (List.Subset.refl _)
  unfold ByteArena.alloc GcArena.alloc ByteArena.allocFromFreeList GcArena.allocFromFreeList
  dsimp only
  by_cases hroom : alignUp A.bump layout.align + max layout.size minAllocSize ≤ A.capacity
  · rw [if_pos hroom, if_pos (by rwa [hrep.bump, hrep.capacity])]
    refine .some ⟨?_, ⟨hrep.base, hrep.capacity, ?_, hrep.freeHead, ?_, hrep.entries⟩,
      fun _ _ => rfl⟩
    · show B.base + alignUp B.bump _ = A.base + alignUp A.bump _
      rw [hrep.base, hrep.bump]
    · show alignUp B.bump _ + _ = alignUp A.bump _ + _
      rw [hrep.bump]
    · exact congrArg (· + 1) hrep.liveCount
  · rw [if_neg hroom, if_neg (by rwa [hrep.bump, hrep.capacity]), hrep.capacity, hrep.freeHead]
    revert hfind
    generalize ByteArena.findFit _ _ B _ _ = found
    generalize GcArena.findFit _ _ A _ _ = found'
    rintro (⟨hptr, hrep', hbytes⟩ | _)
    · exact .some ⟨hptr, ⟨hrep'.base, hrep'.capacity, hrep'.bump, hrep'.freeHead,
        congrArg (· + 1) hrep'.liveCount, hrep'.entries⟩, hbytes⟩
    · exact .none

theorem collectHole (holes : List Hole) (node nodeSize : ℕ) (hrep : B.Represents A free) :
    (B.collectHole holes node nodeSize).1.Represents (A.collectHole holes node nodeSize).1 free ∧
      (B.collectHole holes node nodeSize).2 = (A.collectHole holes node nodeSize).2 := by
  have hlive : B.liveCount - 1 = A.liveCount - 1 := congrArg (· - 1) hrep.liveCount
  unfold ByteArena.collectHole GcArena.collectHole
  dsimp only
  by_cases hfront : node + max nodeSize minAllocSize = A.base + A.bump
  · rw [if_pos hfront, if_pos (by rwa [hrep.base, hrep.bump])]
    exact ⟨⟨hrep.base, hrep.capacity, congrArg (node - ·) hrep.base, hrep.freeHead, hlive,
      hrep.entries⟩, rfl⟩
  · rw [if_neg hfront, if_neg (by rwa [hrep.base, hrep.bump])]
    refine ⟨⟨hrep.base, hrep.capacity, hrep.bump, hrep.freeHead, hlive, hrep.entries⟩, ?_⟩
    show holes ++ [⟨node - B.base, _⟩] = holes ++ [⟨node - A.base, _⟩]
    rw [hrep.base]

/-- **The end of a sweep.** The bytes hold the new free list. -/
theorem finishSweep (hrep : B.Represents A free) (hinv : A.Inv blocks free holes) :
    (∀ free', (A.finishSweep holes).1.Inv blocks free' (A.finishSweep holes).2 →
      (B.finishSweep holes).1.Represents (A.finishSweep holes).1 free') ∧
    (B.finishSweep holes).2 = (A.finishSweep holes).2 := by
  by_cases hdead : A.liveCount = 0
  · rw [GcArena.finishSweep_of_dead hdead, ByteArena.finishSweep,
      if_pos (hrep.liveCount.trans hdead)]
    refine ⟨fun free' hinv' => ?_, rfl⟩
    obtain rfl : free' = [] := hinv'.chain.unique (show FreeChain _ none [] from rfl)
    exact ⟨hrep.base, hrep.capacity, rfl, rfl, hrep.liveCount, List.forall_mem_nil _⟩
  · have hlive : B.liveCount ≠ 0 := by rwa [hrep.liveCount]
    have hcoll : B.Collected holes := collected_of_inv (hrep.inv hinv)
    have hthreads := threads_finishSweep hlive hcoll
    obtain ⟨hchain, hsize, hA⟩ := GcArena.foldr_pushFree (A := A)
      (GcArena.nodup_offset hcoll.fit.increasing hcoll.fit.min_size)
    rw [GcArena.finishSweep_of_live hdead]
    refine ⟨fun free' hinv' => ?_, by rw [finishSweep_eq hlive]⟩
    obtain rfl := hinv'.chain.unique hchain
    have hbytes : FreeChain (B.finishSweep holes).1.view.mem (B.finishSweep holes).1.freeHead
        ((merged holes).map fun hole => A.base + hole.offset) := by
      rw [← hrep.base]
      exact hthreads.chain
    dsimp only at hchain ⊢
    generalize (merged holes).foldr (fun hole A' => A'.pushFree hole) { A with freeHead := none }
      = A' at *
    refine ⟨?_, ?_, ?_, hbytes.head_eq.trans hchain.head_eq.symm, ?_, fun a ha => ?_⟩
    · rw [hthreads.base, hrep.base, hA]
    · rw [hthreads.capacity, hrep.capacity, hA]
    · rw [hthreads.bump, hrep.bump, hA]
    · rw [hthreads.liveCount, hrep.liveCount, hA]
    · refine FreeEntry.ext ?_ (hbytes.next_eq hchain a ha)
      obtain ⟨hole, hhole, rfl⟩ := List.mem_map.mp ha
      have hspan := hthreads.size hole hhole
      rw [freeSpan_eq, hrep.base] at hspan
      exact (congrArg Span.size hspan).trans (hsize hole hhole).symm

end Represents

end ByteArena

/-! ## Runs -/

/-- An arena on its bytes, together with what its users hold. -/
structure ByteArenaState where
  /-- The arena. -/
  arena : ByteArena
  /-- The blocks in use. -/
  blocks : List Block
  /-- What the next `finishSweep` is given. -/
  holes : List Hole

/-- One use of an arena, or a store of one byte. -/
inductive ByteArenaAction
  /-- Ask for a block. -/
  | alloc (layout : Layout)
  /-- Give a block back. -/
  | collect (b : Block)
  /-- End a sweep. -/
  | finish
  /-- Store a byte. -/
  | store (a : ℕ) (v : UInt8)

/-- The address lies in the block, of the size that was asked for. -/
def Block.Contains (b : Block) (a : ℕ) : Prop := b.ptr ≤ a ∧ a < b.ptr + b.size

instance (b : Block) (a : ℕ) : Decidable (b.Contains a) := inferInstanceAs (Decidable (_ ∧ _))

/-- The address does not lie in the arena. -/
def ByteArena.Outside (A : ByteArena) (a : ℕ) : Prop := a < A.base ∨ A.base + A.capacity ≤ a

instance (A : ByteArena) (a : ℕ) : Decidable (A.Outside a) := inferInstanceAs (Decidable (_ ∨ _))

/-- The address is not the arena's to write, and stays so while the actions `as` are taken: it does
not lie in the arena, or it lies in an outstanding block that none of them collects. -/
def ByteArenaState.Held (s : ByteArenaState) (as : List ByteArenaAction) (a : ℕ) : Prop :=
  s.arena.Outside a ∨ ∃ b ∈ s.blocks, b.Contains a ∧ .collect b ∉ as

/-- What each use does. Bytes are stored in outstanding blocks and outside of the arena. -/
inductive ByteArenaStep : ByteArenaState → ByteArenaAction → ByteArenaState → Prop
  /-- There was room. -/
  | alloc {s : ByteArenaState} {layout : Layout} {ptr : ℕ} {A' : ByteArena}
      (h : s.arena.alloc layout = some (ptr, A')) :
      ByteArenaStep s (.alloc layout) ⟨A', ⟨ptr, layout.size⟩ :: s.blocks, s.holes⟩
  /-- There was none. -/
  | full {s : ByteArenaState} {layout : Layout} (h : s.arena.alloc layout = none) :
      ByteArenaStep s (.alloc layout) s
  /-- The block is rewound or becomes a hole. -/
  | collect {s : ByteArenaState} {b : Block} (hb : b ∈ s.blocks) :
      ByteArenaStep s (.collect b) ⟨(s.arena.collectHole s.holes b.ptr b.size).1,
        s.blocks.erase b, (s.arena.collectHole s.holes b.ptr b.size).2⟩
  /-- The holes become free entries. -/
  | finish {s : ByteArenaState} :
      ByteArenaStep s .finish
        ⟨(s.arena.finishSweep s.holes).1, s.blocks, (s.arena.finishSweep s.holes).2⟩
  /-- The address is in a block, or outside of the arena. -/
  | store {s : ByteArenaState} {a : ℕ} {v : UInt8} (h : s.Held [] a) :
      ByteArenaStep s (.store a v)
        ⟨{ s.arena with bytes := Function.update s.arena.bytes a v }, s.blocks, s.holes⟩

namespace ByteArenaAction

/-- The calls of the allocator. Stores are none. -/
def calls : ByteArenaAction → List ArenaAction
  | .alloc layout => [.alloc layout]
  | .collect b => [.collect b]
  | .finish => [.finish]
  | .store _ _ => []

/-- What is stored at an address. -/
def storedAt (a : ℕ) : ByteArenaAction → Option UInt8
  | .store c v => if c = a then some v else none
  | _ => none

end ByteArenaAction

/-- The arena of entries from which the same blocks have been taken. -/
structure ByteArenaState.Simulates (s : ByteArenaState) (u : ArenaState) (free : List ℕ) :
    Prop where
  /-- The blocks in use are the same. -/
  blocks : u.blocks = s.blocks
  /-- So are the holes. -/
  holes : u.holes = s.holes
  /-- The arena of entries is in order. -/
  inv : u.arena.Inv u.blocks free u.holes
  /-- The bytes hold its free list. -/
  represents : s.arena.Represents u.arena free

namespace ByteArenaState

variable {s t : ByteArenaState} {u : ArenaState} {free : List ℕ} {act : ByteArenaAction}
  {as : List ByteArenaAction} {a : ℕ}

theorem Held.tail (h : s.Held (act :: as) a) : s.Held as a :=
  h.imp_right fun ⟨b, hb, hin, hmem⟩ => ⟨b, hb, hin, fun hb' => hmem (List.mem_cons_of_mem _ hb')⟩

theorem Held.now (h : s.Held as a) : s.Held [] a :=
  h.imp_right fun ⟨b, hb, hin, _⟩ => ⟨b, hb, hin, List.not_mem_nil⟩

namespace Simulates

theorem view_inv (h : s.Simulates u free) : s.arena.view.Inv s.blocks free s.holes := by
  have hinv := h.represents.inv h.inv
  rwa [h.blocks, h.holes] at hinv

/-- No entry of the free list has a byte in a block, or outside of the arena. -/
theorem not_entry (h : s.Simulates u free) (ha : s.Held [] a) :
    ∀ p ∈ free, a < p ∨ p + minAllocSize ≤ a := by
  intro p hp
  have hinv := h.view_inv
  have hmem : s.arena.view.freeSpan p ∈ s.arena.view.spans s.blocks free s.holes :=
    GcArena.mem_spans.mpr (.inr (.inl ⟨p, hp, rfl⟩))
  have hview : s.arena.view.base = s.arena.base := rfl
  have hbase : s.arena.base ≤ p := hinv.free_base p hp
  have hsize := hinv.min_size _ hmem
  rcases ha with hout | ⟨b, hb, hin, -⟩
  · have hstop : _ ≤ s.arena.capacity := (hinv.inside _ hmem).trans hinv.bump_le
    simp only [GcArena.freeSpan, Span.stop, hview] at hsize hstop
    simp only [ByteArena.Outside] at hout
    omega
  · have hptr : s.arena.base ≤ b.ptr := hinv.block_base b hb
    have hdisj := (apart_append.mp hinv.apart).2.2 _ (List.mem_map_of_mem hb) _
      (List.mem_append_left _ (List.mem_map_of_mem hp))
    simp only [Span.Disjoint, Span.stop, Block.span, GcArena.freeSpan, hview] at hdisj hsize
    simp only [Block.Contains] at hin
    omega

/-- Neither has a hole. -/
theorem not_hole (h : s.Simulates u free) (ha : s.Held [] a) :
    ¬ Covers (s.holes.map (Span.shift s.arena.base)) a := by
  intro hcovers
  obtain ⟨hbase, hole, hhole, hcontains⟩ := covers_map_shift.mp hcovers
  have hinv := h.view_inv
  rcases ha with hout | ⟨b, hb, hin, -⟩
  · have hstop : hole.stop ≤ s.arena.capacity :=
      (hinv.inside _ (GcArena.mem_spans.mpr (.inr (.inr hhole)))).trans hinv.bump_le
    simp only [Span.Contains] at hcontains
    simp only [ByteArena.Outside] at hout
    omega
  · have hview : s.arena.view.base = s.arena.base := rfl
    have hptr : s.arena.base ≤ b.ptr := hinv.block_base b hb
    have hdisj := (apart_append.mp hinv.apart).2.2 _ (List.mem_map_of_mem hb) hole
      (List.mem_append_right _ hhole)
    simp only [Span.Disjoint, Span.Contains, Span.stop, Block.span, hview] at hdisj hcontains
    simp only [Block.Contains] at hin
    omega

/-- A block taken on the bytes is one taken on the entries, and nothing held is written. -/
theorem alloc_some {layout : Layout} {ptr : ℕ} {A' : ByteArena} (h : s.Simulates u free)
    (hbytes : s.arena.alloc layout = some (ptr, A')) :
    ∃ arena', u.arena.alloc layout = some (ptr, arena') ∧ A'.Represents arena' free ∧
      ∀ a, s.Held [] a → A'.bytes a = s.arena.bytes a := by
  have hrel := h.represents.alloc layout h.inv
  rw [hbytes] at hrel
  cases halloc : u.arena.alloc layout with
  | none => exact absurd (halloc ▸ hrel) Option.not_rel_some_none
  | some found =>
    obtain ⟨hptr, hrep, hkeep⟩ := Option.rel_some_some.mp (halloc ▸ hrel)
    exact ⟨found.2, congrArg (fun p => some (p, found.2)) hptr.symm, hrep,
      fun a ha => hkeep a (h.not_entry ha)⟩

theorem alloc_none {layout : Layout} (h : s.Simulates u free)
    (hbytes : s.arena.alloc layout = none) : u.arena.alloc layout = none := by
  have hrel := h.represents.alloc layout h.inv
  rw [hbytes] at hrel
  cases halloc : u.arena.alloc layout with
  | none => rfl
  | some found => exact absurd (halloc ▸ hrel) Option.not_rel_none_some

/-- **One use.** The calls of the allocator are followed, the stores leave the free list alone. -/
theorem step (h : s.Simulates u free) (hst : ByteArenaStep s act t) :
    ∃ u', Run ArenaStep u act.calls u' ∧ ∃ free', t.Simulates u' free' := by
  cases hst with
  | alloc hbytes =>
    obtain ⟨arena', halloc, hrep, -⟩ := h.alloc_some hbytes
    obtain ⟨free', hsub, hinv, -⟩ := h.inv.alloc_cases halloc
    refine ⟨_, .cons (.alloc halloc) (.nil _), free', ?_, h.holes, hinv, hrep.subset hsub.subset⟩
    exact congrArg _ h.blocks
  | full hbytes => exact ⟨u, .cons (.full (h.alloc_none hbytes)) (.nil _), free, h⟩
  | @collect b hb =>
    have hmem : b ∈ u.blocks := h.blocks ▸ hb
    obtain ⟨hrep, hholes⟩ := h.represents.collectHole u.holes b.ptr b.size
    refine ⟨_, .cons (.collect hmem) (.nil _), free, congrArg (·.erase b) h.blocks, ?_,
      (h.inv.perm (List.perm_cons_erase hmem)).collectHole, ?_⟩
    · rw [← hholes, h.holes]
    · rw [← h.holes]
      exact hrep
  | finish =>
    obtain ⟨hrep, hholes⟩ := h.represents.finishSweep h.inv
    obtain ⟨free', hinv⟩ := h.inv.finishSweep
    refine ⟨_, .cons .finish (.nil _), free', h.blocks, ?_, hinv, ?_⟩
    · rw [← hholes, h.holes]
    · rw [← h.holes]
      exact hrep free' hinv
  | @store a v ha =>
    have hrep := h.represents
    refine ⟨u, .nil _, free, h.blocks, h.holes, h.inv, hrep.base, hrep.capacity, hrep.bump,
      hrep.freeHead, hrep.liveCount, fun p hp => ?_⟩
    rw [← hrep.entries p hp]
    refine entryAt_congr fun i hi hi' => Function.update_of_ne ?_ _ _
    have := h.not_entry ha p hp
    omega

/-- The bytes stay where they are. -/
theorem region_step (h : s.Simulates u free) (hst : ByteArenaStep s act t) :
    t.arena.base = s.arena.base ∧ t.arena.capacity = s.arena.capacity := by
  have hrep := h.represents
  cases hst with
  | alloc hbytes =>
    obtain ⟨arena', halloc, hrep', -⟩ := h.alloc_some hbytes
    obtain ⟨hbase, hcapacity⟩ := GcArena.alloc_region halloc
    rw [hrep'.base, hrep'.capacity, hrep.base, hrep.capacity]
    exact ⟨hbase, hcapacity⟩
  | full => exact ⟨rfl, rfl⟩
  | @collect b hb =>
    unfold ByteArena.collectHole
    dsimp only
    split <;> exact ⟨rfl, rfl⟩
  | finish =>
    by_cases hlive : s.arena.liveCount = 0
    · rw [ByteArena.finishSweep, if_pos hlive]
      exact ⟨rfl, rfl⟩
    · have hthreads := ByteArena.threads_finishSweep hlive (ByteArena.collected_of_inv h.view_inv)
      exact ⟨hthreads.base, hthreads.capacity⟩
  | store => exact ⟨rfl, rfl⟩

/-- **One byte.** What is held keeps its byte, unless one is stored there. -/
theorem bytes_step (h : s.Simulates u free) (hst : ByteArenaStep s act t) (ha : s.Held [] a) :
    t.arena.bytes a = (act.storedAt a).getD (s.arena.bytes a) := by
  cases hst with
  | alloc hbytes =>
    obtain ⟨-, -, -, hkeep⟩ := h.alloc_some hbytes
    exact hkeep a ha
  | full => rfl
  | @collect b hb =>
    show (s.arena.collectHole s.holes b.ptr b.size).1.bytes a = s.arena.bytes a
    unfold ByteArena.collectHole
    dsimp only
    split <;> rfl
  | finish =>
    exact ByteArena.finishSweep_bytes (ByteArena.collected_of_inv h.view_inv) (h.not_hole ha)
  | @store c v hc =>
    rw [ByteArenaAction.storedAt]
    by_cases hca : c = a
    · rw [if_pos hca, hca]
      exact Function.update_self ..
    · rw [if_neg hca]
      exact Function.update_of_ne (Ne.symm hca) ..

/-- What is held stays so. -/
theorem held_step (h : s.Simulates u free) (hst : ByteArenaStep s act t)
    (ha : s.Held (act :: as) a) : t.Held as a := by
  rcases ha with hout | ⟨b, hb, hin, hmem⟩
  · obtain ⟨hbase, hcapacity⟩ := h.region_step hst
    rw [ByteArena.Outside, ← hbase, ← hcapacity] at hout
    exact .inl hout
  · rw [List.mem_cons, not_or] at hmem
    refine .inr ⟨b, ?_, hin, hmem.2⟩
    cases hst with
    | alloc => exact List.mem_cons_of_mem _ hb
    | full | finish | store => exact hb
    | collect =>
      refine (List.mem_erase_of_ne ?_).mpr hb
      rintro rfl
      exact hmem.1 rfl

/-- **The last store.** -/
theorem bytes_run (h : s.Simulates u free) (hr : Run ByteArenaStep s as t) (ha : s.Held as a) :
    t.arena.bytes a = ((as.filterMap (·.storedAt a)).getLast?).getD (s.arena.bytes a) := by
  induction hr generalizing u free with
  | nil s => rfl
  | @cons s₁ s₂ t act as hst hrun ih =>
    obtain ⟨u', -, free', h'⟩ := h.step hst
    rw [ih h' (h.held_step hst ha), h.bytes_step hst ha.now, List.filterMap_cons]
    cases act.storedAt a with
    | none => rfl
    | some v => rw [List.getLast?_cons]; rfl

/-- **Runs.** -/
theorem run (h : s.Simulates u free) (hr : Run ByteArenaStep s as t) :
    ∃ u', Run ArenaStep u (as.flatMap ByteArenaAction.calls) u' ∧ ∃ free', t.Simulates u' free' :=
  hr.simulate (R := fun s u => ∃ free, Simulates s u free) _
    (fun _ _ _ _ ⟨_, h⟩ hst => h.step hst) ⟨free, h⟩

/-- Asked for a block, both arenas give the same one, or none. -/
theorem alloc_eq (h : s.Simulates u free) (layout : Layout) :
    (s.arena.alloc layout).map Prod.fst = (u.arena.alloc layout).map Prod.fst := by
  cases hbytes : s.arena.alloc layout with
  | none => rw [h.alloc_none hbytes]; rfl
  | some found =>
    obtain ⟨arena', halloc, -⟩ := h.alloc_some hbytes
    rw [halloc]
    rfl

/-- A new arena has no entries. -/
theorem start {capacity : ℕ} {sys : Option (SysPtr capacity)} {bytes : Memory} {B : ByteArena}
    (hnew : ByteArena.new capacity sys bytes = some B) :
    ∃ A, GcArena.new capacity (sys.map (·.val)) = some A ∧
      (ByteArenaState.mk B [] []).Simulates ⟨A, [], []⟩ [] := by
  simp only [ByteArena.new, Option.bind_eq_bind, Option.bind_eq_some_iff, Option.pure_def,
    Option.some.injEq] at hnew
  obtain ⟨layout, hlayout, ptr, rfl, rfl⟩ := hnew
  have hA : GcArena.new capacity (some ptr.val) =
      some ⟨ptr.val, capacity, 0, none, 0, fun _ => default⟩ := by
    rw [GcArena.new, hlayout]
    rfl
  exact ⟨_, hA, rfl, rfl, GcArena.inv_new hA, rfl, rfl, rfl, rfl, rfl, List.forall_mem_nil _⟩

end Simulates

end ByteArenaState

/-- **The arena on bytes refines the arena on entries.** From a new arena on memory of any contents,
whatever is allocated, collected and stored in whatever order: the same calls of the allocator,
without the stores, lead an arena that keeps its entries apart to the same blocks and holes. The
free list among the bytes is the one of that arena, it answers the next request as that arena
does, and it is threaded through memory that no outstanding block overlaps. -/
theorem byte_arena_refines {capacity : ℕ} {sys : Option (SysPtr capacity)} {bytes : Memory}
    {B : ByteArena} {as : List ByteArenaAction} {s : ByteArenaState}
    (hnew : ByteArena.new capacity sys bytes = some B)
    (hr : Run ByteArenaStep ⟨B, [], []⟩ as s) :
    ∃ A u, GcArena.new capacity (sys.map (·.val)) = some A ∧
      Run ArenaStep ⟨A, [], []⟩ (as.flatMap ByteArenaAction.calls) u ∧
      u.blocks = s.blocks ∧ u.holes = s.holes ∧
      (∃ free, FreeChain s.arena.view.mem s.arena.freeHead free ∧
        FreeChain u.arena.mem u.arena.freeHead free ∧ s.arena.Represents u.arena free) ∧
      (∀ layout, (s.arena.alloc layout).map Prod.fst = (u.arena.alloc layout).map Prod.fst) ∧
      (ArenaState.mk s.arena.view s.blocks s.holes).Safe := by
  obtain ⟨A, hA, hstart⟩ := ByteArenaState.Simulates.start hnew
  obtain ⟨u, hrun, free, h⟩ := hstart.run hr
  have hinv := h.view_inv
  exact ⟨A, u, hA, hrun, h.blocks, h.holes, ⟨free, hinv.chain, h.inv.chain, h.represents⟩,
    h.alloc_eq, GcArena.Inv.safe (s := ⟨_, _, _⟩) hinv⟩

/-- Two blocks are taken from a new arena of 64 bytes. -/
private theorem run_two_blocks : ∃ B s,
    ByteArena.new 64 (some ⟨4096, by decide⟩) (fun _ => 170) = some B ∧
      Run ByteArenaStep ⟨B, [], []⟩
        [.alloc ⟨8, 8, ⟨3, rfl⟩, by decide⟩, .alloc ⟨8, 8, ⟨3, rfl⟩, by decide⟩] s ∧
      s.blocks = [⟨4112, 8⟩, ⟨4096, 8⟩] :=
  ⟨_, _, rfl, .cons (.alloc rfl) (.cons (.alloc rfl) (.nil _)), rfl⟩

/-- The first of two blocks is collected after its owner wrote to it, and its address reads as a
free entry. -/
theorem byte_arena_refines_two_blocks : ∃ s : ByteArenaState, ∃ u : ArenaState,
    s.blocks = [⟨4112, 8⟩] ∧ u.blocks = s.blocks ∧
      ∃ free, FreeChain s.arena.view.mem s.arena.freeHead free ∧
        FreeChain u.arena.mem u.arena.freeHead free := by
  obtain ⟨B, s, hnew, hr, hblocks⟩ := run_two_blocks
  have hb : (⟨4096, 8⟩ : Block) ∈ s.blocks := by simp [hblocks]
  have hheld : s.Held [] 4096 := .inr ⟨_, hb, by decide, List.not_mem_nil⟩
  have hrun := run_append.mpr
    ⟨s, hr, .cons (.store (v := 7) hheld) (.cons (.collect hb) (.cons .finish (.nil _)))⟩
  obtain ⟨-, u, -, -, hu, -, ⟨free, hchain, hchain', -⟩, -⟩ := byte_arena_refines hnew hrun
  exact ⟨_, u, congrArg (List.erase · ⟨4096, 8⟩) hblocks, hu, free, hchain, hchain'⟩

/-- **An owner reads what it stored last.** Of an address outside of the arena, or in a block that
is not collected meanwhile, a run leaves the byte that was stored there last, or the one that was
there before: no call of the allocator writes to it. -/
theorem byte_arena_last_store {capacity : ℕ} {sys : Option (SysPtr capacity)} {bytes : Memory}
    {B : ByteArena} {as : List ByteArenaAction} {s t : ByteArenaState} {a : ℕ}
    (hnew : ByteArena.new capacity sys bytes = some B)
    (hs : Reaches ByteArenaStep ⟨B, [], []⟩ s) (hr : Run ByteArenaStep s as t)
    (ha : s.Held as a) :
    t.arena.bytes a = ((as.filterMap (·.storedAt a)).getLast?).getD (s.arena.bytes a) := by
  obtain ⟨pre, hpre⟩ := hs
  obtain ⟨A, -, hstart⟩ := ByteArenaState.Simulates.start hnew
  obtain ⟨u, -, free, h⟩ := hstart.run hpre
  exact h.bytes_run hr ha

/-- What the owner of one block stored is still there when the other block has been collected. -/
theorem byte_arena_last_store_kept : ∃ t : ByteArenaState,
    t.blocks = [⟨4112, 8⟩] ∧ t.arena.bytes 4112 = 9 := by
  obtain ⟨B, s, hnew, hr, hblocks⟩ := run_two_blocks
  have hb : (⟨4096, 8⟩ : Block) ∈ s.blocks := by simp [hblocks]
  have hc : (⟨4112, 8⟩ : Block) ∈ s.blocks := by simp [hblocks]
  have hrun : Run ByteArenaStep s [.store 4112 9, .collect ⟨4096, 8⟩, .finish] _ :=
    .cons (.store (.inr ⟨_, hc, by decide, List.not_mem_nil⟩))
      (.cons (.collect hb) (.cons .finish (.nil _)))
  refine ⟨_, ?_, byte_arena_last_store hnew ⟨_, hr⟩ hrun (.inr ⟨_, hc, by decide, by simp⟩)⟩
  exact congrArg (List.erase · ⟨4096, 8⟩) hblocks

end GcLite
