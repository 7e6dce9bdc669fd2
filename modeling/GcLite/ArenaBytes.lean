import GcLite.ArenaInvariant
import GcLite.Library.Bytes

/-!
# The free list, byte by byte

`GcArena` reads a free entry at every address, and writing one entry leaves all others as they are.
In memory an entry is two words, and two entries less than two words apart overlap. Here the end of
a sweep is carried out on bytes.

Entries go into holes, so what keeps them apart is that no hole is smaller than an entry.
`collect_hole` rounds sizes up for that reason. With smaller holes, even if no two of them overlap,
the `next` of one entry is written over the size of another; see `finishSweep_clobbers`.

## Main definitions

* `readFreeSize`, `readFreeNext`, `writeFreeSize`, `writeFreeNext` — the two words of an entry
* `ByteArena`, `ByteArena.finishSweep`
* `ByteArena.view` — the arena that reads its entries from these bytes
* `ByteArena.Threads` — the free list is threaded through a list of holes

## Main results

* `Threads.pushFree` — one more entry in front
* `finishSweep_refines` — the free list is that of `GcArena.finishSweep`
* `finishSweep_bytes` — nothing outside of the holes is written
* `finishSweep_exact`, `finishSweep_clobbers`
-/

namespace GcLite

open Spans Bytes

/-! ### Free entries -/

/-- The size of a word in bytes. -/
def wordSize : ℕ := 8

theorem lt_pow_wordSize {v : ℕ} (hv : v < 2 ^ 64) : v < 256 ^ wordSize := by
  rw [wordSize]
  omega

/-- The first word of an entry. -/
def readFreeSize (m : Memory) (entry : ℕ) : ℕ := read m entry wordSize

/-- A pointer that may be null: the null pointer is the word 0. -/
def readFreeNext (m : Memory) (entry : ℕ) : Option ℕ :=
  let ptr := read m (entry + wordSize) wordSize
  if ptr = 0 then none else some ptr

/-- Set the first word. -/
def writeFreeSize (m : Memory) (entry size : ℕ) : Memory := write m entry size wordSize

/-- Set the second word; the null pointer ends the list. -/
def writeFreeNext (m : Memory) (entry : ℕ) (next : Option ℕ) : Memory :=
  write m (entry + wordSize) (next.getD 0) wordSize

/-- What is read at an address, if a free entry is taken to be there. -/
def entryAt (m : Memory) (entry : ℕ) : FreeEntry := ⟨readFreeSize m entry, readFreeNext m entry⟩

/-- An address that is not null, or none. -/
def IsPtr (next : Option ℕ) : Prop := ∀ ptr, next = some ptr → 0 < ptr ∧ ptr < 2 ^ 64

section Entry

variable {m : Memory} {entry size a : ℕ} {next : Option ℕ}

theorem readFreeNext_writeFreeNext (hnext : IsPtr next) :
    readFreeNext (writeFreeNext m entry next) entry = next := by
  have hword : next.getD 0 < 256 ^ wordSize := by
    cases next with
    | none => exact lt_pow_wordSize (by decide)
    | some ptr => exact lt_pow_wordSize (hnext ptr rfl).2
  rw [readFreeNext, writeFreeNext, read_write hword]
  cases next with
  | none => rfl
  | some ptr => exact if_neg (hnext ptr rfl).1.ne'

theorem readFreeSize_writeFreeNext :
    readFreeSize (writeFreeNext m entry next) entry = readFreeSize m entry := by
  unfold readFreeSize writeFreeNext
  exact read_write_of_disjoint (.inl (Nat.le_refl _))

/-- An entry that has been written is read back. -/
theorem entryAt_write (hsize : size < 2 ^ 64) (hnext : IsPtr next) :
    entryAt (writeFreeNext (writeFreeSize m entry size) entry next) entry = ⟨size, next⟩ := by
  have hread : readFreeSize (writeFreeSize m entry size) entry = size := by
    unfold readFreeSize writeFreeSize
    exact read_write (lt_pow_wordSize hsize)
  rw [entryAt, readFreeNext_writeFreeNext hnext, readFreeSize_writeFreeNext, hread]

/-- Outside of the two words, no byte is written. -/
theorem write_entry_of_outside (h : a < entry ∨ entry + minAllocSize ≤ a) :
    writeFreeNext (writeFreeSize m entry size) entry next a = m a := by
  rw [minAllocSize] at h
  rw [writeFreeNext, wordSize, write_of_outside (by omega), writeFreeSize, wordSize,
    write_of_outside (by omega)]

/-- An entry is what its two words say. -/
theorem entryAt_congr {m' : Memory} (h : ∀ i, a ≤ i → i < a + minAllocSize → m' i = m i) :
    entryAt m' a = entryAt m a := by
  rw [minAllocSize] at h
  have hsize : readFreeSize m' a = readFreeSize m a := by
    rw [readFreeSize, readFreeSize, wordSize]
    exact read_congr fun i hi hi' => h i hi (by omega)
  have hword : read m' (a + wordSize) wordSize = read m (a + wordSize) wordSize := by
    rw [wordSize]
    exact read_congr fun i hi hi' => h i (by omega) (by omega)
  rw [entryAt, entryAt, hsize, readFreeNext, readFreeNext, hword]

/-- Entries that do not overlap do not affect each other. -/
theorem entryAt_write_of_disjoint (h : a + minAllocSize ≤ entry ∨ entry + minAllocSize ≤ a) :
    entryAt (writeFreeNext (writeFreeSize m entry size) entry next) a = entryAt m a :=
  entryAt_congr fun i hi hi' => write_entry_of_outside (by omega)

end Entry

/-! ### The arena -/

/-- An arena together with the bytes of the memory it lies in. -/
structure ByteArena where
  /-- The address of the first byte. -/
  base : ℕ
  /-- In bytes. -/
  capacity : ℕ
  /-- Current bump frontier offset. -/
  bump : ℕ
  /-- Head of the free list, as an address. -/
  freeHead : Option ℕ
  /-- Number of live nodes in this arena. -/
  liveCount : ℕ
  /-- The bytes at all addresses. -/
  bytes : Memory
  /-- The base is not the null pointer. -/
  nonNull : 0 < base
  /-- The arena does not reach beyond the end of the address space. -/
  inSpace : base + capacity ≤ 2 ^ 64

namespace ByteArena

/-- The arena that reads its entries from these bytes. -/
def view (A : ByteArena) : GcArena where
  base := A.base
  capacity := A.capacity
  bump := A.bump
  freeHead := A.freeHead
  liveCount := A.liveCount
  mem := entryAt A.bytes

/-- Push a hole at the head of the free list. -/
def pushFree (A : ByteArena) (hole : Hole) : ByteArena :=
  let ptr := A.base + hole.offset
  { A with
    bytes := writeFreeNext (writeFreeSize A.bytes ptr hole.size) ptr A.freeHead
    freeHead := some ptr }

/-- End of a sweep: sort, merge adjacent holes and rebuild the free list, or reset the arena when
nothing in it is alive. The hole vector is empty afterwards. -/
def finishSweep (A : ByteArena) (holes : List Hole) : ByteArena × List Hole :=
  if A.liveCount = 0 then ({ A with bump := 0, freeHead := none }, [])
  else
    let sorted := holes.insertionSort (fun s t => s.offset ≤ t.offset)
    ((mergeAdjacent sorted).reverse.foldl pushFree { A with freeHead := none }, [])

/-- The bytes of the free entry at an address. -/
def freeSpan (A : ByteArena) (entry : ℕ) : Span := ⟨entry, readFreeSize A.bytes entry⟩

theorem freeSpan_eq (A : ByteArena) (entry : ℕ) :
    A.freeSpan entry = ⟨entry, (A.view.mem entry).size⟩ := rfl

/-! ### Threading the free list through the holes -/

/-- Holes that an arena may turn into free entries: in address order, each large enough for an
entry, all of them in the arena. -/
structure Fit (A : ByteArena) (holes : List Hole) : Prop where
  /-- In address order. -/
  increasing : Increasing holes
  /-- Each with room for an entry. -/
  min_size : ∀ hole ∈ holes, minAllocSize ≤ hole.size
  /-- All in the arena. -/
  inside : ∀ hole ∈ holes, hole.stop ≤ A.capacity

/-- The free list leads through the holes in order, each entry says how large its hole is, and
otherwise nothing has changed. -/
structure Threads (A : ByteArena) (holes : List Hole) (B : ByteArena) : Prop where
  /-- The arena has not moved. -/
  base : B.base = A.base
  /-- It has not grown. -/
  capacity : B.capacity = A.capacity
  /-- Neither has the frontier moved. -/
  bump : B.bump = A.bump
  /-- No block has been counted. -/
  liveCount : B.liveCount = A.liveCount
  /-- The list leads through the holes. -/
  chain : FreeChain B.view.mem B.freeHead (holes.map fun hole => A.base + hole.offset)
  /-- Each entry has its hole's size. -/
  size : ∀ hole ∈ holes, B.freeSpan (A.base + hole.offset) = hole.shift A.base
  /-- Outside of the holes no byte has changed. -/
  bytes : ∀ a, ¬ Covers (holes.map (Span.shift A.base)) a → B.bytes a = A.bytes a

variable {A B : ByteArena} {hole : Hole} {holes : List Hole}

theorem Fit.tail (hfit : A.Fit (hole :: holes)) : A.Fit holes where
  increasing := (increasing_cons.mp hfit.increasing).2
  min_size g hg := hfit.min_size g (List.mem_cons_of_mem _ hg)
  inside g hg := hfit.inside g (List.mem_cons_of_mem _ hg)

/-- The first hole begins at an address and has room for an entry before the next one begins. -/
theorem Fit.head (hfit : A.Fit (hole :: holes)) :
    (0 < A.base + hole.offset ∧ A.base + hole.offset < 2 ^ 64) ∧ hole.size < 2 ^ 64 ∧
      ∀ g ∈ holes, A.base + hole.offset + minAllocSize ≤ A.base + g.offset := by
  have hbase := A.nonNull
  have hspace := A.inSpace
  have hsize := hfit.min_size hole List.mem_cons_self
  have hstop := hfit.inside hole List.mem_cons_self
  have hnext := (increasing_cons.mp hfit.increasing).1
  simp only [Span.stop, minAllocSize] at hsize hstop hnext ⊢
  refine ⟨by omega, by omega, fun g hg => ?_⟩
  have := hnext g hg
  omega

theorem Threads.isPtr (hthreads : A.Threads holes B) (hfit : A.Fit holes) : IsPtr B.freeHead := by
  intro ptr hptr
  have hchain := hthreads.chain
  cases holes with
  | nil => cases hchain.symm.trans hptr
  | cons hole holes =>
    obtain rfl := Option.some.inj (hchain.1.symm.trans hptr)
    exact hfit.head.1

theorem threads_nil (A : ByteArena) : A.Threads [] { A with freeHead := none } :=
  ⟨rfl, rfl, rfl, rfl, rfl, List.forall_mem_nil _, fun _ _ => rfl⟩

/-- **One more entry in front.** It is written into its own hole, which ends before the others. -/
theorem Threads.pushFree (hthreads : A.Threads holes B) (hfit : A.Fit (hole :: holes)) :
    A.Threads (hole :: holes) (B.pushFree hole) := by
  obtain ⟨-, hsize, hbefore⟩ := hfit.head
  have hentry : (B.pushFree hole).view.mem (A.base + hole.offset) = ⟨hole.size, B.freeHead⟩ := by
    rw [← hthreads.base]
    exact entryAt_write hsize (hthreads.isPtr hfit.tail)
  have hother : ∀ g ∈ holes, (B.pushFree hole).view.mem (A.base + g.offset) =
      B.view.mem (A.base + g.offset) := by
    intro g hg
    have := hbefore g hg
    rw [← hthreads.base] at this ⊢
    exact entryAt_write_of_disjoint (.inr this)
  refine ⟨hthreads.base, hthreads.capacity, hthreads.bump, hthreads.liveCount, ?_, ?_, ?_⟩
  · refine ⟨congrArg (fun base => some (base + hole.offset)) hthreads.base, ?_⟩
    rw [hentry]
    refine hthreads.chain.frame fun a ha => ?_
    obtain ⟨g, hg, rfl⟩ := List.mem_map.mp ha
    rw [hother g hg]
  · refine List.forall_mem_cons.mpr ⟨?_, fun g hg => ?_⟩
    · rw [freeSpan_eq, hentry, Span.shift]
    · rw [freeSpan_eq, hother g hg]
      exact hthreads.size g hg
  · intro a ha
    rw [List.map_cons, covers_cons, not_or] at ha
    obtain ⟨hhole, hrest⟩ := ha
    refine Eq.trans (write_entry_of_outside ?_) (hthreads.bytes a hrest)
    have hmin := hfit.min_size hole List.mem_cons_self
    rw [Span.contains_shift] at hhole
    rw [hthreads.base]
    simp only [Span.Contains, Span.stop] at hhole
    omega

theorem threads_foldr (hfit : A.Fit holes) :
    A.Threads holes (holes.foldr (fun hole B => B.pushFree hole) { A with freeHead := none }) := by
  induction holes with
  | nil => exact A.threads_nil
  | cons hole holes ih => exact (ih hfit.tail).pushFree hfit

/-! ### The end of a sweep -/

/-- The holes as a sweep hands them over: of any order, none overlapping another, none smaller than
an entry, all of them in the arena. -/
structure Collected (A : ByteArena) (holes : List Hole) : Prop where
  /-- No hole overlaps another. -/
  apart : Apart holes
  /-- Each has room for an entry. -/
  min_size : ∀ hole ∈ holes, minAllocSize ≤ hole.size
  /-- All are in the arena. -/
  inside : ∀ hole ∈ holes, hole.stop ≤ A.capacity

theorem finishSweep_eq (hlive : A.liveCount ≠ 0) : A.finishSweep holes =
    ((merged holes).foldr (fun hole B => B.pushFree hole) { A with freeHead := none }, []) := by
  rw [finishSweep, if_neg hlive]
  dsimp only
  rw [mergeAdjacent_eq_coalesce, List.foldl_reverse, merged]

theorem Collected.pos (hcoll : A.Collected holes) : ∀ hole ∈ holes, 0 < hole.size :=
  fun hole hhole => Nat.lt_of_lt_of_le (by decide) (hcoll.min_size hole hhole)

theorem Collected.fit (hcoll : A.Collected holes) : A.Fit (merged holes) where
  increasing := increasing_merged hcoll.apart hcoll.pos
  min_size _ hhole := le_size_of_mem_merged hcoll.min_size hhole
  inside _ hhole := stop_le_of_mem_merged hcoll.pos hcoll.inside hhole

theorem threads_finishSweep (hlive : A.liveCount ≠ 0) (hcoll : A.Collected holes) :
    A.Threads (merged holes) (A.finishSweep holes).1 := by
  rw [finishSweep_eq hlive]
  exact threads_foldr hcoll.fit

/-- **The free list on bytes is the free list on entries.** -/
theorem finishSweep_refines (hcoll : A.Collected holes) :
    ∃ free, FreeChain (A.finishSweep holes).1.view.mem (A.finishSweep holes).1.freeHead free ∧
      FreeChain (A.view.finishSweep holes).1.mem (A.view.finishSweep holes).1.freeHead free ∧
      ∀ a ∈ free, ((A.finishSweep holes).1.view.mem a).size =
        ((A.view.finishSweep holes).1.mem a).size := by
  by_cases hlive : A.liveCount = 0
  · refine ⟨[], ?_, ?_, List.forall_mem_nil _⟩
    · rw [finishSweep, if_pos hlive]
      rfl
    · rw [GcArena.finishSweep_of_dead (A := A.view) hlive]
      rfl
  · have hthreads := threads_finishSweep hlive hcoll
    obtain ⟨hchain, hsize, -⟩ := GcArena.foldr_pushFree (A := A.view)
      (GcArena.nodup_offset hcoll.fit.increasing hcoll.fit.min_size)
    rw [GcArena.finishSweep_of_live (A := A.view) hlive]
    refine ⟨_, hthreads.chain, hchain, fun a ha => ?_⟩
    obtain ⟨hole, hhole, rfl⟩ := List.mem_map.mp ha
    exact (congrArg Span.size (hthreads.size hole hhole)).trans (hsize hole hhole).symm

/-- **Nothing outside of the holes is written.** -/
theorem finishSweep_bytes (hcoll : A.Collected holes) {a : ℕ}
    (ha : ¬ Covers (holes.map (Span.shift A.base)) a) :
    (A.finishSweep holes).1.bytes a = A.bytes a := by
  by_cases hlive : A.liveCount = 0
  · rw [finishSweep, if_pos hlive]
  · refine (threads_finishSweep hlive hcoll).bytes a ?_
    rwa [covers_map_shift, covers_merged, ← covers_map_shift]

/-- The holes of an arena in which all is well can be handed over. -/
theorem collected_of_inv {blocks : List Block} {free : List ℕ}
    (hinv : A.view.Inv blocks free holes) : A.Collected holes := by
  have hmem : ∀ hole ∈ holes, hole ∈ A.view.spans blocks free holes := fun hole hhole =>
    GcArena.mem_spans.mpr (.inr (.inr hhole))
  exact ⟨(apart_append.mp (apart_append.mp hinv.apart).2.1).2.1,
    fun hole hhole => hinv.min_size hole (hmem hole hhole),
    fun hole hhole => (hinv.inside hole (hmem hole hhole)).trans hinv.bump_le⟩

/-- So the blocks that are in use keep their bytes. -/
theorem finishSweep_block {blocks : List Block} {free : List ℕ}
    (hinv : A.view.Inv blocks free holes) {b : Block} (hb : b ∈ blocks) {a : ℕ}
    (hle : b.ptr ≤ a) (hlt : a < b.ptr + b.size) :
    (A.finishSweep holes).1.bytes a = A.bytes a := by
  refine finishSweep_bytes (collected_of_inv hinv) fun hcovers => ?_
  obtain ⟨hbase, hole, hhole, hcontains⟩ := covers_map_shift.mp hcovers
  have hdisjoint := (apart_append.mp hinv.apart).2.2 _ (List.mem_map_of_mem hb) hole
    (List.mem_append_right _ hhole)
  have hptr : A.base ≤ b.ptr := hinv.block_base b hb
  have hview : A.view.base = A.base := rfl
  simp only [Span.Disjoint, Span.Contains, Span.stop, Block.span, hview] at hdisjoint hcontains
  omega

end ByteArena

open ByteArena in
/-- **Coalescing is exact.** While anything in the arena is alive, the end of a sweep makes a free
list of the holes, in strictly increasing address order, of the same bytes and with a gap behind
every entry, and leaves no holes. -/
theorem finishSweep_exact {A : ByteArena} {holes : List Hole} (hlive : 0 < A.liveCount)
    (hcoll : A.Collected holes) :
    ∃ free, FreeChain (A.finishSweep holes).1.view.mem (A.finishSweep holes).1.freeHead free ∧
      free.Pairwise (· < ·) ∧
      (∀ a, Covers (free.map (A.finishSweep holes).1.freeSpan) a ↔
        Covers (holes.map (Span.shift A.base)) a) ∧
      (free.Pairwise fun entry later =>
        ((A.finishSweep holes).1.freeSpan entry).stop ≠ later) ∧
      (A.finishSweep holes).2 = [] := by
  have hthreads := threads_finishSweep hlive.ne' hcoll
  have hspans : ((merged holes).map fun hole => A.base + hole.offset).map
      (A.finishSweep holes).1.freeSpan = (merged holes).map (Span.shift A.base) := by
    rw [List.map_map]
    exact List.map_congr_left hthreads.size
  have hgap : ((merged holes).map fun hole => A.base + hole.offset).Pairwise fun entry later =>
      entry ≤ ((A.finishSweep holes).1.freeSpan entry).stop ∧
        ((A.finishSweep holes).1.freeSpan entry).stop < later := by
    rw [List.pairwise_map]
    refine List.Pairwise.imp_of_mem (fun {hole later} hhole _ hlt => ?_)
      (pairwise_gap_merged hcoll.apart hcoll.pos)
    rw [hthreads.size hole hhole]
    simp only [Span.stop, Span.shift] at hlt ⊢
    omega
  refine ⟨_, hthreads.chain, hgap.imp fun h => h.1.trans_lt h.2, fun a => ?_,
    hgap.imp fun h => h.2.ne, by rw [finishSweep_eq hlive.ne']⟩
  rw [hspans, covers_map_shift, covers_merged, ← covers_map_shift]

/-- Four holes out of order, of which three touch. -/
theorem finishSweep_exact_three :
    let A : ByteArena := ⟨4096, 256, 256, none, 2, fun _ => 255, by decide, by decide⟩
    let A' := (A.finishSweep [⟨32, 16⟩, ⟨96, 32⟩, ⟨0, 16⟩, ⟨16, 16⟩]).1
    ∃ free, FreeChain A'.view.mem A'.freeHead free ∧ free.Pairwise (· < ·) ∧
      ∀ a, Covers (free.map A'.freeSpan) a ↔
        Covers [⟨4128, 16⟩, ⟨4192, 32⟩, ⟨4096, 16⟩, ⟨4112, 16⟩] a := by
  intro A A'
  have hcoll : A.Collected [⟨32, 16⟩, ⟨96, 32⟩, ⟨0, 16⟩, ⟨16, 16⟩] :=
    ⟨by decide, by decide, by decide⟩
  obtain ⟨free, hchain, horder, hcovers, -⟩ := finishSweep_exact (A := A) (by decide) hcoll
  exact ⟨free, hchain, horder, hcovers⟩

/-- **Holes smaller than an entry.** The first hole has one byte. Its entry has two words, and the
second one, the address of the next entry, is written over that entry's size. -/
theorem finishSweep_clobbers :
    let A : ByteArena := ⟨4096, 64, 64, none, 1, fun _ => 0, by decide, by decide⟩
    let holes : List Hole := [⟨0, 1⟩, ⟨8, 8⟩]
    let A' := (A.finishSweep holes).1
    (0 < A.liveCount ∧ Apart holes ∧ ∀ hole ∈ holes, 0 < hole.size ∧ hole.stop ≤ A.bump) ∧
    ¬ ∃ free, FreeChain A'.view.mem A'.freeHead free ∧
      ∀ a, Covers (free.map A'.freeSpan) a ↔ Covers (holes.map (Span.shift A.base)) a := by
  intro A holes A'
  refine ⟨by decide, ?_⟩
  rintro ⟨free, hchain, hcovers⟩
  have hfree : FreeChain A'.view.mem A'.freeHead [4096, 4104] := by
    refine ⟨by decide +kernel, by decide +kernel, ?_⟩
    show (A'.view.mem 4104).next = none
    decide +kernel
  obtain rfl := hchain.unique hfree
  have hlost := (hcovers 5000).mp (by decide +kernel)
  exact absurd hlost (by decide)

end GcLite
