import GcLite.Layout
import GcLite.Library.Spans

/-!
# The arena

The bump and free-list allocator of `arena.rs`. Pointers are addresses, the arena is the range
`[base, base + capacity)`, and the free list is threaded through the dead memory itself: the first
two words at a free entry's address are its size and the address of the next entry.

That memory is the field `mem`. It is read as a `FreeEntry` at every address, whatever really lies
there, because that is what `read_free_size` and `read_free_next` do; that the entries on the free
list are never overwritten by a live block is a theorem, not an assumption.

`Vec<Hole>` is a list with the newest hole last.

## Main definitions

* `GcArena`, `GcArena.new`, `GcArena.alloc`, `GcArena.allocFromFreeList`
* `GcArena.collectHole`, `GcArena.finishSweep`, `mergeAdjacent`
-/

namespace GcLite

/-- Minimum free slot size: two pointer-width values. -/
def minAllocSize : ℕ := 16

/-- A free hole before sorting and merging, with its offset from the arena's base. -/
abbrev Hole := Spans.Span

instance : Inhabited Hole := ⟨⟨0, 0⟩⟩

/-- The first two words of a free slot. -/
structure FreeEntry where
  /-- The size of the slot. -/
  size : ℕ
  /-- The slot after it in the free list. -/
  next : Option ℕ
deriving DecidableEq, Repr, Inhabited

/-- Bump-pointer arena with a free list. -/
structure GcArena where
  /-- The address of the first byte. -/
  base : ℕ
  /-- In bytes. -/
  capacity : ℕ
  /-- Current bump frontier offset. -/
  bump : ℕ
  /-- Head of the free list, as an address. -/
  freeHead : Option ℕ
  /-- Number of live nodes in this arena. -/
  liveCount : ℕ
  /-- The two words at each address, as a free entry. -/
  mem : ℕ → FreeEntry

namespace GcArena

/-- A new arena, unless the layout is invalid or the system allocator has no memory. `sys` is the
system allocator's answer. -/
def new (capacity : ℕ) (sys : Option ℕ) : Option GcArena := do
  let _ ← Layout.fromSizeAlign capacity 16
  let ptr ← sys
  return ⟨ptr, capacity, 0, none, 0, fun _ => default⟩

/-- Set the size word of the entry at `entry`. -/
def writeFreeSize (A : GcArena) (entry size : ℕ) : GcArena :=
  { A with mem := Function.update A.mem entry { A.mem entry with size := size } }

/-- Set the next word of the entry at `entry`. -/
def writeFreeNext (A : GcArena) (entry : ℕ) (next : Option ℕ) : GcArena :=
  { A with mem := Function.update A.mem entry { A.mem entry with next := next } }

/-! ### Allocation -/

/-- The first-fit walk, from `curr` on; `prev` is the entry before it. The fuel bounds the walk. -/
def findFit (needed : ℕ) : ℕ → GcArena → Option ℕ → Option ℕ → Option (ℕ × GcArena)
  | 0, _, _, _ => none
  | _ + 1, _, _, none => none
  | fuel + 1, A, prev, some entry =>
    if needed ≤ (A.mem entry).size then
      let next := (A.mem entry).next
      match prev with
      | some p => some (entry, A.writeFreeNext p next)
      | none => some (entry, { A with freeHead := next })
    else findFit needed fuel A (some entry) (A.mem entry).next

/-- First-fit free-list search. Entries do not overlap, so a list of more than `capacity` entries
is impossible and the fuel is never what ends the walk; see `findFit_spec`. -/
def allocFromFreeList (A : GcArena) (needed : ℕ) : Option (ℕ × GcArena) :=
  findFit needed (A.capacity + 1) A none A.freeHead

/-- Main allocation path: bump, then free list, then `none`. -/
def alloc (A : GcArena) (layout : Layout) : Option (ℕ × GcArena) :=
  let needed := max layout.size minAllocSize
  let offset := alignUp A.bump layout.align
  if offset + needed ≤ A.capacity then
    some (A.base + offset, { A with bump := offset + needed, liveCount := A.liveCount + 1 })
  else
    match A.allocFromFreeList needed with
    | some (ptr, A') => some (ptr, { A' with liveCount := A'.liveCount + 1 })
    | none => none

/-! ### Sweeping -/

/-- Reclaim a dead node: rewind the frontier if the node ends there, else record a hole. -/
def collectHole (A : GcArena) (holes : List Hole) (node nodeSize : ℕ) : GcArena × List Hole :=
  let actualSize := max nodeSize minAllocSize
  if node + actualSize = A.base + A.bump then
    ({ A with bump := node - A.base, liveCount := A.liveCount - 1 }, holes)
  else
    ({ A with liveCount := A.liveCount - 1 }, holes ++ [⟨node - A.base, actualSize⟩])

end GcArena

/-- `holes.swap(i, j)`. -/
def swapHoles (holes : List Hole) (i j : ℕ) : List Hole :=
  (holes.set i (holes.getD j default)).set j (holes.getD i default)

/-- One round of the two-pointer compaction: `wi` is the write index, `ri` the read index. -/
def mergeStep (st : List Hole × ℕ) (ri : ℕ) : List Hole × ℕ :=
  let holes := st.1
  let wi := st.2
  let w := holes.getD wi default
  let r := holes.getD ri default
  if w.offset + w.size = r.offset then (holes.set wi ⟨w.offset, w.size + r.size⟩, wi)
  else (if wi + 1 ≠ ri then swapHoles holes (wi + 1) ri else holes, wi + 1)

/-- In-place merge of adjacent holes, then truncation to the merged length. -/
def mergeAdjacent (holes : List Hole) : List Hole :=
  if holes.isEmpty then []
  else
    let st := (List.range' 1 (holes.length - 1)).foldl mergeStep (holes, 0)
    st.1.take (st.2 + 1)

namespace GcArena

/-- Push a hole at the head of the free list. -/
def pushFree (A : GcArena) (hole : Hole) : GcArena :=
  let ptr := A.base + hole.offset
  { (A.writeFreeSize ptr hole.size).writeFreeNext ptr A.freeHead with freeHead := some ptr }

/-- End of a sweep: sort, merge adjacent holes and rebuild the free list, or reset the arena when
nothing in it is alive. The hole vector is empty afterwards. -/
def finishSweep (A : GcArena) (holes : List Hole) : GcArena × List Hole :=
  if A.liveCount = 0 then ({ A with bump := 0, freeHead := none }, [])
  else
    let sorted := holes.insertionSort (fun s t => s.offset ≤ t.offset)
    ((mergeAdjacent sorted).reverse.foldl pushFree { A with freeHead := none }, [])

end GcArena

end GcLite
