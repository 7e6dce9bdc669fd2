import GcLite.Library.Buckets
import GcLite.Mem

/-!
# Marking and sweeping

`mark_sweep.rs`: the incremental tri-colour marker and the three-step sweep.

A mark step of partition `i` works off the gray list of `i` alone. Children in other partitions are
put on the lists of their own partitions and wait there.

`markGraysLoop` is by recursion on the budget and `popGray` on the list, so both always end. The
loop `while !self.mark(i, 64) {}` of `garbage_collect` has fuel, and `garbageCollect` is `none` when
it runs out; `markLoop_isSome` says when it does not.

Debug assertions are left out. One of them matters: in a debug build the deprecated `sweep` insists
that every node of the chain is black or white, which a finished cycle does not ensure, and panics
where `sweepUnlink` keeps the gray node and returns.

## Main definitions

* `markReset`, `markPrepare`, `markGrays`, `mark`
* `sweepUnlink`, `sweepDropPayloads`, `sweepDispose`, and the three together, `twoPhaseSweep`
* `garbageCollect`
* `sweep` — the deprecated sweep in one step
* `disposeAllNodes`
-/

namespace GcLite

namespace GcHeap

/-! ### Marking -/

/-- Begin or end a marking cycle. -/
def setMarking (h : GcHeap) (i : ℕ) (marking : Bool) : GcHeap :=
  h.modifyPar i fun q => { q with marking := marking }

/-- `set_color`. -/
def setColor (h : GcHeap) (n : NodePtr) (color : GcTriColor) : GcHeap :=
  h.modifyHead n fun hd => { hd with color := color }

/-- `set_gray_listed`. -/
def setGrayListed (h : GcHeap) (n : NodePtr) (b : Bool) : GcHeap :=
  h.modifyHead n fun hd => { hd with grayListed := b }

/-- Push a node on a gray list, whatever its `GRAY_LISTED` flag says. -/
def pushGray (h : GcHeap) (i : ℕ) (n : NodePtr) : GcHeap :=
  h.modifyPar i fun q => { q with grayList := n :: q.grayList }

/-- Abandon a partition's marking cycle. -/
def markReset (h : GcHeap) (i : ℕ) : GcHeap :=
  let h := h.setMarking i false
  let h := (h.par i).grayList.foldl (fun h n => h.setGrayListed n false) h
  let h := h.modifyPar i fun q => { q with grayList := [] }
  (h.par i).nodes.foldl (fun h n => h.setColor n .white) h

/-- First pass of seeding, for one node of partition `i`. -/
def seedNode (i : ℕ) (hasPendingGrays : Bool) (h : GcHeap) (n : NodePtr) : GcHeap :=
  if (h.head n).isRootOrLocal then
    let h := h.setColor n .gray
    if !hasPendingGrays then h.pushGray i n else h
  else if !hasPendingGrays then h.setColor n .white else h

/-- Second pass of seeding, for a partition that has pending gray nodes. -/
def seedPendingNode (i : ℕ) (h : GcHeap) (n : NodePtr) : GcHeap :=
  if (h.head n).isRootOrLocal then (h.setColor n .gray).pushUnlisted i n else h

/-- Gray the roots of partition `i`; whiten everything else if its gray list is empty. -/
def seedPartition (h : GcHeap) (i : ℕ) : GcHeap :=
  let hasPendingGrays := !(h.par i).grayList.isEmpty
  let h := (h.par i).nodes.foldl (seedNode i hasPendingGrays) h
  if hasPendingGrays then (h.par i).nodes.foldl (seedPendingNode i) h else h

/-- Put every partition into marking mode. -/
def setAllMarking (h : GcHeap) : GcHeap :=
  { h with partitions := h.partitions.map fun q => { q with marking := true } }

/-- Begin a cycle, unless partition `i` does not exist or is in one. -/
def markPrepare (h : GcHeap) (i : ℕ) : GcHeap :=
  if h.partitions.length ≤ i then h
  else if (h.par i).marking then h
  else (List.range h.partitions.length).foldl seedPartition h.setAllMarking

/-- `GcTraceCtx::add_node`: collect a reference once. -/
def addTraced (traced : List NodePtr) (n : NodePtr) : List NodePtr :=
  if n ∈ traced then traced else traced ++ [n]

/-- The node's children as its trace function leaves them, in the order in which they are popped. -/
def traced (h : GcHeap) (n : NodePtr) : List NodePtr := ((h.refs n).foldl addTraced []).reverse

/-- One child of a node traced in partition `i`: gray it and put it on the list of `i`, or buffer it
when it belongs elsewhere. -/
def shadeChild (i : ℕ) (st : GcHeap × List (ℕ × NodePtr)) (ch : NodePtr) :
    GcHeap × List (ℕ × NodePtr) :=
  let (h, crossBuffer) := st
  if (h.head ch).color ≠ .black then
    let h := (h.setColor ch .gray).setGrayListed ch true
    let childPid := (h.head ch).partitionId
    if childPid = i then (h.pushGray i ch, crossBuffer) else (h, crossBuffer ++ [(childPid, ch)])
  else (h, crossBuffer)

/-- Trace a gray node of the list of partition `i`. -/
def traceGray (h : GcHeap) (i : ℕ) (n : NodePtr) : GcHeap :=
  let (h, crossBuffer) := (h.traced n).foldl (shadeChild i) (h, [])
  let h := crossBuffer.foldl (fun h (cpid, ch) => h.pushGray cpid ch) h
  h.setColor n .black

/-- Pop entries, clearing their flags, until one is gray. The list given is the gray list of `i`. -/
def popGray (i : ℕ) (h : GcHeap) : List NodePtr → GcHeap × Option NodePtr
  | [] => (h, none)
  | n :: rest =>
    let h := (h.modifyPar i fun q => { q with grayList := rest }).setGrayListed n false
    if (h.head n).color = .gray then (h, some n) else popGray i h rest

/-- The loop of `mark_grays`, with `budget` steps left. -/
def markGraysLoop (i : ℕ) : ℕ → GcHeap → GcHeap × Bool
  | budget, h =>
    match h.popGray i (h.par i).grayList with
    | (h, none) => (h, true)
    | (h, some n) =>
      match budget with
      | 0 => (h.pushGray i n, false)
      | budget + 1 => markGraysLoop i budget (h.traceGray i n)

/-- Trace at most `maxSteps` gray nodes; whether the gray list is exhausted. -/
def markGrays (h : GcHeap) (i maxSteps : ℕ) : GcHeap × Bool :=
  if maxSteps = 0 then (h, false) else markGraysLoop i maxSteps h

/-- One slice of marking, and whether the cycle is done. -/
def mark (h : GcHeap) (i maxSteps : ℕ) : GcHeap × Bool :=
  let h := h.markPrepare i
  if maxSteps > 0 then h.markGrays i maxSteps else (h, false)

/-! ### Sweeping -/

/-- What a sweep unlinks. -/
def isWhiteNonRoot (h : GcHeap) (n : NodePtr) : Bool :=
  (h.head n).color = .white && !(h.head n).isRootOrLocal

/-- Phase 1: split the white nodes off the chain of a partition whose cycle is complete. An empty
chain gives `none`, although the cycle ends all the same. -/
def sweepUnlink (h : GcHeap) (i : ℕ) : GcHeap × Option (List NodePtr) :=
  if h.partitions.length ≤ i then (h, none)
  else if !((h.par i).marking && (h.par i).grayList.isEmpty) then (h, none)
  else
    let chain := (h.par i).nodes
    let h := h.setMarking i false
    if chain.isEmpty then (h, none)
    else
      (h.modifyPar i fun q => { q with nodes := chain.filter fun n => !h.isWhiteNonRoot n },
        some (chain.filter h.isWhiteNonRoot))

/-- Phase 2: the effects of dropping the payloads of the white nodes. -/
def sweepDropPayloads (h : GcHeap) (white : List NodePtr) : List GcEvent :=
  white.flatMap h.dropPayload

/-- The locals of `sweep_dispose`. -/
structure SweepState where
  /-- The heap, with some nodes disposed of. -/
  heap : GcHeap
  /-- The arena blocks given back so far. -/
  holes : List Hole
  /-- The bytes freed so far. -/
  freedBytes : ℕ

/-- Dispose of one white node and hand its bytes to the arena of partition `i`. -/
def SweepState.disposeNode (i : ℕ) (s : SweepState) (n : NodePtr) : SweepState :=
  let isArena := (s.heap.head n).arenaAlloc
  let size := (s.heap.info n).layoutSize
  let (h, bytes) := s.heap.disposeNoDrop n
  match isArena, (h.par i).arena with
  | true, some A =>
    let (A, holes) := A.collectHole s.holes n size
    ⟨h.modifyPar i fun q => { q with arena := some A }, holes, s.freedBytes + bytes⟩
  | _, _ => ⟨h, s.holes, s.freedBytes + bytes⟩

/-- One pass over the remaining nodes: dispose of those whose type drops in this pass, keep the
others in order. -/
def sweepPass (i pass : ℕ) : SweepState → List NodePtr → SweepState × List NodePtr
  | s, [] => (s, [])
  | s, n :: rest =>
    if (s.heap.info n).dropPass = pass then sweepPass i pass (s.disposeNode i n) rest
    else
      let (s, kept) := sweepPass i pass s rest
      (s, n :: kept)

/-- The passes in order, until nothing remains. -/
def sweepPasses (i : ℕ) : List ℕ → SweepState → List NodePtr → SweepState
  | [], s, _ => s
  | pass :: passes, s, remaining =>
    let (s, remaining) := sweepPass i pass s remaining
    if remaining.isEmpty then s else sweepPasses i passes s remaining

/-- Rebuild the free list of the arena of partition `i`, if it has one. -/
def finishSweep (h : GcHeap) (i : ℕ) (holes : List Hole) : GcHeap :=
  match (h.par i).arena with
  | some A => h.modifyPar i fun q => { q with arena := some (A.finishSweep holes).1 }
  | none => h

/-- Phase 3: free the white nodes, whose payloads have been dropped. -/
def sweepDispose (h : GcHeap) (i : ℕ) (white : List NodePtr) : GcHeap × ℕ :=
  let s := sweepPasses i h.nodeDtypes.dropPasses ⟨h, [], 0⟩ white
  (s.heap.finishSweep i s.holes, s.freedBytes)

/-- The three phases one after the other. -/
def twoPhaseSweep (h : GcHeap) (i : ℕ) : GcHeap × ℕ :=
  match h.sweepUnlink i with
  | (h, some white) => (h.emit (h.sweepDropPayloads white)).sweepDispose i white
  | (h, none) => (h, 0)

/-! ### The deprecated sweep -/

/-- Dispose of one white node, payload and all, and hand its bytes to the arena of partition `i`. -/
def SweepState.disposeWithDrop (i : ℕ) (s : SweepState) (n : NodePtr) : SweepState :=
  let isArena := (s.heap.head n).arenaAlloc
  let size := (s.heap.info n).layoutSize
  let (h, bytes) := s.heap.dispose n
  match isArena, (h.par i).arena with
  | true, some A =>
    let (A, holes) := A.collectHole s.holes n size
    ⟨h.modifyPar i fun q => { q with arena := some A }, holes, s.freedBytes + bytes⟩
  | _, _ => ⟨h, s.holes, s.freedBytes + bytes⟩

/-- The sweep in one step: the white nodes are taken out of the chain pass by pass, and each is
disposed of as it is found. Until the end the partition's chain is empty. This is the sweep of a
release build, without the assertion that no node of the chain is gray. -/
def sweep (h : GcHeap) (i : ℕ) : GcHeap × ℕ :=
  if h.partitions.length ≤ i then (h, 0)
  else if !((h.par i).marking && (h.par i).grayList.isEmpty) then (h, 0)
  else
    let chain := (h.par i).nodes
    let h := h.modifyPar i fun q => { q with marking := false, nodes := [] }
    if chain.isEmpty then (h, 0)
    else
      let (s, link) := removePasses
        (fun pass (s : SweepState) n =>
          (s.heap.info n).dropPass == pass && s.heap.isWhiteNonRoot n)
        (SweepState.disposeWithDrop i) h.nodeDtypes.dropPasses ⟨h, [], 0⟩ chain
      let h := s.heap.finishSweep i s.holes
      (if link.isEmpty then h else h.modifyPar i fun q => { q with nodes := link }, s.freedBytes)

/-! ### Disposing of everything -/

/-- Dispose of one node and add its bytes to those counted so far. -/
def disposeCounting (s : GcHeap × ℕ) (n : NodePtr) : GcHeap × ℕ :=
  let (h, freedBytes) := s
  let (h, bytes) := h.dispose n
  (h, freedBytes + bytes)

/-- Dispose of all nodes of a link; also what is left of it. -/
def disposeAllNodes (h : GcHeap) (link : List NodePtr) : (GcHeap × ℕ) × List NodePtr :=
  removePasses (fun pass (s : GcHeap × ℕ) n => (s.1.info n).dropPass == pass) disposeCounting
    h.nodeDtypes.dropPasses (h, 0) link

/-! ### Collection -/

/-- `while !self.mark(i, 64) {}` -/
def markLoop (i : ℕ) : ℕ → GcHeap → Option GcHeap
  | 0, _ => none
  | fuel + 1, h =>
    match h.mark i 64 with
    | (h, true) => some h
    | (h, false) => markLoop i fuel h

/-- The number of chained nodes, which bounds how often marking can be interrupted. -/
def nodeCount (h : GcHeap) : ℕ := (h.partitions.map fun q => q.nodes.length).sum

/-- Mark all that is reachable in partition `i`, then sweep it. -/
def garbageCollect (h : GcHeap) (i : ℕ) : Option (GcHeap × ℕ) :=
  if h.partitions.length ≤ i then some (h, 0)
  else (markLoop i (h.nodeCount + 1) h).map fun h => h.twoPhaseSweep i

end GcHeap

end GcLite
