import GcLite.MarkSweep

/-!
# Write barriers

`bind` and `with_write_barrier` of `node.rs`. The two protect a new reference differently: `bind`
grays the slave, `with_write_barrier` grays the master again.

## Main definitions

* `setRefs` — the payload write itself
* `bind`, `withWriteBarrier`
-/

namespace GcLite

namespace GcHeap

/-- Write a payload. -/
def setRefs (h : GcHeap) (n : NodePtr) (payload : Payload) : GcHeap :=
  { h with refs := Function.update h.refs n payload }

/-- The first block of `bind`: a slave of a black master that is not black itself becomes gray, and
goes on its partition's list if that is marking. -/
def bindTriColor (h : GcHeap) (master slave : NodePtr) : GcHeap :=
  if (h.head master).color = .black ∧ (h.head slave).color ≠ .black then
    let h := h.setColor slave .gray
    let slavePid := (h.head slave).partitionId
    if slavePid < h.partitions.length ∧ (h.par slavePid).marking then h.addGrayNode slave else h
  else h

/-- The second block of `bind`: between partitions, whatever the colour of the master. -/
def bindCrossPartition (h : GcHeap) (master slave : NodePtr) : GcHeap :=
  let masterPid := (h.head master).partitionId
  let slavePid := (h.head slave).partitionId
  if masterPid ≠ slavePid then
    if (h.head slave).color ≠ .black ∧ slavePid < h.partitions.length ∧
        (h.par slavePid).marking then
      (h.setColor slave .gray).pushUnlisted slavePid slave
    else h
  else h

/-- The write barrier for a reference from `master` to `slave`. -/
def bind (h : GcHeap) (master slave : NodePtr) : GcHeap :=
  (h.bindTriColor master slave).bindCrossPartition master slave

/-- Let a mutator replace the payload of a node. A black node of a marking partition becomes gray
again first. -/
def withWriteBarrier (h : GcHeap) (n : NodePtr) (mutator : Payload → Payload) : GcHeap :=
  let h := if (h.par (h.head n).partitionId).marking then
    if (h.head n).color = .black then (h.setColor n .gray).addGrayNode n else h
  else h
  h.setRefs n (mutator (h.refs n))

end GcHeap

end GcLite
