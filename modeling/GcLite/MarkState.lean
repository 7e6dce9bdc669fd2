import GcLite.Heap

/-!
# The marker's state

What marking is about, without bytes, arenas, scopes and weak slots: the chains, the gray lists, the
colours, and which nodes are protected. An operation of the heap is, as far as marking goes, one or
two of the changes defined here.

The invariant says what an unfinished cycle may be trusted with. Its hardest clauses only speak
about partitions that are marking: gray nodes wait on the list, protected nodes are not white, and a
black node has no white child in its own partition. Nothing is said about references between
partitions, because a cycle of one partition does not work off the list of another.

## Main definitions

* `MarkState`, and the changes `shade`, `setRefs`, `alloc`, `pop`, `trace`, `reset`, `unlink`
* `MarkState.Prepared`, `MarkState.Shades` — the beginning of a cycle, and what the mutator may do
* `MarkState.Wf` — what holds in every run
* `MarkState.Inv` — what makes a sweep safe

## Main results

* `Inv.shades` — graying nodes and protecting them keeps the invariant
* `Inv.alloc`, `Inv.setRefs`, `Inv.pop`, `Inv.trace`, `Inv.reset`, `Inv.unlink`, `Inv.prepared`
-/

namespace GcLite

/-- The part of a heap that marking reads and writes. -/
@[ext]
structure MarkState where
  /-- The number of partitions. -/
  count : ℕ
  /-- The chains. -/
  chain : ℕ → List NodePtr
  /-- The gray lists. -/
  gray : ℕ → List NodePtr
  /-- The partitions that are in a cycle. -/
  marking : ℕ → Bool
  /-- The nodes' colours. -/
  color : NodePtr → GcTriColor
  /-- `GRAY_LISTED` -/
  listed : NodePtr → Bool
  /-- Root or local. -/
  prot : NodePtr → Bool
  /-- The partition that a node's header names. -/
  pid : NodePtr → ℕ
  /-- What a node refers to. -/
  refs : NodePtr → Payload

namespace MarkState

variable {s t : MarkState} {i j : ℕ} {n m c : NodePtr}

/-- Some chain has the node. -/
def Live (s : MarkState) (n : NodePtr) : Prop := ∃ i, n ∈ s.chain i

/-! ### Changes -/

/-- Gray a node that is not black and list it in partition `i`. -/
def shade (s : MarkState) (i : ℕ) (n : NodePtr) : MarkState :=
  if s.color n = .black then s
  else { s with
    color := Function.update s.color n .gray
    listed := Function.update s.listed n true
    gray := fun j => if j = i ∧ i < s.count ∧ s.listed n = false then n :: s.gray j else s.gray j }

/-- Other references for one node. -/
def setRefs (s : MarkState) (n : NodePtr) (payload : Payload) : MarkState :=
  { s with refs := Function.update s.refs n payload }

/-- A white, unprotected node joins the chain of partition `i`. -/
def alloc (s : MarkState) (i : ℕ) (n : NodePtr) (payload : Payload) : MarkState :=
  { s with
    chain := fun j => if j = i then n :: s.chain j else s.chain j
    color := Function.update s.color n .white
    listed := Function.update s.listed n false
    prot := Function.update s.prot n false
    pid := Function.update s.pid n i
    refs := Function.update s.refs n payload }

/-- The top entry `n` leaves the list of partition `i`, and `rest` remains. -/
def pop (s : MarkState) (i : ℕ) (n : NodePtr) (rest : List NodePtr) : MarkState :=
  { s with gray := Function.update s.gray i rest, listed := Function.update s.listed n false }

/-- The entry `n` is put back, without its flag. -/
def requeue (s : MarkState) (n : NodePtr) : MarkState :=
  { s with listed := Function.update s.listed n false }

/-- Trace `n` with children `cs`: those that are not black are grayed and listed in their own
partitions, `n` becomes black. -/
def trace (s : MarkState) (n : NodePtr) (cs : List NodePtr) : MarkState :=
  { s with
    color := fun m =>
      if m = n then .black else if m ∈ cs ∧ s.color m ≠ .black then .gray else s.color m
    listed := fun m => if m ∈ cs ∧ s.color m ≠ .black then true else s.listed m
    gray := fun j => if j < s.count then
      (cs.filter fun c => s.color c != .black && s.pid c == j).reverse ++ s.gray j else s.gray j }

/-- Partition `i` gives up its cycle. -/
def reset (s : MarkState) (i : ℕ) : MarkState :=
  { s with
    marking := fun j => if j = i then false else s.marking j
    gray := fun j => if j = i then [] else s.gray j
    listed := fun m => if m ∈ s.gray i then false else s.listed m
    color := fun m => if m ∈ s.chain i then .white else s.color m }

/-- What a sweep unlinks. -/
def garbage (s : MarkState) (n : NodePtr) : Bool := s.color n = .white && !s.prot n

/-- The garbage leaves the chain of partition `i`, whose cycle ends. -/
def unlink (s : MarkState) (i : ℕ) : MarkState :=
  { s with
    marking := fun j => if j = i then false else s.marking j
    chain := fun j => if j = i then (s.chain j).filter fun n => !s.garbage n else s.chain j }

/-- The cycle of partition `i` ends and everything in the partition goes. -/
def drop (s : MarkState) (i : ℕ) : MarkState :=
  { s with
    marking := fun j => if j = i then false else s.marking j
    chain := fun j => if j = i then [] else s.chain j
    gray := fun j => if j = i then [] else s.gray j }

/-- What the beginning of a cycle does to the partitions, each by itself: it grays the protected
nodes and lists them unless their flag says that they are listed; and if nothing was listed, it
lists them all and whitens the rest. -/
structure Prepared (s t : MarkState) : Prop where
  /-- There are no new partitions. -/
  count : t.count = s.count
  /-- No chain changes. -/
  chain : t.chain = s.chain
  /-- Protection stays. -/
  prot : t.prot = s.prot
  /-- No header names another partition. -/
  pid : t.pid = s.pid
  /-- No payload changes. -/
  refs : t.refs = s.refs
  /-- Every partition is in a cycle. -/
  marking : ∀ j < s.count, t.marking j = true
  /-- Protected nodes are gray. The others turn white if nothing of their partition was listed. -/
  color : ∀ j, ∀ m ∈ s.chain j, t.color m =
    if s.prot m then .gray else if s.gray j = [] then .white else s.color m
  /-- What was listed still is, together with the protected nodes. -/
  mem_gray : ∀ j < s.count, ∀ m, m ∈ t.gray j ↔
    m ∈ s.gray j ∨ (m ∈ s.chain j ∧ s.prot m ∧ (s.gray j = [] ∨ s.listed m = false))
  /-- A flag is set for a node that is listed beside others. -/
  listed : ∀ j, ∀ m ∈ s.chain j, t.listed m = (s.listed m || (s.prot m && s.gray j ≠ []))
  /-- Past the last partition nothing happens. -/
  range : ∀ j, s.count ≤ j → t.gray j = s.gray j ∧ t.marking j = s.marking j

/-- Graying nodes in their partitions, listing and protecting them there, each in good order. Nodes
may also be unprotected, and black ones gray again. -/
structure Shades (s t : MarkState) : Prop where
  /-- There are no new partitions. -/
  count : t.count = s.count
  /-- No chain changes. -/
  chain : t.chain = s.chain
  /-- No cycle begins or ends. -/
  marking : t.marking = s.marking
  /-- No header names another partition. -/
  pid : t.pid = s.pid
  /-- No payload changes. -/
  refs : t.refs = s.refs
  /-- A new colour is gray, and the node is listed where a cycle is going on. -/
  color : ∀ m, t.color m = s.color m ∨
    (t.color m = .gray ∧ ∀ i, m ∈ s.chain i → s.marking i = true → m ∈ t.gray i)
  /-- Nothing leaves a list. -/
  gray : ∀ i, ∀ m ∈ s.gray i, m ∈ t.gray i
  /-- A new entry is a gray node of the partition. -/
  entry : ∀ i, ∀ m ∈ t.gray i, m ∈ s.gray i ∨ (m ∈ s.chain i ∧ t.color m = .gray)
  /-- A new flag is right. -/
  listed : ∀ m, t.listed m = true → s.listed m = true ∨ ∀ i, m ∈ s.chain i → m ∈ t.gray i
  /-- A newly protected node is black or gray where a cycle is going on, and listed in the second
  case. -/
  prot : ∀ m, t.prot m = true → s.prot m = true ∨ ∀ i, m ∈ s.chain i → s.marking i = true →
    t.color m = .black ∨ (t.color m = .gray ∧ m ∈ t.gray i)

/-! ### What holds in every run -/

/-- Chains hold the partitions' own nodes. -/
structure Owned (s : MarkState) : Prop where
  /-- Past the last partition there is nothing. -/
  range : ∀ i, s.count ≤ i → s.chain i = [] ∧ s.gray i = [] ∧ s.marking i = false
  /-- Headers name the partitions that the nodes are in. -/
  own : ∀ i, ∀ n ∈ s.chain i, s.pid n = i

/-- Moreover, a node with its flag set is on the list of its partition. A list may have entries that
are stale or another partition's. -/
structure Wf (s : MarkState) : Prop extends Owned s where
  /-- The flag of a node in a chain is right. -/
  listed_mem : ∀ i, ∀ n ∈ s.chain i, s.listed n = true → n ∈ s.gray i

theorem Owned.lt_count (h : s.Owned) (hn : n ∈ s.chain i) : i < s.count := by
  by_contra hi
  rw [(h.range i (Nat.le_of_not_lt hi)).1] at hn
  cases hn

theorem Owned.mem_chain_iff (h : s.Owned) (hn : s.Live n) : n ∈ s.chain i ↔ s.pid n = i := by
  obtain ⟨j, hj⟩ := hn
  constructor
  · exact h.own i n
  · rintro rfl
    rwa [h.own j n hj]

theorem Owned.eq_of_mem (h : s.Owned) (hi : n ∈ s.chain i) (hj : n ∈ s.chain j) : i = j :=
  (h.own i n hi).symm.trans (h.own j n hj)

/-- What only changes the gray lists of partitions that exist. -/
theorem Owned.of_same (h : s.Owned) (hcount : t.count = s.count) (hchain : t.chain = s.chain)
    (hmarking : t.marking = s.marking) (hpid : t.pid = s.pid)
    (hrange : ∀ i, s.count ≤ i → t.gray i = s.gray i) : t.Owned := by
  refine ⟨?_, ?_⟩
  · intro i hi
    rw [hcount] at hi
    rw [hchain, hmarking, hrange i hi]
    exact h.range i hi
  · rw [hchain, hpid]
    exact h.own

/-- Graying and listing nodes. -/
theorem Wf.of_shading (h : s.Wf) (hcount : t.count = s.count) (hchain : t.chain = s.chain)
    (hmarking : t.marking = s.marking) (hpid : t.pid = s.pid)
    (hrange : ∀ i, s.count ≤ i → t.gray i = s.gray i) (hgray : ∀ i, ∀ m ∈ s.gray i, m ∈ t.gray i)
    (hlisted : ∀ m, t.listed m = true → s.listed m = true ∨ ∀ i, m ∈ s.chain i → m ∈ t.gray i) :
    t.Wf := by
  refine ⟨h.toOwned.of_same hcount hchain hmarking hpid hrange, ?_⟩
  rw [hchain]
  intro i n hn hl
  rcases hlisted n hl with hl | hl
  · exact hgray i n (h.listed_mem i n hn hl)
  · exact hl i hn

theorem Wf.shades (h : s.Wf) (hst : Shades s t) : t.Wf := by
  refine h.of_shading hst.count hst.chain hst.marking hst.pid (fun i hi => ?_) hst.gray hst.listed
  obtain ⟨hc, hg, -⟩ := h.range i hi
  rw [hg]
  refine List.eq_nil_iff_forall_not_mem.mpr fun m hm => ?_
  rcases hst.entry i m hm with hm | ⟨hm, -⟩
  · simp [hg] at hm
  · simp [hc] at hm

theorem Wf.setRefs (h : s.Wf) (n : NodePtr) (payload : Payload) : (s.setRefs n payload).Wf :=
  ⟨⟨h.range, h.own⟩, h.listed_mem⟩

theorem mem_chain_alloc {payload : Payload} :
    m ∈ (s.alloc i n payload).chain j ↔ (m = n ∧ j = i) ∨ m ∈ s.chain j := by
  by_cases hj : j = i <;> simp [alloc, hj]

theorem live_alloc {payload : Payload} : (s.alloc i n payload).Live m ↔ m = n ∨ s.Live m := by
  simp only [Live, mem_chain_alloc]
  constructor
  · rintro ⟨j, ⟨rfl, -⟩ | hm⟩
    · exact .inl rfl
    · exact .inr ⟨j, hm⟩
  · rintro (rfl | ⟨j, hm⟩)
    · exact ⟨i, .inl ⟨rfl, rfl⟩⟩
    · exact ⟨j, .inr hm⟩

theorem Wf.alloc (h : s.Wf) {payload : Payload} (hi : i < s.count) (hn : ¬ s.Live n) :
    (s.alloc i n payload).Wf := by
  have hne : ∀ {j m}, m ∈ s.chain j → m ≠ n := by
    rintro j m hm rfl
    exact hn ⟨j, hm⟩
  refine ⟨⟨?_, ?_⟩, ?_⟩
  · intro j hj
    obtain ⟨hc, hg, hm⟩ := h.range j hj
    have hji : j ≠ i := by
      rintro rfl
      exact absurd hi (Nat.not_lt.mpr hj)
    exact ⟨by simp [MarkState.alloc, hji, hc], hg, hm⟩
  · intro j m hm
    rcases mem_chain_alloc.mp hm with ⟨rfl, rfl⟩ | hm
    · simp [MarkState.alloc]
    · simpa [MarkState.alloc, hne hm] using h.own j m hm
  · intro j m hm hl
    rcases mem_chain_alloc.mp hm with ⟨rfl, rfl⟩ | hm
    · simp [MarkState.alloc] at hl
    · exact h.listed_mem j m hm (by simpa [MarkState.alloc, hne hm] using hl)

theorem mem_gray_of_pop {rest : List NodePtr} (hg : s.gray i = n :: rest)
    (hmem : m ∈ (s.pop i n rest).gray j) : m ∈ s.gray j := by
  by_cases hj : j = i
  · subst hj
    rw [hg]
    exact List.mem_cons_of_mem n (by simpa [pop] using hmem)
  · simpa [pop, hj] using hmem

theorem mem_gray_pop {rest : List NodePtr} (hg : s.gray i = n :: rest) (hm : m ≠ n)
    (hmem : m ∈ s.gray j) : m ∈ (s.pop i n rest).gray j := by
  by_cases hj : j = i
  · subst hj
    simpa [pop, hg, hm] using hmem
  · simpa [pop, hj] using hmem

theorem Owned.pop (h : s.Owned) {rest : List NodePtr} (hg : s.gray i = n :: rest) :
    (s.pop i n rest).Owned := by
  refine h.of_same rfl rfl rfl rfl fun j hj => ?_
  have hji : j ≠ i := by
    rintro rfl
    simp [(h.range j hj).2.1] at hg
  simp [MarkState.pop, hji]

theorem Wf.pop (h : s.Wf) {rest : List NodePtr} (hg : s.gray i = n :: rest) :
    (s.pop i n rest).Wf := by
  refine ⟨h.toOwned.pop hg, fun j m hm hl => ?_⟩
  have hmn : m ≠ n := by
    rintro rfl
    simp [MarkState.pop] at hl
  exact mem_gray_pop hg hmn (h.listed_mem j m hm (by simpa [MarkState.pop, hmn] using hl))

theorem Wf.requeue (h : s.Wf) (n : NodePtr) : (s.requeue n).Wf := by
  refine ⟨⟨h.range, h.own⟩, fun j m hm hl => h.listed_mem j m hm ?_⟩
  by_cases hmn : m = n
  · simp [MarkState.requeue, hmn] at hl
  · simpa [MarkState.requeue, hmn] using hl

theorem mem_gray_trace {cs : List NodePtr} : m ∈ (s.trace n cs).gray j ↔
    m ∈ s.gray j ∨ (j < s.count ∧ m ∈ cs ∧ s.color m ≠ .black ∧ s.pid m = j) := by
  by_cases hj : j < s.count
  · simp [trace, hj, or_comm]
  · simp [trace, hj]

theorem Owned.trace (h : s.Owned) (n : NodePtr) (cs : List NodePtr) : (s.trace n cs).Owned :=
  h.of_same rfl rfl rfl rfl fun j hj => by simp [MarkState.trace, Nat.not_lt.mpr hj]

theorem Wf.trace (h : s.Wf) (n : NodePtr) (cs : List NodePtr) : (s.trace n cs).Wf := by
  refine h.of_shading rfl rfl rfl rfl (fun j hj => ?_) (fun j m hm => mem_gray_trace.mpr (.inl hm))
    fun m hl => ?_
  · simp [MarkState.trace, Nat.not_lt.mpr hj]
  · by_cases hm : m ∈ cs ∧ s.color m ≠ .black
    · exact .inr fun j hj => mem_gray_trace.mpr
        (.inr ⟨h.lt_count hj, hm.1, hm.2, h.own j m hj⟩)
    · exact .inl (by simpa [MarkState.trace, hm] using hl)

theorem marking_reset : (s.reset i).marking j = true ↔ j ≠ i ∧ s.marking j = true := by
  by_cases hj : j = i <;> simp [reset, hj]

theorem mem_gray_reset : m ∈ (s.reset i).gray j ↔ m ∈ s.gray j ∧ j ≠ i := by
  by_cases hj : j = i <;> simp [reset, hj]

theorem Owned.color_reset (h : s.Owned) (hj : j ≠ i) (hm : m ∈ s.chain j) :
    (s.reset i).color m = s.color m := by
  have hmi : m ∉ s.chain i := fun hmi => hj (h.eq_of_mem hm hmi)
  simp [reset, hmi]

theorem Wf.reset (h : s.Wf) (i : ℕ) : (s.reset i).Wf := by
  refine ⟨⟨fun j hj => ?_, h.own⟩, fun j m hm hl => ?_⟩
  · obtain ⟨hc, hg, hm⟩ := h.range j hj
    simp [MarkState.reset, hc, hg, hm]
  · by_cases hmi : m ∈ s.gray i
    · simp [MarkState.reset, hmi] at hl
    · have hmj := h.listed_mem j m hm (by simpa [MarkState.reset, hmi] using hl)
      have hji : j ≠ i := by
        rintro rfl
        exact hmi hmj
      simpa [MarkState.reset, hji] using hmj

theorem mem_chain_unlink : m ∈ (s.unlink i).chain j ↔
    m ∈ s.chain j ∧ (j = i → s.garbage m = false) := by
  by_cases hj : j = i <;> simp [unlink, hj]

theorem Wf.unlink (h : s.Wf) (i : ℕ) : (s.unlink i).Wf := by
  refine ⟨⟨fun j hj => ?_, fun j m hm => h.own j m (mem_chain_unlink.mp hm).1⟩,
    fun j m hm hl => h.listed_mem j m (mem_chain_unlink.mp hm).1 hl⟩
  obtain ⟨hc, hg, hm⟩ := h.range j hj
  simp [MarkState.unlink, hc, hg, hm]

theorem mem_chain_drop : m ∈ (s.drop i).chain j ↔ m ∈ s.chain j ∧ j ≠ i := by
  by_cases hj : j = i <;> simp [drop, hj]

theorem marking_drop : (s.drop i).marking j = true ↔ j ≠ i ∧ s.marking j = true := by
  by_cases hj : j = i <;> simp [drop, hj]

theorem mem_gray_drop : m ∈ (s.drop i).gray j ↔ m ∈ s.gray j ∧ j ≠ i := by
  by_cases hj : j = i <;> simp [drop, hj]

theorem Wf.drop (h : s.Wf) (i : ℕ) : (s.drop i).Wf := by
  refine ⟨⟨fun j hj => ?_, fun j m hm => h.own j m (mem_chain_drop.mp hm).1⟩, fun j m hm hl => ?_⟩
  · obtain ⟨hc, hg, hm⟩ := h.range j hj
    simp [MarkState.drop, hc, hg, hm]
  · obtain ⟨hm, hji⟩ := mem_chain_drop.mp hm
    simpa [MarkState.drop, hji] using h.listed_mem j m hm hl

theorem Owned.prepared (h : s.Owned) (hp : Prepared s t) : t.Owned := by
  refine ⟨fun j hj => ?_, fun j m hm => ?_⟩
  · rw [hp.count] at hj
    obtain ⟨hg, hm⟩ := hp.range j hj
    rw [hp.chain, hg, hm]
    exact h.range j hj
  · rw [hp.chain] at hm
    rw [hp.pid]
    exact h.own j m hm

theorem Wf.prepared (h : s.Wf) (hp : Prepared s t) : t.Wf := by
  refine ⟨h.toOwned.prepared hp, fun j m hm hl => ?_⟩
  rw [hp.chain] at hm
  rw [hp.listed j m hm, Bool.or_eq_true, Bool.and_eq_true] at hl
  rw [hp.mem_gray j (h.lt_count hm) m]
  rcases hl with hl | ⟨hprot, -⟩
  · exact .inl (h.listed_mem j m hm hl)
  · by_cases hsl : s.listed m = true
    · exact .inl (h.listed_mem j m hm hsl)
    · exact .inr ⟨hm, hprot, .inr (by simpa using hsl)⟩

/-! ### References of live nodes are live -/

/-- References of live nodes lead to live nodes. -/
def RefsLive (s : MarkState) : Prop := ∀ i, ∀ n ∈ s.chain i, ∀ c ∈ s.refs n, s.Live c

theorem RefsLive.setRefs (h : s.RefsLive) {payload : Payload}
    (hpay : ∀ c ∈ payload, c ∈ s.refs n ∨ s.Live c) : (s.setRefs n payload).RefsLive := by
  intro i m hm c hc
  by_cases hmn : m = n
  · subst hmn
    simp only [MarkState.setRefs, Function.update_self] at hc
    exact (hpay c hc).elim (h i m hm c) id
  · simp only [MarkState.setRefs, Function.update_of_ne hmn] at hc
    exact h i m hm c hc

theorem RefsLive.alloc (h : s.RefsLive) {payload : Payload} (hn : ¬ s.Live n)
    (hpay : ∀ c ∈ payload, s.Live c) : (s.alloc i n payload).RefsLive := by
  intro j m hm c hc
  rw [live_alloc]
  rcases mem_chain_alloc.mp hm with ⟨rfl, rfl⟩ | hmj
  · simp only [MarkState.alloc, Function.update_self] at hc
    exact .inr (hpay c hc)
  · have hmn : m ≠ n := by
      rintro rfl
      exact hn ⟨j, hmj⟩
    simp only [MarkState.alloc, Function.update_of_ne hmn] at hc
    exact .inr (h j m hmj c hc)

/-- No node that stays may refer to one that is unlinked. -/
theorem RefsLive.unlink (h : s.RefsLive)
    (hstay : ∀ j, ∀ m ∈ s.chain j, (j = i → s.garbage m = false) →
      ∀ c ∈ s.refs m, c ∈ s.chain i → s.garbage c = false) : (s.unlink i).RefsLive := by
  intro j m hm c hc
  obtain ⟨hmj, hkept⟩ := mem_chain_unlink.mp hm
  obtain ⟨k, hk⟩ := h j m hmj c hc
  refine ⟨k, mem_chain_unlink.mpr ⟨hk, ?_⟩⟩
  rintro rfl
  exact hstay j m hmj hkept c hc hk

theorem RefsLive.drop (h : s.RefsLive)
    (hstay : ∀ j, j ≠ i → ∀ m ∈ s.chain j, ∀ c ∈ s.refs m, c ∉ s.chain i) :
    (s.drop i).RefsLive := by
  intro j m hm c hc
  obtain ⟨hmj, hji⟩ := mem_chain_drop.mp hm
  obtain ⟨k, hk⟩ := h j m hmj c hc
  refine ⟨k, mem_chain_drop.mpr ⟨hk, ?_⟩⟩
  rintro rfl
  exact hstay j hji m hmj c hc hk

/-! ### What makes a sweep safe -/

/-- What an unfinished cycle may be trusted with. -/
structure Inv (s : MarkState) : Prop extends Wf s where
  /-- Entries of a gray list are live nodes of its partition. -/
  entry : ∀ i, ∀ n ∈ s.gray i, n ∈ s.chain i
  /-- Gray nodes are waiting. -/
  gray_mem : ∀ i, s.marking i = true → ∀ n ∈ s.chain i, s.color n = .gray → n ∈ s.gray i
  /-- Protected nodes have been found. -/
  prot_marked : ∀ i, s.marking i = true → ∀ n ∈ s.chain i, s.prot n = true → s.color n ≠ .white
  /-- Black nodes have no white child in their partition. -/
  closed : ∀ i, s.marking i = true → ∀ n ∈ s.chain i, s.color n = .black →
    ∀ c ∈ s.refs n, c ∈ s.chain i → s.color c ≠ .white
  /-- References of live nodes are live. -/
  refs_live : ∀ i, ∀ n ∈ s.chain i, ∀ c ∈ s.refs n, s.Live c

theorem Shades.color_ne_white (h : Shades s t) (hm : s.color m ≠ .white) : t.color m ≠ .white := by
  rcases h.color m with hm' | ⟨hm', _⟩
  · rwa [hm']
  · simp [hm']

/-- **Shading** keeps the invariant. -/
theorem Inv.shades (h : s.Inv) (hst : Shades s t) : t.Inv := by
  refine { h.toWf.shades hst with
           entry := ?_, gray_mem := ?_, prot_marked := ?_, closed := ?_, refs_live := ?_ }
  · rw [hst.chain]
    intro i n hn
    exact (hst.entry i n hn).elim (h.entry i n) And.left
  · rw [hst.chain, hst.marking]
    intro i hi n hn hg
    rcases hst.color n with hn' | ⟨-, hn'⟩
    · exact hst.gray i n (h.gray_mem i hi n hn (hn' ▸ hg))
    · exact hn' i hn hi
  · rw [hst.chain, hst.marking]
    intro i hi n hn hp
    rcases hst.prot n hp with hp | hp
    · exact hst.color_ne_white (h.prot_marked i hi n hn hp)
    · rcases hp i hn hi with hb | ⟨hg, -⟩
      · simp [hb]
      · simp [hg]
  · rw [hst.chain, hst.marking, hst.refs]
    intro i hi n hn hb c hc hci
    rcases hst.color n with hn' | ⟨hn', -⟩
    · exact hst.color_ne_white (h.closed i hi n hn (hn' ▸ hb) c hc hci)
    · rw [hn'] at hb
      cases hb
  · simp only [Live, hst.chain, hst.refs]
    exact h.refs_live

/-- **Payload writes.** An added reference must be live and, below a black node, must not be to a
white node of the same partition. -/
theorem Inv.setRefs (h : s.Inv) {payload : Payload}
    (hpay : ∀ c ∈ payload, c ∈ s.refs n ∨ (s.Live c ∧
      ∀ i, n ∈ s.chain i → s.marking i = true → s.color n = .black → c ∈ s.chain i →
        s.color c ≠ .white)) : (s.setRefs n payload).Inv := by
  refine { h.toWf.setRefs n payload with
           entry := h.entry, gray_mem := h.gray_mem, prot_marked := h.prot_marked,
           closed := ?_
           refs_live := RefsLive.setRefs h.refs_live fun c hc => (hpay c hc).imp_right And.left }
  intro i hi m hm hb c hc hci
  by_cases hmn : m = n
  · subst hmn
    simp only [MarkState.setRefs, Function.update_self] at hc
    rcases hpay c hc with hc | ⟨-, hc⟩
    · exact h.closed i hi m hm hb c hc hci
    · exact hc i hm hi hb hci
  · simp only [MarkState.setRefs, Function.update_of_ne hmn] at hc
    exact h.closed i hi m hm hb c hc hci

/-- **Allocation.** The new node is white, and nothing refers to it yet. -/
theorem Inv.alloc (h : s.Inv) {payload : Payload} (hi : i < s.count) (hn : ¬ s.Live n)
    (hpay : ∀ c ∈ payload, s.Live c) : (s.alloc i n payload).Inv := by
  have hne : ∀ {j m}, m ∈ s.chain j → m ≠ n := by
    rintro j m hm rfl
    exact hn ⟨j, hm⟩
  -- what is true of every node that was there before stays true of it
  have hold : ∀ {j m}, m ∈ (s.alloc i n payload).chain j → (s.alloc i n payload).color m ≠ .white ∨
      (s.alloc i n payload).prot m = true → m ∈ s.chain j := by
    intro j m hm hmark
    rcases mem_chain_alloc.mp hm with ⟨rfl, rfl⟩ | hm
    · simp [MarkState.alloc] at hmark
    · exact hm
  refine { h.toWf.alloc hi hn with
           entry := ?_, gray_mem := ?_, prot_marked := ?_, closed := ?_
           refs_live := RefsLive.alloc h.refs_live hn hpay }
  · exact fun j m hm => mem_chain_alloc.mpr (.inr (h.entry j m hm))
  · intro j hj m hm hg
    have hm := hold hm (.inl (by simp [hg]))
    exact h.gray_mem j hj m hm (by simpa [MarkState.alloc, hne hm] using hg)
  · intro j hj m hm hp
    have hm := hold hm (.inr hp)
    have := h.prot_marked j hj m hm (by simpa [MarkState.alloc, hne hm] using hp)
    simpa [MarkState.alloc, hne hm] using this
  · intro j hj m hm hb c hc hcj
    have hm := hold hm (.inl (by simp [hb]))
    have hc : c ∈ s.refs m := by simpa [MarkState.alloc, hne hm] using hc
    obtain ⟨k, hk⟩ := h.refs_live j m hm c hc
    have hcj : c ∈ s.chain j := by
      rcases mem_chain_alloc.mp hcj with ⟨rfl, -⟩ | hcj
      · exact absurd rfl (hne hk)
      · exact hcj
    have hb : s.color m = .black := by simpa [MarkState.alloc, hne hm] using hb
    simpa [MarkState.alloc, hne hcj] using h.closed j hj m hm hb c hc hcj

theorem Inv.pop (h : s.Inv) {rest : List NodePtr} (hg : s.gray i = n :: rest)
    (hn : s.color n ≠ .gray) : (s.pop i n rest).Inv := by
  refine { h.toWf.pop hg with
           entry := ?_, gray_mem := ?_, prot_marked := h.prot_marked, closed := h.closed,
           refs_live := h.refs_live }
  · exact fun j m hm => h.entry j m (mem_gray_of_pop hg hm)
  · intro j hj m hm hc
    have hmn : m ≠ n := by
      rintro rfl
      exact hn hc
    exact mem_gray_pop hg hmn (h.gray_mem j hj m hm hc)

theorem Inv.requeue (h : s.Inv) (n : NodePtr) : (s.requeue n).Inv :=
  { h.toWf.requeue n with
    entry := h.entry, gray_mem := h.gray_mem, prot_marked := h.prot_marked, closed := h.closed,
    refs_live := h.refs_live }

theorem color_trace_ne_white {cs : List NodePtr} (hm : m = n ∨ m ∈ cs ∨ s.color m ≠ .white) :
    (s.trace n cs).color m ≠ .white := by
  simp only [trace]
  split
  · simp
  · split
    · simp
    · next hmn hcs =>
      rcases hm with hm | hm | hm
      · exact absurd hm hmn
      · have : s.color m = .black := by simpa [hm] using hcs
        simp [this]
      · exact hm

theorem color_of_trace_gray {cs : List NodePtr} (hc : (s.trace n cs).color m = .gray) :
    m ≠ n ∧ ((m ∈ cs ∧ s.color m ≠ .black) ∨ s.color m = .gray) := by
  simp only [trace] at hc
  split at hc
  · cases hc
  · next hmn =>
    refine ⟨hmn, ?_⟩
    split at hc
    · next hcs => exact .inl hcs
    · exact .inr hc

theorem color_of_trace_black {cs : List NodePtr} (hb : (s.trace n cs).color m = .black) :
    m = n ∨ s.color m = .black := by
  simp only [trace] at hb
  split at hb
  · next hmn => exact .inl hmn
  · split at hb
    · cases hb
    · exact .inr hb

/-- **Tracing.** Popping a gray node and tracing its children keeps the invariant. -/
theorem Inv.trace (h : s.Inv) {rest cs : List NodePtr} (hg : s.gray i = n :: rest)
    (hcs : ∀ c, c ∈ cs ↔ c ∈ s.refs n) : ((s.pop i n rest).trace n cs).Inv := by
  have hni : n ∈ s.chain i := h.entry i n (hg ▸ List.mem_cons_self)
  have hwf : ((s.pop i n rest).trace n cs).Wf := (h.toWf.pop hg).trace n cs
  have hwhite : ∀ {m}, m = n ∨ m ∈ cs ∨ s.color m ≠ .white →
      ((s.pop i n rest).trace n cs).color m ≠ .white := color_trace_ne_white
  refine { hwf with
           entry := ?_, gray_mem := ?_, prot_marked := ?_, closed := ?_, refs_live := h.refs_live }
  · intro j m hm
    rcases mem_gray_trace.mp hm with hm | ⟨-, hm, -, hpid⟩
    · exact h.entry j m (mem_gray_of_pop hg hm)
    · exact (h.mem_chain_iff (h.refs_live i n hni m ((hcs m).mp hm))).mpr hpid
  · intro j hj m hm hc
    rw [mem_gray_trace]
    obtain ⟨hmn, hmc | hc⟩ := color_of_trace_gray hc
    · exact .inr ⟨h.lt_count hm, hmc.1, hmc.2, h.own j m hm⟩
    · exact .inl (mem_gray_pop hg hmn (h.gray_mem j hj m hm hc))
  · exact fun j hj m hm hp => hwhite (.inr (.inr (h.prot_marked j hj m hm hp)))
  · intro j hj m hm hb c hc hcj
    rcases color_of_trace_black hb with rfl | hb
    · exact hwhite (.inr (.inl ((hcs c).mpr hc)))
    · exact hwhite (.inr (.inr (h.closed j hj m hm hb c hc hcj)))

theorem Inv.reset (h : s.Inv) (i : ℕ) : (s.reset i).Inv := by
  refine { h.toWf.reset i with
           entry := ?_, gray_mem := ?_, prot_marked := ?_, closed := ?_, refs_live := h.refs_live }
  · exact fun j m hm => h.entry j m (mem_gray_reset.mp hm).1
  · intro j hj m hm hc
    obtain ⟨hji, hj⟩ := marking_reset.mp hj
    exact mem_gray_reset.mpr ⟨h.gray_mem j hj m hm (h.color_reset hji hm ▸ hc), hji⟩
  · intro j hj m hm hp
    obtain ⟨hji, hj⟩ := marking_reset.mp hj
    rw [h.color_reset hji hm]
    exact h.prot_marked j hj m hm hp
  · intro j hj m hm hb c hc hcj
    obtain ⟨hji, hj⟩ := marking_reset.mp hj
    rw [h.color_reset hji hm] at hb
    rw [h.color_reset hji hcj]
    exact h.closed j hj m hm hb c hc hcj

/-- Once the list of a marking partition is empty, everything protected in it is black, and black
nodes have only black children in the partition. -/
theorem Inv.black_of_done (h : s.Inv) (hi : s.marking i = true) (hg : s.gray i = [])
    (hm : m ∈ s.chain i) (hw : s.color m ≠ .white) : s.color m = .black := by
  cases hc : s.color m with
  | white => exact absurd hc hw
  | gray => exact absurd (h.gray_mem i hi m hm hc) (by simp [hg])
  | black => rfl

/-- **Sweeping.** Unlinking the garbage of a partition whose list is empty keeps the invariant, if
no node of another partition refers to that garbage. -/
theorem Inv.unlink (h : s.Inv) (hi : s.marking i = true) (hg : s.gray i = [])
    (hcross : ∀ j, j ≠ i → ∀ m ∈ s.chain j, ∀ c ∈ s.refs m, c ∈ s.chain i → s.garbage c = false) :
    (s.unlink i).Inv := by
  have hmarking : ∀ {j}, (s.unlink i).marking j = true → s.marking j = true := by
    intro j hj
    by_cases hji : j = i
    · exact hji ▸ hi
    · simpa [MarkState.unlink, hji] using hj
  refine { h.toWf.unlink i with
           entry := ?_, gray_mem := ?_, prot_marked := ?_, closed := ?_, refs_live := ?_ }
  · intro j m hm
    have hji : j ≠ i := by
      rintro rfl
      simp [MarkState.unlink, hg] at hm
    exact mem_chain_unlink.mpr ⟨h.entry j m hm, fun hj => absurd hj hji⟩
  · exact fun j hj m hm hc => h.gray_mem j (hmarking hj) m (mem_chain_unlink.mp hm).1 hc
  · exact fun j hj m hm hp => h.prot_marked j (hmarking hj) m (mem_chain_unlink.mp hm).1 hp
  · exact fun j hj m hm hb c hc hcj => h.closed j (hmarking hj) m (mem_chain_unlink.mp hm).1 hb c hc
      (mem_chain_unlink.mp hcj).1
  · refine RefsLive.unlink h.refs_live fun j m hmj hkept c hc hk => ?_
    by_cases hji : j = i
    · -- a survivor is black, so its child is not white
      subst hji
      have hw : s.color m ≠ .white := by
        intro hw
        have hp : s.prot m = true := by simpa [garbage, hw] using hkept rfl
        exact h.prot_marked j hi m hmj hp hw
      have := h.closed j hi m hmj (h.black_of_done hi hg hmj hw) c hc hk
      simp [garbage, this]
    · exact hcross j hji m hmj c hc hk

/-- **Teardown.** Dropping a partition keeps the invariant, if no other partition refers to it. -/
theorem Inv.drop (h : s.Inv) (i : ℕ)
    (hcross : ∀ j, j ≠ i → ∀ m ∈ s.chain j, ∀ c ∈ s.refs m, c ∉ s.chain i) : (s.drop i).Inv := by
  refine { h.toWf.drop i with
           entry := ?_, gray_mem := ?_, prot_marked := ?_, closed := ?_
           refs_live := RefsLive.drop h.refs_live hcross }
  · intro j m hm
    obtain ⟨hm, hji⟩ := mem_gray_drop.mp hm
    exact mem_chain_drop.mpr ⟨h.entry j m hm, hji⟩
  · intro j hj m hm hc
    obtain ⟨hji, hj⟩ := marking_drop.mp hj
    exact mem_gray_drop.mpr ⟨h.gray_mem j hj m (mem_chain_drop.mp hm).1 hc, hji⟩
  · intro j hj m hm hp
    exact h.prot_marked j (marking_drop.mp hj).2 m (mem_chain_drop.mp hm).1 hp
  · intro j hj m hm hb c hc hcj
    exact h.closed j (marking_drop.mp hj).2 m (mem_chain_drop.mp hm).1 hb c hc
      (mem_chain_drop.mp hcj).1

/-- What a partition must be like, if its gray list has entries that survived its last cycle or that
another partition's marker put there, for a new cycle to begin soundly. -/
def Startable (s : MarkState) (i : ℕ) : Prop :=
  s.gray i = [] ∨ ∀ n ∈ s.chain i, s.prot n = false →
    s.color n ≠ .black ∧ (s.color n = .gray → n ∈ s.gray i)

/-- **Beginning a cycle.** It keeps the invariant, if every partition that is not marking is
startable. -/
theorem Inv.prepared (h : s.Inv) (hp : Prepared s t)
    (hstart : ∀ i, s.marking i = false → s.Startable i) : t.Inv := by
  -- the colour of a node that is not protected, when its list had entries
  have hkeep : ∀ {i m}, m ∈ s.chain i → t.color m ≠ .white → s.prot m = false →
      s.gray i ≠ [] ∧ t.color m = s.color m := by
    intro i m hm hw hprot
    have hc := hp.color i m hm
    rw [if_neg (by simp [hprot])] at hc
    by_cases hg : s.gray i = []
    · simp [hg] at hc
      exact absurd hc hw
    · rw [if_neg hg] at hc
      exact ⟨hg, hc⟩
  have hwf := h.toWf.prepared hp
  have hgray : ∀ {i m}, m ∈ s.chain i → s.prot m = true → m ∈ t.gray i := by
    intro i m hm hprot
    rw [hp.mem_gray i (h.lt_count hm)]
    by_cases hl : s.listed m = true
    · exact .inl (h.listed_mem i m hm hl)
    · exact .inr ⟨hm, hprot, .inr (by simpa using hl)⟩
  refine { hwf with
           entry := ?_, gray_mem := ?_, prot_marked := ?_, closed := ?_, refs_live := ?_ }
  · intro i m hm
    rw [hp.chain]
    by_cases hi : i < s.count
    · rcases (hp.mem_gray i hi m).mp hm with hm | ⟨hm, -⟩
      · exact h.entry i m hm
      · exact hm
    · have hi := Nat.le_of_not_lt hi
      rw [(hp.range i hi).1, (h.range i hi).2.1] at hm
      cases hm
  · rw [hp.chain]
    intro i hi m hm hc
    by_cases hprot : s.prot m = true
    · exact hgray hm hprot
    · have hprot : s.prot m = false := by simpa using hprot
      obtain ⟨hg, hcol⟩ := hkeep hm (by simp [hc]) hprot
      refine (hp.mem_gray i (h.lt_count hm) m).mpr (.inl ?_)
      by_cases hmark : s.marking i = true
      · exact h.gray_mem i hmark m hm (hcol ▸ hc)
      · rcases hstart i (by simpa using hmark) with hnil | hst
        · exact absurd hnil hg
        · exact (hst m hm hprot).2 (hcol ▸ hc)
  · rw [hp.chain, hp.prot]
    intro i hi m hm hprot
    rw [hp.color i m hm, if_pos hprot]
    simp
  · rw [hp.chain, hp.refs]
    intro i hi m hm hb c hc hci
    have hprot : s.prot m = false := by
      by_contra hprot
      rw [hp.color i m hm, if_pos (by simpa using hprot)] at hb
      cases hb
    obtain ⟨hg, hcol⟩ := hkeep hm (by simp [hb]) hprot
    rw [hcol] at hb
    have hmark : s.marking i = true := by
      by_contra hmark
      rcases hstart i (by simpa using hmark) with hnil | hst
      · exact hg hnil
      · exact (hst m hm hprot).1 hb
    have hcw := h.closed i hmark m hm hb c hc hci
    rw [hp.color i c hci, if_neg hg]
    split
    · simp
    · exact hcw
  · simp only [Live, hp.chain, hp.refs]
    exact h.refs_live

end MarkState

end GcLite
