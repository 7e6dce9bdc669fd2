import GcLite.Incremental

/-!
# Gray lists

A node may be put on a gray list in six places. Most of them pick the list of the node's own
partition; protecting a node through a scope picks the list of the scope's. And a node that is freed
while another one still refers to it may be found, and listed, after its end. If neither happens,
gray lists hold what they are meant to hold, whatever the interleaving: live nodes of their own
partition, and while a partition is marking, every protected node of it that is not black yet.

What a collection frees can be told from the heap before it: the nodes that begin the cycle white
and that the cycle does not find from the entries of its list. A node that is black from an earlier
cycle is not traced again.

## Main definitions

* `MarkState.Orderly` — what the lists hold, with what it rests on
* `MarkState.finds`, `MarkState.frees` — what a cycle finds from where it stands, and leaves white
* `Op.frees` — what an operation frees
* `KeepsLists` — the condition on the operations
* `GcHeap.ListsIntact` — the integrity of the lists

## Main results

* `Orderly.garbage_iff` — what a collection frees
* `Orderly.step` — every operation that meets the condition keeps the lists in order
* `lists_intact` — so every run of them does
-/

namespace GcLite

open Relation Transition

namespace MarkState

variable {s t u : MarkState} {i j : ℕ} {n m c : NodePtr} {a : MarkAction} {as : List MarkAction}

/-- The gray lists are in order. -/
structure Orderly (s : MarkState) : Prop extends Wf s where
  /-- Entries are live nodes of the partition. -/
  entry : ∀ i, ∀ n ∈ s.gray i, n ∈ s.chain i
  /-- Entries have been reached. -/
  entry_color : ∀ i, ∀ n ∈ s.gray i, s.color n ≠ .white
  /-- Protected nodes have been traced or are waiting. -/
  waiting : ∀ i, s.marking i = true → ∀ n ∈ s.chain i, s.prot n = true →
    s.color n = .black ∨ n ∈ s.gray i
  /-- References of live nodes are live. -/
  refs_live : ∀ i, ∀ n ∈ s.chain i, ∀ c ∈ s.refs n, s.Live c

/-! ### The mutator -/

theorem Orderly.shades (h : s.Orderly) (hst : Shades s t) : t.Orderly := by
  refine { h.toWf.shades hst with
           entry := ?_, entry_color := ?_, waiting := ?_, refs_live := ?_ }
  · rw [hst.chain]
    exact fun i n hn => (hst.entry i n hn).elim (h.entry i n) And.left
  · intro i n hn
    rcases hst.entry i n hn with hn | ⟨-, hg⟩
    · exact hst.color_ne_white (h.entry_color i n hn)
    · simp [hg]
  · rw [hst.chain, hst.marking]
    intro i hi n hn hp
    rcases hst.prot n hp with hp | hp
    · rcases h.waiting i hi n hn hp with hb | hg
      · exact (hst.color n).imp (fun heq => heq.trans hb) fun hin => hin.2 i hn hi
      · exact .inr (hst.gray i n hg)
    · exact (hp i hn hi).imp_right And.right
  · simp only [Live, hst.chain, hst.refs]
    exact h.refs_live

theorem Orderly.setRefs (h : s.Orderly) {payload : Payload}
    (hpay : ∀ c ∈ payload, c ∈ s.refs n ∨ s.Live c) : (s.setRefs n payload).Orderly := by
  refine { h.toWf.setRefs n payload with
           entry := h.entry, entry_color := h.entry_color, waiting := h.waiting
           refs_live := RefsLive.setRefs h.refs_live hpay }

theorem Orderly.alloc (h : s.Orderly) {payload : Payload} (hi : i < s.count) (hn : ¬ s.Live n)
    (hpay : ∀ c ∈ payload, s.Live c) : (s.alloc i n payload).Orderly := by
  have hne : ∀ {j m}, m ∈ s.chain j → m ≠ n := by
    rintro j m hm rfl
    exact hn ⟨j, hm⟩
  refine { h.toWf.alloc hi hn with
           entry := ?_, entry_color := ?_, waiting := ?_
           refs_live := RefsLive.alloc h.refs_live hn hpay }
  · exact fun j m hm => mem_chain_alloc.mpr (.inr (h.entry j m hm))
  · intro j m hm
    simpa [MarkState.alloc, hne (h.entry j m hm)] using h.entry_color j m hm
  · intro j hj m hm hp
    rcases mem_chain_alloc.mp hm with ⟨rfl, rfl⟩ | hm
    · simp [MarkState.alloc] at hp
    · have := h.waiting j hj m hm (by simpa [MarkState.alloc, hne hm] using hp)
      simpa [MarkState.alloc, hne hm] using this

theorem Orderly.create (h : s.Orderly) : Orderly { s with count := s.count + 1 } :=
  { h.toWf.create with
    entry := h.entry, entry_color := h.entry_color, waiting := h.waiting, refs_live := h.refs_live }

/-- When protecting a node through partition `i` leaves the lists in order: that is its own
partition, or its own is not marking or has found it, and the list of `i` gets no entry. -/
def Protectable (s : MarkState) (i : ℕ) (n : NodePtr) : Prop :=
  s.pid n = i ∨ s.color n = .black ∨
    (if s.marking i then s.listed n = true
      else s.marking (s.pid n) = true → n ∈ s.gray (s.pid n))

theorem Orderly.gray_of_mem (h : s.Orderly) (hn : n ∈ s.gray i) :
    s.color n = .black ∨ s.color n = .gray := by
  cases hc : s.color n with
  | white => exact absurd hc (h.entry_color i n hn)
  | gray => exact .inr rfl
  | black => exact .inl rfl

theorem Orderly.protect (h : s.Orderly) (hn : s.Live n) (hok : s.Protectable i n) :
    (s.protect i n).Orderly := by
  have hmem : n ∈ s.chain (s.pid n) := (h.mem_chain_iff hn).mpr rfl
  rcases hok with rfl | hb | hok
  · exact h.shades (.protect_own h.toWf hn)
  · exact h.shades (.protect_found h.toWf (fun _ => .inl hb) fun _ => .inl hb)
  · split at hok
    · have hin := h.listed_mem _ n hmem hok
      exact h.shades (.protect_found h.toWf
        (fun _ => (h.gray_of_mem hin).imp_right fun hg => ⟨hg, hok⟩)
        fun _ => (h.gray_of_mem hin).imp_right fun hg => ⟨hg, hin⟩)
    · next hi =>
      exact h.shades (.protect_found h.toWf (fun hi' => absurd hi' hi) fun hmark =>
        (h.gray_of_mem (hok hmark)).imp_right fun hg => ⟨hg, hok hmark⟩)

/-! ### The marker -/

theorem Orderly.prepared (h : s.Orderly) (hp : Prepared s t) : t.Orderly := by
  have hprot : ∀ {j m}, m ∈ s.chain j → s.prot m = true → m ∈ t.gray j := by
    intro j m hm hprot
    rw [hp.mem_gray j (h.lt_count hm)]
    by_cases hl : s.listed m = true
    · exact .inl (h.listed_mem j m hm hl)
    · exact .inr ⟨hm, hprot, .inr (by simpa using hl)⟩
  have hentry : ∀ j, ∀ m ∈ t.gray j, m ∈ s.gray j ∨ (m ∈ s.chain j ∧ s.prot m = true) := by
    intro j m hm
    by_cases hj : j < s.count
    · exact ((hp.mem_gray j hj m).mp hm).imp_right fun hm => ⟨hm.1, hm.2.1⟩
    · rw [(hp.range j (Nat.le_of_not_lt hj)).1] at hm
      exact .inl hm
  refine { h.toWf.prepared hp with
           entry := ?_, entry_color := ?_, waiting := ?_, refs_live := ?_ }
  · rw [hp.chain]
    exact fun j m hm => (hentry j m hm).elim (h.entry j m) And.left
  · intro j m hm
    rcases hentry j m hm with hm | ⟨hm, hprot⟩
    · rw [hp.color j m (h.entry j m hm)]
      split
      · simp
      · rw [if_neg (List.ne_nil_of_mem hm)]
        exact h.entry_color j m hm
    · rw [hp.color j m hm, if_pos hprot]
      simp
  · rw [hp.chain, hp.prot]
    exact fun j _ m hm hp => .inr (hprot hm hp)
  · simp only [Live, hp.chain, hp.refs]
    exact h.refs_live

theorem Orderly.markStep (h : s.Orderly) (hst : MarkStep i s a t) : t.Orderly := by
  have hwf := hst.wf h.toWf
  cases hst with
  | @skip n rest hg hn =>
    have hold : ∀ {j m}, m ∈ (s.pop i n rest).gray j → m ∈ s.gray j := by
      intro j m hm
      by_cases hj : j = i
      · subst hj
        simp only [pop, Function.update_self] at hm
        exact hg ▸ List.mem_cons_of_mem _ hm
      · simpa only [pop, Function.update_of_ne hj] using hm
    refine { hwf with
             entry := fun j m hm => h.entry j m (hold hm)
             entry_color := fun j m hm => h.entry_color j m (hold hm)
             waiting := fun j hj m hm hp => ?_
             refs_live := h.refs_live }
    by_cases hmn : m = n
    · subst hmn
      -- what is skipped has been traced
      exact .inl ((h.gray_of_mem (hg ▸ List.mem_cons_self)).resolve_right hn)
    · exact (h.waiting j hj m hm hp).imp_right (mem_gray_pop hg hmn)
  | @trace n rest cs hg hn hcs =>
    have hni : n ∈ s.chain i := h.entry i n (hg ▸ List.mem_cons_self)
    have hold : ∀ {j m}, m ∈ ((s.pop i n rest).trace n cs).gray j →
        m ∈ s.gray j ∨ (m ∈ cs ∧ s.pid m = j) := by
      intro j m hm
      rcases mem_gray_trace.mp hm with hm | ⟨-, hm, -, hpid⟩
      · exact .inl (mem_gray_of_pop hg hm)
      · exact .inr ⟨hm, hpid⟩
    refine { hwf with entry := ?_, entry_color := ?_, waiting := ?_, refs_live := h.refs_live }
    · intro j m hm
      rcases hold hm with hm | ⟨hm, hpid⟩
      · exact h.entry j m hm
      · exact (h.mem_chain_iff (h.refs_live i n hni m ((hcs m).mp hm))).mpr hpid
    · intro j m hm
      exact color_trace_ne_white (.inr ((hold hm).symm.imp And.left (h.entry_color j m)))
    · intro j hj m hm hp
      by_cases hmn : m = n
      · exact .inl (by simp [trace, hmn])
      · rcases h.waiting j hj m hm hp with hb | hin
        · exact .inl (by simp [trace, pop, hmn, hb])
        · exact .inr (mem_gray_trace.mpr (.inl (mem_gray_pop hg hmn hin)))
  | requeue hg hn =>
    exact { hwf with
            entry := h.entry, entry_color := h.entry_color, waiting := h.waiting
            refs_live := h.refs_live }

theorem Orderly.markRun (h : s.Orderly) (hr : Run (MarkStep i) s as t) : t.Orderly :=
  hr.invariant (fun _ _ _ hs hst => hs.markStep hst) h

theorem Orderly.reset (h : s.Orderly) (i : ℕ) : (s.reset i).Orderly := by
  refine { h.toWf.reset i with
           entry := fun j m hm => h.entry j m (mem_gray_reset.mp hm).1
           entry_color := fun j m hm => ?_, waiting := fun j hj m hm hp => ?_
           refs_live := h.refs_live }
  · obtain ⟨hm, hji⟩ := mem_gray_reset.mp hm
    rw [h.color_reset hji (h.entry j m hm)]
    exact h.entry_color j m hm
  · obtain ⟨hji, hj⟩ := marking_reset.mp hj
    rw [h.color_reset hji hm]
    exact (h.waiting j hj m hm hp).imp_right fun hm => mem_gray_reset.mpr ⟨hm, hji⟩

/-- **Sweeping** keeps the lists in order, if no node that stays refers to one that goes. -/
theorem Orderly.unlink (h : s.Orderly) (hg : s.gray i = [])
    (hstay : ∀ j, ∀ m ∈ s.chain j, (j = i → s.garbage m = false) →
      ∀ c ∈ s.refs m, c ∈ s.chain i → s.garbage c = false) : (s.unlink i).Orderly := by
  refine { h.toWf.unlink i with
           entry := fun j m hm => mem_chain_unlink.mpr ⟨h.entry j m hm, ?_⟩
           entry_color := h.entry_color, waiting := fun j hj m hm hp => ?_
           refs_live := RefsLive.unlink h.refs_live hstay }
  · rintro rfl
    simp [MarkState.unlink, hg] at hm
  · by_cases hji : j = i
    · simp [MarkState.unlink, hji] at hj
    · exact h.waiting j (by simpa [MarkState.unlink, hji] using hj) m (mem_chain_unlink.mp hm).1 hp

/-- **Teardown** keeps the lists in order, if no other partition refers to the one that goes. -/
theorem Orderly.drop (h : s.Orderly)
    (hstay : ∀ j, j ≠ i → ∀ m ∈ s.chain j, ∀ c ∈ s.refs m, c ∉ s.chain i) :
    (s.drop i).Orderly := by
  refine { h.toWf.drop i with
           entry := fun j m hm => ?_
           entry_color := fun j m hm => h.entry_color j m (mem_gray_drop.mp hm).1
           waiting := fun j hj m hm hp => ?_, refs_live := RefsLive.drop h.refs_live hstay }
  · obtain ⟨hm, hji⟩ := mem_gray_drop.mp hm
    exact mem_chain_drop.mpr ⟨h.entry j m hm, hji⟩
  · obtain ⟨hji, hj⟩ := marking_drop.mp hj
    exact (h.waiting j hj m (mem_chain_drop.mp hm).1 hp).imp_right
      fun hm => mem_gray_drop.mpr ⟨hm, hji⟩

/-! ### What a cycle finds -/

/-- The colour of a node when partition `i` goes on with its cycle, or when it begins a new one. -/
def startColor (s : MarkState) (i : ℕ) (n : NodePtr) : GcTriColor :=
  if s.marking i then s.color n
  else if s.prot n then .gray
  else if s.gray (s.pid n) = [] then .white
  else s.color n

/-- The gray entries of the list at that time. -/
def pending (s : MarkState) (i : ℕ) : Set NodePtr :=
  {n | s.startColor i n = .gray ∧
    (n ∈ s.gray i ∨ (s.marking i = false ∧ n ∈ s.chain i ∧ s.prot n = true))}

/-- A reference to a node of partition `i` that has not been traced by then. -/
def openEdge (s : MarkState) (i : ℕ) (m c : NodePtr) : Prop :=
  c ∈ s.refs m ∧ c ∈ s.chain i ∧ s.startColor i c ≠ .black

/-- What the cycle of partition `i` traces if it goes on to its end. -/
def finds (s : MarkState) (i : ℕ) : Set NodePtr := TriColor.reach (s.openEdge i) (s.pending i)

/-- What a sweep at the end of the cycle frees. -/
def frees (s : MarkState) (i : ℕ) : Set NodePtr :=
  {n | n ∈ s.chain i ∧ s.prot n = false ∧ s.startColor i n = .white ∧ n ∉ s.finds i}

theorem startColor_of_marking (hm : s.marking i = true) : s.startColor i n = s.color n := if_pos hm

theorem Started.color (hst : Started i s t) (h : s.Owned) (hn : n ∈ s.chain i) :
    t.color n = s.startColor i n := by
  cases hst with
  | going hm => exact (startColor_of_marking hm).symm
  | fresh hm hp =>
    rw [hp.color i n hn]
    simp only [startColor, hm, h.own i n hn, Bool.false_eq_true, if_false]

/-- Beginning a cycle does not change what it finds. -/
theorem Started.finds (hst : Started i s t) (h : s.Orderly) (hi : i < s.count) :
    t.finds i = s.finds i := by
  have hmark := hst.marking hi
  have hcolor : ∀ n ∈ s.chain i, t.startColor i n = s.startColor i n := fun n hn =>
    (startColor_of_marking hmark).trans (hst.color h.toOwned hn)
  have hedge : t.openEdge i = s.openEdge i := by
    funext m c
    rw [openEdge, openEdge, hst.chain, hst.refs]
    refine propext (and_congr_right fun _ => and_congr_right fun hc => ?_)
    rw [hcolor c hc]
  have hpending : t.pending i = s.pending i := by
    ext n
    cases hst with
    | going _ => rfl
    | @fresh t hm hp =>
      have hgray := hp.mem_gray i hi n
      have hin : n ∈ t.gray i ↔ n ∈ s.gray i ∨ (n ∈ s.chain i ∧ s.prot n = true) := by
        rw [hgray]
        refine ⟨Or.imp_right fun hn => ⟨hn.1, hn.2.1⟩, ?_⟩
        rintro (hn | ⟨hn, hprot⟩)
        · exact .inl hn
        · by_cases hl : s.listed n = true
          · exact .inl (h.listed_mem i n hn hl)
          · exact .inr ⟨hn, hprot, .inr (by simpa using hl)⟩
      simp only [pending, Set.mem_ofPred_eq, hmark, hm, hin, Bool.true_eq_false, false_and,
        or_false, true_and]
      refine and_congr_left fun hn => ?_
      rw [hcolor n (hn.elim (h.entry i n) And.left)]
  rw [MarkState.finds, MarkState.finds, hedge, hpending]

theorem Started.frees (hst : Started i s t) (h : s.Orderly) (hi : i < s.count) :
    t.frees i = s.frees i := by
  ext n
  simp only [MarkState.frees, Set.mem_ofPred_eq, hst.finds h hi, hst.chain, hst.prot]
  refine and_congr_right fun hn => ?_
  rw [startColor_of_marking (hst.marking hi), hst.color h.toOwned hn]

/-- What has been traced since `s₀`, and what waits on the list to be. -/
def worklist (s₀ s : MarkState) (i : ℕ) : TriColor.Marking NodePtr where
  gray := {n | n ∈ s.gray i ∧ s.color n = .gray}
  black := {n | s.color n = .black ∧ s₀.color n ≠ .black}

/-- Tracing an entry is a tri-colour step of the references that do not lead to what was black at
the start. -/
theorem Orderly.worklist_step {s₀ : MarkState} (h : s.Orderly) (hsame : SameGraph s₀ s)
    (hm : s₀.marking i = true) (hblack : ∀ n, s₀.color n = .black → s.color n = .black)
    (hst : MarkStep i s a t) :
    TriColor.Steps (s₀.openEdge i) (worklist s₀ s i) (worklist s₀ t i) := by
  cases hst with
  | requeue hg hn => exact .refl
  | @skip n rest hg hn =>
    have hgray : ∀ m, (m ∈ rest ∧ s.color m = .gray) ↔ (m ∈ s.gray i ∧ s.color m = .gray) := by
      intro m
      refine and_congr_left fun hm => ?_
      rw [hg, List.mem_cons, or_iff_right]
      rintro rfl
      exact hn hm
    have hsnap : worklist s₀ (s.pop i n rest) i = worklist s₀ s i := by
      simp only [worklist, pop, Function.update_self, hgray]
    rw [hsnap]
  | @trace n rest cs hg hn hcs =>
    have hni : n ∈ s.chain i := h.entry i n (hg ▸ List.mem_cons_self)
    have hedge : ∀ m, s₀.openEdge i n m ↔ m ∈ cs ∧ m ∈ s.chain i ∧ s₀.color m ≠ .black := by
      intro m
      rw [openEdge, startColor_of_marking hm, hcs, hsame.chain, hsame.refs]
    have hgray : ∀ m, (m ∈ ((s.pop i n rest).trace n cs).gray i ∧
          ((s.pop i n rest).trace n cs).color m = .gray) ↔
        ((m ∈ s.gray i ∧ s.color m = .gray) ∨
          (s₀.openEdge i n m ∧ ¬ (s.color m = .black ∧ s₀.color m ≠ .black))) ∧ m ≠ n := by
      intro m
      rw [mem_gray_trace, hedge]
      constructor
      · rintro ⟨hin, hcol⟩
        obtain ⟨hmn, hfound⟩ := color_of_trace_gray hcol
        refine ⟨?_, hmn⟩
        have hchain : m ∈ s.chain i := by
          rcases hin with hin | ⟨-, hmc, -, hpid⟩
          · simp only [pop, Function.update_self] at hin
            exact h.entry i m (hg ▸ List.mem_cons_of_mem _ hin)
          · exact (h.mem_chain_iff (h.refs_live i n hni m ((hcs m).mp hmc))).mpr hpid
        by_cases hmc : m ∈ cs ∧ s.color m ≠ .black
        · exact .inr ⟨⟨hmc.1, hchain, fun hb => hmc.2 (hblack m hb)⟩, fun hb => hmc.2 hb.1⟩
        · have hin : m ∈ rest := by
            rcases hin with hin | ⟨-, hin, hb, -⟩
            · simpa only [pop, Function.update_self] using hin
            · exact absurd ⟨hin, hb⟩ hmc
          exact .inl ⟨hg ▸ List.mem_cons_of_mem _ hin, hfound.resolve_left hmc⟩
      · rintro ⟨⟨hin, hcol⟩ | ⟨⟨hmc, hchain, hb₀⟩, hb⟩, hmn⟩
        · refine ⟨.inl (mem_gray_pop hg hmn hin), ?_⟩
          simp [trace, pop, hmn, hcol]
        · have hb : s.color m ≠ .black := fun hb' => hb ⟨hb', hb₀⟩
          refine ⟨.inr ⟨h.lt_count hchain, hmc, hb, h.own i m hchain⟩, ?_⟩
          simp [trace, pop, hmn, hmc, hb]
    have hbl : ∀ m, (((s.pop i n rest).trace n cs).color m = .black ∧ s₀.color m ≠ .black) ↔
        m = n ∨ (s.color m = .black ∧ s₀.color m ≠ .black) := by
      intro m
      by_cases hmn : m = n
      · subst hmn
        have hb₀ : s₀.color m ≠ .black := fun hb => by simp [hblack m hb] at hn
        simp [trace, hb₀]
      · by_cases hb : s.color m = .black
        · simp [trace, pop, hmn, hb]
        · by_cases hmc : m ∈ cs <;> simp [trace, pop, hmn, hb, hmc]
    have hsnap : worklist s₀ ((s.pop i n rest).trace n cs) i =
        ⟨((worklist s₀ s i).gray ∪ {w | s₀.openEdge i n w ∧ w ∉ (worklist s₀ s i).black}) \ {n},
          insert n (worklist s₀ s i).black⟩ := by
      simp only [worklist, TriColor.Marking.mk.injEq]
      exact ⟨Set.ext hgray, Set.ext hbl⟩
    rw [hsnap]
    exact .single (.trace ⟨hg ▸ List.mem_cons_self, hn⟩)

theorem MarkStep.color_black (h : MarkStep i s a t) (hm : s.color m = .black) :
    t.color m = .black := by
  cases h with
  | skip hg hn => exact hm
  | requeue hg hn => exact hm
  | @trace n rest cs hg hn hcs =>
    by_cases hmn : m = n
    · simp [MarkState.trace, hmn]
    · simp [MarkState.trace, MarkState.pop, hmn, hm]

theorem Orderly.worklist_run (h : s.Orderly) (hm : s.marking i = true)
    (hr : Run (MarkStep i) s as t) :
    TriColor.Steps (s.openEdge i) (worklist s s i) (worklist s t i) := by
  refine (hr.invariant (I := fun u => (u.Orderly ∧ SameGraph s u) ∧
    (∀ n, s.color n = .black → u.color n = .black) ∧
    TriColor.Steps (s.openEdge i) (worklist s s i) (worklist s u i)) ?_
    ⟨⟨h, .refl s⟩, fun _ hb => hb, .refl⟩).2.2
  rintro u a v ⟨⟨hu, hsame⟩, hblack, hsteps⟩ hst
  exact ⟨⟨hu.markStep hst, hsame.trans hst.sameGraph⟩, fun n hb => hst.color_black (hblack n hb),
    hsteps.trans (hu.worklist_step hsame hm hblack hst)⟩

theorem worklist_self (hm : s.marking i = true) : (worklist s s i).marked = s.pending i := by
  ext n
  simp [TriColor.Marking.marked, worklist, pending, startColor_of_marking hm, hm, and_comm]

/-- Every entry that a run comes to trace is one that the cycle finds. -/
theorem Orderly.mem_finds (h : s.Orderly) (hm : s.marking i = true) (hr : Run (MarkStep i) s as t)
    (hn : n ∈ t.gray i) (hg : t.color n = .gray) : n ∈ s.finds i := by
  have hsub := (h.worklist_run hm hr).marked_subset_reach
  rw [worklist_self hm] at hsub
  exact hsub (.inl ⟨hn, hg⟩)

/-- **A finished run** has traced exactly what the cycle finds. -/
theorem Orderly.black_iff (h : s.Orderly) (hm : s.marking i = true) (hr : Run (MarkStep i) s as t)
    (hdone : t.gray i = []) : t.color n = .black ↔ s.color n = .black ∨ n ∈ s.finds i := by
  have hsteps := h.worklist_run hm hr
  have hclosed : (worklist s s i).Closed (s.openEdge i) := fun v hv => absurd hv.1 hv.2
  have hgray : (worklist s t i).gray = ∅ := by simp [worklist, hdone]
  have hblack := hsteps.black_eq_reach hclosed hgray
  rw [worklist_self hm] at hblack
  have hiff : (t.color n = .black ∧ s.color n ≠ .black) ↔ n ∈ s.finds i :=
    Set.ext_iff.mp hblack n
  have hmono : s.color n = .black → t.color n = .black := fun hb =>
    hr.invariant (I := fun u => u.color n = .black) (fun _ _ _ hb hst => hst.color_black hb) hb
  rw [← hiff]
  by_cases hb : s.color n = .black
  · simp [hb, hmono hb]
  · simp [hb]

/-- In its own partition, a run lists what it grays. -/
theorem gray_mem_of_markRun (h : s.Owned) (hr : Run (MarkStep i) s as t) (hn : n ∈ s.chain i)
    (hg : t.color n = .gray) : s.color n = .gray ∨ n ∈ t.gray i := by
  have hi := h.lt_count hn
  have hpid := h.own i n hn
  refine (hr.invariant (I := fun u => (u.count = s.count ∧ u.pid = s.pid) ∧
    (u.color n = .gray → s.color n = .gray ∨ n ∈ u.gray i)) ?_
    ⟨⟨rfl, rfl⟩, fun hg => .inl hg⟩).2 hg
  rintro u a v ⟨⟨hcount, hupid⟩, hu⟩ hst
  have hsame := hst.sameGraph
  refine ⟨⟨hsame.count.trans hcount, hsame.pid.trans hupid⟩, fun hg => ?_⟩
  cases hst with
  | @skip m rest hgray hm =>
    refine (hu hg).imp_right (mem_gray_pop hgray ?_)
    rintro rfl
    exact hm hg
  | requeue hgray hm => exact hu hg
  | @trace m rest cs hgray hm hcs =>
    obtain ⟨hnm, hfound⟩ := color_of_trace_gray hg
    rcases hfound with ⟨hnc, hb⟩ | hg
    · exact .inr (mem_gray_trace.mpr (.inr ⟨hcount ▸ hi, hnc, hb, hupid ▸ hpid⟩))
    · exact (hu hg).imp_right fun hin => mem_gray_trace.mpr (.inl (mem_gray_pop hgray hnm hin))

/-- **What a collection frees** is known from where it stands before. -/
theorem Orderly.garbage_iff (h : s.Orderly) (hi : i < s.count) (hst : Started i s t)
    (hr : Run (MarkStep i) t as u) (hdone : u.gray i = []) (hn : n ∈ s.chain i) :
    u.garbage n = true ↔ n ∈ s.frees i := by
  have ht : t.Orderly := by
    cases hst with
    | going hm => exact h
    | fresh hm hp => exact h.prepared hp
  have hm := hst.marking hi
  have hnt : n ∈ t.chain i := hst.chain ▸ hn
  have hwhite : u.color n = .white ↔ t.color n = .white ∧ n ∉ t.finds i := by
    have hblack := ht.black_iff hm hr hdone (n := n)
    constructor
    · intro hw
      refine ⟨?_, fun hfinds => ?_⟩
      · by_contra hne
        exact markRun_color_ne_white hr hne hw
      · rw [hblack.mpr (.inr hfinds)] at hw
        cases hw
    · rintro ⟨hw, hno⟩
      cases hc : u.color n with
      | white => rfl
      | gray =>
        rcases gray_mem_of_markRun ht.toOwned hr hnt hc with hg | hin
        · rw [hw] at hg
          cases hg
        · rw [hdone] at hin
          cases hin
      | black =>
        rcases hblack.mp hc with hb | hfinds
        · rw [hw] at hb
          cases hb
        · exact absurd hfinds hno
  have hprot : u.prot n = t.prot n := by rw [(markRun_sameGraph hr).prot]
  calc u.garbage n = true
    _ ↔ u.color n = .white ∧ t.prot n = false := by simp [garbage, hprot]
    _ ↔ (t.color n = .white ∧ n ∉ t.finds i) ∧ t.prot n = false := by rw [hwhite]
    _ ↔ n ∈ t.frees i := by
      rw [MarkState.frees, Set.mem_ofPred_eq, startColor_of_marking hm, and_comm, and_iff_right hnt]
    _ ↔ n ∈ s.frees i := by rw [hst.frees h hi]

end MarkState

/-! ### Every step -/

/-- The operations that free nodes. -/
def Op.isReclaiming : Op → Bool
  | .sweep _ | .garbageCollect _ | .removePartition _ _ => true
  | _ => false

/-- What an operation frees. -/
def Op.frees (h : GcHeap) : Op → Set NodePtr
  | .sweep i => {n | (h.view.marking i = true ∧ h.view.gray i = []) ∧ n ∈ h.view.frees i}
  | .garbageCollect i => h.view.frees i
  | .removePartition i _ => {n | n ∈ h.view.chain i}
  | _ => ∅

/-- A node that is added to a scope may be protected through the scope's partition, and no node that
stays refers to one that is freed. -/
structure KeepsLists (h : GcHeap) (op : Op) : Prop where
  /-- Protecting the node leaves the lists in order. -/
  protect : ∀ i n, op.protects h = some (i, n) → (h.head n).isRootOrLocal = false →
    h.view.Protectable i n
  /-- Who stays refers to nothing that is freed. -/
  refs : ∀ m, h.Live m → m ∉ op.frees h → ∀ c ∈ h.refs m, c ∉ op.frees h

/-- Operations that free nothing and protect nodes through their own partitions are among them. -/
theorem keepsLists_of_own {h : GcHeap} {op : Op} (hop : op.isReclaiming = false)
    (hprot : ∀ r, op.protects h = some r → (h.head r.2).partitionId = r.1) : KeepsLists h op := by
  refine ⟨fun i n hin _ => .inl (hprot (i, n) hin), fun m _ _ c _ hc => ?_⟩
  cases op <;> first | exact hc | cases hop

namespace MarkState

variable {h h' : GcHeap} {op : Op} {s t : MarkState} {e : MarkEvent} {i : ℕ}

theorem Orderly.emitStep (hs : s.Orderly) (hst : EmitStep h op s e t) (hop : KeepsLists h op)
    (hno : op.isReclaiming = false) : t.Orderly := by
  obtain ⟨ht, hem⟩ := hst
  cases ht with
  | create => exact hs.create
  | alloc hi hn hpay => exact hs.alloc hi hn hpay
  | protect hn =>
    cases hem with
    | protect_own => exact hs.protect hn (.inl rfl)
    | protect hop' hview hprot =>
      subst hview
      exact hs.protect hn (hop.protect _ _ hop' hprot)
  | unprotect hun => exact hs.shades (.unprotects hun)
  | @bind m c payload hm hc hpay =>
    rw [bind_setRefs]
    have hst : Shades s (s.bind m c) := .bind hs.toWf hc
    refine (hs.shades hst).setRefs fun d hd => ?_
    rw [hst.refs, Live, hst.chain]
    refine (hpay d hd).imp_right ?_
    rintro rfl
    exact hc
  | @barrier n payload hn hpay =>
    have hst : Shades s (s.regray n) := .regray hs.toWf hn
    refine (hs.shades hst).setRefs fun c hc => ?_
    rw [hst.refs, Live, hst.chain]
    exact hpay c hc
  | removeRefs hn hpay => exact hs.setRefs fun c hc => .inl (hpay c hc)
  | prepare _ _ hp => exact hs.prepared hp
  | entry hst => exact hs.markStep hst
  | reset _ => exact hs.reset _
  | unlink _ _ _ =>
    cases hem with
    | unlink hop' => rcases hop' with ⟨rfl, -⟩ | rfl <;> cases hno
  | drop =>
    cases hem with
    | drop hop' =>
      subst hop'
      cases hno

/-- A sweep that frees what the operation is said to free. -/
theorem Orderly.unlink_of_frees (hs : s.Orderly) (hg : s.gray i = []) (hop : KeepsLists h op)
    (hchain : s.chain = h.view.chain) (hrefs : s.refs = h.view.refs)
    (hfrees : ∀ n ∈ s.chain i, s.garbage n = true ↔ n ∈ op.frees h)
    (hsub : ∀ n ∈ op.frees h, n ∈ s.chain i) : (s.unlink i).Orderly := by
  refine hs.unlink hg fun j m hm hkept c hc hci => ?_
  have hstay : m ∉ op.frees h := by
    intro hm'
    obtain rfl := hs.eq_of_mem hm (hsub m hm')
    have hgarbage := (hfrees m hm).mpr hm'
    rw [hkept rfl] at hgarbage
    cases hgarbage
  have hc' : c ∉ op.frees h := by
    rw [hchain] at hm
    rw [hrefs] at hc
    exact hop.refs m ⟨j, hm⟩ hstay c hc
  exact Bool.eq_false_iff.mpr fun hgarbage => hc' ((hfrees c hci).mp hgarbage)

/-- **Every operation that meets the condition keeps the lists in order.** -/
theorem Orderly.step (hs : h.view.Orderly) (hmem : h.MemInv) (hst : Step h op h')
    (hop : KeepsLists h op) : h'.view.Orderly := by
  cases op with
  | sweep i =>
    cases hst.2
    rw [GcHeap.view_twoPhaseSweep]
    by_cases hdone : i < h.view.count ∧ h.view.marking i = true ∧ h.view.gray i = []
    · obtain ⟨hi, hm, hg⟩ := hdone
      rw [(GcHeap.view_sweepUnlink hi hm hg).1]
      refine hs.unlink_of_frees hg hop rfl rfl (fun n hn => ?_) fun n hn => hn.2.1
      rw [hs.garbage_iff hi (.going hm) (.nil _) hg hn]
      exact ⟨fun hn => ⟨⟨hm, hg⟩, hn⟩, And.right⟩
    · rwa [GcHeap.sweepUnlink_of_not_done hdone]
  | garbageCollect i =>
    obtain ⟨⟨h₁, bytes⟩, hgc, rfl⟩ := Option.map_eq_some_iff.mp hst.2
    rcases GcHeap.garbageCollect_run hmem.owned hgc with ⟨-, rfl, -⟩ |
      ⟨hi, h₂, s, as, -, hstart, hr, hdone, -, -, hview⟩
    · exact hs
    · have hs' : s.Orderly := by
        cases hstart with
        | going hm => exact hs
        | fresh hm hp => exact hs.prepared hp
      have hsame := markRun_sameGraph hr
      have hchain : h₂.view.chain = h.view.chain := hsame.chain.trans hstart.chain
      change h₁.view.Orderly
      rw [hview]
      refine (hs'.markRun hr).unlink_of_frees hdone hop hchain (hsame.refs.trans hstart.refs)
        (fun n hn => ?_) fun n hn => ?_
      · exact hs.garbage_iff hi hstart hr hdone (hchain ▸ hn)
      · rw [hchain]
        exact hn.1
  | removePartition i sys =>
    obtain ⟨⟨h₁, bytes⟩, hok, rfl⟩ := Option.map_eq_some_iff.mp hst.2
    rcases GcHeap.view_removePartition hok with rfl | ⟨s, hun, hview⟩
    · exact hs
    · have hst : Shades h.view s := .unprotects hun
      rw [hview]
      refine (hs.shades hst).drop fun j hj m hm c hc hci => ?_
      rw [hst.chain] at hm hci
      rw [hst.refs] at hc
      exact hop.refs m ⟨j, hm⟩ (fun hmi => hj (hs.eq_of_mem hm hmi)) c hc hci
  | _ =>
    obtain ⟨es, hes⟩ := hst.events hmem
    exact hes.invariant (I := Orderly) (fun _ _ _ hs hst => hs.emitStep hst hop rfl) hs

theorem orderly_new (registry : GcTypeRegistry) : (GcHeap.new registry).view.Orderly := by
  have henc := enclosed_new registry
  have hmark : ∀ i, (GcHeap.new registry).view.marking i = false := fun i =>
    GcHeap.marking_of_length_le (Nat.zero_le i)
  have hgray : ∀ i, (GcHeap.new registry).view.gray i = [] := fun i => henc.idle i (hmark i)
  refine { henc.toWf with
           entry := henc.entry, entry_color := fun i n hn => ?_, waiting := fun i hi => ?_
           refs_live := henc.refs_live }
  · rw [hgray] at hn
    cases hn
  · rw [hmark] at hi
    cases hi

end MarkState

/-- In every run of such operations. -/
theorem orderly_of_reachable {C : GcHeap → Op → Prop} {h : GcHeap} (hr : ReachableWith C h)
    (hC : ∀ g op, C g op → KeepsLists g op) : h.MemInv ∧ h.view.Orderly := by
  obtain ⟨registry, hr⟩ := hr
  refine hr.invariant (I := fun h => h.MemInv ∧ h.view.Orderly) (fun g op g' hg hst => ?_)
    ⟨GcHeap.MemInv.new registry, MarkState.orderly_new registry⟩
  exact ⟨hg.1.step hst.1, hg.2.step hg.1 hst.1 (hC g op hst.2)⟩

/-- The integrity of the gray lists: their entries are live nodes of their partitions, and a root or
local of a partition that is marking is black or on its list. -/
structure GcHeap.ListsIntact (h : GcHeap) : Prop where
  /-- An entry is alive, and it is one of the list's own partition. -/
  entry : ∀ i, ∀ n ∈ (h.par i).grayList, h.Live n ∧ (h.head n).partitionId = i
  /-- A root or local of a partition in a cycle is black or listed. -/
  waiting : ∀ i, (h.par i).marking = true → ∀ n ∈ (h.par i).nodes, (h.head n).isRootOrLocal = true →
    (h.head n).color = .black ∨ n ∈ (h.par i).grayList

/-- **Gray-list integrity.** In every run, whatever the interleaving, in which nodes are protected
through scopes of other partitions only where that puts them on no list and misses none, and nothing
is freed to which a node that stays refers, the gray lists are intact. -/
theorem lists_intact {h : GcHeap} (hr : ReachableWith KeepsLists h) : h.ListsIntact := by
  have hs := (orderly_of_reachable hr fun _ _ hop => hop).2
  exact ⟨fun i n hn => ⟨⟨i, hs.entry i n hn⟩, hs.own i n (hs.entry i n hn)⟩, hs.waiting⟩

/-- A root and a node that is added to a scope of its own partition while that is marking. -/
theorem lists_intact_scope : ∃ h : GcHeap, (h.par 0).grayList = [1000, 2000] ∧ h.ListsIntact := by
  obtain ⟨h, hr, hlist⟩ : ∃ h, ReachableWith (fun h op => op.isReclaiming = false ∧
      ∀ r, op.protects h = some r → (h.head r.2).partitionId = r.1) h ∧
      (h.par 0).grayList = [1000, 2000] :=
    exists_of_play (gcTypeTableInternal 24 8 [⟨8, 8, true, none⟩])
      [.createPartition 0 0 none, .allocRaw 0 0 [] (some 1000), .allocRootRaw 0 0 [] (some 2000),
        .mark 0 0, .acquireScopeStack 0, .newScope 0, .addNonLocal 0 0 1000]
      (by decide +kernel)
  exact ⟨h, hlist, lists_intact (hr.mono fun _ _ hop => keepsLists_of_own hop.1 hop.2)⟩

/-- A node that is added to a scope of another partition while that is marking. -/
theorem addNonLocal_lists_foreign : ∃ h : GcHeap, Reachable h ∧ ¬ h.ListsIntact := by
  obtain ⟨h, hr, hlist, hpid⟩ : ∃ h, Reachable h ∧ (h.par 0).grayList = [1000] ∧
      (h.head 1000).partitionId = 1 :=
    exists_of_play (gcTypeTableInternal 24 8 [⟨8, 8, true, none⟩])
      [.createPartition 0 0 none, .createPartition 0 0 none, .mark 0 64,
        .allocRaw 1 0 [] (some 1000), .acquireScopeStack 0, .newScope 0, .addNonLocal 0 0 1000]
      (by decide +kernel)
  refine ⟨h, hr, fun hintact => ?_⟩
  have := (hintact.entry 0 1000 (by rw [hlist]; exact List.mem_singleton_self _)).2
  rw [hpid] at this
  cases this

end GcLite
