import GcLite.Arena
import GcLite.Library.Run

/-!
# What holds of an arena

The representation invariant of the arena, kept by each operation and hence by every run.

The invariant speaks about three lists that the arena itself does not store: the outstanding
`blocks`, with the size each was asked for; the addresses `free` on the free list, in list order;
and the `holes` collected since the last `finishSweep`. All three become spans of offsets, and the
invariant says that these spans do not overlap and lie below the frontier.

The free list is a chain of pointers through `mem`. A block's owner may write anything into its
block, so the run below has a step that changes `mem` wherever a block covers it. The chain
survives because no block overlaps a free entry.

## Main definitions

* `Block`, `FreeChain`, `GcArena.Inv` — the invariant
* `ArenaState`, `ArenaStep` — an arena with its outstanding blocks, and one operation on them

## Main results

* `mergeAdjacent_eq_coalesce` — the in-place two-pointer loop is the merging of touching spans
* `findFit_spec` — the first-fit walk unlinks one entry of sufficient size, or there is none
* `GcArena.Inv.alloc`, `GcArena.Inv.collectHole`, `GcArena.Inv.finishSweep`
* `arena_safe` — every reachable arena is `GcArena.Safe`
-/

namespace GcLite

open Spans Transition

/-! ## The in-place merge -/

/-- What the loop of `mergeAdjacent` maintains before reading index `r`: everything below the write
index is final, and merging the entry at the write index with the unread rest gives what is left. -/
private def MergeInv (holes : List Hole) (r : ℕ) (st : List Hole × ℕ) : Prop :=
  st.1.length = holes.length ∧ st.2 < r ∧ st.1.drop r = holes.drop r ∧
    st.1.take st.2 ++ coalesceFrom (st.1.getD st.2 default) (holes.drop r) = coalesce holes

private theorem take_succ_getD {hs : List Hole} {wi : ℕ} (h : wi < hs.length) :
    hs.take (wi + 1) = hs.take wi ++ [hs.getD wi default] := by
  rw [List.take_add_one, List.getD_eq_getElem?_getD, List.getElem?_eq_getElem h]
  rfl

private theorem mergeInv_step {holes : List Hole} {r : ℕ} {st : List Hole × ℕ}
    (hr : r < holes.length) (h : MergeInv holes r st) :
    MergeInv holes (r + 1) (mergeStep st r) := by
  obtain ⟨hs, wi⟩ := st
  obtain ⟨hlen, hwi, hdrop, hmerge⟩ := h
  dsimp only at hlen hwi hdrop hmerge
  have hrs : r < hs.length := hlen ▸ hr
  have hread : hs.getD r default = holes[r] := by
    have := congrArg (fun l => l.getD 0 default) hdrop
    simpa [List.getD_eq_getElem?_getD, List.getElem?_eq_getElem, hr, hrs] using this
  have hrest : holes.drop r = holes[r] :: holes.drop (r + 1) := List.drop_eq_getElem_cons hr
  have hdrop' : hs.drop (r + 1) = holes.drop (r + 1) := by
    rw [← List.drop_drop, ← List.drop_drop, hdrop]
  rw [hrest, coalesceFrom] at hmerge
  simp only [mergeStep, hread]
  split at hmerge
  · next htouch =>
    -- the read hole touches the written one: grow the written one in place
    rw [if_pos (show (hs.getD wi default).offset + _ = _ from htouch)]
    refine ⟨by simpa using hlen, by dsimp only; omega, ?_, ?_⟩
    · rw [← hdrop', List.drop_set_of_lt (by omega)]
    · rw [← hmerge, List.take_set_of_le (Nat.le_refl wi)]
      simp [List.getD_eq_getElem?_getD, show wi < hs.length by omega]
  · next htouch =>
    -- the written hole is final: the read one becomes the next written one
    rw [if_neg (show ¬ (hs.getD wi default).offset + _ = _ from htouch)]
    have hcur := take_succ_getD (show wi < hs.length by omega)
    rcases Nat.eq_or_lt_of_le (show wi + 1 ≤ r by omega) with heq | hlt
    · rw [if_neg (by omega)]
      refine ⟨hlen, by dsimp only; omega, hdrop', ?_⟩
      dsimp only
      rw [hcur, heq, hread, ← hmerge]
      simp
    · rw [if_pos (by omega)]
      refine ⟨by simpa [swapHoles] using hlen, by dsimp only; omega, ?_, ?_⟩
      · simp only [swapHoles]
        rw [List.drop_set_of_lt (by omega), List.drop_set_of_lt (by omega), hdrop']
      · simp only [swapHoles, hread]
        rw [List.take_set_of_le (by omega), List.take_set_of_le (by omega), hcur, ← hmerge]
        simp [List.getD_eq_getElem?_getD, show wi + 1 < hs.length by omega,
          show r ≠ wi + 1 by omega]

/-- **The two-pointer loop merges.** No order is assumed of the holes. -/
theorem mergeAdjacent_eq_coalesce (holes : List Hole) : mergeAdjacent holes = coalesce holes := by
  rcases holes with _ | ⟨s, l⟩
  · rfl
  have hloop : ∀ k, k ≤ l.length →
      MergeInv (s :: l) (k + 1) ((List.range' 1 k).foldl mergeStep (s :: l, 0)) := by
    intro k
    induction k with
    | zero => intro _; simp [MergeInv, coalesce]
    | succ k ih =>
      intro hk
      rw [List.range'_1_concat, List.foldl_append, List.foldl_cons, List.foldl_nil,
        Nat.add_comm 1 k]
      exact mergeInv_step (by rw [List.length_cons]; omega) (ih (by omega))
  have h := hloop l.length (Nat.le_refl _)
  simp only [mergeAdjacent, List.isEmpty_cons, Bool.false_eq_true, if_false, List.length_cons,
    Nat.add_sub_cancel]
  obtain ⟨hlen, hwi, -, hmerge⟩ := h
  rw [List.drop_eq_nil_of_le (by simp), coalesceFrom] at hmerge
  rw [← hmerge, take_succ_getD (by rw [hlen, List.length_cons]; omega)]

/-! ## The free list as a chain of pointers -/

/-- The entries `l`, in order, are what following `next` from `cur` visits before it ends. -/
def FreeChain (mem : ℕ → FreeEntry) : Option ℕ → List ℕ → Prop
  | cur, [] => cur = none
  | cur, a :: l => cur = some a ∧ FreeChain mem (mem a).next l

/-- There is only one such list. -/
theorem FreeChain.unique {mem : ℕ → FreeEntry} {cur : Option ℕ} {l l' : List ℕ}
    (h : FreeChain mem cur l) (h' : FreeChain mem cur l') : l = l' := by
  induction l generalizing cur l' with
  | nil =>
    cases l' with
    | nil => rfl
    | cons b l' => cases h.symm.trans h'.1
  | cons a l ih =>
    cases l' with
    | nil => cases h.1.symm.trans h'
    | cons b l' =>
      obtain rfl := Option.some.inj (h.1.symm.trans h'.1)
      rw [ih h.2 h'.2]

theorem FreeChain.frame {mem mem' : ℕ → FreeEntry} {cur : Option ℕ} {l : List ℕ}
    (h : FreeChain mem cur l) (heq : ∀ a ∈ l, (mem' a).next = (mem a).next) :
    FreeChain mem' cur l := by
  induction l generalizing cur with
  | nil => exact h
  | cons a l ih =>
    refine ⟨h.1, ?_⟩
    rw [heq a List.mem_cons_self]
    exact ih h.2 fun b hb => heq b (List.mem_cons_of_mem _ hb)

/-- Writing the successor's `next` over an entry's own unlinks the successor. -/
theorem FreeChain.unlink {mem : ℕ → FreeEntry} {cur : Option ℕ} (pre : List ℕ) {post : List ℕ}
    {p e : ℕ} (h : FreeChain mem cur (pre ++ p :: e :: post))
    (hnd : (pre ++ p :: e :: post).Nodup) :
    FreeChain (Function.update mem p { mem p with next := (mem e).next }) cur
      (pre ++ p :: post) := by
  induction pre generalizing cur with
  | nil =>
    obtain ⟨hp, -, hpost⟩ := h
    refine ⟨hp, ?_⟩
    rw [Function.update_self]
    refine hpost.frame fun a ha => ?_
    have hap : a ≠ p := by
      rintro rfl
      simp [ha] at hnd
    rw [Function.update_of_ne hap]
  | cons a pre ih =>
    rw [List.cons_append, List.nodup_cons] at hnd
    have hap : a ≠ p := by
      rintro rfl
      simp at hnd
    refine ⟨h.1, ?_⟩
    rw [Function.update_of_ne hap]
    exact ih h.2 hnd.2

/-- **The first-fit walk.** Started at `curr`, with the entries `pre` behind it and `rest` ahead, it
either unlinks one entry of `rest` that is large enough, and changes nothing else, or every entry
of `rest` is too small. -/
theorem findFit_spec (needed : ℕ) {A : GcArena} {rest : List ℕ} :
    ∀ (fuel : ℕ) (pre : List ℕ) (prev curr : Option ℕ), rest.length < fuel →
      prev = pre.getLast? → FreeChain A.mem curr rest →
      FreeChain A.mem A.freeHead (pre ++ rest) → (pre ++ rest).Nodup →
      match GcArena.findFit needed fuel A prev curr with
      | none => ∀ a ∈ rest, (A.mem a).size < needed
      | some (e, A') => ∃ mid post, rest = mid ++ e :: post ∧ needed ≤ (A.mem e).size ∧
          FreeChain A'.mem A'.freeHead (pre ++ mid ++ post) ∧
          (∀ a, (A'.mem a).size = (A.mem a).size) ∧
          A' = { A with freeHead := A'.freeHead, mem := A'.mem } := by
  induction rest with
  | nil =>
    rintro (_ | fuel) pre prev curr hfuel _ hcurr _ _
    · omega
    · obtain rfl : curr = none := hcurr
      simp [GcArena.findFit]
  | cons entry rest ih =>
    rintro (_ | fuel) pre prev curr hfuel hprev hcurr hchain hnd
    · omega
    obtain ⟨rfl, hcurr⟩ := hcurr
    rw [GcArena.findFit]
    by_cases hfit : needed ≤ (A.mem entry).size
    · rw [if_pos hfit]
      cases hp : prev with
      | none =>
        obtain rfl : pre = [] := List.getLast?_eq_none_iff.mp (hprev.symm.trans hp)
        exact ⟨[], rest, rfl, hfit, by simpa using hcurr, fun _ => rfl, rfl⟩
      | some p =>
        obtain ⟨pre', rfl⟩ := List.getLast?_eq_some_iff.mp (hprev.symm.trans hp)
        refine ⟨[], rest, rfl, hfit, ?_, fun a => ?_, rfl⟩
        · simpa [GcArena.writeFreeNext] using
            FreeChain.unlink pre' (by simpa using hchain) (by simpa using hnd)
        · by_cases hap : a = p
          · subst hap; simp [GcArena.writeFreeNext]
          · simp [GcArena.writeFreeNext, Function.update_of_ne hap]
    · rw [if_neg hfit]
      have h := ih fuel (pre ++ [entry]) (some entry) (A.mem entry).next (by simpa using hfuel)
        (by simp) hcurr (by simpa using hchain) (by simpa using hnd)
      cases hfind : GcArena.findFit needed fuel A (some entry) (A.mem entry).next with
      | none =>
        rw [hfind] at h
        intro a ha
        rcases List.mem_cons.mp ha with rfl | ha
        · omega
        · exact h a ha
      | some found =>
        rw [hfind] at h
        obtain ⟨mid, post, rfl, hsize, hchain', hsizes, hA'⟩ := h
        exact ⟨entry :: mid, post, rfl, hsize, by simpa using hchain', hsizes, hA'⟩

/-- The walk moves pointers only: the arena's region stays where it is. -/
theorem findFit_region {needed fuel : ℕ} {A A' : GcArena} {prev curr : Option ℕ} {e : ℕ}
    (h : GcArena.findFit needed fuel A prev curr = some (e, A')) :
    A'.base = A.base ∧ A'.capacity = A.capacity := by
  induction fuel generalizing prev curr with
  | zero => cases h
  | succ fuel ih =>
    rcases curr with _ | entry
    · cases h
    rw [GcArena.findFit] at h
    split at h
    · rcases prev with _ | p <;>
        (obtain ⟨-, rfl⟩ := Prod.mk.inj (Option.some.inj h); exact ⟨rfl, rfl⟩)
    · exact ih h

/-- Neither does allocation move it. -/
theorem GcArena.alloc_region {A A' : GcArena} {layout : Layout} {ptr : ℕ}
    (h : A.alloc layout = some (ptr, A')) : A'.base = A.base ∧ A'.capacity = A.capacity := by
  simp only [GcArena.alloc, GcArena.allocFromFreeList] at h
  split at h
  · obtain ⟨-, rfl⟩ := Prod.mk.inj (Option.some.inj h)
    exact ⟨rfl, rfl⟩
  · split at h
    · next hfind =>
      have hregion := findFit_region hfind
      obtain ⟨-, rfl⟩ := Prod.mk.inj (Option.some.inj h)
      exact hregion
    · cases h

theorem GcArena.collectHole_region (A : GcArena) (holes : List Hole) (node size : ℕ) :
    (A.collectHole holes node size).1.base = A.base ∧
      (A.collectHole holes node size).1.capacity = A.capacity := by
  unfold GcArena.collectHole
  dsimp only
  split <;> exact ⟨rfl, rfl⟩

theorem GcArena.finishSweep_region (A : GcArena) (holes : List Hole) :
    (A.finishSweep holes).1.base = A.base ∧ (A.finishSweep holes).1.capacity = A.capacity := by
  have hpush : ∀ (hs : List Hole) (B : GcArena), (hs.foldl GcArena.pushFree B).base = B.base ∧
      (hs.foldl GcArena.pushFree B).capacity = B.capacity := by
    intro hs
    induction hs with
    | nil => exact fun B => ⟨rfl, rfl⟩
    | cons hole hs ih => exact fun B => ih (B.pushFree hole)
  unfold GcArena.finishSweep
  split
  · exact ⟨rfl, rfl⟩
  · exact hpush _ _

theorem GcArena.finishSweep_holes (A : GcArena) (holes : List Hole) :
    (A.finishSweep holes).2 = [] := by
  unfold GcArena.finishSweep
  split <;> rfl

theorem GcArena.new_region {A : GcArena} {capacity : ℕ} {sys : Option ℕ}
    (h : GcArena.new capacity sys = some A) : sys = some A.base ∧ A.capacity = capacity := by
  simp only [GcArena.new, Option.bind_eq_bind, Option.bind_eq_some_iff, Option.pure_def,
    Option.some.injEq] at h
  obtain ⟨-, -, ptr, rfl, rfl⟩ := h
  exact ⟨rfl, rfl⟩

theorem GcArena.new_bump {A : GcArena} {capacity : ℕ} {sys : Option ℕ}
    (h : GcArena.new capacity sys = some A) : A.bump = 0 := by
  simp only [GcArena.new, Option.bind_eq_bind, Option.bind_eq_some_iff, Option.pure_def,
    Option.some.injEq] at h
  obtain ⟨-, -, ptr, -, rfl⟩ := h
  rfl

/-! ## The invariant -/

/-- An outstanding block: the pointer `alloc` returned and the size it was asked for. -/
structure Block where
  /-- Its address. -/
  ptr : ℕ
  /-- The size that was asked for. -/
  size : ℕ
deriving DecidableEq, Repr

/-- The bytes of a block, as offsets from the base. -/
def Block.span (base : ℕ) (b : Block) : Span := ⟨b.ptr - base, max b.size minAllocSize⟩

namespace GcArena

/-- The bytes of the free entry at address `a`. -/
def freeSpan (A : GcArena) (a : ℕ) : Span := ⟨a - A.base, (A.mem a).size⟩

/-- Every span the arena has to account for. -/
def spans (A : GcArena) (blocks : List Block) (free : List ℕ) (holes : List Hole) : List Span :=
  blocks.map (Block.span A.base) ++ (free.map A.freeSpan ++ holes)

/-- The representation invariant, with outstanding `blocks`, free list `free` and `holes` waiting
for the end of the sweep. -/
structure Inv (A : GcArena) (blocks : List Block) (free : List ℕ) (holes : List Hole) : Prop where
  /-- The capacity is one that `GcArena::new` accepts. -/
  small : A.capacity + 16 ≤ 2 ^ 63
  /-- The frontier stays inside. -/
  bump_le : A.bump ≤ A.capacity
  /-- Blocks lie in the arena. -/
  block_base : ∀ b ∈ blocks, A.base ≤ b.ptr
  /-- So do free entries. -/
  free_base : ∀ a ∈ free, A.base ≤ a
  /-- The next words lead through the free list. -/
  chain : FreeChain A.mem A.freeHead free
  /-- Blocks, free entries and holes are disjoint. -/
  apart : Apart (A.spans blocks free holes)
  /-- They lie below the frontier. -/
  inside : ∀ s ∈ A.spans blocks free holes, s.stop ≤ A.bump
  /-- Each has room for an entry. -/
  min_size : ∀ s ∈ A.spans blocks free holes, minAllocSize ≤ s.size
  /-- The free list is in address order. -/
  increasing : Increasing (free.map A.freeSpan)
  /-- Every block counts. -/
  live : A.liveCount = blocks.length

theorem mem_spans {A : GcArena} {blocks : List Block} {free : List ℕ} {holes : List Hole}
    {s : Span} : s ∈ A.spans blocks free holes ↔
      (∃ b ∈ blocks, b.span A.base = s) ∨ (∃ a ∈ free, A.freeSpan a = s) ∨ s ∈ holes := by
  simp [spans]

/-- One entry of the free list, and the rest. -/
theorem perm_spans (A : GcArena) (blocks : List Block) (holes : List Hole) (pre post : List ℕ)
    (entry : ℕ) : (A.spans blocks (pre ++ entry :: post) holes).Perm
      (A.freeSpan entry :: A.spans blocks (pre ++ post) holes) := by
  simp only [spans, List.map_append, List.map_cons, List.append_assoc]
  rw [← List.append_assoc, ← List.append_assoc (blocks.map _)]
  exact List.perm_middle

/-- The entries of a free list lie where they did if their headers say so. -/
theorem map_freeSpan_congr {A A' : GcArena} {free : List ℕ} (hbase : A'.base = A.base)
    (hsize : ∀ a ∈ free, (A'.mem a).size = (A.mem a).size) :
    free.map A'.freeSpan = free.map A.freeSpan :=
  List.map_congr_left fun a ha => by simp [freeSpan, hbase, hsize a ha]

theorem inv_new {capacity base : ℕ} {A : GcArena} (h : GcArena.new capacity (some base) = some A) :
    A.Inv [] [] [] := by
  simp only [GcArena.new, Option.bind_eq_bind, Option.bind_eq_some_iff, Option.pure_def,
    Option.some.injEq] at h
  obtain ⟨layout, hlayout, ptr, rfl, rfl⟩ := h
  have hfits : capacity + 16 ≤ 2 ^ 63 := by
    unfold Layout.fromSizeAlign at hlayout
    split at hlayout
    · exact ‹_ ∧ _›.2
    · cases hlayout
  exact ⟨hfits, Nat.zero_le _, by simp, by simp, rfl, by simp [spans, Apart], by simp [spans],
    by simp [spans], by simp [Increasing], rfl⟩

namespace Inv

variable {A : GcArena} {blocks : List Block} {free : List ℕ} {holes : List Hole}

theorem perm {blocks' : List Block} (h : A.Inv blocks free holes) (hp : blocks.Perm blocks') :
    A.Inv blocks' free holes := by
  have hspans : (A.spans blocks free holes).Perm (A.spans blocks' free holes) :=
    (hp.map _).append_right _
  exact ⟨h.small, h.bump_le, fun b hb => h.block_base b (hp.mem_iff.mpr hb), h.free_base, h.chain,
    h.apart.perm hspans, fun s hs => h.inside s (hspans.mem_iff.mpr hs),
    fun s hs => h.min_size s (hspans.mem_iff.mpr hs), h.increasing, h.live.trans hp.length_eq⟩

theorem block_region {b : Block} (h : A.Inv blocks free holes) (hb : b ∈ blocks) :
    A.base ≤ b.ptr ∧ b.ptr < A.base + A.capacity := by
  have hspan : b.span A.base ∈ A.spans blocks free holes := mem_spans.mpr (.inl ⟨b, hb, rfl⟩)
  have hbase := h.block_base b hb
  have hinside := h.inside _ hspan
  have hsize := h.min_size _ hspan
  have hbump := h.bump_le
  simp only [Block.span, Span.stop, minAllocSize] at hinside hsize
  omega

/-- Blocks begin at different addresses. -/
theorem block_ptr_ne {b c : Block} (h : A.Inv (b :: blocks) free holes) (hc : c ∈ blocks) :
    b.ptr ≠ c.ptr := by
  intro heq
  have hdisj := (apart_cons.mp h.apart).1 _ (mem_spans.mpr (.inl ⟨c, hc, rfl⟩))
  simp only [Span.Disjoint, Block.span, Span.stop, minAllocSize, heq] at hdisj
  omega

theorem free_lt (h : A.Inv blocks free holes) : free.Pairwise (· < ·) := by
  have hinc := h.increasing
  rw [Increasing, List.pairwise_map] at hinc
  refine hinc.imp_of_mem fun {a b} ha hb hab => ?_
  have hmin := h.min_size (A.freeSpan a) (mem_spans.mpr (.inr (.inl ⟨a, ha, rfl⟩)))
  have hb := h.free_base b hb
  simp only [freeSpan, Span.stop, minAllocSize] at hab hmin
  omega

theorem free_nodup (h : A.Inv blocks free holes) : free.Nodup :=
  h.free_lt.imp fun hab => Nat.ne_of_lt hab

theorem free_length_le (h : A.Inv blocks free holes) : free.length ≤ A.capacity := by
  have hmem : ∀ s ∈ free.map A.freeSpan, s ∈ A.spans blocks free holes := fun s hs => by
    simp [spans, List.mem_append, List.mem_map.mp hs]
  have hlen := h.increasing.length_le (n := A.bump)
    (fun s hs => Nat.lt_of_lt_of_le (by simp [minAllocSize]) (h.min_size s (hmem s hs)))
    (fun s hs => h.inside s (hmem s hs))
  rw [List.length_map] at hlen
  exact hlen.trans h.bump_le

/-- A new span that overlaps nothing and is not below anything joins the invariant as a block. -/
private theorem cons_block {A' : GcArena} {b : Block} {free' : List ℕ}
    (h : A.Inv blocks free holes) (hbase : A'.base = A.base) (hcap : A'.capacity = A.capacity)
    (hlive : A'.liveCount = A.liveCount + 1) (hbump : A.bump ≤ A'.bump)
    (hbump_le : A'.bump ≤ A'.capacity) (hb : A.base ≤ b.ptr)
    (hchain : FreeChain A'.mem A'.freeHead free') (hsub : free'.Sublist free)
    (hsizes : ∀ a, (A'.mem a).size = (A.mem a).size) (hstop : (b.span A.base).stop ≤ A'.bump)
    (hdisj : ∀ s ∈ A.spans blocks free' holes, (b.span A.base).Disjoint s) :
    A'.Inv (b :: blocks) free' holes := by
  have hfree : A'.freeSpan = A.freeSpan := by
    funext a
    simp [freeSpan, hbase, hsizes]
  have hspans : A'.spans (b :: blocks) free' holes =
      b.span A.base :: A.spans blocks free' holes := by
    simp [spans, hbase, hfree]
  have hkept : (A.spans blocks free' holes).Sublist (A.spans blocks free holes) :=
    ((hsub.map _).append_right _).append_left _
  refine ⟨hcap ▸ h.small, hbump_le, ?_, fun a ha => hbase ▸ h.free_base a (hsub.subset ha), hchain,
    ?_, ?_, ?_, ?_, by simp [hlive, h.live]⟩
  · rintro c (_ | ⟨_, hc⟩)
    · exact hbase ▸ hb
    · exact hbase ▸ h.block_base c hc
  · rw [hspans]
    exact apart_cons.mpr ⟨hdisj, h.apart.sublist hkept⟩
  · rw [hspans]
    rintro s (_ | ⟨_, hs⟩)
    · exact hstop
    · exact (h.inside s (hkept.subset hs)).trans hbump
  · rw [hspans]
    rintro s (_ | ⟨_, hs⟩)
    · exact Nat.le_max_right _ _
    · exact h.min_size s (hkept.subset hs)
  · rw [hfree]
    exact h.increasing.sublist (hsub.map _)

/-- **Allocation keeps the invariant**, with the new block among the outstanding ones. The block
comes from the frontier, or it is the front of an entry, which leaves the free list. -/
theorem alloc_split {layout : Layout} {ptr : ℕ} {A' : GcArena} (h : A.Inv blocks free holes)
    (ha : A.alloc layout = some (ptr, A')) :
    (alignUp A.bump layout.align + max layout.size minAllocSize ≤ A.capacity ∧
      A'.Inv (⟨ptr, layout.size⟩ :: blocks) free holes ∧
      ptr = A.base + alignUp A.bump layout.align ∧
      A'.bump = alignUp A.bump layout.align + max layout.size minAllocSize ∧ A'.mem = A.mem) ∨
    (¬ alignUp A.bump layout.align + max layout.size minAllocSize ≤ A.capacity ∧
      ∃ pre post, free = pre ++ ptr :: post ∧ max layout.size minAllocSize ≤ (A.mem ptr).size ∧
        A'.Inv (⟨ptr, layout.size⟩ :: blocks) (pre ++ post) holes ∧ A'.bump = A.bump ∧
        ∀ a, (A'.mem a).size = (A.mem a).size) := by
  unfold GcArena.alloc at ha
  dsimp only at ha
  split at ha
  · next hroom =>
    -- bump path: the new block starts at or after the frontier
    obtain ⟨rfl, rfl⟩ := Prod.mk.inj (Option.some.inj ha)
    have hle : A.bump ≤ alignUp A.bump layout.align :=
      layout.le_alignUp (by have := h.bump_le; have := h.small; omega)
    refine .inl ⟨hroom, h.cons_block rfl rfl rfl (by dsimp only; omega) hroom (by simp) h.chain
      (.refl _) (fun _ => rfl) (by simp [Block.span, Span.stop]) fun s hs => .inr ?_,
      rfl, rfl, rfl⟩
    have := h.inside s hs
    simp only [Block.span, Nat.add_sub_cancel_left]
    omega
  · next hroom =>
    -- free-list path
    have hfuel : free.length < A.capacity + 1 := Nat.lt_succ_of_le h.free_length_le
    have hspec := findFit_spec (max layout.size minAllocSize) (A.capacity + 1) [] none A.freeHead
      hfuel rfl h.chain h.chain h.free_nodup
    rw [allocFromFreeList] at ha
    split at ha
    · next entry A₁ hfind =>
      rw [hfind] at hspec
      obtain ⟨rfl, rfl⟩ := Prod.mk.inj (Option.some.inj ha)
      obtain ⟨pre, post, rfl, hsize, hchain, hsizes, hA₁⟩ := hspec
      have hsub : (pre ++ post).Sublist (pre ++ entry :: post) :=
        (List.sublist_cons_self _ _).append_left _
      have hperm := perm_spans A blocks holes pre post entry
      have hentry : A.freeSpan entry ∈ A.spans blocks (pre ++ entry :: post) holes :=
        hperm.mem_iff.mpr List.mem_cons_self
      have hbase : A.base ≤ entry := h.free_base entry (by simp)
      refine .inr ⟨hroom, pre, post, rfl, hsize, h.cons_block (by rw [hA₁]) (by rw [hA₁])
        (by rw [hA₁]) (by rw [hA₁]) (by rw [hA₁]; exact h.bump_le) hbase
        (by simpa using hchain) hsub hsizes ?_ ?_, by rw [hA₁], hsizes⟩
      · have := h.inside _ hentry
        rw [hA₁]
        simp only [freeSpan, Block.span, Span.stop] at this ⊢
        omega
      · intro s hs
        have := (apart_cons.mp (h.apart.perm hperm)).1 s hs
        simp only [Span.Disjoint, freeSpan, Block.span, Span.stop] at this ⊢
        omega
    · cases ha

/-- In either case the free list gets no longer. -/
theorem alloc_cases {layout : Layout} {ptr : ℕ} {A' : GcArena} (h : A.Inv blocks free holes)
    (ha : A.alloc layout = some (ptr, A')) :
    ∃ free', free'.Sublist free ∧ A'.Inv (⟨ptr, layout.size⟩ :: blocks) free' holes ∧
      (ptr = A.base + alignUp A.bump layout.align ∧
          A'.bump = alignUp A.bump layout.align + max layout.size minAllocSize ∨
        ptr ∈ free ∧ A'.bump = A.bump) := by
  rcases h.alloc_split ha with ⟨-, hinv, hptr, hbump, -⟩ |
    ⟨-, pre, post, rfl, -, hinv, hbump, -⟩
  · exact ⟨free, .refl _, hinv, .inl ⟨hptr, hbump⟩⟩
  · exact ⟨pre ++ post, (List.sublist_cons_self _ _).append_left _, hinv, .inr ⟨by simp, hbump⟩⟩

theorem alloc {layout : Layout} {ptr : ℕ} {A' : GcArena} (h : A.Inv blocks free holes)
    (ha : A.alloc layout = some (ptr, A')) :
    ∃ free', A'.Inv (⟨ptr, layout.size⟩ :: blocks) free' holes := by
  obtain ⟨free', -, hinv, -⟩ := h.alloc_cases ha
  exact ⟨free', hinv⟩

/-- **Collecting a block keeps the invariant**: it leaves the outstanding blocks and either gives
its bytes back to the frontier or becomes a hole. -/
theorem collectHole {b : Block} (h : A.Inv (b :: blocks) free holes) :
    (A.collectHole holes b.ptr b.size).1.Inv blocks free (A.collectHole holes b.ptr b.size).2 := by
  have hb : A.base ≤ b.ptr := h.block_base b List.mem_cons_self
  have hspans : A.spans (b :: blocks) free holes = b.span A.base :: A.spans blocks free holes := rfl
  have hsubset : ∀ s ∈ A.spans blocks free holes, s ∈ A.spans (b :: blocks) free holes :=
    fun s hs => hspans ▸ List.mem_cons_of_mem _ hs
  have hlive : A.liveCount - 1 = blocks.length := by simp [h.live]
  have hapart := apart_cons.mp (hspans ▸ h.apart)
  unfold GcArena.collectHole
  dsimp only
  split
  · next hfront =>
    -- the other spans ended below the frontier and overlap nothing of `b`, so they end below `b`
    have hbelow : ∀ s ∈ A.spans blocks free holes, s.stop ≤ b.ptr - A.base := by
      intro s hs
      have hin := h.inside s (hsubset s hs)
      have hsize := h.min_size s (hsubset s hs)
      have hdisj := hapart.1 s hs
      simp only [Span.Disjoint, Block.span, Span.stop, minAllocSize] at hdisj hin hsize hfront ⊢
      omega
    have hbump : b.ptr - A.base ≤ A.capacity := by
      have := h.bump_le
      omega
    exact ⟨h.small, hbump, fun c hc => h.block_base c (List.mem_cons_of_mem _ hc), h.free_base,
      h.chain, hapart.2, hbelow, fun s hs => h.min_size s (hsubset s hs), h.increasing, hlive⟩
  · have hperm : (A.spans (b :: blocks) free holes).Perm
        (A.spans blocks free (holes ++ [b.span A.base])) := by
      rw [hspans, spans, spans, ← List.append_assoc, ← List.append_assoc, ← List.append_assoc]
      exact (List.perm_append_singleton _ _).symm
    exact ⟨h.small, h.bump_le, fun c hc => h.block_base c (List.mem_cons_of_mem _ hc), h.free_base,
      h.chain, h.apart.perm hperm, fun s hs => h.inside s (hperm.mem_iff.mpr hs),
      fun s hs => h.min_size s (hperm.mem_iff.mpr hs), h.increasing, hlive⟩

end Inv

/-- Pushing holes at distinct offsets, last one first, threads them into a chain in list order. -/
theorem foldr_pushFree {A : GcArena} {hs : List Hole} (hnd : (hs.map Span.offset).Nodup) :
    let B := hs.foldr (fun hole B => B.pushFree hole) { A with freeHead := none }
    FreeChain B.mem B.freeHead (hs.map fun hole => A.base + hole.offset) ∧
      (∀ hole ∈ hs, (B.mem (A.base + hole.offset)).size = hole.size) ∧
      B = { A with freeHead := B.freeHead, mem := B.mem } := by
  induction hs with
  | nil => exact ⟨rfl, by simp, rfl⟩
  | cons hole hs ih =>
    rw [List.map_cons, List.nodup_cons] at hnd
    obtain ⟨hchain, hsize, hB⟩ := ih hnd.2
    dsimp only [List.foldr_cons]
    generalize hs.foldr (fun hole B => B.pushFree hole) { A with freeHead := none } = B at *
    have hbase : B.base = A.base := by rw [hB]
    have hne : ∀ g ∈ hs, A.base + g.offset ≠ A.base + hole.offset := by
      intro g hg heq
      exact hnd.1 (List.mem_map.mpr ⟨g, hg, by omega⟩)
    refine ⟨⟨by simp [pushFree, hbase], ?_⟩, ?_, ?_⟩
    · refine FreeChain.frame (?_ : FreeChain B.mem _ _) fun a ha => ?_
      · simpa [pushFree, writeFreeSize, writeFreeNext, hbase] using hchain
      · obtain ⟨g, hg, rfl⟩ := List.mem_map.mp ha
        simp [pushFree, writeFreeSize, writeFreeNext, hbase, Function.update_of_ne (hne g hg)]
    · rintro g (_ | ⟨_, hg⟩)
      · simp [pushFree, writeFreeSize, writeFreeNext, hbase]
      · rw [← hsize g hg]
        simp [pushFree, writeFreeSize, writeFreeNext, hbase, Function.update_of_ne (hne g hg)]
    · rw [hB]
      rfl

theorem finishSweep_of_dead {A : GcArena} (hdead : A.liveCount = 0) (holes : List Hole) :
    A.finishSweep holes = ({ A with bump := 0, freeHead := none }, []) := by
  rw [finishSweep, if_pos hdead]

theorem finishSweep_of_live {A : GcArena} (hlive : A.liveCount ≠ 0) (holes : List Hole) :
    A.finishSweep holes =
      ((merged holes).foldr (fun hole B => B.pushFree hole) { A with freeHead := none }, []) := by
  rw [finishSweep, if_neg hlive]
  dsimp only
  rw [mergeAdjacent_eq_coalesce, List.foldl_reverse, merged]

/-- Spans in address order that are not empty begin at different offsets. -/
theorem nodup_offset {hs : List Hole} (hinc : Increasing hs)
    (hmin : ∀ hole ∈ hs, minAllocSize ≤ hole.size) : (hs.map Span.offset).Nodup := by
  rw [List.Nodup, List.pairwise_map]
  refine List.Pairwise.imp_of_mem (fun {s t} hs _ hst => ?_) hinc
  have := hmin s hs
  simp only [Span.stop, minAllocSize] at hst this
  omega

/-- **Finishing a sweep keeps the invariant**, with a new free list and no holes left. Free entries
begin where holes began, and have the bytes of the holes. -/
theorem Inv.finishSweep_free {A : GcArena} {blocks : List Block} {free : List ℕ} {holes : List Hole}
    (h : A.Inv blocks free holes) :
    ∃ free', (A.finishSweep holes).1.Inv blocks free' (A.finishSweep holes).2 ∧
      (∀ a ∈ free', ∃ hole ∈ holes, a = A.base + hole.offset) ∧
      (A.liveCount ≠ 0 → ∀ byte,
        Covers (free'.map (A.finishSweep holes).1.freeSpan) byte ↔ Covers holes byte) := by
  by_cases hlive : A.liveCount = 0
  · rw [finishSweep_of_dead hlive]
    obtain rfl : blocks = [] := List.length_eq_zero_iff.mp (h.live ▸ hlive)
    exact ⟨[], ⟨h.small, Nat.zero_le _, by simp, by simp, rfl, by simp [spans, Apart],
      by simp [spans], by simp [spans], by simp [Increasing], h.live⟩, by simp,
      fun hne => absurd hlive hne⟩
  · rw [finishSweep_of_live hlive]
    have hparts := apart_append.mp h.apart
    have hholes : ∀ s ∈ holes, s ∈ A.spans blocks free holes := fun s hs =>
      mem_spans.mpr (.inr (.inr hs))
    have hblocks : ∀ s ∈ blocks.map (Block.span A.base), s ∈ A.spans blocks free holes :=
      fun s hs => List.mem_append_left _ hs
    have hpos : ∀ s ∈ A.spans blocks free holes, 0 < s.size := fun s hs =>
      Nat.lt_of_lt_of_le (by decide) (h.min_size s hs)
    have hinc : Increasing (merged holes) :=
      increasing_merged (apart_append.mp hparts.2.1).2.1 fun s hs => hpos s (hholes s hs)
    have hmin : ∀ s ∈ merged holes, minAllocSize ≤ s.size := fun s hs =>
      le_size_of_mem_merged (fun t ht => h.min_size t (hholes t ht)) hs
    obtain ⟨hchain, hsize, hB⟩ := foldr_pushFree (A := A) (nodup_offset hinc hmin)
    generalize (merged holes).foldr (fun hole B => B.pushFree hole) { A with freeHead := none } = B
      at *
    have hbase : B.base = A.base := by rw [hB]
    have hfree : ((merged holes).map fun hole => A.base + hole.offset).map B.freeSpan =
        merged holes := by
      rw [List.map_map]
      refine (List.map_congr_left fun hole hhole => ?_).trans (List.map_id _)
      simp [freeSpan, hbase, hsize hole hhole]
    have hspans : B.spans blocks ((merged holes).map fun hole => A.base + hole.offset) [] =
        blocks.map (Block.span A.base) ++ merged holes := by
      simp only [spans, hfree, hbase, List.append_nil]
    refine ⟨(merged holes).map fun hole => A.base + hole.offset, ?_, fun a ha => ?_,
      fun _ byte => by rw [hfree, covers_merged]⟩
    · refine { small := ?_, bump_le := ?_, block_base := ?_, free_base := ?_, chain := hchain,
               apart := ?_, inside := ?_, min_size := ?_, increasing := ?_, live := ?_ }
      · rw [hB]; exact h.small
      · rw [hB]; exact h.bump_le
      · rw [hbase]; exact h.block_base
      · intro a ha
        obtain ⟨hole, -, rfl⟩ := List.mem_map.mp ha
        rw [hbase]
        exact Nat.le_add_right _ _
      · rw [hspans]
        refine apart_append.mpr ⟨hparts.1, hinc.apart, fun s hs t ht => ?_⟩
        refine disjoint_of_mem_merged (hpos s (hblocks s hs)) (fun u hu => hpos u (hholes u hu))
          (fun u hu => ?_) ht
        exact hparts.2.2 s hs u (List.mem_append_right _ hu)
      · rw [hspans, hB]
        intro s hs
        rcases List.mem_append.mp hs with hs | hs
        · exact h.inside s (hblocks s hs)
        · exact stop_le_of_mem_merged (fun u hu => hpos u (hholes u hu))
            (fun u hu => h.inside u (hholes u hu)) hs
      · rw [hspans]
        intro s hs
        rcases List.mem_append.mp hs with hs | hs
        · exact h.min_size s (hblocks s hs)
        · exact hmin s hs
      · rw [hfree]; exact hinc
      · rw [hB]; exact h.live
    · obtain ⟨hole, hhole, rfl⟩ := List.mem_map.mp ha
      obtain ⟨s, hs, heq⟩ := exists_offset_of_mem_merged hhole
      exact ⟨s, hs, by rw [heq]⟩

theorem Inv.finishSweep {A : GcArena} {blocks : List Block} {free : List ℕ} {holes : List Hole}
    (h : A.Inv blocks free holes) :
    ∃ free', (A.finishSweep holes).1.Inv blocks free' (A.finishSweep holes).2 := by
  obtain ⟨free', hinv, -, -⟩ := h.finishSweep_free
  exact ⟨free', hinv⟩

end GcArena

/-! ## Runs -/

/-- An arena together with what its users hold: the outstanding blocks, and the holes recorded since
the last `finishSweep`. -/
structure ArenaState where
  /-- The arena. -/
  arena : GcArena
  /-- The blocks in use. -/
  blocks : List Block
  /-- What the next `finishSweep` is given. -/
  holes : List Hole

/-- One use of an arena. -/
inductive ArenaAction
  /-- Ask for a block. -/
  | alloc (layout : Layout)
  /-- Give a block back. -/
  | collect (b : Block)
  /-- End a sweep. -/
  | finish
  /-- Store something in the arena's memory. -/
  | write (mem : ℕ → FreeEntry)

/-- What each use does. A block may be collected at any time while it is outstanding, in any order;
its owner may overwrite it, and then whatever a free entry at an address overlapping it would have
read as is lost. -/
inductive ArenaStep : ArenaState → ArenaAction → ArenaState → Prop
  /-- There was room. -/
  | alloc {s : ArenaState} {layout : Layout} {ptr : ℕ} {A' : GcArena}
      (h : s.arena.alloc layout = some (ptr, A')) :
      ArenaStep s (.alloc layout) ⟨A', ⟨ptr, layout.size⟩ :: s.blocks, s.holes⟩
  /-- There was none. -/
  | full {s : ArenaState} {layout : Layout} (h : s.arena.alloc layout = none) :
      ArenaStep s (.alloc layout) s
  /-- The block is rewound or becomes a hole. -/
  | collect {s : ArenaState} {b : Block} (hb : b ∈ s.blocks) :
      ArenaStep s (.collect b) ⟨(s.arena.collectHole s.holes b.ptr b.size).1, s.blocks.erase b,
        (s.arena.collectHole s.holes b.ptr b.size).2⟩
  /-- The holes become free entries. -/
  | finish {s : ArenaState} :
      ArenaStep s .finish
        ⟨(s.arena.finishSweep s.holes).1, s.blocks, (s.arena.finishSweep s.holes).2⟩
  /-- The words that are not in a block stay. -/
  | write {s : ArenaState} {mem : ℕ → FreeEntry}
      (h : ∀ a, s.arena.base ≤ a →
        (∀ b ∈ s.blocks, (b.span s.arena.base).Disjoint ⟨a - s.arena.base, minAllocSize⟩) →
        mem a = s.arena.mem a) :
      ArenaStep s (.write mem) ⟨{ s.arena with mem := mem }, s.blocks, s.holes⟩

/-- What the users of an arena rely on. -/
structure ArenaState.Safe (s : ArenaState) : Prop where
  /-- The frontier stays inside. -/
  bump_le : s.arena.bump ≤ s.arena.capacity
  /-- The free list ends, its entries come in strictly increasing address order, and together with
  the outstanding blocks they are pairwise disjoint ranges inside `[0, bump)`. -/
  ranges : ∃ free, FreeChain s.arena.mem s.arena.freeHead free ∧ free.Pairwise (· < ·) ∧
    (∀ b ∈ s.blocks, s.arena.base ≤ b.ptr) ∧ (∀ a ∈ free, s.arena.base ≤ a) ∧
    (∀ a ∈ free, minAllocSize ≤ (s.arena.mem a).size) ∧
    Apart (s.blocks.map (Block.span s.arena.base) ++ free.map s.arena.freeSpan) ∧
    ∀ t ∈ s.blocks.map (Block.span s.arena.base) ++ free.map s.arena.freeSpan,
      t.stop ≤ s.arena.bump
  /-- Every block counts. -/
  live_count : s.arena.liveCount = s.blocks.length
  /-- A block that `alloc` returns overlaps no outstanding one. -/
  fresh : ∀ layout ptr A', s.arena.alloc layout = some (ptr, A') → ∀ b ∈ s.blocks,
    (Block.span s.arena.base ⟨ptr, layout.size⟩).Disjoint (b.span s.arena.base)

namespace GcArena.Inv

variable {A : GcArena} {blocks : List Block} {free : List ℕ} {holes : List Hole}

/-- No block overlaps a free entry, so owners do not write there. -/
theorem mem_eq_of_write {mem : ℕ → FreeEntry} (h : A.Inv blocks free holes)
    (hmem : ∀ a, A.base ≤ a →
      (∀ b ∈ blocks, (b.span A.base).Disjoint ⟨a - A.base, minAllocSize⟩) → mem a = A.mem a) :
    ∀ a ∈ free, mem a = A.mem a := by
  intro a ha
  have hin : A.freeSpan a ∈ free.map A.freeSpan ++ holes :=
    List.mem_append_left _ (List.mem_map.mpr ⟨a, ha, rfl⟩)
  have hmin := h.min_size _ (List.mem_append_right _ hin)
  refine hmem a (h.free_base a ha) fun b hb => ?_
  have hdisj := (apart_append.mp h.apart).2.2 _ (List.mem_map.mpr ⟨b, hb, rfl⟩) _ hin
  simp only [Span.Disjoint, Span.stop, freeSpan] at hdisj hmin ⊢
  omega

/-- Of the memory, the invariant sees the free entries only. -/
theorem frame {mem : ℕ → FreeEntry} (h : A.Inv blocks free holes)
    (hkeep : ∀ a ∈ free, mem a = A.mem a) :
    GcArena.Inv { A with mem := mem } blocks free holes := by
  have hfree : free.map (freeSpan { A with mem := mem }) = free.map A.freeSpan :=
    map_freeSpan_congr rfl fun a ha => congrArg FreeEntry.size (hkeep a ha)
  have hspans : GcArena.spans { A with mem := mem } blocks free holes =
      A.spans blocks free holes := by
    simp only [spans, hfree]
  exact ⟨h.small, h.bump_le, h.block_base, h.free_base,
    h.chain.frame fun a ha => congrArg FreeEntry.next (hkeep a ha), hspans ▸ h.apart,
    hspans ▸ h.inside, hspans ▸ h.min_size, hfree ▸ h.increasing, h.live⟩

/-- Owners overwriting their blocks do not disturb the free list. -/
theorem write {mem : ℕ → FreeEntry} (h : A.Inv blocks free holes)
    (hmem : ∀ a, A.base ≤ a →
      (∀ b ∈ blocks, (b.span A.base).Disjoint ⟨a - A.base, minAllocSize⟩) → mem a = A.mem a) :
    GcArena.Inv { A with mem := mem } blocks free holes :=
  h.frame (h.mem_eq_of_write hmem)

/-- The invariant with the free list left unnamed is kept by every use. -/
theorem step {s t : ArenaState} {a : ArenaAction} (hst : ArenaStep s a t)
    (h : ∃ free, s.arena.Inv s.blocks free s.holes) :
    ∃ free, t.arena.Inv t.blocks free t.holes := by
  obtain ⟨free, h⟩ := h
  cases hst with
  | alloc halloc => exact h.alloc halloc
  | full => exact ⟨free, h⟩
  | collect hb => exact ⟨free, (h.perm (List.perm_cons_erase hb)).collectHole⟩
  | finish => exact h.finishSweep
  | write hmem => exact ⟨free, h.write hmem⟩

/-- The invariant says all that the users rely on. -/
theorem safe {s : ArenaState} (h : s.arena.Inv s.blocks free s.holes) : s.Safe := by
  have hsub : (s.blocks.map (Block.span s.arena.base) ++ free.map s.arena.freeSpan).Sublist
      (s.arena.spans s.blocks free s.holes) :=
    (List.sublist_append_left _ _).append_left _
  refine ⟨h.bump_le, ⟨free, h.chain, h.free_lt, h.block_base, h.free_base, fun a ha => ?_,
    h.apart.sublist hsub, fun t ht => h.inside t (hsub.subset ht)⟩, h.live, ?_⟩
  · exact h.min_size _ (mem_spans.mpr (.inr (.inl ⟨a, ha, rfl⟩)))
  · intro layout ptr A' halloc b hb
    obtain ⟨free', h'⟩ := h.alloc halloc
    have hbase : A'.base = s.arena.base := (GcArena.alloc_region halloc).1
    exact hbase ▸ (apart_cons.mp h'.apart).1 _ (mem_spans.mpr (.inl ⟨b, hb, rfl⟩))

end GcArena.Inv

/-- **Arena safety.** From a new arena of any capacity, whatever is allocated with whatever layouts
and whatever is collected in whatever order, every state reached is safe. -/
theorem arena_safe {capacity base : ℕ} {A : GcArena} {s : ArenaState}
    (hnew : GcArena.new capacity (some base) = some A)
    (hr : Reaches ArenaStep ⟨A, [], []⟩ s) : s.Safe := by
  obtain ⟨free, h⟩ : ∃ free, s.arena.Inv s.blocks free s.holes :=
    hr.invariant (I := fun s => ∃ free, s.arena.Inv s.blocks free s.holes)
      (fun _ _ _ hs hst => GcArena.Inv.step hst hs) ⟨[], GcArena.inv_new hnew⟩
  exact h.safe

/-- Two blocks allocated, the first collected and the sweep finished: the free list has one entry,
below the block that is left. -/
theorem arena_safe_two_blocks : ∃ s : ArenaState,
    s.blocks = [⟨4112, 8⟩] ∧ s.arena.freeHead = some 4096 ∧ s.Safe := by
  have hnew : GcArena.new 64 (some 4096) = some ⟨4096, 64, 0, none, 0, fun _ => default⟩ := rfl
  have h₁ : ArenaStep ⟨⟨4096, 64, 0, none, 0, fun _ => default⟩, [], []⟩
      (.alloc ⟨8, 8, ⟨3, rfl⟩, by decide⟩)
      ⟨⟨4096, 64, 16, none, 1, fun _ => default⟩, [⟨4096, 8⟩], []⟩ := .alloc rfl
  have h₂ : ArenaStep ⟨⟨4096, 64, 16, none, 1, fun _ => default⟩, [⟨4096, 8⟩], []⟩
      (.alloc ⟨8, 8, ⟨3, rfl⟩, by decide⟩)
      ⟨⟨4096, 64, 32, none, 2, fun _ => default⟩, [⟨4112, 8⟩, ⟨4096, 8⟩], []⟩ := .alloc rfl
  have h₃ : ArenaStep ⟨⟨4096, 64, 32, none, 2, fun _ => default⟩, [⟨4112, 8⟩, ⟨4096, 8⟩], []⟩
      (.collect ⟨4096, 8⟩)
      ⟨⟨4096, 64, 32, none, 1, fun _ => default⟩, [⟨4112, 8⟩], [⟨0, 16⟩]⟩ := .collect (by decide)
  exact ⟨_, rfl, rfl, arena_safe hnew ⟨_, .cons h₁ (.cons h₂ (.cons h₃ (.cons .finish (.nil _))))⟩⟩

end GcLite
