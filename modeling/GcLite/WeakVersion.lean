import GcLite.WeakInvariant
import Mathlib.Data.List.Induction

/-!
# Versions of weak slots

A slot is used again when its node has been reclaimed, with the next version, and a handle of the
old node no longer finds anything. But there are 255 versions, and after the last the first comes
again.

## Main definitions

* `FindsOnly` — a handle finds the node it was taken for, or nothing
* `Reissues` — a step gives the version of a handle to its slot again
* `takings` — how often a run takes a slot

## Main results

* `WeakStep.upgrade` — what a step can make a handle find
* `slotVersion_run` — the version of a slot after a run
* `reissues_iff` — a version comes again with the 255th taking
* `upgrade_finds_only_iff` — when handles find nothing else
-/

namespace GcLite

open Transition GcHeap

/-- After a run from the heap in which the handle was taken for the node, it finds that node at
most, and only if the node has been live all the time. -/
def FindsOnly (h : GcHeap) (n : NodePtr) (w : GcWeakRawId) (ops : List Op) (g : GcHeap) : Prop :=
  ∀ m, g.upgrade w = some m → m = n ∧ g.Live n ∧ Run (StepWith fun g _ => g.Live n) h ops g

/-- The step takes a new handle, the handle's slot is the first empty one, and its version is just
before the handle's. -/
def Reissues (w : GcWeakRawId) (h : GcHeap) : Op → Prop
  | .downgrade m => (h.head m).weakId.isNull = true ∧ h.freeSlot = w.index ∧
      bumpVersion h.freeVersion = w.version
  | _ => False

instance {w : GcWeakRawId} {h : GcHeap} {op : Op} : Decidable (Reissues w h op) := by
  apply Op.casesOn (motive := fun op => Decidable (Reissues w h op)) op <;> intros <;>
    dsimp only [Reissues] <;> infer_instance

variable {h h' g : GcHeap} {op : Op} {n m : NodePtr} {w : GcWeakRawId} {ops : List Op}

/-- A handle finds what it found before, unless it is given out again. -/
theorem WeakStep.upgrade (hst : WeakStep h op h') (hup : h'.upgrade w = some m) :
    h.upgrade w = some m ∨ Reissues w h op := by
  cases hst with
  | keep hlive hid hslots => exact .inl (@upgrade_of_emptied _ _ _ _ [] hslots hup).1
  | fresh hn hlive hid hslots => exact .inl (@upgrade_of_emptied _ _ _ _ [] hslots hup).1
  | reclaim hgone hlive hid hslots => exact .inl (upgrade_of_emptied hslots hup).1
  | @claim n w' hop hn hlive hclaims =>
    rw [upgrade_eq_some_iff] at hup ⊢
    obtain ⟨hnull, hslot⟩ := hup
    rw [hclaims.slots] at hslot
    split at hslot
    · next hindex =>
      have hversion := congrArg WeakSlot.version (Option.some.inj hslot)
      exact .inr (hop ▸ ⟨hclaims.null, hindex.symm, hversion⟩)
    · exact .inl ⟨hnull, hslot⟩

/-- A step that gives the handle out again makes it find another node. -/
theorem Reissues.upgrade (hre : Reissues w h op) (hst : Step h op h') :
    ∃ m, h'.upgrade w = some m ∧ (h.head m).weakId.isNull = true := by
  cases op with
  | downgrade m =>
    obtain ⟨hnull, hindex, hversion⟩ := hre
    obtain ⟨⟨h'', w'⟩, hok, rfl⟩ := Option.map_eq_some_iff.mp hst.2
    refine ⟨m, ?_, hnull⟩
    rcases downgrade_ok hok with ⟨hnn, -, -⟩ | hclaims
    · rw [hnn] at hnull
      cases hnull
    · refine upgrade_eq_some_iff.mpr ⟨?_, by rw [hclaims.slots, if_pos hindex.symm, hversion]⟩
      rw [GcWeakRawId.isNull, ← hversion]
      exact beq_eq_false_iff_ne.mpr (bumpVersion_pos _)
  | _ => exact hre.elim

/-- As long as the handle is not given out again, it finds nothing else. -/
theorem finds_only_of_run (hmem : h.MemInv) (hinv : h.WeakInv) (hn : h.Live n)
    (hid : (h.head n).weakId = w) (hrun : Run (StepWith fun g op => ¬ Reissues w g op) h ops g) :
    FindsOnly h n w ops g := by
  induction ops using List.reverseRecOn generalizing g with
  | nil =>
    obtain rfl := run_nil.mp hrun
    intro m hup
    obtain ⟨hm, hnull, hw⟩ := hinv.eq_weakId_of_upgrade hup
    obtain rfl : n = m := by
      refine hinv.slot.eq_of_index hn hm ?_ hnull ?_
      · rwa [hid, hw]
      · rw [hid, hw]
    exact ⟨rfl, hn, .nil g⟩
  | append_singleton ops op ih =>
    obtain ⟨t, hrun, hst, hop⟩ := run_concat.mp hrun
    obtain ⟨hmem, hinv⟩ := hrun.invariant (I := fun h => h.MemInv ∧ h.WeakInv)
      (fun _ _ _ hs hst => ⟨hs.1.step hst.1, hs.2.step hs.1 hst.1⟩) ⟨hmem, hinv⟩
    have hst' := hst.weak hmem
    intro m hup
    obtain ⟨rfl, hlive, hrun⟩ := ih hrun m ((hst'.upgrade hup).resolve_right hop)
    have hlive' := ((hinv.weakStep hst').eq_weakId_of_upgrade hup).1
    exact ⟨rfl, hlive', run_concat.mpr ⟨t, hrun, hst, hlive⟩⟩

/-- In a run from a heap in which a handle was taken, it finds its own node or nothing in every
state if and only if no step gives its version to its slot again. -/
theorem finds_only_iff_run {h h₁ g : GcHeap} {n : NodePtr} {w : GcWeakRawId} {ops : List Op}
    (hr : Reachable h) (hn : h.Live n) (hok : h.downgrade n = some (h₁, w))
    (hrun : Run Step h₁ ops g) :
    (∀ pre g₁, pre <+: ops → Run Step h₁ pre g₁ → FindsOnly h₁ n w pre g₁) ↔
      Run (StepWith fun g op => ¬ Reissues w g op) h₁ ops g := by
  obtain ⟨hmem, hinv⟩ := weakInv_of_reachable hr
  obtain ⟨hinv, hn, hnull, hid⟩ := hinv.downgrade hmem hn hok
  have hmem := hmem.downgrade hok
  have hfun : ∀ s a t t', Step s a t → Step s a t' → t = t' := fun _ _ _ _ => Step.functional
  constructor
  · intro hfinds
    induction ops using List.reverseRecOn generalizing g with
    | nil =>
      obtain rfl := run_nil.mp hrun
      exact .nil _
    | append_singleton ops op ih =>
      obtain ⟨t, hrunt, hst⟩ := run_concat.mp hrun
      refine run_concat.mpr ⟨t, ih hrunt fun pre g₁ hpre =>
        hfinds pre g₁ (hpre.trans (List.prefix_append _ _)), hst, fun hre => ?_⟩
      obtain ⟨m, hup, hmnull⟩ := hre.upgrade hst
      obtain ⟨rfl, -, hlive⟩ := hfinds _ g List.prefix_rfl hrun m hup
      -- the node would have had its handle all the time
      obtain ⟨t', hlive, -⟩ := run_concat.mp hlive
      obtain rfl := hrunt.functional hfun (hlive.mono fun _ _ _ hst => hst.1)
      obtain ⟨-, -, hidt⟩ := weakId_of_run hmem hinv (hid ▸ hnull) hlive
      rw [hidt, hid, hnull] at hmnull
      cases hmnull
  · rintro hrun pre g₁ ⟨post, rfl⟩ hpre
    obtain ⟨t, hrunt, -⟩ := run_append.mp hrun
    obtain rfl := hpre.functional hfun (hrunt.mono fun _ _ _ hst => hst.1)
    exact finds_only_of_run hmem hinv hn hid hrunt

/-! ### How often a slot is taken -/

/-- The step takes a new handle, and the slot for it is the one with this index. -/
def Takes (i : ℕ) (h : GcHeap) : Op → Prop
  | .downgrade m => (h.head m).weakId.isNull = true ∧ h.freeSlot = i
  | _ => False

instance {i : ℕ} {h : GcHeap} {op : Op} : Decidable (Takes i h op) := by
  apply Op.casesOn (motive := fun op => Decidable (Takes i h op)) op <;> intros <;>
    dsimp only [Takes] <;> infer_instance

/-- How often a run takes the slot. -/
def takings (i : ℕ) : GcHeap → List Op → ℕ
  | _, [] => 0
  | h, op :: ops =>
    (if Takes i h op then 1 else 0) + (exec h op).elim 0 fun h' => takings i h' ops

/-- The version in a slot, which it keeps when it is emptied. -/
def slotVersion (h : GcHeap) (i : ℕ) : Option ℕ := h.weakSlots[i]?.map WeakSlot.version

theorem takings_concat {i : ℕ} (hrun : Run Step h ops g) :
    takings i h (ops ++ [op]) = takings i h ops + if Takes i g op then 1 else 0 := by
  induction hrun with
  | nil h =>
    have hnil : ((exec h op).elim 0 fun _ => 0) = 0 := by cases exec h op <;> rfl
    simp only [List.nil_append, takings, hnil, Nat.add_comm]
  | cons hst _ ih =>
    simp only [List.cons_append, takings, hst.2, Option.elim_some, ih]
    omega

theorem slotVersion_emptied {ws : List GcWeakRawId} {i : ℕ}
    (hslots : h'.weakSlots = ws.foldl emptySlot h.weakSlots) :
    slotVersion h' i = slotVersion h i := by
  obtain ⟨hnamed, hother⟩ := @getElem?_foldl_emptySlot ws i h.weakSlots
  rw [slotVersion, slotVersion, hslots]
  by_cases hnames : NamesSlot ws i
  · rw [hnamed hnames, Option.map_map]
    rfl
  · rw [hother hnames]

theorem freeVersion_of_slotVersion {i v : ℕ} (hv : slotVersion h i = some v)
    (hfree : h.freeSlot = i) : h.freeVersion = v := by
  obtain ⟨slot, hslot, rfl⟩ := Option.map_eq_some_iff.mp hv
  rw [freeVersion, hfree, List.getD_eq_getElem?_getD, hslot, Option.getD_some]

/-- Taking a handle changes the version of the slot it takes, if it takes one, to the next. -/
theorem slotVersion_downgrade {i v : ℕ} (hok : h.downgrade m = some (h', w))
    (hv : slotVersion h i = some v) :
    slotVersion h' i = some (if Takes i h (.downgrade m) then bumpVersion v else v) := by
  rcases downgrade_ok hok with ⟨hnull, rfl, -⟩ | hclaims
  · have hnot : ¬ Takes i h' (.downgrade m) := fun htakes => by
      rw [htakes.1] at hnull
      cases hnull
    rw [if_neg hnot, hv]
  · rw [slotVersion, hclaims.slots]
    by_cases hfree : h.freeSlot = i
    · have htakes : Takes i h (.downgrade m) := ⟨hclaims.null, hfree⟩
      rw [if_pos hfree.symm, if_pos htakes, freeVersion_of_slotVersion hv hfree]
      rfl
    · have hnot : ¬ Takes i h (.downgrade m) := fun htakes => hfree htakes.2
      rw [if_neg (Ne.symm hfree), if_neg hnot]
      exact hv

/-- **One step** changes the version of a slot only when it takes the slot. -/
theorem slotVersion_step {i v : ℕ} (hmem : h.MemInv) (hst : Step h op h')
    (hv : slotVersion h i = some v) :
    slotVersion h' i = some (if Takes i h op then bumpVersion v else v) := by
  cases op with
  | downgrade m =>
    obtain ⟨⟨h'', w⟩, hok, rfl⟩ := Option.map_eq_some_iff.mp hst.2
    exact slotVersion_downgrade hok hv
  | _ =>
    refine Eq.trans ?_ hv
    cases hst.weak hmem with
    | keep hlive hid hslots => exact @slotVersion_emptied _ _ [] _ hslots
    | fresh hn hlive hid hslots => exact @slotVersion_emptied _ _ [] _ hslots
    | reclaim hgone hlive hid hslots => exact slotVersion_emptied hslots
    | claim hop hn hlive hclaims => cases hop

/-- The versions a slot goes through. -/
theorem bumpVersion_iterate {v : ℕ} (hv : 0 < v ∧ v < 256) (k : ℕ) :
    bumpVersion^[k] v = (v - 1 + k) % 255 + 1 := by
  induction k with
  | zero => rw [Function.iterate_zero_apply, Nat.add_zero, Nat.mod_eq_of_lt (by omega)]; omega
  | succ k ih =>
    rw [Function.iterate_succ_apply', ih, bumpVersion]
    split <;> omega

/-- **The version tells how often the slot has been taken**, up to multiples of 255. -/
theorem slotVersion_run {i v : ℕ} (hmem : h.MemInv) (hv : slotVersion h i = some v)
    (hrun : Run Step h ops g) : slotVersion g i = some (bumpVersion^[takings i h ops] v) := by
  induction ops using List.reverseRecOn generalizing g with
  | nil =>
    obtain rfl := run_nil.mp hrun
    exact hv
  | append_singleton ops op ih =>
    obtain ⟨t, hrun, hst⟩ := run_concat.mp hrun
    have hmemt := hrun.invariant (fun _ _ _ hs hst => hs.step hst) hmem
    rw [slotVersion_step hmemt hst (ih hrun), takings_concat hrun]
    split
    · rw [Function.iterate_succ_apply']
    · rfl

/-- A step gives the version of a handle to its slot again when it takes the slot for the 255th
time, or for a multiple of that. -/
theorem reissues_iff (hmem : h.MemInv) (hw : 0 < w.version)
    (hv : slotVersion h w.index = some w.version) (hrun : Run Step h ops g) :
    Reissues w g op ↔ Takes w.index g op ∧ 255 ∣ takings w.index h ops + 1 := by
  have hlt : w.version < 256 := Nat.mod_lt _ (by decide)
  have hversion := slotVersion_run hmem hv hrun
  cases op with
  | downgrade m =>
    simp only [Reissues, Takes, and_assoc]
    refine and_congr_right fun _ => and_congr_right fun hfree => ?_
    rw [freeVersion_of_slotVersion hversion hfree, ← Function.iterate_succ_apply' bumpVersion,
      bumpVersion_iterate ⟨hw, hlt⟩]
    omega
  | _ => simp [Reissues, Takes]

/-- So no step does that exactly as long as the slot is taken less than 255 times. -/
theorem run_not_reissues_iff (hmem : h.MemInv) (hw : 0 < w.version)
    (hv : slotVersion h w.index = some w.version) (hrun : Run Step h ops g) :
    Run (StepWith fun g op => ¬ Reissues w g op) h ops g ↔ takings w.index h ops < 255 := by
  induction ops using List.reverseRecOn generalizing g with
  | nil =>
    obtain rfl := run_nil.mp hrun
    exact iff_of_true (.nil _) (by rw [takings]; decide)
  | append_singleton ops op ih =>
    obtain ⟨t, hrunt, hst⟩ := run_concat.mp hrun
    have hre : Reissues w t op ↔ _ := reissues_iff hmem hw hv hrunt
    rw [takings_concat hrunt]
    constructor
    · intro hsteps
      obtain ⟨t', hsteps, hst', hnot⟩ := run_concat.mp hsteps
      have hfun : ∀ s a t t', Step s a t → Step s a t' → t = t' := fun _ _ _ _ => Step.functional
      obtain rfl := hrunt.functional hfun (hsteps.mono fun _ _ _ hst => hst.1)
      have hlt := (ih hrunt).mp hsteps
      split
      · next htakes =>
        have hne : takings w.index h ops + 1 ≠ 255 := fun heq =>
          hnot (hre.mpr ⟨htakes, heq ▸ Nat.dvd_refl _⟩)
        omega
      · exact hlt
    · intro hlt
      refine run_concat.mpr ⟨t, (ih hrunt).mpr (by omega), hst, fun hreissues => ?_⟩
      obtain ⟨htakes, hdvd⟩ := hre.mp hreissues
      rw [if_pos htakes] at hlt
      exact absurd (Nat.le_of_dvd (Nat.succ_pos _) hdvd) (by omega)

/-- **Weak handles find their own node or nothing, until the versions have gone round.** In a run
from a heap in which a handle was taken, it does so in every state if and only if no step gives its
version to its slot again, that is, if and only if the run takes the slot less than 255 times. -/
theorem upgrade_finds_only_iff {h h₁ g : GcHeap} {n : NodePtr} {w : GcWeakRawId} {ops : List Op}
    (hr : Reachable h) (hn : h.Live n) (hok : h.downgrade n = some (h₁, w))
    (hrun : Run Step h₁ ops g) :
    ((∀ pre g₁, pre <+: ops → Run Step h₁ pre g₁ → FindsOnly h₁ n w pre g₁) ↔
      Run (StepWith fun g op => ¬ Reissues w g op) h₁ ops g) ∧
    (Run (StepWith fun g op => ¬ Reissues w g op) h₁ ops g ↔ takings w.index h₁ ops < 255) := by
  obtain ⟨hmem, hinv⟩ := weakInv_of_reachable hr
  obtain ⟨hinv, hn₁, hnull, hid⟩ := hinv.downgrade hmem hn hok
  have hslot := hinv.slot n hn₁ (hid ▸ hnull)
  rw [hid] at hslot
  have hv : slotVersion h₁ w.index = some w.version := by rw [slotVersion, hslot, Option.map_some]
  have hpos : 0 < w.version := by
    rw [GcWeakRawId.isNull, beq_eq_false_iff_ne] at hnull
    exact Nat.pos_of_ne_zero hnull
  exact ⟨finds_only_iff_run hr hn hok hrun,
    run_not_reissues_iff (hmem.downgrade hok) hpos hv hrun⟩

/-! ### Going round -/

/-- A script in which a handle is taken for a node and then other things happen. -/
private theorem exists_handle_of_play {C : GcHeap → Op → Prop} [∀ h op, Decidable (C h op)]
    {P : GcHeap → Prop} [DecidablePred P] (setup ops : List Op) (n : NodePtr) (w : GcWeakRawId)
    (hplay : ((play (fun _ _ => True) setup
      (GcHeap.new (gcTypeTableInternal 24 8 [⟨8, 8, true, none⟩]))).bind fun h =>
        (h.downgrade n).bind fun r =>
          if h.Live n ∧ r.2 = w then play C ops r.1 else none).any fun g => P g) :
    ∃ h h₁ g, Reachable h ∧ h.Live n ∧ h.downgrade n = some (h₁, w) ∧ Run (StepWith C) h₁ ops g ∧
      P g := by
  obtain ⟨g, hg, hP⟩ := Option.any_eq_true _ _ |>.mp hplay
  obtain ⟨h, hh, hrest⟩ := Option.bind_eq_some_iff.mp hg
  obtain ⟨⟨h₁, w'⟩, hok, hrun⟩ := Option.bind_eq_some_iff.mp hrest
  dsimp only at hrun
  split at hrun
  · next hn =>
    obtain ⟨hn, rfl⟩ := hn
    exact ⟨h, h₁, g, reachableWith_of_play hh, hn, hok, run_of_play hrun, of_decide_eq_true hP⟩
  · cases hrun

/-- One object after another, each with a handle, each collected. -/
private def reuse : List Op := [.allocRaw 0 0 [] (some 2000), .downgrade 2000, .garbageCollect 0]

/-- The second object in the slot is not found. -/
theorem upgrade_finds_only_once : ∃ (h₁ g : GcHeap) (ops : List Op), Run Step h₁ ops g ∧
    g.Live 2000 ∧ FindsOnly h₁ 1000 (.new 0 1) ops g := by
  obtain ⟨h, h₁, g, hr, hn, hok, hrun, hlive⟩ := exists_handle_of_play
    (C := fun g op => ¬ Reissues (.new 0 1) g op) (P := fun g => g.Live 2000)
    [.createPartition 0 0 none, .allocRaw 0 0 [] (some 1000)]
    [.garbageCollect 0, .allocRaw 0 0 [] (some 2000), .downgrade 2000] 1000 (.new 0 1)
    (by decide +kernel)
  have hrun' := hrun.mono fun _ _ _ hst => hst.1
  exact ⟨h₁, g, _, hrun', hlive,
    (upgrade_finds_only_iff hr hn hok hrun').1.mpr hrun _ g List.prefix_rfl hrun'⟩

/-- **The 255th object that uses the slot again is found** by the handle of the first. -/
theorem upgrade_finds_another : ∃ (h h₁ g : GcHeap) (ops : List Op), Reachable h ∧ h.Live 1000 ∧
    h.downgrade 1000 = some (h₁, .new 0 1) ∧ Run Step h₁ ops g ∧ ¬ g.Live 1000 ∧
    g.upgrade (.new 0 1) = some 2000 := by
  obtain ⟨h, h₁, g, hr, hn, hok, hrun, hdead, hup⟩ := exists_handle_of_play
    (C := fun _ _ => True) (P := fun g => ¬ g.Live 1000 ∧ g.upgrade (.new 0 1) = some 2000)
    [.createPartition 0 0 none, .allocRaw 0 0 [] (some 1000)]
    ([.garbageCollect 0] ++ (List.replicate 254 reuse).flatten ++
      [.allocRaw 0 0 [] (some 2000), .downgrade 2000]) 1000 (.new 0 1)
    (by decide +kernel)
  exact ⟨h, h₁, g, _, hr, hn, hok, hrun.mono fun _ _ _ hst => hst.1, hdead, hup⟩

end GcLite
