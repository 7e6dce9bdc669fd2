import GcLite.MarkState

/-!
# The mutator's changes to the marker's state

Protection and the two write barriers, and when they keep the marking invariant. A node may be
protected through a partition that is not its own; then it is grayed and listed there, and the
invariant survives only if that changes nothing.

## Main definitions

* `MarkState.protect`, `MarkState.bind`, `MarkState.regray`
* `MarkState.Unprotects` — nothing but the loss of protection
* `MarkState.Harmless` — protecting a node through a partition does no harm

## Main results

* `Shades.gray_own`, `Shades.protect_own`, `Shades.bind`, `Shades.regray`, `Shades.unprotects`
* `Inv.protect`, `Inv.setRefs_bind`, `Inv.barrier`
-/

namespace GcLite

namespace MarkState

/-- Protect a node, and gray it in partition `i` if that is marking. -/
def protect (s : MarkState) (i : ℕ) (n : NodePtr) : MarkState :=
  if s.marking i then { s with prot := Function.update s.prot n true }.shade i n
  else { s with prot := Function.update s.prot n true }

/-- Gray a node, in its partition's list if that is marking. -/
def grayOwn (s : MarkState) (n : NodePtr) : MarkState :=
  if s.marking (s.pid n) then s.shade (s.pid n) n
  else { s with color := Function.update s.color n .gray }

/-- The barrier for a reference from `m` to `c`. -/
def bind (s : MarkState) (m c : NodePtr) : MarkState :=
  let s := if s.color m = .black ∧ s.color c ≠ .black then s.grayOwn c else s
  if s.pid m ≠ s.pid c ∧ s.color c ≠ .black ∧ s.marking (s.pid c) then s.shade (s.pid c) c else s

/-- The barrier for any write to `m`. -/
def regray (s : MarkState) (m : NodePtr) : MarkState :=
  if s.marking (s.pid m) ∧ s.color m = .black then
    { s with color := Function.update s.color m .gray }.shade (s.pid m) m
  else s

/-- The second state is the first with some nodes unprotected. -/
def Unprotects (s t : MarkState) : Prop :=
  ∃ prot, t = { s with prot := prot } ∧ ∀ n, prot n = true → s.prot n = true

theorem Unprotects.refl (s : MarkState) : Unprotects s s := ⟨s.prot, rfl, fun _ h => h⟩

theorem Unprotects.trans {s t u : MarkState} (h₁ : Unprotects s t) (h₂ : Unprotects t u) :
    Unprotects s u := by
  obtain ⟨p, rfl, hp⟩ := h₁
  obtain ⟨q, rfl, hq⟩ := h₂
  exact ⟨q, rfl, fun n hn => hp n (hq n hn)⟩

/-- Protecting `n` through partition `i` does no harm: `i` is its own partition, or the node is
found already and nothing is put on a list. -/
def Harmless (s : MarkState) (i : ℕ) (n : NodePtr) : Prop :=
  s.pid n = i ∨
    (s.marking i = true ∧ (s.color n = .black ∨ (s.color n = .gray ∧ s.listed n = true))) ∨
    (s.marking i = false ∧ (s.marking (s.pid n) = true → s.color n ≠ .white))

variable {s t : MarkState} {i j : ℕ} {n m c : NodePtr}

/-! ### Shading -/

theorem shade_color (hm : m ≠ n) : (s.shade i n).color m = s.color m := by
  unfold shade
  split
  · rfl
  · simp [hm]

theorem shade_color_self_ne_white : (s.shade i n).color n ≠ .white := by
  unfold shade
  split
  · next hb => simp [hb]
  · simp

theorem mem_shade_gray (hm : m ∈ s.gray j) : m ∈ (s.shade i n).gray j := by
  unfold shade
  split
  · exact hm
  · dsimp only
    split
    · exact List.mem_cons_of_mem _ hm
    · exact hm

theorem shade_same : (s.shade i n).count = s.count ∧ (s.shade i n).chain = s.chain ∧
    (s.shade i n).marking = s.marking ∧ (s.shade i n).pid = s.pid ∧ (s.shade i n).refs = s.refs ∧
    (s.shade i n).prot = s.prot := by
  unfold shade
  split <;> exact ⟨rfl, rfl, rfl, rfl, rfl, rfl⟩

/-- A shaded node that was not black is on the list of its partition. -/
theorem mem_gray_shade_own (hs : s.Wf) (hn : s.Live n) (hb : s.color n ≠ .black) :
    n ∈ (s.shade (s.pid n) n).gray (s.pid n) := by
  have hmem : n ∈ s.chain (s.pid n) := (hs.mem_chain_iff hn).mpr rfl
  rw [shade, if_neg hb]
  by_cases hl : s.listed n = true
  · simpa [hl] using hs.listed_mem _ n hmem hl
  · simp [hs.lt_count hmem, hl]

/-- The colour of a node is no concern of this invariant. -/
theorem Wf.setColor (hs : s.Wf) (f : NodePtr → GcTriColor) : Wf { s with color := f } :=
  ⟨⟨hs.range, hs.own⟩, hs.listed_mem⟩

theorem Wf.setProt (hs : s.Wf) (f : NodePtr → Bool) : Wf { s with prot := f } :=
  ⟨⟨hs.range, hs.own⟩, hs.listed_mem⟩

/-- Once a node is gray, adding it to a list is all that shading has left to do. -/
theorem shade_of_gray (s : MarkState) (hn : s.color n ≠ .black) :
    { s with color := Function.update s.color n .gray }.shade i n = s.shade i n := by
  simp [shade, hn]

theorem Shades.refl (s : MarkState) : Shades s s :=
  ⟨rfl, rfl, rfl, rfl, rfl, fun _ => .inl rfl, fun _ _ hm => hm, fun _ _ hm => .inl hm,
    fun _ hl => .inl hl, fun _ hp => .inl hp⟩

theorem Shades.trans {u : MarkState} (h : Shades s t) (h' : Shades t u) : Shades s u := by
  refine ⟨h'.count.trans h.count, h'.chain.trans h.chain, h'.marking.trans h.marking,
    h'.pid.trans h.pid, h'.refs.trans h.refs, fun m => ?_,
    fun i m hm => h'.gray i m (h.gray i m hm), fun i m hm => ?_, fun m hl => ?_, fun m hp => ?_⟩
  · rcases h'.color m with heq | ⟨hg, hin⟩
    · rw [heq]
      exact (h.color m).imp_right fun ⟨hg, hin⟩ => ⟨hg, fun i hi hm => h'.gray i m (hin i hi hm)⟩
    · rw [h.chain, h.marking] at hin
      exact .inr ⟨hg, hin⟩
  · rcases h'.entry i m hm with hm | ⟨hm, hg⟩
    · refine (h.entry i m hm).imp_right fun ⟨hm, hg⟩ => ⟨hm, ?_⟩
      rcases h'.color m with heq | ⟨hg', -⟩
      · rw [heq, hg]
      · exact hg'
    · exact .inr ⟨h.chain ▸ hm, hg⟩
  · rcases h'.listed m hl with hl | hl
    · exact (h.listed m hl).imp_right fun hin i hi => h'.gray i m (hin i hi)
    · rw [h.chain] at hl
      exact .inr hl
  · rcases h'.prot m hp with hp | hp
    · refine (h.prot m hp).imp_right fun hin i hi hmark => ?_
      rcases h'.color m with heq | ⟨hg, hin'⟩
      · rw [heq]
        exact (hin i hi hmark).imp_right fun ⟨hg, hm⟩ => ⟨hg, h'.gray i m hm⟩
      · exact .inr ⟨hg, hin' i (h.chain ▸ hi) (h.marking ▸ hmark)⟩
    · rw [h.chain, h.marking] at hp
      exact .inr hp

/-- Graying a node, whatever its colour, and listing it in its own partition. -/
theorem Shades.gray_own (hs : s.Wf) (hn : s.Live n) :
    Shades s ({ s with color := Function.update s.color n .gray }.shade (s.pid n) n) := by
  set u : MarkState := { s with color := Function.update s.color n .gray } with hu
  have hb : u.color n ≠ .black := by simp [hu]
  have hmem : n ∈ (u.shade (s.pid n) n).gray (s.pid n) :=
    mem_gray_shade_own (s := u) (hs.setColor _) hn hb
  have hgray : (u.shade (s.pid n) n).color n = .gray := by simp [shade, hu]
  have hin : ∀ i, n ∈ s.chain i → n ∈ (u.shade (s.pid n) n).gray i := fun i hi => by
    rwa [← hs.own i n hi]
  obtain ⟨hcount, hchain, hmarking, hpid, hrefs, hprot⟩ :=
    shade_same (s := u) (i := s.pid n) (n := n)
  refine ⟨hcount, hchain, hmarking, hpid, hrefs, fun m => ?_,
    fun j m hm => mem_shade_gray (s := u) hm, fun j m hm => ?_, fun m hl => ?_,
    fun m hm => .inl (hprot ▸ hm)⟩
  · by_cases hmn : m = n
    · subst hmn
      exact .inr ⟨hgray, fun i hi _ => hin i hi⟩
    · exact .inl ((shade_color (s := u) hmn).trans (by simp [hu, hmn]))
  · rw [shade, if_neg hb] at hm
    dsimp only at hm
    split at hm
    · next hj =>
      rcases List.mem_cons.mp hm with rfl | hm
      · exact .inr ⟨(hs.mem_chain_iff hn).mpr hj.1.symm, hgray⟩
      · exact .inl hm
    · exact .inl hm
  · by_cases hmn : m = n
    · exact .inr (hmn ▸ hin)
    · rw [shade, if_neg hb] at hl
      exact .inl (by simpa [hmn] using hl)

theorem Shades.shade_own (hs : s.Wf) (hn : s.Live n) : Shades s (s.shade (s.pid n) n) := by
  by_cases hb : s.color n = .black
  · rw [shade, if_pos hb]
    exact .refl s
  · rw [← shade_of_gray s hb]
    exact .gray_own hs hn

/-! ### Protection -/

/-- Protecting a node that has been found, or whose partition is not marking. -/
theorem Shades.setProt (hn : ∀ i, n ∈ s.chain i → s.marking i = true →
      s.color n = .black ∨ (s.color n = .gray ∧ n ∈ s.gray i)) :
    Shades s { s with prot := Function.update s.prot n true } := by
  refine ⟨rfl, rfl, rfl, rfl, rfl, fun _ => .inl rfl, fun _ _ hm => hm, fun _ _ hm => .inl hm,
    fun _ hl => .inl hl, fun m hm => ?_⟩
  by_cases hmn : m = n
  · exact .inr (hmn ▸ hn)
  · exact .inl (by simpa [hmn] using hm)

/-- Protecting is graying and then protecting. -/
theorem protect_eq (s : MarkState) (i : ℕ) (n : NodePtr) : s.protect i n =
    { if s.marking i = true then s.shade i n else s with
      prot := Function.update s.prot n true } := by
  unfold protect shade
  split
  · dsimp only
    split <;> rfl
  · rfl

/-- A harmless shading of another partition's list is none. -/
theorem shade_eq_self (hn : s.color n = .black ∨ (s.color n = .gray ∧ s.listed n = true)) :
    s.shade i n = s := by
  unfold shade
  rcases hn with hb | ⟨hg, hl⟩
  · rw [if_pos hb]
  · rw [if_neg (by simp [hg])]
    refine MarkState.ext rfl rfl (funext fun j => ?_) rfl ?_ ?_ rfl rfl rfl
    · simp [hl]
    · exact Function.update_eq_self_iff.mpr hg.symm
    · exact Function.update_eq_self_iff.mpr hl.symm

theorem Shades.protect_own (hs : s.Wf) (hn : s.Live n) : Shades s (s.protect (s.pid n) n) := by
  rw [protect_eq]
  split
  · have hshade := Shades.shade_own hs hn
    obtain ⟨-, hchain, -, -, -, hprot⟩ := shade_same (s := s) (i := s.pid n) (n := n)
    have hset := Shades.setProt (s := s.shade (s.pid n) n) (n := n) fun i hi _ => ?_
    · rw [hprot] at hset
      exact hshade.trans hset
    · by_cases hb : s.color n = .black
      · rw [shade, if_pos hb]
        exact .inl hb
      · rw [hchain] at hi
        refine .inr ⟨by simp [shade, hb], ?_⟩
        rw [← hs.own i n hi]
        exact mem_gray_shade_own hs hn hb
  · next hno =>
    refine .setProt fun i hi hmark => ?_
    rw [← hs.own i n hi] at hmark
    exact absurd hmark hno

/-- Protecting a node through another partition, when it has been found in its own or that is not
marking, and the list of the other gets no entry. -/
theorem Shades.protect_found (hs : s.Wf)
    (hother : s.marking i = true → s.color n = .black ∨ (s.color n = .gray ∧ s.listed n = true))
    (hown : s.marking (s.pid n) = true →
      s.color n = .black ∨ (s.color n = .gray ∧ n ∈ s.gray (s.pid n))) :
    Shades s (s.protect i n) := by
  have hself : (if s.marking i = true then s.shade i n else s) = s := by
    split
    · next hi => exact shade_eq_self (hother hi)
    · rfl
  rw [protect_eq, hself]
  refine .setProt fun j hj hmark => ?_
  rw [← hs.own j n hj] at hmark ⊢
  exact hown hmark

/-- **Protection** keeps the invariant, if it is harmless. -/
theorem Inv.protect (h : s.Inv) (hn : s.Live n) (hok : s.Harmless i n) : (s.protect i n).Inv := by
  have hmem : n ∈ s.chain (s.pid n) := (h.mem_chain_iff hn).mpr rfl
  rcases hok with rfl | ⟨-, hok⟩ | ⟨hno, hok⟩
  · exact h.shades (.protect_own h.toWf hn)
  · exact h.shades (.protect_found h.toWf (fun _ => hok)
      fun _ => hok.imp_right fun ⟨hg, hl⟩ => ⟨hg, h.listed_mem _ n hmem hl⟩)
  · refine h.shades (.protect_found h.toWf (fun hi => absurd hi (by simp [hno])) fun hmark => ?_)
    cases hc : s.color n with
    | white => exact absurd hc (hok hmark)
    | gray => exact .inr ⟨rfl, h.gray_mem _ hmark n hmem hc⟩
    | black => exact .inl rfl

theorem Wf.protect (hs : s.Wf) (hn : s.Live n) (hok : s.Harmless i n) : (s.protect i n).Wf := by
  rw [protect_eq]
  refine Wf.setProt ?_ _
  split
  · next hi =>
    rcases hok with rfl | ⟨-, hok⟩ | ⟨hno, -⟩
    · exact hs.shades (.shade_own hs hn)
    · rwa [shade_eq_self hok]
    · rw [hno] at hi
      cases hi
  · exact hs

theorem Shades.unprotects (hst : Unprotects s t) : Shades s t := by
  obtain ⟨prot, rfl, hprot⟩ := hst
  exact ⟨rfl, rfl, rfl, rfl, rfl, fun _ => .inl rfl, fun _ _ hm => hm, fun _ _ hm => .inl hm,
    fun _ hl => .inl hl, fun m hm => .inl (hprot m hm)⟩

/-! ### Barriers -/

theorem Shades.grayOwn (hs : s.Wf) (hn : s.Live n) : Shades s (s.grayOwn n) := by
  unfold MarkState.grayOwn
  split
  · exact .shade_own hs hn
  · next hmark =>
    refine ⟨rfl, rfl, rfl, rfl, rfl, fun m => ?_, fun _ _ hm => hm, fun _ _ hm => .inl hm,
      fun _ hl => .inl hl, fun _ hm => .inl hm⟩
    by_cases hmn : m = n
    · subst hmn
      exact .inr ⟨by simp, fun j hj hjm => absurd ((hs.own j m hj).symm ▸ hjm) hmark⟩
    · exact .inl (by simp [hmn])

theorem grayOwn_same : (s.grayOwn n).count = s.count ∧ (s.grayOwn n).chain = s.chain ∧
    (s.grayOwn n).marking = s.marking ∧ (s.grayOwn n).pid = s.pid ∧ (s.grayOwn n).refs = s.refs ∧
    (s.grayOwn n).prot = s.prot := by
  unfold grayOwn
  split
  · exact shade_same
  · exact ⟨rfl, rfl, rfl, rfl, rfl, rfl⟩

theorem grayOwn_color (hm : m ≠ n) : (s.grayOwn n).color m = s.color m := by
  unfold grayOwn
  split
  · exact shade_color hm
  · simp [hm]

theorem grayOwn_color_self : (s.grayOwn n).color n ≠ .white := by
  unfold grayOwn
  split
  · exact shade_color_self_ne_white
  · simp

/-- The first block of the barrier. -/
def bindOwn (s : MarkState) (m c : NodePtr) : MarkState :=
  if s.color m = .black ∧ s.color c ≠ .black then s.grayOwn c else s

theorem bindOwn_same : (s.bindOwn m c).count = s.count ∧ (s.bindOwn m c).chain = s.chain ∧
    (s.bindOwn m c).marking = s.marking ∧ (s.bindOwn m c).pid = s.pid ∧
    (s.bindOwn m c).refs = s.refs ∧ (s.bindOwn m c).prot = s.prot := by
  unfold bindOwn
  split
  · exact grayOwn_same
  · exact ⟨rfl, rfl, rfl, rfl, rfl, rfl⟩

theorem bindOwn_color (hn : n ≠ c) : (s.bindOwn m c).color n = s.color n := by
  unfold bindOwn
  split
  · exact grayOwn_color hn
  · rfl

/-- The barrier is the first block and then, between partitions, a shading. -/
theorem bind_eq (s : MarkState) (m c : NodePtr) : s.bind m c =
    if s.pid m ≠ s.pid c ∧ (s.bindOwn m c).color c ≠ .black ∧ s.marking (s.pid c) = true then
      (s.bindOwn m c).shade (s.pid c) c else s.bindOwn m c := by
  obtain ⟨-, -, hmarking, hpid, -, -⟩ := bindOwn_same (s := s) (m := m) (c := c)
  have hbind : s.bind m c =
      if (s.bindOwn m c).pid m ≠ (s.bindOwn m c).pid c ∧ (s.bindOwn m c).color c ≠ .black ∧
        (s.bindOwn m c).marking ((s.bindOwn m c).pid c) = true then
        (s.bindOwn m c).shade ((s.bindOwn m c).pid c) c else s.bindOwn m c := rfl
  rw [hbind, hmarking, hpid]

theorem bind_same : (s.bind m c).count = s.count ∧ (s.bind m c).chain = s.chain ∧
    (s.bind m c).marking = s.marking ∧ (s.bind m c).pid = s.pid ∧ (s.bind m c).refs = s.refs ∧
    (s.bind m c).prot = s.prot := by
  obtain ⟨h₁, h₂, h₃, h₄, h₅, h₆⟩ := bindOwn_same (s := s) (m := m) (c := c)
  rw [bind_eq]
  split
  · obtain ⟨g₁, g₂, g₃, g₄, g₅, g₆⟩ := shade_same (s := s.bindOwn m c) (i := s.pid c) (n := c)
    exact ⟨g₁.trans h₁, g₂.trans h₂, g₃.trans h₃, g₄.trans h₄, g₅.trans h₅, g₆.trans h₆⟩
  · exact ⟨h₁, h₂, h₃, h₄, h₅, h₆⟩

theorem bind_color (hn : n ≠ c) : (s.bind m c).color n = s.color n := by
  rw [bind_eq]
  split
  · exact (shade_color hn).trans (bindOwn_color hn)
  · exact bindOwn_color hn

/-- After the barrier, a master that is black has no white slave. -/
theorem bind_color_slave (hm : (s.bind m c).color m = .black) : (s.bind m c).color c ≠ .white := by
  by_cases hmc : m = c
  · subst hmc
    simp [hm]
  · rw [bind_color hmc] at hm
    have hfirst : (s.bindOwn m c).color c ≠ .white := by
      unfold bindOwn
      split
      · exact grayOwn_color_self
      · next hno =>
        have hb : s.color c = .black := by simpa [hm] using hno
        simp [hb]
    rw [bind_eq]
    split
    · exact shade_color_self_ne_white
    · exact hfirst

/-- **The barrier** shades. -/
theorem Shades.bind (hs : s.Wf) (hc : s.Live c) : Shades s (s.bind m c) := by
  have hfirst : Shades s (s.bindOwn m c) := by
    unfold bindOwn
    split
    · exact .grayOwn hs hc
    · exact .refl s
  rw [bind_eq]
  split
  · have hlive : (s.bindOwn m c).Live c := by rwa [Live, hfirst.chain]
    have hnext := Shades.shade_own (hs.shades hfirst) hlive
    rw [hfirst.pid] at hnext
    exact hfirst.trans hnext
  · exact hfirst

theorem shade_setRefs (s : MarkState) (n : NodePtr) (payload : Payload) (i : ℕ) (c : NodePtr) :
    (s.setRefs n payload).shade i c = (s.shade i c).setRefs n payload := by
  unfold shade
  by_cases hb : s.color c = .black
  · rw [if_pos hb, if_pos (show (s.setRefs n payload).color c = .black from hb)]
  · rw [if_neg hb, if_neg (show ¬ (s.setRefs n payload).color c = .black from hb)]
    rfl

theorem bindOwn_setRefs (s : MarkState) (n m c : NodePtr) (payload : Payload) :
    (s.setRefs n payload).bindOwn m c = (s.bindOwn m c).setRefs n payload := by
  have hgray : (s.setRefs n payload).grayOwn c = (s.grayOwn c).setRefs n payload := by
    unfold grayOwn
    by_cases hm : s.marking (s.pid c) = true
    · rw [if_pos hm]
      exact (if_pos hm).trans (shade_setRefs ..)
    · rw [if_neg hm]
      exact if_neg hm
  unfold bindOwn
  by_cases hc : s.color m = .black ∧ s.color c ≠ .black
  · rw [if_pos hc]
    exact (if_pos hc).trans hgray
  · rw [if_neg hc]
    exact if_neg hc

/-- The barrier does not read payloads. -/
theorem bind_setRefs (s : MarkState) (n m c : NodePtr) (payload : Payload) :
    (s.setRefs n payload).bind m c = (s.bind m c).setRefs n payload := by
  rw [bind_eq, bind_eq, bindOwn_setRefs]
  by_cases hc : s.pid m ≠ s.pid c ∧ (s.bindOwn m c).color c ≠ .black ∧ s.marking (s.pid c) = true
  · rw [if_pos hc]
    exact (if_pos hc).trans (shade_setRefs ..)
  · rw [if_neg hc]
    exact if_neg hc

/-- **Binding** a new reference keeps the invariant. -/
theorem Inv.setRefs_bind (h : s.Inv) {payload : Payload} (hc : s.Live c)
    (hpay : ∀ d ∈ payload, d ∈ s.refs m ∨ d = c) : ((s.setRefs m payload).bind m c).Inv := by
  have hst : Shades s (s.bind m c) := .bind h.toWf hc
  rw [bind_setRefs]
  refine (h.shades hst).setRefs fun d hd => ?_
  rw [hst.refs]
  refine (hpay d hd).imp_right ?_
  rintro rfl
  refine ⟨by rwa [Live, hst.chain], fun i _ _ hb _ => bind_color_slave hb⟩

/-- A black node of a marking partition is gray and listed again. -/
theorem regray_eq (s : MarkState) (n : NodePtr) : s.regray n =
    if s.marking (s.pid n) = true ∧ s.color n = .black then
      { s with color := Function.update s.color n .gray }.shade (s.pid n) n else s := rfl

theorem regray_same : (s.regray n).count = s.count ∧ (s.regray n).chain = s.chain ∧
    (s.regray n).marking = s.marking ∧ (s.regray n).pid = s.pid ∧ (s.regray n).refs = s.refs ∧
    (s.regray n).prot = s.prot := by
  rw [regray_eq]
  split
  · exact shade_same (s := { s with color := Function.update s.color n .gray })
  · exact ⟨rfl, rfl, rfl, rfl, rfl, rfl⟩

theorem regray_color_self (hmark : s.marking (s.pid n) = true) : (s.regray n).color n ≠ .black := by
  rw [regray_eq]
  split
  · simp [shade]
  · next hno => exact fun hb => hno ⟨hmark, hb⟩

theorem Shades.regray (hs : s.Wf) (hn : s.Live n) : Shades s (s.regray n) := by
  rw [regray_eq]
  split
  · exact .gray_own hs hn
  · exact .refl s

/-- **Writing a payload behind the barrier** keeps the invariant. -/
theorem Inv.barrier (h : s.Inv) {payload : Payload} (hn : s.Live n)
    (hpay : ∀ c ∈ payload, c ∈ s.refs n ∨ s.Live c) : ((s.regray n).setRefs n payload).Inv := by
  have hst : Shades s (s.regray n) := .regray h.toWf hn
  refine (h.shades hst).setRefs fun c hc => ?_
  rw [hst.refs, hst.chain, hst.marking]
  refine (hpay c hc).imp_right fun hlive => ⟨by rwa [Live, hst.chain], fun i hi hmark hb _ => ?_⟩
  exact absurd hb (regray_color_self ((h.own i n hi).symm ▸ hmark))

end MarkState

end GcLite
