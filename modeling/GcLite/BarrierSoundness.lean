import GcLite.MarkOps

/-!
# The two write barriers compared

A state is sound when no black node refers to a white node whose partition is marking. `bind` looks
at the slave's partition and grays the slave; `with_write_barrier` looks at the master's partition
and grays the master. Both only gray nodes, so what is left to ask is whether the new reference is
sound, and for the second barrier it need not be: a black master whose partition has finished its
cycle is left alone, although the slave's partition is still marking.

## Main definitions

* `MarkState.Sound`, `GcHeap.Sound`

## Main results

* `Sound.setRefs_iff` — adding a reference keeps a sound state sound when the reference is
* `barriers_sound_iff` — `bind` always is enough, and when `with_write_barrier` is
* `withWriteBarrier_unsound` — it is not after the master's partition has been swept
-/

namespace GcLite

namespace MarkState

variable {s t : MarkState} {i : ℕ} {m n c : NodePtr}

/-- No black node refers to a white node whose partition is marking. -/
def Sound (s : MarkState) : Prop :=
  ∀ m, s.Live m → s.color m = .black → ∀ c ∈ s.refs m, s.color c = .white →
    s.marking (s.pid c) = false

/-! ### Barriers only gray -/

theorem shade_color_or (s : MarkState) (i : ℕ) (n m : NodePtr) :
    (s.shade i n).color m = s.color m ∨ (s.shade i n).color m = .gray := by
  by_cases hm : m = n
  · subst hm
    unfold shade
    split
    · exact .inl rfl
    · exact .inr (by simp)
  · exact .inl (shade_color hm)

/-- Shading after graying. -/
private theorem color_or_trans {u : MarkState}
    (hst : t.color m = s.color m ∨ t.color m = .gray)
    (htu : u.color m = t.color m ∨ u.color m = .gray) :
    u.color m = s.color m ∨ u.color m = .gray := by
  rcases htu with htu | htu
  · rwa [htu]
  · exact .inr htu

theorem grayed_color_or (s : MarkState) (n m : NodePtr) :
    Function.update s.color n .gray m = s.color m ∨ Function.update s.color n .gray m = .gray := by
  by_cases hm : m = n
  · exact .inr (by simp [hm])
  · exact .inl (by simp [hm])

theorem bind_color_or (s : MarkState) (m c n : NodePtr) :
    (s.bind m c).color n = s.color n ∨ (s.bind m c).color n = .gray := by
  have hfirst : (s.bindOwn m c).color n = s.color n ∨ (s.bindOwn m c).color n = .gray := by
    unfold bindOwn grayOwn
    split
    · split
      · exact shade_color_or s _ c n
      · exact grayed_color_or s c n
    · exact .inl rfl
  rw [bind_eq]
  split
  · exact color_or_trans hfirst (shade_color_or _ _ c n)
  · exact hfirst

theorem regray_color_or (s : MarkState) (n m : NodePtr) :
    (s.regray n).color m = s.color m ∨ (s.regray n).color m = .gray := by
  rw [regray_eq]
  split
  · exact color_or_trans (t := { s with color := _ }) (grayed_color_or s n m)
      (shade_color_or _ _ n m)
  · exact .inl rfl

/-- Graying nodes keeps a state sound. -/
theorem Sound.of_graying (hs : s.Sound) (hchain : t.chain = s.chain)
    (hmarking : t.marking = s.marking) (hpid : t.pid = s.pid) (hrefs : t.refs = s.refs)
    (hcolor : ∀ n, t.color n = s.color n ∨ t.color n = .gray) : t.Sound := by
  have hkeep : ∀ {n}, t.color n ≠ .gray → t.color n = s.color n :=
    fun hn => (hcolor _).resolve_right hn
  intro m hm hb c hc hw
  rw [Live, hchain] at hm
  rw [hrefs] at hc
  rw [hmarking, hpid]
  exact hs m hm ((hkeep (by simp [hb])).symm.trans hb) c hc ((hkeep (by simp [hw])).symm.trans hw)

theorem Sound.bind (hs : s.Sound) : (s.bind m c).Sound := by
  obtain ⟨-, hchain, hmarking, hpid, hrefs, -⟩ := bind_same (s := s) (m := m) (c := c)
  exact hs.of_graying hchain hmarking hpid hrefs (bind_color_or s m c)

theorem Sound.regray (hs : s.Sound) : (s.regray m).Sound := by
  obtain ⟨-, hchain, hmarking, hpid, hrefs, -⟩ := regray_same (s := s) (n := m)
  exact hs.of_graying hchain hmarking hpid hrefs (regray_color_or s m)

/-! ### The new reference -/

/-- A sound state stays sound when the only reference added to a payload is. -/
theorem Sound.setRefs_iff (hs : s.Sound) {payload : Payload} (hm : s.Live m) (hc : c ∈ payload)
    (hpay : ∀ d ∈ payload, d ∈ s.refs m ∨ d = c) : (s.setRefs m payload).Sound ↔
      (s.color m = .black → s.color c = .white → s.marking (s.pid c) = false) := by
  constructor
  · intro hnew hb
    exact hnew m hm hb c (by simpa [MarkState.setRefs] using hc)
  · intro hadd m' hm' hb d hd hw
    by_cases hmm : m' = m
    · subst hmm
      simp only [MarkState.setRefs, Function.update_self] at hd
      rcases hpay d hd with hold | rfl
      · exact hs m' hm' hb d hold hw
      · exact hadd hb hw
    · simp only [MarkState.setRefs, Function.update_of_ne hmm] at hd
      exact hs m' hm' hb d hd hw

/-- With `bind` it always is. -/
theorem Sound.setRefs_bind (hs : s.Sound) {payload : Payload} (hm : s.Live m) (hc : c ∈ payload)
    (hpay : ∀ d ∈ payload, d ∈ s.refs m ∨ d = c) : ((s.setRefs m payload).bind m c).Sound := by
  obtain ⟨-, hchain, -, -, hrefs, -⟩ := bind_same (s := s) (m := m) (c := c)
  rw [bind_setRefs]
  refine (hs.bind.setRefs_iff (by rwa [Live, hchain]) hc (by rwa [hrefs])).mpr fun hb hw => ?_
  exact absurd hw (bind_color_slave hb)

/-- With `with_write_barrier` it is unless a black master is left black. -/
theorem Sound.barrier_iff (hs : s.Sound) {payload : Payload} (hm : s.Live m) (hc : c ∈ payload)
    (hpay : ∀ d ∈ payload, d ∈ s.refs m ∨ d = c) : ((s.regray m).setRefs m payload).Sound ↔
      ¬ (s.color m = .black ∧ s.marking (s.pid m) = false ∧
        s.color c = .white ∧ s.marking (s.pid c) = true) := by
  obtain ⟨-, hchain, hmarking, hpid, hrefs, -⟩ := regray_same (s := s) (n := m)
  rw [hs.regray.setRefs_iff (by rwa [Live, hchain]) hc (by rwa [hrefs]), hmarking, hpid]
  by_cases hmark : s.marking (s.pid m) = true
  · simp [regray_color_self hmark, hmark]
  · have hsame : s.regray m = s := by rw [regray_eq, if_neg fun h => hmark h.1]
    simp [hsame, hmark]

end MarkState

/-- A heap is sound when its marker's state is. -/
def GcHeap.Sound (h : GcHeap) : Prop := h.view.Sound

namespace GcHeap

variable {h : GcHeap}

theorem sound_iff : h.Sound ↔ ∀ q ∈ h.partitions, ∀ m ∈ q.nodes, (h.head m).color = .black →
    ∀ c ∈ h.refs m, (h.head c).color = .white → (h.par (h.head c).partitionId).marking = false := by
  constructor
  · exact fun hs q hq m hm => hs m (live_iff.mpr ⟨q, hq, hm⟩)
  · intro hs m hm
    obtain ⟨q, hq, hm⟩ := live_iff.mp hm
    exact hs q hq m hm

instance : Decidable h.Sound := decidable_of_iff' _ sound_iff

end GcHeap

/-- **The barriers do not agree.** In a sound heap, a payload write that adds a reference from `m`
to `s` and keeps others leads to a sound heap with `bind`; and with `with_write_barrier` exactly if
it is not the case that `m` is black, its partition is not marking, `s` is white and its partition
is. -/
theorem barriers_sound_iff {h : GcHeap} {m s : NodePtr} {f : Payload → Payload} (hsound : h.Sound)
    (hm : h.Live m) (hs : s ∈ f (h.refs m)) (hf : ∀ c ∈ f (h.refs m), c ∈ h.refs m ∨ c = s) :
    ((h.setRefs m (f (h.refs m))).bind m s).Sound ∧
      ((h.withWriteBarrier m f).Sound ↔
        ¬ ((h.head m).color = .black ∧ (h.par (h.head m).partitionId).marking = false ∧
          (h.head s).color = .white ∧ (h.par (h.head s).partitionId).marking = true)) := by
  refine ⟨?_, ?_⟩
  · rw [GcHeap.Sound, GcHeap.view_bind, GcHeap.view_setRefs]
    exact MarkState.Sound.setRefs_bind hsound hm hs hf
  · rw [GcHeap.Sound, GcHeap.view_withWriteBarrier]
    exact MarkState.Sound.barrier_iff hsound hm hs hf

/-- Partition 0 has been collected, so its root is black and partition 1 is still marking; then a
node is allocated there. -/
private theorem exists_swept_master : ∃ h : GcHeap, Reachable h ∧ h.Sound ∧
    h.refs 1000 = [] ∧ h.Live 1000 ∧ h.Live 2000 ∧
    ¬ (h.withWriteBarrier 1000 fun _ => [2000]).Sound :=
  exists_of_play (gcTypeTableInternal 24 8 [⟨8, 8, true, none⟩])
    [.createPartition 0 0 none, .createPartition 0 0 none, .allocRootRaw 0 0 [] (some 1000),
      .garbageCollect 0, .allocRaw 1 0 [] (some 2000)]
    (by decide +kernel)

/-- A reference from a black root of a swept partition to a new node of a marking one. -/
theorem withWriteBarrier_unsound : ∃ (h : GcHeap) (m s : NodePtr), Reachable h ∧ h.Sound ∧
    h.Live m ∧ h.Live s ∧ h.refs m = [] ∧ ¬ (h.withWriteBarrier m fun _ => [s]).Sound := by
  obtain ⟨h, hr, hsound, hrefs, hm, hs, hun⟩ := exists_swept_master
  exact ⟨h, 1000, 2000, hr, hsound, hm, hs, hrefs, hun⟩

/-- There `bind` is enough. -/
theorem bind_sound_swept : ∃ (h : GcHeap) (m s : NodePtr), h.Sound ∧
    ((h.setRefs m [s]).bind m s).Sound ∧ ¬ (h.withWriteBarrier m fun _ => [s]).Sound := by
  obtain ⟨h, -, hsound, hrefs, hm, -, hun⟩ := exists_swept_master
  have hboth := barriers_sound_iff (s := 2000) (f := fun _ => [2000]) hsound hm (by simp) (by simp)
  exact ⟨h, 1000, 2000, hsound, hboth.1, hun⟩

end GcLite
