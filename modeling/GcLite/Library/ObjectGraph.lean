import GcLite.Library.TriColor
import Mathlib.Data.Set.Function

/-!
# Objects, references and what a program holds

A graph of objects as a program sees it: it allocates objects, writes their references, and holds on
to some of them. A collection takes objects away.

The objects of one graph may go by other names in another. If the names are kept apart, then doing
the same on both sides keeps them the same. A collection on one side alone keeps them the same too,
as long as nothing that is left refers to what is taken away: the other graph then has objects that
the first has not, but none that the program can reach.

## Main definitions

* `Objects`, `Action`, `Objects.act` — objects, and what a program does to them
* `Objects.collect` — objects are taken away
* `Renames name g s` — the graph `g` is a part of `s` under the names `name`
* `Naming`, `Naming.replay` — number objects in the order of allocation, and never take one away

## Main results

* `Renames.reach` — what can be reached is the same
* `Renames.collect` — a collection goes unnoticed
* `Tracks.replay_all` — the numbering keeps up with what the program does
-/

namespace ObjectGraph

variable {α β : Type*}

/-- What a program does to its objects. -/
inductive Action (α : Type*)
  /-- A new object. -/
  | alloc (a : α) (children : List α)
  /-- Other references for an object. -/
  | write (a : α) (children : List α)
  /-- Hold an object. -/
  | hold (a : α)
  /-- Hold these objects no longer. -/
  | release (as : Set α)

/-- The objects there are, the references of each, and those that the program holds. -/
@[ext]
structure Objects (α : Type*) where
  /-- The objects. -/
  live : Set α
  /-- The references of each. -/
  refs : α → List α
  /-- Those that the program holds. -/
  held : Set α

namespace Objects

/-- No objects. -/
def empty : Objects α := ⟨∅, fun _ => [], ∅⟩

/-- What an action does. -/
def act [DecidableEq α] (g : Objects α) : Action α → Objects α
  | .alloc a children =>
      { g with live := insert a g.live, refs := Function.update g.refs a children }
  | .write a children => { g with refs := Function.update g.refs a children }
  | .hold a => { g with held := insert a g.held }
  | .release as => { g with held := g.held \ as }

/-- Some objects are taken away. -/
def collect (g : Objects α) (freed : Set α) : Objects α := { g with live := g.live \ freed }

@[simp] theorem collect_empty (g : Objects α) : g.collect ∅ = g := by simp [collect]

/-- What the program can reach from what it holds. -/
def reach (g : Objects α) : Set α := TriColor.reach (fun a c => c ∈ g.refs a) g.held

/-- The program holds objects that there are, and they refer to such. -/
structure Closed (g : Objects α) : Prop where
  /-- It holds nothing else. -/
  held : g.held ⊆ g.live
  /-- No reference dangles. -/
  refs : ∀ a ∈ g.live, ∀ c ∈ g.refs a, c ∈ g.live

theorem Closed.reach_subset {g : Objects α} (hg : g.Closed) : g.reach ⊆ g.live :=
  (TriColor.reach_mono hg.held).trans (TriColor.reach_subset_of_closed hg.refs)

end Objects

/-! ### The same graph under other names -/

/-- Under the names `name`, what there is in `g` is a part of `s`. -/
structure Renames (name : α → β) (g : Objects α) (s : Objects β) : Prop where
  /-- Objects have names of their own. -/
  inj : Set.InjOn name g.live
  /-- A name names an object. -/
  live : ∀ a ∈ g.live, name a ∈ s.live
  /-- References are the same under the names. -/
  refs : ∀ a ∈ g.live, s.refs (name a) = (g.refs a).map name
  /-- The same objects are held. -/
  held : s.held = name '' g.held

namespace Renames

variable {name : α → β} {g : Objects α} {s : Objects β} {a : α} {b : β} {children : List α}

/-- **What a program can reach does not depend on the names**, nor on what else there is. -/
theorem reach (h : Renames name g s) (hg : g.Closed) : s.reach = name '' g.reach := by
  ext b
  constructor
  · rintro ⟨r, hr, hpath⟩
    induction hpath with
    | refl =>
      obtain ⟨a, ha, rfl⟩ := h.held ▸ hr
      exact ⟨a, TriColor.subset_reach _ ha, rfl⟩
    | tail _ hbc ih =>
      obtain ⟨a, ha, rfl⟩ := ih
      rw [h.refs a (hg.reach_subset ha)] at hbc
      obtain ⟨c, hc, rfl⟩ := List.mem_map.mp hbc
      obtain ⟨r, hr, hra⟩ := ha
      exact ⟨c, ⟨r, hr, hra.tail hc⟩, rfl⟩
  · rintro ⟨a, ⟨r, hr, hpath⟩, rfl⟩
    refine ⟨name r, h.held ▸ ⟨r, hr, rfl⟩, ?_⟩
    have hlive : ∀ {c}, Relation.ReflTransGen (fun a c => c ∈ g.refs a) r c → c ∈ g.live :=
      fun hc => hg.reach_subset ⟨r, hr, hc⟩
    induction hpath with
    | refl => exact .refl
    | @tail c d hrc hcd ih =>
      refine ih.tail ?_
      rw [h.refs c (hlive hrc)]
      exact List.mem_map_of_mem hcd

/-- **A collection goes unnoticed**, if the program holds nothing of what it takes away. -/
theorem collect (h : Renames name g s) (freed : Set α) : Renames name (g.collect freed) s where
  inj := h.inj.mono Set.sdiff_subset
  live a ha := h.live a ha.1
  refs a ha := h.refs a ha.1
  held := h.held

section

variable [DecidableEq α] [DecidableEq β]

theorem alloc (h : Renames name g s) (hg : g.Closed) (ha : a ∉ g.live) (hb : b ∉ s.live)
    (hchildren : ∀ c ∈ children, c ∈ g.live) :
    Renames (Function.update name a b) (g.act (.alloc a children))
      (s.act (.alloc b (children.map name))) := by
  have hold : ∀ c ∈ g.live, Function.update name a b c = name c := by
    intro c hc
    refine Function.update_of_ne ?_ _ _
    rintro rfl
    exact ha hc
  have hmap : ∀ l : List α, (∀ c ∈ l, c ∈ g.live) →
      l.map (Function.update name a b) = l.map name :=
    fun l hl => List.map_congr_left fun c hc => hold c (hl c hc)
  refine ⟨?_, ?_, ?_, ?_⟩
  · intro c hc d hd heq
    rcases hc with rfl | hc <;> rcases hd with rfl | hd
    · rfl
    · rw [Function.update_self, hold d hd] at heq
      exact absurd (heq ▸ h.live d hd) hb
    · rw [Function.update_self, hold c hc] at heq
      exact absurd (heq ▸ h.live c hc) hb
    · rw [hold c hc, hold d hd] at heq
      exact h.inj hc hd heq
  · rintro c (rfl | hc)
    · rw [Function.update_self]
      exact .inl rfl
    · rw [hold c hc]
      exact .inr (h.live c hc)
  · rintro c (rfl | hc)
    · simp only [Objects.act, Function.update_self]
      exact (hmap children hchildren).symm
    · have hca : c ≠ a := by
        rintro rfl
        exact ha hc
      have hcb : name c ≠ b := by
        rintro rfl
        exact hb (h.live c hc)
      simp only [Objects.act, Function.update_of_ne hca, Function.update_of_ne hcb]
      rw [h.refs c hc, hmap _ (hg.refs c hc)]
  · exact h.held.trans (Set.image_congr fun c hc => (hold c (hg.held hc)).symm)

theorem write (h : Renames name g s) (ha : a ∈ g.live) :
    Renames name (g.act (.write a children)) (s.act (.write (name a) (children.map name))) where
  inj := h.inj
  live := h.live
  refs c hc := by
    by_cases hca : c = a
    · subst hca
      simp only [Objects.act, Function.update_self]
    · have hne : name c ≠ name a := fun heq => hca (h.inj hc ha heq)
      simp only [Objects.act, Function.update_of_ne hca, Function.update_of_ne hne]
      exact h.refs c hc
  held := h.held

theorem hold (h : Renames name g s) :
    Renames name (g.act (.hold a)) (s.act (.hold (name a))) where
  inj := h.inj
  live := h.live
  refs := h.refs
  held := by
    simp only [Objects.act, h.held]
    exact Set.image_insert_eq.symm

theorem release (h : Renames name g s) (hg : g.Closed) {as : Set α} (has : as ⊆ g.live) :
    Renames name (g.act (.release as)) (s.act (.release (name '' as))) where
  inj := h.inj
  live := h.live
  refs := h.refs
  held := by
    simp only [Objects.act, h.held]
    ext b
    constructor
    · rintro ⟨⟨a, ha, rfl⟩, hne⟩
      exact ⟨a, ⟨ha, fun hin => hne ⟨a, hin, rfl⟩⟩, rfl⟩
    · rintro ⟨a, ⟨ha, hout⟩, rfl⟩
      refine ⟨⟨a, ha, rfl⟩, ?_⟩
      rintro ⟨c, hc, heq⟩
      exact hout (h.inj (has hc) (hg.held ha) heq ▸ hc)

end

end Renames

/-! ### Numbering -/

/-- What a program may do: allocate what there is not, and use what there is. -/
def Objects.Allows (g : Objects α) : Action α → Prop
  | .alloc a children => a ∉ g.live ∧ ∀ c ∈ children, c ∈ g.live
  | .write a children => a ∈ g.live ∧ ∀ c ∈ children, c ∈ g.live
  | .hold a => a ∈ g.live
  | .release as => as ⊆ g.live

/-- The same for one thing after another. -/
def Objects.AllowsAll [DecidableEq α] (g : Objects α) : List (Action α) → Prop
  | [] => True
  | a :: as => g.Allows a ∧ (g.act a).AllowsAll as

/-- Objects numbered in the order of allocation: the number of each name, and the graph of all
objects there have ever been. -/
structure Naming (α : Type*) where
  /-- The number of a name. -/
  number : α → ℕ
  /-- All objects, by their numbers. -/
  store : Objects ℕ
  /-- The next number. -/
  count : ℕ

namespace Naming

variable {t : Naming α} {g : Objects α} {a : Action α}

/-- Nothing has been allocated. -/
def start (number : α → ℕ) : Naming α := ⟨number, .empty, 0⟩

/-- The graph is a part of all there has ever been. -/
structure Tracks (t : Naming α) (g : Objects α) : Prop where
  /-- The numbers name the same objects in the store. -/
  renames : Renames t.number g t.store
  /-- The numbers given away are those of the objects in the store. -/
  count : ∀ o, o ∈ t.store.live ↔ o < t.count

theorem Tracks.start (number : α → ℕ) (hg : g.Closed) (hlive : g.live = ∅) :
    (start number).Tracks g := by
  have hheld : g.held = ∅ := Set.subset_empty_iff.mp (hlive ▸ hg.held)
  refine ⟨⟨?_, ?_, ?_, ?_⟩, fun o => ⟨fun ho => ho.elim, fun ho => absurd ho (Nat.not_lt_zero o)⟩⟩
  · exact hlive ▸ Set.injOn_empty number
  · exact fun a ha => (hlive ▸ ha : a ∈ (∅ : Set α)).elim
  · exact fun a ha => (hlive ▸ ha : a ∈ (∅ : Set α)).elim
  · rw [hheld, Set.image_empty]
    rfl

/-- A collection is not replayed. -/
theorem Tracks.collect (h : t.Tracks g) (freed : Set α) : t.Tracks (g.collect freed) :=
  ⟨h.renames.collect freed, h.count⟩

variable [DecidableEq α]

/-- Do the same with the numbers. A new object has a new number, whatever its name was before. -/
def replay (t : Naming α) : Action α → Naming α
  | .alloc a children =>
      ⟨Function.update t.number a t.count, t.store.act (.alloc t.count (children.map t.number)),
        t.count + 1⟩
  | .write a children =>
      { t with store := t.store.act (.write (t.number a) (children.map t.number)) }
  | .hold a => { t with store := t.store.act (.hold (t.number a)) }
  | .release as => { t with store := t.store.act (.release (t.number '' as)) }

/-- Whatever a program does, its objects stay closed, and the numbering keeps up. -/
theorem Tracks.replay (h : t.Tracks g) (hg : g.Closed) (ha : g.Allows a) :
    (t.replay a).Tracks (g.act a) ∧ (g.act a).Closed := by
  cases a with
  | alloc a children =>
    obtain ⟨ha, hchildren⟩ := ha
    have hb : t.count ∉ t.store.live := fun hin => Nat.lt_irrefl _ ((h.count _).mp hin)
    refine ⟨⟨h.renames.alloc hg ha hb hchildren, fun o => ?_⟩, ?_, ?_⟩
    · change o ∈ insert t.count t.store.live ↔ o < t.count + 1
      rw [Set.mem_insert_iff, h.count, Nat.lt_succ_iff_lt_or_eq, or_comm]
    · exact fun c hc => .inr (hg.held hc)
    · rintro c (rfl | hc) d hd
      · simp only [Objects.act, Function.update_self] at hd
        exact .inr (hchildren d hd)
      · have hca : c ≠ a := by
          rintro rfl
          exact ha hc
        simp only [Objects.act, Function.update_of_ne hca] at hd
        exact .inr (hg.refs c hc d hd)
  | write a children =>
    obtain ⟨ha, hchildren⟩ := ha
    refine ⟨⟨h.renames.write ha, h.count⟩, hg.held, fun c hc d hd => ?_⟩
    by_cases hca : c = a
    · subst hca
      simp only [Objects.act, Function.update_self] at hd
      exact hchildren d hd
    · simp only [Objects.act, Function.update_of_ne hca] at hd
      exact hg.refs c hc d hd
  | hold a => exact ⟨⟨h.renames.hold, h.count⟩, Set.insert_subset ha hg.held, hg.refs⟩
  | release as =>
    exact ⟨⟨h.renames.release hg ha, h.count⟩, Set.sdiff_subset.trans hg.held, hg.refs⟩

/-- **A numbering keeps up** with whatever a program does. -/
theorem Tracks.replay_all {as : List (Action α)} (h : t.Tracks g) (hg : g.Closed)
    (has : g.AllowsAll as) : (as.foldl Naming.replay t).Tracks (as.foldl Objects.act g) := by
  induction as generalizing t g with
  | nil => exact h
  | cons a as ih =>
    obtain ⟨h', hg'⟩ := h.replay hg has.1
    exact ih h' hg' has.2

end Naming

end ObjectGraph
