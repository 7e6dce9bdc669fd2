import GcLite.Derive
import GcLite.Library.Gather
import GcLite.MarkView
import Mathlib.Logic.Relation

/-!
# Trace functions

What `trace.rs` implements for containers, and `gc-lite-macros` for structs and enums, together: a
value is a tree, with a constructor for each implementation of `GcTrace`, and tracing it visits its
components. A component is visited with its own trace function, with a function of the host, or not
at all. Of a value of a foreign type only the references in it are known.

A map or a set is the list of its entries in the order of iteration. The `trace` of an array and of
a vector is that of their slice. A tuple may have any number of components here.

## Main definitions

* `Value` — values, by the implementation of `GcTrace` for their type
* `Value.trace` — what `GcTrace::trace` does
* `Value.components` — the parts of a value, with what tracing does with each
* `Value.Occurs` — a reference occurs in the value, outside the fields that are skipped
* `Value.Typed`, `Value.Unborrowed` — what the compiler accepts, and what does not panic

## Main results

* `trace_eq_foldlM` — tracing visits the components
* `gathers_trace`, `trace_complete` — tracing finds what occurs, each reference once
* `HasPayload.mem_refs` — the references of a node whose payload is the value
-/

namespace GcLite

open Gather Relation

/-- The references that have been collected. -/
structure GcTraceCtx where
  /-- The nodes, in the order in which they were found. -/
  tracedNodes : List NodePtr
deriving DecidableEq

/-- `add_node` -/
def GcTraceCtx.addNode (gcx : GcTraceCtx) (n : NodePtr) : GcTraceCtx :=
  ⟨GcHeap.addTraced gcx.tracedNodes n⟩

/-- A value of a type that implements `GcTrace`. -/
inductive Value
  /-- `GcRef<T>` -/
  | gcRef (node : NodePtr)
  /-- Primitive types, strings and `PhantomData`. -/
  | plain
  /-- `Box<T>` -/
  | box (v : Value)
  /-- `Rc<T>` -/
  | rc (v : Value)
  /-- `Arc<T>` -/
  | arc (v : Value)
  /-- `Cell<T>` -/
  | cell (v : Value)
  /-- `RefCell<T>`, which may be borrowed mutably at the moment. -/
  | refCell (mutablyBorrowed : Bool) (v : Value)
  /-- `Option<T>` -/
  | option (v : Option Value)
  /-- `Result<T, E>` -/
  | ok (v : Value)
  /-- `Result<T, E>` -/
  | err (v : Value)
  /-- `[T]` -/
  | slice (items : List Value)
  /-- `[T; N]` -/
  | array (items : List Value)
  /-- `Vec<T>` -/
  | vec (items : List Value)
  /-- `VecDeque<T>` -/
  | vecDeque (items : List Value)
  /-- A tuple. -/
  | tuple (fields : List Value)
  /-- `HashMap<K, V>`, in the order in which it is iterated. -/
  | hashMap (entries : List (Value × Value))
  /-- `BTreeMap<K, V>` -/
  | bTreeMap (entries : List (Value × Value))
  /-- `HashSet<T>`, in the order in which it is iterated. -/
  | hashSet (items : List Value)
  /-- `BTreeSet<T>` -/
  | bTreeSet (items : List Value)
  /-- A struct or an enum that derives `GcTrace`: its declaration, which of its constructors the
  value has, and the fields. -/
  | derived (input : DeriveInput) (ctor : ℕ) (fields : List Value)
  /-- A type without `GcTrace`. -/
  | foreign (nodes : List NodePtr)

namespace Value

/-! ### Tracing -/

section

-- the functions that `#[gc(with)]` names
variable (host : String → Value → GcTraceCtx → Option GcTraceCtx)

mutual

/-- `GcTrace::trace`; `none` when it panics, and when there is no such function. -/
def trace : Value → GcTraceCtx → Option GcTraceCtx
  | gcRef node, gcx => some (gcx.addNode node)
  | plain, gcx => some gcx
  | box v, gcx => trace v gcx
  | rc v, gcx => trace v gcx
  | arc v, gcx => trace v gcx
  | cell v, gcx => trace v gcx
  | refCell mutablyBorrowed v, gcx => if mutablyBorrowed then none else trace v gcx
  | option none, gcx => some gcx
  | option (some v), gcx => trace v gcx
  | ok v, gcx => trace v gcx
  | err v, gcx => trace v gcx
  | slice items, gcx => traceItems items gcx
  | array items, gcx => traceItems items gcx
  | vec items, gcx => traceItems items gcx
  | vecDeque items, gcx => traceItems items gcx
  | tuple fields, gcx => traceItems fields gcx
  | hashMap entries, gcx => traceEntries entries gcx
  | bTreeMap entries, gcx => traceEntries entries gcx
  | hashSet items, gcx => traceItems items gcx
  | bTreeSet items, gcx => traceItems items gcx
  | derived input ctor fields, gcx =>
    match expandGcTrace input, input.data.ctors[ctor]? with
    | .ok code, some c => code.body.run c (fieldRuns fields) gcx
    | _, _ => none
  | foreign _, _ => none

/-- `for item in self { item.trace(gcx); }` -/
def traceItems : List Value → GcTraceCtx → Option GcTraceCtx
  | [], gcx => some gcx
  | v :: items, gcx => (trace v gcx).bind (traceItems items)

/-- `for (k, v) in self { k.trace(gcx); v.trace(gcx); }` -/
def traceEntries : List (Value × Value) → GcTraceCtx → Option GcTraceCtx
  | [], gcx => some gcx
  | (k, v) :: entries, gcx =>
    ((trace k gcx).bind (trace v)).bind (traceEntries entries)

/-- What the derived code can do with the fields. -/
def fieldRuns : List Value → List (FieldRun GcTraceCtx)
  | [] => []
  | v :: fields => ⟨trace v, fun path => host path v⟩ :: fieldRuns fields

end

/-- `GcTrace::gc_children` -/
def gcChildren (v : Value) : Option (List NodePtr) := (v.trace host ⟨[]⟩).map (·.tracedNodes)

end

/-! ### Components -/

/-- The fields of a derived value with what is to be done with each. -/
def fieldKinds (input : DeriveInput) (ctor : ℕ) (fields : List Value) : List (FieldKind × Value) :=
  match input.data.ctors[ctor]? with
  | some c => match c.fields.kinds with
    | .ok kinds => kinds.zip fields
    | .error _ => []
  | none => []

/-- The parts of a value. -/
def components : Value → List (FieldKind × Value)
  | gcRef _ | plain | foreign _ => []
  | box v | rc v | arc v | cell v | refCell _ v | ok v | err v => [(.trace, v)]
  | option v => v.toList.map (.trace, ·)
  | slice items | array items | vec items | vecDeque items | tuple items | hashSet items
  | bTreeSet items => items.map (.trace, ·)
  | hashMap entries | bTreeMap entries => entries.flatMap fun (k, v) => [(.trace, k), (.trace, v)]
  | derived input ctor fields => fieldKinds input ctor fields

/-- The reference occurs in the value, outside fields that are skipped. -/
inductive Occurs (n : NodePtr) : Value → Prop
  /-- It is the value. -/
  | gcRef : Occurs n (.gcRef n)
  /-- A function of the host may find it. -/
  | foreign {nodes : List NodePtr} (hn : n ∈ nodes) : Occurs n (.foreign nodes)
  /-- It occurs in a part that is not skipped. -/
  | inside {kind : FieldKind} {u v : Value} (hu : (kind, u) ∈ v.components) (hskip : kind ≠ .skip)
      (hn : Occurs n u) : Occurs n v

/-- Tracing the first value comes to call `trace` on the second. -/
def Reaches : Value → Value → Prop := ReflTransGen fun v u => (.trace, u) ∈ v.components

/-- The compiler has accepted the value's type, as far as its outermost constructor goes. -/
def Typed : Value → Prop
  | derived input ctor fields => (∃ code, expandGcTrace input = .ok code) ∧
      ∃ c, input.data.ctors[ctor]? = some c ∧ fields.length = c.fields.attrs.length
  | foreign _ => False
  | _ => True

/-- It is not a mutably borrowed cell. -/
def Unborrowed : Value → Prop
  | refCell mutablyBorrowed _ => mutablyBorrowed = false
  | _ => True

/-! ### Induction over components -/

variable {u v w : Value} {n : NodePtr} {kind : FieldKind}

theorem mem_fields_of_mem_fieldKinds {input : DeriveInput} {ctor : ℕ} {fields : List Value}
    (hu : (kind, u) ∈ fieldKinds input ctor fields) : u ∈ fields := by
  unfold fieldKinds at hu
  split at hu
  · split at hu
    · exact (List.of_mem_zip hu).2
    · cases hu
  · cases hu

/-- Components are smaller. -/
theorem sizeOf_lt_of_mem_components (hu : (kind, u) ∈ v.components) : sizeOf u < sizeOf v := by
  have hitems : ∀ {items : List Value}, (kind, u) ∈ items.map ((.trace, ·) : Value → _) →
      sizeOf u < sizeOf items := by
    intro items hu
    obtain ⟨u', hu', heq⟩ := List.mem_map.mp hu
    cases heq
    exact List.sizeOf_lt_of_mem hu'
  have hentries : ∀ {entries : List (Value × Value)},
      (kind, u) ∈ (entries.flatMap fun (k, v) => [(.trace, k), (.trace, v)]) →
      sizeOf u < sizeOf entries := by
    intro entries hu
    obtain ⟨⟨k, v⟩, he, hu⟩ := List.mem_flatMap.mp hu
    have hlt := List.sizeOf_lt_of_mem he
    rw [Prod.mk.sizeOf_spec] at hlt
    rcases List.mem_pair.mp hu with heq | heq <;> cases heq <;> omega
  cases v with
  | gcRef | plain | foreign => cases hu
  | box | rc | arc | cell | refCell | ok | err =>
    cases List.mem_singleton.mp hu
    simp
  | option v =>
    cases v with
    | none => cases hu
    | some v =>
      cases List.mem_singleton.mp hu
      simp
      omega
  | slice | array | vec | vecDeque | tuple | hashSet | bTreeSet =>
    have hlt := hitems hu
    simp
    omega
  | hashMap | bTreeMap =>
    have hlt := hentries hu
    simp
    omega
  | derived input ctor fields =>
    have hlt := List.sizeOf_lt_of_mem (mem_fields_of_mem_fieldKinds hu)
    simp
    omega

/-- What holds of a value if it holds of its components holds of every value. -/
theorem induct {P : Value → Prop} (hP : ∀ v, (∀ kind u, (kind, u) ∈ v.components → P u) → P v)
    (v : Value) : P v :=
  hP v fun _ u hu =>
    have := sizeOf_lt_of_mem_components hu
    induct hP u
termination_by sizeOf v

/-! ### Tracing visits the components -/

variable {host : String → Value → GcTraceCtx → Option GcTraceCtx} {gcx : GcTraceCtx}

/-- A component is visited as its kind says. -/
def visit (host : String → Value → GcTraceCtx → Option GcTraceCtx) (c : FieldKind × Value) :
    GcTraceCtx → Option GcTraceCtx :=
  c.1.run ⟨c.2.trace host, fun path => host path c.2⟩

theorem traceItems_eq {items : List Value} : ∀ {gcx : GcTraceCtx}, traceItems host items gcx =
    (items.map (FieldKind.trace, ·)).foldlM (fun gcx c => visit host c gcx) gcx := by
  induction items with
  | nil => exact fun {gcx} => rfl
  | cons v items ih =>
    intro gcx
    rw [traceItems, List.map_cons, List.foldlM_cons]
    exact congrArg _ (funext fun gcx => ih)

theorem traceEntries_eq {entries : List (Value × Value)} : ∀ {gcx : GcTraceCtx},
    traceEntries host entries gcx =
      (entries.flatMap fun (k, v) => [(FieldKind.trace, k), (.trace, v)]).foldlM
        (fun gcx c => visit host c gcx) gcx := by
  induction entries with
  | nil => exact fun {gcx} => rfl
  | cons e entries ih =>
    intro gcx
    obtain ⟨k, v⟩ := e
    rw [traceEntries, List.flatMap_cons, List.foldlM_append]
    have hpair : (trace host k gcx).bind (trace host v) =
        [(FieldKind.trace, k), (.trace, v)].foldlM (fun gcx c => visit host c gcx) gcx := by
      simp [visit, FieldKind.run]
    rw [hpair]
    exact congrArg _ (funext fun gcx => ih)

theorem fieldRuns_eq {fields : List Value} : fieldRuns host fields =
    fields.map fun v => ⟨v.trace host, fun path => host path v⟩ := by
  induction fields with
  | nil => rfl
  | cons v fields ih => rw [fieldRuns, ih, List.map_cons]

/-- **Tracing visits the components**, in order. -/
theorem trace_eq_foldlM (htyped : v.Typed) (hfree : v.Unborrowed) (hnode : ∀ n, v ≠ gcRef n) :
    v.trace host gcx = v.components.foldlM (fun gcx c => visit host c gcx) gcx := by
  cases v with
  | gcRef n => exact absurd rfl (hnode n)
  | plain => rfl
  | foreign nodes => cases htyped
  | box v | rc v | arc v | cell v | ok v | err v =>
    simp [trace, components, visit, FieldKind.run]
  | refCell mutablyBorrowed v =>
    obtain rfl : mutablyBorrowed = false := hfree
    simp [trace, components, visit, FieldKind.run]
  | option v =>
    cases v with
    | none => rfl
    | some v => simp [trace, components, visit, FieldKind.run]
  | slice | array | vec | vecDeque | tuple | hashSet | bTreeSet =>
    rw [trace, traceItems_eq]
    rfl
  | hashMap | bTreeMap =>
    rw [trace, traceEntries_eq]
    rfl
  | derived input ctor fields =>
    obtain ⟨⟨code, hcode⟩, c, hc, hlen⟩ := htyped
    obtain ⟨kinds, hkinds, hrun⟩ := run_expandGcTrace (σ := GcTraceCtx) hcode
      (List.mem_of_getElem? hc)
    have hkinds' : fieldKinds input ctor fields = kinds.zip fields := by
      simp only [fieldKinds, hc, hkinds]
    have hfields : (fieldRuns host fields).length = kinds.length := by
      rw [fieldRuns_eq, List.length_map, hlen]
      exact (forall₂_of_mapM hkinds).length_eq
    simp only [trace, hcode, hc]
    rw [hrun _ hfields, fieldRuns_eq, List.zip_map_right, List.foldlM_map, components, hkinds']
    rfl

/-! ### Tracing gathers what occurs -/

/-- The functions that `#[gc(with)]` names trace their fields completely. -/
def HostComplete (host : String → Value → GcTraceCtx → Option GcTraceCtx) (v : Value) : Prop :=
  ∀ u, v.Reaches u → ∀ path w, (.withPath path, w) ∈ u.components →
    Gathers GcTraceCtx.tracedNodes (host path w) {n | w.Occurs n}

theorem gathers_addNode (n : NodePtr) :
    Gathers GcTraceCtx.tracedNodes (fun gcx => some (gcx.addNode n)) {n} :=
  fun gcx => ⟨gcx.addNode n, rfl, .insert rfl⟩

theorem occurs_gcRef_iff {m : NodePtr} : (gcRef m).Occurs n ↔ n = m := by
  constructor
  · rintro (_ | _ | ⟨hu, -, -⟩)
    · rfl
    · cases hu
  · rintro rfl
    exact .gcRef

/-- Of a value that can be traced, what occurs occurs in a component. -/
theorem occurs_iff (htyped : v.Typed) (hnode : ∀ n, v ≠ gcRef n) :
    v.Occurs n ↔ ∃ c ∈ v.components, c.1 ≠ .skip ∧ c.2.Occurs n := by
  constructor
  · rintro (_ | _ | ⟨hu, hskip, hn⟩)
    · exact absurd rfl (hnode n)
    · cases htyped
    · exact ⟨_, hu, hskip, hn⟩
  · rintro ⟨⟨kind, u⟩, hu, hskip, hn⟩
    exact .inside hu hskip hn

/-- **Tracing gathers what occurs.** -/
theorem gathers_trace (htyped : ∀ u, v.Reaches u → u.Typed)
    (hfree : ∀ u, v.Reaches u → u.Unborrowed) (hhost : HostComplete host v) :
    Gathers GcTraceCtx.tracedNodes (v.trace host) {n | v.Occurs n} := by
  induction v using induct with
  | hP v ih =>
  by_cases hnode : ∃ n, v = gcRef n
  · obtain ⟨m, rfl⟩ := hnode
    exact (gathers_addNode m).congr fun n => occurs_gcRef_iff.symm
  replace hnode : ∀ n, v ≠ gcRef n := fun n heq => hnode ⟨n, heq⟩
  have hvisit : ∀ c ∈ v.components, Gathers GcTraceCtx.tracedNodes (visit host c)
      {n | c.1 ≠ .skip ∧ c.2.Occurs n} := by
    rintro ⟨kind, u⟩ hu
    cases kind with
    | trace =>
      have hstep : ∀ w, u.Reaches w → v.Reaches w := fun w hw => .head hu hw
      have htrace := ih _ u hu (fun w hw => htyped w (hstep w hw))
        (fun w hw => hfree w (hstep w hw)) fun w hw => hhost w (hstep w hw)
      exact htrace.congr fun n => (and_iff_right nofun).symm
    | skip => exact Gathers.skip.congr fun n => iff_of_false id fun hn => hn.1 rfl
    | withPath path => exact (hhost v .refl path u hu).congr fun n => (and_iff_right nofun).symm
  have htrace : v.trace host = fun gcx => v.components.foldlM (fun gcx c => visit host c gcx) gcx :=
    funext fun gcx => trace_eq_foldlM (htyped v .refl) (hfree v .refl) hnode
  rw [htrace]
  exact (Gathers.foldlM hvisit).congr fun n => (occurs_iff (htyped v .refl) hnode).symm

end Value

/-! ### Payloads -/

namespace GcHeap

open Value

/-- The payload of the node is the value: what is known of it are the references that tracing the
value reports. -/
def HasPayload (h : GcHeap) (host : String → Value → GcTraceCtx → Option GcTraceCtx) (n : NodePtr)
    (v : Value) : Prop :=
  ∀ gcx, v.trace host gcx = some ⟨(h.refs n).foldl addTraced gcx.tracedNodes⟩

variable {h : GcHeap} {host : String → Value → GcTraceCtx → Option GcTraceCtx} {n m : NodePtr}
  {v : Value}

/-- The marker pops the children that the value's trace function has left. -/
theorem HasPayload.gcChildren (hv : h.HasPayload host n v) :
    v.gcChildren host = some (h.traced n).reverse := by
  rw [Value.gcChildren, hv, traced, List.reverse_reverse]
  rfl

/-- They are what occurs in the value. -/
theorem HasPayload.mem_refs (hv : h.HasPayload host n v) (htyped : ∀ u, v.Reaches u → u.Typed)
    (hfree : ∀ u, v.Reaches u → u.Unborrowed) (hhost : HostComplete host v) :
    m ∈ h.refs n ↔ v.Occurs m := by
  obtain ⟨gcx, htrace, hadds⟩ := gathers_trace htyped hfree hhost ⟨[]⟩
  rw [hv] at htrace
  obtain rfl := Option.some.inj htrace
  have hmem : m ∈ h.traced n ↔ m ∈ [] ∨ v.Occurs m := by
    rw [traced, List.mem_reverse]
    exact hadds.mem m
  rw [← mem_traced, hmem]
  simp

end GcHeap

open Value in
/-- **Tracing is complete and free of duplicates.** With functions that trace their fields
completely, tracing a value leaves in an empty context the references that occur in the value
outside the fields that are skipped, and each of them once. -/
theorem trace_complete {host : String → Value → GcTraceCtx → Option GcTraceCtx} {v : Value}
    (htyped : ∀ u, v.Reaches u → u.Typed) (hfree : ∀ u, v.Reaches u → u.Unborrowed)
    (hhost : HostComplete host v) : ∃ gcx, v.trace host ⟨[]⟩ = some gcx ∧
      gcx.tracedNodes.Nodup ∧ ∀ n, n ∈ gcx.tracedNodes ↔ v.Occurs n := by
  obtain ⟨gcx, htrace, hadds⟩ := gathers_trace htyped hfree hhost ⟨[]⟩
  exact ⟨gcx, htrace, hadds.nodup .nil, fun n => (hadds.mem n).trans (by simp)⟩

namespace Value

/-- A set of values that is closed under tracing has all that tracing comes to. -/
theorem mem_of_reaches {S : Set Value}
    (hclosed : ∀ w ∈ S, ∀ u, (.trace, u) ∈ w.components → u ∈ S) {v : Value} (hv : v ∈ S) :
    ∀ u, v.Reaches u → u ∈ S := by
  intro u hu
  induction hu with
  | refl => exact hv
  | tail _ hstep ih => exact hclosed _ ih _ hstep

/-- `struct Root { chain: Option<GcRef<..>>, #[gc(skip)] hidden: .., #[gc(with = "trace_bag")] bag:
.., list: Vec<GcRef<..>> }` -/
def rootInput : DeriveInput where
  ident := "Root"
  generics := []
  data := .struct (.named [⟨"chain", []⟩, ⟨"hidden", [.gc [.skip]]⟩,
    ⟨"bag", [.other "doc", .gc [.withPath (.ok "trace_bag")]]⟩, ⟨"list", []⟩] (by decide))

/-- The functions of a host that has one for bags. -/
def bagHost (path : String) (v : Value) (gcx : GcTraceCtx) : Option GcTraceCtx :=
  match path, v with
  | "trace_bag", .foreign nodes => nodes.foldlM (fun gcx n => some (gcx.addNode n)) gcx
  | _, _ => none

/-- A root with a reference in the skipped field, and two that occur twice. -/
def rootValue : Value := .derived rootInput 0
  [.option (some (.gcRef 1000)), .foreign [2000], .foreign [3000, 1000],
    .vec [.gcRef 3000, .gcRef 4000]]

end Value

open Value in
theorem trace_complete_root : ∃ gcx, rootValue.trace bagHost ⟨[]⟩ = some gcx ∧
    gcx.tracedNodes.Nodup ∧ ∀ n, n ∈ gcx.tracedNodes ↔ rootValue.Occurs n := by
  have hcomponents : rootValue.components = [(.trace, .option (some (.gcRef 1000))),
      (.skip, .foreign [2000]), (.withPath "trace_bag", .foreign [3000, 1000]),
      (.trace, .vec [.gcRef 3000, .gcRef 4000])] := rfl
  have hreaches : ∀ u, rootValue.Reaches u → u ∈ ({rootValue, .option (some (.gcRef 1000)),
      .gcRef 1000, .vec [.gcRef 3000, .gcRef 4000], .gcRef 3000, .gcRef 4000} : Set Value) := by
    refine mem_of_reaches (fun w hw u hu => ?_) (.inl rfl)
    rcases hw with rfl | rfl | rfl | rfl | rfl | rfl
    · rw [hcomponents] at hu
      simp only [List.mem_cons, Prod.mk.injEq, reduceCtorEq, false_and, false_or, true_and,
        List.not_mem_nil, or_false] at hu
      rcases hu with rfl | rfl <;> simp
    · cases List.mem_singleton.mp hu
      simp
    · cases hu
    · rcases List.mem_pair.mp hu with heq | heq <;> cases heq <;> simp
    · cases hu
    · cases hu
  refine trace_complete (fun u hu => ?_) (fun u hu => ?_) fun u hu path w hw => ?_
  · rcases hreaches u hu with rfl | rfl | rfl | rfl | rfl | rfl
    · exact ⟨⟨_, rfl⟩, _, rfl, rfl⟩
    all_goals trivial
  · rcases hreaches u hu with rfl | rfl | rfl | rfl | rfl | rfl <;> trivial
  · rcases hreaches u hu with rfl | rfl | rfl | rfl | rfl | rfl
    · rw [hcomponents] at hw
      simp only [List.mem_cons, Prod.mk.injEq, reduceCtorEq, false_and, false_or,
        List.not_mem_nil, or_false, FieldKind.withPath.injEq] at hw
      obtain ⟨rfl, rfl⟩ := hw
      refine (Gathers.foldlM fun n _ => gathers_addNode n).congr fun n => ?_
      constructor
      · rintro ⟨m, hm, rfl⟩
        exact .foreign hm
      · rintro (_ | hn | ⟨hu, -, -⟩)
        · exact ⟨n, hn, rfl⟩
        · cases hu
    · cases List.mem_singleton.mp hw
    · cases hw
    · rcases List.mem_pair.mp hw with heq | heq <;> cases heq
    · cases hw
    · cases hw

end GcLite
