import Mathlib.Data.List.Nodup
import Mathlib.Tactic.Common

/-!
# The derived trace function

What `#[derive(GcTrace)]` generates for a declaration, and what the generated code does. The
generator goes over the fields of a struct, or of each variant of an enum, and emits at most one
statement for a field, as the field's `gc` attributes say. In a struct the statements name the
fields of `self`; in an enum they name the variables that the pattern of their match arm binds, and
a skipped field is bound to nothing.

A declaration is as `syn` hands it over, so the names of its fields and of its variants are
distinct. The variable that `format_ident!("__field_{}", i)` names is known by its index.

Left out: spans, the parsed tokens of types, and the name of the context variable.

## Main definitions

* `DeriveInput` — a declaration, `TraceImpl` — the generated code
* `fieldKind`, `namedFieldStmts`, `unnamedFieldStmts`, `variantArm`, `expandGcTrace`
* `Body.run` — what the generated code does

## Main results

* `fieldKind_eq_ok_iff` — the attributes that are accepted
* `run_expandGcTrace` — the generated code visits the fields that are not skipped, in order
-/

namespace GcLite

/-! ### Declarations -/

/-- An entry of a `#[gc(...)]` attribute. -/
inductive GcMeta
  /-- `skip` -/
  | skip
  /-- `with = "path"`, and what parsing the path gives. -/
  | withPath (path : Except String String)
  /-- Anything else. -/
  | other (name : String)

/-- An attribute of a field. -/
inductive Attribute
  /-- `#[gc(...)]` -/
  | gc (metas : List GcMeta)
  /-- An attribute that the derive passes over. -/
  | other (path : String)

/-- The entries of the attribute that the derive looks at. -/
def Attribute.metas : Attribute → List GcMeta
  | .gc metas => metas
  | .other _ => []

/-- A field with a name. -/
structure NamedField where
  /-- Its name. -/
  ident : String
  /-- Its attributes, in order. -/
  attrs : List Attribute

/-- The fields of a struct or of a variant. A declaration that compiles does not repeat a name. -/
inductive Fields
  /-- `{ ident: T, ... }` -/
  | named (fields : List NamedField) (distinct : (fields.map NamedField.ident).Nodup)
  /-- `(T, ...)` -/
  | unnamed (fields : List (List Attribute))
  /-- No fields at all. -/
  | unit

/-- A variant of an enum. -/
structure Variant where
  /-- Its name. -/
  ident : String
  /-- Its fields. -/
  fields : Fields

/-- What is declared. -/
inductive Data
  /-- A struct. -/
  | struct (fields : Fields)
  /-- An enum. A declaration that compiles does not repeat a variant's name. -/
  | enum (variants : List Variant) (distinct : (variants.map Variant.ident).Nodup)
  /-- A union, for which nothing can be derived. -/
  | union

/-- A parameter of the declaration. -/
inductive GenericParam
  /-- A type parameter, with the bounds that it has. -/
  | type (ident : String) (bounds : List String)
  /-- A lifetime. -/
  | lifetime (ident : String)
  /-- A constant. -/
  | const (ident : String)

/-- The input of the derive macro. -/
structure DeriveInput where
  /-- The name of the type. -/
  ident : String
  /-- Its parameters. -/
  generics : List GenericParam
  /-- What is declared. -/
  data : Data

/-! ### Generated code -/

/-- How a statement names a field. -/
inductive Place
  /-- `&self.ident` -/
  | selfField (ident : String)
  /-- `&self.0`, `&self.1` and so on. -/
  | selfIndex (i : ℕ)
  /-- The variable that the pattern `ident,` binds. -/
  | bound (ident : String)
  /-- The variable `__field_0`, `__field_1` and so on. -/
  | boundIndex (i : ℕ)

/-- A statement of the generated function. -/
inductive Stmt
  /-- `::gc_lite::GcTrace::trace(place, ctx);` -/
  | trace (place : Place)
  /-- `path(place, ctx);` -/
  | call (path : String) (place : Place)

/-- The pattern of a match arm. -/
inductive Pattern
  /-- Each field by its name: bound to a variable of this name, or to `_`. -/
  | named (fields : List (String × Bool))
  /-- Each field in its place: bound to `__field_i`, or to `_`. -/
  | unnamed (fields : List (Option ℕ))
  /-- No fields. -/
  | unit

/-- A match arm, `Self::variant pattern => stmts`. -/
structure Arm where
  /-- The variant that is matched. -/
  variant : String
  /-- What is bound. -/
  pattern : Pattern
  /-- What is done then. -/
  stmts : List Stmt

/-- The body of the generated function. -/
inductive Body
  /-- The body for a struct. -/
  | sequence (stmts : List Stmt)
  /-- `match self` -/
  | matchSelf (arms : List Arm)

/-- `impl GcTrace for name`. -/
structure TraceImpl where
  /-- The name of the type. -/
  name : String
  /-- Its parameters, with their bounds. -/
  generics : List GenericParam
  /-- The body of `trace`. -/
  body : Body

/-! ### The generator -/

/-- What a field's attributes ask for. -/
inductive FieldKind
  /-- Trace the field; this is the default. -/
  | trace
  /-- Leave the field out. -/
  | skip
  /-- Call a function for the field. -/
  | withPath (path : String)
deriving DecidableEq

/-- The entries that have been read so far, and one more. -/
def addMeta (kind : Option FieldKind) (entry : GcMeta) : Except String (Option FieldKind) := do
  let newKind ← match entry with
    | .skip => pure .skip
    | .withPath path => FieldKind.withPath <$> path
    | .other _ =>
      .error "unknown `gc` attribute; expected `#[gc(skip)]` or `#[gc(with = \"path\")]`"
  if kind.isSome then
    .error "duplicate `gc` attribute on the same field"
  return some newKind

/-- `field_kind`: at most one entry in all the attributes of a field. -/
def fieldKind (attrs : List Attribute) : Except String FieldKind := do
  let kind ← (attrs.flatMap Attribute.metas).foldlM addMeta none
  return kind.getD .trace

/-- One statement for each field that is not skipped. -/
def fieldStmts (places : List Place) (kinds : List FieldKind) : List Stmt :=
  (places.zip kinds).flatMap fun (place, kind) => match kind with
    | .skip => []
    | .trace => [.trace place]
    | .withPath path => [.call path place]

/-- The statements for the fields of `self` that have names. -/
def namedFieldStmts (fields : List NamedField) : Except String (List Stmt) := do
  let kinds ← fields.mapM fun f => fieldKind f.attrs
  return fieldStmts (fields.map fun f => .selfField f.ident) kinds

/-- The statements for the fields of `self` that have none. -/
def unnamedFieldStmts (fields : List (List Attribute)) : Except String (List Stmt) := do
  let kinds ← fields.mapM fieldKind
  return fieldStmts ((List.range fields.length).map .selfIndex) kinds

/-- The match arm for a variant. -/
def variantArm (v : Variant) : Except String Arm :=
  match v.fields with
  | .named fields _ => do
    let kinds ← fields.mapM fun f => fieldKind f.attrs
    let pattern := (fields.zip kinds).map fun (f, kind) => (f.ident, kind != .skip)
    return ⟨v.ident, .named pattern, fieldStmts (fields.map fun f => .bound f.ident) kinds⟩
  | .unnamed fields => do
    let kinds ← fields.mapM fieldKind
    let pattern := kinds.zipIdx.map fun (kind, i) => if kind = .skip then none else some i
    return ⟨v.ident, .unnamed pattern,
      fieldStmts ((List.range fields.length).map .boundIndex) kinds⟩
  | .unit => return ⟨v.ident, .unit, []⟩

/-- A type parameter gets the bound `GcTrace`. -/
def GenericParam.addBound : GenericParam → GenericParam
  | .type ident bounds => .type ident (bounds ++ ["::gc_lite::GcTrace"])
  | p => p

/-- The body of the function for a struct. -/
def structStmts : Fields → Except String (List Stmt)
  | .named fields _ => namedFieldStmts fields
  | .unnamed fields => unnamedFieldStmts fields
  | .unit => return []

/-- `expand_gc_trace` -/
def expandGcTrace (input : DeriveInput) : Except String TraceImpl :=
  match input.data with
  | .union => .error "GcTrace cannot be derived for unions"
  | .struct fields => do
    let stmts ← structStmts fields
    return ⟨input.ident, input.generics.map .addBound, .sequence stmts⟩
  | .enum variants _ => do
    let arms ← variants.mapM variantArm
    return ⟨input.ident, input.generics.map .addBound, .matchSelf arms⟩

/-! ### What the generated code does -/

variable {σ : Type*}

/-- What can be done with the value of a field: call its `trace`, or a function of the host. -/
structure FieldRun (σ : Type*) where
  /-- Its `trace`. -/
  trace : σ → Option σ
  /-- The function at a path. -/
  call : String → σ → Option σ

/-- A struct, or one of the variants of an enum. -/
structure Ctor where
  /-- The name of a variant; `none` for a struct. -/
  variant : Option String
  /-- Its fields. -/
  fields : Fields

/-- What a value may have been built with. -/
def Data.ctors : Data → List Ctor
  | .struct fields => [⟨none, fields⟩]
  | .enum variants _ => variants.map fun v => ⟨some v.ident, v.fields⟩
  | .union => []

/-- The attributes of each field. -/
def Fields.attrs : Fields → List (List Attribute)
  | .named fields _ => fields.map NamedField.attrs
  | .unnamed fields => fields
  | .unit => []

/-- What is to be done with each field. -/
def Fields.kinds (fields : Fields) : Except String (List FieldKind) := fields.attrs.mapM fieldKind

/-- The position of a field with a name. -/
def Fields.position : Fields → String → Option ℕ
  | .named fields _, ident => fields.findIdx? fun f => f.ident = ident
  | _, _ => none

/-- The field of `self` that a place names. -/
def Fields.selfIndex? (fields : Fields) : Place → Option ℕ
  | .selfField ident => fields.position ident
  | .selfIndex i => some i
  | _ => none

/-- The field whose variable a place names. -/
def Pattern.index? (fields : Fields) : Pattern → Place → Option ℕ
  | .named entries, .bound ident =>
    if (ident, true) ∈ entries then fields.position ident else none
  | .unnamed entries, .boundIndex i => entries.findIdx? fun entry => entry = some i
  | _, _ => none

/-- The field that the statement is about. -/
def Stmt.place : Stmt → Place
  | .trace place => place
  | .call _ place => place

/-- What the statement does with the field's value. -/
def Stmt.run (f : FieldRun σ) : Stmt → σ → Option σ
  | .trace _ => f.trace
  | .call path _ => f.call path

/-- The statements one after the other; `none` if one of them panics. -/
def runStmts (index : Place → Option ℕ) (values : List (FieldRun σ)) (stmts : List Stmt) (s : σ) :
    Option σ :=
  stmts.foldlM (fun s stmt =>
    ((index stmt.place).bind (values[·]?)).bind fun f => stmt.run f s) s

/-- The code on a value with a constructor and the values of its fields. -/
def Body.run (ctor : Ctor) (values : List (FieldRun σ)) (s : σ) : Body → Option σ
  | .sequence stmts => runStmts ctor.fields.selfIndex? values stmts s
  | .matchSelf arms => (arms.find? fun arm => some arm.variant = ctor.variant).bind fun arm =>
      runStmts (arm.pattern.index? ctor.fields) values arm.stmts s

/-! ### Attributes -/

/-- What is to be done with a field, done. -/
def FieldKind.run (f : FieldRun σ) : FieldKind → σ → Option σ
  | .trace => f.trace
  | .skip => some
  | .withPath path => f.call path

/-- The kind that one entry asks for. -/
def GcMeta.kind? : GcMeta → Option FieldKind
  | .skip => some .skip
  | .withPath path => FieldKind.withPath <$> path.toOption
  | .other _ => none

/-- The first entry is accepted if it asks for something. -/
theorem addMeta_none (entry : GcMeta) :
    (∃ kind, entry.kind? = some kind ∧ addMeta none entry = .ok (some kind)) ∨
      (entry.kind? = none ∧ ∃ e, addMeta none entry = .error e) := by
  cases entry with
  | skip => exact .inl ⟨_, rfl, rfl⟩
  | withPath path =>
    cases path with
    | error e => exact .inr ⟨rfl, e, rfl⟩
    | ok path => exact .inl ⟨_, rfl, rfl⟩
  | other name => exact .inr ⟨rfl, _, rfl⟩

/-- A second one never is. -/
theorem addMeta_some (kind : FieldKind) (entry : GcMeta) :
    ∃ e, addMeta (some kind) entry = .error e := by
  cases entry with
  | skip => exact ⟨_, rfl⟩
  | withPath path => cases path <;> exact ⟨_, rfl⟩
  | other name => exact ⟨_, rfl⟩

/-- **The attributes of a field** are accepted if they have no entry, or a single one that asks for
something. -/
theorem fieldKind_eq_ok_iff {attrs : List Attribute} {kind : FieldKind} :
    fieldKind attrs = .ok kind ↔ (attrs.flatMap Attribute.metas = [] ∧ kind = .trace) ∨
      ∃ entry, attrs.flatMap Attribute.metas = [entry] ∧ entry.kind? = some kind := by
  rw [fieldKind]
  rcases attrs.flatMap Attribute.metas with _ | ⟨entry, _ | ⟨entry', metas⟩⟩
  · change Except.ok FieldKind.trace = .ok kind ↔ _
    simp [eq_comm]
  · rcases addMeta_none entry with ⟨k, hk, hok⟩ | ⟨hk, e, herr⟩
    · rw [List.foldlM_cons, hok]
      change Except.ok k = .ok kind ↔ _
      simp [hk]
    · rw [List.foldlM_cons, herr]
      exact iff_of_false nofun (by simp [hk])
  · obtain ⟨e, herr⟩ : ∃ e, (entry :: entry' :: metas).foldlM addMeta none = .error e := by
      rcases addMeta_none entry with ⟨k, -, hok⟩ | ⟨-, e, herr⟩
      · obtain ⟨e, herr⟩ := addMeta_some k entry'
        refine ⟨e, ?_⟩
        rw [List.foldlM_cons, hok]
        change (addMeta (some k) entry').bind _ = _
        rw [herr]
        rfl
      · refine ⟨e, ?_⟩
        rw [List.foldlM_cons, herr]
        rfl
    rw [herr]
    exact iff_of_false nofun (by simp)

/-! ### The generated code visits the fields -/

/-- A sequence that succeeds has succeeded in both parts. -/
theorem exists_of_bind_eq_ok {α β ε : Type} {x : Except ε α} {f : α → Except ε β} {b : β}
    (hok : x >>= f = .ok b) : ∃ a, x = .ok a ∧ f a = .ok b := by
  cases x with
  | error e => cases hok
  | ok a => exact ⟨a, rfl, hok⟩

/-- A loop that succeeds has succeeded on every element. -/
theorem forall₂_of_mapM {α β ε : Type} {f : α → Except ε β} {l : List α} :
    ∀ {l' : List β}, l.mapM f = .ok l' → List.Forall₂ (fun a b => f a = .ok b) l l' := by
  induction l with
  | nil =>
    intro l' hok
    cases hok
    exact .nil
  | cons a l ih =>
    intro l' hok
    rw [List.mapM_cons] at hok
    obtain ⟨b, ha, hok⟩ := exists_of_bind_eq_ok hok
    obtain ⟨bs, hl, hok⟩ := exists_of_bind_eq_ok hok
    cases hok
    exact .cons ha (ih hl)

/-- The field with the name of field `j` is field `j`. -/
theorem position_of_getElem? {fields : List NamedField}
    (distinct : (fields.map NamedField.ident).Nodup) {j : ℕ} {f : NamedField}
    (hj : fields[j]? = some f) : (Fields.named fields distinct).position f.ident = some j := by
  obtain ⟨hlt, rfl⟩ := List.getElem?_eq_some_iff.mp hj
  refine List.findIdx?_eq_some_iff_getElem.mpr ⟨hlt, decide_eq_true rfl, fun i hij => ?_⟩
  have hi : i < fields.length := Nat.lt_trans hij hlt
  have hne := List.pairwise_iff_getElem.mp (List.pairwise_map.mp distinct) i j hi hlt hij
  simpa using hne

/-- Statements that name the right fields visit them in order. The induction is on the fields, and
`before` are those that have been visited. -/
theorem runStmts_fieldStmts {index : Place → Option ℕ} {all : List (FieldRun σ)} :
    ∀ (values before : List (FieldRun σ)) (places : List Place) (kinds : List FieldKind),
    all = before ++ values → places.length = values.length → kinds.length = values.length →
    (∀ j place kind, places[j]? = some place → kinds[j]? = some kind → kind ≠ .skip →
      index place = some (before.length + j)) →
    ∀ s, runStmts index all (fieldStmts places kinds) s =
      (kinds.zip values).foldlM (fun s (kind, f) => kind.run f s) s := by
  intro values
  induction values with
  | nil =>
    intro before places kinds _ hplaces hkinds _ s
    rw [List.length_eq_zero_iff.mp hplaces, List.length_eq_zero_iff.mp hkinds]
    rfl
  | cons f values ih =>
    rintro before (_ | ⟨place, places⟩) (_ | ⟨kind, kinds⟩) hall hplaces hkinds hindex s
    · cases hplaces
    · cases hplaces
    · cases hkinds
    have hrest : ∀ s, runStmts index all (fieldStmts places kinds) s =
        (kinds.zip values).foldlM (fun s (kind, f) => kind.run f s) s := by
      refine ih (before ++ [f]) places kinds (by simp [hall]) (Nat.succ.inj hplaces)
        (Nat.succ.inj hkinds) fun j p k hp hk hskip => ?_
      rw [hindex (j + 1) p k hp hk hskip, List.length_append, List.length_singleton]
      congr 1
      omega
    have hfirst : kind ≠ .skip → (index place).bind (all[·]?) = some f := by
      intro hskip
      rw [hindex 0 place kind rfl rfl hskip, hall]
      simp
    rw [List.zip_cons_cons, List.foldlM_cons]
    cases kind with
    | skip => exact hrest s
    | trace =>
      change ((index place).bind (all[·]?)).bind _ >>= _ = _
      rw [hfirst nofun]
      exact congrArg _ (funext hrest)
    | withPath path =>
      change ((index place).bind (all[·]?)).bind _ >>= _ = _
      rw [hfirst nofun]
      exact congrArg _ (funext hrest)

/-- The code of a struct or a variant that names its fields by `place`. -/
theorem runStmts_eq {A : Type*} {index : Place → Option ℕ} {fields : List A} {place : A → Place}
    {kinds : List FieldKind} {values : List (FieldRun σ)} (hfields : fields.length = kinds.length)
    (hvalues : values.length = kinds.length)
    (hindex : ∀ j f kind, fields[j]? = some f → kinds[j]? = some kind → kind ≠ .skip →
      index (place f) = some j) (s : σ) :
    runStmts index values (fieldStmts (fields.map place) kinds) s =
      (kinds.zip values).foldlM (fun s (kind, f) => kind.run f s) s := by
  refine runStmts_fieldStmts values [] (fields.map place) kinds rfl
    (by rw [List.length_map, hfields, hvalues]) hvalues.symm (fun j p kind hp hk hskip => ?_) s
  rw [List.getElem?_map] at hp
  obtain ⟨f, hf, rfl⟩ := Option.map_eq_some_iff.mp hp
  rw [List.length_nil, Nat.zero_add]
  exact hindex j f kind hf hk hskip

theorem kinds_named {fields : List NamedField} {distinct : (fields.map NamedField.ident).Nodup} :
    (Fields.named fields distinct).kinds = fields.mapM fun f => fieldKind f.attrs :=
  List.mapM_map ..

/-- The code of a struct. -/
theorem run_struct {fields : Fields} {stmts : List Stmt}
    (hok : structStmts fields = .ok stmts) :
    ∃ kinds, fields.kinds = .ok kinds ∧ ∀ values : List (FieldRun σ),
      values.length = kinds.length → ∀ s, runStmts fields.selfIndex? values stmts s =
        (kinds.zip values).foldlM (fun s (kind, f) => kind.run f s) s := by
  cases fields with
  | named fields distinct =>
    obtain ⟨kinds, hkinds, hstmts⟩ := exists_of_bind_eq_ok hok
    cases hstmts
    have hlen := (forall₂_of_mapM hkinds).length_eq
    exact ⟨kinds, kinds_named.trans hkinds, fun values hvalues =>
      runStmts_eq hlen hvalues fun j f kind hf _ _ => position_of_getElem? distinct hf⟩
  | unnamed fields =>
    obtain ⟨kinds, hkinds, hstmts⟩ := exists_of_bind_eq_ok hok
    cases hstmts
    have hlen := (forall₂_of_mapM hkinds).length_eq
    refine ⟨kinds, hkinds, fun values hvalues =>
      runStmts_eq (by simpa using hlen) hvalues fun j i kind hi _ _ => ?_⟩
    obtain ⟨-, rfl⟩ := List.getElem?_eq_some_iff.mp hi
    simp [Fields.selfIndex?]
  | unit =>
    cases hok
    refine ⟨[], rfl, fun values hvalues s => ?_⟩
    rw [List.length_eq_zero_iff.mp hvalues]
    rfl

/-- The variable of a field that is not skipped is the field's. -/
theorem index?_boundIndex {fields : Fields} {kinds : List FieldKind} {j : ℕ} {kind : FieldKind}
    (hk : kinds[j]? = some kind) (hskip : kind ≠ .skip) :
    (Pattern.unnamed (kinds.zipIdx.map fun (kind, i) =>
      if kind = .skip then none else some i)).index? fields (.boundIndex j) = some j := by
  obtain ⟨hlt, rfl⟩ := List.getElem?_eq_some_iff.mp hk
  refine List.findIdx?_eq_some_iff_getElem.mpr ⟨by simpa using hlt, ?_, fun i hij => ?_⟩
  · simp [hskip]
  · simp only [List.getElem_map, List.getElem_zipIdx]
    split
    · simp
    · simp [Nat.ne_of_lt hij]

/-- The code of a match arm. -/
theorem run_variantArm {v : Variant} {arm : Arm} (hok : variantArm v = .ok arm) :
    arm.variant = v.ident ∧ ∃ kinds, v.fields.kinds = .ok kinds ∧
      ∀ values : List (FieldRun σ), values.length = kinds.length → ∀ s,
        runStmts (arm.pattern.index? v.fields) values arm.stmts s =
          (kinds.zip values).foldlM (fun s (kind, f) => kind.run f s) s := by
  obtain ⟨ident, fields⟩ := v
  cases fields with
  | named fields distinct =>
    obtain ⟨kinds, hkinds, harm⟩ := exists_of_bind_eq_ok hok
    cases harm
    have hlen := (forall₂_of_mapM hkinds).length_eq
    refine ⟨rfl, kinds, kinds_named.trans hkinds, fun values hvalues =>
      runStmts_eq hlen hvalues fun j f kind hf hk hskip => ?_⟩
    refine (if_pos ?_).trans (position_of_getElem? distinct hf)
    have hzip : (f, kind) ∈ fields.zip kinds :=
      List.mem_of_getElem? (List.getElem?_zip_eq_some.mpr ⟨hf, hk⟩)
    exact List.mem_map.mpr ⟨(f, kind), hzip, by simp [hskip]⟩
  | unnamed fields =>
    obtain ⟨kinds, hkinds, harm⟩ := exists_of_bind_eq_ok hok
    cases harm
    have hlen := (forall₂_of_mapM hkinds).length_eq
    refine ⟨rfl, kinds, hkinds, fun values hvalues =>
      runStmts_eq (by simpa using hlen) hvalues fun j i kind hi hk hskip => ?_⟩
    obtain ⟨-, rfl⟩ := List.getElem?_eq_some_iff.mp hi
    rw [List.getElem_range]
    exact index?_boundIndex hk hskip
  | unit =>
    cases hok
    refine ⟨rfl, [], rfl, fun values hvalues s => ?_⟩
    rw [List.length_eq_zero_iff.mp hvalues]
    rfl

/-- The arm that a value of a variant takes. -/
theorem find?_arms {variants : List Variant} {arms : List Arm}
    (harms : List.Forall₂ (fun v arm => variantArm v = .ok arm) variants arms)
    (distinct : (variants.map Variant.ident).Nodup) {v : Variant} (hv : v ∈ variants) :
    ∃ arm, (arms.find? fun arm => some arm.variant = some v.ident) = some arm ∧
      variantArm v = .ok arm := by
  induction harms with
  | nil => cases hv
  | @cons v' arm variants arms hok _ ih =>
    have hname : arm.variant = v'.ident := (run_variantArm (σ := Unit) hok).1
    rw [List.map_cons, List.nodup_cons] at distinct
    rcases List.mem_cons.mp hv with rfl | hv
    · exact ⟨arm, List.find?_cons_of_pos (by simp [hname]), hok⟩
    · have hne : arm.variant ≠ v.ident := by
        rw [hname]
        exact fun heq => distinct.1 (List.mem_map.mpr ⟨v, hv, heq.symm⟩)
      rw [List.find?_cons_of_neg (by simpa using hne)]
      exact ih distinct.2 hv

/-- **The generated code** visits the fields that are not skipped, in order, and each of them as its
attribute says. -/
theorem run_expandGcTrace {input : DeriveInput} {code : TraceImpl}
    (hok : expandGcTrace input = .ok code) {ctor : Ctor} (hctor : ctor ∈ input.data.ctors) :
    ∃ kinds, ctor.fields.kinds = .ok kinds ∧ ∀ values : List (FieldRun σ),
      values.length = kinds.length → ∀ s, code.body.run ctor values s =
        (kinds.zip values).foldlM (fun s (kind, f) => kind.run f s) s := by
  rw [expandGcTrace] at hok
  cases hdata : input.data with
  | union =>
    rw [hdata] at hok
    cases hok
  | struct fields =>
    rw [hdata] at hok hctor
    obtain ⟨stmts, hstmts, hcode⟩ := exists_of_bind_eq_ok hok
    cases hcode
    obtain rfl := List.mem_singleton.mp hctor
    exact run_struct hstmts
  | enum variants distinct =>
    rw [hdata] at hok hctor
    obtain ⟨arms, harms, hcode⟩ := exists_of_bind_eq_ok hok
    cases hcode
    obtain ⟨v, hv, rfl⟩ := List.mem_map.mp hctor
    obtain ⟨arm, hfind, harm⟩ := find?_arms (forall₂_of_mapM harms) distinct hv
    obtain ⟨-, kinds, hkinds, hrun⟩ := run_variantArm harm
    refine ⟨kinds, hkinds, fun values hvalues s => ?_⟩
    rw [Body.run, hfind]
    exact hrun values hvalues s

end GcLite
