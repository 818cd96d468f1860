import ResponseModels.Proofs.Assembly
import ResponseModels.Proofs.FieldTree
import ResponseModels.Proofs.Sample

/-!
# The types in use

Besides its models a representation lists the input objects, the enums and the custom scalars that
are in use. These are the types that one gets to from the fields and their arguments and from the
variables of operations, where an input object leads on to the types of its fields
(`Representation.Uses`). Each is listed once, in the order of the schema (`used_types_of_build`).

The names are collected by one traversal that all definitions share, and it collects what can be
reached (`mem_closure_iff`). What is left to see is that the names it starts from are those that the
fields of the trees mention (`Field.mem_typeNames_iff`), and that each list takes the types of one
kind out of the schema, by name (`Schema.Lists.of_filter`).
-/

set_option autoImplicit false

namespace ResponseModels

open Relation (ReflTransGen)

/-! ## Statements -/

/-- An input object leads on to the types of its fields, whatever lists and non-null types are
around them. -/
def Schema.LeadsOn (schema : Schema) (name other : Name) : Prop :=
  ∃ t fields, schema.type? name = some t ∧ t.body = .inputObject fields ∧ ∃ i ∈ fields,
    i.type.base = other

/-- A type is mentioned: as the type of a field or of an argument in one of the trees, or of a
variable of an operation. -/
inductive Representation.Mentions (ir : Representation) : Name → Prop
  | field {f : Field} (has : ir.HasField f) : Mentions ir f.info.rawType
  | argument {f : Field} {a : Argument} (has : ir.HasField f) (mem : a ∈ f.info.arguments) :
      Mentions ir a.type.base.name
  | input {o : OperationModels} {v : Variable} (has : o ∈ ir.operations) (mem : v ∈ o.inputs) :
      Mentions ir v.type.base.name

/-- A type is in use if one gets to it from one that is mentioned. -/
def Representation.Uses (ir : Representation) (schema : Schema) (name : Name) : Prop :=
  ∃ m, ir.Mentions m ∧ ReflTransGen schema.LeadsOn m name

/-- The types of a kind that are wanted are listed, each once and in the order in which the schema
defines them. A schema should not define a name twice. -/
structure Schema.Lists (schema : Schema) (kind : TypeKind) (wanted : Name → Prop)
    (names : List Name) : Prop where
  /-- Just the types that are wanted and of the kind are listed. -/
  mem_iff : ∀ n, n ∈ names ↔ wanted n ∧ ∃ t ∈ schema.definitions, t.name = n ∧ t.kind = kind
  /-- Each is listed once. -/
  nodup : (schema.definitions.map TypeDefinition.name).Nodup → names.Nodup
  /-- They come in the order of the schema. -/
  ordered : names.Sublist (schema.definitions.map TypeDefinition.name)

/-! ## What is mentioned -/

theorem Field.Contains.typeNames_subset {f k : Field} (h : f.Contains k) :
    k.typeNames ⊆ f.typeNames := by
  induction h with
  | here => exact List.Subset.refl _
  | step _ mem inner ih =>
    exact fun n hn ↦ ih (Field.mem_typeNames.mpr (.inr ⟨_, mem, _, inner, hn⟩))

/-- The names in the tree of a field are those at the fields that it contains. -/
theorem Field.mem_typeNames_iff {f : Field} {n : Name} :
    n ∈ f.typeNames ↔ ∃ k, f.Contains k ∧ n ∈ k.info.typeNames := by
  constructor
  · intro h
    induction hsize : f.size using Nat.strongRecOn generalizing f with
    | _ size ih =>
      rcases Field.mem_typeNames.mp h with h | ⟨s, hs, k, hk, h⟩
      · exact ⟨f, .here, h⟩
      · obtain ⟨x, hx, hn⟩ := ih k.size (hsize ▸ Field.size_lt_of_mem hs hk) h rfl
        exact ⟨x, hx.beneath hs hk, hn⟩
  · rintro ⟨k, hk, hn⟩
    exact hk.typeNames_subset (Field.mem_typeNames.mpr (.inl hn))

theorem FieldInfo.mem_typeNames {i : FieldInfo} {n : Name} :
    n ∈ i.typeNames ↔ n = i.rawType ∨ ∃ a ∈ i.arguments, a.type.base.name = n := by
  rw [FieldInfo.typeNames, List.mem_cons, List.mem_map]

/-- A field of a tree mentions the names of its type and of the types of its arguments. -/
theorem Representation.HasField.mentions {ir : Representation} {f : Field} (h : ir.HasField f)
    {n : Name} (hn : n ∈ f.info.typeNames) : ir.Mentions n := by
  rcases FieldInfo.mem_typeNames.mp hn with rfl | ⟨a, ha, rfl⟩
  · exact .field h
  · exact .argument h ha

theorem Representation.HasField.mem_typeNames {ir : Representation} {f : Field} (h : ir.HasField f)
    {n : Name} (hn : n ∈ f.info.typeNames) : n ∈ ir.typeNames := by
  rw [typeNames, List.mem_append, List.mem_flatMap, List.mem_flatMap]
  cases h with
  | operation mem within =>
    exact .inr ⟨_, mem, List.mem_append_left _ (Field.mem_typeNames_iff.mpr ⟨f, within, hn⟩)⟩
  | fragment mem within => exact .inl ⟨_, mem, Field.mem_typeNames_iff.mpr ⟨f, within, hn⟩⟩

/-- **The traversal starts from what is mentioned.** -/
theorem Representation.mem_typeNames_iff {ir : Representation} {n : Name} :
    n ∈ ir.typeNames ↔ ir.Mentions n := by
  constructor
  · intro h
    rcases List.mem_append.mp h with h | h
    · obtain ⟨r, hr, h⟩ := List.mem_flatMap.mp h
      obtain ⟨k, hk, hn⟩ := Field.mem_typeNames_iff.mp h
      exact (HasField.fragment hr hk).mentions hn
    · obtain ⟨o, ho, h⟩ := List.mem_flatMap.mp h
      rcases List.mem_append.mp h with h | h
      · obtain ⟨k, hk, hn⟩ := Field.mem_typeNames_iff.mp h
        exact (HasField.operation ho hk).mentions hn
      · obtain ⟨v, hv, rfl⟩ := List.mem_map.mp h
        exact .input ho hv
  · intro h
    cases h with
    | field has => exact has.mem_typeNames (FieldInfo.mem_typeNames.mpr (.inl rfl))
    | argument has mem => exact has.mem_typeNames (FieldInfo.mem_typeNames.mpr (.inr ⟨_, mem, rfl⟩))
    | input has mem =>
      exact List.mem_append_right _
        (List.mem_flatMap.mpr ⟨_, has, List.mem_append_right _ (List.mem_map_of_mem mem)⟩)

/-! ## What is reached -/

theorem TypeDefinition.mem_inputTypes {t : TypeDefinition} {n : Name} :
    n ∈ t.inputTypes ↔ ∃ fields, t.body = .inputObject fields ∧ ∃ i ∈ fields, i.type.base = n := by
  rw [inputTypes]
  split
  · rename_i fields hbody
    simp [hbody]
  · rename_i hbody
    constructor
    · exact fun h ↦ absurd h List.not_mem_nil
    · rintro ⟨fields, heq, -⟩
      exact absurd heq (hbody fields)

theorem Schema.refers_inputTable_iff {schema : Schema} {name other : Name} :
    Refers schema.inputTable name other ↔ schema.LeadsOn name other := by
  have hlookup : schema.inputTable.lookup name =
      (schema.type? name).map TypeDefinition.inputTypes :=
    lookup_map _ _
  rw [Refers, LeadsOn, hlookup]
  constructor
  · rintro ⟨next, hnext, hother⟩
    obtain ⟨t, ht, rfl⟩ := Option.map_eq_some_iff.mp hnext
    obtain ⟨fields, hbody, hi⟩ := TypeDefinition.mem_inputTypes.mp hother
    exact ⟨t, fields, ht, hbody, hi⟩
  · rintro ⟨t, fields, ht, hbody, hi⟩
    exact ⟨_, Option.map_eq_some_iff.mpr ⟨t, ht, rfl⟩,
      TypeDefinition.mem_inputTypes.mpr ⟨fields, hbody, hi⟩⟩

/-- **What is collected is in use.** -/
theorem Assembled.mem_used_iff {schema : Schema} {config : Config} {d : Document}
    {lib : FragmentLibrary} {used : List Name} {ir : Representation}
    (h : Assembled schema config d lib used ir) {n : Name} : n ∈ used ↔ ir.Uses schema n := by
  have hrefers : Refers schema.inputTable = schema.LeadsOn := by
    funext a b
    exact propext Schema.refers_inputTable_iff
  rw [mem_closure_iff h.types fun a ha ↦ absurd ha List.not_mem_nil,
    or_iff_right List.not_mem_nil, hrefers]
  simp only [Representation.mem_typeNames_iff]
  rfl

/-! ## What is listed -/

/-- What is made of some members of a list, by name. -/
theorem map_filterMap_eq {α β : Type} {f : α → Option β} {p : α → Bool} {key : α → Name}
    {name : β → Name} (h : ∀ a, (f a).map name = if p a then some (key a) else none) (l : List α) :
    (l.filterMap f).map name = (l.filter p).map key := by
  rw [List.map_filterMap, ← List.filterMap_eq_map, List.filterMap_filter]
  exact congrArg (List.filterMap · l) (funext h)

/-- The same, where making something of a member may fail. -/
theorem map_eq_of_filterMapM {α β : Type} {f : α → Except Error (Option β)} {p : α → Bool}
    {key : α → Name} {name : β → Name}
    (h : ∀ a b, f a = .ok b → b.map name = if p a then some (key a) else none) {l : List α}
    {r : List β} (hr : l.filterMapM f = .ok r) : r.map name = (l.filter p).map key := by
  induction l generalizing r with
  | nil =>
    rw [List.filterMapM_nil] at hr
    cases hr
    rfl
  | cons a rest ih =>
    rw [List.filterMapM_cons] at hr
    obtain ⟨b, hb, hr⟩ := Error.bind_eq_ok.mp hr
    have ha := h a b hb
    cases b with
    | none =>
      have hp : ¬p a = true := fun hp ↦ by rw [if_pos hp] at ha; cases ha
      rw [List.filter_cons_of_neg hp, ih hr]
    | some b =>
      obtain ⟨r', hr', hr⟩ := Error.bind_eq_ok.mp hr
      cases hr
      have hp : p a = true := Decidable.byContradiction fun hp ↦ by rw [if_neg hp] at ha; cases ha
      rw [if_pos hp] at ha
      rw [List.filter_cons_of_pos hp, List.map_cons, List.map_cons, ih hr', Option.some.inj ha]

namespace Schema

variable {schema : Schema} {names : List Name}

/-- The built-in scalars are not among the types that the schema defines, so nothing may be wanted
of them. -/
theorem Lists.of_filter {kind : TypeKind} {wanted : Name → Prop} {p : Name → Bool}
    (hp : ∀ n, p n = true ↔ wanted n) (hbuiltIn : kind = .scalar → ∀ n ∈ builtInScalars, ¬wanted n)
    (h : names = (schema.types.filter fun t ↦ t.kind = kind && p t.name).map TypeDefinition.name) :
    schema.Lists kind wanted names := by
  have hnone : ((builtInScalars.map fun name ↦ (⟨name, none, .scalar⟩ : TypeDefinition)).filter
      fun t ↦ t.kind = kind && p t.name) = [] := by
    rw [List.filter_eq_nil_iff]
    intro t ht hwanted
    obtain ⟨n, hn, rfl⟩ := List.mem_map.mp ht
    rw [Bool.and_eq_true, decide_eq_true_eq] at hwanted
    exact hbuiltIn hwanted.1.symm n hn ((hp n).mp hwanted.2)
  rw [types, List.filter_append, hnone, List.nil_append] at h
  have hsublist : names.Sublist (schema.definitions.map TypeDefinition.name) :=
    h ▸ List.filter_sublist.map _
  refine ⟨fun n ↦ ?_, fun hnodup ↦ hnodup.sublist hsublist, hsublist⟩
  rw [h, List.mem_map]
  constructor
  · rintro ⟨t, ht, rfl⟩
    obtain ⟨hmem, ht⟩ := List.mem_filter.mp ht
    rw [Bool.and_eq_true, decide_eq_true_eq] at ht
    exact ⟨(hp _).mp ht.2, t, hmem, rfl, ht.1⟩
  · rintro ⟨hwanted, t, hmem, rfl, hkind⟩
    refine ⟨t, List.mem_filter.mpr ⟨hmem, ?_⟩, rfl⟩
    rw [Bool.and_eq_true, decide_eq_true_eq]
    exact ⟨hkind, (hp _).mpr hwanted⟩

theorem map_name_usedInputObjects {r : List UsedInputObject}
    (h : schema.usedInputObjects names = .ok r) :
    r.map UsedInputObject.name =
      (schema.types.filter fun t ↦ t.kind = .inputObject && decide (t.name ∈ names)).map
        TypeDefinition.name := by
  refine map_eq_of_filterMapM (fun t b hb ↦ ?_) h
  obtain ⟨name, description, body⟩ := t
  cases body with
  | inputObject fields =>
    by_cases hname : name ∈ names
    · simp only [hname, if_true] at hb
      obtain ⟨fields', -, hb⟩ := Error.bind_eq_ok.mp hb
      cases hb
      simp [TypeDefinition.kind, TypeBody.kind, hname]
    · simp only [hname, if_false] at hb
      cases hb
      simp [hname]
  | _ =>
    cases hb
    simp [TypeDefinition.kind, TypeBody.kind]

theorem map_name_usedEnums (schema : Schema) (names : List Name) :
    (schema.usedEnums names).map UsedEnum.name =
      (schema.types.filter fun t ↦ t.kind = .enum && decide (t.name ∈ names)).map
        TypeDefinition.name := by
  refine map_filterMap_eq (fun t ↦ ?_) _
  obtain ⟨name, description, body⟩ := t
  cases body with
  | enum values =>
    by_cases hname : name ∈ names
    · simp [TypeDefinition.kind, TypeBody.kind, hname]
    · simp [hname]
  | _ => simp [TypeDefinition.kind, TypeBody.kind]

theorem map_name_usedScalars (schema : Schema) (names : List Name) :
    (schema.usedScalars names).map UsedScalar.name =
      (schema.types.filter fun t ↦
        t.kind = .scalar && decide (t.name ∈ names ∧ t.name ∉ builtInScalars)).map
        TypeDefinition.name := by
  refine map_filterMap_eq (fun t ↦ ?_) _
  obtain ⟨name, description, body⟩ := t
  cases body with
  | scalar =>
    by_cases hname : name ∈ names ∧ name ∉ builtInScalars
    · simp [TypeDefinition.kind, TypeBody.kind, hname]
    · simp [hname]
  | _ => simp [TypeDefinition.kind, TypeBody.kind]

end Schema

/-- **The types that are listed are those in use.** In the result of a build, the input objects, the
enums and the custom scalars are just the types of their kind that one gets to from the types of
fields, of arguments and of variables, going from input objects to the types of their fields. Each
is listed once, in the order of the schema. -/
theorem used_types_of_build {schema : Schema} {config : Config} {d : Document} {ir : Representation}
    (h : build schema config d = .ok ir) :
    schema.Lists .inputObject (ir.Uses schema) (ir.inputObjects.map UsedInputObject.name) ∧
    schema.Lists .enum (ir.Uses schema) (ir.enums.map UsedEnum.name) ∧
    schema.Lists .scalar (fun n ↦ ir.Uses schema n ∧ n ∉ Schema.builtInScalars)
      (ir.scalars.map UsedScalar.name) := by
  obtain ⟨lib, used, ha⟩ := build_eq_ok_iff.mp h
  have hused : ∀ n, decide (n ∈ used) = true ↔ ir.Uses schema n :=
    fun n ↦ decide_eq_true_iff.trans ha.mem_used_iff
  have hcustom : ∀ n, decide (n ∈ used ∧ n ∉ Schema.builtInScalars) = true ↔ ir.Uses schema n ∧
      n ∉ Schema.builtInScalars :=
    fun n ↦ decide_eq_true_iff.trans (and_congr_left' ha.mem_used_iff)
  refine ⟨.of_filter hused ?_ (Schema.map_name_usedInputObjects ha.inputObjects),
    .of_filter hused ?_ ?_, .of_filter hcustom ?_ ?_⟩
  · rintro ⟨⟩
  · rintro ⟨⟩
  · rw [ha.enums, Schema.map_name_usedEnums]
  · exact fun _ n hn hwanted ↦ hwanted.2 hn
  · rw [ha.scalars, Schema.map_name_usedScalars]

open Sample in
/-- In the sample, a filter and the pairs it is made of refer to each other, and one gets to sizes
and dates from them. Colors are not in use. -/
theorem used_types_of_build_counted :
    ∃ ir, build registry {} counted = .ok ir ∧
      ir.inputObjects.map UsedInputObject.name = ["Filter", "Pair"] ∧
      ir.enums.map UsedEnum.name = ["Size"] ∧ ir.scalars.map UsedScalar.name = ["Date"] ∧
      (∀ n ∈ ["Filter", "Pair", "Size", "Date"], ir.Uses registry n) ∧
      ¬ir.Uses registry "Color" := by
  obtain ⟨ir, hir, hcheck⟩ := Error.exists_of_any (x := build registry {} counted)
    (p := fun ir ↦ ir.inputObjects.map UsedInputObject.name = ["Filter", "Pair"] &&
      ir.enums.map UsedEnum.name = ["Size"] &&
      ir.scalars.map UsedScalar.name = ["Date"]) (by decide +kernel)
  simp only [Bool.and_eq_true, decide_eq_true_eq] at hcheck
  obtain ⟨⟨hinputs, henums⟩, hscalars⟩ := hcheck
  obtain ⟨hinputObjects, henum, hscalar⟩ := used_types_of_build hir
  rw [hinputs] at hinputObjects
  rw [henums] at henum
  rw [hscalars] at hscalar
  refine ⟨ir, hir, hinputs, henums, hscalars, ?_, fun hcolor ↦ ?_⟩
  · simp only [List.forall_mem_cons]
    exact ⟨((hinputObjects.mem_iff "Filter").mp (by decide)).1,
      ((hinputObjects.mem_iff "Pair").mp (by decide)).1,
      ((henum.mem_iff "Size").mp (by decide)).1, ((hscalar.mem_iff "Date").mp (by decide)).1.1,
      fun n hn ↦ absurd hn List.not_mem_nil⟩
  · have hlisted := (henum.mem_iff "Color").mpr
      ⟨hcolor, ⟨"Color", none, .enum [⟨"RED", none, []⟩]⟩, by simp [registry], rfl, rfl⟩
    exact absurd hlisted (by decide)

end ResponseModels
