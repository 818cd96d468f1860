import ResponseModels.Proofs.Build
import ResponseModels.Proofs.Collect.Agreement
import ResponseModels.Proofs.Model.Group
import ResponseModels.Proofs.Sample

/-!
# Every object type has one concrete model

Where concrete models are wanted at all, they divide the object types of a field among themselves,
and each has the properties that are selected for the object types it is for (`Partitions`).

For the plan of one field this is known. The models are built as planned (`Field.modelGroup_eq_ok`),
so it holds of the group of one field (`Declaration.Unfolds.partitions`). The group of a property is
built for a field of the model's shape, and in this way the result is carried down the trees of
models, from the root groups of operations and of the implementations of fragments
(`ModelGroup.BuiltFor.of_build`). `GroupFor` says which field each group of a tree is for.
-/

set_option autoImplicit false

namespace ResponseModels

/-! ## Statements -/

/-- A group of models in the trees of a representation, with the field it is for. The flag says
whether concrete models are wanted: they are in root groups, and beneath models that are not
interfaces. -/
inductive GroupFor (ir : Representation) : Bool → Field → ModelGroup → Prop
  | operation {o : OperationModels} (mem : o ∈ ir.operations) : GroupFor ir true o.field o.group
  | fragment {r : FragmentModels} {g : ModelGroup} (mem : r ∈ ir.fragments)
      (implementation : r.implementation = some g) : GroupFor ir true r.field g
  | property {concrete : Bool} {f k : Field} {g inner : ModelGroup} {m : Model} {p : Property}
      {s : FieldSet} (outer : GroupFor ir concrete f g) (model : m ∈ g.models)
      (property : p ∈ m.properties) (group : p.group = some inner) (shape : s ∈ f.fieldSets)
      (typeSet : s.typeSet = m.typeSet) (field : k ∈ s.fields)
      (responseName : k.responseName = p.info.responseName) : GroupFor ir (!m.isInterface) k inner

/-- The concrete models of a group divide the object types of a field, and each has the properties
of the field set that its object types have. -/
structure Partitions (f : Field) (fieldTypes : NameSet) (g : ModelGroup) : Prop where
  /-- No two have an object type in common. -/
  disjoint : g.models.Pairwise fun m m' ↦ m.isInterface = false → m'.isInterface = false →
    ∀ t ∈ m.possibleTypes, t ∉ m'.possibleTypes
  /-- Together they have just the object types of the field. -/
  union : ∀ t, t ∈ fieldTypes ↔ ∃ m ∈ g.models, m.isInterface = false ∧ t ∈ m.possibleTypes
  /-- Each has the response names of the largest field set that its object types have, in order. -/
  properties : ∀ m ∈ g.models, m.isInterface = false → ∀ t ∈ m.possibleTypes,
    ∃ s, f.IsLargest t s ∧
      m.properties.map (fun p ↦ p.info.responseName) = s.fields.map Field.responseName
  /-- Every model, concrete or not, is of a field set and has properties for its fields, so a group
  beneath it is for one of them. -/
  fields : ∀ m ∈ g.models, ∃ s ∈ f.fieldSets, s.typeSet = m.typeSet ∧
    m.properties.map Property.info = s.fields.map Field.info

/-! ## One group -/

/-- A model is built as planned, with properties for the fields of its shape. -/
def BuiltModel.AsPlanned (interfaces : Name → Except Error ModelGroup) (site : Site)
    (b : BuiltModel) :
    Prop :=
  ∃ supers properties accessors, b.model = b.planned.model site supers properties accessors ∧
    (b.planned.fieldSet.fields.mapM fun k ↦
      property supers k (k.modelGroup interfaces (site.beneath b.planned k))) = .ok properties

/-- What a model takes over from its plan. -/
structure PlannedModel.Gives (p : PlannedModel) (m : Model) : Prop where
  /-- The type set is the planned one. -/
  typeSet : m.typeSet = p.typeSet
  /-- So are the possible types. -/
  possibleTypes : m.possibleTypes = p.possibleTypes
  /-- It is an interface if planned so. -/
  isInterface : m.isInterface = p.isInterface
  /-- Its properties are those of the fields of its shape. -/
  properties : m.properties.map Property.info = p.fieldSet.fields.map Field.info

theorem BuiltModel.AsPlanned.gives {interfaces : Name → Except Error ModelGroup} {site : Site}
    {b : BuiltModel} (h : b.AsPlanned interfaces site) : b.planned.Gives b.model := by
  obtain ⟨supers, properties, accessors, hmodel, hproperties⟩ := h
  rw [hmodel]
  exact ⟨rfl, rfl, rfl, Error.map_eq_of_mapM (fun k p hp ↦ (property_eq_ok hp).1) hproperties⟩

/-- **The models of a group are built as planned.** -/
theorem Field.modelGroup_eq_ok {interfaces : Name → Except Error ModelGroup} {f : Field}
    {site : Site} {inherited : List ModelGroup} {g : ModelGroup}
    (h : f.modelGroup interfaces site inherited = .ok g) :
    f.fieldSets ≠ [] ∧ ∃ built : List BuiltModel, g.models = built.map BuiltModel.model ∧
      built.map BuiltModel.planned = f.plan site ∧ ∀ b ∈ built, b.AsPlanned interfaces site := by
  obtain ⟨built, hraises, hmodels, hplanned, base, hbase, -⟩ := raises_of_modelGroup h
  have hmem : base.planned ∈ f.plan site := hplanned ▸ List.mem_map_of_mem hbase
  refine ⟨List.ne_nil_of_mem (fieldSet_mem_of_mem_plan hmem), built, hmodels, hplanned,
    fun b hb ↦ ?_⟩
  obtain ⟨_, sups, -, hfollows⟩ := hraises.exists_follows hb
  exact ⟨sups, b.model.properties, b.model.accessors, hfollows.model, hfollows.properties⟩

section

variable {schema : Schema} {d : Document} {policy : TypenamePolicy} {field : Declaration}
  {f : Field} {survey : Survey} {interfaces : Name → Except Error ModelGroup} {site : Site}
  {inherited : List ModelGroup} {g : ModelGroup}

/-- **The concrete models of a group divide the object types of the field.** -/
theorem Declaration.Unfolds.partitions (hu : field.Unfolds schema d policy f survey)
    (hsite : site.interfacesOnly = false) (h : f.modelGroup interfaces site inherited = .ok g) :
    Partitions f survey.fieldTypes g := by
  obtain ⟨-, built, hmodels, hplanned, hall⟩ := Field.modelGroup_eq_ok h
  have hshaped := hu.shaped
  have hplan : ∀ m ∈ g.models, ∃ p ∈ f.plan site, p.Gives m := by
    intro m hm
    rw [hmodels] at hm
    obtain ⟨b, hb, rfl⟩ := List.mem_map.mp hm
    exact ⟨b.planned, hplanned ▸ List.mem_map_of_mem hb, (hall b hb).gives⟩
  refine ⟨?_, fun t ↦ ⟨fun ht ↦ ?_, ?_⟩, ?_, ?_⟩
  · have hapart : (built.map BuiltModel.planned).Pairwise PlannedModel.Apart :=
      hplanned ▸ hshaped.pairwise_plan hsite
    rw [hmodels, List.pairwise_map]
    refine (List.pairwise_map.mp hapart).imp_of_mem fun {b b'} hb hb' hab ↦ ?_
    have hgives := (hall b hb).gives
    have hgives' := (hall b' hb').gives
    rw [hgives.isInterface, hgives'.isInterface, hgives.possibleTypes, hgives'.possibleTypes]
    exact hab
  · obtain ⟨p, hp, hc, hmem⟩ := hshaped.exists_mem_plan hsite ht
    rw [← hplanned] at hp
    obtain ⟨b, hb, rfl⟩ := List.mem_map.mp hp
    have hgives := (hall b hb).gives
    exact ⟨b.model, hmodels ▸ List.mem_map_of_mem hb, hgives.isInterface.trans hc,
      hgives.possibleTypes ▸ hmem⟩
  · rintro ⟨m, hm, hc, hmem⟩
    obtain ⟨p, hp, hgives⟩ := hplan m hm
    rw [hgives.isInterface] at hc
    rw [hgives.possibleTypes] at hmem
    exact ((hshaped.mem_possibleTypes_plan hsite hp hc).mp hmem).1
  · intro m hm hc t hmem
    obtain ⟨p, hp, hgives⟩ := hplan m hm
    rw [hgives.isInterface] at hc
    rw [hgives.possibleTypes] at hmem
    obtain ⟨ht, hlabel⟩ := (hshaped.mem_possibleTypes_plan hsite hp hc).mp hmem
    -- The largest field set with an object type is that of its type set, and so is the model's.
    obtain ⟨s, hs, hs'⟩ := hu.exists_largest ht
    have heq : p.fieldSet = s :=
      hshaped.fieldSet_eq (Field.fieldSet_mem_of_mem_plan hp) hs.1 (hlabel.symm.trans hs'.symm)
    have hnames := congrArg (List.map FieldInfo.responseName) hgives.properties
    rw [List.map_map, List.map_map] at hnames
    exact ⟨s, hs, heq ▸ hnames⟩
  · intro m hm
    obtain ⟨p, hp, hgives⟩ := hplan m hm
    exact ⟨p.fieldSet, Field.fieldSet_mem_of_mem_plan hp, hgives.typeSet.symm, hgives.properties⟩

end

/-! ## The tree -/

/-- A group of models was built for a field that was expanded, and the flag says whether concrete
models were wanted. -/
def ModelGroup.BuiltFor (schema : Schema) (d : Document) (policy : TypenamePolicy) (concrete : Bool)
    (f : Field) (g : ModelGroup) : Prop :=
  ∃ field interfaces site inherited, expandField schema d policy field = .ok f ∧
    f.modelGroup interfaces site inherited = .ok g ∧ site.interfacesOnly = !concrete

namespace ModelGroup.BuiltFor

variable {schema : Schema} {d : Document} {policy : TypenamePolicy} {concrete : Bool} {f : Field}
  {g : ModelGroup}

theorem of_expandRoot {rawType : Name} {selections : List Selection} {path : List Name}
    {interfaces : Name → Except Error ModelGroup} {site : Site} {inherited : List ModelGroup}
    (hroot : expandRoot schema d policy rawType selections path = .ok f)
    (hgroup : f.modelGroup interfaces site inherited = .ok g)
    (hsite : site.interfacesOnly = false) :
    g.BuiltFor schema d policy true f := by
  obtain ⟨field, hf, -⟩ := exists_of_expandRoot hroot
  exact ⟨field, interfaces, site, inherited, hf, hgroup, hsite⟩

/-- **One step down**: the group of a property was built for the field of its response name. -/
theorem step (h : g.BuiltFor schema d policy concrete f) {m : Model} (hm : m ∈ g.models)
    {p : Property} (hp : p ∈ m.properties) {inner : ModelGroup} (hinner : p.group = some inner)
    {s : FieldSet} (hs : s ∈ f.fieldSets) (hset : s.typeSet = m.typeSet) {k : Field}
    (hk : k ∈ s.fields) (hname : k.responseName = p.info.responseName) :
    inner.BuiltFor schema d policy (!m.isInterface) k := by
  obtain ⟨field, interfaces, site, inherited, hf, hgroup, -⟩ := h
  obtain ⟨survey, hu⟩ := unfolds_of_expandField hf (isComposite_of_mem_fieldSets hf hs)
  obtain ⟨-, built, hmodels, hplanned, hall⟩ := Field.modelGroup_eq_ok hgroup
  rw [hmodels] at hm
  obtain ⟨b, hb, rfl⟩ := List.mem_map.mp hm
  have hplan : b.planned ∈ f.plan site := hplanned ▸ List.mem_map_of_mem hb
  obtain ⟨supers, properties, accessors, hmodel, hproperties⟩ := hall b hb
  rw [hmodel] at hp hset ⊢
  -- The field set of the model and the field of the property are told by their names.
  have hset : b.planned.fieldSet = s :=
    hu.shaped.fieldSet_eq (Field.fieldSet_mem_of_mem_plan hplan) hs hset.symm
  obtain ⟨k', hk', hok⟩ := Error.exists_of_mem_mapM hproperties hp
  obtain ⟨hinfo, -, hbuilt⟩ := property_eq_ok hok
  have hfield : k' = k := by
    refine List.inj_on_of_nodup_map (hu.nodup_fields hs) (hset ▸ hk') hk ?_
    exact (congrArg FieldInfo.responseName hinfo).symm.trans hname.symm
  replace hbuilt := hbuilt inner hinner
  rw [hfield] at hbuilt
  rcases hu.exists_of_mem_fields hs hk with rfl | ⟨_, -, declaration, -, hdeclaration⟩
  · exact absurd rfl (Field.modelGroup_eq_ok hbuilt).1
  · exact ⟨declaration, interfaces, _, _, hdeclaration, hbuilt, (Bool.not_not _).symm⟩

/-- **The whole tree.** -/
theorem of_build {config : Config} {ir : Representation} (h : build schema config d = .ok ir)
    (hg : GroupFor ir concrete f g) : g.BuiltFor schema d config.typename concrete f := by
  induction hg with
  | operation mem =>
    obtain ⟨_, -, -, _, _, -, hroot, hgroup⟩ := exists_operation_of_build h mem
    exact of_expandRoot hroot hgroup rfl
  | fragment mem implementation =>
    obtain ⟨_, -, hroot, hgroup⟩ := exists_fragment_of_build h mem
    obtain ⟨_, _, hgroup⟩ := hgroup _ implementation
    exact of_expandRoot hroot hgroup rfl
  | property _ model property group shape typeSet field responseName ih =>
    exact ih.step model property group shape typeSet field responseName

end ModelGroup.BuiltFor

/-- **Every object type has one concrete model.** In every group where concrete models are wanted,
they divide the object types of the field the group is for, and each has the properties that are
selected for its object types. -/
theorem concrete_models_partition {schema : Schema} {config : Config} {d : Document}
    {ir : Representation} (h : build schema config d = .ok ir) {f : Field} {g : ModelGroup}
    (hg : GroupFor ir true f g) :
    ∃ fieldTypes, schema.possibleTypes f.info.rawType = .ok fieldTypes ∧
      Partitions f fieldTypes g := by
  obtain ⟨field, interfaces, site, inherited, hf, hgroup, hsite⟩ :=
    ModelGroup.BuiltFor.of_build h hg
  obtain ⟨s, hs⟩ := List.exists_mem_of_ne_nil _ (Field.modelGroup_eq_ok hgroup).1
  obtain ⟨survey, hu⟩ := unfolds_of_expandField hf (isComposite_of_mem_fieldSets hf hs)
  rw [(info_of_expandField hf).1]
  exact ⟨survey.fieldTypes, hu.shaped.fieldTypes_eq, hu.partitions hsite hgroup⟩

open Sample in
/-- In the sample, foxes, cats and dogs have a concrete model each: foxes and cats what is left of
animals and of pets, dogs one of a shape of their own. -/
theorem concrete_models_partition_animal :
    ∃ ir, build schema {} document = .ok ir ∧ ∃ f g fieldTypes, GroupFor ir true f g ∧
      (g.models.filter fun m ↦ !m.isInterface).map Model.possibleTypes =
        [{"Fox"}, {"Cat"}, {"Dog"}] ∧
      schema.possibleTypes f.info.rawType = .ok fieldTypes ∧ Partitions f fieldTypes g := by
  obtain ⟨ir, hir, hcheck⟩ := Error.exists_of_any (x := build schema {} document)
    (p := fun ir ↦ ir.operations.any fun o ↦ o.group.models.any fun m ↦ m.isInterface = false &&
      m.properties.any fun p ↦ p.group.any fun g ↦
        (g.models.filter fun m ↦ !m.isInterface).map Model.possibleTypes =
          [{"Fox"}, {"Cat"}, {"Dog"}] &&
        o.field.fieldSets.any fun s ↦ s.typeSet = m.typeSet &&
          s.fields.any fun k ↦ k.responseName = p.info.responseName) (by decide +kernel)
  simp only [List.any_eq_true, Option.any_eq_true, Bool.and_eq_true, decide_eq_true_eq] at hcheck
  obtain ⟨o, ho, m, hm, hconcrete, p, hp, g, hinner, htypes, s, hs, hset, f, hf, hname⟩ := hcheck
  have hg : GroupFor ir (!m.isInterface) f g :=
    .property (.operation ho) hm hp hinner hs hset hf hname
  rw [hconcrete] at hg
  obtain ⟨fieldTypes, hfieldTypes, hpartitions⟩ := concrete_models_partition hir hg
  exact ⟨ir, hir, f, g, fieldTypes, hg, htypes, hfieldTypes, hpartitions⟩

end ResponseModels
