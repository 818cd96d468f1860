import ResponseModels.Proofs.Collect.ShapeTree
import ResponseModels.Proofs.Model.Address

/-!
# What is selected for a group of models

A group of models is built for a field, and what its models have depends on the selections beneath
that field. The trees of models do not hold these, but they can be followed down along with the
groups, as for fields alone: a `Spot` is a group with its field and what is selected beneath it, and
`Representation.HasSpot` goes from the roots of the trees to every spot. Every group is at a spot
(`HasGroup.exists_spot`), and a model only at one (`HasSpot.unique`).

Every spot is sound: its group was built for its field, and the field was expanded from what is
selected (`HasSpot.sound`). What there is to this is one step down (`Spot.Sound.down`).
-/

set_option autoImplicit false

namespace ResponseModels

/-! ## Statements -/

/-- A group of models, with the field it is for and what is selected beneath that field. -/
structure Spot where
  /-- The field. -/
  field : Field
  /-- What is selected beneath the field. -/
  selected : Selection → Prop
  /-- The models of the field. -/
  group : ModelGroup

namespace Spot

/-- From a spot one gets to another: through the property `name` of a model, to the field of that
name in the model's shape. -/
structure Down (schema : Schema) (d : Document) (spot : Spot) (m : Model) (name : Name)
    (inner : Spot) : Prop where
  /-- The model has the property, with the group that one gets to. -/
  property : ∃ p ∈ m.properties, p.info.responseName = name ∧ p.group = some inner.group
  /-- The field that one gets to is one of its shape. -/
  field : ∃ s ∈ spot.field.fieldSets, s.typeSet = m.typeSet ∧ inner.field ∈ s.fields
  /-- It has the name of the property. -/
  responseName : inner.field.responseName = name
  /-- What is selected beneath it is selected in the shape. -/
  selected : inner.selected =
    SelectedBeneath schema d spot.field.info.rawType m.typeSet spot.selected name

/-- A field is selected in the shape of a model, on the type `parent`: one gets to it through gates
that are open for some values of the variables and whose type conditions are in the type set or hold
for all objects of the type. -/
def Selects (schema : Schema) (d : Document) (spot : Spot) (m : Model) (parent : Name)
    (head : FieldHead) (beneath : List Selection) : Prop :=
  ∃ y gates, spot.selected y ∧ Way d y gates (.field head beneath) ∧
    Gate.innermost spot.field.info.rawType gates = parent ∧
    (∃ v, ∀ g ∈ gates, included v g.directives = true) ∧
    ∀ g ∈ gates, ∀ c, g.typeCondition = some c → c ∈ m.typeSet ∨
      ∀ t, schema.satisfies t spot.field.info.rawType = true → schema.satisfies t c = true

end Spot

namespace Representation

/-- The spot at the root of a tree, where the selections of the definition are that the tree is
for. -/
inductive HasRoot (d : Document) (ir : Representation) : ModelRoot → Spot → Prop
  | operation {o : OperationModels} {op : Operation} (mem : o ∈ ir.operations)
      (defined : op ∈ d.operations) (name : op.name = some o.name) :
      HasRoot d ir (.operation o.name) ⟨o.field, (· ∈ op.selections), o.group⟩
  | interface {r : FragmentModels} {fragment : Fragment} (mem : r ∈ ir.fragments)
      (defined : d.fragment? r.name = some fragment) :
      HasRoot d ir (.fragmentInterface r.name) ⟨r.field, (· ∈ fragment.selections), r.interface⟩
  | implementation {r : FragmentModels} {fragment : Fragment} {g : ModelGroup}
      (mem : r ∈ ir.fragments) (defined : d.fragment? r.name = some fragment)
      (implementation : r.implementation = some g) :
      HasRoot d ir (.fragmentImplementation r.name) ⟨r.field, (· ∈ fragment.selections), g⟩

/-- A spot in one of the trees. -/
inductive HasSpot (schema : Schema) (d : Document) (ir : Representation) : Spot → Prop
  | root {root : ModelRoot} {spot : Spot} (atRoot : ir.HasRoot d root spot) :
      HasSpot schema d ir spot
  | down {spot inner : Spot} {m : Model} {name : Name} (outer : HasSpot schema d ir spot)
      (model : m ∈ spot.group.models) (down : spot.Down schema d m name inner) :
      HasSpot schema d ir inner

end Representation

/-! ## Spots are sound -/

/-- A spot is sound: its group was built for its field, and the field was expanded from what is
selected. -/
def Spot.Sound (schema : Schema) (d : Document) (policy : TypenamePolicy) (ir : Representation)
    (spot : Spot) : Prop :=
  (∃ site inherited, Placed schema d policy ir spot.field site inherited spot.group) ∧
    ∃ definition, spot.field.Expands schema d policy definition spot.selected

/-- How a spot came about, with the survey of what is selected. -/
structure Spot.Grown (schema : Schema) (d : Document) (policy : TypenamePolicy)
    (ir : Representation) (spot : Spot) (field : Declaration) (survey : Survey) : Prop where
  /-- The group was built for the field. -/
  placed : ∃ site inherited, Placed schema d policy ir spot.field site inherited spot.group
  /-- The field was expanded, with this survey. -/
  unfolds : field.Unfolds schema d policy spot.field survey
  /-- It is the field that was declared. -/
  info : spot.field.info = field.info
  /-- It was expanded from what is selected. -/
  mem_iff : ∀ x, x ∈ field.children.map Child.selection ↔ spot.selected x

theorem Document.operation_unique {d : Document} (hd : d.UniqueNames) {op op' : Operation}
    {name : Name} (hop : op ∈ d.operations) (hop' : op' ∈ d.operations)
    (hname : op.name = some name) (hname' : op'.name = some name) : op = op' := by
  have hpairwise := List.pairwise_filterMap.mp hd.operations
  have hsymm : Std.Symm fun a b : Operation ↦ ∀ n, a.name = some n →
      ∀ n', b.name = some n' → n ≠ n' :=
    ⟨fun _ _ h n hn n' hn' ↦ (h n' hn' n hn).symm⟩
  by_contra hne
  exact hpairwise.forall hop hop' hne name hname name hname' rfl

/-- **One step down**: the group that one gets to was built for the field that one gets to, and
inherits from groups of the models that the model implements. -/
theorem Placed.down {schema : Schema} {d : Document} {policy : TypenamePolicy} {ir : Representation}
    {spot inner : Spot} {site : Site} {inherited : List ModelGroup}
    (h : Placed schema d policy ir spot.field site inherited spot.group) {m : Model}
    (hm : m ∈ spot.group.models) {name : Name} (hdown : spot.Down schema d m name inner) :
    ∃ site' sups, site'.IsBeneath m name ∧ m.implements = sups.map Model.id ∧
      (∀ n ∈ sups, ∃ g, ir.HasGroup g ∧ n ∈ g.models) ∧
      Placed schema d policy ir inner.field site' (inheritedGroups sups name) inner.group := by
  obtain ⟨p, hp, hname, hgroup⟩ := hdown.property
  obtain ⟨s, hs, hset, hfield⟩ := hdown.field
  obtain ⟨s', hs', hset', k, hk, hinfo, site', sups, hsite, himplements, hsups, hinner⟩ :=
    h.nested hm hp hgroup
  obtain ⟨_, survey, -, hu⟩ := h.exists_unfolds
  cases hu.shaped.fieldSet_eq hs' hs (hset'.trans hset.symm)
  have hkname : k.responseName = name := (congrArg FieldInfo.responseName hinfo).symm.trans hname
  have hsame : k = inner.field := List.inj_on_of_nodup_map (hu.nodup_fields hs) hk hfield
    (hkname.trans hdown.responseName.symm)
  rw [hkname] at hsite
  rw [hkname, hsame] at hinner
  exact ⟨site', sups, hsite, himplements, hsups, hinner⟩

/-- One gets only to one spot through a property of a model. -/
theorem Placed.down_unique {schema : Schema} {d : Document} {policy : TypenamePolicy}
    {ir : Representation} {spot inner inner' : Spot} {site : Site} {inherited : List ModelGroup}
    (h : Placed schema d policy ir spot.field site inherited spot.group) {m : Model}
    (hm : m ∈ spot.group.models) {name : Name} (hdown : spot.Down schema d m name inner)
    (hdown' : spot.Down schema d m name inner') : inner = inner' := by
  obtain ⟨_, survey, -, hu⟩ := h.exists_unfolds
  obtain ⟨s, hs, hset, hk⟩ := hdown.field
  obtain ⟨s', hs', hset', hk'⟩ := hdown'.field
  cases hu.shaped.fieldSet_eq hs' hs (hset'.trans hset.symm)
  have hfield := List.inj_on_of_nodup_map (hu.nodup_fields hs) hk hk'
    (hdown.responseName.trans hdown'.responseName.symm)
  obtain ⟨p, hp, hname, hgroup⟩ := hdown.property
  obtain ⟨p', hp', hname', hgroup'⟩ := hdown'.property
  cases List.inj_on_of_nodup_map (h.nodup_responseNames hm) hp hp' (hname.trans hname'.symm)
  have hgroup := Option.some.inj (hgroup.symm.trans hgroup')
  have hselected := hdown.selected.trans hdown'.selected.symm
  cases inner
  cases inner'
  congr

namespace Spot.Sound

variable {schema : Schema} {d : Document} {policy : TypenamePolicy} {ir : Representation}
  {spot : Spot} (h : spot.Sound schema d policy ir)
include h

theorem down {inner : Spot} {m : Model} (hm : m ∈ spot.group.models) {name : Name}
    (hdown : spot.Down schema d m name inner) : inner.Sound schema d policy ir := by
  obtain ⟨⟨site, inherited, hplaced⟩, definition, hexpands⟩ := h
  obtain ⟨site', sups, -, -, -, hinner⟩ := hplaced.down hm hdown
  obtain ⟨s, hs, hset, hfield⟩ := hdown.field
  refine ⟨⟨site', _, hinner⟩, definition, ?_⟩
  rw [hdown.selected, ← hset, ← hdown.responseName]
  exact hexpands.step hs hfield

theorem exists_grown : ∃ field survey, spot.Grown schema d policy ir field survey := by
  obtain ⟨⟨site, inherited, hplaced⟩, _, hexpands⟩ := h
  obtain ⟨interfaces, -, hgroup⟩ := hplaced.built
  have hne := (Field.modelGroup_eq_ok hgroup).1
  rcases hexpands with htypename | ⟨field, hf, -, hmem⟩
  · exact absurd (htypename ▸ rfl) hne
  · obtain ⟨s, hs⟩ := List.exists_mem_of_ne_nil _ hne
    obtain ⟨survey, hu⟩ := unfolds_of_expandField hf (isComposite_of_mem_fieldSets hf hs)
    exact ⟨field, survey, ⟨site, inherited, hplaced⟩, hu, (info_of_expandField hf).1, hmem⟩

end Spot.Sound

/-- A property with a group leads down. -/
theorem Placed.exists_down {schema : Schema} {d : Document} {policy : TypenamePolicy}
    {ir : Representation} {spot : Spot} {site : Site} {inherited : List ModelGroup}
    (h : Placed schema d policy ir spot.field site inherited spot.group) {m : Model}
    (hm : m ∈ spot.group.models) {p : Property} (hp : p ∈ m.properties) {g : ModelGroup}
    (hg : p.group = some g) :
    ∃ inner, spot.Down schema d m p.info.responseName inner ∧ inner.group = g := by
  obtain ⟨s, hs, hset, k, hk, hinfo, -⟩ := h.nested hm hp hg
  exact ⟨⟨k, _, g⟩,
    ⟨⟨p, hp, rfl, hg⟩, ⟨s, hs, hset, hk⟩, congrArg FieldInfo.responseName hinfo.symm, rfl⟩, rfl⟩

namespace Representation

variable {schema : Schema} {d : Document} {config : Config} {ir : Representation}

variable (h : build schema config d = .ok ir) (hd : d.UniqueNames)
include h

/-- The group of an operation was built for its field, which was expanded from the operation. -/
theorem exists_operation_sound {o : OperationModels} (ho : o ∈ ir.operations) :
    ∃ op ∈ d.operations, op.name = some o.name ∧
      Spot.Sound schema d config.typename ir ⟨o.field, (· ∈ op.selections), o.group⟩ := by
  obtain ⟨op, hop, hname, _, _, -, hroot, -⟩ := exists_operation_of_build h ho
  exact ⟨op, hop, hname, ⟨_, _, Placed.operation h ho⟩, _, .of_expandRoot hroot⟩

/-- The groups of a fragment were built for its field, which was expanded from the fragment. -/
theorem exists_fragment_sound {r : FragmentModels} (hr : r ∈ ir.fragments) :
    ∃ fragment, d.fragment? r.name = some fragment ∧ ∀ g, g = r.interface ∨
      r.implementation = some g →
      Spot.Sound schema d config.typename ir ⟨r.field, (· ∈ fragment.selections), g⟩ := by
  obtain ⟨fragment, hf, hroot, -⟩ := exists_fragment_of_build h hr
  refine ⟨fragment, hf, fun g hg ↦ ⟨?_, _, .of_expandRoot hroot⟩⟩
  rcases hg with rfl | himplementation
  · exact ⟨_, _, Placed.interface h hr⟩
  · exact ⟨_, _, Placed.implementation h hr himplementation⟩

section

include hd

theorem HasRoot.sound {root : ModelRoot} {spot : Spot}
    (hs : ir.HasRoot d root spot) : spot.Sound schema d config.typename ir := by
  cases hs with
  | operation mem defined name =>
    obtain ⟨op', hop', hname', hsound⟩ := exists_operation_sound h mem
    cases Document.operation_unique hd defined hop' name hname'
    exact hsound
  | interface mem defined =>
    obtain ⟨fragment', hf', hsound⟩ := exists_fragment_sound h mem
    cases defined.symm.trans hf'
    exact hsound _ (.inl rfl)
  | implementation mem defined himplementation =>
    obtain ⟨fragment', hf', hsound⟩ := exists_fragment_sound h mem
    cases defined.symm.trans hf'
    exact hsound _ (.inr himplementation)

/-- **Every spot is sound.** -/
theorem HasSpot.sound {spot : Spot} (hs : ir.HasSpot schema d spot) :
    spot.Sound schema d config.typename ir := by
  induction hs with
  | root root => exact root.sound h hd
  | down _ model down ih => exact ih.down model down

theorem HasSpot.exists_grown {spot : Spot}
    (hs : ir.HasSpot schema d spot) :
    ∃ field survey, spot.Grown schema d config.typename ir field survey :=
  (hs.sound h hd).exists_grown

omit hd in
/-- The ids of the models at the root of a tree name the tree. -/
theorem HasRoot.id_eq {root : ModelRoot} {spot : Spot}
    (hs : ir.HasRoot d root spot) {m : Model} (hm : m ∈ spot.group.models) :
    m.id = ⟨root, [m.name]⟩ := by
  cases hs with
  | operation mem _ _ => exact (Placed.operation h mem).id_eq hm
  | interface mem _ => exact (Placed.interface h mem).id_eq hm
  | implementation mem _ himplementation =>
    exact (Placed.implementation h mem himplementation).id_eq hm

theorem HasRoot.unique {root root' : ModelRoot} {spot spot' : Spot} (hs : ir.HasRoot d root spot)
    (hs' : ir.HasRoot d root' spot') (hroot : root = root') : spot = spot' := by
  obtain ⟨hoperations, hfragments⟩ := nodup_names_of_build h hd
  cases hs with
  | operation mem defined name =>
    cases hs' with
    | operation mem' defined' name' =>
      cases List.inj_on_of_nodup_map hoperations mem mem' (ModelRoot.operation.inj hroot)
      cases Document.operation_unique hd defined defined' name name'
      rfl
    | interface => nomatch hroot
    | implementation => nomatch hroot
  | interface mem defined =>
    cases hs' with
    | operation => nomatch hroot
    | interface mem' defined' =>
      cases List.inj_on_of_nodup_map hfragments mem mem' (ModelRoot.fragmentInterface.inj hroot)
      cases defined.symm.trans defined'
      rfl
    | implementation => nomatch hroot
  | implementation mem defined himplementation =>
    cases hs' with
    | operation => nomatch hroot
    | interface => nomatch hroot
    | implementation mem' defined' himplementation' =>
      cases List.inj_on_of_nodup_map hfragments mem mem'
        (ModelRoot.fragmentImplementation.inj hroot)
      cases defined.symm.trans defined'
      cases himplementation.symm.trans himplementation'
      rfl

theorem HasSpot.mem_models {spot : Spot}
    (hs : ir.HasSpot schema d spot) {m : Model} (hm : m ∈ spot.group.models) :
    m ∈ ir.models := by
  obtain ⟨⟨site, inherited, hplaced⟩, -⟩ := hs.sound h hd
  exact hplaced.mem.mem_models (ModelGroup.mem_allModels hm)

/-- The id of a model beneath another goes on from the id of the other. -/
theorem HasSpot.id_eq_of_down {spot inner : Spot}
    (hs : ir.HasSpot schema d spot) {m k : Model} (hk : k ∈ spot.group.models) {name : Name}
    (hdown : spot.Down schema d k name inner) (hm : m ∈ inner.group.models) :
    m.id = ⟨k.id.root, k.id.path ++ [name, m.name]⟩ := by
  obtain ⟨⟨site, inherited, hplaced⟩, -⟩ := hs.sound h hd
  obtain ⟨site', sups, hsite, -, -, hinner⟩ := hplaced.down hk hdown
  rw [hinner.id_eq hm, hsite.root, hsite.path, List.append_assoc]
  rfl

/-- **A model is at one spot only**, since its id tells the way to it. -/
theorem HasSpot.unique {spot spot' : Spot} (hs : ir.HasSpot schema d spot)
    (hs' : ir.HasSpot schema d spot') {m : Model} (hm : m ∈ spot.group.models)
    (hm' : m ∈ spot'.group.models) : spot = spot' := by
  induction hs generalizing spot' m with
  | root atRoot =>
    have hid := atRoot.id_eq h hm
    cases hs' with
    | root atRoot' =>
      rw [atRoot'.id_eq h hm', ModelId.mk.injEq] at hid
      exact atRoot.unique h hd atRoot' hid.1.symm
    | down outer' model' down' =>
      have hlength := congrArg (fun id ↦ id.path.length)
        ((outer'.id_eq_of_down h hd model' down' hm').symm.trans hid)
      simp at hlength
  | down outer model down ih =>
    have hid := outer.id_eq_of_down h hd model down hm
    cases hs' with
    | root atRoot' =>
      have hlength := congrArg (fun id ↦ id.path.length) (hid.symm.trans (atRoot'.id_eq h hm'))
      simp at hlength
    | down outer' model' down' =>
      rw [outer'.id_eq_of_down h hd model' down' hm', ModelId.mk.injEq] at hid
      obtain ⟨hpath, hlast⟩ := List.append_inj' hid.2 rfl
      cases (List.cons.inj hlast).1
      -- The models above have the same id, so they are the same and by induction at the same spot.
      have habove := List.inj_on_of_nodup_map (nodup_ids h hd) (outer.mem_models h hd model)
        (outer'.mem_models h hd model') (congrArg₂ ModelId.mk hid.1.symm hpath.symm)
      cases habove
      cases ih outer' model model'
      obtain ⟨⟨site, inherited, hplaced⟩, -⟩ := outer.sound h hd
      exact hplaced.down_unique model down down'

/-- **Every group is at a spot.** -/
theorem HasGroup.exists_spot {g : ModelGroup} (hg : ir.HasGroup g) :
    ∃ spot, ir.HasSpot schema d spot ∧ spot.group = g := by
  induction hg with
  | operation mem =>
    obtain ⟨op, hop, hname, -⟩ := exists_operation_of_build h mem
    exact ⟨_, .root (.operation mem hop hname), rfl⟩
  | interface mem =>
    obtain ⟨fragment, hf, -⟩ := exists_fragment_of_build h mem
    exact ⟨_, .root (.interface mem hf), rfl⟩
  | implementation mem himplementation =>
    obtain ⟨fragment, hf, -⟩ := exists_fragment_of_build h mem
    exact ⟨_, .root (.implementation mem hf himplementation), rfl⟩
  | property _ model property group ih =>
    obtain ⟨spot, hspot, rfl⟩ := ih
    obtain ⟨⟨site, inherited, hplaced⟩, -⟩ := hspot.sound h hd
    obtain ⟨inner, hdown, hinner⟩ := hplaced.exists_down model property group
    exact ⟨inner, .down hspot model hdown, hinner⟩

end
end Representation

/-! ## What is found at a spot -/

namespace Spot.Grown

variable {schema : Schema} {d : Document} {policy : TypenamePolicy} {ir : Representation}
  {spot : Spot} {field : Declaration} {survey : Survey}
  (h : spot.Grown schema d policy ir field survey)
include h

theorem shaped :
    Shaped schema spot.field.info.rawType survey.typeConditions survey.fieldTypes
      spot.field.shapes := by
  rw [h.info]
  exact h.unfolds.shaped

theorem rawType_mem {m : Model} (hm : m ∈ spot.group.models) :
    spot.field.info.rawType ∈ m.typeSet := by
  obtain ⟨_, _, hplaced⟩ := h.placed
  obtain ⟨s, hs, hset, -⟩ := hplaced.exists_shape hm
  exact hset ▸ h.shaped.rawType_mem _ (List.mem_map_of_mem hs)

/-- What is found is found on a way. -/
theorem exists_way {o : Occurrence} (ho : o ∈ survey.found.occurrences) :
    ∃ y gates, spot.selected y ∧ Way d y gates (.field o.head o.selections) ∧
      o.Sums schema survey.fieldTypes spot.field.info.rawType gates ∧
      ∃ v, ∀ g ∈ gates, included v g.directives = true := by
  obtain ⟨c, hc, gates, hleads, hsums, hopen⟩ := Survey.exists_leads h.unfolds.survey_eq ho
  rw [h.info]
  exact ⟨c.selection, gates, (h.mem_iff _).mp (List.mem_map_of_mem hc), hleads.way, hsums, hopen⟩

/-- On a way that can be open, fields are found. -/
theorem exists_occurrence {y : Selection} (hy : spot.selected y) {gates : List Gate}
    {head : FieldHead} {beneath : List Selection} (hway : Way d y gates (.field head beneath))
    {v : Name → Bool} (hv : ∀ g ∈ gates, included v g.directives = true) :
    ∃ o ∈ survey.found.occurrences, o.head = head ∧ o.selections = beneath ∧
      o.Sums schema survey.fieldTypes spot.field.info.rawType gates := by
  obtain ⟨c, hc, rfl⟩ := List.mem_map.mp ((h.mem_iff y).mpr hy)
  rw [h.info]
  exact Survey.exists_occurrence h.unfolds.survey_eq hc hway hv

/-- The fields that are selected in the shape of a model are occurrences that apply. -/
theorem exists_applies_of_selects {m : Model} (hm : m ∈ spot.group.models) {parent : Name}
    {head : FieldHead} {beneath : List Selection}
    (hselects : spot.Selects schema d m parent head beneath) :
    ∃ o, survey.Applies m.typeSet o ∧ o.head = head ∧ o.selections = beneath ∧
      o.scope.parentType = parent := by
  obtain ⟨y, gates, hy, hway, hparent, ⟨v, hv⟩, htypes⟩ := hselects
  obtain ⟨o, ho, hhead, hselections, hsums⟩ := h.exists_occurrence hy hway hv
  refine ⟨o, ⟨ho, Survey.subset_of_forall h.unfolds.survey_eq (h.info ▸ h.rawType_mem hm)
    (Survey.mem_typeSets_of_mem_occurrences ho) ?_⟩, hhead, hselections,
    hsums.parentType.trans hparent⟩
  refine (hsums.typeSet fun c hc ↦ .inr hc).mpr fun g hg c hc ↦ ?_
  rw [Schema.covers_iff_forall h.shaped.fieldTypes_eq]
  exact htypes g hg c hc

/-- The occurrences that apply are selected in the shape of the model. -/
theorem selects_of_applies {m : Model} {o : Occurrence} (ho : survey.Applies m.typeSet o) :
    spot.Selects schema d m o.scope.parentType o.head o.selections := by
  obtain ⟨y, gates, hy, hway, hsums, hopen⟩ := h.exists_way ho.1
  refine ⟨y, gates, hy, hway, hsums.parentType.symm, hopen, ?_⟩
  refine (hsums.typeSet fun c hc ↦ .inr ?_).mp fun c hc ↦ .inl (ho.2 c hc)
  exact (Schema.covers_iff_forall h.shaped.fieldTypes_eq).mp hc

/-- What is selected beneath the fields `name` of a model's shape is what is selected beneath the
occurrences that apply. -/
theorem selected_iff {inner : Spot} {m : Model} {name : Name} (hm : m ∈ spot.group.models)
    (hdown : spot.Down schema d m name inner) {x : Selection} :
    inner.selected x ↔ ∃ o, survey.Applies m.typeSet o ∧ o.head.responseName = name ∧
      x ∈ o.selections := by
  rw [hdown.selected, h.info]
  exact Survey.selectedBeneath_iff h.unfolds.survey_eq h.mem_iff (h.info ▸ h.rawType_mem hm)

end Spot.Grown
end ResponseModels
