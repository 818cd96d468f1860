import ResponseModels.Proofs.Library
import ResponseModels.Proofs.Model.Partition

/-!
# The trees of models of a representation

The models of an operation, of the interface of a fragment and of the implementation of a fragment
form a tree each. `Representation.models` is all of them, and `Representation.HasGroup` says how one
gets to their groups, from the roots down; the two agree (`mem_models_iff`).

`Placed` says how a group in one of the trees came about: for a field that was collected, from
interfaces that the representation has, and from groups in its trees to inherit from. It holds of
the root groups (`Placed.operation`, `Placed.interface`, `Placed.implementation`) and is carried
down from a group to the groups of its properties (`Placed.nested`), so it holds of every group
(`Representation.HasGroup.exists_placed`).
-/

set_option autoImplicit false

namespace ResponseModels

/-! ## All models of a tree -/

theorem Model.allOf_eq (models : List Model) :
    Model.allOf models = models.flatMap fun m ↦ m :: m.beneath := by
  induction models with
  | nil => rfl
  | cons m rest ih => rw [allOf, ih, List.flatMap_cons]

theorem ModelGroup.allModels_eq (g : ModelGroup) :
    g.allModels = g.models.flatMap fun m ↦ m :: m.beneath := by
  cases g
  exact Model.allOf_eq _

/-- All models in the group of a property. -/
def Property.models (p : Property) : List Model := (p.group.map ModelGroup.allModels).getD []

theorem Model.beneath_eq (m : Model) : m.beneath = m.properties.flatMap Property.models := by
  have hmodels : ∀ properties : List Property,
      Property.modelsOf properties = properties.flatMap Property.models := by
    intro properties
    induction properties with
    | nil => rfl
    | cons p rest ih =>
      obtain ⟨_, _, _, group⟩ := p
      cases group with
      | none => rw [Property.modelsOf, ih]; rfl
      | some g => rw [Property.modelsOf, ih]; rfl
  cases m
  exact hmodels _

theorem Property.mem_models_iff {p : Property} {m : Model} :
    m ∈ p.models ↔ ∃ g, p.group = some g ∧ m ∈ g.allModels := by
  cases h : p.group with
  | none => simp [models, h]
  | some g => simp [models, h]

theorem Model.mem_beneath_iff {n m : Model} :
    m ∈ n.beneath ↔ ∃ p ∈ n.properties, ∃ g, p.group = some g ∧ m ∈ g.allModels := by
  rw [beneath_eq, List.mem_flatMap]
  simp only [Property.mem_models_iff]

theorem ModelGroup.mem_allModels_iff {g : ModelGroup} {m : Model} :
    m ∈ g.allModels ↔ m ∈ g.models ∨ ∃ n ∈ g.models, m ∈ n.beneath := by
  rw [allModels_eq, List.mem_flatMap]
  simp only [List.mem_cons]
  constructor
  · rintro ⟨n, hn, rfl | hm⟩
    · exact .inl hn
    · exact .inr ⟨n, hn, hm⟩
  · rintro (hm | ⟨n, hn, hm⟩)
    · exact ⟨m, hm, .inl rfl⟩
    · exact ⟨n, hn, .inr hm⟩

theorem ModelGroup.mem_allModels {g : ModelGroup} {m : Model} (h : m ∈ g.models) :
    m ∈ g.allModels :=
  mem_allModels_iff.mpr (.inl h)

theorem ModelGroup.mem_allModels_of_group {g inner : ModelGroup} {n m : Model} {p : Property}
    (hn : n ∈ g.models) (hp : p ∈ n.properties) (hinner : p.group = some inner)
    (hm : m ∈ inner.allModels) : m ∈ g.allModels :=
  mem_allModels_iff.mpr (.inr ⟨n, hn, Model.mem_beneath_iff.mpr ⟨p, hp, inner, hinner, hm⟩⟩)

/-! ## All models of a representation -/

namespace Representation

/-- The trees, each with the group at its root. -/
def trees (ir : Representation) : List (ModelRoot × ModelGroup) :=
  ir.operations.map (fun o ↦ (.operation o.name, o.group)) ++
    ir.fragments.flatMap fun r ↦ (.fragmentInterface r.name, r.interface) ::
      (r.implementation.map fun g ↦ (.fragmentImplementation r.name, g)).toList

/-- All models of all trees. -/
def models (ir : Representation) : List Model := ir.trees.flatMap fun tree ↦ tree.2.allModels

/-- A group in one of the trees. -/
inductive HasGroup (ir : Representation) : ModelGroup → Prop
  | operation {o : OperationModels} (mem : o ∈ ir.operations) : ir.HasGroup o.group
  | interface {r : FragmentModels} (mem : r ∈ ir.fragments) : ir.HasGroup r.interface
  | implementation {r : FragmentModels} {g : ModelGroup} (mem : r ∈ ir.fragments)
      (implementation : r.implementation = some g) : ir.HasGroup g
  | property {g inner : ModelGroup} {m : Model} {p : Property} (outer : ir.HasGroup g)
      (model : m ∈ g.models) (property : p ∈ m.properties) (group : p.group = some inner) :
      ir.HasGroup inner

/-- All interfaces that are given out are those of fragments of the representation. -/
def Offers (ir : Representation) (interfaces : Name → Except Error ModelGroup) : Prop :=
  ∀ name g, interfaces name = .ok g → ∃ r ∈ ir.fragments, r.name = name ∧ r.interface = g

variable {ir : Representation}

theorem mem_trees_iff {root : ModelRoot} {g : ModelGroup} :
    (root, g) ∈ ir.trees ↔ (∃ o ∈ ir.operations, root = .operation o.name ∧ g = o.group) ∨
      ∃ r ∈ ir.fragments, root = .fragmentInterface r.name ∧ g = r.interface ∨
        root = .fragmentImplementation r.name ∧ r.implementation = some g := by
  simp [trees, eq_comm, and_comm]

theorem hasGroup_of_mem_trees {root : ModelRoot} {g : ModelGroup} (h : (root, g) ∈ ir.trees) :
    ir.HasGroup g := by
  rcases mem_trees_iff.mp h with ⟨o, ho, -, rfl⟩ | ⟨r, hr, ⟨-, rfl⟩ | ⟨-, himplementation⟩⟩
  · exact .operation ho
  · exact .interface hr
  · exact .implementation hr himplementation

/-- The models beneath a group of a tree are models of the tree. -/
theorem HasGroup.mem_models {g : ModelGroup} (h : ir.HasGroup g) {m : Model}
    (hm : m ∈ g.allModels) :
    m ∈ ir.models := by
  have hroot : ∀ {root : ModelRoot} {g : ModelGroup}, (root, g) ∈ ir.trees → m ∈ g.allModels →
      m ∈ ir.models := fun hmem hm ↦ List.mem_flatMap.mpr ⟨_, hmem, hm⟩
  induction h with
  | operation mem => exact hroot (mem_trees_iff.mpr (.inl ⟨_, mem, rfl, rfl⟩)) hm
  | interface mem => exact hroot (mem_trees_iff.mpr (.inr ⟨_, mem, .inl ⟨rfl, rfl⟩⟩)) hm
  | implementation mem himplementation =>
    exact hroot (mem_trees_iff.mpr (.inr ⟨_, mem, .inr ⟨rfl, himplementation⟩⟩)) hm
  | property _ model property group ih =>
    exact ih (ModelGroup.mem_allModels_of_group model property group hm)

end Representation

/-! ## Where groups come from -/

/-- A site is that of the group of a model's property. -/
structure Site.IsBeneath (site : Site) (m : Model) (responseName : Name) : Prop where
  /-- It is in the tree of the model. -/
  root : site.root = m.id.root
  /-- Its address is that of the model and the property. -/
  path : site.path = m.id.path ++ [responseName]
  /-- Beneath an interface there are only interfaces. -/
  interfacesOnly : site.interfacesOnly = m.isInterface

/-- The properties of a model have different response names. -/
theorem BuiltModel.Follows.nodup_responseNames {interfaces : Name → Except Error ModelGroup}
    {f : Field} {site : Site} {inherited : List ModelGroup} {before : List BuiltModel}
    {sups : List Model} {b : BuiltModel} (h : b.Follows interfaces f site inherited before sups)
    {schema : Schema} {d : Document} {policy : TypenamePolicy} {field : Declaration}
    {survey : Survey} (hu : field.Unfolds schema d policy f survey)
    (hset : b.planned.fieldSet ∈ f.fieldSets) :
    (b.model.properties.map fun p ↦ p.info.responseName).Nodup := by
  have hinfo := congrArg (List.map FieldInfo.responseName) h.map_info
  rw [List.map_map, List.map_map] at hinfo
  exact hinfo ▸ hu.nodup_fields hset

/-- How a group of a representation came about: it was built for a field that was collected, from
interfaces and inherited groups of the representation. -/
structure Placed (schema : Schema) (d : Document) (policy : TypenamePolicy) (ir : Representation)
    (f : Field) (site : Site) (inherited : List ModelGroup) (g : ModelGroup) : Prop where
  /-- The field was collected. -/
  collected : ∃ field, expandField schema d policy field = .ok f
  /-- The group was built for it at the site. -/
  built : ∃ interfaces, ir.Offers interfaces ∧ f.modelGroup interfaces site inherited = .ok g
  /-- It is a group of the representation. -/
  mem : ir.HasGroup g
  /-- So are the groups that it inherits from. -/
  inherits : ∀ h ∈ inherited, ir.HasGroup h

namespace Placed

section roots

variable {schema : Schema} {d : Document} {config : Config} {ir : Representation}

/-- The interfaces of the library are those of the result. -/
theorem offers_of_build {lib : FragmentLibrary}
    (hlib : FragmentLibrary.ofDocument schema d config = .ok lib) {used used' : List Name}
    (hfragments : buildFragments schema config lib d.fragments used = .ok (ir.fragments, used'))
    {interfaces : Name → Except Error ModelGroup} (h : ResponseModels.Offers lib.built interfaces) :
    ir.Offers interfaces := by
  intro name g hg
  obtain ⟨b, hb, rfl, rfl⟩ := h name g hg
  exact exists_fragment_of_mem_built hlib hfragments hb

variable (h : build schema config d = .ok ir)
include h

/-- The models of an operation. -/
theorem operation {o : OperationModels} (ho : o ∈ ir.operations) :
    Placed schema d config.typename ir o.field ⟨.operation o.name, [], dataModelName, false⟩
      [] o.group := by
  obtain ⟨lib, _, _, _, hlib, hfragments, hoperations⟩ := build_eq_ok h
  obtain ⟨_, -, hok⟩ := exists_of_mem_buildOperations hoperations ho
  obtain ⟨-, _, -, hroot, hgroup⟩ := buildOperation_eq_ok hok
  obtain ⟨field, hf, -⟩ := exists_of_expandRoot hroot
  exact ⟨⟨field, hf⟩, ⟨_, offers_of_build hlib hfragments (lib.offers_interfaceOf []), hgroup⟩,
    .operation ho, fun _ hmem ↦ absurd hmem List.not_mem_nil⟩

/-- The interface models of a fragment. -/
theorem interface {r : FragmentModels} (hr : r ∈ ir.fragments) :
    Placed schema d config.typename ir r.field ⟨.fragmentInterface r.name, [], r.name, true⟩ []
      r.interface := by
  obtain ⟨lib, _, _, _, hlib, hfragments, -⟩ := build_eq_ok h
  obtain ⟨_, -, hok⟩ := exists_of_mem_buildFragments hfragments hr
  obtain ⟨-, -, b, hb, hfield, hinterface⟩ := buildFragment_eq_ok hok
  obtain ⟨_, -, hroot⟩ := (FragmentLibrary.sound_ofDocument hlib).exists_fragment hb
  obtain ⟨field, hf, -⟩ := exists_of_expandRoot hroot
  have hname : b.name = r.name := by simpa using List.find?_some hb
  obtain ⟨interfaces, hoffers, hgroup⟩ :=
    (FragmentLibrary.wired_ofDocument hlib).stacked.exists_interfaces (List.mem_of_find?_eq_some hb)
  rw [hname, ← hfield, ← hinterface] at hgroup
  exact ⟨⟨field, hfield ▸ hf⟩, ⟨interfaces, offers_of_build hlib hfragments hoffers, hgroup⟩,
    .interface hr, fun _ hmem ↦ absurd hmem List.not_mem_nil⟩

/-- The implementation models of a fragment, which inherit from its interface. -/
theorem implementation {r : FragmentModels} (hr : r ∈ ir.fragments) {g : ModelGroup}
    (hg : r.implementation = some g) :
    Placed schema d config.typename ir r.field ⟨.fragmentImplementation r.name, [], r.name, false⟩
      [r.interface] g := by
  obtain ⟨lib, _, _, _, hlib, hfragments, -⟩ := build_eq_ok h
  obtain ⟨_, -, hok⟩ := exists_of_mem_buildFragments hfragments hr
  obtain ⟨-, himplementation, b, hb, hfield, hinterface⟩ := buildFragment_eq_ok hok
  have hw := FragmentLibrary.wired_ofDocument hlib
  obtain ⟨l₁, l₂, heq, -⟩ := List.lookup_eq_some_iff.mp (himplementation.symm.trans hg)
  have hmem : (r.name, g) ∈ lib.implementations := by simp [heq]
  obtain ⟨c, hc, interfaces, hname, hoffers, hgroup⟩ := hw.implementations _ hmem
  have hfound := hw.built?_eq_some hc
  rw [hname, hb] at hfound
  cases hfound
  rw [← hfield, ← hinterface] at hgroup
  exact ⟨(interface h hr).collected, ⟨interfaces, offers_of_build hlib hfragments hoffers, hgroup⟩,
    .implementation hr hg, fun _ hmem ↦ List.mem_singleton.mp hmem ▸ .interface hr⟩

end roots

section steps

variable {schema : Schema} {d : Document} {policy : TypenamePolicy} {ir : Representation}
  {f : Field} {site : Site} {inherited : List ModelGroup} {g : ModelGroup}

/-- A model of the group, with what it was built from. -/
theorem exists_follows (h : Placed schema d policy ir f site inherited g) {m : Model}
    (hm : m ∈ g.models) :
    ∃ interfaces before sups, ∃ b : BuiltModel, ir.Offers interfaces ∧ b.model = m ∧
      b.planned ∈ f.plan site ∧ b.Keeps site ∧ b.Follows interfaces f site inherited before sups ∧
      ∀ c ∈ (before : List BuiltModel), c.model ∈ g.models ∧ c.planned ∈ f.plan site ∧
      c.Keeps site := by
  obtain ⟨interfaces, hoffers, hgroup⟩ := h.built
  obtain ⟨built, hraises, hmodels, hplanned, -⟩ := Field.raises_of_modelGroup hgroup
  rw [hmodels] at hm
  obtain ⟨b, hb, rfl⟩ := List.mem_map.mp hm
  obtain ⟨before, sups, hsubset, hfollows⟩ := hraises.exists_follows hb
  have hplan : ∀ c ∈ built, c.planned ∈ f.plan site := fun c hc ↦
    hplanned ▸ List.mem_map_of_mem hc
  refine ⟨interfaces, before, sups, b, hoffers, rfl, hplan b hb, hraises.keeps hb, hfollows,
    fun c hc ↦ ?_⟩
  have hc := hsubset hc
  exact ⟨hmodels ▸ List.mem_map_of_mem hc, hplan c hc, hraises.keeps hc⟩

theorem id_eq (h : Placed schema d policy ir f site inherited g) {m : Model} (hm : m ∈ g.models) :
    m.id = ⟨site.root, site.path ++ [m.name]⟩ := by
  obtain ⟨_, _, _, b, -, rfl, -, hkeeps, -, -⟩ := h.exists_follows hm
  rw [hkeeps.id, hkeeps.name, Site.id]

/-- The field of the group unfolds. -/
theorem exists_unfolds (h : Placed schema d policy ir f site inherited g) :
    ∃ field survey, expandField schema d policy field = .ok f ∧
      field.Unfolds schema d policy f survey := by
  obtain ⟨field, hf⟩ := h.collected
  obtain ⟨interfaces, -, hgroup⟩ := h.built
  obtain ⟨s, hs⟩ := List.exists_mem_of_ne_nil _ (Field.modelGroup_eq_ok hgroup).1
  obtain ⟨survey, hu⟩ := unfolds_of_expandField hf (isComposite_of_mem_fieldSets hf hs)
  exact ⟨field, survey, hf, hu⟩

/-- The properties of a model are for the fields of its shape. -/
theorem exists_shape (h : Placed schema d policy ir f site inherited g) {m : Model}
    (hm : m ∈ g.models) :
    ∃ s ∈ f.fieldSets, s.typeSet = m.typeSet ∧
      m.properties.map Property.info = s.fields.map Field.info := by
  obtain ⟨_, _, _, b, -, rfl, hplan, hkeeps, hfollows, -⟩ := h.exists_follows hm
  exact ⟨b.planned.fieldSet, Field.fieldSet_mem_of_mem_plan hplan, hkeeps.typeSet.symm,
    hfollows.map_info⟩

theorem nodup_responseNames (h : Placed schema d policy ir f site inherited g) {m : Model}
    (hm : m ∈ g.models) : (m.properties.map fun p ↦ p.info.responseName).Nodup := by
  obtain ⟨_, _, _, b, -, rfl, hplan, -, hfollows, -⟩ := h.exists_follows hm
  obtain ⟨_, _, -, hu⟩ := h.exists_unfolds
  exact hfollows.nodup_responseNames hu (Field.fieldSet_mem_of_mem_plan hplan)

end steps
end Placed

/-- What a model implements is in the trees. -/
theorem Super.exists_group {ir : Representation} {interfaces : Name → Except Error ModelGroup}
    (hoffers : ir.Offers interfaces) {inherited : List ModelGroup}
    (hinherits : ∀ h ∈ inherited, ir.HasGroup h) {g : ModelGroup} (hg : ir.HasGroup g)
    {before : List BuiltModel} (hbefore : ∀ c ∈ before, c.model ∈ g.models) {p : PlannedModel}
    {n : Model} (h : Super interfaces inherited before p n) :
    ∃ g', ir.HasGroup g' ∧ n ∈ g'.models := by
  cases h with
  | own mem _ _ _ => exact ⟨g, hg, hbefore _ mem⟩
  | wider mem _ _ => exact ⟨g, hg, hbefore _ mem⟩
  | matching group mem =>
    refine ⟨_, ?_, (ModelGroup.of_mem_mostSpecific mem).1⟩
    rcases group with hmem | ⟨name, -, hok⟩
    · exact hinherits _ hmem
    · obtain ⟨r, hr, -, rfl⟩ := hoffers _ _ hok
      exact .interface hr

section

variable {schema : Schema} {d : Document} {policy : TypenamePolicy} {ir : Representation}
  {f : Field} {site : Site} {inherited : List ModelGroup} {g : ModelGroup}

/-- **What a model implements** is in the trees. It is interfaces, and they are for at least its
object types. -/
theorem Placed.exists_supers (h : Placed schema d policy ir f site inherited g) {m : Model}
    (hm : m ∈ g.models) :
    ∃ sups : List Model, m.implements = sups.map Model.id ∧ (sups.map Model.id).Nodup ∧
      ∀ n ∈ sups, (∃ g', ir.HasGroup g' ∧ n ∈ g'.models) ∧ n.isInterface = true ∧
        m.possibleTypes ⊆ n.possibleTypes := by
  obtain ⟨interfaces, before, sups, b, hoffers, rfl, hplan, hkeeps, hfollows, hbefore⟩ :=
    h.exists_follows hm
  refine ⟨sups, hfollows.implements, hfollows.supers.nodup, fun n hn ↦ ?_⟩
  have hsuper := hfollows.supers.only n hn
  refine ⟨hsuper.exists_group hoffers h.inherits h.mem fun c hc ↦ (hbefore c hc).1, ?_⟩
  rw [hkeeps.possibleTypes]
  exact hsuper.covers (fun c hc ↦ (hbefore c hc).2) hplan

/-- **One step down**: the group of a property was built for a field of the model's shape, and
inherits from groups of the models that the model implements. -/
theorem Placed.nested (h : Placed schema d policy ir f site inherited g) {m : Model}
    (hm : m ∈ g.models) {p : Property} (hp : p ∈ m.properties) {inner : ModelGroup}
    (hinner : p.group = some inner) :
    ∃ s ∈ f.fieldSets, s.typeSet = m.typeSet ∧ ∃ k ∈ s.fields, p.info = k.info ∧
      ∃ site' sups, site'.IsBeneath m k.responseName ∧ m.implements = sups.map Model.id ∧
        (∀ n ∈ sups, ∃ g', ir.HasGroup g' ∧ n ∈ g'.models) ∧
        Placed schema d policy ir k site' (inheritedGroups sups k.responseName) inner := by
  obtain ⟨interfaces, before, sups, b, hoffers, rfl, hplan, hkeeps, hfollows, hbefore⟩ :=
    h.exists_follows hm
  obtain ⟨field, survey, hf, hu⟩ := h.exists_unfolds
  obtain ⟨k, hk, hinfo, hgroup⟩ := hfollows.nested hp hinner
  have hs := Field.fieldSet_mem_of_mem_plan hplan
  have hsups : ∀ n ∈ sups, ∃ g', ir.HasGroup g' ∧ n ∈ g'.models := fun n hn ↦
    (hfollows.supers.only n hn).exists_group hoffers h.inherits h.mem fun c hc ↦ (hbefore c hc).1
  have hsite : (site.beneath b.planned k).IsBeneath b.model k.responseName :=
    ⟨hkeeps.id ▸ rfl, hkeeps.id ▸ rfl, hkeeps.isInterface.symm⟩
  refine ⟨b.planned.fieldSet, hs, hkeeps.typeSet.symm, k, hk, hinfo, _, sups, hsite,
    hfollows.implements, hsups, ?_,
    ⟨interfaces, hoffers, hgroup⟩, .property h.mem hm hp hinner, fun inherited' hmem ↦ ?_⟩
  · rcases hu.exists_of_mem_fields hs hk with rfl | ⟨_, -, declaration, -, hdeclaration⟩
    · exact absurd rfl (Field.modelGroup_eq_ok hgroup).1
    · exact ⟨declaration, hdeclaration⟩
  · obtain ⟨n, hn, q, hq, -, hqgroup⟩ := exists_of_mem_inheritedGroups hmem
    obtain ⟨g', hg', hn⟩ := hsups n hn
    exact .property hg' hn hq hqgroup

end

namespace Representation

variable {schema : Schema} {d : Document} {config : Config} {ir : Representation}

/-- **Every group of a representation** came about in this way. -/
theorem HasGroup.exists_placed (h : build schema config d = .ok ir) {g : ModelGroup}
    (hg : ir.HasGroup g) :
    ∃ f site inherited, Placed schema d config.typename ir f site inherited g := by
  induction hg with
  | operation mem => exact ⟨_, _, _, Placed.operation h mem⟩
  | interface mem => exact ⟨_, _, _, Placed.interface h mem⟩
  | implementation mem himplementation =>
    exact ⟨_, _, _, Placed.implementation h mem himplementation⟩
  | property _ model property group ih =>
    obtain ⟨f, site, inherited, hplaced⟩ := ih
    obtain ⟨_, -, -, k, -, -, site', sups, -, -, -, hinner⟩ := hplaced.nested model property group
    exact ⟨k, site', _, hinner⟩

/-- The models of a representation are those of its groups. -/
theorem mem_models_iff (h : build schema config d = .ok ir) {m : Model} :
    m ∈ ir.models ↔ ∃ g, ir.HasGroup g ∧ m ∈ g.models := by
  constructor
  · intro hm
    obtain ⟨⟨root, group⟩, hroot, hm⟩ := List.mem_flatMap.mp hm
    have hroot := hasGroup_of_mem_trees hroot
    obtain ⟨f, site, inherited, hplaced⟩ := hroot.exists_placed h
    obtain ⟨interfaces, -, hgroup⟩ := hplaced.built
    -- A model of the tree is one of the group itself, or it is in the tree of a group beneath.
    refine Field.modelGroup_induct (motive := fun _ _ _ g ↦ ir.HasGroup g → m ∈ g.allModels →
      ∃ g, ir.HasGroup g ∧ m ∈ g.models) (fun f site inherited g hok ih hg hm ↦ ?_) hgroup hroot hm
    rcases ModelGroup.mem_allModels_iff.mp hm with hm | ⟨n, hn, hbeneath⟩
    · exact ⟨g, hg, hm⟩
    · obtain ⟨p, hp, inner, hinner, hmem⟩ := Model.mem_beneath_iff.mp hbeneath
      obtain ⟨built, hraises, hmodels, hplanned, -⟩ := Field.raises_of_modelGroup hok
      have hn' := hn
      rw [hmodels] at hn'
      obtain ⟨b, hb, rfl⟩ := List.mem_map.mp hn'
      obtain ⟨_, _, -, hfollows⟩ := hraises.exists_follows hb
      obtain ⟨k, hk, -, hok'⟩ := hfollows.nested hp hinner
      have hs : b.planned.fieldSet ∈ f.fieldSets :=
        Field.fieldSet_mem_of_mem_plan (hplanned ▸ List.mem_map_of_mem hb)
      exact ih _ hs k hk _ _ inner hok' (.property hg hn hp hinner) hmem
  · rintro ⟨g, hg, hm⟩
    exact hg.mem_models (ModelGroup.mem_allModels hm)

theorem exists_supers (h : build schema config d = .ok ir) {m : Model} (hm : m ∈ ir.models) :
    ∃ sups : List Model, m.implements = sups.map Model.id ∧ (sups.map Model.id).Nodup ∧
      ∀ n ∈ sups, n ∈ ir.models ∧ n.isInterface = true ∧ m.possibleTypes ⊆ n.possibleTypes := by
  obtain ⟨g, hg, hm⟩ := (mem_models_iff h).mp hm
  obtain ⟨f, site, inherited, hplaced⟩ := hg.exists_placed h
  obtain ⟨sups, himplements, hnodup, hsups⟩ := hplaced.exists_supers hm
  refine ⟨sups, himplements, hnodup, fun n hn ↦ ?_⟩
  obtain ⟨hgroup, hcovers⟩ := hsups n hn
  exact ⟨(mem_models_iff h).mpr hgroup, hcovers⟩

end Representation
end ResponseModels
