import ResponseModels.Proofs.Model.Inheritance

/-!
# Downcasts land

A value comes as the concrete model of its object type. To use it as something less specific one
follows what the model implements, and this is to lead to every model that the value can be seen as:
to the primary model of each shape that its object type satisfies, and to no other, and to the base
model of each fragment that is spread where it applies.

Within a group, a model implements the primary models of the *next* wider shapes only, so one gets
to the wider ones step by step (`Placed.reaches_primary`). Into the interface of a fragment one gets
by a best match, which exists because the base model of the interface is for all objects that
satisfy the type condition of the fragment (`Placed.exists_spread`), and from there on to the base
model within that group.
-/

set_option autoImplicit false

namespace ResponseModels

/-! ## Statements -/

/-- One gets from a model to another by following what models implement. -/
def Representation.Reaches (ir : Representation) : Model → Model → Prop :=
  Relation.ReflTransGen ir.Implements

namespace ModelGroup

/-- A model for what narrower shapes leave of a shape: concrete, although its shape has an
interface. -/
def IsOther (g : ModelGroup) (m : Model) : Prop :=
  m.isInterface = false ∧ ∃ n ∈ g.models, n.typeSet = m.typeSet ∧ n.isInterface = true

/-- The primary model of a shape. -/
structure IsPrimary (g : ModelGroup) (typeSet : NameSet) (m : Model) : Prop where
  /-- It is a model of the group. -/
  mem : m ∈ g.models
  /-- It has the shape. -/
  typeSet_eq : m.typeSet = typeSet
  /-- It is not the `Other` model of the shape. -/
  notOther : ¬ g.IsOther m

end ModelGroup

/-- A value of object type `t` that comes as `m` can be seen as all that it should be: as the shapes
that have `t`, and no others, and as the fragments that are spread on its shape. -/
structure Lands (ir : Representation) (f : Field) (g : ModelGroup) (t : Name) (m : Model) :
    Prop where
  /-- Every shape has a primary model, and one gets to it just if the shape has the object type. -/
  shapes : ∀ s ∈ f.fieldSets, (∃ n, g.IsPrimary s.typeSet n) ∧
    ∀ n, g.IsPrimary s.typeSet n → (t ∈ n.possibleTypes ↔ ir.Reaches m n)
  /-- The base model of the group has an accessor to the base model of the fragment, and one gets
  there. -/
  fragments : ∀ s ∈ f.fieldSets, s.typeSet = m.typeSet → ∀ name ∈ s.fragments,
    ∃ r ∈ ir.fragments, r.name = name ∧
      (∃ base ∈ g.models, base.id = g.baseId ∧ .fragment name r.interface.baseId ∈ base.accessors) ∧
      ∃ target ∈ r.interface.models, target.id = r.interface.baseId ∧ ir.Reaches m target

/-! ## One group -/

namespace Placed

variable {schema : Schema} {d : Document} {policy : TypenamePolicy} {ir : Representation}
  {f : Field} {site : Site} {inherited : List ModelGroup} {g : ModelGroup}
  (h : Placed schema d policy ir f site inherited g)
include h

/-- Every planned model was built. -/
theorem exists_model {p : PlannedModel} (hp : p ∈ f.plan site) :
    ∃ b : BuiltModel, b.planned = p ∧ b.model ∈ g.models ∧ b.Keeps site := by
  obtain ⟨interfaces, -, hgroup⟩ := h.built
  obtain ⟨built, hraises, hmodels, hplanned, -⟩ := Field.raises_of_modelGroup hgroup
  rw [← hplanned] at hp
  obtain ⟨b, hb, rfl⟩ := List.mem_map.mp hp
  exact ⟨b, rfl, hmodels ▸ List.mem_map_of_mem hb, hraises.keeps hb⟩

/-- Which models are for what is left of a shape can be told from the group. -/
theorem isOther_iff {b : BuiltModel} (hplan : b.planned ∈ f.plan site) (hkeeps : b.Keeps site) :
    g.IsOther b.model ↔ b.planned.isOther = true := by
  have hkind := Field.kind_of_mem_plan hplan
  constructor
  · rintro ⟨hconcrete, n, hn, hset, hinterface⟩
    obtain ⟨_, _, _, c, -, rfl, hplan', hkeeps', -, -⟩ := h.exists_follows hn
    rw [hkeeps.isInterface] at hconcrete
    rw [hkeeps'.isInterface] at hinterface
    rw [hkeeps.typeSet, hkeeps'.typeSet] at hset
    cases hkind with
    | other hother _ _ _ _ => exact hother
    | primary _ hinterface₁ _ =>
      -- Both models would be primary, and what makes the one an interface makes the other one too.
      cases Field.kind_of_mem_plan hplan' with
      | other _ hinterface₂ _ _ _ => exact absurd (hinterface.symm.trans hinterface₂) (by decide)
      | primary _ hinterface₂ _ =>
        rw [hset, ← hinterface₁] at hinterface₂
        exact absurd (hinterface.symm.trans (hinterface₂.trans hconcrete)) (by decide)
  · intro hother
    cases hkind with
    | primary hprimary _ _ => exact absurd (hother.symm.trans hprimary) (by decide)
    | other _ hconcrete _ _ hnarrower =>
      obtain ⟨q, hq, hset, hprimary⟩ : ∃ q ∈ f.plan site, q.fieldSet = b.planned.fieldSet ∧
          q.isOther = false :=
        Field.exists_primary (Field.fieldSet_mem_of_mem_plan hplan)
      obtain ⟨c, rfl, hc, hkeeps'⟩ := h.exists_model hq
      have hset' : c.planned.typeSet = b.planned.typeSet := congrArg FieldSet.typeSet hset
      refine ⟨hkeeps.isInterface.trans hconcrete, c.model, hc, ?_, ?_⟩
      · rw [hkeeps.typeSet, hkeeps'.typeSet, hset']
      · rw [hkeeps'.isInterface]
        exact (Field.kind_of_mem_plan hq).isInterface_of_narrower hprimary (hset' ▸ hnarrower)

/-- A model that was planned as primary is primary. -/
theorem isPrimary {b : BuiltModel} (hmem : b.model ∈ g.models) (hplan : b.planned ∈ f.plan site)
    (hkeeps : b.Keeps site) (hprimary : b.planned.isOther = false) :
    g.IsPrimary b.planned.typeSet b.model where
  mem := hmem
  typeSet_eq := hkeeps.typeSet
  notOther hother :=
    absurd (((h.isOther_iff hplan hkeeps).mp hother).symm.trans hprimary) (by decide)

theorem exists_isPrimary {s : FieldSet} (hs : s ∈ f.fieldSets) : ∃ n, g.IsPrimary s.typeSet n := by
  obtain ⟨p, hp, rfl, hprimary⟩ : ∃ p ∈ f.plan site, p.fieldSet = s ∧ p.isOther = false :=
    Field.exists_primary hs
  obtain ⟨b, rfl, hb, hkeeps⟩ := h.exists_model hp
  exact ⟨b.model, h.isPrimary hb hp hkeeps hprimary⟩

/-- A primary model was planned as such. -/
theorem exists_planned {typeSet : NameSet} {m : Model} (hm : g.IsPrimary typeSet m) :
    ∃ b : BuiltModel, b.model = m ∧ b.planned ∈ f.plan site ∧ b.Keeps site ∧
      b.planned.isOther = false ∧ b.planned.typeSet = typeSet := by
  obtain ⟨_, _, _, b, -, rfl, hplan, hkeeps, -, -⟩ := h.exists_follows hm.mem
  refine ⟨b, rfl, hplan, hkeeps, ?_, hkeeps.typeSet.symm.trans hm.typeSet_eq⟩
  cases hother : b.planned.isOther with
  | false => rfl
  | true => exact absurd ((h.isOther_iff hplan hkeeps).mpr hother) hm.notOther

theorem implements {m n : Model} (hm : m ∈ g.models) (hn : n ∈ g.models)
    (hid : n.id ∈ m.implements) :
    ir.Implements m n :=
  ⟨h.mem.mem_models (ModelGroup.mem_allModels hm), h.mem.mem_models (ModelGroup.mem_allModels hn),
    hid⟩

/-- A model for what is left of a shape implements the primary model of the shape. -/
theorem exists_own {m : Model} (hm : m ∈ g.models) (hother : g.IsOther m) :
    ∃ n, g.IsPrimary m.typeSet n ∧ ir.Implements m n := by
  obtain ⟨interfaces, before, sups, b, -, rfl, hplan, hkeeps, hfollows, hbefore⟩ :=
    h.exists_follows hm
  obtain ⟨c, hc, hset, hprimary, hid⟩ :=
    hfollows.supers.own ((h.isOther_iff hplan hkeeps).mp hother)
  obtain ⟨hmem, hplan', hkeeps'⟩ := hbefore c hc
  refine ⟨c.model, ?_, h.implements hm hmem (hfollows.implements ▸ hid)⟩
  rw [hkeeps.typeSet, ← hset]
  exact h.isPrimary hmem hplan' hkeeps' hprimary

/-- A primary model implements the primary models of the next wider shapes. -/
theorem exists_wider {m : Model} (hm : g.IsPrimary m.typeSet m) {next : NameSet}
    (hnext : next ∈ f.nextWider m.typeSet) : ∃ n, g.IsPrimary next n ∧ ir.Implements m n := by
  have hmem := hm.mem
  obtain ⟨interfaces, before, sups, b, -, rfl, hplan, hkeeps, hfollows, hbefore⟩ :=
    h.exists_follows hmem
  have hprimary : b.planned.isOther = false :=
    Bool.eq_false_iff.mpr fun hother ↦ hm.notOther ((h.isOther_iff hplan hkeeps).mpr hother)
  rw [hkeeps.typeSet] at hnext
  obtain ⟨c, hc, rfl, hprimary', hid⟩ := hfollows.supers.wider hprimary next hnext
  obtain ⟨hmem', hplan', hkeeps'⟩ := hbefore c hc
  exact ⟨c.model, h.isPrimary hmem' hplan' hkeeps' hprimary',
    h.implements hmem hmem' (hfollows.implements ▸ hid)⟩

variable (hunique : (ir.models.map Model.id).Nodup)
include hunique

/-- A shape has only one primary model. -/
theorem eq_of_isPrimary {typeSet : NameSet} {m n : Model} (hm : g.IsPrimary typeSet m)
    (hn : g.IsPrimary typeSet n) : m = n := by
  obtain ⟨b, rfl, hplan, hkeeps, hprimary, hset⟩ := h.exists_planned hm
  obtain ⟨c, rfl, hplan', hkeeps', hprimary', hset'⟩ := h.exists_planned hn
  obtain ⟨field, survey, -, hu⟩ := h.exists_unfolds
  have heq : b.planned = c.planned :=
    Field.eq_of_primary hu.shaped.nodup_fieldSets hplan hplan' hprimary
      hprimary' (hset.trans hset'.symm)
  refine List.inj_on_of_nodup_map hunique (h.mem.mem_models (ModelGroup.mem_allModels hm.mem))
    (h.mem.mem_models (ModelGroup.mem_allModels hn.mem)) ?_
  rw [hkeeps.id, hkeeps'.id, heq]

/-- **From a model one gets to the primary models of all wider shapes.** -/
theorem reaches_primary {typeSet : NameSet} {n : Model} (hn : g.IsPrimary typeSet n) {m : Model}
    (hm : m ∈ g.models) (hsub : typeSet ⊆ m.typeSet) : ir.Reaches m n := by
  obtain ⟨c, rfl, hplan, -, -, rfl⟩ := h.exists_planned hn
  have hprimary : ∀ m, g.IsPrimary m.typeSet m → c.planned.typeSet ⊆ m.typeSet →
      ir.Reaches m c.model := by
    intro m hm hsub
    -- As long as the shape is not that of the model, there is a next wider one on the way to it.
    induction hsize : m.typeSet.size using Nat.strong_induction_on generalizing m with
    | _ size ih =>
      by_cases heq : c.planned.typeSet = m.typeSet
      · rw [h.eq_of_isPrimary hunique hn (heq ▸ hm)]
        exact .refl
      · obtain ⟨next, hnext, hle⟩ := Field.exists_nextWider (Field.fieldSet_mem_of_mem_plan hplan)
          (NameSet.ssubset_iff_subset_ne.mpr ⟨hsub, heq⟩)
        obtain ⟨n', hn', himplements⟩ := h.exists_wider hm hnext
        have hset := hn'.typeSet_eq
        have hlt : n'.typeSet.size < size := by
          rw [hset, ← hsize]
          exact (Field.of_mem_nextWider hnext).1
        exact .head himplements (ih _ hlt n' (hset.symm ▸ hn') (hset.symm ▸ hle) rfl)
  by_cases hother : g.IsOther m
  · obtain ⟨n', hn', himplements⟩ := h.exists_own hm hother
    have hset := hn'.typeSet_eq
    exact .head himplements (hprimary n' (hset.symm ▸ hn') (hset.symm ▸ hsub))
  · exact hprimary m ⟨hm, rfl, hother⟩ hsub

end Placed

/-! ## Object types -/

namespace Placed

variable {schema : Schema} {d : Document} {policy : TypenamePolicy} {ir : Representation}
  {f : Field} {site : Site} {inherited : List ModelGroup} {g : ModelGroup}
  (h : Placed schema d policy ir f site inherited g)
include h

/-- The field of a group has object types. -/
theorem exists_fieldTypes : ∃ fieldTypes, schema.possibleTypes f.info.rawType = .ok fieldTypes := by
  obtain ⟨field, survey, hfield, hu⟩ := h.exists_unfolds
  rw [(info_of_expandField hfield).1]
  exact ⟨_, hu.shaped.fieldTypes_eq⟩

variable {fieldTypes : NameSet} (hf : schema.possibleTypes f.info.rawType = .ok fieldTypes)
include hf

/-- The shapes of the field of a group. -/
theorem exists_shaped :
    ∃ typeConditions, Shaped schema f.info.rawType typeConditions fieldTypes f.shapes := by
  obtain ⟨field, survey, hfield, hu⟩ := h.exists_unfolds
  have hshaped := hu.shaped
  rw [← (info_of_expandField hfield).1] at hshaped
  cases hf.symm.trans hshaped.fieldTypes_eq
  exact ⟨_, hshaped⟩

/-- The object types of a model are object types of the field and satisfy all conditions of the
model's shape. -/
theorem satisfies {m : Model} (hm : m ∈ g.models) {t : Name} (ht : t ∈ m.possibleTypes) :
    t ∈ fieldTypes ∧ ∀ c ∈ m.typeSet, schema.satisfies t c = true := by
  obtain ⟨_, _, _, b, -, rfl, hplan, hkeeps, -, -⟩ := h.exists_follows hm
  obtain ⟨typeConditions, hshaped⟩ := h.exists_shaped hf
  rw [hkeeps.possibleTypes] at ht
  rw [hkeeps.typeSet]
  obtain ⟨hmem, hsub⟩ := hshaped.mem_covered.mp ((Field.kind_of_mem_plan hplan).subset_covered t ht)
  refine ⟨hmem, fun c hc ↦ ?_⟩
  rcases Schema.mem_typeSetOf.mp (hsub c hc) with rfl | ⟨-, hsat⟩
  · exact hshaped.satisfies_rawType hmem
  · exact hsat

/-- **The primary models that have an object type** are those of the shapes at least as wide as the
concrete model of the object type. -/
theorem mem_possibleTypes_iff (hsite : site.interfacesOnly = false) {m : Model} (hm : m ∈ g.models)
    (hconcrete : m.isInterface = false) {t : Name} (ht : t ∈ m.possibleTypes) {typeSet : NameSet}
    {n : Model} (hn : g.IsPrimary typeSet n) : t ∈ n.possibleTypes ↔ typeSet ⊆ m.typeSet := by
  obtain ⟨typeConditions, hshaped⟩ := h.exists_shaped hf
  obtain ⟨_, _, _, b, -, rfl, hplan, hkeeps, -, -⟩ := h.exists_follows hm
  rw [hkeeps.isInterface] at hconcrete
  rw [hkeeps.possibleTypes, hshaped.mem_possibleTypes_plan hsite hplan hconcrete] at ht
  obtain ⟨c, rfl, hplan', hkeeps', hprimary, rfl⟩ := h.exists_planned hn
  rw [hkeeps'.possibleTypes, (Field.kind_of_mem_plan hplan').possibleTypes_eq hprimary,
    hshaped.mem_covered, hkeeps.typeSet, ht.2]
  exact and_iff_right ht.1

omit hf in
theorem rawType_mem {m : Model} (hm : m ∈ g.models) : f.info.rawType ∈ m.typeSet := by
  obtain ⟨_, hf⟩ := h.exists_fieldTypes
  obtain ⟨_, hshaped⟩ := h.exists_shaped hf
  obtain ⟨s, hs, hset, -⟩ := h.exists_shape hm
  exact hset ▸ hshaped.rawType_mem _ (List.mem_map_of_mem hs)

omit hf in
/-- Where a fragment is spread on the shape of a model, the object types of the model satisfy its
type condition. -/
theorem satisfies_fragment {m : Model} (hm : m ∈ g.models) {s : FieldSet} (hs : s ∈ f.fieldSets)
    (hset : s.typeSet = m.typeSet) {name : Name} (hname : name ∈ s.fragments) :
    ∃ fragment, d.fragment? name = some fragment ∧
      ∀ t ∈ m.possibleTypes, schema.satisfies t fragment.typeCondition = true := by
  obtain ⟨field, survey, hfield, hu⟩ := h.exists_unfolds
  rw [hu.fragmentsFor s hs, hset] at hname
  obtain ⟨e, he, hsub, hspread⟩ := Survey.mem_fragmentsFor.mp hname
  obtain ⟨_, _, gates, directives, fragment, -, hfragment, hsums⟩ :=
    Survey.exists_leads_spread hu.survey_eq he hspread
  refine ⟨fragment, hfragment, fun t ht ↦ ?_⟩
  have htypes := hu.shaped.fieldTypes_eq
  rw [← (info_of_expandField hfield).1] at htypes
  obtain ⟨hmem, hsat⟩ := h.satisfies htypes hm ht
  have hgates :=
    (hsums (P := fun c ↦ schema.satisfies t c = true) fun c hcovers ↦ hcovers t hmem).mp
    fun c hc ↦ hsat c (hsub c hc)
  exact hgates _ (List.mem_append_right _ (List.mem_singleton_self _)) _ rfl

omit hf in
/-- A primary model implements the best matches in the interface of every fragment that is spread on
its shape. -/
theorem exists_spread {m : Model} (hm : g.IsPrimary m.typeSet m) {s : FieldSet}
    (hs : s ∈ f.fieldSets) (hset : s.typeSet = m.typeSet) {name : Name}
    (hname : name ∈ s.fragments) :
    ∃ r ∈ ir.fragments, r.name = name ∧
      ∀ n ∈ r.interface.mostSpecific m.possibleTypes, ir.Implements m n := by
  have hmem := hm.mem
  obtain ⟨interfaces, before, sups, b, hoffers, rfl, hplan, hkeeps, hfollows, -⟩ :=
    h.exists_follows hmem
  have hprimary : b.planned.isOther = false :=
    Bool.eq_false_iff.mpr fun hother ↦ hm.notOther ((h.isOther_iff hplan hkeeps).mpr hother)
  obtain ⟨_, _, -, hu⟩ := h.exists_unfolds
  rw [← hu.shaped.fieldSet_eq (Field.fieldSet_mem_of_mem_plan hplan) hs
    (hkeeps.typeSet.symm.trans hset.symm)] at hname
  obtain ⟨g', hok, hbest⟩ := hfollows.supers.spread hprimary name hname
  obtain ⟨r, hr, hrname, rfl⟩ := hoffers name g' hok
  refine ⟨r, hr, hrname, fun n hn ↦ ⟨h.mem.mem_models (ModelGroup.mem_allModels hmem), ?_, ?_⟩⟩
  · exact (Representation.HasGroup.interface hr).mem_models
      (ModelGroup.mem_allModels (ModelGroup.of_mem_mostSpecific hn).1)
  · rw [hfollows.implements]
    exact hbest n (hkeeps.possibleTypes ▸ hn)

omit hf in
/-- **The base model of a group** is the primary model of the raw type and has accessors to all
fragments that are spread. -/
theorem exists_base :
    ∃ base, g.IsPrimary {f.info.rawType} base ∧ base.id = g.baseId ∧
      (site.interfacesOnly = true → base.isInterface = true) ∧
      ∀ name ∈ f.fragments, ∃ r ∈ ir.fragments, r.name = name ∧
        .fragment name r.interface.baseId ∈ base.accessors := by
  obtain ⟨interfaces, hoffers, hgroup⟩ := h.built
  obtain ⟨built, hraises, hmodels, hplanned, b, hb, hbase, hbaseId⟩ :=
    Field.raises_of_modelGroup hgroup
  obtain ⟨_, _, -, hfollows⟩ := hraises.exists_follows hb
  have hplan : b.planned ∈ f.plan site := hplanned ▸ List.mem_map_of_mem hb
  have hkeeps := hraises.keeps hb
  obtain ⟨hsize, hprimary⟩ : b.planned.typeSet.size = 1 ∧ b.planned.isOther = false := by
    simpa [PlannedModel.isBase] using hbase
  have hmem : b.model ∈ g.models := hmodels ▸ List.mem_map_of_mem hb
  have hset : b.planned.typeSet = {f.info.rawType} :=
    (NameSet.size_eq_one_iff (hkeeps.typeSet ▸ h.rawType_mem hmem)).mp hsize
  refine ⟨b.model, hset ▸ h.isPrimary hmem hplan hkeeps hprimary, hkeeps.id.trans hbaseId.symm,
    fun hsite ↦ ?_, fun name hname ↦ ?_⟩
  · rw [hkeeps.isInterface]
    cases Field.kind_of_mem_plan hplan with
    | primary _ hinterface _ => simp [hinterface, hsite]
    | other hother _ _ _ _ => exact absurd (hother.symm.trans hprimary) (by decide)
  · obtain ⟨g', hok, haccessor⟩ := (accessors_eq_ok hfollows.accessors).2 hbase name hname
    obtain ⟨r, hr, hrname, rfl⟩ := hoffers name g' hok
    exact ⟨r, hr, hrname, haccessor⟩

/-- The primary model of the raw type has all object types of the field. -/
theorem possibleTypes_of_isPrimary {base : Model} (hbase : g.IsPrimary {f.info.rawType} base) :
    base.possibleTypes = fieldTypes := by
  obtain ⟨typeConditions, hshaped⟩ := h.exists_shaped hf
  obtain ⟨b, rfl, hplan, hkeeps, hprimary, hset⟩ := h.exists_planned hbase
  rw [hkeeps.possibleTypes, (Field.kind_of_mem_plan hplan).possibleTypes_eq hprimary, hset]
  ext t
  rw [hshaped.mem_covered]
  refine and_iff_left (NameSet.singleton_subset.mpr ?_)
  exact Schema.mem_typeSetOf.mpr (.inl rfl)

end Placed

/-! ## The whole representation -/

section build

variable {schema : Schema} {d : Document} {config : Config} {ir : Representation}
  (h : build schema config d = .ok ir)
include h

/-- The group of a field came about for that field. -/
theorem GroupFor.exists_placed {concrete : Bool} {f : Field} {g : ModelGroup}
    (hg : GroupFor ir concrete f g) :
    ∃ site inherited, site.interfacesOnly = !concrete ∧
      Placed schema d config.typename ir f site inherited g := by
  induction hg with
  | operation mem => exact ⟨_, _, rfl, Placed.operation h mem⟩
  | fragment mem implementation => exact ⟨_, _, rfl, Placed.implementation h mem implementation⟩
  | property _ model property group shape typeSet field responseName ih =>
    obtain ⟨site, inherited, -, hplaced⟩ := ih
    obtain ⟨s, hs, hset, k, hk, hinfo, site', sups, hsite, -, -, hinner⟩ :=
      hplaced.nested model property group
    obtain ⟨_, survey, -, hu⟩ := hplaced.exists_unfolds
    cases hu.shaped.fieldSet_eq hs shape (hset.trans typeSet.symm)
    have hfield := List.inj_on_of_nodup_map (hu.nodup_fields hs) hk field
      ((congrArg FieldInfo.responseName hinfo).symm.trans responseName.symm)
    rw [hfield] at hinner
    exact ⟨site', _, by rw [hsite.interfacesOnly, Bool.not_not], hinner⟩

variable (hd : d.UniqueNames)
include hd

/-- On the way along implemented models no object type is lost. -/
theorem Representation.Reaches.possibleTypes_subset {m n : Model} (hmn : ir.Reaches m n) :
    m.possibleTypes ⊆ n.possibleTypes := by
  induction hmn with
  | refl => exact fun _ ht ↦ ht
  | tail _ hstep ih => exact fun t ht ↦ (hstep.covers h hd).2 t (ih t ht)

/-- **From a model one gets to the base model of every fragment that is spread on its shape.** -/
theorem Placed.reaches_fragment {f : Field} {site : Site} {inherited : List ModelGroup}
    {g : ModelGroup} (hplaced : Placed schema d config.typename ir f site inherited g) {m : Model}
    (hm : m ∈ g.models) {s : FieldSet} (hs : s ∈ f.fieldSets) (hset : s.typeSet = m.typeSet)
    {name : Name} (hname : name ∈ s.fragments) :
    ∃ r ∈ ir.fragments, r.name = name ∧
      ∃ target, r.interface.IsPrimary {r.field.info.rawType} target ∧
      target.id = r.interface.baseId ∧ ir.Reaches m target := by
  have hunique := nodup_ids h hd
  -- Fragments are implemented by the primary model of the shape.
  obtain ⟨n, hn⟩ := hplaced.exists_isPrimary hs
  have hmn : ir.Reaches m n := hplaced.reaches_primary hunique hn hm (hset ▸ fun _ hc ↦ hc)
  have hset' := hn.typeSet_eq
  obtain ⟨r, hr, rfl, hbest⟩ := hplaced.exists_spread (hset'.symm ▸ hn) hs hset'.symm hname
  obtain ⟨fragment, hf, hsat⟩ := hplaced.satisfies_fragment hn.mem hs hset'.symm hname
  -- There is a best match, since the base model of the interface matches.
  have hinterface := Placed.interface h hr
  obtain ⟨base, hbase, hid, hisInterface, -⟩ := hinterface.exists_base
  have hmatch : n.possibleTypes ⊆ base.possibleTypes := by
    obtain ⟨fragment', hf', hroot, -⟩ := exists_fragment_of_build h hr
    cases hf.symm.trans hf'
    obtain ⟨fieldTypes, htypes⟩ := hinterface.exists_fieldTypes
    rw [hinterface.possibleTypes_of_isPrimary htypes hbase]
    rw [rawType_of_expandRoot hroot] at htypes
    exact fun t ht ↦ (Schema.satisfies_iff htypes).mp (hsat t ht)
  obtain ⟨best, hmem⟩ := ModelGroup.exists_mem_mostSpecific hbase.mem (hisInterface rfl) hmatch
  have hbestMem := (ModelGroup.of_mem_mostSpecific hmem).1
  refine ⟨r, hr, rfl, base, hbase, hid, hmn.trans (.head (hbest best hmem) ?_)⟩
  exact hinterface.reaches_primary hunique hbase hbestMem
    (NameSet.singleton_subset.mpr (hinterface.rawType_mem hbestMem))

/-- **Downcasts land.** In every group where concrete models are wanted, every object type of the
field has a concrete model. From it one gets to the primary models of just those shapes that have
the object type, and to the base models of all fragments that are spread on its shape. -/
theorem downcasts_land {f : Field} {g : ModelGroup} (hg : GroupFor ir true f g)
    {fieldTypes : NameSet} (hf : schema.possibleTypes f.info.rawType = .ok fieldTypes) {t : Name}
    (ht : t ∈ fieldTypes) :
    (∃ m ∈ g.models, m.isInterface = false ∧ t ∈ m.possibleTypes) ∧
      ∀ m ∈ g.models, m.isInterface = false → t ∈ m.possibleTypes → Lands ir f g t m := by
  have hunique := nodup_ids h hd
  obtain ⟨site, inherited, hsite, hplaced⟩ := hg.exists_placed h
  refine ⟨?_, fun m hm hconcrete htm ↦ ⟨fun s hs ↦ ?_, fun s hs hset name hname ↦ ?_⟩⟩
  · obtain ⟨typeConditions, hshaped⟩ := hplaced.exists_shaped hf
    obtain ⟨p, hp, hconcrete, hmem⟩ := hshaped.exists_mem_plan hsite ht
    obtain ⟨b, rfl, hb, hkeeps⟩ := hplaced.exists_model hp
    exact ⟨b.model, hb, hkeeps.isInterface.trans hconcrete, hkeeps.possibleTypes ▸ hmem⟩
  · refine ⟨hplaced.exists_isPrimary hs, fun n hn ↦ ⟨fun htn ↦ ?_, fun hmn ↦ ?_⟩⟩
    · refine hplaced.reaches_primary hunique hn hm ?_
      exact (hplaced.mem_possibleTypes_iff hf hsite hm hconcrete htm hn).mp htn
    · exact hmn.possibleTypes_subset h hd t htm
  · obtain ⟨r, hr, rfl, target, htarget, hid, hreaches⟩ :=
      hplaced.reaches_fragment h hd hm hs hset hname
    refine ⟨r, hr, rfl, ?_, target, htarget.mem, hid, hreaches⟩
    obtain ⟨base, hbase, hbaseId, -, haccessors⟩ := hplaced.exists_base
    have hspread : r.name ∈ f.fragments := by
      obtain ⟨_, survey, -, hu⟩ := hplaced.exists_unfolds
      rw [hu.fragmentsFor s hs] at hname
      obtain ⟨e, he, -, hspread⟩ := Survey.mem_fragmentsFor.mp hname
      rw [hu.fragments]
      exact Survey.mem_fragments.mpr ⟨e, he, hspread⟩
    obtain ⟨r', hr', hname', haccessor⟩ := haccessors r.name hspread
    cases List.inj_on_of_nodup_map (nodup_names_of_build h hd).2 hr' hr hname'
    exact ⟨base, hbase.mem, hbaseId, haccessor⟩

end build

open Sample in
/-- In the sample, dogs have a model of their own. From it one gets to the interface of pets and to
that of the fragment for company. -/
theorem downcasts_land_dog :
    ∃ ir, build schema {} document = .ok ir ∧ document.UniqueNames ∧ ∃ f g, GroupFor ir true f g ∧
      schema.possibleTypes f.info.rawType = .ok (.ofList ["Cat", "Dog", "Fox"]) ∧
      ∃ dog ∈ g.models, dog.isInterface = false ∧ "Dog" ∈ dog.possibleTypes ∧
        (∃ pet, g.IsPrimary (.ofList ["Animal", "Pet"]) pet ∧ ir.Reaches dog pet) ∧
        ∃ r ∈ ir.fragments, r.name = "Company" ∧ ∃ target ∈ r.interface.models,
          target.id = r.interface.baseId ∧ ir.Reaches dog target := by
  obtain ⟨ir, hir, hcheck⟩ := Error.exists_of_any (x := build schema {} document)
    (p := fun ir ↦ ir.operations.any fun o ↦ o.group.models.any fun m ↦ m.isInterface = false &&
      m.properties.any fun p ↦
        p.group.any fun g ↦ o.field.fieldSets.any fun s ↦ s.typeSet = m.typeSet &&
        s.fields.any fun k ↦ k.responseName = p.info.responseName && k.info.rawType = "Animal" &&
        k.fieldSets.any fun pets ↦ pets.typeSet = .ofList ["Animal", "Pet"] &&
        k.fieldSets.any fun dogs ↦ "Company" ∈ dogs.fragments &&
        g.models.any fun pet ↦
          pet.typeSet = pets.typeSet && pet.isInterface && "Dog" ∈ pet.possibleTypes &&
        g.models.any fun dog ↦ dogs.typeSet = dog.typeSet && dog.isInterface = false &&
          "Dog" ∈ dog.possibleTypes) (by decide +kernel)
  simp only [List.any_eq_true, Option.any_eq_true, Bool.and_eq_true, decide_eq_true_eq] at hcheck
  obtain ⟨o, ho, m, hm, hconcrete, p, hp, g, hinner, s, hs, hset, f, hf, ⟨hname, hraw⟩, pets, hpets,
    hpetSet, dogs, hdogs, hcompany, pet, hpet, ⟨⟨hpetSet', hpetInterface⟩, hpetDog⟩, dog, hdog,
    ⟨hdogSet, hdogConcrete⟩, hdogDog⟩ := hcheck
  have hg : GroupFor ir (!m.isInterface) f g :=
    .property (.operation ho) hm hp hinner hs hset hf hname
  rw [hconcrete] at hg
  have hd : document.UniqueNames := ⟨by decide, by decide⟩
  have htypes : schema.possibleTypes f.info.rawType = .ok (.ofList ["Cat", "Dog", "Fox"]) := by
    rw [hraw]
    decide +kernel
  have hlands := (downcasts_land hir hd hg htypes (t := "Dog") (by decide +kernel)).2 dog hdog
    hdogConcrete hdogDog
  have hprimary : g.IsPrimary pets.typeSet pet :=
    ⟨hpet, hpetSet', fun hother ↦ absurd (hpetInterface.symm.trans hother.1) (by decide)⟩
  obtain ⟨r, hr, hrname, -, htarget⟩ := hlands.fragments dogs hdogs hdogSet "Company" hcompany
  exact ⟨ir, hir, hd, f, g, hg, htypes, dog, hdog, hdogConcrete, hdogDog,
    ⟨pet, hpetSet ▸ hprimary, ((hlands.shapes pets hpets).2 pet hprimary).mp hpetDog⟩, r, hr,
    hrname, htarget⟩

end ResponseModels
