import ResponseModels.Proofs.Model.Downcast
import ResponseModels.Proofs.Model.Spot

/-!
# Concrete models provide what they implement

A concrete model is to have all the properties of the interfaces it implements. This is not quite
so, for two reasons (`not_providesAll_sample`). A `__typename` is added where a value can be of
several types, and in the interface of a fragment it can be of more types than where the fragment is
spread. And what can never be included is left out, and there can be more reasons for that where the
fragment is spread.

The interface may be in another tree than the model, with a field that was collected on its own.
What the two have in common are the selections. `Sees` says from where a model is seen under which
other groups: it starts from the group itself, goes into the fragments spread there, and follows
properties down on both sides. All that a model implements is seen (`HasSpot.exists_sees`), and what
is selected where it is seen is written for the model too (`Sees.exists_written`). This is so
however the directives stand, and they alone can keep the model from having it: what is written
where the gates can be open is selected (`Writes.selected`), and so the model has the property, or
can have none of this name (`concrete_models_provide`).
-/

set_option autoImplicit false

namespace ResponseModels

/-! ## Statements -/

/-- Objects of all the types pass the type conditions of gates. -/
def Schema.Passes (schema : Schema) (types : NameSet) (gates : List Gate) : Prop :=
  ∀ g ∈ gates, ∀ c, g.typeCondition = some c → schema.Covers types c

theorem Schema.passes_nil (schema : Schema) (types : NameSet) : schema.Passes types [] :=
  fun _ hg ↦ absurd hg List.not_mem_nil

theorem Schema.Passes.append {schema : Schema} {types : NameSet} {before after : List Gate}
    (h : schema.Passes types before) (h' : schema.Passes types after) :
    schema.Passes types (before ++ after) :=
  List.forall_mem_append.mpr ⟨h, h'⟩

/-- Some values of the variables open all gates. -/
def Gate.CanOpen (gates : List Gate) : Prop :=
  ∃ v, ∀ g ∈ gates, included v g.directives = true

/-- A selection is written at a spot, on a type. At the root of a tree these are the selections of
the definition. Further down one gets there in the text: from what is written above, through type
conditions that all object types of the model there satisfy, to a field of the name that leads down,
and beneath it. It does not matter which directives stand on the way; `levels` has the gates before
each of the fields. -/
inductive Representation.Writes (schema : Schema) (d : Document) (ir : Representation) :
    Spot → Name → List (List Gate) → Selection → Prop
  | root {root : ModelRoot} {spot : Spot} {x : Selection} (atRoot : ir.HasRoot d root spot)
      (mem : spot.selected x) : Writes schema d ir spot spot.field.info.rawType [] x
  | down {spot inner : Spot} {m : Model} {parent : Name} {levels : List (List Gate)}
      {x y : Selection} {gates : List Gate} {head : FieldHead} {beneath : List Selection}
      {definition : FieldDefinition} (outer : Writes schema d ir spot parent levels y)
      (model : m ∈ spot.group.models) (down : spot.Down schema d m head.responseName inner)
      (way : Way d y gates (.field head beneath)) (passes : schema.Passes m.possibleTypes gates)
      (found : schema.field (Gate.innermost parent gates) head.name = .ok definition)
      (mem : x ∈ beneath) : Writes schema d ir inner definition.type.base (levels ++ [gates]) x

namespace Representation

/-- A field is written for a model, on the type `parent`: one gets to it from what is written at the
spot of the model, through type conditions that all object types of the model satisfy. -/
def WritesField (schema : Schema) (d : Document) (ir : Representation) (spot : Spot) (m : Model)
    (levels : List (List Gate)) (gates : List Gate) (parent : Name) (head : FieldHead)
    (beneath : List Selection) : Prop :=
  ∃ outer y, ir.Writes schema d spot outer levels y ∧ Way d y gates (.field head beneath) ∧
    Gate.innermost outer gates = parent ∧ schema.Passes m.possibleTypes gates

/-- A field is live for a model: it is written for it, and at each level the gates can be open. -/
def Live (schema : Schema) (d : Document) (ir : Representation) (spot : Spot) (m : Model)
    (parent : Name) (head : FieldHead) (beneath : List Selection) : Prop :=
  ∃ levels gates, ir.WritesField schema d spot m levels gates parent head beneath ∧
    (∀ gates' ∈ levels, Gate.CanOpen gates') ∧ Gate.CanOpen gates

/-- A model can have no property of a response name: wherever a field of this name is written for
it, and the gates above can be open, no values of the variables open the gates before the field and
include the field. -/
def LeavesOut (schema : Schema) (d : Document) (ir : Representation) (spot : Spot) (m : Model)
    (name : Name) : Prop :=
  ∀ levels gates parent head beneath,
    ir.WritesField schema d spot m levels gates parent head beneath →
    (∀ gates' ∈ levels, Gate.CanOpen gates') → head.responseName = name →
    ∀ v, ¬((∀ g ∈ gates, included v g.directives = true) ∧ included v head.directives = true)

end Representation

/-- A model has a property that is the same field under the same name. -/
def Model.Provides (m : Model) (p : Property) : Prop :=
  ∃ q ∈ m.properties, q.info.responseName = p.info.responseName ∧ q.info.SameField p.info

/-- In the result of a build, concrete models provide all properties of what they implement. -/
def ProvidesAll (schema : Schema) (config : Config) (d : Document) : Prop :=
  ∀ ir, build schema config d = .ok ir → ∀ m ∈ ir.models, m.isInterface = false →
    ∀ n, ir.Reaches m n → ∀ p ∈ n.properties, m.Provides p

/-- One model that implements another without a property of it is enough. -/
theorem not_providesAll_of_any {schema : Schema} {config : Config} {d : Document}
    (h : (build schema config d).toOption.any
      (fun ir ↦ ir.models.any fun m ↦ m.isInterface = false && ir.models.any fun n ↦
        n.id ∈ m.implements && n.properties.any fun p ↦
        m.properties.all fun q ↦ q.info.responseName ≠ p.info.responseName) = true) :
    ¬ProvidesAll schema config d := by
  obtain ⟨ir, hir, hcheck⟩ := Error.exists_of_any h
  simp only [List.any_eq_true, List.all_eq_true, Bool.and_eq_true, decide_eq_true_eq] at hcheck
  obtain ⟨m, hm, hconcrete, n, hn, himplements, p, hp, hnone⟩ := hcheck
  intro hall
  obtain ⟨q, hq, hname, -⟩ := hall ir hir m hm hconcrete n (.single ⟨hm, hn, himplements⟩) p hp
  exact hnone q hq hname

open Sample in
/-- In the kennel, the interface for a name has a `__typename`, which a dog does not need. And where
a name is asked for and left out in one, the animal has none, or its friend. -/
theorem not_providesAll_sample :
    ¬ProvidesAll kennel {} called ∧ ¬ProvidesAll schema { typename := .never } withheld ∧
      ¬ProvidesAll schema { typename := .never } estranged :=
  ⟨not_providesAll_of_any (by decide +kernel), not_providesAll_of_any (by decide +kernel),
    not_providesAll_of_any (by decide +kernel)⟩

/-! ## Views -/

/-- The models of a spot are seen at another. -/
inductive Sees (schema : Schema) (d : Document) (ir : Representation) : Spot → Model → Spot → Prop
  | root {root : ModelRoot} {spot : Spot} {m : Model} (atRoot : ir.HasRoot d root spot)
      (mem : m ∈ spot.group.models) : Sees schema d ir spot m spot
  /-- The implementation of a fragment is seen at its interface, -/
  | interface {r : FragmentModels} {fragment : Fragment} {g : ModelGroup} {m : Model}
      (mem : r ∈ ir.fragments) (defined : d.fragment? r.name = some fragment)
      (implementation : r.implementation = some g) (model : m ∈ g.models) :
      Sees schema d ir ⟨r.field, (· ∈ fragment.selections), g⟩ m
        ⟨r.field, (· ∈ fragment.selections), r.interface⟩
  /-- and what is seen at a spot is seen at the interfaces of the fragments spread there. -/
  | fragment {spot view : Spot} {m n : Model} {s : FieldSet} {r : FragmentModels}
      {fragment : Fragment} (outer : Sees schema d ir spot m view) (model : n ∈ view.group.models)
      (covers : m.possibleTypes ⊆ n.possibleTypes) (shape : s ∈ view.field.fieldSets)
      (typeSet : s.typeSet = n.typeSet) (spread : r.name ∈ s.fragments) (mem : r ∈ ir.fragments)
      (defined : d.fragment? r.name = some fragment) :
      Sees schema d ir spot m ⟨r.field, (· ∈ fragment.selections), r.interface⟩
  | down {spot spot' view view' : Spot} {m m' n : Model} {name : Name}
      (outer : Sees schema d ir spot m view) (model : n ∈ view.group.models)
      (covers : m.possibleTypes ⊆ n.possibleTypes) (down : spot.Down schema d m name spot')
      (down' : view.Down schema d n name view') (mem : m' ∈ spot'.group.models) :
      Sees schema d ir spot' m' view'

namespace Sees

variable {schema : Schema} {d : Document} {ir : Representation} {spot view : Spot} {m : Model}

theorem hasSpot (h : Sees schema d ir spot m view) :
    ir.HasSpot schema d spot ∧ m ∈ spot.group.models ∧ ir.HasSpot schema d view := by
  induction h with
  | root atRoot mem => exact ⟨.root atRoot, mem, .root atRoot⟩
  | interface mem defined implementation model =>
    exact ⟨.root (.implementation mem defined implementation), model,
      .root (.interface mem defined)⟩
  | fragment _ _ _ _ _ _ mem defined ih => exact ⟨ih.1, ih.2.1, .root (.interface mem defined)⟩
  | down _ model _ down down' mem ih => exact ⟨ih.1.down ih.2.1 down, mem, ih.2.2.down model down'⟩

/-- Every model is seen where it is. -/
theorem of_hasSpot (h : ir.HasSpot schema d spot) (hm : m ∈ spot.group.models) :
    Sees schema d ir spot m spot := by
  induction h generalizing m with
  | root atRoot => exact .root atRoot hm
  | down _ model down ih => exact .down (ih model) model (fun _ ht ↦ ht) down down hm

end Sees

/-! ## What is implemented is seen -/

section implements

variable {schema : Schema} {d : Document} {config : Config} {ir : Representation}
  (h : build schema config d = .ok ir) (hd : d.UniqueNames) {spot view : Spot} {m : Model}
include h hd

/-- What a model at a view implements is seen, if the groups are that the view inherits from. -/
theorem Sees.exists_of_inherited (hsees : Sees schema d ir spot m view) {site : Site}
    {inherited : List ModelGroup}
    (hplaced : Placed schema d config.typename ir view.field site inherited view.group)
    (hinherited : ∀ g ∈ inherited, ∃ view', Sees schema d ir spot m view' ∧ view'.group = g)
    {n n' : Model} (hn : n ∈ view.group.models) (hsub : m.possibleTypes ⊆ n.possibleTypes)
    (hnn' : ir.Implements n n') :
    ∃ view', Sees schema d ir spot m view' ∧ n' ∈ view'.group.models := by
  obtain ⟨interfaces, before, sups, b, hoffers, rfl, hplan, hkeeps, hfollows, hbefore⟩ :=
    hplaced.exists_follows hn
  have hsups : n' ∈ sups := by
    refine mem_of_implements h hd hnn' hfollows.implements fun k hk ↦ ?_
    obtain ⟨g, hg, hk⟩ :=
      (hfollows.supers.only k hk).exists_group hoffers hplaced.inherits hplaced.mem
      fun c hc ↦ (hbefore c hc).1
    exact hg.mem_models (ModelGroup.mem_allModels hk)
  cases hfollows.supers.only n' hsups with
  | own mem _ _ _ => exact ⟨view, hsees, (hbefore _ mem).1⟩
  | wider mem _ _ => exact ⟨view, hsees, (hbefore _ mem).1⟩
  | matching group mem =>
    have hmem := (ModelGroup.of_mem_mostSpecific mem).1
    rcases group with hgroup | ⟨name, hname, hok⟩
    · obtain ⟨view', hsees', rfl⟩ := hinherited _ hgroup
      exact ⟨view', hsees', hmem⟩
    · obtain ⟨r, hr, rfl, rfl⟩ := hoffers _ _ hok
      obtain ⟨fragment, hf, -⟩ := exists_fragment_of_build h hr
      exact ⟨_, .fragment hsees hn hsub (Field.fieldSet_mem_of_mem_plan hplan) hkeeps.typeSet.symm
        hname hr hf, hmem⟩

/-- The groups that a view inherits from are seen. -/
theorem Sees.exists_placed (hsees : Sees schema d ir spot m view) :
    ∃ site inherited, Placed schema d config.typename ir view.field site inherited view.group ∧
      ∀ g ∈ inherited, ∃ view', Sees schema d ir spot m view' ∧ view'.group = g := by
  induction hsees with
  | root atRoot hm =>
    cases atRoot with
    | operation mem _ _ =>
      exact ⟨_, _, Placed.operation h mem, fun g hg ↦ absurd hg List.not_mem_nil⟩
    | interface mem _ => exact ⟨_, _, Placed.interface h mem, fun g hg ↦ absurd hg List.not_mem_nil⟩
    | implementation mem defined himplementation =>
      refine ⟨_, _, Placed.implementation h mem himplementation, fun g hg ↦ ?_⟩
      cases List.mem_singleton.mp hg
      exact ⟨_, .interface mem defined himplementation hm, rfl⟩
  | interface mem _ _ _ =>
    exact ⟨_, _, Placed.interface h mem, fun g hg ↦ absurd hg List.not_mem_nil⟩
  | fragment _ _ _ _ _ _ mem _ _ =>
    exact ⟨_, _, Placed.interface h mem, fun g hg ↦ absurd hg List.not_mem_nil⟩
  | @down spot spot' view view' m m' n name outer model covers down down' mem ih =>
    obtain ⟨site, inherited, hplaced, hinherited⟩ := ih
    obtain ⟨site', sups, -, himplements, hsups, hplaced'⟩ := hplaced.down model down'
    refine ⟨site', _, hplaced', fun g hg ↦ ?_⟩
    -- The group is that of a property of a model above, which is seen from above.
    obtain ⟨k, hk, q, hq, hname, hgroup⟩ := exists_of_mem_inheritedGroups hg
    obtain ⟨g', hg', hmem⟩ := hsups k hk
    have hnk : ir.Implements n k := by
      refine ⟨hplaced.mem.mem_models (ModelGroup.mem_allModels model),
        hg'.mem_models (ModelGroup.mem_allModels hmem), ?_⟩
      rw [himplements]
      exact List.mem_map_of_mem hk
    obtain ⟨above, habove, hkabove⟩ :=
      outer.exists_of_inherited h hd hplaced hinherited model covers hnk
    obtain ⟨⟨_, _, hplacedAbove⟩, -⟩ := habove.hasSpot.2.2.sound h hd
    obtain ⟨inner, hdown, rfl⟩ := hplacedAbove.exists_down hkabove hq hgroup
    refine ⟨inner, .down habove hkabove (fun t ht ↦ ?_) down (hname ▸ hdown) mem, rfl⟩
    exact (hnk.covers h hd).2 t (covers t ht)

/-- **All that a model implements is seen.** -/
theorem Representation.HasSpot.exists_sees (hspot : ir.HasSpot schema d spot)
    (hm : m ∈ spot.group.models) {n : Model} (hmn : ir.Reaches m n) :
    ∃ view, Sees schema d ir spot m view ∧ n ∈ view.group.models := by
  induction hmn with
  | refl => exact ⟨spot, .of_hasSpot hspot hm, hm⟩
  | tail hreaches hstep ih =>
    obtain ⟨view, hsees, hn⟩ := ih
    obtain ⟨site, inherited, hplaced, hinherited⟩ := hsees.exists_placed h hd
    exact hsees.exists_of_inherited h hd hplaced hinherited hn
      (Representation.Reaches.possibleTypes_subset h hd hreaches) hstep

end implements

/-! ## What is selected where a model is seen -/

/-- Models without an interface are wanted where there is one. -/
theorem Placed.interfacesOnly_eq_false {schema : Schema} {d : Document} {policy : TypenamePolicy}
    {ir : Representation} {f : Field} {site : Site} {inherited : List ModelGroup} {g : ModelGroup}
    (h : Placed schema d policy ir f site inherited g) {m : Model} (hm : m ∈ g.models)
    (hconcrete : m.isInterface = false) : site.interfacesOnly = false := by
  obtain ⟨_, _, _, b, -, rfl, hplan, hkeeps, -, -⟩ := h.exists_follows hm
  rw [hkeeps.isInterface] at hconcrete
  cases Field.kind_of_mem_plan hplan with
  | primary _ hinterface _ =>
    rw [hconcrete] at hinterface
    exact (Bool.or_eq_false_iff.mp hinterface.symm).1
  | other _ _ _ hsite => exact hsite

/-- The object types of a model are types of the field, and satisfy the conditions of the model's
shape. -/
theorem Spot.Grown.satisfies {schema : Schema} {d : Document} {policy : TypenamePolicy}
    {ir : Representation} {spot : Spot} {field : Declaration} {survey : Survey}
    (h : spot.Grown schema d policy ir field survey) {m : Model} (hm : m ∈ spot.group.models)
    {t : Name} (ht : t ∈ m.possibleTypes) :
    t ∈ survey.fieldTypes ∧ ∀ c ∈ m.typeSet, schema.satisfies t c = true := by
  obtain ⟨_, _, hplaced⟩ := h.placed
  exact hplaced.satisfies h.shaped.fieldTypes_eq hm ht

/-- The shape of a concrete model has all conditions that its object types satisfy. -/
theorem Spot.Grown.subset_of_covers {schema : Schema} {d : Document} {policy : TypenamePolicy}
    {ir : Representation} {spot : Spot} {field : Declaration} {survey : Survey}
    (h : spot.Grown schema d policy ir field survey) {m : Model} (hm : m ∈ spot.group.models)
    (hconcrete : m.isInterface = false) {noted : NameSet} (hnoted : noted ∈ survey.found.typeSets)
    (hcovers : ∀ c ∈ noted, schema.Covers m.possibleTypes c) : noted ⊆ m.typeSet := by
  obtain ⟨site, inherited, hplaced⟩ := h.placed
  have hsite := hplaced.interfacesOnly_eq_false hm hconcrete
  have hraw := h.rawType_mem hm
  obtain ⟨_, _, _, b, -, rfl, hplan, hkeeps, -, -⟩ := hplaced.exists_follows hm
  rw [hkeeps.isInterface] at hconcrete
  rw [hkeeps.possibleTypes] at hcovers
  rw [hkeeps.typeSet] at hraw ⊢
  rw [h.info] at hraw
  have hshaped := h.unfolds.shaped
  by_cases hex : ∃ t, t ∈ b.planned.possibleTypes
  · obtain ⟨t, ht⟩ := hex
    obtain ⟨hmem, hlabel⟩ := (hshaped.mem_possibleTypes_plan hsite hplan hconcrete).mp ht
    rw [← hlabel, Schema.subset_typeSetOf_iff (Survey.of_mem_typeSets h.unfolds.survey_eq hnoted).2
      (hshaped.satisfies_rawType hmem)]
    exact fun c hc ↦ hcovers c hc t ht
  · -- Then the field has no object types, and all conditions cover it.
    refine Survey.subset_of_forall h.unfolds.survey_eq hraw hnoted fun c _ ↦ .inr fun t ht ↦ ?_
    exact absurd (hshaped.exists_mem_possibleTypes hplan ht) hex

section shares

variable {schema : Schema} {d : Document} {policy : TypenamePolicy} {ir : Representation}
  {spot : Spot} {field : Declaration} {survey : Survey} {m : Model}
  (h : spot.Grown schema d policy ir field survey)
include h

/-- Conditions that hold in the shape of a model hold for object types of the model. -/
theorem Spot.Grown.passes_of_subset (hm : m ∈ spot.group.models) {types : NameSet}
    (hsub : types ⊆ m.possibleTypes) {gates : List Gate} {noted : NameSet}
    (hsums : ∀ {P : Name → Prop}, (∀ c, schema.Covers survey.fieldTypes c → P c) →
      ((∀ c ∈ noted, P c) ↔ ∀ g ∈ gates, ∀ c, g.typeCondition = some c → P c))
    (hnoted : noted ⊆ m.typeSet) : schema.Passes types gates := by
  refine (hsums fun c hcovers t ht ↦ ?_).mp fun c hc t ht ↦ ?_
  · exact hcovers t (h.satisfies hm (hsub t ht)).1
  · exact (h.satisfies hm (hsub t ht)).2 c (hnoted c hc)

/-- **What one can get to for a concrete model applies to its shape.** -/
theorem Spot.Grown.exists_applies (hm : m ∈ spot.group.models) (hconcrete : m.isInterface = false)
    {y : Selection} (hy : spot.selected y) {gates : List Gate} {head : FieldHead}
    {beneath : List Selection} (hway : Way d y gates (.field head beneath))
    (hpasses : schema.Passes m.possibleTypes gates) {v : Name → Bool}
    (hv : ∀ g ∈ gates, included v g.directives = true) :
    ∃ o, survey.Applies m.typeSet o ∧ o.head = head ∧ o.selections = beneath ∧
      o.Sums schema survey.fieldTypes spot.field.info.rawType gates := by
  obtain ⟨o, ho, hhead, hbeneath, hsums⟩ := h.exists_occurrence hy hway hv
  refine ⟨o, ⟨ho, ?_⟩, hhead, hbeneath, hsums⟩
  refine h.subset_of_covers hm hconcrete (Survey.mem_typeSets_of_mem_occurrences ho) ?_
  refine (hsums.typeSet fun c hc t ht ↦ ?_).mpr hpasses
  exact hc t (h.satisfies hm ht).1

/-- Occurrences that one gets down from have the type of the field that one gets to. -/
theorem Spot.Grown.exists_definition {inner : Spot} {o : Occurrence}
    (hdown : spot.Down schema d m o.head.responseName inner) (ho : survey.Applies m.typeSet o) :
    ∃ definition, schema.field o.scope.parentType o.head.name = .ok definition ∧
      definition.type.base = inner.field.info.rawType := by
  obtain ⟨s, hs, hset, hfield⟩ := hdown.field
  obtain ⟨info, hinfo, hsame⟩ := h.unfolds.sameField hs hfield (hset ▸ ho) hdown.responseName.symm
  obtain ⟨definition, hdefinition, hraw⟩ := Occurrence.exists_definition hinfo
  exact ⟨definition, hdefinition, (hsame.rawType.trans hraw).symm⟩

/-- A property of a model is a field of the model's shape. -/
theorem Spot.Grown.exists_field (hm : m ∈ spot.group.models) {p : Property}
    (hp : p ∈ m.properties) :
    ∃ s ∈ spot.field.fieldSets, s.typeSet = m.typeSet ∧ ∃ k ∈ s.fields, k.info = p.info := by
  obtain ⟨_, _, hplaced⟩ := h.placed
  obtain ⟨s, hs, hset, hinfos⟩ := hplaced.exists_shape hm
  exact ⟨s, hs, hset, List.mem_map.mp (hinfos ▸ List.mem_map_of_mem hp)⟩

/-- A property of a model is the same field as the occurrences of its name that apply. -/
theorem Spot.Grown.sameField (hm : m ∈ spot.group.models) {p : Property} (hp : p ∈ m.properties)
    {o : Occurrence} (ho : survey.Applies m.typeSet o)
    (hname : o.head.responseName = p.info.responseName) :
    ∃ info, o.info schema = .ok info ∧ p.info.SameField info := by
  obtain ⟨s, hs, hset, k, hk, hinfo⟩ := h.exists_field hm hp
  rw [← hinfo] at hname ⊢
  exact h.unfolds.sameField hs hk (hset ▸ ho) hname

/-- A model has a property for an occurrence that applies and can be included. -/
theorem Spot.Grown.exists_property (hm : m ∈ spot.group.models) {o : Occurrence}
    (ho : survey.Applies m.typeSet o) {v : Name → Bool} (hv : o.scope.condition.eval v = true) :
    ∃ p ∈ m.properties, p.info.responseName = o.head.responseName := by
  obtain ⟨_, _, hplaced⟩ := h.placed
  obtain ⟨s, hs, hset, hinfos⟩ := hplaced.exists_shape hm
  obtain ⟨k, hk, hname⟩ := h.unfolds.exists_mem_fields hs (hset ▸ ho) hv
  obtain ⟨p, hp, hinfo⟩ := List.mem_map.mp (hinfos.symm ▸ List.mem_map_of_mem (f := Field.info) hk)
  exact ⟨p, hp, (congrArg FieldInfo.responseName hinfo).trans hname⟩

end shares

section build

variable {schema : Schema} {d : Document} {config : Config} {ir : Representation}
  (h : build schema config d = .ok ir) (hd : d.UniqueNames) {spot view : Spot} {m : Model}
include h hd

/-- **What is selected where a model is seen is written for the model**, on the type that it is
selected on. -/
theorem Sees.exists_written (hsees : Sees schema d ir spot m view) {x : Selection}
    (hx : view.selected x) :
    ∃ outer levels y gates, ir.Writes schema d spot outer levels y ∧ Way d y gates x ∧
      schema.Passes m.possibleTypes gates ∧
      Gate.innermost outer gates = view.field.info.rawType := by
  induction hsees generalizing x with
  | root atRoot _ => exact ⟨_, _, x, [], .root atRoot hx, .here x, schema.passes_nil _, rfl⟩
  | interface mem defined implementation _ =>
    exact ⟨_, _, x, [], .root (.implementation mem defined implementation) hx, .here x,
      schema.passes_nil _, rfl⟩
  | @fragment spot view m n s r fragment outer model covers shape typeSet spread mem defined ih =>
    obtain ⟨field, survey, hgrown⟩ := outer.hasSpot.2.2.exists_grown h hd
    rw [hgrown.unfolds.fragmentsFor s shape, typeSet] at spread
    obtain ⟨e, he, hnoted, hname⟩ := Survey.mem_fragmentsFor.mp spread
    obtain ⟨c, hc, gates', directives, fragment', hleads, hf', hsums⟩ :=
      Survey.exists_leads_spread hgrown.unfolds.survey_eq he hname
    cases defined.symm.trans hf'
    obtain ⟨fragment', hf'', hroot, -⟩ := exists_fragment_of_build h mem
    cases defined.symm.trans hf''
    obtain ⟨T, levels, y, gates, hwrites, hway, hpasses, -⟩ :=
      ih ((hgrown.mem_iff _).mp (List.mem_map_of_mem hc))
    have hpasses' := hgrown.passes_of_subset model covers hsums hnoted
    refine ⟨T, levels, y, gates ++ (gates' ++ [⟨some fragment.typeCondition, directives⟩]), hwrites,
      hway.append (hleads.way.into defined hx), hpasses.append hpasses', ?_⟩
    rw [Gate.innermost_append, Gate.innermost_append, rawType_of_expandRoot hroot]
    rfl
  | @down spot spot' view view' m m' n name outer model covers down down' mem ih =>
    obtain ⟨hspot, hm, hview⟩ := outer.hasSpot
    obtain ⟨field, survey, hgrown⟩ := hview.exists_grown h hd
    -- The selection stands beneath an occurrence, which was found on a way from what is selected
    -- above.
    obtain ⟨o, ho, rfl, hxo⟩ := (hgrown.selected_iff model down').mp hx
    obtain ⟨z, gates', hz, hway', hsums, -⟩ := hgrown.exists_way ho.1
    obtain ⟨T, levels, y, gates, hwrites, hway, hpasses, hinner⟩ := ih hz
    have hpasses' := hgrown.passes_of_subset model covers hsums.typeSet ho.2
    have hparent : Gate.innermost T (gates ++ gates') = o.scope.parentType := by
      rw [Gate.innermost_append, hinner, hsums.parentType]
    -- It is on the type of the field, as are all selections beneath fields of this name.
    obtain ⟨definition, hdefinition, hraw⟩ := hgrown.exists_definition down' ho
    exact ⟨_, _, x, [], .down hwrites hm down (hway.append hway') (hpasses.append hpasses')
      (hparent ▸ hdefinition) hxo, .here x, schema.passes_nil _, hraw⟩

omit h hd in
theorem Representation.Writes.hasSpot {outer : Name} {levels : List (List Gate)} {x : Selection}
    (hwrites : ir.Writes schema d spot outer levels x) : ir.HasSpot schema d spot := by
  induction hwrites with
  | root atRoot _ => exact .root atRoot
  | down _ model down _ _ _ _ ih => exact ih.down model down

/-- **What is written where the gates can be open is selected.** This is so at the spots of concrete
models, since all models above them are concrete. -/
theorem Representation.Writes.selected {outer : Name} {levels : List (List Gate)} {x : Selection}
    (hwrites : ir.Writes schema d spot outer levels x)
    (hlevels : ∀ gates ∈ levels, Gate.CanOpen gates) (hm : m ∈ spot.group.models)
    (hconcrete : m.isInterface = false) :
    spot.selected x ∧ outer = spot.field.info.rawType := by
  induction hwrites generalizing m with
  | root _ mem => exact ⟨mem, rfl⟩
  | @down spot inner n parent levels x y gates head beneath definition outer model down way passes
      found mem ih =>
    obtain ⟨habove, hgates⟩ := List.forall_mem_append.mp hlevels
    obtain ⟨v, hv⟩ := hgates gates List.mem_cons_self
    obtain ⟨field, survey, hgrown⟩ := outer.hasSpot.exists_grown h hd
    have hn : n.isInterface = false := by
      obtain ⟨_, _, hplaced⟩ := hgrown.placed
      obtain ⟨site, _, hsite, -, -, hinner⟩ := hplaced.down model down
      rw [← hsite.interfacesOnly]
      exact hinner.interfacesOnly_eq_false hm hconcrete
    obtain ⟨hy, rfl⟩ := ih habove model hn
    obtain ⟨o, ho, rfl, rfl, hsums⟩ := hgrown.exists_applies model hn hy way passes hv
    obtain ⟨definition', hfound, hraw⟩ := hgrown.exists_definition down ho
    rw [hsums.parentType, found] at hfound
    cases hfound
    exact ⟨(hgrown.selected_iff model down).mpr ⟨o, ho, rfl, mem⟩, hraw⟩

/-- What is written for a concrete model where the gates can be open applies to its shape. -/
theorem Representation.WritesField.exists_applies {field : Declaration} {survey : Survey}
    (hgrown : spot.Grown schema d config.typename ir field survey) (hm : m ∈ spot.group.models)
    (hconcrete : m.isInterface = false) {levels : List (List Gate)} {gates : List Gate}
    {parent : Name} {head : FieldHead} {beneath : List Selection}
    (hwrites : ir.WritesField schema d spot m levels gates parent head beneath)
    (hlevels : ∀ gates ∈ levels, Gate.CanOpen gates) {v : Name → Bool}
    (hv : ∀ g ∈ gates, included v g.directives = true) :
    ∃ o, survey.Applies m.typeSet o ∧ o.head = head ∧ o.scope.parentType = parent ∧
      o.Sums schema survey.fieldTypes spot.field.info.rawType gates := by
  obtain ⟨outer, y, hwritten, hway, rfl, hpasses⟩ := hwrites
  obtain ⟨hselected, rfl⟩ := hwritten.selected h hd hlevels hm hconcrete
  obtain ⟨o, ho, hhead, -, hsums⟩ := hgrown.exists_applies hm hconcrete hselected hway hpasses hv
  exact ⟨o, ho, hhead, hsums.parentType, hsums⟩

/-- The properties of a model are selected in its shape, except for a `__typename` that is added. -/
theorem Representation.HasSpot.exists_selects (hview : ir.HasSpot schema d view) {n : Model}
    (hn : n ∈ view.group.models) {p : Property} (hp : p ∈ n.properties)
    (hne : p.info ≠ Field.typename.info) :
    ∃ parent head beneath, head.responseName = p.info.responseName ∧
      view.Selects schema d n parent head beneath := by
  obtain ⟨field, survey, hgrown⟩ := hview.exists_grown h hd
  obtain ⟨s, hs, hset, k, hk, hinfo⟩ := hgrown.exists_field hn hp
  obtain ⟨o, ho, hname⟩ := hgrown.unfolds.exists_applies_of_mem_fields hs hk
    fun heq ↦ hne (hinfo.symm.trans (congrArg Field.info heq))
  exact ⟨_, o.head, o.selections, hname.trans (congrArg FieldInfo.responseName hinfo),
    hgrown.selects_of_applies (hset ▸ ho)⟩

/-- A concrete model has a property of each name that it can have one of. -/
theorem Representation.HasSpot.exists_property (hspot : ir.HasSpot schema d spot)
    (hm : m ∈ spot.group.models) (hconcrete : m.isInterface = false) {name : Name}
    (hnot : ¬ ir.LeavesOut schema d spot m name) :
    ∃ q ∈ m.properties, q.info.responseName = name := by
  obtain ⟨field, survey, hgrown⟩ := hspot.exists_grown h hd
  simp only [LeavesOut, not_forall, not_not] at hnot
  obtain ⟨levels, gates, parent, head, beneath, hwrites, hlevels, rfl, v, hv, hincluded⟩ := hnot
  obtain ⟨o, ho, rfl, -, hsums⟩ := hwrites.exists_applies h hd hgrown hm hconcrete hlevels hv
  have heval : o.scope.condition.eval v = true := by
    rw [hsums.eval, Bool.and_eq_true, List.all_eq_true]
    exact ⟨hv, hincluded⟩
  exact hgrown.exists_property hm ho heval

/-- If a field is live for a concrete model and another model selects it, their properties of this
name are the same field. -/
theorem Representation.Live.sameField (hspot : ir.HasSpot schema d spot)
    (hm : m ∈ spot.group.models) (hconcrete : m.isInterface = false)
    (hview : ir.HasSpot schema d view) {n : Model} (hn : n ∈ view.group.models) {parent : Name}
    {head : FieldHead} {beneath : List Selection}
    (hlive : ir.Live schema d spot m parent head beneath)
    (hselects : view.Selects schema d n parent head beneath) {p q : Property}
    (hp : p ∈ n.properties) (hname : p.info.responseName = head.responseName)
    (hq : q ∈ m.properties) (hqname : q.info.responseName = head.responseName) :
    q.info.SameField p.info := by
  obtain ⟨field, survey, hgrown⟩ := hspot.exists_grown h hd
  obtain ⟨field', survey', hgrown'⟩ := hview.exists_grown h hd
  -- The selection is an occurrence at both spots, and the same field there.
  obtain ⟨levels, gates, hwrites, hlevels, v, hv⟩ := hlive
  obtain ⟨o, ho, rfl, rfl, -⟩ := hwrites.exists_applies h hd hgrown hm hconcrete hlevels hv
  obtain ⟨o', ho', hhead', -, hparent'⟩ := hgrown'.exists_applies_of_selects hn hselects
  obtain ⟨info, hok, hsame⟩ := hgrown.sameField hm hq ho hqname.symm
  obtain ⟨info', hok', hsame'⟩ := hgrown'.sameField hn hp ho' (by rw [hhead', hname])
  rw [Occurrence.info_congr hhead' hparent' schema, hok] at hok'
  cases hok'
  exact hsame.trans hsame'.symm

/-- **Concrete models provide what they implement.** In the result of a build, every model is at a
spot. Its properties are selected there, except for a `__typename` that is added.

Let a model be concrete, and let one get from it to another along what models implement. Let a field
be selected at the spot of the other, in its shape. Then this field is written for the concrete
model too. If it is live there, the concrete model has a property of the same name for the same
field as each property of the other that the field is selected for, or else it can have no property
of this name and has none. -/
theorem concrete_models_provide :
    (∀ m ∈ ir.models, ∃ spot, ir.HasSpot schema d spot ∧ m ∈ spot.group.models) ∧
    (∀ view, ir.HasSpot schema d view → ∀ n ∈ view.group.models, ∀ p ∈ n.properties,
      p.info ≠ Field.typename.info → ∃ parent head beneath,
        head.responseName = p.info.responseName ∧ view.Selects schema d n parent head beneath) ∧
    ∀ spot, ir.HasSpot schema d spot → ∀ m ∈ spot.group.models, m.isInterface = false →
      ∀ n, ir.Reaches m n → ∀ view, ir.HasSpot schema d view → n ∈ view.group.models →
      ∀ parent head beneath, view.Selects schema d n parent head beneath →
        (∃ levels gates, ir.WritesField schema d spot m levels gates parent head beneath) ∧
        (ir.Live schema d spot m parent head beneath →
          ∀ p ∈ n.properties, p.info.responseName = head.responseName →
            m.Provides p ∨ ir.LeavesOut schema d spot m head.responseName ∧
              ∀ q ∈ m.properties, q.info.responseName ≠ head.responseName) := by
  refine ⟨fun m hm ↦ ?_, fun view hview n hn p hp ↦ hview.exists_selects h hd hn hp,
    fun spot hspot m hm hconcrete n hmn view hview hn parent head beneath hselects ↦ ⟨?_, ?_⟩⟩
  · obtain ⟨g, hg, hm⟩ := (Representation.mem_models_iff h).mp hm
    obtain ⟨spot, hspot, rfl⟩ := hg.exists_spot h hd
    exact ⟨spot, hspot, hm⟩
  · have hsees : Sees schema d ir spot m view := by
      obtain ⟨view', hsees, hn'⟩ := hspot.exists_sees h hd hm hmn
      cases hview.unique h hd hsees.hasSpot.2.2 hn hn'
      exact hsees
    obtain ⟨field, survey, hgrown⟩ := hview.exists_grown h hd
    obtain ⟨o, ho, rfl, rfl, rfl⟩ := hgrown.exists_applies_of_selects hn hselects
    obtain ⟨x, gates', hx, hway', hsums, -⟩ := hgrown.exists_way ho.1
    obtain ⟨outer, levels, y, gates, hwrites, hway, hpasses, hinner⟩ :=
      hsees.exists_written h hd hx
    have hpasses' := hgrown.passes_of_subset hn
      (Representation.Reaches.possibleTypes_subset h hd hmn) hsums.typeSet ho.2
    refine ⟨levels, gates ++ gates', outer, y, hwrites, hway.append hway', ?_,
      hpasses.append hpasses'⟩
    rw [Gate.innermost_append, hinner, hsums.parentType]
  · intro hlive p hp hname
    by_cases hq : ∃ q ∈ m.properties, q.info.responseName = head.responseName
    · obtain ⟨q, hq, hqname⟩ := hq
      exact .inl ⟨q, hq, hqname.trans hname.symm,
        hlive.sameField h hd hspot hm hconcrete hview hn hselects hp hname hq hqname⟩
    · refine .inr ⟨?_, fun q hmem hqname ↦ hq ⟨q, hmem, hqname⟩⟩
      by_contra hnot
      exact hq (hspot.exists_property h hd hm hconcrete hnot)

end build

open Sample in
/-- In the sample, dogs have a model of their own. It implements the interface of the fragment for
company, and has the friend that is asked for there. -/
theorem concrete_models_provide_friend :
    ∃ ir, build schema {} document = .ok ir ∧ document.UniqueNames ∧
      ∃ spot, ir.HasSpot schema document spot ∧ ∃ dog ∈ spot.group.models, dog.isInterface = false ∧
        dog.possibleTypes = .ofList ["Dog"] ∧
        ∃ company, company.id.root = .fragmentInterface "Company" ∧ ir.Reaches dog company ∧
          ∃ view, ir.HasSpot schema document view ∧ company ∈ view.group.models ∧
          ∃ p ∈ company.properties, p.info.responseName = "friend" ∧ dog.Provides p := by
  obtain ⟨ir, hir, hcheck⟩ := Error.exists_of_any (x := build schema {} document)
    (p := fun ir ↦ ir.operations.any fun o ↦
      (o.name = "Visit" && o.field.info.rawType = "Query") && o.group.models.any fun m₀ ↦
      (o.field.fieldSets.any fun s ↦ s.typeSet = m₀.typeSet && s.fields.any fun f ↦
        f.responseName = "animal") && m₀.properties.any fun p₀ ↦ p₀.info.responseName = "animal" &&
      p₀.group.any fun g ↦ g.models.any fun dog ↦ dog.isInterface = false &&
        dog.possibleTypes = .ofList ["Dog"] && ir.fragments.any fun r ↦ r.name = "Company" &&
          r.field.info.rawType = "Animal" && r.interface.models.any fun company ↦
            company.id.root = .fragmentInterface "Company" && company.id ∈ dog.implements &&
            company.properties.any fun p ↦ p.info.responseName = "friend") (by decide +kernel)
  simp only [List.any_eq_true, Option.any_eq_true, Bool.and_eq_true, decide_eq_true_eq] at hcheck
  obtain ⟨o, ho, ⟨hvisit, hquery⟩, m₀, hm₀, ⟨s, hs, hset, f, hf, hanimal⟩, p₀, hp₀, hp₀name, g, hg,
    dog, hdog, ⟨hconcrete, htypes⟩, r, hr, ⟨hrname, hraw⟩, company, hcompany, ⟨hroot, himplements⟩,
    p, hp, hname⟩ := hcheck
  have hd : document.UniqueNames := ⟨by decide, by decide⟩
  -- The dog is one step down from the query, and the company at the root of its fragment.
  let animal : FieldHead := ⟨"animal", none, [], []⟩
  let visit : Operation := ⟨.query, some "Visit", [], [], [.field animal selections]⟩
  let top : Spot := ⟨o.field, (· ∈ visit.selections), o.group⟩
  let spot : Spot :=
    ⟨f, SelectedBeneath schema document top.field.info.rawType m₀.typeSet top.selected "animal", g⟩
  let fragment : Fragment := ⟨"Company", "Animal", [], [field "friend" [field "name" []]]⟩
  let view : Spot := ⟨r.field, (· ∈ fragment.selections), r.interface⟩
  have hwritten : visit ∈ document.operations := List.mem_cons_self
  have hdefined : document.fragment? "Company" = some fragment := rfl
  have htop : ir.HasRoot document (.operation o.name) top :=
    .operation ho hwritten (congrArg some hvisit.symm)
  have hdown : top.Down schema document m₀ animal.responseName spot :=
    ⟨⟨p₀, hp₀, hp₀name, hg⟩, ⟨s, hs, hset, hf⟩, hanimal, rfl⟩
  have hspot : ir.HasSpot schema document spot := .down (.root htop) hm₀ hdown
  have hview : ir.HasSpot schema document view :=
    .root (.interface hr (hrname ▸ hdefined))
  have hreaches : ir.Reaches dog company := .single
    ⟨hspot.mem_models hir hd hdog, hview.mem_models hir hd hcompany, himplements⟩
  have hnil : ∀ {P : Gate → Prop}, ∀ x ∈ ([] : List Gate), P x :=
    fun _ hx ↦ absurd hx List.not_mem_nil
  have hselects : view.Selects schema document company "Animal" ⟨"friend", none, [], []⟩
      [field "name" []] :=
    ⟨_, [], List.mem_cons_self, .here _, hraw, ⟨fun _ ↦ false, hnil⟩, hnil⟩
  -- The spread of the fragment leads to the friend, and is open unless `$alone` is set.
  obtain ⟨definition, hfound⟩ : ∃ definition, schema.field "Query" "animal" = .ok definition :=
    ⟨_, rfl⟩
  have hspread : ir.Writes schema document spot definition.type.base [[]]
      (.spread "Company" [skipIf "alone"]) :=
    .down (.root htop List.mem_cons_self) hm₀ hdown (.here _) (schema.passes_nil _)
      (hquery ▸ hfound) (by simp [selections])
  have hway : Way document (.spread "Company" [skipIf "alone"]) [⟨some "Animal", [skipIf "alone"]⟩]
      (field "friend" [field "name" []]) := .spread hdefined List.mem_cons_self (.here _)
  have hpasses : schema.Passes dog.possibleTypes [⟨some "Animal", [skipIf "alone"]⟩] := by
    rintro g hg c hc t ht
    cases List.mem_singleton.mp hg
    cases hc
    rw [htypes] at ht
    cases NameSet.mem_ofList.mp ht with
    | head => decide +kernel
    | tail _ hnone => exact absurd hnone List.not_mem_nil
  have hopen : ∀ g ∈ [(⟨some "Animal", [skipIf "alone"]⟩ : Gate)],
      included (fun _ ↦ false) g.directives = true := by decide
  obtain ⟨-, hprovides⟩ :=
    (concrete_models_provide hir hd).2.2 spot hspot dog hdog hconcrete company
      hreaches view hview hcompany _ _ _ hselects
  have hwrites : ir.WritesField schema document spot dog [[]] [⟨some "Animal", [skipIf "alone"]⟩]
      "Animal" ⟨"friend", none, [], []⟩ [field "name" []] := ⟨_, _, hspread, hway, rfl, hpasses⟩
  have hlevels : ∀ gates ∈ [([] : List Gate)], Gate.CanOpen gates := by
    intro gates hgates
    cases List.mem_singleton.mp hgates
    exact ⟨fun _ ↦ false, hnil⟩
  have hlive := hprovides ⟨_, _, hwrites, hlevels, _, hopen⟩ p hp hname
  refine ⟨ir, hir, hd, spot, hspot, dog, hdog, hconcrete, htypes, company, hroot, hreaches, view,
    hview, hcompany, p, hp, hname, hlive.resolve_right fun hout ↦ ?_⟩
  exact hout.1 _ _ _ _ _ hwrites hlevels rfl _ ⟨hopen, rfl⟩

end ResponseModels
