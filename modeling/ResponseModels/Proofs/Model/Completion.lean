import ResponseModels.Proofs.Collect.Agreement
import ResponseModels.Proofs.Failure
import ResponseModels.Proofs.Model.Group

/-!
# Building models does not fail

The models of a field are built in the order of its plan, and each needs others that are to be built
before it: those of the next wider shapes, or that of its own shape. Shapes are sorted from wide to
narrow, and of the two models of one shape the primary one comes first, so what a model needs stands
before it in the plan (`Field.mem_before_of_needs`). Only one model is the base model
(`Field.countP_isBase_plan`), since only one shape has no type condition.

So nothing can go wrong in the building of models itself. It fails only as the look-up of a
fragment's interface does (`Field.Expanded.failsOnly_modelGroup`), and of those only the interfaces
of fragments that are spread in the tree of the field are looked up.
-/

set_option autoImplicit false

namespace ResponseModels

/-! ## The tree of a field -/

theorem FieldSet.mem_spreadsOf {name : Name} {sets : List FieldSet} :
    name ∈ FieldSet.spreadsOf sets ↔ ∃ s ∈ sets, name ∈ s.spreads := by
  induction sets with
  | nil => simp [FieldSet.spreadsOf]
  | cons s rest ih => simp [FieldSet.spreadsOf, ih]

theorem Field.mem_spreadsOf {name : Name} {fields : List Field} :
    name ∈ Field.spreadsOf fields ↔ ∃ k ∈ fields, name ∈ k.spreads := by
  induction fields with
  | nil => simp [Field.spreadsOf]
  | cons k rest ih => simp [Field.spreadsOf, ih]

/-- The fragments spread in the tree of a field are spread on the field, on one of its shapes, or
further down. -/
theorem Field.mem_spreads {name : Name} {f : Field} :
    name ∈ f.spreads ↔ name ∈ f.fragments ∨
      ∃ s ∈ f.fieldSets, name ∈ s.fragments ∨ ∃ k ∈ s.fields, name ∈ k.spreads := by
  have hset : ∀ s : FieldSet, name ∈ s.spreads ↔
      name ∈ s.fragments ∨ ∃ k ∈ s.fields, name ∈ k.spreads := by
    rintro ⟨typeSet, possibleTypes, fields, fragments⟩
    simp [FieldSet.spreads, Field.mem_spreadsOf]
  obtain ⟨info, condition, fieldSets, fragments⟩ := f
  simp [Field.spreads, FieldSet.mem_spreadsOf, hset]

section

variable {schema : Schema} {d : Document} {policy : TypenamePolicy} {f : Field}

/-- A field comes from expanding a declaration, or it is a `__typename` that was added. -/
def Field.Expanded (schema : Schema) (d : Document) (policy : TypenamePolicy) (f : Field) : Prop :=
  f = Field.typename ∨ ∃ field, expandField schema d policy field = .ok f

namespace Field.Expanded

theorem of_expandRoot {rawType : Name} {selections : List Selection} {path : List Name}
    (h : expandRoot schema d policy rawType selections path = .ok f) :
    f.Expanded schema d policy := by
  obtain ⟨field, hf, -⟩ := exists_of_expandRoot h
  exact .inr ⟨field, hf⟩

variable (h : f.Expanded schema d policy) {s : FieldSet} (hs : s ∈ f.fieldSets)
include h hs

theorem exists_unfolds : ∃ (field : Declaration) (survey : Survey), f.info = field.info ∧
    field.Unfolds schema d policy f survey := by
  rcases h with rfl | ⟨field, hf⟩
  · exact absurd hs List.not_mem_nil
  obtain ⟨survey, hu⟩ := unfolds_of_expandField hf (isComposite_of_mem_fieldSets hf hs)
  exact ⟨field, survey, (info_of_expandField hf).1, hu⟩

theorem shaped : ∃ typeConditions fieldTypes,
    Shaped schema f.info.rawType typeConditions fieldTypes f.shapes := by
  obtain ⟨field, survey, hinfo, hu⟩ := h.exists_unfolds hs
  exact ⟨survey.typeConditions, survey.fieldTypes, hinfo ▸ hu.shaped⟩

theorem of_mem {k : Field} (hk : k ∈ s.fields) : k.Expanded schema d policy := by
  obtain ⟨field, survey, -, hu⟩ := h.exists_unfolds hs
  refine (hu.exists_of_mem_fields hs hk).imp_right ?_
  rintro ⟨merged, -, m, -, hok⟩
  exact ⟨m, hok⟩

end Field.Expanded
end

/-! ## The order of a plan -/

/-- A model is planned ahead of another: its shape comes first, or it is the primary model of the
same shape. -/
def PlannedModel.Ahead (p q : PlannedModel) : Prop :=
  p.typeSet.Before q.typeSet ∨ p.typeSet = q.typeSet ∧ p.isOther = false

/-- A model cannot be built without another: that of a wider shape, or the primary model of its
own. -/
def PlannedModel.Needs (p q : PlannedModel) : Prop :=
  q.isOther = false ∧ (q.typeSet ⊂ p.typeSet ∨ p.isOther = true ∧ q.typeSet = p.typeSet)

theorem PlannedModel.Needs.not_ahead {p q : PlannedModel} (h : p.Needs q) : ¬ p.Ahead q := by
  rintro (hbefore | ⟨hset, hprimary⟩)
  · rcases h.2 with hlt | ⟨-, hset⟩
    · rcases hbefore with hsize | ⟨hsize, -⟩
      · exact Nat.lt_asymm hsize hlt.1
      · exact Nat.ne_of_gt hlt.1 hsize
    · exact NameSet.Before.irrefl _ (hset ▸ hbefore)
  · rcases h.2 with hlt | ⟨hother, -⟩
    · exact Nat.lt_irrefl _ (hset ▸ hlt.1)
    · exact absurd (hprimary.symm.trans hother) (by decide)

theorem PlannedModel.Needs.irrefl (p : PlannedModel) : ¬ p.Needs p := by
  rintro ⟨hprimary, hlt | ⟨hother, -⟩⟩
  · exact Nat.lt_irrefl _ hlt.1
  · exact absurd (hprimary.symm.trans hother) (by decide)

section plan

variable {schema : Schema} {rawType : Name} {typeConditions : List Name} {fieldTypes : NameSet}
  {f : Field} (h : Shaped schema rawType typeConditions fieldTypes f.shapes) (site : Site)
include h

/-- **Models are planned in the order of their shapes**, the primary model of a shape first. -/
theorem Shaped.pairwise_ahead : (f.plan site).Pairwise PlannedModel.Ahead := by
  have hdrafts : (f.fieldSets.flatMap (f.drafts site)).Pairwise PlannedModel.Ahead := by
    refine List.pairwise_flatMap.mpr ⟨fun s _ ↦ ?_, ?_⟩
    · rw [Field.drafts]
      split
      · exact List.pairwise_pair.mpr (.inr ⟨rfl, rfl⟩)
      · exact List.pairwise_singleton _ _
    · have hsorted := h.sorted
      rw [Field.shapes, List.pairwise_map] at hsorted
      refine hsorted.imp fun {s s'} hbefore p hp q hq ↦ .inl ?_
      rwa [PlannedModel.typeSet, PlannedModel.typeSet, Field.fieldSet_of_mem_drafts hp,
        Field.fieldSet_of_mem_drafts hq]
  -- Names do not matter here, and without them a plan is the drafts.
  have hcontents : ((f.plan site).map fun p ↦ (p.typeSet, p.isOther)).Pairwise fun a b ↦
      a.1.Before b.1 ∨ a.1 = b.1 ∧ a.2 = false := by
    rw [f.map_plan site _ fun _ _ ↦ rfl]
    exact List.pairwise_map.mpr hdrafts
  rw [List.pairwise_map] at hcontents
  exact hcontents

/-- What a model needs is planned before it. -/
theorem Shaped.mem_before_of_needs {before after : List PlannedModel} {p q : PlannedModel}
    (hplan : f.plan site = before ++ p :: after) (hq : q ∈ f.plan site) (hneeds : p.Needs q) :
    q ∈ before := by
  have hahead := h.pairwise_ahead site
  rw [hplan] at hahead hq
  rcases List.mem_append.mp hq with hq | hq
  · exact hq
  rcases List.mem_cons.mp hq with rfl | hq
  · exact absurd hneeds (PlannedModel.Needs.irrefl q)
  · have hpairs := (List.pairwise_cons.mp (List.pairwise_append.mp hahead).2.1).1
    exact absurd (hpairs q hq) hneeds.not_ahead

/-- **A plan has one base model.** -/
theorem Shaped.countP_isBase_plan : (f.plan site).countP PlannedModel.isBase = 1 := by
  have hsize : ∀ s ∈ f.fieldSets, (s.typeSet.size == 1) = (s.typeSet == {rawType}) := by
    intro s hs
    rw [Bool.eq_iff_iff, beq_iff_eq, beq_iff_eq]
    exact NameSet.size_eq_one_iff (h.rawType_mem _ (List.mem_map_of_mem hs))
  have hbase : ({rawType} : NameSet) ∈ f.fieldSets.map FieldSet.typeSet := by
    obtain ⟨s, hs, heq⟩ := List.mem_map.mp h.base_mem
    exact List.mem_map.mpr ⟨s, hs, (Shape.mk.inj heq).1⟩
  calc (f.plan site).countP PlannedModel.isBase
      = (((f.plan site).filter fun p ↦ !p.isOther).map PlannedModel.fieldSet).countP
          fun s ↦ s.typeSet.size == 1 := by
        rw [List.countP_map, List.countP_filter]
        rfl
    _ = f.fieldSets.countP fun s ↦ s.typeSet == {rawType} := by
        rw [f.map_fieldSet_primaries site]
        exact List.countP_congr fun s hs ↦ by rw [hsize s hs]
    _ = (f.fieldSets.map FieldSet.typeSet).count {rawType} := by
        rw [List.count, List.countP_map]
        rfl
    _ = 1 := List.count_eq_one_of_mem h.nodup_fieldSets hbase

end plan

/-! ## Building one model after the other -/

section

variable {interfaces : Name → Except Error ModelGroup} {P : Error → Prop} {f : Field} {site : Site}

theorem failsOnly_primaryBuilt {built : List BuiltModel} {typeSet : NameSet} {b : BuiltModel}
    (hb : b ∈ built) (hset : b.planned.typeSet = typeSet) (hprimary : b.planned.isOther = false) :
    FailsOnly P (primaryBuilt built typeSet) := by
  rw [primaryBuilt]
  split
  · exact .ok _
  · rename_i hnone
    exact absurd (PlannedModel.isPrimaryOf_iff.mpr ⟨hset, hprimary⟩)
      (List.find?_eq_none.mp hnone b hb)

theorem failsOnly_primaryPlanned {s : FieldSet} (hs : s ∈ f.fieldSets) :
    FailsOnly P (primaryPlanned (f.plan site) s.typeSet) := by
  obtain ⟨p, hp, rfl, hprimary⟩ := @Field.exists_primary f site _ hs
  rw [primaryPlanned]
  split
  · exact .ok _
  · rename_i hnone
    exact absurd (PlannedModel.isPrimaryOf_iff.mpr ⟨rfl, hprimary⟩)
      (List.find?_eq_none.mp hnone p hp)

/-- What a model implements is found where everything that it needs is built. -/
theorem failsOnly_supers {inherited : List ModelGroup} {built : List BuiltModel} {p : PlannedModel}
    (hp : p ∈ f.plan site)
    (hneeds : ∀ q ∈ f.plan site, p.Needs q → q ∈ built.map BuiltModel.planned)
    (hinterfaces : ∀ name ∈ p.fieldSet.fragments, FailsOnly P (interfaces name)) :
    FailsOnly P (supers interfaces f inherited built p) := by
  have hprimary : ∀ s ∈ f.fieldSets, s.typeSet ⊂ p.typeSet ∨ p.isOther = true ∧
      s.typeSet = p.typeSet → FailsOnly P (primaryBuilt built s.typeSet) := by
    intro s hs hneed
    obtain ⟨q, hq, rfl, hprimary⟩ := @Field.exists_primary f site _ hs
    obtain ⟨b, hb, rfl⟩ := List.mem_map.mp (hneeds q hq ⟨hprimary, hneed⟩)
    exact failsOnly_primaryBuilt hb rfl hprimary
  rw [supers]
  split
  · rename_i hother
    exact .bind (hprimary _ (Field.fieldSet_mem_of_mem_plan hp) (.inr ⟨hother, rfl⟩)) fun _ _ ↦
      .ok _
  · refine .bind (.mapM fun next hnext ↦ ?_) fun _ _ ↦ .bind (.mapM hinterfaces) fun _ _ ↦ .ok _
    have hmem := (List.mem_filter.mp (mem_extremes.mp hnext).1).1
    obtain ⟨s, hs, rfl⟩ := List.mem_map.mp hmem
    exact hprimary s hs (.inl (Field.of_mem_nextWider hnext))

theorem failsOnly_accessors {p : PlannedModel}
    (hinterfaces : ∀ name ∈ f.fragments, FailsOnly P (interfaces name)) :
    FailsOnly P (accessors interfaces f site (f.plan site) p) := by
  refine .bind (.mapM fun name hname ↦ ?_) fun _ _ ↦ .bind (.mapM fun s hs ↦ ?_) fun _ _ ↦ .ok _
  · split at hname
    · exact .bind (hinterfaces name hname) fun _ _ ↦ .ok _
    · exact absurd hname List.not_mem_nil
  · split at hs
    · exact .bind (failsOnly_primaryPlanned (List.mem_filter.mp hs).1) fun _ _ ↦ .ok _
    · exact absurd hs List.not_mem_nil

theorem failsOnly_property {sups : List Model} {k : Field}
    {group : List ModelGroup → Except Error ModelGroup}
    (hgroup : k.fieldSets ≠ [] → ∀ inherited, FailsOnly P (group inherited)) :
    FailsOnly P (property sups k group) := by
  rw [property]
  split
  · exact .ok _
  · rename_i hne
    rw [map_eq_pure_bind, bind_assoc]
    exact .bind (hgroup (by simpa using hne) _) fun _ _ ↦ .ok _

/-- The models built so far, and the next one. -/
def Field.nextModel (interfaces : Name → Except Error ModelGroup) (f : Field) (site : Site)
    (inherited : List ModelGroup) (built : List BuiltModel) (p : PlannedModel) :
    Except Error (List BuiltModel) := do
  let supers ← supers interfaces f inherited built p
  let properties ← p.fieldSet.fields.mapM fun k ↦
    property supers k (k.modelGroup interfaces (site.beneath p k))
  let accessors ← accessors interfaces f site (f.plan site) p
  return built ++ [⟨p, p.model site supers properties accessors⟩]

/-- The models built so far are those at the front of a plan. -/
structure BuiltTo (f : Field) (site : Site) (rest : List PlannedModel) (built : List BuiltModel) :
    Prop where
  /-- The plan goes on with the rest. -/
  plan_eq : f.plan site = built.map BuiltModel.planned ++ rest
  /-- They are base models where the plan says so. -/
  isBase : ∀ b ∈ built, b.model.isBase = b.planned.isBase

theorem BuiltTo.nextModel {inherited : List ModelGroup} {p : PlannedModel}
    {rest : List PlannedModel} {built built' : List BuiltModel}
    (h : BuiltTo f site (p :: rest) built)
    (hok : f.nextModel interfaces site inherited built p = .ok built') :
    BuiltTo f site rest built' := by
  obtain ⟨sups, -, hok⟩ := Error.bind_eq_ok.mp hok
  obtain ⟨properties, -, hok⟩ := Error.bind_eq_ok.mp hok
  obtain ⟨as, -, hok⟩ := Error.bind_eq_ok.mp hok
  cases hok
  refine ⟨by simp [h.plan_eq], fun b hb ↦ ?_⟩
  rcases List.mem_append.mp hb with hb | hb
  · exact h.isBase b hb
  · cases List.mem_singleton.mp hb
    rfl

/-- The next model fails only as the groups of its properties and the look-up of interfaces do. -/
theorem BuiltTo.failsOnly_nextModel {schema : Schema} {rawType : Name} {typeConditions : List Name}
    {fieldTypes : NameSet} (hshaped : Shaped schema rawType typeConditions fieldTypes f.shapes)
    {inherited : List ModelGroup} {p : PlannedModel} {rest : List PlannedModel}
    {built : List BuiltModel} (h : BuiltTo f site (p :: rest) built)
    (hinterfaces : ∀ name ∈ f.spreads, FailsOnly P (interfaces name))
    (hgroups : ∀ s ∈ f.fieldSets, ∀ k ∈ s.fields, k.fieldSets ≠ [] → ∀ site inherited,
      FailsOnly P (k.modelGroup interfaces site inherited)) :
    FailsOnly P (f.nextModel interfaces site inherited built p) := by
  have hp : p ∈ f.plan site := h.plan_eq ▸ List.mem_append_right _ List.mem_cons_self
  have hset := Field.fieldSet_mem_of_mem_plan hp
  refine .bind (failsOnly_supers hp (fun q hq hneeds ↦ ?_) fun name hname ↦ ?_) fun sups _ ↦ ?_
  · exact hshaped.mem_before_of_needs site h.plan_eq hq hneeds
  · exact hinterfaces name (Field.mem_spreads.mpr (.inr ⟨_, hset, .inl hname⟩))
  refine .bind (.mapM fun k hk ↦ failsOnly_property fun hne inherited ↦ ?_) fun _ _ ↦ ?_
  · exact hgroups _ hset k hk hne _ inherited
  · refine .bind (failsOnly_accessors fun name hname ↦ ?_) fun _ _ ↦ .ok _
    exact hinterfaces name (Field.mem_spreads.mpr (.inl hname))

end

/-- **The building of models fails only as the look-up of interfaces does.** -/
theorem Field.Expanded.failsOnly_modelGroup {schema : Schema} {d : Document}
    {policy : TypenamePolicy} {interfaces : Name → Except Error ModelGroup} {P : Error → Prop}
    {f : Field} (h : f.Expanded schema d policy) (hne : f.fieldSets ≠ [])
    (hinterfaces : ∀ name ∈ f.spreads, FailsOnly P (interfaces name)) (site : Site)
    (inherited : List ModelGroup) : FailsOnly P (f.modelGroup interfaces site inherited) := by
  induction hsize : f.size using Nat.strongRecOn generalizing f site inherited with
  | _ size ih =>
    obtain ⟨s₀, hs₀⟩ := List.exists_mem_of_ne_nil _ hne
    obtain ⟨typeConditions, fieldTypes, hshaped⟩ := h.shaped hs₀
    have hcount := hshaped.countP_isBase_plan site
    rw [Field.modelGroup_eq, if_neg (by simpa using hne)]
    split
    · rename_i hnone
      rw [List.countP_eq_zero.mpr fun p hp ↦ List.find?_eq_none.mp hnone p hp] at hcount
      cases hcount
    have hstart : BuiltTo f site (f.plan site) [] := ⟨rfl, fun b hb ↦ absurd hb List.not_mem_nil⟩
    have hgroups : ∀ s ∈ f.fieldSets, ∀ k ∈ s.fields, k.fieldSets ≠ [] → ∀ site inherited,
        FailsOnly P (k.modelGroup interfaces site inherited) := by
      intro s hs k hk hkne site inherited
      refine ih _ (hsize ▸ Field.size_lt_of_mem hs hk) (h.of_mem hs hk) hkne (fun name hname ↦ ?_)
        site inherited rfl
      exact hinterfaces name (Field.mem_spreads.mpr (.inr ⟨s, hs, .inr ⟨k, hk, hname⟩⟩))
    refine .bind (x := (f.plan site).foldlM (f.nextModel interfaces site inherited) [])
      (.foldlM (BuiltTo f site) hstart (fun p rest built hbuilt ↦ ?_) fun p rest built built' ↦ ?_)
      fun built hbuilt ↦ ?_
    · exact hbuilt.failsOnly_nextModel hshaped hinterfaces hgroups
    · exact BuiltTo.nextModel
    · have hend :=
        Error.foldlM_invariant (fun p rest built built' ↦ BuiltTo.nextModel) hstart hbuilt
      have hmodels : (built.map BuiltModel.model).countP Model.isBase = 1 := by
        rw [← hcount, hend.plan_eq, List.append_nil, List.countP_map, List.countP_map]
        exact List.countP_congr fun b hb ↦ by simp [hend.isBase b hb]
      rw [groupOfModels, if_pos hmodels]
      exact .ok _

end ResponseModels
