import ResponseModels.Model.Plan
import ResponseModels.Proofs.Shape

/-!
# The planned models of a field

The models of a field are planned from its shapes, by computing with their object types. What comes
out can be said more simply in terms of the type sets of object types (`Schema.typeSetOf`):

* the primary model of a shape is for the object types whose type set is as narrow as the shape or
  narrower (`Shaped.mem_covered`), and an `Other` model for those whose type set is that of the
  shape (`Shaped.mem_ownTypes`);
* so a concrete model of either kind is for the object types whose type set is its own
  (`Shaped.mem_possibleTypes_plan`);
* every object type has a concrete model (`Shaped.exists_mem_plan`), and no two concrete models have
  one in common (`Shaped.pairwise_plan`).

A planned model is the primary model or the `Other` model of a shape (`Field.kind_of_mem_plan`), and
every shape has one primary model (`Field.exists_primary`, `Field.eq_of_primary`).
-/

set_option autoImplicit false

namespace ResponseModels

theorem mem_coveredTypes {typeSet : NameSet} {shapes : List Shape} {t : Name} :
    t ∈ coveredTypes typeSet shapes ↔ ∃ a ∈ shapes, typeSet ⊆ a.typeSet ∧ t ∈ a.possibleTypes := by
  rw [coveredTypes]
  induction shapes with
  | nil => simp
  | cons a rest ih =>
    by_cases ha : typeSet ⊆ a.typeSet
    · rw [List.filter_cons_of_pos (by simpa using ha), List.foldr_cons, NameSet.mem_union, ih]
      simp [ha]
    · rw [List.filter_cons_of_neg (by simpa using ha), ih]
      simp [ha]

theorem Shape.mem_ownTypes {a : Shape} {shapes : List Shape} {t : Name} :
    t ∈ a.ownTypes shapes ↔ t ∈ a.possibleTypes ∧
      ∀ b ∈ shapes, a.typeSet ⊂ b.typeSet → t ∉ b.possibleTypes := by
  simp [ownTypes]

namespace Shaped

variable {schema : Schema} {rawType : Name} {typeConditions : List Name} {fieldTypes : NameSet}
  {f : Field} (h : Shaped schema rawType typeConditions fieldTypes f.shapes)
include h

/-- The type set of an object type is that of a field set. -/
theorem exists_fieldSet {t : Name} (ht : t ∈ fieldTypes) :
    ∃ s ∈ f.fieldSets, s.typeSet = schema.typeSetOf rawType typeConditions t := by
  obtain ⟨a, ha, hlabel⟩ := h.exists_shape t ht
  obtain ⟨s, hs, rfl⟩ := List.mem_map.mp ha
  exact ⟨s, hs, hlabel⟩

/-- The object types of a shape and of narrower ones are those with a type set as narrow. -/
theorem mem_covered {typeSet : NameSet} {t : Name} :
    t ∈ (f.covered typeSet).possibleTypes ↔
      t ∈ fieldTypes ∧ typeSet ⊆ schema.typeSetOf rawType typeConditions t := by
  rw [Field.covered, mem_coveredTypes]
  constructor
  · rintro ⟨a, ha, hsub, ht⟩
    by_cases hbase : a.typeSet = {rawType}
    · refine ⟨h.possibleTypes_base ha hbase ▸ ht, fun c hc ↦ ?_⟩
      have hc := hsub c hc
      rw [hbase, NameSet.mem_singleton] at hc
      exact Schema.mem_typeSetOf.mpr (.inl hc)
    · obtain ⟨htypes, hlabel⟩ := (h.mem_possibleTypes a ha hbase t).mp ht
      exact ⟨htypes, hlabel.symm ▸ hsub⟩
  · rintro ⟨ht, hsub⟩
    obtain ⟨a, ha, hlabel, hmem, -⟩ := h.exists_largest ht
    exact ⟨a, ha, hlabel.symm ▸ hsub, hmem⟩

/-- The object types of a shape that no narrower one has are those with just its type set. -/
theorem mem_ownTypes {typeSet : NameSet} {t : Name} :
    t ∈ f.ownTypes typeSet ↔
      t ∈ fieldTypes ∧ schema.typeSetOf rawType typeConditions t = typeSet := by
  rw [Field.ownTypes, Shape.mem_ownTypes, h.mem_covered]
  constructor
  · rintro ⟨⟨ht, hsub⟩, hnone⟩
    refine ⟨ht, Classical.byContradiction fun hne ↦ ?_⟩
    obtain ⟨s', hs', hlabel⟩ := h.exists_fieldSet ht
    have hlt : typeSet ⊂ s'.typeSet :=
      NameSet.ssubset_iff_subset_ne.mpr ⟨hlabel.symm ▸ hsub, fun heq ↦ hne (heq.trans hlabel).symm⟩
    refine hnone _ (List.mem_map_of_mem hs') hlt (h.mem_covered.mpr ⟨ht, ?_⟩)
    exact hlabel ▸ fun c hc ↦ hc
  · rintro ⟨ht, hlabel⟩
    refine ⟨⟨ht, hlabel.symm ▸ fun c hc ↦ hc⟩, fun b hb hlt hmem ↦ ?_⟩
    obtain ⟨s', hs', rfl⟩ := List.mem_map.mp hb
    have hsub := (h.mem_covered.mp hmem).2
    rw [hlabel] at hsub
    exact absurd (NameSet.Subset.size_le hsub) (Nat.not_le.mpr hlt.1)

/-- A shape without narrower ones has just the object types with its type set. -/
theorem mem_covered_of_narrower {typeSet : NameSet} (hleaf : (f.narrower typeSet).isEmpty = true)
    {t : Name} :
    t ∈ (f.covered typeSet).possibleTypes ↔
      t ∈ fieldTypes ∧ schema.typeSetOf rawType typeConditions t = typeSet := by
  rw [← h.mem_ownTypes, Field.ownTypes, Shape.mem_ownTypes]
  refine (and_iff_left fun b hb hlt ↦ ?_).symm
  obtain ⟨s', hs', rfl⟩ := List.mem_map.mp hb
  have hmem : s' ∈ f.narrower typeSet := List.mem_filter.mpr ⟨hs', decide_eq_true hlt⟩
  exact absurd hmem (List.isEmpty_iff.mp hleaf ▸ List.not_mem_nil)

/-- If the field has object types at all, so has every shape with the narrower ones. -/
theorem exists_mem_covered {s : FieldSet} (hs : s ∈ f.fieldSets) {t : Name} (ht : t ∈ fieldTypes) :
    ∃ t', t' ∈ (f.covered s.typeSet).possibleTypes := by
  have hmem : (⟨s.typeSet, s.possibleTypes⟩ : Shape) ∈ f.shapes := List.mem_map_of_mem hs
  by_cases hbase : s.typeSet = {rawType}
  · refine ⟨t, h.mem_covered.mpr ⟨ht, hbase ▸ NameSet.singleton_subset.mpr ?_⟩⟩
    exact Schema.mem_typeSetOf.mpr (.inl rfl)
  · obtain ⟨t', ht', hsat⟩ := h.satisfied _ hmem hbase
    refine ⟨t', h.mem_covered.mpr ⟨ht', ?_⟩⟩
    exact (Schema.subset_typeSetOf_iff (h.made _ hmem) (h.satisfies_rawType ht')).mpr hsat

end Shaped

/-! ## Drafts -/

section drafts

variable {schema : Schema} {rawType : Name} {typeConditions : List Name} {fieldTypes : NameSet}
  {f : Field} (h : Shaped schema rawType typeConditions fieldTypes f.shapes) {site : Site}
  (hsite : site.interfacesOnly = false)
include h hsite

/-- A concrete draft is for the object types whose type set is that of the shape. -/
theorem Shaped.mem_possibleTypes_drafts {s : FieldSet} {p : PlannedModel} (hp : p ∈ f.drafts site s)
    (hc : p.isInterface = false) {t : Name} :
    t ∈ p.possibleTypes ↔
      t ∈ fieldTypes ∧ schema.typeSetOf rawType typeConditions t = p.typeSet := by
  rw [Field.drafts, hsite] at hp
  split at hp
  · rename_i hnarrower
    simp only [Bool.not_false, Bool.true_and, Bool.and_eq_true] at hnarrower
    rcases List.mem_cons.mp hp with rfl | hp
    · rw [Bool.false_or, hnarrower.1] at hc
      cases hc
    · cases List.mem_singleton.mp hp
      exact h.mem_ownTypes
  · cases List.mem_singleton.mp hp
    rw [Bool.false_or, Bool.not_eq_false'] at hc
    exact h.mem_covered_of_narrower hc

/-- Every object type with the type set of a shape has a concrete draft. -/
theorem Shaped.exists_mem_drafts {s : FieldSet} {t : Name} (ht : t ∈ fieldTypes)
    (hlabel : schema.typeSetOf rawType typeConditions t = s.typeSet) :
    ∃ p ∈ f.drafts site s, p.isInterface = false ∧ t ∈ p.possibleTypes := by
  have hown : t ∈ f.ownTypes s.typeSet := h.mem_ownTypes.mpr ⟨ht, hlabel⟩
  have hne : (f.ownTypes s.typeSet).isEmpty = false := NameSet.isEmpty_eq_false.mpr ⟨t, hown⟩
  rw [Field.drafts, hsite]
  cases hleaf : (f.narrower s.typeSet).isEmpty with
  | true =>
    exact ⟨_, List.mem_singleton_self _, by simp,
      (h.mem_covered_of_narrower hleaf).mpr ⟨ht, hlabel⟩⟩
  | false =>
    rw [if_pos (by simp [hne])]
    exact ⟨_, List.mem_cons_of_mem _ List.mem_cons_self, rfl, hown⟩

end drafts

/-- Two models are not both concrete with an object type in common. -/
def PlannedModel.Apart (p q : PlannedModel) : Prop :=
  p.isInterface = false → q.isInterface = false → ∀ t ∈ p.possibleTypes, t ∉ q.possibleTypes

/-- Of the drafts of one shape at most one is concrete. -/
theorem Field.pairwise_drafts {f : Field} {site : Site} {s : FieldSet} :
    (f.drafts site s).Pairwise PlannedModel.Apart := by
  rw [drafts]
  split
  · rename_i hnarrower
    simp only [Bool.and_eq_true] at hnarrower
    refine List.pairwise_pair.mpr fun hc ↦ ?_
    simp [hnarrower.1.2] at hc
  · exact List.pairwise_singleton _ _

/-! ## The plan -/

/-- Apart from the names, a plan is the drafts of all shapes. -/
theorem Field.map_plan {α : Type} (f : Field) (site : Site) (content : PlannedModel → α)
    (hcontent : ∀ (p : PlannedModel) (name : String), content { p with name } = content p) :
    (f.plan site).map content = (f.fieldSets.flatMap (f.drafts site)).map content := by
  rw [plan, List.map_map]
  generalize f.fieldSets.flatMap (f.drafts site) = drafts
  have hfst : (drafts.zip (freshNames [] (drafts.map PlannedModel.name))).map Prod.fst = drafts :=
    List.map_fst_zip (by simp)
  conv_rhs => rw [← hfst, List.map_map]
  exact List.map_congr_left fun _ _ ↦ hcontent _ _

/-- What matters of a planned model besides its name. -/
def PlannedModel.content (p : PlannedModel) : FieldSet × Bool × NameSet :=
  (p.fieldSet, p.isInterface, p.possibleTypes)

theorem Field.map_content_plan (f : Field) (site : Site) :
    (f.plan site).map PlannedModel.content =
      (f.fieldSets.flatMap (f.drafts site)).map PlannedModel.content :=
  f.map_plan site PlannedModel.content fun _ _ ↦ rfl

/-- The two kinds of planned models: the primary model of a shape, and the model for what narrower
shapes leave. -/
inductive PlannedModel.Kind (f : Field) (site : Site) (p : PlannedModel) : Prop
  | primary (isOther : p.isOther = false)
      (isInterface : p.isInterface = (site.interfacesOnly || !(f.narrower p.typeSet).isEmpty))
      (possibleTypes : p.possibleTypes = (f.covered p.typeSet).possibleTypes)
  | other (isOther : p.isOther = true) (isInterface : p.isInterface = false)
      (possibleTypes : p.possibleTypes = f.ownTypes p.typeSet)
      (interfacesOnly : site.interfacesOnly = false)
      (narrower : (f.narrower p.typeSet).isEmpty = false)
      (nonempty : p.possibleTypes.isEmpty = false)

theorem Field.kind_of_mem_drafts {f : Field} {site : Site} {s : FieldSet} {p : PlannedModel}
    (h : p ∈ f.drafts site s) : p.Kind f site := by
  rw [drafts] at h
  split at h
  · rename_i hnarrower
    simp only [Bool.and_eq_true, Bool.not_eq_true'] at hnarrower
    rcases List.mem_cons.mp h with rfl | h
    · exact .primary rfl rfl rfl
    · cases List.mem_singleton.mp h
      exact .other rfl rfl rfl hnarrower.1.1 hnarrower.1.2 hnarrower.2
  · cases List.mem_singleton.mp h
    exact .primary rfl rfl rfl

/-- Every model of a plan is of one of the two kinds. -/
theorem Field.kind_of_mem_plan {f : Field} {site : Site} {p : PlannedModel} (h : p ∈ f.plan site) :
    p.Kind f site := by
  have hmem := List.mem_map_of_mem (f := fun p : PlannedModel ↦ { p with name := "" }) h
  rw [f.map_plan site _ fun _ _ ↦ rfl] at hmem
  obtain ⟨q, hq, heq⟩ := List.mem_map.mp hmem
  obtain ⟨s, -, hq⟩ := List.mem_flatMap.mp hq
  have heq' : p = { q with name := p.name } := by
    simp only [PlannedModel.mk.injEq] at heq
    obtain ⟨h₁, h₂, h₃, -, h₅⟩ := heq
    rw [h₁, h₂, h₃, h₅]
  rw [heq']
  cases kind_of_mem_drafts hq with
  | primary h₁ h₂ h₃ => exact .primary h₁ h₂ h₃
  | other h₁ h₂ h₃ h₄ h₅ h₆ => exact .other h₁ h₂ h₃ h₄ h₅ h₆

/-- **Every shape has one primary model**, and these come in the order of the shapes. -/
theorem Field.map_fieldSet_primaries (f : Field) (site : Site) :
    ((f.plan site).filter fun p ↦ !p.isOther).map PlannedModel.fieldSet = f.fieldSets := by
  have hpairs : ∀ plan : List PlannedModel,
      (plan.filter fun p ↦ !p.isOther).map PlannedModel.fieldSet =
        ((plan.map fun p ↦ (p.fieldSet, p.isOther)).filter fun pair ↦ !pair.2).map Prod.fst := by
    intro plan
    rw [List.filter_map, List.map_map]
    rfl
  rw [hpairs, f.map_plan site _ fun _ _ ↦ rfl, ← hpairs]
  induction f.fieldSets with
  | nil => rfl
  | cons s rest ih =>
    have hdrafts :
        ((f.drafts site s).filter fun p ↦ !p.isOther).map PlannedModel.fieldSet = [s] := by
      rw [drafts]
      split <;> rfl
    rw [List.flatMap_cons, List.filter_append, List.map_append, hdrafts, ih, List.singleton_append]

theorem Field.exists_primary {f : Field} {site : Site} {s : FieldSet} (h : s ∈ f.fieldSets) :
    ∃ p ∈ f.plan site, p.fieldSet = s ∧ p.isOther = false := by
  rw [← f.map_fieldSet_primaries site] at h
  obtain ⟨p, hp, rfl⟩ := List.mem_map.mp h
  obtain ⟨hp, hother⟩ := List.mem_filter.mp hp
  exact ⟨p, hp, rfl, by simpa using hother⟩

/-- Where shapes differ, the primary model of a type set is the only one. -/
theorem Field.eq_of_primary {f : Field} {site : Site}
    (hnodup : (f.fieldSets.map FieldSet.typeSet).Nodup) {p q : PlannedModel} (hp : p ∈ f.plan site)
    (hq : q ∈ f.plan site) (hpo : p.isOther = false) (hqo : q.isOther = false)
    (heq : p.typeSet = q.typeSet) : p = q := by
  rw [← f.map_fieldSet_primaries site, List.map_map] at hnodup
  exact List.inj_on_of_nodup_map hnodup (List.mem_filter.mpr ⟨hp, by simp [hpo]⟩)
    (List.mem_filter.mpr ⟨hq, by simp [hqo]⟩) heq

section plan

variable {schema : Schema} {rawType : Name} {typeConditions : List Name} {fieldTypes : NameSet}
  {f : Field} (h : Shaped schema rawType typeConditions fieldTypes f.shapes) {site : Site}
  (hsite : site.interfacesOnly = false)
include h hsite

/-- **A concrete model is for the object types whose type set is its own.** -/
theorem Shaped.mem_possibleTypes_plan {p : PlannedModel} (hp : p ∈ f.plan site)
    (hc : p.isInterface = false) {t : Name} :
    t ∈ p.possibleTypes ↔
      t ∈ fieldTypes ∧ schema.typeSetOf rawType typeConditions t = p.typeSet := by
  have hmem := List.mem_map_of_mem (f := PlannedModel.content) hp
  rw [f.map_content_plan] at hmem
  obtain ⟨q, hq, heq⟩ := List.mem_map.mp hmem
  obtain ⟨s, -, hq⟩ := List.mem_flatMap.mp hq
  simp only [PlannedModel.content, Prod.mk.injEq] at heq
  obtain ⟨hset, hinterface, htypes⟩ := heq
  rw [← htypes, h.mem_possibleTypes_drafts hsite hq (hinterface.trans hc),
    PlannedModel.typeSet, hset]
  rfl

/-- **Every object type has a concrete model.** -/
theorem Shaped.exists_mem_plan {t : Name} (ht : t ∈ fieldTypes) :
    ∃ p ∈ f.plan site, p.isInterface = false ∧ t ∈ p.possibleTypes := by
  obtain ⟨s, hs, hlabel⟩ := h.exists_fieldSet ht
  obtain ⟨q, hq, hc, hmem⟩ := h.exists_mem_drafts hsite ht hlabel.symm
  have hcontent :=
    List.mem_map_of_mem (f := PlannedModel.content) (List.mem_flatMap.mpr ⟨s, hs, hq⟩)
  rw [← f.map_content_plan] at hcontent
  obtain ⟨p, hp, heq⟩ := List.mem_map.mp hcontent
  simp only [PlannedModel.content, Prod.mk.injEq] at heq
  obtain ⟨-, hinterface, htypes⟩ := heq
  exact ⟨p, hp, hinterface.trans hc, htypes ▸ hmem⟩

omit hsite in
/-- If the field has object types at all, so has every model. -/
theorem Shaped.exists_mem_possibleTypes {p : PlannedModel} (hp : p ∈ f.plan site) {t : Name}
    (ht : t ∈ fieldTypes) : ∃ t', t' ∈ p.possibleTypes := by
  cases Field.kind_of_mem_plan hp with
  | primary _ _ htypes =>
    rw [htypes]
    exact h.exists_mem_covered (Field.fieldSet_mem_of_mem_plan hp) ht
  | other _ _ _ _ _ hnonempty => exact NameSet.isEmpty_eq_false.mp hnonempty

/-- **No two concrete models have an object type in common.** -/
theorem Shaped.pairwise_plan : (f.plan site).Pairwise PlannedModel.Apart := by
  -- Being apart is a matter of the contents, so it is enough to look at the drafts.
  have hdrafts : (f.fieldSets.flatMap (f.drafts site)).Pairwise PlannedModel.Apart := by
    refine List.pairwise_flatMap.mpr ⟨fun s _ ↦ Field.pairwise_drafts, ?_⟩
    have hsorted := h.sorted
    rw [Field.shapes, List.pairwise_map] at hsorted
    refine hsorted.imp fun {s s'} hbefore p hp q hq hpc hqc t ht ht' ↦ ?_
    have hlabel := ((h.mem_possibleTypes_drafts hsite hp hpc).mp ht).2
    have hlabel' := ((h.mem_possibleTypes_drafts hsite hq hqc).mp ht').2
    rw [PlannedModel.typeSet, Field.fieldSet_of_mem_drafts hp] at hlabel
    rw [PlannedModel.typeSet, Field.fieldSet_of_mem_drafts hq] at hlabel'
    exact NameSet.Before.irrefl _ (hlabel'.symm.trans hlabel ▸ hbefore)
  have hcontents : ((f.plan site).map PlannedModel.content).Pairwise fun a b ↦
      a.2.1 = false → b.2.1 = false → ∀ t ∈ a.2.2, t ∉ b.2.2 := by
    rw [f.map_content_plan]
    exact List.pairwise_map.mpr hdrafts
  rw [List.pairwise_map] at hcontents
  exact hcontents

end plan
end ResponseModels
