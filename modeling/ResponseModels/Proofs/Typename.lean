import ResponseModels.Proofs.Narrowing

/-!
# Where `__typename` is required

The policy of a build says for which fields `__typename` is required. It is added to a field set for
which it is not selected, so one expects every field set of such a field to have it. But whether it
is selected is found out before what can never be included is left out. If it is selected, and
skipped for all values of the variables, then it is neither added nor kept (`not_hasTypenames`). In
all other cases there is just one field of this response name (`typename_of_build`).

A skipped inline fragment does not have this effect: what is selected in it is never come upon, so
it does not count as selected.
-/

set_option autoImplicit false

namespace ResponseModels

/-! ## Statements -/

/-- How many fields of a field set have the response name `__typename`. -/
def FieldSet.typenames (s : FieldSet) : Nat :=
  (s.fields.map Field.responseName).count Schema.typename

/-- The policy requires that a field has a `__typename` in its field sets. -/
def Field.RequiresTypename (schema : Schema) (policy : TypenamePolicy) (f : Field) : Prop :=
  policy.applies (1 < f.fieldSets.length || schema.isAbstract f.info.rawType) = true

theorem Field.RequiresTypename.of_lt {schema : Schema} {f : Field} (h : 1 < f.fieldSets.length) :
    f.RequiresTypename schema .ifPolymorphic := by
  rw [Field.RequiresTypename, decide_eq_true h]
  rfl

/-- Wherever it is required, there is just one `__typename`. -/
def Representation.HasTypenames (schema : Schema) (config : Config) (ir : Representation) : Prop :=
  ∀ f, ir.HasField f → f.RequiresTypename schema config.typename → ∀ s ∈ f.fieldSets,
    s.typenames = 1

open Sample in
/-- Asked for the `__typename` of dogs only, and told to skip it, a dog has none. -/
theorem not_hasTypenames :
    ∃ ir, build schema {} (taggedDogs [skipAlways]) = .ok ir ∧ ¬ ir.HasTypenames schema {} := by
  obtain ⟨ir, hir, hcheck⟩ := Error.exists_of_any (x := build schema {} (taggedDogs [skipAlways]))
    (p := fun ir ↦ ir.operations.any fun o ↦ o.field.fieldSets.any fun s₀ ↦ s₀.fields.any fun f ↦
      f.fieldSets.any fun s ↦ decide (1 < f.fieldSets.length) && s.typenames = 0)
    (by decide +kernel)
  simp only [List.any_eq_true, Bool.and_eq_true, decide_eq_true_eq] at hcheck
  obtain ⟨o, ho, s₀, hs₀, f, hf, s, hs, hlength, hnone⟩ := hcheck
  refine ⟨ir, hir, fun hall ↦ ?_⟩
  have hone := hall f (.operation ho (.step .here hs₀ hf)) (.of_lt hlength) s hs
  omega

/-- A field set has one `__typename`, or none if one is selected for it and always skipped. -/
structure FieldSet.HasTypename (schema : Schema) (d : Document) (rawType : Name)
    (selected : Selection → Prop) (s : FieldSet) : Prop where
  /-- There is just one, unless what is selected is always skipped. -/
  one : ¬ TypenameSkipped schema d rawType s.typeSet selected → s.typenames = 1
  /-- Then there is none. -/
  none : TypenameSkipped schema d rawType s.typeSet selected → s.typenames = 0

/-! ## One field -/

theorem FieldSet.notMem_names_iff {s : FieldSet} {n : Name} :
    n ∉ s.fields.map Field.responseName ↔ ∀ k ∈ s.fields, k.responseName ≠ n := by
  simp only [List.mem_map, not_exists, not_and, ne_eq]

/-- A field set that is required to have a `__typename` has a field of this name, if none is
selected for it. -/
theorem Declaration.Unfolds.typename_mem {schema : Schema} {d : Document} {policy : TypenamePolicy}
    {field : Declaration} {f : Field} {survey : Survey} (h : field.Unfolds schema d policy f survey)
    {selected : Selection → Prop}
    (hselected : ∀ x, x ∈ field.children.map Child.selection ↔ selected x)
    (hrequires : policy.applies (1 < f.fieldSets.length || schema.isAbstract field.info.rawType) =
      true) {s : FieldSet} (hs : s ∈ f.fieldSets)
    (hnone : ¬ SelectedFor schema d field.info.rawType s.typeSet selected Schema.typename) :
    Field.typename ∈ s.fields := by
  obtain ⟨merged, fields, hmerged, -, heq⟩ := h.fieldSet s hs
  have hraw := h.shaped.rawType_mem _ (List.mem_map_of_mem hs)
  rw [Survey.selectedFor_iff h.survey_eq hselected hraw hmerged] at hnone
  rw [heq]
  exact List.mem_append_left _
    (mem_addedTypename_iff.mpr ⟨rfl, hrequires, fun m hm hname ↦ hnone ⟨m, hm, hname⟩⟩)

/-- **The field sets of a field that requires a `__typename`** have one, or it is skipped. -/
theorem Field.Expands.hasTypename {schema : Schema} {d : Document} {policy : TypenamePolicy}
    {root : List Selection} {selected : Selection → Prop} {f : Field}
    (h : f.Expands schema d policy root selected) (hrequires : f.RequiresTypename schema policy)
    {s : FieldSet} (hs : s ∈ f.fieldSets) :
    s.HasTypename schema d f.info.rawType selected := by
  have hnodup := h.narrows.nodup s hs
  refine ⟨fun hnot ↦ List.count_eq_one_of_mem hnodup ?_, fun hskipped ↦ List.count_eq_zero.mpr ?_⟩
  · by_cases hselects : SelectedFor schema d f.info.rawType s.typeSet selected Schema.typename
    · obtain ⟨k, hk, hname, -⟩ := h.exists_mem_typename hs hselects hnot
      exact List.mem_map.mpr ⟨k, hk, hname⟩
    · rcases h with rfl | ⟨field, hf, -, hselected⟩
      · exact absurd hs List.not_mem_nil
      obtain ⟨survey, hu⟩ := unfolds_of_expandField hf (isComposite_of_mem_fieldSets hf hs)
      rw [RequiresTypename, (info_of_expandField hf).1] at hrequires
      rw [(info_of_expandField hf).1] at hselects
      exact List.mem_map.mpr ⟨Field.typename, hu.typename_mem hselected hrequires hs hselects, rfl⟩
  · have hunmet := h.leavesOutUnmet hs Schema.typename fun _ ↦ hskipped.declared
    exact FieldSet.notMem_names_iff.mpr (hunmet.mpr hskipped.skipped)

/-! ## The whole representation -/

/-- **Where `__typename` is required, it is there.** In the result of a build, every field set of a
field for which the policy requires `__typename` has just one field of this response name. There is
one exception: it has none if `__typename` is selected for its shape and is skipped for all values
of the variables. -/
theorem typename_of_build {schema : Schema} {config : Config} {d : Document} {ir : Representation}
    (h : build schema config d = .ok ir) :
    ir.AllFields schema d fun f selected ↦ f.RequiresTypename schema config.typename →
      ∀ s ∈ f.fieldSets, s.HasTypename schema d f.info.rawType selected :=
  .of_build h fun _ _ _ hexpands hrequires _ hs ↦ hexpands.hasTypename hrequires hs

open Sample in
/-- Asked for the `__typename` of dogs only, if `$tagged` is set, dogs have the one that is asked
for and other animals one that is added. -/
theorem typename_of_build_tagged :
    let d := taggedDogs [includeIf "tagged"]
    ∃ ir, build schema {} d = .ok ir ∧ ∃ o ∈ ir.operations, ∃ op ∈ d.operations, ∃ f selected,
      Within schema d o.field (· ∈ op.selections) f selected ∧
      f.RequiresTypename schema .ifPolymorphic ∧
        ∃ s ∈ f.fieldSets, s.typenames = 1 ∧ s.HasTypename schema d f.info.rawType selected ∧
          ∃ k ∈ s.fields, k.condition = .literal "tagged" false := by
  intro d
  obtain ⟨ir, hir, hcheck⟩ := Error.exists_of_any (x := build schema {} d)
    (p := fun ir ↦ ir.operations.any fun o ↦ o.field.fieldSets.any fun s₀ ↦
      s₀.fields.any fun f ↦ f.fieldSets.any fun s ↦
      decide (1 < f.fieldSets.length) && (s.typenames = 1 && s.fields.any fun k ↦
        k.condition = .literal "tagged" false))
    (by decide +kernel)
  simp only [List.any_eq_true, Bool.and_eq_true, decide_eq_true_eq] at hcheck
  obtain ⟨o, ho, s₀, hs₀, f, hf, s, hs, hlength, hone, hk⟩ := hcheck
  obtain ⟨op, hop, selected, hwithin, htypenames⟩ :=
    (typename_of_build hir).exists_within ho hs₀ hf
  have hrequires : f.RequiresTypename schema .ifPolymorphic := .of_lt hlength
  exact ⟨ir, hir, o, ho, op, hop, f, selected, hwithin, hrequires, s, hs, hone,
    htypenames hrequires s hs, hk⟩

end ResponseModels
