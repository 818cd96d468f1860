import ResponseModels.Proofs.Build
import ResponseModels.Proofs.Collect.Agreement
import ResponseModels.Proofs.PossibleTypes
import ResponseModels.Proofs.Sample

/-!
# Nested fields and execution

One level of collecting agrees with execution. For nested fields it does not quite: all selections
beneath the declarations of a response name are put together, also those beneath declarations that
execution leaves out for the values the variables have. So a nested field whose condition holds need
not be in the response, even if the conditions of all fields around it hold (`not_conditionsTell`).

What is true is this. On a path of fields whose conditions hold, a field is expanded from what is
put together along the path (`MergedAlong`), and what is executed there is part of it
(`Field.Follows`). From this it follows, for the field set of every type an object can have,

* that the fields whose conditions hold are those that execution would collect from what is put
  together;
* that all that execution does collect is among them;
* that there are no others, if execution keeps all declarations one comes upon for the fields on the
  path.
-/

set_option autoImplicit false

namespace ResponseModels

/-- From a field a path leads to another: each step goes into the field set of some object type, and
on to a field of a response name whose condition holds. -/
def Field.Along (v : Name → Bool) : List (Name × Name) → Field → Field → Prop
  | [], f, g => g = f
  | (t, n) :: path, f, g => ∃ s, f.IsLargest t s ∧ ∃ k ∈ s.fields, k.responseName = n ∧
      k.condition.eval v = true ∧ k.Along v path g

/-- A field is expanded from the selections `merged`, and what is executed beneath it is part of
them. Beneath a `__typename` that was added there is nothing. -/
def Field.Follows (schema : Schema) (d : Document) (policy : TypenamePolicy) (root : List Selection)
    (executed : List Selection) (merged : Selection → Prop) (f : Field) : Prop :=
  f = Field.typename ∨ ∃ field, expandField schema d policy field = .ok f ∧
    (∀ c ∈ field.children, Stands d root c.place c.selection) ∧
    (∀ x ∈ executed, merged x) ∧ ∀ x, x ∈ field.children.map Child.selection ↔ merged x

theorem Schema.isComposite_of_possibleTypes {schema : Schema} {name : Name} {types : NameSet}
    (h : schema.possibleTypes name = .ok types) : schema.isComposite name = true :=
  exists_possibleTypes_iff.mp ⟨types, h⟩

/-- `__typename` is a leaf in every schema. -/
theorem Schema.possibleTypes_string (schema : Schema) (types : NameSet) :
    schema.possibleTypes Field.typename.info.rawType ≠ .ok types := by
  intro h
  cases isComposite_of_possibleTypes h

section

variable {schema : Schema} {d : Document} {policy : TypenamePolicy} {root : List Selection}
  {executed : List Selection} {merged : Selection → Prop} {f : Field} {v : Name → Bool}

/-- An object type of a field set is an object type of the field. -/
theorem Declaration.Unfolds.mem_fieldTypes {field : Declaration} {survey : Survey}
    (h : field.Unfolds schema d policy f survey) {s : FieldSet} (hs : s ∈ f.fieldSets) {t : Name}
    (ht : t ∈ s.possibleTypes) : t ∈ survey.fieldTypes := by
  have hmem : (⟨s.typeSet, s.possibleTypes⟩ : Shape) ∈ f.shapes := List.mem_map_of_mem hs
  by_cases hbase : s.typeSet = {field.info.rawType}
  · rwa [← h.shaped.possibleTypes_base hmem hbase]
  · exact ((h.shaped.mem_possibleTypes _ hmem hbase t).mp ht).1

/-- **One step.** -/
theorem Field.Follows.step (h : f.Follows schema d policy root executed merged) {t : Name}
    {s : FieldSet} (hs : f.IsLargest t s) {k : Field} (hk : k ∈ s.fields) :
    k.Follows schema d policy root
      (subSelections (collectFields schema d v t executed) k.responseName)
      fun x ↦ ∃ head beneath, ComesUpon schema d t merged head beneath ∧
        head.responseName = k.responseName ∧ x ∈ beneath := by
  rcases h with rfl | ⟨field, hf, hstands, hexecuted, hmerged⟩
  · exact absurd hs.1 List.not_mem_nil
  obtain ⟨survey, hu⟩ := unfolds_of_expandField hf (isComposite_of_mem_fieldSets hf hs.1)
  have ht := hu.mem_fieldTypes hs.1 hs.2.1
  obtain ⟨s', hs', hlabel⟩ := hu.exists_largest ht
  cases hs.unique hs'
  refine (hu.of_mem_fields hs.1 hstands hk).imp_right ?_
  rintro ⟨m, hok, hchildren, hmem⟩
  rw [hlabel] at hmem
  cases (funext fun x ↦ propext (hmerged x) : (· ∈ field.children.map Child.selection) = merged)
  refine ⟨m, hok, hchildren, fun x hx ↦ ?_, fun x ↦ (hmem x).trans ?_⟩
  · obtain ⟨head, beneath, hcollected, hname, hx⟩ := mem_subSelections.mp hx
    have hcollected := collectFields_mono hexecuted hcollected
    obtain ⟨o, ho, hhead, hselections, -, hsat⟩ :=
      (Survey.mem_collectFields_iff hu.survey_eq ht v).mp hcollected
    exact ⟨head, beneath,
      (Survey.comesUpon_iff hu.survey_eq ht).mpr ⟨o, ho, hhead, hselections, hsat⟩, hname, hx⟩
  · simp only [hu.applies_iff ht, Survey.comesUpon_iff hu.survey_eq ht]
    constructor
    · rintro ⟨o, ⟨ho, hsat⟩, hname, hx⟩
      exact ⟨o.head, o.selections, ⟨o, ho, rfl, rfl, hsat⟩, hname, hx⟩
    · rintro ⟨-, -, ⟨o, ho, rfl, rfl, hsat⟩, hname, hx⟩
      exact ⟨o, ⟨ho, hsat⟩, hname, hx⟩

/-- **A whole path.** -/
theorem Field.Follows.along {path : List (Name × Name)} {g : Field}
    (h : f.Follows schema d policy root executed merged) (hpath : f.Along v path g) :
    g.Follows schema d policy root (executedAlong schema d v path executed)
      (MergedAlong schema d path merged) := by
  induction path generalizing f executed merged with
  | nil =>
    cases hpath
    exact h
  | cons step path ih =>
    obtain ⟨t, n⟩ := step
    obtain ⟨s, hs, k, hk, rfl, -, hrest⟩ := hpath
    exact ih (h.step hs hk) hrest

/-- The selections of a definition follow themselves. -/
theorem Field.Follows.of_expandRoot {rawType : Name} {selections : List Selection}
    {path : List Name} (h : expandRoot schema d policy rawType selections path = .ok f) :
    f.Follows schema d policy selections selections (· ∈ selections) := by
  obtain ⟨field, hf, hstands, hchildren⟩ := exists_of_expandRoot h
  exact .inr ⟨field, hf, hstands, fun x hx ↦ hx, fun x ↦ by rw [hchildren]⟩

/-- What follows for the field set of each type that an object can have. -/
theorem Field.Follows.exists_selected (h : f.Follows schema d policy root executed merged)
    {fieldTypes : NameSet} (htypes : schema.possibleTypes f.info.rawType = .ok fieldTypes)
    {t : Name} (ht : t ∈ fieldTypes) :
    ∃ s, f.IsLargest t s ∧ ∃ selected,
      (s.fields = selected ∨ s.fields = Field.typename :: selected ∧
        ∀ g ∈ selected, g.responseName ≠ Schema.typename) ∧
      ∃ together : List Selection, (∀ x, x ∈ together ↔ merged x) ∧ (∀ x ∈ executed, x ∈ together) ∧
        ∀ v n, (∃ c ∈ selected, c.responseName = n ∧ c.condition.eval v = true) ↔
          n ∈ responseNames (collectFields schema d v t together) := by
  rcases h with rfl | ⟨field, hf, -, hexecuted, hmerged⟩
  · exact absurd htypes (Schema.possibleTypes_string schema fieldTypes)
  rw [(info_of_expandField hf).1] at htypes
  obtain ⟨survey, hu⟩ := unfolds_of_expandField hf (Schema.isComposite_of_possibleTypes htypes)
  cases htypes.symm.trans hu.shaped.fieldTypes_eq
  obtain ⟨s, hs, -⟩ := hu.exists_largest ht
  obtain ⟨selected, hfields, hiff⟩ := hu.exists_selected ht hs
  exact ⟨s, hs, selected, hfields, _, hmerged, fun x hx ↦ (hmerged x).mpr (hexecuted x hx), hiff⟩

end

/-- Conditions tell what is executed: on every path of fields whose conditions hold, each field
whose condition holds is executed. -/
def ConditionsTell (schema : Schema) (config : Config) (d : Document) : Prop :=
  ∀ ir, build schema config d = .ok ir → ∀ o ∈ ir.operations, ∀ op ∈ d.operations,
    op.name = some o.name → ∀ v path f, o.field.Along v path f → ∀ t s, f.IsLargest t s →
    ∀ c ∈ s.fields, c.condition.eval v = true → c.responseName ∈
      responseNames (collectFields schema d v t (executedAlong schema d v path op.selections))

/-- If there is one field set, it is that of all its object types. -/
theorem Field.isLargest_of_length_eq_one {f : Field} {s : FieldSet} {t : Name}
    (h : f.fieldSets.length = 1) (hs : s ∈ f.fieldSets) (ht : t ∈ s.possibleTypes) :
    f.IsLargest t s := by
  obtain ⟨s₀, hs₀⟩ := List.length_eq_one_iff.mp h
  have honly : ∀ s' ∈ f.fieldSets, s' = s₀ := fun s' hs' ↦ List.mem_singleton.mp (hs₀ ▸ hs')
  exact ⟨hs, ht, fun s' hs' _ ↦ .inl ((honly s' hs').trans (honly s hs).symm)⟩

open Sample in
/-- What is built from the query that asks for an animal twice: one shape for all animals, with
their breed. -/
theorem exists_build_twice (policy : TypenamePolicy) :
    ∃ ir, build schema { typename := policy } twice = .ok ir ∧ ∃ o ∈ ir.operations,
      o.name = "Visit" ∧ ∃ f s, f.info.rawType = "Animal" ∧ f.IsLargest "Dog" s ∧
      (∀ v, (v "named" || v "bred") = true → o.field.Along v [("Query", "animal")] f) ∧
      (∃ c ∈ s.fields, c.responseName = "breed" ∧ c.condition = .always) ∧
      (policy = .always → ∃ c ∈ s.fields, c.responseName = Schema.typename ∧
        c.condition = .always) := by
  obtain ⟨ir, hir, hcheck⟩ := Error.exists_of_any (x := build schema { typename := policy } twice)
    (p := fun ir ↦ ir.operations.any fun o ↦ o.name = "Visit" && o.field.fieldSets.length = 1 &&
      o.field.fieldSets.any fun base ↦ "Query" ∈ base.possibleTypes &&
        base.fields.any fun f ↦ f.responseName = "animal" && f.info.rawType = "Animal" &&
          f.condition = .junction .any [.literal "bred" false, .literal "named" false] &&
          f.fieldSets.length = 1 && f.fieldSets.any fun s ↦ "Dog" ∈ s.possibleTypes &&
            (s.fields.any fun c ↦ c.responseName = "breed" && c.condition = .always) &&
            (policy ≠ .always || s.fields.any fun c ↦
              c.responseName = Schema.typename && c.condition = .always))
    (by cases policy <;> decide +kernel)
  simp only [Bool.and_eq_true, Bool.or_eq_true, decide_eq_true_eq, List.any_eq_true] at hcheck
  obtain ⟨o, ho, ⟨hname, honly⟩, base, hbase, hquery, f, hf, ⟨⟨⟨hanimal, hraw⟩, hcond⟩, hfonly⟩, s,
    hs, ⟨hdog, hbreed⟩, htypename⟩ := hcheck
  refine ⟨ir, hir, o, ho, hname, f, s, hraw, Field.isLargest_of_length_eq_one hfonly hs hdog,
    fun v hv ↦ ?_, hbreed, htypename.resolve_left ∘ not_not_intro⟩
  refine ⟨base, Field.isLargest_of_length_eq_one honly hbase hquery, f, hf, hanimal, ?_, rfl⟩
  rw [hcond]
  simpa [Condition.eval, Condition.evalAny, or_comm] using hv

open Sample in
/-- **Conditions do not tell what is executed.** The breed is selected beneath a declaration that
execution leaves out if `$bred` is not set, and yet its condition holds always. Besides, a
`__typename` that is added is not executed. -/
theorem not_conditionsTell :
    ¬ ConditionsTell schema { typename := .never } twice ∧
      ¬ ConditionsTell schema { typename := .always } twice := by
  constructor
  · intro h
    obtain ⟨ir, hir, o, ho, hname, f, s, -, hs, hpath, ⟨c, hc, hbreed, hcond⟩, -⟩ :=
      exists_build_twice .never
    have hin := h ir hir o ho _ List.mem_cons_self (hname ▸ rfl) (· == "named") _ f
      (hpath _ rfl) "Dog" s hs c hc (hcond ▸ rfl)
    rw [hbreed] at hin
    exact absurd hin (by decide +kernel)
  · intro h
    obtain ⟨ir, hir, o, ho, hname, f, s, -, hs, hpath, -, htypename⟩ := exists_build_twice .always
    obtain ⟨c, hc, hcname, hcond⟩ := htypename rfl
    have hin := h ir hir o ho _ List.mem_cons_self (hname ▸ rfl) (fun _ ↦ true) _ f
      (hpath _ rfl) "Dog" s hs c hc (hcond ▸ rfl)
    rw [hcname] at hin
    exact absurd hin (by decide +kernel)

/-- **Conditions of nested fields.** Let a path lead from the root field of an operation through
fields whose conditions hold, at each step into the field set of some object type. Then in the field
set that the field at its end has for an object type `t`, leaving out a `__typename` that was added,

* the response names of the fields whose conditions hold are those that execution collects for an
  object of type `t` from what is put together along the path;
* all that is executed for such an object is among them;
* they are all executed, if execution keeps all the declarations one comes upon for the fields on
  the path. -/
theorem conditions_along_paths {schema : Schema} {config : Config} {d : Document}
    {ir : Representation} (h : build schema config d = .ok ir) :
    ∀ o ∈ ir.operations, ∃ op ∈ d.operations, op.name = some o.name ∧
      ∀ v path f, o.field.Along v path f →
      ∀ fieldTypes, schema.possibleTypes f.info.rawType = .ok fieldTypes → ∀ t ∈ fieldTypes,
      ∃ s, f.IsLargest t s ∧ ∃ selected,
        (s.fields = selected ∨ s.fields = Field.typename :: selected ∧
          ∀ g ∈ selected, g.responseName ≠ Schema.typename) ∧
        (∃ together : List Selection,
          (∀ x, x ∈ together ↔ MergedAlong schema d path (· ∈ op.selections) x) ∧
          ∀ n, (∃ c ∈ selected, c.responseName = n ∧ c.condition.eval v = true) ↔
            n ∈ responseNames (collectFields schema d v t together)) ∧
        (∀ n ∈ responseNames
            (collectFields schema d v t (executedAlong schema d v path op.selections)),
          ∃ c ∈ selected, c.responseName = n ∧ c.condition.eval v = true) ∧
        (KeepsAlong schema d v path op.selections →
          ∀ c ∈ selected, c.condition.eval v = true → c.responseName ∈ responseNames
            (collectFields schema d v t (executedAlong schema d v path op.selections))) := by
  intro o ho
  obtain ⟨op, hop, hname, rootType, _, -, hroot, -⟩ := exists_operation_of_build h ho
  refine ⟨op, hop, hname, fun v path f hpath fieldTypes htypes t ht ↦ ?_⟩
  have hfollows := (Field.Follows.of_expandRoot hroot).along hpath
  obtain ⟨s, hs, selected, hfields, together, hmerged, hexecuted, hiff⟩ :=
    hfollows.exists_selected htypes ht
  refine ⟨s, hs, selected, hfields, ⟨together, hmerged, hiff v⟩, fun n hn ↦ ?_,
    fun hkeeps c hc heval ↦ ?_⟩
  · exact (hiff v n).mpr (responseNames_mono (fun _ ↦ collectFields_mono hexecuted) n hn)
  · have hsub : ∀ x ∈ together, x ∈ executedAlong schema d v path op.selections := fun x hx ↦
      ((hmerged x).mp hx).mem_executedAlong (fun _ h ↦ h) hkeeps
    refine responseNames_mono (fun _ ↦ collectFields_mono hsub) _ ?_
    exact (hiff v _).mp ⟨c, hc, rfl, heval⟩

open Sample in
/-- If both declarations of the sample's animal are kept, its breed is executed. -/
theorem conditions_along_paths_breed :
    ∃ ir, build schema { typename := .never } twice = .ok ir ∧ ∃ o ∈ ir.operations, ∃ f s,
      o.field.Along (fun _ ↦ true) [("Query", "animal")] f ∧ f.IsLargest "Dog" s ∧
      (∃ c ∈ s.fields, c.responseName = "breed") ∧ ∃ op ∈ twice.operations,
      KeepsAlong schema twice (fun _ ↦ true) [("Query", "animal")] op.selections ∧
      "breed" ∈ responseNames (collectFields schema twice (fun _ ↦ true) "Dog"
        (executedAlong schema twice (fun _ ↦ true) [("Query", "animal")] op.selections)) := by
  obtain ⟨ir, hir, o, ho, -, f, s, hraw, hs, hpath, ⟨c, hc, hbreed, hcond⟩, -⟩ :=
    exists_build_twice .never
  obtain ⟨op, hop, -, hall⟩ := conditions_along_paths hir o ho
  have hkeeps : KeepsAlong schema twice (fun _ ↦ true) [("Query", "animal")] op.selections := by
    cases List.mem_singleton.mp hop
    refine ⟨fun head beneath hupon _ ↦ ?_, trivial⟩
    obtain ⟨x, gates, hx, hleads, -, -⟩ := hupon
    simp only [List.mem_cons, List.not_mem_nil, or_false] at hx
    rcases hx with rfl | rfl <;> cases hleads <;>
      exact mem_collect.mpr ⟨_, by simp, [], .here _ _, by simp, rfl⟩
  obtain ⟨fieldTypes, htypes, hdog⟩ : ∃ types, schema.possibleTypes "Animal" = .ok types ∧
      "Dog" ∈ types := by
    obtain ⟨types, htypes, hdog⟩ := Error.exists_of_any (x := schema.possibleTypes "Animal")
      (p := fun types ↦ "Dog" ∈ types) (by decide +kernel)
    exact ⟨types, htypes, of_decide_eq_true hdog⟩
  obtain ⟨s', hs', selected, hfields, -, -, hselected⟩ :=
    hall (fun _ ↦ true) _ f (hpath _ rfl) fieldTypes (hraw ▸ htypes) "Dog" hdog
  cases hs.unique hs'
  refine ⟨ir, hir, o, ho, f, s, hpath _ rfl, hs, ⟨c, hc, hbreed⟩, op, hop, hkeeps, ?_⟩
  have hc' : c ∈ selected := by
    rcases hfields with hfields | ⟨hfields, -⟩
    · exact hfields ▸ hc
    · rcases List.mem_cons.mp (hfields ▸ hc) with rfl | hc
      · exact absurd hbreed (by decide)
      · exact hc
  exact hbreed ▸ hselected hkeeps c hc' (hcond ▸ rfl)

end ResponseModels
