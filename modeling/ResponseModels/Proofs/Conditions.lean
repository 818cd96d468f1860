import ResponseModels.Proofs.Collect.Declared
import ResponseModels.Proofs.Collect.Ways
import ResponseModels.Proofs.Collect.MergeExact
import ResponseModels.Proofs.Condition.Alternatives
import ResponseModels.Proofs.FieldTree
import ResponseModels.Proofs.Model.Tree
import ResponseModels.Proofs.Sample

/-!
# The conditions of fields and properties

A field is left out if its condition is written `never`, and simplifying does not find out in
general whether a condition can be met. It does for the conditions of fields. On one way to a field
they are joined by `and`, which gives a clause (`Survey.clause_of_mem_occurrences`), and they are
joined by `or` only when the declarations of a response name are merged. So what is kept is
`Proper`: it can be met, and nothing is left to simplify (`Survey.proper_of_mem_fieldsFor`).

Hence a response name is left out of a field set just when there are no values of the variables for
which execution would get to a declaration of it that applies to the shape
(`FieldSet.LeavesOutUnmet`).
-/

set_option autoImplicit false

namespace ResponseModels

/-! ## Statements -/

/-- A field set leaves out the response names of which no declaration can be included: on each way
to one that applies to the shape, no values of the variables let execution pass all gates and the
directives of the field itself.

A `__typename` that no declaration is come upon for may have been added, so for this name a
declaration is supposed that lies behind gates which can be open. -/
def FieldSet.LeavesOutUnmet (schema : Schema) (d : Document) (rawType : Name)
    (selected : Selection → Prop) (s : FieldSet) : Prop :=
  ∀ n, (n = Schema.typename → SelectedFor schema d rawType s.typeSet selected n) →
    ((∀ k ∈ s.fields, k.responseName ≠ n) ↔
      ∀ gates head, DeclaredFor schema d rawType s.typeSet selected gates head →
      head.responseName = n →
      ∀ v, ¬((∀ g ∈ gates, included v g.directives = true) ∧ included v head.directives = true))

/-! ## One survey -/

namespace Survey

variable {schema : Schema} {d : Document} {rawType : Name} {children : List Child} {s : Survey}
  (h : Survey.ofChildren schema d rawType children = .ok s)
include h

/-- The conditions of what a survey finds are clauses. -/
theorem clause_of_mem_occurrences {o : Occurrence} (ho : o ∈ s.found.occurrences) :
    o.scope.condition.Clause := by
  obtain ⟨_, _, _, inner, condition, -, henters, hcondition, hscope⟩ := exists_enters h ho
  rw [hscope]
  exact (henters.sound (Scope.sound_ofField rawType)).clause.and
    (Condition.clause_ofDirectives hcondition)

/-- **A field of a type set that can be included has a proper condition.** -/
theorem proper_of_mem_fieldsFor {typeSet : NameSet} {merged : List Declaration}
    (hmerged : s.fieldsFor schema typeSet = .ok merged) {m : Declaration} (hm : m ∈ merged)
    (hincluded : m.canBeIncluded = true) : m.condition.Proper := by
  rw [fieldsFor] at hmerged
  obtain ⟨declarations, hdeclarations, hmerged⟩ := Error.bind_eq_ok.mp hmerged
  have hdeclared : ∀ m' ∈ declarations, m'.condition.Clause ∧ m'.condition.Canonical :=
    condition_of_mem_declarationsFor (P := fun c ↦ c.Clause ∧ c.Canonical) hdeclarations fun o ho ↦
      ⟨clause_of_mem_occurrences h ho, canonical_of_mem_occurrences h ho⟩
  have hoperands : ∀ c ∈ (Declaration.group declarations m.responseName).map Declaration.condition,
      c.Clause ∧ c.Canonical := by
    intro c hc
    obtain ⟨m', hm', rfl⟩ := List.mem_map.mp hc
    exact hdeclared m' (List.mem_filter.mp hm').1
  have hcondition :=
    Declaration.condition_of_mem_merge hmerged (fun m' hm' ↦ (hdeclared m' hm').2) hm
  have hnever : m.condition ≠ .never := by
    intro hnever
    rw [Declaration.canBeIncluded, Condition.isNever_eq_true.mpr hnever] at hincluded
    cases hincluded
  rw [hcondition] at hnever ⊢
  exact Condition.proper_reduce (fun c hc ↦ (hoperands c hc).1)
    (fun c hc ↦ (hoperands c hc).2) hnever

end Survey

/-! ## One field -/

/-- The fields of a field set have proper conditions. -/
theorem Field.Expanded.proper_of_mem {schema : Schema} {d : Document} {policy : TypenamePolicy}
    {f k : Field} {s : FieldSet} (h : f.Expanded schema d policy) (hs : s ∈ f.fieldSets)
    (hk : k ∈ s.fields) : k.condition.Proper := by
  obtain ⟨field, survey, -, hu⟩ := h.exists_unfolds hs
  obtain ⟨merged, selected, hmerged, hselected, hfields⟩ := hu.fieldSet s hs
  rw [hfields] at hk
  rcases List.mem_append.mp hk with hk | hk
  · rw [(mem_addedTypename hk).1]
    exact Condition.proper_always
  · obtain ⟨m, hm, hok⟩ := Error.exists_of_mem_mapM hselected hk
    obtain ⟨hm, hincluded⟩ := List.mem_filter.mp hm
    rw [(info_of_expandField hok).2]
    exact Survey.proper_of_mem_fieldsFor hu.survey_eq hmerged hm hincluded

/-- The properties of the models of a field have proper conditions. -/
theorem Placed.proper_of_mem_properties {schema : Schema} {d : Document} {policy : TypenamePolicy}
    {ir : Representation} {f : Field} {site : Site} {inherited : List ModelGroup} {g : ModelGroup}
    (h : Placed schema d policy ir f site inherited g) {m : Model} (hm : m ∈ g.models)
    {p : Property} (hp : p ∈ m.properties) : p.condition.Proper := by
  obtain ⟨_, _, _, b, -, rfl, hplan, -, hfollows, -⟩ := h.exists_follows hm
  obtain ⟨k, hk, hok⟩ := Error.exists_of_mem_mapM hfollows.properties hp
  rw [(property_eq_ok hok).2.1]
  exact Field.Expanded.proper_of_mem (.inr h.collected) (Field.fieldSet_mem_of_mem_plan hplan) hk

theorem Field.Expands.expanded {schema : Schema} {d : Document} {policy : TypenamePolicy}
    {root : List Selection} {selected : Selection → Prop} {f : Field}
    (h : f.Expands schema d policy root selected) : f.Expanded schema d policy :=
  h.imp_right fun ⟨field, hf, _⟩ ↦ ⟨field, hf⟩

/-- **The condition of a field tells when one of its declarations is included.** A `__typename` that
no declaration is come upon for may have been added. -/
theorem Field.Expands.eval_iff_includedFor {schema : Schema} {d : Document}
    {policy : TypenamePolicy} {root : List Selection} {selected : Selection → Prop} {f : Field}
    (h : f.Expands schema d policy root selected) {s : FieldSet} (hs : s ∈ f.fieldSets) {k : Field}
    (hk : k ∈ s.fields) (htypename : k.responseName = Schema.typename →
      SelectedFor schema d f.info.rawType s.typeSet selected k.responseName) (v : Name → Bool) :
    k.condition.eval v = true ↔
      IncludedFor schema d f.info.rawType s.typeSet selected k.responseName v := by
  rcases h with rfl | ⟨field, hf, -, hselected⟩
  · exact absurd hs List.not_mem_nil
  obtain ⟨survey, hu⟩ := unfolds_of_expandField hf (isComposite_of_mem_fieldSets hf hs)
  have hraw := hu.shaped.rawType_mem _ (List.mem_map_of_mem hs)
  rw [(info_of_expandField hf).1] at htypename ⊢
  obtain ⟨merged, fields, hmerged, hfields, heq⟩ := hu.fieldSet s hs
  rw [heq] at hk
  rcases List.mem_append.mp hk with hk | hk
  · -- A `__typename` is not added if one is selected.
    obtain ⟨rfl, hnone⟩ := mem_addedTypename hk
    obtain ⟨m, hm, hname⟩ :=
      (Survey.selectedFor_iff hu.survey_eq hselected hraw hmerged).mp (htypename rfl)
    exact absurd hname (hnone m hm)
  · obtain ⟨m, hm, hok⟩ := Error.exists_of_mem_mapM hfields hk
    rw [(info_of_expandField hok).2, responseName_of_expandField hok,
      Survey.includedFor_iff hu.survey_eq hselected hraw]
    exact Survey.eval_of_mem_fieldsFor hmerged (List.mem_filter.mp hm).1 v

/-- **A field set has just what can be included.** -/
theorem Field.Expands.leavesOutUnmet {schema : Schema} {d : Document} {policy : TypenamePolicy}
    {root : List Selection} {selected : Selection → Prop} {f : Field}
    (h : f.Expands schema d policy root selected) {s : FieldSet} (hs : s ∈ f.fieldSets) :
    s.LeavesOutUnmet schema d f.info.rawType selected := by
  intro n htypename
  constructor
  · rintro hout gates head hdeclared rfl v hincluded
    rcases h with rfl | ⟨field, hf, -, hselected⟩
    · exact absurd hs List.not_mem_nil
    obtain ⟨survey, hu⟩ := unfolds_of_expandField hf (isComposite_of_mem_fieldSets hf hs)
    have hraw := hu.shaped.rawType_mem _ (List.mem_map_of_mem hs)
    rw [(info_of_expandField hf).1] at hdeclared
    obtain ⟨o, ho, hname, heval⟩ := (Survey.includedFor_iff hu.survey_eq hselected hraw).mp
      ⟨gates, head, hdeclared, rfl, hincluded⟩
    obtain ⟨k, hk, hkname⟩ := hu.exists_mem_fields hs ho heval
    exact hout k hk (hkname.trans hname)
  · -- What is kept can be met, and so one of the declarations can.
    rintro hunmet k hk rfl
    obtain ⟨v, hv⟩ := (h.expanded.proper_of_mem hs hk).satisfiable
    obtain ⟨gates, head, hdeclared, hname, hincluded⟩ :=
      (h.eval_iff_includedFor hs hk htypename v).mp hv
    exact hunmet gates head hdeclared hname v hincluded

/-! ## The whole representation -/

/-- **Conditions are satisfiable and canonical.** In the result of a build, the conditions of all
fields in the trees of operations and fragments and of all properties of models are proper. So a
response name is left out of a field set just when no values of the variables include one of its
declarations that apply to the shape. -/
theorem conditions_of_build {schema : Schema} {config : Config} {d : Document} {ir : Representation}
    (h : build schema config d = .ok ir) :
    (∀ f, ir.HasField f → f.condition.Proper) ∧
    (∀ g, ir.HasGroup g → ∀ m ∈ g.models, ∀ p ∈ m.properties, p.condition.Proper) ∧
    ir.AllFields schema d fun f selected ↦
      ∀ s ∈ f.fieldSets, s.LeavesOutUnmet schema d f.info.rawType selected := by
  refine ⟨fun f hf ↦ ?_, fun g hg m hm p hp ↦ ?_, ?_⟩
  · refine hf.induction (fun hexpand ↦ ?_) (fun hexpanded hs hk ↦ hexpanded.proper_of_mem hs hk) h
    rw [condition_of_expandRoot hexpand]
    exact Condition.proper_always
  · obtain ⟨f, site, inherited, hplaced⟩ := hg.exists_placed h
    exact hplaced.proper_of_mem_properties hm hp
  · exact .of_build h fun _ _ _ hexpands s hs ↦ hexpands.leavesOutUnmet hs

open Sample in
/-- In the sample an animal has its name unless `$shy` is set, or if `$named` and `$pets` are. It
never has its breed. -/
theorem conditions_of_build_guarded :
    let c : Condition := .junction .any
      [.literal "shy" true, .junction .all [.literal "named" false, .literal "pets" false]]
    ∃ ir, build schema {} guarded = .ok ir ∧
      (∃ f, ir.HasField f ∧ f.condition = c ∧ f.condition.Proper) ∧
      (∃ g, ir.HasGroup g ∧
        ∃ m ∈ g.models, ∃ p ∈ m.properties, p.condition = c ∧ p.condition.Proper) ∧
      ∃ o ∈ ir.operations, ∃ op ∈ guarded.operations, ∃ f selected,
        Within schema guarded o.field (· ∈ op.selections) f selected ∧ ∃ s ∈ f.fieldSets,
        (∀ k ∈ s.fields, k.responseName ≠ "breed") ∧
        ∀ gates head, DeclaredFor schema guarded f.info.rawType s.typeSet selected gates head →
        head.responseName = "breed" → ∀ v,
          ¬((∀ g ∈ gates, included v g.directives = true) ∧ included v head.directives = true) := by
  intro c
  obtain ⟨ir, hir, hcheck⟩ := Error.exists_of_any (x := build schema {} guarded)
    (p := fun ir ↦ ir.operations.any fun o ↦
      (o.field.fieldSets.any fun s₀ ↦ s₀.fields.any fun f ↦ f.fieldSets.any fun s ↦
        (s.fields.any fun k ↦ k.condition = c) && s.fields.all fun k ↦ k.responseName ≠ "breed") &&
      o.group.models.any fun m₀ ↦ m₀.properties.any fun p₀ ↦ p₀.group.any fun g ↦
        g.models.any fun m ↦ m.properties.any fun p ↦ p.condition = c) (by decide +kernel)
  simp only [List.any_eq_true, List.all_eq_true, Option.any_eq_true, Bool.and_eq_true,
    decide_eq_true_eq] at hcheck
  obtain ⟨o, ho, ⟨s₀, hs₀, f, hf, s, hs, ⟨k, hk, hkc⟩, hbreed⟩, m₀, hm₀, p₀, hp₀, g, hg, m, hm, p,
    hp, hpc⟩ := hcheck
  obtain ⟨hfields, hproperties, hleaves⟩ := conditions_of_build hir
  obtain ⟨op, hop, selected, hwithin, hunmet⟩ := hleaves.exists_within ho hs₀ hf
  have hhas : ir.HasField k := .operation ho (.step (.step .here hs₀ hf) hs hk)
  have hgroup : ir.HasGroup g := .property (.operation ho) hm₀ hp₀ hg
  refine ⟨ir, hir, ⟨k, hhas, hkc, hfields k hhas⟩,
    ⟨g, hgroup, m, hm, p, hp, hpc, hproperties g hgroup m hm p hp⟩,
    o, ho, op, hop, f, selected, hwithin, s, hs, hbreed, ?_⟩
  exact (hunmet s hs "breed" fun htypename ↦ absurd htypename (by decide)).mp hbreed

end ResponseModels
