import ResponseModels.Proofs.Collect.Coverage

/-!
# What the survey of a field says

The survey of a field goes through the children of the field one after the other. This file puts
together what is known of the parts, and says what the survey has to do with the selections beneath
the field:

* each occurrence sums up a way on which it can be reached (`Survey.exists_leads`), and each way on
  which a field can be reached is summed up by an occurrence (`Survey.exists_occurrence`);
* so the fields that execution collects are the occurrences whose type set is satisfied and whose
  condition holds (`Survey.mem_collectFields_iff`);
* the type conditions of the survey are those of the fragments that can be entered, as far as they
  do not cover the field (`Survey.mem_typeConditions_iff`), and the type sets it notes are made of
  them (`Survey.of_mem_typeSets`).
-/

set_option autoImplicit false

namespace ResponseModels

/-! ## Child by child -/

section surveyChildren

variable {schema : Schema} {d : Document} {fieldTypes : NameSet} {rawType : Name}
  {children : List Child} {expanded : List Expansion} {found : Findings}

/-- The children of a field are covered by what the survey of the field finds. -/
theorem covered_of_surveyChildren
    (h : surveyChildren schema d fieldTypes rawType children expanded = .ok found) :
    ∃ final, expanded ⊆ final ∧
      ∀ all : Findings, found.occurrences ⊆ all.occurrences → found.entries ⊆ all.entries →
        (∀ c ∈ children, Covered schema d fieldTypes all final (.ofField rawType) c.selection) ∧
          ∀ e ∈ final, e ∈ expanded ∨ e.Covered schema d fieldTypes all final := by
  induction children generalizing expanded found with
  | nil =>
    exact ⟨expanded, List.Subset.refl _, fun all _ _ ↦
      ⟨fun c hc ↦ absurd hc List.not_mem_nil, fun e he ↦ .inl he⟩⟩
  | cons c rest ih =>
    rw [surveyChildren] at h
    obtain ⟨⟨first, expanded₁⟩, hfirst, h⟩ := Error.bind_eq_ok.mp h
    obtain ⟨later, hlater, h⟩ := Error.bind_eq_ok.mp h
    cases h
    have hsurveys := surveys_of_ok hfirst
    obtain ⟨final, hsub, hrest⟩ := ih hlater
    refine ⟨final, List.Subset.trans hsurveys.subset_expanded hsub, fun all ho he ↦ ?_⟩
    obtain ⟨hoFirst, hoLater⟩ := List.append_subset.mp ho
    obtain ⟨heFirst, heLater⟩ := List.append_subset.mp he
    obtain ⟨hcovered, hexp⟩ := hsurveys.covered hoFirst heFirst hsub
    obtain ⟨hcoveredLater, hexpLater⟩ := hrest all hoLater heLater
    refine ⟨List.forall_mem_cons.mpr ⟨hcovered _ List.mem_cons_self, hcoveredLater⟩, fun e he ↦ ?_⟩
    exact (hexpLater e he).elim (hexp e) .inr

/-- What the survey of a child contributes to that of the field. -/
def Child.Contributes (schema : Schema) (d : Document) (fieldTypes : NameSet) (rawType : Name)
    (c : Child) (part : Findings) : Prop :=
  ∃ expanded expanded', Surveys schema d fieldTypes ⟨c.path, true⟩ (.ofField rawType)
    [(c.place, c.selection)] expanded part expanded'

/-- What is found by the survey of a field is found by the survey of a child. -/
theorem contributes_of_surveyChildren
    (h : surveyChildren schema d fieldTypes rawType children expanded = .ok found) :
    (∀ o ∈ found.occurrences, ∃ c ∈ children, ∃ part, part.entries ⊆ found.entries ∧
      c.Contributes schema d fieldTypes rawType part ∧ o ∈ part.occurrences) ∧
    ∀ e ∈ found.entries, ∃ c ∈ children, ∃ part, part.entries ⊆ found.entries ∧
      c.Contributes schema d fieldTypes rawType part ∧ e ∈ part.entries := by
  induction children generalizing expanded found with
  | nil =>
    rw [surveyChildren] at h
    cases h
    exact ⟨fun o ho ↦ absurd ho List.not_mem_nil, fun e he ↦ absurd he List.not_mem_nil⟩
  | cons c rest ih =>
    rw [surveyChildren] at h
    obtain ⟨⟨first, expanded₁⟩, hfirst, h⟩ := Error.bind_eq_ok.mp h
    obtain ⟨later, hlater, h⟩ := Error.bind_eq_ok.mp h
    cases h
    have hpart : c.Contributes schema d fieldTypes rawType first := ⟨_, _, surveys_of_ok hfirst⟩
    have hsub : first.entries ⊆ (first ++ later).entries := List.subset_append_left _ _
    obtain ⟨hoccurrences, hentries⟩ := ih hlater
    refine ⟨fun o ho ↦ ?_, fun e he ↦ ?_⟩
    · rcases List.mem_append.mp ho with ho | ho
      · exact ⟨c, List.mem_cons_self, first, hsub, hpart, ho⟩
      · obtain ⟨c', hc', part, hpart, h⟩ := hoccurrences o ho
        exact ⟨c', List.mem_cons_of_mem c hc', part,
          List.Subset.trans hpart (List.subset_append_right _ _), h⟩
    · rcases List.mem_append.mp he with he | he
      · exact ⟨c, List.mem_cons_self, first, hsub, hpart, he⟩
      · obtain ⟨c', hc', part, hpart, h⟩ := hentries e he
        exact ⟨c', List.mem_cons_of_mem c hc', part,
          List.Subset.trans hpart (List.subset_append_right _ _), h⟩

/-- If the children stand at their places, so do the fields that are found. -/
theorem stands_of_surveyChildren {root : List Selection}
    (h : surveyChildren schema d fieldTypes rawType children expanded = .ok found)
    (hs : ∀ c ∈ children, Stands d root c.place c.selection) :
    ∀ o ∈ found.occurrences, Stands d root o.place (.field o.head o.selections) := by
  intro o ho
  obtain ⟨c, hc, part, -, ⟨_, _, hpart⟩, ho⟩ := (contributes_of_surveyChildren h).1 o ho
  exact hpart.stands (List.forall_mem_singleton.mpr (hs c hc)) o ho

end surveyChildren

/-- An occurrence sums up the gates on a way to it: its condition holds when they and its own
directives let execution pass, its type set stands for their type conditions, those left out that
cover the field, and it is looked up in the innermost of them. -/
structure Occurrence.Sums (schema : Schema) (fieldTypes : NameSet) (rawType : Name)
    (gates : List Gate) (o : Occurrence) : Prop where
  /-- The condition holds when all gates are open and the own directives include the field. -/
  eval (v : Name → Bool) : o.scope.condition.eval v =
    ((gates.all fun g ↦ included v g.directives) && included v o.head.directives)
  /-- What holds for all conditions that cover the field holds for the type set just if it does
  for the conditions of the gates. -/
  typeSet {P : Name → Prop} (hP : ∀ c, schema.Covers fieldTypes c → P c) :
    (∀ c ∈ o.scope.typeSet, P c) ↔ ∀ g ∈ gates, ∀ c, g.typeCondition = some c → P c
  /-- The field is looked up in the innermost type condition. -/
  parentType : o.scope.parentType = Gate.innermost rawType gates

/-- What a way of the survey leads to sums up the gates on the way. -/
theorem Scope.Enters.sums {schema : Schema} {fieldTypes : NameSet} {rawType : Name}
    {gates : List Gate} {inner : Scope} {o : Occurrence} {condition : Condition}
    (h : Scope.Enters schema fieldTypes (.ofField rawType) gates inner)
    (hR : schema.Covers fieldTypes rawType)
    (hc : Condition.ofDirectives o.head.directives o.head.responseName = .ok condition)
    (ho : o.scope = { inner with condition := inner.condition.and condition }) :
    o.Sums schema fieldTypes rawType gates where
  eval v := by
    rw [ho, Condition.eval_and, h.eval, Condition.eval_ofDirectives hc]
    rfl
  typeSet hP := by
    rw [ho, h.forall_typeSet_iff (Scope.sound_ofField rawType) hP]
    refine and_iff_right fun c hmem ↦ ?_
    cases NameSet.mem_singleton.mp hmem
    exact hP rawType hR
  parentType := by
    rw [ho]
    exact h.parentType_eq

/-! ## The survey -/

namespace Survey

variable {schema : Schema} {d : Document} {rawType : Name} {children : List Child} {s : Survey}

theorem ofChildren_eq_ok (h : Survey.ofChildren schema d rawType children = .ok s) :
    s.rawType = rawType ∧ schema.possibleTypes rawType = .ok s.fieldTypes ∧
      surveyChildren schema d s.fieldTypes rawType children [] = .ok s.found := by
  rw [ofChildren] at h
  obtain ⟨fieldTypes, hfieldTypes, h⟩ := Error.bind_eq_ok.mp h
  obtain ⟨found, hfound, h⟩ := Error.bind_eq_ok.mp h
  cases h
  exact ⟨rfl, hfieldTypes, hfound⟩

theorem mem_fragments {name : Name} :
    name ∈ s.fragments ↔ ∃ e ∈ s.found.entries, e.spread = some name := by
  simp [fragments]

theorem mem_fragmentsFor {typeSet : NameSet} {name : Name} :
    name ∈ s.fragmentsFor typeSet ↔
      ∃ e ∈ s.found.entries, e.typeSet ⊆ typeSet ∧ e.spread = some name := by
  simp [fragmentsFor, and_assoc]

theorem mem_typeConditions {c : Name} : c ∈ s.typeConditions ↔ s.found.Narrows c := by
  simp [typeConditions, Findings.Narrows, and_assoc]

section

variable (h : Survey.ofChildren schema d rawType children = .ok s)
include h

theorem covers_rawType : schema.Covers s.fieldTypes rawType :=
  (Schema.covers_iff (ofChildren_eq_ok h).2.1).mpr fun _ ht ↦ ht

/-- The children are covered, and so are all the fragments that were expanded. -/
theorem exists_covered :
    ∃ final, (∀ e ∈ final, e.Covered schema d s.fieldTypes s.found final) ∧
      ∀ c ∈ children, Covered schema d s.fieldTypes s.found final (.ofField rawType)
        c.selection := by
  obtain ⟨-, -, hfound⟩ := ofChildren_eq_ok h
  obtain ⟨final, -, hcovered⟩ := covered_of_surveyChildren hfound
  obtain ⟨hchildren, hexpanded⟩ := hcovered s.found (List.Subset.refl _) (List.Subset.refl _)
  exact ⟨final, fun e he ↦ (hexpanded e he).resolve_left List.not_mem_nil, hchildren⟩

/-- **An occurrence sums up a way on which it can be reached.** There are values of the variables
for which all gates on it are open. -/
theorem exists_leads {o : Occurrence} (ho : o ∈ s.found.occurrences) :
    ∃ c ∈ children, ∃ gates, Leads d [] c.selection gates (.field o.head o.selections) ∧
      o.Sums schema s.fieldTypes rawType gates ∧
      ∃ v, ∀ g ∈ gates, included v g.directives = true := by
  obtain ⟨-, -, hfound⟩ := ofChildren_eq_ok h
  obtain ⟨c, hc, part, -, ⟨_, _, hpart⟩, ho⟩ := (contributes_of_surveyChildren hfound).1 o ho
  obtain ⟨ps, hps, gates, inner, condition, ⟨hleads, henters⟩, hcond, hscope⟩ :=
    hpart.of_mem_occurrences ho
  cases List.mem_singleton.mp hps
  obtain ⟨v, hv⟩ := (henters.sound (Scope.sound_ofField rawType)).exists_eval
  rw [henters.eval, Bool.and_eq_true, List.all_eq_true] at hv
  exact ⟨c, hc, gates, hleads.of_subset fun n hn ↦ absurd hn List.not_mem_nil,
    henters.sums (covers_rawType h) hcond hscope, v, hv.2⟩

/-- **A way on which a field can be reached is summed up by an occurrence.** -/
theorem exists_occurrence {c : Child} (hc : c ∈ children) {gates : List Gate} {head : FieldHead}
    {beneath : List Selection} (hway : Way d c.selection gates (.field head beneath))
    {v : Name → Bool} (hv : ∀ g ∈ gates, included v g.directives = true) :
    ∃ o ∈ s.found.occurrences, o.head = head ∧ o.selections = beneath ∧
      o.Sums schema s.fieldTypes rawType gates := by
  obtain ⟨final, hdealt, hchildren⟩ := exists_covered h
  obtain ⟨inner, henters, htarget⟩ := (hchildren c hc).reach hdealt hway rfl hv
  obtain ⟨trail, place, condition, hcond, hmem⟩ := htarget.occurrence
  exact ⟨_, hmem, rfl, rfl, henters.sums (covers_rawType h) hcond rfl⟩

/-- **An entry of a fragment that is spread sums up a way to the spread**, and the type condition of
the fragment. -/
theorem exists_leads_spread {e : Entry} (he : e ∈ s.found.entries) {name : Name}
    (hspread : e.spread = some name) :
    ∃ c ∈ children, ∃ gates directives fragment,
      Leads d [] c.selection gates (.spread name directives) ∧ d.fragment? name = some fragment ∧
      ∀ {P : Name → Prop}, (∀ c, schema.Covers s.fieldTypes c → P c) →
        ((∀ c ∈ e.typeSet, P c) ↔
          ∀ g ∈ gates ++ [⟨some fragment.typeCondition, directives⟩], ∀ c,
            g.typeCondition = some c → P c) := by
  obtain ⟨-, -, hfound⟩ := ofChildren_eq_ok h
  obtain ⟨c, hc, part, -, ⟨_, _, hpart⟩, he⟩ := (contributes_of_surveyChildren hfound).2 e he
  obtain ⟨ps, hps, gates, inner, target, g, final, narrows, spread, ⟨hleads, henters⟩, hgate, hpass,
    rfl, hnamed⟩ := hpart.of_mem_entries he
  cases List.mem_singleton.mp hps
  obtain ⟨directives, rfl⟩ := hnamed name hspread
  obtain ⟨fragment, hf, rfl⟩ := Option.map_eq_some_iff.mp hgate
  refine ⟨c, hc, gates, directives, fragment, hleads.of_subset fun n hn ↦
    absurd hn List.not_mem_nil, hf, fun {P} hP ↦ ?_⟩
  have hsums := (henters.snoc hpass).forall_typeSet_iff (Scope.sound_ofField rawType) hP
  refine hsums.trans (and_iff_right fun c hmem ↦ ?_)
  cases NameSet.mem_singleton.mp hmem
  exact hP rawType (covers_rawType h)

/-- **The fields that execution collects are the occurrences that apply and whose conditions
hold.** -/
theorem mem_collectFields_iff {t : Name} (ht : t ∈ s.fieldTypes) (v : Name → Bool)
    {head : FieldHead} {beneath : List Selection} :
    (head, beneath) ∈ collectFields schema d v t (children.map Child.selection) ↔
      ∃ o ∈ s.found.occurrences, o.head = head ∧ o.selections = beneath ∧
        o.scope.condition.eval v = true ∧ ∀ c ∈ o.scope.typeSet, schema.satisfies t c = true := by
  rw [collectFields, mem_collect]
  constructor
  · rintro ⟨x, hmem, gates, hleads, hgates, hkeep⟩
    obtain ⟨c, hc, rfl⟩ := List.mem_map.mp hmem
    obtain ⟨o, ho, rfl, rfl, hsums⟩ := exists_occurrence h hc hleads.way fun g hg ↦ (hgates g hg).1
    refine ⟨o, ho, rfl, rfl, ?_, ?_⟩
    · rw [hsums.eval, hkeep, Bool.and_true, List.all_eq_true]
      exact fun g hg ↦ (hgates g hg).1
    · refine (hsums.typeSet fun c hc ↦ hc t ht).mpr fun g hg c hgc ↦ ?_
      exact Gate.applies_iff.mp (hgates g hg).2 c hgc
  · rintro ⟨o, ho, rfl, rfl, hcond, hsat⟩
    obtain ⟨c, hc, gates, hleads, hsums, -⟩ := exists_leads h ho
    rw [hsums.eval, Bool.and_eq_true, List.all_eq_true] at hcond
    refine ⟨_, List.mem_map_of_mem hc, gates, hleads, fun g hg ↦ ⟨hcond.1 g hg, ?_⟩, hcond.2⟩
    exact Gate.applies_iff.mpr ((hsums.typeSet fun c hc ↦ hc t ht).mp hsat g hg)

/-- **The fields that one comes upon are the occurrences that apply**, whatever their conditions. -/
theorem comesUpon_iff {t : Name} (ht : t ∈ s.fieldTypes) {head : FieldHead}
    {beneath : List Selection} :
    ComesUpon schema d t (· ∈ children.map Child.selection) head beneath ↔
      ∃ o ∈ s.found.occurrences, o.head = head ∧ o.selections = beneath ∧
        ∀ c ∈ o.scope.typeSet, schema.satisfies t c = true := by
  constructor
  · rintro ⟨x, gates, hmem, hleads, ⟨v, hv⟩, hgates⟩
    obtain ⟨c, hc, rfl⟩ := List.mem_map.mp hmem
    obtain ⟨o, ho, rfl, rfl, hsums⟩ := exists_occurrence h hc hleads.way hv
    refine ⟨o, ho, rfl, rfl, (hsums.typeSet fun c hc ↦ hc t ht).mpr fun g hg ↦ ?_⟩
    exact Gate.applies_iff.mp (hgates g hg)
  · rintro ⟨o, ho, rfl, rfl, hsat⟩
    obtain ⟨c, hc, gates, hleads, hsums, hopen⟩ := exists_leads h ho
    refine ⟨_, gates, List.mem_map_of_mem hc, hleads, hopen, fun g hg ↦ ?_⟩
    exact Gate.applies_iff.mpr ((hsums.typeSet fun c hc ↦ hc t ht).mp hsat g hg)

/-- **The type conditions of a survey are those that can be entered and do not cover the field.** -/
theorem mem_typeConditions_iff {c : Name} :
    c ∈ s.typeConditions ↔
      Entered d (· ∈ children.map Child.selection) c ∧ ¬ schema.Covers s.fieldTypes c := by
  obtain ⟨-, -, hfound⟩ := ofChildren_eq_ok h
  rw [mem_typeConditions]
  constructor
  · rintro ⟨e, he, hnarrows, rfl⟩
    obtain ⟨k, hk, part, -, ⟨_, _, hpart⟩, he⟩ := (contributes_of_surveyChildren hfound).2 e he
    obtain ⟨ps, hps, gates, inner, target, g, final, narrows, spread, ⟨hleads, henters⟩, hgate,
      hpass, rfl, -⟩ := hpart.of_mem_entries he
    cases List.mem_singleton.mp hps
    have hnot := hpass.narrows_iff.mp hnarrows
    have hway := henters.snoc hpass
    obtain ⟨v, hv⟩ := (hway.sound (Scope.sound_ofField rawType)).exists_eval
    rw [hway.eval, Bool.and_eq_true, List.all_eq_true] at hv
    refine ⟨?_, hnot⟩
    rcases hway.parentType_eq_or with hparent | ⟨before, g', after, heq, hg'⟩
    · exact absurd (hparent ▸ covers_rawType h) hnot
    · -- The condition may be repeated by gates without one of their own, so it stands at an earlier
      -- gate.
      obtain ⟨mid, hmid, hmidGate⟩ := hleads.exists_gate hgate heq
      refine ⟨k.selection, before, mid, g', v, List.mem_map_of_mem hk,
        hmid.of_subset fun n hn ↦ absurd hn List.not_mem_nil, hmidGate, hg', fun x hx ↦ hv.2 x ?_⟩
      rw [heq, ← List.singleton_append, ← List.append_assoc]
      exact List.mem_append_left _ hx
  · rintro ⟨⟨x, gates, target, g, v, hx, hleads, hgate, hgc, hv⟩, hnot⟩
    obtain ⟨k, hk, rfl⟩ := List.mem_map.mp hx
    obtain ⟨hgates, hopen⟩ := List.forall_mem_append.mp hv
    obtain ⟨expanded, hdealt, hchildren⟩ := exists_covered h
    obtain ⟨inner, henters, htarget⟩ := (hchildren k hk).reach hdealt hleads.way rfl hgates
    have hinner : inner.condition.eval v = true := by
      rw [henters.eval, Bool.and_eq_true, List.all_eq_true]
      exact ⟨rfl, hgates⟩
    obtain ⟨final, narrows, spread, hpass, hmem⟩ :=
      htarget.entry hgate hinner (hopen g List.mem_cons_self)
    have hparent : final.parentType = c := congrArg Scope.parentType (hpass.mk_eq hgc).symm
    exact ⟨_, hmem, hpass.narrows_iff.mpr (hparent ▸ hnot), hparent⟩

/-- A type set that is noted has the raw type and, besides, type conditions of the survey. -/
theorem of_mem_typeSets {typeSet : NameSet} (ht : typeSet ∈ s.found.typeSets) :
    rawType ∈ typeSet ∧ ∀ c ∈ typeSet, c = rawType ∨ c ∈ s.typeConditions := by
  obtain ⟨-, -, hfound⟩ := ofChildren_eq_ok h
  obtain ⟨hoccurrences, hentries⟩ := contributes_of_surveyChildren hfound
  have hexplains : s.found.Explains (.ofField rawType) typeSet := by
    rcases List.mem_append.mp ht with ht | ht
    · obtain ⟨o, ho, rfl⟩ := List.mem_map.mp ht
      obtain ⟨_, _, part, hsub, ⟨_, _, hpart⟩, ho⟩ := hoccurrences o ho
      exact (hpart.explains (List.mem_append_left _ (List.mem_map_of_mem ho))).of_subset hsub
    · obtain ⟨e, he, rfl⟩ := List.mem_map.mp ht
      obtain ⟨_, _, part, hsub, ⟨_, _, hpart⟩, he⟩ := hentries e he
      exact (hpart.explains (List.mem_append_right _ (List.mem_map_of_mem he))).of_subset hsub
  refine ⟨hexplains.1 rawType (NameSet.mem_singleton.mpr rfl), fun c hc ↦ ?_⟩
  exact (hexplains.2 c hc).imp NameSet.mem_singleton.mp mem_typeConditions.mpr

theorem stands {root : List Selection} (hs : ∀ c ∈ children, Stands d root c.place c.selection) :
    ∀ o ∈ s.found.occurrences, Stands d root o.place (.field o.head o.selections) :=
  stands_of_surveyChildren (ofChildren_eq_ok h).2.2 hs

end
end Survey
end ResponseModels
