import ResponseModels.Proofs.Collect.FieldSurvey
import ResponseModels.Proofs.Collect.Mirror
import ResponseModels.Proofs.Inlining

/-!
# Surveys without memory

A survey remembers which fragments it expanded and does not expand them again in the same scope.
`Walks` are the rules of a survey that remembers nothing: it enters whatever can be entered, and
what it yields depends on the selections alone, not on where they stand or which fragments are
around them.

* **A survey finds what a walk yields**, up to repetition: what it leaves out it has found before
  (`Surveys.walks`, `walks_of_surveyChildren`).
* Where selections fit on their paths, a survey succeeds if there is a walk (`Walks.exists_surveys`,
  `exists_surveyChildren`).
* Walks through selections that are seen alike yield what is seen alike (`Walks.of_seenAlike`), and
  a walk does not notice if spreads are inlined (`Walks.of_unnoticed`,
  `Selection.unnoticed_inlines`).
-/

set_option autoImplicit false

namespace ResponseModels

/-- The selections inside an inline fragment or a fragment that is spread. -/
def Selection.opened? (d : Document) : Selection → Option (List Selection)
  | .field .. => none
  | .inline _ _ selections => some selections
  | .spread name _ => (d.fragment? name).map Fragment.selections

/-! ## What a walk yields -/

/-- The fields that are seen, with what is selected beneath them, and the fragments that are
entered. -/
abbrev Yield := Sightings ((FieldHead × Scope) × List Selection) (Name × NameSet × Bool)

/-- What is left of findings if one does not look at where things were found. -/
def Findings.yield (found : Findings) : Yield :=
  ⟨found.occurrences.map fun o ↦ (o.sight, o.selections), found.entries.map Entry.sight⟩

theorem Findings.yield_append (a b : Findings) : (a ++ b).yield = a.yield ++ b.yield :=
  congrArg₂ Sightings.mk List.map_append List.map_append

theorem Findings.map_fst_yield (found : Findings) :
    found.yield.fields.map Prod.fst = found.occurrences.map Occurrence.sight := by
  rw [yield, List.map_map]
  rfl

/-! ## Walks -/

/-- How a walk goes on: the scope, the selections it goes through, and what it yields. -/
inductive Walks (schema : Schema) (d : Document) (fieldTypes : NameSet) :
    Scope → List Selection → Yield → Prop
  | nil (scope : Scope) : Walks schema d fieldTypes scope [] .none
  | field {scope : Scope} {head : FieldHead} {selections rest : List Selection}
      {condition : Condition} {later : Yield}
      (directives : Condition.ofDirectives head.directives head.responseName = .ok condition)
      (after : Walks schema d fieldTypes scope rest later) :
      Walks schema d fieldTypes scope (.field head selections :: rest)
        (⟨[((head, { scope with condition := scope.condition.and condition }), selections)], []⟩ ++
          later)
  | skipped {scope : Scope} {s : Selection} {rest : List Selection} {g : Gate} {later : Yield}
      (gate : s.gate? d = some g) (blocked : scope.Blocked schema fieldTypes g)
      (after : Walks schema d fieldTypes scope rest later) :
      Walks schema d fieldTypes scope (s :: rest) later
  | entered {scope inner : Scope} {s : Selection} {rest l : List Selection} {g : Gate}
      {narrows : Bool} {inside later : Yield} (gate : s.gate? d = some g)
      (opened : s.opened? d = some l) (pass : scope.Passes schema fieldTypes g inner narrows)
      (within : Walks schema d fieldTypes inner l inside)
      (after : Walks schema d fieldTypes scope rest later) :
      Walks schema d fieldTypes scope (s :: rest)
        (⟨[], [(inner.parentType, inner.typeSet, narrows)]⟩ ++ inside ++ later)

namespace Walks

variable {schema : Schema} {d : Document} {fieldTypes : NameSet} {scope : Scope}
  {l l' m : List Selection} {y z : Yield}

/-- There is one walk through selections. -/
theorem unique (h : Walks schema d fieldTypes scope l y)
    (h' : Walks schema d fieldTypes scope l z) : y = z := by
  induction h generalizing z with
  | nil =>
    cases h'
    rfl
  | field directives after ih =>
    cases h' with
    | field directives' after' =>
      cases directives.symm.trans directives'
      rw [ih after']
    | skipped gate => cases gate
    | entered gate => cases gate
  | skipped gate blocked after ih =>
    cases h' with
    | field => cases gate
    | skipped gate' blocked' after' => exact ih after'
    | entered gate' opened pass within after' =>
      cases gate.symm.trans gate'
      exact absurd pass blocked.not_passes
  | entered gate opened pass within after ihWithin ihAfter =>
    cases h' with
    | field => cases gate
    | skipped gate' blocked after' =>
      cases gate.symm.trans gate'
      exact absurd pass blocked.not_passes
    | entered gate' opened' pass' within' after' =>
      cases gate.symm.trans gate'
      cases opened.symm.trans opened'
      obtain ⟨rfl, rfl⟩ := pass.unique pass'
      rw [ihWithin within', ihAfter after']

theorem append (h : Walks schema d fieldTypes scope l y)
    (h' : Walks schema d fieldTypes scope m z) :
    Walks schema d fieldTypes scope (l ++ m) (y ++ z) := by
  induction h with
  | nil => exact h'
  | field directives _ ih =>
    rw [Sightings.append_assoc]
    exact .field directives (ih h')
  | skipped gate blocked _ ih => exact .skipped gate blocked (ih h')
  | entered gate opened pass within _ _ ih =>
    rw [Sightings.append_assoc]
    exact .entered gate opened pass within (ih h')

/-- The walk through selections is made of the walks through each. -/
theorem exists_each (h : Walks schema d fieldTypes scope l y) :
    ∃ ys, List.Forall₂ (fun s y ↦ Walks schema d fieldTypes scope [s] y) l ys ∧
      y = ⟨ys.flatMap Sightings.fields, ys.flatMap Sightings.entries⟩ := by
  induction h with
  | nil => exact ⟨[], .nil, rfl⟩
  | field directives _ ih =>
    obtain ⟨ys, hys, rfl⟩ := ih
    exact ⟨_ :: ys, .cons (.field directives (.nil _)) hys, rfl⟩
  | skipped gate blocked _ ih =>
    obtain ⟨ys, hys, rfl⟩ := ih
    exact ⟨_ :: ys, .cons (.skipped gate blocked (.nil _)) hys, rfl⟩
  | entered gate opened pass within _ _ ih =>
    obtain ⟨ys, hys, rfl⟩ := ih
    refine ⟨_ :: ys, .cons (.entered gate opened pass within (.nil _)) hys, ?_⟩
    rw [Sightings.append_none]
    rfl

theorem of_each {ys : List Yield}
    (h : List.Forall₂ (fun s y ↦ Walks schema d fieldTypes scope [s] y) l ys) :
    Walks schema d fieldTypes scope l ⟨ys.flatMap Sightings.fields,
      ys.flatMap Sightings.entries⟩ := by
  induction h with
  | nil => exact .nil scope
  | cons hy _ ih => exact append hy ih

/-- **Walks through selections that are seen alike** yield what is seen alike. -/
theorem of_seenAlike (h : Walks schema d fieldTypes scope l y) (hl : SeenAlike l m) :
    ∃ z, Walks schema d fieldTypes scope m z ∧ y.Alike z := by
  obtain ⟨ys, hys, rfl⟩ := h.exists_each
  obtain ⟨zs, hzs, halike⟩ :=
    hl.exists_forall₂ (R := fun s y ↦ Walks schema d fieldTypes scope [s] y) unique hys
  exact ⟨_, of_each hzs, halike.flatMap _, halike.flatMap _⟩

end Walks

/-! ## Walks and inlining -/

/-- A relation between selections that a walk does not notice: of fields it relates what is selected
beneath, and gates are the same with related selections inside. -/
structure Selection.Unnoticed (d : Document) (R : Selection → Selection → Prop) : Prop where
  /-- A field is related to the same field, with related selections beneath. -/
  field {head : FieldHead} {l : List Selection} {s' : Selection} (h : R (.field head l) s') :
    ∃ l', s' = .field head l' ∧ List.Forall₂ R l l'
  /-- Related selections have the same gate. -/
  gate? {s s' : Selection} (h : R s s') : s.gate? d = s'.gate? d
  /-- What is inside is related. -/
  opened? {s s' : Selection} {l : List Selection} (h : R s s') (hl : s.opened? d = some l) :
    ∃ l', s'.opened? d = some l' ∧ List.Forall₂ R l l'

/-- Two yields are the same, except that what is selected beneath the fields is related. -/
structure Yield.Related (R : Selection → Selection → Prop) (y z : Yield) : Prop where
  /-- The fields are written the same in the same scopes, and what is selected beneath them is
  related. -/
  fields : List.Forall₂ (fun a b ↦ a.1 = b.1 ∧ List.Forall₂ R a.2 b.2) y.fields z.fields
  /-- The fragments that are entered are the same. -/
  entries : y.entries = z.entries

theorem Yield.Related.append {R : Selection → Selection → Prop} {y z y' z' : Yield}
    (h : y.Related R z) (h' : y'.Related R z') : (y ++ y').Related R (z ++ z') :=
  ⟨List.rel_append h.fields h'.fields, congrArg₂ _ h.entries h'.entries⟩

theorem Walks.of_unnoticed {schema : Schema} {d : Document} {fieldTypes : NameSet} {scope : Scope}
    {l l' : List Selection} {y : Yield} {R : Selection → Selection → Prop}
    (hR : Selection.Unnoticed d R) (h : Walks schema d fieldTypes scope l y)
    (hl : List.Forall₂ R l l') :
    ∃ z, Walks schema d fieldTypes scope l' z ∧ y.Related R z := by
  induction h generalizing l' with
  | nil =>
    cases hl
    exact ⟨.none, .nil _, .nil, rfl⟩
  | field directives _ ih =>
    cases hl with
    | cons hs hrest =>
      obtain ⟨beneath, rfl, each⟩ := hR.field hs
      obtain ⟨z, hz, hy⟩ := ih hrest
      exact ⟨_, .field directives hz, .append ⟨.cons ⟨rfl, each⟩ .nil, rfl⟩ hy⟩
  | skipped gate blocked _ ih =>
    cases hl with
    | cons hs hrest =>
      obtain ⟨z, hz, hy⟩ := ih hrest
      exact ⟨z, .skipped (hR.gate? hs ▸ gate) blocked hz, hy⟩
  | entered gate opened pass _ _ ihWithin ihAfter =>
    cases hl with
    | cons hs hrest =>
      obtain ⟨inside, hopened, each⟩ := hR.opened? hs opened
      obtain ⟨z, hz, hy⟩ := ihWithin each
      obtain ⟨z', hz', hy'⟩ := ihAfter hrest
      exact ⟨_, .entered (hR.gate? hs ▸ gate) hopened pass hz hz',
        .append (.append ⟨.nil, rfl⟩ hy) hy'⟩

/-- **A walk does not notice if spreads are inlined.** -/
theorem Selection.unnoticed_inlines (d : Document) : Unnoticed d (Inlines d) where
  field h := by
    cases h with
    | field _ each => exact ⟨_, rfl, each⟩
  gate? h := by
    cases h with
    | field | inline => rfl
    | spread _ found => exact gate?_spread found
  opened? h hl := by
    cases h with
    | field => cases hl
    | inline _ _ each =>
      cases hl
      exact ⟨_, rfl, each⟩
    | spread _ found each =>
      obtain ⟨f, hf, rfl⟩ := Option.map_eq_some_iff.mp hl
      cases found.symm.trans hf
      exact ⟨_, rfl, each⟩

/-- Nor does it notice if they are put back. -/
theorem Selection.unnoticed_flip_inlines (d : Document) : Unnoticed d (flip (Inlines d)) where
  field h := by
    cases h with
    | field _ each => exact ⟨_, rfl, each.flip⟩
  gate? h := ((unnoticed_inlines d).gate? h).symm
  opened? h hl := by
    cases h with
    | field => cases hl
    | inline _ _ each =>
      cases hl
      exact ⟨_, rfl, each.flip⟩
    | spread _ found each =>
      cases hl
      exact ⟨_, Option.map_eq_some_iff.mpr ⟨_, found, rfl⟩, each.flip⟩

/-! ## Walks and surveys -/

/-- A fragment that was expanded is done with: what a walk through it yields has been seen. -/
def Expansion.Walked (schema : Schema) (d : Document) (fieldTypes : NameSet) (seen : Yield)
    (e : Expansion) : Prop :=
  ∃ f y, d.fragment? e.fragment = some f ∧
    Walks schema d fieldTypes ⟨e.typeSet, f.typeCondition, e.condition⟩ f.selections y ∧
    y.SeenIn seen

section

variable {schema : Schema} {d : Document} {fieldTypes : NameSet}

theorem Expansion.Walked.append_right {seen : Yield} {e : Expansion}
    (h : e.Walked schema d fieldTypes seen) (more : Yield) :
    e.Walked schema d fieldTypes (seen ++ more) := by
  obtain ⟨f, y, hf, hy, hseen⟩ := h
  exact ⟨f, y, hf, hy, hseen.append_right more⟩

/-- **A survey finds what a walk yields**, up to what was seen before, if the fragments expanded
before are done with or are those on the path. -/
theorem Surveys.walks {trail : Trail} {scope : Scope} {selections : List (Place × Selection)}
    {expanded expanded' : List Expansion} {found : Findings}
    (h : Surveys schema d fieldTypes trail scope selections expanded found expanded') {seen : Yield}
    (hbefore : ∀ e ∈ expanded, e.fragment ∈ trail.path ∨ e.Walked schema d fieldTypes seen) :
    ∃ y, Walks schema d fieldTypes scope (selections.map Prod.snd) y ∧
      (seen ++ found.yield).Alike (seen ++ y) ∧
      ∀ e ∈ expanded', e ∈ expanded ∨ e.Walked schema d fieldTypes (seen ++ found.yield) := by
  induction h generalizing seen with
  | nil trail scope expanded => exact ⟨.none, .nil scope, .refl _, fun e he ↦ .inl he⟩
  | field directives after ih =>
    rw [Findings.yield_append, ← Sightings.append_assoc]
    obtain ⟨y, hy, halike, hafter⟩ :=
      ih fun e he ↦ (hbefore e he).imp_right fun hw ↦ hw.append_right _
    refine ⟨_, .field directives hy, ?_, hafter⟩
    rw [← Sightings.append_assoc]
    exact halike
  | skipped gate fresh blocked after ih =>
    obtain ⟨y, hy, halike, hafter⟩ := ih hbefore
    exact ⟨y, .skipped gate blocked hy, halike, hafter⟩
  | inline pass within after ihWithin ihAfter =>
    rw [Findings.yield_append, Findings.yield_append, Sightings.append_assoc,
      ← Sightings.append_assoc seen]
    obtain ⟨y, hy, halike, hwithin⟩ :=
      ihWithin fun e he ↦ (hbefore e he).imp_right fun hw ↦ hw.append_right _
    obtain ⟨z, hz, halike', hafter⟩ := ihAfter fun e he ↦ (hwithin e he).elim
      (fun he ↦ (hbefore e he).imp_right fun hw ↦ (hw.append_right _).append_right _) .inr
    rw [Place.map_snd_locate] at hy
    refine ⟨_, .entered rfl rfl pass hy hz, ?_, fun e he ↦ ?_⟩
    · rw [Sightings.append_assoc _ y, ← Sightings.append_assoc seen]
      exact halike.chain halike'
    · rw [← Sightings.append_assoc]
      exact (hafter e he).elim (fun he ↦ (hwithin e he).imp_right fun hw ↦ hw.append_right _) .inr
  | @again _ _ _ _ _ _ fragment _ _ _ _ _ found fresh pass before after ih =>
    rw [Findings.yield_append, ← Sightings.append_assoc]
    obtain ⟨f, y, hf, hy, hseen⟩ := (hbefore _ before).resolve_left fresh
    cases found.symm.trans hf
    obtain ⟨z, hz, halike, hafter⟩ :=
      ih fun e he ↦ (hbefore e he).imp_right fun hw ↦ hw.append_right _
    -- What the fragment yields has been seen, so it can be put in once more.
    refine ⟨_, .entered (Selection.gate?_spread found)
      (Option.map_eq_some_iff.mpr ⟨fragment, found, rfl⟩) pass (pass.mk_eq rfl ▸ hy) hz, ?_, hafter⟩
    rw [Sightings.append_assoc _ y, ← Sightings.append_assoc seen]
    exact halike.trans (Sightings.Alike.absorb z (hseen.append_right _)).symm
  | @spread trail _ inner _ name _ fragment _ narrows inside _ expanded expanded₁ _ found fresh pass
      _ _ _ ihWithin ihAfter =>
    rw [Findings.yield_append, Findings.yield_append, Sightings.append_assoc,
      ← Sightings.append_assoc seen]
    let here : Yield := ⟨[], [(inner.parentType, inner.typeSet, narrows)]⟩
    have hbeforeWithin : ∀ e ∈ expanded ++ [inner.expansion name],
        e.fragment ∈ (trail.into name).path ∨ e.Walked schema d fieldTypes (seen ++ here) := by
      intro e he
      rcases List.mem_append.mp he with he | he
      · exact (hbefore e he).imp (List.mem_append_left _) fun hw ↦ hw.append_right _
      · rw [List.mem_singleton.mp he]
        exact .inl (List.mem_append_right _ (List.mem_singleton_self name))
    obtain ⟨y, hy, halike, hwithin⟩ := ihWithin hbeforeWithin
    rw [Place.map_snd_locate] at hy
    -- By now the fragment is done with.
    have hdone : ∀ e ∈ expanded₁, e ∈ expanded ∨
        e.Walked schema d fieldTypes (seen ++ here ++ inside.yield) := by
      intro e he
      rcases hwithin e he with he | hw
      · rcases List.mem_append.mp he with he | he
        · exact .inl he
        · rw [List.mem_singleton.mp he]
          exact .inr ⟨fragment, y, found, (pass.mk_eq rfl).symm ▸ hy, halike.seenIn_append⟩
      · exact .inr hw
    obtain ⟨z, hz, halike', hafter⟩ := ihAfter fun e he ↦ (hdone e he).elim
      (fun he ↦ (hbefore e he).imp_right fun hw ↦ (hw.append_right _).append_right _) .inr
    refine ⟨_, .entered (Selection.gate?_spread found)
      (Option.map_eq_some_iff.mpr ⟨fragment, found, rfl⟩) pass hy hz, ?_, fun e he ↦ ?_⟩
    · rw [Sightings.append_assoc _ y, ← Sightings.append_assoc seen]
      exact halike.chain halike'
    · rw [← Sightings.append_assoc]
      exact (hafter e he).elim (fun he ↦ (hdone e he).imp_right fun hw ↦ hw.append_right _) .inr

/-- Where selections fit on the path, **a survey succeeds if there is a walk**. -/
theorem Walks.exists_surveys {scope : Scope} {l : List Selection} {y : Yield}
    (h : Walks schema d fieldTypes scope l y) {trail : Trail}
    {selections : List (Place × Selection)} (hl : selections.map Prod.snd = l)
    (hfits : ∀ ps ∈ selections, Selection.Fits d trail.path ps.2) (expanded : List Expansion) :
    ∃ found expanded', Surveys schema d fieldTypes trail scope selections expanded found
      expanded' := by
  induction h generalizing trail selections expanded with
  | nil scope =>
    cases List.map_eq_nil_iff.mp hl
    exact ⟨_, _, .nil trail scope expanded⟩
  | field directives after ih =>
    obtain ⟨⟨place, _⟩, rest, rfl, rfl, hrest⟩ := List.map_eq_cons_iff.mp hl
    obtain ⟨later, expanded', hlater⟩ := ih hrest (List.forall_mem_cons.mp hfits).2 expanded
    exact ⟨_, _, .field directives hlater⟩
  | skipped gate blocked after ih =>
    obtain ⟨⟨place, s⟩, rest, rfl, rfl, hrest⟩ := List.map_eq_cons_iff.mp hl
    obtain ⟨hs, hfits⟩ := List.forall_mem_cons.mp hfits
    obtain ⟨later, expanded', hlater⟩ := ih hrest hfits expanded
    refine ⟨_, _, .skipped gate (fun name directives heq ↦ ?_) blocked hlater⟩
    cases heq
    exact hs.fresh
  | @entered _ inner _ _ _ _ _ _ _ gate opened pass within after ihWithin ihAfter =>
    obtain ⟨⟨place, s⟩, rest, rfl, rfl, hrest⟩ := List.map_eq_cons_iff.mp hl
    obtain ⟨hs, hlater⟩ := List.forall_mem_cons.mp hfits
    cases s with
    | field => cases gate
    | inline typeCondition directives selections =>
      cases gate
      cases opened
      obtain ⟨inside, expanded₁, hwithin⟩ :=
        ihWithin (place.map_snd_locate _) (fun ps hps ↦ hs.inline (Place.mem_of_mem_locate hps))
          expanded
      obtain ⟨later, expanded', hafter⟩ := ihAfter hrest hlater expanded₁
      exact ⟨_, _, .inline pass hwithin hafter⟩
    | spread name directives =>
      obtain ⟨f, hf, rfl⟩ := Option.map_eq_some_iff.mp opened
      cases (Selection.gate?_spread hf).symm.trans gate
      by_cases hbefore : inner.expansion name ∈ expanded
      · obtain ⟨later, expanded', hafter⟩ := ihAfter hrest hlater expanded
        exact ⟨_, _, .again hf hs.fresh pass hbefore hafter⟩
      · have hinside : ∀ ps ∈ (Place.fragment name).locate f.selections,
            Selection.Fits d (trail.into name).path ps.2 :=
          fun ps hps ↦ hs.into hf (Place.mem_of_mem_locate hps)
        obtain ⟨inside, expanded₁, hwithin⟩ :=
          ihWithin ((Place.fragment name).map_snd_locate _) hinside
            (expanded ++ [inner.expansion name])
        obtain ⟨later, expanded', hafter⟩ := ihAfter hrest hlater expanded₁
        exact ⟨_, _, .spread hf hs.fresh pass hbefore hwithin hafter⟩

/-- If the selections fit on the path, what is selected beneath the fields found fits on theirs. -/
theorem Surveys.fits {trail : Trail} {scope : Scope} {selections : List (Place × Selection)}
    {expanded expanded' : List Expansion} {found : Findings}
    (h : Surveys schema d fieldTypes trail scope selections expanded found expanded')
    (hfits : ∀ ps ∈ selections, Selection.Fits d trail.path ps.2) :
    ∀ o ∈ found.occurrences, ∀ x ∈ o.selections, Selection.Fits d o.path x := by
  induction h with
  | nil => exact fun o ho ↦ absurd ho List.not_mem_nil
  | field _ _ ih =>
    obtain ⟨hs, hrest⟩ := List.forall_mem_cons.mp hfits
    exact List.forall_mem_cons.mpr ⟨fun x hx ↦ hs.field hx, ih hrest⟩
  | skipped _ _ _ _ ih => exact ih (List.forall_mem_cons.mp hfits).2
  | inline _ _ _ ihWithin ihAfter =>
    obtain ⟨hs, hrest⟩ := List.forall_mem_cons.mp hfits
    exact List.forall_mem_append.mpr
      ⟨ihWithin fun ps hps ↦ hs.inline (Place.mem_of_mem_locate hps), ihAfter hrest⟩
  | again _ _ _ _ _ ih => exact ih (List.forall_mem_cons.mp hfits).2
  | spread hf _ _ _ _ _ ihWithin ihAfter =>
    obtain ⟨hs, hrest⟩ := List.forall_mem_cons.mp hfits
    exact List.forall_mem_append.mpr
      ⟨ihWithin fun ps hps ↦ hs.into hf (Place.mem_of_mem_locate hps), ihAfter hrest⟩

/-! ## The children of a field -/

variable {rawType : Name} {children : List Child}

theorem walks_of_surveyChildren {expanded : List Expansion} {found : Findings}
    (h : surveyChildren schema d fieldTypes rawType children expanded = .ok found) {seen : Yield}
    (hbefore : ∀ e ∈ expanded, e.Walked schema d fieldTypes seen) :
    ∃ y, Walks schema d fieldTypes (.ofField rawType) (children.map Child.selection) y ∧
      (seen ++ found.yield).Alike (seen ++ y) := by
  induction children generalizing expanded found seen with
  | nil =>
    cases h
    exact ⟨.none, .nil _, .refl _⟩
  | cons c rest ih =>
    rw [surveyChildren] at h
    obtain ⟨⟨first, expanded₁⟩, hfirst, h⟩ := Error.bind_eq_ok.mp h
    obtain ⟨later, hlater, h⟩ := Error.bind_eq_ok.mp h
    cases h
    obtain ⟨y, hy, halike, hafter⟩ := (surveys_of_ok hfirst).walks fun e he ↦ .inr (hbefore e he)
    obtain ⟨z, hz, halike'⟩ :=
      ih hlater fun e he ↦ (hafter e he).elim (fun he ↦ (hbefore e he).append_right _) id
    rw [Findings.yield_append]
    exact ⟨_, hy.append hz, halike.chain halike'⟩

/-- The survey of a field finds what a walk through what is selected beneath it yields. -/
theorem Survey.exists_walks {s : Survey} (h : Survey.ofChildren schema d rawType children = .ok s) :
    ∃ y, Walks schema d s.fieldTypes (.ofField rawType) (children.map Child.selection) y ∧
      s.found.yield.Alike y := by
  obtain ⟨-, -, hfound⟩ := ofChildren_eq_ok h
  have hbefore : ∀ e ∈ ([] : List Expansion), e.Walked schema d s.fieldTypes .none :=
    fun e he ↦ absurd he List.not_mem_nil
  exact walks_of_surveyChildren hfound hbefore

theorem exists_surveyChildren {y : Yield}
    (h : Walks schema d fieldTypes (.ofField rawType) (children.map Child.selection) y)
    (hfits : ∀ c ∈ children, Selection.Fits d c.path c.selection) (expanded : List Expansion) :
    ∃ found, surveyChildren schema d fieldTypes rawType children expanded = .ok found := by
  obtain ⟨ys, hys, -⟩ := h.exists_each
  clear h
  induction children generalizing ys expanded with
  | nil => exact ⟨_, rfl⟩
  | cons c rest ih =>
    cases hys with
    | cons hfirst hrest =>
      obtain ⟨hc, hfits⟩ := List.forall_mem_cons.mp hfits
      obtain ⟨first, expanded₁, hsurveys⟩ :
          ∃ found expanded', Surveys schema d fieldTypes ⟨c.path, true⟩
          (.ofField rawType) [(c.place, c.selection)] expanded found expanded' :=
        hfirst.exists_surveys rfl (List.forall_mem_singleton.mpr hc) expanded
      obtain ⟨later, hlater⟩ := ih hfits expanded₁ _ hrest
      rw [surveyChildren]
      exact ⟨_, Error.bind_eq_ok.mpr ⟨_, hsurveys.ok, Error.bind_eq_ok.mpr ⟨_, hlater, rfl⟩⟩⟩

end

end ResponseModels
