import ResponseModels.Proofs.Collect.Merge
import ResponseModels.Proofs.Collect.Scope

/-!
# What a survey finds

A survey goes through selections and notes the fields and fragments it comes upon, with the scopes
they stand in. What it notes can be reached from the selections surveyed, and what can be reached is
noted. The first of these is shown here, the second in the file on coverage.

* `Surveys`, the rules by which a survey goes on from one selection to the next, so that no other
  proof has to open `surveySelections` (`surveys_of_ok`);
* what is found can be reached, in the scope that was noted (`Surveys.of_mem_occurrences`,
  `Surveys.of_mem_entries`), and stands where it is said to stand (`Surveys.stands`).
-/

set_option autoImplicit false

namespace ResponseModels

/-! ## The rules of a survey -/

/-- The occurrence of a field that is found in a scope. -/
def Scope.occurrence (scope : Scope) (trail : Trail) (place : Place) (head : FieldHead)
    (selections : List Selection) (condition : Condition) : Occurrence :=
  { head, selections, place, path := trail.path
    scope := { scope with condition := scope.condition.and condition } }

/-- The entry of a fragment inside which the scope is `inner`. -/
def Scope.entry (inner : Scope) (narrows : Bool) (spread : Option Name) : Entry :=
  ⟨inner.parentType, inner.typeSet, narrows, spread⟩

/-- What remains of entering a named fragment: its name and the scope inside. -/
def Scope.expansion (inner : Scope) (name : Name) : Expansion :=
  ⟨name, inner.typeSet, inner.condition⟩

/-- A fragment that is spread, if the spread counts as standing directly beneath the field. -/
def Trail.spread? (t : Trail) (name : Name) : Option Name := if t.direct then some name else none

theorem Trail.eq_of_mem_spread? {t : Trail} {name n : Name} (h : n ∈ t.spread? name) :
    n = name := by
  rw [spread?] at h
  split at h
  · exact (Option.mem_some.mp h).symm
  · cases h

/-- How a survey goes on: the trail, the scope and the selections it goes through, the fragments
expanded before, what is found, and the fragments expanded after. -/
inductive Surveys (schema : Schema) (d : Document) (fieldTypes : NameSet) :
    Trail → Scope → List (Place × Selection) → List Expansion → Findings → List Expansion → Prop
  | nil (trail : Trail) (scope : Scope) (expanded : List Expansion) :
      Surveys schema d fieldTypes trail scope [] expanded .none expanded
  | field {trail : Trail} {scope : Scope} {place : Place} {head : FieldHead}
      {selections : List Selection} {rest : List (Place × Selection)} {condition : Condition}
      {later : Findings} {expanded expanded' : List Expansion}
      (directives : Condition.ofDirectives head.directives head.responseName = .ok condition)
      (after : Surveys schema d fieldTypes trail scope rest expanded later expanded') :
      Surveys schema d fieldTypes trail scope ((place, .field head selections) :: rest) expanded
        (⟨[scope.occurrence trail place head selections condition], []⟩ ++ later) expanded'
  | skipped {trail : Trail} {scope : Scope} {place : Place} {s : Selection}
      {rest : List (Place × Selection)} {g : Gate} {later : Findings}
      {expanded expanded' : List Expansion} (gate : s.gate? d = some g)
      (fresh : ∀ name directives, s = .spread name directives → name ∉ trail.path)
      (blocked : scope.Blocked schema fieldTypes g)
      (after : Surveys schema d fieldTypes trail scope rest expanded later expanded') :
      Surveys schema d fieldTypes trail scope ((place, s) :: rest) expanded later expanded'
  | inline {trail : Trail} {scope inner : Scope} {place : Place} {typeCondition : Option Name}
      {directives : List Directive} {selections : List Selection}
      {rest : List (Place × Selection)} {narrows : Bool} {inside later : Findings}
      {expanded expanded₁ expanded' : List Expansion}
      (pass : scope.Passes schema fieldTypes ⟨typeCondition, directives⟩ inner narrows)
      (within : Surveys schema d fieldTypes trail inner (place.locate selections) expanded inside
        expanded₁)
      (after : Surveys schema d fieldTypes trail scope rest expanded₁ later expanded') :
      Surveys schema d fieldTypes trail scope
        ((place, .inline typeCondition directives selections) :: rest) expanded
        (⟨[], [inner.entry narrows none]⟩ ++ inside ++ later) expanded'
  | again {trail : Trail} {scope inner : Scope} {place : Place} {name : Name}
      {directives : List Directive} {fragment : Fragment} {rest : List (Place × Selection)}
      {narrows : Bool} {later : Findings} {expanded expanded' : List Expansion}
      (found : d.fragment? name = some fragment) (fresh : name ∉ trail.path)
      (pass : scope.Passes schema fieldTypes ⟨some fragment.typeCondition, directives⟩ inner
        narrows) (before : inner.expansion name ∈ expanded)
      (after : Surveys schema d fieldTypes trail scope rest expanded later expanded') :
      Surveys schema d fieldTypes trail scope ((place, .spread name directives) :: rest) expanded
        (⟨[], [inner.entry narrows (trail.spread? name)]⟩ ++ later) expanded'
  | spread {trail : Trail} {scope inner : Scope} {place : Place} {name : Name}
      {directives : List Directive} {fragment : Fragment} {rest : List (Place × Selection)}
      {narrows : Bool} {inside later : Findings} {expanded expanded₁ expanded' : List Expansion}
      (found : d.fragment? name = some fragment) (fresh : name ∉ trail.path)
      (pass : scope.Passes schema fieldTypes ⟨some fragment.typeCondition, directives⟩ inner
        narrows) (new : inner.expansion name ∉ expanded)
      (within : Surveys schema d fieldTypes (trail.into name) inner
        ((Place.fragment name).locate fragment.selections) (expanded ++ [inner.expansion name])
        inside expanded₁)
      (after : Surveys schema d fieldTypes trail scope rest expanded₁ later expanded') :
      Surveys schema d fieldTypes trail scope ((place, .spread name directives) :: rest) expanded
        (⟨[], [inner.entry narrows (trail.spread? name)]⟩ ++ inside ++ later) expanded'

/-- A survey that ends without an error goes by the rules. -/
theorem surveys_of_ok {schema : Schema} {d : Document} {fieldTypes : NameSet} {trail : Trail}
    {scope : Scope} {selections : List (Place × Selection)} {expanded expanded' : List Expansion}
    {found : Findings}
    (h : surveySelections schema d fieldTypes trail scope selections expanded =
      .ok (found, expanded')) :
    Surveys schema d fieldTypes trail scope selections expanded found expanded' := by
  induction trail, scope, selections, expanded using surveySelections.induct d
    generalizing found expanded' with
  | case1 trail scope expanded =>
    rw [surveySelections] at h
    cases h
    exact .nil trail scope expanded
  | case2 trail scope expanded place head selections rest ih =>
    rw [surveySelections] at h
    obtain ⟨condition, hc, h⟩ := Error.bind_eq_ok.mp h
    obtain ⟨⟨later, expanded₁⟩, hlater, h⟩ := Error.bind_eq_ok.mp h
    cases h
    exact .field hc (ih hlater)
  | case3 trail scope expanded place typeCondition directives selections rest ihInside ihRest =>
    rw [surveySelections] at h
    obtain ⟨condition, hc, h⟩ := Error.bind_eq_ok.mp h
    obtain ⟨entered, hentered, h⟩ := Error.bind_eq_ok.mp h
    obtain ⟨⟨inside, expanded₁⟩, hinside, h⟩ := Error.bind_eq_ok.mp h
    obtain ⟨⟨later, expanded₂⟩, hlater, h⟩ := Error.bind_eq_ok.mp h
    cases h
    cases entered with
    | none =>
      cases hinside
      exact .skipped rfl (fun _ _ heq ↦ by cases heq) ⟨_, condition, hc, hentered⟩ (ihRest _ hlater)
    | some entered =>
      obtain ⟨⟨deeper, expanded₃⟩, hdeeper, hinside⟩ := Error.bind_eq_ok.mp hinside
      cases hinside
      have hpass : scope.Passes schema fieldTypes ⟨typeCondition, directives⟩ entered.1 entered.2 :=
        ⟨_, condition, hc, hentered⟩
      have hentry : entered.1.entry entered.2 none =
          ⟨typeCondition.getD scope.parentType, entered.1.typeSet, entered.2, none⟩ := by
        rw [Scope.entry, hpass.parentType]
      exact hentry ▸ .inline hpass (ihInside entered.1 hdeeper) (ihRest _ hlater)
  | case4 trail scope expanded place name directives rest hf =>
    rw [surveySelections] at h
    split at h
    · cases h
    · rename_i hf'
      rw [hf] at hf'
      cases hf'
  | case5 trail scope expanded place name directives rest fragment hf hp =>
    rw [surveySelections] at h
    split at h
    · cases h
    · rw [dif_pos hp] at h
      cases h
  | case6 trail scope expanded place name directives rest fragment hf hp ihInside ihRest =>
    rw [surveySelections] at h
    split at h
    · cases h
    rename_i fragment' hf'
    rw [hf] at hf'
    cases hf'
    rw [dif_neg hp] at h
    obtain ⟨condition, hc, h⟩ := Error.bind_eq_ok.mp h
    obtain ⟨entered, hentered, h⟩ := Error.bind_eq_ok.mp h
    obtain ⟨⟨inside, expanded₁⟩, hinside, h⟩ := Error.bind_eq_ok.mp h
    obtain ⟨⟨later, expanded₂⟩, hlater, h⟩ := Error.bind_eq_ok.mp h
    cases h
    cases entered with
    | none =>
      cases hinside
      have hfresh :
          ∀ name' directives', Selection.spread name directives = .spread name' directives' →
          name' ∉ trail.path := by
        rintro _ _ ⟨⟩
        exact hp
      exact .skipped (Selection.gate?_spread hf) hfresh ⟨_, condition, hc, hentered⟩
        (ihRest _ hlater)
    | some entered =>
      have hpass : scope.Passes schema fieldTypes ⟨some fragment.typeCondition, directives⟩
          entered.1 entered.2 := ⟨_, condition, hc, hentered⟩
      have hentry : entered.1.entry entered.2 (trail.spread? name) =
          ⟨fragment.typeCondition, entered.1.typeSet, entered.2,
            if trail.direct then some name else none⟩ := by
        rw [Scope.entry, hpass.parentType, Option.getD_some, Trail.spread?]
      simp only [← hentry] at hinside
      split at hinside
      · rename_i hbefore
        cases hinside
        exact .again hf hp hpass hbefore (ihRest _ hlater)
      · rename_i hnew
        obtain ⟨⟨deeper, expanded₃⟩, hdeeper, hinside⟩ := Error.bind_eq_ok.mp hinside
        cases hinside
        exact .spread hf hp hpass hnew (ihInside entered.1 hdeeper) (ihRest _ hlater)

/-- A survey that goes by the rules ends without an error. -/
theorem Surveys.ok {schema : Schema} {d : Document} {fieldTypes : NameSet} {trail : Trail}
    {scope : Scope} {selections : List (Place × Selection)} {expanded expanded' : List Expansion}
    {found : Findings}
    (h : Surveys schema d fieldTypes trail scope selections expanded found expanded') :
    surveySelections schema d fieldTypes trail scope selections expanded =
      .ok (found, expanded') := by
  induction h with
  | nil trail scope expanded => rw [surveySelections]
  | field directives after ih =>
    rw [surveySelections]
    exact Error.bind_eq_ok.mpr ⟨_, directives, Error.bind_eq_ok.mpr ⟨_, ih, rfl⟩⟩
  | @skipped trail scope place s rest g later expanded expanded' gate fresh blocked after ih =>
    obtain ⟨selection, condition, hc, hentered⟩ := blocked
    cases s with
    | field head selections => cases gate
    | inline typeCondition directives selections =>
      cases gate
      rw [surveySelections]
      refine Error.bind_eq_ok.mpr ⟨_, Condition.ofDirectives_congr hc,
        Error.bind_eq_ok.mpr ⟨_, hentered, ?_⟩⟩
      exact Error.bind_eq_ok.mpr ⟨_, rfl, Error.bind_eq_ok.mpr ⟨_, ih, rfl⟩⟩
    | spread name directives =>
      obtain ⟨fragment, hf, rfl⟩ := Option.map_eq_some_iff.mp gate
      rw [surveySelections]
      split
      · rename_i hnone
        rw [hf] at hnone
        cases hnone
      rename_i fragment' hf'
      rw [hf] at hf'
      cases hf'
      rw [dif_neg (fresh name directives rfl)]
      refine Error.bind_eq_ok.mpr ⟨_, Condition.ofDirectives_congr hc,
        Error.bind_eq_ok.mpr ⟨_, hentered, ?_⟩⟩
      exact Error.bind_eq_ok.mpr ⟨_, rfl, Error.bind_eq_ok.mpr ⟨_, ih, rfl⟩⟩
  | inline pass within after ihWithin ihAfter =>
    rw [Scope.entry, pass.parentType, surveySelections]
    obtain ⟨selection, condition, hc, hentered⟩ := pass
    refine Error.bind_eq_ok.mpr ⟨_, Condition.ofDirectives_congr hc,
      Error.bind_eq_ok.mpr ⟨_, hentered, ?_⟩⟩
    refine Error.bind_eq_ok.mpr ⟨_, Error.bind_eq_ok.mpr ⟨_, ihWithin, rfl⟩, ?_⟩
    exact Error.bind_eq_ok.mpr ⟨_, ihAfter, rfl⟩
  | again found fresh pass before after ih =>
    rw [Scope.entry, pass.parentType, surveySelections]
    obtain ⟨selection, condition, hc, hentered⟩ := pass
    split
    · rename_i hnone
      rw [found] at hnone
      cases hnone
    rename_i fragment' hf'
    rw [found] at hf'
    cases hf'
    rw [dif_neg fresh]
    refine Error.bind_eq_ok.mpr ⟨_, Condition.ofDirectives_congr hc,
      Error.bind_eq_ok.mpr ⟨_, hentered, ?_⟩⟩
    exact Error.bind_eq_ok.mpr ⟨_, if_pos before, Error.bind_eq_ok.mpr ⟨_, ih, rfl⟩⟩
  | spread found fresh pass new within after ihWithin ihAfter =>
    rw [Scope.entry, pass.parentType, surveySelections]
    obtain ⟨selection, condition, hc, hentered⟩ := pass
    split
    · rename_i hnone
      rw [found] at hnone
      cases hnone
    rename_i fragment' hf'
    rw [found] at hf'
    cases hf'
    rw [dif_neg fresh]
    refine Error.bind_eq_ok.mpr ⟨_, Condition.ofDirectives_congr hc,
      Error.bind_eq_ok.mpr ⟨_, hentered, ?_⟩⟩
    refine Error.bind_eq_ok.mpr ⟨_, (if_neg new).trans (Error.bind_eq_ok.mpr ⟨_, ihWithin, rfl⟩),
      ?_⟩
    exact Error.bind_eq_ok.mpr ⟨_, ihAfter, rfl⟩

/-! ## What is found can be reached -/

theorem Place.mem_of_mem_locate {p : Place} {selections : List Selection} {ps : Place × Selection}
    (h : ps ∈ p.locate selections) : ps.2 ∈ selections :=
  p.map_snd_locate selections ▸ List.mem_map_of_mem h

section reaches

variable {schema : Schema} {d : Document} {fieldTypes : NameSet}

/-- A selection leads to another, and the scope at the end is `final`. -/
def Scope.Reaches (schema : Schema) (d : Document) (fieldTypes : NameSet) (path : List Name)
    (scope : Scope) (s : Selection) (gates : List Gate) (final : Scope) (target : Selection) :
    Prop :=
  Leads d path s gates target ∧ scope.Enters schema fieldTypes gates final

theorem Scope.Reaches.here (path : List Name) (scope : Scope) (s : Selection) :
    scope.Reaches schema d fieldTypes path s [] scope s :=
  ⟨.here path s, .nil scope⟩

theorem Scope.Reaches.inline {path : List Name} {scope inner final : Scope} {s target : Selection}
    {typeCondition : Option Name} {directives : List Directive} {selections : List Selection}
    {narrows : Bool} {gates : List Gate}
    (pass : scope.Passes schema fieldTypes ⟨typeCondition, directives⟩ inner narrows)
    (mem : s ∈ selections) (rest : inner.Reaches schema d fieldTypes path s gates final target) :
    scope.Reaches schema d fieldTypes path (.inline typeCondition directives selections)
      (⟨typeCondition, directives⟩ :: gates) final target :=
  ⟨.inline mem rest.1, .cons pass rest.2⟩

theorem Scope.Reaches.spread {path : List Name} {scope inner final : Scope} {s target : Selection}
    {name : Name} {directives : List Directive} {fragment : Fragment} {narrows : Bool}
    {gates : List Gate} (found : d.fragment? name = some fragment) (fresh : name ∉ path)
    (pass : scope.Passes schema fieldTypes ⟨some fragment.typeCondition, directives⟩ inner narrows)
    (mem : s ∈ fragment.selections)
    (rest : inner.Reaches schema d fieldTypes (path ++ [name]) s gates final target) :
    scope.Reaches schema d fieldTypes path (.spread name directives)
      (⟨some fragment.typeCondition, directives⟩ :: gates) final target :=
  ⟨.spread found fresh mem rest.1, .cons pass rest.2⟩

end reaches

namespace Surveys

variable {schema : Schema} {d : Document} {fieldTypes : NameSet} {trail : Trail} {scope : Scope}
  {selections : List (Place × Selection)} {expanded expanded' : List Expansion} {found : Findings}

/-- A field that is found can be reached, and the scope noted is the scope there with its own
condition. -/
theorem of_mem_occurrences
    (h : Surveys schema d fieldTypes trail scope selections expanded found expanded')
    {o : Occurrence} (ho : o ∈ found.occurrences) :
    ∃ ps ∈ selections, ∃ gates inner condition,
      scope.Reaches schema d fieldTypes trail.path ps.2 gates inner (.field o.head o.selections) ∧
      Condition.ofDirectives o.head.directives o.head.responseName = .ok condition ∧
      o.scope = { inner with condition := inner.condition.and condition } := by
  induction h with
  | nil => exact absurd ho List.not_mem_nil
  | @field trail scope place head selections rest condition _ _ _ directives _ ih =>
    rcases List.mem_cons.mp ho with rfl | ho
    · exact ⟨_, List.mem_cons_self, [], scope, condition, .here _ _ _, directives, rfl⟩
    · obtain ⟨ps, hps, h⟩ := ih ho
      exact ⟨ps, List.mem_cons_of_mem _ hps, h⟩
  | skipped _ _ _ _ ih =>
    obtain ⟨ps, hps, h⟩ := ih ho
    exact ⟨ps, List.mem_cons_of_mem _ hps, h⟩
  | inline pass _ _ ihWithin ihAfter =>
    rcases List.mem_append.mp ho with ho | ho
    · obtain ⟨ps, hps, gates, inner, condition, hreach, h⟩ := ihWithin ho
      exact ⟨_, List.mem_cons_self, _, inner, condition,
        hreach.inline pass (Place.mem_of_mem_locate hps), h⟩
    · obtain ⟨ps, hps, h⟩ := ihAfter ho
      exact ⟨ps, List.mem_cons_of_mem _ hps, h⟩
  | again _ _ _ _ _ ih =>
    obtain ⟨ps, hps, h⟩ := ih ho
    exact ⟨ps, List.mem_cons_of_mem _ hps, h⟩
  | spread hf fresh pass _ _ _ ihWithin ihAfter =>
    rcases List.mem_append.mp ho with ho | ho
    · obtain ⟨ps, hps, gates, inner, condition, hreach, h⟩ := ihWithin ho
      exact ⟨_, List.mem_cons_self, _, inner, condition,
        hreach.spread hf fresh pass (Place.mem_of_mem_locate hps), h⟩
    · obtain ⟨ps, hps, h⟩ := ihAfter ho
      exact ⟨ps, List.mem_cons_of_mem _ hps, h⟩

/-- A fragment that is entered can be reached, and what is noted is the scope inside, and the name,
if any, that is spread there. -/
theorem of_mem_entries
    (h : Surveys schema d fieldTypes trail scope selections expanded found expanded')
    {e : Entry} (he : e ∈ found.entries) :
    ∃ ps ∈ selections, ∃ gates inner target g final narrows spread,
      scope.Reaches schema d fieldTypes trail.path ps.2 gates inner target ∧
      target.gate? d = some g ∧ inner.Passes schema fieldTypes g final narrows ∧
      e = final.entry narrows spread ∧
      ∀ n ∈ spread, ∃ directives, target = .spread n directives := by
  induction h with
  | nil => exact absurd he List.not_mem_nil
  | field _ _ ih =>
    obtain ⟨ps, hps, h⟩ := ih he
    exact ⟨ps, List.mem_cons_of_mem _ hps, h⟩
  | skipped _ _ _ _ ih =>
    obtain ⟨ps, hps, h⟩ := ih he
    exact ⟨ps, List.mem_cons_of_mem _ hps, h⟩
  | inline pass _ _ ihWithin ihAfter =>
    rcases List.mem_cons.mp he with rfl | he
    · exact ⟨_, List.mem_cons_self, [], _, _, _, _, _, _, .here _ _ _, rfl, pass, rfl,
        fun n hn ↦ by cases hn⟩
    rcases List.mem_append.mp he with he | he
    · obtain ⟨ps, hps, gates, inner, target, g, final, narrows, spread, hreach, h⟩ := ihWithin he
      exact ⟨_, List.mem_cons_self, _, inner, target, g, final, narrows, spread,
        hreach.inline pass (Place.mem_of_mem_locate hps), h⟩
    · obtain ⟨ps, hps, h⟩ := ihAfter he
      exact ⟨ps, List.mem_cons_of_mem _ hps, h⟩
  | again hf _ pass _ _ ih =>
    rcases List.mem_cons.mp he with rfl | he
    · exact ⟨_, List.mem_cons_self, [], _, _, _, _, _, _, .here _ _ _,
        Selection.gate?_spread hf, pass, rfl, fun n hn ↦
          ⟨_, congrArg (Selection.spread · _) (Trail.eq_of_mem_spread? hn).symm⟩⟩
    · obtain ⟨ps, hps, h⟩ := ih he
      exact ⟨ps, List.mem_cons_of_mem _ hps, h⟩
  | spread hf fresh pass _ _ _ ihWithin ihAfter =>
    rcases List.mem_cons.mp he with rfl | he
    · exact ⟨_, List.mem_cons_self, [], _, _, _, _, _, _, .here _ _ _,
        Selection.gate?_spread hf, pass, rfl, fun n hn ↦
          ⟨_, congrArg (Selection.spread · _) (Trail.eq_of_mem_spread? hn).symm⟩⟩
    rcases List.mem_append.mp he with he | he
    · obtain ⟨ps, hps, gates, inner, target, g, final, narrows, spread, hreach, h⟩ := ihWithin he
      exact ⟨_, List.mem_cons_self, _, inner, target, g, final, narrows, spread,
        hreach.spread hf fresh pass (Place.mem_of_mem_locate hps), h⟩
    · obtain ⟨ps, hps, h⟩ := ihAfter he
      exact ⟨ps, List.mem_cons_of_mem _ hps, h⟩

/-- If the selections stand at their places, the fields found do. -/
theorem stands (h : Surveys schema d fieldTypes trail scope selections expanded found expanded')
    {root : List Selection} (hs : ∀ ps ∈ selections, Stands d root ps.1 ps.2) :
    ∀ o ∈ found.occurrences, Stands d root o.place (.field o.head o.selections) := by
  induction h with
  | nil => exact fun o ho ↦ absurd ho List.not_mem_nil
  | field _ _ ih =>
    obtain ⟨hfirst, hrest⟩ := List.forall_mem_cons.mp hs
    exact List.forall_mem_cons.mpr ⟨hfirst, ih hrest⟩
  | skipped _ _ _ _ ih => exact ih (List.forall_mem_cons.mp hs).2
  | inline _ _ _ ihWithin ihAfter =>
    obtain ⟨hfirst, hrest⟩ := List.forall_mem_cons.mp hs
    have hinside := hfirst.selectionsAt rfl
    exact List.forall_mem_append.mpr
      ⟨ihWithin fun ps hps ↦ .of_mem_locate hinside hps, ihAfter hrest⟩
  | again _ _ _ _ _ ih => exact ih (List.forall_mem_cons.mp hs).2
  | @spread _ _ _ _ name _ fragment _ _ _ _ _ _ _ hf _ _ _ _ _ ihWithin ihAfter =>
    have hinside : selectionsAt d root (Place.fragment name).owner (Place.fragment name).steps =
        some fragment.selections := by
      simp only [Place.fragment, selectionsAt, hf, Option.map_some]
    exact List.forall_mem_append.mpr ⟨ihWithin fun ps hps ↦ .of_mem_locate hinside hps,
      ihAfter (List.forall_mem_cons.mp hs).2⟩

end Surveys
end ResponseModels
