import ResponseModels.Proofs.Collect.FieldSurvey
import ResponseModels.Proofs.Condition.Canonical

/-!
# What a survey finds, in terms of ways

The findings of a survey are determined, as sets, by the ways that lead from the selections surveyed
through inline fragments and spreads, and by the scopes that the gates on these ways add up to:

* the occurrences are the fields at the end of a way that can be gone (`Survey.exists_enters`,
  `Survey.exists_of_enters`);
* the entries are the fragments at the end of such a way (`Survey.exists_enters_entry`,
  `Survey.exists_entry_of_enters`);
* the fragments that count as spread directly beneath the field are those at the end of a way
  through inline fragments only (`Survey.exists_inside`, `Survey.mem_entries_of_inside`).

The scope at the end of a way depends only on the gates (`Scope.Enters.unique`). So two surveys with
the same ways have the same findings, in whatever order they come upon them.
-/

set_option autoImplicit false

namespace ResponseModels

namespace Scope

variable {schema : Schema} {fieldTypes : NameSet} {scope : Scope}

/-- The gates of a way that can be gone are all open for some values of the variables. -/
theorem Enters.exists_open {gates : List Gate} {inner : Scope}
    (h : scope.Enters schema fieldTypes gates inner) (hs : scope.Sound schema fieldTypes) :
    ∃ v, scope.condition.eval v = true ∧ inner.condition.eval v = true ∧
      ∀ g ∈ gates, included v g.directives = true := by
  obtain ⟨v, hv⟩ := (h.sound hs).exists_eval
  have heval := hv
  rw [h.eval, Bool.and_eq_true, List.all_eq_true] at heval
  exact ⟨v, heval.1, hv, heval.2⟩

end Scope

/-! ## Ways through inline fragments -/

/-- From one selection one gets to another through inline fragments only. -/
inductive Inside : Selection → List Gate → Selection → Prop
  | here (s : Selection) : Inside s [] s
  | inline {typeCondition : Option Name} {directives : List Directive} {selections : List Selection}
      {s target : Selection} {gates : List Gate} (mem : s ∈ selections)
      (rest : Inside s gates target) :
      Inside (.inline typeCondition directives selections)
        (⟨typeCondition, directives⟩ :: gates) target

namespace Surveys

variable {schema : Schema} {d : Document} {fieldTypes : NameSet} {trail : Trail} {scope : Scope}
  {selections : List (Place × Selection)} {expanded expanded' : List Expansion} {found : Findings}

/-- Inside a named fragment no spread counts as direct. -/
theorem spread_eq_none
    (h : Surveys schema d fieldTypes trail scope selections expanded found expanded')
    (hdirect : trail.direct = false) : ∀ e ∈ found.entries, e.spread = none := by
  have hspread : ∀ name, trail.spread? name = none := fun name ↦ by rw [Trail.spread?, hdirect]; rfl
  induction h with
  | nil => exact fun e he ↦ absurd he List.not_mem_nil
  | field _ _ ih => exact ih hdirect hspread
  | skipped _ _ _ _ ih => exact ih hdirect hspread
  | inline _ _ _ ihWithin ihAfter =>
    exact List.forall_mem_cons.mpr
      ⟨rfl, List.forall_mem_append.mpr ⟨ihWithin hdirect hspread, ihAfter hdirect hspread⟩⟩
  | again _ _ _ _ _ ih => exact List.forall_mem_cons.mpr ⟨hspread _, ih hdirect hspread⟩
  | spread _ _ _ _ _ _ ihWithin ihAfter =>
    exact List.forall_mem_cons.mpr
      ⟨hspread _, List.forall_mem_append.mpr ⟨ihWithin rfl fun _ ↦ rfl, ihAfter hdirect hspread⟩⟩

/-- A spread that counts as direct stands at the end of a way through inline fragments. -/
theorem exists_inside
    (h : Surveys schema d fieldTypes trail scope selections expanded found expanded') {e : Entry}
    (he : e ∈ found.entries) {n : Name} (hn : e.spread = some n) :
    ∃ ps ∈ selections, ∃ gates inner directives fragment final narrows,
      Inside ps.2 gates (.spread n directives) ∧ scope.Enters schema fieldTypes gates inner ∧
      d.fragment? n = some fragment ∧
      inner.Passes schema fieldTypes ⟨some fragment.typeCondition, directives⟩ final narrows ∧
      e = final.entry narrows (some n) := by
  induction h with
  | nil => exact absurd he List.not_mem_nil
  | field _ _ ih =>
    obtain ⟨ps, hps, h⟩ := ih he
    exact ⟨ps, List.mem_cons_of_mem _ hps, h⟩
  | skipped _ _ _ _ ih =>
    obtain ⟨ps, hps, h⟩ := ih he
    exact ⟨ps, List.mem_cons_of_mem _ hps, h⟩
  | inline pass _ _ ihWithin ihAfter =>
    rcases List.mem_cons.mp he with rfl | he
    · cases hn
    rcases List.mem_append.mp he with he | he
    · obtain ⟨ps, hps, gates, inner, directives, fragment, final, narrows, hinside, henters, h⟩ :=
        ihWithin he
      exact ⟨_, List.mem_cons_self, _, inner, directives, fragment, final, narrows,
        .inline (Place.mem_of_mem_locate hps) hinside, .cons pass henters, h⟩
    · obtain ⟨ps, hps, h⟩ := ihAfter he
      exact ⟨ps, List.mem_cons_of_mem _ hps, h⟩
  | again hf _ pass _ _ ih =>
    rcases List.mem_cons.mp he with rfl | he
    · cases Trail.eq_of_mem_spread? hn
      exact ⟨_, List.mem_cons_self, [], _, _, _, _, _, .here _, .nil _, hf, pass, congrArg _ hn⟩
    · obtain ⟨ps, hps, h⟩ := ih he
      exact ⟨ps, List.mem_cons_of_mem _ hps, h⟩
  | spread hf _ pass _ within _ ihWithin ihAfter =>
    rcases List.mem_cons.mp he with rfl | he
    · cases Trail.eq_of_mem_spread? hn
      exact ⟨_, List.mem_cons_self, [], _, _, _, _, _, .here _, .nil _, hf, pass, congrArg _ hn⟩
    rcases List.mem_append.mp he with he | he
    · rw [within.spread_eq_none rfl e he] at hn
      cases hn
    · obtain ⟨ps, hps, h⟩ := ihAfter he
      exact ⟨ps, List.mem_cons_of_mem _ hps, h⟩

/-- What stands at the end of a way through inline fragments is noted as a direct spread. -/
theorem mem_entries_of_inside
    (h : Surveys schema d fieldTypes trail scope selections expanded found expanded')
    (hdirect : trail.direct = true) {ps : Place × Selection} (hps : ps ∈ selections)
    {gates : List Gate} {inner final : Scope} {n : Name} {directives : List Directive}
    {fragment : Fragment} {narrows : Bool} (hinside : Inside ps.2 gates (.spread n directives))
    (henters : scope.Enters schema fieldTypes gates inner) (hf : d.fragment? n = some fragment)
    (hpass : inner.Passes schema fieldTypes ⟨some fragment.typeCondition, directives⟩ final
      narrows) :
    final.entry narrows (some n) ∈ found.entries := by
  induction h generalizing ps gates with
  | nil => exact absurd hps List.not_mem_nil
  | field _ _ ih =>
    rcases List.mem_cons.mp hps with rfl | hps
    · cases hinside
    · exact ih hdirect hps hinside henters
  | skipped gate _ blocked _ ih =>
    rcases List.mem_cons.mp hps with rfl | hps
    · cases hinside with
      | here =>
        cases henters
        cases gate.symm.trans (Selection.gate?_spread hf)
        exact absurd hpass blocked.not_passes
      | inline mem rest =>
        cases gate
        cases henters with
        | cons pass _ => exact absurd pass blocked.not_passes
    · exact ih hdirect hps hinside henters
  | @inline _ _ _ place _ _ selections _ _ _ _ _ _ _ pass _ _ ihWithin ihAfter =>
    refine List.mem_cons_of_mem _ (List.mem_append.mpr ?_)
    rcases List.mem_cons.mp hps with rfl | hps
    · cases hinside with
      | inline mem rest =>
        cases henters with
        | cons pass' henters =>
          obtain ⟨rfl, rfl⟩ := pass.unique pass'
          rw [← place.map_snd_locate selections] at mem
          obtain ⟨ps, hps, rfl⟩ := List.mem_map.mp mem
          exact .inl (ihWithin hdirect hps rest henters)
    · exact .inr (ihAfter hdirect hps hinside henters)
  | again hf' _ pass _ _ ih =>
    rcases List.mem_cons.mp hps with rfl | hps
    · cases hinside
      cases henters
      cases hf'.symm.trans hf
      obtain ⟨rfl, rfl⟩ := pass.unique hpass
      rw [Trail.spread?, hdirect]
      exact List.mem_cons_self
    · exact List.mem_cons_of_mem _ (ih hdirect hps hinside henters)
  | spread hf' _ pass _ _ _ _ ihAfter =>
    rcases List.mem_cons.mp hps with rfl | hps
    · cases hinside
      cases henters
      cases hf'.symm.trans hf
      obtain ⟨rfl, rfl⟩ := pass.unique hpass
      rw [Trail.spread?, hdirect]
      exact List.mem_cons_self
    · exact List.mem_cons_of_mem _ (List.mem_append_right _ (ihAfter hdirect hps hinside henters))

end Surveys

/-! ## The survey of a field -/

/-- The survey of a child contributes what it finds. -/
theorem exists_contributes {schema : Schema} {d : Document} {fieldTypes : NameSet} {rawType : Name}
    {children : List Child} {expanded : List Expansion} {found : Findings}
    (h : surveyChildren schema d fieldTypes rawType children expanded = .ok found) {c : Child}
    (hc : c ∈ children) :
    ∃ part, part.entries ⊆ found.entries ∧ c.Contributes schema d fieldTypes rawType part := by
  induction children generalizing expanded found with
  | nil => exact absurd hc List.not_mem_nil
  | cons k rest ih =>
    rw [surveyChildren] at h
    obtain ⟨⟨first, expanded₁⟩, hfirst, h⟩ := Error.bind_eq_ok.mp h
    obtain ⟨later, hlater, h⟩ := Error.bind_eq_ok.mp h
    cases h
    rcases List.mem_cons.mp hc with rfl | hc
    · exact ⟨first, List.subset_append_left _ _, _, _, surveys_of_ok hfirst⟩
    · obtain ⟨part, hsub, hpart⟩ := ih hlater hc
      exact ⟨part, List.Subset.trans hsub (List.subset_append_right _ _), hpart⟩

namespace Survey

variable {schema : Schema} {d : Document} {rawType : Name} {children : List Child} {s : Survey}
  (h : Survey.ofChildren schema d rawType children = .ok s)
include h

/-- A field that is found stands at the end of a way, and its scope is the scope there with its own
condition. -/
theorem exists_enters {o : Occurrence} (ho : o ∈ s.found.occurrences) :
    ∃ c ∈ children, ∃ gates inner condition, Way d c.selection gates (.field o.head o.selections) ∧
      Scope.Enters schema s.fieldTypes (.ofField rawType) gates inner ∧
      Condition.ofDirectives o.head.directives o.head.responseName = .ok condition ∧
      o.scope = { inner with condition := inner.condition.and condition } := by
  obtain ⟨-, -, hfound⟩ := ofChildren_eq_ok h
  obtain ⟨c, hc, part, -, ⟨_, _, hpart⟩, ho⟩ := (contributes_of_surveyChildren hfound).1 o ho
  obtain ⟨ps, hps, gates, inner, condition, ⟨hleads, henters⟩, hscope⟩ :=
    hpart.of_mem_occurrences ho
  cases List.mem_singleton.mp hps
  exact ⟨c, hc, gates, inner, condition, hleads.way, henters, hscope⟩

/-- The conditions of what a survey finds are canonical. -/
theorem canonical_of_mem_occurrences {o : Occurrence} (ho : o ∈ s.found.occurrences) :
    o.scope.condition.Canonical := by
  obtain ⟨_, _, _, inner, condition, -, -, -, hscope⟩ := exists_enters h ho
  rw [hscope]
  exact Condition.canonical_and _ _

/-- The field at the end of a way that can be gone is found. -/
theorem exists_of_enters {c : Child} (hc : c ∈ children) {gates : List Gate} {inner : Scope}
    {head : FieldHead} {beneath : List Selection}
    (hway : Way d c.selection gates (.field head beneath))
    (henters : Scope.Enters schema s.fieldTypes (.ofField rawType) gates inner) :
    ∃ o ∈ s.found.occurrences, ∃ condition, o.head = head ∧ o.selections = beneath ∧
      Condition.ofDirectives head.directives head.responseName = .ok condition ∧
      o.scope = { inner with condition := inner.condition.and condition } := by
  obtain ⟨v, hv, -, hopen⟩ := henters.exists_open (Scope.sound_ofField rawType)
  obtain ⟨final, hdealt, hchildren⟩ := exists_covered h
  obtain ⟨inner', henters', htarget⟩ := (hchildren c hc).reach hdealt hway hv hopen
  cases henters.unique henters'
  obtain ⟨trail, place, condition, hcond, hmem⟩ := htarget.occurrence
  exact ⟨_, hmem, condition, rfl, rfl, hcond, rfl⟩

/-- A fragment that is entered stands at the end of a way, and what is noted of it is the scope
inside. -/
theorem exists_enters_entry {e : Entry} (he : e ∈ s.found.entries) :
    ∃ c ∈ children, ∃ gates inner target g final narrows spread, Way d c.selection gates target ∧
      Scope.Enters schema s.fieldTypes (.ofField rawType) gates inner ∧ target.gate? d = some g ∧
      inner.Passes schema s.fieldTypes g final narrows ∧ e = final.entry narrows spread := by
  obtain ⟨-, -, hfound⟩ := ofChildren_eq_ok h
  obtain ⟨c, hc, part, -, ⟨_, _, hpart⟩, he⟩ := (contributes_of_surveyChildren hfound).2 e he
  obtain ⟨ps, hps, gates, inner, target, g, final, narrows, spread, ⟨hleads, henters⟩, hgate,
      hpass, heq, -⟩ :=
    hpart.of_mem_entries he
  cases List.mem_singleton.mp hps
  exact ⟨c, hc, gates, inner, target, g, final, narrows, spread, hleads.way, henters,
    hgate, hpass, heq⟩

/-- The fragment at the end of a way that can be gone is entered, if it can be. -/
theorem exists_entry_of_enters {c : Child} (hc : c ∈ children) {gates : List Gate}
    {inner final : Scope} {target : Selection} {g : Gate} {narrows : Bool}
    (hway : Way d c.selection gates target)
    (henters : Scope.Enters schema s.fieldTypes (.ofField rawType) gates inner)
    (hg : target.gate? d = some g) (hpass : inner.Passes schema s.fieldTypes g final narrows) :
    ∃ spread, final.entry narrows spread ∈ s.found.entries := by
  obtain ⟨v, hv, -, hopen⟩ := (henters.snoc hpass).exists_open (Scope.sound_ofField rawType)
  obtain ⟨hgates, hlast⟩ := List.forall_mem_append.mp hopen
  obtain ⟨expanded, hdealt, hchildren⟩ := exists_covered h
  obtain ⟨inner', henters', htarget⟩ := (hchildren c hc).reach hdealt hway hv hgates
  cases henters.unique henters'
  have hinner : inner.condition.eval v = true := by
    rw [henters.eval, hv, Bool.true_and, List.all_eq_true]
    exact hgates
  obtain ⟨final', narrows', spread, hpass', hmem⟩ :=
    htarget.entry hg hinner (hlast g List.mem_cons_self)
  obtain ⟨rfl, rfl⟩ := hpass.unique hpass'
  exact ⟨spread, hmem⟩

/-- A fragment that counts as spread directly beneath the field stands at the end of a way through
inline fragments. -/
theorem exists_inside {e : Entry} (he : e ∈ s.found.entries) {n : Name} (hn : e.spread = some n) :
    ∃ c ∈ children, ∃ gates inner directives fragment final narrows,
      Inside c.selection gates (.spread n directives) ∧
      Scope.Enters schema s.fieldTypes (.ofField rawType) gates inner ∧
      d.fragment? n = some fragment ∧
      inner.Passes schema s.fieldTypes ⟨some fragment.typeCondition, directives⟩ final narrows ∧
      e = final.entry narrows (some n) := by
  obtain ⟨-, -, hfound⟩ := ofChildren_eq_ok h
  obtain ⟨c, hc, part, -, ⟨_, _, hpart⟩, he⟩ := (contributes_of_surveyChildren hfound).2 e he
  obtain ⟨ps, hps, h⟩ := hpart.exists_inside he hn
  cases List.mem_singleton.mp hps
  exact ⟨c, hc, h⟩

/-- The fragment that is spread at the end of a way through inline fragments counts as spread
directly beneath the field. -/
theorem mem_entries_of_inside {c : Child} (hc : c ∈ children) {gates : List Gate}
    {inner final : Scope} {n : Name} {directives : List Directive} {fragment : Fragment}
    {narrows : Bool} (hinside : Inside c.selection gates (.spread n directives))
    (henters : Scope.Enters schema s.fieldTypes (.ofField rawType) gates inner)
    (hf : d.fragment? n = some fragment)
    (hpass : inner.Passes schema s.fieldTypes ⟨some fragment.typeCondition, directives⟩ final
      narrows) :
    final.entry narrows (some n) ∈ s.found.entries := by
  obtain ⟨-, -, hfound⟩ := ofChildren_eq_ok h
  obtain ⟨part, hsub, _, _, hpart⟩ := exists_contributes hfound hc
  exact hsub (hpart.mem_entries_of_inside rfl List.mem_cons_self hinside henters hf hpass)

end Survey
end ResponseModels
