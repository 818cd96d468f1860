import ResponseModels.Proofs.Collect.Expand

/-!
# What is known along the way

The selections that collecting comes upon stand at the end of a path of named fragments. Something
that is known of the selections of a definition, and that passes on to whatever is written beneath a
selection or in a fragment that is spread (`Document.Carries`), is known of all of them: of the
fields that a survey finds and the spreads that it notes (`Document.Carries.ofChildren`), and of the
children of the fields of a shape, which are surveyed next (`Document.Carries.fieldsFor`).
-/

set_option autoImplicit false

namespace ResponseModels

/-- Something known of selections with the path of the fragments around them passes on to what they
lead to. -/
structure Document.Carries (d : Document) (I : List Name → Selection → Prop) : Prop where
  /-- It passes on to what is selected beneath a field, -/
  field {path : List Name} {head : FieldHead} {selections : List Selection} {s : Selection}
    (h : I path (.field head selections)) (mem : s ∈ selections) : I path s
  /-- to what is in an inline fragment, -/
  inline {path : List Name} {typeCondition : Option Name} {directives : List Directive}
    {selections : List Selection} {s : Selection}
    (h : I path (.inline typeCondition directives selections)) (mem : s ∈ selections) : I path s
  /-- and to what is in a fragment that is spread, on a path that is longer by its name. -/
  spread {path : List Name} {name : Name} {directives : List Directive} {fragment : Fragment}
    {s : Selection} (h : I path (.spread name directives))
    (found : d.fragment? name = some fragment) (mem : s ∈ fragment.selections) :
    I (path ++ [name]) s

/-- It is known of the fields that were found and of the spreads that were noted. -/
structure Findings.Known (I : List Name → Selection → Prop) (found : Findings) : Prop where
  /-- It is known of a field, on the path where it was found. -/
  occurrences : ∀ o ∈ found.occurrences, I o.path (.field o.head o.selections)
  /-- It is known of a spread, on some path and with some directives. -/
  spreads : ∀ e ∈ found.entries, ∀ n ∈ e.spread, ∃ path directives, I path (.spread n directives)

theorem Findings.Known.append {I : List Name → Selection → Prop} {a b : Findings} (ha : a.Known I)
    (hb : b.Known I) :
    (a ++ b).Known I where
  occurrences := List.forall_mem_append.mpr ⟨ha.occurrences, hb.occurrences⟩
  spreads := List.forall_mem_append.mpr ⟨ha.spreads, hb.spreads⟩

theorem Findings.known_none (I : List Name → Selection → Prop) : Findings.none.Known I where
  occurrences _ ho := absurd ho List.not_mem_nil
  spreads _ he := absurd he List.not_mem_nil

/-- The entry of a fragment is known of, if the spread is that it stands for. -/
theorem Findings.known_entry {I : List Name → Selection → Prop} {e : Entry}
    (h : ∀ n ∈ e.spread, ∃ path directives, I path (.spread n directives)) :
    Findings.Known I ⟨[], [e]⟩ where
  occurrences _ ho := absurd ho List.not_mem_nil
  spreads _ he := List.mem_singleton.mp he ▸ h

namespace Document.Carries

variable {schema : Schema} {d : Document} {I : List Name → Selection → Prop} (hI : d.Carries I)
include hI

/-- What a survey finds is known of, if the selections surveyed are. -/
theorem surveys {fieldTypes : NameSet} {trail : Trail} {scope : Scope}
    {selections : List (Place × Selection)} {expanded expanded' : List Expansion} {found : Findings}
    (h : Surveys schema d fieldTypes trail scope selections expanded found expanded')
    (hselections : ∀ ps ∈ selections, I trail.path ps.2) : found.Known I := by
  have hspread : ∀ {path : List Name} {direct : Bool} {name : Name} {directives : List Directive},
      I path (.spread name directives) → ∀ n ∈ Trail.spread? ⟨path, direct⟩ name,
        ∃ path directives, I path (.spread n directives) := by
    intro path direct name directives h n hn
    cases Trail.eq_of_mem_spread? hn
    exact ⟨path, directives, h⟩
  induction h with
  | nil => exact Findings.known_none I
  | field _ _ ih =>
    obtain ⟨hfirst, hrest⟩ := List.forall_mem_cons.mp hselections
    refine .append ⟨fun o ho ↦ ?_, fun e he ↦ absurd he List.not_mem_nil⟩ (ih hrest)
    cases List.mem_singleton.mp ho
    exact hfirst
  | skipped _ _ _ _ ih => exact ih (List.forall_mem_cons.mp hselections).2
  | inline _ _ _ ihWithin ihAfter =>
    obtain ⟨hfirst, hrest⟩ := List.forall_mem_cons.mp hselections
    refine .append (.append (Findings.known_entry fun n hn ↦ by cases hn)
      (ihWithin fun ps hps ↦ ?_)) (ihAfter hrest)
    exact hI.inline hfirst (Place.mem_of_mem_locate hps)
  | again _ _ _ _ _ ih =>
    obtain ⟨hfirst, hrest⟩ := List.forall_mem_cons.mp hselections
    exact .append (Findings.known_entry (hspread hfirst)) (ih hrest)
  | spread hf _ _ _ _ _ ihWithin ihAfter =>
    obtain ⟨hfirst, hrest⟩ := List.forall_mem_cons.mp hselections
    refine .append (.append (Findings.known_entry (hspread hfirst)) (ihWithin fun ps hps ↦ ?_))
      (ihAfter hrest)
    exact hI.spread hfirst hf (Place.mem_of_mem_locate hps)

/-- What the survey of a field finds is known of, if the children are. -/
theorem ofChildren {rawType : Name} {children : List Child} {s : Survey}
    (h : Survey.ofChildren schema d rawType children = .ok s)
    (hchildren : ∀ c ∈ children, I c.path c.selection) :
    s.found.Known I := by
  have hknown : ∀ {c : Child} {part : Findings}, c ∈ children →
      c.Contributes schema d s.fieldTypes rawType part → part.Known I := by
    rintro c part hc ⟨expanded, expanded', hpart⟩
    exact hI.surveys hpart (List.forall_mem_singleton.mpr (hchildren c hc))
  obtain ⟨hoccurrences, hentries⟩ := contributes_of_surveyChildren (Survey.ofChildren_eq_ok h).2.2
  refine ⟨fun o ho ↦ ?_, fun e he ↦ ?_⟩
  · obtain ⟨c, hc, part, -, hpart, ho⟩ := hoccurrences o ho
    exact (hknown hc hpart).occurrences o ho
  · obtain ⟨c, hc, part, -, hpart, he⟩ := hentries e he
    exact (hknown hc hpart).spreads e he

/-- What is selected beneath the fields of a type set is known of. -/
theorem fieldsFor {s : Survey} (hs : s.found.Known I) {typeSet : NameSet}
    {merged : List Declaration} (h : s.fieldsFor schema typeSet = .ok merged) {m : Declaration}
    (hm : m ∈ merged) :
    ∀ c ∈ m.children, I c.path c.selection := by
  intro c hc
  obtain ⟨o, ho, hc⟩ := (Survey.exists_of_mem_fieldsFor h hm).2 c hc
  obtain ⟨ps, hps, rfl⟩ := List.mem_map.mp hc
  exact hI.field (hs.occurrences o ho) (Place.mem_of_mem_locate hps)

end Document.Carries

/-- The children at the top of a definition. -/
theorem forall_mem_rootChildren {I : List Name → Selection → Prop} {selections : List Selection}
    {path : List Name} (h : ∀ s ∈ selections, I path s) :
    ∀ c ∈ rootChildren selections path, I c.path c.selection := by
  intro c hc
  obtain ⟨ps, hps, rfl⟩ := List.mem_map.mp hc
  exact h ps.2 (Place.mem_of_mem_locate hps)

end ResponseModels
