import ResponseModels.Proofs.Collect.Survey

/-!
# A survey finds everything

A survey expands a named fragment once for each type set and condition, and it refuses to go round
in circles. Here it is shown that nothing is lost by this.

A selection is *covered* by what was found if it is found itself, or can never be reached, or leads
on to covered ones. A spread is covered by the expansion of its fragment in the scope it leads to,
whether this expansion took place here or before. What is surveyed is covered (`Surveys.covered`),
and from a covered selection every way leads to something that was found or through a gate that is
never open (`Covered.reach`).

At the end stands what is known of the type sets that a survey notes: they are made of the type
conditions it met (`Surveys.explains`).
-/

set_option autoImplicit false

namespace ResponseModels

/-! ## Covered selections -/

/-- Everything a selection leads to in a scope is among the findings, given that the named fragments
that were expanded are dealt with. -/
inductive Covered (schema : Schema) (d : Document) (fieldTypes : NameSet) (found : Findings)
    (expanded : List Expansion) : Scope → Selection → Prop
  | field {scope : Scope} {trail : Trail} {place : Place} {head : FieldHead}
      {selections : List Selection} {condition : Condition}
      (directives : Condition.ofDirectives head.directives head.responseName = .ok condition)
      (mem : scope.occurrence trail place head selections condition ∈ found.occurrences) :
      Covered schema d fieldTypes found expanded scope (.field head selections)
  | skipped {scope : Scope} {s : Selection} {g : Gate} (gate : s.gate? d = some g)
      (blocked : scope.Blocked schema fieldTypes g) :
      Covered schema d fieldTypes found expanded scope s
  | inline {scope inner : Scope} {typeCondition : Option Name} {directives : List Directive}
      {selections : List Selection} {narrows : Bool} {spread : Option Name}
      (pass : scope.Passes schema fieldTypes ⟨typeCondition, directives⟩ inner narrows)
      (entry : inner.entry narrows spread ∈ found.entries)
      (inside : ∀ s ∈ selections, Covered schema d fieldTypes found expanded inner s) :
      Covered schema d fieldTypes found expanded scope (.inline typeCondition directives selections)
  | spread {scope inner : Scope} {name : Name} {directives : List Directive} {fragment : Fragment}
      {narrows : Bool} {spread : Option Name} (fragment? : d.fragment? name = some fragment)
      (pass : scope.Passes schema fieldTypes ⟨some fragment.typeCondition, directives⟩ inner
        narrows) (entry : inner.entry narrows spread ∈ found.entries)
      (expansion : inner.expansion name ∈ expanded) :
      Covered schema d fieldTypes found expanded scope (.spread name directives)

/-- A named fragment was dealt with: its selections are covered in the scope inside it. -/
def Expansion.Covered (schema : Schema) (d : Document) (fieldTypes : NameSet) (found : Findings)
    (expanded : List Expansion) (e : Expansion) : Prop :=
  ∀ fragment, d.fragment? e.fragment = some fragment → ∀ s ∈ fragment.selections,
    ResponseModels.Covered schema d fieldTypes found expanded
      ⟨e.typeSet, fragment.typeCondition, e.condition⟩ s

section covered

variable {schema : Schema} {d : Document} {fieldTypes : NameSet} {all : Findings}
  {final : List Expansion}

theorem Surveys.subset_expanded {trail : Trail} {scope : Scope}
    {selections : List (Place × Selection)} {expanded expanded' : List Expansion} {found : Findings}
    (h : Surveys schema d fieldTypes trail scope selections expanded found expanded') :
    expanded ⊆ expanded' := by
  induction h with
  | nil => exact List.Subset.refl _
  | field _ _ ih => exact ih
  | skipped _ _ _ _ ih => exact ih
  | inline _ _ _ ihWithin ihAfter => exact List.Subset.trans ihWithin ihAfter
  | again _ _ _ _ _ ih => exact ih
  | spread _ _ _ _ _ _ ihWithin ihAfter =>
    exact List.Subset.trans (List.Subset.trans (List.subset_append_left _ _) ihWithin) ihAfter

/-- **What is surveyed is covered**, and every fragment that is expanded is dealt with. Both are
said for the findings and expansions of the whole survey, of which those here are a part. -/
theorem Surveys.covered {trail : Trail} {scope : Scope} {selections : List (Place × Selection)}
    {expanded expanded' : List Expansion} {found : Findings}
    (h : Surveys schema d fieldTypes trail scope selections expanded found expanded')
    (ho : found.occurrences ⊆ all.occurrences) (he : found.entries ⊆ all.entries)
    (hx : expanded' ⊆ final) :
    (∀ ps ∈ selections, Covered schema d fieldTypes all final scope ps.2) ∧
      ∀ e ∈ expanded', e ∈ expanded ∨ e.Covered schema d fieldTypes all final := by
  induction h with
  | nil => exact ⟨fun ps hps ↦ absurd hps List.not_mem_nil, fun e he ↦ .inl he⟩
  | field directives _ ih =>
    obtain ⟨hmem, ho⟩ := List.cons_subset.mp ho
    obtain ⟨hrest, hexp⟩ := ih ho he hx
    exact ⟨List.forall_mem_cons.mpr ⟨.field directives hmem, hrest⟩, hexp⟩
  | skipped gate _ blocked _ ih =>
    obtain ⟨hrest, hexp⟩ := ih ho he hx
    exact ⟨List.forall_mem_cons.mpr ⟨.skipped gate blocked, hrest⟩, hexp⟩
  | @inline trail scope inner place _ _ selections _ _ _ _ _ _ _ pass within after
      ihWithin ihAfter =>
    obtain ⟨hmem, he⟩ := List.cons_subset.mp he
    obtain ⟨hoIn, hoAfter⟩ := List.append_subset.mp ho
    obtain ⟨heIn, heAfter⟩ := List.append_subset.mp he
    obtain ⟨hinside, hexpIn⟩ := ihWithin hoIn heIn (List.Subset.trans after.subset_expanded hx)
    obtain ⟨hrest, hexpAfter⟩ := ihAfter hoAfter heAfter hx
    refine ⟨List.forall_mem_cons.mpr ⟨.inline pass hmem fun s hs ↦ ?_, hrest⟩, fun e he ↦ ?_⟩
    · rw [← place.map_snd_locate selections] at hs
      obtain ⟨ps, hps, rfl⟩ := List.mem_map.mp hs
      exact hinside ps hps
    · exact (hexpAfter e he).elim (hexpIn e) .inr
  | again hf _ pass before after ih =>
    obtain ⟨hmem, he⟩ := List.cons_subset.mp he
    obtain ⟨hrest, hexp⟩ := ih ho he hx
    have hlate := hx (after.subset_expanded before)
    exact ⟨List.forall_mem_cons.mpr ⟨.spread hf pass hmem hlate, hrest⟩, hexp⟩
  | @spread trail scope inner place name _ fragment _ _ _ _ expanded _ _ hf _ pass _ within after
      ihWithin ihAfter =>
    obtain ⟨hmem, he⟩ := List.cons_subset.mp he
    obtain ⟨hoIn, hoAfter⟩ := List.append_subset.mp ho
    obtain ⟨heIn, heAfter⟩ := List.append_subset.mp he
    obtain ⟨hinside, hexpIn⟩ := ihWithin hoIn heIn (List.Subset.trans after.subset_expanded hx)
    obtain ⟨hrest, hexpAfter⟩ := ihAfter hoAfter heAfter hx
    have hnew : inner.expansion name ∈ expanded ++ [inner.expansion name] := by simp
    have hlate := hx (after.subset_expanded (within.subset_expanded hnew))
    refine ⟨List.forall_mem_cons.mpr ⟨.spread hf pass hmem hlate, hrest⟩, fun e he ↦ ?_⟩
    rcases hexpAfter e he with he | he
    · rcases hexpIn e he with he | he
      · rcases List.mem_append.mp he with he | he
        · exact .inl he
        · -- The fragment expanded right here: its selections are those just surveyed.
          cases List.mem_singleton.mp he
          refine .inr fun fragment' hf' s hs ↦ ?_
          cases hf.symm.trans hf'
          rw [← (Place.fragment name).map_snd_locate fragment.selections] at hs
          obtain ⟨ps, hps, rfl⟩ := List.mem_map.mp hs
          exact pass.mk_eq rfl ▸ hinside ps hps
      · exact .inr he
    · exact .inr he

/-- **From a covered selection every open way leads to a covered one.** -/
theorem Covered.reach (hx : ∀ e ∈ final, e.Covered schema d fieldTypes all final)
    {scope : Scope} {s target : Selection} {gates : List Gate} (hway : Way d s gates target)
    (hs : Covered schema d fieldTypes all final scope s) {v : Name → Bool}
    (hv : scope.condition.eval v = true) (hgates : ∀ g ∈ gates, included v g.directives = true) :
    ∃ inner, scope.Enters schema fieldTypes gates inner ∧
      Covered schema d fieldTypes all final inner target := by
  induction hway generalizing scope with
  | here s => exact ⟨scope, .nil scope, hs⟩
  | inline mem rest ih =>
    obtain ⟨hopen, hgates⟩ := List.forall_mem_cons.mp hgates
    cases hs with
    | skipped gate blocked =>
      cases gate
      rw [blocked.not_included hv] at hopen
      cases hopen
    | inline pass entry inside =>
      have hinner := pass.eval v
      rw [hv, hopen] at hinner
      obtain ⟨final, henters, hcovered⟩ := ih (inside _ mem) hinner hgates
      exact ⟨final, .cons pass henters, hcovered⟩
  | @spread name directives fragment s target gates hf mem rest ih =>
    obtain ⟨hopen, hgates⟩ := List.forall_mem_cons.mp hgates
    cases hs with
    | skipped gate blocked =>
      cases gate.symm.trans (Selection.gate?_spread hf)
      rw [blocked.not_included hv] at hopen
      cases hopen
    | @spread _ inner _ _ _ _ _ hf' pass entry expansion =>
      cases hf.symm.trans hf'
      have hinner := pass.eval v
      rw [hv, hopen] at hinner
      have hinside := pass.mk_eq rfl ▸ hx _ expansion fragment hf s mem
      obtain ⟨final, henters, hcovered⟩ := ih hinside hinner hgates
      exact ⟨final, .cons pass henters, hcovered⟩

/-- A field that is reached on an open way was found. -/
theorem Covered.occurrence {scope : Scope} {head : FieldHead} {selections : List Selection}
    (h : Covered schema d fieldTypes all final scope (.field head selections)) :
    ∃ trail place condition,
      Condition.ofDirectives head.directives head.responseName = .ok condition ∧
      scope.occurrence trail place head selections condition ∈ all.occurrences := by
  cases h with
  | field directives mem => exact ⟨_, _, _, directives, mem⟩
  | skipped gate blocked => cases gate

/-- A fragment that is reached on an open way, and is open itself, was entered. -/
theorem Covered.entry {scope : Scope} {s : Selection} {g : Gate}
    (h : Covered schema d fieldTypes all final scope s) (hg : s.gate? d = some g) {v : Name → Bool}
    (hv : scope.condition.eval v = true) (hopen : included v g.directives = true) :
    ∃ inner narrows spread, scope.Passes schema fieldTypes g inner narrows ∧
      inner.entry narrows spread ∈ all.entries := by
  cases h with
  | field directives mem => cases hg
  | skipped gate blocked =>
    cases gate.symm.trans hg
    rw [blocked.not_included hv] at hopen
    cases hopen
  | inline pass entry inside =>
    cases hg
    exact ⟨_, _, _, pass, entry⟩
  | spread fragment? pass entry expansion =>
    cases (Selection.gate?_spread fragment?).symm.trans hg
    exact ⟨_, _, _, pass, entry⟩

end covered

/-! ## The type sets that are noted -/

/-- A type condition that narrows the field is met. -/
def Findings.Narrows (found : Findings) (c : Name) : Prop :=
  ∃ e ∈ found.entries, e.narrows = true ∧ e.typeCondition = c

/-- The type sets that are noted of fields and of fragments. -/
def Findings.typeSets (found : Findings) : List NameSet :=
  found.occurrences.map (fun o ↦ o.scope.typeSet) ++ found.entries.map Entry.typeSet

theorem Findings.mem_typeSets_append {a b : Findings} {typeSet : NameSet} :
    typeSet ∈ (a ++ b).typeSets ↔ typeSet ∈ a.typeSets ∨ typeSet ∈ b.typeSets := by
  simp only [typeSets, occurrences_append, entries_append, List.map_append, List.mem_append]
  grind

/-- A type set has that of the scope and, besides, type conditions that were met. -/
def Findings.Explains (found : Findings) (scope : Scope) (typeSet : NameSet) : Prop :=
  scope.typeSet ⊆ typeSet ∧ ∀ c ∈ typeSet, c ∈ scope.typeSet ∨ found.Narrows c

namespace Findings.Explains

variable {found : Findings} {scope : Scope} {typeSet : NameSet}

theorem refl (found : Findings) (scope : Scope) : found.Explains scope scope.typeSet :=
  ⟨fun _ hc ↦ hc, fun _ hc ↦ .inl hc⟩

theorem of_subset {more : Findings} (h : found.Explains scope typeSet)
    (hs : found.entries ⊆ more.entries) : more.Explains scope typeSet := by
  refine ⟨h.1, fun c hc ↦ (h.2 c hc).imp_right ?_⟩
  rintro ⟨e, he, hc⟩
  exact ⟨e, hs he, hc⟩

/-- Inside a fragment the scope has at most one condition more, and the entry tells of it. -/
theorem through {schema : Schema} {fieldTypes : NameSet} {inner : Scope} {g : Gate} {narrows : Bool}
    {spread : Option Name} (h : found.Explains inner typeSet)
    (pass : scope.Passes schema fieldTypes g inner narrows)
    (entry : inner.entry narrows spread ∈ found.entries) : found.Explains scope typeSet := by
  refine ⟨fun c hc ↦ h.1 c (pass.mem_typeSet_iff.mpr (.inl hc)), fun c hc ↦ ?_⟩
  rcases h.2 c hc with hc | hc
  · rcases pass.mem_typeSet_iff.mp hc with hc | ⟨hn, rfl⟩
    · exact .inl hc
    · exact .inr ⟨_, entry, hn, rfl⟩
  · exact .inr hc

end Findings.Explains

/-- A type set that is noted has the type set of the scope and type conditions that were met. -/
theorem Surveys.explains {schema : Schema} {d : Document} {fieldTypes : NameSet} {trail : Trail}
    {scope : Scope} {selections : List (Place × Selection)} {expanded expanded' : List Expansion}
    {found : Findings}
    (h : Surveys schema d fieldTypes trail scope selections expanded found expanded')
    {typeSet : NameSet} (ht : typeSet ∈ found.typeSets) : found.Explains scope typeSet := by
  induction h with
  | nil => exact absurd ht List.not_mem_nil
  | field directives after ih =>
    rcases Findings.mem_typeSets_append.mp ht with ht | ht
    · cases List.mem_singleton.mp ht
      exact .refl _ _
    · exact ih ht
  | skipped _ _ _ _ ih => exact ih ht
  | inline pass within after ihWithin ihAfter =>
    rw [Findings.mem_typeSets_append, Findings.mem_typeSets_append] at ht
    rcases ht with (ht | ht) | ht
    · cases List.mem_singleton.mp ht
      exact (Findings.Explains.refl _ _).through pass List.mem_cons_self
    · refine ((ihWithin ht).of_subset ?_).through pass List.mem_cons_self
      exact List.subset_cons_of_subset _ (List.subset_append_left _ _)
    · exact (ihAfter ht).of_subset (List.subset_append_right _ _)
  | again hf _ pass before after ih =>
    rcases Findings.mem_typeSets_append.mp ht with ht | ht
    · cases List.mem_singleton.mp ht
      exact (Findings.Explains.refl _ _).through pass List.mem_cons_self
    · exact (ih ht).of_subset (List.subset_append_right _ _)
  | spread hf fresh pass _ within after ihWithin ihAfter =>
    rw [Findings.mem_typeSets_append, Findings.mem_typeSets_append] at ht
    rcases ht with (ht | ht) | ht
    · cases List.mem_singleton.mp ht
      exact (Findings.Explains.refl _ _).through pass List.mem_cons_self
    · refine ((ihWithin ht).of_subset ?_).through pass List.mem_cons_self
      exact List.subset_cons_of_subset _ (List.subset_append_left _ _)
    · exact (ihAfter ht).of_subset (List.subset_append_right _ _)

end ResponseModels
