import ResponseModels.Proofs.Collect.Mirror
import ResponseModels.Proofs.Collect.Near
import ResponseModels.Proofs.Retracing

/-!
# Surveys of repeated selections

A document can repeat selections of another: in some of its selection lists, a selection is
followed, at once or later, by one that reads the same. Every place of the longer document then has
a *home* in the shorter one, the place that it repeats or that it was moved away from. `Echoes` says
that selections correspond in this way, and `Document.Echoes` says it of the fragments of two
documents.

A survey of the longer document goes along with a survey of the shorter one. Where it comes upon a
repetition it goes through selections that it has been through before, under the same trail and in
the same scope. It finds their fields at other places and expands nothing, since what is spread
there has been expanded (`Surveys.exists_again`). So it expands the same fragments in the same
order, and what it finds goes through what the other survey finds and back to it
(`Surveys.exists_echoes`).

Of several occurrences at one place the first counts, with the path on which it was found. For
fields in named fragments that are expanded on the way this path is the same in both surveys
(`Findings.Echoes.far`), because a fragment is gone through as a whole, repetitions included, before
it is gone through again.
-/

set_option autoImplicit false

namespace ResponseModels

/-! ## Selections and their repetitions -/

/-- The second selection reads like the first, up to repetitions inside, and has its home at the
place of the first. -/
inductive Echoes (home : Place → Place) : Place × Selection → Place × Selection → Prop
  | field {p p' : Place} {head : FieldHead} {l l' : List Selection} (place : home p' = p)
      (inside : Retraces (Echoes home) [] (p.locate l) (p'.locate l')) :
      Echoes home (p, .field head l) (p', .field head l')
  | inline {p p' : Place} {typeCondition : Option Name} {directives : List Directive}
      {l l' : List Selection} (place : home p' = p)
      (inside : Retraces (Echoes home) [] (p.locate l) (p'.locate l')) :
      Echoes home (p, .inline typeCondition directives l) (p', .inline typeCondition directives l')
  | spread {p p' : Place} {name : Name} {directives : List Directive} (place : home p' = p) :
      Echoes home (p, .spread name directives) (p', .spread name directives)

/-- The fragments of a document repeat selections of those of another. -/
structure Document.Echoes (home : Place → Place) (d d' : Document) : Prop where
  /-- What is repeated is repeated in the same definition. -/
  owner (p : Place) : (home p).owner = p.owner
  /-- A fragment is in both documents or in none, on the same type, and the longer one goes
  through the selections of the shorter one and back to them. -/
  fragment (name : Name) :
    Option.Rel (fun f f' ↦ f'.typeCondition = f.typeCondition ∧
      Retraces (ResponseModels.Echoes home) [] ((Place.fragment name).locate f.selections)
        ((Place.fragment name).locate f'.selections))
      (d.fragment? name) (d'.fragment? name)

/-- An occurrence repeats another. -/
structure Occurrence.Echoes (home : Place → Place) (o o' : Occurrence) : Prop where
  /-- The field repeats the other. -/
  field : ResponseModels.Echoes home (o.place, .field o.head o.selections) (o'.place,
    .field o'.head o'.selections)
  /-- The fragments around them add up to the same. -/
  scope : o.scope = o'.scope
  /-- The same fragments were being expanded. -/
  path : o.path = o'.path

section

variable {home : Place → Place} {d d' : Document}

namespace Echoes

variable {x x' : Place × Selection}

theorem place_eq (h : Echoes home x x') : home x'.1 = x.1 := by
  cases h with
  | field place => exact place
  | inline place => exact place
  | spread place => exact place

theorem of_field {p p' : Place} {head head' : FieldHead} {l l' : List Selection}
    (h : Echoes home (p, .field head l) (p', .field head' l')) :
    head = head' ∧ Retraces (Echoes home) [] (p.locate l) (p'.locate l') := by
  cases h with
  | field _ inside => exact ⟨rfl, inside⟩

theorem fresh (h : Echoes home x x') {path : List Name}
    (hx : ∀ name directives, x.2 = .spread name directives → name ∉ path) :
    ∀ name directives, x'.2 = .spread name directives → name ∉ path := by
  intro name directives hs
  cases h with
  | field => cases hs
  | inline => cases hs
  | spread => exact hx name directives hs

/-- What stands inside a repetition repeats what stands inside the repeated selection, behind the
same gates. -/
theorem exists_encloses (h : Echoes home x x') {gates : List Gate} {y' : Place × Selection}
    (h' : Encloses x' gates y') :
    ∃ y, Encloses x gates y ∧ Echoes home y y' := by
  induction h' generalizing x with
  | here x' => exact ⟨x, .here x, h⟩
  | inline mem _ ih =>
    cases h with
    | inline place inside =>
      obtain ⟨k, hk, hecho⟩ := inside.exists_of_mem mem
      obtain ⟨y, hy, hecho⟩ := ih hecho
      exact ⟨y, .inline hk hy, hecho⟩

end Echoes

namespace Document.Echoes

variable (hd : d.Echoes home d')
include hd

theorem exists_fragment {name : Name} {f : Fragment} (hf : d.fragment? name = some f) :
    ∃ f', d'.fragment? name = some f' ∧ f'.typeCondition = f.typeCondition ∧
      Retraces (ResponseModels.Echoes home) [] ((Place.fragment name).locate f.selections)
        ((Place.fragment name).locate f'.selections) :=
  exists_of_rel (hd.fragment name) hf

theorem gate?_eq {x x' : Place × Selection} (h : ResponseModels.Echoes home x x') {g : Gate}
    (hg : x.2.gate? d = some g) :
    x'.2.gate? d' = some g := by
  cases h with
  | field => cases hg
  | inline => exact hg
  | @spread _ _ name directives =>
    obtain ⟨f, hf, rfl⟩ := Option.map_eq_some_iff.mp hg
    obtain ⟨f', hf', htype, -⟩ := hd.exists_fragment hf
    exact Option.map_eq_some_iff.mpr ⟨f', hf', by rw [htype]⟩

/-- A field of a named fragment has its home in that fragment. -/
theorem home_inFragment {name : Name} {place : Place} (h : place.InFragment d' name) :
    (home place).InFragment d name := by
  obtain ⟨f', x', gates, head, l', hf', hx', hinside⟩ := h
  have hrel := hd.fragment name
  rw [hf'] at hrel
  generalize hf : d.fragment? name = found at hrel
  cases hrel with
  | some hrel =>
    obtain ⟨x, hx, hecho⟩ := hrel.2.exists_of_mem hx'
    obtain ⟨y, hy, hecho⟩ := hecho.exists_encloses hinside
    cases hecho with
    | field place => exact ⟨_, x, gates, head, _, hf, hx, place ▸ hy⟩

end Document.Echoes

theorem Occurrence.Echoes.sight_eq {o o' : Occurrence} (h : o.Echoes home o') :
    o.sight = o'.sight :=
  congrArg₂ Prod.mk h.field.of_field.1 h.scope

end

/-! ## Going through selections again -/

namespace Findings

theorem append_assoc (a b c : Findings) : a ++ b ++ c = a ++ (b ++ c) :=
  (mk.injEq ..).mpr ⟨List.append_assoc .., List.append_assoc ..⟩

theorem append_none (a : Findings) : a ++ none = a :=
  (mk.injEq ..).mpr ⟨List.append_nil _, List.append_nil _⟩

/-- On a path, nothing was found the second time but repetitions of what was found the first
time. -/
structure Repeated (home : Place → Place) (path : List Name) (found found' : Findings) : Prop where
  /-- A field that was found is on the path and repeats one that was found before. -/
  occurrences : ∀ o' ∈ found'.occurrences, o'.path = path ∧
    ∃ o ∈ found.occurrences, o.Echoes home o'
  /-- A fragment that was entered was entered before. -/
  entries : found'.entries ⊆ found.entries

namespace Repeated

variable {home : Place → Place} {path : List Name} {found found' : Findings}

theorem none (found : Findings) : found.Repeated home path .none :=
  ⟨fun _ ho ↦ absurd ho List.not_mem_nil, List.nil_subset _⟩

theorem append {more : Findings} (h : found.Repeated home path found')
    (h' : found.Repeated home path more) :
    found.Repeated home path (found' ++ more) where
  occurrences := List.forall_mem_append.mpr ⟨h.occurrences, h'.occurrences⟩
  entries := List.append_subset.mpr ⟨h.entries, h'.entries⟩

theorem mono {more : Findings} (h : found.Repeated home path found')
    (ho : found.occurrences ⊆ more.occurrences) (he : found.entries ⊆ more.entries) :
    more.Repeated home path found' where
  occurrences o' ho' := by
    obtain ⟨hpath, o, hmem, hecho⟩ := h.occurrences o' ho'
    exact ⟨hpath, o, ho hmem, hecho⟩
  entries := List.Subset.trans h.entries he

theorem append_left (more : Findings) (h : found.Repeated home path found') :
    (found ++ more).Repeated home path found' :=
  h.mono (List.subset_append_left _ _) (List.subset_append_left _ _)

theorem append_right (more : Findings) (h : found.Repeated home path found') :
    (more ++ found).Repeated home path found' :=
  h.mono (List.subset_append_right _ _) (List.subset_append_right _ _)

/-- An entry that is noted again. -/
theorem entry {e : Entry} (h : e ∈ found.entries) : found.Repeated home path ⟨[], [e]⟩ :=
  ⟨fun _ ho ↦ absurd ho List.not_mem_nil, List.cons_subset.mpr ⟨h, List.nil_subset _⟩⟩

end Repeated
end Findings

namespace Surveys

variable {home : Place → Place} {schema : Schema} {d d' : Document} {fieldTypes : NameSet}
  {trail : Trail} {scope : Scope} {selections : List (Place × Selection)}
  {expanded expanded' known : List Expansion} {found : Findings}

theorem append {more : List (Place × Selection)} {later : Findings} {expanded'' : List Expansion}
    (h : Surveys schema d fieldTypes trail scope selections expanded found expanded')
    (h' : Surveys schema d fieldTypes trail scope more expanded' later expanded'') :
    Surveys schema d fieldTypes trail scope (selections ++ more) expanded (found ++ later)
      expanded'' := by
  induction h with
  | nil => exact h'
  | field directives _ ih => exact .field directives (ih h')
  | skipped gate fresh blocked _ ih => exact .skipped gate fresh blocked (ih h')
  | inline pass within _ _ ih =>
    rw [Findings.append_assoc]
    exact .inline pass within (ih h')
  | again found fresh pass before _ ih => exact .again found fresh pass before (ih h')
  | spread found fresh pass new within _ _ ih =>
    rw [Findings.append_assoc]
    exact .spread found fresh pass new within (ih h')

theorem of_append_none
    (h : Surveys schema d fieldTypes trail scope selections expanded (found ++ .none) expanded') :
    Surveys schema d fieldTypes trail scope selections expanded found expanded' :=
  Findings.append_none found ▸ h

/-- Selections that are gone through one by one, without expanding anything, are gone through
together. -/
theorem exists_of_forall
    (h : ∀ x ∈ selections, ∃ found', Surveys schema d' fieldTypes trail scope [x] known found'
      known ∧ found.Repeated home trail.path found') :
    ∃ found', Surveys schema d' fieldTypes trail scope selections known found' known ∧
      found.Repeated home trail.path found' := by
  induction selections with
  | nil => exact ⟨.none, .nil trail scope known, .none found⟩
  | cons x rest ih =>
    obtain ⟨⟨first, hfirst, hr⟩, hrest⟩ := List.forall_mem_cons.mp h
    obtain ⟨later, hlater, hr'⟩ := ih hrest
    exact ⟨first ++ later, hfirst.append hlater, hr.append hr'⟩

private theorem exists_again_one (hd : d.Echoes home d')
    (h : Surveys schema d fieldTypes trail scope selections expanded found expanded')
    (hknown : expanded' ⊆ known) {x x' : Place × Selection} (hx : x ∈ selections)
    (hecho : Echoes home x x') :
    ∃ found', Surveys schema d' fieldTypes trail scope [x'] known found' known ∧
      found.Repeated home trail.path found' := by
  induction h generalizing x x' with
  | nil => exact absurd hx List.not_mem_nil
  | @field trail scope _ _ _ _ _ _ _ _ directives _ ih =>
    rcases List.mem_cons.mp hx with rfl | hx
    · cases hecho with
      | field place inside =>
        refine ⟨_, .field directives (.nil trail scope known),
          List.forall_mem_singleton.mpr ⟨rfl, _, List.mem_cons_self, ?_⟩, List.nil_subset _⟩
        exact ⟨.field place inside, rfl, rfl⟩
    · obtain ⟨found', hfound', hr⟩ := ih hknown hx hecho
      exact ⟨found', hfound', hr.append_right _⟩
  | @skipped trail scope _ s _ _ _ _ _ gate fresh blocked _ ih =>
    rcases List.mem_cons.mp hx with rfl | hx
    · exact ⟨.none, .skipped (hd.gate?_eq hecho gate) (hecho.fresh fresh) blocked
        (.nil trail scope known), .none _⟩
    · exact ih hknown hx hecho
  | @inline trail scope _ _ _ _ _ _ _ _ _ _ _ _ pass _ after ihWithin ihAfter =>
    rcases List.mem_cons.mp hx with rfl | hx
    · cases hecho with
      | inline place inside =>
        have hknown' := List.Subset.trans after.subset_expanded hknown
        obtain ⟨inside', hinside', hr⟩ := exists_of_forall fun y' hy' ↦
          have ⟨y, hy, hecho⟩ := inside.exists_of_mem hy'
          ihWithin hknown' hy hecho
        refine ⟨_, .inline pass hinside' (.nil trail scope known), ?_⟩
        exact .append (.append (.entry List.mem_cons_self) ((hr.append_right _).append_left _))
          (.none _)
    · obtain ⟨found', hfound', hr⟩ := ihAfter hknown hx hecho
      exact ⟨found', hfound', hr.append_right _⟩
  | @again trail scope _ _ _ _ _ _ _ _ _ _ hf fresh pass before after ih =>
    rcases List.mem_cons.mp hx with rfl | hx
    · cases hecho with
      | spread place =>
        obtain ⟨f', hf', htype, -⟩ := hd.exists_fragment hf
        have hbefore := hknown (after.subset_expanded before)
        refine ⟨_, .again hf' fresh (htype ▸ pass) hbefore (.nil trail scope known), ?_⟩
        exact .append (.entry List.mem_cons_self) (.none _)
    · obtain ⟨found', hfound', hr⟩ := ih hknown hx hecho
      exact ⟨found', hfound', hr.append_right _⟩
  | @spread trail scope _ _ _ _ _ _ _ _ _ _ _ _ hf fresh pass _ within after _ ihAfter =>
    rcases List.mem_cons.mp hx with rfl | hx
    · cases hecho with
      | spread place =>
        obtain ⟨f', hf', htype, -⟩ := hd.exists_fragment hf
        -- By now the fragment has been expanded.
        have hexpanded :=
          within.subset_expanded (List.mem_append_right _ (List.mem_singleton_self _))
        have hbefore := hknown (after.subset_expanded hexpanded)
        refine ⟨_, .again hf' fresh (htype ▸ pass) hbefore (.nil trail scope known), ?_⟩
        exact .append (.entry List.mem_cons_self) (.none _)
    · obtain ⟨found', hfound', hr⟩ := ihAfter hknown hx hecho
      exact ⟨found', hfound', hr.append_right _⟩

/-- **Going through repetitions** of selections that were surveyed before finds nothing but
repetitions, and expands nothing. -/
theorem exists_again (hd : d.Echoes home d')
    (h : Surveys schema d fieldTypes trail scope selections expanded found expanded')
    (hknown : expanded' ⊆ known) {others : List (Place × Selection)}
    (hothers : ∀ x' ∈ others, ∃ x ∈ selections, Echoes home x x') :
    ∃ found', Surveys schema d' fieldTypes trail scope others known found' known ∧
      found.Repeated home trail.path found' :=
  exists_of_forall fun x' hx' ↦
    have ⟨_, hx, hecho⟩ := hothers x' hx'
    exists_again_one hd h hknown hx hecho

end Surveys

/-! ## The path to a place -/

namespace Findings

/-- The path of the first occurrence at a place, among those that are seen in a certain way. -/
def pathAt (found : Findings) (p : FieldHead × Scope → Bool) (place : Place) : Option (List Name) :=
  ((found.occurrences.filter fun o ↦ p o.sight).find? fun o ↦ o.place = place).map Occurrence.path

variable {found found' : Findings} {p : FieldHead × Scope → Bool} {place place' : Place}

theorem pathAt_append (a b : Findings) (p : FieldHead × Scope → Bool) (place : Place) :
    (a ++ b).pathAt p place = (a.pathAt p place).or (b.pathAt p place) := by
  rw [pathAt, occurrences_append, List.filter_append, List.find?_append, Option.map_or]
  rfl

theorem pathAt_eq_none (h : ∀ o ∈ found.occurrences, o.place ≠ place) :
    found.pathAt p place = Option.none := by
  rw [pathAt, Option.map_eq_none_iff, List.find?_eq_none]
  intro o ho
  simpa using h o (List.mem_filter.mp ho).1

theorem exists_of_pathAt {path : List Name} (h : found.pathAt p place = some path) :
    ∃ o ∈ found.occurrences, o.place = place ∧ p o.sight = true ∧ o.path = path := by
  obtain ⟨o, ho, rfl⟩ := Option.map_eq_some_iff.mp h
  obtain ⟨hmem, hp⟩ := List.mem_filter.mp (List.mem_of_find?_eq_some ho)
  exact ⟨o, hmem, by simpa using List.find?_some ho, hp, rfl⟩

theorem pathAt_ne_none {o : Occurrence} (ho : o ∈ found.occurrences) (hplace : o.place = place)
    (hp : p o.sight = true) :
    found.pathAt p place ≠ Option.none := by
  rw [pathAt, Ne, Option.map_eq_none_iff, List.find?_eq_none]
  intro hall
  exact hall o (List.mem_filter.mpr ⟨ho, hp⟩) (by simpa using hplace)

/-- Where all occurrences at a place have one path, it matters only whether there are any. -/
theorem pathAt_congr {path : List Name}
    (h : ∀ o ∈ found.occurrences, o.place = place → o.path = path)
    (h' : ∀ o ∈ found'.occurrences, o.place = place' → o.path = path)
    (hiff : (∃ o ∈ found.occurrences, o.place = place ∧ p o.sight = true) ↔
      ∃ o ∈ found'.occurrences, o.place = place' ∧ p o.sight = true) :
    found.pathAt p place = found'.pathAt p place' := by
  cases hpath : found.pathAt p place with
  | none =>
    cases hpath' : found'.pathAt p place' with
    | none => rfl
    | some path' =>
      obtain ⟨o', ho', hplace', hp', -⟩ := exists_of_pathAt hpath'
      obtain ⟨o, ho, hplace, hp⟩ := hiff.mpr ⟨o', ho', hplace', hp'⟩
      exact absurd hpath (pathAt_ne_none ho hplace hp)
  | some path₁ =>
    obtain ⟨o, ho, hplace, hp, rfl⟩ := exists_of_pathAt hpath
    cases hpath' : found'.pathAt p place' with
    | none =>
      obtain ⟨o', ho', hplace', hp'⟩ := hiff.mp ⟨o, ho, hplace, hp⟩
      exact absurd hpath' (pathAt_ne_none ho' hplace' hp')
    | some path₂ =>
      obtain ⟨o', ho', hplace', -, rfl⟩ := exists_of_pathAt hpath'
      rw [h o ho hplace, h' o' ho' hplace']

end Findings

/-- If a place belongs to a named fragment, the fragment is on the path. -/
def Place.OnPath (path : List Name) (p : Place) : Prop := ∀ name, p.owner = some name → name ∈ path

namespace Surveys

variable {home : Place → Place} {schema : Schema} {d d' : Document} {fieldTypes : NameSet}
  {trail : Trail} {scope : Scope} {selections : List (Place × Selection)}
  {expanded expanded' : List Expansion} {found : Findings}

/-- Fields of a fragment on the path are found near, and so are fields that are found on the path of
the survey itself. -/
theorem exists_near_of_mem
    (h : Surveys schema d fieldTypes trail scope selections expanded found expanded')
    {o : Occurrence} (ho : o ∈ found.occurrences)
    (hpath : o.place.OnPath trail.path ∨ o.path = trail.path) :
    ∃ x ∈ selections, o.Near schema fieldTypes trail scope x := by
  rcases h.near_or_far ho with hnear | ⟨name, hname, hmem, hin⟩
  · exact hnear
  · rcases hpath with hpath | hpath
    · exact absurd (hpath name hin.owner_eq) hname
    · exact absurd (hpath ▸ hmem) hname

/-- In surveys of a fragment and of one that repeats its selections, the fields of the fragment
itself are found on one path. -/
theorem pathAt_fragment {name : Name} {f f' : Fragment} {expanded₁ expanded₂ : List Expansion}
    {found' : Findings} (hname : name ∈ trail.path) (hf' : d'.fragment? name = some f')
    (h : Surveys schema d fieldTypes trail scope ((Place.fragment name).locate f.selections)
      expanded found expanded')
    (h' : Surveys schema d' fieldTypes trail scope ((Place.fragment name).locate f'.selections)
      expanded₁ found' expanded₂) (hd : d.Echoes home d')
    (hr : Retraces (Echoes home) [] ((Place.fragment name).locate f.selections)
      ((Place.fragment name).locate f'.selections))
    (hfound : ∀ o' ∈ found'.occurrences, ∃ o ∈ found.occurrences, o.Echoes home o') {place : Place}
    (hplace : place.InFragment d' name) (p : FieldHead × Scope → Bool) :
    found.pathAt p (home place) = found'.pathAt p place := by
  have honPath : ∀ q : Place, q.owner = place.owner → q.OnPath trail.path := by
    intro q hq other hother
    rw [hq, hplace.owner_eq] at hother
    cases hother
    exact hname
  have hnear : ∀ o ∈ found.occurrences, o.place = home place →
    ∃ x ∈ (Place.fragment name).locate f.selections,
      o.Near schema fieldTypes trail scope x :=
    fun o ho heq ↦ h.exists_near_of_mem ho (.inl (honPath _ (heq ▸ hd.owner place)))
  have hpath : ∀ o ∈ found.occurrences, o.place = home place → o.path = trail.path := by
    intro o ho heq
    obtain ⟨x, -, hnear⟩ := hnear o ho heq
    exact hnear.path_eq
  have hpath' : ∀ o' ∈ found'.occurrences, o'.place = place → o'.path = trail.path := by
    intro o' ho' heq
    obtain ⟨x', -, hnear⟩ := h'.exists_near_of_mem ho' (.inl (honPath _ (heq ▸ rfl)))
    exact hnear.path_eq
  refine Findings.pathAt_congr hpath hpath' ⟨?_, ?_⟩
  · -- What is found at the home of the place is found at the place, since the same gates lead
    -- there.
    rintro ⟨o, ho, heq, hp⟩
    obtain ⟨x, hx, gates, inner, condition, hinside, henters, hcondition, ho'⟩ := hnear o ho heq
    obtain ⟨_, x', gates', head, l', hf₁, hx', hinside'⟩ := hplace
    cases hf'.symm.trans hf₁
    obtain ⟨x₁, hx₁, hecho⟩ := hr.exists_of_mem hx'
    obtain ⟨y, hy, hecho⟩ := hecho.exists_encloses hinside'
    obtain ⟨rfl, hsame⟩ := hinside.unique_of_mem hx hx₁ hy (heq.trans hecho.place_eq)
    subst hsame
    obtain ⟨condition', hcondition', hmem⟩ := h'.exists_near hx' hinside' henters
    cases hecho with
    | field =>
      cases hcondition.symm.trans hcondition'
      refine ⟨_, hmem, rfl, ?_⟩
      rw [ho'] at hp
      exact hp
  · rintro ⟨o', ho', heq, hp⟩
    obtain ⟨o, ho, hecho⟩ := hfound o' ho'
    exact ⟨o, ho, by rw [← heq, hecho.field.place_eq], hecho.sight_eq ▸ hp⟩

end Surveys

/-! ## Going along -/

/-- What is found in the longer document goes through what is found in the shorter one and back to
it and to what was found before, and the first way to a field of a fragment off the path is the
same. -/
structure Findings.Echoes (home : Place → Place) (d' : Document) (path : List Name)
    (before found found' : Findings) : Prop where
  /-- This holds for the fields that were found, -/
  occurrences :
    Retraces (Occurrence.Echoes home) before.occurrences found.occurrences found'.occurrences
  /-- and for the fragments that were entered. -/
  entries : Retraces Eq before.entries found.entries found'.entries
  /-- A field of a fragment off the path is first found on the same way. -/
  far : ∀ name, name ∉ path → ∀ place : Place, place.InFragment d' name → ∀ p,
    found.pathAt p (home place) = found'.pathAt p place

namespace Findings.Echoes

variable {home : Place → Place} {d' : Document} {path : List Name}
  {before found found' later later' : Findings}

theorem append (h : before.Echoes home d' path found found')
    (h' : (before ++ found).Echoes home d' path later later') :
    before.Echoes home d' path (found ++ later) (found' ++ later') where
  occurrences := h.occurrences.append h'.occurrences
  entries := h.entries.append h'.entries
  far name hname place hplace p := by
    rw [pathAt_append, pathAt_append, h.far name hname place hplace, h'.far name hname place hplace]

/-- Going back comes before going on. -/
theorem back (h : before.Echoes home d' path .none found')
    (h' : before.Echoes home d' path later later') :
    before.Echoes home d' path later (found' ++ later') :=
  h.append ((append_none before).symm ▸ h')

theorem weaken (before : Findings) (h : Findings.none.Echoes home d' path found found') :
    before.Echoes home d' path found found' :=
  ⟨h.occurrences.weaken (List.nil_subset _), h.entries.weaken (List.nil_subset _), h.far⟩

theorem none (before : Findings) : before.Echoes home d' path .none .none :=
  ⟨.nil _, .nil _, fun _ _ _ _ _ ↦ rfl⟩

theorem entry (e : Entry) : Findings.none.Echoes home d' path ⟨[], [e]⟩ ⟨[], [e]⟩ :=
  ⟨.nil _, .next rfl (.nil _), fun _ _ _ _ _ ↦ rfl⟩

end Findings.Echoes

/-- Wherever the survey of a document is at some selections, a survey of the longer document can go
along with it. -/
def GoesAlong (home : Place → Place) (schema : Schema) (d d' : Document) (fieldTypes : NameSet)
    (trail : Trail) (scope : Scope) (selections : List (Place × Selection))
    (expanded : List Expansion) (found : Findings) (expanded' : List Expansion) : Prop :=
  ∀ ⦃before : List (Place × Selection)⦄ ⦃expanded₀ : List
    Expansion⦄ ⦃found₀ : Findings⦄ ⦃selections' : List (Place × Selection)⦄,
    Surveys schema d fieldTypes trail scope before expanded₀ found₀ expanded →
    (∀ x ∈ before ++ selections, x.1.OnPath trail.path) →
    Retraces (Echoes home) before selections selections' →
    ∃ found', Surveys schema d' fieldTypes trail scope selections' expanded found' expanded' ∧
      found₀.Echoes home d' trail.path found found'

section

variable {home : Place → Place} {schema : Schema} {d d' : Document} {fieldTypes : NameSet}
  {trail : Trail} {scope : Scope} {selections : List (Place × Selection)}
  {expanded expanded₁ expanded' : List Expansion} {found : Findings}

theorem Place.OnPath.of_echoes (hd : d.Echoes home d') {path : List Name} {x x' : Place × Selection}
    (hx : x.1.OnPath path) (h : Echoes home x x') : x'.1.OnPath path := by
  intro name hname
  rw [← hd.owner, h.place_eq] at hname
  exact hx name hname

theorem Place.OnPath.locate {path : List Name} {p : Place} (h : p.OnPath path)
    (l : List Selection) :
    ∀ x ∈ [] ++ p.locate l, x.1.OnPath path := by
  intro x hx name hname
  obtain ⟨k, hk, -⟩ := Place.mem_locate.mp hx
  rw [hk] at hname
  exact h name hname

theorem Place.onPath_locate_fragment (trail : Trail) (name : Name) (l : List Selection) :
    ∀ x ∈ [] ++ (Place.fragment name).locate l, x.1.OnPath (trail.into name).path := by
  refine OnPath.locate (fun other hother ↦ ?_) l
  cases hother
  exact List.mem_append_right _ (List.mem_singleton_self name)

/-- Going back to what was surveyed before. -/
theorem Surveys.exists_back (hd : d.Echoes home d') {before others : List (Place × Selection)}
    {found₀ : Findings}
    (hbefore : Surveys schema d fieldTypes trail scope before expanded found₀ expanded')
    (honPath : ∀ x ∈ before, x.1.OnPath trail.path)
    (hothers : ∀ x' ∈ others, ∃ x ∈ before, Echoes home x x') :
    ∃ found', Surveys schema d' fieldTypes trail scope others expanded' found' expanded' ∧
      found₀.Echoes home d' trail.path .none found' := by
  obtain ⟨found', hfound', hr⟩ := hbefore.exists_again hd (List.Subset.refl _) hothers
  refine ⟨found', hfound', .of_forall fun o' ho' ↦ (hr.occurrences o' ho').2, .of_forall fun e he ↦
    ⟨e, hr.entries he, rfl⟩, ?_⟩
  -- All of it is near, so nothing of it is in a fragment off the path.
  intro name hname place hplace p
  refine (Findings.pathAt_eq_none fun o' ho' heq ↦ hname ?_).symm
  obtain ⟨x', hx', _, _, _, hinside, -⟩ :=
    hfound'.exists_near_of_mem ho' (.inr (hr.occurrences o' ho').1)
  obtain ⟨x, hx, hecho⟩ := hothers x' hx'
  refine (honPath x hx).of_echoes hd hecho name ?_
  rw [← hinside.owner_eq, ← hplace.owner_eq, heq]

/-- A survey goes along selection by selection. -/
theorem GoesAlong.cons (hd : d.Echoes home d') {x : Place × Selection} {first later : Findings}
    (hfirst : Surveys schema d fieldTypes trail scope [x] expanded first expanded₁)
    (hone : x.1.OnPath trail.path → ∀ x', Echoes home x x' →
      ∃ first', Surveys schema d' fieldTypes trail scope [x'] expanded first' expanded₁ ∧
        Findings.none.Echoes home d' trail.path first first')
    (hrest : GoesAlong home schema d d' fieldTypes trail scope selections expanded₁ later
      expanded') :
    GoesAlong home schema d d' fieldTypes trail scope (x :: selections) expanded (first ++ later)
      expanded' := by
  intro before expanded₀ found₀ selections' hbefore honPath hr
  obtain ⟨backs, x', rest', rfl, hbacks, hecho, hr⟩ := hr.exists_split
  obtain ⟨repeated, hrepeated, hback⟩ :=
    hbefore.exists_back hd (fun y hy ↦ honPath y (List.mem_append_left _ hy)) hbacks
  obtain ⟨first', hfirst', hnext⟩ :=
    hone (honPath x (List.mem_append_right _ List.mem_cons_self)) x' hecho
  rw [List.append_cons] at honPath
  obtain ⟨later', hlater', hlast⟩ := hrest (hbefore.append hfirst) honPath hr
  exact ⟨repeated ++ (first' ++ later'), hrepeated.append (hfirst'.append hlater'),
    hback.back ((hnext.weaken found₀).append hlast)⟩

/-- **A survey of the longer document goes along with one of the shorter.** -/
theorem Surveys.exists_echoes (hd : d.Echoes home d')
    (h : Surveys schema d fieldTypes trail scope selections expanded found expanded') :
    GoesAlong home schema d d' fieldTypes trail scope selections expanded found expanded' := by
  induction h with
  | nil trail scope expanded =>
    intro before expanded₀ found₀ selections' hbefore honPath hr
    rw [List.append_nil] at honPath
    exact hbefore.exists_back hd honPath fun x' hx' ↦ by simpa using hr.exists_of_mem hx'
  | @field trail scope _ _ _ _ _ _ expanded _ directives _ ih =>
    refine .cons hd (.field directives (.nil trail scope expanded)) (fun honPath x' hecho ↦ ?_) ih
    cases hecho with
    | field place inside =>
      refine ⟨_, .field directives (.nil trail scope expanded),
        .next ⟨.field place inside, rfl, rfl⟩ (.nil _), .nil _, ?_⟩
      intro name hname q hq p
      have honPath' := honPath.of_echoes hd (.field place inside)
      rw [Findings.pathAt_eq_none, Findings.pathAt_eq_none]
      · exact List.forall_mem_singleton.mpr fun heq ↦
          hname (honPath' name ((congrArg Place.owner heq).trans hq.owner_eq))
      · refine List.forall_mem_singleton.mpr fun heq ↦ hname (honPath name ?_)
        exact (congrArg Place.owner heq).trans ((hd.owner q).trans hq.owner_eq)
  | @skipped trail scope place s _ _ _ expanded _ gate fresh blocked _ ih =>
    have hfirst : Surveys schema d fieldTypes trail scope [(place, s)] expanded .none expanded :=
      .skipped gate fresh blocked (.nil trail scope expanded)
    refine GoesAlong.cons hd hfirst (fun _ x' hecho ↦ ?_) ih
    exact ⟨.none, .skipped (hd.gate?_eq hecho gate) (hecho.fresh fresh) blocked
      (.nil trail scope expanded), .none _⟩
  | @inline trail scope _ _ _ _ _ _ _ _ _ expanded expanded₁ _ pass within _ ihWithin ihAfter =>
    refine GoesAlong.cons hd (.of_append_none (.inline pass within (.nil trail scope expanded₁)))
      (fun honPath x' hecho ↦ ?_) ihAfter
    cases hecho with
    | inline place inside =>
      obtain ⟨inside', hinside', hwithin⟩ :=
        ihWithin (.nil trail _ expanded) (honPath.locate _) inside
      refine ⟨_, .of_append_none (.inline pass hinside' (.nil trail scope expanded₁)), ?_⟩
      exact (Findings.Echoes.entry _).append (hwithin.weaken _)
  | @again trail scope _ _ _ _ _ _ _ _ expanded _ hf fresh pass before _ ih =>
    refine GoesAlong.cons hd (.again hf fresh pass before (.nil trail scope expanded))
      (fun _ x' hecho ↦ ?_) ih
    cases hecho with
    | spread place =>
      obtain ⟨f', hf', htype, -⟩ := hd.exists_fragment hf
      exact ⟨_, .again hf' fresh (htype ▸ pass) before (.nil trail scope expanded), .entry _⟩
  | @spread trail scope inner _ name _ f _ _ _ _ expanded expanded₁ _ hf fresh pass new within _
      ihWithin ihAfter =>
    refine GoesAlong.cons hd
      (.of_append_none (.spread hf fresh pass new within (.nil trail scope expanded₁)))
      (fun _ x' hecho ↦ ?_) ihAfter
    cases hecho with
    | spread place =>
      obtain ⟨f', hf', htype, hr⟩ := hd.exists_fragment hf
      obtain ⟨inside', hinside', hwithin⟩ :=
        ihWithin (.nil _ inner _) (Place.onPath_locate_fragment trail name f.selections) hr
      refine ⟨_,
        .of_append_none
          (.spread hf' fresh (htype ▸ pass) new hinside' (.nil trail scope expanded₁)), ?_⟩
      refine (Findings.Echoes.entry _).append (.weaken _ ⟨hwithin.occurrences, hwithin.entries, ?_⟩)
      -- Fields of the fragment itself are near here, those of others are as far as before.
      intro other hother q hq p
      by_cases hsame : other = name
      · subst hsame
        exact within.pathAt_fragment (List.mem_append_right _ (List.mem_singleton_self _)) hf'
          hinside' hd hr (fun o' ho' ↦ hwithin.occurrences.exists_of_mem ho') hq p
      · refine hwithin.far other (fun hmem ↦ ?_) q hq p
        rcases List.mem_append.mp hmem with hmem | hmem
        · exact hother hmem
        · exact hsame (List.mem_singleton.mp hmem)

end
end ResponseModels
