import ResponseModels.Proofs.Collect.Echo
import ResponseModels.Proofs.Rebuild

/-!
# Fields of repeated selections

Where a document repeats selections of another, the two have the same fields. This file takes what
is known of their surveys, one selection after the other, to the children of a field, and from there
to whole trees of fields.

The children of a field go through those of the same field in the shorter document and back to them
(`Child.AllEcho`). This holds at the root and is handed down from field to field
(`Survey.exists_mirrors_of_echoes`). To see that it is handed down one has to know that children at
a place and at its home have the same path, for a survey fails if it comes upon a fragment that is
on the path:

* A field that is found near a child has the path of the child, and it is near no other child and in
  no fragment that is expanded on the way (`Child.Laid.path_eq`).
* A field in a fragment that is expanded on the way has the same path in both surveys, as the
  surveys go along with each other.

**Definitions whose selections are repeated have the same field** (`expandRoot_of_echoes`).
-/

set_option autoImplicit false

namespace ResponseModels

/-! ## Children -/

/-- A child repeats another. -/
structure Child.Echoes (home : Place → Place) (c c' : Child) : Prop where
  /-- The selection repeats the other. -/
  selection : ResponseModels.Echoes home (c.place, c.selection) (c'.place, c'.selection)
  /-- The same fragments were being expanded. -/
  path : c.path = c'.path

/-- A child stands at its place, right beneath a field or right in the definition that is collected.
If it stands in a named fragment, its path leads through the fragment. -/
structure Child.Lies (d : Document) (root : List Selection) (c : Child) : Prop where
  /-- It stands at its place. -/
  stands : Stands d root c.place c.selection
  /-- The place is right beneath a field, or right in the definition. -/
  above : ∃ above k, c.place = above.child k ∧
    (above = Place.root ∨ ∃ head l, Stands d root above (.field head l))
  /-- If the place is in a named fragment, the path leads through it. -/
  onPath : c.place.OnPath c.path

/-- Children stand at their places, and no two at one place. -/
structure Child.Laid (d : Document) (root : List Selection) (children : List Child) : Prop where
  /-- Each child stands at its place. -/
  lies : ∀ c ∈ children, c.Lies d root
  /-- No two stand at one place. -/
  unique : ∀ c ∈ children, ∀ k ∈ children, c.place = k.place → c = k

/-- The children of the longer document go through those of the shorter one and back to them. -/
structure Child.AllEcho (home : Place → Place) (d d' : Document) (root root' : List Selection)
    (children children' : List Child) : Prop where
  /-- The longer list goes through the shorter one and back to it. -/
  retraces : Retraces (Child.Echoes home) [] children children'
  /-- The children of the shorter document stand at their places, -/
  laid : Child.Laid d root children
  /-- and so do those of the longer one. -/
  laid' : Child.Laid d' root' children'

namespace Child

variable {d : Document} {root : List Selection}

theorem Lies.anchored {c : Child} (h : c.Lies d root) : c.place.Anchored d root := by
  obtain ⟨above, k, hplace, habove⟩ := h.above
  refine ⟨above, k, hplace, habove.imp_left ?_⟩
  rintro rfl
  rfl

/-- What stands right in a named fragment is not near a child. -/
theorem Lies.not_encloses {c : Child} (h : c.Lies d root) {place : Place} {name : Name}
    (hplace : place.InFragment d name) {gates : List Gate} {s : Selection} :
    ¬ Encloses (c.place, c.selection) gates (place, s) := by
  intro hinside
  obtain ⟨f, x, gates', head, l, hf, hx, hinside'⟩ := hplace
  obtain ⟨k, hk, -⟩ := Place.mem_locate.mp hx
  have hstands : Stands d root x.1 x.2 := by
    refine .of_mem_locate ?_ hx
    show (d.fragment? name).map Fragment.selections = some f.selections
    rw [hf]
    rfl
  have hanchored : x.1.Anchored d root := ⟨Place.fragment name, k, hk, .inl rfl⟩
  have hsame : c.place = x.1 :=
    hinside.anchor_unique hinside' h.stands hstands h.anchored hanchored rfl
  obtain ⟨above, m, habove, hroot | ⟨_, _, hfield⟩⟩ := h.above
  · rw [habove, hk, Place.child_inj, hroot] at hsame
    cases hsame.1
  · rw [habove, hk, Place.child_inj] at hsame
    obtain ⟨_, _, _, hcons, -⟩ := hsame.1 ▸ hfield
    cases hcons

end Child

theorem Child.mem_map_locate {p : Place} {l : List Selection} {path : List Name} {c : Child} :
    c ∈ (p.locate l).map (fun x ↦ ⟨x.2, x.1, path⟩) ↔ (c.place, c.selection) ∈ p.locate l ∧
      c.path = path := by
  rw [List.mem_map]
  constructor
  · rintro ⟨x, hx, rfl⟩
    exact ⟨hx, rfl⟩
  · rintro ⟨hx, hpath⟩
    exact ⟨_, hx, by rw [← hpath]⟩

theorem Occurrence.mem_children {o : Occurrence} {c : Child} :
    c ∈ o.children ↔ (c.place, c.selection) ∈ o.place.locate o.selections ∧ c.path = o.path :=
  Child.mem_map_locate

theorem Occurrence.exists_child {o : Occurrence} {c : Child} (hc : c ∈ o.children) :
    ∃ k, c.place = o.place.child k := by
  obtain ⟨k, hk, -⟩ := Place.mem_locate.mp (mem_children.mp hc).1
  exact ⟨k, hk⟩

/-! ## Taking each place once -/

namespace Child

theorem addNew_cons_of_mem {children rest : List Child} {c : Child}
    (h : ∃ k ∈ children, k.place = c.place) :
    addNew children (c :: rest) = addNew children rest := by
  rw [addNew, if_pos (by simpa using h)]

theorem addNew_cons_of_not_mem {children rest : List Child} {c : Child}
    (h : ¬ ∃ k ∈ children, k.place = c.place) :
    addNew children (c :: rest) = addNew (children ++ [c]) rest := by
  rw [addNew, if_neg (by simpa using h)]

private theorem find?_of_mem_addNew {children more : List Child}
    (hfirst : ∀ c ∈ children, children.find? (fun k ↦ k.place = c.place) = some c) {c : Child}
    (hc : c ∈ addNew children more) :
    (children ++ more).find? (fun k ↦ k.place = c.place) = some c := by
  induction more generalizing children with
  | nil => exact (List.append_nil children).symm ▸ hfirst c hc
  | cons k rest ih =>
    by_cases hk : ∃ k' ∈ children, k'.place = k.place
    · rw [addNew_cons_of_mem hk] at hc
      have hfind := ih hfirst hc
      rw [List.find?_append] at hfind ⊢
      cases hnone : children.find? fun k ↦ k.place = c.place with
      | some found => rwa [hnone] at hfind
      | none =>
        obtain ⟨k', hk', hplace⟩ := hk
        have hne : k.place ≠ c.place := by
          intro heq
          exact absurd (hplace.trans heq) (by simpa using List.find?_eq_none.mp hnone k' hk')
        rw [hnone] at hfind
        rw [List.find?_cons_of_neg (by simpa using hne)]
        exact hfind
    · rw [addNew_cons_of_not_mem hk] at hc
      rw [List.append_cons]
      refine ih (List.forall_mem_append.mpr ⟨fun k' hk' ↦ ?_, List.forall_mem_singleton.mpr ?_⟩) hc
      · rw [List.find?_append, hfirst k' hk']
        rfl
      · have hnone : children.find? (fun k' ↦ k'.place = k.place) = none :=
          List.find?_eq_none.mpr fun k' hk' ↦ by simpa using fun heq ↦ hk ⟨k', hk', heq⟩
        rw [List.find?_append, hnone]
        simp

/-- Of several children at a place the first is taken. -/
theorem find?_of_mem_addNew_nil {more : List Child} {c : Child} (hc : c ∈ addNew [] more) :
    more.find? (fun k ↦ k.place = c.place) = some c :=
  find?_of_mem_addNew (fun _ hk ↦ absurd hk List.not_mem_nil) hc

theorem eq_of_mem_addNew {more : List Child} {c k : Child} (hc : c ∈ addNew [] more)
    (hk : k ∈ addNew [] more) (hplace : c.place = k.place) : c = k := by
  have hfind := find?_of_mem_addNew_nil hc
  rw [hplace, find?_of_mem_addNew_nil hk] at hfind
  exact (Option.some.inj hfind).symm

/-- Going through places and back is going through the places that are taken and back. -/
theorem retraces_addNew {home : Place → Place} {before more more' children children' : List Child}
    (h : Retraces (fun c c' : Child ↦ home c'.place = c.place) before more more')
    (hchildren : Retraces (fun c c' : Child ↦ home c'.place = c.place) [] children children')
    (hbefore : ∀ c ∈ before, ∃ k ∈ children, k.place = c.place) :
    Retraces (fun c c' : Child ↦ home c'.place = c.place) [] (addNew children more)
      (addNew children' more') := by
  induction h generalizing children children' with
  | nil => exact hchildren
  | @next before more more' c c' step _ ih =>
    by_cases hc : ∃ k ∈ children, k.place = c.place
    · have hbefore' : ∀ k ∈ before ++ [c], ∃ k' ∈ children, k'.place = k.place :=
        List.forall_mem_append.mpr ⟨hbefore, List.forall_mem_singleton.mpr hc⟩
      rw [addNew_cons_of_mem hc]
      by_cases hc' : ∃ k ∈ children', k.place = c'.place
      · rw [addNew_cons_of_mem hc']
        exact ih hchildren hbefore'
      · obtain ⟨k, hk, hplace⟩ := hc
        rw [addNew_cons_of_not_mem hc']
        exact ih (hchildren.append_back hk (step.trans hplace.symm)) hbefore'
    · have hc' : ¬ ∃ k ∈ children', k.place = c'.place := by
        rintro ⟨k', hk', hplace⟩
        obtain ⟨k, hk, hstep⟩ := hchildren.exists_of_mem hk'
        exact hc ⟨k, hk, by rw [← hstep, hplace, step]⟩
      rw [addNew_cons_of_not_mem hc, addNew_cons_of_not_mem hc']
      refine ih (hchildren.append (.next step (.nil _)))
        (List.forall_mem_append.mpr ⟨fun k hk ↦ ?_, ?_⟩)
      · obtain ⟨k', hk', hplace⟩ := hbefore k hk
        exact ⟨k', List.mem_append_left _ hk', hplace⟩
      · exact List.forall_mem_singleton.mpr ⟨c, List.mem_append_right _ (List.mem_singleton_self c),
          rfl⟩
  | @back before more more' c c' seen step _ ih =>
    by_cases hc' : ∃ k ∈ children', k.place = c'.place
    · rw [addNew_cons_of_mem hc']
      exact ih hchildren hbefore
    · obtain ⟨k, hk, hplace⟩ := hbefore c seen
      rw [addNew_cons_of_not_mem hc']
      exact ih (hchildren.append_back hk (step.trans hplace.symm)) hbefore

end Child

/-! ## Surveys of children -/

section

variable {home : Place → Place} {schema : Schema} {d d' : Document} {root root' : List Selection}
  {fieldTypes : NameSet} {rawType : Name} {children children' : List Child}
  {expanded : List Expansion} {found : Findings}

/-- What is found by the survey of a field is near a child or in a named fragment. -/
theorem near_or_far_of_surveyChildren
    (h : surveyChildren schema d fieldTypes rawType children expanded = .ok found) {o : Occurrence}
    (ho : o ∈ found.occurrences) :
    (∃ c ∈ children, o.Near schema fieldTypes ⟨c.path, true⟩ (.ofField rawType) (c.place,
      c.selection)) ∨ ∃ name, name ∈ o.path ∧ o.place.InFragment d name := by
  obtain ⟨c, hc, part, -, ⟨_, _, hpart⟩, ho⟩ := (contributes_of_surveyChildren h).1 o ho
  rcases hpart.near_or_far ho with ⟨x, hx, hnear⟩ | ⟨name, -, hpath, hin⟩
  · cases List.mem_singleton.mp hx
    exact .inl ⟨c, hc, hnear⟩
  · exact .inr ⟨name, hpath, hin⟩

namespace Child.Laid

variable (hlaid : Laid d root children)
include hlaid

/-- **A field near a child is found on the path of the child.** -/
theorem path_eq (h : surveyChildren schema d fieldTypes rawType children expanded = .ok found)
    {c : Child} (hc : c ∈ children) {gates : List Gate} {place : Place} {s : Selection}
    (hinside : Encloses (c.place, c.selection) gates (place, s)) :
    ∀ o ∈ found.occurrences, o.place = place → o.path = c.path := by
  rintro o ho rfl
  rcases near_or_far_of_surveyChildren h ho with ⟨k, hk, hnear⟩ | ⟨name, -, hin⟩
  · have hpath := hnear.path_eq
    obtain ⟨gates', _, _, hinside', -⟩ := hnear
    have hsame : c.place = k.place :=
      hinside.anchor_unique hinside' (hlaid.lies c hc).stands (hlaid.lies k hk).stands
        (hlaid.lies c hc).anchored (hlaid.lies k hk).anchored rfl
    cases hlaid.unique c hc k hk hsame
    exact hpath
  · exact absurd hinside ((hlaid.lies c hc).not_encloses hin)

theorem stands (h : surveyChildren schema d fieldTypes rawType children expanded = .ok found) :
    ∀ o ∈ found.occurrences, Stands d root o.place (.field o.head o.selections) :=
  stands_of_surveyChildren h fun c hc ↦ (hlaid.lies c hc).stands

/-- What is selected beneath fields that a survey finds stands at its place. -/
theorem addNew (h : surveyChildren schema d fieldTypes rawType children expanded = .ok found)
    (p : Occurrence → Bool) :
    Laid d root (Child.addNew [] ((found.occurrences.filter p).flatMap Occurrence.children)) := by
  refine ⟨fun c hc ↦ ?_, fun c hc k hk ↦ eq_of_mem_addNew hc hk⟩
  obtain ⟨o, ho, hc⟩ := List.mem_flatMap.mp ((mem_of_mem_addNew hc).resolve_left List.not_mem_nil)
  have ho := (List.mem_filter.mp ho).1
  have hstands := hlaid.stands h o ho
  have honPath : o.place.OnPath o.path := by
    intro name hname
    rcases near_or_far_of_surveyChildren h ho with ⟨k, hk, hnear⟩ | ⟨other, hother, hin⟩
    · rw [hnear.path_eq]
      obtain ⟨_, _, _, hinside, -⟩ := hnear
      exact (hlaid.lies k hk).onPath name (hinside.owner_eq ▸ hname)
    · rw [hin.owner_eq] at hname
      cases hname
      exact hother
  obtain ⟨k, hk⟩ := Occurrence.exists_child hc
  refine ⟨Occurrence.stands_children hstands c hc,
    ⟨o.place, k, hk, .inr ⟨o.head, o.selections, hstands⟩⟩, fun name hname ↦ ?_⟩
  rw [hk] at hname
  exact (Occurrence.mem_children.mp hc).2 ▸ honPath name hname

end Child.Laid

/-- Right in a named fragment nothing is found near a child. -/
theorem Surveys.pathAt_eq_none_of_lies {c : Child} {scope : Scope} {expanded' : List Expansion}
    (h : Surveys schema d fieldTypes ⟨c.path, true⟩ scope [(c.place, c.selection)] expanded found
      expanded') (hlies : c.Lies d root)
    {name : Name} {place : Place} (hplace : place.InFragment d name)
    (hnear : name ∈ c.path ∨ ∀ o ∈ found.occurrences, o.path = c.path)
    (p : FieldHead × Scope → Bool) :
    found.pathAt p place = none := by
  refine Findings.pathAt_eq_none fun o ho heq ↦ ?_
  have hpath : o.place.OnPath c.path ∨ o.path = c.path := by
    refine hnear.imp (fun hname other hother ↦ ?_) fun hall ↦ hall o ho
    rw [heq, hplace.owner_eq] at hother
    cases hother
    exact hname
  obtain ⟨x, hx, _, _, _, hinside, -⟩ := h.exists_near_of_mem ho hpath
  cases List.mem_singleton.mp hx
  exact hlies.not_encloses (heq ▸ hplace) hinside

/-- A child has been surveyed: what was expanded and found is known. -/
def Child.Surveyed (schema : Schema) (d : Document) (fieldTypes : NameSet) (rawType : Name)
    (expanded : List Expansion) (found : Findings) (c : Child) : Prop :=
  ∃ expanded₀ part expanded₁,
    Surveys schema d fieldTypes ⟨c.path, true⟩ (.ofField rawType) [(c.place, c.selection)] expanded₀
      part expanded₁ ∧ expanded₁ ⊆ expanded ∧ part.occurrences ⊆ found.occurrences ∧
      part.entries ⊆ found.entries

theorem Child.Surveyed.go_on {expanded' : List Expansion} {c : Child}
    (h : c.Surveyed schema d fieldTypes rawType expanded found) (hsub : expanded ⊆ expanded')
    (more : Findings) : c.Surveyed schema d fieldTypes rawType expanded' (found ++ more) := by
  obtain ⟨expanded₀, part, expanded₁, hpart, hsub', ho, he⟩ := h
  exact ⟨expanded₀, part, expanded₁, hpart, List.Subset.trans hsub' hsub,
    List.Subset.trans ho (List.subset_append_left _ _),
    List.Subset.trans he (List.subset_append_left _ _)⟩

/-- **A survey of children goes along** with one of the children they repeat. -/
theorem exists_surveyChildren_echoes (hd : d.Echoes home d') (found₀ : Findings)
    {before : List Child} (hr : Retraces (Child.Echoes home) before children children')
    (hbefore : ∀ c ∈ before, c.Surveyed schema d fieldTypes rawType expanded found₀)
    (hlies : ∀ c ∈ children, c.Lies d root) (hlies' : ∀ c ∈ children', c.Lies d' root')
    (h : surveyChildren schema d fieldTypes rawType children expanded = .ok found) :
    ∃ found', surveyChildren schema d' fieldTypes rawType children' expanded = .ok found' ∧
      found₀.Echoes home d' [] found found' := by
  induction hr generalizing expanded found₀ found with
  | nil =>
    cases h
    exact ⟨.none, rfl, .none found₀⟩
  | @next before rest rest' c c' step _ ih =>
    obtain ⟨hc, hrest⟩ := List.forall_mem_cons.mp hlies
    obtain ⟨hc', hrest'⟩ := List.forall_mem_cons.mp hlies'
    rw [surveyChildren] at h
    obtain ⟨⟨first, expanded₁⟩, hfirst, h⟩ := Error.bind_eq_ok.mp h
    obtain ⟨later, hlater, h⟩ := Error.bind_eq_ok.mp h
    cases h
    have hsurveys := surveys_of_ok hfirst
    obtain ⟨first', hfirst', hecho⟩ :=
      hsurveys.exists_echoes hd (.nil _ _ _) (List.forall_mem_singleton.mpr hc.onPath)
        (.next step.selection (.nil _))
    have hbefore' : ∀ k ∈ before ++ [c],
        k.Surveyed schema d fieldTypes rawType expanded₁ (found₀ ++ first) := by
      refine List.forall_mem_append.mpr
        ⟨fun k hk ↦ (hbefore k hk).go_on hsurveys.subset_expanded first, ?_⟩
      exact List.forall_mem_singleton.mpr
        ⟨expanded, first, expanded₁, hsurveys, List.Subset.refl _, List.subset_append_right _ _,
          List.subset_append_right _ _⟩
    obtain ⟨later', hlater', hecho'⟩ := ih _ hbefore' hrest hrest' hlater
    rw [step.path] at hfirst'
    refine ⟨first' ++ later', ?_,
      .append (.weaken found₀ ⟨hecho.occurrences, hecho.entries, ?_⟩) hecho'⟩
    · rw [surveyChildren]
      exact Error.bind_eq_ok.mpr ⟨_, hfirst'.ok, Error.bind_eq_ok.mpr ⟨_, hlater', rfl⟩⟩
    · -- In a fragment on the path the child finds nothing, for what it finds there would be near
      -- it.
      intro name _ place hplace p
      by_cases hname : name ∈ c.path
      · rw [hsurveys.pathAt_eq_none_of_lies hc (hd.home_inFragment hplace) (.inl hname),
          hfirst'.pathAt_eq_none_of_lies hc' hplace (.inl (step.path ▸ hname))]
      · exact hecho.far name hname place hplace p
  | @back before _ rest' c c' seen step _ ih =>
    obtain ⟨hc', hrest'⟩ := List.forall_mem_cons.mp hlies'
    obtain ⟨expanded₀, part, expanded₁, hpart, hsub, ho, he⟩ := hbefore c seen
    obtain ⟨part', hpart', hrepeated⟩ := hpart.exists_again hd hsub
      (List.forall_mem_singleton.mpr ⟨_, List.mem_singleton_self _, step.selection⟩)
    obtain ⟨later', hlater', hecho'⟩ := ih found₀ hbefore hlies hrest' h
    rw [step.path] at hpart' hrepeated
    refine ⟨part' ++ later', ?_,
      .back ⟨.of_forall fun o' ho' ↦ ?_, .of_forall fun e he' ↦ ?_, ?_⟩ hecho'⟩
    · rw [surveyChildren]
      exact Error.bind_eq_ok.mpr ⟨_, hpart'.ok, Error.bind_eq_ok.mpr ⟨_, hlater', rfl⟩⟩
    · obtain ⟨-, o, hmem, hecho⟩ := hrepeated.occurrences o' ho'
      exact ⟨o, ho hmem, hecho⟩
    · exact ⟨e, he (hrepeated.entries he'), rfl⟩
    · intro name _ place hplace p
      exact (hpart'.pathAt_eq_none_of_lies hc' hplace (.inr fun o' ho' ↦
        (hrepeated.occurrences o' ho').1) p).symm

end

/-! ## What is handed down -/

section

variable {home : Place → Place}

theorem Occurrence.Echoes.children {o o' : Occurrence} (h : o.Echoes home o') :
    Retraces (Child.Echoes home) [] o.children o'.children := by
  rw [Occurrence.children, Occurrence.children, h.path]
  exact h.field.of_field.2.map fun x x' hecho ↦ ⟨hecho, rfl⟩

/-- The first child at a place comes from the first occurrence above it. -/
theorem find?_of_find?_children {occurrences : List Occurrence} {place : Place} {k : Nat}
    {c : Child}
    (hsame : ∀ o ∈ occurrences, ∀ o' ∈ occurrences, o.place = o'.place →
      o.selections = o'.selections)
    (h : (occurrences.flatMap Occurrence.children).find? (fun c ↦ c.place = place.child k) =
      some c) :
    (occurrences.find? fun o ↦ o.place = place).map Occurrence.path = some c.path := by
  induction occurrences with
  | nil => cases h
  | cons o rest ih =>
    rw [List.flatMap_cons, List.find?_append] at h
    have hrest : ∀ o ∈ rest, ∀ o' ∈ rest, o.place = o'.place → o.selections = o'.selections :=
      fun o ho o' ho' ↦
        hsame o (List.mem_cons_of_mem _ ho) o' (List.mem_cons_of_mem _ ho')
    cases hfirst : o.children.find? fun c ↦ c.place = place.child k with
    | some first =>
      rw [hfirst] at h
      cases h
      have hc := List.mem_of_find?_eq_some hfirst
      obtain ⟨m, hm⟩ := Occurrence.exists_child hc
      have hplace : c.place = place.child k := by simpa using List.find?_some hfirst
      rw [List.find?_cons_of_pos, Option.map_some, (Occurrence.mem_children.mp hc).2]
      simpa using (Place.child_inj.mp (hm.symm.trans hplace)).1
    | none =>
      rw [hfirst, Option.none_or] at h
      have hplace : o.place ≠ place := by
        -- Otherwise the child would come from this occurrence.
        intro heq
        obtain ⟨o', ho', hc⟩ := List.mem_flatMap.mp (List.mem_of_find?_eq_some h)
        have hck : c.place = place.child k := by simpa using List.find?_some h
        obtain ⟨m, hm⟩ := Occurrence.exists_child hc
        have habove := (Place.child_inj.mp (hm.symm.trans hck)).1
        have hlocated := (Occurrence.mem_children.mp hc).1
        rw [← hsame o List.mem_cons_self o' (List.mem_cons_of_mem _ ho') (heq.trans habove.symm),
          habove, ← heq] at hlocated
        have hmem : (⟨c.selection, c.place, o.path⟩ : Child) ∈ o.children :=
          Occurrence.mem_children.mpr ⟨hlocated, rfl⟩
        exact absurd hck (by simpa using List.find?_eq_none.mp hfirst _ hmem)
      rw [List.find?_cons_of_neg (by simpa using hplace)]
      exact ih hrest h

variable {schema : Schema} {d d' : Document} {root root' : List Selection} {fieldTypes : NameSet}
  {rawType : Name} {children children' : List Child} {expanded : List Expansion}
  {found found' : Findings}

/-- A child that is taken has the path of the first occurrence at the place above it. -/
theorem Child.Laid.exists_pathAt (hlaid : Child.Laid d root children)
    (h : surveyChildren schema d fieldTypes rawType children expanded = .ok found)
    {p : FieldHead × Scope → Bool} {c : Child}
    (hc : c ∈ Child.addNew []
      ((found.occurrences.filter fun o ↦ p o.sight).flatMap Occurrence.children)) :
    ∃ o ∈ found.occurrences, p o.sight = true ∧ c ∈ o.children ∧
      found.pathAt p o.place = some c.path := by
  obtain ⟨o, ho, hmem⟩ :=
    List.mem_flatMap.mp ((Child.mem_of_mem_addNew hc).resolve_left List.not_mem_nil)
  obtain ⟨hfound, hp⟩ := List.mem_filter.mp ho
  have hsame : ∀ o ∈ found.occurrences.filter (fun o ↦ p o.sight),
      ∀ o' ∈ found.occurrences.filter (fun o ↦ p o.sight),
      o.place = o'.place → o.selections = o'.selections := by
    intro o ho o' ho' heq
    have hunique := (hlaid.stands h o (List.mem_filter.mp ho).1).unique
      (heq ▸ hlaid.stands h o' (List.mem_filter.mp ho').1)
    exact (Selection.field.inj hunique).2
  obtain ⟨k, hk⟩ := Occurrence.exists_child hmem
  refine ⟨o, hfound, hp, hmem, find?_of_find?_children (k := k) hsame ?_⟩
  rw [← hk]
  exact Child.find?_of_mem_addNew_nil hc

variable (hchildren : Child.AllEcho home d d' root root' children children')
  (h : surveyChildren schema d fieldTypes rawType children expanded = .ok found)
  (h' : surveyChildren schema d' fieldTypes rawType children' expanded = .ok found')
  (hecho : Findings.none.Echoes home d' [] found found')
include hchildren h h' hecho

/-- **The first way to a place and to its home is the same.** -/
theorem pathAt_home {o' : Occurrence} (ho' : o' ∈ found'.occurrences) {p : FieldHead × Scope → Bool}
    (hp : p o'.sight = true) :
    found.pathAt p (home o'.place) = found'.pathAt p o'.place := by
  rcases near_or_far_of_surveyChildren h' ho' with ⟨c', hc', _, _, _, hinside', -⟩ | ⟨name, -, hin⟩
  · -- Near a child all occurrences at the place have its path, and those at its home have the path
    -- of the child it repeats.
    obtain ⟨c, hc, hcc⟩ := hchildren.retraces.exists_of_mem hc'
    obtain ⟨y, hy, hyy⟩ := hcc.selection.exists_encloses hinside'
    obtain ⟨o, ho, hoo⟩ := hecho.occurrences.exists_of_mem ho'
    have hpath := hchildren.laid.path_eq h hc hy
    have hpath' := hchildren.laid'.path_eq h' hc' hinside'
    rw [hyy.place_eq]
    refine Findings.pathAt_congr (hcc.path ▸ hpath) hpath'
      ⟨fun _ ↦ ⟨o', ho', rfl, hp⟩, fun _ ↦ ⟨o, ho, ?_, hoo.sight_eq ▸ hp⟩⟩
    exact hoo.field.place_eq.symm.trans hyy.place_eq
  · exact hecho.far name List.not_mem_nil o'.place hin p

/-- What is selected beneath some of the fields that are found corresponds again. -/
theorem Child.AllEcho.beneath (p : FieldHead × Scope → Bool) :
    Child.AllEcho home d d' root root'
      (Child.addNew [] ((found.occurrences.filter fun o ↦ p o.sight).flatMap Occurrence.children))
      (Child.addNew []
        ((found'.occurrences.filter fun o ↦ p o.sight).flatMap Occurrence.children)) := by
  refine ⟨?_, hchildren.laid.addNew h _, hchildren.laid'.addNew h' _⟩
  have hall :
      Retraces (Child.Echoes home) []
        ((found.occurrences.filter fun o ↦ p o.sight).flatMap Occurrence.children)
      ((found'.occurrences.filter fun o ↦ p o.sight).flatMap Occurrence.children) :=
    (hecho.occurrences.filter fun o o' hoo ↦ by rw [hoo.sight_eq]).flatMap fun o o' hoo ↦
      hoo.children
  have htaken :=
    Child.retraces_addNew (hall.imp fun c _ c' _ hcc ↦ hcc.selection.place_eq) (.nil [])
    fun c hc ↦ absurd hc List.not_mem_nil
  refine htaken.imp fun c hc c' hc' hplace ↦ ?_
  obtain ⟨o, -, -, hmem, hpath⟩ := hchildren.laid.exists_pathAt h hc
  obtain ⟨o', ho', hp, hmem', hpath'⟩ := hchildren.laid'.exists_pathAt h' hc'
  obtain ⟨o₁, ho₁, hoo⟩ := hecho.occurrences.exists_of_mem ho'
  obtain ⟨c₁, hc₁, hcc⟩ := hoo.children.exists_of_mem hmem'
  -- The child that is repeated stands at the same place, so it reads the same.
  have hsame : c₁.place = c.place := hcc.selection.place_eq.symm.trans hplace
  have hstands := Occurrence.stands_children (hchildren.laid.stands h o₁ ho₁) c₁ hc₁
  have hselection : c₁.selection = c.selection := by
    rw [hsame] at hstands
    exact hstands.unique ((hchildren.laid.addNew h _).lies c hc).stands
  have habove : home o'.place = o.place := by
    obtain ⟨k, hk⟩ := Occurrence.exists_child hmem
    obtain ⟨m, hm⟩ := Occurrence.exists_child hc₁
    exact hoo.field.place_eq.trans (Place.child_inj.mp (hm.symm.trans (hsame.trans hk))).1
  refine ⟨?_, ?_⟩
  · rw [← hsame, ← hselection]
    exact hcc.selection
  · have hfirst := pathAt_home hchildren h h' hecho ho' hp
    rw [habove, hpath, hpath'] at hfirst
    exact Option.some.inj hfirst

end

/-! ## Definitions -/

section

variable {home : Place → Place} {schema : Schema} {d d' : Document} {root root' : List Selection}
  {rawType : Name}

/-- **Children that are repeated are surveyed alike.** -/
theorem Survey.exists_mirrors_of_echoes (hd : d.Echoes home d') {children children' : List Child}
    {s : Survey} (hchildren : Child.AllEcho home d d' root root' children children')
    (h : Survey.ofChildren schema d rawType children = .ok s) :
    ∃ s', Survey.ofChildren schema d' rawType children' = .ok s' ∧
      s.Mirrors Eq (Child.AllEcho home d d' root root') s' := by
  obtain ⟨hraw, htypes, hfound⟩ := ofChildren_eq_ok h
  obtain ⟨found', hfound', hecho⟩ := exists_surveyChildren_echoes hd .none hchildren.retraces
    (fun c hc ↦ absurd hc List.not_mem_nil) hchildren.laid.lies hchildren.laid'.lies hfound
  have hentries : SeenAlike s.found.entries found'.entries := hecho.entries.seenAlike
  have hsights :
      SeenAlike (s.found.occurrences.map Occurrence.sight)
        (found'.occurrences.map Occurrence.sight) :=
    (hecho.occurrences.map fun o o' hoo ↦ hoo.sight_eq).seenAlike
  refine ⟨⟨rawType, s.fieldTypes, found'⟩, ?_, hraw, typeConditions_eq (hentries.map _),
    declaredTypeSets_eq (hentries.map _), ?_, ?_, hsights, hchildren.beneath hfound hfound' hecho⟩
  · exact Error.bind_eq_ok.mpr ⟨_, htypes, Error.bind_eq_ok.mpr ⟨_, hfound', rfl⟩⟩
  · exact (hentries.filterMap Entry.spread).eraseDups_eq
  · exact fun typeSet ↦ ((hentries.filter _).filterMap Entry.spread).eraseDups_eq

theorem Child.laid_rootChildren (d : Document) (selections : List Selection) (path : List Name) :
    Child.Laid d selections (rootChildren selections path) := by
  refine ⟨fun c hc ↦ ?_, fun c hc k hk hplace ↦ ?_⟩
  · obtain ⟨m, hm, -⟩ := Place.mem_locate.mp (Child.mem_map_locate.mp hc).1
    refine ⟨stands_rootChildren hc, ⟨Place.root, m, hm, .inl rfl⟩, fun name hname ↦ ?_⟩
    rw [show c.place = Place.root.child m from hm] at hname
    cases hname
  · obtain ⟨hc, hpath⟩ := Child.mem_map_locate.mp hc
    obtain ⟨hk, hpath'⟩ := Child.mem_map_locate.mp hk
    have hsame := Place.eq_of_mem_locate hc hk List.suffix_rfl (hplace ▸ List.suffix_rfl)
    exact (Child.mk.injEq ..).mpr ⟨congrArg Prod.snd hsame, hplace, hpath.trans hpath'.symm⟩

/-- **Definitions whose selections are repeated have the same field.** -/
theorem expandRoot_of_echoes (hd : d.Echoes home d') {policy : TypenamePolicy}
    {selections selections' : List Selection} {path : List Name}
    (hr : Retraces (Echoes home) [] (Place.root.locate selections)
      (Place.root.locate selections')) :
    Yields (expandRoot schema d policy rawType selections path)
      (expandRoot schema d' policy rawType selections' path) := by
  intro f hf
  have hroot :
      Child.AllEcho home d d' selections selections' (rootChildren selections path)
        (rootChildren selections' path) :=
    ⟨hr.map fun x x' hecho ↦ ⟨hecho, rfl⟩, Child.laid_rootChildren d selections path,
      Child.laid_rootChildren d' selections' path⟩
  refine expandRoot_eq_ok_of_agrees (fun hchildren hs ↦ ?_) hroot hf
  obtain ⟨s', hs', hmirrors⟩ := Survey.exists_mirrors_of_echoes hd hchildren hs
  exact ⟨s', hs', hmirrors.agrees hs hs'⟩

end
end ResponseModels
