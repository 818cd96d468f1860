import ResponseModels.Proofs.Collect.Coverage

/-!
# Where a survey finds fields

A field that a survey finds stands near one of the selections it goes through, with nothing but
inline fragments between them, or in a named fragment that is expanded on the way. The path tells
the two apart.

* `Encloses` says that a selection stands inside another, with the gates on the way. Among
  selections that are located in one list, the place of a selection determines which of them it
  stands inside, and how (`Encloses.unique_of_mem`).
* What a survey finds is near, or in a fragment that is not on the path (`Surveys.near_or_far`), and
  it finds all that is near (`Surveys.exists_near`).
* **A field stands near one selection only** of those right beneath a field or right in a definition
  (`Encloses.anchor_unique`).
-/

set_option autoImplicit false

namespace ResponseModels

/-! ## Selections inside others -/

namespace Place

theorem child_inj {p q : Place} {k m : Nat} : p.child k = q.child m ↔ p = q ∧ k = m := by
  obtain ⟨owner, steps⟩ := p
  obtain ⟨owner', steps'⟩ := q
  simp only [child, mk.injEq, List.cons.injEq]
  exact ⟨fun h ↦ ⟨⟨h.1, h.2.2⟩, h.2.1⟩, fun h ↦ ⟨h.1.1, h.2, h.1.2⟩⟩

private theorem getElem?_locateFrom (p : Place) (i : Nat) (l : List Selection) (k : Nat) :
    (p.locateFrom i l)[k]? = l[k]?.map fun s ↦ (p.child (i + k), s) := by
  induction l generalizing i k with
  | nil => rfl
  | cons s rest ih =>
    cases k with
    | zero => rfl
    | succ k =>
      rw [locateFrom, List.getElem?_cons_succ, List.getElem?_cons_succ, ih, Nat.add_right_comm]
      rfl

/-- What is located in a list, and where. -/
theorem mem_locate {p : Place} {l : List Selection} {x : Place × Selection} :
    x ∈ p.locate l ↔ ∃ k, x.1 = p.child k ∧ l[k]? = some x.2 := by
  simp only [locate, List.mem_iff_getElem?, getElem?_locateFrom, Nat.zero_add,
    Option.map_eq_some_iff]
  constructor
  · rintro ⟨k, s, hs, rfl⟩
    exact ⟨k, rfl, hs⟩
  · rintro ⟨k, hp, hs⟩
    exact ⟨k, x.2, hs, Prod.ext hp.symm rfl⟩

/-- One way down leads through one selection of a list only. -/
theorem eq_of_mem_locate {p : Place} {l : List Selection} {x y : Place × Selection}
    (hx : x ∈ p.locate l) (hy : y ∈ p.locate l) {steps : List Nat} (hsuffix : x.1.steps <:+ steps)
    (hsuffix' : y.1.steps <:+ steps) : x = y := by
  obtain ⟨k, hk, hxk⟩ := mem_locate.mp hx
  obtain ⟨m, hm, hym⟩ := mem_locate.mp hy
  rw [hk] at hsuffix
  rw [hm] at hsuffix'
  have hsame : (p.child k).steps = (p.child m).steps :=
    (List.suffix_of_suffix_length_le hsuffix hsuffix' (Nat.le_refl _)).eq_of_length rfl
  cases (List.cons.inj hsame).1
  exact Prod.ext (hk.trans hm.symm) (Option.some.inj (hxk.symm.trans hym))

end Place

/-- The first selection is the second or has it inside, with nothing but inline fragments between
them, whose gates are given. -/
inductive Encloses : Place × Selection → List Gate → Place × Selection → Prop
  | here (x : Place × Selection) : Encloses x [] x
  | inline {place : Place} {typeCondition : Option Name} {directives : List Directive}
      {l : List Selection} {x target : Place × Selection} {gates : List Gate}
      (mem : x ∈ place.locate l) (rest : Encloses x gates target) :
      Encloses (place, .inline typeCondition directives l)
        (⟨typeCondition, directives⟩ :: gates) target

namespace Encloses

variable {x y z : Place × Selection} {gates gates' : List Gate}

theorem owner_eq (h : Encloses x gates y) : y.1.owner = x.1.owner := by
  induction h with
  | here => rfl
  | inline mem _ ih =>
    obtain ⟨k, hk, -⟩ := Place.mem_locate.mp mem
    rw [ih, hk]
    rfl

theorem suffix (h : Encloses x gates y) : x.1.steps <:+ y.1.steps := by
  induction h with
  | here => exact List.suffix_rfl
  | inline mem _ ih =>
    obtain ⟨k, hk, -⟩ := Place.mem_locate.mp mem
    rw [hk] at ih
    exact (List.suffix_cons ..).trans ih

/-- What stands in a list is at another place than what the list belongs to. -/
theorem place_ne {place : Place} {l : List Selection} (mem : x ∈ place.locate l)
    (h : Encloses x gates y) : y.1 ≠ place := by
  rintro rfl
  obtain ⟨k, hk, -⟩ := Place.mem_locate.mp mem
  have hlength := h.suffix.length_le
  rw [hk] at hlength
  exact Nat.not_succ_le_self _ hlength

theorem unique (h : Encloses x gates y) (h' : Encloses x gates' z) (heq : y.1 = z.1) :
    gates = gates' ∧ y = z := by
  induction h generalizing gates' with
  | here =>
    cases h' with
    | here => exact ⟨rfl, rfl⟩
    | inline mem rest => exact absurd heq.symm (place_ne mem rest)
  | inline mem rest ih =>
    cases h' with
    | here => exact absurd heq (place_ne mem rest)
    | inline mem' rest' =>
      cases Place.eq_of_mem_locate mem mem' (heq ▸ rest.suffix) rest'.suffix
      obtain ⟨rfl, rfl⟩ := ih rest' heq
      exact ⟨rfl, rfl⟩

/-- Inside the selections of one list, a place determines what stands there and which gates lead to
it. -/
theorem unique_of_mem {p : Place} {l : List Selection} {x' : Place × Selection}
    (hx : x ∈ p.locate l) (hx' : x' ∈ p.locate l) (h : Encloses x gates y)
    (h' : Encloses x' gates' z) (heq : y.1 = z.1) : gates = gates' ∧ y = z := by
  cases Place.eq_of_mem_locate hx hx' (heq ▸ h.suffix) h'.suffix
  exact h.unique h' heq

/-- Inline fragments stand on the way. -/
theorem exists_inline (h : Encloses x gates y) {p : Place} (howner : p.owner = x.1.owner)
    (hx : x.1.steps <:+ p.steps) (hy : p.steps <:+ y.1.steps) (hne : p ≠ y.1) :
    ∃ gates' typeCondition directives l,
      Encloses x gates' (p, .inline typeCondition directives l) := by
  induction h with
  | here x =>
    have hsteps := hx.eq_of_length (Nat.le_antisymm hx.length_le hy.length_le)
    exact absurd ((Place.mk.injEq ..).mpr ⟨howner, hsteps.symm⟩) hne
  | @inline place _ _ _ x _ _ mem rest ih =>
    by_cases hplace : p = place
    · subst hplace
      exact ⟨[], _, _, _, .here _⟩
    obtain ⟨k, hk, -⟩ := Place.mem_locate.mp mem
    have hlength : place.steps.length < p.steps.length := by
      refine Nat.lt_of_le_of_ne hx.length_le fun hlength ↦ hplace ?_
      exact (Place.mk.injEq ..).mpr ⟨howner, (hx.eq_of_length hlength).symm⟩
    have hinside : x.1.steps <:+ p.steps := by
      refine List.suffix_of_suffix_length_le rest.suffix hy ?_
      rw [hk]
      exact hlength
    obtain ⟨gates', typeCondition, directives, l, h⟩ := ih (by rw [howner, hk]; rfl) hinside hy hne
    exact ⟨_, typeCondition, directives, l, .inline mem h⟩

variable {d : Document} {root : List Selection}

theorem stands (h : Encloses x gates y) (hx : Stands d root x.1 x.2) : Stands d root y.1 y.2 := by
  induction h with
  | here => exact hx
  | inline mem _ ih => exact ih (.of_mem_locate (hx.selectionsAt rfl) mem)

end Encloses

/-! ## Anchors -/

/-- A place is right beneath a field or right in a definition. -/
def Place.Anchored (d : Document) (root : List Selection) (p : Place) : Prop :=
  ∃ above k, p = above.child k ∧ (above.steps = [] ∨ ∃ head l, Stands d root above (.field head l))

section

variable {d : Document} {root : List Selection} {x x' y y' : Place × Selection}
  {gates gates' : List Gate}

private theorem Encloses.anchor_eq (h : Encloses x gates y) (h' : Encloses x' gates' y')
    (hx : Stands d root x.1 x.2) (hx' : x'.1.Anchored d root) (heq : y.1 = y'.1)
    (hlength : x.1.steps.length ≤ x'.1.steps.length) : x.1 = x'.1 := by
  have howner : x'.1.owner = x.1.owner := by rw [← h.owner_eq, heq, h'.owner_eq]
  have hsuffix : x.1.steps <:+ x'.1.steps :=
    List.suffix_of_suffix_length_le (heq ▸ h.suffix) h'.suffix hlength
  obtain ⟨above, k, habove, hanchor⟩ := hx'
  rw [habove] at hsuffix howner ⊢
  rcases List.suffix_cons_iff.mp hsuffix with hsteps | hsteps
  · exact (Place.mk.injEq ..).mpr ⟨howner.symm, hsteps⟩
  -- Otherwise the selection above stands between the two, so it is an inline fragment.
  have hbelow : (above.child k).steps <:+ y.1.steps := by
    rw [heq, ← habove]
    exact h'.suffix
  have hne : above ≠ y.1 := by
    intro hplace
    have hlength := hbelow.length_le
    rw [← hplace] at hlength
    exact Nat.not_succ_le_self _ hlength
  have howner' : above.owner = x.1.owner := howner
  obtain ⟨_, _, _, _, hinline⟩ :=
    h.exists_inline howner' hsteps ((List.suffix_cons ..).trans hbelow) hne
  have hstands := hinline.stands hx
  rcases hanchor with hnil | ⟨head, l, hfield⟩
  · obtain ⟨_, _, _, hcons, -⟩ := hstands
    rw [hnil] at hcons
    cases hcons
  · cases hstands.unique hfield

/-- **A selection stands inside one other only** of those right beneath a field or right in a
definition. -/
theorem Encloses.anchor_unique (h : Encloses x gates y) (h' : Encloses x' gates' y')
    (hx : Stands d root x.1 x.2) (hx' : Stands d root x'.1 x'.2) (ha : x.1.Anchored d root)
    (ha' : x'.1.Anchored d root) (heq : y.1 = y'.1) :
    x.1 = x'.1 := by
  rcases Nat.le_total x.1.steps.length x'.1.steps.length with hle | hle
  · exact h.anchor_eq h' hx ha' heq hle
  · exact (h'.anchor_eq h hx' ha heq.symm hle).symm

end

/-! ## What is near and what is far -/

/-- An occurrence stands near a selection that is surveyed in a scope: only inline fragments lead to
it. -/
def Occurrence.Near (schema : Schema) (fieldTypes : NameSet) (trail : Trail) (scope : Scope)
    (x : Place × Selection) (o : Occurrence) : Prop :=
  ∃ gates inner condition, Encloses x gates (o.place, .field o.head o.selections) ∧
    scope.Enters schema fieldTypes gates inner ∧
    Condition.ofDirectives o.head.directives o.head.responseName = .ok condition ∧
    o = inner.occurrence trail o.place o.head o.selections condition

theorem Occurrence.Near.path_eq {schema : Schema} {fieldTypes : NameSet} {trail : Trail}
    {scope : Scope} {x : Place × Selection} {o : Occurrence}
    (h : o.Near schema fieldTypes trail scope x) : o.path = trail.path := by
  obtain ⟨_, _, _, -, -, -, heq⟩ := h
  rw [heq]
  rfl

/-- At a place of a named fragment stands a field, and only inline fragments lead to it. -/
def Place.InFragment (d : Document) (name : Name) (p : Place) : Prop :=
  ∃ f x gates head l, d.fragment? name = some f ∧ x ∈ (Place.fragment name).locate f.selections ∧
    Encloses x gates (p, .field head l)

theorem Place.InFragment.owner_eq {d : Document} {name : Name} {p : Place}
    (h : p.InFragment d name) : p.owner = some name := by
  obtain ⟨_, x, _, _, _, -, hx, h⟩ := h
  obtain ⟨k, hk, -⟩ := mem_locate.mp hx
  have howner := h.owner_eq
  rw [hk] at howner
  exact howner

namespace Surveys

variable {schema : Schema} {d : Document} {fieldTypes : NameSet} {trail : Trail} {scope : Scope}
  {selections : List (Place × Selection)} {expanded expanded' : List Expansion} {found : Findings}

/-- **What is found is near** one of the selections, or in a named fragment that is not on the
path. -/
theorem near_or_far
    (h : Surveys schema d fieldTypes trail scope selections expanded found expanded')
    {o : Occurrence} (ho : o ∈ found.occurrences) :
    (∃ x ∈ selections, o.Near schema fieldTypes trail scope x) ∨
      ∃ name, name ∉ trail.path ∧ name ∈ o.path ∧ o.place.InFragment d name := by
  induction h with
  | nil => exact absurd ho List.not_mem_nil
  | @field _ scope _ _ _ _ condition _ _ _ directives _ ih =>
    rcases List.mem_cons.mp ho with rfl | ho
    · exact .inl ⟨_, List.mem_cons_self, [], scope, condition, .here _, .nil scope, directives, rfl⟩
    · exact (ih ho).imp_left fun ⟨x, hx, hnear⟩ ↦ ⟨x, List.mem_cons_of_mem _ hx, hnear⟩
  | skipped _ _ _ _ ih =>
    exact (ih ho).imp_left fun ⟨x, hx, hnear⟩ ↦ ⟨x, List.mem_cons_of_mem _ hx, hnear⟩
  | inline pass _ _ ihWithin ihAfter =>
    rcases List.mem_append.mp ho with ho | ho
    · refine (ihWithin ho).imp_left ?_
      rintro ⟨x, hx, gates, inner, condition, hinside, henters, hcondition, heq⟩
      exact ⟨_, List.mem_cons_self, _, inner, condition, .inline hx hinside, .cons pass henters,
        hcondition, heq⟩
    · exact (ihAfter ho).imp_left fun ⟨x, hx, hnear⟩ ↦ ⟨x, List.mem_cons_of_mem _ hx, hnear⟩
  | again _ _ _ _ _ ih =>
    exact (ih ho).imp_left fun ⟨x, hx, hnear⟩ ↦ ⟨x, List.mem_cons_of_mem _ hx, hnear⟩
  | @spread trail _ _ _ name _ _ _ _ _ _ _ _ _ hf fresh _ _ _ _ ihWithin ihAfter =>
    rcases List.mem_append.mp ho with ho | ho
    · rcases ihWithin ho with ⟨x, hx, hnear⟩ | ⟨other, hother, hmem, hin⟩
      · have hpath : o.path = trail.path ++ [name] := hnear.path_eq
        obtain ⟨gates, _, _, hinside, -⟩ := hnear
        exact .inr ⟨name, fresh, hpath ▸ List.mem_append_right _ (List.mem_singleton_self name), _,
          x, gates, _, _, hf, hx, hinside⟩
      · exact .inr ⟨other, fun hpath ↦ hother (List.mem_append_left _ hpath), hmem, hin⟩
    · exact (ihAfter ho).imp_left fun ⟨x, hx, hnear⟩ ↦ ⟨x, List.mem_cons_of_mem _ hx, hnear⟩

/-- **What is near is found.** -/
theorem exists_near
    (h : Surveys schema d fieldTypes trail scope selections expanded found expanded')
    {x : Place × Selection} (hx : x ∈ selections) {gates : List Gate} {place : Place}
    {head : FieldHead} {l : List Selection} {inner : Scope}
    (hinside : Encloses x gates (place, .field head l))
    (henters : scope.Enters schema fieldTypes gates inner) :
    ∃ condition, Condition.ofDirectives head.directives head.responseName = .ok condition ∧
      inner.occurrence trail place head l condition ∈ found.occurrences := by
  induction h generalizing x gates with
  | nil => exact absurd hx List.not_mem_nil
  | field directives _ ih =>
    rcases List.mem_cons.mp hx with rfl | hx
    · cases hinside
      cases henters
      exact ⟨_, directives, List.mem_cons_self⟩
    · obtain ⟨condition, hcondition, hmem⟩ := ih hx hinside henters
      exact ⟨condition, hcondition, List.mem_cons_of_mem _ hmem⟩
  | skipped gate _ blocked _ ih =>
    rcases List.mem_cons.mp hx with rfl | hx
    · cases hinside with
      | here => cases gate
      | inline =>
        cases gate
        cases henters with
        | cons pass _ => exact absurd pass blocked.not_passes
    · exact ih hx hinside henters
  | inline pass _ _ ihWithin ihAfter =>
    rcases List.mem_cons.mp hx with rfl | hx
    · cases hinside with
      | inline mem rest =>
        cases henters with
        | cons pass' henters =>
          obtain ⟨rfl, rfl⟩ := pass.unique pass'
          obtain ⟨condition, hcondition, hmem⟩ := ihWithin mem rest henters
          exact ⟨condition, hcondition, List.mem_append_left _ hmem⟩
    · obtain ⟨condition, hcondition, hmem⟩ := ihAfter hx hinside henters
      exact ⟨condition, hcondition, List.mem_append_right _ hmem⟩
  | again _ _ _ _ _ ih =>
    rcases List.mem_cons.mp hx with rfl | hx
    · cases hinside
    · exact ih hx hinside henters
  | spread _ _ _ _ _ _ _ ihAfter =>
    rcases List.mem_cons.mp hx with rfl | hx
    · cases hinside
    · obtain ⟨condition, hcondition, hmem⟩ := ihAfter hx hinside henters
      exact ⟨condition, hcondition, List.mem_append_right _ hmem⟩

end Surveys
end ResponseModels
