import ResponseModels.Proofs.Collect.Merge
import ResponseModels.Proofs.Condition.Grouping
import ResponseModels.Proofs.SeenAlike

/-!
# Merging declarations, exactly

Where the conditions of declarations are canonical, as those of a survey always are, merging the
declarations of one response name can be said without going through them one by one: it succeeds
when all of them are the same field as the first, and the result has the information of the first,
the disjunction of the set of all conditions, and the children of all of them, those left out that
stand at a place taken before (`Declaration.mergeGroup_eq_ok_iff`).

So all declarations are merged exactly when no two of one response name differ, whatever their
conditions are (`Declaration.exists_merge_iff`), and declarations that are merged once more change
nothing (`Declaration.merge_append`).
-/

set_option autoImplicit false

namespace ResponseModels

theorem Child.addNew_append (children l m : List Child) :
    addNew children (l ++ m) = addNew (addNew children l) m := by
  induction l generalizing children with
  | nil => rfl
  | cons c rest ih =>
    rw [List.cons_append, addNew, addNew]
    split
    · exact ih children
    · exact ih (children ++ [c])

/-- What is appended are the first children at the places that are not yet taken. -/
theorem Child.addNew_eq_append (children more : List Child) :
    addNew children more = children ++
      (more.filter fun c ↦ !children.any fun k ↦ k.place = c.place).eraseDupsBy fun c k ↦
        c.place = k.place := by
  induction more generalizing children with
  | nil => simp [addNew]
  | cons c rest ih =>
    rw [addNew]
    by_cases htaken : children.any fun k ↦ k.place = c.place
    · rw [if_pos htaken, ih, List.filter_cons_of_neg (by simp [htaken])]
    · rw [if_neg htaken, ih, List.filter_cons_of_pos (by simp [htaken]), List.eraseDupsBy_cons,
        List.filter_filter, List.append_assoc, List.singleton_append]
      -- A child that comes later is dropped for a child taken before or for `c`: the two filters
      -- are one.
      congr 3
      refine List.filter_congr fun k _ ↦ ?_
      simp [List.any_append, Bool.and_comm, eq_comm]

theorem Child.addNew_of_forall {children more : List Child}
    (h : ∀ c ∈ more, ∃ k ∈ children, k.place = c.place) :
    addNew children more = children := by
  have hnone : (more.filter fun c ↦ !children.any fun k ↦ k.place = c.place) = [] := by
    rw [List.filter_eq_nil_iff]
    intro c hc
    simpa using h c hc
  rw [addNew_eq_append, hnone]
  exact List.append_nil children

namespace Declaration

theorem checkSame_eq_ok_iff {first other : FieldInfo} :
    checkSame first other = .ok () ↔ first.SameField other := by
  refine ⟨checkSame_eq_ok, fun h ↦ ?_⟩
  rw [checkSame, if_neg (not_not_intro h.name), if_neg (not_not_intro h.type),
    if_neg (not_not_intro h.arguments)]

theorem absorb_eq_ok_iff {merged other next : Declaration} :
    absorb merged other = .ok next ↔ merged.info.SameField other.info ∧
      next = ⟨merged.info, merged.condition.or other.condition,
        Child.addNew merged.children other.children⟩ := by
  rw [absorb, Error.bind_eq_ok]
  constructor
  · rintro ⟨⟨⟩, hsame, h⟩
    cases h
    exact ⟨checkSame_eq_ok hsame, rfl⟩
  · rintro ⟨hsame, rfl⟩
    exact ⟨(), checkSame_eq_ok_iff.mpr hsame, rfl⟩

private theorem foldlM_absorb_eq_ok_iff {first merged : Declaration} {rest : List Declaration} :
    rest.foldlM absorb first = .ok merged ↔ (∀ d ∈ rest, first.info.SameField d.info) ∧
      merged = ⟨first.info, (rest.map condition).foldl Condition.or first.condition,
        Child.addNew first.children (rest.flatMap children)⟩ := by
  induction rest generalizing first with
  | nil =>
    rw [List.foldlM_nil]
    constructor
    · intro h
      cases h
      exact ⟨fun d hd ↦ absurd hd List.not_mem_nil, rfl⟩
    · rintro ⟨-, rfl⟩
      rfl
  | cons d rest ih =>
    simp only [List.foldlM_cons, Error.bind_eq_ok, absorb_eq_ok_iff, ih, List.forall_mem_cons,
      List.map_cons, List.foldl_cons, List.flatMap_cons, Child.addNew_append]
    constructor
    · rintro ⟨-, ⟨hsame, rfl⟩, hrest, rfl⟩
      exact ⟨⟨hsame, hrest⟩, rfl⟩
    · rintro ⟨⟨hsame, hrest⟩, rfl⟩
      exact ⟨_, ⟨hsame, rfl⟩, hrest, rfl⟩

/-- What the declarations of one response name become, `first` being the first of them. -/
def joined (first : Declaration) (group : List Declaration) : Declaration where
  info := first.info
  condition := Junction.any.reduce (group.map condition)
  children := Child.addNew [] (group.flatMap children)

/-- **Merging the declarations of one response name, exactly.** -/
theorem mergeGroup_eq_ok_iff {first merged : Declaration} {rest : List Declaration}
    (h : ∀ d ∈ first :: rest, d.condition.Canonical) :
    mergeGroup (first :: rest) = .ok merged ↔
      (∀ d ∈ rest, first.info.SameField d.info) ∧ merged = joined first (first :: rest) := by
  obtain ⟨hfirst, hrest⟩ := List.forall_mem_cons.mp h
  have hconditions : ∀ c ∈ rest.map condition, c.Canonical := by
    intro c hc
    obtain ⟨d, hd, rfl⟩ := List.mem_map.mp hc
    exact hrest d hd
  rw [mergeGroup, foldlM_absorb_eq_ok_iff, Condition.foldl_or_eq hfirst hconditions,
    ← Child.addNew_append]
  rfl

/-- **A merged declaration is what the declarations of its response name become.** -/
theorem exists_joined_of_mem_merge {declarations merged : List Declaration}
    (h : merge declarations = .ok merged) (hcanonical : ∀ d ∈ declarations, d.condition.Canonical)
    {m : Declaration} (hm : m ∈ merged) :
    ∃ first rest, group declarations m.responseName = first :: rest ∧
      m = joined first (first :: rest) := by
  have hgroup := mergeGroup_of_mem_merge h hm
  cases heq : group declarations m.responseName with
  | nil =>
    rw [heq] at hgroup
    cases hgroup
  | cons first rest =>
    rw [heq, mergeGroup_eq_ok_iff] at hgroup
    · exact ⟨first, rest, rfl, hgroup.2⟩
    · intro d hd
      rw [← heq] at hd
      exact hcanonical d (List.mem_filter.mp hd).1

/-- The condition of a merged declaration is the disjunction of the set of conditions it was made
of. -/
theorem condition_of_mem_merge {declarations merged : List Declaration}
    (h : merge declarations = .ok merged) (hcanonical : ∀ d ∈ declarations, d.condition.Canonical)
    {m : Declaration} (hm : m ∈ merged) :
    m.condition = Junction.any.reduce ((group declarations m.responseName).map condition) := by
  obtain ⟨first, rest, hgroup, hjoined⟩ := exists_joined_of_mem_merge h hcanonical hm
  rw [hgroup]
  exact congrArg condition hjoined

/-! ## When declarations can be merged -/

theorem exists_mergeGroup_iff {first : Declaration} {rest : List Declaration} :
    (∃ merged, mergeGroup (first :: rest) = .ok merged) ↔
      ∀ d ∈ rest, first.info.SameField d.info := by
  simp [mergeGroup, foldlM_absorb_eq_ok_iff]

/-- **Declarations can be merged when no two of one response name differ.** -/
theorem exists_merge_iff {declarations : List Declaration} :
    (∃ merged, merge declarations = .ok merged) ↔
      ∀ d ∈ declarations, ∀ d' ∈ declarations, d.responseName = d'.responseName →
      d.info.SameField d'.info := by
  constructor
  · rintro ⟨merged, h⟩ d hd d' hd' hname
    obtain ⟨m, hm, hmd⟩ := exists_mem_merge h hd
    have hsame : m.info.SameField d.info := sameField_of_mem_merge h hm hd hmd.symm
    exact hsame.symm.trans (sameField_of_mem_merge h hm hd' (hname.symm.trans hmd.symm))
  · intro hsame
    refine Error.exists_mapM fun n hn ↦ ?_
    obtain ⟨d, hd, rfl⟩ := List.mem_map.mp (List.mem_eraseDups.mp hn)
    have hgroup : d ∈ group declarations d.responseName :=
      List.mem_filter.mpr ⟨hd, beq_self_eq_true _⟩
    cases heq : group declarations d.responseName with
    | nil => exact absurd hgroup (heq ▸ List.not_mem_nil)
    | cons first rest =>
      have hof : ∀ k ∈ first :: rest, k ∈ declarations ∧ k.responseName = d.responseName := by
        intro k hk
        rw [← heq] at hk
        exact (List.mem_filter.mp hk).imp_right eq_of_beq
      obtain ⟨⟨hfirst, hname⟩, hrest⟩ := List.forall_mem_cons.mp hof
      exact exists_mergeGroup_iff.mpr fun k hk ↦
        hsame first hfirst k (hrest k hk).1 (hname.trans (hrest k hk).2.symm)

/-! ## Declarations that are merged once more -/

theorem joined_append {first : Declaration} {group more : List Declaration}
    (h : ∀ d ∈ more, d ∈ group) :
    joined first (group ++ more) = joined first group := by
  have hconditions : Junction.any.reduce ((group ++ more).map condition) =
      Junction.any.reduce (group.map condition) := by
    refine Junction.reduce_congr fun c ↦ ?_
    rw [List.map_append, List.mem_append, or_iff_left_iff_imp]
    exact fun hc ↦ List.map_subset condition h hc
  have hchildren : Child.addNew [] ((group ++ more).flatMap children) =
      Child.addNew [] (group.flatMap children) := by
    rw [List.flatMap_append, Child.addNew_append]
    refine Child.addNew_of_forall fun c hc ↦ Child.exists_place_mem_addNew [] ?_
    obtain ⟨d, hd, hc⟩ := List.mem_flatMap.mp hc
    exact List.mem_flatMap.mpr ⟨d, h d hd, hc⟩
  rw [joined, joined, hconditions, hchildren]

/-- Declarations that a group has already change nothing, not even how it fails. -/
theorem mergeGroup_append {group more : List Declaration}
    (hcanonical : ∀ d ∈ group, d.condition.Canonical) (h : ∀ d ∈ more, d ∈ group) :
    mergeGroup (group ++ more) = mergeGroup group := by
  cases group with
  | nil =>
    rw [List.eq_nil_iff_forall_not_mem.mpr fun d hd ↦ List.not_mem_nil (h d hd), List.append_nil]
  | cons first rest =>
    cases hgroup : mergeGroup (first :: rest) with
    | error e =>
      rw [mergeGroup] at hgroup
      rw [List.cons_append, mergeGroup, List.foldlM_append, hgroup]
      rfl
    | ok merged =>
      obtain ⟨hsame, rfl⟩ := (mergeGroup_eq_ok_iff hcanonical).mp hgroup
      have hall : ∀ d ∈ first :: rest, first.info.SameField d.info :=
        List.forall_mem_cons.mpr ⟨.refl _, hsame⟩
      have hcanonical' : ∀ d ∈ first :: (rest ++ more), d.condition.Canonical := by
        rw [← List.cons_append]
        exact List.forall_mem_append.mpr ⟨hcanonical, fun d hd ↦ hcanonical d (h d hd)⟩
      rw [List.cons_append, mergeGroup_eq_ok_iff hcanonical', ← List.cons_append, joined_append h]
      exact ⟨List.forall_mem_append.mpr ⟨hsame, fun d hd ↦ hall d (h d hd)⟩, rfl⟩

/-- **Declarations that were merged already change nothing.** -/
theorem merge_append {declarations more : List Declaration}
    (hcanonical : ∀ d ∈ declarations, d.condition.Canonical) (h : ∀ d ∈ more, d ∈ declarations) :
    merge (declarations ++ more) = merge declarations := by
  have hnames : ((declarations ++ more).map responseName).eraseDups =
      (declarations.map responseName).eraseDups := by
    rw [List.map_append]
    exact SeenAlike.eraseDups_eq
      (by simpa using SeenAlike.absorb [] (List.map_subset responseName h))
  rw [merge, merge, hnames]
  refine congrArg (List.mapM · _) (funext fun n ↦ ?_)
  rw [group, List.filter_append]
  refine mergeGroup_append (fun d hd ↦ hcanonical d (List.mem_filter.mp hd).1) fun d hd ↦ ?_
  obtain ⟨hd, hn⟩ := List.mem_filter.mp hd
  exact List.mem_filter.mpr ⟨h d hd, hn⟩

end Declaration
end ResponseModels
