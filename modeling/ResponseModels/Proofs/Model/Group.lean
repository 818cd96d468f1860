import Mathlib.Data.Fintype.Order
import Mathlib.Data.Set.Finite.List
import ResponseModels.Model.Build
import ResponseModels.Proofs.Build
import ResponseModels.Proofs.Model.Plan

/-!
# How the models of a group come about

The models of a group are built one after the other, each from those before it. Here every part of
this is opened once:

* `Supers` says what a model implements: the primary models of the next wider shapes, and models of
  other groups that cover its object types;
* `BuiltModel.Follows` says how one model comes about from those before it, and `Raises` that all
  models of a group do (`Field.raises_of_modelGroup`);
* `BuiltModel.Follows.nested` says which field the group of a property is for, where it stands, and
  which groups it inherits from.

`Field.modelGroup_induct` is the induction along the tree of groups that is built.
-/

set_option autoImplicit false

namespace ResponseModels

/-! ## Extremes -/

theorem Extreme.beyond_trans {e : Extreme} {r s t : NameSet} (hrs : e.beyond r s = true)
    (hst : e.beyond s t = true) : e.beyond r t = true := by
  cases e with
  | smallest =>
    obtain ⟨hlt, hsub⟩ := of_decide_eq_true hrs
    obtain ⟨hlt', hsub'⟩ := of_decide_eq_true hst
    exact decide_eq_true ⟨Nat.lt_trans hlt hlt', fun c hc ↦ hsub' c (hsub c hc)⟩
  | largest =>
    obtain ⟨hlt, hsub⟩ := of_decide_eq_true hrs
    obtain ⟨hlt', hsub'⟩ := of_decide_eq_true hst
    exact decide_eq_true ⟨Nat.lt_trans hlt' hlt, fun c hc ↦ hsub c (hsub' c hc)⟩

theorem Extreme.beyond_irrefl (e : Extreme) (s : NameSet) : e.beyond s s = false := by
  cases e <;> exact decide_eq_false fun h ↦ Nat.lt_irrefl _ h.1

theorem mem_extremes {e : Extreme} {sets : List NameSet} {s : NameSet} :
    s ∈ extremes e sets ↔ s ∈ sets ∧ ∀ t ∈ sets, e.beyond t s = false := by
  simp [extremes]

/-- From every set one gets to an extreme one. -/
theorem exists_mem_extremes (e : Extreme) {sets : List NameSet} {s : NameSet} (h : s ∈ sets) :
    ∃ t ∈ extremes e sets, t = s ∨ e.beyond t s = true := by
  -- The list is finite, so one cannot go on and on towards an end.
  let r (a b : { t // t ∈ sets }) : Prop := e.beyond a.1 b.1 = true
  have hfinite : Finite { t // t ∈ sets } := sets.finite_toSet
  have hwf : WellFounded r := by
    have htrans : IsTrans _ r := ⟨fun _ _ _ hab hbc ↦ Extreme.beyond_trans hab hbc⟩
    have hirrefl : Std.Irrefl r := ⟨fun a ha ↦ by simp [r, e.beyond_irrefl] at ha⟩
    exact Finite.wellFounded_of_trans_of_irrefl r
  suffices hall : ∀ a : { t // t ∈ sets }, ∃ t ∈ extremes e sets, t = a.1 ∨
    e.beyond t a.1 = true from hall ⟨s, h⟩
  intro a
  induction a using hwf.induction with
  | _ a ih =>
    by_cases hex : ∃ t ∈ sets, e.beyond t a.1 = true
    · obtain ⟨t, ht, hta⟩ := hex
      obtain ⟨u, hu, hut⟩ := ih ⟨t, ht⟩ hta
      refine ⟨u, hu, .inr ?_⟩
      rcases hut with rfl | hut
      · exact hta
      · exact Extreme.beyond_trans hut hta
    · refine ⟨a.1, mem_extremes.mpr ⟨a.2, fun t ht ↦ ?_⟩, .inl rfl⟩
      exact Bool.eq_false_iff.mpr fun hta ↦ hex ⟨t, ht, hta⟩

/-- Something is left of a list when something about its elements has to be extreme. -/
theorem exists_mem_filter_extremes (e : Extreme) (key : Model → NameSet) {l : List Model}
    {m : Model} (h : m ∈ l) :
    ∃ n, n ∈ l.filter fun m ↦ key m ∈ extremes e (l.map key) := by
  obtain ⟨s, hs, -⟩ := exists_mem_extremes e (List.mem_map_of_mem (f := key) h)
  obtain ⟨n, hn, rfl⟩ := List.mem_map.mp (mem_extremes.mp hs).1
  exact ⟨n, List.mem_filter.mpr ⟨hn, decide_eq_true hs⟩⟩

/-- Between a wider shape and a shape there is one that is next wider. -/
theorem Field.exists_nextWider {f : Field} {s : FieldSet} {typeSet : NameSet} (hs : s ∈ f.fieldSets)
    (h : s.typeSet ⊂ typeSet) : ∃ next ∈ f.nextWider typeSet, s.typeSet ⊆ next := by
  have hwider : s.typeSet ∈ (f.fieldSets.map FieldSet.typeSet).filter fun s ↦ s ⊂ typeSet :=
    List.mem_filter.mpr ⟨List.mem_map_of_mem hs, decide_eq_true h⟩
  obtain ⟨next, hnext, hle⟩ := exists_mem_extremes .largest hwider
  refine ⟨next, hnext, ?_⟩
  rcases hle with rfl | hlt
  · exact fun c hc ↦ hc
  · exact (of_decide_eq_true hlt).2

/-- The next wider shapes are those with no other in between. -/
theorem Field.mem_nextWider_iff {f : Field} {s : FieldSet} (hs : s ∈ f.fieldSets)
    {typeSet : NameSet} :
    s.typeSet ∈ f.nextWider typeSet ↔
      s.typeSet ⊂ typeSet ∧ ∀ t ∈ f.fieldSets, ¬ (s.typeSet ⊂ t.typeSet ∧ t.typeSet ⊂ typeSet) := by
  have hbeyond : ∀ t : NameSet, Extreme.largest.beyond t s.typeSet = decide (s.typeSet ⊂ t) :=
    fun _ ↦ rfl
  simp only [nextWider, mem_extremes, List.mem_filter, List.mem_map, decide_eq_true_eq, hbeyond,
    decide_eq_false_iff_not]
  constructor
  · rintro ⟨⟨-, hwider⟩, hnone⟩
    exact ⟨hwider, fun t ht hbetween ↦ hnone t.typeSet ⟨⟨t, ht, rfl⟩, hbetween.2⟩ hbetween.1⟩
  · rintro ⟨hwider, hnone⟩
    refine ⟨⟨⟨s, hs, rfl⟩, hwider⟩, ?_⟩
    rintro _ ⟨⟨t, ht, rfl⟩, htyped⟩ hbetween
    exact hnone t ht ⟨hbetween, htyped⟩

theorem Field.of_mem_nextWider {f : Field} {typeSet next : NameSet}
    (h : next ∈ f.nextWider typeSet) :
    next ⊂ typeSet := by
  have hmem := (mem_extremes.mp h).1
  exact of_decide_eq_true (List.mem_filter.mp hmem).2

/-! ## The best matches in a group -/

theorem ModelGroup.of_mem_mostSpecific {g : ModelGroup} {types : NameSet} {m : Model}
    (h : m ∈ g.mostSpecific types) :
    m ∈ g.models ∧ m.isInterface = true ∧ types ⊆ m.possibleTypes := by
  have hclosest := (List.mem_filter.mp h).1
  have hcandidate := (List.mem_filter.mp hclosest).1
  simpa using List.mem_filter.mp hcandidate

/-- If a model of the group matches at all, there is a best match. -/
theorem ModelGroup.exists_mem_mostSpecific {g : ModelGroup} {types : NameSet} {m : Model}
    (hm : m ∈ g.models) (hinterface : m.isInterface = true) (hsub : types ⊆ m.possibleTypes) :
    ∃ n, n ∈ g.mostSpecific types := by
  have hcandidate : m ∈ g.models.filter fun m ↦ m.isInterface && types ⊆ m.possibleTypes :=
    List.mem_filter.mpr ⟨hm, by simpa [hinterface] using hsub⟩
  obtain ⟨closest, hclosest⟩ := exists_mem_filter_extremes .smallest Model.possibleTypes hcandidate
  exact exists_mem_filter_extremes .largest Model.typeSet hclosest

/-! ## What a model implements -/

theorem PlannedModel.isPrimaryOf_iff {p : PlannedModel} {typeSet : NameSet} :
    p.isPrimaryOf typeSet = true ↔ p.typeSet = typeSet ∧ p.isOther = false := by
  simp [isPrimaryOf]

theorem primaryPlanned_eq_ok {plan : List PlannedModel} {typeSet : NameSet} {p : PlannedModel}
    (h : primaryPlanned plan typeSet = .ok p) :
    p ∈ plan ∧ p.typeSet = typeSet ∧ p.isOther = false := by
  rw [primaryPlanned] at h
  split at h
  · rename_i hfind
    cases h
    have hprimary := List.find?_some hfind
    exact ⟨List.mem_of_find?_eq_some hfind, PlannedModel.isPrimaryOf_iff.mp hprimary⟩
  · cases h

theorem primaryBuilt_eq_ok {built : List BuiltModel} {typeSet : NameSet} {m : Model}
    (h : primaryBuilt built typeSet = .ok m) :
    ∃ b ∈ built, b.model = m ∧ b.planned.typeSet = typeSet ∧ b.planned.isOther = false := by
  rw [primaryBuilt] at h
  split at h
  · rename_i b hfind
    cases h
    have hprimary := List.find?_some hfind
    exact ⟨b, List.mem_of_find?_eq_some hfind, rfl, PlannedModel.isPrimaryOf_iff.mp hprimary⟩
  · cases h

/-- Where the models come from that a planned model implements. -/
inductive Super (interfaces : Name → Except Error ModelGroup) (inherited : List ModelGroup)
    (before : List BuiltModel) (p : PlannedModel) : Model → Prop
  /-- An `Other` model implements the primary model of its shape. -/
  | own {b : BuiltModel} (mem : b ∈ before) (other : p.isOther = true)
      (typeSet : b.planned.typeSet = p.typeSet) (primary : b.planned.isOther = false) :
      Super interfaces inherited before p b.model
  /-- A primary model implements primary models of wider shapes, -/
  | wider {b : BuiltModel} (mem : b ∈ before) (typeSet : b.planned.typeSet ⊂ p.typeSet)
      (primary : b.planned.isOther = false) : Super interfaces inherited before p b.model
  /-- and models of the interfaces of fragments and of inherited groups. -/
  | matching {g : ModelGroup} {n : Model}
      (group : g ∈ inherited ∨ ∃ name ∈ p.fieldSet.fragments, interfaces name = .ok g)
      (mem : n ∈ g.mostSpecific p.possibleTypes) : Super interfaces inherited before p n

/-- What is known of the models that a planned model implements. -/
structure Supers (interfaces : Name → Except Error ModelGroup) (f : Field)
    (inherited : List ModelGroup) (before : List BuiltModel) (p : PlannedModel)
    (sups : List Model) : Prop where
  /-- It implements nothing for any other reason. -/
  only : ∀ n ∈ sups, Super interfaces inherited before p n
  /-- It implements each model once. -/
  nodup : (sups.map Model.id).Nodup
  /-- An `Other` model does implement the primary model of its shape. -/
  own : p.isOther = true → ∃ b ∈ before, b.planned.typeSet = p.typeSet ∧ b.planned.isOther = false ∧
    b.model.id ∈ sups.map Model.id
  /-- A primary model does implement those of all next wider shapes, -/
  wider : p.isOther = false → ∀ next ∈ f.nextWider p.typeSet, ∃ b ∈ before,
    b.planned.typeSet = next ∧ b.planned.isOther = false ∧ b.model.id ∈ sups.map Model.id
  /-- and the best matches for every fragment spread on its shape. -/
  spread : p.isOther = false → ∀ name ∈ p.fieldSet.fragments, ∃ g, interfaces name = .ok g ∧
    ∀ n ∈ g.mostSpecific p.possibleTypes, n.id ∈ sups.map Model.id
  /-- An `Other` model implements nothing else, -/
  alone : p.isOther = true → ∃ n, sups = [n]
  /-- and a primary model nothing of its own group but the primary models of the next wider
  shapes. -/
  beside : p.isOther = false → ∀ n ∈ sups,
    (∃ b ∈ before, b.model = n ∧ b.planned.typeSet ∈ f.nextWider p.typeSet ∧
      b.planned.isOther = false) ∨
      ∃ g, (g ∈ inherited ∨ ∃ name ∈ p.fieldSet.fragments, interfaces name = .ok g) ∧
      n ∈ g.mostSpecific p.possibleTypes

/-- Of elements with one key the first is kept. -/
theorem map_eraseDupsBy {α β : Type} [DecidableEq β] (key : α → β) (l : List α) :
    (l.eraseDupsBy fun a b ↦ key a = key b).map key = (l.map key).eraseDups := by
  induction hlength : l.length using Nat.strong_induction_on generalizing l with
  | _ k ih =>
    cases l with
    | nil => simp
    | cons a rest =>
      have hle := List.length_filter_le (fun b ↦ decide (decide (key b = key a) = false)) rest
      rw [List.length_cons] at hlength
      rw [List.eraseDupsBy_cons, List.map_cons, ih _ (by omega) _ rfl, List.map_cons,
        List.eraseDups_cons, List.filter_map]
      congr 3
      refine List.filter_congr fun b _ ↦ ?_
      by_cases hb : key b = key a <;> simp [hb]

theorem eraseDupsBy_subset {α : Type} (r : α → α → Bool) (l : List α) : l.eraseDupsBy r ⊆ l := by
  induction hlength : l.length using Nat.strong_induction_on generalizing l with
  | _ k ih =>
    cases l with
    | nil => simp
    | cons a rest =>
      have hle := List.length_filter_le (fun b ↦ decide (r b a = false)) rest
      rw [List.length_cons] at hlength
      rw [List.eraseDupsBy_cons]
      refine List.cons_subset_cons a ?_
      exact List.Subset.trans (ih _ (by omega) _ rfl) (List.filter_subset_self _)

/-- **What a model implements.** -/
theorem supers_eq_ok {interfaces : Name → Except Error ModelGroup} {f : Field}
    {inherited : List ModelGroup} {before : List BuiltModel} {p : PlannedModel} {sups : List Model}
    (h : supers interfaces f inherited before p = .ok sups) :
    Supers interfaces f inherited before p sups := by
  rw [supers] at h
  split at h
  case isTrue hother =>
    obtain ⟨m, hm, h⟩ := Error.bind_eq_ok.mp h
    cases h
    obtain ⟨b, hb, rfl, hset, hprimary⟩ := primaryBuilt_eq_ok hm
    refine ⟨fun n hn ↦ ?_, List.nodup_singleton _, fun _ ↦ ⟨b, hb, hset, hprimary, by simp⟩, ?_, ?_,
      fun _ ↦ ⟨_, rfl⟩, ?_⟩
    · cases List.mem_singleton.mp hn
      exact .own hb hother hset hprimary
    all_goals exact fun hprimary' ↦ absurd (hother.symm.trans hprimary') (by decide)
  case isFalse hother =>
    obtain ⟨wider, hwider, h⟩ := Error.bind_eq_ok.mp h
    obtain ⟨spread, hspread, h⟩ := Error.bind_eq_ok.mp h
    cases h
    have hids : ∀ n ∈ wider ++ (spread ++ inherited).flatMap fun g ↦ g.mostSpecific p.possibleTypes,
        n.id ∈ ((wider ++ (spread ++ inherited).flatMap fun g ↦
          g.mostSpecific p.possibleTypes).eraseDupsBy fun m n ↦ m.id = n.id).map Model.id := by
      intro n hn
      rw [map_eraseDupsBy, List.mem_eraseDups]
      exact List.mem_map_of_mem hn
    have hbeside : ∀ n ∈ wider ++ (spread ++ inherited).flatMap fun g ↦
        g.mostSpecific p.possibleTypes,
        (∃ b ∈ before, b.model = n ∧ b.planned.typeSet ∈ f.nextWider p.typeSet ∧
          b.planned.isOther = false) ∨
          ∃ g, (g ∈ inherited ∨ ∃ name ∈ p.fieldSet.fragments, interfaces name = .ok g) ∧
            n ∈ g.mostSpecific p.possibleTypes := by
      intro n hn
      rcases List.mem_append.mp hn with hn | hn
      · obtain ⟨next, hnext, hok⟩ := Error.exists_of_mem_mapM hwider hn
        obtain ⟨b, hb, rfl, hset, hprimary⟩ := primaryBuilt_eq_ok hok
        exact .inl ⟨b, hb, rfl, hset ▸ hnext, hprimary⟩
      · obtain ⟨g, hg, hn⟩ := List.mem_flatMap.mp hn
        rcases List.mem_append.mp hg with hg | hg
        · obtain ⟨name, hname, hok⟩ := Error.exists_of_mem_mapM hspread hg
          exact .inr ⟨g, .inr ⟨name, hname, hok⟩, hn⟩
        · exact .inr ⟨g, .inl hg, hn⟩
    refine ⟨fun n hn ↦ ?_, ?_, fun hother' ↦ absurd hother' hother, fun _ next hnext ↦ ?_,
      fun _ name hname ↦ ?_, fun hother' ↦ absurd hother' hother, fun _ n hn ↦
        hbeside n (eraseDupsBy_subset _ _ hn)⟩
    · rcases hbeside n (eraseDupsBy_subset _ _ hn) with ⟨b, hb, rfl, hnext, hprimary⟩ |
        ⟨g, hgroup, hn⟩
      · exact .wider hb (Field.of_mem_nextWider hnext) hprimary
      · exact .matching hgroup hn
    · rw [map_eraseDupsBy]
      exact nodup_eraseDups _
    · obtain ⟨m, hm, hok⟩ := Error.exists_mem_of_mapM hwider hnext
      obtain ⟨b, hb, rfl, hset, hprimary⟩ := primaryBuilt_eq_ok hok
      exact ⟨b, hb, hset, hprimary, hids _ (List.mem_append_left _ hm)⟩
    · obtain ⟨g, hg, hok⟩ := Error.exists_mem_of_mapM hspread hname
      refine ⟨g, hok, fun n hn ↦ hids n (List.mem_append_right _ ?_)⟩
      exact List.mem_flatMap.mpr ⟨g, List.mem_append_left _ hg, hn⟩

/-! ## Accessors and properties -/

/-- Where an accessor of a planned model leads. -/
inductive Accesses (interfaces : Name → Except Error ModelGroup) (f : Field) (site : Site)
    (p : PlannedModel) : Accessor → Prop
  | fragment {name : Name} {g : ModelGroup} (spread : name ∈ f.fragments)
      (ok : interfaces name = .ok g) :
      Accesses interfaces f site p (.fragment name g.baseId)
  | subtype {q : PlannedModel} (mem : q ∈ f.plan site) (primary : q.isOther = false)
      (narrower : p.typeSet ⊂ q.typeSet) :
      Accesses interfaces f site p (.subtype q.typeSet (site.id q.name))

/-- The accessors of a model lead to the base models of fragments and to narrower models of the
group, and the base model has one for every fragment spread on the field. -/
theorem accessors_eq_ok {interfaces : Name → Except Error ModelGroup} {f : Field} {site : Site}
    {p : PlannedModel} {as : List Accessor}
    (h : accessors interfaces f site (f.plan site) p = .ok as) :
    (∀ a ∈ as, Accesses interfaces f site p a) ∧
      (p.isBase = true → ∀ name ∈ f.fragments, ∃ g, interfaces name = .ok g ∧
        .fragment name g.baseId ∈ as) := by
  obtain ⟨fragments, hfragments, h⟩ := Error.bind_eq_ok.mp h
  obtain ⟨subtypes, hsubtypes, h⟩ := Error.bind_eq_ok.mp h
  cases h
  refine ⟨fun a ha ↦ ?_, fun hbase name hname ↦ ?_⟩
  · rcases List.mem_append.mp ha with ha | ha
    · obtain ⟨name, hname, hok⟩ := Error.exists_of_mem_mapM hfragments ha
      obtain ⟨g, hg, hok⟩ := Error.bind_eq_ok.mp hok
      cases hok
      split at hname
      · exact .fragment hname hg
      · exact absurd hname List.not_mem_nil
    · obtain ⟨s, hs, hok⟩ := Error.exists_of_mem_mapM hsubtypes ha
      obtain ⟨q, hq, hok⟩ := Error.bind_eq_ok.mp hok
      cases hok
      obtain ⟨hmem, hset, hprimary⟩ := primaryPlanned_eq_ok hq
      split at hs
      · rw [← hset]
        refine .subtype hmem hprimary ?_
        exact hset ▸ of_decide_eq_true (List.mem_filter.mp hs).2
      · exact absurd hs List.not_mem_nil
  · rw [if_pos hbase] at hfragments
    obtain ⟨a, ha, hok⟩ := Error.exists_mem_of_mapM hfragments hname
    obtain ⟨g, hg, hok⟩ := Error.bind_eq_ok.mp hok
    cases hok
    exact ⟨g, hg, List.mem_append_left _ ha⟩

/-- The groups that the group of a property inherits from. -/
def inheritedGroups (sups : List Model) (responseName : Name) : List ModelGroup :=
  (inheritedProperties sups responseName).filterMap Property.group

/-- An inherited group is that of a property of a model that is implemented. -/
theorem exists_of_mem_inheritedGroups {sups : List Model} {responseName : Name} {g : ModelGroup}
    (h : g ∈ inheritedGroups sups responseName) :
    ∃ n ∈ sups, ∃ p ∈ n.properties, p.info.responseName = responseName ∧ p.group = some g := by
  obtain ⟨p, hp, hgroup⟩ := List.mem_filterMap.mp h
  obtain ⟨n, hn, hp⟩ := List.mem_filterMap.mp hp
  exact ⟨n, hn, p, List.mem_of_find?_eq_some hp, by simpa using List.find?_some hp, hgroup⟩

/-- A property is for its field, and its group is built from that field and inherits from the groups
of the properties it overrides. -/
theorem property_eq_ok {sups : List Model} {k : Field}
    {group : List ModelGroup → Except Error ModelGroup} {p : Property}
    (h : property sups k group = .ok p) :
    p.info = k.info ∧ p.condition = k.condition ∧
      ∀ g, p.group = some g → group (inheritedGroups sups k.responseName) = .ok g := by
  rw [property] at h
  split at h
  · cases h
    exact ⟨rfl, rfl, fun g hg ↦ by cases hg⟩
  · cases hgroup : group ((inheritedProperties sups k.responseName).filterMap Property.group) with
    | error e =>
      rw [hgroup] at h
      cases h
    | ok inner =>
      rw [hgroup] at h
      cases h
      refine ⟨rfl, rfl, fun g hg ↦ ?_⟩
      cases hg
      exact hgroup

/-! ## One model after the other -/

/-- How a model comes about from the models built before it. -/
structure BuiltModel.Follows (interfaces : Name → Except Error ModelGroup) (f : Field) (site : Site)
    (inherited : List ModelGroup) (before : List BuiltModel) (sups : List Model) (b : BuiltModel) :
    Prop where
  /-- The models it implements are as they should be. -/
  supers : Supers interfaces f inherited before b.planned sups
  /-- Its properties are those of the fields of its shape. -/
  properties : (b.planned.fieldSet.fields.mapM fun k ↦
    property sups k (k.modelGroup interfaces (site.beneath b.planned k))) = .ok b.model.properties
  /-- Its accessors are those of the plan. -/
  accessors : ResponseModels.accessors interfaces f site (f.plan site) b.planned =
    .ok b.model.accessors
  /-- All else is taken from the plan. -/
  model : b.model = b.planned.model site sups b.model.properties b.model.accessors

/-- What a model takes over from its plan. -/
structure BuiltModel.Keeps (site : Site) (b : BuiltModel) : Prop where
  /-- The id is at the site. -/
  id : b.model.id = site.id b.planned.name
  /-- The name is the planned one. -/
  name : b.model.name = b.planned.name
  /-- So is the type set. -/
  typeSet : b.model.typeSet = b.planned.typeSet
  /-- So are the possible types. -/
  possibleTypes : b.model.possibleTypes = b.planned.possibleTypes
  /-- It is an interface if planned so. -/
  isInterface : b.model.isInterface = b.planned.isInterface
  /-- It is the base model if planned so. -/
  isBase : b.model.isBase = b.planned.isBase

/-- Models that were built one after the other. -/
inductive Raises (interfaces : Name → Except Error ModelGroup) (f : Field) (site : Site)
    (inherited : List ModelGroup) : List BuiltModel → Prop
  | nil : Raises interfaces f site inherited []
  | snoc {before : List BuiltModel} {sups : List Model} {b : BuiltModel}
      (earlier : Raises interfaces f site inherited before)
      (last : b.Follows interfaces f site inherited before sups) :
      Raises interfaces f site inherited (before ++ [b])

section

variable {interfaces : Name → Except Error ModelGroup} {f : Field} {site : Site}
  {inherited : List ModelGroup} {g : ModelGroup}

/-- **The models of a group are built one after the other**, as planned. -/
theorem Field.raises_of_modelGroup (h : f.modelGroup interfaces site inherited = .ok g) :
    ∃ built, Raises interfaces f site inherited built ∧ g.models = built.map BuiltModel.model ∧
      built.map BuiltModel.planned = f.plan site ∧
      ∃ b ∈ built, b.planned.isBase = true ∧ g.baseId = site.id b.planned.name := by
  rw [modelGroup_eq] at h
  split at h
  · cases h
  split at h
  · cases h
  rename_i base hbase
  obtain ⟨built, hbuilt, h⟩ := Error.bind_eq_ok.mp h
  have hinv := Error.foldlM_invariant (I := fun rest built ↦
    Raises interfaces f site inherited built ∧ built.map BuiltModel.planned ++ rest = f.plan site)
    ?_ ⟨.nil, rfl⟩ hbuilt
  · obtain ⟨hraises, hplan⟩ := hinv
    rw [List.append_nil] at hplan
    have hmem := List.mem_of_find?_eq_some hbase
    rw [← hplan] at hmem
    obtain ⟨b, hb, rfl⟩ := List.mem_map.mp hmem
    have hisBase := List.find?_some hbase
    rw [groupOfModels] at h
    split at h
    · cases h
      exact ⟨built, hraises, rfl, hplan, b, hb, hisBase, rfl⟩
    · cases h
  · rintro p rest before after ⟨hraises, hplan⟩ hstep
    obtain ⟨sups, hsups, hstep⟩ := Error.bind_eq_ok.mp hstep
    obtain ⟨properties, hproperties, hstep⟩ := Error.bind_eq_ok.mp hstep
    obtain ⟨accessors, haccessors, hstep⟩ := Error.bind_eq_ok.mp hstep
    cases hstep
    exact ⟨.snoc hraises ⟨supers_eq_ok hsups, hproperties, haccessors, rfl⟩, by simpa using hplan⟩

/-- Every model of a group follows from some of the others. -/
theorem Raises.exists_follows {built : List BuiltModel}
    (h : Raises interfaces f site inherited built) {b : BuiltModel} (hb : b ∈ built) :
    ∃ before sups, before ⊆ built ∧ b.Follows interfaces f site inherited before sups := by
  induction h with
  | nil => exact absurd hb List.not_mem_nil
  | @snoc before sups last earlier hlast ih =>
    rcases List.mem_append.mp hb with hb | hb
    · obtain ⟨before', sups', hsubset, hfollows⟩ := ih hb
      exact ⟨before', sups', List.Subset.trans hsubset (List.subset_append_left _ _), hfollows⟩
    · cases List.mem_singleton.mp hb
      exact ⟨before, sups, List.subset_append_left _ _, hlast⟩

theorem Raises.keeps {built : List BuiltModel} (h : Raises interfaces f site inherited built)
    {b : BuiltModel} (hb : b ∈ built) : b.Keeps site := by
  obtain ⟨_, sups, -, hfollows⟩ := h.exists_follows hb
  have hmodel := hfollows.model
  constructor <;> rw [hmodel] <;> rfl

theorem BuiltModel.Follows.implements {before : List BuiltModel} {sups : List Model}
    {b : BuiltModel} (h : b.Follows interfaces f site inherited before sups) :
    b.model.implements = sups.map Model.id := by
  rw [h.model]
  rfl

/-- The properties of a model are for the fields of its shape, in order. -/
theorem BuiltModel.Follows.map_info {before : List BuiltModel} {sups : List Model} {b : BuiltModel}
    (h : b.Follows interfaces f site inherited before sups) :
    b.model.properties.map Property.info = b.planned.fieldSet.fields.map Field.info :=
  Error.map_eq_of_mapM (fun _ _ hp ↦ (property_eq_ok hp).1) h.properties

/-- **The group of a property** is built for the field of the property, beneath the model that has
it, and inherits from the groups of the properties it overrides. -/
theorem BuiltModel.Follows.nested {before : List BuiltModel} {sups : List Model} {b : BuiltModel}
    (h : b.Follows interfaces f site inherited before sups) {p : Property}
    (hp : p ∈ b.model.properties) {inner : ModelGroup} (hinner : p.group = some inner) :
    ∃ k ∈ b.planned.fieldSet.fields, p.info = k.info ∧
      k.modelGroup interfaces (site.beneath b.planned k) (inheritedGroups sups k.responseName) =
        .ok inner := by
  obtain ⟨k, hk, hok⟩ := Error.exists_of_mem_mapM h.properties hp
  exact ⟨k, hk, (property_eq_ok hok).1, (property_eq_ok hok).2.2 inner hinner⟩

/-- **Induction along the tree of groups**: what holds of a group when it holds of the groups built
for the fields beneath, holds of all groups. -/
theorem Field.modelGroup_induct {motive : Field → Site → List ModelGroup → ModelGroup → Prop}
    (step : ∀ f site inherited g, f.modelGroup interfaces site inherited = .ok g →
      (∀ s ∈ f.fieldSets, ∀ k ∈ s.fields, ∀ site inherited inner,
        k.modelGroup interfaces site inherited = .ok inner → motive k site inherited inner) →
      motive f site inherited g)
    (h : f.modelGroup interfaces site inherited = .ok g) : motive f site inherited g := by
  induction hsize : f.size using Nat.strong_induction_on generalizing f site inherited g with
  | _ size ih =>
    refine step f site inherited g h fun s hs k hk site' inherited' inner hinner ↦ ?_
    exact ih k.size (hsize ▸ Field.size_lt_of_mem hs hk) hinner rfl

end

/-! ## Object types -/

theorem Field.covered_subset {f : Field} {wide narrow : NameSet} (h : wide ⊆ narrow) :
    (f.covered narrow).possibleTypes ⊆ (f.covered wide).possibleTypes := by
  intro t ht
  obtain ⟨a, ha, hsub, ht⟩ := mem_coveredTypes.mp ht
  exact mem_coveredTypes.mpr ⟨a, ha, fun c hc ↦ hsub c (h c hc), ht⟩

theorem Field.isEmpty_narrower {f : Field} {s : FieldSet} (hs : s ∈ f.fieldSets) {wide : NameSet}
    (h : wide ⊂ s.typeSet) : (f.narrower wide).isEmpty = false :=
  List.isEmpty_eq_false_iff_exists_mem.mpr ⟨s, List.mem_filter.mpr ⟨hs, decide_eq_true h⟩⟩

namespace PlannedModel.Kind

variable {f : Field} {site : Site} {p : PlannedModel}

/-- A model is for no other object types than its shape. -/
theorem subset_covered (h : p.Kind f site) :
    p.possibleTypes ⊆ (f.covered p.typeSet).possibleTypes := by
  cases h with
  | primary _ _ htypes => exact htypes ▸ fun _ ht ↦ ht
  | other _ _ htypes _ _ =>
    intro t ht
    rw [htypes] at ht
    exact (Shape.mem_ownTypes.mp ht).1

/-- The primary model of a shape has all object types of the shape. -/
theorem possibleTypes_eq (h : p.Kind f site) (hprimary : p.isOther = false) :
    p.possibleTypes = (f.covered p.typeSet).possibleTypes := by
  cases h with
  | primary _ _ htypes => exact htypes
  | other hother _ _ _ _ => exact absurd (hother.symm.trans hprimary) (by decide)

/-- The primary model of a shape that has narrower ones is an interface. -/
theorem isInterface_of_narrower (h : p.Kind f site) (hprimary : p.isOther = false)
    (hnarrower : (f.narrower p.typeSet).isEmpty = false) : p.isInterface = true := by
  cases h with
  | primary _ hinterface _ => simp [hinterface, hnarrower]
  | other hother _ _ _ _ => exact absurd (hother.symm.trans hprimary) (by decide)

end PlannedModel.Kind

/-- **What a model implements is an interface and is for at least its object types.** -/
theorem Super.covers {interfaces : Name → Except Error ModelGroup} {f : Field} {site : Site}
    {inherited : List ModelGroup} {before : List BuiltModel}
    (hbefore : ∀ c ∈ before, c.planned ∈ f.plan site ∧ c.Keeps site) {p : PlannedModel}
    (hp : p ∈ f.plan site) {n : Model} (h : Super interfaces inherited before p n) :
    n.isInterface = true ∧ p.possibleTypes ⊆ n.possibleTypes := by
  have hkind := Field.kind_of_mem_plan hp
  cases h with
  | own mem other typeSet primary =>
    obtain ⟨hplan, hkeeps⟩ := hbefore _ mem
    have hkind' := Field.kind_of_mem_plan hplan
    have hnarrower : (f.narrower p.typeSet).isEmpty = false := by
      cases hkind with
      | primary hprimary _ _ => exact absurd (other.symm.trans hprimary) (by decide)
      | other _ _ _ _ hnarrower => exact hnarrower
    rw [hkeeps.isInterface, hkeeps.possibleTypes, hkind'.possibleTypes_eq primary, typeSet]
    exact ⟨hkind'.isInterface_of_narrower primary (typeSet ▸ hnarrower), hkind.subset_covered⟩
  | wider mem typeSet primary =>
    obtain ⟨hplan, hkeeps⟩ := hbefore _ mem
    have hkind' := Field.kind_of_mem_plan hplan
    rw [hkeeps.isInterface, hkeeps.possibleTypes, hkind'.possibleTypes_eq primary]
    refine ⟨hkind'.isInterface_of_narrower primary ?_, fun t ht ↦ ?_⟩
    · exact Field.isEmpty_narrower (Field.fieldSet_mem_of_mem_plan hp) typeSet
    · exact Field.covered_subset typeSet.2 t (hkind.subset_covered t ht)
  | matching _ mem => exact (ModelGroup.of_mem_mostSpecific mem).2

end ResponseModels
