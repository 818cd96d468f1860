import ResponseModels.Collect.Declaration
import ResponseModels.Proofs.Condition.Meaning

/-!
# What merging declarations gives

`Declaration.merge` makes one declaration out of all those of a response name. What is known of the
result:

* there is one for every response name, and no two for the same (`map_responseName_merge`);
* it is the same field as each of those it was made of (`sameField_of_mem_merge`);
* it holds when one of those it was made of holds (`eval_of_mem_merge`);
* it has the children of all of them and no others (`exists_place_of_mem_merge`,
  `exists_of_mem_children_merge`).

The last point needs care. Children are told apart by their places, and of several with one place
only the first is kept. So of a child that stands beneath one of the declarations it is only known
that the result has a child *at its place*. That this is the same selection is a matter of the
document: `Stands` says that a selection stands at a place, and only one selection does
(`Stands.unique`).
-/

set_option autoImplicit false

namespace ResponseModels

/-! ## Places -/

/-- The selections beneath a field or inside an inline fragment. -/
def Selection.inside? : Selection → Option (List Selection)
  | .field _ selections | .inline _ _ selections => some selections
  | .spread .. => none

/-- The list of selections at a place, given the selections of the definition that is being
collected. -/
def selectionsAt (d : Document) (root : List Selection) (owner : Option Name) :
    List Nat → Option (List Selection)
  | [] => match owner with
    | none => some root
    | some name => (d.fragment? name).map Fragment.selections
  | i :: steps => (selectionsAt d root owner steps).bind fun l ↦ l[i]?.bind Selection.inside?

/-- A selection stands at a place. -/
def Stands (d : Document) (root : List Selection) (p : Place) (s : Selection) : Prop :=
  ∃ i steps l, p.steps = i :: steps ∧ selectionsAt d root p.owner steps = some l ∧ l[i]? = some s

namespace Stands

variable {d : Document} {root : List Selection} {p : Place}

/-- At a place there stands one selection. -/
theorem unique {s s' : Selection} (h : Stands d root p s) (h' : Stands d root p s') : s = s' := by
  obtain ⟨i, steps, l, hp, hl, hs⟩ := h
  obtain ⟨i', steps', l', hp', hl', hs'⟩ := h'
  rw [hp] at hp'
  cases hp'
  rw [hl] at hl'
  cases hl'
  rw [hs] at hs'
  exact Option.some_inj.mp hs'

theorem selectionsAt {s : Selection} {l : List Selection} (h : Stands d root p s)
    (hs : s.inside? = some l) : selectionsAt d root p.owner p.steps = some l := by
  obtain ⟨i, steps, l', hp, hl', hi⟩ := h
  rw [hp, ResponseModels.selectionsAt, hl', Option.bind_some, hi, Option.bind_some, hs]

private theorem of_mem_locateFrom {l rest : List Selection} {i : Nat} {ps : Place × Selection}
    (pre : List Selection) (hl : ResponseModels.selectionsAt d root p.owner p.steps = some l)
    (hrest : l = pre ++ rest) (hi : i = pre.length) (h : ps ∈ p.locateFrom i rest) :
    Stands d root ps.1 ps.2 := by
  induction rest generalizing pre i with
  | nil => exact absurd h List.not_mem_nil
  | cons s rest ih =>
    rw [Place.locateFrom] at h
    rcases List.mem_cons.mp h with rfl | h
    · exact ⟨i, p.steps, l, rfl, hl, by simp [hrest, hi]⟩
    · exact ih (pre ++ [s]) (by simp [hrest]) (by simp [hi]) h

/-- The selections of a list stand where they are located. -/
theorem of_mem_locate {l : List Selection} {ps : Place × Selection}
    (hl : ResponseModels.selectionsAt d root p.owner p.steps = some l) (h : ps ∈ p.locate l) :
    Stands d root ps.1 ps.2 :=
  of_mem_locateFrom [] hl rfl rfl h

end Stands

/-! ## Children -/

theorem Child.mem_addNew_of_mem {c : Child} {children : List Child} (more : List Child)
    (h : c ∈ children) : c ∈ addNew children more := by
  induction more generalizing children with
  | nil => exact h
  | cons k rest ih =>
    rw [addNew]
    split
    · exact ih h
    · exact ih (List.mem_append_left _ h)

theorem Child.exists_place_mem_addNew {c : Child} (children : List Child) {more : List Child}
    (h : c ∈ more) : ∃ k ∈ addNew children more, k.place = c.place := by
  induction more generalizing children with
  | nil => exact absurd h List.not_mem_nil
  | cons k rest ih =>
    rw [addNew]
    split
    · rename_i hany
      rcases List.mem_cons.mp h with rfl | h
      · obtain ⟨k', hk', hplace⟩ := List.any_eq_true.mp hany
        exact ⟨k', mem_addNew_of_mem rest hk', of_decide_eq_true hplace⟩
      · exact ih children h
    · rcases List.mem_cons.mp h with rfl | h
      · exact ⟨c, mem_addNew_of_mem rest (by simp), rfl⟩
      · exact ih _ h

/-! ## Merging -/

/-- Two selections select the same field: it has the same name, type and arguments. -/
structure FieldInfo.SameField (i j : FieldInfo) : Prop where
  /-- The field of the enclosing type is the same. -/
  name : i.name = j.name
  /-- It is of the same type. -/
  type : i.type = j.type
  /-- It has the same arguments with the same values. -/
  arguments : i.arguments = j.arguments

namespace FieldInfo.SameField

variable {i j k : FieldInfo}

theorem refl (i : FieldInfo) : i.SameField i := ⟨rfl, rfl, rfl⟩

theorem symm (h : i.SameField j) : j.SameField i := ⟨h.name.symm, h.type.symm, h.arguments.symm⟩

theorem trans (h : i.SameField j) (h' : j.SameField k) : i.SameField k :=
  ⟨h.name.trans h'.name, h.type.trans h'.type, h.arguments.trans h'.arguments⟩

theorem rawType (h : i.SameField j) : i.rawType = j.rawType := by
  rw [FieldInfo.rawType, h.type, FieldInfo.rawType]

end FieldInfo.SameField

namespace Declaration

theorem checkSame_eq_ok {first other : FieldInfo} (h : checkSame first other = .ok ()) :
    first.SameField other := by
  rw [checkSame] at h
  split at h
  · cases h
  rename_i hname
  split at h
  · cases h
  rename_i htype
  split at h
  · cases h
  rename_i harguments
  exact ⟨Decidable.not_not.mp hname, Decidable.not_not.mp htype, Decidable.not_not.mp harguments⟩

private theorem foldlM_absorb {first merged : Declaration} {rest : List Declaration}
    (h : rest.foldlM absorb first = .ok merged) :
    merged.info = first.info ∧ (∀ d ∈ rest, first.info.SameField d.info) ∧
      (∀ v, merged.condition.eval v =
        (first.condition.eval v || rest.any fun d ↦ d.condition.eval v)) ∧
      (∀ c ∈ first.children, c ∈ merged.children) ∧
      ∀ d ∈ rest, ∀ c ∈ d.children, ∃ k ∈ merged.children, k.place = c.place := by
  induction rest generalizing first with
  | nil =>
    rw [List.foldlM_nil] at h
    cases h
    exact ⟨rfl, fun d hd ↦ absurd hd List.not_mem_nil, by simp, fun c hc ↦ hc,
      fun d hd ↦ absurd hd List.not_mem_nil⟩
  | cons d rest ih =>
    rw [List.foldlM_cons] at h
    obtain ⟨next, hnext, h⟩ := Error.bind_eq_ok.mp h
    rw [absorb] at hnext
    obtain ⟨⟨⟩, hsame, hnext⟩ := Error.bind_eq_ok.mp hnext
    cases hnext
    obtain ⟨hinfo, hsames, heval, hfirst, hrest⟩ := ih h
    refine ⟨hinfo, List.forall_mem_cons.mpr ⟨checkSame_eq_ok hsame, hsames⟩, fun v ↦ ?_,
      fun c hc ↦ hfirst c (Child.mem_addNew_of_mem _ hc), ?_⟩
    · rw [heval v, Condition.eval_or, List.any_cons, Bool.or_assoc]
    · intro d' hd' c hc
      rcases List.mem_cons.mp hd' with rfl | hd'
      · obtain ⟨k, hk, hplace⟩ := Child.exists_place_mem_addNew first.children hc
        exact ⟨k, hfirst k hk, hplace⟩
      · exact hrest d' hd' c hc

/-- What merging the declarations of one response name gives. -/
theorem mergeGroup_eq_ok {group : List Declaration} {merged : Declaration}
    (h : mergeGroup group = .ok merged) :
    (∃ first ∈ group, merged.info = first.info) ∧ (∀ d ∈ group, merged.info.SameField d.info) ∧
      (∀ v, merged.condition.eval v = group.any fun d ↦ d.condition.eval v) ∧
      ∀ d ∈ group, ∀ c ∈ d.children, ∃ k ∈ merged.children, k.place = c.place := by
  cases group with
  | nil => cases h
  | cons first rest =>
    rw [mergeGroup] at h
    obtain ⟨hinfo, hsame, heval, hfirst, hrest⟩ := foldlM_absorb h
    refine ⟨⟨first, List.mem_cons_self, hinfo⟩, ?_, fun v ↦ ?_, ?_⟩
    · rw [hinfo]
      exact List.forall_mem_cons.mpr ⟨.refl _, hsame⟩
    · rw [heval v, List.any_cons]
    · intro d hd c hc
      rcases List.mem_cons.mp hd with rfl | hd
      · obtain ⟨k, hk, hplace⟩ := Child.exists_place_mem_addNew [] hc
        exact ⟨k, hfirst k hk, hplace⟩
      · exact hrest d hd c hc

theorem responseName_of_mergeGroup {declarations : List Declaration} {n : Name}
    {merged : Declaration} (h : mergeGroup (group declarations n) = .ok merged) :
    merged.responseName = n := by
  obtain ⟨⟨first, hfirst, hinfo⟩, -, -⟩ := mergeGroup_eq_ok h
  have hn := (List.mem_filter.mp hfirst).2
  rw [responseName, hinfo]
  exact eq_of_beq hn

section merge

variable {declarations merged : List Declaration} (h : merge declarations = .ok merged)
include h

/-- There is one merged declaration for every response name, in the order in which the names are
first seen. -/
theorem map_responseName_merge :
    merged.map responseName = (declarations.map responseName).eraseDups := by
  have hmap := Error.map_eq_of_mapM (g := id) (fun n m hm ↦ responseName_of_mergeGroup hm) h
  rwa [List.map_id] at hmap

theorem nodup_responseName_merge : (merged.map responseName).Nodup := by
  rw [map_responseName_merge h]
  exact nodup_eraseDups _

theorem exists_mem_merge {d : Declaration} (hd : d ∈ declarations) :
    ∃ m ∈ merged, m.responseName = d.responseName := by
  have hmem : d.responseName ∈ merged.map responseName := by
    rw [map_responseName_merge h, List.mem_eraseDups]
    exact List.mem_map_of_mem hd
  exact List.mem_map.mp hmem

theorem mergeGroup_of_mem_merge {m : Declaration} (hm : m ∈ merged) :
    mergeGroup (group declarations m.responseName) = .ok m := by
  obtain ⟨n, -, hn⟩ := Error.exists_of_mem_mapM h hm
  rwa [responseName_of_mergeGroup hn]

/-- **A merged declaration is the same field as those it was made of.** -/
theorem sameField_of_mem_merge {m : Declaration} (hm : m ∈ merged) {d : Declaration}
    (hd : d ∈ declarations) (hn : d.responseName = m.responseName) : m.info.SameField d.info := by
  refine (mergeGroup_eq_ok (mergeGroup_of_mem_merge h hm)).2.1 d ?_
  exact List.mem_filter.mpr ⟨hd, beq_iff_eq.mpr hn⟩

/-- **A merged declaration holds when one of those it was made of holds.** -/
theorem eval_of_mem_merge {m : Declaration} (hm : m ∈ merged) (v : Name → Bool) :
    m.condition.eval v = true ↔
      ∃ d ∈ declarations, d.responseName = m.responseName ∧ d.condition.eval v = true := by
  rw [(mergeGroup_eq_ok (mergeGroup_of_mem_merge h hm)).2.2.1 v, List.any_eq_true]
  simp [group, and_assoc]

/-- The children of a merged declaration come from declarations of its response name. -/
theorem exists_of_mem_children_merge {m : Declaration} (hm : m ∈ merged) {c : Child}
    (hc : c ∈ m.children) :
    ∃ d ∈ declarations, d.responseName = m.responseName ∧ c ∈ d.children := by
  obtain ⟨d, hd, hc⟩ := (exists_of_mem_mergeGroup (mergeGroup_of_mem_merge h hm)).2 c hc
  obtain ⟨hd, hn⟩ := List.mem_filter.mp hd
  exact ⟨d, hd, eq_of_beq hn, hc⟩

/-- What stands beneath one of the declarations has its place among the children of the merged
one. -/
theorem exists_place_of_mem_merge {m : Declaration} (hm : m ∈ merged) {d : Declaration}
    (hd : d ∈ declarations) (hn : d.responseName = m.responseName) {c : Child}
    (hc : c ∈ d.children) :
    ∃ k ∈ m.children, k.place = c.place := by
  refine (mergeGroup_eq_ok (mergeGroup_of_mem_merge h hm)).2.2.2 d ?_ c hc
  exact List.mem_filter.mpr ⟨hd, beq_iff_eq.mpr hn⟩

end merge

end Declaration
end ResponseModels
