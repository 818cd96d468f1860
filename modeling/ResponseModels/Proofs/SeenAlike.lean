import Mathlib.Data.List.Forall2
import ResponseModels.Ascending
import ResponseModels.Error

/-!
# Lists up to repetition

Much of what is collected goes by what is seen first: repeating what was seen before changes
nothing. `SeenAlike` says of two lists that one can be got from the other by leaving out, or putting
in, elements that were seen before. Nothing needs to be decidable for this.

* It is kept by what is done with lists element by element (`SeenAlike.flatMap` and its special
  cases) and by more that follows (`SeenAlike.append_right`).
* What was seen before can follow as a whole (`SeenAlike.absorb`).
* What a relation makes of lists element by element is seen alike if they are
  (`SeenAlike.exists_forall₂`).
* Lists that are seen alike have the same members (`SeenAlike.mem_iff`), the same first element
  (`SeenAlike.head?_eq`) and the same elements in the order in which they are first seen
  (`SeenAlike.eraseDups_eq`).

At the end stands what is known of `mapM` as a list of results.
-/

set_option autoImplicit false

namespace ResponseModels

variable {α β : Type}

/-- Two lists differ only in elements that were seen before. -/
inductive SeenAlike : List α → List α → Prop
  | refl (l : List α) : SeenAlike l l
  | symm {l m : List α} (h : SeenAlike l m) : SeenAlike m l
  | trans {l m k : List α} (h : SeenAlike l m) (h' : SeenAlike m k) : SeenAlike l k
  | again {before : List α} {a : α} (after : List α) (seen : a ∈ before) :
      SeenAlike (before ++ a :: after) (before ++ after)

namespace SeenAlike

variable {l m : List α}

theorem of_eq (h : l = m) : SeenAlike l m := h ▸ .refl l

theorem mem_iff (h : SeenAlike l m) {a : α} : a ∈ l ↔ a ∈ m := by
  induction h with
  | refl => exact Iff.rfl
  | symm _ ih => exact ih.symm
  | trans _ _ ih ih' => exact ih.trans ih'
  | @again before b after seen =>
    simp only [List.mem_append, List.mem_cons]
    constructor
    · rintro (ha | rfl | ha)
      · exact .inl ha
      · exact .inl seen
      · exact .inr ha
    · exact Or.imp_right .inr

theorem append_right (k : List α) (h : SeenAlike l m) : SeenAlike (l ++ k) (m ++ k) := by
  induction h with
  | refl => exact .refl _
  | symm _ ih => exact ih.symm
  | trans _ _ ih ih' => exact ih.trans ih'
  | again after seen =>
    rw [List.append_assoc, List.append_assoc, List.cons_append]
    exact .again (after ++ k) seen

/-- What was seen before can be left out as a whole. -/
theorem absorb {before more : List α} (after : List α) (h : more ⊆ before) :
    SeenAlike (before ++ (more ++ after)) (before ++ after) := by
  induction more with
  | nil => exact .refl _
  | cons a more ih =>
    obtain ⟨ha, hmore⟩ := List.cons_subset.mp h
    exact (again (more ++ after) ha).trans (ih hmore)

theorem flatMap (f : α → List β) (h : SeenAlike l m) : SeenAlike (l.flatMap f) (m.flatMap f) := by
  induction h with
  | refl => exact .refl _
  | symm _ ih => exact ih.symm
  | trans _ _ ih ih' => exact ih.trans ih'
  | @again before a after seen =>
    rw [List.flatMap_append, List.flatMap_append, List.flatMap_cons]
    exact absorb (after.flatMap f) fun b hb ↦ List.mem_flatMap.mpr ⟨a, seen, hb⟩

theorem map (f : α → β) (h : SeenAlike l m) : SeenAlike (l.map f) (m.map f) := by
  rw [List.map_eq_flatMap, List.map_eq_flatMap]
  exact h.flatMap _

theorem filterMap (f : α → Option β) (h : SeenAlike l m) :
    SeenAlike (l.filterMap f) (m.filterMap f) := by
  rw [List.filterMap_eq_flatMap_toList, List.filterMap_eq_flatMap_toList]
  exact h.flatMap _

theorem filter (p : α → Bool) (h : SeenAlike l m) : SeenAlike (l.filter p) (m.filter p) := by
  rw [← List.filterMap_eq_filter]
  exact h.filterMap _

theorem head?_eq (h : SeenAlike l m) : l.head? = m.head? := by
  induction h with
  | refl => rfl
  | symm _ ih => exact ih.symm
  | trans _ _ ih ih' => exact ih.trans ih'
  | @again before _ _ seen =>
    cases before with
    | nil => exact absurd seen List.not_mem_nil
    | cons => rfl

theorem eraseDups_eq [BEq α] [LawfulBEq α] (h : SeenAlike l m) : l.eraseDups = m.eraseDups := by
  induction h with
  | refl => rfl
  | symm _ ih => exact ih.symm
  | trans _ _ ih ih' => exact ih.trans ih'
  | again after seen =>
    rw [List.eraseDups_append, List.eraseDups_append, List.cons_removeAll,
      List.contains_iff_mem.mpr seen]
    rfl

end SeenAlike

/-! ## Two lists at once -/

/-- What is seen of two kinds, say of fields and of fragments. -/
structure Sightings (α β : Type) where
  /-- What is seen of the first kind, in order. -/
  fields : List α
  /-- What is seen of the second kind, in order. -/
  entries : List β

namespace Sightings

/-- Nothing is seen. -/
def none : Sightings α β := ⟨[], []⟩

instance : Append (Sightings α β) where
  append y z := ⟨y.fields ++ z.fields, y.entries ++ z.entries⟩

theorem append_assoc (x y z : Sightings α β) : x ++ y ++ z = x ++ (y ++ z) :=
  congrArg₂ mk (List.append_assoc ..) (List.append_assoc ..)

theorem append_none (y : Sightings α β) : y ++ none = y :=
  congrArg₂ mk (List.append_nil _) (List.append_nil _)

/-- Two sightings differ only in what was seen before. -/
structure Alike (y z : Sightings α β) : Prop where
  /-- Of the first kind the same is seen. -/
  fields : SeenAlike y.fields z.fields
  /-- So it is of the second kind. -/
  entries : SeenAlike y.entries z.entries

/-- One sighting is part of another. -/
structure SeenIn (y z : Sightings α β) : Prop where
  /-- What is seen of the first kind is seen there. -/
  fields : y.fields ⊆ z.fields
  /-- So is what is seen of the second kind. -/
  entries : y.entries ⊆ z.entries

variable {x y z : Sightings α β}

namespace Alike

theorem refl (y : Sightings α β) : y.Alike y := ⟨.refl _, .refl _⟩

theorem symm (h : y.Alike z) : z.Alike y := ⟨h.fields.symm, h.entries.symm⟩

theorem trans (h : x.Alike y) (h' : y.Alike z) : x.Alike z :=
  ⟨h.fields.trans h'.fields, h.entries.trans h'.entries⟩

theorem append_right (x : Sightings α β) (h : y.Alike z) : (y ++ x).Alike (z ++ x) :=
  ⟨h.fields.append_right _, h.entries.append_right _⟩

theorem absorb (after : Sightings α β) (h : y.SeenIn x) : (x ++ (y ++ after)).Alike (x ++ after) :=
  ⟨.absorb _ h.fields, .absorb _ h.entries⟩

/-- What is seen in one stretch after the other. -/
theorem chain {inside later : Sightings α β} (h : (x ++ inside).Alike (x ++ y))
    (h' : (x ++ inside ++ later).Alike (x ++ inside ++ z)) :
    (x ++ (inside ++ later)).Alike (x ++ (y ++ z)) := by
  rw [← append_assoc, ← append_assoc]
  exact h'.trans (h.append_right z)

theorem seenIn_append (h : (x ++ y).Alike (x ++ z)) : z.SeenIn (x ++ y) where
  fields _ ha := h.fields.mem_iff.mpr (List.mem_append_right _ ha)
  entries _ ha := h.entries.mem_iff.mpr (List.mem_append_right _ ha)

end Alike

theorem SeenIn.append_right (x : Sightings α β) (h : y.SeenIn z) : y.SeenIn (z ++ x) where
  fields := List.Subset.trans h.fields (List.subset_append_left _ _)
  entries := List.Subset.trans h.entries (List.subset_append_left _ _)

end Sightings

/-! ## Lists related element by element -/

theorem exists_of_mem_forall₂ {R : α → β → Prop} {l : List α} {m : List β} (h : List.Forall₂ R l m)
    {a : α} (ha : a ∈ l) : ∃ b ∈ m, R a b := by
  induction h with
  | nil => exact absurd ha List.not_mem_nil
  | cons hab _ ih =>
    rcases List.mem_cons.mp ha with rfl | ha
    · exact ⟨_, List.mem_cons_self, hab⟩
    · obtain ⟨b, hb, hR⟩ := ih ha
      exact ⟨b, List.mem_cons_of_mem _ hb, hR⟩

/-- Lists related by an equation agree in its two sides. -/
theorem map_eq_of_forall₂ {γ : Type} {f : α → γ} {g : β → γ} {l : List α} {m : List β}
    (h : List.Forall₂ (fun a b ↦ f a = g b) l m) : l.map f = m.map g := by
  rwa [← List.forall₂_eq_eq_eq, List.forall₂_map_left_iff, List.forall₂_map_right_iff]

theorem exists_append_of_forall₂ {R : α → β → Prop} {l₁ l₂ : List α} {m : List β}
    (h : List.Forall₂ R (l₁ ++ l₂) m) :
    ∃ m₁ m₂, m = m₁ ++ m₂ ∧ List.Forall₂ R l₁ m₁ ∧ List.Forall₂ R l₂ m₂ := by
  induction l₁ generalizing m with
  | nil => exact ⟨[], m, rfl, .nil, h⟩
  | cons a l₁ ih =>
    cases h with
    | cons hab rest =>
      obtain ⟨m₁, m₂, rfl, h₁, h₂⟩ := ih rest
      exact ⟨_ :: m₁, m₂, rfl, .cons hab h₁, h₂⟩

/-- What is related to something that is there is there too. -/
theorem exists_of_rel {R : α → β → Prop} {x : Option α} {y : Option β} (h : Option.Rel R x y)
    {a : α} (ha : x = some a) :
    ∃ b, y = some b ∧ R a b := by
  subst ha
  cases h with
  | some hab => exact ⟨_, rfl, hab⟩

/-- What is found in lists that are related element by element is related, if the same is looked
for. -/
theorem rel_find? {R : α → β → Prop} {p : α → Bool} {q : β → Bool} (hpq : ∀ a b, R a b → p a = q b)
    {l : List α} {m : List β} (h : List.Forall₂ R l m) : Option.Rel R (l.find? p) (m.find? q) := by
  induction h with
  | nil => exact .none
  | @cons a b _ _ hab _ ih =>
    rw [List.find?_cons, List.find?_cons, hpq a b hab]
    cases q b with
    | true => exact .some hab
    | false => exact ih

/-- What a relation makes of lists that are seen alike is seen alike, if it makes one thing of each
element. -/
theorem SeenAlike.exists_forall₂ {R : α → β → Prop} (hR : ∀ {a b b'}, R a b → R a b' → b = b')
    {l l' : List α} (h : SeenAlike l l') {m : List β} (hm : List.Forall₂ R l m) :
    ∃ m', List.Forall₂ R l' m' ∧ SeenAlike m m' := by
  -- Both directions at once, for the sake of symmetry.
  suffices hboth : (∀ m, List.Forall₂ R l m → ∃ m', List.Forall₂ R l' m' ∧ SeenAlike m m') ∧
      ∀ m', List.Forall₂ R l' m' → ∃ m, List.Forall₂ R l m ∧ SeenAlike m' m from hboth.1 m hm
  clear hm
  induction h with
  | refl => exact ⟨fun m hm ↦ ⟨m, hm, .refl m⟩, fun m hm ↦ ⟨m, hm, .refl m⟩⟩
  | symm _ ih => exact ih.symm
  | trans _ _ ih ih' =>
    constructor
    · intro m hm
      obtain ⟨m₁, hm₁, h₁⟩ := ih.1 m hm
      obtain ⟨m₂, hm₂, h₂⟩ := ih'.1 m₁ hm₁
      exact ⟨m₂, hm₂, h₁.trans h₂⟩
    · intro m hm
      obtain ⟨m₁, hm₁, h₁⟩ := ih'.2 m hm
      obtain ⟨m₂, hm₂, h₂⟩ := ih.2 m₁ hm₁
      exact ⟨m₂, hm₂, h₁.trans h₂⟩
  | again after seen =>
    constructor
    · intro m hm
      obtain ⟨before', rest, rfl, hbefore, hrest⟩ := exists_append_of_forall₂ hm
      cases hrest with
      | cons hab hafter =>
        obtain ⟨b, hb, hab'⟩ := exists_of_mem_forall₂ hbefore seen
        cases hR hab hab'
        exact ⟨_, List.rel_append hbefore hafter, .again _ hb⟩
    · intro m hm
      obtain ⟨before', after', rfl, hbefore, hafter⟩ := exists_append_of_forall₂ hm
      obtain ⟨b, hb, hab⟩ := exists_of_mem_forall₂ hbefore seen
      exact ⟨_, List.rel_append hbefore (.cons hab hafter), .symm (.again _ hb)⟩

/-! ## Results -/

namespace Error

/-- The results of `mapM` are those of the elements. -/
theorem forall₂_of_mapM {f : α → Except Error β} {l : List α} {r : List β} (h : l.mapM f = .ok r) :
    List.Forall₂ (fun a b ↦ f a = .ok b) l r := by
  induction l generalizing r with
  | nil =>
    cases h
    exact .nil
  | cons a rest ih =>
    rw [List.mapM_cons] at h
    obtain ⟨b, hb, h⟩ := bind_eq_ok.mp h
    obtain ⟨bs, hbs, h⟩ := bind_eq_ok.mp h
    cases h
    exact .cons hb (ih hbs)

theorem mapM_of_forall₂ {f : α → Except Error β} {l : List α} {r : List β}
    (h : List.Forall₂ (fun a b ↦ f a = .ok b) l r) :
    l.mapM f = .ok r := by
  induction h with
  | nil => rfl
  | cons hab _ ih =>
    rw [List.mapM_cons]
    exact bind_eq_ok.mpr ⟨_, hab, bind_eq_ok.mpr ⟨_, ih, rfl⟩⟩

theorem exists_mapM {f : α → Except Error β} {l : List α} (h : ∀ a ∈ l, ∃ b, f a = .ok b) :
    ∃ r, l.mapM f = .ok r := by
  induction l with
  | nil => exact ⟨[], rfl⟩
  | cons a rest ih =>
    obtain ⟨⟨b, hb⟩, hrest⟩ := List.forall_mem_cons.mp h
    obtain ⟨bs, hbs⟩ := ih hrest
    refine ⟨b :: bs, ?_⟩
    rw [List.mapM_cons]
    exact bind_eq_ok.mpr ⟨b, hb, bind_eq_ok.mpr ⟨bs, hbs, rfl⟩⟩

/-- If elements that correspond have results that correspond, and one run succeeds, so does the
other. -/
theorem exists_mapM_of_forall₂ {α' β' : Type} {f : α → Except Error β} {g : α' → Except Error β'}
    {P : β → Prop} {R : β → β' → Prop} {l : List α} {l' : List α'} {r : List β}
    (h : l.mapM f = .ok r) (hP : ∀ b ∈ r, P b)
    (hl : List.Forall₂ (fun a a' ↦ ∀ b, P b → f a = .ok b → ∃ b', g a' = .ok b' ∧ R b b') l l') :
    ∃ r', l'.mapM g = .ok r' ∧ List.Forall₂ R r r' := by
  induction hl generalizing r with
  | nil =>
    cases h
    exact ⟨[], rfl, .nil⟩
  | cons hab _ ih =>
    rw [List.mapM_cons] at h
    obtain ⟨b, hb, h⟩ := bind_eq_ok.mp h
    obtain ⟨bs, hbs, h⟩ := bind_eq_ok.mp h
    cases h
    obtain ⟨hPb, hPbs⟩ := List.forall_mem_cons.mp hP
    obtain ⟨b', hb', hR⟩ := hab b hPb hb
    obtain ⟨bs', hbs', hRs⟩ := ih hbs hPbs
    refine ⟨b' :: bs', ?_, .cons hR hRs⟩
    rw [List.mapM_cons]
    exact bind_eq_ok.mpr ⟨b', hb', bind_eq_ok.mpr ⟨bs', hbs', rfl⟩⟩

end Error
end ResponseModels
