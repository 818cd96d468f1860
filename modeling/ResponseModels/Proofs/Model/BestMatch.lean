import ResponseModels.Proofs.Model.Group

/-!
# The best matches in a group

A model takes over models of other groups that stand for all its object types. Of those that do, the
ones are chosen that are implied by no other: first those with the fewest possible types, and of
these those of the narrowest shapes. Both times the choice is one of extreme sets, and nothing is
lost in it: a set has an extreme one at its side towards the end in question
(`Extreme.reducesTo_extremes`).

The two choices are made one after the other, so a shape is compared with the shapes of models that
have got through the first one only. `ModelGroup.BestMatch` says which models are left, by inclusion
alone, and a group yields these, in its own order (`ModelGroup.mostSpecific_eq_filter`). It yields
one if any of its interface models matches at all (`mostSpecific_yields_best_matches`).
-/

set_option autoImplicit false

namespace ResponseModels

/-! ## Extreme sets -/

/-- Behind the head of a list positions are shifted by one, as long as nothing there equals the
head. -/
private theorem pairwise_idxOf_cons {α : Type} [BEq α] [LawfulBEq α] {a : α} {rest m : List α}
    (hne : ∀ b ∈ m, b ≠ a) (h : m.Pairwise fun b c ↦ rest.idxOf b < rest.idxOf c) :
    m.Pairwise fun b c ↦ (a :: rest).idxOf b < (a :: rest).idxOf c := by
  refine h.imp_of_mem fun hb hc hlt ↦ ?_
  rw [List.idxOf_cons_ne _ (hne _ hb).symm, List.idxOf_cons_ne _ (hne _ hc).symm]
  omega

/-- The elements of a list that pass a test come in the order in which they are first met. -/
theorem pairwise_eraseDups_filter {α : Type} [BEq α] [LawfulBEq α] (p : α → Bool) (l : List α) :
    (l.filter p).eraseDups.Pairwise fun a b ↦ l.idxOf a < l.idxOf b := by
  -- The test varies: behind a head that passes, only what differs from it is looked at.
  induction l generalizing p with
  | nil => exact .nil
  | cons a rest ih =>
    by_cases ha : p a = true
    · rw [List.filter_cons_of_pos ha, List.eraseDups_cons, List.filter_filter, List.pairwise_cons]
      have hne : ∀ b ∈ (rest.filter fun b ↦ (!b == a) && p b).eraseDups, b ≠ a := by
        intro b hb
        simp_all
      refine ⟨fun b hb ↦ ?_, pairwise_idxOf_cons hne (ih _)⟩
      rw [List.idxOf_cons_self, List.idxOf_cons_ne _ (hne b hb).symm]
      omega
    · rw [List.filter_cons_of_neg ha]
      refine pairwise_idxOf_cons (fun b hb ↦ ?_) (ih p)
      rintro rfl
      simp_all

namespace Extreme

variable {e : Extreme} {sets : List NameSet} {s t : NameSet}

/-- A set lies at least as far towards an end as another. -/
def Towards (e : Extreme) (t s : NameSet) : Prop :=
  match e with
  | .smallest => t ⊆ s
  | .largest => s ⊆ t

theorem beyond_iff : e.beyond t s = true ↔ e.Towards t s ∧ t ≠ s := by
  cases e with
  | smallest => rw [beyond, decide_eq_true_iff, NameSet.ssubset_iff_subset_ne, Towards]
  | largest => rw [beyond, decide_eq_true_iff, NameSet.ssubset_iff_subset_ne, Towards, ne_comm]

theorem Towards.refl (e : Extreme) (s : NameSet) : e.Towards s s := by
  cases e <;> exact fun _ hn ↦ hn

/-- Of the sets of a list the extreme ones are chosen. -/
structure ReducesTo (e : Extreme) (sets chosen : List NameSet) : Prop where
  /-- Each is chosen once. -/
  nodup : chosen.Nodup
  /-- They come in the order in which they are first met in the list. -/
  ordered : chosen.Pairwise fun s t ↦ sets.idxOf s < sets.idxOf t
  /-- A set is chosen if no other set of the list is further on its side. -/
  mem_iff : ∀ s, s ∈ chosen ↔ s ∈ sets ∧ ∀ t ∈ sets, e.Towards t s → t = s
  /-- No set is lost: there is an extreme one on its side. -/
  exists_mem : ∀ s ∈ sets, ∃ t ∈ chosen, e.Towards t s

theorem reducesTo_extremes (e : Extreme) (sets : List NameSet) :
    e.ReducesTo sets (extremes e sets) where
  nodup := nodup_eraseDups _
  ordered := pairwise_eraseDups_filter _ sets
  mem_iff s := by
    simp only [mem_extremes, Bool.eq_false_iff, ne_eq, beyond_iff, not_and, not_not]
  exists_mem s hs := by
    obtain ⟨t, ht, rfl | hbeyond⟩ := exists_mem_extremes e hs
    · exact ⟨t, ht, .refl e t⟩
    · exact ⟨t, ht, (beyond_iff.mp hbeyond).1⟩

end Extreme

/-- What is left of a list when something about its elements has to be extreme. -/
theorem mem_filter_extremes {e : Extreme} {key : Model → NameSet} {l : List Model} {m : Model} :
    m ∈ l.filter (fun m ↦ key m ∈ extremes e (l.map key)) ↔
      m ∈ l ∧ ∀ n ∈ l, e.Towards (key n) (key m) → key n = key m := by
  rw [List.mem_filter, decide_eq_true_iff, (Extreme.reducesTo_extremes e _).mem_iff,
    List.forall_mem_map]
  exact and_congr_right fun hm ↦ and_iff_right (List.mem_map_of_mem hm)

/-! ## Matches -/

namespace ModelGroup

variable {g : ModelGroup} {types : NameSet} {m : Model}

/-- An interface model of a group stands for all of some object types. -/
structure Matches (g : ModelGroup) (types : NameSet) (m : Model) : Prop where
  /-- It is a model of the group. -/
  mem : m ∈ g.models
  /-- It is an interface. -/
  isInterface : m.isInterface = true
  /-- It has all the object types. -/
  covers : types ⊆ m.possibleTypes

/-- A model matches, and none that matches has only some of its possible types. -/
structure Closest (g : ModelGroup) (types : NameSet) (m : Model) :
    Prop extends g.Matches types m where
  /-- No model that matches has fewer possible types. -/
  smallest : ∀ n, g.Matches types n → n.possibleTypes ⊆ m.possibleTypes →
    n.possibleTypes = m.possibleTypes

/-- A model is among the closest, and none of them has a strictly narrower shape. -/
structure BestMatch (g : ModelGroup) (types : NameSet) (m : Model) :
    Prop extends g.Closest types m where
  /-- None of the closest has a narrower shape. -/
  narrowest : ∀ n, g.Closest types n → m.typeSet ⊆ n.typeSet → n.typeSet = m.typeSet

/-- The models of a group that match, in its order. -/
def candidates (g : ModelGroup) (types : NameSet) : List Model :=
  g.models.filter fun m ↦ m.isInterface && types ⊆ m.possibleTypes

/-- Those of them with the fewest possible types. -/
def closest (g : ModelGroup) (types : NameSet) : List Model :=
  (g.candidates types).filter fun m ↦
    m.possibleTypes ∈ extremes .smallest ((g.candidates types).map Model.possibleTypes)

theorem mostSpecific_eq (g : ModelGroup) (types : NameSet) :
    g.mostSpecific types =
      (g.closest types).filter fun m ↦
        m.typeSet ∈ extremes .largest ((g.closest types).map Model.typeSet) :=
  rfl

theorem mem_candidates : m ∈ g.candidates types ↔ g.Matches types m := by
  rw [candidates, List.mem_filter, Bool.and_eq_true, decide_eq_true_iff]
  exact ⟨fun ⟨hm, hinterface, hcovers⟩ ↦ ⟨hm, hinterface, hcovers⟩, fun h ↦
    ⟨h.mem, h.isInterface, h.covers⟩⟩

theorem mem_closest : m ∈ g.closest types ↔ g.Closest types m := by
  rw [closest, mem_filter_extremes]
  simp only [mem_candidates]
  exact ⟨fun ⟨hm, hsmallest⟩ ↦ ⟨hm, hsmallest⟩, fun h ↦ ⟨h.toMatches, h.smallest⟩⟩

theorem mem_mostSpecific : m ∈ g.mostSpecific types ↔ g.BestMatch types m := by
  rw [mostSpecific_eq, mem_filter_extremes]
  simp only [mem_closest]
  exact ⟨fun ⟨hm, hnarrowest⟩ ↦ ⟨hm, hnarrowest⟩, fun h ↦ ⟨h.toClosest, h.narrowest⟩⟩

/-- **A group yields its best matches**, in its own order. -/
theorem mostSpecific_eq_filter (g : ModelGroup) (types : NameSet)
    [DecidablePred (g.BestMatch types)] :
    g.mostSpecific types = g.models.filter (g.BestMatch types) := by
  obtain ⟨p, hp⟩ : ∃ p, g.mostSpecific types = g.models.filter p :=
    ⟨_, by rw [mostSpecific_eq, closest, candidates, List.filter_filter, List.filter_filter]⟩
  rw [hp]
  refine List.filter_congr fun m hm ↦ ?_
  rw [Bool.eq_iff_iff, decide_eq_true_iff, ← mem_mostSpecific, hp, List.mem_filter,
    and_iff_right hm]

end ModelGroup

open Classical in
/-- **The best matches are exact, and none is lost.** Of any sets the extreme ones are chosen, each
once and in the order of the list: those that include no other, or that are included in no other.
Every set of the list includes a chosen one, or is included in one. So a group yields those of its
interface models that stand for some object types, have the fewest possible types of all that do,
and have the narrowest shapes of those that are left. It yields at least one if there is any that
stands for the object types. -/
theorem mostSpecific_yields_best_matches :
    (∀ (e : Extreme) (sets : List NameSet), e.ReducesTo sets (extremes e sets)) ∧
      ∀ (g : ModelGroup) (types : NameSet), g.mostSpecific types =
        g.models.filter (g.BestMatch types) ∧
        ((∃ m, g.Matches types m) → ∃ m, m ∈ g.mostSpecific types) := by
  refine ⟨Extreme.reducesTo_extremes, fun g types ↦ ⟨g.mostSpecific_eq_filter types, ?_⟩⟩
  rintro ⟨m, hm⟩
  exact ModelGroup.exists_mem_mostSpecific hm.mem hm.isInterface hm.covers

namespace Sample

/-- An interface model of a fragment, without properties. -/
def interfaceModel (name : String) (typeSet possibleTypes : List Name) : Model where
  id := ⟨.fragmentInterface "Kept", [name]⟩
  name := name
  typeSet := .ofList typeSet
  possibleTypes := .ofList possibleTypes
  properties := []
  accessors := []
  implements := []
  isInterface := true
  isBase := typeSet.length = 1
  isFallback := false

/-- Models of animals. Hunters and guards are the same animals, but guards are asked for more. -/
def shelter : ModelGroup where
  baseId := ⟨.fragmentInterface "Kept", ["Animal"]⟩
  models := [interfaceModel "Animal" ["Animal"] ["Cat", "Dog", "Fox"],
    interfaceModel "Pet" ["Animal", "Pet"] ["Cat", "Dog"],
    interfaceModel "Hunter" ["Animal", "Hunter"] ["Dog", "Fox"],
    interfaceModel "Guard" ["Animal", "Guard", "Hunter"] ["Dog", "Fox"]]

end Sample

open Sample Classical in
/-- Of the interfaces for dogs, that of animals has too many possible types, and that of hunters too
wide a shape. -/
theorem mostSpecific_yields_best_matches_shelter :
    (∃ t ∈ extremes .smallest (shelter.models.map Model.possibleTypes),
      t ⊆ .ofList ["Cat", "Dog", "Fox"]) ∧
      (∃ m, shelter.Matches {"Dog"} m) ∧
      (∃ m ∈ shelter.mostSpecific {"Dog"}, shelter.BestMatch {"Dog"} m) ∧
      (shelter.mostSpecific {"Dog"}).map Model.name = ["Pet", "Guard"] := by
  obtain ⟨hextremes, hgroups⟩ := mostSpecific_yields_best_matches
  obtain ⟨heq, hsome⟩ := hgroups shelter {"Dog"}
  have hmatch : ∃ m, shelter.Matches {"Dog"} m :=
    ⟨interfaceModel "Animal" ["Animal"] ["Cat", "Dog", "Fox"], List.mem_cons_self, rfl, by decide⟩
  obtain ⟨m, hm⟩ := hsome hmatch
  have hfiltered : m ∈ shelter.models.filter (shelter.BestMatch {"Dog"}) := heq ▸ hm
  have hbest : shelter.BestMatch {"Dog"} m := of_decide_eq_true (List.mem_filter.mp hfiltered).2
  exact ⟨(hextremes .smallest _).exists_mem _ (by decide), hmatch, ⟨m, hm, hbest⟩, by decide⟩

end ResponseModels
