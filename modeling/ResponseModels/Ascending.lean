/-!
# Ascending lists

A finite set over an ordered type is kept as the list of its elements in strictly ascending order.
Two ascending lists with the same elements are equal (`Ascending.ext`), so sets built this way can
be compared, printed and reasoned about as plain lists, whatever order their elements arrived in.

What is here:

* `Ascending.insert` and `Ascending.ofList`, which build ascending lists;
* the two facts that make them sets: membership is what it should be (`mem_insert`, `mem_ofList`)
  and the result ascends (`isAscending_insert`, `isAscending_ofList`).

The laws ask for a lawful order (`Std.TransOrd`, `Std.LawfulEqOrd`); the operations ask only for
`Ord`, so that a type can use them before its order is known to be lawful.
-/

set_option autoImplicit false

namespace ResponseModels
namespace Ascending

variable {α : Type} [Ord α]

/-- Every element is strictly below all that follow it. -/
def IsAscending (l : List α) : Prop :=
  l.Pairwise fun a b ↦ compare a b = .lt

/-- Puts an element in its place in an ascending list. An element that is there already is not
repeated. -/
def insert (a : α) : List α → List α
  | [] => [a]
  | b :: rest =>
    match compare a b with
    | .lt => a :: b :: rest
    | .eq => b :: rest
    | .gt => b :: insert a rest

/-- The ascending list of the elements of a list. -/
def ofList : List α → List α
  | [] => []
  | a :: rest => insert a (ofList rest)

@[simp] theorem isAscending_nil : IsAscending ([] : List α) := List.Pairwise.nil

theorem isAscending_cons {a : α} {l : List α} :
    IsAscending (a :: l) ↔ (∀ b ∈ l, compare a b = .lt) ∧ IsAscending l :=
  List.pairwise_cons

/-! ## Membership -/

@[simp] theorem mem_insert [Std.LawfulEqOrd α] {a x : α} {l : List α} :
    x ∈ insert a l ↔ x = a ∨ x ∈ l := by
  induction l with
  | nil => simp [insert]
  | cons b rest ih =>
    rw [insert]
    split
    · simp
    · rename_i h
      obtain rfl := Std.LawfulEqOrd.eq_of_compare h
      simp
    · simp only [List.mem_cons, ih]
      exact or_left_comm

@[simp] theorem mem_ofList [Std.LawfulEqOrd α] {x : α} {l : List α} : x ∈ ofList l ↔ x ∈ l := by
  induction l with
  | nil => simp [ofList]
  | cons a rest ih => simp [ofList, ih]

/-! ## Order -/

theorem isAscending_insert [Std.TransOrd α] [Std.LawfulEqOrd α] (a : α) {l : List α}
    (h : IsAscending l) : IsAscending (insert a l) := by
  induction l with
  | nil => simp [insert, isAscending_cons]
  | cons b rest ih =>
    obtain ⟨hb, hrest⟩ := isAscending_cons.mp h
    rw [insert]
    split
    · rename_i hlt
      refine isAscending_cons.mpr ⟨fun x hx ↦ ?_, h⟩
      rcases List.mem_cons.mp hx with rfl | hx
      · exact hlt
      · exact Std.TransCmp.lt_trans hlt (hb x hx)
    · exact h
    · rename_i hgt
      refine isAscending_cons.mpr ⟨fun x hx ↦ ?_, ih hrest⟩
      rcases mem_insert.mp hx with rfl | hx
      · exact Std.OrientedCmp.lt_of_gt hgt
      · exact hb x hx

theorem isAscending_ofList [Std.TransOrd α] [Std.LawfulEqOrd α] (l : List α) :
    IsAscending (ofList l) := by
  induction l with
  | nil => exact isAscending_nil
  | cons a rest ih => exact isAscending_insert a ih

/-! ## Extensionality -/

private theorem not_mem_of_forall_lt [Std.LawfulEqOrd α] {a : α} {l : List α}
    (h : ∀ b ∈ l, compare a b = .lt) : a ∉ l := by
  intro ha
  have := h a ha
  simp at this

/-- **Ascending lists are sets.** Two of them with the same elements are the same list. -/
theorem ext [Std.TransOrd α] [Std.LawfulEqOrd α] {l m : List α} (hl : IsAscending l)
    (hm : IsAscending m) (h : ∀ x, x ∈ l ↔ x ∈ m) : l = m := by
  induction l generalizing m with
  | nil =>
    cases m with
    | nil => rfl
    | cons b m => exact absurd ((h b).mpr (by simp)) (by simp)
  | cons a l ih =>
    cases m with
    | nil => exact absurd ((h a).mp (by simp)) (by simp)
    | cons b m =>
      obtain ⟨ha, hl'⟩ := isAscending_cons.mp hl
      obtain ⟨hb, hm'⟩ := isAscending_cons.mp hm
      have hab : a = b := by
        rcases List.mem_cons.mp ((h a).mp (by simp)) with rfl | ham
        · rfl
        rcases List.mem_cons.mp ((h b).mpr (by simp)) with rfl | hbl
        · rfl
        have h1 := ha b hbl
        have h2 := hb a ham
        exact absurd h1 (by rw [Std.OrientedCmp.gt_of_lt h2]; simp)
      subst hab
      refine congrArg (a :: ·) (ih hl' hm' fun x ↦ ?_)
      have hx := h x
      simp only [List.mem_cons] at hx
      constructor
      · intro hxl
        rcases hx.mp (Or.inr hxl) with rfl | hxm
        · exact absurd hxl (not_mem_of_forall_lt ha)
        · exact hxm
      · intro hxm
        rcases hx.mpr (Or.inr hxm) with rfl | hxl
        · exact absurd hxm (not_mem_of_forall_lt hb)
        · exact hxl

/-- An ascending list of elements of another one can be had from it by leaving elements out. -/
theorem sublist_of_subset [Std.TransOrd α] [Std.LawfulEqOrd α] {l m : List α} (hl : IsAscending l)
    (hm : IsAscending m) (h : ∀ x ∈ l, x ∈ m) : l.Sublist m := by
  induction m generalizing l with
  | nil =>
    have hnil : l = [] := List.eq_nil_iff_forall_not_mem.mpr fun x hx ↦ List.not_mem_nil (h x hx)
    subst hnil
    exact List.nil_sublist _
  | cons b m ih =>
    obtain ⟨hb, hm'⟩ := isAscending_cons.mp hm
    cases l with
    | nil => exact List.nil_sublist _
    | cons a l =>
      obtain ⟨ha, hl'⟩ := isAscending_cons.mp hl
      rcases List.mem_cons.mp (h a List.mem_cons_self) with rfl | ham
      · refine (ih hl' hm' fun x hx ↦ ?_).cons_cons a
        rcases List.mem_cons.mp (h x (List.mem_cons_of_mem a hx)) with rfl | hxm
        · exact absurd hx (not_mem_of_forall_lt ha)
        · exact hxm
      · -- `b` lies below `a`, so it is none of the elements to be found.
        refine (ih hl hm' fun x hx ↦ ?_).cons b
        rcases List.mem_cons.mp (h x hx) with rfl | hxm
        · have hba := hb a ham
          rcases List.mem_cons.mp hx with rfl | hxl
          · exact ham
          · have hab := ha x hxl
            rw [Std.OrientedCmp.gt_of_lt hab] at hba
            cases hba
        · exact hxm

end Ascending

/-- Erasing duplicates leaves none. -/
theorem nodup_eraseDups {α : Type} [BEq α] [LawfulBEq α] (l : List α) : l.eraseDups.Nodup := by
  induction hn : l.length using Nat.strongRecOn generalizing l with
  | ind n ih =>
    cases l with
    | nil => exact List.nodup_nil
    | cons a rest =>
      rw [List.eraseDups_cons, List.nodup_cons]
      have hlt : (rest.filter fun b ↦ !b == a).length < n := by
        have hle := List.length_filter_le (fun b ↦ !b == a) rest
        rw [List.length_cons] at hn
        omega
      exact ⟨by simp, ih _ hlt _ rfl⟩

end ResponseModels
