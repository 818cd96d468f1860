import ResponseModels.Collect.Declaration

/-!
# Why collecting ends

Selections can lead from fragment to fragment, and nothing keeps the fragments of a document from
leading back to one another. What keeps the traversal finite is that it never expands a fragment
that it is already expanding: every selection comes with the path of the fragments being expanded,
and the path only grows.

`Document.weight` measures what can still come of selections at the end of a path. It counts the
fragments of the document that are not on the path, each at more than any fragment's selections
amount to, and adds the selections themselves. So it goes down

* from a list of selections to its tail and into a field or an inline fragment, where the path is
  the same;
* into a fragment that is not on the path yet (`weight_expand_lt`), whatever the fragment holds.

`Document.rank` is the greatest weight in a list of children, each with a path of its own.
-/

set_option autoImplicit false

namespace ResponseModels
namespace Document

/-- How many fragments of a document are not on a path. -/
def room (d : Document) (path : List Name) : Nat :=
  d.fragments.countP fun f ↦ f.name ∉ path

/-- A bound on the size of the selections of every fragment. -/
def bulk (d : Document) : Nat :=
  d.fragments.foldr (fun f total ↦ Selection.sizeAll f.selections + total) 0

/-- How much there is to survey: every fragment not on the path might still have to be expanded, and
then there are the selections themselves. -/
def weight (d : Document) (path : List Name) (selections : List Selection) : Nat :=
  d.room path * (d.bulk + 1) + Selection.sizeAll selections

theorem sizeAll_le_bulk {d : Document} {f : Fragment} (h : f ∈ d.fragments) :
    Selection.sizeAll f.selections ≤ d.bulk := by
  rw [bulk]
  generalize d.fragments = fragments at h
  induction fragments with
  | nil => exact absurd h List.not_mem_nil
  | cons g rest ih =>
    rw [List.foldr_cons]
    rcases List.mem_cons.mp h with rfl | h
    · exact Nat.le_add_right _ _
    · exact Nat.le_trans (ih h) (Nat.le_add_left _ _)

private theorem countP_lt_countP {α : Type} {p q : α → Bool} {l : List α} {a : α} (ha : a ∈ l)
    (hp : p a = false) (hq : q a = true) (h : ∀ b ∈ l, p b = true → q b = true) :
    l.countP p < l.countP q := by
  induction l with
  | nil => exact absurd ha List.not_mem_nil
  | cons b rest ih =>
    have hle : rest.countP p ≤ rest.countP q :=
      List.countP_mono_left fun c hc ↦ h c (List.mem_cons_of_mem b hc)
    have hb := h b (by simp)
    rw [List.countP_cons, List.countP_cons]
    rcases List.mem_cons.mp ha with rfl | ha
    · rw [hp, hq]
      simp only [Bool.false_eq_true, if_false, if_true]
      omega
    · have hlt := ih ha fun c hc ↦ h c (List.mem_cons_of_mem b hc)
      cases hpb : p b with
      | true =>
        rw [hb hpb]
        exact Nat.add_lt_add_right hlt _
      | false =>
        rw [if_neg Bool.false_ne_true]
        exact Nat.lt_of_lt_of_le hlt (Nat.le_add_right _ _)

theorem room_lt {d : Document} {path : List Name} {f : Fragment} (hf : f ∈ d.fragments)
    (hp : f.name ∉ path) : d.room (path ++ [f.name]) < d.room path := by
  refine countP_lt_countP hf (by simp) (by simpa using hp) fun g _ hg ↦ ?_
  simp only [List.mem_append, not_or, decide_eq_true_eq] at hg ⊢
  exact hg.1

/-- Expanding a fragment leaves less to survey, whatever else there is. -/
theorem weight_expand_lt {d : Document} {path : List Name} {f : Fragment}
    (hf : f ∈ d.fragments) (hp : f.name ∉ path) (selections : List Selection) :
    d.weight (path ++ [f.name]) f.selections < d.weight path selections := by
  have hroom := d.room_lt hf hp
  have hbulk := d.sizeAll_le_bulk hf
  have hmul : (d.room (path ++ [f.name]) + 1) * (d.bulk + 1) ≤ d.room path * (d.bulk + 1) :=
    Nat.mul_le_mul_right _ hroom
  rw [Nat.succ_mul] at hmul
  unfold weight
  omega

theorem weight_tail_lt {d : Document} {path : List Name} {s : Selection}
    {rest : List Selection} : d.weight path rest < d.weight path (s :: rest) := by
  have hs := s.size_pos
  unfold weight
  rw [Selection.sizeAll]
  omega

theorem weight_inline_lt {d : Document} {path : List Name} {typeCondition : Option Name}
    {directives : List Directive} {selections rest : List Selection} :
    d.weight path selections <
      d.weight path (.inline typeCondition directives selections :: rest) := by
  unfold weight
  rw [Selection.sizeAll, Selection.size]
  omega

theorem weight_field_lt {d : Document} {path : List Name} {head : FieldHead}
    {selections rest : List Selection} :
    d.weight path selections < d.weight path (.field head selections :: rest) := by
  unfold weight
  rw [Selection.sizeAll, Selection.size]
  omega

theorem weight_singleton_le {d : Document} {path : List Name} {s : Selection}
    {selections : List Selection} (h : s ∈ selections) :
    d.weight path [s] ≤ d.weight path selections := by
  have hs := Selection.size_le_sizeAll h
  unfold weight
  rw [Selection.sizeAll, Selection.sizeAll]
  omega

/-! ## Children -/

/-- The most that one of several children, each with its own path, weighs. -/
def rank (d : Document) : List Child → Nat
  | [] => 0
  | c :: rest => max (d.weight c.path [c.selection]) (d.rank rest)

theorem weight_le_rank (d : Document) {c : Child} {children : List Child} (h : c ∈ children) :
    d.weight c.path [c.selection] ≤ d.rank children := by
  induction children with
  | nil => exact absurd h List.not_mem_nil
  | cons k rest ih =>
    rw [rank]
    rcases List.mem_cons.mp h with rfl | h
    · exact Nat.le_max_left _ _
    · exact Nat.le_trans (ih h) (Nat.le_max_right _ _)

theorem rank_lt_of_forall (d : Document) {n : Nat} {children : List Child} (hn : 0 < n)
    (h : ∀ c ∈ children, d.weight c.path [c.selection] < n) : d.rank children < n := by
  induction children with
  | nil => exact hn
  | cons c rest ih =>
    rw [rank]
    exact Nat.max_lt.mpr ⟨h c List.mem_cons_self, ih fun k hk ↦ h k (List.mem_cons_of_mem c hk)⟩

end Document
end ResponseModels
