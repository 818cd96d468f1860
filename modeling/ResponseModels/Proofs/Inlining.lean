import Mathlib.Logic.Relation
import ResponseModels.Collect.Weight
import ResponseModels.Proofs.SeenAlike

/-!
# Inlining fragments

A spread says that the selections of a fragment are to be read as if they stood there, in an inline
fragment on the type of the named one. `Selection.Inlines` takes this literally: it relates a
selection to what it becomes if every spread in it is replaced so, to any depth.

* What selections become is determined (`Selection.InlinesAll.unique`), and no spread is left in it,
  so that inlining it once more changes nothing (`Selection.InlinesAll.again`).
* If every spread names a fragment and no fragment spreads itself, selections can be inlined
  (`Document.exists_inlinesAll`).
* Conversely, what can be inlined does not lead into a fragment twice: inlined, a fragment would be
  larger than itself. `Selection.Fits` says of a selection with the path of the fragments around it
  that this is out of the question, and keeps saying so further down.
-/

set_option autoImplicit false

namespace ResponseModels

/-! ## Spreads -/

mutual

/-- The fragments that are spread in a selection, at any depth. -/
def Selection.spreads : Selection → List Name
  | .field _ selections => Selection.spreadsAll selections
  | .inline _ _ selections => Selection.spreadsAll selections
  | .spread name _ => [name]

/-- The fragments that are spread in selections, at any depth. -/
def Selection.spreadsAll : List Selection → List Name
  | [] => []
  | s :: rest => s.spreads ++ Selection.spreadsAll rest

end

namespace Document

/-- Every spread of a document, at any depth of its operations and fragments, names a fragment of
the document. -/
def SpreadsExist (d : Document) : Prop :=
  (∀ o ∈ d.operations, ∀ n ∈ Selection.spreadsAll o.selections, (d.fragment? n).isSome = true) ∧
    ∀ f ∈ d.fragments, ∀ n ∈ Selection.spreadsAll f.selections, (d.fragment? n).isSome = true

/-- One fragment of a document is spread in another, at any depth. -/
def Spreads (d : Document) (name other : Name) : Prop :=
  ∃ f, d.fragment? name = some f ∧ other ∈ Selection.spreadsAll f.selections

/-- No fragment of a document spreads itself, directly or through others. -/
def Acyclic (d : Document) : Prop := ∀ name, ¬ Relation.TransGen d.Spreads name name

/-- No fragment spreads itself if fragments spread only those of a lower rank. -/
theorem acyclic_of_rank {d : Document} (rank : Name → Nat)
    (h : ∀ f ∈ d.fragments, ∀ n ∈ Selection.spreadsAll f.selections, rank n < rank f.name) :
    d.Acyclic := by
  intro name hname
  have hlt : ∀ {a b}, Relation.TransGen d.Spreads a b → rank b < rank a := by
    intro a b hab
    induction hab with
    | single hstep =>
      obtain ⟨f, hf, hn⟩ := hstep
      exact name_of_fragment? hf ▸ h f (mem_of_fragment? hf) _ hn
    | tail _ hstep ih =>
      obtain ⟨f, hf, hn⟩ := hstep
      exact Nat.lt_trans (name_of_fragment? hf ▸ h f (mem_of_fragment? hf) _ hn) ih
  exact Nat.lt_irrefl _ (hlt hname)

end Document

/-! ## Inlining -/

namespace Selection

/-- What a selection becomes if each spread is replaced by an inline fragment with the selections of
the fragment, and these are treated in the same way. -/
inductive Inlines (d : Document) : Selection → Selection → Prop
  | field (head : FieldHead) {l l' : List Selection} (each : List.Forall₂ (Inlines d) l l') :
      Inlines d (.field head l) (.field head l')
  | inline (typeCondition : Option Name) (directives : List Directive) {l l' : List Selection}
      (each : List.Forall₂ (Inlines d) l l') :
      Inlines d (.inline typeCondition directives l) (.inline typeCondition directives l')
  | spread {name : Name} (directives : List Directive) {f : Fragment} {l' : List Selection}
      (found : d.fragment? name = some f) (each : List.Forall₂ (Inlines d) f.selections l') :
      Inlines d (.spread name directives) (.inline (some f.typeCondition) directives l')

/-- What selections become if all spreads are inlined. -/
def InlinesAll (d : Document) (l l' : List Selection) : Prop := List.Forall₂ (Inlines d) l l'

variable {d : Document}

mutual

theorem Inlines.unique : ∀ {s a b : Selection}, Inlines d s a → Inlines d s b → a = b
  | _, _, _, .field head each, .field _ each' => congrArg _ (InlinesAll.unique each each')
  | _, _, _, .inline typeCondition directives each, .inline _ _ each' =>
    congrArg _ (InlinesAll.unique each each')
  | _, _, _, .spread directives found each, .spread _ found' each' => by
    cases found.symm.trans found'
    exact congrArg _ (InlinesAll.unique each each')

/-- **What selections become is determined.** -/
theorem InlinesAll.unique : ∀ {l a b : List Selection},
    List.Forall₂ (Inlines d) l a → List.Forall₂ (Inlines d) l b → a = b
  | _, _, _, .nil, .nil => rfl
  | _, _, _, .cons h rest, .cons h' rest' => by rw [h.unique h', InlinesAll.unique rest rest']

end

mutual

theorem Inlines.again : ∀ {s s' : Selection}, Inlines d s s' → Inlines d s' s'
  | _, _, .field head each => .field head (InlinesAll.again each)
  | _, _, .inline typeCondition directives each =>
    .inline typeCondition directives (InlinesAll.again each)
  | _, _, .spread directives _ each => .inline _ directives (InlinesAll.again each)

/-- There is nothing left to inline. -/
theorem InlinesAll.again : ∀ {l l' : List Selection},
    List.Forall₂ (Inlines d) l l' → List.Forall₂ (Inlines d) l' l'
  | _, _, .nil => .nil
  | _, _, .cons h rest => .cons h.again (InlinesAll.again rest)

end

mutual

theorem Inlines.spreads_eq_nil : ∀ {s s' : Selection}, Inlines d s s' → s'.spreads = []
  | _, _, .field _ each => InlinesAll.spreadsAll_eq_nil each
  | _, _, .inline _ _ each => InlinesAll.spreadsAll_eq_nil each
  | _, _, .spread _ _ each => InlinesAll.spreadsAll_eq_nil each

/-- No spread is left. -/
theorem InlinesAll.spreadsAll_eq_nil : ∀ {l l' : List Selection},
    List.Forall₂ (Inlines d) l l' → Selection.spreadsAll l' = []
  | _, _, .nil => rfl
  | _, _, .cons h rest => by
    rw [Selection.spreadsAll, h.spreads_eq_nil, InlinesAll.spreadsAll_eq_nil rest, List.append_nil]

end

end Selection

/-- **Selections can be inlined** if every spread names a fragment and no fragment spreads
itself. -/
theorem Document.exists_inlinesAll {d : Document} (hexist : d.SpreadsExist) (hacyclic : d.Acyclic)
    {path : List Name} {selections : List Selection}
    (hn : ∀ n ∈ Selection.spreadsAll selections, (d.fragment? n).isSome = true)
    -- Whatever is spread is ahead of the fragments on the path, and so is not one of them.
    (hpath : ∀ p ∈ path, ∀ n ∈ Selection.spreadsAll selections, Relation.TransGen d.Spreads p n) :
    ∃ l', Selection.InlinesAll d selections l' := by
  induction hw : d.weight path selections using Nat.strongRecOn generalizing path selections with
  | ind w ih =>
    subst hw
    cases selections with
    | nil => exact ⟨[], .nil⟩
    | cons s rest =>
      rw [Selection.spreadsAll] at hn hpath
      obtain ⟨hs, hrest⟩ := List.forall_mem_append.mp hn
      have hpathFirst : ∀ p ∈ path, ∀ n ∈ s.spreads, Relation.TransGen d.Spreads p n :=
        fun p hp n hn ↦ hpath p hp n (List.mem_append_left _ hn)
      obtain ⟨rest', hrest'⟩ := ih _ d.weight_tail_lt hrest
        (fun p hp n hn ↦ hpath p hp n (List.mem_append_right _ hn)) rfl
      cases s with
      | field head l =>
        obtain ⟨l', hl'⟩ := ih _ d.weight_field_lt hs hpathFirst rfl
        exact ⟨_, .cons (.field head hl') hrest'⟩
      | inline typeCondition directives l =>
        obtain ⟨l', hl'⟩ := ih _ d.weight_inline_lt hs hpathFirst rfl
        exact ⟨_, .cons (.inline typeCondition directives hl') hrest'⟩
      | spread name directives =>
        obtain ⟨f, hf⟩ := Option.isSome_iff_exists.mp (hs name (List.mem_singleton_self name))
        have hname := Document.name_of_fragment? hf
        have hmem := Document.mem_of_fragment? hf
        have hfresh : f.name ∉ path := fun hp ↦
          hacyclic name (hpathFirst name (hname ▸ hp) name (List.mem_singleton_self name))
        have hahead : ∀ p ∈ path ++ [f.name], ∀ n ∈ Selection.spreadsAll f.selections,
            Relation.TransGen d.Spreads p n := by
          intro p hp n hn
          have hstep : d.Spreads name n := ⟨f, hf, hn⟩
          rcases List.mem_append.mp hp with hp | hp
          · exact (hpathFirst p hp name (List.mem_singleton_self name)).tail hstep
          · rw [List.mem_singleton.mp hp, hname]
            exact .single hstep
        obtain ⟨l', hl'⟩ := ih _ (d.weight_expand_lt hmem hfresh _) (hexist.2 f hmem) hahead rfl
        exact ⟨_, .cons (.spread directives hf hl') hrest'⟩

/-! ## Paths -/

namespace Selection

/-- A selection can be inlined, and comes out no larger than any of the fragments on a path. -/
def Fits (d : Document) (path : List Name) (s : Selection) : Prop :=
  ∃ s', Inlines d s s' ∧ ∀ name ∈ path, ∀ f l', d.fragment? name = some f →
    InlinesAll d f.selections l' → s'.size ≤ sizeAll l'

theorem fits_nil {d : Document} {s s' : Selection} (h : Inlines d s s') : Fits d [] s :=
  ⟨s', h, fun _ hname ↦ absurd hname List.not_mem_nil⟩

namespace Fits

variable {d : Document} {path : List Name}

private theorem of_mem {l l' : List Selection} (each : InlinesAll d l l')
    (hle : ∀ name ∈ path, ∀ f l'', d.fragment? name = some f → InlinesAll d f.selections l'' →
      sizeAll l' ≤ sizeAll l'') {x : Selection} (hx : x ∈ l) : Fits d path x := by
  obtain ⟨x', hx', hinlines⟩ := exists_of_mem_forall₂ each hx
  exact ⟨x', hinlines, fun name hname f l'' hf hl'' ↦
    Nat.le_trans (size_le_sizeAll hx') (hle name hname f l'' hf hl'')⟩

theorem field {head : FieldHead} {l : List Selection} (h : Fits d path (.field head l))
    {x : Selection} (hx : x ∈ l) :
    Fits d path x := by
  obtain ⟨_, hinlines, hle⟩ := h
  cases hinlines with
  | field _ each =>
    exact of_mem each (fun name hname f l'' hf hl'' ↦
      Nat.le_of_succ_le (hle name hname f l'' hf hl'')) hx

theorem inline {typeCondition : Option Name} {directives : List Directive} {l : List Selection}
    (h : Fits d path (.inline typeCondition directives l)) {x : Selection} (hx : x ∈ l) :
    Fits d path x := by
  obtain ⟨_, hinlines, hle⟩ := h
  cases hinlines with
  | inline _ _ each =>
    exact of_mem each (fun name hname f l'' hf hl'' ↦
      Nat.le_of_succ_le (hle name hname f l'' hf hl'')) hx

section

variable {name : Name} {directives : List Directive} (h : Fits d path (.spread name directives))
include h

/-- **A fragment that is spread is not on the path**: inlined, it would be part of itself. -/
theorem fresh : name ∉ path := by
  obtain ⟨_, hinlines, hle⟩ := h
  cases hinlines with
  | spread _ found each =>
    exact fun hname ↦ absurd (hle name hname _ _ found each) (Nat.not_succ_le_self _)

/-- The selections of a fragment that is spread fit, now that it is on the path. -/
theorem into {f : Fragment} (hf : d.fragment? name = some f) {x : Selection}
    (hx : x ∈ f.selections) :
    Fits d (path ++ [name]) x := by
  obtain ⟨_, hinlines, hle⟩ := h
  cases hinlines with
  | spread _ found each =>
    cases found.symm.trans hf
    refine of_mem each (fun other hother g l'' hg hl'' ↦ ?_) hx
    rcases List.mem_append.mp hother with hother | hother
    · exact Nat.le_of_succ_le (hle other hother g l'' hg hl'')
    · cases List.mem_singleton.mp hother
      cases hf.symm.trans hg
      exact Nat.le_of_eq (congrArg sizeAll (InlinesAll.unique each hl''))

end

end Fits
end Selection
end ResponseModels
