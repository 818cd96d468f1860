import ResponseModels.Collect.Weight
import ResponseModels.Proofs.Condition.Directives

/-!
# Which fields execution collects

When a document is executed on an object of type `t`, the selections that apply to the object are
walked through in order: a selection that its directives leave out is skipped, an inline fragment or
a spread is entered if its type condition has `t` among its possible types, and an inline fragment
without a type condition is entered always. `collectFields` does this walk for given values of the
variables and returns the fields it comes across, each with the selections beneath it. Nothing here
knows of shapes, scopes or conditions; it is what the collected fields of an operation are measured
against.

What is here:

* `collect`, the walk, with the test of the directives left open, and `collectFields`, the walk of
  execution;
* `subSelections`, what is executed beneath a response name: the selections of all the fields that
  were collected for it, one after the other;
* `executedAlong` and `MergedAlong`, what is executed beneath nested fields and what is put together
  there, also from fields that execution leaves out;
* `Leads`, which says that one gets from one selection to another through certain inline fragments
  and spreads, the *gates* on the way;
* `Way`, the same without regard to fragments that are entered again, so that ways can be put
  together;
* `Entered`, which says of a type condition that a fragment with it can be entered;
* `mem_collect`: a field is collected when one gets to it through gates that are all open.

Both the walk and `Leads` keep away from fragments that are being expanded already. A document in
which that makes a difference is not valid, and even there nothing is lost: what such a fragment
holds is found where it was entered first.
-/

set_option autoImplicit false

namespace ResponseModels

/-- Whether objects of type `t` satisfy a type condition. -/
def Schema.satisfies (s : Schema) (t typeCondition : Name) : Bool :=
  match s.possibleTypes typeCondition with
  | .ok types => decide (t ∈ types)
  | .error _ => false

theorem Schema.satisfies_iff {s : Schema} {t c : Name} {types : NameSet}
    (h : s.possibleTypes c = .ok types) : s.satisfies t c = true ↔ t ∈ types := by
  rw [satisfies, h]
  exact decide_eq_true_iff

/-! ## Gates -/

/-- An inline fragment or a spread on the way to a selection, with the type condition that it
states. -/
structure Gate where
  /-- The type condition, if one is written. -/
  typeCondition : Option Name
  /-- The directives at the fragment or spread. -/
  directives : List Directive

/-- Whether a gate lets objects of type `t` through. -/
def Gate.applies (g : Gate) (schema : Schema) (t : Name) : Bool :=
  g.typeCondition.all (schema.satisfies t)

theorem Gate.applies_iff {g : Gate} {schema : Schema} {t : Name} :
    g.applies schema t = true ↔ ∀ c, g.typeCondition = some c → schema.satisfies t c = true := by
  rw [applies, Option.all_eq_true]

/-- The gate that an inline fragment or a spread of an existing fragment makes. -/
def Selection.gate? (d : Document) : Selection → Option Gate
  | .field .. => none
  | .inline typeCondition directives _ => some ⟨typeCondition, directives⟩
  | .spread name directives =>
    (d.fragment? name).map fun f ↦ ⟨some f.typeCondition, directives⟩

theorem Selection.gate?_spread {d : Document} {name : Name} {f : Fragment}
    {directives : List Directive} (h : d.fragment? name = some f) :
    (Selection.spread name directives).gate? d = some ⟨some f.typeCondition, directives⟩ := by
  rw [gate?, h, Option.map_some]

/-- From one selection one gets to another through gates, without entering a fragment that is on the
path or entering one twice. -/
inductive Leads (d : Document) : List Name → Selection → List Gate → Selection → Prop
  | here (path : List Name) (s : Selection) : Leads d path s [] s
  | inline {path : List Name} {typeCondition : Option Name} {directives : List Directive}
      {selections : List Selection} {s target : Selection} {gates : List Gate}
      (mem : s ∈ selections) (rest : Leads d path s gates target) :
      Leads d path (.inline typeCondition directives selections)
        (⟨typeCondition, directives⟩ :: gates) target
  | spread {path : List Name} {name : Name} {directives : List Directive} {fragment : Fragment}
      {s target : Selection} {gates : List Gate} (found : d.fragment? name = some fragment)
      (fresh : name ∉ path) (mem : s ∈ fragment.selections)
      (rest : Leads d (path ++ [name]) s gates target) :
      Leads d path (.spread name directives)
        (⟨some fragment.typeCondition, directives⟩ :: gates) target

namespace Leads

variable {d : Document} {path : List Name} {gates : List Gate} {target : Selection}

/-- What can be reached past a longer path can be reached past a shorter one. -/
theorem of_subset {s : Selection} (h : Leads d path s gates target) {path' : List Name}
    (hp : ∀ n ∈ path', n ∈ path) : Leads d path' s gates target := by
  induction h generalizing path' with
  | here path s => exact .here path' s
  | inline mem rest ih => exact .inline mem (ih hp)
  | @spread path name directives fragment s target gates found fresh mem rest ih =>
    refine .spread found (fun hn ↦ fresh (hp name hn)) mem (ih fun n hn ↦ ?_)
    rcases List.mem_append.mp hn with hn | hn
    · exact List.mem_append_left _ (hp n hn)
    · exact List.mem_append_right _ hn

theorem field_iff {head : FieldHead} {selections : List Selection} :
    Leads d path (.field head selections) gates target ↔
      gates = [] ∧ target = .field head selections := by
  constructor
  · intro h
    cases h
    exact ⟨rfl, rfl⟩
  · rintro ⟨rfl, rfl⟩
    exact .here path _

/-- To get from an inline fragment to a field is to get there from one of its selections. -/
theorem inline_field_iff {typeCondition : Option Name} {directives : List Directive}
    {selections beneath : List Selection} {head : FieldHead} :
    Leads d path (.inline typeCondition directives selections) gates (.field head beneath) ↔
      ∃ s ∈ selections, ∃ inner, gates = ⟨typeCondition, directives⟩ :: inner ∧
        Leads d path s inner (.field head beneath) := by
  constructor
  · intro h
    cases h with
    | inline mem rest => exact ⟨_, mem, _, rfl, rest⟩
  · rintro ⟨s, mem, inner, rfl, rest⟩
    exact .inline mem rest

/-- To get from a spread to a field is to get there from one of the fragment's selections. -/
theorem spread_field_iff {name : Name} {directives : List Directive} {beneath : List Selection}
    {head : FieldHead} :
    Leads d path (.spread name directives) gates (.field head beneath) ↔
      ∃ f, d.fragment? name = some f ∧ name ∉ path ∧ ∃ s ∈ f.selections, ∃ inner,
        gates = ⟨some f.typeCondition, directives⟩ :: inner ∧
          Leads d (path ++ [name]) s inner (.field head beneath) := by
  constructor
  · intro h
    cases h with
    | spread found fresh mem rest => exact ⟨_, found, fresh, _, mem, _, rfl, rest⟩
  · rintro ⟨f, found, fresh, s, mem, inner, rfl, rest⟩
    exact .spread found fresh mem rest

/-- Every gate on a way, that of the last selection included, is made by a selection one gets to on
it. -/
theorem exists_gate {s : Selection} {before after : List Gate} {g g' : Gate}
    (h : Leads d path s gates target) (hg : target.gate? d = some g)
    (heq : gates ++ [g] = before ++ g' :: after) :
    ∃ mid, Leads d path s before mid ∧ mid.gate? d = some g' := by
  induction h generalizing before with
  | here path s =>
    cases before with
    | nil =>
      cases heq
      exact ⟨s, .here path s, hg⟩
    | cons _ before => simp at heq
  | inline mem rest ih =>
    cases before with
    | nil =>
      cases heq
      exact ⟨_, .here _ _, rfl⟩
    | cons _ before =>
      obtain ⟨rfl, htail⟩ := List.cons.inj heq
      obtain ⟨mid, hmid, hgate⟩ := ih hg htail
      exact ⟨mid, .inline mem hmid, hgate⟩
  | spread found fresh mem rest ih =>
    cases before with
    | nil =>
      cases heq
      exact ⟨_, .here _ _, Selection.gate?_spread found⟩
    | cons _ before =>
      obtain ⟨rfl, htail⟩ := List.cons.inj heq
      obtain ⟨mid, hmid, hgate⟩ := ih hg htail
      exact ⟨mid, .spread found fresh mem hmid, hgate⟩

end Leads

/-- From one selection one gets to another through gates, where fragments may be entered again. -/
inductive Way (d : Document) : Selection → List Gate → Selection → Prop
  | here (s : Selection) : Way d s [] s
  | inline {typeCondition : Option Name} {directives : List Directive} {selections : List Selection}
      {s target : Selection} {gates : List Gate} (mem : s ∈ selections)
      (rest : Way d s gates target) :
      Way d (.inline typeCondition directives selections)
        (⟨typeCondition, directives⟩ :: gates) target
  | spread {name : Name} {directives : List Directive} {fragment : Fragment} {s target : Selection}
      {gates : List Gate} (found : d.fragment? name = some fragment) (mem : s ∈ fragment.selections)
      (rest : Way d s gates target) :
      Way d (.spread name directives) (⟨some fragment.typeCondition, directives⟩ :: gates) target

theorem Leads.way {d : Document} {path : List Name} {s target : Selection} {gates : List Gate}
    (h : Leads d path s gates target) : Way d s gates target := by
  induction h with
  | here path s => exact .here s
  | inline mem rest ih => exact .inline mem ih
  | spread found fresh mem rest ih => exact .spread found mem ih

/-- Ways can be put together. -/
theorem Way.append {d : Document} {s mid target : Selection} {before after : List Gate}
    (h : Way d s before mid) (h' : Way d mid after target) : Way d s (before ++ after) target := by
  induction h with
  | here s => exact h'
  | inline mem rest ih => exact .inline mem (ih h')
  | spread found mem rest ih => exact .spread found mem (ih h')

/-- Where a way leads to a spread it leads on into the fragment. -/
theorem Way.into {d : Document} {s x : Selection} {gates : List Gate} {name : Name}
    {directives : List Directive} {fragment : Fragment}
    (h : Way d s gates (.spread name directives)) (found : d.fragment? name = some fragment)
    (mem : x ∈ fragment.selections) :
    Way d s (gates ++ [⟨some fragment.typeCondition, directives⟩]) x :=
  h.append (.spread found mem (.here x))

/-- The type that a field is looked up in at the end of a way: the innermost type condition, or the
type one came from. -/
def Gate.innermost (outer : Name) (gates : List Gate) : Name :=
  gates.foldl (fun parent g ↦ g.typeCondition.getD parent) outer

theorem Gate.innermost_append (outer : Name) (before after : List Gate) :
    innermost outer (before ++ after) = innermost (innermost outer before) after :=
  List.foldl_append

/-- A fragment with the type condition `c` is entered from selections of `among`, for some values of
the variables. -/
def Entered (d : Document) (among : Selection → Prop) (c : Name) : Prop :=
  ∃ s gates target g v, among s ∧ Leads d [] s gates target ∧ target.gate? d = some g ∧
    g.typeCondition = some c ∧ ∀ g' ∈ gates ++ [g], included v g'.directives = true

/-! ## The walk -/

set_option linter.unusedVariables false in
/-- The fields that are met on a walk through selections for an object of type `t`, each with the
selections beneath it. Where `keep` rejects the directives of a selection, the walk passes it
over. -/
def collect (keep : List Directive → Bool) (schema : Schema) (d : Document) (t : Name)
    (path : List Name) (selections : List Selection) : List (FieldHead × List Selection) :=
  match selections with
  | [] => []
  | .field head beneath :: rest =>
    (if keep head.directives then [(head, beneath)] else []) ++ collect keep schema d t path rest
  | .inline typeCondition directives inside :: rest =>
    (if keep directives && typeCondition.all (schema.satisfies t) then
      collect keep schema d t path inside
    else []) ++ collect keep schema d t path rest
  | .spread name directives :: rest =>
    (match hf : d.fragment? name with
    | none => []
    | some fragment =>
      if hp : name ∈ path then []
      else if keep directives && schema.satisfies t fragment.typeCondition then
        collect keep schema d t (path ++ [name]) fragment.selections
      else []) ++ collect keep schema d t path rest
termination_by d.weight path selections
decreasing_by
  · exact d.weight_tail_lt
  · exact d.weight_inline_lt
  · exact d.weight_tail_lt
  · have hname := Document.name_of_fragment? hf
    have hlt := d.weight_expand_lt (Document.mem_of_fragment? hf) (hname ▸ hp)
      (.spread name directives :: rest)
    rwa [hname] at hlt
  · exact d.weight_tail_lt

/-- **A field is collected when one gets to it through open gates.** -/
theorem mem_collect {keep : List Directive → Bool} {schema : Schema} {d : Document} {t : Name}
    {path : List Name} {selections beneath : List Selection} {head : FieldHead} :
    (head, beneath) ∈ collect keep schema d t path selections ↔
      ∃ s ∈ selections, ∃ gates, Leads d path s gates (.field head beneath) ∧
        (∀ g ∈ gates, keep g.directives = true ∧ g.applies schema t = true) ∧
        keep head.directives = true := by
  induction path, selections using collect.induct d with
  | case1 path => simp [collect]
  | case2 path head' beneath' rest ih =>
    rw [collect, List.mem_append, ih]
    simp only [List.mem_cons, or_and_right, exists_or, exists_eq_left]
    refine or_congr ?_ Iff.rfl
    simp only [Leads.field_iff, Selection.field.injEq]
    rw [List.mem_ite_nil_right, List.mem_singleton]
    constructor
    · rintro ⟨hkeep, heq⟩
      cases heq
      exact ⟨[], ⟨rfl, rfl, rfl⟩, fun g hg ↦ absurd hg List.not_mem_nil, hkeep⟩
    · rintro ⟨-, ⟨rfl, rfl, rfl⟩, -, hkeep⟩
      exact ⟨hkeep, rfl⟩
  | case3 path typeCondition directives inside rest ihInside ihRest =>
    rw [collect, List.mem_append, ihRest]
    simp only [List.mem_cons, or_and_right, exists_or, exists_eq_left]
    refine or_congr ?_ Iff.rfl
    simp only [Leads.inline_field_iff]
    rw [List.mem_ite_nil_right, ihInside, Bool.and_eq_true]
    constructor
    · rintro ⟨hopen, s, hs, gates, hleads, hgates, hkeep⟩
      exact ⟨_, ⟨s, hs, gates, rfl, hleads⟩, List.forall_mem_cons.mpr ⟨hopen, hgates⟩, hkeep⟩
    · rintro ⟨-, ⟨s, hs, gates, rfl, hleads⟩, hgates, hkeep⟩
      obtain ⟨hopen, hgates⟩ := List.forall_mem_cons.mp hgates
      exact ⟨hopen, s, hs, gates, hleads, hgates, hkeep⟩
  | case4 path name directives rest ihInside ihRest =>
    rw [collect, List.mem_append, ihRest]
    simp only [List.mem_cons, or_and_right, exists_or, exists_eq_left]
    refine or_congr ?_ Iff.rfl
    simp only [Leads.spread_field_iff]
    split
    · rename_i hnone
      refine iff_of_false List.not_mem_nil ?_
      rintro ⟨-, ⟨fragment, hf, -⟩, -⟩
      cases hnone.symm.trans hf
    rename_i fragment hf
    by_cases hp : name ∈ path
    · rw [dif_pos hp]
      refine iff_of_false List.not_mem_nil ?_
      rintro ⟨-, ⟨_, -, hfresh, -⟩, -⟩
      exact hfresh hp
    · rw [dif_neg hp, List.mem_ite_nil_right, ihInside fragment hf hp, Bool.and_eq_true]
      constructor
      · rintro ⟨hopen, s, hs, gates, hleads, hgates, hkeep⟩
        exact ⟨_, ⟨fragment, hf, hp, s, hs, gates, rfl, hleads⟩,
          List.forall_mem_cons.mpr ⟨hopen, hgates⟩, hkeep⟩
      · rintro ⟨-, ⟨fragment', hf', -, s, hs, gates, rfl, hleads⟩, hgates, hkeep⟩
        cases hf.symm.trans hf'
        obtain ⟨hopen, hgates⟩ := List.forall_mem_cons.mp hgates
        exact ⟨hopen, s, hs, gates, hleads, hgates, hkeep⟩

/-! ## Execution -/

/-- The fields that execution collects for an object of type `t` when the variables have the values
`v`. -/
def collectFields (schema : Schema) (d : Document) (v : Name → Bool) (t : Name)
    (selections : List Selection) : List (FieldHead × List Selection) :=
  collect (included v) schema d t [] selections

/-- The response names of fields with selections beneath them. -/
def responseNames (fields : List (FieldHead × List Selection)) : List Name :=
  fields.map fun f ↦ f.1.responseName

/-- The selections beneath a response name, one field after the other. -/
def subSelections (fields : List (FieldHead × List Selection)) (responseName : Name) :
    List Selection :=
  (fields.filter fun f ↦ f.1.responseName == responseName).flatMap Prod.snd

theorem mem_responseNames {fields : List (FieldHead × List Selection)} {n : Name} :
    n ∈ responseNames fields ↔ ∃ head beneath, (head, beneath) ∈ fields ∧
      head.responseName = n := by
  simp [responseNames]

theorem mem_subSelections {fields : List (FieldHead × List Selection)} {n : Name} {s : Selection} :
    s ∈ subSelections fields n ↔
      ∃ head beneath, (head, beneath) ∈ fields ∧ head.responseName = n ∧ s ∈ beneath := by
  simp [subSelections, and_assoc]

/-- More selections give more fields. -/
theorem collectFields_mono {schema : Schema} {d : Document} {v : Name → Bool} {t : Name}
    {selections selections' : List Selection} (hs : ∀ s ∈ selections, s ∈ selections')
    {f : FieldHead × List Selection} (hf : f ∈ collectFields schema d v t selections) :
    f ∈ collectFields schema d v t selections' := by
  obtain ⟨s, hmem, gates, hleads, hgates, hkeep⟩ := mem_collect.mp hf
  exact mem_collect.mpr ⟨s, hs s hmem, gates, hleads, hgates, hkeep⟩

theorem responseNames_mono {fields fields' : List (FieldHead × List Selection)}
    (h : ∀ f, f ∈ fields → f ∈ fields') :
    ∀ n ∈ responseNames fields, n ∈ responseNames fields' := by
  intro n hn
  obtain ⟨head, beneath, hf, hname⟩ := mem_responseNames.mp hn
  exact mem_responseNames.mpr ⟨head, beneath, h _ hf, hname⟩

/-! ## Nested fields

A path leads from a selection set into nested ones, each step giving the type of the object that is
met and the response name that is followed. -/

/-- What is executed at the end of a path: at each step, the selections beneath all the fields of
the response name that execution collects. -/
def executedAlong (schema : Schema) (d : Document) (v : Name → Bool) :
    List (Name × Name) → List Selection → List Selection
  | [], selections => selections
  | (t, n) :: path, selections =>
    executedAlong schema d v path (subSelections (collectFields schema d v t selections) n)

/-- One comes upon a field for objects of type `t`, starting from selections of `among`: the gates
on the way let such objects through, and some values of the variables open all of them. -/
def ComesUpon (schema : Schema) (d : Document) (t : Name) (among : Selection → Prop)
    (head : FieldHead) (beneath : List Selection) : Prop :=
  ∃ y gates, among y ∧ Leads d [] y gates (.field head beneath) ∧
    (∃ v, ∀ g ∈ gates, included v g.directives = true) ∧ ∀ g ∈ gates, g.applies schema t = true

/-- What is put together at the end of a path: at each step, the selections beneath all the fields
of the response name that one comes upon, whether execution keeps them or not. -/
def MergedAlong (schema : Schema) (d : Document) :
    List (Name × Name) → (Selection → Prop) → Selection → Prop
  | [], among => among
  | (t, n) :: path, among => MergedAlong schema d path fun x ↦
      ∃ head beneath, ComesUpon schema d t among head beneath ∧ head.responseName = n ∧ x ∈ beneath

/-- Execution keeps all the fields that one comes upon for the response names of a path. -/
def KeepsAlong (schema : Schema) (d : Document) (v : Name → Bool) :
    List (Name × Name) → List Selection → Prop
  | [], _ => True
  | (t, n) :: path, selections =>
    (∀ head beneath, ComesUpon schema d t (· ∈ selections) head beneath → head.responseName = n →
      (head, beneath) ∈ collectFields schema d v t selections) ∧
    KeepsAlong schema d v path (subSelections (collectFields schema d v t selections) n)

theorem ComesUpon.mono {schema : Schema} {d : Document} {t : Name} {among among' : Selection → Prop}
    {head : FieldHead} {beneath : List Selection} (h : ComesUpon schema d t among head beneath)
    (hsub : ∀ x, among x → among' x) : ComesUpon schema d t among' head beneath := by
  obtain ⟨y, gates, hy, hleads, hopen, hgates⟩ := h
  exact ⟨y, gates, hsub y hy, hleads, hopen, hgates⟩

/-- Where execution keeps everything one comes upon, what is put together is executed. -/
theorem MergedAlong.mem_executedAlong {schema : Schema} {d : Document} {v : Name → Bool}
    {path : List (Name × Name)} {among : Selection → Prop} {executed : List Selection}
    (hsub : ∀ x, among x → x ∈ executed) (hkeeps : KeepsAlong schema d v path executed)
    {x : Selection} (hx : MergedAlong schema d path among x) :
    x ∈ executedAlong schema d v path executed := by
  induction path generalizing among executed with
  | nil => exact hsub x hx
  | cons step path ih =>
    obtain ⟨hkept, hrest⟩ := hkeeps
    refine ih (fun y hy ↦ ?_) hrest hx
    obtain ⟨head, beneath, hupon, hname, hmem⟩ := hy
    exact mem_subSelections.mpr ⟨head, beneath, hkept head beneath (hupon.mono hsub) hname, hname,
      hmem⟩

end ResponseModels
