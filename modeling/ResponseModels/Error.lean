import ResponseModels.NameSet

/-!
# Errors

What can go wrong while a document is built. Every error is fatal to the whole build. An error says
what it is about by name and holds no position; the definition being built when it arose is attached
around it by `Error.inDefinition`, at most once, so that the innermost definition is the one that is
named.

`Error.message` is the wording, `Error.code` the stable code of an error's kind.
-/

set_option autoImplicit false

namespace ResponseModels

/-- The kinds of thing that a name can fail to resolve to. -/
inductive Element where
  | type
  | compositeType
  | field
  | argument
  | fragment
  | rootOperation
  | operationName
  deriving DecidableEq

/-- An element in words. -/
def Element.text : Element → String
  | .type => "type"
  | .compositeType => "composite type"
  | .field => "field"
  | .argument => "argument"
  | .fragment => "fragment"
  | .rootOperation => "root operation type"
  | .operationName => "operation name"

/-- What two declarations of one response name can disagree on. -/
inductive Conflict where
  | fieldName
  | type
  | arguments
  deriving DecidableEq

/-- A conflict in words. -/
def Conflict.text : Conflict → String
  | .fieldName => "field names"
  | .type => "types"
  | .arguments => "arguments"

/-- The ways a build can fail. -/
inductive Error where
  /-- The builder broke one of its own invariants. -/
  | internal (details : String)
  /-- A name that stands for nothing of the kind it should. -/
  | unresolved (element : Element) (name : String) (parentType : Option Name)
  /-- Two declarations of one response name that differ. -/
  | fieldConflict (responseName : Name) (conflict : Conflict) (first second : String)
  /-- The same condition twice on one selection. -/
  | duplicateCondition (selection condition : String)
  /-- A fragment that spreads itself; the path leads from one occurrence to the next. -/
  | fragmentCycle (fragment : Name) (path : List Name)
  /-- A directive whose argument is neither a boolean nor a variable. -/
  | invalidDirectiveArgument (directive : Name) (value : String)
  /-- An error with the definition it arose in. -/
  | within (definition : String) (cause : Error)
  deriving DecidableEq

/-- The codes of the kinds of errors. -/
inductive ErrorCode where
  | internal
  | schemaResolution
  | fieldConflict
  | duplicateCondition
  | fragmentCycle
  | invalidDirectiveArgument
  deriving DecidableEq

namespace ErrorCode

/-- The written code. -/
def text : ErrorCode → String
  | .internal => "INTERNAL"
  | .schemaResolution => "SCHEMA_RESOLUTION"
  | .fieldConflict => "FIELD_CONFLICT"
  | .duplicateCondition => "DUPLICATE_CONDITION"
  | .fragmentCycle => "FRAGMENT_CYCLE"
  | .invalidDirectiveArgument => "INVALID_DIRECTIVE_ARGUMENT"

/-- What a code stands for. -/
def definition : ErrorCode → String
  | .internal => "An internal error, the IR builder broke one of its own invariants."
  | .schemaResolution =>
    "A type, field, argument or fragment referenced by the document cannot be found."
  | .fieldConflict =>
    "Two selections share a response name but select different fields, types or arguments."
  | .duplicateCondition => "The same @skip/@include condition is declared twice on one selection."
  | .fragmentCycle => "A fragment spreads itself, directly or transitively."
  | .invalidDirectiveArgument =>
    "The `if` argument of @skip/@include is neither a boolean literal nor a variable."

end ErrorCode

namespace Error

/-- The error of a name that cannot be resolved. -/
def unknown (element : Element) (name : String) : Error := .unresolved element name none

/-- Attaches the definition being built, unless an error names its definition already. -/
def inDefinition (definition : String) : Error → Error
  | .within d cause => .within d cause
  | e => .within definition e

/-- The error without any definition around it. -/
def rootCause : Error → Error
  | .within _ cause => cause.rootCause
  | e => e

/-- The definition the error arose in, if it is known. -/
def definition? : Error → Option String
  | .within definition _ => some definition
  | _ => none

/-- The code of an error, that of its root cause. -/
def code : Error → ErrorCode
  | .internal _ => .internal
  | .unresolved .. => .schemaResolution
  | .fieldConflict .. => .fieldConflict
  | .duplicateCondition .. => .duplicateCondition
  | .fragmentCycle .. => .fragmentCycle
  | .invalidDirectiveArgument .. => .invalidDirectiveArgument
  | .within _ cause => cause.code

/-- The wording of an error. -/
def message : Error → String
  | .internal details =>
    "An internal error has occurred, please report this bug to Apollo.\n\nDetails: " ++ details
  | .unresolved element name parentType =>
    s!"Cannot resolve {element.text} \"{name}\"" ++
      match parentType with
      | some parent => s!" on type \"{parent}\""
      | none => ""
  | .fieldConflict responseName conflict first second =>
    s!"Fields \"{responseName}\" conflict because they have differing {conflict.text}: " ++
      s!"\"{first}\" and \"{second}\". Use different aliases on the fields to fetch both " ++
      "if this was intentional."
  | .duplicateCondition selection condition =>
    s!"Duplicate @skip/@include condition `{condition}` on \"{selection}\""
  | .fragmentCycle fragment path =>
    s!"Fragment \"{fragment}\" spreads itself: " ++ String.intercalate " -> " path
  | .invalidDirectiveArgument directive value =>
    s!"The \"if\" argument of @{directive} must be a boolean literal or a variable, got {value}"
  | .within definition cause => definition ++ ": " ++ cause.message

theorem inDefinition_inDefinition (d d' : String) (e : Error) :
    (e.inDefinition d).inDefinition d' = e.inDefinition d := by
  cases e <;> rfl

@[simp] theorem rootCause_inDefinition (d : String) (e : Error) :
    (e.inDefinition d).rootCause = e.rootCause := by
  cases e <;> rfl

theorem code_rootCause (e : Error) : e.rootCause.code = e.code := by
  induction e with
  | within d cause ih => exact ih
  | _ => rfl

/-- A step followed by another succeeds when both do, the second on what the first returns. -/
theorem bind_eq_ok {α β : Type} {x : Except Error α} {f : α → Except Error β} {b : β} :
    (x >>= f) = .ok b ↔ ∃ a, x = .ok a ∧ f a = .ok b := by
  cases x with
  | error e =>
    constructor
    · intro h; cases h
    · rintro ⟨a, ha, -⟩; cases ha
  | ok a =>
    constructor
    · intro h; exact ⟨a, rfl, h⟩
    · rintro ⟨a', ha, h⟩; cases ha; exact h

/-- A step whose result passes a test succeeds. -/
theorem exists_of_any {α : Type} {x : Except Error α} {p : α → Bool} (h : x.toOption.any p = true) :
    ∃ a, x = .ok a ∧ p a = true := by
  cases x with
  | error e => cases h
  | ok a => exact ⟨a, rfl, h⟩

/-- What a list of steps returns was returned by one of them. -/
theorem exists_of_mem_mapM {α β : Type} {f : α → Except Error β} {l : List α} {r : List β}
    (h : l.mapM f = .ok r) {b : β} (hb : b ∈ r) : ∃ a ∈ l, f a = .ok b := by
  induction l generalizing r with
  | nil =>
    rw [List.mapM_nil] at h
    cases h
    exact absurd hb List.not_mem_nil
  | cons a rest ih =>
    rw [List.mapM_cons] at h
    obtain ⟨b', hb', h⟩ := bind_eq_ok.mp h
    obtain ⟨rest', hrest, h⟩ := bind_eq_ok.mp h
    cases h
    rcases List.mem_cons.mp hb with rfl | hb
    · exact ⟨a, List.mem_cons_self, hb'⟩
    · obtain ⟨a', ha', hfa'⟩ := ih hrest hb
      exact ⟨a', List.mem_cons_of_mem a ha', hfa'⟩

/-- Every one of a list of steps contributes what it returns. -/
theorem exists_mem_of_mapM {α β : Type} {f : α → Except Error β} {l : List α} {r : List β}
    (h : l.mapM f = .ok r) {a : α} (ha : a ∈ l) : ∃ b ∈ r, f a = .ok b := by
  induction l generalizing r with
  | nil => exact absurd ha List.not_mem_nil
  | cons a' rest ih =>
    rw [List.mapM_cons] at h
    obtain ⟨b', hb', h⟩ := bind_eq_ok.mp h
    obtain ⟨rest', hrest, h⟩ := bind_eq_ok.mp h
    cases h
    rcases List.mem_cons.mp ha with rfl | ha
    · exact ⟨b', List.mem_cons_self, hb'⟩
    · obtain ⟨b, hb, hfa⟩ := ih hrest ha
      exact ⟨b, List.mem_cons_of_mem b' hb, hfa⟩

/-- What the results of steps show, in order, is what the steps say they will. -/
theorem map_eq_of_mapM {α β γ : Type} {f : α → Except Error β} {g : α → γ} {k : β → γ}
    (hf : ∀ a b, f a = .ok b → k b = g a) {l : List α} {r : List β} (h : l.mapM f = .ok r) :
    r.map k = l.map g := by
  induction l generalizing r with
  | nil =>
    rw [List.mapM_nil] at h
    cases h
    rfl
  | cons a rest ih =>
    rw [List.mapM_cons] at h
    obtain ⟨b, hb, h⟩ := bind_eq_ok.mp h
    obtain ⟨rest', hrest, h⟩ := bind_eq_ok.mp h
    cases h
    rw [List.map_cons, List.map_cons, hf a b hb, ih hrest]

private theorem of_filterAuxM {α : Type} {f : α → Except Error Bool} {l acc r : List α}
    (h : l.filterAuxM f acc = .ok r) :
    ∃ kept : List α, r = kept.reverse ++ acc ∧ kept.Sublist l ∧ ∀ a ∈ kept, f a = .ok true := by
  induction l generalizing acc with
  | nil =>
    cases h
    exact ⟨[], rfl, List.nil_sublist _, fun a ha ↦ absurd ha List.not_mem_nil⟩
  | cons a rest ih =>
    rw [List.filterAuxM] at h
    obtain ⟨b, hb, h⟩ := bind_eq_ok.mp h
    obtain ⟨kept, rfl, hsub, hkept⟩ := ih h
    cases b with
    | true =>
      refine ⟨a :: kept, by simp, hsub.cons_cons a, List.forall_mem_cons.mpr ⟨hb, hkept⟩⟩
    | false => exact ⟨kept, rfl, hsub.cons a, hkept⟩

/-- What is kept of a list has passed the test. -/
theorem sublist_of_filterM {α : Type} {f : α → Except Error Bool} {l r : List α}
    (h : l.filterM f = .ok r) : r.Sublist l ∧ ∀ a ∈ r, f a = .ok true := by
  rw [List.filterM] at h
  obtain ⟨kept, hkept, h⟩ := bind_eq_ok.mp h
  cases h
  obtain ⟨kept, rfl, hsub, hall⟩ := of_filterAuxM hkept
  simpa using And.intro hsub hall

/-- The result of a step of the build, with the definition being built attached to its error. -/
def wrap {α : Type} (definition : String) (r : Except Error α) : Except Error α :=
  r.mapError (inDefinition definition)

end Error
end ResponseModels
