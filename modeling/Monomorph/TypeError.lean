import Monomorph.Path
import Monomorph.Source.Span

/-!
# Type errors

What can be wrong with a program, and where. An error about two values forced into one type says where
inside the two types the conflict sits: a list of steps, innermost first. `TypeError.message` is the
one-line text of an error, `TypeError.code` the stable code of its kind.
-/

namespace Monomorph

/-- One step from a type into a type inside it. -/
inductive PathStep where
  | element
  | member (name : String)
  | variant (name : String)
  | argument (position : Nat)
  | returns
  deriving DecidableEq, Inhabited, Repr

/-- Steps into a pair of types, innermost first. -/
abbrev StepPath := List PathStep

/-- Why an assignment is refused. -/
inductive AssignmentFault where
  | immutable
  | procedure
  | moduleVariable
  | notAssignable
  deriving DecidableEq, Inhabited, Repr

/-- What is wrong at one place. -/
inductive Fault where
  /-- A value has to be of one kind and is of another. -/
  | invalidType (expected found : String) (foundSpan : Option Span) (reason : Option String)
  /-- Two values forced into one type are of different kinds. -/
  | incompatible (left right : String) (leftSpan rightSpan : Option Span) (path : StepPath)
  /-- Two objects forced into one type have different fixed layouts. -/
  | layoutMismatch (leftOrder rightOrder : List String) (leftSpan rightSpan : Option Span)
      (path : StepPath)
  /-- A local is read that may not have a value yet. -/
  | uninitialized (name : String)
  | invalidAssignment (target : String) (fault : AssignmentFault)
  /-- The value of a module variable depends on itself. -/
  | selfReference (path : Path)
  | unknownSymbol (path : Path)
  | argumentCount (path : Path) (expected found : Nat) (declared : Span)
  deriving DecidableEq, Inhabited, Repr

/-- A type error with its primary span. -/
inductive TypeError where
  | single (span : Span) (fault : Fault)
  /-- A call that every candidate rejected, with the rejections. -/
  | noViableCandidate (span : Span) (path : Path) (candidates : List Path)
      (rejections : List TypeError)
  deriving Inhabited, Repr

/-! ### Equality -/

mutual

def TypeError.decEq : (a b : TypeError) → Decidable (a = b)
  | .single s f, .single t g =>
    if h : s = t ∧ f = g then isTrue (h.1 ▸ h.2 ▸ rfl)
    else isFalse fun hab => h (by cases hab; exact ⟨rfl, rfl⟩)
  | .noViableCandidate s p cs es, .noViableCandidate t q ds fs =>
    if h : s = t ∧ p = q ∧ cs = ds then
      match TypeError.decEqList es fs with
      | isTrue hes => isTrue (by obtain ⟨rfl, rfl, rfl⟩ := h; rw [hes])
      | isFalse hes => isFalse fun hab => hes (by cases hab; rfl)
    else isFalse fun hab => h (by cases hab; exact ⟨rfl, rfl, rfl⟩)
  | .single .., .noViableCandidate .. => isFalse nofun
  | .noViableCandidate .., .single .. => isFalse nofun

/-- Whether two lists of errors are equal. -/
def TypeError.decEqList : (as bs : List TypeError) → Decidable (as = bs)
  | [], [] => isTrue rfl
  | a :: as, b :: bs =>
    match TypeError.decEq a b, TypeError.decEqList as bs with
    | isTrue h, isTrue h' => isTrue (by rw [h, h'])
    | isFalse h, _ => isFalse fun hab => h (by cases hab; rfl)
    | _, isFalse h => isFalse fun hab => h (by cases hab; rfl)
  | [], _ :: _ => isFalse nofun
  | _ :: _, [] => isFalse nofun

end

instance : DecidableEq TypeError := TypeError.decEq

/-! ### Texts -/

/-- A position counted from `1`: by name up to the tenth, by number after that. -/
def ordinal (n : Nat) : String :=
  let names := ["first", "second", "third", "fourth", "fifth", "sixth", "seventh", "eighth",
    "ninth", "tenth"]
  if n = 0 then "0th" else (names[n - 1]?).getD s!"{n}th"

def PathStep.text : PathStep → String
  | element => "the array elements"
  | member name => s!"the member `{name}`"
  | variant name => s!"the variant `#{name}`"
  | argument position => s!"the {ordinal (position + 1)} argument"
  | returns => "the return values"

/-- Where a path leads, innermost step first. -/
def StepPath.text (path : StepPath) : String :=
  " of ".intercalate (path.map PathStep.text)

def pluralEnding (n : Nat) : String := if n = 1 then "" else "s"

def Fault.message : Fault → String
  | invalidType expected found _ reason =>
    s!"invalid type: expected {expected}, found {found}"
      ++ match reason with
        | some reason => s!" ({reason})"
        | none => ""
  | incompatible left right _ _ path =>
    s!"incompatible types: {left} and {right}"
      ++ if path.isEmpty then "" else " in " ++ StepPath.text path
  | layoutMismatch leftOrder rightOrder _ _ path =>
    "objects with different layouts used together: [" ++ ", ".intercalate leftOrder ++ "] and ["
      ++ ", ".intercalate rightOrder ++ "]"
      ++ if path.isEmpty then "" else " in " ++ StepPath.text path
  | uninitialized name => s!"usage of possibly uninitialized variable `{name}`"
  | invalidAssignment target fault =>
    match fault with
    | .immutable => s!"assignment to immutable variable `{target}`"
    | .procedure => s!"assignment to procedure `{target}`"
    | .moduleVariable => s!"assignment to module variable `{target}`"
    | .notAssignable => s!"cannot assign to {target}"
  | selfReference path => s!"module variable `{path.text}` references itself"
  | unknownSymbol path => s!"unknown symbol `{path.text}`"
  | argumentCount path expected found _ =>
    let verb := if found = 1 then "was" else "were"
    s!"`{path.text}` expects {expected} argument{pluralEnding expected}, but {found} {verb} given"

def Fault.code : Fault → String
  | invalidType .. => "E0001"
  | incompatible .. => "E0002"
  | layoutMismatch .. => "E0003"
  | uninitialized .. => "E0004"
  | invalidAssignment .. => "E0005"
  | selfReference .. => "E0006"
  | unknownSymbol .. => "E0007"
  | argumentCount .. => "E0008"

namespace TypeError

def span : TypeError → Span
  | single span _ => span
  | noViableCandidate span _ _ _ => span

def message : TypeError → String
  | single _ fault => fault.message
  | noViableCandidate _ path candidates _ =>
    let considered := ", ".intercalate (candidates.map fun c => "`" ++ c.text ++ "`")
    s!"no viable candidate for call to `{path.text}` (considered {considered})"

def code : TypeError → String
  | single _ fault => fault.code
  | noViableCandidate .. => "E0009"

end TypeError
end Monomorph
