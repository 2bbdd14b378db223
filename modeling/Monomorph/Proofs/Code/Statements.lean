import Monomorph.Proofs.Meaning.Programs
import Monomorph.Proofs.Solve.Formed

/-! # Statements that are used as values

Lowering a statement leaves no version, and where its value is used, unit is loaded in its place; drafting gives types
to all expressions. The two agree for all statements but declarations: an expression of a kept body that is used as
a value and leaves no version is of unit type in the types that the check ends with (`Program.check_lower_unit`). A
declaration leaves no version either, and is of the type of its local. -/

namespace Monomorph

open Outcome

namespace LowerM

theorem some_yields (v : Version) {c : Prop} : Yields (pure (some v) : LowerM (Option Version)) fun r => r = none → c :=
  .pure fun h => absurd h (Option.some_ne_none v)

/-- Only statements are lowered without leaving a version. -/
theorem expr_yields (context : LowerContext) (e : Expr TypeVar) :
    Yields (expr context e : LowerM (Option Version)) fun r => r = none → e.hasValue = false := by
  cases e with
  | define | declare | assign | giveBack | ifElse | matchValue | matchVariant =>
    exact Yields.trivial.imp fun _ _ _ => rfl
  | name | procedure =>
    rw [expr]
    exact .throw
  | literal =>
    rw [expr]
    exact .after fun _ => some_yields _
  | localVar =>
    rw [expr]
    refine .after fun found => ?_
    cases found with
    | some v => exact some_yields _
    | none => exact .after fun _ => some_yields _
  | closure m params body info =>
    cases info with
    | none =>
      rw [expr]
      exact .throw
    | some info =>
      rw [expr]
      exact .after fun _ => .after fun _ => .after fun _ => .after fun _ => some_yields _
  | object | array | member | unary | variant | unwrap | constant | global =>
    rw [expr]
    exact .after fun _ => .after fun _ => some_yields _
  | invoke | call | repeated | element =>
    rw [expr]
    exact .after fun _ => .after fun _ => .after fun _ => some_yields _
  | method =>
    rw [expr]
    exact .after fun _ => .after fun _ => .after fun _ => .after fun _ => .after fun _ => some_yields _
  | binary m op left right =>
    cases op with
    | and | or =>
      rw [expr]
      exact .after fun _ => some_yields _
    | _ =>
      rw [expr]
      · exact .after fun _ => .after fun _ => .after fun _ => some_yields _
      all_goals
        intro h
        cases h

end LowerM

namespace Program

/-- An expression that is used as a value in a body that is kept. -/
def UsesValue (p : Program) (options : CheckOptions) (o : Expr TypeVar) : Prop :=
  ∃ k v body place, (p.check options).2.workspace.variants.find? k = some v ∧ v.body = some body ∧
    ∃ n ∈ Expr.nodesOf place body, o ∈ n.2.operands

/-- An expression that is used as a value in a kept body and is lowered without leaving a version, so that unit is
loaded in its place, is of unit type when the check ends, unless it is a declaration. -/
theorem check_lower_unit {p : Program} (hp : p.Fresh) (options : CheckOptions) {o : Expr TypeVar}
    (ho : p.UsesValue options o) (hdeclaration : o.isDeclaration = false) {context : LowerContext} {s s' : Lowering}
    (hlower : LowerM.expr context o s = .ok none s') :
    (p.check options).2.workspace.graph.kind o.note = .unit := by
  obtain ⟨k, v, body, place, hv, hbody, n, hn, ho⟩ := ho
  have hstated : o.Stated (p.check options).2.workspace.graph :=
    (check_accepted hp options hv).operands_stated hbody place n hn o ho
  exact hstated hdeclaration ((LowerM.expr_yields context o).ok hlower rfl)

/-- A procedure that gives back the value of a statement. -/
def givingBack (statement : Expr Unit) : Program :=
  ((empty .modules).add ⟨.single "main", .none, .procedure [] [.giveBack ⟨.none, ()⟩ statement]⟩).2

/-- The statement in the body that is kept. -/
def givenBack (statement : Expr Unit) : Option (Expr TypeVar) :=
  match ((givingBack statement).checkedMain.workspace.variants.find? ⟨0, 0⟩).bind Variant.body with
  | some [.giveBack _ e] => some e
  | _ => none

theorem usesValue_of_givenBack {statement : Expr Unit} {o : Expr TypeVar} (h : givenBack statement = some o) :
    (givingBack statement).UsesValue ⟨[.single "main"], false⟩ o := by
  unfold givenBack at h
  split at h
  · rename_i m e hbody
    cases h
    obtain ⟨v, hv, hbody⟩ := Option.bind_eq_some_iff.1 hbody
    exact ⟨⟨0, 0⟩, v, _, .isolated, hv, hbody, _, List.mem_cons_self, List.mem_singleton_self _⟩
  · cases h

def branching : Expr Unit := .ifElse ⟨.none, ()⟩ (.literal ⟨.none, ()⟩ (.boolean true)) [] []

def branchingKept : Expr TypeVar := .ifElse ⟨.none, ⟨2⟩⟩ (.literal ⟨.none, ⟨1⟩⟩ (.boolean true)) [] []

/-- The branch leaves no version and is of unit type. -/
theorem check_lower_unit_branching : (givingBack branching).Fresh ∧
    (givingBack branching).UsesValue ⟨[.single "main"], false⟩ branchingKept ∧
    ∃ s', LowerM.expr ((givingBack branching).checkedMain.lowering .refusing) branchingKept
        (⟨.empty, [], #[], #[], .empty⟩ : Lowering) = .ok none s' ∧
      (givingBack branching).checkedMain.workspace.graph.kind branchingKept.note = .unit := by
  have hfresh : (givingBack branching).Fresh := add_fresh (empty_fresh _) _
  have huses := usesValue_of_givenBack (show givenBack branching = some branchingKept by cbv)
  obtain ⟨s', hlower⟩ : ∃ s', LowerM.expr ((givingBack branching).checkedMain.lowering .refusing) branchingKept
      (⟨.empty, [], #[], #[], .empty⟩ : Lowering) = .ok none s' := ⟨_, rfl⟩
  exact ⟨hfresh, huses, s', hlower, check_lower_unit hfresh _ huses rfl hlower⟩

def declaring : Expr Unit := .define ⟨.none, ()⟩ "x" false (.literal ⟨.none, ()⟩ (.integer 5))

def declaringKept : Expr TypeVar := .define ⟨.none, ⟨1⟩⟩ "x" false (.literal ⟨.none, ⟨1⟩⟩ (.integer 5))

/-- A declaration that is given back is accepted. It leaves no version and is an integer; what is given back is
unit. -/
theorem check_lower_unit_fails : ((givingBack declaring).check ⟨[.single "main"], false⟩).1 = [] ∧
    (givingBack declaring).UsesValue ⟨[.single "main"], false⟩ declaringKept ∧
    (∃ s', LowerM.expr ((givingBack declaring).checkedMain.lowering .refusing) declaringKept
        (⟨.empty, [], #[], #[], .empty⟩ : Lowering) = .ok none s') ∧
    (givingBack declaring).checkedMain.workspace.graph.kind declaringKept.note = .integer ∧
    ((lower ((givingBack declaring).checkedMain.lowering .refusing)).toOption.map (·.procedures.map Procedure.body)) =
      some [[.op (.load (.integer 5)) [] (some ⟨0, 0⟩), .op (.load .unit) [] (some ⟨1, 0⟩),
        .op .giveBack [⟨1, 0⟩] none]] := by
  have huses := usesValue_of_givenBack (show givenBack declaring = some declaringKept by cbv)
  exact ⟨by cbv, huses, ⟨_, rfl⟩, by cbv, by cbv⟩

end Program
end Monomorph
