import Mathlib
import Monomorph.Proofs.Solve.Candidates
import Monomorph.Proofs.Solve.Confining
import Monomorph.Proofs.Solve.Orders

/-! # A trial predicts the commit

Before a candidate of a call is bound, copies of the types involved are unified in its place (`SolveM.trial`). Where
the native procedures of a table take as many arguments as they declare parameters (`SymbolTable.Exact`, as the core
symbols do), the trial is the unification of these copies, so it predicts how unifying the call itself ends and
nothing can fail after it.

Main statement: `SolveM.trial_predicts`. -/

namespace Monomorph

open Outcome TypeGraph

/-- A native procedure takes as many arguments as it declares parameters. -/
def Declaration.Exact : Declaration → Prop
  | .native params n => n.args.length = params.length
  | _ => True

instance : DecidablePred Declaration.Exact
  | .native .. => inferInstanceAs (Decidable (_ = _))
  | .procedure .. | .moduleVariable .. | .external .. => instDecidableTrue

/-- Every native procedure takes as many arguments as it declares parameters. -/
def SymbolTable.Exact (table : SymbolTable) : Prop := ∀ s ∈ table.symbols, s.declaration.Exact

theorem SymbolTable.Exact.fitting {table : SymbolTable} (h : table.Exact) : table.Fitting := by
  intro s hs
  have hexact := h s hs
  cases hdeclaration : s.declaration with
  | native params n =>
    rw [hdeclaration] at hexact
    exact Nat.le_of_eq hexact
  | _ => trivial

theorem core_exact : ∀ s ∈ Core.symbols, s.declaration.Exact := by
  decide

/-- A symbol that is solved has an argument for each parameter. -/
theorem Solving.length_eq {table : SymbolTable} {keep : Bool} {stack : List Activation} {request : Request} {id : Nat}
    {w w' : Workspace} {solved : Solved} (h : Solving table keep stack request id w solved w') (hexact : table.Exact)
    (hstack : ∀ a ∈ stack, a.solved.args.length = table.arity a.symbol) : solved.args.length = table.arity id := by
  have hnone {symbol : Symbol} (hsymbol : table.get? id = some symbol) (hsuits : Request.moduleVariable.Suits symbol) :
      table.arity id = 0 := by
    have hparams : symbol.declaration.params? = none :=
      Option.isNone_iff_eq_none.1 (Option.isSome_eq_false_iff.1 hsuits)
    rw [SymbolTable.arity, hsymbol, Option.bind_some, hparams]
    rfl
  cases h with
  | reused ha => exact hstack _ ha
  | known hsymbol hsuits => exact (hnone hsymbol hsuits).symm
  | bodiless hsymbol _ hsuits _ hmade =>
    cases hmade with
    | native hdeclaration hsignature =>
      cases hsignature
      have hexact := hexact _ (Array.mem_of_getElem? hsymbol)
      rw [hdeclaration] at hexact
      rw [table.arity_eq hsymbol (by rw [hdeclaration]; rfl), ← (show _ = _ from hexact)]
      exact List.length_map ..
    | external => exact (hnone hsymbol hsuits).symm
  | drafted hsymbol _ _ _ hdraft hdrafted => exact Symbol.draft_length hsymbol hdraft (SolveM.draft_ok hdrafted).1

namespace SolveM

/-- The solver for the candidates of a use. -/
abbrev candidateSolver (table : SymbolTable) (keep : Bool) (stack : List Activation) (usage : ProcedureUsage) :
    Nat → SolveM Solved :=
  fun id => solve table keep stack (.procedure (some usage.span)) id

/-- A symbol is solved for a call with as many arguments as it has parameters, with the symbols on the stack being
solved. -/
structure SolvedFor (table : SymbolTable) (keep : Bool) (stack : List Activation) (usage : ProcedureUsage) (id : Nat)
    (w : Workspace) (solved : Solved) (w' : Workspace) : Prop where
  active : ∀ a ∈ stack, a.solved.args.length = table.arity a.symbol
  arity : table.arity id = usage.args.length
  result : candidateSolver table keep stack usage id w = .ok solved w'

theorem SolvedFor.length_eq {table : SymbolTable} {keep : Bool} {stack : List Activation} {usage : ProcedureUsage}
    {id : Nat} {w w' : Workspace} {solved : Solved} (h : SolvedFor table keep stack usage id w solved w')
    (hexact : table.Exact) : solved.args.length = usage.args.length :=
  ((solving_of_ok h.result).length_eq hexact h.active).trans h.arity

/-- **A trial on copies predicts the commit.** Copies of the types of any call and any signature are unified as these
would be, and nothing that was there is disturbed; the trial of a candidate is this unification, so a candidate is
never refused after a trial that succeeds. -/
theorem trial_predicts {usage : ProcedureUsage} {solved : Solved} {w : Workspace} (hg : w.graph.WellFormed)
    (hknown : ∀ v ∈ involved usage solved, v.index < w.graph.size) :
    Predicts usage solved w ∧
      ∀ {table keep stack id w₀}, table.Exact → SolvedFor table keep stack usage id w₀ solved w →
        trial usage solved = unifyCopies usage solved ∧
          ∀ w', trial usage solved w = .ok () w' →
            ∃ w'', commit usage solved w' = .ok () w'' ∧
              attempt usage (candidateSolver table keep stack usage) id w₀ = .ok solved.variant w'' := by
  have hpredicts := unifyCopies_predicts hg hknown
  refine ⟨hpredicts, fun {table keep stack id w₀} hexact hsolved => ?_⟩
  have hlength := hsolved.length_eq hexact
  refine ⟨trial_eq hlength, fun w' htrial => ?_⟩
  obtain ⟨w'', hcommit, haccepted⟩ := hpredicts.accepted hlength w' htrial
  refine ⟨w'', hcommit, bind_eq_ok_iff.2 ⟨solved, w, hsolved.result, ?_⟩⟩
  exact bind_eq_ok_iff.2 ⟨(), w'', haccepted, rfl⟩

/-- A procedure that gives back its argument. -/
def echo : Symbol := ⟨.single "echo", .none, .procedure ["x"] [.giveBack ⟨.none, ()⟩ (.name ⟨.none, ()⟩ (.single "x"))]⟩

/-- The procedure and the core symbols. -/
def echoing : SymbolTable := ((Program.ofSymbols .modules [echo]).prepared ⟨[], true⟩).symbols

theorem echoing_exact : echoing.Exact := by
  refine Program.prepared_forall (fun s hs => ?_) core_exact _
  rw [Program.ofSymbols_symbols .modules (by decide)] at hs
  obtain rfl : s = echo := by simpa using hs
  trivial

/-- A call of the procedure with a string. -/
def echoUsage : ProcedureUsage := ⟨.single "echo", .call, [⟨0⟩], [.none], ⟨1⟩, .none⟩

def echoCalled : Workspace := ⟨⟨#[.root ⟨.string, none⟩, .root Ty.any]⟩, #[]⟩

/-- The types of the procedure are added; its argument and what it gives back share one. -/
def echoSolved : Workspace :=
  ⟨⟨#[.root ⟨.string, none⟩, .root Ty.any, .root Ty.any, .link 2, .root ⟨.unit, some .none⟩]⟩, #[]⟩

theorem echo_solvedFor : SolvedFor echoing false [] echoUsage 0 echoCalled ⟨0, [⟨2⟩], ⟨3⟩⟩ echoSolved :=
  ⟨nofun, by cbv, by cbv⟩

theorem echo_commits : ∃ w', commit echoUsage ⟨0, [⟨2⟩], ⟨3⟩⟩ echoSolved = .ok () w' := by
  have hcommits : (match commit echoUsage ⟨0, [⟨2⟩], ⟨3⟩⟩ echoSolved with
      | .ok .. => true
      | .error .. => false) = true := by cbv
  generalize commit echoUsage ⟨0, [⟨2⟩], ⟨3⟩⟩ echoSolved = result at hcommits ⊢
  cases result with
  | ok u w' => exact ⟨w', rfl⟩
  | error e w' => cases hcommits

/-- The procedure is solved for the call, accepted by its trial and bound. -/
theorem trial_predicts_echo :
    echoSolved.graph.WellFormed ∧ (∀ v ∈ involved echoUsage ⟨0, [⟨2⟩], ⟨3⟩⟩, v.index < echoSolved.graph.size) ∧
      echoing.Exact ∧ SolvedFor echoing false [] echoUsage 0 echoCalled ⟨0, [⟨2⟩], ⟨3⟩⟩ echoSolved ∧
      Predicts echoUsage ⟨0, [⟨2⟩], ⟨3⟩⟩ echoSolved ∧
      ∃ w'', attempt echoUsage (candidateSolver echoing false [] echoUsage) 0 echoCalled = .ok 0 w'' := by
  have hg : echoSolved.graph.WellFormed := wellFormed_of_cells (by decide)
  have hknown : ∀ v ∈ involved echoUsage ⟨0, [⟨2⟩], ⟨3⟩⟩, v.index < echoSolved.graph.size := by decide
  obtain ⟨hpredicts, haccepts⟩ := trial_predicts hg hknown
  obtain ⟨htrial, haccepts⟩ := haccepts echoing_exact echo_solvedFor
  obtain ⟨w', hcopies⟩ := (hpredicts.outcome echoSolved List.mem_cons_self).2 echo_commits
  obtain ⟨w'', -, hbound⟩ := haccepts w' ((congrFun htrial echoSolved).trans hcopies)
  exact ⟨hg, hknown, echoing_exact, echo_solvedFor, hpredicts, w'', hbound⟩

end SolveM
end Monomorph
