import Mathlib
import Monomorph.Proofs.Solve.Checked
import Monomorph.Proofs.Solve.Stacking
import Monomorph.Type.Graph.Fold

/-! # The verdict on a symbol

Solving a symbol to be kept and solving it only for its errors are meant to give the same verdict: the same
signature or the same error. In a program of procedures they do (`solveSymbol_verdict`), and what was solved before
makes no difference to the verdict either (`solveSymbol_alone`). A module variable is solved once if it is kept, and
all its uses share one type; if it is not, every use has types of its own, and uses that contradict one another go
unnoticed (`verdict_sharing`). -/

namespace Monomorph

open Outcome

/-- How solving a symbol ended: an error, or the types of its signature as they are displayed. -/
def verdict : EStateM.Result TypeError Workspace Solved → Except TypeError (List String × String)
  | .ok solved w => .ok (solved.args.map w.graph.display, w.graph.display solved.returns)
  | .error e _ => .error e

theorem verdict_eq {base : TypeGraph} {arity : Nat} {r r' : EStateM.Result TypeError Workspace Solved}
    (h : Matched (Workspace.Atop base) (Workspace.Atop base) (SameSignature base arity) r r') :
    verdict r = verdict r' := by
  cases h with
  | ok hsolved htypes =>
    simp only [verdict, hsolved.args, hsolved.returns, htypes.graph, List.map_map, Function.comp_def,
      TypeGraph.display_atop]
  | error => rfl

section verdict

variable {N : Nat → Nat → Prop} {table table' : SymbolTable} {base : TypeGraph} {w w' : Workspace} {id id' : Nat}

/-- The verdict is the same on top of another graph and under other numbers. -/
theorem solveSymbol_atop (htables : table.Renumbers N table') (hprocedural : table.Procedural)
    (hfitting : base.size = 0 ∨ table.Fitting) (keep keep' : Bool) (hid : N id id')
    (hw : w'.graph = w.graph.atop base) :
    verdict (solveSymbol table keep id w) = verdict (solveSymbol table' keep' id' w') := by
  unfold solveSymbol
  rw [← htables.symbol hid]
  exact verdict_eq ((solve_above htables hprocedural hfitting keep keep' .nil _ hid).run ⟨hw⟩)

/-- The verdict on a symbol that is solved before all others. -/
def SymbolTable.verdictOn (table : SymbolTable) (id : Nat) : Except TypeError (List String × String) :=
  verdict (solveSymbol table false id ⟨.empty, #[]⟩)

/-- In a program of procedures, the verdict on a symbol is the same whatever was solved before. -/
theorem solveSymbol_alone (htables : table.Renumbers N table') (hprocedural : table.Procedural)
    (hfitting : table.Fitting) (keep : Bool) (hid : N id id') (w : Workspace) :
    verdict (solveSymbol table' keep id' w) = table.verdictOn id :=
  (solveSymbol_atop htables hprocedural (.inr hfitting) false keep hid w.graph.empty_atop.symm).symm

end verdict

/-- In a program of procedures, solving a symbol gives the same verdict whether its variants are to be kept or not,
and whatever variants were kept before. -/
theorem solveSymbol_verdict {table : SymbolTable} (htable : table.Procedural) (keep keep' : Bool) (id : Nat)
    {w w' : Workspace} (h : w.graph = w'.graph) :
    verdict (solveSymbol table keep id w) = verdict (solveSymbol table keep' id w') :=
  solveSymbol_atop table.renumbers_refl htable (.inl rfl) keep keep' rfl (h.symm.trans w.graph.atop_empty.symm)

open Program in
/-- A procedure that calls itself through another one. -/
theorem solveSymbol_verdict_callingBack : callingBack.symbols.Procedural ∧
    verdict (solveSymbol callingBack.symbols true 0 callingBack.workspace) =
      verdict (solveSymbol callingBack.symbols false 0 callingBack.workspace) := by
  have hprocedural : callingBack.symbols.Procedural := by
    have hall : callingBack.symbols.symbols.all (fun s => s.declaration.isProcedure) = true := by cbv
    exact fun s hs => Array.all_eq_true'.1 hall s hs
  exact ⟨hprocedural, solveSymbol_verdict hprocedural true false 0 rfl⟩

/-- An empty array in a module variable, used with numbers and with texts. -/
def sharing : Program :=
  let m : Mark Unit := ⟨.none, ()⟩
  let first : Expr Unit := .element m (.name m (.single "xs")) (.literal m (.integer 0))
  (((Program.empty .modules).add ⟨.single "xs", .none, .moduleVariable (.array m [])⟩).2.add
    ⟨.single "main", .none, .procedure []
      [.define m "next" false (.binary m .add first (.literal m (.integer 1))),
        .giveBack m (.binary m .equal first (.literal m (.string "s")))]⟩).2

/-- If the variable is kept, its uses contradict one another. If it is not, each of them has an array of its own. -/
theorem verdict_sharing : sharing.Fresh ∧
    verdict (solveSymbol sharing.symbols false 1 sharing.workspace) = .ok ([], "bool") ∧
      verdict (solveSymbol sharing.symbols true 1 sharing.workspace) =
        .error (.single .none (.incompatible "a string" "an integer" (some .none) (some .none) [.element])) :=
  ⟨by cbv, by cbv, by cbv⟩

end Monomorph
