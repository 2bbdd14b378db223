import Monomorph.Proofs.Draft.Formed
import Monomorph.Proofs.Solve.Kept

/-! # Procedures settle their types

The body of a kept variant is that of a draft whose constraints were applied one after another in a region of
the draft's own (`Settles`). So all of them hold at the end (`Settles.holds`), and what each of them did can be
said of the types just before and after it (`Settles.applied_at`). -/

namespace Monomorph

open Outcome TypeGraph

/-! ### Applying the constraints of a draft -/

/-- One of some constraints that are applied in order from the types of `g` leads from those of `g₁` to those
of `g₂`. -/
def Constraint.AppliedIn (c : Constraint) (cs : List Constraint) (g g₁ g₂ : TypeGraph) : Prop :=
  ∃ before after, cs = before ++ c :: after ∧ before.forM apply g = .ok () g₁ ∧ c.apply g₁ = .ok () g₂

theorem SolveM.applyAll_ok {cs : List Constraint} {w w' : Workspace} {u : Unit}
    (h : applyAll cs w = .ok u w') : cs.forM Constraint.apply w.graph = .ok u w'.graph := by
  induction cs generalizing w with
  | nil =>
    cases h
    rfl
  | cons c cs ih =>
    obtain ⟨⟨⟩, w₁, hfirst, hrest⟩ := bind_eq_ok_iff.1 h
    refine bind_eq_ok_iff.2 ⟨(), w₁.graph, ?_, ih hrest⟩
    unfold onGraph at hfirst
    dsimp only at hfirst
    split at hfirst <;> cases hfirst
    assumption

/-- The variant `v` of a procedure with the given body was made of the draft `d`, whose constraints led from
the types of `g` to those of `g'`. -/
structure Settles (table : SymbolTable) (symbol : Symbol) (params : List String) (v : Variant)
    (body : List (Expr TypeVar)) (d : Draft) (g g' : TypeGraph) : Prop where
  drafted : ∃ source g₀, symbol.declaration = .procedure params source ∧
    Draft.ofProcedure ⟨table, symbol.path⟩ params source symbol.span g₀ = (.ok d, g)
  applied : d.constraints.forM Constraint.apply g = .ok () g'
  args_eq : v.args = d.args
  returns_eq : v.returns = d.returns
  /-- The body is that of the draft with its usages bound. -/
  bound : ∃ (b : Binder SolveM) (w w' : Workspace), w.graph = g' ∧ b.exprs d.body w = .ok body w'

/-- Every kept variant of a procedure that has a body was settled, and since then types were only sharpened. -/
theorem Accepted.settles {table : SymbolTable} {id : Nat} {v : Variant} {g : TypeGraph}
    (h : Accepted table id v g) {symbol : Symbol} (hsymbol : table.get? id = some symbol)
    {params : List String} (hparams : symbol.declaration.params? = some params) {body : List (Expr TypeVar)}
    (hbody : v.body = some body) :
    ∃ d g₁ g₂, Settles table symbol params v body d g₁ g₂ ∧ g₂.Sharpens g := by
  cases h with
  | bodiless => cases hbody
  | @drafted _ _ d b _ w w₁ w₂ w₃ _ hsymbol' hdraft hdrafted happlied hbound hgraph =>
    cases hsymbol.symm.trans hsymbol'
    cases hbody
    unfold Symbol.draft? at hdraft
    cases hdeclaration : symbol.declaration with
    | procedure params' source =>
      rw [hdeclaration] at hparams hdraft
      cases hparams
      cases hdraft
      exact ⟨d, w₁.graph, w₂.graph, ⟨⟨source, w.graph, hdeclaration, (SolveM.draft_ok hdrafted).1⟩,
        SolveM.applyAll_ok happlied, rfl, rfl, ⟨b, w₂, w₃, rfl, hbound⟩⟩, hgraph⟩
    | moduleVariable =>
      rw [hdeclaration] at hparams
      cases hparams
    | native | external =>
      rw [hdeclaration] at hdraft
      cases hdraft

namespace Settles

variable {table : SymbolTable} {symbol : Symbol} {params : List String} {v : Variant}
  {body : List (Expr TypeVar)} {d : Draft} {g g' : TypeGraph}

theorem regional (h : Settles table symbol params v body d g g') : ∃ s, d.Regional g s := by
  obtain ⟨_, g₀, -, hdrafted⟩ := h.drafted
  exact ⟨g₀.future, Draft.ofProcedure_regional hdrafted⟩

/-- All constraints of the draft hold once they are applied. -/
theorem holds (h : Settles table symbol params v body d g g') : ∀ c ∈ d.constraints, c.Holds g' := by
  obtain ⟨s, hclosed, hconstraints, -⟩ := h.regional
  exact (Constraint.forM_apply_holds hclosed hconstraints h.applied).2

theorem applied_at (h : Settles table symbol params v body d g g') {c : Constraint}
    (hmem : c ∈ d.constraints) :
    ∃ s g₁ g₂, c.AppliedIn d.constraints g g₁ g₂ ∧ g₁.Closed s ∧ (∀ v ∈ c.vars, g₁.Known s v) ∧
      g₂.Narrows g' := by
  obtain ⟨before, after, hsplit⟩ := List.append_of_mem hmem
  obtain ⟨s, hclosed, hconstraints, -⟩ := h.regional
  have happlied := h.applied
  rw [hsplit, List.forM_eq_forM, List.forM_append] at happlied
  rw [hsplit, List.forall_mem_append, List.forall_mem_cons] at hconstraints
  obtain ⟨hbefore, hc, hafter⟩ := hconstraints
  obtain ⟨⟨⟩, g₁, hrun₁, happlied⟩ := bind_eq_ok_iff.1 happlied
  obtain ⟨⟨⟩, g₂, hrun₂, hrun₃⟩ := bind_eq_ok_iff.1 happlied
  obtain ⟨hin₁, -⟩ := Constraint.forM_apply_holds hclosed hbefore hrun₁
  have hknown : ∀ v ∈ c.vars, g₁.Known s v := fun v hv => hin₁.known (hc v hv)
  obtain ⟨hin₂, -⟩ := Constraint.apply_meets hin₁.closed hknown hrun₂
  obtain ⟨hin₃, -⟩ := Constraint.forM_apply_holds hin₂.closed
    (fun c hc v hv => hin₂.known (hin₁.known (hafter c hc v hv))) hrun₃
  exact ⟨s, g₁, g₂, ⟨before, after, hsplit, hrun₁, hrun₂⟩, hin₁.closed, hknown, hin₃.toNarrows⟩

/-- Every expression in the body of the draft is recorded. -/
theorem recorded (h : Settles table symbol params v body d g g') : v.args.length = params.length ∧
    ∀ n ∈ Expr.nodesOf (.ofParams params v.args v.returns) d.body, n.2.Recorded d.records n.1 := by
  obtain ⟨_, _, -, hdrafted⟩ := h.drafted
  rw [h.args_eq, h.returns_eq]
  exact Draft.ofProcedure_recorded hdrafted

/-- A relation that says nothing of the answers while binding. -/
theorem answers_true (b : Binder SolveM) : b.Answers fun _ _ _ => True :=
  ⟨fun _ => trivial, fun _ _ => trivial, fun _ => trivial, fun _ => trivial, fun _ => trivial,
    fun _ _ => trivial⟩

theorem unwraps (h : Settles table symbol params v body d g g') (p : Place) :
    unwrapsOf (Expr.nodesOf p body) = unwrapsOf (Expr.nodesOf p d.body) := by
  obtain ⟨b, _, _, -, hbound⟩ := h.bound
  exact (Binder.exprs_rebinds (answers_true b) d.body hbound).unwraps p

theorem body_eq (h : Settles table symbol params v body d g g') (hbody : Expr.references body = []) :
    body = d.body := by
  obtain ⟨b, _, _, -, hbound⟩ := h.bound
  exact (Binder.exprs_rebinds (answers_true b) d.body hbound).unchanged .isolated hbody

end Settles
end Monomorph
