import Monomorph.Proofs.Code.Typed
import Monomorph.Proofs.Meaning.Programs
import Monomorph.Proofs.Solve.Clean

/-! # Checked programs are lowered to well-typed code

A check that finds no error and rejects no candidate ends with types in which every kept body is well-typed, and
lowering keeps it so: all code of the lowered program is well-typed in the types that the check ends with
(`Program.check_lower_wellTyped`). -/

namespace Monomorph

open Outcome

/-- The code of a procedure is well-typed where all nodes of the body that it comes from are. -/
theorem LowerM.LoweredFrom.wellTyped {ty : Typing} {context : LowerContext} {table : List Constant} {path : Path}
    {params : List String} {i : Nat} {v : Variant} {body : List (Expr TypeVar)} {code : Procedure}
    (h : LoweredFrom context table path params i v body code) (hcontext : context.graph = ty.graph)
    (hargs : v.args.length = params.length)
    (hnodes : ∀ n ∈ Expr.nodesOf (.ofParams params v.args v.returns) body, TypedNode ty n) : code.WellTyped ty := by
  -- There is no body around that of a procedure.
  have hplace : (⟨some v.returns, (params.zip v.args).reverse ++ []⟩ : Place) = .ofParams params v.args v.returns :=
    congrArg _ (List.append_nil _)
  have hlowers : LowersTyped ty ⟨v.returns, []⟩ ⟨some v.returns, (params.zip v.args).reverse ++ []⟩ _
      (fun _ => True) (exprs context body) fun _ _ => True :=
    exprs_typed hcontext body rfl (hplace ▸ hnodes)
  obtain ⟨s, s', hrun, -⟩ := h.code
  obtain ⟨hslots, hcode⟩ := inBody_wellTyped hargs (fun _ _ => id) hlowers hrun
  exact ⟨h.args_eq ▸ hslots, h.returns_eq ▸ hcode⟩

namespace Program

/-- A call agrees with a kept variant: it has an argument for each parameter if the variant has a body, and the
types of arguments and result are those of the variant. -/
def FitsKept (p : Program) : Calls := fun path i args returns =>
  ∃ id v, p.symbols.lookup path = some id ∧ p.workspace.variants.find? ⟨id, i⟩ = some v ∧
    (v.body ≠ none → v.args.length = args.length) ∧
    (∀ a ∈ v.args.zip args, p.workspace.graph.Same a.1 a.2) ∧ p.workspace.graph.Same v.returns returns

/-- The code of a body with these unwraps is checked against the types and the variants that a program ends
with. -/
def typing (p : Program) (unwraps : List Unwrap) : Typing := ⟨p.workspace.graph, p.FitsKept, unwraps⟩

/-- The places and expressions in the body of a variant of a procedure. -/
def bodyNodes (params : List String) (v : Variant) (body : List (Expr TypeVar)) : List (Place × Expr TypeVar) :=
  Expr.nodesOf (.ofParams params v.args v.returns) body

/-- A lowered procedure is that of a kept variant of a procedure. -/
structure Keeps (p : Program) (code : Procedure) (params : List String) (v : Variant)
    (body : List (Expr TypeVar)) : Prop where
  kept : ∃ k symbol, p.workspace.variants.find? k = some v ∧ p.symbols.get? k.symbol = some symbol ∧
    symbol.declaration.params? = some params ∧ code.path = symbol.path ∧ code.variant = k.variant
  body_eq : v.body = some body
  args_eq : code.args = v.args
  returns_eq : code.returns = v.returns

/-- Nothing is being solved any more when a check ends, so a call that fits goes to a kept variant. -/
theorem fitsKept_of_fitsVariant {p : Program} (hfresh : p.Fresh) (options : CheckOptions) {path : Path} {i : Nat}
    {args : List TypeVar} {returns : TypeVar}
    (h : FitsVariant (p.check options).2.symbols [] (p.check options).2.workspace path i args returns) :
    (p.check options).2.FitsKept path i args returns := by
  obtain ⟨id, symbol, params, calleeArgs, calleeReturns, h⟩ := h
  rcases h.offers with ⟨v, hv, rfl, rfl⟩ | ⟨a, ha, -⟩
  · refine ⟨id, v, h.lookup, hv, fun hbody => ?_, h.args, h.returns⟩
    obtain ⟨body, hbody⟩ := Option.ne_none_iff_exists'.1 hbody
    obtain ⟨d, g, g', hsettles, -⟩ := (check_accepted hfresh options hv).settles h.found h.declared hbody
    exact hsettles.recorded.1.trans h.length.symm
  · cases ha

/-- A program without errors and without rejected candidates is lowered to well-typed code: all code of the
procedures, and that of the closures in it, in the types that the check ends with. -/
theorem check_lower_wellTyped {p : Program} (hp : p.Regular) (options : CheckOptions)
    (hcheck : (p.check options).1 = []) (hrejects : p.RejectsNone options) {evaluate : Evaluator} {m : Module}
    (hlower : lower ((p.check options).2.lowering evaluate) = .ok m) :
    ∀ code ∈ m.procedures, ∃ params v body, (p.check options).2.Keeps code params v body ∧
      code.WellTyped ((p.check options).2.typing (unwrapsOf (bodyNodes params v body))) := by
  intro code hcode
  obtain ⟨id, symbol, params, i, v, body, table, hsymbol, hparams, hv, hbody, hfrom⟩ :=
    loweredFrom_of_mem hlower hcode
  have hkept : (p.check options).2.workspace.variants.find? ⟨id, i⟩ = some v := hv
  have hsound := check_sound hp hcheck hrejects
  obtain ⟨d, g, g', hsettles, -⟩ := (check_accepted hp.fresh options hkept).settles hsymbol hparams hbody
  refine ⟨params, v, body, ⟨⟨⟨id, i⟩, symbol, hkept, hsymbol, hparams, hfrom.path_eq, hfrom.variant_eq⟩, hbody,
    hfrom.args_eq, hfrom.returns_eq⟩, ?_⟩
  have hnodes : ∀ n ∈ bodyNodes params v body,
      TypedNode ((p.check options).2.typing (unwrapsOf (bodyNodes params v body))) n := fun n hn =>
    ⟨(hsound.typed hkept hbody hsymbol hparams n hn).mono (.refl _) fun _ _ _ _ hcall =>
      fitsKept_of_fitsVariant hp.fresh options hcall, fun u hu => List.mem_filterMap.2 ⟨n, hn, hu⟩⟩
  exact hfrom.wellTyped rfl hsettles.recorded.1 hnodes

/-- A procedure whose closure calls another procedure and uses an argument from outside, and which gives an
argument back as it is if that is not the variant that it unwraps. -/
def twicing : Program :=
  let m : Mark Unit := ⟨.none, ()⟩
  let var (name : String) : Expr Unit := .name m (.single name)
  let declare (p : Program) (name : String) (params : List String) (body : List (Expr Unit)) : Program :=
    (p.add ⟨.single name, .none, .procedure params body⟩).2
  declare
    (declare (empty .modules) "twice" ["n"] [.giveBack m (.binary m .add (var "n") (var "n"))])
    "main" ["xs", "x"]
    [.define m "f" false (.closure m ["a"] [.giveBack m (.binary m .add
        (.call m (var "twice") [var "a"]) (.element m (var "xs") (.literal m (.integer 0))))] none),
      .giveBack m (.variant m "ok" (.call m (var "f") [.unwrap m (var "x") "some"]))]

/-- It is checked without errors, and both procedures are lowered. -/
theorem check_lower_wellTyped_twicing : twicing.Regular ∧ (twicing.check ⟨[.single "main"], false⟩).1 = [] ∧
    twicing.RejectsNone ⟨[.single "main"], false⟩ ∧ ∃ m, lower (twicing.checkedMain.lowering .refusing) = .ok m ∧
      m.procedures.length = 2 ∧ ∀ code ∈ m.procedures, ∃ params v body,
        twicing.checkedMain.Keeps code params v body ∧
          code.WellTyped (twicing.checkedMain.typing (unwrapsOf (bodyNodes params v body))) := by
  have hregular : twicing.Regular :=
    add_regular (add_regular (empty_regular _) (by decide) (by exact nofun)) (by decide) nofun
  have hcheck : (twicing.check ⟨[.single "main"], false⟩).1 = [] := by cbv
  have hrejects : twicing.RejectsNone ⟨[.single "main"], false⟩ := by
    unfold RejectsNone
    cbv
  have hlower : (lower (twicing.checkedMain.lowering .refusing)).toOption.map (·.procedures.length) = some 2 := by
    cbv
  cases hm : lower (twicing.checkedMain.lowering .refusing) with
  | ok m =>
    rw [hm] at hlower
    exact ⟨hregular, hcheck, hrejects, m, rfl, Option.some.inj hlower,
      check_lower_wellTyped hregular _ hcheck hrejects hm⟩
  | error e =>
    rw [hm] at hlower
    cases hlower

end Program
end Monomorph
