import Monomorph.Proofs.Solve.Comparing
import Monomorph.Proofs.Solve.Solving

/-! # Solving that rejects no candidate

A candidate that is rejected leaves its changes to the types behind. Symbols are solved *outright* if nothing
is: every call is bound to the first candidate that has as many parameters as the call has arguments, and that
candidate is solved outright in turn (`solvesOutright`). This is a question about a run, so it is asked of a
binder that binds nothing else (`outrightBinder`); where it succeeds, it answers as the solver does
(`bound_of_outright`). -/

namespace Monomorph

open Outcome

namespace SolveM

variable {α β : Type} {w w' : Workspace}

def succeeds (x : SolveM α) (w : Workspace) : Bool :=
  match x w with
  | .ok .. => true
  | .error .. => false

theorem succeeds_iff {x : SolveM α} : succeeds x w = true ↔ ∃ a w', x w = .ok a w' := by
  unfold succeeds
  cases x w <;> simp

/-- A computation that is only run where something is known of the workspace. -/
def provided (c : Workspace → Bool) (x : SolveM α) : SolveM α := fun w =>
  if c w then x w else .error default w

theorem provided_eq_ok_iff {c : Workspace → Bool} {x : SolveM α} {a : α} :
    provided c x w = .ok a w' ↔ c w = true ∧ x w = .ok a w' := by
  unfold provided
  split
  · rename_i h
    rw [h, eq_self, true_and]
  · rename_i h
    simp [h]

/-- The full paths of the candidates of a use, the least specific first. -/
def candidates (table : SymbolTable) (user : Path) (usage : ProcedureUsage) : List Path :=
  match usage.kind with
  | .call => table.expand usage.path user
  | .reference => [usage.path]

/-- A candidate that is a procedure and has as many parameters as a use has arguments. -/
def fitting? (table : SymbolTable) (usage : ProcedureUsage) (candidate : Path) : Option (Path × Nat) := do
  let id ← table.lookup candidate
  let symbol ← table.get? id
  let params ← symbol.declaration.params?
  if params.length = usage.args.length then return (candidate, id) else none

/-- Bind a use of a procedure to the first candidate that fits. -/
def bindFirst (table : SymbolTable) (user : Path) (solve : Nat → Span → SolveM Solved)
    (usage : ProcedureUsage) : SolveM Target :=
  match (candidates table user usage).reverse.findSome? (fitting? table usage) with
  | none => throw (.single usage.span (.unknownSymbol usage.path))
  | some (path, id) => do
    let solved ← solve id usage.span
    acceptCall usage solved
    return .resolved path solved.variant

end SolveM

/-- Answers for the usages in a body by a solver, where calls are bound to the first candidate that fits. -/
def firstBinder (table : SymbolTable) (user : Path) (usages : Usages)
    (solve : Request → Nat → SolveM Solved) : Binder SolveM :=
  ⟨SolveM.bindFirst table user fun id usage => solve (.procedure (some usage)) id,
    SolveM.bindGlobal table (solve .moduleVariable), table.paramsOf, usages⟩

/-- Whether a symbol is solved, in a workspace and while others are being solved, without that a candidate is
rejected for any call on the way. Where nothing has to be bound, nothing is rejected. -/
def solvesOutright (table : SymbolTable) (keep : Bool) (stack : List Activation) (request : Request)
    (id : Nat) (w : Workspace) : Bool :=
  match _hid : table.get? id with
  | none => true
  | some symbol =>
    if _hstack : id ∈ busy stack then true
    else if request = .moduleVariable ∧ w.variants.ofSymbol id ≠ [] then true
    else
      match symbol.draft? table with
      | none => true
      | some draft =>
        match SolveM.draft draft w with
        | .error .. => true
        | .ok d w₁ =>
          match SolveM.applyAll d.constraints w₁ with
          | .error .. => true
          | .ok _ w₂ =>
            let stack' := ⟨id, (w.variants.ofSymbol id).length, d.args, d.returns⟩ :: stack
            SolveM.succeeds
              (Binder.exprs (firstBinder table symbol.path d.usages fun request' id' =>
                SolveM.provided (solvesOutright table keep stack' request' id')
                  (solve table keep stack' request' id')) d.body) w₂
termination_by remaining table.size fun i => decide (i ∉ busy stack)
decreasing_by
  have hid : id < table.size := (Array.getElem?_eq_some_iff.1 _hid).1
  refine remaining_lt hid (decide_eq_true _hstack) (by simp [busy]) fun i _ hi => ?_
  have h := of_decide_eq_true hi
  exact decide_eq_true fun hmem => h (List.mem_cons_of_mem _ hmem)

/-- The answers of the solver for the usages in a body, where it rejects no candidate. -/
def outrightBinder (table : SymbolTable) (keep : Bool) (stack : List Activation) (user : Path)
    (usages : Usages) : Binder SolveM :=
  firstBinder table user usages fun request id =>
    SolveM.provided (solvesOutright table keep stack request id) (solve table keep stack request id)

/-! ### Agreement with the solver -/

/-- Where the first binder answers, the second one answers the same. -/
abbrev Binder.Foresees (b b' : Binder SolveM) : Prop := b.Alike .approximating b'

theorem Binder.Foresees.exprs {b b' : Binder SolveM} (h : b.Foresees b') (es : List (Expr TypeVar)) :
    Approximates Eq (b.exprs es) (b'.exprs es) :=
  (h.answering (fun _ => .refl _) fun _ _ => .throw).compares (fun _ => True)
    |>.exprs_eq (p := .isolated) fun _ _ => trivial

namespace SolveM

variable {table : SymbolTable} {user : Path}

theorem fitting?_eq_some_iff {usage : ProcedureUsage} {candidate path : Path} {id : Nat} :
    fitting? table usage candidate = some (path, id) ↔ candidate = path ∧ table.lookup path = some id ∧
      ∃ symbol params, table.get? id = some symbol ∧ symbol.declaration.params? = some params ∧
        params.length = usage.args.length := by
  unfold fitting?
  constructor
  · intro h
    obtain ⟨id', hid, h⟩ := Option.bind_eq_some_iff.1 h
    obtain ⟨symbol, hsymbol, h⟩ := Option.bind_eq_some_iff.1 h
    obtain ⟨params, hparams, h⟩ := Option.bind_eq_some_iff.1 h
    split at h
    · cases h
      exact ⟨rfl, hid, symbol, params, hsymbol, hparams, by assumption⟩
    · cases h
  · rintro ⟨rfl, hid, symbol, params, hsymbol, hparams, hlength⟩
    simp [hid, hsymbol, hparams, hlength]

theorem orRollback_of_ok {α : Type} {x : SolveM α} {a : α} {w w' : Workspace} (h : x w = .ok a w') :
    orRollback x w = .ok (.ok a) w' := by
  refine get_bind_eq_ok_iff.2 ⟨_, rfl, ?_⟩
  rw [h]

/-- A failure is caught; the types stay as it left them. -/
theorem orRollback_of_error {α : Type} {x : SolveM α} {e : TypeError} {w w₁ : Workspace} (h : x w = .error e w₁) :
    orRollback x w = .ok (.error e) ⟨w₁.graph, w₁.variants.rollback w.variants.watermark⟩ := by
  refine get_bind_eq_ok_iff.2 ⟨_, rfl, ?_⟩
  rw [h]

/-- Candidates that do not fit are passed over, and the first that fits is bound if it accepts. -/
theorem tryCandidates_of_first {usage : ProcedureUsage} (solve : Nat → SolveM Solved) {l : List Path}
    {path : Path} {id : Nat} {solved : Solved} {w w₁ w' : Workspace} {u : Unit}
    (hfirst : l.findSome? (fitting? table usage) = some (path, id)) (hsolve : solve id w = .ok solved w₁)
    (haccept : acceptCall usage solved w₁ = .ok u w') :
    ∃ trial, tryCandidates table usage solve l w = .ok trial w' ∧
      trial.bound = some (.resolved path solved.variant) := by
  induction l with
  | nil => cases hfirst
  | cons candidate rest ih =>
    rw [List.findSome?_cons] at hfirst
    rw [tryCandidates]
    cases hfitting : fitting? table usage candidate with
    | some found =>
      rw [hfitting] at hfirst
      cases hfirst
      obtain ⟨rfl, hid, symbol, params, hsymbol, hparams, hlength⟩ := fitting?_eq_some_iff.1 hfitting
      have hfound : ((table.lookup candidate).bind fun id => (table.get? id).map fun s => (id, s)) =
          some (id, symbol) := by
        rw [hid, Option.bind_some, hsymbol, Option.map_some]
      simp only [hfound, hparams, hlength, ne_eq, not_true_eq_false, if_false]
      refine ⟨⟨some (.resolved candidate solved.variant), [candidate], []⟩, bind_eq_ok_iff.2 ?_, rfl⟩
      refine ⟨.ok solved.variant, w', orRollback_of_ok (bind_eq_ok_iff.2 ⟨solved, w₁, hsolve, ?_⟩), rfl⟩
      exact bind_eq_ok_iff.2 ⟨u, w', haccept, rfl⟩
    | none =>
      rw [hfitting] at hfirst
      obtain ⟨trial, htrial, hbound⟩ := ih hfirst
      cases hfound : (table.lookup candidate).bind fun id => (table.get? id).map fun s => (id, s) with
      | none => exact ⟨trial, htrial, hbound⟩
      | some found =>
        obtain ⟨id', symbol⟩ := found
        cases hparams : symbol.declaration.params? with
        | none =>
          simp only [hparams]
          exact ⟨trial, htrial, hbound⟩
        | some params =>
          have hlength : params.length ≠ usage.args.length := by
            intro hlength
            obtain ⟨hid, hsymbol⟩ := SymbolTable.eq_some_of_found hfound
            cases hfitting.symm.trans (fitting?_eq_some_iff.2 ⟨rfl, hid, symbol, params, hsymbol, hparams, hlength⟩)
          simp only [hparams, if_pos hlength]
          exact ⟨_, bind_eq_ok_iff.2 ⟨trial, w', htrial, rfl⟩, hbound⟩

/-- A call that its first fitting candidate accepts is bound to it. -/
theorem bindFirst_foreseen {solve solve' : Nat → Span → SolveM Solved}
    (hsolve : ∀ id span, Approximates Eq (solve id span) (solve' id span)) (usage : ProcedureUsage) :
    Approximates Eq (bindFirst table user solve usage) (bindCall table user solve' usage) where
  ok {w target w'} h := by
    rw [bindFirst] at h
    cases hfirst : (candidates table user usage).reverse.findSome? (fitting? table usage) with
    | none =>
      rw [hfirst] at h
      exact (throw_eq_ok_iff.1 h).elim
    | some found =>
      obtain ⟨path, id⟩ := found
      rw [hfirst] at h
      obtain ⟨solved, w₁, hsolved, h⟩ := bind_eq_ok_iff.1 h
      obtain ⟨u, w₂, haccept, h⟩ := bind_eq_ok_iff.1 h
      obtain ⟨rfl, rfl⟩ := pure_eq_ok_iff.1 h
      obtain ⟨solved', hsolved', rfl⟩ := (hsolve id usage.span).ok hsolved
      obtain ⟨trial, htrial, hbound⟩ := tryCandidates_of_first (fun id => solve' id usage.span) hfirst hsolved' haccept
      refine ⟨_, bind_eq_ok_iff.2 ⟨trial, w₂, htrial, ?_⟩, rfl⟩
      rw [hbound]
      rfl

theorem bindGlobal_foreseen {solve solve' : Nat → SolveM Solved}
    (hsolve : ∀ id, Approximates Eq (solve id) (solve' id)) (usage : VariableUsage) :
    Approximates Eq (bindGlobal table solve usage) (bindGlobal table solve' usage) := by
  unfold bindGlobal
  split
  · exact .refl _
  · exact .bind (hsolve _) fun h => h ▸ .refl _

end SolveM

theorem provided_foreseen (table : SymbolTable) (keep : Bool) (stack : List Activation) (request : Request)
    (id : Nat) : Approximates Eq (SolveM.provided (solvesOutright table keep stack request id)
      (solve table keep stack request id)) (solve table keep stack request id) :=
  ⟨fun h => ⟨_, (SolveM.provided_eq_ok_iff.1 h).2, rfl⟩⟩

/-- Where a body is bound without that a candidate is rejected, the solver binds it in the same way. -/
theorem outrightBinder_foreseen (table : SymbolTable) (keep : Bool) (stack : List Activation) (user : Path)
    (usages : Usages) :
    (outrightBinder table keep stack user usages).Foresees (solvingBinder table keep stack user usages) where
  procedure usage := SolveM.bindFirst_foreseen (fun id _ => provided_foreseen table keep stack _ id) usage
  moduleVariable usage := SolveM.bindGlobal_foreseen (fun id => provided_foreseen table keep stack _ id) usage
  params := rfl
  usages := rfl

/-- The body of a symbol that is solved outright is bound without that a candidate is rejected. -/
theorem bound_of_outright {table : SymbolTable} {keep : Bool} {stack : List Activation} {request : Request}
    {id : Nat} {symbol : Symbol} {draft : TypeGraph → Except TypeError Draft × TypeGraph} {d : Draft}
    {body : List (Expr TypeVar)} {w w₁ w₂ w₃ : Workspace} (h : solvesOutright table keep stack request id w = true)
    (hsymbol : table.get? id = some symbol) (hfree : id ∉ busy stack)
    (hknown : request = .moduleVariable → w.variants.ofSymbol id = []) (hdraft : symbol.draft? table = some draft)
    (hdrafted : SolveM.draft draft w = .ok d w₁) (happlied : SolveM.applyAll d.constraints w₁ = .ok () w₂)
    (hbound : Binder.exprs (solvingBinder table keep
      (⟨id, (w.variants.ofSymbol id).length, d.args, d.returns⟩ :: stack) symbol.path d.usages)
      d.body w₂ = .ok body w₃) :
    Binder.exprs (outrightBinder table keep
      (⟨id, (w.variants.ofSymbol id).length, d.args, d.returns⟩ :: stack) symbol.path d.usages)
      d.body w₂ = .ok body w₃ := by
  rw [solvesOutright] at h
  split at h
  · rename_i hnone
    cases hsymbol.symm.trans hnone
  rename_i symbol' hsymbol'
  cases hsymbol.symm.trans hsymbol'
  rw [dif_neg hfree, if_neg fun h => h.2 (hknown h.1)] at h
  simp only [hdraft, hdrafted, happlied] at h
  obtain ⟨body', w', hrun⟩ := SolveM.succeeds_iff.1 h
  obtain ⟨_, hforeseen, rfl⟩ := ((outrightBinder_foreseen ..).exprs d.body).ok hrun
  cases hbound.symm.trans hforeseen
  exact hrun

end Monomorph
