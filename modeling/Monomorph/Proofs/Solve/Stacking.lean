import Monomorph.Proofs.Draft.Stacking
import Monomorph.Proofs.Solve.Outright

/-! # Solving on top of another graph

Solving a procedure on top of another graph takes the same turns as solving it by itself: it ends with the same
error or with the same signature, and with the same types (`solve_above`). Neither the variants kept before nor the
numbers of the symbols make a difference, as long as every symbol is a procedure. -/

namespace Monomorph

open Outcome

/-! ### Symbols under other numbers -/

/-- Both tables have the same symbols by path, under numbers that `N` relates. -/
structure SymbolTable.Renumbers (N : Nat → Nat → Prop) (table table' : SymbolTable) : Prop where
  expansion : table.expansion = table'.expansion
  symbol : ∀ {id id'}, N id id' → table.get? id = table'.get? id'
  lookup : ∀ path, Option.Rel N (table.lookup path) (table'.lookup path)
  unique : ∀ {i i' j j'}, N i i' → N j j' → (i = j ↔ i' = j')

theorem findSome?_rel {α β γ : Type} {R : β → γ → Prop} {f : α → Option β} {f' : α → Option γ}
    (h : ∀ a, Option.Rel R (f a) (f' a)) (l : List α) : Option.Rel R (l.findSome? f) (l.findSome? f') := by
  induction l with
  | nil => exact .none
  | cons a l ih =>
    have ha := h a
    rw [List.findSome?_cons, List.findSome?_cons]
    generalize f a = b at ha
    generalize f' a = c at ha
    cases ha with
    | some hbc => exact .some hbc
    | none => exact ih

theorem Declaration.isProcedure_iff {d : Declaration} : d.isProcedure = true ↔
    (∃ params body, d = .procedure params body) ∨ ∃ params n, d = .native params n := by
  cases d <;> simp [isProcedure, params?]

/-- If the procedure is native, its signature has no more arguments than there are parameters. -/
def Declaration.Fitting : Declaration → Prop
  | .native params n => n.args.length ≤ params.length
  | _ => True

instance : DecidablePred Declaration.Fitting
  | .native params n => inferInstanceAs (Decidable (n.args.length ≤ params.length))
  | .procedure .. | .moduleVariable _ | .external _ => inferInstanceAs (Decidable True)

namespace SymbolTable

variable {N : Nat → Nat → Prop} {table table' : SymbolTable}

theorem renumbers_refl (table : SymbolTable) : Renumbers Eq table table where
  expansion := rfl
  symbol h := congrArg _ h
  lookup path := by cases table.lookup path <;> constructor; rfl
  unique hi hj := by rw [hi, hj]

theorem Renumbers.resolve (h : Renumbers N table table') (short user : Path) :
    Option.Rel N (table.resolve short user) (table'.resolve short user) := by
  rw [SymbolTable.resolve, SymbolTable.resolve, expand, expand, ← h.expansion]
  exact findSome?_rel h.lookup _

/-- Related numbers, if there are any, name the same symbol. -/
theorem Renumbers.bind_get? (h : Renumbers N table table') {found found' : Option Nat}
    (hfound : Option.Rel N found found') : found.bind table.get? = found'.bind table'.get? := by
  cases hfound with
  | some hid => exact h.symbol hid
  | none => rfl

theorem Renumbers.sameInterfaces (h : Renumbers N table table') (user : Path) :
    DraftM.SameInterfaces ⟨table, user⟩ ⟨table', user⟩ := fun path =>
  congrArg (Option.map Symbol.interface) (h.bind_get? (h.resolve path user))

/-! ### Tables of procedures -/

def Procedural (table : SymbolTable) : Prop := ∀ s ∈ table.symbols, s.declaration.isProcedure = true

/-- No native procedure has more arguments than parameters. -/
def Fitting (table : SymbolTable) : Prop := ∀ s ∈ table.symbols, s.declaration.Fitting

def arity (table : SymbolTable) (id : Nat) : Nat :=
  (((table.get? id).bind fun s => s.declaration.params?).getD []).length

theorem arity_eq {id : Nat} {s : Symbol} {params : List String} (hs : table.get? id = some s)
    (hparams : s.declaration.params? = some params) : table.arity id = params.length := by
  rw [arity, hs, Option.bind_some, hparams, Option.getD_some]

end SymbolTable

/-! ### Signatures -/

/-- The same types on top of another graph. -/
structure Workspace.Atop (base : TypeGraph) (w w' : Workspace) : Prop where
  graph : w'.graph = w.graph.atop base

/-- The same signature on top of another graph. If there is anything below, it has no more arguments than the symbol
has parameters. -/
structure SameSignature (base : TypeGraph) (arity : Nat) (a b : Solved) : Prop where
  args : b.args = a.args.map (TypeVar.raise base.size)
  returns : b.returns = a.returns.raise base.size
  fits : base.size = 0 ∨ a.args.length ≤ arity

/-- The native signature's variables with numbers greater by `n`. -/
def Signature.raise (n : Nat) (s : Signature) : Signature :=
  ⟨s.args.map (TypeVar.raise n), s.returns.raise n, s.constraints.map (Constraint.mapVars (TypeVar.raise n))⟩

theorem TypeVar.getD_map_raise {n i : Nat} {l : List TypeVar} (h : n = 0 ∨ i < l.length) :
    (l.map (TypeVar.raise n)).getD i default = (l.getD i default).raise n := by
  rcases h with rfl | h
  · rw [TypeVar.raise_zero, List.map_id, id]
  · simp [List.getElem?_eq_getElem h]

theorem NativeSignature.instantiate_atop (n : NativeSignature) (span : Span) (g base : TypeGraph) :
    n.instantiate span (g.atop base) =
      ((n.instantiate span g).1.raise base.size, (n.instantiate span g).2.atop base) := by
  have hshift (v : TypeVar) : (⟨(g.atop base).size + v.index⟩ : TypeVar) =
      (⟨g.size + v.index⟩ : TypeVar).raise base.size := by
    rw [TypeGraph.size_atop, TypeVar.raise, Nat.add_assoc]
  have hcells : g.cells.map (Cell.raise base.size) ++ Array.replicate n.varCount (Cell.root Ty.any) =
      (g.cells ++ Array.replicate n.varCount (Cell.root Ty.any)).map (Cell.raise base.size) := by
    rw [Array.map_append, Array.map_replicate]
    rfl
  refine Prod.ext ?_ ?_
  · simp only [instantiate, hshift, Signature.raise, Constraint.mapVars, List.map_map, Function.comp_def,
      Demand.mapVars_mapVars]
  · simp only [instantiate, TypeGraph.atop, Array.append_assoc, hcells]

namespace SolveM

/-- On top of another graph the second computation does what the first one does by itself. -/
abbrev Above {α β : Type} (base : TypeGraph) (V : α → β → Prop) (x : SolveM α) (y : SolveM β) : Prop :=
  Parallel (Workspace.Atop base) (Workspace.Atop base) V x y

/-- Both succeed or both fail with the same error. -/
abbrev EndTogether {α β : Type} (base : TypeGraph) (x : SolveM α) (y : SolveM β) : Prop :=
  Above base (fun _ _ => True) x y

section steps

variable {α β : Type} {base : TypeGraph} {x : SolveM α} {y : SolveM β} {V : α → β → Prop}

/-! ### Steps -/

theorem onGraph_above {x : TypeM α} {y : TypeM β} (h : Monomorph.Above base V x y) :
    Above base V (onGraph x) (onGraph y) where
  run {w w'} hw := by
    refine (h.run ⟨hw.graph⟩).elim (fun {a b g g'} hx hy hab hg => ?_) fun {e g g'} hx hy hg => ?_
    · have hrun : onGraph x w = .ok a ⟨g, w.variants⟩ := onGraph_eq_ok_iff.2 ⟨hx, rfl⟩
      have hrun' : onGraph y w' = .ok b ⟨g', w'.variants⟩ := onGraph_eq_ok_iff.2 ⟨hy, rfl⟩
      exact hrun ▸ hrun' ▸ .ok hab ⟨hg.eq⟩
    · have hrun : onGraph x w = .error e ⟨g, w.variants⟩ := onGraph_eq_error_iff.2 ⟨hx, rfl⟩
      have hrun' : onGraph y w' = .error e ⟨g', w'.variants⟩ := onGraph_eq_error_iff.2 ⟨hy, rfl⟩
      exact hrun ▸ hrun' ▸ .error ⟨hg.eq⟩

theorem draft_above {x y : TypeGraph → Except TypeError Draft × TypeGraph}
    (h : ∀ g, y (g.atop base) = ((x g).1.map (Draft.mapVars (TypeVar.raise base.size)), (x g).2.atop base)) :
    Above base (fun d d' => d' = d.mapVars (TypeVar.raise base.size) ∧ ∃ g g', x g = (.ok d, g')) (draft x)
      (draft y) where
  run {w w'} hw := by
    obtain ⟨g, variants⟩ := w
    obtain ⟨g', variants'⟩ := w'
    obtain rfl : g' = g.atop base := hw.graph
    have hy := h g
    rcases hx : x g with ⟨e | d, g₁⟩
    · rw [hx] at hy
      have hrun : draft x ⟨g, variants⟩ = .error e ⟨g₁, variants⟩ := by simp only [draft, hx]
      have hrun' : draft y ⟨g.atop base, variants'⟩ = .error e ⟨g₁.atop base, variants'⟩ := by
        simp only [draft, hy, Except.map]
      exact hrun ▸ hrun' ▸ .error ⟨rfl⟩
    · rw [hx] at hy
      have hrun : draft x ⟨g, variants⟩ = .ok d ⟨g₁, variants⟩ := by simp only [draft, hx]
      have hrun' : draft y ⟨g.atop base, variants'⟩ =
          .ok (d.mapVars (TypeVar.raise base.size)) ⟨g₁.atop base, variants'⟩ := by
        simp only [draft, hy, Except.map]
      exact hrun ▸ hrun' ▸ .ok ⟨rfl, g, g₁, hx⟩ ⟨rfl⟩

theorem instantiate_above (n : NativeSignature) (span : Span) :
    Above base (fun s s' => s' = s.raise base.size ∧ s.args.length = n.args.length) (instantiate n span)
      (instantiate n span) where
  run {w w'} hw := by
    obtain ⟨g, variants⟩ := w
    obtain ⟨g', variants'⟩ := w'
    obtain rfl : g' = g.atop base := hw.graph
    have hatop := n.instantiate_atop span g base
    exact .ok ⟨congrArg Prod.fst hatop, List.length_map ..⟩ ⟨congrArg Prod.snd hatop⟩

theorem copyAll_above (vs : List TypeVar) :
    Above base (fun l l' => l' = l.map (TypeVar.raise base.size) ∧ l.length = vs.length) (copyAll vs)
      (copyAll (vs.map (TypeVar.raise base.size))) where
  run {w w'} hw := by
    obtain ⟨g, variants⟩ := w
    obtain ⟨g', variants'⟩ := w'
    obtain rfl : g' = g.atop base := hw.graph
    have hatop := g.copyAll_atop base vs
    exact .ok ⟨congrArg Prod.fst hatop, List.length_map ..⟩ ⟨congrArg Prod.snd hatop⟩

theorem applyAll_above (cs : List Constraint) :
    Above base Eq (applyAll cs) (applyAll (cs.map (Constraint.mapVars (TypeVar.raise base.size)))) := by
  induction cs with
  | nil => exact .pure rfl
  | cons c cs ih => exact (onGraph_above c.apply_above).bind fun _ => ih

theorem variantsOf_above (id id' : Nat) : EndTogether base (variantsOf id) (variantsOf id') :=
  ⟨fun h => .ok trivial ⟨h.graph⟩⟩

theorem keeping_above {keep keep' : Bool} {id id' : Nat} {v v' : Variant} {a : α} {b : β} (hab : V a b) :
    Above base V (if keep = true then keepVariant id v >>= fun _ => pure a else pure a : SolveM α)
      (if keep' = true then keepVariant id' v' >>= fun _ => pure b else pure b : SolveM β) := by
  cases keep <;> cases keep' <;> exact ⟨fun h => .ok hab ⟨h.graph⟩⟩

/-- Both attempts succeed with related values or fail with the same error. -/
inductive SameOutcome (V : α → β → Prop) : Except TypeError α → Except TypeError β → Prop where
  | ok {a : α} {b : β} (hab : V a b) : SameOutcome V (.ok a) (.ok b)
  | error (e : TypeError) : SameOutcome V (.error e) (.error e)

theorem orRollback_above (h : Above base V x y) : Above base (SameOutcome V) (orRollback x) (orRollback y) where
  run hw := (h.run hw).elim
    (fun hx hy hab hst => orRollback_of_ok hx ▸ orRollback_of_ok hy ▸ .ok (.ok hab) hst)
    fun hx hy hst => orRollback_of_error hx ▸ orRollback_of_error hy ▸ .ok (.error _) ⟨hst.graph⟩

end steps

/-! ### Calls -/

section calls

variable {base : TypeGraph}

theorem unifyArgs_above (usage : ProcedureUsage) (i : Nat) (callee caller : List TypeVar) :
    Above base Eq (unifyArgs usage i callee caller)
      (unifyArgs (usage.mapVars (TypeVar.raise base.size)) i (callee.map (TypeVar.raise base.size))
        (caller.map (TypeVar.raise base.size))) := by
  induction callee generalizing i caller with
  | nil => exact .pure rfl
  | cons a as ih =>
    cases caller with
    | nil => exact .pure rfl
    | cons b bs => exact (onGraph_above (unifyAt_above _ _ _ _)).bind fun _ => ih _ _

theorem unifyCall_above (usage : ProcedureUsage) (calleeArgs : List TypeVar) (calleeReturns : TypeVar)
    (callerArgs : List TypeVar) (callerReturns : TypeVar) :
    Above base Eq (unifyCall usage calleeArgs calleeReturns callerArgs callerReturns)
      (unifyCall (usage.mapVars (TypeVar.raise base.size)) (calleeArgs.map (TypeVar.raise base.size))
        (calleeReturns.raise base.size) (callerArgs.map (TypeVar.raise base.size))
        (callerReturns.raise base.size)) :=
  (unifyArgs_above _ _ _ _).bind fun _ => onGraph_above (unifyAt_above _ _ _ _)

/-- The copies of a call's types stand behind those of the callee's. -/
theorem acceptCall_above {usage : ProcedureUsage} {solved solved' : Solved}
    (h : SameSignature base usage.args.length solved solved') :
    Above base Eq (acceptCall usage solved)
      (acceptCall (usage.mapVars (TypeVar.raise base.size)) solved') := by
  obtain ⟨variant, args, returns⟩ := solved
  obtain ⟨variant', args', returns'⟩ := solved'
  obtain ⟨rfl, rfl, hfits⟩ := h
  dsimp only [acceptCall, ProcedureUsage.mapVars]
  have hvars : args.map (TypeVar.raise base.size) ++ [returns.raise base.size] ++
      usage.args.map (TypeVar.raise base.size) ++ [usage.returns.raise base.size] =
        (args ++ [returns] ++ usage.args ++ [usage.returns]).map (TypeVar.raise base.size) := by
    simp only [List.map_append, List.map_cons, List.map_nil]
  rw [hvars, List.length_map]
  refine (copyAll_above _).bind fun {copies copies'} h => ?_
  obtain ⟨rfl, hlength⟩ := h
  have hcallee : args.length < (copies.take (args.length + 1)).length := by
    simp only [List.length_take, hlength, List.length_append, List.length_singleton]
    omega
  have hcaller (hfits : args.length ≤ usage.args.length) : args.length < (copies.drop (args.length + 1)).length := by
    simp only [List.length_drop, hlength, List.length_append, List.length_singleton]
    omega
  rw [← List.map_take, ← List.map_drop, ← List.map_take, ← List.map_take, TypeVar.getD_map_raise (.inr hcallee),
    TypeVar.getD_map_raise (hfits.imp_right hcaller)]
  exact (unifyCall_above _ _ _ _ _).bind fun _ => unifyCall_above _ _ _ _ _

/-- Two trials that come to the same end. -/
structure SameTrial (t t' : Trial) : Prop where
  bound : t.bound.isSome = t'.bound.isSome
  considered : t.considered = t'.considered
  rejections : t.rejections = t'.rejections

variable {N : Nat → Nat → Prop} {table table' : SymbolTable} {usage : ProcedureUsage}

theorem tryCandidates_above (htables : table.Renumbers N table') {solve solve' : Nat → SolveM Solved}
    (hsolve : ∀ {id id'}, N id id' → Above base (SameSignature base (table.arity id)) (solve id) (solve' id'))
    (candidates : List Path) :
    Above base SameTrial (tryCandidates table usage solve candidates)
      (tryCandidates table' (usage.mapVars (TypeVar.raise base.size)) solve' candidates) := by
  induction candidates with
  | nil => exact .pure ⟨rfl, rfl, rfl⟩
  | cons candidate rest ih =>
    rw [tryCandidates, tryCandidates]
    have hrejected (e : TypeError) : Above base SameTrial
        (do
          let trial ← tryCandidates table usage solve rest
          return { trial with
            considered := candidate :: trial.considered
            rejections := e :: trial.rejections })
        (do
          let trial ← tryCandidates table' (usage.mapVars (TypeVar.raise base.size)) solve' rest
          return { trial with
            considered := candidate :: trial.considered
            rejections := e :: trial.rejections }) :=
      ih.bind fun h => .pure ⟨h.bound, congrArg (candidate :: ·) h.considered, congrArg (e :: ·) h.rejections⟩
    have hfound := htables.lookup candidate
    generalize table.lookup candidate = found at hfound
    generalize table'.lookup candidate = found' at hfound
    cases hfound with
    | none => exact ih
    | @some id id' hid =>
      rw [Option.bind_some, Option.bind_some, ← htables.symbol hid]
      cases hsymbol : table.get? id with
      | none => exact ih
      | some symbol =>
        dsimp only [Option.map_some]
        cases hparams : symbol.declaration.params? with
        | none => exact ih
        | some params =>
          dsimp only
          rw [show (usage.mapVars (TypeVar.raise base.size)).args.length = usage.args.length from
            List.length_map ..]
          split
          · exact hrejected _
          · rename_i hlength
            have harity : table.arity id = usage.args.length :=
              (table.arity_eq hsymbol hparams).trans (not_not.1 hlength)
            have hattempt : EndTogether base
                (do
                  let solved ← solve id
                  acceptCall usage solved
                  return solved.variant)
                (do
                  let solved ← solve' id'
                  acceptCall (usage.mapVars (TypeVar.raise base.size)) solved
                  return solved.variant) :=
              (hsolve hid).bind fun h => (acceptCall_above (harity ▸ h)).bind fun _ => .pure trivial
            refine (orRollback_above hattempt).bind fun {r r'} h => ?_
            cases h with
            | ok => exact .pure ⟨rfl, rfl, rfl⟩
            | error e => exact hrejected e

theorem bindCall_above (htables : table.Renumbers N table') {solve solve' : Nat → Span → SolveM Solved}
    (hsolve : ∀ {id id'}, N id id' → ∀ span,
      Above base (SameSignature base (table.arity id)) (solve id span) (solve' id' span))
    (user : Path) (usage : ProcedureUsage) :
    EndTogether base (bindCall table user solve usage)
      (bindCall table' user solve' (usage.mapVars (TypeVar.raise base.size))) := by
  unfold bindCall
  rw [SymbolTable.expand, SymbolTable.expand, ← htables.expansion]
  refine (tryCandidates_above htables (fun hid => hsolve hid usage.span) _).bind fun {trial trial'} h => ?_
  obtain ⟨bound, considered, rejections⟩ := trial
  obtain ⟨bound', considered', rejections'⟩ := trial'
  obtain ⟨hbound, rfl, rfl⟩ := h
  cases bound with
  | some target =>
    obtain ⟨target', rfl⟩ := Option.isSome_iff_exists.1 hbound.symm
    exact .pure trivial
  | none =>
    obtain rfl : bound' = none := by simpa using hbound.symm
    cases rejections with
    | nil => exact .throw _
    | cons e rest => cases rest <;> exact .throw _

theorem bindGlobal_above (htables : table.Renumbers N table') {solve solve' : Nat → SolveM Solved}
    (hsolve : ∀ {id id'}, N id id' → Above base (SameSignature base (table.arity id)) (solve id) (solve' id'))
    (usage : VariableUsage) :
    EndTogether base (bindGlobal table solve usage)
      (bindGlobal table' solve' (usage.mapVars (TypeVar.raise base.size))) := by
  have hfound := htables.lookup usage.path
  unfold bindGlobal
  dsimp only [VariableUsage.mapVars]
  generalize table.lookup usage.path = found at hfound
  generalize table'.lookup usage.path = found' at hfound
  cases hfound with
  | none => exact .throw _
  | some hid =>
    refine (hsolve hid).bind fun {a b} h => ?_
    rw [h.returns]
    exact (onGraph_above (unifyAt_above _ _ _ _)).bind fun _ => .pure trivial

end calls

end SolveM

/-! ### Bodies -/

namespace Binder

open SolveM (EndTogether)

/-- Two binders for the same usages, one of them on top of another graph, that answer each of them alike. -/
structure Paired (base : TypeGraph) (b b' : Binder SolveM) : Prop where
  usages : b'.usages = b.usages.mapVars (TypeVar.raise base.size)
  procedure : ∀ usage,
    EndTogether base (b.procedure usage) (b'.procedure (usage.mapVars (TypeVar.raise base.size)))
  moduleVariable : ∀ usage,
    EndTogether base (b.moduleVariable usage) (b'.moduleVariable (usage.mapVars (TypeVar.raise base.size)))

variable {base : TypeGraph} {b b' : Binder SolveM}

theorem Paired.answering (h : Paired base b b') :
    Answering (.parallel (Workspace.Atop base) (Workspace.Atop base)) (TypeVar.raise base.size) False b b' where
  usages := h.usages
  params := False.elim
  procedure usage _ := imageIf_false ▸ h.procedure usage
  moduleVariable usage _ := imageIf_false ▸ h.moduleVariable usage
  unit _ := (SolveM.onGraph_above (allocate_above _)).bind fun _ => .pure False.elim
  unbound _ _ := .throw _

theorem exprs_above (h : Paired base b b') (es : List (Expr TypeVar)) :
    EndTogether base (b.exprs es) (b'.exprs (Expr.mapAll (TypeVar.raise base.size) es)) := by
  have hexprs := (h.answering.compares fun _ => True).exprs es (p := .isolated) fun _ _ => trivial
  rwa [imageIf_false] at hexprs

end Binder

/-! ### Solving -/

/-- The same symbol, with the same signature on top of another graph. -/
structure SameActivation (N : Nat → Nat → Prop) (base : TypeGraph) (table : SymbolTable) (a b : Activation) :
    Prop where
  symbol : N a.symbol b.symbol
  solved : SameSignature base (table.arity a.symbol) a.solved b.solved

section solve

variable {N : Nat → Nat → Prop} {table table' : SymbolTable} {base : TypeGraph} {stack stack' : List Activation}

theorem busy_iff (htables : table.Renumbers N table') {id id' : Nat} (hid : N id id')
    (h : List.Forall₂ (SameActivation N base table) stack stack') : id ∈ busy stack ↔ id' ∈ busy stack' := by
  induction h with
  | nil => exact iff_of_false List.not_mem_nil List.not_mem_nil
  | cons hab _ ih =>
    exact List.mem_cons.trans ((or_congr (htables.unique hid hab.symbol) ih).trans List.mem_cons.symm)

/-- A symbol that is being solved has the same signature on both sides. -/
theorem find?_above (htables : table.Renumbers N table') {id id' : Nat} (hid : N id id')
    (h : List.Forall₂ (SameActivation N base table) stack stack') (e : TypeError) :
    SolveM.Above base (SameSignature base (table.arity id))
      (match stack.find? fun a => a.symbol == id with
        | some a => pure a.solved
        | none => throw e : SolveM Solved)
      (match stack'.find? fun a => a.symbol == id' with
        | some a => pure a.solved
        | none => throw e : SolveM Solved) := by
  induction h with
  | nil => exact .throw _
  | @cons a b _ _ hab _ ih =>
    have hsame : (a.symbol == id) = (b.symbol == id') := by
      rw [Bool.eq_iff_iff, beq_iff_eq, beq_iff_eq]
      exact htables.unique hab.symbol hid
    rw [List.find?_cons, List.find?_cons, ← hsame]
    cases hfound : a.symbol == id with
    | true => exact .pure (beq_iff_eq.1 hfound ▸ hab.solved)
    | false => exact ih

/-- The answers for the usages in a body are the same if solving gives the same. -/
theorem solvingBinder_paired (htables : table.Renumbers N table') {keep keep' : Bool}
    (hsolve : ∀ (request : Request) {id id' : Nat}, N id id' → SolveM.Above base (SameSignature base (table.arity id))
      (solve table keep stack request id) (solve table' keep' stack' request id')) (user : Path) (usages : Usages) :
    Binder.Paired base (solvingBinder table keep stack user usages)
      (solvingBinder table' keep' stack' user (usages.mapVars (TypeVar.raise base.size))) :=
  ⟨rfl, SolveM.bindCall_above htables (fun hid span => hsolve (.procedure (some span)) hid) user,
    SolveM.bindGlobal_above htables (hsolve .moduleVariable)⟩

/-- Where every symbol is a procedure, neither what is below nor what is kept makes a difference. -/
theorem solve_above (htables : table.Renumbers N table') (hprocedural : table.Procedural)
    (hfitting : base.size = 0 ∨ table.Fitting) (keep keep' : Bool)
    (hstack : List.Forall₂ (SameActivation N base table) stack stack') (request : Request) {id id' : Nat}
    (hid : N id id') :
    SolveM.Above base (SameSignature base (table.arity id)) (solve table keep stack request id)
      (solve table' keep' stack' request id') := by
  induction stack using solving_induction table generalizing stack' request id id' with
  | h stack ih =>
    rw [solve, solve]
    have hsame := htables.symbol hid
    generalize table'.get? id' = found' at hsame
    subst hsame
    split
    · exact .throw _
    rename_i symbol hsymbol
    have hmem : symbol ∈ table.symbols := Array.mem_of_getElem? hsymbol
    have hbusy : id ∈ stack.map Activation.symbol ↔ id' ∈ stack'.map Activation.symbol :=
      busy_iff htables hid hstack
    by_cases hon : id ∈ stack.map Activation.symbol
    · rw [dif_pos hon, dif_pos (hbusy.1 hon)]
      cases request with
      | procedure => exact find?_above htables hid hstack _
      | moduleVariable => exact .throw _
    rw [dif_neg hon, dif_neg (hon ∘ hbusy.2)]
    have hlt : id < table.size := (Array.getElem?_eq_some_iff.1 hsymbol).1
    dsimp only
    obtain ⟨params, body, hdeclaration⟩ | ⟨params, native, hdeclaration⟩ :=
      Declaration.isProcedure_iff.1 (hprocedural symbol hmem)
    · have harity : table.arity id = params.length := table.arity_eq hsymbol (by rw [hdeclaration]; rfl)
      rw [hdeclaration]
      cases request with
      | moduleVariable => exact .throw _
      | procedure usage =>
        refine (SolveM.variantsOf_above id id').bind fun {known known'} _ => ?_
        refine (SolveM.draft_above (Draft.ofProcedure_atop (htables.sameInterfaces symbol.path) params body _)).bind
          fun {d d'} hd => ?_
        obtain ⟨rfl, g, g', hdraft⟩ := hd
        refine (SolveM.applyAll_above _).bind fun _ => ?_
        have hsolved : SameSignature base (table.arity id) ⟨known.length, d.args, d.returns⟩
            ⟨known'.length, d.args.map (TypeVar.raise base.size), d.returns.raise base.size⟩ :=
          ⟨rfl, rfl, .inr (harity ▸ (Draft.ofProcedure_recorded hdraft).1.le)⟩
        have hstack' : List.Forall₂ (SameActivation N base table) (⟨id, known.length, d.args, d.returns⟩ :: stack)
            (⟨id', known'.length, d.args.map (TypeVar.raise base.size), d.returns.raise base.size⟩ :: stack') :=
          .cons ⟨hid, hsolved⟩ hstack
        have hbinder := solvingBinder_paired htables
          (ih ⟨id, known.length, d.args, d.returns⟩ hlt hon hstack') symbol.path d.usages
        exact (Binder.exprs_above hbinder _).bind fun _ => SolveM.keeping_above hsolved
    · have harity : table.arity id = params.length := table.arity_eq hsymbol (by rw [hdeclaration]; rfl)
      have hfits := hfitting.imp_right fun hfitting => hfitting symbol hmem
      rw [hdeclaration] at hfits ⊢
      cases request with
      | moduleVariable => exact .throw _
      | procedure usage =>
        refine (SolveM.variantsOf_above id id').bind fun _ => ?_
        refine (SolveM.instantiate_above _ _).bind fun {signature signature'} h => ?_
        obtain ⟨rfl, hlength⟩ := h
        refine (SolveM.applyAll_above _).bind fun _ => ?_
        exact SolveM.keeping_above ⟨rfl, rfl, hlength ▸ harity ▸ hfits⟩

end solve

end Monomorph
