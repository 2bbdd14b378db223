import Monomorph.Proofs.Draft.Drafted
import Monomorph.Proofs.Solve.Binding

/-! # How solving ends

Solving a symbol that is being solved gives what is known of it; a module variable that was kept is not
solved again; anything else is solved from its declaration: a body is drafted, its constraints are applied and
its usages bound, and the variant is kept if that is asked for (`Solving`). A symbol is on the stack while its
body is bound and no symbol is on it twice, so what holds of a stack may be proved from all stacks with one
more symbol on them (`solving_induction`). However solving ends, the workspace only evolves
(`solve_evolves`): on the symbols being solved nothing is kept in between, and without `keep` nothing at all. -/

namespace Monomorph

open Outcome
open Workspace (Evolves evolves_kept)

def busy (stack : List Activation) : List Nat := stack.map Activation.symbol

/-- The answers of the solver for the usages in a body of the first symbol on the stack. -/
def solvingBinder (table : SymbolTable) (keep : Bool) (stack : List Activation) (user : Path)
    (usages : Usages) : Binder SolveM :=
  ⟨SolveM.bindCall table user fun id usage => solve table keep stack (.procedure (some usage)) id,
    SolveM.bindGlobal table fun id => solve table keep stack .moduleVariable id,
    table.paramsOf, usages⟩

theorem SymbolTable.eq_some_of_found {table : SymbolTable} {path : Path} {id : Nat} {symbol : Symbol}
    (h : ((table.lookup path).bind fun id => (table.get? id).map fun s => (id, s)) = some (id, symbol)) :
    table.lookup path = some id ∧ table.get? id = some symbol := by
  obtain ⟨id', hid, hget⟩ := Option.bind_eq_some_iff.1 h
  obtain ⟨symbol', hsymbol, heq⟩ := Option.map_eq_some_iff.1 hget
  cases heq
  exact ⟨hid, hsymbol⟩

/-- How the body of a symbol is drafted, if it has one. -/
def Symbol.draft? (table : SymbolTable) (s : Symbol) :
    Option (TypeGraph → Except TypeError Draft × TypeGraph) :=
  match s.declaration with
  | .procedure params body => some (Draft.ofProcedure ⟨table, s.path⟩ params body s.span)
  | .moduleVariable value => some (Draft.ofVariable ⟨table, s.path⟩ value)
  | .native .. | .external .. => none

theorem Symbol.draft_sprouts {table : SymbolTable} {s : Symbol}
    {draft : TypeGraph → Except TypeError Draft × TypeGraph} (h : s.draft? table = some draft)
    (g : TypeGraph) : g.Sprouts (draft g).2 := by
  unfold Symbol.draft? at h
  split at h <;> cases h
  · exact Draft.ofProcedure_sprouts _ _ _ _ g
  · exact Draft.ofVariable_sprouts _ _ g

/-- The workspace with one more variant if variants are to be kept. -/
def Workspace.keeping (w : Workspace) (keep : Bool) (id : Nat) (v : Variant) : Workspace :=
  if keep then ⟨w.graph, w.variants.append id v⟩ else w

/-- Whether a symbol can be solved as what is asked for. -/
def Request.Suits : Request → Symbol → Prop
  | .procedure _, s => s.declaration.isProcedure = true
  | .moduleVariable, s => s.declaration.isProcedure = false

/-- How the signature of a symbol without a body is made. -/
inductive Symbol.Makes (s : Symbol) : Request → Workspace → List TypeVar → TypeVar → Workspace → Prop where
  | native {usage : Option Span} {params : List String} {n : NativeSignature} {signature : Signature}
    {w w₁ w' : Workspace} (hdeclaration : s.declaration = .native params n)
    (hsignature : SolveM.instantiate n (usage.getD s.span) w = .ok signature w₁)
    (happlied : SolveM.applyAll signature.constraints w₁ = .ok () w') :
    Makes s (.procedure usage) w signature.args signature.returns w'
  | external {type : WrittenType} {v : TypeVar} {w w' : Workspace} (hdeclaration : s.declaration = .external type)
    (hbuilt : SolveM.onGraph (type.build (some s.span) []) w = .ok v w') :
    Makes s .moduleVariable w [] v w'

theorem Symbol.Makes.evolves {s : Symbol} {request : Request} {args : List TypeVar} {returns : TypeVar}
    {w w' : Workspace} (h : s.Makes request w args returns w') : Evolves false [] w w' := by
  cases h with
  | native _ hsignature happlied =>
    exact evolves_kept.trans ((SolveM.instantiate_evolves _).ok hsignature)
      ((SolveM.applyAll_evolves _ _).ok happlied)
  | external _ hbuilt =>
    exact (SolveM.onGraph_evolves ((WrittenType.build_extends _ _ _).imp TypeGraph.Extends.sharpens) _).ok hbuilt

/-- The ways in which a symbol is solved. -/
inductive Solving (table : SymbolTable) (keep : Bool) (stack : List Activation) :
    Request → Nat → Workspace → Solved → Workspace → Prop where
  /-- It is being solved already. -/
  | reused {usage : Option Span} {a : Activation} {w : Workspace} (ha : a ∈ stack) :
    Solving table keep stack (.procedure usage) a.symbol w a.solved w
  /-- It is a module variable that was kept before. -/
  | known {id : Nat} {symbol : Symbol} {v : Variant} {rest : List Variant} {w : Workspace}
    (hsymbol : table.get? id = some symbol) (hsuits : Request.moduleVariable.Suits symbol)
    (hknown : w.variants.ofSymbol id = v :: rest) :
    Solving table keep stack .moduleVariable id w ⟨0, [], v.returns⟩ w
  /-- It has no body. -/
  | bodiless {request : Request} {id : Nat} {symbol : Symbol} {args : List TypeVar} {returns : TypeVar}
    {w w' : Workspace} (hsymbol : table.get? id = some symbol) (hfree : id ∉ busy stack)
    (hsuits : request.Suits symbol) (hnew : request = .moduleVariable → w.variants.ofSymbol id = [])
    (hmade : symbol.Makes request w args returns w') :
    Solving table keep stack request id w ⟨(w.variants.ofSymbol id).length, args, returns⟩
      (w'.keeping keep id ⟨args, returns, none⟩)
  /-- Its body is drafted, constrained and bound. -/
  | drafted {request : Request} {id : Nat} {symbol : Symbol}
    {draft : TypeGraph → Except TypeError Draft × TypeGraph} {d : Draft} {body : List (Expr TypeVar)}
    {w w₁ w₂ w₃ : Workspace} (hsymbol : table.get? id = some symbol) (hfree : id ∉ busy stack)
    (hsuits : request.Suits symbol) (hnew : request = .moduleVariable → w.variants.ofSymbol id = [])
    (hdraft : symbol.draft? table = some draft)
    (hdrafted : SolveM.draft draft w = .ok d w₁) (happlied : SolveM.applyAll d.constraints w₁ = .ok () w₂)
    (hbound : Binder.exprs (solvingBinder table keep
      (⟨id, (w.variants.ofSymbol id).length, d.args, d.returns⟩ :: stack) symbol.path d.usages)
      d.body w₂ = .ok body w₃) :
    Solving table keep stack request id w ⟨(w.variants.ofSymbol id).length, d.args, d.returns⟩
      (w₃.keeping keep id ⟨d.args, d.returns, some body⟩)

namespace SolveM

variable {α : Type} {keep : Bool} {w w' : Workspace}

theorem variantsOf_bind_eq_ok_iff {id : Nat} {f : List Variant → SolveM α} {a : α} :
    (variantsOf id >>= f) w = .ok a w' ↔ f (w.variants.ofSymbol id) w = .ok a w' := by
  rw [bind_eq_ok_iff]
  constructor
  · rintro ⟨_, _, ⟨⟩, h⟩
    exact h
  · exact fun h => ⟨_, _, rfl, h⟩

theorem keeping_eq_ok_iff {id : Nat} {v : Variant} {a b : α} :
    (if keep = true then keepVariant id v >>= fun _ => pure a else pure a : SolveM α) w = .ok b w' ↔
      a = b ∧ w.keeping keep id v = w' := by
  cases keep with
  | false => exact pure_eq_ok_iff
  | true => exact pure_eq_ok_iff

end SolveM

theorem solving_of_ok {table : SymbolTable} {keep : Bool} {stack : List Activation} {request : Request}
    {id : Nat} {w w' : Workspace} {solved : Solved}
    (h : solve table keep stack request id w = .ok solved w') :
    Solving table keep stack request id w solved w' := by
  obtain ⟨y, hy, hrun⟩ := eq_ok_iff_exists.1 h
  clear h
  rw [solve] at hy
  split at hy
  · subst hy
    exact (throw_eq_ok_iff.1 hrun).elim
  rename_i symbol hsymbol
  split at hy
  · -- The symbol is on the stack.
    split at hy
    · split at hy <;> subst hy
      · rename_i a ha
        obtain ⟨rfl, rfl⟩ := pure_eq_ok_iff.1 hrun
        have hid : a.symbol = id := by simpa using List.find?_some ha
        exact hid ▸ .reused (List.mem_of_find?_eq_some ha)
      · exact (throw_eq_ok_iff.1 hrun).elim
    · subst hy
      exact (throw_eq_ok_iff.1 hrun).elim
  rename_i hfree
  dsimp only at hy
  split at hy <;> subst hy
  · rename_i params source hdeclaration
    rw [SolveM.variantsOf_bind_eq_ok_iff] at hrun
    obtain ⟨d, w₁, hdrafted, hrun⟩ := bind_eq_ok_iff.1 hrun
    obtain ⟨⟨⟩, w₂, happlied, hrun⟩ := bind_eq_ok_iff.1 hrun
    obtain ⟨body, w₃, hbound, hrun⟩ := bind_eq_ok_iff.1 hrun
    obtain ⟨rfl, rfl⟩ := SolveM.keeping_eq_ok_iff.1 hrun
    exact .drafted hsymbol hfree (by simp [Request.Suits, hdeclaration, Declaration.isProcedure,
      Declaration.params?]) (fun h => by cases h) (by rw [Symbol.draft?, hdeclaration]) hdrafted happlied hbound
  · rename_i params native hdeclaration
    rw [SolveM.variantsOf_bind_eq_ok_iff] at hrun
    obtain ⟨signature, w₁, hsignature, hrun⟩ := bind_eq_ok_iff.1 hrun
    obtain ⟨⟨⟩, w₂, happlied, hrun⟩ := bind_eq_ok_iff.1 hrun
    obtain ⟨rfl, rfl⟩ := SolveM.keeping_eq_ok_iff.1 hrun
    exact .bodiless hsymbol hfree (by simp [Request.Suits, hdeclaration, Declaration.isProcedure,
      Declaration.params?]) (fun h => by cases h) (.native hdeclaration hsignature happlied)
  · exact (throw_eq_ok_iff.1 hrun).elim
  · rename_i value hdeclaration
    have hsuits : Request.moduleVariable.Suits symbol := by
      simp [Request.Suits, hdeclaration, Declaration.isProcedure, Declaration.params?]
    obtain ⟨y, hy, hrun⟩ := eq_ok_iff_exists.1 (SolveM.variantsOf_bind_eq_ok_iff.1 hrun)
    split at hy <;> subst hy
    · rename_i hknown
      obtain ⟨rfl, rfl⟩ := pure_eq_ok_iff.1 hrun
      exact .known hsymbol hsuits hknown
    · rename_i hnone
      obtain ⟨d, w₁, hdrafted, hrun⟩ := bind_eq_ok_iff.1 hrun
      obtain ⟨⟨⟩, w₂, happlied, hrun⟩ := bind_eq_ok_iff.1 hrun
      obtain ⟨body, w₃, hbound, hrun⟩ := bind_eq_ok_iff.1 hrun
      obtain ⟨rfl, rfl⟩ := SolveM.keeping_eq_ok_iff.1 hrun
      have hargs : d.args = [] := Draft.ofVariable_args (SolveM.draft_ok hdrafted).1
      have hlength : (w.variants.ofSymbol id).length = 0 := by rw [hnone, List.length_nil]
      rw [← hargs, ← hlength] at hbound ⊢
      exact .drafted hsymbol hfree hsuits (fun _ => hnone) (by rw [Symbol.draft?, hdeclaration]) hdrafted happlied
        hbound
  · rename_i type hdeclaration
    have hsuits : Request.moduleVariable.Suits symbol := by
      simp [Request.Suits, hdeclaration, Declaration.isProcedure, Declaration.params?]
    obtain ⟨y, hy, hrun⟩ := eq_ok_iff_exists.1 (SolveM.variantsOf_bind_eq_ok_iff.1 hrun)
    split at hy <;> subst hy
    · rename_i hknown
      obtain ⟨rfl, rfl⟩ := pure_eq_ok_iff.1 hrun
      exact .known hsymbol hsuits hknown
    · rename_i hnone
      obtain ⟨v, w₁, hbuilt, hrun⟩ := bind_eq_ok_iff.1 hrun
      obtain ⟨rfl, rfl⟩ := SolveM.keeping_eq_ok_iff.1 hrun
      have hlength : (w.variants.ofSymbol id).length = 0 := by rw [hnone, List.length_nil]
      rw [← hlength]
      exact .bodiless hsymbol hfree hsuits (fun _ => hnone) (.external hdeclaration hbuilt)
  · exact (throw_eq_ok_iff.1 hrun).elim

theorem Solving.suits {table : SymbolTable} {keep : Bool} {stack : List Activation} {id : Nat}
    {w w' : Workspace} {solved : Solved} (h : Solving table keep stack .moduleVariable id w solved w') :
    ∃ symbol, table.get? id = some symbol ∧ Request.moduleVariable.Suits symbol := by
  cases h with
  | known hsymbol hsuits => exact ⟨_, hsymbol, hsuits⟩
  | bodiless hsymbol _ hsuits => exact ⟨_, hsymbol, hsuits⟩
  | drafted hsymbol _ hsuits => exact ⟨_, hsymbol, hsuits⟩

/-! ### Induction on the symbols that are not being solved -/

/-- What holds of a stack if it holds of all stacks with one more symbol on them holds of all stacks. -/
theorem solving_induction (table : SymbolTable) {P : List Activation → Prop}
    (h : ∀ stack, (∀ a : Activation, a.symbol < table.size → a.symbol ∉ busy stack → P (a :: stack)) → P stack)
    (stack : List Activation) : P stack :=
  h stack fun a _ _ => solving_induction table h (a :: stack)
termination_by remaining table.size fun i => decide (i ∉ busy stack)
decreasing_by
  rename_i hsize hfree
  refine remaining_lt hsize (decide_eq_true hfree) (by simp [busy]) fun i _ hi => ?_
  have hi := of_decide_eq_true hi
  exact decide_eq_true fun hmem => hi (List.mem_cons_of_mem _ hmem)

theorem solvingBinder_keeping {table : SymbolTable} {keep : Bool} {stack : List Activation} {busy' : List Nat}
    (hbusy : busy' ⊆ busy stack)
    (hsolve : ∀ request id, Keeps (Evolves keep (busy stack)) (solve table keep stack request id))
    (user : Path) (usages : Usages) :
    (solvingBinder table keep stack user usages).Keeping (Evolves keep busy') where
  toKept := evolves_kept
  procedure _ _ := SolveM.bindCall_evolves fun _ _ => (hsolve _ _).imp fun h => h.weaken hbusy
  moduleVariable _ _ := SolveM.bindGlobal_evolves fun _ => (hsolve _ _).imp fun h => h.weaken hbusy
  allocate _ := SolveM.onGraph_evolves ((allocate_extends _).imp TypeGraph.Extends.sharpens)

/-- Keeping the variant of a symbol that is not being solved. -/
theorem keeping_evolves {α : Type} {keep : Bool} {busy' : List Nat} {id : Nat} (hfree : id ∉ busy')
    (v : Variant) (a : α) :
    Keeps (Evolves keep busy')
      (if keep = true then SolveM.keepVariant id v >>= fun _ => pure a else pure a : SolveM α) := by
  split
  · rename_i hkeep
    exact evolves_kept.bind (SolveM.keepVariant_evolves hkeep hfree) fun _ => evolves_kept.pure _
  · exact evolves_kept.pure _

/-- However solving ends, the symbols being solved keep the variants they have. -/
theorem solve_evolves (table : SymbolTable) (keep : Bool) (stack : List Activation) (request : Request)
    (id : Nat) : Keeps (Evolves keep (busy stack)) (solve table keep stack request id) := by
  induction stack using solving_induction table generalizing request id with
  | h stack ih =>
    rw [solve]
    split
    · exact evolves_kept.throw _
    rename_i symbol hsymbol
    split
    · split
      · split
        · exact evolves_kept.pure _
        · exact evolves_kept.throw _
      · exact evolves_kept.throw _
    rename_i hfree
    have hid : id < table.size := (Array.getElem?_eq_some_iff.1 hsymbol).1
    have hbinder (solved : Solved) (usages : Usages) (body : List (Expr TypeVar)) :=
      Binder.exprs_keeps (solvingBinder_keeping (List.subset_cons_self id (busy stack))
        (fun request i => ih ⟨id, solved⟩ hid hfree request i) symbol.path usages) body
    dsimp only
    split
    · refine evolves_kept.bind SolveM.variantsOf_evolves fun known => ?_
      refine evolves_kept.bind (SolveM.draft_evolves (Draft.ofProcedure_sprouts _ _ _ _)) fun d => ?_
      refine evolves_kept.bind (SolveM.applyAll_evolves _) fun _ => ?_
      exact evolves_kept.bind (hbinder _ _ _) fun _ => keeping_evolves hfree _ _
    · refine evolves_kept.bind SolveM.variantsOf_evolves fun known => ?_
      refine evolves_kept.bind SolveM.instantiate_evolves fun signature => ?_
      exact evolves_kept.bind (SolveM.applyAll_evolves _) fun _ => keeping_evolves hfree _ _
    · exact evolves_kept.throw _
    · refine evolves_kept.bind SolveM.variantsOf_evolves fun known => ?_
      split
      · exact evolves_kept.pure _
      · refine evolves_kept.bind (SolveM.draft_evolves (Draft.ofVariable_sprouts _ _)) fun d => ?_
        refine evolves_kept.bind (SolveM.applyAll_evolves _) fun _ => ?_
        exact evolves_kept.bind (hbinder _ _ _) fun _ => keeping_evolves hfree _ _
    · refine evolves_kept.bind SolveM.variantsOf_evolves fun known => ?_
      split
      · exact evolves_kept.pure _
      · refine evolves_kept.bind (SolveM.onGraph_evolves ?_) fun _ => keeping_evolves hfree _ _
        exact (WrittenType.build_extends _ _ _).imp TypeGraph.Extends.sharpens
    · exact evolves_kept.throw _

end Monomorph
