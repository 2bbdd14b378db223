import Mathlib.Data.List.Forall2
import Monomorph.Proofs.Draft.Unseen
import Monomorph.Proofs.Solve.Checked
import Monomorph.Proofs.Solve.Cycles
import Monomorph.Proofs.Solve.Outright

/-! # What solving sees of a body

Solving looks at the body of a symbol only by way of its draft: in a table where some procedures have other bodies,
whose drafts match, every symbol is solved with the same outcome, and the variants kept differ in these bodies only
(`solve_like`). So a check finds the same errors (`Program.check_like`). -/

namespace Monomorph

open Outcome

/-! ### Entries that are related one by one -/

theorem rel_option_map {α β γ δ : Type} {P : α → β → Prop} {Q : γ → δ → Prop} {f : α → γ} {f' : β → δ} {a : Option α}
    {b : Option β} (h : Option.Rel P a b) (hf : ∀ {a b}, P a b → Q (f a) (f' b)) :
    Option.Rel Q (a.map f) (b.map f') := by
  cases h with
  | none => exact .none
  | some hab => exact .some (hf hab)

theorem forall₂_set {α β : Type} {P : α → β → Prop} {as : List α} {bs : List β} (h : List.Forall₂ P as bs) {a : α}
    {b : β} (hab : P a b) (i : Nat) : List.Forall₂ P (as.set i a) (bs.set i b) := by
  induction h generalizing i with
  | nil => exact .nil
  | cons hc hcs ih =>
    cases i with
    | zero => exact .cons hab hcs
    | succ i => exact .cons hc (ih i)

/-! ### Symbols of the same interface -/

namespace SymbolTable

/-- Both tables have symbols of the same paths and parameters under the same numbers. -/
structure SameInterfaces (table table' : SymbolTable) : Prop where
  expansion : table'.expansion = table.expansion
  symbols : table'.symbols.map Symbol.interface = table.symbols.map Symbol.interface

namespace SameInterfaces

variable {table table' : SymbolTable}

theorem size (h : table.SameInterfaces table') : table'.size = table.size := by
  have hsize := congrArg Array.size h.symbols
  rwa [Array.size_map, Array.size_map] at hsize

theorem get? (h : table.SameInterfaces table') (id : Nat) :
    (table'.get? id).map Symbol.interface = (table.get? id).map Symbol.interface := by
  rw [SymbolTable.get?, SymbolTable.get?, ← Array.getElem?_map, ← Array.getElem?_map, h.symbols]

theorem lookup (h : table.SameInterfaces table') (path : Path) : table'.lookup path = table.lookup path := by
  have hinterface (t : SymbolTable) :
      t.lookup path = (t.symbols.map Symbol.interface).findIdx? fun i => i.1 == path := by
    rw [Array.findIdx?_map]
    rfl
  rw [hinterface, hinterface, h.symbols]

theorem expand (h : table.SameInterfaces table') (short user : Path) :
    table'.expand short user = table.expand short user := by
  rw [SymbolTable.expand, SymbolTable.expand, h.expansion]

theorem resolve (h : table.SameInterfaces table') (short user : Path) :
    table'.resolve short user = table.resolve short user := by
  rw [SymbolTable.resolve, SymbolTable.resolve, h.expand, funext h.lookup]

theorem contexts (h : table.SameInterfaces table') (user : Path) :
    DraftM.SameInterfaces ⟨table, user⟩ ⟨table', user⟩ := fun path => by
  dsimp only
  rw [h.resolve, Option.map_bind, Option.map_bind]
  exact congrArg _ (funext fun id => (h.get? id).symm)

theorem paramsOf (h : table.SameInterfaces table') : table'.paramsOf = table.paramsOf := by
  have hparams (t : SymbolTable) (path : Path) : t.paramsOf path =
      (((t.lookup path).bind fun id => (t.get? id).map Symbol.interface).bind Prod.snd).getD [] := by
    rw [SymbolTable.paramsOf]
    cases t.lookup path with
    | none => rfl
    | some id =>
      rw [Option.bind_some, Option.bind_some, Option.bind_map]
      rfl
  funext path
  rw [hparams, hparams, h.lookup]
  exact congrArg (fun f : Nat → Option (Path × Option (List String)) =>
    (((table.lookup path).bind f).bind Prod.snd).getD []) (funext h.get?)

end SameInterfaces

end SymbolTable

/-! ### Variants that differ in their bodies -/

section like

variable {R : List (Expr TypeVar) → List (Expr TypeVar) → Prop}

/-- The variants have the same signature and related bodies, or both none. -/
structure Variant.Like (R : List (Expr TypeVar) → List (Expr TypeVar) → Prop) (v v' : Variant) : Prop where
  args : v'.args = v.args
  returns : v'.returns = v.returns
  body : Option.Rel R v.body v'.body

/-- Every symbol has as many variants in both stores, one by one like each other. -/
def VariantStore.Like (R : List (Expr TypeVar) → List (Expr TypeVar) → Prop) (store store' : VariantStore) : Prop :=
  ∀ id : Nat, Option.Rel (List.Forall₂ (Variant.Like R)) store[id]? store'[id]?

/-- The types are the same and the variants are like each other. -/
structure Workspace.Like (R : List (Expr TypeVar) → List (Expr TypeVar) → Prop) (w w' : Workspace) : Prop where
  graph : w'.graph = w.graph
  variants : w.variants.Like R w'.variants

theorem Workspace.like_refl (hR : ∀ body, R body body) (w : Workspace) : w.Like R w := by
  have hvariant (v : Variant) : v.Like R v := by
    refine ⟨rfl, rfl, ?_⟩
    cases v.body with
    | none => exact .none
    | some body => exact .some (hR body)
  refine ⟨rfl, fun id => ?_⟩
  cases w.variants[id]? with
  | none => exact .none
  | some vs => exact .some (List.forall₂_same.2 fun v _ => hvariant v)

namespace VariantStore

variable {store store' : VariantStore}

theorem Like.ofSymbol (h : store.Like R store') (id : Nat) :
    List.Forall₂ (Variant.Like R) (store.ofSymbol id) (store'.ofSymbol id) := by
  have hid := h id
  rw [VariantStore.ofSymbol, VariantStore.ofSymbol, Array.getD_eq_getD_getElem?, Array.getD_eq_getD_getElem?]
  generalize store[id]? = vs at hid
  generalize store'[id]? = vs' at hid
  cases hid with
  | none => exact .nil
  | some hvs => exact hvs

theorem Like.append (h : store.Like R store') {v v' : Variant} (hv : v.Like R v') (id : Nat) :
    (store.append id v).Like R (store'.append id v') := fun i => by
  rw [VariantStore.append, VariantStore.append, Array.getElem?_modify, Array.getElem?_modify]
  split
  · exact rel_option_map (h i) fun hvs => List.rel_append hvs (.cons hv .nil)
  · exact h i

theorem Like.watermark (h : store.Like R store') : store'.watermark = store.watermark := by
  refine Array.ext_getElem? fun i => ?_
  have hi := h i
  rw [VariantStore.watermark, VariantStore.watermark, Array.getElem?_map, Array.getElem?_map]
  generalize store[i]? = vs at hi
  generalize store'[i]? = vs' at hi
  cases hi with
  | none => rfl
  | some hvs => exact congrArg some hvs.length_eq.symm

theorem Like.rollback (h : store.Like R store') (mark : Watermark) :
    (store.rollback mark).Like R (store'.rollback mark) := fun i => by
  rw [VariantStore.rollback, VariantStore.rollback, Array.getElem?_mapIdx, Array.getElem?_mapIdx]
  refine rel_option_map (h i) fun hvs => ?_
  split
  · exact List.forall₂_take _ hvs
  · exact hvs

end VariantStore

/-! ### Steps of the solver -/

namespace SolveM

/-- From workspaces that are like each other both computations come to like workspaces, with related values or the same
error. -/
abbrev Like {α β : Type} (R : List (Expr TypeVar) → List (Expr TypeVar) → Prop) (V : α → β → Prop) (x : SolveM α)
    (y : SolveM β) : Prop :=
  Parallel (Workspace.Like R) (Workspace.Like R) V x y

variable {α β : Type} {V : α → β → Prop}

theorem onGraph_like (x : TypeM α) : Like R Eq (onGraph x) (onGraph x) where
  run {w w'} hw := by
    obtain ⟨g, variants⟩ := w
    obtain ⟨g', variants'⟩ := w'
    obtain ⟨rfl, hvariants⟩ := hw
    dsimp only [onGraph]
    cases x g' with
    | ok a g => exact .ok rfl ⟨rfl, hvariants⟩
    | error e g => exact .error ⟨rfl, hvariants⟩

theorem draft_like {Q : List (Expr TypeVar) → List (Expr TypeVar) → Prop}
    {x y : TypeGraph → Except TypeError Draft × TypeGraph} (h : ∀ g, Draft.Alike Q (x g) (y g)) :
    Like R (Draft.Matches Q) (draft x) (draft y) where
  run {w w'} hw := by
    obtain ⟨g, variants⟩ := w
    obtain ⟨g', variants'⟩ := w'
    obtain ⟨rfl, hvariants⟩ := hw
    have hdraft := h g'
    dsimp only [draft]
    generalize x g' = r at hdraft
    generalize y g' = r' at hdraft
    cases hdraft with
    | ok hmatches => exact .ok hmatches ⟨rfl, hvariants⟩
    | error => exact .error ⟨rfl, hvariants⟩

theorem instantiate_like (n : NativeSignature) (span : Span) : Like R Eq (instantiate n span) (instantiate n span) where
  run {w w'} hw := by
    obtain ⟨g, variants⟩ := w
    obtain ⟨g', variants'⟩ := w'
    obtain ⟨rfl, hvariants⟩ := hw
    exact .ok rfl ⟨rfl, hvariants⟩

theorem copyAll_like (vs : List TypeVar) : Like R Eq (copyAll vs) (copyAll vs) where
  run {w w'} hw := by
    obtain ⟨g, variants⟩ := w
    obtain ⟨g', variants'⟩ := w'
    obtain ⟨rfl, hvariants⟩ := hw
    exact .ok rfl ⟨rfl, hvariants⟩

theorem applyAll_like (cs : List Constraint) : Like R Eq (applyAll cs) (applyAll cs) := by
  induction cs with
  | nil => exact .pure rfl
  | cons c cs ih => exact (onGraph_like c.apply).bind_eq fun _ => ih

theorem variantsOf_like (id : Nat) :
    Like R (List.Forall₂ (Variant.Like R)) (variantsOf id) (variantsOf id) :=
  ⟨fun hw => .ok (hw.variants.ofSymbol id) hw⟩

theorem keeping_like (keep : Bool) (id : Nat) {v v' : Variant} (hv : v.Like R v') {a : α} {b : β} (hab : V a b) :
    Like R V (if keep = true then keepVariant id v >>= fun _ => pure a else pure a : SolveM α)
      (if keep = true then keepVariant id v' >>= fun _ => pure b else pure b : SolveM β) := by
  cases keep with
  | false => exact .pure hab
  | true => exact ⟨fun hw => .ok hab ⟨hw.graph, hw.variants.append hv id⟩⟩

theorem orRollback_like {x y : SolveM α} (h : Like R Eq x y) : Like R Eq (orRollback x) (orRollback y) where
  run {w w'} hw := (h.run hw).elim
    (fun hx hy hab hst => by
      rw [orRollback_of_ok hx, orRollback_of_ok hy, hab]
      exact .ok rfl hst)
    fun hx hy hst => by
      rw [orRollback_of_error hx, orRollback_of_error hy, hw.variants.watermark]
      exact .ok rfl ⟨hst.graph, hst.variants.rollback _⟩

/-! ### Calls -/

theorem unifyArgs_like (usage : ProcedureUsage) (i : Nat) (callee caller : List TypeVar) :
    Like R Eq (unifyArgs usage i callee caller) (unifyArgs usage i callee caller) := by
  induction callee generalizing i caller with
  | nil => exact .pure rfl
  | cons a as ih =>
    cases caller with
    | nil => exact .pure rfl
    | cons b bs => exact (onGraph_like _).bind_eq fun _ => ih _ _

theorem unifyCall_like (usage : ProcedureUsage) (calleeArgs : List TypeVar) (calleeReturns : TypeVar)
    (callerArgs : List TypeVar) (callerReturns : TypeVar) :
    Like R Eq (unifyCall usage calleeArgs calleeReturns callerArgs callerReturns)
      (unifyCall usage calleeArgs calleeReturns callerArgs callerReturns) :=
  (unifyArgs_like _ _ _ _).bind_eq fun _ => onGraph_like _

theorem acceptCall_like (usage : ProcedureUsage) (solved : Solved) :
    Like R Eq (acceptCall usage solved) (acceptCall usage solved) :=
  (copyAll_like _).bind_eq fun _ => (unifyCall_like _ _ _ _ _).bind_eq fun _ => unifyCall_like _ _ _ _ _

end SolveM

/-- The symbols have the same interface, and if they have bodies, their drafts are related. -/
inductive Symbol.Like (Q : List (Expr TypeVar) → List (Expr TypeVar) → Prop) (table table' : SymbolTable) :
    Symbol → Symbol → Prop
  | procedure {path : Path} {span : Span} {params : List String} {body body' : List (Expr Unit)}
      (h : ∀ g, Draft.Alike Q (Draft.ofProcedure ⟨table, path⟩ params body span g)
        (Draft.ofProcedure ⟨table', path⟩ params body' span g)) :
      Like Q table table' ⟨path, span, .procedure params body⟩ ⟨path, span, .procedure params body'⟩
  | native {path : Path} {span : Span} {params : List String} {n : NativeSignature} :
      Like Q table table' ⟨path, span, .native params n⟩ ⟨path, span, .native params n⟩
  | moduleVariable {path : Path} {span : Span} {value : Expr Unit}
      (h : ∀ g, Draft.Alike Q (Draft.ofVariable ⟨table, path⟩ value g) (Draft.ofVariable ⟨table', path⟩ value g)) :
      Like Q table table' ⟨path, span, .moduleVariable value⟩ ⟨path, span, .moduleVariable value⟩
  | external {path : Path} {span : Span} {type : WrittenType} :
      Like Q table table' ⟨path, span, .external type⟩ ⟨path, span, .external type⟩

/-- Both tables have symbols of the same interfaces whose drafts are related. -/
structure SymbolTable.Like (Q : List (Expr TypeVar) → List (Expr TypeVar) → Prop) (table table' : SymbolTable) : Prop
    extends table.SameInterfaces table' where
  like : ∀ {id : Nat} {s s' : Symbol}, table.get? id = some s → table'.get? id = some s' → s.Like Q table table' s'

section tables

variable {Q : List (Expr TypeVar) → List (Expr TypeVar) → Prop} {table table' : SymbolTable}

theorem Symbol.Like.path {s s' : Symbol} (h : s.Like Q table table' s') : s'.path = s.path := by cases h <;> rfl

theorem Symbol.Like.span {s s' : Symbol} (h : s.Like Q table table' s') : s'.span = s.span := by cases h <;> rfl

theorem Symbol.Like.params? {s s' : Symbol} (h : s.Like Q table table' s') :
    s'.declaration.params? = s.declaration.params? := by cases h <;> rfl

theorem SymbolTable.Like.get?_rel (h : table.Like Q table') (id : Nat) :
    Option.Rel (Symbol.Like Q table table') (table.get? id) (table'.get? id) := by
  have hinterface := h.get? id
  have hlike := @h.like id
  generalize table.get? id = s at hinterface hlike
  generalize table'.get? id = s' at hinterface hlike
  cases s with
  | none =>
    obtain rfl := Option.map_eq_none_iff.1 hinterface
    exact .none
  | some s =>
    obtain ⟨s', rfl, -⟩ := Option.map_eq_some_iff.1 hinterface
    exact .some (hlike rfl rfl)

namespace SolveM

/-- Solving candidates alike, the trial comes to the same end. -/
theorem tryCandidates_like (htables : table.Like Q table') {solver solver' : Nat → SolveM Solved}
    (hsolver : ∀ id, Like R Eq (solver id) (solver' id)) (usage : ProcedureUsage) (candidates : List Path) :
    Like R Eq (tryCandidates table usage solver candidates) (tryCandidates table' usage solver' candidates) := by
  induction candidates with
  | nil => exact .pure rfl
  | cons candidate rest ih =>
    rw [tryCandidates, tryCandidates, htables.lookup]
    cases table.lookup candidate with
    | none => exact ih
    | some id =>
      rw [Option.bind_some, Option.bind_some]
      have hsymbol := htables.get?_rel id
      generalize table.get? id = found at hsymbol
      generalize table'.get? id = found' at hsymbol
      cases hsymbol with
      | none => exact ih
      | some hs =>
        dsimp only [Option.map_some]
        rw [hs.params?, hs.span]
        split
        · exact ih
        split
        · exact ih.bind_eq fun _ => .pure rfl
        refine (orRollback_like ((hsolver id).bind_eq fun solved => (acceptCall_like usage solved).bind_eq
          fun _ => .pure rfl)).bind_eq fun r => ?_
        cases r with
        | ok => exact .pure rfl
        | error => exact ih.bind_eq fun _ => .pure rfl

theorem bindCall_like (htables : table.Like Q table') {solver solver' : Nat → Span → SolveM Solved}
    (hsolver : ∀ id span, Like R Eq (solver id span) (solver' id span)) (user : Path) (usage : ProcedureUsage) :
    Like R Eq (bindCall table user solver usage) (bindCall table' user solver' usage) := by
  unfold bindCall
  rw [htables.expand]
  refine (tryCandidates_like htables (fun id => hsolver id usage.span) usage _).bind_eq fun trial => ?_
  split
  · exact .pure rfl
  · exact .throw _
  · exact .throw _
  · exact .throw _

theorem bindGlobal_like (htables : table.Like Q table') {solver solver' : Nat → SolveM Solved}
    (hsolver : ∀ id, Like R Eq (solver id) (solver' id)) (usage : VariableUsage) :
    Like R Eq (bindGlobal table solver usage) (bindGlobal table' solver' usage) := by
  unfold bindGlobal
  rw [htables.lookup]
  split
  · exact .throw _
  · exact (hsolver _).bind_eq fun solved => (onGraph_like _).bind_eq fun _ => .pure rfl

end SolveM

end tables

/-! ### Binding -/

namespace Binder

open SolveM (Like onGraph_like)

/-- Both binders answer the same usages alike. -/
abbrev AnswerAlike (R : List (Expr TypeVar) → List (Expr TypeVar) → Prop) (b b' : Binder SolveM) : Prop :=
  b.Alike (.parallel (Workspace.Like R) (Workspace.Like R)) b'

variable {b b' : Binder SolveM}

theorem AnswerAlike.answering (h : AnswerAlike R b b') :
    Answering (.parallel (Workspace.Like R) (Workspace.Like R)) id True b b' :=
  Alike.answering h (fun _ => onGraph_like _) fun _ _ => .throw _

theorem bindProcedure_like (h : AnswerAlike R b b') (span : Span) (target : Target) :
    Like R Eq (b.bindProcedure span target) (b'.bindProcedure span target) :=
  imageIf_id ▸ h.answering.bindProcedure span target

theorem expr_like (h : AnswerAlike R b b') (e : Expr TypeVar) : Like R Eq (b.expr e) (b'.expr e) :=
  (h.answering.compares fun _ => True).expr_eq (p := .isolated) fun _ _ => trivial

theorem exprs_like (h : AnswerAlike R b b') (es : List (Expr TypeVar)) : Like R Eq (b.exprs es) (b'.exprs es) :=
  (h.answering.compares fun _ => True).exprs_eq (p := .isolated) fun _ _ => trivial

end Binder

/-- Whichever binders are alike bind the bodies to related ones. -/
def BindAlike (R : List (Expr TypeVar) → List (Expr TypeVar) → Prop) (body body' : List (Expr TypeVar)) : Prop :=
  ∀ b b', Binder.AnswerAlike R b b' → SolveM.Like R R (b.exprs body) (b'.exprs body')

/-! ### Solving -/

section solve

variable {table table' : SymbolTable}

/-- Solving a symbol has the same outcome in both tables, and keeps variants that are like each other. -/
theorem solve_like (htables : table.Like (BindAlike R) table') (keep : Bool) (stack : List Activation)
    (request : Request) (id : Nat) :
    SolveM.Like R Eq (solve table keep stack request id) (solve table' keep stack request id) := by
  induction stack using solving_induction table generalizing request id with
  | h stack ih =>
    have hbound (solved : Solved) (hlt : id < table.size) (hfree : id ∉ busy stack) {d d' : Draft}
        (hd : d.Matches (BindAlike R) d') (user : Path) :
        SolveM.Like R R ((solvingBinder table keep (⟨id, solved⟩ :: stack) user d.usages).exprs d.body)
          ((solvingBinder table' keep (⟨id, solved⟩ :: stack) user d'.usages).exprs d'.body) := by
      have hsolve := ih ⟨id, solved⟩ hlt hfree
      exact hd.body _ _ ⟨hd.usages, htables.paramsOf,
        SolveM.bindCall_like htables (fun id span => hsolve (.procedure (some span)) id) user,
        SolveM.bindGlobal_like htables fun id => hsolve .moduleVariable id⟩
    have hsymbol := htables.get?_rel id
    have hsize : ∀ s, table.get? id = some s → id < table.size := fun s hs => (Array.getElem?_eq_some_iff.1 hs).1
    rw [solve, solve]
    generalize table.get? id = found at hsymbol hsize
    generalize table'.get? id = found' at hsymbol
    cases hsymbol with
    | none => exact .throw _
    | @some s s' hs =>
      have hlt := hsize s rfl
      dsimp only
      by_cases hon : id ∈ stack.map Activation.symbol
      · rw [dif_pos hon, dif_pos hon, hs.span, hs.path]
        cases request with
        | procedure =>
          dsimp only
          split
          · exact .pure rfl
          · exact .throw _
        | moduleVariable => exact .throw _
      rw [dif_neg hon, dif_neg hon]
      cases hs with
      | procedure hdraft =>
        cases request with
        | moduleVariable => exact .throw _
        | procedure usage =>
          refine (SolveM.variantsOf_like id).bind fun hknown => (SolveM.draft_like hdraft).bind fun {d d'} hd => ?_
          rw [hd.constraints, hd.args, hd.returns, ← hknown.length_eq]
          refine (SolveM.applyAll_like _).bind_eq fun _ => (hbound _ hlt hon hd _).bind fun {body body'} hbody => ?_
          have hv : Variant.Like R ⟨d.args, d.returns, some body⟩ ⟨d.args, d.returns, some body'⟩ :=
            ⟨rfl, rfl, .some hbody⟩
          exact SolveM.keeping_like keep id hv rfl
      | native =>
        cases request with
        | moduleVariable => exact .throw _
        | procedure usage =>
          refine (SolveM.variantsOf_like id).bind fun hknown => ?_
          rw [← hknown.length_eq]
          refine (SolveM.instantiate_like _ _).bind_eq fun signature => (SolveM.applyAll_like _).bind_eq fun _ => ?_
          exact SolveM.keeping_like keep id ⟨rfl, rfl, .none⟩ rfl
      | moduleVariable hdraft =>
        cases request with
        | procedure => exact .throw _
        | moduleVariable =>
          refine (SolveM.variantsOf_like id).bind fun hknown => ?_
          cases hknown with
          | cons hv _ => exact .pure (by rw [hv.returns])
          | nil =>
            refine (SolveM.draft_like hdraft).bind fun {d d'} hd => ?_
            rw [hd.constraints, hd.returns]
            refine (SolveM.applyAll_like _).bind_eq fun _ => (hbound _ hlt hon hd _).bind fun {body body'} hbody => ?_
            have hv : Variant.Like R ⟨[], d.returns, some body⟩ ⟨[], d.returns, some body'⟩ := ⟨rfl, rfl, .some hbody⟩
            exact SolveM.keeping_like keep id hv rfl
      | external =>
        cases request with
        | procedure => exact .throw _
        | moduleVariable =>
          refine (SolveM.variantsOf_like id).bind fun hknown => ?_
          cases hknown with
          | cons hv _ => exact .pure (by rw [hv.returns])
          | nil =>
            exact (SolveM.onGraph_like _).bind_eq fun v => SolveM.keeping_like keep id ⟨rfl, rfl, .none⟩ rfl

theorem solveSymbol_like (htables : table.Like (BindAlike R) table') (keep : Bool) (id : Nat) :
    SolveM.Like R Eq (solveSymbol table keep id) (solveSymbol table' keep id) := by
  have hsymbol : (table'.get? id).any (fun s => s.declaration.isProcedure) =
      (table.get? id).any fun s => s.declaration.isProcedure := by
    have hrel := htables.get?_rel id
    generalize table.get? id = found at hrel
    generalize table'.get? id = found' at hrel
    cases hrel with
    | none => rfl
    | some hs => rw [Option.any_some, Option.any_some, Declaration.isProcedure, hs.params?]; rfl
  unfold solveSymbol
  rw [hsymbol]
  exact solve_like htables keep [] _ id

end solve

end like

/-! ### Checking -/

namespace Program

variable {R : List (Expr TypeVar) → List (Expr TypeVar) → Prop} {table table' : SymbolTable} {w w' : Workspace}

theorem checkSymbol_like (htables : table.Like (BindAlike R) table') (keep : Bool) (id : Nat) (hw : w.Like R w') :
    (checkSymbol table' keep id w').1 = (checkSymbol table keep id w).1 ∧
      (checkSymbol table keep id w).2.Like R (checkSymbol table' keep id w').2 := by
  unfold checkSymbol
  refine ((solveSymbol_like htables keep id).run hw).elim (fun hx hy _ hst => ?_) fun hx hy hst => ?_
  · rw [hx, hy]
    exact ⟨rfl, hst⟩
  · rw [hx, hy]
    dsimp only
    rw [hw.variants.watermark]
    exact ⟨rfl, hst.graph, hst.variants.rollback _⟩

theorem checkSymbols_like (htables : table.Like (BindAlike R) table') (entries : List Path) (ids : List Nat)
    (errors : List TypeError) (hw : w.Like R w') :
    (checkSymbols table' entries ids errors w').1 = (checkSymbols table entries ids errors w).1 ∧
      (checkSymbols table entries ids errors w).2.Like R (checkSymbols table' entries ids errors w').2 := by
  induction ids generalizing errors w w' with
  | nil => exact ⟨rfl, hw⟩
  | cons id ids ih =>
    have hkeep : (table'.get? id).any (fun s => decide (s.path ∈ entries)) =
        (table.get? id).any fun s => decide (s.path ∈ entries) := by
      have hrel := htables.get?_rel id
      generalize table.get? id = found at hrel
      generalize table'.get? id = found' at hrel
      cases hrel with
      | none => rfl
      | some hs => rw [Option.any_some, Option.any_some, hs.path]
    rw [checkSymbols, checkSymbols, hkeep]
    obtain ⟨herror, hw'⟩ := checkSymbol_like htables ((table.get? id).any fun s => decide (s.path ∈ entries)) id hw
    dsimp only
    rw [herror]
    exact ih _ hw'

/-- Two programs in which all symbols are like each other have the same errors, and variants like each other. -/
theorem check_like {p p' : Program} {options : CheckOptions}
    (htables : (p.prepared options).symbols.Like (BindAlike R) (p'.prepared options).symbols)
    (hw : (p.prepared options).workspace.Like R (p'.prepared options).workspace) :
    (p'.check options).1 = (p.check options).1 ∧
      (p.check options).2.workspace.Like R (p'.check options).2.workspace := by
  have hmissing : missingEntries (p'.prepared options).symbols options.entries =
      missingEntries (p.prepared options).symbols options.entries := by
    rw [missingEntries, missingEntries, funext htables.lookup]
  have hids : (p'.prepared options).symbols.size = (p.prepared options).symbols.size := htables.size
  have hchecked := checkSymbols_like htables options.entries (List.range (p.prepared options).symbols.size)
    (missingEntries (p.prepared options).symbols options.entries) hw
  rw [prepared] at *
  unfold check
  dsimp only
  rw [hmissing, hids]
  exact hchecked

/-! ### Registering symbols -/

/-- The programs have the same symbols, but for some that are replaced by related ones. -/
structure Related (S : Symbol → Symbol → Prop) (p p' : Program) : Prop where
  expansion : p'.symbols.expansion = p.symbols.expansion
  symbols : List.Forall₂ S p.symbols.symbols.toList p'.symbols.symbols.toList
  workspace : p'.workspace = p.workspace

section related

variable {S : Symbol → Symbol → Prop} {p p' : Program}

theorem Related.sameInterfaces (h : p.Related S p') (hS : ∀ s s', S s s' → s'.interface = s.interface) :
    p.symbols.SameInterfaces p'.symbols := by
  refine ⟨h.expansion, Array.toList_inj.1 ?_⟩
  rw [Array.toList_map, Array.toList_map]
  have hsymbols := h.symbols
  generalize p.symbols.symbols.toList = l at hsymbols
  generalize p'.symbols.symbols.toList = l' at hsymbols
  induction hsymbols with
  | nil => rfl
  | cons hs _ ih => rw [List.map_cons, List.map_cons, hS _ _ hs, ih]

theorem Related.get? (h : p.Related S p') {id : Nat} {s s' : Symbol} (hs : p.symbols.get? id = some s)
    (hs' : p'.symbols.get? id = some s') : S s s' := by
  rw [SymbolTable.get?, ← Array.getElem?_toList] at hs hs'
  obtain ⟨hlt, rfl⟩ := List.getElem?_eq_some_iff.1 hs
  obtain ⟨hlt', rfl⟩ := List.getElem?_eq_some_iff.1 hs'
  exact h.symbols.get hlt hlt'

theorem Related.add (h : p.Related S p') (hS : ∀ s s', S s s' → s'.interface = s.interface) {s s' : Symbol}
    (hs : S s s') : (p.add s).2.Related S (p'.add s').2 := by
  have hpath : s'.path = s.path := congrArg Prod.fst (hS _ _ hs)
  have hsize : p'.symbols.size = p.symbols.size := (h.sameInterfaces hS).size
  unfold Program.add SymbolTable.add
  rw [hpath, (h.sameInterfaces hS).lookup, hsize, h.workspace]
  cases p.symbols.lookup s.path with
  | none =>
    refine ⟨h.expansion, ?_, rfl⟩
    dsimp only
    rw [Array.toList_push, Array.toList_push]
    exact List.rel_append h.symbols (.cons hs .nil)
  | some id =>
    refine ⟨h.expansion, ?_, rfl⟩
    dsimp only
    rw [Array.toList_setIfInBounds, Array.toList_setIfInBounds]
    exact forall₂_set h.symbols hs id

theorem Related.addAll (h : p.Related S p') (hS : ∀ s s', S s s' → s'.interface = s.interface)
    {symbols symbols' : List Symbol} (hsymbols : List.Forall₂ S symbols symbols') :
    Related S (symbols.foldl (fun p s => (p.add s).2) p) (symbols'.foldl (fun p s => (p.add s).2) p') := by
  induction hsymbols generalizing p p' with
  | nil => exact h
  | cons hs _ ih => exact ih (h.add hS hs)

theorem ofSymbols_related (hS : ∀ s s', S s s' → s'.interface = s.interface) (expansion : Expansion)
    {symbols symbols' : List Symbol} (h : List.Forall₂ S symbols symbols') :
    (ofSymbols expansion symbols).Related S (ofSymbols expansion symbols') :=
  Related.addAll ⟨rfl, .nil, rfl⟩ hS h

theorem Related.prepared (h : p.Related S p') (hS : ∀ s s', S s s' → s'.interface = s.interface) (hrefl : ∀ s, S s s)
    (options : CheckOptions) : (p.prepared options).Related S (p'.prepared options) := by
  unfold Program.prepared
  split
  · unfold addCore
    induction Core.symbols generalizing p p' with
    | nil => exact h
    | cons s rest ih =>
      rw [List.foldl_cons, List.foldl_cons, (h.sameInterfaces hS).lookup]
      split
      · exact ih h
      · exact ih (h.add hS (hrefl s))
  · exact h

end related

end Program

end Monomorph
