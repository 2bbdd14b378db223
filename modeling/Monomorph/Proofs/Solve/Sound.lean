import Monomorph.Proofs.Solve.Kept
import Monomorph.Proofs.Solve.Typed
import Monomorph.Proofs.Type.Building

/-! # Sound workspaces

As long as no candidate is rejected, all that the solver does to types succeeds, so they only narrow
(`Workspace.Advances`): what was demanded once stays met, and what was unified stays so. A workspace is *sound*
(`Workspace.Sound`) if its types are well-formed and the body of every kept procedure is well-typed, where a call
may go to a variant that is still being solved (`FitsVariant`). -/

namespace Monomorph

open Outcome TypeGraph
open Workspace (Evolves evolves_kept)

/-! ### Regular symbols -/

namespace Declaration

/-- Parameters have different names, no declaration of a local in a procedure is used as a value, and a native
signature has no other variables than its own. -/
def Regular : Declaration → Prop
  | procedure params body => params.Nodup ∧ Expr.tidies body = true
  | native params n => params.Nodup ∧ n.InRange
  | moduleVariable _ | external _ => True

instance (d : Declaration) : Decidable d.Regular := by
  cases d <;> unfold Regular <;> infer_instance

/-- The variables of the graph that a declared type mentions. -/
def vars : Declaration → List TypeVar
  | external type => type.vars
  | _ => []

theorem Regular.nodup {d : Declaration} (h : d.Regular) {params : List String} (hparams : d.params? = some params) :
    params.Nodup := by
  cases d with
  | procedure | native =>
    cases hparams
    exact h.1
  | _ => cases hparams

end Declaration

namespace SymbolTable

def Regular (table : SymbolTable) : Prop := ∀ s ∈ table.symbols, s.declaration.Regular

theorem Regular.get? {table : SymbolTable} (h : table.Regular) {id : Nat} {s : Symbol}
    (hs : table.get? id = some s) : s.declaration.Regular :=
  h s (Array.mem_of_getElem? hs)

/-- As many arguments as the procedure has parameters, if the symbol is a procedure with a body. -/
def HasArity (table : SymbolTable) (id : Nat) (args : List TypeVar) : Prop :=
  ∀ s params body, table.get? id = some s → s.declaration = .procedure params body → args.length = params.length

end SymbolTable

/-! ### Calls of variants -/

/-- A variant with these arguments and this result exists or is being solved. -/
def Offers (stack : List Activation) (store : VariantStore) (k : VariantId) (args : List TypeVar)
    (returns : TypeVar) : Prop :=
  (∃ v, store.find? k = some v ∧ v.args = args ∧ v.returns = returns) ∨
    ∃ a ∈ stack, k = a.variantId ∧ a.solved.args = args ∧ a.solved.returns = returns

/-- A call of a variant that exists or is being solved agrees with the variant: there are as many arguments as
parameters, and the types of arguments and result are those of the variant. -/
structure CallsVariant (table : SymbolTable) (stack : List Activation) (w : Workspace) (path : Path) (i : Nat)
    (args : List TypeVar) (returns : TypeVar) (id : Nat) (symbol : Symbol) (params : List String)
    (calleeArgs : List TypeVar) (calleeReturns : TypeVar) : Prop where
  lookup : table.lookup path = some id
  found : table.get? id = some symbol
  declared : symbol.declaration.params? = some params
  length : args.length = params.length
  offers : Offers stack w.variants ⟨id, i⟩ calleeArgs calleeReturns
  arity : table.HasArity id calleeArgs
  args : ∀ p ∈ calleeArgs.zip args, w.graph.Same p.1 p.2
  returns : w.graph.Same calleeReturns returns

/-- A call that agrees with a variant that exists or is being solved. -/
def FitsVariant (table : SymbolTable) (stack : List Activation) (w : Workspace) : Calls :=
  fun path i args returns => ∃ id symbol params calleeArgs calleeReturns,
    CallsVariant table stack w path i args returns id symbol params calleeArgs calleeReturns

/-- Types are narrowed while variants are added. -/
structure Workspace.Advances (keep : Bool) (busy : List Nat) (w w' : Workspace) : Prop
    extends Evolves keep busy w w' where
  narrows : w.graph.Narrows w'.graph

namespace Workspace

variable {keep : Bool} {busy busy' : List Nat} {w w' : Workspace}

theorem advances_kept : Kept (Advances keep busy) where
  refl w := ⟨evolves_kept.refl w, .refl _⟩
  trans h h' := ⟨evolves_kept.trans h.toEvolves h'.toEvolves, h.narrows.trans h'.narrows⟩

theorem Advances.weaken (h : Advances keep busy' w w') (hbusy : busy ⊆ busy') : Advances keep busy w w' :=
  ⟨h.toEvolves.weaken hbusy, h.narrows⟩

theorem Advances.of_narrows (hvariants : w'.variants = w.variants) (hg : w.graph.Narrows w'.graph) :
    Advances keep busy w w' :=
  ⟨⟨hg.sharpens, hvariants ▸ .refl _, fun _ _ => by rw [hvariants], fun _ => hvariants⟩, hg⟩

end Workspace

open Workspace (Advances advances_kept)

section calls

variable {table : SymbolTable} {stack stack' : List Activation} {w w' : Workspace} {k : VariantId}
  {path : Path} {i : Nat} {args : List TypeVar} {returns : TypeVar}

theorem Offers.mono (h : Offers stack w.variants k args returns) (hw : w.variants.Grows w'.variants)
    (hstack : stack ⊆ stack') : Offers stack' w'.variants k args returns :=
  h.imp (fun ⟨v, hv, hsame⟩ => ⟨v, hw.find? hv, hsame⟩) fun ⟨a, ha, hsame⟩ => ⟨a, hstack ha, hsame⟩

theorem FitsVariant.mono (h : FitsVariant table stack w path i args returns)
    (hvariants : w.variants.Grows w'.variants) (hg : w.graph.Sharpens w'.graph) (hstack : stack ⊆ stack') :
    FitsVariant table stack' w' path i args returns := by
  obtain ⟨id, symbol, params, calleeArgs, calleeReturns, h⟩ := h
  exact ⟨id, symbol, params, calleeArgs, calleeReturns, h.lookup, h.found, h.declared, h.length,
    h.offers.mono hvariants hstack, h.arity, fun p hp => hg.same (h.args p hp), hg.same h.returns⟩

/-- When the first symbol on the stack is kept, its variant exists. -/
theorem Offers.keep {a : Activation} (h : Offers (a :: stack) w.variants k args returns)
    (hsize : a.symbol < w.variants.size) (hnext : a.solved.variant = (w.variants.ofSymbol a.symbol).length)
    (body : Option (List (Expr TypeVar))) :
    Offers stack (w.keeping true a.symbol ⟨a.solved.args, a.solved.returns, body⟩).variants k args returns := by
  rcases h with ⟨v, hv, hsame⟩ | ⟨a', ha', rfl, hsame⟩
  · exact .inl ⟨v, (VariantStore.grows_append _ _ _).find? hv, hsame⟩
  · rcases List.mem_cons.1 ha' with rfl | ha'
    · refine .inl ⟨⟨a'.solved.args, a'.solved.returns, body⟩, ?_, hsame⟩
      rw [Activation.variantId, hnext]
      exact VariantStore.find?_append_self hsize _
    · exact .inr ⟨a', ha', rfl, hsame⟩

theorem FitsVariant.keep {a : Activation} (h : FitsVariant table (a :: stack) w path i args returns)
    (hsize : a.symbol < w.variants.size) (hnext : a.solved.variant = (w.variants.ofSymbol a.symbol).length)
    (body : Option (List (Expr TypeVar))) :
    FitsVariant table stack (w.keeping true a.symbol ⟨a.solved.args, a.solved.returns, body⟩) path i args
      returns := by
  obtain ⟨id, symbol, params, calleeArgs, calleeReturns, h⟩ := h
  exact ⟨id, symbol, params, calleeArgs, calleeReturns, h.lookup, h.found, h.declared, h.length,
    h.offers.keep hsize hnext body, h.arity, h.args, h.returns⟩

end calls

/-! ### Signatures -/

/-- The signatures of variants that exist or are being solved are made of variables that exist, and what is being
solved is the next variant. -/
structure Workspace.Signed (table : SymbolTable) (stack : List Activation) (w : Workspace) : Prop where
  given : ∀ s ∈ table.symbols, w.graph.Allocated s.declaration.vars
  size_eq : w.variants.size = table.size
  next : ∀ a ∈ stack, a.solved.variant = (w.variants.ofSymbol a.symbol).length
  active : ∀ a ∈ stack, w.graph.Allocated (a.solved.returns :: a.solved.args) ∧
    table.HasArity a.symbol a.solved.args
  kept : ∀ {k v}, w.variants.find? k = some v → w.graph.Allocated (v.returns :: v.args) ∧
    table.HasArity k.symbol v.args

namespace Workspace.Signed

variable {table : SymbolTable} {stack : List Activation} {w w' : Workspace}

theorem of_graph (h : Signed table stack w) (hvariants : w'.variants = w.variants)
    (hsize : w.graph.size ≤ w'.graph.size) : Signed table stack w' where
  given s hs := (h.given s hs).mono hsize
  size_eq := by rw [hvariants, h.size_eq]
  next a ha := by rw [hvariants, h.next a ha]
  active a ha := (h.active a ha).imp_left fun hall => hall.mono hsize
  kept hv := (h.kept (hvariants ▸ hv)).imp_left fun hall => hall.mono hsize

theorem push (h : Signed table stack w) {a : Activation}
    (hnext : a.solved.variant = (w.variants.ofSymbol a.symbol).length)
    (hactive : w.graph.Allocated (a.solved.returns :: a.solved.args)) (harity : table.HasArity a.symbol a.solved.args) :
    Signed table (a :: stack) w where
  given := h.given
  size_eq := h.size_eq
  next := List.forall_mem_cons.2 ⟨hnext, h.next⟩
  active := List.forall_mem_cons.2 ⟨⟨hactive, harity⟩, h.active⟩
  kept := h.kept

/-- A variant that exists after the first symbol on the stack is kept is that of the symbol or existed before. -/
theorem find?_keeping {a : Activation} {body : Option (List (Expr TypeVar))} (h : Signed table (a :: stack) w)
    (hsize : a.symbol < table.size) {k : VariantId} {v : Variant}
    (hv : (w.keeping true a.symbol ⟨a.solved.args, a.solved.returns, body⟩).variants.find? k = some v) :
    (k = a.variantId ∧ v = ⟨a.solved.args, a.solved.returns, body⟩) ∨ w.variants.find? k = some v := by
  rcases VariantStore.eq_or_find?_of_append (h.size_eq ▸ hsize) hv with ⟨rfl, rfl⟩ | hv
  · rw [Activation.variantId, h.next a List.mem_cons_self]
    exact .inl ⟨rfl, rfl⟩
  · exact .inr hv

theorem keep {a : Activation} {body : Option (List (Expr TypeVar))} (h : Signed table (a :: stack) w)
    (hsize : a.symbol < table.size) (hfree : a.symbol ∉ busy stack) :
    Signed table stack (w.keeping true a.symbol ⟨a.solved.args, a.solved.returns, body⟩) := by
  refine ⟨h.given, (VariantStore.size_append _ _ _).trans h.size_eq, fun a' ha' => ?_,
    fun a' ha' => h.active a' (List.mem_cons_of_mem _ ha'), fun {k v} hv => ?_⟩
  · have hne : a.symbol ≠ a'.symbol := fun heq => hfree (heq ▸ List.mem_map_of_mem ha')
    rw [h.next a' (List.mem_cons_of_mem _ ha')]
    exact congrArg List.length (VariantStore.ofSymbol_append_of_ne hne).symm
  · rcases h.find?_keeping hsize hv with ⟨rfl, rfl⟩ | hv
    · exact h.active a List.mem_cons_self
    · exact h.kept hv

end Workspace.Signed

/-! ### Sound workspaces -/

/-- All nodes in the body of a kept variant of a procedure are well-typed. -/
def BodyTyped (table : SymbolTable) (stack : List Activation) (w : Workspace) (id : Nat) (v : Variant) : Prop :=
  ∀ {body symbol params}, v.body = some body → table.get? id = some symbol →
    symbol.declaration.params? = some params →
      ∀ n ∈ Expr.nodesOf (.ofParams params v.args v.returns) body,
        Expr.Typed w.graph (FitsVariant table stack w) n

/-- What holds of the workspace while symbols are being solved outright. -/
structure Workspace.Sound (table : SymbolTable) (stack : List Activation) (w : Workspace) : Prop where
  wellFormed : w.graph.WellFormed
  given : ∀ s ∈ table.symbols, w.graph.Allocated s.declaration.vars
  size_eq : w.variants.size = table.size
  /-- What is being solved is the next variant. -/
  next : ∀ a ∈ stack, a.solved.variant = (w.variants.ofSymbol a.symbol).length
  active : ∀ a ∈ stack, w.graph.Allocated (a.solved.returns :: a.solved.args) ∧
    table.HasArity a.symbol a.solved.args
  kept : ∀ {k v}, w.variants.find? k = some v → w.graph.Allocated (v.returns :: v.args) ∧
    table.HasArity k.symbol v.args
  typed : ∀ {k v}, w.variants.find? k = some v → BodyTyped table stack w k.symbol v

namespace Workspace.Sound

variable {table : SymbolTable} {stack : List Activation} {w w' : Workspace}

theorem signed (h : Sound table stack w) : Signed table stack w :=
  ⟨h.given, h.size_eq, h.next, h.active, h.kept⟩

theorem of_graph (h : Sound table stack w) (hvariants : w'.variants = w.variants)
    (hg : NarrowsIn Set.univ w.graph w'.graph) : Sound table stack w' where
  __ := h.signed.of_graph hvariants hg.size_le
  wellFormed := fun _ _ hw => hg.closed.allocated trivial hw
  typed hv _ _ _ hbody hsymbol hparams n hn :=
    (h.typed (hvariants ▸ hv) hbody hsymbol hparams n hn).mono hg.toNarrows fun _ _ _ _ hcall =>
      hcall.mono (hvariants ▸ .refl _) hg.toNarrows.sharpens (List.Subset.refl _)

theorem push (h : Sound table stack w) {a : Activation}
    (hnext : a.solved.variant = (w.variants.ofSymbol a.symbol).length)
    (hactive : w.graph.Allocated (a.solved.returns :: a.solved.args)) (harity : table.HasArity a.symbol a.solved.args) :
    Sound table (a :: stack) w where
  __ := h.signed.push hnext hactive harity
  wellFormed := h.wellFormed
  typed hv _ _ _ hbody hsymbol hparams n hn :=
    (h.typed hv hbody hsymbol hparams n hn).mono (.refl _) fun _ _ _ _ hcall =>
      hcall.mono (.refl _) (.refl _) (List.subset_cons_self _ _)

theorem keep {a : Activation} {body : Option (List (Expr TypeVar))} (h : Sound table (a :: stack) w)
    (hsize : a.symbol < table.size) (hfree : a.symbol ∉ busy stack)
    (hbody : BodyTyped table (a :: stack) w a.symbol ⟨a.solved.args, a.solved.returns, body⟩) :
    Sound table stack (w.keeping true a.symbol ⟨a.solved.args, a.solved.returns, body⟩) where
  __ := h.signed.keep hsize hfree
  wellFormed := h.wellFormed
  typed {k v} hv body' symbol params hbody' hsymbol hparams n hn := by
    have hbefore : BodyTyped table (a :: stack) w k.symbol v := by
      rcases h.signed.find?_keeping hsize hv with ⟨rfl, rfl⟩ | hv
      · exact hbody
      · exact h.typed hv
    exact (hbefore hbody' hsymbol hparams n hn).mono (.refl _) fun _ _ _ _ hcall =>
      hcall.keep (h.size_eq ▸ hsize) (h.next a List.mem_cons_self) body

/-- Keeping the variant of the first symbol on the stack or, if it is not to be kept, dropping it. -/
theorem finish {keep : Bool} {a : Activation} {body : Option (List (Expr TypeVar))} (h : Sound table stack w)
    (hw : Advances keep (busy stack) w w') (h' : Sound table (a :: stack) w') (hsize : a.symbol < table.size)
    (hfree : a.symbol ∉ busy stack)
    (hbody : keep = true → BodyTyped table (a :: stack) w' a.symbol ⟨a.solved.args, a.solved.returns, body⟩) :
    Sound table stack (w'.keeping keep a.symbol ⟨a.solved.args, a.solved.returns, body⟩) := by
  cases keep with
  | true => exact h'.keep hsize hfree (hbody rfl)
  | false => exact h.of_graph (hw.unkept rfl) ⟨hw.narrows, h'.wellFormed.closed⟩

end Workspace.Sound

end Monomorph
