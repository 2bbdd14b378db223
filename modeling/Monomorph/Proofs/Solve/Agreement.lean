import Mathlib
import Monomorph.Proofs.Solve.Clean
import Monomorph.Proofs.Solve.References
import Monomorph.Proofs.Solve.Trials

/-! # Kept references agree with the signatures of variants

A call is bound to a signature that may be solved only later, when the body around it is done, or not at all, when
the candidate is rejected after all. What holds at every point is that each reference in a kept body refers to a
variant that exists or is being solved, and that the types at the reference are in the classes of that variant's
signature (`Workspace.Linked`). Types change in between, also by attempts that fail, but classes only grow and the
variants of a rejected candidate go with the bodies that refer to them. With nothing left to solve, every reference
agrees with a kept variant (`Program.check_agrees`). -/

namespace Monomorph

open Outcome TypeGraph
open Workspace (Evolves evolves_kept Signed)

/-! ### Reads -/

namespace VariantStore

variable {table : SymbolTable} {store : VariantStore} {k k' : VariantId}

/-- The body of a kept variant reads a variant of a module variable. -/
def Reads (table : SymbolTable) (store : VariantStore) (k k' : VariantId) : Prop :=
  ∃ v body target, store.find? k = some v ∧ v.body = some body ∧
    .moduleVariable target ∈ Expr.references body ∧ (Reference.moduleVariable target).Names table k'

/-- Variants that read can be put in an order in which each reads only earlier ones. -/
def Ordered (table : SymbolTable) (store : VariantStore) : Prop := WellFounded fun k' k => store.Reads table k k'

/-- What was there reads after a variant is added what it read before. -/
theorem Reads.of_append {id : Nat} {v v' : Variant} (hid : id < store.size)
    (h : (store.append id v).Reads table k k') (hk : store.find? k = some v') : store.Reads table k k' := by
  obtain ⟨v₁, body, target, hv₁, hrest⟩ := h
  rcases eq_or_find?_of_append hid hv₁ with ⟨rfl, -⟩ | hv₁
  · rw [find?, List.getElem?_eq_none (Nat.le_refl _)] at hk
    cases hk
  · exact ⟨v₁, body, target, hv₁, hrest⟩

/-- If all that is read is there, also by a variant that is added, the order goes on. -/
theorem Ordered.append {id : Nat} {v : Variant} (h : Ordered table store) (hid : id < store.size)
    (hreads : ∀ {k k'}, (store.append id v).Reads table k k' → ∃ v', store.find? k' = some v') :
    Ordered table (store.append id v) := by
  have hbefore (k : VariantId) (hk : ∃ v', store.find? k = some v') :
      Acc (fun k' k => (store.append id v).Reads table k k') k := by
    induction k using h.induction with
    | h k ih =>
      obtain ⟨v', hv'⟩ := hk
      exact ⟨k, fun k' hread => ih k' (hread.of_append hid hv') (hreads hread)⟩
  exact ⟨fun k => ⟨k, fun k' hread => hbefore k' (hreads hread)⟩⟩

end VariantStore

/-! ### Linked workspaces -/

/-- A read of the one variant of a module variable, which exists, at the variant's type. -/
def ReadsVariant (table : SymbolTable) (w : Workspace) : Readings := fun path i type =>
  ∃ id symbol v, table.lookup path = some id ∧ table.get? id = some symbol ∧ symbol.declaration.isProcedure = false ∧
    i = 0 ∧ w.variants.find? ⟨id, i⟩ = some v ∧ w.graph.Same v.returns type

/-- All references in a body refer to variants that suit them. -/
def BodyLinked (table : SymbolTable) (stack : List Activation) (w : Workspace) (body : List (Expr TypeVar)) :
    Prop :=
  ∀ p, ∀ n ∈ Expr.nodesOf p body, n.2.Refers (FitsVariant table stack w) (ReadsVariant table w)

/-- All references in kept bodies refer to variants that suit them, and what is read was kept before. -/
structure Workspace.Linked (table : SymbolTable) (stack : List Activation) (w : Workspace) : Prop
    extends Signed table stack w where
  linked : ∀ {k v body}, w.variants.find? k = some v → v.body = some body → BodyLinked table stack w body
  ordered : w.variants.Ordered table

section linked

variable {table : SymbolTable} {stack : List Activation} {w w' : Workspace} {path : Path} {i : Nat} {type : TypeVar}
  {body : List (Expr TypeVar)}

theorem ReadsVariant.mono (h : ReadsVariant table w path i type) (hvariants : w.variants.Grows w'.variants)
    (hg : w.graph.Sharpens w'.graph) : ReadsVariant table w' path i type := by
  obtain ⟨id, symbol, v, hid, hsymbol, hkind, hi, hv, hsame⟩ := h
  exact ⟨id, symbol, v, hid, hsymbol, hkind, hi, hvariants.find? hv, hg.same hsame⟩

theorem BodyLinked.reads (h : BodyLinked table stack w body) {target : Target}
    (htarget : .moduleVariable target ∈ Expr.references body) {k : VariantId}
    (hk : (Reference.moduleVariable target).Names table k) : k.variant = 0 ∧ ∃ v, w.variants.find? k = some v := by
  obtain ⟨⟨p, e⟩, hn, hr⟩ := List.mem_flatMap.1 htarget
  cases e with
  | global m target' =>
    obtain rfl : target = target' := by simpa [Reference.ofNode] using hr
    obtain ⟨path, i, rfl, id, symbol, v, hid, -, -, hi, hv, -⟩ := h .isolated _ hn
    cases hk with
    | moduleVariable hid' => exact ⟨hi, v, Option.some.inj (hid.symm.trans hid') ▸ hv⟩
  | _ => simp [Reference.ofNode] at hr

theorem BodyLinked.mono (h : BodyLinked table stack w body) (hvariants : w.variants.Grows w'.variants)
    (hg : w.graph.Sharpens w'.graph) : BodyLinked table stack w' body := fun p n hn =>
  (h p n hn).mono (fun _ _ _ _ hcall => hcall.mono hvariants hg (List.Subset.refl _))
    fun _ _ _ hread => hread.mono hvariants hg

namespace Workspace.Linked

theorem of_graph (h : Linked table stack w) (hvariants : w'.variants = w.variants)
    (hg : w.graph.Sharpens w'.graph) : Linked table stack w' where
  __ := h.toSigned.of_graph hvariants hg.size_le
  linked hv hbody := (h.linked (hvariants ▸ hv) hbody).mono (hvariants ▸ .refl _) hg
  ordered := hvariants ▸ h.ordered

theorem push (h : Linked table stack w) {a : Activation}
    (hnext : a.solved.variant = (w.variants.ofSymbol a.symbol).length)
    (hactive : w.graph.Allocated (a.solved.returns :: a.solved.args))
    (harity : table.HasArity a.symbol a.solved.args) : Linked table (a :: stack) w where
  __ := h.toSigned.push hnext hactive harity
  linked hv hbody p n hn := (h.linked hv hbody p n hn).mono
    (fun _ _ _ _ hcall => hcall.mono (.refl _) (.refl _) (List.subset_cons_self _ _)) fun _ _ _ hread => hread
  ordered := h.ordered

/-- All bodies are linked before the first symbol on the stack is kept, its own one included. -/
theorem before_keeping {a : Activation} {body : Option (List (Expr TypeVar))} (h : Linked table (a :: stack) w)
    (hsize : a.symbol < table.size) (hbody : ∀ {l}, body = some l → BodyLinked table (a :: stack) w l)
    {k : VariantId} {v : Variant} {l : List (Expr TypeVar)}
    (hv : (w.keeping true a.symbol ⟨a.solved.args, a.solved.returns, body⟩).variants.find? k = some v)
    (hl : v.body = some l) : BodyLinked table (a :: stack) w l := by
  rcases h.find?_keeping hsize hv with ⟨rfl, rfl⟩ | hv
  · exact hbody hl
  · exact h.linked hv hl

theorem keep {a : Activation} {body : Option (List (Expr TypeVar))} (h : Linked table (a :: stack) w)
    (hsize : a.symbol < table.size) (hfree : a.symbol ∉ busy stack)
    (hbody : ∀ {l}, body = some l → BodyLinked table (a :: stack) w l) :
    Linked table stack (w.keeping true a.symbol ⟨a.solved.args, a.solved.returns, body⟩) := by
  refine ⟨h.toSigned.keep hsize hfree, fun hv hl p n hn => ?_, h.ordered.append (h.size_eq ▸ hsize) ?_⟩
  · exact (h.before_keeping hsize hbody hv hl p n hn).mono
      (fun _ _ _ _ hcall => hcall.keep (h.size_eq ▸ hsize) (h.next a List.mem_cons_self) body)
      fun _ _ _ hread => hread.mono (VariantStore.grows_append _ _ _) (.refl _)
  · rintro k k' ⟨v, l, target, hv, hl, htarget, hk'⟩
    exact ((h.before_keeping hsize hbody hv hl).reads htarget hk').2

/-- Where a symbol is kept that has no variants yet, no kept body reads one. -/
theorem keeping_unread {a : Activation} {body : Option (List (Expr TypeVar))} (h : Linked table (a :: stack) w)
    (hsize : a.symbol < table.size) (hbody : ∀ {l}, body = some l → BodyLinked table (a :: stack) w l)
    (hnone : w.variants.ofSymbol a.symbol = []) {k : VariantId} (hk : k.symbol = a.symbol) (k' : VariantId) :
    ¬(w.keeping true a.symbol ⟨a.solved.args, a.solved.returns, body⟩).variants.Reads table k' k := by
  rintro ⟨v, l, target, hv, hl, htarget, hnames⟩
  obtain ⟨-, v', hv'⟩ := (h.before_keeping hsize hbody hv hl).reads htarget hnames
  rw [VariantStore.find?, hk, hnone] at hv'
  cases hv'

end Workspace.Linked

end linked

open Workspace (Linked)

/-! ### Steps -/

/-- The computation leads from linked workspaces to linked ones while `K` is known, and from where it ends on `P`
holds of its result. -/
abbrev KeepsLinked {α : Type} (table : SymbolTable) (stack : List Activation) (K : Workspace → Prop) (x : SolveM α)
    (P : Workspace → α → Prop) : Prop :=
  Ensures (Evolves true (busy stack)) (Linked table stack) K x (Linked table stack) P

section steps

variable {α : Type} {table : SymbolTable} {stack : List Activation} {K : Workspace → Prop} {x : SolveM α}

theorem KeepsLinked.of_types {P : TypeGraph → α → Prop} (hx : Keeps (Evolves false []) x)
    (hP : ∀ {w a w'}, K w → x w = .ok a w' → ∀ g, w'.graph.Sharpens g → P g a) :
    KeepsLinked table stack K x fun t a => P t.graph a where
  ok {w a w'} hs hK hrun := by
    have hw := (hx w).ok hrun
    have hvariants := hw.unkept rfl
    exact ⟨hs.of_graph hvariants hw.graph, ⟨hw.graph, hw.variants, fun _ _ => by rw [hvariants], nofun⟩,
      fun t ht => hP (hK.here evolves_kept) hrun t.graph ht.graph⟩

namespace SolveM

theorem allocate_linked (span : Option Span) :
    KeepsLinked table stack K (onGraph (allocate ⟨.unit, span⟩)) fun _ _ => True :=
  .of_types (P := fun _ _ => True) (onGraph_evolves ((allocate_extends _).imp TypeGraph.Extends.sharpens))
    fun _ _ _ _ => trivial

theorem unifyAt_linked : Unifies (Evolves true (busy stack)) (Linked table stack) := fun {K v w span path} hK =>
  KeepsLinked.of_types (P := fun g _ => g.Same v w) (onGraph_evolves (unifyAt_sharpens v w span path))
    fun hknown hrun g hg => by
      have hvw := hK _ hknown
      exact hg.same (unifyAt_same (hvw v (by simp)) (hvw w (by simp)) (onGraph_eq_ok_iff.1 hrun).1)

/-- A candidate that accepts a call agrees with it, whatever the trial on copies did. -/
theorem acceptCall_linked {usage : ProcedureUsage} {solved : Solved}
    (hK : ∀ t, K t → t.graph.Allocated (solved.returns :: solved.args) ∧
      t.graph.Allocated (usage.returns :: usage.args)) :
    KeepsLinked table stack K (acceptCall usage solved) fun t _ =>
      Agree t.graph solved.args solved.returns usage.args usage.returns := by
  rw [acceptCall_eq]
  refine .bind evolves_kept (KeepsLinked.of_types (P := fun _ _ => True) ?_ fun _ _ _ _ => trivial) fun _ =>
    unifyCall_agree evolves_kept unifyAt_linked fun t ht => ?_
  · exact evolves_kept.bind copyAll_evolves fun _ => unifyCall_evolves
  · obtain ⟨hsolved, husage⟩ := hK t ht.2
    intro v hv
    simp only [List.mem_cons, List.mem_append] at hv
    grind

/-- What a rejected candidate did to types leaves everything linked, and its variants are dropped. -/
theorem orRollback_linked {P : Workspace → α → Prop} (hx : KeepsLinked table stack K x P)
    (hkeeps : Keeps (Evolves true (busy stack)) x) :
    KeepsLinked table stack K (orRollback x) fun t r => ∀ a, r = .ok a → P t a where
  ok {w r w'} hs hK hrun := by
    cases r with
    | ok a =>
      obtain ⟨hs', hw, hP⟩ := hx.ok hs hK (orRollback_ok hrun)
      refine ⟨hs', hw, fun t ht => ?_⟩
      rintro _ ⟨⟩
      exact hP t ht
    | error e =>
      obtain ⟨hvariants, hgraph⟩ := orRollback_error hkeeps hrun
      refine ⟨hs.of_graph hvariants hgraph, (orRollback_evolves hkeeps w).ok hrun, fun t _ => ?_⟩
      rintro _ ⟨⟩

end SolveM
end steps

/-! ### Usages -/

/-- What is known of a symbol that is solved or being solved. A module variable is never used while it is being
solved. -/
structure Obtained (table : SymbolTable) (stack : List Activation) (request : Request) (id : Nat) (t : Workspace)
    (solved : Solved) : Prop extends Given table true stack request id t solved where
  moduleVariable : request = .moduleVariable → ∃ symbol v, table.get? id = some symbol ∧
    symbol.declaration.isProcedure = false ∧ solved.variant = 0 ∧
      t.variants.find? ⟨id, solved.variant⟩ = some v ∧ v.returns = solved.returns

/-- A solver that leads from linked workspaces to linked ones. -/
structure SolvesLinked (table : SymbolTable) (stack : List Activation) (solve : Request → Nat → SolveM Solved) :
    Prop where
  evolves : ∀ request id, Keeps (Evolves true (busy stack)) (solve request id)
  linked : ∀ (K : Workspace → Prop) (request : Request) (id : Nat),
    KeepsLinked table stack K (solve request id) (Obtained table stack request id)

section usages

variable {table : SymbolTable} {stack : List Activation} {K : Workspace → Prop}
  {solve : Request → Nat → SolveM Solved} {user : Path}

theorem tryCandidates_linked (hsolve : SolvesLinked table stack solve) {usage : ProcedureUsage}
    (hK : ∀ t, K t → t.graph.Allocated (usage.returns :: usage.args)) (candidates : List Path) :
    KeepsLinked table stack K
      (SolveM.tryCandidates table usage (fun id => solve (.procedure (some usage.span)) id) candidates)
      fun t trial => ∀ target, trial.bound = some target → ∃ path i, target = .resolved path i ∧
        path ∈ candidates ∧ FitsVariant table stack t path i usage.args usage.returns := by
  induction candidates with
  | nil =>
    refine .pure evolves_kept fun _ _ => ?_
    rintro _ ⟨⟩
  | cons candidate rest ih =>
    have hlater : KeepsLinked table stack K
        (SolveM.tryCandidates table usage (fun id => solve (.procedure (some usage.span)) id) rest)
        fun t trial => ∀ target, trial.bound = some target → ∃ path i, target = .resolved path i ∧
          path ∈ candidate :: rest ∧ FitsVariant table stack t path i usage.args usage.returns := by
      refine ih.imp (fun _ ht => ht) (fun t trial _ hP target htarget => ?_) evolves_kept
      obtain ⟨path, i, heq, hmem, hfits⟩ := hP target htarget
      exact ⟨path, i, heq, List.mem_cons_of_mem _ hmem, hfits⟩
    rw [SolveM.tryCandidates]
    split
    · exact hlater
    rename_i id symbol hfound
    split
    · exact hlater
    rename_i params hparams
    dsimp only
    split
    · exact .bind evolves_kept hlater fun _ => .pure evolves_kept fun _ ht => ht.1
    rename_i hlength
    obtain ⟨hid, hsymbol⟩ := SymbolTable.eq_some_of_found hfound
    have hattempt : KeepsLinked table stack K (do
        let solved ← solve (.procedure (some usage.span)) id
        SolveM.acceptCall usage solved
        return solved.variant) fun t variant =>
          FitsVariant table stack t candidate variant usage.args usage.returns := by
      refine .bind evolves_kept (hsolve.linked K _ id) fun solved =>
        .bind evolves_kept (SolveM.acceptCall_linked fun t ht => ⟨ht.1.allocated, hK t ht.2⟩) fun _ =>
          .pure evolves_kept fun t ht => ?_
      obtain ⟨hagree, hgiven, -⟩ := ht
      exact ⟨id, symbol, params, solved.args, solved.returns, hid, hsymbol, hparams,
        (Decidable.of_not_not hlength).symm, hgiven.offers rfl (fun h => by cases h), hgiven.arity, hagree.args,
        hagree.returns⟩
    refine .bind evolves_kept (SolveM.orRollback_linked hattempt ?_) fun r => ?_
    · exact evolves_kept.bind (hsolve.evolves _ id) fun _ => evolves_kept.bind SolveM.acceptCall_evolves
        fun _ => evolves_kept.pure _
    · cases r with
      | ok variant =>
        refine .pure evolves_kept fun t ht => ?_
        rintro _ ⟨⟩
        exact ⟨candidate, variant, rfl, List.mem_cons_self, ht.1 variant rfl⟩
      | error e =>
        exact .bind evolves_kept (hlater.imp (fun _ ht => ht.2) (fun _ _ _ hP => hP) evolves_kept) fun _ =>
          .pure evolves_kept fun _ ht => ht.1

theorem bindCall_linked (hsolve : SolvesLinked table stack solve) {b : Binder SolveM}
    (hparams : b.params = table.paramsOf) {usage : ProcedureUsage}
    (hK : ∀ t, K t → t.graph.Allocated (usage.returns :: usage.args)) :
    KeepsLinked table stack K
      (SolveM.bindCall table user (fun id span => solve (.procedure (some span)) id) usage)
      fun t target => b.Resolution (FitsVariant table stack t) usage target := by
  refine .bind evolves_kept (tryCandidates_linked hsolve hK _) fun ⟨bound, considered, rejections⟩ => ?_
  cases bound with
  | none =>
    cases rejections with
    | nil => exact .throw
    | cons e rest => cases rest <;> exact .throw
  | some target =>
    refine .pure evolves_kept fun t ht => ?_
    obtain ⟨path, i, rfl, hmem, hfits⟩ := ht.1 target rfl
    refine ⟨⟨path, i, rfl, hfits⟩, fun hkind => ?_⟩
    obtain ⟨id, symbol, params, calleeArgs, calleeReturns, hcalls⟩ := hfits
    have hpath : path = usage.path := by
      simpa [hkind] using hmem
    rw [hparams, SymbolTable.paramsOf, ← hpath, hcalls.lookup, Option.bind_some, hcalls.found, Option.bind_some,
      hcalls.declared, Option.getD_some, hcalls.length]

/-- The answer to a use of a module variable suits it. -/
theorem bindGlobal_linked (hsolve : SolvesLinked table stack solve) {usage : VariableUsage}
    (hK : ∀ t, K t → t.graph.Allocated [usage.type]) :
    KeepsLinked table stack K (SolveM.bindGlobal table (solve .moduleVariable) usage) fun t target =>
      ∃ path i, target = .resolved path i ∧ ReadsVariant table t path i usage.type := by
  unfold SolveM.bindGlobal
  split
  · exact .throw
  rename_i id hid
  refine .bind evolves_kept (hsolve.linked K _ id) fun solved =>
    .bind evolves_kept (SolveM.unifyAt_linked fun t ht => ?_) fun _ => .pure evolves_kept fun t ht => ?_
  · exact List.forall_mem_cons.2 ⟨hK t ht.2 _ List.mem_cons_self,
      List.forall_mem_singleton.2 (ht.1.allocated _ List.mem_cons_self)⟩
  · obtain ⟨hsame, hobtained, -⟩ := ht
    obtain ⟨symbol, v, hsymbol, hkind, hfirst, hv, hreturns⟩ := hobtained.moduleVariable rfl
    exact ⟨usage.path, solved.variant, rfl, id, symbol, v, hid, hsymbol, hkind, hfirst, hv,
      hreturns ▸ t.graph.same_equivalence.symm hsame⟩

/-- All usages of a draft whose types are allocated are answered. -/
theorem solvingBinder_serves (hsolve : SolvesLinked table stack (Monomorph.solve table true stack)) {d : Draft}
    (hK : ∀ t, K t → t.graph.Allocated d.usages.types) :
    (solvingBinder table true stack user d.usages).Serves (Evolves true (busy stack)) (Linked table stack) K
      d.records fun t => (solvingBinder table true stack user d.usages).linking (FitsVariant table stack t)
        (ReadsVariant table t) where
  kept := evolves_kept
  procedures := rfl
  globals := rfl
  procedure usage hu := bindCall_linked hsolve rfl fun t ht v hv => hK t ht v
    (List.mem_append_left _ (List.mem_flatMap.2 ⟨usage, Array.mem_toList_iff.2 hu, hv⟩))
  moduleVariable _ hu := bindGlobal_linked hsolve fun t ht => List.forall_mem_singleton.2 (hK t ht _
    (List.mem_append_right _ (List.mem_map_of_mem (Array.mem_toList_iff.2 hu))))
  allocate := SolveM.allocate_linked

end usages

/-! ### Solving -/

/-- Only variables of their own are used by native signatures. -/
def Declaration.InRange : Declaration → Prop
  | native _ n => n.InRange
  | _ => True

theorem Declaration.Regular.inRange {d : Declaration} (h : d.Regular) : d.InRange := by
  cases d with
  | native => exact h.2
  | _ => trivial

section solving

variable {table : SymbolTable} {stack : List Activation} {request : Request} {w w' : Workspace}

theorem Obtained.mono {id : Nat} {solved : Solved} (h : Obtained table stack request id w solved)
    (hw : Evolves true (busy stack) w w') : Obtained table stack request id w' solved where
  allocated := h.allocated.mono hw.graph.size_le
  arity := h.arity
  offers hkeep hrequest := (h.offers hkeep hrequest).mono hw.variants (List.Subset.refl _)
  moduleVariable hrequest := by
    obtain ⟨symbol, v, hsymbol, hkind, hfirst, hv, hreturns⟩ := h.moduleVariable hrequest
    exact ⟨symbol, v, hsymbol, hkind, hfirst, hw.variants.find? hv, hreturns⟩

/-- A signature without a body is made of allocated variables. -/
theorem Symbol.Makes.allocated {symbol : Symbol} {args : List TypeVar} {returns : TypeVar}
    (h : symbol.Makes request w args returns w') (hrange : symbol.declaration.InRange)
    (hgiven : w.graph.Allocated symbol.declaration.vars) : w'.graph.Allocated (returns :: args) := by
  cases h with
  | @native usage params n signature w w₁ w' hdeclaration hsignature happlied =>
    rw [hdeclaration] at hrange
    cases hsignature
    have hallocated := n.instantiate_allocates (usage.getD symbol.span) w.graph hrange
    obtain ⟨hsignature, -⟩ := List.forall_mem_append.1 hallocated
    have hevolves : Evolves false [] _ w' := (SolveM.applyAll_evolves _ _).ok happlied
    exact Allocated.mono hsignature hevolves.graph.size_le
  | @external type v w w' hdeclaration hbuilt =>
    rw [hdeclaration] at hgiven
    exact List.forall_mem_singleton.2 (WrittenType.build_allocated hgiven (SolveM.onGraph_eq_ok_iff.1 hbuilt).1)

theorem Workspace.Linked.solved {a : Activation} {symbol : Symbol} {body : Option (List (Expr TypeVar))}
    (h : Linked table (a :: stack) w') (hsymbol : table.get? a.symbol = some symbol) (hsuits : request.Suits symbol)
    (hfree : a.symbol ∉ busy stack) (hfirst : request = .moduleVariable → a.solved.variant = 0)
    (hbody : ∀ {l}, body = some l → BodyLinked table (a :: stack) w' l)
    (hevolves : Evolves true (busy stack) w (w'.keeping true a.symbol ⟨a.solved.args, a.solved.returns, body⟩)) :
    Linked table stack (w'.keeping true a.symbol ⟨a.solved.args, a.solved.returns, body⟩) ∧
      Evolves true (busy stack) w (w'.keeping true a.symbol ⟨a.solved.args, a.solved.returns, body⟩) ∧
        Always (Evolves true (busy stack)) (fun t => Obtained table stack request a.symbol t a.solved)
          (w'.keeping true a.symbol ⟨a.solved.args, a.solved.returns, body⟩) := by
  have hsize : a.symbol < table.size := (Array.getElem?_eq_some_iff.1 hsymbol).1
  have hkept : (w'.keeping true a.symbol ⟨a.solved.args, a.solved.returns, body⟩).variants.find? a.variantId =
      some ⟨a.solved.args, a.solved.returns, body⟩ := by
    rw [Activation.variantId, h.next a List.mem_cons_self]
    exact VariantStore.find?_append_self (h.size_eq ▸ hsize) _
  obtain ⟨hallocated, harity⟩ := h.active a List.mem_cons_self
  have hobtained : Obtained table stack request a.symbol
      (w'.keeping true a.symbol ⟨a.solved.args, a.solved.returns, body⟩) a.solved := by
    refine ⟨⟨hallocated, harity, fun _ _ => .inl ⟨_, hkept, rfl, rfl⟩⟩, fun hrequest => ?_⟩
    subst hrequest
    exact ⟨symbol, _, hsymbol, hsuits, hfirst rfl, hkept, rfl⟩
  exact ⟨h.keep hsize hfree hbody, hevolves, fun _ ht => hobtained.mono ht⟩

theorem Symbol.draft_recorded {symbol : Symbol} {draft : TypeGraph → Except TypeError Draft × TypeGraph} {d : Draft}
    {g g' : TypeGraph} (hdraft : symbol.draft? table = some draft) (h : draft g = (.ok d, g')) :
    ∃ p, ∀ n ∈ Expr.nodesOf p d.body, n.2.Recorded d.records n.1 := by
  unfold Symbol.draft? at hdraft
  split at hdraft <;> cases hdraft
  · exact ⟨_, (Draft.ofProcedure_recorded h).2⟩
  · exact ⟨_, Draft.ofVariable_recorded h⟩

theorem Symbol.draft_hasArity {symbol : Symbol} {id : Nat} (hsymbol : table.get? id = some symbol)
    {draft : TypeGraph → Except TypeError Draft × TypeGraph} {d : Draft} {g g' : TypeGraph}
    (hdraft : symbol.draft? table = some draft) (h : draft g = (.ok d, g')) : table.HasArity id d.args := by
  intro symbol' params body hsymbol' hdeclaration
  cases hsymbol.symm.trans hsymbol'
  rw [Symbol.draft?, hdeclaration] at hdraft
  cases hdraft
  exact (Draft.ofProcedure_recorded h).1

/-- Where the signature of a symbol without a body is made, the symbol is the next to be kept. -/
theorem Workspace.Linked.made (hs : Linked table stack w) (htable : ∀ s ∈ table.symbols, s.declaration.InRange)
    {symbol : Symbol} {id : Nat} {args : List TypeVar} {returns : TypeVar} (hsymbol : table.get? id = some symbol)
    (hmade : symbol.Makes request w args returns w') :
    Linked table (⟨id, (w.variants.ofSymbol id).length, args, returns⟩ :: stack) w' := by
  have hmem := Array.mem_of_getElem? hsymbol
  have hvariants := hmade.evolves.unkept rfl
  exact (hs.of_graph hvariants hmade.evolves.graph).push (by rw [hvariants])
    (hmade.allocated (htable symbol hmem) (hs.given symbol hmem)) (hmade.hasArity hsymbol)

/-- Where a body is bound, its symbol is the next to be kept, and the references in the body are linked. -/
theorem Workspace.Linked.bound {symbol : Symbol} {id : Nat}
    {draft : TypeGraph → Except TypeError Draft × TypeGraph} {d : Draft} {body : List (Expr TypeVar)}
    {w₁ w₂ w₃ : Workspace} (hs : Linked table stack w) (hsymbol : table.get? id = some symbol)
    (hdraft : symbol.draft? table = some draft) (hdrafted : SolveM.draft draft w = .ok d w₁)
    (happlied : SolveM.applyAll d.constraints w₁ = .ok () w₂) {a : Activation}
    (ha : a = ⟨id, (w.variants.ofSymbol id).length, d.args, d.returns⟩)
    (hsolve : SolvesLinked table (a :: stack) (solve table true (a :: stack)))
    (hbound : Binder.exprs (solvingBinder table true (a :: stack) symbol.path d.usages) d.body w₂ = .ok body w₃) :
    Linked table (a :: stack) w₃ ∧ BodyLinked table (a :: stack) w₃ body ∧
      w₃.variants.ofSymbol id = w.variants.ofSymbol id := by
  subst ha
  have hdraft₁ := (SolveM.draft_ok hdrafted).1
  obtain ⟨-, -, hsignature, husages⟩ := Symbol.draft_regional hdraft hdraft₁
  have hsteps₁ : Evolves false [] w w₁ := (SolveM.draft_evolves (Symbol.draft_sprouts hdraft) w).ok hdrafted
  have hsteps₂ : Evolves false [] w₁ w₂ := (SolveM.applyAll_evolves _ w₁).ok happlied
  have hsteps := evolves_kept.trans hsteps₁ hsteps₂
  have hvariants := hsteps.unkept rfl
  have hs₂ := (hs.of_graph hvariants hsteps.graph).push
    (a := ⟨id, (w.variants.ofSymbol id).length, d.args, d.returns⟩) (by rw [hvariants])
    (Allocated.mono (fun v hv => (hsignature v hv).2) hsteps₂.graph.size_le)
    (Symbol.draft_hasArity hsymbol hdraft hdraft₁)
  obtain ⟨hs₃, hevolves, hrenewed⟩ := (Binder.exprs_renews d.body (solvingBinder_serves hsolve
    (K := fun t => t.graph.Allocated d.usages.types) fun _ ht => ht)).ok hs₂
    (fun t ht => Allocated.mono (fun v hv => (husages v hv).2)
      (Nat.le_trans hsteps₂.graph.size_le ht.graph.size_le)) hbound
  refine ⟨hs₃, fun p n hn => ?_, ?_⟩
  · obtain ⟨q, hrecorded⟩ := Symbol.draft_recorded hdraft hdraft₁
    obtain ⟨_, hq⟩ := Expr.exists_mem_nodesOf q hn
    obtain ⟨n₀, hn₀, hnode⟩ := (hrenewed.here evolves_kept).nodes _ _ hq
    exact hnode.refers (hrecorded n₀ hn₀)
  · rw [hevolves.busy id List.mem_cons_self, hvariants]

/-- Solving a symbol to be kept leaves all references linked. -/
theorem solve_linked (htable : ∀ s ∈ table.symbols, s.declaration.InRange) (stack : List Activation) :
    SolvesLinked table stack (solve table true stack) := by
  induction stack using solving_induction table with
  | h stack ih =>
    refine ⟨solve_evolves table true stack, fun K request id => ⟨fun {w solved w'} hs _ hrun => ?_⟩⟩
    have hevolves := (solve_evolves table true stack request id w).ok hrun
    cases solving_of_ok hrun with
    | @reused usage a w ha =>
      obtain ⟨hallocated, harity⟩ := hs.active a ha
      have hobtained : Obtained table stack (.procedure usage) a.symbol w a.solved :=
        ⟨⟨hallocated, harity, fun _ _ => .inr ⟨a, ha, rfl, rfl, rfl⟩⟩, fun h => by cases h⟩
      exact ⟨hs, evolves_kept.refl w, fun _ ht => hobtained.mono ht⟩
    | @known id symbol v rest w hsymbol hsuits hknown =>
      have hv : w.variants.find? ⟨id, 0⟩ = some v := by
        rw [VariantStore.find?, hknown, List.getElem?_cons_zero]
      have hreturns := (hs.kept hv).1 v.returns List.mem_cons_self
      have hobtained : Obtained table stack .moduleVariable id w ⟨0, [], v.returns⟩ :=
        ⟨⟨List.forall_mem_singleton.2 hreturns, hsuits.hasArity hsymbol _, fun _ h => (h rfl).elim⟩,
          fun _ => ⟨symbol, v, hsymbol, hsuits, rfl, hv, rfl⟩⟩
      exact ⟨hs, evolves_kept.refl w, fun _ ht => hobtained.mono ht⟩
    | @bodiless request id symbol args returns w w' hsymbol hfree hsuits hnew hmade =>
      exact (hs.made htable hsymbol hmade).solved (a := ⟨id, _, args, returns⟩) hsymbol hsuits hfree
        (fun h => congrArg List.length (hnew h)) (fun h => by cases h) hevolves
    | @drafted request id symbol draft d body w w₁ w₂ w₃ hsymbol hfree hsuits hnew hdraft hdrafted happlied
        hbound =>
      obtain ⟨hs₃, hbody, -⟩ := hs.bound hsymbol hdraft hdrafted happlied rfl
        (ih _ (Array.getElem?_eq_some_iff.1 hsymbol).1 hfree) hbound
      refine hs₃.solved (a := ⟨id, _, d.args, d.returns⟩) hsymbol hsuits hfree
        (fun h => congrArg List.length (hnew h)) (fun hl => ?_) hevolves
      cases hl
      exact hbody

/-- When a module variable is kept for the first time, no kept body reads it. -/
theorem solve_unread (htable : ∀ s ∈ table.symbols, s.declaration.InRange) (hs : Linked table stack w) {id : Nat}
    {solved : Solved} (hrun : solve table true stack .moduleVariable id w = .ok solved w')
    (hnone : w.variants.ofSymbol id = []) {k k' : VariantId} (hk : k.symbol = id) :
    ¬w'.variants.Reads table k' k := by
  cases solving_of_ok hrun with
  | known _ _ hknown =>
    rw [hnone] at hknown
    cases hknown
  | @bodiless _ _ symbol args returns _ w' hsymbol hfree _ _ hmade =>
    have hs' := hs.made htable hsymbol hmade
    exact hs'.keeping_unread (a := ⟨id, _, args, returns⟩) (Array.getElem?_eq_some_iff.1 hsymbol).1
      (fun h => by cases h) (by rw [hmade.evolves.unkept rfl, hnone]) hk k'
  | @drafted _ _ symbol draft d body _ _ _ w₃ hsymbol _ _ _ hdraft hdrafted happlied hbound =>
    obtain ⟨hs₃, hbody, hvariants⟩ := hs.bound hsymbol hdraft hdrafted happlied rfl (solve_linked htable _) hbound
    refine hs₃.keeping_unread (a := ⟨id, _, d.args, d.returns⟩) (Array.getElem?_eq_some_iff.1 hsymbol).1 (fun h => ?_)
      (hvariants.trans hnone) hk k'
    cases h
    exact hbody

end solving

/-! ### Kept references -/

/-- A use of a variant with these arguments and this result agrees with the variant's signature. -/
structure AgreesWith (table : SymbolTable) (w : Workspace) (k : VariantId) (v : Variant) (args : List TypeVar)
    (returns : TypeVar) : Prop where
  kept : w.variants.find? k = some v
  /-- A procedure with a body is called with as many arguments as the variant has. -/
  length : ∀ s params body, table.get? k.symbol = some s → s.declaration = .procedure params body →
    args.length = v.args.length
  args : ∀ p ∈ v.args.zip args, w.graph.Same p.1 p.2
  returns : w.graph.Same v.returns returns

/-- What is referred to is a kept variant of a symbol of the right kind, and the types where the reference stands
are in the classes of its signature. -/
def Expr.Agrees (table : SymbolTable) (w : Workspace) : Expr TypeVar → Prop
  | .name .. | .procedure .. => False
  | .global m target => ∃ k v, (Reference.moduleVariable target).Names table k ∧ AgreesWith table w k v [] m.note
  | .invoke m target args =>
    ∃ k v, (Reference.procedure target).Names table k ∧ AgreesWith table w k v (args.map note) m.note
  | _ => True

/-- Where nothing is being solved, what references are linked to is kept. -/
theorem Expr.Refers.agrees {table : SymbolTable} {w : Workspace} {e : Expr TypeVar}
    (h : e.Refers (FitsVariant table [] w) (ReadsVariant table w)) : e.Agrees table w := by
  cases e with
  | name | procedure => exact h
  | global m target =>
    obtain ⟨path, i, rfl, id, symbol, v, hid, hsymbol, hkind, -, hv, hsame⟩ := h
    refine ⟨⟨id, i⟩, v, .moduleVariable hid hsymbol hkind, hv, fun s params body hs hdeclaration => ?_, by simp,
      hsame⟩
    cases hsymbol.symm.trans hs
    simp [hdeclaration, Declaration.isProcedure, Declaration.params?] at hkind
  | invoke m target args =>
    obtain ⟨path, i, rfl, id, symbol, params, calleeArgs, calleeReturns, hcall⟩ := h
    obtain ⟨v, hv, rfl, rfl⟩ | ⟨a, ha, -⟩ := hcall.offers
    · refine ⟨⟨id, i⟩, v, .procedure hcall.lookup hcall.found (Option.isSome_of_mem hcall.declared), hv,
        fun s params' body hs hdeclaration => ?_, hcall.args, hcall.returns⟩
      have hdeclared := hcall.declared
      cases hcall.found.symm.trans hs
      rw [hdeclaration] at hdeclared
      cases hdeclared
      exact hcall.length.trans (hcall.arity _ _ _ hs hdeclaration).symm
    · cases ha
  | _ => trivial

namespace Program

/-- A program in which nothing is solved yet, and whose signatures and declared types are made of variables that
exist. -/
structure Grounded (p : Program) : Prop where
  fresh : p.Fresh
  natives : ∀ s ∈ p.symbols.symbols, s.declaration.InRange
  given : ∀ s ∈ p.symbols.symbols, p.workspace.graph.Allocated s.declaration.vars

theorem empty_grounded (expansion : Expansion) : (empty expansion).Grounded :=
  ⟨empty_fresh expansion, nofun, nofun⟩

theorem add_grounded {p : Program} (h : p.Grounded) {s : Symbol} (hs : s.declaration.InRange)
    (hgiven : p.workspace.graph.Allocated s.declaration.vars) : (p.add s).2.Grounded := by
  refine ⟨add_fresh h.fresh s, fun s' hs' => ?_, fun s' hs' => ?_⟩
  · rcases mem_add hs' with rfl | hs'
    · exact hs
    · exact h.natives s' hs'
  · rcases mem_add hs' with rfl | hs'
    · exact hgiven
    · exact h.given s' hs'

theorem prepared_grounded {p : Program} (h : p.Grounded) (options : CheckOptions) :
    (p.prepared options).Grounded := by
  unfold prepared
  split
  · unfold addCore
    refine List.foldlRecOn Core.symbols _ h fun p hp s hs => ?_
    obtain ⟨hregular, hvars⟩ := core_regular s hs
    split
    · exact hp
    · exact add_grounded hp hregular.inRange (hvars ▸ nofun)
  · exact h

theorem Grounded.linked {p : Program} (h : p.Grounded) : Linked p.symbols [] p.workspace where
  given := h.given
  size_eq := by rw [h.fresh, Array.size_replicate]
  next := nofun
  active := nofun
  kept hv := by
    rw [h.fresh.find?] at hv
    cases hv
  linked hv := by
    rw [h.fresh.find?] at hv
    cases hv
  ordered := by
    refine ⟨fun k => ⟨k, fun k' hread => ?_⟩⟩
    obtain ⟨v, -, -, hv, -⟩ := hread
    rw [h.fresh.find?] at hv
    cases hv

section checked

variable {table : SymbolTable} {w : Workspace}

/-- Checking a symbol leaves all references linked, whether it is kept or not and whether it succeeds or fails. -/
theorem checkSymbol_linked (htable : ∀ s ∈ table.symbols, s.declaration.InRange) (hw : Linked table [] w)
    (keep : Bool) (id : Nat) : Linked table [] (checkSymbol table keep id w).2 := by
  rcases hcheck : checkSymbol table keep id w with ⟨_ | e, w'⟩
  · obtain ⟨solved, hsolved⟩ := checkSymbol_ok hcheck
    cases keep with
    | false =>
      have hevolves := (solveSymbol_evolves table false id w).ok hsolved
      exact hw.of_graph (hevolves.unkept rfl) hevolves.graph
    | true => exact (((solve_linked htable []).linked (fun _ => True) _ id).ok hw (fun _ _ => trivial) hsolved).1
  · obtain ⟨hvariants, hgraph⟩ := checkSymbol_error hcheck
    exact hw.of_graph hvariants hgraph

theorem checkSymbols_linked (htable : ∀ s ∈ table.symbols, s.declaration.InRange) (hw : Linked table [] w)
    (entries : List Path) (ids : List Nat) (errors : List TypeError) :
    Linked table [] (checkSymbols table entries ids errors w).2 := by
  induction ids generalizing errors w with
  | nil => exact hw
  | cons id ids ih => exact ih (checkSymbol_linked htable hw _ id) _

end checked

/-- However a check ends, all references in kept bodies are linked. -/
theorem check_linked {p : Program} (hp : p.Grounded) (options : CheckOptions) :
    Linked (p.check options).2.symbols [] (p.check options).2.workspace :=
  checkSymbols_linked (prepared_grounded hp options).natives (prepared_grounded hp options).linked _ _ _

/-- Every reference in a kept body or value agrees with the signature of the kept variant that it refers to. -/
theorem check_agrees {p : Program} (hp : p.Grounded) (options : CheckOptions) {k : VariantId} {v : Variant}
    {body : List (Expr TypeVar)} (hv : (p.check options).2.workspace.variants.find? k = some v)
    (hbody : v.body = some body) (place : Place) :
    ∀ n ∈ Expr.nodesOf place body, n.2.Agrees (p.check options).2.symbols (p.check options).2.workspace :=
  fun n hn => ((check_linked hp options).linked hv hbody place n hn).agrees

/-- The references in the body of a kept variant. -/
def referencesAt (p : Program) (k : VariantId) : Option (List Reference) :=
  (p.workspace.variants.find? k >>= Variant.body).map Expr.references

theorem referencesAt_eq_some {p : Program} {k : VariantId} {l : List Reference} (h : p.referencesAt k = some l) :
    ∃ v body, p.workspace.variants.find? k = some v ∧ v.body = some body ∧ Expr.references body = l := by
  obtain ⟨body, hbody, hl⟩ := Option.map_eq_some_iff.1 h
  obtain ⟨v, hv, hbody⟩ := Option.bind_eq_some_iff.1 hbody
  exact ⟨v, body, hv, hbody, hl⟩

/-- Two procedures that call each other, one of them used as a value by a third, which also reads a module
variable. -/
def handingOn : Program :=
  let m : Mark Unit := ⟨.none, ()⟩
  let var (name : String) : Expr Unit := .name m (.single name)
  let declare (p : Program) (name : String) (params : List String) (body : List (Expr Unit)) : Program :=
    (p.add ⟨.single name, .none, .procedure params body⟩).2
  declare (declare (declare
      ((empty .modules).add ⟨.single "start", .none, .moduleVariable (.literal m (.integer 1))⟩).2
      "even" ["n"] [.giveBack m (.call m (var "odd") [var "n"])])
    "odd" ["n"] [.giveBack m (.call m (var "even") [var "n"])])
    "main" [] [.define m "f" false (var "even"), .giveBack m (.call m (var "f") [var "start"])]

/-- With `main` as entry, the closure that stands for `even` calls its first variant, whose own reference is the
call of `odd`, which calls back; all of them agree. -/
theorem check_agrees_handingOn : handingOn.Grounded ∧
    ∀ kept ∈ [(VariantId.mk 3 0, [Reference.procedure (.resolved (.single "even") 0),
        .moduleVariable (.resolved (.single "start") 0)]),
      (⟨1, 0⟩, [.procedure (.resolved (.single "odd") 0)]), (⟨2, 0⟩, [.procedure (.resolved (.single "even") 0)])],
    ∃ v body, handingOn.checkedMain.workspace.variants.find? kept.1 = some v ∧ v.body = some body ∧
      Expr.references body = kept.2 ∧ ∀ n ∈ Expr.nodesOf .isolated body,
        n.2.Agrees handingOn.checkedMain.symbols handingOn.checkedMain.workspace := by
  have hgrounded : handingOn.Grounded :=
    add_grounded (add_grounded (add_grounded (add_grounded (empty_grounded _) (by trivial) (by exact nofun))
      (by trivial) (by exact nofun)) (by trivial) (by exact nofun)) (by trivial) nofun
  refine ⟨hgrounded, fun kept hkept => ?_⟩
  have hreferences : handingOn.checkedMain.referencesAt kept.1 = some kept.2 := by
    simp only [List.mem_cons, List.not_mem_nil, or_false] at hkept
    rcases hkept with rfl | rfl | rfl <;> cbv
  obtain ⟨v, body, hv, hbody, hl⟩ := referencesAt_eq_some hreferences
  exact ⟨v, body, hv, hbody, hl, check_agrees hgrounded _ hv hbody .isolated⟩

end Program
end Monomorph
