import Monomorph.Proofs.Solve.Agreement
import Monomorph.Proofs.Solve.Stacking

/-! # What solving can reach

A symbol is solved with types of its own. Those that it shares with what was there before are few: the types of
module variables that were kept, those that declared types mention, and the signatures of the symbols that are being
solved. A region that has them has all that solving changes, also where it fails half-way (`solve_confined`).

Only symbols that one asks for, and that these ask for in turn, matter (`SymbolTable.Asks`). The native procedures
among them must not take more arguments than they declare parameters: otherwise the trial of a call looks for the
result of the caller beyond the copies. -/

namespace Monomorph

open Outcome TypeGraph
open SolveM (TypesChangeIn typesChangeIn_kept Regards)

/-! ### Symbols that ask for others -/

namespace SymbolTable

/-- A draft of the symbol has a use for which the other one may be solved. -/
def Asks (table : SymbolTable) (id id' : Nat) : Prop :=
  ∃ symbol draft d g g', table.get? id = some symbol ∧ symbol.draft? table = some draft ∧ draft g = (.ok d, g') ∧
    ((∃ usage ∈ d.usages.procedures, ∃ c ∈ SolveM.candidates table symbol.path usage, table.lookup c = some id') ∨
      ∃ usage ∈ d.usages.globals, table.lookup usage.path = some id')

/-- What symbols of the set ask for is in the set. -/
def Asking (table : SymbolTable) (T : Set Nat) : Prop := ∀ {id id' : Nat}, id ∈ T → table.Asks id id' → id' ∈ T

/-- Some symbols and those that may be solved for them. -/
def involved (table : SymbolTable) (ids : Set Nat) : Set Nat :=
  {id' | ∃ id ∈ ids, Relation.ReflTransGen table.Asks id id'}

theorem asking_involved (table : SymbolTable) (ids : Set Nat) : table.Asking (table.involved ids) :=
  fun ⟨id, hid, h⟩ hasks => ⟨id, hid, h.tail hasks⟩

theorem mem_involved {table : SymbolTable} {ids : Set Nat} {id : Nat} (h : id ∈ ids) : id ∈ table.involved ids :=
  ⟨id, h, .refl⟩

theorem asking_univ (table : SymbolTable) : table.Asking Set.univ := fun _ _ => trivial

end SymbolTable

/-! ### What symbols share -/

namespace Workspace

variable {table : SymbolTable} {T : Set Nat} {s : Set TypeVar} {w w' : Workspace} {v : TypeVar}

/-- The types that symbols share with what was there before: those of module variables that were kept and those that
declared types mention. -/
inductive Shares (table : SymbolTable) (T : Set Nat) (w : Workspace) : TypeVar → Prop where
  | kept {id : Nat} {symbol : Symbol} {variant : Variant} (hid : id ∈ T) (hsymbol : table.get? id = some symbol)
    (hsuits : Request.moduleVariable.Suits symbol) (hkept : variant ∈ w.variants.ofSymbol id) :
    Shares table T w variant.returns
  | declared {id : Nat} {symbol : Symbol} {v : TypeVar} (hid : id ∈ T) (hsymbol : table.get? id = some symbol)
    (hv : v ∈ symbol.declaration.vars) : Shares table T w v

theorem Shares.mono (h : w.Shares table T v) (hkept : ∀ id, w.variants.ofSymbol id ⊆ w'.variants.ofSymbol id) :
    w'.Shares table T v := by
  cases h with
  | kept hid hsymbol hsuits hv => exact .kept hid hsymbol hsuits (hkept _ hv)
  | declared hid hsymbol hv => exact .declared hid hsymbol hv

/-- The set is a region, and it has the types that the symbols share. -/
structure Hosts (table : SymbolTable) (T : Set Nat) (s : Set TypeVar) (w : Workspace) : Prop where
  closed : w.graph.Closed s
  shared : ∀ {v}, w.Shares table T v → w.graph.Known s v

/-- After a change of types in the region, with variants dropped or none. -/
theorem Hosts.after (h : Hosts table T s w) (hkept : ∀ id, w'.variants.ofSymbol id ⊆ w.variants.ofSymbol id)
    (hclosed : w'.graph.Closed s) (hchanges : TypesChangeIn s w w') : Hosts table T s w' :=
  ⟨hclosed, fun hv => hchanges.known (h.shared (hv.mono hkept))⟩

theorem regards_hosts (table : SymbolTable) (T : Set Nat) (s : Set TypeVar) : Regards s (Hosts table T s) :=
  ⟨Hosts.closed, fun h hvariants => h.after fun _ => hvariants ▸ List.Subset.refl _⟩

end Workspace

open Workspace (Hosts regards_hosts)

namespace VariantStore

variable {store : VariantStore} {id i : Nat} {v v' : Variant}

theorem mem_ofSymbol_append (h : v' ∈ (store.append id v).ofSymbol i) :
    v' ∈ store.ofSymbol i ∨ i = id ∧ v' = v := by
  by_cases hne : id = i
  · subst hne
    by_cases hid : id < store.size
    · rw [ofSymbol_append hid, if_pos rfl] at h
      exact (List.mem_append.1 h).imp_right fun h => ⟨rfl, List.mem_singleton.1 h⟩
    · have hnone : (store.append id v).ofSymbol id = [] := by
        simp [ofSymbol, append, Array.getD_eq_getD_getElem?, Nat.le_of_not_lt hid]
      rw [hnone] at h
      cases h
  · exact .inl (ofSymbol_append_of_ne hne ▸ h)

theorem ofSymbol_rollback_subset (store : VariantStore) (mark : Watermark) (id : Nat) :
    (store.rollback mark).ofSymbol id ⊆ store.ofSymbol id := by
  simp only [ofSymbol, rollback, Array.getD_eq_getD_getElem?, Array.getElem?_mapIdx]
  cases store[id]? with
  | none => exact List.Subset.refl _
  | some variants =>
    simp only [Option.map_some, Option.getD_some]
    split
    · exact List.take_subset _ _
    · exact List.Subset.refl _

end VariantStore

/-! ### Steps -/

/-- However the computation ends, what it changes is in the region. While `K` is known, from where it succeeds on `P`
holds of its result. -/
abbrev Confined {α : Type} (table : SymbolTable) (T : Set Nat) (s : Set TypeVar) (K : Workspace → Prop)
    (x : SolveM α) (P : Workspace → α → Prop) : Prop :=
  Maintains (TypesChangeIn s) (Hosts table T s) K x P

def Draft.vars (d : Draft) : List TypeVar :=
  d.returns :: d.args ++ d.constraints.flatMap Constraint.vars ++ d.usages.types

namespace SolveM

variable {α : Type} {table : SymbolTable} {T : Set Nat} {s : Set TypeVar} {K : Workspace → Prop} {w w' : Workspace}

theorem draft_confined {symbol : Symbol} {x : TypeGraph → Except TypeError Draft × TypeGraph}
    (hx : symbol.draft? table = some x) :
    Confined table T s K (draft x) fun t d => t.graph.AllKnown s d.vars ∧ ∃ g g', x g = (.ok d, g') where
  ok {w d w'} hw _ hrun := by
    obtain ⟨hrun, hvariants⟩ := draft_ok hrun
    have hsprouts : w.graph.Sprouts w'.graph := by simpa [hrun] using symbol.draft_sprouts hx w.graph
    obtain ⟨hclosed, hchanges⟩ := hsprouts.confines hw.closed
    obtain ⟨-, hconstraints, hsignature, husages⟩ := Symbol.draft_regional hx hrun
    have hknown : w'.graph.AllKnown s d.vars := by
      have hfuture {v : TypeVar} (hv : w'.graph.Known w.graph.future v) : w'.graph.Known s v :=
        ⟨hw.closed.fresh hv.1, hv.2⟩
      simp only [Draft.vars, AllKnown, List.forall_mem_append, List.forall_mem_flatMap]
      exact ⟨⟨fun v hv => hfuture (hsignature v hv), fun c hc v hv => hfuture (hconstraints c hc v hv)⟩,
        fun v hv => hfuture (husages v hv)⟩
    exact ⟨(regards_hosts table T s).stable hw hvariants hclosed hchanges, hchanges,
      fun t ht => ⟨ht.allKnown hknown, _, _, hrun⟩⟩
  error {w e w'} hw _ hrun := by
    obtain ⟨hrun, hvariants⟩ := draft_error hrun
    have hsprouts : w.graph.Sprouts w'.graph := by simpa [hrun] using symbol.draft_sprouts hx w.graph
    obtain ⟨hclosed, hchanges⟩ := hsprouts.confines hw.closed
    exact ⟨(regards_hosts table T s).stable hw hvariants hclosed hchanges, hchanges⟩

theorem instantiate_confined {n : NativeSignature} (hn : n.InRange) (span : Span) :
    Confined table T s K (instantiate n span) fun t signature => t.graph.AllKnown s
      (signature.returns :: signature.args ++ signature.constraints.flatMap Constraint.vars) ∧
        signature.args.length = n.args.length where
  ok {w signature w'} hw _ hrun := by
    cases hrun
    obtain ⟨hclosed, hchanges⟩ : (n.instantiate span w.graph).2.Closed s ∧ ChangesIn s w.graph _ :=
      n.confines_instantiate hw.closed
    exact ⟨(regards_hosts table T s).stable hw rfl hclosed hchanges, hchanges,
      fun t ht => ⟨ht.allKnown (n.instantiate_known span hw.closed hn), List.length_map ..⟩⟩
  error _ _ hrun := by cases hrun

theorem applyAll_confined {cs : List Constraint} (hK : ∀ t, K t → t.graph.AllKnown s (cs.flatMap Constraint.vars)) :
    Confined table T s K (applyAll cs) fun _ _ => True := by
  induction cs generalizing K with
  | nil => exact .pure (typesChangeIn_kept s) fun _ _ => trivial
  | cons c cs ih =>
    refine .bind (typesChangeIn_kept s) (onGraph_confined (regards_hosts table T s) ?_) fun _ => ih ?_
    · intro t _ ht
      exact Constraint.apply_confines fun v hv => hK t ht v (List.mem_append_left _ hv)
    · rintro t ⟨-, ht⟩ v hv
      exact hK t ht v (List.mem_append_right _ hv)

theorem copyAll_confined (vs : List TypeVar) : Confined table T s K (copyAll vs) fun t copies =>
    t.graph.AllKnown s copies ∧ copies.length = vs.length where
  ok {w copies w'} hw _ hrun := by
    cases hrun
    obtain ⟨hclosed, hchanges⟩ := confines_copyAll w.graph vs hw.closed
    have hcopies : (w.graph.copyAll vs).2.AllKnown s (w.graph.copyAll vs).1 := by
      rw [copyAll_fst]
      exact List.forall_mem_map.2 fun v hv => known_copyOf hw.closed (mem_reached hv)
    exact ⟨(regards_hosts table T s).stable hw rfl hclosed hchanges, hchanges,
      fun t ht => ⟨ht.allKnown hcopies, List.length_map ..⟩⟩
  error _ _ hrun := by cases hrun

/-- A trial is on copies, so neither the call nor the signature has to be of the region. -/
theorem trial_confined {usage : ProcedureUsage} {solved : Solved} (hlength : solved.args.length ≤ usage.args.length) :
    Confined table T s K (trial usage solved) fun _ _ => True := by
  refine .bind (typesChangeIn_kept s) (copyAll_confined _) fun copies => ?_
  refine .of_known (typesChangeIn_kept s) (fun t ht => ht.1.2) fun hcopies => ?_
  simp only [involved, List.length_append, List.length_singleton] at hcopies
  have hget {l : List TypeVar} (hsub : l ⊆ copies) (hlt : solved.args.length < l.length) :
      l.getD solved.args.length default ∈ copies := by
    rw [List.getD_eq_getElem _ _ hlt]
    exact hsub (List.getElem_mem hlt)
  have hcallee := hget (List.take_subset (solved.args.length + 1) copies) (by rw [List.length_take]; omega)
  have hcaller := hget (List.drop_subset (solved.args.length + 1) copies) (by rw [List.length_drop]; omega)
  refine unifyCall_confined (regards_hosts table T s) usage fun t ht => ?_
  obtain ⟨⟨hknown, -⟩, -⟩ := ht
  refine List.forall_mem_cons.2 ⟨hknown _ hcallee, List.forall_mem_cons.2 ⟨hknown _ hcaller, ?_⟩⟩
  exact List.forall_mem_append.2 ⟨fun v hv => hknown v (List.mem_of_mem_take (List.mem_of_mem_take hv)),
    fun v hv => hknown v (List.mem_of_mem_drop (List.mem_of_mem_take hv))⟩

theorem acceptCall_confined {usage : ProcedureUsage} {solved : Solved}
    (hlength : solved.args.length ≤ usage.args.length)
    (hK : ∀ t, K t → t.graph.AllKnown s (solved.returns :: solved.args) ∧
      t.graph.AllKnown s (usage.returns :: usage.args)) :
    Confined table T s K (acceptCall usage solved) fun _ _ => True := by
  rw [acceptCall_eq]
  refine .bind (typesChangeIn_kept s) (trial_confined hlength) fun _ =>
    unifyCall_confined (regards_hosts table T s) usage fun t ht => ?_
  obtain ⟨hsolved, husage⟩ := hK t ht.2
  intro v hv
  simp only [List.mem_cons, List.mem_append] at hv
  grind

/-- Going back drops variants and leaves the types as they are. -/
theorem orRollback_confined {x : SolveM α} {P : Workspace → α → Prop} (hx : Confined table T s K x P) :
    Confined table T s K (orRollback x) fun _ _ => True where
  ok {w r w'} hw hK hrun := by
    cases hend : x w with
    | ok a w₁ =>
      cases (orRollback_of_ok hend).symm.trans hrun
      obtain ⟨hw', hchanges, -⟩ := hx.ok hw hK hend
      exact ⟨hw', hchanges, fun _ _ => trivial⟩
    | error e w₁ =>
      cases (orRollback_of_error hend).symm.trans hrun
      obtain ⟨hw', hchanges⟩ := hx.error hw hK hend
      refine ⟨hw'.after (fun id => VariantStore.ofSymbol_rollback_subset _ _ id) hw'.closed
        ((typesChangeIn_kept s).refl _), hchanges, fun _ _ => trivial⟩
  error {w e w'} _ _ hrun := by
    cases hend : x w with
    | ok a w₁ => cases (orRollback_of_ok hend).symm.trans hrun
    | error e w₁ => cases (orRollback_of_error hend).symm.trans hrun

/-- What is kept of a module variable is in the region. -/
theorem variantsOf_confined {id : Nat} {symbol : Symbol} (hid : id ∈ T) (hsymbol : table.get? id = some symbol) :
    Confined table T s K (variantsOf id) fun t variants =>
      Request.moduleVariable.Suits symbol → ∀ v ∈ variants, t.graph.Known s v.returns where
  ok {w variants w'} hw _ hrun := by
    cases hrun
    refine ⟨hw, (typesChangeIn_kept s).refl w, fun t ht hsuits v hv => ?_⟩
    exact ht.known (hw.shared (.kept hid hsymbol hsuits hv))
  error _ _ hrun := by cases hrun

/-- What a declared type mentions is in the region, and so is what is built of it. -/
theorem build_confined {id : Nat} {symbol : Symbol} {type : WrittenType} (hid : id ∈ T)
    (hsymbol : table.get? id = some symbol) (hdeclaration : symbol.declaration = .external type)
    (origin : Option Span) :
    Confined table T s K (onGraph (type.build origin [])) fun t v => t.graph.Known s v := by
  have hvars {w : Workspace} (hw : Hosts table T s w) (t : TypeGraph) (ht : ChangesIn s w.graph t) :
      t.AllKnown s type.vars := fun v hv => ht.known (hw.shared (.declared hid hsymbol (by rwa [hdeclaration])))
  constructor
  · intro w v w' hw _ hrun
    obtain ⟨hrun, hvariants⟩ := onGraph_eq_ok_iff.1 hrun
    obtain ⟨hclosed, hchanges, hv⟩ := (WrittenType.build_builds origin [] type).ok hw.closed (hvars hw) hrun
    exact ⟨(regards_hosts table T s).stable hw hvariants hclosed hchanges, hchanges,
      fun t ht => hv _ ht _ List.mem_cons_self⟩
  · intro w e w' hw _ hrun
    obtain ⟨hrun, hvariants⟩ := onGraph_eq_error_iff.1 hrun
    obtain ⟨hclosed, hchanges⟩ := (WrittenType.build_builds origin [] type).error hw.closed (hvars hw) hrun
    exact ⟨(regards_hosts table T s).stable hw hvariants hclosed hchanges, hchanges⟩

/-- The type of a module variable that is kept is to be in the region. -/
theorem keeping_confined {keep : Bool} {id : Nat} {symbol : Symbol} {v : Variant} {a : α} {P : Workspace → α → Prop}
    (hsymbol : table.get? id = some symbol)
    (hv : ∀ t, K t → Request.moduleVariable.Suits symbol → t.graph.Known s v.returns) (hP : ∀ t, K t → P t a) :
    Confined table T s K (if keep = true then keepVariant id v >>= fun _ => pure a else pure a : SolveM α) P := by
  cases keep with
  | false => exact .pure (typesChangeIn_kept s) hP
  | true =>
    rw [if_pos rfl]
    refine .bind (P := fun _ _ => True) (typesChangeIn_kept s) ⟨fun {w u w'} hw hK hrun => ?_, fun _ _ hrun => ?_⟩
      fun _ => .pure (typesChangeIn_kept s) fun t ht => hP t ht.2
    · cases hrun
      refine ⟨⟨hw.closed, fun {u} hu => ?_⟩, (typesChangeIn_kept s).refl _, fun _ _ => trivial⟩
      cases hu with
      | @kept i symbol' variant hid hsymbol' hsuits hkept =>
        rcases VariantStore.mem_ofSymbol_append hkept with hkept | ⟨rfl, rfl⟩
        · exact hw.shared (.kept hid hsymbol' hsuits hkept)
        · cases hsymbol.symm.trans hsymbol'
          exact hv w (hK.here (typesChangeIn_kept s)) hsuits
      | declared hid hsymbol' hu => exact hw.shared (.declared hid hsymbol' hu)
    · cases hrun

end SolveM

/-! ### Usages -/

/-- The signature of a symbol that is solved or being solved is in the region, and has no more arguments than the
symbol has parameters. -/
structure Offered (table : SymbolTable) (s : Set TypeVar) (t : Workspace) (id : Nat) (solved : Solved) : Prop where
  known : t.graph.AllKnown s (solved.returns :: solved.args)
  fits : solved.args.length ≤ table.arity id

theorem Offered.mono {table : SymbolTable} {s : Set TypeVar} {t t' : Workspace} {id : Nat} {solved : Solved}
    (h : Offered table s t id solved) (ht : TypesChangeIn s t t') : Offered table s t' id solved :=
  ⟨ht.allKnown h.known, h.fits⟩

/-- The signatures of those symbols of a set that are being solved are in the region. -/
def StackOffered (table : SymbolTable) (T : Set Nat) (s : Set TypeVar) (stack : List Activation) (t : Workspace) :
    Prop :=
  ∀ a ∈ stack, a.symbol ∈ T → Offered table s t a.symbol a.solved

theorem StackOffered.always {table : SymbolTable} {T : Set Nat} {s : Set TypeVar} {stack : List Activation}
    {w : Workspace} (h : StackOffered table T s stack w) :
    Always (TypesChangeIn s) (StackOffered table T s stack) w := fun _ ht a ha hid => (h a ha hid).mono ht

section usages

variable {table : SymbolTable} {T : Set Nat} {s : Set TypeVar} {K : Workspace → Prop} {user : Path}

theorem attempt_confined {usage : ProcedureUsage} {solve : Nat → SolveM Solved} {id : Nat}
    (hsolve : Confined table T s K (solve id) fun t solved => Offered table s t id solved)
    (hK : ∀ t, K t → t.graph.AllKnown s (usage.returns :: usage.args)) (harity : table.arity id = usage.args.length) :
    Confined table T s K (do
      let solved ← solve id
      SolveM.acceptCall usage solved
      return solved.variant) fun _ _ => True := by
  refine .bind (typesChangeIn_kept s) hsolve fun solved => ?_
  refine .of_known (typesChangeIn_kept s) (fun t ht => ht.1.fits) fun hfits => ?_
  refine .bind (typesChangeIn_kept s) (SolveM.acceptCall_confined (harity ▸ hfits) ?_) fun _ => ?_
  · rintro t ⟨hoffered, ht⟩
    exact ⟨hoffered.known, hK t ht⟩
  · exact .pure (typesChangeIn_kept s) fun _ _ => trivial

theorem tryCandidates_confined {usage : ProcedureUsage} {solve : Nat → SolveM Solved} {candidates : List Path}
    (hsolve : ∀ c ∈ candidates, ∀ id, table.lookup c = some id →
      Confined table T s K (solve id) fun t solved => Offered table s t id solved)
    (hK : ∀ t, K t → t.graph.AllKnown s (usage.returns :: usage.args)) :
    Confined table T s K (SolveM.tryCandidates table usage solve candidates) fun _ _ => True := by
  induction candidates with
  | nil => exact .pure (typesChangeIn_kept s) fun _ _ => trivial
  | cons candidate rest ih =>
    have hlater := ih fun c hc => hsolve c (List.mem_cons_of_mem _ hc)
    have hwrapped (f : SolveM.Trial → SolveM.Trial) : Confined table T s K
        (SolveM.tryCandidates table usage solve rest >>= fun trial => pure (f trial)) fun _ _ => True :=
      .bind (typesChangeIn_kept s) hlater fun _ => .pure (typesChangeIn_kept s) fun _ _ => trivial
    rw [SolveM.tryCandidates]
    split
    · exact hlater
    rename_i id symbol hfound
    split
    · exact hlater
    rename_i params hparams
    dsimp only
    split
    · exact hwrapped _
    rename_i hlength
    obtain ⟨hid, hsymbol⟩ := SymbolTable.eq_some_of_found hfound
    have harity : table.arity id = usage.args.length :=
      (table.arity_eq hsymbol hparams).trans (Decidable.of_not_not hlength)
    refine .bind (typesChangeIn_kept s) (SolveM.orRollback_confined
      (attempt_confined (hsolve candidate List.mem_cons_self id hid) hK harity)) fun r => ?_
    cases r with
    | ok variant => exact .pure (typesChangeIn_kept s) fun _ _ => trivial
    | error e => exact (hwrapped _).imp (fun _ ht => ht.2) (fun _ _ _ h => h) (typesChangeIn_kept s)

theorem bindCall_confined {usage : ProcedureUsage} {solve : Nat → Span → SolveM Solved}
    (hsolve : ∀ c ∈ SolveM.candidates table user usage, ∀ id, table.lookup c = some id →
      Confined table T s K (solve id usage.span) fun t solved => Offered table s t id solved)
    (hK : ∀ t, K t → t.graph.AllKnown s (usage.returns :: usage.args)) :
    Confined table T s K (SolveM.bindCall table user solve usage) fun _ _ => True := by
  refine .bind (typesChangeIn_kept s) (tryCandidates_confined (fun c hc => hsolve c (List.mem_reverse.1 hc)) hK)
    fun trial => ?_
  split
  · exact .pure (typesChangeIn_kept s) fun _ _ => trivial
  all_goals exact .throw (typesChangeIn_kept s)

theorem bindGlobal_confined {usage : VariableUsage} {solve : Nat → SolveM Solved}
    (hsolve : ∀ id, table.lookup usage.path = some id →
      Confined table T s K (solve id) fun t solved => Offered table s t id solved)
    (hK : ∀ t, K t → t.graph.Known s usage.type) :
    Confined table T s K (SolveM.bindGlobal table solve usage) fun _ _ => True := by
  unfold SolveM.bindGlobal
  split
  · exact .throw (typesChangeIn_kept s)
  rename_i id hid
  refine .bind (typesChangeIn_kept s) (hsolve id hid) fun solved => ?_
  refine .bind (typesChangeIn_kept s) (SolveM.unifyAt_confined (regards_hosts table T s) ?_) fun _ => ?_
  · rintro t ⟨hoffered, ht⟩
    exact List.forall_mem_cons.2 ⟨hK t ht, List.forall_mem_singleton.2 (hoffered.known _ List.mem_cons_self)⟩
  · exact .pure (typesChangeIn_kept s) fun _ _ => trivial

/-- A solver for the symbols of a set that is confined to a region. -/
abbrev SolvesConfined (table : SymbolTable) (T : Set Nat) (s : Set TypeVar) (K : Workspace → Prop)
    (solve : Request → Nat → SolveM Solved) : Prop :=
  ∀ request, ∀ id ∈ T, Confined table T s K (solve request id) fun t solved => Offered table s t id solved

/-- Binding the body of a symbol that asks for no others than those of the set. -/
theorem exprs_confined (hT : table.Asking T) {id : Nat} (hid : id ∈ T) {symbol : Symbol}
    (hsymbol : table.get? id = some symbol) {draft : TypeGraph → Except TypeError Draft × TypeGraph} {d : Draft}
    {g g' : TypeGraph} (hdraft : symbol.draft? table = some draft) (hdrafted : draft g = (.ok d, g')) {keep : Bool}
    {stack : List Activation} (hsolve : SolvesConfined table T s K (solve table keep stack))
    (hK : ∀ t, K t → t.graph.AllKnown s d.usages.types) (body : List (Expr TypeVar)) :
    Confined table T s K (Binder.exprs (solvingBinder table keep stack symbol.path d.usages) body) fun _ _ => True := by
  have hprocedure (usage : ProcedureUsage) (husage : usage ∈ d.usages.procedures) : Confined table T s K
      ((solvingBinder table keep stack symbol.path d.usages).procedure usage) fun _ _ => True := by
    change Confined table T s K (SolveM.bindCall table symbol.path
      (fun id' span => solve table keep stack (.procedure (some span)) id') usage) _
    refine bindCall_confined (fun c hc id' hid' => hsolve _ id' (hT hid ?_)) fun t ht v hv => hK t ht v ?_
    · exact ⟨symbol, draft, d, g, g', hsymbol, hdraft, hdrafted, .inl ⟨usage, husage, c, hc, hid'⟩⟩
    · exact List.mem_append_left _ (List.mem_flatMap.2 ⟨usage, Array.mem_toList_iff.2 husage, hv⟩)
  have hvariable (usage : VariableUsage) (husage : usage ∈ d.usages.globals) : Confined table T s K
      ((solvingBinder table keep stack symbol.path d.usages).moduleVariable usage) fun _ _ => True := by
    change Confined table T s K
      (SolveM.bindGlobal table (fun id' => solve table keep stack .moduleVariable id') usage) _
    refine bindGlobal_confined (fun id' hid' => hsolve _ id' (hT hid ?_)) fun t ht => hK t ht _ ?_
    · exact ⟨symbol, draft, d, g, g', hsymbol, hdraft, hdrafted, .inr ⟨usage, husage, hid'⟩⟩
    · exact List.mem_append_right _ (List.mem_map_of_mem (Array.mem_toList_iff.2 husage))
  have hallocate (span : Span) : Confined table T s K (SolveM.onGraph (allocate ⟨.unit, some span⟩)) fun _ _ => True :=
    SolveM.onGraph_confined (regards_hosts table T s) fun _ _ => allocate_confines (List.forall_mem_nil _)
  exact .of_keeps (Binder.exprs_keeps { Maintains.kept (typesChangeIn_kept s) with
    procedure := fun usage husage => (hprocedure usage husage).keeps
    moduleVariable := fun usage husage => (hvariable usage husage).keeps
    allocate := fun span => (hallocate span).keeps } body)

end usages

/-! ### Solving -/

section solving

variable {table : SymbolTable} {T : Set Nat} {s : Set TypeVar}

/-- A draft of a procedure has an argument for each parameter, that of a module variable none. -/
theorem Symbol.draft_length {symbol : Symbol} {id : Nat} (hsymbol : table.get? id = some symbol)
    {draft : TypeGraph → Except TypeError Draft × TypeGraph} {d : Draft} {g g' : TypeGraph}
    (hdraft : symbol.draft? table = some draft) (h : draft g = (.ok d, g')) : d.args.length = table.arity id := by
  unfold Symbol.draft? at hdraft
  split at hdraft <;> cases hdraft
  · rename_i params body hdeclaration
    rw [table.arity_eq hsymbol (by rw [hdeclaration]; rfl)]
    exact (Draft.ofProcedure_recorded h).1
  · rename_i value hdeclaration
    rw [Draft.ofVariable_args h, SymbolTable.arity, hsymbol, Option.bind_some, hdeclaration]
    rfl

/-- Solving a symbol from its draft, if the symbols that its body asks for are solved in the region while it is on the
stack. -/
theorem drafted_confined (hT : table.Asking T) {id : Nat} (hid : id ∈ T) {symbol : Symbol}
    (hsymbol : table.get? id = some symbol) {draft : TypeGraph → Except TypeError Draft × TypeGraph}
    (hdraft : symbol.draft? table = some draft) {keep : Bool} {stack : List Activation} {K : Workspace → Prop}
    (hsolve : ∀ (solved : Solved) (K' : Workspace → Prop), (∀ t, K' t → K t ∧ Offered table s t id solved) →
      SolvesConfined table T s K' (solve table keep (⟨id, solved⟩ :: stack)))
    (signature : Draft → Solved) (hreturns : ∀ d, (signature d).returns = d.returns)
    (hargs : ∀ d, (signature d).args.Sublist d.args) :
    Confined table T s K (do
      let d ← SolveM.draft draft
      SolveM.applyAll d.constraints
      let body ← Binder.exprs (solvingBinder table keep (⟨id, signature d⟩ :: stack) symbol.path d.usages) d.body
      if keep = true then
        SolveM.keepVariant id ⟨(signature d).args, (signature d).returns, some body⟩ >>= fun _ => pure (signature d)
      else pure (signature d)) fun t solved => Offered table s t id solved := by
  refine .bind (typesChangeIn_kept s) (SolveM.draft_confined hdraft) fun d => ?_
  refine .of_known (typesChangeIn_kept s) (fun t ht => ht.1.2) ?_
  rintro ⟨g, g', hdrafted⟩
  have hoffered {t : Workspace} (ht : t.graph.AllKnown s d.vars) : Offered table s t id (signature d) := by
    refine ⟨List.forall_mem_cons.2 ⟨hreturns d ▸ ht _ (by simp [Draft.vars]), fun v hv => ht v ?_⟩,
      (hargs d).length_le.trans (Symbol.draft_length hsymbol hdraft hdrafted).le⟩
    simp [Draft.vars, (hargs d).subset hv]
  refine .bind (typesChangeIn_kept s) (SolveM.applyAll_confined ?_) fun _ => ?_
  · rintro t ⟨⟨hvars, -⟩, -⟩ v hv
    exact hvars v (List.mem_append_left _ (List.mem_append_right _ hv))
  refine .bind (typesChangeIn_kept s)
    (exprs_confined hT hid hsymbol hdraft hdrafted (hsolve _ _ ?_) ?_ _) fun body => ?_
  · rintro t ⟨-, ⟨hvars, -⟩, ht⟩
    exact ⟨ht, hoffered hvars⟩
  · rintro t ⟨-, ⟨hvars, -⟩, -⟩ v hv
    exact hvars v (List.mem_append_right _ hv)
  refine SolveM.keeping_confined hsymbol ?_ ?_
  · rintro t ⟨-, -, ⟨hvars, -⟩, -⟩ -
    exact (hoffered hvars).known _ List.mem_cons_self
  · rintro t ⟨-, -, ⟨hvars, -⟩, -⟩
    exact hoffered hvars

/-- **Solving is confined to a region with what is shared.** -/
theorem solve_confined (hrange : ∀ symbol ∈ table.symbols, symbol.declaration.InRange) (hfitting : table.Fitting)
    (hT : table.Asking T) (keep : Bool) (stack : List Activation) {K : Workspace → Prop}
    (hK : ∀ t, K t → StackOffered table T s stack t) : SolvesConfined table T s K (solve table keep stack) := by
  induction stack using solving_induction table generalizing K with
  | h stack ih =>
    intro request id hid
    rw [solve]
    split
    · exact .throw (typesChangeIn_kept s)
    rename_i symbol hsymbol
    split
    · split
      · split
        · rename_i a ha
          obtain rfl : a.symbol = id := by simpa using List.find?_some ha
          exact .pure (typesChangeIn_kept s) fun t ht => hK t ht a (List.mem_of_find?_eq_some ha) hid
        · exact .throw (typesChangeIn_kept s)
      · exact .throw (typesChangeIn_kept s)
    rename_i hfree
    have hmem : symbol ∈ table.symbols := Array.mem_of_getElem? hsymbol
    have hsize : id < table.size := (Array.getElem?_eq_some_iff.1 hsymbol).1
    have hsolve (K : Workspace → Prop) (hK : ∀ t, K t → StackOffered table T s stack t) (solved : Solved)
        (K' : Workspace → Prop) (hK' : ∀ t, K' t → K t ∧ Offered table s t id solved) :
        SolvesConfined table T s K' (solve table keep (⟨id, solved⟩ :: stack)) :=
      ih ⟨id, solved⟩ hsize hfree fun t ht => List.forall_mem_cons.2 ⟨fun _ => (hK' t ht).2, hK t (hK' t ht).1⟩
    -- A module variable that is kept is offered with the type that it has.
    have hkept {known : Variant} (t : Workspace) (h : t.graph.Known s known.returns) :
        Offered table s t id ⟨0, [], known.returns⟩ := ⟨List.forall_mem_singleton.2 h, Nat.zero_le _⟩
    dsimp only
    split
    · rename_i params body hdeclaration
      refine .bind (typesChangeIn_kept s) (SolveM.variantsOf_confined hid hsymbol) fun known => ?_
      exact drafted_confined hT hid hsymbol (by rw [Symbol.draft?, hdeclaration]) (hsolve _ fun t ht => hK t ht.2)
        (fun d => ⟨known.length, d.args, d.returns⟩) (fun _ => rfl) fun d => .refl d.args
    · rename_i params native hdeclaration
      have hrange := hrange symbol hmem
      have hfits := hfitting symbol hmem
      rw [hdeclaration] at hrange hfits
      have harity : table.arity id = params.length := table.arity_eq hsymbol (by rw [hdeclaration]; rfl)
      refine .bind (typesChangeIn_kept s) (SolveM.variantsOf_confined hid hsymbol) fun known => ?_
      refine .bind (typesChangeIn_kept s) (SolveM.instantiate_confined hrange _) fun signature => ?_
      refine .of_known (typesChangeIn_kept s) (fun t ht => ht.1.2) fun hlength => ?_
      refine .bind (typesChangeIn_kept s) (SolveM.applyAll_confined ?_) fun _ => SolveM.keeping_confined hsymbol ?_ ?_
      · rintro t ⟨⟨hvars, -⟩, -⟩ v hv
        exact hvars v (List.mem_append_right _ hv)
      · rintro t ⟨-, ⟨hvars, -⟩, -⟩ -
        exact hvars _ List.mem_cons_self
      · rintro t ⟨-, ⟨hvars, -⟩, -⟩
        exact ⟨fun v hv => hvars v (List.mem_append_left _ hv), hlength ▸ harity ▸ hfits⟩
    · exact .throw (typesChangeIn_kept s)
    · rename_i value hdeclaration
      have hsuits : Request.moduleVariable.Suits symbol := by
        simp [Request.Suits, hdeclaration, Declaration.isProcedure, Declaration.params?]
      refine .bind (typesChangeIn_kept s) (SolveM.variantsOf_confined hid hsymbol) fun known => ?_
      split
      · exact .pure (typesChangeIn_kept s) fun t ht => hkept t (ht.1 hsuits _ List.mem_cons_self)
      · exact drafted_confined hT hid hsymbol (by rw [Symbol.draft?, hdeclaration]) (hsolve _ fun t ht => hK t ht.2)
          (fun d => ⟨0, [], d.returns⟩) (fun _ => rfl) fun d => List.nil_sublist d.args
    · rename_i type hdeclaration
      have hsuits : Request.moduleVariable.Suits symbol := by
        simp [Request.Suits, hdeclaration, Declaration.isProcedure, Declaration.params?]
      refine .bind (typesChangeIn_kept s) (SolveM.variantsOf_confined hid hsymbol) fun known => ?_
      split
      · exact .pure (typesChangeIn_kept s) fun t ht => hkept t (ht.1 hsuits _ List.mem_cons_self)
      · exact .bind (typesChangeIn_kept s) (SolveM.build_confined hid hsymbol hdeclaration _) fun v =>
          SolveM.keeping_confined hsymbol (fun t ht _ => ht.1) fun t ht =>
            ⟨List.forall_mem_singleton.2 ht.1, Nat.zero_le _⟩
    · exact .throw (typesChangeIn_kept s)

end solving

end Monomorph
