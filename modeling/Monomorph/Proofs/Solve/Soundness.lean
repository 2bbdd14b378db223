import Monomorph.Proofs.Solve.Outright
import Monomorph.Proofs.Solve.Settled
import Monomorph.Proofs.Solve.Sound

/-! # Solving keeps workspaces sound

Solving a symbol outright leads from sound workspaces to sound ones (`solve_sound`). Every step on types does so
if it only narrows them (`KeepsSound.of_types`); the variables that are unified for a call are allocated, so that
afterwards the types at the call are those of the candidate (`acceptCall_sound`). The body of the symbol is typed
as its constraints hold from when they are applied on, and then it is kept. -/

namespace Monomorph

open Outcome TypeGraph
open Workspace (Evolves Advances advances_kept Sound)

/-- The computation leads from sound workspaces to sound ones while `K` is known, and from where it ends on `P`
holds of its result. -/
abbrev KeepsSound {α : Type} (table : SymbolTable) (keep : Bool) (stack : List Activation) (K : Workspace → Prop)
    (x : SolveM α) (P : Workspace → α → Prop) : Prop :=
  Ensures (Advances keep (busy stack)) (Sound table stack) K x (Sound table stack) P

section steps

variable {α : Type} {table : SymbolTable} {keep : Bool} {stack : List Activation} {K K' : Workspace → Prop}
  {x : SolveM α}

theorem KeepsSound.of_types {P : TypeGraph → α → Prop}
    (hx : ∀ {w a w'}, w.graph.WellFormed → K w → x w = .ok a w' →
      w'.variants = w.variants ∧ NarrowsIn Set.univ w.graph w'.graph ∧ ∀ g, w'.graph.Narrows g → P g a) :
    KeepsSound table keep stack K x fun t a => P t.graph a where
  ok hs hK hrun := by
    obtain ⟨hvariants, hg, hP⟩ := hx hs.wellFormed (hK.here advances_kept) hrun
    exact ⟨hs.of_graph hvariants hg, .of_narrows hvariants hg.toNarrows, fun t ht => hP t.graph ht.narrows⟩

namespace SolveM

/-! ### Steps -/

theorem allocate_sound (span : Option Span) :
    KeepsSound table keep stack K (onGraph (allocate ⟨.unit, span⟩)) fun _ _ => True :=
  .of_types (P := fun _ _ => True) fun hw _ hrun => by
    obtain ⟨hgraph, hvariants⟩ := onGraph_eq_ok_iff.1 hrun
    obtain ⟨-, hgraph⟩ := ok_eq_ok_iff.1 hgraph
    exact ⟨hvariants, hgraph ▸ hw.closed.alloc nofun, fun _ _ => trivial⟩

theorem unifyAt_sound {v w : TypeVar} {span : Span} {path : StepPath}
    (hK : ∀ t, K t → t.graph.Allocated [v, w]) :
    KeepsSound table keep stack K (onGraph (unifyAt v w span path)) fun t _ => t.graph.Same v w :=
  .of_types (P := fun g _ => g.Same v w) fun {w₀ _ _} hw hknown hrun => by
    obtain ⟨hgraph, hvariants⟩ := onGraph_eq_ok_iff.1 hrun
    have hvw := hK w₀ hknown
    obtain ⟨hg, hsame⟩ := unifyAt_narrows hw.closed ⟨trivial, hvw v (by simp)⟩ ⟨trivial, hvw w (by simp)⟩ hgraph
    exact ⟨hvariants, hg, fun _ hlater => hlater.same hsame⟩

theorem copyAll_sound {vs : List TypeVar} (hK : ∀ t, K t → t.graph.Allocated vs) :
    KeepsSound table keep stack K (copyAll vs) fun t copies =>
      t.graph.Allocated copies ∧ copies.length = vs.length :=
  .of_types (P := fun g copies => g.Allocated copies ∧ copies.length = vs.length) fun {w _ _} hw hknown hrun => by
    cases hrun
    have hvs := hK w hknown
    refine ⟨rfl, copyAll_narrows hw vs, fun g hg => ?_⟩
    change g.Allocated (vs.map (w.graph.copyOf vs)) ∧ (vs.map (w.graph.copyOf vs)).length = vs.length
    refine ⟨fun copy hcopy => ?_, List.length_map _⟩
    obtain ⟨v, hv, rfl⟩ := List.mem_map.1 hcopy
    exact Nat.lt_of_lt_of_le ((copyAll_mirrors hw hvs).allocated (mem_reached hv)).2 hg.size_le

/-- Constraints about allocated variables narrow types and hold afterwards. -/
theorem applyAll_narrows {cs : List Constraint} {u : Unit} {w w' : Workspace} (hw : w.graph.WellFormed)
    (hcs : ∀ c ∈ cs, w.graph.Allocated c.vars) (h : applyAll cs w = .ok u w') :
    w'.variants = w.variants ∧ NarrowsIn Set.univ w.graph w'.graph ∧ ∀ c ∈ cs, c.Holds w'.graph := by
  obtain ⟨hin, hholds⟩ := Constraint.forM_apply_holds hw.closed (fun c hc v hv => ⟨trivial, hcs c hc v hv⟩)
    (applyAll_ok h)
  have hevolves : Evolves false [] w w' := (applyAll_evolves _ _).ok h
  exact ⟨hevolves.unkept rfl, hin, hholds⟩

/-! ### Calls -/

/-- What two signatures have in common once they are unified. -/
structure Agree (g : TypeGraph) (calleeArgs : List TypeVar) (calleeReturns : TypeVar)
    (callerArgs : List TypeVar) (callerReturns : TypeVar) : Prop where
  args : ∀ p ∈ calleeArgs.zip callerArgs, g.Same p.1 p.2
  returns : g.Same calleeReturns callerReturns

/-- Unifying two allocated variables puts them in one class from then on. -/
def Unifies (R : Workspace → Workspace → Prop) (S : Workspace → Prop) : Prop :=
  ∀ {K : Workspace → Prop} {v w : TypeVar} {span : Span} {path : StepPath},
    (∀ t, K t → t.graph.Allocated [v, w]) →
      Ensures R S K (onGraph (unifyAt v w span path)) S fun t _ => t.graph.Same v w

section agree

variable {R : Workspace → Workspace → Prop} {S : Workspace → Prop} {usage : ProcedureUsage}

theorem unifyArgs_agree (hR : Kept R) (hunify : Unifies R S) (callee caller : List TypeVar) (i : Nat)
    (hK : ∀ t, K t → t.graph.Allocated (callee ++ caller)) :
    Ensures R S K (unifyArgs usage i callee caller) S fun t _ => ∀ p ∈ callee.zip caller, t.graph.Same p.1 p.2 := by
  induction callee generalizing K i caller with
  | nil =>
    rw [unifyArgs]
    · exact .pure hR fun _ _ => List.forall_mem_nil _
    · intro a as b bs h
      cases h
  | cons a as ih =>
    cases caller with
    | nil =>
      rw [unifyArgs]
      · exact .pure hR fun _ _ => List.forall_mem_nil _
      · intro a as b bs _ h
        cases h
    | cons b bs =>
      have hfirst : ∀ t, K t → t.graph.Allocated [a, b] := fun t ht v hv => hK t ht v (by simp at hv ⊢; grind)
      have hrest : ∀ t, K t → t.graph.Allocated (as ++ bs) := fun t ht v hv => hK t ht v (by simp at hv ⊢; grind)
      refine .bind hR (hunify hfirst) fun _ =>
        (ih bs (i + 1) fun t ht => hrest t ht.2).imp (fun _ ht => ht) (fun t _ ht hP => ?_) hR
      exact List.forall_mem_cons.2 ⟨ht.1, hP⟩

theorem unifyCall_agree (hR : Kept R) (hunify : Unifies R S) {calleeArgs callerArgs : List TypeVar}
    {calleeReturns callerReturns : TypeVar}
    (hK : ∀ t, K t → t.graph.Allocated (calleeReturns :: callerReturns :: (calleeArgs ++ callerArgs))) :
    Ensures R S K (unifyCall usage calleeArgs calleeReturns callerArgs callerReturns) S fun t _ =>
      Agree t.graph calleeArgs calleeReturns callerArgs callerReturns := by
  refine .bind hR (unifyArgs_agree hR hunify calleeArgs callerArgs 0 fun t ht v hv => hK t ht v (by simp [hv]))
    fun _ => (hunify fun t ht v hv => hK t ht.2 v ?_).imp (fun _ ht => ht) (fun t _ ht hP => ⟨ht.1, hP⟩) hR
  simp at hv ⊢
  grind

end agree

theorem unifyCall_sound {usage : ProcedureUsage} {calleeArgs callerArgs : List TypeVar}
    {calleeReturns callerReturns : TypeVar}
    (hK : ∀ t, K t → t.graph.Allocated (calleeReturns :: callerReturns :: (calleeArgs ++ callerArgs))) :
    KeepsSound table keep stack K (unifyCall usage calleeArgs calleeReturns callerArgs callerReturns) fun t _ =>
      Agree t.graph calleeArgs calleeReturns callerArgs callerReturns :=
  unifyCall_agree advances_kept unifyAt_sound hK

theorem acceptCall_sound {usage : ProcedureUsage} {solved : Solved}
    (hK : ∀ t, K t → t.graph.Allocated (solved.returns :: solved.args) ∧
      t.graph.Allocated (usage.returns :: usage.args)) :
    KeepsSound table keep stack K (acceptCall usage solved) fun t _ =>
      Agree t.graph solved.args solved.returns usage.args usage.returns := by
  refine .bind advances_kept (copyAll_sound fun t ht v hv => ?_) fun copies =>
    .bind advances_kept (unifyCall_sound fun t ht => ?_) fun _ => unifyCall_sound fun t ht v hv => ?_
  · obtain ⟨hsolved, husage⟩ := hK t ht
    simp only [List.mem_append, List.mem_singleton] at hv
    grind
  · obtain ⟨⟨hcopies, hlength⟩, -⟩ := ht
    have hsize : 0 < t.graph.size := by
      cases copies with
      | nil => simp at hlength
      | cons v _ => exact Nat.zero_lt_of_lt (hcopies v List.mem_cons_self)
    have hcallee : t.graph.Allocated (copies.take (solved.args.length + 1)) := fun v hv =>
      hcopies v (List.mem_of_mem_take hv)
    have hcaller : t.graph.Allocated (copies.drop (solved.args.length + 1)) := fun v hv =>
      hcopies v (List.mem_of_mem_drop hv)
    refine List.forall_mem_cons.2 ⟨hcallee.getD hsize _, List.forall_mem_cons.2 ⟨hcaller.getD hsize _, ?_⟩⟩
    exact List.forall_mem_append.2
      ⟨fun v hv => hcallee v (List.mem_of_mem_take hv), fun v hv => hcaller v (List.mem_of_mem_take hv)⟩
  · obtain ⟨hsolved, husage⟩ := hK t ht.2.2
    simp only [List.mem_cons, List.mem_append] at hv
    grind

end SolveM
end steps

/-! ### Usages -/

/-- What is known of a symbol that is solved or being solved. -/
structure Given (table : SymbolTable) (keep : Bool) (stack : List Activation) (request : Request) (id : Nat)
    (t : Workspace) (solved : Solved) : Prop where
  allocated : t.graph.Allocated (solved.returns :: solved.args)
  arity : table.HasArity id solved.args
  offers : keep = true → request ≠ .moduleVariable →
    Offers stack t.variants ⟨id, solved.variant⟩ solved.args solved.returns

/-- A solver that leads from sound workspaces to sound ones. -/
abbrev SolvesSound (table : SymbolTable) (keep : Bool) (stack : List Activation)
    (solve : Request → Nat → SolveM Solved) : Prop :=
  ∀ (K : Workspace → Prop) (request : Request) (id : Nat),
    KeepsSound table keep stack K (solve request id) (Given table keep stack request id)

/-- The calls that fit variants, where variants are kept. -/
def KeptCalls (table : SymbolTable) (keep : Bool) (stack : List Activation) (w : Workspace) : Calls :=
  fun path i args returns => keep = true → FitsVariant table stack w path i args returns

section usages

variable {table : SymbolTable} {keep : Bool} {stack : List Activation} {K : Workspace → Prop}
  {solve : Request → Nat → SolveM Solved} {user : Path}

/-- The first candidate that fits is called with as many arguments as it has parameters, and these agree. -/
theorem bindFirst_sound (htable : table.Regular) (hsolve : SolvesSound table keep stack solve) (usages : Usages)
    {usage : ProcedureUsage} (hK : ∀ t, K t → t.graph.Allocated (usage.returns :: usage.args)) :
    KeepsSound table keep stack K ((firstBinder table user usages solve).procedure usage) fun t target =>
      (firstBinder table user usages solve).Answer (KeptCalls table keep stack t) usage target := by
  change KeepsSound table keep stack K
    (SolveM.bindFirst table user (fun id span => solve (.procedure (some span)) id) usage) _
  unfold SolveM.bindFirst
  split
  · exact .throw
  rename_i path id hfirst
  obtain ⟨candidate, hcandidate, hfits⟩ := List.exists_of_findSome?_eq_some hfirst
  obtain ⟨rfl, hid, symbol, params, hsymbol, hparams, hlength⟩ := SolveM.fitting?_eq_some_iff.1 hfits
  refine .bind advances_kept (hsolve K _ id) fun solved =>
    .bind advances_kept (SolveM.acceptCall_sound fun t ht => ⟨ht.1.allocated, hK t ht.2⟩) fun _ =>
      .pure advances_kept fun t ht => ⟨⟨candidate, solved.variant, rfl, fun hkeep => ?_⟩, fun hkind => ?_⟩
  · obtain ⟨hagree, hgiven, -⟩ := ht
    exact ⟨id, symbol, params, solved.args, solved.returns, hid, hsymbol, hparams, hlength.symm,
      hgiven.offers hkeep nofun, hgiven.arity, hagree.args, hagree.returns⟩
  · have hpath : candidate = usage.path := by
      simpa [SolveM.candidates, hkind] using hcandidate
    have hof : table.paramsOf usage.path = params := by
      rw [SymbolTable.paramsOf, ← hpath, hid, Option.bind_some, hsymbol, Option.bind_some, hparams,
        Option.getD_some]
    change (table.paramsOf usage.path).Nodup ∧ (table.paramsOf usage.path).length = usage.args.length
    rw [hof]
    exact ⟨(htable.get? hsymbol).nodup hparams, hlength⟩

theorem bindGlobal_sound (hsolve : SolvesSound table keep stack solve) {usage : VariableUsage}
    (hK : ∀ t, K t → t.graph.Allocated [usage.type]) :
    KeepsSound table keep stack K (SolveM.bindGlobal table (solve .moduleVariable) usage) fun _ _ => True := by
  unfold SolveM.bindGlobal
  split
  · exact .throw
  refine .bind advances_kept (hsolve K _ _) fun solved =>
    .bind advances_kept (SolveM.unifyAt_sound fun t ht => ?_) fun _ => .pure advances_kept fun _ _ => trivial
  exact List.forall_mem_cons.2 ⟨hK t ht.2 _ List.mem_cons_self,
    List.forall_mem_singleton.2 (ht.1.allocated _ List.mem_cons_self)⟩

/-- All usages of a draft whose types are allocated are answered. -/
theorem firstBinder_serves (htable : table.Regular) (hsolve : SolvesSound table keep stack solve) {d : Draft}
    (hK : ∀ t, K t → t.graph.Allocated d.usages.types) :
    (firstBinder table user d.usages solve).Serves (Advances keep (busy stack)) (Sound table stack) K d.records
      fun t => (firstBinder table user d.usages solve).fitting (KeptCalls table keep stack t) where
  kept := advances_kept
  procedures := rfl
  globals := rfl
  procedure usage hu := bindFirst_sound htable hsolve d.usages fun t ht v hv => hK t ht v
    (List.mem_append_left _ (List.mem_flatMap.2 ⟨usage, Array.mem_toList_iff.2 hu, hv⟩))
  moduleVariable _ hu := bindGlobal_sound hsolve fun t ht => List.forall_mem_singleton.2 (hK t ht _
    (List.mem_append_right _ (List.mem_map_of_mem (Array.mem_toList_iff.2 hu))))
  allocate := SolveM.allocate_sound

end usages

/-! ### Drafts -/

section drafts

variable {table : SymbolTable} {symbol : Symbol} {draft : TypeGraph → Except TypeError Draft × TypeGraph}
  {d : Draft} {g g' : TypeGraph}

theorem Symbol.draft_regional (hdraft : symbol.draft? table = some draft) (h : draft g = (.ok d, g')) :
    d.Regional g' g.future := by
  unfold Symbol.draft? at hdraft
  split at hdraft <;> cases hdraft
  · exact Draft.ofProcedure_regional h
  · exact Draft.ofVariable_regional h

theorem Symbol.procedure_of_params {params : List String} (hdraft : symbol.draft? table = some draft)
    (hparams : symbol.declaration.params? = some params) :
    ∃ body, symbol.declaration = .procedure params body := by
  unfold Symbol.draft? at hdraft
  split at hdraft <;> rename_i h
  · rw [h] at hparams
    cases hparams
    exact ⟨_, h⟩
  · rw [h] at hparams
    cases hparams
  all_goals cases hdraft

theorem Symbol.draft_drafted {params : List String} {body : List (Expr Unit)} (hregular : symbol.declaration.Regular)
    (hdraft : symbol.draft? table = some draft) (h : draft g = (.ok d, g'))
    (hdeclaration : symbol.declaration = .procedure params body) : d.args.length = params.length ∧
      ∀ n ∈ Expr.nodesOf (.ofParams params d.args d.returns) d.body, Expr.Drafted d.records g' n := by
  rw [hdeclaration] at hregular
  rw [Symbol.draft?, hdeclaration] at hdraft
  cases hdraft
  obtain ⟨hlength, hrecorded⟩ := Draft.ofProcedure_recorded h
  exact ⟨hlength, fun n hn => ⟨Draft.ofProcedure_proper hregular.2 h _ n hn, hrecorded n hn⟩⟩

/-- Drafting leaves types as they are and well-formed. -/
theorem Symbol.draft_narrows (hg : g.WellFormed) (hdraft : symbol.draft? table = some draft)
    (h : draft g = (.ok d, g')) : NarrowsIn Set.univ g g' := by
  have hsprouts : g.Sprouts g' := by simpa [h] using symbol.draft_sprouts hdraft g
  exact ⟨hsprouts.extends.narrows, (hsprouts.confines hg.closed).1⟩

end drafts

/-! ### Solving -/

section solving

variable {table : SymbolTable} {keep : Bool} {stack : List Activation} {request : Request} {w w' : Workspace}

theorem Given.mono {id : Nat} {solved : Solved} (h : Given table keep stack request id w solved)
    (hw : Advances keep (busy stack) w w') : Given table keep stack request id w' solved :=
  ⟨h.allocated.mono hw.narrows.size_le, h.arity, fun hkeep hrequest =>
    (h.offers hkeep hrequest).mono hw.variants (List.Subset.refl _)⟩

/-- What leads a sound workspace to another one gives a solution from there on. -/
theorem Given.ensured {id : Nat} {solved : Solved} (hs : Sound table stack w')
    (hw : Advances keep (busy stack) w w') (h : Given table keep stack request id w' solved) :
    Sound table stack w' ∧ Advances keep (busy stack) w w' ∧
      Always (Advances keep (busy stack)) (fun t => Given table keep stack request id t solved) w' :=
  ⟨hs, hw, fun _ ht => h.mono ht⟩

/-- A symbol is solved when its variant is kept, if it is to be kept. -/
theorem Workspace.Sound.solved {a : Activation} {body : Option (List (Expr TypeVar))} (hs : Sound table stack w)
    (hw : Advances keep (busy stack) w w') (hs' : Sound table (a :: stack) w') (hsize : a.symbol < table.size)
    (hfree : a.symbol ∉ busy stack)
    (hbody : keep = true → BodyTyped table (a :: stack) w' a.symbol ⟨a.solved.args, a.solved.returns, body⟩)
    (hevolves : Evolves keep (busy stack) w (w'.keeping keep a.symbol ⟨a.solved.args, a.solved.returns, body⟩)) :
    Sound table stack (w'.keeping keep a.symbol ⟨a.solved.args, a.solved.returns, body⟩) ∧
      Advances keep (busy stack) w (w'.keeping keep a.symbol ⟨a.solved.args, a.solved.returns, body⟩) ∧
        Always (Advances keep (busy stack)) (fun t => Given table keep stack request a.symbol t a.solved)
          (w'.keeping keep a.symbol ⟨a.solved.args, a.solved.returns, body⟩) := by
  have hgraph : (w'.keeping keep a.symbol ⟨a.solved.args, a.solved.returns, body⟩).graph = w'.graph := by
    cases keep <;> rfl
  obtain ⟨hallocated, harity⟩ := hs'.active a List.mem_cons_self
  refine Given.ensured (hs.finish hw hs' hsize hfree hbody) ⟨hevolves, hgraph ▸ hw.narrows⟩
    ⟨hgraph ▸ hallocated, harity, fun hkeep _ => ?_⟩
  subst hkeep
  refine .inl ⟨⟨a.solved.args, a.solved.returns, body⟩, ?_, rfl, rfl⟩
  rw [hs'.next a List.mem_cons_self]
  exact VariantStore.find?_append_self (hs'.size_eq ▸ hsize) _

/-- A signature without a body is made of allocated variables. -/
theorem Symbol.Makes.narrows {symbol : Symbol} {args : List TypeVar} {returns : TypeVar}
    (h : symbol.Makes request w args returns w') (hregular : symbol.declaration.Regular) (hw : w.graph.WellFormed)
    (hgiven : w.graph.Allocated symbol.declaration.vars) :
    NarrowsIn Set.univ w.graph w'.graph ∧ w'.graph.Allocated (returns :: args) := by
  cases h with
  | @native usage params n signature w w₁ w' hdeclaration hsignature happlied =>
    rw [hdeclaration] at hregular
    cases hsignature
    have hallocated := n.instantiate_allocates (usage.getD symbol.span) w.graph hregular.2
    obtain ⟨hsignature, hconstraints⟩ := List.forall_mem_append.1 hallocated
    have hwf : (n.instantiate (usage.getD symbol.span) w.graph).2.WellFormed :=
      NativeSignature.instantiate_wellFormed hw
    obtain ⟨-, hin, -⟩ := SolveM.applyAll_narrows hwf
      (fun c hc v hv => hconstraints v (List.mem_flatMap.2 ⟨c, hc, hv⟩)) happlied
    exact ⟨.trans ⟨(n.instantiate_extends _ w.graph).narrows, hwf.closed⟩ hin,
      Allocated.mono hsignature hin.size_le⟩
  | @external type v w w' hdeclaration hbuilt =>
    rw [hdeclaration] at hgiven
    obtain ⟨hbuilt, -⟩ := SolveM.onGraph_eq_ok_iff.1 hbuilt
    have hextends := (type.build_extends (some symbol.span) [] w.graph).ok hbuilt
    obtain ⟨hclosed, -, hv⟩ := (WrittenType.build_builds (some symbol.span) [] type).ok hw.closed
      (fun t ht => (hgiven.mono ht.size_le).known) hbuilt
    exact ⟨⟨hextends.narrows, hclosed⟩, (hv _ ((changesIn_kept _).refl _)).allocated⟩

/-- A symbol without a body is not asked for its parameters. -/
theorem Symbol.Makes.hasArity {symbol : Symbol} {id : Nat} {args args' : List TypeVar} {returns : TypeVar}
    (h : symbol.Makes request w args returns w') (hsymbol : table.get? id = some symbol) :
    table.HasArity id args' := by
  intro symbol' params body hsymbol' hdeclaration
  cases hsymbol.symm.trans hsymbol'
  cases h with
  | native h | external h => cases h.symm.trans hdeclaration

/-- A module variable is not asked for its parameters. -/
theorem Request.Suits.hasArity {symbol : Symbol} {id : Nat} (h : Request.moduleVariable.Suits symbol)
    (hsymbol : table.get? id = some symbol) (args : List TypeVar) : table.HasArity id args := by
  intro symbol' params body hsymbol' hdeclaration
  cases hsymbol.symm.trans hsymbol'
  simp [Request.Suits, hdeclaration, Declaration.isProcedure, Declaration.params?] at h

theorem solve_sound (htable : table.Regular) (keep : Bool) (stack : List Activation) :
    SolvesSound table keep stack fun request id =>
      SolveM.provided (solvesOutright table keep stack request id) (solve table keep stack request id) := by
  induction stack using solving_induction table with
  | h stack ih =>
    refine fun K request id => ⟨fun {w solved w'} hs _ hrun => ?_⟩
    obtain ⟨houtright, hrun⟩ := SolveM.provided_eq_ok_iff.1 hrun
    have hevolves := (solve_evolves table keep stack request id w).ok hrun
    cases solving_of_ok hrun with
    | @reused usage a w ha =>
      obtain ⟨hallocated, harity⟩ := hs.active a ha
      exact Given.ensured hs (advances_kept.refl w) ⟨hallocated, harity, fun _ _ => .inr ⟨a, ha, rfl, rfl, rfl⟩⟩
    | @known id symbol v rest w hsymbol hsuits hknown =>
      have hv : w.variants.find? ⟨id, 0⟩ = some v := by
        rw [VariantStore.find?, hknown, List.getElem?_cons_zero]
      have hreturns := (hs.kept hv).1 v.returns List.mem_cons_self
      exact Given.ensured hs (advances_kept.refl w)
        ⟨List.forall_mem_singleton.2 hreturns, hsuits.hasArity hsymbol _, fun _ h => (h rfl).elim⟩
    | @bodiless request id symbol args returns w w' hsymbol hfree hsuits _ hmade =>
      obtain ⟨hin, hallocated⟩ := hmade.narrows (htable.get? hsymbol) hs.wellFormed
        (hs.given symbol (Array.mem_of_getElem? hsymbol))
      have hvariants : w'.variants = w.variants := hmade.evolves.unkept rfl
      have hsize : id < table.size := (Array.getElem?_eq_some_iff.1 hsymbol).1
      refine Workspace.Sound.solved (a := ⟨id, (w.variants.ofSymbol id).length, args, returns⟩) hs
        (.of_narrows hvariants hin.toNarrows) ?_ hsize hfree (fun _ _ _ _ h => ?_) hevolves
      · exact (hs.of_graph hvariants hin).push (by rw [hvariants]) hallocated (hmade.hasArity hsymbol)
      · cases h
    | @drafted request id symbol draft d body w w₁ w₂ w₃ hsymbol hfree hsuits hnew hdraft hdrafted happlied
        hbound =>
      have hsize : id < table.size := (Array.getElem?_eq_some_iff.1 hsymbol).1
      have hregular := htable.get? hsymbol
      obtain ⟨hdraft₁, hvariants₁⟩ := SolveM.draft_ok hdrafted
      have hin₁ := Symbol.draft_narrows hs.wellFormed hdraft hdraft₁
      obtain ⟨-, hconstraints, hsignature, husages⟩ := Symbol.draft_regional hdraft hdraft₁
      have hs₁ := hs.of_graph hvariants₁ hin₁
      obtain ⟨hvariants₂, hin₂, hholds⟩ := SolveM.applyAll_narrows hs₁.wellFormed
        (fun c hc v hv => (hconstraints c hc v hv).2) happlied
      let a : Activation := ⟨id, (w.variants.ofSymbol id).length, d.args, d.returns⟩
      have hdrafts {params source} (h : symbol.declaration = .procedure params source) :=
        Symbol.draft_drafted hregular hdraft hdraft₁ h
      have hs₂ : Sound table (a :: stack) w₂ := by
        refine (hs₁.of_graph hvariants₂ hin₂).push (by rw [hvariants₂, hvariants₁])
          (Allocated.mono (fun v hv => (hsignature v hv).2) hin₂.size_le) fun symbol' params source hsymbol' h => ?_
        cases hsymbol.symm.trans hsymbol'
        exact (hdrafts h).1
      have hserves : (outrightBinder table keep (a :: stack) symbol.path d.usages).Serves
          (Advances keep (busy (a :: stack))) (Sound table (a :: stack)) (fun t => w₂.graph.Narrows t.graph) d.records
          fun t => (outrightBinder table keep (a :: stack) symbol.path d.usages).fitting
            (KeptCalls table keep (a :: stack) t) := firstBinder_serves htable (ih a hsize hfree) fun t ht v hv =>
        Nat.lt_of_lt_of_le (husages v hv).2 (Nat.le_trans hin₂.size_le ht.size_le)
      obtain ⟨hs₃, hw₃, hbody⟩ := (Binder.exprs_renews d.body hserves).ok hs₂ (fun t ht => ht.narrows)
        (bound_of_outright houtright hsymbol hfree hnew hdraft hdrafted happlied hbound)
      refine Workspace.Sound.solved (a := a) hs ?_ hs₃ hsize hfree (fun hkeep => ?_) hevolves
      · exact advances_kept.trans (.of_narrows (hvariants₂.trans hvariants₁) (hin₁.trans hin₂).toNarrows)
          (hw₃.weaken (List.subset_cons_self _ _))
      · rintro _ symbol' params ⟨⟩ hsymbol' hparams n hn
        cases hsymbol.symm.trans hsymbol'
        obtain ⟨source, hdeclaration⟩ := Symbol.procedure_of_params hdraft hparams
        obtain ⟨n₀, hn₀, hnode⟩ := (hbody.here advances_kept).nodes _ n hn
        have hdraft₀ := ((hdrafts hdeclaration).2 n₀ hn₀).narrows (hin₂.toNarrows.trans hw₃.narrows)
        exact (hnode.typed (fun c hc => Demand.Met.narrows (hholds c hc) hw₃.narrows) hdraft₀).mono (.refl _)
          fun _ _ _ _ hcall => hcall hkeep

end solving

end Monomorph
