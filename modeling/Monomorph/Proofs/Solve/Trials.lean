import Monomorph.Proofs.Solve.Effects
import Monomorph.Proofs.Type.Confining

/-! # A trial on copies predicts the commit

Before a call is unified with the signature of a candidate, copies of all types involved are unified in its
place. Copies are mirror images of the types reachable from the call, and unifying them takes the same
turns; so the trial ends as the unification itself would, with the same error if it fails
(`SolveM.unifyCall_mirrors`). It happens among the copies, which no type that was there before can see
(`SolveM.unifyCall_confined`), and what it did to the copies the commit does to the originals.

Main statement: `SolveM.unifyCopies_predicts`. `SolveM.acceptCall` finds the caller's copies by the number of the
callee's arguments, so its trial is this unification of copies if the callee has as many arguments as the call
(`SolveM.trial_eq`). -/

namespace Monomorph

open Outcome TypeGraph

namespace SolveM

variable {g h : TypeGraph} {s : Set TypeVar} {f : TypeVar → TypeVar} {usage : ProcedureUsage}
  {w w' : Workspace} {args callerArgs : List TypeVar} {returns callerReturns : TypeVar}

/-! ### Unifying a call with a signature -/

/-- One workspace mirrors part of the other's types. -/
abbrev MirrorsTypes (s : Set TypeVar) (f : TypeVar → TypeVar) (w w' : Workspace) : Prop :=
  Mirrors s f w.graph w'.graph

theorem onGraph_alike {x y : TypeM Unit} (h : Alike (Mirrors s f) (x w.graph) (y w'.graph)) :
    Alike (MirrorsTypes s f) (onGraph x w) (onGraph y w') := by
  obtain ⟨graph, variants⟩ := w
  obtain ⟨graph', variants'⟩ := w'
  change Alike (Mirrors s f) (x graph) (y graph') at h
  unfold onGraph
  dsimp only
  generalize x graph = result at h ⊢
  generalize y graph' = result' at h ⊢
  cases result <;> cases result' <;> exact h

theorem unifyAt_mirrors {a b : TypeVar} {span : Span} {path : StepPath} (hm : MirrorsTypes s f w w')
    (ha : a ∈ s) (hb : b ∈ s) :
    Alike (MirrorsTypes s f) (onGraph (unifyAt a b span path) w) (onGraph (unifyAt (f a) (f b) span path) w') :=
  onGraph_alike (hm.unifyAll span (List.forall_mem_singleton.2 ⟨ha, hb⟩))

theorem unifyArgs_mirrors (i : Nat) (hm : MirrorsTypes s f w w') (hargs : ∀ a ∈ args, a ∈ s)
    (hcaller : ∀ a ∈ callerArgs, a ∈ s) :
    Alike (MirrorsTypes s f) (unifyArgs usage i args callerArgs w)
      (unifyArgs usage i (args.map f) (callerArgs.map f) w') := by
  induction args generalizing i callerArgs w w' with
  | nil => exact ⟨rfl, hm⟩
  | cons a args ih =>
    cases callerArgs with
    | nil => exact ⟨rfl, hm⟩
    | cons b callerArgs =>
      obtain ⟨ha, hargs⟩ := List.forall_mem_cons.1 hargs
      obtain ⟨hb, hcaller⟩ := List.forall_mem_cons.1 hcaller
      exact (unifyAt_mirrors hm ha hb).bind fun _ _ _ hm' => ih (i + 1) hm' hargs hcaller

/-- Unifying a call with a signature and unifying their images end alike. -/
theorem unifyCall_mirrors (usage : ProcedureUsage) (hm : MirrorsTypes s f w w') (hargs : ∀ a ∈ args, a ∈ s)
    (hreturns : returns ∈ s) (hcaller : ∀ a ∈ callerArgs, a ∈ s) (hcallerReturns : callerReturns ∈ s) :
    Alike (MirrorsTypes s f) (unifyCall usage args returns callerArgs callerReturns w)
      (unifyCall usage (args.map f) (f returns) (callerArgs.map f) (f callerReturns) w') :=
  (unifyArgs_mirrors 0 hm hargs hcaller).bind fun _ _ _ hm' => unifyAt_mirrors hm' hreturns hcallerReturns

/-- Outside of a set of types nothing changes. -/
abbrev TypesChangeIn (s : Set TypeVar) (w w' : Workspace) : Prop := ChangesIn s w.graph w'.graph

theorem typesChangeIn_kept (s : Set TypeVar) : Kept (TypesChangeIn s) :=
  ⟨fun _ => (changesIn_kept s).refl _, (changesIn_kept s).trans⟩

/-- Of the workspaces with a property the set is a region, and changes of types in it keep the property. -/
structure Regards (s : Set TypeVar) (S : Workspace → Prop) : Prop where
  closed : ∀ {w}, S w → w.graph.Closed s
  stable : ∀ {w w'}, S w → w'.variants = w.variants → w'.graph.Closed s → TypesChangeIn s w w' → S w'

theorem regards_closed (s : Set TypeVar) : Regards s fun w => w.graph.Closed s := ⟨id, fun _ _ h _ => h⟩

section confined

variable {S K : Workspace → Prop}

theorem onGraph_confined {α : Type} {x : TypeM α} (hS : Regards s S)
    (hx : ∀ {w}, S w → K w → KeepsAt (Confines s) x w.graph) :
    Maintains (TypesChangeIn s) S K (onGraph x) fun _ _ => True :=
  .of_keepsAt (typesChangeIn_kept s) fun {w} hs hK => by
    constructor
    · intro a w' hok
      obtain ⟨hgraph, hvariants⟩ := onGraph_eq_ok_iff.1 hok
      obtain ⟨hclosed, hchanges⟩ := (hx hs hK).ok hgraph (hS.closed hs)
      exact ⟨hS.stable hs hvariants hclosed hchanges, hchanges⟩
    · intro e w' herror
      obtain ⟨hgraph, hvariants⟩ := onGraph_eq_error_iff.1 herror
      obtain ⟨hclosed, hchanges⟩ := (hx hs hK).error hgraph (hS.closed hs)
      exact ⟨hS.stable hs hvariants hclosed hchanges, hchanges⟩

theorem unifyAt_confined (hS : Regards s S) {a b : TypeVar} {span : Span} {path : StepPath}
    (hK : ∀ t, K t → t.graph.AllKnown s [a, b]) :
    Maintains (TypesChangeIn s) S K (onGraph (unifyAt a b span path)) fun _ _ => True :=
  onGraph_confined hS fun _ hknown => unifyAt_confines (hK _ hknown a (by simp)) (hK _ hknown b (by simp))

theorem unifyArgs_confined (hS : Regards s S) (i : Nat) (hK : ∀ t, K t → t.graph.AllKnown s (args ++ callerArgs)) :
    Maintains (TypesChangeIn s) S K (unifyArgs usage i args callerArgs) fun _ _ => True := by
  induction args generalizing K i callerArgs with
  | nil => exact .pure (typesChangeIn_kept s) fun _ _ => trivial
  | cons a args ih =>
    cases callerArgs with
    | nil => exact .pure (typesChangeIn_kept s) fun _ _ => trivial
    | cons b callerArgs =>
      refine .bind (typesChangeIn_kept s) (unifyAt_confined hS fun t ht v hv => hK t ht v ?_) fun _ =>
        ih (i + 1) fun t ht v hv => hK t ht.2 v ?_
      · simp at hv ⊢
        grind
      · simp at hv ⊢
        grind

/-- Unifying a call with a signature in a region changes nothing outside, also where it fails. -/
theorem unifyCall_confined (hS : Regards s S) (usage : ProcedureUsage)
    (hK : ∀ t, K t → t.graph.AllKnown s (returns :: callerReturns :: (args ++ callerArgs))) :
    Maintains (TypesChangeIn s) S K (unifyCall usage args returns callerArgs callerReturns) fun _ _ => True := by
  refine .bind (typesChangeIn_kept s) (unifyArgs_confined hS 0 fun t ht v hv => hK t ht v (by simp [hv])) fun _ =>
    unifyAt_confined hS fun t ht v hv => hK t ht.2 v ?_
  simp at hv ⊢
  grind

end confined

/-! ### Trial and commit -/

/-- The types of a signature and of a call to it. -/
def involved (usage : ProcedureUsage) (solved : Solved) : List TypeVar :=
  solved.args ++ [solved.returns] ++ usage.args ++ [usage.returns]

def commit (usage : ProcedureUsage) (solved : Solved) : SolveM Unit :=
  unifyCall usage solved.args solved.returns usage.args usage.returns

/-- Unify the copies of a call and a signature, found where `acceptCall` looks for them. -/
def trial (usage : ProcedureUsage) (solved : Solved) : SolveM Unit := do
  let arity := solved.args.length
  let copies ← copyAll (involved usage solved)
  let callee := copies.take (arity + 1)
  let caller := copies.drop (arity + 1)
  unifyCall usage (callee.take arity) (callee.getD arity default)
    (caller.take arity) (caller.getD arity default)

theorem acceptCall_eq (usage : ProcedureUsage) (solved : Solved) :
    acceptCall usage solved = (do trial usage solved; commit usage solved) := by
  simp only [acceptCall, trial, commit, involved, bind_assoc]

/-- A workspace with copies of the types of a call added. -/
def withCopies (usage : ProcedureUsage) (solved : Solved) (w : Workspace) : Workspace :=
  ⟨(w.graph.copyAll (involved usage solved)).2, w.variants⟩

def callCopy (usage : ProcedureUsage) (solved : Solved) (w : Workspace) : TypeVar → TypeVar :=
  w.graph.copyOf (involved usage solved)

/-- Copy the types of a call and unify the copies in place of the call. -/
def unifyCopies (usage : ProcedureUsage) (solved : Solved) : SolveM Unit := fun w =>
  let copy := callCopy usage solved w
  unifyCall usage (solved.args.map copy) (copy solved.returns) (usage.args.map copy) (copy usage.returns)
    (withCopies usage solved w)

/-- If the callee has as many arguments as the call, the copies are where they are looked for. -/
theorem trial_eq {solved : Solved} (h : solved.args.length = usage.args.length) :
    trial usage solved = unifyCopies usage solved := by
  funext w
  have hcopies : (w.graph.copyAll (involved usage solved)).1 =
      (solved.args.map (callCopy usage solved w) ++ [callCopy usage solved w solved.returns]) ++
        (usage.args.map (callCopy usage solved w) ++ [callCopy usage solved w usage.returns]) := by
    rw [copyAll_fst]
    simp [involved, callCopy]
  have htake : solved.args.length + 1 =
      (solved.args.map (callCopy usage solved w) ++ [callCopy usage solved w solved.returns]).length := by
    simp
  have htrial : trial usage solved w =
      (fun (arity : Nat) (copies : List TypeVar) =>
        unifyCall usage ((copies.take (arity + 1)).take arity) ((copies.take (arity + 1)).getD arity default)
          ((copies.drop (arity + 1)).take arity) ((copies.drop (arity + 1)).getD arity default)
          (withCopies usage solved w)) solved.args.length (w.graph.copyAll (involved usage solved)).1 := rfl
  rw [htrial, hcopies]
  dsimp only
  rw [htake, List.take_left, List.drop_left]
  simp [unifyCopies, h]

/-- What the unification of copies tells of a call. -/
structure Predicts (usage : ProcedureUsage) (solved : Solved) (w : Workspace) : Prop where
  /-- The copies are those that copying gives. -/
  copies : (w.graph.copyAll (involved usage solved)).1 = (involved usage solved).map (callCopy usage solved w)
  /-- Unifying the copies succeeds exactly if unifying the call itself does, whether before the copies
  are made or after. -/
  outcome : ∀ w₀ ∈ [w, withCopies usage solved w],
    (∃ w', unifyCopies usage solved w = .ok () w') ↔ ∃ w', commit usage solved w₀ = .ok () w'
  /-- However it ends, types that were there keep their classes and what they are. -/
  undisturbed : ∀ w', (unifyCopies usage solved w = .ok () w' ∨
      ∃ e, unifyCopies usage solved w = .error e w') → ∀ v : TypeVar, v.index < w.graph.size →
    (∀ u, w'.graph.Same v u ↔ w.graph.Same v u) ∧ w'.graph.get v = w.graph.get v ∧
      w'.graph.display v = w.graph.display v
  /-- Once it has succeeded, so does the call itself, and every type that the call leads to becomes what
  its copy was. -/
  committed : ∀ w', unifyCopies usage solved w = .ok () w' →
    ∃ w'', commit usage solved w' = .ok () w'' ∧ ∀ v ∈ w.graph.reached (involved usage solved),
      w''.graph.display v = w'.graph.display (callCopy usage solved w v)
  /-- If the callee has as many arguments as the call, nothing can fail after the trial. -/
  accepted : solved.args.length = usage.args.length → ∀ w', trial usage solved w = .ok () w' →
    ∃ w'', commit usage solved w' = .ok () w'' ∧ acceptCall usage solved w = .ok () w''

/-- Unifying the copies of a call predicts what unifying the call does. -/
theorem unifyCopies_predicts {usage : ProcedureUsage} {solved : Solved} {w : Workspace} (hg : w.graph.WellFormed)
    (hknown : ∀ v ∈ involved usage solved, v.index < w.graph.size) : Predicts usage solved w := by
  have hargs : ∀ v ∈ solved.args, v ∈ involved usage solved := fun v hv => by simp [involved, hv]
  have hreturns : solved.returns ∈ involved usage solved := by simp [involved]
  have hcaller : ∀ v ∈ usage.args, v ∈ involved usage solved := fun v hv => by simp [involved, hv]
  have hcallerReturns : usage.returns ∈ involved usage solved := by simp [involved]
  -- The run on the originals is the same in every workspace that leaves them as they are.
  have horiginals {w₀ : Workspace} (h : w.graph.Untouched w₀.graph) :
      Alike (MirrorsTypes {v | v.index < w.graph.size} id) (commit usage solved w) (commit usage solved w₀) := by
    have halike := unifyCall_mirrors usage (h.mirrors hg) (fun v hv => hknown v (hargs v hv))
      (hknown _ hreturns) (fun v hv => hknown v (hcaller v hv)) (hknown _ hcallerReturns)
    rwa [List.map_id, List.map_id] at halike
  have hcopied : w.graph.Untouched (withCopies usage solved w).graph := copyAll_untouched _ _
  have halike : Alike (MirrorsTypes (w.graph.reached (involved usage solved)) (callCopy usage solved w))
      (commit usage solved w) (unifyCopies usage solved w) :=
    unifyCall_mirrors usage (copyAll_mirrors hg hknown)
      (fun v hv => mem_reached (hargs v hv)) (mem_reached hreturns)
      (fun v hv => mem_reached (hcaller v hv)) (mem_reached hcallerReturns)
  have hrun (w' : Workspace) (h : unifyCopies usage solved w = .ok () w' ∨
      ∃ e, unifyCopies usage solved w = .error e w') : w.graph.Untouched w'.graph := by
    -- Only the copies and what is allocated with them change.
    have hclosed : (withCopies usage solved w).graph.Closed w.graph.future :=
      (confines_copyAll w.graph (involved usage solved) w.graph.closed_future).1
    have hcopy {v : TypeVar} (hv : v ∈ involved usage solved) :
        (withCopies usage solved w).graph.Known w.graph.future (callCopy usage solved w v) :=
      known_copyOf w.graph.closed_future (mem_reached hv)
    have hcopies : (withCopies usage solved w).graph.AllKnown w.graph.future
        (callCopy usage solved w solved.returns :: callCopy usage solved w usage.returns ::
          (solved.args.map (callCopy usage solved w) ++ usage.args.map (callCopy usage solved w))) := by
      simp only [AllKnown, List.forall_mem_cons, List.forall_mem_append, List.forall_mem_map]
      exact ⟨hcopy hreturns, hcopy hcallerReturns, fun v hv => hcopy (hargs v hv), fun v hv => hcopy (hcaller v hv)⟩
    have hconfined : Maintains (TypesChangeIn w.graph.future) (fun t => t.graph.Closed w.graph.future)
        (fun t => t.graph.AllKnown w.graph.future _)
        (unifyCall usage (solved.args.map (callCopy usage solved w)) (callCopy usage solved w solved.returns)
          (usage.args.map (callCopy usage solved w)) (callCopy usage solved w usage.returns)) fun _ _ => True :=
      unifyCall_confined (regards_closed w.graph.future) usage fun _ h => h
    have hwithin (hend : w'.graph.Closed w.graph.future)
        (hchanges : TypesChangeIn w.graph.future (withCopies usage solved w) w') : w.graph.Untouched w'.graph :=
      hcopied.within hchanges.size_le (hchanges.within hend.region)
    rcases h with hok | ⟨e, herror⟩
    · obtain ⟨hend, hchanges, -⟩ := hconfined.ok hclosed (fun t ht => ht.allKnown hcopies) hok
      exact hwithin hend hchanges
    · obtain ⟨hend, hchanges⟩ := hconfined.error hclosed (fun t ht => ht.allKnown hcopies) herror
      exact hwithin hend hchanges
  have hcommitted (w' : Workspace) (h : unifyCopies usage solved w = .ok () w') :
      ∃ w'', commit usage solved w' = .ok () w'' ∧ ∀ v ∈ w.graph.reached (involved usage solved),
        w''.graph.display v = w'.graph.display (callCopy usage solved w v) := by
    obtain ⟨w₁, hw₁⟩ := (halike.ok_iff ()).2 ⟨w', h⟩
    rw [hw₁, h] at halike
    have hagain := horiginals (hrun w' (.inl h))
    rw [hw₁] at hagain
    obtain ⟨w'', hw'', hmirrors⟩ := hagain.of_ok
    refine ⟨w'', hw'', fun v hv => ?_⟩
    rw [halike.2.display hv]
    exact hmirrors.display (hg.lt_size_of_reached hknown hv)
  refine ⟨copyAll_fst _ _, fun w₀ hw₀ => ?_, fun w' h v hv => ?_, hcommitted, fun hlength w' h => ?_⟩
  · rw [← halike.ok_iff ()]
    rcases List.mem_cons.1 hw₀ with rfl | hw₀
    · exact Iff.rfl
    · obtain rfl := List.mem_singleton.1 hw₀
      exact (horiginals hcopied).ok_iff ()
  · have huntouched := hrun w' h
    exact ⟨huntouched.same_iff hv, huntouched.type v hv, (huntouched.mirrors hg).display hv⟩
  · rw [trial_eq hlength] at h
    obtain ⟨w'', hw'', -⟩ := hcommitted w' h
    refine ⟨w'', hw'', ?_⟩
    rw [acceptCall_eq, trial_eq hlength]
    exact bind_eq_ok_iff.2 ⟨(), w', h, hw''⟩

end SolveM
end Monomorph
