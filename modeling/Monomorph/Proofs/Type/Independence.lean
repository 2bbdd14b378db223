import Mathlib.Data.Set.Card
import Monomorph.Proofs.Type.Confining
import Monomorph.Proofs.Type.History

/-! # Copies are independent of their originals

Copying adds a graph that is isomorphic to what is reachable from the given variables
(`TypeGraph.Copied`): one new variable for each class, with the class's type over the copies. From the new
variables nothing leads back.

What nothing leads back from is a region, and changes there are confined to it, however they end: unifying two of
its variables, and applying a constraint about them (`TypeGraph.edits_confined`). So whatever happens to copies
later, the originals stay as they are.

Main statement: `TypeGraph.copyAll_independent`. -/

namespace Monomorph

open Outcome TypeGraph

namespace TypeGraph

variable {g g' : TypeGraph} {s : Set TypeVar} {vs : List TypeVar}

/-! ### The copy -/

/-- The graph `g'` is `g` with a copy of what is reachable from some variables added; `f` gives the copies. -/
structure Copied (g : TypeGraph) (vs : List TypeVar) (f : TypeVar → TypeVar) (g' : TypeGraph) : Prop where
  /-- One variable is allocated for each class. -/
  size : g'.size = g.size + (g.find '' g.reached vs).ncard
  /-- The copies are the variables allocated. -/
  new : ∀ v ∈ g.reached vs, g.size ≤ (f v).index ∧ (f v).index < g'.size
  onto : ∀ w : TypeVar, g.size ≤ w.index → w.index < g'.size → ∃ v ∈ g.reached vs, f v = w
  /-- Two variables have the same copy, and copies of one class, exactly if they are of one class. -/
  eq_iff : ∀ v ∈ g.reached vs, ∀ w ∈ g.reached vs, f v = f w ↔ g.Same v w
  same_iff : ∀ v ∈ g.reached vs, ∀ w ∈ g.reached vs, g'.Same (f v) (f w) ↔ g.Same v w
  /-- A copy has its original's type with the copies of the variables inside. -/
  type : ∀ v ∈ g.reached vs, g'.get (f v) = ⟨(g.get v).kind.mapVars f, (g.get v).origin⟩
  /-- Every variable that was there keeps its class and its type. -/
  kept : ∀ v : TypeVar, v.index < g.size → g'.get v = g.get v ∧ ∀ w, g'.Same v w ↔ g.Same v w
  /-- No copy leads to a variable that was there. -/
  apart : ∀ v ∈ g.reached vs, ∀ w, g'.Reaches (f v) w → g.size ≤ w.index

theorem ncard_classes (g : TypeGraph) (vs : List TypeVar) :
    (g.find '' g.reached vs).ncard = (g.discovery vs).found.size := by
  obtain ⟨hsound, hhas⟩ := g.discovery_spec vs
  have hnodup : ((g.discovery vs).found.toList.map TypeVar.mk).Nodup := by
    refine List.Nodup.map (fun _ _ h => congrArg TypeVar.index h) ?_
    rw [List.nodup_iff_getElem?_ne_getElem?]
    intro i j hij hj heq
    rw [Array.getElem?_toList, Array.getElem?_toList] at heq
    obtain ⟨r, hr⟩ : ∃ r, (g.discovery vs).found[j]? = some r := ⟨_, Array.getElem?_eq_getElem hj⟩
    have hi := (hsound.place r i).2 (heq.trans hr)
    rw [(hsound.place r j).2 hr] at hi
    exact Nat.ne_of_gt hij (Option.some.inj hi)
  have hset : g.find '' g.reached vs = ((g.discovery vs).found.toList.map TypeVar.mk).toFinset := by
    ext w
    simp only [Set.mem_image, List.coe_toFinset, Set.mem_ofPred_eq, List.mem_map, Array.mem_toList_iff,
      Array.mem_iff_getElem?]
    constructor
    · rintro ⟨v, hv, rfl⟩
      exact ⟨_, (hhas v).2 hv, rfl⟩
    · rintro ⟨r, hr, rfl⟩
      exact ⟨⟨r⟩, hsound.inside r hr, congrArg TypeVar.mk (hsound.root r hr)⟩
  rw [hset, Set.ncard_coe_finset, List.toFinset_card_of_nodup hnodup, List.length_map, Array.length_toList]

theorem copyAll_copied (hg : g.WellFormed) (hvs : ∀ v ∈ vs, v.index < g.size) :
    Copied g vs (g.copyOf vs) (g.copyAll vs).2 := by
  have hmirrors := copyAll_mirrors hg hvs
  have huntouched := copyAll_untouched g vs
  refine ⟨?_, fun v hv => ⟨g.le_copyOf vs v, (hmirrors.allocated hv).2⟩, fun _ => exists_copyOf,
    fun v hv w hw => ?_, fun v hv w hw => hmirrors.same hv hw, fun v hv => hmirrors.type hv,
    fun v hv => ⟨huntouched.type v hv, huntouched.same_iff hv⟩, fun v _ w hreaches => ?_⟩
  · rw [size_copyAll, ncard_classes]
  · -- A copy is alone in its class.
    rw [← hmirrors.same hv hw, TypeGraph.same_iff, rootIndex_copyAll (g.le_copyOf vs v),
      rootIndex_copyAll (g.le_copyOf vs w)]
    exact ⟨congrArg TypeVar.index, congrArg TypeVar.mk⟩
  · exact huntouched.apart.reached_subset (List.forall_mem_singleton.2 (g.le_copyOf vs v))
      ⟨_, List.mem_singleton_self _, hreaches⟩

/-! ### Later changes -/

/-- A constraint about variables reachable from some variables is applied, or two of them are unified, with
whatever end. -/
inductive Edit (vs : List TypeVar) (g g' : TypeGraph) : Prop
  | apply (c : Constraint) (reached : ∀ v ∈ c.vars, v ∈ g.reached vs) (ends : Leaves c.apply g g')
  | unify (v w : TypeVar) (span : Span) (path : StepPath) (left : v ∈ g.reached vs)
      (right : w ∈ g.reached vs) (ends : Leaves (unifyAt v w span path) g g')

/-- An edit of what is reachable from variables of a region is confined to it. -/
theorem Edit.confined (hs : g.Closed s) (hvs : g.AllKnown s vs) (h : Edit vs g g') :
    g'.Closed s ∧ ChangesIn s g g' := by
  have hknown {v : TypeVar} (hv : v ∈ g.reached vs) : g.Known s v := hs.known_reached hvs hv
  have hleaves {x : TypeM Unit} (hx : KeepsAt (Confines s) x g) (h : Leaves x g g') :
      g'.Closed s ∧ ChangesIn s g g' := by
    rcases h with hok | ⟨e, herror⟩
    · exact hx.ok hok hs
    · exact hx.error herror hs
  cases h with
  | apply c reached ends => exact hleaves (Constraint.apply_confines fun v hv => hknown (reached v hv)) ends
  | unify v w span path left right ends => exact hleaves (unifyAt_confines (hknown left) (hknown right)) ends

theorem edits_confined (hs : g.Closed s) (hvs : g.AllKnown s vs) (h : Relation.ReflTransGen (Edit vs) g g') :
    g'.Closed s ∧ ChangesIn s g g' := by
  induction h with
  | refl => exact ⟨hs, (changesIn_kept s).refl g⟩
  | tail _ hedit ih =>
    obtain ⟨hs', hchanges⟩ := ih
    obtain ⟨hs'', hchanges'⟩ := hedit.confined hs' (hchanges.allKnown hvs)
    exact ⟨hs'', (changesIn_kept s).trans hchanges hchanges'⟩

/-- **Copying makes an isomorphic, independent graph.** Whatever is done to the copies and to what is
reachable from them, every variable that was there keeps its class, its type and how it displays. -/
theorem copyAll_independent (hg : g.WellFormed) (hvs : ∀ v ∈ vs, v.index < g.size) :
    ∃ f g', g.copyAll vs = (vs.map f, g') ∧ Copied g vs f g' ∧
      ∀ later, Relation.ReflTransGen (Edit (vs.map f)) g' later → ∀ v : TypeVar, v.index < g.size →
        later.get v = g.get v ∧ (∀ w, later.Same v w ↔ g.Same v w) ∧ later.display v = g.display v := by
  refine ⟨g.copyOf vs, (g.copyAll vs).2, by rw [← copyAll_fst], copyAll_copied hg hvs, fun later h v hv => ?_⟩
  have hs := g.closed_future
  obtain ⟨hcopied, hcopies⟩ := confines_copyAll g vs hs
  obtain ⟨hlater, hedits⟩ := edits_confined hcopied
    (List.forall_mem_map.2 fun v hv => known_copyOf hs (mem_reached hv)) h
  have hundisturbed := ((changesIn_kept _).trans hcopies hedits).undisturbed hs hlater fun u hu =>
    Nat.not_le_of_lt (hg.lt_size_of_reached (List.forall_mem_singleton.2 hv) ⟨v, List.mem_cons_self, hu⟩)
  exact ⟨hundisturbed.type, hundisturbed.same, hundisturbed.display⟩

/-- A closure that gives back itself, and a constraint about its copy that fails on the second argument when the
first one is already unified. -/
theorem copyAll_independent_recursive :
    let g : TypeGraph := ⟨#[.root ⟨.closure [⟨1⟩, ⟨2⟩] ⟨0⟩, none⟩, .root Ty.any, .root ⟨.integer, none⟩, .link 1]⟩
    let c : Constraint := ⟨⟨4⟩, .none, .hasSignature [⟨4⟩, ⟨4⟩] ⟨4⟩⟩
    g.WellFormed ∧ (∀ v ∈ [(⟨0⟩ : TypeVar), ⟨3⟩], v.index < g.size) ∧
      ∃ f g' later, g.copyAll [⟨0⟩, ⟨3⟩] = ([⟨4⟩, ⟨5⟩], g') ∧ Copied g [⟨0⟩, ⟨3⟩] f g' ∧
        (∃ e, c.apply g' = .error e later) ∧ later.Same ⟨4⟩ ⟨5⟩ ∧ ∀ v : TypeVar, v.index < g.size →
          later.get v = g.get v ∧ (∀ w, later.Same v w ↔ g.Same v w) ∧ later.display v = g.display v := by
  intro g c
  let g' : TypeGraph := ⟨g.cells ++
    #[.root ⟨.closure [⟨5⟩, ⟨6⟩] ⟨4⟩, none⟩, .root Ty.any, .root ⟨.integer, none⟩]⟩
  let later : TypeGraph := ⟨g.cells ++
    #[.root ⟨.closure [⟨5⟩, ⟨6⟩] ⟨4⟩, none⟩, .link 4, .root ⟨.integer, none⟩]⟩
  have hg : g.WellFormed := wellFormed_of_cells (by decide)
  have hvs : ∀ v ∈ [(⟨0⟩ : TypeVar), ⟨3⟩], v.index < g.size := by decide
  have hcopies : g.copyAll [⟨0⟩, ⟨3⟩] = ([⟨4⟩, ⟨5⟩], g') := by
    simp only [g, g']
    cbv
  obtain ⟨e, hfails⟩ : ∃ e, c.apply g' = .error e later := by
    refine ⟨.single .none (.incompatible "an integer" "a closure" none none [.argument 1]), ?_⟩
    simp only [g, g', later, c]
    cbv
  obtain ⟨f, g'', hcopy, hcopied, hindependent⟩ := copyAll_independent hg hvs
  obtain ⟨hf, rfl⟩ := Prod.mk.inj (hcopies.symm.trans hcopy)
  rw [← hf] at hindependent
  have hreached : ∀ v ∈ c.vars, v ∈ g'.reached [⟨4⟩, ⟨5⟩] := fun v hv => mem_reached (by revert v; decide)
  have hsame : later.Same ⟨4⟩ ⟨5⟩ := by
    simp only [Same, later, g]
    cbv
  exact ⟨hg, hvs, f, g', later, hcopies, hcopied, ⟨e, hfails⟩, hsame,
    hindependent later (.single (.apply c hreached (.inr ⟨e, hfails⟩)))⟩

end TypeGraph
end Monomorph
