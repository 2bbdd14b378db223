import Monomorph.Proofs.Draft.Allocation
import Monomorph.Specialize

/-! # What solving changes

However a computation of the solver ends, the outlines of types are refined and variants are only added; the
symbols being solved keep the variants they have, and nothing is kept unless it is asked for
(`Workspace.Evolves`). Going back to a watermark undoes whatever was added since
(`VariantStore.rollback_watermark`), so a computation that is rolled back leaves the variants as they were
(`SolveM.orRollback_error`). -/

namespace Monomorph

open Outcome TypeGraph

/-! ### The store of variants -/

namespace VariantStore

variable {store store' store'' : VariantStore} {id i : Nat} {v : Variant}

theorem size_append (store : VariantStore) (id : Nat) (v : Variant) :
    (store.append id v).size = store.size :=
  Array.size_modify

theorem ofSymbol_append (hid : id < store.size) (v : Variant) (i : Nat) :
    (store.append id v).ofSymbol i = if id = i then store.ofSymbol i ++ [v] else store.ofSymbol i := by
  simp only [ofSymbol, append, Array.getD_eq_getD_getElem?, Array.getElem?_modify]
  split
  · rename_i h
    subst h
    simp [hid]
  · rfl

theorem ofSymbol_append_of_ne (h : id ≠ i) : (store.append id v).ofSymbol i = store.ofSymbol i := by
  simp only [ofSymbol, append, Array.getD_eq_getD_getElem?, Array.getElem?_modify, if_neg h]

/-- Variants were only added, each at the end of those of its symbol. -/
structure Grows (store store' : VariantStore) : Prop where
  size_eq : store'.size = store.size
  kept : ∀ id, store.ofSymbol id <+: store'.ofSymbol id

theorem Grows.refl (store : VariantStore) : Grows store store := ⟨rfl, fun _ => List.prefix_rfl⟩

theorem Grows.trans (h : Grows store store') (h' : Grows store' store'') : Grows store store'' :=
  ⟨h'.size_eq.trans h.size_eq, fun id => (h.kept id).trans (h'.kept id)⟩

theorem grows_append (store : VariantStore) (id : Nat) (v : Variant) : Grows store (store.append id v) := by
  refine ⟨size_append store id v, fun i => ?_⟩
  by_cases hid : id < store.size
  · rw [ofSymbol_append hid]
    split
    · exact List.prefix_append _ _
    · exact List.prefix_rfl
  · by_cases hi : id = i
    · have hle : store.size ≤ i := hi ▸ Nat.le_of_not_lt hid
      simp [ofSymbol, Array.getD_eq_getD_getElem?, hle]
    · exact (ofSymbol_append_of_ne hi).symm ▸ List.prefix_rfl

theorem Grows.getElem? (h : Grows store store') {id i : Nat} {v : Variant}
    (hv : (store.ofSymbol id)[i]? = some v) : (store'.ofSymbol id)[i]? = some v := by
  obtain ⟨more, hmore⟩ := h.kept id
  rw [← hmore, List.getElem?_append_left (List.getElem?_eq_some_iff.1 hv).1, hv]

theorem rollback_watermark (h : Grows store store') : store'.rollback store.watermark = store := by
  refine Array.ext (by simp [rollback, h.size_eq]) fun i hi hi' => ?_
  have hsize : i < store'.size := by simpa [rollback] using hi
  have hkept : store[i] <+: store'[i] := by
    have := h.kept i
    simpa [ofSymbol, Array.getD_eq_getD_getElem?, hi', hsize] using this
  have hmark : store.watermark[i]? = some store[i].length := by
    simp [watermark, hi']
  simp only [rollback, Array.getElem_mapIdx, hmark]
  exact (List.prefix_iff_eq_take.1 hkept).symm

end VariantStore

/-! ### Workspaces -/

/-- What every computation of the solver keeps, however it ends: `keep` says whether variants are to be
kept, `busy` lists the symbols that are being solved. -/
structure Workspace.Evolves (keep : Bool) (busy : List Nat) (w w' : Workspace) : Prop where
  graph : w.graph.Sharpens w'.graph
  variants : w.variants.Grows w'.variants
  busy : ∀ id ∈ busy, w'.variants.ofSymbol id = w.variants.ofSymbol id
  unkept : keep = false → w'.variants = w.variants

namespace Workspace

variable {keep : Bool} {busy busy' : List Nat} {w w' w'' : Workspace}

theorem evolves_kept : Kept (Evolves keep busy) where
  refl _ := ⟨.refl _, .refl _, fun _ _ => rfl, fun _ => rfl⟩
  trans h h' := ⟨h.graph.trans h'.graph, h.variants.trans h'.variants,
    fun id hid => (h'.busy id hid).trans (h.busy id hid), fun hk => (h'.unkept hk).trans (h.unkept hk)⟩

theorem Evolves.weaken (h : Evolves keep busy' w w') (hbusy : busy ⊆ busy') : Evolves keep busy w w' :=
  ⟨h.graph, h.variants, fun id hid => h.busy id (hbusy hid), h.unkept⟩

theorem Evolves.of_graph {g : TypeGraph} (h : w.graph.Sharpens g) : Evolves keep busy w ⟨g, w.variants⟩ :=
  ⟨h, .refl _, fun _ _ => rfl, fun _ => rfl⟩

end Workspace

namespace SolveM

open Workspace (Evolves evolves_kept)

variable {α : Type} {keep : Bool} {busy : List Nat} {w w' : Workspace}

/-! ### Steps -/

/-- A step on the type graph leaves the variants as they are. -/
theorem onGraph_eq_ok_iff {x : TypeM α} {a : α} :
    onGraph x w = .ok a w' ↔ x w.graph = .ok a w'.graph ∧ w'.variants = w.variants := by
  obtain ⟨g, variants⟩ := w
  obtain ⟨g', variants'⟩ := w'
  unfold onGraph
  dsimp only
  cases x g <;> simp [and_assoc, eq_comm (a := variants)]

theorem onGraph_eq_error_iff {x : TypeM α} {e : TypeError} :
    onGraph x w = .error e w' ↔ x w.graph = .error e w'.graph ∧ w'.variants = w.variants := by
  obtain ⟨g, variants⟩ := w
  obtain ⟨g', variants'⟩ := w'
  unfold onGraph
  dsimp only
  cases x g <;> simp [and_assoc, eq_comm (a := variants)]

theorem onGraph_evolves {x : TypeM α} (hx : Keeps Sharpens x) : Keeps (Evolves keep busy) (onGraph x) :=
  fun ⟨g, variants⟩ => by
  unfold onGraph
  constructor
  · intro a w' h
    dsimp only at h
    split at h
    · rename_i hrun
      cases h
      exact .of_graph ((hx g).ok hrun)
    · cases h
  · intro e w' h
    dsimp only at h
    split at h
    · cases h
    · rename_i hrun
      cases h
      exact .of_graph ((hx g).error hrun)

theorem draft_ok {x : TypeGraph → Except TypeError Draft × TypeGraph} {d : Draft}
    (h : draft x w = .ok d w') : x w.graph = (.ok d, w'.graph) ∧ w'.variants = w.variants := by
  unfold draft at h
  dsimp only at h
  split at h <;> cases h
  exact ⟨by assumption, rfl⟩

theorem draft_error {x : TypeGraph → Except TypeError Draft × TypeGraph} {e : TypeError}
    (h : draft x w = .error e w') : x w.graph = (.error e, w'.graph) ∧ w'.variants = w.variants := by
  unfold draft at h
  dsimp only at h
  split at h <;> cases h
  exact ⟨by assumption, rfl⟩

theorem draft_evolves {x : TypeGraph → Except TypeError Draft × TypeGraph} (hx : ∀ g, TypeGraph.Sprouts g (x g).2) :
    Keeps (Evolves keep busy) (draft x) := fun ⟨g, variants⟩ => by
  have hg := (hx g).extends.sharpens
  unfold draft
  constructor
  · intro d w' h
    dsimp only at h
    split at h <;> cases h
    rename_i hrun
    rw [hrun] at hg
    exact .of_graph hg
  · intro e w' h
    dsimp only at h
    split at h <;> cases h
    rename_i hrun
    rw [hrun] at hg
    exact .of_graph hg

theorem instantiate_evolves {n : NativeSignature} {span : Span} :
    Keeps (Evolves keep busy) (instantiate n span) := fun ⟨g, _⟩ =>
  ⟨fun h => by cases h; exact .of_graph (n.instantiate_extends span g).sharpens, nofun⟩

theorem applyAll_evolves (cs : List Constraint) : Keeps (Evolves keep busy) (applyAll cs) := by
  induction cs with
  | nil => exact evolves_kept.pure _
  | cons c cs ih => exact evolves_kept.bind (onGraph_evolves c.apply_sharpens) fun _ => ih

theorem keepVariant_evolves {id : Nat} {v : Variant} (hkeep : keep = true) (hid : id ∉ busy) :
    Keeps (Evolves keep busy) (keepVariant id v) := by
  refine fun w => ⟨fun h => ?_, nofun⟩
  cases h
  refine ⟨.refl _, VariantStore.grows_append _ _ _, fun i hi => ?_, fun hk => ?_⟩
  · exact VariantStore.ofSymbol_append_of_ne fun h => hid (h ▸ hi)
  · cases hkeep.symm.trans hk

theorem variantsOf_evolves {id : Nat} : Keeps (Evolves keep busy) (variantsOf id) :=
  keeps_get_bind fun _ => evolves_kept.pure _

/-- What fails is undone as far as variants are concerned. -/
theorem orRollback_evolves {x : SolveM α} (hx : Keeps (Evolves keep busy) x) :
    Keeps (Evolves keep busy) (orRollback x) := by
  refine fun w => keepsAt_get_bind ⟨fun {r w'} h => ?_, fun h => ?_⟩
  · split at h <;> cases h
    · rename_i hrun
      exact (hx w).ok hrun
    · rename_i hrun
      have hevolves := (hx w).error hrun
      rw [VariantStore.rollback_watermark hevolves.variants]
      exact .of_graph hevolves.graph
  · split at h <;> cases h

theorem orRollback_ok {x : SolveM α} {a : α} (h : orRollback x w = .ok (.ok a) w') : x w = .ok a w' := by
  obtain ⟨y, rfl, h⟩ := get_bind_eq_ok_iff.1 h
  dsimp only at h
  split at h <;> cases h
  assumption

theorem orRollback_error {x : SolveM α} (hx : Keeps (Evolves keep busy) x) {e : TypeError}
    (h : orRollback x w = .ok (.error e) w') :
    w'.variants = w.variants ∧ w.graph.Sharpens w'.graph := by
  refine ⟨?_, ((orRollback_evolves hx w).ok h).graph⟩
  obtain ⟨y, rfl, h⟩ := get_bind_eq_ok_iff.1 h
  dsimp only at h
  split at h <;> cases h
  rename_i hrun
  exact VariantStore.rollback_watermark ((hx w).error hrun).variants

/-! ### Calls -/

theorem unifyArgs_evolves {usage : ProcedureUsage} (i : Nat) (callee caller : List TypeVar) :
    Keeps (Evolves keep busy) (unifyArgs usage i callee caller) := by
  induction callee generalizing i caller with
  | nil =>
    rw [unifyArgs]
    · exact evolves_kept.pure _
    · exact nofun
  | cons a as ih =>
    cases caller with
    | nil =>
      rw [unifyArgs]
      · exact evolves_kept.pure _
      · exact nofun
    | cons b bs => exact evolves_kept.bind (onGraph_evolves (unifyAt_sharpens _ _ _ _)) fun _ => ih _ _

theorem unifyCall_evolves {usage : ProcedureUsage} {calleeArgs callerArgs : List TypeVar}
    {calleeReturns callerReturns : TypeVar} :
    Keeps (Evolves keep busy) (unifyCall usage calleeArgs calleeReturns callerArgs callerReturns) :=
  evolves_kept.bind (unifyArgs_evolves _ _ _) fun _ => onGraph_evolves (unifyAt_sharpens _ _ _ _)

theorem copyAll_evolves {vs : List TypeVar} : Keeps (Evolves keep busy) (copyAll vs) := fun ⟨g, _⟩ =>
  ⟨fun h => by cases h; exact .of_graph (copyAll_extends g vs).sharpens, nofun⟩

theorem acceptCall_evolves {usage : ProcedureUsage} {solved : Solved} :
    Keeps (Evolves keep busy) (acceptCall usage solved) :=
  evolves_kept.bind copyAll_evolves fun _ => evolves_kept.bind unifyCall_evolves fun _ => unifyCall_evolves

theorem tryCandidates_evolves {table : SymbolTable} {usage : ProcedureUsage} {solve : Nat → SolveM Solved}
    (hsolve : ∀ id, Keeps (Evolves keep busy) (solve id)) (candidates : List Path) :
    Keeps (Evolves keep busy) (tryCandidates table usage solve candidates) := by
  induction candidates with
  | nil => exact evolves_kept.pure _
  | cons candidate rest ih =>
    rw [tryCandidates]
    split
    · exact ih
    · split
      · exact ih
      · split
        · exact evolves_kept.bind ih fun _ => evolves_kept.pure _
        · refine evolves_kept.bind (orRollback_evolves ?_) fun r => ?_
          · exact evolves_kept.bind (hsolve _) fun _ => evolves_kept.bind acceptCall_evolves fun _ =>
              evolves_kept.pure _
          · cases r with
            | ok variant => exact evolves_kept.pure _
            | error e => exact evolves_kept.bind ih fun _ => evolves_kept.pure _

theorem bindCall_evolves {table : SymbolTable} {user : Path} {solve : Nat → Span → SolveM Solved}
    {usage : ProcedureUsage} (hsolve : ∀ id span, Keeps (Evolves keep busy) (solve id span)) :
    Keeps (Evolves keep busy) (bindCall table user solve usage) := by
  refine evolves_kept.bind (tryCandidates_evolves (fun id => hsolve id usage.span) _) fun trial => ?_
  split
  · exact evolves_kept.pure _
  all_goals exact evolves_kept.throw _

theorem bindGlobal_evolves {table : SymbolTable} {solve : Nat → SolveM Solved} {usage : VariableUsage}
    (hsolve : ∀ id, Keeps (Evolves keep busy) (solve id)) :
    Keeps (Evolves keep busy) (bindGlobal table solve usage) := by
  unfold bindGlobal
  split
  · exact evolves_kept.throw _
  · exact evolves_kept.bind (hsolve _) fun _ =>
      evolves_kept.bind (onGraph_evolves (unifyAt_sharpens _ _ _ _)) fun _ => evolves_kept.pure _

end SolveM
end Monomorph
