import Monomorph.Proofs.Draft.Comparing
import Monomorph.Proofs.Type.Confining

/-! # Drafting allocates

Whether it succeeds or fails, drafting only adds variables to the type graph, and none of them has a type with
others inside (`Draft.ofProcedure_sprouts`, `Draft.ofVariable_sprouts`): what a draft demands is recorded, not
applied. -/

namespace Monomorph

open Outcome

namespace TypeGraph

/-- Variables with nothing inside are allocated, one after another. -/
def Sprouts : TypeGraph → TypeGraph → Prop :=
  Relation.ReflTransGen fun g g' => ∃ t : Ty, t.kind.children = [] ∧ (g.alloc t).2 = g'

variable {g g' : TypeGraph}

theorem Sprouts.alloc {t : Ty} (ht : t.kind.children = []) : g.Sprouts (g.alloc t).2 := .single ⟨t, ht, rfl⟩

theorem Sprouts.extends (h : g.Sprouts g') : g'.Extends g := by
  induction h with
  | refl => exact .refl g
  | tail _ hstep ih =>
    obtain ⟨t, -, rfl⟩ := hstep
    exact ih.trans (extends_alloc _ t)

theorem Sprouts.confines {s : Set TypeVar} (h : g.Sprouts g') : Confines s g g' := by
  induction h with
  | refl => exact (confines_kept s).refl g
  | tail _ hstep ih =>
    obtain ⟨t, ht, rfl⟩ := hstep
    exact (confines_kept s).trans ih (confines_alloc (ht ▸ List.forall_mem_nil _))

end TypeGraph

abbrev Drafting.Grows (s s' : Drafting) : Prop := s.graph.Sprouts s'.graph

namespace DraftM

open Drafting (Grows)

variable {α β : Type}

theorem grows_kept : Kept Grows := ⟨fun _ => .refl, .trans⟩

/-! ### Steps -/

theorem allocate_grows {t : Ty} (ht : t.kind.children = []) : Keeps Grows (allocate t) := fun s =>
  ⟨fun h => (ok_eq_ok_iff.1 h).2 ▸ TypeGraph.Sprouts.alloc (g := s.graph) ht, nofun⟩

theorem fresh_grows : Keeps Grows fresh := allocate_grows rfl

theorem unit_grows {span : Span} : Keeps Grows (unit span) := allocate_grows rfl

theorem emit_grows {target : TypeVar} {span : Span} {d : Demand} : Keeps Grows (emit target span d) :=
  keeps_modify fun _ => .refl

theorem modifyScope_grows {f : Scope → Scope} : Keeps Grows (modifyScope f) :=
  keeps_modify fun _ => .refl

theorem inBlock_grows (block : Block) {x : DraftM β} (hx : Keeps Grows x) : Keeps Grows (inBlock block x) :=
  grows_kept.bind modifyScope_grows fun _ => grows_kept.bind hx fun _ => keeps_get_bind fun _ =>
    grows_kept.bind modifyScope_grows fun _ => grows_kept.pure _

theorem inFrame_grows (frame : Frame) (span : Span) {x : DraftM β} (hx : Keeps Grows x) :
    Keeps Grows (inFrame frame span x) := by
  refine grows_kept.bind modifyScope_grows fun _ => grows_kept.bind hx fun a => keeps_get_bind fun s => ?_
  refine grows_kept.bind modifyScope_grows fun _ => ?_
  dsimp only
  split
  · exact grows_kept.pure _
  · exact grows_kept.bind emit_grows fun _ => grows_kept.pure _

theorem isolated_grows {x : DraftM β} (hx : Keeps Grows x) : Keeps Grows (isolated x) :=
  keeps_get_bind fun _ => grows_kept.bind fresh_grows fun _ => grows_kept.bind modifyScope_grows fun _ =>
    grows_kept.bind hx fun _ => grows_kept.bind modifyScope_grows fun _ => grows_kept.pure _

theorem useProcedure_grows {usage : ProcedureUsage} : Keeps Grows (useProcedure usage) := fun s =>
  ⟨fun h => (ok_eq_ok_iff.1 h).2 ▸ .refl (a := s.graph), nofun⟩

theorem useVariable_grows {usage : VariableUsage} : Keeps Grows (useVariable usage) := fun s =>
  ⟨fun h => (ok_eq_ok_iff.1 h).2 ▸ .refl (a := s.graph), nofun⟩

theorem accessLocal_grows {name : String} {span : Span} {assigned : Bool} :
    Keeps Grows (accessLocal name span assigned) := by
  refine keeps_get_bind fun s => ?_
  split
  · exact grows_kept.throw _
  · exact grows_kept.pure _
  · exact grows_kept.bind modifyScope_grows fun _ => grows_kept.pure _

/-! ### Expressions -/

/-- That types grow is a way to compare drafting, with itself. -/
theorem grows_compares :
    Compares (.keeping grows_kept) id Eq (fun _ _ => True) (fun _ => True) where
  throw e := ⟨grows_kept.throw e, .throw⟩
  get_bind h := ⟨keeps_get_bind fun s => (h s s rfl).1, .of_get fun s => (h s s rfl).2⟩
  typeOf? hs _ := by rw [hs, Option.map_id, id]
  returns hs := by rw [hs, id]
  fresh := Comparison.keeping_of fresh_grows fun _ => ⟨_, rfl⟩
  unit _ := Comparison.keeping_of unit_grows fun _ => ⟨_, rfl⟩
  emit _ _ _ := Comparison.keeping_of emit_grows fun _ => ⟨_, rfl⟩
  useProcedure _ := Comparison.keeping_of useProcedure_grows fun _ => ⟨_, rfl⟩
  useVariable _ := Comparison.keeping_of useVariable_grows fun _ => ⟨_, rfl⟩
  accessLocal _ _ _ := Comparison.keeping_of accessLocal_grows fun _ => ⟨_, rfl⟩
  declare _ _ := Comparison.keeping_of modifyScope_grows fun _ => ⟨_, rfl⟩
  giveBack := Comparison.keeping_of modifyScope_grows fun _ => ⟨_, rfl⟩
  joinArms _ := Comparison.keeping_of modifyScope_grows fun _ => ⟨_, rfl⟩
  empty := trivial
  binding _ _ := trivial
  inBlock _ hx := Comparison.keeping_of (inBlock_grows _ hx.1) fun a => ⟨(_, a.2), rfl, trivial⟩
  inFrame _ _ _ _ hx := Comparison.keeping_of (inFrame_grows _ _ hx.1) fun _ => ⟨_, rfl, fun _ _ => trivial⟩
  isolated hx := Comparison.keeping_of (isolated_grows hx.1) fun _ => ⟨_, rfl⟩

theorem freshFor_grows {l : List β} : Keeps Grows (freshFor l) := (freshFor_compares grows_compares.fresh l).1

theorem expr_grows (context : DraftContext) (e : Expr α) : Keeps Grows (expr context e) :=
  (expr_compares grows_compares (fun _ => rfl) e fun _ _ => trivial).1

theorem exprs_grows (context : DraftContext) (es : List (Expr α)) : Keeps Grows (exprs context es) :=
  (exprs_compares grows_compares (fun _ => rfl) es fun _ _ => trivial).1

end DraftM

/-! ### Drafts -/

namespace Draft

theorem run_sprouts {x : DraftM (List TypeVar × TypeVar × List (Expr TypeVar))}
    (hx : Keeps Drafting.Grows x) (g : TypeGraph) : g.Sprouts (run x g).2 := by
  unfold run
  split
  · rename_i h
    exact (hx _).ok h
  · rename_i h
    exact (hx _).error h

theorem ofProcedure_sprouts (context : DraftContext) (params : List String) (body : List (Expr Unit))
    (span : Span) (g : TypeGraph) : g.Sprouts (ofProcedure context params body span g).2 :=
  run_sprouts (DraftM.grows_kept.bind DraftM.freshFor_grows fun _ =>
    DraftM.grows_kept.bind DraftM.fresh_grows fun _ =>
      DraftM.grows_kept.bind (DraftM.inFrame_grows _ _ (DraftM.exprs_grows context body)) fun _ =>
        DraftM.grows_kept.pure _) g

theorem ofVariable_sprouts (context : DraftContext) (value : Expr Unit) (g : TypeGraph) :
    g.Sprouts (ofVariable context value g).2 :=
  run_sprouts (DraftM.grows_kept.bind (DraftM.isolated_grows (DraftM.expr_grows context value)) fun _ =>
    DraftM.grows_kept.pure _) g

end Draft
end Monomorph
