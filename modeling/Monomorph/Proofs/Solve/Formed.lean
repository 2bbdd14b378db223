import Monomorph.Proofs.Solve.Renewed
import Monomorph.Proofs.Solve.Settled
import Monomorph.Proofs.Type.Lasting

/-! # The form of bound bodies

Binding leaves the form of a tree as it is: what was a place is one, closures keep their types, and receivers and
operands keep theirs (`Expr.Renewed.formed`). A procedure used as a value becomes a closure with the types of the
usage. In a kept body, receivers have the members that are called on them, since this was demanded when the body was
drafted (`Settles.formed`), and statements used as values are units (`Accepted.operands_stated`). -/

namespace Monomorph

open Outcome

namespace Expr

variable {members : TypeVar → String → Prop} {g g' : TypeGraph} {e : Expr TypeVar}

theorem Stated.sharpens (h : e.Stated g) (hg : g.Sharpens g') : e.Stated g' := fun hdeclaration hvalue =>
  Kind.eq_unit_of_refines (h hdeclaration hvalue ▸ hg.kind e.note)

/-- What binding makes of an expression. -/
structure FormedBody (members : TypeVar → String → Prop) (g : TypeGraph) (e : Expr TypeVar) : Prop where
  formed : e.Formed members
  operands : ∀ o ∈ e.operands, o.Stated g

/-- The closure that stands for a procedure used as a value has its types. -/
theorem forwarder_formed (m : Mark TypeVar) (params : List String) (usage : ProcedureUsage) (target : Target)
    (unit : TypeVar) (p : Place) :
    ∀ n ∈ (Binder.forwarder m params usage target unit).nodes p, n.2.FormedBody members g := by
  simp only [Binder.forwarder, nodes, nodesOf, List.append_nil, List.forall_mem_cons]
  refine ⟨⟨rfl, List.forall_mem_nil _⟩, ⟨trivial, List.forall_mem_singleton.2 (.of_hasValue rfl)⟩,
    ⟨trivial, fun o ho => ?_⟩, fun n hn => ?_⟩
  · obtain ⟨a, -, rfl⟩ := List.mem_map.1 ho
    exact .of_hasValue rfl
  · obtain ⟨a, -, rfl⟩ := Binder.mem_nodesOf_locals hn
    exact ⟨trivial, List.forall_mem_nil _⟩

theorem Renewed.formed {params : Path → List String} {r : Records} {c : Replies} {n n' : Place × Expr TypeVar}
    (h : Renewed params r c n n') (hn : n.2.FormedDraft members g) : n'.2.FormedBody members g := by
  cases h with
  | same h => exact ⟨h.formed hn.formed, h.operands.forall Alike.stated hn.operands⟩
  | forwarded _ _ hn' => exact forwarder_formed _ _ _ _ _ _ _ hn'

end Expr

/-! ### Kept bodies -/

namespace TypeGraph

variable {g g' : TypeGraph} {v : TypeVar} {name : String}

/-- The type is an object that has the member. -/
def HasMember (g : TypeGraph) (v : TypeVar) (name : String) : Prop :=
  ∃ members isOpen order type, g.kind v = .object members isOpen order ∧ members.get? name = some type

theorem HasMember.sharpens (h : g.HasMember v name) (hg : g.Sharpens g') : g'.HasMember v name := by
  obtain ⟨members, isOpen, order, type, hkind, hget⟩ := h
  obtain ⟨members', isOpen', order', hkind', hrow, -⟩ := Kind.refines_object_iff.1 (hkind ▸ hg.kind v)
  obtain ⟨type', hget', -⟩ := hrow.names name type hget
  exact ⟨members', isOpen', order', type', hkind', hget'⟩

end TypeGraph

/-- In the body of a kept variant of a procedure, assignments aim at places, closures have their types, and receivers
have the members that are called, whatever became of the types afterwards. -/
theorem Settles.formed {table : SymbolTable} {symbol : Symbol} {params : List String} {v : Variant}
    {body : List (Expr TypeVar)} {d : Draft} {g g' final : TypeGraph} (h : Settles table symbol params v body d g g')
    (hfinal : g'.Sharpens final) (p : Place) : Expr.AllFormed final.HasMember (Expr.nodesOf p body) := by
  obtain ⟨_, _, -, hdrafted⟩ := h.drafted
  obtain ⟨b, w, w', -, hbound⟩ := h.bound
  obtain ⟨_, _, _, hrenewed⟩ := Binder.exprs_renewed hbound
  intro n hn
  obtain ⟨q, hq⟩ := Expr.exists_mem_nodesOf (.ofParams params v.args v.returns) hn
  obtain ⟨n₀, hn₀, hnode⟩ := hrenewed.nodes _ _ hq
  obtain ⟨hformed, hstated, hoperands⟩ := Draft.ofProcedure_formed hdrafted _ n₀ hn₀
  suffices hmembers : n₀.2.Formed final.HasMember from (hnode.formed ⟨hmembers, hstated, hoperands⟩).formed
  have hrecorded := h.recorded.2 n₀ hn₀
  obtain ⟨place, e⟩ := n₀
  cases e with
  | assign | closure => exact hformed
  | method m receiver name args =>
    obtain ⟨called, ⟨span, hmem⟩, -⟩ := hrecorded
    obtain ⟨members, isOpen, order, type, hkind, hget, -⟩ := Demand.Met.satisfied (h.holds _ hmem)
    exact TypeGraph.HasMember.sharpens ⟨members, isOpen, order, type, hkind, hget⟩ hfinal
  | _ => trivial

/-- In a kept body, whatever became of the types afterwards, statements that are used as values are of unit type unless
they are declarations. -/
theorem Accepted.operands_stated {table : SymbolTable} {id : Nat} {v : Variant} {g : TypeGraph}
    (h : Accepted table id v g) {body : List (Expr TypeVar)} (hbody : v.body = some body) (p : Place) :
    ∀ n ∈ Expr.nodesOf p body, ∀ o ∈ n.2.operands, o.Stated g := by
  cases h with
  | bodiless => cases hbody
  | @drafted symbol draft d b _ w w₁ w₂ w₃ _ _ hdraft hdrafted happlied hbound hgraph =>
    cases hbody
    have hdrafted := (SolveM.draft_ok hdrafted).1
    have hnodes : DraftM.NodesFormed w₁.graph (Expr.nodesOf · d.body) := by
      unfold Symbol.draft? at hdraft
      split at hdraft <;> cases hdraft
      · exact Draft.ofProcedure_formed hdrafted
      · exact Draft.ofVariable_formed hdrafted
    have happlied : w₁.graph.Sharpens w₂.graph :=
      (TypeGraph.sharpens_kept.forM Constraint.apply_sharpens d.constraints w₁.graph).ok (SolveM.applyAll_ok happlied)
    obtain ⟨_, _, _, hrenewed⟩ := Binder.exprs_renewed hbound
    intro n hn o ho
    obtain ⟨n₀, hn₀, hnode⟩ := hrenewed.nodes p n hn
    exact ((hnode.formed (hnodes p n₀ hn₀)).operands o ho).sharpens (happlied.trans hgraph)

end Monomorph
