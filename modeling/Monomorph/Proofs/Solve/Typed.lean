import Monomorph.Proofs.Meaning.Typing
import Monomorph.Proofs.Solve.Renewed

/-! # Bound bodies are typed

At every node of a body whose usages are bound, what the draft demanded is met and every call goes to a variant
that takes its arguments to its result (`Expr.Typed`). Such a node renews one of the draft, and what was recorded for
this one still says what it said (`Expr.Renewed.typed`). A procedure used as a value becomes a closure, which calls it
with its own parameters. -/

namespace Monomorph

open Outcome TypeGraph

/-- Whether a call of a variant of a procedure takes arguments of some types to a result of a type. -/
abbrev Calls := Path → Nat → List TypeVar → TypeVar → Prop

namespace Expr

/-! ### Typed nodes -/

/-- What is demanded at a node is met, and what is called fits the call. -/
def Supported (g : TypeGraph) (calls : Calls) (p : Place) : Expr TypeVar → Prop
  | .global .. => True
  | .procedure .. => False
  | .invoke m target args => ∃ path i, target = .resolved path i ∧ calls path i (args.map note) m.note
  | e => ∃ r : Records, r.Hold g ∧ e.Recorded r p

/-- A node of a bound body is well-typed. -/
structure Typed (g : TypeGraph) (calls : Calls) (n : Place × Expr TypeVar) : Prop where
  operands : ∀ o ∈ n.2.operands, o.IsOperand g
  supported : n.2.Supported g calls n.1

/-- What is known of a node of a draft. -/
structure Drafted (r : Records) (g : TypeGraph) (n : Place × Expr TypeVar) : Prop where
  operands : ∀ o ∈ n.2.operands, o.IsOperand g
  recorded : n.2.Recorded r n.1

theorem Supported.mono {g g' : TypeGraph} {calls calls' : Calls} {p : Place} {e : Expr TypeVar}
    (h : e.Supported g calls p) (hg : g.Narrows g')
    (hcalls : ∀ path i args returns, calls path i args returns → calls' path i args returns) :
    e.Supported g' calls' p := by
  cases e with
  | global | procedure => exact h
  | invoke =>
    obtain ⟨path, i, htarget, hcall⟩ := h
    exact ⟨path, i, htarget, hcalls _ _ _ _ hcall⟩
  | _ =>
    obtain ⟨r, hr, hrecorded⟩ := h
    exact ⟨r, fun c hc => Demand.Met.narrows (hr c hc) hg, hrecorded⟩

/-- While types narrow and calls go on to fit, nodes stay well-typed. -/
theorem Typed.mono {g g' : TypeGraph} {calls calls' : Calls} {n : Place × Expr TypeVar}
    (h : Typed g calls n) (hg : g.Narrows g')
    (hcalls : ∀ path i args returns, calls path i args returns → calls' path i args returns) :
    Typed g' calls' n :=
  ⟨fun o ho => (h.operands o ho).narrows hg, h.supported.mono hg hcalls⟩

theorem Drafted.narrows {r : Records} {g g' : TypeGraph} {n : Place × Expr TypeVar} (h : Drafted r g n)
    (hg : g.Narrows g') : Drafted r g' n :=
  ⟨fun o ho => (h.operands o ho).narrows hg, h.recorded⟩

end Expr

/-! ### Binding -/

namespace Binder

variable {b : Binder SolveM} {r : Records}

/-- What the answer to a use of a procedure ensures. -/
structure Answer (b : Binder SolveM) (calls : Calls) (usage : ProcedureUsage) (target : Target) : Prop where
  calls : ∃ path i, target = .resolved path i ∧ calls path i usage.args usage.returns
  /-- A closure can be made that forwards its parameters. -/
  forwards : usage.kind = .reference →
    (b.params usage.path).Nodup ∧ (b.params usage.path).length = usage.args.length

/-- What is known of answers that fit: those to uses of procedures. -/
def fitting (b : Binder SolveM) (calls : Calls) : Replies := ⟨b.Answer calls, fun _ _ => True⟩

/-! ### Forwarding closures -/

/-- A parameter is seen in the body if none after it has its name. -/
theorem lookup_params {params : List String} {args : List TypeVar} (outer : List (String × TypeVar))
    (hnodup : params.Nodup) {a : String × TypeVar} (ha : a ∈ params.zip args) :
    ((params.zip args).reverse ++ outer).lookup a.1 = some a.2 := by
  induction params generalizing args outer with
  | nil => cases ha
  | cons name params ih =>
    cases args with
    | nil => cases ha
    | cons arg args =>
      rw [List.zip_cons_cons, List.reverse_cons, List.append_assoc]
      obtain ⟨hname, hnodup⟩ := List.nodup_cons.1 hnodup
      rcases List.mem_cons.1 ha with rfl | ha
      · have hnone : (params.zip args).reverse.lookup name = none := by
          rw [List.lookup_eq_none_iff]
          intro p hp
          have hmem := (List.of_mem_zip (List.mem_reverse.1 hp)).1
          simp only [bne_iff_ne, ne_eq]
          rintro rfl
          exact hname hmem
        rw [List.lookup_append, hnone]
        simp
      · exact ih _ hnodup ha

/-- The closure that stands for a procedure used as a value is well-typed. -/
theorem forwarder_typed {g : TypeGraph} {calls : Calls} {m : Mark TypeVar} {usage : ProcedureUsage}
    {target : Target} {unit : TypeVar} (hr : r.Hold g)
    (hdemands : r.Demands m.note (.hasSignature usage.args usage.returns))
    (hcalls : ∃ path i, target = .resolved path i ∧ calls path i usage.args usage.returns)
    (hnodup : (b.params usage.path).Nodup) (hlength : (b.params usage.path).length = usage.args.length)
    (p : Place) : ∀ n ∈ (forwarder m (b.params usage.path) usage target unit).nodes p, Expr.Typed g calls n := by
  have hargs : ((b.params usage.path).zip usage.args).map (·.2) = usage.args :=
    List.map_snd_zip (Nat.le_of_eq hlength.symm)
  have hlocals : ∀ o ∈ ((b.params usage.path).zip usage.args).map fun a => Expr.localVar ⟨m.span, a.2⟩ a.1,
      o.IsOperand g := by
    intro o ho
    obtain ⟨a, -, rfl⟩ := List.mem_map.1 ho
    exact ⟨rfl, fun h => by cases h⟩
  have hinvoke : (Expr.invoke ⟨m.span, usage.returns⟩ target
      (((b.params usage.path).zip usage.args).map fun a => .localVar ⟨m.span, a.2⟩ a.1)).IsOperand g :=
    ⟨Expr.declareds_eq_nil fun e he => (hlocals e he).1, fun h => by cases h⟩
  simp only [forwarder, Expr.nodes, Expr.nodesOf, List.append_nil, List.forall_mem_cons]
  refine ⟨⟨fun _ h => (by cases h), r, hr, _, rfl, hlength.symm, hdemands, fun _ h => by cases h⟩,
    ⟨List.forall_mem_singleton.2 hinvoke, ⟨[⟨usage.returns, m.span, .unify usage.returns⟩], [], []⟩, ?_, ?_⟩,
    ⟨hlocals, ?_⟩, fun n hn => ?_⟩
  · intro c hc
    obtain rfl := List.mem_singleton.1 hc
    exact ⟨trivial, trivial, fun w hw => by cases hw; exact g.same_equivalence.refl _⟩
  · rintro v ⟨⟩
    exact ⟨m.span, List.mem_singleton_self _⟩
  · obtain ⟨path, i, htarget, hcall⟩ := hcalls
    refine ⟨path, i, htarget, ?_⟩
    rw [List.map_map]
    exact hargs.symm ▸ hcall
  · obtain ⟨a, ha, rfl⟩ := mem_nodesOf_locals hn
    exact ⟨fun _ h => (by cases h), r, hr, lookup_params p.locals hnodup ha⟩

end Binder

/-! ### Nodes -/

namespace Expr

variable {b : Binder SolveM} {r : Records} {g : TypeGraph} {calls : Calls} {n n' : Place × Expr TypeVar}

/-- What is recorded for a node supports the one that renews it. -/
theorem SameNode.supported {e e' : Expr TypeVar} {p : Place} (h : SameNode r (b.fitting calls) e e') (hr : r.Hold g)
    (he : e.Recorded r p) : e'.Supported g calls p := by
  have hsupported (hreference : Reference.ofNode e' = []) : ∃ r : Records, r.Hold g ∧ e'.Recorded r p :=
    ⟨r, hr, h.recorded hreference he⟩
  cases h with
  | name => exact he.elim
  | global => trivial
  | procedure =>
    obtain ⟨usage, ⟨i, hi, -⟩, -⟩ := he
    cases hi
  | invoke htarget hargs =>
    obtain ⟨usage, huses, hargs', hreturns⟩ := he
    obtain ⟨path, i, rfl, hcall⟩ := (htarget usage huses).calls
    exact ⟨path, i, rfl, by rw [hargs.notes, ← hargs', ← hreturns]; exact hcall⟩
  | _ => exact hsupported rfl

/-- Where the answers fit and what is demanded is met, nodes become well-typed. -/
theorem Renewed.typed (h : Renewed b.params r (b.fitting calls) n n') (hr : r.Hold g) (hn : Drafted r g n) :
    Typed g calls n' := by
  cases h with
  | same h => exact ⟨h.operands.forall Alike.operand hn.operands, h.supported hr hn.recorded⟩
  | forwarded huses hanswer hn' =>
    obtain ⟨usage', huses', hkind, hdemands⟩ := hn.recorded
    obtain rfl := huses.unique huses'
    obtain ⟨hnodup, hlength⟩ := hanswer.forwards hkind
    exact Binder.forwarder_typed hr hdemands hanswer.calls hnodup hlength _ _ hn'

end Expr
end Monomorph
