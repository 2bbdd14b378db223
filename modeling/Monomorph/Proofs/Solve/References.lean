import Monomorph.Proofs.Solve.Typed

/-! # What the references of bound bodies refer to

Every reference in a draft stands for a usage that was noted with the types it is used at. Binding replaces it by an
answer to this usage and keeps the types of all expressions; so if every answer refers to a variant that suits its
usage, every reference of the bound body refers to one that suits the types where it stands (`Expr.Renewed.refers`).
Nothing is assumed of the types themselves: this holds also after attempts that failed half-way. -/

namespace Monomorph

/-- Whether a variant of a module variable may be read at a type. -/
abbrev Readings := Path → Nat → TypeVar → Prop

namespace Expr

/-- The references of a bound body refer to variants that suit the types around them. -/
def Refers (calls : Calls) (reads : Readings) : Expr TypeVar → Prop
  | .name .. | .procedure .. => False
  | .global m target => ∃ path i, target = .resolved path i ∧ reads path i m.note
  | .invoke m target args => ∃ path i, target = .resolved path i ∧ calls path i (args.map note) m.note
  | _ => True

theorem Refers.mono {calls calls' : Calls} {reads reads' : Readings} {e : Expr TypeVar} (h : e.Refers calls reads)
    (hcalls : ∀ path i args returns, calls path i args returns → calls' path i args returns)
    (hreads : ∀ path i type, reads path i type → reads' path i type) : e.Refers calls' reads' := by
  cases e with
  | name | procedure => exact h
  | global =>
    obtain ⟨path, i, htarget, hread⟩ := h
    exact ⟨path, i, htarget, hreads _ _ _ hread⟩
  | invoke =>
    obtain ⟨path, i, htarget, hcall⟩ := h
    exact ⟨path, i, htarget, hcalls _ _ _ _ hcall⟩
  | _ => trivial

end Expr

/-! ### Answers -/

namespace Binder

variable {b : Binder SolveM}

/-- The answer to a use of a procedure refers to a variant that suits it. A closure that forwards its parameters
has one for each argument. -/
structure Resolution (b : Binder SolveM) (calls : Calls) (usage : ProcedureUsage) (target : Target) : Prop where
  calls : ∃ path i, target = .resolved path i ∧ calls path i usage.args usage.returns
  forwards : usage.kind = .reference → (b.params usage.path).length = usage.args.length

/-- What is known of answers that refer to variants. -/
def linking (b : Binder SolveM) (calls : Calls) (reads : Readings) : Replies where
  procedure := b.Resolution calls
  moduleVariable type target := ∃ path i, target = .resolved path i ∧ reads path i type

/-- In the closure that stands for a procedure used as a value, the one reference is the call of the procedure with
the closure's own parameters. -/
theorem forwarder_refers {calls : Calls} {reads : Readings} {m : Mark TypeVar} {usage : ProcedureUsage}
    {target : Target} {unit : TypeVar} (h : b.Resolution calls usage target) (hkind : usage.kind = .reference)
    (p : Place) : ∀ n ∈ (forwarder m (b.params usage.path) usage target unit).nodes p, n.2.Refers calls reads := by
  have hargs : ((b.params usage.path).zip usage.args).map (·.2) = usage.args :=
    List.map_snd_zip (Nat.le_of_eq (h.forwards hkind).symm)
  simp only [forwarder, Expr.nodes, Expr.nodesOf, List.append_nil, List.forall_mem_cons]
  refine ⟨trivial, trivial, ?_, fun n hn => ?_⟩
  · obtain ⟨path, i, htarget, hcall⟩ := h.calls
    refine ⟨path, i, htarget, ?_⟩
    rw [List.map_map]
    exact hargs.symm ▸ hcall
  · obtain ⟨a, -, rfl⟩ := mem_nodesOf_locals hn
    trivial

end Binder

/-! ### Nodes -/

/-- Where the answers refer to variants, so do the references of the bound body. -/
theorem Expr.Renewed.refers {b : Binder SolveM} {r : Records} {calls : Calls} {reads : Readings}
    {n n' : Place × Expr TypeVar} (h : Renewed b.params r (b.linking calls reads) n n') (hn : n.2.Recorded r n.1) :
    n'.2.Refers calls reads := by
  cases h with
  | same h =>
    cases h with
    | name => exact hn.elim
    | global htarget => exact htarget _ hn
    | procedure =>
      obtain ⟨usage, ⟨i, hi, -⟩, -⟩ := hn
      cases hi
    | invoke htarget hargs =>
      obtain ⟨usage, huses, husage, hreturns⟩ := hn
      obtain ⟨path, i, rfl, hcall⟩ := (htarget usage huses).calls
      exact ⟨path, i, rfl, by rw [hargs.notes, ← husage, ← hreturns]; exact hcall⟩
    | _ => trivial
  | forwarded huses hanswer hn' =>
    obtain ⟨usage', huses', hkind, -⟩ := hn
    obtain rfl := huses.unique huses'
    exact Binder.forwarder_refers hanswer hkind _ _ hn'

end Monomorph
