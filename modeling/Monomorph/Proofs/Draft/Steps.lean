import Monomorph.Proofs.Draft.Acts

/-! # The steps of drafting

A run of drafting is described by what it adds (`Drafting.Adds`): the locals declared in the innermost block, the
acts it runs over, and the annotated nodes, each with its demands among the constraints. Descriptions of runs compose
(`Drafting.Adds.trans`). There is one lemma per step: allocating and demanding do nothing to the scope, a name is
annotated as the local that is visible or as a reference to the usage noted for it (`DraftM.access_adds`), and what is
done in a block or a frame of its own is one act of what is around it. -/

namespace Monomorph

open Outcome

/-! ### Runs of drafting -/

namespace Drafting

def records (s : Drafting) : Records :=
  ⟨s.constraints.toList, s.usages.procedures.toList, s.usages.globals.toList⟩

/-- A run of drafting from `s` to `s'` that declares locals in the innermost block, does some acts and annotates
nodes. The nodes stand at any place that sees the scope at the start. -/
structure Adds (s s' : Drafting) (declared : List (String × TypeVar)) (acts : List Act)
    (nodes : Place → List (Place × Expr TypeVar)) : Prop where
  records : s'.records.Extends s.records
  layout : s'.scope.layout = s.scope.layout.declareAll declared
  runs : ∀ r : Records, r.Extends s'.records → Act.RunsAll r acts s.scope s'.scope
  nodes : ∀ p : Place, p.Sees s.scope.layout → ∀ n ∈ nodes p, ∀ r : Records, r.Extends s'.records →
    n.2.Recorded r n.1

/-- A run that leaves the scope as it is and annotates nothing. -/
abbrev Quiet (s s' : Drafting) : Prop := Adds s s' [] [] fun _ => []

/-- A run over arms, each in a block of its own, which is given as it is at its end. -/
structure AddsArms (s s' : Drafting) (arms : List (List Act)) (blocks : List Block)
    (nodes : Place → List (Place × Expr TypeVar)) : Prop where
  records : s'.records.Extends s.records
  runs : ∀ r : Records, r.Extends s'.records → Act.RunsArms r arms s.scope blocks s'.scope
  nodes : ∀ p : Place, p.Sees s.scope.layout → ∀ n ∈ nodes p, ∀ r : Records, r.Extends s'.records →
    n.2.Recorded r n.1

variable {s s₁ s₂ s' : Drafting} {declared declared' : List (String × TypeVar)} {as bs : List Act}
  {nodes nodes' : Place → List (Place × Expr TypeVar)} {e : Expr TypeVar}

theorem Quiet.of (hscope : s'.scope = s.scope) (hrecords : s'.records.Extends s.records) : Quiet s s' :=
  ⟨hrecords, congrArg Scope.layout hscope, fun _ _ => hscope, fun _ _ _ hn => nomatch hn⟩

theorem Quiet.refl (s : Drafting) : Quiet s s := .of rfl (.refl _)

theorem Quiet.scope (h : Quiet s s') : s'.scope = s.scope := h.runs _ (.refl _)

/-- A run over one act. What it declares is said by the act. -/
theorem Adds.one (a : Act) (hrecords : s'.records.Extends s.records)
    (h : ∀ r : Records, r.Extends s'.records → Act.Runs r a s.scope s'.scope) :
    Adds s s' (Act.declaredTypes [a]) [a] fun _ => [] :=
  ⟨hrecords, Act.layout_runs a (h _ (.refl _)), fun r hr => Act.runsAll_singleton.2 (h r hr),
    fun _ _ _ hn => nomatch hn⟩

theorem Adds.trans (h : Adds s s₁ declared as nodes) (h' : Adds s₁ s' declared' bs nodes') :
    Adds s s' (declared' ++ declared) (as ++ bs) fun p => nodes p ++ nodes' (p.declare declared) where
  records := h'.records.trans h.records
  layout := by rw [h'.layout, h.layout, Layout.declareAll_append]
  runs r hr := Act.runsAll_append.2 ⟨s₁.scope, h.runs r (hr.trans h'.records), h'.runs r hr⟩
  nodes p hp n hn r hr := by
    rcases List.mem_append.1 hn with hn | hn
    · exact h.nodes p hp n hn r (hr.trans h'.records)
    · exact h'.nodes _ (h.layout ▸ hp.declareAll declared) n hn r hr

/-- What annotates nothing comes last. -/
theorem Adds.act (h : Adds s s₁ declared as nodes) (h' : Adds s₁ s' [] bs fun _ => []) :
    Adds s s' declared (as ++ bs) nodes := by
  simpa using h.trans h'

theorem Adds.quiet (h : Adds s s₁ declared as nodes) (h' : Quiet s₁ s') : Adds s s' declared as nodes := by
  simpa using h.trans h'

theorem Quiet.adds (h : Quiet s s₁) (h' : Adds s₁ s' declared as nodes) : Adds s s' declared as nodes := by
  simpa using h.trans h'

theorem Adds.node (h : Adds s s' declared as nodes)
    (he : ∀ p : Place, p.Sees s.scope.layout → ∀ r : Records, r.Extends s'.records → e.Recorded r p) :
    Adds s s' declared as fun p => (p, e) :: nodes p :=
  ⟨h.records, h.layout, h.runs, fun p hp => List.forall_mem_cons.2 ⟨he p hp, h.nodes p hp⟩⟩

theorem Adds.of_subset (h : Adds s s' declared as nodes) (hsub : ∀ p, nodes' p ⊆ nodes p) :
    Adds s s' declared as nodes' :=
  ⟨h.records, h.layout, h.runs, fun p hp n hn => h.nodes p hp n (hsub p hn)⟩

/-- The right operand of `and` or `or`. -/
theorem Adds.perhaps (h : Adds s s' declared as nodes) : Adds s s' declared [.perhaps as] nodes :=
  ⟨h.records, h.layout, fun r hr => Act.runsAll_singleton.2 (h.runs r hr), h.nodes⟩

namespace AddsArms

variable {arms arms' : List (List Act)} {blocks blocks' : List Block}

theorem nil (s : Drafting) : AddsArms s s [] [] fun _ => [] :=
  ⟨.refl _, fun _ _ => ⟨rfl, rfl⟩, fun _ _ _ hn => nomatch hn⟩

theorem layout (h : AddsArms s s' arms blocks nodes) : s'.scope.layout = s.scope.layout :=
  Act.layout_runsArms arms (h.runs _ (.refl _))

theorem trans (h : AddsArms s s₁ arms blocks nodes) (h' : AddsArms s₁ s' arms' blocks' nodes') :
    AddsArms s s' (arms ++ arms') (blocks ++ blocks') fun p => nodes p ++ nodes' p where
  records := h'.records.trans h.records
  runs r hr := Act.runsArms_append.2 ⟨s₁.scope, _, _, h.runs r (hr.trans h'.records), h'.runs r hr, rfl⟩
  nodes p hp n hn r hr := by
    rcases List.mem_append.1 hn with hn | hn
    · exact h.nodes p hp n hn r (hr.trans h'.records)
    · exact h'.nodes p (h.layout ▸ hp) n hn r hr

theorem after (h' : AddsArms s₁ s' arms blocks nodes) (h : Quiet s s₁) : AddsArms s s' arms blocks nodes where
  records := h'.records.trans h.records
  runs r hr := h.scope ▸ h'.runs r hr
  nodes p hp := h'.nodes p (h.scope ▸ hp)

theorem quiet (h : AddsArms s s₁ arms blocks nodes) (h' : Quiet s₁ s') : AddsArms s s' arms blocks nodes where
  records := h'.records.trans h.records
  runs r hr := h'.scope ▸ h.runs r (hr.trans h'.records)
  nodes p hp n hn r hr := h.nodes p hp n hn r (hr.trans h'.records)

end AddsArms
end Drafting

namespace DraftM

open Drafting

variable {β : Type} {s s' : Drafting} {v : TypeVar} {u : Unit} {span : Span}

/-! ### Variables and demands -/

theorem allocate_ok {t : Ty} (h : allocate t s = .ok v s') : Quiet s s' := by
  obtain ⟨-, rfl⟩ := ok_eq_ok_iff.1 h
  exact .of rfl (.refl _)

theorem fresh_ok (h : fresh s = .ok v s') : Quiet s s' := allocate_ok h

theorem unit_ok (h : unit span s = .ok v s') : Quiet s s' := allocate_ok h

theorem freshFor_ok {l : List β} {vs : List TypeVar} (h : freshFor l s = .ok vs s') :
    Quiet s s' ∧ vs.length = l.length := by
  induction l generalizing s vs with
  | nil =>
    obtain ⟨rfl, rfl⟩ := pure_eq_ok_iff.1 h
    exact ⟨.refl _, rfl⟩
  | cons b l ih =>
    obtain ⟨v, s₁, hfresh, h⟩ := bind_eq_ok_iff.1 h
    obtain ⟨vs, s₂, hrest, h⟩ := bind_eq_ok_iff.1 h
    obtain ⟨rfl, rfl⟩ := pure_eq_ok_iff.1 h
    obtain ⟨hquiet, hlength⟩ := ih hrest
    exact ⟨(fresh_ok hfresh).adds hquiet, congrArg Nat.succ hlength⟩

theorem emit_ok {target : TypeVar} {d : Demand} (h : emit target span d s = .ok u s') :
    Quiet s s' ∧ s'.records.Demands target d := by
  obtain rfl := modify_eq_ok_iff.1 h
  refine ⟨.of rfl ⟨?_, List.prefix_rfl, List.prefix_rfl⟩, span, ?_⟩
  · simp [records]
  · simp [records]

theorem typed_ok {base : BaseKind} (h : typed base span s = .ok v s') :
    Quiet s s' ∧ s'.records.DemandsBase v base := by
  obtain ⟨w, s₁, hfresh, h⟩ := bind_eq_ok_iff.1 h
  obtain ⟨⟨⟩, s₂, hemit, h⟩ := bind_eq_ok_iff.1 h
  obtain ⟨rfl, rfl⟩ := pure_eq_ok_iff.1 h
  obtain ⟨hquiet, hdemands⟩ := emit_ok hemit
  exact ⟨(fresh_ok hfresh).adds hquiet, none, hdemands⟩

/-! ### Scopes -/

theorem returnType_ok (h : returnType s = .ok v s') :
    s = s' ∧ (s.scope.layout.head?.map FrameLayout.returns).getD default = v := by
  obtain ⟨s₁, s₂, hget, h⟩ := bind_eq_ok_iff.1 h
  obtain ⟨rfl, rfl⟩ := get_eq_ok_iff.1 hget
  obtain ⟨rfl, rfl⟩ := pure_eq_ok_iff.1 h
  refine ⟨rfl, ?_⟩
  cases hscope : s.scope <;> simp [Scope.layout]

theorem declare_adds {name : String} {l : Local}
    (h : modifyScope (Scope.modifyBlock fun b => b.declare name l) s = .ok u s') :
    Adds s s' [(name, l.type)] [.declare name l] fun _ => [] := by
  obtain rfl := modify_eq_ok_iff.1 h
  exact .one (.declare name l) (.refl _) fun _ _ => rfl

theorem alwaysReturns_adds
    (h : modifyScope (Scope.modifyBlock fun b => { b with alwaysReturns := true }) s = .ok u s') :
    Adds s s' [] [.giveBack] fun _ => [] := by
  obtain rfl := modify_eq_ok_iff.1 h
  exact .one .giveBack (.refl _) fun _ _ => rfl

theorem modifyScope_records {f : Scope → Scope} (h : modifyScope f s = .ok u s') : s'.records.Extends s.records := by
  obtain rfl := modify_eq_ok_iff.1 h
  exact .refl _

theorem joinArms_adds {arms : List (List Act)} {blocks : List Block}
    {nodes : Place → List (Place × Expr TypeVar)} {s₁ : Drafting} (harms : AddsArms s s₁ arms blocks nodes)
    (h : modifyScope (Scope.joinArms blocks) s₁ = .ok u s') : Adds s s' [] [.branch arms] nodes := by
  obtain rfl := modify_eq_ok_iff.1 h
  exact ⟨harms.records, (Scope.layout_joinArms blocks s₁.scope).trans harms.layout,
    fun r hr => Act.runsAll_singleton.2 ⟨_, blocks, harms.runs r hr, rfl⟩, harms.nodes⟩

section parts

variable {x : DraftM β} {a : β} {declared : β → List (String × TypeVar)} {acts : β → List Act}
  {nodes : β → Place → List (Place × Expr TypeVar)}

/-- A block of its own that begins as if some acts were done, and whose nodes stand at places that see the block. -/
theorem inBlock_adds {block b : Block} (before : List Act) (q : Place → Place)
    (hx : ∀ {s a s'}, x s = .ok a s' → Adds s s' (declared a) (acts a) (nodes a))
    (hbefore : ∀ r scope, Act.RunsAll r before (Scope.enterBlock .empty scope) (Scope.enterBlock block scope))
    (hq : ∀ (p : Place) (l : Layout), p.Sees l → (q p).Sees (l.enter (Scope.blockLayout block)))
    (h : inBlock block x s = .ok (a, b) s') : AddsArms s s' [before ++ acts a] [b] fun p => nodes a (q p) := by
  obtain ⟨⟨⟩, s₁, henter, h⟩ := bind_eq_ok_iff.1 h
  obtain ⟨a', s₂, hrun, h⟩ := bind_eq_ok_iff.1 h
  obtain ⟨s₃, s₄, hget, h⟩ := bind_eq_ok_iff.1 h
  obtain ⟨rfl, rfl⟩ := get_eq_ok_iff.1 hget
  obtain ⟨⟨⟩, s₅, hexit, h⟩ := bind_eq_ok_iff.1 h
  obtain ⟨heq, rfl⟩ := pure_eq_ok_iff.1 h
  cases heq
  obtain rfl := modify_eq_ok_iff.1 henter
  obtain rfl := modify_eq_ok_iff.1 hexit
  have hadds := hx hrun
  refine ⟨hadds.records, fun r hr => ⟨s₂.scope, [], ?_, rfl, rfl, rfl⟩, fun p hp n hn r hr => ?_⟩
  · exact Act.runsAll_append.2 ⟨_, hbefore r s.scope, hadds.runs r hr⟩
  · refine hadds.nodes _ ?_ n hn r hr
    rw [Scope.layout_enterBlock block s.scope]
    exact hq p _ hp

theorem inBlock_empty_adds {b : Block}
    (hx : ∀ {s a s'}, x s = .ok a s' → Adds s s' (declared a) (acts a) (nodes a))
    (h : inBlock .empty x s = .ok (a, b) s') : AddsArms s s' [acts a] [b] (nodes a) :=
  inBlock_adds [] (fun p => p) hx (fun _ _ => rfl) (fun _ _ hp => hp.enter) h

/-- The body of a procedure or a closure: what it captures are the locals around it of the names noted. Its nodes stand
at places that have the parameters before the locals around. -/
theorem inFrame_ok {params : List (String × TypeVar)} {returns : TypeVar} {captures : NameSet}
    (hx : ∀ {s a s'}, x s = .ok a s' → Adds s s' (declared a) (acts a) (nodes a))
    (h : inFrame (.ofParams params returns) span x s = .ok (a, captures) s') :
    Adds s s' [] [.closure returns (s'.scope.captured captures) (params.map Act.bind ++ acts a)] (fun _ => []) ∧
      ∀ outer : List (String × TypeVar), (∀ name, s.scope.layout.lookup name = outer.lookup name) →
        ∀ n ∈ nodes a ⟨some returns, params.reverse ++ outer⟩, ∀ r : Records, r.Extends s'.records →
          n.2.Recorded r n.1 := by
  obtain ⟨⟨⟩, s₁, henter, h⟩ := bind_eq_ok_iff.1 h
  obtain ⟨a', s₂, hrun, h⟩ := bind_eq_ok_iff.1 h
  obtain ⟨s₃, s₄, hget, h⟩ := bind_eq_ok_iff.1 h
  obtain ⟨rfl, rfl⟩ := get_eq_ok_iff.1 hget
  obtain ⟨⟨⟩, s₅, hexit, h⟩ := bind_eq_ok_iff.1 h
  obtain rfl := modify_eq_ok_iff.1 henter
  obtain rfl := modify_eq_ok_iff.1 hexit
  have hadds := hx hrun
  obtain ⟨f, scope, hscope⟩ : ∃ f scope, s₂.scope = f :: scope := by
    have hlength := congrArg List.length hadds.layout
    rw [Act.length_declareAll, Scope.layout, Scope.layout, List.length_map, List.length_map] at hlength
    exact List.exists_cons_of_length_eq_add_one hlength
  have hbody (r : Records) (hr : r.Extends s₂.records) :
      Act.RunsAll r (params.map Act.bind ++ acts a') (s.scope.begin returns) (f :: scope) :=
    Act.runsAll_append.2 ⟨_, Act.runsAll_params params returns s.scope, hscope ▸ hadds.runs r hr⟩
  have hnodes {outer : List (String × TypeVar)} (houter : ∀ name, s.scope.layout.lookup name = outer.lookup name) :
      ∀ n ∈ nodes a' ⟨some returns, params.reverse ++ outer⟩, ∀ r : Records, r.Extends s₂.records →
        n.2.Recorded r n.1 :=
    hadds.nodes _ (.ofParams houter params returns (some returns) fun v hv => Option.some.inj hv)
  obtain ⟨y, hy, h⟩ := eq_ok_iff_exists.1 h
  rw [hscope] at hy
  split at hy
  · rename_i hreturns
    subst hy
    obtain ⟨heq, rfl⟩ := pure_eq_ok_iff.1 h
    cases heq
    refine ⟨.one (.closure ..) hadds.records fun r hr => ⟨f, ?_, rfl, fun hnot => ?_⟩, fun _ houter => hnodes houter⟩
    · rw [hscope]
      exact hbody r hr
    · cases hnot.symm.trans hreturns
  · subst hy
    obtain ⟨⟨⟩, s₃, hemit, h⟩ := bind_eq_ok_iff.1 h
    obtain ⟨heq, rfl⟩ := pure_eq_ok_iff.1 h
    cases heq
    obtain ⟨hemitted, hdemands⟩ := emit_ok hemit
    have hscope' : s₃.scope = scope := hemitted.scope.trans (congrArg List.tail hscope)
    refine ⟨.one (.closure ..) (hemitted.records.trans hadds.records) fun r hr => ⟨f, ?_, rfl, fun _ => ?_⟩,
      fun outer houter n hn r hr => hnodes houter n hn r (hr.trans hemitted.records)⟩
    · rw [hscope']
      exact hbody r (hr.trans hemitted.records)
    · exact ⟨_, hdemands.mono hr⟩

theorem isolated_ok (hx : ∀ {s a s'}, x s = .ok a s' → Adds s s' (declared a) (acts a) (nodes a))
    (h : isolated x s = .ok a s') :
    Adds s s' [] [.apart (acts a)] (fun _ => []) ∧
      ∀ n ∈ nodes a .isolated, ∀ r : Records, r.Extends s'.records → n.2.Recorded r n.1 := by
  obtain ⟨s₁, s₂, hget, h⟩ := bind_eq_ok_iff.1 h
  obtain ⟨rfl, rfl⟩ := get_eq_ok_iff.1 hget
  obtain ⟨returns, s₁, hfresh, h⟩ := bind_eq_ok_iff.1 h
  obtain ⟨⟨⟩, s₂, henter, h⟩ := bind_eq_ok_iff.1 h
  obtain ⟨a', s₃, hrun, h⟩ := bind_eq_ok_iff.1 h
  obtain ⟨⟨⟩, s₄, hexit, h⟩ := bind_eq_ok_iff.1 h
  obtain ⟨rfl, rfl⟩ := pure_eq_ok_iff.1 h
  obtain rfl := modify_eq_ok_iff.1 henter
  obtain rfl := modify_eq_ok_iff.1 hexit
  have hadds := hx hrun
  have hnone (name : String) : Layout.lookup [] name = List.lookup name [] := rfl
  have hsees : Place.Sees .isolated (Scope.layout [.ofParams [] returns]) :=
    .ofParams hnone [] returns none nofun
  refine ⟨.one (.apart _) (hadds.records.trans (fresh_ok hfresh).records) fun r hr => ?_, fun n hn r hr => ?_⟩
  · exact ⟨rfl, returns, s₃.scope, hadds.runs r hr⟩
  · exact hadds.nodes _ hsees n hn r hr

theorem isolated_adds (hx : ∀ {s a s'}, x s = .ok a s' → Adds s s' (declared a) (acts a) (nodes a))
    (h : isolated x s = .ok a s') : Adds s s' [] [.apart (acts a)] fun _ => nodes a .isolated := by
  obtain ⟨hacts, hnodes⟩ := isolated_ok hx h
  exact ⟨hacts.records, hacts.layout, hacts.runs, fun _ _ => hnodes⟩

end parts

/-! ### References -/

theorem useProcedure_ok {usage : ProcedureUsage} {i : Nat} (h : useProcedure usage s = .ok i s') :
    Quiet s s' ∧ s'.records.Uses (.pending i) usage := by
  obtain ⟨rfl, rfl⟩ := ok_eq_ok_iff.1 h
  refine ⟨.of rfl ⟨List.prefix_rfl, ?_, List.prefix_rfl⟩, _, rfl, ?_⟩
  · simp [records]
  · simp [records]

theorem useVariable_ok {usage : VariableUsage} {i : Nat} (h : useVariable usage s = .ok i s') :
    Quiet s s' ∧ s'.records.Reads (.pending i) usage.type := by
  obtain ⟨rfl, rfl⟩ := ok_eq_ok_iff.1 h
  refine ⟨.of rfl ⟨List.prefix_rfl, List.prefix_rfl, ?_⟩, _, usage, rfl, ?_, rfl⟩
  · simp [records]
  · simp [records]

theorem invocation_ok {path : Path} {args : List (Expr TypeVar)} {e : Expr TypeVar}
    (h : invocation path args span s = .ok e s') :
    Quiet s s' ∧ ∃ returns target usage, e = .invoke ⟨span, returns⟩ target args ∧
      s'.records.Uses target usage ∧ usage.args = args.map Expr.note ∧ usage.returns = returns := by
  obtain ⟨returns, s₁, hfresh, h⟩ := bind_eq_ok_iff.1 h
  obtain ⟨i, s₂, huse, h⟩ := bind_eq_ok_iff.1 h
  obtain ⟨rfl, rfl⟩ := pure_eq_ok_iff.1 h
  obtain ⟨hquiet, huses⟩ := useProcedure_ok huse
  exact ⟨(fresh_ok hfresh).adds hquiet, returns, _, _, rfl, huses, rfl, rfl⟩

theorem accessLocal_none {name : String} {assigned : Bool} (h : accessLocal name span assigned s = .ok none s') :
    s = s' := by
  obtain ⟨y, hy, h⟩ := get_bind_eq_ok_iff.1 h
  split at hy <;> subst hy
  · exact (throw_eq_ok_iff.1 h).elim
  · exact (pure_eq_ok_iff.1 h).2
  · obtain ⟨⟨⟩, s₁, -, h⟩ := bind_eq_ok_iff.1 h
    cases (pure_eq_ok_iff.1 h).1

theorem accessLocal_some {name : String} {assigned : Bool} {type : TypeVar}
    (h : accessLocal name span assigned s = .ok (some type) s') :
    Adds s s' [] [if assigned then .assign name type else .read name type] (fun _ => []) ∧
      s.scope.layout.lookup name = some type := by
  obtain ⟨y, hy, h⟩ := get_bind_eq_ok_iff.1 h
  split at hy <;> subst hy
  · exact (throw_eq_ok_iff.1 h).elim
  · cases (pure_eq_ok_iff.1 h).1
  · rename_i scope haccess
    obtain ⟨⟨⟩, s₁, hmodify, h⟩ := bind_eq_ok_iff.1 h
    obtain ⟨heq, rfl⟩ := pure_eq_ok_iff.1 h
    cases heq
    obtain rfl := modify_eq_ok_iff.1 hmodify
    refine ⟨?_, (Scope.access_ok haccess).1⟩
    cases assigned
    · exact .one (.read ..) (.refl _) fun r _ => ⟨span, haccess⟩
    · exact .one (.assign ..) (.refl _) fun r _ => ⟨span, haccess⟩

/-- What an access does: if `assigned`, the name is the target of an assignment. -/
def accessActs (assigned : Bool) (e : Expr TypeVar) : List Act :=
  if assigned then e.targetActs e.acts else e.acts

theorem accessSymbol_adds {context : DraftContext} {path : Path} {assigned : Bool} {e : Expr TypeVar}
    (h : accessSymbol context path span assigned s = .ok e s') :
    Adds s s' e.declared (accessActs assigned e) fun p => e.nodes p := by
  obtain ⟨y, hy, h⟩ := eq_ok_iff_exists.1 h
  unfold accessSymbol at hy
  split at hy
  · subst hy
    exact (throw_eq_ok_iff.1 h).elim
  · cases assigned with
    | true =>
      split at hy <;> subst hy <;> obtain ⟨_, _, hthrow, -⟩ := bind_eq_ok_iff.1 h <;>
        exact (throw_eq_ok_iff.1 hthrow).elim
    | false =>
      split at hy <;> subst hy
      · obtain ⟨type, s₁, hfresh, h⟩ := bind_eq_ok_iff.1 h
        obtain ⟨i, s₂, huse, h⟩ := bind_eq_ok_iff.1 h
        obtain ⟨rfl, rfl⟩ := pure_eq_ok_iff.1 h
        obtain ⟨hquiet, hreads⟩ := useVariable_ok huse
        exact ((fresh_ok hfresh).adds hquiet).node fun p _ r hr => hreads.mono hr
      · obtain ⟨args, s₁, hargs, h⟩ := bind_eq_ok_iff.1 h
        obtain ⟨returns, s₂, hreturns, h⟩ := bind_eq_ok_iff.1 h
        obtain ⟨type, s₃, htype, h⟩ := bind_eq_ok_iff.1 h
        obtain ⟨⟨⟩, s₄, hemit, h⟩ := bind_eq_ok_iff.1 h
        obtain ⟨i, s₅, huse, h⟩ := bind_eq_ok_iff.1 h
        obtain ⟨rfl, rfl⟩ := pure_eq_ok_iff.1 h
        obtain ⟨hemitted, hdemands⟩ := emit_ok hemit
        obtain ⟨hused, huses⟩ := useProcedure_ok huse
        have hquiet := (((freshFor_ok hargs).1.quiet (fresh_ok hreturns)).quiet (fresh_ok htype)).quiet
          (hemitted.quiet hused)
        exact hquiet.node fun p _ r hr => ⟨_, huses.mono hr, rfl, hdemands.mono (hr.trans hused.records)⟩

theorem access_adds {context : DraftContext} {path : Path} {assigned : Bool} {e : Expr TypeVar}
    (h : access context path span assigned s = .ok e s') :
    Adds s s' e.declared (accessActs assigned e) fun p => e.nodes p := by
  obtain ⟨y, hy, h⟩ := eq_ok_iff_exists.1 h
  unfold access at hy
  split at hy <;> subst hy
  · obtain ⟨found, s₁, hlocal, h⟩ := bind_eq_ok_iff.1 h
    cases found with
    | some type =>
      obtain ⟨rfl, rfl⟩ := pure_eq_ok_iff.1 h
      obtain ⟨hacts, hlookup⟩ := accessLocal_some hlocal
      have hnode := hacts.node (e := .localVar ⟨span, type⟩ _) fun p hp r _ => (hp.locals _).symm.trans hlookup
      cases assigned
      · exact hnode
      · exact hnode
    | none =>
      obtain rfl := accessLocal_none hlocal
      exact accessSymbol_adds h
  · exact accessSymbol_adds h

end DraftM
end Monomorph
