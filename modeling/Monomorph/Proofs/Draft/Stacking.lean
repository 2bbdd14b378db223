import Monomorph.Proofs.Draft.Comparing
import Monomorph.Proofs.Draft.Region
import Monomorph.Proofs.Type.Stacking

/-! # Drafts on top of another graph

A draft does not look at types: drafted on top of another graph, a body gives the same draft with greater variables
(`Draft.ofProcedure_atop`). -/

namespace Monomorph

open Outcome

/-! ### Scopes -/

section scope

variable (f : TypeVar → TypeVar)

/-- The block with the types of its locals replaced. -/
def Block.mapVars (b : Block) : Block := { b with locals := b.locals.map (Local.mapVars f) }

/-- The frame with all types in it replaced. -/
def Frame.mapVars (frame : Frame) : Frame :=
  ⟨f frame.returns, frame.captures, frame.blocks.map (Block.mapVars f)⟩

/-- The scope with all types in it replaced. -/
def Scope.mapVars (scope : Scope) : Scope := scope.map (Frame.mapVars f)

/-- The sighting with the type of the local replaced. -/
def Scope.Sighting.mapVars (s : Sighting) : Sighting := { s with binding := s.binding.mapVars f }

theorem Block.declare_mapVars (b : Block) (name : String) (l : Local) :
    (b.declare name l).mapVars f = (b.mapVars f).declare name (l.mapVars f) := by
  simp only [declare, mapVars, Row.insert_map]

theorem Block.initialize_mapVars (b : Block) (name : String) :
    Block.mapVars f ( Block.initialize b name) = Block.initialize (b.mapVars f) name := by
  unfold Block.initialize
  rw [show (b.mapVars f).locals = b.locals.map (Local.mapVars f) from rfl, Row.get?_map]
  cases b.locals.get? name with
  | none => rfl
  | some l => simp only [Option.map_some, mapVars, Row.insert_map, Local.mapVars]

theorem Frame.ofParams_mapVars (params : List (String × TypeVar)) (returns : TypeVar) :
    (ofParams params returns).mapVars f = ofParams (params.map fun p => (p.1, f p.2)) (f returns) := by
  simp only [ofParams, mapVars, Block.mapVars, List.map_cons, List.map_nil, Row.ofList_map, List.map_map]
  rfl

/-- The frame of a body whose parameters have the given types. -/
theorem Frame.ofParams_zip_mapVars (params : List String) (args : List TypeVar) (returns : TypeVar) :
    (ofParams (params.zip args) returns).mapVars f = ofParams (params.zip (args.map f)) (f returns) := by
  rw [ofParams_mapVars, List.zip_map_right]
  rfl

theorem Frame.alwaysReturns_mapVars (frame : Frame) : (frame.mapVars f).alwaysReturns = frame.alwaysReturns := by
  simp only [alwaysReturns, mapVars, List.getLast?_map, Option.any_map]
  rfl

namespace Scope

theorem modifyBlock_mapVars {change change' : Block → Block}
    (h : ∀ b, (change b).mapVars f = change' (b.mapVars f)) (scope : Scope) :
    (scope.modifyBlock change).mapVars f = (scope.mapVars f).modifyBlock change' := by
  cases scope with
  | nil => rfl
  | cons frame frames =>
    obtain ⟨returns, captures, blocks⟩ := frame
    cases blocks with
    | nil => rfl
    | cons block blocks =>
      simp only [modifyBlock, mapVars, List.map_cons, Frame.mapVars, h]

theorem enterBlock_mapVars (b : Block) (scope : Scope) :
    (scope.enterBlock b).mapVars f = (scope.mapVars f).enterBlock (b.mapVars f) := by
  cases scope <;> rfl

theorem exitBlock_mapVars (scope : Scope) :
    (scope.mapVars f).exitBlock = (scope.exitBlock.1.mapVars f, scope.exitBlock.2.mapVars f) := by
  cases scope with
  | nil => rfl
  | cons frame frames =>
    obtain ⟨returns, captures, blocks⟩ := frame
    cases blocks <;> rfl

theorem commonInitializes_mapVars (arms : List Block) :
    commonInitializes (arms.map (Block.mapVars f)) = commonInitializes arms := by
  unfold commonInitializes
  rw [List.filter_map]
  simp only [Function.comp_def, Block.mapVars]
  cases arms.filter fun arm => !arm.alwaysReturns with
  | nil => rfl
  | cons arm rest => simp [Function.comp_def, Block.mapVars]

theorem joinArms_mapVars (arms : List Block) (scope : Scope) :
    (scope.joinArms arms).mapVars f = (scope.mapVars f).joinArms (arms.map (Block.mapVars f)) := by
  refine modifyBlock_mapVars f (fun b => ?_) scope
  have hfoldl (names : List String) : (names.foldl Block.initialize b).mapVars f =
      names.foldl Block.initialize (b.mapVars f) := by
    induction names generalizing b with
    | nil => rfl
    | cons name names ih => rw [List.foldl_cons, ih, Block.initialize_mapVars, List.foldl_cons]
  rw [commonInitializes_mapVars, ← hfoldl, List.all_map]
  rfl

theorem blocks_mapVars (scope : Scope) :
    (scope.mapVars f).blocks = scope.blocks.map fun b => (b.1, b.2.1, b.2.2.mapVars f) := by
  simp [blocks, mapVars, Frame.mapVars, List.zipIdx_map, List.flatMap_map, List.map_flatMap, Function.comp_def]

theorem sight_mapVars (scope : Scope) (name : String) :
    (scope.mapVars f).sight name = (scope.sight name).map (Sighting.mapVars f) := by
  have hgo (initialized : Bool) (l : List (Nat × Nat × Block)) :
      sight.go name initialized (l.map fun b => (b.1, b.2.1, b.2.2.mapVars f)) =
        (sight.go name initialized l).map (Sighting.mapVars f) := by
    induction l generalizing initialized with
    | nil => rfl
    | cons b l ih =>
      obtain ⟨i, j, block⟩ := b
      simp only [List.map_cons, sight.go, Block.mapVars, Row.get?_map]
      cases block.locals.get? name with
      | none => exact ih _
      | some l => rfl
  rw [sight, sight, blocks_mapVars, hgo]

theorem typeOf?_mapVars (scope : Scope) (name : String) :
    (scope.mapVars f).typeOf? name = (scope.typeOf? name).map f := by
  rw [typeOf?, typeOf?, sight_mapVars, Option.map_map, Option.map_map]
  rfl

theorem capture_mapVars (scope : Scope) (n : Nat) (name : String) :
    Scope.mapVars f (scope.mapIdx fun i frame =>
        if i < n then { frame with captures := frame.captures.add name } else frame) =
      (scope.mapVars f).mapIdx fun i frame =>
        if i < n then { frame with captures := frame.captures.add name } else frame := by
  refine List.ext_getElem? fun i => ?_
  simp only [mapVars, List.getElem?_map, List.getElem?_mapIdx, Option.map_map]
  refine congrArg (Option.map · _) (funext fun frame => ?_)
  dsimp only [Function.comp_apply]
  split <;> rfl

theorem access_mapVars (scope : Scope) (name : String) (span : Span) (assigned : Bool) :
    (scope.mapVars f).access name span assigned =
      (scope.access name span assigned).map (Option.map fun p => (f p.1, p.2.mapVars f)) := by
  unfold access
  rw [sight_mapVars]
  cases scope.sight name with
  | none => rfl
  | some s =>
    dsimp only [Option.map_some]
    rw [show (s.mapVars f).initialized = s.initialized from rfl,
      show (s.mapVars f).binding.isMutable = s.binding.isMutable from rfl]
    split
    · rfl
    split
    · rfl
    have hnoted : (if (assigned && ((s.frame == 0 && s.block == 0) || !s.initialized)) = true then
          (scope.mapVars f).modifyBlock fun b => b.initialize name else scope.mapVars f) =
        Scope.mapVars f (if (assigned && ((s.frame == 0 && s.block == 0) || !s.initialized)) = true then
          scope.modifyBlock fun b => b.initialize name else scope) := by
      split
      · exact (modifyBlock_mapVars f (fun b => b.initialize_mapVars f name) scope).symm
      · rfl
    simp only [Except.map, Option.map_some, capture_mapVars]
    exact congrArg (fun scope : Scope => Except.ok (some (f s.binding.type, scope.mapIdx fun i frame =>
      if i < s.frame then { frame with captures := frame.captures.add name } else frame))) hnoted

end Scope

end scope

/-! ### States of drafting -/

/-- The same point of drafting on top of another graph, with so many frames around. -/
structure Drafting.Above (base : TypeGraph) (depth : Nat) (s s' : Drafting) : Prop where
  graph : s'.graph = s.graph.atop base
  scope : s'.scope = s.scope.mapVars (TypeVar.raise base.size)
  depth : s.scope.length = depth
  constraints : s'.constraints = s.constraints.map (Constraint.mapVars (TypeVar.raise base.size))
  usages : s'.usages = s.usages.mapVars (TypeVar.raise base.size)

/-- The same types on top of another graph. -/
structure Drafting.Atop (base : TypeGraph) (s s' : Drafting) : Prop where
  graph : s'.graph = s.graph.atop base

/-- The same block on top of another graph. -/
abbrev Block.Raised (base : TypeGraph) (b b' : Block) : Prop := b' = b.mapVars (TypeVar.raise base.size)

namespace DraftM

/-- On top of another graph the second computation drafts what the first one does, and gives its image. After a
failure only the types matter. -/
abbrev Above {α β : Type} (base : TypeGraph) (depth : Nat) (φ : α → β) (x : DraftM α) (y : DraftM β) : Prop :=
  Parallel (Drafting.Above base depth) (Drafting.Atop base) (fun a b => b = φ a) x y

variable {α β : Type} {base : TypeGraph} {k : Nat} {φ : α → β} {x : DraftM α} {y : DraftM β}

theorem Above.throw (e : TypeError) : Above base k φ (MonadExcept.throw e) (MonadExcept.throw e) :=
  Parallel.throw e fun h => ⟨h.graph⟩

theorem Above.get_bind {f : Drafting → DraftM α} {f' : Drafting → DraftM β}
    (h : ∀ s s', Drafting.Above base k s s' → Above base k φ (f s) (f' s')) :
    Above base k φ (get >>= f) (get >>= f') :=
  ⟨fun {s s'} hs => (h s s' hs).run hs⟩

/-! ### Steps -/

theorem allocate_above (t : Ty) :
    Above base k (TypeVar.raise base.size) (allocate t) (allocate (t.mapVars (TypeVar.raise base.size))) where
  run {s s'} hs := by
    obtain ⟨graph, scope, constraints, usages⟩ := s
    obtain ⟨graph', scope', constraints', usages'⟩ := s'
    obtain ⟨rfl, rfl, hdepth, rfl, rfl⟩ := hs
    exact .ok (congrArg Prod.fst (TypeGraph.alloc_atop graph base t))
      ⟨congrArg Prod.snd (TypeGraph.alloc_atop graph base t), rfl, hdepth, rfl, rfl⟩

theorem fresh_above : Above base k (TypeVar.raise base.size) fresh fresh := allocate_above Ty.any

theorem unit_above (span : Span) : Above base k (TypeVar.raise base.size) (unit span) (unit span) :=
  allocate_above ⟨.unit, some span⟩

theorem emit_above {target target' : TypeVar} {demand demand' : Demand} (htarget : target' = target.raise base.size)
    (hdemand : demand' = demand.mapVars (TypeVar.raise base.size)) (span : Span) :
    Above base k id (emit target span demand) (emit target' span demand') where
  run {s s'} hs := by
    subst htarget hdemand
    refine .ok rfl ⟨hs.graph, hs.scope, hs.depth, ?_, hs.usages⟩
    dsimp only
    rw [hs.constraints, Array.map_push]
    rfl

theorem modifyScope_above {change change' : Scope → Scope}
    (h : ∀ scope : Scope, (change scope).mapVars (TypeVar.raise base.size) =
      change' (scope.mapVars (TypeVar.raise base.size)))
    (hlength : ∀ scope : Scope, (change scope).length = scope.length) :
    Above base k id (modifyScope change) (modifyScope change') where
  run {s s'} hs := by
    obtain ⟨hgraph, hscope, hdepth, hconstraints, husages⟩ := hs
    refine .ok rfl ⟨hgraph, ?_, (hlength _).trans hdepth, hconstraints, husages⟩
    dsimp only
    rw [hscope, h]

theorem modifyBlock_above {change change' : Block → Block}
    (h : ∀ b, (change b).mapVars (TypeVar.raise base.size) = change' (b.mapVars (TypeVar.raise base.size))) :
    Above base k id (modifyScope (Scope.modifyBlock change)) (modifyScope (Scope.modifyBlock change')) :=
  modifyScope_above (Scope.modifyBlock_mapVars _ h) (length_modifyBlock _)

theorem joinArms_above {arms arms' : List Block} (h : List.Forall₂ (Block.Raised base) arms arms') :
    Above base k id (modifyScope (Scope.joinArms arms)) (modifyScope (Scope.joinArms arms')) := by
  have harms : arms' = arms.map (Block.mapVars (TypeVar.raise base.size)) := by
    induction h with
    | nil => rfl
    | cons hb _ ih => rw [List.map_cons, hb, ih]
  exact harms ▸ modifyScope_above (Scope.joinArms_mapVars _ arms) (length_modifyBlock _)

theorem inBlock_above {block block' : Block} (hblock : block' = block.mapVars (TypeVar.raise base.size))
    (hx : Above base k φ x y) :
    Parallel (Drafting.Above base k) (Drafting.Atop base) (Ended (Block.Raised base) φ) (inBlock block x)
      (inBlock block' y) := by
  subst hblock
  have henter : Above base k id (modifyScope (Scope.enterBlock block))
      (modifyScope (Scope.enterBlock (block.mapVars (TypeVar.raise base.size)))) :=
    modifyScope_above (Scope.enterBlock_mapVars _ block) fun scope => by cases scope <;> rfl
  refine henter.bind_map fun _ => hx.bind_map fun a => ?_
  refine ⟨fun {s s'} hs => ?_⟩
  obtain ⟨hgraph, hscope, hdepth, hconstraints, husages⟩ := hs
  have hexit := Scope.exitBlock_mapVars (TypeVar.raise base.size) s.scope
  rw [← hscope] at hexit
  exact .ok ⟨rfl, congrArg Prod.fst hexit⟩
    ⟨hgraph, congrArg Prod.snd hexit, (length_exitBlock _).trans hdepth, hconstraints, husages⟩

theorem inFrame_above (frame : Frame) (span : Span) (hx : Above base (k + 1) φ x y) :
    Above base k (fun p => (φ p.1, p.2)) (inFrame frame span x)
      (inFrame (frame.mapVars (TypeVar.raise base.size)) span y) where
  run {s s'} hs := by
    have hinside : Drafting.Above base (k + 1) { s with scope := frame :: s.scope }
        { s' with scope := frame.mapVars (TypeVar.raise base.size) :: s'.scope } :=
      ⟨hs.graph, by rw [hs.scope]; rfl, by rw [List.length_cons, hs.depth], hs.constraints, hs.usages⟩
    refine (hx.run hinside).bind fun {a b t t'} hab ht => ?_
    subst hab
    obtain ⟨inner, frames, hframes⟩ := List.exists_cons_of_length_eq_add_one ht.depth
    have hhead : t'.scope.headD (frame.mapVars (TypeVar.raise base.size)) =
        inner.mapVars (TypeVar.raise base.size) := by
      rw [ht.scope, hframes]
      rfl
    have houtside : Drafting.Above base k { t with scope := t.scope.tail } { t' with scope := t'.scope.tail } := by
      refine ⟨ht.graph, ?_, ?_, ht.constraints, ht.usages⟩
      · rw [ht.scope, hframes]
        rfl
      · rw [List.length_tail, ht.depth, Nat.add_sub_cancel]
    have hrest : Above base k (fun p : α × NameSet => (φ p.1, p.2))
        (do
          unless inner.alwaysReturns do
            emit inner.returns span (.isBase .unit (some "because the body does not always return a value"))
          return (a, inner.captures))
        (do
          unless (inner.mapVars (TypeVar.raise base.size)).alwaysReturns do
            emit (inner.mapVars (TypeVar.raise base.size)).returns span
              (.isBase .unit (some "because the body does not always return a value"))
          return (φ a, (inner.mapVars (TypeVar.raise base.size)).captures)) := by
      rw [Frame.alwaysReturns_mapVars]
      split
      · exact .pure rfl
      · exact (emit_above rfl rfl span).bind_map fun _ => .pure rfl
    have hend := hrest.run houtside
    rw [← hhead, show inner = t.scope.headD frame by rw [hframes]; rfl] at hend
    exact hend

theorem isolated_above (hx : Above base 1 φ x y) : Above base k φ (isolated x) (isolated y) := by
  refine .get_bind fun s s' hs => fresh_above.bind_map fun returns => ⟨fun {t t'} ht => ?_⟩
  have hinside : Drafting.Above base 1 { t with scope := [.ofParams [] returns] }
      { t' with scope := [.ofParams [] (returns.raise base.size)] } :=
    ⟨ht.graph, congrArg ([·]) (Frame.ofParams_mapVars _ [] returns).symm, rfl, ht.constraints, ht.usages⟩
  refine (hx.run hinside).bind fun {a b u u'} hab hu => ?_
  exact .ok hab ⟨hu.graph, hs.scope, hs.depth, hu.constraints, hu.usages⟩

/-! ### References -/

theorem useProcedure_above (usage : ProcedureUsage) :
    Above base k id (useProcedure usage) (useProcedure (usage.mapVars (TypeVar.raise base.size))) where
  run {s s'} hs := by
    obtain ⟨hgraph, hscope, hdepth, hconstraints, husages⟩ := hs
    obtain ⟨graph', scope', constraints', usages'⟩ := s'
    subst husages
    refine .ok ?_ ⟨hgraph, hscope, hdepth, hconstraints, ?_⟩
    · simp [Usages.mapVars]
    · simp [Usages.mapVars]

theorem useVariable_above (usage : VariableUsage) :
    Above base k id (useVariable usage) (useVariable (usage.mapVars (TypeVar.raise base.size))) where
  run {s s'} hs := by
    obtain ⟨hgraph, hscope, hdepth, hconstraints, husages⟩ := hs
    obtain ⟨graph', scope', constraints', usages'⟩ := s'
    subst husages
    refine .ok ?_ ⟨hgraph, hscope, hdepth, hconstraints, ?_⟩
    · simp [Usages.mapVars]
    · simp [Usages.mapVars]

theorem accessLocal_above (name : String) (span : Span) (assigned : Bool) :
    Above base k (Option.map (TypeVar.raise base.size)) (accessLocal name span assigned)
      (accessLocal name span assigned) := by
  refine .get_bind fun s s' hs => ?_
  rw [hs.scope, Scope.access_mapVars]
  cases haccess : s.scope.access name span assigned with
  | error e => exact .throw e
  | ok found =>
    cases found with
    | none => exact .pure rfl
    | some p =>
      obtain ⟨type, scope⟩ := p
      have hlength : scope.length = k := by
        obtain ⟨-, hlayout⟩ := Scope.access_ok haccess
        have hlength : scope.length = s.scope.length := by
          simpa [Scope.layout] using congrArg List.length hlayout
        exact hlength.trans hs.depth
      have hnoted : Above base k id (modifyScope fun _ => scope)
          (modifyScope fun _ => scope.mapVars (TypeVar.raise base.size)) :=
        ⟨fun {t t'} ht => .ok rfl ⟨ht.graph, rfl, hlength, ht.constraints, ht.usages⟩⟩
      exact hnoted.bind_map fun _ => .pure rfl

/-! ### Expressions -/

theorem above_compares (base : TypeGraph) :
    Compares (.forAll fun k => .parallel (Drafting.Above base (k + 1)) (Drafting.Atop base)) (TypeVar.raise base.size)
      (fun s s' => ∃ k, Drafting.Above base (k + 1) s s') (Block.Raised base) fun _ => True where
  throw e _ := .throw e fun h => ⟨h.graph⟩
  get_bind h k := ⟨fun {s s'} hs => (h s s' ⟨k, hs⟩ k).run hs⟩
  typeOf? hs _ := by
    obtain ⟨k, hs⟩ := hs
    rw [hs.scope, Scope.typeOf?_mapVars]
  returns hs := by
    obtain ⟨k, hs⟩ := hs
    obtain ⟨frame, frames, hframes⟩ := List.exists_cons_of_length_eq_add_one hs.depth
    rw [hs.scope, hframes]
    rfl
  fresh _ := fresh_above
  unit span _ := unit_above span
  emit _ span _ _ := emit_above rfl rfl span
  useProcedure usage _ := (useProcedure_above usage).imp Eq.symm
  useVariable usage _ := (useVariable_above usage).imp Eq.symm
  accessLocal _ span assigned _ := accessLocal_above _ span assigned
  declare name l _ := modifyBlock_above fun b => Block.declare_mapVars _ b name l
  giveBack _ := modifyBlock_above fun _ => rfl
  joinArms h _ := joinArms_above h
  empty := rfl
  binding name v := (Block.declare_mapVars _ .empty name ⟨v, true, false⟩).symm
  inBlock hblock hx k := inBlock_above hblock (hx k)
  inFrame params args returns span hx k := by
    rw [← Frame.ofParams_zip_mapVars]
    exact (inFrame_above _ span (hx (k + 1))).imp fun hab => ⟨hab, fun _ _ => trivial⟩
  isolated hx _ := isolated_above (hx 0)

end DraftM

/-! ### Drafts -/

namespace Draft

/-- The draft with all types in it replaced. -/
def mapVars (f : TypeVar → TypeVar) (d : Draft) : Draft :=
  ⟨d.args.map f, f d.returns, d.constraints.map (Constraint.mapVars f), d.usages.mapVars f, Expr.mapAll f d.body⟩

variable {base : TypeGraph} {context context' : DraftContext}

theorem run_atop {x y : DraftM (List TypeVar × TypeVar × List (Expr TypeVar))}
    (h : DraftM.Above base 0 (fun a => (a.1.map (TypeVar.raise base.size), a.2.1.raise base.size,
      Expr.mapAll (TypeVar.raise base.size) a.2.2)) x y) (g : TypeGraph) :
    run y (g.atop base) = ((run x g).1.map (mapVars (TypeVar.raise base.size)), (run x g).2.atop base) := by
  have hstart : Drafting.Above base 0 ⟨g, [], #[], ⟨#[], #[]⟩⟩ ⟨g.atop base, [], #[], ⟨#[], #[]⟩⟩ :=
    ⟨rfl, rfl, rfl, by simp, by simp [Usages.mapVars]⟩
  have hend := h.run hstart
  unfold run
  generalize x _ = r at hend
  generalize y _ = r' at hend
  cases hend with
  | ok hab hs =>
    subst hab
    simp only [Except.map, mapVars, hs.graph, hs.constraints, hs.usages, Array.toList_map]
  | error hs => simp only [Except.map, hs.graph]

theorem ofProcedure_atop (h : DraftM.SameInterfaces context context') (params : List String) (body : List (Expr Unit))
    (span : Span) (g : TypeGraph) :
    ofProcedure context' params body span (g.atop base) =
      ((ofProcedure context params body span g).1.map (mapVars (TypeVar.raise base.size)),
        (ofProcedure context params body span g).2.atop base) := by
  have hfresh : DraftM.Above base 0 (TypeVar.raise base.size) DraftM.fresh DraftM.fresh := DraftM.fresh_above
  have hbody := DraftM.exprs_compares (DraftM.above_compares base) h body (fun _ _ => trivial) 0
  refine run_atop ?_ g
  refine (DraftM.freshFor_compares (C := .parallel _ _) hfresh params).bind_map fun args => ?_
  refine hfresh.bind_map fun returns => ?_
  rw [← Frame.ofParams_zip_mapVars]
  exact (DraftM.inFrame_above _ span hbody).bind_map fun _ => .pure rfl

end Draft

end Monomorph
