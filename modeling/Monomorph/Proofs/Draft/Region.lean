import Monomorph.Proofs.Draft.Allocation
import Monomorph.Proofs.Draft.Layout
import Monomorph.Proofs.Type.Demands

/-! # Drafting stays among its own variables

Whatever the types at the start say of one another, drafting demands nothing of variables that were there before, and
the types of its own variables mention no others. So all that is drafted is inside a region (`Drafting.Inside`), and
each step stays inside if what it is given is known there (`DraftM.Stays`). -/

namespace Monomorph

open Outcome

/-! ### The variables of a scope -/

/-- The types given back and the types of the locals. -/
def Layout.types (l : Layout) : List TypeVar :=
  l.flatMap fun f => f.returns :: f.blocks.flatMap Row.values

namespace Layout

variable {l : Layout} {v : TypeVar}

theorem mem_types_declare {name : String} {type : TypeVar} (h : v ∈ (l.declare name type).types) :
    v = type ∨ v ∈ l.types := by
  cases l with
  | nil => cases h
  | cons f l =>
    obtain ⟨returns, blocks⟩ := f
    cases blocks with
    | nil => exact .inr h
    | cons block blocks =>
      simp only [types, declare, FrameLayout.declare, List.flatMap_cons, List.mem_append, List.mem_cons] at h ⊢
      rcases h with (rfl | h | h) | h
      · exact .inr (.inl (.inl rfl))
      · exact (mem_values_insert h).imp_right fun h => .inl (.inr (.inl h))
      · exact .inr (.inl (.inr (.inr h)))
      · exact .inr (.inr h)

theorem mem_types_enter {block : Row TypeVar} (h : v ∈ (l.enter block).types) :
    v ∈ block.values ∨ v ∈ l.types := by
  cases l with
  | nil => cases h
  | cons f l =>
    simp only [types, enter, List.flatMap_cons, List.mem_append, List.mem_cons] at h ⊢
    rcases h with (rfl | h | h) | h
    · exact .inr (.inl (.inl rfl))
    · exact .inl h
    · exact .inr (.inl (.inr h))
    · exact .inr (.inr h)

theorem mem_types_leave (h : v ∈ l.leave.types) : v ∈ l.types := by
  cases l with
  | nil => cases h
  | cons f l =>
    simp only [types, leave, List.flatMap_cons, List.mem_append, List.mem_cons, List.mem_flatMap] at h ⊢
    rcases h with (rfl | ⟨block, hblock, h⟩) | h
    · exact .inl (.inl rfl)
    · exact .inl (.inr ⟨block, List.mem_of_mem_tail hblock, h⟩)
    · exact .inr h

theorem mem_types_of_lookup {name : String} (h : l.lookup name = some v) : v ∈ l.types := by
  obtain ⟨block, hblock, hv⟩ := List.exists_of_findSome?_eq_some h
  obtain ⟨f, hf, hblock⟩ := List.mem_flatMap.1 hblock
  refine List.mem_flatMap.2 ⟨f, hf, List.mem_cons_of_mem _ (List.mem_flatMap.2 ⟨block, hblock, ?_⟩)⟩
  exact (Row.mem_values_iff _).2 ⟨name, hv⟩

end Layout

/-! ### States of drafting -/

/-- The types at the uses of other symbols. -/
def Usages.types (u : Usages) : List TypeVar :=
  u.procedures.toList.flatMap (fun usage => usage.returns :: usage.args) ++
    u.globals.toList.map VariableUsage.type

namespace Drafting

/-- All that is drafted so far is about variables of the region, and there are so many frames around. -/
structure Inside (r : Set TypeVar) (frames : Nat) (s : Drafting) : Prop where
  closed : s.graph.Closed r
  constraints : ∀ c ∈ s.constraints, s.graph.AllKnown r c.vars
  usages : s.graph.AllKnown r s.usages.types
  scope : s.graph.AllKnown r s.scope.layout.types
  frames : s.scope.length = frames

end Drafting

namespace DraftM

open Drafting (Grows Inside)

/-- Where the computation succeeds, it stays inside the region, and `P` holds of its result in all later types. -/
abbrev Stays (r : Set TypeVar) (frames : Nat) (K : Drafting → Prop) {β : Type} (x : DraftM β)
    (P : TypeGraph → β → Prop) : Prop :=
  Ensures Grows (Inside r frames) K x (Inside r frames) fun t b => P t.graph b

variable {α β : Type} {r : Set TypeVar} {frames frames' : Nat} {K : Drafting → Prop} {x : DraftM β}
  {P : TypeGraph → β → Prop} {span : Span}

theorem Stays.bind {f : β → DraftM α} {Q : TypeGraph → α → Prop} (hx : Stays r frames K x P)
    (hf : ∀ b, Stays r frames (fun t => P t.graph b ∧ K t) (f b) Q) : Stays r frames K (x >>= f) Q :=
  Ensures.bind grows_kept hx hf

theorem Stays.pure {b : β} (h : ∀ t, K t → P t.graph b) : Stays r frames K (Pure.pure b) P :=
  Ensures.pure grows_kept h

/-- The result of the first part says nothing. -/
theorem Stays.skip {f : β → DraftM α} {Q : TypeGraph → α → Prop} (hx : Stays r frames K x fun _ _ => True)
    (hf : ∀ b, Stays r frames K (f b) Q) : Stays r frames K (x >>= f) Q :=
  .bind hx fun b => (hf b).imp (fun _ h => h.2) (fun _ _ _ h => h) grows_kept

theorem Stays.look {f : Drafting → DraftM β} (hf : ∀ s, Stays r frames K (f s) P) :
    Stays r frames K (get >>= f) P where
  ok hs hK hrun := by
    obtain ⟨y, rfl, hrun⟩ := get_bind_eq_ok_iff.1 hrun
    exact (hf _).ok hs hK hrun

theorem known_grows {s t : Drafting} {v : TypeVar} (ht : Grows s t) (hv : s.graph.Known r v) : t.graph.Known r v :=
  ⟨hv.1, Nat.lt_of_lt_of_le hv.2 ht.extends.size_le⟩

/-! ### Variables and demands -/

theorem allocate_stays {t : Ty} (ht : t.kind.children = []) :
    Stays r frames K (allocate t) fun g v => g.Known r v where
  ok {s v s'} hs _ hrun := by
    obtain ⟨rfl, rfl⟩ := ok_eq_ok_iff.1 hrun
    have halloc := hs.closed.alloc (t := t) (by rw [ht]; exact nofun)
    refine ⟨⟨halloc.closed, fun c hc v hv => ?_, fun v hv => ?_, fun v hv => ?_, hs.frames⟩, .alloc ht,
      fun t' ht' => ?_⟩
    · exact halloc.known (hs.constraints c hc v hv)
    · exact halloc.known (hs.usages v hv)
    · exact halloc.known (hs.scope v hv)
    · exact known_grows ht' (hs.closed.known_size t)

theorem fresh_stays : Stays r frames K fresh fun g v => g.Known r v := allocate_stays rfl

theorem unit_stays (span : Span) :
    Stays r frames K (unit span) fun g v => g.Known r v ∧ (Demand.isBase .unit none).Met g v where
  ok {s v s'} hs hK hrun := by
    obtain ⟨hs', hgrows, hknown⟩ := (allocate_stays rfl).ok hs hK hrun
    refine ⟨hs', hgrows, fun t ht => ⟨hknown t ht, ?_⟩⟩
    obtain ⟨rfl, rfl⟩ := ok_eq_ok_iff.1 hrun
    have hsize : s.graph.size < (s.graph.alloc ⟨.unit, some span⟩).2.size := by
      rw [TypeGraph.size_alloc]
      exact Nat.lt_succ_self _
    have halloc : (s.graph.alloc ⟨.unit, some span⟩).2.kind ⟨s.graph.size⟩ = .unit := by
      rw [TypeGraph.kind, TypeGraph.get_alloc, if_pos rfl]
    have hkind : t.graph.kind ⟨s.graph.size⟩ = .unit := (ht.extends.kind hsize).trans halloc
    exact ⟨by rw [hkind]; trivial, trivial, fun _ h => by cases h⟩

theorem freshFor_stays {l : List α} : Stays r frames K (freshFor l) fun g vs => g.AllKnown r vs := by
  induction l generalizing K with
  | nil => exact .pure fun _ _ => List.forall_mem_nil _
  | cons _ l ih =>
    exact .bind fresh_stays fun v => .bind ih fun vs => .pure fun _ ht => List.forall_mem_cons.2 ⟨ht.2.1, ht.1⟩

theorem emit_stays {target : TypeVar} {d : Demand} (h : ∀ t, K t → t.graph.AllKnown r (target :: d.vars)) :
    Stays r frames K (emit target span d) fun _ _ => True where
  ok {s u s'} hs hK hrun := by
    obtain rfl := modify_eq_ok_iff.1 hrun
    refine ⟨⟨hs.closed, fun c hc => ?_, hs.usages, hs.scope, hs.frames⟩, .refl, fun _ _ => trivial⟩
    rcases Array.mem_push.1 hc with hc | rfl
    · exact hs.constraints c hc
    · exact h s (hK.here grows_kept)

section demands

variable {target v : TypeVar} {d : Demand} (htarget : ∀ t, K t → t.graph.Known r target)

include htarget

theorem emit_alone_stays (hd : d.vars = []) : Stays r frames K (emit target span d) fun _ _ => True :=
  emit_stays fun t ht => hd ▸ List.forall_mem_singleton.2 (htarget t ht)

theorem emit_with_stays (hd : d.vars = [v]) (hv : ∀ t, K t → t.graph.Known r v) :
    Stays r frames K (emit target span d) fun _ _ => True :=
  emit_stays fun t ht => hd ▸ List.forall_mem_cons.2 ⟨htarget t ht, List.forall_mem_singleton.2 (hv t ht)⟩

theorem emit_signature_stays {args : List TypeVar} (hargs : ∀ t, K t → t.graph.AllKnown r args)
    (hv : ∀ t, K t → t.graph.Known r v) :
    Stays r frames K (emit target span (.hasSignature args v)) fun _ _ => True :=
  emit_stays fun t ht => List.forall_mem_cons.2 ⟨htarget t ht,
    List.forall_mem_append.2 ⟨hargs t ht, List.forall_mem_singleton.2 (hv t ht)⟩⟩

end demands

theorem typed_stays {base : BaseKind} : Stays r frames K (typed base span) fun g v => g.Known r v :=
  .bind fresh_stays fun _ => .skip (emit_alone_stays (fun _ ht => ht.1) rfl) fun _ => .pure fun _ ht => ht.1

theorem Stays.and {Q : β → Prop} (hx : Stays r frames K x P) (hy : Yields x Q) :
    Stays r frames K x fun g b => P g b ∧ Q b where
  ok hs hK hrun := by
    obtain ⟨hs', hgrows, hP⟩ := hx.ok hs hK hrun
    exact ⟨hs', hgrows, fun t ht => ⟨hP t ht, hy.ok hrun⟩⟩

/-- The parameters of a body. -/
theorem known_params {g : TypeGraph} {params : List String} {args : List TypeVar} {returns : TypeVar}
    (hreturns : g.Known r returns) (hargs : g.AllKnown r args) :
    g.AllKnown r (returns :: (params.zip args).map Prod.snd) := by
  refine List.forall_mem_cons.2 ⟨hreturns, fun v hv => ?_⟩
  obtain ⟨p, hp, rfl⟩ := List.mem_map.1 hv
  exact hargs _ (List.of_mem_zip hp).2

/-! ### Scopes -/

/-- A change of the scope that brings in known variables only. -/
theorem modifyScope_stays {f : Scope → Scope}
    (h : ∀ s, K s → s.Inside r frames →
      s.graph.AllKnown r (f s.scope).layout.types ∧ (f s.scope).length = frames') :
    Ensures Grows (Inside r frames) K (modifyScope f) (Inside r frames') fun _ _ => True where
  ok {s u s'} hs hK hrun := by
    obtain rfl := modify_eq_ok_iff.1 hrun
    obtain ⟨hscope, hframes⟩ := h s (hK.here grows_kept) hs
    exact ⟨⟨hs.closed, hs.constraints, hs.usages, hscope, hframes⟩, .refl, fun _ _ => trivial⟩

theorem length_modifyBlock (f : Block → Block) (scope : Scope) :
    (scope.modifyBlock f).length = scope.length := by
  unfold Scope.modifyBlock
  split <;> rfl

theorem length_exitBlock (scope : Scope) : scope.exitBlock.2.length = scope.length := by
  unfold Scope.exitBlock
  split <;> rfl

theorem declare_stays {name : String} {l : Local} (h : ∀ t, K t → t.graph.Known r l.type) :
    Stays r frames K (modifyScope (Scope.modifyBlock fun b => b.declare name l)) fun _ _ => True := by
  refine modifyScope_stays fun s hK hs => ⟨fun v hv => ?_, (length_modifyBlock _ _).trans hs.frames⟩
  rw [Scope.layout_declare] at hv
  rcases Layout.mem_types_declare hv with rfl | hv
  · exact h s hK
  · exact hs.scope v hv

theorem joinArms_stays {arms : List Block} :
    Stays r frames K (modifyScope (Scope.joinArms arms)) fun _ _ => True :=
  modifyScope_stays fun s _ hs =>
    ⟨fun v hv => hs.scope v (Scope.layout_joinArms arms s.scope ▸ hv), (length_modifyBlock _ _).trans hs.frames⟩

theorem alwaysReturns_stays :
    Stays r frames K (modifyScope (Scope.modifyBlock fun b => { b with alwaysReturns := true })) fun _ _ => True := by
  refine modifyScope_stays fun s _ hs => ⟨fun v hv => hs.scope v ?_, (length_modifyBlock _ _).trans hs.frames⟩
  rwa [Scope.layout_modifyBlock (f := fun b => { b with alwaysReturns := true }) (fun _ => rfl) s.scope] at hv

/-- The types of the scope are known, and how many frames there are. -/
theorem get_stays : Stays r frames K get fun g s => g.AllKnown r s.scope.layout.types ∧ s.scope.length = frames where
  ok hs _ hrun := by
    obtain ⟨rfl, rfl⟩ := get_eq_ok_iff.1 hrun
    exact ⟨hs, .refl, fun _ ht => ⟨fun v hv => known_grows ht (hs.scope v hv), hs.frames⟩⟩

theorem returns_mem_types {frame : Frame} {scope : Scope} : frame.returns ∈ (Scope.layout (frame :: scope)).types := by
  simp [Scope.layout, Layout.types]

theorem returnType_stays : Stays r (frames + 1) K returnType fun g v => g.Known r v := by
  refine .bind get_stays fun s => .pure fun t ht => ?_
  obtain ⟨frame, scope, hscope⟩ := List.exists_cons_of_length_eq_add_one ht.1.2
  rw [hscope] at ht ⊢
  exact ht.1.1 _ returns_mem_types

theorem inBlock_stays {block : Block} (hblock : ∀ t, K t → t.graph.AllKnown r (Scope.blockLayout block).values)
    (hx : ∀ {K}, Stays r frames K x P) : Stays r frames K (inBlock block x) fun g a => P g a.1 := by
  refine .skip (modifyScope_stays fun s hK hs => ⟨fun v hv => ?_, ?_⟩) fun _ => .bind hx fun _ =>
    .bind get_stays fun s => .skip (modifyScope_stays fun t ht _ => ⟨fun v hv => ht.1.1 v ?_, ?_⟩) fun _ =>
      .pure fun _ ht => ht.2.1
  · rw [Scope.layout_enterBlock] at hv
    exact (Layout.mem_types_enter hv).elim (hblock s hK v) (hs.scope v)
  · rw [← hs.frames]
    cases s.scope <;> rfl
  · have hv : v ∈ s.scope.exitBlock.2.layout.types := hv
    exact Layout.mem_types_leave (Scope.layout_exitBlock s.scope ▸ hv)
  · exact (length_exitBlock s.scope).trans ht.1.2

theorem inBlock_empty_stays (hx : ∀ {K}, Stays r frames K x P) :
    Stays r frames K (inBlock .empty x) fun g a => P g a.1 :=
  inBlock_stays (fun _ _ => List.forall_mem_nil _) hx

theorem mem_types_ofParams {params : List (String × TypeVar)} {returns v : TypeVar} {scope : Scope}
    (h : v ∈ Layout.types (Scope.layout (.ofParams params returns :: scope))) :
    v ∈ returns :: params.map Prod.snd ∨ v ∈ scope.layout.types := by
  simp only [Scope.layout, List.map_cons, Frame.ofParams, List.map_nil, Layout.types, List.flatMap_cons,
    List.flatMap_nil, List.append_nil, List.mem_append, List.mem_cons] at h ⊢
  rcases h with (rfl | h) | h
  · exact .inl (.inl rfl)
  · obtain ⟨name, hname⟩ := (Row.mem_values_iff _).1 h
    rw [Scope.blockLayout, Row.get?_map] at hname
    obtain ⟨l, hl, rfl⟩ := Option.map_eq_some_iff.1 hname
    obtain ⟨p, hp, heq⟩ := List.mem_map.1 (Row.mem_of_get?_ofList hl)
    cases heq
    exact .inl (.inr (List.mem_map_of_mem hp))
  · exact .inr h

theorem inFrame_stays {params : List (String × TypeVar)} {returns : TypeVar}
    (hparams : ∀ t, K t → t.graph.AllKnown r (returns :: params.map Prod.snd))
    (hx : ∀ {K}, Stays r (frames + 1) K x P) :
    Stays r frames K (inFrame (.ofParams params returns) span x) fun g a => P g a.1 := by
  have henter : Ensures Grows (Inside r frames) K (modifyScope fun scope => .ofParams params returns :: scope)
      (Inside r (frames + 1)) fun _ _ => True :=
    modifyScope_stays fun s hK hs =>
      ⟨fun v hv => (mem_types_ofParams hv).elim (hparams s hK v) (hs.scope v), congrArg Nat.succ hs.frames⟩
  have hexit {K : Drafting → Prop} : Ensures Grows (Inside r (frames + 1)) K (modifyScope List.tail)
      (Inside r frames) fun _ _ => True := by
    refine modifyScope_stays fun s _ hs => ⟨fun v hv => hs.scope v ?_, ?_⟩
    · obtain ⟨frame, scope, hscope⟩ := List.exists_cons_of_length_eq_add_one hs.frames
      rw [hscope] at hv ⊢
      exact List.mem_append_right _ hv
    · rw [List.length_tail, hs.frames, Nat.add_sub_cancel]
  refine Ensures.bind grows_kept henter fun _ => Ensures.bind grows_kept hx fun a =>
    Ensures.bind grows_kept get_stays fun s => Ensures.bind grows_kept hexit fun _ => ?_
  change Stays r frames _ _ fun g (a : β × NameSet) => P g a.1
  dsimp only
  split
  · exact .pure fun _ ht => ht.2.2.1
  · refine .skip (emit_alone_stays (fun t ht => ?_) rfl) fun _ => .pure fun _ ht => ht.2.2.1
    obtain ⟨frame, scope, hscope⟩ := List.exists_cons_of_length_eq_add_one ht.2.1.2
    rw [hscope, List.headD_cons]
    exact ht.2.1.1 _ (hscope ▸ returns_mem_types)

theorem isolated_stays (hx : ∀ {K}, Stays r 1 K x P) : Stays r frames K (isolated x) P := by
  refine .bind get_stays fun s => .bind fresh_stays fun returns => ?_
  have henter {K : Drafting → Prop} (hreturns : ∀ t, K t → t.graph.Known r returns) :
      Ensures Grows (Inside r frames) K (modifyScope fun _ => [.ofParams [] returns]) (Inside r 1) fun _ _ => True :=
    modifyScope_stays fun t ht _ => ⟨fun v hv => (@mem_types_ofParams [] _ _ [] hv).elim
      (List.forall_mem_singleton.2 (hreturns t ht) v) nofun, rfl⟩
  refine Ensures.bind grows_kept (henter fun _ ht => ht.1) fun _ => Ensures.bind grows_kept hx fun _ =>
    Ensures.bind grows_kept (modifyScope_stays fun t ht _ => ht.2.2.2.1) fun _ => ?_
  change Stays r frames _ _ P
  exact .pure fun _ ht => ht.2.1

/-! ### References -/

theorem mem_types_useProcedure {u : Usages} {usage : ProcedureUsage} {v : TypeVar}
    (h : v ∈ Usages.types { u with procedures := u.procedures.push usage }) :
    v ∈ u.types ∨ v ∈ usage.returns :: usage.args := by
  simp only [Usages.types, Array.toList_push, List.flatMap_append, List.flatMap_cons, List.flatMap_nil,
    List.append_nil, List.mem_append] at h ⊢
  rcases h with (h | h) | h
  · exact .inl (.inl h)
  · exact .inr h
  · exact .inl (.inr h)

theorem mem_types_useVariable {u : Usages} {usage : VariableUsage} {v : TypeVar}
    (h : v ∈ Usages.types { u with globals := u.globals.push usage }) : v ∈ u.types ∨ v = usage.type := by
  simp only [Usages.types, Array.toList_push, List.map_append, List.map_cons, List.map_nil, List.mem_append,
    List.mem_singleton] at h ⊢
  rcases h with h | h | h
  · exact .inl (.inl h)
  · exact .inl (.inr h)
  · exact .inr h

theorem useProcedure_stays {usage : ProcedureUsage}
    (h : ∀ t, K t → t.graph.AllKnown r (usage.returns :: usage.args)) :
    Stays r frames K (useProcedure usage) fun _ _ => True where
  ok {s i s'} hs hK hrun := by
    obtain ⟨rfl, rfl⟩ := ok_eq_ok_iff.1 hrun
    refine ⟨⟨hs.closed, hs.constraints, fun v hv => ?_, hs.scope, hs.frames⟩, .refl, fun _ _ => trivial⟩
    exact (mem_types_useProcedure hv).elim (hs.usages v) (h s (hK.here grows_kept) v)

theorem useVariable_stays {usage : VariableUsage} (h : ∀ t, K t → t.graph.Known r usage.type) :
    Stays r frames K (useVariable usage) fun _ _ => True where
  ok {s i s'} hs hK hrun := by
    obtain ⟨rfl, rfl⟩ := ok_eq_ok_iff.1 hrun
    refine ⟨⟨hs.closed, hs.constraints, fun v hv => ?_, hs.scope, hs.frames⟩, .refl, fun _ _ => trivial⟩
    exact (mem_types_useVariable hv).elim (hs.usages v) fun hv => hv ▸ h s (hK.here grows_kept)

theorem accessLocal_stays {name : String} {assigned : Bool} :
    Stays r frames K (accessLocal name span assigned) fun g found => ∀ type, found = some type → g.Known r type where
  ok {s found s'} hs hK hrun := by
    obtain ⟨y, hy, hrun⟩ := get_bind_eq_ok_iff.1 hrun
    split at hy <;> subst hy
    · exact (throw_eq_ok_iff.1 hrun).elim
    · obtain ⟨rfl, rfl⟩ := pure_eq_ok_iff.1 hrun
      exact ⟨hs, .refl, fun _ _ => nofun⟩
    · rename_i type scope haccess
      obtain ⟨⟨⟩, s₁, hmodify, hrun⟩ := bind_eq_ok_iff.1 hrun
      obtain ⟨rfl, rfl⟩ := pure_eq_ok_iff.1 hrun
      obtain rfl := modify_eq_ok_iff.1 hmodify
      obtain ⟨hlookup, hlayout⟩ := Scope.access_ok haccess
      have hlength : scope.length = s.scope.length := by
        simpa [Scope.layout] using congrArg List.length hlayout
      refine ⟨⟨hs.closed, hs.constraints, hs.usages, fun v hv => hs.scope v (hlayout ▸ hv), hlength.trans hs.frames⟩,
        .refl, fun t ht type' htype => ?_⟩
      obtain rfl := Option.some.inj htype
      exact known_grows ht (hs.scope _ (Layout.mem_types_of_lookup hlookup))

theorem callsProcedure_stays {context : DraftContext} {path : Path} :
    Stays r frames K (callsProcedure context path) fun _ _ => True :=
  .look fun _ => .pure fun _ _ => trivial

theorem targetPath_stays {target : Target} : Stays r frames K (targetPath target span) fun _ _ => True := by
  cases target with
  | pending i => exact .throw
  | resolved path variant => exact .pure fun _ _ => trivial

theorem unifyElements_stays {element : TypeVar} {es : List (Expr TypeVar)}
    (helement : ∀ t, K t → t.graph.Known r element) (hes : ∀ t, K t → t.graph.AllKnown r (es.map Expr.note)) :
    Stays r frames K (unifyElements element es) fun _ _ => True := by
  induction es with
  | nil => exact .pure fun _ _ => trivial
  | cons e es ih =>
    exact .skip (emit_with_stays helement rfl fun t ht => (List.forall_mem_cons.1 (hes t ht)).1) fun _ =>
      ih fun t ht => (List.forall_mem_cons.1 (hes t ht)).2

theorem binaryType_stays {op : BinaryOp} {left right : Expr TypeVar}
    (hleft : ∀ t, K t → t.graph.Known r left.note) (hright : ∀ t, K t → t.graph.Known r right.note) :
    Stays r frames K (binaryType op left right span) fun g v => g.Known r v := by
  have hunify : Stays r frames K (emit left.note span (.unify right.note)) fun _ _ => True :=
    emit_with_stays hleft rfl hright
  unfold binaryType
  split
  · exact .skip (emit_alone_stays hleft rfl) fun _ => .skip hunify fun _ => .pure hleft
  split
  · exact .skip (emit_alone_stays hleft rfl) fun _ => .skip hunify fun _ => typed_stays
  split
  · exact .skip hunify fun _ => typed_stays
  · exact .skip (emit_alone_stays hleft rfl) fun _ => .skip hunify fun _ => .pure hleft

end DraftM

/-! ### Drafts -/

namespace Draft

variable {d : Draft} {g g' : TypeGraph}

/-- Where a draft's constraints are applied: a region of its own that has all their variables, and those of
its signature and its usages. -/
structure Regional (d : Draft) (g : TypeGraph) (r : Set TypeVar) : Prop where
  closed : g.Closed r
  constraints : ∀ c ∈ d.constraints, ∀ v ∈ c.vars, g.Known r v
  signature : ∀ v ∈ d.returns :: d.args, g.Known r v
  usages : ∀ v ∈ d.usages.types, g.Known r v

theorem run_stays {x : DraftM (List TypeVar × TypeVar × List (Expr TypeVar))}
    {P : TypeGraph → List TypeVar × TypeVar × List (Expr TypeVar) → Prop}
    (hx : DraftM.Stays g.future 0 (fun _ => True) x fun g' a => g'.AllKnown g.future (a.2.1 :: a.1) ∧ P g' a)
    (h : run x g = (.ok d, g')) : d.Regional g' g.future ∧ P g' (d.args, d.returns, d.body) := by
  unfold run at h
  split at h <;> cases h
  rename_i s hrun
  have hstart : Drafting.Inside g.future 0 ⟨g, [], #[], ⟨#[], #[]⟩⟩ :=
    ⟨g.closed_future, by simp, List.forall_mem_nil _, List.forall_mem_nil _, rfl⟩
  obtain ⟨hs, -, hP⟩ := hx.ok hstart (fun _ _ => trivial) hrun
  obtain ⟨hsignature, hP⟩ := hP s .refl
  exact ⟨⟨hs.closed, fun c hc => hs.constraints c (Array.mem_toList_iff.1 hc), hsignature, hs.usages⟩, hP⟩

end Draft
end Monomorph
