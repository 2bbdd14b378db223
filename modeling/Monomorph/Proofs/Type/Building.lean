import Monomorph.Proofs.Type.Confining

/-! # New types mention what is known

What is added to a graph of types belongs to every region that contains the variables it mentions: the variables of a
native signature in which no variable is out of range (`NativeSignature.instantiate_known`), and those of a written
type (`WrittenType.build_builds`). In particular it leaves a well-formed graph well-formed. -/

namespace Monomorph

open Outcome TypeGraph

namespace TypeGraph

variable {g g' : TypeGraph} {s : Set TypeVar}

abbrev Allocated (g : TypeGraph) (vs : List TypeVar) : Prop := ∀ v ∈ vs, v.index < g.size

theorem Allocated.mono {vs : List TypeVar} (h : g.Allocated vs) (hsize : g.size ≤ g'.size) : g'.Allocated vs :=
  fun v hv => Nat.lt_of_lt_of_le (h v hv) hsize

theorem Allocated.getD {vs : List TypeVar} (h : g.Allocated vs) (hsize : 0 < g.size) (i : Nat) :
    (vs.getD i default).index < g.size := by
  rw [List.getD_eq_getElem?_getD]
  cases hv : vs[i]? with
  | none => exact hsize
  | some v => exact h v (List.mem_of_getElem? hv)

theorem Allocated.known {vs : List TypeVar} (h : g.Allocated vs) : g.AllKnown Set.univ vs :=
  fun v hv => ⟨trivial, h v hv⟩

theorem AllKnown.allocated {vs : List TypeVar} (h : g.AllKnown s vs) : g.Allocated vs := fun v hv => (h v hv).2

end TypeGraph

/-! ### Native signatures -/

theorem Demand.vars_mapVars (f : TypeVar → TypeVar) (d : Demand) : (d.mapVars f).vars = d.vars.map f := by
  cases d <;> simp [Demand.mapVars, Demand.vars]

namespace NativeSignature

/-- The variables of a signature are its own. -/
def InRange (n : NativeSignature) : Prop :=
  ∀ v ∈ n.returns :: n.args ++ n.demands.flatMap (fun d => d.1 :: d.2.vars), v.index < n.varCount

instance (n : NativeSignature) : Decidable n.InRange :=
  inferInstanceAs (Decidable (∀ v ∈ _, _))

variable {n : NativeSignature} {span : Span} {g : TypeGraph} {s : Set TypeVar}

theorem size_instantiate : (n.instantiate span g).2.size = g.size + n.varCount := by
  simp [instantiate, size]

theorem instantiate_new {i : Nat} (hi : g.size ≤ i) :
    (n.instantiate span g).2.rootIndex i = i ∧ (n.instantiate span g).2.kind ⟨i⟩ = .any := by
  by_cases hlt : i < (n.instantiate span g).2.size
  · have hcell : (n.instantiate span g).2.cells[i]? = some (.root Ty.any) := by
      rw [size_instantiate] at hlt
      simp only [instantiate, size] at hi hlt ⊢
      rw [Array.getElem?_append_right hi, Array.getElem?_replicate, if_pos (by omega)]
    have hroot : (n.instantiate span g).2.rootIndex i = i := by
      rw [rootIndex, hcell]
    refine ⟨hroot, ?_⟩
    rw [kind, get_eq_typeAt, hroot, typeAt, hcell]
    rfl
  · exact ⟨rootIndex_of_size_le (Nat.le_of_not_lt hlt), size_le_of_kind_eq_any (Nat.le_of_not_lt hlt)⟩

theorem confines_instantiate : Confines s g (n.instantiate span g).2 :=
  (n.instantiate_extends span g).confines (fun _ hi => (instantiate_new hi).1) fun v hv w hw => by
    rw [(instantiate_new hv).2] at hw
    cases hw

theorem instantiate_wellFormed (hg : g.WellFormed) : (n.instantiate span g).2.WellFormed :=
  (confines_instantiate hg.closed).1.wellFormed

theorem instantiate_known (n : NativeSignature) (span : Span) (hs : g.Closed s) (hn : n.InRange) :
    (n.instantiate span g).2.AllKnown s
      ((n.instantiate span g).1.returns :: (n.instantiate span g).1.args ++
        (n.instantiate span g).1.constraints.flatMap Constraint.vars) := by
  have hvars : (n.instantiate span g).1.returns :: (n.instantiate span g).1.args ++
      (n.instantiate span g).1.constraints.flatMap Constraint.vars =
        (n.returns :: n.args ++ n.demands.flatMap fun d => d.1 :: d.2.vars).map fun v =>
          (⟨g.size + v.index⟩ : TypeVar) := by
    simp [instantiate, Constraint.vars, Demand.vars_mapVars, List.map_flatMap, List.flatMap_map]
  rw [hvars]
  intro v hv
  obtain ⟨u, hu, rfl⟩ := List.mem_map.1 hv
  refine ⟨hs.fresh (Nat.le_add_right _ _), ?_⟩
  rw [size_instantiate]
  exact Nat.add_lt_add_left (hn u hu) _

theorem instantiate_allocates (n : NativeSignature) (span : Span) (g : TypeGraph) (hn : n.InRange) :
    (n.instantiate span g).2.Allocated
      ((n.instantiate span g).1.returns :: (n.instantiate span g).1.args ++
        (n.instantiate span g).1.constraints.flatMap Constraint.vars) :=
  (n.instantiate_known span g.closed_future hn).allocated

end NativeSignature

/-! ### Written types -/

namespace WrittenType

mutual

/-- The variables of the graph that a written type mentions. -/
def vars : WrittenType → List TypeVar
  | plain kind => kind.children
  | array element => vars element
  | object members _ _ => namedVars members
  | union variants _ => namedVars variants
  | closure args returns => allVars args ++ vars returns
  | existing v => [v]
  | recursive _ body => vars body
  | self _ => []

def namedVars : List (String × WrittenType) → List TypeVar
  | [] => []
  | (_, t) :: rest => vars t ++ namedVars rest

def allVars : List WrittenType → List TypeVar
  | [] => []
  | t :: rest => vars t ++ allVars rest

end

/-- While some variables of a region are known, the computation is confined to the region, and `vars` of its result
are known of it. -/
abbrev Builds {α : Type} (s : Set TypeVar) (known : List TypeVar) (x : TypeM α) (vars : α → List TypeVar) : Prop :=
  Maintains (ChangesIn s) (fun g => g.Closed s) (fun g => g.AllKnown s known) x fun g a => g.AllKnown s (vars a)

variable {s : Set TypeVar}

section steps

variable {α β : Type} {known known' : List TypeVar} {x : TypeM α} {f : α → TypeM β} {vars : α → List TypeVar}
  {vars' : β → List TypeVar}

theorem Builds.bind (hx : Builds s known x vars) (hf : ∀ a, Builds s (vars a ++ known) (f a) vars') :
    Builds s known (x >>= f) vars' :=
  Maintains.bind (changesIn_kept s) hx fun a =>
    (hf a).imp (fun _ ht => List.forall_mem_append.2 ht) (fun _ _ _ h => h) (changesIn_kept s)

theorem Builds.pure {a : α} (h : vars a ⊆ known) : Builds s known (Pure.pure a) vars :=
  Maintains.pure (changesIn_kept s) fun _ ht v hv => ht v (h hv)

theorem Builds.mono (hx : Builds s known x vars) (h : known ⊆ known') : Builds s known' x vars :=
  hx.imp (fun _ ht v hv => ht v (h hv)) (fun _ _ _ h => h) (changesIn_kept s)

theorem allocate_builds {t : Ty} (ht : t.kind.children ⊆ known) : Builds s known (allocate t) fun v => [v] where
  ok {g v g'} hs hknown hrun := by
    have hchildren : g.AllKnown s t.kind.children := fun v hv => hknown.here (changesIn_kept s) v (ht hv)
    obtain ⟨hs', hchanges⟩ := (allocate_confines hchildren).ok hrun hs
    obtain ⟨rfl, rfl⟩ := ok_eq_ok_iff.1 hrun
    exact ⟨hs', hchanges, fun _ ht => ht.allKnown (List.forall_mem_singleton.2 (hs.known_size t))⟩
  error _ _ hrun := by cases hrun

theorem settle_builds {v : TypeVar} {kind : Kind} {span : Option Span} (hv : v ∈ known) (h : kind.children ⊆ known) :
    Builds s known (settle v kind span) fun _ => [] :=
  (Maintains.of_keepsAt (changesIn_kept s) fun hs hknown =>
    let hsettle := settle_confines (hknown v hv) fun w hw => hknown w (h hw)
    ⟨fun hok => hsettle.ok hok hs, fun herror => hsettle.error herror hs⟩).imp (fun _ ht => ht)
      (fun _ _ _ _ => List.forall_mem_nil _) (changesIn_kept s)

theorem kind_builds {v : TypeVar} (hv : v ∈ known) :
    Builds s known (get >>= fun g : TypeGraph => Pure.pure (g.kind v)) Kind.children where
  ok {g k g'} hs hknown h := by
    obtain ⟨y, rfl, h⟩ := get_bind_eq_ok_iff.1 h
    obtain ⟨rfl, rfl⟩ := pure_eq_ok_iff.1 h
    exact ⟨hs, (changesIn_kept s).refl g, fun t ht => ht.allKnown fun w hw =>
      hs.child (hknown.here (changesIn_kept s) v hv).1 hw⟩
  error _ _ hrun := by cases hrun

end steps

theorem values_ofList_subset (l : List (String × TypeVar)) : (Row.ofList l).values ⊆ l.map (·.2) := by
  intro v hv
  obtain ⟨name, hname⟩ := (Row.mem_values_iff _).1 hv
  exact List.mem_map_of_mem (Row.mem_of_get?_ofList hname)

/-- A recursive type: what is inside may mention its own variable. -/
theorem recursive_builds {α : Type} {known : List TypeVar} {origin : Option Span} {shape : TypeVar → TypeM Kind}
    {result : TypeVar → Kind → α} {vars : α → List TypeVar}
    (hshape : ∀ v, Builds s (v :: known) (shape v) Kind.children)
    (hresult : ∀ v k, vars (result v k) ⊆ k.children ++ v :: known) :
    Builds s known (do
      let v ← fresh
      let k ← shape v
      settle v k origin
      return result v k) vars :=
  .bind (allocate_builds (List.nil_subset _)) fun v => .bind (hshape v) fun k =>
    .bind (settle_builds (List.mem_append_right _ List.mem_cons_self) (List.subset_append_left _ _)) fun _ =>
      .pure (hresult v k)

theorem mem_of_lookup {enclosing : Enclosing} {name : String} {v : TypeVar} (h : enclosing.lookup name = some v) :
    v ∈ enclosing.map (·.2) := by
  obtain ⟨before, after, rfl, -⟩ := List.lookup_eq_some_iff.1 h
  simp

mutual

theorem shape_builds (origin : Option Span) : (enclosing : Enclosing) → (t : WrittenType) →
    Builds s (enclosing.map (·.2) ++ t.vars) (shape origin enclosing t) Kind.children
  | _, .plain kind => .pure (List.subset_append_right _ _)
  | enclosing, .array element => .bind (build_builds origin enclosing element) fun v => .pure (by
      simp [Kind.children])
  | enclosing, .object members _ _ => .bind (buildNamed_builds origin enclosing members) fun vs => .pure
      (List.Subset.trans (values_ofList_subset vs) (List.subset_append_left _ _))
  | enclosing, .union variants _ => .bind (buildNamed_builds origin enclosing variants) fun vs => .pure
      (List.Subset.trans (values_ofList_subset vs) (List.subset_append_left _ _))
  | enclosing, .closure args returns => by
    rw [shape]
    refine .bind ((buildAll_builds origin enclosing args).mono ?_) fun vs =>
      .bind ((build_builds origin enclosing returns).mono ?_) fun v => .pure ?_
    all_goals
      intro v
      simp only [vars, Kind.children, List.mem_append, List.mem_singleton]
      grind
  | _, .existing v => kind_builds (List.mem_append_right _ (List.mem_singleton_self v))
  | enclosing, .recursive name body => by
    rw [shape]
    exact recursive_builds (fun v => shape_builds origin ((name, v) :: enclosing) body)
      fun v k => List.subset_append_left _ _
  | enclosing, .self name => by
    rw [shape]
    split
    · rename_i v hv
      exact kind_builds (List.mem_append_left _ (mem_of_lookup hv))
    · exact .pure (List.nil_subset _)

theorem build_builds (origin : Option Span) : (enclosing : Enclosing) → (t : WrittenType) →
    Builds s (enclosing.map (·.2) ++ t.vars) (build origin enclosing t) fun v => [v]
  | _, .plain kind => allocate_builds (List.subset_append_right _ _)
  | enclosing, .array element => .bind (build_builds origin enclosing element) fun v =>
      allocate_builds (by simp [Kind.children])
  | enclosing, .object members _ _ => .bind (buildNamed_builds origin enclosing members) fun vs =>
      allocate_builds (List.Subset.trans (values_ofList_subset vs) (List.subset_append_left _ _))
  | enclosing, .union variants _ => .bind (buildNamed_builds origin enclosing variants) fun vs =>
      allocate_builds (List.Subset.trans (values_ofList_subset vs) (List.subset_append_left _ _))
  | enclosing, .closure args returns => by
    rw [build]
    refine .bind ((buildAll_builds origin enclosing args).mono ?_) fun vs =>
      .bind ((build_builds origin enclosing returns).mono ?_) fun v => allocate_builds ?_
    all_goals
      intro v
      simp only [vars, Kind.children, List.mem_append, List.mem_singleton]
      grind
  | _, .existing v => .pure (by simp [vars])
  | enclosing, .recursive name body => by
    rw [build]
    exact recursive_builds (fun v => shape_builds origin ((name, v) :: enclosing) body)
      fun v k => by simp
  | enclosing, .self name => by
    rw [build]
    split
    · rename_i v hv
      exact .pure (List.cons_subset.2 ⟨List.mem_append_left _ (mem_of_lookup hv), List.nil_subset _⟩)
    · exact allocate_builds (List.nil_subset _)

theorem buildNamed_builds (origin : Option Span) : (enclosing : Enclosing) →
    (ts : List (String × WrittenType)) →
      Builds s (enclosing.map (·.2) ++ namedVars ts) (buildNamed origin enclosing ts) fun vs => vs.map (·.2)
  | _, [] => .pure (List.nil_subset _)
  | enclosing, (name, t) :: rest => by
    rw [buildNamed]
    refine .bind ((build_builds origin enclosing t).mono ?_) fun v =>
      .bind ((buildNamed_builds origin enclosing rest).mono ?_) fun vs => .pure ?_
    all_goals
      intro v
      simp only [namedVars, List.mem_append, List.map_cons, List.mem_cons]
      grind

theorem buildAll_builds (origin : Option Span) : (enclosing : Enclosing) → (ts : List WrittenType) →
    Builds s (enclosing.map (·.2) ++ allVars ts) (buildAll origin enclosing ts) fun vs => vs
  | _, [] => .pure (List.nil_subset _)
  | enclosing, t :: rest => by
    rw [buildAll]
    refine .bind ((build_builds origin enclosing t).mono ?_) fun v =>
      .bind ((buildAll_builds origin enclosing rest).mono ?_) fun vs => .pure ?_
    all_goals
      intro v
      simp only [allVars, List.mem_append, List.mem_cons]
      grind

end

/-- The variable of a declared type is allocated, whatever the types of the graph are. -/
theorem build_allocated {origin : Option Span} {t : WrittenType} {g g' : TypeGraph} {v : TypeVar}
    (ht : g.Allocated t.vars) (h : t.build origin [] g = .ok v g') : v.index < g'.size := by
  have hnew {t : Ty} {g : TypeGraph} (h : allocate t g = .ok v g') : v.index < g'.size := by
    obtain ⟨rfl, rfl⟩ := ok_eq_ok_iff.1 h
    exact Nat.lt_of_lt_of_eq (Nat.lt_succ_self _) (size_alloc g t).symm
  cases t with
  | plain | self => exact hnew h
  | array | object | union =>
    obtain ⟨_, _, _, h⟩ := bind_eq_ok_iff.1 h
    exact hnew h
  | closure =>
    obtain ⟨_, _, _, h⟩ := bind_eq_ok_iff.1 h
    obtain ⟨_, _, _, h⟩ := bind_eq_ok_iff.1 h
    exact hnew h
  | existing w =>
    obtain ⟨rfl, rfl⟩ := pure_eq_ok_iff.1 h
    exact ht _ (List.mem_singleton_self _)
  | recursive name body =>
    obtain ⟨w, g₁, hw, h⟩ := bind_eq_ok_iff.1 h
    obtain ⟨kind, g₂, hkind, h⟩ := bind_eq_ok_iff.1 h
    obtain ⟨⟨⟩, g₃, hset, h⟩ := bind_eq_ok_iff.1 h
    obtain ⟨rfl, rfl⟩ := pure_eq_ok_iff.1 h
    obtain ⟨rfl, rfl⟩ := ok_eq_ok_iff.1 hw
    obtain ⟨-, rfl⟩ := ok_eq_ok_iff.1 hset
    have hsize := ((shape_extends origin _ body _).ok hkind).size_le
    rw [size_set]
    exact Nat.lt_of_lt_of_le (Nat.lt_of_lt_of_eq (Nat.lt_succ_self _) (size_alloc g Ty.any).symm) hsize

end WrittenType
end Monomorph
