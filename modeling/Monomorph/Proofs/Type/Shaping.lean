import Mathlib
import Monomorph.Proofs.Type.Demands
import Monomorph.Proofs.Type.Mirroring

/-! # Demanding a shape is unifying with it

Nine demands ask for a shape and for nothing else (`Demand.isShape`). Applying one goes through its own table of
kinds; unifying the target with a new variable of the shape goes through the table of the meet. They
agree.

* The table of the constraint gives the target the meet of its kind and the shape, and unifies the same
  pairs inside (`Constraint.apply_shapes`).
* So the solutions afterwards are those of the graph in which the target can have the shape
  (`Constraint.apply_spec`). A new variable is not allocated before, and a solution is free to relate it
  to the target; so these are the solutions after unifying with the new variable as well, apart from that variable.
* Hence the classes of the variables that were there are the same, and their kinds refine each other.

Main statement: `Constraint.apply_agrees`. -/

namespace Monomorph

open Outcome TypeGraph

/-- Whether a demand asks for a shape and for nothing else. -/
def Demand.isShape : Demand → Bool
  | limitMembers _ | limitVariants _ | variantsOfExcept .. | unify _ => false
  | _ => true

theorem Demand.mem_vars_of_mem_shape {d : Demand} {w : TypeVar} (h : w ∈ d.shape.children) : w ∈ d.vars := by
  cases d with
  | isBase base =>
    cases base <;> cases h
  | hasMember | hasVariant => exact List.mem_singleton.2 (eq_of_mem_values_single h)
  | hasElement | hasSignature => exact h
  | _ => cases h

/-- Unify the target with a new variable of the shape demanded. -/
def Constraint.unifyShape (c : Constraint) (origin : Option Span) (span : Span) : TypeM Unit := do
  let shaped ← allocate ⟨c.demand.shape, origin⟩
  unify c.target shaped span

namespace TypeGraph

variable {g g' : TypeGraph} {r : VarRel} {v w : TypeVar} {k l : Kind} {m : Meet}

/-! ### Giving a class a kind -/

/-- The graph `g'` is `g` with the kind `k` for the class of `v`. -/
structure Retypes (g : TypeGraph) (v : TypeVar) (k : Kind) (g' : TypeGraph) : Prop where
  size : g'.size = g.size
  root : ∀ i, g'.rootIndex i = g.rootIndex i
  kind : ∀ w, g'.kind w = if g.same v w then k else g.kind w

theorem retypes_self (h : g.kind v = k) : g.Retypes v k g := by
  refine ⟨rfl, fun _ => rfl, fun w => ?_⟩
  split
  · rename_i hsame
    rw [← h, kind_eq_of_same hsame]
  · rfl

theorem retypes_set (hv : v.index < g.size) (k : Kind) (origin : Option Span) :
    g.Retypes v k (g.set v ⟨k, origin⟩) := by
  refine ⟨size_set g v _, rootIndex_set g v _, fun w => ?_⟩
  rw [TypeGraph.kind, get_set hv]
  split <;> rfl

theorem Retypes.same_iff (h : g.Retypes v k g') {a b : TypeVar} : g'.Same a b ↔ g.Same a b := by
  rw [TypeGraph.same_iff, TypeGraph.same_iff, h.root, h.root]

/-- Some kind refines all kinds of the class of `v` and the kind `k`. -/
def Admits (g : TypeGraph) (r : VarRel) (v : TypeVar) (k : Kind) : Prop :=
  ∃ l, g.LowerBound r v l ∧ l.Refines r k

theorem LowerBound.of_rel (hr : Equivalence r) (h : g.LowerBound r v l) (hwv : r w v) : g.LowerBound r w l :=
  fun u hwu => h u (hr.trans (hr.symm hwv) hwu)

section meet

variable (hm : (g.kind v).meet k = .ok m) (hretypes : g.Retypes v (m.kind (g.kind v) k) g')
include hm hretypes

/-- What refines the kinds of a class after it was given the meet with `k` is what refined them before and
refines `k`. -/
theorem Retypes.lowerBound_iff (hr : Equivalence r) (hsame : ∀ {a b}, g.Same a b → r a b)
    (hinner : ∀ p ∈ m.inner, r p.left p.right) (w : TypeVar) (l : Kind) :
    g'.LowerBound r w l ↔ g.LowerBound r w l ∧ (r w v → l.Refines r k) := by
  have hspec := Kind.meet_spec hr (g.kind v) k
  rw [hm] at hspec
  have hmeet := hspec.1 hinner l
  constructor
  · intro h
    refine ⟨fun u hwu => ?_, fun hwv => ?_⟩
    · have hl := h u hwu
      rw [hretypes.kind] at hl
      split at hl
      · rename_i hvu
        exact kind_eq_of_same hvu ▸ (hmeet.1 hl).1
      · exact hl
    · have hl := h v hwv
      rw [hretypes.kind, if_pos (show g.same v v = true from g.same_equivalence.refl v)] at hl
      exact (hmeet.1 hl).2
  · rintro ⟨h, hk⟩ u hwu
    rw [hretypes.kind]
    split
    · rename_i hvu
      have hwv : r w v := hr.trans hwu (hr.symm (hsame hvu))
      exact hmeet.2 ⟨h v hwv, hk hwv⟩
    · exact h u hwu

/-- The solutions that relate the pairs inside are those in which the class can have the kind `k`. -/
theorem Retypes.solution_iff :
    g'.Solution r ∧ (∀ p ∈ m.inner, r p.left p.right) ↔ g.Solution r ∧ g.Admits r v k := by
  constructor
  · rintro ⟨h, hinner⟩
    have hsame {a b : TypeVar} (hab : g.Same a b) : r a b := h.same (hretypes.same_iff.2 hab)
    have hbound := hretypes.lowerBound_iff hm h.equivalence hsame hinner
    refine ⟨.of_common h.equivalence hsame fun w => ?_, ?_⟩
    · obtain ⟨l, hl⟩ := h.common w
      exact ⟨l, ((hbound w l).1 hl).1⟩
    · obtain ⟨l, hl⟩ := h.common v
      obtain ⟨hl, hk⟩ := (hbound v l).1 hl
      exact ⟨l, hl, hk (h.equivalence.refl v)⟩
  · rintro ⟨h, l, hl, hk⟩
    have hspec := Kind.meet_spec h.equivalence (g.kind v) k
    rw [hm] at hspec
    have hinner := hspec.2 l (hl v (h.equivalence.refl v)) hk
    have hbound := hretypes.lowerBound_iff hm h.equivalence h.same hinner
    refine ⟨.of_common h.equivalence (fun hab => h.same (hretypes.same_iff.1 hab)) fun w => ?_, hinner⟩
    by_cases hwv : r w v
    · exact ⟨l, (hbound w l).2 ⟨hl.of_rel h.equivalence hwv, fun _ => hk⟩⟩
    · obtain ⟨l', hl'⟩ := h.common w
      exact ⟨l', (hbound w l').2 ⟨hl', fun hwv' => absurd hwv' hwv⟩⟩

theorem Retypes.wellFormed (hg : g.WellFormed) (hk : ∀ w ∈ k.children, w.index < g.size) : g'.WellFormed := by
  intro u w hw
  rw [hretypes.size]
  rw [hretypes.kind] at hw
  split at hw
  · rcases (Kind.meet_vars hm).1 w hw with hw | hw
    · exact hg v w hw
    · exact hk w hw
  · exact hg u w hw

end meet

/-- Two types of which one is not refined by what refines the other. -/
theorem not_admits_of_clash {clash : Clash} (hr : Equivalence r) (hm : (g.kind v).meet k = .error clash) :
    ¬ g.Admits r v k := by
  rintro ⟨l, hl, hk⟩
  have hspec := Kind.meet_spec hr (g.kind v) k
  rw [hm] at hspec
  exact hspec l (hl v (hr.refl v)) hk

/-! ### Unifying the pairs inside -/

def unifyInner (span : Span) (inner : List InnerPair) : TypeM Unit :=
  inner.forM fun p => unifyAt p.left p.right span [p.step]

theorem unifyInner_single (span : Span) (p : InnerPair) :
    unifyInner span [p] = unifyAt p.left p.right span [p.step] :=
  bind_pure_unit

theorem unifyInner_append (span : Span) (inner inner' : List InnerPair) :
    unifyInner span (inner ++ inner') = (do unifyInner span inner; unifyInner span inner') :=
  List.forM_append

def pendingInner (inner : List InnerPair) : List PendingPair :=
  inner.map fun p => ⟨p.left, p.right, [p.step]⟩

theorem relates_pendingInner {inner : List InnerPair} :
    Relates r (pendingInner inner) ↔ ∀ p ∈ inner, r p.left p.right := by
  simp only [Relates, pendingInner, List.forall_mem_map]

theorem unifyInner_spec {s : Set TypeVar} (span : Span) {inner : List InnerPair} (hs : g.Closed s)
    (hinner : ∀ p ∈ inner, g.Known s p.left ∧ g.Known s p.right) :
    g.UnifySpec s (pendingInner inner) (unifyInner span inner g) := by
  induction inner generalizing g with
  | nil => exact ⟨hs, rfl, fun r => ⟨fun h => ⟨h, nofun⟩, And.left⟩, fun _ _ _ _ => Iff.rfl⟩
  | cons p inner ih =>
    obtain ⟨hp, hinner⟩ := List.forall_mem_cons.1 hinner
    have hfirst := unifyAll_spec span g [⟨p.left, p.right, [p.step]⟩] hs (List.forall_mem_singleton.2 hp)
    have hrun : unifyInner span (p :: inner) =
        EStateM.bind (unifyAt p.left p.right span [p.step]) fun _ => unifyInner span inner := rfl
    rw [hrun, EStateM.bind,
      show unifyAt p.left p.right span [p.step] g = g.unifyAll span [⟨p.left, p.right, [p.step]⟩] from rfl]
    generalize g.unifyAll span [⟨p.left, p.right, [p.step]⟩] = result at hfirst
    cases result with
    | ok u g' =>
      have hknown {v : TypeVar} (hv : g.Known s v) : g'.Known s v := ⟨hv.1, hfirst.2.1 ▸ hv.2⟩
      exact hfirst.append (ih hfirst.1 fun q hq => (hinner q hq).imp hknown hknown)
    | error e g' =>
      intro r hr hrel
      exact hfirst r hr (relates_cons.2 ⟨(relates_cons.1 hrel).1, nofun⟩)

/-! ### What giving a shape is to come to -/

/-- The class of `v` is given the meet with `k` and the pairs inside are unified, or there is a clash and
nothing happens. -/
def Shapes (g : TypeGraph) (v : TypeVar) (k : Kind) (span : Span) (x : TypeM Unit) : Prop :=
  match (g.kind v).meet k with
  | .ok m => ∃ g', g.Retypes v (m.kind (g.kind v) k) g' ∧ x g = unifyInner span m.inner g'
  | .error _ => ∃ e, x g = .error e g

/-- The graph has the solutions in which the class of `v` can have the kind `k`, or there is none. -/
def ShapeSpec (g : TypeGraph) (v : TypeVar) (k : Kind) : EStateM.Result TypeError TypeGraph Unit → Prop
  | .ok _ g' => g'.WellFormed ∧ g'.size = g.size ∧ (∀ r, g'.Solution r ↔ g.Solution r ∧ g.Admits r v k) ∧
      ∀ r, g'.Solution r → ∀ w l, g'.LowerBound r w l ↔ g.LowerBound r w l ∧ (r w v → l.Refines r k)
  | .error _ _ => ∀ r, g.Solution r → ¬ g.Admits r v k

theorem Shapes.spec {span : Span} {x : TypeM Unit} (h : g.Shapes v k span x) (hg : g.WellFormed)
    (hk : ∀ w ∈ k.children, w.index < g.size) : g.ShapeSpec v k (x g) := by
  unfold Shapes at h
  split at h
  · rename_i m hm
    obtain ⟨g', hretypes, hrun⟩ := h
    have hg' := hretypes.wellFormed hm hg hk
    have hknown : ∀ p ∈ m.inner, g'.Known Set.univ p.left ∧ g'.Known Set.univ p.right := by
      intro p hp
      obtain ⟨hleft, hright⟩ := (Kind.meet_vars hm).2 p hp
      exact ⟨⟨trivial, hretypes.size ▸ hg v _ hleft⟩, ⟨trivial, hretypes.size ▸ hk _ hright⟩⟩
    have hspec := unifyInner_spec span hg'.closed hknown
    rw [hrun]
    generalize unifyInner span m.inner g' = result at hspec
    cases result with
    | ok u g'' =>
      obtain ⟨hclosed, hsize, hsolution, hbound⟩ := hspec
      have hsolution' (r : VarRel) : g''.Solution r ↔ g'.Solution r ∧ ∀ p ∈ m.inner, r p.left p.right := by
        rw [hsolution, relates_pendingInner]
      refine ⟨fun u w hw => hclosed.allocated trivial hw, hsize.trans hretypes.size,
        fun r => (hsolution' r).trans (hretypes.solution_iff hm), fun r hr w l => ?_⟩
      obtain ⟨hr', hinner⟩ := (hsolution' r).1 hr
      obtain ⟨hsol, -⟩ := (hretypes.solution_iff hm).1 ⟨hr', hinner⟩
      exact (hbound r hr w l).trans (hretypes.lowerBound_iff hm hr.equivalence hsol.same hinner w l)
    | error e g'' =>
      intro r hr hadmits
      obtain ⟨hr', hinner⟩ := (hretypes.solution_iff hm).2 ⟨hr, hadmits⟩
      exact hspec r hr' (relates_pendingInner.2 hinner)
  · rename_i clash hm
    obtain ⟨e, hrun⟩ := h
    rw [hrun]
    exact fun r hr => not_admits_of_clash hr.equivalence hm

/-! ### The ways to give a shape -/

section ways

variable {span : Span} {f : TypeGraph → TypeM Unit}

theorem shapes_get_bind (h : g.Shapes v k span (f g)) : g.Shapes v k span (MonadState.get >>= f) := h

/-- The class is given its new kind, and there is nothing to unify. -/
theorem Shapes.settled {origin : Option Span} (hv : v.index < g.size) (hl : g.kind v = l)
    (hm : l.meet k = .ok m) {k' : Kind} (hk' : m.kind l k = k') (hinner : m.inner = []) :
    g.Shapes v k span (settle v k' origin) := by
  subst hl hk'
  unfold Shapes
  rw [hm]
  refine ⟨g.set v ⟨m.kind (g.kind v) k, origin⟩, retypes_set hv _ _, ?_⟩
  rw [hinner]
  rfl

/-- The kind is that of the shape already, once the pairs inside are unified. -/
theorem Shapes.unified {x : TypeM Unit} (hl : g.kind v = l) (hm : l.meet k = .ok m) (hkind : m.kind l k = l)
    (hx : x = unifyInner span m.inner) : g.Shapes v k span x := by
  subst hl
  unfold Shapes
  rw [hm]
  exact ⟨g, retypes_self hkind.symm, by rw [hx]⟩

theorem Shapes.clashes {e : TypeError} {clash : Clash} (hl : g.kind v = l) (hm : l.meet k = .error clash) :
    g.Shapes v k span (throw e) := by
  subst hl
  unfold Shapes
  rw [hm]
  exact ⟨e, rfl⟩

end ways

end TypeGraph

/-! ### The meet with a row of no name and of one -/

theorem meetRows_single (w : RowWords) (step : String → PathStep) (row : Row TypeVar) (isOpen : Bool)
    (name : String) (type : TypeVar) :
    meetRows w step row (Row.empty.insert name type) isOpen true =
      match row.get? name with
      | some existing => .ok (row, [⟨existing, type, step name⟩])
      | none =>
        if isOpen then .ok (row.insert name type, [])
        else .error (.kinds (w.lacking name) (w.having name)) := by
  have hmissing : row.firstMissing? (Row.empty.insert name type) =
      match row.get? name with
      | some _ => none
      | none => some name := by
    change [name].find? (fun name => !(row.get? name).isSome) = _
    cases h : row.get? name <;> simp [h]
  have hextend : row.extend (Row.empty.insert name type) =
      match row.get? name with
      | some _ => row
      | none => row.insert name type := by
    change (if (row.get? name).isSome = true then row else row.insert name type) = _
    cases row.get? name <;> rfl
  have hshared : row.shared (Row.empty.insert name type) =
      match row.get? name with
      | some existing => [(name, existing, type)]
      | none => [] := by
    change [(name, type)].filterMap (fun e => (row.get? e.1).map fun v => (e.1, v, e.2)) = _
    cases h : row.get? name <;> simp [h]
  rw [meetRows, hmissing, hextend, hshared]
  cases row.get? name <;> cases isOpen <;> rfl

namespace Kind

theorem meet_object_empty (members : Row TypeVar) (isOpen : Bool) (order : Option (List String)) :
    (object members isOpen order).meet (object .empty true none) =
      .ok (.both (.object members isOpen order) []) := by
  cases order <;> cases isOpen <;> rfl

theorem meet_union_empty (variants : Row TypeVar) (isOpen : Bool) :
    (union variants isOpen).meet (union .empty true) = .ok (.both (.union variants isOpen) []) := by
  cases isOpen <;> rfl

theorem meet_object_single (members : Row TypeVar) (isOpen : Bool) (order : Option (List String))
    (name : String) (type : TypeVar) :
    (object members isOpen order).meet (object (Row.empty.insert name type) true none) =
      match members.get? name with
      | some existing => .ok (.both (.object members isOpen order) [⟨existing, type, .member name⟩])
      | none =>
        if isOpen then .ok (.both (.object (members.insert name type) isOpen order) [])
        else .error (.kinds (RowWords.object.lacking name) (RowWords.object.having name)) := by
  cases order <;> simp only [meet, meet.objects, meetRows_single] <;> cases members.get? name <;>
    cases isOpen <;> rfl

theorem meet_union_single (variants : Row TypeVar) (isOpen : Bool) (name : String) (type : TypeVar) :
    (union variants isOpen).meet (union (Row.empty.insert name type) true) =
      match variants.get? name with
      | some existing => .ok (.both (.union variants isOpen) [⟨existing, type, .variant name⟩])
      | none =>
        if isOpen then .ok (.both (.union (variants.insert name type) isOpen) [])
        else .error (.kinds (RowWords.union.lacking name) (RowWords.union.having name)) := by
  simp only [meet, meetRows_single]
  cases variants.get? name <;> cases isOpen <;> rfl

end Kind

/-! ### The table of constraints is that of the meet -/

namespace Constraint

variable {g : TypeGraph} {v : TypeVar} {span : Span}

/-! Where a demand has nothing to unify, each kind of the target is settled, is left as it is or clashes. -/

theorem isBase_shapes {base : BaseKind} {reason : Option String} (hv : v.index < g.size) :
    g.Shapes v base.instantiate span (apply ⟨v, span, .isBase base reason⟩) := by
  refine shapes_get_bind ?_
  dsimp only
  cases base <;> cases hk : (g.get v).kind <;> first
    | exact .settled hv hk rfl rfl rfl
    | exact .unified hk rfl rfl rfl
    | exact .unified hk (Kind.meet_object_empty _ _ _) rfl rfl
    | exact .unified hk (Kind.meet_union_empty _ _) rfl rfl
    | exact .clashes hk rfl

theorem category_shapes {d : Demand} (hv : v.index < g.size)
    (hd : d ∈ [Demand.isNumeric, .isIndexed, .isReferenced, .isSequence]) :
    g.Shapes v d.shape span (apply ⟨v, span, d⟩) := by
  simp only [List.mem_cons, List.not_mem_nil, or_false] at hd
  refine shapes_get_bind ?_
  rcases hd with rfl | rfl | rfl | rfl <;> dsimp only <;> cases hk : (g.get v).kind <;> first
    | exact .settled hv hk rfl rfl rfl
    | exact .unified hk rfl rfl rfl
    | exact .clashes hk rfl

theorem hasElement_shapes {element : TypeVar} (hv : v.index < g.size) :
    g.Shapes v (.array element) span (apply ⟨v, span, .hasElement element⟩) := by
  refine shapes_get_bind ?_
  dsimp only
  cases hk : (g.get v).kind with
  | array existing => exact .unified hk rfl rfl (unifyInner_single span ⟨existing, element, .element⟩).symm
  | any | indexed | referenced | sequence => exact .settled hv hk rfl rfl rfl
  | _ => exact .clashes hk rfl

theorem hasMember_shapes {name : String} {type : TypeVar} (hv : v.index < g.size) :
    g.Shapes v (.object (Row.empty.insert name type) true none) span (apply ⟨v, span, .hasMember name type⟩) := by
  refine shapes_get_bind ?_
  dsimp only
  cases hk : (g.get v).kind with
  | any | referenced => exact .settled hv hk rfl rfl rfl
  | object members isOpen order =>
    have hmeet := Kind.meet_object_single members isOpen order name type
    dsimp only
    cases hname : members.get? name with
    | some existing =>
      rw [hname] at hmeet
      exact .unified hk hmeet rfl (unifyInner_single span ⟨existing, type, .member name⟩).symm
    | none =>
      rw [hname] at hmeet
      cases isOpen with
      | true => exact .settled hv hk hmeet rfl rfl
      | false => exact .clashes hk hmeet
  | _ => exact .clashes hk rfl

theorem hasVariant_shapes {name : String} {type : TypeVar} (hv : v.index < g.size) :
    g.Shapes v (.union (Row.empty.insert name type) true) span (apply ⟨v, span, .hasVariant name type⟩) := by
  refine shapes_get_bind ?_
  dsimp only
  cases hk : (g.get v).kind with
  | any => exact .settled hv hk rfl rfl rfl
  | union variants isOpen =>
    have hmeet := Kind.meet_union_single variants isOpen name type
    dsimp only
    cases hname : variants.get? name with
    | some existing =>
      rw [hname] at hmeet
      exact .unified hk hmeet rfl (unifyInner_single span ⟨existing, type, .variant name⟩).symm
    | none =>
      rw [hname] at hmeet
      cases isOpen with
      | true => exact .settled hv hk hmeet rfl rfl
      | false => exact .clashes hk hmeet
  | _ => exact .clashes hk rfl

theorem hasSignature_shapes {args : List TypeVar} {returns : TypeVar} (hv : v.index < g.size) :
    g.Shapes v (.closure args returns) span (apply ⟨v, span, .hasSignature args returns⟩) := by
  refine shapes_get_bind ?_
  dsimp only
  cases hk : (g.get v).kind with
  | any | referenced => exact .settled hv hk rfl rfl rfl
  | closure existing result =>
    dsimp only
    by_cases hlength : existing.length = args.length
    · have hmeet : (Kind.closure existing result).meet (.closure args returns) =
          .ok (.both (.closure existing result) (argumentPairs 0 existing args ++ [⟨result, returns, .returns⟩])) :=
        if_neg (not_not.2 hlength)
      rw [if_pos hlength]
      refine .unified hk hmeet rfl ?_
      rw [Meet.inner, unifyInner_append, unifyInner_single]
      rfl
    · have hmeet : (Kind.closure existing result).meet (.closure args returns) =
          .error (.kinds (closureWords existing.length) (closureWords args.length)) := if_pos hlength
      rw [if_neg hlength]
      exact .clashes hk hmeet
  | _ => exact .clashes hk rfl

theorem apply_shapes {c : Constraint} (hd : c.demand.isShape = true) (hv : c.target.index < g.size) :
    g.Shapes c.target c.demand.shape c.span c.apply := by
  obtain ⟨v, span, d⟩ := c
  cases d with
  | isBase => exact isBase_shapes hv
  | isNumeric | isIndexed | isReferenced | isSequence => exact category_shapes hv (by simp)
  | hasElement => exact hasElement_shapes hv
  | hasMember => exact hasMember_shapes hv
  | hasSignature => exact hasSignature_shapes hv
  | hasVariant => exact hasVariant_shapes hv
  | limitMembers | limitVariants | variantsOfExcept | unify => cases hd

/-- What applying a constraint that demands a shape comes to. -/
theorem apply_spec {c : Constraint} (hg : g.WellFormed) (hc : ∀ v ∈ c.vars, v.index < g.size)
    (hd : c.demand.isShape = true) : g.ShapeSpec c.target c.demand.shape (c.apply g) := by
  obtain ⟨hv, hvars⟩ := List.forall_mem_cons.1 hc
  exact (apply_shapes hd hv).spec hg fun w hw => hvars w (Demand.mem_vars_of_mem_shape hw)

end Constraint

/-! ### Unifying with a new variable -/

namespace TypeGraph

variable {g g₁ g₂ : TypeGraph} {r : VarRel} {v w : TypeVar} {k l : Kind} {t : Ty}

theorem kind_alloc (g : TypeGraph) (t : Ty) (w : TypeVar) :
    (g.alloc t).2.kind w = if w.index = g.size then t.kind else g.kind w := by
  rw [kind, get_alloc]
  split <;> rfl

/-- A new variable adds its kind to those of the class it is in. -/
theorem lowerBound_alloc_iff : (g.alloc t).2.LowerBound r w l ↔
    g.LowerBound r w l ∧ (r w ⟨g.size⟩ → l.Refines r t.kind) := by
  constructor
  · intro h
    refine ⟨fun u hwu => ?_, fun hnew => ?_⟩
    · by_cases hu : u.index = g.size
      · rw [size_le_of_kind_eq_any (Nat.le_of_eq hu.symm)]
        exact trivial
      · have hl := h u hwu
        rwa [kind_alloc, if_neg hu] at hl
    · have hl := h _ hnew
      rwa [kind_alloc, if_pos rfl] at hl
  · rintro ⟨h, hnew⟩ u hwu
    rw [kind_alloc]
    split
    · rename_i hu
      exact hnew (show r w ⟨g.size⟩ from hu ▸ hwu)
    · exact h u hwu

/-- The solutions that relate a new variable to `v` are those in which the class of `v` can have its kind. -/
theorem solution_alloc_iff : (g.alloc t).2.Solution r ∧ r v ⟨g.size⟩ ↔
    (g.Solution r ∧ g.Admits r v t.kind) ∧ r v ⟨g.size⟩ := by
  have hsame {a b : TypeVar} : (g.alloc t).2.Same a b ↔ g.Same a b := by
    rw [same_iff, same_iff, rootIndex_alloc, rootIndex_alloc]
  constructor
  · rintro ⟨h, hnew⟩
    refine ⟨⟨.of_common h.equivalence (fun hab => h.same (hsame.2 hab)) fun w => ?_, ?_⟩, hnew⟩
    · obtain ⟨l, hl⟩ := h.common w
      exact ⟨l, (lowerBound_alloc_iff.1 hl).1⟩
    · obtain ⟨l, hl⟩ := h.common v
      obtain ⟨hl, hk⟩ := lowerBound_alloc_iff.1 hl
      exact ⟨l, hl, hk hnew⟩
  · rintro ⟨⟨h, l, hl, hk⟩, hnew⟩
    refine ⟨.of_common h.equivalence (fun hab => h.same (hsame.1 hab)) fun w => ?_, hnew⟩
    by_cases hw : r w ⟨g.size⟩
    · have hwv : r w v := h.equivalence.trans hw (h.equivalence.symm hnew)
      exact ⟨l, lowerBound_alloc_iff.2 ⟨hl.of_rel h.equivalence hwv, fun _ => hk⟩⟩
    · obtain ⟨l', hl'⟩ := h.common w
      exact ⟨l', lowerBound_alloc_iff.2 ⟨hl', fun hw' => absurd hw' hw⟩⟩

/-- The classes, but with the next variable to be allocated taken for one of the class of `v`. -/
def Adjoined (g : TypeGraph) (v : TypeVar) : VarRel := fun a b =>
  let stand (a : TypeVar) := if a.index = g.size then v else a
  g.Same (stand a) (stand b)

theorem adjoined_iff {a b : TypeVar} (ha : a.index < g.size) (hb : b.index < g.size) :
    g.Adjoined v a b ↔ g.Same a b := by
  simp only [Adjoined, if_neg (Nat.ne_of_lt ha), if_neg (Nat.ne_of_lt hb)]

theorem adjoined_size (hv : v.index < g.size) : g.Adjoined v v ⟨g.size⟩ := by
  simp only [Adjoined, if_neg (Nat.ne_of_lt hv), if_pos]
  exact g.same_equivalence.refl v

/-- Nothing is known of the next variable, so it may be of any class. -/
theorem solution_adjoined (g : TypeGraph) (v : TypeVar) : g.Solution (g.Adjoined v) := by
  have hequivalence : Equivalence (g.Adjoined v) :=
    ⟨fun _ => g.same_equivalence.refl _, g.same_equivalence.symm, g.same_equivalence.trans⟩
  -- A variable that is not allocated is alone in its class.
  have halone {a b : TypeVar} (ha : g.size ≤ a.index) (hab : g.Same a b) : a = b := by
    have hroot := same_iff.1 hab
    rw [rootIndex_of_size_le ha] at hroot
    have hb : g.size ≤ b.index := Nat.le_trans (hroot ▸ ha) (g.rootIndex_le b.index)
    rw [rootIndex_of_size_le hb] at hroot
    exact congrArg TypeVar.mk hroot
  refine .of_common hequivalence (fun {a b} hab => ?_) fun a => ?_
  · by_cases ha : g.size ≤ a.index
    · exact halone ha hab ▸ hequivalence.refl a
    · by_cases hb : g.size ≤ b.index
      · exact halone hb (g.same_equivalence.symm hab) ▸ hequivalence.refl b
      · exact (adjoined_iff (Nat.lt_of_not_le ha) (Nat.lt_of_not_le hb)).2 hab
  · refine ⟨g.kind (if a.index = g.size then v else a), fun b hab => ?_⟩
    by_cases hb : b.index = g.size
    · rw [size_le_of_kind_eq_any (Nat.le_of_eq hb.symm)]
      exact trivial
    · simp only [Adjoined, if_neg hb] at hab
      rw [kind_eq_of_same hab]
      exact .refl hequivalence _

/-! ### Both ways come to the same -/

/-- What unifying `v` with a new variable of kind `k` is to come to. -/
def AdjoinSpec (g : TypeGraph) (v : TypeVar) (k : Kind) : EStateM.Result TypeError TypeGraph Unit → Prop
  | .ok _ g' => g'.size = g.size + 1 ∧
      (∀ r, g'.Solution r ↔ (g.Solution r ∧ g.Admits r v k) ∧ r v ⟨g.size⟩) ∧
      ∀ r, g'.Solution r → ∀ w l, g'.LowerBound r w l ↔ g.LowerBound r w l ∧ (r w v → l.Refines r k)
  | .error _ _ => ∀ r, g.Solution r → g.Admits r v k → ¬ r v ⟨g.size⟩

theorem unify_alloc_spec (span : Span) (hg : g.WellFormed) (hv : v.index < g.size)
    (ht : ∀ w ∈ t.kind.children, w.index < g.size) :
    g.AdjoinSpec v t.kind (unify v ⟨g.size⟩ span (g.alloc t).2) := by
  have hclosed : (g.alloc t).2.Closed Set.univ := (hg.closed.alloc fun w hw => ⟨trivial, ht w hw⟩).closed
  have hnew : g.size < (g.alloc t).2.size := size_alloc g t ▸ Nat.lt_succ_self _
  have hspec := unifyAll_spec span (g.alloc t).2 [⟨v, ⟨g.size⟩, []⟩] hclosed
    (List.forall_mem_singleton.2 ⟨⟨trivial, Nat.lt_trans hv hnew⟩, ⟨trivial, hnew⟩⟩)
  have hrelates (r : VarRel) : Relates r [⟨v, ⟨g.size⟩, []⟩] ↔ r v ⟨g.size⟩ := List.forall_mem_singleton
  change g.AdjoinSpec v t.kind ((g.alloc t).2.unifyAll span [⟨v, ⟨g.size⟩, []⟩])
  generalize (g.alloc t).2.unifyAll span [⟨v, ⟨g.size⟩, []⟩] = result at hspec
  cases result with
  | ok u g' =>
    obtain ⟨-, hsize, hsolution, hbound⟩ := hspec
    have hsolution' (r : VarRel) : g'.Solution r ↔ (g.Solution r ∧ g.Admits r v t.kind) ∧ r v ⟨g.size⟩ := by
      rw [hsolution, hrelates, solution_alloc_iff]
    refine ⟨hsize.trans (size_alloc g t), hsolution', fun r hr w l => ?_⟩
    obtain ⟨⟨hr', -⟩, hnew⟩ := (hsolution' r).1 hr
    have hiff : r w ⟨g.size⟩ ↔ r w v :=
      ⟨fun h => hr'.equivalence.trans h (hr'.equivalence.symm hnew), fun h => hr'.equivalence.trans h hnew⟩
    rw [hbound r hr, lowerBound_alloc_iff, hiff]
  | error e g' =>
    intro r hr hadmits hnew
    exact hspec r (solution_alloc_iff.2 ⟨⟨hr, hadmits⟩, hnew⟩).1 ((hrelates r).2 hnew)

section agree

variable {u : Unit} (h₁ : g.ShapeSpec v k (.ok u g₁)) (h₂ : g.AdjoinSpec v k (.ok u g₂)) (hv : v.index < g.size)
include h₁ h₂ hv

/-- Variables that were there are of one class in both graphs or in neither. -/
theorem ShapeSpec.same_iff {a b : TypeVar} (ha : a.index < g.size) (hb : b.index < g.size) :
    g₁.Same a b ↔ g₂.Same a b := by
  obtain ⟨-, hsize, hsolution, -⟩ := h₁
  obtain ⟨-, hsolution', -⟩ := h₂
  constructor
  · intro hab
    exact ((hsolution _).2 ((hsolution' _).1 g₂.solution_same).1).same hab
  · intro hab
    rw [← hsize] at hv ha hb
    have hadjoined := (hsolution _).1 (g₁.solution_adjoined v)
    have hsame := ((hsolution' _).2 ⟨hadjoined, hsize ▸ adjoined_size hv⟩).same hab
    exact (adjoined_iff ha hb).1 hsame

/-- The kinds of a variable that was there refine each other. -/
theorem ShapeSpec.refines {a : TypeVar} (ha : a.index < g.size) :
    (g₁.kind a).Refines g₂.Same (g₂.kind a) ∧ (g₂.kind a).Refines g₂.Same (g₁.kind a) := by
  have hsame {a b : TypeVar} (ha : a.index < g.size) (hb : b.index < g.size) :=
    ShapeSpec.same_iff h₁ h₂ hv ha hb
  obtain ⟨-, hsize, hsolution, hbound⟩ := h₁
  obtain ⟨-, hsolution', hbound'⟩ := h₂
  have hr : g₁.Solution g₂.Same := (hsolution _).2 ((hsolution' _).1 g₂.solution_same).1
  have hiff (l : Kind) : g₁.LowerBound g₂.Same a l ↔ g₂.LowerBound g₂.Same a l :=
    (hbound _ hr a l).trans (hbound' _ g₂.solution_same a l).symm
  constructor
  · have hlower : g₁.LowerBound g₂.Same a (g₁.kind a) := by
      intro b hab
      by_cases hb : b.index < g.size
      · rw [kind_eq_of_same ((hsame ha hb).2 hab)]
        exact .refl g₂.same_equivalence _
      · have hb' : g₁.size ≤ b.index := hsize ▸ Nat.le_of_not_lt hb
        rw [size_le_of_kind_eq_any hb']
        exact trivial
    exact (hiff _).1 hlower a (g₂.same_equivalence.refl a)
  · have hlower : g₂.LowerBound g₂.Same a (g₂.kind a) := fun b hab =>
      kind_eq_of_same hab ▸ .refl g₂.same_equivalence _
    exact (hiff _).2 hlower a (g₂.same_equivalence.refl a)

end agree

/-- Of two graphs with the same classes of the variables of the first and kinds there that refine each other,
these variables are unfolded to the same. -/
theorem foldBelow_eq_of_agree {α : Type} {back : Nat → α} {step : Kind → (TypeVar → α) → α}
    (hstep : ∀ f inner k, step (Kind.mapVars f k) inner = step k (inner ∘ f))
    (hcongr : ∀ k inner inner', (∀ w ∈ Kind.children k, inner w = inner' w) → step k inner = step k inner')
    (hg : g₁.WellFormed) (hsize : g₁.size ≤ g₂.size)
    (hsame : ∀ a b : TypeVar, a.index < g₁.size → b.index < g₁.size → (g₁.Same a b ↔ g₂.Same a b))
    (hrefines : ∀ a : TypeVar, a.index < g₁.size →
      (g₁.kind a).Refines g₂.Same (g₂.kind a) ∧ (g₂.kind a).Refines g₂.Same (g₁.kind a))
    {enclosing : List Nat} (hv : v.index < g₁.size) :
    g₁.foldBelow back step enclosing v = g₂.foldBelow back step enclosing v := by
  have hroot {i : Nat} (hi : i < g₁.size) : g₁.rootIndex i = g₂.rootIndex i := by
    have hroot₁ : g₁.rootIndex i < g₁.size := rootIndex_lt_size hi
    have hroot₂ : g₂.rootIndex i < g₁.size := Nat.lt_of_le_of_lt (g₂.rootIndex_le i) hi
    refine Nat.le_antisymm ?_ ?_
    · exact rootIndex_le_of_same ((hsame ⟨i⟩ ⟨g₂.rootIndex i⟩ hi hroot₂).2
        (g₂.same_equivalence.symm (g₂.same_root ⟨i⟩)))
    · exact rootIndex_le_of_same ((hsame ⟨i⟩ ⟨g₁.rootIndex i⟩ hi hroot₁).1
        (g₁.same_equivalence.symm (g₁.same_root ⟨i⟩)))
  refine foldBelow_eq_on (P := fun a => a.index < g₁.size) hstep (fun k _ _ hinside h => ?_) (fun a _ => hg a)
    (fun a ha => hroot ha) (fun a ha => ?_) hrefines enclosing hv
  · exact hcongr k _ _ fun w hw => h w (hinside w hw)
  · have hlt : g₁.rootIndex a.index < g₁.size := rootIndex_lt_size ha
    exact iff_of_true hlt (hroot ha ▸ Nat.lt_of_lt_of_le hlt hsize)

end TypeGraph

/-- **Demanding a shape is unifying with it.** Applying a constraint that demands a shape succeeds exactly if
unifying its target with a new variable of the shape does; and then the variables that were there are in the
same classes and display the same. -/
theorem Constraint.apply_agrees {g : TypeGraph} (hg : g.WellFormed) {c : Constraint}
    (hc : ∀ v ∈ c.vars, v.index < g.size) (hd : c.demand.isShape = true) (origin : Option Span) (span : Span) :
    ((∃ g₁, c.apply g = .ok () g₁) ↔ ∃ g₂, c.unifyShape origin span g = .ok () g₂) ∧
      ∀ g₁ g₂, c.apply g = .ok () g₁ → c.unifyShape origin span g = .ok () g₂ →
        (∀ v w : TypeVar, v.index < g.size → w.index < g.size → (g₁.Same v w ↔ g₂.Same v w)) ∧
          ∀ v : TypeVar, v.index < g.size → g₁.display v = g₂.display v := by
  obtain ⟨hv, hvars⟩ := List.forall_mem_cons.1 hc
  have hspec := apply_spec hg hc hd
  have hspec' : g.AdjoinSpec c.target c.demand.shape (c.unifyShape origin span g) :=
    unify_alloc_spec (t := ⟨c.demand.shape, origin⟩) span hg hv fun w hw =>
      hvars w (Demand.mem_vars_of_mem_shape hw)
  refine ⟨⟨fun ⟨g₁, hok⟩ => ?_, fun ⟨g₂, hok⟩ => ?_⟩, fun g₁ g₂ hok hok' => ?_⟩
  · -- The classes that the constraint leaves, with the new variable taken for the target, are a solution.
    rw [hok] at hspec
    obtain ⟨-, hsize, hsolution, -⟩ := hspec
    have hv' : c.target.index < g₁.size := hsize ▸ hv
    obtain ⟨hr, hadmits⟩ := (hsolution _).1 (g₁.solution_adjoined c.target)
    cases hrun : c.unifyShape origin span g with
    | ok u g₂ => exact ⟨g₂, rfl⟩
    | error e g₂ =>
      rw [hrun] at hspec'
      exact (hspec' _ hr hadmits (hsize ▸ adjoined_size hv')).elim
  · rw [hok] at hspec'
    obtain ⟨-, hsolution, -⟩ := hspec'
    obtain ⟨⟨hr, hadmits⟩, -⟩ := (hsolution _).1 g₂.solution_same
    cases hrun : c.apply g with
    | ok u g₁ => exact ⟨g₁, rfl⟩
    | error e g₁ =>
      rw [hrun] at hspec
      exact (hspec _ hr hadmits).elim
  · rw [hok] at hspec
    rw [hok'] at hspec'
    have hsame (v w : TypeVar) (hv' : v.index < g.size) (hw : w.index < g.size) :=
      TypeGraph.ShapeSpec.same_iff hspec hspec' hv hv' hw
    have hrefines (w : TypeVar) (hw : w.index < g.size) := TypeGraph.ShapeSpec.refines hspec hspec' hv hw
    obtain ⟨hg₁, hsize, -⟩ := hspec
    have hle : g₁.size ≤ g₂.size := by
      rw [hsize, hspec'.1]
      exact Nat.le_succ _
    refine ⟨hsame, fun w hw => ?_⟩
    rw [← hsize] at hsame hrefines hw
    exact foldBelow_eq_of_agree Kind.text_mapVars (fun k _ _ => Kind.text_congr k) hg₁ hle hsame hrefines hw

/-- A closure that gives back itself is demanded to be one that takes itself. -/
theorem Constraint.apply_agrees_recursive :
    let g : TypeGraph := ⟨#[.root ⟨.closure [⟨1⟩] ⟨0⟩, none⟩, .root Ty.any]⟩
    let c : Constraint := ⟨⟨0⟩, .none, .hasSignature [⟨0⟩] ⟨1⟩⟩
    g.WellFormed ∧ (∀ v ∈ c.vars, v.index < g.size) ∧ c.demand.isShape = true ∧
      ∃ g₁ g₂, c.apply g = .ok () g₁ ∧ c.unifyShape none .none g = .ok () g₂ ∧
        g₁.Same ⟨0⟩ ⟨1⟩ ∧ g₂.Same ⟨0⟩ ⟨1⟩ ∧ g₁.display ⟨1⟩ = "|...| -> ..." ∧ g₂.display ⟨1⟩ = "|...| -> ..." := by
  intro g c
  have hg : g.WellFormed := wellFormed_of_cells (by decide)
  have hc : ∀ v ∈ c.vars, v.index < g.size := by decide
  obtain ⟨g₁, happly, hsame, hdisplay⟩ :
      ∃ g₁, c.apply g = .ok () g₁ ∧ g₁.Same ⟨0⟩ ⟨1⟩ ∧ g₁.display ⟨1⟩ = "|...| -> ..." := by
    refine ⟨⟨#[.root ⟨.closure [⟨1⟩] ⟨0⟩, none⟩, .link 0]⟩, ?_, ?_, ?_⟩
    · simp only [c, g]
      cbv
    · simp only [Same]
      cbv
    · cbv
  have hagrees := apply_agrees hg hc rfl none .none
  obtain ⟨g₂, hunify⟩ := hagrees.1.1 ⟨g₁, happly⟩
  obtain ⟨hclasses, hdisplays⟩ := hagrees.2 g₁ g₂ happly hunify
  exact ⟨hg, hc, rfl, g₁, g₂, happly, hunify, hsame, (hclasses _ _ (by decide) (by decide)).1 hsame, hdisplay,
    (hdisplays ⟨1⟩ (by decide)).symm.trans hdisplay⟩

end Monomorph
