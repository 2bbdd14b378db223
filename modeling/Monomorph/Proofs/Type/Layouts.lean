import Monomorph.Proofs.Type.History
import Monomorph.Proofs.Type.Presentation
import Monomorph.Proofs.Type.Shaping

/-! # What becomes of layouts

Copying types, applying constraints and unifying never fix a layout order: whatever they end like, an object with
an order draws it from an object that had this order before and that it only sharpens (`Kind.Draws`). The
relation between graphs that comes of it (`TypeGraph.Inherits`) is kept by every step, so by every sequence of
steps (`TypeGraph.Reforms.inherits`).

* An order therefore goes on listing members, each once.
* It goes on listing all of them where its object is closed, as this object gains none. An open one may gain a
  member, and the order is not extended.

Main statement: `TypeGraph.laidOut_lasts_iff`. -/

namespace Monomorph

open Outcome TypeGraph

/-! ### Orders -/

theorem Row.names_nodup {α : Type} (row : Row α) : row.names.Nodup :=
  (List.pairwise_map.2 row.sorted).imp LT.lt.ne

namespace Kind

/-- The layout order of an object that has one. -/
def order? : Kind → Option (List String)
  | .object _ _ order => order
  | _ => none

/-- A layout order, if there is one, lists members, each at most once. -/
def Listed : Kind → Prop
  | .object members _ (some order) => order.Nodup ∧ ∀ name ∈ order, members.contains name = true
  | _ => True

variable {a b k k' : Kind} {order : List String}

theorem order?_eq_some_iff : k.order? = some order ↔ ∃ members isOpen, k = .object members isOpen (some order) := by
  constructor
  · intro h
    cases k with
    | object members isOpen o =>
      obtain rfl : o = some order := h
      exact ⟨members, isOpen, rfl⟩
    | _ => cases h
  · rintro ⟨members, isOpen, rfl⟩
    rfl

@[simp] theorem order?_mapVars (f : TypeVar → TypeVar) (k : Kind) : (k.mapVars f).order? = k.order? := by
  cases k <;> rfl

theorem mapVars_sharpens (f : TypeVar → TypeVar) (k : Kind) : (k.mapVars f).Sharpens k := by
  have hrow (row : Row TypeVar) (isOpen : Bool) : RowRefines (fun _ _ => True) (row.map f) isOpen row isOpen :=
    ⟨fun name v hv => ⟨f v, by rw [Row.get?_map, hv]; rfl, trivial⟩, id, fun _ name hname => by simpa using hname⟩
  cases k with
  | object members isOpen order => exact ⟨hrow members isOpen, fun _ h => h⟩
  | union variants isOpen => exact hrow variants isOpen
  | closure args returns =>
    exact ⟨List.forall₂_iff_get.2 ⟨List.length_map _, fun _ _ _ => trivial⟩, trivial⟩
  | array element => exact trivial
  | _ => exact Sharpens.refl _

/-- A kind that another gives way to is as precise as both. -/
theorem meet_sharpens {m : Meet} (h : a.meet b = .ok m) : (m.kind a b).Sharpens a ∧ (m.kind a b).Sharpens b := by
  have hspec := meet_spec equivalence_true a b
  rw [h] at hspec
  exact (hspec.1 (fun _ _ => trivial) _).1 (Sharpens.refl _)

/-- Two kinds together have the order that one of them has. -/
theorem meet_order? {m : Meet} (h : a.meet b = .ok m) : (m.kind a b).order? = (a.order? <|> b.order?) := by
  unfold meet at h
  split at h
  case h_9 xs xOpen xOrder ys yOpen yOrder =>
    have hobjects : meet.objects xs xOpen xOrder ys yOpen yOrder = .ok m := by
      split at h
      · split at h
        · cases h
        · exact h
      · exact h
    unfold meet.objects at hobjects
    split at hobjects
    · cases hobjects
      rfl
    · cases hobjects
  case h_10 =>
    split at h
    · cases h
      rfl
    · cases h
  case h_11 =>
    split at h
    · cases h
    · cases h
      rfl
  case h_16 | h_17 =>
    split at h
    · cases h
      simp [Meet.kind, order?]
    · split at h
      · cases h
        rename_i hk
        rcases hk with rfl | rfl <;> rfl
      · cases h
  case h_12 | h_13 | h_18 | h_19 | h_20 | h_21 =>
    split at h <;> cases h
    simp [Meet.kind, order?]
  all_goals cases h <;> simp [Meet.kind, order?]


theorem shape_order? (d : Demand) : d.shape.order? = none := by
  cases d with
  | isBase base => cases base <;> rfl
  | _ => rfl

theorem LaidOut.listed (h : k.LaidOut) : k.Listed := by
  cases k with
  | object members isOpen order =>
    cases order with
    | none => trivial
    | some order =>
      have hperm : order.Perm members.names := h
      exact ⟨hperm.nodup_iff.2 members.names_nodup, fun name hname => members.mem_names_iff.1 (hperm.mem_iff.1 hname)⟩
  | _ => trivial

end Kind

/-! ### Where layouts come from -/

/-- If the kind has a layout order, it draws it from an object of the graph: one that has the order and that the
kind sharpens. -/
def Kind.Draws (k : Kind) (g : TypeGraph) : Prop :=
  ∀ order, k.order? = some order → ∃ w, (g.kind w).order? = some order ∧ k.Sharpens (g.kind w)

/-- Every layout order of `g'` is drawn from `g`. -/
def TypeGraph.Inherits (g g' : TypeGraph) : Prop := ∀ v, (g'.kind v).Draws g

section draws

variable {g g' g'' : TypeGraph} {a b k k' : Kind} {v w : TypeVar} {span : Span}

theorem Kind.draws_of_order?_eq_none (h : k.order? = none) : k.Draws g := fun _ horder => by
  rw [h] at horder
  cases horder

theorem Kind.draws_kind (g : TypeGraph) (v : TypeVar) : (g.kind v).Draws g := fun _ horder =>
  ⟨v, horder, Sharpens.refl _⟩

theorem Kind.Draws.sharpens (h : k.Draws g) (hk' : k'.Sharpens k) (horder : k'.order? = k.order?) : k'.Draws g := by
  intro order hk
  obtain ⟨w, hw, hsharpens⟩ := h order (horder ▸ hk)
  exact ⟨w, hw, hk'.trans hsharpens⟩

theorem Kind.Draws.meet {m : Meet} (ha : a.Draws g) (hb : b.Draws g) (h : a.meet b = .ok m) :
    (m.kind a b).Draws g := by
  intro order horder
  obtain ⟨hsharpensA, hsharpensB⟩ := meet_sharpens h
  rw [meet_order? h] at horder
  rcases (Option.orElse_eq_some _ _ _).1 horder with horder | ⟨-, horder⟩
  · obtain ⟨w, hw, hsharpens⟩ := ha order horder
    exact ⟨w, hw, hsharpensA.trans hsharpens⟩
  · obtain ⟨w, hw, hsharpens⟩ := hb order horder
    exact ⟨w, hw, hsharpensB.trans hsharpens⟩

namespace TypeGraph

theorem inherits_kept : Kept Inherits where
  refl g v := Kind.draws_kind g v
  trans h h' v order horder := by
    obtain ⟨w, hw, hsharpens⟩ := h' v order horder
    obtain ⟨u, hu, hsharpens'⟩ := h w order hw
    exact ⟨u, hu, hsharpens.trans hsharpens'⟩

theorem Retypes.inherits (h : g.Retypes v k g') (hk : k.Draws g) : g.Inherits g' := by
  intro w
  rw [h.kind]
  split
  · exact hk
  · exact Kind.draws_kind g w

theorem inherits_joinIndex {i j : Nat} {t : Ty} (hi : i < g.size) (hj : j < g.size) (hne : i ≠ j)
    (hrooti : g.rootIndex i = i) (hrootj : g.rootIndex j = j) (ht : t.kind.Draws g) :
    g.Inherits (g.joinIndex i j t) := by
  intro w
  rw [kind, get_joinIndex hi hj hne hrooti hrootj]
  split
  · exact ht
  · exact Kind.draws_kind g w

theorem inherits_copyAll (g : TypeGraph) (vs : List TypeVar) : g.Inherits (g.copyAll vs).2 := by
  intro w
  by_cases hold : w.index < g.size
  · rw [(copyAll_extends g vs).kind hold]
    exact Kind.draws_kind g w
  · by_cases hnew : w.index < (g.copyAll vs).2.size
    · obtain ⟨v, hv, rfl⟩ := exists_copyOf (Nat.le_of_not_lt hold) hnew
      rw [TypeGraph.kind, get_copyOf hv]
      exact (Kind.draws_kind g v).sharpens (Kind.mapVars_sharpens _ _) (Kind.order?_mapVars _ _)
    · rw [size_le_of_kind_eq_any (Nat.le_of_not_lt hnew)]
      exact Kind.draws_of_order?_eq_none rfl

theorem unifyAll_inherits (span : Span) (g : TypeGraph) (queue : List PendingPair) :
    match g.unifyAll span queue with
    | .ok _ g' | .error _ g' => g.Inherits g' := by
  fun_induction unifyAll span g queue with
  | case1 g => exact inherits_kept.refl g
  | case2 g => exact inherits_kept.refl g
  | case3 g a b path rest i j hroots x y t inner hmerge ih =>
    obtain ⟨hne, hi, hj⟩ := hroots
    have hjoin : g.Inherits (g.joinIndex i j t) := by
      refine inherits_joinIndex hi hj hne (g.rootIndex_rootIndex _) (g.rootIndex_rootIndex _) ?_
      obtain ⟨m, hm, ht, -⟩ := Ty.merge_ok hmerge
      exact ht ▸ (Kind.draws_kind g a).meet (Kind.draws_kind g b) hm
    generalize unifyAll span (g.joinIndex i j t) _ = result at ih
    cases result with
    | ok _ g' => exact inherits_kept.trans hjoin ih
    | error _ g' => exact inherits_kept.trans hjoin ih
  | case4 g a b path rest i j hroots ih => exact ih

end TypeGraph

theorem unifyAt_inherits (a b : TypeVar) (span : Span) (path : StepPath) :
    Keeps Inherits (unifyAt a b span path) := fun g => by
  have h := unifyAll_inherits span g [⟨a, b, path⟩]
  change match unifyAt a b span path g with | .ok _ g' | .error _ g' => g.Inherits g' at h
  exact ⟨fun hok => by rwa [hok] at h, fun herror => by rwa [herror] at h⟩

theorem TypeGraph.unifyInner_inherits (span : Span) (inner : List InnerPair) : Keeps Inherits (unifyInner span inner) :=
  inherits_kept.forM (fun _ => unifyAt_inherits _ _ span _) inner

/-! ### Constraints -/

theorem settle_inherits {origin : Option Span} (hv : v.index < g.size) (hk : k.Draws g) :
    KeepsAt Inherits (settle v k origin) g :=
  ⟨fun hok => (ok_eq_ok_iff.1 hok).2 ▸ (retypes_set hv k origin).inherits hk, nofun⟩

theorem freshFor_inherits (names : List String) : Keeps Inherits (freshFor names) := by
  induction names with
  | nil => exact inherits_kept.pure _
  | cons name names ih =>
    have hfresh : Keeps Inherits fresh := fun g =>
      ⟨fun hok v => by
        obtain ⟨-, rfl⟩ := ok_eq_ok_iff.1 hok
        exact kind_fresh g v ▸ Kind.draws_kind g v, nofun⟩
    exact inherits_kept.bind hfresh fun _ => inherits_kept.bind ih fun _ => inherits_kept.pure _

/-- A kind without an order is given to a variable, with a variable for each of some names inside. -/
theorem freshFor_settle_inherits {names : List String} {origin : Option Span}
    {kind : List (String × TypeVar) → Kind} (hv : v.index < g.size) (h : ∀ members, (kind members).order? = none) :
    KeepsAt Inherits (freshFor names >>= fun members => settle v (kind members) origin) g :=
  inherits_kept.bindAt (freshFor_inherits names g) fun hok =>
    settle_inherits (Nat.lt_of_lt_of_le hv ((freshFor_extends names g).ok hok).size_le)
      (Kind.draws_of_order?_eq_none (h _))

theorem TypeGraph.Shapes.inherits {x : TypeM Unit} (h : g.Shapes v k span x) (hk : k.order? = none) :
    KeepsAt Inherits x g := by
  unfold Shapes at h
  split at h
  · rename_i m hm
    obtain ⟨g', hretypes, hrun⟩ := h
    have hgives : g.Inherits g' :=
      hretypes.inherits ((Kind.draws_kind g v).meet (Kind.draws_of_order?_eq_none hk) hm)
    have hinner := unifyInner_inherits span m.inner g'
    exact ⟨fun hok => inherits_kept.trans hgives (hinner.ok (hrun ▸ hok)),
      fun herror => inherits_kept.trans hgives (hinner.error (hrun ▸ herror))⟩
  · obtain ⟨e, hrun⟩ := h
    refine ⟨fun hok => ?_, fun herror => ?_⟩
    · cases hrun.symm.trans hok
    · cases hrun.symm.trans herror
      exact inherits_kept.refl g

namespace Constraint

theorem limitMembers_inherits {names : NameSet} (hv : v.index < g.size) :
    KeepsAt Inherits (apply ⟨v, span, .limitMembers names⟩) g := by
  refine keepsAt_get_bind ?_
  dsimp only
  split
  · exact freshFor_settle_inherits hv fun _ => rfl
  · exact freshFor_settle_inherits hv fun _ => rfl
  · rename_i members isOpen order hk
    refine settle_inherits hv ((Kind.draws_kind g v).sharpens ?_ ?_) <;> rw [kind, hk]
    · exact ⟨rowRefines_close equivalence_true members isOpen, fun _ h => h⟩
    · rfl
  · exact inherits_kept.throw _ g

theorem limitVariants_inherits {names : NameSet} (hv : v.index < g.size) :
    KeepsAt Inherits (apply ⟨v, span, .limitVariants names⟩) g := by
  refine keepsAt_get_bind ?_
  dsimp only
  split
  · exact freshFor_settle_inherits hv fun _ => rfl
  · split
    · exact inherits_kept.throw _ g
    · exact settle_inherits hv (Kind.draws_of_order?_eq_none rfl)
  · exact inherits_kept.throw _ g

theorem variantsOfExcept_inherits {source : TypeVar} {leftOut : String} (hv : v.index < g.size) :
    KeepsAt Inherits (apply ⟨v, span, .variantsOfExcept source leftOut⟩) g := by
  refine keepsAt_get_bind ?_
  dsimp only
  split
  · split
    · exact settle_inherits hv (Kind.draws_of_order?_eq_none rfl)
    · split
      · exact inherits_kept.throw _ g
      · exact inherits_kept.bindAt (settle_inherits hv (Kind.draws_of_order?_eq_none rfl)) fun _ =>
          inherits_kept.forM (fun _ => unifyAt_inherits _ _ span _) _ _
    · exact inherits_kept.throw _ g
  · exact inherits_kept.throw _ g

theorem apply_inherits {c : Constraint} (hc : c.target.index < g.size) : KeepsAt Inherits c.apply g := by
  by_cases hd : c.demand.isShape = true
  · exact (apply_shapes hd hc).inherits (Kind.shape_order? _)
  · obtain ⟨v, span, d⟩ := c
    cases d with
    | limitMembers names => exact limitMembers_inherits hc
    | limitVariants names => exact limitVariants_inherits hc
    | variantsOfExcept source leftOut => exact variantsOfExcept_inherits hc
    | unify other => exact unifyAt_inherits v other span [] g
    | _ => exact absurd rfl hd

end Constraint
end draws

/-! ### Sequences of steps -/

namespace TypeGraph

variable {g g' : TypeGraph} {v : TypeVar}

/-- A step that brings in no type from outside: types are copied, a constraint is applied, two variables are
unified. The last two may fail, and what they changed before is kept. -/
inductive Reform (g : TypeGraph) : TypeGraph → Prop
  | copy (vs : List TypeVar) : Reform g (g.copyAll vs).2
  | apply (c : Constraint) (allocated : c.target.index < g.size) {g' : TypeGraph} (ends : Leaves c.apply g g') :
      Reform g g'
  | unify (v w : TypeVar) (span : Span) (path : StepPath) {g' : TypeGraph}
      (ends : Leaves (unifyAt v w span path) g g') : Reform g g'

abbrev Reforms : TypeGraph → TypeGraph → Prop := Relation.ReflTransGen Reform

theorem Leaves.inherits {x : TypeM Unit} (hx : KeepsAt Inherits x g) (h : Leaves x g g') : g.Inherits g' := by
  rcases h with hok | ⟨e, herror⟩
  · exact hx.ok hok
  · exact hx.error herror

theorem Reform.inherits (h : Reform g g') : g.Inherits g' := by
  cases h with
  | copy vs => exact inherits_copyAll g vs
  | apply c allocated ends => exact ends.inherits (c.apply_inherits allocated)
  | unify v w span path ends => exact ends.inherits (unifyAt_inherits v w span path g)

/-- After any number of steps, every layout order is drawn from the graph at the start. -/
theorem Reforms.inherits (h : Reforms g g') : g.Inherits g' := by
  induction h with
  | refl => exact inherits_kept.refl g
  | tail _ hstep ih => exact inherits_kept.trans ih hstep.inherits

end TypeGraph

/-! ### Which layouts stay complete -/

/-- Every object that is laid out in the order is closed. -/
def TypeGraph.Closes (g : TypeGraph) (order : List String) : Prop :=
  ∀ v members isOpen, g.kind v = .object members isOpen (some order) → isOpen = false

/-- Every object is resolved to one with exactly its members. -/
def TypeGraph.DropsNone (g : TypeGraph) : Prop :=
  ∀ v members isOpen order, g.kind v = .object members isOpen order →
    ∃ inside, g.tree v = .object inside ∧ (inside.map (·.1)).Perm members.names

namespace Kind

variable {g : TypeGraph} {k : Kind}

/-- What draws its order from a listing goes on listing. -/
theorem Draws.listed (h : k.Draws g) (hg : ∀ v, (g.kind v).Listed) : k.Listed := by
  cases k with
  | object members isOpen order? =>
    cases order? with
    | none => trivial
    | some order =>
      obtain ⟨w, hw, hsharpens⟩ := h order rfl
      obtain ⟨members₀, isOpen₀, hkind⟩ := order?_eq_some_iff.1 hw
      have hlisted := hg w
      rw [hkind] at hlisted hsharpens
      refine ⟨hlisted.1, fun name hname => ?_⟩
      obtain ⟨u, hu⟩ := members₀.contains_iff.1 (hlisted.2 name hname)
      obtain ⟨u', hu', -⟩ := hsharpens.1.names name u hu
      exact Row.contains_of_get? hu'
  | _ => trivial

/-- What draws its order from a closed object lists what this lists. -/
theorem Draws.laidOut (h : k.Draws g) (hg : g.LaidOut) (hclosed : ∀ order, k.order? = some order → g.Closes order) :
    k.LaidOut := by
  cases k with
  | object members isOpen order? =>
    cases order? with
    | none => trivial
    | some order =>
      obtain ⟨w, hw, hsharpens⟩ := h order rfl
      obtain ⟨members₀, isOpen₀, hkind⟩ := order?_eq_some_iff.1 hw
      have hlaidOut := hg w
      rw [hkind] at hlaidOut hsharpens
      have hrow := hsharpens.1.rowNarrows
      have hnames : members.names = members₀.names :=
        Row.names_eq fun name =>
          ⟨hrow.gainsNone (hclosed order rfl w members₀ isOpen₀ hkind) name, hrow.keeps name⟩
      change order.Perm members.names
      rw [hnames]
      exact hlaidOut
  | _ => trivial

end Kind

namespace TypeGraph

variable {g : TypeGraph} {v : TypeVar} {members : Row TypeVar} {order : List String}

theorem LaidOut.dropsNone (hg : g.LaidOut) : g.DropsNone := by
  intro v members isOpen order hv
  have hlaidOut := hg v
  have htree := treeBelow_of_not_mem (g := g) (v := v) List.not_mem_nil
  rw [hv] at hlaidOut htree
  obtain ⟨inside, hinside, hperm⟩ := Kind.tree_object hlaidOut
  exact ⟨inside, htree.trans hinside, hperm⟩

/-- An open object can gain a member, and its order does not list it. -/
theorem exists_not_laidOut (hv : g.kind v = .object members true (some order)) :
    ∃ g', Reforms g g' ∧ ¬ g'.LaidOut := by
  obtain ⟨name, hname⟩ := Infinite.exists_notMem_finset (members.names ++ order).toFinset
  rw [List.mem_toFinset, List.mem_append, not_or, Row.mem_names_iff, Bool.not_eq_true] at hname
  have hsize : v.index < g.size := by
    refine Nat.lt_of_not_le fun hle => ?_
    rw [size_le_of_kind_eq_any hle] at hv
    cases hv
  have hnone : members.get? name = none := Option.isNone_iff_eq_none.1 (by simpa [Row.contains] using hname.1)
  have hmeet := Kind.meet_object_single members true (some order) name v
  rw [hnone] at hmeet
  have hshapes : g.Shapes v (.object (Row.empty.insert name v) true none) .none
      (Constraint.apply ⟨v, .none, .hasMember name v⟩) := Constraint.hasMember_shapes hsize
  unfold Shapes at hshapes
  rw [hv, hmeet] at hshapes
  obtain ⟨g', hretypes, hrun⟩ := hshapes
  refine ⟨g', .single (.apply _ hsize (.inl hrun)), fun hlaidOut => hname.2 ?_⟩
  have hlist := hlaidOut v
  rw [hretypes.kind, if_pos (show g.same v v = true from g.same_equivalence.refl v)] at hlist
  have hperm : order.Perm (members.insert name v).names := hlist
  exact hperm.mem_iff.2 ((Row.mem_names_iff _).2 (Row.contains_of_get? (by rw [Row.get?_insert, if_pos rfl])))

/-- **Fixed layouts.** In a graph whose orders list all members, orders go on listing members, each once, whatever
is copied, demanded and unified; and an order goes on listing all of them if the objects laid out in it are closed.
All orders stay complete, so that resolving a type drops no member, exactly if every object with an order is
closed. -/
theorem laidOut_lasts_iff (hg : g.LaidOut) :
    (∀ g', Reforms g g' → ∀ v, (g'.kind v).Listed ∧
      ((∀ order, (g'.kind v).order? = some order → g.Closes order) → (g'.kind v).LaidOut)) ∧
    ((∀ g', Reforms g g' → g'.LaidOut ∧ g'.DropsNone) ↔ ∀ order, g.Closes order) := by
  refine ⟨fun g' h v => ⟨(h.inherits v).listed fun w => (hg w).listed, (h.inherits v).laidOut hg⟩, ?_, ?_⟩
  · intro h order v members isOpen hv
    cases isOpen with
    | false => rfl
    | true =>
      obtain ⟨g', hreforms, hnot⟩ := exists_not_laidOut hv
      exact absurd (h g' hreforms).1 hnot
  · intro hclosed g' h
    have hg' : g'.LaidOut := fun v => (h.inherits v).laidOut hg fun order _ => hclosed order
    exact ⟨hg', hg'.dropsNone⟩

/-- An object laid out `y` first, which is closed, unified with an open one that has only `x`. -/
theorem laidOut_lasts_iff_closed :
    let point : Kind := .object ((Row.empty.insert "x" ⟨0⟩).insert "y" ⟨1⟩) false (some ["y", "x"])
    let hasX : Kind := .object (Row.empty.insert "x" ⟨0⟩) true none
    let g : TypeGraph := ⟨#[.root ⟨.integer, none⟩, .root ⟨.boolean, none⟩, .root ⟨point, none⟩,
      .root ⟨hasX, none⟩]⟩
    g.LaidOut ∧ (∀ order, g.Closes order) ∧ (∀ g', Reforms g g' → g'.LaidOut ∧ g'.DropsNone) ∧
      ∃ g', Reforms g g' ∧ g'.tree ⟨3⟩ = .object [("y", .boolean), ("x", .integer)] := by
  intro point hasX g
  have hkinds (v : TypeVar) : g.kind v = .any ∨ g.kind v = .integer ∨ g.kind v = .boolean ∨ g.kind v = point ∨
      g.kind v = hasX := by
    rcases g.kind_eq_any_or_mem v with hv | ⟨t, ht, hv⟩
    · exact .inl hv
    · simp only [g, List.mem_cons, List.not_mem_nil, or_false, Cell.root.injEq] at ht
      rcases ht with rfl | rfl | rfl | rfl <;> simp [hv]
  have hg : g.LaidOut := fun v => by
    rcases hkinds v with hv | hv | hv | hv | hv <;> rw [hv]
    case inr.inr.inr.inl => exact List.Perm.swap "x" "y" []
    all_goals trivial
  have hclosed : ∀ order, g.Closes order := fun order v members isOpen hv => by
    rcases hkinds v with hk | hk | hk | hk | hk
    case inr.inr.inr.inl => exact (Kind.object.inj (hk.symm.trans hv)).2.1.symm
    case inr.inr.inr.inr => cases (Kind.object.inj (hk.symm.trans hv)).2.2
    all_goals cases hk.symm.trans hv
  refine ⟨hg, hclosed, (laidOut_lasts_iff hg).2.2 hclosed, ?_⟩
  let g' : TypeGraph := ⟨#[.root ⟨.integer, none⟩, .root ⟨.boolean, none⟩, .root ⟨point, none⟩, .link 2]⟩
  have hunify : unifyAt ⟨2⟩ ⟨3⟩ .none [] g = .ok () g' := by
    simp only [g, g', point, hasX]
    cbv
  refine ⟨g', .single (.unify ⟨2⟩ ⟨3⟩ .none [] (.inl hunify)), ?_⟩
  simp only [g', point]
  cbv

/-- An open object that is laid out in an order gains a member that its order does not list, and resolving its type
drops this member. -/
theorem laidOut_lost :
    let before : Kind := .object (Row.empty.insert "a" ⟨0⟩) true (some ["a"])
    let after : Kind := .object ((Row.empty.insert "a" ⟨0⟩).insert "b" ⟨0⟩) true (some ["a"])
    let g : TypeGraph := ⟨#[.root ⟨.integer, none⟩, .root ⟨before, none⟩]⟩
    ∃ g', g.LaidOut ∧ Reforms g g' ∧ g'.kind ⟨1⟩ = after ∧ ¬ g'.LaidOut ∧
      g'.tree ⟨1⟩ = .object [("a", .integer)] := by
  intro before after g
  let g' : TypeGraph := ⟨#[.root ⟨.integer, none⟩, .root ⟨after, some .none⟩]⟩
  have hg : g.LaidOut := fun v => by
    rcases g.kind_eq_any_or_mem v with hv | ⟨t, ht, hv⟩
    · rw [hv]
      trivial
    · simp only [g, List.mem_cons, List.not_mem_nil, or_false, Cell.root.injEq] at ht
      rw [hv]
      rcases ht with rfl | rfl
      · trivial
      · exact List.Perm.refl ["a"]
  have happly : (Constraint.mk ⟨1⟩ .none (.hasMember "b" ⟨0⟩)).apply g = .ok () g' := by
    simp only [g, g', before, after]
    cbv
  have hafter : g'.kind ⟨1⟩ = after := by
    simp only [g', after]
    cbv
  refine ⟨g', hg, .single (.apply _ (by decide) (.inl happly)), hafter, fun hg' => ?_, ?_⟩
  · have hlist := hg' ⟨1⟩
    rw [hafter] at hlist
    have hperm : ["a"].Perm ["a", "b"] := hlist
    exact absurd hperm (by decide)
  · simp only [g', after]
    cbv

end TypeGraph
end Monomorph
