import Monomorph.Proofs.Outcome
import Monomorph.Proofs.Type.Unification
import Monomorph.Symbol.Native
import Monomorph.Type.Graph.Copy
import Monomorph.Type.Written

/-! # What no computation takes back

A computation that fails keeps what it changed, so types need not narrow: a unification that clashes has made
classes of types whose insides do not agree. What holds over every computation, however it ends, is that the
*outlines* of types are refined (`TypeGraph.Sharpens`): classes stay together, and every kind refines the one
before if the variables inside are not looked at. So a union keeps its variants, and a closed one gains none.

Allocating changes nothing that was there (`TypeGraph.Extends`). -/

namespace Monomorph

open Outcome

/-- A kind refines another if the variables inside are not told apart. -/
abbrev Kind.Sharpens (k l : Kind) : Prop := k.Refines (fun _ _ => True) l

theorem equivalence_true : Equivalence fun _ _ : TypeVar => True :=
  ⟨fun _ => trivial, fun _ => trivial, fun _ _ => trivial⟩

namespace Kind

theorem Sharpens.refl (k : Kind) : k.Sharpens k := Refines.refl equivalence_true k

theorem Sharpens.trans {a b c : Kind} (h : a.Sharpens b) (h' : b.Sharpens c) : a.Sharpens c :=
  Refines.trans equivalence_true h h'

end Kind

namespace TypeGraph

variable {g g' g'' : TypeGraph} {v w : TypeVar}

/-! ### Adding variables -/

/-- Variables were added and nothing else was changed. -/
def Extends (g' g : TypeGraph) : Prop := g.cells.toList <+: g'.cells.toList

theorem Extends.refl (g : TypeGraph) : g.Extends g := List.prefix_rfl

theorem Extends.trans (h : g'.Extends g) (h' : g''.Extends g') : g''.Extends g :=
  List.IsPrefix.trans h h'

theorem extends_kept : Kept fun g g' : TypeGraph => g'.Extends g := ⟨.refl, .trans⟩

theorem extends_append (g : TypeGraph) (more : Array Cell) : Extends ⟨g.cells ++ more⟩ g := by
  simp [Extends]

theorem extends_alloc (g : TypeGraph) (t : Ty) : (g.alloc t).2.Extends g := by
  simp [Extends, alloc]

theorem Extends.size_le (h : g'.Extends g) : g.size ≤ g'.size := by
  simpa [size] using List.IsPrefix.length_le h

theorem Extends.getElem? (h : g'.Extends g) {i : Nat} (hi : i < g.size) : g'.cells[i]? = g.cells[i]? := by
  obtain ⟨more, hmore⟩ := h
  rw [← Array.getElem?_toList, ← hmore, List.getElem?_append_left (by simpa [size] using hi),
    Array.getElem?_toList]

theorem Extends.rootIndex (h : g'.Extends g) {i : Nat} (hi : i < g.size) :
    g'.rootIndex i = g.rootIndex i := by
  induction i using Nat.strongRecOn with
  | ind i ih =>
    rw [TypeGraph.rootIndex, TypeGraph.rootIndex, h.getElem? hi]
    split
    · split
      · rename_i hlt
        exact ih _ hlt (Nat.lt_trans hlt hi)
      · rfl
    · rfl

theorem Extends.kind (h : g'.Extends g) (hv : v.index < g.size) : g'.kind v = g.kind v := by
  rw [TypeGraph.kind, TypeGraph.kind, get_eq_typeAt, get_eq_typeAt, h.rootIndex hv, typeAt, typeAt,
    h.getElem? (rootIndex_lt_size hv)]

theorem Extends.set {t : Ty} (h : g'.Extends (g.alloc t).2) (t' : Ty) :
    (g'.set ⟨g.size⟩ t').Extends g := by
  have hsize : g.size < (g.alloc t).2.size := by simp [size_alloc]
  have hroot : g'.rootIndex g.size = g.size := by
    rw [h.rootIndex hsize, rootIndex_alloc, rootIndex_of_size_le (Nat.le_refl _)]
  obtain ⟨more, hmore⟩ := h
  refine ⟨.root t' :: more, ?_⟩
  change _ = (g'.cells.setIfInBounds (g'.rootIndex g.size) _).toList
  rw [hroot, Array.toList_setIfInBounds, ← hmore]
  simp [alloc, size]

/-! ### Refining outlines -/

/-- Classes stay together and the outlines of types are refined. -/
structure Sharpens (g g' : TypeGraph) : Prop where
  size_le : g.size ≤ g'.size
  same : ∀ {v w}, g.Same v w → g'.Same v w
  kind : ∀ v, (g'.kind v).Sharpens (g.kind v)

theorem Sharpens.refl (g : TypeGraph) : g.Sharpens g := ⟨Nat.le_refl _, id, fun _ => .refl _⟩

theorem Sharpens.trans (h : g.Sharpens g') (h' : g'.Sharpens g'') : g.Sharpens g'' :=
  ⟨Nat.le_trans h.size_le h'.size_le, fun hvw => h'.same (h.same hvw),
    fun v => (h'.kind v).trans (h.kind v)⟩

theorem sharpens_kept : Kept Sharpens := ⟨.refl, .trans⟩

theorem Extends.sharpens (h : g'.Extends g) : g.Sharpens g' where
  size_le := h.size_le
  same {v w} hvw := by
    rw [same_iff] at hvw ⊢
    by_cases hv : v.index < g.size
    · have hw : w.index < g.size := lt_size_of_rootIndex (hvw ▸ rootIndex_lt_size hv)
      rwa [h.rootIndex hv, h.rootIndex hw]
    · have hle := Nat.le_of_not_lt hv
      have hw : g.size ≤ w.index := by
        refine Nat.le_of_not_lt fun hlt => hv (lt_size_of_rootIndex ?_)
        exact hvw ▸ rootIndex_lt_size hlt
      rw [rootIndex_of_size_le hle, rootIndex_of_size_le hw] at hvw
      rw [hvw]
  kind v := by
    by_cases hv : v.index < g.size
    · rw [h.kind hv]
      exact .refl _
    · rw [size_le_of_kind_eq_any (Nat.le_of_not_lt hv)]
      exact trivial

theorem kind_fresh (g : TypeGraph) (v : TypeVar) : g.fresh.2.kind v = g.kind v := by
  rw [fresh, kind, get_alloc]
  split
  · rename_i hv
    rw [size_le_of_kind_eq_any (Nat.le_of_eq hv.symm)]
    rfl
  · rfl

theorem sharpens_set {t : Ty} (h : t.kind.Sharpens (g.kind v)) : g.Sharpens (g.set v t) where
  size_le := Nat.le_of_eq (size_set g v t).symm
  same {a b} hab := by rwa [same_iff, rootIndex_set, rootIndex_set, ← same_iff]
  kind w := by
    by_cases hv : v.index < g.size
    · rw [kind, get_set hv]
      split
      · rename_i hvw
        exact kind_eq_of_same hvw ▸ h
      · exact .refl _
    · have hroot : g.cells.size ≤ g.rootIndex v.index := by
        rw [rootIndex_of_size_le (Nat.le_of_not_lt hv)]
        exact Nat.le_of_not_lt hv
      rw [set, Array.setIfInBounds_eq_of_size_le hroot]
      exact .refl _

theorem sharpens_joinIndex {i j : Nat} {t : Ty} (hi : i < g.size) (hj : j < g.size) (hne : i ≠ j)
    (hrooti : g.rootIndex i = i) (hrootj : g.rootIndex j = j)
    (h : t.kind.Sharpens (g.kind ⟨i⟩) ∧ t.kind.Sharpens (g.kind ⟨j⟩)) :
    g.Sharpens (g.joinIndex i j t) where
  size_le := Nat.le_of_eq (size_joinIndex g i j t).symm
  same hvw := (same_joinIndex_iff hi hj hne hrooti hrootj).2 (.inl hvw)
  kind v := by
    rw [kind, get_joinIndex hi hj hne hrooti hrootj]
    split
    · rename_i hroot
      rcases hroot with rfl | rfl
      · exact kind_eq_of_same (g.same_root v) ▸ h.1
      · exact kind_eq_of_same (g.same_root v) ▸ h.2
    · exact .refl _

/-- Unification refines outlines, also where it fails. -/
theorem unifyAll_sharpens (span : Span) (g : TypeGraph) (queue : List PendingPair) :
    match g.unifyAll span queue with
    | .ok _ g' | .error _ g' => g.Sharpens g' := by
  fun_induction unifyAll span g queue with
  | case1 g => exact .refl g
  | case2 g => exact .refl g
  | case3 g a b path rest i j hroots x y t inner hmerge ih =>
    obtain ⟨hne, hi, hj⟩ := hroots
    have hjoin : g.Sharpens (g.joinIndex i j t) := by
      refine sharpens_joinIndex hi hj hne (g.rootIndex_rootIndex _) (g.rootIndex_rootIndex _) ?_
      rw [kind_eq_of_same (g.same_root a), kind_eq_of_same (g.same_root b)]
      exact (Ty.refines_merge_iff equivalence_true hmerge (fun _ _ => trivial) t.kind).1
        (Kind.Sharpens.refl _)
    generalize unifyAll span (g.joinIndex i j t) _ = result at ih
    cases result with
    | ok _ g' => exact hjoin.trans ih
    | error _ g' => exact hjoin.trans ih
  | case4 g a b path rest i j hroots ih => exact ih

end TypeGraph

open TypeGraph

variable {g : TypeGraph} {v w : TypeVar} {span : Span}

theorem unifyAt_sharpens (a b : TypeVar) (span : Span) (path : StepPath) :
    Keeps Sharpens (unifyAt a b span path) := fun g => by
  have h := unifyAll_sharpens span g [⟨a, b, path⟩]
  unfold unifyAt
  exact ⟨fun hok => by rwa [hok] at h, fun herror => by rwa [herror] at h⟩

/-- Unification that succeeds makes one class of the two variables, whatever the types of the graph are. -/
theorem unifyAt_same {g' : TypeGraph} {path : StepPath} {u : Unit} (hv : v.index < g.size) (hw : w.index < g.size)
    (h : unifyAt v w span path g = .ok u g') : g'.Same v w := by
  have hrest := unifyAll_sharpens span g [⟨v, w, path⟩]
  unfold unifyAt at h
  rw [h] at hrest
  by_cases hsame : g.rootIndex v.index = g.rootIndex w.index
  · exact hrest.same (same_iff.2 hsame)
  rw [unifyAll] at h
  dsimp only at h
  rw [dif_pos ⟨hsame, rootIndex_lt_size hv, rootIndex_lt_size hw⟩] at h
  split at h
  · cases h
  · rename_i merged inner hmerge
    have hjoin := unifyAll_sharpens span
      (g.joinIndex (g.rootIndex v.index) (g.rootIndex w.index) merged)
      ([] ++ inner.map fun p => ⟨p.left, p.right, p.step :: path⟩)
    rw [h] at hjoin
    refine hjoin.same ((same_joinIndex_iff (rootIndex_lt_size hv) (rootIndex_lt_size hw) hsame
      (g.rootIndex_rootIndex _) (g.rootIndex_rootIndex _)).2 (.inr ⟨.inl rfl, .inr rfl⟩))

/-! ### Constraints -/

theorem settle_sharpens {kind : Kind} {origin : Option Span} (h : kind.Sharpens (g.kind v)) :
    KeepsAt Sharpens (settle v kind origin) g :=
  ⟨fun hok => (ok_eq_ok_iff.1 hok).2 ▸ sharpens_set h, nofun⟩

theorem allocate_extends (t : Ty) : Keeps (fun g g' => g'.Extends g) (allocate t) := fun g =>
  ⟨fun hok => (ok_eq_ok_iff.1 hok).2 ▸ extends_alloc g t, nofun⟩

theorem freshFor_extends (names : List String) :
    Keeps (fun g g' => g'.Extends g) (freshFor names) := by
  induction names with
  | nil => exact extends_kept.pure _
  | cons name names ih =>
    exact extends_kept.bind (allocate_extends _) fun _ => extends_kept.bind ih fun _ => extends_kept.pure _

theorem freshFor_kind {names : List String} {members : List (String × TypeVar)} {g' : TypeGraph}
    (h : freshFor names g = .ok members g') (v : TypeVar) : g'.kind v = g.kind v := by
  induction names generalizing g members with
  | nil =>
    obtain ⟨-, rfl⟩ := pure_eq_ok_iff.1 h
    rfl
  | cons name names ih =>
    obtain ⟨w, g₁, hfresh, h⟩ := bind_eq_ok_iff.1 h
    obtain ⟨rest, g₂, hrest, h⟩ := bind_eq_ok_iff.1 h
    obtain ⟨-, rfl⟩ := pure_eq_ok_iff.1 h
    obtain ⟨-, rfl⟩ := ok_eq_ok_iff.1 hfresh
    exact (ih hrest).trans (kind_fresh g v)

/-- A kind given to a variable, with a variable for each of some names inside. -/
theorem freshFor_settle_sharpens {names : List String} {origin : Option Span}
    {kind : List (String × TypeVar) → Kind} (h : ∀ members, (kind members).Sharpens (g.kind v)) :
    KeepsAt Sharpens (freshFor names >>= fun members => settle v (kind members) origin) g := by
  refine sharpens_kept.bindAt ⟨fun hok => ?_, fun herror => ?_⟩ fun hok => settle_sharpens ?_
  · exact ((freshFor_extends names g).ok hok).sharpens
  · exact ((freshFor_extends names g).error herror).sharpens
  · rw [freshFor_kind hok]
    exact h _

namespace Constraint

/-- The variants added to a union are all that is new. -/
theorem addVariants_get? {isOpen : Bool} {toAdd : List (String × TypeVar)} {row row' : Row TypeVar}
    {both : List (String × TypeVar × TypeVar)} (h : addVariants isOpen toAdd row = .ok (row', both)) :
    (∀ name v, row.get? name = some v → row'.get? name = some v) ∧ (isOpen = false → row' = row) := by
  induction toAdd generalizing row row' both with
  | nil =>
    cases h
    exact ⟨fun _ _ h => h, fun _ => rfl⟩
  | cons e toAdd ih =>
    obtain ⟨name, payload⟩ := e
    rw [addVariants] at h
    split at h
    · split at h
      · rename_i hrest
        cases h
        exact ih hrest
      · cases h
    · rename_i hnone
      split at h
      · rename_i hopen
        obtain ⟨hkept, -⟩ := ih h
        refine ⟨fun n v hn => hkept n v ?_, fun hclosed => absurd hopen (by simp [hclosed])⟩
        rw [Row.get?_insert, if_neg]
        · exact hn
        · rintro rfl
          cases hnone.symm.trans hn
      · cases h

/-- Applying a constraint refines outlines, also where it fails. -/
theorem apply_sharpens (c : Constraint) : Keeps Sharpens c.apply := fun g => by
  obtain ⟨v, span, d⟩ := c
  have hkind : g.kind v = (g.get v).kind := rfl
  have hpure (u : Unit) : KeepsAt Sharpens (pure u : TypeM Unit) g := sharpens_kept.pure u g
  have hthrow (e : TypeError) : KeepsAt Sharpens (throw e : TypeM Unit) g := sharpens_kept.throw e g
  refine keepsAt_get_bind ?_
  cases d with
  | isBase base reason =>
    dsimp only
    split
    · exact hpure ()
    · split
      · rename_i hrefines
        refine settle_sharpens ?_
        rw [hkind]
        cases base <;> cases hk : (g.get v).kind <;> rw [hk] at hrefines <;> trivial
      · exact hthrow _
  | isNumeric =>
    dsimp only
    split
    · rename_i hk
      exact settle_sharpens (by rw [hkind, hk]; trivial)
    · split
      · exact hpure ()
      · exact hthrow _
  | isIndexed =>
    dsimp only
    split
    · rename_i hk
      exact settle_sharpens (by rw [hkind, hk]; trivial)
    · rename_i hk
      exact settle_sharpens (by rw [hkind, hk]; rfl)
    · rename_i hk
      exact settle_sharpens (by rw [hkind, hk]; rfl)
    · split
      · exact hpure ()
      · exact hthrow _
  | isReferenced =>
    dsimp only
    split
    · rename_i hk
      exact settle_sharpens (by rw [hkind, hk]; trivial)
    · rename_i hk
      exact settle_sharpens (by rw [hkind, hk]; rfl)
    · split
      · exact hpure ()
      · exact hthrow _
  | isSequence =>
    dsimp only
    split
    · rename_i hk
      exact settle_sharpens (by rw [hkind, hk]; trivial)
    · rename_i hk
      exact settle_sharpens (by rw [hkind, hk]; rfl)
    · split
      · exact hpure ()
      · exact hthrow _
  | hasElement element =>
    dsimp only
    split
    · rename_i hk
      exact settle_sharpens (by rw [hkind, hk]; trivial)
    · rename_i hk
      exact settle_sharpens (by rw [hkind, hk]; rfl)
    · rename_i hk
      exact settle_sharpens (by rw [hkind, hk]; rfl)
    · rename_i hk
      exact settle_sharpens (by rw [hkind, hk]; rfl)
    · exact unifyAt_sharpens _ _ span _ g
    · exact hthrow _
  | hasMember name type =>
    dsimp only
    split
    · rename_i hk
      exact settle_sharpens (by rw [hkind, hk]; trivial)
    · rename_i hk
      exact settle_sharpens (by rw [hkind, hk]; rfl)
    · rename_i members isOpen order hk
      split
      · exact unifyAt_sharpens _ _ span _ g
      · rename_i hnone
        split
        · rename_i hopen
          refine settle_sharpens ?_
          rw [hkind, hk, hopen]
          exact ⟨rowRefines_insert equivalence_true hnone, fun _ h => h⟩
        · exact hthrow _
    · exact hthrow _
  | limitMembers names =>
    dsimp only
    split
    · rename_i hk
      exact freshFor_settle_sharpens (fun _ => by rw [hkind, hk]; trivial)
    · rename_i hk
      exact freshFor_settle_sharpens (fun _ => by rw [hkind, hk]; rfl)
    · rename_i members isOpen order hk
      refine settle_sharpens ?_
      rw [hkind, hk]
      exact ⟨rowRefines_close equivalence_true members isOpen, fun _ h => h⟩
    · exact hthrow _
  | hasSignature args returns =>
    dsimp only
    split
    · rename_i hk
      exact settle_sharpens (by rw [hkind, hk]; trivial)
    · rename_i hk
      exact settle_sharpens (by rw [hkind, hk]; rfl)
    · split
      · exact sharpens_kept.bind (sharpens_kept.forM (fun p => unifyAt_sharpens _ _ span _) _)
          (fun _ => unifyAt_sharpens _ _ span _) g
      · exact hthrow _
    · exact hthrow _
  | hasVariant name type =>
    dsimp only
    split
    · rename_i hk
      exact settle_sharpens (by rw [hkind, hk]; trivial)
    · rename_i variants isOpen hk
      split
      · exact unifyAt_sharpens _ _ span _ g
      · rename_i hnone
        split
        · rename_i hopen
          refine settle_sharpens ?_
          rw [hkind, hk, hopen]
          exact rowRefines_insert equivalence_true hnone
        · exact hthrow _
    · exact hthrow _
  | limitVariants names =>
    dsimp only
    split
    · rename_i hk
      exact freshFor_settle_sharpens (fun _ => by rw [hkind, hk]; trivial)
    · rename_i variants isOpen hk
      split
      · exact hthrow _
      · refine settle_sharpens ?_
        rw [hkind, hk]
        exact rowRefines_close equivalence_true variants isOpen
    · exact hthrow _
  | variantsOfExcept source leftOut =>
    dsimp only
    split
    · split
      · rename_i hk
        exact settle_sharpens (by rw [hkind, hk]; trivial)
      · rename_i variants isOpen hk
        split
        · exact hthrow _
        · rename_i hadd
          refine sharpens_kept.bindAt (settle_sharpens ?_) fun _ =>
            sharpens_kept.forM (fun e => unifyAt_sharpens _ _ span _) _ _
          rw [hkind, hk]
          obtain ⟨hkept, hclosed⟩ := addVariants_get? hadd
          refine ⟨fun n v hn => ⟨v, hkept n v hn, trivial⟩, id, fun hopen n hn => ?_⟩
          rwa [hclosed hopen] at hn
      · exact hthrow _
    · exact hthrow _
  | unify other => exact unifyAt_sharpens v other span [] g

end Constraint

/-! ### Computations that allocate -/

theorem copyAll_extends (g : TypeGraph) (vs : List TypeVar) : (g.copyAll vs).2.Extends g :=
  extends_append g _

theorem NativeSignature.instantiate_extends (n : NativeSignature) (span : Span) (g : TypeGraph) :
    (n.instantiate span g).2.Extends g :=
  extends_append g _

namespace WrittenType

/-- A recursive type: its variable is allocated before what is inside and settled after it. -/
theorem recursive_extends {α : Type} {x : TypeVar → TypeM Kind} {origin : Option Span}
    {result : TypeVar → Kind → α} (hx : ∀ v, Keeps (fun g g' => g'.Extends g) (x v)) :
    Keeps (fun g g' => g'.Extends g) (do
      let v ← fresh
      let kind ← x v
      settle v kind origin
      return result v kind) := fun g => by
  constructor
  · intro a g' h
    obtain ⟨v, g₁, hfresh, h⟩ := bind_eq_ok_iff.1 h
    obtain ⟨kind, g₂, hkind, h⟩ := bind_eq_ok_iff.1 h
    obtain ⟨⟨⟩, g₃, hsettle, h⟩ := bind_eq_ok_iff.1 h
    obtain ⟨-, rfl⟩ := pure_eq_ok_iff.1 h
    obtain ⟨rfl, rfl⟩ := ok_eq_ok_iff.1 hfresh
    obtain ⟨-, rfl⟩ := ok_eq_ok_iff.1 hsettle
    exact Extends.set ((hx _ _).ok hkind) _
  · intro e g' h
    rcases bind_eq_error_iff.1 h with h | ⟨v, g₁, hfresh, h⟩
    · exact (allocate_extends _ g).error h
    · have hstart := (allocate_extends _ g).ok hfresh
      rcases bind_eq_error_iff.1 h with h | ⟨kind, g₂, hkind, h⟩
      · exact hstart.trans ((hx v g₁).error h)
      · rcases bind_eq_error_iff.1 h with h | ⟨u, g₃, hsettle, h⟩ <;> cases h

mutual

theorem shape_extends (origin : Option Span) : (enclosing : Enclosing) → (t : WrittenType) →
    Keeps (fun g g' => g'.Extends g) (shape origin enclosing t)
  | _, .plain _ => extends_kept.pure _
  | enclosing, .array element =>
    extends_kept.bind (build_extends origin enclosing element) fun _ => extends_kept.pure _
  | enclosing, .object members _ _ =>
    extends_kept.bind (buildNamed_extends origin enclosing members) fun _ => extends_kept.pure _
  | enclosing, .union variants _ =>
    extends_kept.bind (buildNamed_extends origin enclosing variants) fun _ => extends_kept.pure _
  | enclosing, .closure args returns =>
    extends_kept.bind (buildAll_extends origin enclosing args) fun _ =>
      extends_kept.bind (build_extends origin enclosing returns) fun _ => extends_kept.pure _
  | _, .existing _ => keeps_get_bind fun _ => extends_kept.pure _
  | enclosing, .recursive name body =>
    recursive_extends fun v => shape_extends origin ((name, v) :: enclosing) body
  | enclosing, .self name => by
    rw [shape]
    split
    · exact keeps_get_bind fun _ => extends_kept.pure _
    · exact extends_kept.pure _

theorem build_extends (origin : Option Span) : (enclosing : Enclosing) → (t : WrittenType) →
    Keeps (fun g g' => g'.Extends g) (build origin enclosing t)
  | _, .plain _ => allocate_extends _
  | enclosing, .array element =>
    extends_kept.bind (build_extends origin enclosing element) fun _ => allocate_extends _
  | enclosing, .object members _ _ =>
    extends_kept.bind (buildNamed_extends origin enclosing members) fun _ => allocate_extends _
  | enclosing, .union variants _ =>
    extends_kept.bind (buildNamed_extends origin enclosing variants) fun _ => allocate_extends _
  | enclosing, .closure args returns =>
    extends_kept.bind (buildAll_extends origin enclosing args) fun _ =>
      extends_kept.bind (build_extends origin enclosing returns) fun _ => allocate_extends _
  | _, .existing _ => extends_kept.pure _
  | enclosing, .recursive name body =>
    recursive_extends fun v => shape_extends origin ((name, v) :: enclosing) body
  | enclosing, .self name => by
    rw [build]
    split
    · exact extends_kept.pure _
    · exact allocate_extends _

theorem buildNamed_extends (origin : Option Span) : (enclosing : Enclosing) →
    (ts : List (String × WrittenType)) → Keeps (fun g g' => g'.Extends g) (buildNamed origin enclosing ts)
  | _, [] => extends_kept.pure _
  | enclosing, (_, t) :: rest =>
    extends_kept.bind (build_extends origin enclosing t) fun _ =>
      extends_kept.bind (buildNamed_extends origin enclosing rest) fun _ => extends_kept.pure _

theorem buildAll_extends (origin : Option Span) : (enclosing : Enclosing) →
    (ts : List WrittenType) → Keeps (fun g g' => g'.Extends g) (buildAll origin enclosing ts)
  | _, [] => extends_kept.pure _
  | enclosing, t :: rest =>
    extends_kept.bind (build_extends origin enclosing t) fun _ =>
      extends_kept.bind (buildAll_extends origin enclosing rest) fun _ => extends_kept.pure _

end

end WrittenType
end Monomorph
