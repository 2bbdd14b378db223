import Mathlib.Data.List.Forall2
import Mathlib.Order.Defs.Unbundled
import Monomorph.Proofs.Row

/-! # Refinement of kinds

A kind *refines* another if it is at least as precise: a placeholder category is refined by the kinds it
admits, a concrete kind only by kinds of its constructor. The variables inside are compared by a relation
`r`, which stands for "denote one type".

* `Kind.Refines.refl`, `Kind.Refines.trans`: refinement is a preorder if `r` is an equivalence.
* `Kind.Agree`: the variables inside two kinds that have to denote one type if the kinds do. Kinds with a
  common refinement agree (`Kind.Refines.agree`).
* `Kind.refines_meet_iff`: where `Kind.meet` combines two kinds, the result is their greatest common
  refinement; where it clashes, they have none (`Kind.no_common_of_clash`). -/

namespace Monomorph

/-- A relation between type variables. -/
abbrev VarRel := TypeVar → TypeVar → Prop

/-- A row refines another: it has all its names, with related variables; a closed row is only refined by
closed rows without further names. -/
structure RowRefines (r : VarRel) (xs : Row TypeVar) (xOpen : Bool) (ys : Row TypeVar)
    (yOpen : Bool) : Prop where
  names : ∀ name y, ys.get? name = some y → ∃ x, xs.get? name = some x ∧ r x y
  isClosed : yOpen = false → xOpen = false
  noFurther : yOpen = false → ∀ name, xs.contains name = true → ys.contains name = true

namespace Kind

/-- `k.Refines r l`: the kind `k` is at least as precise as `l`. -/
def Refines (r : VarRel) : Kind → Kind → Prop
  | _, any => True
  | k, numeric => k.isNumeric = true
  | k, indexed => k.isIndexed = true
  | k, referenced => k.isReferenced = true
  | k, sequence => k.isSequence = true
  | array x, array y => r x y
  | object xs xOpen xOrder, object ys yOpen yOrder =>
    RowRefines r xs xOpen ys yOpen ∧ ∀ order, yOrder = some order → xOrder = some order
  | union xs xOpen, union ys yOpen => RowRefines r xs xOpen ys yOpen
  | closure xs x, closure ys y => List.Forall₂ r xs ys ∧ r x y
  | unit, unit | boolean, boolean | integer, integer | float, float | string, string => True
  | _, _ => False

/-- Variables inside two kinds that have to denote one type if the kinds do: elements, members and
variants of a name that both have, arguments and results. -/
def Agree (r : VarRel) : Kind → Kind → Prop
  | array x, array y => r x y
  | object xs _ _, object ys _ _ | union xs _, union ys _ =>
    ∀ name x y, xs.get? name = some x → ys.get? name = some y → r x y
  | closure xs x, closure ys y => (∀ p ∈ xs.zip ys, r p.1 p.2) ∧ r x y
  | _, _ => True

end Kind

theorem forall₂_trans {r : VarRel} (hr : Equivalence r) {xs ys zs : List TypeVar}
    (h₁ : List.Forall₂ r xs ys) (h₂ : List.Forall₂ r ys zs) : List.Forall₂ r xs zs := by
  induction h₁ generalizing zs with
  | nil => exact h₂
  | cons h _ ih =>
    cases h₂ with
    | cons h' hrest => exact .cons (hr.trans h h') (ih hrest)

/-! ### Rows -/

section rows

variable {r : VarRel} {xs ys zs : Row TypeVar} {xOpen yOpen zOpen : Bool}

theorem RowRefines.refl (hr : Equivalence r) (xs : Row TypeVar) (xOpen : Bool) :
    RowRefines r xs xOpen xs xOpen :=
  ⟨fun _ x hx => ⟨x, hx, hr.refl x⟩, id, fun _ _ h => h⟩

theorem RowRefines.trans (hr : Equivalence r) (h₁ : RowRefines r xs xOpen ys yOpen)
    (h₂ : RowRefines r ys yOpen zs zOpen) : RowRefines r xs xOpen zs zOpen where
  names name z hz := by
    obtain ⟨y, hy, hyz⟩ := h₂.names name z hz
    obtain ⟨x, hx, hxy⟩ := h₁.names name y hy
    exact ⟨x, hx, hr.trans hxy hyz⟩
  isClosed h := h₁.isClosed (h₂.isClosed h)
  noFurther h name hx := h₂.noFurther h name (h₁.noFurther (h₂.isClosed h) name hx)

theorem RowRefines.mono {r' : VarRel} (hle : ∀ v w, r v w → r' v w)
    (h : RowRefines r xs xOpen ys yOpen) : RowRefines r' xs xOpen ys yOpen where
  names name y hy := (h.names name y hy).imp fun x hx => ⟨hx.1, hle x y hx.2⟩
  isClosed := h.isClosed
  noFurther := h.noFurther

theorem rowRefines_insert (hr : Equivalence r) {name : String} {x : TypeVar} (hnone : xs.get? name = none) :
    RowRefines r (xs.insert name x) true xs true := by
  refine ⟨fun n y hy => ?_, nofun, nofun⟩
  rw [Row.get?_insert, if_neg fun hn => by rw [← hn, hnone] at hy; cases hy]
  exact ⟨y, hy, hr.refl y⟩

theorem rowRefines_close (hr : Equivalence r) (row : Row TypeVar) (isOpen : Bool) :
    RowRefines r row false row isOpen :=
  ⟨fun _ y hy => ⟨y, hy, hr.refl y⟩, fun _ => rfl, fun _ _ h => h⟩

/-- Two rows with a common refinement have related variables at every name they share. -/
theorem RowRefines.shared (hr : Equivalence r) (h₁ : RowRefines r zs zOpen xs xOpen)
    (h₂ : RowRefines r zs zOpen ys yOpen) {name : String} {x y : TypeVar}
    (hx : xs.get? name = some x) (hy : ys.get? name = some y) : r x y := by
  obtain ⟨z, hz, hzx⟩ := h₁.names name x hx
  obtain ⟨z', hz', hzy⟩ := h₂.names name y hy
  obtain rfl : z = z' := Option.some.inj (hz.symm.trans hz')
  exact hr.trans (hr.symm hzx) hzy

/-- A closed row has every name of a row with which it has a common refinement. -/
theorem RowRefines.contains (h₁ : RowRefines r zs zOpen xs xOpen)
    (h₂ : RowRefines r zs zOpen ys yOpen) (hclosed : xOpen = false) {name : String}
    (hy : ys.contains name = true) : xs.contains name = true := by
  obtain ⟨y, hy⟩ := ys.contains_iff.1 hy
  obtain ⟨z, hz, -⟩ := h₂.names name y hy
  exact h₁.noFurther hclosed name (Row.contains_of_get? hz)

/-- The combination of two rows is refined by exactly the rows that refine both. -/
theorem rowRefines_extend_iff (hr : Equivalence r)
    (hxs : xOpen = false → ∀ name, ys.contains name = true → xs.contains name = true)
    (hys : yOpen = false → ∀ name, xs.contains name = true → ys.contains name = true)
    (hshared : ∀ name x y, xs.get? name = some x → ys.get? name = some y → r x y) :
    RowRefines r zs zOpen (xs.extend ys) (xOpen && yOpen) ↔
      RowRefines r zs zOpen xs xOpen ∧ RowRefines r zs zOpen ys yOpen := by
  have hget (name : String) := xs.get?_extend ys name
  have hcontains (name : String) : (xs.extend ys).contains name = true ↔
      xs.contains name = true ∨ ys.contains name = true := by
    simp only [Row.contains, hget]
    cases xs.get? name <;> simp
  constructor
  · intro h
    refine ⟨⟨fun name x hx => h.names name x (by simp [hget, hx]), fun hx => h.isClosed (by simp [hx]),
      fun hx name hz => ?_⟩, ⟨fun name y hy => ?_, fun hy => h.isClosed (by simp [hy]),
      fun hy name hz => ?_⟩⟩
    · rcases (hcontains name).1 (h.noFurther (by simp [hx]) name hz) with hc | hc
      · exact hc
      · exact hxs hx name hc
    · cases hx : xs.get? name with
      | none => exact h.names name y (by simp [hget, hx, hy])
      | some x =>
        obtain ⟨z, hz, hzx⟩ := h.names name x (by simp [hget, hx])
        exact ⟨z, hz, hr.trans hzx (hshared name x y hx hy)⟩
    · rcases (hcontains name).1 (h.noFurther (by simp [hy]) name hz) with hc | hc
      · exact hys hy name hc
      · exact hc
  · rintro ⟨h₁, h₂⟩
    refine ⟨fun name w hw => ?_, fun h => ?_, fun h name hz => (hcontains name).2 ?_⟩
    · cases hx : xs.get? name with
      | none => exact h₂.names name w (by simpa [hget, hx] using hw)
      | some x => exact h₁.names name w (by simpa [hget, hx] using hw)
    · rcases Bool.and_eq_false_iff.1 h with hx | hy
      · exact h₁.isClosed hx
      · exact h₂.isClosed hy
    · rcases Bool.and_eq_false_iff.1 h with hx | hy
      · exact .inl (h₁.noFurther hx name hz)
      · exact .inr (h₂.noFurther hy name hz)

end rows

/-! ### Refinement is a preorder -/

namespace Kind

variable {r : VarRel} {k k' a b c : Kind}

theorem Refines.refl (hr : Equivalence r) (k : Kind) : k.Refines r k := by
  cases k with
  | array x => exact hr.refl x
  | object xs isOpen order => exact ⟨RowRefines.refl hr xs isOpen, fun _ h => h⟩
  | union xs isOpen => exact RowRefines.refl hr xs isOpen
  | closure xs x => exact ⟨List.forall₂_same.2 fun y _ => hr.refl y, hr.refl x⟩
  | _ => simp [Refines, isNumeric, isIndexed, isReferenced, isSequence]

/-! A refinement lies in the categories of what it refines. -/

theorem Refines.isNumeric (h : k.Refines r a) (ha : a.isNumeric = true) : k.isNumeric = true := by
  cases a with
  | numeric => exact h
  | integer | float => cases k <;> first | rfl | exact h.elim
  | _ => cases ha

theorem Refines.isIndexed (h : k.Refines r a) (ha : a.isIndexed = true) : k.isIndexed = true := by
  cases a with
  | indexed => exact h
  | array x => cases k <;> first | rfl | exact h.elim
  | _ => cases ha

theorem isReferenced_of_isIndexed (h : k.isIndexed = true) : k.isReferenced = true := by
  cases k <;> first | rfl | cases h

theorem isSequence_of_isIndexed (h : k.isIndexed = true) : k.isSequence = true := by
  cases k <;> first | rfl | cases h

theorem isIndexed_of_categories (h₁ : k.isSequence = true) (h₂ : k.isReferenced = true) :
    k.isIndexed = true := by
  cases k <;> first
    | rfl
    | exact (Bool.false_ne_true h₁).elim
    | exact (Bool.false_ne_true h₂).elim

theorem Refines.isReferenced (h : k.Refines r a) (ha : a.isReferenced = true) :
    k.isReferenced = true := by
  cases a with
  | indexed => exact isReferenced_of_isIndexed h
  | referenced => exact h
  | array | object | closure => cases k <;> first | rfl | exact h.elim
  | _ => cases ha

theorem Refines.isSequence (h : k.Refines r a) (ha : a.isSequence = true) :
    k.isSequence = true := by
  cases a with
  | indexed => exact isSequence_of_isIndexed h
  | sequence => exact h
  | string | array => cases k <;> first | rfl | exact h.elim
  | _ => cases ha

/-! A kind refined by a kind of a category is in the category, unless it is a wider category. -/

theorem Refines.numeric_of (h : k.Refines r a) (hk : k.isNumeric = true) :
    a = any ∨ a.isNumeric = true := by
  cases a with
  | any => exact .inl rfl
  | numeric => exact .inr rfl
  | _ =>
    cases k <;> first
      | exact .inr rfl
      | exact h.elim
      | exact (Bool.false_ne_true hk).elim
      | exact (Bool.false_ne_true h).elim

theorem Refines.indexed_of (h : k.Refines r a) (hk : k.isIndexed = true) :
    a = any ∨ (a = referenced ∨ a = sequence) ∨ a.isIndexed = true := by
  cases a with
  | any => exact .inl rfl
  | referenced => exact .inr (.inl (.inl rfl))
  | sequence => exact .inr (.inl (.inr rfl))
  | _ =>
    cases k <;> first
      | exact .inr (.inr rfl)
      | exact h.elim
      | exact (Bool.false_ne_true hk).elim
      | exact (Bool.false_ne_true h).elim

theorem Refines.referenced_of (h : k.Refines r a) (hk : k.isReferenced = true) :
    a = any ∨ a = sequence ∨ a.isReferenced = true := by
  cases a with
  | any => exact .inl rfl
  | sequence => exact .inr (.inl rfl)
  | _ =>
    cases k <;> first
      | exact .inr (.inr rfl)
      | exact h.elim
      | exact (Bool.false_ne_true hk).elim
      | exact (Bool.false_ne_true h).elim

theorem Refines.sequence_of (h : k.Refines r a) (hk : k.isSequence = true) :
    a = any ∨ a = referenced ∨ a.isSequence = true := by
  cases a with
  | any => exact .inl rfl
  | referenced => exact .inr (.inl rfl)
  | _ =>
    cases k <;> first
      | exact .inr (.inr rfl)
      | exact h.elim
      | exact (Bool.false_ne_true hk).elim
      | exact (Bool.false_ne_true h).elim

theorem Refines.trans (hr : Equivalence r) (h₁ : a.Refines r b) (h₂ : b.Refines r c) :
    a.Refines r c := by
  cases c with
  | any => trivial
  | numeric => exact h₁.isNumeric h₂
  | indexed => exact h₁.isIndexed h₂
  | referenced => exact h₁.isReferenced h₂
  | sequence => exact h₁.isSequence h₂
  | array z =>
    cases b <;> first | exact h₂.elim | skip
    cases a <;> first | exact h₁.elim | exact hr.trans h₁ h₂
  | object zs zOpen zOrder =>
    cases b <;> first | exact h₂.elim | skip
    cases a <;> first
      | exact h₁.elim
      | exact ⟨h₁.1.trans hr h₂.1, fun order h => h₁.2 order (h₂.2 order h)⟩
  | union zs zOpen =>
    cases b <;> first | exact h₂.elim | skip
    cases a <;> first | exact h₁.elim | exact RowRefines.trans hr h₁ h₂
  | closure zs z =>
    cases b <;> first | exact h₂.elim | skip
    cases a <;> first
      | exact h₁.elim
      | exact ⟨forall₂_trans hr h₁.1 h₂.1, hr.trans h₁.2 h₂.2⟩
  | unit | boolean | integer | float | string =>
    cases b <;> first | exact h₂.elim | exact h₁

/-- Refinement does not depend on which variables are told apart. -/
theorem Refines.mono {r' : VarRel} (hle : ∀ {v w}, r v w → r' v w) (h : a.Refines r b) :
    a.Refines r' b := by
  unfold Refines at h ⊢
  split at h <;> try exact h
  · exact hle h
  · exact ⟨h.1.mono fun _ _ => hle, h.2⟩
  · exact h.mono fun _ _ => hle
  · exact ⟨h.1.imp fun _ _ => hle, hle h.2⟩

/-! ### The meet is the greatest common refinement -/

end Kind

namespace Meet

def kind (a b : Kind) : Meet → Kind
  | left => a
  | right => b
  | both k _ => k

/-- The pairs inside that have to agree. -/
def inner : Meet → List InnerPair
  | left | right => []
  | both _ inner => inner

end Meet

namespace Kind

/-- What the meet of two kinds is to be: their greatest common refinement, provided that the pairs inside
denote one type, as they do if the kinds have a common refinement; and a clash only if there is none. -/
def MeetSpec (r : VarRel) (a b : Kind) : Except Clash Meet → Prop
  | .ok m =>
    ((∀ p ∈ m.inner, r p.left p.right) →
      ∀ k : Kind, k.Refines r (m.kind a b) ↔ k.Refines r a ∧ k.Refines r b) ∧
    ∀ k : Kind, k.Refines r a → k.Refines r b → ∀ p ∈ m.inner, r p.left p.right
  | .error _ => ∀ k : Kind, k.Refines r a → ¬ k.Refines r b

theorem meetSpec_left (hr : Equivalence r) (h : a.Refines r b) : MeetSpec r a b (.ok .left) :=
  ⟨fun _ _ => ⟨fun hk => ⟨hk, hk.trans hr h⟩, And.left⟩, fun _ _ _ _ hp => nomatch hp⟩

theorem meetSpec_right (hr : Equivalence r) (h : b.Refines r a) : MeetSpec r a b (.ok .right) :=
  ⟨fun _ _ => ⟨fun hk => ⟨hk.trans hr h, hk⟩, And.right⟩, fun _ _ _ _ hp => nomatch hp⟩

end Kind

section meet

open Kind

variable {r : VarRel} {a b k : Kind} {xs ys zs : Row TypeVar} {xOpen yOpen zOpen : Bool}
  {w : RowWords} {step : String → PathStep}

/-- Rows combine if no closed one lacks a name of the other. -/
theorem meetRows_ok {row : Row TypeVar} {inner : List InnerPair}
    (h : meetRows w step xs ys xOpen yOpen = .ok (row, inner)) :
    row = xs.extend ys ∧ inner = (xs.shared ys).map (fun e => ⟨e.2.1, e.2.2, step e.1⟩) ∧
      (xOpen = false → ∀ name, ys.contains name = true → xs.contains name = true) ∧
      (yOpen = false → ∀ name, xs.contains name = true → ys.contains name = true) := by
  unfold meetRows at h
  split at h
  · cases h
  · rename_i hx
    split at h
    · cases h
    · rename_i hy
      cases h
      refine ⟨rfl, rfl, fun hopen => ?_, fun hopen => ?_⟩
      · rw [hopen] at hx
        exact (xs.firstMissing?_eq_none_iff ys).1 hx
      · rw [hopen] at hy
        exact (ys.firstMissing?_eq_none_iff xs).1 hy

/-- Rows clash if a closed one lacks a name of the other. -/
theorem meetRows_error {clash : Clash} (h : meetRows w step xs ys xOpen yOpen = .error clash) :
    ∃ name, (xOpen = false ∧ ys.contains name = true ∧ xs.contains name = false) ∨
      (yOpen = false ∧ xs.contains name = true ∧ ys.contains name = false) := by
  unfold meetRows at h
  split at h
  · rename_i name hx
    cases xOpen with
    | true => cases hx
    | false => exact ⟨name, .inl ⟨rfl, Row.missing_of_firstMissing? hx⟩⟩
  · split at h
    · rename_i name hy
      cases yOpen with
      | true => cases hy
      | false => exact ⟨name, .inr ⟨rfl, Row.missing_of_firstMissing? hy⟩⟩
    · cases h

theorem shared_rel_iff :
    (∀ p ∈ (xs.shared ys).map (fun e => (⟨e.2.1, e.2.2, step e.1⟩ : InnerPair)), r p.left p.right) ↔
      ∀ name x y, xs.get? name = some x → ys.get? name = some y → r x y := by
  simp only [List.mem_map, Prod.exists, forall_exists_index, and_imp, Row.mem_shared_iff]
  constructor
  · intro h name x y hx hy
    exact h _ name x y hx hy rfl
  · rintro h _ name x y hx hy rfl
    exact h name x y hx hy

theorem refines_meetRows_iff (hr : Equivalence r) {row : Row TypeVar} {inner : List InnerPair}
    (h : meetRows w step xs ys xOpen yOpen = .ok (row, inner))
    (hinner : ∀ p ∈ inner, r p.left p.right) :
    RowRefines r zs zOpen row (xOpen && yOpen) ↔
      RowRefines r zs zOpen xs xOpen ∧ RowRefines r zs zOpen ys yOpen := by
  obtain ⟨rfl, rfl, hx, hy⟩ := meetRows_ok h
  exact rowRefines_extend_iff hr hx hy (shared_rel_iff.1 hinner)

theorem meetRows_inner (hr : Equivalence r) {row : Row TypeVar} {inner : List InnerPair}
    (h : meetRows w step xs ys xOpen yOpen = .ok (row, inner))
    (hx : RowRefines r zs zOpen xs xOpen) (hy : RowRefines r zs zOpen ys yOpen) :
    ∀ p ∈ inner, r p.left p.right := by
  obtain ⟨-, rfl, -⟩ := meetRows_ok h
  exact shared_rel_iff.2 fun _ _ _ => hx.shared hr hy

theorem meetRows_no_common {clash : Clash}
    (h : meetRows w step xs ys xOpen yOpen = .error clash)
    (hx : RowRefines r zs zOpen xs xOpen) : ¬ RowRefines r zs zOpen ys yOpen := by
  intro hy
  obtain ⟨name, ⟨hopen, hin, hout⟩ | ⟨hopen, hin, hout⟩⟩ := meetRows_error h
  · simp [hx.contains hy hopen hin] at hout
  · simp [hy.contains hx hopen hin] at hout

theorem argumentPairs_rel_iff (i : Nat) {as bs : List TypeVar} (h : as.length = bs.length) :
    (∀ p ∈ argumentPairs i as bs, r p.left p.right) ↔ List.Forall₂ r as bs := by
  induction as generalizing i bs with
  | nil =>
    cases bs with
    | nil => simp [argumentPairs]
    | cons => cases h
  | cons a as ih =>
    cases bs with
    | nil => cases h
    | cons b bs =>
      simp only [argumentPairs, List.mem_cons, forall_eq_or_imp, List.forall₂_cons,
        ih (i + 1) (Nat.succ.inj h)]

end meet

namespace Kind

variable {r : VarRel} {k a b : Kind}

theorem refines_array_iff {y : TypeVar} : k.Refines r (array y) ↔ ∃ x, k = array x ∧ r x y := by
  constructor
  · intro h
    cases k <;> first | exact h.elim | exact ⟨_, rfl, h⟩
  · rintro ⟨_, rfl, h⟩
    exact h

theorem refines_object_iff {ys : Row TypeVar} {yOpen : Bool} {yOrder : Option (List String)} :
    k.Refines r (object ys yOpen yOrder) ↔ ∃ xs xOpen xOrder, k = object xs xOpen xOrder ∧
      RowRefines r xs xOpen ys yOpen ∧ ∀ order, yOrder = some order → xOrder = some order := by
  constructor
  · intro h
    cases k <;> first | exact h.elim | exact ⟨_, _, _, rfl, h⟩
  · rintro ⟨_, _, _, rfl, h⟩
    exact h

theorem refines_union_iff {ys : Row TypeVar} {yOpen : Bool} :
    k.Refines r (union ys yOpen) ↔
      ∃ xs xOpen, k = union xs xOpen ∧ RowRefines r xs xOpen ys yOpen := by
  constructor
  · intro h
    cases k <;> first | exact h.elim | exact ⟨_, _, rfl, h⟩
  · rintro ⟨_, _, rfl, h⟩
    exact h

theorem refines_closure_iff {ys : List TypeVar} {y : TypeVar} :
    k.Refines r (closure ys y) ↔ ∃ xs x, k = closure xs x ∧ List.Forall₂ r xs ys ∧ r x y := by
  constructor
  · intro h
    cases k <;> first | exact h.elim | exact ⟨_, _, rfl, h⟩
  · rintro ⟨_, _, rfl, h⟩
    exact h

/-- Objects whose fixed layouts do not contradict each other. -/
theorem meetSpec_objects (hr : Equivalence r) {xs ys : Row TypeVar} {xOpen yOpen : Bool}
    {xOrder yOrder : Option (List String)}
    (horder : ∀ p q, xOrder = some p → yOrder = some q → p = q) :
    MeetSpec r (object xs xOpen xOrder) (object ys yOpen yOrder)
      (meet.objects xs xOpen xOrder ys yOpen yOrder) := by
  have hor (zOrder : Option (List String)) :
      (∀ p, (xOrder <|> yOrder) = some p → zOrder = some p) ↔
        (∀ p, xOrder = some p → zOrder = some p) ∧ ∀ p, yOrder = some p → zOrder = some p := by
    cases xOrder with
    | none => simp
    | some p =>
      cases yOrder with
      | none => simp
      | some q => simp [horder p q rfl rfl]
  unfold meet.objects
  split
  · rename_i row inner hrows
    refine ⟨fun hinner k => ?_, fun k hx hy => ?_⟩
    · simp only [Meet.kind, refines_object_iff]
      constructor
      · rintro ⟨zs, zOpen, zOrder, rfl, hz, horder⟩
        obtain ⟨hx, hy⟩ := (refines_meetRows_iff hr hrows hinner).1 hz
        obtain ⟨hxo, hyo⟩ := (hor zOrder).1 horder
        exact ⟨⟨zs, zOpen, zOrder, rfl, hx, hxo⟩, zs, zOpen, zOrder, rfl, hy, hyo⟩
      · rintro ⟨⟨zs, zOpen, zOrder, rfl, hx, hxo⟩, _, _, _, heq, hy, hyo⟩
        cases heq
        exact ⟨zs, zOpen, zOrder, rfl, (refines_meetRows_iff hr hrows hinner).2 ⟨hx, hy⟩,
          (hor zOrder).2 ⟨hxo, hyo⟩⟩
    · obtain ⟨zs, zOpen, zOrder, rfl, hx, -⟩ := refines_object_iff.1 hx
      exact meetRows_inner hr hrows hx hy.1
  · rename_i clash hrows
    intro k hx hy
    obtain ⟨zs, zOpen, zOrder, rfl, hx, -⟩ := refines_object_iff.1 hx
    exact meetRows_no_common hrows hx hy.1

/-- **The meet of two kinds is their greatest common refinement**, and a clash only if they have no
common refinement. -/
theorem meet_spec (hr : Equivalence r) (a b : Kind) : MeetSpec r a b (a.meet b) := by
  unfold meet
  split
  · exact meetSpec_right hr trivial
  · exact meetSpec_left hr trivial
  · exact meetSpec_left hr trivial
  · exact meetSpec_left hr trivial
  · exact meetSpec_left hr trivial
  · exact meetSpec_left hr trivial
  · exact meetSpec_left hr trivial
  · -- two arrays
    rename_i x y
    refine ⟨fun hinner k => ?_, fun k hx hy => ?_⟩
    · have hxy : r x y := hinner _ List.mem_cons_self
      simp only [Meet.kind, refines_array_iff]
      constructor
      · rintro ⟨z, rfl, hz⟩
        exact ⟨⟨z, rfl, hz⟩, z, rfl, hr.trans hz hxy⟩
      · exact And.left
    · obtain ⟨z, rfl, hz⟩ := refines_array_iff.1 hx
      simpa [Meet.inner] using hr.trans (hr.symm hz) hy
  · -- two objects
    split
    · split
      · rename_i p q hne
        intro k hx hy
        obtain ⟨zs, zOpen, zOrder, rfl, -, hxo⟩ := refines_object_iff.1 hx
        exact hne (Option.some.inj ((hxo p rfl).symm.trans (hy.2 q rfl)))
      · rename_i p q heq
        refine meetSpec_objects hr fun p' q' hp hq => ?_
        cases hp
        cases hq
        exact not_not.1 heq
    · rename_i hnone
      exact meetSpec_objects hr fun p q hp hq => (hnone p q hp hq).elim
  · -- two unions
    split
    · rename_i row inner hrows
      refine ⟨fun hinner k => ?_, fun k hx hy => ?_⟩
      · simp only [Meet.kind, refines_union_iff]
        constructor
        · rintro ⟨zs, zOpen, rfl, hz⟩
          obtain ⟨hx, hy⟩ := (refines_meetRows_iff hr hrows hinner).1 hz
          exact ⟨⟨zs, zOpen, rfl, hx⟩, zs, zOpen, rfl, hy⟩
        · rintro ⟨⟨zs, zOpen, rfl, hx⟩, _, _, heq, hy⟩
          cases heq
          exact ⟨zs, zOpen, rfl, (refines_meetRows_iff hr hrows hinner).2 ⟨hx, hy⟩⟩
      · obtain ⟨zs, zOpen, rfl, hx⟩ := refines_union_iff.1 hx
        exact meetRows_inner hr hrows hx hy
    · rename_i clash hrows
      intro k hx hy
      obtain ⟨zs, zOpen, rfl, hx⟩ := refines_union_iff.1 hx
      exact meetRows_no_common hrows hx hy
  · -- two closures
    rename_i xs x ys y
    have hpairs (hlen : xs.length = ys.length) :
        (∀ p ∈ argumentPairs 0 xs ys ++ [⟨x, y, .returns⟩], r p.left p.right) ↔
          List.Forall₂ r xs ys ∧ r x y := by
      simp only [List.mem_append, or_imp, forall_and, argumentPairs_rel_iff 0 hlen,
        List.mem_singleton, forall_eq]
    split
    · rename_i hne
      intro k hx hy
      obtain ⟨zs, z, rfl, hzs, -⟩ := refines_closure_iff.1 hx
      exact hne (hzs.length_eq.symm.trans hy.1.length_eq)
    · rename_i heq
      have hlen : xs.length = ys.length := not_not.1 heq
      refine ⟨fun hinner k => ?_, fun k hx hy => ?_⟩
      · obtain ⟨hargs, hreturns⟩ := (hpairs hlen).1 hinner
        simp only [Meet.kind, refines_closure_iff]
        constructor
        · rintro ⟨zs, z, rfl, hzs, hz⟩
          exact ⟨⟨zs, z, rfl, hzs, hz⟩, zs, z, rfl, forall₂_trans hr hzs hargs,
            hr.trans hz hreturns⟩
        · exact And.left
      · obtain ⟨zs, z, rfl, hzs, hz⟩ := refines_closure_iff.1 hx
        exact (hpairs hlen).2 ⟨forall₂_trans hr (hzs.flip.imp fun _ _ h => hr.symm h) hy.1,
          hr.trans (hr.symm hz) hy.2⟩
  · -- a number and another kind
    rename_i hany
    split
    · rename_i hb
      exact meetSpec_right hr hb
    · rename_i hb
      intro k hx hy
      exact (hy.numeric_of hx).elim hany hb
  · rename_i hany _
    split
    · rename_i ha
      exact meetSpec_left hr ha
    · rename_i ha
      intro k hx hy
      exact (hx.numeric_of hy).elim hany ha
  · -- a sequence that is a reference is indexable
    refine ⟨fun _ k => ⟨fun h => ⟨isSequence_of_isIndexed h, isReferenced_of_isIndexed h⟩, ?_⟩,
      fun _ _ _ _ hp => nomatch hp⟩
    rintro ⟨hx, hy⟩
    exact isIndexed_of_categories hx hy
  · refine ⟨fun _ k => ⟨fun h => ⟨isReferenced_of_isIndexed h, isSequence_of_isIndexed h⟩, ?_⟩,
      fun _ _ _ _ hp => nomatch hp⟩
    rintro ⟨hx, hy⟩
    exact isIndexed_of_categories hy hx
  · -- an indexable value and another kind
    rename_i hany _
    split
    · rename_i hb
      exact meetSpec_right hr hb
    · rename_i hb
      split
      · rename_i hwider
        refine meetSpec_left hr ?_
        rcases hwider with rfl | rfl <;> rfl
      · rename_i hwider
        intro k hx hy
        exact (hy.indexed_of hx).elim hany (·.elim hwider hb)
  · rename_i hany _ _
    split
    · rename_i ha
      exact meetSpec_left hr ha
    · rename_i ha
      split
      · rename_i hwider
        refine meetSpec_right hr ?_
        rcases hwider with rfl | rfl <;> rfl
      · rename_i hwider
        intro k hx hy
        exact (hx.indexed_of hy).elim hany (·.elim hwider ha)
  · -- a reference value and another kind
    rename_i hany _ hsequence _
    split
    · rename_i hb
      exact meetSpec_right hr hb
    · rename_i hb
      intro k hx hy
      exact (hy.referenced_of hx).elim hany (·.elim hsequence hb)
  · rename_i hany _ hsequence _ _
    split
    · rename_i ha
      exact meetSpec_left hr ha
    · rename_i ha
      intro k hx hy
      exact (hx.referenced_of hy).elim hany (·.elim hsequence ha)
  · -- a sequence and another kind
    rename_i hany _ hreferenced _
    split
    · rename_i hb
      exact meetSpec_right hr hb
    · rename_i hb
      intro k hx hy
      exact (hy.sequence_of hx).elim hany (·.elim hreferenced hb)
  · rename_i hany _ hreferenced _ _
    split
    · rename_i ha
      exact meetSpec_left hr ha
    · rename_i ha
      intro k hx hy
      exact (hx.sequence_of hy).elim hany (·.elim hreferenced ha)
  · -- two concrete kinds of different constructors
    rename_i ha₁ ha₂ ha₃ ha₄ ha₅ hb₁ hb₂ hb₃ hb₄ hb₅ h₁ h₂ h₃ h₄ h₅ h₆ h₇ h₈ h₉ _ _
    intro k hx hy
    cases a <;> first
      | contradiction
      | cases k <;> first
        | exact hx.elim
        | cases b <;> first
          | contradiction
          | exact hy.elim
          | exact h₁ rfl rfl
          | exact h₂ rfl rfl
          | exact h₃ rfl rfl
          | exact h₄ rfl rfl
          | exact h₅ rfl rfl
          | exact h₆ _ _ rfl rfl
          | exact h₇ _ _ _ _ _ _ rfl rfl
          | exact h₈ _ _ _ _ rfl rfl
          | exact h₉ _ _ _ _ rfl rfl

theorem Refines.agree (hr : Equivalence r) (hx : k.Refines r a) (hy : k.Refines r b) :
    Agree r a b := by
  cases a with
  | array x =>
    cases b with
    | array y =>
      obtain ⟨z, rfl, hz⟩ := refines_array_iff.1 hx
      exact hr.trans (hr.symm hz) hy
    | _ => trivial
  | object xs xOpen xOrder =>
    cases b with
    | object ys yOpen yOrder =>
      obtain ⟨zs, zOpen, zOrder, rfl, hx, -⟩ := refines_object_iff.1 hx
      exact fun _ _ _ => hx.shared hr hy.1
    | _ => trivial
  | union xs xOpen =>
    cases b with
    | union ys yOpen =>
      obtain ⟨zs, zOpen, rfl, hx⟩ := refines_union_iff.1 hx
      exact fun _ _ _ => hx.shared hr hy
    | _ => trivial
  | closure xs x =>
    cases b with
    | closure ys y =>
      obtain ⟨zs, z, rfl, hzs, hz⟩ := refines_closure_iff.1 hx
      have hargs := forall₂_trans hr (hzs.flip.imp fun _ _ h => hr.symm h) hy.1
      exact ⟨fun p hp => List.forall₂_zip hargs hp, hr.trans (hr.symm hz) hy.2⟩
    | _ => trivial
  | _ => trivial

/-! ### Variables of the meet -/

theorem mem_values_extend {xs ys : Row TypeVar} {v : TypeVar} (h : v ∈ (xs.extend ys).values) :
    v ∈ xs.values ∨ v ∈ ys.values := by
  obtain ⟨name, hname⟩ := ((xs.extend ys).mem_values_iff).1 h
  rw [Row.get?_extend] at hname
  cases hx : xs.get? name with
  | none => exact .inr (ys.mem_values_iff.2 ⟨name, by simpa [hx] using hname⟩)
  | some x => exact .inl (xs.mem_values_iff.2 ⟨name, by simpa [hx] using hname⟩)

theorem meetRows_vars {w : RowWords} {step : String → PathStep} {xs ys row : Row TypeVar}
    {xOpen yOpen : Bool} {inner : List InnerPair}
    (h : meetRows w step xs ys xOpen yOpen = .ok (row, inner)) :
    (∀ v ∈ row.values, v ∈ xs.values ∨ v ∈ ys.values) ∧
      ∀ p ∈ inner, p.left ∈ xs.values ∧ p.right ∈ ys.values := by
  obtain ⟨rfl, rfl, -⟩ := meetRows_ok h
  refine ⟨fun _ => mem_values_extend, fun p hp => ?_⟩
  obtain ⟨⟨name, x, y⟩, he, rfl⟩ := List.mem_map.1 hp
  obtain ⟨hx, hy⟩ := (xs.mem_shared_iff ys).1 he
  exact ⟨xs.mem_values_iff.2 ⟨name, hx⟩, ys.mem_values_iff.2 ⟨name, hy⟩⟩

theorem mem_argumentPairs {i : Nat} {as bs : List TypeVar} {p : InnerPair}
    (h : p ∈ argumentPairs i as bs) : p.left ∈ as ∧ p.right ∈ bs := by
  induction as generalizing i bs with
  | nil => cases h
  | cons a as ih =>
    cases bs with
    | nil => cases h
    | cons b bs =>
      rcases List.mem_cons.1 h with rfl | h
      · exact ⟨List.mem_cons_self, List.mem_cons_self⟩
      · exact (ih h).imp (List.mem_cons_of_mem _) (List.mem_cons_of_mem _)

/-- How two kinds combine where neither gives way to the other. -/
inductive Combines : Kind → Kind → Kind → List InnerPair → Prop
  | arrays {x y : TypeVar} : Combines (.array x) (.array y) (.array x) [⟨x, y, .element⟩]
  | objects {xs ys row : Row TypeVar} {xOpen yOpen : Bool} {xOrder yOrder : Option (List String)}
      {inner : List InnerPair} (h : meetRows .object .member xs ys xOpen yOpen = .ok (row, inner)) :
      Combines (.object xs xOpen xOrder) (.object ys yOpen yOrder)
        (.object row (xOpen && yOpen) (xOrder <|> yOrder)) inner
  | unions {xs ys row : Row TypeVar} {xOpen yOpen : Bool} {inner : List InnerPair}
      (h : meetRows .union .variant xs ys xOpen yOpen = .ok (row, inner)) :
      Combines (.union xs xOpen) (.union ys yOpen) (.union row (xOpen && yOpen)) inner
  | closures {xs ys : List TypeVar} {x y : TypeVar} (h : xs.length = ys.length) :
      Combines (.closure xs x) (.closure ys y) (.closure xs x) (argumentPairs 0 xs ys ++ [⟨x, y, .returns⟩])
  | categories {a b : Kind} (ha : a.children = []) (hb : b.children = []) : Combines a b .indexed []

theorem meet_both {kind : Kind} {inner : List InnerPair} (h : a.meet b = .ok (.both kind inner)) :
    Combines a b kind inner := by
  unfold meet at h
  split at h
  case h_8 =>
    cases h
    exact .arrays
  case h_9 xs xOpen xOrder ys yOpen yOrder =>
    have hobjects : meet.objects xs xOpen xOrder ys yOpen yOrder = .ok (.both kind inner) := by
      split at h
      · split at h
        · cases h
        · exact h
      · exact h
    unfold meet.objects at hobjects
    split at hobjects
    · rename_i hrows
      cases hobjects
      exact .objects hrows
    · cases hobjects
  case h_10 =>
    split at h
    · rename_i hrows
      cases h
      exact .unions hrows
    · cases h
  case h_11 =>
    split at h
    · cases h
    · rename_i hlength
      cases h
      exact .closures (not_not.1 hlength)
  case h_14 | h_15 =>
    cases h
    exact .categories rfl rfl
  case h_16 | h_17 =>
    split at h
    · cases h
    · split at h <;> cases h
  case h_12 | h_13 | h_18 | h_19 | h_20 | h_21 => split at h <;> cases h
  all_goals cases h

/-- The meet mentions no variables but those of the two kinds. -/
theorem meet_vars {m : Meet} (h : a.meet b = .ok m) :
    (∀ v ∈ (m.kind a b).children, v ∈ a.children ∨ v ∈ b.children) ∧
      ∀ p ∈ m.inner, p.left ∈ a.children ∧ p.right ∈ b.children := by
  cases m with
  | left => exact ⟨fun _ => .inl, fun _ hp => nomatch hp⟩
  | right => exact ⟨fun _ => .inr, fun _ hp => nomatch hp⟩
  | both kind inner =>
    cases meet_both h with
    | arrays => simp [Meet.kind, Meet.inner, children]
    | objects hrows => exact meetRows_vars hrows
    | unions hrows => exact meetRows_vars hrows
    | closures =>
      refine ⟨fun _ => .inl, fun p hp => ?_⟩
      rcases List.mem_append.1 hp with hp | hp
      · exact (mem_argumentPairs hp).imp (List.mem_append_left _) (List.mem_append_left _)
      · cases List.mem_singleton.1 hp
        exact ⟨List.mem_append_right _ List.mem_cons_self, List.mem_append_right _ List.mem_cons_self⟩
    | categories => exact ⟨fun _ hv => (nomatch hv), fun _ hp => nomatch hp⟩

end Kind
end Monomorph
