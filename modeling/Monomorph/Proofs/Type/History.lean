import Mathlib
import Monomorph.Proofs.Type.Sharpening

/-! # Types only narrow, whatever ends how

`TypeGraph.Change` lists what can happen to a graph of types: a variable is allocated, types are copied, a
constraint is applied, two variables are unified. The last two may fail, and what they changed before is
kept; so half of a unification may be done. `TypeGraph.History` is any number of such changes, about any
variables.

`Kind.OnlyNarrows` says what a history never takes back of a type, without the relation that carries the
proof (`Kind.Sharpens`). `TypeGraph.History.onlyNarrows` is the invariant of the graph. -/

namespace Monomorph

open Outcome

/-! ### What is never taken back -/

/-- The kinds that a placeholder category admits. -/
def Kind.admits : Kind → Kind → Bool
  | any, _ => true
  | numeric, k => k.isNumeric
  | indexed, k => k.isIndexed
  | referenced, k => k.isReferenced
  | sequence, k => k.isSequence
  | _, _ => false

/-- Names stay; a closed row stays closed and gains none. -/
structure RowNarrows (row : Row TypeVar) (isOpen : Bool) (row' : Row TypeVar) (isOpen' : Bool) : Prop where
  keeps : ∀ name, row.contains name = true → row'.contains name = true
  closed : isOpen = false → isOpen' = false
  gainsNone : isOpen = false → ∀ name, row'.contains name = true → row.contains name = true

/-- A type of kind `k` may become one of kind `k'`. -/
structure Kind.OnlyNarrows (k k' : Kind) : Prop where
  /-- A placeholder becomes a kind of its category. -/
  placeholder : k.isPlaceholder = true → k.admits k' = true
  /-- A concrete kind keeps its constructor. -/
  concrete : k.isPlaceholder = false → k'.ctorIdx = k.ctorIdx
  /-- An object keeps its members and a layout order, once it has one. -/
  object : ∀ {members isOpen order}, k = .object members isOpen order →
    ∃ members' isOpen' order', k' = .object members' isOpen' order' ∧
      RowNarrows members isOpen members' isOpen' ∧ ∀ fixed, order = some fixed → order' = some fixed
  /-- A union keeps its variants. -/
  union : ∀ {variants isOpen}, k = .union variants isOpen →
    ∃ variants' isOpen', k' = .union variants' isOpen' ∧ RowNarrows variants isOpen variants' isOpen'
  /-- A closure keeps its arity. -/
  closure : ∀ {args returns}, k = .closure args returns →
    ∃ args' returns', k' = .closure args' returns' ∧ args'.length = args.length

theorem RowRefines.rowNarrows {r : VarRel} {row row' : Row TypeVar} {isOpen isOpen' : Bool}
    (h : RowRefines r row' isOpen' row isOpen) : RowNarrows row isOpen row' isOpen' where
  keeps name hname := by
    obtain ⟨v, hv⟩ := (Row.contains_iff row).1 hname
    obtain ⟨v', hv', -⟩ := h.names name v hv
    exact Row.contains_of_get? hv'
  closed := h.isClosed
  gainsNone := h.noFurther

theorem Kind.Refines.admits {r : VarRel} {k k' : Kind} (h : k'.Refines r k) (hk : k.isPlaceholder = true) :
    k.admits k' = true := by
  cases k with
  | any => rfl
  | numeric | indexed | referenced | sequence => exact h
  | _ => cases hk

theorem Kind.Refines.ctorIdx_eq {r : VarRel} {k k' : Kind} (h : k'.Refines r k)
    (hk : k.isPlaceholder = false) : k'.ctorIdx = k.ctorIdx := by
  cases k with
  | any | numeric | indexed | referenced | sequence => cases hk
  | _ => cases k' <;> first | rfl | exact h.elim

theorem Kind.OnlyNarrows.of_refines {r : VarRel} {k k' : Kind} (h : k'.Refines r k) : k.OnlyNarrows k' where
  placeholder := h.admits
  concrete := h.ctorIdx_eq
  object := by
    rintro members isOpen order rfl
    obtain ⟨members', isOpen', order', rfl, hrow, horder⟩ := Kind.refines_object_iff.1 h
    exact ⟨members', isOpen', order', rfl, hrow.rowNarrows, horder⟩
  union := by
    rintro variants isOpen rfl
    obtain ⟨variants', isOpen', rfl, hrow⟩ := Kind.refines_union_iff.1 h
    exact ⟨variants', isOpen', rfl, hrow.rowNarrows⟩
  closure := by
    rintro args returns rfl
    obtain ⟨args', returns', rfl, hargs, -⟩ := Kind.refines_closure_iff.1 h
    exact ⟨args', returns', rfl, hargs.length_eq⟩

namespace TypeGraph

variable {g g' : TypeGraph}

/-! ### Histories -/

/-- The computation leaves the graph in this state, with a result or with an error. -/
def Leaves (x : TypeM Unit) (g g' : TypeGraph) : Prop := x g = .ok () g' ∨ ∃ e, x g = .error e g'

/-- A change of a graph of types. -/
inductive Change (g : TypeGraph) : TypeGraph → Prop
  | allocate (t : Ty) : Change g (g.alloc t).2
  | copy (vs : List TypeVar) : Change g (g.copyAll vs).2
  | apply (c : Constraint) {g' : TypeGraph} (ends : Leaves c.apply g g') : Change g g'
  | unify (v w : TypeVar) (span : Span) (path : StepPath) {g' : TypeGraph}
      (ends : Leaves (unifyAt v w span path) g g') : Change g g'

abbrev History : TypeGraph → TypeGraph → Prop := Relation.ReflTransGen Change

theorem Leaves.sharpens {x : TypeM Unit} (hx : Keeps Sharpens x) (h : Leaves x g g') : g.Sharpens g' := by
  rcases h with hok | ⟨e, herror⟩
  · exact (hx g).ok hok
  · exact (hx g).error herror

theorem Change.sharpens (h : Change g g') : g.Sharpens g' := by
  cases h with
  | allocate t => exact (extends_alloc g t).sharpens
  | copy vs => exact (copyAll_extends g vs).sharpens
  | apply c ends => exact ends.sharpens c.apply_sharpens
  | unify v w span path ends => exact ends.sharpens (unifyAt_sharpens v w span path)

theorem History.sharpens (h : History g g') : g.Sharpens g' := by
  induction h with
  | refl => exact .refl g
  | tail _ hchange ih => exact ih.trans hchange.sharpens

/-- **Types only narrow.** In any history, of the empty graph or of any other, variables of one class stay in
one class, and the type of every variable only narrows. -/
theorem History.onlyNarrows (h : History g g') :
    (∀ v w, g.Same v w → g'.Same v w) ∧ ∀ v, (g.kind v).OnlyNarrows (g'.kind v) :=
  ⟨fun _ _ hvw => h.sharpens.same hvw, fun v => .of_refines (h.sharpens.kind v)⟩

/-- Two objects whose members `a` clash: they are one class when unifying them fails. -/
theorem History.onlyNarrows_clashing :
    let left : Kind := .object (Row.empty.insert "a" ⟨0⟩) true (some ["a"])
    let right : Kind := .object ((Row.empty.insert "a" ⟨1⟩).insert "b" ⟨0⟩) false none
    let g : TypeGraph := ⟨#[.root ⟨.integer, none⟩, .root ⟨.string, none⟩, .root ⟨left, none⟩,
      .root ⟨right, none⟩]⟩
    ∃ g', History .empty g ∧ History g g' ∧ (∃ e, unifyAt ⟨2⟩ ⟨3⟩ .none [] g = .error e g') ∧
      g'.Same ⟨2⟩ ⟨3⟩ ∧ left.OnlyNarrows (g'.kind ⟨2⟩) ∧ right.OnlyNarrows (g'.kind ⟨3⟩) := by
  intro left right g
  let both : Kind := .object ((Row.empty.insert "a" ⟨0⟩).insert "b" ⟨0⟩) false (some ["a"])
  let g' : TypeGraph := ⟨#[.root ⟨.integer, none⟩, .root ⟨.string, none⟩, .root ⟨both, none⟩, .link 2]⟩
  have hbuild : History .empty g :=
    (((Relation.ReflTransGen.refl.tail (.allocate _)).tail (.allocate _)).tail (.allocate _)).tail
      (.allocate ⟨right, none⟩)
  obtain ⟨e, hunify⟩ : ∃ e, unifyAt ⟨2⟩ ⟨3⟩ .none [] g = .error e g' := by
    refine ⟨.single .none (.incompatible "an integer" "a string" none none [.member "a"]), ?_⟩
    simp only [g, g', left, right, both]
    cbv
  have hhistory : History g g' := .single (.unify ⟨2⟩ ⟨3⟩ .none [] (.inr ⟨e, hunify⟩))
  obtain ⟨-, hnarrows⟩ := hhistory.onlyNarrows
  have hkinds : g.kind ⟨2⟩ = left ∧ g.kind ⟨3⟩ = right := by
    simp only [g, left, right]
    exact ⟨by cbv, by cbv⟩
  have hsame : g'.Same ⟨2⟩ ⟨3⟩ := by
    simp only [Same, g', both]
    cbv
  exact ⟨g', hbuild, hhistory, ⟨e, hunify⟩, hsame, hkinds.1 ▸ hnarrows ⟨2⟩, hkinds.2 ▸ hnarrows ⟨3⟩⟩

end TypeGraph
end Monomorph
