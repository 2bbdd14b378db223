import Mathlib
import Monomorph.Proofs.Type.Confining

/-! # Satisfied demands last

A demand is applied once and never looked at again. So that types can be trusted later, it has to stay
satisfied whatever else happens to the graph: `TypeGraph.Step` lists what can happen and end well, and
`Constraint.apply_lasts` says that an applied constraint is satisfied after any number of such steps.
Every step narrows types (`TypeGraph.Step.narrows`), and what narrowing keeps is the whole argument.

`Demand.Satisfied` reads off the target's type what the demand asked for. The demand for the variants of
another union is about the moment it is applied; of it there only stays that the target is a union. -/

namespace Monomorph

open TypeGraph

/-- What a demand asks of the variable `v` is the case. -/
def Demand.Satisfied (g : TypeGraph) (v : TypeVar) : Demand → Prop
  | isBase base _ => base.accepts (g.kind v) = true
  | isNumeric => (g.kind v).isNumeric = true
  | isIndexed => (g.kind v).isIndexed = true
  | isReferenced => (g.kind v).isReferenced = true
  | isSequence => (g.kind v).isSequence = true
  | hasElement element => ∃ x, g.kind v = .array x ∧ g.Same x element
  | hasMember name type => ∃ members isOpen order x,
      g.kind v = .object members isOpen order ∧ members.get? name = some x ∧ g.Same x type
  | limitMembers _ => ∃ members order, g.kind v = .object members false order
  | hasSignature args returns => ∃ xs x,
      g.kind v = .closure xs x ∧ List.Forall₂ g.Same xs args ∧ g.Same x returns
  | hasVariant name type => ∃ variants isOpen x,
      g.kind v = .union variants isOpen ∧ variants.get? name = some x ∧ g.Same x type
  | limitVariants names => ∃ variants,
      g.kind v = .union variants false ∧ ∀ name ∈ variants.names, name ∈ names.names
  | variantsOfExcept .. => ∃ variants isOpen, g.kind v = .union variants isOpen
  | unify other => g.Same v other

theorem BaseKind.accepts_of_refines {base : BaseKind} {r : VarRel} {k : Kind}
    (h : k.Refines r base.instantiate) : base.accepts k = true := by
  cases base <;> cases k <;> first
    | rfl
    | exact h.elim

theorem RowRefines.exists_single {r : VarRel} {row : Row TypeVar} {isOpen : Bool} {name : String}
    {type : TypeVar} (h : RowRefines r row isOpen (Row.empty.insert name type) true) :
    ∃ x, row.get? name = some x ∧ r x type :=
  h.names name type (by rw [Row.get?_insert, if_pos rfl])

theorem Demand.Met.satisfied {d : Demand} {g : TypeGraph} {v : TypeVar} (h : d.Met g v) :
    d.Satisfied g v := by
  obtain ⟨hshape, hlimits, hsame⟩ := h
  cases d with
  | isBase => exact BaseKind.accepts_of_refines hshape
  | isNumeric => exact hshape
  | isIndexed => exact hshape
  | isReferenced => exact hshape
  | isSequence => exact hshape
  | hasElement => exact Kind.refines_array_iff.1 hshape
  | hasMember =>
    obtain ⟨members, isOpen, order, hkind, hrow, -⟩ := Kind.refines_object_iff.1 hshape
    obtain ⟨x, hx, hr⟩ := hrow.exists_single
    exact ⟨members, isOpen, order, x, hkind, hx, hr⟩
  | limitMembers =>
    obtain ⟨members, isOpen, order, hkind, -⟩ := Kind.refines_object_iff.1 hshape
    rw [hkind] at hlimits
    obtain rfl : isOpen = false := hlimits
    exact ⟨members, order, hkind⟩
  | hasSignature => exact Kind.refines_closure_iff.1 hshape
  | hasVariant =>
    obtain ⟨variants, isOpen, hkind, hrow⟩ := Kind.refines_union_iff.1 hshape
    obtain ⟨x, hx, hr⟩ := hrow.exists_single
    exact ⟨variants, isOpen, x, hkind, hx, hr⟩
  | limitVariants names =>
    obtain ⟨variants, isOpen, hkind, -⟩ := Kind.refines_union_iff.1 hshape
    rw [hkind] at hlimits
    obtain ⟨rfl, hnames⟩ := hlimits
    exact ⟨variants, hkind, fun name hname =>
      (Row.mem_names_iff _).2 (hnames name ((Row.mem_names_iff _).1 hname))⟩
  | variantsOfExcept =>
    obtain ⟨variants, isOpen, hkind, -⟩ := Kind.refines_union_iff.1 hshape
    exact ⟨variants, isOpen, hkind⟩
  | unify other => exact hsame other rfl

/-! ### What can happen to a graph -/

namespace TypeGraph

variable {g g' : TypeGraph}

/-- A change of a type graph that ends well, about variables of that graph. -/
inductive Step : TypeGraph → TypeGraph → Prop
  | apply {g g' : TypeGraph} (c : Constraint) (known : ∀ v ∈ c.vars, v.index < g.size)
      (ok : c.apply g = .ok () g') : Step g g'
  | unify {g g' : TypeGraph} (v w : TypeVar) (span : Span) (path : StepPath) (left : v.index < g.size)
      (right : w.index < g.size) (ok : unifyAt v w span path g = .ok () g') : Step g g'
  | alloc {g : TypeGraph} (t : Ty) (known : ∀ v ∈ t.kind.children, v.index < g.size) : Step g (g.alloc t).2
  | copy {g : TypeGraph} (vs : List TypeVar) (known : ∀ v ∈ vs, v.index < g.size) :
      Step g (g.copyAll vs).2

/-- What a graph can become by such changes. -/
abbrev Later : TypeGraph → TypeGraph → Prop := Relation.ReflTransGen Step

theorem Step.narrows (hg : g.Closed Set.univ) (h : Step g g') : NarrowsIn Set.univ g g' := by
  cases h with
  | apply c known ok => exact (c.apply_meets hg (fun v hv => ⟨trivial, known v hv⟩) ok).1
  | unify v w span path left right ok =>
    exact (unifyAt_narrows hg ⟨trivial, left⟩ ⟨trivial, right⟩ ok).1
  | alloc t known => exact hg.alloc fun v hv => ⟨trivial, known v hv⟩
  | copy vs _ => exact copyAll_narrows hg.wellFormed vs

theorem Later.narrows (hg : g.Closed Set.univ) (h : Later g g') : NarrowsIn Set.univ g g' := by
  induction h with
  | refl => exact .refl hg
  | tail _ hstep ih => exact ih.trans (hstep.narrows ih.closed)

theorem Later.wellFormed (h : Later .empty g) : g.WellFormed := by
  have hempty : WellFormed .empty := wellFormed_of_cells (by simp [empty])
  exact fun _ _ hw => (h.narrows hempty.closed).closed.allocated trivial hw

/-! ### Closed objects -/

/-- In both graphs the variable is of a closed object type, with members of the same names. -/
def KeepsMembers (g g' : TypeGraph) (v : TypeVar) : Prop :=
  ∃ members order members' order', g.kind v = .object members false order ∧
    g'.kind v = .object members' false order' ∧ members'.names = members.names

/-- A narrower type of a closed object has the same members. -/
theorem Narrows.keepsMembers (h : g.Narrows g') {v : TypeVar} {members : Row TypeVar}
    {order : Option (List String)} (hkind : g.kind v = .object members false order) :
    g.KeepsMembers g' v := by
  have hrefines := h.refines v
  rw [hkind] at hrefines
  obtain ⟨members', isOpen, order', hkind', hrow, -⟩ := Kind.refines_object_iff.1 hrefines
  obtain rfl : isOpen = false := hrow.isClosed rfl
  refine ⟨members, order, members', order', hkind, hkind',
    Row.names_eq fun name => ⟨hrow.noFurther rfl name, ?_⟩⟩
  intro hname
  obtain ⟨x, hx⟩ := (Row.contains_iff _).1 hname
  obtain ⟨x', hx', -⟩ := hrow.names name x hx
  exact Row.contains_of_get? hx'

end TypeGraph

/-! ### The main statement -/

/-- A constraint that was applied successfully is satisfied in every later graph; an object it closed has
the same members' names there. -/
theorem Constraint.apply_lasts {c : Constraint} {g g₁ g₂ : TypeGraph} (hg : g.WellFormed)
    (hc : ∀ v ∈ c.vars, v.index < g.size) (h : c.apply g = .ok () g₁) (hlater : Later g₁ g₂) :
    c.demand.Satisfied g₂ c.target ∧
      ∀ names, c.demand = .limitMembers names → g₁.KeepsMembers g₂ c.target := by
  obtain ⟨hin, hmet⟩ := c.apply_meets hg.closed (fun v hv => ⟨trivial, hc v hv⟩) h
  have hnarrows := (hlater.narrows hin.closed).toNarrows
  refine ⟨(Demand.Met.narrows hmet hnarrows).satisfied, fun names hnames => ?_⟩
  have hsealed := Demand.Met.satisfied hmet
  rw [hnames] at hsealed
  obtain ⟨members, order, hkind⟩ := hsealed
  exact hnarrows.keepsMembers hkind

/-- An object of one member is closed; then it is unified with an open object of that member, and copied. -/
theorem Constraint.apply_lasts_closing :
    let g : TypeGraph :=
      ⟨#[.root Ty.any, .root ⟨.object (Row.empty.insert "a" ⟨2⟩) true none, none⟩, .root Ty.any]⟩
    let c : Constraint := ⟨⟨0⟩, .none, .limitMembers (NameSet.ofNames ["a"])⟩
    g.WellFormed ∧ (∀ v ∈ c.vars, v.index < g.size) ∧ ∃ g₁ g₂, c.apply g = .ok () g₁ ∧ Later g₁ g₂ ∧
      g₂.Same ⟨0⟩ ⟨1⟩ ∧ c.demand.Satisfied g₂ c.target ∧ g₁.KeepsMembers g₂ c.target := by
  intro g c
  have hg : g.WellFormed := wellFormed_of_cells (by decide)
  have hc : ∀ v ∈ c.vars, v.index < g.size := by decide
  let closed : Kind := .object (Row.empty.insert "a" ⟨3⟩) false none
  let g₁ : TypeGraph := ⟨#[.root ⟨closed, some .none⟩,
    .root ⟨.object (Row.empty.insert "a" ⟨2⟩) true none, none⟩, .root Ty.any, .root Ty.any]⟩
  let g' : TypeGraph := ⟨#[.root ⟨closed, some .none⟩, .link 0, .root Ty.any, .link 2]⟩
  have happly : c.apply g = .ok () g₁ := by
    simp only [c, g, g₁, closed]
    cbv
  have hunify : unifyAt ⟨0⟩ ⟨1⟩ .none [] g₁ = .ok () g' := by
    simp only [g', g₁, closed]
    cbv
  have hsame : g'.Same ⟨0⟩ ⟨1⟩ := by
    simp only [Same, g']
    cbv
  have hcopy : Step g' (g'.copyAll [⟨0⟩]).2 := .copy [⟨0⟩] (by decide)
  have hlater : Later g₁ (g'.copyAll [⟨0⟩]).2 :=
    .tail (.single (.unify ⟨0⟩ ⟨1⟩ .none [] (by decide) (by decide) hunify)) hcopy
  obtain ⟨hsatisfied, hmembers⟩ := c.apply_lasts hg hc happly hlater
  exact ⟨hg, hc, g₁, _, happly, hlater, (copyAll_extends g' [⟨0⟩]).narrows.same hsame, hsatisfied,
    hmembers _ rfl⟩

end Monomorph
