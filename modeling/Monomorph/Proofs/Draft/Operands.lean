import Monomorph.Proofs.Draft.Nodes
import Monomorph.Proofs.Type.Demands

/-! # Operands

The *operands* of an expression are the expressions directly inside whose values it uses; what else is directly inside
stands in bodies of its own (`Expr.insides`). Whatever is inside at all is inside one of them (`Expr.mem_nodes`). A
declaration has no value, and `Expr.tidy` says that none is used as one. -/

namespace Monomorph

namespace Expr

variable {α : Type}

/-- Whether an expression declares a local. -/
def isDeclaration : Expr α → Bool
  | .define .. | .declare .. => true
  | _ => false

/-- Whether an expression has a value; statements have none and count as unit. -/
def hasValue : Expr α → Bool
  | .define .. | .declare .. | .assign .. | .giveBack .. | .ifElse .. | .matchValue .. | .matchVariant .. => false
  | _ => true

/-- The expressions directly inside whose values are used. Constants are evaluated apart. -/
def operands : Expr α → List (Expr α)
  | .invoke _ _ args => args
  | .call _ callee args => callee :: args
  | .method _ receiver _ args => receiver :: args
  | .define _ _ _ value | .giveBack _ value | .unary _ _ value | .variant _ _ value | .unwrap _ value _ => [value]
  | .assign _ target value => [target, value]
  | .object _ members => members.map (·.2)
  | .array _ elements => elements
  | .repeated _ value size => [value, size]
  | .member _ owner _ => [owner]
  | .element _ owner index => [owner, index]
  | .binary _ _ left right => [left, right]
  | .ifElse _ condition _ _ => [condition]
  | .matchValue _ value _ _ | .matchVariant _ value _ _ => [value]
  | _ => []

/-- Whether no operand is a declaration. -/
def tidyHere (e : Expr α) : Bool := e.operands.all fun o => !o.isDeclaration

theorem tidyHere_iff {e : Expr α} : e.tidyHere = true ↔ ∀ o ∈ e.operands, o.isDeclaration = false := by
  simp [tidyHere]

mutual

/-- Whether no declaration inside is used as a value. -/
def tidy : Expr α → Bool
  | e@(.invoke _ _ args) => e.tidyHere && tidies args
  | e@(.call _ callee args) => e.tidyHere && (tidy callee && tidies args)
  | e@(.method _ receiver _ args) => e.tidyHere && (tidy receiver && tidies args)
  | .closure _ _ body _ => tidies body
  | e@(.define _ _ _ value) => e.tidyHere && tidy value
  | e@(.assign _ target value) => e.tidyHere && (tidy target && tidy value)
  | e@(.giveBack _ value) => e.tidyHere && tidy value
  | e@(.object _ members) => e.tidyHere && tidyMembers members
  | e@(.array _ elements) => e.tidyHere && tidies elements
  | e@(.repeated _ value size) => e.tidyHere && (tidy value && tidy size)
  | e@(.member _ owner _) => e.tidyHere && tidy owner
  | e@(.element _ owner index) => e.tidyHere && (tidy owner && tidy index)
  | e@(.binary _ _ left right) => e.tidyHere && (tidy left && tidy right)
  | e@(.unary _ _ operand) => e.tidyHere && tidy operand
  | e@(.variant _ _ payload) => e.tidyHere && tidy payload
  | e@(.unwrap _ value _) => e.tidyHere && tidy value
  | .constant _ value => tidy value
  | e@(.ifElse _ condition yes no) => e.tidyHere && (tidy condition && (tidies yes && tidies no))
  | e@(.matchValue _ value arms otherwise) =>
    e.tidyHere && (tidy value && (tidyValueArms arms && tidies otherwise))
  | e@(.matchVariant _ value arms (some otherwise)) =>
    e.tidyHere && (tidy value && (tidyVariantArms arms && tidies otherwise))
  | e@(.matchVariant _ value arms none) => e.tidyHere && (tidy value && tidyVariantArms arms)
  | _ => true

/-- Whether no declaration in these expressions is used as a value. -/
def tidies : List (Expr α) → Bool
  | [] => true
  | e :: rest => tidy e && tidies rest

/-- Whether no declaration in the members of an object is used as a value. -/
def tidyMembers : List (String × Expr α) → Bool
  | [] => true
  | (_, e) :: rest => tidy e && tidyMembers rest

/-- Whether no declaration in the arms of a match against constants is used as a value. -/
def tidyValueArms : List (Expr α × List (Expr α)) → Bool
  | [] => true
  | (e, body) :: rest => tidy e && (tidies body && tidyValueArms rest)

/-- Whether no declaration in the arms of a match on variants is used as a value. -/
def tidyVariantArms : List (VariantArm α (List (Expr α))) → Bool
  | [] => true
  | ⟨_, _, _, body⟩ :: rest => tidies body && tidyVariantArms rest

end

/-- What is used as a value: it declares nothing, and if it has no value, it is of unit type. -/
def IsOperand (g : TypeGraph) (e : Expr TypeVar) : Prop :=
  e.declared = [] ∧ (e.hasValue = false → (Demand.isBase .unit none).Met g e.note)

theorem IsOperand.narrows {g g' : TypeGraph} {e : Expr TypeVar} (h : e.IsOperand g) (hg : g.Narrows g') :
    e.IsOperand g' :=
  ⟨h.1, fun he => (h.2 he).narrows hg⟩

/-- The operands of some nodes are used as values. -/
def Proper (g : TypeGraph) (nodes : List (Place × Expr TypeVar)) : Prop :=
  ∀ n ∈ nodes, ∀ o ∈ n.2.operands, o.IsOperand g

theorem declareds_eq_nil {es : List (Expr TypeVar)} (h : ∀ e ∈ es, e.declared = []) : declareds es = [] := by
  induction es with
  | nil => rfl
  | cons e es ih =>
    obtain ⟨he, hes⟩ := List.forall_mem_cons.1 h
    rw [declareds, ih hes, he, List.nil_append]

theorem namedDeclareds_eq_nil {es : List (String × Expr TypeVar)} (h : ∀ e ∈ es.map (·.2), e.declared = []) :
    namedDeclareds es = [] := by
  induction es with
  | nil => rfl
  | cons e es ih =>
    obtain ⟨he, hes⟩ := List.forall_mem_cons.1 h
    rw [namedDeclareds, ih hes, he, List.nil_append]

/-- An expression that is no declaration declares only what its operands declare. -/
theorem declared_eq_nil {e : Expr TypeVar} (he : e.isDeclaration = false)
    (h : ∀ o ∈ e.operands, o.declared = []) : e.declared = [] := by
  cases e with
  | define | declare => cases he
  | invoke => exact declareds_eq_nil h
  | call | method =>
    obtain ⟨hfirst, hargs⟩ := List.forall_mem_cons.1 h
    rw [declared, declareds_eq_nil hargs, hfirst, List.nil_append]
  | object => exact namedDeclareds_eq_nil h
  | array => exact declareds_eq_nil h
  | _ => simp_all [declared, operands]

/-! ### What is inside -/

/-- The expressions directly inside that are no operands: those of the bodies, and constants. -/
def insides : Expr α → List (Expr α)
  | .closure _ _ body _ => body
  | .constant _ value => [value]
  | .ifElse _ _ yes no => yes ++ no
  | .matchValue _ _ arms otherwise => arms.map (·.1) ++ (arms.flatMap (·.2) ++ otherwise)
  | .matchVariant _ _ arms otherwise => arms.flatMap (·.body) ++ otherwise.getD []
  | _ => []

section nodes

variable {n : Place × Expr TypeVar} {p : Place}

theorem mem_nodesOf {es : List (Expr TypeVar)} (h : n ∈ nodesOf p es) : ∃ e ∈ es, ∃ q, n ∈ e.nodes q := by
  induction es generalizing p with
  | nil => cases h
  | cons e es ih =>
    rw [nodesOf, List.mem_append] at h
    rcases h with h | h
    · exact ⟨e, List.mem_cons_self, p, h⟩
    · obtain ⟨o, ho, hn⟩ := ih h
      exact ⟨o, List.mem_cons_of_mem _ ho, hn⟩

theorem mem_namedNodes {es : List (String × Expr TypeVar)} (h : n ∈ namedNodes p es) :
    ∃ e ∈ es.map (·.2), ∃ q, n ∈ e.nodes q := by
  induction es generalizing p with
  | nil => cases h
  | cons e es ih =>
    rw [namedNodes, List.mem_append] at h
    rcases h with h | h
    · exact ⟨e.2, List.mem_cons_self, p, h⟩
    · obtain ⟨o, ho, hn⟩ := ih h
      exact ⟨o, List.mem_cons_of_mem _ ho, hn⟩

theorem mem_armValueNodes {arms : List (Expr TypeVar × List (Expr TypeVar))} (h : n ∈ armValueNodes arms) :
    ∃ e ∈ arms.map (·.1), ∃ q, n ∈ e.nodes q := by
  induction arms with
  | nil => cases h
  | cons arm arms ih =>
    rw [armValueNodes, List.mem_append] at h
    rcases h with h | h
    · exact ⟨arm.1, List.mem_cons_self, _, h⟩
    · obtain ⟨o, ho, hn⟩ := ih h
      exact ⟨o, List.mem_cons_of_mem _ ho, hn⟩

theorem mem_armBodyNodes {arms : List (Expr TypeVar × List (Expr TypeVar))} (h : n ∈ armBodyNodes p arms) :
    ∃ e ∈ arms.flatMap (·.2), ∃ q, n ∈ e.nodes q := by
  induction arms with
  | nil => cases h
  | cons arm arms ih =>
    rw [armBodyNodes, List.mem_append] at h
    rcases h with h | h
    · obtain ⟨o, ho, hn⟩ := mem_nodesOf h
      exact ⟨o, List.mem_append_left _ ho, hn⟩
    · obtain ⟨o, ho, hn⟩ := ih h
      exact ⟨o, List.mem_append_right _ ho, hn⟩

theorem mem_variantArmNodes {arms : List (VariantArm TypeVar (List (Expr TypeVar)))}
    (h : n ∈ variantArmNodes p arms) : ∃ e ∈ arms.flatMap (·.body), ∃ q, n ∈ e.nodes q := by
  induction arms with
  | nil => cases h
  | cons arm arms ih =>
    rw [variantArmNodes, List.mem_append] at h
    rcases h with h | h
    · obtain ⟨o, ho, hn⟩ := mem_nodesOf h
      exact ⟨o, List.mem_append_left _ ho, hn⟩
    · obtain ⟨o, ho, hn⟩ := ih h
      exact ⟨o, List.mem_append_right _ ho, hn⟩

theorem mem_nodes_self (p : Place) (e : Expr TypeVar) : (p, e) ∈ e.nodes p := by
  cases e with
  | matchVariant _ _ _ otherwise => cases otherwise <;> exact List.mem_cons_self
  | _ => exact List.mem_cons_self

/-- A node of an expression is the expression itself, or it is inside what is directly inside. -/
theorem mem_nodes {e : Expr TypeVar} (h : n ∈ e.nodes p) :
    n = (p, e) ∨ ∃ o ∈ e.operands ++ e.insides, ∃ q, n ∈ o.nodes q := by
  cases e with
  | literal | name | localVar | global | procedure | declare => exact .inl (List.mem_singleton.1 h)
  | matchVariant m value arms otherwise =>
    cases otherwise with
    | none => grind [nodes, operands, insides, mem_variantArmNodes]
    | some otherwise => grind [nodes, operands, insides, mem_variantArmNodes, mem_nodesOf]
  | matchValue => grind [nodes, operands, insides, mem_armValueNodes, mem_armBodyNodes, mem_nodesOf]
  | object => grind [nodes, operands, insides, mem_namedNodes]
  | _ => grind [nodes, operands, insides, mem_nodesOf]

end nodes

end Expr
end Monomorph
