import Monomorph.Binding

/-! # The nodes of annotated trees

Every expression inside an annotated tree with the *place* where it stands: what the body around it gives
back and which locals are visible (`Expr.nodes`). Locals are listed the latest first, so a name means the
first local that has it. What is said of all expressions of a tree is said of its nodes: the references to
module symbols (`referencesOf`) and the unwrapped variants (`unwrapsOf`) are read off them. -/

namespace Monomorph

/-- Where an expression stands. -/
structure Place where
  /-- The type given back by the procedure or closure around it; constants stand in none. -/
  returns : Option TypeVar
  /-- The locals visible, the latest first. -/
  locals : List (String × TypeVar)

namespace Place

def isolated : Place := ⟨none, []⟩

def declare (p : Place) (added : List (String × TypeVar)) : Place := ⟨p.returns, added ++ p.locals⟩

def ofParams (params : List String) (args : List TypeVar) (returns : TypeVar) : Place :=
  ⟨some returns, (params.zip args).reverse⟩

def enter (p : Place) (params : List String) : Option (ClosureInfo TypeVar) → Place
  | some info => ⟨some info.returns, (params.zip info.args).reverse ++ p.locals⟩
  | none => ⟨none, p.locals⟩

/-- Inside an arm that may bind a payload. -/
def bind (p : Place) (binding : Option String) (payload : TypeVar) : Place :=
  p.declare (binding.toList.map fun name => (name, payload))

@[simp] theorem declare_nil (p : Place) : p.declare [] = p := rfl

@[simp] theorem declare_declare (p : Place) (l l' : List (String × TypeVar)) :
    (p.declare l).declare l' = p.declare (l' ++ l) := by
  simp [declare]

end Place

namespace Expr

mutual

/-- The locals that an expression declares in the block around it, the latest first. -/
def declared : Expr TypeVar → List (String × TypeVar)
  | .define m n _ value => (n, m.note) :: declared value
  | .declare m n _ => [(n, m.note)]
  | .invoke _ _ args => declareds args
  | .call _ callee args => declareds args ++ declared callee
  | .method _ receiver _ args => declareds args ++ declared receiver
  | .assign _ target value => declared target ++ declared value
  | .giveBack _ value => declared value
  | .object _ members => namedDeclareds members
  | .array _ elements => declareds elements
  | .repeated _ value size => declared size ++ declared value
  | .member _ owner _ => declared owner
  | .element _ owner index => declared index ++ declared owner
  | .binary _ _ left right => declared right ++ declared left
  | .unary _ _ operand => declared operand
  | .variant _ _ payload => declared payload
  | .unwrap _ value _ => declared value
  | .ifElse _ condition _ _ => declared condition
  | .matchValue _ value _ _ => declared value
  | .matchVariant _ value _ _ => declared value
  | _ => []

/-- The locals that expressions in order declare. -/
def declareds : List (Expr TypeVar) → List (String × TypeVar)
  | [] => []
  | e :: rest => declareds rest ++ declared e

/-- The locals that the members of an object declare. -/
def namedDeclareds : List (String × Expr TypeVar) → List (String × TypeVar)
  | [] => []
  | (_, e) :: rest => namedDeclareds rest ++ declared e

end

mutual

/-- All expressions inside an expression with their places, itself first. -/
def nodes (p : Place) : Expr TypeVar → List (Place × Expr TypeVar)
  | e@(.invoke _ _ args) => (p, e) :: nodesOf p args
  | e@(.call _ callee args) => (p, e) :: (nodes p callee ++ nodesOf (p.declare callee.declared) args)
  | e@(.method _ receiver _ args) =>
    (p, e) :: (nodes p receiver ++ nodesOf (p.declare receiver.declared) args)
  | e@(.closure _ params body info) => (p, e) :: nodesOf (p.enter params info) body
  | e@(.define _ _ _ value) => (p, e) :: nodes p value
  | e@(.assign _ target value) => (p, e) :: (nodes p value ++ nodes (p.declare value.declared) target)
  | e@(.giveBack _ value) => (p, e) :: nodes p value
  | e@(.object _ members) => (p, e) :: namedNodes p members
  | e@(.array _ elements) => (p, e) :: nodesOf p elements
  | e@(.repeated _ value size) => (p, e) :: (nodes p value ++ nodes (p.declare value.declared) size)
  | e@(.member _ owner _) => (p, e) :: nodes p owner
  | e@(.element _ owner index) => (p, e) :: (nodes p owner ++ nodes (p.declare owner.declared) index)
  | e@(.binary _ _ left right) => (p, e) :: (nodes p left ++ nodes (p.declare left.declared) right)
  | e@(.unary _ _ operand) => (p, e) :: nodes p operand
  | e@(.variant _ _ payload) => (p, e) :: nodes p payload
  | e@(.unwrap _ value _) => (p, e) :: nodes p value
  | e@(.constant _ value) => (p, e) :: nodes .isolated value
  | e@(.ifElse _ condition yes no) =>
    (p, e) :: (nodes p condition ++
      (nodesOf (p.declare condition.declared) yes ++ nodesOf (p.declare condition.declared) no))
  | e@(.matchValue _ value arms otherwise) =>
    (p, e) :: (nodes p value ++ (armValueNodes arms ++
      (armBodyNodes (p.declare value.declared) arms ++ nodesOf (p.declare value.declared) otherwise)))
  | e@(.matchVariant _ value arms (some otherwise)) =>
    (p, e) :: (nodes p value ++
      (variantArmNodes (p.declare value.declared) arms ++ nodesOf (p.declare value.declared) otherwise))
  | e@(.matchVariant _ value arms none) =>
    (p, e) :: (nodes p value ++ variantArmNodes (p.declare value.declared) arms)
  | e => [(p, e)]

/-- The nodes of expressions in order. -/
def nodesOf (p : Place) : List (Expr TypeVar) → List (Place × Expr TypeVar)
  | [] => []
  | e :: rest => nodes p e ++ nodesOf (p.declare e.declared) rest

/-- The nodes of the members of an object. -/
def namedNodes (p : Place) : List (String × Expr TypeVar) → List (Place × Expr TypeVar)
  | [] => []
  | (_, e) :: rest => nodes p e ++ namedNodes (p.declare e.declared) rest

/-- The nodes of the constants of a match. -/
def armValueNodes : List (Expr TypeVar × List (Expr TypeVar)) → List (Place × Expr TypeVar)
  | [] => []
  | (e, _) :: rest => nodes .isolated e ++ armValueNodes rest

/-- The nodes of the bodies of a match against constants. -/
def armBodyNodes (p : Place) :
    List (Expr TypeVar × List (Expr TypeVar)) → List (Place × Expr TypeVar)
  | [] => []
  | (_, body) :: rest => nodesOf p body ++ armBodyNodes p rest

/-- The nodes of the bodies of a match on variants. -/
def variantArmNodes (p : Place) :
    List (VariantArm TypeVar (List (Expr TypeVar))) → List (Place × Expr TypeVar)
  | [] => []
  | ⟨_, binding, payload, body⟩ :: rest => nodesOf (p.bind binding payload) body ++ variantArmNodes p rest

end

end Expr

/-! ### References -/

/-- What a module-level reference refers to, as far as it is known. -/
inductive Reference where
  /-- A name as written. -/
  | written (path : Path)
  | moduleVariable (target : Target)
  | procedure (target : Target)
  deriving DecidableEq

namespace Reference

def ofNode : Expr TypeVar → List Reference
  | .name _ path => [.written path]
  | .global _ target => [.moduleVariable target]
  | .procedure _ target | .invoke _ target _ => [.procedure target]
  | _ => []

/-- Whether a reference points at a usage that is not solved. -/
def isPending : Reference → Bool
  | .moduleVariable (.pending _) | .procedure (.pending _) => true
  | _ => false

end Reference

/-- The references among some nodes, in order. -/
def referencesOf (nodes : List (Place × Expr TypeVar)) : List Reference :=
  nodes.flatMap fun node => Reference.ofNode node.2

@[simp] theorem referencesOf_append (l l' : List (Place × Expr TypeVar)) :
    referencesOf (l ++ l') = referencesOf l ++ referencesOf l' :=
  List.flatMap_append

@[simp] theorem referencesOf_cons (p : Place) (e : Expr TypeVar) (l : List (Place × Expr TypeVar)) :
    referencesOf ((p, e) :: l) = Reference.ofNode e ++ referencesOf l :=
  rfl

@[simp] theorem referencesOf_nil : referencesOf [] = [] := rfl

namespace Expr

/-! Which expressions are inside an expression does not depend on where it stands. -/

mutual

theorem nodes_map_snd (p q : Place) : (e : Expr TypeVar) →
    (e.nodes p).map Prod.snd = (e.nodes q).map Prod.snd
  | .invoke _ _ args => by simp [nodes, nodesOf_map_snd p q args]
  | .call _ callee args => by
    simp [nodes, nodes_map_snd p q callee,
      nodesOf_map_snd (p.declare callee.declared) (q.declare callee.declared) args]
  | .method _ receiver _ args => by
    simp [nodes, nodes_map_snd p q receiver,
      nodesOf_map_snd (p.declare receiver.declared) (q.declare receiver.declared) args]
  | .closure _ params body info => by
    simp [nodes, nodesOf_map_snd (p.enter params info) (q.enter params info) body]
  | .define _ _ _ value => by simp [nodes, nodes_map_snd p q value]
  | .assign _ target value => by
    simp [nodes, nodes_map_snd p q value,
      nodes_map_snd (p.declare value.declared) (q.declare value.declared) target]
  | .giveBack _ value => by simp [nodes, nodes_map_snd p q value]
  | .object _ members => by simp [nodes, namedNodes_map_snd p q members]
  | .array _ elements => by simp [nodes, nodesOf_map_snd p q elements]
  | .repeated _ value size => by
    simp [nodes, nodes_map_snd p q value,
      nodes_map_snd (p.declare value.declared) (q.declare value.declared) size]
  | .member _ owner _ => by simp [nodes, nodes_map_snd p q owner]
  | .element _ owner index => by
    simp [nodes, nodes_map_snd p q owner,
      nodes_map_snd (p.declare owner.declared) (q.declare owner.declared) index]
  | .binary _ _ left right => by
    simp [nodes, nodes_map_snd p q left,
      nodes_map_snd (p.declare left.declared) (q.declare left.declared) right]
  | .unary _ _ operand => by simp [nodes, nodes_map_snd p q operand]
  | .variant _ _ payload => by simp [nodes, nodes_map_snd p q payload]
  | .unwrap _ value _ => by simp [nodes, nodes_map_snd p q value]
  | .constant _ value => by simp [nodes]
  | .ifElse _ condition yes no => by
    simp [nodes, nodes_map_snd p q condition,
      nodesOf_map_snd (p.declare condition.declared) (q.declare condition.declared) yes,
      nodesOf_map_snd (p.declare condition.declared) (q.declare condition.declared) no]
  | .matchValue _ value arms otherwise => by
    simp [nodes, nodes_map_snd p q value,
      armBodyNodes_map_snd (p.declare value.declared) (q.declare value.declared) arms,
      nodesOf_map_snd (p.declare value.declared) (q.declare value.declared) otherwise]
  | .matchVariant _ value arms (some otherwise) => by
    simp [nodes, nodes_map_snd p q value,
      variantArmNodes_map_snd (p.declare value.declared) (q.declare value.declared) arms,
      nodesOf_map_snd (p.declare value.declared) (q.declare value.declared) otherwise]
  | .matchVariant _ value arms none => by
    simp [nodes, nodes_map_snd p q value,
      variantArmNodes_map_snd (p.declare value.declared) (q.declare value.declared) arms]
  | .literal .. => rfl
  | .name .. => rfl
  | .localVar .. => rfl
  | .global .. => rfl
  | .procedure .. => rfl
  | .declare .. => rfl

theorem nodesOf_map_snd (p q : Place) : (es : List (Expr TypeVar)) →
    (nodesOf p es).map Prod.snd = (nodesOf q es).map Prod.snd
  | [] => rfl
  | e :: rest => by
    simp [nodesOf, nodes_map_snd p q e, nodesOf_map_snd (p.declare e.declared) (q.declare e.declared) rest]

theorem namedNodes_map_snd (p q : Place) : (es : List (String × Expr TypeVar)) →
    (namedNodes p es).map Prod.snd = (namedNodes q es).map Prod.snd
  | [] => rfl
  | (_, e) :: rest => by
    simp [namedNodes, nodes_map_snd p q e,
      namedNodes_map_snd (p.declare e.declared) (q.declare e.declared) rest]

theorem armBodyNodes_map_snd (p q : Place) : (arms : List (Expr TypeVar × List (Expr TypeVar))) →
    (armBodyNodes p arms).map Prod.snd = (armBodyNodes q arms).map Prod.snd
  | [] => rfl
  | (_, body) :: rest => by simp [armBodyNodes, nodesOf_map_snd p q body, armBodyNodes_map_snd p q rest]

theorem variantArmNodes_map_snd (p q : Place) :
    (arms : List (VariantArm TypeVar (List (Expr TypeVar)))) →
      (variantArmNodes p arms).map Prod.snd = (variantArmNodes q arms).map Prod.snd
  | [] => rfl
  | ⟨_, binding, payload, body⟩ :: rest => by
    simp [variantArmNodes, nodesOf_map_snd (p.bind binding payload) (q.bind binding payload) body,
      variantArmNodes_map_snd p q rest]

end

theorem exists_mem_nodesOf (p : Place) {q : Place} {es : List (Expr TypeVar)} {n : Place × Expr TypeVar}
    (h : n ∈ nodesOf q es) : ∃ q', (q', n.2) ∈ nodesOf p es := by
  have hmem := List.mem_map_of_mem (f := Prod.snd) h
  rw [nodesOf_map_snd q p, List.mem_map] at hmem
  obtain ⟨⟨q', _⟩, hn, rfl⟩ := hmem
  exact ⟨q', hn⟩

end Expr

/-- The references in the body of a variant. -/
def Expr.references (body : List (Expr TypeVar)) : List Reference :=
  referencesOf (Expr.nodesOf .isolated body)

theorem referencesOf_nodesOf (p : Place) (body : List (Expr TypeVar)) :
    referencesOf (Expr.nodesOf p body) = Expr.references body := by
  have hmap (l : List (Place × Expr TypeVar)) : referencesOf l = (l.map Prod.snd).flatMap Reference.ofNode := by
    rw [referencesOf, List.flatMap_map]
  rw [Expr.references, hmap, hmap, Expr.nodesOf_map_snd p .isolated body]

/-! ### Unwraps -/

/-- An unwrap of one variant of a value: any other variant is given back by the body around it. -/
structure Unwrap where
  /-- The type given back. -/
  returns : TypeVar
  /-- The type of the value. -/
  value : TypeVar
  variant : String

/-- The unwrap that a node is, if it stands in the body of a procedure or a closure. -/
def Unwrap.ofNode : Place × Expr TypeVar → Option Unwrap
  | (p, .unwrap _ value name) => p.returns.map fun returns => ⟨returns, value.note, name⟩
  | _ => none

def unwrapsOf (nodes : List (Place × Expr TypeVar)) : List Unwrap := nodes.filterMap Unwrap.ofNode

@[simp] theorem unwrapsOf_append (l l' : List (Place × Expr TypeVar)) :
    unwrapsOf (l ++ l') = unwrapsOf l ++ unwrapsOf l' :=
  List.filterMap_append

@[simp] theorem unwrapsOf_cons (n : Place × Expr TypeVar) (l : List (Place × Expr TypeVar)) :
    unwrapsOf (n :: l) = (Unwrap.ofNode n).toList ++ unwrapsOf l := by
  rw [unwrapsOf, List.filterMap_cons]
  cases Unwrap.ofNode n <;> rfl

@[simp] theorem unwrapsOf_nil : unwrapsOf [] = [] := rfl

end Monomorph
