import Mathlib
import Monomorph.Proofs.Type.Reordering

/-! # A resolved type presents the type graph

`TypeGraph.tree` resolves a type to a finite tree, whatever cycles the graph has: a type inside itself becomes a
reference back. Both sides can be walked by the same selectors (`PathStep`).

* In the graph a walk goes from spot to spot (`TypeGraph.select`). A spot is a variable. Only an indexable
  placeholder leads to a spot without one: it is resolved to an array, about whose elements nothing is known.
* In the tree a walk goes from place to place (`TypeTree.Place.select`). A place knows the types around it, so a
  reference back goes on at the enclosing type that it stands for.

What stands at a place is the unfolding of the variable below the roots around it (`TypeGraph.Stands`). Every step
keeps this (`TypeGraph.stands_select`), and so does every walk.

Main statement: `TypeGraph.tree_presents`. -/

namespace Monomorph

/-! ### Levels -/

/-- One level of a resolved type, without the types inside it. -/
inductive Level where
  | unknown
  | unit
  | boolean
  | integer
  | float
  | string
  | array
  | object
  | union
  | closure
  deriving DecidableEq

/-- The level that a kind is resolved to. Of what is undecided, numbers are integers and what is indexable is an
array. -/
def Kind.level : Kind → Level
  | .any | .referenced | .sequence => .unknown
  | .numeric | .integer => .integer
  | .indexed | .array _ => .array
  | .unit => .unit
  | .boolean => .boolean
  | .float => .float
  | .string => .string
  | .object .. => .object
  | .union .. => .union
  | .closure .. => .closure

/-- The selectors that lead into a kind, each once. -/
def Kind.selectors : Kind → List PathStep
  | .indexed | .array _ => [.element]
  | .object members _ _ => members.names.map .member
  | .union variants _ => variants.names.map .variant
  | .closure args _ => (List.range args.length).map .argument ++ [.returns]
  | _ => []

/-- A layout order, if there is one, lists the members, each once. -/
def Kind.LaidOut : Kind → Prop
  | .object members _ (some order) => order.Perm members.names
  | _ => True

namespace TypeTree

/-- The level of a resolved type; a reference back has none of its own. -/
def level : TypeTree → Option Level
  | .unknown => some .unknown
  | .unit => some .unit
  | .boolean => some .boolean
  | .integer => some .integer
  | .float => some .float
  | .string => some .string
  | .array _ => some .array
  | .object _ => some .object
  | .union _ => some .union
  | .closure .. => some .closure
  | .recursive _ => none

/-- The selectors that lead into a resolved type, as often as it has something for them. -/
def selectors : TypeTree → List PathStep
  | .array _ => [.element]
  | .object members => members.map fun e => .member e.1
  | .union variants => variants.map fun e => .variant e.1
  | .closure args _ => (List.range args.length).map .argument ++ [.returns]
  | _ => []

/-- The type inside that a selector leads to. -/
def select : TypeTree → PathStep → Option TypeTree
  | .array element, .element => some element
  | .object members, .member name => members.lookup name
  | .union variants, .variant name => variants.lookup name
  | .closure args _, .argument i => args[i]?
  | .closure _ returns, .returns => some returns
  | _, _ => none

/-- A resolved type is what a kind is resolved to: of its level, with the same selectors, each once. -/
structure Pictures (t : TypeTree) (k : Kind) : Prop where
  level : t.level = some k.level
  selectors : t.selectors.Perm k.selectors

/-- Every reference back is to one of the constructors around it, of which `n` are outside. -/
inductive Enclosed : Nat → TypeTree → Prop
  | unknown {n : Nat} : Enclosed n .unknown
  | unit {n : Nat} : Enclosed n .unit
  | boolean {n : Nat} : Enclosed n .boolean
  | integer {n : Nat} : Enclosed n .integer
  | float {n : Nat} : Enclosed n .float
  | string {n : Nat} : Enclosed n .string
  | array {n : Nat} {element : TypeTree} (inside : Enclosed (n + 1) element) : Enclosed n (.array element)
  | object {n : Nat} {members : List (String × TypeTree)} (inside : ∀ e ∈ members, Enclosed (n + 1) e.2) :
      Enclosed n (.object members)
  | union {n : Nat} {variants : List (String × TypeTree)} (inside : ∀ e ∈ variants, Enclosed (n + 1) e.2) :
      Enclosed n (.union variants)
  | closure {n : Nat} {args : List TypeTree} {returns : TypeTree} (inside : ∀ t ∈ args, Enclosed (n + 1) t)
      (result : Enclosed (n + 1) returns) : Enclosed n (.closure args returns)
  | recursive {n depth : Nat} (positive : 1 ≤ depth) (within : depth ≤ n) : Enclosed n (.recursive depth)

/-! ### Walks in a tree -/

/-- A place in a resolved type: the type there, and the types around it, the nearest first. -/
structure Place where
  here : TypeTree
  around : List TypeTree

namespace Place

/-- The place so many levels up, if there are as many. -/
def up (around : List TypeTree) : Nat → Option Place
  | 0 => none
  | depth + 1 =>
    match around.drop depth with
    | [] => none
    | t :: rest => some ⟨t, rest⟩

/-- The place itself, or the one that a reference back stands for. -/
def land (p : Place) : Option Place :=
  match p.here with
  | .recursive depth => up p.around depth
  | _ => some p

/-- The place that a selector leads to. -/
def select (p : Place) (step : PathStep) : Option Place :=
  (p.here.select step).bind fun t => land ⟨t, p.here :: p.around⟩

end Place

/-- The place that a path leads to from the outermost type. -/
def follow (t : TypeTree) (path : List PathStep) : Option Place := path.foldlM Place.select ⟨t, []⟩

end TypeTree

/-! ### Walks in a graph -/

/-- A spot in a type graph: a variable, or the element of an array of which no more is known than that it is
indexable. -/
inductive Spot where
  | var (v : TypeVar)
  | undecided

/-- The spot inside that a selector leads to. -/
def Kind.select : Kind → PathStep → Option Spot
  | .indexed, .element => some .undecided
  | .array element, .element => some (.var element)
  | .object members _ _, .member name => (members.get? name).map .var
  | .union variants _, .variant name => (variants.get? name).map .var
  | .closure args _, .argument i => args[i]?.map .var
  | .closure _ returns, .returns => some (.var returns)
  | _, _ => none

namespace TypeGraph

def kindAt (g : TypeGraph) : Spot → Kind
  | .var v => g.kind v
  | .undecided => .any

/-- The spot that a selector leads to. -/
def select (g : TypeGraph) (s : Spot) (step : PathStep) : Option Spot := (g.kindAt s).select step

/-- The spot that a path leads to from a variable. -/
def follow (g : TypeGraph) (v : TypeVar) (path : List PathStep) : Option Spot := path.foldlM g.select (.var v)

/-- Every layout order lists the members, each once. -/
def LaidOut (g : TypeGraph) : Prop := ∀ v, (g.kind v).LaidOut

/-- A finite tree says the same as the graph from a variable on. -/
structure Presents (g : TypeGraph) (v : TypeVar) (t : TypeTree) : Prop where
  /-- Every reference back is to a constructor around it. -/
  enclosed : t.Enclosed 0
  /-- The same paths are possible, and they arrive at what the kind there is resolved to. -/
  follow : ∀ path, Option.Rel (fun p s => p.here.Pictures (g.kindAt s)) (t.follow path) (g.follow v path)

end TypeGraph

/-! ### Rows and layouts -/

namespace Row

variable {α β : Type}

theorem get?_eq_lookup (row : Row α) (name : String) : row.get? name = row.entries.lookup name := by
  change find? name row.entries = _
  induction row.entries with
  | nil => rfl
  | cons e rest ih =>
    obtain ⟨n, v⟩ := e
    rw [List.lookup_cons]
    by_cases h : n = name
    · simp [find?, h]
    · have hne : (name == n) = false := by simpa using Ne.symm h
      simpa [find?, h, hne] using ih

/-- What is laid out in an order is listed in that order. -/
theorem layout_names {row : Row α} {order : List String} (h : ∀ name ∈ order, row.contains name = true)
    (f : α → β) :
    (order.filterMap fun name => (row.get? name).map fun v => (name, f v)).map (·.1) = order := by
  induction order with
  | nil => rfl
  | cons name order ih =>
    obtain ⟨hname, horder⟩ := List.forall_mem_cons.1 h
    obtain ⟨v, hv⟩ := row.contains_iff.1 hname
    rw [List.filterMap_cons, hv, Option.map_some]
    exact congrArg (name :: ·) (ih horder)

theorem layout_lookup {row : Row α} (order : List String) (f : α → β) (name : String) :
    (order.filterMap fun name => (row.get? name).map fun v => (name, f v)).lookup name =
      if name ∈ order then (row.get? name).map f else none := by
  induction order with
  | nil => rfl
  | cons n order ih =>
    rw [List.filterMap_cons]
    cases hn : row.get? n with
    | none =>
      simp only [Option.map_none, ih, List.mem_cons]
      by_cases hname : name = n
      · subst hname
        simp [hn]
      · simp [hname]
    | some v =>
      simp only [Option.map_some, List.lookup_cons, List.mem_cons]
      by_cases hname : name = n
      · subst hname
        simp [hn]
      · have hne : (name == n) = false := by simpa using hname
        simp [hname, hne, ih]

end Row

namespace Kind

variable {inner : TypeVar → TypeTree} {k : Kind}

/-- What an object is laid out as has all members and no others. -/
theorem mem_layout_iff {members : Row TypeVar} {isOpen : Bool} {order : Option (List String)}
    (h : (object members isOpen order).LaidOut) {name : String} :
    name ∈ order.getD members.names ↔ members.contains name = true := by
  cases order with
  | none => exact members.mem_names_iff
  | some order => exact (h.mem_iff).trans members.mem_names_iff

/-- An object is resolved to one with exactly its members. -/
theorem tree_object {members : Row TypeVar} {isOpen : Bool} {order : Option (List String)}
    (h : (object members isOpen order).LaidOut) :
    ∃ inside, (object members isOpen order).tree inner = .object inside ∧
      (inside.map (·.1)).Perm members.names := by
  refine ⟨_, rfl, ?_⟩
  rw [Row.layout_names (fun name hname => (mem_layout_iff h).1 hname) inner]
  cases order with
  | none => exact .refl _
  | some order => exact h

/-- One level of a type is resolved to what pictures it. -/
theorem tree_pictures (h : k.LaidOut) : (k.tree inner).Pictures k := by
  cases k with
  | object members isOpen order =>
    obtain ⟨inside, hinside, hperm⟩ :
        ∃ inside, (object members isOpen order).tree inner = .object inside ∧ _ := tree_object h
    rw [hinside]
    refine ⟨rfl, ?_⟩
    have hselectors := hperm.map PathStep.member
    rwa [List.map_map] at hselectors
  | union variants isOpen =>
    refine ⟨rfl, .of_eq ?_⟩
    simp [tree, TypeTree.selectors, selectors, Row.names]
  | closure args returns =>
    refine ⟨rfl, .of_eq ?_⟩
    simp [tree, TypeTree.selectors, selectors]
  | _ => exact ⟨rfl, .refl _⟩

/-- The tree at a spot, given the trees of the variables. -/
def atSpot (inner : TypeVar → TypeTree) : Spot → TypeTree
  | .var v => inner v
  | .undecided => .unknown

/-- A selector leads to the tree of what it leads to in the kind. -/
theorem tree_select (h : k.LaidOut) (step : PathStep) :
    (k.tree inner).select step = (k.select step).map (atSpot inner) := by
  cases k with
  | object members isOpen order =>
    cases step with
    | member name =>
      have hmem : name ∈ order.getD members.names ↔ members.contains name = true := mem_layout_iff h
      simp only [tree, TypeTree.select, select, Row.layout_lookup]
      cases hname : members.get? name with
      | none => simp
      | some v =>
        rw [if_pos (hmem.2 (Row.contains_of_get? hname))]
        rfl
    | _ => rfl
  | union variants isOpen =>
    cases step with
    | variant name =>
      have hmap : variants.entries.map (fun e => (e.1, inner e.2)) = (variants.map inner).entries := rfl
      rw [tree, TypeTree.select, select, hmap, ← Row.get?_eq_lookup, Row.get?_map, Option.map_map]
      rfl
    | _ => rfl
  | closure args returns =>
    cases step with
    | argument i =>
      rw [tree, TypeTree.select, select, List.getElem?_map, Option.map_map]
      rfl
    | _ => rfl
  | _ => cases step <;> rfl

theorem tree_enclosed {n : Nat} (h : ∀ v, (inner v).Enclosed (n + 1)) : (k.tree inner).Enclosed n := by
  cases k with
  | array element => exact .array (h element)
  | indexed => exact .array .unknown
  | object members isOpen order =>
    refine .object fun e he => ?_
    obtain ⟨name, -, hname⟩ := List.mem_filterMap.1 he
    obtain ⟨v, -, rfl⟩ := Option.map_eq_some_iff.1 hname
    exact h v
  | union variants isOpen =>
    refine .union fun e he => ?_
    obtain ⟨entry, -, rfl⟩ := List.mem_map.1 he
    exact h entry.2
  | closure args returns => exact .closure (List.forall_mem_map.2 fun v _ => h v) (h returns)
  | _ => constructor

end Kind

/-! ### The tree below some roots -/

namespace TypeGraph

open TypeTree

variable {g : TypeGraph} {enclosing : List Nat} {around : List TypeTree} {v : TypeVar} {p : Place} {s : Spot}

/-- The tree of a type inside the types of some roots, the nearest first. -/
def treeBelow (g : TypeGraph) (enclosing : List Nat) (v : TypeVar) : TypeTree :=
  g.foldBelow .recursive (fun kind inner => kind.tree inner) enclosing v

theorem treeBelow_of_mem (h : g.rootIndex v.index ∈ enclosing) :
    g.treeBelow enclosing v = .recursive (enclosing.idxOf (g.rootIndex v.index) + 1) := by
  rw [treeBelow, foldBelow, dif_pos h]

theorem treeBelow_of_not_mem (h : g.rootIndex v.index ∉ enclosing) :
    g.treeBelow enclosing v = (g.kind v).tree (g.treeBelow (g.rootIndex v.index :: enclosing)) := by
  rw [treeBelow, foldBelow, dif_neg h]
  split
  · rfl
  · rename_i hsize
    have hkind : g.kind v = .any := size_le_of_kind_eq_any
      (Nat.le_of_not_lt fun hlt => hsize (rootIndex_lt_size hlt))
    rw [hkind]
    rfl

theorem treeBelow_enclosed (g : TypeGraph) (enclosing : List Nat) (v : TypeVar) :
    (g.treeBelow enclosing v).Enclosed enclosing.length := by
  unfold treeBelow
  fun_induction foldBelow g TypeTree.recursive (fun kind inner => kind.tree inner) enclosing v with
  | case1 enclosing v r hseen =>
    exact .recursive (Nat.le_add_left _ _) (List.idxOf_lt_length_of_mem hseen)
  | case2 enclosing v r hseen hsize ih => exact Kind.tree_enclosed ih
  | case3 enclosing v r hseen hsize => exact .unknown

/-- These types are the trees of these roots, each inside those that follow. -/
inductive Surrounds (g : TypeGraph) : List Nat → List TypeTree → Prop
  | nil : Surrounds g [] []
  | cons {enclosing : List Nat} {around : List TypeTree} {v : TypeVar} (outside : Surrounds g enclosing around)
      (unseen : g.rootIndex v.index ∉ enclosing) :
      Surrounds g (g.rootIndex v.index :: enclosing) (g.treeBelow enclosing v :: around)

/-- The variable is unfolded at the place, inside the types around it. -/
def StandsFor (g : TypeGraph) (p : Place) (v : TypeVar) : Prop :=
  ∃ enclosing, g.Surrounds enclosing p.around ∧ g.rootIndex v.index ∉ enclosing ∧
    p.here = g.treeBelow enclosing v

/-- What is at the spot is unfolded at the place. -/
def Stands (g : TypeGraph) (p : Place) : Spot → Prop
  | .var v => g.StandsFor p v
  | .undecided => p.here = .unknown

/-- A root among those around is unfolded as many levels up as it is far away. -/
theorem Surrounds.up (h : g.Surrounds enclosing around) (hv : g.rootIndex v.index ∈ enclosing) :
    ∃ p, Place.up around (enclosing.idxOf (g.rootIndex v.index) + 1) = some p ∧ g.StandsFor p v := by
  induction h with
  | nil => cases hv
  | cons outside unseen ih =>
    rename_i enclosing around w
    by_cases hroot : g.rootIndex w.index = g.rootIndex v.index
    · refine ⟨⟨g.treeBelow enclosing w, around⟩, by simp [Place.up, hroot], enclosing, outside, hroot ▸ unseen, ?_⟩
      exact foldBelow_of_same _ _ _ (same_iff.2 hroot)
    · obtain ⟨p, hup, hp⟩ := ih ((List.mem_cons.1 hv).resolve_left (Ne.symm hroot))
      refine ⟨p, ?_, hp⟩
      rw [List.idxOf_cons_ne _ hroot]
      exact hup

/-- Where a type inside is unfolded or stands as a reference back, a walk lands at its unfolding. -/
theorem Surrounds.land (h : g.Surrounds enclosing around) (v : TypeVar) :
    ∃ p, Place.land ⟨g.treeBelow enclosing v, around⟩ = some p ∧ g.StandsFor p v := by
  by_cases hv : g.rootIndex v.index ∈ enclosing
  · rw [treeBelow_of_mem hv]
    exact h.up hv
  · refine ⟨⟨g.treeBelow enclosing v, around⟩, ?_, enclosing, h, hv, rfl⟩
    rw [treeBelow_of_not_mem hv]
    cases g.kind v <;> rfl

theorem Stands.pictures (hg : g.LaidOut) (h : g.Stands p s) : p.here.Pictures (g.kindAt s) := by
  cases s with
  | var v =>
    obtain ⟨enclosing, -, hv, hhere⟩ := h
    rw [hhere, treeBelow_of_not_mem hv]
    exact Kind.tree_pictures (hg v)
  | undecided =>
    obtain ⟨here, around⟩ := p
    obtain rfl : here = .unknown := h
    exact ⟨rfl, .refl _⟩

/-- A selector leads on in the tree exactly if it does in the graph, and to the unfolding of what is there. -/
theorem stands_select (hg : g.LaidOut) (h : g.Stands p s) (step : PathStep) :
    Option.Rel g.Stands (p.select step) (g.select s step) := by
  cases s with
  | var v =>
    obtain ⟨enclosing, houtside, hv, hhere⟩ := h
    have hselect : p.here.select step =
        ((g.kind v).select step).map (Kind.atSpot (g.treeBelow (g.rootIndex v.index :: enclosing))) := by
      rw [hhere, treeBelow_of_not_mem hv, Kind.tree_select (hg v)]
    have hinside : g.Surrounds (g.rootIndex v.index :: enclosing) (p.here :: p.around) := hhere ▸ .cons houtside hv
    change Option.Rel g.Stands (p.select step) ((g.kind v).select step)
    rw [Place.select, hselect]
    cases (g.kind v).select step with
    | none => exact .none
    | some inside =>
      cases inside with
      | var w =>
        obtain ⟨q, hland, hq⟩ := hinside.land w
        change Option.Rel g.Stands (Place.land ⟨g.treeBelow _ w, p.here :: p.around⟩) (some (.var w))
        rw [hland]
        exact .some hq
      | undecided => exact .some rfl
  | undecided =>
    obtain ⟨here, around⟩ := p
    obtain rfl : here = .unknown := h
    cases step <;> exact .none

theorem stands_follow (hg : g.LaidOut) (h : g.Stands p s) (path : List PathStep) :
    Option.Rel g.Stands (path.foldlM Place.select p) (path.foldlM g.select s) := by
  induction path generalizing p s with
  | nil => exact .some h
  | cons step path ih =>
    rw [List.foldlM_cons, List.foldlM_cons]
    have hstep := stands_select hg h step
    generalize p.select step = p? at hstep
    generalize g.select s step = s? at hstep
    cases hstep with
    | none => exact .none
    | some hnext => exact ih hnext

/-- **A resolved type presents the type graph.** If every layout order lists exactly the members, the tree of a
variable has the same paths as the graph from the variable on, and they arrive at what the kind there is resolved
to; nothing inside is dropped or duplicated, and every reference back is to a type around it. -/
theorem tree_presents (hg : g.LaidOut) (v : TypeVar) : g.Presents v (g.tree v) where
  enclosed := g.treeBelow_enclosed [] v
  follow path := by
    have hstart : g.Stands ⟨g.tree v, []⟩ (.var v) := ⟨[], .nil, List.not_mem_nil, rfl⟩
    have hrel := stands_follow hg hstart path
    rw [TypeTree.follow, TypeGraph.follow]
    generalize path.foldlM Place.select ⟨g.tree v, []⟩ = p? at hrel
    generalize path.foldlM g.select (.var v) = s? at hrel
    cases hrel with
    | none => exact .none
    | some hstands => exact .some (hstands.pictures hg)

/-- A list of integers whose members are laid out tail first. -/
theorem tree_presents_list :
    let cons : Kind := .object ((Row.empty.insert "head" ⟨3⟩).insert "tail" ⟨0⟩) false (some ["tail", "head"])
    let list : Kind := .union ((Row.empty.insert "cons" ⟨1⟩).insert "nil" ⟨2⟩) false
    let g : TypeGraph := ⟨#[.root ⟨list, none⟩, .root ⟨cons, none⟩, .root ⟨.unit, none⟩, .root ⟨.integer, none⟩]⟩
    g.LaidOut ∧ g.Presents ⟨0⟩
      (.union [("cons", .object [("tail", .recursive 2), ("head", .integer)]), ("nil", .unit)]) := by
  intro cons list g
  have hg : g.LaidOut := fun v => by
    rcases g.kind_eq_any_or_mem v with hv | ⟨t, ht, hv⟩
    · rw [hv]
      trivial
    · simp only [g, List.mem_cons, List.not_mem_nil, or_false, Cell.root.injEq] at ht
      rw [hv]
      rcases ht with rfl | rfl | rfl | rfl
      · trivial
      · exact List.Perm.swap "head" "tail" []
      · trivial
      · trivial
  refine ⟨hg, ?_⟩
  have hpresents := tree_presents hg ⟨0⟩
  rwa [show g.tree ⟨0⟩ = .union [("cons", .object [("tail", .recursive 2), ("head", .integer)]), ("nil", .unit)] by
    cbv] at hpresents

end TypeGraph
end Monomorph
