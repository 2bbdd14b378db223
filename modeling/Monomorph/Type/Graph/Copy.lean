import Std.Data.HashMap
import Monomorph.Type.Graph

/-!
# Copying part of the type graph

`TypeGraph.copyAll` allocates an independent copy of everything reachable from some variables. Sharing
and cycles are kept: each reachable class has exactly one copy. The copies are numbered in the order in
which the classes are found: first the given variables in their order, then again and again the classes
directly inside the one found last among those not looked into yet.
-/

namespace Monomorph

/-- The classes found so far. -/
structure Discovery where
  /-- Roots in the order they were found. -/
  found : Array Nat
  /-- Position of each root found. -/
  place : Std.HashMap Nat Nat
  /-- Roots not yet looked into, the one found last first. -/
  pending : List Nat

namespace Discovery

def empty : Discovery := ⟨#[], ∅, []⟩

/-- Note the class of a variable, unless it was found before. -/
def visit (g : TypeGraph) (d : Discovery) (v : TypeVar) : Discovery :=
  let r := g.rootIndex v.index
  if d.place.contains r then d
  else
    ⟨d.found.push r, d.place.insert r d.found.size,
      if r < g.size then r :: d.pending else d.pending⟩

/-- What is left to do: the roots to look into and the numbers not found yet. -/
def work (g : TypeGraph) (d : Discovery) : Nat :=
  d.pending.length + remaining g.size fun i => !d.place.contains i

theorem work_visit_le (g : TypeGraph) (d : Discovery) (v : TypeVar) :
    (d.visit g v).work g ≤ d.work g := by
  unfold visit
  by_cases hseen : d.place.contains (g.rootIndex v.index)
  · simp [hseen]
  · have hweaker : ∀ i < g.size,
        (!(d.place.insert (g.rootIndex v.index) d.found.size).contains i) = true →
          (!d.place.contains i) = true := by
      intro i _ hi
      simp only [Std.HashMap.contains_insert, Bool.not_or, Bool.and_eq_true] at hi
      exact hi.2
    by_cases hsize : g.rootIndex v.index < g.size
    · have hlt := remaining_lt (p := fun i => !d.place.contains i) hsize (by simpa using hseen)
        (by simp) hweaker
      simp only [hseen, hsize, work, if_true, List.length_cons, Bool.false_eq_true, if_false]
      omega
    · have hle := remaining_le (p := fun i => !d.place.contains i) hweaker
      simp only [hseen, hsize, work, if_false, Bool.false_eq_true]
      omega

theorem work_visits_le (g : TypeGraph) (vs : List TypeVar) (d : Discovery) :
    (vs.foldl (visit g) d).work g ≤ d.work g := by
  induction vs generalizing d with
  | nil => exact Nat.le_refl _
  | cons v vs ih => exact Nat.le_trans (ih _) (work_visit_le g d v)

/-- Look into every class until no new one is found. -/
def explore (g : TypeGraph) (d : Discovery) : Discovery :=
  match _h : d.pending with
  | [] => d
  | r :: rest => explore g ((g.kind ⟨r⟩).children.foldl (visit g) ⟨d.found, d.place, rest⟩)
termination_by d.work g
decreasing_by
  refine Nat.lt_of_le_of_lt (work_visits_le g _ _) ?_
  simp [work, _h]

end Discovery

namespace TypeGraph

/-- Copy everything reachable from some variables and give back the copies of these. -/
def copyAll (g : TypeGraph) (vs : List TypeVar) : List TypeVar × TypeGraph :=
  let d := (vs.foldl (Discovery.visit g) .empty).explore g
  let copyOf (v : TypeVar) : TypeVar := ⟨g.size + d.place.getD (g.rootIndex v.index) 0⟩
  let copies := d.found.map fun r =>
    let t := g.get ⟨r⟩
    Cell.root ⟨t.kind.mapVars copyOf, t.origin⟩
  (vs.map copyOf, ⟨g.cells ++ copies⟩)

/-- Copy everything reachable from one variable. -/
def copy (g : TypeGraph) (v : TypeVar) : TypeVar × TypeGraph :=
  let (copies, g') := g.copyAll [v]
  (copies.headD v, g')

end TypeGraph
end Monomorph
