import Monomorph.Remaining
import Monomorph.Type.Kind

/-!
# The type graph

Type variables are the nodes of a graph that may have cycles: a variable's kind mentions other
variables. Variables known to denote one type form a *class* with a single stored type. One member of
each class, its *root*, holds the type; every other member links to a smaller variable of its class.

* `find` gives the root of a variable, `get` the type of its class;
* `alloc` adds a variable, `set` overwrites the type of a class;
* `join` makes one class of two, with a given type.

A variable that was never allocated is alone in its class and of unknown type.
-/

namespace Monomorph

/-- What is stored at a variable: the number of a smaller variable of its class, or the class's type. -/
inductive Cell where
  | link (target : Nat)
  | root (type : Ty)
  deriving DecidableEq, Inhabited

/-- All variables ever allocated, each at the position that is its number. -/
structure TypeGraph where
  cells : Array Cell
  deriving DecidableEq, Inhabited

namespace TypeGraph

def empty : TypeGraph := ⟨#[]⟩

/-- Number of variables ever allocated. -/
def size (g : TypeGraph) : Nat := g.cells.size

/-! ### Classes -/

/-- The number of the root of the class of variable number `i`. -/
def rootIndex (g : TypeGraph) (i : Nat) : Nat :=
  match g.cells[i]? with
  | some (.link j) => if j < i then g.rootIndex j else i
  | _ => i
termination_by i

def find (g : TypeGraph) (v : TypeVar) : TypeVar := ⟨g.rootIndex v.index⟩

def get (g : TypeGraph) (v : TypeVar) : Ty :=
  match g.cells[g.rootIndex v.index]? with
  | some (.root t) => t
  | _ => Ty.any

def kind (g : TypeGraph) (v : TypeVar) : Kind := (g.get v).kind

/-- Whether two variables are in one class. -/
def same (g : TypeGraph) (v w : TypeVar) : Bool := g.find v == g.find w

/-! ### Changes -/

/-- Allocate a variable of a given type, alone in its class. -/
def alloc (g : TypeGraph) (t : Ty) : TypeVar × TypeGraph := (⟨g.size⟩, ⟨g.cells.push (.root t)⟩)

/-- Allocate a variable about which nothing is known. -/
def fresh (g : TypeGraph) : TypeVar × TypeGraph := g.alloc Ty.any

/-- Overwrite the type of a variable's class. -/
def set (g : TypeGraph) (v : TypeVar) (t : Ty) : TypeGraph :=
  ⟨g.cells.setIfInBounds (g.rootIndex v.index) (.root t)⟩

/-- Make one class of the classes of two roots and give it a type: the greater root links to the
smaller. -/
def joinIndex (g : TypeGraph) (i j : Nat) (t : Ty) : TypeGraph :=
  ⟨(g.cells.setIfInBounds (min i j) (.root t)).setIfInBounds (max i j) (.link (min i j))⟩

/-- Make one class of the classes of two variables and give it a type. -/
def join (g : TypeGraph) (v w : TypeVar) (t : Ty) : TypeGraph :=
  if g.same v w then g.set v t else g.joinIndex (g.rootIndex v.index) (g.rootIndex w.index) t

/-- Make one class of the classes of two variables; it keeps the type of the second. -/
def union (g : TypeGraph) (v w : TypeVar) : TypeGraph := g.join v w (g.get w)

/-! ### Roots -/

/-- Whether variable number `i` is the root of its class. -/
def isRoot (g : TypeGraph) (i : Nat) : Bool :=
  match g.cells[i]? with
  | some (.link j) => !(j < i)
  | _ => true

def classCount (g : TypeGraph) : Nat := remaining g.size g.isRoot

theorem rootIndex_le (g : TypeGraph) (i : Nat) : g.rootIndex i ≤ i := by
  induction i using Nat.strongRecOn with
  | ind i ih =>
    unfold rootIndex
    split
    · split
      · rename_i h
        exact Nat.le_trans (ih _ h) (Nat.le_of_lt h)
      · exact Nat.le_refl i
    · exact Nat.le_refl i

theorem isRoot_rootIndex (g : TypeGraph) (i : Nat) : g.isRoot (g.rootIndex i) = true := by
  induction i using Nat.strongRecOn with
  | ind i ih =>
    unfold rootIndex
    split
    · split
      · rename_i h
        exact ih _ h
      · rename_i hcell hlt
        simp [isRoot, hcell, hlt]
    · rename_i hcell
      unfold isRoot
      split
      · rename_i w hw
        exact absurd hw (hcell w)
      · rfl

@[simp] theorem size_joinIndex (g : TypeGraph) (i j : Nat) (t : Ty) :
    (g.joinIndex i j t).size = g.size := by
  simp [joinIndex, size]

theorem classCount_joinIndex_lt (g : TypeGraph) {i j : Nat} (t : Ty) (hi : i < g.size)
    (hj : j < g.size) (hne : i ≠ j) (hrooti : g.isRoot i = true) (hrootj : g.isRoot j = true) :
    (g.joinIndex i j t).classCount < g.classCount := by
  have hlt : min i j < max i j := by omega
  have hmax : max i j < g.size := by omega
  have hrootMax : g.isRoot (max i j) = true := by
    rcases Nat.le_total i j with h | h
    · rwa [Nat.max_eq_right h]
    · rwa [Nat.max_eq_left h]
  have hrootMin : g.isRoot (min i j) = true := by
    rcases Nat.le_total i j with h | h
    · rwa [Nat.min_eq_left h]
    · rwa [Nat.min_eq_right h]
  unfold classCount
  rw [size_joinIndex]
  refine remaining_lt hmax hrootMax ?_ fun k _ hk => ?_
  · have hm : max i j < g.cells.size := hmax
    simp [isRoot, joinIndex, hm, hlt]
  · by_cases hmin : k = min i j
    · exact hmin ▸ hrootMin
    · by_cases hmax' : k = max i j
      · exact hmax' ▸ hrootMax
      · simpa [isRoot, joinIndex, Array.getElem?_setIfInBounds, Ne.symm hmin, Ne.symm hmax'] using hk

end TypeGraph
end Monomorph
