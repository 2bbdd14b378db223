import Monomorph.Type.Graph

/-!
# Unfolding the type graph

`TypeGraph.fold` unfolds the graph from a variable into a tree and folds the tree up again. A class that
is met again inside itself is not unfolded a second time: it becomes a reference back to the enclosing
level, counted from `1` for the nearest. So the unfolding is finite on graphs with cycles.

`TypeGraph.display` is the text of a type.
-/

namespace Monomorph

namespace TypeGraph

/-- Unfold from `v` below the roots `enclosing`, the nearest first. `back` is the value of a reference
to an enclosing level and `step` that of a kind, given the values of the variables inside it. -/
def foldBelow {α : Type} (g : TypeGraph) (back : Nat → α) (step : Kind → (TypeVar → α) → α)
    (enclosing : List Nat) (v : TypeVar) : α :=
  let r := g.rootIndex v.index
  if _hseen : r ∈ enclosing then back (enclosing.idxOf r + 1)
  else if _hsize : r < g.size then
    step (g.kind v) fun w => g.foldBelow back step (r :: enclosing) w
  else step .any fun _ => back 0
termination_by remaining g.size fun i => decide (i ∉ enclosing)
decreasing_by
  refine remaining_lt _hsize (by simpa using _hseen) (by simp [r]) fun i _ hi => ?_
  have h := of_decide_eq_true hi
  exact decide_eq_true fun hmem => h (List.mem_cons_of_mem _ hmem)

def fold {α : Type} (g : TypeGraph) (back : Nat → α) (step : Kind → (TypeVar → α) → α)
    (v : TypeVar) : α :=
  g.foldBelow back step [] v

end TypeGraph

/-- The text of a kind, given the texts of the types inside it. -/
def Kind.text (inner : TypeVar → String) : Kind → String
  | .array element => "[" ++ inner element ++ "]"
  | .object members isOpen _ =>
    match members.entries with
    | [] => if isOpen then "\x7b .. \x7d" else "\x7b\x7d"
    | entries =>
      "\x7b " ++ ", ".intercalate (entries.map fun e => e.1 ++ " = " ++ inner e.2)
        ++ if isOpen then ", .. \x7d" else " \x7d"
  | .union variants isOpen =>
    let listed := variants.entries.map fun e => "#" ++ e.1 ++ " " ++ inner e.2
    "(" ++ " | ".intercalate (if isOpen then listed ++ [".."] else listed) ++ ")"
  | .closure args returns => "|" ++ ", ".intercalate (args.map inner) ++ "| -> " ++ inner returns
  | kind => kind.name

/-- The text of a type, fully unfolded; a type inside itself is shown as `...`. -/
def TypeGraph.display (g : TypeGraph) (v : TypeVar) : String :=
  g.fold (fun _ => "...") (fun kind inner => kind.text inner) v

end Monomorph
