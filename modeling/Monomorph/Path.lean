/-!
# Symbol paths

A path names a symbol: its last element is the symbol's own name, the elements before it the module
the symbol lives in. Written paths separate the elements by `::`; `Path.parse` reads such a text and
drops empty elements, `Path.text` writes one.
-/

namespace Monomorph

/-- A namespaced symbol path, outermost module first. -/
structure Path where
  elements : List String
  deriving DecidableEq, Inhabited, Repr

namespace Path

/-- Cut a text at every `::`, leftmost first and without overlap. -/
def splitColons : List Char → List (List Char)
  | [] => [[]]
  | ':' :: ':' :: rest => [] :: splitColons rest
  | c :: rest =>
    match splitColons rest with
    | [] => [[c]]
    | piece :: pieces => (c :: piece) :: pieces

/-- Read a `::`-separated path; empty elements are dropped. -/
def parse (text : String) : Path :=
  ⟨((splitColons text.toList).filter (! ·.isEmpty)).map String.ofList⟩

def text (p : Path) : String :=
  "::".intercalate p.elements

/-- The path with one element, taken as it stands. -/
def single (name : String) : Path := ⟨[name]⟩

def length (p : Path) : Nat := p.elements.length

def isEmpty (p : Path) : Bool := p.elements.isEmpty

/-- The last element; the empty path has the empty name. -/
def name (p : Path) : String := p.elements.getLast?.getD ""

def module (p : Path) : Path := ⟨p.elements.dropLast⟩

/-- The elements of `p` followed by those of `q`. -/
def join (p q : Path) : Path := ⟨p.elements ++ q.elements⟩

/-- The name of a path that could name a local: the only element. -/
def localName? (p : Path) : Option String :=
  match p.elements with
  | [name] => some name
  | _ => none

/-- Element-wise order; a proper beginning comes first. -/
def order (p q : Path) : Ordering :=
  go p.elements q.elements
where
  go : List String → List String → Ordering
    | [], [] => .eq
    | [], _ :: _ => .lt
    | _ :: _, [] => .gt
    | a :: as, b :: bs => if a < b then .lt else if b < a then .gt else go as bs

end Path
end Monomorph
