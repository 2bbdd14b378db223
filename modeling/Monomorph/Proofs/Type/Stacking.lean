import Monomorph.Proofs.Type.Mirroring
import Monomorph.Proofs.Type.Sharpening

/-! # Graphs on top of one another

A graph is put on top of another one by giving its variables greater numbers (`TypeGraph.atop`). What is done to
its variables is then done to the ones with the greater numbers, and nothing below changes: classes and their types
(`TypeGraph.get_atop`), unification (`TypeGraph.unifyAll_atop`), copying (`TypeGraph.copyAll_atop`), displays
(`TypeGraph.display_atop`) and constraints (`Constraint.apply_above`). -/

namespace Monomorph

open Outcome

/-- The variable whose number is greater by `n`. -/
def TypeVar.raise (n : Nat) (v : TypeVar) : TypeVar := ⟨n + v.index⟩

theorem TypeVar.raise_zero : raise 0 = id := funext fun _ => congrArg TypeVar.mk (Nat.zero_add _)

/-- The cell with all numbers greater by `n`. -/
def Cell.raise (n : Nat) : Cell → Cell
  | link target => link (n + target)
  | root type => root (type.mapVars (TypeVar.raise n))

/-- The pair of the variables whose numbers are greater by `n`. -/
def PendingPair.raise (n : Nat) (p : PendingPair) : PendingPair := ⟨p.left.raise n, p.right.raise n, p.path⟩

namespace TypeGraph

/-- The graph with the variables of another one before its own. -/
def atop (g base : TypeGraph) : TypeGraph := ⟨base.cells ++ g.cells.map (Cell.raise base.size)⟩

variable {g base : TypeGraph}

/-! ### Classes and types -/

@[simp] theorem size_atop (g base : TypeGraph) : (g.atop base).size = base.size + g.size := by
  simp [atop, size]

theorem empty_atop (base : TypeGraph) : empty.atop base = base := by simp [atop, empty]

theorem atop_empty (g : TypeGraph) : g.atop empty = g := by
  have hcell (c : Cell) : c.raise 0 = c := by
    cases c with
    | link target => exact congrArg Cell.link (Nat.zero_add _)
    | root t => rw [Cell.raise, TypeVar.raise_zero, Ty.mapVars, Kind.mapVars_id]
  rw [atop, show empty.size = 0 from rfl, show Cell.raise 0 = id from funext hcell, Array.map_id]
  exact congrArg TypeGraph.mk Array.empty_append

theorem cells_atop (g base : TypeGraph) (i : Nat) :
    (g.atop base).cells[base.size + i]? = g.cells[i]?.map (Cell.raise base.size) := by
  simp [atop, size, Array.getElem?_append]

theorem rootIndex_atop (g base : TypeGraph) (i : Nat) :
    (g.atop base).rootIndex (base.size + i) = base.size + g.rootIndex i := by
  induction i using Nat.strongRecOn with
  | ind i ih =>
    unfold rootIndex
    rw [cells_atop]
    cases g.cells[i]? with
    | none => rfl
    | some c =>
      cases c with
      | root => rfl
      | link j =>
        dsimp only [Option.map_some, Cell.raise]
        by_cases hj : j < i
        · rw [if_pos hj, if_pos (Nat.add_lt_add_left hj _), ih j hj]
        · rw [if_neg hj, if_neg (by omega)]

theorem get_atop (g base : TypeGraph) (v : TypeVar) :
    (g.atop base).get (v.raise base.size) = (g.get v).mapVars (TypeVar.raise base.size) := by
  unfold get
  rw [TypeVar.raise, rootIndex_atop, cells_atop]
  cases g.cells[g.rootIndex v.index]? with
  | none => rfl
  | some c => cases c <;> rfl

theorem kind_atop (g base : TypeGraph) (v : TypeVar) :
    (g.atop base).kind (v.raise base.size) = (g.kind v).mapVars (TypeVar.raise base.size) :=
  congrArg Ty.kind (get_atop g base v)

/-! ### Changes -/

theorem setIfInBounds_atop (g base : TypeGraph) (i : Nat) (c : Cell) :
    atop ⟨g.cells.setIfInBounds i c⟩ base =
      ⟨(g.atop base).cells.setIfInBounds (base.size + i) (c.raise base.size)⟩ := by
  simp [atop, size, Array.setIfInBounds_append_right]

theorem set_atop (g base : TypeGraph) (v : TypeVar) (t : Ty) :
    (g.set v t).atop base = (g.atop base).set (v.raise base.size) (t.mapVars (TypeVar.raise base.size)) := by
  rw [set, set, setIfInBounds_atop, TypeVar.raise, rootIndex_atop]
  rfl

theorem alloc_atop (g base : TypeGraph) (t : Ty) :
    (g.atop base).alloc (t.mapVars (TypeVar.raise base.size)) =
      ((g.alloc t).1.raise base.size, (g.alloc t).2.atop base) := by
  simp [alloc, atop, size, TypeVar.raise, Cell.raise]

theorem joinIndex_atop (g base : TypeGraph) (i j : Nat) (t : Ty) :
    (g.joinIndex i j t).atop base =
      (g.atop base).joinIndex (base.size + i) (base.size + j) (t.mapVars (TypeVar.raise base.size)) := by
  have hmin : min (base.size + i) (base.size + j) = base.size + min i j := Nat.add_min_add_left ..
  have hmax : max (base.size + i) (base.size + j) = base.size + max i j := Nat.add_max_add_left ..
  rw [joinIndex, joinIndex, hmin, hmax]
  exact (setIfInBounds_atop ⟨g.cells.setIfInBounds (min i j) (.root t)⟩ base _ _).trans
    (congrArg (fun g : TypeGraph => (⟨g.cells.setIfInBounds _ _⟩ : TypeGraph)) (setIfInBounds_atop g base _ _))

/-! ### Unification -/

/-- The graph on top of the other one, at the same point of a run. -/
structure Atop (base g g' : TypeGraph) : Prop where
  eq : g' = g.atop base

theorem rootIndex_raise (g base : TypeGraph) (v : TypeVar) :
    (g.atop base).rootIndex (v.raise base.size).index = base.size + g.rootIndex v.index :=
  rootIndex_atop g base v.index

/-- Two classes are to be joined exactly if those on top of another graph are. -/
theorem joins_atop (g base : TypeGraph) (a b : TypeVar) :
    ((g.atop base).rootIndex (a.raise base.size).index ≠ (g.atop base).rootIndex (b.raise base.size).index ∧
        (g.atop base).rootIndex (a.raise base.size).index < (g.atop base).size ∧
        (g.atop base).rootIndex (b.raise base.size).index < (g.atop base).size) ↔
      (g.rootIndex a.index ≠ g.rootIndex b.index ∧ g.rootIndex a.index < g.size ∧
        g.rootIndex b.index < g.size) := by
  rw [rootIndex_raise, rootIndex_raise, size_atop]
  omega

/-- Unifying pairs and unifying those on top of another graph end alike. -/
theorem unifyAll_atop (base g : TypeGraph) (span : Span) (queue : List PendingPair) :
    Matched (Atop base) (Atop base) Eq (g.unifyAll span queue)
      ((g.atop base).unifyAll span (queue.map (PendingPair.raise base.size))) := by
  fun_induction TypeGraph.unifyAll span g queue with
  | case1 g =>
    rw [List.map_nil, TypeGraph.unifyAll]
    exact .ok rfl ⟨rfl⟩
  | case2 g a b path rest i j hroots x y clash =>
    rename_i hmerge
    rw [List.map_cons, PendingPair.raise, TypeGraph.unifyAll, dif_pos ((joins_atop g base a b).2 hroots)]
    simp only [get_atop, Ty.merge_mapVars]
    rw [show (g.get a).merge (g.get b) = .error clash from hmerge]
    cases clash <;> exact .error ⟨rfl⟩
  | case3 g a b path rest i j hroots x y t inner hmerge =>
    rename_i ih
    rw [List.map_cons, PendingPair.raise, TypeGraph.unifyAll, dif_pos ((joins_atop g base a b).2 hroots)]
    simp only [get_atop, Ty.merge_mapVars, rootIndex_raise]
    rw [show (g.get a).merge (g.get b) = .ok (t, inner) from hmerge]
    rw [joinIndex_atop] at ih
    simpa [Except.map, InnerPair.mapVars, PendingPair.raise, Function.comp_def] using ih
  | case4 g a b path rest i j hroots =>
    rename_i ih
    rw [List.map_cons, PendingPair.raise, TypeGraph.unifyAll, dif_neg (hroots ∘ (joins_atop g base a b).1)]
    exact ih

end TypeGraph

/-! ### Copying -/

namespace Discovery

/-- The same classes, found in the same order, on top of another graph. -/
structure Raised (n : Nat) (d d' : Discovery) : Prop where
  found : d'.found = d.found.map (n + ·)
  place : ∀ r, d'.place[n + r]? = d.place[r]?
  pending : d'.pending = d.pending.map (n + ·)

section raised

variable {g base : TypeGraph} {d d' : Discovery}

theorem Raised.contains (h : d.Raised base.size d') (r : Nat) :
    d'.place.contains (base.size + r) = d.place.contains r := by
  rw [Std.HashMap.contains_eq_isSome_getElem?, Std.HashMap.contains_eq_isSome_getElem?, h.place]

theorem Raised.visit (h : d.Raised base.size d') (v : TypeVar) :
    (d.visit g v).Raised base.size (d'.visit (g.atop base) (v.raise base.size)) := by
  unfold Discovery.visit
  rw [TypeGraph.rootIndex_raise, TypeGraph.size_atop]
  dsimp only
  rw [h.contains]
  split
  · exact h
  · refine ⟨?_, fun r => ?_, ?_⟩
    · simp [h.found]
    · simp [Std.HashMap.getElem?_insert, h.found, h.place]
    · simp only [Nat.add_lt_add_iff_left]
      split <;> simp [h.pending]

theorem Raised.visits (h : d.Raised base.size d') (vs : List TypeVar) :
    (vs.foldl (Discovery.visit g) d).Raised base.size
      ((vs.map (TypeVar.raise base.size)).foldl (Discovery.visit (g.atop base)) d') := by
  induction vs generalizing d d' with
  | nil => exact h
  | cons v vs ih => exact ih (h.visit v)

theorem explore_of_pending {r : Nat} {rest : List Nat} (h : d.pending = r :: rest) :
    d.explore g = ((g.kind ⟨r⟩).children.foldl (Discovery.visit g) ⟨d.found, d.place, rest⟩).explore g := by
  rw [explore]
  split
  · rename_i hpending
    rw [h] at hpending
    cases hpending
  · rename_i hpending
    rw [h] at hpending
    obtain ⟨rfl, rfl⟩ := List.cons_eq_cons.1 hpending
    rfl

theorem Raised.explore (h : d.Raised base.size d') :
    (d.explore g).Raised base.size (d'.explore (g.atop base)) := by
  fun_induction Discovery.explore g d generalizing d' with
  | case1 d hpending =>
    rw [Discovery.explore]
    split
    · exact h
    · rename_i hpending'
      rw [h.pending, hpending] at hpending'
      cases hpending'
  | case2 d r rest hpending ih =>
    have hpending' : d'.pending = (base.size + r) :: rest.map (base.size + ·) := by
      rw [h.pending, hpending, List.map_cons]
    have hkind : (g.atop base).kind ⟨base.size + r⟩ = _ := TypeGraph.kind_atop g base ⟨r⟩
    rw [explore_of_pending hpending', hkind, Kind.children_mapVars]
    have hrest : Raised base.size ⟨d.found, d.place, rest⟩ ⟨d'.found, d'.place, rest.map (base.size + ·)⟩ :=
      ⟨h.found, h.place, rfl⟩
    exact ih (hrest.visits _)

end raised

end Discovery

namespace TypeGraph

theorem copyAll_eq (g : TypeGraph) (vs : List TypeVar) :
    g.copyAll vs = (vs.map (g.copyOf vs), ⟨g.cells ++ (g.discovery vs).found.map fun r =>
      Cell.root ((g.get ⟨r⟩).mapVars (g.copyOf vs))⟩) :=
  rfl

/-- What is copied on top of another graph is copied as it is by itself. -/
theorem copyAll_atop (g base : TypeGraph) (vs : List TypeVar) :
    (g.atop base).copyAll (vs.map (TypeVar.raise base.size)) =
      ((g.copyAll vs).1.map (TypeVar.raise base.size), (g.copyAll vs).2.atop base) := by
  have hempty : Discovery.Raised base.size .empty .empty :=
    ⟨by simp [Discovery.empty], fun _ => by simp [Discovery.empty], rfl⟩
  have hdiscovery : (g.discovery vs).Raised base.size ((g.atop base).discovery (vs.map (TypeVar.raise base.size))) :=
    (hempty.visits vs).explore
  have hcopy (v : TypeVar) : (g.atop base).copyOf (vs.map (TypeVar.raise base.size)) (v.raise base.size) =
      (g.copyOf vs v).raise base.size := by
    rw [copyOf, rootIndex_raise, size_atop, Std.HashMap.getD_eq_getD_getElem?, hdiscovery.place,
      ← Std.HashMap.getD_eq_getD_getElem?]
    exact congrArg TypeVar.mk (Nat.add_assoc ..)
  have hcell (r : Nat) : Cell.root (((g.atop base).get ⟨base.size + r⟩).mapVars
      ((g.atop base).copyOf (vs.map (TypeVar.raise base.size)))) =
        (Cell.root ((g.get ⟨r⟩).mapVars (g.copyOf vs))).raise base.size := by
    have hget : (g.atop base).get ⟨base.size + r⟩ = _ := get_atop g base ⟨r⟩
    simp only [hget, Cell.raise, Ty.mapVars, Kind.mapVars_mapVars, hcopy]
  rw [copyAll_eq, copyAll_eq, List.map_map, List.map_map, hdiscovery.found]
  refine Prod.ext (List.map_congr_left fun v _ => hcopy v) (congrArg TypeGraph.mk ?_)
  simp only [atop, Array.map_append, Array.map_map, Array.append_assoc, Function.comp_def]
  simp only [← hcell, atop]

/-! ### Displays -/

variable {g base : TypeGraph}

/-- Two graphs on top of another one are unfolded to the same from variables with the same numbers. -/
theorem foldBelow_atop {α : Type} {back : Nat → α} {step : Kind → (TypeVar → α) → α}
    (hstep : ∀ inner k, step (Kind.mapVars (TypeVar.raise base.size) k) inner =
      step k (inner ∘ TypeVar.raise base.size)) (enclosing : List Nat) (v : TypeVar) :
    (g.atop base).foldBelow back step (enclosing.map (base.size + ·)) (v.raise base.size) =
      g.foldBelow back step enclosing v := by
  have hmem (enclosing : List Nat) (r : Nat) : base.size + r ∈ enclosing.map (base.size + ·) ↔ r ∈ enclosing :=
    List.mem_map_of_injective (add_right_injective base.size)
  fun_induction TypeGraph.foldBelow g back step enclosing v with
  | case1 enclosing v r hseen =>
    have hroot : (g.atop base).rootIndex (v.raise base.size).index = base.size + r := rootIndex_raise g base v
    rw [TypeGraph.foldBelow, dif_pos (hroot ▸ (hmem _ _).2 hseen), hroot,
      idxOf_map_of_inj fun a _ h => Nat.add_left_cancel h]
  | case2 enclosing v r hseen hlt ih =>
    have hroot : (g.atop base).rootIndex (v.raise base.size).index = base.size + r := rootIndex_raise g base v
    rw [TypeGraph.foldBelow, dif_neg fun h => hseen ((hmem _ _).1 (hroot ▸ h)),
      dif_pos (by rw [hroot, size_atop]; exact Nat.add_lt_add_left hlt _), kind_atop, hstep, hroot]
    exact congrArg (step _) (funext ih)
  | case3 enclosing v r hseen hlt =>
    have hroot : (g.atop base).rootIndex (v.raise base.size).index = base.size + r := rootIndex_raise g base v
    rw [TypeGraph.foldBelow, dif_neg fun h => hseen ((hmem _ _).1 (hroot ▸ h)),
      dif_neg (by rw [hroot, size_atop]; omega)]

/-- What is on top of another graph displays as it does by itself. -/
theorem display_atop (g base : TypeGraph) (v : TypeVar) : (g.atop base).display (v.raise base.size) = g.display v :=
  foldBelow_atop (fun inner k => Kind.text_mapVars _ inner k) [] v

end TypeGraph

theorem Kind.mapVars_object_insert (f : TypeVar → TypeVar) (members : Row TypeVar) (name : String) (type : TypeVar)
    (isOpen : Bool) (order : Option (List String)) :
    (object (members.insert name type) isOpen order).mapVars f =
      object ((members.map f).insert name (f type)) isOpen order := by
  rw [mapVars, Row.insert_map]

theorem Kind.mapVars_union_insert (f : TypeVar → TypeVar) (variants : Row TypeVar) (name : String) (type : TypeVar)
    (isOpen : Bool) :
    (union (variants.insert name type) isOpen).mapVars f = union ((variants.map f).insert name (f type)) isOpen := by
  rw [mapVars, Row.insert_map]

/-! ### Constraints -/

namespace BaseKind

variable (b : BaseKind) (f : TypeVar → TypeVar)

theorem accepts_mapVars (k : Kind) : b.accepts (k.mapVars f) = b.accepts k := by
  cases b <;> cases k <;> rfl

theorem refines_mapVars (k : Kind) : b.refines (k.mapVars f) = b.refines k := by
  cases b <;> cases k <;> rfl

theorem instantiate_mapVars : b.instantiate.mapVars f = b.instantiate := by
  cases b <;> rfl

end BaseKind

theorem Demand.mapVars_mapVars (f f' : TypeVar → TypeVar) (d : Demand) :
    (d.mapVars f).mapVars f' = d.mapVars fun v => f' (f v) := by
  cases d <;> simp [mapVars]

/-- The constraint on the images of its variables. -/
def Constraint.mapVars (f : TypeVar → TypeVar) (c : Constraint) : Constraint :=
  ⟨f c.target, c.span, c.demand.mapVars f⟩

/-- On top of another graph the second computation does to the variables with greater numbers what the first one
does. -/
abbrev Above {α β : Type} (base : TypeGraph) (V : α → β → Prop) (x : TypeM α) (y : TypeM β) : Prop :=
  Parallel (TypeGraph.Atop base) (TypeGraph.Atop base) V x y

section steps

variable {base : TypeGraph}

theorem Above.get_bind {α β : Type} {V : α → β → Prop} {x : TypeGraph → TypeM α} {y : TypeGraph → TypeM β}
    (h : ∀ g, Above base V (x g) (y (g.atop base))) : Above base V (get >>= x) (get >>= y) where
  run {g g'} hg := by
    obtain rfl := hg.eq
    exact (h g).run hg

theorem allocate_above (t : Ty) :
    Above base (fun v v' => v' = v.raise base.size) (allocate t)
      (allocate (t.mapVars (TypeVar.raise base.size))) where
  run {g g'} hg := by
    obtain rfl := hg.eq
    unfold allocate
    rw [TypeGraph.alloc_atop]
    exact .ok rfl ⟨rfl⟩

theorem fresh_above : Above base (fun v v' => v' = v.raise base.size) fresh fresh := allocate_above Ty.any

theorem settle_above (v : TypeVar) {kind kind' : Kind} (hkind : kind.mapVars (TypeVar.raise base.size) = kind')
    (span : Option Span) : Above base Eq (settle v kind span) (settle (v.raise base.size) kind' span) where
  run {g g'} hg := by
    obtain rfl := hg.eq
    subst hkind
    exact .ok rfl ⟨(TypeGraph.set_atop g base v ⟨kind, span⟩).symm⟩

theorem unifyAt_above (a b : TypeVar) (span : Span) (path : StepPath) :
    Above base Eq (unifyAt a b span path) (unifyAt (a.raise base.size) (b.raise base.size) span path) where
  run {g g'} hg := by
    obtain rfl := hg.eq
    exact TypeGraph.unifyAll_atop base g span [⟨a, b, path⟩]

theorem freshFor_above (names : List String) :
    Above base (fun l l' => l' = l.map fun e => (e.1, e.2.raise base.size)) (freshFor names) (freshFor names) := by
  induction names with
  | nil => exact .pure rfl
  | cons name names ih =>
    refine fresh_above.bind fun hv => ih.bind fun hl => .pure ?_
    rw [hv, hl, List.map_cons]

theorem forM_above {α β : Type} {x : α → TypeM Unit} {y : β → TypeM Unit} {f : α → β}
    (h : ∀ a, Above base Eq (x a) (y (f a))) (l : List α) : Above base Eq (l.forM x) ((l.map f).forM y) := by
  induction l with
  | nil => exact .pure rfl
  | cons a l ih => exact (h a).bind fun _ => ih

end steps

namespace Constraint

variable {base : TypeGraph}

theorem addVariants_map (f : TypeVar → TypeVar) (isOpen : Bool) (toAdd : List (String × TypeVar))
    (row : Row TypeVar) :
    addVariants isOpen (toAdd.map fun e => (e.1, f e.2)) (row.map f) =
      (addVariants isOpen toAdd row).map fun p => (p.1.map f, p.2.map fun e => (e.1, f e.2.1, f e.2.2)) := by
  induction toAdd generalizing row with
  | nil => rfl
  | cons e rest ih =>
    obtain ⟨name, payload⟩ := e
    rw [List.map_cons, addVariants, addVariants, Row.get?_map]
    cases row.get? name with
    | some existing =>
      simp only [Option.map_some, ih]
      cases addVariants isOpen rest row <;> rfl
    | none =>
      simp only [Option.map_none, ← Row.insert_map, ih]
      cases isOpen <;> rfl

theorem mismatch_above (c : Constraint) (expected : String) (found : Ty) (reason : Option String) :
    Above base (Eq (α := Unit)) (throw (c.mismatch expected found reason))
      (throw ((c.mapVars (TypeVar.raise base.size)).mismatch expected (found.mapVars (TypeVar.raise base.size))
        reason)) := by
  have hsame (f : TypeVar → TypeVar) : (c.mapVars f).mismatch expected (found.mapVars f) reason =
      c.mismatch expected found reason := by
    simp only [mismatch, mapVars, Ty.mapVars, Kind.describe_mapVars]
  rw [hsame]
  exact .throw _

/-- Applying a constraint on top of another graph does to the variables there what it does by itself. -/
theorem apply_above (c : Constraint) : Above base Eq c.apply (c.mapVars (TypeVar.raise base.size)).apply := by
  refine Above.get_bind fun g => ?_
  obtain ⟨v, span, demand⟩ := c
  dsimp only [mapVars]
  rw [TypeGraph.get_atop]
  cases demand with
  | isBase b reason =>
    dsimp only [Demand.mapVars]
    generalize g.get v = t
    rw [show b.accepts (t.mapVars _).kind = b.accepts t.kind from b.accepts_mapVars _ _,
      show b.refines (t.mapVars _).kind = b.refines t.kind from b.refines_mapVars _ _]
    split
    · exact .pure rfl
    split
    · exact settle_above v (b.instantiate_mapVars _) span
    · exact mismatch_above _ _ _ _
  | isNumeric =>
    obtain ⟨kind, origin⟩ := g.get v
    cases kind <;> first | exact .pure rfl | exact settle_above v rfl span | exact mismatch_above _ _ _ _
  | isIndexed =>
    obtain ⟨kind, origin⟩ := g.get v
    cases kind <;> first | exact .pure rfl | exact settle_above v rfl span | exact mismatch_above _ _ _ _
  | isReferenced =>
    obtain ⟨kind, origin⟩ := g.get v
    cases kind <;> first | exact .pure rfl | exact settle_above v rfl span | exact mismatch_above _ _ _ _
  | isSequence =>
    obtain ⟨kind, origin⟩ := g.get v
    cases kind <;> first | exact .pure rfl | exact settle_above v rfl span | exact mismatch_above _ _ _ _
  | hasElement element =>
    obtain ⟨kind, origin⟩ := g.get v
    cases kind <;>
      first | exact unifyAt_above _ _ _ _ | exact settle_above v rfl span | exact mismatch_above _ _ _ _
  | hasMember name type =>
    obtain ⟨kind, origin⟩ := g.get v
    cases kind with
    | any => exact settle_above v (Kind.mapVars_object_insert _ .empty name type true none) span
    | referenced => exact settle_above v (Kind.mapVars_object_insert _ .empty name type true none) span
    | object members isOpen order =>
      dsimp only [Ty.mapVars, Kind.mapVars, Demand.mapVars]
      rw [Row.get?_map]
      cases members.get? name with
      | some existing => exact unifyAt_above _ _ _ _
      | none =>
        cases isOpen with
        | true => exact settle_above v (Kind.mapVars_object_insert _ members name type true order) span
        | false => exact .throw _
    | _ => exact mismatch_above _ _ _ _
  | limitMembers names =>
    have hfresh : Above base Eq (freshFor names.names >>= fun members =>
          settle v (.object (Row.ofList members) false none) span)
        (freshFor names.names >>= fun members =>
          settle (v.raise base.size) (.object (Row.ofList members) false none) span) :=
      (freshFor_above _).bind fun h =>
        settle_above v (h ▸ congrArg (Kind.object · false none) (Row.ofList_map (TypeVar.raise base.size) _)) span
    obtain ⟨kind, origin⟩ := g.get v
    cases kind with
    | any => exact hfresh
    | referenced => exact hfresh
    | object members isOpen order => exact settle_above v rfl origin
    | _ => exact mismatch_above _ _ _ _
  | hasSignature args returns =>
    obtain ⟨kind, origin⟩ := g.get v
    cases kind with
    | any => exact settle_above v rfl span
    | referenced => exact settle_above v rfl span
    | closure existing result =>
      dsimp only [Ty.mapVars, Kind.mapVars, Demand.mapVars]
      rw [List.length_map, List.length_map, argumentPairs_map]
      split
      · exact (forM_above (fun p => unifyAt_above p.left p.right span [p.step]) _).bind fun _ =>
          unifyAt_above _ _ _ _
      · exact .throw _
    | _ => exact mismatch_above _ _ _ _
  | hasVariant name type =>
    obtain ⟨kind, origin⟩ := g.get v
    cases kind with
    | any => exact settle_above v (Kind.mapVars_union_insert _ .empty name type true) span
    | union variants isOpen =>
      dsimp only [Ty.mapVars, Kind.mapVars, Demand.mapVars]
      rw [Row.get?_map]
      cases variants.get? name with
      | some existing => exact unifyAt_above _ _ _ _
      | none =>
        cases isOpen with
        | true => exact settle_above v (Kind.mapVars_union_insert _ variants name type true) span
        | false => exact .throw _
    | _ => exact mismatch_above _ _ _ _
  | limitVariants names =>
    obtain ⟨kind, origin⟩ := g.get v
    cases kind with
    | any =>
      exact (freshFor_above _).bind fun h =>
        settle_above v (h ▸ congrArg (Kind.union · false) (Row.ofList_map (TypeVar.raise base.size) _)) span
    | union variants isOpen =>
      dsimp only [Ty.mapVars, Kind.mapVars, Demand.mapVars]
      rw [Row.names_map]
      cases variants.names.find? fun name => !names.contains name with
      | some extra => exact .throw _
      | none => exact settle_above v rfl origin
    | _ => exact mismatch_above _ _ _ _
  | variantsOfExcept source name =>
    dsimp only [Demand.mapVars]
    rw [TypeGraph.get_atop]
    obtain ⟨kind, origin⟩ := g.get v
    obtain ⟨sourceKind, sourceOrigin⟩ := g.get source
    cases sourceKind with
    | union all allOpen =>
      dsimp only [Ty.mapVars, Kind.mapVars]
      rw [Row.filter_map]
      cases kind with
      | any => exact settle_above v rfl span
      | union variants isOpen =>
        dsimp only [Kind.mapVars]
        rw [show ((all.filter fun n _ => n != name).map (TypeVar.raise base.size)).entries =
            (all.filter fun n _ => n != name).entries.map fun e => (e.1, e.2.raise base.size) from rfl,
          addVariants_map]
        cases addVariants isOpen (all.filter fun n _ => n != name).entries variants with
        | error missing => exact .throw _
        | ok p =>
          obtain ⟨row, both⟩ := p
          exact (settle_above v rfl origin).bind fun _ =>
            forM_above (fun e => unifyAt_above e.2.1 e.2.2 span [.variant e.1]) both
      | _ => exact mismatch_above _ _ _ _
    | _ => exact mismatch_above _ _ _ _
  | unify other => exact unifyAt_above _ _ _ _

end Constraint

end Monomorph
