import Monomorph.Draft
import Monomorph.Proofs.Draft.Nodes
import Monomorph.Proofs.Row

/-! # What scopes declare

The *layout* of a scope is what it declares: the type given back by every frame and the types of the locals
of its blocks (`Scope.layout`). It does not say which locals have a value, so reading a local, giving it a
value and joining arms keep the layout; declaring a local changes the innermost block. An expression's place
*sees* a layout if the innermost body gives back what the place says and the same locals are visible
(`Place.Sees`). -/

namespace Monomorph

/-- What one frame declares: the type it gives back and the types of the locals of its blocks. -/
structure FrameLayout where
  returns : TypeVar
  blocks : List (Row TypeVar)

namespace FrameLayout

/-- Declare a local in the innermost block. -/
def declare (f : FrameLayout) (name : String) (type : TypeVar) : FrameLayout :=
  match f.blocks with
  | [] => f
  | block :: blocks => ⟨f.returns, block.insert name type :: blocks⟩

end FrameLayout

/-- What the frames around a point declare. -/
abbrev Layout := List FrameLayout

namespace Layout

/-- Declare a local in the innermost block. -/
def declare (name : String) (type : TypeVar) : Layout → Layout
  | [] => []
  | f :: fs => f.declare name type :: fs

/-- Declare locals in the innermost block, the last of the list first. -/
def declareAll (added : List (String × TypeVar)) (l : Layout) : Layout :=
  added.foldr (fun e => declare e.1 e.2) l

def enter (block : Row TypeVar) : Layout → Layout
  | [] => []
  | f :: fs => ⟨f.returns, block :: f.blocks⟩ :: fs

def leave : Layout → Layout
  | [] => []
  | f :: fs => ⟨f.returns, f.blocks.tail⟩ :: fs

def lookup (l : Layout) (name : String) : Option TypeVar :=
  (l.flatMap FrameLayout.blocks).findSome? fun block => block.get? name

theorem declareAll_append (added added' : List (String × TypeVar)) (l : Layout) :
    declareAll (added ++ added') l = declareAll added (declareAll added' l) :=
  List.foldr_append

/-- What is declared in a frame of its own goes with the frame. -/
theorem tail_declareAll (added : List (String × TypeVar)) (f : FrameLayout) (l : Layout) :
    (declareAll added (f :: l)).tail = l := by
  induction added with
  | nil => rfl
  | cons e added ih =>
    rw [declareAll, List.foldr_cons]
    change (declare e.1 e.2 (declareAll added (f :: l))).tail = l
    cases h : declareAll added (f :: l) with
    | nil => rwa [h] at ih
    | cons f' l' => rwa [h] at ih

/-- What is declared in a block of its own goes with the block. -/
theorem leave_declareAll (added : List (String × TypeVar)) (block : Row TypeVar) (l : Layout) :
    leave (declareAll added (enter block l)) = l := by
  have hall : ∃ block', declareAll added (enter block l) = enter block' l := by
    induction added with
    | nil => exact ⟨block, rfl⟩
    | cons e added ih =>
      obtain ⟨block', h⟩ := ih
      refine ⟨block'.insert e.1 e.2, ?_⟩
      change declare e.1 e.2 (declareAll added (enter block l)) = _
      rw [h]
      cases l <;> rfl
  obtain ⟨block', h⟩ := hall
  rw [h]
  cases l <;> rfl

end Layout

/-! ### Scopes -/

namespace Scope

/-- The types of the locals of a block. -/
def blockLayout (b : Block) : Row TypeVar := b.locals.map Local.type

/-- What the frames of a scope declare. -/
def layout (scope : Scope) : Layout :=
  scope.map fun f => ⟨f.returns, f.blocks.map blockLayout⟩

theorem map_blocks (scope : Scope) : scope.blocks.map (fun b => b.2.2) = scope.flatMap Frame.blocks := by
  have hinner (f : Frame) : (f.blocks.zipIdx.map fun p : Block × Nat => p.1) = f.blocks :=
    List.zipIdx_map_fst 0 f.blocks
  calc scope.blocks.map (fun b => b.2.2)
    _ = scope.zipIdx.flatMap fun p => p.1.blocks := by
      rw [blocks, List.map_flatMap]
      simp only [List.map_map, Function.comp_def, hinner]
    _ = (scope.zipIdx.map Prod.fst).flatMap Frame.blocks := by rw [List.flatMap_map]
    _ = scope.flatMap Frame.blocks := by rw [List.zipIdx_map_fst]

theorem go_map_type (name : String) (initialized : Bool) (blocks : List (Nat × Nat × Block)) :
    (sight.go name initialized blocks).map (fun s => s.binding.type) =
      (blocks.map fun b => b.2.2).findSome? fun b => (blockLayout b).get? name := by
  induction blocks generalizing initialized with
  | nil => rfl
  | cons b blocks ih =>
    obtain ⟨i, j, block⟩ := b
    rw [sight.go, List.map_cons, List.findSome?_cons, blockLayout, Row.get?_map]
    cases block.locals.get? name with
    | some l => rfl
    | none => exact ih _

theorem typeOf?_eq_lookup (scope : Scope) (name : String) :
    scope.typeOf? name = scope.layout.lookup name := by
  rw [typeOf?, sight, go_map_type, map_blocks, Layout.lookup, layout, List.flatMap_map]
  simp only [← List.map_flatMap, List.findSome?_map, Function.comp_def]

theorem layout_modifyBlock {f : Block → Block} (hf : ∀ b, blockLayout (f b) = blockLayout b)
    (scope : Scope) : (scope.modifyBlock f).layout = scope.layout := by
  unfold modifyBlock
  split
  · simp [layout, hf]
  · rfl

theorem layout_declare (name : String) (l : Local) (scope : Scope) :
    (scope.modifyBlock fun b => b.declare name l).layout = scope.layout.declare name l.type := by
  have hblock (b : Block) : blockLayout (b.declare name l) = (blockLayout b).insert name l.type :=
    Row.ext_get? fun n => by
      simp only [blockLayout, Block.declare, Row.get?_map, Row.get?_insert]
      split <;> rfl
  cases scope with
  | nil => rfl
  | cons frame frames =>
    obtain ⟨returns, captures, blocks⟩ := frame
    cases blocks with
    | nil => rfl
    | cons block blocks => simp [modifyBlock, layout, Layout.declare, FrameLayout.declare, hblock]

theorem blockLayout_initialize (b : Block) (name : String) :
    blockLayout ( Block.initialize b name) = blockLayout b := by
  unfold Block.initialize
  split
  · rename_i l hl
    refine Row.ext_get? fun n => ?_
    simp only [blockLayout, Row.get?_map, Row.get?_insert]
    split
    · rename_i hn
      rw [← hn, hl]
      rfl
    · rfl
  · rfl

theorem layout_joinArms (arms : List Block) (scope : Scope) :
    (scope.joinArms arms).layout = scope.layout := by
  refine layout_modifyBlock (fun b => ?_) scope
  have hall (names : List String) (b : Block) :
      blockLayout (names.foldl Block.initialize b) = blockLayout b := by
    induction names generalizing b with
    | nil => rfl
    | cons name names ih => rw [List.foldl_cons, ih, blockLayout_initialize]
  exact hall _ b

theorem layout_enterBlock (b : Block) (scope : Scope) :
    (scope.enterBlock b).layout = scope.layout.enter (blockLayout b) := by
  cases scope <;> rfl

theorem layout_exitBlock (scope : Scope) : scope.exitBlock.2.layout = scope.layout.leave := by
  cases scope with
  | nil => rfl
  | cons frame frames =>
    obtain ⟨returns, captures, blocks⟩ := frame
    cases blocks <;> rfl

/-- A read or an assignment of a local finds the nearest local of the name and declares nothing. -/
theorem access_ok {scope scope' : Scope} {name : String} {span : Span} {assigned : Bool} {type : TypeVar}
    (h : scope.access name span assigned = .ok (some (type, scope'))) :
    scope.layout.lookup name = some type ∧ scope'.layout = scope.layout := by
  unfold access at h
  rw [← typeOf?_eq_lookup, typeOf?]
  split at h
  · cases h
  · rename_i s hs
    split at h
    · cases h
    · split at h
      · cases h
      · cases h
        rw [hs]
        refine ⟨rfl, ?_⟩
        have hcaptures (scope : Scope) : Scope.layout (scope.mapIdx fun i f =>
            if i < s.frame then { f with captures := f.captures.add name } else f) = scope.layout := by
          refine List.ext_getElem (by simp [layout]) fun i _ _ => ?_
          simp only [layout, List.getElem_mapIdx, List.getElem_map]
          split <;> rfl
        rw [hcaptures]
        split
        · exact layout_modifyBlock (fun b => blockLayout_initialize b name) scope
        · rfl

end Scope

/-! ### What a place sees -/

/-- The place is inside the frames of a layout: it gives back what the innermost frame does, and it has the
same locals. -/
structure Place.Sees (p : Place) (l : Layout) : Prop where
  inside : ∃ returns block blocks frames, l = ⟨returns, block :: blocks⟩ :: frames
  returns : ∀ v, p.returns = some v → (l.head?.map FrameLayout.returns).getD default = v
  locals : ∀ name, l.lookup name = p.locals.lookup name

namespace Place.Sees

variable {p : Place} {l : Layout}

theorem declare (h : p.Sees l) (name : String) (type : TypeVar) :
    (p.declare [(name, type)]).Sees (l.declare name type) := by
  obtain ⟨⟨returns, block, blocks, frames, rfl⟩, hreturns, hlocals⟩ := h
  refine ⟨⟨_, _, _, _, rfl⟩, hreturns, fun n => ?_⟩
  have hn := hlocals n
  simp only [Layout.lookup, Layout.declare, FrameLayout.declare, List.flatMap_cons, List.cons_append,
    List.findSome?_cons, Row.get?_insert, Place.declare, List.nil_append, List.lookup_cons] at hn ⊢
  by_cases hname : name = n
  · simp [hname]
  · rw [if_neg hname, hn, beq_eq_false_iff_ne.2 (Ne.symm hname)]

theorem declareAll (h : p.Sees l) (added : List (String × TypeVar)) :
    (p.declare added).Sees (l.declareAll added) := by
  induction added with
  | nil => exact h
  | cons e added ih => exact ih.declare e.1 e.2

theorem enter (h : p.Sees l) : p.Sees (l.enter .empty) := by
  obtain ⟨⟨returns, block, blocks, frames, rfl⟩, hreturns, hlocals⟩ := h
  exact ⟨⟨_, _, _, _, rfl⟩, hreturns, hlocals⟩

theorem enter_declared (h : p.Sees l) (name : String) (type : TypeVar) :
    (p.declare [(name, type)]).Sees
      (l.enter (Scope.blockLayout (Block.empty.declare name ⟨type, true, false⟩))) := by
  obtain ⟨returns, block, blocks, frames, rfl⟩ := h.inside
  exact h.enter.declare name type

theorem ofParams {outer : List (String × TypeVar)} (hlocals : ∀ name, l.lookup name = outer.lookup name)
    (params : List (String × TypeVar)) (returns : TypeVar) (returns? : Option TypeVar)
    (hreturns : ∀ v, returns? = some v → returns = v) :
    Place.Sees ⟨returns?, params.reverse ++ outer⟩
      ((Scope.layout [.ofParams params returns]) ++ l) := by
  refine ⟨⟨_, _, _, _, rfl⟩, hreturns, fun name => ?_⟩
  have hblock : Row.map Local.type (Row.ofList (params.map fun p => (p.1, (⟨p.2, true, false⟩ : Local)))) =
      Row.ofList params := by
    refine Row.ext_get? fun n => ?_
    rw [Row.get?_map, Row.get?_ofList, Row.get?_ofList, ← List.map_reverse]
    generalize params.reverse = entries
    induction entries with
    | nil => rfl
    | cons e entries ih =>
      rw [List.map_cons, List.lookup_cons, List.lookup_cons]
      split <;> first | rfl | exact ih
  have h := hlocals name
  simp only [Layout.lookup, Scope.layout, Frame.ofParams, Scope.blockLayout, List.map_cons, List.map_nil,
    hblock, List.flatMap_cons, List.cons_append, List.nil_append, List.findSome?_cons, Row.get?_ofList,
    List.lookup_append] at h ⊢
  rw [h]
  cases params.reverse.lookup name <;> rfl

end Place.Sees
end Monomorph
