import Monomorph.Proofs.Draft.Layout

/-! # Looking for locals

`Scope.sight` goes through the blocks of all frames, numbered from the inside. Here it is said block by block:
a name is a local of the innermost block, or else what it is outside of that block, where it has a value also if
the block notes that it got one inside (`Scope.sight_block`); and what is outside of a whole frame is seen with one
more frame between (`Scope.sight_frame`). -/

namespace Monomorph

theorem NameSet.contains_add (set : NameSet) (n m : String) :
    Row.contains (set.add n) m = true ↔ n = m ∨ Row.contains set m = true := by
  rw [Row.contains, add, Row.get?_insert]
  by_cases h : n = m
  · simp [h]
  · simp [h, Row.contains]

namespace Scope

variable {name : String}

/-- What is seen from inside a block whose locals do not include the name. -/
def Sighting.under (v : Sighting) (noted : Bool) : Sighting :=
  { v with block := if v.frame = 0 then v.block + 1 else v.block, initialized := noted || v.initialized }

/-- What is seen from inside a frame whose locals do not include the name. -/
def Sighting.outside (v : Sighting) : Sighting := { v with frame := v.frame + 1 }

/-! ### Numbered blocks -/

/-- Looking on after a note that the name has a value. -/
theorem go_noted (noted : Bool) (bs : List (Nat × Nat × Block)) :
    sight.go name noted bs =
      (sight.go name false bs).map fun v => { v with initialized := noted || v.initialized } := by
  induction bs generalizing noted with
  | nil => rfl
  | cons b bs ih =>
    obtain ⟨i, j, block⟩ := b
    rw [sight.go, sight.go]
    cases block.locals.get? name with
    | some l => simp [Bool.or_assoc]
    | none =>
      simp only [Bool.false_or]
      rw [ih, ih (block.initializes.contains name), Option.map_map]
      simp [Function.comp_def, Bool.or_assoc]

/-- The numbers of blocks do not matter for what is found. -/
theorem go_map (number : Nat → Nat → Nat × Nat) (noted : Bool) (bs : List (Nat × Nat × Block)) :
    sight.go name noted (bs.map fun b => ((number b.1 b.2.1).1, (number b.1 b.2.1).2, b.2.2)) =
      (sight.go name noted bs).map fun v =>
        { v with frame := (number v.frame v.block).1, block := (number v.frame v.block).2 } := by
  induction bs generalizing noted with
  | nil => rfl
  | cons b bs ih =>
    obtain ⟨i, j, block⟩ := b
    rw [List.map_cons, sight.go, sight.go]
    cases block.locals.get? name with
    | some l => rfl
    | none => exact ih _

theorem blocks_frame (returns : TypeVar) (captures : NameSet) (fs : Scope) :
    blocks (⟨returns, captures, []⟩ :: fs) = (blocks fs).map fun b => (b.1 + 1, b.2.1, b.2.2) := by
  simp only [blocks, List.zipIdx_cons, List.flatMap_cons, List.zipIdx_nil, List.map_nil, List.nil_append,
    List.map_flatMap, List.map_map, Function.comp_def, Nat.zero_add, List.zipIdx_succ, List.flatMap_map]

theorem blocks_block (returns : TypeVar) (captures : NameSet) (b : Block) (bs : List Block) (fs : Scope) :
    blocks (⟨returns, captures, b :: bs⟩ :: fs) =
      (0, 0, b) :: (blocks (⟨returns, captures, bs⟩ :: fs)).map fun b =>
        (b.1, if b.1 = 0 then b.2.1 + 1 else b.2.1, b.2.2) := by
  simp [blocks, List.zipIdx_cons, List.zipIdx_succ, List.map_flatMap, List.flatMap_map, Function.comp_def]

/-! ### Blocks and frames -/

theorem sight_frame (returns : TypeVar) (captures : NameSet) (fs : Scope) :
    sight (⟨returns, captures, []⟩ :: fs) name = (sight fs name).map Sighting.outside := by
  rw [sight, blocks_frame, go_map fun i j => (i + 1, j)]
  rfl

theorem sight_block (returns : TypeVar) (captures : NameSet) (b : Block) (bs : List Block) (fs : Scope) :
    sight (⟨returns, captures, b :: bs⟩ :: fs) name =
      match b.locals.get? name with
      | some l => some ⟨0, 0, l, b.initializes.contains name || l.initialized⟩
      | none => (sight (⟨returns, captures, bs⟩ :: fs) name).map (·.under (b.initializes.contains name)) := by
  rw [sight, blocks_block, sight.go]
  cases b.locals.get? name with
  | some l => simp
  | none =>
    simp only [Bool.false_or]
    rw [go_map fun i j => (i, if i = 0 then j + 1 else j), go_noted, Option.map_map]
    rfl

/-! ### Stacks of blocks -/

def stack (s : Scope) : List (List Block) := s.map Frame.blocks

theorem sight_congr {s s' : Scope} (h : s.stack = s'.stack) : s.sight name = s'.sight name := by
  have hblocks (s : Scope) : s.blocks = s.stack.zipIdx.flatMap fun p =>
      p.1.zipIdx.map fun q => (p.2, q.2, q.1) := by
    rw [blocks, stack, List.zipIdx_map, List.flatMap_map]
    rfl
  rw [sight, sight, hblocks, hblocks, h]

section Stack

variable {s t : Scope} {b : Block} {bs : List Block} {rest : List (List Block)}

theorem exists_frame (h : s.stack = bs :: rest) :
    ∃ returns captures fs, s = ⟨returns, captures, bs⟩ :: fs ∧ stack fs = rest := by
  cases s with
  | nil => cases h
  | cons f fs =>
    obtain ⟨rfl, hfs⟩ := List.cons.inj h
    exact ⟨f.returns, f.captures, fs, rfl, hfs⟩

/-- A name is a local of the innermost block, or else what it is outside of that block. -/
theorem sight_stack (h : s.stack = (b :: bs) :: rest) (ht : t.stack = bs :: rest) :
    s.sight name =
      match b.locals.get? name with
      | some l => some ⟨0, 0, l, b.initializes.contains name || l.initialized⟩
      | none => (t.sight name).map (·.under (b.initializes.contains name)) := by
  obtain ⟨returns, captures, fs, rfl, hfs⟩ := exists_frame h
  have houtside : Scope.sight (⟨returns, captures, bs⟩ :: fs) name = t.sight name := sight_congr (ht ▸ hfs ▸ rfl)
  rw [sight_block, houtside]

theorem stack_modifyBlock (h : s.stack = (b :: bs) :: rest) (f : Block → Block) :
    (s.modifyBlock f).stack = (f b :: bs) :: rest := by
  obtain ⟨returns, captures, fs, rfl, rfl⟩ := exists_frame h
  rfl

theorem stack_enterBlock (h : s.stack = bs :: rest) (b : Block) : (s.enterBlock b).stack = (b :: bs) :: rest := by
  obtain ⟨returns, captures, fs, rfl, rfl⟩ := exists_frame h
  rfl

theorem stack_exitBlock (h : s.stack = (b :: bs) :: rest) : s.exitBlock.1 = b ∧ s.exitBlock.2.stack = bs :: rest := by
  obtain ⟨returns, captures, fs, rfl, rfl⟩ := exists_frame h
  exact ⟨rfl, rfl⟩

theorem stack_mapIdx {f : Nat → Frame → Frame} (hf : ∀ i frame, (f i frame).blocks = frame.blocks) (s : Scope) :
    stack (s.mapIdx f) = s.stack := by
  refine List.ext_getElem (by simp [stack]) fun i _ _ => ?_
  simp only [stack, List.getElem_map, List.getElem_mapIdx, hf]

/-- An access needs a value to read, and to give a value it needs that there is none yet or that the local is
mutable. It leaves the blocks as they are, but where a local gets its first value the innermost block notes it. -/
theorem access_stack {span : Span} {assigned : Bool} {type : TypeVar} {s' : Scope}
    (hs : s.stack = (b :: bs) :: rest) (h : s.access name span assigned = .ok (some (type, s'))) :
    ∃ v, s.sight name = some v ∧ (assigned = false → v.initialized = true) ∧
      (assigned = true → v.initialized = true → v.binding.isMutable = true) ∧
      s'.stack =
        ((if assigned && (v.frame == 0 && v.block == 0 || !v.initialized) then b.initialize name else b) :: bs) ::
          rest := by
  unfold access at h
  split at h
  · cases h
  · rename_i v hv
    refine ⟨v, hv, ?_⟩
    split at h
    · cases h
    · rename_i hread
      split at h
      · cases h
      · rename_i hassign
        cases h
        refine ⟨fun ha => ?_, fun ha hi => ?_, ?_⟩
        · simpa [ha] using hread
        · simpa [ha, hi] using hassign
        · rw [stack_mapIdx (by intro i frame; split <;> rfl)]
          split
          · exact stack_modifyBlock hs _
          · exact hs

end Stack

/-! ### Frames and layouts -/

/-- What is seen is in one of the first frames if they declare the name. -/
theorem frame_lt_iff {s : Scope} {v : Sighting} (h : s.sight name = some v) (k : Nat) :
    v.frame < k ↔ (Layout.lookup (s.layout.take k) name).isSome := by
  induction s generalizing v k with
  | nil => cases h
  | cons f fs ih =>
    obtain ⟨returns, captures, bs⟩ := f
    induction bs generalizing v with
    | nil =>
      rw [sight_frame] at h
      obtain ⟨w, hw, rfl⟩ := Option.map_eq_some_iff.1 h
      cases k with
      | zero => simp [Layout.lookup]
      | succ k =>
        have hfs := ih hw k
        simpa [Sighting.outside, layout, Layout.lookup] using hfs
    | cons b bs ihb =>
      rw [sight_block] at h
      cases hb : b.locals.get? name with
      | some l =>
        rw [hb] at h
        cases h
        cases k with
        | zero => simp [Layout.lookup]
        | succ k => simp [layout, Layout.lookup, blockLayout, Row.get?_map, hb]
      | none =>
        rw [hb] at h
        obtain ⟨w, hw, rfl⟩ := Option.map_eq_some_iff.1 h
        cases k with
        | zero => simp [Layout.lookup]
        | succ k =>
          have hrest := ihb hw
          simpa [Sighting.under, layout, Layout.lookup, blockLayout, Row.get?_map, hb] using hrest

end Scope
end Monomorph
