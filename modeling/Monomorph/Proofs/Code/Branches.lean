import Monomorph.Proofs.Code.Joins

/-! # Lowering branches

The branches on values and on variants are lowered alike: what they look at, their arms as blocks one
after the other, the branching instruction, then the join. `Expr.branch?` takes an expression apart in
this way and `LowerM.blocks` lowers the arms; `LowerM.branch_eq_ok` says that this is what lowering does
to each kind of branch, and `Branched.spec` that the whole is one step of lowering. -/

namespace Monomorph

/-! ### Arms of instructions -/

/-- The arms of an instruction with the versions that they bind, the last arm included. -/
def Instr.arms : Instr → List (Option Version × List Instr)
  | .op .. | .closure .. => []
  | .branchValue _ arms otherwise => arms.map (fun arm => (none, arm.2)) ++ [(none, otherwise)]
  | .branchVariant _ arms otherwise =>
    arms.map (fun arm => (arm.binding, arm.body)) ++ [(none, otherwise)]

section arms

variable {i : Instr}

theorem branchCount_of_arms (hi : i.arms ≠ []) : branchCount [i] = 1 := by
  cases i with
  | op op args dest => exact absurd rfl hi
  | closure args returns captures slots body dest => exact absurd rfl hi
  | branchValue v arms otherwise => rfl
  | branchVariant v arms otherwise => rfl

theorem exists_arm_of_mem_defines (hi : i.arms ≠ []) {w : Version} (hw : w ∈ i.defines) :
    ∃ arm ∈ i.arms, w ∈ arm.1.toList ∨ w ∈ definedIn arm.2 := by
  cases i with
  | op op args dest => exact absurd rfl hi
  | closure args returns captures slots body dest => exact absurd rfl hi
  | branchValue v arms otherwise =>
    rcases List.mem_append.1 hw with hw | hw
    · obtain ⟨arm, harm, hw⟩ := mem_definedInValueArms.1 hw
      exact ⟨_, List.mem_append_left _ (List.mem_map_of_mem harm), .inr hw⟩
    · exact ⟨_, List.mem_append_right _ (List.mem_singleton.2 rfl), .inr hw⟩
  | branchVariant v arms otherwise =>
    rcases List.mem_append.1 hw with hw | hw
    · obtain ⟨arm, harm, hw⟩ := mem_definedInVariantArms.1 hw
      exact ⟨_, List.mem_append_left _ (List.mem_map_of_mem harm), hw⟩
    · exact ⟨_, List.mem_append_right _ (List.mem_singleton.2 rfl), .inr hw⟩

/-- A path through a branching instruction goes through one of its arms. -/
theorem Runs.exists_arm {V : Type} {undefined : V} {h h' : History V} {inside : List (List Shape)} (hi : i.arms ≠ [])
    (hrun : Runs undefined [i] [.branch inside] h h') :
    ∃ (k : Nat) (bound : Option Version) (code : List Instr) (shapes : List Shape) (x : V),
      i.arms[k]? = some (bound, code) ∧ inside[k]? = some shapes ∧
      Runs undefined code shapes (payloadHistory bound x ++ h) h' := by
  cases i with
  | op op args dest => exact absurd rfl hi
  | closure args returns captures slots body dest => exact absurd rfl hi
  | branchValue v arms otherwise =>
    cases hrun with
    | @valueArm _ _ _ _ _ _ _ _ _ id body shapes k harm hinside hbody hrest =>
      obtain ⟨-, rfl⟩ := nil_iff.1 hrest
      have hk : k < arms.length := (List.getElem?_eq_some_iff.1 harm).1
      refine ⟨k, none, body, shapes, undefined, ?_, hinside, hbody⟩
      rw [Instr.arms, List.getElem?_append_left (by simpa using hk), List.getElem?_map, harm]
      rfl
    | @valueLast _ _ _ _ _ _ _ _ _ shapes hinside hbody hrest =>
      obtain ⟨-, rfl⟩ := nil_iff.1 hrest
      refine ⟨arms.length, none, otherwise, shapes, undefined, ?_, hinside, hbody⟩
      rw [Instr.arms, List.getElem?_append_right (by simp)]
      simp
  | branchVariant v arms otherwise =>
    cases hrun with
    | @variantArm _ _ _ _ _ _ _ _ _ arm shapes k x harm hinside hbody hrest =>
      obtain ⟨-, rfl⟩ := nil_iff.1 hrest
      have hk : k < arms.length := (List.getElem?_eq_some_iff.1 harm).1
      refine ⟨k, arm.binding, arm.body, shapes, x, ?_, hinside, hbody⟩
      rw [Instr.arms, List.getElem?_append_left (by simpa using hk), List.getElem?_map, harm]
      rfl
    | @variantLast _ _ _ _ _ _ _ _ _ shapes hinside hbody hrest =>
      obtain ⟨-, rfl⟩ := nil_iff.1 hrest
      refine ⟨arms.length, none, otherwise, shapes, undefined, ?_, hinside, hbody⟩
      rw [Instr.arms, List.getElem?_append_right (by simp)]
      simp

/-- A path through an arm is one through the instruction. -/
theorem Runs.of_arm {V : Type} {undefined : V} {h h' : History V} {inside : List (List Shape)} {k : Nat}
    {bound : Option Version} {code : List Instr} {shapes : List Shape} (x : V)
    (harm : i.arms[k]? = some (bound, code)) (hinside : inside[k]? = some shapes)
    (hrun : Runs undefined code shapes (payloadHistory bound x ++ h) h') :
    Runs undefined [i] [.branch inside] h h' := by
  cases i with
  | op op args dest => cases harm
  | closure args returns captures slots body dest => cases harm
  | branchValue v arms otherwise =>
    rw [Instr.arms, List.getElem?_append, List.length_map] at harm
    split at harm
    · rw [List.getElem?_map, Option.map_eq_some_iff] at harm
      obtain ⟨⟨id, body⟩, harm, heq⟩ := harm
      cases heq
      exact .valueArm k harm hinside hrun (.nil _)
    · rename_i hk
      obtain ⟨hlast, heq⟩ := List.getElem?_eq_some_iff.1 harm
      cases heq.symm.trans (List.getElem_singleton ..)
      have hk : k = arms.length := by
        simp at hlast
        omega
      exact .valueLast (hk ▸ hinside) hrun (.nil _)
  | branchVariant v arms otherwise =>
    rw [Instr.arms, List.getElem?_append, List.length_map] at harm
    split at harm
    · rw [List.getElem?_map, Option.map_eq_some_iff] at harm
      obtain ⟨arm, harm, heq⟩ := harm
      cases heq
      exact .variantArm k x harm hinside hrun (.nil _)
    · rename_i hk
      obtain ⟨hlast, heq⟩ := List.getElem?_eq_some_iff.1 harm
      cases heq.symm.trans (List.getElem_singleton ..)
      have hk : k = arms.length := by
        simp at hlast
        omega
      exact .variantLast (hk ▸ hinside) hrun (.nil _)

end arms

/-- The definition of an arm's payload, as an instruction. -/
def payloadCode (binding : Option Version) : List Instr :=
  binding.toList.map fun v => .op .copy [] (some v)

theorem definedIn_payloadCode {w : Version} {binding : Option Version} :
    w ∈ definedIn (payloadCode binding) ↔ w ∈ binding.toList := by
  cases binding <;> simp [payloadCode, definedIn, Instr.defines]

theorem Runs.payload {V : Type} {undefined : V} {h h' : History V} {binding : Option Version}
    {code : List Instr} {shapes : List Shape} (x : V)
    (hrun : Runs undefined code shapes (payloadHistory binding x ++ h) h') :
    Runs undefined (payloadCode binding ++ code) shapes h h' := by
  cases binding with
  | none => exact hrun
  | some v => exact .define x (by simp) (by simp) hrun

/-! ### Arms of expressions -/

/-- A block as an arm of a branch, with the name that it binds a payload to. -/
structure BranchArm where
  binding : Option (String × TypeVar)
  body : List (Expr TypeVar)

/-- The footprint of an arm, which declares what it binds. -/
def BranchArm.footprint : BranchArm → Footprint
  | ⟨some (n, _), body⟩ => (Footprint.declare n).seq (Expr.footprints body)
  | ⟨none, body⟩ => Expr.footprints body

/-- A branch: what it looks at, its arms, and whether they are all that there can be. -/
structure Branch where
  subject : Expr TypeVar
  isClosed : Bool
  arms : List BranchArm

/-- The arms of a match against constants. -/
def valueBranchArms (arms : List (Expr TypeVar × List (Expr TypeVar))) : List BranchArm :=
  arms.map fun arm => ⟨none, arm.2⟩

def variantBranchArms (arms : List (VariantArm TypeVar (List (Expr TypeVar)))) : List BranchArm :=
  arms.map fun arm => ⟨arm.binding.map fun n => (n, arm.payload), arm.body⟩

namespace Expr

def branch? : Expr TypeVar → Option Branch
  | .ifElse _ condition yes no => some ⟨condition, false, [⟨none, yes⟩, ⟨none, no⟩]⟩
  | .matchValue _ value arms otherwise => some ⟨value, false, valueBranchArms arms ++ [⟨none, otherwise⟩]⟩
  | .matchVariant _ value arms (some otherwise) =>
    some ⟨value, false, variantBranchArms arms ++ [⟨none, otherwise⟩]⟩
  | .matchVariant _ value arms none => some ⟨value, true, variantBranchArms arms⟩
  | _ => none

theorem map_footprint_valueBranchArms (arms : List (Expr TypeVar × List (Expr TypeVar))) :
    (valueBranchArms arms).map BranchArm.footprint = valueArmFootprints arms := by
  induction arms with
  | nil => rfl
  | cons arm arms ih => exact congrArg (_ :: ·) ih

theorem map_footprint_variantBranchArms (arms : List (VariantArm TypeVar (List (Expr TypeVar)))) :
    (variantBranchArms arms).map BranchArm.footprint = variantArmFootprints arms := by
  induction arms with
  | nil => rfl
  | cons arm arms ih =>
    obtain ⟨variant, binding, payload, body⟩ := arm
    cases binding <;> exact congrArg (_ :: ·) ih

theorem footprint_branch {e : Expr TypeVar} {b : Branch} (hb : e.branch? = some b) :
    e.footprint = b.subject.footprint.seq (.branch (b.arms.map BranchArm.footprint)) := by
  cases e with
  | ifElse m condition yes no =>
    cases hb
    rfl
  | matchValue m value arms otherwise =>
    cases hb
    rw [List.map_append, map_footprint_valueBranchArms]
    rfl
  | matchVariant m value arms otherwise =>
    cases otherwise with
    | some otherwise =>
      cases hb
      rw [List.map_append, map_footprint_variantBranchArms]
      rfl
    | none =>
      cases hb
      rw [map_footprint_variantBranchArms]
      rfl
  | _ => cases hb

end Expr

/-- A lowered block: the version that its payload is bound to, its code, and the names as they are at its
end. -/
structure LoweredArm where
  binding : Option Version
  code : List Instr
  names : Row Version

/-- A block with what it is lowered to, as an arm. -/
def LoweredArm.toArm (arm : BranchArm) (lowered : LoweredArm) : Arm :=
  ⟨arm.footprint, payloadCode lowered.binding ++ lowered.code, lowered.names⟩

/-- What an instruction has for the arms of a branch; if they are all that there can be, its last arm is
none of them. -/
def LoweredArm.codeArms (isClosed : Bool) (arms : List LoweredArm) :
    List (Option Version × List Instr) :=
  arms.map (fun b => (b.binding, b.code)) ++ if isClosed then [(none, [])] else []

namespace LowerM

open Outcome

variable {context : LowerContext} {s s₁ s' : Lowering}

def block (context : LowerContext) : BranchArm → LowerM LoweredArm
  | ⟨some (name, type), body⟩ => do
    let v ← newSlot type false
    let (_, code, names) ← inBlock (do LowerM.bind name v; exprs context body)
    return ⟨some v, code, names⟩
  | ⟨none, body⟩ => do
    let (_, code, names) ← inBlock (exprs context body)
    return ⟨none, code, names⟩

def blocks (context : LowerContext) : List BranchArm → LowerM (List LoweredArm)
  | [] => pure []
  | b :: rest => do
    let lowered ← block context b
    return lowered :: (← blocks context rest)

theorem blocks_cons_eq_ok_iff {b : BranchArm} {rest : List BranchArm} {bs : List LoweredArm} :
    blocks context (b :: rest) s = .ok bs s' ↔
      ∃ lowered s₁ others, block context b s = .ok lowered s₁ ∧
        blocks context rest s₁ = .ok others s' ∧ lowered :: others = bs := by
  rw [blocks]
  simp only [Outcome.bind_eq_ok_iff, pure_eq_ok_iff]
  constructor
  · rintro ⟨lowered, s₁, hb, others, s₂, hrest, rfl, rfl⟩
    exact ⟨lowered, s₁, others, hb, hrest, rfl⟩
  · rintro ⟨lowered, s₁, others, hb, hrest, rfl⟩
    exact ⟨lowered, s₁, hb, others, s', hrest, rfl, rfl⟩

theorem blocks_append_eq_ok_iff {bs rest : List BranchArm} {lowered : List LoweredArm} :
    blocks context (bs ++ rest) s = .ok lowered s' ↔
      ∃ as s₁ as', blocks context bs s = .ok as s₁ ∧ blocks context rest s₁ = .ok as' s' ∧
        as ++ as' = lowered := by
  induction bs generalizing s lowered with
  | nil =>
    constructor
    · exact fun h => ⟨[], s, lowered, rfl, h, rfl⟩
    · rintro ⟨as, s₁, as', h, hrest, rfl⟩
      obtain ⟨rfl, rfl⟩ := pure_eq_ok_iff.1 h
      exact hrest
  | cons b bs ih =>
    simp only [List.cons_append, blocks_cons_eq_ok_iff, ih]
    constructor
    · rintro ⟨a, s₁, _, ha, ⟨as, s₂, as', has, has', rfl⟩, rfl⟩
      exact ⟨a :: as, s₂, as', ⟨a, s₁, as, ha, has, rfl⟩, has', rfl⟩
    · rintro ⟨_, s₂, as', ⟨a, s₁, as, ha, has, rfl⟩, has', rfl⟩
      exact ⟨a, s₁, as ++ as', ha, ⟨as, s₂, as', has, has', rfl⟩, rfl⟩

theorem block_none_eq_ok_iff {body : List (Expr TypeVar)} {b : LoweredArm} :
    block context ⟨none, body⟩ s = .ok b s' ↔
      ∃ u, inBlock (exprs context body) s = .ok (u, b.code, b.names) s' ∧ b.binding = none := by
  obtain ⟨binding, code, names⟩ := b
  unfold block
  simp only [Outcome.bind_eq_ok_iff, pure_eq_ok_iff]
  constructor
  · rintro ⟨⟨u, _, _⟩, s₁, h, heq, rfl⟩
    cases heq
    exact ⟨u, h, rfl⟩
  · rintro ⟨u, h, rfl⟩
    exact ⟨_, s', h, rfl, rfl⟩

theorem length_blocks {bs : List BranchArm} {lowered : List LoweredArm}
    (h : blocks context bs s = .ok lowered s') : lowered.length = bs.length := by
  induction bs generalizing s lowered with
  | nil =>
    obtain ⟨rfl, -⟩ := pure_eq_ok_iff.1 h
    rfl
  | cons b bs ih =>
    obtain ⟨a, s₁, as, -, has, rfl⟩ := blocks_cons_eq_ok_iff.1 h
    rw [List.length_cons, ih has, List.length_cons]

/-! ### Branches are lowered by blocks -/

theorem valueArms_eq_ok {arms : List (Expr TypeVar × List (Expr TypeVar))}
    {bodies : List (List Instr × Row Version)} (h : valueArms context arms s = .ok bodies s') :
    ∃ bs, blocks context (valueBranchArms arms) s = .ok bs s' ∧
      bodies = bs.map (fun b => (b.code, b.names)) ∧ ∀ b ∈ bs, b.binding = none := by
  induction arms generalizing s bodies with
  | nil =>
    obtain ⟨rfl, rfl⟩ := pure_eq_ok_iff.1 h
    exact ⟨[], rfl, rfl, nofun⟩
  | cons arm arms ih =>
    obtain ⟨⟨u, code, names⟩, s₁, hblock, h⟩ := Outcome.bind_eq_ok_iff.1 h
    obtain ⟨rest, s₂, hrest, h⟩ := Outcome.bind_eq_ok_iff.1 h
    obtain ⟨rfl, rfl⟩ := pure_eq_ok_iff.1 h
    obtain ⟨bs, hbs, rfl, hnone⟩ := ih hrest
    have hb : block context ⟨none, arm.2⟩ s = .ok ⟨none, code, names⟩ s₁ :=
      block_none_eq_ok_iff.2 ⟨u, hblock, rfl⟩
    refine ⟨_, blocks_cons_eq_ok_iff.2 ⟨_, s₁, bs, hb, hbs, rfl⟩, rfl, fun b hmem => ?_⟩
    rcases List.mem_cons.1 hmem with rfl | hmem
    · rfl
    · exact hnone b hmem

/-- An arm of a branch on variants from the arm written and the block lowered. -/
def codeArm (arm : VariantArm TypeVar (List (Expr TypeVar))) (b : LoweredArm) :
    CodeArm (List Instr) :=
  ⟨arm.variant, b.binding, b.code⟩

theorem variantArms_eq_ok {arms : List (VariantArm TypeVar (List (Expr TypeVar)))}
    {bodies : List (CodeArm (List Instr) × Row Version)}
    (h : variantArms context arms s = .ok bodies s') :
    ∃ bs, blocks context (variantBranchArms arms) s = .ok bs s' ∧
      bodies.map (·.1) = List.zipWith codeArm arms bs ∧
      bodies.map (·.2) = bs.map LoweredArm.names := by
  induction arms generalizing s bodies with
  | nil =>
    obtain ⟨rfl, rfl⟩ := pure_eq_ok_iff.1 h
    exact ⟨[], rfl, rfl, rfl⟩
  | cons arm arms ih =>
    obtain ⟨variant, binding, payload, body⟩ := arm
    cases binding with
    | some name =>
      obtain ⟨v, s₀, hnew, h⟩ := Outcome.bind_eq_ok_iff.1 h
      obtain ⟨⟨u, code, names⟩, s₁, hblock, h⟩ := Outcome.bind_eq_ok_iff.1 h
      obtain ⟨rest, s₂, hrest, h⟩ := Outcome.bind_eq_ok_iff.1 h
      obtain ⟨rfl, rfl⟩ := pure_eq_ok_iff.1 h
      obtain ⟨bs, hbs, hcode, hnames⟩ := ih hrest
      have hb : block context ⟨some (name, payload), body⟩ s = .ok ⟨some v, code, names⟩ s₁ :=
        Outcome.bind_eq_ok_iff.2 ⟨v, s₀, hnew, Outcome.bind_eq_ok_iff.2
          ⟨_, s₁, hblock, rfl⟩⟩
      exact ⟨_, blocks_cons_eq_ok_iff.2 ⟨_, s₁, bs, hb, hbs, rfl⟩, congrArg (_ :: ·) hcode,
        congrArg (_ :: ·) hnames⟩
    | none =>
      obtain ⟨⟨u, code, names⟩, s₁, hblock, h⟩ := Outcome.bind_eq_ok_iff.1 h
      obtain ⟨rest, s₂, hrest, h⟩ := Outcome.bind_eq_ok_iff.1 h
      obtain ⟨rfl, rfl⟩ := pure_eq_ok_iff.1 h
      obtain ⟨bs, hbs, hcode, hnames⟩ := ih hrest
      have hb : block context ⟨none, body⟩ s = .ok ⟨none, code, names⟩ s₁ :=
        block_none_eq_ok_iff.2 ⟨u, hblock, rfl⟩
      exact ⟨_, blocks_cons_eq_ok_iff.2 ⟨_, s₁, bs, hb, hbs, rfl⟩, congrArg (_ :: ·) hcode,
        congrArg (_ :: ·) hnames⟩

end LowerM
end Monomorph
