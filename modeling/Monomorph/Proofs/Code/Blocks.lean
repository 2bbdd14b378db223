import Monomorph.Proofs.Code.Branches

/-! # The arms of a branch as one step

Every kind of branch is lowered in the same way (`Branched`, `LowerM.branch_eq_ok`). If the bodies of its
arms are lowered by steps, the arms are lowered apart from each other (`LowerM.blocks_leads`) and the
branch is a step itself (`Branched.spec`). -/

namespace Monomorph

open Outcome

/-- A step inside a block does not depend on the code around. -/
theorem Step.of_block {fp : Footprint} {s s' : Lowering} {code : List Instr} {around : Array Instr}
    (h : Step fp { s with code := around } code s') : Step fp s code s' :=
  ⟨h.separate, h.size_le, h.owns, h.constants, h.declared, h.unbound, h.kept, h.defines, h.branches,
    h.updates⟩

/-- Arms lowered from the state `s` to the state `s₁` come first among the arms of a branch. -/
structure Leads (s s₁ : Lowering) (arms : List Arm) : Prop where
  separate : s₁.Separate
  code : s₁.code = s.code
  arms : ∀ {s' rest}, Arms s₁ s' rest → Arms s s' (arms ++ rest)

namespace Leads

variable {s s₁ s₂ : Lowering} {arms arms' : List Arm}

theorem nil (hs : s.Separate) : Leads s s [] := ⟨hs, rfl, id⟩

theorem trans (h : Leads s s₁ arms) (h' : Leads s₁ s₂ arms') : Leads s s₂ (arms ++ arms') :=
  ⟨h'.separate, h'.code.trans h.code, fun hrest => List.append_assoc .. ▸ h.arms (h'.arms hrest)⟩

theorem all (h : Leads s s₁ arms) : Arms s s₁ arms := by
  have hnil : Arms s₁ s₁ [] := .nil rfl rfl ⟨[], by simp⟩
  simpa using h.arms hnil

end Leads

theorem Arms.of_constants {s s₁ : Lowering} {constants : ConstantTable} {arms : List Arm}
    (hmore : ∃ more, constants.values.toList = s.constants.values.toList ++ more)
    (h : Arms { s with constants } s₁ arms) : Arms s s₁ arms where
  names := h.names
  size_le := h.size_le
  owns hv := h.owns hv
  constants := by
    obtain ⟨more, hmore⟩ := hmore
    obtain ⟨more', hmore'⟩ := h.constants
    exact ⟨more ++ more', by rw [hmore', hmore, List.append_assoc]⟩
  each arm harm := (h.each arm harm).mono rfl (Nat.le_refl _) id
  apart := h.apart

/-! ### Blocks -/

namespace LowerM

variable {context : LowerContext} {s s₁ s' : Lowering}

/-- The state in which the body of an arm is lowered: that before the arm with the payload bound, if the
arm binds one. -/
def blockStart (s : Lowering) : Option (String × TypeVar) → Lowering
  | some (name, type) =>
    { s with
      slots := s.slots.push ⟨type, false, false, 1⟩
      code := #[]
      names := s.names.insert name ⟨s.slots.size, 0⟩ }
  | none => { s with code := #[] }

theorem blockStart_code (s : Lowering) (binding : Option (String × TypeVar)) :
    (blockStart s binding).code = #[] := by
  cases binding <;> rfl

theorem block_eq_ok {arm : BranchArm} {lowered : LoweredArm}
    (h : block context arm s = .ok lowered s') :
    ∃ s₁, exprs context arm.body (blockStart s arm.binding) = .ok () s₁ ∧
      s₁.code.toList = lowered.code ∧ s₁.names = lowered.names ∧
      lowered.binding = arm.binding.map (fun _ => ⟨s.slots.size, 0⟩) ∧
      { s₁ with code := s.code, names := s.names } = s' := by
  obtain ⟨binding, body⟩ := arm
  cases binding with
  | some bound =>
    obtain ⟨v, s₀, hnew, h⟩ := Outcome.bind_eq_ok_iff.1 h
    obtain ⟨⟨u, code, names⟩, s₂, hblock, h⟩ := Outcome.bind_eq_ok_iff.1 h
    obtain ⟨rfl, rfl⟩ := pure_eq_ok_iff.1 h
    obtain ⟨rfl, rfl⟩ := newSlot_eq_ok_iff.1 hnew
    obtain ⟨s₁, hinside, rfl, rfl, rfl⟩ := inBlock_eq_ok_iff.1 hblock
    obtain ⟨⟨⟩, s₃, hbind, hbody⟩ := Outcome.bind_eq_ok_iff.1 hinside
    obtain rfl := bind_eq_ok_iff.1 hbind
    exact ⟨s₁, hbody, rfl, rfl, rfl, rfl⟩
  | none =>
    obtain ⟨u, hblock, hbinding⟩ := block_none_eq_ok_iff.1 h
    obtain ⟨s₁, hbody, hcode, hnames, rfl⟩ := inBlock_eq_ok_iff.1 hblock
    exact ⟨s₁, hbody, hcode, hnames, hbinding, rfl⟩

theorem blockStart_separate (hs : s.Separate) (binding : Option (String × TypeVar)) :
    (blockStart s binding).Separate := by
  cases binding with
  | some bound =>
    have hstep := @step_bindNew s hs ⟨bound.2, false, false, 1⟩ [] bound.1 rfl rfl
      fun _ h => (nomatch h)
    exact hstep.separate.of_names_eq rfl id
  | none => exact hs.of_names_eq rfl id

theorem block_step {arm : BranchArm}
    (hbody : LowersBlock (Expr.footprints arm.body) (exprs context arm.body)) (hs : s.Separate)
    {lowered : LoweredArm} (h : block context arm s = .ok lowered s') :
    ∃ s₁, s₁.names = lowered.names ∧ { s₁ with code := s.code, names := s.names } = s' ∧
      Step arm.footprint s (payloadCode lowered.binding ++ lowered.code) s₁ := by
  obtain ⟨s₁, hexprs, hcode, hnames, hbinding, rfl⟩ := block_eq_ok h
  obtain ⟨⟨code, hcode', hstep⟩, -⟩ := hbody (blockStart_separate hs arm.binding) hexprs
  refine ⟨s₁, hnames, rfl, ?_⟩
  obtain ⟨binding, body⟩ := arm
  cases binding with
  | some bound =>
    have hcode' : s₁.code.toList = code := hcode'
    have hpayload := @step_bindNew s hs ⟨bound.2, false, false, 1⟩
      (payloadCode (some ⟨s.slots.size, 0⟩)) bound.1 rfl rfl
      fun w hw => by simpa using definedIn_payloadCode.1 hw
    rw [hbinding, ← hcode, hcode']
    exact hpayload.trans hstep.of_block
  | none =>
    have hcode' : s₁.code.toList = code := hcode'
    rw [hbinding, ← hcode, hcode']
    exact hstep.of_block

theorem blocks_leads {arms : List BranchArm}
    (hbodies : ∀ arm ∈ arms, LowersBlock (Expr.footprints arm.body) (exprs context arm.body))
    (hs : s.Separate) {lowered : List LoweredArm} (h : blocks context arms s = .ok lowered s') :
    Leads s s' (List.zipWith LoweredArm.toArm arms lowered) := by
  induction arms generalizing s lowered with
  | nil =>
    obtain ⟨rfl, rfl⟩ := pure_eq_ok_iff.1 h
    exact .nil hs
  | cons arm arms ih =>
    obtain ⟨a, s₂, as, ha, has, rfl⟩ := blocks_cons_eq_ok_iff.1 h
    obtain ⟨s₁, hnames, rfl, hstep⟩ := block_step (hbodies arm List.mem_cons_self) hs ha
    have hs₂ : ({ s₁ with code := s.code, names := s.names } : Lowering).Separate :=
      hs.of_names_eq rfl hstep.owns
    have hfirst : Leads s { s₁ with code := s.code, names := s.names } [a.toArm arm] :=
      ⟨hs₂, rfl, fun hrest => by
        have hcons := Arms.cons hs hstep hrest rfl rfl rfl
        rw [hnames] at hcons
        exact hcons⟩
    exact hfirst.trans (ih (fun arm' harm => hbodies arm' (List.mem_cons_of_mem _ harm)) hs₂ has)

theorem exists_block_of_blocks {arms : List BranchArm}
    (hbodies : ∀ arm ∈ arms, LowersBlock (Expr.footprints arm.body) (exprs context arm.body))
    (hs : s.Separate) {lowered : List LoweredArm} (h : blocks context arms s = .ok lowered s') {k : Nat}
    {arm : BranchArm} (harm : arms[k]? = some arm) :
    ∃ (a : LoweredArm) (t t' : Lowering), lowered[k]? = some a ∧ block context arm t = .ok a t' ∧
      t.Separate ∧ t.names = s.names ∧ (∀ {v}, s.Owns v → t.Owns v) ∧
      (∀ {v}, t'.Owns v → s'.Owns v) ∧
      (∃ more, t.constants.values.toList = s.constants.values.toList ++ more) ∧
      ∃ more, s'.constants.values.toList = t'.constants.values.toList ++ more := by
  induction arms generalizing s lowered k with
  | nil => cases harm
  | cons first arms ih =>
    obtain ⟨a, s₂, as, ha, has, rfl⟩ := blocks_cons_eq_ok_iff.1 h
    obtain ⟨s₁, -, rfl, hstep⟩ := block_step (hbodies first List.mem_cons_self) hs ha
    have hs₂ : ({ s₁ with code := s.code, names := s.names } : Lowering).Separate :=
      hs.of_names_eq rfl hstep.owns
    have hrest := fun arm' harm => hbodies arm' (List.mem_cons_of_mem first harm)
    cases k with
    | zero =>
      cases harm
      have hall := (blocks_leads hrest hs₂ has).all
      exact ⟨a, s, _, rfl, ha, hs, rfl, id, hall.owns, ⟨[], by simp⟩, hall.constants⟩
    | succ k =>
      obtain ⟨b, t, t', hb, hblock, ht, hnames, howns, howns', ⟨more, hmore⟩, hconstants⟩ :=
        ih hrest hs₂ has harm
      obtain ⟨more', hmore'⟩ := hstep.constants
      refine ⟨b, t, t', hb, hblock, ht, hnames, fun hv => howns (hstep.owns hv), howns',
        ⟨more' ++ more, ?_⟩, hconstants⟩
      rw [hmore, ← List.append_assoc, ← hmore']

/-! ### Branches -/

/-- The constants of a match are added to the table before the arms are lowered. -/
theorem evaluateArms_eq_ok {arms : List (Expr TypeVar × List (Expr TypeVar))} {ids : List Nat}
    (h : evaluateArms context arms s = .ok ids s') :
    ids.length = arms.length ∧ ∃ constants, s' = { s with constants } ∧
      ∃ more, constants.values.toList = s.constants.values.toList ++ more := by
  induction arms generalizing s ids with
  | nil =>
    obtain ⟨rfl, rfl⟩ := pure_eq_ok_iff.1 h
    exact ⟨rfl, s.constants, rfl, [], by simp⟩
  | cons arm arms ih =>
    obtain ⟨id, s₁, hid, h⟩ := Outcome.bind_eq_ok_iff.1 h
    obtain ⟨rest, s₂, hrest, h⟩ := Outcome.bind_eq_ok_iff.1 h
    obtain ⟨rfl, rfl⟩ := pure_eq_ok_iff.1 h
    obtain ⟨hlen, constants, rfl, more, hmore⟩ := ih hrest
    unfold evaluateConstant at hid
    cases hc : context.evaluate arm.1 with
    | ok c =>
      rw [hc] at hid
      obtain ⟨-, rfl⟩ := addConstant_eq_ok_iff.1 hid
      obtain ⟨more', hmore'⟩ := constants_add s.constants c
      refine ⟨congrArg (· + 1) hlen, constants, rfl, more' ++ more, ?_⟩
      rw [hmore, hmore', List.append_assoc]
    | error e =>
      rw [hc] at hid
      exact (throw_eq_ok_iff.1 hid).elim

end LowerM

/-- How a branch is lowered from the state `s`: the value looked at goes into the version `v`, which ends
in the state `start`; then come the constants that the arms are chosen by, the arms from there, the
branching instruction `i` and the join. -/
structure Branched (context : LowerContext) (b : Branch) (s : Lowering) (v : Version)
    (start : Lowering) (constants : ConstantTable) (i : Instr) (lowered : List LoweredArm)
    (r : Option Version) (s' : Lowering) : Prop where
  subject : LowerM.asValue b.subject.note (LowerM.expr context b.subject) s = .ok v start
  more_constants : ∃ more, constants.values.toList = start.constants.values.toList ++ more
  arms_eq : i.arms = LoweredArm.codeArms b.isClosed lowered
  arms_ne_nil : i.arms ≠ []
  rest : ∃ s₁, LowerM.blocks context b.arms { start with constants } = .ok lowered s₁ ∧
    (do LowerM.emit i; LowerM.join (lowered.map LoweredArm.names); return none :
      LowerM (Option Version)) s₁ = .ok r s'

namespace LowerM

variable {context : LowerContext} {s s' : Lowering} {r : Option Version} {m : Mark TypeVar}

theorem ifElse_eq_ok {condition : Expr TypeVar} {yes no : List (Expr TypeVar)}
    (h : expr context (.ifElse m condition yes no) s = .ok r s') :
    ∃ v start yes' no', Branched context ⟨condition, false, [⟨none, yes⟩, ⟨none, no⟩]⟩ s v start
      (start.constants.add (.boolean true)).2
      (.branchValue v [((start.constants.add (.boolean true)).1, yes'.code)] no'.code) [yes', no'] r
      s' := by
  obtain ⟨v, start, hv, h⟩ := Outcome.bind_eq_ok_iff.1 h
  obtain ⟨id, s₁, hid, hrest⟩ := Outcome.bind_eq_ok_iff.1 h
  obtain ⟨rfl, rfl⟩ := addConstant_eq_ok_iff.1 hid
  obtain ⟨⟨u, yesCode, yesNames⟩, s₂, hyes, hrest⟩ := Outcome.bind_eq_ok_iff.1 hrest
  obtain ⟨⟨u', noCode, noNames⟩, s₃, hno, hrest⟩ := Outcome.bind_eq_ok_iff.1 hrest
  refine ⟨v, start, ⟨none, yesCode, yesNames⟩, ⟨none, noCode, noNames⟩, hv, constants_add _ _, rfl,
    by simp [Instr.arms], s₃, ?_, hrest⟩
  exact blocks_cons_eq_ok_iff.2 ⟨_, s₂, _, block_none_eq_ok_iff.2 ⟨u, hyes, rfl⟩,
    blocks_cons_eq_ok_iff.2 ⟨_, s₃, _, block_none_eq_ok_iff.2 ⟨u', hno, rfl⟩, rfl, rfl⟩, rfl⟩

theorem blocks_snoc {arms : List BranchArm} {otherwise : List (Expr TypeVar)} {s₁ : Lowering}
    {lowered : List LoweredArm} {u : Unit} {code : List Instr} {names : Row Version}
    (harms : blocks context arms s = .ok lowered s₁)
    (hotherwise : inBlock (exprs context otherwise) s₁ = .ok (u, code, names) s') :
    blocks context (arms ++ [⟨none, otherwise⟩]) s = .ok (lowered ++ [⟨none, code, names⟩]) s' :=
  blocks_append_eq_ok_iff.2 ⟨lowered, s₁, _, harms, blocks_cons_eq_ok_iff.2
    ⟨_, s', [], block_none_eq_ok_iff.2 ⟨u, hotherwise, rfl⟩, rfl, rfl⟩, rfl⟩

theorem matchValue_eq_ok {value : Expr TypeVar} {arms : List (Expr TypeVar × List (Expr TypeVar))}
    {otherwise : List (Expr TypeVar)} (h : expr context (.matchValue m value arms otherwise) s = .ok r s') :
    ∃ v start ids constants bs last,
      evaluateArms context arms start = .ok ids { start with constants } ∧ bs.length = arms.length ∧
      Branched context ⟨value, false, valueBranchArms arms ++ [⟨none, otherwise⟩]⟩ s v start constants
        (.branchValue v (ids.zip (bs.map LoweredArm.code)) last.code) (bs ++ [last]) r s' := by
  obtain ⟨v, start, hv, h⟩ := Outcome.bind_eq_ok_iff.1 h
  obtain ⟨ids, s₁, hids, h⟩ := Outcome.bind_eq_ok_iff.1 h
  obtain ⟨bodies, s₂, hbodies, h⟩ := Outcome.bind_eq_ok_iff.1 h
  obtain ⟨⟨u, code, names⟩, s₃, hotherwise, h⟩ := Outcome.bind_eq_ok_iff.1 h
  obtain ⟨hlen, constants, rfl, hmore⟩ := evaluateArms_eq_ok hids
  obtain ⟨bs, hbs, rfl, hnone⟩ := valueArms_eq_ok hbodies
  have hcount : bs.length = arms.length := (length_blocks hbs).trans (by simp [valueBranchArms])
  refine ⟨v, start, ids, constants, bs, ⟨none, code, names⟩, hids, hcount, hv, hmore, ?_,
    by simp [Instr.arms], s₃, blocks_snoc hbs hotherwise, ?_⟩
  · have hmap : (ids.zip (bs.map LoweredArm.code)).map (fun arm => ((none : Option Version), arm.2)) =
        bs.map fun b => (b.binding, b.code) :=
      calc
        _ = ((ids.zip (bs.map LoweredArm.code)).map Prod.snd).map fun code => (none, code) := by
          rw [List.map_map]
          rfl
        _ = (bs.map LoweredArm.code).map fun code => (none, code) := by
          rw [List.map_snd_zip (by simp [hlen, hcount])]
        _ = bs.map fun b => (b.binding, b.code) := by
          rw [List.map_map]
          exact List.map_congr_left fun b hb => by rw [hnone b hb]; rfl
    rw [Instr.arms, hmap]
    simp [LoweredArm.codeArms]
  · simpa [List.map_map, Function.comp_def] using h

theorem matchVariant_arms_eq {arms : List (VariantArm TypeVar (List (Expr TypeVar)))}
    {bs : List LoweredArm} (hlen : bs.length = arms.length) :
    (List.zipWith codeArm arms bs).map (fun arm => (arm.binding, arm.body)) =
      bs.map fun b => (b.binding, b.code) := by
  induction arms generalizing bs with
  | nil =>
    obtain rfl := List.length_eq_zero_iff.1 hlen
    rfl
  | cons arm arms ih =>
    obtain ⟨b, bs, rfl⟩ := List.exists_cons_of_length_eq_add_one hlen
    exact congrArg (_ :: ·) (ih (Nat.succ.inj hlen))

theorem matchVariant_eq_ok {value : Expr TypeVar}
    {arms : List (VariantArm TypeVar (List (Expr TypeVar)))} {otherwise : List (Expr TypeVar)}
    (h : expr context (.matchVariant m value arms (some otherwise)) s = .ok r s') :
    ∃ v start bs last, bs.length = arms.length ∧
      Branched context ⟨value, false, variantBranchArms arms ++ [⟨none, otherwise⟩]⟩ s v start
        start.constants (.branchVariant v (List.zipWith codeArm arms bs) last.code) (bs ++ [last]) r
        s' := by
  obtain ⟨v, start, hv, h⟩ := Outcome.bind_eq_ok_iff.1 h
  obtain ⟨bodies, s₂, hbodies, h⟩ := Outcome.bind_eq_ok_iff.1 h
  obtain ⟨⟨u, code, names⟩, s₃, hotherwise, h⟩ := Outcome.bind_eq_ok_iff.1 h
  obtain ⟨bs, hbs, hcodes, hnames⟩ := variantArms_eq_ok hbodies
  have hcount : bs.length = arms.length := (length_blocks hbs).trans (by simp [variantBranchArms])
  refine ⟨v, start, bs, ⟨none, code, names⟩, hcount, hv, ⟨[], by simp⟩, ?_, by simp [Instr.arms], s₃,
    blocks_snoc hbs hotherwise, ?_⟩
  · rw [Instr.arms, matchVariant_arms_eq hcount]
    simp [LoweredArm.codeArms]
  · rw [← hcodes, List.map_append, ← hnames]
    exact h

theorem matchListed_eq_ok {value : Expr TypeVar}
    {arms : List (VariantArm TypeVar (List (Expr TypeVar)))}
    (h : expr context (.matchVariant m value arms none) s = .ok r s') :
    ∃ v start bs, bs.length = arms.length ∧
      Branched context ⟨value, true, variantBranchArms arms⟩ s v start start.constants
        (.branchVariant v (List.zipWith codeArm arms bs) []) bs r s' := by
  obtain ⟨v, start, hv, h⟩ := Outcome.bind_eq_ok_iff.1 h
  obtain ⟨bodies, s₂, hbodies, h⟩ := Outcome.bind_eq_ok_iff.1 h
  obtain ⟨bs, hbs, hcodes, hnames⟩ := variantArms_eq_ok hbodies
  have hcount : bs.length = arms.length := (length_blocks hbs).trans (by simp [variantBranchArms])
  refine ⟨v, start, bs, hcount, hv, ⟨[], by simp⟩, ?_, by simp [Instr.arms], s₂, hbs, ?_⟩
  · rw [Instr.arms, matchVariant_arms_eq hcount]
    rfl
  · rw [← hcodes, ← hnames]
    exact h

theorem branch_eq_ok {e : Expr TypeVar} {b : Branch} (hb : e.branch? = some b)
    (h : expr context e s = .ok r s') :
    ∃ v start constants i lowered, Branched context b s v start constants i lowered r s' := by
  cases e with
  | ifElse m condition yes no =>
    cases hb
    obtain ⟨v, start, yes', no', h⟩ := ifElse_eq_ok h
    exact ⟨_, _, _, _, _, h⟩
  | matchValue m value arms otherwise =>
    cases hb
    obtain ⟨v, start, ids, constants, bs, last, -, -, h⟩ := matchValue_eq_ok h
    exact ⟨_, _, _, _, _, h⟩
  | matchVariant m value arms otherwise =>
    cases otherwise with
    | some otherwise =>
      cases hb
      obtain ⟨v, start, bs, last, -, h⟩ := matchVariant_eq_ok h
      exact ⟨_, _, _, _, _, h⟩
    | none =>
      cases hb
      obtain ⟨v, start, bs, -, h⟩ := matchListed_eq_ok h
      exact ⟨_, _, _, _, _, h⟩
  | _ => cases hb

end LowerM

/-! ### A branch as a step -/

namespace LoweredArm

variable {arms : List BranchArm} {lowered : List LoweredArm}

theorem map_names_toArm (hlen : lowered.length = arms.length) :
    (List.zipWith toArm arms lowered).map Arm.names = lowered.map names := by
  induction arms generalizing lowered with
  | nil =>
    obtain rfl := List.length_eq_zero_iff.1 hlen
    rfl
  | cons arm arms ih =>
    obtain ⟨a, lowered, rfl⟩ := List.exists_cons_of_length_eq_add_one hlen
    exact congrArg (_ :: ·) (ih (Nat.succ.inj hlen))

theorem map_footprint_toArm (hlen : lowered.length = arms.length) :
    (List.zipWith toArm arms lowered).map Arm.footprint = arms.map BranchArm.footprint := by
  induction arms generalizing lowered with
  | nil => rfl
  | cons arm arms ih =>
    obtain ⟨a, lowered, rfl⟩ := List.exists_cons_of_length_eq_add_one hlen
    exact congrArg (_ :: ·) (ih (Nat.succ.inj hlen))

theorem getElem?_codeArms {isClosed : Bool} {k : Nat} (hk : k < lowered.length) :
    (codeArms isClosed lowered)[k]? = lowered[k]?.map fun a => (a.binding, a.code) := by
  rw [codeArms, List.getElem?_append_left (by simpa using hk), List.getElem?_map]

end LoweredArm

namespace Branched

open LowerM

variable {context : LowerContext} {b : Branch} {s start s' : Lowering} {v : Version}
  {constants : ConstantTable} {i : Instr} {lowered : List LoweredArm} {r : Option Version}

/-- A version that the instruction defines is defined by one of the arms. -/
theorem exists_arm_of_mem_defines (h : Branched context b s v start constants i lowered r s')
    (hlen : lowered.length = b.arms.length) {w : Version} (hw : w ∈ i.defines) :
    ∃ arm ∈ List.zipWith LoweredArm.toArm b.arms lowered, w ∈ definedIn arm.code := by
  obtain ⟨⟨bound, code⟩, harm, hw⟩ := Monomorph.exists_arm_of_mem_defines h.arms_ne_nil hw
  rw [h.arms_eq] at harm
  rcases List.mem_append.1 harm with harm | harm
  · obtain ⟨a, ha, heq⟩ := List.mem_map.1 harm
    cases heq
    obtain ⟨k, ha⟩ := List.mem_iff_getElem?.1 ha
    have hk : k < b.arms.length := hlen ▸ (List.getElem?_eq_some_iff.1 ha).1
    have hzip : (List.zipWith LoweredArm.toArm b.arms lowered)[k]? = some (a.toArm b.arms[k]) := by
      rw [List.getElem?_zipWith, ha, List.getElem?_eq_getElem hk]
    refine ⟨_, List.mem_of_getElem? hzip, ?_⟩
    exact mem_definedIn_append.2 (hw.imp_left definedIn_payloadCode.2)
  · split at harm
    · cases List.mem_singleton.1 harm
      rcases hw with hw | hw <;> cases hw
    · cases harm

/-- A path through the instruction is one through an arm. -/
theorem exists_arm_of_runs (h : Branched context b s v start constants i lowered r s') {V : Type}
    {undefined : V} {hist hist' : History V}
    (hrun : Runs undefined [i] [.branch ((List.zipWith LoweredArm.toArm b.arms lowered).map
      fun arm => arm.footprint.branches)] hist hist') :
    ∃ arm ∈ List.zipWith LoweredArm.toArm b.arms lowered,
      Runs undefined arm.code arm.footprint.branches hist hist' := by
  obtain ⟨k, bound, code, shapes, x, hcode, hshapes, hrun⟩ := hrun.exists_arm h.arms_ne_nil
  rw [List.getElem?_map, Option.map_eq_some_iff] at hshapes
  obtain ⟨arm, harm, rfl⟩ := hshapes
  refine ⟨arm, List.mem_of_getElem? harm, ?_⟩
  rw [List.getElem?_zipWith_eq_some] at harm
  obtain ⟨block, a, hblock, ha, rfl⟩ := harm
  rw [h.arms_eq, LoweredArm.getElem?_codeArms (List.getElem?_eq_some_iff.1 ha).1, ha] at hcode
  cases hcode
  exact hrun.payload x

theorem spec (h : Branched context b s v start constants i lowered r s') (hs : start.Separate)
    (hbodies : ∀ arm ∈ b.arms, LowersBlock (Expr.footprints arm.body) (exprs context arm.body)) :
    r = none ∧ lowered.length = b.arms.length ∧ ∃ s₁ phis,
      LowerM.blocks context b.arms { start with constants } = .ok lowered s₁ ∧
      (∃ more, s'.constants.values.toList = constants.values.toList ++ more) ∧
      Arms start s₁ (List.zipWith LoweredArm.toArm b.arms lowered) ∧
      Joined ((List.zipWith LoweredArm.toArm b.arms lowered).map Arm.names) start.names.entries
        { s₁ with code := s₁.code.push i } phis s' ∧
      s'.code.toList = start.code.toList ++ i :: phis ∧
      Step (.branch (b.arms.map BranchArm.footprint)) start (i :: phis) s' := by
  obtain ⟨s₁, hblocks, hrest⟩ := h.rest
  obtain ⟨⟨⟩, s₂, hemit, hrest⟩ := Outcome.bind_eq_ok_iff.1 hrest
  obtain ⟨⟨⟩, s₃, hjoin, hrest⟩ := Outcome.bind_eq_ok_iff.1 hrest
  obtain ⟨rfl, rfl⟩ := pure_eq_ok_iff.1 hrest
  obtain rfl := emit_eq_ok_iff.1 hemit
  have hlen := length_blocks hblocks
  have hbegun : ({ start with constants } : Lowering).Separate := hs.of_names_eq rfl id
  have hleads := blocks_leads hbodies hbegun hblocks
  have harms := Arms.of_constants h.more_constants hleads.all
  rw [← LoweredArm.map_names_toArm hlen] at hjoin
  obtain ⟨phis, hjoined⟩ := join_spec hs harms hjoin rfl harms.names
  refine ⟨rfl, hlen, s₁, phis, hblocks, ?_, harms, hjoined, ?_, ?_⟩
  · rw [hjoined.constants]
    exact hleads.all.constants
  · rw [hjoined.code_eq, hleads.code, Array.toList_push, List.append_assoc]
    rfl
  · rw [← LoweredArm.map_footprint_toArm hlen]
    exact .of_arms hs harms hjoined rfl harms.names rfl (branchCount_of_arms h.arms_ne_nil)
      (fun w hw => h.exists_arm_of_mem_defines hlen hw) fun hrun => h.exists_arm_of_runs hrun

end Branched

/-- Every branch is a step, if what it looks at and the bodies of its arms are. -/
theorem LowerM.branch_lowers {context : LowerContext} {e : Expr TypeVar} {b : Branch}
    (hb : e.branch? = some b)
    (hsubject : LowersExpr b.subject.footprint (expr context b.subject))
    (hbodies : ∀ arm ∈ b.arms, LowersBlock (Expr.footprints arm.body) (exprs context arm.body)) :
    LowersExpr e.footprint (expr context e) := by
  intro s r s' hs h
  obtain ⟨v, start, constants, i, lowered, h⟩ := branch_eq_ok hb h
  obtain ⟨hlowers, -⟩ := asValue_lowers b.subject.note hsubject hs h.subject
  obtain ⟨rfl, -, s₁, phis, -, -, -, -, hcode, hstep⟩ := h.spec hlowers.separate hbodies
  rw [Expr.footprint_branch hb]
  exact ⟨hlowers.trans ⟨_, hcode, hstep⟩, fun _ h => (nomatch h)⟩

end Monomorph
