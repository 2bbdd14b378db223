import Monomorph.Proofs.Code.Slots

/-! # Lowering the parts of expressions

The parts of expressions that are lowered alike wherever they occur: declarations, assignments, captured
locals, constants, the branches of `and` and `or` and of an unwrapped variant. -/

namespace Monomorph.LowerM

open Outcome

variable {s s' : Lowering} {v : Version}

/-! ### Locals -/

theorem get_lowers : LowersBlock .none (get : LowerM Lowering) := by
  intro s a s' hs h
  obtain ⟨-, rfl⟩ := get_eq_ok_iff.1 h
  exact ⟨⟨[], by simp, .refl hs⟩, fun _ h => (nomatch h)⟩

theorem own_lowers (type : TypeVar) (value : Version) : LowersBlock .none (own type value) := by
  refine get_lowers.none_bind fun s => ?_
  dsimp only
  split
  · exact (emitInto_lowers ..).block
  · exact .pure_none _ rfl

theorem define_lowers {fp : Footprint} {value : LowerM Version} (type : TypeVar) (name : String)
    (hvalue : LowersValue fp value) :
    LowersExpr (fp.seq (.declare name)) (do
      let v ← value
      LowerM.bind name (← own type v)
      return none) := by
  intro s r s' hs h
  obtain ⟨v, s₁, hv, h⟩ := Outcome.bind_eq_ok_iff.1 h
  obtain ⟨w, s₂, hown, h⟩ := Outcome.bind_eq_ok_iff.1 h
  obtain ⟨⟨⟩, s₃, hbind, h⟩ := Outcome.bind_eq_ok_iff.1 h
  obtain ⟨rfl, rfl⟩ := pure_eq_ok_iff.1 h
  obtain ⟨hlowers, hgives⟩ := hvalue hs hv
  obtain ⟨hcopy, howned, hbase, hfree⟩ :=
    own_spec hlowers.separate hlowers.size_le (hgives v rfl) hown
  have hboth : Lowers fp s s₂ := by simpa using hlowers.trans hcopy
  obtain ⟨code, hcode, hstep⟩ := hboth
  rw [← bind_eq_ok_iff.1 hbind]
  exact ⟨⟨code, hcode, hstep.bind howned hbase hfree⟩, fun _ h => (nomatch h)⟩

theorem step_bindNew (hs : s.Separate) {slot : Slot} {code : List Instr} (name : String)
    (hversions : slot.versions = 1) (hcount : branchCount code = 0)
    (hdefines : ∀ v ∈ definedIn code, v = ⟨s.slots.size, 0⟩) :
    Step (.declare name) s code
      { s with
        slots := s.slots.push slot
        names := s.names.insert name ⟨s.slots.size, 0⟩ } := by
  have howned : ({ s with slots := s.slots.push slot } : Lowering).Owns ⟨s.slots.size, 0⟩ :=
    (Lowering.owns_push rfl).2 (.inr ⟨rfl, hversions ▸ Nat.one_pos⟩)
  have hstep : Step .none s code { s with slots := s.slots.push slot } := by
    refine .of_names_eq hs rfl (by simp) (fun h => (Lowering.owns_push rfl).2 (.inl h)) ⟨[], by simp⟩
      rfl (by rw [hcount]; rfl) fun v hv => ?_
    obtain rfl := hdefines v hv
    exact ⟨fun h => Nat.lt_irrefl _ h.lt_size, howned, .inl (Nat.le_refl _)⟩
  rw [← Footprint.none_seq (.declare name)]
  exact hstep.bind howned (Nat.le_refl _) fun {n v} h heq => Nat.ne_of_lt (hs.owned h).lt_size heq

theorem declare_lowers (type : TypeVar) (name : String) :
    LowersExpr (.declare name) (do
      LowerM.bind name (← newSlot type false)
      return none) := by
  intro s r s' hs h
  obtain ⟨w, s₁, hnew, h⟩ := Outcome.bind_eq_ok_iff.1 h
  obtain ⟨⟨⟩, s₂, hbind, h⟩ := Outcome.bind_eq_ok_iff.1 h
  obtain ⟨rfl, rfl⟩ := pure_eq_ok_iff.1 h
  obtain ⟨rfl, rfl⟩ := newSlot_eq_ok_iff.1 hnew
  rw [← bind_eq_ok_iff.1 hbind]
  exact ⟨⟨[], by simp, step_bindNew hs name rfl rfl fun _ h => (nomatch h)⟩,
    fun _ h => (nomatch h)⟩

/-- Assigning a value to a name: the next version of the name's slot, if the name is visible. -/
theorem assign_lowers (name : String) (v : Version) :
    LowersExpr (.assign name) (do
      match ← LowerState.find name with
      | some current => do
        let next ← nextVersion current
        emit (.op .copy [v] (some next))
        LowerM.bind name next
      | none => emit (.op (.writeCapture name) [v] none)
      return none) := by
  intro s r s' hs h
  obtain ⟨current?, s₁, hlookup, h⟩ := Outcome.bind_eq_ok_iff.1 h
  obtain ⟨hcurrent, rfl⟩ := find_eq_ok_iff.1 hlookup
  refine ⟨?_, ?_⟩
  · cases current? with
    | some current =>
      obtain ⟨next, s₂, hnext, h⟩ := Outcome.bind_eq_ok_iff.1 h
      obtain ⟨⟨⟩, s₃, hemit, h⟩ := Outcome.bind_eq_ok_iff.1 h
      obtain ⟨⟨⟩, s₄, hbind, h⟩ := Outcome.bind_eq_ok_iff.1 h
      obtain ⟨rfl, rfl⟩ := pure_eq_ok_iff.1 h
      obtain ⟨rfl, rfl⟩ := nextVersion_eq_ok_iff.1 hnext
      obtain rfl := emit_eq_ok_iff.1 hemit
      obtain rfl := bind_eq_ok_iff.1 hbind
      obtain ⟨slot, hslot, -⟩ := hs.owned hcurrent
      refine ⟨_, Array.toList_push, ?_⟩
      exact .assign hs hcurrent hslot (by rw [hslot]; rfl) rfl rfl rfl
    | none =>
      obtain ⟨⟨⟩, s₂, hemit, h⟩ := Outcome.bind_eq_ok_iff.1 h
      obtain ⟨rfl, rfl⟩ := pure_eq_ok_iff.1 h
      obtain rfl := emit_eq_ok_iff.1 hemit
      exact lowers_emit hs rfl rfl rfl
  · cases current? with
    | some current =>
      obtain ⟨next, s₂, hnext, h⟩ := Outcome.bind_eq_ok_iff.1 h
      obtain ⟨⟨⟩, s₃, hemit, h⟩ := Outcome.bind_eq_ok_iff.1 h
      obtain ⟨⟨⟩, s₄, hbind, h⟩ := Outcome.bind_eq_ok_iff.1 h
      obtain ⟨rfl, -⟩ := pure_eq_ok_iff.1 h
      exact fun _ h => (nomatch h)
    | none =>
      obtain ⟨⟨⟩, s₂, hemit, h⟩ := Outcome.bind_eq_ok_iff.1 h
      obtain ⟨rfl, -⟩ := pure_eq_ok_iff.1 h
      exact fun _ h => (nomatch h)

theorem localVar_lowers (type : TypeVar) (name : String) :
    LowersExpr .none (do
      match ← LowerState.find name with
      | some v => return some v
      | none => return some (← emitInto type (.readCapture name) [])) := by
  intro s r s' hs h
  obtain ⟨v?, s₁, hlookup, h⟩ := Outcome.bind_eq_ok_iff.1 h
  obtain ⟨hv, rfl⟩ := find_eq_ok_iff.1 hlookup
  cases v? with
  | some v =>
    obtain ⟨rfl, rfl⟩ := pure_eq_ok_iff.1 h
    refine ⟨⟨[], by simp, .refl hs⟩, ?_⟩
    rintro _ ⟨⟩
    exact ⟨hs.owned hv, .inr ⟨name, hv⟩⟩
  | none => exact emitInto_some_lowers type (.readCapture name) [] hs h

theorem emit_lowers {i : Instr} {fp : Footprint} (hdefines : i.defines = [])
    (hdeclares : fp.declares = []) (hbranches : fp.branches.length = branchCount [i]) :
    LowersBlock fp (emit i) := by
  intro s u s' hs h
  obtain rfl := emit_eq_ok_iff.1 h
  exact ⟨lowers_emit hs hdefines hdeclares hbranches, fun _ h => (nomatch h)⟩

theorem markCaptured_lowers (v : Version) : LowersBlock .none (markCaptured v) := by
  intro s u s' hs h
  obtain rfl := modify_eq_ok_iff.1 h
  refine ⟨⟨[], by simp, .of_names_eq hs rfl (by simp) (Lowering.owns_mark rfl).2 ⟨[], by simp⟩ rfl rfl
    fun _ h => (nomatch h)⟩, fun _ h => (nomatch h)⟩

theorem captureAll_lowers (captures : List (String × TypeVar)) :
    LowersBlock .none (captureAll captures) := by
  induction captures with
  | nil => exact .pure_none _ rfl
  | cons capture captures ih =>
    obtain ⟨name, type⟩ := capture
    have hone : LowersBlock .none (LowerState.find name) := by
      intro s v? s' hs h
      obtain ⟨-, rfl⟩ := find_eq_ok_iff.1 h
      exact ⟨⟨[], by simp, .refl hs⟩, fun _ h => (nomatch h)⟩
    have hcapture (v? : Option Version) : LowersBlock .none (do
        let v ←
          match v? with
          | some v => do markCaptured v; pure v
          | none => emitInto type (.readCapture name) []
        return (name, v) :: (← captureAll captures)) := by
      have hrest (v : Version) :
          LowersBlock .none (do return (name, v) :: (← captureAll captures)) :=
        ih.bind_pure fun _ => rfl
      cases v? with
      | some v => exact (markCaptured_lowers v).none_bind fun _ => hrest v
      | none => exact (emitInto_lowers type (.readCapture name) []).none_bind hrest
    exact hone.none_bind hcapture

/-! ### Constants -/

theorem addConstant_lowers (c : Constant) : LowersBlock .none (addConstant c) := by
  intro s id s' hs h
  obtain ⟨-, rfl⟩ := addConstant_eq_ok_iff.1 h
  exact ⟨lowers_constants hs (constants_add _ _), fun _ h => (nomatch h)⟩

theorem evaluateConstant_lowers (context : LowerContext) (e : Expr TypeVar) :
    LowersBlock .none (evaluateConstant context e) := by
  unfold evaluateConstant
  cases context.evaluate e with
  | ok c => exact addConstant_lowers c
  | error e => exact .throw e

theorem loadGlobal_lowers (context : LowerContext) (type : TypeVar) (path : Path) (variant : Nat)
    (span : Span) : LowersValue .none (loadGlobal context type path variant span) := by
  unfold loadGlobal
  split
  · exact .throw _
  · split
    · have hnote (id : Nat) : LowersBlock .none (modify fun s : Lowering =>
          { s with hoisted := ((path, variant), id) :: s.hoisted }) := by
        intro s a s' hs h
        obtain rfl := modify_eq_ok_iff.1 h
        exact ⟨lowers_constants hs ⟨[], by simp⟩, by simp⟩
      refine get_lowers.none_bind fun a => ?_
      split
      · exact emitInto_lowers ..
      · exact (evaluateConstant_lowers context _).none_bind fun id =>
          (hnote id).none_bind fun _ => emitInto_lowers type (.loadConstant id) []
    · exact emitInto_lowers ..

/-! ### Branches inside expressions -/

/-- The state in which the right operand of `and` or `or` is lowered, after the left one. -/
def operandStart (type : TypeVar) (stop : Bool) (s : Lowering) : Lowering where
  constants := (s.constants.add (.boolean stop)).2
  hoisted := s.hoisted
  slots := s.slots.push ⟨type, false, false, 1⟩
  code := #[]
  names := s.names

/-- The code of `and` or `or` after the left operand. -/
def operandCode (stopId : Nat) (left right result fromLeft merged : Version)
    (rightCode : List Instr) : List Instr :=
  [.branchValue left [(stopId, [.op .copy [left] (some fromLeft)])]
      (rightCode ++ [.op .copy [right] (some result)]),
    .op .phi [fromLeft, result] (some merged)]

theorem operandStart_separate (hs : s.Separate) (type : TypeVar) (stop : Bool) :
    (operandStart type stop s).Separate :=
  hs.of_names_eq rfl fun h => (Lowering.owns_push rfl).2 (.inl h)

/-- What `and` and `or` are lowered to: the result has a slot, version `0` of which is what the right
operand gives. -/
theorem shortCircuit_eq_ok {type : TypeVar} {stop : Bool} {left right : LowerM Version}
    (hright : ∃ fp, LowersValue fp right) (hleft : ∃ fp, LowersBlock fp left) (hs : s.Separate)
    (h : shortCircuit type stop left right s = .ok v s') :
    ∃ l s₁ r s₂ n, left s = .ok l s₁ ∧ right (operandStart type stop s₁) = .ok r s₂ ∧
      0 < n ∧ v = ⟨s₁.slots.size, n + 1⟩ ∧
      s'.code.toList = s₁.code.toList ++
        operandCode (s₁.constants.add (.boolean stop)).1 l r ⟨s₁.slots.size, 0⟩
          ⟨s₁.slots.size, n⟩ v s₂.code.toList ∧
      s'.names = s₁.names ∧ s'.constants = s₂.constants ∧ s'.slots.size = s₂.slots.size ∧
      (∀ w, s'.Owns w ↔ s₂.Owns w ∨ w = ⟨s₁.slots.size, n⟩ ∨ w = v) ∧
      ¬s₂.Owns ⟨s₁.slots.size, n⟩ ∧ ¬s₂.Owns v := by
  unfold shortCircuit at h
  obtain ⟨l, s₁, hl, h⟩ := Outcome.bind_eq_ok_iff.1 h
  obtain ⟨result, s₁', hnew, h⟩ := Outcome.bind_eq_ok_iff.1 h
  obtain ⟨id, s₁'', hadd, h⟩ := Outcome.bind_eq_ok_iff.1 h
  obtain ⟨⟨r, code, names⟩, s₃, hblock, h⟩ := Outcome.bind_eq_ok_iff.1 h
  obtain ⟨fromLeft, s₄, hnext, h⟩ := Outcome.bind_eq_ok_iff.1 h
  obtain ⟨⟨⟩, s₅, hemit, h⟩ := Outcome.bind_eq_ok_iff.1 h
  obtain ⟨merged, s₆, hnext', h⟩ := Outcome.bind_eq_ok_iff.1 h
  obtain ⟨⟨⟩, s₇, hemit', h⟩ := Outcome.bind_eq_ok_iff.1 h
  obtain ⟨rfl, rfl⟩ := pure_eq_ok_iff.1 h
  obtain ⟨rfl, rfl⟩ := newSlot_eq_ok_iff.1 hnew
  obtain ⟨rfl, rfl⟩ := addConstant_eq_ok_iff.1 hadd
  obtain ⟨s₂, hr, rfl, rfl, rfl⟩ := inBlock_eq_ok_iff.1 hblock
  obtain ⟨rfl, rfl⟩ := nextVersion_eq_ok_iff.1 hnext
  obtain rfl := emit_eq_ok_iff.1 hemit
  obtain ⟨rfl, rfl⟩ := nextVersion_eq_ok_iff.1 hnext'
  obtain rfl := emit_eq_ok_iff.1 hemit'
  have hs₁ : s₁.Separate := (hleft.choose_spec hs hl).1.separate
  obtain ⟨slot, hslot, hpos⟩ : s₂.Owns ⟨s₁.slots.size, 0⟩ :=
    (hright.choose_spec (operandStart_separate hs₁ type stop) hr).1.owns
      ((Lowering.owns_push rfl).2 (.inr ⟨rfl, Nat.one_pos⟩))
  have hslot' : (s₂.slots.modify s₁.slots.size fun slot =>
      { slot with versions := slot.versions + 1 })[s₁.slots.size]? =
        some { slot with versions := slot.versions + 1 } := by
    rw [Array.getElem?_modify, if_pos rfl, hslot]
    rfl
  have hfresh {n : Nat} (hn : slot.versions ≤ n) : ¬s₂.Owns ⟨s₁.slots.size, n⟩ := by
    rintro ⟨slot', heq, hlt⟩
    cases hslot.symm.trans heq
    exact Nat.not_lt.2 hn hlt
  refine ⟨l, s₁, r, s₂, slot.versions, hl, hr, hpos, ?_, ?_, rfl, rfl, by simp, fun w => ?_,
    hfresh (Nat.le_refl _), ?_⟩
  · simp [hslot']
  · simp [hslot, operandCode]
  · rw [Lowering.owns_next hslot' rfl, Lowering.owns_next hslot rfl, or_assoc]
    simp [hslot']
  · simp only [hslot', Option.map_some, Option.getD_some]
    exact hfresh (Nat.le_succ _)

theorem shortCircuit_lowers {fl fr : Footprint} {left right : LowerM Version} (type : TypeVar)
    (stop : Bool) (hleft : LowersBlock fl left) (hright : LowersValue fr right) :
    LowersValue (fl.seq fr.operand) (shortCircuit type stop left right) := by
  intro s v s' hs h
  obtain ⟨l, s₁, r, s₂, n, hl, hr, hpos, hv, hcode, hnames, hconstants, hsize, howns, hfresh, hfresh'⟩ :=
    shortCircuit_eq_ok ⟨fr, hright⟩ ⟨fl, hleft⟩ hs h
  obtain ⟨hlowers, -⟩ := hleft hs hl
  have hs₁ := hlowers.separate
  obtain ⟨⟨rightCode, hrightCode, hstep⟩, -⟩ := hright (operandStart_separate hs₁ type stop) hr
  have hrightCode : s₂.code.toList = rightCode := hrightCode
  have hstart {w : Version} : s₁.Owns w → (operandStart type stop s₁).Owns w :=
    fun h => (Lowering.owns_push rfl).2 (.inl h)
  have hstartSize : (operandStart type stop s₁).slots.size = s₁.slots.size + 1 := Array.size_push _
  have hmono {w : Version} (h : s₁.Owns w) : s₂.Owns w := hstep.owns (hstart h)
  have hslot {w : Version} (h : s₁.Owns w) : w.slot ≠ s₁.slots.size := Nat.ne_of_lt h.lt_size
  refine ⟨hlowers.trans ⟨_, hcode, ?_⟩, ?_⟩
  · refine .of_names_eq hs₁ hnames ?_ (fun h => (howns _).2 (.inl (hmono h))) ?_ rfl rfl ?_
    · have := hstep.size_le
      omega
    · obtain ⟨more, hmore⟩ := hstep.constants
      obtain ⟨more', hmore'⟩ := constants_add s₁.constants (.boolean stop)
      refine ⟨more' ++ more, ?_⟩
      rw [hconstants, hmore, ← List.append_assoc, ← hmore']
      rfl
    · intro w hw
      have hcases : w = ⟨s₁.slots.size, n⟩ ∨ w ∈ definedIn rightCode ∨ w = ⟨s₁.slots.size, 0⟩ ∨
          w = v := by
        simpa [operandCode, definedIn, Instr.defines, definedInValueArms, mem_definedIn_append,
          hrightCode, or_assoc] using hw
      rcases hcases with rfl | hw | rfl | rfl
      · exact ⟨fun h => hslot h rfl, (howns _).2 (.inr (.inl rfl)), .inl (Nat.le_refl _)⟩
      · obtain ⟨hnot, howned, hplace⟩ := hstep.defines hw
        refine ⟨fun h => hnot (hstart h), (howns _).2 (.inl howned), ?_⟩
        rcases hplace with hle | ⟨m, hm, w', hw', heq⟩
        · exact .inl (by omega)
        · exact .inr ⟨m, hm, hm, w', hw', heq⟩
      · refine ⟨fun h => hslot h rfl, (howns _).2 (.inl (hstep.owns ?_)), .inl (Nat.le_refl _)⟩
        exact (Lowering.owns_push rfl).2 (.inr ⟨rfl, Nat.one_pos⟩)
      · refine ⟨fun h => hslot h (by rw [hv]), (howns _).2 (.inr (.inr rfl)), .inl ?_⟩
        exact Nat.le_of_eq (congrArg Version.slot hv).symm
  · rintro _ ⟨⟩
    refine ⟨(howns _).2 (.inr (.inr rfl)), .inl ?_⟩
    rw [hv]
    exact hlowers.size_le

theorem unwrapVariant_eq_ok_iff {type : TypeVar} {value : Version} {name : String} :
    unwrapVariant type value name s = .ok v s' ↔
      ⟨s.slots.size, 0⟩ = v ∧
        { s with
          slots := s.slots.push ⟨type, false, false, 1⟩
          code := s.code.push (.branchVariant value [⟨name, some ⟨s.slots.size, 0⟩, []⟩]
            [.op .giveBack [value] none]) } = s' := by
  unfold unwrapVariant
  simp only [Outcome.bind_eq_ok_iff, newSlot_eq_ok_iff, emit_eq_ok_iff, pure_eq_ok_iff]
  constructor
  · rintro ⟨_, _, ⟨rfl, rfl⟩, _, _, rfl, rfl, rfl⟩
    exact ⟨rfl, rfl⟩
  · rintro ⟨rfl, rfl⟩
    exact ⟨_, _, ⟨rfl, rfl⟩, (), _, rfl, rfl, rfl⟩

theorem unwrapVariant_lowers (type : TypeVar) (value : Version) (name : String) :
    LowersValue .unwrap (unwrapVariant type value name) := by
  intro s v s' hs h
  obtain ⟨rfl, rfl⟩ := unwrapVariant_eq_ok_iff.1 h
  have howned : ({ s with slots := s.slots.push ⟨type, false, false, 1⟩ } : Lowering).Owns
      ⟨s.slots.size, 0⟩ :=
    (Lowering.owns_push rfl).2 (.inr ⟨rfl, Nat.one_pos⟩)
  refine ⟨⟨_, Array.toList_push, .of_names_eq hs rfl (by simp)
    (fun h => (Lowering.owns_push rfl).2 (.inl h)) ⟨[], by simp⟩ rfl rfl fun w hw => ?_⟩, ?_⟩
  · obtain rfl : w = ⟨s.slots.size, 0⟩ := by
      simpa [definedIn, Instr.defines, definedInVariantArms] using hw
    exact ⟨fun h => Nat.lt_irrefl _ h.lt_size, howned, .inl (Nat.le_refl _)⟩
  · rintro _ ⟨⟩
    exact ⟨howned, .inl (Nat.le_refl _)⟩

end Monomorph.LowerM
