import Monomorph.Proofs.Code.SingleAssignment
import Monomorph.Proofs.Code.TypedParts
import Monomorph.Proofs.Meaning.Procedures

/-! # Steps that assign each version once

Each step of lowering, whatever the state is, defines versions that it makes itself, each once (`Assigns`). The
arms of a branch are lowered one after the other and so define different versions, whichever of them is taken
(`AssignedBlocks`); the merges after them define further ones (`Branched.assigned`). The result of `and` and `or` is
one slot, whose versions are made in another order than they are defined (`LowerM.shortCircuit_assigned`). A body is
in single-assignment form when its expressions assign each version once (`LowerM.inBody_single`). -/

namespace Monomorph

open Outcome

/-- A computation that lowers something of no value. -/
abbrev AssignsBlock {α : Type} (known : Set Version) (x : LowerM α) : Prop := Assigns known (fun _ => ∅) x

/-- A computation that lowers something to a value. -/
abbrev AssignsValue (known : Set Version) (x : LowerM Version) : Prop := Assigns known (fun v => {v}) x

/-- A computation that lowers something that may have no value of its own. -/
abbrev AssignsExpr (known : Set Version) (x : LowerM (Option Version)) : Prop :=
  Assigns known (fun r => {v | v ∈ r}) x

namespace LowerM

variable {α : Type} {known : Set Version} {v : Version}

/-! ### Steps -/

theorem assigns_of_eq {x : LowerM α} (h : ∀ {s a s'}, x s = .ok a s' →
    s'.slots = s.slots ∧ s'.code = s.code ∧ s'.names = s.names) : AssignsBlock known x := by
  intro s a s' hs _ hx
  obtain ⟨hslots, hcode, hnames⟩ := h hx
  exact ⟨⟨[], by simp [hcode], .none hs (.of_slots_eq hslots) hnames⟩, nofun⟩

theorem find_assigns (name : String) : AssignsExpr known (LowerState.find name) := by
  intro s r s' hs _ h
  obtain ⟨hr, rfl⟩ := find_eq_ok_iff.1 h
  exact ⟨⟨[], by simp, .none hs (.of_slots_eq rfl) rfl⟩, fun v hv => hs.owned (hr.trans hv)⟩

theorem newSlot_assigns (type : TypeVar) : AssignsValue known (newSlot type false) := by
  intro s v s' hs _ h
  obtain ⟨rfl, rfl⟩ := newSlot_eq_ok_iff.1 h
  have hadds : s.Adds [⟨s.slots.size, 0⟩] { s with slots := s.slots.push ⟨type, false, false, 1⟩ } :=
    .push Nat.one_pos rfl rfl
  refine ⟨⟨[], by simp, .none hs hadds rfl⟩, fun v hv => ?_⟩
  rw [Set.mem_singleton_iff.1 hv]
  exact hadds.made _ (List.mem_singleton.2 rfl)

theorem bind_assigns (name : String) (hv : v ∈ known) : AssignsBlock known (LowerM.bind name v) := by
  intro s u s' hs hknown h
  obtain rfl := bind_eq_ok_iff.1 h
  have hadds : s.Adds [] { s with names := s.names.insert name v } := .of_slots_eq rfl
  exact ⟨⟨[], by simp, hs.insert hadds rfl (hknown v hv), hadds, fun hi => (not_within_nil hi).elim⟩, nofun⟩

theorem emit_assigns (op : Op) (args : List Version) (hop : op ≠ .phi) (hargs : ∀ v ∈ args, v ∈ known) :
    AssignsBlock known (emit (.op op args none)) := by
  intro s u s' hs hknown h
  obtain rfl := emit_eq_ok_iff.1 h
  have hadds : s.Adds [] { s with code := s.code.push (.op op args none) } := .of_slots_eq rfl
  exact ⟨⟨_, Array.toList_push, .one (hs.of_names_eq hadds rfl) hadds
    (Instr.scoped_op (fun h => absurd h hop) (fun v hv => hadds.owns (hknown v (hargs v hv))) nofun) nofun⟩, nofun⟩

theorem emitInto_assigns (type : TypeVar) (op : Op) (args : List Version) (hop : op ≠ .phi)
    (hargs : ∀ v ∈ args, v ∈ known) :
    AssignsValue known (emitInto type op args) := by
  intro s v s' hs hknown h
  obtain ⟨rfl, rfl⟩ := emitInto_eq_ok_iff.1 h
  have hadds : s.Adds [⟨s.slots.size, 0⟩]
      { s with
        slots := s.slots.push ⟨type, false, false, 1⟩
        code := s.code.push (.op op args (some ⟨s.slots.size, 0⟩)) } :=
    .push Nat.one_pos rfl rfl
  have hmade := hadds.made _ (List.mem_singleton.2 rfl)
  refine ⟨⟨_, Array.toList_push, .one (hs.of_names_eq hadds rfl) hadds
    (Instr.scoped_op (fun h => absurd h hop) (fun v hv => hadds.owns (hknown v (hargs v hv))) fun v hv => ?_)
    nofun⟩, fun v hv => ?_⟩
  · cases hv
    exact hmade
  · rw [Set.mem_singleton_iff.1 hv]
    exact hmade

theorem nextVersion_adds {s s' : Lowering} {w : Version} (hv : s.Owns v) (h : nextVersion v s = .ok w s') :
    w.slot = v.slot ∧ s.Adds [w] s' ∧ s'.code = s.code ∧ s'.names = s.names := by
  obtain ⟨rfl, rfl⟩ := nextVersion_eq_ok_iff.1 h
  obtain ⟨slot, hslot, -⟩ := hv
  rw [hslot, Option.map_some, Option.getD_some]
  exact ⟨rfl, .next hslot rfl, rfl, rfl⟩

/-- The next version of the slot of `v` is defined, and a name stands for it. -/
theorem redefine_assigns (name : String) (op : Op) (args : List Version) (hv : v ∈ known)
    (hargs : ∀ w ∈ args, w ∈ known) (hop : ∀ w, w.slot = v.slot → op = .phi → Merges args (some w)) :
    AssignsBlock known (do
      let next ← nextVersion v
      emit (.op op args (some next))
      LowerM.bind name next) := by
  intro s u s' hs hknown h
  obtain ⟨next, s₁, hnext, h⟩ := Outcome.bind_eq_ok_iff.1 h
  obtain ⟨⟨⟩, s₂, hemit, h⟩ := Outcome.bind_eq_ok_iff.1 h
  obtain ⟨hslot, hadds, hcode, hnames⟩ := nextVersion_adds (hknown v hv) hnext
  obtain rfl := emit_eq_ok_iff.1 hemit
  have hs' := bind_eq_ok_iff.1 h
  have hadds' : s.Adds [next] s' := hadds.congr rfl (hs' ▸ rfl)
  have hmade := hadds'.made _ (List.mem_singleton.2 rfl)
  have hi : (Instr.op op args (some next)).Scoped s' :=
    Instr.scoped_op (hop next hslot) (fun w hw => hadds'.owns (hknown w (hargs w hw))) fun w hw => by
      cases hw
      exact hmade
  refine ⟨⟨[.op op args (some next)], ?_, .one (hs.insert hadds' (by rw [← hs', ← hnames]) hmade) hadds' hi nofun⟩,
    nofun⟩
  rw [← hs', ← hcode]
  exact Array.toList_push

theorem markCaptured_assigns (v : Version) : AssignsBlock known (markCaptured v) := by
  intro s u s' hs _ h
  obtain rfl := modify_eq_ok_iff.1 h
  exact ⟨⟨[], by simp, .none hs (.mark rfl) rfl⟩, nofun⟩

theorem unwrapVariant_assigns (type : TypeVar) (name : String) (hv : v ∈ known) :
    AssignsValue known (unwrapVariant type v name) := by
  intro s w s' hs hknown h
  obtain ⟨rfl, rfl⟩ := unwrapVariant_eq_ok_iff.1 h
  have hadds : s.Adds [⟨s.slots.size, 0⟩]
      { s with
        slots := s.slots.push ⟨type, false, false, 1⟩
        code := s.code.push (.branchVariant v [⟨name, some ⟨s.slots.size, 0⟩, []⟩] [.op .giveBack [v] none]) } :=
    .push Nat.one_pos rfl rfl
  have hmade := hadds.made _ (List.mem_singleton.2 rfl)
  have howned := hadds.owns (hknown v hv)
  refine ⟨⟨_, Array.toList_push, .one (hs.of_names_eq hadds rfl) hadds ⟨fun w hw => ?_, nofun, nofun⟩
    fun arm harm j hj => ?_⟩, fun w hw => ?_⟩
  · rcases List.mem_cons.1 hw with rfl | hw
    · exact howned
    · rw [List.mem_singleton.1 hw]
      exact hmade
  · rcases List.mem_cons.1 harm with rfl | harm
    · exact (not_within_nil hj).elim
    · obtain rfl := List.mem_singleton.1 harm
      rcases within_singleton.1 hj with rfl | ⟨arm, harm, -⟩
      · exact Instr.scoped_op nofun (fun w hw => List.mem_singleton.1 hw ▸ howned) nofun
      · cases harm
  · rw [Set.mem_singleton_iff.1 hw]
    exact hmade

/-! ### Blocks -/

end LowerM

/-- The versions that a lowered block defines, its payload included. -/
def LoweredArm.defines (arm : LoweredArm) : List Version := arm.binding.toList ++ definedIn arm.code

/-- Blocks are lowered apart, one after the other, between the states `s` and `s'`. -/
structure AssignedBlocks (s : Lowering) (lowered : List LoweredArm) (s' : Lowering) : Prop where
  code_eq : s'.code = s.code
  names_eq : s'.names = s.names
  adds : s.Adds (lowered.flatMap LoweredArm.defines) s'
  each : ∀ arm ∈ lowered, ∀ {i}, Within i arm.code → i.Scoped s'
  ends : ∀ arm ∈ lowered, ∀ {n v}, arm.names.get? n = some v → s'.Owns v

namespace AssignedBlocks

variable {s s₁ s' : Lowering} {lowered rest : List LoweredArm}

theorem append (h : AssignedBlocks s lowered s₁) (h' : AssignedBlocks s₁ rest s') :
    AssignedBlocks s (lowered ++ rest) s' where
  code_eq := h'.code_eq.trans h.code_eq
  names_eq := h'.names_eq.trans h.names_eq
  adds := List.flatMap_append ▸ h.adds.trans h'.adds
  each arm harm _ hi := (List.mem_append.1 harm).elim
    (fun harm => (h.each arm harm hi).mono h'.adds.owns) fun harm => h'.each arm harm hi
  ends arm harm _ _ hv := (List.mem_append.1 harm).elim
    (fun harm => h'.adds.owns (h.ends arm harm hv)) fun harm => h'.ends arm harm hv

theorem owns_binding (h : AssignedBlocks s lowered s') {arm : LoweredArm} (harm : arm ∈ lowered) {v : Version}
    (hv : v ∈ arm.binding) : s'.Owns v :=
  h.adds.made v (List.mem_flatMap.2 ⟨arm, harm, List.mem_append_left _ (Option.mem_toList.2 hv)⟩)

end AssignedBlocks

namespace LowerM

variable {α : Type} {known : Set Version} {v : Version} {context : LowerContext} {s s' : Lowering}

theorem inBlock_assigned {result : α → Set Version} {x : LowerM α} (hx : Assigns known result x) (hs : s.Bound)
    (hknown : ∀ v ∈ known, s.Owns v) {a : α} {code : List Instr} {names : Row Version}
    (h : inBlock x s = .ok (a, code, names) s') :
    AssignedBlocks s [⟨none, code, names⟩] s' ∧ ∀ v ∈ result a, s'.Owns v := by
  obtain ⟨s₁, hxa, rfl, rfl, rfl⟩ := inBlock_eq_ok_iff.1 h
  have hstart : ({ s with code := #[] } : Lowering).Bound := ⟨hs.owned⟩
  obtain ⟨⟨code, hcode, hassigned⟩, hresult⟩ := hx hstart hknown hxa
  have hcode : s₁.code.toList = code := hcode
  refine ⟨⟨rfl, rfl, ?_, fun arm harm i hi => ?_, fun arm harm n v hv => ?_⟩, hresult⟩
  · rw [List.flatMap_singleton, hcode]
    exact hassigned.adds.congr rfl rfl
  · obtain rfl := List.mem_singleton.1 harm
    rw [hcode] at hi
    exact (hassigned.each hi).mono id
  · obtain rfl := List.mem_singleton.1 harm
    exact hassigned.bound.owned hv

theorem block_assigned {arm : BranchArm} (hbody : ∀ known, AssignsBlock known (exprs context arm.body))
    (hs : s.Bound) {lowered : LoweredArm} (h : block context arm s = .ok lowered s') :
    AssignedBlocks s [lowered] s' := by
  obtain ⟨binding, body⟩ := arm
  cases binding with
  | some bound =>
    obtain ⟨v, s₁, hnew, h⟩ := Outcome.bind_eq_ok_iff.1 h
    obtain ⟨⟨u, code, names⟩, s₂, hblock, h⟩ := Outcome.bind_eq_ok_iff.1 h
    obtain ⟨rfl, rfl⟩ := pure_eq_ok_iff.1 h
    obtain ⟨rfl, rfl⟩ := newSlot_eq_ok_iff.1 hnew
    have hpayload : s.Adds [⟨s.slots.size, 0⟩]
        { s with slots := s.slots.push ⟨bound.2, false, false, 1⟩ } := .push Nat.one_pos rfl rfl
    have hinside : AssignsBlock {⟨s.slots.size, 0⟩} (do
        LowerM.bind bound.1 ⟨s.slots.size, 0⟩
        exprs context body) := (bind_assigns bound.1 (Set.mem_singleton _)).bind fun _ => hbody _
    obtain ⟨hblocks, -⟩ := inBlock_assigned hinside (hs.of_names_eq hpayload rfl)
      (fun v hv => Set.mem_singleton_iff.1 hv ▸ hpayload.made _ (List.mem_singleton.2 rfl)) hblock
    refine ⟨hblocks.code_eq, hblocks.names_eq, hpayload.trans hblocks.adds, fun arm harm i hi => ?_,
      fun arm harm n v hv => ?_⟩
    · obtain rfl := List.mem_singleton.1 harm
      exact hblocks.each _ (List.mem_singleton.2 rfl) hi
    · obtain rfl := List.mem_singleton.1 harm
      exact hblocks.ends _ (List.mem_singleton.2 rfl) hv
  | none =>
    obtain ⟨u, hblock, hbinding⟩ := block_none_eq_ok_iff.1 h
    obtain ⟨binding, code, names⟩ := lowered
    obtain rfl : binding = none := hbinding
    exact (inBlock_assigned (hbody ∅) hs nofun hblock).1

theorem blocks_assigned {arms : List BranchArm}
    (hbodies : ∀ arm ∈ arms, ∀ known, AssignsBlock known (exprs context arm.body)) (hs : s.Bound)
    {lowered : List LoweredArm} (h : blocks context arms s = .ok lowered s') : AssignedBlocks s lowered s' := by
  induction arms generalizing s lowered with
  | nil =>
    obtain ⟨rfl, rfl⟩ := pure_eq_ok_iff.1 h
    exact ⟨rfl, rfl, .of_slots_eq rfl, nofun, nofun⟩
  | cons arm arms ih =>
    obtain ⟨first, s₁, rest, hfirst, hrest, rfl⟩ := blocks_cons_eq_ok_iff.1 h
    have hblock := block_assigned (hbodies arm List.mem_cons_self) hs hfirst
    exact hblock.append (ih (fun arm' harm => hbodies arm' (List.mem_cons_of_mem _ harm))
      (hs.of_names_eq hblock.adds hblock.names_eq) hrest)

/-! ### Joins -/

theorem joinName_assigns {arms : List (Row Version)} (name : String) {earlier : Version}
    (harms : ∀ arm ∈ arms, ∀ {n v}, arm.get? n = some v → v ∈ known) (hearlier : earlier ∈ known) :
    AssignsBlock known (joinName arms name earlier) := by
  have hknown : ∀ w ∈ endVersions name earlier arms, w ∈ known := by
    intro w hw
    obtain ⟨arm, harm, rfl⟩ := mem_endVersions.1 hw
    obtain heq | ⟨hget, -⟩ := endVersion_cases name earlier arm
    · rw [heq]
      exact hearlier
    · exact harms arm harm hget
  unfold joinName
  split
  · exact .pure_none
  · rename_i only heq
    split
    · exact .pure_none
    · exact bind_assigns name (hknown only (heq ▸ List.mem_singleton.2 rfl))
  · rename_i hempty hone
    refine redefine_assigns name .phi _ hearlier hknown fun w hslot _ => ?_
    refine ⟨w, rfl, ?_, nodup_endVersions, fun v hv => ?_⟩
    · match hversions : endVersions name earlier arms with
      | [] => exact absurd hversions hempty
      | [only] => exact absurd hversions (hone only)
      | _ :: _ :: _ => exact Nat.le_add_left 2 _
    · obtain ⟨arm, -, rfl⟩ := mem_endVersions.1 hv
      exact endVersion_slot.trans hslot.symm

theorem joinNames_assigns {arms : List (Row Version)} (entries : List (String × Version))
    (harms : ∀ arm ∈ arms, ∀ {n v}, arm.get? n = some v → v ∈ known)
    (hentries : ∀ e ∈ entries, e.2 ∈ known) :
    AssignsBlock known (joinNames arms entries) := by
  induction entries generalizing known with
  | nil => exact .pure_none
  | cons e entries ih =>
    obtain ⟨he, hentries⟩ := List.forall_mem_cons.1 hentries
    exact (joinName_assigns e.1 harms he).bind fun _ =>
      ih (fun arm harm _ _ hv => .inr (harms arm harm hv)) fun e he => .inr (hentries e he)

theorem join_assigns {arms : List (Row Version)}
    (harms : ∀ arm ∈ arms, ∀ {n v}, arm.get? n = some v → v ∈ known) :
    AssignsBlock known (join arms) := by
  intro s u s' hs hknown h
  obtain ⟨_, rfl, h⟩ := get_bind_eq_ok_iff.1 h
  have hjoin : AssignsBlock {v | s.Owns v} (joinNames arms s.names.entries) :=
    joinNames_assigns _ (fun arm harm _ _ hv => hknown _ (harms arm harm hv)) fun e he =>
      hs.owned ((Row.mem_entries_iff _).1 he)
  exact hjoin hs (fun _ hv => hv) h

/-! ### Branches -/

/-- What a branch is lowered to reads what it looks at. -/
theorem branch_reads {e : Expr TypeVar} {b : Branch} (hb : e.branch? = some b) {r : Option Version}
    (h : expr context e s = .ok r s') :
    ∃ v start constants i lowered, Branched context b s v start constants i lowered r s' ∧ i.reads = [v] := by
  cases e with
  | ifElse m condition yes no =>
    cases hb
    obtain ⟨v, start, yes', no', h⟩ := ifElse_eq_ok h
    exact ⟨_, _, _, _, _, h, rfl⟩
  | matchValue m value arms otherwise =>
    cases hb
    obtain ⟨v, start, ids, constants, bs, last, -, -, h⟩ := matchValue_eq_ok h
    exact ⟨_, _, _, _, _, h, rfl⟩
  | matchVariant m value arms otherwise =>
    cases otherwise with
    | some otherwise =>
      cases hb
      obtain ⟨v, start, bs, last, -, h⟩ := matchVariant_eq_ok h
      exact ⟨_, _, _, _, _, h, rfl⟩
    | none =>
      cases hb
      obtain ⟨v, start, bs, -, h⟩ := matchListed_eq_ok h
      exact ⟨_, _, _, _, _, h, rfl⟩
  | _ => cases hb

theorem flatMap_codeArms (isClosed : Bool) (lowered : List LoweredArm) :
    (LoweredArm.codeArms isClosed lowered).flatMap (fun arm => arm.1.toList ++ definedIn arm.2) =
      lowered.flatMap LoweredArm.defines := by
  have hlast : (if isClosed then [((none : Option Version), ([] : List Instr))] else []).flatMap
      (fun arm => arm.1.toList ++ definedIn arm.2) = [] := by
    cases isClosed <;> rfl
  rw [LoweredArm.codeArms, List.flatMap_append, hlast, List.append_nil, List.flatMap_map]
  rfl

/-- An arm of the instruction is a lowered block or does nothing. -/
theorem mem_codeArms {isClosed : Bool} {lowered : List LoweredArm} {arm : Option Version × List Instr}
    (harm : arm ∈ LoweredArm.codeArms isClosed lowered) :
    (∃ a ∈ lowered, arm = (a.binding, a.code)) ∨ arm = (none, []) := by
  rcases List.mem_append.1 harm with harm | harm
  · obtain ⟨a, ha, rfl⟩ := List.mem_map.1 harm
    exact .inl ⟨a, ha, rfl⟩
  · cases isClosed with
    | true => exact .inr (List.mem_singleton.1 harm)
    | false => cases harm

end LowerM

/-- The branching instruction with its arms is lowered first; the join comes after it and adds merges. -/
theorem Branched.assigned {context : LowerContext} {b : Branch} {s start s' : Lowering} {v : Version}
    {constants : ConstantTable} {i : Instr} {lowered : List LoweredArm} {r : Option Version}
    (h : Branched context b s v start constants i lowered r s') (hs : start.Bound) (hv : start.Owns v)
    (hreads : i.reads = [v]) (hbodies : ∀ arm ∈ b.arms, ∀ known, AssignsBlock known (LowerM.exprs context arm.body)) :
    r = none ∧ ∃ s₁ s₂ phis, LowerM.blocks context b.arms { start with constants } = .ok lowered s₁ ∧
      i.defines = lowered.flatMap LoweredArm.defines ∧ s₂.slots = s₁.slots ∧ s₂.names = start.names ∧
      Assigned start [i] s₂ ∧ LowerM.join (lowered.map LoweredArm.names) s₂ = .ok () s' ∧
      s₂.code.toList = start.code.toList ++ [i] ∧ s'.code.toList = s₂.code.toList ++ phis ∧
      Assigned s₂ phis s' := by
  obtain ⟨s₁, hblocks, hrest⟩ := h.rest
  obtain ⟨⟨⟩, s₂, hemit, hrest⟩ := Outcome.bind_eq_ok_iff.1 hrest
  obtain ⟨⟨⟩, s₃, hjoin, hrest⟩ := Outcome.bind_eq_ok_iff.1 hrest
  obtain ⟨rfl, rfl⟩ := pure_eq_ok_iff.1 hrest
  obtain rfl := LowerM.emit_eq_ok_iff.1 hemit
  have hstart : ({ start with constants } : Lowering).Bound := ⟨hs.owned⟩
  have harms := LowerM.blocks_assigned hbodies hstart hblocks
  have hdefines : i.defines = lowered.flatMap LoweredArm.defines := by
    rw [defines_eq_flatMap h.arms_ne_nil, h.arms_eq, LowerM.flatMap_codeArms]
  have hadds : start.Adds i.defines { s₁ with code := s₁.code.push i } := hdefines ▸ harms.adds.congr rfl rfl
  have hbranch : Assigned start [i] { s₁ with code := s₁.code.push i } := by
    refine .one (hs.of_names_eq hadds harms.names_eq) hadds
      (Instr.scoped_branch h.arms_ne_nil hreads (hadds.owns hv) fun arm harm w hw => ?_) fun arm harm j hj => ?_
    · rw [h.arms_eq] at harm
      rcases LowerM.mem_codeArms harm with ⟨a, ha, rfl⟩ | rfl
      · exact harms.owns_binding ha hw
      · cases hw
    · rw [h.arms_eq] at harm
      rcases LowerM.mem_codeArms harm with ⟨a, ha, rfl⟩ | rfl
      · exact (harms.each a ha hj).mono id
      · exact (not_within_nil hj).elim
  have hends : ∀ names ∈ lowered.map LoweredArm.names, ∀ {n w}, names.get? n = some w → s₁.Owns w := by
    intro names hnames n w hw
    obtain ⟨arm, harm, rfl⟩ := List.mem_map.1 hnames
    exact harms.ends arm harm hw
  have hjoins : AssignsBlock {w | s₁.Owns w} (LowerM.join (lowered.map LoweredArm.names)) :=
    LowerM.join_assigns hends
  obtain ⟨⟨phis, hphis, hjoined⟩, -⟩ := hjoins hbranch.bound (fun _ hw => hw) hjoin
  refine ⟨rfl, s₁, { s₁ with code := s₁.code.push i }, phis, hblocks, hdefines, rfl, harms.names_eq, hbranch, hjoin,
    ?_, hphis, hjoined⟩
  rw [Array.toList_push, harms.code_eq]

namespace LowerM

variable {known : Set Version} {context : LowerContext} {s s' : Lowering}

theorem copy_scoped {l w : Version} (hl : s.Owns l) (hw : s.Owns w) {i : Instr}
    (hi : Within i [.op .copy [l] (some w)]) : i.Scoped s := by
  rcases within_singleton.1 hi with rfl | ⟨arm, harm, -⟩
  · exact Instr.scoped_op nofun (fun u hu => List.mem_singleton.1 hu ▸ hl) fun u hu => Option.some.inj hu ▸ hw
  · cases harm

/-- One arm copies what the left operand decides, the other what the code of the right one gives. The version
for the latter is made first. -/
theorem decide_assigned {l r fromLeft result : Version} {id : Nat} {code : List Instr} (hs : s.Bound)
    (hadds : s.Adds ([result] ++ definedIn code ++ [fromLeft]) s') (hnames : s'.names = s.names) (hl : s.Owns l)
    (hr : s'.Owns r) (hcode : ∀ {i}, Within i code → i.Scoped s') :
    Assigned s [.branchValue l [(id, [.op .copy [l] (some fromLeft)])] (code ++ [.op .copy [r] (some result)])]
      s' := by
  have hfromLeft : s'.Owns fromLeft := hadds.made _ (List.mem_append_right _ (List.mem_singleton.2 rfl))
  have hresult : s'.Owns result := hadds.made _ List.mem_cons_self
  have hperm : (Instr.defines (.branchValue l [(id, [.op .copy [l] (some fromLeft)])]
      (code ++ [.op .copy [r] (some result)]))).Perm ([result] ++ definedIn code ++ [fromLeft]) := by
    have hdefines : Instr.defines (.branchValue l [(id, [.op .copy [l] (some fromLeft)])]
        (code ++ [.op .copy [r] (some result)])) = [fromLeft] ++ (definedIn code ++ [result]) := by
      simp [definedIn, Instr.defines, definedInValueArms, definedIn_append]
    rw [hdefines]
    exact List.perm_append_comm.trans (List.perm_append_comm.append_right _)
  have harms : ∀ arm ∈ Instr.arms (.branchValue l [(id, [.op .copy [l] (some fromLeft)])]
      (code ++ [.op .copy [r] (some result)])),
      arm = (none, [.op .copy [l] (some fromLeft)]) ∨ arm = (none, code ++ [.op .copy [r] (some result)]) := by
    intro arm harm
    rcases List.mem_cons.1 harm with rfl | harm
    · exact .inl rfl
    · exact .inr (List.mem_singleton.1 harm)
  refine .one (hs.of_names_eq hadds hnames) (hadds.subperm hperm.subperm)
    (Instr.scoped_branch (List.cons_ne_nil _ _) rfl (hadds.owns hl)
      fun arm harm w hw => ?_) fun arm harm j hj => ?_
  · rcases harms arm harm with rfl | rfl <;> cases hw
  · rcases harms arm harm with rfl | rfl
    · exact copy_scoped (hadds.owns hl) hfromLeft hj
    · exact (within_append.1 hj).elim hcode (copy_scoped hr hresult)

/-- Two versions of a slot are merged into a third one. -/
theorem phi_assigned {v w merged : Version} (hs : s.Bound) (hadds : s.Adds [merged] s')
    (hnames : s'.names = s.names) (hv : s.Owns v) (hw : s.Owns w) (hne : v ≠ w) (hslot : v.slot = merged.slot)
    (hslot' : w.slot = merged.slot) : Assigned s [.op .phi [v, w] (some merged)] s' := by
  have hmerges : Merges [v, w] (some merged) :=
    ⟨merged, rfl, Nat.le_refl 2, by simpa using hne,
      List.forall_mem_cons.2 ⟨hslot, List.forall_mem_cons.2 ⟨hslot', nofun⟩⟩⟩
  have howned : ∀ u ∈ [v, w], s'.Owns u :=
    List.forall_mem_cons.2 ⟨hadds.owns hv, List.forall_mem_cons.2 ⟨hadds.owns hw, nofun⟩⟩
  exact .one (hs.of_names_eq hadds hnames) hadds (Instr.scoped_op (fun _ => hmerges) howned
    fun u hu => Option.some.inj hu ▸ hadds.made _ (List.mem_singleton.2 rfl)) nofun

theorem shortCircuit_eq_bind (type : TypeVar) (stop : Bool) (left right : LowerM Version) :
    shortCircuit type stop left right = left >>= fun l => shortCircuit type stop (pure l) right := by
  simp only [shortCircuit, pure_bind]

/-- The result of `and` and `or` is one slot: version `0` of it is what the right operand gives, the next what
the left one decides, and the last merges the two. The code of the right operand is lowered between the first two. -/
theorem shortCircuit_assigned {type : TypeVar} {stop : Bool} {l merged : Version} {right : LowerM Version}
    (hright : ∀ known, AssignsValue known right) (hs : s.Bound) (hl : s.Owns l)
    (h : shortCircuit type stop (pure l) right s = .ok merged s') :
    ∃ id r code names result fromLeft s₂ s₃ s₅, inBlock right s₂ = .ok (r, code, names) s₃ ∧ s₂.names = s.names ∧
      s.Adds [result] s₂ ∧ s₃.Adds [fromLeft] s₅ ∧ s₅.names = s.names ∧ s'.names = s₅.names ∧
      Assigned s [.branchValue l [(id, [.op .copy [l] (some fromLeft)])] (code ++ [.op .copy [r] (some result)])] s₅ ∧
      Assigned s₅ [.op .phi [fromLeft, result] (some merged)] s' ∧
      s'.code.toList = s.code.toList ++
        ([.branchValue l [(id, [.op .copy [l] (some fromLeft)])] (code ++ [.op .copy [r] (some result)])] ++
          [.op .phi [fromLeft, result] (some merged)]) := by
  obtain ⟨_, _, hpure, h⟩ := Outcome.bind_eq_ok_iff.1 h
  obtain ⟨rfl, rfl⟩ := pure_eq_ok_iff.1 hpure
  obtain ⟨result, s₁, hnew, h⟩ := Outcome.bind_eq_ok_iff.1 h
  obtain ⟨id, s₂, hadd, h⟩ := Outcome.bind_eq_ok_iff.1 h
  obtain ⟨⟨r, code, names⟩, s₃, hblock, h⟩ := Outcome.bind_eq_ok_iff.1 h
  obtain ⟨fromLeft, s₄, hnext, h⟩ := Outcome.bind_eq_ok_iff.1 h
  obtain ⟨⟨⟩, s₅, hemit, h⟩ := Outcome.bind_eq_ok_iff.1 h
  obtain ⟨merged, s₆, hnext', h⟩ := Outcome.bind_eq_ok_iff.1 h
  obtain ⟨⟨⟩, s₇, hemit', h⟩ := Outcome.bind_eq_ok_iff.1 h
  obtain ⟨rfl, rfl⟩ := pure_eq_ok_iff.1 h
  -- The states stay variables; what is known of each is how its slots, its code and its names arose.
  obtain ⟨hresult, hs₁⟩ := newSlot_eq_ok_iff.1 hnew
  obtain ⟨-, hs₂⟩ := addConstant_eq_ok_iff.1 hadd
  have hs₅ := emit_eq_ok_iff.1 hemit
  have hs₇ := emit_eq_ok_iff.1 hemit'
  have hresult₂ : s.Adds [result] s₂ := hresult ▸ .push Nat.one_pos rfl (by rw [← hs₂, ← hs₁])
  have hnames₂ : s₂.names = s.names := by rw [← hs₂, ← hs₁]
  obtain ⟨hblocks, hr⟩ := inBlock_assigned (hright ∅) (hs.of_names_eq hresult₂ hnames₂) nofun hblock
  have hadds₃ : s₂.Adds (definedIn code) s₃ := List.append_nil (definedIn code) ▸ hblocks.adds
  have hresult₃ : s₃.Owns result := hadds₃.owns (hresult₂.made _ (List.mem_singleton.2 rfl))
  obtain ⟨hslot, hadds₄, hcode₄, hnames₄⟩ := nextVersion_adds hresult₃ hnext
  have hadds₅ : s₃.Adds [fromLeft] s₅ := hadds₄.congr rfl (hs₅ ▸ rfl)
  obtain ⟨hslot', hadds₆, hcode₆, hnames₆⟩ := nextVersion_adds (hadds₅.owns hresult₃) hnext'
  have hadds₇ : s₅.Adds [merged] s₇ := hadds₆.congr rfl (hs₇ ▸ rfl)
  have hnames₅ : s₅.names = s.names := by rw [← hs₅, hnames₄, hblocks.names_eq, hnames₂]
  have hbranch : Assigned s [.branchValue l [(id, [.op .copy [l] (some fromLeft)])]
      (code ++ [.op .copy [r] (some result)])] s₅ :=
    decide_assigned hs ((hresult₂.trans hadds₃).trans hadds₅) hnames₅ hl (hadds₅.owns (hr r rfl))
      fun hi => (hblocks.each _ (List.mem_singleton.2 rfl) hi).mono hadds₅.owns
  have hne : fromLeft ≠ result := fun heq => hadds₅.fresh _ (List.mem_singleton.2 rfl) (heq ▸ hresult₃)
  have hmerge : Assigned s₅ [.op .phi [fromLeft, result] (some merged)] s₇ :=
    phi_assigned hbranch.bound hadds₇ (by rw [← hs₇, hnames₆]) (hadds₅.made _ (List.mem_singleton.2 rfl))
      (hadds₅.owns hresult₃) hne (hslot.trans hslot'.symm) hslot'.symm
  refine ⟨id, r, code, names, result, fromLeft, s₂, s₃, s₅, hblock, hnames₂, hresult₂, hadds₅, hnames₅, ?_, hbranch,
    hmerge, ?_⟩
  · rw [← hs₇, hnames₆]
  · rw [← hs₇, Array.toList_push, hcode₆, ← hs₅, Array.toList_push, hcode₄, hblocks.code_eq, ← hs₂, ← hs₁,
      List.append_assoc]

/-! ### Bodies -/

theorem bindParams_code {params : List (String × TypeVar)} {u : Unit} (h : bindParams params s = .ok u s') :
    s'.code = s.code := by
  induction params generalizing s with
  | nil =>
    obtain ⟨-, rfl⟩ := pure_eq_ok_iff.1 h
    rfl
  | cons param params ih =>
    obtain ⟨v, s₁, hnew, h⟩ := Outcome.bind_eq_ok_iff.1 h
    obtain ⟨⟨⟩, s₂, hbind, h⟩ := Outcome.bind_eq_ok_iff.1 h
    obtain ⟨rfl, rfl⟩ := newSlot_eq_ok_iff.1 hnew
    obtain rfl := bind_eq_ok_iff.1 hbind
    rw [ih h]

/-- At the start of a body there are the slots of its arguments, each at its first version. -/
theorem bindParams_argument {params : List (String × TypeVar)} {u : Unit}
    (h : bindParams params (bodyStart s) = .ok u s') {slot : Slot} {i : Nat} (hslot : s'.slots[i]? = some slot) :
    slot.isArgument = true ∧ slot.versions = 1 := by
  have hmem : slot ∈ s'.slots.toList := Array.mem_toList_iff.2 (Array.mem_of_getElem? hslot)
  rw [bindParams_slots h] at hmem
  obtain ⟨param, -, rfl⟩ := List.mem_map.1 hmem
  exact ⟨rfl, rfl⟩

theorem bindParams_bound {params : List (String × TypeVar)} (h : bindParams params (bodyStart s) = .ok () s') :
    s'.Bound :=
  ⟨(bindParams_lowers _ (bodyStart_separate s) h).1.separate.owned⟩

/-- All slots but those of the arguments are allocated while a body is lowered. -/
theorem inBody_single {params : List String} {args : List TypeVar} {es : List (Expr TypeVar)} {slots : Array Slot}
    {code : List Instr} (hes : ∀ known, AssignsBlock known (exprs context es))
    (h : inBody params args (exprs context es) s = .ok (slots, code) s') : AllSingle slots code := by
  have hof : BodyOf es slots code := ⟨context, params, args, s, s', h⟩
  obtain ⟨s₁, s₂, hparams, hbody, rfl, rfl, -⟩ := inBody_eq_ok_iff.1 h
  obtain ⟨⟨code, hcode, hassigned⟩, -⟩ := hes ∅ (bindParams_bound hparams) nofun hbody
  rw [bindParams_code hparams, bodyStart, List.nil_append] at hcode
  rw [hcode] at hof ⊢
  refine BodyIn.forall_of_closures ⟨⟨?_, fun hi => (hassigned.each hi).mentions, fun hi =>
    (hassigned.each hi).merges rfl⟩, es, hof⟩ fun hi => (hassigned.each hi).closure rfl
  refine List.nodup_append.2 ⟨nodup_argumentVersions _, hassigned.adds.nodup, fun v hv w hw heq => ?_⟩
  obtain ⟨hzero, hargument⟩ := mem_argumentVersions.1 hv
  rw [hassigned.adds.arguments] at hargument
  obtain ⟨old, hold, -⟩ := (Option.any_eq_true ..).1 hargument
  refine hassigned.adds.fresh w hw (heq ▸ ⟨old, hold, ?_⟩)
  rw [hzero, (bindParams_argument hparams hold).2]
  exact Nat.one_pos

theorem closure_assigns {params : List String} {args : List TypeVar} {returns type : TypeVar}
    {captures : List (String × Version)} {es : List (Expr TypeVar)}
    (hes : ∀ known, AssignsBlock known (exprs context es)) (hcaptures : ∀ v ∈ captures.map (·.2), v ∈ known) :
    AssignsExpr known (do
      let (slots, code) ← inBody params args (exprs context es)
      let dest ← newSlot type false
      emit (.closure args returns captures slots code dest)
      return some dest) := by
  intro s r s' hs hknown h
  obtain ⟨⟨slots, code⟩, s₁, hbody, h⟩ := Outcome.bind_eq_ok_iff.1 h
  obtain ⟨dest, s₂, hnew, h⟩ := Outcome.bind_eq_ok_iff.1 h
  obtain ⟨⟨⟩, s₃, hemit, h⟩ := Outcome.bind_eq_ok_iff.1 h
  obtain ⟨rfl, rfl⟩ := pure_eq_ok_iff.1 h
  have hsingle := inBody_single hes hbody
  obtain ⟨_, t, -, -, -, -, hs₁⟩ := inBody_eq_ok_iff.1 hbody
  obtain ⟨hdest, hs₂⟩ := newSlot_eq_ok_iff.1 hnew
  have hs₃ := emit_eq_ok_iff.1 hemit
  have hslots : s₁.slots = s.slots := hs₁ ▸ rfl
  have hadds : s.Adds [dest] s₃ := by
    rw [← hdest, hslots]
    exact .push Nat.one_pos rfl (by rw [← hs₃, ← hs₂, hslots])
  have hmade := hadds.made _ (List.mem_singleton.2 rfl)
  refine ⟨⟨[.closure args returns captures slots code dest], ?_,
    .one (hs.of_names_eq hadds ?_) hadds ⟨fun v hv => ?_, nofun, ?_⟩ nofun⟩, fun v hv => ?_⟩
  · rw [← hs₃, Array.toList_push, ← hs₂, ← hs₁]
  · rw [← hs₃, ← hs₂, ← hs₁]
  · rcases List.mem_append.1 hv with hv | hv
    · exact hadds.owns (hknown v (hcaptures v hv))
    · exact List.mem_singleton.1 hv ▸ hmade
  · rintro _ _ _ _ _ _ ⟨⟩
    exact hsingle
  · exact Option.some.inj hv ▸ hmade

end LowerM
end Monomorph
