import Monomorph.Proofs.Code.Lowered
import Monomorph.Proofs.Code.Tracing

/-! # Visible names live in slots of their own throughout

At every point of lowering each visible name stands for a version that exists in the slots of the body around, and no
two of them live in one slot (`Lowering.Separate`). `traceLower_separate` says so of every state that lowering notes,
and that noting them changes nothing.

Most operations leave the visible names and the versions that exist as they are. Those that do not are looked at by
themselves: a name is only bound to a version that no other visible name shares its slot with
(`Lowering.Separate.insert`), which is a fact about the value that it is declared with (`LowerM.own_spec`), about the
slot that it had before, or about the ends of the arms of a branch (`TraceM.joinNames_follows`). -/

namespace Monomorph

open Outcome

namespace Lowering

variable {s s' : Lowering} {v : Version}

/-- A version stays where a slot is changed to one with no fewer versions. -/
theorem Owns.modify {i : Nat} {f : Slot → Slot} (hf : ∀ slot, slot.versions ≤ (f slot).versions) (h : s.Owns v)
    (hslots : s'.slots = s.slots.modify i f) : s'.Owns v := by
  obtain ⟨slot, hslot, hlt⟩ := h
  unfold Owns
  rw [hslots, Array.getElem?_modify]
  split
  · exact ⟨f slot, by rw [hslot]; rfl, Nat.lt_of_lt_of_le hlt (hf slot)⟩
  · exact ⟨slot, hslot, hlt⟩

/-- Every version that the names stand for exists. -/
def OwnsAll (s : Lowering) (names : Row Version) : Prop := ∀ {n v}, names.get? n = some v → s.Owns v

end Lowering

namespace TraceM

open LowerM LowerState

variable {α β : Type} {s s' : Lowering} {x : TraceM α} {y : LowerM α} {f : α → TraceM β} {g : α → LowerM β}

/-! ### Lowering and its trace -/

/-- The end of a run with these states noted, from its end without them. -/
def withSeen (seen : List Lowering) :
    EStateM.Result LowerError Lowering α → EStateM.Result LowerError Tracing α
  | .ok a s => .ok a ⟨s, seen⟩
  | .error e s => .error e ⟨s, seen⟩

/-- From the state `s`, one computation does what the other one does. Visible names live in slots of their own in all
states that it notes, and where it succeeds also in the last one. -/
structure FollowsAt (s : Lowering) (x : TraceM α) (y : LowerM α) : Prop where
  run : ∀ seen, ∃ more, (∀ p ∈ more, p.Separate) ∧ x ⟨s, seen⟩ = withSeen (more ++ seen) (y s)
  separate : ∀ {a s'}, y s = .ok a s' → s'.Separate

/-- It does so from any state in which visible names live in slots of their own. -/
structure Follows (x : TraceM α) (y : LowerM α) : Prop where
  start : ∀ {s}, s.Separate → FollowsAt s x y

namespace FollowsAt

theorem pure (hs : s.Separate) (a : α) : FollowsAt s (Pure.pure a) (Pure.pure a) where
  run _ := ⟨[], nofun, rfl⟩
  separate h := (pure_eq_ok_iff.1 h).2 ▸ hs

theorem throw (e : LowerError) : FollowsAt s (MonadExcept.throw e : TraceM α) (MonadExcept.throw e) where
  run _ := ⟨[], nofun, rfl⟩
  separate h := (throw_eq_ok_iff.1 h).elim

theorem bind (hx : FollowsAt s x y)
    (hf : ∀ {a s'}, y s = .ok a s' → s'.Separate → FollowsAt s' (f a) (g a)) :
    FollowsAt s (x >>= f) (y >>= g) where
  run seen := by
    obtain ⟨more, hmore, hrun⟩ := hx.run seen
    cases hy : y s with
    | error e s' =>
      rw [hy] at hrun
      exact ⟨more, hmore, by rw [bind_of_error hrun, bind_of_error hy]; rfl⟩
    | ok a s' =>
      rw [hy] at hrun
      obtain ⟨others, hothers, hrun'⟩ := (hf hy (hx.separate hy)).run (more ++ seen)
      refine ⟨others ++ more, ?_, ?_⟩
      · exact fun p hp => (List.mem_append.1 hp).elim (hothers p) (hmore p)
      · rw [bind_of_ok hrun, bind_of_ok hy, hrun', List.append_assoc]
  separate h := by
    obtain ⟨a, s₁, hy, hg⟩ := bind_eq_ok_iff.1 h
    exact (hf hy (hx.separate hy)).separate hg

theorem of_note {a : α} (hx : ∀ seen, x ⟨s, seen⟩ = .ok a ⟨s', s' :: seen⟩) (hy : y s = .ok a s')
    (hs' : s'.Separate) : FollowsAt s x y where
  run _ := ⟨[s'], by simpa using hs', by rw [hx, hy]; rfl⟩
  separate h := by
    cases hy.symm.trans h
    exact hs'

theorem present_bind {f : Lowering → TraceM β} {g : Lowering → LowerM β} (hs : s.Separate)
    (hf : FollowsAt s (f s) (g s)) : FollowsAt s (present >>= f) (present >>= g) := by
  refine bind (of_note (fun _ => rfl) rfl hs) fun h _ => ?_
  obtain ⟨rfl, rfl⟩ := present_eq_ok_iff.1 h
  exact hf

end FollowsAt

namespace Follows

theorem pure (a : α) : Follows (Pure.pure a) (Pure.pure a) := ⟨fun hs => .pure hs a⟩

theorem throw (e : LowerError) : Follows (MonadExcept.throw e : TraceM α) (MonadExcept.throw e) :=
  ⟨fun _ => .throw e⟩

theorem bind (hx : Follows x y) (hf : ∀ a, Follows (f a) (g a)) : Follows (x >>= f) (y >>= g) :=
  ⟨fun hs => (hx.start hs).bind fun _ hs' => (hf _).start hs'⟩

end Follows

/-! ### Operations -/

/-- An operation that leaves the visible names as they are and takes no version away. -/
theorem Follows.of_note {a : Lowering → α} {next : Lowering → Lowering}
    (hx : ∀ s seen, x ⟨s, seen⟩ = .ok (a s) ⟨next s, next s :: seen⟩) (hy : ∀ s, y s = .ok (a s) (next s))
    (hnames : ∀ s, (next s).names = s.names) (howns : ∀ s {v}, s.Owns v → (next s).Owns v) : Follows x y :=
  ⟨fun {s} hs => FollowsAt.of_note (hx s) (hy s) (hs.of_names_eq (hnames s) (howns s))⟩

theorem emit_follows (i : Instr) : Follows (emit i) (emit i) :=
  .of_note (fun _ _ => rfl) (fun _ => rfl) (fun _ => rfl) fun _ => (Lowering.owns_congr rfl).2

theorem newSlot_follows (type : TypeVar) (isArgument : Bool) :
    Follows (newSlot type isArgument) (newSlot type isArgument) :=
  .of_note (fun _ _ => rfl) (fun _ => rfl) (fun _ => rfl) fun _ _ h => (Lowering.owns_push rfl).2 (.inl h)

theorem nextVersion_follows (v : Version) : Follows (nextVersion v) (nextVersion v) :=
  .of_note (fun _ _ => rfl) (fun _ => rfl) (fun _ => rfl) fun _ _ h =>
    h.modify (f := fun slot => { slot with versions := slot.versions + 1 }) (fun _ => Nat.le_succ _) rfl

theorem markCaptured_follows (v : Version) : Follows (markCaptured v) (markCaptured v) :=
  .of_note (fun _ _ => rfl) (fun _ => rfl) (fun _ => rfl) fun _ => (Lowering.owns_mark rfl).2

theorem addConstant_follows (c : Constant) : Follows (addConstant c) (addConstant c) :=
  .of_note (fun _ _ => rfl) (fun _ => rfl) (fun _ => rfl) fun _ => (Lowering.owns_congr rfl).2

theorem hoist_follows (path : Path) (variant id : Nat) : Follows (hoist path variant id) (hoist path variant id) :=
  .of_note (fun _ _ => rfl) (fun _ => rfl) (fun _ => rfl) fun _ => (Lowering.owns_congr rfl).2

theorem Follows.present_bind {f : Lowering → TraceM β} {g : Lowering → LowerM β}
    (hf : ∀ s, Follows (f s) (g s)) : Follows (present >>= f) (present >>= g) :=
  ⟨fun hs => .present_bind hs ((hf _).start hs)⟩

theorem find_follows (name : String) : Follows (find name) (find name) :=
  .of_note (fun _ _ => rfl) (fun _ => rfl) (fun _ => rfl) fun _ _ h => h

/-- A name is bound to a version in a slot in which no other visible name lives. -/
theorem bind_followsAt {name : String} {v : Version} (hs : s.Separate) (howned : s.Owns v)
    (halone : ∀ {n w}, s.names.get? n = some w → w.slot = v.slot → n = name) :
    FollowsAt s (LowerM.bind name v) (LowerM.bind name v) :=
  .of_note (fun _ => rfl) rfl (hs.insert howned halone)

theorem emitInto_follows (type : TypeVar) (op : Op) (args : List Version) :
    Follows (emitInto type op args) (emitInto type op args) :=
  (newSlot_follows type false).bind fun _ => (emit_follows _).bind fun _ => .pure _

/-- An operation whose result is the value of an expression. -/
theorem emitSome_follows (type : TypeVar) (op : Op) (args : List Version) :
    Follows (do return some (← emitInto type op args)) (do return some (← emitInto type op args)) :=
  (emitInto_follows type op args).bind fun _ => .pure _

theorem own_follows (type : TypeVar) (value : Version) : Follows (own type value) (own type value) := by
  refine .present_bind fun s => ?_
  dsimp only
  split
  · exact emitInto_follows type .copy [value]
  · exact .pure value

theorem evaluateConstant_follows (context : LowerContext) (e : Expr TypeVar) :
    Follows (evaluateConstant context e) (evaluateConstant context e) := by
  unfold evaluateConstant
  cases context.evaluate e with
  | ok c => exact addConstant_follows c
  | error e => exact .throw e

theorem evaluateArms_follows (context : LowerContext) (arms : List (Expr TypeVar × List (Expr TypeVar))) :
    Follows (evaluateArms context arms) (evaluateArms context arms) := by
  induction arms with
  | nil => exact .pure _
  | cons arm arms ih => exact (evaluateConstant_follows context arm.1).bind fun _ => ih.bind fun _ => .pure _

theorem resolved_follows (target : Target) (span : Span) :
    Follows (resolved target span) (resolved target span) := by
  cases target with
  | resolved path variant => exact .pure _
  | pending i => exact .throw _

theorem memberType_follows (context : LowerContext) (object : TypeVar) (name : String) (span : Span) :
    Follows (memberType context object name span) (memberType context object name span) := by
  unfold memberType
  cases context.graph.kind object with
  | object members isOpen order =>
    dsimp only
    cases members.get? name with
    | some v => exact .pure v
    | none => exact .throw _
  | _ => exact .throw _

theorem asValue_follows (type : TypeVar) {x : TraceM (Option Version)} {y : LowerM (Option Version)}
    (hx : Follows x y) : Follows (asValue type x) (asValue type y) := by
  refine hx.bind fun v? => ?_
  cases v? with
  | some v => exact .pure v
  | none => exact emitInto_follows type (.load .unit) []

theorem captureAll_follows (captures : List (String × TypeVar)) :
    Follows (captureAll captures) (captureAll captures) := by
  induction captures with
  | nil => exact .pure _
  | cons capture captures ih =>
    refine (find_follows capture.1).bind fun v? => ?_
    cases v? with
    | some v => exact (markCaptured_follows v).bind fun _ => ih.bind fun _ => .pure _
    | none => exact (emitInto_follows _ _ _).bind fun _ => ih.bind fun _ => .pure _

theorem loadGlobal_follows (context : LowerContext) (type : TypeVar) (path : Path) (variant : Nat) (span : Span) :
    Follows (loadGlobal context type path variant span) (loadGlobal context type path variant span) := by
  unfold loadGlobal
  cases globalVariant? context.symbols context.variants path variant with
  | none => exact .throw _
  | some found =>
    obtain ⟨_, ⟨_, _, _ | _ | ⟨value, _⟩⟩⟩ := found
    · exact emitInto_follows _ _ _
    · exact emitInto_follows _ _ _
    · refine .present_bind fun s => ?_
      cases s.hoisted.lookup (path, variant) with
      | some id => exact emitInto_follows _ _ _
      | none =>
        exact (evaluateConstant_follows context value).bind fun id =>
          (hoist_follows path variant id).bind fun _ => emitInto_follows _ _ _

theorem unwrapVariant_follows (type : TypeVar) (value : Version) (name : String) :
    Follows (unwrapVariant type value name) (unwrapVariant type value name) :=
  (newSlot_follows type false).bind fun _ => (emit_follows _).bind fun _ => .pure _

/-! ### Blocks and bodies -/

/-- A block is entered and left again, after which the names visible before it still stand for versions that exist. -/
theorem inBlock_followsAt (hs : s.Separate) (hx : FollowsAt { s with code := #[] } x y)
    (howns : ∀ {a s₁}, y { s with code := #[] } = .ok a s₁ → ∀ {v}, s.Owns v → s₁.Owns v) :
    FollowsAt s (inBlock x) (inBlock y) := by
  have henter : Lowering.Separate { s with code := #[] } := hs.of_names_eq rfl (Lowering.owns_congr rfl).2
  refine .present_bind hs ?_
  refine FollowsAt.bind (.of_note (fun _ => rfl) rfl henter) fun h _ => ?_
  obtain rfl := change_eq_ok_iff.1 h
  refine hx.bind fun {a s₁} h hs₁ => ?_
  refine .present_bind hs₁ ?_
  have hleave : Lowering.Separate { s₁ with code := s.code, names := s.names } :=
    hs.of_names_eq rfl fun hv => (Lowering.owns_congr rfl).2 (howns h hv)
  exact FollowsAt.bind (.of_note (fun _ => rfl) rfl hleave) fun h hs' => .pure hs' _

theorem inBlock_follows {fp : Footprint} (hy : LowersBlock fp y) (hx : Follows x y) :
    Follows (inBlock x) (inBlock y) where
  start {s} hs := by
    have henter : Lowering.Separate { s with code := #[] } := hs.of_names_eq rfl (Lowering.owns_congr rfl).2
    exact inBlock_followsAt hs (hx.start henter) fun h v hv => (hy henter h).1.owns hv

theorem declare_new_followsAt (hs : s.Separate) {type : TypeVar} {isArgument : Bool} {v : Version} (name : String)
    (around : Array Instr) (h : newSlot type isArgument s = .ok v s') :
    FollowsAt { s' with code := around } (declare name v) (declare name v) := by
  obtain ⟨rfl, rfl⟩ := newSlot_eq_ok_iff.1 h
  have hs' : Lowering.Separate
      { s with slots := s.slots.push ⟨type, isArgument, false, 1⟩, code := around } :=
    hs.of_names_eq rfl fun h => (Lowering.owns_push rfl).2 (.inl h)
  refine bind_followsAt hs' ((Lowering.owns_push rfl).2 (.inr ⟨rfl, Nat.one_pos⟩)) fun {n w} hw heq => ?_
  exact absurd heq (Nat.ne_of_lt (hs.owned hw).lt_size)

theorem bindParams_follows (params : List (String × TypeVar)) :
    Follows (bindParams params) (bindParams params) := by
  induction params with
  | nil => exact .pure _
  | cons param params ih =>
    exact ⟨fun hs => ((newSlot_follows param.2 true).start hs).bind fun h _ =>
      (declare_new_followsAt hs param.1 _ h).bind fun _ hs' => ih.start hs'⟩

theorem inBody_follows (params : List String) (args : List TypeVar) {x : TraceM Unit} {y : LowerM Unit}
    (hx : Follows x y) : Follows (inBody params args x) (inBody params args y) where
  start {s} hs := by
    refine .present_bind hs ?_
    refine FollowsAt.bind (.of_note (fun _ => rfl) rfl (bodyStart_separate s)) fun _ hs₁ => ?_
    refine ((bindParams_follows _).start hs₁).bind fun _ hs₂ => (hx.start hs₂).bind fun _ hs₃ => ?_
    refine .present_bind hs₃ ?_
    have hleave (inner : Lowering) :
        Lowering.Separate { inner with slots := s.slots, code := s.code, names := s.names } :=
      hs.of_names_eq rfl (Lowering.owns_congr rfl).2
    exact FollowsAt.bind (.of_note (fun _ => rfl) rfl (hleave _)) fun _ hs' => .pure hs' _

/-! ### Declarations and assignments -/

theorem define_follows {fp : Footprint} {value : TraceM Version} {value' : LowerM Version} (type : TypeVar)
    (name : String) (hlowers : LowersValue fp value') (hvalue : Follows value value') :
    Follows (do
      let v ← value
      declare name (← own type v)
      return (none : Option Version)) (do
      let v ← value'
      declare name (← own type v)
      return none) where
  start hs := by
    refine (hvalue.start hs).bind fun {v s₁} hv hs₁ => ?_
    refine ((own_follows type v).start hs₁).bind fun {w s₂} hown hs₂ => ?_
    obtain ⟨-, hgives⟩ := hlowers hs hv
    obtain ⟨-, howned, -, hfree⟩ := own_spec hs₁ ((hlowers hs hv).1.size_le) (hgives v rfl) hown
    exact (bind_followsAt hs₂ howned fun hw heq => absurd heq (hfree hw)).bind fun _ hs₃ => .pure hs₃ _

theorem declare_follows (type : TypeVar) (name : String) :
    Follows (do declare name (← newSlot type false); return (none : Option Version))
      (do declare name (← newSlot type false); return none) :=
  ⟨fun hs => ((newSlot_follows type false).start hs).bind fun h _ =>
    (declare_new_followsAt hs name _ h).bind fun _ hs' => .pure hs' _⟩

theorem reassign_followsAt {name : String} {earlier : Version} (hs : s.Separate)
    (hname : s.names.get? name = some earlier) (i : Version → Instr) :
    FollowsAt s (do let next ← nextVersion earlier; emit (i next); LowerM.bind name next)
      (do let next ← nextVersion earlier; emit (i next); LowerM.bind name next) := by
  refine ((nextVersion_follows earlier).start hs).bind fun hnext hs₁ => ?_
  refine ((emit_follows _).start hs₁).bind fun hemit hs₂ => ?_
  obtain ⟨slot, hslot, -⟩ := hs.owned hname
  obtain ⟨rfl, rfl⟩ := nextVersion_eq_ok_iff.1 hnext
  obtain rfl := emit_eq_ok_iff.1 hemit
  exact bind_followsAt hs₂ ((Lowering.owns_next hslot rfl).2 (.inr (by simp [hslot])))
    fun hw heq => hs.distinct hw hname heq

theorem assign_follows (name : String) (v : Version) :
    Follows (do
      match ← find name with
      | some earlier => do
        let next ← nextVersion earlier
        emit (.op .copy [v] (some next))
        LowerM.bind name next
      | none => emit (.op (.writeCapture name) [v] none)
      return (none : Option Version)) (do
      match ← find name with
      | some earlier => do
        let next ← nextVersion earlier
        emit (.op .copy [v] (some next))
        LowerM.bind name next
      | none => emit (.op (.writeCapture name) [v] none)
      return none) where
  start hs := by
    refine ((find_follows name).start hs).bind fun {v? s₁} hlookup hs₁ => ?_
    obtain ⟨hname, rfl⟩ := find_eq_ok_iff.1 hlookup
    cases v? with
    | some earlier =>
      have h := (reassign_followsAt hs hname fun next => .op .copy [v] (some next)).bind
        fun _ hs' => FollowsAt.pure hs' (none : Option Version)
      simpa only [bind_assoc] using h
    | none => exact ((emit_follows _).bind fun _ => .pure _).start hs

/-! ### Branches -/

theorem joinName_followsAt {arms : List (Row Version)} {name : String} {earlier : Version} (hs : s.Separate)
    (hname : s.names.get? name = some earlier) (hends : ∀ arm ∈ arms, s.Owns (endVersion name earlier arm)) :
    FollowsAt s (joinName arms name earlier) (joinName arms name earlier) := by
  unfold joinName
  cases hvs : endVersions name earlier arms with
  | nil => exact .pure hs _
  | cons only rest =>
    cases rest with
    | nil =>
      obtain ⟨arm, harm, rfl⟩ := mem_endVersions.1 (hvs ▸ List.mem_singleton.2 rfl)
      dsimp only
      split
      · exact .pure hs _
      · exact bind_followsAt hs (hends arm harm) fun hw heq => hs.distinct hw hname (heq.trans endVersion_slot)
    | cons other rest => exact reassign_followsAt hs hname fun next => .op .phi (only :: other :: rest) (some next)

theorem joinNames_followsAt {arms : List (Row Version)} {entries : List (String × Version)} (hs : s.Separate)
    (hnodup : entries.Pairwise fun e e' => e.1 ≠ e'.1) (hnames : ∀ e ∈ entries, s.names.get? e.1 = some e.2)
    (hends : ∀ e ∈ entries, ∀ arm ∈ arms, s.Owns (endVersion e.1 e.2 arm)) :
    FollowsAt s (joinNames arms entries) (joinNames arms entries) := by
  induction entries generalizing s with
  | nil => exact .pure hs _
  | cons e entries ih =>
    obtain ⟨name, earlier⟩ := e
    obtain ⟨hne, hnodup⟩ := List.pairwise_cons.1 hnodup
    have hname : s.names.get? name = some earlier := hnames _ List.mem_cons_self
    have hends' := hends _ List.mem_cons_self
    refine (joinName_followsAt hs hname hends').bind fun h hs₁ => ?_
    obtain ⟨phis, hjoined⟩ := Joined.of_joinName hname (hs.owned hname) hends' h
    refine ih hs₁ hnodup (fun e he => ?_) fun e he arm harm =>
      hjoined.owns (hends e (List.mem_cons_of_mem _ he) arm harm)
    rw [hjoined.others fun e₀ he₀ => by rw [List.mem_singleton.1 he₀]; exact hne e he]
    exact hnames e (List.mem_cons_of_mem _ he)

/-- The arms of a branch are joined if the names at their ends stand for versions that exist. -/
theorem join_followsAt {arms : List (Row Version)} (hs : s.Separate) (harms : ∀ arm ∈ arms, s.OwnsAll arm) :
    FollowsAt s (join arms) (join arms) := by
  have hvisible : ∀ e ∈ s.names.entries, s.names.get? e.1 = some e.2 := fun e he =>
    (Row.mem_entries_iff _).1 he
  refine .present_bind hs (joinNames_followsAt hs ?_ hvisible fun e he arm harm => ?_)
  · exact s.names.sorted.imp fun {e e'} hlt (heq : e.1 = e'.1) => String.lt_irrefl e'.1 (heq ▸ hlt)
  · rcases endVersion_cases e.1 e.2 arm with heq | ⟨hget, -⟩
    · rw [heq]
      exact hs.owned (hvisible e he)
    · exact harms arm harm hget

theorem branchEnd_followsAt {arms : List (Row Version)} (hs : s.Separate) (harms : ∀ arm ∈ arms, s.OwnsAll arm)
    (i : Instr) :
    FollowsAt s (do emit i; join arms; return (none : Option Version))
      (do emit i; join arms; return none) := by
  refine ((emit_follows i).start hs).bind fun hemit hs₁ => ?_
  obtain rfl := emit_eq_ok_iff.1 hemit
  refine (join_followsAt hs₁ fun arm harm _ _ hv => ?_).bind fun _ hs₂ => .pure hs₂ _
  exact (Lowering.owns_congr rfl).2 (harms arm harm hv)

/-- The names at the ends of the arms of a branch stand for versions that exist after the last arm. -/
theorem ownsAll_of_blocks {context : LowerContext} {arms : List BranchArm}
    (hbodies : ∀ arm ∈ arms, LowersBlock (Expr.footprints arm.body) (exprs context arm.body))
    (hs : s.Separate) {lowered : List LoweredArm} (h : blocks context arms s = .ok lowered s') :
    (∀ arm ∈ lowered.map LoweredArm.names, s'.OwnsAll arm) ∧ ∀ {v}, s.Owns v → s'.Owns v := by
  induction arms generalizing s lowered with
  | nil =>
    obtain ⟨rfl, rfl⟩ := pure_eq_ok_iff.1 h
    exact ⟨nofun, id⟩
  | cons arm arms ih =>
    obtain ⟨a, s₂, as, ha, has, rfl⟩ := blocks_cons_eq_ok_iff.1 h
    obtain ⟨s₁, hnames, rfl, hstep⟩ := block_step (hbodies arm List.mem_cons_self) hs ha
    have hs₂ : ({ s₁ with code := s.code, names := s.names } : Lowering).Separate :=
      hs.of_names_eq rfl hstep.owns
    obtain ⟨hrows, howns⟩ := ih (fun arm' harm => hbodies arm' (List.mem_cons_of_mem _ harm)) hs₂ has
    refine ⟨List.forall_mem_cons.2 ⟨fun hv => ?_, hrows⟩, fun hv => howns (hstep.owns hv)⟩
    exact howns (hstep.separate.owned (hnames ▸ hv))

/-- The arm of a match that binds a payload in a new slot. -/
theorem bindingArm_followsAt {fp : Footprint} {x : TraceM Unit} {y : LowerM Unit} (hy : LowersBlock fp y)
    (hx : Follows x y) (hs : s.Separate) {type : TypeVar} {v : Version} (name : String)
    (h : newSlot type false s = .ok v s') :
    FollowsAt s' (inBlock (do declare name v; x)) (inBlock (do declare name v; y)) := by
  have hdeclare := declare_new_followsAt hs name #[] h
  refine inBlock_followsAt (((newSlot_follows type false).start hs).separate h)
    (hdeclare.bind fun _ hs₁ => hx.start hs₁) fun hrun v hv => ?_
  obtain ⟨⟨⟩, s₁, hbound, hrun⟩ := bind_eq_ok_iff.1 hrun
  have hs₁ := hdeclare.separate hbound
  obtain rfl := declare_eq_ok_iff.1 hbound
  exact (hy hs₁ hrun).1.owns hv

theorem shortCircuit_follows {fp : Footprint} {left right : TraceM Version} {left' right' : LowerM Version}
    (type : TypeVar) (stop : Bool) (hlowers : LowersValue fp right') (hleft : Follows left left')
    (hright : Follows right right') :
    Follows (shortCircuit type stop left right) (shortCircuit type stop left' right') :=
  hleft.bind fun _ => (newSlot_follows type false).bind fun _ => (addConstant_follows _).bind fun _ =>
    (inBlock_follows hlowers.block hright).bind fun _ => (nextVersion_follows _).bind fun _ =>
      (emit_follows _).bind fun _ => (nextVersion_follows _).bind fun _ => (emit_follows _).bind fun _ => .pure _

/-! ### Expressions -/

mutual

theorem expr_follows (context : LowerContext) :
    (e : Expr TypeVar) → Follows (expr context e) (expr context e)
  | .literal m value => emitSome_follows _ _ _
  | .name m path => .throw _
  | .localVar m name => by
    refine (find_follows name).bind fun v? => ?_
    cases v? with
    | some v => exact .pure _
    | none => exact emitSome_follows _ _ _
  | .global m target =>
    (resolved_follows target m.span).bind fun p =>
      (loadGlobal_follows context m.note p.1 p.2 m.span).bind fun _ => .pure _
  | .procedure m target => .throw _
  | .invoke m target args =>
    (resolved_follows target m.span).bind fun _ => (values_follows context args).bind fun _ =>
      emitSome_follows _ _ _
  | .call m callee args =>
    (asValue_follows _ (expr_follows context callee)).bind fun _ =>
      (values_follows context args).bind fun _ => emitSome_follows _ _ _
  | .method m receiver name args =>
    (asValue_follows _ (expr_follows context receiver)).bind fun _ =>
      (memberType_follows context _ _ _).bind fun _ => (emitInto_follows _ _ _).bind fun _ =>
        (values_follows context args).bind fun _ => emitSome_follows _ _ _
  | .closure m params body (some info) =>
    (captureAll_follows _).bind fun _ => (inBody_follows params info.args (exprs_follows context body)).bind fun _ =>
      (newSlot_follows _ _).bind fun _ => (emit_follows _).bind fun _ => .pure _
  | .closure m params body none => .throw _
  | .define m name _ value =>
    define_follows m.note name (asValue_lowers _ (expr_lowers context value))
      (asValue_follows _ (expr_follows context value))
  | .declare m name _ => declare_follows m.note name
  | .assign m target value => by
    have hvalue := asValue_follows value.note (expr_follows context value)
    cases target with
    | localVar t name => exact hvalue.bind fun v => assign_follows name v
    | member t owner name =>
      exact hvalue.bind fun _ => (asValue_follows _ (expr_follows context owner)).bind fun _ =>
        (emit_follows _).bind fun _ => .pure _
    | element t owner index =>
      exact hvalue.bind fun _ => (asValue_follows _ (expr_follows context owner)).bind fun _ =>
        (asValue_follows _ (expr_follows context index)).bind fun _ => (emit_follows _).bind fun _ => .pure _
    | global t target =>
      cases target with
      | pending | resolved => exact hvalue.bind fun _ => (Follows.throw _).bind fun _ => .pure _
    | _ => exact hvalue.bind fun _ => (Follows.throw _).bind fun _ => .pure _
  | .giveBack m value =>
    (asValue_follows _ (expr_follows context value)).bind fun _ => (emit_follows _).bind fun _ => .pure _
  | .object m members => (namedValues_follows context members).bind fun _ => emitSome_follows _ _ _
  | .array m elements => (values_follows context elements).bind fun _ => emitSome_follows _ _ _
  | .repeated m value size =>
    (asValue_follows _ (expr_follows context value)).bind fun _ =>
      (asValue_follows _ (expr_follows context size)).bind fun _ => emitSome_follows _ _ _
  | .member m owner name => (asValue_follows _ (expr_follows context owner)).bind fun _ => emitSome_follows _ _ _
  | .element m owner index =>
    (asValue_follows _ (expr_follows context owner)).bind fun _ =>
      (asValue_follows _ (expr_follows context index)).bind fun _ => emitSome_follows _ _ _
  | .binary m op left right => by
    have hleft := asValue_follows left.note (expr_follows context left)
    have hright := asValue_follows right.note (expr_follows context right)
    have hlowers := asValue_lowers right.note (expr_lowers context right)
    cases op with
    | and | or => exact (shortCircuit_follows m.note _ hlowers hleft hright).bind fun _ => .pure _
    | _ => exact hleft.bind fun _ => hright.bind fun _ => emitSome_follows _ _ _
  | .unary m op operand =>
    (asValue_follows _ (expr_follows context operand)).bind fun _ => emitSome_follows _ _ _
  | .variant m name payload =>
    (asValue_follows _ (expr_follows context payload)).bind fun _ => emitSome_follows _ _ _
  | .unwrap m value name =>
    (asValue_follows _ (expr_follows context value)).bind fun _ =>
      (unwrapVariant_follows _ _ _).bind fun _ => .pure _
  | .constant m value => (evaluateConstant_follows context value).bind fun _ => emitSome_follows _ _ _
  | .ifElse m condition yes no => by
    refine (asValue_follows _ (expr_follows context condition)).bind fun _ =>
      (addConstant_follows _).bind fun _ => ⟨fun {s} hs => ?_⟩
    have hyes := inBlock_follows (exprs_lowers context yes) (exprs_follows context yes)
    have hno := inBlock_follows (exprs_lowers context no) (exprs_follows context no)
    refine (hyes.start hs).bind fun {p _} hyes hs₁ => (hno.start hs₁).bind fun {q _} hno hs₂ => ?_
    obtain ⟨_, yesCode, yesNames⟩ := p
    obtain ⟨_, noCode, noNames⟩ := q
    have hnone : blocks context [] s = .ok [] s := rfl
    have hends := (ownsAll_of_blocks (fun arm _ => exprs_lowers context arm.body) hs
      (blocks_snoc (blocks_snoc hnone hyes) hno)).1
    exact branchEnd_followsAt hs₂ hends _
  | .matchValue m value arms otherwise => by
    refine (asValue_follows _ (expr_follows context value)).bind fun _ =>
      (evaluateArms_follows context arms).bind fun _ => ⟨fun {s} hs => ?_⟩
    have hlast := inBlock_follows (exprs_lowers context otherwise) (exprs_follows context otherwise)
    refine ((valueArms_follows context arms).start hs).bind fun {bodies _} harms hs₁ =>
      (hlast.start hs₁).bind fun {q _} hlast hs₂ => ?_
    obtain ⟨_, lastCode, lastNames⟩ := q
    obtain ⟨bs, hbs, rfl, -⟩ := valueArms_eq_ok harms
    have hends := (ownsAll_of_blocks (fun arm _ => exprs_lowers context arm.body) hs
      (blocks_snoc hbs hlast)).1
    refine branchEnd_followsAt hs₂ ?_ _
    simpa [Function.comp_def] using hends
  | .matchVariant m value arms (some otherwise) => by
    refine (asValue_follows _ (expr_follows context value)).bind fun _ => ⟨fun {s} hs => ?_⟩
    have hlast := inBlock_follows (exprs_lowers context otherwise) (exprs_follows context otherwise)
    refine ((variantArms_follows context arms).start hs).bind fun {bodies _} harms hs₁ =>
      (hlast.start hs₁).bind fun {q _} hlast hs₂ => ?_
    obtain ⟨_, lastCode, lastNames⟩ := q
    obtain ⟨bs, hbs, -, hnames⟩ := variantArms_eq_ok harms
    have hends := (ownsAll_of_blocks (fun arm _ => exprs_lowers context arm.body) hs
      (blocks_snoc hbs hlast)).1
    refine branchEnd_followsAt hs₂ ?_ _
    rw [hnames]
    simpa using hends
  | .matchVariant m value arms none => by
    refine (asValue_follows _ (expr_follows context value)).bind fun _ => ⟨fun {s} hs => ?_⟩
    refine ((variantArms_follows context arms).start hs).bind fun harms hs₁ => ?_
    obtain ⟨bs, hbs, -, hnames⟩ := variantArms_eq_ok harms
    refine branchEnd_followsAt hs₁ ?_ _
    rw [hnames]
    exact (ownsAll_of_blocks (fun arm _ => exprs_lowers context arm.body) hs hbs).1

theorem exprs_follows (context : LowerContext) : (es : List (Expr TypeVar)) →
    Follows (exprs context es) (exprs context es)
  | [] => .pure _
  | e :: rest => (expr_follows context e).bind fun _ => exprs_follows context rest

theorem values_follows (context : LowerContext) : (es : List (Expr TypeVar)) →
    Follows (values context es) (values context es)
  | [] => .pure _
  | e :: rest =>
    (asValue_follows _ (expr_follows context e)).bind fun _ => (values_follows context rest).bind fun _ => .pure _

theorem namedValues_follows (context : LowerContext) : (es : List (String × Expr TypeVar)) →
    Follows (namedValues context es) (namedValues context es)
  | [] => .pure _
  | (_, e) :: rest =>
    (asValue_follows _ (expr_follows context e)).bind fun _ => (namedValues_follows context rest).bind fun _ => .pure _

theorem valueArms_follows (context : LowerContext) : (arms : List (Expr TypeVar × List (Expr TypeVar))) →
    Follows (valueArms context arms) (valueArms context arms)
  | [] => .pure _
  | (_, body) :: rest =>
    (inBlock_follows (exprs_lowers context body) (exprs_follows context body)).bind fun _ =>
      (valueArms_follows context rest).bind fun _ => .pure _

theorem variantArms_follows (context : LowerContext) : (arms : List (VariantArm TypeVar (List (Expr TypeVar)))) →
    Follows (variantArms context arms) (variantArms context arms)
  | [] => .pure _
  | ⟨_, some name, payload, body⟩ :: rest =>
    ⟨fun hs => ((newSlot_follows payload false).start hs).bind fun h _ =>
      (bindingArm_followsAt (exprs_lowers context body) (exprs_follows context body) hs name h).bind
        fun _ hs' => ((variantArms_follows context rest).bind fun _ => .pure _).start hs'⟩
  | ⟨_, none, _, body⟩ :: rest =>
    (inBlock_follows (exprs_lowers context body) (exprs_follows context body)).bind fun _ =>
      (variantArms_follows context rest).bind fun _ => .pure _

end

/-! ### Programs -/

theorem procedureVariants_follows (context : LowerContext) (path : Path) (params : List String) (i : Nat)
    (variants : List Variant) :
    Follows (procedureVariants context path params i variants)
      (procedureVariants context path params i variants) := by
  induction variants generalizing i with
  | nil => exact .pure _
  | cons v rest ih =>
    unfold procedureVariants
    cases v.body with
    | none => exact ih (i + 1)
    | some body =>
      exact (inBody_follows params v.args (exprs_follows context body)).bind fun _ =>
        (ih (i + 1)).bind fun _ => .pure _

theorem procedures_follows (context : LowerContext) (id : Nat) (symbols : List Symbol) :
    Follows (procedures context id symbols) (procedures context id symbols) := by
  induction symbols generalizing id with
  | nil => exact .pure _
  | cons symbol rest ih =>
    unfold procedures
    cases symbol.declaration.params? with
    | none => exact (Follows.pure _).bind fun _ => (ih (id + 1)).bind fun _ => .pure _
    | some params =>
      exact (procedureVariants_follows context _ params 0 _).bind fun _ => (ih (id + 1)).bind fun _ => .pure _

end TraceM

/-- **Visible names live in slots of their own throughout.** Noting every state that an operation leads to does not
change what a program is lowered to. In each of these states, inside blocks, operands and closures as well, every
visible name stands for a version that exists in the slots of the body around, and different names stand for versions
in different slots. -/
theorem traceLower_separate (context : LowerContext) :
    (traceLower context).1 = lower context ∧
      ∀ s ∈ (traceLower context).2,
        (∀ n v, s.names.get? n = some v → ∃ slot, s.slots[v.slot]? = some slot ∧ v.version < slot.versions) ∧
          ∀ n m v w, s.names.get? n = some v → s.names.get? m = some w → n ≠ m → v.slot ≠ w.slot := by
  have hstart : Lowering.Separate ⟨.empty, [], #[], #[], .empty⟩ := ⟨fun h => (nomatch h), fun h => (nomatch h)⟩
  obtain ⟨more, hmore, hrun⟩ :=
    ((TraceM.procedures_follows context 0 context.symbols.symbols.toList).start hstart).run []
  rw [List.append_nil] at hrun
  have hsame : (traceLower context).1 = lower context ∧ (traceLower context).2 = more := by
    unfold traceLower lower
    rw [hrun]
    cases LowerM.procedures context 0 context.symbols.symbols.toList (⟨.empty, [], #[], #[], .empty⟩ : Lowering) <;>
      exact ⟨rfl, rfl⟩
  refine ⟨hsame.1, fun s hs => ?_⟩
  have hseparate := hmore s (hsame.2 ▸ hs)
  exact ⟨fun n v h => hseparate.owned h, fun n m v w h h' hne heq => hne (hseparate.distinct h h' heq)⟩

/-- The visible names and their slots at every point, where a local is declared as the copy of another one and a
closure follows. -/
example :
    let x : Expr TypeVar := .localVar default "x"
    let body : List (Expr TypeVar) := [.define default "x" false (.literal default (.integer 1)),
      .define default "y" false x,
      .closure default ["z"] [.giveBack default x] (some ⟨[default], default, .empty⟩)]
    let context : LowerContext := ⟨⟨#[⟨.single "main", default, .procedure [] []⟩], .modules⟩,
      #[[⟨[], default, some body⟩]], default, fun _ => .error default⟩
    ((traceLower context).2.reverse.map fun s => s.names.entries.map fun e => (e.1, e.2.slot)).eraseReps =
      [[], [("x", 0)], [("x", 0), ("y", 1)], [], [("z", 0)], [("x", 0), ("y", 1)], []] := by
  intro x body context
  cbv

end Monomorph
