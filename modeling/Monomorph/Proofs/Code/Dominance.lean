import Monomorph.Proofs.Code.Paths

/-! # Steps that read what is defined

Each step of lowering, whatever the state is, reads only what it is given, what names stand for and what its own
code defined before on the path (`Dominates`). A path takes one arm of a branch, so after the join a name may only
stand for what it stood for before, for a merge, or for a version in which all arms end (`LowerM.joinName_code`);
that is why the names at the end of whatever arm was taken carry the property over the join (`Branched.dominated`). -/

namespace Monomorph

open Outcome

/-- A computation that lowers something of no value. -/
abbrev DominatesBlock (unset : Prop) {α : Type} (shapes : List Shape) (known : Set Version) (x : LowerM α) : Prop :=
  Dominates unset shapes known (fun _ => ∅) x

/-- A computation that lowers something to a value. -/
abbrev DominatesValue (unset : Prop) (shapes : List Shape) (known : Set Version) (x : LowerM Version) : Prop :=
  Dominates unset shapes known (fun v => {v}) x

/-- A computation that lowers something that may have no value of its own. -/
abbrev DominatesExpr (unset : Prop) (shapes : List Shape) (known : Set Version) (x : LowerM (Option Version)) :
    Prop :=
  Dominates unset shapes known (fun r => {v | v ∈ r}) x

/-- A computation that lowers several things to values. -/
abbrev DominatesList (unset : Prop) (shapes : List Shape) (known : Set Version) (x : LowerM (List Version)) : Prop :=
  Dominates unset shapes known (fun vs => {v | v ∈ vs}) x

namespace Lowering

variable {s s' : Lowering} {v : Version} {name : String}

theorem visible_congr (hnames : s'.names = s.names) : s'.visible = s.visible := by
  rw [visible, hnames]
  rfl

theorem visible_insert (hnames : s'.names = s.names.insert name v) : s'.visible ⊆ {v} ∪ s.visible := by
  rintro w ⟨n, hw⟩
  rw [hnames, Row.get?_insert] at hw
  split at hw
  · exact .inl (Option.some.inj hw).symm
  · exact .inr ⟨n, hw⟩

end Lowering

namespace LowerM

variable {α : Type} {unset : Prop} {known : Set Version} {shapes : List Shape} {v : Version}

/-! ### Steps -/

theorem dominates_of_eq {x : LowerM α} (h : ∀ {s a s'}, x s = .ok a s' →
    s'.slots = s.slots ∧ s'.code = s.code ∧ s'.names = s.names) : DominatesBlock unset [] known x :=
  .silent (assigns_of_eq h) fun hrun => ⟨(h hrun).2.1, (h hrun).2.2, Set.empty_subset _⟩

theorem get_dominates : DominatesBlock unset [] known (get : LowerM Lowering) :=
  dominates_of_eq fun h => by
    obtain ⟨-, rfl⟩ := get_eq_ok_iff.1 h
    exact ⟨rfl, rfl, rfl⟩

theorem find_dominates (name : String) : DominatesExpr unset [] known (LowerState.find name) :=
  .silent (find_assigns name) fun h => by
    obtain ⟨hr, rfl⟩ := find_eq_ok_iff.1 h
    exact ⟨rfl, rfl, fun v hv => .inl ⟨name, hr.trans hv⟩⟩

/-- A new slot: its first version is one that nothing has defined yet. -/
theorem newSlot_dominates (type : TypeVar) (h : unset) : DominatesValue unset [] known (newSlot type false) where
  assigns := newSlot_assigns type
  paths s v s' code _ _ hnew hcode := by
    obtain ⟨rfl, rfl⟩ := newSlot_eq_ok_iff.1 hnew
    obtain rfl : code = [] := by simpa using hcode
    refine .nil (Set.union_subset (fun w hw => .inl (.inl hw))
      (Set.singleton_subset_iff.2 (.inr ⟨h, rfl, ?_, ?_, nofun⟩)))
    · exact fun howned => Nat.lt_irrefl _ howned.lt_size
    · exact (Lowering.owns_push rfl).2 (.inr ⟨rfl, Nat.one_pos⟩)

theorem bind_dominates (name : String) (hv : v ∈ known) : DominatesBlock unset [] known (LowerM.bind name v) where
  assigns := bind_assigns name hv
  paths s u s' code _ _ h hcode := by
    obtain rfl := bind_eq_ok_iff.1 h
    obtain rfl : code = [] := by simpa using hcode
    refine .nil (Set.union_subset ((Lowering.visible_insert rfl).trans (Set.union_subset ?_ ?_)) (Set.empty_subset _))
    · exact Set.singleton_subset_iff.2 (.inl (.inr hv))
    · exact fun w hw => .inl (.inl hw)

/-- An instruction without arms, added by a computation that changes no names. -/
theorem dominates_of_emits {result : α → Set Version} {x : LowerM α} (hassigns : Assigns known result x)
    (hx : ∀ {s a s'}, x s = .ok a s' → ∃ i : Instr, i.arms = [] ∧ s'.code.toList = s.code.toList ++ [i] ∧
      s'.names = s.names ∧ (∀ v ∈ i.reads, v ∈ known) ∧ ∀ v ∈ result a, v ∈ i.defines) :
    Dominates unset [] known result x where
  assigns := hassigns
  paths s a s' code _ _ h hcode := by
    obtain ⟨i, hi, hemits, hnames, hreads, hresult⟩ := hx h
    obtain rfl : code = [i] := List.append_cancel_left (hcode.symm.trans hemits)
    refine .one hi (fun v hv => .inr (hreads v hv)) (Set.union_subset ?_ fun v hv => .inr (hresult v hv))
    rw [Lowering.visible_congr hnames]
    exact fun v hv => .inl (.inl hv)

theorem reads_op (op : Op) (args : List Version) (dest : Option Version) :
    ∀ v ∈ (Instr.op op args dest).reads, v ∈ args := by
  cases op with
  | phi => exact nofun
  | _ => exact fun v => id

theorem emit_dominates (op : Op) (args : List Version) (hop : op ≠ .phi) (hargs : ∀ v ∈ args, v ∈ known) :
    DominatesBlock unset [] known (emit (.op op args none)) :=
  dominates_of_emits (emit_assigns op args hop hargs) fun h => by
    obtain rfl := emit_eq_ok_iff.1 h
    exact ⟨_, rfl, Array.toList_push, rfl, fun v hv => hargs v (reads_op _ _ _ v hv), nofun⟩

theorem emitInto_dominates (type : TypeVar) (op : Op) (args : List Version) (hop : op ≠ .phi)
    (hargs : ∀ v ∈ args, v ∈ known) : DominatesValue unset [] known (emitInto type op args) :=
  dominates_of_emits (emitInto_assigns type op args hop hargs) fun h => by
    obtain ⟨rfl, rfl⟩ := emitInto_eq_ok_iff.1 h
    exact ⟨_, rfl, Array.toList_push, rfl, fun v hv => hargs v (reads_op _ _ _ v hv),
      fun v hv => List.mem_singleton.2 (Set.mem_singleton_iff.1 hv)⟩

/-- The next version of the slot of `v` is defined, and a name stands for it. -/
theorem redefine_dominates (name : String) (op : Op) (args : List Version) (hop : op ≠ .phi) (hv : v ∈ known)
    (hargs : ∀ w ∈ args, w ∈ known) : DominatesBlock unset [] known (do
      let next ← nextVersion v
      emit (.op op args (some next))
      LowerM.bind name next) where
  assigns := redefine_assigns name op args hv hargs fun _ _ h => absurd h hop
  paths s u s' code _ _ h hcode := by
    obtain ⟨next, s₁, hnext, h⟩ := Outcome.bind_eq_ok_iff.1 h
    obtain ⟨⟨⟩, s₂, hemit, h⟩ := Outcome.bind_eq_ok_iff.1 h
    obtain ⟨-, rfl⟩ := nextVersion_eq_ok_iff.1 hnext
    obtain rfl := emit_eq_ok_iff.1 hemit
    obtain rfl := bind_eq_ok_iff.1 h
    obtain rfl : code = [.op op args (some next)] := List.append_cancel_left (hcode.symm.trans Array.toList_push)
    refine .one rfl (fun w hw => .inr (hargs w (reads_op _ _ _ w hw)))
      (Set.union_subset ((Lowering.visible_insert rfl).trans (Set.union_subset ?_ ?_)) (Set.empty_subset _))
    · exact Set.singleton_subset_iff.2 (.inr (List.mem_singleton.2 rfl))
    · exact fun w hw => .inl (.inl hw)

/-! ### Parts of expressions -/

theorem emitInto_some_dominates (type : TypeVar) (op : Op) (args : List Version) (hop : op ≠ .phi)
    (hargs : ∀ v ∈ args, v ∈ known) : DominatesExpr unset [] known (do return some (← emitInto type op args)) :=
  (emitInto_dominates type op args hop hargs).bind fun _ => .pure fun _ hv => .inl (Option.some.inj hv).symm

theorem asValue_dominates (type : TypeVar) {x : LowerM (Option Version)} (hx : DominatesExpr unset shapes known x) :
    DominatesValue unset shapes known (asValue type x) := by
  refine hx.bind_nil fun r => ?_
  cases r with
  | some v => exact .pure fun _ hw => .inl (congrArg some (Set.mem_singleton_iff.1 hw).symm)
  | none => exact emitInto_dominates type (.load .unit) [] nofun nofun

theorem own_dominates (type : TypeVar) (hv : v ∈ known) : DominatesValue unset [] known (own type v) := by
  refine get_dominates.bind fun s => ?_
  dsimp only
  split
  · exact emitInto_dominates type .copy [v] nofun fun w hw => .inr (List.mem_singleton.1 hw ▸ hv)
  · exact .pure fun w hw => .inr (Set.mem_singleton_iff.1 hw ▸ hv)

theorem assign_dominates (name : String) (hv : v ∈ known) :
    DominatesExpr unset [] known (do
      match ← LowerState.find name with
      | some current => do
        let next ← nextVersion current
        emit (.op .copy [v] (some next))
        LowerM.bind name next
      | none => emit (.op (.writeCapture name) [v] none)
      return none) := by
  refine (find_dominates name).bind fun r => ?_
  have harg : ∀ w ∈ [v], w ∈ {w | w ∈ r} ∪ known := fun w hw => .inr (List.mem_singleton.1 hw ▸ hv)
  have hnone {β : Type} {x : LowerM β} (hx : DominatesBlock unset [] ({w | w ∈ r} ∪ known) x) :
      DominatesExpr unset [] ({w | w ∈ r} ∪ known) (x >>= fun _ => pure none) := hx.bind fun _ => .pure_absent
  cases r with
  | some current =>
    have hnext := hnone (redefine_dominates (v := current) name .copy [v] nofun (.inl rfl) harg)
    simpa only [bind_assoc] using hnext
  | none => exact hnone (emit_dominates (.writeCapture name) [v] nofun harg)

theorem localVar_dominates (type : TypeVar) (name : String) :
    DominatesExpr unset [] known (do
      match ← LowerState.find name with
      | some v => return some v
      | none => return some (← emitInto type (.readCapture name) [])) := by
  refine (find_dominates name).bind fun r => ?_
  cases r with
  | some v => exact .pure fun w hw => .inl hw
  | none => exact emitInto_some_dominates type (.readCapture name) [] nofun nofun

theorem markCaptured_dominates (v : Version) : DominatesBlock unset [] known (markCaptured v) :=
  .silent (markCaptured_assigns v) fun h => by
    obtain rfl := modify_eq_ok_iff.1 h
    exact ⟨rfl, rfl, Set.empty_subset _⟩

theorem captureAll_dominates (captures : List (String × TypeVar)) :
    Dominates unset [] known (fun cs => {v | v ∈ cs.map (·.2)}) (captureAll captures) := by
  induction captures generalizing known with
  | nil => exact .pure fun _ hv => nomatch hv
  | cons capture captures ih =>
    obtain ⟨name, type⟩ := capture
    have hrest (v : Version) {known : Set Version} (hv : v ∈ known) :
        Dominates unset [] known (fun cs => {v | v ∈ cs.map (·.2)})
          (do return (name, v) :: (← captureAll captures)) := by
      refine ih.bind fun rest => .pure fun w hw => ?_
      rcases List.mem_cons.1 hw with rfl | hw
      · exact .inr hv
      · exact .inl hw
    have hcapture (r : Option Version) :
        Dominates unset [] ({v | v ∈ r} ∪ known) (fun cs => {v | v ∈ cs.map (·.2)}) (do
          let v ←
            match r with
            | some v => do markCaptured v; pure v
            | none => emitInto type (.readCapture name) []
          return (name, v) :: (← captureAll captures)) := by
      cases r with
      | some v => exact (markCaptured_dominates v).bind fun _ => hrest v (.inr (.inl rfl))
      | none => exact (emitInto_dominates type (.readCapture name) [] nofun nofun).bind fun v => hrest v (.inl rfl)
    exact (find_dominates name).bind hcapture

theorem addConstant_dominates (c : Constant) : DominatesBlock unset [] known (addConstant c) :=
  dominates_of_eq fun h => by
    obtain ⟨-, rfl⟩ := addConstant_eq_ok_iff.1 h
    exact ⟨rfl, rfl, rfl⟩

theorem evaluateConstant_dominates (context : LowerContext) (e : Expr TypeVar) :
    DominatesBlock unset [] known (evaluateConstant context e) := by
  unfold evaluateConstant
  cases context.evaluate e with
  | ok c => exact addConstant_dominates c
  | error e => exact .throw e

theorem loadGlobal_dominates (context : LowerContext) (type : TypeVar) (path : Path) (variant : Nat)
    (span : Span) : DominatesValue unset [] known (loadGlobal context type path variant span) := by
  unfold loadGlobal
  split
  · exact .throw _
  · split
    · refine get_dominates.bind fun s => ?_
      split
      · exact emitInto_dominates type _ [] (by simp) (List.forall_mem_nil _)
      · refine (evaluateConstant_dominates context _).bind fun id => ?_
        refine (dominates_of_eq fun h => ?_).bind fun _ => emitInto_dominates type (.loadConstant id) []
          (by simp) (List.forall_mem_nil _)
        obtain rfl := modify_eq_ok_iff.1 h
        exact ⟨rfl, rfl, rfl⟩
    · exact emitInto_dominates type (.loadExternal path) [] (by simp) (List.forall_mem_nil _)

theorem resolved_dominates (target : Target) (span : Span) :
    DominatesBlock unset [] known (resolved target span) := by
  cases target with
  | pending i => exact .throw _
  | resolved path variant => exact .pure_none

theorem memberType_dominates (context : LowerContext) (object : TypeVar) (name : String) (span : Span) :
    DominatesBlock unset [] known (memberType context object name span) := by
  unfold memberType
  split
  · split
    · exact .pure_none
    · exact .throw _
  · exact .throw _

theorem unwrapVariant_dominates (type : TypeVar) (name : String) (hv : v ∈ known) :
    DominatesValue unset [.branch [[], []]] known (unwrapVariant type v name) where
  assigns := unwrapVariant_assigns type name hv
  paths s w s' code _ _ h hcode := by
    obtain ⟨rfl, rfl⟩ := unwrapVariant_eq_ok_iff.1 h
    obtain rfl := List.append_cancel_left (hcode.symm.trans Array.toList_push)
    refine ⟨rfl, fun hreach u hu => .inl (.inl (.inr ?_)), fun hrun => Set.union_subset ?_ ?_⟩
    · suffices hreads : u ∈ [v] from List.mem_singleton.1 hreads ▸ hv
      rcases hreach.of_singleton with rfl | ⟨k, bound, code, shapes, x, harm, hshapes, hreach⟩
      · exact hu
      · match k with
        | 0 =>
          cases harm
          exact (Reaches.not_nil hreach).elim
        | 1 =>
          cases harm
          obtain rfl := List.mem_singleton.1 (hreach.mem_of_arms_eq_nil fun j hj => List.mem_singleton.1 hj ▸ rfl)
          exact hu
        | k + 2 => cases harm
    · exact fun w hw => .inl (.inl (.inl hw))
    · obtain ⟨k, bound, code, shapes, x, harm, hshapes, hrun⟩ := hrun.exists_arm (by simp [Instr.arms])
      match k with
      | 0 =>
        cases harm
        obtain ⟨-, rfl⟩ := Runs.nil_iff.1 hrun
        exact Set.singleton_subset_iff.2 (.inr (History.mem_defined_payload x))
      | 1 =>
        cases harm
        cases hrun with
        | effect hback => exact absurd rfl hback
      | k + 2 => cases harm

end LowerM

/-! ### Blocks -/

/-- On every path through a lowered block, from the definition of its payload on, whatever is read was defined
before or is among the versions `available`. At its end the same holds of its names. -/
structure LoweredArm.Dominated (available : Set Version) (shapes : List Shape) (arm : LoweredArm) : Prop where
  reads : ∀ {V : Type} {undefined : V} {h h' : History V} {i : Instr} (x : V),
    Reaches undefined arm.code shapes (payloadHistory arm.binding x ++ h) i h' →
    ∀ v ∈ i.reads, v ∈ available ∪ h'.defined
  ends : ∀ {V : Type} {undefined : V} {h h' : History V} (x : V),
    Runs undefined arm.code shapes (payloadHistory arm.binding x ++ h) h' →
    ∀ {n v}, arm.names.get? n = some v → v ∈ available ∪ h'.defined

theorem LoweredArm.Dominated.mono {available available' : Set Version} {shapes : List Shape} {arm : LoweredArm}
    (h : arm.Dominated available shapes) (hsub : available ⊆ available') : arm.Dominated available' shapes where
  reads x hreach v hv := Set.union_subset_union_left _ hsub (h.reads x hreach v hv)
  ends x hrun _ _ hv := Set.union_subset_union_left _ hsub (h.ends x hrun hv)

namespace LowerM

variable {unset : Prop} {context : LowerContext} {s s' : Lowering}

theorem blockStart_adds (s : Lowering) (binding : Option (String × TypeVar)) :
    s.Adds (binding.map fun _ => (⟨s.slots.size, 0⟩ : Version)).toList (blockStart s binding) := by
  cases binding with
  | some bound => exact .push Nat.one_pos rfl rfl
  | none => exact .of_slots_eq rfl

theorem blockStart_bound (hs : s.Bound) (binding : Option (String × TypeVar)) : (blockStart s binding).Bound := by
  have hadds := blockStart_adds s binding
  cases binding with
  | some bound => exact hs.insert hadds rfl (hadds.made _ (List.mem_singleton.2 rfl))
  | none => exact hs.of_names_eq hadds rfl

/-- The names at the start of a block are those around, and that of its payload. -/
theorem visible_blockStart (s : Lowering) (binding : Option (String × TypeVar)) {V : Type} (x : V) (h : History V) :
    (blockStart s binding).visible ⊆
      s.visible ∪ (payloadHistory (binding.map fun _ => (⟨s.slots.size, 0⟩ : Version)) x ++ h).defined := by
  cases binding with
  | some bound =>
    refine (Lowering.visible_insert (s := s) rfl).trans (Set.union_subset ?_ Set.subset_union_left)
    exact Set.singleton_subset_iff.2 (.inr (History.mem_defined_payload x))
  | none => exact fun v hv => .inl hv

theorem block_dominated {arm : BranchArm}
    (hbody : ∀ known, DominatesBlock unset (Expr.footprints arm.body).branches known (exprs context arm.body))
    (hs : s.Bound) {lowered : LoweredArm} (h : block context arm s = .ok lowered s') :
    lowered.Dominated (s.visible ∪ s.blank unset lowered.defines s') arm.footprint.branches := by
  obtain ⟨s₁, hexprs, hcode, hnames, hbinding, rfl⟩ := block_eq_ok h
  have hshapes : arm.footprint.branches = (Expr.footprints arm.body).branches := by
    obtain ⟨binding, body⟩ := arm
    cases binding <;> rfl
  have hstart : s₁.code.toList = (blockStart s arm.binding).code.toList ++ lowered.code := by
    rw [blockStart_code]
    exact hcode
  have hdominated := (hbody ∅).paths (blockStart_bound hs arm.binding) nofun hexprs hstart
  have hblank : (blockStart s arm.binding).blank unset (definedIn lowered.code) s₁ ⊆
      s.blank unset lowered.defines { s₁ with code := s.code, names := s.names } := by
    rw [LoweredArm.defines, hbinding]
    exact Lowering.blank_append_subset (blockStart_adds s arm.binding)
  have hsources {V : Type} {h h' : History V} (x : V) (hsub : payloadHistory lowered.binding x ++ h ⊆ h') :
      (blockStart s arm.binding).sources unset ∅ (definedIn lowered.code) s₁ ∪ h'.defined ⊆
        s.visible ∪ s.blank unset lowered.defines { s₁ with code := s.code, names := s.names } ∪ h'.defined := by
    rw [hbinding] at hsub
    refine Set.union_subset (Set.union_subset (Set.union_subset ?_ (Set.empty_subset _)) ?_) Set.subset_union_right
    · exact (visible_blockStart s arm.binding x h).trans
        (Set.union_subset_union Set.subset_union_left (History.defined_mono hsub))
    · exact fun v hv => .inl (.inr (hblank hv))
  rw [hshapes]
  refine ⟨fun x hreach v hv => ?_, fun x hrun n v hv => ?_⟩
  · exact hsources x hreach.history_subset (hdominated.reads hreach v hv)
  · exact hsources x hrun.history_subset (hdominated.ends hrun (.inl ⟨n, hnames ▸ hv⟩))

theorem blocks_dominated {arms : List BranchArm}
    (hbodies : ∀ arm ∈ arms, ∀ known,
      DominatesBlock unset (Expr.footprints arm.body).branches known (exprs context arm.body))
    (hs : s.Bound) {lowered : List LoweredArm} (h : blocks context arms s = .ok lowered s') :
    List.Forall₂ (fun arm a => a.Dominated (s.visible ∪ s.blank unset (lowered.flatMap LoweredArm.defines) s')
      arm.footprint.branches) arms lowered := by
  induction arms generalizing s lowered with
  | nil =>
    obtain ⟨rfl, rfl⟩ := pure_eq_ok_iff.1 h
    exact .nil
  | cons arm arms ih =>
    obtain ⟨first, s₁, rest, hfirst, hrest, rfl⟩ := blocks_cons_eq_ok_iff.1 h
    have hbody := hbodies arm List.mem_cons_self
    have hothers := fun arm' harm => hbodies arm' (List.mem_cons_of_mem arm harm)
    have hblock := block_assigned (fun known => (hbody known).assigns) hs hfirst
    have hadds : s.Adds first.defines s₁ := List.append_nil first.defines ▸ hblock.adds
    have hs₁ := hs.of_names_eq hblock.adds hblock.names_eq
    have hblocks := blocks_assigned (fun arm' harm known => (hothers arm' harm known).assigns) hs₁ hrest
    refine .cons ((block_dominated hbody hs hfirst).mono ?_) ((ih hothers hs₁ hrest).imp fun _ a ha => ha.mono ?_)
    · exact Set.union_subset_union_right _ (Lowering.blank_subset_append hblocks.adds)
    · exact Set.union_subset_union (Lowering.visible_congr hblock.names_eq).subset
        (Lowering.blank_append_subset hadds)

/-! ### Joins -/

/-- A new version in which all arms end is what the name stands for at the end of each. -/
theorem get?_of_endVersions {arms : List (Row Version)} {name : String} {earlier only : Version}
    (hends : endVersions name earlier arms = [only]) (hne : only ≠ earlier) :
    ∀ arm ∈ arms, arm.get? name = some only := by
  intro arm harm
  have hend : endVersion name earlier arm = only :=
    List.mem_singleton.1 (hends ▸ mem_endVersions.2 ⟨arm, harm, rfl⟩)
  rcases endVersion_cases name earlier arm with hearlier | ⟨hget, -⟩
  · exact absurd (hend.symm.trans hearlier) hne
  · exact hend ▸ hget

/-- Joining merges by code that has no branches. A name stands afterwards for what it stood for, for a merge, or
for the one version that all arms end with. -/
theorem joinName_code {arms : List (Row Version)} {name : String} {earlier : Version} {u : Unit}
    (h : joinName arms name earlier s = .ok u s') :
    ∃ phis, s'.code.toList = s.code.toList ++ phis ∧ (∀ i ∈ phis, i.arms = [] ∧ i.reads = []) ∧
      ∀ {n v}, s'.names.get? n = some v →
        s.names.get? n = some v ∨ v ∈ definedIn phis ∨ ∀ arm ∈ arms, arm.get? n = some v := by
  unfold joinName at h
  cases hends : endVersions name earlier arms with
  | nil =>
    rw [hends] at h
    obtain ⟨-, rfl⟩ := pure_eq_ok_iff.1 h
    exact ⟨[], by simp, nofun, .inl⟩
  | cons only rest =>
    rw [hends] at h
    cases rest with
    | nil =>
      by_cases heq : only = earlier
      · simp only [heq, if_true] at h
        obtain ⟨-, rfl⟩ := pure_eq_ok_iff.1 h
        exact ⟨[], by simp, nofun, .inl⟩
      · simp only [heq, if_false] at h
        obtain rfl := bind_eq_ok_iff.1 h
        refine ⟨[], by simp, nofun, fun {n v} hv => ?_⟩
        rw [Row.get?_insert] at hv
        split at hv
        · rename_i hname
          subst hname
          cases hv
          exact .inr (.inr (get?_of_endVersions hends heq))
        · exact .inl hv
    | cons other rest =>
      obtain ⟨merged, s₁, hnext, h⟩ := Outcome.bind_eq_ok_iff.1 h
      obtain ⟨⟨⟩, s₂, hemit, h⟩ := Outcome.bind_eq_ok_iff.1 h
      obtain ⟨-, rfl⟩ := nextVersion_eq_ok_iff.1 hnext
      obtain rfl := emit_eq_ok_iff.1 hemit
      obtain rfl := bind_eq_ok_iff.1 h
      refine ⟨_, Array.toList_push, fun i hi => ?_, fun {n v} hv => ?_⟩
      · obtain rfl := List.mem_singleton.1 hi
        exact ⟨rfl, rfl⟩
      · rw [Row.get?_insert] at hv
        split at hv
        · cases hv
          exact .inr (.inl List.mem_cons_self)
        · exact .inl hv

theorem joinNames_code {arms : List (Row Version)} {entries : List (String × Version)} {u : Unit}
    (h : joinNames arms entries s = .ok u s') :
    ∃ phis, s'.code.toList = s.code.toList ++ phis ∧ (∀ i ∈ phis, i.arms = [] ∧ i.reads = []) ∧
      ∀ {n v}, s'.names.get? n = some v →
        s.names.get? n = some v ∨ v ∈ definedIn phis ∨ ∀ arm ∈ arms, arm.get? n = some v := by
  induction entries generalizing s with
  | nil =>
    obtain ⟨-, rfl⟩ := pure_eq_ok_iff.1 h
    exact ⟨[], by simp, nofun, .inl⟩
  | cons e entries ih =>
    obtain ⟨⟨⟩, s₁, hfirst, hrest⟩ := Outcome.bind_eq_ok_iff.1 h
    obtain ⟨phis, hcode, hphis, hnames⟩ := joinName_code hfirst
    obtain ⟨phis', hcode', hphis', hnames'⟩ := ih hrest
    refine ⟨phis ++ phis', by rw [hcode', hcode, List.append_assoc], fun i hi => ?_, fun hv => ?_⟩
    · exact (List.mem_append.1 hi).elim (hphis i) (hphis' i)
    · rw [definedIn_append, List.mem_append]
      rcases hnames' hv with hv | hv | hv
      · exact (hnames hv).imp_right (.imp_left .inl)
      · exact .inr (.inl (.inr hv))
      · exact .inr (.inr hv)

/-! ### Branches -/

end LowerM

namespace Branched

variable {unset : Prop} {context : LowerContext} {b : Branch} {s start s' : Lowering} {v : Version}
  {constants : ConstantTable} {i : Instr} {lowered : List LoweredArm} {r : Option Version}

/-- An arm of the instruction that its shape lists is one of the blocks. -/
theorem exists_block {available : Set Version} (h : Branched context b s v start constants i lowered r s')
    (hblocks : List.Forall₂ (fun arm a => a.Dominated available arm.footprint.branches) b.arms lowered) {k : Nat}
    {bound : Option Version} {code : List Instr} {shapes : List Shape} (harm : i.arms[k]? = some (bound, code))
    (hshapes : ((b.arms.map BranchArm.footprint).map Footprint.branches)[k]? = some shapes) :
    ∃ a ∈ lowered, bound = a.binding ∧ code = a.code ∧ a.Dominated available shapes := by
  rw [List.map_map, List.getElem?_map, Option.map_eq_some_iff] at hshapes
  obtain ⟨arm, hk, rfl⟩ := hshapes
  obtain ⟨hlt, rfl⟩ := List.getElem?_eq_some_iff.1 hk
  have hlt' : k < lowered.length := hblocks.length_eq ▸ hlt
  rw [h.arms_eq, LoweredArm.getElem?_codeArms hlt', List.getElem?_eq_getElem hlt'] at harm
  cases harm
  exact ⟨lowered[k], List.getElem_mem hlt', rfl, rfl, hblocks.get hlt hlt'⟩

/-- Whatever the arm is that a path takes: the instruction and its arms read what they may, and so does what comes
after the join. -/
theorem dominated {known : Set Version} (h : Branched context b s v start constants i lowered r s')
    (hs : start.Bound) (hv : start.Owns v) (hknown : v ∈ known) (hreads : i.reads = [v])
    (hbodies : ∀ arm ∈ b.arms, ∀ known,
      DominatesBlock unset (Expr.footprints arm.body).branches known (LowerM.exprs context arm.body))
    {code : List Instr} (hcode : s'.code.toList = start.code.toList ++ code) :
    Dominated unset known (Footprint.branch (b.arms.map BranchArm.footprint)).branches start code s' ∅ := by
  obtain ⟨rfl, s₁, s₂, phis, hblocks, hdefines, hslots, hnames, hbranch, hjoin, hcode₂, hphis, hjoined⟩ :=
    h.assigned hs hv hreads fun arm harm known => (hbodies arm harm known).assigns
  obtain ⟨_, rfl, hjoin⟩ := get_bind_eq_ok_iff.1 hjoin
  obtain ⟨phis', hphis', hmerges, hends⟩ := LowerM.joinNames_code hjoin
  obtain rfl : phis = phis' := List.append_cancel_left (hphis.symm.trans hphis')
  obtain rfl : code = [i] ++ phis := by
    rw [hphis, hcode₂, List.append_assoc] at hcode
    exact (List.append_cancel_left hcode).symm
  have havailable : start.visible ∪ ({ start with constants } : Lowering).blank unset
      (lowered.flatMap LoweredArm.defines) s₁ ⊆ start.sources unset known (definedIn ([i] ++ phis)) s' := by
    rw [definedIn_append, definedIn_singleton, hdefines]
    refine Set.union_subset_union Set.subset_union_left ?_
    rintro w ⟨hunset, hzero, hfresh, hmade, hdefs⟩
    exact Lowering.blank_subset_append hjoined.adds
      ⟨hunset, hzero, hfresh, (Lowering.owns_congr hslots).2 hmade, hdefs⟩
  have harms := (LowerM.blocks_dominated hbodies (s := { start with constants }) ⟨hs.owned⟩ hblocks).imp
    fun _ a ha => ha.mono havailable
  have hone : [Shape.branch ((b.arms.map BranchArm.footprint).map Footprint.branches)].length = branchCount [i] :=
    (branchCount_of_arms h.arms_ne_nil).symm
  have hshapes : (Footprint.branch (b.arms.map BranchArm.footprint)).branches =
      [Shape.branch ((b.arms.map BranchArm.footprint).map Footprint.branches)] ++ [] := rfl
  rw [hshapes]
  refine ⟨?_, fun hreach w hw => ?_, fun hrun w hw => ?_⟩
  · rw [branchCount_append, ← hone, branchCount_of_straight fun j hj => (hmerges j hj).1]
    rfl
  · rcases hreach.of_append hone with hreach | ⟨h₁, -, hreach⟩
    · rcases hreach.of_singleton with rfl | ⟨k, bound, inside, shapes, x, harm, hshape, hreach⟩
      · rw [hreads] at hw
        exact .inl (.inl (.inr (List.mem_singleton.1 hw ▸ hknown)))
      · obtain ⟨a, -, rfl, rfl, ha⟩ := h.exists_block harms harm hshape
        exact ha.reads x hreach w hw
    · have hmem := hreach.mem_of_arms_eq_nil fun j hj => (hmerges j hj).1
      rw [(hmerges _ hmem).2] at hw
      cases hw
  · obtain ⟨h₁, hrun₁, hrun₂⟩ := hrun.exists_of_append hone
    obtain ⟨n, hw⟩ := hw.resolve_right id
    rcases hends hw with hw | hw | hw
    · exact .inl (.inl (.inl ⟨n, hnames ▸ hw⟩))
    · exact .inr (hrun₂.definedIn_subset (fun j hj => (hmerges j hj).1) w hw)
    · obtain ⟨k, bound, inside, shapes, x, harm, hshape, hrun₁⟩ := hrun₁.exists_arm h.arms_ne_nil
      obtain ⟨a, ha, rfl, rfl, hdominated⟩ := h.exists_block harms harm hshape
      exact Set.union_subset_union_right _ (History.defined_mono hrun₂.history_subset)
        (hdominated.ends x hrun₁ (hw _ (List.mem_map_of_mem ha)))

end Branched

namespace LowerM

variable {unset : Prop} {known : Set Version} {shapes shapes' : List Shape} {context : LowerContext}
  {s s' : Lowering}

theorem branch_dominates {e : Expr TypeVar} {b : Branch} (hb : e.branch? = some b)
    (hsubject : DominatesExpr unset b.subject.footprint.branches known (expr context b.subject))
    (hbodies : ∀ arm ∈ b.arms, ∀ known,
      DominatesBlock unset (Expr.footprints arm.body).branches known (exprs context arm.body)) :
    DominatesExpr unset e.footprint.branches known (expr context e) := by
  have hvalue := asValue_dominates b.subject.note hsubject
  refine .of_code fun s r s' hs hknown h => ?_
  obtain ⟨v, start, constants, i, lowered, hbranched, hreads⟩ := branch_reads hb h
  obtain ⟨⟨code, hcode, hassigned⟩, hv⟩ := hvalue.assigns hs hknown hbranched.subject
  obtain ⟨rfl, _, _, phis, -, -, -, -, hbranch, -, hcode₂, hphis, hjoined⟩ :=
    hbranched.assigned hassigned.bound (hv v rfl) hreads fun arm harm known => (hbodies arm harm known).assigns
  have hcode' : s'.code.toList = start.code.toList ++ ([i] ++ phis) := by rw [hphis, hcode₂, List.append_assoc]
  have hbefore := hvalue.paths hs hknown hbranched.subject hcode
  have hafter : Dominated unset ({v} ∪ known) _ start ([i] ++ phis) s' ∅ :=
    hbranched.dominated hassigned.bound (hv v rfl) (.inl rfl) hreads hbodies hcode'
  have hnone : {w : Version | w ∈ (none : Option Version)} = ∅ := Set.eq_empty_of_forall_notMem fun _ => nofun
  rw [Expr.footprint_branch hb, hnone]
  exact ⟨code ++ ([i] ++ phis), by rw [hcode', hcode, List.append_assoc], hassigned.trans (hbranch.trans hjoined),
    hbefore.trans hafter hassigned.adds (hbranch.trans hjoined).adds, nofun⟩

/-- One arm copies what the left operand gives, the other what the code of the right one does. -/
theorem decide_dominated {l r fromLeft result : Version} {id : Nat} {code : List Instr} {s₁ s₂ : Lowering}
    (hl : l ∈ known) (hcode : Dominated unset ∅ shapes s₁ code s₂ {r}) (hnames : s'.names = s.names)
    (hsources : s₁.sources unset ∅ (definedIn code) s₂ ⊆ s.sources unset known (definedIn
      [.branchValue l [(id, [.op .copy [l] (some fromLeft)])] (code ++ [.op .copy [r] (some result)])]) s') :
    Dominated unset known [.branch [[], shapes]] s
      [.branchValue l [(id, [.op .copy [l] (some fromLeft)])] (code ++ [.op .copy [r] (some result)])] s' ∅ := by
  refine ⟨rfl, fun hreach w hw => ?_, fun _ w hw => ?_⟩
  · rcases hreach.of_singleton with rfl | ⟨k, bound, inside, shapes, x, harm, hshape, hreach⟩
    · exact .inl (.inl (.inr (List.mem_singleton.1 hw ▸ hl)))
    · match k with
      | 0 =>
        cases harm
        obtain rfl := List.mem_singleton.1 (hreach.mem_of_arms_eq_nil fun j hj => List.mem_singleton.1 hj ▸ rfl)
        exact .inl (.inl (.inr (List.mem_singleton.1 hw ▸ hl)))
      | 1 =>
        cases harm
        cases hshape
        rw [← List.append_nil shapes] at hreach
        rcases hreach.of_append hcode.count with hreach | ⟨h₁, hrun, hreach⟩
        · exact Set.union_subset_union_left _ hsources (hcode.reads hreach w hw)
        · have hsub := hreach.history_subset
          obtain rfl := List.mem_singleton.1 (hreach.mem_of_arms_eq_nil fun j hj => List.mem_singleton.1 hj ▸ rfl)
          exact Set.union_subset_union hsources (History.defined_mono hsub)
            (hcode.ends hrun (.inr (List.mem_singleton.1 hw)))
      | k + 2 => cases harm
  · exact .inl (.inl (.inl (Lowering.visible_congr hnames ▸ hw.resolve_right (Set.notMem_empty w))))

/-- The right operand is lowered into one of the arms of a branch on what the left one gives. -/
theorem shortCircuit_dominates {left right : LowerM Version} (type : TypeVar) (stop : Bool)
    (hleft : DominatesValue unset shapes known left) (hright : ∀ known, DominatesValue unset shapes' known right) :
    DominatesValue unset (shapes ++ [.branch [[], shapes']]) known (shortCircuit type stop left right) := by
  rw [shortCircuit_eq_bind]
  refine hleft.bind fun l => .of_code fun s merged s' hs hknown h => ?_
  obtain ⟨id, r, inside, names, result, fromLeft, s₂, s₃, s₅, hblock, hnames₂, hresult, hfromLeft, hnames₅, hnames,
    hbranch, hmerge, hcode⟩ :=
    shortCircuit_assigned (fun known => (hright known).assigns) hs (hknown l (.inl rfl)) h
  obtain ⟨t, hrun, rfl, rfl, rfl⟩ := inBlock_eq_ok_iff.1 hblock
  have hbound : ({ s₂ with code := #[] } : Lowering).Bound := ⟨(hs.of_names_eq hresult hnames₂).owned⟩
  have hinside : Dominated unset ∅ shapes' { s₂ with code := #[] } t.code.toList t {r} :=
    (hright ∅).paths hbound (fun _ hv => hv.elim) hrun rfl
  have hdecide : Dominated unset ({l} ∪ known) [.branch [[], shapes']] s [.branchValue l
      [(id, [.op .copy [l] (some fromLeft)])] (t.code.toList ++ [.op .copy [r] (some result)])] s₅ ∅ := by
    refine decide_dominated (.inl rfl) hinside hnames₅
      (Set.union_subset (Set.union_subset ?_ (Set.empty_subset _)) ?_)
    · rintro w ⟨n, hw⟩
      exact .inl (.inl ⟨n, hnames₂ ▸ hw⟩)
    · rintro w ⟨hunset, hzero, hfresh, hmade, hdefs⟩
      refine .inr ⟨hunset, hzero, fun howned => hfresh (hresult.owns howned), hfromLeft.owns hmade, fun hw => ?_⟩
      have hcases : w = fromLeft ∨ w ∈ definedIn t.code.toList ∨ w = result := by
        simpa [definedIn, Instr.defines, definedInValueArms, definedIn_append, or_assoc] using hw
      rcases hcases with rfl | hw | rfl
      · exact hfromLeft.fresh _ (List.mem_singleton.2 rfl) hmade
      · exact hdefs hw
      · exact hfresh (hresult.made _ (List.mem_singleton.2 rfl))
  have hphi : Dominated unset (∅ ∪ ({l} ∪ known)) [] s₅ [.op .phi [fromLeft, result] (some merged)] s' {merged} :=
    .one rfl (List.forall_mem_nil _) (Set.union_subset (fun w hw => .inl (.inl (Lowering.visible_congr hnames ▸ hw)))
      (Set.singleton_subset_iff.2 (.inr (List.mem_singleton.2 rfl))))
  exact ⟨_, hcode, hbranch.trans hmerge, hdecide.trans hphi hbranch.adds hmerge.adds, fun w hw =>
    Set.mem_singleton_iff.1 hw ▸ hmerge.adds.made _ (List.mem_singleton.2 rfl)⟩

theorem closure_dominates {params : List String} {args : List TypeVar} {returns type : TypeVar}
    {captures : List (String × Version)} {es : List (Expr TypeVar)}
    (hes : ∀ known, DominatesBlock unset shapes known (exprs context es))
    (hcaptures : ∀ v ∈ captures.map (·.2), v ∈ known) :
    DominatesExpr unset [] known (do
      let (slots, code) ← inBody params args (exprs context es)
      let dest ← newSlot type false
      emit (.closure args returns captures slots code dest)
      return some dest) :=
  dominates_of_emits (closure_assigns (fun known => (hes known).assigns) hcaptures) fun h => by
    obtain ⟨⟨slots, code⟩, s₁, hbody, h⟩ := Outcome.bind_eq_ok_iff.1 h
    obtain ⟨dest, s₂, hnew, h⟩ := Outcome.bind_eq_ok_iff.1 h
    obtain ⟨⟨⟩, s₃, hemit, h⟩ := Outcome.bind_eq_ok_iff.1 h
    obtain ⟨rfl, rfl⟩ := pure_eq_ok_iff.1 h
    obtain ⟨_, _, -, -, -, -, rfl⟩ := inBody_eq_ok_iff.1 hbody
    obtain ⟨-, rfl⟩ := newSlot_eq_ok_iff.1 hnew
    obtain rfl := emit_eq_ok_iff.1 hemit
    exact ⟨_, rfl, Array.toList_push, rfl, nofun, fun v hv => List.mem_singleton.2 (Option.some.inj hv).symm⟩

end LowerM
end Monomorph
