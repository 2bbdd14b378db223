import Monomorph.Proofs.Code.Step

/-! # Slots, versions and blocks

What the small operations of lowering do: each is inverted (`LowerM.newSlot_eq_ok_iff` and so on) and, if
it is a step of its own, has a lemma that says so. The version in which an operation leaves its result is
in a new slot or is the one that a visible name stands for (`Gives`); so a local that is declared with the
result never shares a slot with another visible name (`LowerM.own_spec`). -/

namespace Monomorph

namespace Lowering

variable {s s' : Lowering} {v : Version}

theorem owns_congr (h : s'.slots = s.slots) : s'.Owns v ↔ s.Owns v := by
  unfold Owns
  rw [h]

theorem owns_push {slot : Slot} (h : s'.slots = s.slots.push slot) :
    s'.Owns v ↔ s.Owns v ∨ v.slot = s.slots.size ∧ v.version < slot.versions := by
  unfold Owns
  rw [h]
  simp only [Array.getElem?_push]
  constructor
  · rintro ⟨w, hw, hlt⟩
    split at hw
    · rename_i heq
      cases hw
      exact .inr ⟨heq, hlt⟩
    · exact .inl ⟨w, hw, hlt⟩
  · rintro (⟨w, hw, hlt⟩ | ⟨heq, hlt⟩)
    · have hne : v.slot ≠ s.slots.size := Nat.ne_of_lt (Array.getElem?_eq_some_iff.1 hw).1
      exact ⟨w, by rw [if_neg hne, hw], hlt⟩
    · exact ⟨slot, by rw [if_pos heq], hlt⟩

theorem owns_next {i : Nat} {slot : Slot} (hslot : s.slots[i]? = some slot)
    (h : s'.slots = s.slots.modify i fun slot => { slot with versions := slot.versions + 1 }) :
    s'.Owns v ↔ s.Owns v ∨ v = ⟨i, slot.versions⟩ := by
  unfold Owns
  rw [h]
  simp only [Array.getElem?_modify]
  by_cases heq : i = v.slot
  · subst heq
    simp only [if_true, hslot, Option.map_some, Option.some.injEq, exists_eq_left']
    constructor
    · intro hlt
      rcases Nat.lt_succ_iff_lt_or_eq.1 hlt with hlt | heq
      · exact .inl hlt
      · exact .inr (by rw [← heq])
    · rintro (hlt | heq)
      · exact Nat.lt_succ_of_lt hlt
      · rw [heq]
        exact Nat.lt_succ_self _
  · simp only [if_neg heq]
    refine ⟨.inl, fun h => h.resolve_right ?_⟩
    rintro rfl
    exact heq rfl

theorem owns_mark {i : Nat}
    (h : s'.slots = s.slots.modify i fun slot => { slot with captured := true }) :
    s'.Owns v ↔ s.Owns v := by
  unfold Owns
  rw [h]
  simp only [Array.getElem?_modify]
  split
  · cases s.slots[v.slot]? <;> simp
  · rfl

/-- Let a name stand for a version in a slot in which no other visible name lives. -/
theorem Separate.insert {name : String} (hs : s.Separate) (howned : s.Owns v)
    (halone : ∀ {n w}, s.names.get? n = some w → w.slot = v.slot → n = name) :
    Separate { s with names := s.names.insert name v } where
  owned {n w} h := by
    simp only [Row.get?_insert] at h
    split at h
    · cases h
      exact howned
    · exact hs.owned h
  distinct {n m w w'} h h' heq := by
    simp only [Row.get?_insert] at h h'
    split at h <;> split at h'
    · exact (‹name = n›).symm.trans ‹name = m›
    · cases h
      exact (‹name = n›).symm.trans (halone h' heq.symm).symm
    · cases h'
      exact (halone h heq).trans ‹name = m›
    · exact hs.distinct h h' heq

end Lowering

namespace LowerM

open Outcome

variable {s s' : Lowering} {v : Version}

/-! ### Inversion -/

theorem present_eq_ok_iff {t : Lowering} : present s = .ok t s' ↔ s = t ∧ s = s' := ok_eq_ok_iff

theorem change_eq_ok_iff {f : Lowering → Lowering} {u : Unit} :
    LowerState.lift (modify f) s = .ok u s' ↔ f s = s' :=
  modify_eq_ok_iff

theorem emit_eq_ok_iff {i : Instr} {u : Unit} :
    emit i s = .ok u s' ↔ { s with code := s.code.push i } = s' :=
  modify_eq_ok_iff

theorem newSlot_eq_ok_iff {type : TypeVar} {isArgument : Bool} :
    newSlot type isArgument s = .ok v s' ↔
      ⟨s.slots.size, 0⟩ = v ∧
        { s with slots := s.slots.push ⟨type, isArgument, false, 1⟩ } = s' :=
  ok_eq_ok_iff

theorem nextVersion_eq_ok_iff {w : Version} :
    nextVersion v s = .ok w s' ↔
      ⟨v.slot, (s.slots[v.slot]?.map Slot.versions).getD 0⟩ = w ∧
        { s with slots := s.slots.modify v.slot fun slot =>
          { slot with versions := slot.versions + 1 } } = s' :=
  ok_eq_ok_iff

theorem bind_eq_ok_iff {name : String} {u : Unit} :
    LowerM.bind name v s = .ok u s' ↔ { s with names := s.names.insert name v } = s' :=
  modify_eq_ok_iff

theorem find_eq_ok_iff {name : String} {v? : Option Version} :
    LowerState.find name s = .ok v? s' ↔ s.names.get? name = v? ∧ s = s' :=
  ok_eq_ok_iff

theorem declare_eq_ok_iff {name : String} {u : Unit} :
    LowerState.declare name v s = .ok u s' ↔ { s with names := s.names.insert name v } = s' :=
  modify_eq_ok_iff

theorem addConstant_eq_ok_iff {c : Constant} {id : Nat} :
    addConstant c s = .ok id s' ↔
      (s.constants.add c).1 = id ∧ { s with constants := (s.constants.add c).2 } = s' :=
  ok_eq_ok_iff

theorem inBlock_eq_ok_iff {α : Type} {x : LowerM α} {a : α} {code : List Instr}
    {names : Row Version} :
    inBlock x s = .ok (a, code, names) s' ↔
      ∃ s₁, x { s with code := #[] } = .ok a s₁ ∧ s₁.code.toList = code ∧ s₁.names = names ∧
        { s₁ with code := s.code, names := s.names } = s' := by
  unfold inBlock
  simp only [Outcome.bind_eq_ok_iff, present_eq_ok_iff, change_eq_ok_iff, pure_eq_ok_iff]
  constructor
  · rintro ⟨_, _, ⟨rfl, rfl⟩, _, _, rfl, a', s₁, hx, _, _, ⟨rfl, rfl⟩, _, _, rfl, heq, rfl⟩
    cases heq
    exact ⟨_, hx, rfl, rfl, rfl⟩
  · rintro ⟨s₁, hx, rfl, rfl, rfl⟩
    exact ⟨s, s, ⟨rfl, rfl⟩, (), _, rfl, a, s₁, hx, s₁, s₁, ⟨rfl, rfl⟩, (), _, rfl, rfl, rfl⟩

/-! ### Steps -/

theorem constants_add (t : ConstantTable) (c : Constant) :
    ∃ more, (t.add c).2.values.toList = t.values.toList ++ more := by
  simp only [ConstantTable.add]
  split
  · exact ⟨[], by simp⟩
  · exact ⟨[c], by simp⟩

theorem lowers_constants (hs : s.Separate) {constants : ConstantTable}
    {hoisted : List ((Path × Nat) × Nat)}
    (h : ∃ more, constants.values.toList = s.constants.values.toList ++ more) :
    Lowers .none s { s with constants, hoisted } :=
  ⟨[], by simp, .of_names_eq hs rfl (Nat.le_refl _) (Lowering.owns_congr rfl).2 h rfl rfl
    fun _ h => (nomatch h)⟩

theorem lowers_emit (hs : s.Separate) {fp : Footprint} {i : Instr} (hdefines : i.defines = [])
    (hdeclares : fp.declares = []) (hbranches : fp.branches.length = branchCount [i]) :
    Lowers fp s { s with code := s.code.push i } :=
  ⟨[i], by simp, .of_names_eq hs rfl (Nat.le_refl _) (Lowering.owns_congr rfl).2 ⟨[], by simp⟩
    hdeclares hbranches (by simp [definedIn, hdefines])⟩

theorem step_newSlot (hs : s.Separate) {slot : Slot} {i : Instr} (hversions : slot.versions = 1)
    (hdefines : i.defines = [⟨s.slots.size, 0⟩]) (hcount : branchCount [i] = 0) :
    Step .none s [i] { s with slots := s.slots.push slot, code := s.code.push i } := by
  refine .of_names_eq hs rfl (by simp) (fun h => (Lowering.owns_push rfl).2 (.inl h)) ⟨[], by simp⟩ rfl
    (by rw [hcount]; rfl) fun v hv => ?_
  have hv : v = ⟨s.slots.size, 0⟩ := by simpa [definedIn, hdefines] using hv
  subst hv
  refine ⟨fun h => Nat.lt_irrefl _ h.lt_size, (Lowering.owns_push rfl).2 (.inr ⟨rfl, ?_⟩),
    .inl (Nat.le_refl _)⟩
  rw [hversions]
  exact Nat.one_pos

theorem emitInto_eq_ok_iff {type : TypeVar} {op : Op} {args : List Version} :
    emitInto type op args s = .ok v s' ↔
      ⟨s.slots.size, 0⟩ = v ∧
        { s with
          slots := s.slots.push ⟨type, false, false, 1⟩
          code := s.code.push (.op op args (some ⟨s.slots.size, 0⟩)) } = s' := by
  unfold emitInto
  simp only [Outcome.bind_eq_ok_iff, newSlot_eq_ok_iff, emit_eq_ok_iff, pure_eq_ok_iff]
  constructor
  · rintro ⟨_, _, ⟨rfl, rfl⟩, _, _, rfl, rfl, rfl⟩
    exact ⟨rfl, rfl⟩
  · rintro ⟨rfl, rfl⟩
    exact ⟨_, _, ⟨rfl, rfl⟩, (), _, rfl, rfl, rfl⟩

theorem emitInto_lowers (type : TypeVar) (op : Op) (args : List Version) :
    LowersValue .none (emitInto type op args) := by
  intro s v s' hs h
  obtain ⟨rfl, rfl⟩ := emitInto_eq_ok_iff.1 h
  refine ⟨⟨_, by simp, step_newSlot hs rfl rfl rfl⟩, ?_⟩
  rintro _ ⟨⟩
  exact ⟨(Lowering.owns_push rfl).2 (.inr ⟨rfl, Nat.one_pos⟩), .inl (Nat.le_refl _)⟩

/-- An operation whose result is the value of an expression. -/
theorem emitInto_some_lowers (type : TypeVar) (op : Op) (args : List Version) :
    LowersExpr .none (do return some (← emitInto type op args)) :=
  (emitInto_lowers type op args).bind_pure fun _ => rfl

theorem asValue_lowers {fp : Footprint} {x : LowerM (Option Version)} (type : TypeVar)
    (hx : LowersExpr fp x) : LowersValue fp (asValue type x) := by
  intro s v s' hs h
  obtain ⟨r, s₁, hxr, h⟩ := Outcome.bind_eq_ok_iff.1 h
  obtain ⟨hlowers, hgives⟩ := hx hs hxr
  cases r with
  | some w =>
    obtain ⟨rfl, rfl⟩ := pure_eq_ok_iff.1 h
    exact ⟨hlowers, hgives⟩
  | none =>
    obtain ⟨hload, hgives'⟩ := emitInto_lowers type (.load .unit) [] hlowers.separate h
    refine ⟨by simpa using hlowers.trans hload, fun v hv => ?_⟩
    exact (hgives' v hv).mono hlowers.size_le

/-- A version for a local to be declared: it shares its slot with no visible name. -/
theorem own_spec (hs : s.Separate) {base : Nat} {type : TypeVar} {value : Version}
    (hbase : base ≤ s.slots.size) (hvalue : Gives base s value)
    (h : own type value s = .ok v s') :
    Lowers .none s s' ∧ s'.Owns v ∧ base ≤ v.slot ∧
      ∀ {n w}, s'.names.get? n = some w → w.slot ≠ v.slot := by
  unfold own at h
  simp only [Outcome.bind_eq_ok_iff, present_eq_ok_iff] at h
  obtain ⟨_, _, ⟨rfl, rfl⟩, h⟩ := h
  split at h
  · obtain ⟨hstep, hgives⟩ := emitInto_lowers _ _ _ hs h
    have howned := (hgives v rfl).owned
    obtain ⟨rfl, rfl⟩ := emitInto_eq_ok_iff.1 h
    refine ⟨hstep, howned, hbase, fun {n w} hw heq => ?_⟩
    have hlt := (hs.owned hw).lt_size
    exact Nat.ne_of_lt hlt heq
  · rename_i htaken
    obtain ⟨rfl, rfl⟩ := pure_eq_ok_iff.1 h
    have hfree {n : String} {w : Version} (hw : s.names.get? n = some w) :
        w.slot ≠ value.slot := by
      intro heq
      apply htaken
      rw [List.any_eq_true]
      exact ⟨w, (Row.mem_values_iff _).2 ⟨n, hw⟩, by simpa using heq⟩
    refine ⟨⟨[], by simp, .refl hs⟩, hvalue.owned, ?_, hfree⟩
    refine hvalue.place.resolve_right ?_
    rintro ⟨n, hn⟩
    exact hfree hn rfl

end LowerM

/-! ### Declaring and assigning -/

namespace Step

variable {s s₁ : Lowering} {code : List Instr} {name : String}

/-- After a step, a name is declared in a slot that is new and that no visible name lives in. -/
theorem bind {fp : Footprint} {w : Version} (hstep : Step fp s code s₁) (howned : s₁.Owns w)
    (hbase : s.slots.size ≤ w.slot) (hfree : ∀ {n v}, s₁.names.get? n = some v → v.slot ≠ w.slot) :
    Step (fp.seq (.declare name)) s code { s₁ with names := s₁.names.insert name w } := by
  have hsplit {n : String} (hn : n ∉ (fp.seq (.declare name)).declares) :
      n ∉ fp.declares ∧ (s₁.names.insert name w).get? n = s₁.names.get? n := by
    obtain ⟨hp, hname⟩ := not_or.1 (mt List.mem_append.2 hn)
    rw [Row.get?_insert, if_neg fun h => hname (List.mem_singleton.2 h.symm)]
    exact ⟨hp, rfl⟩
  refine ⟨hstep.separate.insert howned fun h heq => absurd heq (hfree h), hstep.size_le, hstep.owns,
    hstep.constants, fun {n} hn => ?_, fun hn hnone => ?_, fun {n v} hn hv => ?_, fun {v} hv => ?_,
    ?_, fun {V undefined h new} hbounds hrun {n v w'} hn hv hw => ?_⟩
  · simp only [Row.get?_insert]
    by_cases hname : name = n
    · exact ⟨w, if_pos hname, hbase⟩
    · have hp : n ∈ fp.declares :=
        (List.mem_append.1 hn).resolve_right fun h => hname (List.mem_singleton.1 h).symm
      rw [if_neg hname]
      exact hstep.declared hp
  · obtain ⟨hp, hget⟩ := hsplit hn
    exact hget.trans (hstep.unbound hp hnone)
  · obtain ⟨hp, hget⟩ := hsplit hn
    obtain ⟨w', hw', hslot, hmoved⟩ := hstep.kept hp hv
    refine ⟨w', hget.trans hw', hslot, hmoved.imp_right fun h => ⟨h.1, ?_⟩⟩
    exact List.mem_append_left _ h.2
  · obtain ⟨hfresh, howned, hslot⟩ := hstep.defines hv
    refine ⟨hfresh, howned, hslot.imp_right ?_⟩
    rintro ⟨n, hn, hw⟩
    exact ⟨n, List.mem_append_left _ hn, hw⟩
  · simpa [Footprint.seq, Footprint.declare] using hstep.branches
  · obtain ⟨hp, hget⟩ := hsplit hn
    have hrun : Runs undefined code fp.branches h (new ++ h) := by
      simpa [Footprint.seq, Footprint.declare] using hrun
    obtain ⟨hmoved, hlast⟩ := hstep.updates hbounds hrun hp hv (hget.symm.trans hw)
    exact ⟨hmoved, fun hlost => hlast fun h => hlost (List.mem_append_left _ h)⟩

theorem assign (hs : s.Separate) {current value next : Version} {slot : Slot}
    (hcurrent : s.names.get? name = some current) (hslot : s.slots[current.slot]? = some slot)
    (hnext : next = ⟨current.slot, slot.versions⟩)
    (hslots : s₁.slots = s.slots.modify current.slot fun slot =>
      { slot with versions := slot.versions + 1 })
    (hnames : s₁.names = s.names.insert name next) (hconstants : s₁.constants = s.constants) :
    Step (.assign name) s [.op .copy [value] (some next)] s₁ := by
  have howns {v : Version} : s₁.Owns v ↔ s.Owns v ∨ v = next :=
    hnext ▸ Lowering.owns_next hslot hslots
  have hfresh : ¬s.Owns next := by
    rintro ⟨slot', hslot', hlt⟩
    rw [hnext] at hslot' hlt
    cases hslot.symm.trans hslot'
    exact Nat.lt_irrefl _ hlt
  have hother {n : String} (hn : name ≠ n) : s₁.names.get? n = s.names.get? n := by
    rw [hnames, Row.get?_insert, if_neg hn]
  have hself : s₁.names.get? name = some next := by
    rw [hnames, Row.get?_insert, if_pos rfl]
  have hnextSlot : next.slot = current.slot := by rw [hnext]
  have hold : Lowering.Separate { s with slots := s₁.slots } := hs.of_names_eq rfl fun h => howns.2 (.inl h)
  have hnew : Lowering.Separate { s with slots := s₁.slots, names := s.names.insert name next } :=
    hold.insert (howns.2 (.inr rfl)) fun hw heq => hs.distinct hw hcurrent (heq.trans hnextSlot)
  refine ⟨hnew.of_names_eq hnames (Lowering.owns_congr rfl).2, ?_, fun h => howns.2 (.inl h),
    ⟨[], by rw [hconstants, List.append_nil]⟩, fun hn => (nomatch hn), fun {n} _ hnone => ?_,
    fun {n v} _ hv => ?_, fun {v} hv => ?_, rfl, fun {V undefined h new} hbounds hrun {n v w} _ hv hw => ?_⟩
  · exact Nat.le_of_eq (by rw [hslots, Array.size_modify])
  · have hn : name ≠ n := by
      rintro rfl
      rw [hcurrent] at hnone
      cases hnone
    exact (hother hn).trans hnone
  · by_cases hn : name = n
    · subst hn
      cases hcurrent.symm.trans hv
      exact ⟨next, hself, hnextSlot, .inr ⟨hfresh, List.mem_singleton.2 rfl⟩⟩
    · exact ⟨v, (hother hn).trans hv, rfl, .inl rfl⟩
  · have hv : v = next := by simpa [definedIn, Instr.defines] using hv
    subst hv
    exact ⟨hfresh, howns.2 (.inr rfl), .inr ⟨name, List.mem_singleton.2 rfl, current, hcurrent,
      hnextSlot⟩⟩
  · have hnew : ∃ x, new = [⟨next, x, false⟩] := by
      cases hrun with
      | define x _ _ hrun =>
        obtain ⟨-, heq⟩ := Runs.nil_iff.1 hrun
        exact ⟨x, List.append_cancel_right (heq.trans (List.singleton_append).symm)⟩
    obtain ⟨x, rfl⟩ := hnew
    by_cases hn : name = n
    · subst hn
      cases hself.symm.trans hw
      cases hcurrent.symm.trans hv
      refine ⟨.inr ⟨_, List.mem_singleton.2 rfl, rfl⟩, fun _ => ?_⟩
      rw [List.singleton_append, History.newest_cons, if_pos (List.mem_singleton.2 rfl)]
      simp [History.lastAssigned, hnextSlot]
    · cases ((hother hn).symm.trans hw).symm.trans hv
      refine ⟨.inl rfl, fun _ => ?_⟩
      have hne : next.slot ≠ v.slot := fun heq =>
        hn (hs.distinct hcurrent hv (hnextSlot.symm.trans heq))
      rw [List.singleton_append, History.newest_cons,
        if_neg fun h => hne (congrArg _ (List.mem_singleton.1 h))]
      simp [History.lastAssigned, hne]

end Step
end Monomorph
