import Monomorph.Code.Lowering
import Monomorph.Proofs.Code.Footprint
import Monomorph.Proofs.Outcome
import Monomorph.Proofs.Row

/-! # One step of lowering

What lowering a part of a body may do to the slots and to the names visible. Visible names live in slots
of their own (`Lowering.Separate`), code defines only versions that did not exist before, in new slots or
in those of the names that it assigns (`Step.defines`), and after it a name still lives in its slot unless
it was declared anew (`Step.kept`).

`Step.updates` is about paths: unless an assignment is lost on the way, the version that a name stands for
afterwards carries the last value assigned to its slot.

Steps compose (`Step.trans`), and so do their footprints. -/

namespace Monomorph

namespace Lowering

def Owns (s : Lowering) (v : Version) : Prop :=
  ∃ slot, s.slots[v.slot]? = some slot ∧ v.version < slot.versions

theorem Owns.lt_size {s : Lowering} {v : Version} (h : s.Owns v) : v.slot < s.slots.size := by
  obtain ⟨slot, hslot, -⟩ := h
  exact (Array.getElem?_eq_some_iff.1 hslot).1

/-- Visible names stand for versions of slots of their own. -/
structure Separate (s : Lowering) : Prop where
  owned : ∀ {n v}, s.names.get? n = some v → s.Owns v
  distinct : ∀ {n m v w}, s.names.get? n = some v → s.names.get? m = some w → v.slot = w.slot → n = m

theorem Separate.of_names_eq {s s' : Lowering} (hs : s.Separate) (hnames : s'.names = s.names)
    (howns : ∀ {v}, s.Owns v → s'.Owns v) : s'.Separate :=
  ⟨fun h => howns (hs.owned (hnames ▸ h)), fun h h' => hs.distinct (hnames ▸ h) (hnames ▸ h')⟩

end Lowering

/-- From the state `s`, a part of a body with the footprint `fp` is lowered to `code`, which ends in the
state `s'`. -/
structure Step (fp : Footprint) (s : Lowering) (code : List Instr) (s' : Lowering) : Prop where
  separate : s'.Separate
  size_le : s.slots.size ≤ s'.slots.size
  owns : ∀ {v}, s.Owns v → s'.Owns v
  constants : ∃ more, s'.constants.values.toList = s.constants.values.toList ++ more
  declared : ∀ {n}, n ∈ fp.declares → ∃ w, s'.names.get? n = some w ∧ s.slots.size ≤ w.slot
  unbound : ∀ {n}, n ∉ fp.declares → s.names.get? n = none → s'.names.get? n = none
  kept : ∀ {n v}, n ∉ fp.declares → s.names.get? n = some v →
    ∃ w, s'.names.get? n = some w ∧ w.slot = v.slot ∧ (w = v ∨ ¬s.Owns w ∧ n ∈ fp.touches)
  defines : ∀ {v}, v ∈ definedIn code → ¬s.Owns v ∧ s'.Owns v ∧
    (s.slots.size ≤ v.slot ∨ ∃ n ∈ fp.touches, ∃ w, s.names.get? n = some w ∧ v.slot = w.slot)
  branches : fp.branches.length = branchCount code
  updates : ∀ {V : Type} {undefined : V} {h new : History V}, (∀ d ∈ h, s.Owns d.version) →
    Runs undefined code fp.branches h (new ++ h) →
    ∀ {n v w}, n ∉ fp.declares → s.names.get? n = some v → s'.names.get? n = some w →
      (w = v ∨ ∃ d ∈ new, d.version = w) ∧
      (n ∉ fp.loses → History.newest undefined (new ++ h) [w] =
        (new.lastAssigned v.slot).getD (h.newest undefined [v]))

theorem branchCount_append (code rest : List Instr) :
    branchCount (code ++ rest) = branchCount code + branchCount rest := by
  induction code with
  | nil => simp [branchCount]
  | cons i code ih => cases i <;> simp [branchCount, ih] <;> omega

namespace Step

variable {fp fq : Footprint} {s s₁ s' : Lowering} {code rest : List Instr}

/-- A path through the code of a step only adds definitions of versions that did not exist. -/
theorem exists_new (hstep : Step fp s code s') {V : Type} {undefined : V} {shapes : List Shape}
    {h h' : History V} (hrun : Runs undefined code shapes h h') :
    ∃ new, h' = new ++ h ∧ ∀ d ∈ new, d.version ∈ definedIn code ∧ ¬s.Owns d.version ∧
      s'.Owns d.version := by
  obtain ⟨new, rfl, hnew⟩ := hrun.exists_new
  refine ⟨new, rfl, fun d hd => ⟨hnew d hd, ?_⟩⟩
  obtain ⟨hfresh, howned, -⟩ := hstep.defines (hnew d hd)
  exact ⟨hfresh, howned⟩

theorem trans (hstep : Step fp s code s₁) (hrest : Step fq s₁ rest s') :
    Step (fp.seq fq) s (code ++ rest) s' where
  separate := hrest.separate
  size_le := Nat.le_trans hstep.size_le hrest.size_le
  owns h := hrest.owns (hstep.owns h)
  constants := by
    obtain ⟨more, hmore⟩ := hstep.constants
    obtain ⟨more', hmore'⟩ := hrest.constants
    exact ⟨more ++ more', by rw [hmore', hmore, List.append_assoc]⟩
  declared {n} hn := by
    by_cases hq : n ∈ fq.declares
    · obtain ⟨w, hw, hsize⟩ := hrest.declared hq
      exact ⟨w, hw, Nat.le_trans hstep.size_le hsize⟩
    · have hp : n ∈ fp.declares := (List.mem_append.1 hn).resolve_right hq
      obtain ⟨v, hv, hsize⟩ := hstep.declared hp
      obtain ⟨w, hw, hslot, -⟩ := hrest.kept hq hv
      exact ⟨w, hw, hslot ▸ hsize⟩
  unbound hn hnone := by
    obtain ⟨hp, hq⟩ := not_or.1 (mt List.mem_append.2 hn)
    exact hrest.unbound hq (hstep.unbound hp hnone)
  kept {n v} hn hv := by
    obtain ⟨hp, hq⟩ := not_or.1 (mt List.mem_append.2 hn)
    obtain ⟨w, hw, hslot, hmoved⟩ := hstep.kept hp hv
    obtain ⟨w', hw', hslot', hmoved'⟩ := hrest.kept hq hw
    refine ⟨w', hw', hslot'.trans hslot, ?_⟩
    rcases hmoved' with rfl | ⟨hfresh, htouch⟩
    · exact hmoved.imp_right fun h => ⟨h.1, List.mem_append_left _ h.2⟩
    · refine .inr ⟨fun h => hfresh (hstep.owns h), List.mem_append_right _ ?_⟩
      exact List.mem_filter.2 ⟨htouch, by simpa using hp⟩
  defines {v} hv := by
    rcases mem_definedIn_append.1 hv with hv | hv
    · obtain ⟨hfresh, howned, hslot⟩ := hstep.defines hv
      refine ⟨hfresh, hrest.owns howned, hslot.imp_right ?_⟩
      rintro ⟨n, hn, hw⟩
      exact ⟨n, List.mem_append_left _ hn, hw⟩
    · obtain ⟨hfresh, howned, hslot⟩ := hrest.defines hv
      refine ⟨fun h => hfresh (hstep.owns h), howned, ?_⟩
      rcases hslot with hsize | ⟨n, hn, w, hw, hslot⟩
      · exact .inl (Nat.le_trans hstep.size_le hsize)
      · by_cases hp : n ∈ fp.declares
        · obtain ⟨w', hw', hsize⟩ := hstep.declared hp
          cases hw.symm.trans hw'
          exact .inl (hslot ▸ hsize)
        · cases hnone : s.names.get? n with
          | none =>
            rw [hstep.unbound hp hnone] at hw
            cases hw
          | some w' =>
            obtain ⟨w'', hw'', hslot'', -⟩ := hstep.kept hp hnone
            cases hw.symm.trans hw''
            refine .inr ⟨n, List.mem_append_right _ ?_, w', hnone, hslot.trans hslot''⟩
            exact List.mem_filter.2 ⟨hn, by simpa using hp⟩
  branches := by
    rw [branchCount_append, ← hstep.branches, ← hrest.branches]
    exact List.length_append
  updates {V undefined h new} hbounds hrun {n v w} hn hv hw := by
    obtain ⟨hp, hq⟩ := not_or.1 (mt List.mem_append.2 hn)
    obtain ⟨h₁, hrun₁, hrun₂⟩ := hrun.exists_of_append hstep.branches
    obtain ⟨new₁, rfl, hnew₁⟩ := hstep.exists_new hrun₁
    obtain ⟨new₂, heq, hnew₂⟩ := hrest.exists_new hrun₂
    rw [← List.append_assoc] at heq
    have heq : new = new₂ ++ new₁ := List.append_cancel_right heq
    subst heq
    rw [List.append_assoc] at hrun₂
    obtain ⟨w₁, hw₁, hslot₁, -⟩ := hstep.kept hp hv
    obtain ⟨hmoved₁, hlast₁⟩ := hstep.updates hbounds hrun₁ hp hv hw₁
    have hbounds₁ : ∀ d ∈ new₁ ++ h, s₁.Owns d.version := by
      intro d hd
      rcases List.mem_append.1 hd with hd | hd
      · exact (hnew₁ d hd).2.2
      · exact hstep.owns (hbounds d hd)
    obtain ⟨hmoved₂, hlast₂⟩ := hrest.updates hbounds₁ hrun₂ hq hw₁ hw
    refine ⟨?_, fun hlost => ?_⟩
    · rcases hmoved₂ with rfl | ⟨d, hd, hdw⟩
      · exact hmoved₁.imp_right fun ⟨d, hd, hdw⟩ => ⟨d, List.mem_append_right _ hd, hdw⟩
      · exact .inr ⟨d, List.mem_append_left _ hd, hdw⟩
    · obtain ⟨hlost₁, hlost₂⟩ := not_or.1 (mt List.mem_append.2 hlost)
      have hlost₂ : n ∉ fq.loses := fun h => hlost₂ (List.mem_filter.2 ⟨h, by simpa using hp⟩)
      rw [List.append_assoc, hlast₂ hlost₂, hlast₁ hlost₁, hslot₁, History.lastAssigned_append]
      cases new₂.lastAssigned v.slot <;> rfl

/-- A step after which the names stand for what they stood for. An assignment in it is lost. -/
theorem of_names_eq (hs : s.Separate) (hnames : s'.names = s.names)
    (hsize : s.slots.size ≤ s'.slots.size) (howns : ∀ {v}, s.Owns v → s'.Owns v)
    (hconstants : ∃ more, s'.constants.values.toList = s.constants.values.toList ++ more)
    (hdeclares : fp.declares = []) (hbranches : fp.branches.length = branchCount code)
    (hdefines : ∀ v ∈ definedIn code, ¬s.Owns v ∧ s'.Owns v ∧
      (s.slots.size ≤ v.slot ∨ ∃ n, n ∈ fp.touches ∧ n ∈ fp.loses ∧
        ∃ w, s.names.get? n = some w ∧ v.slot = w.slot)) :
    Step fp s code s' where
  separate := hs.of_names_eq hnames howns
  size_le := hsize
  owns := howns
  constants := hconstants
  declared h := by
    rw [hdeclares] at h
    cases h
  unbound _ h := hnames ▸ h
  kept _ h := ⟨_, hnames ▸ h, rfl, .inl rfl⟩
  defines {v} hv := by
    obtain ⟨hfresh, howned, hslot⟩ := hdefines v hv
    exact ⟨hfresh, howned, hslot.imp_right fun ⟨n, hn, _, hw⟩ => ⟨n, hn, hw⟩⟩
  branches := hbranches
  updates {V undefined h new} hbounds hrun {n v w} _ hv hw := by
    rw [hnames, hv] at hw
    cases hw
    refine ⟨.inl rfl, fun hlost => ?_⟩
    obtain ⟨new', heq, hnew⟩ := hrun.exists_new
    cases List.append_cancel_right heq
    have hother : ∀ d ∈ new, d.version.slot ≠ v.slot := by
      intro d hd hslot
      obtain ⟨-, -, hsize | ⟨m, -, hm, w, hw, hslot'⟩⟩ := hdefines _ (hnew d hd)
      · have hlt := (hs.owned hv).lt_size
        omega
      · exact hlost (hs.distinct hv hw (hslot.symm.trans hslot') ▸ hm)
    rw [History.newest_append fun d hd hmem => hother d hd (congrArg _ (List.mem_singleton.1 hmem)),
      History.lastAssigned_eq_none fun d hd => .inl (hother d hd)]
    rfl

theorem refl (hs : s.Separate) : Step .none s [] s :=
  of_names_eq hs rfl (Nat.le_refl _) id ⟨[], by simp⟩ rfl rfl fun _ h => (nomatch h)

end Step

/-- A part of a body with the footprint `fp` is lowered from the state `s` to the state `s'`. -/
def Lowers (fp : Footprint) (s s' : Lowering) : Prop :=
  ∃ code, s'.code.toList = s.code.toList ++ code ∧ Step fp s code s'

namespace Lowers

variable {fp fq : Footprint} {s s₁ s' : Lowering}

theorem trans : Lowers fp s s₁ → Lowers fq s₁ s' → Lowers (fp.seq fq) s s' := by
  rintro ⟨code, hcode, hstep⟩ ⟨rest, hrest, hstep'⟩
  exact ⟨code ++ rest, by rw [hrest, hcode, List.append_assoc], hstep.trans hstep'⟩

theorem separate (h : Lowers fp s s') : s'.Separate := h.choose_spec.2.separate

theorem size_le (h : Lowers fp s s') : s.slots.size ≤ s'.slots.size := h.choose_spec.2.size_le

theorem owns (h : Lowers fp s s') {v : Version} : s.Owns v → s'.Owns v := h.choose_spec.2.owns

end Lowers

/-- A result of lowering is left in a version: that of a visible name or one in a slot from number `base`
on. -/
structure Gives (base : Nat) (s : Lowering) (v : Version) : Prop where
  owned : s.Owns v
  place : base ≤ v.slot ∨ ∃ n, s.names.get? n = some v

theorem Gives.mono {base base' : Nat} {s : Lowering} {v : Version} (hle : base' ≤ base)
    (h : Gives base s v) : Gives base' s v :=
  ⟨h.owned, h.place.imp_left (Nat.le_trans hle)⟩

/-- Wherever a computation lowers something, it is a step with the footprint `fp`, which leaves its
result, if it has one, in the version `result`. -/
def LowersTo {α : Type} (fp : Footprint) (result : α → Option Version) (x : LowerM α) : Prop :=
  ∀ ⦃s a s'⦄, s.Separate → x s = .ok a s' →
    Lowers fp s s' ∧ ∀ v ∈ result a, Gives s.slots.size s' v

/-- A computation that lowers something of no value. -/
abbrev LowersBlock {α : Type} (fp : Footprint) (x : LowerM α) : Prop := LowersTo fp (fun _ => none) x

/-- A computation that lowers something to a value. -/
abbrev LowersValue (fp : Footprint) (x : LowerM Version) : Prop := LowersTo fp some x

/-- A computation that lowers something that may have no value of its own. -/
abbrev LowersExpr (fp : Footprint) (x : LowerM (Option Version)) : Prop := LowersTo fp id x

namespace LowersTo

variable {α β : Type} {fp fq : Footprint} {x : LowerM α} {result : α → Option Version}

theorem block (h : LowersTo fp result x) : LowersBlock fp x :=
  fun _ _ _ hs hx => ⟨(h hs hx).1, fun _ hv => (nomatch hv)⟩

theorem bind {f : α → LowerM β} {result' : β → Option Version} (hx : LowersTo fp result x)
    (hf : ∀ a, LowersTo fq result' (f a)) : LowersTo (fp.seq fq) result' (x >>= f) := by
  intro s b s' hs h
  obtain ⟨a, s₁, hxa, hfa⟩ := Outcome.bind_eq_ok_iff.1 h
  obtain ⟨hlowers, -⟩ := hx hs hxa
  obtain ⟨hlowers', hgives⟩ := hf a hlowers.separate hfa
  exact ⟨hlowers.trans hlowers', fun v hv => (hgives v hv).mono hlowers.size_le⟩

theorem none_bind {f : α → LowerM β} {result' : β → Option Version} (hx : LowersTo .none result x)
    (hf : ∀ a, LowersTo fq result' (f a)) : LowersTo fq result' (x >>= f) :=
  Footprint.none_seq fq ▸ hx.bind hf

theorem bind_none {f : α → LowerM β} {result' : β → Option Version} (hx : LowersTo fp result x)
    (hf : ∀ a, LowersTo .none result' (f a)) : LowersTo fp result' (x >>= f) :=
  Footprint.seq_none fp ▸ hx.bind hf

theorem pure_none (a : α) (hresult : result a = none) :
    LowersTo .none result (pure a : LowerM α) := by
  intro s b s' hs h
  obtain ⟨rfl, rfl⟩ := Outcome.pure_eq_ok_iff.1 h
  refine ⟨⟨[], by simp, .refl hs⟩, fun v hv => ?_⟩
  rw [hresult] at hv
  cases hv

/-- Do something with the result of a computation and give it back. -/
theorem bind_pure {f : α → β} {result' : β → Option Version} (hx : LowersTo fp result x)
    (hresult : ∀ a, result' (f a) = result a) : LowersTo fp result' (x >>= fun a => pure (f a)) := by
  intro s b s' hs h
  obtain ⟨a, s₁, hxa, hfa⟩ := Outcome.bind_eq_ok_iff.1 h
  obtain ⟨rfl, rfl⟩ := Outcome.pure_eq_ok_iff.1 hfa
  obtain ⟨hlowers, hgives⟩ := hx hs hxa
  exact ⟨hlowers, fun v hv => hgives v (hresult a ▸ hv)⟩

theorem throw_bind (e : LowerError) {f : α → LowerM β} {result' : β → Option Version} :
    LowersTo fp result' ((throw e : LowerM α) >>= f) := by
  intro s b s' _ h
  obtain ⟨a, s₁, hthrow, -⟩ := Outcome.bind_eq_ok_iff.1 h
  exact (Outcome.throw_eq_ok_iff.1 hthrow).elim

theorem throw (e : LowerError) : LowersTo fp result (throw e : LowerM α) :=
  fun _ _ _ _ h => (Outcome.throw_eq_ok_iff.1 h).elim

end LowersTo
end Monomorph
