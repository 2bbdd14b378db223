import Mathlib.Data.List.Pairwise
import Monomorph.Proofs.Code.Operands

/-! # Arms and joins

The arms of a branch are lowered one after the other, each from the names visible before the branch, so
the versions that one arm defines are not those of another (`Arms.apart`). After the branch, `join` gives
every visible name the version that its arms end with, or merges them by a `phi`.

A path through one arm has defined none of the versions in which the other arms end; so `phi` takes the
version in which the name ends in the arm taken (`Arms.decides`, `join_spec`). -/

namespace Monomorph

/-- The version that an arm ends with for a name that stood for `earlier` before it. -/
def endVersion (name : String) (earlier : Version) (arm : Row Version) : Version :=
  ((arm.get? name).filter fun v => v.slot == earlier.slot).getD earlier

section endVersion

variable {name : String} {earlier w : Version} {arm : Row Version} {arms : List (Row Version)}

theorem endVersion_cases (name : String) (earlier : Version) (arm : Row Version) :
    endVersion name earlier arm = earlier ∨
      arm.get? name = some (endVersion name earlier arm) ∧
        (endVersion name earlier arm).slot = earlier.slot := by
  unfold endVersion
  cases hget : arm.get? name with
  | none => exact .inl rfl
  | some v =>
    by_cases hslot : v.slot = earlier.slot
    · right
      simp [Option.filter, hslot]
    · left
      simp [Option.filter, hslot]

theorem endVersion_slot : (endVersion name earlier arm).slot = earlier.slot := by
  rcases endVersion_cases name earlier arm with heq | ⟨-, hslot⟩
  · rw [heq]
  · exact hslot

theorem endVersion_of_slot (hw : arm.get? name = some w) (hslot : w.slot = earlier.slot) :
    endVersion name earlier arm = w := by
  simp [endVersion, hw, Option.filter, hslot]

theorem endVersion_of_slot_ne (hw : arm.get? name = some w) (hslot : w.slot ≠ earlier.slot) :
    endVersion name earlier arm = earlier := by
  simp [endVersion, hw, Option.filter, hslot]

theorem mem_endVersions_foldl (versions : List Version) :
    w ∈ arms.foldl (fun versions arm =>
        if endVersion name earlier arm ∈ versions then versions
        else versions ++ [endVersion name earlier arm]) versions ↔
      w ∈ versions ∨ ∃ arm ∈ arms, endVersion name earlier arm = w := by
  induction arms generalizing versions with
  | nil => simp
  | cons arm arms ih =>
    rw [List.foldl_cons, ih]
    by_cases hmem : endVersion name earlier arm ∈ versions
    · rw [if_pos hmem]
      simp only [List.mem_cons, exists_eq_or_imp]
      refine ⟨fun h => h.imp_right .inr, fun h => ?_⟩
      rcases h with h | rfl | h
      · exact .inl h
      · exact .inl hmem
      · exact .inr h
    · rw [if_neg hmem]
      simp only [List.mem_append, List.mem_cons, List.not_mem_nil, or_false, exists_eq_or_imp,
        or_assoc]
      exact or_congr_right (or_congr_left eq_comm)

theorem nodup_endVersions_foldl {versions : List Version} (h : versions.Nodup) :
    (arms.foldl (fun versions arm =>
        if endVersion name earlier arm ∈ versions then versions
        else versions ++ [endVersion name earlier arm]) versions).Nodup := by
  induction arms generalizing versions with
  | nil => exact h
  | cons arm arms ih =>
    rw [List.foldl_cons]
    apply ih
    split
    · exact h
    · rename_i hmem
      exact List.nodup_append.2 ⟨h, by simp, fun v hv w hw heq =>
        hmem (List.mem_singleton.1 hw ▸ heq ▸ hv)⟩

theorem mem_endVersions :
    w ∈ LowerM.endVersions name earlier arms ↔ ∃ arm ∈ arms, endVersion name earlier arm = w :=
  (mem_endVersions_foldl []).trans (or_iff_right fun h => nomatch h)

theorem nodup_endVersions : (LowerM.endVersions name earlier arms).Nodup :=
  nodup_endVersions_foldl List.nodup_nil

/-- If the arms end with several versions, some arm changed the name. -/
theorem exists_endVersion_ne (hlen : 2 ≤ (LowerM.endVersions name earlier arms).length) :
    ∃ arm ∈ arms, endVersion name earlier arm ≠ earlier := by
  by_contra hnone
  have hall : ∀ w ∈ LowerM.endVersions name earlier arms, w = earlier := by
    intro w hw
    obtain ⟨arm, harm, rfl⟩ := mem_endVersions.1 hw
    by_contra hne
    exact hnone ⟨arm, harm, hne⟩
  have hnodup : (LowerM.endVersions name earlier arms).Nodup := nodup_endVersions
  revert hlen hall hnodup
  cases LowerM.endVersions name earlier arms with
  | nil => exact fun hlen => absurd hlen (by simp)
  | cons v rest =>
    cases rest with
    | nil => exact fun hlen => absurd hlen (by simp)
    | cons w rest =>
      intro _ hall hnodup
      have heq : v = w := (hall v (by simp)).trans (hall w (by simp)).symm
      exact (List.nodup_cons.1 hnodup).1 (heq ▸ List.mem_cons_self)

end endVersion

/-- A lowered arm. The definition of its payload stands before its code. -/
structure Arm where
  footprint : Footprint
  code : List Instr
  names : Row Version

/-- What an arm does, as a part of a branch that is lowered from the state `s` to the state `s'`. -/
structure ArmOf (s s' : Lowering) (arm : Arm) : Prop where
  declared : ∀ {n}, n ∈ arm.footprint.declares →
    ∃ w, arm.names.get? n = some w ∧ s.slots.size ≤ w.slot
  kept : ∀ {n v}, n ∉ arm.footprint.declares → s.names.get? n = some v →
    ∃ w, arm.names.get? n = some w ∧ w.slot = v.slot ∧ s'.Owns w ∧
      (w = v ∨ ¬s.Owns w ∧ n ∈ arm.footprint.touches)
  defines : ∀ {v}, v ∈ definedIn arm.code → ¬s.Owns v ∧ s'.Owns v ∧
    (s.slots.size ≤ v.slot ∨
      ∃ n ∈ arm.footprint.touches, ∃ w, s.names.get? n = some w ∧ v.slot = w.slot)
  updates : ∀ {V : Type} {undefined : V} {h new : History V}, (∀ d ∈ h, s.Owns d.version) →
    Runs undefined arm.code arm.footprint.branches h (new ++ h) →
    ∀ {n v w}, n ∉ arm.footprint.declares → s.names.get? n = some v → arm.names.get? n = some w →
      (w = v ∨ ∃ d ∈ new, d.version = w) ∧
      (n ∉ arm.footprint.loses → History.newest undefined (new ++ h) [w] =
        (new.lastAssigned v.slot).getD (h.newest undefined [v]))

/-- The code of one arm does not define the versions that another ends with. -/
def Apart (s : Lowering) (a b : Arm) : Prop :=
  ∀ {n v w}, s.names.get? n = some v → a.names.get? n = some w → w.slot = v.slot → w ≠ v →
    w ∉ definedIn b.code

/-- The arms of a branch that is lowered from the state `s` to the state `s'`. -/
structure Arms (s s' : Lowering) (arms : List Arm) : Prop where
  names : s'.names = s.names
  size_le : s.slots.size ≤ s'.slots.size
  owns : ∀ {v}, s.Owns v → s'.Owns v
  constants : ∃ more, s'.constants.values.toList = s.constants.values.toList ++ more
  each : ∀ arm ∈ arms, ArmOf s s' arm
  apart : arms.Pairwise fun a b => Apart s a b ∧ Apart s b a

theorem Step.armOf {fp : Footprint} {s s₁ s' : Lowering} {code : List Instr}
    (hstep : Step fp s code s₁) (howns : ∀ {v}, s₁.Owns v → s'.Owns v) :
    ArmOf s s' ⟨fp, code, s₁.names⟩ where
  declared := hstep.declared
  kept hn hv := by
    obtain ⟨w, hw, hslot, hmoved⟩ := hstep.kept hn hv
    exact ⟨w, hw, hslot, howns (hstep.separate.owned hw), hmoved⟩
  defines hv := by
    obtain ⟨hfresh, howned, hslot⟩ := hstep.defines hv
    exact ⟨hfresh, howns howned, hslot⟩
  updates := hstep.updates

theorem ArmOf.mono {s s₁ s' : Lowering} {arm : Arm} (h : ArmOf s₁ s' arm) (hnames : s₁.names = s.names)
    (hsize : s.slots.size ≤ s₁.slots.size) (howns : ∀ {v}, s.Owns v → s₁.Owns v) :
    ArmOf s s' arm where
  declared hn := by
    obtain ⟨w, hw, hle⟩ := h.declared hn
    exact ⟨w, hw, Nat.le_trans hsize hle⟩
  kept hn hv := by
    obtain ⟨w, hw, hslot, howned, hmoved⟩ := h.kept hn (hnames ▸ hv)
    exact ⟨w, hw, hslot, howned, hmoved.imp_right fun hm => ⟨fun hold => hm.1 (howns hold), hm.2⟩⟩
  defines hv := by
    obtain ⟨hfresh, howned, hslot⟩ := h.defines hv
    exact ⟨fun hold => hfresh (howns hold), howned, hslot.imp (Nat.le_trans hsize) fun hw => hnames ▸ hw⟩
  updates hbounds hrun := by
    intro n v w hn hv hw
    exact h.updates (fun d hd => howns (hbounds d hd)) hrun hn (hnames ▸ hv) hw

namespace Arms

variable {s s₁ s₂ s' : Lowering} {arms : List Arm}

theorem nil (hnames : s'.names = s.names) (hslots : s'.slots = s.slots)
    (hconstants : ∃ more, s'.constants.values.toList = s.constants.values.toList ++ more) :
    Arms s s' [] :=
  ⟨hnames, Nat.le_of_eq (by rw [hslots]), (Lowering.owns_congr hslots).2, hconstants, fun _ h => (nomatch h), .nil⟩

theorem cons {fp : Footprint} {code : List Instr} (hs : s.Separate) (hstep : Step fp s code s₁)
    (harms : Arms s₂ s' arms) (hslots : s₂.slots = s₁.slots) (hnames : s₂.names = s.names)
    (hconstants : s₂.constants = s₁.constants) :
    Arms s s' (⟨fp, code, s₁.names⟩ :: arms) := by
  have hcongr {v : Version} : s₂.Owns v ↔ s₁.Owns v := Lowering.owns_congr hslots
  have hmono {v : Version} (h : s.Owns v) : s₂.Owns v := hcongr.2 (hstep.owns h)
  have hsize : s.slots.size ≤ s₂.slots.size := hslots ▸ hstep.size_le
  have heach (arm : Arm) (h : arm ∈ arms) : ArmOf s s' arm :=
    (harms.each arm h).mono hnames hsize hmono
  refine ⟨harms.names.trans hnames, Nat.le_trans hsize harms.size_le, fun h => harms.owns (hmono h), ?_,
    ?_, ?_⟩
  · obtain ⟨more, hmore⟩ := hstep.constants
    obtain ⟨more', hmore'⟩ := harms.constants
    exact ⟨more ++ more', by rw [hmore', hconstants, hmore, List.append_assoc]⟩
  · intro arm harm
    rcases List.mem_cons.1 harm with rfl | harm
    · exact hstep.armOf fun h => harms.owns (hcongr.2 h)
    · exact heach arm harm
  · refine List.pairwise_cons.2 ⟨fun b hb => ⟨?_, ?_⟩, harms.apart.imp fun h => ?_⟩
    · intro n v w _ hw _ _ hmem
      exact ((harms.each b hb).defines hmem).1 (hcongr.2 (hstep.separate.owned hw))
    · intro n v w hv hw hslot hne hmem
      by_cases hn : n ∈ b.footprint.declares
      · obtain ⟨w', hw', hle⟩ := (harms.each b hb).declared hn
        cases hw.symm.trans hw'
        have := (hs.owned hv).lt_size
        omega
      · obtain ⟨w', hw', -, -, hmoved⟩ := (harms.each b hb).kept hn (hnames ▸ hv)
        cases hw.symm.trans hw'
        exact (hmoved.resolve_left hne).1 (hcongr.2 (hstep.defines hmem).2.1)
    · rw [Apart, Apart, hnames] at h
      exact h

/-- What a name stands for at the end of an arm, as far as the join can tell. -/
theorem endVersion_spec (harms : Arms s s' arms) (hs : s.Separate) {arm : Arm} (harm : arm ∈ arms)
    {n : String} {v : Version} (hv : s.names.get? n = some v) :
    n ∈ arm.footprint.declares ∧ endVersion n v arm.names = v ∨
      n ∉ arm.footprint.declares ∧ arm.names.get? n = some (endVersion n v arm.names) ∧
        s'.Owns (endVersion n v arm.names) ∧
        (endVersion n v arm.names = v ∨
          ¬s.Owns (endVersion n v arm.names) ∧ n ∈ arm.footprint.touches) := by
  by_cases hn : n ∈ arm.footprint.declares
  · obtain ⟨w, hw, hle⟩ := (harms.each arm harm).declared hn
    refine .inl ⟨hn, endVersion_of_slot_ne hw fun heq => ?_⟩
    have := (hs.owned hv).lt_size
    omega
  · obtain ⟨w, hw, hslot, howned, hmoved⟩ := (harms.each arm harm).kept hn hv
    rw [endVersion_of_slot hw hslot]
    exact .inr ⟨hn, hw, howned, hmoved⟩

/-- On a path through one arm, the versions in which the arms end amount to the one in which that arm
ends. -/
theorem decides (harms : Arms s s' arms) (hs : s.Separate) {arm : Arm} (harm : arm ∈ arms)
    {V : Type} {undefined : V} {h new : History V} (hbounds : ∀ d ∈ h, s.Owns d.version)
    (hrun : Runs undefined arm.code arm.footprint.branches h (new ++ h)) {n : String} {v : Version}
    (hv : s.names.get? n = some v) :
    History.newest undefined (new ++ h) (LowerM.endVersions n v (arms.map Arm.names)) =
      History.newest undefined (new ++ h) [endVersion n v arm.names] := by
  have hmem : endVersion n v arm.names ∈ LowerM.endVersions n v (arms.map Arm.names) :=
    mem_endVersions.2 ⟨arm.names, List.mem_map_of_mem harm, rfl⟩
  obtain ⟨new', heq, hnew⟩ := hrun.exists_new
  cases List.append_cancel_right heq
  have hfresh : ∀ d ∈ new, ¬s.Owns d.version := fun d hd =>
    ((harms.each arm harm).defines (hnew d hd)).1
  -- The versions in which only other arms end are not defined on the path.
  have hother : ∀ u ∈ LowerM.endVersions n v (arms.map Arm.names), u ≠ v →
      u ≠ endVersion n v arm.names → ∀ d ∈ new ++ h, d.version ≠ u := by
    intro u hu huv hue d hd hdu
    obtain ⟨names, hnames, rfl⟩ := mem_endVersions.1 hu
    obtain ⟨b, hb, rfl⟩ := List.mem_map.1 hnames
    have hne : b ≠ arm := fun heq => hue (heq ▸ rfl)
    obtain ⟨-, heq⟩ | ⟨-, hget, -, hmoved⟩ := harms.endVersion_spec hs hb hv
    · exact huv heq
    rcases List.mem_append.1 hd with hd | hd
    · have : Std.Symm fun a b => Apart s a b ∧ Apart s b a := ⟨fun _ _ h => h.symm⟩
      have hapart : Apart s b arm ∧ Apart s arm b := harms.apart.forall hb harm hne
      exact hapart.1 hv hget endVersion_slot huv (hdu ▸ hnew d hd)
    · exact (hmoved.resolve_left huv).1 (hdu ▸ hbounds d hd)
  by_cases hend : endVersion n v arm.names = v
  · refine History.newest_congr fun d hd => ?_
    rw [List.mem_singleton]
    constructor
    · intro hdv
      by_contra hne
      exact hother d.version hdv (fun h => hne (h.trans hend.symm)) hne d hd rfl
    · intro hdv
      exact hdv ▸ hmem
  · obtain ⟨-, heq⟩ | ⟨hn, hget, -, -⟩ := harms.endVersion_spec hs harm hv
    · exact absurd heq hend
    obtain ⟨hmoved, -⟩ := (harms.each arm harm).updates hbounds hrun hn hv hget
    obtain ⟨d, hd, hdv⟩ := hmoved.resolve_left hend
    rw [History.newest_append_of_mem ⟨d, hd, hdv ▸ hmem⟩,
      History.newest_append_of_mem ⟨d, hd, List.mem_singleton.2 hdv⟩]
    refine History.newest_congr fun d hd => ?_
    rw [List.mem_singleton]
    constructor
    · intro hdv
      by_contra hne
      by_cases hv' : d.version = v
      · exact hfresh d hd (hv' ▸ hs.owned hv)
      · exact hother d.version hdv hv' hne d (List.mem_append_left _ hd) rfl
    · intro hdv
      exact hdv ▸ hmem

end Arms
end Monomorph
