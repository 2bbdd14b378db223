import Monomorph.Proofs.Code.Arms

/-! # Joining the arms of a branch

After a branch, `join` looks at every name visible before it. `Joined` says what it does to some of them:
each gets the version that all arms end with, or a new version of its slot that merges theirs. On a path
through an arm, the version after the join carries the value that the name has at the end of that arm
(`Joined.paths`). `Step.of_arms` puts the arms and the join together: a branch is one step of lowering. -/

namespace Monomorph

/-- The names of `entries` are merged after arms that end with the names `arms`, by the code `phis`. -/
structure Joined (arms : List (Row Version)) (entries : List (String × Version)) (t : Lowering)
    (phis : List Instr) (t' : Lowering) : Prop where
  code_eq : t'.code.toList = t.code.toList ++ phis
  size : t'.slots.size = t.slots.size
  owns : ∀ {v}, t.Owns v → t'.Owns v
  constants : t'.constants = t.constants
  others : ∀ {n}, (∀ e ∈ entries, e.1 ≠ n) → t'.names.get? n = t.names.get? n
  count : branchCount phis = 0
  merges : ∀ i ∈ phis, ∃ vs w, i = .op .phi vs (some w)
  defines : ∀ {v}, v ∈ definedIn phis → ¬t.Owns v ∧ t'.Owns v ∧
    ∃ e ∈ entries, v.slot = e.2.slot ∧ ∃ arm ∈ arms, endVersion e.1 e.2 arm ≠ e.2
  merged : ∀ e ∈ entries, ∃ w, t'.names.get? e.1 = some w ∧ w.slot = e.2.slot ∧ t'.Owns w ∧
    (w = e.2 ∨ (∃ arm ∈ arms, endVersion e.1 e.2 arm ≠ e.2) ∧
      (w ∈ definedIn phis ∨ ∃ arm ∈ arms, endVersion e.1 e.2 arm = w))
  paths : ∀ {V : Type} {undefined : V} {h h' : History V}, (∀ d ∈ h, t.Owns d.version) →
    Runs undefined phis [] h h' →
    ∃ new, h' = new ++ h ∧ (∀ d ∈ new, d.merged = true) ∧
      ∀ e ∈ entries, ∀ arm ∈ arms, ∀ w, t'.names.get? e.1 = some w →
        History.newest undefined h (LowerM.endVersions e.1 e.2 arms) =
          History.newest undefined h [endVersion e.1 e.2 arm] →
        History.newest undefined h' [w] = History.newest undefined h [endVersion e.1 e.2 arm] ∧
          (w = endVersion e.1 e.2 arm ∨ ∃ d ∈ new, d.version = w)

namespace Joined

variable {arms : List (Row Version)} {t t₁ t' : Lowering} {name : String} {earlier : Version}

/-- Nothing changes for a name that every arm leaves alone. -/
theorem unchanged (hname : t.names.get? name = some earlier) (howned : t.Owns earlier)
    (hall : ∀ arm ∈ arms, endVersion name earlier arm = earlier) :
    Joined arms [(name, earlier)] t [] t where
  code_eq := by simp
  size := rfl
  owns := id
  constants := rfl
  others _ := rfl
  count := rfl
  merges _ h := nomatch h
  defines h := nomatch h
  merged e he := by
    obtain rfl := List.mem_singleton.1 he
    exact ⟨earlier, hname, rfl, howned, .inl rfl⟩
  paths {V undefined h h'} _ hrun := by
    obtain ⟨-, rfl⟩ := Runs.nil_iff.1 hrun
    refine ⟨[], rfl, fun _ h => (nomatch h), fun e he arm harm w hw _ => ?_⟩
    obtain rfl := List.mem_singleton.1 he
    cases hname.symm.trans hw
    exact ⟨by rw [hall arm harm], .inl (hall arm harm).symm⟩

/-- A name gets the one version that all arms end with. -/
theorem moved {only : Version} (hexists : ∃ arm ∈ arms, endVersion name earlier arm ≠ earlier)
    (howned : t.Owns only) (hall : ∀ arm ∈ arms, endVersion name earlier arm = only) :
    Joined arms [(name, earlier)] t [] { t with names := t.names.insert name only } where
  code_eq := by simp
  size := rfl
  owns := id
  constants := rfl
  others h := by
    rw [Row.get?_insert, if_neg (h _ (List.mem_singleton.2 rfl))]
  count := rfl
  merges _ h := nomatch h
  defines h := nomatch h
  merged e he := by
    obtain rfl := List.mem_singleton.1 he
    obtain ⟨arm, harm, hne⟩ := hexists
    refine ⟨only, by rw [Row.get?_insert, if_pos rfl], ?_, howned, .inr ⟨⟨arm, harm, hne⟩, .inr ?_⟩⟩
    · rw [← hall arm harm, endVersion_slot]
    · exact ⟨arm, harm, hall arm harm⟩
  paths {V undefined h h'} _ hrun := by
    obtain ⟨-, rfl⟩ := Runs.nil_iff.1 hrun
    refine ⟨[], rfl, fun _ h => (nomatch h), fun e he arm harm w hw _ => ?_⟩
    obtain rfl := List.mem_singleton.1 he
    rw [Row.get?_insert, if_pos rfl] at hw
    cases hw
    exact ⟨by rw [hall arm harm], .inl (hall arm harm).symm⟩

/-- A name gets a new version that merges those of the arms. -/
theorem phi {slot : Slot} (hslot : t.slots[earlier.slot]? = some slot)
    (hexists : ∃ arm ∈ arms, endVersion name earlier arm ≠ earlier) :
    Joined arms [(name, earlier)] t
      [.op .phi (LowerM.endVersions name earlier arms) (some ⟨earlier.slot, slot.versions⟩)]
      { t with
        slots := t.slots.modify earlier.slot fun slot => { slot with versions := slot.versions + 1 }
        code := t.code.push
          (.op .phi (LowerM.endVersions name earlier arms) (some ⟨earlier.slot, slot.versions⟩))
        names := t.names.insert name ⟨earlier.slot, slot.versions⟩ } where
  code_eq := Array.toList_push
  size := Array.size_modify
  owns h := (Lowering.owns_next hslot rfl).2 (.inl h)
  constants := rfl
  others h := by
    rw [Row.get?_insert, if_neg (h _ (List.mem_singleton.2 rfl))]
  count := rfl
  merges i hi := ⟨_, _, List.mem_singleton.1 hi⟩
  defines {v} hv := by
    obtain rfl : v = ⟨earlier.slot, slot.versions⟩ := by
      simpa [definedIn, Instr.defines] using hv
    refine ⟨?_, (Lowering.owns_next hslot rfl).2 (.inr rfl), ?_⟩
    · rintro ⟨slot', heq, hlt⟩
      cases hslot.symm.trans heq
      exact Nat.lt_irrefl _ hlt
    · exact ⟨_, List.mem_singleton.2 rfl, rfl, hexists⟩
  merged e he := by
    obtain rfl := List.mem_singleton.1 he
    refine ⟨⟨earlier.slot, slot.versions⟩, by rw [Row.get?_insert, if_pos rfl], rfl,
      (Lowering.owns_next hslot rfl).2 (.inr rfl), .inr ⟨hexists, .inl ?_⟩⟩
    simp [definedIn, Instr.defines]
  paths {V undefined h h'} _ hrun := by
    cases hrun with
    | define x _ hphi _ => exact absurd rfl hphi
    | phi hrun =>
      obtain ⟨-, rfl⟩ := Runs.nil_iff.1 hrun
      refine ⟨[_], rfl, fun d hd => List.mem_singleton.1 hd ▸ rfl, fun e he arm harm w hw heq => ?_⟩
      obtain rfl := List.mem_singleton.1 he
      rw [Row.get?_insert, if_pos rfl] at hw
      cases hw
      refine ⟨?_, .inr ⟨_, List.mem_singleton.2 rfl, rfl⟩⟩
      rw [History.newest_cons, if_pos (List.mem_singleton.2 rfl)]
      exact heq

theorem of_joinName {u : Unit} (hname : t.names.get? name = some earlier) (howned : t.Owns earlier)
    (hends : ∀ arm ∈ arms, t.Owns (endVersion name earlier arm))
    (h : LowerM.joinName arms name earlier t = .ok u t') :
    ∃ phis, Joined arms [(name, earlier)] t phis t' := by
  have hmem {w : Version} : w ∈ LowerM.endVersions name earlier arms ↔
      ∃ arm ∈ arms, endVersion name earlier arm = w := mem_endVersions
  unfold LowerM.joinName at h
  cases hvs : LowerM.endVersions name earlier arms with
  | nil =>
    rw [hvs] at h
    obtain ⟨rfl, rfl⟩ := Outcome.pure_eq_ok_iff.1 h
    refine ⟨[], .unchanged hname howned fun arm harm => ?_⟩
    have := hvs ▸ hmem.2 ⟨arm, harm, rfl⟩
    cases this
  | cons only rest =>
    cases rest with
    | nil =>
      have hall : ∀ arm ∈ arms, endVersion name earlier arm = only := fun arm harm =>
        List.mem_singleton.1 (hvs ▸ hmem.2 ⟨arm, harm, rfl⟩)
      rw [hvs] at h
      by_cases heq : only = earlier
      · simp only [heq, if_true] at h
        obtain ⟨rfl, rfl⟩ := Outcome.pure_eq_ok_iff.1 h
        exact ⟨[], .unchanged hname howned fun arm harm => (hall arm harm).trans heq⟩
      · simp only [heq, if_false] at h
        obtain rfl := LowerM.bind_eq_ok_iff.1 h
        obtain ⟨arm, harm, hend⟩ := hmem.1 (hvs ▸ List.mem_singleton.2 rfl)
        exact ⟨[], .moved ⟨arm, harm, hend ▸ heq⟩ (hend ▸ hends arm harm) hall⟩
    | cons other rest =>
      have hexists : ∃ arm ∈ arms, endVersion name earlier arm ≠ earlier :=
        exists_endVersion_ne (by rw [hvs]; exact Nat.le_add_left 2 rest.length)
      simp only [hvs] at h
      obtain ⟨merged, s₁, hnext, h⟩ := Outcome.bind_eq_ok_iff.1 h
      obtain ⟨⟨⟩, s₂, hemit, h⟩ := Outcome.bind_eq_ok_iff.1 h
      obtain ⟨rfl, rfl⟩ := LowerM.nextVersion_eq_ok_iff.1 hnext
      obtain rfl := LowerM.emit_eq_ok_iff.1 hemit
      obtain rfl := LowerM.bind_eq_ok_iff.1 h
      obtain ⟨slot, hslot, -⟩ := howned
      simp only [hslot, Option.map_some, Option.getD_some, ← hvs]
      exact ⟨_, .phi hslot hexists⟩

theorem cons {e : String × Version} {entries : List (String × Version)} {phis phis' : List Instr}
    (hne : ∀ e' ∈ entries, e'.1 ≠ e.1) (hends : ∀ e' ∈ e :: entries, ∀ arm ∈ arms,
      t.Owns (endVersion e'.1 e'.2 arm))
    (hhead : Joined arms [e] t phis t₁) (hrest : Joined arms entries t₁ phis' t') :
    Joined arms (e :: entries) t (phis ++ phis') t' where
  code_eq := by rw [hrest.code_eq, hhead.code_eq, List.append_assoc]
  size := hrest.size.trans hhead.size
  owns h := hrest.owns (hhead.owns h)
  constants := hrest.constants.trans hhead.constants
  others h := by
    rw [hrest.others fun e' he' => h e' (List.mem_cons_of_mem _ he'),
      hhead.others fun e' he' => h e' (List.mem_cons.2 (.inl (List.mem_singleton.1 he')))]
  count := by rw [branchCount_append, hhead.count, hrest.count]
  merges i hi := (List.mem_append.1 hi).elim (hhead.merges i) (hrest.merges i)
  defines hv := by
    rcases mem_definedIn_append.1 hv with hv | hv
    · obtain ⟨hfresh, howned, e', he', hw⟩ := hhead.defines hv
      exact ⟨hfresh, hrest.owns howned, e', List.mem_cons.2 (.inl (List.mem_singleton.1 he')), hw⟩
    · obtain ⟨hfresh, howned, e', he', hw⟩ := hrest.defines hv
      exact ⟨fun h => hfresh (hhead.owns h), howned, e', List.mem_cons_of_mem _ he', hw⟩
  merged e' he' := by
    rcases List.mem_cons.1 he' with rfl | he'
    · obtain ⟨w, hw, hslot, howned, hmoved⟩ := hhead.merged e' (List.mem_singleton.2 rfl)
      refine ⟨w, (hrest.others hne).trans hw, hslot, hrest.owns howned, hmoved.imp_right ?_⟩
      rintro ⟨hexists, hdefined | harm⟩
      · exact ⟨hexists, .inl (mem_definedIn_append.2 (.inl hdefined))⟩
      · exact ⟨hexists, .inr harm⟩
    · obtain ⟨w, hw, hslot, howned, hmoved⟩ := hrest.merged e' he'
      refine ⟨w, hw, hslot, howned, hmoved.imp_right ?_⟩
      rintro ⟨hexists, hdefined | harm⟩
      · exact ⟨hexists, .inl (mem_definedIn_append.2 (.inr hdefined))⟩
      · exact ⟨hexists, .inr harm⟩
  paths {V undefined h h'} hbounds hrun := by
    have hlen : ([] : List Shape).length = branchCount phis := hhead.count.symm
    obtain ⟨h₁, hrun₁, hrun₂⟩ := Runs.exists_of_append hlen hrun
    obtain ⟨new₁, rfl, hmerged₁, hpaths₁⟩ := hhead.paths hbounds hrun₁
    obtain ⟨new₁', heq₁, hnew₁⟩ := hrun₁.exists_new
    cases List.append_cancel_right heq₁
    have hbounds₁ : ∀ d ∈ new₁ ++ h, t₁.Owns d.version := by
      intro d hd
      rcases List.mem_append.1 hd with hd | hd
      · exact (hhead.defines (hnew₁ d hd)).2.1
      · exact hhead.owns (hbounds d hd)
    obtain ⟨new₂, rfl, hmerged₂, hpaths₂⟩ := hrest.paths hbounds₁ hrun₂
    obtain ⟨new₂', heq₂, hnew₂⟩ := hrun₂.exists_new
    cases List.append_cancel_right heq₂
    refine ⟨new₂ ++ new₁, by rw [List.append_assoc], fun d hd => ?_, fun e' he' arm harm w hw heq => ?_⟩
    · exact (List.mem_append.1 hd).elim (hmerged₂ d) (hmerged₁ d)
    · rcases List.mem_cons.1 he' with rfl | he'
      · obtain ⟨w', hw', -, howned, -⟩ := hhead.merged e' (List.mem_singleton.2 rfl)
        cases ((hrest.others hne).symm.trans hw).symm.trans hw'
        obtain ⟨hvalue, hdefined⟩ :=
          hpaths₁ e' (List.mem_singleton.2 rfl) arm harm w hw' heq
        refine ⟨?_, hdefined.imp_right fun ⟨d, hd, hdw⟩ => ⟨d, List.mem_append_right _ hd, hdw⟩⟩
        rw [History.newest_append fun d hd hmem => ?_, hvalue]
        exact (hrest.defines (hnew₂ d hd)).1 (List.mem_singleton.1 hmem ▸ howned)
      · have hold {vs : List Version} (hvs : ∀ v ∈ vs, t.Owns v) :
            History.newest undefined (new₁ ++ h) vs = History.newest undefined h vs :=
          History.newest_append fun d hd hmem => (hhead.defines (hnew₁ d hd)).1 (hvs _ hmem)
        have hend : t.Owns (endVersion e'.1 e'.2 arm) :=
          hends e' (List.mem_cons_of_mem _ he') arm harm
        have hone : History.newest undefined (new₁ ++ h) [endVersion e'.1 e'.2 arm] =
            History.newest undefined h [endVersion e'.1 e'.2 arm] :=
          hold fun v hv => List.mem_singleton.1 hv ▸ hend
        have hall : History.newest undefined (new₁ ++ h) (LowerM.endVersions e'.1 e'.2 arms) =
            History.newest undefined h (LowerM.endVersions e'.1 e'.2 arms) := by
          refine hold fun v hv => ?_
          obtain ⟨arm', harm', rfl⟩ := mem_endVersions.1 hv
          exact hends e' (List.mem_cons_of_mem _ he') arm' harm'
        obtain ⟨hvalue, hdefined⟩ :=
          hpaths₂ e' he' arm harm w hw (hall.trans (heq.trans hone.symm))
        refine ⟨hvalue.trans hone, hdefined.imp_right ?_⟩
        rintro ⟨d, hd, hdw⟩
        exact ⟨d, List.mem_append_left _ hd, hdw⟩

theorem of_joinNames {entries : List (String × Version)} {u : Unit}
    (hnodup : entries.Pairwise fun e e' => e.1 ≠ e'.1)
    (hnames : ∀ e ∈ entries, t.names.get? e.1 = some e.2) (howned : ∀ e ∈ entries, t.Owns e.2)
    (hends : ∀ e ∈ entries, ∀ arm ∈ arms, t.Owns (endVersion e.1 e.2 arm))
    (h : LowerM.joinNames arms entries t = .ok u t') :
    ∃ phis, Joined arms entries t phis t' := by
  induction entries generalizing t with
  | nil =>
    obtain ⟨rfl, rfl⟩ := Outcome.pure_eq_ok_iff.1 h
    refine ⟨[], by simp, rfl, id, rfl, fun _ => rfl, rfl, nofun, fun h => (nomatch h),
      fun _ h => (nomatch h), fun {V undefined h h'} _ hrun => ?_⟩
    obtain ⟨-, rfl⟩ := Runs.nil_iff.1 hrun
    exact ⟨[], rfl, fun _ h => (nomatch h), fun _ h => (nomatch h)⟩
  | cons e entries ih =>
    obtain ⟨name, earlier⟩ := e
    obtain ⟨⟨⟩, t₁, hone, hrest⟩ := Outcome.bind_eq_ok_iff.1 h
    obtain ⟨hne, hnodup⟩ := List.pairwise_cons.1 hnodup
    have hne : ∀ e' ∈ entries, e'.1 ≠ name := fun e' he' => (hne e' he').symm
    obtain ⟨phis, hhead⟩ := of_joinName (hnames _ List.mem_cons_self) (howned _ List.mem_cons_self)
      (hends _ List.mem_cons_self) hone
    obtain ⟨phis', hjoined⟩ := ih hnodup
      (fun e' he' => (hhead.others fun e₀ he₀ => by
        rw [List.mem_singleton.1 he₀]
        exact (hne e' he').symm).trans (hnames e' (List.mem_cons_of_mem _ he')))
      (fun e' he' => hhead.owns (howned e' (List.mem_cons_of_mem _ he')))
      (fun e' he' arm harm => hhead.owns (hends e' (List.mem_cons_of_mem _ he') arm harm)) hrest
    exact ⟨phis ++ phis', hhead.cons hne hends hjoined⟩

end Joined

section branch

variable {s s₁ t s' : Lowering} {arms : List Arm}

/-- The join after the arms of a branch merges every name visible before it. -/
theorem join_spec (hs : s.Separate) (harms : Arms s s₁ arms) {u : Unit}
    (h : LowerM.join (arms.map Arm.names) t = .ok u s') (hslots : t.slots = s₁.slots)
    (hnames : t.names = s.names) :
    ∃ phis, Joined (arms.map Arm.names) s.names.entries t phis s' := by
  obtain ⟨t₀, t₁, hget, hjoin⟩ := Outcome.bind_eq_ok_iff.1 h
  obtain ⟨rfl, rfl⟩ := Outcome.get_eq_ok_iff.1 hget
  have howns {v : Version} (hv : s₁.Owns v) : t.Owns v := (Lowering.owns_congr hslots).2 hv
  have hvisible : ∀ e ∈ s.names.entries, s.names.get? e.1 = some e.2 := fun e he =>
    (Row.mem_entries_iff _).1 he
  rw [hnames] at hjoin
  refine Joined.of_joinNames ?_ (fun e he => hnames ▸ hvisible e he) (fun e he => ?_)
    (fun e he names hmem => ?_) hjoin
  · exact s.names.sorted.imp fun {e e'} hlt (heq : e.1 = e'.1) =>
      String.lt_irrefl e'.1 (heq ▸ hlt)
  · exact howns (harms.owns (hs.owned (hvisible e he)))
  · obtain ⟨arm, harm, rfl⟩ := List.mem_map.1 hmem
    obtain ⟨-, heq⟩ | ⟨-, -, howned, -⟩ := harms.endVersion_spec hs harm (hvisible e he)
    · rw [heq]
      exact howns (harms.owns (hs.owned (hvisible e he)))
    · exact howns howned

/-- On a path through an arm and the join, a name stands for the version in which the arm ends. -/
theorem Arms.join_paths (hs : s.Separate) (harms : Arms s s₁ arms) {phis : List Instr}
    (hjoined : Joined (arms.map Arm.names) s.names.entries t phis s') (hslots : t.slots = s₁.slots)
    {arm : Arm} (harm : arm ∈ arms) {V : Type} {undefined : V} {h inArm h' : History V}
    (hbounds : ∀ d ∈ h, s.Owns d.version)
    (hrun : Runs undefined arm.code arm.footprint.branches h (inArm ++ h))
    (hphis : Runs undefined phis [] (inArm ++ h) h') :
    ∃ inJoin, h' = inJoin ++ (inArm ++ h) ∧ (∀ d ∈ inJoin, d.merged = true) ∧
      ∀ {n v w}, s.names.get? n = some v → s'.names.get? n = some w →
        h'.newest undefined [w] = (inArm ++ h).newest undefined [endVersion n v arm.names] ∧
          (w = endVersion n v arm.names ∨ ∃ d ∈ inJoin, d.version = w) := by
  have howns {v : Version} : t.Owns v ↔ s₁.Owns v := Lowering.owns_congr hslots
  obtain ⟨new, heq, hnew⟩ := hrun.exists_new
  cases List.append_cancel_right heq
  have hbounds₁ : ∀ d ∈ inArm ++ h, t.Owns d.version := by
    intro d hd
    rcases List.mem_append.1 hd with hd | hd
    · exact howns.2 ((harms.each arm harm).defines (hnew d hd)).2.1
    · exact howns.2 (harms.owns (hbounds d hd))
  obtain ⟨inJoin, rfl, hmerged, hpaths⟩ := hjoined.paths hbounds₁ hphis
  refine ⟨inJoin, rfl, hmerged, fun {n v w} hv hw => ?_⟩
  exact hpaths (n, v) ((Row.mem_entries_iff _).2 hv) arm.names (List.mem_map_of_mem harm) w hw
    (harms.decides hs harm hbounds hrun hv)

/-- An arm defines no version that a name stood for before the branch. -/
theorem Arms.newest_eq_of_mem (hs : s.Separate) (harms : Arms s s₁ arms) {arm : Arm}
    (harm : arm ∈ arms) {V : Type} {undefined : V} {h inArm : History V} {shapes : List Shape}
    (hrun : Runs undefined arm.code shapes h (inArm ++ h)) {n : String} {v : Version}
    (hv : s.names.get? n = some v) :
    (inArm ++ h).newest undefined [v] = h.newest undefined [v] := by
  obtain ⟨new, heq, hnew⟩ := hrun.exists_new
  cases List.append_cancel_right heq
  exact History.newest_append fun d hd hmem =>
    ((harms.each arm harm).defines (hnew d hd)).1 (List.mem_singleton.1 hmem ▸ hs.owned hv)

/-- After an arm and the join, a name carries what the arm assigned to it last, unless the arm declares a
local of that name for itself: then the name carries what it did before the branch. -/
theorem Arms.carries_iff (hs : s.Separate) (harms : Arms s s₁ arms) {arm : Arm} (harm : arm ∈ arms)
    {V : Type} {undefined : V} {h inArm : History V} (hbounds : ∀ d ∈ h, s.Owns d.version)
    (hrun : Runs undefined arm.code arm.footprint.branches h (inArm ++ h)) {n : String} {v : Version}
    (hv : s.names.get? n = some v)
    (hlost : n ∉ arm.footprint.declares → n ∉ arm.footprint.loses) :
    (inArm ++ h).newest undefined [endVersion n v arm.names] =
        (inArm.lastAssigned v.slot).getD (h.newest undefined [v]) ↔
      (n ∈ arm.footprint.declares →
        (inArm.lastAssigned v.slot).getD (h.newest undefined [v]) = h.newest undefined [v]) := by
  have hold := harms.newest_eq_of_mem hs harm hrun hv
  obtain ⟨hn, hend⟩ | ⟨hn, hget, -, -⟩ := harms.endVersion_spec hs harm hv
  · rw [hend, hold]
    exact ⟨fun heq _ => heq.symm, fun h => (h hn).symm⟩
  · obtain ⟨-, hlast⟩ := (harms.each arm harm).updates hbounds hrun hn hv hget
    exact ⟨fun _ h => absurd h hn, fun _ => hlast (hlost hn)⟩

/-- A branch is one step of lowering: `i` is the branching instruction, whose paths are those of the
arms. -/
theorem Step.of_arms (hs : s.Separate) (harms : Arms s s₁ arms) {phis : List Instr}
    (hjoined : Joined (arms.map Arm.names) s.names.entries t phis s') (hslots : t.slots = s₁.slots)
    (hnames : t.names = s.names) (hconstants : t.constants = s₁.constants) {i : Instr}
    (hcount : branchCount [i] = 1)
    (hdefines : ∀ v ∈ i.defines, ∃ arm ∈ arms, v ∈ definedIn arm.code)
    (hpaths : ∀ {V : Type} {undefined : V} {h h' : History V},
      Runs undefined [i] [.branch (arms.map fun arm => arm.footprint.branches)] h h' →
        ∃ arm ∈ arms, Runs undefined arm.code arm.footprint.branches h h') :
    Step (.branch (arms.map Arm.footprint)) s (i :: phis) s' := by
  have howns {v : Version} : t.Owns v ↔ s₁.Owns v := Lowering.owns_congr hslots
  have hmono {v : Version} (h : s.Owns v) : t.Owns v := howns.2 (harms.owns h)
  have hentry {n : String} {v : Version} (h : s.names.get? n = some v) :
      (n, v) ∈ s.names.entries := (Row.mem_entries_iff _).2 h
  have hmerged {n : String} {v : Version} (h : s.names.get? n = some v) :=
    hjoined.merged (n, v) (hentry h)
  have hunbound {n : String} (h : s.names.get? n = none) : s'.names.get? n = none := by
    rw [hjoined.others fun e he heq => ?_, hnames, h]
    rw [← heq, (Row.mem_entries_iff _).1 he] at h
    cases h
  -- A name whose version changes is assigned in some arm.
  have htouch {n : String} {v : Version} (hv : s.names.get? n = some v)
      (h : ∃ names ∈ arms.map Arm.names, endVersion n v names ≠ v) :
      n ∈ (Footprint.branch (arms.map Arm.footprint)).touches := by
    obtain ⟨names, hmem, hne⟩ := h
    obtain ⟨arm, harm, rfl⟩ := List.mem_map.1 hmem
    obtain ⟨-, heq⟩ | ⟨-, -, -, hmoved⟩ := harms.endVersion_spec hs harm hv
    · exact absurd heq hne
    · exact List.mem_flatMap.2 ⟨arm.footprint, List.mem_map_of_mem harm, (hmoved.resolve_left hne).2⟩
  have hseparate : s'.Separate := by
    have hplace {n : String} {w : Version} (hw : s'.names.get? n = some w) :
        s'.Owns w ∧ ∃ v, s.names.get? n = some v ∧ w.slot = v.slot := by
      cases hv : s.names.get? n with
      | none =>
        rw [hunbound hv] at hw
        cases hw
      | some v =>
        obtain ⟨w', hw', hslot, howned, -⟩ := hmerged hv
        cases hw.symm.trans hw'
        exact ⟨howned, v, rfl, hslot⟩
    refine ⟨fun h => (hplace h).1, fun h h' heq => ?_⟩
    obtain ⟨-, v, hv, hslot⟩ := hplace h
    obtain ⟨-, v', hv', hslot'⟩ := hplace h'
    exact hs.distinct hv hv' (hslot.symm.trans (heq.trans hslot'))
  refine ⟨hseparate, ?_, fun h => hjoined.owns (hmono h), ?_, fun hn => (nomatch hn),
    fun _ h => hunbound h, fun {n v} _ hv => ?_, fun {v} hv => ?_, ?_,
    fun {V undefined h new} hbounds hrun {n v w} _ hv hw => ?_⟩
  · rw [hjoined.size, hslots]
    exact harms.size_le
  · rw [hjoined.constants, hconstants]
    exact harms.constants
  · obtain ⟨w, hw, hslot, howned, hmoved⟩ := hmerged hv
    refine ⟨w, hw, hslot, ?_⟩
    by_cases hwv : w = v
    · exact .inl hwv
    obtain ⟨hexists, hdefined⟩ := hmoved.resolve_left hwv
    refine .inr ⟨fun hold => ?_, htouch hv hexists⟩
    rcases hdefined with hdefined | ⟨names, hmem, rfl⟩
    · exact (hjoined.defines hdefined).1 (hmono hold)
    · obtain ⟨arm, harm, rfl⟩ := List.mem_map.1 hmem
      obtain ⟨-, heq⟩ | ⟨-, -, -, hmoved⟩ := harms.endVersion_spec hs harm hv
      · exact hwv heq
      · exact (hmoved.resolve_left hwv).1 hold
  · rcases List.mem_append.1 hv with hv | hv
    · obtain ⟨arm, harm, hv⟩ := hdefines v hv
      obtain ⟨hfresh, howned, hplace⟩ := (harms.each arm harm).defines hv
      refine ⟨hfresh, hjoined.owns (howns.2 howned), hplace.imp_right ?_⟩
      rintro ⟨n, hn, hw⟩
      exact ⟨n, List.mem_flatMap.2 ⟨arm.footprint, List.mem_map_of_mem harm, hn⟩, hw⟩
    · obtain ⟨hfresh, howned, ⟨n, w⟩, he, hslot, hexists⟩ := hjoined.defines hv
      have hw := (Row.mem_entries_iff _).1 he
      exact ⟨fun h => hfresh (hmono h), howned, .inr ⟨n, htouch hw hexists, w, hw, hslot⟩⟩
  · rw [← List.singleton_append, branchCount_append, hcount, hjoined.count]
    rfl
  · have hrun : Runs undefined ([i] ++ phis)
        ([.branch (arms.map fun arm => arm.footprint.branches)] ++ []) h (new ++ h) := by
      simpa [Footprint.branch, Function.comp_def] using hrun
    have hlen : [Shape.branch (arms.map fun arm => arm.footprint.branches)].length =
        branchCount [i] := hcount.symm
    obtain ⟨h₁, hbranch, hphis⟩ := Runs.exists_of_append hlen hrun
    obtain ⟨arm, harm, harmRun⟩ := hpaths hbranch
    obtain ⟨inArm, rfl, hinArm⟩ := harmRun.exists_new
    obtain ⟨inJoin, heq, hmergedOnly, hjoinPaths⟩ :=
      harms.join_paths hs hjoined hslots harm hbounds harmRun hphis
    rw [← List.append_assoc] at heq
    cases List.append_cancel_right heq
    obtain ⟨hvalue, hdefined⟩ := hjoinPaths hv hw
    have hassigned : (inJoin ++ inArm).lastAssigned v.slot = inArm.lastAssigned v.slot := by
      rw [History.lastAssigned_append, History.lastAssigned_eq_none fun d hd => .inr (hmergedOnly d hd),
        Option.none_or]
    refine ⟨?_, fun hlost => ?_⟩
    · have hend : endVersion n v arm.names = v ∨ ∃ d ∈ inArm, d.version = endVersion n v arm.names := by
        obtain ⟨-, hend⟩ | ⟨hn, hget, -, -⟩ := harms.endVersion_spec hs harm hv
        · exact .inl hend
        · exact ((harms.each arm harm).updates hbounds harmRun hn hv hget).1
      rcases hdefined with rfl | ⟨d, hd, hdw⟩
      · exact hend.imp_right fun ⟨d, hd, hdw⟩ => ⟨d, List.mem_append_right _ hd, hdw⟩
      · exact .inr ⟨d, List.mem_append_left _ hd, hdw⟩
    · have hlost : n ∉ arm.footprint.lostInArm := fun h =>
        hlost (List.mem_flatMap.2 ⟨arm.footprint, List.mem_map_of_mem harm, h⟩)
      obtain ⟨hloses, htouches⟩ := not_or.1 (mt List.mem_append.2 hlost)
      rw [hassigned, hvalue]
      refine (harms.carries_iff hs harm hbounds harmRun hv fun hn h => ?_).2 fun hn => ?_
      · exact hloses (List.mem_filter.2 ⟨h, by simpa using hn⟩)
      · -- The arm declares a local of the name, so it does not assign the outer one.
        rw [History.lastAssigned_eq_none fun d hd => .inl fun hslot => ?_]
        · rfl
        · obtain ⟨-, -, hle | ⟨m, hm, w', hw', hslot'⟩⟩ :=
            (harms.each arm harm).defines (hinArm d hd)
          · have := (hs.owned hv).lt_size
            omega
          · have heq : m = n := hs.distinct hw' hv (hslot'.symm.trans hslot)
            exact htouches (List.mem_filter.2 ⟨heq ▸ hm, by simpa using hn⟩)

end branch
end Monomorph
