import Monomorph.Proofs.Meaning.Parts

/-! # Branches run as their trees

Whatever the branch, the code runs the arm that the tree takes and then merges the versions in which the
arms end. On that path every name visible before the branch stands afterwards for the version in which the
arm taken ends (`Arms.join_paths`), so a store and a history that agree at the end of the arm agree after
the branch (`Branched.follows`). -/

namespace Monomorph

variable {A : Type} {P : Primitives A} {table : List Constant} {s t : Lowering}
  {h : History (Value A)} {σ : Store A}

theorem BranchArm.branches_footprint (arm : BranchArm) :
    arm.footprint.branches = (Expr.footprints arm.body).branches := by
  obtain ⟨binding, body⟩ := arm
  cases binding <;> rfl

theorem Agree.mono (hagree : Agree P σ s h) (hnames : t.names = s.names)
    (howns : ∀ {v}, s.Owns v → t.Owns v) : Agree P σ t h :=
  ⟨fun n => hnames ▸ hagree.values n, fun d hd => howns (hagree.bounded d hd)⟩

/-- A name gets a new slot, which carries the value of its local. -/
theorem Agree.newLocal (hagree : Agree P σ s h) (hs : s.Separate) {slot : Slot} (name : String)
    (x : Value A) (hversions : slot.versions = 1) (hslots : t.slots = s.slots.push slot)
    (hnames : t.names = s.names.insert name ⟨s.slots.size, 0⟩) :
    Agree P ((name, x) :: σ) t (⟨⟨s.slots.size, 0⟩, x, false⟩ :: h) := by
  have howns {v : Version} : t.Owns v ↔ s.Owns v ∨ v.slot = s.slots.size ∧ v.version < slot.versions :=
    Lowering.owns_push hslots
  have hpushed : Agree P σ { t with names := s.names } (⟨⟨s.slots.size, 0⟩, x, false⟩ :: h) := by
    refine ⟨fun n => ?_, fun d hd => ?_⟩
    · rw [hagree.values]
      cases hv : s.names.get? n with
      | none => rfl
      | some v =>
        have hne : (⟨s.slots.size, 0⟩ : Version) ∉ [v] := fun hmem =>
          Nat.ne_of_lt (hs.owned hv).lt_size (congrArg Version.slot (List.mem_singleton.1 hmem)).symm
        exact congrArg some ((History.newest_cons ..).trans (if_neg hne)).symm
    · rcases List.mem_cons.1 hd with rfl | hd
      · exact howns.2 (.inr ⟨rfl, hversions ▸ Nat.one_pos⟩)
      · exact howns.2 (.inl (hagree.bounded d hd))
  exact (hpushed.bind (LowerM.read_cons ..) name).mono hnames id

theorem Agree.blockStart (hagree : Agree P σ s h) (hs : s.Separate)
    (binding : Option (String × TypeVar)) (x : Value A) :
    Agree P (Store.payload (binding.map Prod.fst) x ++ σ) (LowerM.blockStart s binding)
      (payloadHistory (binding.map fun _ => ⟨s.slots.size, 0⟩) x ++ h) := by
  cases binding with
  | none => exact hagree.mono rfl id
  | some bound =>
    obtain ⟨name, type⟩ := bound
    have hblock := @Agree.newLocal A P s (LowerM.blockStart s (some (name, type))) h σ hagree hs
      ⟨type, false, false, 1⟩ name x
    exact hblock rfl rfl rfl

namespace Branched

open LowerM

variable {context : LowerContext} {b : Branch} {start s' : Lowering} {v : Version}
  {constants : ConstantTable} {i : Instr} {lowered : List LoweredArm} {r : Option Version}

theorem follows (hb : Branched context b s v start constants i lowered r s') (hs : start.Separate)
    (hagree : Agree P σ start h) {code : List Instr}
    (hcode : s'.code.toList = start.code.toList ++ code)
    (htable : ∃ more, table = s'.constants.values.toList ++ more) {k : Nat} {arm : BranchArm}
    (harm : b.arms[k]? = some arm) {x : Value A}
    (hfree : ∀ n ∈ arm.footprint.declares, n ∉ σ.map Prod.fst)
    {run : Except (Stop A) (Store A)}
    (hnames : ∀ {inner}, run = .ok inner →
      inner.map Prod.fst = arm.footprint.declares.reverse ++ σ.map Prod.fst)
    (hbody : ∀ {t h'}, t.Separate → Agree P (Store.payload (arm.binding.map Prod.fst) x ++ σ) t h' →
      Simulates P table (Expr.footprints arm.body) (fun _ _ _ _ => True) (exprs context arm.body)
        (do return ((), ← run)) t h')
    (hexec : ∀ {a}, lowered[k]? = some a → (arm.binding = none → a.binding = none) →
      Instr.exec P table i h = Instr.execs P table a.code (payloadHistory a.binding x ++ h)) :
    Follows P table (.branch (b.arms.map BranchArm.footprint)) code s' h
      (fun y => ResultIn P r y s') (do return (P.unit, σ.leave (← run))) := by
  have hbodies : ∀ arm ∈ b.arms, LowersBlock (Expr.footprints arm.body) (exprs context arm.body) :=
    fun arm _ => exprs_lowers context arm.body
  obtain ⟨rfl, hlen, s₁, phis, hblocks, -, harms, hjoined, hcode', hstep⟩ := hb.spec hs hbodies
  obtain rfl := List.append_cancel_left (hcode'.symm.trans hcode)
  have hbegun : ({ start with constants } : Lowering).Separate := hs.of_names_eq rfl id
  obtain ⟨a, t, t', ha, hblock, ht, htnames, howns, howns', -, more', hmore'⟩ :=
    exists_block_of_blocks hbodies hbegun hblocks harm
  obtain ⟨s₂, hexprs, hacode, hanames, hbinding, rfl⟩ := block_eq_ok hblock
  have hexec := hexec ha fun hnone => by rw [hbinding, hnone, Option.map_none]
  have htable' : ∃ more, table = s₂.constants.values.toList ++ more := by
    obtain ⟨more, hmore⟩ := htable
    rw [hjoined.constants] at hmore
    have hmore' : s₁.constants.values.toList = s₂.constants.values.toList ++ more' := hmore'
    refine ⟨more' ++ more, ?_⟩
    rw [hmore, ← List.append_assoc, ← hmore']
  have hstart := (hagree.mono htnames howns).blockStart ht arm.binding x
  rw [← hbinding] at hstart
  have hacode : s₂.code.toList = (blockStart t arm.binding).code.toList ++ a.code := by
    rw [blockStart_code, hacode]
    rfl
  have hfollows := hbody (blockStart_separate ht arm.binding) hstart hexprs hacode htable'
  cases hrun : run with
  | error stop =>
    rw [hrun] at hfollows
    refine .of_stop fun hne => ?_
    rw [Instr.execs, hexec, hfollows.error rfl hne]
    rfl
  | ok inner =>
    rw [hrun] at hfollows
    refine .of_ok ?_
    obtain ⟨new, hexec', hpath, hinner, -⟩ := hfollows.ok rfl
    generalize hinArm : new ++ payloadHistory a.binding x = inArm
    rw [← List.append_assoc, hinArm] at hexec' hpath hinner
    have hzip : (List.zipWith LoweredArm.toArm b.arms lowered)[k]? = some (a.toArm arm) := by
      rw [List.getElem?_zipWith, harm, ha]
    have hmem : a.toArm arm ∈ List.zipWith LoweredArm.toArm b.arms lowered :=
      List.mem_of_getElem? hzip
    rw [← arm.branches_footprint] at hpath
    obtain ⟨h', hexecJoin, hpathJoin⟩ := Instr.execs_of_merges P table hjoined.merges (inArm ++ h)
    obtain ⟨inJoin, rfl, -, hreads⟩ := harms.join_paths hs hjoined rfl hmem hagree.bounded
      (hpath.payload x) hpathJoin
    have hpath : Runs P.unassigned (i :: phis)
        (Footprint.branch (b.arms.map BranchArm.footprint)).branches h (inJoin ++ inArm ++ h) := by
      have hcodeArm : i.arms[k]? = some (a.binding, a.code) := by
        rw [hb.arms_eq, LoweredArm.getElem?_codeArms (List.getElem?_eq_some_iff.1 ha).1, ha]
        rfl
      have hinside : ((b.arms.map BranchArm.footprint).map Footprint.branches)[k]? =
          some arm.footprint.branches := by
        rw [List.map_map, List.getElem?_map, harm]
        rfl
      have hall := (Runs.of_arm x hcodeArm hinside hpath).append hpathJoin
      rwa [List.append_nil, ← List.append_assoc] at hall
    refine ⟨inJoin ++ inArm, ?_, hpath, ⟨fun n => ?_, hstep.bounded hpath hagree.bounded⟩, by simp,
      fun _ => rfl⟩
    · rw [Instr.execs, hexec, hexec', List.append_assoc]
      exact hexecJoin
    · have hinnerNames := hnames hrun
      cases hv : start.names.get? n with
      | none =>
        rw [hstep.unbound List.not_mem_nil hv]
        refine Store.lookup_eq_none_iff.2 ?_
        rw [Store.map_fst_leave hinnerNames, ← Store.lookup_eq_none_iff, hagree.values, hv]
        rfl
      | some v =>
        have hvisible : n ∈ σ.map Prod.fst := by
          by_contra hnone
          rw [← Store.lookup_eq_none_iff, hagree.values, hv] at hnone
          cases hnone
        have hn : n ∉ arm.footprint.declares := fun hn => hfree n hn hvisible
        obtain ⟨w, hw, -⟩ := hstep.kept List.not_mem_nil hv
        obtain ⟨hmem', -⟩ | ⟨-, hend, -⟩ := harms.endVersion_spec hs hmem hv
        · exact absurd hmem' hn
        · rw [Store.lookup_leave hinnerNames (by simpa using hn), hinner.values, hanames, hw]
          have hend : a.names.get? n = some (endVersion n v a.names) := hend
          rw [hend]
          refine congrArg some (Eq.symm ?_)
          rw [List.append_assoc]
          exact (hreads hv hw).1

/-- A branch that has no arm for the value stops as its tree does. -/
theorem stops (hb : Branched context b s v start constants i lowered r s') (hs : start.Separate)
    {code : List Instr} (hcode : s'.code.toList = start.code.toList ++ code) {stop : Stop A}
    (hexec : stop ≠ .unmatched → Instr.exec P table i h = .error stop) :
    Follows P table (.branch (b.arms.map BranchArm.footprint)) code s' h
      (fun y => ResultIn P r y s') (.error stop) := by
  obtain ⟨-, -, s₁, phis, -, -, -, -, hcode', -⟩ :=
    hb.spec hs fun arm _ => exprs_lowers context arm.body
  obtain rfl := List.append_cancel_left (hcode'.symm.trans hcode)
  refine .of_stop fun hne => ?_
  rw [Instr.execs, hexec hne]
  rfl

theorem simulates (hb : Branched context b s v start constants i lowered r s') (hs : s.Separate)
    {run : Except (Stop A) (Value A × Store A)}
    (hsubject : Simulates P table b.subject.footprint (ResultIn P) (expr context b.subject) run s h)
    {code : List Instr} (hcode : s'.code.toList = s.code.toList ++ code)
    (htable : ∃ more, table = s'.constants.values.toList ++ more)
    {g : Value A × Store A → Except (Stop A) (Value A × Store A)}
    (hrest : ∀ {x σ new code}, run = .ok (x, σ) → start.Separate → Agree P σ start (new ++ h) →
      P.read (new ++ h) v = x → (∃ more, table = constants.values.toList ++ more) →
      s'.code.toList = start.code.toList ++ code →
        Follows P table (.branch (b.arms.map BranchArm.footprint)) code s' (new ++ h)
          (fun y => ResultIn P r y s') (g (x, σ))) :
    Follows P table (b.subject.footprint.seq (.branch (b.arms.map BranchArm.footprint))) code s' h
      (fun y => ResultIn P r y s') (run >>= g) := by
  have hlowers := expr_lowers context b.subject
  obtain ⟨⟨code₁, hcode₁, hstep₁⟩, -⟩ := asValue_lowers b.subject.note hlowers hs hb.subject
  obtain ⟨-, -, s₁, phis, -, hmore, -, -, hcode₂, hstep₂⟩ :=
    hb.spec hstep₁.separate fun arm _ => exprs_lowers context arm.body
  have heq : code = code₁ ++ i :: phis := by
    rw [hcode₂, hcode₁, List.append_assoc] at hcode
    exact (List.append_cancel_left hcode).symm
  have htable₁ := hstep₂.holds_constants htable
  rw [heq]
  have hvalue := asValue_simulates b.subject.note hs hsubject hlowers hb.subject hcode₁ htable₁
  refine hvalue.trans hstep₁ fun hrun _ hagree hread => ?_
  refine hrest hrun hstep₁.separate hagree hread.2 ?_ hcode₂
  obtain ⟨more, hmore⟩ := hmore
  obtain ⟨more', hmore'⟩ := htable
  exact ⟨more ++ more', by rw [hmore', hmore, List.append_assoc]⟩

end Branched

/-! ### The arm taken -/

namespace LowerM

variable {context : LowerContext} {s' : Lowering}

/-- The code takes the arm of the constant that the tree takes. -/
theorem selectValue_evaluated {arms : List (Expr TypeVar × List (Expr TypeVar))} {ids : List Nat}
    (h : evaluateArms context arms s = .ok ids s') {more : List Constant}
    (htable : table = s'.constants.values.toList ++ more) (x : Value A) {codes : List (List Instr)}
    (hlen : codes.length = arms.length) :
    Instr.selectValue P table x (ids.zip codes) = selectValue P context.evaluate x arms := by
  induction arms generalizing s ids codes with
  | nil =>
    obtain ⟨rfl, rfl⟩ := Outcome.pure_eq_ok_iff.1 h
    rfl
  | cons arm arms ih =>
    obtain ⟨code, codes, rfl⟩ := List.exists_cons_of_length_eq_add_one hlen
    obtain ⟨id, s₁, hid, h⟩ := Outcome.bind_eq_ok_iff.1 h
    obtain ⟨rest, s₂, hrest, h⟩ := Outcome.bind_eq_ok_iff.1 h
    obtain ⟨rfl, rfl⟩ := Outcome.pure_eq_ok_iff.1 h
    have hselect := ih hrest (Nat.succ.inj hlen)
    unfold evaluateConstant at hid
    cases hc : context.evaluate arm.1 with
    | error e =>
      rw [hc] at hid
      exact (Outcome.throw_eq_ok_iff.1 hid).elim
    | ok c =>
      rw [hc] at hid
      obtain ⟨rfl, rfl⟩ := addConstant_eq_ok_iff.1 hid
      obtain ⟨-, constants, rfl, more', hmore'⟩ := evaluateArms_eq_ok hrest
      have hmore' : constants.values.toList = (s.constants.add c).2.values.toList ++ more' := hmore'
      have hadded := @isConstant_added A P table s.constants c (more' ++ more)
        (by rw [htable, hmore', List.append_assoc]) x
      rw [Instr.selectValue, selectValue, List.zip_cons_cons, List.findIdx?_cons, List.findIdx?_cons,
        hadded, hc]
      unfold Instr.selectValue selectValue at hselect
      rw [hselect]

/-- The code takes the arm of the variant that the tree takes. -/
theorem selectVariant_codeArms (name : String) {arms : List (VariantArm TypeVar (List (Expr TypeVar)))}
    {bs : List LoweredArm} (hlen : bs.length = arms.length) :
    Instr.selectVariant name (List.zipWith codeArm arms bs) = selectVariant name arms := by
  induction arms generalizing bs with
  | nil => rfl
  | cons arm arms ih =>
    obtain ⟨b, bs, rfl⟩ := List.exists_cons_of_length_eq_add_one hlen
    have hselect := ih (Nat.succ.inj hlen)
    unfold Instr.selectVariant selectVariant at hselect ⊢
    rw [List.zipWith_cons_cons, List.findIdx?_cons, List.findIdx?_cons, hselect]
    rfl

end LowerM
end Monomorph
