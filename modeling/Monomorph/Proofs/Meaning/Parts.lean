import Monomorph.Proofs.Meaning.Simulation
import Monomorph.Proofs.Meaning.Stores

/-! # Locals, results and operands

The parts of core expressions that are lowered alike: locals read, declared and assigned, a result given
back, the branches of `and` and `or` and of an unwrapped variant. Each runs as its tree does. -/

namespace Monomorph

open Outcome

variable {A : Type} {P : Primitives A} {table : List Constant} {s s' : Lowering}
  {h : History (Value A)} {σ : Store A}

/-- A name gets a version that carries the value of its local. -/
theorem Agree.bind (hagree : Agree P σ s h) {v : Version} {x : Value A} (hv : P.read h v = x)
    (name : String) : Agree P ((name, x) :: σ) { s with names := s.names.insert name v } h where
  values n := by
    rw [Store.lookup_cons, Row.get?_insert]
    by_cases hn : n = name
    · rw [if_pos hn, if_pos hn.symm, Option.map_some, hv]
    · rw [if_neg hn, if_neg (Ne.symm hn)]
      exact hagree.values n
  bounded := hagree.bounded

namespace LowerM

/-! ### Locals -/

/-- A new slot carries the value of a local that was never assigned. -/
theorem newSlot_simulates (type : TypeVar) (hagree : Agree P σ s h) :
    Simulates P table .none (ValueIn P) (newSlot type false) (.ok (P.unassigned, σ)) s h := by
  intro v s' code hx hcode _
  obtain ⟨rfl, rfl⟩ := newSlot_eq_ok_iff.1 hx
  obtain rfl : [] = code := List.append_cancel_left ((List.append_nil _).trans hcode)
  have hmono {v : Version} (hv : s.Owns v) :
      ({ s with slots := s.slots.push ⟨type, false, false, 1⟩ } : Lowering).Owns v :=
    (Lowering.owns_push rfl).2 (.inl hv)
  refine .of_ok ?_
  refine ⟨[], rfl, .nil h, ⟨hagree.values, fun d hd => hmono (hagree.bounded d hd)⟩, ?_, ?_⟩
  · exact (Lowering.owns_push rfl).2 (.inr ⟨rfl, Nat.one_pos⟩)
  · have hnew : ∀ d ∈ h, d.version ∉ [(⟨s.slots.size, 0⟩ : Version)] := fun d hd hmem =>
      Nat.ne_of_lt (hagree.bounded d hd).lt_size (congrArg Version.slot (List.mem_singleton.1 hmem))
    have heq := @History.newest_append _ P.unassigned h [] _ hnew
    rwa [List.append_nil] at heq

theorem localVar_simulates (type : TypeVar) (name : String) (hs : s.Separate)
    (hagree : Agree P σ s h) :
    Simulates P table .none (ResultIn P) (do
      match ← LowerState.find name with
      | some v => return some v
      | none => return some (← emitInto type (.readCapture name) []))
      (match σ.lookup name with
        | some v => .ok (v, σ)
        | none => .error (.stuck (.capture name))) s h := by
  intro r s' code hx hcode htable
  obtain ⟨v?, s₁, hlookup, hx⟩ := Outcome.bind_eq_ok_iff.1 hx
  obtain ⟨hv, rfl⟩ := find_eq_ok_iff.1 hlookup
  have hvalue := hagree.values name
  rw [hv] at hvalue
  rw [hvalue]
  cases v? with
  | some v =>
    have hresult : ResultIn P (some v) (P.read h v) s h := by
      refine ⟨?_, nofun⟩
      rintro _ ⟨⟩
      exact ⟨hs.owned hv, rfl⟩
    exact Simulates.pure hagree hresult hx hcode htable
  | none =>
    have hread := @emitInto_simulates A P table s h σ type (.readCapture name) []
      (.error (.stuck (.capture name))) hs hagree nofun nofun fun _ => rfl
    exact hread.some hx hcode htable

/-- A version for a local that is declared with a value carries the value. -/
theorem own_simulates (type : TypeVar) {v : Version} {x : Value A} (hs : s.Separate)
    (hagree : Agree P σ s h) (hv : ValueIn P v x s h) :
    Simulates P table .none (ValueIn P) (own type v) (.ok (x, σ)) s h := by
  intro w s' code hx hcode htable
  unfold own at hx
  obtain ⟨t, s₁, hget, hx⟩ := Outcome.bind_eq_ok_iff.1 hx
  obtain ⟨rfl, rfl⟩ := get_eq_ok_iff.1 hget
  split at hx
  · have hcopy := @emitInto_ok_simulates A P table s h σ type .copy [v] x hs hagree nofun nofun
      fun dest => by rw [← hv.2]; rfl
    exact hcopy hx hcode htable
  · exact Simulates.pure hagree hv hx hcode htable

/-- The local is declared with the value that a part leaves. -/
theorem bind_simulates {fp : Footprint} {x : LowerM Version}
    {run : Except (Stop A) (Value A × Store A)} (name : String)
    (hx : Simulates P table fp (ValueIn P) x run s h) :
    Simulates P table (fp.seq (.declare name)) (ResultIn P)
      (do LowerM.bind name (← x); return none)
      (do let (v, σ) ← run; return (P.unit, (name, v) :: σ)) s h := by
  intro r s' code hbind hcode htable
  obtain ⟨v, s₁, hv, hbind⟩ := Outcome.bind_eq_ok_iff.1 hbind
  obtain ⟨⟨⟩, s₂, hname, hbind⟩ := Outcome.bind_eq_ok_iff.1 hbind
  obtain ⟨rfl, rfl⟩ := pure_eq_ok_iff.1 hbind
  obtain rfl := bind_eq_ok_iff.1 hname
  have hfollows := hx hv hcode htable
  cases hrun : run with
  | error stop =>
    refine .of_stop fun hne => ?_
    exact hfollows.error hrun hne
  | ok p =>
    refine .of_ok ?_
    obtain ⟨new, hexec, hpath, hagree, -, hread⟩ := hfollows.ok hrun
    refine ⟨new, hexec, ?_, hagree.bind hread name, nofun, fun _ => rfl⟩
    simpa [Footprint.seq, Footprint.declare] using hpath

theorem define_simulates {fp : Footprint} {value : LowerM Version}
    {run : Except (Stop A) (Value A × Store A)} (type : TypeVar) (name : String) (hs : s.Separate)
    (hvalue : Simulates P table fp (ValueIn P) value run s h) (hlowers : LowersValue fp value) :
    Simulates P table (fp.seq (.declare name)) (ResultIn P) (do
      let v ← value
      LowerM.bind name (← own type v)
      return none)
      (do let (v, σ) ← run; return (P.unit, (name, v) :: σ)) s h := by
  have hrun : run = run >>= .ok := by cases run <;> rfl
  have howned : Simulates P table fp (ValueIn P) (do let v ← value; own type v) run s h := by
    rw [hrun]
    refine hvalue.bind_none hs hlowers (own_lowers type) fun _ _ hs₁ _ hagree hv => ?_
    exact own_simulates type hs₁ hagree hv
  have hbind := bind_simulates name howned
  rwa [bind_assoc] at hbind

theorem declare_simulates (type : TypeVar) (name : String) (hagree : Agree P σ s h) :
    Simulates P table (.declare name) (ResultIn P) (do
      LowerM.bind name (← newSlot type false)
      return none) (.ok (P.unit, (name, P.unassigned) :: σ)) s h := by
  have hbind := bind_simulates name (@newSlot_simulates A P table s h σ type hagree)
  rwa [Footprint.none_seq] at hbind

theorem assign_simulates (name : String) {v : Version} {x : Value A} (hs : s.Separate)
    (hagree : Agree P σ s h) (hv : ValueIn P v x s h) :
    Simulates P table (.assign name) (ResultIn P) (do
      match ← LowerState.find name with
      | some current => do
        let next ← nextVersion current
        emit (.op .copy [v] (some next))
        LowerM.bind name next
      | none => emit (.op (.writeCapture name) [v] none)
      return none)
      (match σ.lookup name with
        | some _ => .ok (P.unit, σ.assign name x)
        | none => .error (.stuck (.capture name))) s h := by
  intro r s' code hx hcode _
  obtain ⟨⟨code', hcode', hstep⟩, -⟩ := assign_lowers name v hs hx
  obtain rfl := List.append_cancel_left (hcode'.symm.trans hcode)
  obtain ⟨current?, s₁, hlookup, hx⟩ := Outcome.bind_eq_ok_iff.1 hx
  obtain ⟨hcurrent, rfl⟩ := find_eq_ok_iff.1 hlookup
  have hvalue := hagree.values name
  rw [hcurrent] at hvalue
  rw [hvalue]
  cases current? with
  | some current =>
    obtain ⟨next, s₂, hnext, hx⟩ := Outcome.bind_eq_ok_iff.1 hx
    obtain ⟨⟨⟩, s₃, hemit, hx⟩ := Outcome.bind_eq_ok_iff.1 hx
    obtain ⟨⟨⟩, s₄, hbind, hx⟩ := Outcome.bind_eq_ok_iff.1 hx
    obtain ⟨rfl, rfl⟩ := pure_eq_ok_iff.1 hx
    obtain ⟨rfl, rfl⟩ := nextVersion_eq_ok_iff.1 hnext
    obtain rfl := emit_eq_ok_iff.1 hemit
    obtain rfl := bind_eq_ok_iff.1 hbind
    generalize (⟨current.slot, (s.slots[current.slot]?.map Slot.versions).getD 0⟩ : Version) = next at *
    obtain rfl : [.op .copy [v] (some next)] = code' :=
      List.append_cancel_left ((Array.toList_push).symm.trans hcode')
    refine .of_ok ?_
    have hpath : Runs P.unassigned [.op .copy [v] (some next)] [] h ([⟨next, x, false⟩] ++ h) :=
      .define x nofun nofun (.nil _)
    refine ⟨[⟨next, x, false⟩], ?_, hpath, ⟨fun n => ?_, hstep.bounded hpath hagree.bounded⟩, nofun,
      fun _ => rfl⟩
    · rw [Instr.execs_singleton, ← hv.2]
      rfl
    · rw [Store.lookup_assign, Row.get?_insert]
      by_cases hn : n = name
      · rw [if_pos hn, if_pos hn.symm, hn, hvalue, Option.map_some, Option.map_some]
        refine congrArg some (Eq.symm ?_)
        exact (History.newest_cons ..).trans (if_pos (List.mem_singleton.2 rfl))
      · rw [if_neg hn, if_neg (Ne.symm hn), hagree.values]
        cases hw : s.names.get? n with
        | none => rfl
        | some w => exact congrArg some (hstep.read_eq hpath (hs.owned hw)).symm
  | none =>
    obtain ⟨⟨⟩, s₂, hemit, hx⟩ := Outcome.bind_eq_ok_iff.1 hx
    obtain ⟨rfl, rfl⟩ := pure_eq_ok_iff.1 hx
    obtain rfl := emit_eq_ok_iff.1 hemit
    obtain rfl : [.op (.writeCapture name) [v] none] = code' :=
      List.append_cancel_left ((Array.toList_push).symm.trans hcode')
    refine .of_stop fun _ => ?_
    exact Instr.execs_singleton ..

theorem giveBack_simulates {v : Version} {x : Value A} (hv : ValueIn P v x s h) :
    Simulates P table .none (ResultIn P) (do
      emit (.op .giveBack [v] none)
      return none) (.error (.returned x)) s h := by
  intro r s' code hx hcode _
  obtain ⟨⟨⟩, s₁, hemit, hx⟩ := Outcome.bind_eq_ok_iff.1 hx
  obtain ⟨rfl, rfl⟩ := pure_eq_ok_iff.1 hx
  obtain rfl := emit_eq_ok_iff.1 hemit
  obtain rfl : [.op .giveBack [v] none] = code :=
    List.append_cancel_left ((Array.toList_push).symm.trans hcode)
  refine .of_stop fun _ => ?_
  rw [Instr.execs_singleton, ← hv.2]
  rfl

/-! ### Operands -/

/-- The entry that a constant was added at is equal to it. -/
theorem isConstant_added {constants : ConstantTable} {c : Constant} {more : List Constant}
    (htable : table = (constants.add c).2.values.toList ++ more) (x : Value A) :
    ((table[(constants.add c).1]?).any fun d => P.isConstant d x) = P.isConstant c x := by
  have hentry : ∃ d, (constants.add c).2.values.toList[(constants.add c).1]? = some d ∧
      P.isConstant d x = P.isConstant c x := by
    unfold ConstantTable.add
    dsimp only
    split
    · rename_i id hknown
      split at hknown
      · obtain ⟨hid, heq, -⟩ := Array.findIdx?_eq_some_iff_getElem.1 hknown
        refine ⟨constants.values[id], ?_, congrFun (P.isConstant_congr heq) x⟩
        rw [Array.getElem?_toList, Array.getElem?_eq_getElem hid]
      · cases hknown
    · refine ⟨c, ?_, rfl⟩
      simp [ConstantTable.size]
  obtain ⟨d, hd, heq⟩ := hentry
  have hid := (List.getElem?_eq_some_iff.1 hd).1
  rw [htable, List.getElem?_append_left hid, hd]
  exact heq

theorem selectValue_added {constants : ConstantTable} {c : Constant} {more : List Constant}
    (htable : table = (constants.add c).2.values.toList ++ more) (x : Value A) (code : List Instr) :
    Instr.selectValue P table x [((constants.add c).1, code)] =
      if P.isConstant c x then some 0 else none := by
  rw [Instr.selectValue, List.findIdx?_singleton, isConstant_added htable]

section operand

variable {id : Nat} {l r result fromLeft merged : Version} {rightCode : List Instr}

/-- Either arm of `and` and `or` defines the newest of the two versions merged. -/
theorem newest_pair {d : Definition (Value A)} (hd : d.version ∈ [fromLeft, result]) :
    History.newest P.unassigned (d :: h) [fromLeft, result] = d.value :=
  (History.newest_cons ..).trans (if_pos hd)

theorem read_cons (v : Version) (x : Value A) (isMerged : Bool) : P.read (⟨v, x, isMerged⟩ :: h) v = x :=
  (History.newest_cons ..).trans (if_pos (List.mem_singleton.2 rfl))

theorem execs_operandCode_left
    (hselect : Instr.selectValue P table (P.read h l) [(id, [.op .copy [l] (some fromLeft)])] = some 0) :
    Instr.execs P table (operandCode id l r result fromLeft merged rightCode) h =
      .ok (⟨merged, P.read h l, true⟩ :: ⟨fromLeft, P.read h l, false⟩ :: h) := by
  rw [operandCode, Instr.execs, Instr.exec, hselect]
  change Except.ok (⟨merged, History.newest P.unassigned (⟨fromLeft, P.read h l, false⟩ :: h) _, true⟩ ::
    ⟨fromLeft, P.read h l, false⟩ :: h) = _
  rw [newest_pair (by simp)]

theorem runs_operandCode_left {shapes : List Shape} (x : Value A) :
    Runs P.unassigned (operandCode id l r result fromLeft merged rightCode) [.branch [[], shapes]] h
      (⟨merged, x, true⟩ :: ⟨fromLeft, x, false⟩ :: h) := by
  refine .valueArm 0 rfl rfl (.define x nofun nofun (.nil _)) (.phi ?_)
  rw [newest_pair (by simp)]
  exact .nil _

theorem execs_operandCode_right
    (hselect : Instr.selectValue P table (P.read h l) [(id, [.op .copy [l] (some fromLeft)])] = none) :
    Instr.execs P table (operandCode id l r result fromLeft merged rightCode) h = (do
      let h₁ ← Instr.execs P table rightCode h
      return ⟨merged, P.read h₁ r, true⟩ :: ⟨result, P.read h₁ r, false⟩ :: h₁) := by
  rw [operandCode, Instr.execs, Instr.exec, hselect]
  change (do
    let h₂ ← Instr.execs P table (rightCode ++ [Instr.op .copy [r] (some result)]) h
    Instr.execs P table _ h₂) = _
  rw [Instr.execs_append, bind_assoc]
  refine bind_congr fun h₁ => ?_
  change Except.ok (⟨merged, History.newest P.unassigned (⟨result, P.read h₁ r, false⟩ :: h₁) _, true⟩ ::
    ⟨result, P.read h₁ r, false⟩ :: h₁) = _
  rw [newest_pair (by simp)]
  rfl

theorem runs_operandCode_right {shapes : List Shape} {h₁ : History (Value A)} (x : Value A)
    (hright : Runs P.unassigned rightCode shapes h h₁) :
    Runs P.unassigned (operandCode id l r result fromLeft merged rightCode) [.branch [[], shapes]] h
      (⟨merged, x, true⟩ :: ⟨result, x, false⟩ :: h₁) := by
  have hcopied : Runs P.unassigned (rightCode ++ [.op .copy [r] (some result)]) (shapes ++ []) h
      (⟨result, x, false⟩ :: h₁) := hright.append (.define x nofun nofun (.nil _))
  rw [List.append_nil] at hcopied
  refine .valueLast rfl hcopied (.phi ?_)
  rw [newest_pair (by simp)]
  exact .nil _

end operand

/-- `and` and `or` after the left operand `x`: the right one is evaluated unless `x` is `stop`. -/
theorem operand_simulates {fp : Footprint} {right : LowerM Version}
    {runRight : Except (Stop A) (Value A × Store A)} (type : TypeVar) {stop : Bool} {l : Version}
    {x : Value A} (hs : s.Separate) (hagree : Agree P σ s h) (hl : ValueIn P l x s h)
    (hlowers : LowersValue fp right) (hpure : ∀ {y σ'}, runRight = .ok (y, σ') → σ' = σ)
    (hright : Simulates P table fp (ValueIn P) right runRight (operandStart type stop s) h) :
    Simulates P table fp.operand (ValueIn P) (shortCircuit type stop (pure l) right)
      (if P.isConstant (.boolean stop) x then .ok (x, σ) else runRight) s h := by
  intro v s' code hx hcode htable
  have hleft : LowersBlock .none (pure l : LowerM Version) := .pure_none l rfl
  obtain ⟨⟨code', hcode', hstep⟩, hgives⟩ := shortCircuit_lowers type stop hleft hlowers hs hx
  obtain rfl := List.append_cancel_left (hcode'.symm.trans hcode)
  have howned := (hgives v rfl).owned
  rw [Footprint.none_seq] at hstep
  obtain ⟨l', s₁, r, s₂, n, hl', hr, -, -, hcode, hnames, hconstants, -⟩ :=
    shortCircuit_eq_ok ⟨fp, hlowers⟩ ⟨_, hleft⟩ hs hx
  obtain ⟨rfl, rfl⟩ := pure_eq_ok_iff.1 hl'
  obtain ⟨⟨rightCode, hrightCode, hinner⟩, -⟩ := hlowers (operandStart_separate hs type stop) hr
  have hrightCode' : s₂.code.toList = rightCode := hrightCode
  rw [hrightCode'] at hcode
  obtain rfl := List.append_cancel_left (hcode.symm.trans hcode')
  have hselect (code : List Instr) : Instr.selectValue P table (P.read h l)
      [((s.constants.add (.boolean stop)).1, code)] =
        if P.isConstant (.boolean stop) x then some 0 else none := by
    obtain ⟨more, hmore⟩ := htable
    obtain ⟨more', hmore'⟩ := hinner.constants
    have hmore' : s₂.constants.values.toList =
        (s.constants.add (.boolean stop)).2.values.toList ++ more' := hmore'
    rw [hconstants, hmore', List.append_assoc] at hmore
    rw [hl.2]
    exact selectValue_added hmore x code
  by_cases hstop : P.isConstant (.boolean stop) x = true
  · simp only [if_pos hstop] at hselect ⊢
    refine .of_ok ?_
    have hexec : Instr.execs P table (operandCode (s.constants.add (.boolean stop)).1 l r
        ⟨s.slots.size, 0⟩ ⟨s.slots.size, n⟩ v rightCode) h =
          .ok (⟨v, P.read h l, true⟩ :: ⟨⟨s.slots.size, n⟩, P.read h l, false⟩ :: h) :=
      execs_operandCode_left (hselect _)
    rw [hl.2] at hexec
    have hpath : Runs P.unassigned (operandCode (s.constants.add (.boolean stop)).1 l r
        ⟨s.slots.size, 0⟩ ⟨s.slots.size, n⟩ v rightCode) fp.operand.branches h
          ([⟨v, x, true⟩, ⟨⟨s.slots.size, n⟩, x, false⟩] ++ h) :=
      runs_operandCode_left x
    exact ⟨_, hexec, hpath, hagree.of_names_eq hs hstep hpath hnames, howned, read_cons ..⟩
  · simp only [if_neg hstop] at hselect ⊢
    have hexec : Instr.execs P table (operandCode (s.constants.add (.boolean stop)).1 l r
        ⟨s.slots.size, 0⟩ ⟨s.slots.size, n⟩ v rightCode) h = (do
          let h₁ ← Instr.execs P table rightCode h
          return ⟨v, P.read h₁ r, true⟩ :: ⟨⟨s.slots.size, 0⟩, P.read h₁ r, false⟩ :: h₁) :=
      execs_operandCode_right (hselect _)
    have hfollows := hright hr hrightCode (hconstants ▸ htable)
    refine ⟨fun {y σ'} hok => ?_, fun {stop'} herror hne => ?_⟩
    · obtain ⟨new, hexec', hpath', -, -, hread⟩ := hfollows.ok hok
      obtain rfl := hpure hok
      have hpath : Runs P.unassigned (operandCode (s.constants.add (.boolean stop)).1 l r
          ⟨s.slots.size, 0⟩ ⟨s.slots.size, n⟩ v rightCode) fp.operand.branches h
            (⟨v, y, true⟩ :: ⟨⟨s.slots.size, 0⟩, y, false⟩ :: new ++ h) :=
        runs_operandCode_right y hpath'
      refine ⟨_, ?_, hpath, hagree.of_names_eq hs hstep hpath hnames, howned, read_cons ..⟩
      rw [hexec, hexec', ← hread]
      rfl
    · rw [hexec, hfollows.error herror hne]
      rfl

theorem shortCircuit_simulates {fl fr : Footprint} {left right : LowerM Version}
    {run : Except (Stop A) (Value A × Store A)}
    {runRight : Store A → Except (Stop A) (Value A × Store A)} (type : TypeVar) (stop : Bool)
    (hs : s.Separate) (hleft : Simulates P table fl (ValueIn P) left run s h)
    (hlowers : LowersValue fl left) (hlowersRight : LowersValue fr right)
    (hpure : ∀ {x σ y σ'}, run = .ok (x, σ) → runRight σ = .ok (y, σ') → σ' = σ)
    (hright : ∀ {x σ t h'}, run = .ok (x, σ) → t.Separate → Agree P σ t h' →
      Simulates P table fr (ValueIn P) right (runRight σ) t h') :
    Simulates P table (fl.seq fr.operand) (ValueIn P) (shortCircuit type stop left right) (do
      let (l, σ) ← run
      if P.isConstant (.boolean stop) l then return (l, σ) else runRight σ) s h := by
  have hlowers' (l : Version) : LowersValue fr.operand (shortCircuit type stop (pure l) right) := by
    have hpure : LowersBlock .none (pure l : LowerM Version) := .pure_none l rfl
    have hoperand := shortCircuit_lowers type stop hpure hlowersRight
    rwa [Footprint.none_seq] at hoperand
  have hbind : shortCircuit type stop left right =
      left >>= fun l => shortCircuit type stop (pure l) right := rfl
  rw [hbind]
  refine hleft.bind hs hlowers hlowers' fun {l s₁ x σ₁ new} _ hrun hs₁ _ hagree hl => ?_
  have hstart : Agree P σ₁ (operandStart type stop s₁) (new ++ h) :=
    ⟨hagree.values, fun d hd => (Lowering.owns_push rfl).2 (.inl (hagree.bounded d hd))⟩
  exact operand_simulates type hs₁ hagree hl hlowersRight (hpure hrun)
    (hright hrun (operandStart_separate hs₁ type stop) hstart)

/-- The payload of one variant; any other variant is given back. -/
theorem unwrapVariant_simulates (type : TypeVar) (name : String) {v : Version} {x : Value A}
    (hs : s.Separate) (hagree : Agree P σ s h) (hv : ValueIn P v x s h) :
    Simulates P table .unwrap (ValueIn P) (unwrapVariant type v name)
      (do return (← x.unwrap name, σ)) s h := by
  intro w s' code hx hcode _
  obtain ⟨⟨code', hcode', hstep⟩, hgives⟩ := unwrapVariant_lowers type v name hs hx
  obtain rfl := List.append_cancel_left (hcode'.symm.trans hcode)
  have howned := (hgives w rfl).owned
  obtain ⟨rfl, rfl⟩ := unwrapVariant_eq_ok_iff.1 hx
  obtain rfl : [.branchVariant v [⟨name, some ⟨s.slots.size, 0⟩, []⟩] [.op .giveBack [v] none]] = code' :=
    List.append_cancel_left ((Array.toList_push).symm.trans hcode')
  have hread := hv.2
  cases x with
  | atom a =>
    refine .of_stop fun _ => ?_
    rw [Instr.execs_singleton, Instr.exec, hread]
  | variant m payload =>
    have hselect : Instr.selectVariant m [⟨name, some ⟨s.slots.size, 0⟩, []⟩] =
        if m == name then some 0 else none := by
      rw [Instr.selectVariant, List.findIdx?_singleton, BEq.comm]
    by_cases hm : (m == name) = true
    · rw [if_pos hm] at hselect
      rw [Value.unwrap, if_pos hm]
      refine .of_ok ?_
      have hpath : Runs P.unassigned
          [.branchVariant v [⟨name, some ⟨s.slots.size, 0⟩, []⟩] [.op .giveBack [v] none]]
          Footprint.unwrap.branches h ([⟨⟨s.slots.size, 0⟩, payload, false⟩] ++ h) :=
        .variantArm 0 payload rfl rfl (.nil _) (.nil _)
      refine ⟨_, ?_, hpath, hagree.of_names_eq hs hstep hpath rfl, howned, read_cons ..⟩
      rw [Instr.execs_singleton, Instr.exec, hread]
      dsimp only
      rw [hselect]
      rfl
    · rw [if_neg hm] at hselect
      rw [Value.unwrap, if_neg hm]
      refine .of_stop fun _ => ?_
      rw [Instr.execs_singleton, Instr.exec, hread]
      dsimp only
      rw [hselect, ← hread]
      exact Instr.execs_singleton ..

end LowerM
end Monomorph
