import Monomorph.Proofs.Meaning.Branches

/-! # Lowered bodies run as their trees

`LowerM.expr_simulates`: every core expression is lowered to code that runs as the expression is
evaluated, wherever the visible locals agree. The induction follows the tree; the arms of a branch are
blocks (`BlockSimulates`), which may use the names visible around but declare none of them. -/

namespace Monomorph

variable {A : Type} {P : Primitives A} {table : List Constant} {s : Lowering}
  {h : History (Value A)} {σ : Store A} {visible : List String}

/-! ### Blocks -/

/-- Expressions in order are lowered to code that runs as they are evaluated, where the names visible are
among `visible`; they declare none of these. -/
structure BlockSimulates (P : Primitives A) (table : List Constant) (context : LowerContext)
    (visible : List String) (es : List (Expr TypeVar)) : Prop where
  simulates : ∀ {s h} {σ : Store A}, σ.map Prod.fst ⊆ visible → s.Separate → Agree P σ s h →
    Simulates P table (Expr.footprints es) (fun _ _ _ _ => True) (LowerM.exprs context es)
      (do return ((), ← Expr.evals P context.evaluate es σ)) s h
  names : ∀ {σ σ' : Store A}, Expr.evals P context.evaluate es σ = .ok σ' →
    σ'.map Prod.fst = (Expr.footprints es).declares.reverse ++ σ.map Prod.fst
  not_visible : ∀ n ∈ (Expr.footprints es).declares, n ∉ visible

theorem BranchArm.declares_footprint (arm : BranchArm) :
    arm.footprint.declares =
      (arm.binding.map Prod.fst).toList ++ (Expr.footprints arm.body).declares := by
  obtain ⟨binding, body⟩ := arm
  cases binding <;> rfl

namespace Branched

variable {context : LowerContext} {b : Branch} {start s' : Lowering} {v : Version}
  {constants : ConstantTable} {i : Instr} {lowered : List LoweredArm} {r : Option Version}

/-- A branch that takes an arm runs as the block of the arm, with the payload bound, is evaluated. -/
theorem follows_block (hb : Branched context b s v start constants i lowered r s') (hs : start.Separate)
    (hagree : Agree P σ start h) {code : List Instr}
    (hcode : s'.code.toList = start.code.toList ++ code)
    (htable : ∃ more, table = s'.constants.values.toList ++ more) (hvisible : σ.map Prod.fst ⊆ visible)
    {k : Nat} {binding : Option (String × TypeVar)} {body : List (Expr TypeVar)}
    (harm : b.arms[k]? = some ⟨binding, body⟩) (x : Value A)
    (hblock : BlockSimulates P table context ((binding.map Prod.fst).toList ++ visible) body)
    (hnew : ∀ n ∈ binding.map Prod.fst, n ∉ visible)
    (hexec : ∀ {a}, lowered[k]? = some a → (binding = none → a.binding = none) →
      Instr.exec P table i h = Instr.execs P table a.code (payloadHistory a.binding x ++ h)) :
    Follows P table (.branch (b.arms.map BranchArm.footprint)) code s' h
      (fun y => ResultIn P r y s') (do
        let inner ← Expr.evals P context.evaluate body (Store.payload (binding.map Prod.fst) x ++ σ)
        return (P.unit, σ.leave inner)) := by
  have hpayload : (Store.payload (binding.map Prod.fst) x).map Prod.fst =
      (binding.map Prod.fst).toList := by
    cases binding <;> rfl
  refine hb.follows hs hagree hcode htable harm (fun n hn hmem => ?_) (fun hrun => ?_)
    (fun ht hstart => ?_) hexec
  · rw [BranchArm.declares_footprint] at hn
    rcases List.mem_append.1 hn with hn | hn
    · exact hnew n (Option.mem_toList.1 hn) (hvisible hmem)
    · exact hblock.not_visible n hn (List.mem_append_right _ (hvisible hmem))
  · rw [hblock.names hrun, BranchArm.declares_footprint, List.map_append, hpayload]
    cases binding <;> simp
  · refine hblock.simulates ?_ ht hstart
    rw [List.map_append, hpayload]
    exact List.append_subset.2 ⟨List.subset_append_left _ _,
      List.Subset.trans hvisible (List.subset_append_right _ _)⟩

end Branched

/-! ### Branches -/

namespace LowerM

variable {context : LowerContext} {m : Mark TypeVar} {run : Except (Stop A) (Value A × Store A)}

theorem ifElse_simulates {condition : Expr TypeVar} {yes no : List (Expr TypeVar)} (hs : s.Separate)
    (hcondition : Simulates P table condition.footprint (ResultIn P) (expr context condition) run s h)
    (hvisible : ∀ {x σ'}, run = .ok (x, σ') → σ'.map Prod.fst ⊆ visible)
    (hyes : BlockSimulates P table context visible yes)
    (hno : BlockSimulates P table context visible no) :
    Simulates P table (Expr.ifElse m condition yes no).footprint (ResultIn P)
      (expr context (.ifElse m condition yes no)) (do
        let (v, σ) ← run
        let inner ← (if P.isConstant (.boolean true) v then Expr.evals P context.evaluate yes σ
          else Expr.evals P context.evaluate no σ)
        return (P.unit, σ.leave inner)) s h := by
  intro r s' code hx hcode htable
  obtain ⟨v, start, yes', no', hb⟩ := ifElse_eq_ok hx
  rw [Expr.footprint_branch rfl]
  refine hb.simulates hs hcondition hcode htable
    fun {x σ new code} hrun hstart hagree hread hconstants hcode => ?_
  obtain ⟨more, hmore⟩ := hconstants
  have hselect := @selectValue_added A P table start.constants (.boolean true) more hmore x yes'.code
  have hyesArm : ([⟨none, yes⟩, ⟨none, no⟩] : List BranchArm)[0]? = some ⟨none, yes⟩ := rfl
  have hnoArm : ([⟨none, yes⟩, ⟨none, no⟩] : List BranchArm)[1]? = some ⟨none, no⟩ := rfl
  by_cases hx : P.isConstant (.boolean true) x = true
  · rw [if_pos hx] at hselect
    dsimp only
    rw [if_pos hx]
    refine hb.follows_block hstart hagree hcode htable (hvisible hrun) hyesArm P.unit hyes (by simp)
      fun ha hnone => ?_
    cases ha
    rw [Instr.exec, hread, hselect, hnone rfl]
    rfl
  · rw [if_neg hx] at hselect
    dsimp only
    rw [if_neg hx]
    refine hb.follows_block hstart hagree hcode htable (hvisible hrun) hnoArm P.unit hno (by simp)
      fun ha hnone => ?_
    cases ha
    rw [Instr.exec, hread, hselect, hnone rfl]
    rfl

theorem matchValue_simulates {value : Expr TypeVar} {arms : List (Expr TypeVar × List (Expr TypeVar))}
    {otherwise : List (Expr TypeVar)} (hs : s.Separate)
    (hvalue : Simulates P table value.footprint (ResultIn P) (expr context value) run s h)
    (hvisible : ∀ {x σ'}, run = .ok (x, σ') → σ'.map Prod.fst ⊆ visible)
    (harms : ∀ arm ∈ arms, BlockSimulates P table context visible arm.2)
    (hotherwise : BlockSimulates P table context visible otherwise) :
    Simulates P table (Expr.matchValue m value arms otherwise).footprint (ResultIn P)
      (expr context (.matchValue m value arms otherwise)) (do
        let (v, σ) ← run
        let inner ← (match selectValue P context.evaluate v arms with
          | some k => Expr.evalValueArm P context.evaluate arms k σ
          | none => Expr.evals P context.evaluate otherwise σ)
        return (P.unit, σ.leave inner)) s h := by
  intro r s' code hx hcode htable
  obtain ⟨v, start, ids, constants, bs, last, hids, hlen, hb⟩ := matchValue_eq_ok hx
  rw [Expr.footprint_branch rfl]
  refine hb.simulates hs hvalue hcode htable
    fun {x σ new code} hrun hstart hagree hread hconstants hcode => ?_
  obtain ⟨more, hmore⟩ := hconstants
  have hcodes : (bs.map LoweredArm.code).length = arms.length := by rw [List.length_map, hlen]
  have hselect := @selectValue_evaluated A P table start context _ arms ids hids more hmore x _ hcodes
  have harmsLen : (valueBranchArms arms).length = arms.length := List.length_map _
  dsimp only
  cases hk : selectValue P context.evaluate x arms with
  | some k =>
    obtain ⟨hlt, -⟩ := List.findIdx?_eq_some_iff_getElem.1 hk
    have harm : arms[k]? = some arms[k] := List.getElem?_eq_getElem hlt
    have hbranch : (valueBranchArms arms ++ [⟨none, otherwise⟩])[k]? = some ⟨none, arms[k].2⟩ := by
      rw [List.getElem?_append_left (harmsLen ▸ hlt), valueBranchArms, List.getElem?_map, harm]
      rfl
    dsimp only
    rw [Expr.evalValueArm_eq harm]
    refine hb.follows_block hstart hagree hcode htable (hvisible hrun) hbranch P.unit
      (harms _ (List.getElem_mem hlt)) (by simp) fun {a} ha hnone => ?_
    rw [List.getElem?_append_left (hlen.symm ▸ hlt)] at ha
    obtain ⟨id, hid⟩ : ∃ id, ids[k]? = some id :=
      ⟨_, List.getElem?_eq_getElem ((evaluateArms_eq_ok hids).1.symm ▸ hlt)⟩
    have hcode : (ids.zip (bs.map LoweredArm.code))[k]? = some (id, a.code) := by
      rw [List.getElem?_zip_eq_some, List.getElem?_map, ha]
      exact ⟨hid, rfl⟩
    rw [Instr.exec, hread, hselect, hk, hnone rfl]
    exact Instr.execValueArm_eq P table hcode _
  | none =>
    have hbranch : (valueBranchArms arms ++ [⟨none, otherwise⟩])[arms.length]? =
        some ⟨none, otherwise⟩ := by
      rw [← harmsLen, List.getElem?_concat_length]
    refine hb.follows_block hstart hagree hcode htable (hvisible hrun) hbranch P.unit hotherwise (by simp)
      fun {a} ha hnone => ?_
    rw [← hlen, List.getElem?_concat_length] at ha
    cases ha
    rw [Instr.exec, hread, hselect, hk, hnone rfl]
    rfl

theorem execVariantArm_codeArm {arms : List (VariantArm TypeVar (List (Expr TypeVar)))}
    {bs : List LoweredArm} {k : Nat} {arm : VariantArm TypeVar (List (Expr TypeVar))} {a : LoweredArm}
    (harm : arms[k]? = some arm) (ha : bs[k]? = some a) (payload : Value A) (h : History (Value A)) :
    Instr.execVariantArm P table (List.zipWith codeArm arms bs) k payload h =
      Instr.execs P table a.code (payloadHistory a.binding payload ++ h) := by
  have hcode : (List.zipWith codeArm arms bs)[k]? = some (codeArm arm a) := by
    rw [List.getElem?_zipWith, harm, ha]
  exact Instr.execVariantArm_eq P table hcode payload h

theorem follows_variantArm {b : Branch} {start s' : Lowering} {v : Version} {constants : ConstantTable}
    {lowered : List LoweredArm} {r : Option Version}
    {arms : List (VariantArm TypeVar (List (Expr TypeVar)))} {bs : List LoweredArm} {last : List Instr}
    (hb : Branched context b s v start constants (.branchVariant v (List.zipWith codeArm arms bs) last)
      lowered r s')
    (hlen : bs.length = arms.length) (hs : start.Separate) (hagree : Agree P σ start h)
    {code : List Instr} (hcode : s'.code.toList = start.code.toList ++ code)
    (htable : ∃ more, table = s'.constants.values.toList ++ more) (hvisible : σ.map Prod.fst ⊆ visible)
    (harms : ∀ arm ∈ arms, BlockSimulates P table context (arm.binding.toList ++ visible) arm.body ∧
      ∀ n ∈ arm.binding, n ∉ visible)
    {n : String} {payload : Value A} (hread : P.read h v = .variant n payload) {k : Nat}
    (hk : selectVariant n arms = some k) (hbranch : b.arms[k]? = (variantBranchArms arms)[k]?)
    (hlowered : lowered[k]? = bs[k]?) :
    Follows P table (.branch (b.arms.map BranchArm.footprint)) code s' h
      (fun y => ResultIn P r y s') (do
        let inner ← Expr.evalVariantArm P context.evaluate arms k payload σ
        return (P.unit, σ.leave inner)) := by
  obtain ⟨hlt, -⟩ := List.findIdx?_eq_some_iff_getElem.1 hk
  have harm : arms[k]? = some arms[k] := List.getElem?_eq_getElem hlt
  have hbranch : b.arms[k]? =
      some ⟨arms[k].binding.map fun n => (n, arms[k].payload), arms[k].body⟩ := by
    rw [hbranch, variantBranchArms, List.getElem?_map, harm]
    rfl
  obtain ⟨hblock, hnew⟩ := harms _ (List.getElem_mem hlt)
  have hnames : (arms[k].binding.map fun n => (n, arms[k].payload)).map Prod.fst = arms[k].binding := by
    cases arms[k].binding <;> rfl
  rw [Expr.evalVariantArm_eq harm, ← hnames]
  rw [← hnames] at hblock hnew
  refine hb.follows_block hs hagree hcode htable hvisible hbranch payload hblock hnew fun {a} ha _ => ?_
  rw [Instr.exec, hread]
  dsimp only
  rw [selectVariant_codeArms n hlen, hk]
  exact execVariantArm_codeArm harm (hlowered ▸ ha) payload h

theorem matchVariant_simulates {value : Expr TypeVar}
    {arms : List (VariantArm TypeVar (List (Expr TypeVar)))} {otherwise : List (Expr TypeVar)}
    (hs : s.Separate)
    (hvalue : Simulates P table value.footprint (ResultIn P) (expr context value) run s h)
    (hvisible : ∀ {x σ'}, run = .ok (x, σ') → σ'.map Prod.fst ⊆ visible)
    (harms : ∀ arm ∈ arms, BlockSimulates P table context (arm.binding.toList ++ visible) arm.body ∧
      ∀ n ∈ arm.binding, n ∉ visible)
    (hotherwise : BlockSimulates P table context visible otherwise) :
    Simulates P table (Expr.matchVariant m value arms (some otherwise)).footprint (ResultIn P)
      (expr context (.matchVariant m value arms (some otherwise))) (do
        let (v, σ) ← run
        match v with
        | .variant n payload => do
          let inner ← (match selectVariant n arms with
            | some k => Expr.evalVariantArm P context.evaluate arms k payload σ
            | none => Expr.evals P context.evaluate otherwise σ)
          return (P.unit, σ.leave inner)
        | .atom _ => .error (.stuck (.split v))) s h := by
  intro r s' code hx hcode htable
  obtain ⟨v, start, bs, last, hlen, hb⟩ := matchVariant_eq_ok hx
  rw [Expr.footprint_branch rfl]
  refine hb.simulates hs hvalue hcode htable
    fun {x σ new code} hrun hstart hagree hread hconstants hcode => ?_
  have harmsLen : (variantBranchArms arms).length = arms.length := List.length_map _
  cases x with
  | atom a =>
    refine hb.stops hstart hcode fun _ => ?_
    rw [Instr.exec, hread]
  | variant n payload =>
    have hselect := selectVariant_codeArms n hlen
    dsimp only
    cases hk : selectVariant n arms with
    | some k =>
      obtain ⟨hlt, -⟩ := List.findIdx?_eq_some_iff_getElem.1 hk
      exact follows_variantArm hb hlen hstart hagree hcode htable (hvisible hrun) harms hread hk
        (List.getElem?_append_left (harmsLen ▸ hlt)) (List.getElem?_append_left (hlen.symm ▸ hlt))
    | none =>
      have hbranch : (variantBranchArms arms ++ [⟨none, otherwise⟩])[arms.length]? =
          some ⟨none, otherwise⟩ := by
        rw [← harmsLen, List.getElem?_concat_length]
      refine hb.follows_block hstart hagree hcode htable (hvisible hrun) hbranch P.unit hotherwise (by simp)
        fun {a} ha hnone => ?_
      rw [← hlen, List.getElem?_concat_length] at ha
      cases ha
      rw [Instr.exec, hread]
      dsimp only
      rw [hselect, hk, hnone rfl]
      rfl

theorem matchListed_simulates {value : Expr TypeVar}
    {arms : List (VariantArm TypeVar (List (Expr TypeVar)))} (hs : s.Separate)
    (hvalue : Simulates P table value.footprint (ResultIn P) (expr context value) run s h)
    (hvisible : ∀ {x σ'}, run = .ok (x, σ') → σ'.map Prod.fst ⊆ visible)
    (harms : ∀ arm ∈ arms, BlockSimulates P table context (arm.binding.toList ++ visible) arm.body ∧
      ∀ n ∈ arm.binding, n ∉ visible) :
    Simulates P table (Expr.matchVariant m value arms none).footprint (ResultIn P)
      (expr context (.matchVariant m value arms none)) (do
        let (v, σ) ← run
        match v with
        | .variant n payload =>
          match selectVariant n arms with
          | some k => do
            let inner ← Expr.evalVariantArm P context.evaluate arms k payload σ
            return (P.unit, σ.leave inner)
          | none => .error .unmatched
        | .atom _ => .error (.stuck (.split v))) s h := by
  intro r s' code hx hcode htable
  obtain ⟨v, start, bs, hlen, hb⟩ := matchListed_eq_ok hx
  rw [Expr.footprint_branch rfl]
  refine hb.simulates hs hvalue hcode htable
    fun {x σ new code} hrun hstart hagree hread hconstants hcode => ?_
  cases x with
  | atom a =>
    refine hb.stops hstart hcode fun _ => ?_
    rw [Instr.exec, hread]
  | variant n payload =>
    dsimp only
    cases hk : selectVariant n arms with
    | some k =>
      exact follows_variantArm hb hlen hstart hagree hcode htable (hvisible hrun) harms hread hk rfl rfl
    | none => exact hb.stops hstart hcode fun hne => absurd rfl hne

/-! ### The induction -/

theorem names_subset {evaluate : Evaluator} {e : Expr TypeVar} {σ' : Store A} {x : Value A}
    (hcore : e.isCore visible = true) (hvisible : σ.map Prod.fst ⊆ visible)
    (h : e.eval P evaluate σ = .ok (x, σ')) : σ'.map Prod.fst ⊆ e.footprint.declares ++ visible := by
  rw [Expr.eval_names e hcore h]
  intro n hn
  rcases List.mem_append.1 hn with hn | hn
  · exact List.mem_append_left _ (List.mem_reverse.1 hn)
  · exact List.mem_append_right _ (hvisible hn)

mutual

/-- Core expressions are lowered to code that runs as they are evaluated. -/
theorem expr_simulates (context : LowerContext) : (e : Expr TypeVar) → ∀ {visible s h} {σ : Store A},
    e.isCore visible = true → σ.map Prod.fst ⊆ visible → s.Separate → Agree P σ s h →
      Simulates P table e.footprint (ResultIn P) (expr context e) (e.eval P context.evaluate σ) s h
  | .literal m value, _, _, _, _, _, _, hs, hagree =>
    (emitInto_ok_simulates m.note (.load value) [] hs hagree nofun nofun fun _ => rfl).some
  | .localVar m name, _, _, _, _, _, _, hs, hagree => localVar_simulates m.note name hs hagree
  | .define m name _ value, _, _, _, _, hcore, hvisible, hs, hagree => by
    have hlowers := expr_lowers context value
    have hvalue := expr_simulates context value (Bool.and_eq_true_iff.1 hcore).1 hvisible hs hagree
    exact define_simulates m.note name hs (asValue_simulates value.note hs hvalue hlowers)
      (asValue_lowers value.note hlowers)
  | .declare m name _, _, _, _, _, _, _, _, hagree => declare_simulates m.note name hagree
  | .assign _ (.localVar _ name) value, _, _, _, _, hcore, hvisible, hs, hagree => by
    have hlowers := expr_lowers context value
    have hvalue := expr_simulates context value hcore hvisible hs hagree
    exact (asValue_simulates value.note hs hvalue hlowers).bind hs (asValue_lowers value.note hlowers)
      (fun v => assign_lowers name v) fun _ _ hs₁ _ hagree₁ hv => assign_simulates name hs₁ hagree₁ hv
  | .giveBack _ value, _, _, _, _, hcore, hvisible, hs, hagree => by
    rw [Expr.isCore] at hcore
    have hlowers := expr_lowers context value
    have hvalue := expr_simulates context value hcore hvisible hs hagree
    have hlowers' (v : Version) : LowersExpr .none (do emit (.op .giveBack [v] none); return none) :=
      (emit_lowers rfl rfl rfl).none_bind fun _ => .pure_none _ rfl
    exact (asValue_simulates value.note hs hvalue hlowers).bind_none hs
      (asValue_lowers value.note hlowers) hlowers' fun _ _ _ _ _ hv => giveBack_simulates hv
  | .binary m op left right, _, _, _, _, hcore, hvisible, hs, hagree => by
    have hlowersL := asValue_lowers left.note (expr_lowers context left)
    have hlowersR := asValue_lowers right.note (expr_lowers context right)
    cases op with
    | and =>
      obtain ⟨hl, hr⟩ := Bool.and_eq_true_iff.1 hcore
      obtain ⟨hr, hpure⟩ := Bool.and_eq_true_iff.1 hr
      have hleft := expr_simulates context left hl hvisible hs hagree
      exact (shortCircuit_simulates m.note false hs
        (asValue_simulates left.note hs hleft (expr_lowers context left)) hlowersL hlowersR
        (fun _ hrun => Expr.eval_pure right hpure hrun) fun hrun ht hagree₁ =>
          asValue_simulates right.note ht
            (expr_simulates context right hr (names_subset hl hvisible hrun) ht hagree₁)
            (expr_lowers context right)).some
    | or =>
      obtain ⟨hl, hr⟩ := Bool.and_eq_true_iff.1 hcore
      obtain ⟨hr, hpure⟩ := Bool.and_eq_true_iff.1 hr
      have hleft := expr_simulates context left hl hvisible hs hagree
      exact (shortCircuit_simulates m.note true hs
        (asValue_simulates left.note hs hleft (expr_lowers context left)) hlowersL hlowersR
        (fun _ hrun => Expr.eval_pure right hpure hrun) fun hrun ht hagree₁ =>
          asValue_simulates right.note ht
            (expr_simulates context right hr (names_subset hl hvisible hrun) ht hagree₁)
            (expr_lowers context right)).some
    | _ =>
      obtain ⟨hl, hr⟩ := Bool.and_eq_true_iff.1 hcore
      have hleft := expr_simulates context left hl hvisible hs hagree
      refine (asValue_simulates left.note hs hleft (expr_lowers context left)).bind hs hlowersL
        (fun l => hlowersR.bind_none fun r => emitInto_some_lowers ..)
        fun {l _ x _ _} _ hrun hs₁ _ hagree₁ hx => ?_
      have hright := expr_simulates context right hr (names_subset hl hvisible hrun) hs₁ hagree₁
      refine (asValue_simulates right.note hs₁ hright (expr_lowers context right)).bind_none hs₁ hlowersR
        (fun r => emitInto_some_lowers ..) fun {r _ y _ _} _ _ hs₂ hkept hagree₂ hy => ?_
      refine (emitInto_simulates m.note (.binary _) [l, r] hs₂ hagree₂ nofun nofun fun dest => ?_).some
      rw [← hx.2, ← hy.2, ← (hkept hx.1).2]
      rfl
  | .unary m op operand, _, _, _, _, hcore, hvisible, hs, hagree => by
    rw [Expr.isCore] at hcore
    have hlowers := expr_lowers context operand
    have hvalue := expr_simulates context operand hcore hvisible hs hagree
    refine (asValue_simulates operand.note hs hvalue hlowers).bind_none hs
      (asValue_lowers operand.note hlowers) (fun v => emitInto_some_lowers ..)
      fun {v _ x _ _} _ _ hs₁ _ hagree₁ hv => ?_
    refine (emitInto_simulates m.note (.unary op) [v] hs₁ hagree₁ nofun nofun fun dest => ?_).some
    rw [← hv.2]
    rfl
  | .variant m name payload, _, _, _, _, hcore, hvisible, hs, hagree => by
    rw [Expr.isCore] at hcore
    have hlowers := expr_lowers context payload
    have hvalue := expr_simulates context payload hcore hvisible hs hagree
    refine (asValue_simulates payload.note hs hvalue hlowers).bind_none hs
      (asValue_lowers payload.note hlowers) (fun v => emitInto_some_lowers ..)
      fun {v _ x _ _} _ _ hs₁ _ hagree₁ hv => ?_
    refine (emitInto_ok_simulates m.note (.loadVariant name) [v] hs₁ hagree₁ nofun nofun
      fun dest => ?_).some
    rw [← hv.2]
    rfl
  | .unwrap m value name, _, _, _, _, hcore, hvisible, hs, hagree => by
    rw [Expr.isCore] at hcore
    have hlowers := expr_lowers context value
    have hvalue := expr_simulates context value hcore hvisible hs hagree
    have hlowers' (v : Version) : LowersExpr .unwrap (do return some (← unwrapVariant m.note v name)) :=
      (unwrapVariant_lowers m.note v name).bind_pure fun _ => rfl
    exact (asValue_simulates value.note hs hvalue hlowers).bind hs (asValue_lowers value.note hlowers)
      hlowers' fun _ _ hs₁ _ hagree₁ hv => (unwrapVariant_simulates m.note name hs₁ hagree₁ hv).some
  | .ifElse _ condition yes no, _, _, _, _, hcore, hvisible, hs, hagree => by
    obtain ⟨hc, hbranches⟩ := Bool.and_eq_true_iff.1 hcore
    obtain ⟨hyes, hno⟩ := Bool.and_eq_true_iff.1 hbranches
    exact ifElse_simulates hs (expr_simulates context condition hc hvisible hs hagree)
      (fun hrun => names_subset hc hvisible hrun) (block_simulates context yes hyes)
      (block_simulates context no hno)
  | .matchValue _ value arms otherwise, _, _, _, _, hcore, hvisible, hs, hagree => by
    obtain ⟨hv, hbranches⟩ := Bool.and_eq_true_iff.1 hcore
    obtain ⟨harms, hotherwise⟩ := Bool.and_eq_true_iff.1 hbranches
    exact matchValue_simulates hs (expr_simulates context value hv hvisible hs hagree)
      (fun hrun => names_subset hv hvisible hrun) (valueArms_simulate context arms harms)
      (block_simulates context otherwise hotherwise)
  | .matchVariant _ value arms (some otherwise), _, _, _, _, hcore, hvisible, hs, hagree => by
    obtain ⟨hv, hbranches⟩ := Bool.and_eq_true_iff.1 hcore
    obtain ⟨harms, hotherwise⟩ := Bool.and_eq_true_iff.1 hbranches
    exact matchVariant_simulates hs (expr_simulates context value hv hvisible hs hagree)
      (fun hrun => names_subset hv hvisible hrun) (variantArms_simulate context arms harms)
      (block_simulates context otherwise hotherwise)
  | .matchVariant _ value arms none, _, _, _, _, hcore, hvisible, hs, hagree => by
    obtain ⟨hv, harms⟩ := Bool.and_eq_true_iff.1 hcore
    exact matchListed_simulates hs (expr_simulates context value hv hvisible hs hagree)
      (fun hrun => names_subset hv hvisible hrun) (variantArms_simulate context arms harms)

theorem block_simulates (context : LowerContext) : (es : List (Expr TypeVar)) →
    ∀ {visible}, Expr.areCore visible es = true → BlockSimulates P table context visible es
  | [], _, _ => ⟨fun _ _ hagree => .pure hagree trivial, fun h => by cases h; rfl, nofun⟩
  | e :: rest, visible, hcore => by
    obtain ⟨he, hrest⟩ := Bool.and_eq_true_iff.1 hcore
    refine ⟨fun {s h σ} hvisible hs hagree => ?_, Expr.evals_names _ hcore,
      Expr.not_visible_of_areCore _ hcore⟩
    have hhead := expr_simulates context e he hvisible hs hagree
    have hlowers := expr_lowers context e
    have hlowers' (_ : Option Version) := exprs_lowers context rest
    rw [Expr.evals, bind_assoc]
    refine hhead.bind hs hlowers hlowers' fun _ hrun hs₁ _ hagree₁ _ => ?_
    exact (block_simulates context rest hrest).simulates (names_subset he hvisible hrun) hs₁ hagree₁

theorem valueArms_simulate (context : LowerContext) :
    (arms : List (Expr TypeVar × List (Expr TypeVar))) → ∀ {visible},
      Expr.areValueArmsCore visible arms = true →
        ∀ arm ∈ arms, BlockSimulates P table context visible arm.2
  | [], _, _ => nofun
  | (_, body) :: rest, _, hcore => by
    obtain ⟨hbody, hrest⟩ := Bool.and_eq_true_iff.1 (Bool.and_eq_true_iff.1 hcore).2
    exact List.forall_mem_cons.2
      ⟨block_simulates context body hbody, valueArms_simulate context rest hrest⟩

theorem variantArms_simulate (context : LowerContext) :
    (arms : List (VariantArm TypeVar (List (Expr TypeVar)))) → ∀ {visible},
      Expr.areVariantArmsCore visible arms = true →
        ∀ arm ∈ arms, BlockSimulates P table context (arm.binding.toList ++ visible) arm.body ∧
          ∀ n ∈ arm.binding, n ∉ visible
  | [], _, _ => nofun
  | ⟨_, some n, _, body⟩ :: rest, _, hcore => by
    obtain ⟨hnew, hbody⟩ := Bool.and_eq_true_iff.1 hcore
    obtain ⟨hbody, hrest⟩ := Bool.and_eq_true_iff.1 hbody
    exact List.forall_mem_cons.2
      ⟨⟨block_simulates context body hbody, by simpa using hnew⟩, variantArms_simulate context rest hrest⟩
  | ⟨_, none, _, body⟩ :: rest, _, hcore => by
    obtain ⟨hbody, hrest⟩ := Bool.and_eq_true_iff.1 hcore
    exact List.forall_mem_cons.2
      ⟨⟨block_simulates context body hbody, nofun⟩, variantArms_simulate context rest hrest⟩

end

end LowerM
end Monomorph
