import Monomorph.Proofs.Code.Lowered

/-! # Updates at joins

Which updates of a local survive the join after a branch. `History.updated` is the value that a local
should have: the one assigned to it last on the way through the arm, else the one it had before. The join
keeps it unless the arm declares a local of the same name for itself (`join_carries_iff`): at the end of
such an arm the name stands for the new local, and the join gives the outer one the version it had before
the branch, whatever the arm assigned to it first (`join_drops_update`). -/

namespace Monomorph

/-- The value of the local that stood for the version `v`, after the definitions `new` on top of `h`. -/
def History.updated {V : Type} (undefined : V) (h new : History V) (v : Version) : V :=
  (new.lastAssigned v.slot).getD (h.newest undefined [v])

/-- Wherever a branch is lowered, for every arm, every path to the end of the arm and through the join,
and every local visible before the branch: the version that the name stands for after the join carries
what the name stands for at the end of the arm, or, if the arm declares the name, what it stood for before
the branch. So a local that nothing inside the arm loses has its updated value exactly if the arm does
not declare the name or left the local with the value it had. -/
theorem join_carries_iff {context : LowerContext} {e : Expr TypeVar} {b : Branch} {s s' : Lowering}
    {r : Option Version} (hb : e.branch? = some b) (hs : s.Separate)
    (h : LowerM.expr context e s = .ok r s') :
    ∃ value start i joinCode,
      LowerM.asValue b.subject.note (LowerM.expr context b.subject) s = .ok value start ∧
      s'.code.toList = start.code.toList ++ i :: joinCode ∧
      ∀ {k : Nat} {arm : BranchArm}, b.arms[k]? = some arm →
        ∃ t t' bound code ends, t.names = start.names ∧
          LowerM.block context arm t = .ok ⟨bound, code, ends⟩ t' ∧ i.arms[k]? = some (bound, code) ∧
          ∀ {V : Type} {undefined payload : V} {before inArm after : History V},
            (∀ d ∈ before, start.Owns d.version) →
            Runs undefined code (Expr.footprints arm.body).branches
              (payloadHistory bound payload ++ before) (inArm ++ before) →
            Runs undefined joinCode [] (inArm ++ before) after →
            ∀ {n v}, start.names.get? n = some v → ∃ w, s'.names.get? n = some w ∧
              (n ∈ arm.footprint.declares →
                after.newest undefined [w] = before.newest undefined [v]) ∧
              (n ∉ arm.footprint.declares → ∃ u, ends.get? n = some u ∧
                after.newest undefined [w] = (inArm ++ before).newest undefined [u]) ∧
              (n ∉ (Expr.footprints arm.body).loses →
                (after.newest undefined [w] = before.updated undefined inArm v ↔
                  (n ∈ arm.footprint.declares →
                    before.updated undefined inArm v = before.newest undefined [v]))) := by
  obtain ⟨value, start, constants, i, lowered, h⟩ := LowerM.branch_eq_ok hb h
  have hbodies := fun (arm : BranchArm) (_ : arm ∈ b.arms) => LowerM.exprs_lowers context arm.body
  have hstart : start.Separate :=
    (LowerM.asValue_lowers _ (LowerM.expr_lowers context b.subject) hs h.subject).1.separate
  obtain ⟨-, hlen, s₁, phis, -, -, harms, hjoined, hcode, hstep⟩ := h.spec hstart hbodies
  refine ⟨value, start, i, phis, h.subject, hcode, fun {k arm} harm => ?_⟩
  obtain ⟨s₂, hblocks, -⟩ := h.rest
  have hbegun : ({ start with constants } : Lowering).Separate := hstart.of_names_eq rfl id
  obtain ⟨⟨bound, code, ends⟩, t, t', ha, hblock, -, hnames, -⟩ :=
    LowerM.exists_block_of_blocks hbodies hbegun hblocks harm
  have hmem : LoweredArm.toArm arm ⟨bound, code, ends⟩ ∈
      List.zipWith LoweredArm.toArm b.arms lowered :=
    List.mem_of_getElem? (List.getElem?_zipWith_eq_some.2 ⟨arm, _, harm, ha, rfl⟩)
  refine ⟨t, t', bound, code, ends, hnames, hblock, ?_, ?_⟩
  · rw [h.arms_eq, LoweredArm.getElem?_codeArms (List.getElem?_eq_some_iff.1 ha).1, ha]
    rfl
  intro V undefined payload before inArm after hbounds hrun hjoin n v hv
  have hshapes : arm.footprint.branches = (Expr.footprints arm.body).branches := by
    obtain ⟨binding, body⟩ := arm
    cases binding <;> rfl
  have hloses (hlost : n ∉ (Expr.footprints arm.body).loses) : n ∉ arm.footprint.loses := by
    obtain ⟨binding, body⟩ := arm
    cases binding with
    | none => exact hlost
    | some bound => exact fun h => hlost (List.mem_of_mem_filter h)
  have hrun : Runs undefined (LoweredArm.toArm arm ⟨bound, code, ends⟩).code arm.footprint.branches
      before (inArm ++ before) := by
    rw [hshapes]
    exact hrun.payload payload
  obtain ⟨w, hw, -⟩ := hstep.kept nofun hv
  obtain ⟨inJoin, rfl, -, hjoinPaths⟩ := harms.join_paths hstart hjoined rfl hmem hbounds hrun hjoin
  obtain ⟨hvalue, -⟩ := hjoinPaths hv hw
  refine ⟨w, hw, fun hn => ?_, fun hn => ?_, fun hlost => ?_⟩
  · obtain ⟨-, hend⟩ | ⟨hn', -⟩ := harms.endVersion_spec hstart hmem hv
    · rw [hvalue, hend]
      exact harms.newest_eq_of_mem hstart hmem hrun hv
    · exact absurd hn hn'
  · obtain ⟨hn', -⟩ | ⟨-, hget, -⟩ := harms.endVersion_spec hstart hmem hv
    · exact absurd hn' hn
    · exact ⟨_, hget, hvalue⟩
  · rw [hvalue]
    exact harms.carries_iff hstart hmem hbounds hrun hv fun _ => hloses hlost

/-! ### An arm with and without a local of its own -/

/-- Nothing but the branch matters for the states below. -/
def plainContext : LowerContext := ⟨⟨#[], default⟩, #[], default, fun _ => .error default⟩

/-- Lowering after `x` was declared with the value `1`, in a body with the parameter `c`. -/
def declaredState : Lowering where
  constants := .empty
  hoisted := []
  slots := #[⟨default, true, false, 1⟩, ⟨default, false, false, 1⟩]
  code := #[.op (.load (.integer 1)) [] (some ⟨1, 0⟩)]
  names := (Row.empty.insert "c" ⟨0, 0⟩).insert "x" ⟨1, 0⟩

theorem declaredState_separate : declaredState.Separate := by
  have hnames {n : String} {v : Version} (h : declaredState.names.get? n = some v) :
      n = "c" ∧ v = ⟨0, 0⟩ ∨ n = "x" ∧ v = ⟨1, 0⟩ := by
    have hmem : (n, v) ∈ [("c", (⟨0, 0⟩ : Version)), ("x", ⟨1, 0⟩)] := (Row.mem_entries_iff _).2 h
    simpa using hmem
  constructor
  · intro n v h
    obtain ⟨-, rfl⟩ | ⟨-, rfl⟩ := hnames h <;> exact ⟨_, rfl, Nat.one_pos⟩
  · intro n m v w h h' heq
    obtain ⟨rfl, rfl⟩ | ⟨rfl, rfl⟩ := hnames h <;> obtain ⟨rfl, rfl⟩ | ⟨rfl, rfl⟩ := hnames h'
    · rfl
    · cases heq
    · cases heq
    · rfl

/-- A branch on `c` whose first arm assigns `2` to `x` and goes on with `more`. -/
def assigningBranch (more : List (Expr TypeVar)) : Expr TypeVar :=
  .ifElse default (.localVar default "c")
    (.assign default (.localVar default "x") (.literal default (.integer 2)) :: more) []

/-- Lowering after the branch, if the arm does nothing else. -/
def assignedState : Lowering where
  constants := ⟨#[.boolean true]⟩
  hoisted := []
  slots := #[⟨default, true, false, 1⟩, ⟨default, false, false, 3⟩, ⟨default, false, false, 1⟩]
  code := #[.op (.load (.integer 1)) [] (some ⟨1, 0⟩),
    .branchValue ⟨0, 0⟩
      [(0, [.op (.load (.integer 2)) [] (some ⟨2, 0⟩), .op .copy [⟨2, 0⟩] (some ⟨1, 1⟩)])] [],
    .op .phi [⟨1, 1⟩, ⟨1, 0⟩] (some ⟨1, 2⟩)]
  names := (Row.empty.insert "c" ⟨0, 0⟩).insert "x" ⟨1, 2⟩

theorem lower_assigningBranch :
    LowerM.expr plainContext (assigningBranch []) declaredState = .ok none assignedState := by
  with_unfolding_all rfl

/-- The arm that only assigns: after the join, `x` carries what it assigned. -/
theorem join_carries_assigned :
    ∃ (w : Version) (before inArm after : History Nat), assignedState.names.get? "x" = some w ∧
      Runs 0 [.op .phi [⟨1, 1⟩, ⟨1, 0⟩] (some ⟨1, 2⟩)] [] (inArm ++ before) after ∧
      inArm.lastAssigned 1 = some 2 ∧ after.newest 0 [w] = 2 := by
  obtain ⟨value, start, i, joinCode, hvalue, hcode, hall⟩ :=
    join_carries_iff rfl declaredState_separate lower_assigningBranch
  cases hvalue
  obtain ⟨rfl, rfl⟩ := List.cons.inj (List.cons.inj hcode).2
  obtain ⟨t, t', bound, code, ends, -, -, harm, hpath⟩ := hall (k := 0) rfl
  cases harm
  let before : History Nat := [⟨⟨1, 0⟩, 1, false⟩]
  let inArm : History Nat := [⟨⟨1, 1⟩, 2, false⟩, ⟨⟨2, 0⟩, 2, false⟩]
  have hbefore : ∀ d ∈ before, declaredState.Owns d.version := by
    simpa [before] using declaredState_separate.owned (n := "x") rfl
  obtain ⟨w, hw, -, -, hcarries⟩ := @hpath Nat 0 0 before inArm _ hbefore
    (.define 2 (by simp) (by simp) (.define 2 (by simp) (by simp) (.nil _))) (.phi (.nil _)) "x"
    ⟨1, 0⟩ rfl
  refine ⟨w, before, inArm, _, hw, .phi (.nil _), rfl, ?_⟩
  exact ((hcarries (by decide)).2 fun h => absurd h (by decide)).trans rfl

/-- The arm that goes on to declare an `x` of its own: after the join, the outer `x` carries what it did
before the branch, although the arm assigned something else to it. -/
theorem join_drops_update :
    ∃ i joinCode code s' w,
      LowerM.expr plainContext
        (assigningBranch [.define default "x" false (.literal default (.integer 5))]) declaredState =
          .ok none s' ∧
      s'.code.toList = declaredState.code.toList ++ i :: joinCode ∧
      i.arms[0]? = some (none, code) ∧ s'.names.get? "x" = some w ∧
      ∃ before inArm after : History Nat,
        Runs 0 code [] before (inArm ++ before) ∧ Runs 0 joinCode [] (inArm ++ before) after ∧
        before.updated 0 inArm ⟨1, 0⟩ = 2 ∧ after.newest 0 [w] = 1 := by
  let before : History Nat := [⟨⟨1, 0⟩, 1, false⟩]
  let inArm : History Nat := [⟨⟨3, 0⟩, 5, false⟩, ⟨⟨1, 1⟩, 2, false⟩, ⟨⟨2, 0⟩, 2, false⟩]
  refine ⟨_, _, _, _, _, rfl, rfl, rfl, rfl, before, inArm, _, ?_, .nil _, by decide, by decide⟩
  exact .define 2 (by simp) (by simp) (.define 2 (by simp) (by simp)
    (.define 5 (by simp) (by simp) (.nil _)))

end Monomorph
