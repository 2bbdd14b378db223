import Monomorph.Proofs.Code.Updates
import Monomorph.Proofs.Meaning.Programs

/-! # What `and` and `or` leave of the locals

`and` and `or` abbreviate a branch on the left operand, one arm of which gives its value while the other
evaluates the right operand. After every other branch the names visible at the ends of the arms are joined; the
lowering of `and` and `or` forgets the names at the end of the right operand instead. `LowerM.joinedLogical` is
the same lowering with the join.

`LowerM.logical_locals` tells the two apart: with the join, every local that the right operand assigned gets a
`phi` of its earlier version and the one in which the right operand ends (`Merged`); without it, every local
keeps its earlier version. So they agree exactly if no local visible before ends in another version, for
example if the right operand assigns none. A program in which it does is accepted all the same
(`Program.logical_forgets`). -/

namespace Monomorph

open Outcome

/-- After a branch, the name stands for the version that it stood for so far, if that is the one in which the
arm ends, and else for a new version that merges the two. -/
structure Merged (name : String) (earlier last : Version) (s : Lowering) : Prop where
  unchanged : last = earlier → s.names.get? name = some earlier
  merged : last ≠ earlier → ∃ w, s.names.get? name = some w ∧ w ≠ earlier ∧
    .op .phi [earlier, last] (some w) ∈ s.code.toList

namespace LowerM

/-- `and` and `or` as the branch that they abbreviate: the names visible at the ends of both arms are joined. The
arm that gives the left value leaves all names alone. -/
def joinedLogical (type : TypeVar) (stop : Bool) (left : LowerM Version) (right : LowerM Version) :
    LowerM Version := do
  let left ← left
  let result ← newSlot type false
  let stopId ← addConstant (.boolean stop)
  let before := (← get).names
  let (right, rightCode, rightNames) ← inBlock right
  let fromLeft ← nextVersion result
  emit (.branchValue left [(stopId, [.op .copy [left] (some fromLeft)])]
    (rightCode ++ [.op .copy [right] (some result)]))
  join [before, rightNames]
  let merged ← nextVersion result
  emit (.op .phi [fromLeft, result] (some merged))
  return merged

/-! ### Joining two arms of which one leaves the names alone -/

section join

variable {before ended : Row Version} {name : String} {earlier : Version} {t : Lowering}

theorem endVersions_pair (hbefore : before.get? name = some earlier) :
    endVersions name earlier [before, ended] =
      if endVersion name earlier ended = earlier then [earlier]
      else [earlier, endVersion name earlier ended] := by
  have hfirst : endVersion name earlier before = earlier := endVersion_of_slot hbefore rfl
  change (if endVersion name earlier ended ∈ [endVersion name earlier before] then
    [endVersion name earlier before] else [endVersion name earlier before] ++ [endVersion name earlier ended]) = _
  rw [hfirst]
  simp only [List.mem_singleton, List.cons_append, List.nil_append]

/-- The state after a name got a new version that merges its earlier one and another. -/
def mergedState (name : String) (earlier last : Version) (slot : Slot) (t : Lowering) : Lowering :=
  { t with
    slots := t.slots.modify earlier.slot fun slot => { slot with versions := slot.versions + 1 }
    code := t.code.push (.op .phi [earlier, last] (some ⟨earlier.slot, slot.versions⟩))
    names := t.names.insert name ⟨earlier.slot, slot.versions⟩ }

theorem joinName_pair {slot : Slot} (hbefore : before.get? name = some earlier)
    (hslot : t.slots[earlier.slot]? = some slot) :
    joinName [before, ended] name earlier t =
      .ok () (if endVersion name earlier ended = earlier then t
        else mergedState name earlier (endVersion name earlier ended) slot t) := by
  unfold joinName
  rw [endVersions_pair hbefore]
  by_cases hend : endVersion name earlier ended = earlier
  · simp only [if_pos hend]
    rfl
  · simp only [if_neg hend]
    change EStateM.Result.ok () _ = _
    simp only [mergedState, hslot, Option.map_some, Option.getD_some]

/-- What a join does to names other than those of `entries`, and to what was there. -/
structure JoinKeeps (entries : List (String × Version)) (t t' : Lowering) : Prop where
  others : ∀ {n}, (∀ e ∈ entries, e.1 ≠ n) → t'.names.get? n = t.names.get? n
  owns : ∀ {v}, t.Owns v → t'.Owns v
  code : ∀ i ∈ t.code.toList, i ∈ t'.code.toList

theorem joinName_merges (ended : Row Version) (hbefore : before.get? name = some earlier) (howned : t.Owns earlier)
    (hname : t.names.get? name = some earlier) :
    ∃ t', joinName [before, ended] name earlier t = .ok () t' ∧ JoinKeeps [(name, earlier)] t t' ∧
      Merged name earlier (endVersion name earlier ended) t' := by
  obtain ⟨slot, hslot, hlt⟩ := howned
  refine ⟨_, joinName_pair hbefore hslot, ?_⟩
  by_cases hend : endVersion name earlier ended = earlier
  · rw [if_pos hend]
    exact ⟨⟨fun _ => rfl, id, fun _ h => h⟩, fun _ => hname, fun hne => absurd hend hne⟩
  · rw [if_neg hend]
    refine ⟨⟨fun hother => ?_, fun h => (Lowering.owns_next hslot rfl).2 (.inl h), fun i hi => ?_⟩,
      fun heq => absurd heq hend, fun _ => ⟨⟨earlier.slot, slot.versions⟩, ?_, fun heq => ?_, ?_⟩⟩
    · exact (Row.get?_insert ..).trans (if_neg (hother _ List.mem_cons_self))
    · simp only [mergedState, Array.toList_push]
      exact List.mem_append_left _ hi
    · exact (Row.get?_insert ..).trans (if_pos rfl)
    · exact Nat.ne_of_gt hlt (congrArg Version.version heq)
    · simp [mergedState]

theorem joinNames_merges (ended : Row Version) {entries : List (String × Version)}
    (hnodup : entries.Pairwise fun e e' => e.1 ≠ e'.1)
    (hbefore : ∀ e ∈ entries, before.get? e.1 = some e.2) (howned : ∀ e ∈ entries, t.Owns e.2)
    (hnames : ∀ e ∈ entries, t.names.get? e.1 = some e.2) :
    ∃ t', joinNames [before, ended] entries t = .ok () t' ∧ JoinKeeps entries t t' ∧
      ∀ e ∈ entries, Merged e.1 e.2 (endVersion e.1 e.2 ended) t' := by
  induction entries generalizing t with
  | nil => exact ⟨t, rfl, ⟨fun _ => rfl, id, fun _ h => h⟩, nofun⟩
  | cons e entries ih =>
    obtain ⟨name, earlier⟩ := e
    obtain ⟨hne, hnodup⟩ := List.pairwise_cons.1 hnodup
    obtain ⟨hbefore₁, hbefore⟩ := List.forall_mem_cons.1 hbefore
    obtain ⟨howned₁, howned⟩ := List.forall_mem_cons.1 howned
    obtain ⟨hnames₁, hnames⟩ := List.forall_mem_cons.1 hnames
    obtain ⟨t₁, hrun₁, hkeeps₁, hmerged₁⟩ := joinName_merges ended hbefore₁ howned₁ hnames₁
    have hother {e' : String × Version} (he' : e' ∈ entries) : t₁.names.get? e'.1 = t.names.get? e'.1 :=
      hkeeps₁.others fun e₀ he₀ => by
        rw [List.mem_singleton.1 he₀]
        exact hne e' he'
    obtain ⟨t', hrun, hkeeps, hmerged⟩ := ih hnodup hbefore (fun e' he' => hkeeps₁.owns (howned e' he'))
      fun e' he' => (hother he').trans (hnames e' he')
    have hlast : t'.names.get? name = t₁.names.get? name := hkeeps.others fun e' he' => (hne e' he').symm
    refine ⟨t', Outcome.bind_eq_ok_iff.2 ⟨(), t₁, hrun₁, hrun⟩, ⟨fun {n} hn => ?_, fun h => hkeeps.owns
      (hkeeps₁.owns h), fun i hi => hkeeps.code i (hkeeps₁.code i hi)⟩, List.forall_mem_cons.2 ⟨?_, hmerged⟩⟩
    · obtain ⟨hn₁, hn⟩ := List.forall_mem_cons.1 hn
      rw [hkeeps.others hn, hkeeps₁.others (List.forall_mem_singleton.2 hn₁)]
    · refine ⟨fun heq => hlast.trans (hmerged₁.unchanged heq), fun hend => ?_⟩
      obtain ⟨w, hw, hwne, hphi⟩ := hmerged₁.merged hend
      exact ⟨w, hlast.trans hw, hwne, hkeeps.code _ hphi⟩

theorem join_merges (ended : Row Version) (hbefore : t.names = before)
    (howned : ∀ {n v}, before.get? n = some v → t.Owns v) :
    ∃ t', join [before, ended] t = .ok () t' ∧ (∀ n, before.get? n = none → t'.names.get? n = none) ∧
      ∀ n v, before.get? n = some v → Merged n v (endVersion n v ended) t' := by
  have hentry {e : String × Version} (he : e ∈ before.entries) : before.get? e.1 = some e.2 :=
    (Row.mem_entries_iff _).1 he
  have hnodup : before.entries.Pairwise fun e e' => e.1 ≠ e'.1 :=
    before.sorted.imp fun {e e'} hlt (heq : e.1 = e'.1) => String.lt_irrefl e'.1 (heq ▸ hlt)
  obtain ⟨t', hrun, hkeeps, hmerged⟩ := joinNames_merges (t := t) ended hnodup
    (fun e he => hentry he) (fun e he => howned (hentry he)) (fun e he => hbefore ▸ hentry he)
  refine ⟨t', ?_, fun n hn => ?_, fun n v hv => hmerged (n, v) ((Row.mem_entries_iff _).2 hv)⟩
  · rw [← hbefore] at hrun ⊢
    exact hrun
  · have hother : ∀ e ∈ before.entries, e.1 ≠ n := by
      rintro e he rfl
      cases hn.symm.trans (hentry he)
    rw [hkeeps.others hother, hbefore, hn]

end join

/-! ### With the join and without -/

section operand

variable {fl fr : Footprint} {left right : LowerM Version} {type : TypeVar} {stop : Bool} {l r : Version}
  {s s₁ s₂ : Lowering}

theorem joinedLogical_merges (hright : LowersValue fr right) (hs₁ : s₁.Separate) (hl : left s = .ok l s₁)
    (hr : right (operandStart type stop s₁) = .ok r s₂) :
    ∃ merged joined, joinedLogical type stop left right s = .ok merged joined ∧
      (∀ n, s₁.names.get? n = none → joined.names.get? n = none) ∧
      ∀ n v, s₁.names.get? n = some v → Merged n v (endVersion n v s₂.names) joined := by
  obtain ⟨⟨rightCode, -, hstep⟩, -⟩ := hright (operandStart_separate hs₁ type stop) hr
  obtain ⟨slot, hslot, -⟩ : s₂.Owns ⟨s₁.slots.size, 0⟩ :=
    hstep.owns ((Lowering.owns_push rfl).2 (.inr ⟨rfl, Nat.one_pos⟩))
  -- The state in which the names are joined, after the branch itself was emitted.
  let t : Lowering :=
    { s₂ with
      slots := s₂.slots.modify s₁.slots.size fun slot => { slot with versions := slot.versions + 1 }
      code := s₁.code.push (.branchValue l [((s₁.constants.add (.boolean stop)).1,
          [.op .copy [l] (some ⟨s₁.slots.size, ((s₂.slots[s₁.slots.size]?).map Slot.versions).getD 0⟩)])]
        (s₂.code.toList ++ [.op .copy [r] (some ⟨s₁.slots.size, 0⟩)]))
      names := s₁.names }
  have howned {n : String} {v : Version} (hv : s₁.names.get? n = some v) : t.Owns v :=
    (Lowering.owns_next hslot rfl).2 (.inl (hstep.owns ((Lowering.owns_push rfl).2 (.inl (hs₁.owned hv)))))
  obtain ⟨t', hjoin, hnone, hmerged⟩ := join_merges (t := t) s₂.names rfl howned
  refine ⟨_, _, Outcome.bind_eq_ok_iff.2 ⟨l, s₁, hl, Outcome.bind_eq_ok_iff.2 ⟨_, _, rfl,
    Outcome.bind_eq_ok_iff.2 ⟨_, _, rfl, Outcome.bind_eq_ok_iff.2 ⟨_, _, rfl, Outcome.bind_eq_ok_iff.2
      ⟨(r, s₂.code.toList, s₂.names), _, inBlock_eq_ok_iff.2 ⟨s₂, hr, rfl, rfl, rfl⟩,
        Outcome.bind_eq_ok_iff.2 ⟨_, _, rfl, Outcome.bind_eq_ok_iff.2 ⟨_, _, rfl,
          Outcome.bind_eq_ok_iff.2 ⟨(), t', hjoin, rfl⟩⟩⟩⟩⟩⟩⟩⟩, hnone, fun n v hv => ?_⟩
  refine ⟨(hmerged n v hv).unchanged, fun hne => ?_⟩
  obtain ⟨w, hw, hwne, hphi⟩ := (hmerged n v hv).merged hne
  exact ⟨w, hw, hwne, by simp [hphi]⟩

/-- A block ends in the versions in which it starts, except for names of outer locals that it assigns and does not
declare for itself. -/
theorem endVersion_of_step {fp : Footprint} {s ended : Lowering} {code : List Instr} {n : String} {v : Version}
    (hs : s.Separate) (hstep : Step fp s code ended) (hv : s.names.get? n = some v)
    (hn : n ∈ fp.touches → n ∈ fp.declares) : endVersion n v ended.names = v := by
  by_cases hdeclared : n ∈ fp.declares
  · obtain ⟨w, hw, hsize⟩ := hstep.declared hdeclared
    exact endVersion_of_slot_ne hw (Nat.ne_of_gt (Nat.lt_of_lt_of_le (hs.owned hv).lt_size hsize))
  · obtain ⟨w, hw, hslot, heq | ⟨-, htouched⟩⟩ := hstep.kept hdeclared hv
    · exact (endVersion_of_slot hw hslot).trans heq
    · exact absurd (hn htouched) hdeclared

end operand

/-- Wherever `and` or `or` is lowered, for all operands and every local visible after the left one: the lowering
leaves the local its version, while the branch with the join merges that version and the one in which the right
operand ends, if it is another. The two agree on all locals exactly if the right operand ends in the versions in
which it starts; it does if it declares for itself whatever it assigns of them. -/
theorem logical_locals {context : LowerContext} {m : Mark TypeVar} {op : BinaryOp} {stop : Bool}
    {left right : Expr TypeVar} {s s' : Lowering} {result : Option Version}
    (hop : (op, stop) ∈ [(.and, false), (.or, true)]) (hs : s.Separate)
    (h : expr context (.binary m op left right) s = .ok result s') :
    ∃ l start r ended merged joined,
      asValue left.note (expr context left) s = .ok l start ∧
      asValue right.note (expr context right) (operandStart m.note stop start) = .ok r ended ∧
      joinedLogical m.note stop (asValue left.note (expr context left))
        (asValue right.note (expr context right)) s = .ok merged joined ∧
      s'.names = start.names ∧
      (∀ n v, start.names.get? n = some v → Merged n v (endVersion n v ended.names) joined) ∧
      (joined.names = s'.names ↔ ∀ n v, start.names.get? n = some v → endVersion n v ended.names = v) ∧
      ((∀ n ∈ right.footprint.touches, n ∈ right.footprint.declares ∨ start.names.get? n = none) →
        joined.names = s'.names) := by
  have hleft := asValue_lowers left.note (expr_lowers context left)
  have hright := asValue_lowers right.note (expr_lowers context right)
  have hlowered : ∃ merged, shortCircuit m.note stop (asValue left.note (expr context left))
      (asValue right.note (expr context right)) s = .ok merged s' := by
    rcases List.mem_pair.1 hop with hop | hop <;> obtain ⟨rfl, rfl⟩ := Prod.mk.inj hop
    all_goals
      obtain ⟨merged, s₁, hrun, hpure⟩ := Outcome.bind_eq_ok_iff.1 h
      obtain ⟨-, rfl⟩ := pure_eq_ok_iff.1 hpure
      exact ⟨merged, hrun⟩
  obtain ⟨merged, hlowered⟩ := hlowered
  obtain ⟨l, start, r, ended, -, hl, hr, -, -, -, hnames, -⟩ :=
    shortCircuit_eq_ok ⟨_, hright⟩ ⟨_, hleft.block⟩ hs hlowered
  have hstart : start.Separate := (hleft hs hl).1.separate
  obtain ⟨merged', joined, hjoined, hnone, hmerged⟩ := joinedLogical_merges hright hstart hl hr
  have hagree : joined.names = s'.names ↔
      ∀ n v, start.names.get? n = some v → endVersion n v ended.names = v := by
    rw [hnames]
    refine ⟨fun heq n v hv => ?_, fun hend => Row.ext_get? fun n => ?_⟩
    · by_contra hne
      obtain ⟨w, hw, hwne, -⟩ := (hmerged n v hv).merged hne
      rw [heq, hv] at hw
      exact hwne (Option.some.inj hw).symm
    · cases hv : start.names.get? n with
      | none => exact hnone n hv
      | some v => exact (hmerged n v hv).unchanged (hend n v hv)
  refine ⟨l, start, r, ended, merged', joined, hl, hr, hjoined, hnames, hmerged, hagree, fun hkept =>
    hagree.2 fun n v hv => ?_⟩
  obtain ⟨⟨code, -, hstep⟩, -⟩ := hright (operandStart_separate hstart m.note stop) hr
  refine endVersion_of_step (operandStart_separate hstart m.note stop) hstep hv fun htouched => ?_
  obtain hdeclared | hnone := hkept n htouched
  · exact hdeclared
  · cases hv.symm.trans hnone

/-- A right operand that assigns `2` to `x`, and compares what that gives. -/
def assigningOperand : Expr TypeVar :=
  .binary default .equal (.assign default (.localVar default "x") (.literal default (.integer 2)))
    (.literal default .unit)

/-- After `c or` that operand, `x` has its version from before; the join merges that version and the new one. -/
theorem logical_locals_assigning :
    ∃ result s' merged joined w,
      expr plainContext (.binary default .or (.localVar default "c") assigningOperand) declaredState =
        .ok result s' ∧
      joinedLogical default true (asValue default (expr plainContext (.localVar default "c")))
        (asValue default (expr plainContext assigningOperand)) declaredState = .ok merged joined ∧
      s'.names.get? "x" = some ⟨1, 0⟩ ∧ joined.names.get? "x" = some w ∧ w ≠ ⟨1, 0⟩ ∧
      .op .phi [⟨1, 0⟩, ⟨1, 1⟩] (some w) ∈ joined.code.toList := by
  obtain ⟨result, s', hrun⟩ : ∃ result s', expr plainContext
      (.binary default .or (.localVar default "c") assigningOperand) declaredState = .ok result s' :=
    ⟨_, _, by with_unfolding_all rfl⟩
  obtain ⟨l, start, r, ended, merged, joined, hl, hr, hjoined, hnames, hmerged, -⟩ :=
    logical_locals (List.mem_pair.2 (.inr rfl)) declaredState_separate hrun
  cases hl
  cases hr
  obtain ⟨w, hw, hne, hphi⟩ := (hmerged "x" ⟨1, 0⟩ rfl).merged (by decide)
  exact ⟨result, s', merged, joined, w, hrun, hjoined, hnames ▸ rfl, hw, hne, hphi⟩

end LowerM

/-! ### An accepted program -/

namespace Program

/-- A procedure that declares `x` with the value `1`, goes on with what `middle` makes of its parameter `c` and of a
comparison that assigns `2` to `x`, and gives back `x`. -/
def comparing (middle : Mark Unit → Expr Unit → Expr Unit → Expr Unit) : Program :=
  let m : Mark Unit := ⟨.none, ()⟩
  let x : Expr Unit := .name m (.single "x")
  let number (value : Int64) : Expr Unit := .literal m (.integer value)
  ((empty .modules).add ⟨.single "main", .none, .procedure ["c"]
    [.define m "x" true (number 1),
      middle m (.name m (.single "c")) (.binary m .equal (.assign m x (number 2)) (.literal m .unit)),
      .giveBack m x]⟩).2

/-- The comparison in an arm of a branch, and as the right operand of `or`: both are accepted, and on both the
code at the end of the comparison has given `x` another version. After the branch the versions are merged and the
result of that is given back. After the `or` nothing is merged and the version from before is given back. -/
theorem logical_forgets :
    let branch := comparing fun m c e => .ifElse m c [] [e]
    let logical := comparing fun m c e => .define m "y" false (.binary m .or c e)
    (branch.check ⟨[.single "main"], false⟩).1 = [] ∧ (logical.check ⟨[.single "main"], false⟩).1 = [] ∧
    ((lower (branch.checkedMain.lowering .refusing)).toOption.map fun m => m.procedures.map Procedure.body) =
      some [[.op (.load (.integer 1)) [] (some ⟨1, 0⟩),
        .branchValue ⟨0, 0⟩ [(0, [])]
          [.op (.load (.integer 2)) [] (some ⟨2, 0⟩), .op .copy [⟨2, 0⟩] (some ⟨1, 1⟩),
            .op (.load .unit) [] (some ⟨3, 0⟩), .op (.load .unit) [] (some ⟨4, 0⟩),
            .op (.binary .equal) [⟨3, 0⟩, ⟨4, 0⟩] (some ⟨5, 0⟩)],
        .op .phi [⟨1, 0⟩, ⟨1, 1⟩] (some ⟨1, 2⟩), .op .giveBack [⟨1, 2⟩] none]] ∧
    ((lower (logical.checkedMain.lowering .refusing)).toOption.map fun m => m.procedures.map Procedure.body) =
      some [[.op (.load (.integer 1)) [] (some ⟨1, 0⟩),
        .branchValue ⟨0, 0⟩ [(0, [.op .copy [⟨0, 0⟩] (some ⟨2, 1⟩)])]
          [.op (.load (.integer 2)) [] (some ⟨3, 0⟩), .op .copy [⟨3, 0⟩] (some ⟨1, 1⟩),
            .op (.load .unit) [] (some ⟨4, 0⟩), .op (.load .unit) [] (some ⟨5, 0⟩),
            .op (.binary .equal) [⟨4, 0⟩, ⟨5, 0⟩] (some ⟨6, 0⟩), .op .copy [⟨6, 0⟩] (some ⟨2, 0⟩)],
        .op .phi [⟨2, 1⟩, ⟨2, 0⟩] (some ⟨2, 2⟩), .op .giveBack [⟨1, 0⟩] none]] := by
  refine ⟨by cbv, by cbv, by cbv, by cbv⟩

end Program
end Monomorph
