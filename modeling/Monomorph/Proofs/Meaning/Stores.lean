import Monomorph.Proofs.Meaning.Tree
import Monomorph.Proofs.Outcome

/-! # What evaluation does to the store

Evaluating a core tree puts the locals that it declares before the others and keeps the names of the
others (`Expr.eval_names`), so leaving a block leaves the locals of the block around it. A tree that
neither declares nor assigns anything leaves the store alone (`Expr.eval_pure`). What a core tree declares
was not visible before (`Expr.not_visible`). -/

namespace Monomorph

variable {A : Type}

namespace Store

@[simp] theorem map_fst_assign (name : String) (v : Value A) (σ : Store A) :
    (σ.assign name v).map Prod.fst = σ.map Prod.fst := by
  induction σ with
  | nil => rfl
  | cons e σ ih =>
    obtain ⟨n, w⟩ := e
    unfold assign
    split
    · rfl
    · rw [List.map_cons, List.map_cons, ih]

theorem lookup_cons (n m : String) (w : Value A) (σ : Store A) :
    ((m, w) :: σ : Store A).lookup n = if n = m then some w else σ.lookup n := by
  rw [List.lookup_cons]
  by_cases hn : n = m
  · rw [if_pos hn, beq_iff_eq.2 hn]
  · rw [if_neg hn, beq_false_of_ne hn]

theorem lookup_assign (name n : String) (v : Value A) (σ : Store A) :
    (σ.assign name v).lookup n = if n = name then (σ.lookup n).map fun _ => v else σ.lookup n := by
  induction σ with
  | nil => simp [assign]
  | cons e σ ih =>
    obtain ⟨m, w⟩ := e
    unfold assign
    by_cases hm : m = name
    · subst hm
      rw [if_pos (beq_self_eq_true m), lookup_cons, lookup_cons]
      by_cases hn : n = m
      · simp [hn]
      · simp [hn]
    · rw [if_neg (by simpa using hm), lookup_cons, lookup_cons, ih]
      by_cases hn : n = m
      · simp [hn, hm]
      · simp [hn]

theorem lookup_eq_none_iff {n : String} {σ : Store A} :
    σ.lookup n = none ↔ n ∉ σ.map Prod.fst := by
  induction σ with
  | nil => simp
  | cons e σ ih =>
    obtain ⟨m, w⟩ := e
    rw [lookup_cons, List.map_cons, List.mem_cons, not_or]
    by_cases hn : n = m
    · simp [hn]
    · rw [if_neg hn, ih, and_iff_right hn]

theorem lookup_append {n : String} {added σ : Store A} (hn : n ∉ added.map Prod.fst) :
    (added ++ σ).lookup n = σ.lookup n := by
  induction added with
  | nil => rfl
  | cons e added ih =>
    obtain ⟨m, w⟩ := e
    rw [List.map_cons, List.mem_cons, not_or] at hn
    rw [List.cons_append, lookup_cons, if_neg hn.1]
    exact ih hn.2

/-- The names after a block whose own locals come first. -/
theorem map_fst_leave {σ inner : Store A} {names : List String}
    (h : inner.map Prod.fst = names ++ σ.map Prod.fst) :
    (σ.leave inner).map Prod.fst = σ.map Prod.fst := by
  have hlen : inner.length = names.length + σ.length := by
    simpa using congrArg List.length h
  rw [leave, hlen, Nat.add_sub_cancel, List.map_drop, h, List.drop_left]

theorem lookup_leave {σ inner : Store A} {names : List String} {n : String}
    (h : inner.map Prod.fst = names ++ σ.map Prod.fst) (hn : n ∉ names) :
    (σ.leave inner).lookup n = inner.lookup n := by
  have hlen : inner.length = names.length + σ.length := by
    simpa using congrArg List.length h
  have hnames : (inner.take names.length).map Prod.fst = names := by
    rw [List.map_take, h, List.take_left]
  rw [leave, hlen, Nat.add_sub_cancel]
  conv_rhs => rw [← List.take_append_drop names.length inner]
  rw [lookup_append (by rwa [hnames])]

theorem leave_self (σ : Store A) : σ.leave σ = σ := by
  rw [leave, Nat.sub_self, List.drop_zero]

end Store

namespace Expr

open Outcome

variable {P : Primitives A} {evaluate : Evaluator}

/-! ### Trees that change nothing -/

mutual

/-- A tree that neither declares nor assigns anything leaves the store alone. -/
theorem eval_pure : (e : Expr TypeVar) → ∀ {σ σ' : Store A} {x : Value A}, e.isPure = true →
    eval P evaluate e σ = .ok (x, σ') → σ' = σ
  | .literal .., _, _, _, _, h => by
    cases h
    rfl
  | .localVar _ n, σ, _, _, _, h => by
    rw [eval] at h
    split at h
    · cases h
      rfl
    · cases h
  | .giveBack _ value, _, _, _, _, h => by
    obtain ⟨_, _, h⟩ := except_bind_eq_ok_iff.1 h
    cases h
  | .binary _ op left right, _, _, _, hpure, h => by
    obtain ⟨hl, hr⟩ := Bool.and_eq_true_iff.1 hpure
    cases op with
    | and =>
      obtain ⟨⟨l, σ₁⟩, hleft, h⟩ := except_bind_eq_ok_iff.1 h
      cases eval_pure left hl hleft
      dsimp only at h
      split at h
      · cases h
        rfl
      · exact eval_pure right hr h
    | or =>
      obtain ⟨⟨l, σ₁⟩, hleft, h⟩ := except_bind_eq_ok_iff.1 h
      cases eval_pure left hl hleft
      dsimp only at h
      split at h
      · cases h
        rfl
      · exact eval_pure right hr h
    | _ =>
      obtain ⟨⟨l, σ₁⟩, hleft, h⟩ := except_bind_eq_ok_iff.1 h
      obtain ⟨⟨r, σ₂⟩, hright, h⟩ := except_bind_eq_ok_iff.1 h
      obtain ⟨_, _, h⟩ := except_bind_eq_ok_iff.1 h
      cases h
      exact (eval_pure right hr hright).trans (eval_pure left hl hleft)
  | .unary _ op operand, _, _, _, hpure, h => by
    obtain ⟨⟨v, σ₁⟩, hoperand, h⟩ := except_bind_eq_ok_iff.1 h
    obtain ⟨_, _, h⟩ := except_bind_eq_ok_iff.1 h
    cases h
    exact eval_pure operand hpure hoperand
  | .variant _ n payload, _, _, _, hpure, h => by
    obtain ⟨⟨v, σ₁⟩, hpayload, h⟩ := except_bind_eq_ok_iff.1 h
    cases h
    exact eval_pure payload hpure hpayload
  | .unwrap _ value n, _, _, _, hpure, h => by
    obtain ⟨⟨v, σ₁⟩, hvalue, h⟩ := except_bind_eq_ok_iff.1 h
    obtain ⟨_, _, h⟩ := except_bind_eq_ok_iff.1 h
    cases h
    exact eval_pure value hpure hvalue
  | .ifElse _ condition yes no, _, _, _, hpure, h => by
    obtain ⟨hc, hyes⟩ := Bool.and_eq_true_iff.1 hpure
    obtain ⟨hyes, hno⟩ := Bool.and_eq_true_iff.1 hyes
    obtain ⟨⟨v, σ₁⟩, hcondition, h⟩ := except_bind_eq_ok_iff.1 h
    obtain ⟨inner, hinner, h⟩ := except_bind_eq_ok_iff.1 h
    cases eval_pure condition hc hcondition
    cases h
    split at hinner
    · rw [evals_pure yes hyes hinner, Store.leave_self]
    · rw [evals_pure no hno hinner, Store.leave_self]
  | .matchValue _ value arms otherwise, _, _, _, hpure, h => by
    obtain ⟨hv, harms⟩ := Bool.and_eq_true_iff.1 hpure
    obtain ⟨harms, ho⟩ := Bool.and_eq_true_iff.1 harms
    obtain ⟨⟨v, σ₁⟩, hvalue, h⟩ := except_bind_eq_ok_iff.1 h
    obtain ⟨inner, hinner, h⟩ := except_bind_eq_ok_iff.1 h
    cases eval_pure value hv hvalue
    cases h
    split at hinner
    · rw [evalValueArm_pure arms harms hinner, Store.leave_self]
    · rw [evals_pure otherwise ho hinner, Store.leave_self]
  | .matchVariant _ value arms (some otherwise), _, _, _, hpure, h => by
    obtain ⟨hv, harms⟩ := Bool.and_eq_true_iff.1 hpure
    obtain ⟨harms, ho⟩ := Bool.and_eq_true_iff.1 harms
    obtain ⟨⟨v, σ₁⟩, hvalue, h⟩ := except_bind_eq_ok_iff.1 h
    cases eval_pure value hv hvalue
    cases v with
    | atom a => cases h
    | variant n payload =>
      obtain ⟨inner, hinner, h⟩ := except_bind_eq_ok_iff.1 h
      cases h
      split at hinner
      · exact evalVariantArm_pure arms harms hinner
      · rw [evals_pure otherwise ho hinner, Store.leave_self]
  | .matchVariant _ value arms none, _, _, _, hpure, h => by
    obtain ⟨hv, harms⟩ := Bool.and_eq_true_iff.1 hpure
    obtain ⟨⟨v, σ₁⟩, hvalue, h⟩ := except_bind_eq_ok_iff.1 h
    cases eval_pure value hv hvalue
    cases v with
    | atom a => cases h
    | variant n payload =>
      dsimp only at h
      split at h
      · obtain ⟨inner, hinner, h⟩ := except_bind_eq_ok_iff.1 h
        cases h
        exact evalVariantArm_pure arms harms hinner
      · cases h

theorem evals_pure : (es : List (Expr TypeVar)) → ∀ {σ σ' : Store A}, arePure es = true →
    evals P evaluate es σ = .ok σ' → σ' = σ
  | [], _, _, _, h => by
    cases h
    rfl
  | e :: rest, _, _, hpure, h => by
    obtain ⟨he, hrest⟩ := Bool.and_eq_true_iff.1 hpure
    obtain ⟨⟨x, σ₁⟩, heval, h⟩ := except_bind_eq_ok_iff.1 h
    exact (evals_pure rest hrest h).trans (eval_pure e he heval)

theorem evalValueArm_pure : (arms : List (Expr TypeVar × List (Expr TypeVar))) →
    ∀ {k : Nat} {σ σ' : Store A}, areValueArmsPure arms = true →
      evalValueArm P evaluate arms k σ = .ok σ' → σ' = σ
  | [], _, _, _, _, h => by cases h
  | (_, body) :: rest, 0, _, _, hpure, h => evals_pure body (Bool.and_eq_true_iff.1 hpure).1 h
  | (_, body) :: rest, k + 1, _, _, hpure, h =>
    evalValueArm_pure rest (Bool.and_eq_true_iff.1 hpure).2 h

theorem evalVariantArm_pure : (arms : List (VariantArm TypeVar (List (Expr TypeVar)))) →
    ∀ {k : Nat} {payload : Value A} {σ inner : Store A}, areVariantArmsPure arms = true →
      evalVariantArm P evaluate arms k payload σ = .ok inner → σ.leave inner = σ
  | [], _, _, _, _, _, h => by cases h
  | ⟨_, some n, _, body⟩ :: rest, 0, _, _, _, hpure, h => by
    rw [evals_pure body (Bool.and_eq_true_iff.1 hpure).1 h]
    simp [Store.leave]
  | ⟨_, none, _, body⟩ :: rest, 0, _, _, _, hpure, h => by
    rw [evals_pure body (Bool.and_eq_true_iff.1 hpure).1 h, Store.leave_self]
  | _ :: rest, k + 1, _, _, _, hpure, h => by
    rw [evalVariantArm] at h
    exact evalVariantArm_pure rest (Bool.and_eq_true_iff.1 hpure).2 h

end

/-! ### The names in the store -/

mutual

/-- A tree puts the locals that it declares before the others. -/
theorem eval_names {visible : List String} : (e : Expr TypeVar) → ∀ {σ σ' : Store A} {x : Value A},
    e.isCore visible = true → eval P evaluate e σ = .ok (x, σ') →
      σ'.map Prod.fst = e.footprint.declares.reverse ++ σ.map Prod.fst
  | .literal .., _, _, _, _, h => by
    cases h
    rfl
  | .localVar _ n, σ, _, _, _, h => by
    rw [eval] at h
    split at h
    · cases h
      rfl
    · cases h
  | .define _ n _ value, _, _, _, hcore, h => by
    obtain ⟨⟨v, σ₁⟩, hvalue, h⟩ := except_bind_eq_ok_iff.1 h
    cases h
    have hnames := eval_names value (Bool.and_eq_true_iff.1 hcore).1 hvalue
    simp [footprint, Footprint.seq, Footprint.declare, hnames]
  | .declare _ n _, _, _, _, _, h => by
    cases h
    rfl
  | .assign _ (.localVar _ n) value, _, _, _, hcore, h => by
    obtain ⟨⟨v, σ₁⟩, hvalue, h⟩ := except_bind_eq_ok_iff.1 h
    dsimp only at h
    split at h
    · cases h
      have hnames := eval_names value hcore hvalue
      simp [footprint, Footprint.seq, Footprint.assign, hnames]
    · cases h
  | .giveBack _ value, _, _, _, _, h => by
    obtain ⟨_, _, h⟩ := except_bind_eq_ok_iff.1 h
    cases h
  | .binary _ op left right, _, _, _, hcore, h => by
    cases op with
    | and =>
      obtain ⟨hl, hr⟩ := Bool.and_eq_true_iff.1 hcore
      obtain ⟨⟨l, σ₁⟩, hleft, h⟩ := except_bind_eq_ok_iff.1 h
      have hnames := eval_names left hl hleft
      dsimp only at h
      split at h
      · cases h
        simpa [footprint, Footprint.seq, Footprint.operand] using hnames
      · rw [eval_pure right (Bool.and_eq_true_iff.1 hr).2 h]
        simpa [footprint, Footprint.seq, Footprint.operand] using hnames
    | or =>
      obtain ⟨hl, hr⟩ := Bool.and_eq_true_iff.1 hcore
      obtain ⟨⟨l, σ₁⟩, hleft, h⟩ := except_bind_eq_ok_iff.1 h
      have hnames := eval_names left hl hleft
      dsimp only at h
      split at h
      · cases h
        simpa [footprint, Footprint.seq, Footprint.operand] using hnames
      · rw [eval_pure right (Bool.and_eq_true_iff.1 hr).2 h]
        simpa [footprint, Footprint.seq, Footprint.operand] using hnames
    | _ =>
      obtain ⟨hl, hr⟩ := Bool.and_eq_true_iff.1 hcore
      obtain ⟨⟨l, σ₁⟩, hleft, h⟩ := except_bind_eq_ok_iff.1 h
      obtain ⟨⟨r, σ₂⟩, hright, h⟩ := except_bind_eq_ok_iff.1 h
      obtain ⟨_, _, h⟩ := except_bind_eq_ok_iff.1 h
      cases h
      simp [footprint, Footprint.seq, eval_names left hl hleft, eval_names right hr hright]
  | .unary _ op operand, _, _, _, hcore, h => by
    obtain ⟨⟨v, σ₁⟩, hoperand, h⟩ := except_bind_eq_ok_iff.1 h
    obtain ⟨_, _, h⟩ := except_bind_eq_ok_iff.1 h
    cases h
    exact eval_names operand hcore hoperand
  | .variant _ n payload, _, _, _, hcore, h => by
    obtain ⟨⟨v, σ₁⟩, hpayload, h⟩ := except_bind_eq_ok_iff.1 h
    cases h
    exact eval_names payload hcore hpayload
  | .unwrap _ value n, _, _, _, hcore, h => by
    obtain ⟨⟨v, σ₁⟩, hvalue, h⟩ := except_bind_eq_ok_iff.1 h
    obtain ⟨_, _, h⟩ := except_bind_eq_ok_iff.1 h
    cases h
    simpa [footprint, Footprint.seq, Footprint.unwrap] using eval_names value hcore hvalue
  | .ifElse _ condition yes no, _, _, _, hcore, h => by
    obtain ⟨hc, hyes⟩ := Bool.and_eq_true_iff.1 hcore
    obtain ⟨hyes, hno⟩ := Bool.and_eq_true_iff.1 hyes
    obtain ⟨⟨v, σ₁⟩, hcondition, h⟩ := except_bind_eq_ok_iff.1 h
    obtain ⟨inner, hinner, h⟩ := except_bind_eq_ok_iff.1 h
    cases h
    have hnames := eval_names condition hc hcondition
    have hleave : (σ₁.leave inner).map Prod.fst = σ₁.map Prod.fst := by
      split at hinner
      · exact Store.map_fst_leave (evals_names yes hyes hinner)
      · exact Store.map_fst_leave (evals_names no hno hinner)
    simpa [footprint, Footprint.seq, Footprint.branch, hleave] using hnames
  | .matchValue _ value arms otherwise, _, _, _, hcore, h => by
    obtain ⟨hv, harms⟩ := Bool.and_eq_true_iff.1 hcore
    obtain ⟨harms, ho⟩ := Bool.and_eq_true_iff.1 harms
    obtain ⟨⟨v, σ₁⟩, hvalue, h⟩ := except_bind_eq_ok_iff.1 h
    obtain ⟨inner, hinner, h⟩ := except_bind_eq_ok_iff.1 h
    cases h
    have hnames := eval_names value hv hvalue
    have hleave : (σ₁.leave inner).map Prod.fst = σ₁.map Prod.fst := by
      split at hinner
      · exact evalValueArm_names arms harms hinner
      · exact Store.map_fst_leave (evals_names otherwise ho hinner)
    simpa [footprint, Footprint.seq, Footprint.branch, hleave] using hnames
  | .matchVariant _ value arms (some otherwise), _, _, _, hcore, h => by
    obtain ⟨hv, harms⟩ := Bool.and_eq_true_iff.1 hcore
    obtain ⟨harms, ho⟩ := Bool.and_eq_true_iff.1 harms
    obtain ⟨⟨v, σ₁⟩, hvalue, h⟩ := except_bind_eq_ok_iff.1 h
    have hnames := eval_names value hv hvalue
    cases v with
    | atom a => cases h
    | variant n payload =>
      obtain ⟨inner, hinner, h⟩ := except_bind_eq_ok_iff.1 h
      cases h
      have hleave : (σ₁.leave inner).map Prod.fst = σ₁.map Prod.fst := by
        split at hinner
        · exact evalVariantArm_names arms harms hinner
        · exact Store.map_fst_leave (evals_names otherwise ho hinner)
      simpa [footprint, Footprint.seq, Footprint.branch, hleave] using hnames
  | .matchVariant _ value arms none, _, _, _, hcore, h => by
    obtain ⟨hv, harms⟩ := Bool.and_eq_true_iff.1 hcore
    obtain ⟨⟨v, σ₁⟩, hvalue, h⟩ := except_bind_eq_ok_iff.1 h
    have hnames := eval_names value hv hvalue
    cases v with
    | atom a => cases h
    | variant n payload =>
      dsimp only at h
      split at h
      · obtain ⟨inner, hinner, h⟩ := except_bind_eq_ok_iff.1 h
        cases h
        have hleave := evalVariantArm_names arms harms hinner
        simpa [footprint, Footprint.seq, Footprint.branch, hleave] using hnames
      · cases h

theorem evals_names {visible : List String} : (es : List (Expr TypeVar)) → ∀ {σ σ' : Store A},
    areCore visible es = true → evals P evaluate es σ = .ok σ' →
      σ'.map Prod.fst = (footprints es).declares.reverse ++ σ.map Prod.fst
  | [], _, _, _, h => by
    cases h
    rfl
  | e :: rest, _, _, hcore, h => by
    obtain ⟨he, hrest⟩ := Bool.and_eq_true_iff.1 hcore
    obtain ⟨⟨x, σ₁⟩, heval, h⟩ := except_bind_eq_ok_iff.1 h
    simp [footprints, Footprint.seq, evals_names rest hrest h, eval_names e he heval]

theorem evalValueArm_names {visible : List String} :
    (arms : List (Expr TypeVar × List (Expr TypeVar))) → ∀ {k : Nat} {σ inner : Store A},
      areValueArmsCore visible arms = true → evalValueArm P evaluate arms k σ = .ok inner →
        (σ.leave inner).map Prod.fst = σ.map Prod.fst
  | [], _, _, _, _, h => by cases h
  | (_, body) :: rest, 0, _, _, hcore, h =>
    Store.map_fst_leave (evals_names body
      (Bool.and_eq_true_iff.1 (Bool.and_eq_true_iff.1 hcore).2).1 h)
  | (_, body) :: rest, k + 1, _, _, hcore, h =>
    evalValueArm_names rest (Bool.and_eq_true_iff.1 (Bool.and_eq_true_iff.1 hcore).2).2 h

theorem evalVariantArm_names {visible : List String} :
    (arms : List (VariantArm TypeVar (List (Expr TypeVar)))) →
      ∀ {k : Nat} {payload : Value A} {σ inner : Store A}, areVariantArmsCore visible arms = true →
        evalVariantArm P evaluate arms k payload σ = .ok inner →
          (σ.leave inner).map Prod.fst = σ.map Prod.fst
  | [], _, _, _, _, _, h => by cases h
  | ⟨_, some n, _, body⟩ :: rest, 0, payload, σ, inner, hcore, h => by
    have hnames := evals_names body (Bool.and_eq_true_iff.1 (Bool.and_eq_true_iff.1 hcore).2).1 h
    have hnames : inner.map Prod.fst =
        ((footprints body).declares.reverse ++ [n]) ++ σ.map Prod.fst := by
      simpa using hnames
    exact Store.map_fst_leave hnames
  | ⟨_, none, _, body⟩ :: rest, 0, _, _, _, hcore, h =>
    Store.map_fst_leave (evals_names body (Bool.and_eq_true_iff.1 hcore).1 h)
  | ⟨_, some n, _, body⟩ :: rest, k + 1, _, _, _, hcore, h => by
    rw [evalVariantArm] at h
    exact evalVariantArm_names rest (Bool.and_eq_true_iff.1 (Bool.and_eq_true_iff.1 hcore).2).2 h
  | ⟨_, none, _, body⟩ :: rest, k + 1, _, _, _, hcore, h => by
    rw [evalVariantArm] at h
    exact evalVariantArm_names rest (Bool.and_eq_true_iff.1 hcore).2 h

end

/-! ### The names declared -/

mutual

theorem not_visible : (e : Expr TypeVar) → ∀ {visible : List String}, e.isCore visible = true →
    ∀ n ∈ e.footprint.declares, n ∉ visible
  | .literal .., _, _, _, hn => nomatch hn
  | .localVar .., _, _, _, hn => nomatch hn
  | .define _ n _ value, _, hcore, m, hm => by
    obtain ⟨hvalue, hnew⟩ := Bool.and_eq_true_iff.1 hcore
    rcases List.mem_append.1 hm with hm | hm
    · exact not_visible value hvalue m hm
    · rw [List.mem_singleton.1 hm]
      intro hvisible
      simp [hvisible] at hnew
  | .declare _ n _, visible, hcore, m, hm => by
    rw [List.mem_singleton.1 hm]
    simpa [isCore] using hcore
  | .assign _ (.localVar _ n) value, _, hcore, m, hm => by
    refine not_visible value hcore m ?_
    simpa [footprint, Footprint.seq, Footprint.assign] using hm
  | .giveBack _ value, _, hcore, m, hm => by
    rw [isCore] at hcore
    exact not_visible value hcore m hm
  | .binary _ op left right, _, hcore, m, hm => by
    cases op with
    | and =>
      refine not_visible left (Bool.and_eq_true_iff.1 hcore).1 m ?_
      simpa [footprint, Footprint.seq, Footprint.operand] using hm
    | or =>
      refine not_visible left (Bool.and_eq_true_iff.1 hcore).1 m ?_
      simpa [footprint, Footprint.seq, Footprint.operand] using hm
    | _ =>
      obtain ⟨hl, hr⟩ := Bool.and_eq_true_iff.1 hcore
      rcases List.mem_append.1 hm with hm | hm
      · exact not_visible left hl m hm
      · exact fun h => not_visible right hr m hm (List.mem_append_right _ h)
  | .unary _ op operand, _, hcore, m, hm => by
    rw [isCore] at hcore
    exact not_visible operand hcore m hm
  | .variant _ n payload, _, hcore, m, hm => by
    rw [isCore] at hcore
    exact not_visible payload hcore m hm
  | .unwrap _ value n, _, hcore, m, hm => by
    rw [isCore] at hcore
    refine not_visible value hcore m ?_
    simpa [footprint, Footprint.seq, Footprint.unwrap] using hm
  | .ifElse _ condition yes no, _, hcore, m, hm => by
    refine not_visible condition (Bool.and_eq_true_iff.1 hcore).1 m ?_
    simpa [footprint, Footprint.seq, Footprint.branch] using hm
  | .matchValue _ value arms otherwise, _, hcore, m, hm => by
    refine not_visible value (Bool.and_eq_true_iff.1 hcore).1 m ?_
    simpa [footprint, Footprint.seq, Footprint.branch] using hm
  | .matchVariant _ value arms (some otherwise), _, hcore, m, hm => by
    refine not_visible value (Bool.and_eq_true_iff.1 hcore).1 m ?_
    simpa [footprint, Footprint.seq, Footprint.branch] using hm
  | .matchVariant _ value arms none, _, hcore, m, hm => by
    refine not_visible value (Bool.and_eq_true_iff.1 hcore).1 m ?_
    simpa [footprint, Footprint.seq, Footprint.branch] using hm

theorem not_visible_of_areCore : (es : List (Expr TypeVar)) → ∀ {visible : List String},
    areCore visible es = true → ∀ n ∈ (footprints es).declares, n ∉ visible
  | [], _, _, _, hn => nomatch hn
  | e :: rest, _, hcore, m, hm => by
    obtain ⟨he, hrest⟩ := Bool.and_eq_true_iff.1 hcore
    rcases List.mem_append.1 hm with hm | hm
    · exact not_visible e he m hm
    · exact fun h => not_visible_of_areCore rest hrest m hm (List.mem_append_right _ h)

end

/-! ### One arm -/

/-- Evaluating an arm of a match against constants is evaluating its body. -/
theorem evalValueArm_eq {arms : List (Expr TypeVar × List (Expr TypeVar))} {k : Nat}
    {arm : Expr TypeVar × List (Expr TypeVar)} (harm : arms[k]? = some arm) (σ : Store A) :
    evalValueArm P evaluate arms k σ = evals P evaluate arm.2 σ := by
  induction arms generalizing k with
  | nil => cases harm
  | cons first arms ih =>
    cases k with
    | zero =>
      cases harm
      rfl
    | succ k => exact ih harm

/-- Evaluating an arm of a match on variants is evaluating its body with the payload bound. -/
theorem evalVariantArm_eq {arms : List (VariantArm TypeVar (List (Expr TypeVar)))} {k : Nat}
    {arm : VariantArm TypeVar (List (Expr TypeVar))} (harm : arms[k]? = some arm) (payload : Value A)
    (σ : Store A) :
    evalVariantArm P evaluate arms k payload σ =
      evals P evaluate arm.body (Store.payload arm.binding payload ++ σ) := by
  induction arms generalizing k with
  | nil => cases harm
  | cons first arms ih =>
    obtain ⟨variant, binding, type, body⟩ := first
    cases k with
    | zero =>
      cases harm
      cases binding <;> rfl
    | succ k =>
      rw [evalVariantArm]
      exact ih harm

end Expr
end Monomorph
