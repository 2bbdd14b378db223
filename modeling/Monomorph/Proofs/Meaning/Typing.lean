import Monomorph.Proofs.Draft.Recorded
import Monomorph.Proofs.Meaning.Stores
import Monomorph.Proofs.Type.Demands

/-! # Matches find an arm

A match that lists all variants demands that the union be closed over them. So where the constraints of a
body hold and the locals carry values of their types (`Value.Fits`), no evaluation of it ends for want of an
arm (`Expr.evals_safe`).

Only what matters for this is asked of values: their variants are variants of the unions that are their
types. It is preserved by evaluation, and values that fit narrowed types fit the types before
(`Value.Fits.of_narrows`). -/

namespace Monomorph

open TypeGraph Outcome

variable {A : Type} {g g' : TypeGraph} {v w : TypeVar} {x : Value A}

def Records.Hold (r : Records) (g : TypeGraph) : Prop := ∀ c ∈ r.constraints, c.Holds g

theorem Records.Hold.met {r : Records} (hr : r.Hold g) {d : Demand} (h : r.Demands v d) : d.Met g v := by
  obtain ⟨span, hmem⟩ := h
  exact hr _ hmem

/-! ### Values -/

/-- A value fits a type if every variant inside it, where a union is expected, is one of the union or the
union is open. -/
def Value.Fits (g : TypeGraph) : Value A → TypeVar → Prop
  | .atom _, _ => True
  | .variant name payload, v =>
    match g.kind v with
    | .union row isOpen =>
      match row.get? name with
      | some w => payload.Fits g w
      | none => isOpen = true
    | _ => True

namespace Value

theorem Fits.of_same (h : x.Fits g v) (hvw : g.Same v w) : x.Fits g w := by
  cases x with
  | atom => trivial
  | variant name payload =>
    rw [Fits, ← kind_eq_of_same hvw]
    exact h

theorem fits_variant_iff {name : String} (h : (Demand.hasVariant name w).Met g v) :
    (variant name x).Fits g v ↔ x.Fits g w := by
  obtain ⟨row, isOpen, hkind, hrow⟩ := Kind.refines_union_iff.1 h.shape
  obtain ⟨w', hw', hsame⟩ := hrow.names name w (by rw [Row.get?_insert, if_pos rfl])
  simp only [Fits, hkind, hw']
  exact ⟨fun hx => hx.of_same hsame, fun hx => hx.of_same (g.same_equivalence.symm hsame)⟩

/-- Values of narrowed types are values of the types before. -/
theorem Fits.of_narrows (hg : g.Narrows g') (h : x.Fits g' v) : x.Fits g v := by
  induction x generalizing v with
  | atom => trivial
  | variant name payload ih =>
    unfold Fits
    split
    · rename_i row isOpen hkind
      obtain ⟨row', isOpen', hkind', hrow⟩ := Kind.refines_union_iff.1 (hkind ▸ hg.refines v)
      simp only [Fits, hkind'] at h
      split
      · rename_i w hw
        obtain ⟨w', hw', hsame⟩ := hrow.names name w hw
        rw [hw'] at h
        exact ih (Fits.of_same h hsame)
      · rename_i hnone
        refine (Bool.not_eq_false _).mp fun hclosed => ?_
        have hnone' : row'.get? name = none := by
          refine Option.not_isSome_iff_eq_none.1 fun hsome => ?_
          have hcontains := hrow.noFurther hclosed name hsome
          rw [Row.contains, hnone] at hcontains
          cases hcontains
        rw [hnone', hrow.isClosed hclosed] at h
        cases h
    · trivial

theorem Fits.contains {name : String} {row : Row TypeVar} (h : (variant name x).Fits g v)
    (hkind : g.kind v = .union row false) : row.contains name = true := by
  simp only [Fits, hkind] at h
  split at h
  · exact Row.contains_of_get? (by assumption)
  · cases h

end Value

/-! ### Stores -/

/-- The locals carry values of their types. -/
def Store.Fits (g : TypeGraph) (σ : Store A) (locals : List (String × TypeVar)) : Prop :=
  List.Forall₂ (fun e l => e.1 = l.1 ∧ e.2.Fits g l.2) σ locals

namespace Store

variable {σ inner : Store A} {locals added : List (String × TypeVar)} {n : String}

theorem Fits.lookup (h : σ.Fits g locals) (hx : σ.lookup n = some x) (hv : locals.lookup n = some v) :
    x.Fits g v := by
  induction h with
  | nil => cases hx
  | @cons e l σ locals hhead _ ih =>
    obtain ⟨m, y⟩ := e
    obtain ⟨rfl, hfits⟩ := hhead
    rw [List.lookup_cons] at hx hv
    split at hx
    · rename_i heq
      rw [heq] at hv
      cases hx
      cases hv
      exact hfits
    · rename_i heq
      rw [heq] at hv
      exact ih hx hv

theorem Fits.assign (h : σ.Fits g locals) (hv : locals.lookup n = some v) (hx : x.Fits g v) :
    (σ.assign n x).Fits g locals := by
  induction h with
  | nil => exact .nil
  | @cons e l σ locals hhead hrest ih =>
    obtain ⟨m, y⟩ := e
    obtain ⟨rfl, hfits⟩ := hhead
    rw [List.lookup_cons] at hv
    rw [Store.assign]
    split
    · rename_i heq
      obtain rfl := eq_of_beq heq
      rw [beq_self_eq_true] at hv
      cases hv
      exact .cons ⟨rfl, hx⟩ hrest
    · rename_i hne
      rw [beq_false_of_ne fun heq => hne (beq_iff_eq.2 heq.symm)] at hv
      exact .cons ⟨rfl, hfits⟩ (ih hv)

theorem Fits.leave (h : σ.Fits g locals) (hinner : inner.Fits g (added ++ locals)) :
    (σ.leave inner).Fits g locals := by
  have hdrop := List.forall₂_drop (inner.length - σ.length) hinner
  have hlength : inner.length - σ.length = added.length := by
    rw [hinner.length_eq, h.length_eq, List.length_append, Nat.add_sub_cancel]
  rw [hlength, List.drop_left] at hdrop
  rwa [Store.leave, hlength]

end Store

/-! ### Runs -/

/-- The run does not end for want of an arm, and what it gives is as said. -/
def Safe {β : Type} (gives : β → Prop) : Except (Stop A) β → Prop
  | .ok b => gives b
  | .error stop => stop ≠ .unmatched

namespace Safe

variable {β γ : Type} {gives : β → Prop} {gives' : γ → Prop} {run : Except (Stop A) β}

theorem bind {f : β → Except (Stop A) γ} (hrun : Safe gives run) (hf : ∀ b, gives b → Safe gives' (f b)) :
    Safe gives' (run >>= f) := by
  cases run with
  | ok b => exact hf b hrun
  | error stop => exact hrun

theorem imp {gives' : β → Prop} (hrun : Safe gives run) (himp : ∀ b, gives b → gives' b) : Safe gives' run := by
  cases run with
  | ok b => exact himp b hrun
  | error stop => exact hrun

theorem ne_unmatched (hrun : Safe gives run) : run ≠ .error .unmatched := by
  rintro rfl
  exact hrun rfl

end Safe

theorem Primitives.applyBinary_safe (P : Primitives A) (op : BinaryOp) (l r : Value A) :
    Safe (fun y => y.Fits g v) (P.applyBinary op l r) := by
  unfold applyBinary
  split
  · trivial
  · exact nofun

theorem Primitives.applyUnary_safe (P : Primitives A) (op : UnaryOp) (y : Value A) :
    Safe (fun y => y.Fits g v) (P.applyUnary op y) := by
  unfold applyUnary
  split
  · trivial
  · exact nofun

theorem Value.unwrap_safe {name : String} (h : (Demand.hasVariant name w).Met g v) (hx : x.Fits g v) :
    Safe (fun y => y.Fits g w) (x.unwrap name) := by
  cases x with
  | atom =>
    rintro ⟨⟩
  | variant n payload =>
    rw [Value.unwrap]
    split
    · rename_i heq
      obtain rfl := eq_of_beq heq
      exact (fits_variant_iff h).1 hx
    · rintro ⟨⟩

namespace Expr

variable {P : Primitives A} {evaluate : Evaluator} {r : Records} {σ : Store A}

/-- All expressions inside are recorded. -/
abbrev Known (r : Records) (nodes : List (Place × Expr TypeVar)) : Prop := ∀ n ∈ nodes, n.2.Recorded r n.1

/-- An expression that changes nothing declares nothing. -/
theorem declared_of_isPure : (e : Expr TypeVar) → e.isPure = true → e.declared = []
  | .literal .., _ => rfl
  | .localVar .., _ => rfl
  | .giveBack _ value, h => declared_of_isPure value h
  | .binary _ _ left right, h => by
    obtain ⟨hl, hr⟩ := Bool.and_eq_true_iff.1 h
    rw [declared, declared_of_isPure left hl, declared_of_isPure right hr, List.append_nil]
  | .unary _ _ operand, h => declared_of_isPure operand h
  | .variant _ _ payload, h => declared_of_isPure payload h
  | .unwrap _ value _, h => declared_of_isPure value h
  | .ifElse _ condition _ _, h => declared_of_isPure condition (Bool.and_eq_true_iff.1 h).1
  | .matchValue _ value _ _, h => declared_of_isPure value (Bool.and_eq_true_iff.1 h).1
  | .matchVariant _ value _ (some _), h => declared_of_isPure value (Bool.and_eq_true_iff.1 h).1
  | .matchVariant _ value _ none, h => declared_of_isPure value (Bool.and_eq_true_iff.1 h).1

/-- What is asked of the evaluation of an expression at a place. -/
abbrev EvalSafe (P : Primitives A) (evaluate : Evaluator) (g : TypeGraph) (p : Place) (e : Expr TypeVar)
    (σ : Store A) : Prop :=
  Safe (fun y : Value A × Store A => y.1.Fits g e.note ∧ y.2.Fits g (p.declare e.declared).locals)
    (eval P evaluate e σ)

/-- What is asked of the evaluation of a block inside a place. -/
abbrev BlockSafe (g : TypeGraph) (p : Place) (run : Except (Stop A) (Store A)) : Prop :=
  Safe (fun inner : Store A => ∃ added, inner.Fits g (added ++ p.locals)) run

/-- A statement with blocks: afterwards the locals are those before them. -/
theorem leave_safe {p : Place} {run : Except (Stop A) (Store A)} (hσ : σ.Fits g p.locals)
    (hrun : BlockSafe g p run) :
    Safe (fun y : Value A × Store A => y.1.Fits g v ∧ y.2.Fits g p.locals)
      (do let inner ← run; return (P.unit, σ.leave inner)) :=
  hrun.bind fun _ ⟨_, hinner⟩ => ⟨trivial, hσ.leave hinner⟩

/-- The payload of the arm that is selected is demanded to be that of the value's variant. -/
theorem selected_demanded {name : String} {arms : List (VariantArm TypeVar (List (Expr TypeVar)))}
    (harms : ∀ arm ∈ arms, r.Demands v (.hasVariant arm.variant arm.payload)) {k : Nat}
    (hk : selectVariant name arms = some k) {arm : VariantArm TypeVar (List (Expr TypeVar))}
    (harm : arms[k]? = some arm) : r.Demands v (.hasVariant name arm.payload) := by
  obtain ⟨hlt, hname, -⟩ := List.findIdx?_eq_some_iff_getElem.1 hk
  obtain ⟨-, rfl⟩ := List.getElem?_eq_some_iff.1 harm
  rw [← eq_of_beq hname]
  exact harms _ (List.getElem_mem hlt)

/-- Of a union limited to the variants of the arms, every value has an arm. -/
theorem selectVariant_ne_none {name : String} {arms : List (VariantArm TypeVar (List (Expr TypeVar)))}
    (hlimit : (Demand.limitVariants (.ofNames (arms.map (·.variant)))).Met g v)
    (hx : (Value.variant name x).Fits g v) : selectVariant name arms ≠ none := by
  intro hnone
  obtain ⟨row, isOpen, hkind, -⟩ := Kind.refines_union_iff.1 hlimit.shape
  have hlimits := hlimit.limits
  rw [hkind] at hlimits
  obtain ⟨rfl, hnames⟩ := hlimits
  obtain ⟨u, hu⟩ := (Row.contains_iff _).1 (hnames name (hx.contains hkind))
  obtain ⟨n, hn, heq⟩ := List.mem_map.1 (Row.mem_of_get?_ofList hu)
  obtain ⟨arm, harm, rfl⟩ := List.mem_map.1 hn
  cases heq
  have := List.findIdx?_eq_none_iff.1 hnone arm harm
  simp at this

theorem binary_safe {p : Place} {op : BinaryOp} {left right : Expr TypeVar}
    (hleft : EvalSafe P evaluate g p left σ)
    (hright : ∀ {σ}, σ.Fits g (p.declare left.declared).locals →
      EvalSafe P evaluate g (p.declare left.declared) right σ) :
    Safe (fun y : Value A × Store A =>
        y.1.Fits g v ∧ y.2.Fits g (p.declare (right.declared ++ left.declared)).locals)
      (do
        let (l, σ) ← eval P evaluate left σ
        let (r, σ) ← eval P evaluate right σ
        return (← P.applyBinary op l r, σ)) := by
  refine hleft.bind fun ⟨l, σ₁⟩ ⟨_, hσ₁⟩ => (hright hσ₁).bind fun ⟨r, σ₂⟩ ⟨_, hσ₂⟩ => ?_
  exact (P.applyBinary_safe op l r).bind fun y hy => ⟨hy, by simpa using hσ₂⟩

/-- An operation that need not evaluate its right operand, which declares nothing. -/
theorem shortcut_safe {p : Place} {c : Constant} {left right : Expr TypeVar} (hpure : right.isPure = true)
    (hsame : g.Same left.note right.note) (hv : v = left.note) (hleft : EvalSafe P evaluate g p left σ)
    (hright : ∀ {σ}, σ.Fits g (p.declare left.declared).locals →
      EvalSafe P evaluate g (p.declare left.declared) right σ) :
    Safe (fun y : Value A × Store A =>
        y.1.Fits g v ∧ y.2.Fits g (p.declare (right.declared ++ left.declared)).locals)
      (do
        let (l, σ) ← eval P evaluate left σ
        if P.isConstant c l then return (l, σ) else eval P evaluate right σ) := by
  have hdeclared := declared_of_isPure right hpure
  subst hv
  refine hleft.bind fun ⟨l, σ₁⟩ ⟨hl, hσ₁⟩ => ?_
  dsimp only
  split
  · exact ⟨hl, by simpa [hdeclared] using hσ₁⟩
  · exact (hright hσ₁).imp fun _ hy => ⟨hy.1.of_same (g.same_equivalence.symm hsame), by simpa using hy.2⟩

mutual

theorem eval_safe (hr : r.Hold g) : (e : Expr TypeVar) → ∀ {visible : List String} {p : Place} {σ : Store A},
    isCore visible e = true → Known r (e.nodes p) → σ.Fits g p.locals → EvalSafe P evaluate g p e σ
  | .literal .., _, _, _, _, _, hσ => ⟨trivial, hσ⟩
  | .localVar m n, _, _, _, _, hknown, hσ => by
    have hlocal := (List.forall_mem_cons.1 hknown).1
    rw [EvalSafe, eval]
    split
    · exact ⟨hσ.lookup (by assumption) hlocal, hσ⟩
    · exact nofun
  | .define m n _ value, _, _, _, hcore, hknown, hσ => by
    obtain ⟨hnote, hknown⟩ := List.forall_mem_cons.1 hknown
    obtain ⟨hcore, -⟩ := Bool.and_eq_true_iff.1 hcore
    refine (eval_safe hr value hcore hknown hσ).bind fun ⟨v, σ₁⟩ ⟨hv, hσ₁⟩ => ⟨trivial, ?_⟩
    exact .cons ⟨rfl, hnote ▸ hv⟩ hσ₁
  | .declare .., _, _, _, _, _, hσ => ⟨trivial, .cons ⟨rfl, trivial⟩ hσ⟩
  | .assign m (.localVar m' n) value, _, p, _, hcore, hknown, hσ => by
    obtain ⟨hunify, hknown⟩ := List.forall_mem_cons.1 hknown
    obtain ⟨hvalue, htarget⟩ := List.forall_mem_append.1 hknown
    have hlocal : (p.declare value.declared).locals.lookup n = some m'.note :=
      (List.forall_mem_cons.1 htarget).1
    have hsame := (hr.met hunify).same _ rfl
    refine (eval_safe hr value hcore hvalue hσ).bind fun ⟨v, σ₁⟩ ⟨hv, hσ₁⟩ => ?_
    dsimp only
    split
    · exact ⟨trivial, hσ₁.assign hlocal (hv.of_same (g.same_equivalence.symm hsame))⟩
    · exact nofun
  | .giveBack _ value, _, _, _, hcore, hknown, hσ =>
    (eval_safe hr value hcore (List.forall_mem_cons.1 hknown).2 hσ).bind fun _ _ => nofun
  | .binary m op left right, _, _, _, hcore, hknown, hσ => by
    obtain ⟨hrecorded, hknown⟩ := List.forall_mem_cons.1 hknown
    obtain ⟨hkleft, hkright⟩ := List.forall_mem_append.1 hknown
    cases op with
    | and | or =>
      obtain ⟨hcleft, hcright⟩ := Bool.and_eq_true_iff.1 hcore
      obtain ⟨hcright, hpure⟩ := Bool.and_eq_true_iff.1 hcright
      obtain ⟨hunify, -, hnote⟩ := hrecorded
      exact shortcut_safe hpure ((hr.met hunify).same _ rfl) hnote (eval_safe hr left hcleft hkleft hσ)
        fun hσ₁ => eval_safe hr right hcright hkright hσ₁
    | _ =>
      obtain ⟨hcleft, hcright⟩ := Bool.and_eq_true_iff.1 hcore
      exact binary_safe (eval_safe hr left hcleft hkleft hσ)
        fun hσ₁ => eval_safe hr right hcright hkright hσ₁
  | .unary _ op operand, _, _, _, hcore, hknown, hσ =>
    (eval_safe hr operand hcore (List.forall_mem_cons.1 hknown).2 hσ).bind fun ⟨v, _⟩ ⟨_, hσ₁⟩ =>
      (P.applyUnary_safe op v).bind fun _ hy => ⟨hy, hσ₁⟩
  | .variant m n payload, _, _, _, hcore, hknown, hσ => by
    obtain ⟨hvariant, hknown⟩ := List.forall_mem_cons.1 hknown
    refine (eval_safe hr payload hcore hknown hσ).bind fun ⟨v, σ₁⟩ ⟨hv, hσ₁⟩ => ⟨?_, hσ₁⟩
    exact (Value.fits_variant_iff (hr.met hvariant)).2 hv
  | .unwrap m value n, _, _, _, hcore, hknown, hσ => by
    obtain ⟨⟨hvariant, -⟩, hknown⟩ := List.forall_mem_cons.1 hknown
    refine (eval_safe hr value hcore hknown hσ).bind fun ⟨v, σ₁⟩ ⟨hv, hσ₁⟩ => ?_
    exact (Value.unwrap_safe (hr.met hvariant) hv).bind fun _ hy => ⟨hy, hσ₁⟩
  | .ifElse _ condition yes no, _, _, _, hcore, hknown, hσ => by
    obtain ⟨hccondition, hcore⟩ := Bool.and_eq_true_iff.1 hcore
    obtain ⟨hcyes, hcno⟩ := Bool.and_eq_true_iff.1 hcore
    obtain ⟨hkcondition, hknown⟩ := List.forall_mem_append.1 (List.forall_mem_cons.1 hknown).2
    obtain ⟨hkyes, hkno⟩ := List.forall_mem_append.1 hknown
    refine (eval_safe hr condition hccondition hkcondition hσ).bind fun ⟨v, σ₁⟩ ⟨_, hσ₁⟩ => ?_
    refine leave_safe hσ₁ ?_
    split
    · exact evals_safe hr yes hcyes hkyes hσ₁
    · exact evals_safe hr no hcno hkno hσ₁
  | .matchValue _ value arms otherwise, _, _, _, hcore, hknown, hσ => by
    obtain ⟨hcvalue, hcore⟩ := Bool.and_eq_true_iff.1 hcore
    obtain ⟨hcarms, hcotherwise⟩ := Bool.and_eq_true_iff.1 hcore
    obtain ⟨hkvalue, hknown⟩ := List.forall_mem_append.1 (List.forall_mem_cons.1 hknown).2
    obtain ⟨-, hknown⟩ := List.forall_mem_append.1 hknown
    obtain ⟨hkarms, hkotherwise⟩ := List.forall_mem_append.1 hknown
    refine (eval_safe hr value hcvalue hkvalue hσ).bind fun ⟨v, σ₁⟩ ⟨_, hσ₁⟩ => ?_
    refine leave_safe hσ₁ ?_
    split
    · exact valueArm_safe hr arms hcarms hkarms hσ₁
    · exact evals_safe hr otherwise hcotherwise hkotherwise hσ₁
  | .matchVariant _ value arms (some otherwise), _, _, _, hcore, hknown, hσ => by
    obtain ⟨hcvalue, hcore⟩ := Bool.and_eq_true_iff.1 hcore
    obtain ⟨hcarms, hcotherwise⟩ := Bool.and_eq_true_iff.1 hcore
    obtain ⟨⟨hvariants, -⟩, hknown⟩ := List.forall_mem_cons.1 hknown
    obtain ⟨hkvalue, hknown⟩ := List.forall_mem_append.1 hknown
    obtain ⟨hkarms, hkotherwise⟩ := List.forall_mem_append.1 hknown
    refine (eval_safe hr value hcvalue hkvalue hσ).bind fun ⟨v, σ₁⟩ ⟨hv, hσ₁⟩ => ?_
    cases v with
    | atom => exact nofun
    | variant name payload =>
      refine leave_safe hσ₁ ?_
      split
      · rename_i k hk
        exact variantArm_safe hr arms hcarms hkarms hσ₁ fun arm harm => (Value.fits_variant_iff
          (hr.met (selected_demanded hvariants hk harm))).1 hv
      · exact evals_safe hr otherwise hcotherwise hkotherwise hσ₁
  | .matchVariant _ value arms none, _, _, _, hcore, hknown, hσ => by
    obtain ⟨hcvalue, hcarms⟩ := Bool.and_eq_true_iff.1 hcore
    obtain ⟨⟨hvariants, hlimit⟩, hknown⟩ := List.forall_mem_cons.1 hknown
    obtain ⟨hkvalue, hkarms⟩ := List.forall_mem_append.1 hknown
    refine (eval_safe hr value hcvalue hkvalue hσ).bind fun ⟨v, σ₁⟩ ⟨hv, hσ₁⟩ => ?_
    cases v with
    | atom => exact nofun
    | variant name payload =>
      dsimp only
      split
      · rename_i k hk
        exact leave_safe hσ₁ (variantArm_safe hr arms hcarms hkarms hσ₁ fun arm harm =>
          (Value.fits_variant_iff (hr.met (selected_demanded hvariants hk harm))).1 hv)
      · rename_i hnone
        exact absurd hnone (selectVariant_ne_none (hr.met (hlimit rfl)) hv)

theorem evals_safe (hr : r.Hold g) : (es : List (Expr TypeVar)) → ∀ {visible : List String} {p : Place}
    {σ : Store A}, areCore visible es = true → Known r (nodesOf p es) → σ.Fits g p.locals →
      BlockSafe g p (evals P evaluate es σ)
  | [], _, _, _, _, _, hσ => ⟨[], hσ⟩
  | e :: rest, _, p, _, hcore, hknown, hσ => by
    obtain ⟨hcfirst, hcrest⟩ := Bool.and_eq_true_iff.1 hcore
    obtain ⟨hkfirst, hkrest⟩ := List.forall_mem_append.1 hknown
    refine (eval_safe hr e hcfirst hkfirst hσ).bind fun ⟨_, σ₁⟩ ⟨_, hσ₁⟩ => ?_
    refine (evals_safe hr rest hcrest hkrest hσ₁).imp fun inner ⟨added, hinner⟩ => ⟨added ++ e.declared, ?_⟩
    rwa [List.append_assoc]

theorem valueArm_safe (hr : r.Hold g) : (arms : List (Expr TypeVar × List (Expr TypeVar))) →
    ∀ {visible : List String} {p : Place} {k : Nat} {σ : Store A}, areValueArmsCore visible arms = true →
      Known r (armBodyNodes p arms) → σ.Fits g p.locals → BlockSafe g p (evalValueArm P evaluate arms k σ)
  | [], _, _, _, _, _, _, _ => nofun
  | (_, body) :: rest, _, _, k, _, hcore, hknown, hσ => by
    obtain ⟨-, hcore⟩ := Bool.and_eq_true_iff.1 hcore
    obtain ⟨hcbody, hcrest⟩ := Bool.and_eq_true_iff.1 hcore
    obtain ⟨hkbody, hkrest⟩ := List.forall_mem_append.1 hknown
    cases k with
    | zero => exact evals_safe hr body hcbody hkbody hσ
    | succ k => exact valueArm_safe hr rest hcrest hkrest hσ

theorem variantArm_safe (hr : r.Hold g) : (arms : List (VariantArm TypeVar (List (Expr TypeVar)))) →
    ∀ {visible : List String} {p : Place} {k : Nat} {payload : Value A} {σ : Store A},
      areVariantArmsCore visible arms = true → Known r (variantArmNodes p arms) → σ.Fits g p.locals →
        (∀ arm, arms[k]? = some arm → payload.Fits g arm.payload) →
          BlockSafe g p (evalVariantArm P evaluate arms k payload σ)
  | [], _, _, _, _, _, _, _, _, _ => nofun
  | ⟨_, binding, type, body⟩ :: rest, _, p, k, payload, σ, hcore, hknown, hσ, hpayload => by
    obtain ⟨hkbody, hkrest⟩ := List.forall_mem_append.1 hknown
    cases k with
    | zero =>
      cases binding with
      | none =>
        obtain ⟨hcbody, -⟩ := Bool.and_eq_true_iff.1 hcore
        exact evals_safe hr body hcbody hkbody hσ
      | some n =>
        obtain ⟨-, hcore⟩ := Bool.and_eq_true_iff.1 hcore
        obtain ⟨hcbody, -⟩ := Bool.and_eq_true_iff.1 hcore
        have hbound : Store.Fits g ((n, payload) :: σ) (p.bind (some n) type).locals :=
          .cons ⟨rfl, hpayload _ rfl⟩ hσ
        refine (evals_safe hr body hcbody hkbody hbound).imp fun inner ⟨added, hinner⟩ =>
          ⟨added ++ [(n, type)], ?_⟩
        rwa [List.append_assoc]
    | succ k =>
      cases binding with
      | none =>
        obtain ⟨-, hcrest⟩ := Bool.and_eq_true_iff.1 hcore
        exact variantArm_safe hr rest hcrest hkrest hσ hpayload
      | some n =>
        obtain ⟨-, hcore⟩ := Bool.and_eq_true_iff.1 hcore
        obtain ⟨-, hcrest⟩ := Bool.and_eq_true_iff.1 hcore
        exact variantArm_safe hr rest hcrest hkrest hσ hpayload

end

end Expr
end Monomorph
