import Monomorph.Proofs.Draft.Operands
import Monomorph.Proofs.Draft.Region

/-! # The form of drafts

Some trees can be written that are not meant: assignments to what is no place, closures without types. Drafting
leaves none of them, whatever it is given; every statement is of unit type, unless it is a declaration, which is of
the type of its local; and where no declaration is used as a value, all operands are values or of unit type. All of it
is about the draft's own variables only (`DraftM.expr_drafted`). So are its constraints (`Draft.ofProcedure_regional`,
`Draft.ofVariable_regional`), which are applied inside a closed region. -/

namespace Monomorph

open Outcome

theorem Kind.eq_unit_of_refines {r : VarRel} {k : Kind} (h : k.Refines r .unit) : k = .unit := by
  cases k <;> first | rfl | cases h

namespace Expr

/-- Whether something can be assigned to the expression. -/
def isPlace {α : Type} : Expr α → Bool
  | .localVar .. | .member .. | .element .. => true
  | _ => false

/-- An assignment aims at a place, a closure has its types, and the receiver of a method call may have the member
that is called. -/
def Formed (members : TypeVar → String → Prop) : Expr TypeVar → Prop
  | .assign _ target _ => target.isPlace = true
  | .closure _ _ _ info => info.isSome = true
  | .method _ receiver n _ => members receiver.note n
  | _ => True

/-- All of these expressions have the form, at whatever place they stand. -/
abbrev AllFormed (members : TypeVar → String → Prop) (nodes : List (Place × Expr TypeVar)) : Prop :=
  ∀ n ∈ nodes, n.2.Formed members

/-- A statement that is no declaration is of unit type. -/
def Stated (g : TypeGraph) (e : Expr TypeVar) : Prop :=
  e.isDeclaration = false → e.hasValue = false → g.kind e.note = .unit

theorem Stated.of_hasValue {g : TypeGraph} {e : Expr TypeVar} (h : e.hasValue = true) : e.Stated g := fun _ hvalue =>
  nomatch h.symm.trans hvalue

/-- What drafting makes of an expression. -/
structure FormedDraft (members : TypeVar → String → Prop) (g : TypeGraph) (e : Expr TypeVar) : Prop where
  formed : e.Formed members
  stated : e.Stated g
  operands : ∀ o ∈ e.operands, o.Stated g

end Expr

namespace DraftM

open Monomorph.Expr (FormedDraft)

/-- All of these expressions are as drafting leaves them, at whatever place they stand. Of receivers nothing is said
while drafting. -/
abbrev NodesFormed (g : TypeGraph) (nodes : Place → List (Place × Expr TypeVar)) : Prop :=
  ∀ p, ∀ n ∈ nodes p, n.2.FormedDraft (fun _ _ => True) g

variable {α : Type} {proper : Prop} {r : Set TypeVar} {frames : Nat} {K : Drafting → Prop} {g : TypeGraph}
  {context : DraftContext} {span : Span}

/-! ### What drafting makes of expressions -/

/-- What is said of a node of a draft. If the source is `proper`, all operands are used as values. -/
structure NodeDrafted (proper : Prop) (g : TypeGraph) (e : Expr TypeVar) : Prop where
  formed : e.FormedDraft (fun _ _ => True) g
  operands : proper → ∀ o ∈ e.operands, o.IsOperand g

/-- All nodes of the expression are as drafting leaves them. -/
abbrev Drafted (proper : Prop) (g : TypeGraph) (e : Expr TypeVar) : Prop :=
  ∀ p, ∀ n ∈ e.nodes p, NodeDrafted proper g n.2

/-- What drafting in the region makes of an expression of the source: the second one. -/
structure DraftedFrom (proper : Prop) (r : Set TypeVar) (g : TypeGraph) (e : Expr α) (e' : Expr TypeVar) : Prop where
  known : g.Known r e'.note
  operand : proper → e.isDeclaration = false → e'.IsOperand g
  drafted : Drafted proper g e'

/-- A value need not be of unit type. -/
theorem unit_of_value {e : Expr TypeVar} (h : e.hasValue = true) :
    e.isDeclaration = false → e.hasValue = false → (Demand.isBase .unit none).Met g e.note :=
  fun _ hvalue => (Bool.false_ne_true (hvalue.symm.trans h)).elim

/-- Nor does a declaration. -/
theorem unit_of_declaration {e : Expr TypeVar} (h : e.isDeclaration = true) :
    e.isDeclaration = false → e.hasValue = false → (Demand.isBase .unit none).Met g e.note :=
  fun hdeclaration => (Bool.false_ne_true (hdeclaration.symm.trans h)).elim

/-- From what is directly inside to the whole. -/
theorem DraftedFrom.of {e : Expr α} {e' : Expr TypeVar} {es : List (Expr α)} (hknown : g.Known r e'.note)
    (hdeclares : e'.isDeclaration = e.isDeclaration) (hformed : e'.Formed fun _ _ => True)
    (hunit : e'.isDeclaration = false → e'.hasValue = false → (Demand.isBase .unit none).Met g e'.note)
    (hoperands : List.Forall₂ (DraftedFrom proper r g) es e'.operands)
    (hhere : proper → ∀ o ∈ es, o.isDeclaration = false) (hinsides : ∀ o ∈ e'.insides, Drafted proper g o) :
    DraftedFrom proper r g e e' := by
  have hvalues (ht : proper) : ∀ o ∈ e'.operands, o.IsOperand g := fun o ho => by
    obtain ⟨i, hi, rfl⟩ := List.getElem_of_mem ho
    have hlength := hoperands.length_eq
    exact (hoperands.get (hlength ▸ hi) hi).operand ht (hhere ht _ (List.getElem_mem _))
  have hdrafted : ∀ o ∈ e'.operands, Drafted proper g o := fun o ho => by
    obtain ⟨i, hi, rfl⟩ := List.getElem_of_mem ho
    exact (hoperands.get (hoperands.length_eq ▸ hi) hi).drafted
  refine ⟨hknown, fun ht he => ?_, fun p n hn => ?_⟩
  · have he' := hdeclares.trans he
    exact ⟨Expr.declared_eq_nil he' fun o ho => (hvalues ht o ho).1, hunit he'⟩
  · rcases Expr.mem_nodes hn with rfl | ⟨o, ho, q, hn⟩
    · exact ⟨⟨hformed, fun hdeclaration hvalue => Kind.eq_unit_of_refines (hunit hdeclaration hvalue).shape,
        fun o ho => (hdrafted o ho p _ (Expr.mem_nodes_self p o)).formed.stated⟩, hvalues⟩
    · rcases List.mem_append.1 ho with ho | ho
      · exact hdrafted o ho q n hn
      · exact hinsides o ho q n hn

/-- A value without bodies. -/
theorem DraftedFrom.of_value {e : Expr α} {e' : Expr TypeVar} {es : List (Expr α)} (hknown : g.Known r e'.note)
    (hdeclares : e'.isDeclaration = e.isDeclaration) (hformed : e'.Formed fun _ _ => True)
    (hvalue : e'.hasValue = true) (hoperands : List.Forall₂ (DraftedFrom proper r g) es e'.operands)
    (hhere : proper → ∀ o ∈ es, o.isDeclaration = false) (hinsides : e'.insides = []) : DraftedFrom proper r g e e' :=
  .of hknown hdeclares hformed (unit_of_value hvalue) hoperands hhere (hinsides ▸ List.forall_mem_nil _)

/-- A value with nothing inside. -/
theorem DraftedFrom.of_leaf {e : Expr α} {e' : Expr TypeVar} (hknown : g.Known r e'.note)
    (hdeclares : e'.isDeclaration = e.isDeclaration) (hformed : e'.Formed fun _ _ => True) (hvalue : e'.hasValue = true)
    (hoperands : e'.operands = []) (hinsides : e'.insides = []) : DraftedFrom proper r g e e' :=
  .of_value hknown hdeclares hformed hvalue (hoperands ▸ .nil) (fun _ => List.forall_mem_nil _) hinsides

theorem known_of_draftedFrom {es : List (Expr α)} {es' : List (Expr TypeVar)}
    (h : List.Forall₂ (DraftedFrom proper r g) es es') : g.AllKnown r (es'.map Expr.note) := by
  induction h with
  | nil => exact List.forall_mem_nil _
  | cons he _ ih => exact List.forall_mem_cons.2 ⟨he.known, ih⟩

theorem drafted_of_draftedFrom {es : List (Expr α)} {es' : List (Expr TypeVar)}
    (h : List.Forall₂ (DraftedFrom proper r g) es es') : ∀ e' ∈ es', Drafted proper g e' := by
  induction h with
  | nil => exact List.forall_mem_nil _
  | cons he _ ih => exact List.forall_mem_cons.2 ⟨he.drafted, ih⟩

/-! ### References -/

/-- A name is drafted as a reference; what is assigned to is a local. -/
theorem access_drafted {e : Expr α} (he : e.isDeclaration = false) (path : Path) (span : Span) (assigned : Bool) :
    Stays r frames K (access context path span assigned) fun g e' =>
      DraftedFrom proper r g e e' ∧ (assigned = true → e'.isPlace = true) := by
  have hsymbol {K : Drafting → Prop} : Stays r frames K (accessSymbol context path span assigned) fun g e' =>
      DraftedFrom proper r g e e' ∧ (assigned = true → e'.isPlace = true) := by
    unfold accessSymbol
    split
    · exact .throw
    · split <;> split
      · exact .throw_bind
      · rename_i hassigned
        exact .bind fresh_stays fun _ => .skip (useVariable_stays fun _ ht => ht.1) fun _ => .pure fun _ ht =>
          ⟨.of_leaf ht.1 he.symm trivial rfl rfl rfl, fun h => (hassigned h).elim⟩
      · exact .throw_bind
      · rename_i hassigned
        exact .bind freshFor_stays fun args => .bind fresh_stays fun returns => .bind fresh_stays fun type =>
          .skip (emit_signature_stays (fun _ ht => ht.1) (fun _ ht => ht.2.2.1) fun _ ht => ht.2.1) fun _ =>
            .skip (useProcedure_stays fun _ ht => List.forall_mem_cons.2 ⟨ht.2.1, ht.2.2.1⟩) fun _ =>
              .pure fun _ ht => ⟨.of_leaf ht.1 he.symm trivial rfl rfl rfl, fun h => (hassigned h).elim⟩
  unfold access
  split
  · refine .bind accessLocal_stays fun found => ?_
    cases found with
    | some type => exact .pure fun _ ht => ⟨.of_leaf (ht.1 _ rfl) he.symm trivial rfl rfl rfl, fun _ => rfl⟩
    | none => exact hsymbol.imp (fun _ ht => ht.2) (fun _ _ _ h => h) grows_kept
  · exact hsymbol

theorem name_drafted {e : Expr α} (he : e.isDeclaration = false) (path : Path) (span : Span) :
    Stays r frames K (access context path span false) fun g e' => DraftedFrom proper r g e e' :=
  (access_drafted he path span false).imp (fun _ h => h) (fun _ _ _ h => h.1) grows_kept

theorem place_drafted {e : Expr α} (he : e.isDeclaration = false) (path : Path) (span : Span) :
    Stays r frames K (access context path span true) fun g e' => DraftedFrom proper r g e e' ∧ e'.isPlace = true :=
  (access_drafted he path span true).imp (fun _ h => h) (fun _ _ _ h => ⟨h.1, h.2 rfl⟩) grows_kept

/-- A call of a procedure with arguments that are drafted first. -/
theorem invocation_drafted {e : Expr α} {args : List (Expr α)} {x : DraftM (List (Expr TypeVar))}
    (he : e.isDeclaration = false) (path : Path) (span : Span) (hhere : proper → ∀ o ∈ args, o.isDeclaration = false)
    (hx : Stays r frames K x fun g args' => List.Forall₂ (DraftedFrom proper r g) args args') :
    Stays r frames K (x >>= fun args => invocation path args span) fun g e' => DraftedFrom proper r g e e' :=
  .bind hx fun _ => .bind fresh_stays fun _ => .skip
    (useProcedure_stays fun _ ht => List.forall_mem_cons.2 ⟨ht.1, known_of_draftedFrom ht.2.1⟩) fun _ =>
      .pure fun _ ht => .of_value ht.1 he.symm trivial rfl ht.2.1 hhere rfl

theorem expr_isPlace (context : DraftContext) {e : Expr α}
    (h : (∃ m owner name, e = .member m owner name) ∨ ∃ m owner index, e = .element m owner index) :
    Yields (expr context e) fun e' => e'.isPlace = true := by
  rcases h with ⟨m, owner, name, rfl⟩ | ⟨m, owner, index, rfl⟩
  · rw [expr]
    exact .after fun _ => .after fun _ => .after fun _ => .pure rfl
  · rw [expr]
    exact .after fun _ => .after fun _ => .after fun _ => .after fun _ => .after fun _ => .pure rfl

/-! ### The induction -/

mutual

theorem expr_drafted (context : DraftContext) {frames : Nat} {K : Drafting → Prop} :
    (e : Expr α) → (proper → e.tidy = true) →
      Stays r (frames + 1) K (expr context e) fun g e' => DraftedFrom proper r g e e'
  | .literal m value, _ => by
    rw [expr]
    exact .bind typed_stays fun _ => .pure fun _ ht => .of_leaf ht.1 rfl trivial rfl rfl rfl
  | .name m path, _ => by
    rw [expr]
    exact name_drafted rfl _ _
  | .localVar m name, _ => by
    rw [expr]
    exact name_drafted rfl _ _
  | .global m target, _ => by
    rw [expr]
    exact .skip targetPath_stays fun _ => name_drafted rfl _ _
  | .procedure m target, _ => by
    rw [expr]
    exact .skip targetPath_stays fun _ => name_drafted rfl _ _
  | .invoke m target args, h => by
    rw [Expr.tidy, Bool.and_eq_true, Expr.tidyHere_iff, imp_and] at h
    rw [expr]
    exact .skip targetPath_stays fun _ => invocation_drafted rfl _ _ h.1 (exprs_drafted context args h.2)
  | .call m callee args, h => by
    rw [Expr.tidy, Bool.and_eq_true, Bool.and_eq_true, Expr.tidyHere_iff, imp_and, imp_and] at h
    obtain ⟨hhere, hcallee, hargs⟩ := h
    have hdirect {K : Drafting → Prop} (path : Path) : Stays r (frames + 1) K
        (exprs context args >>= fun args => invocation path args m.span)
        fun g e' => DraftedFrom proper r g (.call m callee args) e' :=
      invocation_drafted rfl _ _ (fun ht => (List.forall_mem_cons.1 (hhere ht)).2) (exprs_drafted context args hargs)
    have hvalue {K : Drafting → Prop} : Stays r (frames + 1) K (do
        let callee ← expr context callee
        let args ← exprs context args
        let returns ← fresh
        emit callee.note m.span (.hasSignature (args.map Expr.note) returns)
        return Expr.call ⟨m.span, returns⟩ callee args)
        fun g e' => DraftedFrom proper r g (.call m callee args) e' :=
      .bind (expr_drafted context callee hcallee) fun callee' => .bind (exprs_drafted context args hargs) fun args' =>
        .bind fresh_stays fun returns => .skip (emit_signature_stays (fun _ ht => ht.2.2.1.known)
          (fun _ ht => known_of_draftedFrom ht.2.1) fun _ ht => ht.1) fun _ =>
            .pure fun t ⟨hreturns, hargs, hcallee, _⟩ =>
              .of_value hreturns rfl trivial rfl (.cons hcallee hargs) hhere rfl
    cases callee with
    | name n path =>
      rw [expr]
      refine .skip callsProcedure_stays fun direct => ?_
      cases direct with
      | true => exact hdirect path
      | false => exact hvalue
    | _ => exact hvalue
  | .method m receiver name args, h => by
    rw [Expr.tidy, Bool.and_eq_true, Bool.and_eq_true, Expr.tidyHere_iff, imp_and, imp_and] at h
    obtain ⟨hhere, hreceiver, hargs⟩ := h
    rw [expr]
    exact .bind (expr_drafted context receiver hreceiver) fun receiver' =>
      .bind (exprs_drafted context args hargs) fun args' => .bind fresh_stays fun called =>
        .skip (emit_with_stays (fun _ ht => ht.2.2.1.known) rfl fun _ ht => ht.1) fun _ =>
          .bind fresh_stays fun returns => .skip (emit_signature_stays (fun _ ht => ht.2.1)
            (fun _ ht => List.forall_mem_cons.2 ⟨ht.2.2.2.1.known, known_of_draftedFrom ht.2.2.1⟩)
            fun _ ht => ht.1) fun _ => .pure fun t ⟨hreturns, _, hargs, hreceiver, _⟩ =>
              .of_value hreturns rfl trivial rfl (.cons hreceiver hargs) hhere rfl
  | .closure m params body _, h => by
    rw [Expr.tidy] at h
    rw [expr]
    exact .bind freshFor_stays fun args => .bind fresh_stays fun returns =>
      .bind (inFrame_stays (fun _ ht => known_params ht.1 ht.2.1) (exprs_drafted context body h)) fun body' =>
        .look fun scope => .bind fresh_stays fun type => .skip (emit_signature_stays (fun _ ht => ht.1)
          (fun _ ht => ht.2.2.2.1) fun _ ht => ht.2.2.1) fun _ => .pure fun t ⟨htype, hbody, _⟩ =>
            .of htype rfl rfl (unit_of_value rfl) .nil (fun _ => List.forall_mem_nil _)
              (drafted_of_draftedFrom hbody)
  | .define m name isMutable value, h => by
    rw [Expr.tidy, Bool.and_eq_true, Expr.tidyHere_iff, imp_and] at h
    rw [expr]
    exact .bind (expr_drafted context value h.2) fun value' => .skip (declare_stays fun _ ht => ht.1.known) fun _ =>
      .pure fun t ⟨hvalue, _⟩ => .of hvalue.known rfl trivial (unit_of_declaration rfl) (.cons hvalue .nil) h.1
        (List.forall_mem_nil _)
  | .declare m name isMutable, _ => by
    rw [expr]
    exact .bind fresh_stays fun type => .skip (declare_stays fun _ ht => ht.1) fun _ => .pure fun _ ht =>
      .of ht.1 rfl trivial (unit_of_declaration rfl) .nil (fun _ => List.forall_mem_nil _) (List.forall_mem_nil _)
  | .assign m target value, h => by
    rw [Expr.tidy, Bool.and_eq_true, Bool.and_eq_true, Expr.tidyHere_iff, imp_and, imp_and] at h
    obtain ⟨hhere, htarget, hvalue⟩ := h
    have hassign {K : Drafting → Prop} {x : DraftM (Expr TypeVar)}
        (hx : ∀ {K}, Stays r (frames + 1) K x fun g e' => DraftedFrom proper r g target e' ∧ e'.isPlace = true) :
        Stays r (frames + 1) K (do
          let value ← expr context value
          let target ← x
          emit target.note m.span (.unify value.note)
          return Expr.assign ⟨m.span, ← unit m.span⟩ target value)
          fun g e' => DraftedFrom proper r g (.assign m target value) e' :=
      .bind (expr_drafted context value hvalue) fun value' => .bind hx fun target' =>
        .skip (emit_with_stays (fun _ ht => ht.1.1.known) rfl fun _ ht => ht.2.1.known) fun _ =>
          .bind (unit_stays _) fun v => .pure fun t ⟨hunit, htarget, hvalue, _⟩ =>
            .of hunit.1 rfl htarget.2 (fun _ _ => hunit.2) (.cons htarget.1 (.cons hvalue .nil)) hhere
              (List.forall_mem_nil _)
    have hother {K : Drafting → Prop} : Stays r (frames + 1) K (expr context target) fun g e' =>
        DraftedFrom proper r g target e' := expr_drafted context target htarget
    cases target with
    | name n path => exact hassign (place_drafted rfl _ _)
    | localVar n name => exact hassign (place_drafted rfl _ _)
    | member n owner name => exact hassign (hother.and (expr_isPlace context (.inl ⟨n, owner, name, rfl⟩)))
    | element n owner index => exact hassign (hother.and (expr_isPlace context (.inr ⟨n, owner, index, rfl⟩)))
    | _ => exact hassign .throw
  | .giveBack m value, h => by
    rw [Expr.tidy, Bool.and_eq_true, Expr.tidyHere_iff, imp_and] at h
    rw [expr]
    exact .bind (expr_drafted context value h.2) fun value' => .bind returnType_stays fun returns =>
      .skip (emit_with_stays (fun _ ht => ht.1) rfl fun _ ht => ht.2.1.known) fun _ =>
        .skip alwaysReturns_stays fun _ => .bind (unit_stays _) fun v => .pure fun t ⟨hunit, _, hvalue, _⟩ =>
          .of hunit.1 rfl trivial (fun _ _ => hunit.2) (.cons hvalue .nil) h.1 (List.forall_mem_nil _)
  | .object m members, h => by
    rw [Expr.tidy, Bool.and_eq_true, Expr.tidyHere_iff, imp_and] at h
    rw [expr]
    exact .bind fresh_stays fun type =>
      .bind (namedExprs_drafted context (fun _ ht => ht.1) members h.2) fun members' =>
        .skip (emit_alone_stays (fun _ ht => ht.2.1) rfl) fun _ => .pure fun t ⟨hmembers, htype, _⟩ =>
          .of_value htype rfl trivial rfl hmembers h.1 rfl
  | .array m elements, h => by
    rw [Expr.tidy, Bool.and_eq_true, Expr.tidyHere_iff, imp_and] at h
    rw [expr]
    exact .bind fresh_stays fun type => .bind fresh_stays fun element =>
      .skip (emit_with_stays (fun _ ht => ht.2.1) rfl fun _ ht => ht.1) fun _ =>
        .bind (exprs_drafted context elements h.2) fun elements' =>
          .skip (unifyElements_stays (fun _ ht => ht.2.1) fun _ ht => known_of_draftedFrom ht.1) fun _ =>
            .pure fun t ⟨helements, _, htype, _⟩ => .of_value htype rfl trivial rfl helements h.1 rfl
  | .repeated m value size, h => by
    rw [Expr.tidy, Bool.and_eq_true, Bool.and_eq_true, Expr.tidyHere_iff, imp_and, imp_and] at h
    obtain ⟨hhere, hvalue, hsize⟩ := h
    rw [expr]
    exact .bind (expr_drafted context value hvalue) fun value' => .bind (expr_drafted context size hsize) fun size' =>
      .bind fresh_stays fun type => .skip (emit_with_stays (fun _ ht => ht.1) rfl fun _ ht => ht.2.2.1.known) fun _ =>
        .skip (emit_alone_stays (fun _ ht => ht.2.1.known) rfl) fun _ => .pure fun t ⟨htype, hsize, hvalue, _⟩ =>
          .of_value htype rfl trivial rfl (.cons hvalue (.cons hsize .nil)) hhere rfl
  | .member m owner name, h => by
    rw [Expr.tidy, Bool.and_eq_true, Expr.tidyHere_iff, imp_and] at h
    rw [expr]
    exact .bind (expr_drafted context owner h.2) fun owner' => .bind fresh_stays fun type =>
      .skip (emit_with_stays (fun _ ht => ht.2.1.known) rfl fun _ ht => ht.1) fun _ => .pure fun t ⟨htype, howner, _⟩ =>
        .of_value htype rfl trivial rfl (.cons howner .nil) h.1 rfl
  | .element m owner index, h => by
    rw [Expr.tidy, Bool.and_eq_true, Bool.and_eq_true, Expr.tidyHere_iff, imp_and, imp_and] at h
    obtain ⟨hhere, howner, hindex⟩ := h
    rw [expr]
    exact .bind (expr_drafted context owner howner) fun owner' =>
      .bind (expr_drafted context index hindex) fun index' => .bind fresh_stays fun type =>
        .skip (emit_with_stays (fun _ ht => ht.2.2.1.known) rfl fun _ ht => ht.1) fun _ =>
          .skip (emit_alone_stays (fun _ ht => ht.2.1.known) rfl) fun _ => .pure fun t ⟨htype, hindex, howner, _⟩ =>
            .of_value htype rfl trivial rfl (.cons howner (.cons hindex .nil)) hhere rfl
  | .binary m op left right, h => by
    rw [Expr.tidy, Bool.and_eq_true, Bool.and_eq_true, Expr.tidyHere_iff, imp_and, imp_and] at h
    obtain ⟨hhere, hleft, hright⟩ := h
    rw [expr]
    exact .bind (expr_drafted context left hleft) fun left' => .bind (expr_drafted context right hright) fun right' =>
      .bind (binaryType_stays (fun _ ht => ht.2.1.known) fun _ ht => ht.1.known) fun type =>
        .pure fun t ⟨htype, hright, hleft, _⟩ =>
          .of_value htype rfl trivial rfl (.cons hleft (.cons hright .nil)) hhere rfl
  | .unary m op operand, h => by
    rw [Expr.tidy, Bool.and_eq_true, Expr.tidyHere_iff, imp_and] at h
    rw [expr]
    refine .bind (expr_drafted context operand h.2) fun operand' => ?_
    cases op with
    | negate =>
      exact .skip (emit_alone_stays (fun _ ht => ht.1.known) rfl) fun _ => .pure fun t ⟨hoperand, _⟩ =>
        .of_value hoperand.known rfl trivial rfl (.cons hoperand .nil) h.1 rfl
    | not =>
      exact .skip (emit_alone_stays (fun _ ht => ht.1.known) rfl) fun _ => .pure fun t ⟨hoperand, _⟩ =>
        .of_value hoperand.known rfl trivial rfl (.cons hoperand .nil) h.1 rfl
  | .variant m name payload, h => by
    rw [Expr.tidy, Bool.and_eq_true, Expr.tidyHere_iff, imp_and] at h
    rw [expr]
    exact .bind (expr_drafted context payload h.2) fun payload' => .bind fresh_stays fun type =>
      .skip (emit_with_stays (fun _ ht => ht.1) rfl fun _ ht => ht.2.1.known) fun _ =>
        .pure fun t ⟨htype, hpayload, _⟩ => .of_value htype rfl trivial rfl (.cons hpayload .nil) h.1 rfl
  | .unwrap m value name, h => by
    rw [Expr.tidy, Bool.and_eq_true, Expr.tidyHere_iff, imp_and] at h
    rw [expr]
    exact .bind (expr_drafted context value h.2) fun value' => .bind fresh_stays fun type =>
      .skip (emit_with_stays (fun _ ht => ht.2.1.known) rfl fun _ ht => ht.1) fun _ =>
        .bind returnType_stays fun returns =>
          .skip (emit_with_stays (fun _ ht => ht.1) rfl fun _ ht => ht.2.2.1.known) fun _ =>
            .pure fun t ⟨_, htype, hvalue, _⟩ => .of_value htype rfl trivial rfl (.cons hvalue .nil) h.1 rfl
  | .constant m value, h => by
    rw [Expr.tidy] at h
    rw [expr]
    exact .bind (isolated_stays (expr_drafted context value h)) fun value' => .pure fun t ⟨hvalue, _⟩ =>
      .of hvalue.known rfl trivial (unit_of_value rfl) .nil (fun _ => List.forall_mem_nil _)
        (List.forall_mem_singleton.2 hvalue.drafted)
  | .ifElse m condition yes no, h => by
    rw [Expr.tidy, Bool.and_eq_true, Bool.and_eq_true, Bool.and_eq_true, Expr.tidyHere_iff, imp_and, imp_and,
      imp_and] at h
    obtain ⟨hhere, hcondition, hyes, hno⟩ := h
    rw [expr]
    exact .bind (expr_drafted context condition hcondition) fun condition' =>
      .skip (emit_alone_stays (fun _ ht => ht.1.known) rfl) fun _ =>
        .bind (inBlock_empty_stays (exprs_drafted context yes hyes)) fun yes' =>
          .bind (inBlock_empty_stays (exprs_drafted context no hno)) fun no' => .skip joinArms_stays fun _ =>
            .bind (unit_stays _) fun v => .pure fun t ⟨hunit, hno, hyes, hcondition, _⟩ =>
              .of hunit.1 rfl trivial (fun _ _ => hunit.2) (.cons hcondition .nil) hhere
                (List.forall_mem_append.2 ⟨drafted_of_draftedFrom hyes, drafted_of_draftedFrom hno⟩)
  | .matchValue m value arms otherwise, h => by
    rw [Expr.tidy, Bool.and_eq_true, Bool.and_eq_true, Bool.and_eq_true, Expr.tidyHere_iff, imp_and, imp_and,
      imp_and] at h
    obtain ⟨hhere, hvalue, harms, hotherwise⟩ := h
    rw [expr]
    refine .bind (expr_drafted context value hvalue) fun value' =>
      .bind (armValues_drafted context (fun _ ht => ht.1.known) arms harms) fun values' =>
        .bind (armBodies_drafted context arms harms) fun bodies' =>
          .bind (inBlock_empty_stays (exprs_drafted context otherwise hotherwise)) fun otherwise' =>
            .skip joinArms_stays fun _ => .bind (unit_stays _) fun v =>
              .pure fun t ⟨hunit, hotherwise, hbodies, hvalues, hvalue, _⟩ => ?_
    refine .of hunit.1 rfl trivial (fun _ _ => hunit.2) (.cons hvalue .nil) hhere (List.forall_mem_append.2 ⟨?_,
      List.forall_mem_append.2 ⟨?_, drafted_of_draftedFrom hotherwise⟩⟩)
    · exact List.forall_mem_map.2 fun arm harm => hvalues _ (List.of_mem_zip harm).1
    · intro o ho
      obtain ⟨arm, harm, ho⟩ := List.mem_flatMap.1 ho
      obtain ⟨body, hbody, heq⟩ := List.mem_map.1 (List.of_mem_zip harm).2
      exact hbodies body hbody o (heq ▸ ho)
  | .matchVariant m value arms (some otherwise), h => by
    rw [Expr.tidy, Bool.and_eq_true, Bool.and_eq_true, Bool.and_eq_true, Expr.tidyHere_iff, imp_and, imp_and,
      imp_and] at h
    obtain ⟨hhere, hvalue, harms, hotherwise⟩ := h
    rw [expr]
    exact .bind (expr_drafted context value hvalue) fun value' =>
      .bind (variantArms_drafted context (fun _ ht => ht.1.known) m.span arms harms) fun arms' =>
        .bind (inBlock_empty_stays (exprs_drafted context otherwise hotherwise)) fun otherwise' =>
          .skip joinArms_stays fun _ => .bind (unit_stays _) fun v =>
            .pure fun t ⟨hunit, hotherwise, harms, hvalue, _⟩ =>
              .of hunit.1 rfl trivial (fun _ _ => hunit.2) (.cons hvalue .nil) hhere
                (List.forall_mem_append.2 ⟨harms, drafted_of_draftedFrom hotherwise⟩)
  | .matchVariant m value arms none, h => by
    rw [Expr.tidy, Bool.and_eq_true, Bool.and_eq_true, Expr.tidyHere_iff, imp_and, imp_and] at h
    obtain ⟨hhere, hvalue, harms⟩ := h
    rw [expr]
    exact .bind (expr_drafted context value hvalue) fun value' =>
      .bind (variantArms_drafted context (fun _ ht => ht.1.known) m.span arms harms) fun arms' =>
        .skip (emit_alone_stays (fun _ ht => ht.2.1.known) rfl) fun _ => .skip joinArms_stays fun _ =>
          .bind (unit_stays _) fun v => .pure fun t ⟨hunit, harms, hvalue, _⟩ =>
            .of hunit.1 rfl trivial (fun _ _ => hunit.2) (.cons hvalue .nil) hhere
              (List.forall_mem_append.2 ⟨harms, List.forall_mem_nil _⟩)

theorem exprs_drafted (context : DraftContext) {frames : Nat} {K : Drafting → Prop} :
    (es : List (Expr α)) → (proper → Expr.tidies es = true) →
      Stays r (frames + 1) K (exprs context es) fun g es' => List.Forall₂ (DraftedFrom proper r g) es es'
  | [], _ => by
    rw [exprs]
    exact .pure fun _ _ => .nil
  | e :: rest, h => by
    rw [Expr.tidies, Bool.and_eq_true, imp_and] at h
    rw [exprs]
    exact .bind (expr_drafted context e h.1) fun e' => .bind (exprs_drafted context rest h.2) fun rest' =>
      .pure fun t ⟨hrest, he, _⟩ => .cons he hrest

theorem namedExprs_drafted (context : DraftContext) {object : TypeVar} {frames : Nat} {K : Drafting → Prop}
    (hobject : ∀ t, K t → t.graph.Known r object) :
    (es : List (String × Expr α)) → (proper → Expr.tidyMembers es = true) →
      Stays r (frames + 1) K (namedExprs context object es) fun g es' =>
        List.Forall₂ (DraftedFrom proper r g) (es.map (·.2)) (es'.map (·.2))
  | [], _ => by
    rw [namedExprs]
    exact .pure fun _ _ => .nil
  | (name, e) :: rest, h => by
    rw [Expr.tidyMembers, Bool.and_eq_true, imp_and] at h
    rw [namedExprs]
    exact .bind (expr_drafted context e h.1) fun e' =>
      .skip (emit_with_stays (fun t ht => hobject t ht.2) rfl fun _ ht => ht.1.known) fun _ =>
        .bind (namedExprs_drafted context (fun t ht => hobject t ht.2) rest h.2) fun rest' =>
          .pure fun t ⟨hrest, he, _⟩ => .cons he hrest

theorem armValues_drafted (context : DraftContext) {value : TypeVar} {frames : Nat} {K : Drafting → Prop}
    (hvalue : ∀ t, K t → t.graph.Known r value) :
    (arms : List (Expr α × List (Expr α))) → (proper → Expr.tidyValueArms arms = true) →
      Stays r (frames + 1) K (armValues context value arms) fun g values => ∀ e ∈ values, Drafted proper g e
  | [], _ => by
    rw [armValues]
    exact .pure fun _ _ => List.forall_mem_nil _
  | (e, _) :: rest, h => by
    rw [Expr.tidyValueArms, Bool.and_eq_true, Bool.and_eq_true, imp_and, imp_and] at h
    rw [armValues]
    exact .bind (isolated_stays (expr_drafted context e h.1)) fun e' =>
      .skip (emit_with_stays (fun t ht => hvalue t ht.2) rfl fun _ ht => ht.1.known) fun _ =>
        .bind (armValues_drafted context (fun t ht => hvalue t ht.2) rest h.2.2) fun rest' =>
          .pure fun t ⟨hrest, he, _⟩ => List.forall_mem_cons.2 ⟨he.drafted, hrest⟩

theorem armBodies_drafted (context : DraftContext) {frames : Nat} {K : Drafting → Prop} :
    (arms : List (Expr α × List (Expr α))) → (proper → Expr.tidyValueArms arms = true) →
      Stays r (frames + 1) K (armBodies context arms) fun g bodies =>
        ∀ body ∈ bodies, ∀ e ∈ body.1, Drafted proper g e
  | [], _ => by
    rw [armBodies]
    exact .pure fun _ _ => List.forall_mem_nil _
  | (_, body) :: rest, h => by
    rw [Expr.tidyValueArms, Bool.and_eq_true, Bool.and_eq_true, imp_and, imp_and] at h
    rw [armBodies]
    exact .bind (inBlock_empty_stays (exprs_drafted context body h.2.1)) fun body' =>
      .bind (armBodies_drafted context rest h.2.2) fun rest' =>
        .pure fun t ⟨hrest, hbody, _⟩ => List.forall_mem_cons.2 ⟨drafted_of_draftedFrom hbody, hrest⟩

theorem variantArms_drafted (context : DraftContext) {value : TypeVar} {frames : Nat} {K : Drafting → Prop}
    (hvalue : ∀ t, K t → t.graph.Known r value) (span : Span) :
    (arms : List (VariantArm α (List (Expr α)))) → (proper → Expr.tidyVariantArms arms = true) →
      Stays r (frames + 1) K (variantArms context value span arms) fun g arms' =>
        ∀ e ∈ (arms'.map (·.1)).flatMap (·.body), Drafted proper g e
  | [], _ => by
    rw [variantArms]
    exact .pure fun _ _ => List.forall_mem_nil _
  | ⟨variant, binding, _, body⟩ :: rest, h => by
    rw [Expr.tidyVariantArms, Bool.and_eq_true, imp_and] at h
    rw [variantArms]
    refine .bind fresh_stays fun payload => .skip (emit_with_stays (fun t ht => hvalue t ht.2) rfl fun _ ht => ht.1)
      fun _ => .bind (inBlock_stays (fun _ ht => ?_) (exprs_drafted context body h.1)) fun body' =>
        .bind (variantArms_drafted context (fun t ht => hvalue t ht.2.2) span rest h.2) fun rest' =>
          .pure fun t ⟨hrest, hbody, _⟩ => List.forall_mem_append.2 ⟨drafted_of_draftedFrom hbody, hrest⟩
    cases binding with
    | none => exact List.forall_mem_nil _
    | some name => exact List.forall_mem_singleton.2 ht.1

end

end DraftM

/-! ### Drafts -/

namespace Draft

variable {context : DraftContext} {params : List String} {body : List (Expr Unit)} {value : Expr Unit} {span : Span}
  {g g' : TypeGraph} {d : Draft}

theorem ofProcedure_drafted (h : ofProcedure context params body span g = (.ok d, g')) :
    d.Regional g' g.future ∧ ∀ e ∈ d.body, DraftM.Drafted (Expr.tidies body = true) g' e :=
  run_stays (P := fun g a => ∀ e ∈ a.2.2, DraftM.Drafted (Expr.tidies body = true) g e)
    (.bind DraftM.freshFor_stays fun _ => .bind DraftM.fresh_stays fun _ =>
      .bind (DraftM.inFrame_stays (fun _ ht => DraftM.known_params ht.1 ht.2.1) (DraftM.exprs_drafted context body id))
        fun _ => .pure fun _ ⟨hbody, hreturns, hargs, _⟩ =>
          ⟨List.forall_mem_cons.2 ⟨hreturns, hargs⟩, DraftM.drafted_of_draftedFrom hbody⟩) h

theorem ofVariable_drafted (h : ofVariable context value g = (.ok d, g')) :
    d.Regional g' g.future ∧ ∀ e ∈ d.body, DraftM.Drafted (value.tidy = true) g' e :=
  run_stays (P := fun g a => ∀ e ∈ a.2.2, DraftM.Drafted (value.tidy = true) g e)
    (.bind (DraftM.isolated_stays (DraftM.expr_drafted context value id)) fun _ => .pure fun _ ⟨hvalue, _⟩ =>
      ⟨List.forall_mem_singleton.2 hvalue.known, List.forall_mem_singleton.2 hvalue.drafted⟩) h

/-- The constraints of a procedure's draft are about its own variables. -/
theorem ofProcedure_regional (h : ofProcedure context params body span g = (.ok d, g')) : d.Regional g' g.future :=
  (ofProcedure_drafted h).1

/-- The constraints of a module variable's draft are about its own variables. -/
theorem ofVariable_regional (h : ofVariable context value g = (.ok d, g')) : d.Regional g' g.future :=
  (ofVariable_drafted h).1

theorem ofProcedure_formed (h : ofProcedure context params body span g = (.ok d, g')) :
    DraftM.NodesFormed g' (Expr.nodesOf · d.body) := fun p n hn => by
  obtain ⟨e, he, q, hn⟩ := Expr.mem_nodesOf hn
  exact ((ofProcedure_drafted h).2 e he q n hn).formed

theorem ofVariable_formed (h : ofVariable context value g = (.ok d, g')) :
    DraftM.NodesFormed g' (Expr.nodesOf · d.body) := fun p n hn => by
  obtain ⟨e, he, q, hn⟩ := Expr.mem_nodesOf hn
  exact ((ofVariable_drafted h).2 e he q n hn).formed

/-- In the body of a procedure all operands are used as values. -/
theorem ofProcedure_proper (hbody : Expr.tidies body = true) (h : ofProcedure context params body span g = (.ok d, g'))
    (p : Place) : Expr.Proper g' (Expr.nodesOf p d.body) := fun n hn => by
  obtain ⟨e, he, q, hn⟩ := Expr.mem_nodesOf hn
  exact ((ofProcedure_drafted h).2 e he q n hn).operands hbody

end Draft
end Monomorph
