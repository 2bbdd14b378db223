import Monomorph.Proofs.Code.Watching

/-! # Lowering beside the scopes of drafting

While a body is drafted, a local is in scope from its declaration to the end of the block around, and the right
operand of `and` or `or` is no block. Lowering goes by the names that are visible, and for it every right operand is a
block. Here lowering runs on a state that keeps the scopes of drafting beside the visible names: the locals of the body
around, each with the slot that it was given when it was declared. Whenever a local is looked up, what the scope says
and what lowering finds is noted (`Access`).

Apart from what is noted this is lowering itself (`ScopedM.exists_lowerBody`). -/

namespace Monomorph

open Outcome

/-- A local is looked up: it is read, assigned or captured. -/
structure Access where
  name : String
  /-- The slot of the local that the name means, if it is a local of the body around. -/
  slot : Option Nat
  /-- The version that lowering finds. If it finds none, it reads or writes the local by its name. -/
  version : Option Version
  /-- What the closure around captures; a procedure captures nothing. -/
  captures : List String
  deriving DecidableEq

/-- The scope of a body. -/
structure Scoping where
  /-- The locals that are in scope, the latest first, with their slots. -/
  own : List (String × Nat)
  captures : List String
  /-- What was looked up, the latest first. -/
  accesses : List Access

structure Scoped where
  now : Lowering
  scope : Scoping

abbrev ScopedM := LowerOn Scoped

namespace ScopedM

variable {α : Type}

/-- Do an operation that leaves the scope as it is. -/
def lift (x : LowerM α) : ScopedM α := fun t =>
  match x t.now with
  | .ok a s => .ok a ⟨s, t.scope⟩
  | .error e s => .error e ⟨s, t.scope⟩

def changeScope (f : Scoping → Scoping) : ScopedM Unit := modify fun t => ⟨t.now, f t.scope⟩

/-- Change the scope in the end. -/
def thenScope (x : ScopedM α) (f : α → Scoping → Scoping) : ScopedM α := do
  let a ← x
  changeScope (f a)
  return a

def find (name : String) : ScopedM (Option Version) :=
  thenScope (lift (LowerState.find name)) fun v scope =>
    { scope with accesses := ⟨name, scope.own.lookup name, v, scope.captures⟩ :: scope.accesses }

/-- Declare a local that lives in the slot of a version. -/
def declare (name : String) (v : Version) : ScopedM Unit :=
  thenScope (lift (LowerState.declare name v)) fun _ scope => { scope with own := (name, v.slot) :: scope.own }

/-- At the end of an arm its locals go out of scope. -/
def inArm (x : ScopedM α) : ScopedM α := do
  let t ← get
  thenScope x fun _ scope => { scope with own := t.scope.own }

def inClosure (captures : List String) (x : ScopedM α) : ScopedM α := do
  let t ← get
  changeScope fun scope => { scope with own := [], captures }
  thenScope x fun _ scope => { scope with own := t.scope.own, captures := t.scope.captures }

end ScopedM

instance : LowerState Scoped := ⟨ScopedM.lift, ScopedM.find, ScopedM.declare, ScopedM.inArm, ScopedM.inClosure⟩

namespace ScopedM

variable {α : Type} {x : ScopedM α} {y : LowerM α}

/-- Lower the body of a procedure: its slots, its code and what was looked up, the latest first. -/
def lowerBody (context : LowerContext) (params : List String) (args : List TypeVar) (body : List (Expr TypeVar)) :
    LowerM ((Array Slot × List Instr) × List Access) := fun s =>
  match LowerM.inBody params args (LowerM.exprs context body) (⟨s, [], [], []⟩ : Scoped) with
  | .ok lowered t => .ok (lowered, t.scope.accesses) t.now
  | .error e t => .error e t.now

/-! ### Without what is noted -/

/-- With some scope beside it, the state of lowering is this. -/
abbrev Erases (t : Scoped) (s : Lowering) : Prop := t.now = s

theorem lift_erases (y : LowerM α) : Parallel Erases Erases Eq (lift y) y where
  run {t _} h := by
    obtain rfl := h
    unfold lift
    cases y t.now with
    | ok a s' => exact .ok rfl rfl
    | error e s' => exact .error rfl

/-- Changing the scope leaves nothing behind. -/
theorem changeScope_erases (f : Scoping → Scoping) (h : Parallel Erases Erases Eq x y) :
    Parallel Erases Erases Eq (changeScope f >>= fun _ => x) y :=
  ⟨fun {t _} hst => h.run (s := ⟨t.now, f t.scope⟩) hst⟩

theorem thenScope_erases (f : α → Scoping → Scoping) (h : Parallel Erases Erases Eq x y) :
    Parallel Erases Erases Eq (thenScope x f) y := by
  have hrun := h.bind_eq fun a => changeScope_erases (f a) (.pure (rfl : a = a))
  rwa [bind_pure] at hrun

theorem find_erases (name : String) : Parallel Erases Erases Eq (find name) (LowerState.find name) :=
  thenScope_erases _ (lift_erases _)

theorem declare_erases (name : String) (v : Version) :
    Parallel Erases Erases Eq (declare name v) (LowerState.declare name v) :=
  thenScope_erases _ (lift_erases _)

theorem inArm_erases (h : Parallel Erases Erases Eq x y) : Parallel Erases Erases Eq (inArm x) y :=
  ⟨fun {t _} hst => (thenScope_erases (fun _ scope => { scope with own := t.scope.own }) h).run hst⟩

theorem inClosure_erases (captures : List String) (h : Parallel Erases Erases Eq x y) :
    Parallel Erases Erases Eq (inClosure captures x) y :=
  ⟨fun {t _} hst => (changeScope_erases (fun scope => { scope with own := [], captures })
    (thenScope_erases (fun _ scope => { scope with own := t.scope.own, captures := t.scope.captures }) h)).run hst⟩

theorem compares_erases : LowerState.Compares (.parallel Erases Erases) where
  lift := lift_erases
  throw e := .throw e
  find := find_erases
  declare := declare_erases
  inArm := inArm_erases
  inClosure captures _ _ h := inClosure_erases captures h

/-- Whatever a body is lowered to, it is lowered to beside its scope. -/
theorem exists_lowerBody {context : LowerContext} {params : List String} {args : List TypeVar}
    {body : List (Expr TypeVar)} {s s' : Lowering} {lowered : Array Slot × List Instr}
    (h : LowerM.inBody params args (LowerM.exprs context body) s = .ok lowered s') :
    ∃ accesses, lowerBody context params args body s = .ok (lowered, accesses) s' := by
  have hsame := LowerM.inBody_compares compares_erases params args (LowerM.exprs_compares compares_erases context body)
  have hmatched := hsame.run (s := ⟨s, [], [], []⟩) (t := s) rfl
  unfold lowerBody
  rw [h] at hmatched
  revert hmatched
  generalize LowerM.inBody params args (LowerM.exprs context body) (⟨s, [], [], []⟩ : Scoped) = r
  rintro (⟨rfl, rfl⟩ | _)
  exact ⟨_, rfl⟩

end ScopedM
end Monomorph
