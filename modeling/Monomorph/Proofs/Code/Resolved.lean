import Mathlib
import Monomorph.Proofs.Code.Pipeline
import Monomorph.Proofs.Code.Scoped
import Monomorph.Proofs.Solve.Covered

/-! # Lowering finds the locals that drafting means

Lowering is run beside the scopes of drafting (`ScopedM`). As long as no right operand of `and` or `or` declares a
local, a name is visible exactly if it is in scope, and then it stands for a version of the slot that the local was
given when it was declared (`Scoping.Follows`). So every local of the body around is found in its own slot. What is
not found is a local that the closure around captures, because captures are what is free in a closure; hence code reads
and writes by name only what it captures (`Instr.Confined`), and that of a procedure nothing.

`Program.check_lower_resolves` says this of the procedures of a program that was checked. -/

namespace Monomorph

open Outcome

/-! ### What is to be shown -/

/-- The local that an operation reads or writes by its name. -/
def Op.captured? : Op → Option String
  | .readCapture n | .writeCapture n => some n
  | _ => none

/-- Only the locals with these names are read or written by name, and in a closure only those that it captures. -/
inductive Instr.Confined : List String → Instr → Prop
  | op {names : List String} {op : Op} {args : List Version} {dest : Option Version}
    (h : ∀ n ∈ op.captured?, n ∈ names) : Confined names (.op op args dest)
  | closure {names : List String} {args : List TypeVar} {returns : TypeVar} {captures : List (String × Version)}
    {slots : Array Slot} {body : List Instr} {dest : Version}
    (h : ∀ i ∈ body, Confined (captures.map (·.1)) i) :
    Confined names (.closure args returns captures slots body dest)
  | branchValue {names : List String} {v : Version} {arms : List (Nat × List Instr)} {last : List Instr}
    (harms : ∀ arm ∈ arms, ∀ i ∈ arm.2, Confined names i) (hlast : ∀ i ∈ last, Confined names i) :
    Confined names (.branchValue v arms last)
  | branchVariant {names : List String} {v : Version} {arms : List (CodeArm (List Instr))} {last : List Instr}
    (harms : ∀ arm ∈ arms, ∀ i ∈ arm.body, Confined names i) (hlast : ∀ i ∈ last, Confined names i) :
    Confined names (.branchVariant v arms last)

theorem Op.forall_captured_of_none {op : Op} (hop : op.captured? = none) (names : List String) :
    ∀ n ∈ op.captured?, n ∈ names := by
  intro n hn
  rw [hop] at hn
  cases hn

/-- An operation that reads and writes nothing by name is confined anywhere. -/
theorem Instr.Confined.nameless {names : List String} {op : Op} {args : List Version} {dest : Option Version}
    (hop : op.captured? = none) : Confined names (.op op args dest) :=
  .op (Op.forall_captured_of_none hop names)

/-- The local is found in its own slot if it is one of the body around; else it is captured, and reached by name. -/
structure Access.Resolved (a : Access) : Prop where
  slot : a.version.map Version.slot = a.slot
  captured : a.version = none → a.name ∈ a.captures

namespace Act

mutual

/-- A right operand of `and` or `or` declares a local. -/
def declaresAside : Act → Bool
  | .perhaps right => !(declaredAll right).isEmpty || declaresAsideAll right
  | .branch arms => declaresAsideArms arms
  | .closure _ _ body => declaresAsideAll body
  | .read .. | .assign .. | .declare .. | .giveBack | .unwrap | .apart _ => false

/-- Among acts in order a right operand declares a local. -/
def declaresAsideAll : List Act → Bool
  | [] => false
  | a :: rest => declaresAside a || declaresAsideAll rest

/-- In one of the arms a right operand declares a local. -/
def declaresAsideArms : List (List Act) → Bool
  | [] => false
  | arm :: rest => declaresAsideAll arm || declaresAsideArms rest

end

theorem declaresAsideAll_append (as bs : List Act) :
    declaresAsideAll (as ++ bs) = (declaresAsideAll as || declaresAsideAll bs) := by
  induction as with
  | nil => simp [declaresAsideAll]
  | cons a as ih => simp [declaresAsideAll, ih, Bool.or_assoc]

theorem declaresAsideAll_ofBody (params : List String) (args : List TypeVar) (body : List (Expr TypeVar)) :
    declaresAsideAll (ofBody params args body) = declaresAsideAll (Expr.actsOf body) := by
  have hparams : declaresAsideAll ((params.zip args).map bind) = false := by
    induction params.zip args with
    | nil => rfl
    | cons param params ih => exact ih
  rw [ofBody, declaresAsideAll_append, hparams, Bool.false_or]

/-- Where the locals `own` of the body around are in scope and the others are those captured, all acts are about
locals that there are, closures capture what is free in them, and right operands declare nothing. -/
structure Closed (captured : List String) (own : List (String × Nat)) (acts : List Act) : Prop where
  free : ∀ u ∈ freeAll (own.map (·.1)) acts, u.name ∈ captured
  covered : coveredAll acts
  kept : declaresAsideAll acts = false

/-- The locals in scope after the acts: one more for each that is declared. -/
def Declares (acts : List Act) (own own' : List (String × Nat)) : Prop :=
  ∃ added, own' = added ++ own ∧ added.map (·.1) = (declaredAll acts).map (·.1)

variable {captured : List String} {own own₁ own' : List (String × Nat)} {as bs : List Act} {arms : List (List Act)}

/-- Acts that declare nothing leave the scope as it is. -/
theorem Declares.of_nil (has : declaredAll as = []) (own : List (String × Nat)) : Declares as own own :=
  ⟨[], rfl, by rw [has]; rfl⟩

theorem Declares.trans (h : Declares as own own₁) (h' : Declares bs own₁ own') : Declares (as ++ bs) own own' := by
  obtain ⟨added, rfl, hadded⟩ := h
  obtain ⟨added', rfl, hadded'⟩ := h'
  exact ⟨added' ++ added, (List.append_assoc ..).symm, by
    rw [List.map_append, hadded, hadded', declaredAll_append, List.map_append]⟩

theorem Declares.eq (h : Declares as own own') (has : declaredAll as = []) : own' = own := by
  obtain ⟨added, rfl, hadded⟩ := h
  rw [has, List.map_nil, List.map_eq_nil_iff] at hadded
  rw [hadded, List.nil_append]

namespace Closed

theorem append (h : Closed captured own (as ++ bs)) :
    Closed captured own as ∧ ∀ {own₁}, Declares as own own₁ → Closed captured own₁ bs := by
  obtain ⟨hfree, hcovered, hkept⟩ := h
  rw [freeAll_append] at hfree
  obtain ⟨hcas, hcbs⟩ := coveredAll_append.1 hcovered
  rw [declaresAsideAll_append, Bool.or_eq_false_iff] at hkept
  obtain ⟨hfas, hfbs⟩ := List.forall_mem_append.1 hfree
  refine ⟨⟨hfas, hcas, hkept.1⟩, fun {own₁} hdeclares => ⟨?_, hcbs, hkept.2⟩⟩
  obtain ⟨added, rfl, hadded⟩ := hdeclares
  rwa [List.map_append, hadded]

theorem read {n : String} {type : TypeVar} (h : Closed captured own [.read n type]) :
    n ∉ own.map (·.1) → n ∈ captured := fun hn =>
  h.free ⟨n, type, false⟩ (by simp [freeAll, Act.free, hn])

theorem assign {n : String} {type : TypeVar} (h : Closed captured own [.assign n type]) :
    n ∉ own.map (·.1) → n ∈ captured := fun hn =>
  h.free ⟨n, type, true⟩ (by simp [freeAll, Act.free, hn])

theorem perhaps (h : Closed captured own [.perhaps as]) : Closed captured own as := by
  obtain ⟨hfree, ⟨hcovered, -⟩, hkept⟩ := h
  simp only [freeAll, Act.free, List.append_nil] at hfree
  simp only [declaresAsideAll, declaresAside, Bool.or_false, Bool.or_eq_false_iff] at hkept
  exact ⟨hfree, hcovered, hkept.2⟩

theorem declared_perhaps (h : Closed captured own (as ++ [.perhaps bs])) : declaredAll bs = [] := by
  have hkept := h.kept
  simp only [declaresAsideAll_append, declaresAsideAll, declaresAside, Bool.or_false, Bool.or_eq_false_iff,
    Bool.not_eq_false'] at hkept
  exact List.isEmpty_iff.1 hkept.2.1

theorem branch (h : Closed captured own [.branch arms]) : ∀ arm ∈ arms, Closed captured own arm := by
  obtain ⟨hfree, ⟨hcovered, -⟩, hkept⟩ := h
  simp only [freeAll, Act.free, List.append_nil] at hfree
  simp only [declaresAsideAll, declaresAside, Bool.or_false] at hkept
  change coveredArms arms at hcovered
  induction arms with
  | nil => exact nofun
  | cons arm arms ih =>
    rw [freeArms, List.forall_mem_append] at hfree
    rw [declaresAsideArms, Bool.or_eq_false_iff] at hkept
    exact List.forall_mem_cons.2 ⟨⟨hfree.1, hcovered.1, hkept.1⟩, ih hfree.2 hkept.2 hcovered.2⟩

/-- In a closure its own captures are those that matter; what it captures is a local around it or captured there. -/
theorem closure {returns : TypeVar} {captures : Row TypeVar} (h : Closed captured own [.closure returns captures as]) :
    Closed captures.names [] as ∧ ∀ n ∈ captures.names, n ∉ own.map (·.1) → n ∈ captured := by
  obtain ⟨hfree, ⟨⟨hnames, hcovered⟩, -⟩, hkept⟩ := h
  simp only [freeAll, Act.free, List.append_nil] at hfree
  simp only [declaresAsideAll, declaresAside, Bool.or_false] at hkept
  refine ⟨⟨fun u hu => (hnames u.name).2 ⟨u, hu, rfl⟩, hcovered, hkept⟩, fun n hn hown => ?_⟩
  obtain ⟨u, hu, rfl⟩ := (hnames n).1 hn
  refine hfree u ?_
  rw [← List.append_nil (own.map (·.1)), mem_freeAll_append]
  exact ⟨hu, hown⟩

end Closed
end Act

/-! ### Operations that concern no local -/

namespace LowerM

/-- From one state to the other, visible names stay as they are and what is emitted is confined. -/
structure Stays (captured : List String) (s s' : Lowering) : Prop where
  names : s'.names = s.names
  confined : (∀ i ∈ s.code.toList, i.Confined captured) → ∀ i ∈ s'.code.toList, i.Confined captured

variable {captured : List String}

theorem change_stays {f : Lowering → Lowering} (h : ∀ s, Stays captured s (f s)) :
    Keeps (Stays captured) (LowerState.lift (modify f) : LowerM Unit) :=
  keeps_modify h

theorem emit_stays {i : Instr} (hi : i.Confined captured) : Keeps (Stays captured) (emit i) :=
  change_stays fun s => ⟨rfl, fun hs j hj => by
    rw [Array.toList_push, List.mem_append, List.mem_singleton] at hj
    rcases hj with hj | rfl
    · exact hs j hj
    · exact hi⟩

theorem newSlot_stays (type : TypeVar) (isArgument : Bool) : Keeps (Stays captured) (newSlot type isArgument) :=
  fun _ => ⟨fun h => by
    obtain ⟨-, rfl⟩ := newSlot_eq_ok_iff.1 h
    exact ⟨rfl, id⟩, nofun⟩

theorem nextVersion_stays (v : Version) : Keeps (Stays captured) (nextVersion v) :=
  fun _ => ⟨fun h => by
    obtain ⟨-, rfl⟩ := nextVersion_eq_ok_iff.1 h
    exact ⟨rfl, id⟩, nofun⟩

theorem addConstant_stays (c : Constant) : Keeps (Stays captured) (addConstant c) :=
  fun _ => ⟨fun h => by
    obtain ⟨-, rfl⟩ := addConstant_eq_ok_iff.1 h
    exact ⟨rfl, id⟩, nofun⟩

theorem markCaptured_stays (v : Version) : Keeps (Stays captured) (markCaptured v) :=
  change_stays fun _ => ⟨rfl, id⟩

theorem hoist_stays (path : Path) (variant id : Nat) : Keeps (Stays captured) (hoist path variant id) :=
  change_stays fun _ => ⟨rfl, fun h => h⟩

end LowerM

/-! ### Lowering beside the scope -/

/-- In the body around, whose captures are given, visible names are those in scope, each in its own slot. What was
looked up was found there, and what was emitted is confined. -/
structure Scoping.Follows (captured : List String) (scope : Scoping) (s : Lowering) : Prop where
  captures : scope.captures = captured
  agrees : ∀ n, (s.names.get? n).map Version.slot = scope.own.lookup n
  confined : ∀ i ∈ s.code.toList, i.Confined captured
  resolved : ∀ a ∈ scope.accesses, a.Resolved

namespace ScopedM

open Act (Closed Declares)
open LowerM

/-- With the locals `own` in scope, the computation keeps names where they are; what it gives and the locals then in
scope satisfy `P`. -/
structure Tracks {α : Type} (captured : List String) (own : List (String × Nat)) (x : ScopedM α)
    (P : α → List (String × Nat) → Prop) : Prop where
  ok : ∀ {t a t'}, t.scope.own = own → t.scope.Follows captured t.now → x t = .ok a t' →
    t'.scope.Follows captured t'.now ∧ P a t'.scope.own

abbrev Does {α : Type} (captured : List String) (own : List (String × Nat)) (acts : List Act) (x : ScopedM α) : Prop :=
  Tracks captured own x fun _ own' => Declares acts own own'

variable {α β : Type} {captured : List String} {own : List (String × Nat)} {x : ScopedM α} {f : α → ScopedM β}
  {P : α → List (String × Nat) → Prop} {Q : β → List (String × Nat) → Prop} {as bs : List Act}

/-! ### Rules -/

namespace Tracks

theorem pure {a : α} (h : P a own) : Tracks captured own (pure a) P where
  ok hown hs hrun := by
    obtain ⟨rfl, rfl⟩ := pure_eq_ok_iff.1 hrun
    exact ⟨hs, hown ▸ h⟩

theorem bind (hx : Tracks captured own x P) (hf : ∀ a own₁, P a own₁ → Tracks captured own₁ (f a) Q) :
    Tracks captured own (x >>= f) Q where
  ok hown hs hrun := by
    obtain ⟨a, t₁, hxa, hfa⟩ := Outcome.bind_eq_ok_iff.1 hrun
    obtain ⟨hs₁, ha⟩ := hx.ok hown hs hxa
    exact (hf a t₁.scope.own ha).ok rfl hs₁ hfa

theorem imp {P' : α → List (String × Nat) → Prop} (hx : Tracks captured own x P)
    (h : ∀ a own', P a own' → P' a own') : Tracks captured own x P' where
  ok hown hs hrun := (hx.ok hown hs hrun).imp_right (h _ _)

theorem still_bind (hx : Tracks captured own x fun _ own' => own' = own) (hf : ∀ a, Tracks captured own (f a) Q) :
    Tracks captured own (x >>= f) Q :=
  hx.bind fun a _ h => h ▸ hf a

theorem bind_still (hx : Does captured own as x)
    (hf : ∀ a own₁, Declares as own own₁ → Tracks captured own₁ (f a) fun _ own' => own' = own₁) :
    Does captured own as (x >>= f) :=
  hx.bind fun a own₁ h => (hf a own₁ h).imp fun _ _ h' => h' ▸ h

theorem before (hx : Does captured own as x) (hbs : Act.declaredAll bs = []) : Does captured own (as ++ bs) x :=
  hx.imp fun _ _ h => h.trans (.of_nil hbs _)

theorem still (hx : Tracks captured own x fun _ own' => own' = own) (has : Act.declaredAll as = []) :
    Does captured own as x :=
  hx.imp fun _ _ h => h ▸ .of_nil has own

theorem seq (hx : Does captured own as x) (hf : ∀ a own₁, Declares as own own₁ → Does captured own₁ bs (f a)) :
    Does captured own (as ++ bs) (x >>= f) :=
  hx.bind fun a own₁ h => (hf a own₁ h).imp fun _ _ h' => h.trans h'

theorem throw {e : LowerError} : Tracks captured own (throw e : ScopedM α) P := ⟨fun _ _ hrun => nomatch hrun⟩

theorem throw_bind {e : LowerError} : Tracks captured own (MonadExcept.throw e >>= f) Q :=
  throw.bind fun _ _ (h : False) => h.elim

theorem lift {y : LowerM α} (hy : Keeps (Stays captured) y) :
    Tracks captured own (lift y) fun _ own' => own' = own where
  ok {t a t'} hown hs hrun := by
    unfold ScopedM.lift at hrun
    split at hrun
    · rename_i hya
      cases hrun
      have hstays := (hy _).ok hya
      exact ⟨⟨hs.captures, fun n => by rw [hstays.names, hs.agrees], hstays.confined hs.confined, hs.resolved⟩, hown⟩
    · cases hrun

end Tracks

/-! ### Locals and blocks -/

section inversion

variable {t t' : Scoped} {name : String} {a : α} {code : List Instr} {names : Row Version}

theorem find_eq_ok_iff {v? : Option Version} :
    find name t = .ok v? t' ↔ t.now.names.get? name = v? ∧
      ⟨t.now, { t.scope with accesses := ⟨name, t.scope.own.lookup name, v?, t.scope.captures⟩ :: t.scope.accesses }⟩ =
        t' := by
  constructor
  · intro h
    cases h
    exact ⟨rfl, rfl⟩
  · rintro ⟨rfl, rfl⟩
    rfl

theorem declare_eq_ok_iff {v : Version} {u : Unit} :
    declare name v t = .ok u t' ↔
      ⟨{ t.now with names := t.now.names.insert name v }, { t.scope with own := (name, v.slot) :: t.scope.own }⟩ =
        t' := by
  constructor
  · intro h
    cases h
    rfl
  · rintro rfl
    rfl

theorem inBlock_eq_ok {r : α × List Instr × Row Version} (h : LowerM.inBlock x t = .ok r t') :
    ∃ t₁, x ⟨{ t.now with code := #[] }, t.scope⟩ = .ok r.1 t₁ ∧ t₁.now.code.toList = r.2.1 ∧
      ⟨{ t₁.now with code := t.now.code, names := t.now.names }, t₁.scope⟩ = t' := by
  obtain ⟨outer, _, hpresent, h⟩ := Outcome.bind_eq_ok_iff.1 h
  cases hpresent
  obtain ⟨_, _, henter, h⟩ := Outcome.bind_eq_ok_iff.1 h
  cases henter
  obtain ⟨a, t₁, hx, h⟩ := Outcome.bind_eq_ok_iff.1 h
  cases h
  exact ⟨t₁, hx, rfl, rfl⟩

theorem inArm_eq_ok (h : inArm x t = .ok a t') :
    ∃ t₁, x t = .ok a t₁ ∧ ⟨t₁.now, { t₁.scope with own := t.scope.own }⟩ = t' := by
  obtain ⟨_, rfl, h⟩ := get_bind_eq_ok_iff.1 h
  obtain ⟨a', t₁, hx, h⟩ := Outcome.bind_eq_ok_iff.1 h
  cases h
  exact ⟨t₁, hx, rfl⟩

end inversion

theorem lookup_eq_none {name : String} : own.lookup name = none ↔ name ∉ own.map (·.1) := by
  rw [List.lookup_eq_none_iff]
  constructor
  · intro h hmem
    obtain ⟨e, he, rfl⟩ := List.mem_map.1 hmem
    simpa using h e he
  · intro h e he
    simpa using fun heq : name = e.1 => h (heq ▸ List.mem_map_of_mem he)

/-- A local is looked up that is declared in the body around or captured there. -/
theorem find_tracks {name : String} (h : name ∉ own.map (·.1) → name ∈ captured) :
    Tracks captured own (find name) fun v? own' => own' = own ∧ v?.map Version.slot = own.lookup name ∧
      (v? = none → name ∈ captured) where
  ok {t v? t'} hown hs hrun := by
    obtain ⟨rfl, rfl⟩ := find_eq_ok_iff.1 hrun
    have hslot := hs.agrees name
    have hcaptured : t.now.names.get? name = none → name ∈ captured := by
      intro hnone
      rw [hnone, hown] at hslot
      exact h (lookup_eq_none.1 hslot.symm)
    refine ⟨⟨hs.captures, hs.agrees, hs.confined, List.forall_mem_cons.2 ⟨⟨hslot, ?_⟩, hs.resolved⟩⟩, hown, ?_,
      hcaptured⟩
    · exact hs.captures.symm ▸ hcaptured
    · rw [hslot, hown]

theorem declare_tracks (name : String) (v : Version) :
    Tracks captured own (declare name v) fun _ own' => own' = (name, v.slot) :: own where
  ok {t _ t'} hown hs hrun := by
    obtain rfl := declare_eq_ok_iff.1 hrun
    refine ⟨⟨hs.captures, fun n => ?_, hs.confined, hs.resolved⟩, by rw [hown]⟩
    change ((t.now.names.insert name v).get? n).map Version.slot = ((name, v.slot) :: t.scope.own).lookup n
    rw [Row.get?_insert, List.lookup_cons]
    by_cases hn : name = n
    · simp [hn]
    · rw [if_neg hn, hs.agrees n, beq_eq_false_iff_ne.2 (Ne.symm hn)]

theorem declare_does {name : String} {l : Local} (v : Version) :
    Does captured own [.declare name l] (declare name v) :=
  (declare_tracks name v).imp fun _ _ h => ⟨[(name, v.slot)], h, rfl⟩

/-- A name that is in scope gets another version of its slot. -/
theorem rebind_tracks {name : String} {v : Version} (h : own.lookup name = some v.slot) :
    Tracks captured own (LowerM.bind name v) fun _ own' => own' = own where
  ok {t _ t'} hown hs hrun := by
    cases hrun
    refine ⟨⟨hs.captures, fun n => ?_, hs.confined, hs.resolved⟩, hown⟩
    change ((t.now.names.insert name v).get? n).map Version.slot = t.scope.own.lookup n
    rw [Row.get?_insert]
    split
    · rename_i hn
      rw [← hn, hown, h, Option.map_some]
    · exact hs.agrees n

theorem nextVersion_tracks (v : Version) :
    Tracks captured own (LowerM.nextVersion v) fun w own' => own' = own ∧ w.slot = v.slot where
  ok hown hs hrun := by
    cases hrun
    exact ⟨⟨hs.captures, hs.agrees, hs.confined, hs.resolved⟩, hown, rfl⟩

/-- Visible names are those in scope. -/
theorem present_tracks : Tracks captured own LowerM.present fun s own' =>
    own' = own ∧ ∀ n, (s.names.get? n).map Version.slot = own.lookup n where
  ok hown hs hrun := by
    cases hrun
    exact ⟨hs, hown, hown ▸ hs.agrees⟩

/-- A right operand declares nothing. Where it ends, the names are again what they were before. -/
theorem inBlock_tracks (hx : Tracks captured own x fun _ own' => own' = own) :
    Tracks captured own (LowerM.inBlock x) fun r own' => own' = own ∧ ∀ i ∈ r.2.1, i.Confined captured where
  ok {t r t'} hown hs hrun := by
    obtain ⟨t₁, hx', hcode, rfl⟩ := inBlock_eq_ok hrun
    have hstart : t.scope.Follows captured { t.now with code := #[] } := ⟨hs.captures, hs.agrees, nofun, hs.resolved⟩
    obtain ⟨hs₁, hown'⟩ := hx.ok (t := ⟨{ t.now with code := #[] }, t.scope⟩) hown hstart hx'
    have hconfined : ∀ i ∈ r.2.1, i.Confined captured := by rw [← hcode]; exact hs₁.confined
    refine ⟨⟨hs₁.captures, fun n => ?_, hs.confined, hs₁.resolved⟩, hown', hconfined⟩
    rw [hown', ← hown]
    exact hs.agrees n

theorem inArm_tracks (hx : Tracks captured own x P) :
    Tracks captured own (inArm (LowerM.inBlock x)) fun r own' => own' = own ∧ ∀ i ∈ r.2.1, i.Confined captured where
  ok {t r t'} hown hs hrun := by
    obtain ⟨t₁, hblock, rfl⟩ := inArm_eq_ok hrun
    obtain ⟨t₂, hx', hcode, rfl⟩ := inBlock_eq_ok hblock
    have hstart : t.scope.Follows captured { t.now with code := #[] } := ⟨hs.captures, hs.agrees, nofun, hs.resolved⟩
    obtain ⟨hs₁, -⟩ := hx.ok (t := ⟨{ t.now with code := #[] }, t.scope⟩) hown hstart hx'
    have hconfined : ∀ i ∈ r.2.1, i.Confined captured := by rw [← hcode]; exact hs₁.confined
    exact ⟨⟨hs₁.captures, fun n => hown ▸ hs.agrees n, hs.confined, hs₁.resolved⟩, hown, hconfined⟩

theorem bindParams_does (params : List (String × TypeVar)) :
    Does captured own (params.map Act.bind) (LowerM.bindParams params) := by
  induction params generalizing own with
  | nil => exact .pure (.of_nil rfl own)
  | cons param params ih =>
    have hbind : (param :: params).map Act.bind = [Act.bind param] ++ params.map Act.bind := rfl
    rw [hbind]
    exact .still_bind (.lift (LowerM.newSlot_stays _ _)) fun v => .seq (declare_does v) fun _ _ _ => ih

/-- The body of a procedure or closure in which nothing else than the parameters is in scope when it begins. -/
theorem inBody_eq_ok {params : List String} {args : List TypeVar} {x : ScopedM Unit} {t t' : Scoped}
    {lowered : Array Slot × List Instr}
    (hx : ∀ own', Declares ((params.zip args).map Act.bind) [] own' → Does captured own' bs x)
    (hown : t.scope.own = []) (hcaptures : t.scope.captures = captured) (hresolved : ∀ a ∈ t.scope.accesses, a.Resolved)
    (h : LowerM.inBody params args x t = .ok lowered t') :
    t'.now.names = t.now.names ∧ t'.now.code = t.now.code ∧ (∀ i ∈ lowered.2, i.Confined captured) ∧
      ∀ a ∈ t'.scope.accesses, a.Resolved := by
  obtain ⟨outer, _, hpresent, h⟩ := Outcome.bind_eq_ok_iff.1 h
  cases hpresent
  obtain ⟨_, _, henter, h⟩ := Outcome.bind_eq_ok_iff.1 h
  cases henter
  obtain ⟨⟨⟩, t₁, hparams, h⟩ := Outcome.bind_eq_ok_iff.1 h
  obtain ⟨⟨⟩, t₂, hbody, h⟩ := Outcome.bind_eq_ok_iff.1 h
  have hstart : t.scope.Follows captured (LowerM.bodyStart t.now) :=
    ⟨hcaptures, fun _ => by rw [hown]; rfl, nofun, hresolved⟩
  obtain ⟨hs₁, hdeclares⟩ := (bindParams_does _).ok (t := ⟨LowerM.bodyStart t.now, t.scope⟩) hown hstart hparams
  obtain ⟨hs₂, -⟩ := (hx t₁.scope.own hdeclares).ok rfl hs₁ hbody
  cases h
  exact ⟨rfl, rfl, hs₂.confined, hs₂.resolved⟩

/-- The body of a closure is lowered apart from the body around, from a scope of its own. -/
theorem inClosure_tracks {params : List String} {args : List TypeVar} {captures : List String} {x : ScopedM Unit}
    (hx : ∀ own', Declares ((params.zip args).map Act.bind) [] own' → Does captures own' bs x) :
    Tracks captured own (inClosure captures (LowerM.inBody params args x)) fun r own' =>
      own' = own ∧ ∀ i ∈ r.2, i.Confined captures where
  ok {t r t'} hown hs hrun := by
    obtain ⟨_, rfl, hrun⟩ := get_bind_eq_ok_iff.1 hrun
    obtain ⟨_, _, hscope, hrun⟩ := Outcome.bind_eq_ok_iff.1 hrun
    cases hscope
    obtain ⟨lowered, t₁, hbody, hrun⟩ := Outcome.bind_eq_ok_iff.1 hrun
    obtain ⟨hnames, hcode, hconfined, hresolved⟩ :=
      inBody_eq_ok (t := ⟨t.now, { t.scope with own := [], captures }⟩) hx rfl rfl hs.resolved hbody
    cases hrun
    refine ⟨⟨hs.captures, fun n => ?_, ?_, hresolved⟩, hown, hconfined⟩
    · rw [hnames]
      exact hs.agrees n
    · rw [hcode]
      exact hs.confined

/-! ### Parts of expressions -/

theorem emitInto_tracks {type : TypeVar} {op : Op} {args : List Version} (h : ∀ n ∈ op.captured?, n ∈ captured) :
    Tracks captured own (emitInto type op args) fun _ own' => own' = own :=
  .still_bind (.lift (newSlot_stays type false)) fun _ => .still_bind (.lift (emit_stays (.op h))) fun _ => .pure rfl

/-- An operation that reads and writes nothing by name. -/
theorem emitInto_nameless {type : TypeVar} {op : Op} {args : List Version} (hop : op.captured? = none) :
    Tracks captured own (emitInto type op args) fun _ own' => own' = own :=
  emitInto_tracks (Op.forall_captured_of_none hop captured)

theorem emitSome_nameless {type : TypeVar} {op : Op} {args : List Version} (hop : op.captured? = none) :
    Tracks captured own (do return some (← emitInto type op args)) fun _ own' => own' = own :=
  .still_bind (emitInto_nameless hop) fun _ => .pure rfl

theorem own_tracks (type : TypeVar) (v : Version) :
    Tracks captured own (LowerM.own type v) fun _ own' => own' = own := by
  refine present_tracks.bind fun s own₁ h => ?_
  obtain ⟨rfl, -⟩ := h
  dsimp only
  split
  · exact emitInto_nameless rfl
  · exact .pure rfl

theorem evaluateConstant_tracks (context : LowerContext) (e : Expr TypeVar) :
    Tracks captured own (evaluateConstant context e) fun _ own' => own' = own := by
  unfold evaluateConstant
  split
  · exact .lift (addConstant_stays _)
  · exact .throw

theorem evaluateArms_tracks (context : LowerContext) (arms : List (Expr TypeVar × List (Expr TypeVar))) :
    Tracks captured own (evaluateArms context arms) fun _ own' => own' = own := by
  induction arms with
  | nil => exact .pure rfl
  | cons arm arms ih =>
    exact .still_bind (evaluateConstant_tracks context arm.1) fun _ => .still_bind ih fun _ => .pure rfl

theorem resolved_tracks (target : Target) (span : Span) :
    Tracks captured own (resolved target span) fun _ own' => own' = own := by
  cases target with
  | pending i => exact .throw
  | resolved path variant => exact .pure rfl

theorem memberType_tracks (context : LowerContext) (object : TypeVar) (name : String) (span : Span) :
    Tracks captured own (memberType context object name span) fun _ own' => own' = own := by
  unfold memberType
  split
  · split
    · exact .pure rfl
    · exact .throw
  · exact .throw

theorem loadGlobal_tracks (context : LowerContext) (type : TypeVar) (path : Path) (variant : Nat) (span : Span) :
    Tracks captured own (loadGlobal context type path variant span) fun _ own' => own' = own := by
  unfold loadGlobal
  split
  · exact .throw
  · split
    · refine present_tracks.bind fun s own₁ h => ?_
      obtain ⟨rfl, -⟩ := h
      split
      · exact emitInto_nameless rfl
      · exact .still_bind (evaluateConstant_tracks context _) fun _ =>
          .still_bind (.lift (hoist_stays _ _ _)) fun _ => emitInto_nameless rfl
    · exact emitInto_nameless rfl

theorem unwrapVariant_tracks (type : TypeVar) (v : Version) (name : String) :
    Tracks captured own (unwrapVariant type v name) fun _ own' => own' = own := by
  refine .still_bind (.lift (newSlot_stays type false)) fun payload =>
    .still_bind (.lift (emit_stays (.branchVariant ?_ ?_))) fun _ => .pure rfl
  · exact List.forall_mem_singleton.2 nofun
  · exact List.forall_mem_singleton.2 (.nameless rfl)

theorem asValue_does {type : TypeVar} {x : ScopedM (Option Version)} (hx : Does captured own as x) :
    Does captured own as (asValue type x) := by
  refine hx.bind fun v? own₁ h => ?_
  cases v? with
  | some v => exact .pure h
  | none => exact (emitInto_nameless rfl).imp fun _ _ heq => heq ▸ h

/-- What is captured is a local of the body around or captured there. -/
theorem captureAll_tracks (captures : List (String × TypeVar))
    (h : ∀ c ∈ captures, c.1 ∉ own.map (·.1) → c.1 ∈ captured) :
    Tracks captured own (captureAll captures) fun r own' => own' = own ∧ r.map (·.1) = captures.map (·.1) := by
  induction captures with
  | nil => exact .pure ⟨rfl, rfl⟩
  | cons c captures ih =>
    obtain ⟨hc, hrest⟩ := List.forall_mem_cons.1 h
    have hadd (v : Version) : Tracks captured own (do return (c.1, v) :: (← captureAll captures)) fun r own' =>
        own' = own ∧ r.map (·.1) = (c :: captures).map (·.1) :=
      (ih hrest).bind fun r own₁ hr => .pure ⟨hr.1, congrArg (c.1 :: ·) hr.2⟩
    refine (find_tracks hc).bind fun v? own₁ hv => ?_
    obtain ⟨rfl, -, hnone⟩ := hv
    cases v? with
    | some v => exact .still_bind (.lift (markCaptured_stays v)) fun _ => hadd v
    | none =>
      refine .still_bind (emitInto_tracks ?_) fun v => hadd v
      rintro _ ⟨⟩
      exact hnone rfl

theorem shortCircuit_does {type : TypeVar} {stop : Bool} {left right : ScopedM Version} (hbs : Act.declaredAll bs = [])
    (hleft : Does captured own as left) (hright : ∀ own₁, Declares as own own₁ → Does captured own₁ bs right) :
    Does captured own (as ++ [.perhaps bs]) (shortCircuit type stop left right) := by
  refine .before (hleft.bind_still fun l own₁ h => ?_) hbs
  have hright := inBlock_tracks ((hright own₁ h).imp fun _ _ h => h.eq hbs)
  have hcopy (v w : Version) : (Instr.op .copy [v] (some w)).Confined captured := .nameless rfl
  refine .still_bind (.lift (newSlot_stays type false)) fun result =>
    .still_bind (.lift (addConstant_stays _)) fun stopId => hright.bind fun r own₂ hr => ?_
  obtain ⟨rfl, hcode⟩ := hr
  refine .still_bind (.lift (nextVersion_stays result)) fun fromLeft =>
    .still_bind (.lift (emit_stays (.branchValue ?_ ?_))) fun _ =>
      .still_bind (.lift (nextVersion_stays result)) fun merged =>
        .still_bind (.lift (emit_stays (.nameless rfl))) fun _ => .pure rfl
  · exact List.forall_mem_singleton.2 (List.forall_mem_singleton.2 (hcopy _ _))
  · exact List.forall_mem_append.2 ⟨hcode, List.forall_mem_singleton.2 (hcopy _ _)⟩

/-- An operation comes last that reads and writes nothing by name. -/
theorem Tracks.emits {type : TypeVar} {op : Op} {args : α → List Version} (hop : op.captured? = none)
    (hx : Does captured own as x) : Does captured own as (do return some (← emitInto type op (args (← x)))) :=
  hx.bind_still fun _ _ _ => emitSome_nameless hop

theorem emitNone_tracks {i : Instr} (h : i.Confined captured) :
    Tracks captured own (do emit i; return (none : Option Version)) fun _ own' => own' = own :=
  .still_bind (.lift (emit_stays h)) fun _ => .pure rfl

/-! ### Joins and assignments -/

/-- A name in scope gets the next version of its slot. -/
theorem renew_tracks {name : String} {earlier : Version} (h : own.lookup name = some earlier.slot)
    {i : Version → Instr} (hi : ∀ next, (i next).Confined captured) :
    Tracks captured own (do let next ← nextVersion earlier; emit (i next); LowerM.bind name next)
      fun _ own' => own' = own := by
  refine (nextVersion_tracks earlier).bind fun next own₁ hnext => ?_
  obtain ⟨rfl, hnext⟩ := hnext
  exact .still_bind (.lift (emit_stays (hi next))) fun _ => rebind_tracks (hnext ▸ h)

theorem joinName_tracks (arms : List (Row Version)) {name : String} {earlier : Version}
    (h : own.lookup name = some earlier.slot) :
    Tracks captured own (joinName arms name earlier) fun _ own' => own' = own := by
  have hslots : ∀ v ∈ endVersions name earlier arms, v.slot = earlier.slot := by
    intro v hv
    obtain ⟨arm, -, rfl⟩ := mem_endVersions.1 hv
    exact endVersion_slot
  unfold joinName
  cases hversions : endVersions name earlier arms with
  | nil => exact .pure rfl
  | cons only rest =>
    rw [hversions] at hslots
    cases rest with
    | nil =>
      dsimp only
      split
      · exact .pure rfl
      · exact rebind_tracks (hslots only List.mem_cons_self ▸ h)
    | cons other rest => exact renew_tracks h fun _ => .nameless rfl

theorem join_tracks (arms : List (Row Version)) : Tracks captured own (join arms) fun _ own' => own' = own := by
  refine present_tracks.bind fun s own₁ h => ?_
  obtain ⟨rfl, hagrees⟩ := h
  have hnames : ∀ e ∈ s.names.entries, own₁.lookup e.1 = some e.2.slot := fun e he => by
    rw [← hagrees, (Row.mem_entries_iff s.names).1 he, Option.map_some]
  revert hnames
  generalize s.names.entries = entries
  intro hnames
  induction entries with
  | nil => exact .pure rfl
  | cons e entries ih =>
    obtain ⟨he, hrest⟩ := List.forall_mem_cons.1 hnames
    exact .still_bind (joinName_tracks arms he) fun _ => ih hrest

theorem branch_tracks {i : Instr} (arms : List (Row Version)) (h : i.Confined captured) :
    Tracks captured own (do emit i; join arms; return (none : Option Version)) fun _ own' => own' = own :=
  .still_bind (.lift (emit_stays h)) fun _ => .still_bind (join_tracks arms) fun _ => .pure rfl

theorem assign_tracks {name : String} {v : Version} (h : name ∉ own.map (·.1) → name ∈ captured) :
    Tracks captured own (do
      match ← find name with
      | some current => do
        let next ← nextVersion current
        emit (.op .copy [v] (some next))
        LowerM.bind name next
      | none => emit (.op (.writeCapture name) [v] none)
      return (none : Option Version)) fun _ own' => own' = own := by
  refine (find_tracks h).bind fun v? own₁ hv => ?_
  obtain ⟨rfl, hslot, hnone⟩ := hv
  cases v? with
  | some current =>
    have hcopy (next : Version) : (Instr.op .copy [v] (some next)).Confined captured := .nameless rfl
    have hrun := (renew_tracks hslot.symm hcopy).still_bind (Q := fun (_ : Option Version) own' => own' = own₁)
      fun _ => .pure (a := none) rfl
    simpa only [bind_assoc] using hrun
  | none =>
    refine emitNone_tracks (.op ?_)
    rintro _ ⟨⟩
    exact hnone rfl

theorem declaredAll_armValueActs (arms : List (Expr TypeVar × List (Expr TypeVar))) :
    Act.declaredAll (Expr.armValueActs arms) = [] := by
  induction arms with
  | nil => rfl
  | cons arm arms ih => rw [Expr.armValueActs, Act.declaredAll, ih]; rfl

/-! ### The induction -/

mutual

theorem expr_does (context : LowerContext) : (e : Expr TypeVar) → ∀ {captured own}, Closed captured own e.acts →
    Does captured own e.acts (expr context e)
  | .literal m value, _, _, _ => .still (emitSome_nameless rfl) rfl
  | .name m path, _, _, _ => .still .throw rfl
  | .global m target, _, _, _ =>
    .still (.still_bind (resolved_tracks _ _) fun _ => .still_bind (loadGlobal_tracks _ _ _ _ _) fun _ => .pure rfl) rfl
  | .procedure m target, _, _, _ => .still .throw rfl
  | .constant m value, _, _, _ =>
    .still (.still_bind (evaluateConstant_tracks _ _) fun _ => emitSome_nameless rfl) rfl
  | .localVar m name, _, _, h => by
    refine .still ((find_tracks h.read).bind fun v? own₁ hv => ?_) rfl
    obtain ⟨rfl, -, hnone⟩ := hv
    cases v? with
    | some v => exact .pure rfl
    | none =>
      refine .still_bind (emitInto_tracks ?_) fun _ => .pure rfl
      rintro _ ⟨⟩
      exact hnone rfl
  | .invoke m target args, _, _, h =>
    .still_bind (resolved_tracks _ _) fun _ =>
      (values_does context args h).emits rfl
  | .call m callee args, _, _, h => by
    obtain ⟨hcallee, hargs⟩ := h.append
    exact .seq (asValue_does (expr_does context callee hcallee)) fun _ _ hdeclares =>
      (values_does context args (hargs hdeclares)).emits rfl
  | .method m receiver name args, _, _, h => by
    obtain ⟨hreceiver, hargs⟩ := h.append
    exact .seq (asValue_does (expr_does context receiver hreceiver)) fun _ _ hdeclares =>
      .still_bind (memberType_tracks _ _ _ _) fun _ =>
        .still_bind (emitInto_nameless rfl) fun _ =>
          (values_does context args (hargs hdeclares)).emits rfl
  | .closure m params body (some info), _, _, h => by
    obtain ⟨hbody, hcaptures⟩ := h.closure
    obtain ⟨-, hbody⟩ := hbody.append
    refine .still ((captureAll_tracks info.captures.entries fun c hc =>
      hcaptures c.1 (List.mem_map_of_mem hc)).bind fun captures own₁ hcaptured => ?_) rfl
    obtain ⟨rfl, hnames⟩ := hcaptured
    refine (inClosure_tracks fun own' hown' => exprs_does context body (hbody hown')).bind fun inner own₂ hinner => ?_
    obtain ⟨rfl, hcode⟩ := hinner
    refine .still_bind (.lift (newSlot_stays _ _)) fun dest =>
      .still_bind (.lift (emit_stays (.closure ?_))) fun _ => .pure rfl
    exact hnames ▸ hcode
  | .closure m params body none, _, _, _ => .still .throw rfl
  | .define m name isMutable value, _, _, h => by
    obtain ⟨hvalue, -⟩ := h.append
    exact .seq (asValue_does (expr_does context value hvalue)) fun v _ _ =>
      .still_bind (own_tracks _ _) fun w =>
        (declare_does w).bind_still fun _ _ _ => .pure rfl
  | .declare m name isMutable, _, _, _ =>
    .still_bind (.lift (newSlot_stays _ _)) fun v => (declare_does v).bind_still fun _ _ _ => .pure rfl
  | .assign m target value, captured, own, h => by
    obtain ⟨hvalue, htarget⟩ := h.append
    have hvalue : Does captured own value.acts (asValue value.note (expr context value)) :=
      asValue_does (expr_does context value hvalue)
    cases target with
    | localVar t name =>
      exact (hvalue.bind_still fun v _ hdeclares => assign_tracks (htarget hdeclares).assign).before rfl
    | member t owner name =>
      exact .seq hvalue fun v _ hdeclares => (asValue_does (expr_does context owner (htarget hdeclares))).bind_still
        fun o _ _ => emitNone_tracks (.nameless rfl)
    | element t owner index =>
      refine .seq hvalue fun v _ hdeclares => ?_
      obtain ⟨howner, hindex⟩ := (htarget hdeclares).append
      exact .seq (asValue_does (expr_does context owner howner)) fun o _ hdeclares' =>
        (asValue_does (expr_does context index (hindex hdeclares'))).bind_still fun i _ _ =>
          emitNone_tracks (.nameless rfl)
    | global t target =>
      cases target with
      | pending | resolved => exact hvalue.bind fun _ _ _ => .throw_bind
    | _ => exact hvalue.bind fun _ _ _ => .throw_bind
  | .giveBack m value, _, _, h => by
    obtain ⟨hvalue, -⟩ := h.append
    exact .before ((asValue_does (expr_does context value hvalue)).bind_still fun _ _ _ =>
      emitNone_tracks (.nameless rfl)) rfl
  | .object m members, _, _, h =>
    (namedValues_does context members h).emits rfl
  | .array m elements, _, _, h =>
    (values_does context elements h).emits rfl
  | .repeated m value size, _, _, h => by
    obtain ⟨hvalue, hsize⟩ := h.append
    exact .seq (asValue_does (expr_does context value hvalue)) fun _ _ hdeclares =>
      (asValue_does (expr_does context size (hsize hdeclares))).emits rfl
  | .member m owner name, _, _, h =>
    (asValue_does (expr_does context owner h)).emits rfl
  | .element m owner index, _, _, h => by
    obtain ⟨howner, hindex⟩ := h.append
    exact .seq (asValue_does (expr_does context owner howner)) fun _ _ hdeclares =>
      (asValue_does (expr_does context index (hindex hdeclares))).emits rfl
  | .binary m op left right, captured, own, h => by
    obtain ⟨hleft, hright⟩ := h.append
    have hleft : Does captured own left.acts (asValue left.note (expr context left)) :=
      asValue_does (expr_does context left hleft)
    cases op with
    | and | or =>
      exact (shortCircuit_does (Closed.declared_perhaps h) hleft fun _ hdeclares =>
        asValue_does (expr_does context right (Closed.perhaps (hright hdeclares)))).bind_still fun _ _ _ => .pure rfl
    | _ =>
      exact .seq hleft fun _ _ hdeclares =>
        (asValue_does (expr_does context right (hright hdeclares))).emits rfl
  | .unary m op operand, _, _, h =>
    (asValue_does (expr_does context operand h)).emits rfl
  | .variant m name payload, _, _, h =>
    (asValue_does (expr_does context payload h)).emits rfl
  | .unwrap m value name, _, _, h => by
    obtain ⟨hvalue, -⟩ := h.append
    exact .before ((asValue_does (expr_does context value hvalue)).bind_still fun _ _ _ =>
      .still_bind (unwrapVariant_tracks _ _ _) fun _ => .pure rfl) rfl
  | .ifElse m condition yes no, _, _, h => by
    obtain ⟨hcondition, harms⟩ := h.append
    refine .before ((asValue_does (expr_does context condition hcondition)).bind_still fun v own₁ hdeclares => ?_) rfl
    obtain ⟨hyes, hno⟩ := List.forall_mem_cons.1 (harms hdeclares).branch
    refine .still_bind (.lift (addConstant_stays _)) fun id =>
      (inArm_tracks (exprs_does context yes hyes)).bind fun yes' own₂ hyes' => ?_
    obtain ⟨rfl, hyes'⟩ := hyes'
    refine (inArm_tracks (exprs_does context no (List.forall_mem_singleton.1 hno))).bind fun no' own₃ hno' => ?_
    obtain ⟨rfl, hno'⟩ := hno'
    exact branch_tracks _ (.branchValue (List.forall_mem_singleton.2 hyes') hno')
  | .matchValue m value arms otherwise, _, _, h => by
    obtain ⟨hvalue, hrest⟩ := h.append
    have hconstants := declaredAll_armValueActs arms
    refine .before ((asValue_does (expr_does context value hvalue)).bind_still fun v own₁ hdeclares => ?_) ?_
    · obtain ⟨-, harms⟩ := (hrest hdeclares).append
      obtain ⟨harms, hotherwise⟩ := List.forall_mem_append.1 (harms (.of_nil hconstants own₁)).branch
      refine .still_bind (evaluateArms_tracks _ _) fun ids =>
        (valueArms_tracks context arms harms).bind fun bodies own₂ hbodies => ?_
      obtain ⟨rfl, hbodies⟩ := hbodies
      refine (inArm_tracks (exprs_does context otherwise (List.forall_mem_singleton.1 hotherwise))).bind
        fun last own₃ hlast => ?_
      obtain ⟨rfl, hlast⟩ := hlast
      refine branch_tracks _ (.branchValue (fun arm harm => ?_) hlast)
      obtain ⟨body, hbody, heq⟩ := List.mem_map.1 (List.of_mem_zip harm).2
      exact heq ▸ hbodies body hbody
    · rw [Act.declaredAll_append, hconstants]
      rfl
  | .matchVariant m value arms (some otherwise), _, _, h => by
    obtain ⟨hvalue, harms⟩ := h.append
    refine .before ((asValue_does (expr_does context value hvalue)).bind_still fun v own₁ hdeclares => ?_) rfl
    obtain ⟨harms, hotherwise⟩ := List.forall_mem_append.1 (harms hdeclares).branch
    refine (variantArms_tracks context arms harms).bind fun arms' own₂ harms' => ?_
    obtain ⟨rfl, harms'⟩ := harms'
    refine (inArm_tracks (exprs_does context otherwise (List.forall_mem_singleton.1 hotherwise))).bind
      fun last own₃ hlast => ?_
    obtain ⟨rfl, hlast⟩ := hlast
    exact branch_tracks _ (.branchVariant (List.forall_mem_map.2 harms') hlast)
  | .matchVariant m value arms none, _, _, h => by
    obtain ⟨hvalue, harms⟩ := h.append
    refine .before ((asValue_does (expr_does context value hvalue)).bind_still fun v own₁ hdeclares => ?_) rfl
    refine (variantArms_tracks context arms (harms hdeclares).branch).bind fun arms' own₂ harms' => ?_
    obtain ⟨rfl, harms'⟩ := harms'
    exact branch_tracks _ (.branchVariant (List.forall_mem_map.2 harms') nofun)

theorem exprs_does (context : LowerContext) : (es : List (Expr TypeVar)) → ∀ {captured own},
    Closed captured own (Expr.actsOf es) → Does captured own (Expr.actsOf es) (exprs context es)
  | [], _, own, _ => .pure (.of_nil rfl own)
  | e :: rest, _, _, h => by
    obtain ⟨he, hrest⟩ := h.append
    exact .seq (expr_does context e he) fun _ _ hdeclares => exprs_does context rest (hrest hdeclares)

theorem values_does (context : LowerContext) : (es : List (Expr TypeVar)) → ∀ {captured own},
    Closed captured own (Expr.actsOf es) → Does captured own (Expr.actsOf es) (values context es)
  | [], _, own, _ => .pure (.of_nil rfl own)
  | e :: rest, _, _, h => by
    obtain ⟨he, hrest⟩ := h.append
    exact .seq (asValue_does (expr_does context e he)) fun _ _ hdeclares =>
      (values_does context rest (hrest hdeclares)).bind fun _ _ h => .pure h

theorem namedValues_does (context : LowerContext) : (es : List (String × Expr TypeVar)) → ∀ {captured own},
    Closed captured own (Expr.namedActs es) → Does captured own (Expr.namedActs es) (namedValues context es)
  | [], _, own, _ => .pure (.of_nil rfl own)
  | (_, e) :: rest, _, _, h => by
    obtain ⟨he, hrest⟩ := h.append
    exact .seq (asValue_does (expr_does context e he)) fun _ _ hdeclares =>
      (namedValues_does context rest (hrest hdeclares)).bind fun _ _ h => .pure h

theorem valueArms_tracks (context : LowerContext) : (arms : List (Expr TypeVar × List (Expr TypeVar))) →
    ∀ {captured own}, (∀ arm ∈ Expr.armBodyActs arms, Closed captured own arm) →
      Tracks captured own (valueArms context arms) fun r own' =>
        own' = own ∧ ∀ arm ∈ r, ∀ i ∈ arm.1, i.Confined captured
  | [], _, _, _ => .pure ⟨rfl, nofun⟩
  | (_, body) :: rest, _, _, h => by
    obtain ⟨hbody, hrest⟩ := List.forall_mem_cons.1 h
    refine (inArm_tracks (exprs_does context body hbody)).bind fun block own₁ hblock => ?_
    obtain ⟨rfl, hblock⟩ := hblock
    exact (valueArms_tracks context rest hrest).bind fun arms own₂ harms =>
      .pure ⟨harms.1, List.forall_mem_cons.2 ⟨hblock, harms.2⟩⟩

theorem variantArms_tracks (context : LowerContext) : (arms : List (VariantArm TypeVar (List (Expr TypeVar)))) →
    ∀ {captured own}, (∀ arm ∈ Expr.variantArmActs arms, Closed captured own arm) →
      Tracks captured own (variantArms context arms) fun r own' =>
        own' = own ∧ ∀ arm ∈ r, ∀ i ∈ arm.1.body, i.Confined captured
  | [], _, _, _ => .pure ⟨rfl, nofun⟩
  | ⟨variant, some name, payload, body⟩ :: rest, captured, own, h => by
    obtain ⟨hbody, hrest⟩ := List.forall_mem_cons.1 h
    have hbody : Closed captured own ([Act.bind (name, payload)] ++ Expr.actsOf body) := hbody
    obtain ⟨-, hbody⟩ := hbody.append
    refine .still_bind (.lift (newSlot_stays payload false)) fun v =>
      (inArm_tracks (.seq (declare_does v) fun _ _ h => exprs_does context body (hbody h))).bind
        fun block own₁ hblock => ?_
    obtain ⟨rfl, hblock⟩ := hblock
    exact (variantArms_tracks context rest hrest).bind fun arms own₂ harms =>
      .pure ⟨harms.1, List.forall_mem_cons.2 ⟨hblock, harms.2⟩⟩
  | ⟨variant, none, payload, body⟩ :: rest, _, _, h => by
    obtain ⟨hbody, hrest⟩ := List.forall_mem_cons.1 h
    refine (inArm_tracks (exprs_does context body hbody)).bind fun block own₁ hblock => ?_
    obtain ⟨rfl, hblock⟩ := hblock
    exact (variantArms_tracks context rest hrest).bind fun arms own₂ harms =>
      .pure ⟨harms.1, List.forall_mem_cons.2 ⟨hblock, harms.2⟩⟩

end

/-- **Names survive lowering.** The body of a procedure in which right operands of `and` and `or` declare nothing is
lowered to code that reads and writes by name nothing but what the closures in it capture, and every local is found in
its own slot, if it is one of the body around, and is captured else. -/
theorem lowerBody_resolves {context : LowerContext} {params : List String} {args : List TypeVar}
    {body : List (Expr TypeVar)} (h : Closed [] [] (Act.ofBody params args body)) {s s' : Lowering}
    {slots : Array Slot} {code : List Instr} {accesses : List Access}
    (hrun : lowerBody context params args body s = .ok ((slots, code), accesses) s') :
    (∀ i ∈ code, i.Confined []) ∧ ∀ a ∈ accesses, a.Resolved := by
  obtain ⟨-, hbody⟩ := h.append
  unfold lowerBody at hrun
  split at hrun
  · rename_i hinner
    cases hrun
    obtain ⟨-, -, hconfined, hresolved⟩ :=
      inBody_eq_ok (fun _ hdeclares => exprs_does context body (hbody hdeclares)) rfl rfl
        (List.forall_mem_nil _) hinner
    exact ⟨hconfined, hresolved⟩
  · cases hrun

end ScopedM

/-! ### Checked programs -/

/-- The code of a procedure finds the locals of its body: beside its scope, the body is lowered to that code, with
every local found in its own slot or captured, and by name the code reads and writes nothing but what the closures in
it capture. -/
structure Procedure.Resolves (code : Procedure) (context : LowerContext) (params : List String) (args : List TypeVar)
    (body : List (Expr TypeVar)) : Prop where
  confined : ∀ i ∈ code.body, i.Confined []
  lowered : ∃ s accesses s', ScopedM.lowerBody context params args body s = .ok ((code.slots, code.body), accesses) s' ∧
    ∀ a ∈ accesses, a.Resolved

/-- The code of a body in which closures capture what is free in them finds the locals of the body, if right operands
declare nothing. -/
theorem LowerM.LoweredFrom.resolves {context : LowerContext} {table : List Constant} {path : Path}
    {params : List String} {i : Nat} {v : Variant} {body : List (Expr TypeVar)} {code : Procedure}
    (h : LoweredFrom context table path params i v body code)
    (hcovered : Act.covered (Expr.closureAct params body ⟨v.args, v.returns, .empty⟩))
    (hkept : Act.declaresAsideAll (Expr.actsOf body) = false) : code.Resolves context params v.args body := by
  obtain ⟨s, s', hrun, -⟩ := h.code
  obtain ⟨accesses, hrun⟩ := ScopedM.exists_lowerBody hrun
  have hclosed : Act.Closed [] [] (Act.ofBody params v.args body) :=
    ⟨fun u hu => (hcovered.1 u.name).2 ⟨u, hu, rfl⟩, hcovered.2, (Act.declaresAsideAll_ofBody ..).trans hkept⟩
  obtain ⟨hconfined, hresolved⟩ := ScopedM.lowerBody_resolves hclosed hrun
  exact ⟨hconfined, s, accesses, s', hrun, hresolved⟩

/-- What every variant of a store has, a kept variant has. -/
theorem VariantStore.all_of_find? {store : VariantStore} {q : Variant → Bool} (h : store.all (·.all q) = true)
    {k : VariantId} {v : Variant} (hv : store.find? k = some v) : q v = true := by
  have hmem : v ∈ store.getD k.symbol [] := List.mem_of_getElem? hv
  rw [Array.getD_eq_getD_getElem?] at hmem
  cases hvariants : store[k.symbol]? with
  | none =>
    rw [hvariants] at hmem
    cases hmem
  | some variants =>
    rw [hvariants] at hmem
    exact List.all_eq_true.1 (Array.all_eq_true_iff_forall_mem.1 h variants (Array.mem_of_getElem? hvariants)) v hmem

namespace Program

/-- Every procedure of a lowered program is the code of a kept body, and finds the locals of that body as long as no
right operand of `and` or `or` in it, in closures neither, declares a local. -/
theorem check_lower_resolves {p : Program} (hfresh : p.Fresh) (options : CheckOptions) {evaluate : Evaluator}
    {m : Module} (hlower : lower ((p.check options).2.lowering evaluate) = .ok m) :
    ∀ code ∈ m.procedures, ∃ params v body, (p.check options).2.Keeps code params v body ∧
      (Act.declaresAsideAll (Expr.actsOf body) = false →
        code.Resolves ((p.check options).2.lowering evaluate) params v.args body) := by
  intro code hcode
  obtain ⟨id, symbol, params, i, v, body, table, hsymbol, hparams, hv, hbody, hfrom⟩ :=
    loweredFrom_of_mem hlower hcode
  have hkept : (p.check options).2.workspace.variants.find? ⟨id, i⟩ = some v := hv
  obtain ⟨d, g, g', hsettles, -⟩ := (check_accepted hfresh options hkept).settles hsymbol hparams hbody
  exact ⟨params, v, body, ⟨⟨⟨id, i⟩, symbol, hkept, hsymbol, hparams, hfrom.path_eq, hfrom.variant_eq⟩, hbody,
    hfrom.args_eq, hfrom.returns_eq⟩, hfrom.resolves hsettles.covered⟩

/-- A procedure whose closure adds to a local of the procedure. It is called in an arm that has a local of its own,
and the condition has an `or` whose operands declare nothing. -/
def adding : Program :=
  let m : Mark Unit := ⟨.none, ()⟩
  let var (name : String) : Expr Unit := .name m (.single name)
  let number (value : Int64) : Expr Unit := .literal m (.integer value)
  ((empty .modules).add ⟨.single "main", .none, .procedure ["c"]
    [.define m "total" true (number 0),
      .define m "add" false (.closure m ["n"] [.assign m (var "total") (.binary m .add (var "total") (var "n"))] none),
      .ifElse m (.binary m .or (var "c") (.binary m .less (var "total") (number 1)))
        [.define m "one" false (number 1), .call m (var "add") [var "one"]] [],
      .giveBack m (var "total")]⟩).2

/-- It is lowered, and its code finds all its locals. -/
theorem check_lower_resolves_adding : adding.Fresh ∧ ∃ m, lower (adding.checkedMain.lowering .refusing) = .ok m ∧
    m.procedures.length = 1 ∧ ∀ code ∈ m.procedures, ∃ params v body,
      adding.checkedMain.Keeps code params v body ∧ Act.declaresAsideAll (Expr.actsOf body) = false ∧
        code.Resolves (adding.checkedMain.lowering .refusing) params v.args body := by
  have hfresh : adding.Fresh := by cbv
  have hlower : (lower (adding.checkedMain.lowering .refusing)).toOption.map (·.procedures.length) = some 1 := by
    cbv
  have hbodies : (adding.checkedMain.workspace.variants.all fun variants => variants.all fun v =>
      v.body.all fun body => !Act.declaresAsideAll (Expr.actsOf body)) = true := by cbv
  obtain ⟨m, hm, hlength⟩ := ok_of_toOption_map hlower
  refine ⟨hfresh, m, hm, hlength, fun code hcode => ?_⟩
  obtain ⟨params, v, body, hkept, hresolves⟩ := check_lower_resolves hfresh _ hm code hcode
  obtain ⟨k, symbol, hv, -⟩ := hkept.kept
  have hbody : Act.declaresAsideAll (Expr.actsOf body) = false := by
    simpa [hkept.body_eq] using VariantStore.all_of_find? hbodies hv
  exact ⟨params, v, body, hkept, hbody, hresolves hbody⟩

/-- A procedure with a local that the right operand of an `or` declares. -/
def declaringAside : Program :=
  let m : Mark Unit := ⟨.none, ()⟩
  ((empty .modules).add ⟨.single "main", .none, .procedure ["c"]
    [.binary m .or (.name m (.single "c")) (.define m "y" false (.literal m (.boolean true))),
      .giveBack m (.name m (.single "y"))]⟩).2

/-- It is accepted, and lowered to code that reads the local by its name, as if the procedure captured it. -/
theorem check_lower_resolves_fails : declaringAside.Fresh ∧
    (declaringAside.check ⟨[.single "main"], false⟩).1 = [] ∧
    ∃ m code, lower (declaringAside.checkedMain.lowering .refusing) = .ok m ∧ m.procedures = [code] ∧
      code.body =
        [.branchValue ⟨0, 0⟩ [(0, [.op .copy [⟨0, 0⟩] (some ⟨1, 1⟩)])]
            [.op (.load (.boolean true)) [] (some ⟨2, 0⟩), .op (.load .unit) [] (some ⟨3, 0⟩),
              .op .copy [⟨3, 0⟩] (some ⟨1, 0⟩)],
          .op .phi [⟨1, 1⟩, ⟨1, 0⟩] (some ⟨1, 2⟩), .op (.readCapture "y") [] (some ⟨4, 0⟩),
          .op .giveBack [⟨4, 0⟩] none] ∧
      ¬∀ i ∈ code.body, i.Confined [] := by
  have hfresh : declaringAside.Fresh := by cbv
  have haccepted : (declaringAside.check ⟨[.single "main"], false⟩).1 = [] := by cbv
  have hlower : (lower (declaringAside.checkedMain.lowering .refusing)).toOption.map
      (fun m => m.procedures.map Procedure.body) =
        some [[.branchValue ⟨0, 0⟩ [(0, [.op .copy [⟨0, 0⟩] (some ⟨1, 1⟩)])]
            [.op (.load (.boolean true)) [] (some ⟨2, 0⟩), .op (.load .unit) [] (some ⟨3, 0⟩),
              .op .copy [⟨3, 0⟩] (some ⟨1, 0⟩)],
          .op .phi [⟨1, 1⟩, ⟨1, 0⟩] (some ⟨1, 2⟩), .op (.readCapture "y") [] (some ⟨4, 0⟩),
          .op .giveBack [⟨4, 0⟩] none]] := by
    cbv
  obtain ⟨m, hm, hbodies⟩ := ok_of_toOption_map hlower
  obtain ⟨code, hcode, hbody⟩ := List.map_eq_singleton_iff.1 hbodies
  refine ⟨hfresh, haccepted, m, code, hm, hcode, hbody, fun hconfined => ?_⟩
  have hread : Instr.Confined [] (.op (.readCapture "y") [] (some ⟨4, 0⟩)) := hconfined _ (by simp [hbody])
  cases hread with
  | op h => exact List.not_mem_nil (h "y" rfl)

end Program
end Monomorph
