import Mathlib
import Monomorph.Proofs.Solve.Outright
import Monomorph.Symbol.Core

/-! # Which candidate a short path means

A short path is looked for in up to three places (`SymbolTable.places`): in the module of the symbol that refers, as
it is written, and in the core module.

* `SymbolTable.expand_modules`: expansion lists the places, the most specific last, for every user outside the core
  module. Inside it the first place is the core module as well, and of the two mentions the less specific one stays:
  what is written is preferred there to what the core module has.
* `SolveM.bindCall_ok_iff`, `SolveM.bindCall_error_iff`: the candidates of a call are tried one after another
  (`SolveM.PassesOver`) and the first that accepts the call is bound (`SolveM.Accepts`); a call that no candidate
  accepts is an error.

Main statement: `SymbolTable.lookup_mostSpecific`. -/

namespace Monomorph

open Outcome

/-! ### Trying candidates -/

namespace SolveM

variable {table : SymbolTable} {user c : Path} {cs : List Path} {usage : ProcedureUsage}
  {solver : Nat → SolveM Solved} {target target' : Target} {w w₁ w' w'' : Workspace}

/-- Solve a symbol and unify it with a use. -/
def attempt (usage : ProcedureUsage) (solver : Nat → SolveM Solved) (id : Nat) : SolveM Nat := do
  let solved ← solver id
  acceptCall usage solved
  return solved.variant

/-- The candidate is a procedure of as many parameters as the use has arguments, and solving it and unifying it with
the use succeed: the use is bound to the variant solved. -/
def Accepts (table : SymbolTable) (usage : ProcedureUsage) (solver : Nat → SolveM Solved) (c : Path)
    (w : Workspace) (target : Target) (w' : Workspace) : Prop :=
  ∃ id variant, fitting? table usage c = some (c, id) ∧ attempt usage solver id w = .ok variant w' ∧
    target = .resolved c variant

/-- The candidate is passed over. It is no procedure or one of another number of parameters, or solving it or
unifying it with the use fails; then the variants kept meanwhile are dropped. -/
inductive PassesOver (table : SymbolTable) (usage : ProcedureUsage) (solver : Nat → SolveM Solved) (c : Path)
    (w : Workspace) : Workspace → Prop
  | unfit (h : fitting? table usage c = none) : PassesOver table usage solver c w w
  | rejected {id : Nat} {e : TypeError} {w₁ : Workspace} (h : fitting? table usage c = some (c, id))
      (failed : attempt usage solver id w = .error e w₁) :
      PassesOver table usage solver c w ⟨w₁.graph, w₁.variants.rollback w.variants.watermark⟩

/-- All candidates are passed over, in the order listed. -/
inductive PassesOverAll (table : SymbolTable) (usage : ProcedureUsage) (solver : Nat → SolveM Solved) :
    List Path → Workspace → Workspace → Prop
  | nil {w : Workspace} : PassesOverAll table usage solver [] w w
  | cons {c : Path} {cs : List Path} {w w₁ w' : Workspace} (h : PassesOver table usage solver c w w₁)
      (rest : PassesOverAll table usage solver cs w₁ w') : PassesOverAll table usage solver (c :: cs) w w'

/-- The first candidate that accepts the use is bound: those before it are passed over. -/
def BindsFirst (table : SymbolTable) (usage : ProcedureUsage) (solver : Nat → SolveM Solved) (cs : List Path)
    (w : Workspace) (target : Target) (w' : Workspace) : Prop :=
  ∃ before c after w₁, cs = before ++ c :: after ∧ PassesOverAll table usage solver before w w₁ ∧
    Accepts table usage solver c w₁ target w'

theorem bindsFirst_nil : ¬ BindsFirst table usage solver [] w target w' := by
  rintro ⟨before, c, after, w₁, h, -⟩
  cases before <;> cases h

theorem bindsFirst_cons_iff : BindsFirst table usage solver (c :: cs) w target w' ↔
    Accepts table usage solver c w target w' ∨
      ∃ w₁, PassesOver table usage solver c w w₁ ∧ BindsFirst table usage solver cs w₁ target w' := by
  constructor
  · rintro ⟨before, d, after, w₁, heq, hbefore, haccepts⟩
    cases hbefore with
    | nil =>
      cases heq
      exact .inl haccepts
    | cons hc hrest =>
      cases heq
      exact .inr ⟨_, hc, _, d, after, w₁, rfl, hrest, haccepts⟩
  · rintro (haccepts | ⟨w₁, hc, before, d, after, w₂, rfl, hbefore, haccepts⟩)
    · exact ⟨[], c, cs, w, rfl, .nil, haccepts⟩
    · exact ⟨c :: before, d, after, w₂, rfl, .cons hc hbefore, haccepts⟩

theorem passesOverAll_cons_iff : PassesOverAll table usage solver (c :: cs) w w' ↔
    ∃ w₁, PassesOver table usage solver c w w₁ ∧ PassesOverAll table usage solver cs w₁ w' :=
  ⟨fun | .cons h rest => ⟨_, h, rest⟩, fun ⟨_, h, rest⟩ => .cons h rest⟩

/-- Trying the candidates ends with this target, or with none. -/
def Tries (table : SymbolTable) (usage : ProcedureUsage) (solver : Nat → SolveM Solved) (cs : List Path)
    (w : Workspace) (bound : Option Target) (w' : Workspace) : Prop :=
  ∃ trial, tryCandidates table usage solver cs w = .ok trial w' ∧ trial.bound = bound

variable {bound : Option Target}

theorem tries_nil_iff : Tries table usage solver [] w bound w' ↔ bound = none ∧ w' = w := by
  constructor
  · rintro ⟨trial, htrial, rfl⟩
    obtain ⟨rfl, rfl⟩ := pure_eq_ok_iff.1 htrial
    exact ⟨rfl, rfl⟩
  · rintro ⟨rfl, rfl⟩
    exact ⟨_, rfl, rfl⟩

/-- A candidate that does not fit adds a reason at most. -/
theorem tries_unfit_iff (h : fitting? table usage c = none) :
    Tries table usage solver (c :: cs) w bound w' ↔ Tries table usage solver cs w bound w' := by
  unfold Tries
  rw [tryCandidates]
  cases hfound : (table.lookup c).bind fun id => (table.get? id).map fun s => (id, s) with
  | none => rfl
  | some found =>
    obtain ⟨id, symbol⟩ := found
    cases hparams : symbol.declaration.params? with
    | none => simp only [hparams]
    | some params =>
      have hlength : params.length ≠ usage.args.length := by
        intro hlength
        obtain ⟨hid, hsymbol⟩ := SymbolTable.eq_some_of_found hfound
        cases h.symm.trans (fitting?_eq_some_iff.2 ⟨rfl, hid, symbol, params, hsymbol, hparams, hlength⟩)
      simp only [hparams, if_pos hlength]
      constructor
      · rintro ⟨trial, htrial, rfl⟩
        obtain ⟨rest, hrest, rfl⟩ := bind_pure_eq_ok_iff.1 htrial
        exact ⟨rest, hrest, rfl⟩
      · rintro ⟨rest, hrest, rfl⟩
        exact ⟨_, bind_pure_eq_ok_iff.2 ⟨rest, hrest, rfl⟩, rfl⟩

/-- A candidate that fits is found as a procedure with a parameter for each argument. -/
theorem found_of_fits {id : Nat} (h : fitting? table usage c = some (c, id)) : ∃ symbol params,
    ((table.lookup c).bind fun id => (table.get? id).map fun s => (id, s)) = some (id, symbol) ∧
      symbol.declaration.params? = some params ∧ params.length = usage.args.length := by
  obtain ⟨-, hid, symbol, params, hsymbol, hparams, hlength⟩ := fitting?_eq_some_iff.1 h
  refine ⟨symbol, params, ?_, hparams, hlength⟩
  rw [hid, Option.bind_some, hsymbol, Option.map_some]

/-- A candidate that fits is bound if the attempt at it succeeds. -/
theorem tryCandidates_bound {id : Nat} (h : fitting? table usage c = some (c, id))
    (hattempt : attempt usage solver id w = .ok variant w') :
    tryCandidates table usage solver (c :: cs) w = .ok ⟨some (.resolved c variant), [c], []⟩ w' := by
  obtain ⟨symbol, params, hfound, hparams, hlength⟩ := found_of_fits h
  rw [tryCandidates]
  simp only [hfound, hparams, hlength, ne_eq, not_true_eq_false, if_false]
  exact bind_eq_ok_iff.2 ⟨_, _, orRollback_of_ok hattempt, rfl⟩

/-- If the attempt fails, the others are tried from what it left. -/
theorem tryCandidates_rejected {id : Nat} (h : fitting? table usage c = some (c, id))
    (hattempt : attempt usage solver id w = .error e w₁) :
    tryCandidates table usage solver (c :: cs) w = (do
      let trial ← tryCandidates table usage solver cs
      return { trial with considered := c :: trial.considered, rejections := e :: trial.rejections })
      ⟨w₁.graph, w₁.variants.rollback w.variants.watermark⟩ := by
  obtain ⟨symbol, params, hfound, hparams, hlength⟩ := found_of_fits h
  rw [tryCandidates]
  simp only [hfound, hparams, hlength, ne_eq, not_true_eq_false, if_false]
  change EStateM.bind (orRollback (attempt usage solver id)) _ w = _
  rw [EStateM.bind, orRollback_of_error hattempt]

/-- A candidate that fits is attempted, and the others are tried if it fails. -/
theorem tries_fit_iff {id : Nat} (h : fitting? table usage c = some (c, id)) :
    Tries table usage solver (c :: cs) w bound w' ↔
      (∃ variant, attempt usage solver id w = .ok variant w' ∧ bound = some (.resolved c variant)) ∨
      ∃ e w₁, attempt usage solver id w = .error e w₁ ∧
        Tries table usage solver cs ⟨w₁.graph, w₁.variants.rollback w.variants.watermark⟩ bound w' := by
  unfold Tries
  cases hattempt : attempt usage solver id w with
  | ok variant w₂ =>
    rw [tryCandidates_bound h hattempt]
    constructor
    · rintro ⟨trial, htrial, rfl⟩
      cases htrial
      exact .inl ⟨variant, rfl, rfl⟩
    · rintro (⟨variant', heq, rfl⟩ | ⟨e, w₁, heq, -⟩)
      · cases heq
        exact ⟨_, rfl, rfl⟩
      · cases heq
  | error e w₂ =>
    rw [tryCandidates_rejected h hattempt]
    constructor
    · rintro ⟨trial, htrial, rfl⟩
      obtain ⟨rest, hrest, rfl⟩ := bind_pure_eq_ok_iff.1 htrial
      exact .inr ⟨e, w₂, rfl, rest, hrest, rfl⟩
    · rintro (⟨variant, heq, -⟩ | ⟨e', w₁, heq, rest, hrest, rfl⟩)
      · cases heq
      · cases heq
        exact ⟨_, bind_pure_eq_ok_iff.2 ⟨rest, hrest, rfl⟩, rfl⟩

/-- A candidate accepts the use, or it is passed over and the others are tried. -/
theorem tries_cons_iff : Tries table usage solver (c :: cs) w bound w' ↔
    (∃ target, Accepts table usage solver c w target w' ∧ bound = some target) ∨
      ∃ w₁, PassesOver table usage solver c w w₁ ∧ Tries table usage solver cs w₁ bound w' := by
  cases hfitting : fitting? table usage c with
  | none =>
    rw [tries_unfit_iff hfitting]
    constructor
    · exact fun h => .inr ⟨w, .unfit hfitting, h⟩
    · rintro (⟨target, ⟨id, variant, h, -⟩, -⟩ | ⟨w₁, hc, h⟩)
      · cases hfitting.symm.trans h
      · cases hc with
        | unfit => exact h
        | rejected hfit => cases hfitting.symm.trans hfit
  | some found =>
    obtain ⟨path, id⟩ := found
    obtain rfl : c = path := (fitting?_eq_some_iff.1 hfitting).1
    rw [tries_fit_iff hfitting]
    refine or_congr ⟨?_, ?_⟩ ⟨?_, ?_⟩
    · rintro ⟨variant, hattempt, rfl⟩
      exact ⟨_, ⟨id, variant, hfitting, hattempt, rfl⟩, rfl⟩
    · rintro ⟨target, ⟨id', variant, h, hattempt, rfl⟩, rfl⟩
      cases hfitting.symm.trans h
      exact ⟨variant, hattempt, rfl⟩
    · rintro ⟨e, w₁, hattempt, hrest⟩
      exact ⟨_, .rejected hfitting hattempt, hrest⟩
    · rintro ⟨w₁, hc, hrest⟩
      cases hc with
      | unfit h => cases hfitting.symm.trans h
      | rejected h hattempt =>
        cases hfitting.symm.trans h
        exact ⟨_, _, hattempt, hrest⟩

theorem tries_some_iff :
    Tries table usage solver cs w (some target) w' ↔ BindsFirst table usage solver cs w target w' := by
  induction cs generalizing w with
  | nil => simp [tries_nil_iff, bindsFirst_nil]
  | cons c cs ih =>
    rw [tries_cons_iff, bindsFirst_cons_iff]
    refine or_congr ⟨?_, fun h => ⟨target, h, rfl⟩⟩ (exists_congr fun w₁ => and_congr_right fun _ => ih)
    rintro ⟨target', h, heq⟩
    cases heq
    exact h

theorem tries_none_iff : Tries table usage solver cs w none w' ↔ PassesOverAll table usage solver cs w w' := by
  induction cs generalizing w with
  | nil =>
    rw [tries_nil_iff]
    constructor
    · rintro ⟨-, rfl⟩
      exact .nil
    · rintro ⟨⟩
      exact ⟨rfl, rfl⟩
  | cons c cs ih =>
    rw [tries_cons_iff, passesOverAll_cons_iff]
    simp only [reduceCtorEq, and_false, exists_false, false_or, ih]

theorem exists_tries (cs : List Path) (w : Workspace) : ∃ bound w', Tries table usage solver cs w bound w' := by
  induction cs generalizing w with
  | nil => exact ⟨none, w, tries_nil_iff.2 ⟨rfl, rfl⟩⟩
  | cons c cs ih =>
    cases hfitting : fitting? table usage c with
    | none =>
      obtain ⟨bound, w', h⟩ := ih w
      exact ⟨bound, w', (tries_unfit_iff hfitting).2 h⟩
    | some found =>
      obtain ⟨path, id⟩ := found
      obtain rfl : c = path := (fitting?_eq_some_iff.1 hfitting).1
      cases hattempt : attempt usage solver id w with
      | ok variant w' => exact ⟨_, w', (tries_fit_iff hfitting).2 (.inl ⟨variant, hattempt, rfl⟩)⟩
      | error e w₁ =>
        obtain ⟨bound, w', h⟩ := ih ⟨w₁.graph, w₁.variants.rollback w.variants.watermark⟩
        exact ⟨bound, w', (tries_fit_iff hfitting).2 (.inr ⟨e, w₁, hattempt, h⟩)⟩

theorem tries_filter_iff : Tries table usage solver (cs.filter fun c => (table.lookup c).isSome) w bound w' ↔
    Tries table usage solver cs w bound w' := by
  induction cs generalizing w with
  | nil => rfl
  | cons c cs ih =>
    cases hlookup : table.lookup c with
    | none =>
      have hunfit : fitting? table usage c = none := by simp [fitting?, hlookup]
      rw [List.filter_cons_of_neg (by simp [hlookup]), tries_unfit_iff hunfit, ih]
    | some id =>
      rw [List.filter_cons_of_pos (by simp [hlookup]), tries_cons_iff, tries_cons_iff]
      simp only [ih]

/-! ### Binding a use -/

section bindCall

variable {solver : Nat → Span → SolveM Solved}

/-- A use is bound to the first candidate that accepts it, from the most specific one on. -/
theorem bindCall_ok_iff : bindCall table user solver usage w = .ok target w' ↔
    BindsFirst table usage (solver · usage.span) (candidates table user usage).reverse w target w' := by
  rw [← tries_some_iff]
  constructor
  · intro h
    obtain ⟨⟨bound, considered, rejections⟩, w₁, htrial, h⟩ := bind_eq_ok_iff.1 h
    cases bound with
    | some target' =>
      obtain ⟨rfl, rfl⟩ := pure_eq_ok_iff.1 h
      exact ⟨_, htrial, rfl⟩
    | none =>
      rcases rejections with _ | ⟨e, _ | ⟨e', rest⟩⟩
      all_goals exact (throw_eq_ok_iff.1 h).elim
  · rintro ⟨⟨bound, considered, rejections⟩, htrial, rfl⟩
    exact bind_eq_ok_iff.2 ⟨_, w', htrial, rfl⟩

/-- Binding a use is an error exactly if all candidates are passed over. -/
theorem bindCall_error_iff : (∃ e, bindCall table user solver usage w = .error e w') ↔
    PassesOverAll table usage (solver · usage.span) (candidates table user usage).reverse w w' := by
  rw [← tries_none_iff]
  constructor
  · rintro ⟨e, h⟩
    rcases bind_eq_error_iff.1 h with hfails | ⟨⟨bound, considered, rejections⟩, w₁, htrial, h⟩
    · obtain ⟨bound, w₁, trial, htrial, -⟩ : ∃ bound w₁, Tries table usage (solver · usage.span)
        (candidates table user usage).reverse w bound w₁ := exists_tries _ w
      cases hfails.symm.trans htrial
    · cases bound with
      | some target' => cases h
      | none =>
        obtain rfl : w₁ = w' := by
          rcases rejections with _ | ⟨e, _ | ⟨e', rest⟩⟩ <;> cases h <;> rfl
        exact ⟨_, htrial, rfl⟩
  · rintro ⟨⟨bound, considered, rejections⟩, htrial, rfl⟩
    rcases rejections with _ | ⟨e, _ | ⟨e', rest⟩⟩
    all_goals exact ⟨_, bind_eq_error_iff.2 (.inr ⟨_, w', htrial, rfl⟩)⟩

end bindCall
end SolveM

/-! ### The places of a short path -/

namespace Path

variable {p q r : Path}

theorem join_left_inj : p.join r = q.join r ↔ p = q := by
  cases p
  cases q
  simp [join]

theorem join_eq_right_iff : p.join r = r ↔ p = ⟨[]⟩ := by
  cases p
  cases r
  simp [join]

end Path

/-- The places where the symbol `user` looks for a short path, the most specific first: its module, the path as it is
written, the core module. None is mentioned again. -/
def SymbolTable.places (short user : Path) : List Path :=
  [user.module.join short, short, corePath.join short].eraseDups

namespace SymbolTable

variable {t : SymbolTable} {short user : Path}

theorem corePath_join_ne (short : Path) : corePath.join short ≠ short := fun h => by
  cases Path.join_eq_right_iff.1 h

/-- Outside the core module a path is expanded to its places, the most specific last. -/
theorem expand_modules (h : user.module ≠ corePath) :
    (Expansion.modules.expand short user).reverse = places short user := by
  have hcore : user.module.join short ≠ corePath.join short := fun heq => h (Path.join_left_inj.1 heq)
  have hne := corePath_join_ne short
  unfold Expansion.expand places
  by_cases hmodule : user.module.join short = short
  · simp [List.eraseDups_cons, hmodule, hne, hne.symm]
  · simp [List.eraseDups_cons, hmodule, hcore, hcore.symm, hne, hne.symm, Ne.symm hmodule]

/-- Inside the core module, the core module comes last. -/
theorem expand_modules_core (h : user.module = corePath) :
    (Expansion.modules.expand short user).reverse = [short, corePath.join short] := by
  have hne := corePath_join_ne short
  simp [Expansion.expand, List.eraseDups_cons, h, hne.symm]

theorem places_core (h : user.module = corePath) : places short user = [corePath.join short, short] := by
  have hne := corePath_join_ne short
  simp [places, List.eraseDups_cons, h, hne.symm]

/-- The symbol that a short path means, looking in the most specific place first. -/
def mostSpecific? (t : SymbolTable) (short user : Path) : Option Nat :=
  t.lookup (user.module.join short) <|> t.lookup short <|> t.lookup (corePath.join short)

theorem findSome?_places (t : SymbolTable) (short user : Path) :
    (places short user).findSome? t.lookup = t.mostSpecific? short user := by
  have hne := corePath_join_ne short
  unfold mostSpecific?
  by_cases hcore : user.module = corePath
  · rw [places_core hcore, hcore]
    cases hown : t.lookup (corePath.join short) <;> cases hwritten : t.lookup short <;> simp [hown, hwritten]
  · by_cases hmodule : user.module.join short = short
    · have hplaces : places short user = [short, corePath.join short] := by
        simp [places, List.eraseDups_cons, hmodule, hne]
      rw [hplaces, hmodule]
      cases hown : t.lookup (corePath.join short) <;> cases hwritten : t.lookup short <;> simp [hown, hwritten]
    · have hcore' : corePath.join short ≠ user.module.join short := fun heq => hcore (Path.join_left_inj.1 heq).symm
      have hplaces : places short user = [user.module.join short, short, corePath.join short] := by
        simp [places, List.eraseDups_cons, Ne.symm hmodule, hcore', hne]
      rw [hplaces]
      cases hinner : t.lookup (user.module.join short) <;> cases hwritten : t.lookup short <;>
        cases hown : t.lookup (corePath.join short) <;> simp [hinner, hown, hwritten]

/-- A symbol outside the core module is in the way of the core module's own: the user is inside it, and both the path
as written and the core module's name a symbol. -/
def Obscured (t : SymbolTable) (short user : Path) : Prop :=
  user.module = corePath ∧ (t.lookup short).isSome = true ∧ (t.lookup (corePath.join short)).isSome = true

/-- Apart from places without a symbol, expansion lists the places, unless a symbol is in the way. -/
theorem filter_expand (ht : t.expansion = .modules) (h : ¬ t.Obscured short user) :
    (t.expand short user).reverse.filter (fun c => (t.lookup c).isSome) =
      (places short user).filter fun c => (t.lookup c).isSome := by
  rw [expand, ht]
  by_cases hcore : user.module = corePath
  · rw [expand_modules_core hcore, places_core hcore]
    have hone : ¬ ((t.lookup short).isSome = true ∧ (t.lookup (corePath.join short)).isSome = true) :=
      fun hboth => h ⟨hcore, hboth⟩
    cases hwritten : (t.lookup short).isSome <;> cases hown : (t.lookup (corePath.join short)).isSome <;>
      simp_all
  · rw [expand_modules hcore]

theorem lookup_inj {p q : Path} {id : Nat} (hp : t.lookup p = some id) (hq : t.lookup q = some id) : p = q := by
  obtain ⟨hlt, hpath, -⟩ := Array.findIdx?_eq_some_iff_getElem.1 hp
  obtain ⟨_, hpath', -⟩ := Array.findIdx?_eq_some_iff_getElem.1 hq
  exact (beq_iff_eq.1 hpath).symm.trans (beq_iff_eq.1 hpath')

theorem findSome?_filter_lookup (t : SymbolTable) (cs : List Path) :
    (cs.filter fun c => (t.lookup c).isSome).findSome? t.lookup = cs.findSome? t.lookup := by
  induction cs with
  | nil => rfl
  | cons c cs ih =>
    cases hlookup : t.lookup c with
    | none => rw [List.filter_cons_of_neg (by simp [hlookup]), List.findSome?_cons, hlookup, ih]
    | some id => rw [List.filter_cons_of_pos (by simp [hlookup]), List.findSome?_cons, List.findSome?_cons, hlookup]

/-- A short path means the symbol in the most specific place, exactly if none is in the way. -/
theorem resolve_eq_mostSpecific?_iff (ht : t.expansion = .modules) :
    t.resolve short user = t.mostSpecific? short user ↔ ¬ t.Obscured short user := by
  constructor
  · rintro h ⟨hcore, hwritten, hown⟩
    obtain ⟨i, hi⟩ := Option.isSome_iff_exists.1 hwritten
    obtain ⟨j, hj⟩ := Option.isSome_iff_exists.1 hown
    rw [resolve, expand, ht, expand_modules_core hcore, mostSpecific?, hcore, List.findSome?_cons, hi, hj] at h
    cases h
    exact corePath_join_ne short (lookup_inj hj hi)
  · intro h
    rw [resolve, ← findSome?_filter_lookup, filter_expand ht h, findSome?_filter_lookup, findSome?_places]

/-- **Lookup honours specificity.** With the default expansion, a short path means the symbol in the module of the
symbol that refers, if there is one, else the one at the path as written, else the one in the core module, exactly
unless a symbol is in the way of the core module's own; and then the candidates of a call are tried in this order: it
is bound to the first that accepts it, and is an error if none does. -/
theorem lookup_mostSpecific (ht : t.expansion = .modules) (short user : Path) :
    (t.resolve short user = t.mostSpecific? short user ↔ ¬ t.Obscured short user) ∧
    (¬ t.Obscured short user → ∀ (solver : Nat → Span → SolveM Solved) (usage : ProcedureUsage), usage.kind = .call →
      usage.path = short → ∀ w w',
        (∀ target, SolveM.bindCall t user solver usage w = .ok target w' ↔
          SolveM.BindsFirst t usage (solver · usage.span) (places short user) w target w') ∧
        ((∃ e, SolveM.bindCall t user solver usage w = .error e w') ↔
          SolveM.PassesOverAll t usage (solver · usage.span) (places short user) w w')) := by
  refine ⟨resolve_eq_mostSpecific?_iff ht, fun h solver usage hkind hpath w w' => ?_⟩
  have hcandidates : SolveM.candidates t user usage = t.expand short user := by
    rw [SolveM.candidates, hkind, hpath]
  have htries (bound : Option Target) :
      SolveM.Tries t usage (solver · usage.span) (SolveM.candidates t user usage).reverse w bound w' ↔
        SolveM.Tries t usage (solver · usage.span) (places short user) w bound w' := by
    rw [hcandidates, ← SolveM.tries_filter_iff, filter_expand ht h, SolveM.tries_filter_iff]
  constructor
  · intro target
    rw [SolveM.bindCall_ok_iff, ← SolveM.tries_some_iff, htries, SolveM.tries_some_iff]
  · rw [SolveM.bindCall_error_iff, ← SolveM.tries_none_iff, htries, SolveM.tries_none_iff]

/-- A path that names a symbol in every place: it means the one in the module, and a call without arguments is an
error, as each of the three wants one. -/
theorem lookup_mostSpecific_everywhere :
    let f (path : Path) : Symbol := ⟨path, .none, .procedure ["x"] []⟩
    let short : Path := .single "f"
    let user : Path := ⟨["app", "main"]⟩
    let t : SymbolTable := ⟨#[f (corePath.join short), f short, f ⟨["app", "f"]⟩], .modules⟩
    ¬ t.Obscured short user ∧ t.resolve short user = some 2 ∧
      ∀ (solver : Nat → Span → SolveM Solved) (w : Workspace),
        ∃ e, SolveM.bindCall t user solver ⟨short, .call, [], [], ⟨0⟩, .none⟩ w = .error e w := by
  intro f short user t
  have hclear : ¬ t.Obscured short user := fun h => absurd h.1 (by decide)
  obtain ⟨hresolve, hcalls⟩ := lookup_mostSpecific (t := t) rfl short user
  have hfirst : t.mostSpecific? short user = some 2 := by
    have hlookup : t.lookup (user.module.join short) = some 2 := by
      rw [lookup, List.findIdx?_toArray]
      decide
    rw [mostSpecific?, hlookup]
    rfl
  have hunfit (c : Path) : SolveM.fitting? t ⟨short, .call, [], [], ⟨0⟩, .none⟩ c = none := by
    refine Option.eq_none_iff_forall_ne_some.2 fun ⟨path, id⟩ h => ?_
    obtain ⟨-, -, symbol, params, hsymbol, hparams, hlength⟩ := SolveM.fitting?_eq_some_iff.1 h
    have hmem : symbol ∈ t.symbols := Array.mem_of_getElem? hsymbol
    simp only [t, f, List.mem_toArray, List.mem_cons, List.not_mem_nil, or_false] at hmem
    rcases hmem with rfl | rfl | rfl <;> cases hparams <;> cases hlength
  refine ⟨hclear, (hresolve.2 hclear).trans hfirst, fun solver w => ?_⟩
  refine (hcalls hclear solver ⟨short, .call, [], [], ⟨0⟩, .none⟩ rfl rfl w w).2.2 ?_
  rw [show places short user = [⟨["app", "f"]⟩, short, corePath.join short] by decide]
  exact .cons (.unfit (hunfit _)) (.cons (.unfit (hunfit _)) (.cons (.unfit (hunfit _)) .nil))

/-- Inside the core module, `range` means a user's symbol of this name at the top level, though the core module has
its own: the two are numbers `0` and `12`. -/
theorem resolve_obscured :
    let mine : Symbol := ⟨.single "range", .none, .procedure ["a", "b"] []⟩
    let t : SymbolTable := ⟨(mine :: Core.symbols).toArray, .modules⟩
    let user : Path := ⟨["core", "range_incl"]⟩
    t.Obscured (.single "range") user ∧ t.resolve (.single "range") user = some 0 ∧
      t.mostSpecific? (.single "range") user = some 12 := by
  intro mine t user
  simp only [Obscured, t, mine, user]
  refine ⟨⟨by decide, ?_, ?_⟩, ?_, ?_⟩ <;> cbv

end SymbolTable
end Monomorph
