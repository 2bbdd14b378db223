import Mathlib
import Monomorph.Proofs.Solve.Candidates
import Monomorph.Proofs.Solve.Commits
import Monomorph.Proofs.Solve.Orders

/-! # What solving leaves alone

All symbols are solved in one graph of types, in which nothing is undone: of what fails, only the variants are
dropped. So a symbol that is solved may change types that were there before, but only those that share something with
what it may use: a module variable that was kept, the declared type of an external one, or a symbol that is being
solved (`Workspace.Exposes`). Every other type keeps its class and how it displays (`Workspace.LeavesAlone`).

* `SolveM.passesOver_leavesAlone`: trying candidates that are passed over, also where one of them fails after it was
  unified with copies of the call. Every native procedure among them must take as many arguments as it declares
  parameters (`SymbolTable.Exact`), so that a trial predicts the commit.
* `Program.checkSymbol_leavesAlone`: solving any symbol at any point of a check.

In both cases what is exposed may change: `SolveM.passesOver_commits`, `Program.checkSymbol_narrows`. -/

namespace Monomorph

open Outcome TypeGraph
open SolveM (TypesChangeIn typesChangeIn_kept)
open Workspace (Hosts)

namespace Workspace

variable {table : SymbolTable} {T : Set Nat} {stack : List Activation} {w w' : Workspace}

/-- The types are well-formed, and what symbols share with what was there before is made of variables that exist. -/
structure Formed (table : SymbolTable) (stack : List Activation) (w : Workspace) : Prop where
  wellFormed : w.graph.WellFormed
  shared : ∀ {v}, w.Shares table Set.univ v → v.index < w.graph.size
  active : ∀ a ∈ stack, w.graph.Allocated (a.solved.returns :: a.solved.args)
  /-- A symbol that is being solved has an argument for each parameter. -/
  arity : ∀ a ∈ stack, a.solved.args.length = table.arity a.symbol

/-- The types that are there already and that some symbols may use: those that they share, and the signatures of those
among them that are being solved. -/
inductive Exposes (table : SymbolTable) (T : Set Nat) (stack : List Activation) (w : Workspace) : TypeVar → Prop where
  | shared {v : TypeVar} (h : w.Shares table T v) : Exposes table T stack w v
  | active {a : Activation} {v : TypeVar} (ha : a ∈ stack) (hid : a.symbol ∈ T)
    (hv : v ∈ a.solved.returns :: a.solved.args) : Exposes table T stack w v

/-- Types that have nothing in common with those that some symbols may use are as they were. -/
structure LeavesAlone (table : SymbolTable) (ids : Set Nat) (stack : List Activation) (w w' : Workspace) : Prop where
  formed : Formed table stack w'
  undisturbed : ∀ v : TypeVar, v.index < w.graph.size →
    w.graph.Apart {u | w.Exposes table (table.involved ids) stack u} v → Undisturbed w.graph w'.graph v

def sharedTypes (table : SymbolTable) (w : Workspace) : List TypeVar :=
  (List.range table.size).flatMap fun id =>
    match table.get? id with
    | some symbol =>
      symbol.declaration.vars ++
        if symbol.declaration.isProcedure then [] else (w.variants.ofSymbol id).map Variant.returns
    | none => []

theorem Shares.mem_sharedTypes {v : TypeVar} (h : w.Shares table T v) : v ∈ w.sharedTypes table := by
  cases h with
  | kept _ hsymbol hsuits hkept =>
    refine List.mem_flatMap.2 ⟨_, List.mem_range.2 (Array.getElem?_eq_some_iff.1 hsymbol).1, ?_⟩
    rw [hsymbol]
    exact List.mem_append_right _ (by simpa [show _ = false from hsuits] using ⟨_, hkept, rfl⟩)
  | declared _ hsymbol hv =>
    refine List.mem_flatMap.2 ⟨_, List.mem_range.2 (Array.getElem?_eq_some_iff.1 hsymbol).1, ?_⟩
    rw [hsymbol]
    exact List.mem_append_left _ hv

theorem Shares.univ {v : TypeVar} (h : w.Shares table T v) : w.Shares table Set.univ v := by
  cases h with
  | kept _ hsymbol hsuits hkept => exact .kept trivial hsymbol hsuits hkept
  | declared _ hsymbol hv => exact .declared trivial hsymbol hv

namespace Formed

theorem hosts_univ (h : Formed table stack w) : Hosts table Set.univ Set.univ w :=
  ⟨h.wellFormed.closed, fun hv => ⟨trivial, h.shared hv⟩⟩

theorem offered_univ (h : Formed table stack w) : StackOffered table Set.univ Set.univ stack w :=
  fun a ha _ => ⟨(h.active a ha).known, (h.arity a ha).le⟩

/-- All that the types lead to which some symbols may use, and what is not allocated. -/
def region (_ : Formed table stack w) (ids : Set Nat) : Set TypeVar :=
  w.graph.ambit {v | w.Exposes table (table.involved ids) stack v}

theorem hosts (h : Formed table stack w) (ids : Set Nat) : Hosts table (table.involved ids) (h.region ids) w :=
  ⟨h.wellFormed.closed_ambit _, fun hv => ⟨.inl ⟨_, .shared hv, .refl⟩, h.shared hv.univ⟩⟩

theorem offered (h : Formed table stack w) (ids : Set Nat) :
    StackOffered table (table.involved ids) (h.region ids) stack w :=
  fun a ha hT => ⟨fun v hv => ⟨.inl ⟨v, .active ha hT hv, .refl⟩, h.active a ha v hv⟩, (h.arity a ha).le⟩

/-- After changes of types, in a workspace that hosts what is shared. -/
theorem after (h : Formed table stack w) (hhosts : Hosts table Set.univ Set.univ w')
    (hsize : w.graph.size ≤ w'.graph.size) : Formed table stack w' :=
  ⟨hhosts.closed.wellFormed, fun hv => (hhosts.shared hv).2, fun a ha => (h.active a ha).mono hsize, h.arity⟩

/-- What is confined to the types that some symbols may use leaves all others alone. -/
theorem leavesAlone {ids : Set Nat} (h : Formed table stack w) (h' : Formed table stack w')
    (hhosts : Hosts table (table.involved ids) (h.region ids) w') (hchanges : TypesChangeIn (h.region ids) w w') :
    LeavesAlone table ids stack w w' :=
  ⟨h', fun _ hv hapart => hchanges.undisturbed (h.wellFormed.closed_ambit _) hhosts.closed
    (hapart.notMem_ambit h.wellFormed hv)⟩

end Formed

end Workspace

open Workspace (Formed LeavesAlone)

/-- Where no symbol is being solved, what has nothing in common with the types that symbols share is as it was. -/
theorem Workspace.LeavesAlone.of_apart {table : SymbolTable} {ids : Set Nat} {w w' : Workspace} {v : TypeVar}
    (h : LeavesAlone table ids [] w w') (hv : v.index < w.graph.size)
    (hapart : w.graph.Apart {u | u ∈ w.sharedTypes table} v) : Undisturbed w.graph w'.graph v := by
  refine h.undisturbed v hv (hapart.mono fun u hu => ?_)
  cases hu with
  | shared hshared => exact hshared.mem_sharedTypes
  | active ha => cases ha

/-! ### Solving -/

section solving

variable {table : SymbolTable} {keep : Bool} {stack : List Activation} {request : Request} {id : Nat} {w w' : Workspace}

/-- However solving a symbol ends, it leaves alone what the symbol may not use. -/
theorem solve_leavesAlone (hrange : ∀ symbol ∈ table.symbols, symbol.declaration.InRange) (hfitting : table.Fitting)
    (h : Formed table stack w) : KeepsAt (LeavesAlone table {id} stack) (solve table keep stack request id) w := by
  have huniv := solve_confined (s := Set.univ) hrange hfitting table.asking_univ keep stack (fun _ ht => ht) request id
    trivial
  have hregion := solve_confined (s := h.region {id}) hrange hfitting (table.asking_involved {id}) keep stack
    (fun _ ht => ht) request id (SymbolTable.mem_involved rfl)
  constructor
  · intro solved w' hok
    obtain ⟨hhosts, hchanges, -⟩ := huniv.ok h.hosts_univ h.offered_univ.always hok
    obtain ⟨hhosts', hchanges', -⟩ := hregion.ok (h.hosts _) (h.offered _).always hok
    exact h.leavesAlone (h.after hhosts hchanges.size_le) hhosts' hchanges'
  · intro e w' herror
    obtain ⟨hhosts, hchanges⟩ := huniv.error h.hosts_univ h.offered_univ.always herror
    obtain ⟨hhosts', hchanges'⟩ := hregion.error (h.hosts _) (h.offered _).always herror
    exact h.leavesAlone (h.after hhosts hchanges.size_le) hhosts' hchanges'

end solving

/-! ### Candidates that are passed over -/

namespace SolveM

section passesOver

variable {table : SymbolTable} {keep : Bool} {stack : List Activation} {usage : ProcedureUsage} {T : Set Nat}
  {s : Set TypeVar} {w w' : Workspace}

theorem attempt_evolves (usage : ProcedureUsage) (id : Nat) :
    Keeps (Workspace.Evolves keep (busy stack)) (attempt usage (candidateSolver table keep stack usage) id) :=
  Workspace.evolves_kept.bind (solve_evolves table keep stack _ id) fun _ =>
    Workspace.evolves_kept.bind acceptCall_evolves fun _ => Workspace.evolves_kept.pure _

/-- What a failing attempt changes is in the region if the symbols in question have their types there; the call itself
may be elsewhere, since only copies of it were unified. -/
theorem attempt_error (hrange : ∀ symbol ∈ table.symbols, symbol.declaration.InRange) (hexact : table.Exact)
    (h : Formed table stack w) (husage : w.graph.Allocated (usage.returns :: usage.args)) (hT : table.Asking T)
    {id : Nat} (hid : id ∈ T) (hhosts : Hosts table T s w) (hoffered : StackOffered table T s stack w)
    (harity : table.arity id = usage.args.length) {e : TypeError}
    (hrun : attempt usage (candidateSolver table keep stack usage) id w = .error e w') :
    Hosts table T s w' ∧ TypesChangeIn s w w' := by
  have hsolve := solve_confined (s := s) hrange hexact.fitting hT keep stack (fun _ ht => ht)
    (.procedure (some usage.span)) id hid
  rcases bind_eq_error_iff.1 hrun with hrun | ⟨solved, w₁, hsolved, hrun⟩
  · exact hsolve.error hhosts hoffered.always hrun
  -- The candidate is solved, so it is the trial that fails: after the trial the commit succeeds.
  obtain ⟨hhosts₁, hchanges₁, -⟩ := hsolve.ok hhosts hoffered.always hsolved
  have hlength : solved.args.length = usage.args.length := SolvedFor.length_eq ⟨h.arity, harity, hsolved⟩ hexact
  have hpredicts : Predicts usage solved w₁ := by
    obtain ⟨huniv, -, hsignature⟩ := (solve_confined (s := Set.univ) hrange hexact.fitting table.asking_univ keep stack
      (fun _ ht => ht) (.procedure (some usage.span)) id trivial).ok h.hosts_univ h.offered_univ.always hsolved
    have hsignature := (hsignature.here (typesChangeIn_kept _)).known.allocated
    have husage := husage.mono hchanges₁.size_le
    refine unifyCopies_predicts huniv.closed.wellFormed fun v hv => ?_
    simp only [SolveM.involved, List.mem_append, List.mem_singleton] at hv
    grind
  have hfails : acceptCall usage solved w₁ = .error e w' := by
    rcases bind_eq_error_iff.1 hrun with hrun | ⟨u, w₂, -, hrun⟩
    · exact hrun
    · cases hrun
  rw [acceptCall_eq] at hfails
  rcases bind_eq_error_iff.1 hfails with htrial | ⟨u, w₂, htrial, hcommit⟩
  · have hconfined : Confined table T s (fun _ => True) (trial usage solved) fun _ _ => True :=
      trial_confined hlength.le
    obtain ⟨hhosts', hchanges⟩ := hconfined.error hhosts₁ (fun _ _ => trivial) htrial
    exact ⟨hhosts', (typesChangeIn_kept s).trans hchanges₁ hchanges⟩
  · obtain ⟨w'', hsucceeds, -⟩ := hpredicts.accepted hlength w₂ htrial
    cases hsucceeds.symm.trans hcommit

/-- Candidates that are passed over leave the variants as they are, and their changes to types are in the region. -/
theorem passesOverAll_confined (hrange : ∀ symbol ∈ table.symbols, symbol.declaration.InRange) (hexact : table.Exact)
    (hT : table.Asking T) {cs : List Path} (hcs : ∀ c ∈ cs, ∀ id, table.lookup c = some id → id ∈ T)
    (hpasses : PassesOverAll table usage (candidateSolver table keep stack usage) cs w w')
    (h : Formed table stack w) (husage : w.graph.Allocated (usage.returns :: usage.args)) (hhosts : Hosts table T s w)
    (hoffered : StackOffered table T s stack w) :
    w'.variants = w.variants ∧ Formed table stack w' ∧ Hosts table T s w' ∧ TypesChangeIn s w w' := by
  induction hpasses with
  | nil => exact ⟨rfl, h, hhosts, (typesChangeIn_kept s).refl _⟩
  | @cons c cs w w₁ w' hc _ ih =>
    obtain ⟨hvariants₁, h₁, hhosts₁, hchanges₁⟩ : w₁.variants = w.variants ∧ Formed table stack w₁ ∧
        Hosts table T s w₁ ∧ TypesChangeIn s w w₁ := by
      cases hc with
      | unfit => exact ⟨rfl, h, hhosts, (typesChangeIn_kept s).refl _⟩
      | @rejected id e w₂ hfits hfailed =>
        obtain ⟨-, hlookup, symbol, params, hsymbol, hparams, hlength⟩ := fitting?_eq_some_iff.1 hfits
        have harity : table.arity id = usage.args.length := (table.arity_eq hsymbol hparams).trans hlength
        have hdropped := VariantStore.ofSymbol_rollback_subset w₂.variants w.variants.watermark
        have hstays (s : Set TypeVar) := (typesChangeIn_kept s).refl w₂
        obtain ⟨huniv, hsize⟩ := attempt_error hrange hexact h husage table.asking_univ trivial h.hosts_univ
          h.offered_univ harity hfailed
        obtain ⟨hhosts₂, hchanges₂⟩ := attempt_error hrange hexact h husage hT
          (hcs c List.mem_cons_self id hlookup) hhosts hoffered harity hfailed
        exact ⟨VariantStore.rollback_watermark ((attempt_evolves usage id w).error hfailed).variants,
          h.after (huniv.after hdropped huniv.closed (hstays _)) hsize.size_le,
          hhosts₂.after hdropped hhosts₂.closed (hstays s), hchanges₂⟩
    obtain ⟨hvariants', h', hhosts', hchanges'⟩ := ih (fun c hc => hcs c (List.mem_cons_of_mem _ hc)) h₁
      (husage.mono hchanges₁.size_le) hhosts₁ (hoffered.always _ hchanges₁)
    exact ⟨hvariants'.trans hvariants₁, h', hhosts', (typesChangeIn_kept s).trans hchanges₁ hchanges'⟩

/-- **Candidates that are passed over leave alone what they may not use.** -/
theorem passesOver_leavesAlone (hrange : ∀ symbol ∈ table.symbols, symbol.declaration.InRange) (hexact : table.Exact)
    (h : Formed table stack w) (husage : w.graph.Allocated (usage.returns :: usage.args)) {cs : List Path}
    (hpasses : PassesOverAll table usage (candidateSolver table keep stack usage) cs w w') :
    w'.variants = w.variants ∧ LeavesAlone table {id | ∃ c ∈ cs, table.lookup c = some id} stack w w' := by
  obtain ⟨hvariants, h', hhosts, hchanges⟩ := passesOverAll_confined hrange hexact
    (table.asking_involved {id | ∃ c ∈ cs, table.lookup c = some id})
    (fun c hc id hid => SymbolTable.mem_involved ⟨c, hc, hid⟩) hpasses h husage (h.hosts _) (h.offered _)
  exact ⟨hvariants, h.leavesAlone h' hhosts hchanges⟩

end passesOver

section callingForth

/-- A procedure that makes a call and gives back its argument, a candidate for this call that calls the first one back
with a string before it fails, and one that accepts the call. -/
def callingForth : SymbolTable :=
  let m : Mark Unit := ⟨.none, ()⟩
  let call (name : String) (args : List (Expr Unit)) : Expr Unit := .call m (.name m (.single name)) args
  ⟨#[⟨⟨["app", "main"]⟩, .none, .procedure ["x"] [call "k" [], .giveBack m (.name m (.single "x"))]⟩,
    ⟨⟨["app", "k"]⟩, .none, .procedure [] [call "main" [.literal m (.string "s")], call "nowhere" []]⟩,
    ⟨⟨["k"]⟩, .none, .procedure [] []⟩], .modules⟩

/-- The first procedure is being solved. -/
def callingForthStack : List Activation := [⟨0, 0, [⟨0⟩], ⟨1⟩⟩]

def callingForthUsage : ProcedureUsage := ⟨⟨["k"]⟩, .call, [], [], ⟨2⟩, .none⟩

/-- Nothing is known yet of the argument, which is given back. -/
def callingForthWorkspace : Workspace :=
  ⟨⟨#[.root Ty.any, .link 0, .root Ty.any, .root ⟨.unit, some .none⟩]⟩, #[[], [], []]⟩

theorem callingForth_sharesNothing {T : Set Nat} {v : TypeVar} : ¬ callingForthWorkspace.Shares callingForth T v := by
  have hnone : callingForthWorkspace.sharedTypes callingForth = [] := by cbv
  exact fun h => absurd h.mem_sharedTypes (hnone ▸ List.not_mem_nil)

theorem callingForth_formed : Formed callingForth callingForthStack callingForthWorkspace where
  wellFormed := wellFormed_of_cells (by decide)
  shared hv := (callingForth_sharesNothing hv).elim
  active := by decide
  arity := by decide

theorem callingForth_fails : (match attempt callingForthUsage (candidateSolver callingForth true callingForthStack
      callingForthUsage) 1 callingForthWorkspace with
    | .ok .. => none
    | .error _ w₁ => some (w₁.graph.display ⟨0⟩)) = some "str" := by
  cbv

/-- It is passed over, but what it did to the argument of the procedure that is being solved stays. -/
theorem passesOver_commits : Formed callingForth callingForthStack callingForthWorkspace ∧
    ∃ w', PassesOver callingForth callingForthUsage (candidateSolver callingForth true callingForthStack
        callingForthUsage) ⟨["app", "k"]⟩ callingForthWorkspace w' ∧
      callingForthWorkspace.graph.display ⟨0⟩ = "any" ∧ w'.graph.display ⟨0⟩ = "str" := by
  have hfails := callingForth_fails
  split at hfails
  · cases hfails
  · rename_i hfailed
    exact ⟨callingForth_formed, _, .rejected (by cbv) hfailed, by cbv, Option.some.inj hfails⟩

/-- What the call gives back has nothing in common with the procedure's signature and stays as it is. -/
theorem passesOver_leavesAlone_callingForth :
    (∀ symbol ∈ callingForth.symbols, symbol.declaration.InRange) ∧ callingForth.Exact ∧
    Formed callingForth callingForthStack callingForthWorkspace ∧
    callingForthWorkspace.graph.Allocated (callingForthUsage.returns :: callingForthUsage.args) ∧
    ∃ w', PassesOverAll callingForth callingForthUsage (candidateSolver callingForth true callingForthStack
        callingForthUsage) [⟨["app", "k"]⟩] callingForthWorkspace w' ∧
      w'.variants = callingForthWorkspace.variants ∧ Undisturbed callingForthWorkspace.graph w'.graph ⟨2⟩ := by
  have hrange : ∀ symbol ∈ callingForth.symbols, symbol.declaration.InRange := by
    simp [callingForth, Declaration.InRange]
  have hexact : callingForth.Exact := by
    simp [SymbolTable.Exact, Declaration.Exact, callingForth]
  have husage : callingForthWorkspace.graph.Allocated (callingForthUsage.returns :: callingForthUsage.args) := by decide
  have hapart : callingForthWorkspace.graph.isApart [⟨1⟩, ⟨0⟩] ⟨2⟩ = true := by cbv
  have hfails := callingForth_fails
  split at hfails
  · cases hfails
  · rename_i hfailed
    have hpasses : PassesOverAll callingForth callingForthUsage (candidateSolver callingForth true callingForthStack
        callingForthUsage) [⟨["app", "k"]⟩] callingForthWorkspace _ := .cons (.rejected (by cbv) hfailed) .nil
    obtain ⟨hvariants, hleaves⟩ := passesOver_leavesAlone hrange hexact callingForth_formed husage hpasses
    refine ⟨hrange, hexact, callingForth_formed, husage, _, hpasses, hvariants,
      hleaves.undisturbed ⟨2⟩ (by decide) ((isApart_iff.1 hapart).mono fun u hu => ?_)⟩
    cases hu with
    | shared hshared => exact (callingForth_sharesNothing hshared).elim
    | active ha _ hv =>
      obtain rfl := List.mem_singleton.1 ha
      exact hv

end callingForth

end SolveM

/-! ### Checking -/

namespace Program

section checking

variable {table : SymbolTable} {w : Workspace}

theorem checkSymbol_undisturbed (hrange : ∀ symbol ∈ table.symbols, symbol.declaration.InRange)
    (hfitting : table.Fitting) (h : Formed table [] w) (keep : Bool) (id : Nat) :
    LeavesAlone table {id} [] w (checkSymbol table keep id w).2 := by
  have hkeeps : KeepsAt (LeavesAlone table {id} []) (solveSymbol table keep id) w :=
    solve_leavesAlone hrange hfitting h
  rcases hcheck : checkSymbol table keep id w with ⟨_ | e, w'⟩
  · obtain ⟨solved, hsolved⟩ := checkSymbol_ok hcheck
    exact hkeeps.ok hsolved
  · unfold checkSymbol at hcheck
    dsimp only at hcheck
    split at hcheck <;> cases hcheck
    rename_i w' hrun
    obtain ⟨hformed, hundisturbed⟩ := hkeeps.error hrun
    refine ⟨⟨hformed.wellFormed, fun hv => hformed.shared (hv.mono ?_), nofun, nofun⟩, hundisturbed⟩
    exact VariantStore.ofSymbol_rollback_subset _ _

theorem checkSymbols_formed (hrange : ∀ symbol ∈ table.symbols, symbol.declaration.InRange)
    (hfitting : table.Fitting) (h : Formed table [] w) (entries : List Path) (ids : List Nat)
    (errors : List TypeError) : Formed table [] (checkSymbols table entries ids errors w).2 := by
  induction ids generalizing errors w with
  | nil => exact h
  | cons id ids ih => exact ih (checkSymbol_undisturbed hrange hfitting h _ id).formed _

theorem prepared_graph (p : Program) (options : CheckOptions) :
    (p.prepared options).workspace.graph = p.workspace.graph := by
  unfold prepared
  split
  · unfold addCore
    refine List.foldlRecOn (motive := fun q : Program => q.workspace.graph = p.workspace.graph) Core.symbols _ rfl
      fun q hq s _ => ?_
    split <;> exact hq
  · rfl

theorem Grounded.formed {p : Program} (hp : p.Grounded) (hg : p.workspace.graph.WellFormed) :
    Formed p.symbols [] p.workspace where
  wellFormed := hg
  shared hv := by
    cases hv with
    | @kept id _ variant _ _ _ hkept =>
      obtain ⟨i, hi⟩ := List.mem_iff_getElem?.1 hkept
      cases (hp.fresh.find? ⟨id, i⟩).symm.trans hi
    | declared _ hsymbol hv => exact hp.given _ (Array.mem_of_getElem? hsymbol) _ hv
  active := nofun
  arity := nofun

/-- **Solving a symbol in the course of a check disturbs nothing but what the symbol may use.** Whether it is kept or
solved only for its errors, and whether it fails: what was kept stays, and every type that has nothing in common with a
kept module variable or the declared type of an external one that may be used on the way is as it was. -/
theorem checkSymbol_leavesAlone {p : Program} (hp : p.Grounded) (hg : p.workspace.graph.WellFormed)
    (hfitting : ∀ s ∈ p.symbols.symbols, s.declaration.Fitting) (options : CheckOptions) (n : Nat) (keep : Bool)
    (id : Nat) :
    (p.checkedUpTo options n).variants.Grows
        (checkSymbol (p.prepared options).symbols keep id (p.checkedUpTo options n)).2.variants ∧
      LeavesAlone (p.prepared options).symbols {id} [] (p.checkedUpTo options n)
        (checkSymbol (p.prepared options).symbols keep id (p.checkedUpTo options n)).2 := by
  have hgrounded := prepared_grounded hp options
  have hfitting := prepared_forall hfitting core_fitting options
  refine ⟨checkSymbol_grows _ _ _ _, checkSymbol_undisturbed hgrounded.natives hfitting ?_ keep id⟩
  exact checkSymbols_formed hgrounded.natives hfitting (hgrounded.formed (p.prepared_graph options ▸ hg)) _ _ _

end checking

/-- A module variable that holds an empty array, a procedure that gives it back, one that gives back a number, and one
that takes an element of the array for a number. -/
def growing : Program :=
  let m : Mark Unit := ⟨.none, ()⟩
  let procedure (name : String) (value : Expr Unit) : Symbol := ⟨.single name, .none, .procedure [] [.giveBack m value]⟩
  let number (n : Int64) : Expr Unit := .literal m (.integer n)
  ofSymbols .modules
    [⟨.single "xs", .none, .moduleVariable (.array m [])⟩, giving "main" "xs", procedure "count" (number 1),
      procedure "other" (.binary m .add (.element m (.name m (.single "xs")) (number 0)) (number 1))]

/-- The first two procedures are to be kept. -/
def growingOptions : CheckOptions := ⟨[.single "main", .single "count"], false⟩

theorem growing_grounded : growing.Grounded :=
  ofSymbols_grounded _ (by simp [giving, Declaration.InRange, Declaration.vars])

/-- The number that is given back has nothing in common with the array, so it stays when the last procedure is solved
for its errors. -/
theorem checkSymbol_leavesAlone_growing :
    growing.Grounded ∧ growing.workspace.graph.WellFormed ∧
      (∀ s ∈ growing.symbols.symbols, s.declaration.Fitting) ∧
      ∃ v, (growing.checkedUpTo growingOptions 3).variants.find? ⟨2, 0⟩ = some v ∧
        Undisturbed (growing.checkedUpTo growingOptions 3).graph
          (checkSymbol (growing.prepared growingOptions).symbols false 3
            (growing.checkedUpTo growingOptions 3)).2.graph v.returns := by
  have hg : growing.workspace.graph.WellFormed := wellFormed_of_cells nofun
  have hfitting : ∀ s ∈ growing.symbols.symbols, s.declaration.Fitting := by
    rw [show growing.symbols = _ from ofSymbols_symbols .modules (by decide)]
    decide
  have hkept : ((growing.checkedUpTo growingOptions 3).variants.find? ⟨2, 0⟩).any (fun v =>
      decide (v.returns.index < (growing.checkedUpTo growingOptions 3).graph.size) &&
        (growing.checkedUpTo growingOptions 3).graph.isApart
          ((growing.checkedUpTo growingOptions 3).sharedTypes (growing.prepared growingOptions).symbols)
          v.returns) = true := by
    cbv
  obtain ⟨v, hv, hdecided⟩ := (Option.any_eq_true _ _).1 hkept
  obtain ⟨hallocated, hapart⟩ := Bool.and_eq_true_iff.1 hdecided
  obtain ⟨-, hleaves⟩ := checkSymbol_leavesAlone growing_grounded hg hfitting growingOptions 3 false 3
  exact ⟨growing_grounded, hg, hfitting, v, hv, hleaves.of_apart (of_decide_eq_true hallocated) (isApart_iff.1 hapart)⟩

/-- How the type that a kept variant gives back is displayed. -/
def returnsAt (w : Workspace) (k : VariantId) : Option String :=
  (w.variants.find? k).map fun v => w.graph.display v.returns

/-- The array that is given back is that of the module variable: after the last procedure is solved for its errors, of
which it has none, the kept variant gives back an array of integers. -/
theorem checkSymbol_narrows :
    let w := growing.checkedUpTo growingOptions 3
    let checked := checkSymbol (growing.prepared growingOptions).symbols false 3 w
    checked.1 = none ∧ returnsAt w ⟨1, 0⟩ = some "[any]" ∧ returnsAt checked.2 ⟨1, 0⟩ = some "[int]" := by
  refine ⟨?_, ?_, ?_⟩ <;> cbv

end Program

end Monomorph
