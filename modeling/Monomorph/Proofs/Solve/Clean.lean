import Monomorph.Proofs.Solve.Checked
import Monomorph.Proofs.Solve.Soundness

/-! # Checks that reject nothing

A check that finds no error solves every symbol in turn. If it rejects no candidate either
(`Program.RejectsNone`), each is solved outright, so the workspace it ends with is sound
(`Program.check_sound`): in the body of every kept procedure all nodes are typed, and what is called exists. -/

namespace Monomorph

open Outcome
open Workspace (Sound)

namespace Program

/-! ### Regular programs -/

/-- A program in which nothing is solved yet, with regular symbols and well-formed types. -/
structure Regular (p : Program) : Prop where
  fresh : p.Fresh
  symbols : p.symbols.Regular
  wellFormed : p.workspace.graph.WellFormed
  /-- Types that are declared are made of variables that exist. -/
  given : ∀ s ∈ p.symbols.symbols, p.workspace.graph.Allocated s.declaration.vars

theorem empty_regular (expansion : Expansion) : (empty expansion).Regular :=
  ⟨empty_fresh expansion, nofun, TypeGraph.wellFormed_of_cells nofun, nofun⟩

theorem mem_add {table : SymbolTable} {s s' : Symbol} (h : s' ∈ (table.add s).2.symbols) :
    s' = s ∨ s' ∈ table.symbols := by
  unfold SymbolTable.add at h
  split at h
  · exact (Array.mem_or_eq_of_mem_setIfInBounds h).symm
  · exact (Array.mem_push.1 h).symm

theorem add_regular {p : Program} (h : p.Regular) {s : Symbol} (hs : s.declaration.Regular)
    (hgiven : p.workspace.graph.Allocated s.declaration.vars) : (p.add s).2.Regular := by
  refine ⟨add_fresh h.fresh s, fun s' hs' => ?_, h.wellFormed, fun s' hs' => ?_⟩
  · rcases mem_add hs' with rfl | hs'
    · exact hs
    · exact h.symbols s' hs'
  · rcases mem_add hs' with rfl | hs'
    · exact hgiven
    · exact h.given s' hs'

theorem core_regular : ∀ s ∈ Core.symbols, s.declaration.Regular ∧ s.declaration.vars = [] := by
  decide

theorem addCore_regular {p : Program} (h : p.Regular) : p.addCore.Regular := by
  unfold addCore
  refine List.foldlRecOn Core.symbols _ h fun p hp s hs => ?_
  obtain ⟨hregular, hvars⟩ := core_regular s hs
  split
  · exact hp
  · exact add_regular hp hregular (hvars ▸ nofun)

theorem prepared_regular {p : Program} (h : p.Regular) (options : CheckOptions) : (p.prepared options).Regular := by
  unfold prepared
  split
  · exact addCore_regular h
  · exact h

theorem Regular.sound {p : Program} (h : p.Regular) : Sound p.symbols [] p.workspace where
  wellFormed := h.wellFormed
  given := h.given
  size_eq := by rw [h.fresh, Array.size_replicate]
  next := nofun
  active := nofun
  kept hv := by
    rw [h.fresh.find?] at hv
    cases hv
  typed hv := by
    rw [h.fresh.find?] at hv
    cases hv

/-! ### All symbols -/

/-- What a symbol is solved as on its own. -/
def request (table : SymbolTable) (id : Nat) : Request :=
  if (table.get? id).any fun s => s.declaration.isProcedure then .procedure none else .moduleVariable

/-- Whether the variants of a symbol are kept. -/
def isEntry (table : SymbolTable) (entries : List Path) (id : Nat) : Bool :=
  (table.get? id).any fun s => s.path ∈ entries

/-- No candidate is rejected while the symbols are checked in order. -/
def outright (table : SymbolTable) (entries : List Path) (w : Workspace) (n : Nat) : Bool :=
  (List.range n).all fun id => solvesOutright table (isEntry table entries id) [] (request table id) id
    (checkSymbols table entries (List.range id) [] w).2

/-- A check rejects no candidate for any call. -/
def RejectsNone (p : Program) (options : CheckOptions) : Prop :=
  outright (p.prepared options).symbols options.entries (p.prepared options).workspace
    (p.prepared options).symbols.size = true

section checked

variable {table : SymbolTable} {entries : List Path} {w : Workspace}

theorem checkSymbols_append (ids ids' : List Nat) (errors : List TypeError) :
    checkSymbols table entries (ids ++ ids') errors w = checkSymbols table entries ids'
      (checkSymbols table entries ids errors w).1 (checkSymbols table entries ids errors w).2 := by
  induction ids generalizing errors w with
  | nil => rfl
  | cons id ids ih => exact ih _

/-- Where no errors are found, none were found before and each symbol is solved. -/
theorem checkSymbols_concat_nil {ids : List Nat} {id : Nat} {errors : List TypeError}
    (h : (checkSymbols table entries (ids ++ [id]) errors w).1 = []) :
    (checkSymbols table entries ids errors w).1 = [] ∧ ∃ solved,
      solveSymbol table (isEntry table entries id) id (checkSymbols table entries ids errors w).2 =
        .ok solved (checkSymbols table entries (ids ++ [id]) errors w).2 := by
  rw [checkSymbols_append] at h ⊢
  generalize checkSymbols table entries ids errors w = before at h ⊢
  rw [checkSymbols] at h ⊢
  dsimp only [checkSymbols] at h ⊢
  rcases hcheck : checkSymbol table (isEntry table entries id) id before.2 with ⟨_ | e, w'⟩
  · rw [isEntry] at hcheck
    simp only [hcheck] at h ⊢
    exact ⟨h, checkSymbol_ok hcheck⟩
  · rw [isEntry] at hcheck
    simp only [hcheck] at h
    split at h
    · rename_i hmem
      rw [h] at hmem
      cases hmem
    · simp at h

/-- Symbols that are checked without errors and rejections leave the workspace sound. -/
theorem checkSymbols_sound (htable : table.Regular) (hw : Sound table [] w) {n : Nat} {errors : List TypeError}
    (herrors : (checkSymbols table entries (List.range n) errors w).1 = [])
    (houtright : outright table entries w n = true) :
    Sound table [] (checkSymbols table entries (List.range n) errors w).2 := by
  induction n with
  | zero => exact hw
  | succ n ih =>
    rw [outright, List.range_succ, List.all_append, Bool.and_eq_true, List.all_cons, List.all_nil,
      Bool.and_true] at houtright
    obtain ⟨hbefore, hlast⟩ := houtright
    rw [List.range_succ] at herrors ⊢
    obtain ⟨herrors, solved, hsolved⟩ := checkSymbols_concat_nil herrors
    rw [checkSymbols_workspace _ _ _ errors] at hlast
    exact ((solve_sound htable _ [] (fun _ => True) _ n).ok (ih herrors hbefore) (fun _ _ => trivial)
      (SolveM.provided_eq_ok_iff.2 ⟨hlast, hsolved⟩)).1

end checked

/-- A check that finds no error and rejects no candidate ends with a sound workspace. -/
theorem check_sound {p : Program} (hp : p.Regular) {options : CheckOptions} (hcheck : (p.check options).1 = [])
    (hrejects : p.RejectsNone options) :
    Sound (p.check options).2.symbols [] (p.check options).2.workspace :=
  checkSymbols_sound (prepared_regular hp options).symbols (prepared_regular hp options).sound hcheck hrejects

end Program
end Monomorph
