import Mathlib
import Monomorph.Check
import Monomorph.Proofs.Solve.Kept

/-! # What a check keeps

A check solves the symbols one after another, the entries to be kept. From symbols without variants, the
variants kept at the end are exactly those that the entries reach through the references in kept bodies, and
every such reference is resolved to a variant that exists (`Program.check_variants`). -/

namespace Monomorph.Program

open Outcome
open Workspace (Evolves evolves_kept)

/-! ### Programs without variants -/

def Fresh (p : Program) : Prop := p.workspace.variants = Array.replicate p.symbols.size []

theorem empty_fresh (expansion : Expansion) : (empty expansion).Fresh := rfl

theorem add_fresh {p : Program} (h : p.Fresh) (s : Symbol) : (p.add s).2.Fresh := by
  have hadd : (p.add s).2 = ⟨(p.symbols.add s).2, p.workspace.graph,
    VariantStore.clear (.replicate p.symbols.size []) (p.symbols.add s).1⟩ := by rw [← h]; rfl
  rw [Fresh, hadd]
  unfold SymbolTable.add VariantStore.clear
  split
  · rename_i id hid
    have hlt : id < p.symbols.size := by
      obtain ⟨hlt, -⟩ := Array.findIdx?_eq_some_iff_getElem.1 hid
      exact hlt
    rw [Array.size_replicate, if_pos hlt]
    refine Array.ext (by simp [SymbolTable.size]) fun i _ _ => ?_
    simp
  · rw [Array.size_replicate, if_neg (Nat.lt_irrefl _), Array.replicate_append_replicate]
    simp [SymbolTable.size]

theorem addCore_fresh {p : Program} (h : p.Fresh) : p.addCore.Fresh := by
  unfold addCore
  refine List.foldlRecOn Core.symbols _ h fun p hp s _ => ?_
  split
  · exact hp
  · exact add_fresh hp s

theorem Fresh.find? {p : Program} (h : p.Fresh) (k : VariantId) : p.workspace.variants.find? k = none := by
  rw [h, VariantStore.find?, VariantStore.ofSymbol, Array.getD_eq_getD_getElem?, Array.getElem?_replicate]
  split <;> rfl

theorem Fresh.coherent {p : Program} (h : p.Fresh) : Coherent p.symbols [] p.workspace where
  size_eq := by rw [h, Array.size_replicate]
  next := nofun
  accepted hv := by
    rw [h.find?] at hv
    cases hv
  refers hv := by
    rw [h.find?] at hv
    cases hv

/-! ### One symbol -/

variable {table : SymbolTable} {keep : Bool} {id : Nat} {w w' : Workspace}

theorem solveSymbol_evolves (table : SymbolTable) (keep : Bool) (id : Nat) :
    Keeps (Evolves keep []) (solveSymbol table keep id) :=
  solve_evolves table keep [] _ id

/-- A symbol that fails leaves the variants as they were. -/
theorem checkSymbol_error {e : TypeError} (h : checkSymbol table keep id w = (some e, w')) :
    w'.variants = w.variants ∧ w.graph.Sharpens w'.graph := by
  unfold checkSymbol at h
  dsimp only at h
  split at h <;> cases h
  rename_i hrun
  have hevolves := (solveSymbol_evolves table keep id w).error hrun
  exact ⟨VariantStore.rollback_watermark hevolves.variants, hevolves.graph⟩

theorem checkSymbol_ok (h : checkSymbol table keep id w = (none, w')) :
    ∃ solved, solveSymbol table keep id w = .ok solved w' := by
  unfold checkSymbol at h
  dsimp only at h
  split at h <;> cases h
  exact ⟨_, by assumption⟩

theorem checkSymbol_grows (table : SymbolTable) (keep : Bool) (id : Nat) (w : Workspace) :
    w.variants.Grows (checkSymbol table keep id w).2.variants := by
  rcases hcheck : checkSymbol table keep id w with ⟨_ | e, w'⟩
  · obtain ⟨solved, hsolved⟩ := checkSymbol_ok hcheck
    exact ((solveSymbol_evolves table keep id w).ok hsolved).variants
  · exact (checkSymbol_error hcheck).1 ▸ .refl _

/-- What checking one symbol gives: its variant if it is an entry that can be solved. -/
theorem checkSymbol_solves (hw : Coherent table [] w) (keep : Bool) (id : Nat) :
    Solves table [] (fun k => keep = true ∧ k.symbol = id ∧
      ∃ solved w', solveSymbol table true id w = .ok solved w' ∧ solved.variant = k.variant)
      w (checkSymbol table keep id w).2 := by
  rcases hcheck : checkSymbol table keep id w with ⟨_ | e, w'⟩
  · obtain ⟨solved, hsolved⟩ := checkSymbol_ok hcheck
    cases keep with
    | false =>
      have hevolves := (solveSymbol_evolves table false id w).ok hsolved
      exact .of_variants_eq hw (hevolves.unkept rfl) hevolves.graph nofun
    | true =>
      refine ((solve_solves table [] _).solves hw hsolved).congr fun k => ?_
      constructor
      · rintro rfl
        exact ⟨rfl, rfl, solved, w', hsolved, rfl⟩
      · rintro ⟨-, rfl, solved', w'', hsolved', hvariant⟩
        cases hsolved.symm.trans hsolved'
        rw [hvariant]
  · obtain ⟨hvariants, hgraph⟩ := checkSymbol_error hcheck
    refine .of_variants_eq hw hvariants hgraph ?_
    rintro k ⟨rfl, -, solved, w'', hsolved, -⟩
    rw [checkSymbol, hsolved] at hcheck
    cases hcheck

/-! ### All symbols -/

theorem checkSymbols_concat (entries : List Path) (ids : List Nat) (id : Nat) (errors : List TypeError)
    (w : Workspace) :
    (checkSymbols table entries (ids ++ [id]) errors w).2 =
      (checkSymbol table ((table.get? id).any fun s => s.path ∈ entries) id
        (checkSymbols table entries ids errors w).2).2 := by
  induction ids generalizing errors w with
  | nil => rfl
  | cons i ids ih => exact ih _ _

/-- Errors found earlier do not change what is solved. -/
theorem checkSymbols_workspace (entries : List Path) (ids : List Nat) (errors errors' : List TypeError)
    (w : Workspace) :
    (checkSymbols table entries ids errors w).2 = (checkSymbols table entries ids errors' w).2 := by
  induction ids generalizing errors errors' w with
  | nil => rfl
  | cons i ids ih => exact ih _ _ _

/-- The variants of the entries that can be solved where their turn comes. -/
def EntryVariant (table : SymbolTable) (entries : List Path) (w : Workspace) (k : VariantId) : Prop :=
  ∃ symbol solved w', table.get? k.symbol = some symbol ∧ symbol.path ∈ entries ∧
    solveSymbol table true k.symbol (checkSymbols table entries (List.range k.symbol) [] w).2 = .ok solved w' ∧
      solved.variant = k.variant

theorem checkSymbols_solves (hw : Coherent table [] w) (entries : List Path) (n : Nat) :
    Solves table [] (fun k => k.symbol < n ∧ EntryVariant table entries w k) w
      (checkSymbols table entries (List.range n) [] w).2 := by
  induction n with
  | zero => exact .of_variants_eq hw rfl (.refl _) fun ⟨hlt, _⟩ => (Nat.not_lt_zero _ hlt).elim
  | succ n ih =>
    rw [List.range_succ, checkSymbols_concat]
    refine (ih.trans (checkSymbol_solves ih.coherent _ n)).congr fun k => ?_
    constructor
    · rintro (⟨hlt, hentry⟩ | ⟨hkeep, rfl, hsolved⟩)
      · exact ⟨Nat.lt_succ_of_lt hlt, hentry⟩
      · obtain ⟨symbol, hsymbol, hpath⟩ := Option.any_eq_true _ _ |>.1 hkeep
        obtain ⟨solved, w', hsolved⟩ := hsolved
        exact ⟨Nat.lt_succ_self _, symbol, solved, w', hsymbol, of_decide_eq_true hpath, hsolved⟩
    · rintro ⟨hlt, hentry⟩
      rcases Nat.lt_succ_iff_lt_or_eq.1 hlt with hlt | rfl
      · exact .inl ⟨hlt, hentry⟩
      · obtain ⟨symbol, solved, w', hsymbol, hpath, hsolved⟩ := hentry
        refine .inr ⟨?_, rfl, solved, w', hsolved⟩
        rw [hsymbol, Option.any_some, decide_eq_true hpath]

/-! ### The check -/

/-- What a check starts from: the program, with the core symbols if they are asked for. -/
def prepared (p : Program) (options : CheckOptions) : Program := if options.withCore then p.addCore else p

theorem prepared_fresh {p : Program} (h : p.Fresh) (options : CheckOptions) : (p.prepared options).Fresh := by
  unfold prepared
  split
  · exact addCore_fresh h
  · exact h

/-- What is solved so far when the first `n` symbols are checked. -/
def checkedUpTo (p : Program) (options : CheckOptions) (n : Nat) : Workspace :=
  (checkSymbols (p.prepared options).symbols options.entries (List.range n) [] (p.prepared options).workspace).2

theorem checkedUpTo_size (p : Program) (options : CheckOptions) :
    p.checkedUpTo options (p.prepared options).symbols.size = (p.check options).2.workspace :=
  checkSymbols_workspace _ _ _ _ _

theorem checkedUpTo_succ (p : Program) (options : CheckOptions) (n : Nat) : p.checkedUpTo options (n + 1) =
    (checkSymbol (p.prepared options).symbols
      (((p.prepared options).symbols.get? n).any fun s => s.path ∈ options.entries) n
      (p.checkedUpTo options n)).2 := by
  rw [checkedUpTo, List.range_succ, checkSymbols_concat, checkedUpTo]

theorem checkedUpTo_grows (p : Program) (options : CheckOptions) {m n : Nat} (h : m ≤ n) :
    (p.checkedUpTo options m).variants.Grows (p.checkedUpTo options n).variants := by
  induction h with
  | refl => exact .refl _
  | step _ ih =>
    rw [checkedUpTo_succ]
    exact ih.trans (checkSymbol_grows _ _ _ _)

/-- A check keeps the variants of the entries that can be solved, and what they refer to. -/
theorem check_solves {p : Program} (hfresh : p.Fresh) (options : CheckOptions) :
    Solves (p.check options).2.symbols [] (fun k => k.symbol < (p.check options).2.symbols.size ∧
        EntryVariant (p.check options).2.symbols options.entries (p.prepared options).workspace k)
      (p.prepared options).workspace (p.check options).2.workspace := by
  rw [← checkedUpTo_size]
  exact checkSymbols_solves (prepared_fresh hfresh options).coherent options.entries _

theorem check_accepted {p : Program} (hfresh : p.Fresh) (options : CheckOptions) {k : VariantId}
    {v : Variant} (hv : (p.check options).2.workspace.variants.find? k = some v) :
    Accepted (p.check options).2.symbols k.symbol v (p.check options).2.workspace.graph :=
  (check_solves hfresh options).coherent.accepted hv

/-- What is kept when a check of `p` ends. -/
structure KeepsReached (p : Program) (options : CheckOptions) : Prop where
  /-- A reference in a kept body is resolved to a variant that exists, of a symbol of the right kind. -/
  resolved : ∀ {k v body}, (p.check options).2.workspace.variants.find? k = some v → v.body = some body →
    ∀ r ∈ Expr.references body, ∃ k' v', r.Names (p.check options).2.symbols k' ∧
      (p.check options).2.workspace.variants.find? k' = some v'
  /-- What is kept is what entries reach that could be solved. -/
  reached : ∀ k, (∃ v, (p.check options).2.workspace.variants.find? k = some v) ↔
    ∃ k₀, EntryVariant (p.check options).2.symbols options.entries (p.prepared options).workspace k₀ ∧
      (p.check options).2.workspace.variants.Reaches (p.check options).2.symbols k₀ k
  /-- A symbol that fails leaves the variants as they were. -/
  failed : ∀ {keep id w e w'}, checkSymbol (p.check options).2.symbols keep id w = (some e, w') →
    w'.variants = w.variants
  /-- So does a symbol that is solved to no avail for one of the candidates of a call. -/
  rejected : ∀ {keep stack usage id w e w'},
    SolveM.orRollback (do
      let solved ← solve (p.check options).2.symbols keep stack (.procedure (some usage.span)) id
      SolveM.acceptCall usage solved
      return solved.variant) w = .ok (.error e) w' → w'.variants = w.variants
  /-- And so does any symbol that is not to be kept. -/
  unkept : ∀ stack request id w,
    (∀ {solved w'}, solve (p.check options).2.symbols false stack request id w = .ok solved w' →
      w'.variants = w.variants) ∧
    ∀ {e w'}, solve (p.check options).2.symbols false stack request id w = .error e w' →
      w'.variants = w.variants

/-- The kept variants are exactly what the entries reach. -/
theorem check_variants {p : Program} (hfresh : p.Fresh) (options : CheckOptions) :
    p.KeepsReached options := by
  have hsolves := check_solves hfresh options
  have hresolved {k v body} (hv : (p.check options).2.workspace.variants.find? k = some v)
      (hbody : v.body = some body) (r) (hr : r ∈ Expr.references body) :
      ∃ k' v', r.Names (p.check options).2.symbols k' ∧
        (p.check options).2.workspace.variants.find? k' = some v' := by
    obtain ⟨k', hnames, ⟨v', hv'⟩ | ⟨a, ha, -⟩⟩ := hsolves.coherent.refers hv hbody r hr
    · exact ⟨k', v', hnames, hv'⟩
    · cases ha
  refine ⟨hresolved, fun k => ⟨fun ⟨v, hv⟩ => ?_, fun ⟨k₀, hentry, hreached⟩ => ?_⟩, fun h => ?_,
    fun {keep _ _ _ _ _ _} h => ?_, fun stack request id w => ?_⟩
  · obtain ⟨k₀, ⟨-, hentry⟩, hreached⟩ := hsolves.reached hv ((prepared_fresh hfresh options).find? k)
    exact ⟨k₀, hentry, hreached⟩
  · induction hreached with
    | refl =>
      obtain ⟨symbol, solved, w', hsymbol, -⟩ := id hentry
      have hlt : k₀.symbol < (p.check options).2.symbols.size := (Array.getElem?_eq_some_iff.1 hsymbol).1
      rcases hsolves.available ⟨hlt, hentry⟩ with hv | ⟨a, ha, -⟩
      · exact hv
      · cases ha
    | tail _ hrefers _ =>
      obtain ⟨v, body, r, hv, hbody, hr, hnames⟩ := hrefers
      obtain ⟨k', v', hnames', hv'⟩ := hresolved hv hbody r hr
      exact ⟨v', hnames.unique hnames' ▸ hv'⟩
  · exact (checkSymbol_error h).1
  · have hkeeps (stack : List Activation) (usage : ProcedureUsage) (id : Nat) := evolves_kept.bind
      ((solve_evolves (p.check options).2.symbols keep stack (.procedure (some usage.span)) id).imp
        fun h => h.weaken (List.nil_subset _))
      fun solved => evolves_kept.bind (@SolveM.acceptCall_evolves keep [] usage solved)
        fun _ => evolves_kept.pure solved.variant
    exact (SolveM.orRollback_error (hkeeps _ _ _) h).1
  · have hevolves := solve_evolves (p.check options).2.symbols false stack request id w
    exact ⟨fun h => (hevolves.ok h).unkept rfl, fun h => (hevolves.error h).unkept rfl⟩

/-- The program after a check with the procedure `main` as entry. -/
def checkedMain (p : Program) : Program := (p.check ⟨[.single "main"], false⟩).2

/-- Two procedures that call each other, and one that nothing calls. -/
def callingBack : Program :=
  let declare (p : Program) (name callee : String) : Program :=
    (p.add ⟨.single name, .none, .procedure []
      [.call ⟨.none, ()⟩ (.name ⟨.none, ()⟩ (.single callee)) []]⟩).2
  declare (declare (declare (empty .modules) "main" "step") "step" "main") "unused" "step"

/-- With `main` as entry, one variant of each of the first two is kept. -/
theorem check_variants_callingBack :
    callingBack.Fresh ∧ callingBack.KeepsReached ⟨[.single "main"], false⟩ ∧
      (callingBack.check ⟨[.single "main"], false⟩).2.workspace.variants.map List.length = #[1, 1, 0] := by
  have hfresh : callingBack.Fresh := by cbv
  exact ⟨hfresh, check_variants hfresh _, by cbv⟩

end Monomorph.Program
