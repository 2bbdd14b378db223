import Mathlib
import Monomorph.Proofs.Solve.Agreement
import Monomorph.Proofs.Solve.Reported

/-! # Module variables that depend on themselves

A module variable that is asked for while it is being solved depends on itself, and solving it fails. So what is
read is kept before what reads it, and a kept module variable that depends on itself does so through a procedure,
and one that was being solved when the variable was kept (`solve_cycle`). Entered at the variable, a cycle is seen:
an entry that depends on itself was kept before its turn, or its turn gave an error
(`Program.check_selfDependent`). Entered at a procedure it may stay unnoticed, since a procedure that is being
solved is not solved again (`Program.check_misses_selfDependence`). -/

namespace Monomorph

open Relation

namespace VariantStore

variable {table : SymbolTable} {store : VariantStore} {k k' : VariantId}

/-- A reference to something that is no procedure is a read. -/
theorem RefersTo.reads (h : store.RefersTo table k k')
    (hkind : ∀ symbol, table.get? k'.symbol = some symbol → symbol.declaration.isProcedure = false) :
    store.Reads table k k' := by
  obtain ⟨v, body, r, hv, hbody, hr, hnames⟩ := h
  cases hnames with
  | procedure hid hsymbol hprocedure =>
    rw [hkind _ hsymbol] at hprocedure
    cases hprocedure
  | moduleVariable hid hsymbol hvariable =>
    exact ⟨v, body, _, hv, hbody, hr, .moduleVariable hid hsymbol hvariable⟩

/-- Where what is read was kept before, every cycle goes through a procedure. -/
theorem Ordered.cycle (h : store.Ordered table) (hcycle : TransGen (store.RefersTo table) k k) :
    ∃ k' symbol, store.Reaches table k k' ∧ store.Reaches table k' k ∧ table.get? k'.symbol = some symbol ∧
      symbol.declaration.isProcedure = true := by
  by_contra hnone
  have hreads {k'} (hto : TransGen (store.RefersTo table) k k') (hback : store.Reaches table k' k) :
      TransGen (store.Reads table) k k' := by
    have hkind {k'} (hto : TransGen (store.RefersTo table) k k') (hback : store.Reaches table k' k) :
        ∀ symbol, table.get? k'.symbol = some symbol → symbol.declaration.isProcedure = false := fun symbol hsymbol =>
      Bool.eq_false_iff.2 fun hprocedure => hnone ⟨k', symbol, hto.to_reflTransGen, hback, hsymbol, hprocedure⟩
    induction hto with
    | single hrefers => exact .single (hrefers.reads (hkind (.single hrefers) hback))
    | tail hto hrefers ih =>
      exact (ih (.head hrefers hback)).tail (hrefers.reads (hkind (hto.tail hrefers) hback))
  have hwell : WellFounded (TransGen fun k' k => store.Reads table k k') := WellFounded.transGen h
  exact hwell.irrefl.irrefl k (transGen_swap.1 (hreads hcycle .refl))

end VariantStore

/-! ### Where a cycle is entered -/

/-- There is a way from `k` to `k'` through a procedure that is being solved. -/
def VariantStore.ReachesThrough (table : SymbolTable) (stack : List Activation) (store : VariantStore)
    (k k' : VariantId) : Prop :=
  ∃ a ∈ stack, ∃ symbol, table.get? a.symbol = some symbol ∧ symbol.declaration.isProcedure = true ∧
    store.Reaches table k a.variantId ∧ store.Reaches table a.variantId k'

section entered

open Workspace (Linked evolves_kept)

variable {table : SymbolTable} {stack : List Activation} {w w' : Workspace} {store : VariantStore}
  {k k₀ k₁ : VariantId}

theorem VariantStore.ReachesThrough.head (hfirst : store.RefersTo table k₀ k₁)
    (h : store.ReachesThrough table stack k₁ k) : store.ReachesThrough table stack k₀ k := by
  obtain ⟨a, ha, symbol, hsymbol, hprocedure, hto, hback⟩ := h
  exact ⟨a, ha, symbol, hsymbol, hprocedure, .head hfirst hto, hback⟩

/-- From what is kept, a module variable that no kept body reads is reached later only through a procedure that is
still being solved. -/
theorem Workspace.Linked.reachesThrough (hs : Linked table stack w) (hw : Coherent table stack w)
    (hkind : ∀ symbol, table.get? k.symbol = some symbol → symbol.declaration.isProcedure = false)
    (hunread : ∀ k', ¬w.variants.Reads table k' k) (hgrows : w.variants.Grows store)
    (hto : TransGen (store.RefersTo table) k₀ k) (hk₀ : ∃ v, w.variants.find? k₀ = some v) :
    store.ReachesThrough table stack k₀ k := by
  -- Bodies do not change, so what is kept refers later to what it refers to now.
  have hrefers {k k' : VariantId} (hk : ∃ v, w.variants.find? k = some v) (h : store.RefersTo table k k') :
      w.variants.RefersTo table k k' := by
    obtain ⟨v, hv⟩ := hk
    obtain ⟨v', body, r, hv', hrest⟩ := h
    cases (hgrows.find? hv).symm.trans hv'
    exact ⟨v, body, r, hv, hrest⟩
  induction hto using TransGen.head_induction_on with
  | single hlast => exact absurd ((hrefers hk₀ hlast).reads hkind) (hunread _)
  | head hfirst hto ih =>
    obtain ⟨v, body, r, hv, hbody, hr, hnames⟩ := hrefers hk₀ hfirst
    obtain ⟨k', hnames', havailable⟩ := hw.refers hv hbody r hr
    obtain rfl := hnames.unique hnames'
    cases hnames with
    | moduleVariable hid hsymbol hvariable =>
      exact (ih ((hs.linked hv hbody).reads hr hnames').2).head hfirst
    | procedure hid hsymbol hprocedure =>
      rcases havailable with hk₁ | ⟨a, ha, heq⟩
      · exact (ih hk₁).head hfirst
      · rw [heq] at hfirst hto
        cases heq
        exact ⟨a, ha, _, hsymbol, hprocedure, .single hfirst, hto.to_reflTransGen⟩

/-- A module variable that comes to depend on itself was solved while a procedure on the cycle was being solved. -/
theorem solve_cycle (htable : ∀ s ∈ table.symbols, s.declaration.InRange) (hs : Linked table stack w)
    (hw : Coherent table stack w) {id : Nat} {solved : Solved}
    (hrun : solve table true stack .moduleVariable id w = .ok solved w') (hnone : w.variants.ofSymbol id = [])
    (hgrows : w'.variants.Grows store) (hcycle : TransGen (store.RefersTo table) ⟨id, 0⟩ ⟨id, 0⟩) :
    store.ReachesThrough table stack ⟨id, 0⟩ ⟨id, 0⟩ := by
  have hw' := ((solve_solves table stack .moduleVariable).solves hw hrun).coherent
  obtain ⟨hs', -, hobtained⟩ :=
    ((solve_linked htable stack).linked (fun _ => True) _ id).ok hs (fun _ _ => trivial) hrun
  obtain ⟨symbol, v, hsymbol, hkind, hfirst, hv, -⟩ := (hobtained.here evolves_kept).moduleVariable rfl
  refine hs'.reachesThrough hw' (fun symbol' hsymbol' => ?_) (fun k' => solve_unread htable hs hrun hnone rfl) hgrows
    hcycle ⟨v, hfirst ▸ hv⟩
  cases hsymbol.symm.trans hsymbol'
  exact hkind

end entered

/-- The variant that a reference names, if there is a symbol of the right kind. -/
def Reference.variantId? (table : SymbolTable) : Reference → Option VariantId
  | .procedure (.resolved path n) => do
    let id ← table.lookup path
    let symbol ← table.get? id
    if symbol.declaration.isProcedure then some ⟨id, n⟩ else none
  | .moduleVariable (.resolved path n) => do
    let id ← table.lookup path
    let symbol ← table.get? id
    if symbol.declaration.isProcedure then none else some ⟨id, n⟩
  | _ => none

theorem Reference.names_of_variantId? {table : SymbolTable} {r : Reference} {k : VariantId}
    (h : r.variantId? table = some k) : r.Names table k := by
  unfold variantId? at h
  split at h
  · obtain ⟨id, hid, h⟩ := Option.bind_eq_some_iff.1 h
    obtain ⟨symbol, hsymbol, h⟩ := Option.bind_eq_some_iff.1 h
    split at h <;> cases h
    exact .procedure hid hsymbol (by assumption)
  · obtain ⟨id, hid, h⟩ := Option.bind_eq_some_iff.1 h
    obtain ⟨symbol, hsymbol, h⟩ := Option.bind_eq_some_iff.1 h
    split at h <;> cases h
    exact .moduleVariable hid hsymbol (Bool.eq_false_iff.2 (by assumption))
  · cases h

namespace Program

/-- An entry that is a module variable and comes to depend on itself was kept before its turn, or its turn gave an
error. -/
theorem entry_cycle {p : Program} (hp : p.Grounded) (options : CheckOptions) {k : VariantId} {symbol : Symbol}
    (hcycle : TransGen ((p.check options).2.workspace.variants.RefersTo (p.check options).2.symbols) k k)
    (hsymbol : (p.check options).2.symbols.get? k.symbol = some symbol)
    (hkind : symbol.declaration.isProcedure = false) (hentry : symbol.path ∈ options.entries) :
    (∃ v, (p.checkedUpTo options k.symbol).variants.find? k = some v) ∨
      ∃ e ∈ (p.check options).1, p.FailsWith options k.symbol e := by
  have hprepared := prepared_grounded hp options
  obtain ⟨k', -, hlast⟩ := TransGen.tail'_iff.1 hcycle
  obtain ⟨v, body, target, hv, hbody, htarget, hnames⟩ := hlast.reads fun symbol' hsymbol' => by
    cases hsymbol.symm.trans hsymbol'
    exact hkind
  have hfirst := (((check_linked hp options).linked hv hbody).reads htarget hnames).1
  obtain ⟨id, variant⟩ := k
  subst hfirst
  have hid : id < (p.prepared options).symbols.size := (Array.getElem?_eq_some_iff.1 hsymbol).1
  have hsymbol : (p.prepared options).symbols.get? id = some symbol := hsymbol
  have hkeep : isEntry (p.prepared options).symbols options.entries id = true := by
    rw [isEntry, hsymbol, Option.any_some, decide_eq_true hentry]
  cases hkept : (p.checkedUpTo options id).variants.find? ⟨id, 0⟩ with
  | some v => exact .inl ⟨v, rfl⟩
  | none =>
    refine .inr ?_
    have hnone : (p.checkedUpTo options id).variants.ofSymbol id = [] :=
      List.eq_nil_of_length_eq_zero (Nat.le_zero.1 (List.getElem?_eq_none_iff.1 hkept))
    cases hrun : solveSymbol (p.prepared options).symbols true id (p.checkedUpTo options id) with
    | error e w =>
      have hfails : p.FailsWith options id e := ⟨hid, w, hkeep ▸ hrun⟩
      exact ⟨e, ((check_errors p options).2 e).2 (.inr ⟨id, hfails⟩), hfails⟩
    | ok solved w' =>
      have hgrows := p.checkedUpTo_grows options (Nat.succ_le_of_lt hid)
      rw [checkedUpTo_size, checkedUpTo_succ, ← isEntry, hkeep, checkSymbol, hrun] at hgrows
      rw [solveSymbol, hsymbol, Option.any_some, hkind, if_neg Bool.false_ne_true] at hrun
      obtain ⟨a, ha, -⟩ := solve_cycle hprepared.natives (checkSymbols_linked hprepared.natives hprepared.linked _ _ _)
        (checkSymbols_solves hprepared.fresh.coherent _ _).coherent hrun hnone hgrows hcycle
      cases ha

/-- **A kept module variable that depends on itself** does so through a procedure. If it is an entry, it was kept
before its turn came, or its turn gave an error. -/
theorem check_selfDependent {p : Program} (hp : p.Grounded) (options : CheckOptions) {k : VariantId}
    (h : TransGen ((p.check options).2.workspace.variants.RefersTo (p.check options).2.symbols) k k) :
    (∃ k' symbol, (p.check options).2.workspace.variants.Reaches (p.check options).2.symbols k k' ∧
      (p.check options).2.workspace.variants.Reaches (p.check options).2.symbols k' k ∧
        (p.check options).2.symbols.get? k'.symbol = some symbol ∧ symbol.declaration.isProcedure = true) ∧
    ∀ symbol, (p.check options).2.symbols.get? k.symbol = some symbol → symbol.declaration.isProcedure = false →
      symbol.path ∈ options.entries → (∃ v, (p.checkedUpTo options k.symbol).variants.find? k = some v) ∨
        ∃ e ∈ (p.check options).1, p.FailsWith options k.symbol e :=
  ⟨(check_linked hp options).ordered.cycle h,
    fun _ hsymbol hkind hentry => entry_cycle hp options h hsymbol hkind hentry⟩

/-! ### A circle entered in two places -/

/-- What the body of a kept variant refers to. -/
def referredAt (p : Program) (k : VariantId) : Option (List (Option VariantId)) :=
  (p.referencesAt k).map fun l => l.map (Reference.variantId? p.symbols)

theorem refersTo_of_referredAt {p : Program} {k k' : VariantId} {l : List (Option VariantId)}
    (h : p.referredAt k = some l) (hk' : some k' ∈ l) : p.workspace.variants.RefersTo p.symbols k k' := by
  obtain ⟨references, hreferences, rfl⟩ := Option.map_eq_some_iff.1 h
  obtain ⟨v, body, hv, hbody, rfl⟩ := referencesAt_eq_some hreferences
  obtain ⟨r, hr, hnames⟩ := List.mem_map.1 hk'
  exact ⟨v, body, r, hv, hbody, hr, Reference.names_of_variantId? hnames⟩

/-- Symbols registered in the given order. -/
def ofSymbols (expansion : Expansion) (symbols : List Symbol) : Program :=
  symbols.foldl (fun p s => (p.add s).2) (empty expansion)

theorem ofSymbols_grounded (expansion : Expansion) {symbols : List Symbol}
    (h : ∀ s ∈ symbols, s.declaration.InRange ∧ s.declaration.vars = []) : (ofSymbols expansion symbols).Grounded :=
  List.foldlRecOn symbols _ (empty_grounded expansion) fun _ hp s hs =>
    add_grounded hp (h s hs).1 ((h s hs).2 ▸ nofun)

/-- A procedure that gives back the value of a module variable. -/
def giving (name value : String) : Symbol :=
  ⟨.single name, .none, .procedure [] [.giveBack ⟨.none, ()⟩ (.name ⟨.none, ()⟩ (.single value))]⟩

/-- A module variable that is what a procedure gives back. -/
def given (name procedure : String) : Symbol :=
  ⟨.single name, .none, .moduleVariable (.call ⟨.none, ()⟩ (.name ⟨.none, ()⟩ (.single procedure)) [])⟩

/-- Two procedures and two module variables that depend on one another in a circle. -/
def roundabout : Program :=
  ofSymbols .modules [giving "main" "x", given "x" "step", giving "step" "y", given "y" "main"]

/-- The same circle with a module variable registered first. -/
def turned : Program :=
  ofSymbols .modules [given "x" "step", giving "step" "y", given "y" "main", giving "main" "x"]

def turnedOptions : CheckOptions := ⟨[.single "x", .single "main"], false⟩

theorem roundabout_grounded : roundabout.Grounded :=
  ofSymbols_grounded _ (by simp [giving, given, Declaration.InRange, Declaration.vars])

theorem turned_grounded : turned.Grounded :=
  ofSymbols_grounded _ (by simp [giving, given, Declaration.InRange, Declaration.vars])

/-- The first four symbols refer each to the next, and the last of them to the first. -/
def Circular (p : Program) : Prop :=
  (List.range 4).map (fun i => p.referredAt ⟨i, 0⟩) = [some [some ⟨1, 0⟩], some [some ⟨2, 0⟩], some [some ⟨3, 0⟩],
    some [some ⟨0, 0⟩]]

theorem Circular.depends {p : Program} (h : p.Circular) {i : Nat} (hi : i < 4) :
    TransGen (p.workspace.variants.RefersTo p.symbols) ⟨i, 0⟩ ⟨i, 0⟩ := by
  have hstep {i : Nat} (hi : i < 4) : p.workspace.variants.RefersTo p.symbols ⟨i, 0⟩ ⟨(i + 1) % 4, 0⟩ := by
    refine refersTo_of_referredAt (l := [some ⟨(i + 1) % 4, 0⟩]) ?_ List.mem_cons_self
    have hget := congrArg (·[i]?) h
    interval_cases i <;> exact Option.some.inj hget
  have hnext (i : Nat) : (i + 1) % 4 < 4 := Nat.mod_lt _ (by decide)
  have hback : (((((i + 1) % 4) + 1) % 4 + 1) % 4 + 1) % 4 = i := by omega
  have hround := (((TransGen.single (hstep hi)).tail (hstep (hnext _))).tail (hstep (hnext _))).tail (hstep (hnext _))
  rwa [hback] at hround

theorem roundabout_circular : roundabout.checkedMain.Circular := by
  cbv

theorem turned_circular : (turned.check turnedOptions).2.Circular := by
  cbv

theorem roundabout_cycle :
    TransGen (roundabout.checkedMain.workspace.variants.RefersTo roundabout.checkedMain.symbols) ⟨1, 0⟩ ⟨1, 0⟩ :=
  roundabout_circular.depends (by decide)

/-- Here the module variable is kept only for `main`, after its own turn gave an error. -/
theorem check_selfDependent_turned : turned.Grounded ∧
    TransGen ((turned.check turnedOptions).2.workspace.variants.RefersTo (turned.check turnedOptions).2.symbols)
      ⟨0, 0⟩ ⟨0, 0⟩ ∧
    (∃ k' symbol,
      (turned.check turnedOptions).2.workspace.variants.Reaches (turned.check turnedOptions).2.symbols ⟨0, 0⟩ k' ∧
      (turned.check turnedOptions).2.workspace.variants.Reaches (turned.check turnedOptions).2.symbols k' ⟨0, 0⟩ ∧
        (turned.check turnedOptions).2.symbols.get? k'.symbol = some symbol ∧
          symbol.declaration.isProcedure = true) ∧
    (turned.check turnedOptions).1 =
      [.single .none (.selfReference (.single "x")), .single .none (.selfReference (.single "y"))] ∧
    ∃ e ∈ (turned.check turnedOptions).1, turned.FailsWith turnedOptions 0 e := by
  have hcycle : TransGen ((turned.check turnedOptions).2.workspace.variants.RefersTo
      (turned.check turnedOptions).2.symbols) ⟨0, 0⟩ ⟨0, 0⟩ := turned_circular.depends (by decide)
  obtain ⟨hprocedure, hentry⟩ := check_selfDependent turned_grounded turnedOptions hcycle
  refine ⟨turned_grounded, hcycle, hprocedure, by cbv, ?_⟩
  rcases hentry (given "x" "step") (by cbv) (by cbv) List.mem_cons_self with ⟨v, hv⟩ | hfails
  · have hnone := turned_grounded.fresh.find? ⟨0, 0⟩
    rw [show turned.checkedUpTo turnedOptions 0 = turned.workspace from rfl] at hv
    cases hnone.symm.trans hv
  · exact hfails

/-- No error is found, although a kept module variable depends on itself. -/
theorem check_misses_selfDependence : roundabout.Fresh ∧
    TransGen (roundabout.checkedMain.workspace.variants.RefersTo roundabout.checkedMain.symbols) ⟨1, 0⟩ ⟨1, 0⟩ ∧
    (∃ symbol, roundabout.checkedMain.symbols.get? 1 = some symbol ∧ symbol.declaration.isProcedure = false) ∧
      (roundabout.check ⟨[.single "main"], false⟩).1 = [] :=
  ⟨roundabout_grounded.fresh, roundabout_cycle, ⟨given "x" "step", by cbv, by cbv⟩, by cbv⟩

end Program
end Monomorph
