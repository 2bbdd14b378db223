import Mathlib
import Monomorph.Proofs.Solve.Cycles
import Monomorph.Proofs.Solve.Reported
import Monomorph.Proofs.Solve.Verdict

/-! # The order of registration

A check solves the symbols in the order in which they are registered. In a program of procedures the order decides
nothing: the verdict on each symbol depends on the symbols alone, so in any order a check finds the same errors and
gives the entries the same signatures (`Program.check_reordered`). With module variables it may decide: one that
depends on itself is found only where the cycle is entered at it (`Program.check_order_matters`). -/

namespace Monomorph

namespace SymbolTable

/-! ### Tables with the same symbols -/

/-- No two symbols have the same path. -/
def Distinct (table : SymbolTable) : Prop := (table.symbols.toList.map Symbol.path).Nodup

/-- Both tables have the same symbols, registered in some order. -/
structure Reordered (table table' : SymbolTable) : Prop where
  expansion : table.expansion = table'.expansion
  symbols : table.symbols.toList.Perm table'.symbols.toList

def NameSame (table table' : SymbolTable) (id id' : Nat) : Prop :=
  ∃ s, table.get? id = some s ∧ table'.get? id' = some s

section tables

variable {table table' : SymbolTable} {s s' : Symbol} {i j : Nat} {path : Path}

theorem mem_iff_get? : s ∈ table.symbols.toList ↔ ∃ id, table.get? id = some s := by
  rw [Array.mem_toList_iff, Array.mem_iff_getElem?]
  rfl

theorem Reordered.distinct (h : table.Reordered table') (hdistinct : table.Distinct) : table'.Distinct :=
  (h.symbols.map Symbol.path).nodup_iff.1 hdistinct

theorem Reordered.mem_iff (h : table.Reordered table') :
    (∃ id, table.get? id = some s) ↔ ∃ id, table'.get? id = some s := by
  rw [← mem_iff_get?, ← mem_iff_get?, h.symbols.mem_iff]

theorem Reordered.forall_mem {P : Symbol → Prop} (h : table.Reordered table') (hP : ∀ s ∈ table.symbols, P s) :
    ∀ s ∈ table'.symbols, P s := fun s hs =>
  hP s (Array.mem_toList_iff.1 (h.symbols.mem_iff.2 (Array.mem_toList_iff.2 hs)))

theorem Distinct.eq_of_path (h : table.Distinct) (hs : table.get? i = some s) (hs' : table.get? j = some s')
    (hpath : s.path = s'.path) : i = j := by
  have hget (k : Nat) : (table.symbols.toList.map Symbol.path)[k]? = (table.get? k).map Symbol.path := by
    rw [List.getElem?_map, Array.getElem?_toList]
    rfl
  have hlt : i < (table.symbols.toList.map Symbol.path).length := by
    rw [List.length_map, Array.length_toList]
    exact (Array.getElem?_eq_some_iff.1 hs).1
  refine (List.getElem?_inj hlt h).1 ?_
  rw [hget, hget, hs, hs', Option.map_some, Option.map_some, hpath]

theorem Distinct.lookup_eq_some_iff (h : table.Distinct) :
    table.lookup path = some i ↔ ∃ s, table.get? i = some s ∧ s.path = path := by
  rw [lookup, Array.findIdx?_eq_some_iff_getElem]
  constructor
  · rintro ⟨hlt, hpath, -⟩
    exact ⟨_, Array.getElem?_eq_getElem hlt, beq_iff_eq.1 hpath⟩
  · rintro ⟨s, hs, rfl⟩
    obtain ⟨hlt, hget⟩ := Array.getElem?_eq_some_iff.1 hs
    refine ⟨hlt, beq_iff_eq.2 (congrArg Symbol.path hget), fun j hj hpath => ?_⟩
    have hpath := beq_iff_eq.1 hpath
    exact hj.ne (h.eq_of_path (Array.getElem?_eq_getElem (hj.trans hlt)) hs hpath)

theorem Reordered.lookup (h : table.Reordered table') (hdistinct : table.Distinct) (path : Path) :
    Option.Rel (NameSame table table') (table.lookup path) (table'.lookup path) := by
  have hdistinct' := h.distinct hdistinct
  cases hfound : table.lookup path with
  | some id =>
    obtain ⟨s, hs, hpath⟩ := hdistinct.lookup_eq_some_iff.1 hfound
    obtain ⟨id', hs'⟩ := h.mem_iff.1 ⟨id, hs⟩
    rw [hdistinct'.lookup_eq_some_iff.2 ⟨s, hs', hpath⟩]
    exact .some ⟨s, hs, hs'⟩
  | none =>
    cases hfound' : table'.lookup path with
    | none => exact .none
    | some id' =>
      obtain ⟨s, hs', hpath⟩ := hdistinct'.lookup_eq_some_iff.1 hfound'
      obtain ⟨id, hs⟩ := h.mem_iff.2 ⟨id', hs'⟩
      rw [hdistinct.lookup_eq_some_iff.2 ⟨s, hs, hpath⟩] at hfound
      cases hfound

/-- Tables with the same symbols differ in nothing but the numbers. -/
theorem Reordered.renumbers (h : table.Reordered table') (hdistinct : table.Distinct) :
    table.Renumbers (NameSame table table') table' where
  expansion := h.expansion
  symbol := by
    rintro id id' ⟨s, hs, hs'⟩
    rw [hs, hs']
  lookup := h.lookup hdistinct
  unique := by
    rintro i i' j j' ⟨s, hs, hs'⟩ ⟨t, ht, ht'⟩
    constructor
    · rintro rfl
      obtain rfl : s = t := Option.some.inj (hs.symm.trans ht)
      exact (h.distinct hdistinct).eq_of_path hs' ht' rfl
    · rintro rfl
      obtain rfl : s = t := Option.some.inj (hs'.symm.trans ht')
      exact hdistinct.eq_of_path hs ht rfl

theorem Reordered.isSome_lookup (h : table.Reordered table') (hdistinct : table.Distinct) (path : Path) :
    (table.lookup path).isSome = (table'.lookup path).isSome := by
  have hfound := h.lookup hdistinct path
  generalize table.lookup path = found at hfound
  generalize table'.lookup path = found' at hfound
  cases hfound <;> rfl

/-! ### Registering one more symbol -/

theorem lookup_eq_none_iff : table.lookup path = none ↔ path ∉ table.symbols.toList.map Symbol.path := by
  rw [lookup, Array.findIdx?_eq_none_iff, List.mem_map, not_exists]
  simp only [Array.mem_toList_iff, not_and, beq_eq_false_iff_ne, ne_eq]

theorem add_of_lookup_eq_none (h : table.lookup s.path = none) :
    (table.add s).2 = ⟨table.symbols.push s, table.expansion⟩ := by
  rw [add, h]

theorem Distinct.add (h : table.Distinct) (hfree : table.lookup s.path = none) : (table.add s).2.Distinct := by
  rw [add_of_lookup_eq_none hfree, Distinct, Array.toList_push, List.map_append, List.map_singleton]
  exact List.concat_eq_append ▸ h.concat (lookup_eq_none_iff.1 hfree)

theorem Reordered.add (h : table.Reordered table') (hfree : table.lookup s.path = none)
    (hfree' : table'.lookup s.path = none) : (table.add s).2.Reordered (table'.add s).2 := by
  rw [add_of_lookup_eq_none hfree, add_of_lookup_eq_none hfree']
  refine ⟨h.expansion, ?_⟩
  rw [Array.toList_push, Array.toList_push]
  exact h.symbols.append_right [s]

end tables

end SymbolTable

namespace Program

/-! ### What a check starts from -/

theorem addCore_reordered {p p' : Program} (h : p.symbols.Reordered p'.symbols) (hdistinct : p.symbols.Distinct) :
    p.addCore.symbols.Reordered p'.addCore.symbols ∧ p.addCore.symbols.Distinct := by
  unfold addCore
  induction Core.symbols generalizing p p' with
  | nil => exact ⟨h, hdistinct⟩
  | cons s rest ih =>
    have hsame := h.isSome_lookup hdistinct s.path
    rw [List.foldl_cons, List.foldl_cons, ← hsame]
    split
    · exact ih h hdistinct
    · rename_i hfree
      have hfree : p.symbols.lookup s.path = none := Option.not_isSome_iff_eq_none.1 hfree
      have hfree' : p'.symbols.lookup s.path = none := by
        rw [hfree, Option.isSome_none, eq_comm, Option.isSome_eq_false_iff, Option.isNone_iff_eq_none] at hsame
        exact hsame
      exact ih (h.add hfree hfree') (hdistinct.add hfree)

theorem prepared_reordered {p p' : Program} (h : p.symbols.Reordered p'.symbols) (hdistinct : p.symbols.Distinct)
    (options : CheckOptions) : (p.prepared options).symbols.Reordered (p'.prepared options).symbols ∧
      (p.prepared options).symbols.Distinct := by
  unfold prepared
  split
  · exact addCore_reordered h hdistinct
  · exact ⟨h, hdistinct⟩

/-- What holds of all symbols of a program and of all core symbols holds of what a check starts from. -/
theorem prepared_forall {P : Symbol → Prop} {p : Program} (h : ∀ s ∈ p.symbols.symbols, P s)
    (hcore : ∀ s ∈ Core.symbols, P s) (options : CheckOptions) : ∀ s ∈ (p.prepared options).symbols.symbols, P s := by
  unfold prepared
  split
  · unfold addCore
    refine List.foldlRecOn (motive := fun p : Program => ∀ s ∈ p.symbols.symbols, P s) Core.symbols _ h
      fun p hp s hs => ?_
    split
    · exact hp
    · exact fun s' hs' => (mem_add hs').elim (fun heq => heq ▸ hcore s hs) (hp s')
  · exact h

theorem core_procedural : ∀ s ∈ Core.symbols, s.declaration.isProcedure = true := by
  decide

theorem core_fitting : ∀ s ∈ Core.symbols, s.declaration.Fitting := by
  decide

/-- Symbols with distinct paths are registered one after another. -/
theorem ofSymbols_symbols (expansion : Expansion) {symbols : List Symbol} (h : (symbols.map Symbol.path).Nodup) :
    (ofSymbols expansion symbols).symbols = ⟨symbols.toArray, expansion⟩ := by
  have hfoldl (p : Program) (hpaths : ((p.symbols.symbols.toList ++ symbols).map Symbol.path).Nodup) :
      (symbols.foldl (fun p s => (p.add s).2) p).symbols =
        ⟨p.symbols.symbols ++ symbols.toArray, p.symbols.expansion⟩ := by
    clear h
    induction symbols generalizing p with
    | nil => simp
    | cons s rest ih =>
      have hfree : p.symbols.lookup s.path = none := by
        rw [SymbolTable.lookup_eq_none_iff]
        rw [List.map_append, List.map_cons] at hpaths
        exact fun hmem => (List.nodup_append.1 hpaths).2.2 _ hmem _ List.mem_cons_self rfl
      have hadd : (p.add s).2.symbols = ⟨p.symbols.symbols.push s, p.symbols.expansion⟩ :=
        SymbolTable.add_of_lookup_eq_none hfree
      rw [List.foldl_cons, ih _ (by rw [hadd, Array.toList_push, List.append_assoc]; exact hpaths), hadd]
      simp
  rw [ofSymbols, hfoldl _ (by exact h)]
  simp [empty, SymbolTable.empty]

/-! ### Errors -/

section errors

variable {table : SymbolTable}

theorem verdict_eq_error_iff {r : EStateM.Result TypeError Workspace Solved} {e : TypeError} :
    verdict r = .error e ↔ ∃ w, r = .error e w := by
  cases r with
  | ok solved w => simp [verdict]
  | error e' w => simp [verdict]

/-- In a program of procedures, a check adds the errors that the symbols have by themselves, each once. -/
theorem checkSymbols_errors (hprocedural : table.Procedural) (hfitting : table.Fitting)
    (entries : List Path) (n : Nat) (errors : List TypeError) (w : Workspace) : ∃ added,
      (checkSymbols table entries (List.range n) errors w).1 = errors ++ added ∧ added.Nodup ∧
        ∀ e, e ∈ added ↔ e ∉ errors ∧ ∃ id ∈ List.range n, table.verdictOn id = .error e := by
  obtain ⟨added, hadded, hnodup, hmem⟩ := checkSymbols_added table entries n errors w
  refine ⟨added, hadded, hnodup, fun e => (hmem e).trans (and_congr_right fun _ => exists_congr fun id => ?_)⟩
  rw [List.mem_range, ← verdict_eq_error_iff,
    solveSymbol_alone table.renumbers_refl hprocedural hfitting _ rfl]

end errors

/-! ### The check -/

section reordered

variable {table table' : SymbolTable}

theorem missingEntries_reordered (h : table.Reordered table') (hdistinct : table.Distinct) (entries : List Path) :
    missingEntries table entries = missingEntries table' entries := by
  unfold missingEntries
  refine congrArg (List.map _) (List.filter_congr fun path _ => ?_)
  rw [← Option.not_isSome, ← Option.not_isSome, h.isSome_lookup hdistinct]

section procedures

variable (h : table.Reordered table') (hdistinct : table.Distinct) (hprocedural : table.Procedural)
  (hfitting : table.Fitting)

include h hdistinct hprocedural hfitting

/-- The verdict on a symbol is the same under another number. -/
theorem verdictOn_reordered {id id' : Nat} (hid : table.NameSame table' id id') :
    table.verdictOn id = table'.verdictOn id' :=
  (solveSymbol_alone (h.renumbers hdistinct) hprocedural hfitting false hid _).symm

theorem lookup_verdictOn_reordered (path : Path) :
    (table.lookup path).map table.verdictOn = (table'.lookup path).map table'.verdictOn := by
  have hfound := h.lookup hdistinct path
  generalize table.lookup path = found at hfound
  generalize table'.lookup path = found' at hfound
  cases hfound with
  | none => rfl
  | some hid => exact congrArg some (verdictOn_reordered h hdistinct hprocedural hfitting hid)

theorem exists_error_reordered (e : TypeError) :
    (∃ id ∈ List.range table.size, table.verdictOn id = .error e) ↔
      ∃ id ∈ List.range table'.size, table'.verdictOn id = .error e := by
  have hverdict {s : Symbol} {id id' : Nat} (hs : table.get? id = some s) (hs' : table'.get? id' = some s) :=
    verdictOn_reordered h hdistinct hprocedural hfitting ⟨s, hs, hs'⟩
  constructor
  · rintro ⟨id, hlt, herror⟩
    have hs : table.get? id = some _ := Array.getElem?_eq_getElem (List.mem_range.1 hlt)
    obtain ⟨id', hs'⟩ := h.mem_iff.1 ⟨id, hs⟩
    exact ⟨id', List.mem_range.2 (Array.getElem?_eq_some_iff.1 hs').1, hverdict hs hs' ▸ herror⟩
  · rintro ⟨id', hlt, herror⟩
    have hs' : table'.get? id' = some _ := Array.getElem?_eq_getElem (List.mem_range.1 hlt)
    obtain ⟨id, hs⟩ := h.mem_iff.2 ⟨id', hs'⟩
    exact ⟨id, List.mem_range.2 (Array.getElem?_eq_some_iff.1 hs).1, hverdict hs hs' ▸ herror⟩

/-- Solving all symbols finds the same errors in either order. -/
theorem checkSymbols_reordered (entries : List Path) (w w' : Workspace) :
    (checkSymbols table entries (List.range table.size) (missingEntries table entries) w).1.Perm
      (checkSymbols table' entries (List.range table'.size) (missingEntries table' entries) w').1 := by
  obtain ⟨added, hadded, hnodup, hmem⟩ := checkSymbols_errors hprocedural hfitting entries table.size
    (missingEntries table entries) w
  obtain ⟨added', hadded', hnodup', hmem'⟩ := checkSymbols_errors (h.forall_mem hprocedural) (h.forall_mem hfitting)
    entries table'.size (missingEntries table' entries) w'
  have hmissing := missingEntries_reordered h hdistinct entries
  have hsame : added.Perm added' := (List.perm_ext_iff_of_nodup hnodup hnodup').2 fun e => by
    rw [hmem, hmem', hmissing, exists_error_reordered h hdistinct hprocedural hfitting]
  rw [hadded, hadded', hmissing]
  exact hsame.append_left _

end procedures

end reordered

/-- The verdict on the symbol with a path when a check comes to it. -/
def verdictFor (p : Program) (options : CheckOptions) (path : Path) :
    Option (Except TypeError (List String × String)) :=
  let symbols := (p.prepared options).symbols
  (symbols.lookup path).map fun id => verdict (solveSymbol symbols (isEntry symbols options.entries id) id
    (checkSymbols symbols options.entries (List.range id) [] (p.prepared options).workspace).2)

/-- In a program of procedures, what was solved before makes no difference. -/
theorem verdictFor_eq {p : Program} {options : CheckOptions} (hprocedural : (p.prepared options).symbols.Procedural)
    (hfitting : (p.prepared options).symbols.Fitting) (path : Path) : p.verdictFor options path =
      ((p.prepared options).symbols.lookup path).map (p.prepared options).symbols.verdictOn :=
  congrArg (Option.map · _) (funext fun _ =>
    solveSymbol_alone (SymbolTable.renumbers_refl _) hprocedural hfitting _ rfl _)

/-- Procedures with distinct paths, registered in any two orders: a check finds the same errors, and the verdict on
each symbol is the same, so the same entries are solved, with the same signatures. -/
theorem check_reordered (expansion : Expansion) {symbols reordered : List Symbol} (hperm : symbols.Perm reordered)
    (hpaths : (symbols.map Symbol.path).Nodup) (hprocedures : ∀ s ∈ symbols, s.declaration.isProcedure = true)
    (hfitting : ∀ s ∈ symbols, s.declaration.Fitting) (options : CheckOptions) :
    ((ofSymbols expansion symbols).check options).1.Perm ((ofSymbols expansion reordered).check options).1 ∧
      ∀ path, (ofSymbols expansion symbols).verdictFor options path =
        (ofSymbols expansion reordered).verdictFor options path := by
  have hsymbols := ofSymbols_symbols expansion hpaths
  have hreordered := ofSymbols_symbols expansion ((hperm.map Symbol.path).nodup_iff.1 hpaths)
  generalize ofSymbols expansion symbols = p at hsymbols ⊢
  generalize ofSymbols expansion reordered = p' at hreordered ⊢
  have hstart : p.symbols.Reordered p'.symbols := by
    rw [hsymbols, hreordered]
    exact ⟨rfl, hperm⟩
  have hdistinct : p.symbols.Distinct := by
    rw [hsymbols]
    exact hpaths
  obtain ⟨h, hdistinct⟩ := prepared_reordered hstart hdistinct options
  have hprocedural : (p.prepared options).symbols.Procedural :=
    prepared_forall (by rw [hsymbols]; simpa using hprocedures) core_procedural options
  have hfitting : (p.prepared options).symbols.Fitting :=
    prepared_forall (by rw [hsymbols]; simpa using hfitting) core_fitting options
  refine ⟨checkSymbols_reordered h hdistinct hprocedural hfitting options.entries _ _, fun path => ?_⟩
  rw [verdictFor_eq hprocedural hfitting, verdictFor_eq (h.forall_mem hprocedural) (h.forall_mem hfitting)]
  exact lookup_verdictOn_reordered h hdistinct hprocedural hfitting path

/-- A procedure that gives back another one as a value, and one that gives back something unknown. -/
def lost : List Symbol := [giving "main" "step", giving "step" "nothing"]

/-- The unknown name is found in either order. -/
theorem check_reordered_lost : lost.Perm lost.reverse ∧ (lost.map Symbol.path).Nodup ∧
    (∀ s ∈ lost, s.declaration.isProcedure = true) ∧ (∀ s ∈ lost, s.declaration.Fitting) ∧
      ((ofSymbols .modules lost).check ⟨[.single "main"], false⟩).1.Perm
        ((ofSymbols .modules lost.reverse).check ⟨[.single "main"], false⟩).1 ∧
      ∀ path, (ofSymbols .modules lost).verdictFor ⟨[.single "main"], false⟩ path =
        (ofSymbols .modules lost.reverse).verdictFor ⟨[.single "main"], false⟩ path :=
  ⟨(List.reverse_perm _).symm, by decide, by decide, by decide,
    check_reordered .modules (List.reverse_perm _).symm (by decide) (by decide) (by decide) _⟩

/-- Whether a module variable that depends on itself through a procedure is found depends on which of the two is
registered first. -/
theorem check_order_matters : ∃ symbols reordered : List Symbol, symbols.Perm reordered ∧
    (symbols.map Symbol.path).Nodup ∧
      ((ofSymbols .modules symbols).check ⟨[.single "main"], false⟩).1 = [] ∧
      ((ofSymbols .modules reordered).check ⟨[.single "main"], false⟩).1 =
        [.single .none (.selfReference (.single "x"))] :=
  ⟨[giving "main" "x", given "x" "main"], [given "x" "main", giving "main" "x"], .swap _ _ _, by decide, by cbv,
    by cbv⟩

end Program

end Monomorph
