import Monomorph.Proofs.Solve.Clean

/-! # The errors that a check reports

A check reports an error for every entry that names no symbol, and the error of every symbol that cannot be solved when
its turn comes; nothing else (`Program.check_errors`). The error of a symbol is added only if it is new
(`Program.checkSymbols_added`), but the entries are taken as they are listed: one that names no symbol and is listed
twice is reported twice (`Program.check_errors_repeated`). -/

namespace Monomorph.Program

section symbols

variable {table : SymbolTable} {entries : List Path} {w : Workspace}

theorem checkSymbol_eq_some_iff {keep : Bool} {id : Nat} {e : TypeError} :
    (checkSymbol table keep id w).1 = some e ↔ ∃ w', solveSymbol table keep id w = .error e w' := by
  unfold checkSymbol
  cases solveSymbol table keep id w with
  | ok solved w' => simp
  | error e' w' => simp

theorem checkSymbols_singleton (id : Nat) (errors : List TypeError) :
    (checkSymbols table entries [id] errors w).1 =
      errors ++ (checkSymbol table (isEntry table entries id) id w).1.toList.filter (· ∉ errors) := by
  rw [checkSymbols, ← isEntry]
  rcases checkSymbol table (isEntry table entries id) id w with ⟨_ | e, w'⟩
  · simp [checkSymbols]
  · by_cases he : e ∈ errors <;> simp [checkSymbols, he]

/-- To the errors found before, a check of the first `n` symbols adds those that the symbols have at their turns, each
once. -/
theorem checkSymbols_added (table : SymbolTable) (entries : List Path) (n : Nat) (errors : List TypeError)
    (w : Workspace) : ∃ added, (checkSymbols table entries (List.range n) errors w).1 = errors ++ added ∧ added.Nodup ∧
      ∀ e, e ∈ added ↔ e ∉ errors ∧ ∃ id < n, ∃ w', solveSymbol table (isEntry table entries id) id
        (checkSymbols table entries (List.range id) [] w).2 = .error e w' := by
  induction n with
  | zero => exact ⟨[], (List.append_nil _).symm, List.nodup_nil, by simp⟩
  | succ n ih =>
    obtain ⟨added, hadded, hnodup, hmem⟩ := ih
    rw [List.range_succ, checkSymbols_append, checkSymbols_singleton, checkSymbols_workspace _ _ _ [], hadded]
    have hnew (e : TypeError) : (checkSymbol table (isEntry table entries n) n
          (checkSymbols table entries (List.range n) [] w).2).1 = some e ↔ _ := checkSymbol_eq_some_iff
    generalize (checkSymbol table (isEntry table entries n) n
      (checkSymbols table entries (List.range n) [] w).2).1 = error? at hnew
    have hlast (e : TypeError) : e ∈ error?.toList.filter (· ∉ errors ++ added) ↔
        error? = some e ∧ e ∉ errors ∧ e ∉ added := by
      rw [List.mem_filter, Option.mem_toList, decide_eq_true_iff, List.mem_append, not_or]
    have honce : (error?.toList.filter (· ∉ errors ++ added)).Nodup := by
      cases error? with
      | none => exact List.nodup_nil
      | some e => exact (List.nodup_singleton e).filter _
    refine ⟨_, List.append_assoc .., List.nodup_append'.2 ⟨hnodup, honce, fun e he he' => ?_⟩, fun e => ?_⟩
    · exact ((hlast e).1 he').2.2 he
    rw [List.mem_append, hlast, hnew]
    constructor
    · rintro (he | ⟨hfails, hfresh, -⟩)
      · obtain ⟨hfresh, id, hid, hfails⟩ := (hmem e).1 he
        exact ⟨hfresh, id, Nat.lt_succ_of_lt hid, hfails⟩
      · exact ⟨hfresh, n, Nat.lt_succ_self n, hfails⟩
    · rintro ⟨hfresh, id, hid, hfails⟩
      by_cases he : e ∈ added
      · exact .inl he
      · rcases Nat.lt_succ_iff_lt_or_eq.1 hid with hid | rfl
        · exact absurd ((hmem e).2 ⟨hfresh, id, hid, hfails⟩) he
        · exact .inr ⟨hfails, hfresh, he⟩

end symbols

/-! ### The check -/

/-- The symbol with this number cannot be solved when a check comes to it, for the reason `e`. -/
def FailsWith (p : Program) (options : CheckOptions) (id : Nat) (e : TypeError) : Prop :=
  let symbols := (p.prepared options).symbols
  id < symbols.size ∧ ∃ w, solveSymbol symbols (isEntry symbols options.entries id) id
    (checkSymbols symbols options.entries (List.range id) [] (p.prepared options).workspace).2 = .error e w

/-- The entries that name no symbol, as they are listed. -/
def unknownEntries (p : Program) (options : CheckOptions) : List Path :=
  options.entries.filter fun path => ((p.prepared options).symbols.lookup path).isNone

/-- **The errors are complete**: those of the entries that name no symbol and of the symbols that cannot be solved at
their turns, and no others. No error is reported twice exactly if no entry that names no symbol is listed twice. -/
theorem check_errors (p : Program) (options : CheckOptions) :
    ((p.check options).1.Nodup ↔ (p.unknownEntries options).Nodup) ∧
      ∀ e, e ∈ (p.check options).1 ↔
        (∃ path ∈ p.unknownEntries options, e = .single .none (.unknownSymbol path)) ∨
          ∃ id, p.FailsWith options id e := by
  have hinjective : Function.Injective fun path => TypeError.single .none (.unknownSymbol path) := by
    rintro path path' ⟨⟩
    rfl
  obtain ⟨added, hadded, hnodup, hmem⟩ := checkSymbols_added (p.prepared options).symbols options.entries
    (p.prepared options).symbols.size ((p.unknownEntries options).map fun path => .single .none (.unknownSymbol path))
    (p.prepared options).workspace
  have herrors : (p.check options).1 = _ ++ added := hadded
  rw [herrors]
  refine ⟨?_, fun e => ?_⟩
  · rw [List.nodup_append', List.nodup_map_iff hinjective]
    exact ⟨And.left, fun h => ⟨h, hnodup, fun e hmissing hadded => ((hmem e).1 hadded).1 hmissing⟩⟩
  · have hmissing : e ∈ (p.unknownEntries options).map (fun path => TypeError.single .none (.unknownSymbol path)) ↔
        ∃ path ∈ p.unknownEntries options, e = .single .none (.unknownSymbol path) := by
      simp only [List.mem_map, eq_comm]
    rw [List.mem_append, hmem, ← hmissing]
    constructor
    · rintro (hunknown | ⟨-, id, hid, hfails⟩)
      · exact .inl hunknown
      · exact .inr ⟨id, hid, hfails⟩
    · rintro (hunknown | ⟨id, hid, hfails⟩)
      · exact .inl hunknown
      · exact or_iff_not_imp_left.2 fun hknown => ⟨hknown, id, hid, hfails⟩

/-- An entry that names no symbol, listed twice. -/
theorem check_errors_repeated :
    ((empty .modules).check ⟨[.single "main", .single "main"], false⟩).1 =
        [.single .none (.unknownSymbol (.single "main")), .single .none (.unknownSymbol (.single "main"))] ∧
      ¬((empty .modules).check ⟨[.single "main", .single "main"], false⟩).1.Nodup := by
  have herrors : ((empty .modules).check ⟨[.single "main", .single "main"], false⟩).1 =
      [.single .none (.unknownSymbol (.single "main")), .single .none (.unknownSymbol (.single "main"))] := by
    cbv
  refine ⟨herrors, fun hnodup => ?_⟩
  rw [herrors] at hnodup
  exact (List.nodup_cons.1 hnodup).1 List.mem_cons_self

end Monomorph.Program
