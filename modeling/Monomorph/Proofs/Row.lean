import Monomorph.Type.Meet

/-! # Rows as maps

A row is determined by the values of its names. Membership among the entries is said by `Row.get?`
(`Row.mem_entries_iff`), and so are the operations that combine two rows: `Row.extend` adds the names
that only the other row has, `Row.shared` lists the names of both with both values, and
`Row.firstMissing?` looks for a name that is wanted and absent. -/

namespace Monomorph
namespace Row

variable {α : Type}

/-! ### Entries and values -/

theorem mem_of_find? {key : String} {value : α} {l : List (String × α)}
    (h : find? key l = some value) : (key, value) ∈ l := by
  induction l with
  | nil => cases h
  | cons head rest ih =>
    obtain ⟨n, v⟩ := head
    simp only [find?] at h
    split at h
    · rename_i hn
      cases h
      rw [hn]
      exact List.mem_cons_self
    · exact List.mem_cons_of_mem _ (ih h)

theorem find?_of_mem {key : String} {value : α} {l : List (String × α)} (hl : RowSorted l)
    (h : (key, value) ∈ l) : find? key l = some value := by
  induction l with
  | nil => cases h
  | cons head rest ih =>
    obtain ⟨n, v⟩ := head
    obtain ⟨hhead, hrest⟩ := List.pairwise_cons.1 hl
    rcases List.mem_cons.1 h with h | h
    · cases h
      simp [find?]
    · have hne : n ≠ key := fun hn => String.lt_irrefl key (hn ▸ hhead _ h)
      simp only [find?, hne, if_false]
      exact ih hrest h

theorem mem_entries_iff (row : Row α) {name : String} {value : α} :
    (name, value) ∈ row.entries ↔ row.get? name = some value :=
  ⟨find?_of_mem row.sorted, mem_of_find?⟩

theorem mem_values_iff (row : Row α) {value : α} :
    value ∈ row.values ↔ ∃ name, row.get? name = some value := by
  simp only [values, List.mem_map, Prod.exists, exists_eq_right, mem_entries_iff]

theorem mem_names_iff (row : Row α) {name : String} :
    name ∈ row.names ↔ row.contains name = true := by
  simp only [names, contains, List.mem_map, Prod.exists, exists_and_right, exists_eq_right,
    mem_entries_iff, Option.isSome_iff_exists]

theorem contains_iff (row : Row α) {name : String} :
    row.contains name = true ↔ ∃ value, row.get? name = some value :=
  Option.isSome_iff_exists

theorem contains_of_get? {row : Row α} {name : String} {value : α}
    (h : row.get? name = some value) : row.contains name = true :=
  row.contains_iff.2 ⟨value, h⟩

theorem get?_filter_eq_some_iff (p : String → α → Bool) (row : Row α) {name : String} {value : α} :
    (row.filter p).get? name = some value ↔ row.get? name = some value ∧ p name value = true := by
  rw [← mem_entries_iff, ← mem_entries_iff]
  exact List.mem_filter

theorem ext_get? {r s : Row α} (h : ∀ name, r.get? name = s.get? name) : r = s := by
  have hmem (e : String × α) : e ∈ r.entries ↔ e ∈ s.entries := by
    obtain ⟨name, value⟩ := e
    rw [mem_entries_iff, mem_entries_iff, h]
  have hnodup {row : Row α} : row.entries.Nodup := by
    refine List.Pairwise.imp ?_ row.sorted
    rintro a _ hlt rfl
    exact String.lt_irrefl a.1 hlt
  have hperm : r.entries.Perm s.entries := (List.perm_ext_iff_of_nodup hnodup hnodup).2 hmem
  refine ext_entries (hperm.eq_of_pairwise (fun a b _ _ hab hba => ?_) r.sorted s.sorted)
  exact absurd (String.lt_trans hab hba) (String.lt_irrefl _)

theorem names_eq {r s : Row α} (h : ∀ name, r.contains name = true ↔ s.contains name = true) :
    r.names = s.names := by
  have hnames (row : Row α) : (row.map fun _ => ()).names = row.names := by simp [names, map]
  rw [← hnames r, ← hnames s]
  refine congrArg names (ext_get? fun name => ?_)
  have hname := h name
  simp only [contains] at hname
  rw [get?_map, get?_map]
  cases hr : r.get? name <;> cases hs : s.get? name <;> simp_all

theorem get?_foldl_insert_lookup (row : Row α) (entries : List (String × α)) (name : String) :
    (entries.foldl (fun row e => row.insert e.1 e.2) row).get? name =
      (entries.reverse.lookup name).or (row.get? name) := by
  induction entries generalizing row with
  | nil => rfl
  | cons e entries ih =>
    obtain ⟨n, v⟩ := e
    rw [List.foldl_cons, ih, get?_insert, List.reverse_cons, List.lookup_append]
    by_cases hn : n = name
    · subst hn
      simp
    · have hne : (name == n) = false := by simpa using Ne.symm hn
      simp [List.lookup_cons, hne, hn]

theorem get?_ofList (entries : List (String × α)) (name : String) :
    (ofList entries).get? name = entries.reverse.lookup name := by
  rw [ofList, get?_foldl_insert_lookup, get?_empty, Option.or_none]

theorem mem_of_get?_ofList {entries : List (String × α)} {name : String} {value : α}
    (h : (ofList entries).get? name = some value) : (name, value) ∈ entries := by
  rw [get?_ofList, List.lookup_eq_some_iff] at h
  obtain ⟨before, rest, hsplit, -⟩ := h
  rw [← List.mem_reverse, hsplit]
  exact List.mem_append_right _ List.mem_cons_self

/-! ### Two rows -/

theorem get?_foldl_insert (row acc : Row α) {entries : List (String × α)} (h : RowSorted entries)
    (name : String) :
    (entries.foldl (fun r e => if row.contains e.1 then r else r.insert e.1 e.2) acc).get? name =
      if row.contains name then acc.get? name else (find? name entries <|> acc.get? name) := by
  induction entries generalizing acc with
  | nil => simp [find?]
  | cons head rest ih =>
    obtain ⟨n, v⟩ := head
    obtain ⟨hhead, hrest⟩ := List.pairwise_cons.1 h
    rw [List.foldl_cons, ih _ hrest]
    by_cases hn : n = name
    · subst hn
      have hnone : find? n rest = none := by
        rw [Option.eq_none_iff_forall_not_mem]
        intro w hw
        exact String.lt_irrefl n (hhead _ (mem_of_find? hw))
      by_cases hc : row.contains n = true
      · simp [hc]
      · simp [hc, hnone, find?, get?_insert]
    · by_cases hc : row.contains n = true
      · simp [hc, find?, hn]
      · simp [hc, find?, hn, get?_insert]

theorem get?_extend (row other : Row α) (name : String) :
    (row.extend other).get? name = (row.get? name <|> other.get? name) := by
  rw [extend, get?_foldl_insert row row other.sorted]
  by_cases hc : row.contains name = true
  · obtain ⟨v, hv⟩ := row.contains_iff.1 hc
    simp [hc, hv]
  · have hnone : row.get? name = none := by simpa [contains] using hc
    simp [hc, hnone]
    rfl

theorem mem_shared_iff (row other : Row α) {name : String} {v w : α} :
    (name, v, w) ∈ row.shared other ↔ row.get? name = some v ∧ other.get? name = some w := by
  simp only [shared, List.mem_filterMap, Prod.exists, Option.map_eq_some_iff, Prod.mk.injEq]
  constructor
  · rintro ⟨n, u, hmem, x, hx, rfl, rfl, rfl⟩
    exact ⟨hx, (other.mem_entries_iff).1 hmem⟩
  · rintro ⟨hv, hw⟩
    exact ⟨name, w, (other.mem_entries_iff).2 hw, v, hv, rfl, rfl, rfl⟩

theorem firstMissing?_eq_none_iff (row wanted : Row α) :
    row.firstMissing? wanted = none ↔
      ∀ name, wanted.contains name = true → row.contains name = true := by
  simp only [firstMissing?, List.find?_eq_none, mem_names_iff, Bool.not_eq_true, Bool.not_eq_false']

theorem missing_of_firstMissing? {row wanted : Row α} {name : String}
    (h : row.firstMissing? wanted = some name) :
    wanted.contains name = true ∧ row.contains name = false := by
  refine ⟨(wanted.mem_names_iff).1 (List.mem_of_find?_eq_some h), ?_⟩
  simpa using List.find?_some h

/-! ### Rows with their values replaced -/

section map

variable {β : Type} (f : α → β) (row other : Row α)

theorem map_id : row.map id = row := ext_get? fun name => by rw [get?_map, Option.map_id_fun, id]

@[simp] theorem names_map : (row.map f).names = row.names := by simp [names, map]

@[simp] theorem contains_map (name : String) : (row.map f).contains name = row.contains name := by
  rw [contains, contains, get?_map, Option.isSome_map]

@[simp] theorem firstMissing?_map : (row.map f).firstMissing? (other.map f) = row.firstMissing? other := by
  simp [firstMissing?]

theorem extend_map : (row.map f).extend (other.map f) = (row.extend other).map f := by
  refine ext_get? fun name => ?_
  rw [get?_extend, get?_map, get?_map, get?_map, get?_extend]
  cases row.get? name <;> rfl

theorem shared_map :
    (row.map f).shared (other.map f) = (row.shared other).map fun e => (e.1, f e.2.1, f e.2.2) := by
  have hentries : (other.map f).entries = other.entries.map fun e => (e.1, f e.2) := rfl
  rw [shared, shared, hentries, List.map_filterMap, List.filterMap_map]
  refine congrArg (List.filterMap · other.entries) (funext fun e => ?_)
  simp only [Function.comp_apply, get?_map, Option.map_map]
  rfl

theorem insert_map (name : String) (value : α) :
    (row.insert name value).map f = (row.map f).insert name (f value) := by
  refine ext_get? fun key => ?_
  rw [get?_map, get?_insert, get?_insert, get?_map]
  split <;> rfl

theorem filter_map (p : String → Bool) :
    (row.map f).filter (fun name _ => p name) = (row.filter fun name _ => p name).map f := by
  refine ext_entries ?_
  simp only [map, filter, List.filter_map]
  rfl

theorem ofList_map (entries : List (String × α)) :
    (ofList entries).map f = ofList (entries.map fun e => (e.1, f e.2)) := by
  have hfoldl (row : Row α) : (entries.foldl (fun row e => row.insert e.1 e.2) row).map f =
      (entries.map fun e => (e.1, f e.2)).foldl (fun row e => row.insert e.1 e.2) (row.map f) := by
    induction entries generalizing row with
    | nil => rfl
    | cons e entries ih => rw [List.foldl_cons, ih, insert_map, List.map_cons, List.foldl_cons]
  exact hfoldl empty

end map

end Row
end Monomorph
