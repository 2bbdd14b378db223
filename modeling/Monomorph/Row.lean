/-!
# Rows

A row maps names to values: the members of an object type, the variants of a union type, the locals of
a block, the names visible to an instruction list. Its entries are strictly sorted by name, so a row has
one form for each map and is listed in one order.

`Row.get?_insert` says what insertion does to the map, `Row.get?_map` and `Row.get?_filter` likewise.
-/

namespace Monomorph

def RowSorted {α : Type} (entries : List (String × α)) : Prop :=
  entries.Pairwise (·.1 < ·.1)

/-- A finite map from names to values, its entries strictly sorted by name. -/
structure Row (α : Type) where
  entries : List (String × α)
  sorted : RowSorted entries

namespace Row

variable {α β : Type}

/-! ### Entries -/

/-- Put an entry at its place, replacing one of the same name. -/
def insertEntry (name : String) (value : α) : List (String × α) → List (String × α)
  | [] => [(name, value)]
  | (n, v) :: rest =>
    if name < n then (name, value) :: (n, v) :: rest
    else if name = n then (name, value) :: rest
    else (n, v) :: insertEntry name value rest

theorem mem_insertEntry {name : String} {value : α} {e : String × α} {l : List (String × α)}
    (h : e ∈ insertEntry name value l) : e = (name, value) ∨ e ∈ l := by
  induction l with
  | nil => simpa [insertEntry] using h
  | cons head rest ih =>
    obtain ⟨n, v⟩ := head
    simp only [insertEntry] at h
    split at h
    · simpa using h
    · split at h
      · rcases List.mem_cons.1 h with h | h
        · exact .inl h
        · exact .inr (List.mem_cons_of_mem _ h)
      · rcases List.mem_cons.1 h with h | h
        · exact .inr (h ▸ List.mem_cons_self)
        · exact (ih h).imp_right (List.mem_cons_of_mem _)

theorem insertEntry_sorted (name : String) (value : α) {l : List (String × α)}
    (h : RowSorted l) : RowSorted (insertEntry name value l) := by
  induction l with
  | nil => exact List.pairwise_singleton ..
  | cons head rest ih =>
    obtain ⟨n, v⟩ := head
    obtain ⟨hhead, hrest⟩ := List.pairwise_cons.1 h
    simp only [insertEntry]
    split
    · rename_i hlt
      refine List.pairwise_cons.2 ⟨fun e he => ?_, h⟩
      rcases List.mem_cons.1 he with he | he
      · exact he ▸ hlt
      · exact String.lt_trans hlt (hhead e he)
    · split
      · rename_i heq
        exact List.pairwise_cons.2 ⟨fun e he => heq ▸ hhead e he, hrest⟩
      · rename_i hlt hne
        refine List.pairwise_cons.2 ⟨fun e he => ?_, ih hrest⟩
        rcases mem_insertEntry he with he | he
        · subst he
          apply Decidable.byContradiction
          intro hnot
          exact hne (String.le_antisymm hnot hlt)
        · exact hhead e he

/-- The value of a name among entries. -/
def find? (name : String) : List (String × α) → Option α
  | [] => none
  | (n, v) :: rest => if n = name then some v else find? name rest

theorem find?_insertEntry (name key : String) (value : α) (l : List (String × α)) :
    find? key (insertEntry name value l) = if name = key then some value else find? key l := by
  induction l with
  | nil => rfl
  | cons head rest ih =>
    obtain ⟨n, v⟩ := head
    simp only [insertEntry]
    split
    · rfl
    · split
      · rename_i heq
        subst heq
        by_cases hk : name = key <;> simp [find?, hk]
      · rename_i hne
        simp only [find?, ih]
        by_cases hk : name = key
        · subst hk; simp [Ne.symm hne]
        · simp [hk]

theorem mapEntries_sorted (f : α → β) {l : List (String × α)} (h : RowSorted l) :
    RowSorted (l.map fun e => (e.1, f e.2)) := by
  unfold RowSorted
  rw [List.pairwise_map]
  exact h

/-! ### Operations -/

def empty : Row α := ⟨[], List.Pairwise.nil⟩

instance : Inhabited (Row α) := ⟨empty⟩

def get? (row : Row α) (name : String) : Option α := find? name row.entries

def contains (row : Row α) (name : String) : Bool := (row.get? name).isSome

/-- Give a name a value, replacing the one it had. -/
def insert (row : Row α) (name : String) (value : α) : Row α :=
  ⟨insertEntry name value row.entries, insertEntry_sorted name value row.sorted⟩

/-- The row of a list of entries, of which the last of a name counts. -/
def ofList (entries : List (String × α)) : Row α :=
  entries.foldl (fun row e => row.insert e.1 e.2) empty

def names (row : Row α) : List String := row.entries.map (·.1)

/-- All values, in the order of their names. -/
def values (row : Row α) : List α := row.entries.map (·.2)

def map (f : α → β) (row : Row α) : Row β :=
  ⟨row.entries.map fun e => (e.1, f e.2), mapEntries_sorted f row.sorted⟩

/-- Keep the entries that satisfy a condition. -/
def filter (p : String → α → Bool) (row : Row α) : Row α :=
  ⟨row.entries.filter fun e => p e.1 e.2, row.sorted.filter _⟩

/-! ### Laws -/

theorem ext_entries {r s : Row α} (h : r.entries = s.entries) : r = s := by
  obtain ⟨_, _⟩ := r; obtain ⟨_, _⟩ := s; cases h; rfl

instance [DecidableEq α] : DecidableEq (Row α) := fun r s =>
  if h : r.entries = s.entries then isTrue (ext_entries h)
  else isFalse fun hrs => h (hrs ▸ rfl)

@[simp] theorem get?_empty (name : String) : (empty : Row α).get? name = none := rfl

theorem get?_insert (row : Row α) (name key : String) (value : α) :
    (row.insert name value).get? key = if name = key then some value else row.get? key :=
  find?_insertEntry name key value row.entries

theorem get?_map (f : α → β) (row : Row α) (name : String) :
    (row.map f).get? name = (row.get? name).map f := by
  obtain ⟨entries, _⟩ := row
  simp only [get?, map]
  induction entries with
  | nil => rfl
  | cons head rest ih =>
    obtain ⟨n, v⟩ := head
    simp only [List.map_cons, find?]
    split
    · rfl
    · exact ih (by rename_i h _; exact (List.pairwise_cons.1 h).2)

end Row

abbrev NameSet := Row Unit

namespace NameSet

def ofNames (names : List String) : NameSet := Row.ofList (names.map (·, ()))

def add (set : NameSet) (name : String) : NameSet := Row.insert set name ()

end NameSet
end Monomorph
