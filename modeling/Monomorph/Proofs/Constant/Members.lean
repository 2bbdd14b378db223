import Mathlib
import Monomorph.Check
import Monomorph.Constant.Fold
import Monomorph.Proofs.Constant.Equality
import Monomorph.Proofs.Row

/-! # Objects in constants

The type of an object does not fix the order of its members, so two constants of one type may hold the same members
in another order. As maps from names to values they are the same (`Constant.canonical`, `canonical_object_perm`), but
folded comparisons look at the order too: without floats, a comparison tells whether two constants are the same maps
and list the members of their objects alike.

Main statement: `Expr.fold_equality`. -/

namespace Monomorph

/-! ### Rows of distinct names -/

namespace Row

variable {β : Type} {l l' : List (String × β)}

theorem exists_get?_ofList {name : String} (h : name ∈ l.map Prod.fst) :
    ∃ value, (ofList l).get? name = some value := by
  obtain ⟨⟨name, value⟩, hmem, rfl⟩ := List.mem_map.mp h
  rw [get?_ofList, ← Option.isSome_iff_exists, List.lookup_isSome_iff]
  exact ⟨(name, value), List.mem_reverse.mpr hmem, beq_self_eq_true name⟩

theorem get?_ofList_iff (once : (l.map Prod.fst).Nodup) {name : String} {value : β} :
    (ofList l).get? name = some value ↔ (name, value) ∈ l := by
  refine ⟨mem_of_get?_ofList, fun h => ?_⟩
  obtain ⟨value', h'⟩ := exists_get?_ofList (List.mem_map_of_mem h)
  have same := List.inj_on_of_nodup_map once (mem_of_get?_ofList h') h rfl
  rw [h', (Prod.mk.inj same).2]

/-- If two lists of the same names make the same row, so do they without their first members, and these are the same
unless their name is given again. -/
theorem ofList_cons_inj {name : String} {x y : β} (names : l.map Prod.fst = l'.map Prod.fst)
    (h : ofList ((name, x) :: l) = ofList ((name, y) :: l')) :
    ofList l = ofList l' ∧ (name ∉ l.map Prod.fst → x = y) := by
  have found (other : String) (l : List (String × β)) (z : β) : (ofList ((name, z) :: l)).get? other =
      ((ofList l).get? other).or (List.lookup other [(name, z)]) := by
    rw [get?_ofList, get?_ofList, List.reverse_cons, List.lookup_append]
  have missing {other : String} {l : List (String × β)} (hother : other ∉ l.map Prod.fst) :
      (ofList l).get? other = none := by
    rw [get?_ofList, List.lookup_eq_none_iff]
    rintro ⟨key, value⟩ hmem
    have : other ≠ key := by
      rintro rfl
      exact hother (List.mem_map_of_mem (List.mem_reverse.mp hmem))
    simpa using this
  have same (other : String) := congrArg (Row.get? · other) h
  simp only [found] at same
  constructor
  · refine ext_get? fun other => ?_
    by_cases hother : other ∈ l.map Prod.fst
    · obtain ⟨value, hvalue⟩ := exists_get?_ofList hother
      obtain ⟨value', hvalue'⟩ := exists_get?_ofList (names ▸ hother)
      simpa [hvalue, hvalue'] using same other
    · rw [missing hother, missing (names ▸ hother)]
  · intro hname
    have hname' : name ∉ l'.map Prod.fst := names ▸ hname
    simpa [missing hname, missing hname'] using same name

/-- The order in which distinct names are listed makes no difference to the row. -/
theorem ofList_perm (once : (l.map Prod.fst).Nodup) (h : l.Perm l') : ofList l = ofList l' := by
  have once' : (l'.map Prod.fst).Nodup := (h.map _).nodup_iff.mp once
  refine ext_get? fun name => Option.ext fun value => ?_
  rw [get?_ofList_iff once, get?_ofList_iff once', h.mem_iff]

end Row

namespace Constant

/-! ### Constants as maps -/

mutual

/-- The constant with every object in it as a map: its members in the order of their names, of those of one name the
last. -/
def canonical : Constant → Constant
  | array elements => array (canonicalElements elements)
  | object members => object (Row.ofList (canonicalMembers members)).entries
  | variant name payload => variant name payload.canonical
  | c => c

/-- The constants, with every object in them as a map. -/
def canonicalElements : List Constant → List Constant
  | [] => []
  | e :: rest => e.canonical :: canonicalElements rest

/-- The named constants, with every object in them as a map. -/
def canonicalMembers : List (String × Constant) → List (String × Constant)
  | [] => []
  | (name, e) :: rest => (name, e.canonical) :: canonicalMembers rest

end

mutual

/-- What a constant is made of: its arrays, its variants, and its objects with the names of their members in order. -/
def outline : Constant → Constant
  | array elements => array (outlineElements elements)
  | object members => object (outlineMembers members)
  | variant name payload => variant name payload.outline
  | _ => unit

def outlineElements : List Constant → List Constant
  | [] => []
  | e :: rest => e.outline :: outlineElements rest

def outlineMembers : List (String × Constant) → List (String × Constant)
  | [] => []
  | (name, e) :: rest => (name, e.outline) :: outlineMembers rest

end

mutual

/-- How a constant is listed: what it is made of, with the members that a later one of the name hides. -/
def listing : Constant → Constant
  | array elements => array (listingElements elements)
  | object members => object (listingMembers members)
  | variant name payload => variant name payload.listing
  | _ => unit

def listingElements : List Constant → List Constant
  | [] => []
  | e :: rest => e.listing :: listingElements rest

def listingMembers : List (String × Constant) → List (String × Constant)
  | [] => []
  | (name, e) :: rest => (name, if name ∈ rest.map Prod.fst then e else e.listing) :: listingMembers rest

end

mutual

/-- No object in the constant has two members of one name. -/
def NamesOnce : Constant → Prop
  | array elements => NamesOnceElements elements
  | object members => (members.map Prod.fst).Nodup ∧ NamesOnceMembers members
  | variant _ payload => payload.NamesOnce
  | _ => True

/-- No object in the constants has two members of one name. -/
def NamesOnceElements : List Constant → Prop
  | [] => True
  | e :: rest => e.NamesOnce ∧ NamesOnceElements rest

/-- No object in the named constants has two members of one name. -/
def NamesOnceMembers : List (String × Constant) → Prop
  | [] => True
  | (_, e) :: rest => e.NamesOnce ∧ NamesOnceMembers rest

end

theorem canonicalMembers_eq_map (ms : List (String × Constant)) :
    canonicalMembers ms = ms.map fun m => (m.1, m.2.canonical) := by
  induction ms with
  | nil => rfl
  | cons m ms ih => rw [canonicalMembers, ih, List.map_cons]

theorem outlineMembers_eq_map (ms : List (String × Constant)) :
    outlineMembers ms = ms.map fun m => (m.1, m.2.outline) := by
  induction ms with
  | nil => rfl
  | cons m ms ih => rw [outlineMembers, ih, List.map_cons]

theorem names_canonicalMembers (ms : List (String × Constant)) :
    (canonicalMembers ms).map Prod.fst = ms.map Prod.fst := by
  rw [canonicalMembers_eq_map, List.map_map]
  rfl

theorem names_outlineMembers (ms : List (String × Constant)) :
    (outlineMembers ms).map Prod.fst = ms.map Prod.fst := by
  rw [outlineMembers_eq_map, List.map_map]
  rfl

theorem names_listingMembers (ms : List (String × Constant)) :
    (listingMembers ms).map Prod.fst = ms.map Prod.fst := by
  induction ms with
  | nil => rfl
  | cons m ms ih => rw [listingMembers, List.map_cons, List.map_cons, ih]

/-- The order of its members makes no difference to an object as a map. -/
theorem canonical_object_perm {ms ns : List (String × Constant)} (once : (ms.map Prod.fst).Nodup)
    (h : ms.Perm ns) : (object ms).canonical = (object ns).canonical := by
  have maps : Row.ofList (canonicalMembers ms) = Row.ofList (canonicalMembers ns) := by
    refine Row.ofList_perm (by rwa [names_canonicalMembers]) ?_
    rw [canonicalMembers_eq_map, canonicalMembers_eq_map]
    exact h.map _
  rw [canonical, canonical, maps]

mutual

/-- Constants that are the same maps and are listed alike are the same. -/
theorem eq_of_listing_eq : (a b : Constant) → a.canonical = b.canonical → a.listing = b.listing → a = b
  | unit, b, h, hl | boolean _, b, h, hl | integer _, b, h, hl | float _, b, h, hl | string _, b, h, hl => by
    cases b <;> simp_all [canonical, listing]
  | array as, b, h, hl => by
    cases b with
    | array bs => exact congrArg array (elements_eq_of_listing_eq as bs (array.inj h) (array.inj hl))
    | _ => cases h
  | object ms, b, h, hl => by
    cases b with
    | object ns =>
      exact congrArg object (members_eq_of_listing_eq ms ns (Row.ext_entries (object.inj h)) (object.inj hl))
    | _ => cases h
  | variant m a, b, h, hl => by
    cases b with
    | variant n b =>
      obtain ⟨hname, hpayload⟩ := variant.inj h
      rw [hname, eq_of_listing_eq a b hpayload (variant.inj hl).2]
    | _ => cases h

theorem elements_eq_of_listing_eq : (as bs : List Constant) → canonicalElements as = canonicalElements bs →
    listingElements as = listingElements bs → as = bs
  | [], [], _, _ => rfl
  | a :: as, b :: bs, h, hl => by
    obtain ⟨h, hrest⟩ := List.cons.inj h
    obtain ⟨hl, hlrest⟩ := List.cons.inj hl
    rw [eq_of_listing_eq a b h hl, elements_eq_of_listing_eq as bs hrest hlrest]

theorem members_eq_of_listing_eq : (ms ns : List (String × Constant)) →
    Row.ofList (canonicalMembers ms) = Row.ofList (canonicalMembers ns) →
    listingMembers ms = listingMembers ns → ms = ns
  | [], [], _, _ => rfl
  | (m, a) :: ms, (n, b) :: ns, h, hl => by
    rw [listingMembers, listingMembers] at hl
    obtain ⟨hfirst, hlrest⟩ := List.cons.inj hl
    obtain ⟨rfl, hfirst⟩ := Prod.mk.inj hfirst
    have names : ms.map Prod.fst = ns.map Prod.fst := by
      rw [← names_listingMembers ms, hlrest, names_listingMembers]
    obtain ⟨hrest, hlast⟩ := Row.ofList_cons_inj
      (by rw [names_canonicalMembers, names, names_canonicalMembers]) h
    have hab : a = b := by
      by_cases again : m ∈ ms.map Prod.fst
      · rwa [if_pos again, if_pos (names ▸ again)] at hfirst
      · rw [if_neg again, if_neg (names ▸ again)] at hfirst
        exact eq_of_listing_eq a b (hlast (by rwa [names_canonicalMembers])) hfirst
    rw [hab, members_eq_of_listing_eq ms ns hrest hlrest]

end

mutual

/-- Where no object has two members of one name, what constants are made of says how they are listed. -/
theorem listing_eq_of_outline_eq : (a b : Constant) → a.NamesOnce → a.outline = b.outline → a.listing = b.listing
  | unit, b, _, h | boolean _, b, _, h | integer _, b, _, h | float _, b, _, h | string _, b, _, h => by
    cases b <;> simp_all [outline, listing]
  | array as, b, once, h => by
    cases b with
    | array bs => exact congrArg array (listingElements_eq_of_outline_eq as bs once (array.inj h))
    | _ => cases h
  | object ms, b, once, h => by
    cases b with
    | object ns => exact congrArg object (listingMembers_eq_of_outline_eq ms ns once.1 once.2 (object.inj h))
    | _ => cases h
  | variant m a, b, once, h => by
    cases b with
    | variant n b =>
      obtain ⟨rfl, hpayload⟩ := variant.inj h
      exact congrArg (variant m) (listing_eq_of_outline_eq a b once hpayload)
    | _ => cases h

theorem listingElements_eq_of_outline_eq : (as bs : List Constant) → NamesOnceElements as →
    outlineElements as = outlineElements bs → listingElements as = listingElements bs
  | [], [], _, _ => rfl
  | a :: as, b :: bs, once, h => by
    obtain ⟨h, hrest⟩ := List.cons.inj h
    rw [listingElements, listingElements, listing_eq_of_outline_eq a b once.1 h,
      listingElements_eq_of_outline_eq as bs once.2 hrest]

theorem listingMembers_eq_of_outline_eq : (ms ns : List (String × Constant)) → (ms.map Prod.fst).Nodup →
    NamesOnceMembers ms → outlineMembers ms = outlineMembers ns → listingMembers ms = listingMembers ns
  | [], [], _, _, _ => rfl
  | (m, a) :: ms, (n, b) :: ns, names, once, h => by
    obtain ⟨hfirst, hrest⟩ := List.cons.inj h
    obtain ⟨rfl, houtline⟩ := Prod.mk.inj hfirst
    obtain ⟨fresh, names⟩ := List.nodup_cons.mp names
    have same : ms.map Prod.fst = ns.map Prod.fst := by
      rw [← names_outlineMembers ms, hrest, names_outlineMembers]
    rw [listingMembers, listingMembers, if_neg fresh, if_neg (same ▸ fresh : m ∉ _),
      listing_eq_of_outline_eq a b once.1 houtline, listingMembers_eq_of_outline_eq ms ns names once.2 hrest]

end

end Constant

/-! ### Folded comparisons -/

namespace Expr

variable {α : Type} {globals : GlobalValues} {e₁ e₂ : Expr α} {a b : Constant}

theorem fold_equality_eq (h₁ : e₁.fold globals = .ok a) (h₂ : e₂.fold globals = .ok b) (m : Mark α) :
    (binary m .equal e₁ e₂).fold globals = .ok (.boolean (a == b)) ∧
      (binary m .notEqual e₁ e₂).fold globals = .ok (.boolean !(a == b)) := by
  constructor <;> rw [fold, h₁, h₂] <;> rfl

/-- Comparisons of constants without floats are folded: to whether they are the same, so, if no object names a
member twice, to whether they are the same maps and list the members of their objects in the same order. -/
theorem fold_equality (h₁ : e₁.fold globals = .ok a) (h₂ : e₂.fold globals = .ok b) (ha : a.FloatFree)
    (hb : b.FloatFree) (m : Mark α) :
    ∃ r, (binary m .equal e₁ e₂).fold globals = .ok (.boolean r) ∧
      (binary m .notEqual e₁ e₂).fold globals = .ok (.boolean !r) ∧
      (r = true ↔ a = b) ∧
      (a.NamesOnce → (r = true ↔ a.canonical = b.canonical ∧ a.outline = b.outline)) := by
  obtain ⟨equal, different⟩ := fold_equality_eq h₁ h₂ m
  have same := Constant.beq_iff_eq_of_floatFree ha hb
  refine ⟨a == b, equal, different, same, fun once => same.trans ⟨?_, ?_⟩⟩
  · rintro rfl
    exact ⟨rfl, rfl⟩
  · rintro ⟨maps, order⟩
    exact Constant.eq_of_listing_eq a b maps (Constant.listing_eq_of_outline_eq a b once order)

/-- `{ x = 1, y = { } } == { x = 1, y = { } }` is true. -/
theorem fold_equality_alike :
    let e : Expr Unit := .object ⟨.none, ()⟩
      [("x", .literal ⟨.none, ()⟩ (.integer 1)), ("y", .object ⟨.none, ()⟩ [])]
    let globals : GlobalValues := fun path _ span => .error (.unresolved (some path) span)
    (binary ⟨.none, ()⟩ .equal e e).fold globals = .ok (.boolean true) := by
  intro e globals
  have folded : e.fold globals = .ok (.object [("x", .integer 1), ("y", .object [])]) := rfl
  obtain ⟨r, equal, -, -, alike⟩ := fold_equality folded folded rfl rfl ⟨.none, ()⟩
  have once : (Constant.object [("x", .integer 1), ("y", .object [])]).NamesOnce := by
    simp [Constant.NamesOnce, Constant.NamesOnceMembers]
  rw [equal, (alike once).mpr ⟨rfl, rfl⟩]

end Expr

/-- The check of a program whose only symbol is a module variable of this value. -/
def checkedValue (value : Expr Unit) : List TypeError × Program :=
  (((Program.empty .modules).add ⟨.single "value", .none, .moduleVariable value⟩).2).check ⟨[.single "value"], false⟩

/-- The value that is kept of the variable. -/
def keptValue (value : Expr Unit) : Option (Expr TypeVar) :=
  match ((checkedValue value).2.workspace.variants.ofSymbol 0)[0]? >>= Variant.body with
  | some [e] => some e
  | _ => none

/-- `{ x = 1, y = 2 } == { y = 2, x = 1 }` -/
def reorderedComparison : Expr Unit :=
  let m : Mark Unit := ⟨.none, ()⟩
  let number (i : Int64) : Expr Unit := .literal m (.integer i)
  .binary m .equal (.object m [("x", number 1), ("y", number 2)]) (.object m [("y", number 2), ("x", number 1)])

/-- The comparison is accepted and folded to `false`, though the two objects are the same maps. -/
theorem fold_equality_reordered : (checkedValue reorderedComparison).1 = [] ∧
    (∃ e, keptValue reorderedComparison = some e ∧
      ∀ globals, e.fold globals = .ok (.boolean false)) ∧
    (Constant.object [("x", .integer 1), ("y", .integer 2)]).canonical =
      (Constant.object [("y", .integer 2), ("x", .integer 1)]).canonical := by
  have kept : ∃ m m₁ m₂ n₁ n₂ n₃ n₄, keptValue reorderedComparison = some
      (.binary m .equal (.object m₁ [("x", .literal n₁ (.integer 1)), ("y", .literal n₂ (.integer 2))])
        (.object m₂ [("y", .literal n₃ (.integer 2)), ("x", .literal n₄ (.integer 1))])) :=
    ⟨_, _, _, _, _, _, _, by cbv⟩
  obtain ⟨m, m₁, m₂, n₁, n₂, n₃, n₄, kept⟩ := kept
  exact ⟨by cbv, ⟨_, kept, fun _ => rfl⟩, Constant.canonical_object_perm (by decide) (.swap ..)⟩

end Monomorph
