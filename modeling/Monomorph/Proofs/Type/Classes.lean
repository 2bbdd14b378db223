import Mathlib.Data.Set.Basic
import Mathlib.Logic.Relation
import Monomorph.Proofs.Type.Refine
import Monomorph.Type.Unify

/-! # Classes of the type graph

How the operations on the type graph change its classes and their types. A class is known by its root,
and everything that is read of a variable depends on its root only (`TypeGraph.get_eq_of_same`).

* `TypeGraph.rootIndex_joinIndex`, `TypeGraph.get_joinIndex`: joining two roots makes one class of the
  given type and leaves every other class alone; `TypeGraph.same_joinIndex_iff` says it for pairs.
* `TypeGraph.rootIndex_set`, `TypeGraph.rootIndex_alloc` and the lemmas on `get` beside them.
* `TypeGraph.WellFormed`: types mention allocated variables only.
* `TypeGraph.Region`: a set of variables closed under classes and under the step into a type. What is
  done inside a region leaves everything outside as it is. -/

namespace Monomorph

/-- The variables in the type stored in a cell. -/
def Cell.vars : Cell → List TypeVar
  | link _ => []
  | root t => t.kind.children

namespace TypeGraph

variable {g : TypeGraph}

/-! ### Roots -/

theorem rootIndex_of_isRoot {i : Nat} (h : g.isRoot i = true) : g.rootIndex i = i := by
  unfold isRoot at h
  unfold rootIndex
  split
  · rename_i j hj
    rw [hj] at h
    simp only [Bool.not_eq_true', decide_eq_false_iff_not] at h
    rw [if_neg h]
  · rfl

theorem isRoot_iff {i : Nat} : g.isRoot i = true ↔ g.rootIndex i = i :=
  ⟨rootIndex_of_isRoot, fun h => h ▸ g.isRoot_rootIndex i⟩

@[simp] theorem rootIndex_rootIndex (g : TypeGraph) (i : Nat) :
    g.rootIndex (g.rootIndex i) = g.rootIndex i :=
  rootIndex_of_isRoot (g.isRoot_rootIndex i)

theorem rootIndex_of_size_le {i : Nat} (h : g.size ≤ i) : g.rootIndex i = i := by
  have hnone : g.cells[i]? = none := Array.getElem?_eq_none h
  unfold rootIndex
  rw [hnone]

theorem rootIndex_lt_size {i : Nat} (h : i < g.size) : g.rootIndex i < g.size :=
  Nat.lt_of_le_of_lt (g.rootIndex_le i) h

theorem lt_size_of_rootIndex {i : Nat} (h : g.rootIndex i < g.size) : i < g.size := by
  by_contra hi
  rw [rootIndex_of_size_le (Nat.le_of_not_lt hi)] at h
  exact hi h

def typeAt (g : TypeGraph) (i : Nat) : Ty :=
  match g.cells[i]? with
  | some (.root t) => t
  | _ => Ty.any

theorem get_eq_typeAt (v : TypeVar) : g.get v = g.typeAt (g.rootIndex v.index) := rfl

theorem get_of_size_le {v : TypeVar} (h : g.size ≤ v.index) : g.get v = Ty.any := by
  rw [get_eq_typeAt, rootIndex_of_size_le h, typeAt, Array.getElem?_eq_none h]

theorem rootIndex_congr {g' : TypeGraph}
    (h : ∀ i j : Nat, g'.cells[i]? = some (Cell.link j) ∧ j < i ↔
      g.cells[i]? = some (Cell.link j) ∧ j < i)
    (i : Nat) : g'.rootIndex i = g.rootIndex i := by
  have hstep (g : TypeGraph) (i : Nat) :
      (∃ j, (g.cells[i]? = some (Cell.link j) ∧ j < i) ∧ g.rootIndex i = g.rootIndex j) ∨
        (∀ j, ¬ (g.cells[i]? = some (Cell.link j) ∧ j < i)) ∧ g.rootIndex i = i := by
    rw [rootIndex]
    split
    · rename_i j hj
      by_cases hlt : j < i
      · exact .inl ⟨j, ⟨hj, hlt⟩, if_pos hlt⟩
      · refine .inr ⟨fun k hk => hlt ?_, if_neg hlt⟩
        cases hj.symm.trans hk.1
        exact hk.2
    · rename_i hj
      exact .inr ⟨fun k hk => hj k hk.1, rfl⟩
  induction i using Nat.strongRecOn with
  | ind i ih =>
    rcases hstep g i with ⟨j, hj, hroot⟩ | ⟨hnone, hroot⟩
    · rcases hstep g' i with ⟨j', hj', hroot'⟩ | ⟨hnone', -⟩
      · have heq : some (Cell.link j') = some (.link j) := ((h i j').1 hj').1.symm.trans hj.1
        cases heq
        rw [hroot, hroot', ih j hj.2]
      · exact absurd ((h i j).2 hj) (hnone' j)
    · rcases hstep g' i with ⟨j', hj', -⟩ | ⟨-, hroot'⟩
      · exact absurd ((h i j').1 hj') (hnone j')
      · rw [hroot, hroot']

/-! ### The classes as a relation -/

def Same (g : TypeGraph) : VarRel := fun v w => g.same v w = true

theorem same_iff {v w : TypeVar} : g.Same v w ↔ g.rootIndex v.index = g.rootIndex w.index := by
  simp [Same, same, find]

theorem same_equivalence (g : TypeGraph) : Equivalence g.Same where
  refl _ := same_iff.2 rfl
  symm h := same_iff.2 (same_iff.1 h).symm
  trans h h' := same_iff.2 ((same_iff.1 h).trans (same_iff.1 h'))

theorem get_eq_of_same {v w : TypeVar} (h : g.Same v w) : g.get v = g.get w := by
  rw [get_eq_typeAt, get_eq_typeAt, same_iff.1 h]

theorem kind_eq_of_same {v w : TypeVar} (h : g.Same v w) : g.kind v = g.kind w :=
  congrArg Ty.kind (get_eq_of_same h)

theorem same_root (g : TypeGraph) (v : TypeVar) : g.Same ⟨g.rootIndex v.index⟩ v :=
  same_iff.2 (g.rootIndex_rootIndex v.index)

/-! ### Joining -/

section join

variable {i j : Nat} {t : Ty}

theorem cells_joinIndex (hi : i < g.size) (hj : j < g.size) (k : Nat) :
    (g.joinIndex i j t).cells[k]? =
      if k = max i j then some (.link (min i j))
      else if k = min i j then some (.root t) else g.cells[k]? := by
  have hmax : max i j < g.cells.size := Nat.max_lt.2 ⟨hi, hj⟩
  have hmin : min i j < g.cells.size := Nat.lt_of_le_of_lt (Nat.min_le_left i j) hi
  simp only [joinIndex, Array.getElem?_setIfInBounds, Array.size_setIfInBounds, hmax, hmin, if_true,
    eq_comm (a := k)]

theorem rootIndex_joinIndex (hi : i < g.size) (hj : j < g.size) (hne : i ≠ j)
    (hrooti : g.rootIndex i = i) (hrootj : g.rootIndex j = j) (k : Nat) :
    (g.joinIndex i j t).rootIndex k =
      if g.rootIndex k = i ∨ g.rootIndex k = j then min i j else g.rootIndex k := by
  have hcells := cells_joinIndex (t := t) hi hj
  have hlt : min i j < max i j := by omega
  have hmin : (g.joinIndex i j t).rootIndex (min i j) = min i j := by
    rw [rootIndex, hcells, if_neg (by omega), if_pos rfl]
  induction k using Nat.strongRecOn with
  | ind k ih =>
    by_cases hkmax : k = max i j
    · have hk : k = i ∨ k = j := by omega
      have hroot : g.rootIndex k = k := by rcases hk with rfl | rfl <;> assumption
      rw [rootIndex, hcells, if_pos hkmax, hroot, if_pos hk]
      simp only [hkmax, hlt, if_true, hmin]
    · by_cases hkmin : k = min i j
      · have hk : k = i ∨ k = j := by omega
        have hroot : g.rootIndex k = k := by rcases hk with rfl | rfl <;> assumption
        rw [hroot, if_pos hk, hkmin, hmin]
      · have hki : k ≠ i ∧ k ≠ j := by omega
        rw [rootIndex, hcells, if_neg hkmax, if_neg hkmin, rootIndex]
        split
        · rename_i l _
          split
          · rename_i hl
            exact ih l hl
          · rw [if_neg (by omega)]
        · rw [if_neg (by omega)]

theorem get_joinIndex (hi : i < g.size) (hj : j < g.size) (hne : i ≠ j)
    (hrooti : g.rootIndex i = i) (hrootj : g.rootIndex j = j) (v : TypeVar) :
    (g.joinIndex i j t).get v =
      if g.rootIndex v.index = i ∨ g.rootIndex v.index = j then t else g.get v := by
  rw [get_eq_typeAt, rootIndex_joinIndex hi hj hne hrooti hrootj, typeAt, cells_joinIndex hi hj]
  by_cases h : g.rootIndex v.index = i ∨ g.rootIndex v.index = j
  · rw [if_pos h, if_pos h, if_neg (by omega), if_pos rfl]
  · rw [if_neg h, if_neg h, if_neg (by omega), if_neg (by omega)]
    rfl

/-- A relation of classes after a join: the two classes are one. -/
theorem same_joinIndex_iff (hi : i < g.size) (hj : j < g.size) (hne : i ≠ j)
    (hrooti : g.rootIndex i = i) (hrootj : g.rootIndex j = j) {v w : TypeVar} :
    (g.joinIndex i j t).Same v w ↔
      g.Same v w ∨ (g.rootIndex v.index = i ∨ g.rootIndex v.index = j) ∧
        (g.rootIndex w.index = i ∨ g.rootIndex w.index = j) := by
  simp only [same_iff, rootIndex_joinIndex hi hj hne hrooti hrootj]
  split <;> split <;> omega

end join

/-! ### Setting and allocating -/

theorem size_set (g : TypeGraph) (v : TypeVar) (t : Ty) : (g.set v t).size = g.size := by
  simp [set, size]

theorem rootIndex_set (g : TypeGraph) (v : TypeVar) (t : Ty) (i : Nat) :
    (g.set v t).rootIndex i = g.rootIndex i := by
  refine rootIndex_congr (fun k j => ?_) i
  simp only [set, Array.getElem?_setIfInBounds]
  split
  · rename_i hk
    have hroot : g.isRoot k = true := hk ▸ g.isRoot_rootIndex _
    constructor
    · rintro ⟨h, -⟩
      split at h <;> cases h
    · rintro ⟨h, hlt⟩
      simp [isRoot, h, hlt] at hroot
  · rfl

theorem get_set {v : TypeVar} (hv : v.index < g.size) (t : Ty) (w : TypeVar) :
    (g.set v t).get w = if g.same v w then t else g.get w := by
  have hroot : g.rootIndex v.index < g.cells.size := rootIndex_lt_size hv
  rw [get_eq_typeAt, rootIndex_set, typeAt, set, Array.getElem?_setIfInBounds]
  by_cases h : g.rootIndex v.index = g.rootIndex w.index
  · rw [if_pos h, if_pos hroot, if_pos (show g.same v w = true from same_iff.2 h)]
  · rw [if_neg h, if_neg fun hs : g.same v w = true => h (same_iff.1 hs)]
    rfl

theorem size_alloc (g : TypeGraph) (t : Ty) : (g.alloc t).2.size = g.size + 1 := by
  simp [alloc, size]

theorem rootIndex_alloc (g : TypeGraph) (t : Ty) (i : Nat) :
    (g.alloc t).2.rootIndex i = g.rootIndex i := by
  refine rootIndex_congr (fun k j => ?_) i
  simp only [alloc, Array.getElem?_push]
  split
  · rename_i hk
    have hnone : g.cells[k]? = none := Array.getElem?_eq_none (Nat.le_of_eq hk.symm)
    simp [hnone]
  · rfl

theorem get_alloc (g : TypeGraph) (t : Ty) (w : TypeVar) :
    (g.alloc t).2.get w = if w.index = g.size then t else g.get w := by
  rw [get_eq_typeAt, rootIndex_alloc, typeAt, alloc, Array.getElem?_push]
  by_cases h : w.index = g.size
  · rw [if_pos h, if_pos (h ▸ rootIndex_of_size_le (Nat.le_refl _))]
  · have hroot : g.rootIndex w.index ≠ g.cells.size := by
      intro hroot
      by_cases hlt : w.index < g.size
      · exact Nat.ne_of_lt (rootIndex_lt_size hlt) hroot
      · exact h (rootIndex_of_size_le (Nat.le_of_not_lt hlt) ▸ hroot)
    rw [if_neg h, if_neg hroot]
    rfl

/-! ### Well-formed graphs -/

/-- Types mention allocated variables only. -/
def WellFormed (g : TypeGraph) : Prop :=
  ∀ v w : TypeVar, w ∈ (g.kind v).children → w.index < g.size

theorem size_le_of_kind_eq_any {v : TypeVar} (h : g.size ≤ v.index) : g.kind v = .any :=
  congrArg Ty.kind (get_of_size_le h)

/-- A variable's kind is stored somewhere, or unknown. -/
theorem kind_eq_any_or_mem (g : TypeGraph) (v : TypeVar) :
    g.kind v = .any ∨ ∃ t, Cell.root t ∈ g.cells.toList ∧ g.kind v = t.kind := by
  rw [kind, get_eq_typeAt, typeAt]
  split
  · rename_i t ht
    exact .inr ⟨t, Array.mem_toList_iff.2 (Array.mem_of_getElem? ht), rfl⟩
  · exact .inl rfl

theorem wellFormed_of_cells
    (h : ∀ c ∈ g.cells.toList, ∀ w ∈ c.vars, w.index < g.size) : g.WellFormed := by
  intro v w hw
  rcases g.kind_eq_any_or_mem v with hv | ⟨t, ht, hv⟩
  · rw [hv] at hw
    cases hw
  · rw [hv] at hw
    exact h _ ht w hw

/-! ### Regions -/

/-- A variable leads to another by staying in its class and by stepping into types. -/
def Reaches (g : TypeGraph) : VarRel :=
  Relation.ReflTransGen fun v w => g.Same v w ∨ w ∈ (g.kind v).children

/-- A set of variables that is a union of classes and closed under the step into a type. -/
structure Region (g : TypeGraph) (s : Set TypeVar) : Prop where
  same : ∀ {v w}, v ∈ s → g.Same v w → w ∈ s
  children : ∀ {v w}, v ∈ s → w ∈ (g.kind v).children → w ∈ s

/-- `g.Within s g'`: the graph `g'` comes from `g` by changes inside the region `s`. -/
structure Within (g : TypeGraph) (s : Set TypeVar) (g' : TypeGraph) : Prop where
  region : g'.Region s
  root : ∀ v ∉ s, g'.rootIndex v.index = g.rootIndex v.index
  type : ∀ v ∉ s, g'.get v = g.get v

theorem Within.refl {s : Set TypeVar} (h : g.Region s) : g.Within s g :=
  ⟨h, fun _ _ => rfl, fun _ _ => rfl⟩

theorem Within.trans {s : Set TypeVar} {g' g'' : TypeGraph} (h : g.Within s g')
    (h' : g'.Within s g'') : g.Within s g'' where
  region := h'.region
  root v hv := (h'.root v hv).trans (h.root v hv)
  type v hv := (h'.type v hv).trans (h.type v hv)

theorem Within.same_iff {s : Set TypeVar} {g' : TypeGraph} (hs : g.Region s) (h : g.Within s g')
    {v : TypeVar} (hv : v ∉ s) (w : TypeVar) : g'.Same v w ↔ g.Same v w := by
  by_cases hw : w ∈ s
  · constructor
    · intro hsame
      exact absurd (h.region.same hw ((same_equivalence g').symm hsame)) hv
    · intro hsame
      exact absurd (hs.same hw ((same_equivalence g).symm hsame)) hv
  · rw [TypeGraph.same_iff, TypeGraph.same_iff, h.root v hv, h.root w hw]

theorem region_reaches (g : TypeGraph) (a b : TypeVar) :
    g.Region {v | g.Reaches a v ∨ g.Reaches b v} where
  same hv hsame := hv.imp (·.tail (.inl hsame)) (·.tail (.inl hsame))
  children hv hw := hv.imp (·.tail (.inr hw)) (·.tail (.inr hw))

/-- Joining two classes of a region into a type over the region is a change inside it. -/
theorem within_joinIndex {s : Set TypeVar} (hs : g.Region s) {i j : Nat} {t : Ty}
    (hi : i < g.size) (hj : j < g.size) (hne : i ≠ j) (hrooti : g.rootIndex i = i)
    (hrootj : g.rootIndex j = j) (his : (⟨i⟩ : TypeVar) ∈ s) (hjs : (⟨j⟩ : TypeVar) ∈ s)
    (ht : ∀ w ∈ t.kind.children, w ∈ s) : g.Within s (g.joinIndex i j t) := by
  have hclass {v : TypeVar} (h : g.rootIndex v.index = i ∨ g.rootIndex v.index = j) : v ∈ s := by
    rcases h with h | h
    · exact hs.same his (TypeGraph.same_iff.2 (hrooti.trans h.symm))
    · exact hs.same hjs (TypeGraph.same_iff.2 (hrootj.trans h.symm))
  refine ⟨⟨fun hv hsame => ?_, fun {v w} hv hw => ?_⟩, fun v hv => ?_, fun v hv => ?_⟩
  · rcases (same_joinIndex_iff hi hj hne hrooti hrootj).1 hsame with hsame | ⟨-, hw⟩
    · exact hs.same hv hsame
    · exact hclass hw
  · rw [kind, get_joinIndex hi hj hne hrooti hrootj] at hw
    split at hw
    · exact ht w hw
    · exact hs.children hv hw
  · rw [rootIndex_joinIndex hi hj hne hrooti hrootj, if_neg fun h => hv (hclass h)]
  · rw [get_joinIndex hi hj hne hrooti hrootj, if_neg fun h => hv (hclass h)]

/-- A region that contains all variables to come and whose types mention allocated variables only. -/
structure Closed (g : TypeGraph) (s : Set TypeVar) : Prop where
  region : g.Region s
  allocated : ∀ {v w}, v ∈ s → w ∈ (g.kind v).children → w.index < g.size
  fresh : ∀ {v : TypeVar}, g.size ≤ v.index → v ∈ s

/-- An allocated variable of a region. -/
def Known (g : TypeGraph) (s : Set TypeVar) (v : TypeVar) : Prop := v ∈ s ∧ v.index < g.size

theorem WellFormed.closed (hg : g.WellFormed) : g.Closed Set.univ :=
  ⟨⟨fun _ _ => trivial, fun _ _ => trivial⟩, fun _ hw => hg _ _ hw, fun _ => trivial⟩

theorem Closed.wellFormed (hg : g.Closed Set.univ) : g.WellFormed := fun _ _ hw => hg.allocated trivial hw

namespace Closed

variable {s : Set TypeVar} {v w : TypeVar}

theorem child (hs : g.Closed s) (hv : v ∈ s) (hw : w ∈ (g.kind v).children) : g.Known s w :=
  ⟨hs.region.children hv hw, hs.allocated hv hw⟩

theorem root (hs : g.Closed s) (hv : g.Known s v) : g.Known s ⟨g.rootIndex v.index⟩ :=
  ⟨hs.region.same hv.1 ((same_equivalence g).symm (g.same_root v)), rootIndex_lt_size hv.2⟩

theorem joinIndex (hs : g.Closed s) {i j : Nat} {t : Ty} (hi : g.Known s ⟨i⟩) (hj : g.Known s ⟨j⟩)
    (hne : i ≠ j) (hrooti : g.rootIndex i = i) (hrootj : g.rootIndex j = j)
    (ht : ∀ w ∈ t.kind.children, g.Known s w) : (g.joinIndex i j t).Closed s where
  region := (within_joinIndex hs.region hi.2 hj.2 hne hrooti hrootj hi.1 hj.1
    fun w hw => (ht w hw).1).region
  allocated {v w} hv hw := by
    rw [size_joinIndex]
    rw [kind, get_joinIndex hi.2 hj.2 hne hrooti hrootj] at hw
    split at hw
    · exact (ht w hw).2
    · exact hs.allocated hv hw
  fresh h := hs.fresh (size_joinIndex g i j t ▸ h)

end Closed

end TypeGraph
end Monomorph
