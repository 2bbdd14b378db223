import Monomorph.Proofs.Type.Narrowing
import Monomorph.Proofs.Type.Sharpening

/-! # Copies of part of a graph

`TypeGraph.copyAll` finds the classes reachable from some variables and adds a copy of each. The search
keeps its numbering consistent (`Discovery.Sound`) and only ever adds to it (`Discovery.Grows`); when
nothing is pending, what it found is closed under the step into types, so it is what is reachable
(`Discovery.has_root_iff`).

The copy is a *mirror image* of what is reachable (`TypeGraph.Mirrors`, `copyAll_mirrors`): one class for
each class, with the same type over the copies. Nothing that was there is changed. -/

namespace Monomorph

/-- The same type with every variable inside it replaced. -/
def Ty.mapVars (f : TypeVar → TypeVar) (t : Ty) : Ty := ⟨t.kind.mapVars f, t.origin⟩

theorem Kind.children_mapVars (f : TypeVar → TypeVar) (k : Kind) :
    (k.mapVars f).children = k.children.map f := by
  cases k <;> simp [mapVars, children, Row.values, Row.map]

theorem Kind.mapVars_id (k : Kind) : k.mapVars id = k := by
  cases k <;> simp [mapVars, Row.map_id]

theorem Kind.mapVars_mapVars (f f' : TypeVar → TypeVar) (k : Kind) :
    (k.mapVars f).mapVars f' = k.mapVars fun v => f' (f v) := by
  have hrow (row : Row TypeVar) : (row.map f).map f' = row.map fun v => f' (f v) :=
    Row.ext_get? fun name => by simp [Row.get?_map, Function.comp_def]
  cases k <;> simp [mapVars, hrow, Function.comp_def]

/-! ### The search -/

namespace Discovery

variable {g : TypeGraph} {d d' d'' : Discovery} {t : Set TypeVar} {vs : List TypeVar}

def Has (d : Discovery) (r : Nat) : Prop := ∃ i : Nat, d.found[i]? = some r

/-- The table of places belongs to the list of roots found, all of which are roots in the region `t`. -/
structure Sound (g : TypeGraph) (t : Set TypeVar) (d : Discovery) : Prop where
  place : ∀ r i : Nat, d.place[r]? = some i ↔ d.found[i]? = some r
  root : ∀ r, d.Has r → g.rootIndex r = r
  inside : ∀ r, d.Has r → (⟨r⟩ : TypeVar) ∈ t
  pending : ∀ r ∈ d.pending, d.Has r

theorem Sound.contains_iff (h : d.Sound g t) (r : Nat) : d.place.contains r = true ↔ d.Has r := by
  rw [Std.HashMap.contains_eq_isSome_getElem?, Option.isSome_iff_exists]
  exact exists_congr fun i => h.place r i

theorem sound_empty : empty.Sound g t :=
  ⟨fun r i => by simp [empty], fun r ⟨i, h⟩ => by simp [empty] at h, fun r ⟨i, h⟩ => by simp [empty] at h,
    nofun⟩

/-- What was found stays found, and what is new is waiting to be looked into, unless there is nothing
inside it. -/
structure Grows (g : TypeGraph) (d d' : Discovery) : Prop where
  has : ∀ r, d.Has r → d'.Has r
  pending : ∀ r ∈ d.pending, r ∈ d'.pending
  new : ∀ r, d'.Has r → d.Has r ∨ r ∈ d'.pending ∨ g.size ≤ r

theorem Grows.refl (g : TypeGraph) (d : Discovery) : d.Grows g d :=
  ⟨fun _ h => h, fun _ h => h, fun _ h => .inl h⟩

theorem Grows.trans (h : d.Grows g d') (h' : d'.Grows g d'') : d.Grows g d'' where
  has r hr := h'.has r (h.has r hr)
  pending r hr := h'.pending r (h.pending r hr)
  new r hr := by
    rcases h'.new r hr with hr | hr
    · exact (h.new r hr).imp_right (Or.imp_left (h'.pending r))
    · exact .inr hr

theorem visit_spec (h : d.Sound g t) (ht : g.Region t) {v : TypeVar} (hv : v ∈ t) :
    (d.visit g v).Sound g t ∧ d.Grows g (d.visit g v) ∧ (d.visit g v).Has (g.rootIndex v.index) := by
  unfold visit
  by_cases hseen : d.place.contains (g.rootIndex v.index) = true
  · rw [if_pos hseen]
    exact ⟨h, .refl g d, (h.contains_iff _).1 hseen⟩
  · rw [if_neg hseen]
    have hnone : ¬ d.Has (g.rootIndex v.index) := fun hhas => hseen ((h.contains_iff _).2 hhas)
    have hhas (r : Nat) : (∃ i : Nat, (d.found.push (g.rootIndex v.index))[i]? = some r) ↔
        d.Has r ∨ r = g.rootIndex v.index := by
      simp only [Array.getElem?_push, Has]
      constructor
      · rintro ⟨i, hi⟩
        split at hi
        · exact .inr (Option.some.inj hi).symm
        · exact .inl ⟨i, hi⟩
      · rintro (⟨i, hi⟩ | rfl)
        · have hlt : i < d.found.size := (Array.getElem?_eq_some_iff.1 hi).1
          exact ⟨i, by rw [if_neg (Nat.ne_of_lt hlt), hi]⟩
        · exact ⟨d.found.size, if_pos rfl⟩
    have hplace (r i : Nat) : (d.place.insert (g.rootIndex v.index) d.found.size)[r]? = some i ↔
        (d.found.push (g.rootIndex v.index))[i]? = some r := by
      rw [Std.HashMap.getElem?_insert, Array.getElem?_push]
      by_cases hr : g.rootIndex v.index = r <;> by_cases hi : i = d.found.size
      · simp [hr, hi]
      · have hne : ¬ d.found[i]? = some r := fun h => hnone ⟨i, hr ▸ h⟩
        simp [hr, hi, hne, Ne.symm hi]
      · have hne : ¬ d.place[r]? = some i := fun h' => by simpa [hi] using (h.place r i).1 h'
        rw [hi] at hne ⊢
        simp [hr, hne]
      · simp [hr, hi, h.place]
    refine ⟨⟨hplace, fun r hr => ?_, fun r hr => ?_, fun r hr => (hhas r).2 ?_⟩,
      ⟨fun r hr => (hhas r).2 (.inl hr), fun r hr => ?_, fun r hr => ?_⟩, (hhas _).2 (.inr rfl)⟩
    · rcases (hhas r).1 hr with hr | rfl
      · exact h.root r hr
      · exact g.rootIndex_rootIndex _
    · rcases (hhas r).1 hr with hr | rfl
      · exact h.inside r hr
      · exact ht.same hv (g.same_equivalence.symm (g.same_root v))
    · dsimp only at hr
      split at hr
      · exact (List.mem_cons.1 hr).symm.imp_left (h.pending r)
      · exact .inl (h.pending r hr)
    · dsimp only
      split
      · exact List.mem_cons_of_mem _ hr
      · exact hr
    · rcases (hhas r).1 hr with hr | rfl
      · exact .inl hr
      · by_cases hlt : g.rootIndex v.index < g.size
        · exact .inr (.inl (by simp [hlt]))
        · exact .inr (.inr (Nat.le_of_not_lt hlt))

theorem visits_spec (h : d.Sound g t) (ht : g.Region t) (hvs : ∀ v ∈ vs, v ∈ t) :
    (vs.foldl (visit g) d).Sound g t ∧ d.Grows g (vs.foldl (visit g) d) ∧
      ∀ v ∈ vs, (vs.foldl (visit g) d).Has (g.rootIndex v.index) := by
  induction vs generalizing d with
  | nil => exact ⟨h, .refl g d, nofun⟩
  | cons v vs ih =>
    obtain ⟨hv, hvs⟩ := List.forall_mem_cons.1 hvs
    obtain ⟨hsound, hgrows, hhas⟩ := visit_spec h ht hv
    obtain ⟨hsound', hgrows', hall⟩ := ih hsound hvs
    exact ⟨hsound', hgrows.trans hgrows', List.forall_mem_cons.2 ⟨hgrows'.has _ hhas, hall⟩⟩

/-- What was found waits to be looked into, or all that is inside it was found too. -/
def Looked (g : TypeGraph) (d : Discovery) : Prop :=
  ∀ r, d.Has r → r ∈ d.pending ∨ ∀ w ∈ (g.kind ⟨r⟩).children, d.Has (g.rootIndex w.index)

/-- Nothing is inside a variable that was never allocated. -/
theorem Grows.looked (h : d.Grows g d')
    (hd : ∀ r, d.Has r → r ∈ d'.pending ∨ ∀ w ∈ (g.kind ⟨r⟩).children, d'.Has (g.rootIndex w.index)) :
    d'.Looked g := fun r hr => by
  rcases h.new r hr with hr | hr | hr
  · exact hd r hr
  · exact .inl hr
  · refine .inr fun w hw => ?_
    rw [TypeGraph.size_le_of_kind_eq_any hr] at hw
    cases hw

theorem explore_spec (h : d.Sound g t) (ht : g.Region t) (hlooked : d.Looked g) :
    (d.explore g).Sound g t ∧ (∀ r, d.Has r → (d.explore g).Has r) ∧
      ∀ r, (d.explore g).Has r → ∀ w ∈ (g.kind ⟨r⟩).children, (d.explore g).Has (g.rootIndex w.index) := by
  fun_induction explore g d with
  | case1 d hnil =>
    refine ⟨h, fun _ hr => hr, fun r hr => (hlooked r hr).resolve_left ?_⟩
    rw [hnil]
    exact List.not_mem_nil
  | case2 d r rest hcons ih =>
    have hpending : ∀ r' ∈ r :: rest, d.Has r' := hcons ▸ h.pending
    have hsound : (⟨d.found, d.place, rest⟩ : Discovery).Sound g t :=
      ⟨h.place, h.root, h.inside, (List.forall_mem_cons.1 hpending).2⟩
    obtain ⟨hsound', hgrows, hchildren⟩ := visits_spec hsound ht
      fun w (hw : w ∈ (g.kind ⟨r⟩).children) => ht.children (h.inside r (hpending r List.mem_cons_self)) hw
    have hlooked' := hgrows.looked fun r' hr' => by
      rcases hlooked r' hr' with hmem | hmem
      · rcases List.mem_cons.1 (hcons ▸ hmem) with rfl | hmem
        · exact .inr hchildren
        · exact .inl (hgrows.pending r' hmem)
      · exact .inr fun w hw => hgrows.has _ (hmem w hw)
    obtain ⟨hsound'', hhas, hclosed⟩ := ih hsound' hlooked'
    exact ⟨hsound'', fun r' hr' => hhas r' (hgrows.has r' hr'), hclosed⟩

end Discovery

namespace TypeGraph

variable {g h : TypeGraph} {s : Set TypeVar} {f : TypeVar → TypeVar} {vs : List TypeVar} {v w : TypeVar}

/-! ### What is found -/

/-- The variables reachable from some variables. -/
def reached (g : TypeGraph) (vs : List TypeVar) : Set TypeVar := {w | ∃ v ∈ vs, g.Reaches v w}

theorem region_reached (g : TypeGraph) (vs : List TypeVar) : g.Region (g.reached vs) where
  same := fun ⟨u, hu, h⟩ hvw => ⟨u, hu, h.tail (.inl hvw)⟩
  children := fun ⟨u, hu, h⟩ hw => ⟨u, hu, h.tail (.inr hw)⟩

theorem mem_reached (hv : v ∈ vs) : v ∈ g.reached vs := ⟨v, hv, .refl⟩

/-- A region with the variables to start from contains what is reachable. -/
theorem Region.reached_subset (hs : g.Region s) (hvs : ∀ v ∈ vs, v ∈ s) : g.reached vs ⊆ s := by
  rintro w ⟨v, hv, hreaches⟩
  induction hreaches with
  | refl => exact hvs v hv
  | tail _ hstep ih => exact hstep.elim (hs.same ih) (hs.children ih)

theorem WellFormed.region (hg : g.WellFormed) : g.Region {v | v.index < g.size} where
  same hv hsame := lt_size_of_rootIndex (same_iff.1 hsame ▸ rootIndex_lt_size hv)
  children _ hw := hg _ _ hw

/-- Only allocated variables are reachable from allocated variables. -/
theorem WellFormed.lt_size_of_reached (hg : g.WellFormed) (hvs : ∀ v ∈ vs, v.index < g.size)
    (hw : w ∈ g.reached vs) : w.index < g.size :=
  hg.region.reached_subset hvs hw

/-- The classes found from some variables. -/
def discovery (g : TypeGraph) (vs : List TypeVar) : Discovery :=
  (vs.foldl (Discovery.visit g) .empty).explore g

theorem discovery_spec (g : TypeGraph) (vs : List TypeVar) :
    (g.discovery vs).Sound g (g.reached vs) ∧
      ∀ v, (g.discovery vs).Has (g.rootIndex v.index) ↔ v ∈ g.reached vs := by
  have ht := g.region_reached vs
  obtain ⟨hsound, hgrows, hall⟩ :=
    Discovery.visits_spec (Discovery.sound_empty (t := g.reached vs)) ht fun v hv => mem_reached hv
  have hlooked := hgrows.looked fun r ⟨i, h⟩ => by simp [Discovery.empty] at h
  obtain ⟨hsound', hhas, hclosed⟩ := Discovery.explore_spec hsound ht hlooked
  refine ⟨hsound', fun v => ⟨fun h => ht.same (hsound'.inside _ h) (g.same_root v), fun h => ?_⟩⟩
  have hregion : g.Region {v | (g.discovery vs).Has (g.rootIndex v.index)} := by
    refine ⟨fun {v w} hv hsame => ?_, fun {v w} hv hw => ?_⟩
    · exact (same_iff.1 hsame ▸ hv : (g.discovery vs).Has (g.rootIndex w.index))
    · refine hclosed _ hv w ?_
      rwa [kind_eq_of_same (g.same_root v)]
  exact hregion.reached_subset (fun v hv => hhas _ (hall v hv)) h

/-! ### Mirror images -/

/-- The map `f` makes the region `s` of the graph `g` a part of the graph `h`: it maps classes to classes,
and the types of `g` are those of `h` with the variables inside mapped. -/
structure Mirrors (s : Set TypeVar) (f : TypeVar → TypeVar) (g h : TypeGraph) : Prop where
  region : g.Region s
  allocated : ∀ {v}, v ∈ s → v.index < g.size ∧ (f v).index < h.size
  same : ∀ {v w}, v ∈ s → w ∈ s → (h.Same (f v) (f w) ↔ g.Same v w)
  type : ∀ {v}, v ∈ s → h.get (f v) = (g.get v).mapVars f

def copyOf (g : TypeGraph) (vs : List TypeVar) (v : TypeVar) : TypeVar :=
  ⟨g.size + (g.discovery vs).place.getD (g.rootIndex v.index) 0⟩

theorem copyAll_fst (g : TypeGraph) (vs : List TypeVar) : (g.copyAll vs).1 = vs.map (g.copyOf vs) := rfl

theorem size_copyAll (g : TypeGraph) (vs : List TypeVar) :
    (g.copyAll vs).2.size = g.size + (g.discovery vs).found.size := by
  simp [copyAll, size, discovery]

theorem cells_copyAll {i r : Nat} (hi : (g.discovery vs).found[i]? = some r) :
    (g.copyAll vs).2.cells[g.size + i]? = some (.root ((g.get ⟨r⟩).mapVars (g.copyOf vs))) := by
  have hsize : ¬ g.size + i < g.cells.size := by simp [size]
  rw [copyAll, Array.getElem?_append, if_neg hsize, Array.getElem?_map]
  simp only [size, Nat.add_sub_cancel_left]
  change Option.map _ (g.discovery vs).found[i]? = _
  rw [hi]
  rfl

theorem copyOf_spec (hv : v ∈ g.reached vs) :
    ∃ i : Nat, (g.discovery vs).found[i]? = some (g.rootIndex v.index) ∧ g.copyOf vs v = ⟨g.size + i⟩ := by
  obtain ⟨hsound, hhas⟩ := g.discovery_spec vs
  obtain ⟨i, hi⟩ := (hhas v).2 hv
  refine ⟨i, hi, ?_⟩
  rw [copyOf, Std.HashMap.getD_eq_getD_getElem?, (hsound.place _ _).2 hi]
  rfl

theorem exists_copyOf (hle : g.size ≤ w.index) (hlt : w.index < (g.copyAll vs).2.size) :
    ∃ v ∈ g.reached vs, g.copyOf vs v = w := by
  obtain ⟨hsound, hhas⟩ := g.discovery_spec vs
  rw [size_copyAll] at hlt
  have hi : w.index - g.size < (g.discovery vs).found.size := by omega
  obtain ⟨r, hr⟩ : ∃ r, (g.discovery vs).found[w.index - g.size]? = some r := ⟨_, Array.getElem?_eq_getElem hi⟩
  have hroot := hsound.root r ⟨_, hr⟩
  refine ⟨⟨r⟩, hsound.inside r ⟨_, hr⟩, ?_⟩
  rw [copyOf, hroot, Std.HashMap.getD_eq_getD_getElem?, (hsound.place _ _).2 hr]
  exact congrArg TypeVar.mk (Nat.add_sub_cancel' hle)

theorem rootIndex_copyAll {i : Nat} (hi : g.size ≤ i) : (g.copyAll vs).2.rootIndex i = i := by
  by_cases hlt : i < (g.copyAll vs).2.size
  · rw [size_copyAll] at hlt
    have hfound : (g.discovery vs).found[i - g.size]? = some (g.discovery vs).found[i - g.size] :=
      Array.getElem?_eq_getElem (by omega)
    have hcell := cells_copyAll hfound
    rw [Nat.add_sub_cancel' hi] at hcell
    rw [rootIndex, hcell]
  · exact rootIndex_of_size_le (Nat.le_of_not_lt hlt)

/-- The type of a copy is that of what was copied, with the copies of what is inside. -/
theorem get_copyOf (hv : v ∈ g.reached vs) :
    (g.copyAll vs).2.get (g.copyOf vs v) = (g.get v).mapVars (g.copyOf vs) := by
  obtain ⟨i, hi, heq⟩ := copyOf_spec hv
  rw [heq, get_eq_typeAt, rootIndex_copyAll (Nat.le_add_right _ _), typeAt, cells_copyAll hi,
    get_eq_of_same (g.same_root v)]

/-- The copies are a mirror image of what is reachable. -/
theorem copyAll_mirrors (hg : g.WellFormed) (hvs : ∀ v ∈ vs, v.index < g.size) :
    Mirrors (g.reached vs) (g.copyOf vs) g (g.copyAll vs).2 := by
  obtain ⟨hsound, -⟩ := g.discovery_spec vs
  have hroot (i : Nat) : (g.copyAll vs).2.rootIndex (g.size + i) = g.size + i :=
    rootIndex_copyAll (Nat.le_add_right _ _)
  refine ⟨g.region_reached vs, fun {v} hv => ⟨hg.lt_size_of_reached hvs hv, ?_⟩, fun {v w} hv hw => ?_, get_copyOf⟩
  · obtain ⟨i, hi, heq⟩ := copyOf_spec hv
    rw [heq, size_copyAll]
    exact Nat.add_lt_add_left (Array.getElem?_eq_some_iff.1 hi).1 _
  · obtain ⟨i, hi, hv⟩ := copyOf_spec hv
    obtain ⟨j, hj, hw⟩ := copyOf_spec hw
    rw [hv, hw, same_iff, same_iff, hroot, hroot]
    constructor
    · intro h
      obtain rfl : i = j := Nat.add_left_cancel h
      exact Option.some.inj (hi.symm.trans hj)
    · intro h
      have hplace := (hsound.place _ _).2 hi
      rw [h, (hsound.place _ _).2 hj] at hplace
      rw [Option.some.inj hplace]

theorem le_copyOf (g : TypeGraph) (vs : List TypeVar) (v : TypeVar) : g.size ≤ (g.copyOf vs v).index :=
  Nat.le_add_right _ _

/-! ### What copying leaves as it was -/

theorem Extends.get {g' : TypeGraph} (h : g'.Extends g) (hv : v.index < g.size) : g'.get v = g.get v := by
  rw [get_eq_typeAt, get_eq_typeAt, h.rootIndex hv, typeAt, typeAt, h.getElem? (rootIndex_lt_size hv)]

/-- Variables were added and nothing else changed, so types were narrowed. -/
theorem Extends.narrows {g' : TypeGraph} (h : g'.Extends g) : g.Narrows g' where
  size_le := h.size_le
  same := h.sharpens.same
  refines v := by
    by_cases hv : v.index < g.size
    · rw [h.kind hv]
      exact .refl g'.same_equivalence _
    · rw [size_le_of_kind_eq_any (Nat.le_of_not_lt hv)]
      exact trivial

/-! ### What later changes among the copies leave as it was -/

variable {g' : TypeGraph}

/-- Everything that was there is as it was, and nothing new is in its classes. -/
structure Untouched (g g' : TypeGraph) : Prop where
  size_le : g.size ≤ g'.size
  root : ∀ v : TypeVar, v.index < g.size → g'.rootIndex v.index = g.rootIndex v.index
  type : ∀ v : TypeVar, v.index < g.size → g'.get v = g.get v
  apart : g'.Region {v | g.size ≤ v.index}

/-- No variable joins or leaves the class of a variable that was there. -/
theorem Untouched.same_iff (h : g.Untouched g') (hv : v.index < g.size) (w : TypeVar) :
    g'.Same v w ↔ g.Same v w := by
  by_cases hw : w.index < g.size
  · rw [TypeGraph.same_iff, TypeGraph.same_iff, h.root v hv, h.root w hw]
  · have hle := Nat.le_of_not_lt hw
    refine iff_of_false (fun hsame => ?_) fun hsame => ?_
    · exact Nat.not_lt_of_le (h.apart.same hle (g'.same_equivalence.symm hsame)) hv
    · refine hw (lt_size_of_rootIndex ?_)
      rw [← TypeGraph.same_iff.1 hsame]
      exact rootIndex_lt_size hv

theorem Untouched.mirrors (h : g.Untouched g') (hg : g.WellFormed) :
    Mirrors {v | v.index < g.size} id g g' where
  region := hg.region
  allocated hv := ⟨hv, Nat.lt_of_lt_of_le hv h.size_le⟩
  same {v w} hv _ := h.same_iff hv w
  type {v} hv := by
    change g'.get v = ⟨_, _⟩
    rw [h.type v hv, Kind.mapVars_id]

theorem Untouched.within {g'' : TypeGraph} (h : g.Untouched g') (hsize : g'.size ≤ g''.size)
    (hwithin : g'.Within {v | g.size ≤ v.index} g'') : g.Untouched g'' where
  size_le := Nat.le_trans h.size_le hsize
  root v hv := (hwithin.root v (Nat.not_le_of_lt hv)).trans (h.root v hv)
  type v hv := (hwithin.type v (Nat.not_le_of_lt hv)).trans (h.type v hv)
  apart := hwithin.region

end TypeGraph
end Monomorph
