import Monomorph.Proofs.Type.Unification

/-! # Types only narrow

`TypeGraph.Narrows`: what one graph has become another, variables of one class stay in one class and every
type is refined. Allocating, giving a class a kind that refines its own and unifying are such changes, and
they can be confined to a region (`TypeGraph.NarrowsIn`): no type inside comes to mention a variable
outside. -/

namespace Monomorph

namespace TypeGraph

variable {g g' g'' : TypeGraph} {s : Set TypeVar}

/-- The types of one graph are narrowed to those of another. -/
structure Narrows (g g' : TypeGraph) : Prop where
  size_le : g.size ≤ g'.size
  same : ∀ {v w}, g.Same v w → g'.Same v w
  refines : ∀ v, (g'.kind v).Refines g'.Same (g.kind v)

theorem Narrows.refl (g : TypeGraph) : g.Narrows g :=
  ⟨Nat.le_refl _, id, fun _ => .refl g.same_equivalence _⟩

theorem Narrows.trans (h : g.Narrows g') (h' : g'.Narrows g'') : g.Narrows g'' where
  size_le := Nat.le_trans h.size_le h'.size_le
  same hvw := h'.same (h.same hvw)
  refines v := .trans g''.same_equivalence (h'.refines v) ((h.refines v).mono h'.same)

/-- A kind that a type refines is refined by what the type is narrowed to. -/
theorem Narrows.refines_of (h : g.Narrows g') {v : TypeVar} {k : Kind}
    (hk : (g.kind v).Refines g.Same k) : (g'.kind v).Refines g'.Same k :=
  .trans g'.same_equivalence (h.refines v) (hk.mono h.same)

/-! ### Inside a region -/

/-- Types are narrowed, those of a region to types of the region. -/
structure NarrowsIn (s : Set TypeVar) (g g' : TypeGraph) : Prop extends g.Narrows g' where
  closed : g'.Closed s

theorem NarrowsIn.refl (hs : g.Closed s) : NarrowsIn s g g := ⟨.refl g, hs⟩

theorem NarrowsIn.trans (h : NarrowsIn s g g') (h' : NarrowsIn s g' g'') : NarrowsIn s g g'' :=
  ⟨h.toNarrows.trans h'.toNarrows, h'.closed⟩

theorem Narrows.known (h : g.Narrows g') {v : TypeVar} (hv : g.Known s v) : g'.Known s v :=
  ⟨hv.1, Nat.lt_of_lt_of_le hv.2 h.size_le⟩

/-- The variables that are not allocated yet. -/
def future (g : TypeGraph) : Set TypeVar := {v | g.size ≤ v.index}

theorem closed_future (g : TypeGraph) : g.Closed g.future := by
  have hkind {v : TypeVar} (hv : v ∈ g.future) : g.kind v = .any := size_le_of_kind_eq_any hv
  refine ⟨⟨fun {v w} hv hsame => ?_, fun {v w} hv hw => ?_⟩, fun {v w} hv hw => ?_, id⟩
  · refine Nat.le_of_not_lt fun hlt => ?_
    have hroot := rootIndex_lt_size hlt
    rw [← same_iff.1 hsame, rootIndex_of_size_le hv] at hroot
    exact Nat.not_lt.2 hv hroot
  · rw [hkind hv] at hw
    cases hw
  · rw [hkind hv] at hw
    cases hw

theorem Closed.known_size (hs : g.Closed s) (t : Ty) : (g.alloc t).2.Known s ⟨g.size⟩ :=
  ⟨hs.fresh (Nat.le_refl _), by rw [size_alloc]; exact Nat.lt_succ_self _⟩

theorem Closed.alloc (hs : g.Closed s) {t : Ty} (ht : ∀ v ∈ t.kind.children, g.Known s v) :
    NarrowsIn s g (g.alloc t).2 := by
  have hsame {v w : TypeVar} : (g.alloc t).2.Same v w ↔ g.Same v w := by
    rw [same_iff, same_iff, rootIndex_alloc, rootIndex_alloc]
  have hkind (v : TypeVar) : (g.alloc t).2.kind v = if v.index = g.size then t.kind else g.kind v := by
    rw [kind, get_alloc]
    split <;> rfl
  refine ⟨⟨?_, hsame.2, fun v => ?_⟩, ⟨⟨fun hv h => ?_, fun {v w} hv hw => ?_⟩, fun {v w} hv hw => ?_,
    fun {v} h => ?_⟩⟩
  · rw [size_alloc]
    exact Nat.le_succ _
  · rw [hkind]
    split
    · rename_i hv
      rw [size_le_of_kind_eq_any (Nat.le_of_eq hv.symm)]
      exact trivial
    · exact (Kind.Refines.refl g.same_equivalence _).mono hsame.2
  · exact hs.region.same hv (hsame.1 h)
  · rw [hkind] at hw
    split at hw
    · exact (ht w hw).1
    · exact hs.region.children hv hw
  · rw [size_alloc]
    rw [hkind] at hw
    split at hw
    · exact Nat.lt_succ_of_lt (ht w hw).2
    · exact Nat.lt_succ_of_lt (hs.allocated hv hw)
  · rw [size_alloc] at h
    exact hs.fresh (Nat.le_of_succ_le h)

theorem Closed.set (hs : g.Closed s) {v : TypeVar} (hv : g.Known s v) {t : Ty}
    (hrefines : t.kind.Refines g.Same (g.kind v)) (ht : ∀ w ∈ t.kind.children, g.Known s w) :
    NarrowsIn s g (g.set v t) ∧ (g.set v t).kind v = t.kind := by
  have hsame {a b : TypeVar} : (g.set v t).Same a b ↔ g.Same a b := by
    rw [same_iff, same_iff, rootIndex_set, rootIndex_set]
  have hkind (w : TypeVar) : (g.set v t).kind w = if g.same v w then t.kind else g.kind w := by
    rw [kind, get_set hv.2]
    split <;> rfl
  refine ⟨⟨⟨Nat.le_of_eq (size_set g v t).symm, hsame.2, fun w => ?_⟩, ⟨⟨fun ha h => ?_,
    fun {a b} ha hb => ?_⟩, fun {a b} ha hb => ?_, fun h => ?_⟩⟩, ?_⟩
  · rw [hkind]
    split
    · rename_i h
      exact kind_eq_of_same h ▸ hrefines.mono hsame.2
    · exact (Kind.Refines.refl g.same_equivalence _).mono hsame.2
  · exact hs.region.same ha (hsame.1 h)
  · rw [hkind] at hb
    split at hb
    · exact (ht b hb).1
    · exact hs.region.children ha hb
  · rw [size_set]
    rw [hkind] at hb
    split at hb
    · exact (ht b hb).2
    · exact hs.allocated ha hb
  · exact hs.fresh (size_set g v t ▸ h)
  · rw [hkind, if_pos (show g.same v v = true from same_iff.2 rfl)]

theorem Closed.unifyAll (hs : g.Closed s) {span : Span} {queue : List PendingPair}
    (hqueue : ∀ p ∈ queue, g.Known s p.left ∧ g.Known s p.right) {u : Unit}
    (h : g.unifyAll span queue = .ok u g') :
    NarrowsIn s g g' ∧ ∀ p ∈ queue, g'.Same p.left p.right := by
  have hspec := unifyAll_spec span g queue hs hqueue
  rw [h] at hspec
  obtain ⟨hclosed, hsize, hsolution, hbound⟩ := hspec
  obtain ⟨hsame, hrelates⟩ := (hsolution _).1 g'.solution_same
  refine ⟨⟨⟨Nat.le_of_eq hsize.symm, hsame.same, fun v => ?_⟩, hclosed⟩, hrelates⟩
  have hlower : g'.LowerBound g'.Same v (g'.kind v) := fun w hw =>
    kind_eq_of_same hw ▸ Kind.Refines.refl g'.same_equivalence _
  exact (hbound _ g'.solution_same v _).1 hlower v (g'.same_equivalence.refl v)

end TypeGraph
end Monomorph
