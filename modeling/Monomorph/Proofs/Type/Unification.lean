import Monomorph.Proofs.Type.Classes

/-! # Unification computes the least unifier

A *solution* of a type graph is an equivalence on its variables that contains the classes of the graph,
is closed under the step into types and gives the kinds of each of its classes a common refinement
(`TypeGraph.Solution`). Unifying two variables looks for a solution that relates them.

One turn of the queue either drops a pair whose variables already are of one class, or joins two classes
and queues the pairs inside. Neither changes which solutions there are (`solution_joinIndex_iff`), nor
what is a common refinement of the kinds of a class (`lowerBound_joinIndex_iff`). At the end the queue is
empty and the classes themselves are a solution, hence the least one; a clash leaves no solution at all.

Main statement: `unify_least_solution`. -/

namespace Monomorph

/-! ### Merging two types -/

section merge

variable {x y t : Ty} {inner : List InnerPair} {clash : Clash}

theorem Ty.merge_ok (h : x.merge y = .ok (t, inner)) :
    ∃ m, x.kind.meet y.kind = .ok m ∧ t.kind = m.kind x.kind y.kind ∧ inner = m.inner := by
  unfold Ty.merge at h
  split at h
  · rename_i hm
    cases h
    exact ⟨_, hm, rfl, rfl⟩
  · rename_i hm
    cases h
    exact ⟨_, hm, rfl, rfl⟩
  · rename_i hm
    cases h
    exact ⟨_, hm, rfl, rfl⟩
  · cases h

theorem Ty.merge_error (h : x.merge y = .error clash) : x.kind.meet y.kind = .error clash := by
  unfold Ty.merge at h
  split at h
  · cases h
  · cases h
  · cases h
  · rename_i hm
    cases h
    exact hm

/-- The merged type is refined by what refines both types, provided that the pairs inside are related. -/
theorem Ty.refines_merge_iff {r : VarRel} (hr : Equivalence r) (h : x.merge y = .ok (t, inner))
    (hinner : ∀ p ∈ inner, r p.left p.right) (k : Kind) :
    k.Refines r t.kind ↔ k.Refines r x.kind ∧ k.Refines r y.kind := by
  obtain ⟨m, hm, ht, rfl⟩ := Ty.merge_ok h
  have hspec := Kind.meet_spec hr x.kind y.kind
  rw [hm] at hspec
  rw [ht]
  exact hspec.1 hinner k

theorem Ty.merge_inner {r : VarRel} (hr : Equivalence r) (h : x.merge y = .ok (t, inner)) {k : Kind}
    (hx : k.Refines r x.kind) (hy : k.Refines r y.kind) : ∀ p ∈ inner, r p.left p.right := by
  obtain ⟨m, hm, -, rfl⟩ := Ty.merge_ok h
  have hspec := Kind.meet_spec hr x.kind y.kind
  rw [hm] at hspec
  exact hspec.2 k hx hy

theorem Ty.merge_no_common {r : VarRel} (hr : Equivalence r) (h : x.merge y = .error clash)
    {k : Kind} (hx : k.Refines r x.kind) : ¬ k.Refines r y.kind := by
  have hspec := Kind.meet_spec hr x.kind y.kind
  rw [Ty.merge_error h] at hspec
  exact hspec k hx

theorem Ty.merge_vars (h : x.merge y = .ok (t, inner)) :
    (∀ v ∈ t.kind.children, v ∈ x.kind.children ∨ v ∈ y.kind.children) ∧
      ∀ p ∈ inner, p.left ∈ x.kind.children ∧ p.right ∈ y.kind.children := by
  obtain ⟨m, hm, ht, rfl⟩ := Ty.merge_ok h
  rw [ht]
  exact Kind.meet_vars hm

end merge

namespace TypeGraph

/-! ### Solutions -/

/-- A kind refines the kinds of all variables related to `v`. -/
def LowerBound (g : TypeGraph) (r : VarRel) (v : TypeVar) (k : Kind) : Prop :=
  ∀ w, r v w → k.Refines r (g.kind w)

/-- An equivalence that could be the classes of the graph after more variables are unified. -/
structure Solution (g : TypeGraph) (r : VarRel) : Prop where
  equivalence : Equivalence r
  /-- It contains the present classes. -/
  same : ∀ {v w}, g.Same v w → r v w
  /-- Related types have related types inside. -/
  agree : ∀ {v w}, r v w → Kind.Agree r (g.kind v) (g.kind w)
  /-- The kinds of related variables have a common refinement. -/
  common : ∀ v, ∃ k, g.LowerBound r v k

variable {g : TypeGraph} {r : VarRel}

/-- Agreement inside follows from the common refinements. -/
theorem Solution.of_common (hr : Equivalence r) (hsame : ∀ {v w}, g.Same v w → r v w)
    (hcommon : ∀ v, ∃ k, g.LowerBound r v k) : g.Solution r where
  equivalence := hr
  same := hsame
  agree {v w} hvw := by
    obtain ⟨k, hk⟩ := hcommon v
    exact (hk v (hr.refl v)).agree hr (hk w hvw)
  common := hcommon

theorem solution_same (g : TypeGraph) : g.Solution g.Same :=
  .of_common (same_equivalence g) id fun v =>
    ⟨g.kind v, fun _ hw => kind_eq_of_same hw ▸ Kind.Refines.refl (same_equivalence g) _⟩

/-! ### One join -/

section step

variable {i j : Nat} {t : Ty} {inner : List InnerPair}

/-- Joining two related classes does not change the common refinements of related variables. -/
theorem lowerBound_joinIndex_iff (hr : Equivalence r) (hsame : ∀ {v w}, g.Same v w → r v w)
    (hi : i < g.size) (hj : j < g.size) (hne : i ≠ j) (hrooti : g.rootIndex i = i)
    (hrootj : g.rootIndex j = j) (hmerge : (g.get ⟨i⟩).merge (g.get ⟨j⟩) = .ok (t, inner))
    (hrel : r ⟨i⟩ ⟨j⟩) (hinner : ∀ p ∈ inner, r p.left p.right) (v : TypeVar) (k : Kind) :
    (g.joinIndex i j t).LowerBound r v k ↔ g.LowerBound r v k := by
  have hkind (w : TypeVar) : (g.joinIndex i j t).kind w =
      if g.rootIndex w.index = i ∨ g.rootIndex w.index = j then t.kind else g.kind w := by
    rw [kind, get_joinIndex hi hj hne hrooti hrootj]
    split <;> rfl
  have hmeet := Ty.refines_merge_iff hr hmerge hinner k
  have hri {w : TypeVar} (h : g.rootIndex w.index = i) : g.Same ⟨i⟩ w :=
    same_iff.2 (hrooti.trans h.symm)
  have hrj {w : TypeVar} (h : g.rootIndex w.index = j) : g.Same ⟨j⟩ w :=
    same_iff.2 (hrootj.trans h.symm)
  constructor
  · intro h w hw
    have hk := h w hw
    rw [hkind] at hk
    split at hk
    · rename_i hclass
      rcases hclass with hclass | hclass
      · exact kind_eq_of_same (hri hclass) ▸ (hmeet.1 hk).1
      · exact kind_eq_of_same (hrj hclass) ▸ (hmeet.1 hk).2
    · exact hk
  · intro h w hw
    rw [hkind]
    split
    · rename_i hclass
      rcases hclass with hclass | hclass
      · have hvi : r v ⟨i⟩ := hr.trans hw (hr.symm (hsame (hri hclass)))
        exact hmeet.2 ⟨h _ hvi, h _ (hr.trans hvi hrel)⟩
      · have hvj : r v ⟨j⟩ := hr.trans hw (hr.symm (hsame (hrj hclass)))
        exact hmeet.2 ⟨h _ (hr.trans hvj (hr.symm hrel)), h _ hvj⟩
    · exact h w hw

/-- The solutions that relate two roots are the solutions after their join that relate the pairs
inside. -/
theorem solution_joinIndex_iff (hi : i < g.size) (hj : j < g.size) (hne : i ≠ j)
    (hrooti : g.rootIndex i = i) (hrootj : g.rootIndex j = j)
    (hmerge : (g.get ⟨i⟩).merge (g.get ⟨j⟩) = .ok (t, inner)) :
    (g.joinIndex i j t).Solution r ∧ (∀ p ∈ inner, r p.left p.right) ↔
      g.Solution r ∧ r ⟨i⟩ ⟨j⟩ := by
  have hjoin {v w : TypeVar} := same_joinIndex_iff (t := t) hi hj hne hrooti hrootj (v := v) (w := w)
  constructor
  · rintro ⟨h, hinner⟩
    have hsame {v w : TypeVar} (hvw : g.Same v w) : r v w := h.same (hjoin.2 (.inl hvw))
    have hrel : r ⟨i⟩ ⟨j⟩ := h.same (hjoin.2 (.inr ⟨.inl hrooti, .inr hrootj⟩))
    refine ⟨.of_common h.equivalence hsame fun v => ?_, hrel⟩
    exact (h.common v).imp fun k => (lowerBound_joinIndex_iff h.equivalence hsame hi hj hne hrooti
      hrootj hmerge hrel hinner v k).1
  · rintro ⟨h, hrel⟩
    obtain ⟨k, hk⟩ := h.common ⟨i⟩
    have hinner := Ty.merge_inner h.equivalence hmerge (hk _ (h.equivalence.refl _)) (hk _ hrel)
    refine ⟨.of_common h.equivalence (fun {v w} hvw => ?_) fun v => ?_, hinner⟩
    · have hclass {v : TypeVar} (hv : g.rootIndex v.index = i ∨ g.rootIndex v.index = j) :
          r ⟨i⟩ v := by
        rcases hv with hv | hv
        · exact h.same (same_iff.2 (hrooti.trans hv.symm))
        · exact h.equivalence.trans hrel (h.same (same_iff.2 (hrootj.trans hv.symm)))
      rcases hjoin.1 hvw with hvw | ⟨hv, hw⟩
      · exact h.same hvw
      · exact h.equivalence.trans (h.equivalence.symm (hclass hv)) (hclass hw)
    · exact (h.common v).imp fun k => (lowerBound_joinIndex_iff h.equivalence h.same hi hj hne hrooti
        hrootj hmerge hrel hinner v k).2

end step

/-! ### The queue -/

def Relates (r : VarRel) (queue : List PendingPair) : Prop := ∀ p ∈ queue, r p.left p.right

/-- What unifying the pairs in a queue is to come to: a graph with the same solutions and common
refinements if it succeeds, and no solution if it fails. -/
def UnifySpec (g : TypeGraph) (s : Set TypeVar) (queue : List PendingPair) :
    EStateM.Result TypeError TypeGraph Unit → Prop
  | .ok _ g' => g'.Closed s ∧ g'.size = g.size ∧
      (∀ r, g'.Solution r ↔ g.Solution r ∧ Relates r queue) ∧
      ∀ r, g'.Solution r → ∀ v k, g'.LowerBound r v k ↔ g.LowerBound r v k
  | .error _ _ => ∀ r, g.Solution r → ¬ Relates r queue

/-- A turn of the queue that keeps the solutions and the common refinements may be left out. -/
theorem UnifySpec.of_turn {g' : TypeGraph} {s : Set TypeVar} {queue queue' : List PendingPair}
    (hsize : g'.size = g.size)
    (hsolution : ∀ r, g'.Solution r ∧ Relates r queue' ↔ g.Solution r ∧ Relates r queue)
    (hbound : ∀ r, g.Solution r → Relates r queue → ∀ v k,
      g'.LowerBound r v k ↔ g.LowerBound r v k)
    {result : EStateM.Result TypeError TypeGraph Unit} (h : g'.UnifySpec s queue' result) :
    g.UnifySpec s queue result := by
  cases result with
  | ok _ g'' =>
    obtain ⟨hclosed, hsize', hsolution', hbound'⟩ := h
    refine ⟨hclosed, hsize'.trans hsize, fun r => (hsolution' r).trans (hsolution r), fun r hr v k => ?_⟩
    have hg := (hsolution r).1 ((hsolution' r).1 hr)
    exact (hbound' r hr v k).trans (hbound r hg.1 hg.2 v k)
  | error _ _ =>
    intro r hr hrel
    have hg' := (hsolution r).2 ⟨hr, hrel⟩
    exact h r hg'.1 hg'.2

theorem relates_cons {r : VarRel} {p : PendingPair} {rest : List PendingPair} :
    Relates r (p :: rest) ↔ r p.left p.right ∧ Relates r rest :=
  List.forall_mem_cons

/-- A solution relates two variables if it relates their roots. -/
theorem Solution.rel_roots_iff (h : g.Solution r) (a b : TypeVar) :
    r ⟨g.rootIndex a.index⟩ ⟨g.rootIndex b.index⟩ ↔ r a b := by
  have ha := h.same (g.same_root a)
  have hb := h.same (g.same_root b)
  exact ⟨fun hab => h.equivalence.trans (h.equivalence.symm ha) (h.equivalence.trans hab hb),
    fun hab => h.equivalence.trans ha (h.equivalence.trans hab (h.equivalence.symm hb))⟩

/-- **The queue keeps the solutions**: at its end the graph has those solutions that relate all pairs
that were queued, and a clash leaves none. -/
theorem unifyAll_spec (span : Span) (g : TypeGraph) (queue : List PendingPair) {s : Set TypeVar}
    (hs : g.Closed s) (hqueue : ∀ p ∈ queue, g.Known s p.left ∧ g.Known s p.right) :
    g.UnifySpec s queue (g.unifyAll span queue) := by
  fun_induction unifyAll span g queue with
  | case1 g =>
    exact ⟨hs, rfl, fun r => ⟨fun h => ⟨h, fun _ hp => nomatch hp⟩, And.left⟩,
      fun _ _ _ _ => Iff.rfl⟩
  | case2 g a b path rest i j hroots x y clash hmerge =>
    intro r hr hrel
    have hab : r a b := (relates_cons.1 hrel).1
    obtain ⟨k, hk⟩ := hr.common a
    exact Ty.merge_no_common hr.equivalence hmerge (hk a (hr.equivalence.refl a)) (hk b hab)
  | case3 g a b path rest i j hroots x y t inner hmerge ih =>
    obtain ⟨hne, hi, hj⟩ := hroots
    have hrooti : g.rootIndex i = i := g.rootIndex_rootIndex _
    have hrootj : g.rootIndex j = j := g.rootIndex_rootIndex _
    obtain ⟨ha, hb⟩ := hqueue _ List.mem_cons_self
    have hvars := Ty.merge_vars hmerge
    have hmerge' : (g.get ⟨i⟩).merge (g.get ⟨j⟩) = .ok (t, inner) := by
      rw [get_eq_of_same (g.same_root a), get_eq_of_same (g.same_root b)]
      exact hmerge
    have hinner : ∀ p ∈ inner, g.Known s p.left ∧ g.Known s p.right := fun p hp =>
      (hvars.2 p hp).imp (hs.child ha.1) (hs.child hb.1)
    have hclosed : (g.joinIndex i j t).Closed s :=
      hs.joinIndex (hs.root ha) (hs.root hb) hne hrooti hrootj fun w hw =>
        (hvars.1 w hw).elim (hs.child ha.1) (hs.child hb.1)
    have hrelates (r : VarRel) : Relates r (rest ++ inner.map fun p =>
        ⟨p.left, p.right, p.step :: path⟩) ↔ Relates r rest ∧ ∀ p ∈ inner, r p.left p.right := by
      simp only [Relates, List.forall_mem_append, List.forall_mem_map]
    have hturn (r : VarRel) : (g.joinIndex i j t).Solution r ∧ Relates r (rest ++ inner.map fun p =>
        ⟨p.left, p.right, p.step :: path⟩) ↔ g.Solution r ∧ Relates r (⟨a, b, path⟩ :: rest) := by
      have hjoin := solution_joinIndex_iff (r := r) hi hj hne hrooti hrootj hmerge'
      rw [hrelates, relates_cons]
      constructor
      · rintro ⟨hs, hrest, hin⟩
        obtain ⟨hg, hij⟩ := hjoin.1 ⟨hs, hin⟩
        exact ⟨hg, (hg.rel_roots_iff a b).1 hij, hrest⟩
      · rintro ⟨hg, hab, hrest⟩
        obtain ⟨hs, hin⟩ := hjoin.2 ⟨hg, (hg.rel_roots_iff a b).2 hab⟩
        exact ⟨hs, hrest, hin⟩
    refine .of_turn (size_joinIndex g i j t) hturn (fun r hr hrel v k => ?_) (ih hclosed ?_)
    · have hin := ((hrelates r).1 ((hturn r).2 ⟨hr, hrel⟩).2).2
      have hij := (hr.rel_roots_iff a b).2 (relates_cons.1 hrel).1
      exact lowerBound_joinIndex_iff hr.equivalence hr.same hi hj hne hrooti hrootj hmerge' hij hin v k
    · simp only [Known, size_joinIndex, List.forall_mem_append, List.forall_mem_map]
      exact ⟨fun p hp => hqueue p (List.mem_cons_of_mem _ hp), hinner⟩
  | case4 g a b path rest i j hroots ih =>
    obtain ⟨ha, hb⟩ := hqueue _ List.mem_cons_self
    have hsame : g.Same a b := by
      have hij : i = j := by
        by_contra hne
        exact hroots ⟨hne, rootIndex_lt_size ha.2, rootIndex_lt_size hb.2⟩
      exact same_iff.2 hij
    refine .of_turn rfl (fun r => ?_) (fun _ _ _ _ _ => Iff.rfl)
      (ih hs fun p hp => hqueue p (List.mem_cons_of_mem _ hp))
    rw [relates_cons]
    exact ⟨fun h => ⟨h.1, h.1.same hsame, h.2⟩, fun h => ⟨h.1, h.2.2⟩⟩

/-- Unifying pairs inside a region is a change inside the region, whether it succeeds or fails. -/
theorem unifyAll_within (span : Span) (g : TypeGraph) (queue : List PendingPair) {s : Set TypeVar}
    (hs : g.Region s) (hqueue : ∀ p ∈ queue, p.left ∈ s ∧ p.right ∈ s) :
    match g.unifyAll span queue with
    | .ok _ g' | .error _ g' => g.Within s g' := by
  fun_induction unifyAll span g queue with
  | case1 g => exact .refl hs
  | case2 g => exact .refl hs
  | case3 g a b path rest i j hroots x y t inner hmerge ih =>
    obtain ⟨hne, hi, hj⟩ := hroots
    obtain ⟨ha, hb⟩ := hqueue _ List.mem_cons_self
    have hvars := Ty.merge_vars hmerge
    have hjoin : g.Within s (g.joinIndex i j t) :=
      within_joinIndex hs hi hj hne (g.rootIndex_rootIndex _) (g.rootIndex_rootIndex _)
        (hs.same ha ((same_equivalence g).symm (g.same_root a)))
        (hs.same hb ((same_equivalence g).symm (g.same_root b)))
        fun w hw => (hvars.1 w hw).elim (hs.children ha) (hs.children hb)
    have hrest := ih hjoin.region (by
      simp only [List.forall_mem_append, List.forall_mem_map]
      exact ⟨fun p hp => hqueue p (List.mem_cons_of_mem _ hp), fun p hp =>
        (hvars.2 p hp).imp (hs.children ha) (hs.children hb)⟩)
    generalize unifyAll span (g.joinIndex i j t) _ = result at hrest
    cases result with
    | ok _ g' => exact hjoin.trans hrest
    | error _ g' => exact hjoin.trans hrest
  | case4 g a b path rest i j hroots ih =>
    exact ih hs fun p hp => hqueue p (List.mem_cons_of_mem _ hp)

end TypeGraph

/-! ### Unifying two variables -/

/-- **Unification is sound, complete and principal.** It succeeds exactly if some solution relates the
two variables. Then the classes are the least such solution, the kind of each class is the greatest
common refinement of the kinds that were merged into it, and variables that neither of the two leads to
keep their classes and types. -/
theorem unify_least_solution {g : TypeGraph} (hg : g.WellFormed) {a b : TypeVar}
    (ha : a.index < g.size) (hb : b.index < g.size) (span : Span) :
    ((∃ g', unify a b span g = .ok () g') ↔ ∃ r, g.Solution r ∧ r a b) ∧
      ∀ g', unify a b span g = .ok () g' →
        (g.Solution g'.Same ∧ g'.Same a b ∧
          ∀ r, g.Solution r → r a b → ∀ v w, g'.Same v w → r v w) ∧
        (∀ v, g.LowerBound g'.Same v (g'.kind v) ∧
          ∀ k, g.LowerBound g'.Same v k → k.Refines g'.Same (g'.kind v)) ∧
        ∀ v, ¬ g.Reaches a v → ¬ g.Reaches b v →
          (∀ w, g'.Same v w ↔ g.Same v w) ∧ g'.get v = g.get v := by
  have hspec := TypeGraph.unifyAll_spec span g [⟨a, b, []⟩] hg.closed
    fun p hp => by cases List.mem_singleton.1 hp; exact ⟨⟨trivial, ha⟩, trivial, hb⟩
  have hwithin := TypeGraph.unifyAll_within span g [⟨a, b, []⟩] (g.region_reaches a b)
    fun p hp => by cases List.mem_singleton.1 hp; exact ⟨.inl .refl, .inr .refl⟩
  have hrelates (r : VarRel) : TypeGraph.Relates r [⟨a, b, []⟩] ↔ r a b := List.forall_mem_singleton
  have hrun : unify a b span g = g.unifyAll span [⟨a, b, []⟩] := rfl
  rw [hrun]
  generalize g.unifyAll span [⟨a, b, []⟩] = result at hspec hwithin
  cases result with
  | error e g' =>
    refine ⟨⟨fun ⟨_, h⟩ => (nomatch h), fun ⟨r, hr, hab⟩ => ?_⟩, fun _ h => nomatch h⟩
    exact (hspec r hr ((hrelates r).2 hab)).elim
  | ok _ g₁ =>
    obtain ⟨-, -, hsolution, hbound⟩ := hspec
    have hsame := (hsolution _).1 g₁.solution_same
    have hab : g₁.Same a b := (hrelates _).1 hsame.2
    refine ⟨⟨fun _ => ⟨_, hsame.1, hab⟩, fun _ => ⟨g₁, rfl⟩⟩, fun g' h => ?_⟩
    cases h
    refine ⟨⟨hsame.1, hab, fun r hr hrel v w hvw => ?_⟩, fun v => ?_, fun v hav hbv => ?_⟩
    · exact ((hsolution r).2 ⟨hr, (hrelates r).2 hrel⟩).same hvw
    · have hiff := hbound _ g₁.solution_same v
      refine ⟨(hiff _).1 fun w hw => ?_, fun k hk => ?_⟩
      · exact TypeGraph.kind_eq_of_same hw ▸ Kind.Refines.refl g₁.same_equivalence _
      · exact (hiff k).2 hk v (g₁.same_equivalence.refl v)
    · have hv : v ∉ {v | g.Reaches a v ∨ g.Reaches b v} := fun h => h.elim hav hbv
      exact ⟨hwithin.same_iff (g.region_reaches a b) hv, hwithin.type v hv⟩

/-- An array of itself and an array of something unknown: they unify, and the unknown becomes the array
itself. -/
theorem unify_least_solution_cycle :
    let g : TypeGraph := ⟨#[.root ⟨.array ⟨0⟩, none⟩, .root ⟨.array ⟨2⟩, none⟩, .root Ty.any]⟩
    g.WellFormed ∧ ∃ g', unify ⟨0⟩ ⟨1⟩ .none g = .ok () g' ∧ g'.Same ⟨0⟩ ⟨2⟩ := by
  intro g
  have hg : g.WellFormed := TypeGraph.wellFormed_of_cells (by decide)
  have hall : g.Solution fun _ _ => True := by
    refine .of_common ⟨fun _ => trivial, fun _ => trivial, fun _ _ => trivial⟩ (fun _ => trivial)
      fun _ => ⟨.array ⟨0⟩, fun w _ => ?_⟩
    rcases g.kind_eq_any_or_mem w with hw | ⟨t, ht, hw⟩
    · rw [hw]
      trivial
    · simp only [g, List.mem_cons, List.not_mem_nil, or_false, Cell.root.injEq] at ht
      rw [hw]
      rcases ht with rfl | rfl | rfl <;> trivial
  have hmain := unify_least_solution hg (show 0 < g.size by decide) (show 1 < g.size by decide) .none
  obtain ⟨g', hrun⟩ := hmain.1.2 ⟨_, hall, trivial⟩
  obtain ⟨hsolution, hsame, -⟩ := (hmain.2 g' hrun).1
  have hinside := hsolution.agree hsame
  rw [show g.kind ⟨0⟩ = .array ⟨0⟩ by cbv, show g.kind ⟨1⟩ = .array ⟨2⟩ by cbv] at hinside
  exact ⟨hg, g', hrun, hinside⟩

end Monomorph
