import Mathlib.Data.List.Forall2
import Mathlib.Data.Sym.Sym2
import Monomorph.Proofs.Type.Unification
import Monomorph.Type.Tree

/-! # The order of unification does not matter

Pairs unified one after another succeed or fail together whatever their order and whichever side of a pair
comes first, and if they succeed the graphs say the same (`unifyEach_reordered`). The graphs themselves may
differ: the kind stored for a class mentions the variables of the side that was met first.

* Each run keeps the solutions that relate all its pairs (`unifyEach_spec`), and these do not depend on
  the order; so neither do the classes (`UnifySpec.same_iff`).
* The kinds of a class refine each other (`UnifySpec.refines`), so they are equal once every variable is
  replaced by its root (`Kind.mapVars_eq_of_refines`), and roots are the least members of their classes.
* What is read by unfolding depends on no more than that (`fold_eq`). -/

namespace Monomorph

/-! ### Rows and kinds up to the variables inside -/

/-- Rows that refine each other are equal up to related variables. -/
theorem RowRefines.map_eq {β : Type} {r : VarRel} {f : TypeVar → β} (hf : ∀ v w, r v w → f v = f w)
    {xs ys : Row TypeVar} {xOpen yOpen : Bool} (hxy : RowRefines r xs xOpen ys yOpen)
    (hyx : RowRefines r ys yOpen xs xOpen) : xs.map f = ys.map f ∧ xOpen = yOpen := by
  refine ⟨Row.ext_get? fun name => ?_, ?_⟩
  · rw [Row.get?_map, Row.get?_map]
    cases hy : ys.get? name with
    | some y =>
      obtain ⟨x, hx, hr⟩ := hxy.names name y hy
      rw [hx, Option.map_some, Option.map_some, hf x y hr]
    | none =>
      cases hx : xs.get? name with
      | none => rfl
      | some x =>
        obtain ⟨y, hy', -⟩ := hyx.names name x hx
        cases hy.symm.trans hy'
  · cases xOpen <;> cases yOpen
    · rfl
    · exact (hyx.isClosed rfl).symm
    · exact hxy.isClosed rfl
    · rfl

namespace Kind

variable {r : VarRel} {a b : Kind}

/-- Kinds that refine each other are equal up to related variables. -/
theorem mapVars_eq_of_refines {f : TypeVar → TypeVar} (hf : ∀ v w, r v w → f v = f w)
    (hab : a.Refines r b) (hba : b.Refines r a) : a.mapVars f = b.mapVars f := by
  cases b with
  | array y =>
    obtain ⟨x, rfl, hr⟩ := refines_array_iff.1 hab
    exact congrArg array (hf x y hr)
  | object ys yOpen yOrder =>
    obtain ⟨xs, xOpen, xOrder, rfl, hrow, horder⟩ := refines_object_iff.1 hab
    obtain ⟨hmap, rfl⟩ := hrow.map_eq hf hba.1
    have heq : xOrder = yOrder := by
      cases yOrder with
      | some order => exact horder order rfl
      | none =>
        cases xOrder with
        | none => rfl
        | some order => exact (hba.2 order rfl).symm
    rw [mapVars, mapVars, hmap, heq]
  | union ys yOpen =>
    obtain ⟨xs, xOpen, rfl, hrow⟩ := refines_union_iff.1 hab
    obtain ⟨hmap, rfl⟩ := hrow.map_eq hf hba
    rw [mapVars, mapVars, hmap]
  | closure ys y =>
    obtain ⟨xs, x, rfl, hargs, hr⟩ := refines_closure_iff.1 hab
    have hmap : xs.map f = ys.map f :=
      List.forall₂_eq_eq_eq ▸ List.forall₂_map_left_iff.2 (List.forall₂_map_right_iff.2 (hargs.imp hf))
    rw [mapVars, mapVars, hmap, hf x y hr]
  | _ =>
    cases a <;> first
      | rfl
      | exact hab.elim
      | exact hba.elim
      | exact (Bool.false_ne_true hab).elim
      | exact (Bool.false_ne_true hba).elim

theorem text_mapVars (f : TypeVar → TypeVar) (inner : TypeVar → String) (k : Kind) :
    (k.mapVars f).text inner = k.text (inner ∘ f) := by
  cases k with
  | object members isOpen order =>
    obtain ⟨entries, hsorted⟩ := members
    cases entries <;> simp [mapVars, text, Row.map, Function.comp_def]
  | union variants isOpen => simp [mapVars, text, Row.map, Function.comp_def]
  | closure args returns => simp [mapVars, text]
  | _ => rfl

theorem tree_mapVars (f : TypeVar → TypeVar) (inner : TypeVar → TypeTree) (k : Kind) :
    (k.mapVars f).tree inner = k.tree (inner ∘ f) := by
  cases k with
  | object members isOpen order =>
    have hnames : (members.map f).names = members.names := by simp [Row.names, Row.map]
    simp [mapVars, tree, hnames, Row.get?_map, Function.comp_def]
  | union variants isOpen => simp [mapVars, tree, Row.map, Function.comp_def]
  | closure args returns => simp [mapVars, tree]
  | _ => rfl

end Kind

namespace TypeGraph

variable {g g' g'' : TypeGraph}

/-! ### Graphs that say the same -/

theorem rootIndex_le_of_same {v w : TypeVar} (h : g.Same v w) : g.rootIndex v.index ≤ w.index :=
  same_iff.1 h ▸ g.rootIndex_le w.index

theorem rootIndex_eq_of_same_iff (h : ∀ v w, g'.Same v w ↔ g''.Same v w) (i : Nat) :
    g'.rootIndex i = g''.rootIndex i := by
  have hle {g g' : TypeGraph} (h : ∀ v w, g.Same v w → g'.Same v w) : g'.rootIndex i ≤ g.rootIndex i :=
    rootIndex_le_of_same (h ⟨i⟩ ⟨g.rootIndex i⟩ ((same_equivalence g).symm (g.same_root ⟨i⟩)))
  exact Nat.le_antisymm (hle fun v w => (h v w).2) (hle fun v w => (h v w).1)

theorem foldBelow_of_same {α : Type} (back : Nat → α) (step : Kind → (TypeVar → α) → α)
    (enclosing : List Nat) {v w : TypeVar} (h : g.Same v w) :
    g.foldBelow back step enclosing v = g.foldBelow back step enclosing w := by
  rw [foldBelow, foldBelow, kind_eq_of_same h, same_iff.1 h]

/-- Two graphs are unfolded to the same from variables that have the same roots and kinds that refine each other, if
the same holds of the variables inside, and if folding a kind looks at nothing but the values of these. -/
theorem foldBelow_eq_on {α : Type} {back : Nat → α} {step : Kind → (TypeVar → α) → α} {P : TypeVar → Prop}
    (hstep : ∀ f inner k, step (Kind.mapVars f k) inner = step k (inner ∘ f))
    (hcongr : ∀ k inner inner', (∀ w ∈ Kind.children k, P w) → (∀ w, P w → inner w = inner' w) →
      step k inner = step k inner')
    (hinside : ∀ v, P v → ∀ w ∈ (g'.kind v).children, P w)
    (hroot : ∀ v, P v → g'.rootIndex v.index = g''.rootIndex v.index)
    (hlt : ∀ v, P v → (g'.rootIndex v.index < g'.size ↔ g''.rootIndex v.index < g''.size))
    (hrefines : ∀ v, P v →
      (g'.kind v).Refines g''.Same (g''.kind v) ∧ (g''.kind v).Refines g''.Same (g'.kind v))
    (enclosing : List Nat) {v : TypeVar} (hv : P v) :
    g'.foldBelow back step enclosing v = g''.foldBelow back step enclosing v := by
  fun_induction foldBelow g' back step enclosing v with
  | case1 enclosing v r hseen =>
    rw [foldBelow.eq_def g'', dif_pos (hroot v hv ▸ hseen : g''.rootIndex v.index ∈ enclosing), ← hroot v hv]
  | case2 enclosing v r hseen hsize ih =>
    have hseen' : g''.rootIndex v.index ∉ enclosing := hroot v hv ▸ hseen
    have hfind : (g''.foldBelow back step (r :: enclosing)) ∘ g''.find =
        g''.foldBelow back step (r :: enclosing) :=
      funext fun w => foldBelow_of_same back step _ (g''.same_root w)
    have hkind : (g'.kind v).mapVars g''.find = (g''.kind v).mapVars g''.find :=
      Kind.mapVars_eq_of_refines (fun v w h => congrArg TypeVar.mk (same_iff.1 h)) (hrefines v hv).1
        (hrefines v hv).2
    calc step (g'.kind v) (fun w => g'.foldBelow back step (r :: enclosing) w)
      _ = step (g'.kind v) (g''.foldBelow back step (r :: enclosing)) :=
        hcongr _ _ _ (hinside v hv) fun w hw => ih w hw
      _ = step (g'.kind v) (g''.foldBelow back step (r :: enclosing) ∘ g''.find) := by rw [hfind]
      _ = step (g''.kind v) (g''.foldBelow back step (r :: enclosing) ∘ g''.find) := by
        rw [← hstep, hkind, hstep]
      _ = step (g''.kind v) (g''.foldBelow back step (r :: enclosing)) := by rw [hfind]
      _ = g''.foldBelow back step enclosing v := by
        rw [foldBelow.eq_def g'' back step enclosing v, dif_neg hseen', dif_pos ((hlt v hv).1 hsize), ← hroot v hv]
  | case3 enclosing v r hseen hsize =>
    have hseen' : g''.rootIndex v.index ∉ enclosing := hroot v hv ▸ hseen
    rw [foldBelow.eq_def g'', dif_neg hseen', dif_neg (hsize ∘ (hlt v hv).2)]

/-- Graphs of the same size and classes whose kinds refine each other are unfolded to the same. -/
theorem foldBelow_eq {α : Type} {back : Nat → α} {step : Kind → (TypeVar → α) → α}
    (hstep : ∀ f inner k, step (Kind.mapVars f k) inner = step k (inner ∘ f)) (hsize : g'.size = g''.size)
    (hsame : ∀ v w, g'.Same v w ↔ g''.Same v w)
    (hrefines : ∀ v, (g'.kind v).Refines g'.Same (g''.kind v) ∧ (g''.kind v).Refines g'.Same (g'.kind v))
    (enclosing : List Nat) (v : TypeVar) :
    g'.foldBelow back step enclosing v = g''.foldBelow back step enclosing v := by
  have hroot (v : TypeVar) := rootIndex_eq_of_same_iff hsame v.index
  have hfiner {v w : TypeVar} (h : g'.Same v w) : g''.Same v w := (hsame v w).1 h
  refine foldBelow_eq_on (P := fun _ => True) hstep (fun k _ _ _ h => ?_) (fun _ _ _ _ => trivial)
    (fun v _ => hroot v) (fun v _ => by rw [hroot, hsize])
    (fun v _ => ⟨(hrefines v).1.mono hfiner, (hrefines v).2.mono hfiner⟩) enclosing trivial
  exact congrArg (step k) (funext fun w => h w trivial)

/-! ### Unifying pairs one after another -/

def pending (pairs : List (TypeVar × TypeVar × Span)) : List PendingPair :=
  pairs.map fun p => ⟨p.1, p.2.1, []⟩

/-- A pair without saying which side comes first. -/
def unordered (p : TypeVar × TypeVar × Span) : Sym2 TypeVar := s(p.1, p.2.1)

theorem UnifySpec.append {s : Set TypeVar} {queue queue' : List PendingPair} {u : Unit}
    {result : EStateM.Result TypeError TypeGraph Unit} (h : g.UnifySpec s queue (.ok u g'))
    (h' : g'.UnifySpec s queue' result) : g.UnifySpec s (queue ++ queue') result := by
  obtain ⟨-, hsize, hsolution, hbound⟩ := h
  have hrelates (r : VarRel) : Relates r (queue ++ queue') ↔ Relates r queue ∧ Relates r queue' :=
    List.forall_mem_append
  refine .of_turn hsize (fun r => ?_) (fun r hr hrel => ?_) h'
  · rw [hsolution, hrelates, and_assoc]
  · exact hbound r ((hsolution r).2 ⟨hr, ((hrelates r).1 hrel).1⟩)

end TypeGraph

/-- Unify pairs one after another, each as demanded at its place. -/
def unifyEach : List (TypeVar × TypeVar × Span) → TypeM Unit
  | [] => pure ()
  | (a, b, span) :: rest => do
    unify a b span
    unifyEach rest

namespace TypeGraph

variable {g g' g'' : TypeGraph} {s : Set TypeVar} {ps qs : List (TypeVar × TypeVar × Span)}

theorem unifyEach_spec (hs : g.Closed s) (hps : ∀ p ∈ ps, g.Known s p.1 ∧ g.Known s p.2.1) :
    g.UnifySpec s (pending ps) (unifyEach ps g) := by
  induction ps generalizing g with
  | nil => exact ⟨hs, rfl, fun r => ⟨fun h => ⟨h, nofun⟩, And.left⟩, fun _ _ _ _ => Iff.rfl⟩
  | cons p ps ih =>
    obtain ⟨a, b, span⟩ := p
    obtain ⟨⟨ha, hb⟩, hps⟩ := List.forall_mem_cons.1 hps
    have hfirst := unifyAll_spec span g [⟨a, b, []⟩] hs fun p hp => by
      cases List.mem_singleton.1 hp
      exact ⟨ha, hb⟩
    have hrun : unifyEach ((a, b, span) :: ps) = EStateM.bind (unify a b span) fun _ => unifyEach ps := rfl
    rw [hrun, EStateM.bind, show unify a b span g = g.unifyAll span [⟨a, b, []⟩] from rfl]
    generalize g.unifyAll span [⟨a, b, []⟩] = result at hfirst
    cases result with
    | ok u g' =>
      have hknown {v : TypeVar} (hv : g.Known s v) : g'.Known s v := ⟨hv.1, hfirst.2.1 ▸ hv.2⟩
      exact hfirst.append (ih hfirst.1 fun p hp => (hps p hp).imp hknown hknown)
    | error e g' =>
      intro r hr hrel
      refine hfirst r hr (relates_cons.2 ⟨(relates_cons.1 hrel).1, nofun⟩)

/-- The relations that relate all pairs do not depend on the order of the pairs. -/
theorem relates_pending_of_perm {r : VarRel} (hr : Equivalence r)
    (h : (ps.map unordered).Perm (qs.map unordered)) (hps : Relates r (pending ps)) :
    Relates r (pending qs) := by
  have hiff (ps : List (TypeVar × TypeVar × Span)) :
      Relates r (pending ps) ↔ ∀ z ∈ ps.map unordered, z ∈ Sym2.fromRel (r := r) ⟨fun _ _ => hr.symm⟩ := by
    simp only [Relates, pending, unordered, List.forall_mem_map, Sym2.fromRel_prop]
  rw [hiff] at hps ⊢
  exact fun z hz => hps z (h.mem_iff.2 hz)

/-- Whether the variables of the pairs are known does not depend on the order of the pairs. -/
theorem known_of_perm (h : (ps.map unordered).Perm (qs.map unordered))
    (hps : ∀ p ∈ ps, g.Known s p.1 ∧ g.Known s p.2.1) : ∀ q ∈ qs, g.Known s q.1 ∧ g.Known s q.2.1 := by
  have hiff (ps : List (TypeVar × TypeVar × Span)) : (∀ p ∈ ps, g.Known s p.1 ∧ g.Known s p.2.1) ↔
      ∀ z ∈ ps.map unordered, ∀ v ∈ z, g.Known s v := by
    simp only [unordered, List.forall_mem_map, Sym2.mem_iff, forall_eq_or_imp, forall_eq]
  rw [hiff] at hps ⊢
  exact fun z hz => hps z (h.mem_iff.2 hz)

/-- If the pairs are unified in one order, they are in every other. -/
theorem exists_unifyEach_of_perm (hs : g.Closed s) (hps : ∀ p ∈ ps, g.Known s p.1 ∧ g.Known s p.2.1)
    (h : (ps.map unordered).Perm (qs.map unordered)) (hok : ∃ g', unifyEach ps g = .ok () g') :
    ∃ g'', unifyEach qs g = .ok () g'' := by
  obtain ⟨g', hg'⟩ := hok
  have hspec := unifyEach_spec hs hps
  have hspec' := unifyEach_spec hs (known_of_perm h hps)
  rw [hg'] at hspec
  cases hrun : unifyEach qs g with
  | ok u g'' => exact ⟨g'', rfl⟩
  | error e g'' =>
    rw [hrun] at hspec'
    obtain ⟨hsolution, hrelates⟩ := (hspec.2.2.1 _).1 g'.solution_same
    exact (hspec' _ hsolution (relates_pending_of_perm hsolution.equivalence h hrelates)).elim

/-- Unifying the same pairs, in any order, gives the same classes. -/
theorem UnifySpec.same_iff {queue queue' : List PendingPair} {u : Unit}
    (h : g.UnifySpec s queue (.ok u g')) (h' : g.UnifySpec s queue' (.ok u g''))
    (hqueue : ∀ r, Equivalence r → (Relates r queue ↔ Relates r queue')) (v w : TypeVar) :
    g'.Same v w ↔ g''.Same v w := by
  have hsolution (r : VarRel) : g'.Solution r ↔ g''.Solution r := by
    rw [h.2.2.1, h'.2.2.1]
    exact and_congr_right fun hr => hqueue r hr.equivalence
  exact ⟨((hsolution _).2 g''.solution_same).same, ((hsolution _).1 g'.solution_same).same⟩

/-- Unifying the same pairs, in any order, gives every class kinds that refine each other. -/
theorem UnifySpec.refines {queue queue' : List PendingPair} {u : Unit}
    (h : g.UnifySpec s queue (.ok u g')) (h' : g.UnifySpec s queue' (.ok u g''))
    (hsame : ∀ v w, g'.Same v w ↔ g''.Same v w) (v : TypeVar) :
    (g'.kind v).Refines g'.Same (g''.kind v) := by
  have heq : g''.Same = g'.Same := funext fun v => funext fun w => propext (hsame v w).symm
  have hlower : g'.LowerBound g'.Same v (g'.kind v) := fun w hw =>
    kind_eq_of_same hw ▸ Kind.Refines.refl g'.same_equivalence _
  have hbound := (h.2.2.2 _ g'.solution_same v (g'.kind v)).1 hlower
  rw [← heq] at hbound ⊢
  exact (h'.2.2.2 _ g''.solution_same v (g'.kind v)).2 hbound v (g''.same_equivalence.refl v)

end TypeGraph

/-- **Unification is order-independent.** Unifying pairs one after another succeeds in one order exactly if
it succeeds in every other, with any of the pairs turned round; and then the same variables are of one class
and the texts and trees of all types are equal. -/
theorem unifyEach_reordered {g : TypeGraph} (hg : g.WellFormed) {ps qs : List (TypeVar × TypeVar × Span)}
    (hps : ∀ p ∈ ps, p.1.index < g.size ∧ p.2.1.index < g.size)
    (hperm : (ps.map TypeGraph.unordered).Perm (qs.map TypeGraph.unordered)) :
    ((∃ g', unifyEach ps g = .ok () g') ↔ ∃ g'', unifyEach qs g = .ok () g'') ∧
      ∀ g' g'', unifyEach ps g = .ok () g' → unifyEach qs g = .ok () g'' →
        (∀ v w, g'.Same v w ↔ g''.Same v w) ∧
          ∀ v, g'.display v = g''.display v ∧ g'.tree v = g''.tree v := by
  have hknown : ∀ p ∈ ps, g.Known Set.univ p.1 ∧ g.Known Set.univ p.2.1 := fun p hp =>
    (hps p hp).imp (.intro trivial) (.intro trivial)
  have hknown' := TypeGraph.known_of_perm hperm hknown
  refine ⟨⟨TypeGraph.exists_unifyEach_of_perm hg.closed hknown hperm,
    TypeGraph.exists_unifyEach_of_perm hg.closed hknown' hperm.symm⟩, fun g' g'' h h' => ?_⟩
  have hspec := TypeGraph.unifyEach_spec hg.closed hknown
  have hspec' := TypeGraph.unifyEach_spec hg.closed hknown'
  rw [h] at hspec
  rw [h'] at hspec'
  have hsame := hspec.same_iff hspec' fun r hr =>
    ⟨TypeGraph.relates_pending_of_perm hr hperm, TypeGraph.relates_pending_of_perm hr hperm.symm⟩
  have heq : g''.Same = g'.Same := funext fun v => funext fun w => propext (hsame v w).symm
  have hrefines (v : TypeVar) : (g'.kind v).Refines g'.Same (g''.kind v) ∧
      (g''.kind v).Refines g'.Same (g'.kind v) :=
    ⟨hspec.refines hspec' hsame v, heq ▸ hspec'.refines hspec (fun v w => (hsame v w).symm) v⟩
  have hsize : g'.size = g''.size := hspec.2.1.trans hspec'.2.1.symm
  refine ⟨hsame, fun v => ⟨?_, ?_⟩⟩
  · exact TypeGraph.foldBelow_eq Kind.text_mapVars hsize hsame hrefines [] v
  · exact TypeGraph.foldBelow_eq Kind.tree_mapVars hsize hsame hrefines [] v

/-- A value with a length and a value with an address that are of one type with something unknown: in either
order, they unify, and the type is that of something indexable. -/
theorem unifyEach_reordered_categories :
    let g : TypeGraph := ⟨#[.root ⟨.sequence, none⟩, .root ⟨.referenced, none⟩, .root Ty.any]⟩
    let ps : List (TypeVar × TypeVar × Span) := [(⟨0⟩, ⟨1⟩, .none), (⟨1⟩, ⟨2⟩, .none)]
    let qs : List (TypeVar × TypeVar × Span) := [(⟨2⟩, ⟨1⟩, .none), (⟨0⟩, ⟨1⟩, .none)]
    g.WellFormed ∧ (∀ p ∈ ps, p.1.index < g.size ∧ p.2.1.index < g.size) ∧
      (ps.map TypeGraph.unordered).Perm (qs.map TypeGraph.unordered) ∧
      ∃ g' g'', unifyEach ps g = .ok () g' ∧ unifyEach qs g = .ok () g'' ∧
        g'.display ⟨2⟩ = "indexed" ∧ g'.display ⟨2⟩ = g''.display ⟨2⟩ := by
  intro g ps qs
  have hg : g.WellFormed := TypeGraph.wellFormed_of_cells (by decide)
  have hps : ∀ p ∈ ps, p.1.index < g.size ∧ p.2.1.index < g.size := by decide
  have hperm : (ps.map TypeGraph.unordered).Perm (qs.map TypeGraph.unordered) := by
    have hswap : TypeGraph.unordered (⟨1⟩, ⟨2⟩, .none) = TypeGraph.unordered (⟨2⟩, ⟨1⟩, .none) :=
      Sym2.eq_swap
    simp only [ps, qs, List.map_cons, List.map_nil, hswap]
    exact .swap _ _ _
  have hrun : ∃ g', unifyEach ps g = .ok () g' ∧ g'.display ⟨2⟩ = "indexed" := by
    refine ⟨⟨#[.root ⟨.indexed, none⟩, .link 0, .link 0]⟩, ?_, ?_⟩
    · simp only [ps, g]
      cbv
    · cbv
  obtain ⟨g', hg', hdisplay⟩ := hrun
  have hmain := unifyEach_reordered hg hps hperm
  obtain ⟨g'', hg''⟩ := hmain.1.1 ⟨g', hg'⟩
  exact ⟨hg, hps, hperm, g', g'', hg', hg'', hdisplay, ((hmain.2 g' g'' hg' hg'').2 ⟨2⟩).1⟩

end Monomorph
