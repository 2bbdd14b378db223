import Monomorph.Proofs.Type.Demands
import Monomorph.Proofs.Type.Mirroring

/-! # Changes confined to a region

Types that are told apart by a region (`TypeGraph.Closed`) cannot disturb each other: a computation on variables of
the region changes nothing outside, also where it fails half-way (`TypeGraph.Confines`). What it allocates is of the
region as well. This holds of allocating and copying, of unification, and of every constraint
(`Constraint.apply_confines`).

A type of which no variable is in the region keeps its class, its structure and how it displays
(`TypeGraph.ChangesIn.undisturbed`). -/

namespace Monomorph

open Outcome

namespace TypeGraph

variable {g g' g'' : TypeGraph} {s r : Set TypeVar} {v w : TypeVar} {t : Ty}

/-! ### Changes in a set of variables -/

/-- No variable is lost, and outside of a set classes and types are as they were. -/
structure ChangesIn (s : Set TypeVar) (g g' : TypeGraph) : Prop where
  size_le : g.size ≤ g'.size
  root : ∀ v ∉ s, g'.rootIndex v.index = g.rootIndex v.index
  type : ∀ v ∉ s, g'.get v = g.get v

theorem changesIn_kept (s : Set TypeVar) : Kept (ChangesIn s) where
  refl _ := ⟨Nat.le_refl _, fun _ _ => rfl, fun _ _ => rfl⟩
  trans h h' := ⟨Nat.le_trans h.size_le h'.size_le, fun v hv => (h'.root v hv).trans (h.root v hv),
    fun v hv => (h'.type v hv).trans (h.type v hv)⟩

theorem ChangesIn.within (h : ChangesIn s g g') (hs : g'.Region s) : g.Within s g' := ⟨hs, h.root, h.type⟩

theorem Within.changesIn (h : g.Within s g') (hsize : g.size ≤ g'.size) : ChangesIn s g g' :=
  ⟨hsize, h.root, h.type⟩

/-- All variables are of the region and allocated. -/
abbrev AllKnown (s : Set TypeVar) (g : TypeGraph) (vs : List TypeVar) : Prop := ∀ v ∈ vs, g.Known s v

theorem ChangesIn.known (h : ChangesIn s g g') (hv : g.Known s v) : g'.Known s v :=
  ⟨hv.1, Nat.lt_of_lt_of_le hv.2 h.size_le⟩

theorem ChangesIn.allKnown (h : ChangesIn s g g') {vs : List TypeVar} (hvs : g.AllKnown s vs) :
    g'.AllKnown s vs := fun v hv => h.known (hvs v hv)

theorem Closed.known_reached (hs : g.Closed s) {vs : List TypeVar} (hvs : g.AllKnown s vs) (hv : v ∈ g.reached vs) :
    g.Known s v := by
  have hregion : g.Region {v | g.Known s v} :=
    { same := fun {a b} ha hsame => by
        refine ⟨hs.region.same ha.1 hsame, lt_size_of_rootIndex ?_⟩
        rw [← same_iff.1 hsame]
        exact rootIndex_lt_size ha.2
      children := fun ha hb => hs.child ha.1 hb }
  exact hregion.reached_subset hvs hv

/-- A variable keeps its class, its type and how it displays. -/
structure Undisturbed (g g' : TypeGraph) (v : TypeVar) : Prop where
  same : ∀ u, g'.Same v u ↔ g.Same v u
  type : g'.get v = g.get v
  display : g'.display v = g.display v

/-- A type of which no variable is in the region is left alone by changes in it. -/
theorem ChangesIn.undisturbed (h : ChangesIn s g g') (hs : g.Closed s) (hs' : g'.Closed s)
    (hv : ∀ u, g.Reaches v u → u ∉ s) : Undisturbed g g' v := by
  have hwithin := h.within hs'.region
  have hold {u : TypeVar} (hu : u ∉ s) : u.index < g.size := Nat.lt_of_not_le fun hle => hu (hs.fresh hle)
  have hmirrors : Mirrors (g.reached [v]) id g g' :=
    { region := g.region_reached [v]
      allocated := fun {u} ⟨x, hx, hu⟩ => by
        obtain rfl := List.mem_singleton.1 hx
        exact ⟨hold (hv u hu), Nat.lt_of_lt_of_le (hold (hv u hu)) h.size_le⟩
      same := fun {u x} ⟨y, hy, hu⟩ _ => by
        obtain rfl := List.mem_singleton.1 hy
        exact hwithin.same_iff hs.region (hv u hu) x
      type := fun {u} ⟨y, hy, hu⟩ => by
        obtain rfl := List.mem_singleton.1 hy
        change g'.get u = ⟨_, _⟩
        rw [h.type u (hv u hu), Kind.mapVars_id] }
  exact ⟨hwithin.same_iff hs.region (hv v .refl), h.type v (hv v .refl),
    hmirrors.display (mem_reached List.mem_cons_self)⟩

/-- What some variables lead to, and what is not allocated. -/
def ambit (g : TypeGraph) (vs : Set TypeVar) : Set TypeVar := {u | (∃ v ∈ vs, g.Reaches v u) ∨ u ∈ g.future}

theorem WellFormed.closed_ambit (hg : g.WellFormed) (vs : Set TypeVar) : g.Closed (g.ambit vs) where
  region :=
    { same := fun hu hsame => hu.imp (fun ⟨v, hv, h⟩ => ⟨v, hv, h.tail (.inl hsame)⟩) fun h =>
        g.closed_future.region.same h hsame
      children := fun hu hw => hu.imp (fun ⟨v, hv, h⟩ => ⟨v, hv, h.tail (.inr hw)⟩) fun h =>
        g.closed_future.region.children h hw }
  allocated _ hw := hg _ _ hw
  fresh h := .inr h

/-- Nothing is led to both from the variable and from others. -/
def Apart (g : TypeGraph) (vs : Set TypeVar) (v : TypeVar) : Prop :=
  ∀ u, g.Reaches v u → ∀ w ∈ vs, ¬ g.Reaches w u

theorem Apart.notMem_ambit {vs : Set TypeVar} (h : g.Apart vs v) (hg : g.WellFormed) (hv : v.index < g.size)
    (u : TypeVar) (hu : g.Reaches v u) : u ∉ g.ambit vs := by
  rintro (⟨w, hw, hreaches⟩ | hfuture)
  · exact h u hu w hw hreaches
  · have hallocated := hg.lt_size_of_reached (List.forall_mem_singleton.2 hv) ⟨v, List.mem_cons_self, hu⟩
    exact Nat.not_le.2 hallocated hfuture

theorem Apart.mono {vs vs' : Set TypeVar} (h : g.Apart vs v) (hvs : vs' ⊆ vs) : g.Apart vs' v :=
  fun u hu w hw => h u hu w (hvs hw)

def isApart (g : TypeGraph) (vs : List TypeVar) (v : TypeVar) : Bool :=
  (g.discovery [v]).found.all fun r => decide (r ∉ (g.discovery vs).found)

theorem isApart_iff {vs : List TypeVar} : g.isApart vs v = true ↔ g.Apart {w | w ∈ vs} v := by
  obtain ⟨hsound, hhas⟩ := g.discovery_spec [v]
  obtain ⟨hsound', hhas'⟩ := g.discovery_spec vs
  simp only [isApart, Array.all_eq_true', decide_eq_true_iff]
  constructor
  · intro h u hu w hw hreaches
    exact h _ (Array.mem_iff_getElem?.2 ((hhas u).2 ⟨v, List.mem_cons_self, hu⟩))
      (Array.mem_iff_getElem?.2 ((hhas' u).2 ⟨w, hw, hreaches⟩))
  · intro h r hr hr'
    obtain ⟨u, hu, hreaches⟩ := hsound.inside r (Array.mem_iff_getElem?.1 hr)
    obtain ⟨w, hw, hreaches'⟩ := hsound'.inside r (Array.mem_iff_getElem?.1 hr')
    exact h _ (List.mem_singleton.1 hu ▸ hreaches) w hw hreaches'

/-! ### Adding and overwriting -/

/-- From a graph in which the set is a region, to one in which it is, with no change outside. -/
def Confines (s : Set TypeVar) (g g' : TypeGraph) : Prop := g.Closed s → g'.Closed s ∧ ChangesIn s g g'

theorem confines_kept (s : Set TypeVar) : Kept (Confines s) where
  refl g hs := ⟨hs, (changesIn_kept s).refl g⟩
  trans h h' hs := by
    obtain ⟨hs', hg⟩ := h hs
    obtain ⟨hs'', hg'⟩ := h' hs'
    exact ⟨hs'', (changesIn_kept s).trans hg hg'⟩

/-- Variables are added, each alone in its class and with nothing but the region inside. -/
theorem Extends.confines (h : g'.Extends g) (hroot : ∀ i, g.size ≤ i → g'.rootIndex i = i)
    (hnew : ∀ v : TypeVar, g.size ≤ v.index → g'.AllKnown s (g'.kind v).children) : Confines s g g' := fun hs => by
  have hold {v : TypeVar} (hv : v ∉ s) : v.index < g.size := Nat.lt_of_not_le fun hle => hv (hs.fresh hle)
  refine ⟨⟨⟨fun {v w} hv hsame => ?_, fun {v w} hv hw => ?_⟩, fun {v w} hv hw => ?_, fun {v} hv => ?_⟩,
    h.size_le, fun v hv => h.rootIndex (hold hv), fun v hv => h.get (hold hv)⟩
  · by_contra hws
    have hw := hold hws
    rw [same_iff, h.rootIndex hw] at hsame
    by_cases hlt : v.index < g.size
    · rw [h.rootIndex hlt] at hsame
      exact hws (hs.region.same hv (same_iff.2 hsame))
    · rw [hroot _ (Nat.le_of_not_lt hlt)] at hsame
      exact hlt (hsame ▸ rootIndex_lt_size hw)
  · by_cases hlt : v.index < g.size
    · rw [h.kind hlt] at hw
      exact hs.region.children hv hw
    · exact (hnew v (Nat.le_of_not_lt hlt) w hw).1
  · by_cases hlt : v.index < g.size
    · rw [h.kind hlt] at hw
      exact Nat.lt_of_lt_of_le (hs.allocated hv hw) h.size_le
    · exact (hnew v (Nat.le_of_not_lt hlt) w hw).2
  · exact hs.fresh (Nat.le_trans h.size_le hv)

theorem confines_alloc (ht : g.AllKnown s t.kind.children) : Confines s g (g.alloc t).2 := fun hs => by
  have hsize : (g.alloc t).2.size = g.size + 1 := size_alloc g t
  refine (extends_alloc g t).confines (fun i hi => ?_) (fun v hv w hw => ?_) hs
  · rw [rootIndex_alloc, rootIndex_of_size_le hi]
  · rw [kind, get_alloc] at hw
    split at hw
    · exact ⟨(ht w hw).1, Nat.lt_of_lt_of_le (ht w hw).2 (hsize ▸ Nat.le_succ _)⟩
    · rw [get_of_size_le hv] at hw
      cases hw

theorem confines_set (hv : g.Known s v) (ht : g.AllKnown s t.kind.children) : Confines s g (g.set v t) := fun hs => by
  have hroot (i : Nat) : (g.set v t).rootIndex i = g.rootIndex i := rootIndex_set g v t i
  have hchild {a b : TypeVar} (ha : a ∈ s) (hb : b ∈ ((g.set v t).kind a).children) : g.Known s b := by
    rw [kind, get_set hv.2] at hb
    split at hb
    · exact ht b hb
    · exact hs.child ha hb
  refine ⟨⟨⟨fun ha hsame => ?_, fun ha hb => (hchild ha hb).1⟩, fun ha hb => ?_, fun h => ?_⟩,
    Nat.le_of_eq (size_set g v t).symm, fun a _ => hroot a.index, fun a ha => ?_⟩
  · rw [same_iff, hroot, hroot, ← same_iff] at hsame
    exact hs.region.same ha hsame
  · rw [size_set]
    exact (hchild ha hb).2
  · exact hs.fresh (size_set g v t ▸ h)
  · rw [get_set hv.2, if_neg]
    exact fun hsame => ha (hs.region.same hv.1 hsame)

theorem known_copyOf (hs : g.Closed s) {vs : List TypeVar} (hv : v ∈ g.reached vs) :
    (g.copyAll vs).2.Known s (g.copyOf vs v) := by
  obtain ⟨i, hi, heq⟩ := copyOf_spec hv
  refine ⟨hs.fresh (g.le_copyOf vs v), ?_⟩
  rw [heq, size_copyAll]
  exact Nat.add_lt_add_left (Array.getElem?_eq_some_iff.1 hi).1 _

/-- What is copied may be outside of the region, the copies are in it. -/
theorem confines_copyAll (g : TypeGraph) (vs : List TypeVar) : Confines s g (g.copyAll vs).2 := fun hs => by
  refine (copyAll_extends g vs).confines (fun i hi => rootIndex_copyAll hi) (fun v hv w hw => ?_) hs
  by_cases hlt : v.index < (g.copyAll vs).2.size
  · obtain ⟨u, hu, rfl⟩ := exists_copyOf hv hlt
    rw [kind, get_copyOf hu, Ty.mapVars, Kind.children_mapVars] at hw
    obtain ⟨x, hx, rfl⟩ := List.mem_map.1 hw
    exact known_copyOf hs ((g.region_reached vs).children hu hx)
  · rw [size_le_of_kind_eq_any (Nat.le_of_not_lt hlt)] at hw
    cases hw

theorem copyAll_narrows (hg : g.WellFormed) (vs : List TypeVar) : NarrowsIn Set.univ g (g.copyAll vs).2 :=
  ⟨(copyAll_extends g vs).narrows, (confines_copyAll g vs hg.closed).1⟩

theorem copyAll_untouched (g : TypeGraph) (vs : List TypeVar) : g.Untouched (g.copyAll vs).2 where
  size_le := (copyAll_extends g vs).size_le
  root _ hv := (copyAll_extends g vs).rootIndex hv
  type _ hv := (copyAll_extends g vs).get hv
  apart := (confines_copyAll g vs g.closed_future).1.region

theorem unifyAll_confines (span : Span) (g : TypeGraph) (queue : List PendingPair) (hs : g.Closed s)
    (hqueue : ∀ p ∈ queue, g.Known s p.left ∧ g.Known s p.right) :
    match g.unifyAll span queue with
    | .ok _ g' | .error _ g' => g'.Closed s ∧ ChangesIn s g g' := by
  fun_induction unifyAll span g queue with
  | case1 g => exact ⟨hs, (changesIn_kept s).refl g⟩
  | case2 g => exact ⟨hs, (changesIn_kept s).refl g⟩
  | case3 g a b path rest i j hroots x y t inner hmerge ih =>
    obtain ⟨hne, hi, hj⟩ := hroots
    have hrooti : g.rootIndex i = i := g.rootIndex_rootIndex _
    have hrootj : g.rootIndex j = j := g.rootIndex_rootIndex _
    obtain ⟨ha, hb⟩ := hqueue _ List.mem_cons_self
    have hvars := Ty.merge_vars hmerge
    have ht : ∀ w ∈ t.kind.children, g.Known s w := fun w hw => (hvars.1 w hw).elim (hs.child ha.1) (hs.child hb.1)
    have hclosed : (g.joinIndex i j t).Closed s := hs.joinIndex (hs.root ha) (hs.root hb) hne hrooti hrootj ht
    have hjoin : ChangesIn s g (g.joinIndex i j t) :=
      (within_joinIndex hs.region hi hj hne hrooti hrootj (hs.root ha).1 (hs.root hb).1 fun w hw =>
        (ht w hw).1).changesIn (Nat.le_of_eq (size_joinIndex g i j t).symm)
    have hrest := ih hclosed (by
      simp only [Known, size_joinIndex, List.forall_mem_append, List.forall_mem_map]
      exact ⟨fun p hp => hqueue p (List.mem_cons_of_mem _ hp), fun p hp =>
        (hvars.2 p hp).imp (hs.child ha.1) (hs.child hb.1)⟩)
    generalize unifyAll span (g.joinIndex i j t) _ = result at hrest
    cases result <;> exact ⟨hrest.1, (changesIn_kept s).trans hjoin hrest.2⟩
  | case4 g a b path rest i j hroots ih => exact ih hs fun p hp => hqueue p (List.mem_cons_of_mem _ hp)

end TypeGraph

/-! ### Steps -/

open TypeGraph

variable {g : TypeGraph} {s : Set TypeVar} {v w : TypeVar} {span : Span}

/-- Only graphs in which the set is a region are of interest. -/
theorem keepsAt_confines {α : Type} {x : TypeM α} (h : g.Closed s → KeepsAt (Confines s) x g) :
    KeepsAt (Confines s) x g :=
  ⟨fun hok hs => (h hs).ok hok hs, fun herror hs => (h hs).error herror hs⟩

theorem unifyAt_confines {path : StepPath} (hv : g.Known s v) (hw : g.Known s w) :
    KeepsAt (Confines s) (unifyAt v w span path) g := by
  have hconfines (hs : g.Closed s) := unifyAll_confines span g [⟨v, w, path⟩] hs (List.forall_mem_singleton.2 ⟨hv, hw⟩)
  constructor
  · intro u g' hok hs
    have h := hconfines hs
    rwa [show g.unifyAll span [⟨v, w, path⟩] = .ok u g' from hok] at h
  · intro e g' herror hs
    have h := hconfines hs
    rwa [show g.unifyAll span [⟨v, w, path⟩] = .error e g' from herror] at h

theorem allocate_confines {t : Ty} (ht : g.AllKnown s t.kind.children) : KeepsAt (Confines s) (allocate t) g :=
  ⟨fun hok => (ok_eq_ok_iff.1 hok).2 ▸ confines_alloc ht, nofun⟩

theorem settle_confines {kind : Kind} {origin : Option Span} (hv : g.Known s v) (hkind : g.AllKnown s kind.children) :
    KeepsAt (Confines s) (settle v kind origin) g :=
  ⟨fun hok => (ok_eq_ok_iff.1 hok).2 ▸ confines_set hv hkind, nofun⟩

theorem freshFor_confines (names : List String) : KeepsAt (Confines s) (freshFor names) g := by
  induction names generalizing g with
  | nil => exact (confines_kept s).pure _ g
  | cons name names ih =>
    exact (confines_kept s).bindAt (allocate_confines nofun) fun _ =>
      (confines_kept s).bindAt ih fun _ => (confines_kept s).pure _ _

/-- A kind with a new variable for each of some names inside, given to a variable. -/
theorem freshFor_settle_confines {names : List String} {origin : Option Span}
    {kind : List (String × TypeVar) → Kind} (hv : g.Known s v)
    (hkind : ∀ members, ∀ w ∈ (kind members).children, ∃ e ∈ members, e.2 = w) :
    KeepsAt (Confines s) (freshFor names >>= fun members => settle v (kind members) origin) g := by
  refine keepsAt_confines fun hs => (confines_kept s).bindAt (freshFor_confines names) fun hok => ?_
  obtain ⟨hin, -, -, hmembers⟩ := freshFor_narrows hs hok
  refine settle_confines (hin.known hv) fun w hw => ?_
  obtain ⟨e, he, rfl⟩ := hkind _ w hw
  exact hmembers e he

namespace Constraint

/-- Pairs of known variables are unified one after another. -/
theorem forM_unifyAt_confines {β : Type} {left right : β → TypeVar} {path : β → StepPath} {l : List β}
    (hl : ∀ b ∈ l, g.Known s (left b) ∧ g.Known s (right b)) :
    KeepsAt (Confines s) (l.forM fun b => unifyAt (left b) (right b) span (path b)) g := by
  induction l generalizing g with
  | nil => exact (confines_kept s).pure _ g
  | cons b l ih =>
    obtain ⟨⟨hleft, hright⟩, hrest⟩ := List.forall_mem_cons.1 hl
    have hunify : KeepsAt (Confines s) (unifyAt (left b) (right b) span (path b)) g := unifyAt_confines hleft hright
    refine keepsAt_confines fun hs => (confines_kept s).bindAt hunify fun hok => ih fun c hc => ?_
    obtain ⟨-, hchanges⟩ := hunify.ok hok hs
    exact ⟨hchanges.known (hrest c hc).1, hchanges.known (hrest c hc).2⟩

/-- A constraint about variables of a region changes nothing outside, also where it fails. -/
theorem apply_confines {c : Constraint} (hc : g.AllKnown s c.vars) : KeepsAt (Confines s) c.apply g := by
  obtain ⟨v, span, d⟩ := c
  obtain ⟨hv, hd⟩ := List.forall_mem_cons.1 hc
  have hpure (u : Unit) : KeepsAt (Confines s) (pure u : TypeM Unit) g := (confines_kept s).pure u g
  have hthrow (e : TypeError) : KeepsAt (Confines s) (throw e : TypeM Unit) g := (confines_kept s).throw e g
  have hplain {kind : Kind} (h : kind.children = []) : KeepsAt (Confines s) (settle v kind span) g :=
    settle_confines hv (h ▸ List.forall_mem_nil _)
  refine keepsAt_get_bind (keepsAt_confines fun hs => ?_)
  -- What is inside the type of a known variable is known.
  have hinside {a : TypeVar} {k : Kind} (ha : g.Known s a) (hk : (g.get a).kind = k) : g.AllKnown s k.children := by
    subst hk
    exact fun w hw => hs.child ha.1 hw
  cases d with
  | isBase base reason =>
    dsimp only
    split
    · exact hpure ()
    · split
      · exact hplain (by cases base <;> rfl)
      · exact hthrow _
  | isNumeric =>
    dsimp only
    split
    · exact hplain rfl
    · split
      · exact hpure ()
      · exact hthrow _
  | isIndexed =>
    dsimp only
    split
    · exact hplain rfl
    · exact hplain rfl
    · exact hplain rfl
    · split
      · exact hpure ()
      · exact hthrow _
  | isReferenced =>
    dsimp only
    split
    · exact hplain rfl
    · exact hplain rfl
    · split
      · exact hpure ()
      · exact hthrow _
  | isSequence =>
    dsimp only
    split
    · exact hplain rfl
    · exact hplain rfl
    · split
      · exact hpure ()
      · exact hthrow _
  | hasElement element =>
    have hsettle : KeepsAt (Confines s) (settle v (.array element) span) g := settle_confines hv hd
    dsimp only
    split
    · exact hsettle
    · exact hsettle
    · exact hsettle
    · exact hsettle
    · rename_i existing hk
      exact unifyAt_confines (hinside hv hk existing List.mem_cons_self) (hd element List.mem_cons_self)
    · exact hthrow _
  | hasMember name type =>
    have htype : g.Known s type := hd type List.mem_cons_self
    have hsingle : KeepsAt (Confines s) (settle v (.object (Row.empty.insert name type) true none) span) g :=
      settle_confines hv (fun w hw => eq_of_mem_values_single hw ▸ htype)
    dsimp only
    split
    · exact hsingle
    · exact hsingle
    · rename_i members isOpen order hk
      split
      · rename_i existing hexisting
        exact unifyAt_confines (hinside hv hk existing ((Row.mem_values_iff _).2 ⟨name, hexisting⟩)) htype
      · split
        · refine settle_confines hv fun w hw => ?_
          rcases mem_values_insert hw with rfl | hw
          · exact htype
          · exact hinside hv hk w hw
        · exact hthrow _
    · exact hthrow _
  | limitMembers names =>
    dsimp only
    split
    · exact freshFor_settle_confines hv fun _ _ => mem_values_ofList
    · exact freshFor_settle_confines hv fun _ _ => mem_values_ofList
    · rename_i members isOpen order hk
      have hmembers : g.AllKnown s members.values := hinside hv hk
      exact settle_confines hv hmembers
    · exact hthrow _
  | hasSignature args returns =>
    obtain ⟨hargs, hreturns⟩ := List.forall_mem_append.1 hd
    have hsettle : KeepsAt (Confines s) (settle v (.closure args returns) span) g := settle_confines hv hd
    dsimp only
    split
    · exact hsettle
    · exact hsettle
    · rename_i existing result hk
      obtain ⟨hexisting, hresult⟩ := List.forall_mem_append.1 (hinside hv hk)
      split
      · have hpairs : KeepsAt (Confines s) ((argumentPairs 0 existing args).forM fun p =>
            unifyAt p.left p.right span [p.step]) g := forM_unifyAt_confines fun p hp =>
          (Kind.mem_argumentPairs hp).imp (hexisting _) (hargs _)
        refine (confines_kept s).bindAt hpairs fun hok => ?_
        have hlater := (hpairs.ok hok hs).2
        exact unifyAt_confines (hlater.known (hresult result List.mem_cons_self))
          (hlater.known (hreturns returns List.mem_cons_self))
      · exact hthrow _
    · exact hthrow _
  | hasVariant name type =>
    have htype : g.Known s type := hd type List.mem_cons_self
    dsimp only
    split
    · exact settle_confines hv (fun w hw => eq_of_mem_values_single hw ▸ htype)
    · rename_i variants isOpen hk
      split
      · rename_i existing hexisting
        exact unifyAt_confines (hinside hv hk existing ((Row.mem_values_iff _).2 ⟨name, hexisting⟩)) htype
      · split
        · refine settle_confines hv fun w hw => ?_
          rcases mem_values_insert hw with rfl | hw
          · exact htype
          · exact hinside hv hk w hw
        · exact hthrow _
    · exact hthrow _
  | limitVariants names =>
    dsimp only
    split
    · exact freshFor_settle_confines hv fun _ _ => mem_values_ofList
    · rename_i variants isOpen hk
      split
      · exact hthrow _
      · have hvariants : g.AllKnown s variants.values := hinside hv hk
        exact settle_confines hv hvariants
    · exact hthrow _
  | variantsOfExcept source leftOut =>
    have hsource : g.Known s source := hd source List.mem_cons_self
    dsimp only
    split
    · rename_i all allOpen hall
      have hrest : g.AllKnown s (all.filter fun name _ => name != leftOut).values := by
        intro w hw
        obtain ⟨name, hname⟩ := (Row.mem_values_iff _).1 hw
        obtain ⟨hname, -⟩ := (Row.get?_filter_eq_some_iff _ _).1 hname
        exact hinside hsource hall w ((Row.mem_values_iff _).2 ⟨name, hname⟩)
      split
      · exact settle_confines hv hrest
      · rename_i variants isOpen hk
        split
        · exact hthrow _
        · rename_i row both hadd
          obtain ⟨-, hvalues, hboth⟩ := addVariants_spec hadd
          have hrow : g.AllKnown s row.values := fun w hw => (hvalues w hw).elim (hinside hv hk w) (hrest w)
          have hsettle : KeepsAt (Confines s) (settle v (.union row isOpen) (g.get v).origin) g :=
            settle_confines hv hrow
          refine (confines_kept s).bindAt hsettle fun hok => forM_unifyAt_confines fun e he => ?_
          have hlater := (hsettle.ok hok hs).2
          exact ⟨hlater.known (hrow _ (hboth e he).1), hlater.known (hrest _ (hboth e he).2)⟩
      · exact hthrow _
    · exact hthrow _
  | unify other => exact unifyAt_confines hv (hd other List.mem_cons_self)

end Constraint
end Monomorph
