import Monomorph.Proofs.Draft.Balanced

/-! # How often locals are given a value

Along every way through the body of a procedure (`Act.Way`), whatever closures run on it, no immutable local gets more
than one value (`Draft.givenOnce`), if its name is balanced or never declared without a value.

A memory on the way is set against the scope in which drafting was at that point. A name means the same local in both,
and as long as drafting knows of no value of an immutable local of the body itself, none was given
(`Memory.Shows`). Of the closures made so far, each was drafted in some scope that the locals visible to it show
(`Memory.Sound`). One step of a way keeps both, and changes an immutable local only if it is the one that the name
means in the body itself (`Act.Avoids`). -/

namespace Monomorph

open Act (Way RunsAll)
open Scope (stack)

/-! ### Growing memories -/

namespace Memory

/-- Bindings are only added, and keep their names and whether they are mutable. -/
def Grows (m m' : Memory) : Prop :=
  ∀ (i : Nat) (b : Binding), m.bindings[i]? = some b →
    ∃ b' : Binding, m'.bindings[i]? = some b' ∧ b'.name = b.name ∧ b'.isMutable = b.isMutable

/-- Locals were declared by these names, the latest first; they are new ones. -/
def Opens (m m' : Memory) (names : List String) : Prop :=
  ∃ new, m'.visible = new ++ m.visible ∧ new.map (·.1) = names ∧ ∀ e ∈ new, m.bindings.length ≤ e.2

variable {m m₁ m' : Memory} {names names' : List String}

theorem Grows.of_bindings (h : m'.bindings = m.bindings) : m.Grows m' := fun _ b hb => ⟨b, h ▸ hb, rfl, rfl⟩

theorem Grows.of_extends (h : m.bindings <+: m'.bindings) : m.Grows m' := fun _ b hb => by
  obtain ⟨new, hnew⟩ := h
  exact ⟨b, hnew ▸ List.getElem?_append_left (List.getElem?_eq_some_iff.1 hb).1 ▸ hb, rfl, rfl⟩

theorem Grows.trans (h : m.Grows m₁) (h' : m₁.Grows m') : m.Grows m' := fun i b hb => by
  obtain ⟨b₁, hb₁, hname, hmutable⟩ := h i b hb
  obtain ⟨b', hb', hname', hmutable'⟩ := h' i b₁ hb₁
  exact ⟨b', hb', hname'.trans hname, hmutable'.trans hmutable⟩

theorem Grows.length_le (h : m.Grows m') : m.bindings.length ≤ m'.bindings.length := by
  rcases Nat.eq_zero_or_pos m.bindings.length with hzero | hpos
  · omega
  · obtain ⟨b', hb', -⟩ := h (m.bindings.length - 1) _ (List.getElem?_eq_getElem (by omega))
    have := (List.getElem?_eq_some_iff.1 hb').1
    omega

theorem Opens.of_visible (h : m'.visible = m.visible) : m.Opens m' [] := ⟨[], h, rfl, nofun⟩

theorem Opens.trans (h : m.Opens m₁ names) (h' : m₁.Opens m' names') (hgrows : m.Grows m₁) :
    m.Opens m' (names' ++ names) := by
  obtain ⟨new, hnew, hnames, hfresh⟩ := h
  obtain ⟨new', hnew', hnames', hfresh'⟩ := h'
  refine ⟨new' ++ new, by rw [hnew', hnew, List.append_assoc], by rw [List.map_append, hnames', hnames], fun e he => ?_⟩
  exact (List.mem_append.1 he).elim (fun he => Nat.le_trans hgrows.length_le (hfresh' e he)) (hfresh e)

/-- A name that was not declared means what it did before. -/
theorem Opens.lookup_eq (h : m.Opens m' names) {n : String} (hn : n ∉ names) :
    m'.visible.lookup n = m.visible.lookup n := by
  obtain ⟨new, hvisible, rfl, -⟩ := h
  have hnone : new.lookup n = none := by
    refine List.lookup_eq_none_iff.2 fun e he => ?_
    have hne : n ≠ e.1 := fun heq => hn (List.mem_map.2 ⟨e, he, heq.symm⟩)
    simpa using hne
  rw [hvisible, List.lookup_append, hnone, Option.none_or]

theorem Opens.length_le_of_lookup (h : m.Opens m' names) {n : String} {i : Nat} (hn : n ∈ names)
    (hi : m'.visible.lookup n = some i) : m.bindings.length ≤ i := by
  obtain ⟨new, hvisible, rfl, hfresh⟩ := h
  obtain ⟨e, he, rfl⟩ := List.mem_map.1 hn
  obtain ⟨j, hj⟩ := Option.isSome_iff_exists.1
    (List.lookup_isSome_iff.2 ⟨e, he, beq_self_eq_true e.1⟩ : (new.lookup e.1).isSome = true)
  rw [hvisible, List.lookup_append, hj] at hi
  obtain rfl := Option.some.inj hi
  obtain ⟨before, after, rfl, -⟩ := List.lookup_eq_some_iff.1 hj
  exact hfresh (e.1, j) (List.mem_append_right _ List.mem_cons_self)

theorem declare_extends (m : Memory) (name : String) (l : Local) : m.bindings <+: (m.declare name l).bindings :=
  ⟨_, rfl⟩

theorem declare_opens (m : Memory) (name : String) (l : Local) : m.Opens (m.declare name l) [name] := by
  refine ⟨[(name, m.bindings.length)], rfl, rfl, fun e he => ?_⟩
  obtain rfl := List.mem_singleton.1 he
  exact Nat.le_refl _

theorem reserve_extends (m : Memory) (locals : List (String × Local)) :
    m.bindings <+: (m.reserve locals).bindings := by
  induction locals with
  | nil => exact List.prefix_rfl
  | cons e locals ih => exact ih.trans (declare_extends _ _ _)

theorem reserve_opens (m : Memory) (locals : List (String × Local)) :
    m.Opens (m.reserve locals) (locals.map (·.1)) := by
  induction locals with
  | nil => exact .of_visible rfl
  | cons e locals ih => exact ih.trans (declare_opens _ _ _) (.of_extends (m.reserve_extends locals))

theorem give_visible (m : Memory) (name : String) : (m.give name).visible = m.visible := by
  unfold give
  split <;> rfl

theorem give_closures (m : Memory) (name : String) : (m.give name).closures = m.closures := by
  unfold give
  split <;> rfl

/-- Giving a value counts one more for the local that the name means. -/
theorem give_getElem? (m : Memory) (name : String) (i : Nat) :
    (m.give name).bindings[i]? =
      (m.bindings[i]?).map fun b =>
        if m.visible.lookup name = some i then { b with given := b.given + 1 } else b := by
  unfold give
  split
  · rename_i j hj
    simp only [List.getElem?_modify, hj, Option.some.injEq]
    split <;> rfl
  · rename_i hnone
    simp [hnone]

theorem give_grows (m : Memory) (name : String) : m.Grows (m.give name) := fun i b hb => by
  rw [give_getElem?, hb]
  refine ⟨_, rfl, ?_⟩
  split <;> exact ⟨rfl, rfl⟩

end Memory

namespace Act.Way

variable {m m' : Memory} {acts : List Act} {g : Bool}

theorem grows (h : Way m acts m' g) : m.Grows m' := by
  induction h with
  | done => exact .of_bindings rfl
  | read _ ih | giveBack _ ih | unwrap _ ih | unwrapOther _ ih | evaluateBack _ ih | armBack _ _ ih => exact ih
  | assign _ ih => exact (Memory.give_grows _ _).trans ih
  | declare _ ih => exact (Memory.Grows.of_extends (Memory.declare_extends _ _ _)).trans ih
  | evaluate _ _ ihright ih => exact ihright.trans ih
  | skip _ ih => exact (Memory.Grows.of_extends (Memory.reserve_extends _ _)).trans ih
  | arm _ _ _ ihinside ih | apart _ _ ihinside ih | call _ _ _ ihinside ih => exact ihinside.trans ih
  | closure _ ih => exact ih

theorem opens (h : Way m acts m' g) (hg : g = true) : m.Opens m' ((declaredAll acts).map (·.1)) := by
  induction h with
  | done => exact .of_visible rfl
  | giveBack | unwrapOther | evaluateBack | armBack => cases hg
  | read _ ih | unwrap _ ih => simpa [declaredAll, declared] using ih hg
  | @assign m _ n _ _ _ _ ih =>
    have hstep : m.Opens (m.give n) [] := .of_visible (m.give_visible n)
    simpa [declaredAll, declared] using hstep.trans (ih hg) (m.give_grows n)
  | @declare m _ n l _ _ _ ih =>
    have hstep := (m.declare_opens n l).trans (ih hg) (.of_extends (m.declare_extends n l))
    simpa [declaredAll, declared] using hstep
  | evaluate hright _ ihright ih =>
    simpa [declaredAll, declared] using (ihright rfl).trans (ih hg) hright.grows
  | @skip m _ right _ _ _ ih =>
    have hstep := (m.reserve_opens (declaredAll right)).trans (ih hg) (.of_extends (m.reserve_extends _))
    simpa [declaredAll, declared] using hstep
  | @arm m m₁ _ _ _ _ _ _ hinside _ _ ih | @apart m m₁ _ _ _ _ _ hinside _ _ ih =>
    have hstep : m.Opens (m₁.seeing m.visible) [] := .of_visible rfl
    have hgrows : m.Grows (m₁.seeing m.visible) := hinside.grows
    simpa [declaredAll, declared] using hstep.trans (ih hg) hgrows
  | @closure m _ _ _ body _ _ _ ih =>
    have hstep : m.Opens (m.make body) [] := .of_visible rfl
    simpa [declaredAll, declared] using hstep.trans (ih hg) (.of_bindings rfl)
  | @call m m₁ _ _ _ _ _ _ _ hbody _ _ ih =>
    have hstep : m.Opens (m₁.seeing m.visible) [] := .of_visible rfl
    have hgrows : m.Grows (m₁.seeing m.visible) := hbody.grows
    simpa using hstep.trans (ih hg) hgrows

end Act.Way

/-! ### Memories and scopes -/

namespace Act

/-- If a local of some name is deferred, `D` holds, and if `D` holds, the name is balanced. -/
def Orderly (D : Prop) (defers balanced : Bool) : Prop := (defers = true → D) ∧ (D → balanced = true)

/-- If `D` holds and the name means a local from around the body, the acts give it no value. -/
def Confined (D : Prop) (n : String) (s : Scope) (acts : List Act) : Prop :=
  D → ∀ v, s.sight n = some v → v.frame ≠ 0 → ∀ u ∈ freeAll [] acts, u.name = n → u.assigned = false

/-- If `D` holds and a binding is the one that the name means in the body itself, then a way through the acts that
goes on gives it no value. -/
def Avoids (D : Prop) (n : String) (m : Memory) (s : Scope) (acts : List Act) (goesOn : Bool) (i : Nat) : Prop :=
  D → ∀ v, s.sight n = some v → v.frame = 0 → m.visible.lookup n = some i →
    goesOn = true ∧ givesAll n acts = false

theorem Orderly.cons {D : Prop} {a b c e : Bool} (h : Orderly D (a || b) (c && e)) : Orderly D a c ∧ Orderly D b e :=
  ⟨⟨fun ha => h.1 (by simp [ha]), fun hD => (Bool.and_eq_true_iff.1 (h.2 hD)).1⟩,
    ⟨fun hb => h.1 (by simp [hb]), fun hD => (Bool.and_eq_true_iff.1 (h.2 hD)).2⟩⟩

end Act

open Act (Orderly Confined Avoids declaredAll givesAll defersAll balancedAll)

namespace Memory

/-- The names mean bindings of these names. -/
def Names (bindings : List Binding) (visible : List (String × Nat)) : Prop :=
  ∀ e ∈ visible, ∃ b : Binding, bindings[e.2]? = some b ∧ b.name = e.1

/-- The name means the same local in the memory as in the scope. As long as drafting knows of no value of it and it is
immutable, `D` holds, and if it is a local of the body itself, it has none. -/
def Shows (m : Memory) (s : Scope) (n : String) (D : Prop) : Prop :=
  ∀ v, s.sight n = some v → ∃ (i : Nat) (b : Binding), m.visible.lookup n = some i ∧ m.bindings[i]? = some b ∧
    b.isMutable = v.binding.isMutable ∧
    (v.binding.isMutable = false → v.initialized = false → D ∧ (v.frame = 0 → b.given = 0))

/-- No immutable local of the name was given more than one value, and every closure was drafted in a scope that is
shown where it was made. -/
structure Sound (r : Records) (n : String) (D : Prop) (m : Memory) : Prop where
  visible : Names m.bindings m.visible
  around : ∀ f ∈ m.closures, Names m.bindings f.1
  once : ∀ b ∈ m.bindings, b.name = n → b.isMutable = false → b.given ≤ 1
  closures : ∀ f ∈ m.closures, ∃ (s : Scope) (returns : TypeVar) (s' : Scope), RunsAll r f.2 (s.begin returns) s' ∧
    Orderly D (defersAll n f.2) (balancedAll n f.2) ∧ Confined D n (s.begin returns) f.2 ∧
    (m.seeing f.1).Shows (s.begin returns) n D

/-- A way through acts leads from a memory that is sound and shows a scope to another one. -/
structure Advances (r : Records) (n : String) (D : Prop) (m : Memory) (s : Scope) (acts : List Act) (goesOn : Bool)
    (m' : Memory) (s' : Scope) : Prop where
  sound : m'.Sound r n D
  shows : goesOn = true → m'.Shows s' n D
  spared : ∀ (i : Nat) (b : Binding), m.bindings[i]? = some b → b.name = n → b.isMutable = false →
    Avoids D n m s acts goesOn i → m'.bindings[i]? = some b

variable {r : Records} {n : String} {D : Prop} {m m₁ m' : Memory} {s s₁ s' : Scope}

theorem Names.lookup {bindings : List Binding} {visible : List (String × Nat)} {i : Nat}
    (h : Names bindings visible) (hi : visible.lookup n = some i) :
    ∃ b : Binding, bindings[i]? = some b ∧ b.name = n := by
  obtain ⟨before, after, rfl, -⟩ := List.lookup_eq_some_iff.1 hi
  exact h (n, i) (List.mem_append_right _ List.mem_cons_self)

theorem Names.grows {visible : List (String × Nat)} (h : Names m.bindings visible) (hgrows : m.Grows m') :
    Names m'.bindings visible := fun e he => by
  obtain ⟨b, hb, hname⟩ := h e he
  obtain ⟨b', hb', hname', -⟩ := hgrows e.2 b hb
  exact ⟨b', hb', hname'.trans hname⟩

/-- What a scope shows is shown later on, if what it says has no value got none. -/
theorem Shows.later (h : m.Shows s n D) (hgrows : m.Grows m') (hvisible : m'.visible.lookup n = m.visible.lookup n)
    (hs : s.Carries s' n)
    (hkept : ∀ v i b, s'.sight n = some v → v.frame = 0 → v.binding.isMutable = false → v.initialized = false → D →
      m.visible.lookup n = some i → m.bindings[i]? = some b → b.isMutable = false → m'.bindings[i]? = some b) :
    m'.Shows s' n D := by
  intro v hv
  obtain ⟨w, hw, hframe, hmutable, hinitialized⟩ := hs v hv
  obtain ⟨i, b, hi, hb, hbmutable, hunset⟩ := h w hw
  obtain ⟨b', hb', -, hbmutable'⟩ := hgrows i b hb
  refine ⟨i, b', hvisible.trans hi, hb', (hbmutable'.trans hbmutable).trans hmutable.symm, fun hv₁ hv₂ => ?_⟩
  have hw₂ : w.initialized = false :=
    Bool.eq_false_iff.2 fun hset => Bool.false_ne_true (hv₂.symm.trans (hinitialized hset))
  obtain ⟨hD, hzero⟩ := hunset (hmutable ▸ hv₁) hw₂
  refine ⟨hD, fun hv₀ => ?_⟩
  have hkept' := hkept v i b hv hv₀ hv₁ hv₂ hD hi hb (hbmutable.trans (hmutable ▸ hv₁))
  obtain rfl : b = b' := Option.some.inj (hkept'.symm.trans hb')
  exact hzero (hframe ▸ hv₀)

/-- In a body in which nothing is declared yet, it does not matter which values were given. -/
theorem Shows.begin_grows {returns : TypeVar} (h : m.Shows (s.begin returns) n D) (hgrows : m.Grows m')
    (hvisible : m'.visible = m.visible) : m'.Shows (s.begin returns) n D :=
  h.later hgrows (by rw [hvisible]) (.of_stack rfl) fun v i b hv hframe => by
    rw [Scope.sight_begin] at hv
    obtain ⟨w, -, rfl⟩ := Option.map_eq_some_iff.1 hv
    cases hframe

theorem Shows.begin (h : m.Shows s n D) (returns : TypeVar) : m.Shows (s.begin returns) n D := by
  intro v hv
  rw [Scope.sight_begin] at hv
  obtain ⟨w, hw, rfl⟩ := Option.map_eq_some_iff.1 hv
  obtain ⟨i, b, hi, hb, hmutable, hunset⟩ := h w hw
  exact ⟨i, b, hi, hb, hmutable, fun h₁ h₂ => ⟨(hunset h₁ h₂).1, nofun⟩⟩

/-- No local is visible at the beginning of a procedure. -/
theorem shows_nil (m : Memory) (returns : TypeVar) : m.Shows (Scope.begin returns []) n D := by
  intro v hv
  rw [Scope.sight_begin] at hv
  cases hv

theorem Shows.enterBlock (h : m.Shows s n D) {b : Block} {bs : List Block} {rest : List (List Block)}
    (hs : stack s = (b :: bs) :: rest) : m.Shows (s.enterBlock .empty) n D := by
  intro v hv
  rw [Scope.sight_enterBlock hs] at hv
  obtain ⟨w, hw, rfl⟩ := Option.map_eq_some_iff.1 hv
  exact h w hw

theorem Sound.later (h : m.Sound r n D) (hgrows : m.Grows m') (hclosures : m'.closures = m.closures)
    (hvisible : Names m'.bindings m'.visible)
    (honce : ∀ b ∈ m'.bindings, b.name = n → b.isMutable = false → b.given ≤ 1) : m'.Sound r n D where
  visible := hvisible
  around f hf := (h.around f (hclosures ▸ hf)).grows hgrows
  once := honce
  closures f hf := by
    obtain ⟨s, returns, s', hruns, horderly, hconfined, hshows⟩ := h.closures f (hclosures ▸ hf)
    exact ⟨s, returns, s', hruns, horderly, hconfined, hshows.begin_grows hgrows rfl⟩

theorem Sound.seeing (h : m.Sound r n D) {visible : List (String × Nat)} (hvisible : Names m.bindings visible) :
    (m.seeing visible).Sound r n D :=
  ⟨hvisible, h.around, h.once, h.closures⟩

/-! ### Steps -/

variable {acts rest : List Act} {a : Act} {g : Bool} {b : Block} {bs : List Block} {below : List (List Block)}

theorem Advances.cons (h : m.Advances r n D s [a] true m₁ s₁) (h' : m₁.Advances r n D s₁ rest g m' s')
    (hopens : m.Opens m₁ ((Act.declared a).map (·.1))) (ha : Act.Runs r a s s₁) (hs : stack s = (b :: bs) :: below) :
    m.Advances r n D s (a :: rest) g m' s' where
  sound := h'.sound
  shows := h'.shows
  spared i bd hi hname hmutable havoids := by
    refine h'.spared i bd (h.spared i bd hi hname hmutable ?_) hname hmutable ?_
    · intro hD v hv hframe hlookup
      obtain ⟨-, hgives⟩ := havoids hD v hv hframe hlookup
      refine ⟨rfl, ?_⟩
      simp only [givesAll, Bool.or_eq_false_iff, Bool.and_false, Bool.or_false] at hgives ⊢
      exact hgives.1
    · intro hD v hv hframe hlookup
      -- The binding is an old one, so the act did not declare the name anew.
      have hnot : n ∉ (Act.declared a).map (·.1) := fun hmem =>
        Nat.not_lt.2 (hopens.length_le_of_lookup hmem hlookup) (List.getElem?_eq_some_iff.1 hi).1
      rw [hopens.lookup_eq hnot] at hlookup
      obtain ⟨b₁, hs₁, hb₁⟩ := Act.evolves_runs a ha hs
      obtain ⟨w, hw, hwframe, -⟩ := Scope.carries_evolves hs hs₁ hb₁ (Act.lookup_declared hnot) v hv
      obtain ⟨hg, hgives⟩ := havoids hD w hw (hwframe ▸ hframe) hlookup
      refine ⟨hg, ?_⟩
      simpa [givesAll, hnot] using (Bool.or_eq_false_iff.1 hgives).2

/-- A step on which nothing is declared or given a value. -/
theorem Advances.still (hsound : m₁.Sound r n D) (hshows : m.Shows s n D) (hs : s.Carries s₁ n)
    (hvisible : m₁.visible = m.visible) (hbindings : m₁.bindings = m.bindings) :
    m.Advances r n D s acts g m₁ s₁ :=
  ⟨hsound, fun _ => hshows.later (.of_bindings hbindings) (by rw [hvisible]) hs
      fun _ _ _ _ _ _ _ _ _ hb _ => hbindings ▸ hb,
    fun _ _ hb _ _ _ => hbindings ▸ hb⟩

/-- Giving a value changes no immutable local of the name, unless the name means it. -/
theorem give_kept (h : Names m.bindings m.visible) {x : String} {i : Nat} {bd : Binding}
    (hi : m.bindings[i]? = some bd) (hname : bd.name = n) (hnot : x = n → m.visible.lookup n ≠ some i) :
    (m.give x).bindings[i]? = some bd := by
  rw [give_getElem?, hi, Option.map_some, if_neg]
  intro hx
  obtain ⟨bx, hbx, hxname⟩ := h.lookup hx
  obtain rfl : bd = bx := Option.some.inj (hi.symm.trans hbx)
  obtain rfl : x = n := hxname.symm.trans hname
  exact hnot rfl hx

theorem mem_give {x : String} {bd : Binding} (h : bd ∈ (m.give x).bindings) :
    ∃ (j : Nat) (b₀ : Binding), m.bindings[j]? = some b₀ ∧ (m.give x).bindings[j]? = some bd ∧ bd.name = b₀.name ∧
      bd.isMutable = b₀.isMutable := by
  obtain ⟨j, hj⟩ := List.getElem?_of_mem h
  have hgiven := hj
  rw [give_getElem?] at hgiven
  obtain ⟨b₀, hb₀, heq⟩ := Option.map_eq_some_iff.1 hgiven
  refine ⟨j, b₀, hb₀, hj, ?_⟩
  split at heq <;> subst heq <;> exact ⟨rfl, rfl⟩

/-- Giving a value to a local that is mutable or has another name. -/
theorem give_advances_of_kept (h : m.Sound r n D) (hshows : m.Shows s n D) (hs : s.Carries s₁ n) {x : String}
    (hkept : ∀ (j : Nat) (bj : Binding), m.bindings[j]? = some bj → bj.name = n → bj.isMutable = false →
      (m.give x).bindings[j]? = some bj) : m.Advances r n D s acts true (m.give x) s₁ where
  sound := by
    refine h.later (m.give_grows x) (m.give_closures x) (m.give_visible x ▸ h.visible.grows (m.give_grows x)) ?_
    intro bd hbd hname hmutable
    obtain ⟨j, b₀, hb₀, hj, hname₀, hmutable₀⟩ := mem_give hbd
    obtain rfl := Option.some.inj ((hkept j b₀ hb₀ (hname₀ ▸ hname) (hmutable₀ ▸ hmutable)).symm.trans hj)
    exact h.once b₀ (List.mem_of_getElem? hb₀) hname hmutable
  shows _ := hshows.later (m.give_grows x) (by rw [give_visible]) hs fun v j bj _ _ _ _ _ hlookup hj hmutable => by
    obtain ⟨b₀, hb₀, hname⟩ := h.visible.lookup hlookup
    obtain rfl := Option.some.inj (hb₀.symm.trans hj)
    exact hkept j b₀ hj hname hmutable
  spared j bj hj hname hmutable _ := hkept j bj hj hname hmutable

/-- The first value of an immutable local of the body itself. -/
theorem give_advances_first (h : m.Sound r n D) (hs : s.Carries s₁ n) {v : Scope.Sighting} {i : Nat} {bd : Binding}
    {type : TypeVar} (hv : s.sight n = some v) (hframe : v.frame = 0) (hi : m.visible.lookup n = some i)
    (hbd : m.bindings[i]? = some bd) (hshows : m.Shows s n D) (hzero : bd.given = 0) (hD : D)
    (hknown : ∀ w, s₁.sight n = some w → w.initialized = true) :
    m.Advances r n D s [.assign n type] true (m.give n) s₁ where
  sound := by
    refine h.later (m.give_grows n) (m.give_closures n) (m.give_visible n ▸ h.visible.grows (m.give_grows n)) ?_
    intro b' hb' hname hmutable
    obtain ⟨j, b₀, hb₀, hj, hname₀, hmutable₀⟩ := mem_give hb'
    by_cases hij : i = j
    · subst hij
      obtain rfl := Option.some.inj (hbd.symm.trans hb₀)
      rw [give_getElem?, hbd, Option.map_some, if_pos hi] at hj
      obtain rfl := Option.some.inj hj
      simp [hzero]
    · have hkept := give_kept (x := n) h.visible hb₀ (hname₀ ▸ hname) fun _ heq =>
        hij (Option.some.inj (hi.symm.trans heq))
      obtain rfl := Option.some.inj (hkept.symm.trans hj)
      exact h.once b₀ (List.mem_of_getElem? hb₀) hname hmutable
  shows _ := hshows.later (m.give_grows n) (by rw [give_visible]) hs fun w _ _ hw _ _ hunset =>
    absurd (hknown w hw) (by simp [hunset])
  spared j bj hj hname _ havoids := by
    refine give_kept h.visible hj hname fun _ heq => ?_
    obtain ⟨-, hgives⟩ := havoids hD v hv hframe heq
    simp [givesAll, Act.gives] at hgives

theorem give_advances (h : m.Sound r n D) (hshows : m.Shows s n D) (hs : stack s = (b :: bs) :: below) {x : String}
    {type : TypeVar} (ha : Act.Runs r (.assign x type) s s₁) (hconfined : Confined D n s [.assign x type]) :
    m.Advances r n D s [.assign x type] true (m.give x) s₁ := by
  have hcarries : s.Carries s₁ n := by
    obtain ⟨b₁, hs₁, hb₁⟩ := Act.evolves_runs _ ha hs
    exact Scope.carries_evolves hs hs₁ hb₁ rfl
  obtain ⟨span, haccess⟩ := ha
  obtain ⟨v, hv, -, hassign, hs₁⟩ := Scope.access_stack hs haccess
  by_cases hx : x = n
  · subst hx
    obtain ⟨i, bd, hi, hbd, hmutable, hunset⟩ := hshows v hv
    cases hv₁ : v.binding.isMutable with
    | true =>
      refine give_advances_of_kept h hshows hcarries fun j bj hj hname himmutable => ?_
      refine give_kept h.visible hj hname fun _ hlookup => ?_
      obtain rfl : i = j := Option.some.inj (hi.symm.trans hlookup)
      obtain rfl : bd = bj := Option.some.inj (hbd.symm.trans hj)
      exact Bool.false_ne_true (himmutable.symm.trans (hmutable.trans hv₁))
    | false =>
      have hv₂ : v.initialized = false :=
        Bool.eq_false_iff.2 fun hset => Bool.false_ne_true (hv₁.symm.trans (hassign rfl hset))
      obtain ⟨hD, hzero⟩ := hunset hv₁ hv₂
      have hframe : v.frame = 0 := by
        refine Decidable.byContradiction fun hframe => ?_
        have hnot := hconfined hD v hv hframe ⟨x, type, true⟩ (by simp [Act.freeAll, Act.free]) rfl
        cases hnot
      refine give_advances_first h hcarries hv hframe hi hbd hshows (hzero hframe) hD fun w hw => ?_
      rw [hv₂, Bool.not_false, Bool.or_true, Bool.and_true, if_pos rfl] at hs₁
      exact Scope.initialized_of_knows hs₁ (b.knows_initialized x) hw
  · exact give_advances_of_kept h hshows hcarries fun j bj hj hname _ =>
      give_kept h.visible hj hname fun heq => absurd heq hx

/-! ### Declarations -/

theorem declare_sound (h : m.Sound r n D) (x : String) (l : Local) : (m.declare x l).Sound r n D := by
  refine h.later (.of_extends (m.declare_extends x l)) rfl ?_ ?_
  · refine List.forall_mem_cons.2 ⟨⟨_, List.getElem?_concat_length, rfl⟩, ?_⟩
    exact h.visible.grows (.of_extends (m.declare_extends x l))
  · intro bd hbd hname hmutable
    rcases List.mem_append.1 hbd with hold | hnew
    · exact h.once bd hold hname hmutable
    · obtain rfl := List.mem_singleton.1 hnew
      dsimp only
      split <;> omega

theorem reserve_sound (h : m.Sound r n D) (locals : List (String × Local)) : (m.reserve locals).Sound r n D := by
  induction locals with
  | nil => exact h
  | cons e locals ih => exact declare_sound ih e.1 _

theorem declare_lookup (m : Memory) (x : String) (l : Local) :
    (m.declare x l).visible.lookup x = some m.bindings.length ∧
      (m.declare x l).bindings[m.bindings.length]? = some ⟨x, l.isMutable, if l.initialized then 1 else 0⟩ :=
  ⟨by simp [declare], List.getElem?_concat_length⟩

theorem reserve_lookup {locals : List (String × Local)} {l : Local} (h : locals.lookup n = some l) (m : Memory) :
    ∃ i, (m.reserve locals).visible.lookup n = some i ∧
      (m.reserve locals).bindings[i]? = some ⟨n, l.isMutable, 0⟩ := by
  induction locals with
  | nil => cases h
  | cons e locals ih =>
    obtain ⟨x, l'⟩ := e
    by_cases hx : n = x
    · subst hx
      obtain rfl : l' = l := by simpa [List.lookup_cons] using h
      exact ⟨_, declare_lookup (m.reserve locals) n { l' with initialized := false }⟩
    · have hne : (n == x) = false := beq_eq_false_iff_ne.2 hx
      rw [List.lookup_cons, hne] at h
      obtain ⟨i, hi, hb⟩ := ih h
      refine ⟨i, ?_, ?_⟩
      · rw [reserve, List.foldr_cons, declare, List.lookup_cons, hne]
        exact hi
      · exact List.getElem?_append_left (List.getElem?_eq_some_iff.1 hb).1 ▸ hb

theorem Advances.opens (hsound : m₁.Sound r n D) (hshows : m.Shows s n D) (hs : stack s = (b :: bs) :: below)
    (ha : Act.Runs r a s s₁) (hgrown : m.bindings <+: m₁.bindings) (hopens : m.Opens m₁ ((Act.declared a).map (·.1)))
    (hnew : ∀ l, (Act.declared a).lookup n = some l → ∃ (i : Nat) (bd : Binding), m₁.visible.lookup n = some i ∧
      m₁.bindings[i]? = some bd ∧ bd.isMutable = l.isMutable ∧
      (l.isMutable = false → l.initialized = false → D ∧ bd.given = 0)) :
    m.Advances r n D s [a] true m₁ s₁ := by
  have hkept (i : Nat) (bd : Binding) (hi : m.bindings[i]? = some bd) : m₁.bindings[i]? = some bd := by
    obtain ⟨more, hmore⟩ := hgrown
    exact hmore ▸ List.getElem?_append_left (List.getElem?_eq_some_iff.1 hi).1 ▸ hi
  refine ⟨hsound, fun _ => ?_, fun i bd hi _ _ _ => hkept i bd hi⟩
  obtain ⟨b₁, hs₁, hb₁⟩ := Act.evolves_runs a ha hs
  cases hl : (Act.declared a).lookup n with
  | none =>
    have hnot : n ∉ (Act.declared a).map (·.1) := by
      intro hmem
      obtain ⟨e, he, rfl⟩ := List.mem_map.1 hmem
      simpa using List.lookup_eq_none_iff.1 hl e he
    exact hshows.later (.of_extends hgrown) (hopens.lookup_eq hnot) (Scope.carries_evolves hs hs₁ hb₁ hl)
      fun _ i bd _ _ _ _ _ _ hi _ => hkept i bd hi
  | some l =>
    intro v hv
    obtain ⟨hframe, hmutable, hinitialized⟩ := Scope.sight_declared hs₁ hb₁ hl hv
    obtain ⟨i, bd, hi, hbd, hbmutable, hunset⟩ := hnew l hl
    refine ⟨i, bd, hi, hbd, hbmutable.trans hmutable.symm, fun hv₁ hv₂ => ?_⟩
    have hl₂ : l.initialized = false :=
      Bool.eq_false_iff.2 fun hset => Bool.false_ne_true (hv₂.symm.trans (hinitialized hset))
    exact (hunset (hmutable ▸ hv₁) hl₂).imp_right fun hzero _ => hzero

theorem declare_advances (h : m.Sound r n D) (hshows : m.Shows s n D) (hs : stack s = (b :: bs) :: below) {x : String}
    {l : Local} (ha : Act.Runs r (.declare x l) s s₁) (hdefers : Act.defers n (.declare x l) = true → D) :
    m.Advances r n D s [.declare x l] true (m.declare x l) s₁ := by
  refine .opens (declare_sound h x l) hshows hs ha (m.declare_extends x l) (m.declare_opens x l) fun l' hl' => ?_
  obtain ⟨rfl, rfl⟩ : n = x ∧ l' = l := by
    by_cases hx : n = x
    · subst hx
      exact ⟨rfl, by simpa [Act.declared, List.lookup_cons] using hl'.symm⟩
    · simp [Act.declared, List.lookup_cons, beq_eq_false_iff_ne.2 hx] at hl'
  obtain ⟨hi, hbd⟩ := declare_lookup m n l'
  refine ⟨_, _, hi, hbd, rfl, fun hmutable hunset => ⟨hdefers ?_, by simp [hunset]⟩⟩
  simp [Act.defers, hmutable, hunset]

theorem reserve_advances (h : m.Sound r n D) (hshows : m.Shows s n D) (hs : stack s = (b :: bs) :: below)
    {right : List Act} (ha : Act.Runs r (.perhaps right) s s₁) (hdefers : defersAll n right = true → D) :
    m.Advances r n D s [.perhaps right] true (m.reserve (declaredAll right)) s₁ := by
  refine .opens (reserve_sound h _) hshows hs ha (m.reserve_extends _) (m.reserve_opens _) fun l hl => ?_
  obtain ⟨i, hi, hbd⟩ := reserve_lookup hl m
  refine ⟨i, _, hi, hbd, rfl, fun hmutable hunset => ⟨hdefers ?_, rfl⟩⟩
  obtain ⟨before, after, heq, -⟩ := List.lookup_eq_some_iff.1 hl
  have hmem : (n, l) ∈ Act.declared (.perhaps right) := heq ▸ List.mem_append_right _ List.mem_cons_self
  exact Act.defersAll_of_mem_declaredAll hmutable hunset right hmem

/-! ### Arms, closures and constants -/

theorem make_sound (h : m.Sound r n D) (hshows : m.Shows s n D) {returns : TypeVar} {body : List Act} {s' : Scope}
    (hbody : RunsAll r body (s.begin returns) s') (horderly : Orderly D (defersAll n body) (balancedAll n body))
    (hconfined : Confined D n (s.begin returns) body) : (m.make body).Sound r n D where
  visible := h.visible
  around := List.forall_mem_cons.2 ⟨h.visible, h.around⟩
  once := h.once
  closures := List.forall_mem_cons.2
    ⟨⟨s, returns, s', hbody, horderly, hconfined, hshows.begin returns⟩, h.closures⟩

/-- A way where nothing of the body itself is visible changes no immutable local of the name, and the body goes on
where it was. -/
theorem Advances.aside {visible : List (String × Nat)} {inside s₂ : Scope}
    (h : (m.seeing visible).Advances r n D inside acts g m₁ s₂) (hinside : ∀ v, inside.sight n = some v → v.frame ≠ 0)
    (hnames : Names m.bindings m.visible) (hshows : m.Shows s n D) (hgrows : m.Grows m₁) :
    (m₁.seeing m.visible).Sound r n D ∧ (m₁.seeing m.visible).Shows s n D ∧
      ∀ (i : Nat) (bd : Binding), m.bindings[i]? = some bd → bd.name = n → bd.isMutable = false →
        m₁.bindings[i]? = some bd := by
  have hkept (i : Nat) (bd : Binding) (hi : m.bindings[i]? = some bd) (hname : bd.name = n)
      (hmutable : bd.isMutable = false) : m₁.bindings[i]? = some bd :=
    h.spared i bd hi hname hmutable fun _ v hv hframe => absurd hframe (hinside v hv)
  refine ⟨h.sound.seeing (hnames.grows hgrows), ?_, hkept⟩
  refine hshows.later hgrows rfl (.of_stack rfl) fun v i bd _ _ _ _ _ hlookup hi hmutable => ?_
  obtain ⟨b₀, hb₀, hname⟩ := hnames.lookup hlookup
  obtain rfl := Option.some.inj (hb₀.symm.trans hi)
  exact hkept i b₀ hi hname hmutable

theorem arm_advances {arms : List (List Act)} {arm : List Act} {inside s₂ : Scope} (h : m.Sound r n D)
    (hshows : m.Shows s n D) (hs : stack s = (b :: bs) :: below) (ha : Act.Runs r (.branch arms) s s₁)
    (hbalanced : D → Act.balanced n (.branch arms) = true) (hmem : arm ∈ arms) (hway : Way m arm m₁ true)
    (hinside : stack inside = (b :: bs) :: below) (harm : m.Advances r n D (inside.enterBlock .empty) arm true m₁ s₂) :
    m.Advances r n D s [.branch arms] true (m₁.seeing m.visible) s₁ := by
  have havoids {i : Nat} (hgives : D → ∀ v, s.sight n = some v → v.frame = 0 → m.visible.lookup n = some i →
      Act.gives n (.branch arms) = false) : Avoids D n m (inside.enterBlock .empty) arm true i := by
    intro hD v hv hframe hlookup
    rw [Scope.sight_enterBlock hinside, Scope.sight_congr (hinside.trans hs.symm)] at hv
    obtain ⟨w, hw, rfl⟩ := Option.map_eq_some_iff.1 hv
    obtain ⟨hagree, harms⟩ := Bool.and_eq_true_iff.1 (hbalanced hD)
    have hsteady : Act.steadyAll arm = true :=
      Act.steadyArms_iff.1 (Act.steadyArms_of_balancedArms arms harms) arm hmem
    exact ⟨rfl, Act.gives_arm hagree hmem (hway.goesOn rfl hsteady) (hgives hD w hw hframe hlookup)⟩
  have hcarries : s.Carries s₁ n := by
    obtain ⟨b₁, hs₁, hb₁⟩ := Act.evolves_runs _ ha hs
    exact Scope.carries_evolves hs hs₁ hb₁ rfl
  refine ⟨harm.sound.seeing (h.visible.grows hway.grows), fun _ => ?_, fun i bd hi hname hmutable hspared => ?_⟩
  · refine hshows.later hway.grows rfl hcarries fun v i bd hv _ himmutable hunset _ hlookup hi hmutable => ?_
    obtain ⟨b₀, hb₀, hname⟩ := h.visible.lookup hlookup
    obtain rfl := Option.some.inj (hb₀.symm.trans hi)
    refine harm.spared i b₀ hi hname hmutable (havoids fun _ w hw _ _ => ?_)
    -- Otherwise drafting would know of a value after the branch.
    obtain ⟨w', hw', -, hwmutable, -⟩ := hcarries v hv
    obtain rfl := Option.some.inj (hw'.symm.trans hw)
    refine Bool.eq_false_iff.2 fun hgives => ?_
    have hset := Act.knows_branch ha hs hw' (hwmutable ▸ himmutable) hgives hv
    exact Bool.false_ne_true (hunset.symm.trans hset)
  · refine harm.spared i bd hi hname hmutable (havoids fun hD v hv hframe hlookup => ?_)
    simpa [givesAll] using (hspared hD v hv hframe hlookup).2

end Memory

/-! ### Ways -/

namespace Act

variable {r : Records} {n : String} {D : Prop} {s s₁ : Scope} {a : Act} {acts rest : List Act} {b : Block}
  {bs : List Block} {below : List (List Block)}

theorem Orderly.of_mem {arms : List (List Act)} {arm : List Act}
    (h : Orderly D (defersArms n arms) (balancedArms n arms)) (hmem : arm ∈ arms) :
    Orderly D (defersAll n arm) (balancedAll n arm) := by
  induction arms with
  | nil => cases hmem
  | cons first arms ih =>
    obtain ⟨hfirst, harms⟩ := h.cons
    rcases List.mem_cons.1 hmem with rfl | hmem
    · exact hfirst
    · exact ih harms hmem

theorem freeAll_subset_freeArms {arms : List (List Act)} {arm : List Act} (hmem : arm ∈ arms) :
    freeAll [] arm ⊆ freeArms [] arms := by
  induction arms with
  | nil => cases hmem
  | cons first arms ih =>
    intro u hu
    rw [freeArms, List.mem_append]
    rcases List.mem_cons.1 hmem with rfl | hmem
    · exact .inl hu
    · exact .inr (ih hmem hu)

theorem Confined.cons (h : Confined D n s (a :: rest)) (ha : Runs r a s s₁) (hs : stack s = (b :: bs) :: below) :
    Confined D n s [a] ∧ Confined D n s₁ rest := by
  constructor
  · intro hD v hv hframe u hu
    rw [freeAll, freeAll, List.append_nil] at hu
    exact h hD v hv hframe u (List.mem_append_left _ hu)
  · intro hD v hv hframe u hu hname
    obtain ⟨b₁, hs₁, hb₁⟩ := evolves_runs a ha hs
    cases hl : (declared a).lookup n with
    | some l => exact absurd (Scope.sight_declared hs₁ hb₁ hl hv).1 hframe
    | none =>
      obtain ⟨w, hw, heq, -⟩ := Scope.carries_evolves hs hs₁ hb₁ hl v hv
      refine h hD w hw (heq ▸ hframe) u (List.mem_append_right _ ?_) hname
      rw [List.append_nil, ← List.append_nil ((declared a).map _), mem_freeAll_append]
      refine ⟨hu, fun hmem => ?_⟩
      obtain ⟨e, he, heq⟩ := List.mem_map.1 hmem
      simpa [heq.trans hname] using List.lookup_eq_none_iff.1 hl e he

/-- The beginning of a way through acts that were drafted: a memory that is sound and shows the scope in which they
were. -/
structure Starts (r : Records) (n : String) (D : Prop) (m : Memory) (s : Scope) (acts : List Act) : Prop where
  inside : ∃ b bs below, stack s = (b :: bs) :: below
  orderly : Orderly D (defersAll n acts) (balancedAll n acts)
  confined : Confined D n s acts
  sound : m.Sound r n D
  shows : m.Shows s n D

variable {m m₁ m' : Memory} {s' : Scope} {g : Bool}

theorem Starts.cons (h : Starts r n D m s (a :: rest)) (ha : Runs r a s s₁)
    (hopens : m.Opens m₁ ((declared a).map (·.1))) (hstep : m.Advances r n D s [a] true m₁ s₁)
    (hrest : Starts r n D m₁ s₁ rest → m₁.Advances r n D s₁ rest g m' s') :
    m.Advances r n D s (a :: rest) g m' s' := by
  obtain ⟨b, bs, below, hs⟩ := h.inside
  obtain ⟨b₁, hs₁, -⟩ := evolves_runs a ha hs
  exact hstep.cons (hrest ⟨⟨_, _, _, hs₁⟩, h.orderly.cons.2, (h.confined.cons ha hs).2, hstep.sound, hstep.shows rfl⟩)
    hopens ha hs

/-- A step on which nothing is declared or given a value. -/
theorem Starts.still (h : Starts r n D m s (a :: rest)) (ha : Runs r a s s₁) (hdeclared : declared a = [])
    (hsound : m₁.Sound r n D) (hvisible : m₁.visible = m.visible) (hbindings : m₁.bindings = m.bindings) :
    m.Advances r n D s [a] true m₁ s₁ := by
  obtain ⟨b, bs, below, hs⟩ := h.inside
  obtain ⟨b₁, hs₁, hb₁⟩ := evolves_runs a ha hs
  rw [hdeclared] at hb₁
  exact .still hsound h.shows (Scope.carries_evolves hs hs₁ hb₁ rfl) hvisible hbindings

theorem Starts.ended (h : Starts r n D m s (a :: rest))
    (hafter : Starts r n D m s [] → m.Advances r n D s [] true m' s) : m.Advances r n D s (a :: rest) false m' s' := by
  have hnil : Starts r n D m s [] :=
    ⟨h.inside, ⟨nofun, fun _ => rfl⟩, fun _ _ _ _ _ hu => (nomatch hu), h.sound, h.shows⟩
  obtain ⟨hsound, -, hspared⟩ := hafter hnil
  exact ⟨hsound, nofun, fun i bd hi hname hmutable _ => hspared i bd hi hname hmutable fun _ _ _ _ _ => ⟨rfl, rfl⟩⟩

theorem Starts.right {right : List Act} (h : Starts r n D m s (.perhaps right :: rest)) :
    Starts r n D m s right := by
  obtain ⟨hdefers, hbalanced⟩ := h.orderly.cons.1
  refine ⟨h.inside, ⟨hdefers, fun hD => (Bool.and_eq_true_iff.1 (hbalanced hD)).2⟩, ?_, h.sound, h.shows⟩
  exact fun hD v hv hframe u hu => h.confined hD v hv hframe u (List.mem_append_left _ hu)

theorem Starts.arm {arms : List (List Act)} {arm : List Act} (h : Starts r n D m s (.branch arms :: rest))
    (hmem : arm ∈ arms) (hs : stack s₁ = stack s) : Starts r n D m (s₁.enterBlock .empty) arm := by
  obtain ⟨b, bs, below, hstack⟩ := h.inside
  have hinside : stack s₁ = (b :: bs) :: below := hs.trans hstack
  obtain ⟨hdefers, hbalanced⟩ := h.orderly.cons.1
  have hall : Orderly D (defersArms n arms) (balancedArms n arms) :=
    ⟨hdefers, fun hD => (Bool.and_eq_true_iff.1 (hbalanced hD)).2⟩
  have hshows : m.Shows s₁ n D := fun v hv => h.shows v (Scope.sight_congr hs ▸ hv)
  refine ⟨⟨_, _, _, Scope.stack_enterBlock hinside _⟩, hall.of_mem hmem, ?_, h.sound, hshows.enterBlock hinside⟩
  intro hD v hv hframe u hu
  rw [Scope.sight_enterBlock hinside, Scope.sight_congr hs] at hv
  obtain ⟨w, hw, rfl⟩ := Option.map_eq_some_iff.1 hv
  exact h.confined hD w hw hframe u (List.mem_append_left _ (freeAll_subset_freeArms hmem hu))

theorem Way.advances (h : Way m acts m' g) :
    ∀ {s s' : Scope}, Starts r n D m s acts → RunsAll r acts s s' → m.Advances r n D s acts g m' s' := by
  induction h with
  | done =>
    rintro s s' hstart hruns
    rw [RunsAll] at hruns
    exact .still hstart.sound hstart.shows (.of_stack (hruns ▸ rfl)) rfl rfl
  | read _ ih | unwrap _ ih =>
    rintro s s' hstart ⟨s₁, ha, hrest⟩
    exact hstart.cons ha (.of_visible rfl) (hstart.still ha rfl hstart.sound rfl rfl) fun hstart' => ih hstart' hrest
  | assign _ ih =>
    rintro s s' hstart ⟨s₁, ha, hrest⟩
    obtain ⟨b, bs, below, hs⟩ := hstart.inside
    exact hstart.cons ha (.of_visible (Memory.give_visible _ _))
      (Memory.give_advances hstart.sound hstart.shows hs ha (hstart.confined.cons ha hs).1)
      fun hstart' => ih hstart' hrest
  | declare _ ih =>
    rintro s s' hstart ⟨s₁, ha, hrest⟩
    obtain ⟨b, bs, below, hs⟩ := hstart.inside
    exact hstart.cons ha (Memory.declare_opens _ _ _)
      (Memory.declare_advances hstart.sound hstart.shows hs ha hstart.orderly.cons.1.1)
      fun hstart' => ih hstart' hrest
  | giveBack _ ih | unwrapOther _ ih =>
    rintro s s' hstart -
    exact hstart.ended fun hnil => ih hnil rfl
  | evaluate hright _ ihright ih =>
    rintro s s' hstart ⟨s₁, ha, hrest⟩
    obtain ⟨hsound, hshows, hspared⟩ := ihright hstart.right ha
    refine hstart.cons ha (hright.opens rfl) ⟨hsound, hshows, fun i bd hi hname hmutable havoids => ?_⟩
      fun hstart' => ih hstart' hrest
    refine hspared i bd hi hname hmutable fun hD v hv hframe hlookup => ?_
    simpa [givesAll, gives] using havoids hD v hv hframe hlookup
  | evaluateBack _ ihright =>
    rintro s s' hstart ⟨s₁, ha, -⟩
    obtain ⟨hsound, -, hspared⟩ := ihright hstart.right ha
    refine ⟨hsound, nofun, fun i bd hi hname hmutable havoids => ?_⟩
    refine hspared i bd hi hname hmutable fun hD v hv hframe hlookup => ?_
    exact absurd (havoids hD v hv hframe hlookup).1 Bool.false_ne_true
  | skip _ ih =>
    rintro s s' hstart ⟨s₁, ha, hrest⟩
    obtain ⟨b, bs, below, hs⟩ := hstart.inside
    exact hstart.cons ha (Memory.reserve_opens _ _)
      (Memory.reserve_advances hstart.sound hstart.shows hs ha hstart.orderly.cons.1.1)
      fun hstart' => ih hstart' hrest
  | arm hmem harm _ iharm ih =>
    rintro s s' hstart ⟨s₁, ha, hrest⟩
    obtain ⟨b, bs, below, hs⟩ := hstart.inside
    obtain ⟨s₂, blocks, harms, -⟩ := id ha
    obtain ⟨inside, s₃, hinside, hruns⟩ := runsArms_mem harms hs hmem
    have hadvances := iharm (hstart.arm hmem (hinside.trans hs.symm)) hruns
    have hstep :=
      Memory.arm_advances hstart.sound hstart.shows hs ha hstart.orderly.cons.1.2 hmem harm hinside hadvances
    refine hstart.cons ha ?_ hstep fun hstart' => ih hstart' hrest
    exact .of_visible rfl
  | armBack hmem _ iharm =>
    rintro s s' hstart ⟨s₁, ⟨s₂, blocks, harms, -⟩, -⟩
    obtain ⟨b, bs, below, hs⟩ := hstart.inside
    obtain ⟨inside, s₃, hinside, hruns⟩ := runsArms_mem harms hs hmem
    obtain ⟨hsound, -, hspared⟩ := iharm (hstart.arm hmem (hinside.trans hs.symm)) hruns
    refine ⟨hsound, nofun, fun i bd hi hname hmutable havoids => ?_⟩
    refine hspared i bd hi hname hmutable fun hD v hv hframe hlookup => ?_
    rw [Scope.sight_enterBlock hinside, Scope.sight_congr (hinside.trans hs.symm)] at hv
    obtain ⟨w, hw, rfl⟩ := Option.map_eq_some_iff.1 hv
    exact absurd (havoids hD w hw hframe hlookup).1 Bool.false_ne_true
  | @closure m _ returns _ body _ _ _ ih =>
    rintro s s' hstart ⟨s₁, ha, hrest⟩
    obtain ⟨f, hbody, -⟩ := id ha
    obtain ⟨hdefers, hbalanced⟩ := hstart.orderly.cons.1
    have hconfined : Confined D n (s.begin returns) body := fun hD _ _ _ u hu hname => by
      have hall := List.all_eq_true.1 (Bool.and_eq_true_iff.1 (hbalanced hD)).1 u hu
      simpa [hname] using hall
    have hmade : (m.make body).Sound r n D := Memory.make_sound hstart.sound hstart.shows hbody
      ⟨hdefers, fun hD => (Bool.and_eq_true_iff.1 (hbalanced hD)).2⟩ hconfined
    refine hstart.cons ha ?_ (hstart.still ha rfl hmade rfl rfl) fun hstart' => ih hstart' hrest
    exact .of_visible rfl
  | @apart m m₁ _ inside _ _ _ hinside _ ihinside ih =>
    rintro s s' hstart ⟨s₁, ha, hrest⟩
    obtain ⟨rfl, returns, s₂, hruns⟩ := id ha
    have hnone : ∀ v, (Scope.begin returns []).sight n = some v → False := fun v hv => by
      rw [Scope.sight_begin] at hv
      cases hv
    have hadvances := ihinside ⟨⟨_, _, _, rfl⟩, hstart.orderly.cons.1, fun _ v hv => (hnone v hv).elim,
      hstart.sound.seeing nofun, Memory.shows_nil _ _⟩ hruns
    obtain ⟨hsound, hshows, hspared⟩ := hadvances.aside (fun v hv => (hnone v hv).elim) hstart.sound.visible
      hstart.shows hinside.grows
    have hstep : m.Advances r n D s₁ [.apart inside] true (m₁.seeing m.visible) s₁ :=
      ⟨hsound, fun _ => hshows, fun i bd hi hname hmutable _ => hspared i bd hi hname hmutable⟩
    refine hstart.cons ha ?_ hstep fun hstart' => ih hstart' hrest
    exact .of_visible rfl
  | call hmem hbody _ ihbody ih =>
    rintro s s' hstart hruns
    obtain ⟨around, returns, s₂, hbodyRuns, horderly, hconfined, hshowsBody⟩ := hstart.sound.closures _ hmem
    have hadvances := ihbody ⟨⟨_, _, _, rfl⟩, horderly, hconfined,
      hstart.sound.seeing (hstart.sound.around _ hmem), hshowsBody⟩ hbodyRuns
    have houtside : ∀ v, (around.begin returns).sight n = some v → v.frame ≠ 0 := fun v hv => by
      rw [Scope.sight_begin] at hv
      obtain ⟨w, -, rfl⟩ := Option.map_eq_some_iff.1 hv
      nofun
    obtain ⟨hsound, hshows, hspared⟩ := hadvances.aside houtside hstart.sound.visible hstart.shows hbody.grows
    obtain ⟨hsound', hshows', hspared'⟩ :=
      ih ⟨hstart.inside, hstart.orderly, hstart.confined, hsound, hshows⟩ hruns
    exact ⟨hsound', hshows', fun i bd hi hname hmutable havoids =>
      hspared' i bd (hspared i bd hi hname hmutable) hname hmutable havoids⟩

end Act

/-- **Immutable locals get at most one value.** Along every way through the body of a procedure that was drafted,
whatever closures run on it and after it, every immutable local is given a value at most once, if its name is balanced
or never declared without a value. -/
theorem Draft.givenOnce {context : DraftContext} {params : List String} {body : List (Expr Unit)} {span : Span}
    {g g' : TypeGraph} {d : Draft} {m : Memory} {goesOn : Bool} {b : Binding}
    (h : Draft.ofProcedure context params body span g = (.ok d, g'))
    (hway : Way .empty (Act.ofBody params d.args d.body) m goesOn) (hmem : b ∈ m.bindings)
    (himmutable : b.isMutable = false)
    (hbalanced : defersAll b.name (Act.ofBody params d.args d.body) = true →
      balancedAll b.name (Act.ofBody params d.args d.body) = true) : b.given ≤ 1 := by
  obtain ⟨f, hruns, -⟩ := Draft.ofProcedure_runs h
  have hstart : Act.Starts d.records b.name (defersAll b.name (Act.ofBody params d.args d.body) = true) .empty
      (Scope.begin d.returns []) (Act.ofBody params d.args d.body) := by
    refine ⟨⟨_, _, _, rfl⟩, ⟨id, hbalanced⟩, fun _ v hv => ?_, ⟨nofun, nofun, nofun, nofun⟩, Memory.shows_nil _ _⟩
    rw [Scope.sight_begin] at hv
    cases hv
  exact (hway.advances hstart hruns).sound.once b hmem rfl himmutable

/-- An immutable `x` that is declared without a value gets one in both arms. -/
def givingInArms : List (Expr Unit) :=
  let m : Mark Unit := ⟨.none, ()⟩
  let assign (value : Int64) : Expr Unit := .assign m (.name m (.single "x")) (.literal m (.integer value))
  [.declare m "x" false, .ifElse m (.name m (.single "c")) [assign 1] [assign 2], .giveBack m (.name m (.single "x"))]

/-- On the way through the second arm it gets a value, and no other one. -/
theorem Draft.givenOnce_arms : ∃ d m goesOn, Draft.alone ["c"] givingInArms = .ok d ∧
    Way .empty (Act.ofBody ["c"] d.args d.body) m goesOn ∧ ⟨"x", false, 1⟩ ∈ m.bindings ∧
    defersAll "x" (Act.ofBody ["c"] d.args d.body) = true ∧ balancedAll "x" (Act.ofBody ["c"] d.args d.body) = true ∧
    (⟨"x", false, 1⟩ : Binding).given ≤ 1 := by
  have hdraft : (Draft.alone ["c"] givingInArms).toOption.map (fun d => Act.ofBody ["c"] d.args d.body) =
      some [.declare "c" ⟨⟨0⟩, true, false⟩, .declare "x" ⟨⟨2⟩, false, false⟩, .read "c" ⟨0⟩,
        .branch [[.assign "x" ⟨2⟩], [.assign "x" ⟨2⟩]], .read "x" ⟨2⟩, .giveBack] := by
    cbv
  obtain ⟨d, hd, hacts⟩ := Outcome.ok_of_toOption_map hdraft
  have hway : Way .empty (Act.ofBody ["c"] d.args d.body)
      ⟨[("x", 1), ("c", 0)], [⟨"c", false, 1⟩, ⟨"x", false, 1⟩], []⟩ false := by
    rw [hacts]
    exact .declare (.declare (.read (.arm (List.mem_cons_of_mem _ List.mem_cons_self) (.assign .done)
      (.read (.giveBack .done)))))
  have hbalanced : balancedAll "x" (Act.ofBody ["c"] d.args d.body) = true := by
    rw [hacts]
    cbv
  have hdefers : defersAll "x" (Act.ofBody ["c"] d.args d.body) = true := by
    rw [hacts]
    cbv
  have hmem : (⟨"x", false, 1⟩ : Binding) ∈ [⟨"c", false, 1⟩, ⟨"x", false, 1⟩] :=
    List.mem_cons_of_mem _ List.mem_cons_self
  obtain ⟨_, hprocedure⟩ := Draft.alone_ok hd
  exact ⟨d, _, _, hd, hway, hmem, hdefers, hbalanced, Draft.givenOnce hprocedure hway hmem rfl fun _ => hbalanced⟩

/-- Only one arm gives `x` a value, and after the branch it is given one again. -/
def givingAgain : List (Expr Unit) :=
  let m : Mark Unit := ⟨.none, ()⟩
  let assign (value : Int64) : Expr Unit := .assign m (.name m (.single "x")) (.literal m (.integer value))
  [.declare m "x" false, .ifElse m (.name m (.single "c")) [assign 1] [], assign 2,
    .giveBack m (.name m (.single "x"))]

/-- On the way through that arm, `x` gets two values although it is immutable. -/
theorem Draft.givenOnce_fails : ∃ d m goesOn, Draft.alone ["c"] givingAgain = .ok d ∧
    Way .empty (Act.ofBody ["c"] d.args d.body) m goesOn ∧ ⟨"x", false, 2⟩ ∈ m.bindings := by
  have hdraft : (Draft.alone ["c"] givingAgain).toOption.map (fun d => Act.ofBody ["c"] d.args d.body) =
      some [.declare "c" ⟨⟨0⟩, true, false⟩, .declare "x" ⟨⟨2⟩, false, false⟩, .read "c" ⟨0⟩,
        .branch [[.assign "x" ⟨2⟩], []], .assign "x" ⟨2⟩, .read "x" ⟨2⟩, .giveBack] := by
    cbv
  obtain ⟨d, hd, hacts⟩ := Outcome.ok_of_toOption_map hdraft
  have hway : Way .empty (Act.ofBody ["c"] d.args d.body)
      ⟨[("x", 1), ("c", 0)], [⟨"c", false, 1⟩, ⟨"x", false, 2⟩], []⟩ false := by
    rw [hacts]
    exact .declare (.declare (.read (.arm List.mem_cons_self (.assign .done)
      (.assign (.read (.giveBack .done))))))
  exact ⟨d, _, _, hd, hway, List.mem_cons_of_mem _ List.mem_cons_self⟩

end Monomorph
