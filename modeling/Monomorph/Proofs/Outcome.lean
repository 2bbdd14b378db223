/-! # Computations that keep their state on failure

When a computation made of parts ends, and how; and which relations between states hold over it whether it
succeeds or fails (`Keeps`). -/

namespace Monomorph.Outcome

variable {ε σ α β : Type} {x : EStateM ε σ α} {f : α → EStateM ε σ β} {s s' : σ}

theorem ok_eq_ok_iff {a b : α} :
    (.ok a s : EStateM.Result ε σ α) = .ok b s' ↔ a = b ∧ s = s' := by
  rw [EStateM.Result.ok.injEq]

theorem bind_eq_ok_iff {b : β} :
    (x >>= f) s = .ok b s' ↔ ∃ a s₁, x s = .ok a s₁ ∧ f a s₁ = .ok b s' := by
  change EStateM.bind x f s = _ ↔ _
  unfold EStateM.bind
  cases x s with
  | ok a s₁ =>
    constructor
    · exact fun h => ⟨a, s₁, rfl, h⟩
    · rintro ⟨_, _, ⟨⟩, h⟩
      exact h
  | error e s₁ => simp

theorem bind_eq_error_iff {e : ε} :
    (x >>= f) s = .error e s' ↔
      x s = .error e s' ∨ ∃ a s₁, x s = .ok a s₁ ∧ f a s₁ = .error e s' := by
  change EStateM.bind x f s = _ ↔ _
  unfold EStateM.bind
  cases x s with
  | ok a s₁ =>
    constructor
    · exact fun h => .inr ⟨a, s₁, rfl, h⟩
    · rintro (h | ⟨_, _, ⟨⟩, h⟩)
      · cases h
      · exact h
  | error e s₁ => simp

theorem bind_of_ok {a : α} (h : x s = .ok a s') : (x >>= f) s = f a s' := by
  change EStateM.bind x f s = _
  rw [EStateM.bind, h]

theorem bind_of_error {e : ε} (h : x s = .error e s') : (x >>= f) s = .error e s' := by
  change EStateM.bind x f s = _
  rw [EStateM.bind, h]

theorem pure_eq_ok_iff {a b : α} :
    (pure a : EStateM ε σ α) s = .ok b s' ↔ a = b ∧ s = s' :=
  ok_eq_ok_iff

theorem throw_eq_ok_iff {e : ε} {b : α} :
    (throw e : EStateM ε σ α) s = .ok b s' ↔ False := by
  change EStateM.Result.error e s = _ ↔ _
  simp

/-- A computation that only wraps up what another one gives. -/
theorem bind_pure_eq_ok_iff {k : α → β} {b : β} :
    (x >>= fun a => pure (k a)) s = .ok b s' ↔ ∃ a, x s = .ok a s' ∧ k a = b := by
  rw [bind_eq_ok_iff]
  constructor
  · rintro ⟨a, s₁, hx, h⟩
    obtain ⟨rfl, rfl⟩ := pure_eq_ok_iff.1 h
    exact ⟨a, hx, rfl⟩
  · rintro ⟨a, hx, rfl⟩
    exact ⟨a, s', hx, rfl⟩

/-- A computation that wraps up what two others give, one after the other. -/
theorem bind_bind_pure_eq_ok_iff {γ : Type} {k : α → β → γ} {c : γ} :
    (x >>= fun a => f a >>= fun b => pure (k a b)) s = .ok c s' ↔
      ∃ a b s₁, x s = .ok a s₁ ∧ f a s₁ = .ok b s' ∧ k a b = c := by
  rw [bind_eq_ok_iff]
  constructor
  · rintro ⟨a, s₁, hx, h⟩
    obtain ⟨b, hf, rfl⟩ := bind_pure_eq_ok_iff.1 h
    exact ⟨a, b, s₁, hx, hf, rfl⟩
  · rintro ⟨a, b, s₁, hx, hf, rfl⟩
    exact ⟨a, s₁, hx, bind_pure_eq_ok_iff.2 ⟨b, hf, rfl⟩⟩

theorem get_eq_ok_iff {s₁ : σ} :
    (get : EStateM ε σ σ) s = .ok s₁ s' ↔ s = s₁ ∧ s = s' :=
  ok_eq_ok_iff

theorem get_bind_eq_ok_iff {g : σ → EStateM ε σ β} {b : β} :
    (get >>= g) s = .ok b s' ↔ ∃ y, g s = y ∧ y s = .ok b s' :=
  ⟨fun h => ⟨_, rfl, h⟩, fun ⟨_, hy, h⟩ => by rw [← hy] at h; exact h⟩

/-- A computation to be taken apart by itself, without the state it runs on. -/
theorem eq_ok_iff_exists {b : β} {y : EStateM ε σ β} :
    y s = .ok b s' ↔ ∃ z, y = z ∧ z s = .ok b s' :=
  ⟨fun h => ⟨y, rfl, h⟩, fun ⟨_, hz, h⟩ => hz ▸ h⟩

theorem modify_eq_ok_iff {g : σ → σ} {u : PUnit} :
    (modify g : EStateM ε σ PUnit) s = .ok u s' ↔ g s = s' :=
  ok_eq_ok_iff.trans (and_iff_right rfl)

/-! ### What is kept however a computation ends -/

/-- A relation between states that holds over a computation if it holds over all its parts. -/
structure Kept (Q : σ → σ → Prop) : Prop where
  refl : ∀ s, Q s s
  trans : ∀ {s s' s''}, Q s s' → Q s' s'' → Q s s''

/-- Whether the computation succeeds or fails from `s`, the relation holds over it. -/
structure KeepsAt (Q : σ → σ → Prop) (x : EStateM ε σ α) (s : σ) : Prop where
  ok : ∀ {a s'}, x s = .ok a s' → Q s s'
  error : ∀ {e s'}, x s = .error e s' → Q s s'

/-- Whether the computation succeeds or fails, the relation holds over it. -/
def Keeps (Q : σ → σ → Prop) (x : EStateM ε σ α) : Prop := ∀ s, KeepsAt Q x s

theorem Keeps.imp {Q Q' : σ → σ → Prop} (h : Keeps Q x) (hQ : ∀ {s s'}, Q s s' → Q' s s') : Keeps Q' x :=
  fun s => ⟨fun hok => hQ ((h s).ok hok), fun herror => hQ ((h s).error herror)⟩

namespace Kept

variable {Q : σ → σ → Prop}

theorem pure (hQ : Kept Q) (a : α) : Keeps Q (Pure.pure a : EStateM ε σ α) := fun s =>
  ⟨fun h => (pure_eq_ok_iff.1 h).2 ▸ hQ.refl s, nofun⟩

theorem throw (hQ : Kept Q) (e : ε) : Keeps Q (MonadExcept.throw e : EStateM ε σ α) := fun s =>
  ⟨fun h => (throw_eq_ok_iff.1 h).elim, fun h => by cases h; exact hQ.refl s⟩

theorem bindAt (hQ : Kept Q) (hx : KeepsAt Q x s)
    (hf : ∀ {a s'}, x s = .ok a s' → KeepsAt Q (f a) s') : KeepsAt Q (x >>= f) s where
  ok h := by
    obtain ⟨a, s₁, hfirst, h⟩ := bind_eq_ok_iff.1 h
    exact hQ.trans (hx.ok hfirst) ((hf hfirst).ok h)
  error h := by
    rcases bind_eq_error_iff.1 h with h | ⟨a, s₁, hfirst, h⟩
    · exact hx.error h
    · exact hQ.trans (hx.ok hfirst) ((hf hfirst).error h)

theorem bind (hQ : Kept Q) (hx : Keeps Q x) (hf : ∀ a, Keeps Q (f a)) : Keeps Q (x >>= f) := fun s =>
  hQ.bindAt (hx s) fun _ => hf _ _

theorem forM {β : Type} {f : β → EStateM ε σ PUnit} (hQ : Kept Q) (hf : ∀ b, Keeps Q (f b)) (l : List β) :
    Keeps Q (l.forM f) := by
  induction l with
  | nil => exact hQ.pure _
  | cons b l ih => exact hQ.bind (hf b) fun _ => ih

end Kept

theorem keepsAt_get_bind {Q : σ → σ → Prop} {g : σ → EStateM ε σ β} (h : KeepsAt Q (g s) s) :
    KeepsAt Q (get >>= g) s :=
  ⟨fun hok => h.ok hok, fun herror => h.error herror⟩

theorem keeps_get_bind {Q : σ → σ → Prop} {g : σ → EStateM ε σ β} (h : ∀ s, Keeps Q (g s)) :
    Keeps Q (get >>= g) := fun s =>
  keepsAt_get_bind (h s s)

theorem keeps_modify {Q : σ → σ → Prop} {g : σ → σ} (h : ∀ s, Q s (g s)) :
    Keeps Q (modify g : EStateM ε σ PUnit) := fun s =>
  ⟨fun hok => modify_eq_ok_iff.1 hok ▸ h s, nofun⟩

/-! ### What a computation ensures where it succeeds -/

section ensures

variable {R : σ → σ → Prop} {S S' S'' K : σ → Prop} {P : σ → α → Prop} {Q : σ → β → Prop}

/-- Something holds of this state and of all that follow it. -/
def Always (R : σ → σ → Prop) (K : σ → Prop) (s : σ) : Prop := ∀ t, R s t → K t

theorem Always.later (hR : Kept R) (h : Always R K s) (hs : R s s') : Always R K s' := fun t ht =>
  h t (hR.trans hs ht)

theorem Always.here (hR : Kept R) (h : Always R K s) : K s := h s (hR.refl s)

/-- If the computation succeeds from a state with `S` from which on `K` is known, it leads along `R` to a
state with `S'` from which on `P` holds of its result. -/
structure Ensures (R : σ → σ → Prop) (S K : σ → Prop) (x : EStateM ε σ α) (S' : σ → Prop)
    (P : σ → α → Prop) : Prop where
  ok : ∀ {s a s'}, S s → Always R K s → x s = .ok a s' → S' s' ∧ R s s' ∧ Always R (fun t => P t a) s'

namespace Ensures

theorem pure (hR : Kept R) {a : α} (h : ∀ t, K t → P t a) :
    Ensures R S K (Pure.pure a : EStateM ε σ α) S P where
  ok {s a' s'} hs hK hrun := by
    obtain ⟨rfl, rfl⟩ := pure_eq_ok_iff.1 hrun
    exact ⟨hs, hR.refl s, fun t ht => h t (hK t ht)⟩

theorem throw {e : ε} : Ensures R S K (MonadExcept.throw e : EStateM ε σ α) S' P :=
  ⟨fun _ _ hrun => (throw_eq_ok_iff.1 hrun).elim⟩

/-- What is known of the first result is known in the second part. -/
theorem bind (hR : Kept R) (hx : Ensures R S K x S' P)
    (hf : ∀ a, Ensures R S' (fun t => P t a ∧ K t) (f a) S'' Q) : Ensures R S K (x >>= f) S'' Q where
  ok {s b s'} hs hK hrun := by
    obtain ⟨a, s₁, hfirst, hrun⟩ := bind_eq_ok_iff.1 hrun
    obtain ⟨hs₁, hR₁, hP⟩ := hx.ok hs hK hfirst
    obtain ⟨hs', hR₂, hQ⟩ := (hf a).ok hs₁ (fun t ht => ⟨hP t ht, hK.later hR hR₁ t ht⟩) hrun
    exact ⟨hs', hR.trans hR₁ hR₂, hQ⟩

/-- What is known whatever the state may be used as it is. -/
theorem of_known {c : Prop} (hR : Kept R) (hc : ∀ t, K t → c) (h : c → Ensures R S K x S' P) :
    Ensures R S K x S' P :=
  ⟨fun hs hK hrun => (h (hc _ (hK.here hR))).ok hs hK hrun⟩

theorem throw_bind {e : ε} :
    Ensures R S K ((MonadExcept.throw e : EStateM ε σ α) >>= f) S' Q where
  ok _ _ hrun := by
    obtain ⟨_, _, hthrow, -⟩ := bind_eq_ok_iff.1 hrun
    exact (throw_eq_ok_iff.1 hthrow).elim

theorem of_keeps (h : Keeps R x) : Ensures R (fun _ => True) K x (fun _ => True) fun _ _ => True :=
  ⟨fun _ _ hrun => ⟨trivial, (h _).ok hrun, fun _ _ => trivial⟩⟩

theorem imp {K' : σ → Prop} {P' : σ → α → Prop} (h : Ensures R S K x S' P) (hK : ∀ t, K' t → K t)
    (hP : ∀ t a, K' t → P t a → P' t a) (hR : Kept R) : Ensures R S K' x S' P' where
  ok {s a s'} hs hK' hrun := by
    obtain ⟨hs', hR', hPs⟩ := h.ok hs (fun t ht => hK t (hK' t ht)) hrun
    exact ⟨hs', hR', fun t ht => hP t a (hK'.later hR hR' t ht) (hPs t ht)⟩

end Ensures

/-- However the computation ends from a state with `S` from which on `K` is known, it leads along `R` to a state
with `S`; and from where it succeeds on, `P` holds of its result. -/
structure Maintains (R : σ → σ → Prop) (S K : σ → Prop) (x : EStateM ε σ α) (P : σ → α → Prop) : Prop where
  ok : ∀ {s a s'}, S s → Always R K s → x s = .ok a s' → S s' ∧ R s s' ∧ Always R (fun t => P t a) s'
  error : ∀ {s e s'}, S s → Always R K s → x s = .error e s' → S s' ∧ R s s'

namespace Maintains

theorem pure (hR : Kept R) {a : α} (h : ∀ t, K t → P t a) :
    Maintains R S K (Pure.pure a : EStateM ε σ α) P where
  ok {s a' s'} hs hK hrun := by
    obtain ⟨rfl, rfl⟩ := pure_eq_ok_iff.1 hrun
    exact ⟨hs, hR.refl s, fun t ht => h t (hK t ht)⟩
  error _ _ hrun := by cases hrun

theorem throw (hR : Kept R) {e : ε} : Maintains R S K (MonadExcept.throw e : EStateM ε σ α) P where
  ok _ _ hrun := (throw_eq_ok_iff.1 hrun).elim
  error hs _ hrun := by
    cases hrun
    exact ⟨hs, hR.refl _⟩

/-- What is known of the first result is known in the second part. -/
theorem bind (hR : Kept R) (hx : Maintains R S K x P)
    (hf : ∀ a, Maintains R S (fun t => P t a ∧ K t) (f a) Q) : Maintains R S K (x >>= f) Q where
  ok {s b s'} hs hK hrun := by
    obtain ⟨a, s₁, hfirst, hrun⟩ := bind_eq_ok_iff.1 hrun
    obtain ⟨hs₁, hR₁, hP⟩ := hx.ok hs hK hfirst
    obtain ⟨hs', hR₂, hQ⟩ := (hf a).ok hs₁ (fun t ht => ⟨hP t ht, hK.later hR hR₁ t ht⟩) hrun
    exact ⟨hs', hR.trans hR₁ hR₂, hQ⟩
  error {s e s'} hs hK hrun := by
    rcases bind_eq_error_iff.1 hrun with hrun | ⟨a, s₁, hfirst, hrun⟩
    · exact hx.error hs hK hrun
    · obtain ⟨hs₁, hR₁, hP⟩ := hx.ok hs hK hfirst
      obtain ⟨hs', hR₂⟩ := (hf a).error hs₁ (fun t ht => ⟨hP t ht, hK.later hR hR₁ t ht⟩) hrun
      exact ⟨hs', hR.trans hR₁ hR₂⟩

theorem imp {K' : σ → Prop} {P' : σ → α → Prop} (h : Maintains R S K x P) (hK : ∀ t, K' t → K t)
    (hP : ∀ t a, K' t → P t a → P' t a) (hR : Kept R) : Maintains R S K' x P' where
  ok {s a s'} hs hK' hrun := by
    obtain ⟨hs', hR', hPs⟩ := h.ok hs (fun t ht => hK t (hK' t ht)) hrun
    exact ⟨hs', hR', fun t ht => hP t a (hK'.later hR hR' t ht) (hPs t ht)⟩
  error hs hK' hrun := h.error hs (fun t ht => hK t (hK' t ht)) hrun

/-- What is known whatever the state may be used as it is. -/
theorem of_known {c : Prop} (hR : Kept R) (hc : ∀ t, K t → c) (h : c → Maintains R S K x P) :
    Maintains R S K x P where
  ok hs hK hrun := (h (hc _ (hK.here hR))).ok hs hK hrun
  error hs hK hrun := (h (hc _ (hK.here hR))).error hs hK hrun

/-- What the computation keeps from a state with `S` in which `K` holds, however it ends. -/
theorem of_keepsAt (hR : Kept R) (h : ∀ {s}, S s → K s → KeepsAt (fun s s' => S s' ∧ R s s') x s) :
    Maintains R S K x fun _ _ => True where
  ok hs hK hrun := by
    obtain ⟨hs', hss'⟩ := (h hs (hK.here hR)).ok hrun
    exact ⟨hs', hss', fun _ _ => trivial⟩
  error hs hK hrun := (h hs (hK.here hR)).error hrun

theorem keeps (h : Maintains R S K x P) :
    Keeps (fun s s' => S s → Always R K s → S s' ∧ R s s') x := fun _ =>
  ⟨fun hrun hs hK => ⟨(h.ok hs hK hrun).1, (h.ok hs hK hrun).2.1⟩, fun hrun hs hK => h.error hs hK hrun⟩

theorem of_keeps (h : Keeps (fun s s' => S s → Always R K s → S s' ∧ R s s') x) :
    Maintains R S K x fun _ _ => True where
  ok hs hK hrun := ⟨((h _).ok hrun hs hK).1, ((h _).ok hrun hs hK).2, fun _ _ => trivial⟩
  error hs hK hrun := (h _).error hrun hs hK

/-- From states with `S` from which on `K` is known, such runs compose. -/
theorem kept (hR : Kept R) : Kept fun s s' => S s → Always R K s → S s' ∧ R s s' where
  refl s hs _ := ⟨hs, hR.refl s⟩
  trans h h' hs hK := by
    obtain ⟨hs', hss'⟩ := h hs hK
    obtain ⟨hs'', hss''⟩ := h' hs' (hK.later hR hss')
    exact ⟨hs'', hR.trans hss' hss''⟩

end Maintains

end ensures

/-! ### Two computations that end alike -/

/-- Both computations succeed with the same result or both fail with the same error, and the states in
which they end are related. -/
def Alike {τ : Type} (R : σ → τ → Prop) : EStateM.Result ε σ α → EStateM.Result ε τ α → Prop
  | .ok a s, .ok b t => a = b ∧ R s t
  | .error e s, .error e' t => e = e' ∧ R s t
  | _, _ => False

section alike

variable {τ : Type} {R : σ → τ → Prop} {y : EStateM ε τ α} {k : α → EStateM ε τ β} {t : τ}

theorem Alike.bind (h : Alike R (x s) (y t)) (hf : ∀ a s t, R s t → Alike R (f a s) (k a t)) :
    Alike R ((x >>= f) s) ((y >>= k) t) := by
  change Alike R (EStateM.bind x f s) (EStateM.bind y k t)
  unfold EStateM.bind
  generalize x s = result at h
  generalize y t = result' at h
  cases result with
  | ok a s =>
    cases result' with
    | ok b t =>
      obtain ⟨rfl, hst⟩ := h
      exact hf a s t hst
    | error => exact h.elim
  | error e s =>
    cases result' with
    | ok => exact h.elim
    | error e' t => exact h

theorem Alike.of_ok {a : α} {result : EStateM.Result ε τ α} (h : Alike R (.ok a s) result) :
    ∃ t, result = .ok a t ∧ R s t := by
  cases result with
  | ok b t => exact ⟨t, by rw [h.1], h.2⟩
  | error => exact h.elim

theorem Alike.ok_iff {result : EStateM.Result ε σ α} {result' : EStateM.Result ε τ α}
    (h : Alike R result result') (a : α) : (∃ s, result = .ok a s) ↔ ∃ t, result' = .ok a t := by
  cases result with
  | ok b s =>
    obtain ⟨t, rfl, -⟩ := h.of_ok
    simp
  | error e s =>
    cases result' with
    | ok => exact h.elim
    | error => simp

end alike

/-! ### Two computations side by side -/

/-- Both results are values related by `V` or the same error. The states are related by `R` after a success and by
`E` after a failure. -/
inductive Matched {τ : Type} (R E : σ → τ → Prop) (V : α → β → Prop) :
    EStateM.Result ε σ α → EStateM.Result ε τ β → Prop where
  | ok {a : α} {b : β} {s : σ} {t : τ} (hab : V a b) (hst : R s t) : Matched R E V (.ok a s) (.ok b t)
  | error {e : ε} {s : σ} {t : τ} (hst : E s t) : Matched R E V (.error e s) (.error e t)

/-- From states related by `R`, both computations succeed with related values or fail with the same error. -/
structure Parallel {τ : Type} (R E : σ → τ → Prop) (V : α → β → Prop) (x : EStateM ε σ α) (y : EStateM ε τ β) :
    Prop where
  run : ∀ {s t}, R s t → Matched R E V (x s) (y t)

section parallel

variable {τ γ δ : Type} {R R' E : σ → τ → Prop} {V : α → β → Prop} {W : γ → δ → Prop} {x : EStateM ε σ α}
  {y : EStateM ε τ β} {f : α → EStateM ε σ γ} {k : β → EStateM ε τ δ} {s : σ} {t : τ}

theorem Matched.elim {r : EStateM.Result ε σ α} {r' : EStateM.Result ε τ β} {P : Prop} (h : Matched R E V r r')
    (ok : ∀ {a b s t}, r = .ok a s → r' = .ok b t → V a b → R s t → P)
    (error : ∀ {e s t}, r = .error e s → r' = .error e t → E s t → P) : P := by
  cases h with
  | ok hab hst => exact ok rfl rfl hab hst
  | error hst => exact error rfl rfl hst

/-- The second parts start in related states, with related values. -/
theorem Matched.bind (h : Matched R E V (x s) (y t))
    (hf : ∀ {a b s t}, V a b → R s t → Matched R' E W (f a s) (k b t)) :
    Matched R' E W ((x >>= f) s) ((y >>= k) t) := by
  change Matched R' E W (EStateM.bind x f s) (EStateM.bind y k t)
  unfold EStateM.bind
  generalize x s = r at h
  generalize y t = r' at h
  cases h with
  | ok hab hst => exact hf hab hst
  | error hst => exact .error hst

namespace Parallel

theorem pure {a : α} {b : β} (hab : V a b) :
    Parallel R E V (Pure.pure a : EStateM ε σ α) (Pure.pure b : EStateM ε τ β) := ⟨fun hst => .ok hab hst⟩

theorem throw (e : ε) (hE : ∀ {s t}, R s t → E s t := by exact fun h => h) :
    Parallel R E V (MonadExcept.throw e : EStateM ε σ α) (MonadExcept.throw e : EStateM ε τ β) :=
  ⟨fun hst => .error (hE hst)⟩

theorem bind (h : Parallel R E V x y) (hf : ∀ {a b}, V a b → Parallel R E W (f a) (k b)) :
    Parallel R E W (x >>= f) (y >>= k) :=
  ⟨fun hst => (h.run hst).bind fun hab hst => (hf hab).run hst⟩

/-- The second computation goes on with the image of what the first one goes on with. -/
theorem bind_map {φ : α → β} (h : Parallel R E (fun a b => b = φ a) x y)
    (hf : ∀ a, Parallel R E W (f a) (k (φ a))) : Parallel R E W (x >>= f) (y >>= k) :=
  h.bind fun {a b} hab => by subst hab; exact hf a

theorem bind_eq {y : EStateM ε τ α} {k : α → EStateM ε τ δ} (h : Parallel R E Eq x y)
    (hf : ∀ a, Parallel R E W (f a) (k a)) : Parallel R E W (x >>= f) (y >>= k) :=
  h.bind fun {a b} hab => by subst hab; exact hf a

theorem imp {V' : α → β → Prop} (h : Parallel R E V x y) (hV : ∀ {a b}, V a b → V' a b) : Parallel R E V' x y :=
  ⟨fun hst => (h.run hst).elim (fun hx hy hab hst => hx ▸ hy ▸ .ok (hV hab) hst) fun hx hy hst => hx ▸ hy ▸ .error hst⟩

theorem mono_error {E' : σ → τ → Prop} (h : Parallel R E V x y) (hE : ∀ {s t}, E s t → E' s t) :
    Parallel R E' V x y :=
  ⟨fun hst => (h.run hst).elim (fun hx hy hab hst => hx ▸ hy ▸ .ok hab hst)
    fun hx hy hst => hx ▸ hy ▸ .error (hE hst)⟩

end Parallel

end parallel

/-! ### The errors of a computation -/

/-- Wherever the computation fails, its error is one of these. -/
structure FailsOnly (E : ε → Prop) (x : EStateM ε σ α) : Prop where
  error : ∀ {s e s'}, x s = .error e s' → E e

namespace FailsOnly

variable {E : ε → Prop}

theorem of_ok (h : ∀ s, ∃ a s', x s = .ok a s') : FailsOnly E x where
  error {s e s'} hrun := by
    obtain ⟨a, s₁, hok⟩ := h s
    cases hok.symm.trans hrun

theorem pure (a : α) : FailsOnly E (Pure.pure a : EStateM ε σ α) := of_ok fun s => ⟨a, s, rfl⟩

theorem throw {e : ε} (he : E e) : FailsOnly E (MonadExcept.throw e : EStateM ε σ α) where
  error hrun := by
    cases hrun
    exact he

theorem bind (hx : FailsOnly E x) (hf : ∀ a, FailsOnly E (f a)) : FailsOnly E (x >>= f) where
  error hrun := by
    rcases bind_eq_error_iff.1 hrun with hrun | ⟨a, s₁, -, hrun⟩
    · exact hx.error hrun
    · exact (hf a).error hrun

end FailsOnly

/-! ### The results of a computation -/

/-- Whatever the computation gives has the property. -/
structure Yields (x : EStateM ε σ α) (P : α → Prop) : Prop where
  ok : ∀ {s a s'}, x s = .ok a s' → P a

namespace Yields

variable {P : α → Prop} {Q : β → Prop}

theorem trivial : Yields x fun _ => True := ⟨fun _ => True.intro⟩

theorem pure {a : α} (h : P a) : Yields (Pure.pure a : EStateM ε σ α) P where
  ok hrun := (pure_eq_ok_iff.1 hrun).1 ▸ h

theorem throw {e : ε} : Yields (MonadExcept.throw e : EStateM ε σ α) P where
  ok hrun := (throw_eq_ok_iff.1 hrun).elim

theorem bind (hx : Yields x P) (hf : ∀ a, P a → Yields (f a) Q) : Yields (x >>= f) Q where
  ok hrun := by
    obtain ⟨a, s₁, hfirst, hrun⟩ := bind_eq_ok_iff.1 hrun
    exact (hf a (hx.ok hfirst)).ok hrun

theorem after (hf : ∀ a, Yields (f a) Q) : Yields (x >>= f) Q := trivial.bind fun a _ => hf a

theorem of_get {k : σ → EStateM ε σ β} (hk : ∀ s, Yields (k s) Q) : Yields (get >>= k) Q where
  ok hrun := by
    obtain ⟨_, rfl, hrun⟩ := get_bind_eq_ok_iff.1 hrun
    exact (hk _).ok hrun

theorem and {P' : α → Prop} (h : Yields x P) (h' : Yields x P') : Yields x fun a => P a ∧ P' a :=
  ⟨fun hrun => ⟨h.ok hrun, h'.ok hrun⟩⟩

theorem imp {P' : α → Prop} (h : Yields x P) (hP : ∀ a, P a → P' a) : Yields x P' where
  ok hrun := hP _ (h.ok hrun)

end Yields

/-! ### One computation that ends as another wherever it succeeds -/

/-- Where the first computation succeeds, the second one does so in the same state, with a related result. -/
structure Approximates (V : α → β → Prop) (x : EStateM ε σ α) (y : EStateM ε σ β) : Prop where
  ok : ∀ {s a s'}, x s = .ok a s' → ∃ b, y s = .ok b s' ∧ V a b

namespace Approximates

variable {γ δ : Type} {V : α → β → Prop} {W : γ → δ → Prop} {x : EStateM ε σ α} {y : EStateM ε σ β}
  {f : α → EStateM ε σ γ} {k : β → EStateM ε σ δ}

theorem refl (x : EStateM ε σ α) : Approximates Eq x x := ⟨fun h => ⟨_, h, rfl⟩⟩

theorem throw {e : ε} : Approximates V (MonadExcept.throw e : EStateM ε σ α) y :=
  ⟨fun h => (throw_eq_ok_iff.1 h).elim⟩

theorem pure {a : α} {b : β} (hab : V a b) :
    Approximates V (Pure.pure a : EStateM ε σ α) (Pure.pure b : EStateM ε σ β) where
  ok h := by
    obtain ⟨rfl, rfl⟩ := pure_eq_ok_iff.1 h
    exact ⟨b, rfl, hab⟩

theorem bind (hx : Approximates V x y) (hf : ∀ {a b}, V a b → Approximates W (f a) (k b)) :
    Approximates W (x >>= f) (y >>= k) where
  ok h := by
    obtain ⟨a, s₁, hfirst, h⟩ := bind_eq_ok_iff.1 h
    obtain ⟨b, hy, hab⟩ := hx.ok hfirst
    obtain ⟨d, hk, hcd⟩ := (hf hab).ok h
    exact ⟨d, bind_eq_ok_iff.2 ⟨b, s₁, hy, hk⟩, hcd⟩

end Approximates

/-! ### Ways to compare computations -/

/-- A way to compare two computations, given how their results are to be related. It holds of results, and of
computations that are put together from parts of which it holds. -/
structure Comparison (M N : Type → Type) [Monad M] [Monad N] where
  Holds {α β : Type} : (α → β → Prop) → M α → N β → Prop
  pure {α β : Type} {V : α → β → Prop} {a : α} {b : β} : V a b → Holds V (Pure.pure a) (Pure.pure b)
  bind {α β γ δ : Type} {V : α → β → Prop} {W : γ → δ → Prop} {x : M α} {y : N β} {f : α → M γ} {k : β → N δ} :
    Holds V x y → (∀ {a b}, V a b → Holds W (f a) (k b)) → Holds W (x >>= f) (y >>= k)

namespace Comparison

section parts

variable {M N : Type → Type} [Monad M] [Monad N] (C : Comparison M N) {γ δ : Type} {W : γ → δ → Prop} {x : M α}
  {f : α → M γ}

/-- The second computations go on with the same result. -/
theorem bind_eq {y : N α} {k : α → N δ} (hx : C.Holds Eq x y) (hf : ∀ a, C.Holds W (f a) (k a)) :
    C.Holds W (x >>= f) (y >>= k) :=
  C.bind hx fun {a _} hab => hab ▸ hf a

/-- The second computation goes on with the image of what the first one goes on with. -/
theorem bind_map {φ : α → β} {y : N β} {k : β → N δ} (hx : C.Holds (fun a b => b = φ a) x y)
    (hf : ∀ a, C.Holds W (f a) (k (φ a))) : C.Holds W (x >>= f) (y >>= k) :=
  C.bind hx fun {a _} hab => hab ▸ hf a

end parts

def parallel {τ : Type} (R E : σ → τ → Prop) : Comparison (EStateM ε σ) (EStateM ε τ) where
  Holds := Parallel R E
  pure := Parallel.pure
  bind := Parallel.bind

/-- To compare in each of several ways. -/
def forAll {ι : Type} {M N : Type → Type} [Monad M] [Monad N] (C : ι → Comparison M N) : Comparison M N where
  Holds V x y := ∀ i, (C i).Holds V x y
  pure hab i := (C i).pure hab
  bind hx hf i := (C i).bind (hx i) fun hab => hf hab i

def approximating : Comparison (EStateM ε σ) (EStateM ε σ) where
  Holds := Approximates
  pure := Approximates.pure
  bind := Approximates.bind

/-- A relation holds over the first computation. The second one stands for the results that it may have. -/
def keeping {τ : Type} {Q : σ → σ → Prop} (hQ : Kept Q) : Comparison (EStateM ε σ) (EStateM ε τ) where
  Holds V x _ := Keeps Q x ∧ Yields x fun a => ∃ b, V a b
  pure hab := ⟨hQ.pure _, .pure ⟨_, hab⟩⟩
  bind {α β γ δ V W x y f k} hx hf := by
    have hrest {a : α} {s s' : σ} (h : x s = .ok a s') : Keeps Q (f a) ∧ Yields (f a) fun c => ∃ d, W c d := by
      obtain ⟨b, hab⟩ := hx.2.ok h
      exact hf hab
    refine ⟨fun s => hQ.bindAt (hx.1 s) fun h => (hrest h).1 _, ⟨fun h => ?_⟩⟩
    obtain ⟨a, s₁, hfirst, h⟩ := bind_eq_ok_iff.1 h
    exact (hrest hfirst).2.ok h

theorem keeping_of {τ : Type} {Q : σ → σ → Prop} {hQ : Kept Q} {V : α → β → Prop} {x : EStateM ε σ α}
    {y : EStateM ε τ β} (hx : Keeps Q x) (hV : ∀ a, ∃ b, V a b) : (keeping hQ).Holds V x y :=
  ⟨hx, ⟨fun _ => hV _⟩⟩

end Comparison

/-! ### Computations without a state -/

theorem except_bind_eq_ok_iff {x : Except ε α} {f : α → Except ε β} {b : β} :
    (x >>= f) = .ok b ↔ ∃ a, x = .ok a ∧ f a = .ok b := by
  cases x with
  | error e =>
    constructor
    · exact nofun
    · rintro ⟨_, ⟨⟩, _⟩
  | ok a =>
    constructor
    · exact fun h => ⟨a, rfl, h⟩
    · rintro ⟨_, ⟨⟩, h⟩
      exact h

theorem ok_of_toOption_map {γ : Type} {x : Except ε α} {f : α → γ} {c : γ} (h : x.toOption.map f = some c) :
    ∃ a, x = .ok a ∧ f a = c := by
  cases x with
  | error e => cases h
  | ok a => exact ⟨a, rfl, Option.some.inj h⟩

end Monomorph.Outcome
