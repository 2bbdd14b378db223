import Monomorph.Proofs.Code.Assigned

/-! # What a path has defined before an instruction

`Reaches` is about the paths that get to an instruction, in whatever arm of whatever branch, as `Runs` is about
those that get to the end. `Dominated` says of lowered code that whatever an instruction reads on such a path is
defined on the path before, unless it was there before the code (`Lowering.sources`) or the code made a version
that nothing ever defines: the first one of a local that is declared without a value (`Lowering.blank`), where
`unset` says that there are such locals.

The names that are visible at the end of the code stand for such versions too, which is what carries the property
on to the code that comes next (`Dominated.trans`). `Dominates` is the same of a computation, together with its
assigning each version once. -/

namespace Monomorph

/-! ### Paths to instructions -/

/-- `Reaches undefined code shapes h i h'`: some path through code of these shapes, with the history `h` at its
start, gets to the instruction `i` with the history `h'`. -/
inductive Reaches {V : Type} (undefined : V) : List Instr → List Shape → History V → Instr → History V → Prop
  | here {i rest shapes} (h : History V) : Reaches undefined (i :: rest) shapes h i h
  | later {i j rest shapes shapes' h h₁ h'} :
      Runs undefined [i] shapes h h₁ → Reaches undefined rest shapes' h₁ j h' →
      Reaches undefined (i :: rest) (shapes ++ shapes') h j h'
  | inside {i j rest arms shapes h h' bound code armShapes} (k : Nat) (x : V) :
      i.arms[k]? = some (bound, code) → arms[k]? = some armShapes →
      Reaches undefined code armShapes (payloadHistory bound x ++ h) j h' →
      Reaches undefined (i :: rest) (.branch arms :: shapes) h j h'

/-- The versions that a path has defined. -/
def History.defined {V : Type} (h : History V) : Set Version := {v | ∃ d ∈ h, d.version = v}

section paths

variable {V : Type} {undefined : V} {code rest : List Instr} {shapes shapes' : List Shape} {h h' : History V}
  {i j : Instr}

theorem History.defined_mono (hsub : h ⊆ h') : h.defined ⊆ h'.defined :=
  fun _ ⟨d, hd, hv⟩ => ⟨d, hsub hd, hv⟩

theorem History.mem_defined_payload {v : Version} (x : V) : v ∈ (payloadHistory (some v) x ++ h).defined :=
  ⟨_, List.mem_cons_self, rfl⟩

theorem branchCount_of_arms_eq_nil (hi : i.arms = []) : branchCount [i] = 0 := by
  cases i with
  | op op args dest => rfl
  | closure args returns captures slots body dest => rfl
  | branchValue v arms otherwise => exact absurd hi (by simp [Instr.arms])
  | branchVariant v arms otherwise => exact absurd hi (by simp [Instr.arms])

theorem branchCount_of_straight (hcode : ∀ i ∈ code, i.arms = []) : branchCount code = 0 := by
  induction code with
  | nil => rfl
  | cons i code ih =>
    rw [← List.singleton_append, branchCount_append, branchCount_of_arms_eq_nil (hcode i List.mem_cons_self),
      ih fun j hj => hcode j (List.mem_cons_of_mem i hj)]

namespace Runs

theorem history_subset (hrun : Runs undefined code shapes h h') : h ⊆ h' := by
  obtain ⟨new, rfl, -⟩ := hrun.exists_new
  exact List.subset_append_right _ _

theorem length_shapes (hrun : Runs undefined code shapes h h') : shapes.length = branchCount code := by
  induction hrun with
  | nil => rfl
  | define _ _ _ _ ih => exact ih
  | effect _ _ ih => exact ih
  | phi _ ih => exact ih
  | closure _ _ ih => exact ih
  | valueArm _ _ _ _ _ _ ih => exact congrArg (· + 1) ih
  | valueLast _ _ _ _ ih => exact congrArg (· + 1) ih
  | variantArm _ _ _ _ _ _ _ ih => exact congrArg (· + 1) ih
  | variantLast _ _ _ _ ih => exact congrArg (· + 1) ih

/-- A path through code without branches defines all that the code defines. -/
theorem definedIn_subset (hcode : ∀ i ∈ code, i.arms = []) (hrun : Runs undefined code shapes h h') :
    ∀ v ∈ definedIn code, v ∈ h'.defined := by
  induction hrun with
  | nil => exact nofun
  | define x _ _ hrest ih | closure x hrest ih | phi hrest ih =>
    intro v hv
    rcases List.mem_cons.1 hv with rfl | hv
    · exact ⟨_, hrest.history_subset List.mem_cons_self, rfl⟩
    · exact ih (fun i hi => hcode i (List.mem_cons_of_mem _ hi)) v hv
  | effect _ _ ih => exact ih fun i hi => hcode i (List.mem_cons_of_mem _ hi)
  | valueArm | valueLast | variantArm | variantLast =>
    exact absurd (hcode _ List.mem_cons_self) (by simp [Instr.arms])

end Runs

namespace Reaches

theorem history_subset (hreach : Reaches undefined code shapes h i h') : h ⊆ h' := by
  induction hreach with
  | here h => exact fun _ => id
  | later hrun _ ih => exact fun _ hd => ih (hrun.history_subset hd)
  | inside k x _ _ _ ih => exact fun _ hd => ih (List.mem_append_right _ hd)

theorem not_nil : ¬Reaches undefined [] shapes h i h' := nofun

/-- What is reached in code without branches is one of its instructions. -/
theorem mem_of_arms_eq_nil (hcode : ∀ i ∈ code, i.arms = []) (hreach : Reaches undefined code shapes h j h') :
    j ∈ code := by
  induction hreach with
  | here h => exact List.mem_cons_self
  | later _ _ ih => exact List.mem_cons_of_mem _ (ih fun i hi => hcode i (List.mem_cons_of_mem _ hi))
  | inside k x harm _ _ _ =>
    rw [hcode _ List.mem_cons_self] at harm
    cases harm

/-- What is reached in one instruction is the instruction itself or stands in the arm taken. -/
theorem of_singleton {arms : List (List Shape)} (hreach : Reaches undefined [i] [.branch arms] h j h') :
    j = i ∨ ∃ (k : Nat) (bound : Option Version) (code : List Instr) (shapes : List Shape) (x : V),
      i.arms[k]? = some (bound, code) ∧ arms[k]? = some shapes ∧
      Reaches undefined code shapes (payloadHistory bound x ++ h) j h' := by
  generalize hall : [Shape.branch arms] = all at hreach
  cases hreach with
  | here => exact .inl rfl
  | later _ hrest => exact (not_nil hrest).elim
  | inside k x harm hshapes hreach =>
    cases hall
    exact .inr ⟨k, _, _, _, x, harm, hshapes, hreach⟩

/-- What is reached in two pieces of code is reached in the first, or in the second by way of the first. -/
theorem of_append (hlen : shapes.length = branchCount code)
    (hreach : Reaches undefined (code ++ rest) (shapes ++ shapes') h j h') :
    Reaches undefined code shapes h j h' ∨
      ∃ h₁, Runs undefined code shapes h h₁ ∧ Reaches undefined rest shapes' h₁ j h' := by
  induction code generalizing shapes h with
  | nil =>
    obtain rfl := List.length_eq_zero_iff.1 hlen
    exact .inr ⟨h, .nil h, hreach⟩
  | cons i code ih =>
    have hcount : branchCount (i :: code) = branchCount [i] + branchCount code := branchCount_append [i] code
    generalize hall : shapes ++ shapes' = all at hreach
    cases hreach with
    | here => exact .inl (.here _)
    | @later _ _ _ first others _ h₁ _ hrun hreach =>
      -- The shapes of the first instruction are the first of those of the first piece.
      obtain ⟨tail, rfl, rfl⟩ : ∃ tail, shapes = first ++ tail ∧ others = tail ++ shapes' := by
        rcases List.append_eq_append_iff.1 hall with ⟨tail, hfirst, hothers⟩ | h
        · have hfirstLen := congrArg List.length hfirst
          rw [List.length_append, hlen, hcount, hrun.length_shapes] at hfirstLen
          obtain rfl : tail = [] := List.length_eq_zero_iff.1 (by omega)
          exact ⟨[], by simpa using hfirst.symm, hothers.symm⟩
        · exact h
      have hlen' : tail.length = branchCount code := by
        rw [List.length_append, hcount, hrun.length_shapes] at hlen
        exact Nat.add_left_cancel hlen
      rcases ih hlen' hreach with hreach | ⟨h₂, hcode, hreach⟩
      · exact .inl (.later hrun hreach)
      · exact .inr ⟨h₂, hrun.append hcode, hreach⟩
    | inside k x harm hshapes hreach =>
      have hone : branchCount [i] = 1 := branchCount_of_arms fun hnil => by
        rw [hnil] at harm
        cases harm
      obtain ⟨shape, tail, rfl⟩ := List.exists_cons_of_length_eq_add_one
        (hlen.trans (hcount.trans (by rw [hone, Nat.add_comm])))
      cases hall
      exact .inl (.inside k x harm hshapes hreach)

end Reaches

end paths

/-! ### What code may read -/

namespace Lowering

variable {unset : Prop} {s s₁ s' : Lowering} {ds es : List Version}

/-- The versions that names stand for. -/
def visible (s : Lowering) : Set Version := {v | ∃ n, s.names.get? n = some v}

/-- The first versions made between two states that the code in between, which defines `ds`, does not define. There
are none unless `unset`. -/
def blank (unset : Prop) (s : Lowering) (ds : List Version) (s' : Lowering) : Set Version :=
  {v | unset ∧ v.version = 0 ∧ ¬s.Owns v ∧ s'.Owns v ∧ v ∉ ds}

theorem blank_subset_append (h : s₁.Adds es s') : blank unset s ds s₁ ⊆ blank unset s (ds ++ es) s' := by
  rintro v ⟨hunset, hzero, hfresh, hmade, hds⟩
  exact ⟨hunset, hzero, hfresh, h.owns hmade, fun hv => (List.mem_append.1 hv).elim hds fun hv => h.fresh v hv hmade⟩

theorem blank_append_subset (h : s.Adds ds s₁) : blank unset s₁ es s' ⊆ blank unset s (ds ++ es) s' := by
  rintro v ⟨hunset, hzero, hfresh, hmade, hes⟩
  exact ⟨hunset, hzero, fun hv => hfresh (h.owns hv), hmade, fun hv =>
    (List.mem_append.1 hv).elim (fun hv => hfresh (h.made v hv)) hes⟩

/-- What code lowered between two states may read unless it defines it: what names stood for, what was known, and
what nothing defines. -/
def sources (unset : Prop) (s : Lowering) (known : Set Version) (ds : List Version) (s' : Lowering) : Set Version :=
  s.visible ∪ known ∪ blank unset s ds s'

end Lowering

/-- On every path through the code, lowered between the states `s` and `s'` where the versions `known` are known,
whatever is read was defined before or is among the sources of the code. At its end the same holds of the visible
names and of the versions `result`. -/
structure Dominated (unset : Prop) (known : Set Version) (shapes : List Shape) (s : Lowering) (code : List Instr)
    (s' : Lowering) (result : Set Version) : Prop where
  count : shapes.length = branchCount code
  reads : ∀ {V : Type} {undefined : V} {h h' : History V} {i : Instr}, Reaches undefined code shapes h i h' →
    ∀ v ∈ i.reads, v ∈ s.sources unset known (definedIn code) s' ∪ h'.defined
  ends : ∀ {V : Type} {undefined : V} {h h' : History V}, Runs undefined code shapes h h' →
    s'.visible ∪ result ⊆ s.sources unset known (definedIn code) s' ∪ h'.defined

namespace Dominated

variable {unset : Prop} {known result result₁ : Set Version} {shapes shapes' : List Shape} {s s₁ s' : Lowering}
  {code rest : List Instr} {i : Instr}

theorem nil (hends : s'.visible ∪ result ⊆ s.sources unset known [] s') :
    Dominated unset known [] s [] s' result where
  count := rfl
  reads hreach := (Reaches.not_nil hreach).elim
  ends _ := hends.trans Set.subset_union_left

theorem one (hi : i.arms = []) (hreads : ∀ v ∈ i.reads, v ∈ s.visible ∪ known)
    (hends : s'.visible ∪ result ⊆ s.visible ∪ known ∪ {v | v ∈ i.defines}) :
    Dominated unset known [] s [i] s' result where
  count := (branchCount_of_arms_eq_nil hi).symm
  reads hreach v hv := by
    obtain rfl := List.mem_singleton.1 (hreach.mem_of_arms_eq_nil fun j hj => List.mem_singleton.1 hj ▸ hi)
    exact .inl (.inl (hreads v hv))
  ends hrun v hv := by
    refine (hends hv).imp .inl fun hdef => ?_
    exact hrun.definedIn_subset (fun j hj => List.mem_singleton.1 hj ▸ hi) v (definedIn_singleton i ▸ hdef)

/-- The second piece of code may read what the first one leaves. -/
theorem trans (h : Dominated unset known shapes s code s₁ result₁)
    (h' : Dominated unset (result₁ ∪ known) shapes' s₁ rest s' result) (hadds : s.Adds (definedIn code) s₁)
    (hadds' : s₁.Adds (definedIn rest) s') :
    Dominated unset known (shapes ++ shapes') s (code ++ rest) s' result := by
  have hfirst : s.sources unset known (definedIn code) s₁ ⊆ s.sources unset known (definedIn (code ++ rest)) s' :=
    definedIn_append code rest ▸ Set.union_subset_union_right _ (Lowering.blank_subset_append hadds')
  have hsecond {V : Type} {undefined : V} {h₀ h₁ h₂ : History V} (hrun : Runs undefined code shapes h₀ h₁)
      (hsub : h₁ ⊆ h₂) : s₁.sources unset (result₁ ∪ known) (definedIn rest) s' ∪ h₂.defined ⊆
        s.sources unset known (definedIn (code ++ rest)) s' ∪ h₂.defined := by
    have hends := (h.ends hrun).trans (Set.union_subset_union hfirst (History.defined_mono hsub))
    refine Set.union_subset (Set.union_subset (Set.union_subset ?_ (Set.union_subset ?_ ?_)) ?_)
      Set.subset_union_right
    · exact Set.subset_union_left.trans hends
    · exact Set.subset_union_right.trans hends
    · exact fun v hv => .inl (.inl (.inr hv))
    · exact fun v hv => .inl (.inr (definedIn_append code rest ▸ Lowering.blank_append_subset hadds hv))
  refine ⟨?_, fun hreach v hv => ?_, fun hrun => ?_⟩
  · rw [List.length_append, h.count, h'.count, branchCount_append]
  · rcases hreach.of_append h.count with hreach | ⟨h₁, hrun, hreach⟩
    · exact Set.union_subset_union_left _ hfirst (h.reads hreach v hv)
    · exact hsecond hrun hreach.history_subset (h'.reads hreach v hv)
  · obtain ⟨h₁, hcode, hrest⟩ := hrun.exists_of_append h.count
    exact (h'.ends hrest).trans (hsecond hcode hrest.history_subset)

end Dominated

/-! ### Computations -/

/-- Where the versions `known` exist, the computation lowers to code of these shapes that assigns each version once
and reads nothing that could be defined but is not. -/
structure Dominates {α : Type} (unset : Prop) (shapes : List Shape) (known : Set Version)
    (result : α → Set Version) (x : LowerM α) : Prop where
  assigns : Assigns known result x
  paths : ∀ ⦃s a s' code⦄, s.Bound → (∀ v ∈ known, s.Owns v) → x s = .ok a s' →
    s'.code.toList = s.code.toList ++ code → Dominated unset known shapes s code s' (result a)

namespace Dominates

variable {α β : Type} {unset : Prop} {shapes shapes' : List Shape} {known : Set Version}
  {result : α → Set Version} {result' : β → Set Version} {x : LowerM α}

theorem of_code (h : ∀ ⦃s a s'⦄, s.Bound → (∀ v ∈ known, s.Owns v) → x s = .ok a s' →
    ∃ code, s'.code.toList = s.code.toList ++ code ∧ Assigned s code s' ∧
      Dominated unset known shapes s code s' (result a) ∧ ∀ v ∈ result a, s'.Owns v) :
    Dominates unset shapes known result x where
  assigns s a s' hs hknown hrun := by
    obtain ⟨code, hcode, hassigned, -, hresult⟩ := h hs hknown hrun
    exact ⟨⟨code, hcode, hassigned⟩, hresult⟩
  paths s a s' code hs hknown hrun hcode := by
    obtain ⟨code', hcode', -, hdominated, -⟩ := h hs hknown hrun
    obtain rfl := List.append_cancel_left (hcode.symm.trans hcode')
    exact hdominated

/-- A computation that lowers no code and changes no names. -/
theorem silent (hassigns : Assigns known result x) (hx : ∀ {s a s'}, x s = .ok a s' →
    s'.code = s.code ∧ s'.names = s.names ∧ result a ⊆ s.visible ∪ known) : Dominates unset [] known result x where
  assigns := hassigns
  paths s a s' code _ _ hrun hcode := by
    obtain ⟨hsame, hnames, hresult⟩ := hx hrun
    obtain rfl : code = [] := by simpa [hsame] using hcode
    refine .nil (Set.union_subset (fun v hv => ?_) (hresult.trans Set.subset_union_left))
    obtain ⟨n, hn⟩ := hv
    exact .inl (.inl ⟨n, hnames ▸ hn⟩)

theorem pure {a : α} (h : result a ⊆ known) : Dominates unset [] known result (pure a : LowerM α) :=
  .silent (.pure h) fun hrun => by
    obtain ⟨rfl, rfl⟩ := Outcome.pure_eq_ok_iff.1 hrun
    exact ⟨rfl, rfl, h.trans Set.subset_union_right⟩

theorem pure_none {a : α} : Dominates unset [] known (fun _ => ∅) (Pure.pure a : LowerM α) :=
  .pure (Set.empty_subset _)

theorem pure_absent : Dominates unset [] known (fun r => {v | v ∈ r}) (Pure.pure none : LowerM (Option Version)) :=
  .pure fun v (hv : none = some v) => nomatch hv

theorem pure_some {v : Version} (hv : v ∈ known) :
    Dominates unset [] known (fun r => {w | w ∈ r}) (Pure.pure (some v) : LowerM (Option Version)) :=
  .pure fun _ hw => Option.some.inj hw ▸ hv

theorem throw (e : LowerError) : Dominates unset shapes known result (throw e : LowerM α) :=
  ⟨.throw e, fun _ _ _ _ _ _ h => (Outcome.throw_eq_ok_iff.1 h).elim⟩

theorem bind {f : α → LowerM β} (hx : Dominates unset shapes known result x)
    (hf : ∀ a, Dominates unset shapes' (result a ∪ known) result' (f a)) :
    Dominates unset (shapes ++ shapes') known result' (x >>= f) := by
  refine .of_code fun s b s' hs hknown h => ?_
  obtain ⟨a, s₁, hxa, hfa⟩ := Outcome.bind_eq_ok_iff.1 h
  obtain ⟨⟨first, hfirst, hassigned⟩, hresult⟩ := hx.assigns hs hknown hxa
  have hknown₁ : ∀ v ∈ result a ∪ known, s₁.Owns v := fun v hv =>
    hv.elim (hresult v) fun hv => hassigned.adds.owns (hknown v hv)
  obtain ⟨⟨rest, hrest, hassigned'⟩, hresult'⟩ := (hf a).assigns hassigned.bound hknown₁ hfa
  have hpaths := hx.paths hs hknown hxa hfirst
  have hpaths' := (hf a).paths hassigned.bound hknown₁ hfa hrest
  exact ⟨first ++ rest, by rw [hrest, hfirst, List.append_assoc], hassigned.trans hassigned',
    hpaths.trans hpaths' hassigned.adds hassigned'.adds, hresult'⟩

theorem bind_nil {f : α → LowerM β} (hx : Dominates unset shapes known result x)
    (hf : ∀ a, Dominates unset [] (result a ∪ known) result' (f a)) :
    Dominates unset shapes known result' (x >>= f) :=
  List.append_nil shapes ▸ hx.bind hf

theorem throw_bind (e : LowerError) {f : α → LowerM β} :
    Dominates unset shapes known result' ((MonadExcept.throw e : LowerM α) >>= f) :=
  ⟨.throw_bind e, fun _ _ _ _ _ _ h =>
    (Outcome.throw_eq_ok_iff.1 (Outcome.bind_eq_ok_iff.1 h).choose_spec.choose_spec.1).elim⟩

end Dominates
end Monomorph
