import Monomorph.Proofs.Draft.Captured
import Monomorph.Proofs.Draft.Ways

/-! # What drafting knows of values

An immutable local that is declared without a value may be given one later, and drafting refuses a second one where
it knows of the first. It knows of the values that a block gives for certain: after a branch, of those that every arm
that goes on gives (`Act.gives_runsAll`). It does not know of a value that only some of the arms give, or an arm that
goes on although drafting notes that it gives back, or a closure, which may run more than once. A name for which there
is nothing of the kind is *balanced* (`Act.balancedAll`). -/

namespace Monomorph

namespace Act

/-! ### Balanced names -/

mutual

/-- Whether the act gives a value to a local of a name for certain, as drafting notes it. -/
def gives (n : String) : Act → Bool
  | .assign m _ => m == n
  | .perhaps right => givesAll n right
  | .branch arms => !returnsArms arms && givesArms n arms
  | .read .. | .declare .. | .giveBack | .unwrap | .closure .. | .apart _ => false

/-- Whether acts in order give a value to the local that a name means before them. -/
def givesAll (n : String) : List Act → Bool
  | [] => false
  | a :: rest => gives n a || (!((declared a).map (·.1)).contains n && givesAll n rest)

def givesArms (n : String) : List (List Act) → Bool
  | [] => true
  | arm :: rest => (returnsAll arm || givesAll n arm) && givesArms n rest

end

mutual

/-- Whether an immutable local of a name is declared without a value. -/
def defers (n : String) : Act → Bool
  | .declare m l => m == n && !l.initialized && !l.isMutable
  | .perhaps right => defersAll n right
  | .branch arms => defersArms n arms
  | .closure _ _ body => defersAll n body
  | .apart inside => defersAll n inside
  | .read .. | .assign .. | .giveBack | .unwrap => false

def defersAll (n : String) : List Act → Bool
  | [] => false
  | a :: rest => defers n a || defersAll n rest

def defersArms (n : String) : List (List Act) → Bool
  | [] => false
  | arm :: rest => defersAll n arm || defersArms n rest

end

/-- Whether the arms that go on agree on giving a value to the local that a name means before them. -/
def agree (n : String) (arms : List (List Act)) : Bool :=
  arms.all (fun arm => returnsAll arm || givesAll n arm) || arms.all fun arm => returnsAll arm || !givesAll n arm

mutual

/-- Whether drafting knows in every block whether a local of the name was given a value: the arms of a branch agree, no
right operand that may be skipped always gives back, and no closure gives a value to a local from around. -/
def balanced (n : String) : Act → Bool
  | .perhaps right => !returnsAll right && balancedAll n right
  | .branch arms => agree n arms && balancedArms n arms
  | .closure _ _ body => (freeAll [] body).all (fun u => !(u.name == n && u.assigned)) && balancedAll n body
  | .apart inside => balancedAll n inside
  | .read .. | .assign .. | .declare .. | .giveBack | .unwrap => true

def balancedAll (n : String) : List Act → Bool
  | [] => true
  | a :: rest => balanced n a && balancedAll n rest

def balancedArms (n : String) : List (List Act) → Bool
  | [] => true
  | arm :: rest => balancedAll n arm && balancedArms n rest

end

variable {n : String}

theorem givesArms_iff {arms : List (List Act)} :
    givesArms n arms = true ↔ ∀ arm ∈ arms, returnsAll arm = false → givesAll n arm = true := by
  induction arms with
  | nil => simp [givesArms]
  | cons arm rest ih =>
    rw [givesArms, Bool.and_eq_true_iff, ih, List.forall_mem_cons]
    cases returnsAll arm <;> simp

mutual

/-- A balanced body has no right operand that always gives back. -/
theorem steady_of_balanced : (a : Act) → balanced n a = true → steady a = true
  | .perhaps right, h => by
    obtain ⟨hnot, hright⟩ := Bool.and_eq_true_iff.1 h
    exact Bool.and_eq_true_iff.2 ⟨hnot, steadyAll_of_balancedAll right hright⟩
  | .branch arms, h => steadyArms_of_balancedArms arms (Bool.and_eq_true_iff.1 h).2
  | .read .., _ | .assign .., _ | .declare .., _ | .giveBack, _ | .unwrap, _ | .closure .., _ | .apart _, _ => rfl

theorem steadyAll_of_balancedAll : (acts : List Act) → balancedAll n acts = true → steadyAll acts = true
  | [], _ => rfl
  | a :: rest, h => by
    obtain ⟨ha, hrest⟩ := Bool.and_eq_true_iff.1 h
    exact Bool.and_eq_true_iff.2 ⟨steady_of_balanced a ha, steadyAll_of_balancedAll rest hrest⟩

theorem steadyArms_of_balancedArms : (arms : List (List Act)) → balancedArms n arms = true → steadyArms arms = true
  | [], _ => rfl
  | arm :: rest, h => by
    obtain ⟨harm, hrest⟩ := Bool.and_eq_true_iff.1 h
    exact Bool.and_eq_true_iff.2 ⟨steadyAll_of_balancedAll arm harm, steadyArms_of_balancedArms rest hrest⟩

end

mutual

/-- A local that acts declare without a value is found among what they defer. -/
theorem defers_of_mem_declared {l : Local} (hmutable : l.isMutable = false) (hunset : l.initialized = false) :
    (a : Act) → (n, l) ∈ declared a → defers n a = true
  | .declare m l', h => by
    obtain ⟨rfl, rfl⟩ := Prod.mk.inj (List.mem_singleton.1 h)
    simp [defers, hmutable, hunset]
  | .perhaps right, h => defersAll_of_mem_declaredAll hmutable hunset right h

theorem defersAll_of_mem_declaredAll {l : Local} (hmutable : l.isMutable = false) (hunset : l.initialized = false) :
    (acts : List Act) → (n, l) ∈ declaredAll acts → defersAll n acts = true
  | a :: rest, h => by
    rw [declaredAll, List.mem_append] at h
    rw [defersAll, Bool.or_eq_true_iff]
    exact h.symm.imp (defers_of_mem_declared hmutable hunset a) (defersAll_of_mem_declaredAll hmutable hunset rest)

end

end Act

/-! ### What is seen along runs -/

namespace Scope

variable {s s' t : Scope} {b b' : Block} {bs : List Block} {rest : List (List Block)} {n : String}
  {declared : List (String × Local)} {returns : Bool}

theorem exists_outer (bs : List Block) (rest : List (List Block)) : ∃ t : Scope, t.stack = bs :: rest := by
  refine ⟨⟨default, .empty, bs⟩ :: rest.map fun bs => ⟨default, .empty, bs⟩, ?_⟩
  simp [stack, Function.comp_def]

/-- A local of the innermost block that was declared since. -/
theorem sight_declared {l : Local} {v : Sighting} (hs' : s'.stack = (b' :: bs) :: rest)
    (hb : b.Evolves declared returns b') (hl : declared.lookup n = some l) (hv : s'.sight n = some v) :
    v.frame = 0 ∧ v.binding.isMutable = l.isMutable ∧ (l.initialized = true → v.initialized = true) := by
  obtain ⟨t, ht⟩ := exists_outer bs rest
  have hlocal := hb.locals n
  rw [hl, Option.some_or] at hlocal
  rw [sight_stack hs' ht] at hv
  generalize b'.locals.get? n = x at hlocal hv
  cases hlocal with
  | some hbecomes =>
    cases hv
    exact ⟨rfl, hbecomes.isMutable, fun hi => by simp [hbecomes.initialized hi]⟩

/-- The name means the same local in both scopes, and what is known of its values is still known. -/
def Carries (s s' : Scope) (n : String) : Prop :=
  ∀ v, s'.sight n = some v → ∃ w, s.sight n = some w ∧ v.frame = w.frame ∧
    v.binding.isMutable = w.binding.isMutable ∧ (w.initialized = true → v.initialized = true)

theorem Carries.of_stack (h : s'.stack = s.stack) : s.Carries s' n :=
  fun v hv => ⟨v, sight_congr h ▸ hv, rfl, rfl, id⟩

theorem carries_evolves (hs : s.stack = (b :: bs) :: rest) (hs' : s'.stack = (b' :: bs) :: rest)
    (hb : b.Evolves declared returns b') (hnot : declared.lookup n = none) : s.Carries s' n := by
  intro v hv
  obtain ⟨t, ht⟩ := exists_outer bs rest
  have hlocal := hb.locals n
  have hnoted := hb.initializes n
  rw [hnot, Option.none_or] at hlocal
  rw [sight_stack hs' ht] at hv
  rw [sight_stack hs ht]
  generalize b.locals.get? n = x at hlocal
  generalize b'.locals.get? n = y at hlocal hv
  cases hlocal with
  | none =>
    obtain ⟨w, hw, rfl⟩ := Option.map_eq_some_iff.1 hv
    refine ⟨w.under (Row.contains b.initializes n), by rw [hw]; rfl, rfl, rfl, fun hi => ?_⟩
    simp only [Sighting.under, Bool.or_eq_true_iff] at hi ⊢
    exact hi.imp_left hnoted
  | some hbecomes =>
    cases hv
    refine ⟨_, rfl, rfl, hbecomes.isMutable, fun hi => ?_⟩
    simp only [Bool.or_eq_true_iff] at hi ⊢
    exact hi.imp hnoted hbecomes.initialized

theorem sight_enterBlock (hs : s.stack = bs :: rest) (name : String) :
    (s.enterBlock .empty).sight name = (s.sight name).map (·.under false) :=
  sight_stack (stack_enterBlock hs .empty) hs

theorem sight_begin (returns : TypeVar) (s : Scope) (name : String) :
    sight (s.begin returns) name = (s.sight name).map Sighting.outside := by
  rw [begin, sight_block]
  change ((sight (⟨returns, .empty, []⟩ :: s) name).map (·.under false)) = _
  rw [sight_frame, Option.map_map]
  rfl

end Scope

/-! ### What is known to have a value -/

/-- The block knows of a value of what the name means in it. -/
def Block.Knows (b : Block) (n : String) : Prop :=
  Row.contains b.initializes n = true ∨ ∃ l, b.locals.get? n = some l ∧ l.initialized = true

namespace Block

variable {b b' : Block} {n : String}

theorem knows_initialized (b : Block) (n : String) : Knows ( b.initialize n) n := by
  unfold Block.initialize
  split
  · exact .inr ⟨_, by rw [Row.get?_insert, if_pos rfl], rfl⟩
  · exact .inl ((NameSet.contains_add _ _ _).2 (.inl rfl))

theorem Knows.evolves (h : b.Knows n) {returns : Bool} (hb : b.Evolves [] returns b') : b'.Knows n := by
  refine h.imp (hb.initializes n) fun ⟨l, hl, hi⟩ => ?_
  have hlocal := hb.locals n
  rw [hl, List.lookup_nil, Option.none_or] at hlocal
  generalize hl' : b'.locals.get? n = x at hlocal
  cases hlocal with
  | some hbecomes => exact ⟨_, rfl, hbecomes.initialized hi⟩

theorem knows_initializedAll {names : List String} (b : Block) (h : n ∈ names) :
    (names.foldl Block.initialize b).Knows n := by
  induction names generalizing b with
  | nil => cases h
  | cons name names ih =>
    rcases List.mem_cons.1 h with rfl | h
    · exact (b.knows_initialized n).evolves (initializedAll_evolves names _)
    · exact ih _ h

end Block

namespace Scope

variable {s t : Scope} {b : Block} {bs : List Block} {rest : List (List Block)} {n : String}

theorem initialized_of_knows {v : Sighting} (hs : s.stack = (b :: bs) :: rest) (hb : b.Knows n)
    (hv : s.sight n = some v) : v.initialized = true := by
  obtain ⟨t, ht⟩ := exists_outer bs rest
  rw [sight_stack hs ht] at hv
  cases hl : b.locals.get? n with
  | some l =>
    rw [hl] at hv
    cases hv
    simpa [Block.Knows, hl] using hb
  | none =>
    rw [hl] at hv
    obtain ⟨w, -, rfl⟩ := Option.map_eq_some_iff.1 hv
    have hnoted : Row.contains b.initializes n = true := by simpa [Block.Knows, hl] using hb
    simp [Sighting.under, hnoted]

/-- After a branch it is known of what every arm that goes on knows to have given a value to, if there is one. -/
theorem knows_joinArms {arms : List Block} (hreturns : arms.all Block.alwaysReturns = false)
    (h : ∀ arm ∈ arms, arm.alwaysReturns = false → Row.contains arm.initializes n = true) (b : Block) :
    ((commonInitializes arms).names.foldl Block.initialize b).Knows n := by
  refine Block.knows_initializedAll b ((Row.mem_names_iff _).2 ?_)
  have hgoing : ∀ arm ∈ arms.filter fun arm => !arm.alwaysReturns, Row.contains arm.initializes n = true := by
    intro arm harm
    obtain ⟨hmem, hnot⟩ := List.mem_filter.1 harm
    exact h arm hmem (by simpa using hnot)
  unfold commonInitializes
  split
  · rename_i hnone
    obtain ⟨arm, hmem, hnot⟩ := List.all_eq_false.1 hreturns
    have hfound : arm ∈ arms.filter fun arm => !arm.alwaysReturns := List.mem_filter.2 ⟨hmem, by simpa using hnot⟩
    rw [hnone] at hfound
    cases hfound
  · rename_i arm others harms
    rw [harms] at hgoing
    obtain ⟨⟨⟩, hvalue⟩ := (Row.contains_iff _).1 (hgoing arm List.mem_cons_self)
    refine (Row.contains_iff _).2
      ⟨(), (Row.get?_filter_eq_some_iff _ _).2 ⟨hvalue, List.all_eq_true.2 fun other hother => ?_⟩⟩
    exact hgoing other (List.mem_cons_of_mem _ hother)

end Scope

namespace Act

open Scope (stack)

variable {r : Records} {n : String}

theorem lookup_declared {a : Act} (h : n ∉ (declared a).map (·.1)) : (declared a).lookup n = none := by
  refine List.lookup_eq_none_iff.2 fun e he => ?_
  have hne : n ≠ e.1 := fun heq => h (List.mem_map.2 ⟨e, he, heq.symm⟩)
  simpa using hne

mutual

/-- What a run gives a value to for certain, the block knows afterwards: here of an immutable local from outside. -/
theorem gives_runs : (a : Act) → ∀ {s s' t b b' bs rest v}, Runs r a s s' → stack s = (b :: bs) :: rest →
    stack s' = (b' :: bs) :: rest → stack t = bs :: rest → Scope.sight t n = some v → v.binding.isMutable = false →
    b.locals.get? n = none → gives n a = true → Row.contains b'.initializes n = true
  | .assign m type, s, s', t, b, b', bs, rest, v, ⟨span, h⟩, hs, hs', ht, hv, himmutable, hlocal, hgives => by
    obtain rfl : m = n := by simpa [gives] using hgives
    obtain ⟨w, hw, -, hassign, hstack⟩ := Scope.access_stack hs h
    rw [Scope.sight_stack hs ht, hlocal, hv] at hw
    cases hw
    have hunset : (v.under (Row.contains b.initializes m)).initialized = false :=
      Bool.eq_false_iff.2 fun hi => Bool.false_ne_true (himmutable.symm.trans (hassign rfl hi))
    obtain rfl : b.initialize m = b' := by
      rw [hunset] at hstack
      have := hstack.symm.trans hs'
      simpa using this
    unfold Block.initialize
    rw [hlocal]
    exact (NameSet.contains_add _ _ _).2 (.inl rfl)
  | .perhaps right, s, s', t, b, b', bs, rest, v, h, hs, hs', ht, hv, himmutable, hlocal, hgives =>
    gives_runsAll right h hs hs' ht hv himmutable hlocal hgives
  | .branch arms, s, s', t, b, b', bs, rest, v, h, hs, hs', ht, hv, himmutable, hlocal, hgives => by
    obtain ⟨s₁, blocks, harms, rfl⟩ := h
    obtain ⟨hreturns, hall⟩ := Bool.and_eq_true_iff.1 hgives
    obtain ⟨hs₁, hblocks⟩ := evolves_runsArms arms harms hs
    have hseen : Scope.sight s n = some (v.under (Row.contains b.initializes n)) := by
      rw [Scope.sight_stack hs ht, hlocal, hv]
      rfl
    have hknows := Scope.knows_joinArms (by rw [hblocks]; simpa using hreturns)
      (gives_runsArms arms harms hs hseen himmutable hall) b
    have hstack := Scope.stack_modifyBlock hs₁ (fun block =>
      let block := (Scope.commonInitializes blocks).names.foldl Block.initialize block
      { block with alwaysReturns := block.alwaysReturns || blocks.all Block.alwaysReturns })
    obtain rfl := (List.cons.inj (List.cons.inj (hstack.symm.trans hs')).1).1
    have hsame := (Block.initializedAll_evolves (Scope.commonInitializes blocks).names b).locals n
    rw [hlocal] at hsame
    refine hknows.resolve_right fun ⟨l, hl, _⟩ => ?_
    rw [hl] at hsame
    cases hsame

theorem gives_runsAll : (acts : List Act) → ∀ {s s' t b b' bs rest v}, RunsAll r acts s s' →
    stack s = (b :: bs) :: rest → stack s' = (b' :: bs) :: rest → stack t = bs :: rest →
    Scope.sight t n = some v → v.binding.isMutable = false → b.locals.get? n = none → givesAll n acts = true →
    Row.contains b'.initializes n = true
  | a :: rest, s, s', t, b, b', bs, below, v, h, hs, hs', ht, hv, himmutable, hlocal, hgives => by
    obtain ⟨s₁, ha, hrest⟩ := h
    obtain ⟨b₁, hs₁, hb₁⟩ := evolves_runs a ha hs
    obtain ⟨b₂, hs₂, hb₂⟩ := evolves_runsAll rest hrest hs₁
    obtain rfl := (List.cons.inj (List.cons.inj (hs₂.symm.trans hs')).1).1
    rcases Bool.or_eq_true_iff.1 hgives with hfirst | hlater
    · exact hb₂.initializes n (gives_runs a ha hs hs₁ ht hv himmutable hlocal hfirst)
    · obtain ⟨hnot, hlater⟩ := Bool.and_eq_true_iff.1 hlater
      have hlocal₁ : b₁.locals.get? n = none := by
        have hsame := hb₁.locals n
        rw [lookup_declared (by simpa using hnot), hlocal] at hsame
        generalize b₁.locals.get? n = x at hsame
        cases hsame
        rfl
      exact gives_runsAll rest hrest hs₁ hs₂ ht hv himmutable hlocal₁ hlater

theorem gives_runsArms : (arms : List (List Act)) → ∀ {s blocks s' b bs rest v}, RunsArms r arms s blocks s' →
    stack s = (b :: bs) :: rest → Scope.sight s n = some v → v.binding.isMutable = false → givesArms n arms = true →
    ∀ block ∈ blocks, block.alwaysReturns = false → Row.contains block.initializes n = true
  | [], s, blocks, s', b, bs, rest, v, h, hs, hv, himmutable, hgives => by
    obtain ⟨rfl, -⟩ := h
    exact fun _ hmem => nomatch hmem
  | arm :: rest, s, blocks, s', b, bs, below, v, h, hs, hv, himmutable, hgives => by
    obtain ⟨s₁, others, harm, rfl, hrest⟩ := h
    obtain ⟨harmGives, hgives⟩ := Bool.and_eq_true_iff.1 hgives
    have henter := Scope.stack_enterBlock hs .empty
    obtain ⟨b₁, hs₁, hb₁⟩ := evolves_runsAll arm harm henter
    obtain ⟨hblock, hexit⟩ := Scope.stack_exitBlock hs₁
    have hseen : Scope.sight s₁.exitBlock.2 n = some v := (Scope.sight_congr (hexit.trans hs.symm)).trans hv
    refine List.forall_mem_cons.2 ⟨fun hnot => ?_, gives_runsArms rest hrest hexit hseen himmutable hgives⟩
    have hreturns : returnsAll arm = false := by
      rw [hblock] at hnot
      exact hb₁.alwaysReturns.symm.trans hnot
    rw [hreturns, Bool.false_or] at harmGives
    exact hblock ▸ gives_runsAll arm harm henter hs₁ hs hv himmutable rfl harmGives

end

/-- What a branch gives a value to for certain, the block knows afterwards. -/
theorem knows_branch {arms : List (List Act)} {s s' : Scope} {b : Block} {bs : List Block} {rest : List (List Block)}
    {v w : Scope.Sighting} (h : Runs r (.branch arms) s s') (hs : stack s = (b :: bs) :: rest)
    (hv : Scope.sight s n = some v) (himmutable : v.binding.isMutable = false)
    (hgives : gives n (.branch arms) = true) (hw : Scope.sight s' n = some w) : w.initialized = true := by
  obtain ⟨s₁, blocks, harms, rfl⟩ := h
  obtain ⟨hreturns, hall⟩ := Bool.and_eq_true_iff.1 hgives
  obtain ⟨hs₁, hblocks⟩ := evolves_runsArms arms harms hs
  have hknows := Scope.knows_joinArms (by rw [hblocks]; simpa using hreturns)
    (gives_runsArms arms harms hs hv himmutable hall) b
  exact Scope.initialized_of_knows (Scope.stack_modifyBlock hs₁ _) hknows hw

/-- If the arms agree and drafting knows of no value, an arm that goes on gives none. -/
theorem gives_arm {arms : List (List Act)} {arm : List Act} (hagree : agree n arms = true) (hmem : arm ∈ arms)
    (hreturns : returnsAll arm = false) (hgives : gives n (.branch arms) = false) : givesAll n arm = false := by
  rcases Bool.or_eq_true_iff.1 hagree with hall | hnone
  · have hsome : returnsArms arms = false :=
      Bool.eq_false_iff.2 fun h => Bool.false_ne_true (hreturns.symm.trans (returnsArms_iff.1 h arm hmem))
    have hgiven : givesArms n arms = true := givesArms_iff.2 fun arm' hmem' hreturns' => by
      simpa [hreturns'] using List.all_eq_true.1 hall arm' hmem'
    simp [gives, hsome, hgiven] at hgives
  · simpa [hreturns] using List.all_eq_true.1 hnone arm hmem

end Act
end Monomorph
