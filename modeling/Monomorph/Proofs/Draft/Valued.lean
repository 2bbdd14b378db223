import Monomorph.Proofs.Draft.Given

/-! # Which locals have a value when they are read

A read that drafting accepts is one of a local of which it knows a value. On a way through the body that arrives at
the read (`Act.Arrives`), the local that the name means was then given one (`Draft.readsGiven`), but for two things
that drafting takes for certain and that are not. It notes in a block that a name from outside has a value, and does
not take the note back where the block declares the name anew (`Act.restates`); and it notes of a right operand that
may be skipped what the operand does. A name with which neither is done is *plain* (`Act.plainAll`).

What drafting knows is read off the acts from the other side than in `Act.gives_runsAll`: of what it knows after a
run, it knew before or the acts give it a value for certain (`Act.known_runs`). A memory on the way holds a value for
every local that has one in the scope in which drafting was at that point (`Memory.Holds`), and so do the locals
around each closure (`Memory.Valued`). -/

namespace Monomorph

open Scope (stack)

/-! ### Ways to a point of a body -/

/-- A way through acts, from one memory, arrives at another memory with acts still to be done: in the body itself, in
an arm or a right operand, or in a closure that runs meanwhile. -/
inductive Act.Arrives : Memory → List Act → Memory → List Act → Prop where
  | here {m : Memory} {acts : List Act} : Arrives m acts m acts
  | read {m m' : Memory} {n : String} {type : TypeVar} {rest acts' : List Act} (h : Arrives m rest m' acts') :
      Arrives m (.read n type :: rest) m' acts'
  | assign {m m' : Memory} {n : String} {type : TypeVar} {rest acts' : List Act}
      (h : Arrives (m.give n) rest m' acts') : Arrives m (.assign n type :: rest) m' acts'
  | declare {m m' : Memory} {n : String} {l : Local} {rest acts' : List Act}
      (h : Arrives (m.declare n l) rest m' acts') : Arrives m (.declare n l :: rest) m' acts'
  /-- After a body has given back, closures may still run. -/
  | giveBack {m m' : Memory} {rest acts' : List Act} (h : Arrives m [] m' acts') :
      Arrives m (.giveBack :: rest) m' acts'
  | unwrap {m m' : Memory} {rest acts' : List Act} (h : Arrives m rest m' acts') :
      Arrives m (.unwrap :: rest) m' acts'
  | unwrapOther {m m' : Memory} {rest acts' : List Act} (h : Arrives m [] m' acts') :
      Arrives m (.unwrap :: rest) m' acts'
  | inRight {m m' : Memory} {right rest acts' : List Act} (h : Arrives m right m' acts') :
      Arrives m (.perhaps right :: rest) m' acts'
  | evaluate {m m₁ m' : Memory} {right rest acts' : List Act} (hright : Way m right m₁ true)
      (h : Arrives m₁ rest m' acts') : Arrives m (.perhaps right :: rest) m' acts'
  | skip {m m' : Memory} {right rest acts' : List Act}
      (h : Arrives (m.reserve (declaredAll right)) rest m' acts') : Arrives m (.perhaps right :: rest) m' acts'
  | inArm {m m' : Memory} {arms : List (List Act)} {arm rest acts' : List Act} (hmem : arm ∈ arms)
      (h : Arrives m arm m' acts') : Arrives m (.branch arms :: rest) m' acts'
  | arm {m m₁ m' : Memory} {arms : List (List Act)} {arm rest acts' : List Act} (hmem : arm ∈ arms)
      (harm : Way m arm m₁ true) (h : Arrives (m₁.seeing m.visible) rest m' acts') :
      Arrives m (.branch arms :: rest) m' acts'
  | closure {m m' : Memory} {returns : TypeVar} {captures : Row TypeVar} {body rest acts' : List Act}
      (h : Arrives (m.make body) rest m' acts') : Arrives m (.closure returns captures body :: rest) m' acts'
  | inApart {m m' : Memory} {inside rest acts' : List Act} (h : Arrives (m.seeing []) inside m' acts') :
      Arrives m (.apart inside :: rest) m' acts'
  | apart {m m₁ m' : Memory} {inside rest acts' : List Act} {g : Bool} (hinside : Way (m.seeing []) inside m₁ g)
      (h : Arrives (m₁.seeing m.visible) rest m' acts') : Arrives m (.apart inside :: rest) m' acts'
  | inCall {m m' : Memory} {visible : List (String × Nat)} {body acts acts' : List Act}
      (hmem : (visible, body) ∈ m.closures) (h : Arrives (m.seeing visible) body m' acts') : Arrives m acts m' acts'
  | call {m m₁ m' : Memory} {visible : List (String × Nat)} {body acts acts' : List Act} {g : Bool}
      (hmem : (visible, body) ∈ m.closures) (hbody : Way (m.seeing visible) body m₁ g)
      (h : Arrives (m₁.seeing m.visible) acts m' acts') : Arrives m acts m' acts'

namespace Act

/-! ### Plain names -/

/-- Whether acts in order declare a local of the name, in the block around. -/
def declares (n : String) (acts : List Act) : Bool := (declaredAll acts).any fun e => e.1 == n

/-- Whether they declare one without a value. -/
def bares (n : String) (acts : List Act) : Bool := (declaredAll acts).any fun e => e.1 == n && !e.2.initialized

/-- Whether acts in order give a value to a local from outside for certain, and declare the name without one later. -/
def restates (n : String) : List Act → Bool
  | [] => false
  | a :: rest => if gives n a then bares n rest else !declares n [a] && restates n rest

mutual

/-- Whether no block restates the name, and no right operand that may be skipped gives it a value, declares it or
always gives back. -/
def plain (n : String) : Act → Bool
  | .perhaps right => !returnsAll right && !givesAll n right && !declares n right && plainAll n right
  | .branch arms => plainArms n arms
  | .closure _ _ body => !restates n body && plainAll n body
  | .apart inside => !restates n inside && plainAll n inside
  | .read .. | .assign .. | .declare .. | .giveBack | .unwrap => true

def plainAll (n : String) : List Act → Bool
  | [] => true
  | a :: rest => plain n a && plainAll n rest

def plainArms (n : String) : List (List Act) → Bool
  | [] => true
  | arm :: rest => (!restates n arm && plainAll n arm) && plainArms n rest

end

variable {n : String} {a : Act} {acts rest right : List Act}

theorem declares_eq_false : declares n acts = false ↔ n ∉ (declaredAll acts).map (·.1) := by
  rw [declares, List.any_eq_false, List.mem_map]
  simp only [beq_iff_eq, not_exists, not_and]

theorem declares_cons (h : declares n (a :: rest) = false) : declares n [a] = false ∧ declares n rest = false := by
  simp only [declares, declaredAll, List.nil_append, List.any_append, Bool.or_eq_false_iff] at h ⊢
  exact h.symm

theorem bares_of_declares (h : declares n acts = false) : bares n acts = false := by
  simp only [declares, bares, List.any_eq_false, Bool.and_eq_true] at h ⊢
  exact fun e he hbare => h e he hbare.1

theorem bares_cons (h : bares n (a :: rest) = false) : bares n [a] = false ∧ bares n rest = false := by
  simp only [bares, declaredAll, List.nil_append, List.any_append, Bool.or_eq_false_iff] at h ⊢
  exact h.symm

/-- What declares nothing without a value restates nothing. -/
theorem restates_of_bares (h : bares n acts = false) : restates n acts = false := by
  induction acts with
  | nil => rfl
  | cons a rest ih =>
    obtain ⟨-, hrest⟩ := bares_cons h
    rw [restates]
    split
    · exact hrest
    · rw [ih hrest, Bool.and_false]

theorem plainArms_iff {arms : List (List Act)} :
    plainArms n arms = true ↔ ∀ arm ∈ arms, restates n arm = false ∧ plainAll n arm = true := by
  induction arms with
  | nil => simp [plainArms]
  | cons arm rest ih => simp [plainArms, ih]

theorem plain_perhaps (h : plain n (.perhaps right) = true) :
    returnsAll right = false ∧ givesAll n right = false ∧ declares n right = false ∧ plainAll n right = true := by
  simpa [plain, and_assoc] using h

mutual

theorem steady_of_plain : (a : Act) → plain n a = true → steady a = true
  | .perhaps right, h => by
    obtain ⟨hreturns, -, -, hright⟩ := plain_perhaps h
    simp [steady, hreturns, steadyAll_of_plainAll right hright]
  | .branch arms, h => steadyArms_of_plainArms arms h
  | .read .., _ | .assign .., _ | .declare .., _ | .giveBack, _ | .unwrap, _ | .closure .., _ | .apart _, _ => rfl

theorem steadyAll_of_plainAll : (acts : List Act) → plainAll n acts = true → steadyAll acts = true
  | [], _ => rfl
  | a :: rest, h => by
    obtain ⟨ha, hrest⟩ := Bool.and_eq_true_iff.1 h
    exact Bool.and_eq_true_iff.2 ⟨steady_of_plain a ha, steadyAll_of_plainAll rest hrest⟩

theorem steadyArms_of_plainArms : (arms : List (List Act)) → plainArms n arms = true → steadyArms arms = true
  | [], _ => rfl
  | arm :: rest, h => by
    obtain ⟨harm, hrest⟩ := Bool.and_eq_true_iff.1 h
    exact Bool.and_eq_true_iff.2
      ⟨steadyAll_of_plainAll arm (Bool.and_eq_true_iff.1 harm).2, steadyArms_of_plainArms rest hrest⟩

end

end Act

/-! ### What drafting comes to know -/

namespace Block

variable {b : Block} {n x : String}

theorem initialize_ne (b : Block) (h : x ≠ n) :
    ( b.initialize x).locals.get? n = b.locals.get? n ∧
      Row.contains ( b.initialize x).initializes n = Row.contains b.initializes n := by
  unfold Block.initialize
  split
  · exact ⟨by rw [Row.get?_insert, if_neg h], rfl⟩
  · exact ⟨rfl, Bool.eq_iff_iff.2 ((NameSet.contains_add _ _ _).trans (or_iff_right h))⟩

/-- A value of a local of the block itself is not noted as one from outside. -/
theorem initialize_local {l : Local} (hl : b.locals.get? n = some l) :
    Row.contains ( b.initialize x).initializes n = Row.contains b.initializes n := by
  by_cases hx : x = n
  · subst hx
    simp [ Block.initialize, hl]
  · exact (b.initialize_ne hx).2

theorem initializeAll_not_mem {names : List String} (h : n ∉ names) (b : Block) :
    (names.foldl Block.initialize b).locals.get? n = b.locals.get? n ∧
      Row.contains (names.foldl Block.initialize b).initializes n = Row.contains b.initializes n := by
  induction names generalizing b with
  | nil => exact ⟨rfl, rfl⟩
  | cons x names ih =>
    rw [List.mem_cons, not_or] at h
    obtain ⟨hx, hnames⟩ := h
    obtain ⟨hlocals, hinitializes⟩ := b.initialize_ne (Ne.symm hx)
    obtain ⟨hlocals', hinitializes'⟩ := ih hnames ( b.initialize x)
    exact ⟨hlocals'.trans hlocals, hinitializes'.trans hinitializes⟩

theorem initializeAll_local {l : Local} (names : List String) (hl : b.locals.get? n = some l) :
    Row.contains (names.foldl Block.initialize b).initializes n = Row.contains b.initializes n := by
  induction names generalizing b l with
  | nil => rfl
  | cons x names ih =>
    have hlocal := (b.initialized_evolves x).locals n
    rw [hl, List.lookup_nil, Option.none_or] at hlocal
    generalize hx : ( b.initialize x).locals.get? n = y at hlocal
    cases hlocal with
    | some _ => exact (ih hx).trans (initialize_local hl)

/-- Where a block has no local of the name, it had none before, and none was declared. -/
theorem Evolves.not_local {b' : Block} {declared : List (String × Local)} {returns : Bool}
    (h : b.Evolves declared returns b') (hl : b'.locals.get? n = none) :
    n ∉ declared.map (·.1) ∧ b.locals.get? n = none := by
  have hsame := h.locals n
  rw [hl] at hsame
  generalize hbefore : (declared.lookup n).or (b.locals.get? n) = x at hsame
  cases hsame
  obtain ⟨hdeclared, hlocal⟩ := Option.or_eq_none_iff.1 hbefore
  refine ⟨fun hmem => ?_, hlocal⟩
  obtain ⟨e, he, rfl⟩ := List.mem_map.1 hmem
  simpa using List.lookup_eq_none_iff.1 hdeclared e he

end Block

namespace Scope

variable {s s' : Scope} {b b' : Block} {bs : List Block} {rest : List (List Block)} {n : String}

/-- What a name means in a block is said by its local of the name and its note about the name. -/
theorem sight_eq_of_block (hs : s.stack = (b :: bs) :: rest) (hs' : s'.stack = (b' :: bs) :: rest)
    (hlocals : b'.locals.get? n = b.locals.get? n)
    (hinitializes : Row.contains b'.initializes n = Row.contains b.initializes n) : s'.sight n = s.sight n := by
  obtain ⟨t, ht⟩ := exists_outer bs rest
  rw [sight_stack hs ht, sight_stack hs' ht, hlocals, hinitializes]

/-- What is known after a branch, every arm that goes on knows, and there is one. -/
theorem of_mem_commonInitializes {arms : List Block} (h : n ∈ (commonInitializes arms).names) :
    arms.all Block.alwaysReturns = false ∧
      ∀ arm ∈ arms, arm.alwaysReturns = false → Row.contains arm.initializes n = true := by
  have hcommon := (Row.mem_names_iff _).1 h
  unfold commonInitializes at hcommon
  split at hcommon
  · cases hcommon
  · rename_i first others hgoing
    obtain ⟨value, hvalue⟩ := (Row.contains_iff _).1 hcommon
    obtain ⟨hfirst, hothers⟩ := (Row.get?_filter_eq_some_iff _ _).1 hvalue
    have hmem (arm : Block) : arm ∈ first :: others ↔ arm ∈ arms ∧ arm.alwaysReturns = false := by
      rw [← hgoing, List.mem_filter]
      simp
    refine ⟨List.all_eq_false.2 ⟨first, ?_⟩, fun arm harm hreturns => ?_⟩
    · obtain ⟨hin, hreturns⟩ := (hmem first).1 List.mem_cons_self
      exact ⟨hin, by simp [hreturns]⟩
    · rcases List.mem_cons.1 ((hmem arm).2 ⟨harm, hreturns⟩) with rfl | hother
      · exact (Row.contains_iff _).2 ⟨value, hfirst⟩
      · exact List.all_eq_true.1 hothers arm hother

end Scope

namespace Act

variable {r : Records} {n : String}

theorem stack_closure {returns : TypeVar} {captures : Row TypeVar} {body : List Act} {s s' : Scope}
    (h : Runs r (.closure returns captures body) s s') : stack s' = stack s := by
  obtain ⟨f, hbody, -⟩ := h
  obtain ⟨b, hs, -⟩ := evolves_runsAll body hbody (show stack (s.begin returns) = [.empty] :: stack s from rfl)
  exact (List.cons.inj hs).2

mutual

/-- What a block notes of a local from outside after a run, it noted before, or the acts give it a value for
certain. -/
theorem noted_runs : (a : Act) → ∀ {s s' b b' bs rest}, Runs r a s s' → stack s = (b :: bs) :: rest →
    stack s' = (b' :: bs) :: rest → Row.contains b'.initializes n = true →
    Row.contains b.initializes n = true ∨ b.locals.get? n = none ∧ gives n a = true
  | .read m type, s, s', b, b', bs, rest, ⟨span, h⟩, hs, hs', hb' => by
    obtain ⟨v, -, -, -, hstack⟩ := Scope.access_stack hs h
    obtain rfl : b = b' := by simpa using hstack.symm.trans hs'
    exact .inl hb'
  | .assign m type, s, s', b, b', bs, rest, ⟨span, h⟩, hs, hs', hb' => by
    obtain ⟨v, -, -, -, hstack⟩ := Scope.access_stack hs h
    obtain rfl := (List.cons.inj (List.cons.inj (hstack.symm.trans hs')).1).1
    split at hb'
    · cases hl : b.locals.get? n with
      | some l => exact .inl (Block.initialize_local hl ▸ hb')
      | none =>
        by_cases hm : m = n
        · exact .inr ⟨rfl, by simp [gives, hm]⟩
        · exact .inl ((b.initialize_ne hm).2 ▸ hb')
    · exact .inl hb'
  | .declare m l, s, s', b, b', bs, rest, h, hs, hs', hb' => by
    rw [Runs] at h
    have hstack := Scope.stack_modifyBlock hs fun b => b.declare m l
    obtain rfl := (List.cons.inj (List.cons.inj (hstack.symm.trans (h ▸ hs'))).1).1
    exact .inl hb'
  | .giveBack, s, s', b, b', bs, rest, h, hs, hs', hb' => by
    rw [Runs] at h
    have hstack := Scope.stack_modifyBlock hs fun b => { b with alwaysReturns := true }
    obtain rfl := (List.cons.inj (List.cons.inj (hstack.symm.trans (h ▸ hs'))).1).1
    exact .inl hb'
  | .unwrap, s, s', b, b', bs, rest, h, hs, hs', hb' => by
    rw [Runs] at h
    obtain rfl := (List.cons.inj (List.cons.inj (hs.symm.trans (h ▸ hs'))).1).1
    exact .inl hb'
  | .perhaps right, s, s', b, b', bs, rest, h, hs, hs', hb' => noted_runsAll right h hs hs' hb'
  | .branch arms, s, s', b, b', bs, rest, h, hs, hs', hb' => by
    obtain ⟨s₁, blocks, harms, rfl⟩ := h
    have hstack := Scope.stack_modifyBlock (evolves_runsArms arms harms hs).1 (fun block =>
      let block := (Scope.commonInitializes blocks).names.foldl Block.initialize block
      { block with alwaysReturns := block.alwaysReturns || blocks.all Block.alwaysReturns })
    obtain rfl := (List.cons.inj (List.cons.inj (hstack.symm.trans hs')).1).1
    cases hl : b.locals.get? n with
    | some l => exact .inl (Block.initializeAll_local _ hl ▸ hb')
    | none =>
      by_cases hmem : n ∈ (Scope.commonInitializes blocks).names
      · exact .inr ⟨rfl, gives_of_common arms harms hs hmem⟩
      · exact .inl ((Block.initializeAll_not_mem hmem b).2 ▸ hb')
  | .closure returns captures body, s, s', b, b', bs, rest, h, hs, hs', hb' => by
    rw [stack_closure h] at hs'
    obtain rfl := (List.cons.inj (List.cons.inj (hs.symm.trans hs')).1).1
    exact .inl hb'
  | .apart inside, s, s', b, b', bs, rest, h, hs, hs', hb' => by
    obtain rfl := (List.cons.inj (List.cons.inj (hs.symm.trans (h.1 ▸ hs'))).1).1
    exact .inl hb'

theorem noted_runsAll : (acts : List Act) → ∀ {s s' b b' bs rest}, RunsAll r acts s s' →
    stack s = (b :: bs) :: rest → stack s' = (b' :: bs) :: rest → Row.contains b'.initializes n = true →
    Row.contains b.initializes n = true ∨ b.locals.get? n = none ∧ givesAll n acts = true
  | [], s, s', b, b', bs, rest, h, hs, hs', hb' => by
    rw [RunsAll] at h
    obtain rfl := (List.cons.inj (List.cons.inj (hs.symm.trans (h ▸ hs'))).1).1
    exact .inl hb'
  | a :: rest, s, s', b, b', bs, below, h, hs, hs', hb' => by
    obtain ⟨s₁, ha, hrest⟩ := h
    obtain ⟨b₁, hs₁, hb₁⟩ := evolves_runs a ha hs
    rcases noted_runsAll rest hrest hs₁ hs' hb' with hnoted | ⟨hlocal, hgives⟩
    · exact (noted_runs a ha hs hs₁ hnoted).imp_right fun ⟨hlocal, hgives⟩ => ⟨hlocal, by simp [givesAll, hgives]⟩
    · obtain ⟨hnot, hlocal⟩ := hb₁.not_local hlocal
      exact .inr ⟨hlocal, by simp [givesAll, hgives, hnot]⟩

theorem gives_of_common : (arms : List (List Act)) → ∀ {s blocks s' b bs rest}, RunsArms r arms s blocks s' →
    stack s = (b :: bs) :: rest → n ∈ (Scope.commonInitializes blocks).names → gives n (.branch arms) = true
  | arms, s, blocks, s', b, bs, rest, h, hs, hmem => by
    obtain ⟨hreturns, hall⟩ := Scope.of_mem_commonInitializes hmem
    rw [(evolves_runsArms arms h hs).2] at hreturns
    simp [gives, hreturns, noted_runsArms arms h hs hall]

theorem noted_runsArms : (arms : List (List Act)) → ∀ {s blocks s' b bs rest}, RunsArms r arms s blocks s' →
    stack s = (b :: bs) :: rest →
    (∀ block ∈ blocks, block.alwaysReturns = false → Row.contains block.initializes n = true) →
    givesArms n arms = true
  | [], s, blocks, s', b, bs, rest, h, hs, hall => rfl
  | arm :: rest, s, blocks, s', b, bs, below, h, hs, hall => by
    obtain ⟨s₁, others, harm, rfl, hrest⟩ := h
    obtain ⟨hfirst, hothers⟩ := List.forall_mem_cons.1 hall
    have henter := Scope.stack_enterBlock hs .empty
    obtain ⟨b₁, hs₁, hb₁⟩ := evolves_runsAll arm harm henter
    obtain ⟨hblock, hexit⟩ := Scope.stack_exitBlock hs₁
    rw [hblock] at hfirst
    refine Bool.and_eq_true_iff.2 ⟨?_, noted_runsArms rest hrest hexit hothers⟩
    have hreturns : b₁.alwaysReturns = returnsAll arm := hb₁.alwaysReturns
    cases hr : returnsAll arm with
    | true => rfl
    | false =>
      rcases noted_runsAll arm harm henter hs₁ (hfirst (hreturns.trans hr)) with hempty | ⟨-, hgives⟩
      · cases hempty
      · exact hgives

end

mutual

/-- A local that has a value after a run had one before, or the acts give it one for certain. -/
theorem known_runs : (a : Act) → ∀ {s s' b bs rest v}, Runs r a s s' → stack s = (b :: bs) :: rest →
    declares n [a] = false → Scope.sight s' n = some v → v.initialized = true →
    gives n a = true ∨ ∃ w, Scope.sight s n = some w ∧ w.initialized = true
  | .read m type, s, s', b, bs, rest, v, ⟨span, h⟩, hs, hnot, hv, hi => by
    obtain ⟨_, -, -, -, hstack⟩ := Scope.access_stack hs h
    exact .inr ⟨v, Scope.sight_congr (hs.trans hstack.symm) ▸ hv, hi⟩
  | .assign m type, s, s', b, bs, rest, v, ⟨span, h⟩, hs, hnot, hv, hi => by
    by_cases hm : m = n
    · exact .inl (by simp [gives, hm])
    · obtain ⟨_, -, -, -, hstack⟩ := Scope.access_stack hs h
      refine .inr ⟨v, (Scope.sight_eq_of_block hs hstack ?_ ?_).symm.trans hv, hi⟩
      · split
        · exact (b.initialize_ne hm).1
        · rfl
      · split
        · exact (b.initialize_ne hm).2
        · rfl
  | .declare m l, s, s', b, bs, rest, v, h, hs, hnot, hv, hi => by
    rw [Runs] at h
    subst h
    have hm : m ≠ n := by simpa [declares, declaredAll, declared] using hnot
    have hstack := Scope.stack_modifyBlock hs fun b => b.declare m l
    refine .inr ⟨v, (Scope.sight_eq_of_block hs hstack ?_ rfl).symm.trans hv, hi⟩
    rw [Block.declare, Row.get?_insert, if_neg hm]
  | .giveBack, s, s', b, bs, rest, v, h, hs, hnot, hv, hi => by
    rw [Runs] at h
    subst h
    have hstack := Scope.stack_modifyBlock hs fun b => { b with alwaysReturns := true }
    exact .inr ⟨v, (Scope.sight_eq_of_block hs hstack rfl rfl).symm.trans hv, hi⟩
  | .unwrap, s, s', b, bs, rest, v, h, hs, hnot, hv, hi => by
    rw [Runs] at h
    exact .inr ⟨v, h ▸ hv, hi⟩
  | .perhaps right, s, s', b, bs, rest, v, h, hs, hnot, hv, hi => by
    refine known_runsAll right h hs ?_ hv hi
    simpa [declares, declaredAll, declared] using hnot
  | .branch arms, s, s', b, bs, rest, v, h, hs, hnot, hv, hi => by
    obtain ⟨s₁, blocks, harms, rfl⟩ := h
    by_cases hmem : n ∈ (Scope.commonInitializes blocks).names
    · exact .inl (gives_of_common arms harms hs hmem)
    · have hstack := Scope.stack_modifyBlock (evolves_runsArms arms harms hs).1 (fun block =>
        let block := (Scope.commonInitializes blocks).names.foldl Block.initialize block
        { block with alwaysReturns := block.alwaysReturns || blocks.all Block.alwaysReturns })
      obtain ⟨hlocals, hinitializes⟩ := Block.initializeAll_not_mem hmem b
      exact .inr ⟨v, (Scope.sight_eq_of_block hs hstack hlocals hinitializes).symm.trans hv, hi⟩
  | .closure returns captures body, s, s', b, bs, rest, v, h, hs, hnot, hv, hi =>
    .inr ⟨v, Scope.sight_congr (stack_closure h) ▸ hv, hi⟩
  | .apart inside, s, s', b, bs, rest, v, h, hs, hnot, hv, hi => .inr ⟨v, h.1 ▸ hv, hi⟩

theorem known_runsAll : (acts : List Act) → ∀ {s s' b bs rest v}, RunsAll r acts s s' →
    stack s = (b :: bs) :: rest → declares n acts = false → Scope.sight s' n = some v → v.initialized = true →
    givesAll n acts = true ∨ ∃ w, Scope.sight s n = some w ∧ w.initialized = true
  | [], s, s', b, bs, rest, v, h, hs, hnot, hv, hi => by
    rw [RunsAll] at h
    exact .inr ⟨v, h ▸ hv, hi⟩
  | a :: rest, s, s', b, bs, below, v, h, hs, hnot, hv, hi => by
    obtain ⟨s₁, ha, hrest⟩ := h
    obtain ⟨b₁, hs₁, -⟩ := evolves_runs a ha hs
    obtain ⟨hnotFirst, hnotRest⟩ := declares_cons hnot
    have hfirst : n ∉ (declared a).map (·.1) := by
      simpa [declaredAll] using declares_eq_false.1 hnotFirst
    rcases known_runsAll rest hrest hs₁ hnotRest hv hi with hgives | ⟨w₁, hw₁, hi₁⟩
    · exact .inl (by simp [givesAll, hgives, hfirst])
    · exact (known_runs a ha hs hnotFirst hw₁ hi₁).imp_left fun hgives => by simp [givesAll, hgives]

end

end Act

/-! ### Values that bindings have -/

namespace Memory

/-- The local of this number was given a value. -/
def Given (m : Memory) (i : Nat) : Prop := ∃ b : Binding, m.bindings[i]? = some b ∧ 1 ≤ b.given

/-- Bindings are only added, and none loses a value. -/
def Gains (m m' : Memory) : Prop :=
  ∀ (i : Nat) (b : Binding), m.bindings[i]? = some b → ∃ b' : Binding, m'.bindings[i]? = some b' ∧ b.given ≤ b'.given

variable {m m₁ m' : Memory} {n : String}

theorem Gains.of_extends (h : m.bindings <+: m'.bindings) : m.Gains m' := fun _ b hb => by
  obtain ⟨new, hnew⟩ := h
  exact ⟨b, hnew ▸ List.getElem?_append_left (List.getElem?_eq_some_iff.1 hb).1 ▸ hb, Nat.le_refl _⟩

theorem Gains.trans (h : m.Gains m₁) (h' : m₁.Gains m') : m.Gains m' := fun i b hb => by
  obtain ⟨b₁, hb₁, hle⟩ := h i b hb
  obtain ⟨b', hb', hle'⟩ := h' i b₁ hb₁
  exact ⟨b', hb', Nat.le_trans hle hle'⟩

theorem Given.gains {i : Nat} (h : m.Given i) (hgains : m.Gains m') : m'.Given i := by
  obtain ⟨b, hb, hgiven⟩ := h
  obtain ⟨b', hb', hle⟩ := hgains i b hb
  exact ⟨b', hb', Nat.le_trans hgiven hle⟩

theorem give_gains (m : Memory) (name : String) : m.Gains (m.give name) := fun i b hb => by
  rw [give_getElem?, hb]
  refine ⟨_, rfl, ?_⟩
  split
  · exact Nat.le_succ _
  · exact Nat.le_refl _

theorem reserve_closures (m : Memory) (locals : List (String × Local)) :
    (m.reserve locals).closures = m.closures := by
  induction locals with
  | nil => rfl
  | cons e locals ih => exact ih

theorem give_given {i : Nat} {b : Binding} (hi : m.visible.lookup n = some i) (hb : m.bindings[i]? = some b) :
    (m.give n).Given i := by
  refine ⟨{ b with given := b.given + 1 }, ?_, Nat.succ_le_succ (Nat.zero_le _)⟩
  rw [give_getElem?, hb, Option.map_some, if_pos hi]

end Memory

namespace Act

variable {m m' : Memory} {acts : List Act} {g : Bool} {n : String}

theorem Way.gains (h : Way m acts m' g) : m.Gains m' := by
  induction h with
  | done => exact .of_extends List.prefix_rfl
  | read _ ih | giveBack _ ih | unwrap _ ih | unwrapOther _ ih | evaluateBack _ ih | armBack _ _ ih => exact ih
  | assign _ ih => exact (Memory.give_gains _ _).trans ih
  | declare _ ih => exact (Memory.Gains.of_extends (Memory.declare_extends _ _ _)).trans ih
  | evaluate _ _ ihright ih => exact ihright.trans ih
  | skip _ ih => exact (Memory.Gains.of_extends (Memory.reserve_extends _ _)).trans ih
  | arm _ _ _ ihinside ih | apart _ _ ihinside ih | call _ _ _ ihinside ih => exact ihinside.trans ih
  | closure _ ih => exact ih

/-- What is given a value, and not by the first act, is given one by the others, and the first declares no other one. -/
theorem givesAll_rest {a : Act} {rest : List Act} (h : givesAll n (a :: rest) = true) (ha : Act.gives n a = false) :
    n ∉ (declared a).map (·.1) ∧ givesAll n rest = true := by
  rw [givesAll, ha, Bool.false_or, Bool.and_eq_true_iff] at h
  simpa using h

/-- What acts give a value to for certain has one on every way to their end. -/
theorem Way.gives (h : Way m acts m' g) (hg : g = true) (hplain : plainAll n acts = true)
    (hgives : givesAll n acts = true) {i : Nat} {b : Binding} (hi : m.visible.lookup n = some i)
    (hb : m.bindings[i]? = some b) : m'.Given i := by
  induction h generalizing b with
  | done => cases hgives
  | giveBack | unwrapOther | evaluateBack | armBack => cases hg
  | read _ ih | unwrap _ ih | closure _ ih =>
    exact ih hg (Bool.and_eq_true_iff.1 hplain).2 (givesAll_rest hgives rfl).2 hi hb
  | @assign m _ x _ _ _ h ih =>
    by_cases hx : x = n
    · subst hx
      exact (Memory.give_given hi hb).gains h.gains
    · obtain ⟨b₁, hb₁, -⟩ := m.give_gains x i b hb
      have hrest := (givesAll_rest hgives (beq_eq_false_iff_ne.2 hx)).2
      exact ih hg (Bool.and_eq_true_iff.1 hplain).2 hrest (by rwa [m.give_visible]) hb₁
  | @declare m _ x l _ _ _ ih =>
    obtain ⟨hx, hrest⟩ := givesAll_rest hgives rfl
    obtain ⟨b₁, hb₁, -⟩ := Memory.Gains.of_extends (m.declare_extends x l) i b hb
    exact ih hg (Bool.and_eq_true_iff.1 hplain).2 hrest (((m.declare_opens x l).lookup_eq hx).trans hi) hb₁
  | @evaluate m m₁ _ right _ _ hright _ _ ih =>
    obtain ⟨hfirst, hplain⟩ := Bool.and_eq_true_iff.1 hplain
    obtain ⟨hx, hrest⟩ := givesAll_rest hgives (plain_perhaps hfirst).2.1
    obtain ⟨b₁, hb₁, -⟩ := hright.gains i b hb
    exact ih hg hplain hrest (((hright.opens rfl).lookup_eq hx).trans hi) hb₁
  | @skip m _ right _ _ _ ih =>
    obtain ⟨hfirst, hplain⟩ := Bool.and_eq_true_iff.1 hplain
    obtain ⟨hx, hrest⟩ := givesAll_rest hgives (plain_perhaps hfirst).2.1
    obtain ⟨b₁, hb₁, -⟩ := Memory.Gains.of_extends (m.reserve_extends (declaredAll right)) i b hb
    exact ih hg hplain hrest (((m.reserve_opens _).lookup_eq hx).trans hi) hb₁
  | @arm m m₁ _ arms arm rest _ hmem harm h iharm ih =>
    obtain ⟨hfirst, hplain⟩ := Bool.and_eq_true_iff.1 hplain
    cases hbranch : Act.gives n (.branch arms) with
    | true =>
      obtain ⟨-, hplainArm⟩ := plainArms_iff.1 hfirst arm hmem
      have hreturns : returnsAll arm = false := harm.goesOn rfl (steadyAll_of_plainAll arm hplainArm)
      have harmGives := givesArms_iff.1 (Bool.and_eq_true_iff.1 hbranch).2 arm hmem hreturns
      have hgains : m₁.Gains _ := h.gains
      exact (iharm rfl hplainArm harmGives hi hb).gains hgains
    | false =>
      obtain ⟨b₁, hb₁, -⟩ := harm.gains i b hb
      exact ih hg hplain (givesAll_rest hgives hbranch).2 hi hb₁
  | apart hinside _ _ ih =>
    obtain ⟨b₁, hb₁, -⟩ := hinside.gains i b hb
    exact ih hg (Bool.and_eq_true_iff.1 hplain).2 (givesAll_rest hgives rfl).2 hi hb₁
  | call _ hbody _ _ ih =>
    obtain ⟨b₁, hb₁, -⟩ := hbody.gains i b hb
    exact ih hg hplain hgives hi hb₁

end Act

/-! ### Memories and scopes -/

open Act (RunsAll restates plainAll)

namespace Memory

/-- The name means a local in the memory if it means one in the scope, and if drafting knows of a value of it, it was
given one. -/
def Holds (m : Memory) (s : Scope) (n : String) : Prop :=
  ∀ v, s.sight n = some v → ∃ (i : Nat) (b : Binding), m.visible.lookup n = some i ∧ m.bindings[i]? = some b ∧
    (v.initialized = true → m.Given i)

/-- Every closure is plain, and was drafted in a scope that is held where the closure was made. -/
def Valued (r : Records) (n : String) (m : Memory) : Prop :=
  ∀ f ∈ m.closures, ∃ (s : Scope) (returns : TypeVar) (s' : Scope), RunsAll r f.2 (s.begin returns) s' ∧
    restates n f.2 = false ∧ plainAll n f.2 = true ∧ (m.seeing f.1).Holds (s.begin returns) n

variable {r : Records} {n : String} {m m₁ m' : Memory} {s s₁ s' : Scope}

/-- What a scope holds is held later on, if what is known since was given a value. -/
theorem Holds.later (h : m.Holds s n) (hgains : m.Gains m') (hvisible : m'.visible.lookup n = m.visible.lookup n)
    (hs : s.Carries s' n)
    (hknown : ∀ v, s'.sight n = some v → v.initialized = true →
      (∀ (i : Nat) (b : Binding), m.visible.lookup n = some i → m.bindings[i]? = some b → m'.Given i) ∨
        ∃ w, s.sight n = some w ∧ w.initialized = true) : m'.Holds s' n := by
  intro v hv
  obtain ⟨w, hw, -⟩ := hs v hv
  obtain ⟨i, b, hi, hb, hgiven⟩ := h w hw
  obtain ⟨b', hb', -⟩ := hgains i b hb
  refine ⟨i, b', hvisible.trans hi, hb', fun hv₁ => ?_⟩
  rcases hknown v hv hv₁ with hnew | ⟨w', hw', hw₁⟩
  · exact hnew i b hi hb
  · obtain rfl := Option.some.inj (hw.symm.trans hw')
    exact (hgiven hw₁).gains hgains

/-- What a scope holds is held later on where drafting knows no more than before. -/
theorem Holds.gains (h : m.Holds s n) (hgains : m.Gains m') (hvisible : m'.visible.lookup n = m.visible.lookup n) :
    m'.Holds s n :=
  h.later hgains hvisible (.of_stack rfl) fun v hv hi => .inr ⟨v, hv, hi⟩

theorem Holds.begin (h : m.Holds s n) (returns : TypeVar) : m.Holds (s.begin returns) n := by
  intro v hv
  rw [Scope.sight_begin] at hv
  obtain ⟨w, hw, rfl⟩ := Option.map_eq_some_iff.1 hv
  exact h w hw

/-- No local is visible at the beginning of a procedure. -/
theorem holds_nil (m : Memory) (returns : TypeVar) : m.Holds (Scope.begin returns []) n := by
  intro v hv
  rw [Scope.sight_begin] at hv
  cases hv

theorem Holds.enterBlock (h : m.Holds s n) {b : Block} {bs : List Block} {rest : List (List Block)}
    (hs : stack s = (b :: bs) :: rest) : m.Holds (s.enterBlock .empty) n := by
  intro v hv
  rw [Scope.sight_enterBlock hs] at hv
  obtain ⟨w, hw, rfl⟩ := Option.map_eq_some_iff.1 hv
  obtain ⟨i, b, hi, hb, hgiven⟩ := h w hw
  exact ⟨i, b, hi, hb, fun hv₁ => hgiven (by simpa [Scope.Sighting.under] using hv₁)⟩

theorem Valued.later (h : m.Valued r n) (hgains : m.Gains m') (hclosures : m'.closures = m.closures) :
    m'.Valued r n := fun f hf => by
  obtain ⟨s, returns, s', hruns, hrestates, hplain, hholds⟩ := h f (hclosures ▸ hf)
  exact ⟨s, returns, s', hruns, hrestates, hplain, hholds.gains hgains rfl⟩

theorem Valued.make (h : m.Valued r n) (hholds : m.Holds s n) {returns : TypeVar} {body : List Act} {s' : Scope}
    (hbody : RunsAll r body (s.begin returns) s') (hrestates : restates n body = false)
    (hplain : plainAll n body = true) : (m.make body).Valued r n :=
  List.forall_mem_cons.2 ⟨⟨s, returns, s', hbody, hrestates, hplain, hholds.begin returns⟩, h⟩

end Memory

namespace Act

/-- A point on a way through acts that were drafted: the acts are plain, the memory holds the scope, and what the
innermost block notes stays true in the rest of the block. -/
structure Begins (r : Records) (n : String) (m : Memory) (s : Scope) (acts : List Act) : Prop where
  block : ∃ b bs below, stack s = (b :: bs) :: below ∧
    (Row.contains b.initializes n = true → bares n acts = false) ∧
    (b.locals.get? n = none → restates n acts = false)
  plain : plainAll n acts = true
  valued : m.Valued r n
  holds : m.Holds s n

variable {r : Records} {n : String} {m m₁ m' : Memory} {s s₁ s' : Scope} {a : Act} {acts rest : List Act} {g : Bool}

theorem Begins.next (h : Begins r n m s (a :: rest)) (ha : Runs r a s s₁) (hvalued : m₁.Valued r n)
    (hholds : m₁.Holds s₁ n) : Begins r n m₁ s₁ rest := by
  obtain ⟨b, bs, below, hs, hnoted, hlocal⟩ := h.block
  obtain ⟨b₁, hs₁, hb₁⟩ := evolves_runs a ha hs
  refine ⟨⟨b₁, bs, below, hs₁, fun hb => ?_, fun hl => ?_⟩, (Bool.and_eq_true_iff.1 h.plain).2, hvalued, hholds⟩
  · rcases noted_runs a ha hs hs₁ hb with hbefore | ⟨hnone, hgives⟩
    · exact (bares_cons (hnoted hbefore)).2
    · simpa [restates, hgives] using hlocal hnone
  · obtain ⟨hnot, hnone⟩ := hb₁.not_local hl
    have hrestates := hlocal hnone
    have hdeclares : declares n [a] = false := declares_eq_false.2 (by simpa [declaredAll] using hnot)
    rw [restates, hdeclares] at hrestates
    split at hrestates
    · exact restates_of_bares hrestates
    · exact hrestates

/-- What is held after an act that does not declare the name. -/
theorem Begins.holds_next (h : Begins r n m s (a :: rest)) (ha : Runs r a s s₁) (hnot : n ∉ (declared a).map (·.1))
    (hgains : m.Gains m₁) (hvisible : m₁.visible.lookup n = m.visible.lookup n)
    (hgiven : gives n a = true → ∀ (i : Nat) (b : Binding), m.visible.lookup n = some i → m.bindings[i]? = some b →
      m₁.Given i) : m₁.Holds s₁ n := by
  obtain ⟨b, bs, below, hs, -⟩ := h.block
  obtain ⟨b₁, hs₁, hb₁⟩ := evolves_runs a ha hs
  refine h.holds.later hgains hvisible (Scope.carries_evolves hs hs₁ hb₁ (lookup_declared hnot)) fun v hv hi => ?_
  refine (known_runs a ha hs (declares_eq_false.2 ?_) hv hi).imp_left hgiven
  simpa [declaredAll] using hnot

/-- The point after an act that declares nothing and gives no value. -/
theorem Begins.still (h : Begins r n m s (a :: rest)) (ha : Runs r a s s₁) (hdeclared : declared a = [])
    (hgives : gives n a = false) : Begins r n m s₁ rest :=
  h.next ha h.valued (h.holds_next ha (by simp [hdeclared]) (.of_extends List.prefix_rfl) rfl
    fun hg => absurd (hgives.symm.trans hg) Bool.false_ne_true)

theorem Begins.assign {x : String} {type : TypeVar} (h : Begins r n m s (.assign x type :: rest))
    (ha : Runs r (.assign x type) s s₁) : Begins r n (m.give x) s₁ rest := by
  refine h.next ha (h.valued.later (m.give_gains x) (m.give_closures x)) ?_
  refine h.holds_next ha List.not_mem_nil (m.give_gains x) (by rw [m.give_visible]) fun hx i b hi hb => ?_
  obtain rfl : x = n := eq_of_beq hx
  exact Memory.give_given hi hb

theorem Begins.declare {x : String} {l : Local} (h : Begins r n m s (.declare x l :: rest))
    (ha : Runs r (.declare x l) s s₁) : Begins r n (m.declare x l) s₁ rest := by
  have hgains : m.Gains (m.declare x l) := .of_extends (m.declare_extends x l)
  refine h.next ha (h.valued.later hgains rfl) ?_
  by_cases hx : n = x
  · subst hx
    obtain ⟨b, bs, below, hs, hnoted, -⟩ := h.block
    obtain ⟨t, ht⟩ := Scope.exists_outer bs below
    rw [Runs] at ha
    subst ha
    intro v hv
    have hlocal : (b.declare n l).locals.get? n = some l := by rw [Block.declare, Row.get?_insert, if_pos rfl]
    rw [Scope.sight_stack (Scope.stack_modifyBlock hs _) ht, hlocal] at hv
    obtain rfl := Option.some.inj hv
    obtain ⟨hi, hb⟩ := Memory.declare_lookup m n l
    refine ⟨_, _, hi, hb, fun hknown => ?_⟩
    have hinitialized : l.initialized = true := by
      rcases Bool.or_eq_true_iff.1 hknown with hbefore | hl
      · have hbare := (bares_cons (hnoted hbefore)).1
        simpa [bares, declaredAll, declared] using hbare
      · exact hl
    exact ⟨_, hb, by simp [hinitialized]⟩
  · have hnot : n ∉ (declared (.declare x l)).map (·.1) := by simpa [declared] using hx
    exact h.holds_next ha hnot hgains ((m.declare_opens x l).lookup_eq hnot) nofun

theorem Begins.right {right : List Act} (h : Begins r n m s (.perhaps right :: rest)) : Begins r n m s right := by
  obtain ⟨b, bs, below, hs, -⟩ := h.block
  obtain ⟨-, -, hdeclares, hplain⟩ := plain_perhaps (Bool.and_eq_true_iff.1 h.plain).1
  have hbares := bares_of_declares hdeclares
  exact ⟨⟨b, bs, below, hs, fun _ => hbares, fun _ => restates_of_bares hbares⟩, hplain, h.valued, h.holds⟩

theorem Begins.skip {right : List Act} (h : Begins r n m s (.perhaps right :: rest))
    (ha : Runs r (.perhaps right) s s₁) : Begins r n (m.reserve (declaredAll right)) s₁ rest := by
  obtain ⟨-, hgives, hdeclares, -⟩ := plain_perhaps (Bool.and_eq_true_iff.1 h.plain).1
  have hnot := declares_eq_false.1 hdeclares
  have hgains : m.Gains (m.reserve (declaredAll right)) := .of_extends (m.reserve_extends _)
  refine h.next ha (h.valued.later hgains ?_) (h.holds_next ha hnot hgains ((m.reserve_opens _).lookup_eq hnot) ?_)
  · exact m.reserve_closures _
  · exact fun hg => absurd (hgives.symm.trans hg) Bool.false_ne_true

theorem Begins.arm {arms : List (List Act)} {arm : List Act} (h : Begins r n m s (.branch arms :: rest))
    (hmem : arm ∈ arms) (hs : stack s₁ = stack s) : Begins r n m (s₁.enterBlock .empty) arm := by
  obtain ⟨b, bs, below, hstack, -⟩ := h.block
  obtain ⟨hrestates, hplain⟩ := plainArms_iff.1 (Bool.and_eq_true_iff.1 h.plain).1 arm hmem
  have hinside : stack s₁ = (b :: bs) :: below := hs.trans hstack
  have hholds : m.Holds s₁ n := fun v hv => h.holds v (Scope.sight_congr hs ▸ hv)
  exact ⟨⟨.empty, b :: bs, below, Scope.stack_enterBlock hinside _, nofun, fun _ => hrestates⟩, hplain, h.valued,
    hholds.enterBlock hinside⟩

/-- The point after a branch, one of whose arms was taken. -/
theorem Begins.afterArm {arms : List (List Act)} {arm : List Act} (h : Begins r n m s (.branch arms :: rest))
    (ha : Runs r (.branch arms) s s₁) (hmem : arm ∈ arms) (hway : Way m arm m₁ true) (hvalued : m₁.Valued r n) :
    Begins r n (m₁.seeing m.visible) s₁ rest := by
  obtain ⟨-, hplain⟩ := plainArms_iff.1 (Bool.and_eq_true_iff.1 h.plain).1 arm hmem
  refine h.next ha hvalued (h.holds_next ha List.not_mem_nil hway.gains rfl fun hgives i b hi hb => ?_)
  have hreturns : returnsAll arm = false := hway.goesOn rfl (steadyAll_of_plainAll arm hplain)
  have harmGives := givesArms_iff.1 (Bool.and_eq_true_iff.1 hgives).2 arm hmem hreturns
  exact hway.gives rfl hplain harmGives hi hb

theorem Begins.closure {returns : TypeVar} {captures : Row TypeVar} {body : List Act}
    (h : Begins r n m s (.closure returns captures body :: rest)) (ha : Runs r (.closure returns captures body) s s₁) :
    Begins r n (m.make body) s₁ rest := by
  obtain ⟨f, hbody, -⟩ := id ha
  have hplain := (Bool.and_eq_true_iff.1 h.plain).1
  obtain ⟨hrestates, hplain⟩ : restates n body = false ∧ plainAll n body = true := by simpa [Act.plain] using hplain
  obtain ⟨hblock, hplainRest, -, hholds⟩ := h.still ha rfl rfl
  refine ⟨hblock, hplainRest, h.valued.make ?_ hbody hrestates hplain, hholds⟩
  exact h.holds

theorem Begins.apart {inside : List Act} (h : Begins r n m s (.apart inside :: rest)) (returns : TypeVar) :
    Begins r n (m.seeing []) (Scope.begin returns []) inside := by
  have hplain := (Bool.and_eq_true_iff.1 h.plain).1
  obtain ⟨hrestates, hplain⟩ : restates n inside = false ∧ plainAll n inside = true := by simpa [Act.plain] using hplain
  exact ⟨⟨.empty, [], [], rfl, nofun, fun _ => hrestates⟩, hplain, h.valued, Memory.holds_nil _ _⟩

/-- The point after a way where other locals were visible. -/
theorem Begins.aside (h : Begins r n m s acts) (hgains : m.Gains m₁) (hvalued : m₁.Valued r n) :
    Begins r n (m₁.seeing m.visible) s acts :=
  ⟨h.block, h.plain, hvalued, h.holds.gains hgains rfl⟩

theorem Begins.call {visible : List (String × Nat)} {body : List Act} (h : Begins r n m s acts)
    (hmem : (visible, body) ∈ m.closures) :
    ∃ s₁ s₂, Begins r n (m.seeing visible) s₁ body ∧ RunsAll r body s₁ s₂ := by
  obtain ⟨around, returns, s₂, hruns, hrestates, hplain, hholds⟩ := h.valued _ hmem
  exact ⟨around.begin returns, s₂, ⟨⟨.empty, [], _, rfl, nofun, fun _ => hrestates⟩, hplain, h.valued, hholds⟩, hruns⟩

theorem Begins.nil (h : Begins r n m s acts) : Begins r n m s [] := by
  obtain ⟨b, bs, below, hs, -⟩ := h.block
  exact ⟨⟨b, bs, below, hs, fun _ => rfl, fun _ => rfl⟩, rfl, h.valued, h.holds⟩

/-- A way through acts that were drafted keeps every closure valued, and what it ends in holds the scope after them. -/
theorem Way.valued (h : Way m acts m' g) :
    ∀ {s s' : Scope}, Begins r n m s acts → RunsAll r acts s s' → m'.Valued r n ∧ (g = true → m'.Holds s' n) := by
  induction h with
  | done =>
    rintro s s' hbegin hruns
    rw [RunsAll] at hruns
    exact ⟨hbegin.valued, fun _ => hruns ▸ hbegin.holds⟩
  | read _ ih | unwrap _ ih =>
    rintro s s' hbegin ⟨s₁, ha, hrest⟩
    exact ih (hbegin.still ha rfl rfl) hrest
  | assign _ ih =>
    rintro s s' hbegin ⟨s₁, ha, hrest⟩
    exact ih (hbegin.assign ha) hrest
  | declare _ ih =>
    rintro s s' hbegin ⟨s₁, ha, hrest⟩
    exact ih (hbegin.declare ha) hrest
  | giveBack _ ih | unwrapOther _ ih =>
    rintro s s' hbegin -
    exact ⟨(ih hbegin.nil rfl).1, nofun⟩
  | evaluate _ _ ihright ih =>
    rintro s s' hbegin ⟨s₁, ha, hrest⟩
    obtain ⟨hvalued, hholds⟩ := ihright hbegin.right ha
    exact ih (hbegin.next ha hvalued (hholds rfl)) hrest
  | evaluateBack _ ihright =>
    rintro s s' hbegin ⟨s₁, ha, -⟩
    exact ⟨(ihright hbegin.right ha).1, nofun⟩
  | skip _ ih =>
    rintro s s' hbegin ⟨s₁, ha, hrest⟩
    exact ih (hbegin.skip ha) hrest
  | arm hmem harm _ iharm ih =>
    rintro s s' hbegin ⟨s₁, ha, hrest⟩
    obtain ⟨b, bs, below, hs, -⟩ := hbegin.block
    obtain ⟨s₂, blocks, harms, -⟩ := id ha
    obtain ⟨inside, s₃, hinside, hruns⟩ := runsArms_mem harms hs hmem
    have hvalued := (iharm (hbegin.arm hmem (hinside.trans hs.symm)) hruns).1
    exact ih (hbegin.afterArm ha hmem harm hvalued) hrest
  | armBack hmem _ iharm =>
    rintro s s' hbegin ⟨s₁, ⟨s₂, blocks, harms, -⟩, -⟩
    obtain ⟨b, bs, below, hs, -⟩ := hbegin.block
    obtain ⟨inside, s₃, hinside, hruns⟩ := runsArms_mem harms hs hmem
    exact ⟨(iharm (hbegin.arm hmem (hinside.trans hs.symm)) hruns).1, nofun⟩
  | closure _ ih =>
    rintro s s' hbegin ⟨s₁, ha, hrest⟩
    exact ih (hbegin.closure ha) hrest
  | apart hinside _ ihinside ih =>
    rintro s s' hbegin ⟨s₁, ha, hrest⟩
    obtain ⟨rfl, returns, s₂, hruns⟩ := id ha
    have hvalued := (ihinside (hbegin.apart returns) hruns).1
    exact ih ((hbegin.still ha rfl rfl).aside hinside.gains hvalued) hrest
  | call hmem hbody _ ihbody ih =>
    rintro s s' hbegin hruns
    obtain ⟨s₁, s₂, hbody', hruns'⟩ := hbegin.call hmem
    exact ih (hbegin.aside hbody.gains (ihbody hbody' hruns').1) hruns

/-- Every point at which a way through acts arrives was drafted, in a scope that is held there. -/
theorem Arrives.begins {acts' : List Act} (h : Arrives m acts m' acts') :
    ∀ {s s' : Scope}, Begins r n m s acts → RunsAll r acts s s' →
      ∃ s₁ s₂, Begins r n m' s₁ acts' ∧ RunsAll r acts' s₁ s₂ := by
  induction h with
  | here => exact fun hbegin hruns => ⟨_, _, hbegin, hruns⟩
  | read _ ih | unwrap _ ih =>
    rintro s s' hbegin ⟨s₁, ha, hrest⟩
    exact ih (hbegin.still ha rfl rfl) hrest
  | assign _ ih =>
    rintro s s' hbegin ⟨s₁, ha, hrest⟩
    exact ih (hbegin.assign ha) hrest
  | declare _ ih =>
    rintro s s' hbegin ⟨s₁, ha, hrest⟩
    exact ih (hbegin.declare ha) hrest
  | giveBack _ ih | unwrapOther _ ih =>
    rintro s s' hbegin -
    exact ih hbegin.nil rfl
  | inRight _ ih =>
    rintro s s' hbegin ⟨s₁, ha, -⟩
    exact ih hbegin.right ha
  | evaluate hright _ ih =>
    rintro s s' hbegin ⟨s₁, ha, hrest⟩
    obtain ⟨hvalued, hholds⟩ := hright.valued hbegin.right ha
    exact ih (hbegin.next ha hvalued (hholds rfl)) hrest
  | skip _ ih =>
    rintro s s' hbegin ⟨s₁, ha, hrest⟩
    exact ih (hbegin.skip ha) hrest
  | inArm hmem _ ih =>
    rintro s s' hbegin ⟨s₁, ⟨s₂, blocks, harms, -⟩, -⟩
    obtain ⟨b, bs, below, hs, -⟩ := hbegin.block
    obtain ⟨inside, s₃, hinside, hruns⟩ := runsArms_mem harms hs hmem
    exact ih (hbegin.arm hmem (hinside.trans hs.symm)) hruns
  | arm hmem harm _ ih =>
    rintro s s' hbegin ⟨s₁, ha, hrest⟩
    obtain ⟨b, bs, below, hs, -⟩ := hbegin.block
    obtain ⟨s₂, blocks, harms, -⟩ := id ha
    obtain ⟨inside, s₃, hinside, hruns⟩ := runsArms_mem harms hs hmem
    have hvalued := (harm.valued (hbegin.arm hmem (hinside.trans hs.symm)) hruns).1
    exact ih (hbegin.afterArm ha hmem harm hvalued) hrest
  | closure _ ih =>
    rintro s s' hbegin ⟨s₁, ha, hrest⟩
    exact ih (hbegin.closure ha) hrest
  | inApart _ ih =>
    rintro s s' hbegin ⟨s₁, ⟨-, returns, s₂, hruns⟩, -⟩
    exact ih (hbegin.apart returns) hruns
  | apart hinside _ ih =>
    rintro s s' hbegin ⟨s₁, ha, hrest⟩
    obtain ⟨rfl, returns, s₂, hruns⟩ := id ha
    have hvalued := (hinside.valued (hbegin.apart returns) hruns).1
    exact ih ((hbegin.still ha rfl rfl).aside hinside.gains hvalued) hrest
  | inCall hmem _ ih =>
    rintro s s' hbegin -
    obtain ⟨s₁, s₂, hbody, hruns⟩ := hbegin.call hmem
    exact ih hbody hruns
  | call hmem hbody _ ih =>
    rintro s s' hbegin hruns
    obtain ⟨s₁, s₂, hbody', hruns'⟩ := hbegin.call hmem
    exact ih (hbegin.aside hbody.gains (hbody.valued hbody' hruns').1) hruns

end Act

open Act (Arrives)

/-- **Definite assignment.** Wherever a way through the body of a procedure that was drafted arrives at a read, in any
arm, right operand or closure, the local that the name means there was given a value, if the name is plain in the
body and the body does not restate it. -/
theorem Draft.readsGiven {context : DraftContext} {params : List String} {body : List (Expr Unit)} {span : Span}
    {g g' : TypeGraph} {d : Draft} {m : Memory} {n : String} {type : TypeVar} {rest : List Act}
    (h : Draft.ofProcedure context params body span g = (.ok d, g'))
    (harrives : Arrives .empty (Act.ofBody params d.args d.body) m (.read n type :: rest))
    (hrestates : restates n (Act.ofBody params d.args d.body) = false)
    (hplain : plainAll n (Act.ofBody params d.args d.body) = true) :
    ∃ i, m.visible.lookup n = some i ∧ m.Given i := by
  obtain ⟨f, hruns, -⟩ := Draft.ofProcedure_runs h
  have hbegin : Act.Begins d.records n .empty (Scope.begin d.returns []) (Act.ofBody params d.args d.body) :=
    ⟨⟨.empty, [], [], rfl, nofun, fun _ => hrestates⟩, hplain, nofun, Memory.holds_nil _ _⟩
  obtain ⟨s, s', hread, hruns⟩ := harrives.begins hbegin hruns
  obtain ⟨s₁, ⟨span, haccess⟩, -⟩ := hruns
  obtain ⟨b, bs, below, hs, -⟩ := hread.block
  obtain ⟨v, hv, hvalue, -⟩ := Scope.access_stack hs haccess
  obtain ⟨i, bd, hi, -, hgiven⟩ := hread.holds v hv
  exact ⟨i, hi, hgiven (hvalue rfl)⟩

/-- A closure reads `x`, which got a value in both arms. -/
def readingInClosure : List (Expr Unit) :=
  let m : Mark Unit := ⟨.none, ()⟩
  let assign (value : Int64) : Expr Unit := .assign m (.name m (.single "x")) (.literal m (.integer value))
  [.declare m "x" false, .ifElse m (.name m (.single "c")) [assign 1] [assign 2],
    .giveBack m (.closure m [] [.giveBack m (.name m (.single "x"))] none)]

/-- On the way through the second arm, a value is there when the closure runs. -/
theorem Draft.readsGiven_closure : ∃ d m type rest, Draft.alone ["c"] readingInClosure = .ok d ∧
    Arrives .empty (Act.ofBody ["c"] d.args d.body) m (.read "x" type :: rest) ∧
    restates "x" (Act.ofBody ["c"] d.args d.body) = false ∧ plainAll "x" (Act.ofBody ["c"] d.args d.body) = true ∧
    ∃ i, m.visible.lookup "x" = some i ∧ m.Given i := by
  have hdraft : (Draft.alone ["c"] readingInClosure).toOption.map (fun d => Act.ofBody ["c"] d.args d.body) =
      some [.declare "c" ⟨⟨0⟩, true, false⟩, .declare "x" ⟨⟨2⟩, false, false⟩, .read "c" ⟨0⟩,
        .branch [[.assign "x" ⟨2⟩], [.assign "x" ⟨2⟩]],
        .closure ⟨8⟩ (.ofList [("x", ⟨2⟩)]) [.read "x" ⟨2⟩, .giveBack], .giveBack] := by
    cbv
  obtain ⟨d, hd, hacts⟩ := Outcome.ok_of_toOption_map hdraft
  have harrives : Arrives .empty (Act.ofBody ["c"] d.args d.body)
      ⟨[("x", 1), ("c", 0)], [⟨"c", false, 1⟩, ⟨"x", false, 1⟩], [([("x", 1), ("c", 0)], [.read "x" ⟨2⟩, .giveBack])]⟩
      [.read "x" ⟨2⟩, .giveBack] := by
    rw [hacts]
    exact .declare (.declare (.read (.arm (List.mem_cons_of_mem _ List.mem_cons_self) (.assign .done)
      (.closure (.giveBack (.inCall List.mem_cons_self .here))))))
  have hrestates : restates "x" (Act.ofBody ["c"] d.args d.body) = false := by
    rw [hacts]
    cbv
  have hplain : plainAll "x" (Act.ofBody ["c"] d.args d.body) = true := by
    rw [hacts]
    cbv
  obtain ⟨_, hprocedure⟩ := Draft.alone_ok hd
  exact ⟨d, _, _, _, hd, harrives, hrestates, hplain, Draft.readsGiven hprocedure harrives hrestates hplain⟩

/-- An arm gives `x` a value, declares another `x` without one, and reads it. -/
def restating : List (Expr Unit) :=
  let m : Mark Unit := ⟨.none, ()⟩
  [.declare m "x" true, .ifElse m (.name m (.single "c"))
    [.assign m (.name m (.single "x")) (.literal m (.integer 1)), .declare m "x" true,
      .giveBack m (.name m (.single "x"))]
    [.giveBack m (.literal m (.integer 0))]]

/-- No value was given to the `x` that is read. -/
theorem Draft.readsGiven_fails : ∃ d m type rest i, Draft.alone ["c"] restating = .ok d ∧
    Arrives .empty (Act.ofBody ["c"] d.args d.body) m (.read "x" type :: rest) ∧
    m.visible.lookup "x" = some i ∧ ¬m.Given i := by
  have hdraft : (Draft.alone ["c"] restating).toOption.map (fun d => Act.ofBody ["c"] d.args d.body) =
      some [.declare "c" ⟨⟨0⟩, true, false⟩, .declare "x" ⟨⟨2⟩, false, true⟩, .read "c" ⟨0⟩,
        .branch [[.assign "x" ⟨2⟩, .declare "x" ⟨⟨5⟩, false, true⟩, .read "x" ⟨5⟩, .giveBack], [.giveBack]]] := by
    cbv
  obtain ⟨d, hd, hacts⟩ := Outcome.ok_of_toOption_map hdraft
  have harrives : Arrives .empty (Act.ofBody ["c"] d.args d.body)
      ⟨[("x", 2), ("x", 1), ("c", 0)], [⟨"c", false, 1⟩, ⟨"x", true, 1⟩, ⟨"x", true, 0⟩], []⟩
      [.read "x" ⟨5⟩, .giveBack] := by
    rw [hacts]
    exact .declare (.declare (.read (.inArm List.mem_cons_self (.assign (.declare .here)))))
  refine ⟨d, _, _, _, 2, hd, harrives, rfl, ?_⟩
  rintro ⟨b, hb, hgiven⟩
  obtain rfl := Option.some.inj hb
  cases hgiven

end Monomorph
