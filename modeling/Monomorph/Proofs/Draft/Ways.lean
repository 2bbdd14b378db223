import Mathlib
import Monomorph.Proofs.Draft.Performed
import Monomorph.Proofs.Draft.Sight

/-! # Ways through bodies

A way through a body takes one arm of every branch, evaluates a right operand or skips it, and ends where a value
is given back or at the end of the body; the closures made on the way may run at any time from then on
(`Act.Path`). What it does to locals is counted in a `Memory`: every declaration makes a new binding, and a binding
counts how often it is given a value.

Drafting notes of every block whether it always gives back, and of a right operand that may be skipped it takes
the giving back for certain (`Act.returnsAll`). Where no such operand always gives back, a body that has a way to its
end is one of which drafting notes that it has (`Act.Path.goesOn`), and so it demands that the body gives back unit
(`Draft.Body.demandsUnit`). -/

namespace Monomorph

namespace Act

/-! ### What drafting notes of blocks -/

mutual

/-- Whether drafting notes that a block always gives back because of the act. -/
def returns : Act → Bool
  | .giveBack => true
  | .perhaps right => returnsAll right
  | .branch arms => returnsArms arms
  | .read .. | .assign .. | .declare .. | .unwrap | .closure .. | .apart _ => false

/-- Whether drafting notes that acts in order always give back. -/
def returnsAll : List Act → Bool
  | [] => false
  | a :: rest => returns a || returnsAll rest

/-- Whether drafting notes that every arm always gives back. -/
def returnsArms : List (List Act) → Bool
  | [] => true
  | arm :: rest => returnsAll arm && returnsArms rest

end

theorem returnsArms_iff {arms : List (List Act)} :
    returnsArms arms = true ↔ ∀ arm ∈ arms, returnsAll arm = true := by
  induction arms with
  | nil => simp [returnsArms]
  | cons arm rest ih => simp [returnsArms, ih]

end Act

/-- A local later on: it may have got a value. -/
structure Local.Becomes (l l' : Local) : Prop where
  isMutable : l'.isMutable = l.isMutable
  initialized : l.initialized = true → l'.initialized = true

theorem Local.Becomes.refl (l : Local) : l.Becomes l := ⟨rfl, id⟩

theorem Local.Becomes.trans {l l₁ l' : Local} (h : l.Becomes l₁) (h' : l₁.Becomes l') : l.Becomes l' :=
  ⟨h'.isMutable.trans h.isMutable, fun hi => h'.initialized (h.initialized hi)⟩

/-- A block later on: locals were declared in it, the latest first, more of the locals outside have a value, and if
`returns`, it always gives back. -/
structure Block.Evolves (declared : List (String × Local)) (returns : Bool) (b b' : Block) : Prop where
  alwaysReturns : b'.alwaysReturns = (b.alwaysReturns || returns)
  locals : ∀ n, Option.Rel Local.Becomes ((declared.lookup n).or (b.locals.get? n)) (b'.locals.get? n)
  initializes : ∀ n, Row.contains b.initializes n = true → Row.contains b'.initializes n = true

namespace Block

variable {b b₁ b' : Block} {declared declared' : List (String × Local)} {returns returns' : Bool}

theorem Evolves.refl (b : Block) : b.Evolves [] false b where
  alwaysReturns := by simp
  locals n := by
    cases b.locals.get? n with
    | none => exact .none
    | some l => exact .some (.refl l)
  initializes _ := id

theorem Evolves.trans (h : b.Evolves declared returns b₁) (h' : b₁.Evolves declared' returns' b') :
    b.Evolves (declared' ++ declared) (returns || returns') b' where
  alwaysReturns := by rw [h'.alwaysReturns, h.alwaysReturns, Bool.or_assoc]
  locals n := by
    have hn := h.locals n
    have hn' := h'.locals n
    rw [List.lookup_append]
    cases hd : declared'.lookup n with
    | some l => simpa [hd] using hn'
    | none =>
      rw [hd, Option.none_or] at hn'
      rw [Option.none_or]
      generalize (declared.lookup n).or (b.locals.get? n) = x at hn
      generalize b₁.locals.get? n = y at hn hn'
      generalize b'.locals.get? n = z at hn'
      cases hn with
      | none => exact hn'
      | some hl =>
        cases hn' with
        | some hl' => exact .some (hl.trans hl')
  initializes n hb := h'.initializes n (h.initializes n hb)

theorem initialized_evolves (b : Block) (name : String) : b.Evolves [] false ( b.initialize name) := by
  unfold Block.initialize
  split
  · rename_i l hl
    refine ⟨by simp, fun n => ?_, fun _ => id⟩
    rw [Row.get?_insert]
    by_cases hn : name = n
    · subst hn
      simpa [hl] using Option.Rel.some (⟨rfl, fun _ => rfl⟩ : l.Becomes { l with initialized := true })
    · simpa [hn] using (Evolves.refl b).locals n
  · exact ⟨by simp, (Evolves.refl b).locals, fun n hb => (NameSet.contains_add _ _ _).2 (.inr hb)⟩

theorem initializedAll_evolves (names : List String) (b : Block) :
    b.Evolves [] false (names.foldl Block.initialize b) := by
  induction names generalizing b with
  | nil => exact .refl b
  | cons name names ih => exact (initialized_evolves b name).trans (ih _)

theorem declared_evolves (b : Block) (name : String) (l : Local) :
    b.Evolves [(name, l)] false (b.declare name l) := by
  refine ⟨by simp [declare], fun n => ?_, fun _ => id⟩
  rw [declare, Row.get?_insert, List.lookup_cons]
  by_cases hn : name = n
  · subst hn
    simpa using Option.Rel.some (Local.Becomes.refl l)
  · have hne : (n == name) = false := beq_eq_false_iff_ne.2 (Ne.symm hn)
    simpa [hn, hne] using (Evolves.refl b).locals n

theorem Evolves.alwaysReturns_or (h : b.Evolves declared false b') (returns : Bool) :
    b.Evolves declared returns { b' with alwaysReturns := b'.alwaysReturns || returns } :=
  ⟨by simp [h.alwaysReturns], h.locals, h.initializes⟩

end Block

/-! ### What runs do to blocks -/

theorem Layout.declareAll_cons (added : List (String × TypeVar)) (returns : TypeVar) (blocks : List (Row TypeVar))
    (l : Layout) : ∃ blocks', Layout.declareAll added (⟨returns, blocks⟩ :: l) = ⟨returns, blocks'⟩ :: l := by
  induction added with
  | nil => exact ⟨blocks, rfl⟩
  | cons e added ih =>
    obtain ⟨blocks', h⟩ := ih
    change ∃ blocks'', Layout.declare e.1 e.2 (Layout.declareAll added _) = _
    rw [h]
    cases blocks' with
    | nil => exact ⟨[], rfl⟩
    | cons block blocks' => exact ⟨_, rfl⟩

namespace Act

open Scope (stack)

variable {r : Records}

mutual

theorem evolves_runs : (a : Act) → ∀ {s s' b bs rest}, Runs r a s s' → stack s = (b :: bs) :: rest →
    ∃ b', stack s' = (b' :: bs) :: rest ∧ b.Evolves (declared a) (returns a) b'
  | .read n type, s, s', b, bs, rest, ⟨span, h⟩, hs => by
    obtain ⟨v, -, -, -, hs'⟩ := Scope.access_stack hs h
    exact ⟨b, hs', .refl b⟩
  | .assign n type, s, s', b, bs, rest, ⟨span, h⟩, hs => by
    obtain ⟨v, -, -, -, hs'⟩ := Scope.access_stack hs h
    refine ⟨_, hs', ?_⟩
    split
    · exact b.initialized_evolves n
    · exact .refl b
  | .declare n l, s, s', b, bs, rest, h, hs => by
    rw [Runs] at h
    exact ⟨_, h ▸ Scope.stack_modifyBlock hs _, b.declared_evolves n l⟩
  | .giveBack, s, s', b, bs, rest, h, hs => by
    rw [Runs] at h
    refine ⟨_, h ▸ Scope.stack_modifyBlock hs _, ?_⟩
    simpa [declared, returns] using (Block.Evolves.refl b).alwaysReturns_or true
  | .unwrap, s, s', b, bs, rest, h, hs => by
    rw [Runs] at h
    exact ⟨b, h ▸ hs, .refl b⟩
  | .perhaps right, s, s', b, bs, rest, h, hs => evolves_runsAll right h hs
  | .branch arms, s, s', b, bs, rest, h, hs => by
    obtain ⟨s₁, blocks, harms, rfl⟩ := h
    obtain ⟨hs₁, hblocks⟩ := evolves_runsArms arms harms hs
    refine ⟨_, Scope.stack_modifyBlock hs₁ _, ?_⟩
    rw [hblocks]
    exact (Block.initializedAll_evolves _ b).alwaysReturns_or _
  | .closure type captures body, s, s', b, bs, rest, h, hs => by
    obtain ⟨f, hbody, -⟩ := h
    have hbegin : stack (s.begin type) = [.empty] :: stack s := rfl
    obtain ⟨b', hs', -⟩ := evolves_runsAll body hbody hbegin
    exact ⟨b, (List.cons.inj hs').2.trans hs, .refl b⟩
  | .apart inside, s, s', b, bs, rest, h, hs => ⟨b, h.1 ▸ hs, .refl b⟩

theorem evolves_runsAll : (acts : List Act) → ∀ {s s' b bs rest}, RunsAll r acts s s' →
    stack s = (b :: bs) :: rest →
    ∃ b', stack s' = (b' :: bs) :: rest ∧ b.Evolves (declaredAll acts) (returnsAll acts) b'
  | [], s, s', b, bs, rest, h, hs => by
    rw [RunsAll] at h
    exact ⟨b, h ▸ hs, .refl b⟩
  | a :: rest, s, s', b, bs, below, h, hs => by
    obtain ⟨s₁, ha, hrest⟩ := h
    obtain ⟨b₁, hs₁, hb₁⟩ := evolves_runs a ha hs
    obtain ⟨b', hs', hb'⟩ := evolves_runsAll rest hrest hs₁
    exact ⟨b', hs', hb₁.trans hb'⟩

theorem evolves_runsArms : (arms : List (List Act)) → ∀ {s blocks s' b bs rest}, RunsArms r arms s blocks s' →
    stack s = (b :: bs) :: rest →
    stack s' = (b :: bs) :: rest ∧ blocks.all Block.alwaysReturns = returnsArms arms
  | [], s, blocks, s', b, bs, rest, h, hs => by
    obtain ⟨rfl, rfl⟩ := h
    exact ⟨hs, rfl⟩
  | arm :: rest, s, blocks, s', b, bs, below, h, hs => by
    obtain ⟨s₁, others, harm, rfl, hrest⟩ := h
    obtain ⟨b', hs₁, hb'⟩ := evolves_runsAll arm harm (Scope.stack_enterBlock hs .empty)
    obtain ⟨hblock, hexit⟩ := Scope.stack_exitBlock hs₁
    obtain ⟨hs', hothers⟩ := evolves_runsArms rest hrest hexit
    have hreturns : b'.alwaysReturns = returnsAll arm := hb'.alwaysReturns
    exact ⟨hs', by rw [List.all_cons, hblock, hreturns, hothers, returnsArms]⟩

end

theorem runsArms_mem {arms : List (List Act)} {arm : List Act} {s s' : Scope} {blocks : List Block} {b : Block}
    {bs : List Block} {rest : List (List Block)} (h : RunsArms r arms s blocks s') (hs : stack s = (b :: bs) :: rest)
    (hmem : arm ∈ arms) : ∃ s₁ s₂, stack s₁ = (b :: bs) :: rest ∧ RunsAll r arm (s₁.enterBlock .empty) s₂ := by
  induction arms generalizing s blocks with
  | nil => cases hmem
  | cons first arms ih =>
    obtain ⟨s₁, others, hfirst, -, hrest⟩ := h
    rcases List.mem_cons.1 hmem with rfl | hmem
    · exact ⟨s, s₁, hs, hfirst⟩
    · obtain ⟨b', hs₁, -⟩ := evolves_runsAll first hfirst (Scope.stack_enterBlock hs .empty)
      exact ih hrest (Scope.stack_exitBlock hs₁).2 hmem

/-- A body that does not always give back must give back unit. -/
theorem demandsUnit_of_runs {type : TypeVar} {captures : Row TypeVar} {body : List Act} {s s' : Scope}
    (h : Runs r (.closure type captures body) s s') (hreturns : returnsAll body = false) :
    r.DemandsBase type .unit := by
  obtain ⟨f, hbody, -, hdemands⟩ := h
  obtain ⟨b, hs', hb⟩ := evolves_runsAll body hbody (show stack (s.begin type) = [.empty] :: stack s from rfl)
  have hblocks : f.blocks = [b] := (List.cons.inj hs').1
  have htype : f.returns = type := by
    obtain ⟨blocks, hlayout⟩ := Layout.declareAll_cons (declaredTypes body) type [.empty] s.layout
    have hframe : Scope.layout (f :: s') = ⟨type, blocks⟩ :: s.layout := (layout_runsAll body hbody).trans hlayout
    exact congrArg FrameLayout.returns (List.cons.inj hframe).1
  rw [← htype]
  refine hdemands ?_
  have hnot : b.alwaysReturns = false := hb.alwaysReturns.trans hreturns
  simp [Frame.alwaysReturns, hblocks, hnot]

end Act

/-! ### Ways -/

/-- A local while the program runs. -/
structure Binding where
  name : String
  isMutable : Bool
  /-- How often it was given a value. -/
  given : Nat
  deriving DecidableEq, Repr

/-- What there is while the program runs: the locals visible at the present point by number, the nearest first, all
locals that were ever declared, and the closures that were ever made with the locals visible to them. -/
structure Memory where
  visible : List (String × Nat)
  bindings : List Binding
  closures : List (List (String × Nat) × List Act)

namespace Memory

def empty : Memory := ⟨[], [], []⟩

/-- Declare a local, which is given a value if it has one from the start. -/
def declare (m : Memory) (name : String) (l : Local) : Memory :=
  { m with
    visible := (name, m.bindings.length) :: m.visible
    bindings := m.bindings ++ [⟨name, l.isMutable, if l.initialized then 1 else 0⟩] }

/-- Declare locals, the last of the list first, that get no value because their declarations are skipped. -/
def reserve (m : Memory) (locals : List (String × Local)) : Memory :=
  locals.foldr (fun e m => m.declare e.1 { e.2 with initialized := false }) m

/-- Give a value to the nearest local of a name. -/
def give (m : Memory) (name : String) : Memory :=
  match m.visible.lookup name with
  | some i => { m with bindings := m.bindings.modify i fun b => { b with given := b.given + 1 } }
  | none => m

def make (m : Memory) (body : List Act) : Memory := { m with closures := (m.visible, body) :: m.closures }

/-- Go on where other locals are visible. -/
def seeing (m : Memory) (visible : List (String × Nat)) : Memory := { m with visible }

end Memory

/-- A way through acts from one memory to another. If it goes on, it reaches the end of the acts; otherwise the body
has given back a value before. -/
inductive Act.Way : Memory → List Act → Memory → (goesOn : Bool) → Prop where
  | done {m : Memory} : Way m [] m true
  | read {m m' : Memory} {n : String} {type : TypeVar} {rest : List Act} {g : Bool} (h : Way m rest m' g) :
      Way m (.read n type :: rest) m' g
  | assign {m m' : Memory} {n : String} {type : TypeVar} {rest : List Act} {g : Bool}
      (h : Way (m.give n) rest m' g) : Way m (.assign n type :: rest) m' g
  | declare {m m' : Memory} {n : String} {l : Local} {rest : List Act} {g : Bool}
      (h : Way (m.declare n l) rest m' g) : Way m (.declare n l :: rest) m' g
  /-- After a body has given back, closures may still run. -/
  | giveBack {m m' : Memory} {rest : List Act} (h : Way m [] m' true) : Way m (.giveBack :: rest) m' false
  | unwrap {m m' : Memory} {rest : List Act} {g : Bool} (h : Way m rest m' g) : Way m (.unwrap :: rest) m' g
  /-- The value is of another variant and is given back. -/
  | unwrapOther {m m' : Memory} {rest : List Act} (h : Way m [] m' true) : Way m (.unwrap :: rest) m' false
  | evaluate {m m₁ m' : Memory} {right rest : List Act} {g : Bool} (hright : Way m right m₁ true)
      (h : Way m₁ rest m' g) : Way m (.perhaps right :: rest) m' g
  | evaluateBack {m m' : Memory} {right rest : List Act} (hright : Way m right m' false) :
      Way m (.perhaps right :: rest) m' false
  /-- The locals that the right operand would declare are there without a value. -/
  | skip {m m' : Memory} {right rest : List Act} {g : Bool} (h : Way (m.reserve (declaredAll right)) rest m' g) :
      Way m (.perhaps right :: rest) m' g
  | arm {m m₁ m' : Memory} {arms : List (List Act)} {arm rest : List Act} {g : Bool} (hmem : arm ∈ arms)
      (harm : Way m arm m₁ true) (h : Way (m₁.seeing m.visible) rest m' g) : Way m (.branch arms :: rest) m' g
  | armBack {m m' : Memory} {arms : List (List Act)} {arm rest : List Act} (hmem : arm ∈ arms)
      (harm : Way m arm m' false) : Way m (.branch arms :: rest) m' false
  | closure {m m' : Memory} {returns : TypeVar} {captures : Row TypeVar} {body rest : List Act} {g : Bool}
      (h : Way (m.make body) rest m' g) : Way m (.closure returns captures body :: rest) m' g
  | apart {m m₁ m' : Memory} {inside rest : List Act} {g₁ g : Bool} (hinside : Way (m.seeing []) inside m₁ g₁)
      (h : Way (m₁.seeing m.visible) rest m' g) : Way m (.apart inside :: rest) m' g
  /-- A closure runs, at any time after it was made. -/
  | call {m m₁ m' : Memory} {visible : List (String × Nat)} {body acts : List Act} {g₁ g : Bool}
      (hmem : (visible, body) ∈ m.closures) (hbody : Way (m.seeing visible) body m₁ g₁)
      (h : Way (m₁.seeing m.visible) acts m' g) : Way m acts m' g

namespace Act

mutual

/-- No right operand that may be skipped always gives back. -/
def steady : Act → Bool
  | .perhaps right => !returnsAll right && steadyAll right
  | .branch arms => steadyArms arms
  | .read .. | .assign .. | .declare .. | .giveBack | .unwrap | .closure .. | .apart _ => true

def steadyAll : List Act → Bool
  | [] => true
  | a :: rest => steady a && steadyAll rest

def steadyArms : List (List Act) → Bool
  | [] => true
  | arm :: rest => steadyAll arm && steadyArms rest

end

theorem steadyArms_iff {arms : List (List Act)} :
    steadyArms arms = true ↔ ∀ arm ∈ arms, steadyAll arm = true := by
  induction arms with
  | nil => simp [steadyArms]
  | cons arm rest ih => simp [steadyArms, ih]

/-- If some way goes on, it is not noted that the acts always give back. -/
theorem Way.goesOn {m m' : Memory} {acts : List Act} {g : Bool} (h : Way m acts m' g) (hg : g = true)
    (hsteady : steadyAll acts = true) : returnsAll acts = false := by
  induction h with
  | done => rfl
  | giveBack | unwrapOther | evaluateBack | armBack => cases hg
  | read _ ih | assign _ ih | declare _ ih | unwrap _ ih | closure _ ih | apart _ _ _ ih =>
    simpa [returnsAll, returns, steady] using ih hg (Bool.and_eq_true_iff.1 hsteady).2
  | evaluate _ _ ihright ih | skip _ ih =>
    obtain ⟨hright, hrest⟩ := Bool.and_eq_true_iff.1 hsteady
    obtain ⟨hnot, -⟩ := Bool.and_eq_true_iff.1 hright
    rw [Bool.not_eq_true'] at hnot
    rw [returnsAll, returns, hnot, ih hg hrest, Bool.false_or]
  | arm hmem _ _ iharm ih =>
    obtain ⟨harms, hrest⟩ := Bool.and_eq_true_iff.1 hsteady
    have harm := iharm rfl (steadyArms_iff.1 harms _ hmem)
    have hnot : returnsArms _ = false :=
      Bool.eq_false_iff.2 fun hall => Bool.false_ne_true (harm.symm.trans (returnsArms_iff.1 hall _ hmem))
    rw [returnsAll, returns, hnot, ih hg hrest, Bool.false_or]
  | call _ _ _ _ ih => exact ih hg hsteady

end Act

/-- **A body with a way to its end gives back unit.** If some way through a body of a draft reaches its end, and none
of its right operands that may be skipped always gives back, then it is demanded of the type given back that it is
unit. -/
theorem Draft.Body.demandsUnit {d : Draft} {acts : List Act} {returns : TypeVar} {m m' : Memory}
    (h : d.Body acts returns) (hway : Act.Way m acts m' true) (hsteady : Act.steadyAll acts = true) :
    d.records.DemandsBase returns .unit := by
  obtain ⟨captures, s, s', hruns⟩ := h.runs
  exact Act.demandsUnit_of_runs hruns (hway.goesOn rfl hsteady)

/-- One arm gives back unit and the other one goes on. -/
def returningInArm : List (Expr Unit) :=
  let m : Mark Unit := ⟨.none, ()⟩
  [.ifElse m (.name m (.single "c")) [.giveBack m (.literal m .unit)] []]

/-- The way through the other arm reaches the end. -/
theorem Draft.Body.demandsUnit_arm : ∃ d m', Draft.alone ["c"] returningInArm = .ok d ∧
    Act.Way .empty (Act.ofBody ["c"] d.args d.body) m' true ∧
    Act.steadyAll (Act.ofBody ["c"] d.args d.body) = true ∧ d.records.DemandsBase d.returns .unit := by
  have hdraft : (Draft.alone ["c"] returningInArm).toOption.map (fun d => Act.ofBody ["c"] d.args d.body) =
      some [.declare "c" ⟨⟨0⟩, true, false⟩, .read "c" ⟨0⟩, .branch [[.giveBack], []]] := by
    cbv
  obtain ⟨d, hd, hacts⟩ := Outcome.ok_of_toOption_map hdraft
  have hway : Act.Way .empty (Act.ofBody ["c"] d.args d.body) ⟨[("c", 0)], [⟨"c", false, 1⟩], []⟩ true :=
    hacts ▸ .declare (.read (.arm (List.mem_cons_of_mem _ List.mem_cons_self) .done .done))
  have hsteady : Act.steadyAll (Act.ofBody ["c"] d.args d.body) = true := hacts ▸ rfl
  obtain ⟨_, hprocedure⟩ := Draft.alone_ok hd
  exact ⟨d, _, hd, hway, hsteady, Draft.Body.demandsUnit (.procedure hprocedure) hway hsteady⟩

/-- Only the right operand of an `or` gives back, and it gives back an integer. -/
def returningInOperand : List (Expr Unit) :=
  let m : Mark Unit := ⟨.none, ()⟩
  [.binary m .or (.name m (.single "c"))
    (.binary m .equal (.giveBack m (.literal m (.integer 1))) (.literal m .unit))]

/-- Where the operand is skipped, the body reaches its end, but nothing but to be an integer is demanded of what it
gives back. -/
theorem Draft.Body.demandsUnit_fails : ∃ d m', Draft.alone ["c"] returningInOperand = .ok d ∧
    Act.Way .empty (Act.ofBody ["c"] d.args d.body) m' true ∧ ¬d.records.DemandsBase d.returns .unit := by
  have hdraft : (Draft.alone ["c"] returningInOperand).toOption.map (fun d =>
      (Act.ofBody ["c"] d.args d.body, d.returns, d.constraints.map fun c => (c.target, c.demand))) =
      some ([.declare "c" ⟨⟨0⟩, true, false⟩, .read "c" ⟨0⟩, .perhaps [.giveBack]], ⟨1⟩,
        [(⟨2⟩, .isBase .integer none), (⟨1⟩, .unify ⟨2⟩), (⟨4⟩, .isBase .unit none), (⟨3⟩, .unify ⟨4⟩),
          (⟨5⟩, .isBase .boolean none), (⟨0⟩, .isBase .boolean none), (⟨0⟩, .unify ⟨5⟩)]) := by
    cbv
  obtain ⟨d, hd, hparts⟩ := Outcome.ok_of_toOption_map hdraft
  obtain ⟨hacts, hrest⟩ := Prod.mk.inj hparts
  obtain ⟨hreturns, hconstraints⟩ := Prod.mk.inj hrest
  refine ⟨d, ⟨[("c", 0)], [⟨"c", false, 1⟩], []⟩, hd, hacts ▸ .declare (.read (.skip .done)), ?_⟩
  rintro ⟨reason, span, hmem⟩
  have hdemanded := List.mem_map_of_mem (f := fun c : Constraint => (c.target, c.demand)) hmem
  rw [show d.records.constraints = d.constraints from rfl, hconstraints, hreturns] at hdemanded
  simp at hdemanded

end Monomorph
