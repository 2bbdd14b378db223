import Monomorph.Proofs.Draft.Recorded

/-! # What bodies do to their locals

An annotated body, seen from the locals around it, is a list of *acts*: locals are read, assigned and declared,
values are given back, and some acts are done only on some ways through the body (`Act`). `Expr.acts` reads the
acts of an expression off the tree, in the order of evaluation. A body begins with the declarations of its
parameters (`Act.ofBody`), as an arm of a match begins with that of its binding.

Drafting is one run over the acts that takes every arm and every right operand in turn. `Act.Runs` says how the
scope changes over it; which type a name has afterwards follows from the acts alone (`Act.layout_runsAll`). -/

namespace Monomorph

/-- Something done to the locals around, or a way in which a body goes on. -/
inductive Act where
  | read (name : String) (type : TypeVar)
  | assign (name : String) (type : TypeVar)
  | declare (name : String) (l : Local)
  /-- The body ends here. -/
  | giveBack
  /-- The body ends here unless a value is of the variant asked for. -/
  | unwrap
  /-- The right operand of `and` or `or`, which may be skipped. -/
  | perhaps (right : List Act)
  /-- One of several arms. -/
  | branch (arms : List (List Act))
  /-- A closure is made, with the type it gives back and the locals it captures. -/
  | closure (returns : TypeVar) (captures : Row TypeVar) (body : List Act)
  /-- A constant, which sees no locals. -/
  | apart (inside : List Act)

namespace Act

/-- The declaration of a local that has a value and keeps it. -/
def bind (p : String × TypeVar) : Act := .declare p.1 ⟨p.2, true, false⟩

mutual

/-- The locals declared in the block around, the latest first. -/
def declared : Act → List (String × Local)
  | .declare n l => [(n, l)]
  | .perhaps right => declaredAll right
  | .read .. | .assign .. | .giveBack | .unwrap | .branch _ | .closure .. | .apart _ => []

/-- The locals that acts in order declare. -/
def declaredAll : List Act → List (String × Local)
  | [] => []
  | a :: rest => declaredAll rest ++ declared a

end

def declaredTypes (acts : List Act) : List (String × TypeVar) :=
  (declaredAll acts).map fun e => (e.1, e.2.type)

theorem declaredAll_append (as bs : List Act) :
    declaredAll (as ++ bs) = declaredAll bs ++ declaredAll as := by
  induction as with
  | nil => simp [declaredAll]
  | cons a as ih => simp [declaredAll, ih]

end Act

/-! ### The acts of expressions -/

/-- Operators whose right operand may be skipped. -/
def BinaryOp.isLogical : BinaryOp → Bool
  | and | or => true
  | _ => false

namespace Expr

/-- What is done to the target of an assignment, whose own acts are given: a local gets a value, anything else is
evaluated. -/
def targetActs (target : Expr TypeVar) (acts : List Act) : List Act :=
  match target with
  | .localVar m n => [.assign n m.note]
  | _ => acts

mutual

/-- The acts of an expression, in the order of evaluation. -/
def acts : Expr TypeVar → List Act
  | .localVar m n => [.read n m.note]
  | .invoke _ _ args => actsOf args
  | .call _ callee args => acts callee ++ actsOf args
  | .method _ receiver _ args => acts receiver ++ actsOf args
  | .closure _ params body (some info) =>
    [.closure info.returns info.captures ((params.zip info.args).map Act.bind ++ actsOf body)]
  -- Drafting annotates every closure; one without its types is not entered.
  | .closure _ _ body none => [.apart (actsOf body)]
  | .define m n isMutable value => acts value ++ [.declare n ⟨m.note, true, isMutable⟩]
  | .declare m n isMutable => [.declare n ⟨m.note, false, isMutable⟩]
  | .assign _ target value => acts value ++ targetActs target (acts target)
  | .giveBack _ value => acts value ++ [.giveBack]
  | .object _ members => namedActs members
  | .array _ elements => actsOf elements
  | .repeated _ value size => acts value ++ acts size
  | .member _ owner _ => acts owner
  | .element _ owner index => acts owner ++ acts index
  | .binary _ op left right => acts left ++ if op.isLogical then [.perhaps (acts right)] else acts right
  | .unary _ _ operand => acts operand
  | .variant _ _ payload => acts payload
  | .unwrap _ value _ => acts value ++ [.unwrap]
  | .constant _ value => [.apart (acts value)]
  | .ifElse _ condition yes no => acts condition ++ [.branch [actsOf yes, actsOf no]]
  | .matchValue _ value arms otherwise =>
    acts value ++ (armValueActs arms ++ [.branch (armBodyActs arms ++ [actsOf otherwise])])
  | .matchVariant _ value arms (some otherwise) =>
    acts value ++ [.branch (variantArmActs arms ++ [actsOf otherwise])]
  | .matchVariant _ value arms none => acts value ++ [.branch (variantArmActs arms)]
  | _ => []

def actsOf : List (Expr TypeVar) → List Act
  | [] => []
  | e :: rest => acts e ++ actsOf rest

/-- The acts of the members of an object. -/
def namedActs : List (String × Expr TypeVar) → List Act
  | [] => []
  | (_, e) :: rest => acts e ++ namedActs rest

/-- The acts of the constants of a match. -/
def armValueActs : List (Expr TypeVar × List (Expr TypeVar)) → List Act
  | [] => []
  | (e, _) :: rest => .apart (acts e) :: armValueActs rest

/-- The acts of the arms of a match against constants. -/
def armBodyActs : List (Expr TypeVar × List (Expr TypeVar)) → List (List Act)
  | [] => []
  | (_, body) :: rest => actsOf body :: armBodyActs rest

/-- The acts of the arms of a match on variants, each of which begins with its binding. -/
def variantArmActs : List (VariantArm TypeVar (List (Expr TypeVar))) → List (List Act)
  | [] => []
  | ⟨_, binding, payload, body⟩ :: rest =>
    (binding.toList.map (fun name => Act.bind (name, payload)) ++ actsOf body) :: variantArmActs rest

end

end Expr

/-- The acts of a body with its parameters. -/
def Act.ofBody (params : List String) (args : List TypeVar) (body : List (Expr TypeVar)) : List Act :=
  (params.zip args).map Act.bind ++ Expr.actsOf body

/-! ### Runs over all of the acts -/

/-- The scope of a body in which nothing is declared yet. -/
def Scope.begin (returns : TypeVar) (outer : Scope) : Scope := ⟨returns, .empty, [.empty]⟩ :: outer

/-- What a body captures of the locals around it, whose names are given. -/
def Scope.captured (scope : Scope) (names : NameSet) : Row TypeVar :=
  Row.ofList (names.names.filterMap fun name => (scope.typeOf? name).map fun type => (name, type))

namespace Act

mutual

/-- Drafting what does the act leads from one scope to another; what it demands is among the records `r`. -/
def Runs (r : Records) : Act → Scope → Scope → Prop
  | .read n type, s, s' => ∃ span, s.access n span false = .ok (some (type, s'))
  | .assign n type, s, s' => ∃ span, s.access n span true = .ok (some (type, s'))
  | .declare n l, s, s' => s' = s.modifyBlock fun b => b.declare n l
  | .giveBack, s, s' => s' = s.modifyBlock fun b => { b with alwaysReturns := true }
  | .unwrap, s, s' => s' = s
  | .perhaps right, s, s' => RunsAll r right s s'
  | .branch arms, s, s' => ∃ s₁ blocks, RunsArms r arms s blocks s₁ ∧ s' = s₁.joinArms blocks
  | .closure returns captures body, s, s' =>
    ∃ f, RunsAll r body (s.begin returns) (f :: s') ∧ captures = s'.captured f.captures ∧
      (f.alwaysReturns = false → r.DemandsBase f.returns .unit)
  | .apart inside, s, s' => s' = s ∧ ∃ returns s₁, RunsAll r inside (Scope.begin returns []) s₁

def RunsAll (r : Records) : List Act → Scope → Scope → Prop
  | [], s, s' => s' = s
  | a :: rest, s, s' => ∃ s₁, Runs r a s s₁ ∧ RunsAll r rest s₁ s'

/-- Arms one after the other, each in a block of its own, which is given as it is at its end. -/
def RunsArms (r : Records) : List (List Act) → Scope → List Block → Scope → Prop
  | [], s, blocks, s' => blocks = [] ∧ s' = s
  | arm :: rest, s, blocks, s' =>
    ∃ s₁ others, RunsAll r arm (s.enterBlock .empty) s₁ ∧ blocks = s₁.exitBlock.1 :: others ∧
      RunsArms r rest s₁.exitBlock.2 others s'

end

variable {r : Records} {s s' : Scope}

theorem runsAll_append {as bs : List Act} :
    RunsAll r (as ++ bs) s s' ↔ ∃ s₁, RunsAll r as s s₁ ∧ RunsAll r bs s₁ s' := by
  induction as generalizing s with
  | nil => simp [RunsAll]
  | cons a as ih =>
    simp only [List.cons_append, RunsAll, ih]
    constructor
    · rintro ⟨s₁, ha, s₂, has, hbs⟩
      exact ⟨s₂, ⟨s₁, ha, has⟩, hbs⟩
    · rintro ⟨s₂, ⟨s₁, ha, has⟩, hbs⟩
      exact ⟨s₁, ha, s₂, has, hbs⟩

theorem runsAll_singleton {a : Act} : RunsAll r [a] s s' ↔ Runs r a s s' := by
  simp [RunsAll]

theorem runsArms_append {as bs : List (List Act)} {blocks : List Block} :
    RunsArms r (as ++ bs) s blocks s' ↔
      ∃ s₁ first last, RunsArms r as s first s₁ ∧ RunsArms r bs s₁ last s' ∧ blocks = first ++ last := by
  induction as generalizing s blocks with
  | nil =>
    constructor
    · exact fun h => ⟨s, [], blocks, ⟨rfl, rfl⟩, h, rfl⟩
    · rintro ⟨_, _, _, ⟨rfl, rfl⟩, h, rfl⟩
      exact h
  | cons a as ih =>
    simp only [List.cons_append, RunsArms, ih]
    constructor
    · rintro ⟨s₁, others, ha, rfl, s₂, first, last, has, hbs, rfl⟩
      exact ⟨s₂, _, last, ⟨s₁, first, ha, rfl, has⟩, hbs, rfl⟩
    · rintro ⟨s₂, _, last, ⟨s₁, first, ha, rfl, has⟩, hbs, rfl⟩
      exact ⟨s₁, first ++ last, ha, rfl, s₂, first, last, has, hbs, rfl⟩

/-- Declaring parameters one by one makes the frame of a body. -/
theorem runsAll_params (params : List (String × TypeVar)) (returns : TypeVar) (outer : Scope) :
    RunsAll r (params.map bind) (outer.begin returns) (.ofParams params returns :: outer) := by
  have hall (ps : List (String × TypeVar)) (b : Block) :
      RunsAll r (ps.map bind) (⟨returns, .empty, [b]⟩ :: outer)
        (⟨returns, .empty, [{ b with
          locals := (ps.map fun p => (p.1, (⟨p.2, true, false⟩ : Local))).foldl
            (fun row e => row.insert e.1 e.2) b.locals }]⟩ :: outer) := by
    induction ps generalizing b with
    | nil => rfl
    | cons p ps ih => exact ⟨_, rfl, ih (b.declare p.1 ⟨p.2, true, false⟩)⟩
  exact hall params .empty

/-! ### What a run declares -/

theorem length_declareAll (added : List (String × TypeVar)) (l : Layout) :
    (l.declareAll added).length = l.length := by
  induction added with
  | nil => rfl
  | cons e added ih =>
    rw [← ih]
    change (Layout.declare e.1 e.2 (l.declareAll added)).length = _
    cases l.declareAll added <;> rfl

theorem layout_begin (returns : TypeVar) (outer : Scope) :
    Scope.layout (outer.begin returns) = ⟨returns, [.empty]⟩ :: outer.layout := rfl

mutual

/-- Which locals are declared afterwards is said by the acts. -/
theorem layout_runs : (a : Act) → ∀ {s s'}, Runs r a s s' →
    s'.layout = s.layout.declareAll (declaredTypes [a])
  | .read n type, s, s', ⟨span, h⟩ => (Scope.access_ok h).2
  | .assign n type, s, s', ⟨span, h⟩ => (Scope.access_ok h).2
  | .declare n l, s, s', h => by
    rw [Runs] at h
    rw [h]
    exact Scope.layout_declare n l s
  | .giveBack, s, s', h => by
    rw [Runs] at h
    rw [h]
    exact Scope.layout_modifyBlock (f := fun b => { b with alwaysReturns := true }) (fun _ => rfl) s
  | .unwrap, s, s', h => by
    rw [Runs] at h
    rw [h]
    rfl
  | .perhaps right, s, s', h => by
    rw [Runs] at h
    have hright := layout_runsAll right h
    simpa [declaredTypes, declaredAll, declared] using hright
  | .branch arms, s, s', h => by
    rw [Runs] at h
    obtain ⟨s₁, blocks, harms, rfl⟩ := h
    rw [Scope.layout_joinArms, layout_runsArms arms harms]
    rfl
  | .closure returns captures body, s, s', h => by
    rw [Runs] at h
    obtain ⟨f, hbody, -, -⟩ := h
    have hlayout := layout_runsAll body hbody
    rw [layout_begin] at hlayout
    have htail := congrArg List.tail hlayout
    rw [Layout.tail_declareAll] at htail
    exact htail
  | .apart inside, s, s', h => by
    rw [Runs] at h
    rw [h.1]
    rfl

theorem layout_runsAll : (acts : List Act) → ∀ {s s'}, RunsAll r acts s s' →
    s'.layout = s.layout.declareAll (declaredTypes acts)
  | [], s, s', h => by
    rw [RunsAll] at h
    rw [h]
    rfl
  | a :: rest, s, s', h => by
    rw [RunsAll] at h
    obtain ⟨s₁, ha, hrest⟩ := h
    have hall : declaredTypes (a :: rest) = declaredTypes rest ++ declaredTypes [a] := by
      simp [declaredTypes, declaredAll]
    rw [layout_runsAll rest hrest, layout_runs a ha, hall, Layout.declareAll_append]

theorem layout_runsArms : (arms : List (List Act)) → ∀ {s blocks s'}, RunsArms r arms s blocks s' →
    s'.layout = s.layout
  | [], s, blocks, s', h => by
    rw [RunsArms] at h
    rw [h.2]
  | arm :: rest, s, blocks, s', h => by
    rw [RunsArms] at h
    obtain ⟨s₁, others, harm, -, hrest⟩ := h
    rw [layout_runsArms rest hrest, Scope.layout_exitBlock, layout_runsAll arm harm, Scope.layout_enterBlock,
      Layout.leave_declareAll]

end

end Act
end Monomorph
