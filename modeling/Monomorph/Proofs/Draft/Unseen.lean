import Mathlib.Data.Fintype.EquivFin
import Monomorph.Proofs.Draft.Comparing
import Monomorph.Proofs.Draft.Sight
import Monomorph.Proofs.Draft.Steps

/-! # Drafting beside a local that is not seen

A body that neither reads a local nor gives it a value (`Expr.seen`) is drafted as if the local were not there
(`DraftM.exprs_beside`). Nor does it matter to a body what the symbols it refers to are made of, only which paths and
which parameters they have (`DraftM.SameInterfaces`). -/

namespace Monomorph

open Outcome

/-! ### Expressions that do not see a local -/

namespace Expr

variable {α : Type}

theorem seenAll_append (es es' : List (Expr α)) : seenAll (es ++ es') = seenAll es ++ seenAll es' := by
  induction es with
  | nil => rfl
  | cons e es ih => rw [List.cons_append, seenAll, ih, seenAll, List.append_assoc]

theorem seen_subset {e : Expr α} {es : List (Expr α)} (h : e ∈ es) : e.seen ⊆ seenAll es := by
  obtain ⟨before, after, rfl⟩ := List.append_of_mem h
  rw [seenAll_append, seenAll]
  exact fun n hn => List.mem_append_right _ (List.mem_append_left _ hn)

end Expr

theorem unseen_append {t : String} {l l' : List String} (h : t ∉ l ++ l') : t ∉ l ∧ t ∉ l' :=
  not_or.1 (h ∘ List.mem_append.2)

theorem exists_unseen (names : List String) : ∃ t, t ∉ names := by
  obtain ⟨t, ht⟩ := Infinite.exists_notMem_finset names.toFinset
  exact ⟨t, fun hmem => ht (List.mem_toFinset.2 hmem)⟩

/-! ### Scopes that differ in a local -/

/-- The blocks have the same locals apart from the one, which has not been given a value from inside. -/
structure Block.Beside (t : String) (b b' : Block) : Prop where
  locals : ∀ name, name ≠ t → b'.locals.get? name = b.locals.get? name
  initializes : b'.initializes = b.initializes
  alwaysReturns : b'.alwaysReturns = b.alwaysReturns
  unseen : Row.contains b.initializes t = false

/-- The frames have the same locals apart from the one, which is not captured. -/
structure Frame.Beside (t : String) (f f' : Frame) : Prop where
  returns : f'.returns = f.returns
  captures : f'.captures = f.captures
  blocks : List.Forall₂ (Block.Beside t) f.blocks f'.blocks
  unseen : Row.contains f.captures t = false

/-- The scopes have the same locals apart from the one, which is not seen from inside. -/
abbrev Scope.Beside (t : String) : Scope → Scope → Prop := List.Forall₂ (Frame.Beside t)

section scope

variable {t name : String} {b b' : Block} {f f' : Frame} {s s' : Scope}

/-! ### Blocks -/

theorem Block.empty_beside : Block.empty.Beside t .empty := ⟨fun _ _ => rfl, rfl, rfl, rfl⟩

theorem Block.Beside.declare (h : b.Beside t b') (name : String) (l : Local) :
    (b.declare name l).Beside t (b'.declare name l) where
  locals n hn := by rw [Block.declare, Block.declare, Row.get?_insert, Row.get?_insert, h.locals n hn]
  initializes := h.initializes
  alwaysReturns := h.alwaysReturns
  unseen := h.unseen

theorem Block.Beside.aside (h : b.Beside t b') (l : Local) : b.Beside t (b'.declare t l) where
  locals n hn := by rw [Block.declare, Row.get?_insert, if_neg hn.symm, h.locals n hn]
  initializes := h.initializes
  alwaysReturns := h.alwaysReturns
  unseen := h.unseen

theorem NameSet.not_contains_add {set : NameSet} (hset : Row.contains set t = false) (hname : name ≠ t) :
    Row.contains (set.add name) t = false := by
  rw [Row.contains, NameSet.add, Row.get?_insert, if_neg hname]
  exact hset

theorem Block.Beside.give (h : b.Beside t b') (hname : name ≠ t) :
    Block.Beside t ( Block.initialize b name) ( Block.initialize b' name) := by
  unfold Block.initialize
  rw [h.locals name hname]
  cases b.locals.get? name with
  | none =>
    exact ⟨h.locals, congrArg (NameSet.add · name) h.initializes, h.alwaysReturns,
      NameSet.not_contains_add h.unseen hname⟩
  | some l =>
    refine ⟨fun n hn => ?_, h.initializes, h.alwaysReturns, h.unseen⟩
    rw [Row.get?_insert, Row.get?_insert, h.locals n hn]

theorem Block.Beside.giveAll (h : b.Beside t b') {names : List String} (hnames : t ∉ names) :
    (names.foldl Block.initialize b).Beside t (names.foldl Block.initialize b') := by
  induction names generalizing b b' with
  | nil => exact h
  | cons name names ih =>
    obtain ⟨hname, hnames⟩ := not_or.1 (hnames ∘ List.mem_cons.2)
    exact ih (h.give (Ne.symm hname)) hnames

/-! ### Frames -/

theorem Frame.ofParams_beside (params : List (String × TypeVar)) (returns : TypeVar) :
    (ofParams params returns).Beside t (ofParams params returns) :=
  ⟨rfl, rfl, .cons ⟨fun _ _ => rfl, rfl, rfl, rfl⟩ .nil, rfl⟩

theorem Frame.Beside.alwaysReturns (h : f.Beside t f') : f'.alwaysReturns = f.alwaysReturns := by
  have hblocks := h.blocks
  unfold Frame.alwaysReturns
  generalize f.blocks = bs at hblocks
  generalize f'.blocks = bs' at hblocks
  induction hblocks with
  | nil => rfl
  | @cons b b' bs bs' hb hbs ih =>
    cases hbs with
    | nil => exact hb.alwaysReturns
    | cons hc hcs => simpa only [List.getLast?_cons_cons] using ih

namespace Scope

/-! ### Blocks of a scope -/

theorem Beside.modifyBlock (h : Beside t s s') {change change' : Block → Block}
    (hchange : ∀ {b b'}, b.Beside t b' → (change b).Beside t (change' b')) :
    Beside t (s.modifyBlock change) (s'.modifyBlock change') := by
  cases h with
  | nil => exact .nil
  | @cons f f' fs fs' hf hfs =>
    obtain ⟨returns, captures, blocks⟩ := f
    obtain ⟨returns', captures', blocks'⟩ := f'
    obtain ⟨hreturns, hcaptures, hblocks, hunseen⟩ := hf
    dsimp only at hreturns hcaptures hblocks hunseen
    cases hblocks with
    | nil => exact .cons ⟨hreturns, hcaptures, .nil, hunseen⟩ hfs
    | cons hb hbs => exact .cons ⟨hreturns, hcaptures, .cons (hchange hb) hbs, hunseen⟩ hfs

theorem Beside.aside (h : Beside t s s') (l : Local) : Beside t s (s'.modifyBlock fun b => b.declare t l) := by
  have hsame : s.modifyBlock id = s := by unfold Scope.modifyBlock; split <;> rfl
  have haside : Beside t (s.modifyBlock id) (s'.modifyBlock fun b => b.declare t l) :=
    h.modifyBlock fun hb => hb.aside l
  rwa [hsame] at haside

theorem Beside.enterBlock (h : Beside t s s') (hb : b.Beside t b') :
    Beside t (s.enterBlock b) (s'.enterBlock b') := by
  cases h with
  | nil => exact .nil
  | cons hf hfs => exact .cons ⟨hf.returns, hf.captures, .cons hb hf.blocks, hf.unseen⟩ hfs

theorem Beside.exitBlock (h : Beside t s s') :
    s.exitBlock.1.Beside t s'.exitBlock.1 ∧ Beside t s.exitBlock.2 s'.exitBlock.2 := by
  cases h with
  | nil => exact ⟨Block.empty_beside, .nil⟩
  | @cons f f' fs fs' hf hfs =>
    obtain ⟨returns, captures, blocks⟩ := f
    obtain ⟨returns', captures', blocks'⟩ := f'
    obtain ⟨hreturns, hcaptures, hblocks, hunseen⟩ := hf
    dsimp only at hreturns hcaptures hblocks hunseen
    cases hblocks with
    | nil => exact ⟨Block.empty_beside, .cons ⟨hreturns, hcaptures, .nil, hunseen⟩ hfs⟩
    | cons hb hbs => exact ⟨hb, .cons ⟨hreturns, hcaptures, hbs, hunseen⟩ hfs⟩

theorem commonInitializes_beside {arms arms' : List Block} (h : List.Forall₂ (Block.Beside t) arms arms') :
    commonInitializes arms' = commonInitializes arms ∧ t ∉ (commonInitializes arms).names := by
  have hgoing : List.Forall₂ (Block.Beside t) (arms.filter fun b => !b.alwaysReturns)
      (arms'.filter fun b => !b.alwaysReturns) := by
    induction h with
    | nil => exact .nil
    | cons hb _ ih =>
      rw [List.filter_cons, List.filter_cons, hb.alwaysReturns]
      split
      · exact .cons hb ih
      · exact ih
  unfold commonInitializes
  generalize (arms.filter fun b => !b.alwaysReturns) = going at hgoing
  generalize (arms'.filter fun b => !b.alwaysReturns) = going' at hgoing
  cases hgoing with
  | nil => exact ⟨rfl, List.not_mem_nil⟩
  | @cons b b' bs bs' hb hbs =>
    have hall (name : String) : (bs'.all fun b => Row.contains b.initializes name) =
        bs.all fun b => Row.contains b.initializes name := by
      induction hbs with
      | nil => rfl
      | cons hc _ ih => rw [List.all_cons, List.all_cons, hc.initializes, ih]
    dsimp only
    refine ⟨by simp only [hb.initializes, hall], fun hmem => ?_⟩
    obtain ⟨u, hu⟩ := (Row.contains_iff _).1 ((Row.mem_names_iff _).1 hmem)
    have hseen := Row.contains_of_get? ((Row.get?_filter_eq_some_iff _ _).1 hu).1
    rw [hb.unseen] at hseen
    cases hseen

theorem Beside.joinArms (h : Beside t s s') {arms arms' : List Block}
    (harms : List.Forall₂ (Block.Beside t) arms arms') : Beside t (s.joinArms arms) (s'.joinArms arms') := by
  obtain ⟨hcommon, hunseen⟩ := commonInitializes_beside harms
  have hall : arms'.all Block.alwaysReturns = arms.all Block.alwaysReturns := by
    clear hcommon hunseen
    induction harms with
    | nil => rfl
    | cons hb _ ih => rw [List.all_cons, List.all_cons, hb.alwaysReturns, ih]
  unfold Scope.joinArms
  rw [hcommon]
  refine h.modifyBlock fun hb => ?_
  have hjoined := hb.giveAll hunseen
  exact ⟨hjoined.locals, hjoined.initializes, by dsimp only; rw [hjoined.alwaysReturns, hall], hjoined.unseen⟩

theorem Beside.tail (h : Beside t s s') : Beside t s.tail s'.tail := by
  cases h with
  | nil => exact .nil
  | cons _ hfs => exact hfs

theorem Beside.headD (h : Beside t s s') (hf : f.Beside t f') : (s.headD f).Beside t (s'.headD f') := by
  cases h with
  | nil => exact hf
  | cons hg _ => exact hg

theorem Beside.returns (h : Beside t s s') :
    (s'.head?.map Frame.returns).getD default = (s.head?.map Frame.returns).getD default := by
  cases h with
  | nil => rfl
  | cons hf _ => exact hf.returns

/-! ### Locals -/

theorem Beside.sight (h : Beside t s s') (hname : name ≠ t) : s'.sight name = s.sight name := by
  induction h with
  | nil => rfl
  | @cons f f' fs fs' hf _ ih =>
    obtain ⟨returns, captures, blocks⟩ := f
    obtain ⟨returns', captures', blocks'⟩ := f'
    have hblocks := hf.blocks
    clear hf
    dsimp only at hblocks
    induction hblocks with
    | nil => rw [sight_frame, sight_frame, ih]
    | cons hb _ ihb => rw [sight_block, sight_block, hb.locals name hname, hb.initializes, ihb]

theorem Beside.typeOf? (h : Beside t s s') (hname : name ≠ t) : s'.typeOf? name = s.typeOf? name := by
  rw [Scope.typeOf?, Scope.typeOf?, h.sight hname]

theorem Beside.capture (h : Beside t s s') (hname : name ≠ t) (n : Nat) :
    Beside t (s.mapIdx fun i f => if i < n then { f with captures := f.captures.add name } else f)
      (s'.mapIdx fun i f => if i < n then { f with captures := f.captures.add name } else f) := by
  induction h generalizing n with
  | nil => exact .nil
  | @cons f f' fs fs' hf _ ih =>
    rw [List.mapIdx_cons, List.mapIdx_cons]
    refine .cons ?_ (by simpa only [Nat.add_lt_iff_lt_sub_right] using ih (n - 1))
    split
    · exact ⟨hf.returns, congrArg (NameSet.add · name) hf.captures, hf.blocks,
        NameSet.not_contains_add hf.unseen hname⟩
    · exact hf

theorem Beside.access (h : Beside t s s') (hname : name ≠ t) (span : Span) (assigned : Bool) :
    (∃ e, s.access name span assigned = .error e ∧ s'.access name span assigned = .error e) ∨
      (s.access name span assigned = .ok none ∧ s'.access name span assigned = .ok none) ∨
      ∃ type u u', s.access name span assigned = .ok (some (type, u)) ∧
        s'.access name span assigned = .ok (some (type, u')) ∧ Beside t u u' := by
  unfold Scope.access
  rw [h.sight hname]
  cases s.sight name with
  | none => exact .inr (.inl ⟨rfl, rfl⟩)
  | some v =>
    dsimp only
    split
    · exact .inl ⟨_, rfl, rfl⟩
    split
    · exact .inl ⟨_, rfl, rfl⟩
    refine .inr (.inr ⟨_, _, _, rfl, rfl, Beside.capture ?_ hname _⟩)
    split
    · exact h.modifyBlock fun hb => hb.give hname
    · exact h

end Scope

end scope

/-! ### States of drafting -/

/-- The same point of drafting, apart from a local that is not seen. -/
structure Drafting.Beside (t : String) (s s' : Drafting) : Prop where
  graph : s'.graph = s.graph
  scope : s.scope.Beside t s'.scope
  constraints : s'.constraints = s.constraints
  usages : s'.usages = s.usages

namespace DraftM

/-- Both computations draft the same. After a failure only the types matter. -/
abbrev Beside {α β : Type} (t : String) (V : α → β → Prop) (x : DraftM α) (y : DraftM β) : Prop :=
  Parallel (Drafting.Beside t) (fun s s' => s'.graph = s.graph) V x y

variable {α β : Type} {t : String} {V : α → β → Prop} {x : DraftM α} {y : DraftM β}

theorem Beside.throw (e : TypeError) : Beside t V (MonadExcept.throw e) (MonadExcept.throw e) :=
  Parallel.throw e fun h => h.graph

theorem Beside.get_bind {f : Drafting → DraftM α} {f' : Drafting → DraftM β}
    (h : ∀ s s', Drafting.Beside t s s' → Beside t V (f s) (f' s')) : Beside t V (get >>= f) (get >>= f') :=
  ⟨fun {s s'} hs => (h s s' hs).run hs⟩

/-! ### Steps -/

theorem allocate_beside (type : Ty) : Beside t Eq (allocate type) (allocate type) where
  run {s s'} hs := by
    obtain ⟨graph, scope, constraints, usages⟩ := s
    obtain ⟨graph', scope', constraints', usages'⟩ := s'
    obtain ⟨rfl, hscope, rfl, rfl⟩ := hs
    exact .ok rfl ⟨rfl, hscope, rfl, rfl⟩

theorem fresh_beside : Beside t Eq fresh fresh := allocate_beside Ty.any

theorem unit_beside (span : Span) : Beside t Eq (unit span) (unit span) := allocate_beside ⟨.unit, some span⟩

theorem fresh_total (s : Drafting) : ∃ v s', fresh s = .ok v s' := ⟨_, _, rfl⟩

theorem freshFor_total {γ : Type} (l : List γ) (s : Drafting) : ∃ vs s', freshFor l s = .ok vs s' := by
  induction l generalizing s with
  | nil => exact ⟨_, _, rfl⟩
  | cons _ l ih =>
    obtain ⟨v, s₁, hfresh⟩ := fresh_total s
    obtain ⟨vs, s₂, hrest⟩ := ih s₁
    exact ⟨v :: vs, s₂, by rw [freshFor, bind_of_ok hfresh, bind_of_ok hrest]; rfl⟩

theorem emit_beside (target : TypeVar) (span : Span) (demand : Demand) :
    Beside t Eq (emit target span demand) (emit target span demand) where
  run hs := .ok rfl ⟨hs.graph, hs.scope, congrArg (Array.push · _) hs.constraints, hs.usages⟩

theorem modifyScope_beside {change change' : Scope → Scope}
    (h : ∀ {s s'}, Scope.Beside t s s' → Scope.Beside t (change s) (change' s')) :
    Beside t Eq (modifyScope change) (modifyScope change') where
  run hs := .ok rfl ⟨hs.graph, h hs.scope, hs.constraints, hs.usages⟩

theorem inBlock_beside {φ : α → β} {block block' : Block} (hblock : block.Beside t block')
    (hx : Beside t (fun a b => b = φ a) x y) :
    Beside t (Ended (Block.Beside t) φ) (inBlock block x) (inBlock block' y) := by
  refine (modifyScope_beside fun hs => hs.enterBlock hblock).bind_eq fun _ => hx.bind fun {a b} hab => ?_
  refine ⟨fun {s s'} hs => ?_⟩
  obtain ⟨hexit, hrest⟩ := hs.scope.exitBlock
  exact .ok ⟨hab, hexit⟩ ⟨hs.graph, hrest, hs.constraints, hs.usages⟩

/-- Two values that were drafted in a frame of their own, which captured the same. -/
def Enclosed (t : String) (V : α → β → Prop) (a : α × NameSet) (b : β × NameSet) : Prop :=
  V a.1 b.1 ∧ b.2 = a.2 ∧ Row.contains a.2 t = false

theorem inFrame_matched {frame : Frame} (hframe : frame.Beside t frame) (span : Span) {s s' : Drafting}
    (hx : Matched (Drafting.Beside t) (fun s s' => s'.graph = s.graph) V
      (x { s with scope := frame :: s.scope }) (y { s' with scope := frame :: s'.scope })) :
    Matched (Drafting.Beside t) (fun s s' => s'.graph = s.graph) (Enclosed t V)
      (inFrame frame span x s) (inFrame frame span y s') := by
  refine hx.bind fun {a b u u'} hab hu => Parallel.run (Beside.get_bind fun s s' hs => ?_) hu
  have htail : Beside t Eq (modifyScope List.tail) (modifyScope List.tail) :=
    modifyScope_beside fun hs => hs.tail
  have hhead : (s.scope.headD frame).Beside t (s'.scope.headD frame) := hs.scope.headD hframe
  refine htail.bind_eq fun _ => ?_
  dsimp only
  rw [hhead.alwaysReturns, hhead.returns]
  split
  · exact .pure ⟨hab, hhead.captures, hhead.unseen⟩
  · exact (emit_beside _ _ _).bind_eq fun _ => .pure ⟨hab, hhead.captures, hhead.unseen⟩

theorem inFrame_beside {frame : Frame} (hframe : frame.Beside t frame) (span : Span) (hx : Beside t V x y) :
    Beside t (Enclosed t V) (inFrame frame span x) (inFrame frame span y) :=
  ⟨fun hs => inFrame_matched hframe span (hx.run ⟨hs.graph, .cons hframe hs.scope, hs.constraints, hs.usages⟩)⟩

theorem isolated_beside (hx : Beside t V x y) : Beside t V (isolated x) (isolated y) := by
  refine .get_bind fun s s' hs => fresh_beside.bind_eq fun returns => ?_
  refine (modifyScope_beside fun _ => .cons (Frame.ofParams_beside [] returns) .nil).bind_eq fun _ => ?_
  refine hx.bind fun hab => ?_
  exact (modifyScope_beside fun _ => hs.scope).bind_eq fun _ => .pure hab

/-! ### References -/

theorem useProcedure_beside (usage : ProcedureUsage) : Beside t Eq (useProcedure usage) (useProcedure usage) where
  run {s s'} hs := by
    obtain ⟨graph, scope, constraints, usages⟩ := s
    obtain ⟨graph', scope', constraints', usages'⟩ := s'
    obtain ⟨rfl, hscope, rfl, rfl⟩ := hs
    exact .ok rfl ⟨rfl, hscope, rfl, rfl⟩

theorem useVariable_beside (usage : VariableUsage) : Beside t Eq (useVariable usage) (useVariable usage) where
  run {s s'} hs := by
    obtain ⟨graph, scope, constraints, usages⟩ := s
    obtain ⟨graph', scope', constraints', usages'⟩ := s'
    obtain ⟨rfl, hscope, rfl, rfl⟩ := hs
    exact .ok rfl ⟨rfl, hscope, rfl, rfl⟩

theorem accessLocal_beside {name : String} (hname : name ≠ t) (span : Span) (assigned : Bool) :
    Beside t Eq (accessLocal name span assigned) (accessLocal name span assigned) := by
  refine .get_bind fun s s' hs => ?_
  obtain ⟨e, h, h'⟩ | ⟨h, h'⟩ | ⟨type, u, u', h, h', hu⟩ := hs.scope.access hname span assigned
  · rw [h, h']
    exact .throw e
  · rw [h, h']
    exact .pure rfl
  · rw [h, h']
    exact (modifyScope_beside fun _ => hu).bind_eq fun _ => .pure rfl

/-! ### Expressions -/

theorem beside_compares (t : String) :
    Compares (.parallel (Drafting.Beside t) fun s s' => s'.graph = s.graph) id (Drafting.Beside t) (Block.Beside t)
      (· ≠ t) where
  throw e := .throw e fun h => h.graph
  get_bind h := ⟨fun {s s'} hs => (h s s' hs).run hs⟩
  typeOf? hs hname := by rw [hs.scope.typeOf? hname, Option.map_id, id]
  returns hs := hs.scope.returns
  fresh := fresh_beside.imp Eq.symm
  unit span := (unit_beside span).imp Eq.symm
  emit target span d := by
    rw [Demand.mapVars_id]
    exact emit_beside target span d
  useProcedure usage := by
    rw [ProcedureUsage.mapVars_id]
    exact useProcedure_beside usage
  useVariable usage := useVariable_beside usage
  accessLocal hname span assigned := (accessLocal_beside hname span assigned).imp fun hab => by
    rw [← hab, Option.map_id, id]
  declare name l := modifyScope_beside fun hs => hs.modifyBlock fun hb => hb.declare name l
  giveBack := modifyScope_beside fun hs => hs.modifyBlock fun hb => ⟨hb.locals, hb.initializes, rfl, hb.unseen⟩
  joinArms h := modifyScope_beside fun hs => hs.joinArms h
  empty := Block.empty_beside
  binding name v := Block.empty_beside.declare name ⟨v, true, false⟩
  inBlock := inBlock_beside
  inFrame params args returns span hx := by
    rw [List.map_id]
    refine (inFrame_beside (Frame.ofParams_beside _ _) span hx).imp fun hab => ?_
    obtain ⟨hvalue, hcaptured, hunseen⟩ := hab
    refine ⟨Prod.ext hvalue hcaptured, fun name hname heq => ?_⟩
    rw [← heq, (Row.mem_names_iff _).1 hname] at hunseen
    cases hunseen
  isolated := isolated_beside

theorem returnType_beside : Beside t Eq returnType returnType := (beside_compares t).returnType.imp Eq.symm

section references

variable {γ : Type} {context context' : DraftContext}

theorem ne_of_unseen {names : List String} (h : t ∉ names) : ∀ name ∈ names, name ≠ t := fun _ hname heq =>
  h (heq ▸ hname)

theorem callsProcedure_beside (hcontext : SameInterfaces context context') {path : Path}
    (hpath : t ∉ path.localName?.toList) :
    Beside t Eq (callsProcedure context path) (callsProcedure context' path) :=
  (beside_compares t).callsProcedure hcontext (ne_of_unseen hpath)

theorem access_beside (hcontext : SameInterfaces context context') {path : Path} (hpath : t ∉ path.localName?.toList)
    (span : Span) (assigned : Bool) :
    Beside t Eq (access context path span assigned) (access context' path span assigned) :=
  ((beside_compares t).access hcontext (ne_of_unseen hpath) span assigned).imp fun hab =>
    (hab.trans (Expr.map_id _)).symm

theorem expr_beside (hcontext : SameInterfaces context context') (e : Expr γ) (h : t ∉ e.seen) :
    Beside t Eq (expr context e) (expr context' e) :=
  (expr_compares (beside_compares t) hcontext e (ne_of_unseen h)).imp fun hab => (hab.trans (Expr.map_id _)).symm

theorem exprs_beside (hcontext : SameInterfaces context context') (es : List (Expr γ)) (h : t ∉ Expr.seenAll es) :
    Beside t Eq (exprs context es) (exprs context' es) :=
  (exprs_compares (beside_compares t) hcontext es (ne_of_unseen h)).imp fun hab =>
    (hab.trans (Expr.mapAll_id _)).symm

end references

end DraftM

/-! ### Drafts -/

namespace Draft

/-- The drafts are the same but for the bodies, which are related. -/
structure Matches (R : List (Expr TypeVar) → List (Expr TypeVar) → Prop) (d d' : Draft) : Prop where
  args : d'.args = d.args
  returns : d'.returns = d.returns
  constraints : d'.constraints = d.constraints
  usages : d'.usages = d.usages
  body : R d.body d'.body

/-- Both drafts match or both fail with the same error; the types are the same. -/
inductive Alike (R : List (Expr TypeVar) → List (Expr TypeVar) → Prop) :
    Except TypeError Draft × TypeGraph → Except TypeError Draft × TypeGraph → Prop
  | ok {d d' : Draft} {g : TypeGraph} (h : Matches R d d') : Alike R (.ok d, g) (.ok d', g)
  | error {e : TypeError} {g : TypeGraph} : Alike R (.error e, g) (.error e, g)

theorem Alike.imp {R Q : List (Expr TypeVar) → List (Expr TypeVar) → Prop} {r r' : Except TypeError Draft × TypeGraph}
    (h : Alike R r r') (himp : ∀ body body', R body body' → Q body body') : Alike Q r r' := by
  cases h with
  | ok h => exact .ok ⟨h.args, h.returns, h.constraints, h.usages, himp _ _ h.body⟩
  | error => exact .error

variable {t : String} {R : List (Expr TypeVar) → List (Expr TypeVar) → Prop} {context context' : DraftContext}

theorem run_alike {x y : DraftM (List TypeVar × TypeVar × List (Expr TypeVar))}
    (h : ∀ s : Drafting, s.scope = [] → Matched (Drafting.Beside t) (fun s s' => s'.graph = s.graph)
      (fun a b => b.1 = a.1 ∧ b.2.1 = a.2.1 ∧ R a.2.2 b.2.2) (x s) (y s)) (g : TypeGraph) :
    Alike R (run x g) (run y g) := by
  have hend := h ⟨g, [], #[], ⟨#[], #[]⟩⟩ rfl
  unfold run
  generalize x _ = r at hend
  generalize y _ = r' at hend
  cases hend with
  | @ok a b s s' hab hs =>
    obtain ⟨hargs, hreturns, hbody⟩ := hab
    dsimp only
    rw [hs.graph]
    exact .ok ⟨hargs, hreturns, congrArg Array.toList hs.constraints, hs.usages, hbody⟩
  | @error e s s' hs =>
    dsimp only
    rw [hs]
    exact .error

/-- A procedure is drafted alike if what is at its start is. -/
theorem ofProcedure_alike {params : List String} {body body' : List (Expr Unit)} {span : Span}
    (h : ∀ (s : Drafting) (args : List TypeVar) (returns : TypeVar), args.length = params.length →
      s.scope = [.ofParams (params.zip args) returns] →
        Matched (Drafting.Beside t) (fun s s' => s'.graph = s.graph) R (DraftM.exprs context body s)
          (DraftM.exprs context' body' s)) (g : TypeGraph) :
    Alike R (ofProcedure context params body span g) (ofProcedure context' params body' span g) := by
  refine run_alike (t := t) (fun s hs => ?_) g
  obtain ⟨args, s₁, hargs⟩ := DraftM.freshFor_total params s
  obtain ⟨returns, s₂, hreturns⟩ := DraftM.fresh_total s₁
  have hscope : s₂.scope = [] := by
    have hlayout := ((DraftM.freshFor_ok hargs).1.quiet (DraftM.fresh_ok hreturns)).layout
    rw [hs] at hlayout
    exact List.map_eq_nil_iff.1 hlayout
  rw [bind_of_ok hargs, bind_of_ok hargs, bind_of_ok hreturns, bind_of_ok hreturns]
  have hlength := (DraftM.freshFor_ok hargs).2
  refine (DraftM.inFrame_matched (Frame.ofParams_beside _ _) span (h _ args returns hlength ?_)).bind fun hab hst => ?_
  · dsimp only
    rw [hscope]
  · exact .ok ⟨rfl, rfl, hab.1⟩ hst

/-- What is said of the symbols that a body refers to is all that matters of them. -/
theorem ofProcedure_congr (h : DraftM.SameInterfaces context context') (params : List String)
    (body : List (Expr Unit)) (span : Span) (g : TypeGraph) :
    Alike Eq (ofProcedure context params body span g) (ofProcedure context' params body span g) := by
  obtain ⟨t, ht⟩ := exists_unseen (Expr.seenAll body)
  refine ofProcedure_alike (t := t) (fun s args returns _ hs => ?_) g
  have hscope : s.scope.Beside t s.scope := hs ▸ .cons (Frame.ofParams_beside _ _) .nil
  exact (DraftM.exprs_beside h body ht).run ⟨rfl, hscope, rfl, rfl⟩

theorem ofVariable_congr (h : DraftM.SameInterfaces context context') (value : Expr Unit) (g : TypeGraph) :
    Alike Eq (ofVariable context value g) (ofVariable context' value g) := by
  obtain ⟨t, ht⟩ := exists_unseen value.seen
  refine run_alike (t := t) (fun s hs => ?_) g
  have hscope : s.scope.Beside t s.scope := hs ▸ .nil
  refine Parallel.run ((DraftM.isolated_beside (DraftM.expr_beside h value ht)).bind_eq fun value => ?_)
    ⟨rfl, hscope, rfl, rfl⟩
  exact .pure ⟨rfl, rfl, rfl⟩

end Draft

end Monomorph
