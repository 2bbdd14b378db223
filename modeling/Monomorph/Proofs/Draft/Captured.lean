import Mathlib
import Monomorph.Proofs.Draft.Performed
import Monomorph.Proofs.Draft.Sight

/-! # What closures capture

A body *uses* the locals that it reads, calls or assigns and does not declare before (`Act.freeAll`): the blocks
of its own arms and the parameters of closures inside bind names, constants see none. While a body is drafted,
every frame between a use and the frame of its local notes the name; `Act.captures_runsAll` says that each frame
notes exactly the names that are free in what was drafted inside of it. The names are looked up again where the
closure ends, and still mean the locals that were used.

So what is recorded for a closure are its free locals with their types (`Draft.Made.captures_free`). -/

namespace Monomorph

/-- A use of a local by its name: it is read or, if `assigned`, gets a value. -/
structure Use where
  name : String
  type : TypeVar
  assigned : Bool
  deriving DecidableEq

namespace Act

/-! ### Free uses -/

mutual

/-- The uses of locals that are not among those bound. -/
def free (bound : List String) : Act → List Use
  | .read n type => if n ∈ bound then [] else [⟨n, type, false⟩]
  | .assign n type => if n ∈ bound then [] else [⟨n, type, true⟩]
  | .perhaps right => freeAll bound right
  | .branch arms => freeArms bound arms
  | .closure _ _ body => freeAll bound body
  | .declare .. | .giveBack | .unwrap | .apart _ => []

/-- The free uses of acts in order, in which what is declared binds its name from there on. -/
def freeAll (bound : List String) : List Act → List Use
  | [] => []
  | a :: rest => free bound a ++ freeAll ((declared a).map (·.1) ++ bound) rest

def freeArms (bound : List String) : List (List Act) → List Use
  | [] => []
  | arm :: rest => freeAll bound arm ++ freeArms bound rest

end

mutual

theorem mem_free_append {own bound : List String} {u : Use} : (a : Act) →
    (u ∈ free (own ++ bound) a ↔ u ∈ free bound a ∧ u.name ∉ own)
  | .read n type => by
    by_cases hown : n ∈ own <;> by_cases hbound : n ∈ bound <;> simp [free, hown, hbound] <;> grind
  | .assign n type => by
    by_cases hown : n ∈ own <;> by_cases hbound : n ∈ bound <;> simp [free, hown, hbound] <;> grind
  | .perhaps right => mem_freeAll_append right
  | .branch arms => mem_freeArms_append arms
  | .closure _ _ body => mem_freeAll_append body
  | .declare .. => by simp [free]
  | .giveBack => by simp [free]
  | .unwrap => by simp [free]
  | .apart _ => by simp [free]

theorem mem_freeAll_append {own bound : List String} {u : Use} : (acts : List Act) →
    (u ∈ freeAll (own ++ bound) acts ↔ u ∈ freeAll bound acts ∧ u.name ∉ own)
  | [] => by simp [freeAll]
  | a :: rest => by
    have hrest : u ∈ freeAll ((declared a).map (·.1) ++ (own ++ bound)) rest ↔
        u ∈ freeAll ((declared a).map (·.1) ++ bound) rest ∧ u.name ∉ own := by
      rw [mem_freeAll_append rest, mem_freeAll_append rest, mem_freeAll_append rest]
      exact and_right_comm
    rw [freeAll, freeAll, List.mem_append, List.mem_append, mem_free_append a, hrest]
    exact or_and_right.symm

theorem mem_freeArms_append {own bound : List String} {u : Use} : (arms : List (List Act)) →
    (u ∈ freeArms (own ++ bound) arms ↔ u ∈ freeArms bound arms ∧ u.name ∉ own)
  | [] => by simp [freeArms]
  | arm :: rest => by
    rw [freeArms, freeArms, List.mem_append, List.mem_append, mem_freeAll_append arm, mem_freeArms_append rest]
    exact or_and_right.symm

end

theorem freeAll_append (bound : List String) (as bs : List Act) :
    freeAll bound (as ++ bs) = freeAll bound as ++ freeAll ((declaredAll as).map (·.1) ++ bound) bs := by
  induction as generalizing bound with
  | nil => simp [freeAll, declaredAll]
  | cons a as ih => simp [freeAll, declaredAll, ih]

end Act

/-! ### Layouts -/

namespace Layout

/-- There is a block to declare locals in. -/
def Inside (l : Layout) : Prop := ∃ returns block blocks frames, l = ⟨returns, block :: blocks⟩ :: frames

/-- The names bound are those declared. -/
def Binds (l : Layout) (bound : List String) : Prop := ∀ n, n ∈ bound ↔ (l.lookup n).isSome

variable {l : Layout} {bound : List String}

theorem lookup_append (l l' : Layout) (n : String) : (l ++ l').lookup n = (l.lookup n).or (l'.lookup n) := by
  rw [lookup, List.flatMap_append, List.findSome?_append]
  rfl

theorem Inside.lookup_declare (h : l.Inside) (n m : String) (type : TypeVar) :
    (l.declare n type).lookup m = if n = m then some type else l.lookup m := by
  obtain ⟨returns, block, blocks, frames, rfl⟩ := h
  simp only [lookup, declare, FrameLayout.declare, List.flatMap_cons, List.cons_append, List.findSome?_cons,
    Row.get?_insert]
  by_cases hn : n = m
  · simp [hn]
  · simp [hn]

theorem Inside.declare (h : l.Inside) (n : String) (type : TypeVar) : (l.declare n type).Inside := by
  obtain ⟨returns, block, blocks, frames, rfl⟩ := h
  exact ⟨_, _, _, _, rfl⟩

theorem Inside.declareAll (h : l.Inside) (added : List (String × TypeVar)) : (l.declareAll added).Inside := by
  induction added with
  | nil => exact h
  | cons e added ih => exact ih.declare e.1 e.2

theorem Inside.enter (h : l.Inside) : (l.enter .empty).Inside := by
  obtain ⟨returns, block, blocks, frames, rfl⟩ := h
  exact ⟨_, _, _, _, rfl⟩

theorem Inside.take (h : l.Inside) (k : Nat) : Inside (l.take (k + 1)) := by
  obtain ⟨returns, block, blocks, frames, rfl⟩ := h
  exact ⟨_, _, _, _, rfl⟩

theorem take_declareAll (added : List (String × TypeVar)) (l : Layout) (k : Nat) :
    (l.declareAll added).take (k + 1) = Layout.declareAll added (l.take (k + 1)) := by
  induction added with
  | nil => rfl
  | cons e added ih =>
    change (Layout.declare e.1 e.2 (l.declareAll added)).take (k + 1) =
      Layout.declare e.1 e.2 (Layout.declareAll added (l.take (k + 1)))
    rw [← ih]
    cases l.declareAll added <;> rfl

theorem drop_declareAll (added : List (String × TypeVar)) (l : Layout) (k : Nat) :
    (l.declareAll added).drop (k + 1) = l.drop (k + 1) := by
  induction added with
  | nil => rfl
  | cons e added ih =>
    change (Layout.declare e.1 e.2 (l.declareAll added)).drop (k + 1) = _
    rw [← ih]
    cases l.declareAll added <;> rfl

theorem Binds.declareAll (hl : l.Inside) (h : l.Binds bound) (added : List (String × TypeVar)) :
    (l.declareAll added).Binds (added.map (·.1) ++ bound) := by
  induction added with
  | nil => exact h
  | cons e added ih =>
    intro n
    change _ ↔ (Layout.lookup (Layout.declare e.1 e.2 (l.declareAll added)) n).isSome
    rw [(hl.declareAll added).lookup_declare, List.map_cons, List.cons_append, List.mem_cons, ih n]
    by_cases hn : e.1 = n
    · simp [hn]
    · simp [hn, Ne.symm hn]

theorem lookup_enter (hl : l.Inside) (n : String) : (l.enter .empty).lookup n = l.lookup n := by
  obtain ⟨returns, block, blocks, frames, rfl⟩ := hl
  rfl

theorem take_enter (l : Layout) (k : Nat) : (l.enter .empty).take (k + 1) = Layout.enter .empty (l.take (k + 1)) := by
  cases l <;> rfl

theorem drop_enter (l : Layout) (k : Nat) : (l.enter .empty).drop (k + 1) = l.drop (k + 1) := by
  cases l <;> rfl

end Layout

/-! ### What frames note -/

namespace Scope

/-- The frame with a number, from the inside, notes that it uses a local of a frame around it. -/
def Notes (s : Scope) (k : Nat) (n : String) : Prop :=
  ∃ c, (s.map Frame.captures)[k]? = some c ∧ Row.contains c n = true

/-- From one scope to another, the frame with the number `k` notes the names of some uses, which are uses of
locals of the frames around it. -/
structure Captures (k : Nat) (uses : List Use) (s s' : Scope) : Prop where
  outside : ∀ u ∈ uses, Layout.lookup (s.layout.drop (k + 1)) u.name = some u.type
  notes : ∀ n, s'.Notes k n ↔ s.Notes k n ∨ ∃ u ∈ uses, u.name = n

variable {s s₁ s' : Scope} {k : Nat} {uses uses' : List Use} {n : String}

theorem Captures.none (h : ∀ n, s'.Notes k n ↔ s.Notes k n) : Captures k [] s s' :=
  ⟨nofun, fun n => (h n).trans (by simp)⟩

theorem Captures.trans (h : Captures k uses s s₁) (h' : Captures k uses' s₁ s')
    (hdrop : s₁.layout.drop (k + 1) = s.layout.drop (k + 1)) : Captures k (uses ++ uses') s s' where
  outside u hu := (List.mem_append.1 hu).elim (h.outside u) fun hu => hdrop ▸ h'.outside u hu
  notes n := by
    rw [h'.notes, h.notes, or_assoc]
    simp [or_and_right, exists_or]

theorem notes_congr (h : s'.map Frame.captures = s.map Frame.captures) : s'.Notes k n ↔ s.Notes k n := by
  rw [Notes, Notes, h]

theorem captures_modifyBlock (f : Block → Block) (s : Scope) :
    (s.modifyBlock f).map Frame.captures = s.map Frame.captures := by
  unfold modifyBlock
  split <;> rfl

theorem captures_enterBlock (b : Block) (s : Scope) :
    (s.enterBlock b).map Frame.captures = s.map Frame.captures := by
  cases s <;> rfl

theorem captures_exitBlock (s : Scope) : s.exitBlock.2.map Frame.captures = s.map Frame.captures := by
  unfold exitBlock
  split <;> rfl

theorem notes_mapIdx (s : Scope) (j : Nat) (n m : String) :
    Notes (s.mapIdx fun i f => if i < j then { f with captures := f.captures.add n } else f) k m ↔
      s.Notes k m ∨ k < j ∧ k < s.length ∧ n = m := by
  simp only [Notes, List.getElem?_map, List.getElem?_mapIdx]
  cases hk : s[k]? with
  | none =>
    have hle : s.length ≤ k := List.getElem?_eq_none_iff.1 hk
    simp only [Option.map_none]
    constructor
    · rintro ⟨_, ⟨⟩, -⟩
    · rintro (⟨_, ⟨⟩, -⟩ | ⟨-, hlt, -⟩)
      omega
  | some f =>
    have hlt : k < s.length := (List.getElem?_eq_some_iff.1 hk).1
    by_cases hj : k < j
    · simp [hj, hlt, NameSet.contains_add, or_comm]
    · simp [hj]

/-- A name that is noted is captured with the type of the local that it means. -/
theorem captured_get? (s : Scope) (names : NameSet) (n : String) (type : TypeVar) :
    (s.captured names).get? n = some type ↔ Row.contains names n = true ∧ s.layout.lookup n = some type := by
  have hnoted {v : TypeVar} (h : (s.captured names).get? n = some v) :
      Row.contains names n = true ∧ s.typeOf? n = some v := by
    obtain ⟨m, hm, hv⟩ := List.mem_filterMap.1 (Row.mem_of_get?_ofList h)
    obtain ⟨w, hw, heq⟩ := Option.map_eq_some_iff.1 hv
    cases heq
    exact ⟨(Row.mem_names_iff names).1 hm, hw⟩
  rw [← typeOf?_eq_lookup]
  refine ⟨hnoted, fun ⟨hcontains, htype⟩ => ?_⟩
  have hmem : (n, type) ∈ names.names.filterMap fun name => (s.typeOf? name).map fun type => (name, type) :=
    List.mem_filterMap.2 ⟨n, (Row.mem_names_iff names).2 hcontains, by rw [htype]; rfl⟩
  obtain ⟨v, hv⟩ : ∃ v, (s.captured names).get? n = some v := by
    rw [← Option.isSome_iff_exists, captured, Row.get?_ofList, List.lookup_isSome_iff]
    exact ⟨_, List.mem_reverse.2 hmem, beq_self_eq_true n⟩
  rwa [← (hnoted hv).2.symm.trans htype]

/-- An access is noted by the frames between it and the local. -/
theorem access_notes {span : Span} {assigned : Bool} {type : TypeVar} {bound : List String}
    (hbound : Layout.Binds (s.layout.take (k + 1)) bound)
    (h : s.access n span assigned = .ok (some (type, s'))) :
    Captures k (if n ∈ bound then [] else [⟨n, type, assigned⟩]) s s' := by
  have hlookup := (access_ok h).1
  unfold access at h
  split at h
  · cases h
  · rename_i v hv
    have hframe := frame_lt_iff hv (k + 1)
    rw [← hbound n] at hframe
    split at h
    · cases h
    · split at h
      · cases h
      · cases h
        constructor
        · intro u hu
          split at hu
          · cases hu
          · rename_i hn
            obtain rfl := List.mem_singleton.1 hu
            have hnone : Layout.lookup (s.layout.take (k + 1)) n = none := by
              simpa using mt (hbound n).2 hn
            rwa [← List.take_append_drop (k + 1) s.layout, Layout.lookup_append, hnone] at hlookup
        · intro m
          have hlt : v.frame < s.length := by
            have hinside := frame_lt_iff hv s.layout.length
            rw [List.take_length, hlookup, layout, List.length_map] at hinside
            exact hinside.2 rfl
          suffices hall : ∀ t : Scope, t = s ∨ t = s.modifyBlock (fun b => b.initialize n) →
              (Notes (t.mapIdx fun i f => if i < v.frame then { f with captures := f.captures.add n } else f) k m ↔
                s.Notes k m ∨ ∃ u ∈ if n ∈ bound then [] else [(⟨n, v.binding.type, assigned⟩ : Use)], u.name = m) by
            refine hall _ ?_
            split
            · exact .inr rfl
            · exact .inl rfl
          intro t ht
          have hcaptures : t.map Frame.captures = s.map Frame.captures := by
            rcases ht with rfl | rfl
            · rfl
            · exact captures_modifyBlock _ s
          have hlength : t.length = s.length := by simpa using congrArg List.length hcaptures
          rw [notes_mapIdx, hlength, notes_congr hcaptures]
          by_cases hn : n ∈ bound
          · have hle := hframe.2 hn
            simp [hn]
            omega
          · have hlt' : k < v.frame := by
              have := mt hframe.1 hn
              omega
            have hk : k < s.length := by omega
            simp [hn, hlt', hk]

end Scope

/-! ### Every frame notes what is free inside -/

namespace Act

open Scope (Captures)

variable {r : Records}

theorem drop_runs {a : Act} {s s' : Scope} (h : Runs r a s s') (k : Nat) :
    s'.layout.drop (k + 1) = s.layout.drop (k + 1) := by
  rw [layout_runs a h, Layout.drop_declareAll]

mutual

theorem captures_runs : (a : Act) → ∀ {s s' k bound}, Runs r a s s' → s.layout.Inside →
    Layout.Binds (s.layout.take (k + 1)) bound → Captures k (free bound a) s s'
  | .read n type, s, s', k, bound, ⟨span, h⟩, _, hbound => Scope.access_notes hbound h
  | .assign n type, s, s', k, bound, ⟨span, h⟩, _, hbound => Scope.access_notes hbound h
  | .declare n l, s, s', k, bound, h, _, _ => by
    rw [Runs] at h
    exact .none fun m => Scope.notes_congr (h ▸ Scope.captures_modifyBlock _ s)
  | .giveBack, s, s', k, bound, h, _, _ => by
    rw [Runs] at h
    exact .none fun m => Scope.notes_congr (h ▸ Scope.captures_modifyBlock _ s)
  | .unwrap, s, s', k, bound, h, _, _ => by
    rw [Runs] at h
    exact .none fun m => h ▸ Iff.rfl
  | .perhaps right, s, s', k, bound, h, hinside, hbound => captures_runsAll right h hinside hbound
  | .branch arms, s, s', k, bound, h, hinside, hbound => by
    obtain ⟨s₁, blocks, harms, rfl⟩ := h
    obtain ⟨houtside, hnotes⟩ := captures_runsArms arms harms hinside hbound
    exact ⟨houtside, fun n => (Scope.notes_congr (Scope.captures_modifyBlock _ s₁)).trans (hnotes n)⟩
  | .closure returns captures body, s, s', k, bound, h, hinside, hbound => by
    obtain ⟨f, hbody, -⟩ := h
    have hbegin : Scope.layout (s.begin returns) = ⟨returns, [.empty]⟩ :: s.layout := layout_begin returns s
    have hinner : Layout.Binds ((Scope.layout (s.begin returns)).take (k + 2)) bound := hbegin ▸ hbound
    obtain ⟨houtside, hnotes⟩ := captures_runsAll body hbody (hbegin ▸ ⟨_, _, _, _, rfl⟩) hinner
    exact ⟨houtside, hnotes⟩
  | .apart inside, s, s', k, bound, h, _, _ => by
    obtain ⟨rfl, -⟩ := h
    exact .none fun m => Iff.rfl

theorem captures_runsAll : (acts : List Act) → ∀ {s s' k bound}, RunsAll r acts s s' → s.layout.Inside →
    Layout.Binds (s.layout.take (k + 1)) bound → Captures k (freeAll bound acts) s s'
  | [], s, s', k, bound, h, _, _ => by
    rw [RunsAll] at h
    exact .none fun m => h ▸ Iff.rfl
  | a :: rest, s, s', k, bound, h, hinside, hbound => by
    obtain ⟨s₁, ha, hrest⟩ := h
    have hlayout := layout_runs a ha
    have hbound₁ : Layout.Binds (s₁.layout.take (k + 1)) ((declared a).map (·.1) ++ bound) := by
      have hdeclared := hbound.declareAll (hinside.take k) (declaredTypes [a])
      rw [hlayout, Layout.take_declareAll]
      simpa [declaredTypes, declaredAll, Function.comp_def] using hdeclared
    exact (captures_runs a ha hinside hbound).trans
      (captures_runsAll rest hrest (hlayout ▸ hinside.declareAll _) hbound₁) (drop_runs ha k)

theorem captures_runsArms : (arms : List (List Act)) → ∀ {s blocks s' k bound}, RunsArms r arms s blocks s' →
    s.layout.Inside → Layout.Binds (s.layout.take (k + 1)) bound → Captures k (freeArms bound arms) s s'
  | [], s, blocks, s', k, bound, h, _, _ => by
    obtain ⟨-, rfl⟩ := h
    exact .none fun m => Iff.rfl
  | arm :: rest, s, blocks, s', k, bound, h, hinside, hbound => by
    obtain ⟨s₁, others, harm, -, hrest⟩ := h
    have henter : (s.enterBlock .empty).layout = s.layout.enter .empty := Scope.layout_enterBlock .empty s
    have hexit : s₁.exitBlock.2.layout = s.layout := by
      rw [Scope.layout_exitBlock, layout_runsAll arm harm, henter, Layout.leave_declareAll]
    have hboundArm : Layout.Binds ((s.enterBlock .empty).layout.take (k + 1)) bound := by
      intro n
      rw [henter, Layout.take_enter, Layout.lookup_enter (hinside.take k)]
      exact hbound n
    have harms : Captures k (freeAll bound arm) s s₁.exitBlock.2 := by
      obtain ⟨houtside, hnotes⟩ := captures_runsAll arm harm (henter ▸ hinside.enter) hboundArm
      refine ⟨fun u hu => ?_, fun n => ?_⟩
      · rw [← houtside u hu, henter, Layout.drop_enter]
      · rw [Scope.notes_congr (Scope.captures_exitBlock s₁), hnotes,
          Scope.notes_congr (Scope.captures_enterBlock .empty s)]
    exact harms.trans (captures_runsArms rest hrest (hexit ▸ hinside) (hexit ▸ hbound)) (by rw [hexit])

end

/-- What is captured by a closure is what is free in its body, with the types that the names have around it. -/
theorem captures_closure {returns : TypeVar} {captures : Row TypeVar} {body : List Act} {s s' : Scope}
    (h : Runs r (.closure returns captures body) s s') :
    (∀ u ∈ freeAll [] body, s.layout.lookup u.name = some u.type) ∧
      ∀ n type, captures.get? n = some type ↔ ∃ u ∈ freeAll [] body, u.name = n ∧ u.type = type := by
  have hlayout : s'.layout = s.layout := layout_runs _ h
  obtain ⟨f, hbody, rfl, -⟩ := h
  have hbegin : Scope.layout (s.begin returns) = ⟨returns, [.empty]⟩ :: s.layout := layout_begin returns s
  have hnothing : Layout.Binds ((Scope.layout (s.begin returns)).take 1) [] := by
    intro n
    rw [hbegin]
    exact iff_of_false List.not_mem_nil Bool.false_ne_true
  obtain ⟨houtside, hnotes⟩ := captures_runsAll body hbody (hbegin ▸ ⟨_, _, _, _, rfl⟩) hnothing
  have hlookup : ∀ u ∈ freeAll [] body, s.layout.lookup u.name = some u.type := houtside
  have hnoted (n : String) : Row.contains f.captures n = true ↔ ∃ u ∈ freeAll [] body, u.name = n := by
    have hempty : ¬Scope.Notes (s.begin returns) 0 n := by
      rintro ⟨_, ⟨⟩, hcontains⟩
      cases hcontains
    have hn := hnotes n
    rw [or_iff_right hempty] at hn
    rw [← hn]
    exact ⟨fun hcontains => ⟨_, rfl, hcontains⟩, fun ⟨_, hf, hcontains⟩ => by cases hf; exact hcontains⟩
  refine ⟨hlookup, fun n type => ?_⟩
  have hcaptured : (s'.captured f.captures).get? n = some type ↔
      Row.contains f.captures n = true ∧ s.layout.lookup n = some type := by
    rw [Scope.captured_get?, hlayout]
  rw [hcaptured, hnoted]
  constructor
  · rintro ⟨⟨u, hu, rfl⟩, htype⟩
    exact ⟨u, hu, rfl, Option.some.inj ((hlookup u hu).symm.trans htype)⟩
  · rintro ⟨u, hu, rfl, rfl⟩
    exact ⟨⟨u, hu, rfl⟩, hlookup u hu⟩

end Act

/-! ### Closures in drafts -/

/-- **Captures are the free locals.** Every closure in a draft, at any depth, is annotated; what is recorded as its
captures are exactly the names that its body uses and does not bind, each with the type variable of those uses. It is
the type variable of the local that the name means around the closure. -/
theorem Draft.Made.captures_free {d : Draft} {p q : Place} {m : Mark TypeVar} {params : List String}
    {body : List (Expr TypeVar)} {info? : Option (ClosureInfo TypeVar)} (h : d.Made p)
    (hmem : (q, .closure m params body info?) ∈ Expr.nodesOf p d.body) :
    ∃ info, info? = some info ∧
      (∀ name type, info.captures.get? name = some type ↔
        ∃ u ∈ Act.freeAll [] (Act.ofBody params info.args body), u.name = name ∧ u.type = type) ∧
      ∀ u ∈ Act.freeAll [] (Act.ofBody params info.args body), q.locals.lookup u.name = some u.type := by
  obtain ⟨info, rfl, -, -, hcaptures⟩ := h.recorded _ hmem
  obtain ⟨s, s', hruns⟩ := h.closuresRun _ hmem _ _ _ _ rfl
  obtain ⟨-, hfree⟩ := Act.captures_closure hruns
  refine ⟨info, rfl, hfree, fun u hu => ?_⟩
  exact hcaptures (u.name, u.type) ((Row.mem_entries_iff _).2 ((hfree _ _).2 ⟨u, hu, rfl, rfl⟩))

/-- A closure that reads `x` from around it and then declares its own `x`, which a closure inside of it reads together
with a `y` from around both. -/
def shadowing : List (Expr Unit) :=
  let m : Mark Unit := ⟨.none, ()⟩
  let var (name : String) : Expr Unit := .name m (.single name)
  [.closure m ["a"] [var "x", .define m "x" false (var "a"), .closure m [] [var "x", var "y"] none] none]

/-- It captures the parameters `x` and `y`; its own `x` is captured by the closure inside only. -/
theorem Draft.Made.captures_free_shadowing : ∃ d m body info q,
    Draft.alone ["x", "y"] shadowing = .ok d ∧ d.args = [⟨0⟩, ⟨1⟩] ∧
    (q, .closure m ["a"] body (some info)) ∈ Expr.nodesOf (.ofParams ["x", "y"] d.args d.returns) d.body ∧
    info.captures.entries = [("x", ⟨0⟩), ("y", ⟨1⟩)] ∧
    (∀ name type, info.captures.get? name = some type ↔
      ∃ u ∈ Act.freeAll [] (Act.ofBody ["a"] info.args body), u.name = name ∧ u.type = type) ∧
    ∀ u ∈ Act.freeAll [] (Act.ofBody ["a"] info.args body), q.locals.lookup u.name = some u.type := by
  let var (i : Nat) (name : String) : Expr TypeVar := .localVar ⟨.none, ⟨i⟩⟩ name
  let inside : Expr TypeVar := .closure ⟨.none, ⟨6⟩⟩ [] [var 3 "x", var 1 "y"]
    (some ⟨[], ⟨5⟩, (Row.empty.insert "x" ⟨3⟩).insert "y" ⟨1⟩⟩)
  let around : ClosureInfo TypeVar := ⟨[⟨3⟩], ⟨4⟩, (Row.empty.insert "x" ⟨0⟩).insert "y" ⟨1⟩⟩
  have hdraft : (Draft.alone ["x", "y"] shadowing).toOption.map (fun d => (d.args, d.body)) =
      some ([⟨0⟩, ⟨1⟩], [.closure ⟨.none, ⟨7⟩⟩ ["a"]
        [var 0 "x", .define ⟨.none, ⟨3⟩⟩ "x" false (var 3 "a"), inside] (some around)]) := by
    cbv
  obtain ⟨d, hd, hparts⟩ := Outcome.ok_of_toOption_map hdraft
  obtain ⟨hargs, hbody⟩ := Prod.mk.inj hparts
  have hmem (p : Place) : (p, .closure ⟨.none, ⟨7⟩⟩ ["a"]
      [var 0 "x", .define ⟨.none, ⟨3⟩⟩ "x" false (var 3 "a"), inside] (some around)) ∈ Expr.nodesOf p d.body := by
    rw [hbody, Expr.nodesOf, Expr.nodes]
    exact List.mem_cons_self
  obtain ⟨_, hprocedure⟩ := Draft.alone_ok hd
  obtain ⟨info, heq, hfree⟩ := Draft.Made.captures_free (.procedure hprocedure) (hmem _)
  obtain rfl := Option.some.inj heq
  exact ⟨d, _, _, _, _, hd, hargs, hmem _, by cbv, hfree⟩

end Monomorph
