import Monomorph.Proofs.Solve.Checked
import Monomorph.Proofs.Solve.Machine
import Monomorph.Proofs.Solve.Stacking

/-! # Solving ends

A symbol is pushed only if it is not on the stack, so no symbol is on it twice and it is never higher than there are
symbols (`Orderly`). The solver with a stack of its own goes along with `solve`, which is given the stack
(`StackM.solve_follows`): from a state with that stack it comes to the same end, and has the same stack again. So
solving ends without a limit on how deep it may be nested being reached (`StackM.solveSymbol_returns`). -/

namespace Monomorph

open Outcome

/-! ### Stacks -/

/-- A stack of different symbols, whose procedures have no more arguments than parameters if the native ones have
not. -/
structure Orderly (table : SymbolTable) (stack : List Activation) : Prop where
  nodup : (busy stack).Nodup
  registered : ∀ a ∈ stack, a.symbol < table.size
  fits : table.Fitting → ∀ a ∈ stack, a.solved.args.length ≤ table.arity a.symbol

def StackEvent.Sound (table : SymbolTable) : StackEvent → Prop
  | .changed scopes => (scopes.toList.map Activation.symbol).Nodup ∧ scopes.size ≤ table.size
  | .ended before after => after = before

namespace Orderly

variable {table : SymbolTable} {stack : List Activation}

theorem nil : Orderly table [] := ⟨List.nodup_nil, nofun, fun _ => nofun⟩

theorem push {a : Activation} (h : Orderly table stack) (hsize : a.symbol < table.size)
    (hfree : a.symbol ∉ busy stack) (hfits : table.Fitting → a.solved.args.length ≤ table.arity a.symbol) :
    Orderly table (a :: stack) where
  nodup := List.nodup_cons.2 ⟨hfree, h.nodup⟩
  registered := List.forall_mem_cons.2 ⟨hsize, h.registered⟩
  fits hfitting := List.forall_mem_cons.2 ⟨hfits hfitting, h.fits hfitting⟩

theorem length_le (h : Orderly table stack) : stack.length ≤ table.size := by
  have hsubset : busy stack ⊆ List.range table.size := fun id hid => by
    obtain ⟨a, ha, rfl⟩ := List.mem_map.1 hid
    exact List.mem_range.2 (h.registered a ha)
  have hlength := (h.nodup.subperm hsubset).length_le
  rwa [busy, List.length_map, List.length_range] at hlength

theorem sound (h : Orderly table stack) {scopes : Array Activation} (hscopes : scopes.toList = stack.reverse) :
    (StackEvent.changed scopes).Sound table := by
  refine ⟨?_, ?_⟩
  · rw [hscopes, List.map_reverse]
    exact List.nodup_reverse.2 h.nodup
  · rw [← Array.length_toList, hscopes, List.length_reverse]
    exact h.length_le

/-- It makes no difference from which end a symbol is looked for. -/
theorem find?_reverse (h : Orderly table stack) (id : Nat) :
    (stack.reverse.find? fun a => a.symbol == id) = stack.find? fun a => a.symbol == id := by
  cases hfound : stack.find? fun a => a.symbol == id with
  | none =>
    rw [List.find?_eq_none] at hfound ⊢
    exact fun a ha => hfound a (List.mem_reverse.1 ha)
  | some a =>
    have ha := List.find?_some hfound
    have hmem := List.mem_reverse.2 (List.mem_of_find?_eq_some hfound)
    cases hother : stack.reverse.find? fun a => a.symbol == id with
    | none => exact absurd ha (List.find?_eq_none.1 hother a hmem)
    | some b =>
      have hb := List.find?_some hother
      have hsame : b.symbol = a.symbol := (beq_iff_eq.1 hb).trans (beq_iff_eq.1 ha).symm
      exact congrArg some (List.inj_on_of_nodup_map h.nodup
        (List.mem_reverse.1 (List.mem_of_find?_eq_some hother)) (List.mem_reverse.1 hmem) hsame)

end Orderly

/-! ### One solver that follows the other -/

namespace Machine

/-- A solver with this stack and this workspace that has noted nothing else than it may. -/
structure Tracks (table : SymbolTable) (stack : List Activation) (m : Machine) (w : Workspace) : Prop where
  workspace : m.workspace = w
  scopes : m.scopes.toList = stack.reverse
  trace : ∀ e ∈ m.trace, e.Sound table
  unlimited : m.cutOff = false
  inRange : table.Fitting → m.aborted = false

def TracksAbove (table : SymbolTable) (stack : List Activation) (m : Machine) (w : Workspace) : Prop :=
  ∃ more, Tracks table (more ++ stack) m w

variable {table : SymbolTable} {stack : List Activation} {m : Machine} {w : Workspace}

theorem Tracks.above (h : Tracks table stack m w) : TracksAbove table stack m w := ⟨[], h⟩

theorem Tracks.setScopes {stack' : List Activation} {scopes : Array Activation} (h : Tracks table stack m w)
    (hstack' : Orderly table stack') (hscopes : scopes.toList = stack'.reverse) :
    Tracks table stack' (m.setScopes scopes) w :=
  ⟨h.workspace, hscopes, List.forall_mem_cons.2 ⟨hstack'.sound hscopes, h.trace⟩, h.unlimited, h.inRange⟩

end Machine

namespace StackM

open Machine (Tracks TracksAbove)

/-- Both computations come to the same end, and the stack is as before. -/
abbrev Follow {α β : Type} (table : SymbolTable) (stack : List Activation) (V : α → β → Prop) (x : StackM α)
    (y : SolveM β) : Prop :=
  Parallel (Tracks table stack) (Tracks table stack) V x y

section steps

variable {α β : Type} {table : SymbolTable} {stack : List Activation} {x : StackM α} {y : SolveM β}
  {V : α → β → Prop}

theorem onWorkspace_follows (x : SolveM α) :
    Follow table stack (fun a b => a = b ∧ ∃ w w', x w = .ok a w') (onWorkspace x) x where
  run {m w} h := by
    obtain ⟨rfl, hscopes, htrace, hlimit, hrange⟩ := h
    cases hx : x m.workspace with
    | ok a w' =>
      have hrun : onWorkspace x m = .ok a { m with workspace := w' } := by simp only [onWorkspace, hx]
      exact hrun ▸ .ok ⟨rfl, _, _, hx⟩ ⟨rfl, hscopes, htrace, hlimit, hrange⟩
    | error e w' =>
      have hrun : onWorkspace x m = .error e { m with workspace := w' } := by simp only [onWorkspace, hx]
      exact hrun ▸ .error ⟨rfl, hscopes, htrace, hlimit, hrange⟩

theorem onWorkspace_follows_eq (x : SolveM α) : Follow table stack Eq (onWorkspace x) x :=
  ⟨fun h => ((onWorkspace_follows x).run h).elim (fun hx hy hab hst => hx ▸ hy ▸ .ok hab.1 hst)
    fun hx hy hst => hx ▸ hy ▸ .error hst⟩

theorem closing_follows {E E' : Machine → Workspace → Prop} {f : Machine → Machine → Machine}
    (h : Parallel (Tracks table stack) E V x y)
    (hok : ∀ {m m' w w'}, Tracks table stack m w → Tracks table stack m' w' → Tracks table stack (f m m') w')
    (herror : ∀ {m m' w w'}, Tracks table stack m w → E m' w' → E' (f m m') w') :
    Parallel (Tracks table stack) E' V (closing f x) y where
  run {m w} hm := by
    refine (h.run hm).elim (fun {a b m' w'} hx hy hab hst => ?_) fun {e m' w'} hx hy hst => ?_
    · have hrun : closing f x m = .ok a (f m m') := by simp only [closing, hx]
      exact hrun ▸ hy ▸ .ok hab (hok hm hst)
    · have hrun : closing f x m = .error e (f m m') := by simp only [closing, hx]
      exact hrun ▸ hy ▸ .error (herror hm hst)

/-- Whatever a failure leaves on the stack is cut off. -/
theorem truncating_follows (hstack : Orderly table stack)
    (h : Parallel (Tracks table stack) (TracksAbove table stack) V x y) : Follow table stack V (truncating x) y := by
  have hcut {m m' : Machine} {w w' : Workspace} {more : List Activation} (hm : Tracks table stack m w)
      (hm' : Tracks table (more ++ stack) m' w') :
      Tracks table stack (m'.setScopes (m'.scopes.shrink m.scopes.size)) w' := by
    refine hm'.setScopes hstack ?_
    have hsize : m.scopes.size = stack.reverse.length := by rw [← Array.length_toList, hm.scopes]
    rw [Array.toList_shrink, hm'.scopes, List.reverse_append, hsize, List.take_left]
  exact closing_follows h (fun hm hm' => hcut hm (show Tracks table ([] ++ stack) _ _ from hm'))
    fun hm ⟨_, hm'⟩ => hcut hm hm'

theorem noting_follows (h : Follow table stack V x y) : Follow table stack V (noting x) y := by
  have hnote {m m' : Machine} {w w' : Workspace} (hm : Tracks table stack m w) (hm' : Tracks table stack m' w') :
      Tracks table stack { m' with trace := .ended m.scopes m'.scopes :: m'.trace } w' := by
    have hsame : m'.scopes = m.scopes := Array.toList_inj.1 (hm'.scopes.trans hm.scopes.symm)
    exact { hm' with trace := List.forall_mem_cons.2 ⟨hsame, hm'.trace⟩ }
  exact closing_follows h hnote hnote

theorem pushed_follows {a : Activation} (hstack : Orderly table (a :: stack)) (hbelow : Orderly table stack)
    (h : Follow table (a :: stack) V x y) :
    Parallel (Tracks table stack) (TracksAbove table stack) V (pushed a x) y where
  run {m w} hm := by
    have hpushed : Tracks table (a :: stack) (m.setScopes (m.scopes.push a)) w := by
      refine hm.setScopes hstack ?_
      rw [Array.toList_push, hm.scopes, List.reverse_cons]
    refine (h.run hpushed).elim (fun {r r' m' w'} hx hy hrr hst => ?_) fun {e m' w'} hx hy hst => ?_
    · have hpopped : Tracks table stack (m'.setScopes m'.scopes.pop) w' := by
        refine hst.setScopes hbelow ?_
        rw [Array.toList_pop, hst.scopes, List.reverse_cons, List.dropLast_concat]
      have hrun : pushed a x m = .ok r (m'.setScopes m'.scopes.pop) :=
        bind_eq_ok_iff.2 ⟨(), _, rfl, bind_eq_ok_iff.2 ⟨r, m', hx, rfl⟩⟩
      exact hrun ▸ hy ▸ .ok hrr hpopped
    · have hrun : pushed a x m = .error e m' :=
        bind_eq_error_iff.2 (.inr ⟨(), _, rfl, bind_eq_error_iff.2 (.inl hx)⟩)
      exact hrun ▸ hy ▸ .error ⟨[a], hst⟩

theorem orRollback_follows (h : Follow table stack V x y) :
    Follow table stack (SolveM.SameOutcome V) (orRollback x) (SolveM.orRollback y) where
  run {m w} hm := by
    have hmark : m.workspace.variants.watermark = w.variants.watermark := by rw [hm.workspace]
    refine (h.run hm).elim (fun {a b m' w'} hx hy hab hst => ?_) fun {e m' w'} hx hy hst => ?_
    · have hrun : orRollback x m = .ok (.ok a) m' := by
        refine Outcome.get_bind_eq_ok_iff.2 ⟨_, rfl, ?_⟩
        rw [hx]
      exact hrun ▸ SolveM.orRollback_of_ok hy ▸ .ok (.ok hab) hst
    · have hrun : orRollback x m = .ok (.error e) { m' with workspace := ⟨m'.workspace.graph,
          m'.workspace.variants.rollback m.workspace.variants.watermark⟩ } := by
        refine Outcome.get_bind_eq_ok_iff.2 ⟨_, rfl, ?_⟩
        rw [hx]
      rw [hrun, SolveM.orRollback_of_error hy, hmark, hst.workspace]
      exact .ok (.error e) { hst with workspace := rfl }

theorem get_bind_follows {E : Machine → Workspace → Prop} {f : Machine → StackM α}
    (h : ∀ m, m.scopes.toList = stack.reverse → Parallel (Tracks table stack) E V (f m) y) :
    Parallel (Tracks table stack) E V (get >>= f) y :=
  ⟨fun {m _} hm => (h m hm.scopes).run hm⟩

/-- In a range that is not left if no native procedure has more arguments than parameters. -/
theorem checkRange_follows {inRange : Bool} (h : table.Fitting → inRange = true) {f : Unit → StackM α}
    (hf : Follow table stack V (f ()) y) : Follow table stack V (checkRange inRange >>= f) y where
  run {m w} hm := by
    refine hf.run (s := { m with aborted := m.aborted || !inRange }) { hm with inRange := fun hfitting => ?_ }
    rw [hm.inRange hfitting, h hfitting]
    rfl

end steps

/-! ### Usages -/

section usages

variable {table : SymbolTable} {stack : List Activation}

/-- The same signature, which has no more arguments than the symbol has parameters if the native ones have not. -/
def SolvedAs (table : SymbolTable) (id : Nat) (a b : Solved) : Prop :=
  a = b ∧ (table.Fitting → a.args.length ≤ table.arity id)

theorem tryCandidate_follows {usage : ProcedureUsage} {id : Nat} {x : StackM Solved} {y : SolveM Solved}
    (harity : table.arity id = usage.args.length) (h : Follow table stack (SolvedAs table id) x y) :
    Follow table stack Eq (tryCandidate usage x) (do
      let solved ← y
      SolveM.acceptCall usage solved
      return solved.variant) := by
  refine h.bind fun {solved solved'} hsolved => ?_
  obtain ⟨rfl, hfits⟩ := hsolved
  refine checkRange_follows (fun hfitting => decide_eq_true (harity ▸ hfits hfitting)) ?_
  exact (onWorkspace_follows_eq _).bind_eq fun _ => .pure rfl

theorem tryCandidates_follows {usage : ProcedureUsage} {solve : Nat → StackM Solved} {solve' : Nat → SolveM Solved}
    (hsolve : ∀ id, id < table.size → Follow table stack (SolvedAs table id) (solve id) (solve' id))
    (candidates : List Path) :
    Follow table stack Eq (tryCandidates table usage solve candidates)
      (SolveM.tryCandidates table usage solve' candidates) := by
  induction candidates with
  | nil => exact .pure rfl
  | cons candidate rest ih =>
    rw [tryCandidates, SolveM.tryCandidates]
    have hrejected (e : TypeError) : Follow table stack Eq
        (do
          let trial ← tryCandidates table usage solve rest
          return { trial with
            considered := candidate :: trial.considered
            rejections := e :: trial.rejections })
        (do
          let trial ← SolveM.tryCandidates table usage solve' rest
          return { trial with
            considered := candidate :: trial.considered
            rejections := e :: trial.rejections }) :=
      ih.bind_eq fun _ => .pure rfl
    cases table.lookup candidate with
    | none => exact ih
    | some id =>
      rw [Option.bind_some]
      cases hsymbol : table.get? id with
      | none => exact ih
      | some symbol =>
        dsimp only [Option.map_some]
        cases hparams : symbol.declaration.params? with
        | none => exact ih
        | some params =>
          dsimp only
          split
          · exact hrejected _
          · rename_i hlength
            have hsize : id < table.size := (Array.getElem?_eq_some_iff.1 hsymbol).1
            have harity : table.arity id = usage.args.length :=
              (table.arity_eq hsymbol hparams).trans (not_not.1 hlength)
            refine (orRollback_follows (tryCandidate_follows harity (hsolve id hsize))).bind fun {r r'} h => ?_
            cases h with
            | ok hab => exact hab ▸ .pure rfl
            | error e => exact hrejected e

theorem bindCall_follows {solve : Nat → Span → StackM Solved} {solve' : Nat → Span → SolveM Solved}
    (hsolve : ∀ id, id < table.size → ∀ span, Follow table stack (SolvedAs table id) (solve id span) (solve' id span))
    (user : Path) (usage : ProcedureUsage) :
    Follow table stack Eq (bindCall table user solve usage) (SolveM.bindCall table user solve' usage) := by
  unfold bindCall SolveM.bindCall
  refine (tryCandidates_follows (fun id hid => hsolve id hid usage.span) _).bind_eq fun trial => ?_
  obtain ⟨bound, considered, rejections⟩ := trial
  cases bound with
  | some target => exact .pure rfl
  | none =>
    cases rejections with
    | nil => exact .throw _
    | cons e rest => cases rest <;> exact .throw _

theorem bindGlobal_follows {solve : Nat → StackM Solved} {solve' : Nat → SolveM Solved}
    (hsolve : ∀ id, id < table.size → Follow table stack (SolvedAs table id) (solve id) (solve' id))
    (usage : VariableUsage) :
    Follow table stack Eq (bindGlobal table solve usage) (SolveM.bindGlobal table solve' usage) := by
  unfold bindGlobal SolveM.bindGlobal
  cases hfound : table.lookup usage.path with
  | none => exact .throw _
  | some id =>
    obtain ⟨hsize, -⟩ := Array.findIdx?_eq_some_iff_getElem.1 hfound
    refine (hsolve id hsize).bind fun {solved solved'} hsolved => ?_
    obtain ⟨rfl, -⟩ := hsolved
    exact (onWorkspace_follows_eq _).bind_eq fun _ => .pure rfl

end usages

/-! ### Bodies -/

/-- What the expression refers to is among the usages. -/
def Asks (usages : Usages) : Expr TypeVar → Prop
  | .global _ target => ∃ i usage, target = .pending i ∧ usages.globals[i]? = some usage
  | .procedure _ target | .invoke _ target _ => ∃ i usage, target = .pending i ∧ usages.procedures[i]? = some usage
  | _ => True

/-- All of these expressions refer to usages. -/
abbrev AllAsk (usages : Usages) (nodes : List (Place × Expr TypeVar)) : Prop := ∀ n ∈ nodes, Asks usages n.2

theorem allAsk_of_recorded {d : Draft} {nodes : List (Place × Expr TypeVar)}
    (h : ∀ n ∈ nodes, n.2.Recorded d.records n.1) : AllAsk d.usages nodes := fun n hn => by
  have hrecorded := h n hn
  obtain ⟨p, e⟩ := n
  cases e with
  | global m target =>
    obtain ⟨i, usage, rfl, hget, -⟩ := hrecorded
    exact ⟨i, usage, rfl, by rwa [← Array.getElem?_toList]⟩
  | procedure m target =>
    obtain ⟨usage, ⟨i, rfl, hget⟩, -⟩ := hrecorded
    exact ⟨i, usage, rfl, by rwa [← Array.getElem?_toList]⟩
  | invoke m target args =>
    obtain ⟨usage, ⟨i, rfl, hget⟩, -⟩ := hrecorded
    exact ⟨i, usage, rfl, by rwa [← Array.getElem?_toList]⟩
  | _ => trivial

/-- Answers to the same usages that come to the same. -/
abbrev Agrees (table : SymbolTable) (stack : List Activation) (b : Binder StackM) (b' : Binder SolveM) : Prop :=
  b.Alike (.parallel (Tracks table stack) (Tracks table stack)) b'

section bodies

variable {table : SymbolTable} {stack : List Activation} {b : Binder StackM} {b' : Binder SolveM}

theorem bindProcedure_follows (h : Agrees table stack b b') (span : Span) {target : Target}
    (hasked : ∃ i usage, target = .pending i ∧ b.usages.procedures[i]? = some usage) :
    Follow table stack Eq (b.bindProcedure span target) (b'.bindProcedure span target) := by
  obtain ⟨i, usage, rfl, hget⟩ := hasked
  simp only [Binder.bindProcedure, h.usages, hget]
  exact h.procedure usage

theorem bindVariable_follows (h : Agrees table stack b b') (span : Span) {target : Target}
    (hasked : ∃ i usage, target = .pending i ∧ b.usages.globals[i]? = some usage) :
    Follow table stack Eq (b.bindVariable span target) (b'.bindVariable span target) := by
  obtain ⟨i, usage, rfl, hget⟩ := hasked
  simp only [Binder.bindVariable, h.usages, hget]
  exact h.moduleVariable usage

theorem forward_follows (h : Agrees table stack b b') (m : Mark TypeVar) {target : Target}
    (hasked : ∃ i usage, target = .pending i ∧ b.usages.procedures[i]? = some usage) :
    Follow table stack Eq (b.forward m target) (b'.forward m target) := by
  obtain ⟨i, usage, rfl, hget⟩ := hasked
  simp only [Binder.forward, h.usages, h.params, hget]
  exact (h.procedure usage).bind_eq fun _ => (onWorkspace_follows_eq _).bind_eq fun _ => .pure rfl

/-- No answer is missing where everything that is asked for is among the usages. -/
theorem Agrees.compares (h : Agrees table stack b b') :
    b.Compares (.parallel (Tracks table stack) (Tracks table stack)) id True (Asks b.usages) b' where
  moduleVariable hasked := imageIf_id ▸ bindVariable_follows h _ hasked
  forward hasked := imageIf_eq Expr.map_id ▸ forward_follows h _ hasked
  procedure hasked := imageIf_id ▸ bindProcedure_follows h _ hasked

end bodies

/-! ### Symbols -/

section symbols

variable {table : SymbolTable} {stack : List Activation}

theorem symbolAt_bind {α : Type} {id : Nat} {symbol : Symbol} (h : table.get? id = some symbol)
    (f : Symbol → StackM α) : (symbolAt table id >>= f) = f symbol := by
  rw [symbolAt, h]
  rfl

theorem keeping_follows {α β : Type} {V : α → β → Prop} {keep : Bool} {id : Nat} {v : Variant} {a : α} {b : β}
    (hab : V a b) :
    Follow table stack V (keeping keep id v >>= fun _ => pure a)
      (if keep = true then SolveM.keepVariant id v >>= fun _ => pure b else pure b) := by
  cases keep with
  | true =>
    rw [keeping, if_pos rfl, if_pos rfl]
    exact (onWorkspace_follows_eq _).bind_eq fun _ => .pure hab
  | false => exact .pure hab

/-- How other symbols are solved on top of a stack. -/
abbrev SolvesOn (table : SymbolTable) (keep : Bool) (stack : List Activation) (solve : Request → Nat → StackM Solved) :
    Prop :=
  ∀ request id, id < table.size →
    Follow table stack (SolvedAs table id) (solve request id) (Monomorph.solve table keep stack request id)

theorem answers_agrees {keep : Bool} {solve : Request → Nat → StackM Solved} (h : SolvesOn table keep stack solve)
    (user : Path) (usages : Usages) :
    Agrees table stack (answers table user usages solve) (solvingBinder table keep stack user usages) :=
  ⟨rfl, rfl, bindCall_follows (fun id hid span => h (.procedure (some span)) id hid) user,
    bindGlobal_follows (h .moduleVariable)⟩

theorem body_follows {α β : Type} {V : α → β → Prop} {keep : Bool} {solve : Request → Nat → StackM Solved}
    {a : Activation} {d : Draft} {p : Place} {f : List (Expr TypeVar) → StackM α} {k : List (Expr TypeVar) → SolveM β}
    (hstack : Orderly table (a :: stack)) (hbelow : Orderly table stack) (h : SolvesOn table keep (a :: stack) solve)
    (user : Path) (hrecorded : ∀ n ∈ Expr.nodesOf p d.body, n.2.Recorded d.records n.1)
    (hrest : ∀ body, Follow table stack V (f body) (k body)) :
    Parallel (Tracks table stack) (TracksAbove table stack) V
      ((pushed a do
        onWorkspace (SolveM.applyAll d.constraints)
        (answers table user d.usages solve).exprs d.body) >>= f)
      (do
        SolveM.applyAll d.constraints
        k (← Binder.exprs (solvingBinder table keep (a :: stack) user d.usages) d.body)) := by
  have hbody := pushed_follows hstack hbelow ((onWorkspace_follows_eq (SolveM.applyAll d.constraints)).bind_eq fun _ =>
    (answers_agrees h user d.usages).compares.exprs_eq (allAsk_of_recorded hrecorded))
  have hrun := hbody.bind_eq fun body => (hrest body).mono_error Tracks.above
  rwa [bind_assoc] at hrun

theorem instantiate_length {n : NativeSignature} {span : Span} {w w' : Workspace} {signature : Signature}
    (h : SolveM.instantiate n span w = .ok signature w') : signature.args.length = n.args.length := by
  obtain ⟨rfl, -⟩ := ok_eq_ok_iff.1 h
  exact List.length_map ..

/-- What is done before a symbol is on the stack or after. -/
theorem above {α β : Type} {V : α → β → Prop} {x : StackM α} {y : SolveM β} (h : Follow table stack V x y) :
    Parallel (Tracks table stack) (TracksAbove table stack) V x y :=
  h.mono_error Tracks.above

theorem solveProcedure_follows {keep : Bool} {solve : Request → Nat → StackM Solved} (hstack : Orderly table stack)
    (hsolve : ∀ a, Orderly table (a :: stack) → SolvesOn table keep (a :: stack) solve) (usage : Option Span)
    {id : Nat} {symbol : Symbol} (hsymbol : table.get? id = some symbol) (hfree : id ∉ busy stack) :
    Parallel (Tracks table stack) (TracksAbove table stack) (SolvedAs table id)
      (solveProcedure table keep solve usage id) (Monomorph.solve table keep stack (.procedure usage) id) := by
  have hsize : id < table.size := (Array.getElem?_eq_some_iff.1 hsymbol).1
  rw [Monomorph.solve]
  split
  · rename_i hnone
    cases hnone.symm.trans hsymbol
  rename_i symbol' hsymbol'
  obtain rfl : symbol' = symbol := Option.some.inj (hsymbol'.symm.trans hsymbol)
  rw [dif_neg (show id ∉ stack.map Activation.symbol from hfree), solveProcedure, symbolAt_bind hsymbol]
  dsimp only
  cases hdeclaration : symbol'.declaration with
  | procedure params body =>
    have harity : table.arity id = params.length := table.arity_eq hsymbol (by rw [hdeclaration]; rfl)
    refine (above (onWorkspace_follows_eq _)).bind_eq fun known => ?_
    refine (above (onWorkspace_follows _)).bind fun {d d'} hd => ?_
    obtain ⟨rfl, w, w', hdrafted⟩ := hd
    obtain ⟨hargs, hrecorded⟩ := Draft.ofProcedure_recorded (SolveM.draft_ok hdrafted).1
    have hfits : d.args.length ≤ table.arity id := harity ▸ hargs.le
    have hpushed : Orderly table (⟨id, known.length, d.args, d.returns⟩ :: stack) :=
      hstack.push hsize hfree fun _ => hfits
    exact body_follows hpushed hstack (hsolve _ hpushed) symbol'.path hrecorded fun body =>
      keeping_follows ⟨rfl, fun _ => hfits⟩
  | native params native =>
    have harity : table.arity id = params.length := table.arity_eq hsymbol (by rw [hdeclaration]; rfl)
    refine (above (onWorkspace_follows_eq _)).bind_eq fun known => ?_
    refine (above (onWorkspace_follows _)).bind fun {signature signature'} hsignature => ?_
    obtain ⟨rfl, w, w', hrun⟩ := hsignature
    have hfits (hfitting : table.Fitting) : signature.args.length ≤ table.arity id := by
      have hnative := hfitting _ (Array.mem_of_getElem? hsymbol)
      rw [hdeclaration] at hnative
      exact harity ▸ instantiate_length hrun ▸ hnative
    refine (pushed_follows (hstack.push hsize hfree hfits) hstack (onWorkspace_follows_eq _)).bind_eq fun _ => ?_
    exact above (keeping_follows ⟨rfl, hfits⟩)
  | moduleVariable | external => exact .throw _ Tracks.above

theorem solveVariable_follows {keep : Bool} {solve : Request → Nat → StackM Solved} (hstack : Orderly table stack)
    (hsolve : ∀ a, Orderly table (a :: stack) → SolvesOn table keep (a :: stack) solve)
    {id : Nat} {symbol : Symbol} (hsymbol : table.get? id = some symbol) :
    Parallel (Tracks table stack) (TracksAbove table stack) (SolvedAs table id)
      (solveVariable table keep solve id) (Monomorph.solve table keep stack .moduleVariable id) := by
  have hsize : id < table.size := (Array.getElem?_eq_some_iff.1 hsymbol).1
  rw [Monomorph.solve]
  split
  · rename_i hnone
    cases hnone.symm.trans hsymbol
  rename_i symbol' hsymbol'
  obtain rfl : symbol' = symbol := Option.some.inj (hsymbol'.symm.trans hsymbol)
  rw [solveVariable, symbolAt_bind hsymbol]
  refine get_bind_follows fun m hscopes => ?_
  have hany : (m.scopes.any fun a => a.symbol == id) = true ↔ id ∈ busy stack := by
    rw [← Array.any_toList, hscopes, List.any_reverse, List.any_eq_true, busy, List.mem_map]
    simp only [beq_iff_eq]
  by_cases hfree : id ∈ busy stack
  · rw [if_pos (hany.2 hfree), dif_pos (show id ∈ stack.map Activation.symbol from hfree)]
    exact .throw _ Tracks.above
  rw [if_neg (hfree ∘ hany.1), dif_neg (show id ∉ stack.map Activation.symbol from hfree)]
  dsimp only
  cases hdeclaration : symbol'.declaration with
  | moduleVariable value =>
    refine (above (onWorkspace_follows_eq _)).bind_eq fun known => ?_
    cases known with
    | cons known rest => exact above (.pure ⟨rfl, fun _ => Nat.zero_le _⟩)
    | nil =>
      refine (above (onWorkspace_follows _)).bind fun {d d'} hd => ?_
      obtain ⟨rfl, w, w', hdrafted⟩ := hd
      have hrecorded := Draft.ofVariable_recorded (SolveM.draft_ok hdrafted).1
      have hpushed : Orderly table (⟨id, 0, [], d.returns⟩ :: stack) :=
        hstack.push hsize hfree fun _ => Nat.zero_le _
      exact body_follows hpushed hstack (hsolve _ hpushed) symbol'.path hrecorded fun body =>
        keeping_follows ⟨rfl, fun _ => Nat.zero_le _⟩
  | external type =>
    refine (above (onWorkspace_follows_eq _)).bind_eq fun known => ?_
    cases known with
    | cons known rest => exact above (.pure ⟨rfl, fun _ => Nat.zero_le _⟩)
    | nil =>
      refine (above (onWorkspace_follows_eq _)).bind_eq fun v => ?_
      exact above (keeping_follows ⟨rfl, fun _ => Nat.zero_le _⟩)
  | procedure | native => exact .throw _ Tracks.above

theorem found_follows {request : Option Span} {id : Nat} {symbol : Symbol} (hstack : Orderly table stack)
    (hsymbol : table.get? id = some symbol) {keep : Bool} {a : Activation}
    (ha : (stack.find? fun a => a.symbol == id) = some a) :
    Follow table stack (SolvedAs table id) (pure a.solved)
      (Monomorph.solve table keep stack (.procedure request) id) := by
  have hfound := List.find?_some ha
  have hid : a.symbol = id := beq_iff_eq.1 hfound
  have hmem := List.mem_of_find?_eq_some ha
  rw [Monomorph.solve]
  split
  · rename_i hnone
    cases hnone.symm.trans hsymbol
  rw [dif_pos (hid ▸ List.mem_map_of_mem hmem)]
  dsimp only
  rw [ha]
  exact .pure ⟨rfl, fun hfitting => hid ▸ hstack.fits hfitting a hmem⟩

/-- Wherever the stack is orderly and there is room for the symbols that are not on it, the solver with a stack of
its own comes to the end that `solve` comes to, and has the stack it had. -/
theorem solve_follows (keep : Bool) (room : Nat) (hstack : Orderly table stack)
    (hroom : table.size < room + stack.length) : SolvesOn table keep stack (solve table keep room) := by
  induction room generalizing stack with
  | zero => exact absurd hstack.length_le (by omega)
  | succ room ih =>
    intro request id hsize
    obtain ⟨symbol, hsymbol⟩ : ∃ symbol, table.get? id = some symbol := ⟨_, Array.getElem?_eq_getElem hsize⟩
    have hsolve (a : Activation) (ha : Orderly table (a :: stack)) : SolvesOn table keep (a :: stack)
        (solve table keep room) :=
      ih ha (by rw [List.length_cons]; omega)
    cases request with
    | moduleVariable => exact noting_follows (truncating_follows hstack (solveVariable_follows hstack hsolve hsymbol))
    | procedure usage =>
      refine noting_follows (get_bind_follows fun m hscopes => ?_)
      rw [← Array.find?_toList, hscopes, hstack.find?_reverse]
      cases hfound : stack.find? fun a => a.symbol == id with
      | some a => exact found_follows hstack hsymbol hfound
      | none =>
        have hfree : id ∉ busy stack := fun hmem => by
          obtain ⟨a, ha, rfl⟩ := List.mem_map.1 hmem
          exact List.find?_eq_none.1 hfound a ha (beq_self_eq_true _)
        exact truncating_follows hstack (solveProcedure_follows hstack hsolve usage hsymbol hfree)

end symbols

/-- Solving a symbol ends, whatever the table is, and with what `solveSymbol` gives: no limit on how deep solving may
be nested is reached if it is above the number of symbols. At every moment the symbols on the stack are different and
no more than there are, and whatever is solved in between, with an error or without, leaves the stack as it was. No
index is out of range if no native procedure has more arguments than parameters. -/
theorem solveSymbol_returns (table : SymbolTable) (keep : Bool) {room id : Nat} (hid : id < table.size)
    (hroom : table.size < room) (w : Workspace) :
    let run := solveSymbol table keep room id (.start w)
    onlyWorkspace run = Monomorph.solveSymbol table keep id w ∧ (final run).scopes = #[] ∧
      (∀ e ∈ (final run).trace, e.Sound table) ∧ (final run).cutOff = false ∧
      (table.Fitting → (final run).aborted = false) := by
  have hstart : Tracks table [] (.start w) w := ⟨rfl, rfl, nofun, rfl, fun _ => rfl⟩
  obtain ⟨symbol, hsymbol⟩ : ∃ symbol, table.get? id = some symbol := ⟨_, Array.getElem?_eq_getElem hid⟩
  have hrequest : Monomorph.solveSymbol table keep id = Monomorph.solve table keep []
      (if symbol.declaration.isProcedure then .procedure none else .moduleVariable) id := by
    rw [Monomorph.solveSymbol, hsymbol]
    rfl
  have hrun : solveSymbol table keep room id (.start w) = solve table keep room
      (if symbol.declaration.isProcedure then .procedure none else .moduleVariable) id (.start w) :=
    congrFun (symbolAt_bind hsymbol _) _
  generalize (if symbol.declaration.isProcedure then .procedure none else .moduleVariable : Request) = request
    at hrequest hrun
  have hends := (solve_follows keep room .nil hroom request id hid).run hstart
  dsimp only
  rw [hrun, hrequest]
  refine hends.elim (fun {a b m w'} hx hy hab hm => ?_) fun {e m w'} hx hy hm => ?_
  · rw [hx, hy]
    exact ⟨hab.1 ▸ hm.workspace ▸ rfl, Array.toList_inj.1 hm.scopes, hm.trace, hm.unlimited, hm.inRange⟩
  · rw [hx, hy]
    exact ⟨hm.workspace ▸ rfl, Array.toList_inj.1 hm.scopes, hm.trace, hm.unlimited, hm.inRange⟩

open Program in
/-- A procedure that calls itself through another one: both are on the stack at one time. -/
theorem solveSymbol_returns_callingBack :
    let run := solveSymbol callingBack.symbols true 4 0 (.start callingBack.workspace)
    (final run).scopes = #[] ∧ (final run).cutOff = false ∧
      ∃ scopes, .changed scopes ∈ (final run).trace ∧ scopes.size = 2 := by
  obtain ⟨-, hscopes, -, hlimit, -⟩ :=
    solveSymbol_returns callingBack.symbols true (show 0 < callingBack.symbols.size by cbv)
      (show callingBack.symbols.size < 4 by cbv) callingBack.workspace
  refine ⟨hscopes, hlimit, ?_⟩
  have hany : (final (solveSymbol callingBack.symbols true 4 0 (.start callingBack.workspace))).trace.any (fun
      | .changed scopes => scopes.size == 2
      | .ended .. => false) = true := by
    cbv
  obtain ⟨e, he, htwo⟩ := List.any_eq_true.1 hany
  cases e with
  | changed scopes => exact ⟨scopes, he, beq_iff_eq.1 htwo⟩
  | ended => cases htwo

end StackM
end Monomorph
