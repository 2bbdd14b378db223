import Mathlib.Logic.Relation
import Monomorph.Proofs.Solve.Solving

/-! # The variants that solving keeps

A body is kept before the variants it is called from, and a recursive one refers to a variant that does not
exist yet. While a symbol is on the stack, its next variant is the one being solved, since nothing is kept of
symbols on the stack; so a reference is *available* if its variant exists or is being solved
(`Available`). All references in kept bodies are available (`Coherent`); with an empty stack, they exist.

What a successful solve keeps is reached from the variant it gives (`solve_solves`); what is kept for a
rejected candidate is dropped with it. -/

namespace Monomorph

open Outcome
open Workspace (Evolves evolves_kept)

/-- A variant by the number of its symbol and its place among the variants of the symbol. -/
structure VariantId where
  symbol : Nat
  variant : Nat
  deriving DecidableEq

/-- A variant that is solved or being solved. -/
def Activation.variantId (a : Activation) : VariantId := ⟨a.symbol, a.solved.variant⟩

namespace VariantStore

variable {store store' store'' : VariantStore} {id : Nat} {v : Variant} {k k' : VariantId}

def find? (store : VariantStore) (k : VariantId) : Option Variant := (store.ofSymbol k.symbol)[k.variant]?

theorem Grows.find? (h : store.Grows store') (hv : store.find? k = some v) : store'.find? k = some v :=
  h.getElem? hv

theorem find?_append (hid : id < store.size) (v : Variant) (k : VariantId) :
    (store.append id v).find? k =
      if k = ⟨id, (store.ofSymbol id).length⟩ then some v else store.find? k := by
  obtain ⟨symbol, variant⟩ := k
  rw [find?, ofSymbol_append hid]
  by_cases hsymbol : id = symbol
  · subst hsymbol
    simp only [if_true, VariantId.mk.injEq, true_and]
    rcases Nat.lt_trichotomy variant (store.ofSymbol id).length with hlt | rfl | hgt
    · rw [List.getElem?_append_left hlt, if_neg (Nat.ne_of_lt hlt), find?]
    · rw [List.getElem?_append_right (Nat.le_refl _), Nat.sub_self, if_pos rfl, List.getElem?_cons_zero]
    · have hlength : (store.ofSymbol id ++ [v]).length ≤ variant := by
        rw [List.length_append]
        exact hgt
      rw [List.getElem?_eq_none hlength, if_neg (Nat.ne_of_gt hgt), find?, List.getElem?_eq_none hgt.le]
  · have hne : VariantId.mk symbol variant ≠ ⟨id, (store.ofSymbol id).length⟩ := by
      rintro ⟨⟩
      exact hsymbol rfl
    rw [if_neg hsymbol, if_neg hne, find?]

/-- A kept variant is the one just added or was there. -/
theorem eq_or_find?_of_append (hid : id < store.size) {v v' : Variant}
    (h : (store.append id v).find? k = some v') :
    (k = ⟨id, (store.ofSymbol id).length⟩ ∧ v = v') ∨ store.find? k = some v' := by
  rw [find?_append hid] at h
  split at h
  · exact .inl ⟨by assumption, Option.some.inj h⟩
  · exact .inr h

theorem find?_append_self (hid : id < store.size) (v : Variant) :
    (store.append id v).find? ⟨id, (store.ofSymbol id).length⟩ = some v := by
  rw [find?_append hid, if_pos rfl]

end VariantStore

/-- A reference names a variant of a symbol of the right kind. -/
inductive Reference.Names (table : SymbolTable) : Reference → VariantId → Prop where
  | procedure {path : Path} {id n : Nat} {symbol : Symbol} (hid : table.lookup path = some id)
    (hsymbol : table.get? id = some symbol) (hkind : symbol.declaration.isProcedure = true) :
    Names table (.procedure (.resolved path n)) ⟨id, n⟩
  | moduleVariable {path : Path} {id n : Nat} {symbol : Symbol} (hid : table.lookup path = some id)
    (hsymbol : table.get? id = some symbol) (hkind : symbol.declaration.isProcedure = false) :
    Names table (.moduleVariable (.resolved path n)) ⟨id, n⟩

/-- The body of a kept variant refers to another variant. -/
def VariantStore.RefersTo (table : SymbolTable) (store : VariantStore) (k k' : VariantId) : Prop :=
  ∃ v body r, store.find? k = some v ∧ v.body = some body ∧ r ∈ Expr.references body ∧ r.Names table k'

/-- A variant is reached from another through the references in kept bodies. -/
def VariantStore.Reaches (table : SymbolTable) (store : VariantStore) : VariantId → VariantId → Prop :=
  Relation.ReflTransGen (store.RefersTo table)

namespace VariantStore

variable {table : SymbolTable} {store store' : VariantStore} {k k' : VariantId}

theorem Grows.reaches (h : store.Grows store') (hk : store.Reaches table k k') :
    store'.Reaches table k k' :=
  Relation.ReflTransGen.mono (r := store.RefersTo table)
    (fun _ _ ⟨v, body, r, hv, hbody⟩ => ⟨v, body, r, h.find? hv, hbody⟩) _ _ hk

end VariantStore

/-- How a variant that was kept came about, and that the types at its acceptance have only been refined
since. -/
inductive Accepted (table : SymbolTable) (id : Nat) : Variant → TypeGraph → Prop where
  | bodiless {args : List TypeVar} {returns : TypeVar} {g : TypeGraph} :
    Accepted table id ⟨args, returns, none⟩ g
  | drafted {symbol : Symbol} {draft : TypeGraph → Except TypeError Draft × TypeGraph} {d : Draft}
    {b : Binder SolveM} {body : List (Expr TypeVar)} {w w₁ w₂ w₃ : Workspace} {g : TypeGraph}
    (hsymbol : table.get? id = some symbol) (hdraft : symbol.draft? table = some draft)
    (hdrafted : SolveM.draft draft w = .ok d w₁) (happlied : SolveM.applyAll d.constraints w₁ = .ok () w₂)
    (hbound : b.exprs d.body w₂ = .ok body w₃) (hgraph : w₂.graph.Sharpens g) :
    Accepted table id ⟨d.args, d.returns, some body⟩ g

theorem Accepted.sharpens {table : SymbolTable} {id : Nat} {v : Variant} {g g' : TypeGraph}
    (h : Accepted table id v g) (hg : g.Sharpens g') : Accepted table id v g' := by
  cases h with
  | bodiless => exact .bodiless
  | drafted hsymbol hdraft hdrafted happlied hbound hgraph =>
    exact .drafted hsymbol hdraft hdrafted happlied hbound (hgraph.trans hg)

/-- The variant exists or is being solved. -/
def Available (stack : List Activation) (store : VariantStore) (k : VariantId) : Prop :=
  (∃ v, store.find? k = some v) ∨ ∃ a ∈ stack, k = a.variantId

/-- What holds of the workspace while symbols are being solved. -/
structure Coherent (table : SymbolTable) (stack : List Activation) (w : Workspace) : Prop where
  size_eq : w.variants.size = table.size
  /-- What is being solved is the next variant. -/
  next : ∀ a ∈ stack, a.solved.variant = (w.variants.ofSymbol a.symbol).length
  accepted : ∀ {k v}, w.variants.find? k = some v → Accepted table k.symbol v w.graph
  refers : ∀ {k v body}, w.variants.find? k = some v → v.body = some body →
    ∀ r ∈ Expr.references body, ∃ k', r.Names table k' ∧ Available stack w.variants k'

/-- What a successful computation of the solver does that gives some variants. -/
structure Solves (table : SymbolTable) (stack : List Activation) (given : VariantId → Prop)
    (w w' : Workspace) : Prop where
  evolves : Evolves true (busy stack) w w'
  coherent : Coherent table stack w'
  available : ∀ {k}, given k → Available stack w'.variants k
  /-- What is new is reached from what is given. -/
  reached : ∀ {k v}, w'.variants.find? k = some v → w.variants.find? k = none →
    ∃ k₀, given k₀ ∧ w'.variants.Reaches table k₀ k

section solves

variable {table : SymbolTable} {stack : List Activation} {given given' : VariantId → Prop}
  {w w' w'' : Workspace} {k : VariantId}

theorem Available.evolves {keep : Bool} (h : Available stack w.variants k)
    (hw : Evolves keep (busy stack) w w') : Available stack w'.variants k :=
  h.imp_left fun ⟨v, hv⟩ => ⟨v, hw.variants.find? hv⟩

/-- What changes only types leaves everything coherent. -/
theorem Coherent.of_variants_eq (h : Coherent table stack w) (hvariants : w'.variants = w.variants)
    (hgraph : w.graph.Sharpens w'.graph) : Coherent table stack w' where
  size_eq := by rw [hvariants, h.size_eq]
  next a ha := by rw [hvariants, h.next a ha]
  accepted hv := (h.accepted (hvariants ▸ hv)).sharpens hgraph
  refers hv := by
    rw [hvariants] at hv ⊢
    exact h.refers hv

theorem Solves.of_variants_eq (h : Coherent table stack w) (hvariants : w'.variants = w.variants)
    (hgraph : w.graph.Sharpens w'.graph) (hgiven : ∀ {k}, given k → Available stack w.variants k) :
    Solves table stack given w w' where
  evolves := ⟨hgraph, hvariants ▸ .refl _, fun _ _ => by rw [hvariants], nofun⟩
  coherent := h.of_variants_eq hvariants hgraph
  available hk := hvariants ▸ hgiven hk
  reached hv hnone := by
    rw [hvariants, hnone] at hv
    cases hv

theorem Solves.trans (h : Solves table stack given w w') (h' : Solves table stack given' w' w'') :
    Solves table stack (fun k => given k ∨ given' k) w w'' where
  evolves := evolves_kept.trans h.evolves h'.evolves
  coherent := h'.coherent
  available hk := hk.elim (fun hk => (h.available hk).evolves h'.evolves) h'.available
  reached {k v} hv hnone := by
    cases hk : w'.variants.find? k with
    | none =>
      obtain ⟨k₀, hk₀, hreached⟩ := h'.reached hv hk
      exact ⟨k₀, .inr hk₀, hreached⟩
    | some v' =>
      obtain ⟨k₀, hk₀, hreached⟩ := h.reached hk hnone
      exact ⟨k₀, .inl hk₀, h'.evolves.variants.reaches hreached⟩

theorem Solves.congr (h : Solves table stack given w w') (hgiven : ∀ k, given k ↔ given' k) :
    Solves table stack given' w w' := by
  obtain rfl : given = given' := funext fun k => propext (hgiven k)
  exact h

theorem Solves.of_sharpens (h : Coherent table stack w) (hvariants : w'.variants = w.variants)
    (hgraph : w.graph.Sharpens w'.graph) : Solves table stack (fun _ => False) w w' :=
  .of_variants_eq h hvariants hgraph False.elim

theorem Solves.then (h : Solves table stack given w w') (hvariants : w''.variants = w'.variants)
    (hgraph : w'.graph.Sharpens w''.graph) : Solves table stack given w w'' :=
  (h.trans (.of_sharpens h.coherent hvariants hgraph)).congr fun _ => or_iff_left False.elim

theorem Solves.after (h : Solves table stack given w' w'') (hw : Coherent table stack w)
    (hvariants : w'.variants = w.variants) (hgraph : w.graph.Sharpens w'.graph) :
    Solves table stack given w w'' :=
  ((Solves.of_sharpens hw hvariants hgraph).trans h).congr fun _ => or_iff_right False.elim

/-! ### Keeping what was solved -/

theorem Coherent.push (h : Coherent table stack w) {a : Activation}
    (ha : a.solved.variant = (w.variants.ofSymbol a.symbol).length) : Coherent table (a :: stack) w where
  size_eq := h.size_eq
  next := List.forall_mem_cons.2 ⟨ha, h.next⟩
  accepted := h.accepted
  refers hv hbody r hr := by
    obtain ⟨k, hk, hk'⟩ := h.refers hv hbody r hr
    exact ⟨k, hk, hk'.imp_right fun ⟨a', ha', heq⟩ => ⟨a', List.mem_cons_of_mem _ ha', heq⟩⟩

/-- When the first symbol on the stack is kept, its variant exists. -/
theorem Available.keep {a : Activation} {v : Variant} (h : Available (a :: stack) w.variants k)
    (hsize : a.symbol < w.variants.size)
    (hnext : a.solved.variant = (w.variants.ofSymbol a.symbol).length) :
    Available stack (w.keeping true a.symbol v).variants k := by
  rcases h with ⟨v', hv'⟩ | ⟨a', ha', rfl⟩
  · exact .inl ⟨v', (VariantStore.grows_append _ _ _).find? hv'⟩
  · rcases List.mem_cons.1 ha' with rfl | ha'
    · refine .inl ⟨v, ?_⟩
      rw [Activation.variantId, hnext]
      exact VariantStore.find?_append_self hsize v
    · exact .inr ⟨a', ha', rfl⟩

theorem Coherent.keep {a : Activation} {v : Variant} (h : Coherent table (a :: stack) w)
    (hsize : a.symbol < table.size) (hfree : a.symbol ∉ busy stack)
    (haccepted : Accepted table a.symbol v w.graph)
    (hrefers : ∀ {body}, v.body = some body → ∀ r ∈ Expr.references body,
      ∃ k, r.Names table k ∧ Available (a :: stack) w.variants k) :
    Coherent table stack (w.keeping true a.symbol v) := by
  have hid : a.symbol < w.variants.size := h.size_eq ▸ hsize
  have hnext := h.next a List.mem_cons_self
  refine ⟨(VariantStore.size_append _ _ _).trans h.size_eq, fun a' ha' => ?_, fun {k v'} hv' => ?_,
    fun {k v' body} hv' hbody r hr => ?_⟩
  · have hne : a.symbol ≠ a'.symbol := fun heq => hfree (heq ▸ List.mem_map_of_mem ha')
    rw [h.next a' (List.mem_cons_of_mem _ ha')]
    exact congrArg List.length (VariantStore.ofSymbol_append_of_ne hne).symm
  · rcases VariantStore.eq_or_find?_of_append hid hv' with ⟨rfl, rfl⟩ | hv'
    · exact haccepted
    · exact h.accepted hv'
  · have hbefore : ∃ k', r.Names table k' ∧ Available (a :: stack) w.variants k' := by
      rcases VariantStore.eq_or_find?_of_append hid hv' with ⟨-, rfl⟩ | hv'
      · exact hrefers hbody r hr
      · exact h.refers hv' hbody r hr
    obtain ⟨k', hnames, hk'⟩ := hbefore
    exact ⟨k', hnames, hk'.keep hid hnext⟩

/-- Keeping a variant after its body is bound gives that variant. All that the body was bound to is reached
through its references. -/
theorem Solves.keep {a : Activation} {v : Variant} (h : Solves table (a :: stack) given w w')
    (hsize : a.symbol < table.size) (hfree : a.symbol ∉ busy stack)
    (haccepted : Accepted table a.symbol v w'.graph)
    (hrefers : ∀ {body}, v.body = some body → ∀ r ∈ Expr.references body,
      ∃ k, r.Names table k ∧ Available (a :: stack) w'.variants k)
    (hgiven : ∀ {k}, given k → ∃ body, v.body = some body ∧ ∃ r ∈ Expr.references body, r.Names table k) :
    Solves table stack (· = a.variantId) w (w'.keeping true a.symbol v) := by
  have hid : a.symbol < w'.variants.size := h.coherent.size_eq ▸ hsize
  have hnext := h.coherent.next a List.mem_cons_self
  have hgrows := VariantStore.grows_append w'.variants a.symbol v
  have hkept : (w'.keeping true a.symbol v).variants.find? a.variantId = some v := by
    rw [Activation.variantId, hnext]
    exact VariantStore.find?_append_self hid v
  refine ⟨?_, h.coherent.keep hsize hfree haccepted hrefers, ?_, fun {k v'} hv' hnone => ?_⟩
  · exact evolves_kept.trans (h.evolves.weaken (List.subset_cons_self _ _))
      ((SolveM.keepVariant_evolves rfl hfree w').ok rfl)
  · rintro k rfl
    exact .inl ⟨v, hkept⟩
  · refine ⟨_, rfl, ?_⟩
    rcases VariantStore.eq_or_find?_of_append hid hv' with ⟨rfl, -⟩ | hv'
    · rw [Activation.variantId, hnext]
      exact .refl
    · obtain ⟨k₀, hk₀, hreached⟩ := h.reached hv' hnone
      obtain ⟨body, hbody, r, hr, hnames⟩ := hgiven hk₀
      exact .head ⟨v, body, r, hkept, hbody, hr, hnames⟩ (hgrows.reaches hreached)

end solves

/-! ### Calls -/

section calls

variable {table : SymbolTable} {stack : List Activation} {solver : Nat → SolveM Solved} {w w' : Workspace}

/-- A solver whose successes are as described. -/
structure SolvesAll (table : SymbolTable) (stack : List Activation) (solver : Nat → SolveM Solved) :
    Prop where
  evolves : ∀ id, Keeps (Evolves true (busy stack)) (solver id)
  solves : ∀ {id solved w w'}, Coherent table stack w → solver id w = .ok solved w' →
    Solves table stack (· = ⟨id, solved.variant⟩) w w'

namespace SolveM

/-- The candidate that accepts a call is the only one that leaves variants. -/
theorem tryCandidates_solves (hsolver : SolvesAll table stack solver) {usage : ProcedureUsage}
    {candidates : List Path} {trial : Trial} {target : Target} (hw : Coherent table stack w)
    (h : tryCandidates table usage solver candidates w = .ok trial w') (htarget : trial.bound = some target) :
    ∃ k, (Reference.procedure target).Names table k ∧ Solves table stack (· = k) w w' := by
  induction candidates generalizing w trial with
  | nil =>
    obtain ⟨rfl, -⟩ := pure_eq_ok_iff.1 h
    cases htarget
  | cons candidate rest ih =>
    obtain ⟨y, hy, hrun⟩ := eq_ok_iff_exists.1 h
    clear h
    rw [tryCandidates] at hy
    split at hy
    · subst hy
      exact ih hw hrun htarget
    rename_i id symbol hfound
    split at hy
    · subst hy
      exact ih hw hrun htarget
    rename_i params hparams
    dsimp only at hy
    split at hy <;> subst hy
    · obtain ⟨trial', htrial', rfl⟩ := bind_pure_eq_ok_iff.1 hrun
      exact ih hw htrial' htarget
    · obtain ⟨r, w₁, hattempt, hrun⟩ := bind_eq_ok_iff.1 hrun
      cases r with
      | ok variant =>
        obtain ⟨rfl, rfl⟩ := pure_eq_ok_iff.1 hrun
        obtain ⟨solved, w₂, hsolved, hrest⟩ := bind_eq_ok_iff.1 (orRollback_ok hattempt)
        obtain ⟨⟨⟩, haccepted, rfl⟩ := bind_pure_eq_ok_iff.1 hrest
        obtain rfl : (.resolved candidate solved.variant : Target) = target := Option.some.inj htarget
        obtain ⟨hid, hsymbol⟩ := SymbolTable.eq_some_of_found hfound
        have hgraph : Evolves false [] w₂ w₁ := (acceptCall_evolves _).ok haccepted
        exact ⟨⟨id, solved.variant⟩, .procedure hid hsymbol (Option.isSome_of_mem hparams),
          (hsolver.solves hw hsolved).then (hgraph.unkept rfl) hgraph.graph⟩
      | error e =>
        obtain ⟨trial', htrial', rfl⟩ := bind_pure_eq_ok_iff.1 hrun
        have hkeeps := evolves_kept.bind (hsolver.evolves id) fun solved =>
          evolves_kept.bind (@acceptCall_evolves _ _ usage solved) fun _ => evolves_kept.pure solved.variant
        obtain ⟨hvariants, hgraph⟩ := orRollback_error hkeeps hattempt
        obtain ⟨k, hnames, hrest⟩ := ih (hw.of_variants_eq hvariants hgraph) htrial' htarget
        exact ⟨k, hnames, hrest.after hw hvariants hgraph⟩

theorem bindCall_solves {solver : Nat → Span → SolveM Solved}
    (hsolver : ∀ span, SolvesAll table stack fun id => solver id span) {user : Path}
    {usage : ProcedureUsage} {target : Target} (hw : Coherent table stack w)
    (h : bindCall table user solver usage w = .ok target w') :
    ∃ k, (Reference.procedure target).Names table k ∧ Solves table stack (· = k) w w' := by
  obtain ⟨trial, w₁, htrial, h⟩ := bind_eq_ok_iff.1 h
  obtain ⟨y, hy, hrun⟩ := eq_ok_iff_exists.1 h
  split at hy <;> subst hy
  · rename_i hbound
    obtain ⟨rfl, rfl⟩ := pure_eq_ok_iff.1 hrun
    exact tryCandidates_solves (hsolver usage.span) hw htrial hbound
  all_goals exact (throw_eq_ok_iff.1 hrun).elim

theorem bindGlobal_solves (hsolver : SolvesAll table stack solver)
    (hsuits : ∀ {id solved w w'}, solver id w = .ok solved w' →
      ∃ symbol, table.get? id = some symbol ∧ symbol.declaration.isProcedure = false)
    {usage : VariableUsage} {target : Target} (hw : Coherent table stack w)
    (h : bindGlobal table solver usage w = .ok target w') :
    ∃ k, (Reference.moduleVariable target).Names table k ∧ Solves table stack (· = k) w w' := by
  obtain ⟨y, hy, hrun⟩ := eq_ok_iff_exists.1 h
  clear h
  unfold bindGlobal at hy
  split at hy <;> subst hy
  · exact (throw_eq_ok_iff.1 hrun).elim
  · rename_i id hid
    obtain ⟨solved, ⟨⟩, w₁, hsolved, hunified, rfl⟩ := bind_bind_pure_eq_ok_iff.1 hrun
    obtain ⟨symbol, hsymbol, hkind⟩ := hsuits hsolved
    have hgraph : Evolves false [] w₁ w' := (onGraph_evolves (unifyAt_sharpens _ _ _ _) _).ok hunified
    exact ⟨_, .moduleVariable hid hsymbol hkind,
      (hsolver.solves hw hsolved).then (hgraph.unkept rfl) hgraph.graph⟩

end SolveM

end calls

/-! ### Bodies -/

/-- What binding does that turns usages into references. -/
def Binds (table : SymbolTable) (stack : List Activation) (w : Workspace) (references : List Reference)
    (w' : Workspace) : Prop :=
  Coherent table stack w → (∀ r ∈ references, ∃ k, r.Names table k) ∧
    Solves table stack (fun k => ∃ r ∈ references, r.Names table k) w w'

section bodies

variable {table : SymbolTable} {stack : List Activation}

theorem Reference.Names.unique {r : Reference} {k k' : VariantId} (h : r.Names table k)
    (h' : r.Names table k') : k = k' := by
  cases h with
  | procedure hid =>
    cases h' with
    | procedure hid' => rw [Option.some.inj (hid.symm.trans hid')]
  | moduleVariable hid =>
    cases h' with
    | moduleVariable hid' => rw [Option.some.inj (hid.symm.trans hid')]

theorem binds_of_solves {r : Reference} {w w' : Workspace}
    (h : Coherent table stack w → ∃ k, r.Names table k ∧ Solves table stack (· = k) w w') :
    Binds table stack w [r] w' := fun hw => by
  obtain ⟨k, hnames, hsolves⟩ := h hw
  refine ⟨List.forall_mem_singleton.2 ⟨k, hnames⟩, hsolves.congr fun k' => ?_⟩
  simp only [List.mem_singleton, exists_eq_left]
  constructor
  · rintro rfl
    exact hnames
  · exact fun h => h.unique hnames

theorem solvingBinder_answers
    (hsolve : ∀ request, SolvesAll table stack (solve table true stack request)) (user : Path)
    (usages : Usages) : (solvingBinder table true stack user usages).Answers (Binds table stack) where
  nil w hw := ⟨nofun, .of_variants_eq hw rfl (.refl _) fun ⟨r, hr, _⟩ => nomatch hr⟩
  append {w w' w'' l l'} h h' hw := by
    obtain ⟨hnames, hsolves⟩ := h hw
    obtain ⟨hnames', hsolves'⟩ := h' hsolves.coherent
    refine ⟨List.forall_mem_append.2 ⟨hnames, hnames'⟩, (hsolves.trans hsolves').congr fun k => ?_⟩
    simp only [List.mem_append, or_and_right, exists_or]
  comm {w w' l l'} h hw := by
    obtain ⟨hnames, hsolves⟩ := h hw
    refine ⟨fun r hr => hnames r (List.mem_append.2 (List.mem_append.1 hr).symm), hsolves.congr fun k => ?_⟩
    simp only [List.mem_append, or_comm]
  procedure h := binds_of_solves fun hw => SolveM.bindCall_solves (fun _ => hsolve _) hw h
  moduleVariable h := binds_of_solves fun hw => SolveM.bindGlobal_solves (hsolve _)
    (fun h => (solving_of_ok h).suits) hw h
  allocate {_ _ _ _ w' w''} h ht hw := by
    have hgraph : Evolves false [] w' w'' :=
      (SolveM.onGraph_evolves ((allocate_extends _).imp TypeGraph.Extends.sharpens) _).ok ht
    obtain ⟨hnames, hsolves⟩ := h hw
    exact ⟨hnames, hsolves.then (hgraph.unkept rfl) hgraph.graph⟩

theorem Expr.Recorded.isPending {records : Records} {p : Place} {e : Expr TypeVar}
    (h : e.Recorded records p) : ∀ r ∈ Reference.ofNode e, r.isPending = true := by
  cases e with
  | name => exact h.elim
  | global m target =>
    obtain ⟨i, usage, rfl, -⟩ := h
    exact List.forall_mem_singleton.2 rfl
  | procedure m target =>
    obtain ⟨usage, ⟨i, rfl, -⟩, -⟩ := h
    exact List.forall_mem_singleton.2 rfl
  | invoke m target args =>
    obtain ⟨usage, ⟨i, rfl, -⟩, -⟩ := h
    exact List.forall_mem_singleton.2 rfl
  | _ => exact nofun

theorem referencesOf_pending {records : Records} {p : Place} {body : List (Expr TypeVar)}
    (h : ∀ n ∈ Expr.nodesOf p body, n.2.Recorded records n.1) :
    ∀ r ∈ Expr.references body, r.isPending = true := by
  intro r hr
  rw [← referencesOf_nodesOf p body] at hr
  obtain ⟨n, hn, hr⟩ := List.mem_flatMap.1 hr
  exact (h n hn).isPending r hr

theorem Symbol.draft_pending {s : Symbol} {draft : TypeGraph → Except TypeError Draft × TypeGraph}
    {d : Draft} {g g' : TypeGraph} (hdraft : s.draft? table = some draft) (h : draft g = (.ok d, g')) :
    ∀ r ∈ Expr.references d.body, r.isPending = true := by
  unfold Symbol.draft? at hdraft
  split at hdraft
  · obtain rfl := Option.some.inj hdraft
    exact referencesOf_pending (Draft.ofProcedure_recorded h).2
  · obtain rfl := Option.some.inj hdraft
    exact referencesOf_pending (Draft.ofVariable_recorded h)
  all_goals cases hdraft

/-- What a successful solve keeps is reached from the variant it gives. -/
theorem solve_solves (table : SymbolTable) (stack : List Activation) (request : Request) :
    SolvesAll table stack (solve table true stack request) := by
  induction stack using solving_induction table generalizing request with
  | h stack ih =>
    refine ⟨solve_evolves table true stack request, fun {id solved w w'} hw h => ?_⟩
    cases solving_of_ok h with
    | @reused usage a w ha =>
      refine .of_variants_eq hw rfl (.refl _) ?_
      rintro k rfl
      exact .inr ⟨a, ha, rfl⟩
    | @known id symbol v rest w hsymbol hsuits hknown =>
      refine .of_variants_eq hw rfl (.refl _) ?_
      rintro k rfl
      exact .inl ⟨v, by rw [VariantStore.find?, hknown, List.getElem?_cons_zero]⟩
    | @bodiless request id symbol args returns w w' hsymbol hfree hsuits _ hmade =>
      have hsteps := hmade.evolves
      have hsize : id < table.size := (Array.getElem?_eq_some_iff.1 hsymbol).1
      have hpush := hw.push (a := ⟨id, (w.variants.ofSymbol id).length, args, returns⟩) rfl
      exact (Solves.of_sharpens hpush (hsteps.unkept rfl) hsteps.graph).keep hsize hfree .bodiless nofun
        False.elim
    | @drafted request id symbol draft d body w w₁ w₂ w₃ hsymbol hfree hsuits hnew hdraft hdrafted happlied hbound =>
      have hsize : id < table.size := (Array.getElem?_eq_some_iff.1 hsymbol).1
      let a : Activation := ⟨id, (w.variants.ofSymbol id).length, d.args, d.returns⟩
      have hpush := hw.push (a := a) rfl
      have hsteps : Evolves false [] w w₂ := evolves_kept.trans
        ((SolveM.draft_evolves (Symbol.draft_sprouts hdraft) w).ok hdrafted)
        ((SolveM.applyAll_evolves _ w₁).ok happlied)
      have hanswers := solvingBinder_answers (fun request => ih a hsize hfree request) symbol.path d.usages
      have hbinds := (Binder.exprs_rebinds hanswers d.body hbound).answers .isolated
        (Symbol.draft_pending hdraft (SolveM.draft_ok hdrafted).1)
      obtain ⟨hnames, hsolves⟩ := hbinds (hpush.of_variants_eq (hsteps.unkept rfl) hsteps.graph)
      refine (hsolves.after hpush (hsteps.unkept rfl) hsteps.graph).keep hsize hfree
        (.drafted hsymbol hdraft hdrafted happlied hbound hsolves.evolves.graph) ?_ ?_
      · rintro _ ⟨⟩ r hr
        obtain ⟨k, hk⟩ := hnames r hr
        exact ⟨k, hk, hsolves.available ⟨r, hr, hk⟩⟩
      · exact fun ⟨r, hr, hk⟩ => ⟨body, rfl, r, hr, hk⟩

end bodies
end Monomorph
