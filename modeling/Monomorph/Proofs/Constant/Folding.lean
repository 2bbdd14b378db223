import Mathlib.Logic.Relation
import Monomorph.Constant.Fold
import Monomorph.Proofs.Solve.Agreement

/-! # Folding ends

Folding an expression follows its reads of module variables. Where all that is read is there and can be put in an
order in which each variable reads only earlier ones (`VariantStore.Readable`), folding is the recursion that
follows every read into the value it finds (`VariantStore.Readable.folding_global`): a variable that is being
folded is never met again. So an expression has a value or is not constant
(`VariantStore.Readable.folding_decided`). -/

namespace Monomorph

open Relation

/-- The error says that something has no value before the program runs. -/
def LowerError.IsNotConstant (e : LowerError) : Prop := ∃ what span, e = .notConstant what span

/-- There is a value, or the error says that there is none before the program runs. -/
def Decided {α : Type} (result : Except LowerError α) : Prop := ∀ e, result = .error e → e.IsNotConstant

namespace Decided

variable {α β : Type}

theorem ok (a : α) : Decided (.ok a) := nofun

theorem notConstant (what : String) (span : Span) :
    Decided (.error (.notConstant what span) : Except LowerError α) := by
  rintro _ ⟨⟩
  exact ⟨what, span, rfl⟩

theorem bind {x : Except LowerError α} {f : α → Except LowerError β} (hx : Decided x)
    (hf : ∀ a, Decided (f a)) :
    Decided (x >>= f) := by
  cases x with
  | ok a => exact hf a
  | error e =>
    rintro _ ⟨⟩
    exact hx e rfl

end Decided

theorem constantOr_decided (what : String) (span : Span) (c : Option Constant) :
    Decided (constantOr what span c) := by
  cases c with
  | some c => exact .ok c
  | none => exact .notConstant what span

/-! ### One expression -/

namespace Expr

/-- If the expression reads a module variable, it is solved and what is asked of the read holds. -/
def ReadsAs (P : Path → Nat → Prop) : Expr TypeVar → Prop
  | .global _ target => ∃ path i, target = .resolved path i ∧ P path i
  | _ => True

/-- The reads of these expressions, at whatever place they stand. -/
abbrev AllReadAs (P : Path → Nat → Prop) (nodes : List (Place × Expr TypeVar)) : Prop :=
  ∀ n ∈ nodes, n.2.ReadsAs P

theorem ReadsAs.mono {P Q : Path → Nat → Prop} {e : Expr TypeVar} (h : e.ReadsAs P)
    (hPQ : ∀ path i, P path i → Q path i) : e.ReadsAs Q := by
  cases e with
  | global m target => exact h.imp fun path h => h.imp fun i h => h.imp_right (hPQ path i)
  | _ => trivial

section fold

variable {globals globals' : GlobalValues} {p : Place}

mutual

/-- If all that is read has a value or none, so has an expression. -/
theorem fold_decided : (e : Expr TypeVar) → ∀ {p},
    AllReadAs (fun path i => ∀ span, Decided (globals path i span)) (e.nodes p) → Decided (e.fold globals)
  | .literal m value, _, _ => by
    rw [fold]
    exact .ok _
  | .array m elements, _, h => by
    rw [fold]
    exact .bind (foldAll_decided elements (List.forall_mem_cons.1 h).2) fun _ => .ok _
  | .repeated m value size, _, h => by
    rw [fold]
    obtain ⟨hvalue, hsize⟩ := List.forall_mem_append.1 (List.forall_mem_cons.1 h).2
    refine .bind (fold_decided value hvalue) fun value => .bind (fold_decided size hsize) fun size => ?_
    split
    · exact .ok _
    · exact .notConstant _ _
  | .object m members, _, h => by
    rw [fold]
    exact .bind (foldNamed_decided members (List.forall_mem_cons.1 h).2) fun _ => .ok _
  | .variant m tag payload, _, h => by
    rw [fold]
    exact .bind (fold_decided payload (List.forall_mem_cons.1 h).2) fun _ => .ok _
  | .constant m value, _, h => by
    rw [fold]
    exact fold_decided value (List.forall_mem_cons.1 h).2
  | .unary m op operand, _, h => by
    rw [fold]
    exact .bind (fold_decided operand (List.forall_mem_cons.1 h).2) fun _ => constantOr_decided _ _ _
  | .binary m op left right, _, h => by
    rw [fold]
    obtain ⟨hleft, hright⟩ := List.forall_mem_append.1 (List.forall_mem_cons.1 h).2
    exact .bind (fold_decided left hleft) fun _ => .bind (fold_decided right hright) fun _ =>
      constantOr_decided _ _ _
  | .global m target, _, h => by
    obtain ⟨path, i, rfl, hdecided⟩ := h _ List.mem_cons_self
    rw [fold]
    exact hdecided m.span
  | .closure .., _, _ | .procedure .., _, _ | .invoke .., _, _ | .call .., _, _ | .method .., _, _
  | .name .., _, _ | .localVar .., _, _ | .define .., _, _ | .declare .., _, _ | .assign .., _, _
  | .giveBack .., _, _ | .member .., _, _ | .element .., _, _ | .unwrap .., _, _ | .ifElse .., _, _
  | .matchValue .., _, _ | .matchVariant .., _, _ => by
    simp only [fold]
    exact .notConstant _ _

theorem foldAll_decided : (es : List (Expr TypeVar)) → ∀ {p},
    AllReadAs (fun path i => ∀ span, Decided (globals path i span)) (nodesOf p es) → Decided (foldAll globals es)
  | [], _, _ => by
    rw [foldAll]
    exact .ok _
  | e :: rest, _, h => by
    rw [foldAll]
    obtain ⟨he, hrest⟩ := List.forall_mem_append.1 h
    exact .bind (fold_decided e he) fun _ => .bind (foldAll_decided rest hrest) fun _ => .ok _

theorem foldNamed_decided : (es : List (String × Expr TypeVar)) → ∀ {p},
    AllReadAs (fun path i => ∀ span, Decided (globals path i span)) (namedNodes p es) →
      Decided (foldNamed globals es)
  | [], _, _ => by
    rw [foldNamed]
    exact .ok _
  | (_, e) :: rest, _, h => by
    rw [foldNamed]
    obtain ⟨he, hrest⟩ := List.forall_mem_append.1 h
    exact .bind (fold_decided e he) fun _ => .bind (foldNamed_decided rest hrest) fun _ => .ok _

end

mutual

theorem fold_congr : (e : Expr TypeVar) → ∀ {p},
    AllReadAs (fun path i => globals path i = globals' path i) (e.nodes p) → e.fold globals = e.fold globals'
  | .array m elements, _, h => by
    rw [fold, fold, foldAll_congr elements (List.forall_mem_cons.1 h).2]
  | .repeated m value size, _, h => by
    obtain ⟨hvalue, hsize⟩ := List.forall_mem_append.1 (List.forall_mem_cons.1 h).2
    rw [fold, fold, fold_congr value hvalue, fold_congr size hsize]
  | .object m members, _, h => by
    rw [fold, fold, foldNamed_congr members (List.forall_mem_cons.1 h).2]
  | .variant m tag payload, _, h => by
    rw [fold, fold, fold_congr payload (List.forall_mem_cons.1 h).2]
  | .constant m value, _, h => by
    rw [fold, fold, fold_congr value (List.forall_mem_cons.1 h).2]
  | .unary m op operand, _, h => by
    rw [fold, fold, fold_congr operand (List.forall_mem_cons.1 h).2]
  | .binary m op left right, _, h => by
    obtain ⟨hleft, hright⟩ := List.forall_mem_append.1 (List.forall_mem_cons.1 h).2
    rw [fold, fold, fold_congr left hleft, fold_congr right hright]
  | .global m target, _, h => by
    obtain ⟨path, i, rfl, heq⟩ := h _ List.mem_cons_self
    rw [fold, fold, heq]
  | .literal .., _, _ | .closure .., _, _ | .procedure .., _, _ | .invoke .., _, _ | .call .., _, _ | .method .., _, _
  | .name .., _, _ | .localVar .., _, _ | .define .., _, _ | .declare .., _, _ | .assign .., _, _
  | .giveBack .., _, _ | .member .., _, _ | .element .., _, _ | .unwrap .., _, _ | .ifElse .., _, _
  | .matchValue .., _, _ | .matchVariant .., _, _ => by
    simp only [fold]

theorem foldAll_congr : (es : List (Expr TypeVar)) → ∀ {p},
    AllReadAs (fun path i => globals path i = globals' path i) (nodesOf p es) →
      foldAll globals es = foldAll globals' es
  | [], _, _ => by
    rw [foldAll, foldAll]
  | e :: rest, _, h => by
    obtain ⟨he, hrest⟩ := List.forall_mem_append.1 h
    rw [foldAll, foldAll, fold_congr e he, foldAll_congr rest hrest]

theorem foldNamed_congr : (es : List (String × Expr TypeVar)) → ∀ {p},
    AllReadAs (fun path i => globals path i = globals' path i) (namedNodes p es) →
      foldNamed globals es = foldNamed globals' es
  | [], _, _ => by
    rw [foldNamed, foldNamed]
  | (_, e) :: rest, _, h => by
    obtain ⟨he, hrest⟩ := List.forall_mem_append.1 h
    rw [foldNamed, foldNamed, fold_congr e he, foldNamed_congr rest hrest]

end

end fold

end Expr

/-! ### All module variables -/

/-- A read is one of a variant of a module variable that is kept. -/
def ReadsKept (table : SymbolTable) (store : VariantStore) (path : Path) (i : Nat) : Prop :=
  ∃ id v, globalVariant? table store path i = some (id, v)

section globals

variable {table : SymbolTable} {store : VariantStore} {path : Path} {i id : Nat} {v : Variant}

theorem globalVariant?_eq_some_iff :
    globalVariant? table store path i = some (id, v) ↔ ∃ symbol, table.lookup path = some id ∧
      table.get? id = some symbol ∧ symbol.declaration.isProcedure = false ∧ store.find? ⟨id, i⟩ = some v := by
  constructor
  · intro h
    obtain ⟨id', hid, h⟩ := Option.bind_eq_some_iff.1 h
    obtain ⟨symbol, hsymbol, h⟩ := Option.bind_eq_some_iff.1 h
    obtain ⟨⟨⟩, hkind, h⟩ := Option.bind_eq_some_iff.1 h
    obtain ⟨v', hv, h⟩ := Option.bind_eq_some_iff.1 h
    cases h
    exact ⟨symbol, hid, hsymbol, by simpa [guard] using hkind, hv⟩
  · rintro ⟨symbol, hid, hsymbol, hkind, hv⟩
    have hv : (store.ofSymbol id)[i]? = some v := hv
    simp [globalVariant?, hid, hsymbol, hkind, hv]

namespace VariantStore

/-- All that kept bodies read is kept, and no variable is read for its own value. -/
structure Readable (table : SymbolTable) (store : VariantStore) : Prop where
  kept : ∀ {k v body}, store.find? k = some v → v.body = some body →
    ∀ n ∈ Expr.nodesOf .isolated body, n.2.ReadsAs (ReadsKept table store)
  ordered : store.Ordered table

/-- Whatever is read from a variant on, directly or not, is among the variants that can be folded. -/
def Serves (table : SymbolTable) (store : VariantStore) (available : List (Nat × Nat)) (k : VariantId) : Prop :=
  ∀ k', ReflTransGen (store.Reads table) k k' → (∃ v, store.find? k' = some v) →
    (k'.symbol, k'.variant) ∈ available

variable {available available' : List (Nat × Nat)} {k k' : VariantId}

/-- A variable is not read for its own value, so what it reads can be folded without it. -/
theorem Serves.erase (h : Serves table store available k) (hordered : store.Ordered table)
    (hread : store.Reads table k k') : Serves table store (available.erase (k.symbol, k.variant)) k' := by
  intro k'' hreads hv
  refine (List.mem_erase_of_ne fun heq => ?_).2 (h k'' (.head hread hreads) hv)
  obtain rfl : k'' = k := by
    cases k''
    cases k
    obtain ⟨hsymbol, hvariant⟩ := Prod.mk.inj heq
    exact congrArg₂ VariantId.mk hsymbol hvariant
  have hwell : WellFounded (TransGen fun k' k => store.Reads table k k') := WellFounded.transGen hordered
  exact hwell.irrefl.irrefl k'' (transGen_swap.1 (TransGen.head' hread hreads))

namespace Readable

variable (h : store.Readable table)

include h

/-- The value of a kept variable reads variants that are kept and that the variable reads. -/
theorem value_reads {value : Expr TypeVar} {rest : List (Expr TypeVar)} (hv : store.find? k = some v)
    (hbody : v.body = some (value :: rest)) :
    Expr.AllReadAs (fun path i => ∃ id v, globalVariant? table store path i = some (id, v) ∧
      store.Reads table k ⟨id, i⟩) (value.nodes .isolated) := by
  intro n hn
  have hmem : n ∈ Expr.nodesOf .isolated (value :: rest) := List.mem_append_left _ hn
  have hkept := h.kept hv hbody n hmem
  obtain ⟨p, e⟩ := n
  cases e with
  | global m target =>
    obtain ⟨path, i, rfl, id, v', hglobal⟩ := hkept
    obtain ⟨symbol, hid, hsymbol, hkind, -⟩ := globalVariant?_eq_some_iff.1 hglobal
    refine ⟨path, i, rfl, id, v', hglobal, v, _, .resolved path i, hv, hbody, ?_, .moduleVariable hid hsymbol hkind⟩
    exact List.mem_flatMap.2 ⟨_, hmem, List.mem_singleton.2 rfl⟩
  | _ => trivial

/-- Which other variants can be folded makes no difference. -/
theorem foldGlobal_congr (hglobal : globalVariant? table store path i = some (id, v))
    (hserves : Serves table store available ⟨id, i⟩) (hserves' : Serves table store available' ⟨id, i⟩) :
    foldGlobal table store available path i = foldGlobal table store available' path i := by
  generalize hk : VariantId.mk id i = k at hserves hserves'
  induction k using h.ordered.induction generalizing path i id v available available' with
  | h k ih =>
    subst hk
    obtain ⟨-, -, -, -, hv⟩ := globalVariant?_eq_some_iff.1 hglobal
    funext span
    rw [foldGlobal, foldGlobal]
    simp only [hglobal]
    split
    · rename_i value rest hbody
      rw [dif_pos (hserves _ .refl ⟨v, hv⟩), dif_pos (hserves' _ .refl ⟨v, hv⟩)]
      refine Expr.fold_congr value fun n hn => (h.value_reads hv hbody n hn).mono fun path' i' => ?_
      rintro ⟨id', v', hglobal', hread⟩
      exact ih _ hread hglobal' rfl (hserves.erase h.ordered hread) (hserves'.erase h.ordered hread)
    · rfl

/-- A variable that can be folded with all that it reads has a value or is not constant. -/
theorem foldGlobal_decided (hglobal : globalVariant? table store path i = some (id, v))
    (hserves : Serves table store available ⟨id, i⟩) (span : Span) :
    Decided (foldGlobal table store available path i span) := by
  generalize hk : VariantId.mk id i = k at hserves
  induction k using h.ordered.induction generalizing path i id v available span with
  | h k ih =>
    subst hk
    obtain ⟨-, -, -, -, hv⟩ := globalVariant?_eq_some_iff.1 hglobal
    rw [foldGlobal]
    simp only [hglobal]
    split
    · rename_i value rest hbody
      rw [dif_pos (hserves _ .refl ⟨v, hv⟩)]
      refine Expr.fold_decided value fun n hn => (h.value_reads hv hbody n hn).mono fun path' i' => ?_
      rintro ⟨id', v', hglobal', hread⟩ span'
      exact ih _ hread hglobal' span' rfl (hserves.erase h.ordered hread)
    · exact .notConstant _ _

omit h in
theorem serves_all (k : VariantId) : Serves table store
    (store.toList.zipIdx.flatMap fun (vs, id) => (List.range vs.length).map (id, ·)) k := by
  rintro ⟨id, i⟩ - ⟨v, hv⟩
  have hlt : i < (store.ofSymbol id).length := (List.getElem?_eq_some_iff.1 hv).1
  have hid : store.toList[id]? = some (store.ofSymbol id) := by
    have hsize : id < store.size := by
      by_contra hge
      rw [ofSymbol, Array.getD_eq_getD_getElem?, Array.getElem?_eq_none (Nat.le_of_not_lt hge)] at hlt
      exact Nat.not_lt_zero _ hlt
    rw [Array.getElem?_toList, Array.getElem?_eq_getElem hsize, ofSymbol, Array.getD_eq_getD_getElem?,
      Array.getElem?_eq_getElem hsize]
    rfl
  refine List.mem_flatMap.2 ⟨(store.ofSymbol id, id), List.mk_mem_zipIdx_iff_getElem?.2 hid, ?_⟩
  exact List.mem_map_of_mem (List.mem_range.2 hlt)

/-- An expression that reads what is kept has a value or is not constant. -/
theorem folding_decided {e : Expr TypeVar} {p : Place} (he : Expr.AllReadAs (ReadsKept table store) (e.nodes p)) :
    Decided (Evaluator.folding table store e) :=
  Expr.fold_decided e fun n hn => (he n hn).mono fun _ _ ⟨_, _, hglobal⟩ =>
    h.foldGlobal_decided hglobal (serves_all _)

/-- A read of a variable is folded as the value of the variable is. -/
theorem folding_global (hglobal : globalVariant? table store path i = some (id, v)) {value : Expr TypeVar}
    {rest : List (Expr TypeVar)} (hbody : v.body = some (value :: rest)) (m : Mark TypeVar) :
    Evaluator.folding table store (.global m (.resolved path i)) = Evaluator.folding table store value := by
  obtain ⟨-, -, -, -, hv⟩ := globalVariant?_eq_some_iff.1 hglobal
  have hserves : Serves table store _ ⟨id, i⟩ := serves_all _
  have havailable := hserves ⟨id, i⟩ .refl ⟨v, hv⟩
  simp only [Evaluator.folding, Expr.fold]
  rw [foldGlobal]
  simp only [hglobal, hbody]
  rw [dif_pos havailable]
  refine Expr.fold_congr value fun n hn => (h.value_reads hv hbody n hn).mono fun path' i' => ?_
  rintro ⟨id', v', hglobal', hread⟩
  exact h.foldGlobal_congr hglobal' ((serves_all _).erase h.ordered hread) (serves_all _)

end Readable

end VariantStore

end globals

end Monomorph
