import Monomorph.Proofs.Meaning.Typing
import Monomorph.Proofs.Solve.Checked
import Monomorph.Proofs.Solve.Settled

/-! # What unwraps give back

Unwrapping one variant of a value gives the value back if it is another one, so its constraint adds the other
variants of the value to what is given back. It is applied once: the variants that the value has by then are
given back with the same payloads (`Program.check_unwraps`); those that an open union gains afterwards need
not be (`Program.check_unwraps_gained`). -/

namespace Monomorph

open Outcome TypeGraph

variable {A : Type}

/-! ### Variants of a type -/

namespace TypeGraph

variable {g g' : TypeGraph} {v w payload : TypeVar} {name : String}

/-- The type is a union that has the variant. -/
def HasVariant (g : TypeGraph) (v : TypeVar) (name : String) (payload : TypeVar) : Prop :=
  ∃ row isOpen, g.kind v = .union row isOpen ∧ row.get? name = some payload

/-- The type is a union that gains no variants. -/
def IsClosed (g : TypeGraph) (v : TypeVar) : Prop := ∃ row, g.kind v = .union row false

/-- The names of the variants of a type. -/
def variantNames (g : TypeGraph) (v : TypeVar) : List String :=
  match g.kind v with
  | .union row _ => row.names
  | _ => []

theorem mem_variantNames_iff : name ∈ g.variantNames v ↔ ∃ payload, g.HasVariant v name payload := by
  unfold variantNames HasVariant
  split
  · rename_i row isOpen hkind
    rw [Row.mem_names_iff, Row.contains_iff]
    exact ⟨fun ⟨payload, h⟩ => ⟨payload, row, isOpen, hkind, h⟩,
      fun ⟨payload, _, _, hkind', h⟩ => by cases hkind.symm.trans hkind'; exact ⟨payload, h⟩⟩
  · rename_i hkind
    exact ⟨nofun, fun ⟨_, row, isOpen, hkind', _⟩ => (hkind row isOpen hkind').elim⟩

theorem HasVariant.unique {payload' : TypeVar} (h : g.HasVariant v name payload)
    (h' : g.HasVariant v name payload') : payload = payload' := by
  obtain ⟨row, isOpen, hkind, hget⟩ := h
  obtain ⟨row', isOpen', hkind', hget'⟩ := h'
  cases hkind.symm.trans hkind'
  exact Option.some.inj (hget.symm.trans hget')

/-- While types only narrow, a variant keeps its payload. -/
theorem HasVariant.narrows (h : g.HasVariant v name payload) (hg : g.Narrows g') :
    ∃ payload', g'.HasVariant v name payload' ∧ g'.Same payload' payload := by
  obtain ⟨row, isOpen, hkind, hget⟩ := h
  obtain ⟨row', isOpen', hkind', hrow⟩ := Kind.refines_union_iff.1 (hkind ▸ hg.refines v)
  obtain ⟨payload', hget', hsame⟩ := hrow.names name payload hget
  exact ⟨payload', ⟨row', isOpen', hkind', hget'⟩, hsame⟩

theorem HasVariant.sharpens (h : g.HasVariant v name payload) (hg : g.Sharpens g') :
    ∃ payload', g'.HasVariant v name payload' := by
  obtain ⟨row, isOpen, hkind, hget⟩ := h
  obtain ⟨row', isOpen', hkind', hrow⟩ := Kind.refines_union_iff.1 (hkind ▸ hg.kind v)
  obtain ⟨payload', hget', -⟩ := hrow.names name payload hget
  exact ⟨payload', row', isOpen', hkind', hget'⟩

theorem HasVariant.of_sharpens (h : g'.HasVariant v name payload) (hclosed : g.IsClosed v)
    (hg : g.Sharpens g') : ∃ payload', g.HasVariant v name payload' := by
  obtain ⟨row, hkind⟩ := hclosed
  obtain ⟨row', isOpen', hkind', hget⟩ := h
  obtain ⟨ys, yOpen, heq, hrow⟩ := Kind.refines_union_iff.1 (hkind ▸ hg.kind v)
  cases hkind'.symm.trans heq
  obtain ⟨payload', hget'⟩ := (Row.contains_iff _).1 (hrow.noFurther rfl name (Row.contains_of_get? hget))
  exact ⟨payload', row, false, hkind, hget'⟩

/-- A variant fits a union that has it if its payload fits. -/
theorem HasVariant.fits_iff (h : g.HasVariant v name payload) (x : Value A) :
    (Value.variant name x).Fits g v ↔ x.Fits g payload := by
  obtain ⟨row, isOpen, hkind, hget⟩ := h
  simp only [Value.Fits, hkind, hget]

end TypeGraph

/-! ### One unwrap -/

namespace Unwrap

variable {u : Unwrap} {g g₁ g₂ g' : TypeGraph} {span : Span}

/-- Every other variant of the value is one of what is given back, with the same payload. -/
def Covered (u : Unwrap) (g : TypeGraph) : Prop :=
  ∀ name payload, g.HasVariant u.value name payload → name ≠ u.variant →
    ∃ payload', g.HasVariant u.returns name payload' ∧ g.Same payload payload'

/-- What an unwrap is sure of in the types of `final` if its constraint led from those of `g₁` to those of
`g₂`. -/
structure GivesBack (u : Unwrap) (g₁ g₂ final : TypeGraph) : Prop where
  /-- The other variants that the value had then are still variants of both. -/
  kept : ∀ name payload, g₁.HasVariant u.value name payload → name ≠ u.variant →
    ∃ p q, final.HasVariant u.value name p ∧ final.HasVariant u.returns name q
  /-- While types only narrowed, they have the same payloads. -/
  same : g₂.Narrows final → ∀ name payload p, g₁.HasVariant u.value name payload → name ≠ u.variant →
    final.HasVariant u.value name p → ∃ q, final.HasVariant u.returns name q ∧ final.Same p q
  /-- So the value itself, which is given back, fits what is given back. -/
  fits : g₂.Narrows final → ∀ name payload {A : Type} (x : Value A), g₁.HasVariant u.value name payload →
    name ≠ u.variant → (Value.variant name x).Fits final u.value →
      Value.unwrap u.variant (.variant name x) = .error (.returned (.variant name x)) ∧
        (Value.variant name x).Fits final u.returns
  /-- A value that was closed has no more variants. -/
  closed : g₁.IsClosed u.value → ∀ name p, final.HasVariant u.value name p → name ≠ u.variant →
    ∃ q, final.HasVariant u.returns name q

abbrev constraint (u : Unwrap) (span : Span) : Constraint :=
  ⟨u.returns, span, .variantsOfExcept u.value u.variant⟩

/-- An unwrap is sure of the variants that the value has when its constraint is applied. -/
theorem givesBack_of_apply {s : Set TypeVar} (hs : g₁.Closed s)
    (hknown : ∀ v ∈ (u.constraint span).vars, g₁.Known s v)
    (h : (u.constraint span).apply g₁ = .ok () g₂) (hfinal : g₂.Sharpens g') : u.GivesBack g₁ g₂ g' := by
  have hvalue : g₁.Known s u.value := hknown _ (List.mem_cons_of_mem _ List.mem_cons_self)
  obtain ⟨⟨hin, -⟩, all, allOpen, hkind, row, isOpen, hreturns, hall⟩ :=
    Constraint.variantsOfExcept_meets hs (hknown _ List.mem_cons_self) hvalue h
  have hsharpens : g₁.Sharpens g' := ((Constraint.apply_sharpens _ g₁).ok h).trans hfinal
  have hcopied {name payload} (hp : g₁.HasVariant u.value name payload) (hname : name ≠ u.variant) :
      ∃ q, g₂.HasVariant u.returns name q ∧ g₂.Same q payload := by
    obtain ⟨row', isOpen', hkind', hget⟩ := hp
    cases hkind.symm.trans hkind'
    obtain ⟨q, hq, hsame⟩ := hall name payload hget hname
    exact ⟨q, ⟨row, isOpen, hreturns, hq⟩, hsame⟩
  have hsame (hnarrows : g₂.Narrows g') {name payload p} (hp : g₁.HasVariant u.value name payload)
      (hname : name ≠ u.variant) (hp' : g'.HasVariant u.value name p) :
      ∃ q, g'.HasVariant u.returns name q ∧ g'.Same p q := by
    obtain ⟨q, hq, hsame⟩ := hcopied hp hname
    obtain ⟨q', hq', hsame'⟩ := hq.narrows hnarrows
    obtain ⟨p', hp'', hsame''⟩ := hp.narrows (hin.toNarrows.trans hnarrows)
    obtain rfl := hp'.unique hp''
    have heq := g'.same_equivalence
    exact ⟨q', hq', heq.trans hsame'' (heq.trans (heq.symm (hnarrows.same hsame)) (heq.symm hsame'))⟩
  refine ⟨fun name payload hp hname => ?_, fun hnarrows _ _ _ => hsame hnarrows,
    fun hnarrows name payload A x hp hname hx => ?_, fun hclosed name p hp hname => ?_⟩
  · obtain ⟨q, hq, -⟩ := hcopied hp hname
    obtain ⟨p', hp'⟩ := hp.sharpens hsharpens
    obtain ⟨q', hq'⟩ := hq.sharpens hfinal
    exact ⟨p', q', hp', hq'⟩
  · obtain ⟨p', hp', -⟩ := hp.narrows (hin.toNarrows.trans hnarrows)
    obtain ⟨q', hq', heq⟩ := hsame hnarrows hp hname hp'
    refine ⟨?_, (hq'.fits_iff x).2 (((hp'.fits_iff x).1 hx).of_same heq)⟩
    rw [Value.unwrap, if_neg fun heq => hname (eq_of_beq heq)]
  · obtain ⟨payload, hp'⟩ := hp.of_sharpens hclosed hsharpens
    obtain ⟨q, hq, -⟩ := hcopied hp' hname
    exact hq.sharpens hfinal

/-- While types only narrow, an unwrap of a closed union is covered. -/
theorem GivesBack.covered (h : u.GivesBack g₁ g₂ g') (hclosed : g₁.IsClosed u.value) (hg : g₁.Narrows g₂)
    (hfinal : g₂.Narrows g') : u.Covered g' := fun name p hp hname =>
  let ⟨payload, hp'⟩ := hp.of_sharpens hclosed (hg.trans hfinal).sharpens
  h.same hfinal name payload p hp' hname hp

/-- An unwrap in the body of a procedure is demanded to give back the other variants of its value. -/
theorem constraint_mem {table : SymbolTable} {symbol : Symbol} {params : List String} {v : Variant}
    {body : List (Expr TypeVar)} {d : Draft} (h : Settles table symbol params v body d g₁ g₂)
    (hu : u ∈ unwrapsOf (Expr.nodesOf (.ofParams params v.args v.returns) body)) :
    ∃ span, u.constraint span ∈ d.constraints := by
  rw [h.unwraps] at hu
  obtain ⟨⟨p, e⟩, hnode, hu⟩ := List.mem_filterMap.1 hu
  have hrecorded := h.recorded.2 _ hnode
  cases e with
  | unwrap m value name =>
    obtain ⟨returns, hreturns, rfl⟩ := Option.map_eq_some_iff.1 hu
    exact hrecorded.2 returns hreturns
  | _ => cases hu

end Unwrap

/-! ### Checked programs -/

/-- In a variant of a procedure, every unwrap, in its body or in that of a closure, gives back the variants
that its value had when its constraint was applied: in the types in which the variant was accepted, and in
those of `final`. -/
def UnwrapsGiveBack (table : SymbolTable) (symbol : Symbol) (params : List String) (v : Variant)
    (body : List (Expr TypeVar)) (final : TypeGraph) : Prop :=
  ∃ d g g', Settles table symbol params v body d g g' ∧ g'.Sharpens final ∧
    ∀ u ∈ unwrapsOf (Expr.nodesOf (.ofParams params v.args v.returns) body), ∃ span g₁ g₂,
      (u.constraint span).AppliedIn d.constraints g g₁ g₂ ∧ g₂.Narrows g' ∧ u.GivesBack g₁ g₂ g' ∧
        u.GivesBack g₁ g₂ final

namespace Program

/-- All kept variants of procedures have unwraps that give back what their values had. -/
theorem check_unwraps {p : Program} (hfresh : p.Fresh) (options : CheckOptions) {k : VariantId} {v : Variant}
    (hv : (p.check options).2.workspace.variants.find? k = some v) {symbol : Symbol}
    (hsymbol : (p.check options).2.symbols.get? k.symbol = some symbol) {params : List String}
    (hparams : symbol.declaration.params? = some params) {body : List (Expr TypeVar)}
    (hbody : v.body = some body) :
    UnwrapsGiveBack (p.check options).2.symbols symbol params v body (p.check options).2.workspace.graph := by
  obtain ⟨d, g, g', hsettles, hfinal⟩ := (check_accepted hfresh options hv).settles hsymbol hparams hbody
  refine ⟨d, g, g', hsettles, hfinal, fun u hu => ?_⟩
  obtain ⟨span, hmem⟩ := Unwrap.constraint_mem hsettles hu
  obtain ⟨s, g₁, g₂, happlied, hclosed, hknown, hnarrows⟩ := hsettles.applied_at hmem
  obtain ⟨-, -, -, -, hrun⟩ := id happlied
  exact ⟨span, g₁, g₂, happlied, hnarrows, u.givesBack_of_apply hclosed hknown hrun hnarrows.sharpens,
    u.givesBack_of_apply hclosed hknown hrun (hnarrows.sharpens.trans hfinal)⟩

/-- A match of the argument `x` with one arm for a variant. -/
def seeing (variant : String) : Expr Unit :=
  .matchVariant ⟨.none, ()⟩ (.name ⟨.none, ()⟩ (.single "x")) [⟨variant, none, (), []⟩] (some [])

/-- A procedure that unwraps `x` between other expressions and then gives back another variant. -/
def unwrapping (before after : List (Expr Unit)) : Program :=
  let m : Mark Unit := ⟨.none, ()⟩
  ((empty .modules).add ⟨.single "main", .none, .procedure ["x"]
    (before ++ .unwrap m (.name m (.single "x")) "a" :: after ++
      [.giveBack m (.variant m "c" (.literal m .unit))])⟩).2

/-- The unwraps in the body of the variant that is kept. -/
def keptUnwraps (p : Program) : Option (List Unwrap) := do
  let v ← p.workspace.variants.find? ⟨0, 0⟩
  let body ← v.body
  return unwrapsOf (Expr.nodesOf (.ofParams ["x"] v.args v.returns) body)

theorem keptUnwraps_eq_some {p : Program} {l : List Unwrap} (h : p.keptUnwraps = some l) :
    ∃ v body, p.workspace.variants.find? ⟨0, 0⟩ = some v ∧ v.body = some body ∧
      unwrapsOf (Expr.nodesOf (.ofParams ["x"] v.args v.returns) body) = l := by
  obtain ⟨v, hv, h⟩ := Option.bind_eq_some_iff.1 h
  obtain ⟨body, hbody, h⟩ := Option.bind_eq_some_iff.1 h
  exact ⟨v, body, hv, hbody, Option.some.inj h⟩

/-- A variant that is seen before the unwrap is given back. -/
theorem check_unwraps_seen :
    (unwrapping [seeing "b"] []).Fresh ∧
      (unwrapping [seeing "b"] []).checkedMain.workspace.graph.variantNames ⟨0⟩ = ["a", "b"] ∧
      (unwrapping [seeing "b"] []).checkedMain.workspace.graph.variantNames ⟨1⟩ = ["b", "c"] ∧
      ∃ v symbol body, (unwrapping [seeing "b"] []).checkedMain.workspace.variants.find? ⟨0, 0⟩ = some v ∧
        (unwrapping [seeing "b"] []).checkedMain.symbols.get? 0 = some symbol ∧
        symbol.declaration.params? = some ["x"] ∧ v.body = some body ∧
        unwrapsOf (Expr.nodesOf (.ofParams ["x"] v.args v.returns) body) = [⟨⟨1⟩, ⟨0⟩, "a"⟩] ∧
        UnwrapsGiveBack (unwrapping [seeing "b"] []).checkedMain.symbols symbol ["x"] v body
          (unwrapping [seeing "b"] []).checkedMain.workspace.graph := by
  have hfresh : (unwrapping [seeing "b"] []).Fresh := by cbv
  have hkept : (unwrapping [seeing "b"] []).checkedMain.keptUnwraps = some [⟨⟨1⟩, ⟨0⟩, "a"⟩] := by cbv
  have hsymbol : ((unwrapping [seeing "b"] []).checkedMain.symbols.get? 0 >>= fun s => s.declaration.params?) =
      some ["x"] := by cbv
  obtain ⟨v, body, hv, hbody, hunwraps⟩ := keptUnwraps_eq_some hkept
  obtain ⟨symbol, hsymbol, hparams⟩ := Option.bind_eq_some_iff.1 hsymbol
  exact ⟨hfresh, by cbv, by cbv, v, symbol, body, hv, hsymbol, hparams, hbody, hunwraps,
    check_unwraps hfresh _ hv hsymbol hparams hbody⟩

/-- A variant that is seen only after the unwrap is not given back. -/
theorem check_unwraps_gained :
    (unwrapping [] [seeing "b"]).Fresh ∧ ∃ v body u,
      (unwrapping [] [seeing "b"]).checkedMain.workspace.variants.find? ⟨0, 0⟩ = some v ∧ v.body = some body ∧
        u ∈ unwrapsOf (Expr.nodesOf (.ofParams ["x"] v.args v.returns) body) ∧
          ¬ u.Covered (unwrapping [] [seeing "b"]).checkedMain.workspace.graph := by
  have hkept : (unwrapping [] [seeing "b"]).checkedMain.keptUnwraps = some [⟨⟨1⟩, ⟨0⟩, "a"⟩] := by cbv
  have hvalue : (unwrapping [] [seeing "b"]).checkedMain.workspace.graph.variantNames ⟨0⟩ = ["a", "b"] := by cbv
  have hreturns : (unwrapping [] [seeing "b"]).checkedMain.workspace.graph.variantNames ⟨1⟩ = ["c"] := by cbv
  obtain ⟨v, body, hv, hbody, hunwraps⟩ := keptUnwraps_eq_some hkept
  refine ⟨by cbv, v, body, ⟨⟨1⟩, ⟨0⟩, "a"⟩, hv, hbody, hunwraps ▸ List.mem_cons_self, fun hcovered => ?_⟩
  obtain ⟨payload, hb⟩ := mem_variantNames_iff.1 (hvalue ▸ (by decide : "b" ∈ ["a", "b"]))
  obtain ⟨payload', hb', -⟩ := hcovered "b" payload hb (by decide)
  have hmem := mem_variantNames_iff.2 ⟨payload', hb'⟩
  rw [hreturns] at hmem
  exact absurd hmem (by decide)

end Program
end Monomorph
