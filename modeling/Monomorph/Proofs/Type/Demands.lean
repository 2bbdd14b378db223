import Monomorph.Constraint
import Monomorph.Proofs.Outcome
import Monomorph.Proofs.Type.Narrowing
import Monomorph.Proofs.Type.Sharpening

/-! # Demands that were met

Applying a constraint narrows types, and afterwards its demand is met (`Constraint.apply_meets`): the target
has the shape demanded (`Demand.shape`) or one that refines it. What is met stays met while types only
narrow (`Demand.Met.narrows`), so constraints applied one after another all hold at the end
(`Constraint.forM_apply_holds`). -/

namespace Monomorph

open Outcome TypeGraph

/-! ### What demands say -/

namespace Demand

def vars : Demand → List TypeVar
  | hasElement v | hasMember _ v | hasVariant _ v | variantsOfExcept v _ | unify v => [v]
  | hasSignature args returns => args ++ [returns]
  | _ => []

/-- The least that is demanded of the target's kind. -/
def shape : Demand → Kind
  | isBase base _ => base.instantiate
  | isNumeric => .numeric
  | isIndexed => .indexed
  | isReferenced => .referenced
  | isSequence => .sequence
  | hasElement element => .array element
  | hasMember name type => .object (Row.empty.insert name type) true none
  | limitMembers _ => .object .empty true none
  | hasSignature args returns => .closure args returns
  | hasVariant name type => .union (Row.empty.insert name type) true
  | limitVariants _ | variantsOfExcept .. => .union .empty true
  | unify _ => .any

/-- Whether a kind stays within the limits of a demand. -/
def Limits : Demand → Kind → Prop
  | limitMembers _, .object _ isOpen _ => isOpen = false
  | limitVariants names, .union row isOpen =>
    isOpen = false ∧ ∀ name, row.contains name = true → names.contains name = true
  | _, _ => True

/-- What is demanded of the variable `v` is the case. -/
structure Met (d : Demand) (g : TypeGraph) (v : TypeVar) : Prop where
  shape : (g.kind v).Refines g.Same d.shape
  limits : d.Limits (g.kind v)
  same : ∀ w, d = unify w → g.Same v w

/-- Kinds of the shape demanded stay within the limits when they are refined. -/
theorem Limits.refines {d : Demand} {r : VarRel} {k l : Kind} (h : d.Limits l) (hl : l.Refines r d.shape)
    (hk : k.Refines r l) : d.Limits k := by
  cases d with
  | limitMembers names =>
    obtain ⟨ys, yOpen, yOrder, rfl, -⟩ := Kind.refines_object_iff.1 hl
    obtain ⟨xs, xOpen, xOrder, rfl, hrow, -⟩ := Kind.refines_object_iff.1 hk
    exact hrow.isClosed h
  | limitVariants names =>
    obtain ⟨ys, yOpen, rfl, -⟩ := Kind.refines_union_iff.1 hl
    obtain ⟨xs, xOpen, rfl, hrow⟩ := Kind.refines_union_iff.1 hk
    exact ⟨hrow.isClosed h.1, fun name hname => h.2 name (hrow.noFurther h.1 name hname)⟩
  | _ => trivial

theorem Met.narrows {d : Demand} {g g' : TypeGraph} {v : TypeVar} (h : d.Met g v) (hg : g.Narrows g') :
    d.Met g' v where
  shape := hg.refines_of h.shape
  limits := h.limits.refines (h.shape.mono hg.same) (hg.refines v)
  same w hw := hg.same (h.same w hw)

end Demand

namespace Constraint

def vars (c : Constraint) : List TypeVar := c.target :: c.demand.vars

def Holds (c : Constraint) (g : TypeGraph) : Prop := c.demand.Met g c.target

end Constraint

/-! ### Steps -/

variable {g g' : TypeGraph} {s : Set TypeVar} {v w : TypeVar} {span : Span} {u : Unit}

theorem TypeGraph.Narrows.sharpens (h : g.Narrows g') : g.Sharpens g' :=
  ⟨h.size_le, h.same, fun v => (h.refines v).mono fun _ => trivial⟩

theorem unifyAt_narrows {path : StepPath} (hs : g.Closed s) (hv : g.Known s v) (hw : g.Known s w)
    (h : unifyAt v w span path g = .ok u g') : NarrowsIn s g g' ∧ g'.Same v w := by
  obtain ⟨hin, hsame⟩ := hs.unifyAll (fun p hp => by cases List.mem_singleton.1 hp; exact ⟨hv, hw⟩) h
  exact ⟨hin, hsame _ List.mem_cons_self⟩

theorem forM_unifyAt_narrows {β : Type} {left right : β → TypeVar} {path : β → StepPath} {l : List β}
    (hs : g.Closed s) (hl : ∀ p ∈ l, g.Known s (left p) ∧ g.Known s (right p))
    (h : (l.forM fun p => unifyAt (left p) (right p) span (path p)) g = .ok u g') :
    NarrowsIn s g g' ∧ ∀ p ∈ l, g'.Same (left p) (right p) := by
  induction l generalizing g with
  | nil =>
    obtain ⟨-, rfl⟩ := pure_eq_ok_iff.1 h
    exact ⟨.refl hs, nofun⟩
  | cons p l ih =>
    obtain ⟨⟨⟩, g₁, hfirst, hrest⟩ := bind_eq_ok_iff.1 h
    obtain ⟨hp, hl⟩ := List.forall_mem_cons.1 hl
    obtain ⟨hin, hsame⟩ := unifyAt_narrows hs hp.1 hp.2 hfirst
    obtain ⟨hin', hsame'⟩ := ih hin.closed (fun q hq => (hl q hq).imp hin.known hin.known) hrest
    exact ⟨hin.trans hin', List.forall_mem_cons.2 ⟨hin'.same hsame, hsame'⟩⟩

theorem freshFor_narrows {names : List String} {members : List (String × TypeVar)} (hs : g.Closed s)
    (h : freshFor names g = .ok members g') :
    NarrowsIn s g g' ∧ (∀ v, v.index < g.size → g'.kind v = g.kind v) ∧
      members.map Prod.fst = names ∧ ∀ p ∈ members, g'.Known s p.2 := by
  induction names generalizing g members with
  | nil =>
    obtain ⟨rfl, rfl⟩ := pure_eq_ok_iff.1 h
    exact ⟨.refl hs, fun _ _ => rfl, rfl, nofun⟩
  | cons name names ih =>
    obtain ⟨v, g₁, hfresh, h⟩ := bind_eq_ok_iff.1 h
    obtain ⟨rest, g₂, hrest, h⟩ := bind_eq_ok_iff.1 h
    obtain ⟨rfl, rfl⟩ := pure_eq_ok_iff.1 h
    obtain ⟨rfl, rfl⟩ := ok_eq_ok_iff.1 hfresh
    have halloc := hs.alloc (t := Ty.any) nofun
    obtain ⟨hin, hkinds, hnames, hmembers⟩ := ih halloc.closed hrest
    refine ⟨halloc.trans hin, fun v hv => ?_, congrArg (name :: ·) hnames,
      List.forall_mem_cons.2 ⟨hin.known (hs.known_size _), hmembers⟩⟩
    rw [hkinds v (Nat.lt_of_lt_of_le hv halloc.size_le), kind, get_alloc, if_neg (Nat.ne_of_lt hv)]
    rfl

/-! ### Rows -/

section rows

variable {r : VarRel} {row : Row TypeVar} {isOpen : Bool} {name : String} {type : TypeVar}

theorem rowRefines_empty : RowRefines r row isOpen .empty true :=
  ⟨fun _ _ h => (nomatch h), nofun, nofun⟩

theorem rowRefines_single {x : TypeVar} (hx : row.get? name = some x) (hr : r x type) :
    RowRefines r row isOpen (Row.empty.insert name type) true := by
  refine ⟨fun n y hy => ?_, nofun, nofun⟩
  rw [Row.get?_insert] at hy
  split at hy
  · rename_i hn
    cases hy
    exact ⟨x, hn ▸ hx, hr⟩
  · cases hy

theorem mem_values_insert {v : TypeVar} (h : v ∈ (row.insert name type).values) :
    v = type ∨ v ∈ row.values := by
  obtain ⟨n, hn⟩ := (Row.mem_values_iff _).1 h
  rw [Row.get?_insert] at hn
  split at hn
  · exact .inl (Option.some.inj hn).symm
  · exact .inr ((Row.mem_values_iff _).2 ⟨n, hn⟩)

theorem eq_of_mem_values_single {v : TypeVar} (h : v ∈ (Row.empty.insert name type).values) : v = type :=
  (mem_values_insert h).resolve_right List.not_mem_nil

end rows

/-! ### Applying a constraint -/

/-- After a step from `g` to `g'` that only narrows types, a demand on the variable `v` is met. -/
def Meets (s : Set TypeVar) (d : Demand) (v : TypeVar) (g g' : TypeGraph) : Prop :=
  NarrowsIn s g g' ∧ d.Met g' v

section meets

variable {d : Demand} {k : Kind}

theorem Meets.of_shape (hs : g.Closed s) (hshape : (g.kind v).Refines g.Same d.shape)
    (hlimits : d.Limits (g.kind v)) (hd : ∀ w, d ≠ .unify w) : Meets s d v g g :=
  ⟨.refl hs, hshape, hlimits, fun w h => absurd h (hd w)⟩

theorem settle_narrows {span : Option Span} (h : settle v k span g = .ok u g') (hs : g.Closed s)
    (hv : g.Known s v) (hrefines : k.Refines g.Same (g.kind v)) (hk : ∀ w ∈ k.children, g.Known s w) :
    NarrowsIn s g g' ∧ g'.kind v = k := by
  obtain ⟨-, rfl⟩ := ok_eq_ok_iff.1 h
  exact hs.set (t := ⟨k, span⟩) hv hrefines hk

theorem Meets.of_settle {span : Option Span} (h : settle v k span g = .ok u g') (hs : g.Closed s)
    (hv : g.Known s v) (hrefines : k.Refines g.Same (g.kind v)) (hk : ∀ w ∈ k.children, g.Known s w)
    (hshape : k.Refines g.Same d.shape) (hlimits : d.Limits k) (hd : ∀ w, d ≠ .unify w) :
    Meets s d v g g' := by
  obtain ⟨hin, hkind⟩ := settle_narrows h hs hv hrefines hk
  refine ⟨hin, ?_, ?_, fun w h => absurd h (hd w)⟩
  · rw [hkind]
    exact hshape.mono hin.same
  · rw [hkind]
    exact hlimits

/-- A kind that has the shape once variables inside are unified. -/
theorem Meets.of_unify (hin : NarrowsIn s g g') (hshape : (g.kind v).Refines g'.Same d.shape)
    (hlimits : d.Limits (g.kind v)) (hd : ∀ w, d ≠ .unify w) : Meets s d v g g' :=
  ⟨hin, .trans g'.same_equivalence (hin.refines v) hshape, hlimits.refines hshape (hin.refines v),
    fun w h => absurd h (hd w)⟩

end meets

theorem BaseKind.refines_of_accepts {base : BaseKind} {r : VarRel} {k : Kind}
    (h : base.accepts k = true) : k.Refines r base.instantiate := by
  cases base <;> cases k <;> first
    | exact (Bool.false_ne_true h).elim
    | trivial
    | exact ⟨rowRefines_empty, nofun⟩
    | exact rowRefines_empty

theorem BaseKind.instantiate_refines {base : BaseKind} {r : VarRel} {k : Kind}
    (h : base.refines k = true) : base.instantiate.Refines r k := by
  cases base <;> cases k <;> first
    | exact (Bool.false_ne_true h).elim
    | trivial

namespace Constraint

variable {c : Constraint} {d : Demand}

theorem isBase_meets {base : BaseKind} {reason : Option String} (hs : g.Closed s) (hv : g.Known s v)
    (h : apply ⟨v, span, .isBase base reason⟩ g = .ok u g') :
    Meets s (.isBase base reason) v g g' := by
  obtain ⟨x, hx, h⟩ := get_bind_eq_ok_iff.1 h
  dsimp only at hx
  split at hx
  · rename_i haccepts
    subst hx
    obtain ⟨-, rfl⟩ := pure_eq_ok_iff.1 h
    exact .of_shape hs (BaseKind.refines_of_accepts haccepts) trivial nofun
  · split at hx
    · rename_i hrefines
      subst hx
      exact .of_settle h hs hv (BaseKind.instantiate_refines hrefines) (by cases base <;> nofun)
        (.refl g.same_equivalence _) trivial nofun
    · subst hx
      exact (throw_eq_ok_iff.1 h).elim

/-- A category: some placeholders are settled, other kinds are in it or not. -/
theorem category_meets {x : TypeM Unit} {isIn : Bool} {error : TypeError} (hs : g.Closed s)
    (hin : isIn = true → (g.kind v).Refines g.Same d.shape) (hlimits : d.Limits (g.kind v))
    (hd : ∀ w, d ≠ .unify w) (hx : (if isIn = true then pure () else throw error) = x)
    (h : x g = .ok u g') : Meets s d v g g' := by
  split at hx
  · rename_i htrue
    subst hx
    obtain ⟨-, rfl⟩ := pure_eq_ok_iff.1 h
    exact .of_shape hs (hin htrue) hlimits hd
  · subst hx
    exact (throw_eq_ok_iff.1 h).elim

theorem isNumeric_meets (hs : g.Closed s) (hv : g.Known s v)
    (h : apply ⟨v, span, .isNumeric⟩ g = .ok u g') : Meets s .isNumeric v g g' := by
  obtain ⟨x, hx, h⟩ := get_bind_eq_ok_iff.1 h
  dsimp only at hx
  split at hx
  · rename_i hkind
    subst hx
    exact .of_settle h hs hv (by rw [kind, hkind]; trivial) (List.forall_mem_nil _) rfl trivial nofun
  · exact category_meets hs id trivial nofun hx h

theorem isIndexed_meets (hs : g.Closed s) (hv : g.Known s v)
    (h : apply ⟨v, span, .isIndexed⟩ g = .ok u g') : Meets s .isIndexed v g g' := by
  obtain ⟨x, hx, h⟩ := get_bind_eq_ok_iff.1 h
  dsimp only at hx
  split at hx
  · rename_i hkind
    subst hx
    exact .of_settle h hs hv (by rw [kind, hkind]; trivial) (List.forall_mem_nil _) rfl trivial nofun
  · rename_i hkind
    subst hx
    exact .of_settle h hs hv (by rw [kind, hkind]; rfl) (List.forall_mem_nil _) rfl trivial nofun
  · rename_i hkind
    subst hx
    exact .of_settle h hs hv (by rw [kind, hkind]; rfl) (List.forall_mem_nil _) rfl trivial nofun
  · exact category_meets hs id trivial nofun hx h

theorem isReferenced_meets (hs : g.Closed s) (hv : g.Known s v)
    (h : apply ⟨v, span, .isReferenced⟩ g = .ok u g') : Meets s .isReferenced v g g' := by
  obtain ⟨x, hx, h⟩ := get_bind_eq_ok_iff.1 h
  dsimp only at hx
  split at hx
  · rename_i hkind
    subst hx
    exact .of_settle h hs hv (by rw [kind, hkind]; trivial) (List.forall_mem_nil _) rfl trivial nofun
  · rename_i hkind
    subst hx
    exact .of_settle h hs hv (by rw [kind, hkind]; rfl) (List.forall_mem_nil _) rfl trivial nofun
  · exact category_meets hs id trivial nofun hx h

theorem isSequence_meets (hs : g.Closed s) (hv : g.Known s v)
    (h : apply ⟨v, span, .isSequence⟩ g = .ok u g') : Meets s .isSequence v g g' := by
  obtain ⟨x, hx, h⟩ := get_bind_eq_ok_iff.1 h
  dsimp only at hx
  split at hx
  · rename_i hkind
    subst hx
    exact .of_settle h hs hv (by rw [kind, hkind]; trivial) (List.forall_mem_nil _) rfl trivial nofun
  · rename_i hkind
    subst hx
    exact .of_settle h hs hv (by rw [kind, hkind]; rfl) (List.forall_mem_nil _) rfl trivial nofun
  · exact category_meets hs id trivial nofun hx h

theorem hasElement_meets {element : TypeVar} (hs : g.Closed s) (hv : g.Known s v)
    (helement : g.Known s element) (h : apply ⟨v, span, .hasElement element⟩ g = .ok u g') :
    Meets s (.hasElement element) v g g' := by
  obtain ⟨x, hx, h⟩ := get_bind_eq_ok_iff.1 h
  have hsettle (h : settle v (.array element) span g = .ok u g')
      (hrefines : (Kind.array element).Refines g.Same (g.kind v)) :
      Meets s (.hasElement element) v g g' :=
    .of_settle h hs hv hrefines (fun w hw => by cases List.mem_singleton.1 hw; exact helement)
      (.refl g.same_equivalence _) trivial nofun
  dsimp only at hx
  split at hx
  · rename_i hkind
    subst hx
    exact hsettle h (by rw [kind, hkind]; trivial)
  · rename_i hkind
    subst hx
    exact hsettle h (by rw [kind, hkind]; rfl)
  · rename_i hkind
    subst hx
    exact hsettle h (by rw [kind, hkind]; rfl)
  · rename_i hkind
    subst hx
    exact hsettle h (by rw [kind, hkind]; rfl)
  · rename_i existing hkind
    subst hx
    have hexisting : g.Known s existing := hs.child hv.1 (by rw [kind, hkind]; exact List.mem_cons_self)
    obtain ⟨hin, hsame⟩ := unifyAt_narrows hs hexisting helement h
    exact .of_unify hin (by rw [kind, hkind]; exact hsame) trivial nofun
  · subst hx
    exact (throw_eq_ok_iff.1 h).elim

theorem hasMember_meets {name : String} {type : TypeVar} (hs : g.Closed s) (hv : g.Known s v)
    (htype : g.Known s type) (h : apply ⟨v, span, .hasMember name type⟩ g = .ok u g') :
    Meets s (.hasMember name type) v g g' := by
  obtain ⟨x, hx, h⟩ := get_bind_eq_ok_iff.1 h
  have hsettle (h : settle v (.object (Row.empty.insert name type) true none) span g = .ok u g')
      (hrefines : (Kind.object (Row.empty.insert name type) true none).Refines g.Same (g.kind v)) :
      Meets s (.hasMember name type) v g g' :=
    .of_settle h hs hv hrefines
      (fun w hw => eq_of_mem_values_single hw ▸ htype)
      (.refl g.same_equivalence _) trivial nofun
  dsimp only at hx
  split at hx
  · rename_i hkind
    subst hx
    exact hsettle h (by rw [kind, hkind]; trivial)
  · rename_i hkind
    subst hx
    exact hsettle h (by rw [kind, hkind]; rfl)
  · rename_i members isOpen order hkind
    have hmembers : ∀ w ∈ members.values, g.Known s w := fun w hw =>
      hs.child hv.1 (by rw [kind, hkind]; exact hw)
    split at hx
    · rename_i existing hexisting
      subst hx
      obtain ⟨hin, hsame⟩ :=
        unifyAt_narrows hs (hmembers _ ((Row.mem_values_iff _).2 ⟨_, hexisting⟩)) htype h
      refine .of_unify hin ?_ trivial nofun
      rw [kind, hkind]
      exact ⟨rowRefines_single hexisting hsame, nofun⟩
    · rename_i hnone
      split at hx
      · rename_i hopen
        subst hx hopen
        refine .of_settle h hs hv ?_ (fun w hw => ?_) ?_ trivial nofun
        · rw [kind, hkind]
          exact ⟨rowRefines_insert g.same_equivalence hnone, fun _ h => h⟩
        · rcases mem_values_insert hw with rfl | hw
          · exact htype
          · exact hmembers w hw
        · refine ⟨rowRefines_single (x := type) ?_ (g.same_equivalence.refl _), nofun⟩
          rw [Row.get?_insert, if_pos rfl]
      · subst hx
        exact (throw_eq_ok_iff.1 h).elim
  · subst hx
    exact (throw_eq_ok_iff.1 h).elim

/-- A kind with a variable for each of some names inside, given to the target. -/
theorem freshFor_settle_meets {names : List String} {origin : Option Span}
    {k : List (String × TypeVar) → Kind} (hs : g.Closed s) (hv : g.Known s v)
    (h : (freshFor names >>= fun members => settle v (k members) origin) g = .ok u g')
    (hrefines : ∀ members, (k members).Refines g.Same (g.kind v))
    (hk : ∀ members, ∀ w ∈ (k members).children, ∃ p ∈ members, p.2 = w)
    (hshape : ∀ members r, (k members).Refines r d.shape)
    (hlimits : ∀ members : List (String × TypeVar), members.map Prod.fst = names → d.Limits (k members))
    (hd : ∀ w, d ≠ .unify w) : Meets s d v g g' := by
  obtain ⟨members, g₁, hfresh, h⟩ := bind_eq_ok_iff.1 h
  obtain ⟨hin, hkinds, hnames, hmembers⟩ := freshFor_narrows hs hfresh
  have hsettled := Meets.of_settle (d := d) h hin.closed (hin.known hv) ?_ (fun w hw => ?_)
    (hshape members _) (hlimits members hnames) hd
  · exact ⟨hin.trans hsettled.1, hsettled.2⟩
  · rw [hkinds v hv.2]
    exact (hrefines members).mono hin.same
  · obtain ⟨p, hp, rfl⟩ := hk members w hw
    exact hmembers p hp

theorem mem_values_ofList {members : List (String × TypeVar)} {w : TypeVar}
    (h : w ∈ (Row.ofList members).values) : ∃ p ∈ members, p.2 = w := by
  obtain ⟨name, hname⟩ := (Row.mem_values_iff _).1 h
  exact ⟨_, Row.mem_of_get?_ofList hname, rfl⟩

theorem limitMembers_meets {names : NameSet} (hs : g.Closed s) (hv : g.Known s v)
    (h : apply ⟨v, span, .limitMembers names⟩ g = .ok u g') : Meets s (.limitMembers names) v g g' := by
  obtain ⟨x, hx, h⟩ := get_bind_eq_ok_iff.1 h
  have hfresh (h : (freshFor names.names >>= fun members =>
      settle v (.object (Row.ofList members) false none) span) g = .ok u g')
      (hrefines : ∀ members : List (String × TypeVar),
        (Kind.object (Row.ofList members) false none).Refines g.Same (g.kind v)) :
      Meets s (.limitMembers names) v g g' :=
    freshFor_settle_meets hs hv h hrefines (fun _ _ => mem_values_ofList)
      (fun _ _ => ⟨rowRefines_empty, nofun⟩) (fun _ _ => rfl) nofun
  dsimp only at hx
  split at hx
  · rename_i hkind
    subst hx
    exact hfresh h fun _ => by rw [kind, hkind]; trivial
  · rename_i hkind
    subst hx
    exact hfresh h fun _ => by rw [kind, hkind]; rfl
  · rename_i members isOpen order hkind
    subst hx
    refine .of_settle h hs hv ?_ (fun w hw => ?_) ⟨rowRefines_empty, nofun⟩ rfl nofun
    · rw [kind, hkind]
      exact ⟨rowRefines_close g.same_equivalence members isOpen, fun _ h => h⟩
    · exact hs.child hv.1 (by rw [kind, hkind]; exact hw)
  · subst hx
    exact (throw_eq_ok_iff.1 h).elim

theorem hasSignature_meets {args : List TypeVar} {returns : TypeVar} (hs : g.Closed s) (hv : g.Known s v)
    (hargs : ∀ w ∈ args, g.Known s w) (hreturns : g.Known s returns)
    (h : apply ⟨v, span, .hasSignature args returns⟩ g = .ok u g') :
    Meets s (.hasSignature args returns) v g g' := by
  obtain ⟨x, hx, h⟩ := get_bind_eq_ok_iff.1 h
  have hsettle (h : settle v (.closure args returns) span g = .ok u g')
      (hrefines : (Kind.closure args returns).Refines g.Same (g.kind v)) :
      Meets s (.hasSignature args returns) v g g' := by
    refine .of_settle h hs hv hrefines (fun w hw => ?_) (.refl g.same_equivalence _) trivial nofun
    rcases List.mem_append.1 hw with hw | hw
    · exact hargs w hw
    · exact List.mem_singleton.1 hw ▸ hreturns
  dsimp only at hx
  split at hx
  · rename_i hkind
    subst hx
    exact hsettle h (by rw [kind, hkind]; trivial)
  · rename_i hkind
    subst hx
    exact hsettle h (by rw [kind, hkind]; rfl)
  · rename_i existing result hkind
    have hchild {w : TypeVar} (hw : w ∈ existing ++ [result]) : g.Known s w :=
      hs.child hv.1 (by rw [kind, hkind]; exact hw)
    split at hx
    · rename_i hlength
      subst hx
      obtain ⟨⟨⟩, g₁, hpairs, hresult⟩ := bind_eq_ok_iff.1 h
      have hknown : ∀ p ∈ argumentPairs 0 existing args, g.Known s p.left ∧ g.Known s p.right := by
        intro p hp
        obtain ⟨hleft, hright⟩ := Kind.mem_argumentPairs hp
        exact ⟨hchild (List.mem_append_left _ hleft), hargs _ hright⟩
      obtain ⟨hin, hsame⟩ := forM_unifyAt_narrows hs hknown hpairs
      obtain ⟨hin', hsame'⟩ := unifyAt_narrows hin.closed
        (hin.known (hchild (List.mem_append_right _ List.mem_cons_self))) (hin.known hreturns) hresult
      refine .of_unify (hin.trans hin') ?_ trivial nofun
      rw [kind, hkind]
      exact ⟨(argumentPairs_rel_iff 0 hlength).1 fun p hp => hin'.same (hsame p hp), hsame'⟩
    · subst hx
      exact (throw_eq_ok_iff.1 h).elim
  · subst hx
    exact (throw_eq_ok_iff.1 h).elim

theorem hasVariant_meets {name : String} {type : TypeVar} (hs : g.Closed s) (hv : g.Known s v)
    (htype : g.Known s type) (h : apply ⟨v, span, .hasVariant name type⟩ g = .ok u g') :
    Meets s (.hasVariant name type) v g g' := by
  obtain ⟨x, hx, h⟩ := get_bind_eq_ok_iff.1 h
  dsimp only at hx
  split at hx
  · rename_i hkind
    subst hx
    exact .of_settle h hs hv (by rw [kind, hkind]; trivial) (fun w hw => eq_of_mem_values_single hw ▸ htype)
      (.refl g.same_equivalence _) trivial nofun
  · rename_i variants isOpen hkind
    have hvariants : ∀ w ∈ variants.values, g.Known s w := fun w hw =>
      hs.child hv.1 (by rw [kind, hkind]; exact hw)
    split at hx
    · rename_i existing hexisting
      subst hx
      obtain ⟨hin, hsame⟩ :=
        unifyAt_narrows hs (hvariants _ ((Row.mem_values_iff _).2 ⟨_, hexisting⟩)) htype h
      refine .of_unify hin ?_ trivial nofun
      rw [kind, hkind]
      exact rowRefines_single hexisting hsame
    · rename_i hnone
      split at hx
      · rename_i hopen
        subst hx hopen
        refine .of_settle h hs hv ?_ (fun w hw => ?_) ?_ trivial nofun
        · rw [kind, hkind]
          exact rowRefines_insert g.same_equivalence hnone
        · rcases mem_values_insert hw with rfl | hw
          · exact htype
          · exact hvariants w hw
        · refine rowRefines_single (x := type) ?_ (g.same_equivalence.refl _)
          rw [Row.get?_insert, if_pos rfl]
      · subst hx
        exact (throw_eq_ok_iff.1 h).elim
  · subst hx
    exact (throw_eq_ok_iff.1 h).elim

theorem limitVariants_meets {names : NameSet} (hs : g.Closed s) (hv : g.Known s v)
    (h : apply ⟨v, span, .limitVariants names⟩ g = .ok u g') : Meets s (.limitVariants names) v g g' := by
  obtain ⟨x, hx, h⟩ := get_bind_eq_ok_iff.1 h
  dsimp only at hx
  split at hx
  · rename_i hkind
    subst hx
    refine freshFor_settle_meets hs hv h (fun _ => by rw [kind, hkind]; trivial)
      (fun _ _ => mem_values_ofList) (fun _ _ => rowRefines_empty)
      (fun members hnames => ⟨rfl, fun name hname => ?_⟩) nofun
    obtain ⟨payload, hpayload⟩ := (Row.contains_iff _).1 hname
    rw [← Row.mem_names_iff, ← hnames]
    exact List.mem_map_of_mem (Row.mem_of_get?_ofList hpayload)
  · rename_i variants isOpen hkind
    split at hx <;> subst hx
    · exact (throw_eq_ok_iff.1 h).elim
    · rename_i hnone
      refine .of_settle h hs hv ?_ (fun w hw => ?_) rowRefines_empty ⟨rfl, fun name hname => ?_⟩ nofun
      · rw [kind, hkind]
        exact rowRefines_close g.same_equivalence variants isOpen
      · exact hs.child hv.1 (by rw [kind, hkind]; exact hw)
      · have := List.find?_eq_none.1 hnone name ((Row.mem_names_iff _).2 hname)
        simpa using this
  · subst hx
    exact (throw_eq_ok_iff.1 h).elim

/-- What of the variants to add ends up in a union: each of them is one of the union's own or is there with
another payload that the two are to be unified. -/
theorem addVariants_spec {isOpen : Bool} {toAdd : List (String × TypeVar)} {row row' : Row TypeVar}
    {both : List (String × TypeVar × TypeVar)} (h : addVariants isOpen toAdd row = .ok (row', both)) :
    (∀ e ∈ toAdd, ∃ payload, row'.get? e.1 = some payload ∧ (payload = e.2 ∨ (e.1, payload, e.2) ∈ both)) ∧
      (∀ v ∈ row'.values, v ∈ row.values ∨ v ∈ toAdd.map Prod.snd) ∧
      ∀ e ∈ both, e.2.1 ∈ row'.values ∧ e.2.2 ∈ toAdd.map Prod.snd := by
  induction toAdd generalizing row row' both with
  | nil =>
    cases h
    exact ⟨nofun, fun _ h => .inl h, nofun⟩
  | cons e toAdd ih =>
    obtain ⟨name, payload⟩ := e
    rw [addVariants] at h
    split at h
    · rename_i existing hexisting
      split at h
      · rename_i row₁ both₁ hrest
        cases h
        obtain ⟨hall, hvalues, hboth⟩ := ih hrest
        have hkept := (addVariants_get? hrest).1 name existing hexisting
        refine ⟨List.forall_mem_cons.2 ⟨⟨existing, hkept, .inr List.mem_cons_self⟩, fun e he => ?_⟩,
          fun v hv => ?_, List.forall_mem_cons.2 ⟨?_, fun e he => ?_⟩⟩
        · obtain ⟨p, hp, heq | hmem⟩ := hall e he
          · exact ⟨p, hp, .inl heq⟩
          · exact ⟨p, hp, .inr (List.mem_cons_of_mem _ hmem)⟩
        · exact (hvalues v hv).imp_right fun h => List.mem_cons_of_mem _ h
        · exact ⟨(Row.mem_values_iff _).2 ⟨name, hkept⟩, List.mem_cons_self⟩
        · exact (hboth e he).imp_right fun h => List.mem_cons_of_mem _ h
      · cases h
    · split at h
      · obtain ⟨hall, hvalues, hboth⟩ := ih h
        have hadded : (row.insert name payload).get? name = some payload := by
          rw [Row.get?_insert, if_pos rfl]
        have hkept := (addVariants_get? h).1 name payload hadded
        refine ⟨List.forall_mem_cons.2 ⟨⟨payload, hkept, .inl rfl⟩, hall⟩, fun v hv => ?_,
          fun e he => (hboth e he).imp_right fun h => List.mem_cons_of_mem _ h⟩
        rcases hvalues v hv with hv | hv
        · rcases mem_values_insert hv with rfl | hv
          · exact .inr List.mem_cons_self
          · exact .inl hv
        · exact .inr (List.mem_cons_of_mem _ hv)
      · cases h

/-- The target has all variants of the source but one, with payloads that are the same. -/
theorem variantsOfExcept_meets {source : TypeVar} {leftOut : String} (hs : g.Closed s) (hv : g.Known s v)
    (hsource : g.Known s source) (h : apply ⟨v, span, .variantsOfExcept source leftOut⟩ g = .ok u g') :
    Meets s (.variantsOfExcept source leftOut) v g g' ∧ ∃ all allOpen, g.kind source = .union all allOpen ∧
      ∃ row isOpen, g'.kind v = .union row isOpen ∧ ∀ name payload, all.get? name = some payload →
        name ≠ leftOut → ∃ payload', row.get? name = some payload' ∧ g'.Same payload' payload := by
  obtain ⟨x, hx, h⟩ := get_bind_eq_ok_iff.1 h
  dsimp only at hx
  split at hx
  · rename_i all allOpen hall
    have hrest {name : String} {payload : TypeVar}
        (h : (all.filter fun name _ => name != leftOut).get? name = some payload) :
        all.get? name = some payload :=
      ((Row.get?_filter_eq_some_iff _ _).1 h).1
    have hmem {name : String} {payload : TypeVar} (h : all.get? name = some payload) (hname : name ≠ leftOut) :
        (all.filter fun name _ => name != leftOut).get? name = some payload :=
      (Row.get?_filter_eq_some_iff _ _).2 ⟨h, by simpa using hname⟩
    have hknown : ∀ w ∈ (all.filter fun name _ => name != leftOut).values, g.Known s w := by
      intro w hw
      obtain ⟨name, hname⟩ := (Row.mem_values_iff _).1 hw
      exact hs.child hsource.1 (by rw [kind, hall]; exact (Row.mem_values_iff _).2 ⟨name, hrest hname⟩)
    split at hx
    · rename_i hkind
      subst hx
      obtain ⟨hin, hkind'⟩ := settle_narrows h hs hv (by rw [kind, hkind]; trivial) hknown
      refine ⟨⟨hin, ?_, trivial, fun _ h => by cases h⟩, all, allOpen, by rw [kind, hall], _, true, hkind',
        fun name payload h hname => ⟨payload, hmem h hname, g'.same_equivalence.refl _⟩⟩
      rw [hkind']
      exact rowRefines_empty
    · rename_i variants isOpen hkind
      split at hx <;> subst hx
      · exact (throw_eq_ok_iff.1 h).elim
      · rename_i row both hadd
        obtain ⟨⟨⟩, g₁, hsettle, hunified⟩ := bind_eq_ok_iff.1 h
        obtain ⟨hall', hvalues, hboth⟩ := addVariants_spec hadd
        obtain ⟨hkept, hclosed⟩ := addVariants_get? hadd
        have hrow : ∀ w ∈ row.values, g.Known s w := fun w hw => (hvalues w hw).elim
          (fun h => hs.child hv.1 (by rw [kind, hkind]; exact h)) (hknown w)
        have hrefines : (Kind.union row isOpen).Refines g.Same (g.kind v) := by
          rw [kind, hkind]
          refine ⟨fun n w hn => ⟨w, hkept n w hn, g.same_equivalence.refl w⟩, id, fun hopen n hn => ?_⟩
          rwa [hclosed hopen] at hn
        obtain ⟨hin, hkind'⟩ := settle_narrows hsettle hs hv hrefines hrow
        obtain ⟨hin', hsame⟩ := forM_unifyAt_narrows hin.closed (fun e he =>
          ⟨hin.known (hrow _ (hboth e he).1), hin.known (hknown _ (hboth e he).2)⟩) hunified
        have hrefined := hin'.refines v
        rw [hkind'] at hrefined
        obtain ⟨row', isOpen', hkind'', hnames⟩ := Kind.refines_union_iff.1 hrefined
        refine ⟨⟨hin.trans hin', ?_, trivial, fun _ h => by cases h⟩, all, allOpen, by rw [kind, hall], row', isOpen',
          hkind'', fun name payload h hname => ?_⟩
        · rw [hkind'']
          exact rowRefines_empty
        · obtain ⟨p, hp, heq⟩ := hall' (name, payload) ((Row.mem_entries_iff _).2 (hmem h hname))
          obtain ⟨p', hp', hsame'⟩ := hnames.names name p hp
          refine ⟨p', hp', g'.same_equivalence.trans hsame' ?_⟩
          rcases heq with rfl | hboth'
          · exact g'.same_equivalence.refl _
          · exact hsame _ hboth'
    · subst hx
      exact (throw_eq_ok_iff.1 h).elim
  · subst hx
    exact (throw_eq_ok_iff.1 h).elim

theorem unify_meets {other : TypeVar} (hs : g.Closed s) (hv : g.Known s v) (hother : g.Known s other)
    (h : apply ⟨v, span, .unify other⟩ g = .ok u g') : Meets s (.unify other) v g g' := by
  obtain ⟨hin, hsame⟩ := unifyAt_narrows hs hv hother h
  refine ⟨hin, trivial, trivial, fun w hw => ?_⟩
  cases hw
  exact hsame

/-- Applying a constraint narrows types such that it holds. -/
theorem apply_meets (hs : g.Closed s) (hc : ∀ v ∈ c.vars, g.Known s v) (h : c.apply g = .ok u g') :
    NarrowsIn s g g' ∧ c.Holds g' := by
  obtain ⟨v, span, d⟩ := c
  obtain ⟨hv, hd⟩ := List.forall_mem_cons.1 hc
  cases d with
  | isBase => exact isBase_meets hs hv h
  | isNumeric => exact isNumeric_meets hs hv h
  | isIndexed => exact isIndexed_meets hs hv h
  | isReferenced => exact isReferenced_meets hs hv h
  | isSequence => exact isSequence_meets hs hv h
  | hasElement => exact hasElement_meets hs hv (List.forall_mem_singleton.1 hd) h
  | hasMember => exact hasMember_meets hs hv (List.forall_mem_singleton.1 hd) h
  | limitMembers => exact limitMembers_meets hs hv h
  | hasSignature =>
    obtain ⟨hargs, hreturns⟩ := List.forall_mem_append.1 hd
    exact hasSignature_meets hs hv hargs (List.forall_mem_singleton.1 hreturns) h
  | hasVariant => exact hasVariant_meets hs hv (List.forall_mem_singleton.1 hd) h
  | limitVariants => exact limitVariants_meets hs hv h
  | variantsOfExcept => exact (variantsOfExcept_meets hs hv (List.forall_mem_singleton.1 hd) h).1
  | unify => exact unify_meets hs hv (List.forall_mem_singleton.1 hd) h

/-- Constraints applied one after another all hold at the end. -/
theorem forM_apply_holds {cs : List Constraint} (hs : g.Closed s)
    (hcs : ∀ c ∈ cs, ∀ v ∈ c.vars, g.Known s v) (h : cs.forM apply g = .ok u g') :
    NarrowsIn s g g' ∧ ∀ c ∈ cs, c.Holds g' := by
  induction cs generalizing g with
  | nil =>
    obtain ⟨-, rfl⟩ := pure_eq_ok_iff.1 h
    exact ⟨.refl hs, nofun⟩
  | cons c cs ih =>
    obtain ⟨⟨⟩, g₁, hfirst, hrest⟩ := bind_eq_ok_iff.1 h
    obtain ⟨hc, hcs⟩ := List.forall_mem_cons.1 hcs
    obtain ⟨hin, hholds⟩ := apply_meets hs hc hfirst
    obtain ⟨hin', hholds'⟩ := ih hin.closed (fun c hc v hv => hin.known (hcs c hc v hv)) hrest
    exact ⟨hin.trans hin', List.forall_mem_cons.2 ⟨Demand.Met.narrows hholds hin'.toNarrows, hholds'⟩⟩

end Constraint

end Monomorph
