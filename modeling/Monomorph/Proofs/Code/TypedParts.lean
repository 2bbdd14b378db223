import Monomorph.Proofs.Code.Lowered
import Monomorph.Proofs.Code.WellTyped
import Monomorph.Proofs.Draft.Operands

/-! # Lowering keeps code well-typed: the parts

A slot keeps the type that it was allocated with (`KeepTypes`), so instructions stay well-typed while slots are
added (`Instr.WellTyped.mono`). In a typed state of lowering (`Lowering.Typed`) the code so far is well-typed and
every visible name stands for a version in a slot of the type that the name has at the place. Each small step of
lowering leads from typed states to typed states; so do blocks, bodies and the join after a branch. -/

namespace Monomorph

open Outcome TypeGraph

/-! ### Types of slots -/

def KeepTypes (slots slots' : Array Slot) : Prop :=
  ∀ v type, slotType slots v = some type → slotType slots' v = some type

section slots

variable {slots slots' slots'' : Array Slot} {v w : Version} {type : TypeVar}

theorem KeepTypes.refl (slots : Array Slot) : KeepTypes slots slots := fun _ _ => id

theorem KeepTypes.trans (h : KeepTypes slots slots') (h' : KeepTypes slots' slots'') : KeepTypes slots slots'' :=
  fun v type hv => h' v type (h v type hv)

theorem slotType_congr (h : w.slot = v.slot) : slotType slots w = slotType slots v := by
  rw [slotType, slotType, h]

theorem slotType_push (slots : Array Slot) (slot : Slot) (n : Nat) :
    slotType (slots.push slot) ⟨slots.size, n⟩ = some slot.type := by
  simp [slotType]

theorem KeepTypes.push (slots : Array Slot) (slot : Slot) : KeepTypes slots (slots.push slot) := by
  intro v type hv
  obtain ⟨s, hs, rfl⟩ := Option.map_eq_some_iff.1 hv
  have hlt : v.slot < slots.size := (Array.getElem?_eq_some_iff.1 hs).1
  rw [slotType, Array.getElem?_push, if_neg (Nat.ne_of_lt hlt), hs, Option.map_some]

theorem KeepTypes.modify (slots : Array Slot) (i : Nat) {f : Slot → Slot} (hf : ∀ s, (f s).type = s.type) :
    KeepTypes slots (slots.modify i f) := by
  intro v type hv
  obtain ⟨s, hs, rfl⟩ := Option.map_eq_some_iff.1 hv
  rw [slotType, Array.getElem?_modify]
  split
  · rw [hs, Option.map_some, Option.map_some, hf]
  · rw [hs, Option.map_some]

end slots

theorem Instr.WellTyped.mono {t : Typing} {b : BodyTypes} {slots slots' : Array Slot} {i : Instr}
    (h : i.WellTyped t b slots) (hslots : KeepTypes slots slots') : i.WellTyped t b slots' := by
  induction h with
  | op hargs hdest hop =>
    refine .op (hargs.imp hslots) ?_ hop
    cases hdest with
    | none => exact .none
    | some hdest => exact .some (hslots _ _ hdest)
  | closure hdest hsignature hcaptured hargs hbody =>
    exact .closure (hslots _ _ hdest) hsignature (hcaptured.imp fun c d h => ⟨h.1, hslots c.2 d.2 h.2⟩) hargs hbody
  | branchValue hvalue _ _ harms hlast =>
    exact .branchValue (hslots _ _ hvalue) (fun arm harm i hi => harms arm harm i hi hslots)
      fun i hi => hlast i hi hslots
  | branchVariant hvalue hbindings _ _ harms hlast =>
    refine .branchVariant (hslots _ _ hvalue) (fun arm harm v hv => ?_)
      (fun arm harm i hi => harms arm harm i hi hslots) fun i hi => hlast i hi hslots
    obtain ⟨payload, hpayload, hpart⟩ := hbindings arm harm v hv
    exact ⟨payload, hslots _ _ hpayload, hpart⟩
  | unwrap hvalue hpayload hinner hunwrap =>
    exact .unwrap (hslots _ _ hvalue) (hslots _ _ hpayload) hinner hunwrap

/-! ### Typed states -/

namespace Lowering

abbrev KeepsTypes (s s' : Lowering) : Prop := KeepTypes s.slots s'.slots

theorem keepsTypes_kept : Kept KeepsTypes := ⟨fun _ => .refl _, KeepTypes.trans⟩

/-- While the body `b` is lowered, at the place `p`: the code so far is well-typed, and every visible name
stands for a version of the type that the name has there. Names that are not visible are those of enclosing
bodies. -/
structure Typed (ty : Typing) (b : BodyTypes) (p : Place) (s : Lowering) : Prop where
  returns : p.returns = some b.returns
  code : ∀ i ∈ s.code.toList, i.WellTyped ty b s.slots
  visible : ∀ {name v}, s.names.get? name = some v →
    ∃ type, p.locals.lookup name = some type ∧ slotType s.slots v = some type
  captured : ∀ {name type}, s.names.get? name = none → b.captured.lookup name = some type →
    p.locals.lookup name = some type

namespace Typed

variable {ty : Typing} {b : BodyTypes} {p : Place} {s s' : Lowering}

theorem of_slots (h : Typed ty b p s) (hslots : KeepsTypes s s') (hcode : s'.code = s.code)
    (hnames : s'.names = s.names) : Typed ty b p s' where
  returns := h.returns
  code i hi := (h.code i (hcode ▸ hi)).mono hslots
  visible hv := by
    obtain ⟨type, htype, hv⟩ := h.visible (hnames ▸ hv)
    exact ⟨type, htype, hslots _ _ hv⟩
  captured hname := h.captured (hnames ▸ hname)

theorem emit (h : Typed ty b p s) {i : Instr} (hi : i.WellTyped ty b s.slots) :
    Typed ty b p { s with code := s.code.push i } where
  returns := h.returns
  code j hj := by
    rw [Array.toList_push, List.mem_append, List.mem_singleton] at hj
    rcases hj with hj | rfl
    · exact h.code j hj
    · exact hi
  visible := h.visible
  captured := h.captured

theorem bind (h : Typed ty b p s) {name : String} {v : Version} {type : TypeVar}
    (hv : slotType s.slots v = some type) :
    Typed ty b (p.declare [(name, type)]) { s with names := s.names.insert name v } where
  returns := h.returns
  code := h.code
  visible {name' v'} hv' := by
    rw [Row.get?_insert] at hv'
    split at hv'
    · rename_i hname
      cases hv'
      exact ⟨type, by simp [Place.declare, hname], hv⟩
    · rename_i hname
      obtain ⟨type', htype', hv'⟩ := h.visible hv'
      exact ⟨type', by simpa [Place.declare, List.lookup_cons, beq_eq_false_iff_ne.2 (Ne.symm hname)] using htype', hv'⟩
  captured {name' type'} hname' hcaptured := by
    rw [Row.get?_insert] at hname'
    split at hname'
    · cases hname'
    · rename_i hname
      simpa [Place.declare, List.lookup_cons, beq_eq_false_iff_ne.2 (Ne.symm hname)] using h.captured hname' hcaptured

theorem rebind (h : Typed ty b p s) {name : String} {v : Version} {type : TypeVar}
    (hname : p.locals.lookup name = some type) (hv : slotType s.slots v = some type) :
    Typed ty b p { s with names := s.names.insert name v } where
  returns := h.returns
  code := h.code
  visible {name' v'} hv' := by
    rw [Row.get?_insert] at hv'
    split at hv'
    · rename_i heq
      cases hv'
      exact ⟨type, heq ▸ hname, hv⟩
    · exact h.visible hv'
  captured hname' hcaptured := by
    rw [Row.get?_insert] at hname'
    split at hname'
    · cases hname'
    · exact h.captured hname' hcaptured

end Typed
end Lowering

open Lowering (keepsTypes_kept)

/-- The computation lowers a part of the body `b`, from the place `p` to the place `p'`, while `K` is known, and
afterwards `P` holds of its result. -/
abbrev LowersTyped {α : Type} (ty : Typing) (b : BodyTypes) (p p' : Place) (K : Lowering → Prop) (x : LowerM α)
    (P : Lowering → α → Prop) : Prop :=
  Ensures Lowering.KeepsTypes (Lowering.Typed ty b p) K x (Lowering.Typed ty b p') P

namespace LowerM

variable {α : Type} {ty : Typing} {b : BodyTypes} {p p' : Place} {K K' : Lowering → Prop} {x : LowerM α}
  {P : Lowering → α → Prop}

/-! ### Steps -/

theorem quiet_typed {P : α → Prop} (h : ∀ {s a s'}, x s = .ok a s' →
    s'.slots = s.slots ∧ s'.code = s.code ∧ s'.names = s.names ∧ P a) :
    LowersTyped ty b p p K x fun _ a => P a where
  ok {s _ s'} hs _ hrun := by
    obtain ⟨hslots, hcode, hnames, ha⟩ := h hrun
    have hkept : KeepTypes s.slots s'.slots := hslots ▸ .refl s.slots
    exact ⟨hs.of_slots hkept hcode hnames, hkept, fun _ _ => ha⟩

theorem emit_typed {i : Instr} (hi : ∀ t : Lowering, K t → i.WellTyped ty b t.slots) :
    LowersTyped ty b p p K (emit i) fun _ _ => True where
  ok {s _ _} hs hK hrun := by
    obtain rfl := emit_eq_ok_iff.1 hrun
    exact ⟨hs.emit (hi s (hK.here keepsTypes_kept)), .refl _, fun _ _ => trivial⟩

theorem newSlot_typed (type : TypeVar) (isArgument : Bool) :
    LowersTyped ty b p p K (newSlot type isArgument) fun t v => slotType t.slots v = some type where
  ok {s _ _} hs hK hrun := by
    obtain ⟨rfl, rfl⟩ := newSlot_eq_ok_iff.1 hrun
    have hkept := KeepTypes.push s.slots ⟨type, isArgument, false, 1⟩
    exact ⟨hs.of_slots hkept rfl rfl, hkept, fun t ht => ht _ _ (slotType_push _ _ _)⟩

theorem nextVersion_typed (v : Version) :
    LowersTyped ty b p p K (nextVersion v) fun _ w => w.slot = v.slot where
  ok {s _ _} hs hK hrun := by
    obtain ⟨rfl, rfl⟩ := nextVersion_eq_ok_iff.1 hrun
    have hkept := KeepTypes.modify s.slots v.slot (f := fun slot => { slot with versions := slot.versions + 1 })
      fun _ => rfl
    exact ⟨hs.of_slots hkept rfl rfl, hkept, fun _ _ => rfl⟩

theorem markCaptured_typed (v : Version) : LowersTyped ty b p p K (markCaptured v) fun _ _ => True where
  ok {s _ _} hs hK hrun := by
    obtain rfl := modify_eq_ok_iff.1 hrun
    have hkept := KeepTypes.modify s.slots v.slot (f := fun slot => { slot with captured := true }) fun _ => rfl
    exact ⟨hs.of_slots hkept rfl rfl, hkept, fun _ _ => trivial⟩

theorem emitInto_typed {op : Op} {args : List Version} {types : List TypeVar} {type : TypeVar}
    (hargs : ∀ t : Lowering, K t → HaveTypes t.slots args types) (hop : op.Fits ty b types (some type)) :
    LowersTyped ty b p p K (emitInto type op args) fun t v => slotType t.slots v = some type :=
  .bind keepsTypes_kept (newSlot_typed type false) fun _ =>
    .bind keepsTypes_kept (emit_typed fun t ht => .op (hargs t ht.2) (.some ht.1) hop) fun _ =>
      .pure keepsTypes_kept fun _ ht => ht.2.1

/-- What a name stands for: a version of its type if it is visible, else it belongs to an enclosing body. -/
theorem find_typed (name : String) : LowersTyped ty b p p K (LowerState.find name) fun t v? =>
    match v? with
    | some v => ∃ type, p.locals.lookup name = some type ∧ slotType t.slots v = some type
    | none => ∀ type, b.captured.lookup name = some type → p.locals.lookup name = some type where
  ok {s v? _} hs hK hrun := by
    obtain ⟨hname, rfl⟩ := find_eq_ok_iff.1 hrun
    refine ⟨hs, .refl _, fun t ht => ?_⟩
    cases v? with
    | some v =>
      obtain ⟨type, htype, hv⟩ := hs.visible hname
      exact ⟨type, htype, ht _ _ hv⟩
    | none => exact fun type hcaptured => hs.captured hname hcaptured

theorem bind_typed {name : String} {v : Version} {type : TypeVar}
    (hK : ∀ t : Lowering, K t → slotType t.slots v = some type) :
    LowersTyped ty b p (p.declare [(name, type)]) K (LowerM.bind name v) fun _ _ => True where
  ok {s _ _} hs hknown hrun := by
    obtain rfl := bind_eq_ok_iff.1 hrun
    exact ⟨hs.bind (hK s (hknown.here keepsTypes_kept)), .refl _, fun _ _ => trivial⟩

theorem rebind_typed {name : String} {v : Version} {type : TypeVar} (hname : p.locals.lookup name = some type)
    (hK : ∀ t : Lowering, K t → slotType t.slots v = some type) :
    LowersTyped ty b p p K (LowerM.bind name v) fun _ _ => True where
  ok {s _ _} hs hknown hrun := by
    obtain rfl := bind_eq_ok_iff.1 hrun
    exact ⟨hs.rebind hname (hK s (hknown.here keepsTypes_kept)), .refl _, fun _ _ => trivial⟩

/-! ### Blocks and joins -/

/-- A block of its own leaves the names around as they are. -/
theorem inBlock_typed (hx : LowersTyped ty b p p' K x P) :
    LowersTyped ty b p p K (inBlock x) fun t r => P t r.1 ∧ ∀ i ∈ r.2.1, i.WellTyped ty b t.slots where
  ok {s r s'} hs hK hrun := by
    obtain ⟨a, code, names⟩ := r
    obtain ⟨s₁, hx', rfl, rfl, rfl⟩ := inBlock_eq_ok_iff.1 hrun
    have hstart : Lowering.Typed ty b p { s with code := #[] } :=
      ⟨hs.returns, nofun, hs.visible, hs.captured⟩
    obtain ⟨hs₁, hkept, hP⟩ := hx.ok hstart hK hx'
    exact ⟨hs.of_slots hkept rfl rfl, hkept, fun t ht => ⟨hP t ht, fun i hi => (hs₁.code i hi).mono ht⟩⟩

/-- The versions merged for a name are all in its slot. -/
theorem joinName_typed {arms : List (Row Version)} {name : String} {earlier : Version} {type : TypeVar}
    (hname : p.locals.lookup name = some type) (hK : ∀ t : Lowering, K t → slotType t.slots earlier = some type) :
    LowersTyped ty b p p K (joinName arms name earlier) fun _ _ => True := by
  have hslots {v : Version} (hv : v ∈ endVersions name earlier arms) {t : Lowering} (ht : K t) :
      slotType t.slots v = some type := by
    obtain ⟨arm, -, rfl⟩ := mem_endVersions.1 hv
    rw [slotType_congr endVersion_slot, hK t ht]
  unfold joinName
  cases hversions : endVersions name earlier arms with
  | nil => exact .pure keepsTypes_kept fun _ _ => trivial
  | cons only rest =>
    rw [hversions] at hslots
    cases rest with
    | nil =>
      dsimp only
      split
      · exact .pure keepsTypes_kept fun _ _ => trivial
      · exact rebind_typed hname fun t ht => hslots List.mem_cons_self ht
    | cons other rest =>
      refine .bind keepsTypes_kept (nextVersion_typed earlier) fun merged =>
        .bind keepsTypes_kept (emit_typed fun t ht => ?_) fun _ => rebind_typed hname fun t ht => ?_
      · have hargs : HaveTypes t.slots (only :: other :: rest) ((only :: other :: rest).map fun _ => type) :=
          List.forall₂_map_right_iff.2 (List.forall₂_same.2 fun v hv => hslots hv ht.2)
        refine .op hargs (.some ((slotType_congr ht.1).trans (hK t ht.2))) ⟨nofun, fun v hv => ?_⟩
        obtain ⟨_, -, rfl⟩ := List.mem_map.1 hv
        exact ty.graph.same_equivalence.refl _
      · exact (slotType_congr ht.2.1).trans (hK t ht.2.2)

theorem joinNames_typed {arms : List (Row Version)} (entries : List (String × Version))
    (hK : ∀ e ∈ entries, ∃ type, p.locals.lookup e.1 = some type ∧
      ∀ t : Lowering, K t → slotType t.slots e.2 = some type) :
    LowersTyped ty b p p K (joinNames arms entries) fun _ _ => True := by
  induction entries generalizing K with
  | nil => exact .pure keepsTypes_kept fun _ _ => trivial
  | cons e entries ih =>
    obtain ⟨⟨type, hname, hfirst⟩, hrest⟩ := List.forall_mem_cons.1 hK
    refine .bind keepsTypes_kept (joinName_typed hname hfirst) fun _ => ih fun e he => ?_
    obtain ⟨type, hname, he⟩ := hrest e he
    exact ⟨type, hname, fun t ht => he t ht.2⟩

/-- Joining the arms of a branch keeps what is visible. -/
theorem join_typed (arms : List (Row Version)) : LowersTyped ty b p p K (join arms) fun _ _ => True where
  ok {s _ _} hs _ hrun := by
    obtain ⟨_, rfl, hrun⟩ := get_bind_eq_ok_iff.1 hrun
    refine (joinNames_typed (K := Lowering.KeepsTypes s) s.names.entries fun e he => ?_).ok hs (fun t ht => ht) hrun
    obtain ⟨type, hname, hv⟩ := hs.visible ((Row.mem_entries_iff _).1 he)
    exact ⟨type, hname, fun t ht => ht _ _ hv⟩

/-! ### Bodies -/

/-- Every parameter is declared and has an argument slot. -/
theorem bindParams_typed (params : List (String × TypeVar)) :
    LowersTyped ty b p (p.declare params.reverse) K (bindParams params) fun _ _ => True := by
  induction params generalizing K p with
  | nil => exact .pure keepsTypes_kept fun _ _ => trivial
  | cons param params ih =>
    obtain ⟨name, type⟩ := param
    rw [List.reverse_cons, ← Place.declare_declare]
    exact .bind keepsTypes_kept (newSlot_typed type true) fun _ =>
      .bind keepsTypes_kept (bind_typed fun t ht => ht.1) fun _ => ih

theorem bindParams_slots {params : List (String × TypeVar)} {s s' : Lowering} {u : Unit}
    (h : bindParams params s = .ok u s') :
    s'.slots.toList = s.slots.toList ++ params.map fun a => ⟨a.2, true, false, 1⟩ := by
  induction params generalizing s with
  | nil =>
    obtain ⟨-, rfl⟩ := pure_eq_ok_iff.1 h
    simp
  | cons param params ih =>
    obtain ⟨v, s₁, hnew, h⟩ := Outcome.bind_eq_ok_iff.1 h
    obtain ⟨⟨⟩, s₂, hbind, h⟩ := Outcome.bind_eq_ok_iff.1 h
    obtain ⟨rfl, rfl⟩ := newSlot_eq_ok_iff.1 hnew
    obtain rfl := bind_eq_ok_iff.1 hbind
    rw [ih h]
    simp

/-- The code of a body is well-typed, and its first slots are those of its arguments. -/
theorem inBody_wellTyped {params : List String} {args : List TypeVar} {returns : TypeVar}
    {captured outer : List (String × TypeVar)} {x : LowerM Unit} {P : Lowering → Unit → Prop} {slots : Array Slot}
    {code : List Instr} {s s' : Lowering} (hlength : args.length = params.length)
    (hcaptured : ∀ name type, captured.lookup name = some type → outer.lookup name = some type)
    (hx : LowersTyped ty ⟨returns, captured⟩ ⟨some returns, (params.zip args).reverse ++ outer⟩ p' (fun _ => True)
      x P) (h : inBody params args x s = .ok (slots, code) s') :
    ArgumentSlots slots args ∧ ∀ i ∈ code, i.WellTyped ty ⟨returns, captured⟩ slots := by
  obtain ⟨s₁, s₂, hparams, hbody, rfl, rfl, -⟩ := inBody_eq_ok_iff.1 h
  have hstart : Lowering.Typed ty ⟨returns, captured⟩ ⟨some returns, outer⟩ (bodyStart s) :=
    ⟨rfl, nofun, nofun, fun _ h => hcaptured _ _ h⟩
  obtain ⟨hs₁, -, -⟩ := (bindParams_typed (K := fun _ => True) (params.zip args)).ok hstart
    (fun _ _ => trivial) hparams
  obtain ⟨hs₂, hkept, -⟩ := hx.ok hs₁ (fun _ _ => trivial) hbody
  refine ⟨fun {i type} htype => hkept ⟨i, 0⟩ type ?_, hs₂.code⟩
  have hslots : s₁.slots.toList = (params.zip args).map fun a => ⟨a.2, true, false, 1⟩ := bindParams_slots hparams
  have hi : i < params.length := hlength ▸ (List.getElem?_eq_some_iff.1 htype).1
  have hparam : (params.zip args)[i]? = some (params[i], type) :=
    List.getElem?_zip_eq_some.2 ⟨List.getElem?_eq_getElem hi, htype⟩
  rw [slotType, ← Array.getElem?_toList, hslots, List.getElem?_map, hparam]
  rfl

theorem inBody_typed {params : List String} {args : List TypeVar} {returns : TypeVar}
    {captured outer : List (String × TypeVar)} {x : LowerM Unit} {P : Lowering → Unit → Prop}
    (hlength : args.length = params.length)
    (hcaptured : ∀ name type, captured.lookup name = some type → outer.lookup name = some type)
    (hx : LowersTyped ty ⟨returns, captured⟩ ⟨some returns, (params.zip args).reverse ++ outer⟩ p' (fun _ => True)
      x P) :
    LowersTyped ty b p p K (inBody params args x) fun _ r =>
      ArgumentSlots r.1 args ∧ ∀ i ∈ r.2, i.WellTyped ty ⟨returns, captured⟩ r.1 :=
  quiet_typed (P := fun r : Array Slot × List Instr => ArgumentSlots r.1 args ∧
      ∀ i ∈ r.2, i.WellTyped ty ⟨returns, captured⟩ r.1) fun h => by
    have htyped := inBody_wellTyped hlength hcaptured hx h
    obtain ⟨_, _, -, -, -, -, rfl⟩ := inBody_eq_ok_iff.1 h
    exact ⟨rfl, rfl, rfl, htyped⟩

/-! ### Parts of expressions -/

/-- What lowering an expression leaves: a version of its type, if it has a value. -/
def Leaves (e : Expr TypeVar) (t : Lowering) : Option Version → Prop
  | some v => slotType t.slots v = some e.note
  | none => e.hasValue = false

theorem asValue_typed {e : Expr TypeVar} {x : LowerM (Option Version)} (he : e.IsOperand ty.graph)
    (hx : LowersTyped ty b p (p.declare e.declared) K x (Leaves e)) :
    LowersTyped ty b p p K (asValue e.note x) fun t v => slotType t.slots v = some e.note := by
  rw [he.1, Place.declare_nil] at hx
  refine .bind keepsTypes_kept hx fun r => ?_
  cases r with
  | some v => exact .pure keepsTypes_kept fun _ ht => ht.1
  | none =>
    refine .of_known keepsTypes_kept (fun _ ht => ht.1) fun hvalue => ?_
    have hunit : (Op.load .unit).Fits ty b [] (some e.note) := (he.2 hvalue).satisfied
    exact emitInto_typed (fun _ _ => .nil) hunit

/-- A value is copied if a visible name lives in its slot. -/
theorem own_typed {type : TypeVar} {v : Version} (hK : ∀ t : Lowering, K t → slotType t.slots v = some type) :
    LowersTyped ty b p p K (own type v) fun t w => slotType t.slots w = some type where
  ok {s _ _} hs hknown hrun := by
    obtain ⟨y, hy, hrun⟩ := get_bind_eq_ok_iff.1 hrun
    dsimp only at hy
    split at hy <;> subst hy
    · have hcopy : Op.copy.Fits ty b [type] (some type) := ty.graph.same_equivalence.refl type
      exact (emitInto_typed (fun t ht => .cons (hK t ht) .nil) hcopy).ok hs hknown hrun
    · obtain ⟨rfl, rfl⟩ := pure_eq_ok_iff.1 hrun
      exact ⟨hs, .refl _, fun t ht => hK t (hknown t ht)⟩

theorem captureAll_typed (captures : List (String × TypeVar))
    (h : ∀ c ∈ captures, p.locals.lookup c.1 = some c.2) :
    LowersTyped ty b p p K (captureAll captures) fun t r =>
      List.Forall₂ (fun c d => c.1 = d.1 ∧ slotType t.slots c.2 = some d.2) r captures := by
  induction captures generalizing K with
  | nil => exact .pure keepsTypes_kept fun _ _ => .nil
  | cons c captures ih =>
    obtain ⟨name, type⟩ := c
    obtain ⟨hname, hrest⟩ := List.forall_mem_cons.1 h
    have hadd {K : Lowering → Prop} {v : Version} (hK : ∀ t : Lowering, K t → slotType t.slots v = some type) :
        LowersTyped ty b p p K (do return (name, v) :: (← captureAll captures)) fun t r =>
          List.Forall₂ (fun c d => c.1 = d.1 ∧ slotType t.slots c.2 = some d.2) r ((name, type) :: captures) :=
      .bind keepsTypes_kept (ih hrest) fun _ => .pure keepsTypes_kept fun t ht => .cons ⟨rfl, hK t ht.2⟩ ht.1
    refine .bind keepsTypes_kept (find_typed name) fun v? => ?_
    cases v? with
    | some v =>
      refine .bind keepsTypes_kept (markCaptured_typed v) fun _ => hadd fun t ht => ?_
      obtain ⟨type', hname', hv⟩ := ht.2.1
      cases hname.symm.trans hname'
      exact hv
    | none =>
      refine .of_known keepsTypes_kept (fun _ ht => ht.1) fun hcaptured => ?_
      have hread : (Op.readCapture name).Fits ty b [] (some type) := fun type' htype' => by
        cases hname.symm.trans (hcaptured type' htype')
        exact ty.graph.same_equivalence.refl type
      exact .bind keepsTypes_kept (emitInto_typed (fun _ _ => .nil) hread) fun v => hadd fun t ht => ht.1

/-! ### Constants and module variables -/

theorem addConstant_typed (c : Constant) : LowersTyped ty b p p K (addConstant c) fun _ _ => True :=
  quiet_typed (P := fun _ => True) fun h => by
    obtain ⟨-, rfl⟩ := addConstant_eq_ok_iff.1 h
    exact ⟨rfl, rfl, rfl, trivial⟩

theorem evaluateConstant_typed (context : LowerContext) (e : Expr TypeVar) :
    LowersTyped ty b p p K (evaluateConstant context e) fun _ _ => True := by
  unfold evaluateConstant
  split
  · exact addConstant_typed _
  · exact .throw

theorem evaluateArms_typed (context : LowerContext) (arms : List (Expr TypeVar × List (Expr TypeVar))) :
    LowersTyped ty b p p K (evaluateArms context arms) fun _ _ => True := by
  induction arms generalizing K with
  | nil => exact .pure keepsTypes_kept fun _ _ => trivial
  | cons arm arms ih =>
    exact .bind keepsTypes_kept (evaluateConstant_typed context arm.1) fun _ =>
      .bind keepsTypes_kept ih fun _ => .pure keepsTypes_kept fun _ _ => trivial

theorem resolved_typed (target : Target) (span : Span) :
    LowersTyped ty b p p K (resolved target span) fun _ r => target = .resolved r.1 r.2 := by
  cases target with
  | pending => exact .throw
  | resolved path variant => exact .pure keepsTypes_kept fun _ _ => rfl

theorem memberType_typed (context : LowerContext) (object : TypeVar) (name : String) (span : Span) :
    LowersTyped ty b p p K (memberType context object name span) fun _ type => ∃ members isOpen order,
      context.graph.kind object = .object members isOpen order ∧ members.get? name = some type := by
  unfold memberType
  split
  · rename_i members isOpen order hkind
    split
    · rename_i hget
      exact .pure keepsTypes_kept fun _ _ => ⟨members, isOpen, order, hkind, hget⟩
    · exact .throw
  · exact .throw

theorem loadGlobal_typed (context : LowerContext) (type : TypeVar) (path : Path) (variant : Nat) (span : Span) :
    LowersTyped ty b p p K (loadGlobal context type path variant span) fun t v =>
      slotType t.slots v = some type := by
  have hload {K : Lowering → Prop} (id : Nat) : LowersTyped ty b p p K (emitInto type (.loadConstant id) [])
      fun t v => slotType t.slots v = some type := emitInto_typed (fun _ _ => .nil) trivial
  have hhoist {K : Lowering → Prop} (id : Nat) : LowersTyped ty b p p K
      (modify fun s => { s with hoisted := ((path, variant), id) :: s.hoisted }) fun _ _ => True :=
    quiet_typed (P := fun _ => True) fun h => by
      obtain rfl := modify_eq_ok_iff.1 h
      exact ⟨rfl, rfl, rfl, trivial⟩
  unfold loadGlobal
  split
  · exact .throw
  · split
    · refine ⟨fun hs hknown hrun => ?_⟩
      obtain ⟨y, hy, hrun⟩ := get_bind_eq_ok_iff.1 hrun
      split at hy <;> subst hy
      · exact (hload _).ok hs hknown hrun
      · exact (Ensures.bind keepsTypes_kept (evaluateConstant_typed context _) fun id =>
          .bind keepsTypes_kept (hhoist id) fun _ => hload id).ok hs hknown hrun
    · exact emitInto_typed (fun _ _ => .nil) trivial

/-! ### Branches inside expressions -/

/-- Both operands of `and` and `or` are of the type of the result. -/
theorem shortCircuit_typed {type l r : TypeVar} {stop : Bool} {left right : LowerM Version}
    (hl : ty.graph.Same l type) (hr : ty.graph.Same r type)
    (hleft : LowersTyped ty b p p K left fun t v => slotType t.slots v = some l)
    (hright : ∀ {K}, LowersTyped ty b p p K right fun t v => slotType t.slots v = some r) :
    LowersTyped ty b p p K (shortCircuit type stop left right) fun t v => slotType t.slots v = some type := by
  refine .bind keepsTypes_kept hleft fun vl => .bind keepsTypes_kept (newSlot_typed type false) fun result =>
    .bind keepsTypes_kept (addConstant_typed _) fun stopId =>
      .bind keepsTypes_kept (inBlock_typed hright) fun block =>
        .bind keepsTypes_kept (nextVersion_typed result) fun fromLeft =>
          .bind keepsTypes_kept (emit_typed fun t ht => ?_) fun _ =>
            .bind keepsTypes_kept (nextVersion_typed result) fun merged =>
              .bind keepsTypes_kept (emit_typed fun t ht => ?_) fun _ => .pure keepsTypes_kept fun t ht => ?_
  · obtain ⟨hfromLeft, ⟨hblock, hcode⟩, -, hresult, hleft, -⟩ := ht
    have hcopy {v w : Version} {type' : TypeVar} (hv : slotType t.slots v = some type')
        (hsame : ty.graph.Same type' type) (hw : slotType t.slots w = some type) :
        (Instr.op .copy [v] (some w)).WellTyped ty b t.slots := .op (.cons hv .nil) (.some hw) hsame
    refine .branchValue hleft (List.forall_mem_singleton.2 (List.forall_mem_singleton.2 ?_))
      (List.forall_mem_append.2 ⟨hcode, List.forall_mem_singleton.2 (hcopy hblock hr hresult)⟩)
    exact hcopy hleft hl ((slotType_congr hfromLeft).trans hresult)
  · obtain ⟨hmerged, -, hfromLeft, -, -, hresult, -⟩ := ht
    refine .op (.cons ((slotType_congr hfromLeft).trans hresult) (.cons hresult .nil))
      (.some ((slotType_congr hmerged).trans hresult)) ⟨nofun, fun v hv => ?_⟩
    obtain rfl : v = type := by simpa using hv
    exact ty.graph.same_equivalence.refl v
  · obtain ⟨-, hmerged, -, -, -, -, hresult, -⟩ := ht
    exact (slotType_congr hmerged).trans hresult

/-- The payload of an unwrapped variant; any other variant is given back as it is. -/
theorem unwrapVariant_typed {type inner : TypeVar} {v : Version} {name : String}
    (hK : ∀ t : Lowering, K t → slotType t.slots v = some type)
    (hinner : (Demand.hasVariant name inner).Satisfied ty.graph type)
    (hunwrap : ⟨b.returns, type, name⟩ ∈ ty.unwraps) :
    LowersTyped ty b p p K (unwrapVariant inner v name) fun t w => slotType t.slots w = some inner :=
  .bind keepsTypes_kept (newSlot_typed inner false) fun _ =>
    .bind keepsTypes_kept (emit_typed fun t ht => .unwrap (hK t ht.2) ht.1 hinner hunwrap) fun _ =>
      .pure keepsTypes_kept fun _ ht => ht.2.1

end LowerM

end Monomorph
