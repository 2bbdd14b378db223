import Mathlib.Data.List.Nodup
import Mathlib.Data.List.Perm.Subperm
import Mathlib.Data.Set.Insert
import Monomorph.Proofs.Code.Lowered

/-! # Static single assignment

What it means that a lowered body is in single-assignment form (`SingleAssignment`): whatever the arms of its
branches are, no version is defined twice, every version mentioned is one of the body's own slots, and a merge
takes several versions of one slot into another. Closures have slots of their own, so the bodies of a procedure
are looked at one by one (`BodyIn`).

The form is kept by lowering because an instruction only defines versions that did not exist before.
`Lowering.Adds` says which versions came into being between two states, in whatever order they are defined
later; `Assigned` that the code lowered in between defines some of these, each once, and mentions only
versions that exist. `Assigns` is the same of a computation, with a rule for sequences. -/

namespace Monomorph

/-! ### Bodies -/

/-- The instruction is in the code, in whatever arm of whatever branch. -/
inductive Within (i : Instr) : List Instr → Prop
  | here {code : List Instr} (h : i ∈ code) : Within i code
  | arm {code : List Instr} {j : Instr} {arm : Option Version × List Instr} (hj : j ∈ code)
    (harm : arm ∈ j.arms) (h : Within i arm.2) : Within i code

/-- The body of a closure at any depth, or the body itself. -/
inductive BodyIn (slots : Array Slot) (code : List Instr) : Array Slot → List Instr → Prop
  | self : BodyIn slots code slots code
  | closure {outer inner : Array Slot} {around body : List Instr} {args : List TypeVar} {returns : TypeVar}
    {captures : List (String × Version)} {dest : Version} (h : BodyIn slots code outer around)
    (hi : Within (.closure args returns captures inner body dest) around) : BodyIn slots code inner body

/-- The versions that an instruction mentions by itself: operands, destination and payloads of its arms. -/
def Instr.mentions : Instr → List Version
  | .op _ args dest => args ++ dest.toList
  | .closure _ _ captures _ _ dest => captures.map (·.2) ++ [dest]
  | .branchValue value _ _ => [value]
  | .branchVariant value arms _ => value :: arms.filterMap CodeArm.binding

/-- The versions that an instruction needs when it is executed. A merge takes the one that was defined, and what a
closure captures counts when the closure reads it. -/
def Instr.reads : Instr → List Version
  | .op .phi _ _ | .closure .. => []
  | .op _ args _ => args
  | .branchValue value _ _ | .branchVariant value _ _ => [value]

/-- The versions in which arguments come in. -/
def argumentVersions (slots : Array Slot) : List Version :=
  ((List.range slots.size).filter fun i => slots[i]?.any Slot.isArgument).map fun i => ⟨i, 0⟩

/-- A merge takes two or more different versions of one slot into another version of it. -/
def Merges (args : List Version) (dest : Option Version) : Prop :=
  ∃ w, dest = some w ∧ 2 ≤ args.length ∧ args.Nodup ∧ ∀ v ∈ args, v.slot = w.slot

/-- A body is in single-assignment form. -/
structure SingleAssignment (slots : Array Slot) (code : List Instr) : Prop where
  /-- Nothing is defined twice: by an argument, an instruction or the payload of an arm. -/
  once : (argumentVersions slots ++ definedIn code).Nodup
  /-- Everything that is mentioned is a version of one of the body's slots. -/
  inRange : ∀ {i}, Within i code → ∀ v ∈ i.mentions,
    ∃ slot, slots[v.slot]? = some slot ∧ v.version < slot.versions
  merges : ∀ {args dest}, Within (.op .phi args dest) code → Merges args dest

/-- The body is what these expressions are lowered to, whatever the context and the state are. -/
def BodyOf (es : List (Expr TypeVar)) (slots : Array Slot) (code : List Instr) : Prop :=
  ∃ context params args, ∃ s s' : Lowering,
    LowerM.inBody params args (LowerM.exprs context es) s = .ok (slots, code) s'

/-- A body and all closures in it are lowered from expressions, and are in single-assignment form. -/
def AllSingle (slots : Array Slot) (code : List Instr) : Prop :=
  ∀ inner body, BodyIn slots code inner body → SingleAssignment inner body ∧ ∃ es, BodyOf es inner body

section within

variable {i j : Instr} {code rest : List Instr}

theorem within_append : Within i (code ++ rest) ↔ Within i code ∨ Within i rest := by
  constructor
  · rintro (h | ⟨hj, harm, h⟩)
    · exact (List.mem_append.1 h).imp .here .here
    · exact (List.mem_append.1 hj).imp (.arm · harm h) (.arm · harm h)
  · rintro ((h | ⟨hj, harm, h⟩) | (h | ⟨hj, harm, h⟩))
    · exact .here (List.mem_append_left _ h)
    · exact .arm (List.mem_append_left _ hj) harm h
    · exact .here (List.mem_append_right _ h)
    · exact .arm (List.mem_append_right _ hj) harm h

theorem not_within_nil : ¬Within i [] := by
  rintro (h | ⟨hj, -, -⟩)
  · cases h
  · cases hj

theorem within_singleton : Within i [j] ↔ i = j ∨ ∃ arm ∈ j.arms, Within i arm.2 := by
  constructor
  · rintro (h | ⟨hj, harm, h⟩)
    · exact .inl (List.mem_singleton.1 h)
    · obtain rfl := List.mem_singleton.1 hj
      exact .inr ⟨_, harm, h⟩
  · rintro (rfl | ⟨arm, harm, h⟩)
    · exact .here (List.mem_singleton.2 rfl)
    · exact .arm (List.mem_singleton.2 rfl) harm h

theorem definedIn_append (code rest : List Instr) : definedIn (code ++ rest) = definedIn code ++ definedIn rest := by
  induction code with
  | nil => rfl
  | cons i code ih => rw [List.cons_append, definedIn, definedIn, ih, List.append_assoc]

theorem definedIn_singleton (i : Instr) : definedIn [i] = i.defines := List.append_nil _

/-- A branching instruction defines what its arms define, in their order. -/
theorem defines_eq_flatMap (hi : i.arms ≠ []) :
    i.defines = i.arms.flatMap fun arm => arm.1.toList ++ definedIn arm.2 := by
  cases i with
  | op op args dest => exact absurd rfl hi
  | closure args returns captures slots body dest => exact absurd rfl hi
  | branchValue v arms otherwise =>
    have harms : definedInValueArms arms =
        (arms.map fun arm => ((none : Option Version), arm.2)).flatMap fun arm =>
          arm.1.toList ++ definedIn arm.2 := by
      clear hi
      induction arms with
      | nil => rfl
      | cons arm arms ih => exact congrArg (_ ++ ·) ih
    rw [Instr.defines, harms, Instr.arms, List.flatMap_append, List.flatMap_singleton]
    rfl
  | branchVariant v arms otherwise =>
    have harms : definedInVariantArms arms =
        (arms.map fun arm => (arm.binding, arm.body)).flatMap fun arm => arm.1.toList ++ definedIn arm.2 := by
      clear hi
      induction arms with
      | nil => rfl
      | cons arm arms ih => exact congrArg (_ ++ ·) ih
    rw [Instr.defines, harms, Instr.arms, List.flatMap_append, List.flatMap_singleton]
    rfl

end within

section bodies

variable {slots inner : Array Slot} {code body : List Instr}

theorem BodyIn.trans {slots' : Array Slot} {code' : List Instr} (h : BodyIn slots code inner body)
    (h' : BodyIn inner body slots' code') : BodyIn slots code slots' code' := by
  induction h' with
  | self => exact h
  | closure _ hi ih => exact .closure ih hi

/-- What holds of a body and, at any depth, in each of its closures. -/
theorem BodyIn.forall_of_closures {P : Array Slot → List Instr → Prop} (h : P slots code)
    (hclosures : ∀ {args returns captures inner body dest},
      Within (.closure args returns captures inner body dest) code →
      ∀ slots' code', BodyIn inner body slots' code' → P slots' code') :
    ∀ inner body, BodyIn slots code inner body → P inner body := by
  intro inner body hbody
  suffices P inner body ∧ ∀ {args returns captures inner' body' dest},
      Within (.closure args returns captures inner' body' dest) body →
      ∀ slots' code', BodyIn inner' body' slots' code' → P slots' code' from this.1
  induction hbody with
  | self => exact ⟨h, hclosures⟩
  | closure _ hi ih => exact ⟨ih.2 hi _ _ .self, fun hi' _ _ h' => ih.2 hi _ _ (.trans (.closure .self hi') h')⟩

theorem mem_argumentVersions {v : Version} :
    v ∈ argumentVersions slots ↔ v.version = 0 ∧ slots[v.slot]?.any Slot.isArgument = true := by
  obtain ⟨i, n⟩ := v
  simp only [argumentVersions, List.mem_map, List.mem_filter, List.mem_range, Version.mk.injEq]
  constructor
  · rintro ⟨_, ⟨-, hargument⟩, rfl, rfl⟩
    exact ⟨rfl, hargument⟩
  · rintro ⟨rfl, hargument⟩
    obtain ⟨slot, hslot, -⟩ := (Option.any_eq_true ..).1 hargument
    exact ⟨i, ⟨(Array.getElem?_eq_some_iff.1 hslot).1, hargument⟩, rfl, rfl⟩

theorem nodup_argumentVersions (slots : Array Slot) : (argumentVersions slots).Nodup :=
  List.Nodup.map (fun _ _ heq => congrArg Version.slot heq) (List.nodup_range.filter _)

end bodies

/-! ### Versions that come into being -/

namespace Lowering

variable {s s₁ s' : Lowering} {vs ws : List Version}

/-- Visible names stand for versions that exist. -/
structure Bound (s : Lowering) : Prop where
  owned : ∀ {n v}, s.names.get? n = some v → s.Owns v

theorem any_isArgument_modify {slots slots' : Array Slot} {i : Nat} {f : Slot → Slot}
    (h : slots' = slots.modify i f) (hf : ∀ slot, (f slot).isArgument = slot.isArgument) (j : Nat) :
    slots'[j]?.any Slot.isArgument = slots[j]?.any Slot.isArgument := by
  rw [h, Array.getElem?_modify]
  split
  · cases slots[j]? with
    | none => rfl
    | some slot => exact hf slot
  · rfl

/-- From the state `s` to the state `s'`, the versions `vs` came into being, and no slot of an argument. -/
structure Adds (s : Lowering) (vs : List Version) (s' : Lowering) : Prop where
  owns : ∀ {v}, s.Owns v → s'.Owns v
  nodup : vs.Nodup
  fresh : ∀ v ∈ vs, ¬s.Owns v
  made : ∀ v ∈ vs, s'.Owns v
  arguments : ∀ i : Nat, s'.slots[i]?.any Slot.isArgument = s.slots[i]?.any Slot.isArgument

namespace Adds

theorem of_slots_eq (h : s'.slots = s.slots) : s.Adds [] s' :=
  ⟨(owns_congr h).2, List.nodup_nil, nofun, nofun, fun _ => by rw [h]⟩

theorem congr {t t' : Lowering} (h : s.Adds vs s') (hs : t.slots = s.slots) (hs' : t'.slots = s'.slots) :
    t.Adds vs t' where
  owns hv := (owns_congr hs').2 (h.owns ((owns_congr hs).1 hv))
  nodup := h.nodup
  fresh v hv howned := h.fresh v hv ((owns_congr hs).1 howned)
  made v hv := (owns_congr hs').2 (h.made v hv)
  arguments i := by
    rw [hs, hs']
    exact h.arguments i

theorem trans (h : s.Adds vs s₁) (h' : s₁.Adds ws s') : s.Adds (vs ++ ws) s' where
  owns hv := h'.owns (h.owns hv)
  nodup := List.nodup_append.2 ⟨h.nodup, h'.nodup, fun v hv w hw heq =>
    h'.fresh w hw (heq ▸ h.made v hv)⟩
  fresh v hv := (List.mem_append.1 hv).elim (h.fresh v) fun hv howned => h'.fresh v hv (h.owns howned)
  made v hv := (List.mem_append.1 hv).elim (fun hv => h'.owns (h.made v hv)) (h'.made v)
  arguments i := (h'.arguments i).trans (h.arguments i)

theorem subperm (h : s.Adds vs s') (hws : ws.Subperm vs) : s.Adds ws s' where
  owns := h.owns
  nodup := by
    obtain ⟨us, hperm, hsub⟩ := hws
    exact hperm.nodup_iff.1 (h.nodup.sublist hsub)
  fresh v hv := h.fresh v (hws.subset hv)
  made v hv := h.made v (hws.subset hv)
  arguments := h.arguments

theorem push {slot : Slot} (hversions : 0 < slot.versions) (hargument : slot.isArgument = false)
    (h : s'.slots = s.slots.push slot) : s.Adds [⟨s.slots.size, 0⟩] s' where
  owns hv := (owns_push h).2 (.inl hv)
  nodup := List.nodup_singleton _
  fresh v hv howned := by
    obtain rfl := List.mem_singleton.1 hv
    exact Nat.lt_irrefl _ howned.lt_size
  made v hv := by
    obtain rfl := List.mem_singleton.1 hv
    exact (owns_push h).2 (.inr ⟨rfl, hversions⟩)
  arguments i := by
    rw [h, Array.getElem?_push]
    split
    · rename_i hi
      rw [hi, Array.getElem?_eq_none (Nat.le_refl _)]
      exact hargument
    · rfl

theorem next {i : Nat} {slot : Slot} (hslot : s.slots[i]? = some slot)
    (h : s'.slots = s.slots.modify i fun slot => { slot with versions := slot.versions + 1 }) :
    s.Adds [⟨i, slot.versions⟩] s' where
  owns hv := (owns_next hslot h).2 (.inl hv)
  nodup := List.nodup_singleton _
  fresh v hv := by
    obtain rfl := List.mem_singleton.1 hv
    rintro ⟨other, hother, hlt⟩
    cases hslot.symm.trans hother
    exact Nat.lt_irrefl _ hlt
  made v hv := (owns_next hslot h).2 (.inr (List.mem_singleton.1 hv))
  arguments := any_isArgument_modify h fun _ => rfl

theorem mark {i : Nat} (h : s'.slots = s.slots.modify i fun slot => { slot with captured := true }) :
    s.Adds [] s' where
  owns := (owns_mark h).2
  nodup := List.nodup_nil
  fresh := nofun
  made := nofun
  arguments := any_isArgument_modify h fun _ => rfl

end Adds

theorem Bound.of_names_eq (hs : s.Bound) (h : s.Adds vs s') (hnames : s'.names = s.names) : s'.Bound :=
  ⟨fun hv => h.owns (hs.owned (hnames ▸ hv))⟩

theorem Bound.insert (hs : s.Bound) (h : s.Adds vs s') {name : String} {v : Version}
    (hnames : s'.names = s.names.insert name v) (hv : s'.Owns v) : s'.Bound where
  owned hw := by
    rw [hnames, Row.get?_insert] at hw
    split at hw
    · exact Option.some.inj hw ▸ hv
    · exact h.owns (hs.owned hw)

end Lowering

/-! ### Code lowered between two states -/

/-- An instruction, by itself, is one of a body in single-assignment form. -/
structure Instr.Scoped (s : Lowering) (i : Instr) : Prop where
  mentions : ∀ v ∈ i.mentions, s.Owns v
  merges : ∀ {args dest}, i = .op .phi args dest → Merges args dest
  closure : ∀ {args returns captures inner body dest},
    i = .closure args returns captures inner body dest → AllSingle inner body

theorem Instr.Scoped.mono {s s' : Lowering} {i : Instr} (h : i.Scoped s)
    (howns : ∀ {v}, s.Owns v → s'.Owns v) : i.Scoped s' :=
  ⟨fun v hv => howns (h.mentions v hv), h.merges, h.closure⟩

theorem Instr.scoped_op {s : Lowering} {op : Op} {args : List Version} {dest : Option Version}
    (hop : op = .phi → Merges args dest) (hargs : ∀ v ∈ args, s.Owns v) (hdest : ∀ v ∈ dest, s.Owns v) :
    (Instr.op op args dest).Scoped s where
  mentions v hv := (List.mem_append.1 hv).elim (hargs v) fun hv => hdest v (Option.mem_toList.1 hv)
  merges heq := by
    cases heq
    exact hop rfl
  closure heq := nomatch heq

/-- A branch mentions what it looks at and what its arms bind. -/
theorem mem_mentions_of_arms {i : Instr} {w : Version} (harms : i.arms ≠ []) (hw : w ∈ i.mentions) :
    w ∈ i.reads ∨ ∃ arm ∈ i.arms, w ∈ arm.1 := by
  cases i with
  | op op args dest => exact absurd rfl harms
  | closure args returns captures slots body dest => exact absurd rfl harms
  | branchValue v arms otherwise => exact .inl hw
  | branchVariant v arms otherwise =>
    rcases List.mem_cons.1 hw with rfl | hw
    · exact .inl (List.mem_singleton.2 rfl)
    · obtain ⟨arm, harm, hbinding⟩ := List.mem_filterMap.1 hw
      exact .inr ⟨_, List.mem_append_left _ (List.mem_map_of_mem harm), hbinding⟩

theorem Instr.scoped_branch {s : Lowering} {i : Instr} {v : Version} (harms : i.arms ≠ []) (hreads : i.reads = [v])
    (hv : s.Owns v) (hbindings : ∀ arm ∈ i.arms, ∀ w ∈ arm.1, s.Owns w) : i.Scoped s where
  mentions w hw := by
    rcases mem_mentions_of_arms harms hw with hw | ⟨arm, harm, hw⟩
    · rw [hreads] at hw
      exact List.mem_singleton.1 hw ▸ hv
    · exact hbindings arm harm w hw
  merges heq := by
    subst heq
    exact absurd rfl harms
  closure heq := by
    subst heq
    exact absurd rfl harms

/-- The code was lowered between the states `s` and `s'`. -/
structure Assigned (s : Lowering) (code : List Instr) (s' : Lowering) : Prop where
  bound : s'.Bound
  adds : s.Adds (definedIn code) s'
  each : ∀ {i}, Within i code → i.Scoped s'

namespace Assigned

variable {s s₁ s' : Lowering} {code rest : List Instr}

theorem none (hs : s.Bound) {vs : List Version} (h : s.Adds vs s') (hnames : s'.names = s.names) :
    Assigned s [] s' :=
  ⟨hs.of_names_eq h hnames, h.subperm (List.nil_sublist _).subperm, fun hi => (not_within_nil hi).elim⟩

theorem trans (h : Assigned s code s₁) (h' : Assigned s₁ rest s') : Assigned s (code ++ rest) s' where
  bound := h'.bound
  adds := definedIn_append .. ▸ h.adds.trans h'.adds
  each hi := (within_append.1 hi).elim (fun hi => (h.each hi).mono h'.adds.owns) h'.each

theorem one {i : Instr} (hbound : s'.Bound) (hadds : s.Adds i.defines s') (hi : i.Scoped s')
    (harms : ∀ arm ∈ i.arms, ∀ {j}, Within j arm.2 → j.Scoped s') : Assigned s [i] s' where
  bound := hbound
  adds := definedIn_singleton i ▸ hadds
  each hj := by
    rcases within_singleton.1 hj with rfl | ⟨arm, harm, hj⟩
    · exact hi
    · exact harms arm harm hj

end Assigned

/-! ### Computations -/

/-- Where the versions `known` exist, the computation lowers to code that assigns each version once, and the
versions `result` exist afterwards. -/
def Assigns {α : Type} (known : Set Version) (result : α → Set Version) (x : LowerM α) : Prop :=
  ∀ ⦃s a s'⦄, s.Bound → (∀ v ∈ known, s.Owns v) → x s = .ok a s' →
    (∃ code, s'.code.toList = s.code.toList ++ code ∧ Assigned s code s') ∧ ∀ v ∈ result a, s'.Owns v

namespace Assigns

variable {α β : Type} {known : Set Version} {result : α → Set Version} {result' : β → Set Version}
  {x : LowerM α}

theorem pure {a : α} (h : result a ⊆ known) : Assigns known result (pure a : LowerM α) := by
  intro s b s' hs hknown hx
  obtain ⟨rfl, rfl⟩ := Outcome.pure_eq_ok_iff.1 hx
  exact ⟨⟨[], by simp, .none hs (.of_slots_eq rfl) rfl⟩, fun v hv => hknown v (h hv)⟩

theorem pure_none {a : α} : Assigns known (fun _ => ∅) (Pure.pure a : LowerM α) :=
  .pure (Set.empty_subset _)

/-- A computation whose result may be a version, but is not. -/
theorem pure_absent : Assigns known (fun r => {v | v ∈ r}) (Pure.pure none : LowerM (Option Version)) :=
  .pure fun v (hv : none = some v) => nomatch hv

theorem pure_some {v : Version} (hv : v ∈ known) :
    Assigns known (fun r => {w | w ∈ r}) (Pure.pure (some v) : LowerM (Option Version)) :=
  .pure fun _ hw => Option.some.inj hw ▸ hv

theorem throw (e : LowerError) : Assigns known result (throw e : LowerM α) :=
  fun _ _ _ _ _ h => (Outcome.throw_eq_ok_iff.1 h).elim

theorem bind {f : α → LowerM β} (hx : Assigns known result x)
    (hf : ∀ a, Assigns (result a ∪ known) result' (f a)) : Assigns known result' (x >>= f) := by
  intro s b s' hs hknown h
  obtain ⟨a, s₁, hxa, hfa⟩ := Outcome.bind_eq_ok_iff.1 h
  obtain ⟨⟨code, hcode, hassigned⟩, hresult⟩ := hx hs hknown hxa
  have hknown₁ : ∀ v ∈ result a ∪ known, s₁.Owns v := fun v hv =>
    hv.elim (hresult v) fun hv => hassigned.adds.owns (hknown v hv)
  obtain ⟨⟨rest, hrest, hassigned'⟩, hresult'⟩ := hf a hassigned.bound hknown₁ hfa
  exact ⟨⟨code ++ rest, by rw [hrest, hcode, List.append_assoc], hassigned.trans hassigned'⟩, hresult'⟩

theorem throw_bind (e : LowerError) {f : α → LowerM β} :
    Assigns known result' ((MonadExcept.throw e : LowerM α) >>= f) :=
  fun _ _ _ _ _ h => (Outcome.throw_eq_ok_iff.1 (Outcome.bind_eq_ok_iff.1 h).choose_spec.choose_spec.1).elim

theorem mono {known' : Set Version} (h : Assigns known result x) (hknown : known ⊆ known') :
    Assigns known' result x :=
  fun _ _ _ hs howned => h hs fun v hv => howned v (hknown hv)

end Assigns
end Monomorph
