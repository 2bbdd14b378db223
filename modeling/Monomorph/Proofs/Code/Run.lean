import Mathlib.Data.List.Basic
import Monomorph.Code.Instr

/-! # Paths through lowered code

A path through code executes instructions in order, one arm of every branch, and defines versions on its
way. Its *history* lists the definitions, the newest first. What an instruction computes is left open
(any value), except that `phi` takes the value of the operand that the path defined last; so what holds
for all paths holds for every meaning of the instructions.

A branch on variants that lists all of them has a last arm without code, which no path takes. The code
does not tell it from a last arm that is meant to do nothing, so the paths are those of code together
with its *shape*, which lists the arms that can be taken.

* `Runs`: the paths that reach the end of the code.
* `Runs.exists_new`: a path only adds definitions, of versions that the code defines.
* `History.newest`: the value of the last definition among some versions.
* `History.lastAssigned`: the last value assigned to a slot; merging versions is no assignment. -/

namespace Monomorph

/-- The definition of a version on a path. -/
structure Definition (V : Type) where
  version : Version
  value : V
  /-- Whether it merges versions of other arms. -/
  merged : Bool

/-- The definitions made so far, the newest first. -/
abbrev History (V : Type) := List (Definition V)

namespace History

variable {V : Type} (undefined : V)

/-- The value of the newest definition of one of some versions; `undefined` if there is none. -/
def newest (h : History V) (vs : List Version) : V :=
  ((h.find? fun d => d.version ∈ vs).map Definition.value).getD undefined

/-- The last value assigned to a slot. -/
def lastAssigned (h : History V) (slot : Nat) : Option V :=
  (h.find? fun d => d.version.slot == slot && !d.merged).map Definition.value

variable {undefined}

theorem newest_cons (d : Definition V) (h : History V) (vs : List Version) :
    newest undefined (d :: h) vs = if d.version ∈ vs then d.value else newest undefined h vs := by
  unfold newest
  rw [List.find?_cons]
  by_cases hd : d.version ∈ vs
  · simp [hd]
  · simp [hd]

theorem newest_append {new h : History V} {vs : List Version}
    (hnew : ∀ d ∈ new, d.version ∉ vs) :
    newest undefined (new ++ h) vs = newest undefined h vs := by
  unfold newest
  rw [List.find?_append, List.find?_eq_none.2 fun d hd => by simpa using hnew d hd, Option.none_or]

/-- If one of the versions is defined in the newer part, the older part does not count. -/
theorem newest_append_of_mem {new h : History V} {vs : List Version}
    (hnew : ∃ d ∈ new, d.version ∈ vs) :
    newest undefined (new ++ h) vs = newest undefined new vs := by
  obtain ⟨d, hd, hv⟩ := hnew
  have hsome : (new.find? fun d => decide (d.version ∈ vs)).isSome :=
    List.find?_isSome.2 ⟨d, hd, by simpa using hv⟩
  unfold newest
  rw [List.find?_append]
  cases hfind : new.find? fun d => decide (d.version ∈ vs) with
  | none => rw [hfind] at hsome; cases hsome
  | some d => rfl

theorem newest_congr {h : History V} {vs ws : List Version}
    (heq : ∀ d ∈ h, d.version ∈ vs ↔ d.version ∈ ws) :
    newest undefined h vs = newest undefined h ws := by
  induction h with
  | nil => rfl
  | cons d h ih =>
    rw [newest_cons, newest_cons, ih fun e he => heq e (List.mem_cons_of_mem _ he)]
    simp only [heq d List.mem_cons_self]

theorem lastAssigned_append (new h : History V) (slot : Nat) :
    lastAssigned (new ++ h) slot = (lastAssigned new slot).or (lastAssigned h slot) := by
  unfold lastAssigned
  rw [List.find?_append]
  cases new.find? fun d => d.version.slot == slot && !d.merged <;> rfl

theorem lastAssigned_eq_none {h : History V} {slot : Nat}
    (hnone : ∀ d ∈ h, d.version.slot ≠ slot ∨ d.merged = true) : lastAssigned h slot = none := by
  unfold lastAssigned
  rw [List.find?_eq_none.2, Option.map_none]
  intro d hd
  rcases hnone d hd with hne | hmerged
  · simp [hne]
  · simp [hmerged]

end History

/-! ### Versions that code defines -/

mutual

/-- The versions that an instruction defines, in all its arms. -/
def Instr.defines : Instr → List Version
  | .op _ _ dest => dest.toList
  | .closure _ _ _ _ _ dest => [dest]
  | .branchValue _ arms otherwise => definedInValueArms arms ++ definedIn otherwise
  | .branchVariant _ arms otherwise => definedInVariantArms arms ++ definedIn otherwise

/-- The versions that a list of instructions defines. -/
def definedIn : List Instr → List Version
  | [] => []
  | i :: rest => i.defines ++ definedIn rest

/-- The versions that the arms of a branch on values define. -/
def definedInValueArms : List (Nat × List Instr) → List Version
  | [] => []
  | (_, body) :: rest => definedIn body ++ definedInValueArms rest

/-- The versions that the arms of a branch on variants define, those of the payloads included. -/
def definedInVariantArms : List (CodeArm (List Instr)) → List Version
  | [] => []
  | ⟨_, binding, body⟩ :: rest => binding.toList ++ definedIn body ++ definedInVariantArms rest

end

theorem mem_definedIn_append {v : Version} {code rest : List Instr} :
    v ∈ definedIn (code ++ rest) ↔ v ∈ definedIn code ∨ v ∈ definedIn rest := by
  induction code with
  | nil => simp [definedIn]
  | cons i code ih => simp only [List.cons_append, definedIn, List.mem_append, ih, or_assoc]

theorem mem_definedInValueArms {v : Version} {arms : List (Nat × List Instr)} :
    v ∈ definedInValueArms arms ↔ ∃ arm ∈ arms, v ∈ definedIn arm.2 := by
  induction arms with
  | nil => simp [definedInValueArms]
  | cons arm arms ih => simp [definedInValueArms, ih]

theorem mem_definedInVariantArms {v : Version} {arms : List (CodeArm (List Instr))} :
    v ∈ definedInVariantArms arms ↔
      ∃ arm ∈ arms, v ∈ arm.binding.toList ∨ v ∈ definedIn arm.body := by
  induction arms with
  | nil => simp [definedInVariantArms]
  | cons arm arms ih => simp [definedInVariantArms, ih, or_assoc]

/-! ### Paths -/

/-- The shape of a branch: for each arm that can be taken, the shapes of the branches in it. -/
inductive Shape where
  | branch (arms : List (List Shape))

/-- The definition on the way into an arm that binds its payload. -/
def payloadHistory {V : Type} (binding : Option Version) (payload : V) : History V :=
  binding.toList.map fun v => ⟨v, payload, false⟩

/-- Number of branches in a list of instructions, those inside branches not counted. -/
def branchCount : List Instr → Nat
  | [] => 0
  | .branchValue .. :: rest => branchCount rest + 1
  | .branchVariant .. :: rest => branchCount rest + 1
  | _ :: rest => branchCount rest

/-- `Runs undefined code shapes h h'`: some path through code of these shapes reaches its end and turns
the history `h` into `h'`. -/
inductive Runs {V : Type} (undefined : V) :
    List Instr → List Shape → History V → History V → Prop
  | nil (h : History V) : Runs undefined [] [] h h
  | define {op args v shapes h h' rest} (x : V) :
      op ≠ .giveBack → op ≠ .phi → Runs undefined rest shapes (⟨v, x, false⟩ :: h) h' →
      Runs undefined (.op op args (some v) :: rest) shapes h h'
  | effect {op args shapes h h' rest} :
      op ≠ .giveBack → Runs undefined rest shapes h h' →
      Runs undefined (.op op args none :: rest) shapes h h'
  | phi {args v shapes h h' rest} :
      Runs undefined rest shapes (⟨v, History.newest undefined h args, true⟩ :: h) h' →
      Runs undefined (.op .phi args (some v) :: rest) shapes h h'
  | closure {args returns captures slots body v shapes h h' rest} (x : V) :
      Runs undefined rest shapes (⟨v, x, false⟩ :: h) h' →
      Runs undefined (.closure args returns captures slots body v :: rest) shapes h h'
  | valueArm {v arms otherwise armShapes shapes h h₁ h' rest id body inside} (i : Nat) :
      arms[i]? = some (id, body) → armShapes[i]? = some inside →
      Runs undefined body inside h h₁ → Runs undefined rest shapes h₁ h' →
      Runs undefined (.branchValue v arms otherwise :: rest)
        (.branch armShapes :: shapes) h h'
  | valueLast {v arms otherwise armShapes shapes h h₁ h' rest inside} :
      armShapes[arms.length]? = some inside →
      Runs undefined otherwise inside h h₁ → Runs undefined rest shapes h₁ h' →
      Runs undefined (.branchValue v arms otherwise :: rest)
        (.branch armShapes :: shapes) h h'
  | variantArm {v arms otherwise armShapes shapes h h₁ h' rest arm inside}
      (i : Nat) (x : V) :
      arms[i]? = some arm → armShapes[i]? = some inside →
      Runs undefined arm.body inside (payloadHistory arm.binding x ++ h) h₁ →
      Runs undefined rest shapes h₁ h' →
      Runs undefined (.branchVariant v arms otherwise :: rest)
        (.branch armShapes :: shapes) h h'
  | variantLast {v arms otherwise armShapes shapes h h₁ h' rest inside} :
      armShapes[arms.length]? = some inside →
      Runs undefined otherwise inside h h₁ → Runs undefined rest shapes h₁ h' →
      Runs undefined (.branchVariant v arms otherwise :: rest)
        (.branch armShapes :: shapes) h h'

namespace Runs

variable {V : Type} {undefined : V} {code rest : List Instr} {shapes shapes' : List Shape}
  {h h' : History V}

theorem nil_iff : Runs undefined [] shapes h h' ↔ shapes = [] ∧ h' = h := by
  constructor
  · intro hrun
    cases hrun
    exact ⟨rfl, rfl⟩
  · rintro ⟨rfl, rfl⟩
    exact .nil h'

theorem append {h₁ : History V} (hcode : Runs undefined code shapes h h₁)
    (hrest : Runs undefined rest shapes' h₁ h') :
    Runs undefined (code ++ rest) (shapes ++ shapes') h h' := by
  induction hcode with
  | nil h => exact hrest
  | define x hback hphi _ ih => exact .define x hback hphi (ih hrest)
  | effect hback _ ih => exact .effect hback (ih hrest)
  | phi _ ih => exact .phi (ih hrest)
  | closure x _ ih => exact .closure x (ih hrest)
  | valueArm i harm hinside hbody _ _ ih => exact .valueArm i harm hinside hbody (ih hrest)
  | valueLast hinside hbody _ _ ih => exact .valueLast hinside hbody (ih hrest)
  | variantArm i x harm hinside hbody _ _ ih =>
    exact .variantArm i x harm hinside hbody (ih hrest)
  | variantLast hinside hbody _ _ ih => exact .variantLast hinside hbody (ih hrest)

/-- A path through two pieces of code goes through one after the other. -/
theorem exists_of_append (hlen : shapes.length = branchCount code)
    (hrun : Runs undefined (code ++ rest) (shapes ++ shapes') h h') :
    ∃ h₁, Runs undefined code shapes h h₁ ∧ Runs undefined rest shapes' h₁ h' := by
  induction code generalizing shapes h with
  | nil =>
    rw [branchCount, List.length_eq_zero_iff] at hlen
    subst hlen
    exact ⟨h, .nil h, hrun⟩
  | cons i code ih =>
    cases i with
    | op op args dest =>
      rw [branchCount] at hlen
      · cases hrun with
        | define x hback hphi hrun =>
          obtain ⟨h₁, hcode, hrest⟩ := ih hlen hrun
          exact ⟨h₁, .define x hback hphi hcode, hrest⟩
        | effect hback hrun =>
          obtain ⟨h₁, hcode, hrest⟩ := ih hlen hrun
          exact ⟨h₁, .effect hback hcode, hrest⟩
        | phi hrun =>
          obtain ⟨h₁, hcode, hrest⟩ := ih hlen hrun
          exact ⟨h₁, .phi hcode, hrest⟩
      · simp
      · simp
    | closure args returns captures slots body dest =>
      rw [branchCount] at hlen
      · cases hrun with
        | closure x hrun =>
          obtain ⟨h₁, hcode, hrest⟩ := ih hlen hrun
          exact ⟨h₁, .closure x hcode, hrest⟩
      · simp
      · simp
    | branchValue v arms otherwise =>
      rw [branchCount] at hlen
      obtain ⟨shape, shapes, rfl⟩ := List.exists_cons_of_length_eq_add_one hlen
      have hlen' : shapes.length = branchCount code := Nat.succ.inj hlen
      cases hrun with
      | valueArm i harm hinside hbody hrun =>
        obtain ⟨h₁, hcode, hrest⟩ := ih hlen' hrun
        exact ⟨h₁, .valueArm i harm hinside hbody hcode, hrest⟩
      | valueLast hinside hbody hrun =>
        obtain ⟨h₁, hcode, hrest⟩ := ih hlen' hrun
        exact ⟨h₁, .valueLast hinside hbody hcode, hrest⟩
    | branchVariant v arms otherwise =>
      rw [branchCount] at hlen
      obtain ⟨shape, shapes, rfl⟩ := List.exists_cons_of_length_eq_add_one hlen
      have hlen' : shapes.length = branchCount code := Nat.succ.inj hlen
      cases hrun with
      | variantArm i x harm hinside hbody hrun =>
        obtain ⟨h₁, hcode, hrest⟩ := ih hlen' hrun
        exact ⟨h₁, .variantArm i x harm hinside hbody hcode, hrest⟩
      | variantLast hinside hbody hrun =>
        obtain ⟨h₁, hcode, hrest⟩ := ih hlen' hrun
        exact ⟨h₁, .variantLast hinside hbody hcode, hrest⟩

/-- A path only adds definitions, of versions that the code defines. -/
theorem exists_new (hrun : Runs undefined code shapes h h') :
    ∃ new, h' = new ++ h ∧ ∀ d ∈ new, d.version ∈ definedIn code := by
  induction hrun with
  | nil h => exact ⟨[], rfl, fun d hd => (nomatch hd)⟩
  | @define op args v shapes h h' rest x _ _ _ ih =>
    obtain ⟨new, rfl, hnew⟩ := ih
    refine ⟨new ++ [⟨v, x, false⟩], by simp, fun d hd => ?_⟩
    rcases List.mem_append.1 hd with hd | hd
    · exact List.mem_append_right _ (hnew d hd)
    · rw [List.mem_singleton.1 hd]
      exact List.mem_append_left _ (by simp [Instr.defines])
  | effect _ _ ih =>
    obtain ⟨new, rfl, hnew⟩ := ih
    exact ⟨new, rfl, fun d hd => List.mem_append_right _ (hnew d hd)⟩
  | @phi args v shapes h h' rest _ ih =>
    obtain ⟨new, rfl, hnew⟩ := ih
    refine ⟨new ++ [⟨v, h.newest undefined args, true⟩], by simp, fun d hd => ?_⟩
    rcases List.mem_append.1 hd with hd | hd
    · exact List.mem_append_right _ (hnew d hd)
    · rw [List.mem_singleton.1 hd]
      exact List.mem_append_left _ (by simp [Instr.defines])
  | @closure args returns captures slots body v shapes h h' rest x _ ih =>
    obtain ⟨new, rfl, hnew⟩ := ih
    refine ⟨new ++ [⟨v, x, false⟩], by simp, fun d hd => ?_⟩
    rcases List.mem_append.1 hd with hd | hd
    · exact List.mem_append_right _ (hnew d hd)
    · rw [List.mem_singleton.1 hd]
      exact List.mem_append_left _ (by simp [Instr.defines])
  | valueArm i harm _ _ _ ihbody ih =>
    obtain ⟨new, rfl, hnew⟩ := ihbody
    obtain ⟨new', rfl, hnew'⟩ := ih
    refine ⟨new' ++ new, by simp, fun d hd => ?_⟩
    rcases List.mem_append.1 hd with hd | hd
    · exact List.mem_append_right _ (hnew' d hd)
    · exact List.mem_append_left _ (List.mem_append_left _
        (mem_definedInValueArms.2 ⟨_, List.mem_of_getElem? harm, hnew d hd⟩))
  | valueLast _ _ _ ihbody ih =>
    obtain ⟨new, rfl, hnew⟩ := ihbody
    obtain ⟨new', rfl, hnew'⟩ := ih
    refine ⟨new' ++ new, by simp, fun d hd => ?_⟩
    rcases List.mem_append.1 hd with hd | hd
    · exact List.mem_append_right _ (hnew' d hd)
    · exact List.mem_append_left _ (List.mem_append_right _ (hnew d hd))
  | @variantArm v arms otherwise armShapes shapes h h₁ h' rest arm inside i x harm _ _ _
      ihbody ih =>
    obtain ⟨new, rfl, hnew⟩ := ihbody
    obtain ⟨new', rfl, hnew'⟩ := ih
    refine ⟨new' ++ (new ++ payloadHistory arm.binding x), by simp, fun d hd => ?_⟩
    have harm' (hv : d.version ∈ arm.binding.toList ∨ d.version ∈ definedIn arm.body) :
        d.version ∈ definedInVariantArms arms :=
      mem_definedInVariantArms.2 ⟨arm, List.mem_of_getElem? harm, hv⟩
    rcases List.mem_append.1 hd with hd | hd
    · exact List.mem_append_right _ (hnew' d hd)
    · rcases List.mem_append.1 hd with hd | hd
      · exact List.mem_append_left _ (List.mem_append_left _ (harm' (.inr (hnew d hd))))
      · obtain ⟨w, hw, rfl⟩ := List.mem_map.1 hd
        exact List.mem_append_left _ (List.mem_append_left _ (harm' (.inl hw)))
  | variantLast _ _ _ ihbody ih =>
    obtain ⟨new, rfl, hnew⟩ := ihbody
    obtain ⟨new', rfl, hnew'⟩ := ih
    refine ⟨new' ++ new, by simp, fun d hd => ?_⟩
    rcases List.mem_append.1 hd with hd | hd
    · exact List.mem_append_right _ (hnew' d hd)
    · exact List.mem_append_left _ (List.mem_append_right _ (hnew d hd))

end Runs
end Monomorph
