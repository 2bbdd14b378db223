import Monomorph.Proofs.Code.Lowered
import Monomorph.Proofs.Meaning.Code

/-! # Lowered parts run as their trees

`Simulates` compares the lowering of one part of a body with the evaluation of its tree: from a store and
a history that agree on the visible locals, the code runs as the evaluation does, to a store and a history
that agree again, or to the same stop. Parts in sequence compose (`Simulates.bind`). -/

namespace Monomorph

open Outcome

variable {A : Type} {P : Primitives A} {table : List Constant}

/-- The visible locals carry the values in the store, and everything defined exists. -/
structure Agree (P : Primitives A) (σ : Store A) (s : Lowering) (h : History (Value A)) : Prop where
  values : ∀ n, σ.lookup n = (s.names.get? n).map (P.read h)
  bounded : ∀ d ∈ h, s.Owns d.version

/-- The code runs as the evaluation `run` does; `carries` relates the results. -/
structure Follows {β : Type} (P : Primitives A) (table : List Constant) (fp : Footprint)
    (code : List Instr) (s' : Lowering) (h : History (Value A)) (carries : β → History (Value A) → Prop)
    (run : Except (Stop A) (β × Store A)) : Prop where
  ok : ∀ {b σ'}, run = .ok (b, σ') → ∃ new, Instr.execs P table code h = .ok (new ++ h) ∧
    Runs P.unassigned code fp.branches h (new ++ h) ∧ Agree P σ' s' (new ++ h) ∧ carries b (new ++ h)
  error : ∀ {stop}, run = .error stop → stop ≠ .unmatched → Instr.execs P table code h = .error stop

namespace Follows

variable {β : Type} {fp : Footprint} {code : List Instr} {s' : Lowering} {h : History (Value A)}
  {carries : β → History (Value A) → Prop}

theorem of_stop {stop : Stop A} (hexec : stop ≠ .unmatched → Instr.execs P table code h = .error stop) :
    Follows P table fp code s' h carries (.error stop) where
  ok := nofun
  error hstop hne := by
    cases hstop
    exact hexec hne

theorem of_ok {b : β} {σ : Store A} (hexec : ∃ new, Instr.execs P table code h = .ok (new ++ h) ∧
      Runs P.unassigned code fp.branches h (new ++ h) ∧ Agree P σ s' (new ++ h) ∧ carries b (new ++ h)) :
    Follows P table fp code s' h carries (.ok (b, σ)) where
  ok hok := by
    cases hok
    exact hexec
  error := nofun

end Follows

/-- Lowering a part of a body from the state `s` gives code that follows the evaluation `run` from the
history `h`. -/
def Simulates {α β : Type} (P : Primitives A) (table : List Constant) (fp : Footprint)
    (carries : α → β → Lowering → History (Value A) → Prop) (x : LowerM α)
    (run : Except (Stop A) (β × Store A)) (s : Lowering) (h : History (Value A)) : Prop :=
  ∀ ⦃a s' code⦄, x s = .ok a s' → s'.code.toList = s.code.toList ++ code →
    (∃ more, table = s'.constants.values.toList ++ more) →
      Follows P table fp code s' h (fun b => carries a b s') run

def ValueIn (P : Primitives A) (v : Version) (x : Value A) (s : Lowering) (h : History (Value A)) : Prop :=
  s.Owns v ∧ P.read h v = x

/-- The result of an expression; without one its value is unit. -/
def ResultIn (P : Primitives A) (r : Option Version) (x : Value A) (s : Lowering)
    (h : History (Value A)) : Prop :=
  (∀ v ∈ r, ValueIn P v x s h) ∧ (r = none → x = P.unit)

section

variable {s s₁ s' : Lowering} {h new : History (Value A)} {σ σ₁ : Store A} {fp fq : Footprint}
  {code : List Instr}

/-- Versions that existed before a step carry afterwards what they did. -/
theorem Step.read_eq (hstep : Step fp s code s') {shapes : List Shape}
    (hrun : Runs P.unassigned code shapes h (new ++ h)) {v : Version} (hv : s.Owns v) :
    P.read (new ++ h) v = P.read h v := by
  obtain ⟨new', heq, hnew⟩ := hstep.exists_new hrun
  cases List.append_cancel_right heq
  exact History.newest_append fun d hd hmem => (hnew d hd).2.1 (List.mem_singleton.1 hmem ▸ hv)

/-- A table that holds the constants after a step holds those before it. -/
theorem Step.holds_constants (hstep : Step fp s code s')
    (htable : ∃ more, table = s'.constants.values.toList ++ more) :
    ∃ more, table = s.constants.values.toList ++ more := by
  obtain ⟨more, hmore⟩ := hstep.constants
  obtain ⟨more', hmore'⟩ := htable
  exact ⟨more ++ more', by rw [hmore', hmore, List.append_assoc]⟩

theorem Step.bounded (hstep : Step fp s code s') {shapes : List Shape}
    (hrun : Runs P.unassigned code shapes h (new ++ h)) (hbounds : ∀ d ∈ h, s.Owns d.version) :
    ∀ d ∈ new ++ h, s'.Owns d.version := by
  obtain ⟨new', heq, hnew⟩ := hstep.exists_new hrun
  cases List.append_cancel_right heq
  intro d hd
  rcases List.mem_append.1 hd with hd | hd
  · exact (hnew d hd).2.2
  · exact hstep.owns (hbounds d hd)

/-- A step that leaves the names alone keeps the agreement. -/
theorem Agree.of_names_eq (hagree : Agree P σ s h) (hs : s.Separate) (hstep : Step fp s code s')
    {shapes : List Shape} (hrun : Runs P.unassigned code shapes h (new ++ h))
    (hnames : s'.names = s.names) : Agree P σ s' (new ++ h) where
  values n := by
    rw [hagree.values, hnames]
    cases hv : s.names.get? n with
    | none => rfl
    | some v => exact congrArg some (hstep.read_eq hrun (hs.owned hv)).symm
  bounded := hstep.bounded hrun hagree.bounded

end

theorem Follows.trans {β β' : Type} {s s₁ s' : Lowering} {h : History (Value A)} {fp fq : Footprint}
    {code rest : List Instr} {carries : β → History (Value A) → Prop}
    {carries' : β' → History (Value A) → Prop} {run : Except (Stop A) (β × Store A)}
    {g : β × Store A → Except (Stop A) (β' × Store A)} (hstep : Step fp s code s₁)
    (hcode : Follows P table fp code s₁ h carries run)
    (hrest : ∀ {b σ₁ new}, run = .ok (b, σ₁) →
      (∀ {v}, s.Owns v → s₁.Owns v ∧ P.read (new ++ h) v = P.read h v) → Agree P σ₁ s₁ (new ++ h) →
      carries b (new ++ h) → Follows P table fq rest s' (new ++ h) carries' (g (b, σ₁))) :
    Follows P table (fp.seq fq) (code ++ rest) s' h carries' (run >>= g) := by
  cases hrun : run with
  | error stop =>
    refine .of_stop fun hne => ?_
    rw [Instr.execs_append, hcode.error hrun hne]
    rfl
  | ok p =>
    obtain ⟨b, σ₁⟩ := p
    obtain ⟨new₁, hexec₁, hpath₁, hagree₁, hcarries₁⟩ := hcode.ok hrun
    have hkept {v : Version} (hv : s.Owns v) :
        s₁.Owns v ∧ P.read (new₁ ++ h) v = P.read h v :=
      ⟨hstep.owns hv, hstep.read_eq hpath₁ hv⟩
    have hfollows := hrest hrun hkept hagree₁ hcarries₁
    refine ⟨fun {b' σ'} hok => ?_, fun {stop} hstop hne => ?_⟩
    · obtain ⟨new₂, hexec₂, hpath₂, hagree₂, hcarries₂⟩ := hfollows.ok hok
      rw [← List.append_assoc] at hexec₂ hpath₂ hagree₂ hcarries₂
      refine ⟨new₂ ++ new₁, ?_, hpath₁.append hpath₂, hagree₂, hcarries₂⟩
      rw [Instr.execs_append, hexec₁]
      exact hexec₂
    · rw [Instr.execs_append, hexec₁]
      exact hfollows.error hstop hne

namespace Simulates

variable {α α' β β' : Type} {fp fq : Footprint} {s : Lowering} {h : History (Value A)}

theorem bind {carries : α → β → Lowering → History (Value A) → Prop}
    {carries' : α' → β' → Lowering → History (Value A) → Prop} {x : LowerM α} {f : α → LowerM α'}
    {run : Except (Stop A) (β × Store A)} {g : β × Store A → Except (Stop A) (β' × Store A)}
    {result : α → Option Version} {result' : α' → Option Version} (hs : s.Separate)
    (hx : Simulates P table fp carries x run s h) (hlowers : LowersTo fp result x)
    (hlowers' : ∀ a, LowersTo fq result' (f a))
    (hf : ∀ {a s₁ b σ₁ new}, x s = .ok a s₁ → run = .ok (b, σ₁) → s₁.Separate →
      (∀ {v}, s.Owns v → s₁.Owns v ∧ P.read (new ++ h) v = P.read h v) → Agree P σ₁ s₁ (new ++ h) →
      carries a b s₁ (new ++ h) → Simulates P table fq carries' (f a) (g (b, σ₁)) s₁ (new ++ h)) :
    Simulates P table (fp.seq fq) carries' (x >>= f) (run >>= g) s h := by
  intro a' s' code hbind hcode htable
  obtain ⟨a, s₁, hxa, hfa⟩ := Outcome.bind_eq_ok_iff.1 hbind
  obtain ⟨⟨code₁, hcode₁, hstep₁⟩, -⟩ := hlowers hs hxa
  obtain ⟨⟨code₂, hcode₂, hstep₂⟩, -⟩ := hlowers' a hstep₁.separate hfa
  have heq : code = code₁ ++ code₂ := by
    rw [hcode₂, hcode₁, List.append_assoc] at hcode
    exact (List.append_cancel_left hcode).symm
  have htable₁ := hstep₂.holds_constants htable
  rw [heq]
  refine (hx hxa hcode₁ htable₁).trans hstep₁ fun hrun hkept hagree hcarries => ?_
  exact hf hxa hrun hstep₁.separate hkept hagree hcarries hfa hcode₂ htable

theorem bind_none {carries : α → β → Lowering → History (Value A) → Prop}
    {carries' : α' → β' → Lowering → History (Value A) → Prop} {x : LowerM α} {f : α → LowerM α'}
    {run : Except (Stop A) (β × Store A)} {g : β × Store A → Except (Stop A) (β' × Store A)}
    {result : α → Option Version} {result' : α' → Option Version} (hs : s.Separate)
    (hx : Simulates P table fp carries x run s h) (hlowers : LowersTo fp result x)
    (hlowers' : ∀ a, LowersTo .none result' (f a))
    (hf : ∀ {a s₁ b σ₁ new}, x s = .ok a s₁ → run = .ok (b, σ₁) → s₁.Separate →
      (∀ {v}, s.Owns v → s₁.Owns v ∧ P.read (new ++ h) v = P.read h v) → Agree P σ₁ s₁ (new ++ h) →
      carries a b s₁ (new ++ h) → Simulates P table .none carries' (f a) (g (b, σ₁)) s₁ (new ++ h)) :
    Simulates P table fp carries' (x >>= f) (run >>= g) s h :=
  Footprint.seq_none fp ▸ bind hs hx hlowers hlowers' hf

theorem pure {carries : α → β → Lowering → History (Value A) → Prop} {a : α} {b : β} {σ : Store A}
    (hagree : Agree P σ s h) (hcarries : carries a b s h) :
    Simulates P table .none carries (Pure.pure a) (.ok (b, σ)) s h := by
  intro a' s' code hpure hcode _
  obtain ⟨rfl, rfl⟩ := pure_eq_ok_iff.1 hpure
  obtain rfl : [] = code := List.append_cancel_left ((List.append_nil _).trans hcode)
  refine .of_ok ?_
  exact ⟨[], rfl, .nil h, hagree, hcarries⟩

theorem some {x : LowerM Version} {run : Except (Stop A) (Value A × Store A)}
    (hx : Simulates P table fp (ValueIn P) x run s h) :
    Simulates P table fp (ResultIn P) (do return Option.some (← x)) run s h := by
  intro r s' code hbind hcode htable
  obtain ⟨v, s₁, hv, hpure⟩ := Outcome.bind_eq_ok_iff.1 hbind
  obtain ⟨rfl, rfl⟩ := pure_eq_ok_iff.1 hpure
  have hfollows := hx hv hcode htable
  refine ⟨fun hok => ?_, hfollows.error⟩
  obtain ⟨new, hexec, hpath, hagree, hcarries⟩ := hfollows.ok hok
  refine ⟨new, hexec, hpath, hagree, ?_, nofun⟩
  rintro _ ⟨⟩
  exact hcarries

end Simulates

namespace LowerM

variable {s : Lowering} {h : History (Value A)} {σ : Store A} {fp : Footprint}

/-! ### Operations -/

theorem emitInto_simulates (type : TypeVar) (op : Op) (args : List Version)
    {res : Except (Stop A) (Value A)} (hs : s.Separate) (hagree : Agree P σ s h)
    (hback : op ≠ .giveBack) (hphi : op ≠ .phi)
    (hexec : ∀ dest, Instr.execOp P h op args (some dest) = do return h.define dest (← res)) :
    Simulates P table .none (ValueIn P) (emitInto type op args) (do return (← res, σ)) s h := by
  intro v s' code hx hcode _
  obtain ⟨⟨code', hcode', hstep⟩, hgives⟩ := emitInto_lowers type op args hs hx
  obtain rfl := List.append_cancel_left (hcode'.symm.trans hcode)
  have howned := (hgives v rfl).owned
  obtain ⟨rfl, rfl⟩ := emitInto_eq_ok_iff.1 hx
  obtain rfl : [.op op args (some ⟨s.slots.size, 0⟩)] = code' :=
    List.append_cancel_left ((Array.toList_push).symm.trans hcode')
  have hrun := (Instr.execs_singleton P table (.op op args (some ⟨s.slots.size, 0⟩)) h).trans
    (hexec ⟨s.slots.size, 0⟩)
  cases res with
  | error stop =>
    refine .of_stop fun _ => ?_
    exact hrun
  | ok x =>
    refine .of_ok ?_
    have hpath : Runs P.unassigned [.op op args (some ⟨s.slots.size, 0⟩)] [] h
        ([⟨⟨s.slots.size, 0⟩, x, false⟩] ++ h) := .define x hback hphi (.nil _)
    refine ⟨[_], hrun, hpath, hagree.of_names_eq hs hstep hpath rfl, howned, ?_⟩
    exact (History.newest_cons ..).trans (if_pos (List.mem_singleton.2 rfl))

theorem emitInto_ok_simulates (type : TypeVar) (op : Op) (args : List Version) {x : Value A}
    (hs : s.Separate) (hagree : Agree P σ s h) (hback : op ≠ .giveBack) (hphi : op ≠ .phi)
    (hexec : ∀ dest, Instr.execOp P h op args (some dest) = .ok (h.define dest x)) :
    Simulates P table .none (ValueIn P) (emitInto type op args) (.ok (x, σ)) s h :=
  @emitInto_simulates A P table s h σ type op args (.ok x) hs hagree hback hphi hexec

theorem asValue_simulates {x : LowerM (Option Version)} {run : Except (Stop A) (Value A × Store A)}
    (type : TypeVar) (hs : s.Separate) (hx : Simulates P table fp (ResultIn P) x run s h)
    (hlowers : LowersExpr fp x) :
    Simulates P table fp (ValueIn P) (asValue type x) run s h := by
  have hrun : run = run >>= .ok := by cases run <;> rfl
  rw [hrun]
  refine hx.bind_none hs hlowers (fun r => (?_ : LowersBlock .none _))
    fun {r s₁ b σ₁ new} _ _ hs₁ _ hagree hresult => ?_
  · cases r with
    | none => exact (emitInto_lowers ..).block
    | some v => exact .pure_none _ rfl
  · cases r with
    | some v => exact .pure hagree (hresult.1 v rfl)
    | none =>
      rw [hresult.2 rfl]
      exact emitInto_ok_simulates type (.load .unit) [] hs₁ hagree nofun nofun fun _ => rfl

end LowerM
end Monomorph
