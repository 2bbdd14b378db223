import Monomorph.Proofs.Meaning.Bodies

/-! # Lowered procedures run as their bodies

A procedure is run with a value for every parameter: its tree with the values as locals, its code with the
values in the argument slots (`argumentHistory`). `Expr.run` and `Procedure.run` say how the run ends: it
falls off the end of the body or stops. -/

namespace Monomorph

open Outcome

variable {A : Type} {P : Primitives A}

/-- The arguments in their slots, numbered from `i`. -/
def argumentHistory {V : Type} : Nat → List V → History V
  | _, [] => []
  | i, x :: rest => argumentHistory (i + 1) rest ++ [⟨⟨i, 0⟩, x, false⟩]

def Store.ofArguments (params : List String) (values : List (Value A)) : Store A :=
  (params.zip values).reverse

def Expr.run (P : Primitives A) (evaluate : Evaluator) (params : List String)
    (body : List (Expr TypeVar)) (values : List (Value A)) : Except (Stop A) Unit := do
  let _ ← Expr.evals P evaluate body (Store.ofArguments params values)

/-- Run the code of a procedure on arguments. -/
def Procedure.run (P : Primitives A) (constants : ConstantTable) (p : Procedure)
    (values : List (Value A)) : Except (Stop A) Unit := do
  let _ ← Instr.execs P constants.values.toList p.body (argumentHistory 0 values)

namespace LowerM

/-! ### One body -/

/-- After the parameters, the arguments are the visible locals, and there is no code yet. -/
theorem bindParams_agrees {params : List String} {types : List TypeVar} {values : List (Value A)}
    {s s' : Lowering} {h : History (Value A)} {σ : Store A} {u : Unit}
    (hparams : bindParams (params.zip types) s = .ok u s') (hs : s.Separate) (hagree : Agree P σ s h)
    (htypes : types.length = params.length) (hvalues : values.length = params.length) :
    s'.Separate ∧ s'.code = s.code ∧
      Agree P (Store.ofArguments params values ++ σ) s' (argumentHistory s.slots.size values ++ h) := by
  induction params generalizing types values s h σ with
  | nil =>
    obtain rfl := List.length_eq_zero_iff.1 hvalues
    obtain ⟨-, rfl⟩ := pure_eq_ok_iff.1 hparams
    exact ⟨hs, rfl, hagree⟩
  | cons name params ih =>
    obtain ⟨type, types, rfl⟩ := List.exists_cons_of_length_eq_add_one htypes
    obtain ⟨x, values, rfl⟩ := List.exists_cons_of_length_eq_add_one hvalues
    obtain ⟨v, s₁, hnew, hrest⟩ := Outcome.bind_eq_ok_iff.1 hparams
    obtain ⟨⟨⟩, s₂, hbind, hrest⟩ := Outcome.bind_eq_ok_iff.1 hrest
    obtain ⟨rfl, rfl⟩ := newSlot_eq_ok_iff.1 hnew
    obtain rfl := bind_eq_ok_iff.1 hbind
    let s₂ : Lowering :=
      { s with slots := s.slots.push ⟨type, true, false, 1⟩, names := s.names.insert name ⟨s.slots.size, 0⟩ }
    have hlocal := @Agree.newLocal A P s s₂ h σ hagree hs ⟨type, true, false, 1⟩ name x rfl rfl rfl
    have hstep : Step (.declare name) s [] s₂ := step_bindNew hs name rfl rfl fun _ h => (nomatch h)
    obtain ⟨hseparate, hcode, hall⟩ := ih hrest hstep.separate hlocal (Nat.succ.inj htypes) (Nat.succ.inj hvalues)
    refine ⟨hseparate, hcode, ?_⟩
    have hsize : s₂.slots.size = s.slots.size + 1 := Array.size_push ..
    rw [hsize] at hall
    simpa [Store.ofArguments, argumentHistory] using hall

/-- The arguments are locals with the names of the parameters. -/
theorem ofArguments_names {params : List String} {values : List (Value A)}
    (hvalues : values.length = params.length) :
    (Store.ofArguments params values).map Prod.fst = params.reverse := by
  rw [Store.ofArguments, List.map_reverse, List.map_fst_zip (Nat.le_of_eq hvalues.symm)]

/-- Run with arguments, a lowered body ends as its tree does. -/
theorem inBody_runs {context : LowerContext} {params : List String} {args : List TypeVar}
    {body : List (Expr TypeVar)} {s s' : Lowering} {slots : Array Slot} {code : List Instr}
    {table : List Constant} (h : inBody params args (exprs context body) s = .ok (slots, code) s')
    (htable : ∃ more, table = s'.constants.values.toList ++ more)
    (hcore : Expr.areCore params body = true) (hargs : args.length = params.length)
    {values : List (Value A)} (hvalues : values.length = params.length)
    (hmatched : Expr.run P context.evaluate params body values ≠ .error .unmatched) :
    (do let _ ← Instr.execs P table code (argumentHistory 0 values)) =
      Expr.run P context.evaluate params body values := by
  obtain ⟨s₁, s₂, hparams, hbody, -, rfl, rfl⟩ := inBody_eq_ok_iff.1 h
  have hstart : Agree P [] (bodyStart s) [] := ⟨fun _ => rfl, nofun⟩
  obtain ⟨hs₁, hempty, hagree⟩ :=
    bindParams_agrees hparams (bodyStart_separate s) hstart hargs hvalues
  rw [List.append_nil, List.append_nil] at hagree
  have hnames : (Store.ofArguments params values).map Prod.fst ⊆ params :=
    fun _ hn => List.mem_reverse.1 (ofArguments_names hvalues ▸ hn)
  have hcode : s₂.code.toList = s₁.code.toList ++ s₂.code.toList := by rw [hempty]; rfl
  have hfollows := (block_simulates context body hcore).simulates hnames hs₁ hagree hbody hcode htable
  unfold Expr.run at hmatched ⊢
  cases hrun : Expr.evals P context.evaluate body (Store.ofArguments params values) with
  | ok σ =>
    obtain ⟨new, hexec, -⟩ := hfollows.ok (by rw [hrun]; rfl)
    exact congrArg (fun r => do let _ ← r) hexec
  | error stop =>
    rw [hrun] at hmatched
    have hstop : stop ≠ .unmatched := fun hstop => hmatched (hstop ▸ rfl)
    have hexec := hfollows.error (by rw [hrun]; rfl) hstop
    exact congrArg (fun r => do let _ ← r) hexec

/-! ### Programs -/

/-- A lowered procedure comes from a variant of a symbol. -/
structure LoweredFrom (context : LowerContext) (table : List Constant) (path : Path)
    (params : List String) (i : Nat) (v : Variant) (body : List (Expr TypeVar)) (p : Procedure) :
    Prop where
  path_eq : p.path = path
  variant_eq : p.variant = i
  args_eq : p.args = v.args
  returns_eq : p.returns = v.returns
  code : ∃ s s' : Lowering, inBody params v.args (exprs context body) s = .ok (p.slots, p.body) s' ∧
    ∃ more, table = s'.constants.values.toList ++ more

theorem procedureVariants_lowers (context : LowerContext) (path : Path) (params : List String)
    (i : Nat) (vs : List Variant) : LowersBlock .none (procedureVariants context path params i vs) := by
  induction vs generalizing i with
  | nil => exact .pure_none _ rfl
  | cons v vs ih =>
    rw [procedureVariants]
    split
    · exact ih _
    · refine (inBody_lowers params v.args (exprs_lowers context _)).none_bind fun p => ?_
      exact (ih _).bind_pure fun _ => rfl

def symbolProcedures (context : LowerContext) (id : Nat) (symbol : Symbol) : LowerM (List Procedure) :=
  match symbol.declaration.params? with
  | some params => procedureVariants context symbol.path params 0 (context.variants.ofSymbol id)
  | none => pure []

theorem symbolProcedures_lowers (context : LowerContext) (id : Nat) (symbol : Symbol) :
    LowersBlock .none (symbolProcedures context id symbol) := by
  unfold symbolProcedures
  split
  · exact procedureVariants_lowers ..
  · exact .pure_none _ rfl

theorem procedures_cons (context : LowerContext) (id : Nat) (symbol : Symbol) (symbols : List Symbol) :
    procedures context id (symbol :: symbols) = do
      let own ← symbolProcedures context id symbol
      return own ++ (← procedures context (id + 1) symbols) := by
  rw [procedures, symbolProcedures]
  cases symbol.declaration.params? <;> rfl

theorem procedures_lowers (context : LowerContext) (id : Nat) (symbols : List Symbol) :
    LowersBlock .none (procedures context id symbols) := by
  induction symbols generalizing id with
  | nil => exact .pure_none _ rfl
  | cons symbol symbols ih =>
    rw [procedures_cons]
    refine (symbolProcedures_lowers ..).none_bind fun own => ?_
    exact (ih _).bind_pure fun _ => rfl

theorem exists_of_procedureVariants {context : LowerContext} {path : Path} {params : List String}
    {k : Nat} {vs : List Variant} {s s' : Lowering} {ps : List Procedure}
    (h : procedureVariants context path params k vs s = .ok ps s') (hs : s.Separate)
    {table : List Constant} (htable : ∃ more, table = s'.constants.values.toList ++ more) {i : Nat}
    {v : Variant} (hv : vs[i]? = some v) {body : List (Expr TypeVar)} (hbody : v.body = some body) :
    ∃ p ∈ ps, LoweredFrom context table path params (k + i) v body p := by
  induction vs generalizing k i s ps with
  | nil => cases hv
  | cons first vs ih =>
    rw [procedureVariants] at h
    cases hown : first.body with
    | none =>
      rw [hown] at h
      cases i with
      | zero =>
        cases hv
        rw [hown] at hbody
        cases hbody
      | succ i =>
        rw [Nat.add_comm i, ← Nat.add_assoc]
        exact ih h hs hv
    | some own =>
      rw [hown] at h
      obtain ⟨⟨slots, code⟩, s₁, hfirst, h⟩ := Outcome.bind_eq_ok_iff.1 h
      obtain ⟨others, s₂, hothers, h⟩ := Outcome.bind_eq_ok_iff.1 h
      obtain ⟨rfl, rfl⟩ := pure_eq_ok_iff.1 h
      obtain ⟨⟨_, -, hstep⟩, -⟩ :=
        inBody_lowers params first.args (exprs_lowers context own) hs hfirst
      cases i with
      | zero =>
        cases hv
        obtain rfl : own = body := Option.some.inj (hown.symm.trans hbody)
        obtain ⟨⟨_, -, hrest⟩, -⟩ := procedureVariants_lowers _ _ _ _ _ hstep.separate hothers
        exact ⟨_, List.mem_cons_self, rfl, rfl, rfl, rfl, s, s₁, hfirst, hrest.holds_constants htable⟩
      | succ i =>
        obtain ⟨p, hp, hfrom⟩ := ih hothers hstep.separate hv
        rw [Nat.add_assoc, Nat.add_comm 1] at hfrom
        exact ⟨p, List.mem_cons_of_mem _ hp, hfrom⟩

theorem exists_of_procedures {context : LowerContext} {k : Nat} {symbols : List Symbol}
    {s s' : Lowering} {ps : List Procedure} (h : procedures context k symbols s = .ok ps s')
    (hs : s.Separate) {table : List Constant}
    (htable : ∃ more, table = s'.constants.values.toList ++ more) {id : Nat} {symbol : Symbol}
    (hsymbol : symbols[id]? = some symbol) {params : List String}
    (hparams : symbol.declaration.params? = some params) {i : Nat} {v : Variant}
    (hv : (context.variants.ofSymbol (k + id))[i]? = some v) {body : List (Expr TypeVar)}
    (hbody : v.body = some body) :
    ∃ p ∈ ps, LoweredFrom context table symbol.path params i v body p := by
  induction symbols generalizing k id s ps with
  | nil => cases hsymbol
  | cons first symbols ih =>
    rw [procedures_cons] at h
    obtain ⟨own, s₁, hown, h⟩ := Outcome.bind_eq_ok_iff.1 h
    obtain ⟨others, s₂, hothers, h⟩ := Outcome.bind_eq_ok_iff.1 h
    obtain ⟨rfl, rfl⟩ := pure_eq_ok_iff.1 h
    obtain ⟨⟨_, -, hstep⟩, -⟩ := symbolProcedures_lowers _ _ _ hs hown
    cases id with
    | zero =>
      cases hsymbol
      obtain ⟨⟨_, -, hrest⟩, -⟩ := procedures_lowers _ _ _ hstep.separate hothers
      rw [symbolProcedures, hparams] at hown
      obtain ⟨p, hp, hfrom⟩ :=
        exists_of_procedureVariants hown hs (hrest.holds_constants htable) hv hbody
      rw [Nat.zero_add] at hfrom
      exact ⟨p, List.mem_append_left _ hp, hfrom⟩
    | succ id =>
      rw [Nat.add_comm id, ← Nat.add_assoc] at hv
      obtain ⟨p, hp, hfrom⟩ := ih hothers hstep.separate hsymbol hv
      exact ⟨p, List.mem_append_right _ hp, hfrom⟩

theorem loweredFrom_of_mem_procedureVariants {context : LowerContext} {path : Path} {params : List String}
    {k : Nat} {vs : List Variant} {s s' : Lowering} {ps : List Procedure}
    (h : procedureVariants context path params k vs s = .ok ps s') {p : Procedure} (hp : p ∈ ps) :
    ∃ i v body table, vs[i]? = some v ∧ v.body = some body ∧
      LoweredFrom context table path params (k + i) v body p := by
  induction vs generalizing k s ps with
  | nil =>
    obtain ⟨rfl, -⟩ := pure_eq_ok_iff.1 h
    cases hp
  | cons first vs ih =>
    have hlater {k' : Nat} {s : Lowering} {ps : List Procedure} (hk : k' = k + 1)
        (h : procedureVariants context path params k' vs s = .ok ps s') (hp : p ∈ ps) :
        ∃ i v body table, (first :: vs)[i]? = some v ∧ v.body = some body ∧
          LoweredFrom context table path params (k + i) v body p := by
      obtain ⟨i, v, body, table, hv, hbody, hfrom⟩ := ih h hp
      rw [hk, Nat.add_assoc, Nat.add_comm 1] at hfrom
      exact ⟨i + 1, v, body, table, hv, hbody, hfrom⟩
    rw [procedureVariants] at h
    cases hown : first.body with
    | none =>
      rw [hown] at h
      exact hlater rfl h hp
    | some own =>
      rw [hown] at h
      obtain ⟨⟨slots, code⟩, s₁, hfirst, h⟩ := Outcome.bind_eq_ok_iff.1 h
      obtain ⟨others, s₂, hothers, h⟩ := Outcome.bind_eq_ok_iff.1 h
      obtain ⟨rfl, rfl⟩ := pure_eq_ok_iff.1 h
      rcases List.mem_cons.1 hp with rfl | hp
      · exact ⟨0, first, own, _, rfl, hown, rfl, rfl, rfl, rfl, s, s₁, hfirst, [], (List.append_nil _).symm⟩
      · exact hlater rfl hothers hp

theorem loweredFrom_of_mem_procedures {context : LowerContext} {k : Nat} {symbols : List Symbol}
    {s s' : Lowering} {ps : List Procedure} (h : procedures context k symbols s = .ok ps s') {p : Procedure}
    (hp : p ∈ ps) : ∃ id symbol params i v body table, symbols[id]? = some symbol ∧
      symbol.declaration.params? = some params ∧ (context.variants.ofSymbol (k + id))[i]? = some v ∧
        v.body = some body ∧ LoweredFrom context table symbol.path params i v body p := by
  induction symbols generalizing k s ps with
  | nil =>
    obtain ⟨rfl, -⟩ := pure_eq_ok_iff.1 h
    cases hp
  | cons first symbols ih =>
    rw [procedures_cons] at h
    obtain ⟨own, s₁, hown, h⟩ := Outcome.bind_eq_ok_iff.1 h
    obtain ⟨others, s₂, hothers, h⟩ := Outcome.bind_eq_ok_iff.1 h
    obtain ⟨rfl, rfl⟩ := pure_eq_ok_iff.1 h
    rcases List.mem_append.1 hp with hp | hp
    · rw [symbolProcedures] at hown
      cases hparams : first.declaration.params? with
      | none =>
        rw [hparams] at hown
        obtain ⟨rfl, -⟩ := pure_eq_ok_iff.1 hown
        cases hp
      | some params =>
        rw [hparams] at hown
        obtain ⟨i, v, body, table, hv, hbody, hfrom⟩ := loweredFrom_of_mem_procedureVariants hown hp
        rw [Nat.zero_add] at hfrom
        exact ⟨0, first, params, i, v, body, table, rfl, hparams, hv, hbody, hfrom⟩
    · obtain ⟨id, symbol, params, i, v, body, table, hsymbol, hparams, hv, hbody, hfrom⟩ := ih hothers hp
      rw [Nat.add_assoc, Nat.add_comm 1] at hv
      exact ⟨id + 1, symbol, params, i, v, body, table, hsymbol, hparams, hv, hbody, hfrom⟩

end LowerM

/-- Every procedure of a lowered program is the code of a variant of a procedure that has a body. -/
theorem loweredFrom_of_mem {context : LowerContext} {m : Module} (h : lower context = .ok m) {p : Procedure}
    (hp : p ∈ m.procedures) : ∃ id symbol params i v body table, context.symbols.get? id = some symbol ∧
      symbol.declaration.params? = some params ∧ (context.variants.ofSymbol id)[i]? = some v ∧
        v.body = some body ∧ LowerM.LoweredFrom context table symbol.path params i v body p := by
  unfold lower at h
  split at h <;> cases h
  rename_i ps s hps
  obtain ⟨id, symbol, params, i, v, body, table, hsymbol, hparams, hv, hbody, hfrom⟩ :=
    LowerM.loweredFrom_of_mem_procedures hps hp
  rw [Nat.zero_add] at hv
  exact ⟨id, symbol, params, i, v, body, table, (Array.getElem?_toList ..).symm.trans hsymbol, hparams, hv, hbody,
    hfrom⟩

/-- Every variant of a procedure that has a body is lowered to a procedure. -/
theorem exists_of_lower {context : LowerContext} {m : Module} (h : lower context = .ok m) {id : Nat}
    {symbol : Symbol} (hsymbol : context.symbols.get? id = some symbol) {params : List String}
    (hparams : symbol.declaration.params? = some params) {i : Nat} {v : Variant}
    (hv : (context.variants.ofSymbol id)[i]? = some v) {body : List (Expr TypeVar)}
    (hbody : v.body = some body) :
    ∃ p ∈ m.procedures,
      LowerM.LoweredFrom context m.constants.values.toList symbol.path params i v body p := by
  unfold lower at h
  split at h
  · rename_i ps s hps
    cases h
    have hs : (⟨.empty, [], #[], #[], .empty⟩ : Lowering).Separate :=
      ⟨fun h => (nomatch h), fun h => (nomatch h)⟩
    have hsymbol : context.symbols.symbols.toList[id]? = some symbol :=
      (Array.getElem?_toList ..).trans hsymbol
    refine LowerM.exists_of_procedures hps hs ⟨[], (List.append_nil _).symm⟩ hsymbol hparams ?_ hbody
    rw [Nat.zero_add]
    exact hv
  · cases h

/-- The code of a procedure ends as the tree it comes from. -/
theorem LowerM.LoweredFrom.run_eq {context : LowerContext} {constants : ConstantTable} {path : Path}
    {params : List String} {i : Nat} {v : Variant} {body : List (Expr TypeVar)} {p : Procedure}
    (h : LoweredFrom context constants.values.toList path params i v body p)
    (hcore : Expr.areCore params body = true) (hargs : v.args.length = params.length)
    {values : List (Value A)} (hvalues : values.length = params.length)
    (hmatched : Expr.run P context.evaluate params body values ≠ .error .unmatched) :
    p.run P constants values = Expr.run P context.evaluate params body values := by
  obtain ⟨s, s', hcode, htable⟩ := h.code
  exact inBody_runs hcode htable hcore hargs hvalues hmatched

end Monomorph
