import Mathlib.Tactic.Common
import Monomorph.Proofs.Code.Typed
import Monomorph.Proofs.Constant.Members
import Monomorph.Proofs.Draft.Performed
import Monomorph.Proofs.Solve.Checked
import Monomorph.Proofs.Solve.Settled

/-! # The values of literal expressions

A literal expression is built from literals that are no floats, arrays, repeated arrays, objects, variants, constants
and operations. Its value (`Expr.value`) is that of integer arithmetic wrapped to 64 bits, with quotients truncated
toward zero and objects compared as maps. A well-typed one is folded if and only if no divisor in it is zero, every
repeated array in it has a size that is allowed, and the least integer is not divided by `-1`; and it is folded to
its value where comparisons do not meet objects that differ in nothing but the order of their members.

Main statement: `Expr.fold_literal`. -/

namespace Monomorph

open Outcome

/-! ### Values -/

/-- The value of an operation on two integers, as it is in 64 bits. -/
def BinaryOp.onIntegers (op : BinaryOp) (a b : Int) : Constant :=
  match op with
  | .add => .integer (.ofInt (a + b))
  | .subtract => .integer (.ofInt (a - b))
  | .multiply => .integer (.ofInt (a * b))
  | .divide => .integer (.ofInt (a.tdiv b))
  | .modulo => .integer (.ofInt (a.tmod b))
  | .less => .boolean (a < b)
  | .greater => .boolean (b < a)
  | .lessEqual => .boolean (a ≤ b)
  | .greaterEqual => .boolean (b ≤ a)
  | _ => .unit

/-- Whether two constants are the same if objects are maps from names to values. -/
def Constant.sameMaps (a b : Constant) : Bool := a.canonical == b.canonical

/-- The value of an operation on two constants. -/
def BinaryOp.value (op : BinaryOp) (a b : Constant) : Constant :=
  match op with
  | .equal => .boolean (a.sameMaps b)
  | .notEqual => .boolean !(a.sameMaps b)
  | op =>
    match op, a, b with
    | .and, .boolean a, .boolean b => .boolean (a && b)
    | .or, .boolean a, .boolean b => .boolean (a || b)
    | op, .integer a, .integer b => op.onIntegers a.toInt b.toInt
    | _, _, _ => .unit

/-- The value of an operation on one constant. -/
def UnaryOp.value (op : UnaryOp) (a : Constant) : Constant :=
  match op, a with
  | .negate, .integer a => .integer (.ofInt (-a.toInt))
  | .not, .boolean a => .boolean !a
  | _, _ => .unit

def Constant.repeatedValue (value size : Constant) : Constant :=
  match size with
  | .integer n => .array (List.replicate n.toInt.toNat value)
  | _ => .unit

namespace Expr

variable {α : Type}

mutual

/-- The value of a literal expression. -/
def value : Expr α → Constant
  | .literal _ v => .ofLiteral v
  | .array _ elements => .array (values elements)
  | .repeated _ v size => v.value.repeatedValue size.value
  | .object _ members => .object (namedValues members)
  | .variant _ tag payload => .variant tag payload.value
  | .constant _ v => v.value
  | .unary _ op operand => op.value operand.value
  | .binary _ op left right => op.value left.value right.value
  | _ => .unit

/-- The values of literal expressions. -/
def values : List (Expr α) → List Constant
  | [] => []
  | e :: rest => e.value :: values rest

/-- The values of named literal expressions. -/
def namedValues : List (String × Expr α) → List (String × Constant)
  | [] => []
  | (key, e) :: rest => (key, e.value) :: namedValues rest

end

mutual

/-- Whether an expression is built from literals that are no floats and from operations on them. -/
def isLiteral : Expr α → Bool
  | .literal _ (.float _) => false
  | .literal .. => true
  | .array _ elements => areLiteral elements
  | .repeated _ v size => v.isLiteral && size.isLiteral
  | .object _ members => namedLiteral members
  | .variant _ _ payload => payload.isLiteral
  | .constant _ v => v.isLiteral
  | .unary _ _ operand => operand.isLiteral
  | .binary _ _ left right => left.isLiteral && right.isLiteral
  | _ => false

def areLiteral : List (Expr α) → Bool
  | [] => true
  | e :: rest => e.isLiteral && areLiteral rest

/-- Whether named expressions are literal. -/
def namedLiteral : List (String × Expr α) → Bool
  | [] => true
  | (_, e) :: rest => e.isLiteral && namedLiteral rest

end

/-- The expression itself, those inside aside, divides by no zero and repeats no value a negative number of times or
to more than `2 ^ 20` values. -/
def IsDefined : Expr α → Prop
  | .binary _ .divide _ right | .binary _ .modulo _ right => right.value ≠ .integer 0
  | .repeated _ v size =>
    ∃ n : Int64, size.value = .integer n ∧ 0 ≤ n.toInt ∧ n.toInt.toNat * v.value.count ≤ 2 ^ 20
  | _ => True

/-- The expression itself divides the least integer by `-1`. -/
def Overflows : Expr α → Prop
  | .binary _ .divide left right | .binary _ .modulo left right =>
    left.value = .integer Int64.minValue ∧ right.value = .integer (-1)
  | _ => False

/-- If the expression itself compares two constants that are the same as maps, they list the members of their
objects in the same order, those included that a later one of the name hides. -/
def ComparesAlike : Expr α → Prop
  | .binary _ .equal left right | .binary _ .notEqual left right =>
    left.value.sameMaps right.value = true → left.value.listing = right.value.listing
  | _ => True

/-- What is demanded at the nodes of an expression is met. -/
def WellTyped (g : TypeGraph) (p : Place) (e : Expr TypeVar) : Prop :=
  ∀ n ∈ e.nodes p, ∃ r : Records, r.Hold g ∧ n.2.Recorded r n.1

end Expr

/-! ### Operations -/

namespace Constant

variable {a b c : Constant}

/-- An operation on integers that is evaluated has its value. -/
theorem integerOp_eq {op : BinaryOp} {a b : Int64} (h : integerOp op a b = some c) :
    c = op.onIntegers a.toInt b.toInt := by
  have divided {op : Int64 → Int64 → Int64} (h : divide? op a b = some c) : c = .integer (op a b) := by
    unfold divide? at h
    split at h
    · cases h
    · exact (Option.some.inj h).symm
  cases op with
  | divide =>
    have quotient : a / b = .ofInt (a.toInt.tdiv b.toInt) := by
      rw [← Int64.toInt_inj, Int64.toInt_div, Int64.toInt_ofInt]
    rw [divided h, quotient]
    rfl
  | modulo =>
    have remainder : a % b = .ofInt (a.toInt.tmod b.toInt) := by
      rw [← Int64.toInt_mod, Int64.ofInt_toInt]
    rw [divided h, remainder]
    rfl
  | _ => cases h <;> simp [BinaryOp.onIntegers, Int64.lt_iff_toInt_lt, Int64.le_iff_toInt_le]

mutual

theorem floats_canonical : (c : Constant) → c.floats = [] → c.canonical.floats = []
  | unit, h | boolean _, h | integer _, h | float _, h | string _, h => h
  | array elements, h => floatsOf_canonical elements h
  | object members, h => by
    rw [canonical, floats, floatsOfMembers_eq_nil_iff]
    intro m hm
    exact floatsOfMembers_eq_nil_iff.mp (floatsOfMembers_canonical members h) m
      (Row.mem_of_get?_ofList ((Row.mem_entries_iff _).mp hm))
  | variant _ payload, h => floats_canonical payload h

theorem floatsOf_canonical : (es : List Constant) → floatsOf es = [] → floatsOf (canonicalElements es) = []
  | [], _ => rfl
  | e :: rest, h => by
    obtain ⟨he, hrest⟩ := List.append_eq_nil_iff.mp h
    rw [canonicalElements, floatsOf, floats_canonical e he, floatsOf_canonical rest hrest, List.append_nil]

theorem floatsOfMembers_canonical : (ms : List (String × Constant)) → floatsOfMembers ms = [] →
    floatsOfMembers (canonicalMembers ms) = []
  | [], _ => rfl
  | (_, e) :: rest, h => by
    obtain ⟨he, hrest⟩ := List.append_eq_nil_iff.mp h
    rw [canonicalMembers, floatsOfMembers, floats_canonical e he, floatsOfMembers_canonical rest hrest,
      List.append_nil]

end

theorem sameMaps_iff (ha : a.FloatFree) (hb : b.FloatFree) : a.sameMaps b = true ↔ a.canonical = b.canonical :=
  beq_iff_eq_of_floatFree (floats_canonical a ha) (floats_canonical b hb)

/-- Constants that list the members of their objects alike if they are the same maps are the same maps exactly if
they are equal. -/
theorem sameMaps_eq (ha : a.FloatFree) (hb : b.FloatFree)
    (alike : a.sameMaps b = true → a.listing = b.listing) : a.sameMaps b = (a == b) := by
  rw [Bool.eq_iff_iff, beq_iff_eq_of_floatFree ha hb]
  constructor
  · intro same
    exact eq_of_listing_eq a b ((sameMaps_iff ha hb).mp same) (alike same)
  · rintro rfl
    exact (sameMaps_iff ha hb).mpr rfl

/-- An operation on two constants without floats that is evaluated has its value. -/
theorem binaryOp_eq {op : BinaryOp} (ha : a.FloatFree) (hb : b.FloatFree)
    (alike : op.isEquality = true → a.sameMaps b = true → a.listing = b.listing)
    (h : binaryOp op a b = some c) : c = op.value a b := by
  cases op with
  | equal | notEqual =>
    rw [BinaryOp.value, sameMaps_eq ha hb (alike rfl)]
    exact (Option.some.inj h).symm
  | _ =>
    simp only [binaryOp] at h
    split at h
    · exact integerOp_eq h
    · cases ha
    · first
        | (cases h; rfl)
        | cases h
    · cases h

theorem unaryOp_eq {op : UnaryOp} (ha : a.FloatFree) (h : unaryOp op a = some c) : c = op.value a := by
  unfold unaryOp at h
  split at h
  · exact (Option.some.inj h).symm
  · cases h
    simp [UnaryOp.value]
  · cases ha
  · cases h

/-! ### Counting values -/

mutual

theorem countFrom_eq (n : Nat) : (c : Constant) → c.countFrom n = n + c.count
  | unit | boolean _ | integer _ | float _ | string _ => rfl
  | array elements => by
    rw [count, countFrom, countFrom, countElements_eq (n + 1), countElements_eq (0 + 1)]
    omega
  | object members => by
    rw [count, countFrom, countFrom, countMembers_eq (n + 1), countMembers_eq (0 + 1)]
    omega
  | variant _ payload => by
    rw [count, countFrom, countFrom, countFrom_eq (n + 1), countFrom_eq (0 + 1)]
    omega

theorem countElements_eq (n : Nat) : (es : List Constant) → countElements n es = n + countElements 0 es
  | [] => rfl
  | e :: rest => by
    rw [countElements, countElements, countElements_eq (countFrom n e), countElements_eq (countFrom 0 e),
      countFrom_eq n, countFrom_eq 0]
    omega

theorem countMembers_eq (n : Nat) : (ms : List (String × Constant)) →
    countMembers n ms = n + countMembers 0 ms
  | [] => rfl
  | (_, e) :: rest => by
    rw [countMembers, countMembers, countMembers_eq (countFrom n e), countMembers_eq (countFrom 0 e),
      countFrom_eq n, countFrom_eq 0]
    omega

end

theorem count_array (es : List Constant) : (array es).count = 1 + countElements 0 es := countElements_eq 1 es

theorem count_object (ms : List (String × Constant)) : (object ms).count = 1 + countMembers 0 ms :=
  countMembers_eq 1 ms

theorem count_variant (tag : String) (c : Constant) : (variant tag c).count = 1 + c.count := countFrom_eq 1 c

theorem countElements_cons (e : Constant) (es : List Constant) :
    countElements 0 (e :: es) = e.count + countElements 0 es := countElements_eq e.count es

theorem countMembers_cons (m : String × Constant) (ms : List (String × Constant)) :
    countMembers 0 (m :: ms) = m.2.count + countMembers 0 ms := countMembers_eq m.2.count ms

theorem countElements_replicate (n : Nat) (c : Constant) :
    countElements 0 (List.replicate n c) = n * c.count := by
  induction n with
  | zero => rw [List.replicate_zero, Nat.zero_mul, countElements]
  | succ n ih => rw [List.replicate_succ, countElements_cons, ih, Nat.succ_mul, Nat.add_comm]

theorem floatsOf_replicate (h : c.FloatFree) (n : Nat) : floatsOf (List.replicate n c) = [] := by
  induction n with
  | zero => rfl
  | succ n ih => rw [List.replicate_succ, floatsOf, h, ih, List.append_nil]

def IsScalar : Constant → Prop
  | unit | boolean _ | integer _ => True
  | _ => False

theorem IsScalar.count {c : Constant} (h : c.IsScalar) : c.count = 1 := by
  cases c <;> first | rfl | cases h

theorem IsScalar.floatFree {c : Constant} (h : c.IsScalar) : c.FloatFree := by
  cases c <;> first | rfl | cases h

theorem isScalar_onIntegers (op : BinaryOp) (a b : Int) : (op.onIntegers a b).IsScalar := by
  cases op <;> trivial

theorem isScalar_binaryValue (op : BinaryOp) (a b : Constant) : (op.value a b).IsScalar := by
  unfold BinaryOp.value
  split
  · trivial
  · trivial
  · split <;> first | trivial | exact isScalar_onIntegers ..

theorem isScalar_unaryValue (op : UnaryOp) (a : Constant) : (op.value a).IsScalar := by
  unfold UnaryOp.value
  split <;> trivial

theorem integerOp_isScalar {op : BinaryOp} {a b : Int64} (h : integerOp op a b = some c) : c.IsScalar :=
  integerOp_eq h ▸ isScalar_onIntegers ..

theorem binaryOp_isScalar {op : BinaryOp} (ha : a.FloatFree) (h : binaryOp op a b = some c) : c.IsScalar := by
  unfold binaryOp at h
  split at h
  · cases h
    trivial
  · cases h
    trivial
  · split at h
    · exact integerOp_isScalar h
    · cases ha
    · unfold booleanOp at h
      split at h <;> cases h <;> trivial
    · cases h

theorem unaryOp_isScalar {op : UnaryOp} (ha : a.FloatFree) (h : unaryOp op a = some c) : c.IsScalar :=
  unaryOp_eq ha h ▸ isScalar_unaryValue ..

/-- An integer is the result of an operation on integers only. -/
theorem binaryOp_integer {op : BinaryOp} {n : Int64} (ha : a.FloatFree) (h : binaryOp op a b = some (integer n)) :
    ∃ x y, a = integer x ∧ b = integer y ∧ op.value (integer x) (integer y) = integer n := by
  unfold binaryOp at h
  split at h
  · cases h
  · cases h
  · rename_i hequal hdifferent
    split at h
    · rename_i x y
      refine ⟨x, y, rfl, rfl, ?_⟩
      rw [integerOp_eq h]
      cases op <;> first | rfl | contradiction
    · cases ha
    · unfold booleanOp at h
      split at h <;> cases h
    · cases h

theorem unaryOp_integer {op : UnaryOp} {n : Int64} (h : unaryOp op a = some (integer n)) :
    ∃ x, a = integer x ∧ op.value (integer x) = integer n := by
  unfold unaryOp at h
  split at h <;> cases h
  exact ⟨_, rfl, by simp [UnaryOp.value]⟩

/-- A quotient or remainder that is evaluated is one of integers, of which the divisor is not zero; and it does not
overflow. -/
theorem binaryOp_divided {op : BinaryOp} (hop : op = .divide ∨ op = .modulo) (ha : a.FloatFree)
    (h : binaryOp op a b = some c) : ∃ x y, a = integer x ∧ b = integer y ∧ y ≠ 0 ∧
      ¬ (x = Int64.minValue ∧ y = -1) := by
  have divided {op : Int64 → Int64 → Int64} {x y : Int64} (h : divide? op x y = some c) :
      y ≠ 0 ∧ ¬ (x = Int64.minValue ∧ y = -1) := by
    unfold divide? at h
    split at h
    · cases h
    · rename_i hne
      exact not_or.mp hne
  rcases hop with rfl | rfl
  all_goals
    simp only [binaryOp] at h
    split at h
    · exact ⟨_, _, rfl, rfl, divided h⟩
    · cases ha
    · cases h
    · cases h

/-! ### Kinds of constants -/

def IsOf : Constant → Kind → Prop
  | unit, .unit | boolean _, .boolean | integer _, .integer | float _, .float | string _, .string
  | array _, .array _ | object _, .object .. | variant .., .union .. => True
  | _, _ => False

theorem isOf_of_accepts (v : Literal) {k : Kind} (h : (DraftM.literalBase v).accepts k = true) :
    (ofLiteral v).IsOf k := by
  cases v <;> cases k <;> first | exact h | trivial

theorem exists_integer {k : Kind} (h : a.IsOf k) (hk : k.isNumeric = true) (ha : a.FloatFree) :
    k = .integer ∧ ∃ x, a = integer x := by
  cases a <;> cases k <;> first
    | exact ⟨rfl, _, rfl⟩
    | (cases h; done)
    | (cases hk; done)
    | cases ha

theorem exists_boolean (h : a.IsOf .boolean) : ∃ x, a = boolean x := by
  cases a <;> first
    | exact ⟨_, rfl⟩
    | cases h

/-- An operation on constants of the kinds that it is for is evaluated to one of the kind that it gives, unless it is
a quotient or remainder by zero or one that overflows. -/
theorem binaryOp_of_fits {t : Typing} {op : BinaryOp} {left right result : TypeVar}
    (fits : op.Fits t left right result) (ha : a.IsOf (t.graph.kind left)) (hb : b.IsOf (t.graph.kind right))
    (fa : a.FloatFree) (fb : b.FloatFree)
    (safe : op = .divide ∨ op = .modulo → b ≠ integer 0 ∧ ¬ (a = integer Int64.minValue ∧ b = integer (-1))) :
    ∃ c, binaryOp op a b = some c ∧ c.IsOf (t.graph.kind result) := by
  obtain ⟨hboth, fits⟩ := fits
  rw [← TypeGraph.kind_eq_of_same hboth] at hb
  cases op with
  | equal | notEqual =>
    have hresult : t.graph.kind result = .boolean := fits
    rw [hresult]
    exact ⟨_, rfl, trivial⟩
  | and | or =>
    obtain ⟨hk, hsame⟩ : t.graph.kind left = .boolean ∧ t.graph.Same left result := fits
    rw [← TypeGraph.kind_eq_of_same hsame]
    rw [hk] at ha hb ⊢
    obtain ⟨x, rfl⟩ := exists_boolean ha
    obtain ⟨y, rfl⟩ := exists_boolean hb
    exact ⟨_, rfl, trivial⟩
  | divide | modulo =>
    obtain ⟨hk, hsame⟩ : (t.graph.kind left).isNumeric = true ∧ t.graph.Same left result := fits
    obtain ⟨hinteger, x, rfl⟩ := exists_integer ha hk fa
    obtain ⟨-, y, rfl⟩ := exists_integer hb hk fb
    rw [← TypeGraph.kind_eq_of_same hsame, hinteger]
    obtain ⟨hzero, hleast⟩ := safe (by decide)
    have hne : ¬ (y = 0 ∨ x = Int64.minValue ∧ y = -1) := by
      rintro (rfl | ⟨rfl, rfl⟩)
      · exact hzero rfl
      · exact hleast ⟨rfl, rfl⟩
    exact ⟨_, if_neg hne, trivial⟩
  | less | greater | lessEqual | greaterEqual =>
    obtain ⟨hk, hresult⟩ : (t.graph.kind left).isNumeric = true ∧ t.graph.kind result = .boolean := fits
    obtain ⟨-, x, rfl⟩ := exists_integer ha hk fa
    obtain ⟨-, y, rfl⟩ := exists_integer hb hk fb
    rw [hresult]
    exact ⟨_, rfl, trivial⟩
  | add | subtract | multiply =>
    obtain ⟨hk, hsame⟩ : (t.graph.kind left).isNumeric = true ∧ t.graph.Same left result := fits
    obtain ⟨hinteger, x, rfl⟩ := exists_integer ha hk fa
    obtain ⟨-, y, rfl⟩ := exists_integer hb hk fb
    rw [← TypeGraph.kind_eq_of_same hsame, hinteger]
    exact ⟨_, rfl, trivial⟩

theorem unaryOp_of_fits {t : Typing} {op : UnaryOp} {operand result : TypeVar} (fits : op.Fits t operand result)
    (ha : a.IsOf (t.graph.kind operand)) (fa : a.FloatFree) :
    ∃ c, unaryOp op a = some c ∧ c.IsOf (t.graph.kind result) := by
  cases op with
  | negate =>
    obtain ⟨hk, hsame⟩ := fits
    obtain ⟨hinteger, x, rfl⟩ := exists_integer ha hk fa
    rw [← TypeGraph.kind_eq_of_same hsame, hinteger]
    exact ⟨_, rfl, trivial⟩
  | not =>
    obtain ⟨hk, hsame⟩ := fits
    rw [← TypeGraph.kind_eq_of_same hsame]
    rw [hk] at ha ⊢
    obtain ⟨x, rfl⟩ := exists_boolean ha
    exact ⟨_, rfl, trivial⟩

end Constant

/-! ### What literal expressions are folded to -/

namespace Expr

/-- A constant that an expression is folded to has no floats, holds as many values as the value of the expression and
is it if it is an integer. It always is it if comparisons meet no objects that differ in the order of their members. -/
structure FoldedTo (e : Expr TypeVar) (c : Constant) : Prop where
  defined : ∀ p, ∀ n ∈ e.nodes p, n.2.IsDefined ∧ ¬ n.2.Overflows
  floatFree : c.FloatFree
  count : c.count = e.value.count
  integer : ∀ n, c = .integer n → e.value = .integer n
  exact : ∀ p, (∀ n ∈ e.nodes p, n.2.ComparesAlike) → c = e.value

/-- Expressions in order are folded to constants. -/
structure AllFoldedTo (es : List (Expr TypeVar)) (cs : List Constant) : Prop where
  defined : ∀ p, ∀ n ∈ nodesOf p es, n.2.IsDefined ∧ ¬ n.2.Overflows
  floatFree : Constant.floatsOf cs = []
  count : Constant.countElements 0 cs = Constant.countElements 0 (values es)
  exact : ∀ p, (∀ n ∈ nodesOf p es, n.2.ComparesAlike) → cs = values es

/-- Named expressions are folded to constants. -/
structure MembersFoldedTo (es : List (String × Expr TypeVar)) (ms : List (String × Constant)) : Prop where
  defined : ∀ p, ∀ n ∈ namedNodes p es, n.2.IsDefined ∧ ¬ n.2.Overflows
  floatFree : Constant.floatsOfMembers ms = []
  count : Constant.countMembers 0 ms = Constant.countMembers 0 (namedValues es)
  exact : ∀ p, (∀ n ∈ namedNodes p es, n.2.ComparesAlike) → ms = namedValues es

variable {globals : GlobalValues}

theorem constantOr_eq_ok {what : String} {span : Span} {o : Option Constant} {c : Constant}
    (h : constantOr what span o = .ok c) : o = some c := by
  cases o with
  | none => cases h
  | some d => exact congrArg some (Except.ok.inj h)

theorem constantOr_of_eq_some {what : String} {span : Span} {o : Option Constant} {c : Constant} (h : o = some c) :
    constantOr what span o = .ok c := by
  rw [h, constantOr]

theorem repeated_of_le {v : Constant} {n : Int64} (hsign : 0 ≤ n.toInt)
    (hlimit : n.toInt.toNat * v.count ≤ 2 ^ 20) :
    Constant.repeated v (.integer n) = .ok (.array (List.replicate n.toInt.toNat v)) := by
  have hsign' : ¬ n < 0 := by
    rw [Int64.lt_iff_toInt_lt]
    exact Int.not_lt.mpr hsign
  have hlimit' : ¬ n.toInt.toNat * v.count > Constant.repeatLimit := Nat.not_lt.mpr hlimit
  rw [Constant.repeated, if_neg hsign', if_neg hlimit']

theorem repeated_eq_ok {v size c : Constant} (h : Constant.repeated v size = .ok c) :
    ∃ n : Int64, size = .integer n ∧ 0 ≤ n.toInt ∧ n.toInt.toNat * v.count ≤ 2 ^ 20 ∧
      c = .array (List.replicate n.toInt.toNat v) := by
  unfold Constant.repeated at h
  split at h
  · rename_i n
    split at h
    · cases h
    split at h
    · cases h
    rename_i hsign hlimit
    refine ⟨n, rfl, ?_, ?_, (Except.ok.inj h).symm⟩
    · rw [Int64.lt_iff_toInt_lt] at hsign
      exact Int.not_lt.mp hsign
    · exact Nat.not_lt.mp hlimit
  · cases h

variable {m : Mark TypeVar} {e left right v size : Expr TypeVar} {c d s : Constant}

theorem FoldedTo.literal {l : Literal} (h : (Expr.literal m l).isLiteral = true) :
    (Expr.literal m l).FoldedTo (.ofLiteral l) where
  defined p n hn := by
    obtain rfl := List.mem_singleton.1 hn
    exact ⟨trivial, id⟩
  floatFree := by cases l <;> first | rfl | cases h
  count := rfl
  integer _ h := h
  exact _ _ := rfl

theorem FoldedTo.array {es : List (Expr TypeVar)} {cs : List Constant} (h : AllFoldedTo es cs) :
    (Expr.array m es).FoldedTo (.array cs) where
  defined p := List.forall_mem_cons.2 ⟨⟨trivial, id⟩, h.defined p⟩
  floatFree := h.floatFree
  count := by rw [value, Constant.count_array, Constant.count_array, h.count]
  integer _ h := by cases h
  exact p hp := congrArg _ (h.exact p (List.forall_mem_cons.1 hp).2)

theorem FoldedTo.object {es : List (String × Expr TypeVar)} {ms : List (String × Constant)}
    (h : MembersFoldedTo es ms) : (Expr.object m es).FoldedTo (.object ms) where
  defined p := List.forall_mem_cons.2 ⟨⟨trivial, id⟩, h.defined p⟩
  floatFree := h.floatFree
  count := by rw [value, Constant.count_object, Constant.count_object, h.count]
  integer _ h := by cases h
  exact p hp := congrArg _ (h.exact p (List.forall_mem_cons.1 hp).2)

theorem FoldedTo.variant {tag : String} (h : e.FoldedTo c) : (Expr.variant m tag e).FoldedTo (.variant tag c) where
  defined p := List.forall_mem_cons.2 ⟨⟨trivial, id⟩, h.defined p⟩
  floatFree := h.floatFree
  count := by rw [value, Constant.count_variant, Constant.count_variant, h.count]
  integer _ h := by cases h
  exact p hp := congrArg _ (h.exact p (List.forall_mem_cons.1 hp).2)

theorem FoldedTo.constant (h : e.FoldedTo c) : (Expr.constant m e).FoldedTo c where
  defined _ := List.forall_mem_cons.2 ⟨⟨trivial, id⟩, h.defined .isolated⟩
  floatFree := h.floatFree
  count := h.count
  integer := h.integer
  exact _ hp := h.exact .isolated (List.forall_mem_cons.1 hp).2

/-- What a repeated array is folded to depends on the size alone, which is the value of its expression. -/
theorem FoldedTo.repeated (hv : v.FoldedTo c) (hsize : size.FoldedTo s) (h : Constant.repeated c s = .ok d) :
    (Expr.repeated m v size).FoldedTo d := by
  obtain ⟨n, rfl, hsign, hlimit, rfl⟩ := repeated_eq_ok h
  have hn : size.value = .integer n := hsize.integer n rfl
  have array : (Expr.repeated m v size).value = .array (List.replicate n.toInt.toNat v.value) := by
    rw [value, hn, Constant.repeatedValue]
  constructor
  case defined =>
    have hdefined : (Expr.repeated m v size).IsDefined := ⟨n, hn, hsign, hv.count ▸ hlimit⟩
    exact fun p => List.forall_mem_cons.2 ⟨⟨hdefined, id⟩, List.forall_mem_append.2 ⟨hv.defined p, hsize.defined _⟩⟩
  case floatFree => exact Constant.floatsOf_replicate hv.floatFree _
  case count =>
    rw [array, Constant.count_array, Constant.count_array, Constant.countElements_replicate,
      Constant.countElements_replicate, hv.count]
  case integer =>
    intro _ h
    cases h
  case exact =>
    intro p hp
    rw [array, hv.exact p (List.forall_mem_append.1 (List.forall_mem_cons.1 hp).2).1]

theorem FoldedTo.unary {op : UnaryOp} (h : e.FoldedTo c) (hop : Constant.unaryOp op c = some d) :
    (Expr.unary m op e).FoldedTo d := by
  have scalar : d.IsScalar := Constant.unaryOp_isScalar h.floatFree hop
  constructor
  case defined => exact fun p => List.forall_mem_cons.2 ⟨⟨trivial, id⟩, h.defined p⟩
  case floatFree => exact scalar.floatFree
  case count => rw [scalar.count, value, (Constant.isScalar_unaryValue ..).count]
  case integer =>
    rintro n rfl
    obtain ⟨x, rfl, hx⟩ := Constant.unaryOp_integer hop
    rw [value, h.integer x rfl, hx]
  case exact =>
    intro p hp
    rw [value, ← h.exact p (List.forall_mem_cons.1 hp).2]
    exact Constant.unaryOp_eq h.floatFree hop

theorem FoldedTo.binary {op : BinaryOp} (hleft : left.FoldedTo c) (hright : right.FoldedTo d)
    (hop : Constant.binaryOp op c d = some s) : (Expr.binary m op left right).FoldedTo s := by
  have scalar : s.IsScalar := Constant.binaryOp_isScalar hleft.floatFree hop
  constructor
  case defined =>
    have divided (hdivides : op = .divide ∨ op = .modulo) : right.value ≠ .integer 0 ∧
        ¬ (left.value = .integer Int64.minValue ∧ right.value = .integer (-1)) := by
      obtain ⟨x, y, rfl, rfl, hzero, hleast⟩ := Constant.binaryOp_divided hdivides hleft.floatFree hop
      rw [hleft.integer x rfl, hright.integer y rfl]
      refine ⟨fun h => hzero (Constant.integer.inj h), fun h => hleast ?_⟩
      exact ⟨Constant.integer.inj h.1, Constant.integer.inj h.2⟩
    refine fun p => List.forall_mem_cons.2 ⟨?_, List.forall_mem_append.2 ⟨hleft.defined p, hright.defined _⟩⟩
    cases op <;> first | exact divided (by decide) | exact ⟨trivial, id⟩
  case floatFree => exact scalar.floatFree
  case count => rw [scalar.count, value, (Constant.isScalar_binaryValue ..).count]
  case integer =>
    rintro n rfl
    obtain ⟨x, y, rfl, rfl, hxy⟩ := Constant.binaryOp_integer hleft.floatFree hop
    rw [value, hleft.integer x rfl, hright.integer y rfl, hxy]
  case exact =>
    intro p hp
    obtain ⟨alike, hp⟩ := List.forall_mem_cons.1 hp
    obtain ⟨hpleft, hpright⟩ := List.forall_mem_append.1 hp
    rw [value, ← hleft.exact p hpleft, ← hright.exact _ hpright]
    refine Constant.binaryOp_eq hleft.floatFree hright.floatFree (fun hequality same => ?_) hop
    rw [hleft.exact p hpleft, hright.exact _ hpright] at same ⊢
    cases op <;> first | exact alike same | cases hequality

theorem AllFoldedTo.cons {es : List (Expr TypeVar)} {cs : List Constant} (h : e.FoldedTo c)
    (hrest : AllFoldedTo es cs) : AllFoldedTo (e :: es) (c :: cs) where
  defined p := List.forall_mem_append.2 ⟨h.defined p, hrest.defined _⟩
  floatFree := List.append_eq_nil_iff.mpr ⟨h.floatFree, hrest.floatFree⟩
  count := by rw [values, Constant.countElements_cons, Constant.countElements_cons, h.count, hrest.count]
  exact p hp := by
    obtain ⟨hp, hprest⟩ := List.forall_mem_append.1 hp
    rw [values, h.exact p hp, hrest.exact _ hprest]

theorem MembersFoldedTo.cons {key : String} {es : List (String × Expr TypeVar)} {ms : List (String × Constant)}
    (h : e.FoldedTo c) (hrest : MembersFoldedTo es ms) : MembersFoldedTo ((key, e) :: es) ((key, c) :: ms) where
  defined p := List.forall_mem_append.2 ⟨h.defined p, hrest.defined _⟩
  floatFree := List.append_eq_nil_iff.mpr ⟨h.floatFree, hrest.floatFree⟩
  count := by rw [namedValues, Constant.countMembers_cons, Constant.countMembers_cons, h.count, hrest.count]
  exact p hp := by
    obtain ⟨hp, hprest⟩ := List.forall_mem_append.1 hp
    rw [namedValues, h.exact p hp, hrest.exact _ hprest]

mutual

theorem fold_foldedTo : (e : Expr TypeVar) → e.isLiteral = true → ∀ {c}, e.fold globals = .ok c → e.FoldedTo c
  | .literal _ v, he, c, h => by
    cases h
    exact .literal he
  | .array _ elements, he, c, h => by
    rw [fold] at h
    obtain ⟨cs, hcs, h⟩ := except_bind_eq_ok_iff.1 h
    cases h
    exact .array (foldAll_foldedTo elements he hcs)
  | .repeated _ v size, he, c, h => by
    obtain ⟨hv, hsize⟩ := Bool.and_eq_true_iff.1 he
    rw [fold] at h
    obtain ⟨cv, hcv, h⟩ := except_bind_eq_ok_iff.1 h
    obtain ⟨cs, hcs, h⟩ := except_bind_eq_ok_iff.1 h
    split at h
    · rename_i hrepeated
      cases h
      exact .repeated (fold_foldedTo v hv hcv) (fold_foldedTo size hsize hcs) hrepeated
    · cases h
  | .object _ members, he, c, h => by
    rw [fold] at h
    obtain ⟨cs, hcs, h⟩ := except_bind_eq_ok_iff.1 h
    cases h
    exact .object (foldNamed_foldedTo members he hcs)
  | .variant _ tag payload, he, c, h => by
    rw [fold] at h
    obtain ⟨cp, hcp, h⟩ := except_bind_eq_ok_iff.1 h
    cases h
    exact .variant (fold_foldedTo payload he hcp)
  | .constant _ v, he, c, h => by
    rw [fold] at h
    exact .constant (fold_foldedTo v he h)
  | .unary _ op operand, he, c, h => by
    rw [fold] at h
    obtain ⟨a, ha, h⟩ := except_bind_eq_ok_iff.1 h
    exact .unary (fold_foldedTo operand he ha) (constantOr_eq_ok h)
  | .binary _ op left right, he, c, h => by
    obtain ⟨hleft, hright⟩ := Bool.and_eq_true_iff.1 he
    rw [fold] at h
    obtain ⟨a, ha, h⟩ := except_bind_eq_ok_iff.1 h
    obtain ⟨b, hb, h⟩ := except_bind_eq_ok_iff.1 h
    exact .binary (fold_foldedTo left hleft ha) (fold_foldedTo right hright hb) (constantOr_eq_ok h)

theorem foldAll_foldedTo : (es : List (Expr TypeVar)) → areLiteral es = true → ∀ {cs},
    foldAll globals es = .ok cs → AllFoldedTo es cs
  | [], _, cs, h => by
    cases h
    exact ⟨fun _ => nofun, rfl, rfl, fun _ _ => rfl⟩
  | e :: rest, hes, cs, h => by
    obtain ⟨he, hrest⟩ := Bool.and_eq_true_iff.1 hes
    rw [foldAll] at h
    obtain ⟨c, hc, h⟩ := except_bind_eq_ok_iff.1 h
    obtain ⟨cs, hcs, h⟩ := except_bind_eq_ok_iff.1 h
    cases h
    exact .cons (fold_foldedTo e he hc) (foldAll_foldedTo rest hrest hcs)

theorem foldNamed_foldedTo : (es : List (String × Expr TypeVar)) → namedLiteral es = true → ∀ {ms},
    foldNamed globals es = .ok ms → MembersFoldedTo es ms
  | [], _, ms, h => by
    cases h
    exact ⟨fun _ => nofun, rfl, rfl, fun _ _ => rfl⟩
  | (key, e) :: rest, hes, ms, h => by
    obtain ⟨he, hrest⟩ := Bool.and_eq_true_iff.1 hes
    rw [foldNamed] at h
    obtain ⟨c, hc, h⟩ := except_bind_eq_ok_iff.1 h
    obtain ⟨ms, hms, h⟩ := except_bind_eq_ok_iff.1 h
    cases h
    exact .cons (fold_foldedTo e he hc) (foldNamed_foldedTo rest hrest hms)

end

/-! ### Which literal expressions are folded -/

variable {g : TypeGraph} {p : Place}

mutual

/-- A well-typed literal expression in which every operation is defined and nothing overflows is folded, to a constant
of its kind. -/
theorem fold_of_isDefined : (e : Expr TypeVar) → e.isLiteral = true → ∀ {p}, e.WellTyped g p →
    (∀ n ∈ e.nodes p, n.2.IsDefined ∧ ¬ n.2.Overflows) → ∃ c, e.fold globals = .ok c ∧ c.IsOf (g.kind e.note)
  | .literal m v, _, p, ht, _ => by
    obtain ⟨r, hr, reason, hdemand⟩ := ht _ List.mem_cons_self
    exact ⟨_, rfl, Constant.isOf_of_accepts v (hr.satisfied hdemand)⟩
  | .array m elements, he, p, ht, hp => by
    obtain ⟨r, hr, element, helement, -⟩ := ht _ List.mem_cons_self
    obtain ⟨x, hkind, -⟩ := hr.satisfied helement
    obtain ⟨cs, hcs⟩ := foldAll_of_isDefined elements he (List.forall_mem_cons.1 ht).2 (List.forall_mem_cons.1 hp).2
    refine ⟨.array cs, by rw [fold, hcs]; rfl, ?_⟩
    change Constant.IsOf _ (g.kind m.note)
    rw [hkind]
    trivial
  | .repeated m v size, he, p, ht, hp => by
    obtain ⟨hv, hsize⟩ := Bool.and_eq_true_iff.1 he
    obtain ⟨r, hr, helement, hinteger⟩ := ht _ List.mem_cons_self
    obtain ⟨x, hkind, -⟩ := hr.satisfied helement
    obtain ⟨⟨⟨n, hn, hsign, hlimit⟩, -⟩, hp⟩ := List.forall_mem_cons.1 hp
    obtain ⟨htv, htsize⟩ := List.forall_mem_append.1 (List.forall_mem_cons.1 ht).2
    obtain ⟨hpv, hpsize⟩ := List.forall_mem_append.1 hp
    obtain ⟨cv, hcv, -⟩ := fold_of_isDefined v hv htv hpv
    obtain ⟨cs, hcs, hsizeKind⟩ := fold_of_isDefined size hsize htsize hpsize
    rw [kind_of_demandsBase hr hinteger fun _ => BaseKind.eq_integer] at hsizeKind
    obtain ⟨-, n', rfl⟩ := Constant.exists_integer hsizeKind rfl (fold_foldedTo size hsize hcs).floatFree
    obtain rfl : n' = n := Constant.integer.inj (((fold_foldedTo size hsize hcs).integer n' rfl).symm.trans hn)
    rw [← (fold_foldedTo v hv hcv).count] at hlimit
    refine ⟨.array (List.replicate n'.toInt.toNat cv), ?_, ?_⟩
    · rw [fold, hcv, hcs]
      simp only [bind, Except.bind, repeated_of_le hsign hlimit]
      rfl
    · change Constant.IsOf _ (g.kind m.note)
      rw [hkind]
      trivial
  | .object m members, he, p, ht, hp => by
    obtain ⟨r, hr, -, hlimit⟩ := ht _ List.mem_cons_self
    obtain ⟨row, order, hkind⟩ := hr.satisfied hlimit
    obtain ⟨cs, hcs⟩ := foldNamed_of_isDefined members he (List.forall_mem_cons.1 ht).2
      (List.forall_mem_cons.1 hp).2
    refine ⟨.object cs, by rw [fold, hcs]; rfl, ?_⟩
    change Constant.IsOf _ (g.kind m.note)
    rw [hkind]
    trivial
  | .variant m tag payload, he, p, ht, hp => by
    obtain ⟨r, hr, hvariant⟩ := ht _ List.mem_cons_self
    obtain ⟨row, isOpen, x, hkind, -⟩ := hr.satisfied hvariant
    obtain ⟨c, hc, -⟩ := fold_of_isDefined payload he (List.forall_mem_cons.1 ht).2 (List.forall_mem_cons.1 hp).2
    refine ⟨.variant tag c, by rw [fold, hc]; rfl, ?_⟩
    change Constant.IsOf _ (g.kind m.note)
    rw [hkind]
    trivial
  | .constant m v, he, p, ht, hp => by
    obtain ⟨r, hr, hnote⟩ := ht _ List.mem_cons_self
    obtain ⟨c, hc, hkind⟩ := fold_of_isDefined v he (List.forall_mem_cons.1 ht).2 (List.forall_mem_cons.1 hp).2
    refine ⟨c, by rw [fold, hc], ?_⟩
    change Constant.IsOf _ (g.kind m.note)
    rw [hnote]
    exact hkind
  | .unary m op operand, he, p, ht, hp => by
    obtain ⟨r, hr, hrecorded⟩ := ht _ List.mem_cons_self
    have fits : op.Fits ⟨g, fun _ _ _ _ => False, []⟩ operand.note m.note := LowerM.unary_fits hr hrecorded
    obtain ⟨a, ha, hkind⟩ := fold_of_isDefined operand he (List.forall_mem_cons.1 ht).2 (List.forall_mem_cons.1 hp).2
    obtain ⟨c, hc, hkind⟩ := Constant.unaryOp_of_fits fits hkind (fold_foldedTo operand he ha).floatFree
    refine ⟨c, ?_, hkind⟩
    rw [fold, ha]
    exact constantOr_of_eq_some hc
  | .binary m op left right, he, p, ht, hp => by
    obtain ⟨hleft, hright⟩ := Bool.and_eq_true_iff.1 he
    obtain ⟨r, hr, hrecorded⟩ := ht _ List.mem_cons_self
    have fits : op.Fits ⟨g, fun _ _ _ _ => False, []⟩ left.note right.note m.note := LowerM.binary_fits hr hrecorded
    obtain ⟨htleft, htright⟩ := List.forall_mem_append.1 (List.forall_mem_cons.1 ht).2
    obtain ⟨hdefined, hp⟩ := List.forall_mem_cons.1 hp
    obtain ⟨hpleft, hpright⟩ := List.forall_mem_append.1 hp
    obtain ⟨a, ha, hkindLeft⟩ := fold_of_isDefined left hleft htleft hpleft
    obtain ⟨b, hb, hkindRight⟩ := fold_of_isDefined right hright htright hpright
    have fa := fold_foldedTo left hleft ha
    have fb := fold_foldedTo right hright hb
    have safe (hdivides : op = .divide ∨ op = .modulo) :
        b ≠ .integer 0 ∧ ¬ (a = .integer Int64.minValue ∧ b = .integer (-1)) := by
      have hvalues : right.value ≠ .integer 0 ∧
          ¬ (left.value = .integer Int64.minValue ∧ right.value = .integer (-1)) := by
        rcases hdivides with rfl | rfl <;> exact hdefined
      exact ⟨fun h => hvalues.1 (fb.integer 0 h), fun h => hvalues.2 ⟨fa.integer _ h.1, fb.integer _ h.2⟩⟩
    obtain ⟨c, hc, hkind⟩ :=
      Constant.binaryOp_of_fits fits hkindLeft hkindRight fa.floatFree fb.floatFree safe
    refine ⟨c, ?_, hkind⟩
    rw [fold, ha, hb]
    exact constantOr_of_eq_some hc

theorem foldAll_of_isDefined : (es : List (Expr TypeVar)) → areLiteral es = true → ∀ {p},
    (∀ n ∈ nodesOf p es, ∃ r : Records, r.Hold g ∧ n.2.Recorded r n.1) →
      (∀ n ∈ nodesOf p es, n.2.IsDefined ∧ ¬ n.2.Overflows) → ∃ cs, foldAll globals es = .ok cs
  | [], _, _, _, _ => ⟨[], rfl⟩
  | e :: rest, hes, p, ht, hp => by
    obtain ⟨he, hrest⟩ := Bool.and_eq_true_iff.1 hes
    obtain ⟨hte, htrest⟩ := List.forall_mem_append.1 ht
    obtain ⟨hpe, hprest⟩ := List.forall_mem_append.1 hp
    obtain ⟨c, hc, -⟩ := fold_of_isDefined e he hte hpe
    obtain ⟨cs, hcs⟩ := foldAll_of_isDefined rest hrest htrest hprest
    exact ⟨c :: cs, by rw [foldAll, hc, hcs]; rfl⟩

theorem foldNamed_of_isDefined : (es : List (String × Expr TypeVar)) → namedLiteral es = true → ∀ {p},
    (∀ n ∈ namedNodes p es, ∃ r : Records, r.Hold g ∧ n.2.Recorded r n.1) →
      (∀ n ∈ namedNodes p es, n.2.IsDefined ∧ ¬ n.2.Overflows) → ∃ ms, foldNamed globals es = .ok ms
  | [], _, _, _, _ => ⟨[], rfl⟩
  | (key, e) :: rest, hes, p, ht, hp => by
    obtain ⟨he, hrest⟩ := Bool.and_eq_true_iff.1 hes
    obtain ⟨hte, htrest⟩ := List.forall_mem_append.1 ht
    obtain ⟨hpe, hprest⟩ := List.forall_mem_append.1 hp
    obtain ⟨c, hc, -⟩ := fold_of_isDefined e he hte hpe
    obtain ⟨ms, hms⟩ := foldNamed_of_isDefined rest hrest htrest hprest
    exact ⟨(key, c) :: ms, by rw [foldNamed, hc, hms]; rfl⟩

end

/-- A well-typed literal expression is folded if and only if every operation in it is defined and no quotient or
remainder of the least integer by `-1` is in it. It is folded to its value, where comparisons in it meet no objects
that differ in nothing but the order of their members. -/
theorem fold_literal {e : Expr TypeVar} (he : e.isLiteral = true) (ht : e.WellTyped g p)
    (globals : GlobalValues) :
    ((∃ c, e.fold globals = .ok c) ↔ ∀ n ∈ e.nodes p, n.2.IsDefined ∧ ¬ n.2.Overflows) ∧
      ((∀ n ∈ e.nodes p, n.2.ComparesAlike) → ∀ c, e.fold globals = .ok c → c = e.value) := by
  refine ⟨⟨?_, fun hp => ?_⟩, fun hp c hc => (fold_foldedTo e he hc).exact p hp⟩
  · rintro ⟨c, hc⟩
    exact (fold_foldedTo e he hc).defined p
  · obtain ⟨c, hc, -⟩ := fold_of_isDefined e he ht hp
    exact ⟨c, hc⟩

end Expr

/-! ### Accepted expressions -/

/-- In a kept body without references, what is demanded at the nodes is met when its constraints are applied. -/
theorem Accepted.wellTyped {table : SymbolTable} {id : Nat} {v : Variant} {g : TypeGraph}
    (h : Accepted table id v g) {body : List (Expr TypeVar)} (hbody : v.body = some body)
    (hreferences : Expr.references body = []) :
    ∃ g' p, g'.Sharpens g ∧ ∀ n ∈ Expr.nodesOf p body, ∃ r : Records, r.Hold g' ∧ n.2.Recorded r n.1 := by
  cases h with
  | bodiless => cases hbody
  | @drafted symbol draft d b _ w w₁ w₂ w₃ _ _ hdraft hdrafted happlied hbound hgraph =>
    cases hbody
    have hdrafted := (SolveM.draft_ok hdrafted).1
    obtain ⟨p, s, hmade, hregional⟩ : ∃ p s, d.Made p ∧ d.Regional w₁.graph s := by
      unfold Symbol.draft? at hdraft
      split at hdraft <;> cases hdraft
      · exact ⟨_, _, .procedure hdrafted, Draft.ofProcedure_regional hdrafted⟩
      · exact ⟨_, _, .moduleVariable hdrafted, Draft.ofVariable_regional hdrafted⟩
    obtain ⟨hclosed, hconstraints, -⟩ := hregional
    have hhold := (Constraint.forM_apply_holds hclosed hconstraints (SolveM.applyAll_ok happlied)).2
    have hsame := (Binder.exprs_rebinds (Settles.answers_true b) d.body hbound).unchanged .isolated hreferences
    exact ⟨w₂.graph, p, hgraph, fun n hn => ⟨d.records, hhold, hmade.recorded n (hsame ▸ hn)⟩⟩

/-- The kept value of a module variable is well-typed if it refers to nothing. -/
theorem wellTyped_of_keptValue {value : Expr Unit} {e : Expr TypeVar} (h : keptValue value = some e)
    (hreferences : Expr.references [e] = []) : ∃ g p, e.WellTyped g p := by
  unfold keptValue at h
  split at h
  · rename_i hbody
    cases h
    obtain ⟨v, hv, hbody⟩ := Option.bind_eq_some_iff.mp hbody
    have hfresh : ((Program.empty .modules).add ⟨.single "value", .none, .moduleVariable value⟩).2.Fresh :=
      Program.add_fresh (Program.empty_fresh _) _
    have accepted := Program.check_accepted hfresh ⟨[.single "value"], false⟩ (k := ⟨0, 0⟩) hv
    obtain ⟨g, p, -, typed⟩ := accepted.wellTyped hbody hreferences
    exact ⟨g, p, fun n hn => typed n (List.mem_append_left _ hn)⟩
  · cases h

/-- `{ q = -7 / 2, all = [true and 1 < 2; 3] }` -/
def quotient : Expr Unit :=
  let m : Mark Unit := ⟨.none, ()⟩
  let number (i : Int64) : Expr Unit := .literal m (.integer i)
  .object m [("q", .binary m .divide (.unary m .negate (number 7)) (number 2)),
    ("all", .repeated m (.binary m .and (.literal m (.boolean true)) (.binary m .less (number 1) (number 2)))
      (number 3))]

def quotientKept : Expr TypeVar :=
  let m (i : Nat) : Mark TypeVar := ⟨.none, ⟨i⟩⟩
  let number (i : Nat) (n : Int64) : Expr TypeVar := .literal (m i) (.integer n)
  .object (m 1) [("q", .binary (m 2) .divide (.unary (m 2) .negate (number 2 7)) (number 3 2)),
    ("all", .repeated (m 9)
      (.binary (m 4) .and (.literal (m 4) (.boolean true)) (.binary (m 7) .less (number 5 1) (number 6 2)))
      (number 8 3))]

/-- It is accepted, and folded to its value. -/
theorem fold_literal_quotient : keptValue quotient = some quotientKept ∧ (∃ g p, quotientKept.WellTyped g p) ∧
    ∀ globals, quotientKept.fold globals =
      .ok (.object [("q", .integer (-3)), ("all", .array (List.replicate 3 (.boolean true)))]) := by
  have kept : keptValue quotient = some quotientKept := by cbv
  obtain ⟨g, p, typed⟩ := wellTyped_of_keptValue kept rfl
  refine ⟨kept, ⟨g, p, typed⟩, fun globals => ?_⟩
  obtain ⟨folded, exact⟩ := Expr.fold_literal rfl typed globals
  have defined : ∀ n ∈ quotientKept.nodes p, n.2.IsDefined ∧ ¬ n.2.Overflows := by
    simp only [quotientKept, Expr.nodes, Expr.namedNodes, Expr.IsDefined, Expr.Overflows, Expr.value,
      Constant.ofLiteral, List.forall_mem_cons, List.forall_mem_append, List.not_mem_nil, false_implies,
      implies_true, not_false_eq_true, and_true, true_and, ne_eq, Constant.integer.injEq]
    exact ⟨⟨by decide, fun overflow => absurd overflow.2 (by decide)⟩, 3, rfl, by decide, by decide⟩
  have alike : ∀ n ∈ quotientKept.nodes p, n.2.ComparesAlike := by
    simp [quotientKept, Expr.nodes, Expr.namedNodes, Expr.ComparesAlike]
  obtain ⟨c, hc⟩ := folded.mpr defined
  rw [hc, exact alike c hc]
  rfl

def overflowing : Expr Unit :=
  let m : Mark Unit := ⟨.none, ()⟩
  .binary m .divide (.literal m (.integer Int64.minValue)) (.literal m (.integer (-1)))

def overflowingKept : Expr TypeVar :=
  let m (i : Nat) : Mark TypeVar := ⟨.none, ⟨i⟩⟩
  .binary (m 1) .divide (.literal (m 1) (.integer Int64.minValue)) (.literal (m 2) (.integer (-1)))

/-- The quotient is accepted, divides by no zero and has a value, but is not folded. -/
theorem fold_literal_overflowing : (checkedValue overflowing).1 = [] ∧
    keptValue overflowing = some overflowingKept ∧ overflowingKept.isLiteral = true ∧
    (∃ g p, overflowingKept.WellTyped g p ∧ ∀ n ∈ overflowingKept.nodes p, n.2.IsDefined) ∧
    overflowingKept.value = .integer Int64.minValue ∧
    ∀ globals c, overflowingKept.fold globals ≠ .ok c := by
  have kept : keptValue overflowing = some overflowingKept := by cbv
  obtain ⟨g, p, typed⟩ := wellTyped_of_keptValue kept rfl
  refine ⟨by cbv, kept, rfl, ⟨g, p, typed, ?_⟩, rfl, fun globals c folded => by cases folded⟩
  simp [overflowingKept, Expr.nodes, Expr.IsDefined, Expr.value, Constant.ofLiteral]

end Monomorph
