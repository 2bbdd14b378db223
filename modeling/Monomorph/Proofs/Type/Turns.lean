import Mathlib
import Monomorph.Proofs.Type.Unification

/-! # Turns of the queue

Unification takes pairs from its queue turn by turn. Here nothing makes it end but a limit on the number of turns, and
every turn is noted (`TypeGraph.turns`). A turn drops a pair that already is of one class, or joins two classes and
only then queues the pairs inside (`Turn.Drops`, `Turn.Joins`); so there are fewer joins than classes, on graphs with
cycles too.

The turns are bounded by what the graph holds: a merged type and the pairs that it queues have together no more
variables than the two types that are merged (`Ty.merge_children_length`). So each turn takes at least one away from the
variables inside the types of all classes and the pairs in the queue, counted together (`TypeGraph.unifyAll_turns`).

Main statement: `unify_turns`. -/

namespace Monomorph

/-- One turn of the queue that does not fail. -/
structure Turn where
  before : TypeGraph
  /-- The pair at the head of the queue. -/
  pair : PendingPair
  after : TypeGraph
  /-- The pairs put at the end of the queue. -/
  queued : List PendingPair

namespace Turn

/-- Whether the two variables are of different classes. -/
def isJoin (t : Turn) : Bool := !t.before.same t.pair.left t.pair.right

/-- The pair is of one class and is dropped. -/
structure Drops (t : Turn) : Prop where
  same : t.before.Same t.pair.left t.pair.right
  after : t.after = t.before
  queued : t.queued = []

/-- The pair is of two classes, which are one afterwards. The pairs that are queued stand inside the two types. -/
structure Joins (t : Turn) : Prop where
  apart : ¬t.before.Same t.pair.left t.pair.right
  same_iff : ∀ {v w}, t.after.Same v w ↔ t.before.Same v w ∨
    (t.before.Same v t.pair.left ∨ t.before.Same v t.pair.right) ∧
      (t.before.Same w t.pair.left ∨ t.before.Same w t.pair.right)
  classCount : t.after.classCount + 1 = t.before.classCount
  size : t.after.size = t.before.size
  queued : ∀ p ∈ t.queued, p.left ∈ (t.before.kind t.pair.left).children ∧
    p.right ∈ (t.before.kind t.pair.right).children

end Turn

/-- Unify every pair in the queue in no more than `limit` turns; nothing else makes it end. -/
def TypeGraph.turns (span : Span) : (limit : Nat) → TypeGraph → List PendingPair →
    Option (List Turn × EStateM.Result TypeError TypeGraph Unit)
  | _, g, [] => some ([], .ok () g)
  | 0, _, _ :: _ => none
  | limit + 1, g, p :: rest =>
    if g.same p.left p.right then
      (g.turns span limit rest).map fun run => (⟨g, p, g, []⟩ :: run.1, run.2)
    else
      match (g.get p.left).merge (g.get p.right) with
      | .error clash => some ([], .error (clash.toError span p.path (g.get p.left) (g.get p.right)) g)
      | .ok (type, inner) =>
        let joined := g.joinIndex (g.rootIndex p.left.index) (g.rootIndex p.right.index) type
        let inside := inner.map fun q => ⟨q.left, q.right, q.step :: p.path⟩
        (joined.turns span limit (rest ++ inside)).map fun run => (⟨g, p, joined, inside⟩ :: run.1, run.2)

/-! ### Variables inside merged types -/

theorem Row.insertEntry_length_le {α : Type} (name : String) (value : α) (l : List (String × α)) :
    (insertEntry name value l).length ≤ l.length + 1 := by
  induction l with
  | nil => exact Nat.le_refl _
  | cons e rest ih =>
    obtain ⟨n, v⟩ := e
    simp only [insertEntry]
    split
    · simp
    · split
      · simp
      · simpa using ih

theorem Row.insertMissing_length_le {α : Type} (row acc : Row α) (entries : List (String × α)) :
    (entries.foldl (fun r e => if row.contains e.1 then r else r.insert e.1 e.2) acc).entries.length ≤
      acc.entries.length + entries.countP fun e => !row.contains e.1 := by
  induction entries generalizing acc with
  | nil => simp
  | cons e rest ih =>
    rw [List.foldl_cons, List.countP_cons]
    by_cases he : row.contains e.1 = true
    · simpa [he] using ih acc
    · have hinsert : (acc.insert e.1 e.2).entries.length ≤ acc.entries.length + 1 :=
        insertEntry_length_le e.1 e.2 acc.entries
      have hrest := ih (acc.insert e.1 e.2)
      simp only [he, Bool.false_eq_true, if_false, Bool.not_false, if_true] at hrest ⊢
      omega

/-- Two rows joined and the names they share: together no more than both rows had. -/
theorem Row.extend_add_shared_length_le {α : Type} (row other : Row α) :
    (row.extend other).values.length + (row.shared other).length ≤ row.values.length + other.values.length := by
  have hextend : (row.extend other).entries.length ≤ _ := insertMissing_length_le row row other.entries
  have hshared : (row.shared other).length = other.entries.countP fun e => row.contains e.1 := by
    rw [shared, List.length_filterMap_eq_countP]
    simp only [Option.isSome_map, contains]
  have hsplit := List.length_eq_countP_add_countP (fun e => row.contains e.1) (l := other.entries)
  simp only [values, List.length_map, Bool.not_eq_true, Bool.decide_eq_false] at hextend hsplit ⊢
  omega

theorem argumentPairs_length_le (i : Nat) (as bs : List TypeVar) : (argumentPairs i as bs).length ≤ bs.length := by
  induction bs generalizing i as with
  | nil => cases as <;> exact Nat.le_refl _
  | cons b bs ih =>
    cases as with
    | nil => exact Nat.zero_le _
    | cons a as => simpa [argumentPairs] using ih (i + 1) as

theorem meetRows_length_le {w : RowWords} {step : String → PathStep} {xs ys row : Row TypeVar}
    {xOpen yOpen : Bool} {inner : List InnerPair} (h : meetRows w step xs ys xOpen yOpen = .ok (row, inner)) :
    row.values.length + inner.length ≤ xs.values.length + ys.values.length := by
  obtain ⟨rfl, rfl, -⟩ := meetRows_ok h
  rw [List.length_map]
  exact xs.extend_add_shared_length_le ys

theorem Kind.meet_children_length {a b : Kind} {m : Meet} (h : a.meet b = .ok m) :
    (m.kind a b).children.length + m.inner.length ≤ a.children.length + b.children.length := by
  cases m with
  | left => exact Nat.le_add_right _ _
  | right => exact Nat.le_add_left _ _
  | both kind inner =>
    cases meet_both h with
    | arrays => exact Nat.le_refl _
    | objects hrows => exact meetRows_length_le hrows
    | unions hrows => exact meetRows_length_le hrows
    | @closures xs ys =>
      have hpairs := argumentPairs_length_le 0 xs ys
      simp only [Meet.kind, Meet.inner, children, List.length_append, List.length_singleton]
      omega
    | categories => exact Nat.zero_le _

theorem Ty.merge_children_length {x y t : Ty} {inner : List InnerPair} (h : x.merge y = .ok (t, inner)) :
    t.kind.children.length + inner.length ≤ x.kind.children.length + y.kind.children.length := by
  obtain ⟨m, hm, ht, rfl⟩ := merge_ok h
  rw [ht]
  exact Kind.meet_children_length hm

/-! ### Counting -/

/-- One number less satisfies a condition that excludes one of them. -/
theorem remaining_succ {n : Nat} {p q : Nat → Bool} {r : Nat} (hr : r < n) (hp : p r = true)
    (hq : ∀ {i}, q i = true ↔ p i = true ∧ i ≠ r) : remaining n q + 1 = remaining n p := by
  have hother {i : Nat} (hi : i ≠ r) : q i = p i := by
    rw [Bool.eq_iff_iff, hq, and_iff_left hi]
  unfold remaining
  induction n with
  | zero => exact absurd hr (Nat.not_lt_zero r)
  | succ n ih =>
    simp only [List.range_succ, List.countP_append, List.countP_singleton]
    rcases Nat.lt_succ_iff_lt_or_eq.1 hr with hlt | rfl
    · rw [hother (Nat.ne_of_gt hlt), ← ih hlt]
      omega
    · have hbefore : (List.range r).countP q = (List.range r).countP p :=
        List.countP_congr fun i hi => by rw [hother (Nat.ne_of_lt (List.mem_range.1 hi))]
      have hqr : q r = false := Bool.eq_false_iff.2 fun h => (hq.1 h).2 rfl
      rw [hbefore, hp, hqr]
      simp

theorem sum_map_set {α : Type} (f : α → Nat) {l : List α} {i : Nat} {x : α} (hx : l[i]? = some x) (y : α) :
    ((l.set i y).map f).sum + f x = (l.map f).sum + f y := by
  induction l generalizing i with
  | nil => cases hx
  | cons a rest ih =>
    cases i with
    | zero =>
      cases hx
      simp only [List.set_cons_zero, List.map_cons, List.sum_cons]
      omega
    | succ i =>
      have hrest := ih (i := i) hx
      simp only [List.set_cons_succ, List.map_cons, List.sum_cons]
      omega

namespace TypeGraph

variable {g : TypeGraph}

/-! ### What a join takes away -/

theorem classCount_joinIndex {i j : Nat} {t : Ty} (hi : i < g.size) (hj : j < g.size) (hne : i ≠ j)
    (hrooti : g.rootIndex i = i) (hrootj : g.rootIndex j = j) :
    (g.joinIndex i j t).classCount + 1 = g.classCount := by
  have hroot {k : Nat} : (g.joinIndex i j t).isRoot k = true ↔ g.isRoot k = true ∧ k ≠ max i j := by
    have hk : k = i ∨ k = j → g.rootIndex k = k := by rintro (rfl | rfl) <;> assumption
    rw [isRoot_iff, isRoot_iff, rootIndex_joinIndex hi hj hne hrooti hrootj]
    split <;> omega
  have hmax : g.isRoot (max i j) = true := by
    rw [isRoot_iff]
    rcases Nat.le_total i j with h | h
    · rwa [Nat.max_eq_right h]
    · rwa [Nat.max_eq_left h]
  rw [classCount, classCount, size_joinIndex]
  exact remaining_succ (Nat.max_lt.2 ⟨hi, hj⟩) hmax hroot

theorem classCount_pos (hg : 0 < g.size) : 0 < g.classCount :=
  List.countP_pos_iff.2 ⟨0, List.mem_range.2 hg, isRoot_iff.2 (Nat.le_zero.1 (g.rootIndex_le 0))⟩

/-- The variables inside the types of all classes. -/
def insideCount (g : TypeGraph) : Nat := (g.cells.toList.map fun c => c.vars.length).sum

theorem exists_root_cell {i : Nat} (hi : i < g.size) (hroot : g.rootIndex i = i) :
    ∃ c, g.cells.toList[i]? = some c ∧ c.vars = (g.kind ⟨i⟩).children := by
  have hlt : i < g.cells.size := hi
  refine ⟨g.cells[i], by simp [hlt], ?_⟩
  rw [kind, get_eq_typeAt, hroot, typeAt, Array.getElem?_eq_getElem hlt]
  cases g.cells[i] <;> rfl

theorem insideCount_joinIndex {i j : Nat} {t : Ty} {inner : List InnerPair} (hi : i < g.size) (hj : j < g.size)
    (hne : i ≠ j) (hrooti : g.rootIndex i = i) (hrootj : g.rootIndex j = j)
    (hmerge : (g.get ⟨i⟩).merge (g.get ⟨j⟩) = .ok (t, inner)) :
    (g.joinIndex i j t).insideCount + inner.length ≤ g.insideCount := by
  obtain ⟨c, hc, hcvars⟩ := exists_root_cell hi hrooti
  obtain ⟨d, hd, hdvars⟩ := exists_root_cell hj hrootj
  have hlength := Ty.merge_children_length hmerge
  have hboth : ∃ x y, g.cells.toList[min i j]? = some x ∧ g.cells.toList[max i j]? = some y ∧
      x.vars.length + y.vars.length = (g.kind ⟨i⟩).children.length + (g.kind ⟨j⟩).children.length := by
    rcases Nat.le_total i j with h | h
    · rw [Nat.min_eq_left h, Nat.max_eq_right h]
      exact ⟨c, d, hc, hd, by rw [hcvars, hdvars]⟩
    · rw [Nat.min_eq_right h, Nat.max_eq_left h]
      exact ⟨d, c, hd, hc, by rw [hcvars, hdvars, Nat.add_comm]⟩
  obtain ⟨x, y, hx, hy, hxy⟩ := hboth
  have hy : (g.cells.toList.set (min i j) (.root t))[max i j]? = some y := by
    rw [List.getElem?_set_ne (by omega), hy]
  have hroot : _ + x.vars.length = g.insideCount + t.kind.children.length :=
    sum_map_set (fun c : Cell => c.vars.length) hx (.root t)
  have hlink := sum_map_set (fun c : Cell => c.vars.length) hy (.link (min i j))
  rw [← Array.toList_setIfInBounds] at hroot hlink
  rw [← Array.toList_setIfInBounds] at hlink
  change (g.joinIndex i j t).insideCount + y.vars.length = _ + 0 at hlink
  simp only [kind] at hxy
  omega

/-! ### Turns -/

theorem turn_joins {p : PendingPair} {t : Ty} {inner : List InnerPair} (ha : p.left.index < g.size)
    (hb : p.right.index < g.size) (hne : g.rootIndex p.left.index ≠ g.rootIndex p.right.index)
    (hmerge : (g.get p.left).merge (g.get p.right) = .ok (t, inner)) :
    Turn.Joins ⟨g, p, g.joinIndex (g.rootIndex p.left.index) (g.rootIndex p.right.index) t,
      inner.map fun q => ⟨q.left, q.right, q.step :: p.path⟩⟩ := by
  have hi := rootIndex_lt_size ha
  have hj := rootIndex_lt_size hb
  have hrooti := g.rootIndex_rootIndex p.left.index
  have hrootj := g.rootIndex_rootIndex p.right.index
  refine ⟨fun h => hne (same_iff.1 h), ?_, classCount_joinIndex hi hj hne hrooti hrootj, size_joinIndex .., ?_⟩
  · intro v w
    rw [same_joinIndex_iff hi hj hne hrooti hrootj]
    simp only [same_iff]
  · intro q hq
    obtain ⟨r, hr, rfl⟩ := List.mem_map.1 hq
    exact (Ty.merge_vars hmerge).2 r hr

/-- What a run of the queue comes to from the graph `g`: the graph at its end, however it ends, has as many variables
and as many classes less as classes were joined. -/
def Counted (g : TypeGraph) (turns : List Turn) : EStateM.Result TypeError TypeGraph Unit → Prop
  | .ok _ g' | .error _ g' => g'.size = g.size ∧ g'.classCount + turns.countP Turn.isJoin = g.classCount

theorem Counted.cons {t : Turn} {turns : List Turn} {result : EStateM.Result TypeError TypeGraph Unit}
    (h : t.after.Counted turns result) (ht : t.Drops ∨ t.Joins) : t.before.Counted (t :: turns) result := by
  have hstep : t.after.size = t.before.size ∧
      t.after.classCount + (if t.isJoin = true then 1 else 0) = t.before.classCount := by
    rcases ht with hdrop | hjoin
    · have hisJoin : t.isJoin = false := by
        rw [Turn.isJoin, hdrop.same, Bool.not_true]
      rw [hdrop.after, hisJoin]
      exact ⟨rfl, rfl⟩
    · have hisJoin : t.isJoin = true := by
        rw [Turn.isJoin, Bool.eq_false_iff.2 hjoin.apart, Bool.not_false]
      rw [hisJoin, if_pos rfl]
      exact ⟨hjoin.size, hjoin.classCount⟩
  obtain ⟨hsize, hclasses⟩ := hstep
  cases result <;>
  · obtain ⟨hsize', hclasses'⟩ := h
    refine ⟨hsize'.trans hsize, ?_⟩
    rw [List.countP_cons, ← hclasses, ← hclasses', Nat.add_assoc]

/-- Taken turn by turn, the queue comes to the end that `unifyAll` comes to, after no more turns than there are
variables inside the types of the graph and pairs in the queue. -/
theorem unifyAll_turns (span : Span) (g : TypeGraph) (queue : List PendingPair) {s : Set TypeVar}
    (hs : g.Closed s) (hqueue : ∀ p ∈ queue, g.Known s p.left ∧ g.Known s p.right) :
    ∀ limit, g.insideCount + queue.length ≤ limit →
      ∃ turns, g.turns span limit queue = some (turns, g.unifyAll span queue) ∧ turns.length ≤ limit ∧
        (∀ t ∈ turns, t.Drops ∨ t.Joins) ∧ g.Counted turns (g.unifyAll span queue) := by
  fun_induction unifyAll span g queue with
  | case1 g =>
    intro limit _
    refine ⟨[], ?_, Nat.zero_le _, List.forall_mem_nil _, rfl, rfl⟩
    cases limit <;> rfl
  | case2 g a b path rest i j hroots x y clash hmerge =>
    rintro (_ | limit) hlimit
    · cases hlimit
    have happart : g.same a b = false := Bool.eq_false_iff.2 fun h => hroots.1 (same_iff.1 h)
    refine ⟨[], ?_, Nat.zero_le _, List.forall_mem_nil _, rfl, rfl⟩
    rw [turns, happart, if_neg Bool.false_ne_true, hmerge]
  | case3 g a b path rest i j hroots x y t inner hmerge ih =>
    rintro (_ | limit) hlimit
    · cases hlimit
    obtain ⟨hne, hi, hj⟩ := hroots
    have hrooti : g.rootIndex i = i := g.rootIndex_rootIndex _
    have hrootj : g.rootIndex j = j := g.rootIndex_rootIndex _
    obtain ⟨ha, hb⟩ := hqueue _ List.mem_cons_self
    have hvars := Ty.merge_vars hmerge
    have hinner : ∀ p ∈ inner, g.Known s p.left ∧ g.Known s p.right := fun p hp =>
      (hvars.2 p hp).imp (hs.child ha.1) (hs.child hb.1)
    have hclosed : (g.joinIndex i j t).Closed s :=
      hs.joinIndex (hs.root ha) (hs.root hb) hne hrooti hrootj fun w hw =>
        (hvars.1 w hw).elim (hs.child ha.1) (hs.child hb.1)
    have hmerge' : (g.get ⟨i⟩).merge (g.get ⟨j⟩) = .ok (t, inner) := by
      rw [get_eq_of_same (g.same_root a), get_eq_of_same (g.same_root b)]
      exact hmerge
    have hinside := insideCount_joinIndex hi hj hne hrooti hrootj hmerge'
    obtain ⟨turns, hturns, hlength, hall, hcounted⟩ := ih hclosed (by
      simp only [Known, size_joinIndex, List.forall_mem_append, List.forall_mem_map]
      exact ⟨fun p hp => hqueue p (List.mem_cons_of_mem _ hp), hinner⟩) limit (by
        simp only [List.length_append, List.length_map, List.length_cons] at hlimit ⊢
        omega)
    have happart : g.same a b = false := Bool.eq_false_iff.2 fun h => hne (same_iff.1 h)
    have hjoins := turn_joins (p := ⟨a, b, path⟩) ha.2 hb.2 hne hmerge
    refine ⟨_ :: turns, ?_, Nat.succ_le_succ hlength, List.forall_mem_cons.2 ⟨.inr hjoins, hall⟩, ?_⟩
    · rw [TypeGraph.turns, happart, if_neg Bool.false_ne_true, hmerge]
      exact congrArg (Option.map _) hturns
    · exact Counted.cons hcounted (.inr hjoins)
  | case4 g a b path rest i j hroots ih =>
    rintro (_ | limit) hlimit
    · cases hlimit
    obtain ⟨ha, hb⟩ := hqueue _ List.mem_cons_self
    have hsame : g.Same a b := by
      have hij : i = j := by
        by_contra hne
        exact hroots ⟨hne, rootIndex_lt_size ha.2, rootIndex_lt_size hb.2⟩
      exact same_iff.2 hij
    obtain ⟨turns, hturns, hlength, hall, hcounted⟩ := ih hs (fun p hp => hqueue p (List.mem_cons_of_mem _ hp))
      limit (by simp only [List.length_cons] at hlimit; omega)
    have hdrops : Turn.Drops ⟨g, ⟨a, b, path⟩, g, []⟩ := ⟨hsame, rfl, rfl⟩
    refine ⟨_ :: turns, ?_, Nat.succ_le_succ hlength, List.forall_mem_cons.2 ⟨.inl hdrops, hall⟩, ?_⟩
    · rw [TypeGraph.turns, if_pos (show g.same a b = true from hsame), hturns]
      rfl
    · exact Counted.cons hcounted (.inl hdrops)

end TypeGraph

/-- **Unification ends**, on graphs with cycles too: after no more turns of the queue than one and one for each
variable inside the types of the graph. Each turn drops a pair that is of one class or joins two classes before the
pairs inside are looked at; so fewer classes are joined than there are at the start. No variable is allocated. -/
theorem unify_turns {g : TypeGraph} (hg : g.WellFormed) {a b : TypeVar} (ha : a.index < g.size)
    (hb : b.index < g.size) (span : Span) :
    ∃ turns, g.turns span (g.insideCount + 1) [⟨a, b, []⟩] = some (turns, unify a b span g) ∧
      turns.length ≤ g.insideCount + 1 ∧ (∀ t ∈ turns, t.Drops ∨ t.Joins) ∧
      turns.countP Turn.isJoin < g.classCount ∧
      match unify a b span g with
      | .ok _ g' | .error _ g' =>
        g'.size = g.size ∧ g'.classCount + turns.countP Turn.isJoin = g.classCount := by
  obtain ⟨turns, hturns, hlength, hall, hcounted⟩ := TypeGraph.unifyAll_turns span g [⟨a, b, []⟩] hg.closed
    (fun p hp => by cases List.mem_singleton.1 hp; exact ⟨⟨trivial, ha⟩, trivial, hb⟩) (g.insideCount + 1)
    (Nat.le_refl _)
  refine ⟨turns, hturns, hlength, hall, ?_, hcounted⟩
  have hsize : 0 < g.size := Nat.zero_lt_of_lt ha
  have hfewer {g' : TypeGraph} (h : g'.size = g.size ∧ g'.classCount + turns.countP Turn.isJoin = g.classCount) :
      turns.countP Turn.isJoin < g.classCount := by
    have hpos := TypeGraph.classCount_pos (h.1.symm ▸ hsize)
    omega
  generalize g.unifyAll span [⟨a, b, []⟩] = result at hcounted
  cases result <;> exact hfewer hcounted

/-- An array of itself and an array of an array of it: the pairs inside come back to the two variables, and of three
classes two are joined. -/
theorem unify_turns_cycle :
    let g : TypeGraph := ⟨#[.root ⟨.array ⟨0⟩, none⟩, .root ⟨.array ⟨2⟩, none⟩, .root ⟨.array ⟨1⟩, none⟩]⟩
    g.WellFormed ∧ ∃ turns, g.turns .none 4 [⟨⟨0⟩, ⟨1⟩, []⟩] = some (turns, unify ⟨0⟩ ⟨1⟩ .none g) ∧
      turns.map Turn.isJoin = [true, true, false] := by
  intro g
  have hg : g.WellFormed := TypeGraph.wellFormed_of_cells (by decide)
  obtain ⟨turns, hturns, -, -, -, -⟩ := unify_turns hg (show 0 < g.size by decide) (show 1 < g.size by decide) .none
  refine ⟨hg, turns, hturns, ?_⟩
  have hjoins : (g.turns .none 4 [⟨⟨0⟩, ⟨1⟩, []⟩]).map (fun run => run.1.map Turn.isJoin) =
      some [true, true, false] := by
    cbv
  rw [show g.insideCount + 1 = 4 by cbv] at hturns
  rw [hturns] at hjoins
  exact Option.some.inj hjoins

end Monomorph
