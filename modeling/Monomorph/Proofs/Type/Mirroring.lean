import Monomorph.Proofs.Outcome
import Monomorph.Proofs.Type.Copying
import Monomorph.Proofs.Type.Reordering

/-! # Mirror images behave alike

Unifying variables of a part of a graph and unifying their images take the same turns: the types merged
are the same up to the images (`Ty.merge_mapVars`), and joining two classes and their images gives mirror
images again (`TypeGraph.Mirrors.joinIndex`). So both runs end alike (`TypeGraph.Mirrors.unifyAll`), with
the same error if they fail. A variable and its image display the same (`TypeGraph.Mirrors.display`). -/

namespace Monomorph

open Outcome

/-! ### Merging images -/

def InnerPair.mapVars (f : TypeVar → TypeVar) (p : InnerPair) : InnerPair := ⟨f p.left, f p.right, p.step⟩

def Meet.mapVars (f : TypeVar → TypeVar) : Meet → Meet
  | left => left
  | right => right
  | both kind inner => both (kind.mapVars f) (inner.map (InnerPair.mapVars f))

section merge

variable (f : TypeVar → TypeVar)

theorem meetRows_map (words : RowWords) (step : String → PathStep) (a b : Row TypeVar)
    (aOpen bOpen : Bool) :
    meetRows words step (a.map f) (b.map f) aOpen bOpen =
      (meetRows words step a b aOpen bOpen).map fun p => (p.1.map f, p.2.map (InnerPair.mapVars f)) := by
  unfold meetRows
  rw [Row.firstMissing?_map, Row.firstMissing?_map, Row.extend_map, Row.shared_map]
  split
  · rfl
  · split
    · rfl
    · simp [Except.map, InnerPair.mapVars, Function.comp_def]

theorem argumentPairs_map (i : Nat) (as bs : List TypeVar) :
    argumentPairs i (as.map f) (bs.map f) = (argumentPairs i as bs).map (InnerPair.mapVars f) := by
  induction as generalizing i bs with
  | nil => rfl
  | cons a as ih =>
    cases bs with
    | nil => rfl
    | cons b bs => exact congrArg _ (ih (i + 1) bs)

namespace Kind

@[simp] theorem isNumeric_mapVars (k : Kind) : (k.mapVars f).isNumeric = k.isNumeric := by cases k <;> rfl
@[simp] theorem isIndexed_mapVars (k : Kind) : (k.mapVars f).isIndexed = k.isIndexed := by cases k <;> rfl
@[simp] theorem isSequence_mapVars (k : Kind) : (k.mapVars f).isSequence = k.isSequence := by cases k <;> rfl
@[simp] theorem isReferenced_mapVars (k : Kind) : (k.mapVars f).isReferenced = k.isReferenced := by
  cases k <;> rfl
@[simp] theorem describe_mapVars (k : Kind) : (k.mapVars f).describe = k.describe := by cases k <;> rfl

theorem meet_objects_map (xs ys : Row TypeVar) (xOpen yOpen : Bool) (xOrder yOrder : Option (List String)) :
    meet.objects (xs.map f) xOpen xOrder (ys.map f) yOpen yOrder =
      (meet.objects xs xOpen xOrder ys yOpen yOrder).map (Meet.mapVars f) := by
  unfold meet.objects
  rw [meetRows_map]
  cases meetRows .object .member xs ys xOpen yOpen <;> rfl

theorem meet_mapVars (a b : Kind) :
    (a.mapVars f).meet (b.mapVars f) = (a.meet b).map (Meet.mapVars f) := by
  cases a <;> cases b
  case object.object xs xOpen xOrder ys yOpen yOrder =>
    simp only [mapVars, meet]
    rw [meet_objects_map]
    split
    · split <;> rfl
    · rfl
  case union.union xs xOpen ys yOpen =>
    simp only [mapVars, meet]
    rw [meetRows_map]
    cases meetRows .union .variant xs ys xOpen yOpen <;> rfl
  case closure.closure xs x ys y =>
    simp only [mapVars, meet, List.length_map, argumentPairs_map]
    split
    · rfl
    · simp [Except.map, Meet.mapVars, InnerPair.mapVars, mapVars]
  all_goals rfl

end Kind

theorem Ty.merge_mapVars (x y : Ty) :
    (x.mapVars f).merge (y.mapVars f) =
      (x.merge y).map fun p => (p.1.mapVars f, p.2.map (InnerPair.mapVars f)) := by
  simp only [Ty.merge, Ty.mapVars, Kind.meet_mapVars]
  cases x.kind.meet y.kind with
  | error clash => rfl
  | ok m => cases m <;> rfl

end merge

namespace TypeGraph

variable {g h : TypeGraph} {s : Set TypeVar} {f : TypeVar → TypeVar} {v w : TypeVar}

/-! ### Unifying images -/

/-- A variable is in a class exactly if its image is in the image of the class. -/
theorem Mirrors.root_iff (hm : Mirrors s f g h) (hv : v ∈ s) (hw : w ∈ s) :
    h.rootIndex (f v).index = h.rootIndex (f w).index ↔ g.rootIndex v.index = g.rootIndex w.index := by
  rw [← same_iff, ← same_iff]
  exact hm.same hv hw

theorem Mirrors.joinIndex (hm : Mirrors s f g h) {a b : TypeVar} (ha : a ∈ s) (hb : b ∈ s)
    (hne : g.rootIndex a.index ≠ g.rootIndex b.index) {t : Ty} (ht : ∀ w ∈ t.kind.children, w ∈ s) :
    Mirrors s f (g.joinIndex (g.rootIndex a.index) (g.rootIndex b.index) t)
      (h.joinIndex (h.rootIndex (f a).index) (h.rootIndex (f b).index) (t.mapVars f)) := by
  have hi := rootIndex_lt_size (hm.allocated ha).1
  have hj := rootIndex_lt_size (hm.allocated hb).1
  have hi' := rootIndex_lt_size (hm.allocated ha).2
  have hj' := rootIndex_lt_size (hm.allocated hb).2
  have hne' : h.rootIndex (f a).index ≠ h.rootIndex (f b).index := fun h => hne ((hm.root_iff ha hb).1 h)
  have hrooti := g.rootIndex_rootIndex a.index
  have hrootj := g.rootIndex_rootIndex b.index
  have hrooti' := h.rootIndex_rootIndex (f a).index
  have hrootj' := h.rootIndex_rootIndex (f b).index
  have hroot {v : TypeVar} (hv : v ∈ s) : v ∈ s → (⟨g.rootIndex v.index⟩ : TypeVar) ∈ s :=
    fun hv => hm.region.same hv (g.same_equivalence.symm (g.same_root v))
  refine ⟨(within_joinIndex hm.region hi hj hne hrooti hrootj (hroot ha ha) (hroot hb hb) ht).region,
    fun hv => ?_, fun {v w} hv hw => ?_, fun {v} hv => ?_⟩
  · rw [size_joinIndex, size_joinIndex]
    exact hm.allocated hv
  · rw [same_joinIndex_iff hi hj hne hrooti hrootj, same_joinIndex_iff hi' hj' hne' hrooti' hrootj',
      hm.same hv hw, hm.root_iff hv ha, hm.root_iff hv hb, hm.root_iff hw ha, hm.root_iff hw hb]
  · rw [get_joinIndex hi hj hne hrooti hrootj, get_joinIndex hi' hj' hne' hrooti' hrootj', hm.type hv]
    simp only [hm.root_iff hv ha, hm.root_iff hv hb]
    split <;> rfl

/-- Two classes are to be joined exactly if their images are. -/
theorem Mirrors.joins_iff (hm : Mirrors s f g h) (hv : v ∈ s) (hw : w ∈ s) :
    (h.rootIndex (f v).index ≠ h.rootIndex (f w).index ∧ h.rootIndex (f v).index < h.size ∧
        h.rootIndex (f w).index < h.size) ↔
      (g.rootIndex v.index ≠ g.rootIndex w.index ∧ g.rootIndex v.index < g.size ∧
        g.rootIndex w.index < g.size) := by
  refine and_congr (not_congr (hm.root_iff hv hw)) (iff_of_true ?_ ?_)
  · exact ⟨rootIndex_lt_size (hm.allocated hv).2, rootIndex_lt_size (hm.allocated hw).2⟩
  · exact ⟨rootIndex_lt_size (hm.allocated hv).1, rootIndex_lt_size (hm.allocated hw).1⟩

/-- Unifying pairs and unifying their images end alike. -/
theorem Mirrors.unifyAll (hm : Mirrors s f g h) (span : Span) {queue : List PendingPair}
    (hqueue : ∀ p ∈ queue, p.left ∈ s ∧ p.right ∈ s) :
    Alike (Mirrors s f) (g.unifyAll span queue)
      (h.unifyAll span (queue.map fun p => ⟨f p.left, f p.right, p.path⟩)) := by
  fun_induction TypeGraph.unifyAll span g queue generalizing h with
  | case1 =>
    rw [List.map_nil, TypeGraph.unifyAll]
    exact ⟨rfl, hm⟩
  | case2 g a b path rest i j hroots x y clash =>
    rename_i hmerge
    obtain ⟨ha, hb⟩ := hqueue _ List.mem_cons_self
    rw [List.map_cons, TypeGraph.unifyAll, dif_pos ((hm.joins_iff ha hb).2 hroots)]
    simp only [hm.type ha, hm.type hb, Ty.merge_mapVars]
    rw [show (g.get a).merge (g.get b) = .error clash from hmerge]
    exact ⟨by cases clash <;> rfl, hm⟩
  | case3 g a b path rest i j hroots x y t inner hmerge =>
    rename_i ih
    obtain ⟨⟨ha, hb⟩, hrest⟩ := List.forall_mem_cons.1 hqueue
    have hvars := Ty.merge_vars hmerge
    rw [List.map_cons, TypeGraph.unifyAll, dif_pos ((hm.joins_iff ha hb).2 hroots)]
    simp only [hm.type ha, hm.type hb, Ty.merge_mapVars]
    rw [show (g.get a).merge (g.get b) = .ok (t, inner) from hmerge]
    have hjoined := hm.joinIndex ha hb hroots.1 fun w hw =>
      (hvars.1 w hw).elim (hm.region.children ha) (hm.region.children hb)
    have halike := ih hjoined (List.forall_mem_append.2 ⟨hrest, List.forall_mem_map.2 fun p hp =>
      (hvars.2 p hp).imp (hm.region.children ha) (hm.region.children hb)⟩)
    simpa [Except.map, InnerPair.mapVars, Function.comp_def] using halike
  | case4 g a b path rest i j hroots =>
    rename_i ih
    obtain ⟨⟨ha, hb⟩, hrest⟩ := List.forall_mem_cons.1 hqueue
    rw [List.map_cons, TypeGraph.unifyAll, dif_neg fun h => hroots ((hm.joins_iff ha hb).1 h)]
    exact ih hm hrest

/-! ### Unfolding images -/

theorem idxOf_map_of_inj {α β : Type} [DecidableEq α] [DecidableEq β] {φ : α → β} {l : List α} {x : α}
    (hinj : ∀ a ∈ l, φ a = φ x → a = x) : (l.map φ).idxOf (φ x) = l.idxOf x := by
  induction l with
  | nil => rfl
  | cons a l ih =>
    obtain ⟨ha, hl⟩ := List.forall_mem_cons.1 hinj
    have heq : (φ a == φ x) = (a == x) := by
      rw [Bool.eq_iff_iff, beq_iff_eq, beq_iff_eq]
      exact ⟨ha, congrArg φ⟩
    rw [List.map_cons, List.idxOf_cons, List.idxOf_cons, heq, ih hl]

/-- A variable and its image are unfolded to the same, if folding a kind looks at nothing but the values of
the variables inside it. -/
theorem Mirrors.foldBelow {α : Type} {back : Nat → α} {step : Kind → (TypeVar → α) → α}
    (hstep : ∀ inner k, step (Kind.mapVars f k) inner = step k (inner ∘ f))
    (hcongr : ∀ k inner inner', (∀ w ∈ Kind.children k, inner w = inner' w) → step k inner = step k inner')
    (hm : Mirrors s f g h) {enclosing : List Nat}
    (henclosing : ∀ r ∈ enclosing, (⟨r⟩ : TypeVar) ∈ s ∧ g.rootIndex r = r) (hv : v ∈ s) :
    h.foldBelow back step (enclosing.map fun r => h.rootIndex (f ⟨r⟩).index) (f v) =
      g.foldBelow back step enclosing v := by
  have hrootMem {v : TypeVar} (hv : v ∈ s) : (⟨g.rootIndex v.index⟩ : TypeVar) ∈ s :=
    hm.region.same hv (g.same_equivalence.symm (g.same_root v))
  have hroot {v : TypeVar} (hv : v ∈ s) :
      h.rootIndex (f v).index = h.rootIndex (f ⟨g.rootIndex v.index⟩).index :=
    (hm.root_iff hv (hrootMem hv)).2 (g.rootIndex_rootIndex v.index).symm
  have hinj {enclosing : List Nat} (henclosing : ∀ r ∈ enclosing, (⟨r⟩ : TypeVar) ∈ s ∧ g.rootIndex r = r)
      {v : TypeVar} (hv : v ∈ s) : ∀ r ∈ enclosing,
        h.rootIndex (f ⟨r⟩).index = h.rootIndex (f ⟨g.rootIndex v.index⟩).index → r = g.rootIndex v.index := by
    intro r hr heq
    rw [← hroot hv, hm.root_iff (henclosing r hr).1 hv] at heq
    exact (henclosing r hr).2.symm.trans heq
  have hmem {enclosing : List Nat} (henclosing : ∀ r ∈ enclosing, (⟨r⟩ : TypeVar) ∈ s ∧ g.rootIndex r = r)
      {v : TypeVar} (hv : v ∈ s) :
      h.rootIndex (f v).index ∈ enclosing.map (fun r => h.rootIndex (f ⟨r⟩).index) ↔
        g.rootIndex v.index ∈ enclosing := by
    rw [hroot hv, List.mem_map]
    exact ⟨fun ⟨r, hr, heq⟩ => hinj henclosing hv r hr heq ▸ hr, fun hr => ⟨_, hr, rfl⟩⟩
  fun_induction TypeGraph.foldBelow g back step enclosing v with
  | case1 enclosing v r hseen =>
    rw [TypeGraph.foldBelow, dif_pos ((hmem henclosing hv).2 hseen), hroot hv,
      idxOf_map_of_inj (hinj henclosing hv)]
  | case2 enclosing v r hseen hlt ih =>
    rw [TypeGraph.foldBelow, dif_neg fun h => hseen ((hmem henclosing hv).1 h),
      dif_pos (rootIndex_lt_size (hm.allocated hv).2), kind, hm.type hv, Ty.mapVars, hstep]
    refine hcongr _ _ _ fun w hw => ?_
    have hnext := ih w (List.forall_mem_cons.2 ⟨⟨hrootMem hv, g.rootIndex_rootIndex _⟩, henclosing⟩)
      (hm.region.children hv hw)
    rw [List.map_cons, ← hroot hv] at hnext
    exact hnext
  | case3 enclosing v r hseen hlt => exact absurd (rootIndex_lt_size (hm.allocated hv).1) hlt

end TypeGraph

theorem Kind.text_congr {inner inner' : TypeVar → String} (k : Kind)
    (h : ∀ w ∈ k.children, inner w = inner' w) : k.text inner = k.text inner' := by
  have hentries {row : Row TypeVar} (hrow : ∀ w ∈ row.values, inner w = inner' w)
      (text : String → String → String) :
      row.entries.map (fun e => text e.1 (inner e.2)) = row.entries.map fun e => text e.1 (inner' e.2) :=
    List.map_congr_left fun e he => congrArg (text e.1) (hrow _ (List.mem_map_of_mem he))
  cases k with
  | array element => exact congrArg (fun t => "[" ++ t ++ "]") (h element List.mem_cons_self)
  | object members isOpen order =>
    have htexts := hentries h fun name t => name ++ " = " ++ t
    simp only [text]
    split
    · rfl
    · rw [htexts]
  | union variants isOpen =>
    have htexts := hentries h fun name t => "#" ++ name ++ " " ++ t
    simp only [text]
    rw [htexts]
  | closure args returns =>
    obtain ⟨hargs, hreturns⟩ := List.forall_mem_append.1 h
    rw [text, text, List.map_congr_left hargs, hreturns returns List.mem_cons_self]
  | _ => rfl

theorem TypeGraph.Mirrors.display {g h : TypeGraph} {s : Set TypeVar} {f : TypeVar → TypeVar}
    (hm : Mirrors s f g h) {v : TypeVar} (hv : v ∈ s) : h.display (f v) = g.display v :=
  hm.foldBelow (fun inner k => Kind.text_mapVars f inner k) (fun k _ _ => Kind.text_congr k)
    (fun _ hr => absurd hr List.not_mem_nil) hv

end Monomorph
