import Mathlib.Data.List.Infix
import Monomorph.Symbol.Table

/-!
# Written paths are read back

A text is cut at its separators from the left: of three colons the first two separate, and the third begins the next
piece. So no piece has a separator in it, and no piece but the last ends with a colon (`Path.Cut`). For such pieces
cutting and joining are inverse to each other (`Path.intercalate_splitColons`, `Path.splitColons_intercalate`).

Reading a path drops empty pieces and writing it closes the gaps. `Path.parse_text_iff` says which paths are read
back as they are: those whose elements are nonempty and cut like the pieces of a text (`Path.Written`). Every path
that was read is one of them, and so is every full path that a written reference may mean
(`Expansion.written_expand`). Main statement: `Path.parse_text_parse`.
-/

namespace Monomorph
namespace Path

/-! ### Pieces of a text -/

/-- What stands between the elements of a written path. -/
def separator : List Char := [':', ':']

def Plain (piece : List Char) : Prop := ¬ separator <:+: piece

/-- A text after which a separator is found in its place and no earlier. -/
def Closed (piece : List Char) : Prop := ¬ separator <:+: piece ++ [':']

instance (piece : List Char) : Decidable (Closed piece) := inferInstanceAs (Decidable (¬ _))

/-- Pieces between separators: none has a separator in it, and each is closed but the last one. -/
structure Cut (pieces : List (List Char)) : Prop where
  plain : ∀ piece ∈ pieces, Plain piece
  closed : pieces.Pairwise fun piece _ => Closed piece

theorem Closed.plain {piece : List Char} (closed : Closed piece) : Plain piece :=
  fun inside => closed (inside.trans (List.prefix_append piece [':']).isInfix)

theorem Cut.sublist {pieces pieces' : List (List Char)} (cut : Cut pieces) (sub : pieces'.Sublist pieces) :
    Cut pieces' :=
  ⟨fun piece mem => cut.plain piece (sub.subset mem), cut.closed.sublist sub⟩

/-! ### Cutting and joining -/

theorem splitColons_ne_nil (text : List Char) : splitColons text ≠ [] := by
  fun_cases splitColons text <;> simp

theorem splitColons_cons {c : Char} {rest piece : List Char} {pieces : List (List Char)}
    (first : ¬ separator <+: c :: rest) (cut : splitColons rest = piece :: pieces) :
    splitColons (c :: rest) = (c :: piece) :: pieces := by
  rw [splitColons, cut]
  rintro rest' rfl rfl
  exact first (List.prefix_append separator rest')

theorem intercalate_splitColons (text : List Char) : separator.intercalate (splitColons text) = text := by
  fun_induction splitColons text with
  | case1 => rfl
  | case2 rest ih => rw [List.intercalate_cons_of_ne_nil (splitColons_ne_nil rest), ih]; rfl
  | case3 c rest _ none => exact absurd none (splitColons_ne_nil rest)
  | case4 c rest _ piece pieces cut ih =>
    rw [cut] at ih
    cases pieces with
    | nil =>
      rw [List.intercalate_singleton] at ih ⊢
      rw [ih]
    | cons next pieces =>
      rw [List.intercalate_cons_cons] at ih ⊢
      rw [List.cons_append, List.cons_append, ih]

/-- A piece and the first colon of the separator after it begin the text. -/
theorem begins_append_colon {text piece next : List Char} {pieces : List (List Char)}
    (cut : splitColons text = piece :: next :: pieces) : piece ++ [':'] <+: text := by
  rw [← intercalate_splitColons text, cut, List.intercalate_cons_cons, List.append_assoc]
  exact (List.prefix_append_right_inj piece).mpr (List.prefix_append [':'] _)

theorem begins_piece {text piece : List Char} {pieces : List (List Char)}
    (cut : splitColons text = piece :: pieces) : piece <+: text := by
  cases pieces with
  | nil => rw [← intercalate_splitColons text, cut, List.intercalate_singleton]
  | cons next pieces => exact (List.prefix_append piece [':']).trans (begins_append_colon cut)

/-- A text that begins with no separator and has none later on has none. -/
theorem Plain.cons {c : Char} {piece rest : List Char} (plain : Plain piece) (first : ¬ separator <+: c :: rest)
    (begins : piece <+: rest) : Plain (c :: piece) := fun inside =>
  match List.infix_cons_iff.mp inside with
  | .inl front => first (front.trans ((List.prefix_cons_inj c).mpr begins))
  | .inr later => plain later

theorem cut_splitColons (text : List Char) : Cut (splitColons text) := by
  fun_induction splitColons text with
  | case1 => exact ⟨by simp [Plain, separator], List.pairwise_singleton _ _⟩
  | case2 rest ih =>
    have closed : Closed [] := by decide
    exact ⟨List.forall_mem_cons.mpr ⟨closed.plain, ih.plain⟩,
      List.pairwise_cons.mpr ⟨fun _ _ => closed, ih.closed⟩⟩
  | case3 c rest _ none => exact absurd none (splitColons_ne_nil rest)
  | case4 c rest notSeparator piece pieces cut ih =>
    have first : ¬ separator <+: c :: rest := by
      rintro ⟨rest', same⟩
      cases same
      exact notSeparator rest' rfl rfl
    rw [cut] at ih
    obtain ⟨plain, plains⟩ := List.forall_mem_cons.mp ih.plain
    obtain ⟨closed, closeds⟩ := List.pairwise_cons.mp ih.closed
    refine ⟨List.forall_mem_cons.mpr ⟨plain.cons first (begins_piece cut), plains⟩,
      List.pairwise_cons.mpr ⟨fun next mem => ?_, closeds⟩⟩
    obtain ⟨next', pieces', rfl⟩ := List.exists_cons_of_ne_nil (List.ne_nil_of_mem mem)
    have closed : Plain (piece ++ [':']) := closed next mem
    exact closed.cons first (begins_append_colon cut)

/-- A closed text before a separator is cut off by it. -/
theorem splitColons_append {piece : List Char} (closed : Closed piece) (rest : List Char) :
    splitColons (piece ++ separator ++ rest) = piece :: splitColons rest := by
  induction piece with
  | nil => rw [separator, List.nil_append, List.cons_append, List.cons_append, List.nil_append, splitColons]
  | cons c piece ih =>
    have later : Closed piece := fun inside => closed (List.infix_cons inside)
    refine splitColons_cons (fun front => closed ?_) (ih later)
    -- the separator in front would lie within the piece and the colon after it
    have whole : c :: (piece ++ separator ++ rest) = c :: (piece ++ [':']) ++ ':' :: rest := by simp [separator]
    have begins : separator <+: c :: (piece ++ [':']) :=
      List.prefix_of_prefix_length_le front (whole ▸ List.prefix_append _ _) (by simp [separator])
    exact begins.isInfix

theorem splitColons_plain {piece : List Char} (plain : Plain piece) : splitColons piece = [piece] := by
  induction piece with
  | nil => rfl
  | cons c piece ih =>
    exact splitColons_cons (fun front => plain front.isInfix) (ih fun inside => plain (List.infix_cons inside))

theorem splitColons_intercalate {pieces : List (List Char)} (cut : Cut pieces) (nonempty : pieces ≠ []) :
    splitColons (separator.intercalate pieces) = pieces := by
  induction pieces with
  | nil => exact absurd rfl nonempty
  | cons piece pieces ih =>
    cases pieces with
    | nil =>
      rw [List.intercalate_singleton]
      exact splitColons_plain (cut.plain piece List.mem_cons_self)
    | cons next pieces =>
      have closed := (List.pairwise_cons.mp cut.closed).1 next List.mem_cons_self
      rw [List.intercalate_cons_cons, splitColons_append closed,
        ih (cut.sublist (List.sublist_cons_self _ _)) (List.cons_ne_nil _ _)]

/-! ### Paths that are read back -/

/-- A path as it is read from a text. -/
structure Written (p : Path) : Prop where
  nonempty : ∀ e ∈ p.elements, e ≠ ""
  cut : Cut (p.elements.map String.toList)

theorem written_parse (text : String) : (parse text).Written := by
  constructor
  · simp only [parse, List.forall_mem_map, List.mem_filter]
    rintro piece ⟨-, nonempty⟩ empty
    rw [String.ofList_eq_empty_iff] at empty
    simp [empty] at nonempty
  · simp only [parse, List.map_map, Function.comp_def, String.toList_ofList, List.map_id']
    exact (cut_splitColons text.toList).sublist List.filter_sublist

theorem Written.parse_text {p : Path} (written : p.Written) : parse p.text = p := by
  obtain ⟨elements⟩ := p
  by_cases empty : elements = []
  · subst empty
    rfl
  have cut : splitColons (text ⟨elements⟩).toList = elements.map String.toList := by
    rw [text, String.toList_intercalate]
    exact splitColons_intercalate written.cut (by simpa using empty)
  have kept : (elements.map String.toList).filter (! ·.isEmpty) = elements.map String.toList := by
    rw [List.filter_eq_self, List.forall_mem_map]
    intro e mem
    simpa using written.nonempty e mem
  rw [parse, cut, kept, List.map_map]
  simp [Function.comp_def]

/-- Exactly the paths that can be read are read back as they are. -/
theorem parse_text_iff {p : Path} : parse p.text = p ↔ p.Written :=
  ⟨fun same => same ▸ written_parse p.text, Written.parse_text⟩

/-- A colon before a separator is taken for a part of it. -/
example : parse (text ⟨["a:", "b"]⟩) = ⟨["a", ":b"]⟩ := by decide

/-! ### Modules -/

/-- In a module every element had another one after it. -/
theorem Written.closed_module {p : Path} (written : p.Written) : ∀ e ∈ p.module.elements, Closed e.toList := by
  intro e mem
  have closed := List.pairwise_map.mp written.cut.closed
  have mem : e ∈ p.elements.dropLast := mem
  rcases List.eq_nil_or_concat' p.elements with empty | ⟨front, last, split⟩
  · simp [empty] at mem
  · rw [split, List.dropLast_concat] at mem
    rw [split] at closed
    exact (List.pairwise_append.mp closed).2.2 e mem last List.mem_cons_self

theorem Written.module {p : Path} (written : p.Written) : p.module.Written :=
  ⟨fun e mem => written.nonempty e (List.mem_of_mem_dropLast mem),
    written.cut.sublist ((List.dropLast_sublist _).map _)⟩

/-- Paths are read back joined if the first could stand before a separator. -/
theorem Written.join {p q : Path} (hp : p.Written) (hq : q.Written) (closed : ∀ e ∈ p.elements, Closed e.toList) :
    (p.join q).Written := by
  refine ⟨fun e mem => (List.mem_append.mp mem).elim (hp.nonempty e) (hq.nonempty e), ?_⟩
  rw [Path.join, List.map_append]
  refine ⟨fun piece mem => (List.mem_append.mp mem).elim (hp.cut.plain piece) (hq.cut.plain piece), ?_⟩
  refine List.pairwise_append.mpr ⟨hp.cut.closed, hq.cut.closed, ?_⟩
  rw [List.forall_mem_map]
  exact fun e mem _ _ => closed e mem

theorem written_core : corePath.Written := parse_text_iff.mp (by decide)

end Path

/-- The full paths that a written reference may mean are read back as they are: what stands before the reference is
the module of a written path. -/
theorem Expansion.written_expand {short user path : Path} (hshort : short.Written) (huser : user.Written)
    (mem : path ∈ Expansion.modules.expand short user) : path.Written := by
  have core : ∀ e ∈ corePath.elements, Path.Closed e.toList := by decide
  rw [Expansion.expand, List.mem_eraseDups] at mem
  rcases mem with _ | ⟨_, _ | ⟨_, _ | ⟨_, ⟨⟩⟩⟩⟩
  · exact Path.written_core.join hshort core
  · exact hshort
  · exact huser.module.join hshort huser.closed_module

/-! ### Symbols -/

/-- A symbol that is registered is found under its path. -/
theorem SymbolTable.lookup_add (t : SymbolTable) (s : Symbol) :
    (t.add s).2.lookup s.path = some (t.add s).1 ∧ (t.add s).2.get? (t.add s).1 = some s := by
  unfold SymbolTable.add
  cases known : t.lookup s.path with
  | none =>
    rw [SymbolTable.lookup, Array.findIdx?_eq_none_iff] at known
    refine ⟨Array.findIdx?_eq_some_iff_getElem.mpr ⟨by simp [size], by simp [size], fun i lt => ?_⟩,
      by simp [get?, size]⟩
    have lt : i < t.symbols.size := lt
    simpa [Array.getElem_push_lt lt] using known _ (Array.getElem_mem lt)
  | some id =>
    obtain ⟨inside, -, first⟩ := Array.findIdx?_eq_some_iff_getElem.mp known
    refine ⟨Array.findIdx?_eq_some_iff_getElem.mpr ⟨by simpa using inside, by simp, fun i lt => ?_⟩,
      by simp [get?, inside]⟩
    rw [Array.getElem_setIfInBounds_ne (lt.trans inside) lt.ne']
    exact first i lt

namespace Path

/-- **Written paths are read back.** The path that a text stands for is read back from what is shown for it. So two
texts stand for one path exactly if the same is shown for them, a symbol registered under a text is found under
what is shown for it, and the full paths that a reference may mean are read back too. -/
theorem parse_text_parse (written : String) :
    parse (parse written).text = parse written ∧
      (∀ other, (parse other).text = (parse written).text ↔ parse other = parse written) ∧
      (∀ (table : SymbolTable) (span : Span) (declaration : Declaration),
        let (id, registered) := table.add ⟨parse written, span, declaration⟩
        registered.lookup (parse (parse written).text) = some id ∧
          registered.get? id = some ⟨parse written, span, declaration⟩) ∧
      ∀ user, ∀ path ∈ Expansion.modules.expand (parse written) (parse user), parse path.text = path := by
  have same := (written_parse written).parse_text
  refine ⟨same, fun other => ⟨fun shown => ?_, congrArg text⟩, fun table span declaration => ?_,
    fun user path mem => ?_⟩
  · rw [← same, ← shown, (written_parse other).parse_text]
  · rw [same]
    exact table.lookup_add ⟨parse written, span, declaration⟩
  · exact (Expansion.written_expand (written_parse written) (written_parse user) mem).parse_text

/-- Runs of colons, and a reference that ends with one. -/
theorem parse_text_parse_colons :
    parse "::a:::b::::c:" = ⟨["a", ":b", "c:"]⟩ ∧ (parse "::a:::b::::c:").text = "a:::b::c:" ∧
      parse "a:::b::c:" = parse "::a:::b::::c:" ∧
      ⟨["a", "c:"]⟩ ∈ Expansion.modules.expand (parse "c:") (parse "a:::b") ∧
      parse (text ⟨["a", "c:"]⟩) = ⟨["a", "c:"]⟩ := by
  have shown : (parse "::a:::b::::c:").text = "a:::b::c:" := by decide
  have mem : ⟨["a", "c:"]⟩ ∈ Expansion.modules.expand (parse "c:") (parse "a:::b") := by decide
  exact ⟨by decide, shown, shown ▸ (parse_text_parse "::a:::b::::c:").1, mem,
    (parse_text_parse "c:").2.2.2 "a:::b" _ mem⟩

end Path
end Monomorph
