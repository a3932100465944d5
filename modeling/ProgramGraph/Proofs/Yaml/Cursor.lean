import Mathlib.Algebra.GroupWithZero.Nat
import Mathlib.Data.List.Basic
import ProgramGraph.Yaml.ScalarText

/-!
# Places on a line

Readers count bytes, lines and columns on their way. `Cursor.past` is the place after some
characters of a line as a whole, so that a reader's lemma can say where it stops in one equation.
Of the characters that are written as they are, only the space separates words.
-/

namespace ProgramGraph.Yaml

/-- A property of the characters of a text is decided one by one. The quantifier over characters
would be decided by trying all of them. -/
theorem forall_mem_of_all {p : Char → Prop} [DecidablePred p] {cs : List Char}
    (h : cs.all (fun x => decide (p x)) = true) : ∀ x ∈ cs, p x := by
  simpa using h

/-- A run of characters with a property, up to a character without it. -/
theorem takeWhile_append_eq {p : Char → Bool} {cs rest : List Char} (hcs : ∀ x ∈ cs, p x = true)
    (hrest : ∀ x ∈ rest.head?, p x = false) : (cs ++ rest).takeWhile p = cs := by
  rw [List.takeWhile_append_of_pos hcs]
  cases rest with
  | nil => simp
  | cons x rest => simp [hrest x rfl]

namespace Cursor

/-- The place after some characters that do not end the line, with the given rest. -/
def past (c : Cursor) (cs rest : List Char) : Cursor where
  rest
  index := c.index + (cs.map Char.utf8Size).sum
  line := c.line
  column := c.column + cs.length

theorem past_past (c : Cursor) (xs ys rest rest' : List Char) :
    (c.past xs rest).past ys rest' = c.past (xs ++ ys) rest' := by
  simp [past, Nat.add_assoc]

theorem next_eq_past {c : Cursor} {x : Char} {rest : List Char} (h : c.rest = x :: rest)
    (hx : isBreak x = false) : c.next = c.past [x] rest := by
  simp [next, h, hx, past]

/-- Advancing over characters of one line goes past them. -/
theorem advance_eq_past {c : Cursor} {cs rest : List Char} (h : c.rest = cs ++ rest)
    (hcs : ∀ x ∈ cs, isBreak x = false) : c.advance cs.length = c.past cs rest := by
  induction cs generalizing c with
  | nil =>
    rw [List.nil_append] at h
    subst h
    rfl
  | cons x cs ih =>
    rw [List.cons_append] at h
    rw [List.forall_mem_cons] at hcs
    rw [List.length_cons, advance, next_eq_past h hcs.1, ih rfl hcs.2, past_past,
      List.singleton_append]

/-- A span ends before the first character that does not belong to it. -/
theorem span_eq_past {c : Cursor} {p : Char → Bool} {cs rest : List Char} (h : c.rest = cs ++ rest)
    (hcs : ∀ x ∈ cs, p x = true) (hbreak : ∀ x ∈ cs, isBreak x = false)
    (hrest : ∀ x ∈ rest.head?, p x = false) : c.span p = (cs, c.past cs rest) := by
  rw [span, h, takeWhile_append_eq hcs hrest, advance_eq_past h hbreak]

theorem isAtDocumentMark_of_column {c : Cursor} (h : 0 < c.column) :
    c.isAtDocumentMark = false := by
  have hcolumn : (c.column == 0) = false := by simpa using Nat.pos_iff_ne_zero.mp h
  simp [isAtDocumentMark, isAtMark, hcolumn]

end Cursor

/-! ### Printable characters -/

theorem isBreak_of_isPrintable {c : Char} (h : isPrintable c = true) : isBreak c = false := by
  by_contra hbreak
  simp only [isBreak, Bool.not_eq_false, Bool.or_eq_true, beq_iff_eq] at hbreak
  rcases hbreak with (rfl | rfl) | rfl <;> exact absurd h (by decide)

/-- The one printable gap is the space. -/
theorem isGap_eq_of_isPrintable {c : Char} (h : isPrintable c = true) : isGap c = (c == ' ') := by
  have htab : (c == '\t') = false := by
    rw [beq_eq_false_iff_ne]
    rintro rfl
    exact absurd h (by decide)
  rw [isGap, isBreak_of_isPrintable h, isSpaceOrTab, htab, Bool.or_false, Bool.or_false]

theorem isAllowed_of_isPrintable {c : Char} (h : isPrintable c = true) : isAllowed c = true := by
  simp only [isPrintable, isAllowed, Bool.or_eq_true, Bool.and_eq_true, decide_eq_true_eq] at h ⊢
  grind

/-- A text starts with a run of characters with a property. -/
theorem exists_run (p : Char → Bool) (cs : List Char) :
    ∃ run others, cs = run ++ others ∧ (∀ x ∈ run, p x = true) ∧
      ∀ x ∈ others.head?, p x = false := by
  induction cs with
  | nil => exact ⟨[], [], by simp⟩
  | cons x cs ih =>
    by_cases hx : p x = true
    · obtain ⟨run, others, rfl, hrun, hothers⟩ := ih
      exact ⟨x :: run, others, rfl, List.forall_mem_cons.mpr ⟨hx, hrun⟩, hothers⟩
    · exact ⟨[], x :: cs, rfl, by simp, by simpa using hx⟩

theorem foldGap_of_no_break {gap : List Char} (h : ∀ x ∈ gap, isBreak x = false) :
    foldGap gap = gap := by
  have hfilter : gap.filter isBreak = [] := by
    rw [List.filter_eq_nil_iff]
    simpa using h
  rw [foldGap, hfilter]

theorem joinPieces_cons (piece : List Char) (pieces : List (List Char)) :
    joinPieces (piece :: pieces) = joinPieces pieces ++ piece := by
  simp [joinPieces]

end ProgramGraph.Yaml
