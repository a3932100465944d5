import ProgramGraph.Proofs.Yaml.Cursor
import ProgramGraph.Yaml.Printer

/-!
# Plain texts read back

A plain text is read word by word, and it goes on after a gap unless something ends it. A text that
needs no marks (`IsPlain`) has no place inside where the reader would stop, so
`IsPlain.readPlain_eq` gives the whole text back. It is stated for whatever ends the text: a colon
after a key, or the end of a line that is followed by a line further out.
-/

namespace ProgramGraph.Yaml

theorem breaksOff_of_append {xs ys : List Char} (h : breaksOff (xs ++ ys) = false) :
    breaksOff ys = false := by
  induction xs with
  | nil => exact h
  | cons x xs ih =>
    rw [List.cons_append, breaksOff, Bool.or_eq_false_iff] at h
    exact ih h.2

/-- A part of a text up to a space breaks off only where the text does. -/
theorem breaksOff_of_append_space {xs ys : List Char} (hys : ys.head?.all (· == ' ') = true)
    (h : breaksOff (xs ++ ys) = false) : breaksOff xs = false := by
  induction xs with
  | nil => rfl
  | cons x xs ih =>
    rw [List.cons_append, breaksOff, Bool.or_eq_false_iff] at h
    rw [breaksOff, ih h.2, Bool.or_false]
    cases xs with
    | nil =>
      have hx : x ≠ ':' := by
        simp only [List.nil_append, hys, Bool.and_true, Bool.or_eq_false_iff] at h
        simpa using h.1.1
      simp [hx]
    | cons z zs => exact h.1

theorem head?_ne_of_breaksOff {spaces cs : List Char} (hne : spaces ≠ [])
    (hspaces : ∀ x ∈ spaces, x = ' ') (h : breaksOff (spaces ++ cs) = false) :
    cs.head? ≠ some '#' := by
  induction spaces with
  | nil => exact absurd rfl hne
  | cons x spaces ih =>
    rw [List.forall_mem_cons] at hspaces
    obtain ⟨rfl, hspaces⟩ := hspaces
    rw [List.cons_append, breaksOff, Bool.or_eq_false_iff] at h
    cases spaces with
    | nil =>
      intro hhead
      simp [hhead] at h
    | cons y spaces => exact ih (List.cons_ne_nil _ _) hspaces h.2

/-- A word of a plain text ends where the next part stops it. -/
theorem plainWord_append {word rest : List Char} (hgap : ∀ x ∈ word, isGap x = false)
    (hword : breaksOff word = false) (hrest : plainWord false rest = .ok []) :
    plainWord false (word ++ rest) = .ok word := by
  induction word with
  | nil => exact hrest
  | cons x word ih =>
    rw [List.forall_mem_cons] at hgap
    rw [breaksOff, Bool.or_eq_false_iff, Bool.or_eq_false_iff] at hword
    -- a colon in a word has another character of the word behind it
    have hcolon : (x == ':' && isGapOrEnd (word ++ rest).head?) = false := by
      cases word with
      | nil =>
        have hx : x ≠ ':' := by simpa using hword.1.1
        simp [hx]
      | cons y word =>
        have hy : isGap y = false := hgap.2 y List.mem_cons_self
        simp [isGapOrEnd, hy]
    rw [List.cons_append, plainWord, ih hgap.2 hword.2]
    simp [-List.head?_append, hgap.1, hcolon, Except.map]

/-- Only a tab is early. -/
theorem hasEarlyTab_of_no_tab {gap : List Char} (h : ∀ x ∈ gap, x ≠ '\t') (indent : Int)
    (lineStart : Bool) (column : Nat) : hasEarlyTab indent gap lineStart column = false := by
  induction gap generalizing lineStart column with
  | nil => rfl
  | cons x gap ih =>
    rw [List.forall_mem_cons] at h
    rw [hasEarlyTab, ih h.2, ih h.2]
    simp [h.1]

/-- A place where a word of a plain text stands. -/
structure Cursor.AtWord (c : Cursor) (word rest : List Char) : Prop where
  rest_eq : c.rest = word ++ rest
  ne_nil : word ≠ []
  isGap_eq : ∀ x ∈ word, isGap x = false
  breaksOff_eq : breaksOff word = false
  noMark : c.isAtDocumentMark = false
  noComment : word.head? ≠ some '#'

namespace Cursor.AtWord

variable {c : Cursor} {word rest : List Char} (h : c.AtWord word rest) {indent : Int} {fuel : Nat}
  {pieces : List (List Char)} {gap : List Char}

include h

/-- What the reader does after a word depends on the gap behind it. -/
theorem readPlainFrom_eq (hrest : plainWord false rest = .ok []) {gap' : List Char} {c' : Cursor}
    (hspan : (c.past word rest).span isGap = (gap', c')) :
    readPlainFrom false indent (fuel + 1) c pieces gap =
      if gap'.isEmpty then .ok ⟨joinPieces (word :: foldGap gap :: pieces), c', false⟩
      else if hasEarlyTab indent gap' false 0 then
        .error "found a tab character that violates indentation"
      else if (c'.column : Int) < indent then
        .ok ⟨joinPieces (word :: foldGap gap :: pieces), c', gap'.any isBreak⟩
      else readPlainFrom false indent fuel c' (word :: foldGap gap :: pieces) gap' := by
  have hpeek : (c.peek == some '#') = false := by
    obtain ⟨x, xs, hword⟩ := List.exists_cons_of_ne_nil h.ne_nil
    have hx := h.noComment
    simp_all [Cursor.peek, h.rest_eq]
  have hbreak : ∀ x ∈ word, isBreak x = false := fun x hx => by
    have hgap := h.isGap_eq x hx
    rw [isGap, Bool.or_eq_false_iff] at hgap
    exact hgap.2
  have hword := plainWord_append h.isGap_eq h.breaksOff_eq hrest
  have hempty : word.isEmpty = false := by simpa using h.ne_nil
  rw [readPlainFrom, h.noMark, hpeek, h.rest_eq, hword]
  simp only [Bool.or_false, Bool.false_eq_true, if_false, bind, Except.bind, hempty,
    Cursor.advance_eq_past h.rest_eq hbreak, hspan, Bool.not_false, Bool.true_and,
    decide_eq_true_eq]
  rfl

end Cursor.AtWord

/-- A place where a plain text stands, or what is left of it at the start of a word. -/
structure Cursor.AtText (c : Cursor) (cs rest : List Char) : Prop where
  rest_eq : c.rest = cs ++ rest
  ne_nil : cs ≠ []
  printable : ∀ x ∈ cs, isPrintable x = true
  noSpace : cs.head? ≠ some ' '
  noLastSpace : cs.getLast? ≠ some ' '
  breaksOff_eq : breaksOff cs = false
  noMark : c.isAtDocumentMark = false
  noComment : cs.head? ≠ some '#'

namespace Cursor.AtText

variable {c : Cursor} {word spaces cs rest : List Char}

/-- The first word of a text. -/
theorem atWord (h : c.AtText (word ++ cs) rest) (hword : ∀ x ∈ word, x ≠ ' ')
    (hcs : cs.head?.all (· == ' ') = true) : c.AtWord word (cs ++ rest) := by
  have hne : word ≠ [] := by
    rintro rfl
    obtain ⟨x, xs, rfl⟩ := List.exists_cons_of_ne_nil h.ne_nil
    exact h.noSpace (by simpa using hcs)
  have hhead : (word ++ cs).head? = word.head? := by
    obtain ⟨x, xs, rfl⟩ := List.exists_cons_of_ne_nil hne
    rfl
  refine ⟨by rw [h.rest_eq, List.append_assoc], hne, fun x hx => ?_,
    breaksOff_of_append_space hcs h.breaksOff_eq, h.noMark, hhead ▸ h.noComment⟩
  rw [isGap_eq_of_isPrintable (h.printable x (List.mem_append_left _ hx)), beq_eq_false_iff_ne]
  exact hword x hx

/-- What is left of a text after a word and the spaces behind it. -/
theorem next (h : c.AtText (word ++ (spaces ++ cs)) rest) (hne : spaces ≠ [])
    (hspaces : ∀ x ∈ spaces, x = ' ') (hcs : cs.head? ≠ some ' ') :
    (c.past (word ++ spaces) (cs ++ rest)).AtText cs rest := by
  have hne' : cs ≠ [] := by
    rintro rfl
    obtain ⟨ss, y, rfl⟩ := List.eq_nil_or_concat spaces |>.resolve_left hne
    have hy : y = ' ' := hspaces y (by simp)
    exact h.noLastSpace (by simp [hy])
  have hlast : (word ++ (spaces ++ cs)).getLast? = cs.getLast? := by
    rw [← List.append_assoc, List.getLast?_append, List.getLast?_eq_some_getLast hne',
      Option.some_or]
  have hpos : 0 < (c.past (word ++ spaces) (cs ++ rest)).column := by
    have := List.length_pos_iff.mpr hne
    simp only [Cursor.past, List.length_append]
    omega
  have hoff := breaksOff_of_append h.breaksOff_eq
  exact ⟨rfl, hne', fun x hx => h.printable x (by simp [hx]), hcs, hlast ▸ h.noLastSpace,
    breaksOff_of_append hoff, Cursor.isAtDocumentMark_of_column hpos,
    head?_ne_of_breaksOff hne hspaces hoff⟩

/-- The words of a plain text are read one after the other. -/
theorem readPlainFrom_eq (h : c.AtText cs rest) {indent : Int} {fuel : Nat}
    {pieces : List (List Char)} {gap gap' : List Char} {c' : Cursor}
    (hgap : ∀ x ∈ gap, isBreak x = false) (hrest : plainWord false rest = .ok [])
    (hspan : (c.past cs rest).span isGap = (gap', c'))
    (hend : gap' = [] ∨ hasEarlyTab indent gap' false 0 = false ∧ (c'.column : Int) < indent)
    (hindent : indent ≤ c.column + 1) (hfuel : cs.length < fuel) :
    readPlainFrom false indent fuel c pieces gap =
      .ok ⟨joinPieces pieces ++ gap ++ cs, c', gap'.any isBreak⟩ := by
  induction fuel generalizing c cs pieces gap with
  | zero => omega
  | succ fuel ih =>
    obtain ⟨word, others, rfl, hword, hothers⟩ := exists_run (· != ' ') cs
    simp only [bne_iff_ne] at hword
    have hothers' : others.head?.all (· == ' ') = true := by
      cases others with
      | nil => rfl
      | cons x others => simpa using hothers
    have hat := h.atWord hword hothers'
    obtain ⟨spaces, cs, rfl, hspaces, hcs⟩ := exists_run (· == ' ') others
    simp only [beq_iff_eq] at hspaces
    have hcs' : cs.head? ≠ some ' ' := fun heq => by simpa using hcs ' ' heq
    by_cases hne : spaces = []
    · -- this is the last word
      subst hne
      have hnil : cs = [] := by
        cases cs with
        | nil => rfl
        | cons x cs => exact absurd (by simpa using hothers') hcs'
      subst hnil
      simp only [List.append_nil] at hspan ⊢
      rw [hat.readPlainFrom_eq hrest hspan, joinPieces_cons, joinPieces_cons,
        foldGap_of_no_break hgap]
      rcases hend with rfl | ⟨htab, hcolumn⟩
      · rfl
      · rw [htab, if_pos hcolumn]
        cases gap' <;> rfl
    · have hnext := h.next hne hspaces hcs'
      have hbreak : ∀ x ∈ spaces, isBreak x = false := fun x hx => by rw [hspaces x hx]; rfl
      have hstop : ∀ x ∈ (cs ++ rest).head?, isGap x = false := by
        obtain ⟨x, xs, rfl⟩ := List.exists_cons_of_ne_nil hnext.ne_nil
        have hx := isGap_eq_of_isPrintable (hnext.printable x List.mem_cons_self)
        simp_all
      have hspan' : (c.past word (spaces ++ cs ++ rest)).span isGap =
          (spaces, c.past (word ++ spaces) (cs ++ rest)) := by
        rw [← Cursor.past_past c word spaces (spaces ++ cs ++ rest)]
        exact Cursor.span_eq_past (List.append_assoc _ _ _)
          (fun x hx => by rw [hspaces x hx]; rfl) hbreak hstop
      have hword' : plainWord false (spaces ++ cs ++ rest) = .ok [] := by
        obtain ⟨x, xs, rfl⟩ := List.exists_cons_of_ne_nil hne
        rw [hspaces x List.mem_cons_self]
        rfl
      have htab := hasEarlyTab_of_no_tab (fun x hx => by rw [hspaces x hx]; decide) indent false 0
      have hlength := List.length_pos_iff.mpr hne
      have hcolumn : indent ≤ (c.past (word ++ spaces) (cs ++ rest)).column := by
        simp only [Cursor.past, List.length_append]
        omega
      simp only [List.length_append] at hfuel
      rw [hat.readPlainFrom_eq hword' hspan', if_neg (by simpa using hne), htab,
        if_neg Bool.false_ne_true, if_neg (by omega),
        ih hnext hbreak (by rwa [Cursor.past_past, List.append_assoc]) (by omega) (by omega),
        joinPieces_cons, joinPieces_cons, foldGap_of_no_break hgap]
      simp

end Cursor.AtText

/-- What ends a word is a gap or a colon. -/
theorem head_of_plainWord_eq_nil {rest : List Char} (h : plainWord false rest = .ok []) :
    ∀ x ∈ rest.head?, isGap x = true ∨ x = ':' := by
  cases rest with
  | nil => simp
  | cons y rest =>
    rintro x ⟨⟩
    by_contra! hno
    have hgap : isGap y = false := by simpa using hno.1
    rw [plainWord] at h
    simp only [hgap, hno.2, Bool.false_eq_true, Bool.false_and, if_false, beq_iff_eq,
      false_and, Bool.and_eq_true] at h
    cases hword : plainWord false rest with
    | error reason => simp [hword, Except.map] at h
    | ok word => simp [hword, Except.map] at h

theorem isPrefixOf_eq_false {x y : Char} (h : x ≠ y) (xs ys : List Char) :
    List.isPrefixOf (y :: ys) (x :: xs) = false := by
  rw [List.isPrefixOf_cons_cons, beq_eq_false_iff_ne.mpr h.symm, Bool.false_and]

theorem isPrefixOf_of_append {mark cs rest : List Char} (hrest : ∀ x ∈ rest.head?, x ∉ mark)
    (h : mark.isPrefixOf (cs ++ rest) = true) : mark.isPrefixOf cs = true := by
  induction mark generalizing cs with
  | nil => simp
  | cons x mark ih =>
    cases cs with
    | nil =>
      cases rest with
      | nil => exact h
      | cons y rest =>
        have hxy : x = y := by
          simpa using (List.cons_prefix_cons.mp (List.isPrefixOf_iff_prefix.mp h)).1
        exact absurd (hxy ▸ List.mem_cons_self) (hrest y rfl)
    | cons y cs =>
      rw [List.cons_append, List.isPrefixOf_cons_cons, Bool.and_eq_true] at h
      rw [List.isPrefixOf_cons_cons, Bool.and_eq_true]
      exact ⟨h.1, ih (fun z hz hmem => hrest z hz (List.mem_cons_of_mem _ hmem)) h.2⟩

/-- A text that can be written plain. -/
structure IsPlain (cs : List Char) : Prop where
  ne_nil : cs ≠ []
  printable : ∀ x ∈ cs, isPrintable x = true
  needsMarks_eq : needsMarks cs = false

/-- A plain text is not taken for the start or the end of a document. -/
theorem IsPlain.not_startsWith {cs : List Char} (h : IsPlain cs) {c : Cursor} {rest : List Char}
    (hrest : c.rest = cs ++ rest) (hword : plainWord false rest = .ok []) :
    c.startsWith "---" = false ∧ c.startsWith "..." = false := by
  have hmarks := h.needsMarks_eq
  simp only [needsMarks, Bool.or_eq_false_iff] at hmarks
  have hhead : ∀ {mark : List Char}, (∀ x ∈ mark, isGap x = false ∧ x ≠ ':') →
      mark.isPrefixOf cs = false → mark.isPrefixOf (cs ++ rest) = false := by
    intro mark hmark hfalse
    by_contra htrue
    rw [Bool.not_eq_false] at htrue
    have hstop : ∀ x ∈ rest.head?, x ∉ mark := fun x hx hmem => by
      rcases head_of_plainWord_eq_nil hword x hx with hgap | hcolon
      · simp [(hmark x hmem).1] at hgap
      · exact (hmark x hmem).2 hcolon
    rw [isPrefixOf_of_append hstop htrue] at hfalse
    cases hfalse
  rw [Cursor.startsWith, Cursor.startsWith, hrest]
  exact ⟨hhead (forall_mem_of_all (by decide)) hmarks.1.1.1.1.2,
    hhead (forall_mem_of_all (by decide)) hmarks.1.1.1.2⟩

theorem IsPlain.isOpeningMark_head {cs : List Char} (h : IsPlain cs) :
    cs.head?.any isOpeningMark = false := by
  have hmarks := h.needsMarks_eq
  simp only [needsMarks, Bool.or_eq_false_iff] at hmarks
  exact hmarks.1.1.2

theorem IsPlain.atText {cs : List Char} (h : IsPlain cs) {c : Cursor} {rest : List Char}
    (hrest : c.rest = cs ++ rest) (hword : plainWord false rest = .ok []) : c.AtText cs rest := by
  obtain ⟨hstart, hend⟩ := h.not_startsWith hrest hword
  have hmarks := h.needsMarks_eq
  simp only [needsMarks, Bool.or_eq_false_iff, beq_eq_false_iff_ne] at hmarks
  refine ⟨hrest, h.ne_nil, h.printable, hmarks.1.1.1.1.1.1, hmarks.1.1.1.1.1.2, hmarks.2, ?_, ?_⟩
  · simp [Cursor.isAtDocumentMark, Cursor.isAtMark, hstart, hend]
  · intro hhead
    have hopening := h.isOpeningMark_head
    rw [hhead] at hopening
    exact absurd hopening (by decide)

/-- **A plain text reads back.** The reader stops where something ends the text, behind the gap that
is there; this has to be empty or to end in front of the column of the indentation. -/
theorem IsPlain.readPlain_eq {cs : List Char} (h : IsPlain cs) {c : Cursor} {rest : List Char}
    {indent : Int} {fuel : Nat} {gap : List Char} {c' : Cursor} (hrest : c.rest = cs ++ rest)
    (hword : plainWord false rest = .ok [])
    (hspan : (c.past cs rest).span isGap = (gap, c'))
    (hend : gap = [] ∨ hasEarlyTab indent gap false 0 = false ∧ (c'.column : Int) < indent)
    (hindent : indent ≤ c.column + 1) (hfuel : cs.length < fuel) :
    readPlain false indent fuel c = .ok ⟨cs, c', gap.any isBreak⟩ := by
  have hat : c.AtText cs rest := h.atText hrest hword
  exact hat.readPlainFrom_eq (by simp) hword hspan hend hindent hfuel

end ProgramGraph.Yaml
