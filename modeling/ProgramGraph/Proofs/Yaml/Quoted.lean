import ProgramGraph.Proofs.Text.Integer
import ProgramGraph.Proofs.Yaml.Cursor
import ProgramGraph.Yaml.Printer

/-!
# Quoted texts read back

Between quotes every character of a text is written by itself: as it is, twice, or as an escape. The
reader takes these one by one, except that it takes a run of spaces at once. `Quoting` says this of
both kinds of quotes, and `readQuoted_quoted` that the reader gives the text back and stops behind
the closing quote.
-/

namespace ProgramGraph.Yaml

/-- The quote that opens and closes a text. -/
def quoteOf (double : Bool) : Char :=
  if double then '"' else '\''

/-- How the characters of a text are written between quotes. A space stands for itself, and runs of
spaces are read as one piece; from every other character the reader makes a piece of its own. -/
structure Quoting (double : Bool) (allowed : Char → Prop) (write : Char → List Char) : Prop where
  space : write ' ' = [' ']
  printable : ∀ {x}, allowed x → ∀ y ∈ write x, isPrintable y = true
  head : ∀ {x}, allowed x → x ≠ ' ' → ∃ y ys, write x = y :: ys ∧ y ≠ ' '
  step : ∀ {x}, allowed x → x ≠ ' ' → ∀ {fuel : Nat} {c : Cursor} {pieces : List (List Char)}
    {rest : List Char}, c.rest = write x ++ rest → 0 < c.column →
      readQuotedFrom double (fuel + 1) c pieces =
        readQuotedFrom double fuel (c.past (write x) rest) ([x] :: pieces)

theorem readQuotedFrom_quote {double : Bool} {fuel : Nat} {c : Cursor} {pieces : List (List Char)}
    {rest : List Char} (hrest : c.rest = quoteOf double :: rest) (hcolumn : 0 < c.column)
    (hnext : double = false → rest.head? ≠ some '\'') :
    readQuotedFrom double (fuel + 1) c pieces =
      .ok (joinPieces pieces, c.past [quoteOf double] rest) := by
  have hbreak : isBreak (quoteOf double) = false := by cases double <;> rfl
  rw [← Cursor.next_eq_past hrest hbreak, readQuotedFrom,
    Cursor.isAtDocumentMark_of_column hcolumn, hrest]
  cases double with
  | false => simp [quoteOf, isGap, isSpaceOrTab, isBreak, hnext rfl]
  | true => simp [quoteOf, isGap, isSpaceOrTab, isBreak]

/-- A run of spaces is one piece. -/
theorem readQuotedFrom_spaces {double : Bool} {fuel : Nat} {c : Cursor} {pieces : List (List Char)}
    {spaces rest : List Char} (hrest : c.rest = ' ' :: spaces ++ rest) (hcolumn : 0 < c.column)
    (hspaces : ∀ x ∈ spaces, x = ' ') (hstop : ∀ x ∈ rest.head?, isGap x = false) :
    readQuotedFrom double (fuel + 1) c pieces =
      readQuotedFrom double fuel (c.past (' ' :: spaces) rest) ((' ' :: spaces) :: pieces) := by
  have hall : ∀ x ∈ ' ' :: spaces, x = ' ' := List.forall_mem_cons.mpr ⟨rfl, hspaces⟩
  have hgap : ∀ x ∈ ' ' :: spaces, isGap x = true := fun x hx => by rw [hall x hx]; rfl
  have hbreak : ∀ x ∈ ' ' :: spaces, isBreak x = false := fun x hx => by rw [hall x hx]; rfl
  have hspan := Cursor.span_eq_past hrest hgap hbreak hstop
  have hfold := foldGap_of_no_break hbreak
  rw [readQuotedFrom, Cursor.isAtDocumentMark_of_column hcolumn, hrest, hspan]
  simp only [hfold, List.cons_append]
  rfl

namespace Quoting

variable {double : Bool} {allowed : Char → Prop} {write : Char → List Char}

theorem flatMap_spaces (Q : Quoting double allowed write) {spaces : List Char}
    (hspaces : ∀ x ∈ spaces, x = ' ') : spaces.flatMap write = spaces := by
  induction spaces with
  | nil => rfl
  | cons x spaces ih =>
    rw [List.forall_mem_cons] at hspaces
    rw [List.flatMap_cons, ih hspaces.2, hspaces.1, Q.space, List.singleton_append]

/-- Every character of a text takes a character at least. -/
theorem length_le_length_flatMap (Q : Quoting double allowed write) {cs : List Char}
    (hcs : ∀ x ∈ cs, allowed x) : cs.length ≤ (cs.flatMap write).length := by
  induction cs with
  | nil => simp
  | cons x cs ih =>
    rw [List.forall_mem_cons] at hcs
    have hpos : 0 < (write x).length := by
      by_cases hx : x = ' '
      · simp [hx, Q.space]
      · obtain ⟨y, ys, hwrite, -⟩ := Q.head hcs.1 hx
        simp [hwrite]
    have hrest := ih hcs.2
    simp only [List.flatMap_cons, List.length_append, List.length_cons]
    omega

/-- What is written of a text that does not start with a space does not start with a gap. -/
theorem isGap_head (Q : Quoting double allowed write) {cs rest : List Char}
    (hcs : ∀ x ∈ cs, allowed x) (hhead : cs.head? ≠ some ' ') :
    ∀ x ∈ (cs.flatMap write ++ quoteOf double :: rest).head?, isGap x = false := by
  cases cs with
  | nil => cases double <;> simp [quoteOf] <;> rfl
  | cons x cs =>
    rw [List.forall_mem_cons] at hcs
    obtain ⟨y, ys, hwrite, hy⟩ := Q.head hcs.1 (by simpa using hhead)
    have hprintable : isPrintable y = true := Q.printable hcs.1 y (by simp [hwrite])
    simp [hwrite, isGap_eq_of_isPrintable hprintable, hy]

/-- **A quoted text reads back**, and the reader stops behind the closing quote. -/
theorem read (Q : Quoting double allowed write) {fuel : Nat} {c : Cursor}
    {pieces : List (List Char)} {cs rest : List Char} (hcs : ∀ x ∈ cs, allowed x)
    (hrest : c.rest = cs.flatMap write ++ quoteOf double :: rest) (hcolumn : 0 < c.column)
    (hnext : double = false → rest.head? ≠ some '\'') (hfuel : cs.length < fuel) :
    readQuotedFrom double fuel c pieces =
      .ok (joinPieces pieces ++ cs, c.past (cs.flatMap write ++ [quoteOf double]) rest) := by
  induction fuel generalizing c pieces cs with
  | zero => omega
  | succ fuel ih =>
    cases cs with
    | nil => simpa using readQuotedFrom_quote hrest hcolumn hnext
    | cons x cs =>
      have hcolumn' : ∀ xs ys, 0 < (c.past xs ys).column := fun _ _ => by
        simp only [Cursor.past]
        omega
      by_cases hx : x = ' '
      · -- the spaces at the start are taken together
        subst hx
        obtain ⟨spaces, others, rfl, hspaces, hothers⟩ := exists_run (· == ' ') cs
        simp only [beq_iff_eq] at hspaces
        simp only [List.forall_mem_cons, List.forall_mem_append] at hcs
        have hhead : others.head? ≠ some ' ' := fun h => by simpa using hothers ' ' h
        have hwrite : (' ' :: (spaces ++ others)).flatMap write =
            ' ' :: spaces ++ others.flatMap write := by
          rw [List.flatMap_cons, List.flatMap_append, Q.space, Q.flatMap_spaces hspaces]
          rfl
        rw [hwrite, List.append_assoc] at hrest
        rw [readQuotedFrom_spaces hrest hcolumn hspaces (Q.isGap_head hcs.2.2 hhead),
          ih hcs.2.2 rfl (hcolumn' _ _) (by simp at hfuel; omega), Cursor.past_past,
          joinPieces_cons, hwrite]
        simp
      · rw [List.forall_mem_cons] at hcs
        rw [List.flatMap_cons, List.append_assoc] at hrest
        rw [Q.step hcs.1 hx hrest hcolumn, ih hcs.2 rfl (hcolumn' _ _) (by simp at hfuel; omega),
          Cursor.past_past, joinPieces_cons]
        simp

end Quoting

/-- Between single quotes a character stands for itself, and a quote is written twice. -/
theorem quoting_single : Quoting false (fun x => isPrintable x = true)
    (fun x => if x == '\'' then [x, x] else [x]) where
  space := rfl
  printable {x} hx y hy := by
    have heq : y = x := by
      split at hy <;> simpa using hy
    rwa [heq]
  head {x} _ hne := by
    split
    · exact ⟨x, [x], rfl, hne⟩
    · exact ⟨x, [], rfl, hne⟩
  step {x} hx hne {fuel c pieces rest} hrest hcolumn := by
    have hgap : isGap x = false := by simpa [isGap_eq_of_isPrintable hx] using hne
    have hbreak := isBreak_of_isPrintable hx
    by_cases hquote : x = '\''
    · subst hquote
      have hpast := Cursor.advance_eq_past hrest (by simp [hbreak])
      rw [readQuotedFrom, Cursor.isAtDocumentMark_of_column hcolumn, ← hpast, hrest]
      simp [hgap]
    · have hpast : c.next = c.past [x] rest :=
        Cursor.next_eq_past (by simpa [hquote] using hrest) hbreak
      rw [readQuotedFrom, Cursor.isAtDocumentMark_of_column hcolumn, hrest]
      simp [hgap, hquote, hpast]

/-! ### Escapes -/

theorem length_hexDigits (width n : Nat) : (hexDigits width n).length = width := by
  induction width generalizing n with
  | zero => rfl
  | succ width ih => simp [hexDigits, ih]

theorem isPrintable_of_mem_hexDigits {width n : Nat} {x : Char} (hx : x ∈ hexDigits width n) :
    isPrintable x = true := by
  induction width generalizing n with
  | zero => simp [hexDigits] at hx
  | succ width ih =>
    rw [hexDigits, List.mem_append, List.mem_singleton] at hx
    rcases hx with hx | rfl
    · exact ih hx
    · have hall : ∀ d < 16, isPrintable (Nat.digitChar d).toUpper = true := by decide
      exact hall _ (Nat.mod_lt n (by decide))

theorem readDigits?_hexDigits {width n : Nat} (hn : n < 16 ^ width) :
    Text.readDigits? 16 (hexDigits width n) 0 = some n := by
  induction width generalizing n with
  | zero =>
    have hzero : n = 0 := by omega
    rw [hzero]
    rfl
  | succ width ih =>
    have hfirst := ih (n := n / 16) (by omega)
    have hlast := Text.digitValue?_toUpper_digitChar (Nat.mod_lt n (by decide : 0 < 16))
    rw [hexDigits, Text.readDigits?_append_singleton hfirst hlast, Nat.mul_comm, Nat.div_add_mod]

/-- An escape by the number of a character. -/
theorem readEscape_hexDigits {letter x : Char} {width : Nat}
    (hletter : escapes.lookup letter = none) (hwidth : hexLength? letter = some width)
    (hpos : 0 < width) (hx : x.toNat < 16 ^ width) (rest : List Char) :
    readEscape (letter :: hexDigits width x.toNat ++ rest) = .ok (x, width + 1) := by
  have htake : (hexDigits width x.toNat ++ rest).take width = hexDigits width x.toNat := by
    rw [List.take_append_of_le_length (by rw [length_hexDigits]), List.take_of_length_le]
    rw [length_hexDigits]
  have hread : Text.readNat? 16 (hexDigits width x.toNat) = some x.toNat := by
    rw [Text.readNat?, if_neg, readDigits?_hexDigits hx]
    rw [List.isEmpty_iff, ← List.length_eq_zero_iff, length_hexDigits]
    omega
  have hvalid : x.toNat.isValidChar := x.valid
  rw [List.cons_append, readEscape]
  simp only [hletter, hwidth, htake, length_hexDigits, if_true, hread, hvalid, Char.ofNat_toNat]

/-- An escape by a letter. The tab has two letters, of which the printable one is written. -/
theorem readEscape_letter {letter x : Char} (h : escapeLetter? x = some letter) :
    (∀ rest, readEscape (letter :: rest) = .ok (x, 1)) ∧ isPrintable letter = true := by
  have hall : ∀ p ∈ escapes, ∀ q ∈ escapes.find? (·.2 == p.2),
      escapes.lookup q.1 = some q.2 ∧ isPrintable q.1 = true := by decide
  obtain ⟨p, hp, rfl⟩ := Option.map_eq_some_iff.mp h
  have hmeans : p.2 = x := by simpa using List.find?_some hp
  subst hmeans
  obtain ⟨hlookup, hprintable⟩ := hall p (List.mem_of_find?_eq_some hp) p hp
  exact ⟨fun rest => by rw [readEscape, hlookup], hprintable⟩

/-- A character that is escaped reads back. -/
theorem escapeChar_spec {x : Char} (hx : (isPrintable x && x != '"' && x != '\\') = false) :
    ∃ body, escapeChar x = '\\' :: body ∧ (∀ y ∈ body, isPrintable y = true) ∧
      ∀ rest, readEscape (body ++ rest) = .ok (x, body.length) := by
  have hbound : x.toNat < 16 ^ 8 := by
    have hvalid : x.toNat.isValidChar := x.valid
    unfold Nat.isValidChar at hvalid
    omega
  have hnumber : ∀ {letter width}, isPrintable letter = true → escapes.lookup letter = none →
      hexLength? letter = some width → 0 < width → x.toNat < 16 ^ width →
      ∃ body, '\\' :: letter :: hexDigits width x.toNat = '\\' :: body ∧
        (∀ y ∈ body, isPrintable y = true) ∧
        ∀ rest, readEscape (body ++ rest) = .ok (x, body.length) := by
    intro letter width hletter hlookup hwidth hpos hlt
    refine ⟨letter :: hexDigits width x.toNat, rfl, ?_, fun rest => ?_⟩
    · exact List.forall_mem_cons.mpr ⟨hletter, fun _ => isPrintable_of_mem_hexDigits⟩
    · rw [readEscape_hexDigits hlookup hwidth hpos hlt, List.length_cons, length_hexDigits]
  rw [escapeChar, if_neg (by simp [hx])]
  split
  · next letter hletter =>
    obtain ⟨hread, hprintable⟩ := readEscape_letter hletter
    exact ⟨[letter], rfl, by simpa using hprintable, hread⟩
  · split
    · next hlt => exact hnumber (by decide) (by decide) rfl (by decide) hlt
    · split
      · next hlt => exact hnumber (by decide) (by decide) rfl (by decide) hlt
      · exact hnumber (by decide) (by decide) rfl (by decide) hbound

theorem escapeChar_of_plain {x : Char} (hx : (isPrintable x && x != '"' && x != '\\') = true) :
    escapeChar x = [x] := by
  rw [escapeChar, if_pos hx]

/-- Between double quotes a character stands for itself or is escaped. -/
theorem quoting_double : Quoting true (fun _ => True) escapeChar where
  space := rfl
  printable {x} _ y hy := by
    cases hx : isPrintable x && x != '"' && x != '\\' with
    | true =>
      rw [escapeChar_of_plain hx, List.mem_singleton] at hy
      simp only [Bool.and_eq_true] at hx
      rw [hy]
      exact hx.1.1
    | false =>
      obtain ⟨body, hbody, hprintable, -⟩ := escapeChar_spec hx
      rw [hbody, List.mem_cons] at hy
      rcases hy with rfl | hy
      · decide
      · exact hprintable y hy
  head {x} _ hne := by
    cases hx : isPrintable x && x != '"' && x != '\\' with
    | true => exact ⟨x, [], escapeChar_of_plain hx, hne⟩
    | false =>
      obtain ⟨body, hbody, -⟩ := escapeChar_spec hx
      exact ⟨'\\', body, hbody, by decide⟩
  step {x} _ hne {fuel c pieces rest} hrest hcolumn := by
    rw [readQuotedFrom, Cursor.isAtDocumentMark_of_column hcolumn]
    cases hx : isPrintable x && x != '"' && x != '\\' with
    | true =>
      rw [escapeChar_of_plain hx] at hrest ⊢
      simp only [Bool.and_eq_true, bne_iff_ne, ne_eq] at hx
      have hgap : isGap x = false := by simpa [isGap_eq_of_isPrintable hx.1.1] using hne
      have hpast : c.next = c.past [x] rest :=
        Cursor.next_eq_past hrest (isBreak_of_isPrintable hx.1.1)
      rw [hrest]
      simp [hgap, hx.1.2, hx.2, hpast]
    | false =>
      obtain ⟨body, hbody, hprintable, hread⟩ := escapeChar_spec hx
      rw [hbody] at hrest ⊢
      have hpast : c.advance (body.length + 1) = c.past ('\\' :: body) rest :=
        Cursor.advance_eq_past hrest (List.forall_mem_cons.mpr
          ⟨by decide, fun y hy => isBreak_of_isPrintable (hprintable y hy)⟩)
      have hbreak : (body ++ rest).head?.any isBreak = false := by
        cases body with
        | nil => cases hread []
        | cons y ys => simpa using isBreak_of_isPrintable (hprintable y List.mem_cons_self)
      have hescape : isGap '\\' = false := by decide
      rw [hrest, List.cons_append]
      simp [-List.head?_append, hescape, hbreak, hread, hpast, bind, Except.bind]

/-- A text between quotes. -/
def quoted (double : Bool) (cs : List Char) : List Char :=
  if double then doubleQuote cs else singleQuote cs

theorem quoted_eq_cons (double : Bool) (cs : List Char) :
    ∃ rest, quoted double cs = quoteOf double :: rest := by
  cases double <;> exact ⟨_, rfl⟩

theorem isPrintable_of_mem_quoted {double : Bool} {cs : List Char}
    (hcs : double = false → ∀ x ∈ cs, isPrintable x = true) :
    ∀ x ∈ quoted double cs, isPrintable x = true := by
  have hall : ∀ {allowed write}, Quoting double allowed write → (∀ x ∈ cs, allowed x) →
      ∀ x ∈ quoteOf double :: cs.flatMap write ++ [quoteOf double], isPrintable x = true := by
    intro allowed write Q hallowed x hx
    simp only [List.mem_append, List.mem_cons, List.mem_flatMap, List.not_mem_nil, or_false] at hx
    have hquote : isPrintable (quoteOf double) = true := by cases double <;> decide
    rcases hx with (rfl | ⟨y, hy, hx⟩) | rfl
    · exact hquote
    · exact Q.printable (hallowed y hy) x hx
    · exact hquote
  cases double with
  | false => exact hall quoting_single (hcs rfl)
  | true => exact hall quoting_double fun _ _ => trivial

/-- **A text between quotes reads back.** Between single quotes all its characters have to be
printable, and no quote may follow. -/
theorem readQuoted_quoted {double : Bool} {fuel : Nat} {c : Cursor} {cs rest : List Char}
    (hrest : c.rest = quoted double cs ++ rest)
    (hcs : double = false → ∀ x ∈ cs, isPrintable x = true)
    (hnext : double = false → rest.head? ≠ some '\'') (hfuel : (quoted double cs).length ≤ fuel) :
    readQuoted double fuel c = .ok (cs, c.past (quoted double cs) rest) := by
  have hread : ∀ {allowed write}, Quoting double allowed write → (∀ x ∈ cs, allowed x) →
      quoted double cs = quoteOf double :: cs.flatMap write ++ [quoteOf double] →
      readQuoted double fuel c = .ok (cs, c.past (quoted double cs) rest) := by
    intro allowed write Q hallowed hquoted
    have hlength := Q.length_le_length_flatMap hallowed
    have hfuel' : cs.length < fuel := by
      rw [hquoted] at hfuel
      simp only [List.length_append, List.length_cons] at hfuel
      omega
    rw [hquoted, List.append_assoc, List.cons_append] at hrest
    have hopen : c.next = c.past [quoteOf double] (cs.flatMap write ++ quoteOf double :: rest) :=
      Cursor.next_eq_past hrest (by cases double <;> rfl)
    rw [readQuoted, hopen, Q.read hallowed rfl (by simp [Cursor.past]) hnext hfuel',
      Cursor.past_past, hquoted]
    rfl
  cases double with
  | false => exact hread quoting_single (hcs rfl) rfl
  | true => exact hread quoting_double (fun _ _ => trivial) rfl

end ProgramGraph.Yaml
