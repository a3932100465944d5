import ProgramGraph.Proofs.Yaml.Plain
import ProgramGraph.Proofs.Yaml.Quoted
import ProgramGraph.Yaml.TokenStream

/-!
# Lines read back

The scan of a text that is written line by line. `Scan.Stands` describes the scan between two
tokens: the tokens so far, the columns of the collections around, and what is left of the text.
`Scan.Reads` says that from such a place on, at the start of a line, the scan ends with given
tokens; each lemma about a construct (a scalar at the end of its line, a key with its colon, a
hyphen, an empty pair of brackets) leads from one such place to the next. Whether a scalar is
written plain or between quotes (`Written`) makes a difference only inside its line: a plain scalar
takes the end of the line with it, and a scalar between quotes leaves it to the blanks that are
skipped.
-/

namespace ProgramGraph.Yaml

/-! ### Scalars on one line -/

/-- How a scalar is written on one line: its characters, its style and its text. -/
inductive Written : List Char → ScalarStyle → List Char → Prop where
  | plain {cs : List Char} (h : IsPlain cs) : Written cs .plain cs
  | quoted (double : Bool) {cs : List Char}
      (h : double = false → ∀ x ∈ cs, isPrintable x = true) :
      Written (quoted double cs) (if double then .doubleQuoted else .singleQuoted) cs

theorem isIndicator_eq (x : Char) :
    Scan.isIndicator x = (x == '-' || x == '?' || x == ':' || isOpeningMark x) := by
  have hperm : "-?:,[]\x7b\x7d#&*!|>'\"%@\x60".toList.Perm
      ('-' :: '?' :: ':' :: "#,[]\x7b\x7d&*!|>'\"%@\x60".toList) := by decide
  rw [Scan.isIndicator, isOpeningMark, Bool.eq_iff_iff]
  rw [List.contains_iff_mem, hperm.mem_iff]
  simp only [List.contains_iff_mem, List.mem_cons, Bool.or_eq_true, beq_iff_eq, or_assoc]

/-- A plain text that starts with a mark of the block style has something behind the mark. -/
theorem IsPlain.second {x : Char} {cs : List Char} (h : IsPlain (x :: cs))
    (hx : x = '?' ∨ x = ':' ∨ x = '-') : ∃ y ys, cs = y :: ys ∧ isGap y = false := by
  have hmarks := h.needsMarks_eq
  simp only [needsMarks, Bool.or_eq_false_iff] at hmarks
  have hsecond := hmarks.1.2
  cases cs with
  | nil => rcases hx with rfl | rfl | rfl <;> simp at hsecond
  | cons y ys =>
    refine ⟨y, ys, rfl, ?_⟩
    rw [isGap_eq_of_isPrintable (h.printable y (by simp))]
    rcases hx with rfl | rfl | rfl <;> simpa using hsecond

/-- A character that starts a token wherever it stands. -/
def isSolid (c : Char) : Bool :=
  !isGap c && c != '#' && c != '\ufeff'

theorem isSolid_of_isPrintable {x : Char} (h : isPrintable x = true) (hspace : x ≠ ' ')
    (hcomment : x ≠ '#') : isSolid x = true := by
  have hmark : x ≠ '\ufeff' := by
    rintro rfl
    exact absurd h (by decide)
  simp [isSolid, isGap_eq_of_isPrintable h, hspace, hcomment, hmark]

/-- What is written starts with a solid character. -/
theorem Written.exists_cons {out cs : List Char} {style : ScalarStyle} (h : Written out style cs) :
    ∃ x xs, out = x :: xs ∧ isSolid x = true := by
  cases h with
  | plain h =>
    obtain ⟨x, xs, rfl⟩ := List.exists_cons_of_ne_nil h.ne_nil
    have hat := h.atText (c := ⟨x :: xs, 0, 0, 0⟩) (List.append_nil _).symm rfl
    exact ⟨x, xs, rfl, isSolid_of_isPrintable (h.printable x List.mem_cons_self)
      (by simpa using hat.noSpace) (by simpa using hat.noComment)⟩
  | quoted double h =>
    obtain ⟨inner, hquoted⟩ := quoted_eq_cons double cs
    exact ⟨quoteOf double, inner, hquoted, by cases double <;> decide⟩

/-- What is written is printable. -/
theorem Written.printable {out cs : List Char} {style : ScalarStyle} (h : Written out style cs) :
    ∀ x ∈ out, isPrintable x = true := by
  cases h with
  | plain h => exact h.printable
  | quoted double h => exact isPrintable_of_mem_quoted h

namespace Scan

variable {s : Scan} {cs rest : List Char} {fuel : Nat}

theorem scanToken_isPlain {x : Char} (h : IsPlain (x :: cs)) (hflow : s.inFlow = false)
    (hrest : s.cursor.rest = x :: cs ++ rest) (hword : plainWord false rest = .ok []) :
    s.scanToken x fuel = s.scanPlain fuel := by
  obtain ⟨hstart, hend⟩ := h.not_startsWith hrest hword
  have hmark : isOpeningMark x = false := by simpa using h.isOpeningMark_head
  have hne : ∀ y, isOpeningMark y = true → ¬ x = y := fun y hy => by
    rintro rfl
    rw [hmark] at hy
    cases hy
  have hgap : isGap x = false := by
    have hspace := (h.atText hrest hword).noSpace
    rw [isGap_eq_of_isPrintable (h.printable x List.mem_cons_self)]
    simpa using hspace
  have hfollowing : x = '?' ∨ x = ':' ∨ x = '-' → isGapOrEnd (s.cursor.peekAt 1) = false := by
    intro hx
    obtain ⟨y, ys, rfl, hy⟩ := h.second hx
    simpa [Cursor.peekAt, hrest, isGapOrEnd] using hy
  have hstands : ∀ {y}, (y = '?' ∨ y = ':' ∨ y = '-') →
      (x == y && isGapOrEnd (s.cursor.peekAt 1)) = false := by
    intro y hy
    by_cases hxy : x = y
    · rw [hfollowing (hxy ▸ hy), Bool.and_false]
    · rw [beq_eq_false_iff_ne.mpr hxy, Bool.false_and]
  have hplain : startsPlain false x (s.cursor.peekAt 1) = true := by
    by_cases hx : x = '?' ∨ x = ':' ∨ x = '-'
    · have hgap' := hfollowing hx
      have htab : (s.cursor.peekAt 1).any isSpaceOrTab = false := by
        cases hd : s.cursor.peekAt 1 with
        | none => rfl
        | some d =>
          rw [hd, isGapOrEnd, isGap, Bool.or_eq_false_iff] at hgap'
          simpa using hgap'.1
      rcases hx with rfl | rfl | rfl <;> simp [startsPlain, hgap', htab]
    · push Not at hx
      simp [startsPlain, isIndicator_eq, hgap, hmark, hx]
  simp (disch := decide) [scanToken, hflow, Cursor.isAtMark, hstart, hend, hne, hstands, hplain]

/-- Only a hyphen or a point can start a mark between documents. -/
theorem isAtMark_eq_false {c : Cursor} {x : Char} (hrest : c.rest = x :: rest) (hhyphen : x ≠ '-')
    (hpoint : x ≠ '.') : c.isAtMark "---" = false ∧ c.isAtMark "..." = false := by
  have hstart : c.startsWith "---" = false := by
    rw [Cursor.startsWith, hrest]
    exact isPrefixOf_eq_false hhyphen _ _
  have hend : c.startsWith "..." = false := by
    rw [Cursor.startsWith, hrest]
    exact isPrefixOf_eq_false hpoint _ _
  simp [Cursor.isAtMark, hstart, hend]

theorem scanToken_quote {double : Bool} (hflow : s.inFlow = false)
    (hrest : s.cursor.rest = quoteOf double :: rest) :
    s.scanToken (quoteOf double) fuel = s.scanQuoted double fuel := by
  obtain ⟨hstart, hend⟩ :=
    isAtMark_eq_false hrest (by cases double <;> decide) (by cases double <;> decide)
  cases double <;> simp [scanToken, quoteOf, hflow, hstart, hend]

/-- A scalar is added to the tokens. The scan then stands behind it, or, where a plain scalar ends
its line, behind the gap that follows. -/
theorem scanToken_written {out : List Char} {style : ScalarStyle} (hw : Written out style cs)
    {s' : Scan} (hnote : s.noteKey = .ok s') (hcursor : s'.cursor = s.cursor)
    (hindent : s'.indent ≤ s.cursor.column) (hflow : s.inFlow = false) (hflow' : s'.inFlow = false)
    (hrest : s.cursor.rest = out ++ rest) (hword : plainWord false rest = .ok [])
    {gap : List Char} {c : Cursor} (hspan : (s.cursor.past out rest).span isGap = (gap, c))
    (hend : gap = [] ∨ hasEarlyTab (s'.indent + 1) gap false 0 = false ∧
      (c.column : Int) < s'.indent + 1)
    (hfuel : out.length < fuel) :
    ∃ x c' allowed, out.head? = some x ∧
      s.scanToken x fuel = .ok { s'.push (.scalar style (String.ofList cs)) with
        cursor := c', keyAllowed := allowed } ∧
      (c' = s.cursor.past out rest ∧ allowed = false ∨ c' = c ∧ allowed = gap.any isBreak) := by
  cases hw with
  | plain h =>
    obtain ⟨x, xs, rfl⟩ := List.exists_cons_of_ne_nil h.ne_nil
    have hread := h.readPlain_eq (c := s.cursor) hrest hword hspan hend (by omega) hfuel
    refine ⟨x, c, gap.any isBreak, rfl, ?_, Or.inr ⟨rfl, rfl⟩⟩
    rw [scanToken_isPlain h hflow hrest hword, scanPlain, hnote]
    simp only [bind, Except.bind, hflow', hcursor, hread]
    rfl
  | quoted double h =>
    obtain ⟨inner, hquoted⟩ := quoted_eq_cons double cs
    have hnext : double = false → rest.head? ≠ some '\'' := fun _ heq => by
      rcases head_of_plainWord_eq_nil hword _ heq with hgap | hcolon
      · exact absurd hgap (by decide)
      · exact absurd hcolon (by decide)
    have hread := readQuoted_quoted (c := s.cursor) hrest h hnext hfuel.le
    have hopen : s.cursor.rest = quoteOf double :: (inner ++ rest) := by
      rw [hrest, hquoted, List.cons_append]
    refine ⟨quoteOf double, _, false, by rw [hquoted]; rfl, ?_, Or.inl ⟨rfl, rfl⟩⟩
    rw [scanToken_quote hflow hopen, scanQuoted, hnote]
    simp only [bind, Except.bind, hcursor, hread]
    rfl

/-! ### Places between tokens -/

/-- The column of the innermost of the collections that are open at the given columns. -/
def indentOf : List Nat → Int
  | [] => -1
  | column :: _ => column

/-- The columns around the innermost one. -/
def outerOf : List Nat → List Int
  | [] => []
  | _ :: levels => indentOf levels :: outerOf levels

/-- The scan has read some tokens, is inside block collections at some columns, and stands at a
column in front of the rest of the text; no key has been started. -/
structure Stands (s : Scan) (ts : List Token) (levels : List Nat) (rest : List Char) (column : Nat)
    (allowed : Bool) : Prop where
  tokens_eq : s.tokens = ts
  indent_eq : s.indent = indentOf levels
  outer_eq : s.outer = outerOf levels
  rest_eq : s.cursor.rest = rest
  column_eq : s.cursor.column = column
  candidates_eq : s.candidates = [none]
  keyAllowed_eq : s.keyAllowed = allowed

section Stands

variable {ts : List Token} {levels : List Nat} {column level : Nat} {allowed : Bool}

theorem tokens_push (s : Scan) (t : Token) : (s.push t).tokens = s.tokens ++ [t] := by
  simp [push, tokens]

theorem Stands.inFlow_eq (h : s.Stands ts levels rest column allowed) : s.inFlow = false := by
  simp [inFlow, h.candidates_eq]

theorem Stands.dropStale_eq (h : s.Stands ts levels rest column allowed) : s.dropStale = .ok s := by
  have hsame : { s with candidates := [none] } = s := by rw [← h.candidates_eq]
  rw [dropStale, h.candidates_eq]
  exact congrArg Except.ok hsame

/-- Inside a collection nothing is closed. -/
theorem closeTo_eq_self (hflow : s.inFlow = false) (hindent : s.indent = indentOf levels)
    (houter : s.outer = outerOf levels) (hlevels : indentOf levels ≤ column) :
    s.closeTo column = s := by
  have hsame : { s with indent := indentOf levels, outer := outerOf levels } = s := by
    rw [← hindent, ← houter]
  rw [closeTo, hflow, hindent, houter]
  cases levels with
  | nil => exact hsame
  | cons level levels =>
    rw [if_neg Bool.false_ne_true, outerOf, closeFrom, if_neg (not_lt.mpr hlevels)]
    exact hsame

theorem closeFrom_with (column : Int) (outer : List Int) (indent : Int) (s : Scan) (i : Int)
    (o : List Int) : closeFrom column outer indent { s with indent := i, outer := o } =
      closeFrom column outer indent s := by
  induction outer generalizing indent s with
  | nil => rfl
  | cons next outer ih =>
    rw [closeFrom, closeFrom]
    split
    · exact ih next (s.push .blockEnd)
    · rfl

/-- Outside of a collection it is closed. -/
theorem Stands.closeTo_cons (h : s.Stands ts (level :: levels) rest column allowed) {target : Int}
    (htarget : target < level) :
    ∃ s' : Scan, s'.Stands (ts ++ [.blockEnd]) levels rest column allowed ∧
      s.closeTo target = s'.closeTo target ∧ s'.cursor = s.cursor := by
  let s' := { s.push .blockEnd with indent := indentOf levels, outer := outerOf levels }
  have hs' : s'.Stands (ts ++ [.blockEnd]) levels rest column allowed :=
    ⟨(tokens_push s .blockEnd).trans (by rw [h.tokens_eq]), rfl, rfl, h.rest_eq, h.column_eq,
      h.candidates_eq, h.keyAllowed_eq⟩
  refine ⟨s', hs', ?_, rfl⟩
  rw [closeTo, h.inFlow_eq, closeTo, hs'.inFlow_eq, if_neg Bool.false_ne_true,
    if_neg Bool.false_ne_true, h.indent_eq, h.outer_eq, outerOf, closeFrom, indentOf,
    if_pos htarget]
  exact (closeFrom_with target (outerOf levels) (indentOf levels) (s.push .blockEnd) _ _).symm

/-! ### Reading on -/

/-- Reads on from a place where no blank stands. -/
def resume (fuel : Nat) (s : Scan) : Except String (List Token) :=
  match s.cursor.peek with
  | none => do return (← s.closeAll).tokens
  | some c => do run fuel (← (s.closeTo s.cursor.column).scanToken c (fuel + 1))

theorem run_succ (fuel : Nat) (s : Scan) :
    s.run (fuel + 1) = (s.skipBlanks (fuel + 1)).dropStale >>= resume fuel := by
  rw [run]
  rfl

/-- Where nothing is closed, reading on means to add a token. -/
theorem resume_of_scanToken {x : Char} {s' : Scan} (hrest : s.cursor.rest = x :: rest)
    (hclose : s.closeTo s.cursor.column = s) (hscan : s.scanToken x (fuel + 1) = .ok s') :
    s.resume fuel = s'.run fuel := by
  have hpeek : s.cursor.peek = some x := by rw [Cursor.peek, hrest]; rfl
  rw [resume, hpeek]
  simp only [hclose, hscan]
  rfl

/-- Inside the collections that are open, nothing is closed. -/
theorem Stands.resume_eq {x : Char} {s' : Scan} (h : s.Stands ts levels (x :: rest) column allowed)
    (hlevels : indentOf levels ≤ column) (hscan : s.scanToken x (fuel + 1) = .ok s') :
    s.resume fuel = s'.run fuel := by
  refine resume_of_scanToken h.rest_eq ?_ hscan
  rw [h.column_eq]
  exact closeTo_eq_self h.inFlow_eq h.indent_eq h.outer_eq hlevels

/-- From every scan that stands here, at the start of a line, the tokens of the whole document are
the given ones. -/
def Reads (ts : List Token) (levels : List Nat) (rest : List Char) (column : Nat)
    (result : List Token) : Prop :=
  ∀ ⦃s : Scan⦄ ⦃fuel : Nat⦄, s.Stands ts levels rest column true → rest.length < fuel →
    s.resume fuel = .ok result

/-- At the end of the document, outside of all collections, no token is added. -/
theorem reads_end (ts : List Token) (column : Nat) : Reads ts [] [] column ts := by
  intro s fuel h _
  have hpeek : s.cursor.peek = none := by rw [Cursor.peek, h.rest_eq]; rfl
  have hclose : s.closeTo (-1) = s := by
    have hsame : { s with indent := indentOf [], outer := outerOf [] } = s := by
      rw [← h.indent_eq, ← h.outer_eq]
    rw [closeTo, h.inFlow_eq, h.indent_eq, h.outer_eq]
    exact hsame
  rw [resume, hpeek]
  simp only [closeAll, hclose, forgetKey, h.candidates_eq]
  exact congrArg Except.ok h.tokens_eq

/-- A collection is closed by a line further out, and by the end of the document. -/
theorem Reads.close {result : List Token} (hlevel : rest = [] ∨ column < level)
    (h : Reads (ts ++ [.blockEnd]) levels rest column result) :
    Reads ts (level :: levels) rest column result := by
  intro s fuel hs hfuel
  cases rest with
  | nil =>
    obtain ⟨s', hs', hclose, hcursor⟩ := hs.closeTo_cons (by omega : (-1 : Int) < level)
    rw [← h hs' hfuel, resume, resume, hcursor, closeAll, closeAll, hclose]
    have hpeek : s.cursor.peek = none := by rw [Cursor.peek, hs.rest_eq]; rfl
    rw [hpeek]
  | cons x rest =>
    have hlt : column < level := by simpa using hlevel
    obtain ⟨s', hs', hclose, hcursor⟩ := hs.closeTo_cons (by omega : (column : Int) < level)
    have hpeek : s.cursor.peek = some x := by rw [Cursor.peek, hs.rest_eq]; rfl
    rw [← h hs' hfuel, resume, resume, hcursor, hpeek, hs.column_eq, hclose]

/-! ### Between lines -/

theorem next_newline {c : Cursor} (hrest : c.rest = '\n' :: rest) :
    c.next = ⟨rest, c.index + '\n'.utf8Size, c.line + 1, 0⟩ := by
  simp [Cursor.next, hrest, isBreak]

/-- Spaces are skipped up to a solid character. -/
theorem skipBlanks_spaces {spaces : List Char} (hrest : s.cursor.rest = spaces ++ rest)
    (hspaces : ∀ x ∈ spaces, x = ' ') (hsolid : ∀ x ∈ rest.head?, isSolid x = true) :
    s.skipBlanks (fuel + 1) = { s with cursor := s.cursor.past spaces rest } := by
  have hsolid' : ∀ x ∈ rest.head?, isGap x = false ∧ x ≠ '#' ∧ x ≠ '\ufeff' := by
    simpa [isSolid, and_assoc] using hsolid
  have hmark : (s.cursor.column == 0 && s.cursor.peek == some '\ufeff') = false := by
    rw [Cursor.peek, hrest]
    cases spaces with
    | nil =>
      have hne : rest.head? ≠ some '\ufeff' := fun h => (hsolid' _ h).2.2 rfl
      simp [hne]
    | cons x spaces => simp [hspaces x List.mem_cons_self]
  have hspan : s.cursor.skipWhile (fun ch => ch == ' ' || ((s.inFlow || !s.keyAllowed) &&
      ch == '\t')) = s.cursor.past spaces rest := by
    rw [Cursor.skipWhile, Cursor.span_eq_past hrest]
    · intro x hx
      simp [hspaces x hx]
    · intro x hx
      rw [hspaces x hx]
      rfl
    · intro x hx
      have hgap := (hsolid' x hx).1
      simp only [isGap, isSpaceOrTab, Bool.or_eq_false_iff] at hgap
      simp [hgap.1.1, hgap.1.2]
  have hcomment : (s.cursor.past spaces rest).peek ≠ some '#' := fun h => (hsolid' _ h).2.1 rfl
  have hbreak : (s.cursor.past spaces rest).peek.any isBreak = false := by
    cases rest with
    | nil => rfl
    | cons x rest =>
      have hgap := (hsolid' x rfl).1
      rw [isGap, Bool.or_eq_false_iff] at hgap
      simpa [Cursor.peek, Cursor.past] using hgap.2
  rw [skipBlanks]
  simp [hmark, hspan, hcomment, hbreak]

theorem skipBlanks_solid (hsolid : ∀ x ∈ s.cursor.rest.head?, isSolid x = true) :
    s.skipBlanks (fuel + 1) = s := by
  have hpast : s.cursor.past [] s.cursor.rest = s.cursor := rfl
  rw [skipBlanks_spaces (List.nil_append _).symm (List.forall_mem_nil _) hsolid, hpast]

/-- Where nothing is skipped, given up or closed, a token is added. -/
theorem run_of_scanToken {x : Char} {s' : Scan} (hrest : s.cursor.rest = x :: rest)
    (hsolid : isSolid x = true) (hdrop : s.dropStale = .ok s)
    (hclose : s.closeTo s.cursor.column = s) (hscan : s.scanToken x (fuel + 1) = .ok s') :
    s.run (fuel + 1) = s'.run fuel := by
  have hskip : s.skipBlanks (fuel + 1) = s := by
    refine skipBlanks_solid ?_
    rw [hrest]
    rintro _ ⟨⟩
    exact hsolid
  rw [run_succ, hskip, hdrop]
  exact resume_of_scanToken hrest hclose hscan

theorem skipBlanks_newline (hrest : s.cursor.rest = '\n' :: rest) :
    s.skipBlanks (fuel + 1) = skipBlanks fuel { s with
      cursor := s.cursor.next, keyAllowed := !s.inFlow || s.keyAllowed } := by
  have hpeek : s.cursor.peek = some '\n' := by rw [Cursor.peek, hrest]; rfl
  have hspan : s.cursor.skipWhile (fun ch => ch == ' ' || ((s.inFlow || !s.keyAllowed) &&
      ch == '\t')) = s.cursor := by
    rw [Cursor.skipWhile, Cursor.span, hrest]
    simp [Cursor.advance]
  rw [skipBlanks]
  simp [hpeek, hspan, isBreak]

/-- The scan has read some tokens and is inside collections at some columns. A key that may have
been started is not required, and is given up on the line with the given number. -/
structure Holds (s : Scan) (ts : List Token) (levels : List Nat) (line : Nat) : Prop where
  tokens_eq : s.tokens = ts
  indent_eq : s.indent = indentOf levels
  outer_eq : s.outer = outerOf levels
  candidates_eq : ∃ key : Option KeyCandidate, s.candidates = [key] ∧
    ∀ k ∈ key, k.required = false ∧ k.line < line

/-- Once blanks are skipped, the scan stands at the start of a line. -/
def EndsLine (s : Scan) (ts : List Token) (levels : List Nat) (rest : List Char) (column : Nat) :
    Prop :=
  ∀ fuel, ∃ s', (s.skipBlanks (fuel + 2)).dropStale = .ok s' ∧ s'.Stands ts levels rest column true

theorem EndsLine.run_eq {result : List Token} (h : s.EndsLine ts levels rest column)
    (hreads : Reads ts levels rest column result) (hfuel : rest.length + 1 < fuel) :
    s.run fuel = .ok result := by
  obtain ⟨fuel, rfl⟩ : ∃ n, fuel = n + 2 := ⟨fuel - 2, by omega⟩
  obtain ⟨s', hdrop, hs'⟩ := h fuel
  rw [run_succ, hdrop]
  exact hreads hs' (by omega)

/-- A key that was not required is given up on a later line. -/
theorem Holds.dropStale_eq {line : Nat} (h : s.Holds ts levels line)
    (hline : line ≤ s.cursor.line) : s.dropStale = .ok { s with candidates := [none] } := by
  obtain ⟨key, hkey, hstale⟩ := h.candidates_eq
  rw [dropStale, hkey]
  cases key with
  | none => rfl
  | some k =>
    obtain ⟨hrequired, hk⟩ := hstale k rfl
    have hlt : k.line < s.cursor.line := by omega
    simp [hrequired, hlt]

theorem Holds.inFlow_eq {line : Nat} (h : s.Holds ts levels line) : s.inFlow = false := by
  obtain ⟨key, hkey, -⟩ := h.candidates_eq
  simp [inFlow, hkey]

theorem Holds.push {line : Nat} (h : s.Holds ts levels line) (t : Token) (c : Cursor)
    (allowed : Bool) :
    Holds { s.push t with cursor := c, keyAllowed := allowed } (ts ++ [t]) levels line :=
  ⟨(tokens_push s t).trans (by rw [h.tokens_eq]), h.indent_eq, h.outer_eq, h.candidates_eq⟩

/-- The scan stands at the end of a line. -/
theorem Holds.endsLine_newline (h : s.Holds ts levels (s.cursor.line + 1)) {spaces : List Char}
    (hrest : s.cursor.rest = '\n' :: (spaces ++ rest)) (hspaces : ∀ x ∈ spaces, x = ' ')
    (hsolid : ∀ x ∈ rest.head?, isSolid x = true) : s.EndsLine ts levels rest spaces.length := by
  intro fuel
  have hnext := next_newline hrest
  have hskip : s.skipBlanks (fuel + 2) =
      { s with cursor := s.cursor.next.past spaces rest, keyAllowed := true } := by
    rw [skipBlanks_newline hrest, skipBlanks_spaces (by rw [hnext]) hspaces hsolid, h.inFlow_eq]
    rfl
  have hholds : Holds { s with cursor := s.cursor.next.past spaces rest, keyAllowed := true } ts
      levels (s.cursor.line + 1) := ⟨h.tokens_eq, h.indent_eq, h.outer_eq, h.candidates_eq⟩
  refine ⟨{ s with
      cursor := s.cursor.next.past spaces rest, keyAllowed := true, candidates := [none] }, ?_,
    h.tokens_eq, h.indent_eq, h.outer_eq, rfl, ?_, rfl, rfl⟩
  · rw [hskip, hholds.dropStale_eq (by simp [hnext, Cursor.past])]
  · simp [hnext, Cursor.past]

/-- The scan stands at the start of the next line already. -/
theorem Holds.endsLine_below (h : s.Holds ts levels s.cursor.line) (hrest : s.cursor.rest = rest)
    (hcolumn : s.cursor.column = column) (hallowed : s.keyAllowed = true)
    (hsolid : ∀ x ∈ rest.head?, isSolid x = true) : s.EndsLine ts levels rest column := by
  intro fuel
  have hskip : s.skipBlanks (fuel + 2) = s := skipBlanks_solid (by rwa [hrest])
  exact ⟨{ s with candidates := [none] }, by rw [hskip, h.dropStale_eq le_rfl], h.tokens_eq,
    h.indent_eq, h.outer_eq, hrest, hcolumn, rfl, hallowed⟩

/-! ### Scalars at the end of a line -/

/-- The key that may start here. -/
def keyHere (s : Scan) : KeyCandidate where
  slot := s.slots.size
  required := s.indent == (s.cursor.column : Int)
  index := s.cursor.index
  line := s.cursor.line
  column := s.cursor.column

theorem Stands.noteKey_eq (h : s.Stands ts levels rest column true) :
    s.noteKey = .ok { s with slots := s.slots.push [], candidates := [some s.keyHere] } := by
  simp [noteKey, h.keyAllowed_eq, forgetKey, h.candidates_eq, h.inFlow_eq, keyHere, bind,
    Except.bind]
  rfl

/-- Further in than the collections around it, no key is required. -/
theorem Stands.exists_noteKey (h : s.Stands ts levels rest column allowed)
    (hcolumn : indentOf levels < column) : ∃ s', s.noteKey = .ok s' ∧ s'.cursor = s.cursor ∧
      s'.Holds ts levels (s.cursor.line + 1) := by
  cases allowed with
  | false =>
    exact ⟨s, by simp [noteKey, h.keyAllowed_eq], rfl, h.tokens_eq, h.indent_eq, h.outer_eq, none,
      h.candidates_eq, by simp⟩
  | true =>
    have hrequired : s.keyHere.required = false := by
      simp only [keyHere, h.indent_eq, h.column_eq, beq_eq_false_iff_ne]
      omega
    refine ⟨_, h.noteKey_eq, rfl, ?_, h.indent_eq, h.outer_eq, some s.keyHere, rfl, ?_⟩
    · simp [tokens, ← h.tokens_eq]
    · rintro k ⟨⟩
      exact ⟨hrequired, Nat.lt_succ_self _⟩

/-- A single space in front of a token is skipped. -/
theorem Stands.run_space (h : s.Stands ts levels (' ' :: rest) column allowed)
    (hsolid : ∀ x ∈ rest.head?, isSolid x = true) :
    ∃ s' : Scan, s.run (fuel + 1) = s'.resume fuel ∧
      s'.Stands ts levels rest (column + 1) allowed := by
  have hskip : s.skipBlanks (fuel + 1) = { s with cursor := s.cursor.past [' '] rest } :=
    skipBlanks_spaces h.rest_eq (by simp) hsolid
  have hs' : Stands { s with cursor := s.cursor.past [' '] rest } ts levels rest (column + 1)
      allowed :=
    ⟨h.tokens_eq, h.indent_eq, h.outer_eq, rfl, by simp [Cursor.past, h.column_eq],
      h.candidates_eq, h.keyAllowed_eq⟩
  refine ⟨_, ?_, hs'⟩
  rw [run_succ, hskip, hs'.dropStale_eq]
  rfl

/-- The gap at the end of a line reaches to the first character of the next one. -/
theorem span_newline {c : Cursor} {spaces : List Char} (hrest : c.rest = '\n' :: (spaces ++ rest))
    (hspaces : ∀ x ∈ spaces, x = ' ') (hsolid : ∀ x ∈ rest.head?, isSolid x = true) :
    c.span isGap = ('\n' :: spaces, c.next.past spaces rest) := by
  have hnext : c.next.rest = spaces ++ rest := by rw [next_newline hrest]
  have hgap : ∀ x ∈ '\n' :: spaces, isGap x = true :=
    List.forall_mem_cons.mpr ⟨rfl, fun x hx => by rw [hspaces x hx]; rfl⟩
  have hstop : ∀ x ∈ rest.head?, isGap x = false := fun x hx => by
    have := hsolid x hx
    simp only [isSolid, Bool.and_eq_true, Bool.not_eq_true'] at this
    exact this.1.1
  have hrun : c.rest.takeWhile isGap = '\n' :: spaces := by
    rw [hrest, ← List.cons_append, takeWhile_append_eq hgap hstop]
  rw [Cursor.span, hrun, List.length_cons, Cursor.advance, Cursor.advance_eq_past hnext]
  intro x hx
  rw [hspaces x hx]
  rfl

/-- **A scalar at the end of a line** is added to the tokens, whether it is the value of a key or an
item of a sequence. -/
theorem Stands.run_scalar {out spaces : List Char} {style : ScalarStyle} {result : List Token}
    (hw : Written out style cs)
    (h : s.Stands ts levels (' ' :: out ++ '\n' :: (spaces ++ rest)) column allowed)
    (hcolumn : indentOf levels < column) (hspaces : ∀ x ∈ spaces, x = ' ')
    (hsolid : ∀ x ∈ rest.head?, isSolid x = true) (hlevel : spaces.length ≤ indentOf levels)
    (hreads : Reads (ts ++ [.scalar style (String.ofList cs)]) levels rest spaces.length result)
    (hfuel : s.cursor.rest.length + 1 < fuel) : s.run fuel = .ok result := by
  obtain ⟨fuel, rfl⟩ : ∃ n, fuel = n + 1 := ⟨fuel - 1, by omega⟩
  obtain ⟨x, xs, hout, hx⟩ := hw.exists_cons
  rw [h.rest_eq] at hfuel
  simp only [List.length_append, List.length_cons] at hfuel
  obtain ⟨s₁, hrun, h₁⟩ := h.run_space (by simpa [hout] using hx)
  obtain ⟨s₂, hnote, hcursor, h₂⟩ := h₁.exists_noteKey (by omega)
  -- the line ends in a gap that reaches to the next line
  generalize hc : s₁.cursor.past out ('\n' :: (spaces ++ rest)) = c
  have hc' : c.rest = '\n' :: (spaces ++ rest) := by rw [← hc]; rfl
  have hnext := next_newline hc'
  have hspan := span_newline hc' hspaces hsolid
  rw [← hc] at hspan
  have hend : hasEarlyTab (s₂.indent + 1) ('\n' :: spaces) false 0 = false ∧
      ((c.next.past spaces rest).column : Int) < s₂.indent + 1 := by
    refine ⟨hasEarlyTab_of_no_tab ?_ _ _ _, ?_⟩
    · exact List.forall_mem_cons.mpr ⟨by decide, fun y hy => by rw [hspaces y hy]; decide⟩
    · rw [h₂.indent_eq, hnext]
      simp only [Cursor.past]
      omega
  obtain ⟨y, c', allowed', hy, hscan, hplace⟩ := scanToken_written hw hnote hcursor
    (by rw [h₂.indent_eq, h₁.column_eq]; omega) h₁.inFlow_eq h₂.inFlow_eq h₁.rest_eq rfl
    (by rw [hspan, ← hc]) (Or.inr hend) (by omega : out.length < fuel + 1)
  obtain rfl : x = y := by simpa [hout] using hy
  have hstands := hout ▸ h₁
  rw [hrun, hstands.resume_eq (by omega) hscan]
  -- the rest of the line is skipped now, or it has been
  rcases hplace with ⟨rfl, rfl⟩ | ⟨rfl, rfl⟩
  · have hholds := h₂.push (.scalar style (String.ofList cs)) c false
    rw [← hc] at hholds
    exact (hholds.endsLine_newline rfl hspaces hsolid).run_eq hreads (by omega)
  · have hholds := h₂.push (.scalar style (String.ofList cs)) (c.next.past spaces rest) true
    have hline : (c.next.past spaces rest).line = s₁.cursor.line + 1 := by
      rw [hnext, ← hc]
      rfl
    rw [← hline] at hholds
    have hends : EndsLine _ _ _ rest spaces.length :=
      hholds.endsLine_below rfl (by simp [hnext, Cursor.past]) rfl hsolid
    exact hends.run_eq hreads (by omega)

/-! ### Keys -/

/-- The token that opens a mapping at a column, unless one is open there. -/
def opening (levels : List Nat) (column : Nat) : List Token :=
  if indentOf levels < column then [.blockMappingStart] else []

/-- The columns of the collections once a mapping is open at a column. -/
def opened (levels : List Nat) (column : Nat) : List Nat :=
  if indentOf levels < column then column :: levels else levels

theorem scanToken_colon (hcolumn : 0 < s.cursor.column) (hflow : s.inFlow = false)
    (hrest : s.cursor.rest = ':' :: rest) (hgap : isGapOrEnd rest.head? = true) :
    s.scanToken ':' fuel = s.scanColon := by
  have hzero : (s.cursor.column == 0) = false := by simpa using Nat.pos_iff_ne_zero.mp hcolumn
  have hpeek : isGapOrEnd (s.cursor.peekAt 1) = true := by
    rw [Cursor.peekAt, hrest]
    simpa [List.head?_eq_getElem?] using hgap
  simp [scanToken, Cursor.isAtMark, hzero, hflow, hpeek]

/-- The tokens once the slot of a key is filled. -/
theorem flatten_setIfInBounds (slots : Array (List Token)) (key text : List Token) :
    (((slots.push []).push text).setIfInBounds slots.size key).toList.flatten =
      slots.toList.flatten ++ (key ++ text) := by
  simp

/-- The text of a key has been read, and a slot in front of it is kept. -/
structure HasKey (s : Scan) (slots : Array (List Token)) (text : Token) (k : KeyCandidate)
    (levels : List Nat) : Prop where
  slots_eq : s.slots = (slots.push []).push [text]
  candidates_eq : s.candidates = [some k]
  slot_eq : k.slot = slots.size
  indent_eq : s.indent = indentOf levels
  outer_eq : s.outer = outerOf levels
  line_eq : k.line = s.cursor.line
  index_le : s.cursor.index ≤ k.index + keyReach
  column_lt : k.column < s.cursor.column

/-- What filling the slot of a key changes. -/
theorem HasKey.fillKey_eq {slots : Array (List Token)} {text : Token} {k : KeyCandidate}
    (h : s.HasKey slots text k levels) : s.fillKey k = { s with
      slots := s.slots.setIfInBounds slots.size (opening levels k.column ++ [.key])
      candidates := [none]
      indent := indentOf (opened levels k.column)
      outer := outerOf (opened levels k.column) } := by
  have hopens : Scan.opensAt k.column { s with candidates := [none] } =
      decide (indentOf levels < k.column) := by
    simp [opensAt, inFlow, h.indent_eq]
  simp only [fillKey, h.candidates_eq, List.tail_cons, hopens, h.slot_eq, opening, opened]
  by_cases hlt : indentOf levels < k.column
  · simp [hlt, indentTo, h.indent_eq, h.outer_eq]
    exact ⟨rfl, rfl⟩
  · simp [hlt, h.indent_eq, h.outer_eq]

/-- A colon fills the slot of the key before it. -/
theorem HasKey.run_colon {slots : Array (List Token)} {text : Token} {k : KeyCandidate}
    (h : s.HasKey slots text k levels) (hrest : s.cursor.rest = ':' :: rest)
    (hgap : isGapOrEnd rest.head? = true) (hlevels : indentOf levels ≤ k.column) :
    ∃ s' : Scan, s.run (fuel + 1) = s'.run fuel ∧
      s'.Stands (slots.toList.flatten ++ (opening levels k.column ++ [.key, text, .value]))
        (opened levels k.column) rest (s.cursor.column + 1) false := by
  have hflow : s.inFlow = false := by simp [inFlow, h.candidates_eq]
  have hdrop : s.dropStale = .ok s := by
    have hsame : { s with candidates := [some k] } = s := by rw [← h.candidates_eq]
    have hkeep : ¬ (k.line < s.cursor.line ∨ k.index + keyReach < s.cursor.index) := by
      simp [h.line_eq, h.index_le]
    rw [dropStale, h.candidates_eq]
    simp [hkeep]
    exact hsame
  have hnext : s.cursor.next = s.cursor.past [':'] rest := Cursor.next_eq_past hrest (by decide)
  have hcolumn := h.column_lt
  have hclose : s.closeTo s.cursor.column = s :=
    closeTo_eq_self hflow h.indent_eq h.outer_eq (by omega)
  have hscan : s.scanToken ':' (fuel + 1) = s.scanColon :=
    scanToken_colon (by omega) hflow hrest hgap
  have hcolon : s.scanColon = .ok { (s.fillKey k).push .value with
      cursor := s.cursor.next, keyAllowed := false } := by
    have hcursor : (s.fillKey k).cursor = s.cursor := by rw [h.fillKey_eq]
    rw [scanColon, h.candidates_eq, ← hcursor]
    rfl
  have hrun : s.run (fuel + 1) = Scan.run fuel { (s.fillKey k).push .value with
      cursor := s.cursor.next, keyAllowed := false } :=
    run_of_scanToken hrest (by decide) hdrop hclose (hscan.trans hcolon)
  refine ⟨_, hrun, ?_⟩
  rw [h.fillKey_eq]
  refine ⟨?_, rfl, rfl, ?_, ?_, rfl, rfl⟩
  · have hflatten := flatten_setIfInBounds slots (opening levels k.column ++ [.key]) [text]
    rw [← h.slots_eq] at hflatten
    refine (tokens_push _ .value).trans ?_
    rw [tokens, hflatten]
    simp
  · rw [hnext]
    rfl
  · rw [hnext]
    rfl

/-- **A key and its colon** fill the slot that was kept for the key. -/
theorem Stands.resume_key {out : List Char} {style : ScalarStyle} (hw : Written out style cs)
    (h : s.Stands ts levels (out ++ ':' :: rest) column true) (hlevels : indentOf levels ≤ column)
    (hgap : isGapOrEnd rest.head? = true) (hreach : (out.map Char.utf8Size).sum ≤ keyReach)
    (hfuel : out.length ≤ fuel) :
    ∃ s' : Scan, s.resume (fuel + 1) = s'.run fuel ∧
      s'.Stands (ts ++ (opening levels column ++ [.key, .scalar style (String.ofList cs), .value]))
        (opened levels column) rest (column + out.length + 1) false := by
  obtain ⟨x, xs, hout, hx⟩ := hw.exists_cons
  have hword : plainWord false (':' :: rest) = .ok [] := by
    simp [plainWord, isGap, isSpaceOrTab, isBreak, hgap]
  generalize hc : s.cursor.past out (':' :: rest) = c
  have hrest : c.rest = ':' :: rest := by rw [← hc]; rfl
  have hcolumn : c.column = column + out.length := by rw [← hc, ← h.column_eq]; rfl
  have hspan : c.span isGap = ([], c) := by
    simp [Cursor.span, hrest, isGap, isSpaceOrTab, isBreak, Cursor.advance]
  -- the key is read
  obtain ⟨y, c', allowed, hy, hscan, hplace⟩ := scanToken_written hw h.noteKey_eq rfl
    (by rw [h.column_eq]; exact h.indent_eq ▸ hlevels) h.inFlow_eq rfl h.rest_eq hword
    (by rw [hc, hspan]) (Or.inl rfl) (by omega : out.length < fuel + 1 + 1)
  obtain rfl : x = y := by simpa [hout] using hy
  obtain ⟨rfl, rfl⟩ : c' = c ∧ allowed = false := by
    rw [hc] at hplace
    simpa using hplace
  have hstands := hout ▸ h
  let s₂ : Scan := { Scan.push { s with
      slots := s.slots.push [], candidates := [some s.keyHere] } (.scalar style (String.ofList cs))
    with cursor := c', keyAllowed := false }
  have hresume : s.resume (fuel + 1) = s₂.run (fuel + 1) := hstands.resume_eq hlevels hscan
  -- it ends within reach of its colon
  have hkey : s₂.HasKey s.slots (.scalar style (String.ofList cs)) s.keyHere levels := by
    refine ⟨rfl, rfl, rfl, h.indent_eq, h.outer_eq, ?_, ?_, ?_⟩
    · have hline : s.cursor.line = c'.line := by rw [← hc]; rfl
      exact hline
    · have hindex : s₂.cursor.index = s.cursor.index + (out.map Char.utf8Size).sum :=
        (congrArg Cursor.index hc).symm
      have hstart : s.keyHere.index = s.cursor.index := rfl
      omega
    · have hpos : 0 < out.length := by simp [hout]
      have hstart : s.keyHere.column = column := h.column_eq
      have hend : s₂.cursor.column = column + out.length := hcolumn
      omega
  have hstart : s.keyHere.column = column := h.column_eq
  obtain ⟨s', hrun, hs'⟩ := hkey.run_colon hrest hgap (by rw [hstart]; exact hlevels)
  rw [hstart, show s₂.cursor.column = column + out.length from hcolumn] at hs'
  refine ⟨s', hresume.trans hrun, ?_⟩
  rw [← h.tokens_eq]
  exact hs'

/-! ### Items and empty sequences -/

/-- **A hyphen** at the column of the mapping around it starts an item. -/
theorem Stands.resume_hyphen (h : s.Stands ts (level :: levels) ('-' :: ' ' :: rest) level true) :
    ∃ s' : Scan, s.resume fuel = s'.run fuel ∧
      s'.Stands (ts ++ [.blockEntry]) (level :: levels) (' ' :: rest) (level + 1) true := by
  have hnext : s.cursor.next = s.cursor.past ['-'] (' ' :: rest) :=
    Cursor.next_eq_past h.rest_eq (by decide)
  have hpeek : s.cursor.peekAt 1 = some ' ' := by rw [Cursor.peekAt, h.rest_eq]; rfl
  have hmark : s.cursor.startsWith "---" = false ∧ s.cursor.startsWith "..." = false := by
    rw [Cursor.startsWith, Cursor.startsWith, h.rest_eq]
    exact ⟨rfl, rfl⟩
  have hopen : s.openHere .blockSequenceStart = s := by
    simp [openHere, opensAt, h.indent_eq, h.column_eq, indentOf]
  have hscan : s.scanToken '-' (fuel + 1) = .ok { s.push .blockEntry with
      cursor := s.cursor.next, keyAllowed := true } := by
    have hgap : isGapOrEnd (some ' ') = true := rfl
    simp [scanToken, Cursor.isAtMark, hmark, hpeek, hgap, scanHyphen, h.inFlow_eq, h.keyAllowed_eq,
      hopen, forgetKey, h.candidates_eq]
  refine ⟨_, h.resume_eq le_rfl hscan, ?_, h.indent_eq, h.outer_eq, ?_, ?_, h.candidates_eq, rfl⟩
  · exact (tokens_push s _).trans (by rw [h.tokens_eq])
  · rw [hnext]
    rfl
  · rw [hnext, ← h.column_eq]
    rfl

/-- **An empty sequence** at the end of a line. -/
theorem Stands.run_brackets {spaces : List Char} {result : List Token}
    (h : s.Stands ts levels (' ' :: '[' :: ']' :: '\n' :: (spaces ++ rest)) column false)
    (hcolumn : indentOf levels < column) (hspaces : ∀ x ∈ spaces, x = ' ')
    (hsolid : ∀ x ∈ rest.head?, isSolid x = true)
    (hreads : Reads (ts ++ [.flowSequenceStart, .flowSequenceEnd]) levels rest spaces.length result)
    (hfuel : s.cursor.rest.length + 1 < fuel) : s.run fuel = .ok result := by
  obtain ⟨fuel, rfl⟩ : ∃ n, fuel = n + 2 := ⟨fuel - 2, by omega⟩
  rw [h.rest_eq] at hfuel
  simp only [List.length_append, List.length_cons] at hfuel
  have hbracket : ∀ x ∈ ('[' :: ']' :: '\n' :: (spaces ++ rest)).head?, isSolid x = true := by
    rintro x ⟨⟩
    decide
  obtain ⟨s₁, hrun, h₁⟩ := h.run_space hbracket
  -- the opening bracket
  let s₂ : Scan := { s₁.push .flowSequenceStart with
    cursor := s₁.cursor.next, candidates := [none, none], keyAllowed := true }
  have hnext : s₁.cursor.next = s₁.cursor.past ['['] (']' :: '\n' :: (spaces ++ rest)) :=
    Cursor.next_eq_past h₁.rest_eq (by decide)
  have hopening : s₁.scanToken '[' (fuel + 1 + 1) = .ok s₂ := by
    obtain ⟨hstart, hend⟩ := isAtMark_eq_false h₁.rest_eq (by decide) (by decide)
    simp [scanToken, hstart, hend, scanOpening, noteKey, h₁.keyAllowed_eq, h₁.candidates_eq, s₂]
  rw [hrun, h₁.resume_eq (by omega) hopening]
  -- the closing bracket
  let s₃ : Scan := { s₂.push .flowSequenceEnd with
    cursor := s₂.cursor.next, candidates := [none], keyAllowed := false }
  have hrest : s₂.cursor.rest = ']' :: '\n' :: (spaces ++ rest) := congrArg Cursor.rest hnext
  have hclosing : s₂.scanToken ']' (fuel + 1) = .ok s₃ := by
    obtain ⟨hstart, hend⟩ := isAtMark_eq_false hrest (by decide) (by decide)
    simp [scanToken, hstart, hend, scanClosing, forgetKey, inFlow, s₂, s₃]
  have hrun₂ : s₂.run (fuel + 1) = s₃.run fuel :=
    run_of_scanToken hrest (by decide) rfl rfl hclosing
  have hholds : s₃.Holds (ts ++ [.flowSequenceStart, .flowSequenceEnd]) levels
      (s₃.cursor.line + 1) := by
    refine ⟨?_, h₁.indent_eq, h₁.outer_eq, none, rfl, by simp⟩
    have htokens : s₃.tokens = s₁.tokens ++ [.flowSequenceStart] ++ [.flowSequenceEnd] :=
      (tokens_push s₂ _).trans (congrArg (· ++ _) (tokens_push s₁ _))
    rw [htokens, h₁.tokens_eq, List.append_assoc]
    rfl
  have hrest₃ : s₃.cursor.rest = '\n' :: (spaces ++ rest) := by
    have hnext₂ : s₂.cursor.next = s₂.cursor.past [']'] ('\n' :: (spaces ++ rest)) :=
      Cursor.next_eq_past hrest (by decide)
    exact congrArg Cursor.rest hnext₂
  rw [hrun₂]
  exact (hholds.endsLine_newline hrest₃ hspaces hsolid).run_eq hreads (by omega)

end Stands

end Scan

end ProgramGraph.Yaml
