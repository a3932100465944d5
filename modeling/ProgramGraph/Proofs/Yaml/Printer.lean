import Mathlib.Data.String.Basic
import ProgramGraph.Proofs.Yaml.TokenStream

/-!
# Printed values read as tokens

`Value.IsBlock` are the values that are written in block style: scalars, sequences of scalars and
mappings from short texts to such values. Their text is a list of lines, each with its indentation,
and `Value.AddsTokens` says of a value behind a key that the scan of its lines adds its tokens
(`Value.blockTokens`) and goes on with the line after them. It is proved by induction on the value:
`readsBelow_items` and `readsBelow_entries` follow the items of a sequence and the entries of a
mapping, line by line, and the first line that is indented less closes the mapping. The text of a
mapping as a whole has the tokens of the mapping (`Value.tokens_print`).
-/

namespace ProgramGraph.Yaml

/-! ### Lines as characters -/

/-- The characters of lines that are indented to a column. -/
def charsOf (column : Nat) (lines : List String) : List Char :=
  lines.flatMap fun line => List.replicate column ' ' ++ line.toList ++ ['\n']

theorem charsOf_cons (column : Nat) (line : String) (lines : List String) :
    charsOf column (line :: lines) =
      List.replicate column ' ' ++ (line.toList ++ '\n' :: charsOf column lines) := by
  simp [charsOf]

theorem charsOf_append (column : Nat) (xs ys : List String) :
    charsOf column (xs ++ ys) = charsOf column xs ++ charsOf column ys :=
  List.flatMap_append

theorem charsOf_nest (column : Nat) (lines : List String) :
    charsOf column (Value.nest lines) = charsOf (column + 2) lines := by
  simp only [charsOf, Value.nest, List.flatMap_map]
  refine List.flatMap_congr fun line _ => ?_
  rw [String.toList_append, List.replicate_add]
  simp

theorem toList_print (v : Value) : v.print.toList = charsOf 0 v.lines := by
  simp [Value.print, String.toList_join, charsOf, List.flatMap_map]

/-! ### Scalars -/

/-- The style in which a text is written. -/
def textStyle (s : String) : ScalarStyle :=
  if s.toList.any (!isPrintable ·) then .doubleQuoted
  else if readsOtherwise s || needsMarks s.toList then .singleQuoted
  else .plain

/-- **A text is written so that it reads back.** -/
theorem written_printText (s : String) :
    Written (printText s).toList (textStyle s) s.toList := by
  unfold printText textStyle
  by_cases hany : s.toList.any (!isPrintable ·) = true
  · rw [if_pos hany, if_pos hany, String.toList_ofList]
    exact .quoted true (by simp)
  · have hprintable : ∀ x ∈ s.toList, isPrintable x = true := by simpa using hany
    rw [if_neg hany, if_neg hany]
    by_cases hmarks : (readsOtherwise s || needsMarks s.toList) = true
    · rw [if_pos hmarks, if_pos hmarks, String.toList_ofList]
      exact .quoted false fun _ => hprintable
    · rw [if_neg hmarks, if_neg hmarks]
      rw [Bool.or_eq_true, not_or, Bool.not_eq_true, Bool.not_eq_true] at hmarks
      refine .plain ⟨?_, hprintable, hmarks.2⟩
      intro hnil
      obtain rfl : s = "" := by simpa using hnil
      exact absurd hmarks.1 (by decide)

theorem breaksOff_of_isDigit {cs : List Char} (hcs : ∀ x ∈ cs, x.isDigit = true) :
    breaksOff cs = false := by
  induction cs with
  | nil => rfl
  | cons x cs ih =>
    rw [List.forall_mem_cons] at hcs
    have hcolon : x ≠ ':' := by rintro rfl; exact absurd hcs.1 (by decide)
    have hspace : x ≠ ' ' := by rintro rfl; exact absurd hcs.1 (by decide)
    simp [breaksOff, hcolon, hspace, ih hcs.2]

/-- Digits are written plain. -/
theorem isPlain_of_isDigit {cs : List Char} (hne : cs ≠ []) (hcs : ∀ x ∈ cs, x.isDigit = true) :
    IsPlain cs := by
  have hother : ∀ x ∈ cs, ∀ y : Char, y.isDigit = false → ¬ x = y := by
    rintro x hx y hy rfl
    rw [hcs x hx] at hy
    cases hy
  obtain ⟨x, xs, hcons⟩ := List.exists_cons_of_ne_nil hne
  have hx : ∀ y : Char, y.isDigit = false → ¬ x = y := hother x (by simp [hcons])
  have hopening : isOpeningMark x = false := by
    have hmarks : ∀ y ∈ "#,[]\x7b\x7d&*!|>'\"%@\x60".toList, y.isDigit = false :=
      forall_mem_of_all (by decide)
    rw [isOpeningMark, ← Bool.not_eq_true, List.contains_iff_mem]
    exact fun hmem => hx x (hmarks x hmem) rfl
  have hlast : cs.getLast? ≠ some ' ' := fun h =>
    hother ' ' (List.mem_of_getLast? h) ' ' (by decide) rfl
  refine ⟨hne, fun y hy => ?_, ?_⟩
  · have hdigit := hcs y hy
    simp only [Char.isDigit, Bool.and_eq_true, decide_eq_true_eq, UInt32.le_iff_toNat_le,
      ge_iff_le] at hdigit
    have hlo : 48 ≤ y.toNat := hdigit.1
    have hhi : y.toNat ≤ 57 := hdigit.2
    simp [isPrintable]
    omega
  · have hoff := breaksOff_of_isDigit hcs
    rw [hcons] at hoff hlast ⊢
    simp (disch := decide) [needsMarks, hoff, hlast, hopening, hx]
    exact ⟨isPrefixOf_eq_false (hx '-' (by decide)) _ _,
      isPrefixOf_eq_false (hx '.' (by decide)) _ _⟩

/-- Values that are written as scalars and read back: a number is a word of 64 bits. -/
inductive Value.IsScalar : Value → Prop where
  | null : IsScalar .null
  | bool (b : Bool) : IsScalar (.bool b)
  | word {n : Nat} (h : n < 2 ^ 64) : IsScalar (.int n)
  | string (s : String) : IsScalar (.string s)

namespace Value

/-- The style of a scalar. -/
def scalarStyle : Value → ScalarStyle
  | string s => textStyle s
  | _ => .plain

/-- The text of a scalar. -/
def scalarText : Value → String
  | string s => s
  | v => v.inline?.getD ""

theorem IsScalar.written {v : Value} (h : v.IsScalar) :
    ∃ text, v.inline? = some text ∧ Written text.toList v.scalarStyle v.scalarText.toList := by
  cases h with
  | null => exact ⟨"null", rfl, .plain ⟨by decide, forall_mem_of_all (by decide), by decide⟩⟩
  | bool b =>
    cases b <;> exact ⟨_, rfl, .plain ⟨by decide, forall_mem_of_all (by decide), by decide⟩⟩
  | @word n h =>
    refine ⟨toString n, rfl, .plain ?_⟩
    rw [Nat.toString_eq_ofList_toDigits, String.toList_ofList]
    exact isPlain_of_isDigit Nat.toDigits_ne_nil fun x =>
      Nat.isDigit_of_mem_toDigits (by decide) (by decide)
  | string s => exact ⟨_, rfl, written_printText s⟩

/-! ### Values in block style -/

/-- A text whose written form is within the reach of a key. -/
def IsKey (k : Value) : Prop :=
  ∃ s, k = .string s ∧ ((printText s).toList.map Char.utf8Size).sum ≤ Scan.keyReach

/-- Values that are written in block style and read back: scalars, sequences of scalars, and
mappings with distinct keys, which are nested at most `depth` deep. -/
inductive IsBlock : (depth : Nat) → Value → Prop where
  | scalar {depth : Nat} {v : Value} (h : v.IsScalar) : IsBlock depth v
  | sequence {depth : Nat} {items : List Value} (h : ∀ v ∈ items, v.IsScalar) :
      IsBlock depth (.sequence items)
  | mapping {depth : Nat} {entries : List (Value × Value)} (hne : entries ≠ [])
      (hkeys : ∀ e ∈ entries, e.1.IsKey) (hdistinct : hasDuplicateKey entries = false)
      (h : ∀ e ∈ entries, IsBlock depth e.2) : IsBlock (depth + 1) (.mapping entries)

/-- The token of a scalar. -/
def scalarToken (v : Value) : Token :=
  .scalar v.scalarStyle v.scalarText

mutual

/-- The tokens of a value behind a key. -/
def blockTokens : Value → List Token
  | sequence [] => [.flowSequenceStart, .flowSequenceEnd]
  | sequence items => items.flatMap fun v => [.blockEntry, v.scalarToken]
  | mapping entries => .blockMappingStart :: (entryTokens entries ++ [.blockEnd])
  | v => [v.scalarToken]

/-- The tokens of the entries of a mapping. -/
def entryTokens : List (Value × Value) → List Token
  | [] => []
  | (k, v) :: entries => .key :: k.scalarToken :: .value :: (blockTokens v ++ entryTokens entries)

end

/-- The lines of a value below its key. -/
def linesBelow : Value → List String
  | sequence items => itemLines items
  | v => nest v.lines

/-- What is written behind the colon of a key at a column. -/
def afterColon (column : Nat) (v : Value) : List Char :=
  match v.inline? with
  | some text => ' ' :: (text.toList ++ ['\n'])
  | none => '\n' :: charsOf column v.linesBelow

theorem entryLines_cons (s : String) (v : Value) (entries : List (Value × Value)) :
    entryLines ((.string s, v) :: entries) = (match v.inline? with
      | some text => [printText s ++ ": " ++ text]
      | none => (printText s ++ ":" ++ v.tagMarks) :: v.linesBelow) ++ entryLines entries := by
  have hkey : (string s).inline? = some (printText s) := rfl
  conv_lhs => unfold entryLines
  rw [hkey]
  cases v.inline? <;> cases v <;> rfl

theorem charsOf_entryLines {column : Nat} {s : String} {v : Value}
    {entries : List (Value × Value)} (hv : v.tagMarks = "") :
    charsOf column (entryLines ((.string s, v) :: entries)) = List.replicate column ' ' ++
      ((printText s).toList ++ ':' ::
        (afterColon column v ++ charsOf column (entryLines entries))) := by
  rw [entryLines_cons, charsOf_append, afterColon]
  cases v.inline? with
  | some text => simp [charsOf]
  | none => simp [hv, charsOf_cons]

theorem charsOf_itemLines {v : Value} {text : String} (hv : v.inline? = some text)
    (items : List Value) (column : Nat) :
    charsOf column (itemLines (v :: items)) = List.replicate column ' ' ++
      ('-' :: ' ' :: (text.toList ++ '\n' :: charsOf column (itemLines items))) := by
  simp [itemLines, hv, charsOf_cons]

/-! ### Tokens -/

open Scan (Reads opening opened indentOf)

/-- The text goes on with a line that is indented to the level or less, from which the tokens of the
whole document are the given ones. -/
def ReadsBelow (ts : List Token) (levels : List Nat) (level : Nat) (text : List Char)
    (result : List Token) : Prop :=
  ∃ spaces rest, text = spaces ++ rest ∧ (∀ x ∈ spaces, x = ' ') ∧ spaces.length ≤ level ∧
    (∀ x ∈ rest.head?, isSolid x = true) ∧ Reads ts levels rest spaces.length result

/-- Behind a key the value adds its tokens. -/
def AddsTokens (v : Value) : Prop :=
  ∀ ⦃s : Scan⦄ ⦃ts result : List Token⦄ ⦃level : Nat⦄ ⦃levels : List Nat⦄ ⦃text : List Char⦄
    ⦃column fuel : Nat⦄,
    s.Stands ts (level :: levels) (afterColon level v ++ text) column false → level < column →
    ReadsBelow (ts ++ v.blockTokens) (level :: levels) level text result →
    (afterColon level v ++ text).length + 1 < fuel → s.run fuel = .ok result

variable {ts result : List Token} {levels : List Nat} {level column : Nat} {text : List Char}

theorem IsScalar.addsTokens {v : Value} (h : v.IsScalar) : v.AddsTokens := by
  intro s ts result level levels text column fuel hs hcolumn hreads hfuel
  obtain ⟨written, hinline, hw⟩ := h.written
  obtain ⟨spaces, rest, rfl, hspaces, hlevel, hsolid, hreads⟩ := hreads
  have htokens : v.blockTokens = [.scalar v.scalarStyle (String.ofList v.scalarText.toList)] := by
    rw [String.ofList_toList]
    cases h <;> rfl
  have hafter : afterColon level v ++ (spaces ++ rest) =
      ' ' :: written.toList ++ '\n' :: (spaces ++ rest) := by
    simp [afterColon, hinline]
  rw [hafter] at hs hfuel
  rw [htokens] at hreads
  refine hs.run_scalar hw ?_ hspaces hsolid ?_ hreads ?_
  · simpa [indentOf] using hcolumn
  · simpa [indentOf] using hlevel
  · rwa [hs.rest_eq]

/-- A list of items adds a hyphen and a scalar for each item. -/
theorem readsBelow_items {items : List Value} (h : ∀ v ∈ items, v.IsScalar)
    (hreads : ReadsBelow (ts ++ items.flatMap fun v => [.blockEntry, v.scalarToken])
      (level :: levels) level text result) :
    ReadsBelow ts (level :: levels) level (charsOf level (itemLines items) ++ text) result := by
  induction items generalizing ts with
  | nil =>
    rw [List.flatMap_nil, List.append_nil] at hreads
    exact hreads
  | cons v items ih =>
    rw [List.forall_mem_cons] at h
    obtain ⟨written, hinline, hw⟩ := h.1.written
    obtain ⟨spaces, rest, htext, hspaces, hlevel, hsolid, hnext⟩ :=
      @ih (ts ++ [.blockEntry, v.scalarToken]) h.2 (by simpa using hreads)
    refine ⟨List.replicate level ' ',
      '-' :: ' ' :: (written.toList ++ '\n' :: (spaces ++ rest)), ?_, ?_, ?_, ?_, ?_⟩
    · rw [charsOf_itemLines hinline, ← htext]
      simp
    · exact fun x hx => List.eq_of_mem_replicate hx
    · rw [List.length_replicate]
    · rintro x ⟨⟩
      decide
    · intro s fuel hs hfuel
      rw [List.length_replicate] at hs
      obtain ⟨s', hresume, hs'⟩ := hs.resume_hyphen
      rw [← List.cons_append] at hs'
      rw [hresume]
      refine hs'.run_scalar hw ?_ hspaces hsolid ?_ ?_ ?_
      · simp [indentOf]
      · simpa [indentOf] using hlevel
      · rw [String.ofList_toList, List.append_assoc]
        exact hnext
      · rw [hs'.rest_eq]
        simp only [List.length_cons, List.length_append] at hfuel ⊢
        omega

/-- Behind a colon that ends its line the scan goes on below. -/
theorem ReadsBelow.run_eq {s : Scan} {fuel : Nat} {allowed : Bool}
    (h : ReadsBelow ts levels level text result)
    (hs : s.Stands ts levels ('\n' :: text) column allowed) (hfuel : text.length + 1 < fuel) :
    s.run fuel = .ok result := by
  obtain ⟨spaces, rest, rfl, hspaces, -, hsolid, hreads⟩ := h
  have hholds : s.Holds ts levels (s.cursor.line + 1) :=
    ⟨hs.tokens_eq, hs.indent_eq, hs.outer_eq, none, hs.candidates_eq, by simp⟩
  rw [List.length_append] at hfuel
  exact (hholds.endsLine_newline hs.rest_eq hspaces hsolid).run_eq hreads (by omega)

theorem addsTokens_sequence {items : List Value} (h : ∀ v ∈ items, v.IsScalar) :
    (sequence items).AddsTokens := by
  intro s ts result level levels text column fuel hs hcolumn hreads hfuel
  cases items with
  | nil =>
    obtain ⟨spaces, rest, rfl, hspaces, hlevel, hsolid, hreads⟩ := hreads
    have hs' : s.Stands ts (level :: levels) (' ' :: '[' :: ']' :: '\n' :: (spaces ++ rest)) column
        false := hs
    refine hs'.run_brackets ?_ hspaces hsolid hreads ?_
    · simpa [indentOf] using hcolumn
    · rwa [hs'.rest_eq]
  | cons v items =>
    have hbelow := readsBelow_items h hreads
    have hafter : afterColon level (sequence (v :: items)) ++ text =
        '\n' :: (charsOf level (itemLines (v :: items)) ++ text) := rfl
    rw [hafter] at hs hfuel
    rw [List.length_cons] at hfuel
    exact hbelow.run_eq hs (by omega)

theorem isGapOrEnd_afterColon (level : Nat) (v : Value) (text : List Char) :
    isGapOrEnd (afterColon level v ++ text).head? = true := by
  unfold afterColon
  cases v.inline? <;> rfl

/-- A key and its value add their tokens. The first entry of a mapping also opens it. -/
theorem readsBelow_entry {k v : Value} {entries : List (Value × Value)} {outer : List Nat}
    (hk : k.IsKey) (hv : v.AddsTokens) (htags : v.tagMarks = "") (houter : indentOf outer ≤ level)
    (hopened : opened outer level = level :: levels)
    (hreads : ReadsBelow (ts ++ (opening outer level ++ [.key, k.scalarToken, .value]) ++
      v.blockTokens) (level :: levels) level (charsOf level (entryLines entries) ++ text) result) :
    ReadsBelow ts outer level (charsOf level (entryLines ((k, v) :: entries)) ++ text) result := by
  obtain ⟨s, rfl, hreach⟩ := hk
  have hw := written_printText s
  obtain ⟨x, xs, hout, hx⟩ := hw.exists_cons
  refine ⟨List.replicate level ' ', (printText s).toList ++ ':' :: (afterColon level v ++
    (charsOf level (entryLines entries) ++ text)), ?_, ?_, ?_, ?_, ?_⟩
  · rw [charsOf_entryLines htags]
    simp
  · exact fun y hy => List.eq_of_mem_replicate hy
  · rw [List.length_replicate]
  · simpa [hout] using hx
  · intro scan fuel hscan hfuel
    rw [List.length_replicate] at hscan
    simp only [List.length_append, List.length_cons] at hfuel
    obtain ⟨fuel, rfl⟩ : ∃ n, fuel = n + 1 := ⟨fuel - 1, by omega⟩
    obtain ⟨scan', hresume, hscan'⟩ :=
      hscan.resume_key hw houter (isGapOrEnd_afterColon _ _ _) hreach
        (by omega : (printText s).toList.length ≤ fuel)
    rw [hopened, String.ofList_toList] at hscan'
    have hpos : 0 < (printText s).toList.length := by simp [hout]
    rw [hresume]
    refine hv hscan' (by omega) hreads ?_
    simp only [List.length_append]
    omega

/-- The lines of a mapping are read as the tokens of its entries. -/
theorem readsBelow_entries {entries : List (Value × Value)} (hkeys : ∀ e ∈ entries, e.1.IsKey)
    (hvalues : ∀ e ∈ entries, e.2.AddsTokens ∧ e.2.tagMarks = "")
    (hreads : ReadsBelow (ts ++ entryTokens entries) (level :: levels) level text result) :
    ReadsBelow ts (level :: levels) level (charsOf level (entryLines entries) ++ text) result := by
  induction entries generalizing ts with
  | nil =>
    rw [entryTokens, List.append_nil] at hreads
    exact hreads
  | cons e entries ih =>
    obtain ⟨k, v⟩ := e
    rw [List.forall_mem_cons] at hkeys hvalues
    have hopened : opened (level :: levels) level = level :: levels := by simp [opened, indentOf]
    have hopening : opening (level :: levels) level = [] := by simp [opening, indentOf]
    refine readsBelow_entry hkeys.1 hvalues.1.1 hvalues.1.2 le_rfl hopened (ih hkeys.2 hvalues.2 ?_)
    rw [hopening]
    simpa [entryTokens] using hreads

/-- The first entry opens a mapping, and the line after the last one closes it. -/
theorem readsBelow_mapping {entries : List (Value × Value)} (hne : entries ≠ [])
    (hkeys : ∀ e ∈ entries, e.1.IsKey)
    (hvalues : ∀ e ∈ entries, e.2.AddsTokens ∧ e.2.tagMarks = "")
    (houter : indentOf levels < column) (htext : level < column ∨ text = [])
    (hreads : ReadsBelow (ts ++ (mapping entries).blockTokens) levels level text result) :
    ReadsBelow ts levels column (charsOf column (entryLines entries) ++ text) result := by
  obtain ⟨⟨k, v⟩, entries, rfl⟩ := List.exists_cons_of_ne_nil hne
  rw [List.forall_mem_cons] at hkeys hvalues
  have hopened : opened levels column = column :: levels := by simp [opened, houter]
  have hopening : opening levels column = [.blockMappingStart] := by simp [opening, houter]
  refine readsBelow_entry hkeys.1 hvalues.1.1 hvalues.1.2 houter.le hopened
    (readsBelow_entries hkeys.2 hvalues.2 ?_)
  obtain ⟨spaces, rest, rfl, hspaces, hlevel, hsolid, hreads⟩ := hreads
  have hclose : rest = [] ∨ spaces.length < column := by
    rcases htext with hlt | hnil
    · exact Or.inr (by omega)
    · exact Or.inl (List.append_eq_nil_iff.mp hnil).2
  refine ⟨spaces, rest, rfl, hspaces, ?_, hsolid, Reads.close hclose ?_⟩
  · rcases htext with hlt | hnil
    · omega
    · simp [(List.append_eq_nil_iff.mp hnil).1]
  · rw [hopening]
    simpa [blockTokens, entryTokens] using hreads

theorem IsBlock.tagMarks_eq {depth : Nat} {v : Value} (h : IsBlock depth v) : v.tagMarks = "" := by
  cases h with
  | scalar h => cases h <;> rfl
  | sequence h => rfl
  | mapping hne hkeys hdistinct h => rfl

theorem afterColon_mapping {entries : List (Value × Value)} (hne : entries ≠ []) (level : Nat) :
    afterColon level (mapping entries) = '\n' :: charsOf (level + 2) (entryLines entries) := by
  obtain ⟨e, entries, rfl⟩ := List.exists_cons_of_ne_nil hne
  simp [afterColon, inline?, linesBelow, charsOf_nest, lines]

/-- **Every value in block style adds its tokens behind a key.** -/
theorem IsBlock.addsTokens {depth : Nat} {v : Value} (h : IsBlock depth v) : v.AddsTokens := by
  induction h with
  | scalar h => exact h.addsTokens
  | sequence h => exact addsTokens_sequence h
  | @mapping depth entries hne hkeys hdistinct h ih =>
    intro s ts result level levels text column fuel hs hcolumn hreads hfuel
    have hvalues : ∀ e ∈ entries, e.2.AddsTokens ∧ e.2.tagMarks = "" := fun e he =>
      ⟨ih e he, (h e he).tagMarks_eq⟩
    have hindent : indentOf (level :: levels) < (level + 2 : Nat) := by simp [indentOf]
    have hbelow : ReadsBelow ts (level :: levels) (level + 2)
        (charsOf (level + 2) (entryLines entries) ++ text) result :=
      readsBelow_mapping hne hkeys hvalues hindent (Or.inl (by omega)) hreads
    rw [afterColon_mapping hne, List.cons_append] at hs hfuel
    rw [List.length_cons] at hfuel
    exact hbelow.run_eq hs (by omega)

/-- From the start of a document the scan goes on with its first line. -/
theorem ReadsBelow.run_start {fuel : Nat} (h : ReadsBelow [] [] 0 text result)
    (hfuel : text.length + 1 < fuel) :
    Scan.run fuel { cursor := { rest := text } } = .ok result := by
  obtain ⟨spaces, rest, rfl, -, hlevel, hsolid, hreads⟩ := h
  obtain rfl : spaces = [] := List.length_eq_zero_iff.mp (by omega)
  obtain ⟨fuel, rfl⟩ : ∃ n, fuel = n + 1 := ⟨fuel - 1, by omega⟩
  have hs : Scan.Stands { cursor := { rest } } [] [] rest 0 true :=
    ⟨rfl, rfl, rfl, rfl, rfl, rfl, rfl⟩
  rw [List.nil_append] at hfuel ⊢
  rw [Scan.run_succ, Scan.skipBlanks_solid hsolid, hs.dropStale_eq]
  exact hreads hs (by omega)

/-- The scan of the lines of a mapping gives the tokens of its entries. -/
theorem run_print {depth : Nat} {entries : List (Value × Value)}
    (h : IsBlock depth (.mapping entries)) {fuel : Nat}
    (hfuel : (charsOf 0 (entryLines entries)).length + 1 < fuel) :
    Scan.run fuel { cursor := { rest := charsOf 0 (entryLines entries) } } =
      .ok (mapping entries).blockTokens := by
  cases h with
  | scalar h => cases h
  | mapping hne hkeys hdistinct h =>
    have hvalues : ∀ e ∈ entries, e.2.AddsTokens ∧ e.2.tagMarks = "" := fun e he =>
      ⟨(h e he).addsTokens, (h e he).tagMarks_eq⟩
    have hend : ReadsBelow ([] ++ (mapping entries).blockTokens) [] 0 []
        (mapping entries).blockTokens :=
      ⟨[], [], rfl, by simp, le_rfl, by simp, Scan.reads_end _ _⟩
    have hreads : ReadsBelow [] [] 0 (charsOf 0 (entryLines entries) ++ [])
        (mapping entries).blockTokens :=
      readsBelow_mapping hne hkeys hvalues (by simp [indentOf]) (Or.inr rfl) hend
    rw [List.append_nil] at hreads
    exact hreads.run_start hfuel

end Value

/-! ### Characters -/

/-- A character that a printed document may hold. -/
def IsClean (x : Char) : Prop :=
  isPrintable x = true ∨ x = '\n'

instance (x : Char) : Decidable (IsClean x) :=
  inferInstanceAs (Decidable (_ ∨ _))

theorem isClean_replicate (n : Nat) : ∀ x ∈ List.replicate n ' ', IsClean x := by
  intro x hx
  rw [List.eq_of_mem_replicate hx]
  exact Or.inl (by decide)

theorem Written.isClean {out cs : List Char} {style : ScalarStyle}
    (h : Written out style cs) : ∀ x ∈ out, IsClean x :=
  fun x hx => Or.inl (h.printable x hx)

namespace Value

/-- The lines of a mapping are clean if its values are. -/
theorem isClean_entryLines {entries : List (Value × Value)} (hkeys : ∀ e ∈ entries, e.1.IsKey)
    (hvalues : ∀ e ∈ entries, (∀ level, ∀ x ∈ afterColon level e.2, IsClean x) ∧
      e.2.tagMarks = "") (level : Nat) : ∀ x ∈ charsOf level (entryLines entries), IsClean x := by
  induction entries with
  | nil => simp [entryLines, charsOf]
  | cons e entries ih =>
    obtain ⟨k, v⟩ := e
    rw [List.forall_mem_cons] at hkeys hvalues
    obtain ⟨s, rfl, -⟩ := hkeys.1
    rw [charsOf_entryLines hvalues.1.2]
    simp only [List.forall_mem_append, List.forall_mem_cons]
    exact ⟨isClean_replicate level, (written_printText s).isClean, Or.inl (by decide),
      hvalues.1.1 level, ih hkeys.2 hvalues.2⟩

theorem isClean_itemLines {items : List Value} (h : ∀ v ∈ items, v.IsScalar) (level : Nat) :
    ∀ x ∈ charsOf level (itemLines items), IsClean x := by
  induction items with
  | nil => simp [itemLines, charsOf]
  | cons v items ih =>
    rw [List.forall_mem_cons] at h
    obtain ⟨written, hinline, hw⟩ := h.1.written
    rw [charsOf_itemLines hinline]
    simp only [List.forall_mem_append, List.forall_mem_cons]
    exact ⟨isClean_replicate level, Or.inl (by decide), Or.inl (by decide), hw.isClean, Or.inr rfl,
      ih h.2⟩

/-- What is printed of a value in block style needs no control characters. -/
theorem IsBlock.isClean {depth : Nat} {v : Value} (h : IsBlock depth v) (level : Nat) :
    ∀ x ∈ afterColon level v, IsClean x := by
  induction h generalizing level with
  | @scalar depth v h =>
    obtain ⟨text, hinline, hw⟩ := h.written
    simp only [afterColon, hinline, List.forall_mem_cons, List.forall_mem_append]
    exact ⟨Or.inl (by decide), hw.isClean, Or.inr rfl, by simp⟩
  | @sequence depth items h =>
    cases items with
    | nil =>
      change ∀ x ∈ [' ', '[', ']', '\n'], IsClean x
      exact forall_mem_of_all (by decide)
    | cons v items =>
      change ∀ x ∈ '\n' :: charsOf level (itemLines (v :: items)), IsClean x
      rw [List.forall_mem_cons]
      exact ⟨Or.inr rfl, isClean_itemLines h level⟩
  | @mapping depth entries hne hkeys hdistinct h ih =>
    rw [afterColon_mapping hne, List.forall_mem_cons]
    exact ⟨Or.inr rfl, isClean_entryLines hkeys (fun e he => ⟨ih e he, (h e he).tagMarks_eq⟩) _⟩

end Value

theorem unifyBreaks_eq {cs : List Char} (h : ∀ x ∈ cs, IsClean x) : unifyBreaks cs = cs := by
  fun_induction unifyBreaks cs with
  | case1 cs ih => exact absurd (h '\r' (by simp)) (by decide)
  | case2 cs _ ih => exact absurd (h '\r' (by simp)) (by decide)
  | case3 cs ih => exact absurd (h '\u0085' (by simp)) (by decide)
  | case4 c cs _ _ _ ih => rw [ih fun x hx => h x (by simp [hx])]
  | case5 => rfl

/-- A clean text needs no preparation. -/
theorem prepare_eq {text : String} (h : ∀ x ∈ text.toList, IsClean x) :
    prepare text = .ok text.toList := by
  have hallowed : text.toList.all isAllowed = true := by
    rw [List.all_eq_true]
    intro x hx
    rcases h x hx with hx | rfl
    · exact isAllowed_of_isPrintable hx
    · decide
  simp only [prepare, hallowed, if_true, unifyBreaks_eq h]

/-- **The tokens of a printed mapping** are those of its entries. -/
theorem Value.tokens_print {depth : Nat} {entries : List (Value × Value)}
    (h : IsBlock depth (.mapping entries)) :
    tokens (mapping entries).print = .ok (mapping entries).blockTokens := by
  have hchars : (mapping entries).print.toList = charsOf 0 (entryLines entries) := by
    rw [toList_print, lines]
  have hclean : ∀ x ∈ (mapping entries).print.toList, IsClean x := by
    cases h with
    | scalar h => cases h
    | mapping hne hkeys hdistinct h =>
      rw [hchars]
      exact isClean_entryLines hkeys
        (fun e he => ⟨(h e he).isClean, (h e he).tagMarks_eq⟩) 0
  rw [tokens, prepare_eq hclean, hchars]
  exact run_print h (by omega)

end ProgramGraph.Yaml
