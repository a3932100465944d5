import Mathlib.Data.List.DropRight
import ProgramGraph.DataFlow.Statement

/-!
# Comma lists

Every text is a list of entries between commas. An entry stands for the name that is left when the
blanks around it are taken away, if anything is left; blanks inside a name belong to it.

* `trim_eq_iff`: taking the blanks away is finding a text without outer blanks in the entry, with
  nothing but blanks around it.
* `mem_commaList_iff`: the names of a list are those that stand between its commas in this way.

From these two follows how lists are joined, which names can be read at all, and that a list of the
names of a set, however it is laid out, gives back the set.
-/

namespace ProgramGraph

namespace Text

variable {s entry name : String}

/-! ### Blanks around a text -/

/-- There is no blank at either end. -/
structure IsTrimmed (s : String) : Prop where
  first : ∀ c ∈ s.toList.head?, isBlank c = false
  last : ∀ c ∈ s.toList.getLast?, isBlank c = false

instance (s : String) : Decidable (IsTrimmed s) :=
  decidable_of_iff (s.toList.head?.any isBlank = false ∧ s.toList.getLast?.any isBlank = false)
    ⟨fun h => ⟨(Option.any_eq_false ..).mp h.1, (Option.any_eq_false ..).mp h.2⟩,
      fun h => ⟨(Option.any_eq_false ..).mpr h.first, (Option.any_eq_false ..).mpr h.last⟩⟩

/-- There are only blanks. -/
def IsBlanks (s : String) : Prop :=
  ∀ c ∈ s.toList, isBlank c = true

instance (s : String) : Decidable (IsBlanks s) :=
  decidable_of_iff (s.toList.all isBlank = true) List.all_eq_true

/-- The entry is the text with any blanks around it. -/
def Padded (s entry : String) : Prop :=
  ∃ front back, IsBlanks front ∧ IsBlanks back ∧ entry = front ++ s ++ back

theorem isTrimmed_empty : IsTrimmed "" :=
  ⟨nofun, nofun⟩

theorem toList_trim (s : String) :
    (trim s).toList = (s.toList.dropWhile isBlank).rdropWhile isBlank :=
  String.toList_ofList

theorem isTrimmed_trim (s : String) : IsTrimmed (trim s) := by
  constructor
  · intro c hc
    rw [toList_trim] at hc
    -- what is dropped at the end leaves the first character as it is
    have hfirst : (s.toList.dropWhile isBlank).head? = some c := by
      rw [← List.rdropWhile_append_rtakeWhile (p := isBlank) (l := s.toList.dropWhile isBlank),
        List.head?_append, hc]
      rfl
    have hnot := List.head?_dropWhile_not isBlank s.toList
    rwa [hfirst] at hnot
  · intro c hc
    rw [toList_trim] at hc
    obtain ⟨hne, rfl⟩ := List.mem_getLast?_eq_getLast hc
    exact Bool.eq_false_iff.mpr (List.rdropWhile_last_not isBlank _ hne)

theorem padded_trim (s : String) : Padded (trim s) s := by
  refine ⟨.ofList (s.toList.takeWhile isBlank),
    .ofList ((s.toList.dropWhile isBlank).rtakeWhile isBlank), ?_, ?_, ?_⟩
  · intro c hc
    rw [String.toList_ofList] at hc
    exact List.mem_takeWhile_imp hc
  · intro c hc
    rw [String.toList_ofList] at hc
    exact List.mem_rtakeWhile_imp hc
  · apply String.toList_injective
    rw [String.toList_append, String.toList_append, toList_trim, String.toList_ofList,
      String.toList_ofList, List.append_assoc, List.rdropWhile_append_rtakeWhile,
      List.takeWhile_append_dropWhile]

/-- Blanks in front of a text are dropped, and nothing of the text is. -/
theorem dropWhile_blanks_append {front cs : List Char} (hfront : ∀ c ∈ front, isBlank c = true)
    (hcs : ∀ c ∈ cs.head?, isBlank c = false) : (front ++ cs).dropWhile isBlank = cs := by
  rw [List.dropWhile_append_of_pos hfront]
  cases cs with
  | nil => rfl
  | cons c cs => exact List.dropWhile_cons_of_neg (Bool.eq_false_iff.mp (hcs c rfl))

/-- Trimming takes the padding from a trimmed text. -/
theorem IsTrimmed.trim_eq (hs : IsTrimmed s) (hentry : Padded s entry) : trim entry = s := by
  obtain ⟨front, back, hfront, hback, rfl⟩ := hentry
  apply String.toList_injective
  rw [toList_trim, List.rdropWhile, String.toList_append, String.toList_append, List.append_assoc]
  by_cases hempty : s.toList = []
  · -- all is blank, and dropped at once
    have hnone : (front.toList ++ back.toList).dropWhile isBlank = [] := by
      rw [List.dropWhile_append_of_pos hfront, List.dropWhile_eq_nil_iff]
      exact hback
    rw [hempty, List.nil_append, hnone]
    rfl
  · have hfirst : ∀ c ∈ (s.toList ++ back.toList).head?, isBlank c = false := by
      rw [List.head?_append_of_ne_nil _ hempty]
      exact hs.first
    have hlast : ∀ c ∈ s.toList.reverse.head?, isBlank c = false := by
      rw [List.head?_reverse]
      exact hs.last
    have hreverse : ∀ c ∈ back.toList.reverse, isBlank c = true := fun c hc =>
      hback c (List.mem_reverse.mp hc)
    rw [dropWhile_blanks_append hfront hfirst, List.reverse_append,
      dropWhile_blanks_append hreverse hlast, List.reverse_reverse]

/-- **Trimming** finds the text without outer blanks that has nothing but blanks around it. -/
theorem trim_eq_iff : trim entry = s ↔ IsTrimmed s ∧ Padded s entry := by
  constructor
  · rintro rfl
    exact ⟨isTrimmed_trim entry, padded_trim entry⟩
  · rintro ⟨hs, hentry⟩
    exact hs.trim_eq hentry

/-! ### Entries and names -/

/-- What can be read as a name: it is not empty, has no comma in it and no blank at either end. -/
structure IsName (name : String) : Prop extends IsTrimmed name where
  ne_empty : name ≠ ""
  notMem_comma : ',' ∉ name.toList

instance (name : String) : Decidable (IsName name) :=
  decidable_of_iff (IsTrimmed name ∧ name ≠ "" ∧ ',' ∉ name.toList)
    ⟨fun h => ⟨h.1, h.2.1, h.2.2⟩, fun h => ⟨h.toIsTrimmed, h.ne_empty, h.notMem_comma⟩⟩

/-- The entries of a text between its commas, with their blanks. -/
def entries (s : String) : List String :=
  (s.toList.splitOn ',').map String.ofList

/-- A comma separates entries. -/
theorem entries_append_comma (a b : String) : entries (a ++ "," ++ b) = entries a ++ entries b := by
  have hlist : (a ++ "," ++ b).toList = a.toList ++ ',' :: b.toList := by
    rw [String.toList_append, String.toList_append, List.append_assoc]
    rfl
  rw [entries, hlist, List.splitOn_append_cons_self, List.map_append, entries, entries]

/-- Entries without commas are found again between the commas that join them. -/
theorem entries_intercalate {es : List String} (hne : es ≠ [])
    (hcomma : ∀ entry ∈ es, ',' ∉ entry.toList) : entries (",".intercalate es) = es := by
  have hlists : ∀ cs ∈ es.map String.toList, ',' ∉ cs := by
    intro cs hcs
    obtain ⟨entry, hentry, rfl⟩ := List.mem_map.mp hcs
    exact hcomma entry hentry
  have hsplit := List.splitOn_intercalate ',' hlists (by simpa using hne)
  rw [entries, String.toList_intercalate]
  refine (congrArg (List.map String.ofList) hsplit).trans ?_
  simp

/-- What stands between separators contains none. -/
theorem notMem_of_mem_splitOn {sep : Char} {cs piece : List Char} (h : piece ∈ cs.splitOn sep) :
    sep ∉ piece := by
  induction cs generalizing piece with
  | nil =>
    rw [List.splitOn_nil, List.mem_singleton] at h
    rw [h]
    exact List.not_mem_nil
  | cons c cs ih =>
    rw [List.splitOn_cons_eq_if_modifyHead] at h
    split at h
    · rcases List.mem_cons.mp h with rfl | h
      · exact List.not_mem_nil
      · exact ih h
    · rename_i hc
      -- the character belongs to the first of the pieces behind it
      obtain ⟨first, rest, hsplit⟩ := List.exists_cons_of_ne_nil (List.splitOn_ne_nil sep cs)
      rw [hsplit] at h ih
      rcases List.mem_cons.mp h with rfl | h
      · rw [List.mem_cons, not_or]
        exact ⟨fun heq => hc (by simp [heq]), ih List.mem_cons_self⟩
      · exact ih (List.mem_cons_of_mem first h)

theorem mem_entries : entry ∈ entries s ↔ entry.toList ∈ s.toList.splitOn ',' := by
  constructor
  · intro h
    obtain ⟨cs, hcs, rfl⟩ := List.mem_map.mp h
    rwa [String.toList_ofList]
  · intro h
    exact List.mem_map.mpr ⟨entry.toList, h, String.ofList_toList⟩

theorem Padded.notMem_comma (h : Padded s entry) (hentry : ',' ∉ entry.toList) :
    ',' ∉ s.toList := by
  obtain ⟨front, back, -, -, rfl⟩ := h
  simp only [String.toList_append, List.mem_append, not_or] at hentry
  exact hentry.1.2

/-- The names of a list are what is left of its entries. -/
theorem mem_commaList :
    name ∈ commaList s ↔ name ≠ "" ∧ ∃ entry ∈ entries s, trim entry = name := by
  simp only [commaList, entries, trim, List.mem_map, List.mem_filter, Bool.not_eq_true',
    List.isEmpty_eq_false_iff]
  constructor
  · rintro ⟨cs, ⟨⟨piece, hpiece, rfl⟩, hne⟩, rfl⟩
    refine ⟨by simpa using hne, _, ⟨piece, hpiece, rfl⟩, by rw [String.toList_ofList]⟩
  · rintro ⟨hne, _, ⟨piece, hpiece, rfl⟩, rfl⟩
    rw [String.toList_ofList] at hne ⊢
    exact ⟨trimChars piece, ⟨⟨piece, hpiece, rfl⟩, by simpa using hne⟩, rfl⟩

/-- **The names of a list** are the names that stand between its commas, with any blanks around
them. -/
theorem mem_commaList_iff :
    name ∈ commaList s ↔ IsName name ∧ ∃ entry ∈ entries s, Padded name entry := by
  rw [mem_commaList]
  constructor
  · rintro ⟨hne, entry, hentry, htrim⟩
    obtain ⟨htrimmed, hpadded⟩ := trim_eq_iff.mp htrim
    have hcomma := hpadded.notMem_comma (notMem_of_mem_splitOn (mem_entries.mp hentry))
    exact ⟨⟨htrimmed, hne, hcomma⟩, entry, hentry, hpadded⟩
  · rintro ⟨hname, entry, hentry, hpadded⟩
    exact ⟨hname.ne_empty, entry, hentry, hname.trim_eq hpadded⟩

/-- What is joined with commas has the names of the entries that are joined. -/
theorem mem_commaList_intercalate {es : List String} (hcomma : ∀ entry ∈ es, ',' ∉ entry.toList) :
    name ∈ commaList (",".intercalate es) ↔ IsName name ∧ ∃ entry ∈ es, Padded name entry := by
  rw [mem_commaList_iff]
  refine and_congr_right fun hname => ?_
  by_cases hne : es = []
  · -- no entries leave the empty text, which has one entry and no name in it
    rw [hne]
    refine iff_of_false ?_ (by simp)
    rintro ⟨entry, hentry, hpadded⟩
    obtain rfl : entry = "" := List.mem_singleton.mp hentry
    exact hname.ne_empty (hname.trim_eq hpadded).symm
  · rw [entries_intercalate hne hcomma]

/-- The entries write out a set of names: each is one of them or nothing, with any blanks around it,
and each of the names is there. -/
structure WritesOut (es : List String) (names : NameSet) : Prop where
  entry : ∀ entry ∈ es, Padded "" entry ∨ ∃ name ∈ names, Padded name entry
  name : ∀ name ∈ names, ∃ entry ∈ es, Padded name entry

theorem comma_notBlank : isBlank ',' = false := by
  decide

theorem Padded.notMem_comma_entry (h : Padded s entry) (hs : ',' ∉ s.toList) :
    ',' ∉ entry.toList := by
  obtain ⟨front, back, hfront, hback, rfl⟩ := h
  have hblanks : ∀ t, IsBlanks t → ',' ∉ t.toList := fun t ht hmem =>
    Bool.false_ne_true (comma_notBlank.symm.trans (ht ',' hmem))
  simp only [String.toList_append, List.mem_append, not_or]
  exact ⟨⟨hblanks front hfront, hs⟩, hblanks back hback⟩

/-- **A set of names that is written out reads back.** -/
theorem WritesOut.mem_commaList_iff {es : List String} {names : NameSet} (hes : WritesOut es names)
    (hnames : ∀ name ∈ names, IsName name) :
    name ∈ commaList (",".intercalate es) ↔ name ∈ names := by
  have hcomma : ∀ entry ∈ es, ',' ∉ entry.toList := by
    intro entry hentry
    rcases hes.entry entry hentry with hpadded | ⟨name, hname, hpadded⟩
    · exact hpadded.notMem_comma_entry (by simp)
    · exact hpadded.notMem_comma_entry (hnames name hname).notMem_comma
  rw [mem_commaList_intercalate hcomma]
  constructor
  · rintro ⟨hname, entry, hentry, hpadded⟩
    -- an entry has only one name in it
    have htrim := hname.trim_eq hpadded
    rcases hes.entry entry hentry with hblank | ⟨name', hname', hpadded'⟩
    · exact absurd (htrim.symm.trans (isTrimmed_empty.trim_eq hblank)) hname.ne_empty
    · rwa [← htrim, (hnames name' hname').trim_eq hpadded']
  · intro hname
    exact ⟨hnames name hname, hes.name name hname⟩

end Text

namespace DataFlow

open ProgramGraph.Text (IsBlanks IsName Padded WritesOut)

/-! ### Variables -/

theorem mem_listedVariables {node : Node} {key name : String} :
    name ∈ listedVariables node key ↔ name ∈ Text.commaList (node.properties.get key) := by
  rw [listedVariables, Std.ExtTreeSet.mem_ofList, List.contains_iff_mem]

/-- **Variable lists are read entry by entry.** If the text of a node joins the texts of two others
with a comma, it lists the variables of both. Only names are listed. And a text that writes out a
set of names, joined with commas in any order and any number of times, with blanks around them and
empty entries between them, lists exactly this set. -/
theorem listedVariables_entrywise :
    (∀ (node a b : Node) (key keyA keyB : String),
      node.properties.get key = a.properties.get keyA ++ "," ++ b.properties.get keyB →
        listedVariables node key = listedVariables a keyA ∪ listedVariables b keyB) ∧
    (∀ (node : Node) (key : String), ∀ name ∈ listedVariables node key, IsName name) ∧
    (∀ (node : Node) (key : String) (names : NameSet) (es : List String),
      (∀ name ∈ names, IsName name) → WritesOut es names →
        node.properties.get key = ",".intercalate es → listedVariables node key = names) := by
  refine ⟨?_, ?_, ?_⟩
  · intro node a b key keyA keyB htext
    refine Std.ExtTreeSet.ext_mem fun name => ?_
    rw [Std.ExtTreeSet.mem_union_iff, mem_listedVariables, mem_listedVariables,
      mem_listedVariables, htext, Text.mem_commaList, Text.mem_commaList, Text.mem_commaList,
      Text.entries_append_comma, ← and_or_left]
    simp only [List.mem_append, or_and_right, exists_or]
  · intro node key name hname
    exact (Text.mem_commaList_iff.mp (mem_listedVariables.mp hname)).1
  · intro node key names es hnames hes htext
    refine Std.ExtTreeSet.ext_mem fun name => ?_
    rw [mem_listedVariables, htext, hes.mem_commaList_iff hnames]

/-- A name with a blank in it and one outside ASCII, which is written twice: after a no-break space,
and with an ideographic space behind it. -/
theorem listedVariables_entrywise_blanks :
    let names : NameSet := Std.ExtTreeSet.ofList ["a b", "β"]
    let es := ["\u00a0β", "", "a b", " \t", "β\u3000"]
    let node : Node := ⟨"s", .ofList [("uses", ",".intercalate es)], #[], #[]⟩
    let twice : Node := ⟨"t", .ofList [("uses", ",".intercalate es ++ "," ++ "x")], #[], #[]⟩
    let other : Node := ⟨"u", .ofList [("defs", "x")], #[], #[]⟩
    (∀ name ∈ names, IsName name) ∧ WritesOut es names ∧ listedVariables node "uses" = names ∧
      listedVariables twice "uses" = names ∪ listedVariables other "defs" := by
  intro names es node twice other
  obtain ⟨hjoin, -, hback⟩ := listedVariables_entrywise
  have hmem : ∀ name, name ∈ names ↔ name ∈ ["a b", "β"] := fun name => by
    rw [Std.ExtTreeSet.mem_ofList, List.contains_iff_mem]
  have hall : ∀ name ∈ ["a b", "β"], IsName name := by decide +kernel
  have hnames : ∀ name ∈ names, IsName name := fun name hname => hall name ((hmem name).mp hname)
  have hempty : IsBlanks "" := by decide +kernel
  have hab : Padded "a b" "a b" := ⟨"", "", hempty, hempty, rfl⟩
  have hβ : Padded "β" "\u00a0β" := ⟨"\u00a0", "", by decide +kernel, hempty, rfl⟩
  have hβ' : Padded "β" "β\u3000" := ⟨"", "\u3000", hempty, by decide +kernel, rfl⟩
  have hes : WritesOut es names := by
    constructor
    · simp only [es, List.forall_mem_cons, hmem]
      exact ⟨Or.inr ⟨"β", by decide, hβ⟩, Or.inl ⟨"", "", hempty, hempty, rfl⟩,
        Or.inr ⟨"a b", by decide, hab⟩,
        Or.inl ⟨" ", "\t", by decide +kernel, by decide +kernel, rfl⟩,
        Or.inr ⟨"β", by decide, hβ'⟩, by simp⟩
    · simp only [hmem, List.forall_mem_cons]
      exact ⟨⟨"a b", by decide, hab⟩, ⟨"\u00a0β", by decide, hβ⟩, by simp⟩
  have hnode : listedVariables node "uses" = names := hback node "uses" names es hnames hes rfl
  refine ⟨hnames, hes, hnode, ?_⟩
  rw [← hnode]
  exact hjoin twice node other "uses" "uses" "defs" rfl

end DataFlow

end ProgramGraph
