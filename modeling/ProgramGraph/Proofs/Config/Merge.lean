import Mathlib.Data.List.Nodup
import Mathlib.Data.List.Pairwise
import ProgramGraph.Config.Document

/-!
# Sections laid over settings

Laying a section over settings goes a long way round: the settings are written as a value, entries
are put into it, and the outcome is read as settings again, where a setting without an entry has its
default. So a setting that the section does not name could fall back to its default, and one that it
names could be lost.

Neither happens with a format that keeps its promises. A stage reads back from the value that is
written for it, which has an entry for every setting (`Format.RoundTrips`). So a section that was
itself written from settings replaces all entries, and gives these settings back
(`Format.merge_toValue`). If moreover a mapping is read setting by setting, by name
(`Format.ReadsByName`), then the value of each setting is the one that the section puts under its
name, if it does, and the old one otherwise (`Format.merge_mapping`). A key that is no setting stays
in the mapping and is an error (`Format.merge_unknown`).
-/

namespace ProgramGraph

open Yaml (Value)

/-- A computation that goes on with the result of another succeeds if both do. -/
theorem bind_eq_ok_iff {α β : Type} {x : Except String α} {f : α → Except String β} {b : β} :
    (x >>= f) = .ok b ↔ ∃ a, x = .ok a ∧ f a = .ok b := by
  cases x <;> simp [bind, Except.bind]

/-- A computation succeeds with the result that it has as an option. -/
theorem toOption_eq_some_iff {α : Type} {x : Except String α} {a : α} :
    x.toOption = some a ↔ x = .ok a := by
  cases x <;> simp [Except.toOption]

/-! ### Entries under a name -/

namespace Yaml.Value

variable {es : List (Value × Value)} {e : Value × Value} {k v : Value} {name : String}

/-- Only a text is the same as a text. -/
theorem same_string_iff : k.same (.string name) = true ↔ k = .string name := by
  cases k <;> simp [same]

theorem string_same_iff : (string name).same k = true ↔ k = .string name := by
  cases k with
  | string s =>
    rw [same, beq_iff_eq, string.injEq]
    exact eq_comm
  | _ => simp [same]

theorem lookup_cons :
    lookup ((k, v) :: es) name = if k.same (.string name) then some v else lookup es name := by
  rw [lookup, List.find?_cons]
  cases k.same (.string name) <;> rfl

/-- An entry that is put in is found under its key, and all others are found as before. -/
theorem lookup_insert : lookup (insert es e) name =
    if e.1.same (.string name) then some e.2 else lookup es name := by
  obtain ⟨k', v'⟩ := e
  induction es with
  | nil => exact lookup_cons
  | cons d es ih =>
    obtain ⟨k, v⟩ := d
    rw [insert]
    by_cases hsame : k.same k' = true
    · -- the entry is replaced, so both keys are the name or none is
      have hiff : k.same (.string name) = k'.same (.string name) := by
        rw [Bool.eq_iff_iff, same_string_iff, same_string_iff]
        constructor
        · rintro rfl
          exact string_same_iff.mp hsame
        · rintro rfl
          exact same_string_iff.mp hsame
      rw [if_pos hsame, lookup_cons, lookup_cons, hiff]
      cases k'.same (.string name) <;> rfl
    · rw [if_neg hsame, lookup_cons, lookup_cons, ih]
      cases hname : k.same (.string name) with
      | false => rfl
      | true =>
        -- the two keys differ, so only the first is the name
        have hother : ¬ k'.same (.string name) = true := by
          intro hk'
          rw [same_string_iff] at hname hk'
          exact hsame (by rw [hname, hk']; exact string_same_iff.mpr rfl)
        rw [if_pos rfl, if_neg hother]
        rfl

/-- The value that entries put under a name, one after the other: the last one. -/
def given (es : List (Value × Value)) (name : String) : Option Value :=
  lookup es.reverse name

/-- **No entry is lost**: under a name stands what was put there last, or what was there. -/
theorem lookup_foldl_insert (os es : List (Value × Value)) (name : String) :
    lookup (os.foldl insert es) name = (given os name).or (lookup es name) := by
  rw [given, ← List.foldr_reverse]
  induction os.reverse with
  | nil => rfl
  | cons e os ih =>
    obtain ⟨k, v⟩ := e
    rw [List.foldr_cons, lookup_insert, ih, lookup_cons]
    split <;> rfl

/-- A key that is there has a value. -/
theorem exists_lookup_eq_some (h : .string name ∈ es.map Prod.fst) :
    ∃ v, lookup es name = some v := by
  obtain ⟨e, he, hkey⟩ := List.mem_map.mp h
  have hfind : (es.find? fun e => e.1.same (.string name)).isSome = true :=
    List.find?_isSome.mpr ⟨e, he, same_string_iff.mpr hkey⟩
  obtain ⟨d, hd⟩ := Option.isSome_iff_exists.mp hfind
  exact ⟨d.2, Option.map_eq_some_iff.mpr ⟨d, hd, rfl⟩⟩

/-! ### Keys -/

/-- No key is lost. -/
theorem map_fst_subset_insert : es.map Prod.fst ⊆ (insert es e).map Prod.fst := by
  induction es with
  | nil => exact List.nil_subset _
  | cons d es ih =>
    obtain ⟨k, v⟩ := d
    rw [insert]
    split
    · exact fun _ hk => hk
    · exact List.cons_subset_cons k ih

theorem map_fst_subset_foldl_insert (os : List (Value × Value)) :
    es.map Prod.fst ⊆ (os.foldl insert es).map Prod.fst := by
  induction os generalizing es with
  | nil => exact fun _ hk => hk
  | cons e os ih => exact List.Subset.trans map_fst_subset_insert ih

/-- A key that is there is not added. -/
theorem map_fst_insert_of_mem (h : .string name ∈ es.map Prod.fst) :
    (insert es (.string name, v)).map Prod.fst = es.map Prod.fst := by
  induction es with
  | nil => cases h
  | cons d es ih =>
    obtain ⟨k, v⟩ := d
    rw [insert]
    split
    · rfl
    · next hne =>
      rcases List.mem_cons.mp h with rfl | h
      · exact absurd (same_string_iff.mpr rfl) hne
      · rw [List.map_cons, ih h, List.map_cons]

theorem map_fst_foldl_insert_of_mem {os : List (Value × Value)}
    (h : ∀ o ∈ os, ∃ name, o.1 = .string name ∧ .string name ∈ es.map Prod.fst) :
    (os.foldl insert es).map Prod.fst = es.map Prod.fst := by
  induction os generalizing es with
  | nil => rfl
  | cons o os ih =>
    obtain ⟨k, v⟩ := o
    obtain ⟨⟨name, rfl, hname⟩, hrest⟩ := List.forall_mem_cons.mp h
    have hkeys := map_fst_insert_of_mem (v := v) hname
    rw [List.foldl_cons, ih, hkeys]
    rwa [hkeys]

/-- A key that is no text of a set is put under a key that is none either. -/
theorem exists_key_insert {p : String → Prop} (es : List (Value × Value))
    (he : ∀ name, p name → e.1 ≠ .string name) :
    ∃ k ∈ (insert es e).map Prod.fst, ∀ name, p name → k ≠ .string name := by
  induction es with
  | nil => exact ⟨e.1, List.mem_cons_self, he⟩
  | cons d es ih =>
    obtain ⟨k, v⟩ := d
    rw [insert]
    split
    · next hsame =>
      refine ⟨k, List.mem_cons_self, fun name hname heq => he name hname ?_⟩
      rw [heq] at hsame
      exact string_same_iff.mp hsame
    · obtain ⟨k', hk', hne⟩ := ih
      exact ⟨k', List.mem_cons_of_mem k hk', hne⟩

theorem exists_key_foldl_insert {p : String → Prop} {os : List (Value × Value)}
    (es : List (Value × Value)) (h : ∃ o ∈ os, ∀ name, p name → o.1 ≠ .string name) :
    ∃ k ∈ (os.foldl insert es).map Prod.fst, ∀ name, p name → k ≠ .string name := by
  induction os generalizing es with
  | nil =>
    obtain ⟨o, ho, -⟩ := h
    cases ho
  | cons e os ih =>
    obtain ⟨o, ho, hne⟩ := h
    rcases List.mem_cons.mp ho with rfl | ho
    · obtain ⟨k, hk, hne⟩ := exists_key_insert es hne
      exact ⟨k, map_fst_subset_foldl_insert os hk, hne⟩
    · exact ih (insert es e) ⟨o, ho, hne⟩

/-- Entries with different names have different keys. -/
theorem hasDuplicateKey_eq_false {names : List String} (hnames : names.Nodup)
    (hkeys : es.map Prod.fst = names.map string) : hasDuplicateKey es = false := by
  induction es generalizing names with
  | nil => rfl
  | cons e es ih =>
    obtain ⟨k, v⟩ := e
    cases names with
    | nil => cases hkeys
    | cons name names =>
      rw [List.map_cons, List.map_cons, List.cons.injEq] at hkeys
      obtain ⟨rfl, hkeys⟩ := hkeys
      rw [List.nodup_cons] at hnames
      rw [hasDuplicateKey, ih hnames.2 hkeys, Bool.or_false, List.any_eq_false]
      intro d hd hsame
      have hmem : string name ∈ names.map string := by
        rw [← hkeys, ← same_string_iff.mp hsame]
        exact List.mem_map_of_mem hd
      obtain ⟨name', hname', heq⟩ := List.mem_map.mp hmem
      exact hnames.1 (string.inj heq ▸ hname')

/-- Entries with other keys are put in behind the first one. -/
theorem foldl_insert_cons {os : List (Value × Value)} (h : ∀ o ∈ os, o.1 ≠ .string name) :
    os.foldl insert ((.string name, v) :: es) = (.string name, v) :: os.foldl insert es := by
  induction os generalizing es with
  | nil => rfl
  | cons o os ih =>
    obtain ⟨hfirst, hrest⟩ := List.forall_mem_cons.mp h
    have hskip : insert ((.string name, v) :: es) o = (.string name, v) :: insert es o := by
      rw [insert, if_neg fun hsame => hfirst (string_same_iff.mp hsame)]
    rw [List.foldl_cons, hskip, ih hrest, List.foldl_cons]

/-- **Entries for the same names replace one another**, all of them. -/
theorem foldl_insert_eq {names : List String} (hnames : names.Nodup)
    {os : List (Value × Value)} (hes : es.map Prod.fst = names.map string)
    (hos : os.map Prod.fst = names.map string) : os.foldl insert es = os := by
  induction names generalizing es os with
  | nil =>
    rw [List.map_nil, List.map_eq_nil_iff] at hes hos
    rw [hes, hos]
    rfl
  | cons name names ih =>
    obtain ⟨⟨k, v⟩, es, rfl, rfl, hesRest⟩ := List.map_eq_cons_iff.mp hes
    obtain ⟨⟨k, w⟩, os, rfl, rfl, hosRest⟩ := List.map_eq_cons_iff.mp hos
    rw [List.nodup_cons] at hnames
    have hreplace : insert ((.string name, v) :: es) (.string name, w) =
        (.string name, w) :: es := by
      rw [insert, if_pos (same_string_iff.mpr rfl)]
    have hother : ∀ o ∈ os, o.1 ≠ .string name := by
      intro o ho heq
      have hmem := List.mem_map_of_mem (f := Prod.fst) ho
      rw [hosRest, heq] at hmem
      obtain ⟨name', hname', heq⟩ := List.mem_map.mp hmem
      exact hnames.1 (string.inj heq ▸ hname')
    rw [List.foldl_cons, hreplace, foldl_insert_cons hother, ih hnames.2 hesRest hosRest]

/-- If no key occurs twice, no two entries have the same text as their key. -/
theorem pairwise_of_hasDuplicateKey (h : hasDuplicateKey es = false) (name : String) :
    es.Pairwise fun d e => ¬ (d.1 = .string name ∧ e.1 = .string name) := by
  induction es with
  | nil => exact List.Pairwise.nil
  | cons d es ih =>
    rw [hasDuplicateKey, Bool.or_eq_false_iff, List.any_eq_false] at h
    refine List.Pairwise.cons ?_ (ih h.2)
    rintro e he ⟨hd, heq⟩
    refine h.1 e he ?_
    rw [hd, heq]
    exact same_string_iff.mpr rfl

end Yaml.Value

/-! ### Settings read by name -/

namespace Section

variable {σ : Type} {sec : Section σ} {reader : SettingReader} {es : List (Value × Value)}

/-- The section of a stage. -/
inductive IsStage : {σ : Type} → Section σ → Prop where
  | taint : IsStage taint
  | slicing : IsStage slicing
  | execution : IsStage execution
  | dataFlow : IsStage dataFlow

/-- The names of the settings. -/
def names (sec : Section σ) : List String :=
  sec.fields.map Field.name

/-- The settings with given values. -/
def build (sec : Section σ) (values : (f : Field σ) → f.type.Carrier) : σ :=
  sec.fields.foldl (fun s f => f.set (values f) s) sec.initial

/-- No two settings of a stage have the same name. -/
theorem IsStage.nodup_names (h : sec.IsStage) : sec.names.Nodup := by
  cases h <;> decide

/-- The settings of a stage are all that there is to it. -/
theorem IsStage.build_get (h : sec.IsStage) (s : σ) : sec.build (fun f => f.get s) = s := by
  cases h <;> rfl

/-- A setting is what it was set to. -/
theorem IsStage.get_build (h : sec.IsStage) (values : (f : Field σ) → f.type.Carrier) {f : Field σ}
    (hf : f ∈ sec.fields) : f.get (sec.build values) = values f := by
  have hall : ∀ f ∈ sec.fields, f.get (sec.build values) = values f := by
    cases h <;>
      repeat' first
        | exact List.forall_mem_nil _
        | refine List.forall_mem_cons.mpr ⟨rfl, ?_⟩
  exact hall f hf

theorem knows_iff {k : Value} : sec.knows k = true ↔ ∃ f ∈ sec.fields, k = .string f.name := by
  simp [knows, Value.same_string_iff]

/-- The value under its name is all that is read for a setting. -/
theorem foldlM_read {fields : List (Field σ)} {values : (f : Field σ) → f.type.Carrier}
    (h : ∀ f ∈ fields, ∃ v, Value.lookup es f.name = some v ∧ reader f.type v = .ok (values f))
    (s : σ) : fields.foldlM (fun s f => f.read reader es s) s =
      .ok (fields.foldl (fun s f => f.set (values f) s) s) := by
  induction fields generalizing s with
  | nil => rfl
  | cons f fields ih =>
    obtain ⟨⟨v, hlookup, hread⟩, hrest⟩ := List.forall_mem_cons.mp h
    have hfield : f.read reader es s = .ok (f.set (values f) s) := by
      simp only [Field.read, hlookup, hread]
      rfl
    rw [List.foldlM_cons, hfield]
    exact ih hrest (f.set (values f) s)

/-- A mapping that has the names of the settings for its keys can only fail to be read for the type
of a value. -/
theorem read_eq_foldlM (hnames : sec.names.Nodup)
    (hkeys : es.map Prod.fst = sec.names.map Value.string) :
    sec.read reader es = sec.fields.foldlM (fun s f => f.read reader es s) sec.initial := by
  have hkey : ∀ e ∈ es, ∃ f ∈ sec.fields, e.1 = .string f.name := by
    intro e he
    have hmem := List.mem_map_of_mem (f := Prod.fst) he
    rw [hkeys, names, List.map_map] at hmem
    obtain ⟨f, hf, heq⟩ := List.mem_map.mp hmem
    exact ⟨f, hf, heq.symm⟩
  have huntag : (es.map fun e => (e.1.untag, e.2)) = es := by
    refine (List.map_congr_left fun e he => ?_).trans (List.map_id es)
    obtain ⟨k, v⟩ := e
    obtain ⟨f, -, rfl⟩ := hkey _ he
    rfl
  have hknown : (es.all fun e => sec.knows e.1) = true :=
    List.all_eq_true.mpr fun e he => knows_iff.mpr (hkey e he)
  rw [read, huntag, Value.hasDuplicateKey_eq_false hnames hkeys, hknown]
  rfl

/-- **A mapping with an entry for every setting** is read as the settings with these values. No
default is left. -/
theorem read_eq_ok {values : (f : Field σ) → f.type.Carrier} (hnames : sec.names.Nodup)
    (hkeys : es.map Prod.fst = sec.names.map Value.string)
    (hvalues : ∀ f ∈ sec.fields, ∃ v, Value.lookup es f.name = some v ∧
      reader f.type v = .ok (values f)) : sec.read reader es = .ok (sec.build values) := by
  rw [read_eq_foldlM hnames hkeys]
  exact foldlM_read hvalues sec.initial

/-- If the settings can be read, then each of them can. -/
theorem exists_of_foldlM_read {fields : List (Field σ)} {s s' : σ}
    (h : fields.foldlM (fun s f => f.read reader es s) s = .ok s') :
    ∀ f ∈ fields, ∀ v, Value.lookup es f.name = some v → ∃ a, reader f.type v = .ok a := by
  induction fields generalizing s with
  | nil => exact nofun
  | cons f fields ih =>
    rw [List.foldlM_cons, bind_eq_ok_iff] at h
    obtain ⟨s₁, hfirst, hrest⟩ := h
    refine List.forall_mem_cons.mpr ⟨fun v hv => ?_, ih hrest⟩
    cases hread : reader f.type v with
    | ok a => exact ⟨a, rfl⟩
    | error reason =>
      simp only [Field.read, hv, hread] at hfirst
      cases hfirst

/-- **What is read is what the entries say**, if each setting has one. -/
theorem IsStage.exists_of_read (hsec : sec.IsStage)
    (hkeys : es.map Prod.fst = sec.names.map Value.string) {s : σ}
    (h : sec.read reader es = .ok s) {f : Field σ} (hf : f ∈ sec.fields) :
    ∃ v, Value.lookup es f.name = some v ∧ reader f.type v = .ok (f.get s) := by
  have hfound : ∀ f ∈ sec.fields, ∃ v a, Value.lookup es f.name = some v ∧
      reader f.type v = .ok a := by
    intro f hf
    obtain ⟨v, hv⟩ : ∃ v, Value.lookup es f.name = some v := by
      refine Value.exists_lookup_eq_some ?_
      rw [hkeys]
      exact List.mem_map_of_mem (List.mem_map_of_mem hf)
    rw [read_eq_foldlM hsec.nodup_names hkeys] at h
    obtain ⟨a, ha⟩ := exists_of_foldlM_read h f hf v hv
    exact ⟨v, a, hv, ha⟩
  -- the values that are read, and what they build
  let values : (f : Field σ) → f.type.Carrier := fun f =>
    ((Value.lookup es f.name).bind fun v => (reader f.type v).toOption).getD (f.get sec.initial)
  have hvalues : ∀ f ∈ sec.fields, ∃ v, Value.lookup es f.name = some v ∧
      reader f.type v = .ok (values f) := by
    intro f hf
    obtain ⟨v, a, hv, ha⟩ := hfound f hf
    refine ⟨v, hv, ?_⟩
    simp only [values, hv, ha, Option.bind_some, Except.toOption, Option.getD_some]
  rw [read_eq_ok hsec.nodup_names hkeys hvalues] at h
  obtain rfl := Except.ok.inj h
  rw [hsec.get_build values hf]
  exact hvalues f hf

/-- **A key that is no setting is an error** if every setting has an entry. A key that is the name
of a setting but for its tag would be a second one of that name. -/
theorem read_unknown (reader : SettingReader)
    (hnames : sec.names.map Value.string ⊆ es.map Prod.fst)
    (hunknown : ∃ k ∈ es.map Prod.fst, ∀ name ∈ sec.names, k ≠ .string name) :
    ∃ reason, sec.read reader es = .error reason := by
  rw [read]
  cases hkeys : Value.hasDuplicateKey (es.map fun e => (e.1.untag, e.2)) with
  | true => exact ⟨_, rfl⟩
  | false =>
    obtain ⟨k, hk, hne⟩ := hunknown
    obtain ⟨⟨k, v⟩, he, rfl⟩ := List.mem_map.mp hk
    have hknown : ¬ ((es.map fun e => (e.1.untag, e.2)).all fun e => sec.knows e.1) = true := by
      intro hall
      rw [List.all_map, List.all_eq_true] at hall
      obtain ⟨f, hf, heq⟩ := knows_iff.mp (hall (k, v) he)
      have hname : f.name ∈ sec.names := List.mem_map_of_mem hf
      obtain ⟨⟨k', v'⟩, he', hk'⟩ := List.mem_map.mp (hnames (List.mem_map_of_mem hname))
      have hdiffer : ((k, v) : Value × Value) ≠ (k', v') := by
        intro h
        refine hne f.name hname ?_
        rw [← hk']
        exact congrArg Prod.fst h
      have hsymm : Std.Symm fun d e : Value × Value =>
          ¬ (d.1.untag = .string f.name ∧ e.1.untag = .string f.name) :=
        ⟨fun _ _ h hba => h hba.symm⟩
      have hpair := List.pairwise_map.mp (Value.pairwise_of_hasDuplicateKey hkeys f.name)
      refine hpair.forall he he' hdiffer ⟨heq, ?_⟩
      change k' = .string f.name at hk'
      rw [hk']
      rfl
    simp only [hknown]
    exact ⟨_, rfl⟩

end Section

/-! ### Formats that keep their promises -/

namespace Format

variable {F : Format} {σ : Type} {sec : Section σ} {os : List (Value × Value)}

/-- A stage is written as a mapping that has its settings under their names, in order, and reads
back from it. -/
def RoundTrips (F : Format) : Prop :=
  ∀ {σ : Type} (sec : Section σ), sec.IsStage → ∀ s, ∃ es, F.toValue sec s = .ok (.mapping es) ∧
    es.map Prod.fst = sec.names.map Value.string ∧ F.ofValue sec (.mapping es) = .ok s

/-- A mapping is read setting by setting, by name. The reasons for errors are left open. -/
def ReadsByName (F : Format) : Prop :=
  ∀ {σ : Type} (sec : Section σ), sec.IsStage → ∀ es,
    (F.ofValue sec (.mapping es)).toOption = (sec.read F.readSetting es).toOption

/-- The text of a document that writes every setting out gives back the document. -/
def KeepsDocuments (F : Format) : Prop :=
  ∀ c d, Config.toDocument F c = .ok d → ∃ text, F.print d = .ok text ∧ F.parse text = .ok d

/-- What is read by the format is what is read by name. -/
theorem ReadsByName.ofValue_eq_ok_iff (hreads : F.ReadsByName) (hsec : sec.IsStage)
    {es : List (Value × Value)} {s : σ} :
    F.ofValue sec (.mapping es) = .ok s ↔ sec.read F.readSetting es = .ok s := by
  rw [← toOption_eq_some_iff, hreads sec hsec es, toOption_eq_some_iff]

/-- **A section that is written from settings**, laid over others, gives them back: it has an entry
for each of their entries. -/
theorem merge_toValue (hround : F.RoundTrips) (hsec : sec.IsStage) (base : σ) {s : σ} {v : Value}
    (hv : F.toValue sec s = .ok v) : F.merge sec base (some v) = .ok s := by
  obtain ⟨es, hes, hkeys, -⟩ := hround sec hsec base
  obtain ⟨os, hos, hnames, hread⟩ := hround sec hsec s
  obtain rfl := Except.ok.inj (hv.symm.trans hos)
  have hmerged : os.foldl Value.insert es = os :=
    Value.foldl_insert_eq hsec.nodup_names hkeys hnames
  rw [merge, hes]
  change F.ofValue sec (.mapping (os.foldl Value.insert es)) = .ok s
  rw [hmerged, hread]

variable (hround : F.RoundTrips) (hreads : F.ReadsByName) (hsec : sec.IsStage) (base : σ)
include hround hreads hsec

/-- **A section replaces the settings that it names**, by the values that it gives them, and keeps
all others: none falls back to its default. -/
theorem merge_mapping (values : (f : Field σ) → f.type.Carrier)
    (hkeys : ∀ o ∈ os, ∃ f ∈ sec.fields, o.1 = .string f.name)
    (hgiven : ∀ f ∈ sec.fields, ∀ v, Value.given os f.name = some v →
      F.readSetting f.type v = .ok (values f))
    (hkept : ∀ f ∈ sec.fields, Value.given os f.name = none → values f = f.get base) :
    F.merge sec base (some (.mapping os)) = .ok (sec.build values) := by
  obtain ⟨es, hes, hnames, hbase⟩ := hround sec hsec base
  rw [hreads.ofValue_eq_ok_iff hsec] at hbase
  have hmerged : (os.foldl Value.insert es).map Prod.fst = sec.names.map Value.string := by
    rw [Value.map_fst_foldl_insert_of_mem, hnames]
    intro o ho
    obtain ⟨f, hf, heq⟩ := hkeys o ho
    refine ⟨f.name, heq, ?_⟩
    rw [hnames]
    exact List.mem_map_of_mem (List.mem_map_of_mem hf)
  have hread : sec.read F.readSetting (os.foldl Value.insert es) = .ok (sec.build values) := by
    refine Section.read_eq_ok hsec.nodup_names hmerged fun f hf => ?_
    rw [Value.lookup_foldl_insert]
    cases hv : Value.given os f.name with
    | some v => exact ⟨v, rfl, hgiven f hf v hv⟩
    | none =>
      -- the entry of the old setting is still there
      rw [hkept f hf hv]
      exact hsec.exists_of_read hnames hbase hf
  rw [merge, hes]
  exact (hreads.ofValue_eq_ok_iff hsec).mpr hread

/-- **A key that is no setting is an error**, whatever else the section says. -/
theorem merge_unknown (hunknown : ∃ o ∈ os, ∀ f ∈ sec.fields, o.1 ≠ .string f.name) :
    ∃ reason, F.merge sec base (some (.mapping os)) = .error reason := by
  obtain ⟨es, hes, hkeys, -⟩ := hround sec hsec base
  have hnames : sec.names.map Value.string ⊆ (os.foldl Value.insert es).map Prod.fst := by
    rw [← hkeys]
    exact Value.map_fst_subset_foldl_insert os
  have hkey : ∃ o ∈ os, ∀ name, name ∈ sec.names → o.1 ≠ .string name := by
    obtain ⟨o, ho, hne⟩ := hunknown
    refine ⟨o, ho, fun name hname => ?_⟩
    obtain ⟨f, hf, rfl⟩ := List.mem_map.mp hname
    exact hne f hf
  obtain ⟨reason, hread⟩ := Section.read_unknown F.readSetting hnames
    (Value.exists_key_foldl_insert es hkey)
  cases hvalue : F.ofValue sec (.mapping (os.foldl Value.insert es)) with
  | error reason =>
    refine ⟨reason, ?_⟩
    rw [merge, hes]
    exact hvalue
  | ok s =>
    rw [hreads.ofValue_eq_ok_iff hsec, hread] at hvalue
    cases hvalue

end Format

end ProgramGraph
