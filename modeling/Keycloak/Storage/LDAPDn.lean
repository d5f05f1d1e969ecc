import Keycloak.Lib.EscapedSplit
import Keycloak.Lib.Split
import Mathlib.Data.List.Forall2

/-!
# Distinguished names

`LDAPDn`: the entries of a name are printed with commas between them, and a text is split at the
commas and equals signs that no backslash stands in front of.  `Rdn.escapeValue` and
`Rdn.unescapeValue` of the JDK are parameters.
-/

namespace Keycloak.Storage

open EscapedSplit

structure Entry where
  attrName : String
  attrValue : String
  deriving DecidableEq, Repr

structure LDAPDn where
  entries : List Entry
  deriving DecidableEq, Repr

namespace LDAPDn

/-- The entry of a piece; without a first part its name cannot be read. -/
def parseEntry (entryStr : List Char) : Option Entry :=
  match split '\\' '=' entryStr with
  | [] => none
  | [name] => some ⟨String.ofList (Split.trim name), ""⟩
  | name :: value :: _ =>
      some ⟨String.ofList (Split.trim name), String.ofList (Split.trim value)⟩

/-- `fromString`; no result stands for `ArrayIndexOutOfBoundsException`. -/
def fromString (dnString : String) : Option LDAPDn :=
  if Split.trim dnString.toList = [] then some ⟨[]⟩
  else ((split '\\' ',' dnString.toList).mapM parseEntry).map LDAPDn.mk

def printEntry (rdn : Entry) : List Char :=
  rdn.attrName.toList ++ '=' :: rdn.attrValue.toList

def toString (dn : LDAPDn) : String :=
  String.ofList ([','].intercalate (dn.entries.map printEntry))

/-- `getFirstRdnAttrValue`; no result stands for `NoSuchElementException`. -/
def getFirstRdnAttrValue (unescapeValue : String → String) (dn : LDAPDn) : Option String :=
  dn.entries.head?.map fun firstEntry => unescapeValue firstEntry.attrValue

def getParentDn (dn : LDAPDn) : Option LDAPDn :=
  match dn.entries with
  | [] => none
  | _ :: parentDnEntries => some ⟨parentDnEntries⟩

def addFirst (escapeValue : String → String) (dn : LDAPDn) (rdn : String × String) : LDAPDn :=
  ⟨⟨rdn.1, escapeValue rdn.2⟩ :: dn.entries⟩

/-! ## Names that are read as they are printed -/

structure Plain (text : String) : Prop where
  comma : Guarded '\\' ',' none text.toList
  equals : Guarded '\\' '=' none text.toList
  trimmed : Split.trim text.toList = text.toList

structure Printable (rdn : Entry) : Prop where
  name : Plain rdn.attrName
  value : Plain rdn.attrValue
  name_last : rdn.attrName.toList.getLast? ≠ some '\\'
  nonempty : rdn.attrName ≠ "" ∨ rdn.attrValue ≠ ""

instance (text : String) : Decidable (Plain text) :=
  decidable_of_iff (Guarded '\\' ',' none text.toList ∧ Guarded '\\' '=' none text.toList ∧
    Split.trim text.toList = text.toList)
    ⟨fun ⟨hcomma, hequals, htrimmed⟩ => ⟨hcomma, hequals, htrimmed⟩, fun h => ⟨h.1, h.2, h.3⟩⟩

instance (rdn : Entry) : Decidable (Printable rdn) :=
  decidable_of_iff (Plain rdn.attrName ∧ Plain rdn.attrValue ∧
    rdn.attrName.toList.getLast? ≠ some '\\' ∧ (rdn.attrName ≠ "" ∨ rdn.attrValue ≠ ""))
    ⟨fun ⟨hname, hvalue, hlast, hne⟩ => ⟨hname, hvalue, hlast, hne⟩,
      fun h => ⟨h.1, h.2, h.3, h.4⟩⟩

/-- The entries come back, and no comma between them is taken for a part of a value. -/
structure Readable (dn : LDAPDn) : Prop where
  printable : ∀ rdn ∈ dn.entries, Printable rdn
  value_last : ∀ rdn ∈ dn.entries.dropLast, rdn.attrValue.toList.getLast? ≠ some '\\'

section

variable {rdn : Entry} {dn : LDAPDn}

theorem parseEntry_plain {entryStr : List Char} (hcomma : Guarded '\\' ',' none entryStr)
    (h : parseEntry entryStr = some rdn) : Plain rdn.attrName ∧ Plain rdn.attrValue := by
  have hpiece : ∀ p ∈ split '\\' '=' entryStr, Plain (String.ofList (Split.trim p)) := by
    intro p hp
    have hcomma' : Guarded '\\' ',' none p :=
      guarded_of_mem_split (by decide) (.inr hcomma) hp
    have hequals : Guarded '\\' '=' none p := guarded_of_mem_split (by decide) (.inl rfl) hp
    refine ⟨?_, ?_, ?_⟩ <;> rw [String.toList_ofList]
    · exact (hcomma'.dropWhile (by decide)).rdropWhile
    · exact (hequals.dropWhile (by decide)).rdropWhile
    · exact Split.trim_trim p
  have hempty : Plain "" := ⟨trivial, trivial, rfl⟩
  unfold parseEntry at h
  split at h
  · cases h
  · rename_i name hsplit
    cases h
    exact ⟨hpiece name (hsplit ▸ List.mem_cons_self), hempty⟩
  · rename_i name value rest hsplit
    cases h
    refine ⟨hpiece name (hsplit ▸ List.mem_cons_self), hpiece value ?_⟩
    rw [hsplit]
    exact List.mem_cons_of_mem _ List.mem_cons_self

theorem guarded_printEntry (hname : Plain rdn.attrName) (hvalue : Plain rdn.attrValue) :
    Guarded '\\' ',' none (printEntry rdn) := by
  refine hname.comma.append ⟨fun h => absurd h (by decide), ?_⟩
  exact (guarded_some (by decide)).mpr hvalue.comma

theorem pieces_printEntry (hname : Plain rdn.attrName) (hvalue : Plain rdn.attrValue)
    (hlast : rdn.attrName.toList.getLast? ≠ some '\\') :
    pieces '\\' '=' none (printEntry rdn) = [rdn.attrName.toList, rdn.attrValue.toList] := by
  rw [printEntry, pieces_append_separator (by decide) hname.equals hlast,
    pieces_of_guarded hvalue.equals]

theorem parseEntry_printEntry (h : Printable rdn) : parseEntry (printEntry rdn) = some rdn := by
  have hpieces := pieces_printEntry h.name h.value h.name_last
  unfold parseEntry split
  dsimp only
  rw [hpieces, if_neg (by simp)]
  by_cases hempty : rdn.attrValue = ""
  · -- the empty part at the end is dropped
    have hname : rdn.attrName.toList ≠ [] := by
      rw [ne_eq, String.toList_eq_nil_iff]
      exact h.nonempty.resolve_right (not_not.mpr hempty)
    have hdrop : [rdn.attrName.toList, rdn.attrValue.toList].rdropWhile (·.isEmpty) =
        [rdn.attrName.toList] := by
      rw [hempty]
      simp [List.rdropWhile, hname]
    rw [hdrop]
    dsimp only
    rw [h.name.trimmed, String.ofList_toList, ← hempty]
  · have hvalue : rdn.attrValue.toList ≠ [] := by
      rwa [ne_eq, String.toList_eq_nil_iff]
    have hdrop : [rdn.attrName.toList, rdn.attrValue.toList].rdropWhile (·.isEmpty) =
        [rdn.attrName.toList, rdn.attrValue.toList] := by
      simp [List.rdropWhile, hvalue]
    rw [hdrop]
    dsimp only
    rw [h.name.trimmed, h.value.trimmed, String.ofList_toList, String.ofList_toList]

/-- An entry that comes back has its separators escaped and an equals sign that is not. -/
theorem printable_of_parseEntry (hname : Plain rdn.attrName) (hvalue : Plain rdn.attrValue)
    (h : parseEntry (printEntry rdn) = some rdn) : Printable rdn := by
  refine ⟨hname, hvalue, fun hlast => ?_, ?_⟩
  · -- there is one part only, which is longer than the name
    have hguarded : Guarded '\\' '=' none (printEntry rdn) := by
      refine hname.equals.append ⟨fun _ => ?_, (guarded_some (by decide)).mpr hvalue.equals⟩
      rw [last_none, hlast]
    have hsplit : split '\\' '=' (printEntry rdn) = [printEntry rdn] := by
      unfold split
      dsimp only
      rw [pieces_of_guarded hguarded]
      rfl
    unfold parseEntry at h
    rw [hsplit] at h
    have hentry : (⟨String.ofList (Split.trim (printEntry rdn)), ""⟩ : Entry) = rdn :=
      Option.some.inj h
    have hempty : rdn.attrValue = "" := (congrArg Entry.attrValue hentry).symm
    have htrim : Split.trim (rdn.attrName.toList ++ ['=']) = rdn.attrName.toList := by
      have heq := congrArg (String.toList ∘ Entry.attrName) hentry
      simpa [printEntry, hempty] using heq
    have hkept : Split.trim (rdn.attrName.toList ++ ['=']) = rdn.attrName.toList ++ ['='] := by
      obtain ⟨hhead, -⟩ := Split.trim_eq_self_iff.mp hname.trimmed
      refine Split.trim_eq_self_iff.mpr ⟨fun c hc => hhead c ?_, fun c hc => ?_⟩
      · cases hchars : rdn.attrName.toList with
        | nil => simp [hchars] at hlast
        | cons d rest => simpa [hchars] using hc
      · rw [List.getLast?_concat] at hc
        cases hc
        decide
    have hlength := congrArg List.length (hkept.symm.trans htrim)
    simp at hlength
  · by_contra hempty
    rw [not_or, not_not, not_not] at hempty
    have hnone : parseEntry (printEntry rdn) = none := by
      rw [printEntry, hempty.1, hempty.2]
      decide
    rw [hnone] at h
    cases h

theorem toList_toString (dn : LDAPDn) :
    dn.toString.toList = [','].intercalate (dn.entries.map printEntry) :=
  String.toList_ofList

theorem printEntry_getLast? (rdn : Entry) : (printEntry rdn).getLast? = some '\\' ↔
    rdn.attrValue.toList.getLast? = some '\\' := by
  rw [printEntry, List.getLast?_append]
  cases rdn.attrValue.toList with
  | nil => simp
  | cons c rest => simp

theorem trim_toString_ne_nil (hne : dn.entries ≠ []) : Split.trim dn.toString.toList ≠ [] := by
  obtain ⟨rdn, rest, hentries⟩ := List.exists_cons_of_ne_nil hne
  have hmem : '=' ∈ dn.toString.toList := by
    rw [toList_toString, hentries, List.map_cons]
    have hfirst : '=' ∈ printEntry rdn := List.mem_append_right _ List.mem_cons_self
    cases rest with
    | nil => simpa using hfirst
    | cons rdn' rest =>
        rw [List.map_cons, List.intercalate_cons_cons]
        exact List.mem_append_left _ (List.mem_append_left _ hfirst)
  rw [ne_eq, Split.trim_eq_nil_iff]
  exact fun hall => absurd (hall '=' hmem) (by decide)

theorem mapM_eq_some_iff {α β : Type} {f : α → Option β} {xs : List α} {ys : List β} :
    xs.mapM f = some ys ↔ List.Forall₂ (fun x y => f x = some y) xs ys := by
  induction xs generalizing ys with
  | nil =>
      rw [List.mapM_nil, List.forall₂_nil_left_iff]
      exact ⟨fun h => (Option.some.inj h).symm, fun h => h ▸ rfl⟩
  | cons x rest ih =>
      rw [List.mapM_cons]
      constructor
      · intro h
        obtain ⟨y, hy, h⟩ := Option.bind_eq_some_iff.mp h
        obtain ⟨zs, hzs, h⟩ := Option.bind_eq_some_iff.mp h
        cases h
        exact .cons hy (ih.mp hzs)
      · intro h
        cases h with
        | cons hy hrest =>
            rw [hy, ih.mpr hrest]
            rfl

theorem exists_of_forall₂ {α β : Type} {R : α → β → Prop} {xs : List α} {ys : List β}
    (h : List.Forall₂ R xs ys) {y : β} (hy : y ∈ ys) : ∃ x ∈ xs, R x y := by
  induction h with
  | nil => cases hy
  | cons hfirst _ ih =>
      rcases List.mem_cons.mp hy with rfl | hy
      · exact ⟨_, List.mem_cons_self, hfirst⟩
      · obtain ⟨x, hx, hxy⟩ := ih hy
        exact ⟨x, List.mem_cons_of_mem _ hx, hxy⟩

theorem fromString_toString_eq (hne : dn.entries ≠ []) :
    fromString dn.toString = some dn ↔
      List.Forall₂ (fun entryStr rdn => parseEntry entryStr = some rdn)
        (split '\\' ',' ([','].intercalate (dn.entries.map printEntry))) dn.entries := by
  rw [← mapM_eq_some_iff, fromString, if_neg (trim_toString_ne_nil hne), toList_toString]
  constructor
  · intro h
    obtain ⟨entries, hentries, rfl⟩ := Option.map_eq_some_iff.mp h
    exact hentries
  · intro h
    rw [h]
    rfl

theorem split_toString (hne : dn.entries ≠ [])
    (hplain : ∀ rdn ∈ dn.entries, Plain rdn.attrName ∧ Plain rdn.attrValue)
    (hlast : ∀ a ∈ (dn.entries.map printEntry).dropLast, a.getLast? ≠ some '\\') :
    split '\\' ',' ([','].intercalate (dn.entries.map printEntry)) =
      dn.entries.map printEntry := by
  have hmap : dn.entries.map printEntry ≠ [] := by simpa using hne
  refine split_join (by decide) hmap (fun a ha => ?_) hlast ?_
  · obtain ⟨rdn, hrdn, rfl⟩ := List.mem_map.mp ha
    exact guarded_printEntry (hplain rdn hrdn).1 (hplain rdn hrdn).2
  · obtain ⟨rdn, -, hlast⟩ := List.mem_map.mp (List.getLast_mem hmap)
    rw [← hlast, printEntry]
    simp

theorem forall_dropLast_printEntry :
    (∀ a ∈ (dn.entries.map printEntry).dropLast, a.getLast? ≠ some '\\') ↔
      ∀ rdn ∈ dn.entries.dropLast, rdn.attrValue.toList.getLast? ≠ some '\\' := by
  simp only [← List.map_dropLast, List.forall_mem_map, ne_eq, printEntry_getLast?]

theorem fromString_toString_iff (dn : LDAPDn) : fromString dn.toString = some dn ↔ dn.Readable := by
  by_cases hne : dn.entries = []
  · obtain ⟨entries⟩ := dn
    cases hne
    exact ⟨fun _ => ⟨by simp, by simp⟩, fun _ => by decide⟩
  have hmap : dn.entries.map printEntry ≠ [] := by simpa using hne
  rw [fromString_toString_eq hne]
  constructor
  · intro h
    have hplain : ∀ rdn ∈ dn.entries, Plain rdn.attrName ∧ Plain rdn.attrValue := by
      intro rdn hrdn
      obtain ⟨entryStr, hpiece, hparsed⟩ := exists_of_forall₂ h hrdn
      exact parseEntry_plain (guarded_of_mem_split (by decide) (.inl rfl) hpiece) hparsed
    have hguarded : ∀ a ∈ dn.entries.map printEntry, Guarded '\\' ',' none a := by
      intro a ha
      obtain ⟨rdn, hrdn, rfl⟩ := List.mem_map.mp ha
      exact guarded_printEntry (hplain rdn hrdn).1 (hplain rdn hrdn).2
    have hlast := getLast_ne_of_length_split (by decide) hmap hguarded
      (by rw [h.length_eq, List.length_map])
    rw [split_toString hne hplain hlast, List.forall₂_map_left_iff, List.forall₂_same] at h
    refine ⟨fun rdn hrdn => ?_, forall_dropLast_printEntry.mp hlast⟩
    exact printable_of_parseEntry (hplain rdn hrdn).1 (hplain rdn hrdn).2 (h rdn hrdn)
  · intro h
    have hplain : ∀ rdn ∈ dn.entries, Plain rdn.attrName ∧ Plain rdn.attrValue := fun rdn hrdn =>
      ⟨(h.printable rdn hrdn).name, (h.printable rdn hrdn).value⟩
    rw [split_toString hne hplain (forall_dropLast_printEntry.mpr h.value_last),
      List.forall₂_map_left_iff, List.forall₂_same]
    exact fun rdn hrdn => parseEntry_printEntry (h.printable rdn hrdn)

end

/-! ## Names with entries added in front -/

/-- The name after the entries have been added, each in front of the others. -/
def addAll (escapeValue : String → String) (base : LDAPDn) (rdns : List (String × String)) :
    LDAPDn :=
  rdns.foldl (addFirst escapeValue) base

/-- The name is printed and parsed again: it has the same entries, its first value is the one
added last, and its parent is the name before that. -/
def SurvivesPrinting (escapeValue unescapeValue : String → String) (base : LDAPDn)
    (rdns : List (String × String)) : Prop :=
  ∃ reparsed, fromString (addAll escapeValue base rdns).toString = some reparsed ∧
    reparsed.entries = (addAll escapeValue base rdns).entries ∧
    ∀ init name value, rdns = init ++ [(name, value)] →
      reparsed.getFirstRdnAttrValue unescapeValue = some value ∧
        reparsed.getParentDn = some (addAll escapeValue base init)

/-- All parts of the name can be told apart in its text.  In the order of adding, only the first
of all values may end in a backslash, as nothing is printed after it. -/
structure Separable (escapeValue : String → String) (base : LDAPDn)
    (rdns : List (String × String)) : Prop where
  kept : ∀ rdn ∈ base.entries, Printable rdn
  added : ∀ rdn ∈ rdns, Printable ⟨rdn.1, escapeValue rdn.2⟩
  value_last : ∀ value ∈ (base.entries.reverse.map Entry.attrValue ++
    rdns.map fun rdn => escapeValue rdn.2).tail, value.toList.getLast? ≠ some '\\'

section

variable {escapeValue unescapeValue : String → String} {base : LDAPDn}
  {rdns : List (String × String)}

theorem addAll_concat (init : List (String × String)) (rdn : String × String) :
    addAll escapeValue base (init ++ [rdn]) =
      addFirst escapeValue (addAll escapeValue base init) rdn := by
  rw [addAll, List.foldl_append]
  rfl

theorem addAll_entries (escapeValue : String → String) (base : LDAPDn)
    (rdns : List (String × String)) : (addAll escapeValue base rdns).entries =
      (base.entries.reverse ++ rdns.map fun rdn => Entry.mk rdn.1 (escapeValue rdn.2)).reverse := by
  induction rdns generalizing base with
  | nil => simp [addAll]
  | cons rdn rest ih =>
      have hrest := ih (addFirst escapeValue base rdn)
      rw [addFirst, List.reverse_cons, List.append_assoc] at hrest
      exact hrest

theorem readable_addAll_iff :
    (addAll escapeValue base rdns).Readable ↔ Separable escapeValue base rdns := by
  have hentries := addAll_entries escapeValue base rdns
  have hlast : (addAll escapeValue base rdns).entries.dropLast.map Entry.attrValue =
      ((base.entries.reverse.map Entry.attrValue ++
        rdns.map fun rdn => escapeValue rdn.2).tail).reverse := by
    rw [hentries, List.dropLast_reverse, List.map_reverse, List.map_tail, List.map_append,
      List.map_map]
    rfl
  constructor
  · intro h
    refine ⟨fun rdn hrdn => h.printable rdn ?_, fun rdn hrdn => h.printable _ ?_, ?_⟩
    · rw [hentries, List.mem_reverse, List.mem_append, List.mem_reverse]
      exact .inl hrdn
    · rw [hentries, List.mem_reverse, List.mem_append]
      exact .inr (List.mem_map.mpr ⟨rdn, hrdn, rfl⟩)
    · intro value hvalue
      rw [← List.mem_reverse, ← hlast] at hvalue
      obtain ⟨rdn, hrdn, rfl⟩ := List.mem_map.mp hvalue
      exact h.value_last rdn hrdn
  · intro h
    refine ⟨fun rdn hrdn => ?_, fun rdn hrdn => h.value_last _ ?_⟩
    · rw [hentries, List.mem_reverse, List.mem_append, List.mem_reverse] at hrdn
      rcases hrdn with hrdn | hrdn
      · exact h.kept rdn hrdn
      · obtain ⟨added, hadded, rfl⟩ := List.mem_map.mp hrdn
        exact h.added added hadded
    · rw [← List.mem_reverse, ← hlast]
      exact List.mem_map.mpr ⟨rdn, hrdn, rfl⟩

/-- A name survives printing exactly when its parts can be told apart. -/
theorem survivesPrinting_iff (hinverse : ∀ value, unescapeValue (escapeValue value) = value) :
    SurvivesPrinting escapeValue unescapeValue base rdns ↔
      Separable escapeValue base rdns := by
  rw [← readable_addAll_iff, ← fromString_toString_iff]
  constructor
  · rintro ⟨reparsed, hreparsed, hentries, -⟩
    rw [hreparsed]
    exact congrArg some (congrArg LDAPDn.mk hentries)
  · intro h
    refine ⟨_, h, rfl, fun init name value hrdns => ?_⟩
    subst hrdns
    rw [addAll_concat]
    exact ⟨congrArg some (hinverse value), rfl⟩

end

/-- A backslash in front of every character that stands for itself only behind one. -/
def escapeSpecials (value : String) : String :=
  String.ofList (value.toList.flatMap fun c =>
    if c ∈ [',', '=', '+', '<', '>', '#', ';', '"', '\\'] then ['\\', c] else [c])

def dropBackslashes : List Char → List Char
  | [] => []
  | [c] => [c]
  | c :: d :: rest =>
      if c = '\\' then d :: dropBackslashes rest else c :: dropBackslashes (d :: rest)

def unescapeSpecials (value : String) : String :=
  String.ofList (dropBackslashes value.toList)

theorem dropBackslashes_cons {c : Char} (hc : c ≠ '\\') (rest : List Char) :
    dropBackslashes (c :: rest) = c :: dropBackslashes rest := by
  cases rest with
  | nil => rfl
  | cons d rest => rw [dropBackslashes, if_neg hc]

theorem unescapeSpecials_escapeSpecials (value : String) :
    unescapeSpecials (escapeSpecials value) = value := by
  rw [← String.toList_inj, unescapeSpecials, escapeSpecials, String.toList_ofList,
    String.toList_ofList]
  induction value.toList with
  | nil => rfl
  | cons c rest ih =>
      rw [List.flatMap_cons]
      split
      · rw [List.cons_append, List.cons_append, List.nil_append, dropBackslashes, if_pos rfl, ih]
      · rename_i hc
        rw [List.cons_append, List.nil_append, dropBackslashes_cons, ih]
        exact fun h => hc (by simp [h])

theorem survivesPrinting_of_comma : SurvivesPrinting escapeSpecials unescapeSpecials
    ⟨[⟨"dc", "org"⟩]⟩ [("ou", "people"), ("cn", "a=b, c")] := by
  exact (survivesPrinting_iff unescapeSpecials_escapeSpecials).mpr
    ⟨by decide, by decide, by decide⟩

/-- The backslashes of a value that ends in one stand in front of the comma after it. -/
theorem not_survivesPrinting_of_backslash :
    ¬ ∀ (escapeValue unescapeValue : String → String) (dnString : String) (base : LDAPDn)
        (rdns : List (String × String)),
      (∀ value, unescapeValue (escapeValue value) = value) →
      fromString dnString = some base → (∀ rdn ∈ rdns, rdn.1 ≠ "") →
        SurvivesPrinting escapeValue unescapeValue base rdns := by
  intro h
  have hfirst := h escapeSpecials unescapeSpecials "dc=org" ⟨[⟨"dc", "org"⟩]⟩ [("ou", "a\\")]
    unescapeSpecials_escapeSpecials (by decide) (by decide)
  obtain ⟨reparsed, hreparsed, hentries, -⟩ := hfirst
  have hparsed : fromString (addAll escapeSpecials ⟨[⟨"dc", "org"⟩]⟩ [("ou", "a\\")]).toString =
      some ⟨[⟨"ou", "a\\\\,dc"⟩]⟩ := by decide
  rw [hparsed] at hreparsed
  cases hreparsed
  revert hentries
  decide

end LDAPDn

end Keycloak.Storage
