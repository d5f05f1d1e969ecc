import Keycloak.Lib.LinkedMap
import Keycloak.Lib.Marker
import Keycloak.Lib.Split

/-!
# Password policies as texts

A realm keeps its password policy as a text: the ids of the policies with their configurations
in parentheses, joined by ` and `.  The parser cuts the text at every ` and `, also within a
configuration.  A text is the list of its 16-bit units.
-/

namespace Keycloak.Authentication.PasswordPolicy

abbrev Text := List Nat

/-- The text of characters of one unit. -/
def units (text : List Char) : Text := text.map Char.toNat

def openParen : Nat := 40
def closeParen : Nat := 41

def conjunction : Text := [32, 97, 110, 100, 32]

def trim (text : Text) : Text := Split.trimBy (fun c => c ≤ 32) text

/-- `String.split`: a text without a match is its only piece, even when it is empty; otherwise
the empty pieces at the end are dropped. -/
def split (marker text : Text) : List Text :=
  match Marker.cut marker text with
  | [piece] => [piece]
  | pieces => pieces.rdropWhile (·.isEmpty)

/-- The `LinkedHashMap` of a builder; a policy without configuration has the value null. -/
abbrev PolicyMap := List (Text × Option Text)

def put (map : PolicyMap) (key : Text) (config : Option Text) : PolicyMap :=
  LinkedMap.alter key (fun _ => config) map

/-- One round of the loop of the constructor.  The last unit is taken to be the closing
parenthesis; none where there is no unit between the opening parenthesis and the end, for
which `substring` throws. -/
def parsePolicy (policy : Text) : Option (Text × Option Text) :=
  let policy := trim policy
  match policy.dropWhile (· ≠ openParen) with
  | [] => some (trim policy, none)
  | [_] => none
  | _ :: c :: rest => some (trim (policy.takeWhile (· ≠ openParen)), some (c :: rest).dropLast)

/-- `Builder(String)`. -/
def parseBuilder (policyString : Option Text) : Option PolicyMap :=
  match policyString with
  | none => some []
  | some policyString =>
      if trim policyString = [] then some []
      else (split conjunction policyString).foldlM (fun map policy =>
        (parsePolicy policy).map fun entry => put map entry.1 entry.2) []

def policyText (entry : Text × Option Text) : Text :=
  match entry.2 with
  | some c => if trim c ≠ [] then entry.1 ++ openParen :: (c ++ [closeParen]) else entry.1
  | none => entry.1

def asString (map : PolicyMap) : Option Text :=
  if map.isEmpty then none else some (conjunction.intercalate (map.map policyText))

/-! ## Providers -/

/-- What `parseConfig` gives, or the message of its `PasswordPolicyConfigException`. -/
abbrev ParseConfig (Obj : Type) := Option Text → Except String Obj

/-- `session.getProvider`. -/
abbrev Session (Obj : Type) := Text → Option (ParseConfig Obj)

/-- `PasswordPolicyConfigException` and `ModelException`; the message of the latter begins with
`Invalid config for` and the key. -/
inductive Failure where
  | passwordPolicyConfig (message : String)
  | model (key : Text) (message : String)
  deriving DecidableEq, Repr

section

variable {Obj : Type}

def parseRegexPattern (compile : Text → Option Obj) : ParseConfig Obj
  | none => .error "Config required"
  | some value =>
      match compile value with
      | some pattern => .ok pattern
      | none => .error "Not a valid regular expression"

variable (session : Session Obj)

def build : PolicyMap → Except Failure (List (Text × Obj))
  | [] => .ok []
  | (key, value) :: rest =>
      match session key with
      | none => .error (.passwordPolicyConfig "Password policy not found")
      | some parseConfig =>
          match parseConfig value with
          | .error message => .error (.model key message)
          | .ok o => do
              let config ← build rest
              .ok ((key, o) :: config)

/-- `PasswordPolicy.parse`; none where the constructor of the builder throws. -/
def parse (policyString : Option Text) : Option (Except Failure (List (Text × Obj))) :=
  (parseBuilder policyString).map (build session)

structure Policies where
  entries : PolicyMap
  nodup : (LinkedMap.keys entries).Nodup
  accepted : ∃ config, build session entries = .ok config
  plain : ∀ e ∈ entries, openParen ∉ e.1 ∧ 32 ∉ e.1
  trimmed : ∀ e ∈ entries, ∀ c ∈ e.2, trim c = c ∧ c ≠ []

end

def Survives (entries : PolicyMap) : Prop := parseBuilder (asString entries) = some entries

/-- No configuration has ` and `; no id begins or ends with a control character, and the last id
is not an empty one without a configuration. -/
structure Storable (entries : PolicyMap) : Prop where
  ids : ∀ e ∈ entries, trim e.1 = e.1
  configs : ∀ e ∈ entries, ∀ c ∈ e.2, ¬ conjunction <:+: c
  last : entries.getLast? ≠ some ([], none)

/-! ## One entry -/

section

variable {entry : Text × Option Text} {piece : Text}

theorem trim_eq_self_iff {text : Text} :
    trim text = text ↔ (∀ c ∈ text.head?, 32 < c) ∧ ∀ c ∈ text.getLast?, 32 < c := by
  rw [trim, Split.trimBy_eq_self_iff]
  simp only [decide_eq_false_iff_not, Nat.not_le]

/-- An entry that can be stored: its id is trimmed and has no parenthesis, and its configuration
is trimmed and not blank. -/
structure Readable (entry : Text × Option Text) : Prop where
  id : trim entry.1 = entry.1
  plain : openParen ∉ entry.1
  config : ∀ c ∈ entry.2, trim c = c ∧ c ≠ []

theorem policyText_of_config {key c : Text} (h : trim c = c ∧ c ≠ []) :
    policyText (key, some c) = key ++ openParen :: (c ++ [closeParen]) := by
  have hne : trim c ≠ [] := by
    rw [h.1]
    exact h.2
  exact if_pos hne

theorem trim_policyText (h : Readable entry) : trim (policyText entry) = policyText entry := by
  obtain ⟨key, value⟩ := entry
  cases value with
  | none => exact h.id
  | some c =>
      rw [policyText_of_config (h.config c rfl), trim_eq_self_iff]
      refine ⟨fun x hx => ?_, fun x hx => ?_⟩
      · cases key with
        | nil =>
            cases hx
            decide
        | cons k key =>
            cases hx
            exact (trim_eq_self_iff.mp h.id).1 _ rfl
      · have hlast : (key ++ openParen :: (c ++ [closeParen])).getLast? = some closeParen := by
          rw [← List.cons_append, ← List.append_assoc, List.getLast?_concat]
        rw [hlast] at hx
        cases hx
        decide

theorem parsePolicy_policyText (h : Readable entry) :
    parsePolicy (policyText entry) = some entry := by
  rw [parsePolicy, trim_policyText h]
  obtain ⟨key, value⟩ := entry
  have hkey : ∀ x ∈ key, decide (x ≠ openParen) = true := by
    intro x hx
    refine decide_eq_true ?_
    rintro rfl
    exact h.plain hx
  cases value with
  | none =>
      have hdrop : key.dropWhile (· ≠ openParen) = [] := List.dropWhile_eq_nil_iff.mpr hkey
      have htext : policyText (key, none) = key := rfl
      simp only [htext, hdrop]
      rw [h.id]
  | some c =>
      obtain ⟨htrim, hne⟩ := h.config c rfl
      have hstop : ¬ decide (openParen ≠ openParen) = true := by decide
      have hdrop : (key ++ openParen :: (c ++ [closeParen])).dropWhile (· ≠ openParen) =
          openParen :: (c ++ [closeParen]) := by
        rw [List.dropWhile_append_of_pos hkey]
        exact List.dropWhile_cons_of_neg hstop
      have htake : (key ++ openParen :: (c ++ [closeParen])).takeWhile (· ≠ openParen) = key := by
        have hnone : (openParen :: (c ++ [closeParen])).takeWhile (· ≠ openParen) = [] :=
          List.takeWhile_cons_of_neg hstop
        rw [List.takeWhile_append_of_pos hkey, hnone, List.append_nil]
      rw [policyText_of_config ⟨htrim, hne⟩]
      simp only [hdrop, htake]
      cases c with
      | nil => exact absurd rfl hne
      | cons x c =>
          rw [List.cons_append]
          dsimp only
          rw [← List.cons_append, List.dropLast_concat, h.id]

theorem of_parsePolicy (h : parsePolicy piece = some entry) :
    trim entry.1 = entry.1 ∧ ∀ c ∈ entry.2, c <:+: piece := by
  rw [parsePolicy] at h
  have hdrop : (trim piece).dropWhile (· ≠ openParen) <:+ trim piece := List.dropWhile_suffix _
  split at h
  · cases h
    exact ⟨Split.trimBy_trimBy _, fun c hc => by cases hc⟩
  · cases h
  · rename_i p c rest heq
    cases h
    refine ⟨Split.trimBy_trimBy _, fun config hconfig => ?_⟩
    cases hconfig
    rw [heq] at hdrop
    have hpart : c :: rest <:+: trim piece :=
      (List.suffix_cons p (c :: rest)).isInfix.trans hdrop.isInfix
    exact ((List.dropLast_prefix (c :: rest)).isInfix.trans hpart).trans (Split.trimBy_infix piece)

theorem free_policyText (hspace : 32 ∉ entry.1) (hfree : ∀ c ∈ entry.2, ¬ conjunction <:+: c) :
    ¬ conjunction <:+: policyText entry ++ conjunction.dropLast := by
  obtain ⟨key, value⟩ := entry
  have hkey : ¬ conjunction <:+: key ++ conjunction.dropLast := by
    intro h
    have hcount := h.sublist.count_le 32
    rw [List.count_append, List.count_eq_zero_of_not_mem hspace] at hcount
    exact absurd hcount (by decide)
  cases value with
  | none => exact hkey
  | some c =>
      rw [policyText]
      dsimp only
      split
      · rw [List.append_assoc, List.cons_append, List.append_assoc, List.singleton_append]
        intro h
        rcases Marker.infix_append_cons (by decide) h with h | h
        · exact hspace (h.subset List.mem_cons_self)
        rcases Marker.infix_append_cons (by decide) h with h | h
        · exact hfree c rfl h
        · exact absurd h.length_le (by decide)
      · exact hkey

/-! ## All entries -/

variable {entries acc map : PolicyMap} {pieces : List Text}

def putPolicy (map : PolicyMap) (policy : Text) : Option PolicyMap :=
  (parsePolicy policy).map fun entry => put map entry.1 entry.2

theorem parseBuilder_some (policyString : Text) :
    parseBuilder (some policyString) = if trim policyString = [] then some []
      else (split conjunction policyString).foldlM putPolicy [] := rfl

theorem conjunction_ne_nil : conjunction ≠ [] := List.cons_ne_nil _ _

theorem split_subset (text : Text) : split conjunction text ⊆ Marker.cut conjunction text := by
  rw [split]
  split
  · rename_i heq
    rw [heq]
    exact List.Subset.refl _
  · exact (List.rdropWhile_prefix _ _).subset

theorem foldlM_putPolicy (hread : ∀ e ∈ entries, Readable e)
    (hnodup : (LinkedMap.keys (acc ++ entries)).Nodup) :
    (entries.map policyText).foldlM putPolicy acc = some (acc ++ entries) := by
  induction entries generalizing acc with
  | nil => rw [List.append_nil]; rfl
  | cons e rest ih =>
      obtain ⟨he, hrest⟩ := List.forall_mem_cons.mp hread
      have hnew : e.1 ∉ LinkedMap.keys acc := by
        intro hmem
        rw [LinkedMap.keys_append, List.nodup_append] at hnodup
        exact hnodup.2.2 e.1 hmem e.1 List.mem_cons_self rfl
      have hput : putPolicy acc (policyText e) = some (acc ++ [e]) := by
        rw [putPolicy, parsePolicy_policyText he, Option.map_some, put,
          LinkedMap.alter_of_not_mem hnew]
      rw [List.map_cons, List.foldlM_cons, hput]
      have hloop : (rest.map policyText).foldlM putPolicy (acc ++ [e]) =
          some ((acc ++ [e]) ++ rest) := ih hrest (by rwa [List.append_assoc])
      rwa [List.append_assoc] at hloop

/-- What the loop has put was there before or was read from one of the pieces. -/
theorem mem_of_foldlM_putPolicy (h : pieces.foldlM putPolicy acc = some map)
    {e : Text × Option Text} (he : e ∈ map) :
    e ∈ acc ∨ ∃ piece ∈ pieces, parsePolicy piece = some e := by
  induction pieces generalizing acc with
  | nil =>
      cases h
      exact .inl he
  | cons piece rest ih =>
      rw [List.foldlM_cons, Option.bind_eq_bind, Option.bind_eq_some_iff] at h
      obtain ⟨middle, hput, hrest⟩ := h
      obtain ⟨entry, hentry, rfl⟩ := Option.map_eq_some_iff.mp hput
      rcases ih hrest with hmiddle | ⟨other, hother, hparse⟩
      · rcases LinkedMap.mem_alter hmiddle with hold | rfl
        · exact .inl hold
        · exact .inr ⟨piece, List.mem_cons_self, hentry⟩
      · exact .inr ⟨other, List.mem_cons_of_mem piece hother, hparse⟩

theorem asString_of_ne_nil (hne : entries ≠ []) :
    asString entries = some (conjunction.intercalate (entries.map policyText)) := by
  rw [asString, if_neg (by rwa [List.isEmpty_iff])]

theorem trim_ne_nil_of_mem_cut {text piece : Text} (hpiece : piece ∈ Marker.cut conjunction text)
    (htrim : trim piece = piece) (hne : piece ≠ []) : trim text ≠ [] := by
  intro hnil
  have hpart := ((Marker.free_of_mem_cut conjunction_ne_nil _).2 piece hpiece).1
  refine hne ?_
  rw [← htrim, trim, Split.trimBy_eq_nil_iff]
  exact fun c hc => Split.trimBy_eq_nil_iff.mp hnil c (hpart.subset hc)

theorem split_of_last {texts : List Text} {text last : Text}
    (hcut : Marker.cut conjunction text = texts) (hlast : texts.getLast? = some last)
    (hne : last ≠ []) : split conjunction text = texts := by
  rw [split, hcut]
  split
  · rfl
  · rw [List.rdropWhile_eq_self_iff]
    intro htexts
    have hgetLast : texts.getLast htexts = last :=
      Option.some.inj ((List.getLast?_eq_some_getLast htexts).symm.trans hlast)
    rw [hgetLast, List.isEmpty_iff]
    exact hne

theorem split_of_last_nil {texts : List Text} {text : Text}
    (hcut : Marker.cut conjunction text = texts ++ [[]]) (hne : texts ≠ []) :
    split conjunction text ⊆ texts := by
  rw [split, hcut]
  split
  · rename_i hsingle
    exact absurd (List.append_eq_singleton_iff.mp hsingle) (by simp [hne])
  · rw [List.rdropWhile_concat_pos _ _ _ rfl]
    exact (List.rdropWhile_prefix _ _).subset

theorem eq_of_policyText_eq_nil {entry : Text × Option Text} (h : Readable entry)
    (hnil : policyText entry = []) : entry = ([], none) := by
  have hread := parsePolicy_policyText h
  rw [hnil] at hread
  exact (Option.some.inj hread).symm

variable {Obj : Type} {session : Session Obj} (policies : Policies session)

theorem Policies.readable (hids : ∀ e ∈ policies.entries, trim e.1 = e.1) :
    ∀ e ∈ policies.entries, Readable e :=
  fun e he => ⟨hids e he, (policies.plain e he).1, policies.trimmed e he⟩

theorem Policies.cut_asString (hne : policies.entries ≠ [])
    (hfree : ∀ e ∈ policies.entries, ∀ c ∈ e.2, ¬ conjunction <:+: c) :
    Marker.cut conjunction (conjunction.intercalate (policies.entries.map policyText)) =
      policies.entries.map policyText := by
  refine Marker.cut_intercalate conjunction_ne_nil (by simpa using hne) fun p hp => ?_
  obtain ⟨e, he, rfl⟩ := List.mem_map.mp hp
  exact free_policyText (policies.plain e he).2 (hfree e he)

theorem Policies.survives (h : Storable policies.entries) : Survives policies.entries := by
  by_cases hne : policies.entries = []
  · rw [hne]
    rfl
  have hread := policies.readable h.ids
  have hcut := policies.cut_asString hne h.configs
  obtain ⟨e, hlast⟩ : ∃ e, policies.entries.getLast? = some e :=
    ⟨_, List.getLast?_eq_some_getLast hne⟩
  have he : e ∈ policies.entries := List.mem_of_getLast? hlast
  have hlastText : policyText e ≠ [] := by
    intro hnil
    rw [eq_of_policyText_eq_nil (hread e he) hnil] at hlast
    exact h.last hlast
  have hpiece : policyText e ∈ policies.entries.map policyText := List.mem_map_of_mem he
  -- the text of the last entry keeps the text from being blank
  have hblank := trim_ne_nil_of_mem_cut (hcut ▸ hpiece) (trim_policyText (hread e he)) hlastText
  have hsplit := split_of_last hcut (by rw [List.getLast?_map, hlast]; rfl) hlastText
  rw [Survives, asString_of_ne_nil hne, parseBuilder_some, if_neg hblank, hsplit]
  exact foldlM_putPolicy hread policies.nodup

theorem Policies.storable (h : Survives policies.entries) : Storable policies.entries := by
  by_cases hne : policies.entries = []
  · rw [hne]
    exact ⟨fun e he => absurd he List.not_mem_nil, fun e he => absurd he List.not_mem_nil,
      by simp⟩
  rw [Survives, asString_of_ne_nil hne, parseBuilder_some] at h
  split at h
  · exact absurd (Option.some.inj h).symm hne
  rename_i hblank
  have hpiece : ∀ e ∈ policies.entries, ∃ piece ∈ split conjunction
      (conjunction.intercalate (policies.entries.map policyText)), parsePolicy piece = some e :=
    fun e he => (mem_of_foldlM_putPolicy h he).resolve_left List.not_mem_nil
  have hids : ∀ e ∈ policies.entries, trim e.1 = e.1 := by
    intro e he
    obtain ⟨piece, -, hparse⟩ := hpiece e he
    exact (of_parsePolicy hparse).1
  have hconfigs : ∀ e ∈ policies.entries, ∀ c ∈ e.2, ¬ conjunction <:+: c := by
    intro e he c hc hmid
    obtain ⟨piece, hmem, hparse⟩ := hpiece e he
    have hfree := ((Marker.free_of_mem_cut conjunction_ne_nil _).2 piece (split_subset _ hmem)).2
    exact hfree (hmid.trans ((of_parsePolicy hparse).2 c hc))
  refine ⟨hids, hconfigs, fun hlast => ?_⟩
  have hcut := policies.cut_asString hne hconfigs
  have hread := policies.readable hids
  have hnodup := policies.nodup
  obtain ⟨init, hinit⟩ := List.getLast?_eq_some_iff.mp hlast
  rw [hinit] at hcut hblank hpiece hread hnodup
  have hlastText : policyText ([], none) = [] := rfl
  rw [List.map_append, List.map_singleton, hlastText] at hcut hblank hpiece
  have hinitNe : init.map policyText ≠ [] := by
    intro hnil
    rw [hnil] at hblank
    exact hblank rfl
  -- no other entry has the empty id
  obtain ⟨piece, hmem, hparse⟩ := hpiece ([], none) (List.mem_append_right init
    (List.mem_singleton_self _))
  obtain ⟨e, he, rfl⟩ := List.mem_map.mp (split_of_last_nil hcut hinitNe hmem)
  rw [parsePolicy_policyText (hread e (List.mem_append_left _ he))] at hparse
  obtain rfl := Option.some.inj hparse
  rw [LinkedMap.keys_append, List.nodup_append] at hnodup
  exact hnodup.2.2 [] (List.mem_map_of_mem he) [] List.mem_cons_self rfl

/-- The policies survive being stored if and only if they are storable. -/
theorem survives_iff : Survives policies.entries ↔ Storable policies.entries :=
  ⟨policies.storable, policies.survives⟩

end

def regexPattern : Text := units ['r', 'e', 'g', 'e', 'x', 'P', 'a', 't', 't', 'e', 'r', 'n']

def sampleSession : Session Text := fun key =>
  if key = regexPattern then
    some (parseRegexPattern fun value =>
      if value.all fun c => c == 32 || (97 ≤ c && c ≤ 122) then some value else none)
  else none

/-- The regular expression `a and b`. -/
def samplePolicies : Policies sampleSession where
  entries := [(regexPattern, some (units ['a', ' ', 'a', 'n', 'd', ' ', 'b']))]
  nodup := by decide
  accepted := ⟨_, rfl⟩
  plain := by decide
  trimmed := by
    intro e he c hc
    obtain rfl := List.mem_singleton.mp he
    cases hc
    decide

/-- The regular expression is lost, and what is behind its ` and ` becomes the id of a policy
that has no provider. -/
theorem not_survives_of_conjunction :
    parseBuilder (asString samplePolicies.entries) =
        some [(regexPattern, some []), (units ['b', ')'], none)] ∧
      parse sampleSession (asString samplePolicies.entries) =
        some (.error (.passwordPolicyConfig "Password policy not found")) ∧
      ¬ Survives samplePolicies.entries := by
  have hparse : parseBuilder (asString samplePolicies.entries) =
      some [(regexPattern, some []), (units ['b', ')'], none)] := by decide
  refine ⟨hparse, by rw [parse, hparse]; rfl, fun h => ?_⟩
  rw [Survives, hparse] at h
  exact absurd h (by decide)

end Keycloak.Authentication.PasswordPolicy
