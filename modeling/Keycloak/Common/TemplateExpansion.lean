import Keycloak.Common.PathMatcher

/-!
# When the expansion of a template ends

Behind the last closing brace a further opening brace or wildcard sends the loop back to the
start of the template, which is then read again.  What the readings write, with no bound on its
length, tells whether the loop ends: it does not when it never fills the target, or when the
segments of the target run out first.
-/

namespace Keycloak.PathMatcher

/-- How a reading of the template ends: at its end, at the last parameter when only one is asked
for, for want of a segment, or back at the start. -/
inductive Ending where
  | ended
  | stopped
  | failed
  | restart (paramIndex : Nat)
  deriving DecidableEq

namespace Expansion

variable (e : Expansion)

def copied (isWildcard : Bool) (paramIndex : Nat) : Option Text :=
  if isWildcard then some ((e.params.drop paramIndex).flatMap (· ++ [slash]))
  else if paramIndex = e.params.length then some [] else e.params[paramIndex]?

def stops (rest : Text) : Bool :=
  e.onlyFirstParam ∧
    if closeBrace ∈ rest then closeBrace ∉ (rest.dropWhile (· ≠ closeBrace)).tail
    else closeBrace ∉ e.expectedUri

/-- One reading of what is left of the template, or, inside a parameter, of what follows it. -/
def read : Bool → Text → Nat → Text × Ending
  | _, [], _ => ([], .ended)
  | true, c :: rest, paramIndex => read (c ≠ closeBrace) rest paramIndex
  | false, c :: rest, paramIndex =>
      if c = openBrace ∨ c = wildcard then
        match e.copied (c = wildcard) paramIndex with
        | none => ([], .failed)
        | some text =>
            if e.stops rest then (text, .stopped)
            else if closeBrace ∈ rest then
              let (more, ending) := read true rest paramIndex
              (text ++ more, ending)
            else (text, .restart paramIndex)
      else
        let (more, ending) := read false rest (if c = slash then paramIndex + 1 else paramIndex)
        (c :: more, ending)

/-- At most so many readings, the first of `rest` and the others of the whole template. -/
def readings : Nat → Text → Nat → Text × Ending
  | 0, _, paramIndex => ([], .restart paramIndex)
  | n + 1, rest, paramIndex =>
      match e.read false rest paramIndex with
      | (text, .restart paramIndex) =>
          let (more, ending) := readings n e.expectedUri paramIndex
          (text ++ more, ending)
      | (text, ending) => (text, ending)

/-- Some number of readings comes to an end, or fills an array with so much room. -/
def Fills (room : Nat) (rest : Text) (paramIndex : Nat) : Prop :=
  ∃ n, (e.readings n rest paramIndex).2 = .ended ∨ (e.readings n rest paramIndex).2 = .stopped ∨
    room ≤ (e.readings n rest paramIndex).1.length

def Yields (i paramIndex : Nat) (matchingUri : Buffer)
    (outcome : Except Failure (Option Text)) : Prop :=
  ∃ k, ∀ fuel, e.loop (fuel + k) i paramIndex matchingUri = outcome

/-- The loop comes by a second state. -/
def Leads (i paramIndex : Nat) (matchingUri : Buffer) (i' paramIndex' : Nat)
    (matchingUri' : Buffer) : Prop :=
  ∃ k, ∀ fuel, e.loop (fuel + (k + 1)) i paramIndex matchingUri =
    e.loop fuel i' paramIndex' matchingUri'

end Expansion

/-! ## Positions in the template -/

theorem indexOf_eq_none {c : UInt16} {text : Text} {i : Nat} (h : c ∉ text.drop i) :
    indexOf c text i = none := by
  rw [indexOf, List.findIdx?_eq_none_iff.mpr, Option.map_none]
  intro d hd
  exact decide_eq_false fun heq => h (heq ▸ hd)

theorem indexOf_eq_some {c : UInt16} {text before after : Text} {i : Nat}
    (h : text.drop i = before ++ c :: after) (hbefore : c ∉ before) :
    indexOf c text i = some (i + before.length) := by
  have hnone : before.findIdx? (· = c) = none := by
    rw [List.findIdx?_eq_none_iff]
    intro d hd
    exact decide_eq_false fun heq => hbefore (heq ▸ hd)
  have hhead : (c :: after).findIdx? (· = c) = some 0 := by
    rw [List.findIdx?_cons, if_pos (decide_eq_true rfl)]
  rw [indexOf, h, List.findIdx?_append, hnone, hhead]
  show some (i + (0 + before.length)) = some (i + before.length)
  rw [Nat.zero_add]

theorem lastIndexOf_eq_none {c : UInt16} {text : Text} (h : c ∉ text) :
    lastIndexOf c text = none := by
  induction text with
  | nil => rfl
  | cons d rest ih =>
      have hne : d ≠ c := by
        intro heq
        exact h (heq ▸ List.mem_cons_self)
      rw [lastIndexOf, ih fun hmem => h (List.mem_cons_of_mem d hmem)]
      exact if_neg hne

theorem lastIndexOf_eq_some {c : UInt16} {before after : Text} (h : c ∉ after) :
    lastIndexOf c (before ++ c :: after) = some before.length := by
  induction before with
  | nil =>
      rw [List.nil_append, lastIndexOf, lastIndexOf_eq_none h]
      exact if_pos rfl
  | cons d before ih => rw [List.cons_append, lastIndexOf, ih, List.length_cons]

theorem exists_first {c : UInt16} {text : Text} (h : c ∈ text) :
    ∃ before after, text = before ++ c :: after ∧ c ∉ before ∧
      (text.dropWhile (· ≠ c)).tail = after := by
  induction text with
  | nil => exact absurd h List.not_mem_nil
  | cons d rest ih =>
      by_cases hd : d = c
      · subst hd
        refine ⟨[], rest, rfl, List.not_mem_nil, ?_⟩
        rw [List.dropWhile_cons_of_neg (by simp), List.tail_cons]
      · obtain ⟨before, after, heq, hbefore, htail⟩ := ih
          ((List.mem_cons.mp h).resolve_left fun heq => hd heq.symm)
        refine ⟨d :: before, after, by rw [heq, List.cons_append], ?_, ?_⟩
        · rw [List.mem_cons, not_or]
          exact ⟨fun heq => hd heq.symm, hbefore⟩
        · rw [List.dropWhile_cons_of_pos (by simpa using hd), htail]

theorem exists_last {c : UInt16} {text : Text} (h : c ∈ text) :
    ∃ before after, text = before ++ c :: after ∧ c ∉ after := by
  induction text with
  | nil => exact absurd h List.not_mem_nil
  | cons d rest ih =>
      by_cases hrest : c ∈ rest
      · obtain ⟨before, after, heq, hafter⟩ := ih hrest
        exact ⟨d :: before, after, by rw [heq, List.cons_append], hafter⟩
      · have hd : c = d := (List.mem_cons.mp h).resolve_right hrest
        exact ⟨[], rest, by rw [hd, List.nil_append], hrest⟩

namespace Expansion

variable {e : Expansion} {i paramIndex : Nat} {c : UInt16} {rest : Text}

theorem getElem?_of_drop (h : e.expectedUri.drop i = c :: rest) : e.expectedUri[i]? = some c := by
  rw [← List.head?_drop, h, List.head?_cons]

theorem drop_succ (h : e.expectedUri.drop i = c :: rest) : e.expectedUri.drop (i + 1) = rest := by
  rw [← List.tail_drop, h, List.tail_cons]

theorem length_take_of_drop (h : e.expectedUri.drop i = c :: rest) :
    (e.expectedUri.take i).length = i := by
  have hlength := congrArg List.length h
  rw [List.length_drop, List.length_cons] at hlength
  rw [List.length_take]
  omega

theorem stops_iff (h : e.expectedUri.drop i = c :: rest) (hc : c ≠ closeBrace) :
    e.stops rest = true ↔
      indexOf closeBrace e.expectedUri i = lastIndexOf closeBrace e.expectedUri ∧
        e.onlyFirstParam = true := by
  rw [stops, decide_eq_true_iff, and_comm, and_congr_left_iff]
  intro _
  have hwhole : e.expectedUri = e.expectedUri.take i ++ c :: rest := by
    rw [← h, List.take_append_drop]
  by_cases hmem : closeBrace ∈ rest
  · rw [if_pos hmem]
    obtain ⟨before, after, heq, hbefore, htail⟩ := exists_first hmem
    have hskip : closeBrace ∉ c :: before := by
      rw [List.mem_cons, not_or]
      exact ⟨fun heq => hc heq.symm, hbefore⟩
    have hfirst : indexOf closeBrace e.expectedUri i = some (i + (c :: before).length) :=
      indexOf_eq_some (h.trans (congrArg (c :: ·) heq)) hskip
    have hlength : (e.expectedUri.take i ++ c :: before).length = i + (c :: before).length := by
      rw [List.length_append, length_take_of_drop h]
    rw [htail, hfirst]
    constructor
    · intro hlast
      have hwhole' : e.expectedUri = (e.expectedUri.take i ++ c :: before) ++
          closeBrace :: after := by
        rw [List.append_assoc, List.cons_append, ← heq, ← hwhole]
      conv_rhs => rw [hwhole', lastIndexOf_eq_some hlast, hlength]
    · intro hsame hmore
      obtain ⟨before', after', heq', hlast⟩ := exists_last hmore
      have hwhole' : e.expectedUri = (e.expectedUri.take i ++ c :: before ++
          closeBrace :: before') ++ closeBrace :: after' := by
        rw [List.append_assoc, List.cons_append, ← heq', List.append_assoc, List.cons_append,
          ← heq, ← hwhole]
      have hindex := congrArg (lastIndexOf closeBrace) hwhole'
      rw [lastIndexOf_eq_some hlast, ← hsame, List.length_append, hlength,
        Option.some.injEq] at hindex
      have hlonger : 0 < (closeBrace :: before').length := Nat.succ_pos _
      omega
  · rw [if_neg hmem, indexOf_eq_none]
    · constructor
      · intro hnone
        rw [lastIndexOf_eq_none hnone]
      · intro hnone hall
        obtain ⟨before, after, heq, hlast⟩ := exists_last hall
        rw [heq, lastIndexOf_eq_some hlast] at hnone
        cases hnone
    · rw [h, List.mem_cons, not_or]
      exact ⟨fun heq => hc heq.symm, hmem⟩

end Expansion

/-! ## Copying segments -/

structure Extends (buffer buffer' : Buffer) (text : Text) : Prop where
  size : buffer'.size = buffer.size
  written : buffer'.written = buffer.written ++ text

theorem Extends.length {buffer buffer' : Buffer} {text : Text} (h : Extends buffer buffer' text) :
    buffer'.written.length = buffer.written.length + text.length := by
  rw [h.written, List.length_append]

theorem Extends.trans {buffer buffer' buffer'' : Buffer} {text text' : Text}
    (h : Extends buffer buffer' text) (h' : Extends buffer' buffer'' text') :
    Extends buffer buffer'' (text ++ text') :=
  ⟨h'.size.trans h.size, by rw [h'.written, h.written, List.append_assoc]⟩

theorem exists_put {buffer : Buffer} (text : Text)
    (h : buffer.written.length + text.length ≤ buffer.size) :
    ∃ buffer', buffer.put text = some buffer' ∧ Extends buffer buffer' text :=
  ⟨_, dif_pos h, rfl, rfl⟩

theorem extends_of_put {buffer buffer' : Buffer} {text : Text}
    (h : buffer.put text = some buffer') : Extends buffer buffer' text := by
  rw [Buffer.put] at h
  split at h
  · cases h
    exact ⟨rfl, rfl⟩
  · cases h

theorem put_eq_none {buffer : Buffer} (text : Text)
    (h : buffer.size < buffer.written.length + text.length) : buffer.put text = none :=
  dif_neg (Nat.not_le.mpr h)

/-- What copying `text` comes to: it is written while there is room behind it, and otherwise
there is no result or the array is full. -/
structure Copies (matchingUri : Buffer) (text : Text)
    (result : Except Failure (Option Buffer)) : Prop where
  room : matchingUri.written.length + text.length < matchingUri.size →
    ∃ buffer, result = .ok (some buffer) ∧ Extends matchingUri buffer text
  full : matchingUri.size ≤ matchingUri.written.length + text.length →
    result = .ok none ∨
      ∃ buffer, result = .ok (some buffer) ∧ buffer.size ≤ buffer.written.length

theorem copies_nil (matchingUri : Buffer) : Copies matchingUri [] (.ok (some matchingUri)) :=
  ⟨fun _ => ⟨matchingUri, rfl, rfl, (List.append_nil _).symm⟩,
    fun hfull => .inr ⟨matchingUri, rfl, hfull⟩⟩

theorem copies_param {params : List Text} {k : Nat} {param : Text} (matchingUri : Buffer)
    (h : (if k = params.length then some [] else params[k]?) = some param) :
    Copies matchingUri param (copyParams params false [k] matchingUri) := by
  rw [copyParams]
  by_cases hk : k = params.length
  · rw [if_pos hk] at h ⊢
    cases h
    exact copies_nil matchingUri
  · rw [if_neg hk] at h ⊢
    rw [h]
    by_cases hfits : matchingUri.written.length + param.length ≤ matchingUri.size
    · obtain ⟨buffer, hput, hext⟩ := exists_put _ hfits
      simp only [hput]
      refine ⟨fun _ => ⟨buffer, rfl, hext⟩, fun hfull => .inr ⟨buffer, rfl, ?_⟩⟩
      rw [hext.length, hext.size]
      exact hfull
    · simp only [put_eq_none _ (Nat.not_le.mp hfits)]
      exact ⟨fun hroom => absurd (Nat.le_of_lt hroom) hfits, fun _ => .inl rfl⟩

theorem copies_wildcard {params : List Text} {k : Nat} (hk : k ≤ params.length)
    (matchingUri : Buffer) :
    Copies matchingUri ((params.drop k).flatMap (· ++ [slash]))
      (copyParams params true (List.range' k (params.length + 1 - k)) matchingUri) := by
  induction hn : params.length - k generalizing k matchingUri with
  | zero =>
      have heq : k = params.length := by omega
      subst heq
      rw [List.drop_length, List.flatMap_nil, Nat.add_sub_cancel_left, List.range'_one, copyParams,
        if_pos rfl]
      exact copies_nil matchingUri
  | succ n ih =>
      have hlt : k < params.length := by omega
      have hrange : params.length + 1 - k = (params.length + 1 - (k + 1)) + 1 := by omega
      rw [List.drop_eq_getElem_cons hlt, List.flatMap_cons, hrange, List.range'_succ, copyParams,
        if_neg (Nat.ne_of_lt hlt), List.getElem?_eq_getElem hlt]
      generalize params[k] = param
      have hlength : (param ++ [slash]).length = param.length + 1 := List.length_append
      by_cases hfits : matchingUri.written.length + param.length ≤ matchingUri.size
      · obtain ⟨buffer, hput, hext⟩ := exists_put _ hfits
        have hwritten := hext.length
        have hsize := hext.size
        simp only [hput, if_true]
        by_cases hslash : buffer.written.length + 1 ≤ buffer.size
        · obtain ⟨buffer', hput', hext'⟩ := exists_put [slash] hslash
          have hcopies := ih (k := k + 1) hlt buffer' (by omega)
          have hall := hext.trans hext'
          rw [hput', Option.getD_some]
          constructor
          · intro hroom
            rw [List.length_append] at hroom
            obtain ⟨last, heq, hlast⟩ := hcopies.room (by rw [hall.length, hall.size]; omega)
            exact ⟨last, heq, hall.trans hlast⟩
          · intro hfull
            rw [List.length_append] at hfull
            exact hcopies.full (by rw [hall.length, hall.size]; omega)
        · have hcopies := ih (k := k + 1) hlt buffer (by omega)
          rw [put_eq_none [slash] (Nat.not_le.mp hslash), Option.getD_none]
          refine ⟨fun hroom => ?_, fun _ => hcopies.full (by omega)⟩
          rw [List.length_append] at hroom
          omega
      · simp only [put_eq_none _ (Nat.not_le.mp hfits)]
        refine ⟨fun hroom => ?_, fun _ => .inl rfl⟩
        rw [List.length_append] at hroom
        omega

namespace Expansion

variable {e : Expansion} {i paramIndex : Nat} {c : UInt16} {rest text : Text}

theorem copies_of_copied {isWildcard : Bool} (matchingUri : Buffer)
    (h : e.copied isWildcard paramIndex = some text) :
    Copies matchingUri text
      (copyParams e.params isWildcard (indices e.params isWildcard paramIndex) matchingUri) := by
  cases isWildcard with
  | false => exact copies_param matchingUri h
  | true =>
      cases h
      show Copies _ _ (copyParams _ _ (List.range' paramIndex _) _)
      by_cases hk : paramIndex ≤ e.params.length
      · exact copies_wildcard hk matchingUri
      · have hnone : e.params.length + 1 - paramIndex = 0 := by omega
        rw [hnone, List.drop_eq_nil_of_le (by omega)]
        exact copies_nil matchingUri

theorem copyParams_of_not_copied {isWildcard : Bool} (matchingUri : Buffer)
    (h : e.copied isWildcard paramIndex = none) :
    copyParams e.params isWildcard (indices e.params isWildcard paramIndex) matchingUri =
      .error .indexOutOfBounds := by
  cases isWildcard with
  | true => cases h
  | false =>
      rw [copied, if_neg Bool.false_ne_true] at h
      show copyParams _ _ [paramIndex] _ = _
      rw [copyParams]
      by_cases hk : paramIndex = e.params.length
      · rw [if_pos hk] at h
        cases h
      · rw [if_neg hk] at h ⊢
        rw [h]

/-! ## The loop -/

theorem read_skip {before : Text} (h : closeBrace ∉ before) (after : Text) :
    e.read true (before ++ closeBrace :: after) paramIndex = e.read false after paramIndex := by
  induction before with
  | nil => rfl
  | cons c before ih =>
      have hc : c ≠ closeBrace := fun heq => h (heq ▸ List.mem_cons_self)
      rw [List.cons_append, read, decide_eq_true hc]
      exact ih fun hmem => h (List.mem_cons_of_mem c hmem)

theorem drop_behind {before after : Text}
    (h : e.expectedUri.drop i = c :: (before ++ closeBrace :: after)) :
    e.expectedUri.drop (i + (before.length + 1) + 1) = after := by
  have hlength : (c :: (before ++ [closeBrace])).length = before.length + 1 + 1 := by
    rw [List.length_cons, List.length_append, List.length_singleton]
  have hsplit : c :: (before ++ closeBrace :: after) =
      (c :: (before ++ [closeBrace])) ++ after := by
    rw [List.cons_append, List.append_assoc, List.singleton_append]
  rw [Nat.add_assoc, ← List.drop_drop, h, hsplit, ← hlength, List.drop_left]

section

variable {matchingUri matchingUri' : Buffer} {i' paramIndex' : Nat}

theorem yields_full (i paramIndex : Nat) (h : matchingUri.size ≤ matchingUri.written.length) :
    e.Yields i paramIndex matchingUri (.ok (e.finish matchingUri)) :=
  ⟨1, fun fuel => by rw [loop, if_pos h]⟩

theorem yields_end (h : e.expectedUri.drop i = []) :
    e.Yields i paramIndex matchingUri (.ok (e.finish matchingUri)) := by
  refine ⟨1, fun fuel => ?_⟩
  have hnone : e.expectedUri[i]? = none := by rw [← List.head?_drop, h, List.head?_nil]
  rw [loop, hnone]
  split <;> rfl

theorem Yields.of_leads {outcome : Except Failure (Option Text)}
    (h : e.Leads i paramIndex matchingUri i' paramIndex' matchingUri')
    (h' : e.Yields i' paramIndex' matchingUri' outcome) :
    e.Yields i paramIndex matchingUri outcome := by
  obtain ⟨k, hk⟩ := h
  obtain ⟨k', hk'⟩ := h'
  exact ⟨k' + (k + 1), fun fuel => by rw [← Nat.add_assoc, hk, hk']⟩

theorem Leads.trans {i'' paramIndex'' : Nat} {matchingUri'' : Buffer}
    (h : e.Leads i paramIndex matchingUri i' paramIndex' matchingUri')
    (h' : e.Leads i' paramIndex' matchingUri' i'' paramIndex'' matchingUri'') :
    e.Leads i paramIndex matchingUri i'' paramIndex'' matchingUri'' := by
  obtain ⟨k, hk⟩ := h
  obtain ⟨k', hk'⟩ := h'
  refine ⟨k' + (k + 1), fun fuel => ?_⟩
  have hsum : fuel + (k' + (k + 1) + 1) = fuel + (k' + 1) + (k + 1) := by omega
  rw [hsum, hk, hk']

theorem Yields.unique {outcome outcome' : Except Failure (Option Text)}
    (h : e.Yields i paramIndex matchingUri outcome)
    (h' : e.Yields i paramIndex matchingUri outcome') : outcome = outcome' := by
  obtain ⟨k, hk⟩ := h
  obtain ⟨k', hk'⟩ := h'
  rw [← hk k', ← hk' k, Nat.add_comm]

end

structure Follows (e : Expansion) (i paramIndex : Nat) (matchingUri : Buffer) (text : Text)
    (ending : Ending) : Prop where
  full : matchingUri.size ≤ matchingUri.written.length + text.length →
    ∃ result, e.Yields i paramIndex matchingUri (.ok result)
  ended : matchingUri.written.length + text.length < matchingUri.size →
    ending = .ended ∨ ending = .stopped → ∃ result, e.Yields i paramIndex matchingUri (.ok result)
  failed : matchingUri.written.length + text.length < matchingUri.size → ending = .failed →
    e.Yields i paramIndex matchingUri (.error .indexOutOfBounds)
  restart : matchingUri.written.length + text.length < matchingUri.size →
    ∀ paramIndex', ending = .restart paramIndex' → ∃ matchingUri',
      Extends matchingUri matchingUri' text ∧
        e.Leads i paramIndex matchingUri 0 paramIndex' matchingUri'

theorem follows_end {matchingUri : Buffer} (h : e.expectedUri.drop i = []) :
    Follows e i paramIndex matchingUri (e.read false [] paramIndex).1
      (e.read false [] paramIndex).2 :=
  ⟨fun _ => ⟨_, yields_end h⟩, fun _ _ => ⟨_, yields_end h⟩, fun _ h => (by cases h),
    fun _ _ h => (by cases h)⟩

theorem follows_full {matchingUri : Buffer} {ending : Ending}
    (h : matchingUri.size ≤ matchingUri.written.length) :
    Follows e i paramIndex matchingUri text ending := by
  constructor
  · intro _
    exact ⟨_, yields_full _ _ h⟩
  all_goals
    intro hroom
    omega

theorem Follows.of_leads {matchingUri matchingUri' : Buffer} {i' paramIndex' : Nat}
    {text text' : Text} {ending : Ending}
    (h : e.Leads i paramIndex matchingUri i' paramIndex' matchingUri')
    (hext : Extends matchingUri matchingUri' text)
    (hfollows : Follows e i' paramIndex' matchingUri' text' ending) :
    Follows e i paramIndex matchingUri (text ++ text') ending := by
  have hlength : matchingUri'.written.length + text'.length =
      matchingUri.written.length + (text ++ text').length := by
    rw [hext.length, List.length_append, Nat.add_assoc]
  constructor
  · intro hfull
    obtain ⟨result, hyields⟩ := hfollows.full (by rw [hlength, hext.size]; exact hfull)
    exact ⟨result, hyields.of_leads h⟩
  · intro hroom hending
    obtain ⟨result, hyields⟩ := hfollows.ended (by rw [hlength, hext.size]; exact hroom) hending
    exact ⟨result, hyields.of_leads h⟩
  · intro hroom hending
    exact (hfollows.failed (by rw [hlength, hext.size]; exact hroom) hending).of_leads h
  · intro hroom paramIndex'' hending
    obtain ⟨last, hlast, hleads⟩ :=
      hfollows.restart (by rw [hlength, hext.size]; exact hroom) paramIndex'' hending
    exact ⟨last, hext.trans hlast, h.trans hleads⟩

section

variable {matchingUri : Buffer}

theorem loop_special (paramIndex : Nat) (h : e.expectedUri.drop i = c :: rest)
    (hc : c = openBrace ∨ c = wildcard)
    (hroom : matchingUri.written.length < matchingUri.size) (fuel : Nat) :
    e.loop (fuel + 1) i paramIndex matchingUri =
      match copyParams e.params (c = wildcard) (indices e.params (c = wildcard) paramIndex)
          matchingUri with
      | .error failure => .error failure
      | .ok none => .ok none
      | .ok (some matchingUri) =>
          if indexOf closeBrace e.expectedUri i = lastIndexOf closeBrace e.expectedUri ∧
              e.onlyFirstParam then .ok (some matchingUri.written)
          else
            e.loop fuel (following (indexOf closeBrace e.expectedUri i)) paramIndex
              matchingUri := by
  rw [loop, if_neg (Nat.not_le.mpr hroom), getElem?_of_drop h]
  exact if_pos hc

theorem loop_literal (paramIndex : Nat) (h : e.expectedUri.drop i = c :: rest)
    (hc : ¬ (c = openBrace ∨ c = wildcard))
    (hroom : matchingUri.written.length < matchingUri.size) :
    ∃ matchingUri', Extends matchingUri matchingUri' [c] ∧
      ∀ fuel, e.loop (fuel + 1) i paramIndex matchingUri =
        e.loop fuel (i + 1) (if c = slash then paramIndex + 1 else paramIndex) matchingUri' := by
  obtain ⟨matchingUri', hput, hext⟩ := exists_put [c] hroom
  refine ⟨matchingUri', hext, fun fuel => ?_⟩
  rw [loop, if_neg (Nat.not_le.mpr hroom), getElem?_of_drop h]
  simp only [if_neg hc, hput]

theorem special_ne_closeBrace (hc : c = openBrace ∨ c = wildcard) : c ≠ closeBrace := by
  rintro rfl
  exact absurd hc (by decide)

theorem yields_of_full (h : e.expectedUri.drop i = c :: rest)
    (hc : c = openBrace ∨ c = wildcard) (hroom : matchingUri.written.length < matchingUri.size)
    (hcopied : e.copied (c = wildcard) paramIndex = some text)
    (hfull : matchingUri.size ≤ matchingUri.written.length + text.length) :
    ∃ result, e.Yields i paramIndex matchingUri (.ok result) := by
  rcases (copies_of_copied matchingUri hcopied).full hfull with hcopy | ⟨buffer, hcopy, hwhole⟩
  · exact ⟨none, 1, fun fuel => by rw [loop_special _ h hc hroom, hcopy]⟩
  · by_cases hstop : indexOf closeBrace e.expectedUri i = lastIndexOf closeBrace e.expectedUri ∧
        e.onlyFirstParam
    · refine ⟨some buffer.written, 1, fun fuel => ?_⟩
      rw [loop_special _ h hc hroom, hcopy]
      exact if_pos hstop
    · refine ⟨_, Yields.of_leads ⟨0, fun fuel => ?_⟩
        (yields_full (following (indexOf closeBrace e.expectedUri i)) paramIndex hwhole)⟩
      rw [loop_special _ h hc hroom, hcopy]
      exact if_neg hstop

theorem follows_of_full {text' : Text} {ending : Ending} (hle : text.length ≤ text'.length)
    (hfull : matchingUri.size ≤ matchingUri.written.length + text.length)
    (h : ∃ result, e.Yields i paramIndex matchingUri (.ok result)) :
    Follows e i paramIndex matchingUri text' ending := by
  constructor
  · intro _
    exact h
  all_goals
    intro hroom
    omega

theorem follows_copied (h : e.expectedUri.drop i = c :: rest) (hc : c = openBrace ∨ c = wildcard)
    (hroom : matchingUri.written.length < matchingUri.size)
    (hcopied : e.copied (c = wildcard) paramIndex = some text)
    (ih : ∀ (after : Text) (i' : Nat) (matchingUri' : Buffer), after.length ≤ rest.length →
      e.expectedUri.drop i' = after →
        Follows e i' paramIndex matchingUri' (e.read false after paramIndex).1
          (e.read false after paramIndex).2) :
    Follows e i paramIndex matchingUri (e.read false (c :: rest) paramIndex).1
      (e.read false (c :: rest) paramIndex).2 := by
  have hskip := special_ne_closeBrace hc
  rw [read, if_pos hc, hcopied]
  by_cases hfull : matchingUri.size ≤ matchingUri.written.length + text.length
  · have hyields := yields_of_full h hc hroom hcopied hfull
    simp only
    split
    · exact follows_of_full (Nat.le_refl _) hfull hyields
    · split
      · refine follows_of_full ?_ hfull hyields
        rw [List.length_append]
        exact Nat.le_add_right _ _
      · exact follows_of_full (Nat.le_refl _) hfull hyields
  · obtain ⟨buffer, hcopy, hext⟩ :=
      (copies_of_copied matchingUri hcopied).room (Nat.not_le.mp hfull)
    simp only
    split
    · rename_i hstops
      refine ⟨fun h => absurd h hfull, fun _ _ => ?_, fun _ h => (by cases h),
        fun _ _ h => (by cases h)⟩
      refine ⟨some buffer.written, 1, fun fuel => ?_⟩
      rw [loop_special _ h hc hroom, hcopy]
      exact if_pos ((stops_iff h hskip).mp hstops)
    · rename_i hstops
      have hgo : ∀ fuel, e.loop (fuel + 1) i paramIndex matchingUri =
          e.loop fuel (following (indexOf closeBrace e.expectedUri i)) paramIndex buffer := by
        intro fuel
        rw [loop_special _ h hc hroom, hcopy]
        exact if_neg fun hstop => hstops ((stops_iff h hskip).mpr hstop)
      split
      · rename_i hmem
        obtain ⟨before, after, heq, hbefore, -⟩ := exists_first hmem
        subst heq
        have hindex : indexOf closeBrace e.expectedUri i = some (i + (c :: before).length) := by
          refine indexOf_eq_some h ?_
          rw [List.mem_cons, not_or]
          exact ⟨fun heq => hskip heq.symm, hbefore⟩
        rw [hindex] at hgo
        rw [read_skip hbefore]
        refine Follows.of_leads ⟨0, hgo⟩ hext (ih after _ buffer ?_ (drop_behind h))
        rw [List.length_append, List.length_cons]
        omega
      · rename_i hmem
        have hindex : indexOf closeBrace e.expectedUri i = none := by
          refine indexOf_eq_none ?_
          rw [h, List.mem_cons, not_or]
          exact ⟨fun heq => hskip heq.symm, hmem⟩
        rw [hindex] at hgo
        refine ⟨fun h => absurd h hfull, fun _ h => ?_, fun _ h => (by cases h),
          fun _ paramIndex' hending => ?_⟩
        · rcases h with h | h <;> cases h
        · cases hending
          exact ⟨buffer, hext, 0, hgo⟩

theorem follows_read (n : Nat) : ∀ (rest : Text) (i paramIndex : Nat) (matchingUri : Buffer),
    rest.length ≤ n → e.expectedUri.drop i = rest →
      Follows e i paramIndex matchingUri (e.read false rest paramIndex).1
        (e.read false rest paramIndex).2 := by
  induction n with
  | zero =>
      intro rest i paramIndex matchingUri hlength hdrop
      have hnil : rest = [] := List.length_eq_zero_iff.mp (Nat.le_zero.mp hlength)
      subst hnil
      exact follows_end hdrop
  | succ n ih =>
      intro rest i paramIndex matchingUri hlength hdrop
      cases rest with
      | nil => exact follows_end hdrop
      | cons c rest =>
          by_cases hfull : matchingUri.size ≤ matchingUri.written.length
          · exact follows_full hfull
          have hroom := Nat.not_le.mp hfull
          by_cases hc : c = openBrace ∨ c = wildcard
          · cases hcopied : e.copied (c = wildcard) paramIndex with
            | none =>
                rw [read, if_pos hc, hcopied]
                refine ⟨fun hfull' => absurd hfull' hfull, fun _ h => ?_, fun _ _ => ?_,
                  fun _ _ h => ?_⟩
                · rcases h with h | h <;> cases h
                · refine ⟨1, fun fuel => ?_⟩
                  rw [loop_special _ hdrop hc hroom, copyParams_of_not_copied _ hcopied]
                · cases h
            | some text =>
                exact follows_copied hdrop hc hroom hcopied fun after i' matchingUri' hafter =>
                  ih after i' paramIndex matchingUri'
                    (hafter.trans (Nat.le_of_succ_le_succ hlength))
          · obtain ⟨matchingUri', hext, hstep⟩ := loop_literal paramIndex hdrop hc hroom
            rw [read, if_neg hc]
            exact Follows.of_leads ⟨0, hstep⟩ hext
              (ih rest _ _ _ (Nat.le_of_succ_le_succ hlength) (drop_succ hdrop))

/-! ## Readings one after the other -/

theorem exists_extends_of_copyParams {params : List Text} {isWildcard : Bool} {ks : List Nat}
    {buffer : Buffer} (h : copyParams params isWildcard ks matchingUri = .ok (some buffer)) :
    ∃ text, Extends matchingUri buffer text := by
  induction ks generalizing matchingUri with
  | nil =>
      cases h
      exact ⟨[], rfl, (List.append_nil _).symm⟩
  | cons k ks ih =>
      rw [copyParams] at h
      split at h
      · cases h
        exact ⟨[], rfl, (List.append_nil _).symm⟩
      · split at h
        · cases h
        · split at h
          · cases h
          · rename_i param _ matchingUri' hput
            have hext := extends_of_put hput
            obtain ⟨text, htext⟩ := ih h
            split at htext
            · cases hslash : matchingUri'.put [slash] with
              | none =>
                  rw [hslash] at htext
                  exact ⟨_, hext.trans htext⟩
              | some matchingUri'' =>
                  rw [hslash] at htext
                  exact ⟨_, hext.trans ((extends_of_put hslash).trans htext)⟩
            · exact ⟨_, hext.trans htext⟩

theorem prefix_of_finish {uri : Text} (h : e.finish matchingUri = some uri) :
    matchingUri.written <+: uri := by
  rw [finish] at h
  split at h
  · split at h
    · cases h
      exact List.prefix_append _ _
    · cases h
  · cases h
    exact List.prefix_append _ _

/-- The loop comes to its outcome, whatever the fuel, or goes on with another state.  What is
written stays. -/
theorem loop_cases (i paramIndex : Nat) (matchingUri : Buffer) :
    (∃ outcome, (∀ fuel, e.loop (fuel + 1) i paramIndex matchingUri = outcome) ∧
      ∀ uri, outcome = .ok (some uri) → matchingUri.written <+: uri) ∨
    ∃ i' paramIndex' matchingUri' text, Extends matchingUri matchingUri' text ∧
      ∀ fuel, e.loop (fuel + 1) i paramIndex matchingUri =
        e.loop fuel i' paramIndex' matchingUri' := by
  have hfinish : ∀ uri, (.ok (e.finish matchingUri) : Except Failure (Option Text)) =
      .ok (some uri) → matchingUri.written <+: uri :=
    fun uri h => prefix_of_finish (Except.ok.inj h)
  by_cases hfull : matchingUri.size ≤ matchingUri.written.length
  · exact .inl ⟨_, fun fuel => by rw [loop, if_pos hfull], hfinish⟩
  have hroom := Nat.not_le.mp hfull
  cases hdrop : e.expectedUri.drop i with
  | nil =>
      have hnone : e.expectedUri[i]? = none := by rw [← List.head?_drop, hdrop, List.head?_nil]
      exact .inl ⟨_, fun fuel => by rw [loop, if_neg hfull, hnone], hfinish⟩
  | cons c rest =>
      by_cases hc : c = openBrace ∨ c = wildcard
      · have hgo := loop_special paramIndex hdrop hc hroom
        cases hcopy : copyParams e.params (c = wildcard)
            (indices e.params (c = wildcard) paramIndex) matchingUri with
        | error failure => exact .inl ⟨_, fun fuel => by rw [hgo, hcopy], fun _ h => (by cases h)⟩
        | ok copied =>
            cases copied with
            | none => exact .inl ⟨_, fun fuel => by rw [hgo, hcopy], fun _ h => (by cases h)⟩
            | some buffer =>
                obtain ⟨text, hext⟩ := exists_extends_of_copyParams hcopy
                by_cases hstop : indexOf closeBrace e.expectedUri i =
                    lastIndexOf closeBrace e.expectedUri ∧ e.onlyFirstParam
                · refine .inl ⟨.ok (some buffer.written), fun fuel => ?_, fun uri h => ?_⟩
                  · rw [hgo, hcopy]
                    exact if_pos hstop
                  · cases h
                    rw [hext.written]
                    exact List.prefix_append _ _
                · refine .inr ⟨following (indexOf closeBrace e.expectedUri i), paramIndex, buffer,
                    text, hext, fun fuel => ?_⟩
                  rw [hgo, hcopy]
                  exact if_neg hstop
      · obtain ⟨matchingUri', hext, hgo⟩ := loop_literal paramIndex hdrop hc hroom
        exact .inr ⟨_, _, matchingUri', _, hext, hgo⟩

theorem loop_mono {fuel : Nat} {outcome : Except Failure (Option Text)}
    (h : e.loop fuel i paramIndex matchingUri = outcome) (hended : outcome ≠ .error .notEnded)
    (more : Nat) : e.loop (fuel + more) i paramIndex matchingUri = outcome := by
  induction fuel generalizing i paramIndex matchingUri with
  | zero => exact absurd h.symm hended
  | succ fuel ih =>
      rw [Nat.add_right_comm]
      rcases loop_cases (e := e) i paramIndex matchingUri with
        ⟨outcome', hgo, -⟩ | ⟨i', paramIndex', matchingUri', -, -, hgo⟩
      · rw [hgo] at h ⊢
        exact h
      · rw [hgo] at h ⊢
        exact ih h

theorem prefix_of_yields {uri : Text} (h : e.Yields i paramIndex matchingUri (.ok (some uri))) :
    matchingUri.written <+: uri := by
  obtain ⟨k, hk⟩ := h
  have hloop := hk 0
  generalize 0 + k = fuel at hloop
  clear hk
  induction fuel generalizing i paramIndex matchingUri with
  | zero => cases hloop
  | succ fuel ih =>
      rcases loop_cases (e := e) i paramIndex matchingUri with
        ⟨outcome, hgo, hwritten⟩ | ⟨i', paramIndex', matchingUri', text, hext, hgo⟩
      · rw [hgo] at hloop
        exact hwritten uri hloop
      · rw [hgo] at hloop
        refine List.IsPrefix.trans ?_ (ih hloop)
        rw [hext.written]
        exact List.prefix_append _ _

theorem readings_of_restart {n paramIndex' : Nat}
    (h : (e.read false rest paramIndex).2 = .restart paramIndex') :
    e.readings (n + 1) rest paramIndex =
      ((e.read false rest paramIndex).1 ++ (e.readings n e.expectedUri paramIndex').1,
        (e.readings n e.expectedUri paramIndex').2) := by
  rw [readings]
  generalize e.read false rest paramIndex = result at h ⊢
  obtain ⟨text, ending⟩ := result
  cases h
  rfl

theorem readings_of_not_restart {n : Nat}
    (h : ∀ paramIndex', (e.read false rest paramIndex).2 ≠ .restart paramIndex') :
    e.readings (n + 1) rest paramIndex = e.read false rest paramIndex := by
  rw [readings]
  generalize e.read false rest paramIndex = result at h ⊢
  obtain ⟨text, ending⟩ := result
  cases ending with
  | restart paramIndex' => exact absurd rfl (h paramIndex')
  | ended => rfl
  | stopped => rfl
  | failed => rfl

theorem follows_readings (n : Nat) : ∀ (i paramIndex : Nat) (matchingUri : Buffer),
    Follows e i paramIndex matchingUri
      (e.readings (n + 1) (e.expectedUri.drop i) paramIndex).1
      (e.readings (n + 1) (e.expectedUri.drop i) paramIndex).2 := by
  induction n with
  | zero =>
      intro i paramIndex matchingUri
      have hread := follows_read (e := e) _ _ i paramIndex matchingUri (Nat.le_refl _) rfl
      by_cases h : ∃ paramIndex',
          (e.read false (e.expectedUri.drop i) paramIndex).2 = .restart paramIndex'
      · obtain ⟨paramIndex', h⟩ := h
        rw [readings_of_restart h]
        rw [h] at hread
        show Follows _ _ _ _ (_ ++ []) _
        rw [List.append_nil]
        exact hread
      · rw [readings_of_not_restart fun paramIndex' heq => h ⟨paramIndex', heq⟩]
        exact hread
  | succ n ih =>
      intro i paramIndex matchingUri
      have hread := follows_read (e := e) _ _ i paramIndex matchingUri (Nat.le_refl _) rfl
      by_cases h : ∃ paramIndex',
          (e.read false (e.expectedUri.drop i) paramIndex).2 = .restart paramIndex'
      · obtain ⟨paramIndex', h⟩ := h
        rw [readings_of_restart h]
        rw [h] at hread
        have hmore := fun matchingUri' => ih 0 paramIndex' matchingUri'
        rw [List.drop_zero] at hmore
        generalize e.readings (n + 1) e.expectedUri paramIndex' = result at hmore ⊢
        generalize (e.read false (e.expectedUri.drop i) paramIndex).1 = text at hread ⊢
        by_cases hfull : matchingUri.size ≤ matchingUri.written.length + text.length
        · refine follows_of_full ?_ hfull (hread.full hfull)
          rw [List.length_append]
          exact Nat.le_add_right _ _
        · obtain ⟨matchingUri', hext, hleads⟩ :=
            hread.restart (Nat.not_le.mp hfull) paramIndex' rfl
          exact Follows.of_leads hleads hext (hmore matchingUri')
      · rw [readings_of_not_restart fun paramIndex' heq => h ⟨paramIndex', heq⟩]
        exact hread

theorem notEnded_of_readings (n : Nat) : ∀ (i paramIndex paramIndex' : Nat) (matchingUri : Buffer),
    (e.readings n (e.expectedUri.drop i) paramIndex).2 = .restart paramIndex' →
    matchingUri.written.length + (e.readings n (e.expectedUri.drop i) paramIndex).1.length <
      matchingUri.size → e.loop n i paramIndex matchingUri = .error .notEnded := by
  induction n with
  | zero =>
      intro i paramIndex paramIndex' matchingUri _ _
      rfl
  | succ n ih =>
      intro i paramIndex paramIndex' matchingUri hending hroom
      have hread := follows_read (e := e) _ _ i paramIndex matchingUri (Nat.le_refl _) rfl
      by_cases h : ∃ paramIndex'',
          (e.read false (e.expectedUri.drop i) paramIndex).2 = .restart paramIndex''
      · obtain ⟨paramIndex'', h⟩ := h
        rw [readings_of_restart h] at hending hroom
        rw [List.length_append] at hroom
        obtain ⟨matchingUri', hext, k, hk⟩ := hread.restart (by omega) paramIndex'' h
        have hrest := ih 0 paramIndex'' paramIndex' matchingUri' hending (by
          rw [hext.length, hext.size, List.drop_zero]
          omega)
        by_contra hne
        have hmore := loop_mono rfl hne k
        have hsum : n + 1 + k = n + (k + 1) := by omega
        rw [hsum, hk, hrest] at hmore
        exact hne hmore.symm
      · rw [readings_of_not_restart fun paramIndex'' heq => h ⟨paramIndex'', heq⟩] at hending
        exact absurd ⟨paramIndex', hending⟩ h

theorem ends_iff_fills (i paramIndex : Nat) (matchingUri : Buffer) :
    (∃ fuel result, e.loop fuel i paramIndex matchingUri = .ok result) ↔
      e.Fills (matchingUri.size - matchingUri.written.length) (e.expectedUri.drop i)
        paramIndex := by
  constructor
  · rintro ⟨fuel, result, hloop⟩
    by_contra hfills
    have hnot : ∀ n, (e.readings n (e.expectedUri.drop i) paramIndex).2 ≠ .ended ∧
        (e.readings n (e.expectedUri.drop i) paramIndex).2 ≠ .stopped ∧
        matchingUri.written.length + (e.readings n (e.expectedUri.drop i) paramIndex).1.length <
          matchingUri.size := by
      intro n
      refine ⟨fun h => hfills ⟨n, .inl h⟩, fun h => hfills ⟨n, .inr (.inl h)⟩, ?_⟩
      by_contra hlong
      exact hfills ⟨n, .inr (.inr (by omega))⟩
    obtain ⟨hended, hstopped, hroom⟩ := hnot fuel
    cases hending : (e.readings fuel (e.expectedUri.drop i) paramIndex).2 with
    | ended => exact hended hending
    | stopped => exact hstopped hending
    | restart paramIndex' =>
        rw [notEnded_of_readings fuel i paramIndex paramIndex' matchingUri hending hroom] at hloop
        cases hloop
    | failed =>
        cases fuel with
        | zero => cases hending
        | succ n =>
            have hfailed := (follows_readings n i paramIndex matchingUri).failed hroom hending
            have hyields : e.Yields i paramIndex matchingUri (.ok result) :=
              ⟨n + 1, fun more => by
                rw [Nat.add_comm]
                exact loop_mono hloop (fun h => by cases h) more⟩
            have hequal := hyields.unique hfailed
            cases hequal
  · rintro ⟨n, hn⟩
    suffices h : ∃ result, e.Yields i paramIndex matchingUri (.ok result) by
      obtain ⟨result, k, hk⟩ := h
      exact ⟨0 + k, result, hk 0⟩
    cases n with
    | zero =>
        rcases hn with h | h | h
        · cases h
        · cases h
        · exact ⟨_, yields_full _ _ (Nat.sub_eq_zero_iff_le.mp (Nat.le_zero.mp h))⟩
    | succ n =>
        have hfollows := follows_readings (e := e) n i paramIndex matchingUri
        by_cases hfull : matchingUri.size ≤ matchingUri.written.length +
            (e.readings (n + 1) (e.expectedUri.drop i) paramIndex).1.length
        · exact hfollows.full hfull
        · refine hfollows.ended (Nat.not_le.mp hfull) ?_
          rcases hn with h | h | h
          · exact .inl h
          · exact .inr h
          · omega

end

end Expansion

/-! ## Templates that end -/

def Builds (template targetUri : Text) (onlyFirstParam : Bool)
    (outcome : Except Failure (Option Text)) : Prop :=
  ∃ k, ∀ fuel, buildUriFromTemplate (fuel + k) template targetUri onlyFirstParam = outcome

theorem build_mono {template targetUri : Text} {onlyFirstParam : Bool} {fuel : Nat}
    {outcome : Except Failure (Option Text)}
    (h : buildUriFromTemplate fuel template targetUri onlyFirstParam = outcome)
    (hended : outcome ≠ .error .notEnded) (more : Nat) :
    buildUriFromTemplate (fuel + more) template targetUri onlyFirstParam = outcome := by
  rw [buildUriFromTemplate] at h ⊢
  split at h
  · exact h
  · split at h
    · rename_i hshort
      rw [dif_pos hshort]
      exact h
    · rename_i hlong
      rw [dif_neg hlong]
      split at h
      · rename_i hsegments
        rw [if_pos hsegments]
        exact h
      · rename_i hsegments
        rw [if_neg hsegments]
        split at h
        · rename_i hequal
          rw [if_pos hequal]
          exact Expansion.loop_mono h hended more
        · rename_i hequal
          rw [if_neg hequal]
          exact h

theorem builds_of_eq {template targetUri : Text} {onlyFirstParam : Bool} {fuel : Nat}
    {result : Option Text}
    (h : buildUriFromTemplate fuel template targetUri onlyFirstParam = .ok result) :
    Builds template targetUri onlyFirstParam (.ok result) :=
  ⟨fuel, fun more => by
    rw [Nat.add_comm]
    exact build_mono h (fun heq => by cases heq) more⟩

theorem Builds.unique {template targetUri : Text} {onlyFirstParam : Bool}
    {outcome outcome' : Except Failure (Option Text)}
    (h : Builds template targetUri onlyFirstParam outcome)
    (h' : Builds template targetUri onlyFirstParam outcome') : outcome = outcome' := by
  obtain ⟨k, hk⟩ := h
  obtain ⟨k', hk'⟩ := h'
  rw [← hk k', ← hk' k, Nat.add_comm]

def EndsWithoutError (template targetUri : Text) (onlyFirstParam : Bool) : Prop :=
  ∃ fuel result, buildUriFromTemplate fuel template targetUri onlyFirstParam = .ok result

/-- The loop of a call in which the first brace stands at `patternStartIndex`. -/
def expansion (template targetUri : Text) (onlyFirstParam : Bool) (patternStartIndex : Nat) :
    Expansion :=
  ⟨template, withoutWildcard template, targetUri, split (targetUri.drop patternStartIndex),
    onlyFirstParam⟩

/-- Where the loop is entered, some number of readings comes to an end or fills the target. -/
def Expandable (template targetUri : Text) (onlyFirstParam : Bool) : Prop :=
  ∀ patternStartIndex, indexOf openBrace template 0 = some patternStartIndex →
    patternStartIndex < targetUri.length →
    (split (withoutWildcard template)).length ≤ (split targetUri).length →
    (withoutWildcard template).take patternStartIndex = targetUri.take patternStartIndex →
      (expansion template targetUri onlyFirstParam patternStartIndex).Fills
        (targetUri.length - patternStartIndex)
        ((withoutWildcard template).drop patternStartIndex) 0

theorem exists_build_iff (template targetUri : Text) (onlyFirstParam : Bool) :
    (∃ fuel result, buildUriFromTemplate fuel template targetUri onlyFirstParam = .ok result) ↔
      Expandable template targetUri onlyFirstParam := by
  rw [Expandable]
  cases hstart : indexOf openBrace template 0 with
  | none =>
      refine iff_of_true ⟨0, none, ?_⟩ fun patternStartIndex h => by cases h
      rw [buildUriFromTemplate]
      simp only [hstart]
  | some patternStartIndex =>
      simp only [buildUriFromTemplate, hstart]
      by_cases hshort : targetUri.length ≤ patternStartIndex
      · refine iff_of_true ⟨0, none, dif_pos hshort⟩ ?_
        intro patternStartIndex' h hlong
        cases h
        exact absurd hlong (Nat.not_lt.mpr hshort)
      simp only [dif_neg hshort]
      by_cases hsegments : (split targetUri).length < (split (withoutWildcard template)).length
      · refine iff_of_true ⟨0, none, if_pos hsegments⟩ ?_
        intro patternStartIndex' _ _ hle
        exact absurd hle (Nat.not_le.mpr hsegments)
      simp only [if_neg hsegments]
      by_cases hequal : (withoutWildcard template).take patternStartIndex =
          targetUri.take patternStartIndex
      · simp only [if_pos hequal]
        have hlength : ((withoutWildcard template).take patternStartIndex).length =
            patternStartIndex := by
          rw [hequal, List.length_take, Nat.min_eq_left (Nat.le_of_not_le hshort)]
        have hfills := Expansion.ends_iff_fills
          (e := expansion template targetUri onlyFirstParam patternStartIndex) patternStartIndex 0
          ⟨targetUri.length, (withoutWildcard template).take patternStartIndex,
            (List.length_take_le _ _).trans (Nat.le_of_not_le hshort)⟩
        have hroom : targetUri.length - ((withoutWildcard template).take patternStartIndex).length =
            targetUri.length - patternStartIndex := by rw [hlength]
        dsimp only at hfills
        rw [hroom] at hfills
        constructor
        · intro hends patternStartIndex' h _ _ _
          cases h
          exact hfills.mp hends
        · intro hall
          exact hfills.mpr (hall _ rfl (Nat.not_le.mp hshort) (Nat.not_lt.mp hsegments) hequal)
      · refine iff_of_true ⟨0, none, if_neg hequal⟩ ?_
        intro patternStartIndex' h _ _ h'
        cases h
        exact absurd h' hequal

/-- The expansion of a template ends without an index error exactly when its readings end or fill
the target before the segments of the target run out. -/
theorem endsWithoutError_iff (template targetUri : Text) (onlyFirstParam : Bool) :
    EndsWithoutError template targetUri onlyFirstParam ↔
      Expandable template targetUri onlyFirstParam := by
  rw [EndsWithoutError]
  exact exists_build_iff template targetUri onlyFirstParam

/-- A brace that is never closed, for a target whose first segment is empty. -/
theorem open_brace_never_ends : ¬ EndsWithoutError (text "\x7bx") (text "/a") false := by
  have hloop : ∀ fuel, (expansion (text "\x7bx") (text "/a") false 0).loop fuel 0 0
      ⟨2, [], Nat.zero_le 2⟩ = .error .notEnded := by
    intro fuel
    induction fuel with
    | zero => rfl
    | succ fuel ih => exact ih
  rintro ⟨fuel, result, h⟩
  have hcall : buildUriFromTemplate fuel (text "\x7bx") (text "/a") false =
      (expansion (text "\x7bx") (text "/a") false 0).loop fuel 0 0 ⟨2, [], Nat.zero_le 2⟩ := rfl
  rw [hcall, hloop] at h
  cases h

end Keycloak.PathMatcher
