import Keycloak.Lib.Contest
import Keycloak.Common.SinglePath

/-!
# The order of the paths

When `matches` finds the same path for every order of the configured paths.  What one path does
depends on the others only through the pattern count; the registers of the loop make a contest.
-/

namespace Keycloak.PathMatcher

/-- What a path is to the target by itself: whether it matches, and what its template gives, when
that matches. -/
structure Offer where
  matched : Bool
  expanded : Option Text

section

variable (target : Text) (fuel : Nat)

def offer (expectedUri : Text) : Except Failure Offer :=
  match exactMatch expectedUri target expectedUri with
  | .error failure => .error failure
  | .ok matched =>
      if isTemplate expectedUri then
        match buildUriFromTemplate fuel expectedUri target false with
        | .error failure => .error failure
        | .ok none => .ok ⟨matched, none⟩
        | .ok (some templateUri) =>
            match exactMatch expectedUri target templateUri with
            | .error failure => .error failure
            | .ok same => .ok ⟨matched, if same then some templateUri else none⟩
      else .ok ⟨matched, none⟩

def offered (expectedUri : Text) : Offer :=
  match offer target fuel expectedUri with
  | .ok offer => offer
  | .error _ => ⟨false, none⟩

def level (expectedUri : Text) : Nat :=
  if (offered target fuel expectedUri).expanded.isSome then (split expectedUri).length else 0

def isHit (expectedUri matchingUri : Text) : Bool :=
  matchingUri = target ∨ pathString expectedUri = target

/-- The extension of a path is looked for at the end of the target. -/
def endsWithSuffix (expectedUri : Text) : Bool :=
  (indexOfText (text "*.") expectedUri).any fun suffixIndex =>
    (expectedUri.drop (suffixIndex + 1)).isSuffixOf target

def contest : Contest Text where
  level := level target fuel
  hits expectedUri count :=
    let offer := offered target fuel expectedUri
    if count < level target fuel expectedUri then
      offer.expanded.any (isHit target expectedUri)
    else offer.matched && isHit target expectedUri expectedUri
  second expectedUri count :=
    (decide (count < level target fuel expectedUri) ||
      (offered target fuel expectedUri).matched) &&
        !endsWithWildcard expectedUri && endsWithSuffix target expectedUri
  wild := endsWithWildcard
  matched expectedUri := (offered target fuel expectedUri).matched
  height := List.length
  bound expectedUri := ((offered target fuel expectedUri).expanded.map List.length).getD 0

def next (expectedUri : Text) (found : Found Text) : Found Text where
  patternCount := max found.patternCount (level target fuel expectedUri)
  matchingPath :=
    if (contest target fuel).hits expectedUri found.patternCount then some expectedUri
    else found.matchingPath
  matchingAnyPath :=
    if (contest target fuel).third expectedUri found.patternCount ∧
        ∀ path ∈ found.matchingAnyPath, path.length <
          (contest target fuel).bid expectedUri found.patternCount then
      some expectedUri
    else found.matchingAnyPath
  matchingAnySuffixPath :=
    if (contest target fuel).second expectedUri found.patternCount then some expectedUri
    else found.matchingAnySuffixPath

end

/-- One pattern is found for all orders, and it is the target when the target is a pattern. -/
def OrderIndependent (target : Text) (entries : List Text) : Prop :=
  ∃ chosen, (∀ order, order.Perm entries →
      ∃ fuel, matchesPath textPaths target fuel order = .ok chosen) ∧
    (target ∈ entries → chosen = some target)

/-- No path fails, and one path wins, which is the target when the target is a path; or no path
ever counts. -/
def Settled (target : Text) (entries : List Text) : Prop :=
  ∃ fuel, (∀ path ∈ entries, ∃ o, offer target fuel path = .ok o) ∧
    ((∃ m, (contest target fuel).Wins entries m ∧ (target ∈ entries → m = target)) ∨
      ((contest target fuel).Idle entries ∧ target ∉ entries))

/-! ## One path of the loop -/

section

variable {target path : Text} {rest : List Text} {fuel : Nat} {o : Offer}

theorem offered_of_offer (h : offer target fuel path = .ok o) : offered target fuel path = o := by
  rw [offered, h]

theorem exactMatch_of_offer (h : offer target fuel path = .ok o) :
    exactMatch path target path = .ok o.matched := by
  rw [offer] at h
  cases hexact : exactMatch path target path with
  | error failure =>
      rw [hexact] at h
      cases h
  | ok matched =>
      rw [hexact] at h
      dsimp only at h
      split at h
      · split at h
        · cases h
        · cases h
          rfl
        · split at h
          · cases h
          · cases h
            rfl
      · cases h
        rfl

theorem split_ne_nil (h : isTemplate path = true) : split path ≠ [] := by
  obtain ⟨segment, segments, heq, hsegment, hsegments⟩ := exists_segments path
  rw [heq, split_eq hsegment hsegments]
  split
  · exact List.cons_ne_nil _ _
  · intro hnil
    rw [trim, List.rdropWhile_eq_nil_iff] at hnil
    have hmem : openBrace ∈ segment ++ render segments := heq ▸ of_decide_eq_true h
    have hempty : ∀ s ∈ segment :: segments, openBrace ∉ s := fun s hs =>
      List.isEmpty_iff.mp (hnil s hs) ▸ List.not_mem_nil
    rcases List.mem_append.mp hmem with hin | hin
    · exact hempty segment List.mem_cons_self hin
    · exact not_mem_render (by decide)
        (fun s hs => hempty s (List.mem_cons_of_mem segment hs)) hin

theorem matchTemplate_of_offer (h : offer target fuel path = .ok o) (count : Nat)
    (found : Option Text) : matchTemplate textPaths target fuel path path count found =
      .ok (if count < level target fuel path then (o.expanded, path, level target fuel path)
        else (found, path, count)) := by
  have hoffered := offered_of_offer h
  rw [offer, exactMatch_of_offer h] at h
  rw [matchTemplate, level, hoffered]
  dsimp only at h
  cases htemplate : isTemplate path with
  | false =>
      rw [htemplate, if_neg Bool.false_ne_true] at h
      have hnone : none = o.expanded := congrArg Offer.expanded (Except.ok.inj h)
      rw [if_neg Bool.false_ne_true, ← hnone]
      rfl
  | true =>
      rw [htemplate, if_pos rfl] at h
      rw [if_pos rfl]
      cases hbuild : buildUriFromTemplate fuel path target false with
      | error failure =>
          rw [hbuild] at h
          cases h
      | ok result =>
          rw [hbuild] at h
          cases result with
          | none =>
              have hnone : none = o.expanded := congrArg Offer.expanded (Except.ok.inj h)
              rw [← hnone]
              rfl
          | some templateUri =>
              dsimp only at h ⊢
              cases hexact : exactMatch path target templateUri with
              | error failure =>
                  rw [hexact] at h
                  cases h
              | ok same =>
                  rw [hexact] at h
                  have hexpanded : (if same then some templateUri else none) = o.expanded :=
                    congrArg Offer.expanded (Except.ok.inj h)
                  dsimp only
                  rw [← hexpanded]
                  cases same with
                  | false =>
                      rw [if_neg fun hmatched => Bool.false_ne_true hmatched.1]
                      rfl
                  | true =>
                      have hpos := List.length_pos_iff.mpr (split_ne_nil htemplate)
                      have hlevel : (if (some templateUri).isSome then (split path).length
                          else 0) = (split path).length := rfl
                      rw [if_pos rfl, hlevel]
                      by_cases hcount : count < (split path).length
                      · rw [if_pos ⟨rfl, .inr hcount⟩, if_pos hcount]
                        rfl
                      · rw [if_neg fun hselected => hselected.2.elim (by omega) hcount,
                          if_neg hcount]

theorem register_eq (hne : path ≠ []) (matchingUri : Text) (found : Found Text) :
    register textPaths target path path matchingUri found = .ok { found with
      matchingAnyPath :=
        if endsWithWildcard path = true ∧ ∀ other ∈ found.matchingAnyPath,
            other.length < matchingUri.length then
          some path
        else found.matchingAnyPath
      matchingAnySuffixPath :=
        if !endsWithWildcard path && endsWithSuffix target path then some path
        else found.matchingAnySuffixPath } := by
  rw [register, if_neg hne, endsWithSuffix]
  cases hwildcard : endsWithWildcard path with
  | true =>
      rw [if_pos rfl]
      cases hany : found.matchingAnyPath with
      | none => simp
      | some other =>
          simp only [textPaths, Option.mem_def, Option.some.injEq, forall_eq', true_and,
            Bool.not_true, Bool.false_and, Bool.false_eq_true, if_false]
          split
          · rfl
          · rw [← hany]
  | false =>
      rw [if_neg Bool.false_ne_true]
      cases hsuffix : indexOfText (text "*.") path with
      | none => simp
      | some suffixIndex =>
          simp only [Option.any_some, Bool.not_false, Bool.true_and, Bool.false_eq_true, false_and,
            if_false]
          split
          · rfl
          · rfl

theorem level_nil : level target fuel [] = 0 := by
  have hnone : (offered target fuel []).expanded = none := by
    rw [offered, offer]
    cases exactMatch [] target [] <;> rfl
  rw [level, hnone]
  rfl

theorem target_of_nil (h : exactMatch [] target [] = .ok true) : target = [] := by
  by_contra hne
  have hfalse : exactMatch [] target [] = .ok false := by
    rw [exactMatch, if_neg hne]
    rfl
  rw [hfalse] at h
  cases h

theorem register_hit (hne : path ≠ []) (matchingUri : Text) (count : Nat) (found : Found Text)
    (hit : Bool) : register textPaths target path path matchingUri
      (if hit then { found with patternCount := count, matchingPath := some path }
        else { found with patternCount := count }) = .ok
      { patternCount := count
        matchingPath := if hit then some path else found.matchingPath
        matchingAnyPath :=
          if endsWithWildcard path = true ∧ ∀ other ∈ found.matchingAnyPath,
              other.length < matchingUri.length then
            some path
          else found.matchingAnyPath
        matchingAnySuffixPath :=
          if !endsWithWildcard path && endsWithSuffix target path then some path
          else found.matchingAnySuffixPath } := by
  rw [register_eq hne]
  cases hit <;> rfl

theorem matchesLoop_selected (h : offer target fuel path = .ok o) {found : Found Text}
    (hcount : found.patternCount < level target fuel path) :
    matchesLoop textPaths target fuel (path :: rest) found =
      matchesLoop textPaths target fuel rest (next target fuel path found) := by
  have htemplate := matchTemplate_of_offer h found.patternCount
    (if o.matched then some path else none)
  rw [if_pos hcount] at htemplate
  have hpos : level target fuel path ≠ 0 := by omega
  have hne : path ≠ [] := fun hnil => hpos (hnil ▸ level_nil)
  have hoffered := offered_of_offer h
  obtain ⟨uri, huri⟩ : ∃ uri, o.expanded = some uri := by
    rw [level, hoffered] at hpos
    cases hexpanded : o.expanded with
    | none =>
        rw [hexpanded] at hpos
        exact absurd rfl hpos
    | some uri => exact ⟨uri, rfl⟩
  rw [huri] at htemplate
  have hget : textPaths.getPath path = some path := rfl
  rw [matchesLoop, hget]
  dsimp only
  rw [exactMatch_of_offer h]
  dsimp only
  rw [htemplate]
  dsimp only
  rw [if_neg fun hreturn => hpos hreturn.2, register_hit hne]
  dsimp only
  have hhits : (contest target fuel).hits path found.patternCount = isHit target path uri := by
    rw [contest]
    dsimp only
    rw [if_pos hcount, hoffered, huri, Option.any_some]
  have hthird : (contest target fuel).third path found.patternCount = endsWithWildcard path := by
    have hlevel : decide (found.patternCount < (contest target fuel).level path) = true :=
      decide_eq_true hcount
    rw [Contest.third, hlevel, Bool.true_or, Bool.and_true]
    rfl
  have hbound : (contest target fuel).bound path = uri.length := by
    rw [contest]
    dsimp only
    rw [hoffered, huri]
    rfl
  have hbid : (contest target fuel).bid path found.patternCount = uri.length :=
    (if_pos hcount).trans hbound
  have hsecond : (contest target fuel).second path found.patternCount =
      (!endsWithWildcard path && endsWithSuffix target path) := by
    rw [contest]
    dsimp only
    rw [decide_eq_true hcount, Bool.true_or, Bool.true_and]
  rw [next, hhits, hthird, hbid, hsecond, Nat.max_eq_right (Nat.le_of_lt hcount)]
  rfl

theorem matchesLoop_other (h : offer target fuel path = .ok o) {found : Found Text}
    (hempty : target = [] → found.patternCount = 0)
    (hcount : level target fuel path ≤ found.patternCount) :
    matchesLoop textPaths target fuel (path :: rest) found =
      if (contest target fuel).returns path found.patternCount then .ok (some path)
      else matchesLoop textPaths target fuel rest (next target fuel path found) := by
  have htemplate := matchTemplate_of_offer h found.patternCount
    (if o.matched then some path else none)
  have hnot := Nat.not_lt.mpr hcount
  rw [if_neg hnot] at htemplate
  have hoffered := offered_of_offer h
  have hget : textPaths.getPath path = some path := rfl
  have hhits : (contest target fuel).hits path found.patternCount =
      (o.matched && isHit target path path) := by
    rw [contest]
    dsimp only
    rw [if_neg hnot, hoffered]
  have hthird : (contest target fuel).third path found.patternCount =
      (endsWithWildcard path && o.matched) := by
    have hlevel : decide (found.patternCount < (contest target fuel).level path) = false :=
      decide_eq_false hnot
    rw [Contest.third, hlevel, Bool.false_or, contest]
    dsimp only
    rw [hoffered]
  have hbid : (contest target fuel).bid path found.patternCount = path.length := if_neg hnot
  have hsecond : (contest target fuel).second path found.patternCount =
      (o.matched && !endsWithWildcard path && endsWithSuffix target path) := by
    rw [contest]
    dsimp only
    rw [decide_eq_false hnot, Bool.false_or, hoffered]
  have hreturns : (contest target fuel).returns path found.patternCount =
      (o.matched && isHit target path path && decide (found.patternCount = 0)) := by
    rw [Contest.returns, hhits]
    have hmax : max found.patternCount ((contest target fuel).level path) = found.patternCount :=
      Nat.max_eq_left hcount
    rw [hmax]
  rw [matchesLoop, hget]
  dsimp only
  rw [exactMatch_of_offer h]
  dsimp only
  rw [htemplate, hreturns, next, hhits, hthird, hbid, hsecond, Nat.max_eq_left hcount]
  cases hmatched : o.matched with
  | false =>
      simp
  | true =>
      have hhit : decide (path = target ∨ pathString path = target) = isHit target path path := rfl
      rw [if_pos rfl]
      dsimp only
      rw [hhit, Bool.true_and]
      by_cases hreturn : isHit target path path = true ∧ found.patternCount = 0
      · have hreturns' : (isHit target path path && decide (found.patternCount = 0)) = true := by
          rw [hreturn.1, decide_eq_true hreturn.2]
          rfl
        rw [if_pos hreturn, if_pos hreturns']
      · have hreturns' : (isHit target path path && decide (found.patternCount = 0)) ≠ true := by
          rw [ne_eq, Bool.and_eq_true, decide_eq_true_iff]
          exact hreturn
        have hne : path ≠ [] := by
          intro hnil
          have hexact := exactMatch_of_offer h
          rw [hnil, hmatched] at hexact
          have htarget := target_of_nil hexact
          exact hreturn ⟨decide_eq_true (.inl (hnil.trans htarget.symm)), hempty htarget⟩
        rw [if_neg hreturn, if_neg hreturns', Bool.true_and, Bool.and_true]
        rw [register_hit hne path found.patternCount found]

theorem level_eq_zero_of_nil : level [] fuel path = 0 := by
  have hnone : (offered [] fuel path).expanded = none := by
    rw [offered, offer]
    cases exactMatch path [] path with
    | error failure => rfl
    | ok matched =>
        have hbuild : buildUriFromTemplate fuel path [] false = .ok none := by
          unfold buildUriFromTemplate
          dsimp only
          split
          · rfl
          · exact dif_pos (Nat.zero_le _)
        rw [hbuild]
        cases isTemplate path <;> rfl
  rw [level, hnone]
  rfl

/-! ## The loop as a contest -/

/-- What is left of the contest when the loop has come to the given registers. -/
def answerFrom (target : Text) (fuel : Nat) (found : Found Text) (order : List Text) :
    Option Text :=
  let C := contest target fuel
  (C.firstReturn found.patternCount order).or
    ((C.last C.hits found.patternCount order found.matchingPath).or
      ((C.last C.second found.patternCount order found.matchingAnySuffixPath).or
        (C.highest found.patternCount order found.matchingAnyPath)))

theorem answerFrom_cons (target : Text) (fuel : Nat) (path : Text) (rest : List Text)
    (found : Found Text) : answerFrom target fuel found (path :: rest) =
      if (contest target fuel).returns path found.patternCount then some path
      else answerFrom target fuel (next target fuel path found) rest := by
  unfold answerFrom
  dsimp only
  rw [Contest.firstReturn]
  split
  · rfl
  · rfl

theorem matchesLoop_eq {order : List Text}
    (hoffers : ∀ path ∈ order, ∃ o, offer target fuel path = .ok o) {found : Found Text}
    (hempty : target = [] → found.patternCount = 0) :
    matchesLoop textPaths target fuel order found = .ok (answerFrom target fuel found order) := by
  induction order generalizing found with
  | nil => rfl
  | cons path rest ih =>
      obtain ⟨o, ho⟩ := hoffers path List.mem_cons_self
      have hnext : target = [] → (next target fuel path found).patternCount = 0 := by
        rintro rfl
        rw [next, hempty rfl, level_eq_zero_of_nil]
        rfl
      have hrest := ih (fun other hother => hoffers other (List.mem_cons_of_mem path hother)) hnext
      rw [answerFrom_cons]
      by_cases hcount : found.patternCount < level target fuel path
      · have hreturns : (contest target fuel).returns path found.patternCount = false := by
          have hmax : max found.patternCount ((contest target fuel).level path) ≠ 0 :=
            Nat.ne_of_gt (Nat.lt_of_lt_of_le (Nat.zero_lt_of_lt hcount) (Nat.le_max_right _ _))
          rw [Contest.returns, decide_eq_false hmax, Bool.and_false]
        rw [matchesLoop_selected ho hcount, hreturns, hrest]
        rfl
      · rw [matchesLoop_other ho hempty (Nat.not_lt.mp hcount), hrest]
        split <;> rfl

theorem matchesPath_eq {order : List Text}
    (hoffers : ∀ path ∈ order, ∃ o, offer target fuel path = .ok o) :
    matchesPath textPaths target fuel order = .ok ((contest target fuel).answer order) :=
  matchesLoop_eq hoffers fun _ => rfl

/-! ## Enough fuel -/

theorem build_ok_mono {template : Text} {result : Option Text}
    (h : buildUriFromTemplate fuel template target false = .ok result) (more : Nat) :
    buildUriFromTemplate (fuel + more) template target false = .ok result :=
  build_mono h (fun heq => by cases heq) more

theorem offer_mono (h : offer target fuel path = .ok o) (more : Nat) :
    offer target (fuel + more) path = .ok o := by
  unfold offer at h ⊢
  cases hexact : exactMatch path target path with
  | error failure => simp [hexact] at h
  | ok matched =>
      rw [hexact] at h
      dsimp only at h ⊢
      split
      · rename_i htemplate
        rw [if_pos htemplate] at h
        cases hbuild : buildUriFromTemplate fuel path target false with
        | error failure => simp [hbuild] at h
        | ok result =>
            rw [hbuild] at h
            rw [build_ok_mono hbuild]
            exact h
      · rename_i htemplate
        rw [if_neg htemplate] at h
        exact h

theorem matchTemplate_mono {count : Nat} {matchingUri : Option Text}
    {result : Option Text × Text × Nat}
    (h : matchTemplate textPaths target fuel path path count matchingUri = .ok result)
    (more : Nat) :
    matchTemplate textPaths target (fuel + more) path path count matchingUri = .ok result := by
  unfold matchTemplate at h ⊢
  split
  · rename_i htemplate
    rw [if_pos htemplate] at h
    cases hbuild : buildUriFromTemplate fuel path target false with
    | error failure => simp [hbuild] at h
    | ok result =>
        rw [hbuild] at h
        rw [build_ok_mono hbuild]
        exact h
  · rename_i htemplate
    rw [if_neg htemplate] at h
    exact h

theorem matchesLoop_mono {order : List Text} {found : Found Text} {result : Option Text}
    (h : matchesLoop textPaths target fuel order found = .ok result) (more : Nat) :
    matchesLoop textPaths target (fuel + more) order found = .ok result := by
  induction order generalizing found with
  | nil => exact h
  | cons path rest ih =>
      have hget : textPaths.getPath path = some path := rfl
      rw [matchesLoop, hget] at h ⊢
      dsimp only at h ⊢
      cases hexact : exactMatch path target path with
      | error failure => simp [hexact] at h
      | ok exact' =>
          rw [hexact] at h
          dsimp only at h ⊢
          cases htemplate : matchTemplate textPaths target fuel path path found.patternCount
              (if exact' then some path else none) with
          | error failure => simp [htemplate] at h
          | ok registers =>
              rw [htemplate] at h
              rw [matchTemplate_mono htemplate]
              obtain ⟨matchingUri, entry, count⟩ := registers
              cases matchingUri with
              | none => exact ih h
              | some matchingUri =>
                  dsimp only at h ⊢
                  split
                  · rename_i hreturn
                    rw [if_pos hreturn] at h
                    exact h
                  · rename_i hreturn
                    rw [if_neg hreturn] at h
                    cases hregister : register textPaths target path entry matchingUri
                        (if (decide (matchingUri = target ∨ pathString path = target)) = true then
                          { found with patternCount := count, matchingPath := some entry }
                        else { found with patternCount := count }) with
                    | error failure =>
                        rw [hregister] at h
                        cases h
                    | ok found' =>
                        rw [hregister] at h
                        exact ih h

theorem offer_of_matchesLoop {found : Found Text} {result : Option Text}
    (h : matchesLoop textPaths target fuel (path :: rest) found = .ok result) :
    ∃ o, offer target fuel path = .ok o := by
  have hget : textPaths.getPath path = some path := rfl
  rw [matchesLoop, hget] at h
  unfold offer
  dsimp only at h
  cases hexact : exactMatch path target path with
  | error failure => simp [hexact] at h
  | ok exact' =>
      rw [hexact] at h
      dsimp only at h ⊢
      unfold matchTemplate at h
      split
      · rename_i htemplate
        rw [if_pos htemplate] at h
        cases hbuild : buildUriFromTemplate fuel path target false with
        | error failure => simp [hbuild] at h
        | ok built =>
            rw [hbuild] at h
            cases built with
            | none => exact ⟨_, rfl⟩
            | some templateUri =>
                dsimp only at h ⊢
                cases hsame : exactMatch path target templateUri with
                | error failure => simp [hsame] at h
                | ok same => exact ⟨_, rfl⟩
      · exact ⟨_, rfl⟩

theorem exists_fuel {entries : List Text}
    (h : ∀ path ∈ entries, ∃ fuel o, offer target fuel path = .ok o) :
    ∃ fuel, ∀ path ∈ entries, ∃ o, offer target fuel path = .ok o := by
  induction entries with
  | nil => exact ⟨0, fun path hpath => (nomatch hpath)⟩
  | cons first rest ih =>
      obtain ⟨fuel, o, ho⟩ := h first List.mem_cons_self
      obtain ⟨fuel', hrest⟩ := ih fun path hpath => h path (List.mem_cons_of_mem first hpath)
      refine ⟨fuel + fuel', fun path hpath => ?_⟩
      rcases List.mem_cons.mp hpath with rfl | hpath
      · exact ⟨o, offer_mono ho fuel'⟩
      · obtain ⟨o', ho'⟩ := hrest path hpath
        rw [Nat.add_comm]
        exact ⟨o', offer_mono ho' fuel⟩

/-! ## All orders -/

theorem OrderIndependent.offers {entries : List Text} (h : OrderIndependent target entries) :
    ∀ path ∈ entries, ∃ fuel o, offer target fuel path = .ok o := by
  intro path hpath
  obtain ⟨chosen, hchosen, -⟩ := h
  obtain ⟨fuel, hfuel⟩ := hchosen (path :: entries.erase path) (List.perm_cons_erase hpath).symm
  exact ⟨fuel, offer_of_matchesLoop hfuel⟩

/-- The result does not depend on the fuel. -/
theorem matchesPath_unique {order : List Text} {fuel' : Nat} {result result' : Option Text}
    (h : matchesPath textPaths target fuel order = .ok result)
    (h' : matchesPath textPaths target fuel' order = .ok result') : result = result' := by
  have hmore := matchesLoop_mono h fuel'
  have hmore' := matchesLoop_mono h' fuel
  rw [Nat.add_comm] at hmore'
  exact Except.ok.inj (hmore.symm.trans hmore')

/-- The order does not matter exactly when one path wins the contest, or none takes part in it. -/
theorem matchesPath_orderIndependent_iff {entries : List Text} (hnodup : entries.Nodup) :
    OrderIndependent target entries ↔ Settled target entries := by
  constructor
  · intro h
    obtain ⟨fuel, hoffers⟩ := exists_fuel h.offers
    obtain ⟨chosen, hchosen, htarget⟩ := h
    have hanswer : ∀ order, order.Perm entries →
        (contest target fuel).answer order = chosen := by
      intro order hperm
      obtain ⟨fuel', hfuel'⟩ := hchosen order hperm
      have hmatches := matchesPath_eq fun path hpath => hoffers path (hperm.subset hpath)
      exact matchesPath_unique hmatches hfuel'
    refine ⟨fuel, hoffers, ?_⟩
    cases chosen with
    | some m =>
        refine .inl ⟨m, (Contest.answer_always_iff hnodup).mp hanswer, fun hmem => ?_⟩
        exact Option.some.inj (htarget hmem)
    | none =>
        refine .inr ⟨(Contest.answer_never_iff hnodup).mp hanswer, fun hmem => ?_⟩
        cases htarget hmem
  · rintro ⟨fuel, hoffers, hsettled⟩
    have hmatches : ∀ order, order.Perm entries → matchesPath textPaths target fuel order =
        .ok ((contest target fuel).answer order) := fun order hperm =>
      matchesPath_eq fun path hpath => hoffers path (hperm.subset hpath)
    rcases hsettled with ⟨m, hwins, htarget⟩ | ⟨hidle, htarget⟩
    · refine ⟨some m, fun order hperm => ⟨fuel, ?_⟩, fun hmem => congrArg some (htarget hmem)⟩
      rw [hmatches order hperm, (Contest.answer_always_iff hnodup).mpr hwins order hperm]
    · refine ⟨none, fun order hperm => ⟨fuel, ?_⟩, fun hmem => absurd hmem htarget⟩
      rw [hmatches order hperm, (Contest.answer_never_iff hnodup).mpr hidle order hperm]

end

/-- Of two paths without parameters and wildcards the target is found. -/
theorem plain_paths_orderIndependent : OrderIndependent (text "/a") [text "/a", text "/b"] := by
  have hlevel : ∀ path ∈ [text "/a", text "/b"], level (text "/a") 0 path = 0 := by decide
  have hmet : ∀ {apart : List Text} {c : Nat},
      (contest (text "/a") 0).Met [text "/a", text "/b"] apart c → c = 0 := by
    rintro apart c (hzero | ⟨q, hq, -, hlevelq⟩)
    · exact hzero
    · exact hlevelq ▸ hlevel q hq
  have hother : ∀ path ∈ [text "/a", text "/b"], path ≠ text "/a" → path = text "/b" := by decide
  refine (matchesPath_orderIndependent_iff (by decide)).mpr
    ⟨0, ?_, .inl ⟨text "/a", ?_, fun _ => rfl⟩⟩
  · intro path hpath
    rcases List.mem_pair.mp hpath with rfl | rfl
    · exact ⟨⟨true, none⟩, rfl⟩
    · exact ⟨⟨false, none⟩, rfl⟩
  · refine ⟨by decide, fun c hc => ?_, fun p hp hne k c hk hc _ => ?_,
      fun p hp hne k c hk hc _ hrank => ?_, fun p hp hne k c hk hc _ hrank => ?_,
      fun q hq hne hthird => ?_, fun q hq t ht hne _ hthird => ?_⟩
    · rw [hmet hc]
      decide
    · rw [hother p hp hne, hmet hk, hmet hc]
      decide
    · rw [hmet hk] at hrank
      exact absurd rfl hrank
    · rw [hmet hk] at hrank
      cases hrank
    · rw [hother q hq hne] at hthird
      cases hthird
    · rw [hother q hq hne] at hthird
      cases hthird

/-- Of two templates that are as long, and match, the first one is found. -/
theorem not_orderIndependent_of_templates :
    ¬ ∀ (target : Text) (entries : List Text), entries.Nodup →
      OrderIndependent target entries := by
  intro h
  obtain ⟨chosen, hchosen, -⟩ := h (text "/a/b") [text "/{x}/b", text "/a/{x}"] (by decide)
  have hfirst : matchesPath textPaths (text "/a/b") 20 [text "/{x}/b", text "/a/{x}"] =
      .ok (some (text "/{x}/b")) := rfl
  have hsecond : matchesPath textPaths (text "/a/b") 20 [text "/a/{x}", text "/{x}/b"] =
      .ok (some (text "/a/{x}")) := rfl
  obtain ⟨fuel, hfuel⟩ := hchosen [text "/{x}/b", text "/a/{x}"] (List.Perm.refl _)
  obtain ⟨fuel', hfuel'⟩ := hchosen [text "/a/{x}", text "/{x}/b"] (List.Perm.swap _ _ _)
  have heq := matchesPath_unique hfirst hfuel
  have heq' := matchesPath_unique hsecond hfuel'
  exact absurd (heq.trans heq'.symm) (by decide)

end Keycloak.PathMatcher
