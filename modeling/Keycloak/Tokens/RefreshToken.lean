import Keycloak.Lib.Machine
import Mathlib.Data.List.Count

/-!
# Rotation of refresh tokens

The refresh requests of one authenticated client session.  Every accepted request issues
a new refresh token.  A token is named by its place in the order of issue; ids are random
in the source and only compared.

The checks that come before `validateTokenReuse` (signature, session, user, client,
not-before, consent) do not touch what is modelled; whether a request passes them is part
of the request.
-/

namespace Keycloak.Tokens.RefreshToken

structure Realm where
  revokeRefreshToken : Bool
  refreshTokenMaxReuse : Nat
  deriving DecidableEq, Repr

/-- The fields of the client session that decide about reuse, the clock in seconds, and
the `issuedAt` of the refresh tokens issued so far.  `accepted` is ghost state: the tokens
of the accepted requests, in their order. -/
structure ClientSession where
  timestamp : Nat
  currentRefreshToken : Option Nat
  currentRefreshTokenUseCount : Nat
  now : Nat
  issuedAt : List Nat
  accepted : List Nat
  deriving DecidableEq, Repr

inductive OAuthError where
  | staleToken
  | maximumReuseExceeded
  deriving DecidableEq, Repr

def validateTokenReuse (realm : Realm) (clusterStartupTime : Nat) (clientSession : ClientSession)
    (refreshToken issuedAt : Nat) : Except OAuthError ClientSession :=
  if realm.revokeRefreshToken then
    if clientSession.currentRefreshToken ≠ none ∧
        clientSession.currentRefreshToken ≠ some refreshToken ∧
        issuedAt < clientSession.timestamp ∧
        clusterStartupTime ≠ clientSession.timestamp then
      .error .staleToken
    else
      let clientSession :=
        if clientSession.currentRefreshToken ≠ some refreshToken then
          { clientSession with
            currentRefreshToken := some refreshToken
            currentRefreshTokenUseCount := 0 }
        else clientSession
      let currentCount := clientSession.currentRefreshTokenUseCount
      if currentCount > realm.refreshTokenMaxReuse then
        .error .maximumReuseExceeded
      else .ok { clientSession with currentRefreshTokenUseCount := currentCount + 1 }
  else .ok clientSession

/-- The rest of `refreshAccessToken`: the timestamp is set and a new token issued. -/
def refreshed (clientSession : ClientSession) (refreshToken : Nat) : ClientSession :=
  { clientSession with
    timestamp := clientSession.now
    issuedAt := clientSession.issuedAt ++ [clientSession.now]
    accepted := clientSession.accepted ++ [refreshToken] }

inductive Label where
  /-- Time passes. -/
  | tick (seconds : Nat)
  /-- A request with a token; `valid` tells whether it passes the other checks. -/
  | refreshAccessToken (refreshToken : Nat) (valid : Bool)
  deriving DecidableEq, Repr

/-- One request.  A request that is refused leaves the client session as it was; a token
that was not issued is not presented. -/
def step (realm : Realm) (clusterStartupTime : Nat) (s : ClientSession) :
    Label → Option ClientSession
  | .tick seconds => some { s with now := s.now + seconds }
  | .refreshAccessToken refreshToken valid =>
      match s.issuedAt[refreshToken]? with
      | none => none
      | some issuedAt =>
          if valid then
            match validateTokenReuse realm clusterStartupTime s refreshToken issuedAt with
            | .error _ => some s
            | .ok s' => some (refreshed s' refreshToken)
          else some s

def initial (timestamp now : Nat) (issuedAt : List Nat) : ClientSession :=
  ⟨timestamp, none, 0, now, issuedAt, []⟩

/-! ## The order in which tokens are accepted -/

/-- Tokens are accepted in the order of their issue, and none too often; the use count is
that of the token accepted last. -/
structure Rotates (maxReuse : Nat) (s : ClientSession) : Prop where
  ordered : s.accepted.Pairwise (· ≤ ·)
  bounded : ∀ token, s.accepted.count token ≤ maxReuse + 1
  unused : s.currentRefreshToken = none → s.accepted = []
  last : ∀ current, s.currentRefreshToken = some current →
    (∀ token ∈ s.accepted, token ≤ current) ∧
      s.accepted.count current = s.currentRefreshTokenUseCount

/-- No valid request presents a token issued before the one accepted last and not before
the timestamp of the client session. -/
def NotFromSameSecond (s : ClientSession) : Label → Prop
  | .tick _ => True
  | .refreshAccessToken refreshToken valid => valid = true →
      ∀ current issuedAt, s.currentRefreshToken = some current →
        s.issuedAt[refreshToken]? = some issuedAt → refreshToken < current →
        issuedAt < s.timestamp

theorem initial_rotates (maxReuse timestamp now : Nat) (issuedAt : List Nat) :
    Rotates maxReuse (initial timestamp now issuedAt) := by
  constructor <;> simp [initial]

theorem Rotates.accept {maxReuse : Nat} {s t : ClientSession} {token : Nat}
    (h : Rotates maxReuse s) (hold : ∀ earlier ∈ s.accepted, earlier ≤ token)
    (hcount : s.accepted.count token ≤ maxReuse)
    (haccepted : t.accepted = s.accepted ++ [token])
    (hcurrent : t.currentRefreshToken = some token)
    (huse : t.currentRefreshTokenUseCount = s.accepted.count token + 1) :
    Rotates maxReuse t := by
  refine ⟨?_, ?_, ?_, ?_⟩
  · rw [haccepted, List.pairwise_append]
    exact ⟨h.ordered, List.pairwise_singleton _ _, fun a ha b hb =>
      (List.mem_singleton.mp hb) ▸ hold a ha⟩
  · intro other
    rw [haccepted, List.count_append, List.count_singleton]
    by_cases heq : token = other
    · subst heq
      simp
      omega
    · simpa [heq] using h.bounded other
  · intro hnone
    rw [hcurrent] at hnone
    cases hnone
  · intro current hsome
    rw [hcurrent, Option.some.injEq] at hsome
    subst hsome
    refine ⟨?_, ?_⟩
    · intro other hother
      rw [haccepted, List.mem_append, List.mem_singleton] at hother
      rcases hother with hother | rfl
      · exact hold other hother
      · exact Nat.le_refl _
    · rw [haccepted, List.count_append, List.count_singleton, huse]
      simp

/-- What an accepted reuse check has found: the current token with uses left, or another
token that is not stale. -/
theorem validateTokenReuse_ok {realm : Realm} {clusterStartupTime : Nat} {s s' : ClientSession}
    {token issuedAt : Nat} (hrevoke : realm.revokeRefreshToken = true)
    (h : validateTokenReuse realm clusterStartupTime s token issuedAt = .ok s') :
    (s.currentRefreshToken = some token ∧
      s.currentRefreshTokenUseCount ≤ realm.refreshTokenMaxReuse ∧
      s' = { s with currentRefreshTokenUseCount := s.currentRefreshTokenUseCount + 1 }) ∨
    (s.currentRefreshToken ≠ some token ∧
      (s.currentRefreshToken = none ∨ s.timestamp ≤ issuedAt ∨
        clusterStartupTime = s.timestamp) ∧
      s' = { s with currentRefreshToken := some token, currentRefreshTokenUseCount := 1 }) := by
  simp only [validateTokenReuse, hrevoke, if_true] at h
  split at h
  · cases h
  · rename_i hfresh
    by_cases hcurrent : s.currentRefreshToken = some token
    · simp only [hcurrent, ne_eq, not_true_eq_false, if_false] at h
      split at h
      · cases h
      · rename_i hcount
        cases h
        exact .inl ⟨hcurrent, Nat.le_of_not_lt hcount, by rw [← hcurrent]⟩
    · simp only [hcurrent, ne_eq, not_false_eq_true, if_true] at h
      split at h
      · cases h
      · cases h
        refine .inr ⟨hcurrent, ?_, rfl⟩
        by_contra hstale
        rw [not_or, not_or, Nat.not_le] at hstale
        exact hfresh ⟨hstale.1, hcurrent, hstale.2.1, hstale.2.2⟩

theorem step_rotates {realm : Realm} {clusterStartupTime : Nat} {s t : ClientSession}
    {label : Label} (hrevoke : realm.revokeRefreshToken = true)
    (h : Rotates realm.refreshTokenMaxReuse s) (hstart : s.timestamp ≠ clusterStartupTime)
    (hsecond : NotFromSameSecond s label)
    (hstep : step realm clusterStartupTime s label = some t) :
    Rotates realm.refreshTokenMaxReuse t := by
  cases label with
  | tick seconds =>
      cases hstep
      exact ⟨h.ordered, h.bounded, h.unused, h.last⟩
  | refreshAccessToken token valid =>
      simp only [step] at hstep
      cases hissued : s.issuedAt[token]? with
      | none => simp [hissued] at hstep
      | some issuedAt =>
          simp only [hissued] at hstep
          cases valid with
          | false =>
              cases hstep
              exact h
          | true =>
              simp only [if_true] at hstep
              cases hcheck : validateTokenReuse realm clusterStartupTime s token issuedAt with
              | error e =>
                  simp only [hcheck, Option.some.injEq] at hstep
                  exact hstep ▸ h
              | ok s' =>
                  simp only [hcheck, Option.some.injEq] at hstep
                  subst hstep
                  rcases validateTokenReuse_ok hrevoke hcheck with
                    ⟨hcurrent, hcount, rfl⟩ | ⟨hcurrent, hfresh, rfl⟩
                  · obtain ⟨hold, huse⟩ := h.last token hcurrent
                    exact h.accept hold (by omega) rfl hcurrent (by simp [refreshed, huse])
                  · -- another token than the last one: it was issued later
                    have hlater : ∀ earlier ∈ s.accepted, earlier < token := by
                      intro earlier hearlier
                      cases hlast : s.currentRefreshToken with
                      | none =>
                          rw [h.unused hlast] at hearlier
                          cases hearlier
                      | some current =>
                          have hle := (h.last current hlast).1 earlier hearlier
                          have hne : current ≠ token := fun heq => hcurrent (heq ▸ hlast)
                          by_contra hnot
                          have hlt := hsecond rfl current issuedAt hlast hissued (by omega)
                          rcases hfresh with hnone | hle' | heq
                          · rw [hlast] at hnone
                            cases hnone
                          · omega
                          · exact hstart heq.symm
                    have hcount : s.accepted.count token = 0 :=
                      List.count_eq_zero.mpr fun hmem => Nat.lt_irrefl _ (hlater token hmem)
                    exact h.accept (fun earlier hmem => Nat.le_of_lt (hlater earlier hmem))
                      (by omega) rfl rfl (by simp [refreshed, hcount])

/-- With revocation of refresh tokens, in every run of refresh requests of one client
session, whose timestamp is never the start-up time of the cluster and in which no valid
request presents a token that was issued before the one accepted last and yet not before
the timestamp: every token is accepted at most `refreshTokenMaxReuse + 1` times, and no
token is accepted after one that was issued later. -/
theorem refreshTokens_rotate (realm : Realm) (hrevoke : realm.revokeRefreshToken = true)
    (clusterStartupTime timestamp now : Nat) (issuedAt : List Nat) (labels : List Label)
    (s : ClientSession)
    (hstart : Machine.Meets (step realm clusterStartupTime)
      (fun s _ => s.timestamp ≠ clusterStartupTime) (initial timestamp now issuedAt) labels)
    (hsecond : Machine.Meets (step realm clusterStartupTime) NotFromSameSecond
      (initial timestamp now issuedAt) labels)
    (hrun : Machine.run (step realm clusterStartupTime) (initial timestamp now issuedAt)
      labels = some s) :
    (∀ token, s.accepted.count token ≤ realm.refreshTokenMaxReuse + 1) ∧
    s.accepted.Pairwise (· ≤ ·) := by
  have h : Rotates realm.refreshTokenMaxReuse s :=
    Machine.run_invariant
      (fun _ _ _ hinv hok hstep => step_rotates hrevoke hinv hok.1 hok.2 hstep)
      (initial_rotates _ timestamp now issuedAt) (hstart.and hsecond) hrun
  exact ⟨h.bounded, h.ordered⟩

def noReuse : Realm := ⟨true, 0⟩

/-- Two refreshes, each with the token of the one before, and an old token in between. -/
def rotatedTwice : List Label :=
  [.tick 10, .refreshAccessToken 0 true, .tick 10, .refreshAccessToken 1 true,
    .refreshAccessToken 0 true]

theorem rotatedTwice_rotates :
    ∃ s, Machine.run (step noReuse 5) (initial 0 0 [0]) rotatedTwice = some s ∧
      s.accepted = [0, 1] ∧ (∀ token, s.accepted.count token ≤ 1) ∧
      s.accepted.Pairwise (· ≤ ·) := by
  have hstart : Machine.Meets (step noReuse 5) (fun s _ => s.timestamp ≠ 5) (initial 0 0 [0])
      rotatedTwice :=
    .cons (by decide) rfl (.cons (by decide) rfl (.cons (by decide) rfl
      (.cons (by decide) rfl (.cons (by decide) rfl trivial))))
  have hsecond : Machine.Meets (step noReuse 5) NotFromSameSecond (initial 0 0 [0])
      rotatedTwice := by
    refine .cons trivial rfl (.cons ?_ rfl (.cons trivial rfl (.cons ?_ rfl (.cons ?_ rfl
      trivial))))
    · rintro - current issuedAt hcurrent
      cases hcurrent
    · rintro - current issuedAt hcurrent - hlt
      cases hcurrent
      omega
    · rintro - current issuedAt hcurrent hissued -
      cases hissued
      decide
  exact ⟨_, rfl, rfl,
    refreshTokens_rotate noReuse rfl 5 0 0 [0] rotatedTwice _ hstart hsecond rfl⟩

/-- Three refreshes in one second, the third with the token of the first. -/
theorem sameSecond_alternates :
    ∃ s, Machine.run (step noReuse 5) (initial 0 10 [0])
        [.refreshAccessToken 0 true, .refreshAccessToken 1 true, .refreshAccessToken 2 true,
          .refreshAccessToken 1 true] = some s ∧
      s.timestamp ≠ 5 ∧ s.accepted = [0, 1, 2, 1] ∧
      ¬ (s.accepted.count 1 ≤ noReuse.refreshTokenMaxReuse + 1) ∧
      ¬ s.accepted.Pairwise (· ≤ ·) :=
  ⟨_, rfl, by decide, rfl, by decide, by decide⟩

end Keycloak.Tokens.RefreshToken
