import Keycloak.Lib.GenericUri

/-!
# The texts that `new URI(text)` takes

The parser of `java.net.URI`, as it is documented: the older generic syntax, with other
characters beyond the basic Latin alphabet, and with addresses in brackets.  An authority is
either one of a registry, or one of a server with an address in brackets; the servers without
brackets are among the former.
-/

namespace JavaUri

open GenericUri

/-- Characters beyond the basic Latin alphabet that are no controls and no spaces. -/
def isOther (c : Nat) : Bool :=
  128 < c && !(c < 160) &&
    !([160, 5760, 8232, 8233, 8239, 8287, 12288].contains c) && !(8192 ≤ c && c ≤ 8202)

/-- Letters, digits, and the marks `_-!.~'()*`. -/
def unreserved (c : Nat) : Bool := isAlphanum c || [95, 45, 33, 46, 126, 39, 40, 41, 42].contains c

/-- The characters of queries and fragments, with the marks `;/?:@&=+$,[]`. -/
def uric (c : Nat) : Bool :=
  unreserved c || [59, slash, question, colon, commercialAt, 38, 61, 43, 36, 44, openBracket,
    closeBracket].contains c

/-- With the marks `:@&=+$,;/`. -/
def inPath (c : Nat) : Bool :=
  unreserved c || [colon, commercialAt, 38, 61, 43, 36, 44, 59, slash].contains c

/-- With the marks `;:&=+$,`. -/
def inUserInfo (c : Nat) : Bool := unreserved c || [59, colon, 38, 61, 43, 36, 44].contains c

/-- With the marks `$,;:@&=+`. -/
def inRegistry (c : Nat) : Bool :=
  unreserved c || [36, 44, 59, colon, commercialAt, 38, 61, 43].contains c

def accepted (allowed : Nat → Bool) (text : Text) : Bool :=
  escaped (fun c => allowed c || isOther c) text

def fragmentAccepted (text : Text) : Bool :=
  match strip hash text with
  | some fragment => accepted uric fragment
  | none => text.isEmpty

def queryAccepted (text : Text) : Bool :=
  match strip question text with
  | some rest =>
      accepted uric (rest.takeWhile (noneOf [hash])) &&
        fragmentAccepted (rest.dropWhile (noneOf [hash]))
  | none => fragmentAccepted text

def pathAccepted (text : Text) : Bool :=
  accepted inPath (text.takeWhile (noneOf [question, hash])) &&
    queryAccepted (text.dropWhile (noneOf [question, hash]))

/-- An address, which may have a scope behind a percent sign. -/
def isAddress (text : Text) : Bool :=
  isIPv6 (text.takeWhile (noneOf [percent])) &&
    match strip percent (text.dropWhile (noneOf [percent])) with
    | some scope => scope != [] && scope.all fun c => isAlphanum c || [95, 46].contains c
    | none => true

/-- Nothing, or a number that fits into an `int`. -/
def portAccepted (text : Text) : Bool :=
  match strip colon text with
  | some digits => digits.all isDigit && decide (value digits < 2 ^ 31)
  | none => text.isEmpty

def addressAccepted (text : Text) : Bool :=
  match strip openBracket text with
  | some rest =>
      match strip closeBracket (rest.dropWhile (noneOf [closeBracket])) with
      | some port => isAddress (rest.takeWhile (noneOf [closeBracket])) && portAccepted port
      | none => false
  | none => false

def serverAccepted (authority : Text) : Bool :=
  match strip commercialAt (authority.dropWhile (noneOf [commercialAt])) with
  | some server =>
      accepted inUserInfo (authority.takeWhile (noneOf [commercialAt])) && addressAccepted server
  | none => addressAccepted authority

def authorityAccepted (authority : Text) : Bool :=
  accepted inRegistry authority || serverAccepted authority

def hierarchicalAccepted (text : Text) : Bool :=
  match (strip slash text).bind (strip slash) with
  | some rest =>
      let authority := rest.takeWhile (noneOf [slash, question, hash])
      (if authority = [] then !rest.isEmpty else authorityAccepted authority) &&
        pathAccepted (rest.dropWhile (noneOf [slash, question, hash]))
  | none => pathAccepted text

def opaqueAccepted (text : Text) : Bool :=
  text.takeWhile (noneOf [hash]) != [] && accepted uric (text.takeWhile (noneOf [hash])) &&
    fragmentAccepted (text.dropWhile (noneOf [hash]))

def accepts (text : Text) : Bool :=
  match strip colon (text.dropWhile (noneOf [colon, slash, question, hash])) with
  | some rest =>
      isScheme (text.takeWhile (noneOf [colon, slash, question, hash])) &&
        if (strip slash rest).isSome then hierarchicalAccepted rest else opaqueAccepted rest
  | none => hierarchicalAccepted text

/-! ## Hosts -/

/-- Letters, digits, and hyphens that are not at the ends. -/
def isLabel (text : Text) : Bool :=
  text != [] && text.all (fun c => isAlphanum c || c == 45) && text.head? != some 45 &&
    text.getLast? != some 45

/-- Labels, perhaps with a period behind them; the last of several begins with a letter. -/
def isHostname (text : Text) : Bool :=
  let labels := (if text.getLast? = some 46 then text.dropLast else text).splitOn 46
  labels.all isLabel &&
    (labels.length == 1 || (labels.getLast?.bind List.head?).any isAlpha)

/-- Four numbers of at most three digits that fit into a byte. -/
def isDottedQuad (text : Text) : Bool :=
  let numbers := text.splitOn 46
  numbers.length == 4 && numbers.all fun digits =>
    digits != [] && digits.all isDigit && decide (digits.length ≤ 3) && decide (value digits ≤ 255)

/-- The host of a server, which may have a port; an address keeps its brackets. -/
def serverHost (server : Text) : Option Text :=
  match strip openBracket server with
  | some rest =>
      if addressAccepted server then
        some (openBracket :: (rest.takeWhile (noneOf [closeBracket]) ++ [closeBracket]))
      else none
  | none =>
      let host := server.takeWhile (noneOf [colon])
      if (isDottedQuad host || isHostname host) &&
          portAccepted (server.dropWhile (noneOf [colon])) then some host
      else none

/-- None for an authority of a registry. -/
def authorityHost (authority : Text) : Option Text :=
  match strip commercialAt (authority.dropWhile (noneOf [commercialAt])) with
  | some server =>
      if accepted inUserInfo (authority.takeWhile (noneOf [commercialAt])) then serverHost server
      else none
  | none => serverHost authority

def getScheme (text : Text) : Option Text :=
  (strip colon (text.dropWhile (noneOf [colon, slash, question, hash]))).map fun _ =>
    text.takeWhile (noneOf [colon, slash, question, hash])

/-- The host of a URI; opaque URIs and relative paths have none. -/
def getHost (text : Text) : Option Text :=
  let rest := (strip colon (text.dropWhile (noneOf [colon, slash, question, hash]))).getD text
  ((strip slash rest).bind (strip slash)).bind fun rest =>
    authorityHost (rest.takeWhile (noneOf [slash, question, hash]))

/-! ## The texts of absolute URIs -/

theorem accepted_of_escaped {allowed allowed' : Nat → Bool} {text : Text}
    (hallowed : ∀ c, allowed c = true → allowed' c = true) (h : escaped allowed text = true) :
    accepted allowed' text = true :=
  escaped_mono (fun c _ hc => by rw [hallowed c hc, Bool.true_or]) h

theorem unreserved_of_isAlphanum {c : Nat} (h : isAlphanum c = true) : unreserved c = true := by
  rw [unreserved, h, Bool.true_or]

theorem inRegistry_of_isName {c : Nat} (h : isName c = true) : inRegistry c = true := by
  refine of_isName (fun c hc => ?_) (by decide) h
  rw [inRegistry, unreserved_of_isAlphanum hc, Bool.true_or]

theorem inRegistry_of_isUserInfo {c : Nat} (h : isUserInfo c = true) : inRegistry c = true := by
  rw [isUserInfo, Bool.or_eq_true, beq_iff_eq] at h
  rcases h with h | rfl
  · exact inRegistry_of_isName h
  · decide

theorem inUserInfo_of_isUserInfo {c : Nat} (h : isUserInfo c = true) : inUserInfo c = true := by
  rw [isUserInfo, Bool.or_eq_true, beq_iff_eq] at h
  rcases h with h | rfl
  · refine of_isName (fun c hc => ?_) (by decide) h
    rw [inUserInfo, unreserved_of_isAlphanum hc, Bool.true_or]
  · decide

theorem inPath_of_isPath {c : Nat} (h : isPath c = true) : inPath c = true := by
  rw [isPath, Bool.or_eq_true, List.contains_eq_mem, decide_eq_true_eq] at h
  rcases h with h | h
  · refine of_isName (fun c hc => ?_) (by decide) h
    rw [inPath, unreserved_of_isAlphanum hc, Bool.true_or]
  · have hmarks : ∀ c ∈ [colon, commercialAt, slash], inPath c = true := by decide
    exact hmarks c h

theorem uric_of_isQuery {c : Nat} (h : isQuery c = true) : uric c = true := by
  rw [isQuery, Bool.or_eq_true, List.contains_eq_mem, decide_eq_true_eq] at h
  rcases h with h | h
  · refine of_isName (fun c hc => ?_) (by decide) h
    rw [uric, unreserved_of_isAlphanum hc, Bool.true_or]
  · have hmarks : ∀ c ∈ [colon, commercialAt, slash, question], uric c = true := by decide
    exact hmarks c h

section

variable {scheme authority path : Text} {query fragment : Option Text}

theorem fragmentAccepted_behind (hfragment : ∀ x ∈ fragment, escaped isQuery x = true) :
    fragmentAccepted (behind hash fragment) = true := by
  rw [fragmentAccepted, strip_hash_behind]
  cases fragment with
  | none => rfl
  | some x => exact accepted_of_escaped (fun _ => uric_of_isQuery) (hfragment x rfl)

theorem queryAccepted_tail (h : Delimited authority path query)
    (hquery : ∀ x ∈ query, escaped isQuery x = true)
    (hfragment : ∀ x ∈ fragment, escaped isQuery x = true) :
    queryAccepted (behind question query ++ behind hash fragment) = true := by
  rw [queryAccepted, strip_question_tail]
  cases hx : query with
  | none => exact fragmentAccepted_behind hfragment
  | some x =>
      simp only [Option.map_some]
      rw [h.takeWhile_query hx, h.dropWhile_query hx, fragmentAccepted_behind hfragment,
        Bool.and_true]
      exact accepted_of_escaped (fun _ => uric_of_isQuery) (hquery x hx)

/-- The authority decides whether a text of valid components is taken. -/
theorem accepts_assemble (hscheme : isScheme scheme = true) (hne : authority ≠ [])
    (h : Delimited authority path query) (hpath : escaped isPath path = true)
    (hquery : ∀ x ∈ query, escaped isQuery x = true)
    (hfragment : ∀ x ∈ fragment, escaped isQuery x = true) :
    accepts (assemble scheme authority path query fragment) = authorityAccepted authority := by
  have hmarks := forall_noneOf_of_isScheme hscheme
  have hstop : ∀ (rest : Text), ∀ c ∈ (colon :: rest).head?,
      noneOf [colon, slash, question, hash] c = false := by
    rintro rest c ⟨⟩
    decide
  have hafter : pathAccepted (path ++ (behind question query ++ behind hash fragment)) = true := by
    rw [pathAccepted, h.takeWhile_path, h.dropWhile_path, queryAccepted_tail h hquery hfragment,
      Bool.and_true]
    exact accepted_of_escaped (fun _ => inPath_of_isPath) hpath
  rw [accepts, assemble, dropWhile_stop hmarks (hstop _), takeWhile_stop hmarks (hstop _),
    strip_self]
  simp only [strip_self, Option.isSome_some, if_true, hscheme, Bool.true_and]
  rw [hierarchicalAccepted, strip_self, Option.bind_some, strip_self]
  simp only [h.takeWhile_authority, h.dropWhile_authority, if_neg hne, hafter, Bool.and_true]

end

section

variable {userInfo port : Option Text} {name address : Text}

theorem escaped_of_all {allowed : Nat → Bool} {text : Text} (h : ∀ c ∈ text, allowed c = true)
    (hpercent : percent ∉ text) : escaped allowed text = true := by
  induction text with
  | nil => rfl
  | cons c text ih =>
      obtain ⟨hc, htext⟩ := List.forall_mem_cons.mp h
      rw [List.mem_cons, not_or] at hpercent
      rw [escaped_cons_of_ne (Ne.symm hpercent.1), hc, ih htext hpercent.2]
      rfl

/-- A name and a port, with or without user information, are taken as a registry. -/
theorem authorityAccepted_name (huserInfo : ∀ x ∈ userInfo, escaped isUserInfo x = true)
    (hname : escaped isName name = true) (hport : ∀ x ∈ port, x.all isDigit = true) :
    authorityAccepted (authorityText userInfo name port) = true := by
  have hcolon : accepted inRegistry (behind colon port) = true := by
    cases port with
    | none => rfl
    | some digits =>
        have hdigits := List.all_eq_true.mp (hport digits rfl)
        rw [behind, accepted, escaped_cons_of_ne (by decide), Bool.and_eq_true]
        refine ⟨by decide, escaped_of_all (fun c hc => ?_) fun hmem => ?_⟩
        · rw [inRegistry, unreserved_of_isAlphanum (by rw [isAlphanum, hdigits c hc, Bool.or_true])]
          rfl
        · exact absurd (hdigits percent hmem) (by decide)
  have hhost : accepted inRegistry (name ++ behind colon port) = true :=
    (escaped_append (accepted_of_escaped (fun _ => inRegistry_of_isName) hname)).trans hcolon
  rw [authorityAccepted, authorityText, Bool.or_eq_true]
  left
  cases userInfo with
  | none => exact hhost
  | some x =>
      have hx := accepted_of_escaped (fun _ => inRegistry_of_isUserInfo) (huserInfo x rfl)
      rw [inFront, List.append_assoc, accepted, escaped_append hx, List.singleton_append,
        escaped_cons_of_ne (by decide)]
      rw [Bool.and_eq_true]
      exact ⟨by decide, hhost⟩

/-- An address in brackets is taken if it is one of the known form, with a port that fits. -/
theorem authorityAccepted_literal (huserInfo : ∀ x ∈ userInfo, escaped isUserInfo x = true)
    (haddress : (Host.literal address).valid = true)
    (hport : ∀ x ∈ port, x.all isDigit = true) :
    authorityAccepted (authorityText userInfo (Host.literal address).text port) =
      (isIPv6 address && decide (∀ x ∈ port, value x < 2 ^ 31)) := by
  have hchars := forall_mem_literal haddress
  have hbracket : ∀ c ∈ address, noneOf [closeBracket] c = true := fun c hc =>
    noneOf_of_isUserInfo (hchars c hc) (by decide)
  have hscope : ∀ c ∈ address, noneOf [percent] c = true := fun c hc =>
    noneOf_of_isUserInfo (hchars c hc) (by decide)
  have hnone : ∀ c ∈ ([] : Text).head?, noneOf [percent] c = false := fun c hc => by cases hc
  have hisAddress : isAddress address = isIPv6 address := by
    have htake := takeWhile_stop hscope hnone
    have hdrop := dropWhile_stop hscope hnone
    rw [List.append_nil] at htake hdrop
    rw [isAddress, htake, hdrop, strip_nil, Bool.and_true]
  have hportAccepted : portAccepted (behind colon port) =
      decide (∀ x ∈ port, value x < 2 ^ 31) := by
    cases port with
    | none => simp [portAccepted]
    | some digits => simp [portAccepted, hport digits rfl]
  have hserver : addressAccepted ((Host.literal address).text ++ behind colon port) =
      (isIPv6 address && decide (∀ x ∈ port, value x < 2 ^ 31)) := by
    have hstop : ∀ (rest : Text), ∀ c ∈ (closeBracket :: rest).head?,
        noneOf [closeBracket] c = false := by
      rintro rest c ⟨⟩
      decide
    rw [Host.text, List.cons_append, List.cons_append, List.append_assoc, List.singleton_append,
      addressAccepted, strip_self]
    simp only [dropWhile_stop hbracket (hstop _), takeWhile_stop hbracket (hstop _), strip_self,
      hisAddress, hportAccepted]
  have hregistry : accepted inRegistry
      (authorityText userInfo (Host.literal address).text port) = false := by
    rw [Bool.eq_false_iff]
    intro haccepted
    refine not_mem_of_escaped (c := openBracket) haccepted (by decide) ?_
    rw [authorityText, List.mem_append, List.mem_append]
    exact .inr (.inl List.mem_cons_self)
  have hmarks := Host.forall_noneOf haddress
  rw [authorityAccepted, hregistry, Bool.false_or, serverAccepted,
    strip_at_authorityText huserInfo hmarks hport]
  cases hx : userInfo with
  | none => exact hserver
  | some x =>
      have haccepted := accepted_of_escaped (fun _ => inUserInfo_of_isUserInfo) (huserInfo x hx)
      simp only [Option.map_some]
      rw [← hx, takeWhile_at_authorityText huserInfo hx, haccepted, Bool.true_and, hserver]

end

end JavaUri
