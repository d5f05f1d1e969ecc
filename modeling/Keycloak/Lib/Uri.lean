import Mathlib.Data.List.TakeWhile

/-!
# The authority of a URI

A URI starts with its scheme; two slashes after the colon introduce the authority, which ends
in front of the first slash, question mark or number sign.  The host of an authority stands
after its last at sign, and in front of its port.
-/

namespace Uri

abbrev Text := List Char

/-! ## Letter case -/

theorem toNat_toLower (c : Char) : c.toLower.toNat =
    if 65 ≤ c.toNat ∧ c.toNat ≤ 90 then c.toNat + 32 else c.toNat := by
  delta Char.toLower
  have hiff : (c.val ≥ 'A'.val ∧ c.val ≤ 'Z'.val) ↔ 65 ≤ c.toNat ∧ c.toNat ≤ 90 := by
    rw [ge_iff_le, UInt32.le_iff_toNat_le, UInt32.le_iff_toNat_le]
    rfl
  by_cases hc : 65 ≤ c.toNat ∧ c.toNat ≤ 90
  · rw [if_pos hc, dif_pos (hiff.mpr hc)]
    show (c.val + 32).toNat = c.val.toNat + 32
    have hsmall : c.val.toNat ≤ 90 := hc.2
    rw [UInt32.toNat_add]
    exact Nat.mod_eq_of_lt (by show c.val.toNat + 32 < 2 ^ 32; omega)
  · rw [if_neg hc, dif_neg fun h => hc (hiff.mp h)]

/-- What is no letter is not the lower case of anything else. -/
theorem toLower_eq_iff {c d : Char} (hupper : ¬ (65 ≤ d.toNat ∧ d.toNat ≤ 90))
    (hlower : ¬ (97 ≤ d.toNat ∧ d.toNat ≤ 122)) : c.toLower = d ↔ c = d := by
  rw [← Char.toNat_inj, toNat_toLower, ← Char.toNat_inj]
  split
  · omega
  · rfl

/-! ## Authorities -/

def endsAuthority (c : Char) : Bool := c = '/' || c = '?' || c = '#'

def inScheme (c : Char) : Bool := c ≠ ':' && !endsAuthority c

/-- What follows the colon and the two slashes. -/
def afterSlashes (uri : Text) : Option Text :=
  match uri.dropWhile inScheme with
  | ':' :: '/' :: '/' :: rest => some rest
  | _ => none

def authority (uri : Text) : Option Text :=
  (afterSlashes uri).map fun rest => rest.takeWhile fun c => !endsAuthority c

/-- Path and query; the fragment is left out. -/
def pathAndQuery (uri : Text) : Option Text :=
  (afterSlashes uri).map fun rest =>
    (rest.dropWhile fun c => !endsAuthority c).takeWhile fun c => c ≠ '#'

/-- What stands after the last `mark`, all of it where there is none. -/
def afterLast (mark : Char) : Text → Text
  | [] => []
  | c :: rest =>
      if mark ∈ rest then afterLast mark rest
      else if c = mark then rest
      else c :: rest

/-- The host in front of a port; a host in brackets has colons of its own. -/
def dropPort (hostAndPort : Text) : Text :=
  if hostAndPort.head? = some '[' ∧ ']' ∈ hostAndPort then
    hostAndPort.takeWhile (· ≠ ']') ++ [']']
  else if hostAndPort.head? = some '[' then hostAndPort
  else hostAndPort.takeWhile (· ≠ ':')

def host (uri : Text) : Option Text :=
  (authority uri).map fun a => dropPort (afterLast '@' a)

def AfterAuthority (rest : Text) : Prop := ∀ c ∈ rest.head?, endsAuthority c = true

section

variable {scheme a b rest : Text} {mark : Char}

theorem afterSlashes_eq (hscheme : ∀ c ∈ scheme, inScheme c = true) :
    afterSlashes (scheme ++ "://".toList ++ rest) = some rest := by
  rw [afterSlashes, List.append_assoc, List.dropWhile_append_of_pos hscheme]
  rfl

theorem takeWhile_eq_nil (h : AfterAuthority rest) :
    rest.takeWhile (fun c => !endsAuthority c) = [] := by
  cases rest with
  | nil => rfl
  | cons c rest =>
      have hc : endsAuthority c = true := h c rfl
      simp [hc]

theorem dropWhile_eq_self (h : AfterAuthority rest) :
    rest.dropWhile (fun c => !endsAuthority c) = rest := by
  cases rest with
  | nil => rfl
  | cons c rest =>
      have hc : endsAuthority c = true := h c rfl
      simp [hc]

theorem afterAuthority_of_dropWhile {p : Char → Bool} (hp : ∀ c, p c = false → endsAuthority c)
    (text : Text) : AfterAuthority (text.dropWhile p) := by
  intro c hc
  have hnot := List.head?_dropWhile_not p text
  rw [Option.mem_def.mp hc] at hnot
  exact hp c (by simpa using hnot)

theorem authority_eq (hscheme : ∀ c ∈ scheme, inScheme c = true)
    (ha : ∀ c ∈ a, endsAuthority c = false) (hrest : AfterAuthority rest) :
    authority (scheme ++ "://".toList ++ (a ++ rest)) = some a := by
  rw [authority, afterSlashes_eq hscheme, Option.map_some,
    List.takeWhile_append_of_pos (fun c hc => by rw [ha c hc]; rfl), takeWhile_eq_nil hrest,
    List.append_nil]

theorem host_eq (hscheme : ∀ c ∈ scheme, inScheme c = true)
    (ha : ∀ c ∈ a, endsAuthority c = false) (hrest : AfterAuthority rest) :
    host (scheme ++ "://".toList ++ (a ++ rest)) = some (dropPort (afterLast '@' a)) := by
  rw [host, authority_eq hscheme ha hrest, Option.map_some]

/-- The host is read from the text up to the end of the authority. -/
theorem host_takeWhile (hscheme : ∀ c ∈ scheme, inScheme c = true) (rest : Text) :
    host (scheme ++ "://".toList ++ rest) =
      some (dropPort (afterLast '@' (rest.takeWhile fun c => !endsAuthority c))) := by
  rw [host, authority, afterSlashes_eq hscheme, Option.map_some, Option.map_some]

theorem pathAndQuery_eq (hscheme : ∀ c ∈ scheme, inScheme c = true)
    (ha : ∀ c ∈ a, endsAuthority c = false) (hrest : AfterAuthority rest) :
    pathAndQuery (scheme ++ "://".toList ++ (a ++ rest)) = some (rest.takeWhile (· ≠ '#')) := by
  rw [pathAndQuery, afterSlashes_eq hscheme, Option.map_some,
    List.dropWhile_append_of_pos (fun c hc => by rw [ha c hc]; rfl), dropWhile_eq_self hrest]

theorem afterLast_append_of_not_mem (h : mark ∉ b) :
    afterLast mark (a ++ b) = afterLast mark a ++ b := by
  induction a with
  | nil =>
      cases b with
      | nil => rfl
      | cons c rest =>
          rw [List.mem_cons, not_or] at h
          show afterLast mark (c :: rest) = c :: rest
          rw [afterLast, if_neg h.2, if_neg fun hc => h.1 hc.symm]
  | cons c rest ih =>
      have hiff : mark ∈ rest ++ b ↔ mark ∈ rest := by
        rw [List.mem_append, or_iff_left h]
      rw [List.cons_append, afterLast, afterLast]
      by_cases hmem : mark ∈ rest
      · rw [if_pos (hiff.mpr hmem), if_pos hmem, ih]
      · rw [if_neg (fun h => hmem (hiff.mp h)), if_neg hmem]
        split
        · rfl
        · rfl

theorem afterLast_subset (text : Text) : afterLast mark text ⊆ text := by
  induction text with
  | nil => exact List.Subset.refl _
  | cons c rest ih =>
      rw [afterLast]
      split
      · exact List.subset_cons_of_subset c ih
      · split
        · exact List.subset_cons_self c rest
        · exact List.Subset.refl _

/-- A port is dropped, unless the colon stands in brackets that are still open. -/
theorem dropPort_append_port (hcolon : ':' ∉ a) (hclosed : a.head? = some '[' → ']' ∈ a)
    (port : Text) : dropPort (a ++ ':' :: port) = dropPort a := by
  by_cases hbracket : a.head? = some '['
  · have hmem := hclosed hbracket
    have hhead : (a ++ ':' :: port).head? = some '[' := by
      rw [List.head?_append, hbracket]
      rfl
    have hstop : ¬ (a.takeWhile (· ≠ ']')).length = a.length := by
      intro hlength
      have hall := List.takeWhile_eq_self_iff.mp
        ((List.takeWhile_prefix _).eq_of_length hlength) _ hmem
      simp at hall
    rw [dropPort, if_pos ⟨hhead, List.mem_append_left _ hmem⟩, dropPort, if_pos ⟨hbracket, hmem⟩,
      List.takeWhile_append, if_neg hstop]
  · have hhead : (a ++ ':' :: port).head? ≠ some '[' := by
      rw [List.head?_append]
      cases ha : a.head? with
      | none => simp
      | some c =>
          rw [ha] at hbracket
          simpa using hbracket
    have hall : ∀ c ∈ a, decide (c ≠ ':') = true := fun c hc =>
      decide_eq_true fun heq => hcolon (heq ▸ hc)
    rw [dropPort, if_neg fun h => hhead h.1, if_neg hhead, dropPort, if_neg fun h => hbracket h.1,
      if_neg hbracket, List.takeWhile_append_of_pos hall, List.takeWhile_eq_self_iff.mpr hall]
    simp

end

end Uri
