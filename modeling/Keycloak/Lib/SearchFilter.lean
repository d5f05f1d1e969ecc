import Keycloak.Lib.Split
import Mathlib.Data.List.Basic

/-!
# Search filters as texts

The grammar of the string representation of search filters (RFC 4515) with the attribute
descriptions of RFC 4512.  The productions that nest are an inductive relation between a text, the
filter that is read at its start and what is left behind it; the others are functions.  A text is
read in one way at most.
-/

namespace SearchFilter

inductive FilterType
  | equal
  | approx
  | greaterOrEqual
  | lessOrEqual
  deriving DecidableEq, Repr

/-- A filter.  The values are bytes; an extensible match keeps the text in front of `:=`. -/
inductive Filter
  | and (filters : List Filter)
  | or (filters : List Filter)
  | not (filter : Filter)
  | simple (type : FilterType) (attr : List Char) (value : List UInt8)
  | present (attr : List Char)
  | substring (attr : List Char) (parts : List (List UInt8))
  | extensible (matcher : List Char) (value : List UInt8)

/-! ## Attribute descriptions -/

def isKeychar (c : Char) : Bool := c.isAlpha || c.isDigit || c == '-'

def isKeystring : List Char → Bool
  | [] => false
  | c :: rest => c.isAlpha && rest.all isKeychar

def isNumber : List Char → Bool
  | [] => false
  | [c] => c.isDigit
  | c :: rest => c.isDigit && c != '0' && rest.all Char.isDigit

def isNumericOid (text : List Char) : Bool :=
  let numbers := text.splitOn '.'
  numbers.length != 1 && numbers.all isNumber

def isOid (text : List Char) : Bool := isKeystring text || isNumericOid text

def isOption (text : List Char) : Bool := text != [] && text.all isKeychar

def isAttributeDescription (text : List Char) : Bool :=
  match text.splitOn ';' with
  | [] => false
  | oid :: options => isOid oid && options.all isOption

/-- The characters that attribute descriptions are made of. -/
def isDescriptionChar (c : Char) : Bool := isKeychar c || c == '.' || c == ';'

def isDnattrs (text : List Char) : Bool :=
  [['d', 'n'], ['d', 'N'], ['D', 'n'], ['D', 'N']].contains text

/-- What may stand in front of `:=`. -/
def isMatcher (text : List Char) : Bool :=
  match text.splitOn ':' with
  | [attr] => isAttributeDescription attr
  | [attr, rule] => (attr == [] || isAttributeDescription attr) && isOid rule
  | [attr, dnattrs, rule] =>
      (attr == [] || isAttributeDescription attr) && isDnattrs dnattrs && isOid rule
  | _ => false

/-! ## Values -/

def hexDigit (c : Char) : Option Nat :=
  if c.isDigit then some (c.toNat - 48)
  else if 'a' ≤ c ∧ c ≤ 'f' then some (c.toNat - 87)
  else if 'A' ≤ c ∧ c ≤ 'F' then some (c.toNat - 55)
  else none

/-- The characters that stand for themselves in a value. -/
def isNormal (c : Char) : Bool := !(c ∈ ['\x00', '(', ')', '*', '\\'])

def decodeValue : List Char → Option (List UInt8)
  | [] => some []
  | c :: rest =>
      if c = '\\' then
        match rest with
        | high :: low :: rest =>
            match hexDigit high, hexDigit low with
            | some h, some l => (decodeValue rest).map (UInt8.ofNat (16 * h + l) :: ·)
            | _, _ => none
        | _ => none
      else if isNormal c then (decodeValue rest).map (String.utf8EncodeChar c ++ ·)
      else none

/-! ## Filters -/

def simpleItem (type : FilterType) (attr value : List Char) : Option Filter :=
  if isAttributeDescription attr then (decodeValue value).map (.simple type attr) else none

/-- The item with the given texts around its equals sign.  An asterisk alone means presence. -/
def itemOf (left value : List Char) : Option Filter :=
  match left.getLast? with
  | some '~' => simpleItem .approx left.dropLast value
  | some '>' => simpleItem .greaterOrEqual left.dropLast value
  | some '<' => simpleItem .lessOrEqual left.dropLast value
  | some ':' =>
      if isMatcher left.dropLast then (decodeValue value).map (.extensible left.dropLast)
      else none
  | _ =>
      if isAttributeDescription left then
        match (value.splitOn '*').mapM decodeValue with
        | none => none
        | some [bytes] => some (.simple .equal left bytes)
        | some [[], []] => some (.present left)
        | some parts => some (.substring left parts)
      else none

/-- The item that a text without its parentheses stands for. -/
def item (text : List Char) : Option Filter :=
  match text.dropWhile (· ≠ '=') with
  | [] => none
  | _ :: value => itemOf (text.takeWhile (· ≠ '=')) value

mutual

/-- The filter stands at the start of the text, and the rest follows it. -/
inductive Reads : List Char → Filter → List Char → Prop
  | and {text rest : List Char} {filters : List Filter} :
      ReadsList text filters (')' :: rest) → Reads ('(' :: '&' :: text) (.and filters) rest
  | or {text rest : List Char} {filters : List Filter} :
      ReadsList text filters (')' :: rest) → Reads ('(' :: '|' :: text) (.or filters) rest
  | not {text rest : List Char} {filter : Filter} :
      Reads text filter (')' :: rest) → Reads ('(' :: '!' :: text) (.not filter) rest
  | item {text rest : List Char} {filter : Filter} :
      item text = some filter → Reads ('(' :: (text ++ ')' :: rest)) filter rest

inductive ReadsList : List Char → List Filter → List Char → Prop
  | one {text rest : List Char} {filter : Filter} :
      Reads text filter rest → ReadsList text [filter] rest
  | more {text rest rest' : List Char} {filter : Filter} {filters : List Filter} :
      Reads text filter rest → ReadsList rest filters rest' →
        ReadsList text (filter :: filters) rest'

end

/-- The text is well formed, and this is what it means. -/
def IsFilter (text : List Char) (filter : Filter) : Prop := Reads text filter []

/-! ## The characters of names and values -/

section

variable {c : Char} {text rest attr value : List Char} {bytes : List UInt8}

theorem isDescriptionChar_of_isOid (h : isOid text = true) (hc : c ∈ text) :
    isDescriptionChar c = true := by
  rw [isOid, Bool.or_eq_true] at h
  rcases h with h | h
  · cases text with
    | nil => cases hc
    | cons d rest =>
        rw [isKeystring, Bool.and_eq_true, List.all_eq_true] at h
        rcases List.mem_cons.mp hc with rfl | hc
        · simp [isDescriptionChar, isKeychar, h.1]
        · simp [isDescriptionChar, h.2 c hc]
  · rw [isNumericOid, Bool.and_eq_true, List.all_eq_true] at h
    rcases Split.exists_of_mem '.' hc with rfl | ⟨number, hnumber, hc⟩
    · rfl
    · have hdigit : c.isDigit = true := by
        have hnum := h.2 number hnumber
        unfold isNumber at hnum
        split at hnum
        · cases hnum
        · exact List.mem_singleton.mp hc ▸ hnum
        · simp only [Bool.and_eq_true, List.all_eq_true] at hnum
          rcases List.mem_cons.mp hc with rfl | hc
          · exact hnum.1.1
          · exact hnum.2 c hc
      simp [isDescriptionChar, isKeychar, hdigit]

theorem isDescriptionChar_of_mem (h : isAttributeDescription text = true) (hc : c ∈ text) :
    isDescriptionChar c = true := by
  unfold isAttributeDescription at h
  split at h
  · cases h
  · rename_i oid options hsplit
    rw [Bool.and_eq_true, List.all_eq_true] at h
    rcases Split.exists_of_mem ';' hc with rfl | ⟨piece, hpiece, hc⟩
    · rfl
    · rw [hsplit] at hpiece
      rcases List.mem_cons.mp hpiece with rfl | hpiece
      · exact isDescriptionChar_of_isOid h.1 hc
      · have hoption := h.2 piece hpiece
        rw [isOption, Bool.and_eq_true, List.all_eq_true] at hoption
        simp [isDescriptionChar, hoption.2 c hc]

theorem isDescriptionChar_of_isMatcher (h : isMatcher text = true) (hc : c ∈ text) :
    isDescriptionChar c = true ∨ c = ':' := by
  have hattr : ∀ {attr : List Char}, (attr == [] || isAttributeDescription attr) = true →
      c ∈ attr → isDescriptionChar c = true := by
    intro attr hattr hc
    rw [Bool.or_eq_true, beq_iff_eq] at hattr
    rcases hattr with rfl | hattr
    · cases hc
    · exact isDescriptionChar_of_mem hattr hc
  rcases Split.exists_of_mem ':' hc with rfl | ⟨piece, hpiece, hc⟩
  · exact .inr rfl
  refine .inl ?_
  unfold isMatcher at h
  split at h
  · rename_i attr hsplit
    rw [hsplit, List.mem_singleton] at hpiece
    exact isDescriptionChar_of_mem h (hpiece ▸ hc)
  · rename_i attr rule hsplit
    rw [Bool.and_eq_true] at h
    rw [hsplit, List.mem_cons, List.mem_singleton] at hpiece
    rcases hpiece with rfl | rfl
    · exact hattr h.1 hc
    · exact isDescriptionChar_of_isOid h.2 hc
  · rename_i attr dnattrs rule hsplit
    rw [Bool.and_eq_true, Bool.and_eq_true] at h
    rw [hsplit, List.mem_cons, List.mem_cons, List.mem_singleton] at hpiece
    rcases hpiece with rfl | rfl | rfl
    · exact hattr h.1.1 hc
    · have hchars : [['d', 'n'], ['d', 'N'], ['D', 'n'], ['D', 'N']].all
          (·.all isDescriptionChar) = true := by decide
      have hdn := List.all_eq_true.mp hchars _ (List.contains_iff_mem.mp h.1.2)
      exact List.all_eq_true.mp hdn c hc
    · exact isDescriptionChar_of_isOid h.2 hc
  · cases h

/-- Parentheses are not left as they are in a value, and neither are asterisks. -/
theorem not_special_of_decodeValue (h : decodeValue value = some bytes) (hc : c ∈ value) :
    c ≠ '(' ∧ c ≠ ')' ∧ c ≠ '*' := by
  have hhex : ∀ {d : Char} {n : Nat}, hexDigit d = some n → d ≠ '(' ∧ d ≠ ')' ∧ d ≠ '*' := by
    intro d n hd
    refine ⟨?_, ?_, ?_⟩ <;> rintro rfl <;> cases (show none = some n from hd)
  have hnormal : ∀ {d : Char}, isNormal d = true → d ≠ '(' ∧ d ≠ ')' ∧ d ≠ '*' := by
    intro d hd
    refine ⟨?_, ?_, ?_⟩ <;> rintro rfl <;> exact absurd hd (by decide)
  fun_induction decodeValue value generalizing bytes with
  | case1 => cases hc
  | case2 high low rest h l hlow hhigh ih =>
      obtain ⟨decoded, hdecoded, -⟩ := Option.map_eq_some_iff.mp h
      rcases List.mem_cons.mp hc with rfl | hc
      · decide
      rcases List.mem_cons.mp hc with rfl | hc
      · exact hhex hhigh
      rcases List.mem_cons.mp hc with rfl | hc
      · exact hhex hlow
      · exact ih hdecoded hc
  | case3 => cases h
  | case4 => cases h
  | case5 d rest hd hplain ih =>
      obtain ⟨decoded, hdecoded, -⟩ := Option.map_eq_some_iff.mp h
      rcases List.mem_cons.mp hc with rfl | hc
      · exact hnormal hplain
      · exact ih hdecoded hc
  | case6 => cases h

theorem decodeValue_cons (h : isNormal c = true) (rest : List Char) :
    decodeValue (c :: rest) = (decodeValue rest).map (String.utf8EncodeChar c ++ ·) := by
  have hne : c ≠ '\\' := by
    rintro rfl
    exact absurd h (by decide)
  rw [decodeValue.eq_def]
  dsimp only
  rw [if_neg hne, if_pos h]

theorem decodeValue_escape {high low : Char} {h l : Nat} (hhigh : hexDigit high = some h)
    (hlow : hexDigit low = some l) (rest : List Char) :
    decodeValue ('\\' :: high :: low :: rest) =
      (decodeValue rest).map (UInt8.ofNat (16 * h + l) :: ·) := by
  rw [decodeValue.eq_def]
  dsimp only
  rw [if_pos rfl, hhigh, hlow]

/-- A value is decoded piece by piece. -/
theorem decodeValue_append (h : decodeValue value = some bytes) (rest : List Char) :
    decodeValue (value ++ rest) = (decodeValue rest).map (bytes ++ ·) := by
  fun_induction decodeValue value generalizing bytes with
  | case1 =>
      cases h
      exact Option.map_id'.symm
  | case2 high low tail h' l hlow hhigh ih =>
      obtain ⟨decoded, hdecoded, rfl⟩ := Option.map_eq_some_iff.mp h
      rw [List.cons_append, List.cons_append, List.cons_append, decodeValue_escape hhigh hlow,
        ih hdecoded, Option.map_map]
      rfl
  | case3 => cases h
  | case4 => cases h
  | case5 d tail hd hplain ih =>
      obtain ⟨decoded, hdecoded, rfl⟩ := Option.map_eq_some_iff.mp h
      simp only [List.cons_append, decodeValue_cons hplain, ih hdecoded, Option.map_map,
        Function.comp_def, List.append_assoc]
  | case6 => cases h

theorem isNormal_of_isDescriptionChar (h : isDescriptionChar c = true) : isNormal c = true := by
  have hall : ['\x00', '(', ')', '*', '\\'].all (!isDescriptionChar ·) = true := by decide
  rw [isNormal, Bool.not_eq_true', decide_eq_false_iff_not]
  intro hspecial
  have hnot := List.all_eq_true.mp hall c hspecial
  rw [h] at hnot
  cases hnot

/-- Normal characters stand for their own bytes. -/
theorem decodeValue_of_isNormal (h : ∀ c ∈ value, isNormal c = true) :
    decodeValue value = some (value.flatMap String.utf8EncodeChar) := by
  induction value with
  | nil => rfl
  | cons c rest ih =>
      rw [decodeValue_cons (h c List.mem_cons_self),
        ih fun d hd => h d (List.mem_cons_of_mem c hd)]
      rfl

end

/-! ## Items -/

section

variable {filter : Filter} {text attr value rest : List Char} {bytes : List UInt8}

/-- What stands in front of the first equals sign of an item. -/
def isLeftChar (c : Char) : Bool := isDescriptionChar c || [':', '~', '<', '>'].contains c

theorem simpleItem_eq_some {type : FilterType} (h : simpleItem type attr value = some filter) :
    isAttributeDescription attr = true ∧ ∃ bytes, decodeValue value = some bytes := by
  unfold simpleItem at h
  split at h
  · rename_i hattr
    obtain ⟨bytes, hbytes, -⟩ := Option.map_eq_some_iff.mp h
    exact ⟨hattr, bytes, hbytes⟩
  · cases h

theorem isLeftChar_of_mem (h : isAttributeDescription attr = true) (c : Char) (hc : c ∈ attr) :
    isLeftChar c = true := by
  rw [isLeftChar, isDescriptionChar_of_mem h hc, Bool.true_or]

theorem isLeftChar_of_getLast? {left : List Char} {last : Char} (h : left.getLast? = some last)
    (hlast : isLeftChar last = true) (hinit : ∀ c ∈ left.dropLast, isLeftChar c = true) (c : Char)
    (hc : c ∈ left) : isLeftChar c = true := by
  rw [← List.dropLast_append_getLast? last h] at hc
  rcases List.mem_append.mp hc with hc | hc
  · exact hinit c hc
  · exact List.mem_singleton.mp hc ▸ hlast

theorem decoded_of_mapM {pieces : List (List Char)} {decoded : List (List UInt8)}
    (h : pieces.mapM decodeValue = some decoded) :
    ∀ piece ∈ pieces, ∃ bytes, decodeValue piece = some bytes := by
  induction pieces generalizing decoded with
  | nil => exact fun piece hpiece => nomatch hpiece
  | cons first rest ih =>
      rw [List.mapM_cons] at h
      obtain ⟨bytes, hbytes, h⟩ := Option.bind_eq_some_iff.mp h
      obtain ⟨others, hothers, -⟩ := Option.bind_eq_some_iff.mp h
      intro piece hpiece
      rcases List.mem_cons.mp hpiece with rfl | hpiece
      · exact ⟨bytes, hbytes⟩
      · exact ih hothers piece hpiece

theorem chars_of_itemOf {left : List Char} (h : itemOf left value = some filter) :
    (∀ c ∈ left, isLeftChar c = true) ∧ ∀ c ∈ value, c ≠ '(' ∧ c ≠ ')' := by
  have hdecoded : ∀ {chars : List Char}, (∃ bytes, decodeValue chars = some bytes) →
      ∀ c ∈ chars, c ≠ '(' ∧ c ≠ ')' := fun ⟨_, hbytes⟩ c hc =>
    have hspecial := not_special_of_decodeValue hbytes hc
    ⟨hspecial.1, hspecial.2.1⟩
  have hsimple : ∀ {type : FilterType} {last : Char}, left.getLast? = some last →
      isLeftChar last = true → simpleItem type left.dropLast value = some filter →
        (∀ c ∈ left, isLeftChar c = true) ∧ ∀ c ∈ value, c ≠ '(' ∧ c ≠ ')' := by
    intro type last hlast hchar h
    obtain ⟨hattr, hbytes⟩ := simpleItem_eq_some h
    exact ⟨isLeftChar_of_getLast? hlast hchar (isLeftChar_of_mem hattr), hdecoded hbytes⟩
  unfold itemOf at h
  split at h
  · exact hsimple ‹_› rfl h
  · exact hsimple ‹_› rfl h
  · exact hsimple ‹_› rfl h
  · rename_i hlast
    split at h
    · rename_i hmatcher
      obtain ⟨bytes, hbytes, -⟩ := Option.map_eq_some_iff.mp h
      refine ⟨isLeftChar_of_getLast? hlast rfl fun c hc => ?_, hdecoded ⟨bytes, hbytes⟩⟩
      rw [isLeftChar, Bool.or_eq_true]
      refine (isDescriptionChar_of_isMatcher hmatcher hc).imp_right ?_
      rintro rfl
      decide
    · cases h
  · split at h
    · rename_i hattr
      refine ⟨isLeftChar_of_mem hattr, fun c hc => ?_⟩
      cases hparts : (value.splitOn '*').mapM decodeValue with
      | none => simp [hparts] at h
      | some parts =>
          rcases Split.exists_of_mem '*' hc with rfl | ⟨piece, hpiece, hc⟩
          · decide
          · exact hdecoded (decoded_of_mapM hparts piece hpiece) c hc
    · cases h

theorem item_append {left : List Char} (hleft : '=' ∉ left) :
    item (left ++ '=' :: value) = itemOf left value := by
  have hall : ∀ c ∈ left, decide (c ≠ '=') = true := fun c hc =>
    decide_eq_true fun heq => hleft (heq ▸ hc)
  unfold item
  rw [List.dropWhile_append_of_pos hall, List.takeWhile_append_of_pos hall,
    List.dropWhile_cons_of_neg (by simp), List.takeWhile_cons_of_neg (by simp), List.append_nil]

theorem exists_left_of_item (h : item text = some filter) :
    ∃ left value, text = left ++ '=' :: value ∧ itemOf left value = some filter := by
  unfold item at h
  split at h
  · cases h
  · rename_i d value hdrop
    have hd : d = '=' := by
      have hhead := List.head?_dropWhile_not (· ≠ '=') text
      rw [hdrop] at hhead
      simpa using hhead
    subst hd
    refine ⟨text.takeWhile (· ≠ '='), value, ?_, h⟩
    rw [← hdrop, List.takeWhile_append_dropWhile]

/-- An item has no parentheses and does not start like a filter that nests others. -/
theorem chars_of_item (h : item text = some filter) :
    (∀ c ∈ text, c ≠ '(' ∧ c ≠ ')') ∧ text ≠ [] ∧
      ∀ c ∈ text.head?, c ≠ '&' ∧ c ≠ '|' ∧ c ≠ '!' := by
  obtain ⟨left, value, htext, hitem⟩ := exists_left_of_item h
  subst htext
  obtain ⟨hleft, hvalue⟩ := chars_of_itemOf hitem
  have hplain : ∀ c ∈ left, (c ≠ '(' ∧ c ≠ ')') ∧ c ≠ '&' ∧ c ≠ '|' ∧ c ≠ '!' := by
    intro c hc
    refine ⟨⟨?_, ?_⟩, ?_, ?_, ?_⟩ <;> rintro rfl <;> exact absurd (hleft _ hc) (by decide)
  refine ⟨fun c hc => ?_, by simp, fun c hc => ?_⟩
  · rcases List.mem_append.mp hc with hc | hc
    · exact (hplain c hc).1
    · rcases List.mem_cons.mp hc with rfl | hc
      · decide
      · exact hvalue c hc
  · cases left with
    | nil =>
        cases hc
        decide
    | cons d rest =>
        cases hc
        exact (hplain c List.mem_cons_self).2

/-- A value without asterisks is compared as a whole. -/
theorem item_equal (hattr : ∀ c ∈ attr, isDescriptionChar c = true)
    (hvalue : decodeValue value = some bytes) :
    item (attr ++ '=' :: value) =
      if isAttributeDescription attr then some (.simple .equal attr bytes) else none := by
  have hnot : ∀ c ∈ attr, c ≠ '=' ∧ c ≠ '~' ∧ c ≠ '>' ∧ c ≠ '<' ∧ c ≠ ':' := by
    intro c hc
    refine ⟨?_, ?_, ?_, ?_, ?_⟩ <;> rintro rfl <;> exact absurd (hattr _ hc) (by decide)
  have hlast : ∀ {c : Char}, attr.getLast? = some c → c ∈ attr := List.mem_of_getLast?
  have hstar : '*' ∉ value := fun hc => (not_special_of_decodeValue hvalue hc).2.2 rfl
  rw [item_append fun hc => (hnot _ hc).1 rfl]
  unfold itemOf
  split
  · exact absurd rfl (hnot _ (hlast ‹_›)).2.1
  · exact absurd rfl (hnot _ (hlast ‹_›)).2.2.1
  · exact absurd rfl (hnot _ (hlast ‹_›)).2.2.2.1
  · exact absurd rfl (hnot _ (hlast ‹_›)).2.2.2.2
  · rw [List.splitOn_eq_singleton hstar]
    simp [hvalue]

end

/-! ## One reading for every text -/

section

variable {filter filter' : Filter} {filters filters' : List Filter}
  {text chars rest rest' : List Char}

theorem Reads.exists_cons (h : Reads text filter rest) : ∃ tail, text = '(' :: tail := by
  cases h <;> exact ⟨_, rfl⟩

theorem ReadsList.exists_cons (h : ReadsList text filters rest) :
    ∃ tail, text = '(' :: tail := by
  cases h with
  | one h => exact h.exists_cons
  | more h => exact h.exists_cons

theorem item_ne_cons {op : Char} (hop : op = '&' ∨ op = '|' ∨ op = '!')
    (h : item chars = some filter) : chars ++ ')' :: rest ≠ op :: text := by
  obtain ⟨-, hne, hhead⟩ := chars_of_item h
  obtain ⟨c, chars, rfl⟩ := List.exists_cons_of_ne_nil hne
  intro heq
  rw [List.cons_append] at heq
  obtain ⟨rfl, -⟩ := List.cons.inj heq
  obtain ⟨hand, hor, hnot⟩ := hhead c rfl
  rcases hop with hop | hop | hop
  · exact hand hop
  · exact hor hop
  · exact hnot hop

theorem append_close_inj {a b : List Char} (ha : ')' ∉ a) (hb : ')' ∉ b)
    (h : a ++ ')' :: rest = b ++ ')' :: rest') : a = b ∧ rest = rest' := by
  induction a generalizing b with
  | nil =>
      cases b with
      | nil => exact ⟨rfl, (List.cons.inj h).2⟩
      | cons d b => exact absurd ((List.cons.inj h).1 ▸ List.mem_cons_self) hb
  | cons c a ih =>
      cases b with
      | nil => exact absurd ((List.cons.inj h).1 ▸ List.mem_cons_self) ha
      | cons d b =>
          obtain ⟨rfl, htail⟩ := List.cons.inj h
          obtain ⟨rfl, hrest⟩ := ih (fun hc => ha (List.mem_cons_of_mem _ hc))
            (fun hc => hb (List.mem_cons_of_mem _ hc)) htail
          exact ⟨rfl, hrest⟩

theorem close_not_mem_of_item (h : item chars = some filter) : ')' ∉ chars := fun hc =>
  ((chars_of_item h).1 _ hc).2 rfl

/-- A text without the signs of nesting is an item up to the next closing parenthesis. -/
theorem item_of_reads (h : Reads ('(' :: (chars ++ ')' :: rest)) filter rest')
    (hclose : ')' ∉ chars) (hhead : ∀ c ∈ chars.head?, c ≠ '&' ∧ c ≠ '|' ∧ c ≠ '!') :
    item chars = some filter ∧ rest' = rest := by
  have hop : ∀ {op : Char} {tail : List Char}, op = '&' ∨ op = '|' ∨ op = '!' →
      '(' :: (chars ++ ')' :: rest) ≠ '(' :: op :: tail := by
    rintro op tail hop heq
    cases chars with
    | nil =>
        obtain ⟨rfl, -⟩ := List.cons.inj (List.cons.inj heq).2
        exact absurd hop (by decide)
    | cons c chars =>
        obtain ⟨rfl, -⟩ := List.cons.inj (List.cons.inj heq).2
        obtain ⟨hand, hor, hnot⟩ := hhead c rfl
        rcases hop with hop | hop | hop
        · exact hand hop
        · exact hor hop
        · exact hnot hop
  generalize hwhole : '(' :: (chars ++ ')' :: rest) = whole at h
  cases h with
  | and => exact absurd hwhole (hop (.inl rfl))
  | or => exact absurd hwhole (hop (.inr (.inl rfl)))
  | not => exact absurd hwhole (hop (.inr (.inr rfl)))
  | item hitem =>
      obtain ⟨rfl, rfl⟩ :=
        append_close_inj hclose (close_not_mem_of_item hitem) (List.cons.inj hwhole).2
      exact ⟨hitem, rfl⟩

/-- No filter starts with two opening parentheses, or is empty between its parentheses. -/
theorem not_reads_paren {c : Char} (hc : c = '(' ∨ c = ')') :
    ¬ Reads ('(' :: c :: text) filter rest := by
  intro h
  generalize hwhole : '(' :: c :: text = whole at h
  cases h with
  | and => rcases hc with rfl | rfl <;> cases hwhole
  | or => rcases hc with rfl | rfl <;> cases hwhole
  | not => rcases hc with rfl | rfl <;> cases hwhole
  | item hitem =>
      obtain ⟨hparens, hne, -⟩ := chars_of_item hitem
      obtain ⟨d, chars, rfl⟩ := List.exists_cons_of_ne_nil hne
      obtain ⟨rfl, -⟩ := List.cons.inj (List.cons.inj hwhole).2
      obtain ⟨hopen, hclose⟩ := hparens c List.mem_cons_self
      exact hc.elim hopen hclose

theorem reads_and (h : Reads ('(' :: '&' :: text) filter rest) :
    ∃ filters, filter = .and filters ∧ ReadsList text filters (')' :: rest) := by
  generalize hwhole : '(' :: '&' :: text = whole at h
  cases h with
  | and h =>
      cases hwhole
      exact ⟨_, rfl, h⟩
  | or => cases hwhole
  | not => cases hwhole
  | item hitem => exact absurd (List.cons.inj hwhole).2.symm (item_ne_cons (.inl rfl) hitem)

theorem reads_or (h : Reads ('(' :: '|' :: text) filter rest) :
    ∃ filters, filter = .or filters ∧ ReadsList text filters (')' :: rest) := by
  generalize hwhole : '(' :: '|' :: text = whole at h
  cases h with
  | and => cases hwhole
  | or h =>
      cases hwhole
      exact ⟨_, rfl, h⟩
  | not => cases hwhole
  | item hitem =>
      exact absurd (List.cons.inj hwhole).2.symm (item_ne_cons (.inr (.inl rfl)) hitem)

theorem reads_not (h : Reads ('(' :: '!' :: text) filter rest) :
    ∃ inner, filter = .not inner ∧ Reads text inner (')' :: rest) := by
  generalize hwhole : '(' :: '!' :: text = whole at h
  cases h with
  | and => cases hwhole
  | or => cases hwhole
  | not h =>
      cases hwhole
      exact ⟨_, rfl, h⟩
  | item hitem =>
      exact absurd (List.cons.inj hwhole).2.symm (item_ne_cons (.inr (.inr rfl)) hitem)

/-- A text starts with one filter at most, and it ends in one place. -/
theorem Reads.determined (h : Reads text filter rest) :
    ∀ filter' rest', Reads text filter' rest' → filter = filter' ∧ rest = rest' := by
  -- the lists are read up to a closing parenthesis, where no further filter starts
  refine @Reads.rec
    (fun text filter rest _ =>
      ∀ filter' rest', Reads text filter' rest' → filter = filter' ∧ rest = rest')
    (fun text filters rest _ => ∀ behind, rest = ')' :: behind → ∀ filters' behind',
      ReadsList text filters' (')' :: behind') → filters = filters' ∧ behind = behind')
    ?and ?or ?not ?item ?one ?more text filter rest h
  case and =>
    intro text rest filters _ ih filter' rest' h'
    obtain ⟨filters', rfl, hlist⟩ := reads_and h'
    obtain ⟨rfl, rfl⟩ := ih _ rfl _ _ hlist
    exact ⟨rfl, rfl⟩
  case or =>
    intro text rest filters _ ih filter' rest' h'
    obtain ⟨filters', rfl, hlist⟩ := reads_or h'
    obtain ⟨rfl, rfl⟩ := ih _ rfl _ _ hlist
    exact ⟨rfl, rfl⟩
  case not =>
    intro text rest filter _ ih filter' rest' h'
    obtain ⟨inner, rfl, hinner⟩ := reads_not h'
    obtain ⟨rfl, hrest⟩ := ih _ _ hinner
    exact ⟨rfl, (List.cons.inj hrest).2⟩
  case item =>
    intro chars rest filter hitem filter' rest' h'
    obtain ⟨hitem', rfl⟩ :=
      item_of_reads h' (close_not_mem_of_item hitem) (chars_of_item hitem).2.2
    exact ⟨Option.some.inj (hitem.symm.trans hitem'), rfl⟩
  case one =>
    intro text rest filter _ ih behind hbehind filters' behind' h'
    cases h' with
    | one h' =>
        obtain ⟨rfl, hrest⟩ := ih _ _ h'
        exact ⟨rfl, (List.cons.inj (hbehind.symm.trans hrest)).2⟩
    | more h' hmore =>
        obtain ⟨-, rfl⟩ := ih _ _ h'
        obtain ⟨tail, htail⟩ := hmore.exists_cons
        cases hbehind.symm.trans htail
  case more =>
    intro text rest rest' filter filters _ hlist ih ihlist behind hbehind filters' behind' h'
    cases h' with
    | one h' =>
        obtain ⟨-, rfl⟩ := ih _ _ h'
        obtain ⟨tail, htail⟩ := hlist.exists_cons
        cases htail
    | more h' hmore =>
        obtain ⟨rfl, rfl⟩ := ih _ _ h'
        obtain ⟨rfl, hrest⟩ := ihlist _ hbehind _ _ hmore
        exact ⟨rfl, hrest⟩

/-- What the text means is the only thing it means. -/
theorem isFilter_unique (h : IsFilter text filter) (h' : IsFilter text filter') :
    filter = filter' := (Reads.determined h _ _ h').1

theorem reads_equal {attr value : List Char} {bytes : List UInt8}
    (hattr : isAttributeDescription attr = true) (hvalue : decodeValue value = some bytes)
    (rest : List Char) :
    Reads ('(' :: (attr ++ '=' :: value ++ ')' :: rest)) (.simple .equal attr bytes) rest := by
  refine .item ?_
  rw [item_equal (fun c hc => isDescriptionChar_of_mem hattr hc) hvalue, if_pos hattr]

/-- Only a description can stand in front of the equals sign. -/
theorem isAttributeDescription_of_reads {attr value : List Char} {bytes : List UInt8}
    (hattr : ∀ c ∈ attr, isDescriptionChar c = true) (hvalue : decodeValue value = some bytes)
    (h : Reads ('(' :: (attr ++ '=' :: value ++ ')' :: rest)) filter rest') :
    isAttributeDescription attr = true := by
  have hclose : ')' ∉ attr ++ '=' :: value := by
    rw [List.mem_append, List.mem_cons, not_or, not_or]
    refine ⟨fun hc => absurd (hattr _ hc) (by decide), by decide, fun hc => ?_⟩
    exact (not_special_of_decodeValue hvalue hc).2.1 rfl
  have hhead : ∀ c ∈ (attr ++ '=' :: value).head?, c ≠ '&' ∧ c ≠ '|' ∧ c ≠ '!' := by
    intro c hc
    cases attr with
    | nil =>
        cases hc
        decide
    | cons d attr =>
        cases hc
        have hd := hattr c List.mem_cons_self
        refine ⟨?_, ?_, ?_⟩ <;> rintro rfl <;> exact absurd hd (by decide)
  obtain ⟨hitem, -⟩ := item_of_reads h hclose hhead
  rw [item_equal hattr hvalue] at hitem
  by_contra hnot
  rw [if_neg hnot] at hitem
  cases hitem

/-- Filters one after the other are read one after the other. -/
theorem ReadsList.flatMap_append {α : Type*} {print : α → List Char} {meaning : α → Filter}
    {xs : List α} (hxs : ∀ x ∈ xs, ∀ rest, Reads (print x ++ rest) (meaning x) rest)
    (h : ReadsList rest filters rest') :
    ReadsList (xs.flatMap print ++ rest) (xs.map meaning ++ filters) rest' := by
  induction xs with
  | nil => exact h
  | cons x xs ih =>
      rw [List.flatMap_cons, List.append_assoc]
      exact .more (hxs x List.mem_cons_self _) (ih fun y hy => hxs y (List.mem_cons_of_mem x hy))

theorem readsList_flatMap {α : Type*} {print : α → List Char} {meaning : α → Filter}
    {xs : List α} (hxs : ∀ x ∈ xs, ∀ rest, Reads (print x ++ rest) (meaning x) rest)
    (hne : xs ≠ []) (rest : List Char) :
    ReadsList (xs.flatMap print ++ rest) (xs.map meaning) rest := by
  obtain ⟨init, last, rfl⟩ := (List.eq_nil_or_concat' xs).resolve_left hne
  rw [List.flatMap_append, List.flatMap_singleton, List.append_assoc, List.map_append]
  refine ReadsList.flatMap_append (fun x hx => hxs x (List.mem_append_left _ hx)) ?_
  exact .one (hxs last List.mem_concat_self rest)

end

end SearchFilter
