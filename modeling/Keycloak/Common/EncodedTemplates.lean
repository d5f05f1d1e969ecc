import Keycloak.Common.LenientEncoding

/-!
# Template parameters in encoded texts

A text is taken apart at its template parameters; the encoding of the text has the same
parameters, unless a piece between them has the text that marks a parameter, or a parameter
has one of the control characters that stand for braces.
-/

namespace Keycloak.Common.Encode

/-! ## The template parameters of a text -/

/-- How many braces are open behind a character. -/
def depth (opened : Int) (c : Nat) : Int :=
  if c = openBrace then opened + 1 else if c = closeBrace then opened - 1 else opened

/-- The template parameters of a text: a brace that opens where none is open, up to the brace
that closes it, with something between the two. -/
def templatesFrom : Option Text → Int → Text → Pieces
  | none, _, [] => ([], [])
  | some group, _, [] => (openBrace :: group, [])
  | none, opened, c :: rest =>
      if c = openBrace ∧ opened = 0 then templatesFrom (some []) 1 rest
      else (templatesFrom none (depth opened c) rest).prepend [c]
  | some group, opened, c :: rest =>
      if c = closeBrace ∧ opened = 1 then
        if group = [] then (templatesFrom none 0 rest).prepend [openBrace, closeBrace]
        else
          let pieces := templatesFrom none 0 rest
          ([], (openBrace :: group ++ [closeBrace], pieces.1) :: pieces.2)
      else templatesFrom (some (group ++ [c])) (depth opened c) rest

def templates (text : Text) : Pieces := templatesFrom none 0 text

def Pieces.map (f : Nat → Nat) (pieces : Pieces) : Pieces :=
  (pieces.1.map f, pieces.2.map fun x => (x.1.map f, x.2.map f))

theorem join_prepend (text : Text) (pieces : Pieces) :
    Marker.join (pieces.prepend text).1 (pieces.prepend text).2 =
      text ++ Marker.join pieces.1 pieces.2 := by
  simp [Pieces.prepend, Marker.join]

/-- The text with the open brace and the group in front of it. -/
def opening : Option Text → Text
  | none => []
  | some group => openBrace :: group

theorem join_templatesFrom (group : Option Text) (opened : Int) (text : Text) :
    Marker.join (templatesFrom group opened text).1 (templatesFrom group opened text).2 =
      opening group ++ text := by
  induction text generalizing group opened with
  | nil =>
      cases group <;> simp [templatesFrom, Marker.join, opening]
  | cons c text ih =>
      cases group with
      | none =>
          rw [templatesFrom]
          split_ifs with hc
          · rw [ih, hc.1]
            rfl
          · rw [join_prepend, ih]
            rfl
      | some group =>
          rw [templatesFrom]
          split_ifs with hc hgroup
          · rw [join_prepend, ih, hc.1, hgroup]
            rfl
          · have hrest := ih none 0
            rw [opening, List.nil_append] at hrest
            rw [Marker.join_cons, hrest, hc.1, opening]
            simp
          · rw [ih, opening, opening]
            simp

theorem join_templates (text : Text) :
    Marker.join (templates text).1 (templates text).2 = text := join_templatesFrom none 0 text

example : templates (units "a\x7bb:\x7bc\x7d\x7d\x7b\x7dd".toList) =
    (units ['a'], [(units "\x7bb:\x7bc\x7d\x7d".toList, units "\x7b\x7dd".toList)]) := by
  decide

/-! ## The matches in the text with replaced braces -/

theorem map_prepend (f : Nat → Nat) (text : Text) (pieces : Pieces) :
    (pieces.prepend text).map f = (pieces.map f).prepend (text.map f) := by
  simp [Pieces.prepend, Pieces.map]

theorem map_template (f : Nat → Nat) (group : Text) (pieces : Pieces) :
    Pieces.map f ([], (openBrace :: group ++ [closeBrace], pieces.1) :: pieces.2) =
      ([], ((openBrace :: group ++ [closeBrace]).map f, (pieces.map f).1) :: (pieces.map f).2) :=
  rfl

theorem matchTemplates_replaceFrom (text : Text) :
    (∀ opened : Int, (matchTemplates none (replaceFrom opened text)).map recover =
      (templatesFrom none opened text).map recover) ∧
    ∀ (opened : Int) (group group' : Text), 1 ≤ opened → group.map recover = group'.map recover →
      (matchTemplates (some group) (replaceFrom opened text)).map recover =
        (templatesFrom (some group') opened text).map recover := by
  induction text with
  | nil =>
      refine ⟨fun _ => rfl, fun opened group group' _ hgroup => ?_⟩
      simp [replaceFrom, matchTemplates, templatesFrom, Pieces.map, hgroup]
  | cons c text ih =>
      obtain ⟨ihOut, ihIn⟩ := ih
      constructor
      · intro opened
        rw [replaceFrom]
        by_cases hopen : c = openBrace
        · by_cases hzero : opened = 0
          · rw [if_pos hopen, if_neg (not_not.mpr hzero), hopen, matchTemplates, if_pos rfl,
              templatesFrom, if_pos ⟨rfl, hzero⟩, hzero]
            exact ihIn 1 [] [] (Int.le_refl 1) rfl
          · rw [if_pos hopen, if_pos hzero, matchTemplates, if_neg (by decide), templatesFrom,
              if_neg fun h => hzero h.2, map_prepend, map_prepend, ihOut, depth, if_pos hopen,
              hopen]
            rfl
        · rw [if_neg hopen]
          by_cases hclose : c = closeBrace
          · have hreplaced : ∀ x, x = closeCurlyReplacement ∨ x = c →
                (matchTemplates none (x :: replaceFrom (opened - 1) text)).map recover =
                  (templatesFrom none opened (c :: text)).map recover := by
              intro x hx
              have hne : x ≠ openBrace := by
                rcases hx with rfl | rfl
                · decide
                · exact hopen
              have hsame : [x].map recover = [c].map recover := by
                rcases hx with rfl | rfl
                · rw [hclose]
                  rfl
                · rfl
              rw [matchTemplates, if_neg hne, templatesFrom, if_neg fun h => hopen h.1, map_prepend,
                map_prepend, ihOut, depth, if_neg hopen, if_pos hclose, hsame]
            rw [if_pos hclose]
            split_ifs
            · exact hreplaced _ (.inl rfl)
            · exact hreplaced _ (.inr rfl)
          · rw [if_neg hclose, matchTemplates, if_neg hopen, templatesFrom,
              if_neg fun h => hopen h.1, map_prepend, map_prepend, ihOut, depth, if_neg hopen,
              if_neg hclose]
      · intro opened group group' hle hgroup
        have happend : ∀ {x y : Nat}, recover x = recover y →
            (group ++ [x]).map recover = (group' ++ [y]).map recover := by
          intro x y hxy
          rw [List.map_append, List.map_append, hgroup, List.map_singleton, List.map_singleton, hxy]
        rw [replaceFrom]
        by_cases hopen : c = openBrace
        · have hne : c ≠ closeBrace := by
            rw [hopen]
            decide
          rw [if_pos hopen, if_pos (by omega), matchTemplates, if_neg (by decide), templatesFrom,
            if_neg fun h => hne h.1, depth, if_pos hopen]
          exact ihIn (opened + 1) _ _ (by omega) (happend (by rw [hopen]; rfl))
        · rw [if_neg hopen]
          by_cases hclose : c = closeBrace
          · by_cases hone : opened = 1
            · have hempty : group = [] ↔ group' = [] := by
                rw [← List.map_eq_nil_iff (f := recover), hgroup, List.map_eq_nil_iff]
              have hout : (matchTemplates none (replaceFrom (opened - 1) text)).map recover =
                  (templatesFrom none 0 text).map recover := by
                rw [hone]
                exact ihOut 0
              have hend : templatesFrom (some group') opened (c :: text) =
                  if group' = [] then
                    (templatesFrom none 0 text).prepend [openBrace, closeBrace]
                  else ([], (openBrace :: group' ++ [closeBrace], (templatesFrom none 0 text).1) ::
                    (templatesFrom none 0 text).2) := by
                rw [templatesFrom, if_pos (And.intro hclose hone)]
              have hreplaced : ¬ (opened - 1 ≠ 0) := by omega
              rw [hend, if_pos hclose, if_neg hreplaced, matchTemplates, if_pos hclose]
              by_cases hnil : group = []
              · rw [if_pos hnil, if_pos (hempty.mp hnil), map_prepend, map_prepend, hout]
              · have hcons : (openBrace :: group ++ [closeBrace]).map recover =
                    (openBrace :: group' ++ [closeBrace]).map recover := by
                  simp only [List.map_cons, List.map_append, hgroup]
                rw [if_neg hnil, if_neg fun h => hnil (hempty.mpr h), map_template, map_template,
                  hout, hcons]
            · rw [if_pos hclose, if_pos (by omega), matchTemplates, if_neg (by decide),
                templatesFrom, if_neg fun h => hone h.2, depth, if_neg hopen, if_pos hclose]
              exact ihIn (opened - 1) _ _ (by omega) (happend (by rw [hclose]; rfl))
          · rw [if_neg hclose, matchTemplates, if_neg hclose, templatesFrom,
              if_neg fun h => hclose h.1, depth, if_neg hopen, if_neg hclose]
            exact ihIn opened _ _ hle (happend rfl)

/-! ## Reading a text back -/

/-- The count of open braces behind a group, none if a brace in it ends the parameter. -/
def inside : Int → Text → Option Int
  | opened, [] => some opened
  | opened, c :: rest =>
      if c = closeBrace ∧ opened = 1 then none else inside (depth opened c) rest

/-- A text with braces around it that belong together. -/
def IsTemplate (template : Text) : Prop :=
  ∃ group, template = openBrace :: group ++ [closeBrace] ∧ group ≠ [] ∧ inside 1 group = some 1

def Unbraced (text : Text) : Prop := openBrace ∉ text ∧ closeBrace ∉ text

theorem inside_append_singleton {opened final : Int} {group : Text} {c : Nat}
    (h : inside opened group = some final) (hc : ¬ (c = closeBrace ∧ final = 1)) :
    inside opened (group ++ [c]) = some (depth final c) := by
  induction group generalizing opened with
  | nil =>
      cases h
      rw [List.nil_append, inside, if_neg hc]
      rfl
  | cons x group ih =>
      rw [inside] at h
      split_ifs at h with hx
      rw [List.cons_append, inside, if_neg hx]
      exact ih h

theorem templatesFrom_inside {opened final : Int} {inner : Text}
    (h : inside opened inner = some final) (group rest : Text) :
    templatesFrom (some group) opened (inner ++ rest) =
      templatesFrom (some (group ++ inner)) final rest := by
  induction inner generalizing opened group with
  | nil =>
      cases h
      rw [List.nil_append, List.append_nil]
  | cons c inner ih =>
      rw [inside] at h
      split_ifs at h with hc
      rw [List.cons_append, templatesFrom, if_neg hc, ih h, List.append_assoc,
        List.singleton_append]

theorem isTemplate_of_mem_templatesFrom (text : Text) :
    (∀ opened : Int, ∀ x ∈ (templatesFrom none opened text).2, IsTemplate x.1) ∧
      ∀ (opened : Int) (group : Text), inside 1 group = some opened →
        ∀ x ∈ (templatesFrom (some group) opened text).2, IsTemplate x.1 := by
  induction text with
  | nil => exact ⟨fun _ x hx => absurd hx List.not_mem_nil,
      fun _ _ _ x hx => absurd hx List.not_mem_nil⟩
  | cons c text ih =>
      obtain ⟨ihOut, ihIn⟩ := ih
      constructor
      · intro opened x hx
        rw [templatesFrom] at hx
        split_ifs at hx with hc
        · exact ihIn 1 [] rfl x hx
        · exact ihOut _ x hx
      · intro opened group hgroup x hx
        rw [templatesFrom] at hx
        split_ifs at hx with hc hnil
        · exact ihOut 0 x hx
        · rcases List.mem_cons.mp hx with rfl | hx
          · exact ⟨group, rfl, hnil, by rw [hgroup, hc.2]⟩
          · exact ihOut 0 x hx
        · exact ihIn _ _ (inside_append_singleton hgroup hc) x hx

theorem isTemplate_of_mem_templates {text : Text} {x : Text × Text}
    (h : x ∈ (templates text).2) : IsTemplate x.1 :=
  (isTemplate_of_mem_templatesFrom text).1 0 x h

theorem templatesFrom_unbraced {text : Text} (h : Unbraced text) (rest : Text) :
    templatesFrom none 0 (text ++ rest) = (templatesFrom none 0 rest).prepend text := by
  induction text with
  | nil => rfl
  | cons c text ih =>
      have hopen : c ≠ openBrace := fun heq => h.1 (heq ▸ List.mem_cons_self)
      have hclose : c ≠ closeBrace := fun heq => h.2 (heq ▸ List.mem_cons_self)
      have htext : Unbraced text :=
        ⟨fun hmem => h.1 (List.mem_cons_of_mem c hmem),
          fun hmem => h.2 (List.mem_cons_of_mem c hmem)⟩
      rw [List.cons_append, templatesFrom, if_neg fun hc => hopen hc.1, depth, if_neg hopen,
        if_neg hclose, ih htext]
      rfl

theorem templatesFrom_template {template : Text} (h : IsTemplate template) (rest : Text) :
    templatesFrom none 0 (template ++ rest) =
      ([], (template, (templatesFrom none 0 rest).1) :: (templatesFrom none 0 rest).2) := by
  obtain ⟨group, rfl, hne, hinside⟩ := h
  rw [List.append_assoc, List.cons_append, templatesFrom, if_pos ⟨rfl, rfl⟩,
    templatesFrom_inside hinside, List.nil_append, List.singleton_append, templatesFrom,
    if_pos ⟨rfl, rfl⟩, if_neg hne]

theorem templates_join {head : Text} {tail : List (Text × Text)} (hhead : Unbraced head)
    (htail : ∀ x ∈ tail, IsTemplate x.1 ∧ Unbraced x.2) :
    templates (Marker.join head tail) = (head, tail) := by
  induction tail generalizing head with
  | nil =>
      have hread := templatesFrom_unbraced hhead []
      simpa [Marker.join, templates, templatesFrom, Pieces.prepend] using hread
  | cons x tail ih =>
      obtain ⟨hx, htail⟩ := List.forall_mem_cons.mp htail
      have hread : templatesFrom none 0 (Marker.join x.2 tail) = (x.2, tail) := ih hx.2 htail
      rw [Marker.join_cons, templates, templatesFrom_unbraced hhead, templatesFrom_template hx.1,
        hread]
      simp [Pieces.prepend]

end Keycloak.Common.Encode
