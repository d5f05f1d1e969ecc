import Keycloak.Lib.Split
import Keycloak.Lib.Utf16
import Mathlib.Data.List.Lex
import Mathlib.Data.Prod.Lex
import Mathlib.Order.WithBot
import Mathlib.Order.Lattice.Nat

/-!
# Versions of the data model and their order

Parsing, printing and comparing of versions, and the choice of the migrations that run
for a stored version.
-/

namespace Keycloak.Migration

abbrev Text := List Char

/-! ## Integers as texts -/

/-- `Integer.parseInt`, for digits of the basic Latin alphabet; `none` when it throws. -/
def parseDigits (digits : Text) : Option Nat :=
  if digits ≠ [] ∧ digits.all Char.isDigit then some (Nat.ofDigitChars 10 digits 0) else none

def inRange (n : Int) : Option Int32 :=
  if -2 ^ 31 ≤ n ∧ n < 2 ^ 31 then some (Int32.ofInt n) else none

def parseInt : Text → Option Int32
  | '-' :: digits => (parseDigits digits).bind fun n => inRange (-n)
  | '+' :: digits => (parseDigits digits).bind fun n => inRange n
  | digits => (parseDigits digits).bind fun n => inRange n

def printInt (n : Int32) : Text :=
  if n.toInt < 0 then '-' :: Nat.toDigits 10 n.toInt.natAbs
  else Nat.toDigits 10 n.toInt.natAbs

theorem parseDigits_toDigits (n : Nat) : parseDigits (Nat.toDigits 10 n) = some n := by
  have hdigits : (Nat.toDigits 10 n).all Char.isDigit = true := by
    rw [List.all_eq_true]
    exact fun c hc => Nat.isDigit_of_mem_toDigits (by omega) (by omega) hc
  rw [parseDigits, if_pos ⟨Nat.toDigits_ne_nil, hdigits⟩, Nat.ofDigitChars_ten_toDigits]

theorem inRange_toInt (n : Int32) : inRange n.toInt = some n := by
  rw [inRange, if_pos ⟨n.le_toInt, n.toInt_lt⟩, Int32.ofInt_toInt]

theorem parseInt_printInt (n : Int32) : parseInt (printInt n) = some n := by
  unfold printInt
  split
  · rename_i hneg
    have habs : -(n.toInt.natAbs : Int) = n.toInt := by omega
    rw [parseInt, parseDigits_toDigits, Option.bind_some, habs, inRange_toInt]
  · rename_i hpos
    have habs : (n.toInt.natAbs : Int) = n.toInt := by omega
    obtain ⟨c, rest, hcons⟩ := List.exists_cons_of_ne_nil
      (Nat.toDigits_ne_nil (n := n.toInt.natAbs) (b := 10))
    have hdigit : c.isDigit := Nat.isDigit_of_mem_toDigits (b := 10) (by omega) (by omega)
      (hcons ▸ List.mem_cons_self)
    have hparse : parseInt (Nat.toDigits 10 n.toInt.natAbs) =
        (parseDigits (Nat.toDigits 10 n.toInt.natAbs)).bind fun n => inRange n := by
      rw [hcons]
      unfold parseInt
      split
      · rename_i h
        cases h
        exact absurd hdigit (by decide)
      · rename_i h
        cases h
        exact absurd hdigit (by decide)
      · rfl
    rw [hparse, parseDigits_toDigits, Option.bind_some, habs, inRange_toInt]

theorem dot_not_mem_printInt (n : Int32) : '.' ∉ printInt n := by
  have hdigits : '.' ∉ Nat.toDigits 10 n.toInt.natAbs := by
    intro h
    exact absurd (Nat.isDigit_of_mem_toDigits (by omega) (by omega) h) (by decide)
  unfold printInt
  split
  · simpa using hdigits
  · exact hdigits

theorem printInt_ne_nil (n : Int32) : printInt n ≠ [] := by
  unfold printInt
  split
  · simp
  · exact Nat.toDigits_ne_nil

/-! ## Versions -/

structure ModelVersion where
  major : Int32
  minor : Int32
  micro : Int32
  qualifier : Option Text
  deriving DecidableEq, Repr

/-- The constructor of a text.  A number that is not one leaves its field and those after it
at their defaults. -/
def ModelVersion.ofString (version : Text) : ModelVersion :=
  match Split.split '.' version with
  | [] => ⟨0, 0, 0, none⟩
  | part0 :: rest =>
      match parseInt part0 with
      | none => ⟨0, 0, 0, none⟩
      | some major =>
          match rest with
          | [] => ⟨major, 0, 0, none⟩
          | part1 :: rest =>
              match parseInt part1 with
              | none => ⟨major, 0, 0, none⟩
              | some minor =>
                  match rest with
                  | [] => ⟨major, minor, 0, none⟩
                  | part2 :: rest =>
                      match parseInt part2 with
                      | none => ⟨major, minor, 0, none⟩
                      | some micro => ⟨major, minor, micro, rest.head?⟩

def ModelVersion.toText (v : ModelVersion) : Text :=
  ['.'].intercalate [printInt v.major, printInt v.minor, printInt v.micro]

/-- `qualifier.compareTo(version.qualifier) < 0`. -/
def compareToNegative (qualifier qualifier' : Text) : Bool :=
  decide (Utf16.encode qualifier < Utf16.encode qualifier')

/-- The end of `lessThan`, where the numbers have not decided. -/
def qualifierLessThan : Option Text → Option Text → Bool
  | none, _ => false
  | some _, none => true
  | some qualifier, some qualifier' =>
      if qualifier = qualifier' then false else compareToNegative qualifier qualifier'

def ModelVersion.lessThan (v version : ModelVersion) : Bool :=
  if v.major < version.major then true
  else if version.major < v.major then false
  else if v.minor < version.minor then true
  else if version.minor < v.minor then false
  else if v.micro < version.micro then true
  -- the minor part again, not the micro part
  else if version.minor < v.minor then false
  else qualifierLessThan v.qualifier version.qualifier

def ModelVersion.equals (v obj : ModelVersion) : Bool :=
  obj.major = v.major && obj.minor = v.minor && obj.micro ≠ v.micro

/-- What is printed loses the qualifier. -/
theorem ofString_toText (v : ModelVersion) :
    ModelVersion.ofString v.toText = { v with qualifier := none } := by
  have hdots : ∀ piece ∈ [printInt v.major, printInt v.minor, printInt v.micro], '.' ∉ piece := by
    simp only [List.mem_cons, List.not_mem_nil, or_false, forall_eq_or_imp, forall_eq]
    exact ⟨dot_not_mem_printInt _, dot_not_mem_printInt _, dot_not_mem_printInt _⟩
  rw [ModelVersion.ofString, ModelVersion.toText,
    Split.split_intercalate (List.cons_ne_nil _ _) hdots (by simpa using printInt_ne_nil _)]
  simp only [parseInt_printInt, List.head?_nil]

/-! ## The order of versions -/

/-- A version without qualifier comes after those with one. -/
def qualifierRank : Option Text → WithTop (List Nat)
  | none => ⊤
  | some qualifier => (Utf16.encode qualifier : List Nat)

/-- The place of a version: by its numbers from left to right, then by its qualifier. -/
def ModelVersion.rank (v : ModelVersion) : Int ×ₗ Int ×ₗ Int ×ₗ WithTop (List Nat) :=
  toLex (v.major.toInt, toLex (v.minor.toInt, toLex (v.micro.toInt, qualifierRank v.qualifier)))

def Precedes (a b : ModelVersion) : Prop := a.rank < b.rank

instance (a b : ModelVersion) : Decidable (Precedes a b) :=
  inferInstanceAs (Decidable (a.rank < b.rank))

theorem qualifierRank_injective : Function.Injective qualifierRank := by
  intro q q' h
  cases q <;> cases q' <;> simp only [qualifierRank] at h
  · rfl
  · exact absurd h WithTop.top_ne_coe
  · exact absurd h WithTop.coe_ne_top
  · rw [Utf16.encode_injective (WithTop.coe_injective h)]

theorem rank_injective : Function.Injective ModelVersion.rank := by
  intro a b h
  simp only [ModelVersion.rank, EmbeddingLike.apply_eq_iff_eq, Prod.mk.injEq,
    Int32.toInt_inj] at h
  obtain ⟨hmajor, hminor, hmicro, hqualifier⟩ := h
  cases a
  cases b
  simp only [ModelVersion.mk.injEq]
  exact ⟨hmajor, hminor, hmicro, qualifierRank_injective hqualifier⟩

theorem precedes_irrefl (a : ModelVersion) : ¬ Precedes a a := lt_irrefl a.rank

theorem precedes_trans {a b c : ModelVersion} (hab : Precedes a b) (hbc : Precedes b c) :
    Precedes a c := lt_trans hab hbc

/-- Versions are totally ordered. -/
theorem precedes_trichotomy (a b : ModelVersion) : Precedes a b ∨ a = b ∨ Precedes b a :=
  (lt_trichotomy a.rank b.rank).imp_right (Or.imp_left fun h => rank_injective h)

theorem precedes_iff {a b : ModelVersion} :
    Precedes a b ↔ a.major < b.major ∨ a.major = b.major ∧ (a.minor < b.minor ∨
      a.minor = b.minor ∧ (a.micro < b.micro ∨
        a.micro = b.micro ∧ qualifierRank a.qualifier < qualifierRank b.qualifier)) := by
  simp only [Precedes, ModelVersion.rank, Prod.Lex.toLex_lt_toLex, Int32.toInt_inj,
    Int32.lt_iff_toInt_lt]

/-- The qualifiers are compared although the micro part has decided against `a`. -/
def Slips (a b : ModelVersion) : Prop :=
  a.major = b.major ∧ a.minor = b.minor ∧ b.micro < a.micro ∧
    qualifierRank a.qualifier < qualifierRank b.qualifier

theorem qualifierLessThan_iff {q q' : Option Text} :
    qualifierLessThan q q' = true ↔ qualifierRank q < qualifierRank q' := by
  cases q with
  | none => simp [qualifierLessThan, qualifierRank]
  | some qualifier =>
      cases q' with
      | none => simp [qualifierLessThan, qualifierRank]
      | some qualifier' =>
          simp only [qualifierLessThan, qualifierRank, WithTop.coe_lt_coe, compareToNegative]
          split
          · rename_i h
            subst h
            simp
          · simp

theorem lessThan_iff {a b : ModelVersion} :
    a.lessThan b = true ↔ a.major < b.major ∨ a.major = b.major ∧ (a.minor < b.minor ∨
      a.minor = b.minor ∧ (a.micro < b.micro ∨
        qualifierRank a.qualifier < qualifierRank b.qualifier)) := by
  rw [← qualifierLessThan_iff]
  unfold ModelVersion.lessThan
  simp only [Int32.lt_iff_toInt_lt, ← Int32.toInt_inj]
  split_ifs with hmajor hmajor' hminor hminor' hmicro
  · simp [hmajor]
  · simp only [false_iff]
    omega
  · simp only [true_iff]
    omega
  · simp only [false_iff]
    omega
  · simp only [true_iff]
    omega
  · have hsame : a.major.toInt = b.major.toInt ∧ a.minor.toInt = b.minor.toInt := by omega
    simp [hsame.1, hsame.2, hmicro]

/-- `lessThan` finds every pair in order, and those where it slips. -/
theorem lessThan_iff_precedes {a b : ModelVersion} :
    a.lessThan b = true ↔ Precedes a b ∨ Slips a b := by
  rw [lessThan_iff, precedes_iff, Slips]
  simp only [Int32.lt_iff_toInt_lt, ← Int32.toInt_inj]
  constructor
  · rintro (hmajor | ⟨hmajor, hminor | ⟨hminor, hmicro | hrank⟩⟩)
    · exact .inl (.inl hmajor)
    · exact .inl (.inr ⟨hmajor, .inl hminor⟩)
    · exact .inl (.inr ⟨hmajor, .inr ⟨hminor, .inl hmicro⟩⟩)
    -- only here the micro parts are left open
    · rcases Int.lt_trichotomy a.micro.toInt b.micro.toInt with hlt | heq | hgt
      · exact .inl (.inr ⟨hmajor, .inr ⟨hminor, .inl hlt⟩⟩)
      · exact .inl (.inr ⟨hmajor, .inr ⟨hminor, .inr ⟨heq, hrank⟩⟩⟩)
      · exact .inr ⟨hmajor, hminor, hgt, hrank⟩
  · rintro ((hmajor | ⟨hmajor, hminor | ⟨hminor, hmicro | ⟨_, hrank⟩⟩⟩) |
      ⟨hmajor, hminor, _, hrank⟩)
    · exact .inl hmajor
    · exact .inr ⟨hmajor, .inl hminor⟩
    · exact .inr ⟨hmajor, .inr ⟨hminor, .inl hmicro⟩⟩
    · exact .inr ⟨hmajor, .inr ⟨hminor, .inr hrank⟩⟩
    · exact .inr ⟨hmajor, .inr ⟨hminor, .inr hrank⟩⟩

theorem Slips.not_precedes {a b : ModelVersion} (h : Slips a b) : ¬ Precedes a b := by
  obtain ⟨hmajor, hminor, hmicro, _⟩ := h
  rw [precedes_iff]
  simp only [Int32.lt_iff_toInt_lt, ← Int32.toInt_inj] at *
  omega

/-- `lessThan` decides whether `a` precedes `b`, and `equals` holds when neither is less. -/
structure Agrees (a b : ModelVersion) : Prop where
  lessThan : a.lessThan b = true ↔ Precedes a b
  equals : a.lessThan b = false → b.lessThan a = false → a.equals b = true

theorem equals_self (a : ModelVersion) : a.equals a = false := by
  simp [ModelVersion.equals]

theorem agrees_iff {a b : ModelVersion} : Agrees a b ↔ a ≠ b ∧ ¬ Slips a b := by
  constructor
  · intro h
    refine ⟨?_, fun hslip => hslip.not_precedes (h.lessThan.mp (lessThan_iff_precedes.mpr
      (.inr hslip)))⟩
    rintro rfl
    have hless : a.lessThan a = false := by
      rw [Bool.eq_false_iff]
      exact fun hless => precedes_irrefl a (h.lessThan.mp hless)
    exact Bool.false_ne_true ((equals_self a).symm.trans (h.equals hless hless))
  · rintro ⟨hne, hslip⟩
    refine ⟨?_, ?_⟩
    · rw [lessThan_iff_precedes]
      exact or_iff_left hslip
    · intro hab hba
      rw [Bool.eq_false_iff, ne_eq, lessThan_iff_precedes, not_or] at hab hba
      rcases precedes_trichotomy a b with h | h | h
      · exact absurd h hab.1
      · exact absurd h hne
      · exact absurd h hba.1

/-! ## Migrating -/

/-- `MigrationModelManager.migrate` for migrations given by their versions: the migrations
that run, and the version stored afterwards.  Without migrations it throws. -/
def migrate (migrations : List ModelVersion) (storedVersion : Option Text) :
    Option (List ModelVersion × Option Text) :=
  match migrations.getLast? with
  | none => none
  | some latest =>
      match storedVersion.map ModelVersion.ofString with
      | none => some (migrations, some latest.toText)
      | some stored =>
          if latest.equals stored then some ([], storedVersion)
          else some (migrations.filter stored.lessThan, some latest.toText)

/-- The migrations after the stored version run, the stored version is not lowered, and
another call runs none. -/
def MigratesRight (migrations : List ModelVersion) (storedVersion : Text) : Prop :=
  ∃ storedVersion',
    migrate migrations (some storedVersion) = some (migrations.filter
      fun m => Precedes (ModelVersion.ofString storedVersion) m, some storedVersion') ∧
    ¬ Precedes (ModelVersion.ofString storedVersion') (ModelVersion.ofString storedVersion) ∧
    ∃ storedVersion'', migrate migrations (some storedVersion') = some ([], storedVersion'')

/-- With the numbers of the stored version next to those of the last migration: where only
the micro parts differ, the stored one is the greater; otherwise the stored major and minor
parts are not beyond the last ones, and no migration makes `lessThan` slip. -/
def MigratesWhen (migrations : List ModelVersion) (stored : ModelVersion) : Prop :=
  ∃ latest, migrations.getLast? = some latest ∧
    if stored.major = latest.major ∧ stored.minor = latest.minor ∧
        stored.micro ≠ latest.micro then
      latest.micro < stored.micro
    else
      (stored.major < latest.major ∨
        stored.major = latest.major ∧ stored.minor ≤ latest.minor) ∧
      ∀ m ∈ migrations, ¬ Slips stored m

theorem equals_iff {latest stored : ModelVersion} :
    latest.equals stored = true ↔ stored.major = latest.major ∧ stored.minor = latest.minor ∧
      stored.micro ≠ latest.micro := by
  simp [ModelVersion.equals, and_assoc]

theorem migrate_eq {migrations : List ModelVersion} {latest : ModelVersion} {stored : Text}
    (hlatest : migrations.getLast? = some latest) :
    migrate migrations (some stored) =
      if latest.equals (ModelVersion.ofString stored) then some ([], some stored)
      else some
        (migrations.filter (ModelVersion.ofString stored).lessThan, some latest.toText) := by
  simp [migrate, hlatest]

theorem le_latest {migrations : List ModelVersion} {latest m : ModelVersion}
    (hascending : migrations.Pairwise Precedes) (hlatest : migrations.getLast? = some latest)
    (hm : m ∈ migrations) : m = latest ∨ Precedes m latest := by
  obtain ⟨init, rfl⟩ := List.getLast?_eq_some_iff.mp hlatest
  rcases List.mem_append.mp hm with hinit | hlast
  · exact .inr ((List.pairwise_append.mp hascending).2.2 m hinit latest List.mem_cons_self)
  · exact .inl (List.mem_singleton.mp hlast)

/-- Nothing is less than a version without qualifier but what precedes it. -/
theorem not_slips_of_no_qualifier {a b : ModelVersion} (h : a.qualifier = none) : ¬ Slips a b := by
  rintro ⟨_, _, _, hrank⟩
  rw [h] at hrank
  exact absurd hrank not_top_lt

/-- Once the last version is stored no migration runs. -/
theorem migrate_latest {migrations : List ModelVersion} {latest : ModelVersion}
    (hascending : migrations.Pairwise Precedes) (hlatest : migrations.getLast? = some latest) :
    migrate migrations (some latest.toText) = some ([], some latest.toText) := by
  have hnone : ∀ m ∈ migrations, ¬ { latest with qualifier := none }.lessThan m = true := by
    intro m hm hless
    rw [lessThan_iff_precedes, or_iff_left (not_slips_of_no_qualifier rfl)] at hless
    have hrank : latest.rank ≤ { latest with qualifier := none }.rank := by
      simp [ModelVersion.rank, Prod.Lex.toLex_le_toLex, qualifierRank]
    have hlt : latest.rank < m.rank := lt_of_le_of_lt hrank hless
    rcases le_latest hascending hlatest hm with rfl | hpre
    · exact lt_irrefl _ hlt
    · exact lt_asymm hlt hpre
  have hequals : ¬ latest.equals { latest with qualifier := none } = true := by
    simp [ModelVersion.equals]
  rw [migrate_eq hlatest, ofString_toText, if_neg hequals, List.filter_eq_nil_iff.mpr hnone]

theorem filter_eq_filter_iff {migrations : List ModelVersion} {stored : ModelVersion} :
    migrations.filter stored.lessThan = migrations.filter (fun m => Precedes stored m) ↔
      ∀ m ∈ migrations, ¬ Slips stored m := by
  constructor
  · intro h m hm hslip
    have hmem : m ∈ migrations.filter stored.lessThan :=
      List.mem_filter.mpr ⟨hm, lessThan_iff_precedes.mpr (.inr hslip)⟩
    rw [h, List.mem_filter, decide_eq_true_iff] at hmem
    exact hslip.not_precedes hmem.2
  · intro h
    apply List.filter_congr
    intro m hm
    rw [Bool.eq_iff_iff, lessThan_iff_precedes, decide_eq_true_iff]
    exact or_iff_left (h m hm)

/-- Of the migrations after the stored version there is none exactly if the last is not
after it. -/
theorem filter_precedes_eq_nil_iff {migrations : List ModelVersion}
    {latest stored : ModelVersion} (hascending : migrations.Pairwise Precedes)
    (hlatest : migrations.getLast? = some latest) :
    migrations.filter (fun m => Precedes stored m) = [] ↔ ¬ Precedes stored latest := by
  simp only [List.filter_eq_nil_iff, decide_eq_true_iff]
  constructor
  · exact fun h => h latest (List.mem_of_getLast? hlatest)
  · intro h m hm hpre
    rcases le_latest hascending hlatest hm with rfl | hlt
    · exact h hpre
    · exact h (precedes_trans hpre hlt)

/-- Storing the last version lowers the stored one if that is beyond it in its first two
numbers. -/
theorem not_latest_precedes_iff {latest stored : ModelVersion}
    (hequals : ¬ latest.equals stored = true) :
    ¬ Precedes { latest with qualifier := none } stored ↔
      stored.major < latest.major ∨ stored.major = latest.major ∧ stored.minor ≤ latest.minor := by
  rw [equals_iff] at hequals
  have htop : ¬ qualifierRank none < qualifierRank stored.qualifier := not_top_lt
  simp only [precedes_iff, htop, and_false, or_false]
  simp only [Int32.lt_iff_toInt_lt, Int32.le_iff_toInt_le, ← Int32.toInt_inj, ne_eq] at *
  omega

/-- After an early return nothing was to be done exactly if the stored version is beyond the
last one. -/
theorem not_precedes_latest_iff {latest stored : ModelVersion}
    (hequals : latest.equals stored = true) :
    ¬ Precedes stored latest ↔ latest.micro < stored.micro := by
  rw [equals_iff] at hequals
  rw [precedes_iff]
  simp only [Int32.lt_iff_toInt_lt, ← Int32.toInt_inj, ne_eq] at *
  omega

theorem migratesRight_iff {migrations : List ModelVersion}
    (hascending : migrations.Pairwise Precedes) (storedVersion : Text) :
    MigratesRight migrations storedVersion ↔
      MigratesWhen migrations (ModelVersion.ofString storedVersion) := by
  cases hlatest : migrations.getLast? with
  | none => simp [MigratesRight, MigratesWhen, migrate, hlatest]
  | some latest =>
      simp only [MigratesRight, MigratesWhen, hlatest, Option.some.injEq, exists_eq_left',
        ← equals_iff]
      by_cases hequals : latest.equals (ModelVersion.ofString storedVersion) = true
      · have hmigrate : migrate migrations (some storedVersion) =
            some ([], some storedVersion) := by
          rw [migrate_eq hlatest, if_pos hequals]
        rw [if_pos hequals, ← not_precedes_latest_iff hequals,
          ← filter_precedes_eq_nil_iff hascending hlatest, hmigrate]
        constructor
        · rintro ⟨_, hran, _⟩
          exact (Prod.mk.inj (Option.some.inj hran)).1.symm
        · intro hnil
          rw [hnil]
          exact ⟨storedVersion, rfl, precedes_irrefl _, _, hmigrate⟩
      · have hmigrate : migrate migrations (some storedVersion) =
            some (migrations.filter (ModelVersion.ofString storedVersion).lessThan,
              some latest.toText) := by
          rw [migrate_eq hlatest, if_neg hequals]
        rw [if_neg hequals, ← not_latest_precedes_iff hequals, ← filter_eq_filter_iff, hmigrate]
        constructor
        · rintro ⟨_, hran, hkeep, _⟩
          obtain ⟨hran, hstored⟩ := Prod.mk.inj (Option.some.inj hran)
          rw [← Option.some.inj hstored, ofString_toText] at hkeep
          exact ⟨hkeep, hran⟩
        · rintro ⟨hkeep, hran⟩
          refine ⟨latest.toText, by rw [hran], ?_, _, migrate_latest hascending hlatest⟩
          rw [ofString_toText]
          exact hkeep

/-- Two versions are compared and called equal as their order asks for exactly if they differ
and `lessThan` does not slip on them; `migrate` does for ascending migrations what their
order asks for exactly under `MigratesWhen`. -/
theorem order_and_migration (a b : ModelVersion) {migrations : List ModelVersion}
    (hascending : migrations.Pairwise Precedes) (storedVersion : Text) :
    (Agrees a b ↔ a ≠ b ∧ ¬ Slips a b) ∧
      (MigratesRight migrations storedVersion ↔
        MigratesWhen migrations (ModelVersion.ofString storedVersion)) :=
  ⟨agrees_iff, migratesRight_iff hascending storedVersion⟩

def migrations : List ModelVersion :=
  ["1.2.0", "1.3.0", "1.4.0", "1.5.0", "1.6.0", "1.7.0", "1.8.0", "1.9.0", "1.9.2", "2.0.0",
    "2.1.0", "2.2.0", "2.3.0", "2.5.0", "3.0.0", "3.1.0", "3.2.0", "3.4.0", "3.4.1", "3.4.2",
    "4.0.0", "4.2.0"].map fun version => ModelVersion.ofString version.toList

theorem migrations_ascending : migrations.Pairwise Precedes := by
  decide +kernel

/-- A stored version with a qualifier gets migrations again that are before it. -/
theorem order_and_migration_qualified :
    migrations.Pairwise Precedes ∧
    (Agrees (ModelVersion.ofString "1.9.8.Final".toList) (ModelVersion.ofString "1.9.2".toList) ↔
      ModelVersion.ofString "1.9.8.Final".toList ≠ ModelVersion.ofString "1.9.2".toList ∧
      ¬ Slips (ModelVersion.ofString "1.9.8.Final".toList)
        (ModelVersion.ofString "1.9.2".toList)) ∧
    (MigratesRight migrations "1.9.8.Final".toList ↔
      MigratesWhen migrations (ModelVersion.ofString "1.9.8.Final".toList)) :=
  ⟨migrations_ascending, order_and_migration _ _ migrations_ascending _⟩

theorem latest_migration : migrations.getLast? = some (ModelVersion.ofString "4.2.0".toList) := by
  decide +kernel

/-- A version is not equal to itself, migrations before a stored version with a qualifier run
again, and a stored version beyond the last one is lowered. -/
theorem order_and_migration_wrong :
    ¬ Agrees (ModelVersion.ofString "4.2.0".toList) (ModelVersion.ofString "4.2.0".toList) ∧
    ¬ MigratesRight migrations "1.9.8.Final".toList ∧
    ¬ MigratesRight migrations "4.3.0".toList := by
  refine ⟨fun h => (agrees_iff.mp h).1 rfl, ?_, ?_⟩
  · rw [migratesRight_iff migrations_ascending]
    rintro ⟨latest, hlatest, hwhen⟩
    rw [latest_migration, Option.some.injEq] at hlatest
    subst hlatest
    rw [if_neg (by decide +kernel)] at hwhen
    have hslips : Slips (ModelVersion.ofString "1.9.8.Final".toList)
        (ModelVersion.ofString "1.9.2".toList) := by
      unfold Slips
      decide +kernel
    exact hwhen.2 _ (by decide +kernel) hslips
  · rw [migratesRight_iff migrations_ascending]
    rintro ⟨latest, hlatest, hwhen⟩
    rw [latest_migration, Option.some.injEq] at hlatest
    subst hlatest
    rw [if_neg (by decide +kernel)] at hwhen
    exact absurd hwhen.1 (by decide +kernel)

end Keycloak.Migration
