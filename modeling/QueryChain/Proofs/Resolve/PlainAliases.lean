import QueryChain.Proofs.Resolve.Aliases
import QueryChain.Resolve.Session
import QueryChain.Settings

/-!
# Aliases are plain identifiers

Aliases end up in the text of queries, where they must not be able to close a name or to start
anything else. The only part of them that someone chooses is the prefix in the settings. Names of
range variables decide which number is appended, but they never become a part of an alias.

* `validated_eq_ok_iff` says what settings are accepted, whatever they are read from;
* `Numbered` is the invariant of a session: an alias is a candidate for the number of its table;
* `alias_plain` puts the two together.
-/

namespace QueryChain

/-! ## Plain identifiers -/

/-- An ASCII letter or digit, or an underscore. -/
def PlainChar (c : Char) : Prop :=
  ('a' ≤ c ∧ c ≤ 'z') ∨ ('A' ≤ c ∧ c ≤ 'Z') ∨ ('0' ≤ c ∧ c ≤ '9') ∨ c = '_'

/-- A text that is not empty, is made of ASCII letters, digits and underscores, and does not start
with a digit. -/
structure PlainIdentifier (text : String) : Prop where
  nonempty : text ≠ ""
  plain : ∀ c ∈ text.toList, PlainChar c
  start : ∀ c, text.toList.head? = some c → ¬('0' ≤ c ∧ c ≤ '9')

variable {c : Char} {text more : String}

theorem isDigit_iff : c.isDigit ↔ '0' ≤ c ∧ c ≤ '9' := by
  simp [Char.isDigit, Char.le_def]

theorem isUpper_iff : c.isUpper ↔ 'A' ≤ c ∧ c ≤ 'Z' :=
  decide_eq_true_iff

theorem isLower_iff : c.isLower ↔ 'a' ≤ c ∧ c ≤ 'z' := by
  show (decide ('a'.val ≤ c.val) && decide (c.val ≤ 'z'.val)) = true ↔ _
  rw [Bool.and_eq_true, decide_eq_true_iff, decide_eq_true_iff]
  rfl

theorem isAlpha_iff : c.isAlpha ↔ ('a' ≤ c ∧ c ≤ 'z') ∨ ('A' ≤ c ∧ c ≤ 'Z') := by
  show (c.isUpper || c.isLower) = true ↔ _
  rw [Bool.or_eq_true, isUpper_iff, isLower_iff, or_comm]

theorem plainChar_iff : PlainChar c ↔ c.isAlpha ∨ c.isDigit ∨ c = '_' := by
  rw [PlainChar, isDigit_iff, isAlpha_iff, or_assoc]

theorem PrefixRule.continuesIdentifier_iff : continuesIdentifier c ↔ PlainChar c := by
  simp [continuesIdentifier, plainChar_iff, Char.isAlphanum, or_assoc]

/-- An identifier starts with anything that it may go on with, but not with a digit. -/
theorem PrefixRule.startsIdentifier_iff :
    startsIdentifier c ↔ PlainChar c ∧ ¬('0' ≤ c ∧ c ≤ '9') := by
  have halpha : c.isAlpha → ¬c.isDigit := by
    rw [isAlpha_iff, isDigit_iff]
    simp only [Char.le_def, UInt32.le_iff_toNat_le]
    have : 'A'.val.toNat = 65 := rfl
    have : '9'.val.toNat = 57 := rfl
    have : 'a'.val.toNat = 97 := rfl
    omega
  have hbar : c = '_' → ¬c.isDigit := by
    rintro rfl
    decide
  rw [startsIdentifier, Bool.or_eq_true, beq_iff_eq, plainChar_iff, ← isDigit_iff]
  tauto

theorem PrefixRule.isIdentifier_iff : isIdentifier text ↔ PlainIdentifier text := by
  rw [isIdentifier]
  cases hlist : text.toList with
  | nil => exact ⟨nofun, fun h => absurd (String.toList_eq_nil_iff.1 hlist) h.nonempty⟩
  | cons c cs =>
    rw [Bool.and_eq_true, List.all_eq_true, startsIdentifier_iff]
    simp only [continuesIdentifier_iff]
    constructor
    · rintro ⟨⟨hc, hstart⟩, hcs⟩
      refine ⟨?_, ?_, ?_⟩
      · rintro rfl
        cases hlist
      · rw [hlist, List.forall_mem_cons]
        exact ⟨hc, hcs⟩
      · rw [hlist]
        rintro _ ⟨⟩
        exact hstart
    · intro h
      have hplain := h.plain
      rw [hlist, List.forall_mem_cons] at hplain
      exact ⟨⟨hplain.1, h.start c (by rw [hlist]; rfl)⟩, hplain.2⟩

namespace PlainIdentifier

theorem append (h : PlainIdentifier text) (hmore : ∀ c ∈ more.toList, PlainChar c) :
    PlainIdentifier (text ++ more) where
  nonempty := by simp [h.nonempty]
  plain := by
    rw [String.toList_append, List.forall_mem_append]
    exact ⟨h.plain, hmore⟩
  start := by
    have hne : text.toList ≠ [] := by simpa using h.nonempty
    rw [String.toList_append, List.head?_append_of_ne_nil _ hne]
    exact h.start

theorem append_toString (h : PlainIdentifier text) (n : Nat) :
    PlainIdentifier (text ++ toString n) := by
  refine h.append fun c hc => plainChar_iff.2 (.inr (.inl ?_))
  rw [Nat.toString_eq_repr, Nat.toList_repr] at hc
  exact Nat.isDigit_of_mem_toDigits (by decide) (by decide) hc

/-- All names that are tried for a table are plain identifiers, however many are taken. -/
theorem aliasCandidate (h : PlainIdentifier text) (k : Nat) :
    PlainIdentifier (aliasCandidate text k) := by
  cases k with
  | zero => exact h
  | succ k => exact (h.append (by simp [plainChar_iff])).append_toString (k + 1)

end PlainIdentifier

/-! ## Settings -/

namespace Settings

variable {s : Settings}

/-- Settings are accepted if their prefix is a plain identifier that is not too long. -/
theorem validated_eq_ok_iff {s' : Settings} : s.validated = .ok s' ↔
    s' = s ∧ s.aliasPrefix.length ≤ 16 ∧ PlainIdentifier s.aliasPrefix := by
  have hrules : PrefixRule.broken s.aliasPrefix = [] ↔
      s.aliasPrefix.length ≤ 16 ∧ PlainIdentifier s.aliasPrefix := by
    have hlength (h : PlainIdentifier s.aliasPrefix) : 1 ≤ s.aliasPrefix.length :=
      Nat.pos_of_ne_zero (by simpa using h.nonempty)
    simp only [PrefixRule.broken, List.filter_eq_nil_iff, List.forall_mem_cons, PrefixRule.holds,
      Bool.not_eq_true', Bool.not_eq_false, PrefixRule.isIdentifier_iff, decide_eq_true_eq]
    constructor
    · rintro ⟨hrange, hplain, -⟩
      exact ⟨hrange.2, hplain⟩
    · rintro ⟨hle, hplain⟩
      exact ⟨⟨hlength hplain, hle⟩, hplain, nofun⟩
  rw [← hrules, validated]
  cases PrefixRule.broken s.aliasPrefix with
  | nil => simp [eq_comm]
  | cons rule rules => simp

/-- The settings are accepted when they are read from a text or from the environment. -/
inductive Accepted (s : Settings) : Prop where
  | yaml {text : String} : ofYaml text = .ok s → Accepted s
  | environment {aliasPrefix schemaPath : Option ByteArray} :
      ofEnvironment aliasPrefix schemaPath = .ok s → Accepted s

theorem Accepted.validated (h : s.Accepted) : ∃ read : Settings, read.validated = .ok s := by
  cases h with
  | @yaml text h =>
    rw [ofYaml] at h
    split at h
    · exact ⟨_, h⟩
    · cases h
  | @environment aliasPrefix schemaPath h =>
    rw [ofEnvironment] at h
    cases htext : variableText aliasPrefix with
    | error => rw [htext] at h; cases h
    | ok prefixText =>
      cases hpath : variableText schemaPath with
      | error => rw [htext, hpath] at h; cases h
      | ok path => rw [htext, hpath] at h; exact ⟨_, h⟩

theorem Accepted.plain (h : s.Accepted) : PlainIdentifier s.aliasPrefix := by
  obtain ⟨read, h⟩ := h.validated
  obtain ⟨rfl, -, hplain⟩ := validated_eq_ok_iff.1 h
  exact hplain

end Settings

/-! ## Sessions -/

/-- The loop over the tables gives each of them a candidate for its own number. -/
theorem Naming.candidate {aliasPrefix : String} {taken : List String} {index : Nat}
    {ts named : List TableEntry} (h : Naming aliasPrefix taken index ts named) {i : Nat}
    {t : TableEntry} {aliasName : String} (ht : named[i]? = some t)
    (halias : t.aliasName = some aliasName) :
    ts[i]? = some t ∨ ∃ k, aliasName = aliasCandidate (aliasPrefix ++ toString (index + i)) k := by
  induction h generalizing i with
  | done => cases ht
  | @kept taken index u ts named _ _ _ ih =>
    cases i with
    | zero => exact .inl ht
    | succ i =>
      rw [show index + (i + 1) = index + 1 + i by omega]
      exact ih ht
  | @given taken index u ts named _ _ hsearch _ ih =>
    cases i with
    | zero =>
      obtain rfl : _ = t := Option.some.inj ht
      obtain rfl := Option.some.inj halias
      obtain ⟨k, -, hk, -⟩ := hsearch.firstFree_from
      exact .inr ⟨k, hk⟩
    | succ i =>
      rw [show index + (i + 1) = index + 1 + i by omega]
      exact ih ht

namespace JoinedTables

variable {ts : JoinedTables}

/-- Every alias is a candidate for the number of its table, whatever queries it was given for. -/
def Numbered (ts : JoinedTables) : Prop :=
  ∀ i aliasName, ts.alias? (.joined i) = some aliasName →
    ∃ k, aliasName = aliasCandidate (ts.aliasPrefix ++ toString i) k

theorem Numbered.step (h : ts.Numbered) (s : TableStep) : (ts.step s).Numbered := by
  intro i aliasName halias
  rw [step_aliasPrefix]
  cases s with
  | join path relation name => exact h i aliasName (alias_of_join halias)
  | finalize q =>
    obtain ⟨t, ht, halias⟩ := Option.bind_eq_some_iff.1 halias
    rcases (finalize_naming ts q).candidate ht halias with hold | hk
    · exact h i aliasName (Option.bind_eq_some_iff.2 ⟨t, hold, halias⟩)
    · rwa [Nat.zero_add] at hk

theorem Numbered.run (h : ts.Numbered) (steps : List TableStep) : (ts.run steps).Numbered := by
  induction steps generalizing ts with
  | nil => exact h
  | cons s steps ih => exact ih (h.step s)

theorem numbered_new (aliasPrefix : String) : (Session.new aliasPrefix).tables.Numbered :=
  nofun

theorem Numbered.plain (h : ts.Numbered) (hplain : PlainIdentifier ts.aliasPrefix) {i : Nat}
    {aliasName : String} (halias : ts.alias? (.joined i) = some aliasName) :
    PlainIdentifier aliasName := by
  obtain ⟨k, rfl⟩ := h i aliasName halias
  exact (hplain.append_toString i).aliasCandidate k

/-- In a session with accepted settings every alias that is ever given is a plain identifier.
Tables may be made and named in any order and for any queries. Whenever they are named, each of them
has such an alias. -/
theorem alias_plain {settings : Settings} (h : settings.Accepted) (steps : List TableStep) :
    let ts := (Session.new settings.aliasPrefix).tables.run steps
    (∀ i aliasName, ts.alias? (.joined i) = some aliasName → PlainIdentifier aliasName) ∧
      ∀ q, ∀ i < (ts.finalize q).tables.length,
        ∃ aliasName, (ts.finalize q).alias? (.joined i) = some aliasName
          ∧ PlainIdentifier aliasName := by
  intro ts
  have hnumbered : ts.Numbered := (numbered_new settings.aliasPrefix).run steps
  have hplain : PlainIdentifier ts.aliasPrefix := by
    rw [run_aliasPrefix]
    exact h.plain
  refine ⟨fun i aliasName => hnumbered.plain hplain, fun q i hi => ?_⟩
  obtain ⟨aliasName, halias⟩ := finalize_alias_isSome ts q hi
  exact ⟨aliasName, halias, (hnumbered.step (.finalize q)).plain hplain halias⟩

theorem alias_plain_j0 :
    ∃ settings, Settings.ofEnvironment (some "j".toUTF8) none = .ok settings ∧
      ∃ q, parse studentsAsJ0 = .ok q ∧ ∀ path relation name,
        let ts := (Session.new settings.aliasPrefix).tables.run
          [.join path relation name, .finalize q]
        ts.alias? (.joined 0) = some "j0_1" ∧ PlainIdentifier "j0_1" := by
  have hsettings : Settings.ofEnvironment (some "j".toUTF8) none = .ok { aliasPrefix := "j" } := rfl
  refine ⟨_, hsettings, _, rfl, fun path relation name => ?_⟩
  intro ts
  have halias : ts.alias? (.joined 0) = some "j0_1" := rfl
  exact ⟨halias, (alias_plain (.environment hsettings) _).1 0 _ halias⟩

end JoinedTables

end QueryChain
