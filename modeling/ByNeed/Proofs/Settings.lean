/-
Settings follow their grammar.

Each variable has a grammar: which words it takes, and what they denote. White space around a word does not count, and
neither does the case of ASCII letters.
- `parse_eq_some_iff`: a variable is read just if its text follows the grammar, as what the text denotes.
- `read_eq_ok_iff`, `read_eq_error_iff`: one variable, present or absent.
- `settings_follow_grammar`: all of them. Fields do not depend on each other, and the first text that follows no grammar
  is reported.
-/
import ByNeed.Settings
import ByNeed.Proofs.Failing
import ByNeed.Proofs.Text.Words

namespace ByNeed

open Text

def Level.number : Level → Nat
  | error => 1
  | warn => 2
  | info => 3
  | debug => 4
  | trace => 5

inductive Variable where
  | lineBuffered
  | capacity
  | level
deriving DecidableEq

namespace Variable

/-- what a variable is about -/
abbrev Value : Variable → Type
  | lineBuffered => Bool
  | capacity => Nat
  | level => Level

def name : Variable → String
  | lineBuffered => "LRT_LINE_BUFFERED"
  | capacity => "LRT_BUFFER_CAPACITY"
  | level => "LRT_LOG"

def rank : Variable → Nat
  | lineBuffered => 0
  | capacity => 1
  | level => 2

/-- the words for a truth value -/
def boolWords : Bool → List String
  | true => ["1", "true", "yes", "on"]
  | false => ["0", "false", "no", "off"]

/-- what a word denotes -/
def Denotes : (v : Variable) → List Char → v.Value → Prop
  | lineBuffered, word, b => ∃ spelled ∈ boolWords b, SameWord spelled.toList word
  | capacity, word, (n : Nat) => Numeral word n ∧ 1 ≤ n ∧ n ≤ 2 ^ 64 - 1
  | level, word, l => Numeral word l.number ∨ SameWord l.name.toList word

/-- what a text denotes, with white space around its word or without -/
def Means (v : Variable) (text : String) (a : v.Value) : Prop := ∃ word, Trimmed text.toList word ∧ v.Denotes word a

/-- the text follows the grammar of the variable -/
def Valid (v : Variable) (text : String) : Prop := ∃ a, v.Means text a

/-- how a text that does not is reported, with the name of the variable -/
def refusal : Variable → (name text : String) → SettingsError
  | lineBuffered => .notBool
  | capacity => .notCapacity
  | level => .notLevel

end Variable

def Settings.field (s : Settings) : (v : Variable) → v.Value
  | .lineBuffered => s.lineBuffered
  | .capacity => s.capacity
  | .level => s.level

namespace Variable

/-- the variable sets its field to `a`: to what its text denotes, or to the default if there is none -/
def Sets (v : Variable) (lookup : String → Option String) (a : v.Value) : Prop :=
  match lookup v.name with
  | none => a = Settings.default.field v
  | some text => v.Means text a

/-- the variable is absent, or its text follows the grammar -/
def Accepts (v : Variable) (lookup : String → Option String) : Prop := ∀ text, lookup v.name = some text → v.Valid text

/-! ## One word -/

def parse : (v : Variable) → String → Option v.Value
  | lineBuffered => Settings.bool?
  | capacity => Settings.capacity?
  | level => Settings.level?

theorem means_iff {v : Variable} {text : String} {a : v.Value} : v.Means text a ↔ v.Denotes (trim text.toList) a := by
  constructor
  · rintro ⟨word, htrimmed, hdenotes⟩
    rwa [trim_eq_iff.2 htrimmed]
  · exact fun hdenotes => ⟨trim text.toList, trimmed_trim text.toList, hdenotes⟩

/-- the words for truth values are in lower case -/
theorem denotes_bool_iff {word : List Char} {b : Bool} :
    Denotes lineBuffered word b ↔ String.ofList (lowerAscii word) ∈ boolWords b := by
  have hlower : ∀ b, ∀ spelled ∈ boolWords b, lowerAscii spelled.toList = spelled.toList := by decide
  have hsame : ∀ spelled ∈ boolWords b, SameWord spelled.toList word ↔ spelled = String.ofList (lowerAscii word) := by
    intro spelled hspelled
    rw [← lowerAscii_eq_iff, hlower b spelled hspelled, ← String.toList_inj, String.toList_ofList]
  constructor
  · rintro ⟨spelled, hspelled, halike⟩
    rwa [← (hsame spelled hspelled).1 halike]
  · exact fun hword => ⟨_, hword, (hsame _ hword).2 rfl⟩

theorem bool?_eq_some_iff {text : String} {b : Bool} : Settings.bool? text = some b ↔ Means lineBuffered text b := by
  have hapart : ∀ word ∈ boolWords true, word ∉ boolWords false := by decide
  rw [means_iff, denotes_bool_iff, Settings.bool?]
  change (if _ ∈ boolWords true then some true else if _ ∈ boolWords false then some false else none) = some b ↔ _
  cases b with
  | true =>
    split_ifs with hyes hno
    · exact iff_of_true rfl hyes
    · exact iff_of_false (by simp) hyes
    · exact iff_of_false (by simp) hyes
  | false =>
    split_ifs with hyes hno
    · exact iff_of_false (by simp) (hapart _ hyes)
    · exact iff_of_true rfl hno
    · exact iff_of_false (by simp) hno

theorem capacity?_eq_some_iff {text : String} {n : Nat} : Settings.capacity? text = some n ↔ Means capacity text n := by
  simp only [means_iff, Settings.capacity?, Option.filter_eq_some_iff, size?_eq_some_iff, Denotes, and_assoc,
    decide_eq_true_eq]
  refine and_congr_right fun _ => ?_
  omega

end Variable

namespace Level

/-- the levels are numbered from 1 on -/
theorem numbered_iff {n : Nat} {l : Level} : (if n = 0 then none else all[n - 1]?) = some l ↔ n = l.number := by
  rcases n with _ | _ | _ | _ | _ | _ | n <;> cases l <;> simp [all, number]

/-- the names differ in more than case -/
theorem named_iff {cs : List Char} {l : Level} :
    (all.find? fun level => lowerAscii level.name.toList == lowerAscii cs) = some l ↔ SameWord l.name.toList cs := by
  rw [← lowerAscii_eq_iff]
  constructor
  · intro hfound
    simpa using List.find?_some hfound
  · intro hsame
    rw [← hsame]
    cases l <;> decide +kernel

/-- a name begins with a letter, so it is no numeral -/
theorem not_numeral_of_name {cs : List Char} {n : Nat} {l : Level} (hnamed : SameWord l.name.toList cs) :
    ¬ Numeral cs n := by
  intro hnumeral
  obtain ⟨first, letters, hspelled, hupper⟩ : ∃ c letters, l.name.toList = c :: letters ∧ c.isUpper = true := by
    cases l <;> exact ⟨_, _, rfl, rfl⟩
  obtain ⟨c, rest, rfl, hsign⟩ := hnumeral.head
  rw [hspelled] at hnamed
  cases hnamed with
  | cons hsame _ =>
    have hletter := hsame.le_toNat hupper
    rcases hsign with rfl | hdigit
    · exact absurd hletter (by decide)
    · have hrange := isDigit_iff.1 hdigit
      omega

theorem ofChars?_eq_some_iff {cs : List Char} {l : Level} :
    ofChars? cs = some l ↔ Numeral cs l.number ∨ SameWord l.name.toList cs := by
  have hnumbered (l : Level) :
      ((size? cs).bind fun n => if n = 0 then none else all[n - 1]?) = some l ↔ Numeral cs l.number := by
    have hsmall : l.number < 2 ^ 64 := by cases l <;> decide
    simp only [Option.bind_eq_some_iff, size?_eq_some_iff, numbered_iff]
    exact ⟨fun ⟨_, hread, hsame⟩ => hsame ▸ hread.1, fun hnumeral => ⟨_, ⟨hnumeral, hsmall⟩, rfl⟩⟩
  rw [ofChars?]
  split
  · next found h =>
    have hnumeral := (hnumbered found).1 h
    rw [← hnumbered l, h, or_iff_left fun hnamed => not_numeral_of_name hnamed hnumeral]
  · next h => rw [named_iff, ← hnumbered l, h, or_iff_right (by simp)]

end Level

namespace Variable

theorem level?_eq_some_iff {text : String} {l : Level} : Settings.level? text = some l ↔ Means level text l := by
  rw [means_iff]
  exact Level.ofChars?_eq_some_iff

/-- **A text is read** just if it follows the grammar of its variable, as what it denotes. -/
theorem parse_eq_some_iff {v : Variable} {text : String} {a : v.Value} : v.parse text = some a ↔ v.Means text a := by
  cases v with
  | lineBuffered =>
    rw [parse]
    exact bool?_eq_some_iff
  | capacity =>
    rw [parse]
    exact capacity?_eq_some_iff
  | level =>
    rw [parse]
    exact level?_eq_some_iff

theorem parse_eq_none_iff {v : Variable} {text : String} : v.parse text = none ↔ ¬ v.Valid text := by
  rw [Option.eq_none_iff_forall_ne_some, Valid, not_exists]
  exact forall_congr' fun a => not_congr parse_eq_some_iff

/-! ## One variable -/

variable {v : Variable} {lookup : String → Option String}

def read (v : Variable) (lookup : String → Option String) : Except SettingsError v.Value :=
  Settings.read lookup v.name v.parse v.refusal (Settings.default.field v)

theorem read_eq_ok_iff {a : v.Value} : v.read lookup = .ok a ↔ v.Sets lookup a := by
  unfold read Settings.read Sets
  cases lookup v.name with
  | none => simp [eq_comm]
  | some text =>
    dsimp only
    rw [← parse_eq_some_iff]
    cases v.parse text <;> simp

theorem read_eq_error_iff {e : SettingsError} :
    v.read lookup = .error e ↔ ∃ text, lookup v.name = some text ∧ ¬ v.Valid text ∧ e = v.refusal v.name text := by
  unfold read Settings.read
  cases lookup v.name with
  | none => simp
  | some text =>
    simp only [Option.some.injEq, exists_eq_left', ← parse_eq_none_iff]
    cases v.parse text <;> simp [eq_comm]

/-- reading fails just if the variable is present and does not follow its grammar -/
theorem accepts_iff : v.Accepts lookup ↔ ∃ a, v.read lookup = .ok a := by
  constructor
  · intro haccepts
    cases h : v.read lookup with
    | ok a => exact ⟨a, rfl⟩
    | error e =>
      obtain ⟨text, hpresent, hinvalid, -⟩ := read_eq_error_iff.1 h
      exact absurd (haccepts text hpresent) hinvalid
  · rintro ⟨a, hok⟩ text hpresent
    have hsets := read_eq_ok_iff.1 hok
    simp only [Sets, hpresent] at hsets
    exact ⟨a, hsets⟩

theorem Sets.unique {a b : v.Value} (hfirst : v.Sets lookup a) (hsecond : v.Sets lookup b) : a = b := by
  rw [← read_eq_ok_iff] at hfirst hsecond
  exact Except.ok.inj (hfirst.symm.trans hsecond)

/-- only the text of the variable itself counts -/
theorem Sets.congr {lookup' : String → Option String} {a : v.Value} (hsets : v.Sets lookup a)
    (hsame : lookup v.name = lookup' v.name) : v.Sets lookup' a := by
  rwa [Sets, ← hsame]

theorem Sets.positive {n : Nat} (hsets : Sets capacity lookup n) : 0 < n := by
  unfold Sets at hsets
  split at hsets
  · rw [hsets]
    decide
  · obtain ⟨word, -, -, hpositive, -⟩ := hsets
    exact hpositive

end Variable

namespace Settings

variable {lookup : String → Option String}

theorem ofLookup_eq (lookup : String → Option String) : ofLookup lookup = (do
    let lineBuffered ← Variable.lineBuffered.read lookup
    let capacity ← Variable.capacity.read lookup
    let level ← Variable.level.read lookup
    return ⟨lineBuffered, capacity, level, false⟩) := rfl

/-- settings are read just if each variable sets its own field -/
theorem ofLookup_eq_ok_iff {s : Settings} :
    ofLookup lookup = .ok s ↔ (∀ v : Variable, v.Sets lookup (s.field v)) ∧ s.captured = false := by
  simp only [ofLookup_eq, Except.bind_eq_ok_iff, ← Variable.read_eq_ok_iff]
  constructor
  · rintro ⟨lineBuffered, hread₁, capacity, hread₂, level, hread₃, hmade⟩
    cases hmade
    refine ⟨fun v => ?_, rfl⟩
    cases v with
    | lineBuffered => exact hread₁
    | capacity => exact hread₂
    | level => exact hread₃
  · obtain ⟨lineBuffered, capacity, level, captured⟩ := s
    rintro ⟨hread, rfl⟩
    exact ⟨lineBuffered, hread .lineBuffered, capacity, hread .capacity, level, hread .level, rfl⟩

/-- the first variable that cannot be read is reported -/
theorem ofLookup_eq_error_iff {e : SettingsError} :
    ofLookup lookup = .error e ↔
      ∃ v : Variable, v.read lookup = .error e ∧ ∀ w : Variable, w.rank < v.rank → w.Accepts lookup := by
  simp only [ofLookup_eq, Except.bind_eq_error_iff, Variable.accepts_iff]
  constructor
  · rintro (hfirst | ⟨_, hok₁, hsecond | ⟨_, hok₂, hthird | ⟨_, hok₃, himpossible⟩⟩⟩)
    · refine ⟨.lineBuffered, hfirst, fun w hearlier => ?_⟩
      cases w <;> exact absurd hearlier (by decide)
    · refine ⟨.capacity, hsecond, fun w hearlier => ?_⟩
      cases w with
      | lineBuffered => exact ⟨_, hok₁⟩
      | _ => exact absurd hearlier (by decide)
    · refine ⟨.level, hthird, fun w hearlier => ?_⟩
      cases w with
      | lineBuffered => exact ⟨_, hok₁⟩
      | capacity => exact ⟨_, hok₂⟩
      | level => exact absurd hearlier (by decide)
    · cases himpossible
  · rintro ⟨v, hfailed, hbefore⟩
    cases v with
    | lineBuffered => exact .inl hfailed
    | capacity =>
      obtain ⟨b, hok₁⟩ := hbefore .lineBuffered (by decide)
      exact .inr ⟨b, hok₁, .inl hfailed⟩
    | level =>
      obtain ⟨b, hok₁⟩ := hbefore .lineBuffered (by decide)
      obtain ⟨n, hok₂⟩ := hbefore .capacity (by decide)
      exact .inr ⟨b, hok₁, .inr ⟨n, hok₂, .inl hfailed⟩⟩

/-- **Settings follow their grammar.** They can be read just if each variable that is present follows its grammar. Then
each field is what its own variable denotes, or the default, whatever the other variables are; the capacity is positive,
and output is not kept in memory. Otherwise the first variable that does not follow its grammar is reported, by kind and
name and with its text as it was given. -/
theorem settings_follow_grammar (lookup : String → Option String) :
    ((∃ s, ofLookup lookup = .ok s) ↔ ∀ v : Variable, v.Accepts lookup) ∧
    (∀ s, ofLookup lookup = .ok s →
      (∀ (v : Variable) (a : v.Value), v.Sets lookup a ↔ a = s.field v) ∧
      (∀ lookup' s', ofLookup lookup' = .ok s' →
        ∀ v : Variable, lookup' v.name = lookup v.name → s'.field v = s.field v) ∧
      0 < s.capacity ∧ s.captured = false) ∧
    ∀ e, ofLookup lookup = .error e ↔ ∃ (v : Variable) (text : String),
      lookup v.name = some text ∧ ¬ v.Valid text ∧ (∀ w : Variable, w.rank < v.rank → w.Accepts lookup) ∧
        e = v.refusal v.name text := by
  refine ⟨⟨?_, ?_⟩, ?_, ?_⟩
  · rintro ⟨s, hok⟩ v
    have hsets := (ofLookup_eq_ok_iff.1 hok).1 v
    exact Variable.accepts_iff.2 ⟨s.field v, Variable.read_eq_ok_iff.2 hsets⟩
  · intro haccepts
    choose value hread using fun v => Variable.accepts_iff.1 (haccepts v)
    refine ⟨⟨value .lineBuffered, value .capacity, value .level, false⟩, ofLookup_eq_ok_iff.2 ⟨fun v => ?_, rfl⟩⟩
    have hsets := Variable.read_eq_ok_iff.1 (hread v)
    cases v <;> exact hsets
  · intro s hok
    obtain ⟨hsets, hcaptured⟩ := ofLookup_eq_ok_iff.1 hok
    refine ⟨fun v a => ⟨fun hsets' => hsets'.unique (hsets v), ?_⟩, ?_, (hsets .capacity).positive, hcaptured⟩
    · rintro rfl
      exact hsets v
    · intro lookup' s' hok' v hsame
      exact (((ofLookup_eq_ok_iff.1 hok').1 v).congr hsame).unique (hsets v)
  · intro e
    simp only [ofLookup_eq_error_iff, Variable.read_eq_error_iff]
    constructor
    · rintro ⟨v, ⟨text, hpresent, hinvalid, rfl⟩, hbefore⟩
      exact ⟨v, text, hpresent, hinvalid, hbefore, rfl⟩
    · rintro ⟨v, text, hpresent, hinvalid, hbefore, rfl⟩
      exact ⟨v, ⟨text, hpresent, hinvalid, rfl⟩, hbefore⟩

def environment (vars : List (String × String)) (name : String) : Option String := vars.lookup name

/-- White space of several kinds, letters in both cases, a sign and a leading zero: the capacity is the largest there
is. One more is too large, and is reported before the level, which has no such name. -/
theorem settings_follow_grammar_limits :
    ofLookup (environment [("LRT_LINE_BUFFERED", "\u3000oFF\t"),
      ("LRT_BUFFER_CAPACITY", "+018446744073709551615\u0085"), ("LRT_LOG", "\u00a0dEbUg")]) =
        .ok ⟨false, 18446744073709551615, .debug, false⟩ ∧
    ofLookup (environment [("LRT_BUFFER_CAPACITY", " 18446744073709551616"), ("LRT_LOG", "chatty")]) =
        .error (.notCapacity "LRT_BUFFER_CAPACITY" " 18446744073709551616") := by
  constructor
  · have hoff : Variable.Means .lineBuffered "\u3000oFF\t" false :=
      ⟨['o', 'F', 'F'], trim_eq_iff.1 (by decide +kernel), "off", by decide, lowerAscii_eq_iff.1 (by decide +kernel)⟩
    have hdigits : Decimal "018446744073709551615".toList 18446744073709551615 :=
      ⟨[0, 1, 8, 4, 4, 6, 7, 4, 4, 0, 7, 3, 7, 0, 9, 5, 5, 1, 6, 1, 5], by decide, by decide, by decide +kernel,
        by decide⟩
    have hlargest : Variable.Means .capacity "+018446744073709551615\u0085" 18446744073709551615 :=
      ⟨_, trim_eq_iff.1 rfl, ⟨_, .inr (by decide +kernel), hdigits⟩, by decide, by decide⟩
    have hdebug : Variable.Means .level "\u00a0dEbUg" .debug :=
      ⟨['d', 'E', 'b', 'U', 'g'], trim_eq_iff.1 (by decide +kernel), .inr (lowerAscii_eq_iff.1 (by decide +kernel))⟩
    obtain ⟨haccepted, hfields, -⟩ := settings_follow_grammar (environment [("LRT_LINE_BUFFERED", "\u3000oFF\t"),
      ("LRT_BUFFER_CAPACITY", "+018446744073709551615\u0085"), ("LRT_LOG", "\u00a0dEbUg")])
    obtain ⟨⟨lineBuffered, capacity, level, captured⟩, hok⟩ := haccepted.2 fun v text hpresent => by
      cases v <;> cases hpresent
      · exact ⟨_, hoff⟩
      · exact ⟨_, hlargest⟩
      · exact ⟨_, hdebug⟩
    obtain ⟨hvalues, -, -, rfl⟩ := hfields _ hok
    obtain rfl : false = lineBuffered := (hvalues .lineBuffered _).1 hoff
    obtain rfl : 18446744073709551615 = capacity := (hvalues .capacity _).1 hlargest
    obtain rfl : Level.debug = level := (hvalues .level _).1 hdebug
    exact hok
  · have hlarge : ¬ Variable.Valid .capacity " 18446744073709551616" :=
      Variable.parse_eq_none_iff.1 (by decide +kernel)
    obtain ⟨-, -, hrefused⟩ := settings_follow_grammar
      (environment [("LRT_BUFFER_CAPACITY", " 18446744073709551616"), ("LRT_LOG", "chatty")])
    refine (hrefused _).2 ⟨.capacity, _, rfl, hlarge, fun w hearlier text hpresent => ?_, rfl⟩
    cases w with
    | lineBuffered => cases hpresent
    | _ => exact absurd hearlier (by decide)

end Settings

end ByNeed
