/-
When a deep copy equals its original.

`Schema.Has` says which values a type has and `Datum.copied` what becomes of a value that is written and read back, said
on the value alone. Results:
- `duplicate_eq_ok_iff`: a value of a type has a copy exactly if `copied` gives one and its written form is not too deep.
- `copied_eq_self_iff`: the copy is the value itself exactly if the value is `Faithful`: no present option in it has a
  content that is written as null, and every number is read back with its own bits.
Two kinds of values are therefore changed without a failure: present options around null, which come back absent, and
finite numbers whose shortest decimal is read as a neighbour.
-/
import ByNeed.Duplicate
import ByNeed.Proofs.Json.RoundTrip

namespace ByNeed

/-! ## Values of a type -/

/-- The values of a type. Maps list their entries in strictly ascending order of the keys. Values without a type of their
own (`any`) are not among them. -/
inductive Schema.Has : Schema → Datum → Prop
  | unit : Has .unit .unit
  | bool (b : Bool) : Has .bool (.bool b)
  | integer {low high n : Int} (hlow : low ≤ n) (hhigh : n ≤ high) : Has (.integer low high) (.integer n)
  | char (c : Char) : Has .char (.char c)
  | string (s : String) : Has .string (.string s)
  | float (format : Binary.Format) (bits : Nat) : Has (.float format) (.float format bits)
  | absent (s : Schema) : Has (.option s) .absent
  | present {s : Schema} {v : Datum} (hv : Has s v) : Has (.option s) (.present v)
  | list {s : Schema} {items : List Datum} (hitems : ∀ v ∈ items, Has s v) : Has (.list s) (.list items)
  | tuple {parts : List Schema} {vs : List Datum} (hparts : List.Forall₂ Has parts vs) : Has (.tuple parts) (.tuple vs)
  | record {fields : List (String × Schema)} {vs : List (String × Datum)}
      (hnames : fields.map Prod.fst = vs.map Prod.fst)
    (hfields : List.Forall₂ Has (fields.map Prod.snd) (vs.map Prod.snd)) : Has (.record fields) (.record vs)
  | bare {names : List String} {name : String} (tagged : List (String × Schema)) (hname : name ∈ names) :
    Has (.choice names tagged) (.bare name)
  | tagged {tagged : List (String × Schema)} {name : String} {s : Schema} {v : Datum} (names : List String)
    (hname : tagged.lookup name = some s) (hv : Has s v) : Has (.choice names tagged) (.tagged name v)
  | map {key value : Schema} {entries : List (Datum × Datum)} (hkeys : ∀ e ∈ entries, Has key e.1)
    (hvalues : ∀ e ∈ entries, Has value e.2) (hsorted : entries.Pairwise fun a b => a.1.order b.1 = .lt) :
    Has (.map key value) (.map entries)
  | cell {s : Schema} {v : Datum} (borrowed : Bool) (hv : Has s v) : Has (.cell s) (.cell borrowed v)

namespace Datum

/-! ## What comes back -/

def isNull : Datum → Bool
  | unit | absent => true
  | float format bits => (Json.Number.ofBits? format bits).isNone
  | present content => isNull content
  | cell borrowed content => !borrowed && isNull content
  | _ => false

/-- the value is a key that is written as a string -/
def isText : Datum → Bool
  | string _ | char _ | integer _ | bool _ | bare _ => true
  | present content => isText content
  | _ => false

/-- the bits that a binary number is read back with -/
def reread (format : Binary.Format) (bits : Nat) : Option Nat := (Json.Number.ofBits? format bits).bind (·.bits? format)

mutual
/-- what a value is read back as, if it can be written and read -/
def copied : Datum → Option Datum
  | unit => some unit
  | bool b => some (bool b)
  | integer n => some (integer n)
  | char c => some (char c)
  | string s => some (string s)
  | float format bits => (reread format bits).map (float format)
  | absent => some absent
  | present content => if content.isNull then some absent else (copied content).map present
  | list items => (copiedItems items).map list
  | tuple parts => (copiedItems parts).map tuple
  | record fields => (copiedFields fields).map record
  | bare variant => some (bare variant)
  | tagged variant payload => (copied payload).map (tagged variant)
  | map entries => (copiedEntries entries).map map
  | cell borrowed content => if borrowed then none else (copied content).map (cell false)

def copiedItems : List Datum → Option (List Datum)
  | [] => some []
  | v :: rest => do return (← copied v) :: (← copiedItems rest)

def copiedFields : List (String × Datum) → Option (List (String × Datum))
  | [] => some []
  | (name, v) :: rest => do return (name, ← copied v) :: (← copiedFields rest)

/-- keys come back as they are, if they are texts -/
def copiedEntries : List (Datum × Datum) → Option (List (Datum × Datum))
  | [] => some []
  | (key, v) :: rest => if key.isText then do return (key, ← copied v) :: (← copiedEntries rest) else none
end

/-- the values that a value holds, keys of maps apart -/
def parts : Datum → List Datum
  | present content => [content]
  | list items => items
  | tuple items => items
  | record fields => fields.map Prod.snd
  | tagged _ payload => [payload]
  | map entries => entries.map Prod.snd
  | cell _ content => [content]
  | _ => []

/-- Nothing is lost of the value itself, whatever becomes of its parts: a number is read back with its own bits, a present
option is not written as null, and a cell is not borrowed. -/
def Intact : Datum → Prop
  | float format bits => reread format bits = some bits
  | present content => content.isNull = false
  | cell borrowed _ => borrowed = false
  | _ => True

/-- the value and all values in it are intact -/
inductive Faithful : Datum → Prop
  | intro {v : Datum} (hv : v.Intact) (hparts : ∀ w ∈ v.parts, Faithful w) : Faithful v

theorem faithful_iff {v : Datum} : v.Faithful ↔ v.Intact ∧ ∀ w ∈ v.parts, w.Faithful :=
  ⟨fun ⟨hv, hparts⟩ => ⟨hv, hparts⟩, fun h => ⟨h.1, h.2⟩⟩

/-! ## Induction over a value -/

theorem sizeOf_part {v w : Datum} (h : w ∈ v.parts) : sizeOf w < sizeOf v := by
  cases v with
  | list items | tuple items =>
    have : sizeOf w < sizeOf items := List.sizeOf_lt_of_mem h
    simp only [list.sizeOf_spec, tuple.sizeOf_spec]
    omega
  | record fields | map entries =>
    obtain ⟨⟨k, v⟩, hmem, rfl⟩ := List.mem_map.1 h
    have := List.sizeOf_lt_of_mem hmem
    simp only [record.sizeOf_spec, map.sizeOf_spec, Prod.mk.sizeOf_spec] at this ⊢
    omega
  | present v | tagged s v | cell b v =>
    obtain rfl := List.mem_singleton.1 h
    simp only [present.sizeOf_spec, tagged.sizeOf_spec, cell.sizeOf_spec]
    omega
  | _ => cases h

theorem parts_induction {P : Datum → Prop} (step : ∀ v, (∀ w ∈ v.parts, P w) → P v) (v : Datum) : P v :=
  step v fun w hw =>
    have := sizeOf_part hw
    parts_induction step w
termination_by sizeOf v

/-! ## Copies that are equal -/

theorem copiedItems_eq (items : List Datum) : copiedItems items = items.mapM copied := by
  induction items with
  | nil => rfl
  | cons v rest ih => simp only [copiedItems, ih, List.mapM_cons]

theorem copiedFields_eq (fields : List (String × Datum)) :
    copiedFields fields = fields.mapM fun f => (copied f.2).map (f.1, ·) := by
  induction fields with
  | nil => rfl
  | cons f rest ih =>
    simp only [copiedFields, ih, List.mapM_cons]
    cases copied f.2 <;> rfl

theorem copiedEntries_eq (entries : List (Datum × Datum)) :
    copiedEntries entries = entries.mapM fun e => if e.1.isText then (copied e.2).map (e.1, ·) else none := by
  induction entries with
  | nil => rfl
  | cons e rest ih =>
    simp only [copiedEntries, ih, List.mapM_cons]
    split
    · cases copied e.2 <;> rfl
    · rfl

theorem mapM_eq_self_iff {α : Type} {f : α → Option α} {P : α → Prop} {as bs : List α}
    (hf : ∀ a ∈ as, ∀ b, f a = some b → (b = a ↔ P a)) (hbs : as.mapM f = some bs) : bs = as ↔ ∀ a ∈ as, P a := by
  induction as generalizing bs with
  | nil =>
    obtain rfl : bs = [] := by simpa using hbs.symm
    simp
  | cons a rest ih =>
    simp only [List.mapM_cons, Option.bind_eq_bind, Option.bind_eq_some_iff, Option.pure_def, Option.some.injEq] at hbs
    obtain ⟨b, hb, cs, hcs, rfl⟩ := hbs
    have hhead := hf a (by simp) b hb
    have htail := ih (fun c hc => hf c (List.mem_cons_of_mem a hc)) hcs
    rw [List.cons.injEq, hhead, htail, List.forall_mem_cons]

/-- A copy equals its value exactly if the value is faithful. -/
theorem copied_eq_self_iff {v w : Datum} (h : v.copied = some w) : w = v ↔ v.Faithful := by
  induction v using parts_induction generalizing w with
  | step v ih =>
    rw [faithful_iff]
    cases v with
    | float format bits =>
      simp only [copied, Option.map_eq_some_iff] at h
      obtain ⟨back, hback, rfl⟩ := h
      simp [Intact, parts, hback]
    | present content =>
      -- a present null is written as an absent value is, so that it comes back absent
      simp only [copied] at h
      by_cases hnull : content.isNull = true
      · obtain rfl : absent = w := by simpa [hnull] using h
        simp [Intact, hnull]
      · simp only [hnull, if_false, Option.map_eq_some_iff, Bool.false_eq_true] at h
        obtain ⟨copy, hcopy, rfl⟩ := h
        have hcontent := ih content (by simp [parts]) hcopy
        simp [Intact, parts, hnull, hcontent]
    | list items =>
      simp only [copied, Option.map_eq_some_iff, copiedItems_eq] at h
      obtain ⟨copies, hcopies, rfl⟩ := h
      have hitems : copies = items ↔ ∀ v ∈ items, v.Faithful := mapM_eq_self_iff (fun v hv w hw => ih v hv hw) hcopies
      simp [Intact, parts, hitems]
    | tuple items =>
      simp only [copied, Option.map_eq_some_iff, copiedItems_eq] at h
      obtain ⟨copies, hcopies, rfl⟩ := h
      have hitems : copies = items ↔ ∀ v ∈ items, v.Faithful := mapM_eq_self_iff (fun v hv w hw => ih v hv hw) hcopies
      simp [Intact, parts, hitems]
    | record fields =>
      simp only [copied, Option.map_eq_some_iff, copiedFields_eq] at h
      obtain ⟨copies, hcopies, rfl⟩ := h
      have hfield : ∀ f ∈ fields, ∀ g, (copied f.2).map (f.1, ·) = some g → (g = f ↔ f.2.Faithful) := by
        intro f hf g hg
        obtain ⟨copy, hcopy, rfl⟩ := Option.map_eq_some_iff.1 hg
        have hvalue := ih f.2 (List.mem_map_of_mem hf) hcopy
        rw [← hvalue, Prod.ext_iff]
        simp
      have hfields := mapM_eq_self_iff hfield hcopies
      simp only [Intact, parts, true_and, record.injEq, hfields, List.forall_mem_map]
    | tagged variant payload =>
      simp only [copied, Option.map_eq_some_iff] at h
      obtain ⟨copy, hcopy, rfl⟩ := h
      have hpayload := ih payload (by simp [parts]) hcopy
      simp [Intact, parts, hpayload]
    | map entries =>
      simp only [copied, Option.map_eq_some_iff, copiedEntries_eq] at h
      obtain ⟨copies, hcopies, rfl⟩ := h
      have hentry : ∀ e ∈ entries, ∀ g, (if e.1.isText then (copied e.2).map (e.1, ·) else none) = some g →
          (g = e ↔ e.2.Faithful) := by
        intro e he g hg
        split at hg
        · obtain ⟨copy, hcopy, rfl⟩ := Option.map_eq_some_iff.1 hg
          have hvalue := ih e.2 (List.mem_map_of_mem he) hcopy
          rw [← hvalue, Prod.ext_iff]
          simp
        · -- a key that is no text has no copy at all
          cases hg
      have hentries := mapM_eq_self_iff hentry hcopies
      simp only [Intact, parts, true_and, map.injEq, hentries, List.forall_mem_map]
    | cell borrowed content =>
      simp only [copied] at h
      cases borrowed with
      | true => cases h
      | false =>
        simp only [if_false, Option.map_eq_some_iff, Bool.false_eq_true] at h
        obtain ⟨copy, hcopy, rfl⟩ := h
        have hcontent := ih content (by simp [parts]) hcopy
        simp [Intact, parts, hcontent]
    | _ =>
      cases h
      simp [Intact, parts]

/-! ## Writing -/

theorem toJson_eq_null_iff (v : Datum) : v.toJson = .ok .null ↔ v.isNull = true := by
  induction v using parts_induction with
  | step v ih =>
    cases v with
    | float format bits =>
      simp only [toJson, floatForm, isNull, Except.ok.injEq]
      cases Json.Number.ofBits? format bits <;> simp
    | present content => exact ih content (by simp [parts])
    | cell borrowed content =>
      have hcontent := ih content (by simp [parts])
      cases borrowed <;> simp [toJson, isNull, hcontent]
    | list items | tuple items | record fields | map entries | tagged variant payload =>
      simp [toJson, isNull, Except.map_eq_ok_iff]
    | _ => simp [toJson, isNull]

theorem isText_iff (k : Datum) : k.isText = true ↔ ∃ text, k.keyText = .ok text := by
  induction k using parts_induction with
  | step k ih =>
    cases k with
    | present content => exact ih content (by simp [parts])
    | _ => simp [keyText, isText]

/-! ## Keys -/

theorem ofInt_chars (n : Int) : (Json.Number.ofInt n).chars = (toString n).toList := by
  have hrow : Json.Number.padded 1 n.natAbs = Nat.toDigits 10 n.natAbs := by
    have hpos : 1 - (Nat.toDigits 10 n.natAbs).length = 0 := by
      have := Nat.length_toDigits_pos (b := 10) (n := n.natAbs)
      omega
    simp [Json.Number.padded, hpos]
  rw [Json.toString_int]
  simp [Json.Number.chars, Json.Number.ofInt, hrow, Json.Number.pointChars, Json.Number.exponentChars]

theorem int_ofInt (n : Int) : (Json.Number.ofInt n).int? = some n := by
  simp only [Json.Number.int?, Json.Number.ofInt, beq_self_eq_true, Option.isNone_none, Bool.and_self, if_true,
    Option.some.injEq, decide_eq_true_eq]
  split <;> omega

theorem readKey_keyText {s : Schema} {k : Datum} (hk : s.Has k) {text : String} (htext : k.keyText = .ok text) :
    s.readKey text = some k := by
  induction k using parts_induction generalizing s with
  | step k ih =>
    cases hk with
    | bool b => cases htext; cases b <;> rfl
    | integer hlow hhigh =>
      rename_i low high n
      cases htext
      have hread := Json.Number.read_chars (.ofInt n) (show Json.Ends [] from trivial)
      rw [List.append_nil, ofInt_chars] at hread
      simp only [Schema.readKey, hread, int_ofInt]
      simp [hlow, hhigh]
    | char c => cases htext; simp [Schema.readKey]
    | string s => cases htext; rfl
    | present hv => simp [Schema.readKey, ih _ (by simp [parts]) hv htext]
    | bare tagged hname => cases htext; simp [Schema.readKey, hname]
    | _ => cases htext

theorem insertEntry_last {key value : Datum} {entries : List (Datum × Datum)} (h : ∀ e ∈ entries, e.1.order key = .lt) :
    insertEntry key value entries = entries ++ [(key, value)] := by
  induction entries with
  | nil => rfl
  | cons e rest ih =>
    rw [List.forall_mem_cons] at h
    simp only [insertEntry, h.1, ih h.2, List.cons_append]

theorem mapOf_sorted {entries : List (Datum × Datum)} (h : entries.Pairwise fun a b => a.1.order b.1 = .lt) :
    mapOf entries = map entries := by
  have hfold : ∀ done, (done ++ entries).Pairwise (fun a b => a.1.order b.1 = .lt) →
      entries.foldl (fun m e => insertEntry e.1 e.2 m) done = done ++ entries := by
    clear h
    induction entries with
    | nil => simp
    | cons e rest ih =>
      intro done hdone
      have hlast : ∀ a ∈ done, a.1.order e.1 = .lt := fun a ha => (List.pairwise_append.1 hdone).2.2 a ha e (by simp)
      rw [List.foldl_cons, insertEntry_last hlast, ih (done ++ [e]) (by simpa using hdone)]
      simp
  rw [mapOf, hfold [] (by simpa using h), List.nil_append]

/-! ## Writing and reading -/

/-- Writing two values and then reading both is writing and reading each, as a failure on either side is the same. -/
theorem interleave {α β γ δ ζ : Type} {x : Option α} {y : Option β} {f : α → Option γ} {g : α → β → Option δ}
    {a : Option γ} {b : Option δ} (hx : x.bind f = a) (hy : ∀ u, y.bind (g u) = b) (k : γ → δ → ζ) :
    (x.bind fun u => y.bind fun v => (f u).bind fun c => (g u v).bind fun d => some (k c d)) =
      a.bind fun c => b.bind fun d => some (k c d) := by
  subst hx
  cases x with
  | none => rfl
  | some u =>
    rw [← hy u]
    cases y with
    | none => cases hf : f u <;> simp [hf]
    | some v => rfl

section Rows

variable {read : Nat → Json → Except Schema.Mismatch Datum}

theorem readItems_written {items : List Datum}
    (h : ∀ v ∈ items, ∀ start, (v.toJson.toOption.bind fun j => (read start j).toOption) = v.copied) (start : Nat) :
    ((itemsToJson items).toOption.bind fun js => (Schema.readItems read start js).toOption) = copiedItems items := by
  induction items generalizing start with
  | nil => rfl
  | cons v rest ih =>
    rw [List.forall_mem_cons] at h
    simp only [itemsToJson, copiedItems, Except.toOption_bind, Except.toOption_pure, Option.bind_assoc,
      Option.bind_some, Schema.readItems]
    exact interleave (h.1 start) (fun j => ih h.2 (start + j.width + 1)) _

theorem readEntries_written {key : String → Option Datum} {entries : List (Datum × Datum)}
    (hkey : ∀ e ∈ entries, ∀ text, e.1.keyText = .ok text → key text = some e.1)
    (h : ∀ e ∈ entries, ∀ start, (e.2.toJson.toOption.bind fun j => (read start j).toOption) = e.2.copied)
    (start : Nat) :
    ((entriesToJson entries).toOption.bind fun ms => (Schema.readEntries key read start ms).toOption) =
      copiedEntries entries := by
  induction entries generalizing start with
  | nil => rfl
  | cons e rest ih =>
    obtain ⟨k, v⟩ := e
    rw [List.forall_mem_cons] at h hkey
    simp only [entriesToJson, copiedEntries]
    by_cases htext : k.isText = true
    · obtain ⟨text, hk⟩ := (isText_iff k).1 htext
      have hread := hkey.1 text hk
      simp only [hk, htext, if_true, Except.toOption_bind, Except.toOption_ok, Except.toOption_pure, Option.bind_assoc,
        Option.bind_some, Schema.readEntries, hread]
      exact interleave (h.1 _) (fun j => ih hkey.2 h.2 _) _
    · have hrefused : ∃ e, k.keyText = .error e := by
        cases hk : k.keyText with
        | error e => exact ⟨e, rfl⟩
        | ok text => exact absurd ((isText_iff k).2 ⟨text, hk⟩) htext
      obtain ⟨e, hk⟩ := hrefused
      simp [hk, htext, Except.toOption_bind, Except.toOption_error]

end Rows

theorem readParts_written {parts : List Schema} {vs : List Datum} (hparts : List.Forall₂ Schema.Has parts vs)
    (h : ∀ v ∈ vs, ∀ s : Schema, s.Has v →
      ∀ start, (v.toJson.toOption.bind fun j => (s.read start j).toOption) = v.copied)
    (start : Nat) :
    ((itemsToJson vs).toOption.bind fun js => (Schema.readParts parts start js).toOption) = copiedItems vs := by
  induction hparts generalizing start with
  | nil => rfl
  | cons hv _ ih =>
    rw [List.forall_mem_cons] at h
    simp only [itemsToJson, copiedItems, Except.toOption_bind, Except.toOption_pure, Option.bind_assoc,
      Option.bind_some, Schema.readParts]
    exact interleave (h.1 _ hv start) (fun j => ih h.2 (start + j.width + 1)) _

theorem readFields_written {fields : List (String × Schema)} {vs : List (String × Datum)}
    (hnames : fields.map Prod.fst = vs.map Prod.fst)
    (hfields : List.Forall₂ Schema.Has (fields.map Prod.snd) (vs.map Prod.snd))
    (h : ∀ f ∈ vs, ∀ s : Schema, s.Has f.2 → ∀ start,
      (f.2.toJson.toOption.bind fun j => (s.read start j).toOption) = f.2.copied) (start : Nat) :
    ((fieldsToJson vs).toOption.bind fun ms => (Schema.readFields fields start ms).toOption) = copiedFields vs := by
  induction vs generalizing fields start with
  | nil =>
    obtain rfl : fields = [] := by simpa using hnames
    rfl
  | cons f rest ih =>
    cases fields with
    | nil => cases hnames
    | cons field fields =>
      obtain ⟨name, v⟩ := f
      obtain ⟨name', s⟩ := field
      rw [List.forall_mem_cons] at h
      simp only [List.map_cons, List.cons.injEq] at hnames
      simp only [List.map_cons, List.forall₂_cons] at hfields
      obtain ⟨rfl, hnames⟩ := hnames
      simp only [fieldsToJson, copiedFields, Except.toOption_bind, Except.toOption_pure, Option.bind_assoc,
        Option.bind_some, Schema.readFields, if_true]
      exact interleave (h.1 _ hfields.1 _) (fun j => ih hnames hfields.2 h.2 _) _

theorem readPayload_of_lookup {tagged : List (String × Schema)} {name : String} {s : Schema}
    (h : tagged.lookup name = some s) (start : Nat) (j : Json) :
    Schema.readPayload tagged start name j = Datum.tagged name <$> s.read (start + Schema.keyWidth name) j := by
  induction tagged with
  | nil => cases h
  | cons t rest ih =>
    obtain ⟨other, payload⟩ := t
    by_cases hname : name = other
    · subst hname
      obtain rfl : payload = s := by simpa using h
      simp [Schema.readPayload]
    · rw [List.lookup_cons, beq_false_of_ne hname] at h
      rw [Schema.readPayload, if_neg (Ne.symm hname), ih h]

theorem read_present {s : Schema} {start : Nat} {j : Json} (hj : j ≠ .null) :
    (Schema.option s).read start j = present <$> s.read start j := by
  cases j with
  | null => exact absurd rfl hj
  | _ => simp only [Schema.read]

theorem readFloat_number (format : Binary.Format) (start : Nat) (n : Json.Number) :
    (Schema.readFloat format start (.number n)).toOption = (n.bits? format).map (float format) := by
  rw [Schema.readFloat]
  generalize n.bits? format = back
  cases back <;> rfl

theorem readFloat_written (format : Binary.Format) (bits start : Nat) :
    (Schema.readFloat format start (floatForm format bits)).toOption = (reread format bits).map (float format) := by
  unfold floatForm reread
  generalize Json.Number.ofBits? format bits = number
  cases number with
  | none => rfl
  | some n =>
    rw [Option.bind_some]
    exact readFloat_number format start n

theorem copiedEntries_keys {entries copies : List (Datum × Datum)} (h : copiedEntries entries = some copies) :
    copies.map Prod.fst = entries.map Prod.fst := by
  induction entries generalizing copies with
  | nil => cases h; rfl
  | cons e rest ih =>
    simp only [copiedEntries, Option.bind_eq_bind, Option.pure_def] at h
    split at h
    · simp only [Option.bind_eq_some_iff, Option.some.injEq] at h
      obtain ⟨copy, -, others, hothers, rfl⟩ := h
      simp only [List.map_cons, ih hothers]
    · cases h

/-- The copies of sorted entries are sorted, so they are put in a map as they are. -/
theorem mapOf_copiedEntries {entries : List (Datum × Datum)} (h : entries.Pairwise fun a b => a.1.order b.1 = .lt) :
    (copiedEntries entries).map mapOf = (copiedEntries entries).map map := by
  cases hcopies : copiedEntries entries with
  | none => rfl
  | some copies =>
    have hsorted : copies.Pairwise fun a b => a.1.order b.1 = .lt := by
      have hkeys : (entries.map Prod.fst).Pairwise fun a b => a.order b = .lt := List.pairwise_map.2 h
      rw [← copiedEntries_keys hcopies] at hkeys
      exact List.pairwise_map.1 hkeys
    rw [Option.map_some, Option.map_some, mapOf_sorted hsorted]

/-- Writing a value of a type and reading it at the type gives the value that `copied` says, or fails. -/
theorem read_written {s : Schema} {v : Datum} (hs : s.Has v) (start : Nat) :
    (v.toJson.toOption.bind fun j => (s.read start j).toOption) = v.copied := by
  induction v using parts_induction generalizing s start with
  | step v ih =>
    cases hs with
    | unit | bool b | string s | absent s =>
      simp only [toJson, Schema.read, Except.toOption_ok, Option.bind_some, copied]
    | char c =>
      simp only [toJson, Schema.read, Except.toOption_ok, Option.bind_some, copied, String.toList_singleton]
    | integer hlow hhigh =>
      simp only [toJson, Schema.read, int_ofInt, Except.toOption_ok, Option.bind_some, copied]
      rw [Option.filter_some, if_pos (by simp [hlow, hhigh])]
      rfl
    | float format bits =>
      simp only [toJson, Schema.read, Except.toOption_ok, Option.bind_some, copied, readFloat_written]
    | present hv =>
      rename_i s v
      have hcontent := ih v (by simp [parts]) hv start
      simp only [toJson, copied]
      by_cases hnull : v.isNull = true
      · simp only [(toJson_eq_null_iff v).2 hnull, hnull, if_true, Except.toOption_ok, Option.bind_some, Schema.read]
      · rw [if_neg hnull, ← hcontent]
        cases hj : v.toJson with
        | error e => rfl
        | ok j =>
          have hne : j ≠ .null := fun h => hnull ((toJson_eq_null_iff v).1 (h ▸ hj))
          simp only [Except.toOption_ok, Option.bind_some, read_present hne, Except.toOption_map]
    | list hitems =>
      have hread := readItems_written (fun v hv start => ih v hv (hitems v hv) start) (start + 1)
      simp only [parts] at hread
      simp only [toJson, copied, ← hread, Except.toOption_map, Option.bind_map, Option.map_bind, Function.comp_def,
        Schema.read]
    | tuple hparts =>
      have hread := readParts_written hparts (fun v hv s hs start => ih v hv hs start) (start + 1)
      simp only [toJson, copied, ← hread, Except.toOption_map, Option.bind_map, Option.map_bind, Function.comp_def,
        Schema.read]
    | record hnames hfields =>
      have hread := readFields_written hnames hfields (fun f hf s hs start => ih f.2 (List.mem_map_of_mem hf) hs start)
        (start + 1)
      simp only [toJson, copied, ← hread, Except.toOption_map, Option.bind_map, Option.map_bind, Function.comp_def,
        Schema.read]
    | bare tagged hname => simp only [toJson, Schema.read, hname, if_true, Except.toOption_ok, Option.bind_some, copied]
    | tagged names hname hv =>
      rename_i tagged name s v
      have hpayload := ih v (by simp [parts]) hv (start + 1 + Schema.keyWidth name)
      simp only [toJson, copied, ← hpayload, Except.toOption_bind, Except.toOption_pure, Option.bind_assoc,
        Option.bind_some,
        Schema.read, readPayload_of_lookup hname, Except.toOption_map, Option.map_bind, Function.comp_def]
    | map hkeys hvalues hsorted =>
      -- reading sorts the entries again, which changes nothing since they were sorted
      have hread := readEntries_written (fun e he text => readKey_keyText (hkeys e he))
        (fun e he start => ih e.2 (List.mem_map_of_mem he) (hvalues e he) start) (start + 1)
      rw [copied, ← mapOf_copiedEntries hsorted, ← hread]
      simp only [toJson, Except.toOption_map, Option.bind_map, Option.map_bind, Function.comp_def, Schema.read]
    | cell borrowed hv =>
      rename_i s v
      have hcontent := ih v (by simp [parts]) hv start
      cases borrowed with
      | true => simp only [toJson, copied, if_true, Except.toOption_error, Option.bind_none]
      | false =>
        simp only [toJson, copied, if_false, ← hcontent, Except.toOption_map, Option.map_bind, Function.comp_def,
          Schema.read, Bool.false_eq_true]

end Datum

/-! ## Duplication -/

theorem toOption_readBack (s : Schema) (j : Json) :
    (Duplicate.readBack s j.chars).toOption = if j.depth ≤ Json.depthLimit then (s.read 0 j).toOption else none := by
  have hparse := Json.parse_chars j
  unfold Duplicate.readBack
  split
  next fault hj =>
    rw [hj] at hparse
    split at hparse
    next => cases hparse
    next hdepth => rw [if_neg hdepth]; rfl
  next k hj =>
    rw [hj] at hparse
    split at hparse
    next hdepth =>
      cases hparse
      rw [if_pos hdepth]
      cases s.read 0 j <;> rfl
    next => cases hparse

/-- A value of a type has a copy exactly if `copied` gives one and its written form can be read. -/
theorem duplicate_eq_ok_iff {t : NamedSchema} {v : Datum} (h : t.schema.Has v) (w : Datum) :
    duplicate t v = .ok w ↔ v.copied = some w ∧ ∃ j, v.toJson = .ok j ∧ j.depth ≤ Json.depthLimit := by
  have hcopied := Datum.read_written h 0
  rw [← Except.toOption_eq_some_iff, ← hcopied]
  cases hj : v.toJson with
  | error refusal => simp [duplicate, hj, Except.toOption]
  | ok j =>
    have hback := toOption_readBack t.schema j
    have hdup : (duplicate t v).toOption = (Duplicate.readBack t.schema j.chars).toOption := by
      simp only [duplicate, hj]
      cases Duplicate.readBack t.schema j.chars <;> rfl
    rw [hdup, hback]
    by_cases hdepth : j.depth ≤ Json.depthLimit
    · simp [hdepth, Except.toOption_ok]
    · simp [hdepth]

/-- Every copy equals its value exactly if the value is faithful or has no copy at all. -/
theorem copies_exact_iff {t : NamedSchema} {v : Datum} (h : t.schema.Has v) :
    (∀ w, duplicate t v = .ok w ↔ v.copied = some w ∧ ∃ j, v.toJson = .ok j ∧ j.depth ≤ Json.depthLimit) ∧
      ∀ w, duplicate t v = .ok w → (w = v ↔ v.Faithful) :=
  ⟨duplicate_eq_ok_iff h, fun w hw => Datum.copied_eq_self_iff ((duplicate_eq_ok_iff h w).1 hw).1⟩

def optionsOfOptions : NamedSchema := ⟨"options", .list (.option (.option (.unsigned 8)))⟩

/-- absent, present with an absent content, present with a present content -/
def threeOptions : Datum := .list [.absent, .present .absent, .present (.present (.integer 255))]

/-- Of the three options the second comes back as the first. -/
theorem copies_exact_iff_options :
    optionsOfOptions.schema.Has threeOptions ∧
      duplicate optionsOfOptions threeOptions = .ok (.list [.absent, .absent, .present (.present (.integer 255))]) ∧
      ¬ threeOptions.Faithful := by
  have hhas : optionsOfOptions.schema.Has threeOptions := by
    refine .list fun v hv => ?_
    simp only [List.mem_cons, List.not_mem_nil, or_false] at hv
    rcases hv with rfl | rfl | rfl
    · exact .absent _
    · exact .present (.absent _)
    · exact .present (.present (.integer (by decide) (by decide)))
  have hcopy : duplicate optionsOfOptions threeOptions =
      .ok (.list [.absent, .absent, .present (.present (.integer 255))]) :=
    ((copies_exact_iff hhas).1 _).2 ⟨rfl, _, rfl, by decide⟩
  refine ⟨hhas, hcopy, fun hfaithful => ?_⟩
  have heq := ((copies_exact_iff hhas).2 _ hcopy).2 hfaithful
  simp [threeOptions] at heq

/-- A copy need not equal its value, and no failure says so. -/
theorem copy_differs : ¬ ∀ (t : NamedSchema) (v w : Datum), t.schema.Has v → duplicate t v = .ok w → w = v := by
  intro h
  have hhas : (Schema.option (.option .unit)).Has (.present .absent) := .present (.absent _)
  have hcopy : duplicate ⟨"option", .option (.option .unit)⟩ (.present .absent) = .ok .absent :=
    (duplicate_eq_ok_iff hhas _).2 ⟨rfl, _, rfl, by decide⟩
  cases h _ _ _ hhas hcopy

end ByNeed
