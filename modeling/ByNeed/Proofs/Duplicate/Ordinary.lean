/-
Ordinary values are copied exactly.

Of the values of a type only three kinds can be lost or changed by writing and reading: numbers in a binary format,
present options whose content is written as null, and cells. A type without them is ordinary (`Schema.Ordinary`):
whatever its values hold and however they nest, they are written (`Datum.writes_ordinary`) and come back as they are
(`Datum.copied_ordinary`), up to the depth at which the reader gives up. That depth is counted on the value itself
(`Datum.nesting`).
-/
import ByNeed.Proofs.Duplicate.Copies

namespace ByNeed

/-! ## Types -/

/-- keys that are written as strings -/
inductive Schema.TextKey : Schema → Prop
  | string : TextKey .string
  | integer (low high : Int) : TextKey (.integer low high)
  | char : TextKey .char
  | bool : TextKey .bool

/-- no value of the type is written as null -/
def Schema.NeverNull (s : Schema) : Prop := ∀ v, s.Has v → v.toJson ≠ .ok .null

/-- Types without binary numbers and cells, in which the content of an option is never written as null. Integers have any
bounds, those of 64 bits with and without a sign among them. -/
inductive Schema.Ordinary : Schema → Prop
  | unit : Ordinary .unit
  | bool : Ordinary .bool
  | integer (low high : Int) : Ordinary (.integer low high)
  | char : Ordinary .char
  | string : Ordinary .string
  | option {content : Schema} (hnever : content.NeverNull) (hcontent : Ordinary content) : Ordinary (.option content)
  | list {item : Schema} (hitem : Ordinary item) : Ordinary (.list item)
  | tuple {parts : List Schema} (hparts : ∀ s ∈ parts, Ordinary s) : Ordinary (.tuple parts)
  | record {fields : List (String × Schema)} (hfields : ∀ f ∈ fields, Ordinary f.2) : Ordinary (.record fields)
  | choice {bare : List String} {tagged : List (String × Schema)} (htagged : ∀ t ∈ tagged, Ordinary t.2) :
    Ordinary (.choice bare tagged)
  | map {key value : Schema} (hkey : TextKey key) (hvalue : Ordinary value) : Ordinary (.map key value)

namespace Datum

/-! ## Depth -/

mutual
/-- how many lists, tuples, records, payloads and maps a value has inside each other -/
def nesting : Datum → Nat
  | present content => nesting content
  | list items => itemsNesting items + 1
  | tuple parts => itemsNesting parts + 1
  | record fields => fieldsNesting fields + 1
  | tagged _ payload => nesting payload + 1
  | map entries => entriesNesting entries + 1
  | cell _ content => nesting content
  | _ => 0

def itemsNesting : List Datum → Nat
  | [] => 0
  | v :: rest => max v.nesting (itemsNesting rest)

def fieldsNesting : List (String × Datum) → Nat
  | [] => 0
  | (_, v) :: rest => max v.nesting (fieldsNesting rest)

/-- the nesting of the deepest value of a map; keys are texts -/
def entriesNesting : List (Datum × Datum) → Nat
  | [] => 0
  | (_, v) :: rest => max v.nesting (entriesNesting rest)
end

/-- what is written of a row is written of its head and of the rest -/
theorem map_cons_written {α β : Type} {x : Except Refusal α} {xs : Except Refusal (List β)} {f : α → β} {js : List β}
    (hwritten : (do return f (← x) :: (← xs)) = (.ok js : Except Refusal (List β))) :
    ∃ a rest, x = .ok a ∧ xs = .ok rest ∧ js = f a :: rest := by
  cases x with
  | error e => cases hwritten
  | ok a =>
    cases xs with
    | error e => cases hwritten
    | ok rest =>
      cases hwritten
      exact ⟨a, rest, rfl, rfl, rfl⟩

theorem itemsDepth_written {items : List Datum} {js : List Json}
    (h : ∀ v ∈ items, ∀ j, v.toJson = .ok j → j.depth = v.nesting) (hwritten : itemsToJson items = .ok js) :
    Json.itemsDepth js = itemsNesting items := by
  induction items generalizing js with
  | nil => cases hwritten; rfl
  | cons v rest ih =>
    rw [List.forall_mem_cons] at h
    obtain ⟨j, more, hj, hmore, rfl⟩ := map_cons_written (f := id) hwritten
    simp only [Json.itemsDepth, itemsNesting, id, h.1 j hj, ih h.2 hmore]

theorem fieldsDepth_written {fields : List (String × Datum)} {ms : List (String × Json)}
    (h : ∀ f ∈ fields, ∀ j, f.2.toJson = .ok j → j.depth = f.2.nesting) (hwritten : fieldsToJson fields = .ok ms) :
    Json.membersDepth ms = fieldsNesting fields := by
  induction fields generalizing ms with
  | nil => cases hwritten; rfl
  | cons f rest ih =>
    rw [List.forall_mem_cons] at h
    obtain ⟨j, more, hj, hmore, rfl⟩ := map_cons_written (f := (f.1, ·)) hwritten
    simp only [Json.membersDepth, fieldsNesting, h.1 j hj, ih h.2 hmore]

theorem entriesDepth_written {entries : List (Datum × Datum)} {ms : List (String × Json)}
    (h : ∀ e ∈ entries, ∀ j, e.2.toJson = .ok j → j.depth = e.2.nesting) (hwritten : entriesToJson entries = .ok ms) :
    Json.membersDepth ms = entriesNesting entries := by
  induction entries generalizing ms with
  | nil => cases hwritten; rfl
  | cons e rest ih =>
    rw [List.forall_mem_cons] at h
    rw [entriesToJson] at hwritten
    cases hkey : e.1.keyText with
    | error refusal => rw [hkey] at hwritten; cases hwritten
    | ok text =>
      rw [hkey] at hwritten
      obtain ⟨j, more, hj, hmore, rfl⟩ := map_cons_written (f := (text, ·)) hwritten
      simp only [Json.membersDepth, entriesNesting, h.1 j hj, ih h.2 hmore]

/-- The brackets that are open in a text are those of the value that it was written for. -/
theorem depth_written {v : Datum} {j : Json} (hwritten : v.toJson = .ok j) : j.depth = v.nesting := by
  induction v using parts_induction generalizing j with
  | step v ih =>
    cases v with
    | present content => exact ih content (by simp [parts]) hwritten
    | list items | tuple items =>
      obtain ⟨js, hjs, rfl⟩ := Except.map_eq_ok_iff.1 hwritten
      have hitemDepth : ∀ v ∈ items, ∀ j, v.toJson = .ok j → j.depth = v.nesting := fun v hv j hj => ih v hv hj
      rw [Json.depth, nesting, itemsDepth_written hitemDepth hjs]
    | record fields =>
      obtain ⟨ms, hms, rfl⟩ := Except.map_eq_ok_iff.1 hwritten
      rw [Json.depth, nesting, fieldsDepth_written (fun f hf j hj => ih f.2 (List.mem_map_of_mem hf) hj) hms]
    | map entries =>
      obtain ⟨ms, hms, rfl⟩ := Except.map_eq_ok_iff.1 hwritten
      rw [Json.depth, nesting, entriesDepth_written (fun e he j hj => ih e.2 (List.mem_map_of_mem he) hj) hms]
    | tagged variant payload =>
      rw [toJson] at hwritten
      obtain ⟨k, hk, rfl⟩ := Except.map_eq_ok_iff.1 hwritten
      have hpayloadDepth := ih payload (by simp [parts]) hk
      simp [Json.depth, Json.membersDepth, nesting, hpayloadDepth]
    | cell borrowed content =>
      rw [toJson] at hwritten
      cases borrowed with
      | true => cases hwritten
      | false => exact ih content (by simp [parts]) hwritten
    | float format bits =>
      cases hwritten
      rw [floatForm]
      cases Json.Number.ofBits? format bits <;> rfl
    | _ => cases hwritten; rfl

/-! ## Copies -/

theorem mapM_self {α : Type} {f : α → Option α} {as : List α} (h : ∀ a ∈ as, f a = some a) : as.mapM f = some as := by
  induction as with
  | nil => rfl
  | cons a as ih =>
    rw [List.forall_mem_cons] at h
    simp [List.mapM_cons, h.1, ih h.2]

theorem exists_mem_of_forall₂ {α β : Type} {R : α → β → Prop} {as : List α} {bs : List β} (h : List.Forall₂ R as bs)
    {b : β} (hb : b ∈ bs) : ∃ a ∈ as, R a b := by
  induction h with
  | nil => cases hb
  | @cons a b' as bs hab _ ih =>
    rcases List.mem_cons.1 hb with rfl | hb
    · exact ⟨a, by simp, hab⟩
    · obtain ⟨c, hc, hrelated⟩ := ih hb
      exact ⟨c, List.mem_cons_of_mem a hc, hrelated⟩

/-- What a value of an ordinary type holds has an ordinary type. -/
theorem ordinary_part {s : Schema} (hordinary : s.Ordinary) {v w : Datum} (h : s.Has v) (hw : w ∈ v.parts) :
    ∃ p : Schema, p.Ordinary ∧ p.Has w := by
  cases h with
  | present hv =>
    cases hordinary with
    | option hnever hcontent => exact ⟨_, hcontent, List.mem_singleton.1 hw ▸ hv⟩
  | list hitems =>
    cases hordinary with
    | list hitem => exact ⟨_, hitem, hitems w hw⟩
  | tuple hparts =>
    cases hordinary with
    | tuple hordinary' =>
      obtain ⟨p, hp, hw⟩ := exists_mem_of_forall₂ hparts hw
      exact ⟨p, hordinary' p hp, hw⟩
  | record hnames hfields =>
    cases hordinary with
    | record hordinary' =>
      obtain ⟨p, hp, hw⟩ := exists_mem_of_forall₂ hfields hw
      obtain ⟨f, hf, rfl⟩ := List.mem_map.1 hp
      exact ⟨f.2, hordinary' f hf, hw⟩
  | tagged names hname hv =>
    cases hordinary with
    | choice htagged =>
      rename_i tagged name p v
      obtain ⟨before, behind, rfl, -⟩ := List.lookup_eq_some_iff.1 hname
      exact ⟨p, htagged (name, p) (by simp), List.mem_singleton.1 hw ▸ hv⟩
  | map hkeys hvalues hsorted =>
    cases hordinary with
    | map hkey hvalue =>
      obtain ⟨e, he, rfl⟩ := List.mem_map.1 hw
      exact ⟨_, hvalue, hvalues e he⟩
  | cell borrowed hv => cases hordinary
  | _ => cases hw

theorem isText_of_textKey {key : Schema} (htext : key.TextKey) {k : Datum} (hk : key.Has k) : k.isText = true := by
  cases htext <;> cases hk <;> rfl

/-- A value of an ordinary type comes back as it is. -/
theorem copied_ordinary {s : Schema} (hordinary : s.Ordinary) {v : Datum} (h : s.Has v) : v.copied = some v := by
  induction v using parts_induction generalizing s with
  | step v ih =>
    have hpart : ∀ w ∈ v.parts, w.copied = some w := by
      intro w hw
      obtain ⟨p, hp, hhas⟩ := ordinary_part hordinary h hw
      exact ih w hw hp hhas
    cases h with
    | unit | bool | integer | char | string | absent | bare => rfl
    | float format bits => cases hordinary
    | cell borrowed hv => cases hordinary
    | present hv =>
      rename_i content v
      cases hordinary with
      | option hnever hcontent =>
        have hwritten : v.isNull = false :=
          Bool.eq_false_iff.2 fun hnull => hnever v hv ((toJson_eq_null_iff v).2 hnull)
        simp [copied, hwritten, hpart v (by simp [parts])]
    | list hitems =>
      rename_i items
      have heach : ∀ w ∈ items, w.copied = some w := hpart
      simp [copied, copiedItems_eq, mapM_self heach]
    | tuple hparts =>
      rename_i items
      have heach : ∀ w ∈ items, w.copied = some w := hpart
      simp [copied, copiedItems_eq, mapM_self heach]
    | record hnames hfields =>
      rename_i fields vs
      have heach : ∀ f ∈ vs, (copied f.2).map (f.1, ·) = some f := by
        intro f hf
        rw [hpart f.2 (List.mem_map_of_mem hf)]
        rfl
      simp [copied, copiedFields_eq, mapM_self heach]
    | tagged names hname hv =>
      rename_i v
      simp [copied, hpart v (by simp [parts])]
    | map hkeys hvalues hsorted =>
      rename_i entries
      cases hordinary with
      | map hkey hvalue =>
        have heach : ∀ e ∈ entries, (if e.1.isText then (copied e.2).map (e.1, ·) else none) = some e := by
          intro e he
          rw [if_pos (isText_of_textKey hkey (hkeys e he)), hpart e.2 (List.mem_map_of_mem he)]
          rfl
        simp [copied, copiedEntries_eq, mapM_self heach]

/-- so it can be written -/
theorem writes_ordinary {s : Schema} (hordinary : s.Ordinary) {v : Datum} (h : s.Has v) : ∃ j, v.toJson = .ok j := by
  have hcopy := (read_written h 0).trans (copied_ordinary hordinary h)
  cases hwritten : v.toJson with
  | ok j => exact ⟨j, rfl⟩
  | error refusal => simp [hwritten, Except.toOption_error] at hcopy

end Datum

/-- **Ordinary values are copied exactly.** A value of an ordinary type has itself as its copy, if and only if it does not
nest deeper than can be read. -/
theorem ordinary_values_copy {t : NamedSchema} {v : Datum} (hordinary : t.schema.Ordinary) (h : t.schema.Has v) :
    duplicate t v = .ok v ↔ v.nesting ≤ Json.depthLimit := by
  obtain ⟨j, hwritten⟩ := Datum.writes_ordinary hordinary h
  have hdepth := Datum.depth_written hwritten
  rw [duplicate_eq_ok_iff h]
  constructor
  · rintro ⟨-, k, hagain, hshallow⟩
    rw [hwritten] at hagain
    cases hagain
    exact hdepth ▸ hshallow
  · intro hshallow
    exact ⟨Datum.copied_ordinary hordinary h, j, hwritten, hdepth ▸ hshallow⟩

/-- a name, the limits of the integers, and rows of flags under numbers and names -/
def ledger : NamedSchema where
  name := "Ledger"
  schema := .record [("name", .string), ("limits", .tuple [.signed 64, .unsigned 64]),
    ("rows", .map (.signed 64) (.map .string (.option (.list .bool))))]

/-- quotes, backslashes, control characters and characters of several bytes; both limits; empty and absent rows -/
def fullLedger : Datum :=
  .record [("name", .string "\"\\/\n\x00\x1f\x7f é😀"),
    ("limits", .tuple [.integer (-9223372036854775808), .integer 18446744073709551615]),
    ("rows", .map [(.integer (-7), .map [(.string "", .absent), (.string "a\"", .present (.list []))]),
      (.integer 9223372036854775807, .map [(.string ",:", .present (.list [.bool true, .bool false]))])])]

theorem ordinary_values_copy_ledger :
    ledger.schema.Ordinary ∧ ledger.schema.Has fullLedger ∧ duplicate ledger fullLedger = .ok fullLedger := by
  have hflags : (Schema.list .bool).NeverNull := by
    intro v hv hnull
    cases hv
    simp [Datum.toJson_eq_null_iff, Datum.isNull] at hnull
  have hordinary : ledger.schema.Ordinary := by
    refine .record ?_
    simp only [List.forall_mem_cons, List.not_mem_nil, false_imp_iff, implies_true, and_true]
    refine ⟨.string, .tuple ?_, .map (.integer _ _) (.map .string (.option hflags (.list .bool)))⟩
    simp only [List.forall_mem_cons, List.not_mem_nil, false_imp_iff, implies_true, and_true]
    exact ⟨.integer _ _, .integer _ _⟩
  have hhas : ledger.schema.Has fullLedger := by
    refine .record rfl (.cons (.string _) (.cons (.tuple ?_) (.cons (.map ?_ ?_ ?_) .nil)))
    · exact .cons (.integer (by decide) (by decide)) (.cons (.integer (by decide) (by decide)) .nil)
    · simp only [List.forall_mem_cons, List.not_mem_nil, false_imp_iff, implies_true, and_true]
      exact ⟨.integer (by decide) (by decide), .integer (by decide) (by decide)⟩
    · simp only [List.forall_mem_cons, List.not_mem_nil, false_imp_iff, implies_true, and_true]
      refine ⟨.map ?_ ?_ (by decide +kernel), .map ?_ ?_ (by decide +kernel)⟩ <;>
        simp only [List.forall_mem_cons, List.not_mem_nil, false_imp_iff, implies_true, and_true]
      · exact ⟨.string _, .string _⟩
      · exact ⟨.absent _, .present (.list (by simp))⟩
      · exact .string _
      · refine .present (.list ?_)
        simp only [List.forall_mem_cons, List.not_mem_nil, false_imp_iff, implies_true, and_true]
        exact ⟨.bool _, .bool _⟩
    · decide +kernel
  exact ⟨hordinary, hhas, (ordinary_values_copy hordinary hhas).2 (by decide)⟩

end ByNeed
