/-
Reading a JSON text undoes writing it, up to the depth limit.

`Reads` says what a reader does with a text that was written for one item: it takes exactly that text and gives the item
back, or it refuses because brackets are nested too deeply. Lists between brackets inherit it from their items
(`separated_joined`, `bracketed_joined`), and by induction over the value every value has it (`value_reads`).
`parse_chars` is the case of a whole text.
-/
import ByNeed.Proofs.Failing
import ByNeed.Proofs.Json.Scalars

namespace ByNeed

namespace Json

/-! ## Depth -/

mutual
/-- how many brackets are open at once at most -/
def depth : Json → Nat
  | array items => itemsDepth items + 1
  | object members => membersDepth members + 1
  | _ => 0

def itemsDepth : List Json → Nat
  | [] => 0
  | j :: rest => max j.depth (itemsDepth rest)

def membersDepth : List (String × Json) → Nat
  | [] => 0
  | (_, j) :: rest => max j.depth (membersDepth rest)
end

theorem itemsDepth_le {items : List Json} {d : Nat} : itemsDepth items ≤ d ↔ ∀ j ∈ items, j.depth ≤ d := by
  induction items with
  | nil => simp [itemsDepth]
  | cons j rest ih => rw [itemsDepth, Nat.max_le, ih, List.forall_mem_cons]

theorem membersDepth_le {members : List (String × Json)} {d : Nat} :
    membersDepth members ≤ d ↔ ∀ m ∈ members, m.2.depth ≤ d := by
  induction members with
  | nil => simp [membersDepth]
  | cons m rest ih => rw [membersDepth, Nat.max_le, ih, List.forall_mem_cons]

/-! ## Induction over a value -/

/-- the values that stand directly inside the brackets of a value -/
def parts : Json → List Json
  | array items => items
  | object members => members.map Prod.snd
  | _ => []

theorem sizeOf_part {j k : Json} (h : k ∈ j.parts) : sizeOf k < sizeOf j := by
  cases j with
  | array items =>
    have : sizeOf k < sizeOf items := List.sizeOf_lt_of_mem h
    simp only [array.sizeOf_spec]
    omega
  | object members =>
    obtain ⟨⟨key, k⟩, hmem, rfl⟩ := List.mem_map.1 h
    have := List.sizeOf_lt_of_mem hmem
    simp only [object.sizeOf_spec, Prod.mk.sizeOf_spec] at this ⊢
    omega
  | _ => cases h

theorem parts_induction {P : Json → Prop} (step : ∀ j, (∀ k ∈ j.parts, P k) → P j) (j : Json) : P j :=
  step j fun k hk =>
    have := sizeOf_part hk
    parts_induction step k
termination_by sizeOf j

/-! ## Lists between brackets -/

theorem itemChars_eq (items : List Json) : itemChars items = [','].intercalate (items.map chars) := by
  induction items with
  | nil => rfl
  | cons j rest ih =>
    cases rest with
    | nil => simp [itemChars]
    | cons k rest => simp [itemChars, ih, List.intercalate_cons_cons]

def memberText (m : String × Json) : List Char := quoted m.1.toList ++ ':' :: m.2.chars

theorem memberChars_eq (members : List (String × Json)) :
    memberChars members = [','].intercalate (members.map memberText) := by
  induction members with
  | nil => rfl
  | cons m rest ih =>
    cases rest with
    | nil => simp [memberChars, memberText]
    | cons k rest => simp [memberChars, memberText, ih, List.intercalate_cons_cons]

/-- The reader takes the text of the item off the front, whatever ends it, and gives the item if it fits; it refuses an
item that does not. -/
def Reads {α : Type} (read : List Char → Except Fault (α × List Char)) (write : α → List Char) (fits : α → Bool)
    (a : α) :
    Prop :=
  ∀ rest, Ends rest → (read (write a ++ rest)).toOption = if fits a then some (a, rest) else none

section Brackets

variable {α : Type} {read : List Char → Except Fault (α × List Char)} {write : α → List Char} {fits : α → Bool}
  {close : Char}

theorem separated_joined (hends : ∀ rest, Ends (close :: rest)) (hcomma : ',' ≠ close) {items : List α}
    (hitems : ∀ a ∈ items, Reads read write fits a) (hne : items ≠ []) {fuel : Nat} (hfuel : items.length ≤ fuel)
    (rest : List Char) :
    (separated read close fuel ([','].intercalate (items.map write) ++ close :: rest)).toOption =
      if items.all fits then some (items, rest) else none := by
  induction items generalizing fuel with
  | nil => exact absurd rfl hne
  | cons a more ih =>
    obtain ⟨fuel, rfl⟩ : ∃ n, fuel = n + 1 := ⟨fuel - 1, by simp at hfuel; omega⟩
    have ha := hitems a (by simp)
    cases more with
    | nil =>
      have hread := ha (close :: rest) (hends rest)
      simp only [List.map_cons, List.map_nil, List.intercalate_singleton, separated, Except.toOption_bind, hread]
      by_cases hfit : fits a = true
      · simp [hfit]; rfl
      · simp [hfit]
    | cons b more =>
      have hread := ha (',' :: ([','].intercalate ((b :: more).map write) ++ close :: rest)) (by simp [Ends])
      have hmore := ih (fun c hc => hitems c (List.mem_cons_of_mem a hc)) (by simp) (Nat.le_of_succ_le_succ hfuel)
      have hjoin : [','].intercalate ((a :: b :: more).map write) ++ close :: rest =
          write a ++ ',' :: ([','].intercalate ((b :: more).map write) ++ close :: rest) := by
        simp [List.intercalate_cons_cons]
      rw [hjoin]
      simp only [separated, Except.toOption_bind, hread]
      by_cases hfit : fits a = true
      · rw [if_pos hfit, Option.bind_some, List.all_cons, hfit, Bool.true_and]
        simp only [if_neg hcomma, if_true, Except.toOption_bind, hmore]
        by_cases hall : (b :: more).all fits = true
        · rw [if_pos hall, if_pos hall]; rfl
        · rw [if_neg hall, if_neg hall]; rfl
      · simp [hfit]

/-- The number of items does not exceed the length of their text, so the bound on items is never met. -/
theorem length_le_joined (write : α → List Char) (close : Char) (items : List α) (rest : List Char) :
    items.length ≤ ([','].intercalate (items.map write) ++ close :: rest).length := by
  induction items with
  | nil => simp
  | cons a more ih =>
    cases more with
    | nil => simp; omega
    | cons b more =>
      simp only [List.map_cons, List.intercalate_cons_cons, List.length_append, List.length_cons,
        List.length_nil] at ih ⊢
      omega

theorem bracketed_joined (hends : ∀ rest, Ends (close :: rest)) (hcomma : ',' ≠ close) {items : List α}
    (hitems : ∀ a ∈ items, Reads read write fits a) (hheads : ∀ a ∈ items, ∃ c cs, write a = c :: cs ∧ c ≠ close)
    (rest : List Char) :
    (bracketed read close ([','].intercalate (items.map write) ++ close :: rest)).toOption =
      if items.all fits then some (items, rest) else none := by
  cases items with
  | nil => simp [bracketed]; rfl
  | cons a more =>
    have hsep := separated_joined hends hcomma hitems (by simp) (length_le_joined write close (a :: more) rest) rest
    obtain ⟨c, cs, hwrite, hc⟩ := hheads a (by simp)
    obtain ⟨tail, htail⟩ : ∃ tail, [','].intercalate ((a :: more).map write) ++ close :: rest = c :: tail := by
      cases more with
      | nil => exact ⟨_, by rw [List.map_cons, List.map_nil, List.intercalate_singleton, hwrite, List.cons_append]⟩
      | cons b more => exact ⟨_, by rw [List.map_cons, List.map_cons, List.intercalate_cons_cons, hwrite]; rfl⟩
    rw [htail] at hsep ⊢
    rw [bracketed, if_neg hc, hsep]

end Brackets

/-! ## Values -/

theorem member_reads {value : List Char → Except Fault (Json × List Char)} {fits : Json → Bool} {m : String × Json}
    (hvalue : Reads value chars fits m.2) : Reads (member value) memberText (fun m => fits m.2) m := by
  obtain ⟨key, j⟩ := m
  intro rest hrest
  have hkey := unquoted_escaped key.toList (':' :: (j.chars ++ rest))
  have htext : memberText (key, j) ++ rest = '"' :: (key.toList.flatMap escape ++ '"' :: ':' :: (j.chars ++ rest)) := by
    simp [memberText, quoted]
  rw [htext]
  simp only [member, hkey, Except.toOption_bind, hvalue rest hrest]
  by_cases hfit : fits j = true
  · simp [hfit]; rfl
  · simp [hfit]

/-- the first character of a number -/
def Opens (c : Char) : Prop := c = '-' ∨ c.isDigit = true

theorem Number.chars_opens (n : Number) : ∃ c cs, n.chars = c :: cs ∧ Opens c := by
  obtain ⟨whole, fraction, hrow, -, hne, -, hchars⟩ := Number.chars_eq n
  obtain ⟨d, ds, rfl⟩ := List.exists_cons_of_ne_nil hne
  have hd : d.isDigit = true := (hrow ▸ Number.row_padded _ _ : Row ((d :: ds) ++ fraction)) d (by simp)
  rw [hchars]
  cases n.negative with
  | true => exact ⟨_, _, rfl, .inl rfl⟩
  | false => exact ⟨_, _, rfl, .inr hd⟩

theorem value_number {c : Char} (hc : Opens c) (d : Nat) {cs rest : List Char} {n : Number}
    (hread : Number.read? (c :: cs) = some (n, rest)) : value d (c :: cs) = .ok (.number n, rest) := by
  have hne : ∀ k ∈ ['n', 't', 'f', '"', '[', '\x7b'], c ≠ k := by
    have hall : ∀ k ∈ ['n', 't', 'f', '"', '[', '\x7b'], ¬ Opens k := by simp [Opens]
    rintro k hk rfl
    exact hall c hk hc
  have hscalar : scalar (c :: cs) = .ok (.number n, rest) := by
    unfold scalar
    split <;> simp_all
  cases d <;> (unfold value; split <;> simp_all)

theorem chars_head (j : Json) : ∃ c cs, j.chars = c :: cs ∧ c ≠ ']' := by
  cases j with
  | number n =>
    obtain ⟨c, cs, hchars, hc⟩ := n.chars_opens
    refine ⟨c, cs, hchars, ?_⟩
    rintro rfl
    exact absurd hc (by simp [Opens])
  | bool b => cases b <;> exact ⟨_, _, rfl, by decide⟩
  | _ => exact ⟨_, _, rfl, by decide⟩

theorem value_reads (j : Json) (d : Nat) : Reads (value d) chars (fun j => decide (j.depth ≤ d)) j := by
  induction j using parts_induction generalizing d with
  | step j ih =>
    intro rest hrest
    cases j with
    | null => cases d <;> rfl
    | bool b => cases b <;> cases d <;> rfl
    | number n =>
      obtain ⟨c, cs, hchars, hc⟩ := n.chars_opens
      have hread := Number.read_chars n hrest
      rw [hchars, List.cons_append] at hread
      have htext : (number n).chars ++ rest = c :: (cs ++ rest) := by rw [chars, hchars, List.cons_append]
      simp only [htext, value_number hc d hread, depth, Nat.zero_le, decide_true, if_true]
      rfl
    | string s =>
      have hread := unquoted_escaped s.toList rest
      have htext : (string s).chars ++ rest = '"' :: (s.toList.flatMap escape ++ '"' :: rest) := by simp [chars, quoted]
      rw [htext]
      cases d <;> simp [value, scalar, hread, depth] <;> rfl
    | array items =>
      -- each bracket costs one level, so that both sides refuse at level zero
      cases d with
      | zero => simp [chars, value, depth]; rfl
      | succ d =>
        have hends : ∀ rest, Ends (']' :: rest) := fun _ => by simp [Ends]
        have hreads : ∀ k ∈ items, Reads (value d) chars (fun k => decide (k.depth ≤ d)) k := fun k hk => ih k hk d
        have hitems := bracketed_joined hends (by decide) hreads (fun k _ => chars_head k) rest
        have htext : (array items).chars ++ rest = '[' :: ([','].intercalate (items.map chars) ++ ']' :: rest) := by
          simp [chars, itemChars_eq]
        have hdepth : items.all (fun k => decide (k.depth ≤ d)) = decide ((array items).depth ≤ d + 1) := by
          rw [Bool.eq_iff_iff, List.all_eq_true, decide_eq_true_iff, depth, Nat.add_le_add_iff_right, itemsDepth_le]
          simp only [decide_eq_true_iff]
        simp only [htext, value, Except.toOption_bind, hitems, hdepth]
        split <;> rfl
    | object members =>
      cases d with
      | zero => simp [chars, value, depth]; rfl
      | succ d =>
        have hends : ∀ rest, Ends ('\x7d' :: rest) := fun _ => by simp [Ends]
        have hmembers := bracketed_joined hends (by decide)
          (fun m hm => member_reads (ih m.2 (List.mem_map_of_mem hm) d)) (fun m _ => ⟨_, _, rfl, by decide⟩) rest
        have htext : (object members).chars ++ rest =
            '\x7b' :: ([','].intercalate (members.map memberText) ++ '\x7d' :: rest) := by
          simp [chars, memberChars_eq]
        have hdepth : members.all (fun m => decide (m.2.depth ≤ d)) = decide ((object members).depth ≤ d + 1) := by
          rw [Bool.eq_iff_iff, List.all_eq_true, decide_eq_true_iff, depth, Nat.add_le_add_iff_right, membersDepth_le]
          simp only [decide_eq_true_iff]
        simp only [htext, value, Except.toOption_bind, hmembers, hdepth]
        split <;> rfl

/-- A written value is read back, unless it is deeper than the limit. -/
theorem parse_chars (j : Json) : (parse j.chars).toOption = if j.depth ≤ depthLimit then some j else none := by
  have hread := value_reads j depthLimit [] trivial
  rw [List.append_nil] at hread
  simp only [parse, Except.toOption_bind, hread]
  by_cases hdepth : j.depth ≤ depthLimit
  · simp [hdepth]; rfl
  · simp [hdepth]

end Json

end ByNeed
