/-
The cells of the Fibonacci list.

The list is the sum of itself and its own tail. Each position adds one cell for its element, which is the addition of
the two elements before, and one cell for the rest of the list. As nothing else is made on the way, it is known where they
are.
- `element_leads`: by induction on the position, an element comes to its value. On the way the additions are made that
  have not been made yet, each once (`Adds`).
- `front_leads`: the list grows by one position (`Grown`), and no addition is made.
- `elementsAt_settles`: elements are demanded in any order, and no addition is made twice.
-/
import ByNeed.Proofs.Demo.Watching

namespace ByNeed.Demo

open Machine Host

/-- the code calls for an addition -/
def Code.isPlus : Code → Bool
  | .enter .plus _ => true
  | _ => false

/-- the element at a position, if the list goes so far; otherwise its end -/
def elementAt (E : Engine Empty Code Value) : Nat → Ref → Host (List Code) Code Value Value
  | 0, xs => do
    match ← watch E xs with
    | .cons head _ => watch E head
    | v => return v
  | i + 1, xs => do
    match ← watch E xs with
    | .cons _ tail => elementAt E i tail
    | v => return v

def elementsAt (E : Engine Empty Code Value) (is : List Nat) (xs : Ref) :
    Host (List Code) Code Value (List (Outcome Value)) :=
  is.mapM fun i => Host.attempt (elementAt E i xs)

/-- the cell of the element at a position, if the list has been evaluated so far -/
def headAt? (h : Heap Unit Code Value) : Nat → Ref → Option Ref
  | 0, xs =>
    match h[xs]? with
    | some (.value (.cons head _)) => some head
    | _ => none
  | i + 1, xs =>
    match h[xs]? with
    | some (.value (.cons _ tail)) => headAt? h i tail
    | _ => none

namespace Fibs

/-! ## Where the cells are -/

/-- the cell of the list at a position, if `b` is the first one -/
def spine (b : Nat) : Nat → Nat
  | 0 => b
  | 1 => b + 4
  | 2 => b + 2
  | i + 3 => b + (2 * i + 7)

def elem (b : Nat) : Nat → Nat
  | 0 => b + 5
  | 1 => b + 3
  | i + 2 => b + (2 * i + 6)

def addition (b : Ref) (p : Nat) : Code := .enter .plus [elem b (p + 1), elem b p]

/-- the code of the list at position `j + 2` -/
def rest (b : Ref) : Nat → Code
  | 0 => .zipWith Task.plus b (b + 1)
  | j + 1 => .zipWith Task.plus (spine b (j + 1)) (spine b (j + 2))

variable {b i j p : Nat}

theorem elem_inj : elem b i = elem b j ↔ i = j := by
  rcases i with _ | _ | i <;> rcases j with _ | _ | j <;> simp only [elem] <;> omega

theorem elem_add_two_inj : elem b (i + 2) = elem b (j + 2) ↔ i = j := by rw [elem_inj, Nat.add_right_cancel_iff]

theorem spine_inj : spine b i = spine b j ↔ i = j := by
  rcases i with _ | _ | _ | i <;> rcases j with _ | _ | _ | j <;> simp only [spine] <;> omega

theorem spine_ne_elem : spine b i ≠ elem b j := by
  rcases i with _ | _ | _ | i <;> rcases j with _ | _ | j <;> simp only [spine, elem] <;> omega

theorem spine_ne_second : spine b i ≠ b + 1 := by
  rcases i with _ | _ | _ | i <;> simp only [spine] <;> omega

theorem elem_ne_second : elem b i ≠ b + 1 := by
  rcases i with _ | _ | i <;> simp only [elem] <;> omega

/-! ## Elements -/

variable {h h' h'' : Heap Unit Code Value} {ps qs : List Nat} {events : List String}
  {stack : List (Frame Empty Code Value)}

def Known (b : Ref) (h : Heap Unit Code Value) (i : Nat) : Prop := h.outcome? (elem b i) = some (.int <$> fibOf i)

/-- the element is known, or its addition is still to be made -/
def Standing (b : Ref) (h : Heap Unit Code Value) (i : Nat) : Prop :=
  Known b h i ∨ ∃ p, i = p + 2 ∧ h[elem b i]? = some (.pending (addition b p))

/-- From the first heap to the second, the elements two behind these positions have been added up, and nothing else has
changed. -/
structure Adds (b : Ref) (h : Heap Unit Code Value) (ps : List Nat) (h' : Heap Unit Code Value) : Prop where
  nodup : ps.Nodup
  opened : ∀ p ∈ ps, h[elem b (p + 2)]? = some (.pending (addition b p))
  known : ∀ p ∈ ps, Known b h' (p + 2)
  same : ∀ r, (∀ p ∈ ps, r ≠ elem b (p + 2)) → h'[r]? = h[r]?
  size : h'.size = h.size

theorem known_not_pending (hknown : Known b h i) {c : Code} : h[elem b i]? ≠ some (.pending c) := by
  rw [Heap.outcome?_eq_some.1 hknown]
  exact fun hsame => Cell.ofOutcome_ne_pending _ c (Option.some.inj hsame)

/-- an element that is known has been made -/
theorem Known.lt (hknown : Known b h i) : elem b i < h.size := by
  have hinside : h[elem b i]? = some _ := Heap.outcome?_eq_some.1 hknown
  obtain ⟨hmade, -⟩ := Array.getElem?_eq_some_iff.1 hinside
  exact hmade

theorem Known.same (hknown : Known b h i) (hsame : h'[elem b i]? = h[elem b i]?) : Known b h' i := by
  rw [Known, Heap.outcome?, hsame]
  exact hknown

theorem Adds.refl (b : Ref) (h : Heap Unit Code Value) : Adds b h [] h :=
  ⟨List.nodup_nil, List.forall_mem_nil _, List.forall_mem_nil _, fun _ _ => rfl, rfl⟩

/-- what is known stays known -/
theorem Adds.keeps (hadds : Adds b h ps h') (hknown : Known b h i) : Known b h' i := by
  refine hknown.same (hadds.same _ fun p hp hsame => ?_)
  obtain rfl := elem_inj.1 hsame
  exact known_not_pending hknown (hadds.opened p hp)

theorem Adds.standing (hadds : Adds b h ps h') (hstanding : Standing b h i) : Standing b h' i := by
  rcases hstanding with hknown | ⟨p, rfl, hcode⟩
  · exact .inl (hadds.keeps hknown)
  · by_cases hp : p ∈ ps
    · exact .inl (hadds.known p hp)
    · refine .inr ⟨p, rfl, ?_⟩
      rw [hadds.same _ fun q hq hsame => ?_, hcode]
      obtain rfl := elem_add_two_inj.1 hsame
      exact hp hq

/-- no addition is made again -/
theorem Adds.not_again (hadds : Adds b h ps h') (hknown : Known b h (p + 2)) : p ∉ ps :=
  fun hp => known_not_pending hknown (hadds.opened p hp)

/-- additions made before stay made, and are others -/
theorem Adds.after (hadds : Adds b h qs h') (hnodup : ps.Nodup) (hknown : ∀ p ∈ ps, Known b h (p + 2)) :
    (ps ++ qs).Nodup ∧ ∀ p ∈ ps ++ qs, Known b h' (p + 2) := by
  refine ⟨List.nodup_append.2 ⟨hnodup, hadds.nodup, ?_⟩, List.forall_mem_append.2 ⟨?_, hadds.known⟩⟩
  · rintro p hp q hq rfl
    exact hadds.not_again (hknown p hp) hq
  · exact fun p hp => hadds.keeps (hknown p hp)

theorem Adds.trans (hadds : Adds b h ps h') (hadds' : Adds b h' qs h'') : Adds b h (ps ++ qs) h'' := by
  obtain ⟨hnodup, hknown⟩ := hadds'.after hadds.nodup hadds.known
  refine ⟨hnodup, List.forall_mem_append.2 ⟨hadds.opened, fun p hp => ?_⟩, hknown, fun r hr => ?_,
    hadds'.size.trans hadds.size⟩
  · rw [← hadds.same (elem b (p + 2)) fun q hq hsame => ?_]
    · exact hadds'.opened p hp
    · obtain rfl := elem_add_two_inj.1 hsame
      exact hadds'.not_again (hadds.known p hq) hp
  · -- what neither of them adds up is left alone by both
    rw [hadds'.same r fun p hp => hr p (List.mem_append_right ps hp)]
    exact hadds.same r fun p hp => hr p (List.mem_append_left qs hp)

def claimed (h : Heap Unit Code Value) (r : Ref) : Heap Unit Code Value := h.setIfInBounds r (.busy ())

theorem getElem?_claimed {r : Ref} {c : Code} (hcode : h[r]? = some (.pending c)) (q : Ref) :
    (claimed h r)[q]? = if q = r then some (.busy ()) else h[q]? :=
  Heap.getElem?_claimed hcode (.busy ()) q

theorem size_claimed (h : Heap Unit Code Value) (r : Ref) : (claimed h r).size = h.size := Array.size_setIfInBounds

theorem standing_claimed (hcode : h[elem b (p + 2)]? = some (.pending (addition b p))) (hbefore : i < p + 2)
    (hstanding : Standing b h i) : Standing b (claimed h (elem b (p + 2))) i := by
  have hsame : (claimed h (elem b (p + 2)))[elem b i]? = h[elem b i]? := by
    rw [getElem?_claimed hcode, if_neg fun hsame => Nat.ne_of_lt hbefore (elem_inj.1 hsame)]
  rcases hstanding with hknown | ⟨q, rfl, hpending⟩
  · exact .inl (hknown.same hsame)
  · exact .inr ⟨q, rfl, hsame.trans hpending⟩

/-- other additions may be made before the addition in progress comes to its end -/
theorem Adds.around (hcode : h[elem b (p + 2)]? = some (.pending (addition b p)))
    (hadds : Adds b (claimed h (elem b (p + 2))) ps h') :
    Adds b h (p :: ps) (h'.settleAll (.int <$> fibOf (p + 2)) [elem b (p + 2)]) := by
  have hbusy := getElem?_claimed hcode
  have hother : p ∉ ps := by
    intro hp
    have hopened := hadds.opened p hp
    rw [hbusy, if_pos rfl] at hopened
    cases hopened
  have hapart : ∀ q ∈ ps, elem b (q + 2) ≠ elem b (p + 2) := by
    intro q hq hsame
    obtain rfl := elem_add_two_inj.1 hsame
    exact hother hq
  have houtside : ∀ r ≠ elem b (p + 2), (h'.settleAll (.int <$> fibOf (p + 2)) [elem b (p + 2)])[r]? = h'[r]? :=
    fun r hr => Heap.getElem?_settleAll_of_notMem (by simpa using hr)
  have hstill : h'[elem b (p + 2)]? = some (.busy ()) := by
    rw [hadds.same _ fun q hq hsame => hapart q hq hsame.symm, hbusy, if_pos rfl]
  refine ⟨List.nodup_cons.2 ⟨hother, hadds.nodup⟩, ?_, ?_, ?_, ?_⟩
  · refine List.forall_mem_cons.2 ⟨hcode, fun q hq => ?_⟩
    have hopened := hadds.opened q hq
    rwa [hbusy, if_neg (hapart q hq)] at hopened
  · refine List.forall_mem_cons.2 ⟨?_, fun q hq => (hadds.known q hq).same (houtside _ (hapart q hq))⟩
    exact Heap.outcome?_eq_some.2 (Heap.getElem?_settleAll_of_mem List.mem_cons_self hstill)
  · intro r hr
    obtain ⟨hfirst, hlater⟩ := List.forall_mem_cons.1 hr
    rw [houtside r hfirst, hadds.same r hlater, hbusy, if_neg hfirst]
  · rw [Heap.size_settleAll, hadds.size, size_claimed]

/-- demanding the element at a position gives it, and makes additions up to there -/
def Gives (b : Ref) (i : Nat) : Prop :=
  ∀ {h : Heap Unit Code Value}, (∀ j ≤ i, Standing b h j) → ∀ events stack, ∃ ps h',
    Leads (engine 0) ⟨h, events, .demand (elem b i), stack⟩ (ps.map (addition b))
      ⟨h', events, .give (.int <$> fibOf i), stack⟩ ∧
    Adds b h ps h' ∧ (∀ p ∈ ps, p + 2 ≤ i) ∧ Known b h' i

/-- how an addition goes on with its right operand -/
def plusRight (x : Int64) (o : Outcome Value) : Task (Next Code Value) :=
  (Comp.ofOutcome o).bind fun w => (Task.needInt w).bind fun y => (Comp.ofOutcome (Checked.add x y)).bind fun n =>
    .done (.value (.int n))

/-- how an addition goes on with its left operand -/
def plusLeft (y : Ref) (o : Outcome Value) : Task (Next Code Value) :=
  (Comp.ofOutcome o).bind fun v => (Task.needInt v).bind fun x => .force y (plusRight x)

theorem addition_body (b p : Nat) : (addition b p).body = .force (elem b p) (plusLeft (elem b (p + 1))) := rfl

/-- the right operand ends the walk of an addition -/
theorem plusRight_leads (x : Int64) (o : Outcome Int64) {rs : List Ref} :
    Leads (engine 0) ⟨h, events, .run (plusRight x (.int <$> o)), .walk rs :: stack⟩ []
      ⟨h.settleAll (.int <$> plusOf (.ok x) o) rs, events, .give (.int <$> plusOf (.ok x) o), stack⟩ := by
  cases o with
  | error e => exact leads_fail e
  | ok y =>
    have hsum : plusOf (.ok x) (.ok y) = Checked.add x y := rfl
    have hnext : plusRight x (Value.int <$> Except.ok y) =
        (Comp.ofOutcome (Checked.add x y)).bind fun n => .done (.value (.int n)) := rfl
    rw [hsum, hnext]
    cases Checked.add x y with
    | error e => exact leads_fail e
    | ok n => exact leads_value (Value.int n)

/-- the code of an element: the left operand is demanded first, and if it fails, the right one is left alone -/
theorem addition_leads (hfirst : Gives b p) (hsecond : Gives b (p + 1)) (hstanding : ∀ j < p + 2, Standing b h j)
    (rs : List Ref) (events : List String) (stack : List (Frame Empty Code Value)) :
    ∃ ps h', Leads (engine 0) ⟨h, events, .run (addition b p).body, .walk rs :: stack⟩ (ps.map (addition b))
        ⟨h'.settleAll (.int <$> fibOf (p + 2)) rs, events, .give (.int <$> fibOf (p + 2)), stack⟩ ∧
      Adds b h ps h' ∧ ∀ q ∈ ps, q + 2 ≤ p + 1 := by
  obtain ⟨ps, h₁, hleads₁, hadds₁, hlow₁, -⟩ := hfirst (fun j hj => hstanding j (by omega)) events
    (.resume (plusLeft (elem b (p + 1))) :: .walk rs :: stack)
  rw [addition_body, fibOf]
  cases hleft : fibOf p with
  | error e =>
    rw [hleft] at hleads₁
    refine ⟨ps, h₁, ?_, hadds₁, fun q hq => (hlow₁ q hq).trans (Nat.le_succ p)⟩
    have hwhole := leads_force hleads₁ (leads_fail e)
    rwa [List.append_nil] at hwhole
  | ok x =>
    rw [hleft] at hleads₁
    obtain ⟨qs, h₂, hleads₂, hadds₂, hlow₂, -⟩ := hsecond (fun j hj => hadds₁.standing (hstanding j (by omega))) events
      (.resume (plusRight x) :: .walk rs :: stack)
    refine ⟨ps ++ qs, h₂, ?_, hadds₁.trans hadds₂, fun q hq => ?_⟩
    · have hsum := leads_force hleads₂ (plusRight_leads x (fibOf (p + 1)))
      rw [List.append_nil] at hsum
      rw [List.map_append]
      exact leads_force hleads₁ hsum
    · rcases List.mem_append.1 hq with hq | hq
      · exact (hlow₁ q hq).trans (Nat.le_succ p)
      · exact hlow₂ q hq

/-- **Demanding an element.** -/
theorem element_leads (b : Ref) (i : Nat) : Gives b i := by
  induction i using Nat.strongRecOn with
  | ind i ih =>
    intro h hstanding events stack
    rcases hstanding i le_rfl with hknown | ⟨p, rfl, hcode⟩
    · exact ⟨[], h, leads_answer hknown, .refl b h, List.forall_mem_nil _, hknown⟩
    · -- its own cell is in progress while the two operands are demanded
      have hbefore : ∀ j < p + 2, Standing b (claimed h (elem b (p + 2))) j :=
        fun j hj => standing_claimed hcode hj (hstanding j (Nat.le_of_lt hj))
      obtain ⟨ps, h', hleads, hadds, hlow⟩ :=
        addition_leads (ih p (by omega)) (ih (p + 1) (by omega)) hbefore [elem b (p + 2)] events stack
      refine ⟨p :: ps, _, leads_claim hcode hleads, hadds.around hcode, ?_,
        (hadds.around hcode).known p List.mem_cons_self⟩
      exact List.forall_mem_cons.2 ⟨le_rfl, fun q hq => (hlow q hq).trans (Nat.le_succ _)⟩

/-! ## The list -/

/-- the first `j + 2` positions of the list have been evaluated, and nothing has been made behind its cells -/
structure Grown (b j : Nat) (h : Heap Unit Code Value) : Prop where
  size : h.size = b + (2 * j + 6)
  cells : ∀ i < j + 2, h[spine b i]? = some (.value (.cons (elem b i) (spine b (i + 1))))
  front : h[spine b (j + 2)]? = some (.pending (rest b j))
  second : j = 0 → h[b + 1]? = some (.pending (.tail b))
  standing : ∀ i < j + 2, Standing b h i

theorem Grown.adds (hgrown : Grown b j h) (hadds : Adds b h ps h') : Grown b j h' := by
  have hspines : ∀ i, h'[spine b i]? = h[spine b i]? := fun i => hadds.same _ fun _ _ => spine_ne_elem
  refine ⟨hadds.size.trans hgrown.size, fun i hi => ?_, ?_, fun hj => ?_,
    fun i hi => hadds.standing (hgrown.standing i hi)⟩
  · rw [hspines, hgrown.cells i hi]
  · rw [hspines, hgrown.front]
  · rw [hadds.same _ fun _ _ => elem_ne_second.symm, hgrown.second hj]

/-- the heap with one more position, whose cell was in progress -/
def grow (b j : Nat) (h : Heap Unit Code Value) : Heap Unit Code Value :=
  Heap.settleAll ((h.push (.pending (addition b j))).push (.pending (rest b (j + 1))))
    (.ok (.cons (elem b (j + 2)) (spine b (j + 3)))) [spine b (j + 2)]

theorem getElem?_grow (hsize : h.size = b + (2 * j + 6)) (r : Nat) :
    (grow b j h)[r]? =
      if r = spine b (j + 2) then some (.value (.cons (elem b (j + 2)) (spine b (j + 3))))
      else if r = elem b (j + 2) then some (.pending (addition b j))
      else if r = spine b (j + 3) then some (.pending (rest b (j + 1)))
      else h[r]? := by
  have helement : elem b (j + 2) = h.size := hsize.symm
  have hnext : spine b (j + 3) = h.size + 1 := by rw [hsize]; rfl
  have hinside : spine b (j + 2) < h.size + 2 := by
    rw [hsize]
    cases j with
    | zero => simp only [spine]; omega
    | succ j => simp only [spine]; omega
  simp only [grow, Heap.getElem?_settleAll, List.mem_singleton, Array.getElem?_push, Array.size_push, helement, hnext]
  by_cases hhere : r = spine b (j + 2)
  · rw [if_pos ⟨hhere, hhere ▸ hinside⟩, if_pos hhere]
    rfl
  · rw [if_neg fun hboth => hhere hboth.1, if_neg hhere]
    by_cases hnew : r = h.size
    · rw [if_neg (by omega), if_pos hnew, if_pos hnew]
    · rw [if_neg hnew, if_neg hnew]

/-- the list has grown by one position -/
theorem Grown.grow (hgrown : Grown b j h) (hsize : h'.size = h.size)
    (hsame : ∀ r, r ≠ spine b (j + 2) → r ≠ b + 1 → h'[r]? = h[r]?) : Grown b (j + 1) (grow b j h') := by
  have hread := getElem?_grow (hsize.trans hgrown.size)
  refine ⟨?_, fun i hi => ?_, ?_, fun hj => absurd hj (Nat.succ_ne_zero j), fun i hi => ?_⟩
  · simp only [Fibs.grow, Heap.size_settleAll, Array.size_push, hsize, hgrown.size]
    omega
  · rcases Nat.lt_succ_iff_lt_or_eq.1 hi with hbefore | rfl
    · rw [hread, if_neg fun heq => Nat.ne_of_lt hbefore (spine_inj.1 heq), if_neg spine_ne_elem,
        if_neg fun heq => Nat.ne_of_lt (Nat.lt_succ_of_lt hbefore) (spine_inj.1 heq),
        hsame _ (fun heq => Nat.ne_of_lt hbefore (spine_inj.1 heq)) spine_ne_second, hgrown.cells i hbefore]
    · rw [hread, if_pos rfl]
  · rw [hread, if_neg fun heq => absurd (spine_inj.1 heq) (by omega), if_neg spine_ne_elem, if_pos rfl]
  · rcases Nat.lt_succ_iff_lt_or_eq.1 hi with hbefore | rfl
    · have hkept : (Fibs.grow b j h')[elem b i]? = h[elem b i]? := by
        rw [hread, if_neg spine_ne_elem.symm, if_neg fun heq => Nat.ne_of_lt hbefore (elem_inj.1 heq),
          if_neg spine_ne_elem.symm, hsame _ spine_ne_elem.symm elem_ne_second]
      rcases hgrown.standing i hbefore with hknown | ⟨p, rfl, hcode⟩
      · exact .inl (hknown.same hkept)
      · exact .inr ⟨p, rfl, hkept.trans hcode⟩
    · refine .inr ⟨j, rfl, ?_⟩
      rw [hread, if_neg spine_ne_elem.symm, if_pos rfl]

/-- what is known stays known when the list grows -/
theorem Grown.grow_keeps (hgrown : Grown b j h) (hsize : h'.size = h.size)
    (hsame : ∀ r, r ≠ spine b (j + 2) → r ≠ b + 1 → h'[r]? = h[r]?) (hknown : Known b h i) :
    Known b (Fibs.grow b j h') i := by
  have hold : elem b i ≠ elem b (j + 2) := by
    have hmade := hknown.lt
    rw [hgrown.size] at hmade
    exact Nat.ne_of_lt hmade
  refine hknown.same ?_
  rw [getElem?_grow (hsize.trans hgrown.size), if_neg spine_ne_elem.symm, if_neg hold, if_neg spine_ne_elem.symm,
    hsame _ spine_ne_elem.symm elem_ne_second]

theorem grow_leads (hsize : h.size = b + (2 * j + 6)) :
    Leads (engine 0) ⟨h, events, .run (do
        let head ← .newDelay (addition b j)
        let tail ← .newDelay (rest b (j + 1))
        return .value (.cons head tail)), .walk [spine b (j + 2)] :: stack⟩ []
      ⟨grow b j h, events, .give (.ok (.cons (elem b (j + 2)) (spine b (j + 3)))), stack⟩ := by
  refine leads_delay (r := elem b (j + 2)) hsize (leads_delay (r := spine b (j + 3)) ?_ ?_)
  · rw [Array.size_push, hsize]
    rfl
  · exact leads_value (Value.cons (elem b (j + 2)) (spine b (j + 3)))

theorem known_value {r : Ref} {v : Value} (hvalue : h[r]? = some (.value v)) : h.outcome? r = some (.ok v) :=
  Heap.outcome?_eq_some.2 hvalue

/-- the tail of the list is a cell of its own, which comes to what stands at the second position -/
theorem second_leads {x xs : Ref} {v : Value} (hcode : h[b + 1]? = some (.pending (.tail b)))
    (hfirst : h[b]? = some (.value (.cons x xs))) (hsecond : h[xs]? = some (.value v)) (events : List String)
    (stack : List (Frame Empty Code Value)) :
    Leads (engine 0) ⟨h, events, .demand (b + 1), stack⟩ [.tail b]
      ⟨(claimed h (b + 1)).settleAll (.ok v) [b + 1], events, .give (.ok v), stack⟩ := by
  have hother : ∀ {r : Ref} {w : Value}, h[r]? = some (.value w) → (claimed h (b + 1)).outcome? r = some (.ok w) := by
    intro r w hvalue
    refine known_value ?_
    rw [getElem?_claimed hcode, if_neg, hvalue]
    rintro rfl
    rw [hcode] at hvalue
    cases hvalue
  exact leads_claim hcode (leads_known (hother hfirst) (leads_cell (hother hsecond)))

/-- **The list grows** by one position when its first open cell is demanded. -/
theorem front_leads (hgrown : Grown b j h) (events : List String) (stack : List (Frame Empty Code Value)) :
    ∃ codes h', Leads (engine 0) ⟨h, events, .demand (spine b (j + 2)), stack⟩ codes
        ⟨grow b j h', events, .give (.ok (.cons (elem b (j + 2)) (spine b (j + 3)))), stack⟩ ∧
      codes.filter Code.isPlus = [] ∧ h'.size = h.size ∧
      ∀ r, r ≠ spine b (j + 2) → r ≠ b + 1 → h'[r]? = h[r]? := by
  have hbusy := getElem?_claimed hgrown.front
  have hsize := (size_claimed h (spine b (j + 2))).trans hgrown.size
  have hcells : ∀ i < j + 2, (claimed h (spine b (j + 2)))[spine b i]? =
      some (.value (.cons (elem b i) (spine b (i + 1)))) := by
    intro i hi
    rw [hbusy, if_neg fun hsame => Nat.ne_of_lt hi (spine_inj.1 hsame), hgrown.cells i hi]
  cases j with
  | succ j =>
    refine ⟨[rest b (j + 1)], claimed h (spine b (j + 3)), leads_claim hgrown.front ?_, rfl, size_claimed h _,
      fun r hr _ => ?_⟩
    · have hleft := known_value (hcells (j + 1) (by omega))
      have hright := known_value (hcells (j + 2) (by omega))
      exact leads_known hleft (leads_known hright (grow_leads hsize))
    · rw [hbusy, if_neg hr]
  | zero =>
    -- the second list is the tail, which has not been evaluated yet
    have hcode : (claimed h (spine b 2))[b + 1]? = some (.pending (.tail b)) := by
      rw [hbusy, if_neg spine_ne_second.symm, hgrown.second rfl]
    have htail := second_leads hcode (hcells 0 (by omega)) (hcells 1 (by omega)) events
    refine ⟨rest b 0 :: ([.tail b] ++ []), (claimed (claimed h (spine b 2)) (b + 1)).settleAll
      (.ok (.cons (elem b 1) (spine b 2))) [b + 1], leads_claim hgrown.front ?_, rfl, ?_, fun r hr hne => ?_⟩
    · have hleft := known_value (hcells 0 (by omega))
      refine leads_known hleft (leads_force (htail _) (grow_leads ?_))
      rw [Heap.size_settleAll, size_claimed, hsize]
    · rw [Heap.size_settleAll, size_claimed, size_claimed]
    · rw [Heap.getElem?_settleAll_of_notMem (by simpa using hne), getElem?_claimed hcode, if_neg hne, hbusy, if_neg hr]

/-- the heap after the code of the list has run -/
def founded (b : Nat) (h : Heap Unit Code Value) : Heap Unit Code Value :=
  Heap.settleAll (((((h.push (.pending (.tail b))).push (.pending (rest b 0))).push (.value (.int 1))).push
    (.value (.cons (elem b 1) (spine b 2)))).push (.value (.int 0))) (.ok (.cons (elem b 0) (spine b 1))) [b]

theorem first_leads (hsize : h.size = b + 1) (hcode : h[b]? = some (.pending (.fibs b))) (events : List String)
    (stack : List (Frame Empty Code Value)) :
    Leads (engine 0) ⟨h, events, .demand b, stack⟩ [.fibs b]
      ⟨founded b (claimed h b), events, .give (.ok (.cons (elem b 0) (spine b 1))), stack⟩ := by
  refine leads_claim hcode (leads_delay (r := b + 1) ?_ (leads_delay (r := spine b 2) ?_ (leads_ready (r := elem b 1) ?_
    (leads_ready (r := spine b 1) ?_ (leads_ready (r := elem b 0) ?_ ?_)))))
  · simp [hsize]
  · simp [hsize, spine]
  · simp [hsize, elem]
  · simp [hsize, spine]
  · simp [hsize, elem]
  · exact leads_value (Value.cons (elem b 0) (spine b 1))

theorem grown_founded (hsize : h.size = b + 1) : Grown b 0 (founded b h) := by
  have hread : ∀ r : Nat, (founded b h)[r]? = if r = b then some (.value (.cons (elem b 0) (spine b 1)))
      else if r = b + 5 then some (.value (.int 0)) else if r = b + 4 then some (.value (.cons (elem b 1) (spine b 2)))
      else if r = b + 3 then some (.value (.int 1)) else if r = b + 2 then some (.pending (rest b 0))
      else if r = b + 1 then some (.pending (.tail b)) else h[r]? := by
    intro r
    simp only [founded, Heap.getElem?_settleAll, List.mem_singleton, Array.getElem?_push, Array.size_push, hsize,
      Nat.add_assoc, Nat.reduceAdd]
    by_cases hhere : r = b
    · have hinside : r < b + 6 := by omega
      rw [if_pos ⟨hhere, hinside⟩, if_pos hhere]
      rfl
    · rw [if_neg fun hboth => hhere hboth.1, if_neg hhere]
  refine ⟨?_, fun i hi => ?_, ?_, fun _ => ?_, fun i hi => ?_⟩
  · simp [founded, hsize]
  · interval_cases i <;> simp [hread, spine]
  · simp [hread, spine]
  · simp [hread]
  · refine .inl (Heap.outcome?_eq_some.2 ?_)
    interval_cases i <;> simp [hread, elem] <;> rfl

/-- the list has not been begun, or it has grown -/
def Shape (b : Nat) : Nat → Heap Unit Code Value → Prop
  | 0, h => h.size = b + 1 ∧ h[b]? = some (.pending (.fibs b))
  | j + 1, h => Grown b j h

/-- how many positions of the list have been evaluated -/
def reached : Nat → Nat
  | 0 => 0
  | j + 1 => j + 2

/-- a position of the list that has been evaluated, or the next one -/
theorem spine_leads {k : Nat} (hshape : Shape b k h) (hnear : i ≤ reached k) (events : List String)
    (stack : List (Frame Empty Code Value)) :
    ∃ codes k' h', Leads (engine 0) ⟨h, events, .demand (spine b i), stack⟩ codes
        ⟨h', events, .give (.ok (.cons (elem b i) (spine b (i + 1)))), stack⟩ ∧
      codes.filter Code.isPlus = [] ∧ Shape b k' h' ∧ reached k ≤ reached k' ∧ i < reached k' ∧
      ∀ q, Known b h q → Known b h' q := by
  cases k with
  | zero =>
    obtain ⟨hsize, hcode⟩ := hshape
    obtain rfl : i = 0 := Nat.le_zero.1 hnear
    refine ⟨_, 1, _, first_leads hsize hcode events stack, rfl, grown_founded ((size_claimed h b).trans hsize),
      Nat.zero_le _, Nat.succ_pos _, fun q hknown => ?_⟩
    -- there are no elements yet
    have hmade := hknown.lt
    rw [hsize] at hmade
    rcases q with _ | _ | q <;> simp only [elem] at hmade <;> omega
  | succ j =>
    have hgrown : Grown b j h := hshape
    rcases Nat.lt_or_eq_of_le hnear with hbefore | rfl
    · exact ⟨[], j + 1, h, leads_answer (known_value (hgrown.cells i hbefore)), rfl, hgrown, le_rfl, hbefore,
        fun _ hknown => hknown⟩
    · obtain ⟨codes, h', hleads, hnone, hsize, hsame⟩ := front_leads hgrown events stack
      exact ⟨codes, j + 2, _, hleads, hnone, hgrown.grow hsize hsame, Nat.le_succ _, Nat.lt_succ_self _,
        fun q hknown => hgrown.grow_keeps hsize hsame hknown⟩

theorem headAt?_eq {k : Nat} (hshape : Shape b k h) {n : Nat} (hinside : i + n < reached k) :
    headAt? h n (spine b i) = some (elem b (i + n)) := by
  cases k with
  | zero => exact absurd hinside (Nat.not_lt_zero _)
  | succ j =>
    have hgrown : Grown b j h := hshape
    induction n generalizing i with
    | zero =>
      rw [headAt?, hgrown.cells i hinside]
      rfl
    | succ n ih =>
      rw [headAt?, hgrown.cells i (lt_of_le_of_lt (Nat.le_add_right i _) hinside)]
      have hnext := ih (i := i + 1) (by rwa [Nat.succ_add_eq_add_succ])
      rwa [Nat.succ_add_eq_add_succ] at hnext

/-! ## Demanding elements from outside -/

/-- the list has been watched from the beginning: these additions have been made, each once -/
structure Watched (b k : Nat) (ps : List Nat) (s : Session (List Code) Code Value) : Prop where
  shape : Shape b k s.heap
  nodup : ps.Nodup
  known : ∀ p ∈ ps, Known b s.heap (p + 2)
  log : s.world.filter Code.isPlus = ps.map (addition b)

variable {k : Nat} {s : Session (List Code) Code Value}

theorem watch_spine (hwatched : Watched b k ps s) (hnear : i ≤ reached k) :
    ∃ k' t, Settles (fun n => watch (engine n) (spine b i)) s (.ok (.cons (elem b i) (spine b (i + 1)))) t ∧
      Watched b k' ps t ∧ reached k ≤ reached k' ∧ i < reached k' := by
  obtain ⟨codes, k', h', hleads, hnone, hshape, hmore, hinside, hkeeps⟩ := spine_leads hwatched.shape hnear s.events []
  refine ⟨k', _, settles_watch hleads, ⟨hshape, hwatched.nodup, fun p hp => hkeeps _ (hwatched.known p hp), ?_⟩,
    hmore, hinside⟩
  rw [List.filter_append, hwatched.log, hnone, List.append_nil]

theorem watch_elem (hwatched : Watched b k ps s) (hinside : i < reached k) :
    ∃ qs t, Settles (fun n => watch (engine n) (elem b i)) s (.int <$> fibOf i) t ∧ Watched b k (ps ++ qs) t ∧
      ∀ p ∈ qs, p + 2 ≤ i := by
  cases k with
  | zero => exact absurd hinside (Nat.not_lt_zero _)
  | succ j =>
    have hgrown : Grown b j s.heap := hwatched.shape
    obtain ⟨qs, h', hleads, hadds, hlow, -⟩ :=
      element_leads b i (fun j hj => hgrown.standing j (lt_of_le_of_lt hj hinside)) s.events []
    obtain ⟨hnodup, hknown⟩ := hadds.after hwatched.nodup hwatched.known
    have hall : (qs.map (addition b)).filter Code.isPlus = qs.map (addition b) := by
      refine List.filter_eq_self.2 fun c hc => ?_
      obtain ⟨p, -, rfl⟩ := List.mem_map.1 hc
      rfl
    refine ⟨qs, _, settles_watch hleads, ⟨hgrown.adds hadds, hnodup, hknown, ?_⟩, hlow⟩
    rw [List.filter_append, hwatched.log, hall, List.map_append]

/-- an element is reached by way of the positions before it -/
theorem elementAt_settles (hwatched : Watched b k ps s) (hnear : i ≤ reached k) (n : Nat) :
    ∃ k' qs t, Settles (fun fuel => elementAt (engine fuel) n (spine b i)) s (.int <$> fibOf (i + n)) t ∧
      Watched b k' (ps ++ qs) t ∧ reached k ≤ reached k' ∧ i + n < reached k' ∧ ∀ p ∈ qs, p + 2 ≤ i + n := by
  obtain ⟨k₁, t₁, hsettles₁, hwatched₁, hmore₁, hinside₁⟩ := watch_spine hwatched hnear
  induction n generalizing i k s t₁ k₁ with
  | zero =>
    obtain ⟨qs, t, hsettles, hwatched', hlow⟩ := watch_elem hwatched₁ hinside₁
    exact ⟨k₁, qs, t, hsettles₁.bind hsettles, hwatched', hmore₁, hinside₁, hlow⟩
  | succ n ih =>
    obtain ⟨k₂, t₂, hsettles₂, hwatched₂, hmore₂, hinside₂⟩ := watch_spine hwatched₁ hinside₁
    obtain ⟨k', qs, t, hsettles, hwatched', hmore, hinside, hlow⟩ :=
      ih hwatched₁ hinside₁ k₂ t₂ hsettles₂ hwatched₂ hmore₂ hinside₂
    rw [Nat.succ_add_eq_add_succ] at hsettles hinside hlow
    exact ⟨k', qs, t, hsettles₁.bind hsettles, hwatched', hmore₁.trans hmore, hinside, hlow⟩

/-- **Elements are demanded in any order**, and again and again. -/
theorem elementsAt_settles (hwatched : Watched b k ps s) (is : List Nat) :
    ∃ k' qs t, Settles (fun fuel => elementsAt (engine fuel) is b) s (.ok (is.map fun i => .int <$> fibOf i)) t ∧
      Watched b k' (ps ++ qs) t ∧ reached k ≤ reached k' ∧ (∀ i ∈ is, i < reached k') ∧
      ∀ p ∈ qs, ∃ i ∈ is, p + 2 ≤ i := by
  induction is generalizing k ps s with
  | nil =>
    refine ⟨k, [], s, .pure [] s, ?_, le_rfl, List.forall_mem_nil _, List.forall_mem_nil _⟩
    rwa [List.append_nil]
  | cons i is ih =>
    obtain ⟨k₁, qs₁, t₁, hsettles₁, hwatched₁, hmore₁, hinside₁, hlow₁⟩ := elementAt_settles hwatched (Nat.zero_le _) i
    obtain ⟨k₂, qs₂, t₂, hsettles₂, hwatched₂, hmore₂, hinside₂, hlow₂⟩ := ih hwatched₁
    rw [Nat.zero_add] at hsettles₁ hinside₁ hlow₁
    refine ⟨k₂, qs₁ ++ qs₂, t₂, ?_, ?_, hmore₁.trans hmore₂, ?_, ?_⟩
    · simp only [elementsAt, List.mapM_cons]
      exact hsettles₁.attempt.bind (hsettles₂.bind (.pure _ t₂))
    · rwa [List.append_assoc] at hwatched₂
    · exact List.forall_mem_cons.2 ⟨hinside₁.trans_le hmore₂, hinside₂⟩
    · intro p hp
      rcases List.mem_append.1 hp with hp | hp
      · exact ⟨i, List.mem_cons_self, hlow₁ p hp⟩
      · obtain ⟨i', hi', hlow⟩ := hlow₂ p hp
        exact ⟨i', List.mem_cons_of_mem i hi', hlow⟩

end Fibs

end ByNeed.Demo
