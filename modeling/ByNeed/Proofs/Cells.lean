/-
The life of a cell, for one thread and for many.

A cell with code is claimed, is busy for its claimant, and then holds one outcome for good (`Cell.Moves`). Evaluators
change a heap in four ways only (`Effect`): they leave it, they make a cell, they claim a cell with code, or they
store an outcome in cells they hold. From that alone:
- `Effect.moves`: every cell moves along its life, given that the acting party holds only cells that are busy for it;
- `Effect.held` / `Effect.tight`: who holds which cells is the same as which cells are busy, before and after;
- `Effect.outcome_iff`: the outcomes of a heap are the old ones and those just stored;
- `Effect.once`: code that was handed out is never handed out again.
`O` is the type of owners, so the same facts serve a single evaluator (`Unit`) and a pool of threads (`ThreadId`).
-/
import Mathlib.Tactic
import ByNeed.Heap

namespace ByNeed

variable {O C V : Type}

/-! ## Reading a heap after a change -/

namespace Heap

def outcome? (h : Heap O C V) (r : Ref) : Option (Outcome V) := h[r]?.bind Cell.outcome?

theorem outcome?_eq_some {h : Heap O C V} {r : Ref} {o : Outcome V} :
    h.outcome? r = some o ↔ h[r]? = some (.ofOutcome o) := by
  unfold outcome?
  cases hr : h[r]? with
  | none => simp
  | some x => cases x <;> cases o <;> simp [Cell.outcome?, Cell.ofOutcome]

theorem getElem?_settle (h : Heap O C V) (o : Outcome V) (r i : Ref) :
    (h.settle o r)[i]? = if i = r ∧ i < h.size then some (.ofOutcome o) else h[i]? := by
  unfold settle
  rw [Array.getElem?_setIfInBounds]
  by_cases hi : i = r
  · subst hi
    by_cases hs : i < h.size
    · simp [hs]
    · simp [hs]
  · rw [if_neg (Ne.symm hi), if_neg (fun hc => hi hc.1)]

@[simp]
theorem size_settle (h : Heap O C V) (o : Outcome V) (r : Ref) : (h.settle o r).size = h.size := by
  simp [settle]

theorem settleAll_nil (h : Heap O C V) (o : Outcome V) : h.settleAll o [] = h := rfl

theorem settleAll_cons (h : Heap O C V) (o : Outcome V) (r : Ref) (rs : List Ref) :
    h.settleAll o (r :: rs) = (h.settle o r).settleAll o rs := rfl

theorem settleAll_append (h : Heap O C V) (o : Outcome V) (rs qs : List Ref) :
    h.settleAll o (rs ++ qs) = (h.settleAll o rs).settleAll o qs := by
  simp [settleAll, List.foldl_append]

@[simp]
theorem size_settleAll (h : Heap O C V) (o : Outcome V) (rs : List Ref) : (h.settleAll o rs).size = h.size := by
  induction rs generalizing h with
  | nil => rfl
  | cons r rs ih => rw [settleAll_cons, ih, size_settle]

theorem getElem?_settleAll (h : Heap O C V) (o : Outcome V) (rs : List Ref) (i : Ref) :
    (h.settleAll o rs)[i]? = if i ∈ rs ∧ i < h.size then some (.ofOutcome o) else h[i]? := by
  induction rs generalizing h with
  | nil => simp [settleAll_nil]
  | cons r rs ih =>
    rw [settleAll_cons, ih, size_settle, getElem?_settle]
    by_cases hr : i = r
    · subst hr
      by_cases hs : i < h.size <;> simp [hs]
    · simp [hr]

theorem getElem?_settleAll_of_notMem {h : Heap O C V} {o : Outcome V} {rs : List Ref} {i : Ref} (hi : i ∉ rs) :
    (h.settleAll o rs)[i]? = h[i]? := by
  rw [getElem?_settleAll, if_neg (fun hc => hi hc.1)]

theorem getElem?_settleAll_of_mem {h : Heap O C V} {o : Outcome V} {rs : List Ref} {i : Ref} (hi : i ∈ rs)
    {x : Cell O C V} (hx : h[i]? = some x) : (h.settleAll o rs)[i]? = some (.ofOutcome o) := by
  rw [getElem?_settleAll, if_pos ⟨hi, (Array.getElem?_eq_some_iff.1 hx).1⟩]

theorem getElem?_claimed {h : Heap O C V} {r : Ref} {x : Cell O C V} (hr : h[r]? = some x) (y : Cell O C V) (i : Ref) :
    (h.setIfInBounds r y)[i]? = if i = r then some y else h[i]? := by
  have hs := (Array.getElem?_eq_some_iff.1 hr).1
  rw [Array.getElem?_setIfInBounds]
  by_cases hi : i = r
  · subst hi; simp [hs]
  · rw [if_neg (Ne.symm hi), if_neg hi]

theorem getElem?_made {h : Heap O C V} {r : Ref} {x : Cell O C V} (hx : h[r]? = some x) (y : Cell O C V) :
    (h.push y)[r]? = some x := by
  rw [Array.getElem?_push, if_neg (Nat.ne_of_lt (Array.getElem?_eq_some_iff.1 hx).1), hx]

end Heap

@[simp]
theorem Cell.ofOutcome_ne_busy (o : Outcome V) (owner : O) : (Cell.ofOutcome o : Cell O C V) ≠ .busy owner := by
  cases o <;> simp [Cell.ofOutcome]

@[simp]
theorem Cell.ofOutcome_ne_pending (o : Outcome V) (c : C) : (Cell.ofOutcome o : Cell O C V) ≠ .pending c := by
  cases o <;> simp [Cell.ofOutcome]

@[simp]
theorem Cell.outcome?_ofOutcome (o : Outcome V) : (Cell.ofOutcome o : Cell O C V).outcome? = some o := by
  cases o <;> rfl

/-! ## The life of a cell -/

/-- one move in the life of a cell: none, from code to busy, or from busy to an outcome -/
inductive Cell.Moves : Cell O C V → Cell O C V → Prop where
  | stay (x : Cell O C V) : Moves x x
  | claim (c : C) (owner : O) : Moves (.pending c) (.busy owner)
  | settle (owner : O) (o : Outcome V) : Moves (.busy owner) (.ofOutcome o)

/-- a cell that may be added to a heap: it holds code or a value -/
inductive Cell.Fresh : Cell O C V → Prop where
  | pending (c : C) : Fresh (.pending c)
  | value (v : V) : Fresh (.value v)

/-- every cell of a heap moves along its life, and what is added is fresh -/
structure Heap.Moves (h h' : Heap O C V) : Prop where
  old : ∀ (r : Ref) (x : Cell O C V), h[r]? = some x → ∃ y, h'[r]? = some y ∧ x.Moves y
  new : ∀ (r : Ref) (y : Cell O C V), h[r]? = none → h'[r]? = some y → y.Fresh

theorem Heap.Moves.refl (h : Heap O C V) : Heap.Moves h h := by
  refine ⟨fun r x hx => ⟨x, hx, .stay x⟩, fun r y hn hy => ?_⟩
  rw [hn] at hy; cases hy

/-- a cell with an outcome never moves again -/
theorem Heap.Moves.keeps {h h' : Heap O C V} (hm : Heap.Moves h h') {r : Ref} {o : Outcome V}
    (ho : h.outcome? r = some o) : h'[r]? = h[r]? := by
  have hx := Heap.outcome?_eq_some.1 ho
  obtain ⟨y, hy, hmove⟩ := hm.old r _ hx
  rw [hx, hy]
  generalize hz : (Cell.ofOutcome o : Cell O C V) = z at hmove
  cases hmove with
  | stay => rfl
  | claim c owner => exact absurd hz (Cell.ofOutcome_ne_pending o c)
  | settle owner o' => exact absurd hz (Cell.ofOutcome_ne_busy o owner)

/-- a cell that is no longer waiting to be run never is again -/
theorem Heap.Moves.spent {h h' : Heap O C V} (hm : Heap.Moves h h') {r : Ref} {x : Cell O C V}
    (hx : h[r]? = some x) (hnp : ∀ c, x ≠ .pending c) : ∃ y, h'[r]? = some y ∧ ∀ c, y ≠ .pending c := by
  obtain ⟨y, hy, hmove⟩ := hm.old r x hx
  refine ⟨y, hy, fun c hc => ?_⟩
  subst hc
  generalize hz : (Cell.pending c : Cell O C V) = z at hmove
  cases hmove with
  | stay => exact hnp c hz.symm
  | claim c' owner => cases hz
  | settle owner o => exact Cell.ofOutcome_ne_pending o c hz.symm

/-! ## What a step may do -/

/-- what a step does to the cells of a heap -/
inductive Deed (V : Type) where
  | none
  /-- a cell is made, perhaps with an outcome at hand -/
  | make (r : Ref) (o : Option (Outcome V))
  /-- the code of a cell is handed out -/
  | claim (r : Ref)
  /-- cells get an outcome -/
  | settle (o : Outcome V) (rs : List Ref)

def Deed.claimed? : Deed V → Option Ref
  | claim r => some r
  | none | make _ _ | settle _ _ => .none

/-- the deed stores an outcome in a cell -/
def Deed.Stores (r : Ref) (o : Outcome V) : Deed V → Prop
  | make q x => q = r ∧ x = some o
  | settle x rs => x = o ∧ r ∈ rs
  | none | claim _ => False

/-- what one step of `me` may do to a heap and to the cells that `me` holds -/
inductive Effect (me : O) : Deed V → Heap O C V → List Ref → Heap O C V → List Ref → Prop where
  | quiet {h : Heap O C V} {rs qs : List Ref} (hsame : rs.Perm qs) : Effect me .none h rs h qs
  | make {h : Heap O C V} {rs : List Ref} {x : Cell O C V} (hfresh : x.Fresh) :
      Effect me (.make h.size x.outcome?) h rs (h.push x) rs
  | claim {h : Heap O C V} {rs : List Ref} {r : Ref} {c : C} (hcode : h[r]? = some (.pending c)) :
      Effect me (.claim r) h rs (h.setIfInBounds r (.busy me)) (r :: rs)
  | settle {h : Heap O C V} (o : Outcome V) (rs qs : List Ref) :
      Effect me (.settle o rs) h (rs ++ qs) (h.settleAll o rs) qs

/-- what each party holds: different cells, all of them busy for it -/
structure Held (h : Heap O C V) (held : O → List Ref) : Prop where
  nodup : ∀ o, (held o).Nodup
  busy : ∀ o, ∀ r ∈ held o, h[r]? = some (.busy o)

/-- a busy cell is held by its owner, or was left `behind` -/
def Tight (behind : Ref → Prop) (h : Heap O C V) (held : O → List Ref) : Prop :=
  ∀ (r : Ref) (o : O), h[r]? = some (.busy o) → r ∈ held o ∨ behind r

namespace Effect

variable {me : O} {d : Deed V} {h h' : Heap O C V} {rs qs : List Ref}

theorem moves (he : Effect me d h rs h' qs) (hb : ∀ r ∈ rs, h[r]? = some (.busy me)) : h.Moves h' := by
  cases he with
  | quiet hsame => exact .refl h
  | @make _ _ x hfresh =>
    refine ⟨fun r y hy => ⟨y, ?_, .stay y⟩, fun r y hn hy => ?_⟩
    · exact Heap.getElem?_made hy x
    · rw [Array.getElem?_push] at hy
      split_ifs at hy with hr
      · cases hy; exact hfresh
      · rw [hn] at hy; cases hy
  | @claim _ _ r c hcode =>
    refine ⟨fun i x hx => ?_, fun i y hn hy => ?_⟩
    · rw [Heap.getElem?_claimed hcode]
      by_cases hi : i = r
      · subst hi
        rw [hcode] at hx; cases hx
        exact ⟨.busy me, by simp, .claim c me⟩
      · exact ⟨x, by rw [if_neg hi, hx], .stay x⟩
    · rw [Heap.getElem?_claimed hcode] at hy
      split_ifs at hy with hi
      · subst hi; rw [hcode] at hn; cases hn
      · rw [hn] at hy; cases hy
  | settle o rs' _ =>
    refine ⟨fun i x hx => ?_, fun i y hn hy => ?_⟩
    · by_cases hi : i ∈ rs'
      · have := hb i (List.mem_append_left _ hi)
        rw [hx] at this; cases this
        exact ⟨_, Heap.getElem?_settleAll_of_mem hi hx, .settle me o⟩
      · exact ⟨x, by rw [Heap.getElem?_settleAll_of_notMem hi, hx], .stay x⟩
    · have hs : ¬ i < h.size := by simpa using hn
      rw [Heap.getElem?_settleAll, if_neg (fun hc => hs hc.2), hn] at hy
      cases hy

/-- a busy cell that `me` does not hold is left alone -/
theorem keeps_busy (he : Effect me d h rs h' qs) {r : Ref} {o : O} (hr : h[r]? = some (.busy o)) (hn : r ∉ rs) :
    h'[r]? = some (.busy o) := by
  cases he with
  | quiet hsame => exact hr
  | make hfresh => exact Heap.getElem?_made hr _
  | @claim _ _ i c hcode =>
    have hi : r ≠ i := by
      rintro rfl; rw [hcode] at hr; cases hr
    rw [Heap.getElem?_claimed hcode, if_neg hi, hr]
  | settle o' rs' _ => rw [Heap.getElem?_settleAll_of_notMem (fun hc => hn (List.mem_append_left _ hc)), hr]

theorem nodup (he : Effect me d h rs h' qs) (hn : rs.Nodup) (hb : ∀ r ∈ rs, h[r]? = some (.busy me)) : qs.Nodup := by
  cases he with
  | quiet hsame => exact hsame.nodup_iff.1 hn
  | make hfresh => exact hn
  | @claim _ _ r c hcode =>
    refine List.nodup_cons.2 ⟨fun hr => ?_, hn⟩
    have := hb r hr
    rw [hcode] at this; cases this
  | settle o rs' _ => exact (List.nodup_append.1 hn).2.1

/-- what `me` holds afterwards is busy for `me` -/
theorem busy (he : Effect me d h rs h' qs) (hn : rs.Nodup) (hb : ∀ r ∈ rs, h[r]? = some (.busy me)) :
    ∀ r ∈ qs, h'[r]? = some (.busy me) := by
  intro r hr
  cases he with
  | quiet hsame => exact hb r (hsame.mem_iff.2 hr)
  | make hfresh => exact Heap.getElem?_made (hb r hr) _
  | @claim _ _ i c hcode =>
    rw [Heap.getElem?_claimed hcode]
    split_ifs with hi
    · rfl
    · exact hb r ((List.mem_cons.1 hr).resolve_left hi)
  | settle o rs' _ =>
    have hnr : r ∉ rs' := fun hc => (List.nodup_append.1 hn).2.2 r hc r hr rfl
    rw [Heap.getElem?_settleAll_of_notMem hnr]
    exact hb r (List.mem_append_right _ hr)

/-- a cell that is busy afterwards was busy before and is still held, or has just been claimed -/
theorem busy_cases (he : Effect me d h rs h' qs) {r : Ref} {o : O} (hr : h'[r]? = some (.busy o)) :
    (h[r]? = some (.busy o) ∧ (r ∈ rs → r ∈ qs)) ∨ (o = me ∧ r ∈ qs) := by
  cases he with
  | quiet hsame => exact .inl ⟨hr, hsame.mem_iff.1⟩
  | make hfresh =>
    rw [Array.getElem?_push] at hr
    split_ifs at hr with hs
    · cases hr; cases hfresh
    · exact .inl ⟨hr, id⟩
  | @claim _ _ i c hcode =>
    rw [Heap.getElem?_claimed hcode] at hr
    split_ifs at hr with hi
    · cases hr; exact .inr ⟨rfl, by simp [hi]⟩
    · exact .inl ⟨hr, List.mem_cons_of_mem i⟩
  | settle o' rs' _ =>
    by_cases hi : r ∈ rs' ∧ r < h.size
    · rw [Heap.getElem?_settleAll, if_pos hi, Option.some.injEq] at hr
      exact absurd hr (Cell.ofOutcome_ne_busy o' o)
    · rw [Heap.getElem?_settleAll, if_neg hi] at hr
      have hs := (Array.getElem?_eq_some_iff.1 hr).1
      exact .inl ⟨hr, fun hm => (List.mem_append.1 hm).resolve_left fun hc => hi ⟨hc, hs⟩⟩

/-- the outcomes of a heap are the old ones and those just stored -/
theorem outcome_iff (he : Effect me d h rs h' qs) (hb : ∀ r ∈ rs, h[r]? = some (.busy me)) (r : Ref) (o : Outcome V) :
    h'.outcome? r = some o ↔ h.outcome? r = some o ∨ d.Stores r o := by
  have hkeep : h.outcome? r = some o → h'.outcome? r = some o := fun ho => by
    rw [Heap.outcome?, (he.moves hb).keeps ho]; exact ho
  refine ⟨fun ho => ?_, fun ho => ho.elim hkeep fun hs => ?_⟩
  · cases he with
    | quiet hsame => exact .inl ho
    | @make _ _ x hfresh =>
      rw [Heap.outcome?, Array.getElem?_push] at ho
      split_ifs at ho with hr
      · exact .inr ⟨hr.symm, ho⟩
      · exact .inl ho
    | @claim _ _ i c hcode =>
      rw [Heap.outcome?, Heap.getElem?_claimed hcode] at ho
      split_ifs at ho with hi
      · cases ho
      · exact .inl ho
    | settle x rs' _ =>
      -- stored outcomes determine their cells, so an equal cell holds an equal outcome
      rw [Heap.outcome?_eq_some, Heap.getElem?_settleAll] at ho
      split_ifs at ho with hi
      · have hx : (Cell.ofOutcome x : Cell O C V).outcome? = (Cell.ofOutcome o : Cell O C V).outcome? := by
          rw [Option.some.inj ho]
        rw [Cell.outcome?_ofOutcome, Cell.outcome?_ofOutcome] at hx
        exact .inr ⟨Option.some.inj hx, hi.1⟩
      · exact .inl (Heap.outcome?_eq_some.2 ho)
  · cases he with
    | quiet hsame => exact hs.elim
    | claim hcode => exact hs.elim
    | @make _ _ x hfresh =>
      obtain ⟨rfl, hx⟩ := hs
      simpa [Heap.outcome?] using hx
    | settle x rs' _ =>
      obtain ⟨rfl, hr⟩ := hs
      exact Heap.outcome?_eq_some.2 (Heap.getElem?_settleAll_of_mem hr (hb r (List.mem_append_left _ hr)))

/-- holdings stay in order; `held` and `held'` differ at `me` only -/
theorem held {held held' : O → List Ref} (he : Effect me d h (held me) h' (held' me))
    (hsame : ∀ o, o ≠ me → held' o = held o) (hh : Held h held) : Held h' held' := by
  refine ⟨fun o => ?_, fun o r hr => ?_⟩
  · by_cases ho : o = me
    · subst ho; exact he.nodup (hh.nodup o) (hh.busy o)
    · rw [hsame o ho]; exact hh.nodup o
  · by_cases ho : o = me
    · subst ho; exact he.busy (hh.nodup o) (hh.busy o) r hr
    · rw [hsame o ho] at hr
      refine he.keeps_busy (hh.busy o r hr) fun hc => ho ?_
      have := hh.busy me r hc
      rw [hh.busy o r hr] at this
      cases this; rfl

theorem tight {behind : Ref → Prop} {held held' : O → List Ref} (he : Effect me d h (held me) h' (held' me))
    (hsame : ∀ o, o ≠ me → held' o = held o) (ht : Tight behind h held) : Tight behind h' held' := by
  intro r o hr
  rcases he.busy_cases hr with ⟨hhold, hkeep⟩ | ⟨rfl, hr'⟩
  · by_cases ho : o = me
    · subst ho; exact (ht r o hhold).imp hkeep id
    · rw [hsame o ho]; exact ht r o hhold
  · exact .inl hr'

end Effect

/-! ## Code is handed out at most once -/

/-- the cells whose code was handed out: no cell twice, and none of them has code any more -/
structure Once (given : List Ref) (h : Heap O C V) : Prop where
  nodup : given.Nodup
  spent : ∀ r ∈ given, ∃ x, h[r]? = some x ∧ ∀ c, x ≠ .pending c

theorem Once.nil (h : Heap O C V) : Once [] h := ⟨List.nodup_nil, by simp⟩

theorem Effect.once {me : O} {d : Deed V} {h h' : Heap O C V} {rs qs given : List Ref}
    (he : Effect me d h rs h' qs) (hb : ∀ r ∈ rs, h[r]? = some (.busy me)) (ho : Once given h) :
    Once (d.claimed?.toList ++ given) h' := by
  have hm := he.moves hb
  have hspent : ∀ r ∈ given, ∃ x, h'[r]? = some x ∧ ∀ c, x ≠ .pending c := by
    intro r hr
    obtain ⟨x, hx, hnp⟩ := ho.spent r hr
    exact hm.spent hx hnp
  cases he with
  | @claim _ _ r c hcode =>
    refine ⟨List.nodup_cons.2 ⟨fun hr => ?_, ho.nodup⟩, fun i hi => ?_⟩
    · obtain ⟨x, hx, hnp⟩ := ho.spent r hr
      rw [hcode] at hx; cases hx
      exact hnp c rfl
    · rcases List.mem_cons.1 hi with rfl | hi
      · exact ⟨.busy me, by rw [Heap.getElem?_claimed hcode, if_pos rfl], by simp⟩
      · exact hspent i hi
  | quiet | make | settle => exact ⟨ho.nodup, hspent⟩

/-- the cell whose code is handed out is the one that goes from code to busy -/
theorem Effect.claimed?_eq_some_iff {me : O} {d : Deed V} {h h' : Heap O C V} {rs qs : List Ref}
    (he : Effect me d h rs h' qs) (r : Ref) :
    d.claimed? = some r ↔ (∃ c, h[r]? = some (.pending c)) ∧ h'[r]? = some (.busy me) := by
  cases he with
  | @claim _ _ i c hcode =>
    rw [Heap.getElem?_claimed hcode, Deed.claimed?, Option.some.injEq]
    constructor
    · rintro rfl; exact ⟨⟨c, hcode⟩, by simp⟩
    · rintro ⟨⟨c', hc'⟩, hb⟩
      split_ifs at hb with hi
      · exact hi.symm
      · rw [hc'] at hb; cases hb
  | quiet hsame =>
    refine ⟨nofun, fun ⟨⟨c, hc⟩, hb⟩ => ?_⟩
    rw [hc] at hb; cases hb
  | make hfresh =>
    refine ⟨nofun, fun ⟨⟨c, hc⟩, hb⟩ => ?_⟩
    rw [Heap.getElem?_made hc] at hb; cases hb
  | settle o rs' _ =>
    refine ⟨nofun, fun ⟨⟨c, hc⟩, hb⟩ => ?_⟩
    rw [Heap.getElem?_settleAll] at hb
    split_ifs at hb
    · exact absurd (Option.some.inj hb) (Cell.ofOutcome_ne_busy o me)
    · rw [hc] at hb; cases hb

/-- a cell with code whose code is not handed out keeps it -/
theorem Effect.keeps_code {me : O} {d : Deed V} {h h' : Heap O C V} {rs qs : List Ref}
    (he : Effect me d h rs h' qs) (hb : ∀ r ∈ rs, h[r]? = some (.busy me)) {r : Ref} {c : C}
    (hr : h[r]? = some (.pending c)) (hn : d.claimed? ≠ some r) : h'[r]? = some (.pending c) := by
  cases he with
  | quiet hsame => exact hr
  | make hfresh => exact Heap.getElem?_made hr _
  | @claim _ _ i c' hcode =>
    have hi : r ≠ i := fun hc => hn (by rw [hc]; rfl)
    rw [Heap.getElem?_claimed hcode, if_neg hi, hr]
  | settle o rs' _ =>
    have hnr : r ∉ rs' := by
      intro hc
      have := hb r (List.mem_append_left _ hc)
      rw [hr] at this; cases this
    rw [Heap.getElem?_settleAll_of_notMem hnr, hr]

end ByNeed
