/-
Who owns a shared cell.

The chains of a thread are the cells of its open walks and the cells that it has still to publish. A run of a pool
(`Pool.Run`) is any interleaving of single moves: which thread moves next is open, a waiting thread may wake up and look
again at any time, threads start at any time, and a thread that has finished may start over. The record of a run says
which thread made, claimed or settled which cell.

- `step_acts`: one move changes the heap as `Effect` allows, and changes the holdings of the moving thread only.
- `Run.sound`: a cell is busy for a thread if and only if one of its chains holds it, and the outcome of a cell is the
  one that it began with or that the record says was stored in it.
- `shared_cells_safe`: code is handed out at most once; a busy cell belongs to exactly one chain of its owner; an
  outcome stays; and a claim is answered with the stored outcome, or with a black hole if the claimant owns the cell.
-/
import ByNeed.Proofs.Cells
import ByNeed.Shared

namespace ByNeed

variable {T C V : Type}

/-! ## Chains -/

/-- the cells of a walk -/
def Frame.chain? : Frame T C V → Option (List Ref)
  | walk rs => some rs
  | resume _ | visit _ _ => none

/-- the cells still to be published -/
def Phase.chain? : Phase T C V → Option (List Ref)
  | publish _ rs | poison _ rs => some rs
  | act _ | join _ _ => none

/-- the cells of each open walk of a thread, and those it has still to publish -/
def Thread.chains (t : Thread T C V) : List (List Ref) := t.phase.chain?.toList ++ t.stack.filterMap Frame.chain?

namespace Pool

def chains (p : Pool T C V) (t : ThreadId) : List (List Ref) := (p.threads[t]?.map Thread.chains).getD []

def held (p : Pool T C V) (t : ThreadId) : List Ref := (p.chains t).flatten

/-- the `i`-th chain of a thread holds the cell -/
def Holds (p : Pool T C V) (t : ThreadId) (i : Nat) (r : Ref) : Prop := ∃ rs, (p.chains t)[i]? = some rs ∧ r ∈ rs

/-- what the next move of a thread does to the cells -/
def deed (p : Pool T C V) (me : ThreadId) : Deed V :=
  match p.threads[me]? with
  | none => .none
  | some t =>
    match t.phase with
    | .publish o (r :: _) => .settle o [r]
    | .poison _ (r :: _) => .settle (.error .poisoned) [r]
    | .act (.run (.ready v _)) => .make p.heap.size (some (.ok v))
    | .act (.run (.delay _ _)) => .make p.heap.size none
    | _ =>
      match t.wanted?.map (p.heap.claimBy me) with
      | some (some (.granted _), _) => (t.wanted?.map .claim).getD .none
      | _ => .none

end Pool

theorem flatten_chains (stack : List (Frame T C V)) :
    (stack.filterMap Frame.chain?).flatten = stack.flatMap Frame.claimed := by
  induction stack with
  | nil => rfl
  | cons f stack ih => cases f <;> simp [List.filterMap_cons, Frame.chain?, Frame.claimed, ih]

/-- what a claim answers: code, a wait, the stored outcome, or a black hole -/
theorem Heap.claimBy_cases (h : Heap ThreadId C V) (me : ThreadId) (r : Ref) :
    (∃ c, h[r]? = some (.pending c) ∧ h.claimBy me r = (some (.granted c), h.setIfInBounds r (.busy me))) ∨
    (∃ owner, h[r]? = some (.busy owner) ∧ owner ≠ me ∧ h.claimBy me r = (none, h)) ∨
    ∃ o, h.claimBy me r = (some (.outcome o), h) ∧
      (h.outcome? r = some o ∨ o = .error .blackHole ∧ (h[r]? = some (.busy me) ∨ h[r]? = none)) := by
  cases hr : h[r]? with
  | none => exact .inr (.inr ⟨.error .blackHole, by simp [claimBy, hr], .inr ⟨rfl, .inr rfl⟩⟩)
  | some x =>
    cases x with
    | pending c => exact .inl ⟨c, rfl, by simp [claimBy, hr]⟩
    | busy owner =>
      by_cases ho : owner = me
      · subst ho
        exact .inr (.inr ⟨.error .blackHole, by simp [claimBy, hr], .inr ⟨rfl, .inl rfl⟩⟩)
      · exact .inr (.inl ⟨owner, rfl, ho, by simp [claimBy, hr, ho]⟩)
    | value v => exact .inr (.inr ⟨.ok v, by simp [claimBy, hr], .inl (by simp [outcome?, hr, Cell.outcome?])⟩)
    | failed e => exact .inr (.inr ⟨.error e, by simp [claimBy, hr], .inl (by simp [outcome?, hr, Cell.outcome?])⟩)

namespace Pool

theorem Holds.mem_held {p : Pool T C V} {t : ThreadId} {i : Nat} {r : Ref} (h : p.Holds t i r) : r ∈ p.held t := by
  obtain ⟨rs, hrs, hr⟩ := h
  exact List.mem_flatten.2 ⟨rs, List.mem_of_getElem? hrs, hr⟩

theorem holds_of_mem_held {p : Pool T C V} {t : ThreadId} {r : Ref} (h : r ∈ p.held t) : ∃ i, p.Holds t i r := by
  obtain ⟨rs, hrs, hr⟩ := List.mem_flatten.1 h
  obtain ⟨i, hi⟩ := List.mem_iff_getElem?.1 hrs
  exact ⟨i, rs, hi, hr⟩

/-- a thread that holds no cell twice holds it in one chain only -/
theorem Holds.index_unique {p : Pool T C V} {t : ThreadId} {i j : Nat} {r : Ref} (hi : p.Holds t i r)
    (hnodup : (p.held t).Nodup) (hj : p.Holds t j r) : i = j := by
  obtain ⟨rs, hrs, hr⟩ := hi
  obtain ⟨qs, hqs, hq⟩ := hj
  have hapart := (List.nodup_flatten.1 hnodup).2
  obtain ⟨hil, rfl⟩ := List.getElem?_eq_some_iff.1 hrs
  obtain ⟨hjl, rfl⟩ := List.getElem?_eq_some_iff.1 hqs
  rcases Nat.lt_trichotomy i j with hlt | heq | hgt
  · exact absurd hq (List.pairwise_iff_getElem.1 hapart i j hil hjl hlt hr)
  · exact heq
  · exact absurd hr (List.pairwise_iff_getElem.1 hapart j i hjl hil hgt hq)

/-! ## One move -/

theorem held_of_thread {p : Pool T C V} {me : ThreadId} {phase : Phase T C V} {stack : List (Frame T C V)}
    (h : p.threads[me]? = some ⟨phase, stack⟩) :
    p.held me = phase.chain?.toList.flatten ++ stack.flatMap Frame.claimed := by
  simp [held, chains, h, Thread.chains, flatten_chains]

theorem held_put {p : Pool T C V} {me : ThreadId} {t : Thread T C V} (h : p.threads[me]? = some t)
    (phase : Phase T C V) (stack : List (Frame T C V)) :
    (p.put me phase stack).held me = phase.chain?.toList.flatten ++ stack.flatMap Frame.claimed := by
  apply held_of_thread
  simp [put, Array.getElem?_setIfInBounds_self_of_lt (Array.getElem?_eq_some_iff.1 h).1]

theorem held_put_ne (p : Pool T C V) {me t : ThreadId} (ht : t ≠ me) (phase : Phase T C V)
    (stack : List (Frame T C V)) : (p.put me phase stack).held t = p.held t := by
  simp [held, chains, put, Array.getElem?_setIfInBounds_ne (Ne.symm ht)]

/-- a new thread holds nothing -/
theorem held_push (p : Pool T C V) (control : Control T C V) (t : ThreadId) :
    Pool.held ⟨p.heap, p.events, p.threads.push ⟨.act control, []⟩⟩ t = p.held t := by
  simp only [held, chains, Array.getElem?_push]
  split_ifs with ht
  · subst ht
    simp [Thread.chains, Phase.chain?]
  · rfl

/-- a move of `me`: what it does to the heap and to the holdings of `me`; no other thread's holdings change -/
structure Acts (p : Pool T C V) (me : ThreadId) (d : Deed V) (q : Pool T C V) : Prop where
  effect : Effect me d p.heap (p.held me) q.heap (q.held me)
  frame : ∀ t, t ≠ me → q.held t = p.held t

theorem Acts.refl (p : Pool T C V) (me : ThreadId) : Acts p me .none p := ⟨.quiet (.refl _), fun _ _ => rfl⟩

/-- the move ends with `me` in another phase; `q` is the pool before that, with the threads of `p` -/
theorem acts_put {p : Pool T C V} {me : ThreadId} {t : Thread T C V} (h : p.threads[me]? = some t) {d : Deed V}
    {heap : Heap ThreadId C V} {events : List String} {phase : Phase T C V} {stack : List (Frame T C V)}
    (he : Effect me d p.heap (p.held me) heap (phase.chain?.toList.flatten ++ stack.flatMap Frame.claimed)) :
    Acts p me d (Pool.put ⟨heap, events, p.threads⟩ me phase stack) := by
  refine ⟨?_, fun u hu => held_put_ne _ hu phase stack⟩
  rw [held_put (p := ⟨heap, events, p.threads⟩) h]
  exact he

/-- the move leaves the cells alone, and `me` goes on with the same holdings -/
theorem acts_quiet {p : Pool T C V} {me : ThreadId} {phase phase' : Phase T C V} {stack stack' : List (Frame T C V)}
    (h : p.threads[me]? = some ⟨phase, stack⟩) (hd : p.deed me = .none)
    (hsame : (phase.chain?.toList.flatten ++ stack.flatMap Frame.claimed).Perm
      (phase'.chain?.toList.flatten ++ stack'.flatMap Frame.claimed)) :
    Acts p me (p.deed me) (p.put me phase' stack') := by
  rw [hd]
  refine acts_put h ?_
  rw [held_of_thread h]
  exact .quiet hsame

/-- the top frame is closed, and its cells are to be published in the order in which they were claimed -/
theorem acts_close {p : Pool T C V} {me : ThreadId} {control : Control T C V} {frame : Frame T C V}
    {stack : List (Frame T C V)} (h : p.threads[me]? = some ⟨.act control, frame :: stack⟩) (hd : p.deed me = .none)
    {phase : Phase T C V} (hp : phase.chain? = some frame.claimed.reverse) :
    Acts p me (p.deed me) (p.put me phase stack) := by
  refine acts_quiet h hd ?_
  rw [hp]
  simpa [Phase.chain?] using (List.reverse_perm frame.claimed).symm.append_right _

theorem request_acts (E : Engine T C V) {p : Pool T C V} {me : ThreadId} {c : Comp T C V (Next C V)}
    {stack : List (Frame T C V)} (h : p.threads[me]? = some ⟨.act (.run c), stack⟩) :
    Acts p me (p.deed me) (request E me p stack c) := by
  have hheld : p.held me = stack.flatMap Frame.claimed := held_of_thread h
  cases c with
  | done next =>
    have hd : p.deed me = .none := by simp [deed, h, Thread.wanted?]
    cases next <;> exact acts_quiet h hd (.refl _)
  | ready v k =>
    have hd : p.deed me = .make p.heap.size (some (.ok v)) := by simp [deed, h]
    rw [hd]
    exact acts_put h (by rw [hheld]; exact .make (.value v))
  | delay c k =>
    have hd : p.deed me = .make p.heap.size none := by simp [deed, h]
    rw [hd]
    exact acts_put h (by rw [hheld]; exact .make (.pending _))
  | emit event k =>
    have hd : p.deed me = .none := by simp [deed, h, Thread.wanted?]
    rw [hd]
    exact acts_put h (by rw [hheld]; exact .quiet (.refl _))
  | fork permit c k =>
    have hd : p.deed me = .none := by simp [deed, h, Thread.wanted?]
    rw [hd]
    -- the new thread holds nothing, so only its number is new
    have hlt : me < p.threads.size := (Array.getElem?_eq_some_iff.1 h).1
    refine ⟨?_, fun t ht => (held_put_ne _ ht _ _).trans (held_push p _ t)⟩
    have hpush : (p.threads.push ⟨.act (.run (E.body c)), []⟩)[me]? =
        some ⟨.act (.run (.fork permit c k)), stack⟩ := by
      rw [Array.getElem?_push, if_neg (Nat.ne_of_lt hlt), h]
    rw [request, held_put (p := ⟨p.heap, p.events, p.threads.push ⟨.act (.run (E.body c)), []⟩⟩) hpush, hheld]
    exact .quiet (.refl _)
  | _ =>
    have hd : p.deed me = .none := by simp [deed, h, Thread.wanted?]
    exact acts_quiet h hd (.refl _)

theorem conclude_acts (E : Engine T C V) {p : Pool T C V} {me : ThreadId} {t : Outcome (Tail V)}
    {stack : List (Frame T C V)} (h : p.threads[me]? = some ⟨.act (.ended t), stack⟩) :
    Acts p me (p.deed me) (conclude E me p t stack) := by
  match stack, t with
  | .walk claimed :: stack, .ok (.cell r) =>
    rcases p.heap.claimBy_cases me r with ⟨c, hc, heq⟩ | ⟨owner, -, -, heq⟩ | ⟨o, heq, -⟩
    · have hd : p.deed me = .claim r := by simp [deed, h, Thread.wanted?, heq]
      rw [hd]
      simp only [conclude, heq]
      exact acts_put h (by rw [held_of_thread h]; exact .claim hc)
    · have hd : p.deed me = .none := by simp [deed, h, Thread.wanted?, heq]
      rw [hd]
      simp only [conclude, heq]
      exact .refl p me
    · have hd : p.deed me = .none := by simp [deed, h, Thread.wanted?, heq]
      simp only [conclude, heq]
      exact acts_close h hd rfl
  | .walk claimed :: stack, .ok (.value v) => exact acts_close h (by simp [deed, h, Thread.wanted?]) rfl
  | .walk claimed :: stack, .error e => exact acts_close h (by simp [deed, h, Thread.wanted?]) rfl
  | [], .error e | .resume _ :: _, .error e | .visit _ _ :: _, .error e =>
    exact acts_quiet h (by simp [deed, h, Thread.wanted?]) (.refl _)
  | [], .ok t | .resume _ :: _, .ok t | .visit _ _ :: _, .ok t =>
    have hd : p.deed me = .none := by cases t <;> simp [deed, h, Thread.wanted?]
    cases t <;> exact acts_quiet h hd (.refl _)

theorem deliver_acts (E : Engine T C V) {p : Pool T C V} {me : ThreadId} {o : Outcome V} {stack : List (Frame T C V)}
    (h : p.threads[me]? = some ⟨.act (.give o), stack⟩) : Acts p me (p.deed me) (deliver E me p o stack) := by
  have hd : p.deed me = .none := by simp [deed, h, Thread.wanted?]
  match stack, o with
  | [], o => exact acts_quiet h hd (.refl _)
  | .resume k :: stack, o => exact acts_quiet h hd (.refl _)
  | .visit top work :: stack, .ok v => exact acts_quiet h hd (.refl _)
  | .visit top work :: stack, .error e => exact acts_quiet h hd (.refl _)
  | .walk claimed :: stack, o => exact acts_close h hd rfl

theorem demand_acts (E : Engine T C V) {p : Pool T C V} {me : ThreadId} {r : Ref} {stack : List (Frame T C V)}
    (h : p.threads[me]? = some ⟨.act (.demand r), stack⟩) : Acts p me (p.deed me) (demand E me p r stack) := by
  rcases p.heap.claimBy_cases me r with ⟨c, hc, heq⟩ | ⟨owner, -, -, heq⟩ | ⟨o, heq, -⟩
  · have hd : p.deed me = .claim r := by simp [deed, h, Thread.wanted?, heq]
    rw [hd]
    simp only [demand, heq]
    exact acts_put h (by rw [held_of_thread h]; exact .claim hc)
  · have hd : p.deed me = .none := by simp [deed, h, Thread.wanted?, heq]
    rw [hd]
    simp only [demand, heq]
    exact .refl p me
  · have hd : p.deed me = .none := by simp [deed, h, Thread.wanted?, heq]
    simp only [demand, heq]
    exact acts_quiet h hd (.refl _)

/-- one cell is published and leaves the holdings of `me` -/
theorem acts_store {p : Pool T C V} {me : ThreadId} {phase phase' : Phase T C V} {stack : List (Frame T C V)} {r : Ref}
    {cells : List Ref} (h : p.threads[me]? = some ⟨phase, stack⟩) (o : Outcome V)
    (hp : phase.chain? = some (r :: cells)) (hp' : phase'.chain? = some cells) :
    Acts p me (.settle o [r]) ((p.store o r).put me phase' stack) := by
  refine acts_put h ?_
  have he : Effect me (.settle o [r]) p.heap ([r] ++ (cells ++ stack.flatMap Frame.claimed)) (p.heap.settleAll o [r])
      (cells ++ stack.flatMap Frame.claimed) := .settle o [r] _
  simpa [held_of_thread h, hp, hp', Heap.settleAll] using he

/-- **What a move can do** to the heap and to who holds what. -/
theorem step_acts (E : Engine T C V) (p : Pool T C V) (me : ThreadId) : Acts p me (p.deed me) (p.step E me) := by
  unfold step
  cases h : p.threads[me]? with
  | none =>
    simp only [deed, h]
    exact .refl p me
  | some t =>
    obtain ⟨phase, stack⟩ := t
    match phase with
    | .act (.run c) => exact request_acts E h
    | .act (.ended t) => exact conclude_acts E h
    | .act (.give o) => exact deliver_acts E h
    | .act (.demand r) => exact demand_acts E h
    | .act (.traverse top []) | .act (.traverse top (r :: work)) =>
      exact acts_quiet h (by simp [deed, h, Thread.wanted?]) (.refl _)
    | .act (.unwind text) =>
      have hd : p.deed me = .none := by simp [deed, h, Thread.wanted?]
      cases stack with
      | nil => rw [hd]; exact .refl p me
      | cons frame stack => exact acts_close h hd rfl
    | .publish o [] | .poison text [] => exact acts_quiet h (by simp [deed, h, Thread.wanted?]) (.refl _)
    | .publish o (r :: cells) =>
      have hd : p.deed me = .settle o [r] := by simp [deed, h]
      rw [hd]
      exact acts_store h o rfl rfl
    | .poison text (r :: cells) =>
      have hd : p.deed me = .settle (.error .poisoned) [r] := by simp [deed, h]
      rw [hd]
      exact acts_store h _ rfl rfl
    | .join child k =>
      have hd : p.deed me = .none := by simp [deed, h, Thread.wanted?]
      simp only
      cases p.result? child with
      | none => rw [hd]; exact .refl p me
      | some result => cases result <;> exact acts_quiet h hd (.refl _)

/-! ## Runs -/

/-- a run from `p₀`, with the deeds of its moves and who did them, the latest first -/
inductive Run (E : Engine T C V) (p₀ : Pool T C V) : List (ThreadId × Deed V) → Pool T C V → Prop where
  | start : Run E p₀ [] p₀
  | step {past : List (ThreadId × Deed V)} {p : Pool T C V} (hrun : Run E p₀ past p) (t : ThreadId) :
      Run E p₀ ((t, p.deed t) :: past) (p.step E t)
  /-- a thread that has finished goes on with anything -/
  | again {past : List (ThreadId × Deed V)} {p : Pool T C V} (hrun : Run E p₀ past p) (t : ThreadId)
      (hfinished : (p.result? t).isSome) (control : Control T C V) : Run E p₀ past (p.putAct t control [])
  /-- a thread starts -/
  | spawn {past : List (ThreadId × Deed V)} {p : Pool T C V} (hrun : Run E p₀ past p) (control : Control T C V) :
      Run E p₀ past ⟨p.heap, p.events, p.threads.push ⟨.act control, []⟩⟩

/-- a pool in which nothing has been claimed yet -/
structure Fresh (p : Pool T C V) : Prop where
  calm : ∀ (r : Ref) (owner : ThreadId), p.heap[r]? ≠ some (.busy owner)
  idle : ∀ t, p.chains t = []

/-- who holds what and what was stored, by the record -/
structure Sound (h₀ : Heap ThreadId C V) (past : List (ThreadId × Deed V)) (p : Pool T C V) : Prop where
  held : Held p.heap p.held
  tight : Tight (fun _ => False) p.heap p.held
  once : Once (past.filterMap fun a => a.2.claimed?) p.heap
  stored : ∀ r o, p.heap.outcome? r = some o ↔ h₀.outcome? r = some o ∨ ∃ a ∈ past, a.2.Stores r o

theorem Fresh.sound {p : Pool T C V} (hfresh : p.Fresh) : Sound p.heap [] p := by
  have hheld : ∀ t, p.held t = [] := fun t => by rw [Pool.held, hfresh.idle t]; rfl
  refine ⟨⟨fun t => ?_, fun t r hr => ?_⟩, fun r t hr => ?_, .nil _, fun r o => by simp⟩
  · rw [hheld t]; exact List.nodup_nil
  · rw [hheld t] at hr; cases hr
  · exact absurd hr (hfresh.calm r t)

namespace Sound

variable {h₀ : Heap ThreadId C V} {past : List (ThreadId × Deed V)} {p q : Pool T C V}

theorem acts (hs : Sound h₀ past p) {me : ThreadId} {d : Deed V} (ha : Acts p me d q) :
    Sound h₀ ((me, d) :: past) q := by
  have hb := hs.held.busy me
  refine ⟨ha.effect.held ha.frame hs.held, ha.effect.tight ha.frame hs.tight, ?_, fun r o => ?_⟩
  · have h := ha.effect.once hb hs.once
    cases hd : d.claimed? <;> simpa [List.filterMap_cons, hd] using h
  · rw [ha.effect.outcome_iff hb, hs.stored, or_assoc, List.exists_mem_cons_iff, or_comm (a := d.Stores r o)]

/-- nothing but the threads' plans changes -/
theorem same (hs : Sound h₀ past p) (hheap : q.heap = p.heap) (hheld : ∀ t, q.held t = p.held t) :
    Sound h₀ past q := by
  have hh : q.held = p.held := funext hheld
  exact ⟨by rw [hheap, hh]; exact hs.held, by rw [hheap, hh]; exact hs.tight, by rw [hheap]; exact hs.once,
    by rw [hheap]; exact hs.stored⟩

/-- a busy cell stands in one chain only, and that is one of its owner -/
theorem busy_iff (hs : Sound h₀ past p) (r : Ref) (t : ThreadId) :
    p.heap[r]? = some (.busy t) ↔ ∃ i, p.Holds t i r ∧ ∀ u j, p.Holds u j r → u = t ∧ j = i := by
  refine ⟨fun hr => ?_, fun ⟨i, hi, _⟩ => hs.held.busy t r hi.mem_held⟩
  obtain ⟨i, hi⟩ := holds_of_mem_held ((hs.tight r t hr).resolve_right id)
  refine ⟨i, hi, fun u j hj => ?_⟩
  have hu := hs.held.busy u r hj.mem_held
  rw [hr] at hu
  cases hu
  exact ⟨rfl, hj.index_unique (hs.held.nodup t) hi⟩

end Sound

theorem chains_eq_nil_of_result {p : Pool T C V} {t : ThreadId} (h : (p.result? t).isSome) : p.chains t = [] := by
  obtain ⟨x, hx⟩ := Option.isSome_iff_exists.1 h
  obtain ⟨⟨phase, stack⟩, ht, hres⟩ := Option.bind_eq_some_iff.1 hx
  simp only [chains, ht, Option.map_some, Option.getD_some]
  unfold Thread.result? at hres
  split at hres
  · simp_all [Thread.chains, Phase.chain?]
  · simp_all [Thread.chains, Phase.chain?]
  · cases hres

namespace Run

variable {E : Engine T C V} {p₀ p q : Pool T C V} {past later : List (ThreadId × Deed V)}

theorem sound (hrun : Run E p₀ past p) (hfresh : p₀.Fresh) : Sound p₀.heap past p := by
  induction hrun with
  | start => exact hfresh.sound
  | step hrun t ih => exact ih.acts (step_acts E _ t)
  | @again past p hrun t hfinished control ih =>
    refine ih.same rfl fun u => ?_
    by_cases hu : u = t
    · subst hu
      obtain ⟨x, hx⟩ := Option.isSome_iff_exists.1 hfinished
      obtain ⟨thread, ht, -⟩ := Option.bind_eq_some_iff.1 hx
      rw [putAct, held_put ht, held, chains_eq_nil_of_result hfinished]
      rfl
    · exact held_put_ne p hu _ _
  | spawn hrun control ih => exact ih.same rfl (held_push _ control)

theorem trans (hrun : Run E p₀ past p) (hmore : Run E p later q) : Run E p₀ (later ++ past) q := by
  induction hmore with
  | start => exact hrun
  | step hmore t ih => exact ih.step t
  | again hmore t hfinished control ih => exact ih.again t hfinished control
  | spawn hmore control ih => exact ih.spawn control

/-- a cell with an outcome stays as it is -/
theorem keeps (hrun : Run E p₀ past p) (hfresh : p₀.Fresh) (hmore : Run E p later q) {r : Ref} {o : Outcome V}
    (ho : p.heap.outcome? r = some o) : q.heap[r]? = p.heap[r]? := by
  have hq : q.heap.outcome? r = some o := by
    rw [((hrun.trans hmore).sound hfresh).stored]
    refine (((hrun.sound hfresh).stored r o).1 ho).imp id fun ⟨a, ha, hs⟩ => ?_
    exact ⟨a, List.mem_append_right later ha, hs⟩
  rw [Heap.outcome?_eq_some.1 hq, Heap.outcome?_eq_some.1 ho]

end Run

/-! ## Claims -/

/-- a claim is answered with the stored outcome, or with a black hole if the claimant has the cell -/
theorem claimBy_outcome_iff (h : Heap ThreadId C V) (me : ThreadId) {r : Ref} (hr : r < h.size) (o : Outcome V) :
    (h.claimBy me r).1 = some (.outcome o) ↔
      h.outcome? r = some o ∨ h[r]? = some (.busy me) ∧ o = .error .blackHole := by
  have hsome : h[r]? ≠ none := by simpa using hr
  unfold Heap.claimBy Heap.outcome?
  cases hx : h[r]? with
  | none => exact absurd hx hsome
  | some x =>
    cases x with
    | busy owner =>
      by_cases ho : owner = me
      · subst ho; simp [Cell.outcome?, eq_comm]
      · simp [Cell.outcome?, ho]
    | _ => simp [Cell.outcome?]

/-- a thread that wants a cell of another thread waits: its move changes nothing -/
theorem step_of_busy (E : Engine T C V) {p : Pool T C V} {me owner : ThreadId} {r : Ref}
    (hwant : p.threads[me]?.bind Thread.wanted? = some r) (hbusy : p.heap[r]? = some (.busy owner)) (ho : owner ≠ me) :
    p.step E me = p := by
  have hclaim : p.heap.claimBy me r = (none, p.heap) := by simp [Heap.claimBy, hbusy, ho]
  obtain ⟨⟨phase, stack⟩, ht, hwant'⟩ := Option.bind_eq_some_iff.1 hwant
  unfold Thread.wanted? at hwant'
  split at hwant'
  · simp_all [step, demand]
  · simp_all [step, conclude]
  · cases hwant'

/-- **Shared cells are safe** in every interleaving. A cell's code is handed out at most once: the deeds of a run
are what its moves did, and no cell is claimed twice. A cell is busy for
a thread exactly if one chain, and that one of the thread, has it still to publish. A cell with an outcome never
changes. A thread that wants a cell of another thread waits; what a claim hands out is the outcome that the cell began
with or that was stored in it, and the black hole of re-entry goes to the owner only. -/
theorem shared_cells_safe {E : Engine T C V} {p₀ p : Pool T C V} {past : List (ThreadId × Deed V)} (hfresh : p₀.Fresh)
    (hrun : Run E p₀ past p) :
    (∀ (r : Ref) (t : ThreadId), (p.deed t).claimed? = some r ↔
      (∃ c, p.heap[r]? = some (.pending c)) ∧ (p.step E t).heap[r]? = some (.busy t)) ∧
    (past.filterMap fun a => a.2.claimed?).Nodup ∧
    (∀ (r : Ref) (t : ThreadId),
      p.heap[r]? = some (.busy t) ↔ ∃ i, p.Holds t i r ∧ ∀ u j, p.Holds u j r → u = t ∧ j = i) ∧
    (∀ r o, p.heap.outcome? r = some o → ∀ later q, Run E p later q → q.heap[r]? = p.heap[r]?) ∧
    (∀ (r : Ref) (me owner : ThreadId), p.threads[me]?.bind Thread.wanted? = some r →
      p.heap[r]? = some (.busy owner) → owner ≠ me → p.step E me = p) ∧
    ∀ (r : Ref) (me : ThreadId) (o : Outcome V), r < p.heap.size →
      ((p.heap.claimBy me r).1 = some (.outcome o) ↔
        (p₀.heap.outcome? r = some o ∨ ∃ a ∈ past, a.2.Stores r o) ∨
          p.heap[r]? = some (.busy me) ∧ o = .error .blackHole) := by
  have hsound := hrun.sound hfresh
  refine ⟨fun r t => (step_acts E p t).effect.claimed?_eq_some_iff r, hsound.once.nodup, hsound.busy_iff,
    fun r o ho later q hmore => hrun.keeps hfresh hmore ho, fun r me owner => step_of_busy E, fun r me o hr => ?_⟩
  rw [claimBy_outcome_iff p.heap me hr o, hsound.stored]

/-- two cells: the code of the first goes on with the second, which comes to 7 -/
def relay : Engine Empty Bool Nat where
  body first := if first then .done (.cell 1) else .done (.value 7)
  parts _ := []
  fuel := 0

/-- thread 0 claims both cells in one chain; thread 1 wants the second, waits, and gets 7 once that is published -/
theorem shared_cells_safe_relay :
    ∃ p₀ p q : Pool Empty Bool Nat, ∃ past later, p₀.Fresh ∧ Run relay p₀ past p ∧ Run relay p₀ later q ∧
      past.filterMap (fun a => a.2.claimed?) = [1, 0] ∧
      (∃ i, p.Holds 0 i 1 ∧ ∀ u j, p.Holds u j 1 → u = 0 ∧ j = i) ∧ p.step relay 1 = p ∧
      (q.heap.claimBy 1 1).1 = some (.outcome (.ok 7)) := by
  let p₀ : Pool Empty Bool Nat := ⟨#[.pending true, .pending false], [], #[.demanding 0, .demanding 1]⟩
  let p : Pool Empty Bool Nat :=
    ⟨#[.busy 0, .busy 0], [], #[⟨.act (.run (.done (.value 7))), [.walk [1, 0]]⟩, .demanding 1]⟩
  have hfresh : p₀.Fresh := by
    refine ⟨fun r owner => ?_, fun t => ?_⟩
    · match r with
      | 0 | 1 => simp [p₀]
      | r + 2 => simp [p₀]
    · match t with
      | 0 | 1 => rfl
      | t + 2 => simp [p₀, Pool.chains]
  have hrun : Run relay p₀ [(0, .claim 1), (0, .none), (0, .claim 0)] p := ((Run.start.step 0).step 0).step 0
  -- thread 1 looks and waits; thread 0 ends its code, and publishes 7 in the first cell and then in the second
  have hended : Run relay p₀ _ ⟨p.heap, [], #[⟨.publish (.ok 7) [0, 1], []⟩, .demanding 1]⟩ :=
    ((hrun.step 1).step 0).step 0
  have hmore : Run relay p₀ ((0, .settle (.ok 7) [1]) :: (0, .settle (.ok 7) [0]) :: _)
      ⟨#[.value 7, .value 7], [], #[⟨.publish (.ok 7) [], []⟩, .demanding 1]⟩ := (hended.step 0).step 0
  obtain ⟨-, -, hbusy, -, hwait, -⟩ := shared_cells_safe hfresh hrun
  obtain ⟨-, -, -, -, -, hclaim⟩ := shared_cells_safe hfresh hmore
  refine ⟨p₀, p, _, _, _, hfresh, hrun, hmore, rfl, (hbusy 1 0).1 rfl, hwait 1 1 0 rfl rfl (by decide), ?_⟩
  refine (hclaim 1 1 (.ok 7) (by decide)).2 (.inl (.inr ⟨(0, .settle (.ok 7) [1]), ?_, rfl, by simp⟩))
  exact List.mem_cons_self

end Pool

end ByNeed
