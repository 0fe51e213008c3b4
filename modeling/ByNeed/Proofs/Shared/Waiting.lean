/-
Threads that wait for each other.

A thread keeps all cells of its open walks busy while it waits for a cell of another thread, so threads do wait while
others wait for them. Suppose the cells of a run have ranks such that a computation, whenever it is about to claim a
cell, asks for one that ranks below the cell it runs for (`Pool.Descends`). The ranks are those of one run: cells made
on the way are ranked too, and other runs may rank them in other ways.

- `step_claims`: a move leaves the claims of a thread, drops the latest of them, or adds the cell that was wanted.
- `RankedRun.falling`: the claims of a thread fall in rank from the first to the latest, over all nested walks.
- `Falling.wanted_below`: so a thread that waits holds only cells that rank above the one it waits for.
- `ranked_cells_never_deadlock`: as long as a thread has not finished, not all of them wait for cells, and no thread
  ever comes back to a cell of its own.
-/
import ByNeed.Proofs.Shared.Ownership

namespace ByNeed

variable {T C V α : Type}

/-- the cells of the open walks of a thread, the latest first -/
def Thread.claims (t : Thread T C V) : List Ref := t.stack.flatMap Frame.claimed

/-- the cell whose computation a thread runs -/
def Thread.runsFor? (t : Thread T C V) : Option Ref := t.claims.head?

/-- a thread claims a cell on demand, or as the next cell of a walk -/
theorem Thread.wanted_cases {t : Thread T C V} {r : Ref} (hwant : t.wanted? = some r) :
    (∃ stack, t = ⟨.act (.demand r), stack⟩) ∨
      ∃ claimed stack, t = ⟨.act (.ended (.ok (.cell r))), .walk claimed :: stack⟩ := by
  obtain ⟨phase, stack⟩ := t
  unfold Thread.wanted? at hwant
  split at hwant
  · rename_i hphase
    cases hphase
    cases hwant
    exact .inl ⟨stack, rfl⟩
  · rename_i hphase hstack
    cases hphase
    cases hstack
    cases hwant
    exact .inr ⟨_, _, rfl⟩
  · cases hwant

/-- a thread has finished when it hands an outcome or an abort to an empty stack -/
theorem Thread.result_cases {t : Thread T C V} {x : Except String (Outcome V)} (hresult : t.result? = some x) :
    (∃ o, t = ⟨.act (.give o), []⟩ ∧ x = .ok o) ∨ ∃ text, t = ⟨.act (.unwind text), []⟩ ∧ x = .error text := by
  obtain ⟨phase, stack⟩ := t
  unfold Thread.result? at hresult
  split at hresult
  · rename_i o hphase hstack
    cases hphase
    cases hstack
    cases hresult
    exact .inl ⟨o, rfl, rfl⟩
  · rename_i text hphase hstack
    cases hphase
    cases hstack
    cases hresult
    exact .inr ⟨text, rfl, rfl⟩
  · cases hresult

namespace Pool

/-- whatever a computation is about to claim ranks below the cell it runs for -/
def Descends [LT α] (rank : Ref → α) (p : Pool T C V) : Prop :=
  ∀ thread ∈ p.threads, ∀ q ∈ thread.runsFor?, ∀ r ∈ thread.wanted?, rank r < rank q

instance [LT α] [DecidableLT α] (rank : Ref → α) (p : Pool T C V) : Decidable (p.Descends rank) :=
  inferInstanceAs (Decidable (∀ thread ∈ p.threads, ∀ q ∈ thread.runsFor?, ∀ r ∈ thread.wanted?, rank r < rank q))

/-- one move of a pool: of a thread, of one that has finished and goes on with anything, or of one that starts -/
inductive Move (E : Engine T C V) (p : Pool T C V) : Pool T C V → Prop where
  | step (t : ThreadId) : Move E p (p.step E t)
  | again (t : ThreadId) (hfinished : (p.result? t).isSome) (control : Control T C V) :
      Move E p (p.putAct t control [])
  | spawn (control : Control T C V) : Move E p ⟨p.heap, p.events, p.threads.push ⟨.act control, []⟩⟩

/-- a run in which computations ask only for cells that rank below their own -/
abbrev RankedRun [LT α] (E : Engine T C V) (rank : Ref → α) : Pool T C V → Pool T C V → Prop :=
  Relation.ReflTransGen fun p q => Move E p q ∧ q.Descends rank

def Unfinished (p : Pool T C V) (t : ThreadId) : Prop := t < p.threads.size ∧ p.result? t = none

/-- the thread wants a cell that another thread has claimed -/
def Blocked (p : Pool T C V) (t : ThreadId) : Prop :=
  ∃ r owner, p.threads[t]?.bind Thread.wanted? = some r ∧ p.heap[r]? = some (.busy owner) ∧ owner ≠ t

/-! ## Claims of one move -/

/-- the claims of the threads of `q` come from those of threads of `p` -/
def ClaimsFrom (p q : Pool T C V) : Prop :=
  ∀ thread' ∈ q.threads, thread'.claims = [] ∨ (∃ thread ∈ p.threads, thread'.claims <:+ thread.claims) ∨
    ∃ thread ∈ p.threads, ∃ r, thread.wanted? = some r ∧ thread'.claims = r :: thread.claims

theorem ClaimsFrom.refl (p : Pool T C V) : ClaimsFrom p p := by
  intro thread hthread
  exact .inr (.inl ⟨thread, hthread, List.suffix_rfl⟩)

theorem mem_threads_put {p : Pool T C V} {me : ThreadId} {phase : Phase T C V} {stack : List (Frame T C V)}
    {thread' : Thread T C V} (h : thread' ∈ (p.put me phase stack).threads) :
    thread' = ⟨phase, stack⟩ ∨ thread' ∈ p.threads := by
  rw [put] at h
  exact (Array.mem_or_eq_of_mem_setIfInBounds h).symm

/-- `me` goes on with claims that it had, or with one more that it wanted -/
theorem claims_put {p : Pool T C V} {me : ThreadId} {thread : Thread T C V} (h : p.threads[me]? = some thread)
    {heap : Heap ThreadId C V} {events : List String} {phase : Phase T C V} {stack : List (Frame T C V)}
    (hs : stack.flatMap Frame.claimed <:+ thread.claims ∨
      ∃ r, thread.wanted? = some r ∧ stack.flatMap Frame.claimed = r :: thread.claims) :
    ClaimsFrom p (Pool.put ⟨heap, events, p.threads⟩ me phase stack) := by
  intro thread' hthread'
  rcases mem_threads_put hthread' with rfl | hhold
  · have hmem : thread ∈ p.threads := Array.mem_of_getElem? h
    rcases hs with hsuffix | ⟨r, hwant, hmore⟩
    · exact .inr (.inl ⟨thread, hmem, hsuffix⟩)
    · exact .inr (.inr ⟨thread, hmem, r, hwant, hmore⟩)
  · exact .inr (.inl ⟨thread', hhold, List.suffix_rfl⟩)

/-- frames that claim nothing come and go -/
theorem claims_same {p : Pool T C V} {me : ThreadId} {phase : Phase T C V} {stack stack' : List (Frame T C V)}
    (h : p.threads[me]? = some ⟨phase, stack⟩) {heap : Heap ThreadId C V} {events : List String}
    {phase' : Phase T C V} (hsame : stack'.flatMap Frame.claimed = stack.flatMap Frame.claimed) :
    ClaimsFrom p (Pool.put ⟨heap, events, p.threads⟩ me phase' stack') :=
  claims_put h (.inl (by rw [hsame]; exact List.suffix_rfl))

/-- the top frame is closed -/
theorem claims_close {p : Pool T C V} {me : ThreadId} {phase : Phase T C V} {frame : Frame T C V}
    {stack : List (Frame T C V)} (h : p.threads[me]? = some ⟨phase, frame :: stack⟩) {heap : Heap ThreadId C V}
    {events : List String} {phase' : Phase T C V} :
    ClaimsFrom p (Pool.put ⟨heap, events, p.threads⟩ me phase' stack) := by
  refine claims_put h (.inl ?_)
  simp only [Thread.claims, List.flatMap_cons]
  exact List.suffix_append _ _

theorem request_claims (E : Engine T C V) {p : Pool T C V} {me : ThreadId} {c : Comp T C V (Next C V)}
    {stack : List (Frame T C V)} (h : p.threads[me]? = some ⟨.act (.run c), stack⟩) :
    ClaimsFrom p (request E me p stack c) := by
  cases c with
  | done next => cases next <;> exact claims_same h rfl
  | fork permit c k =>
    intro thread' hthread'
    rcases mem_threads_put hthread' with rfl | hhold
    · exact .inr (.inl ⟨_, Array.mem_of_getElem? h, List.suffix_rfl⟩)
    · -- the threads of before, and the new one, which holds nothing
      rcases Array.mem_push.1 hhold with hhold | rfl
      · exact .inr (.inl ⟨thread', hhold, List.suffix_rfl⟩)
      · exact .inl rfl
  | _ => exact claims_same h rfl

theorem conclude_claims (E : Engine T C V) {p : Pool T C V} {me : ThreadId} {t : Outcome (Tail V)}
    {stack : List (Frame T C V)} (h : p.threads[me]? = some ⟨.act (.ended t), stack⟩) :
    ClaimsFrom p (conclude E me p t stack) := by
  match stack, t with
  | .walk claimed :: stack, .ok (.cell r) =>
    rcases p.heap.claimBy_cases me r with ⟨c, -, heq⟩ | ⟨owner, -, -, heq⟩ | ⟨o, heq, -⟩
    · simp only [conclude, heq]
      exact claims_put h (.inr ⟨r, rfl, rfl⟩)
    · simp only [conclude, heq]
      exact .refl p
    · simp only [conclude, heq]
      exact claims_close h
  | .walk claimed :: stack, .ok (.value v) => exact claims_close h
  | .walk claimed :: stack, .error e => exact claims_close h
  | [], .error e | .resume _ :: _, .error e | .visit _ _ :: _, .error e => exact claims_same h rfl
  | [], .ok t | .resume _ :: _, .ok t | .visit _ _ :: _, .ok t => cases t <;> exact claims_same h rfl

theorem deliver_claims (E : Engine T C V) {p : Pool T C V} {me : ThreadId} {o : Outcome V}
    {stack : List (Frame T C V)} (h : p.threads[me]? = some ⟨.act (.give o), stack⟩) :
    ClaimsFrom p (deliver E me p o stack) := by
  match stack, o with
  | [], o => exact claims_same h rfl
  | .resume k :: stack, o => exact claims_close h
  | .visit top work :: stack, .ok v => exact claims_close h
  | .visit top work :: stack, .error e => exact claims_close h
  | .walk claimed :: stack, o => exact claims_close h

theorem demand_claims (E : Engine T C V) {p : Pool T C V} {me : ThreadId} {r : Ref} {stack : List (Frame T C V)}
    (h : p.threads[me]? = some ⟨.act (.demand r), stack⟩) : ClaimsFrom p (demand E me p r stack) := by
  rcases p.heap.claimBy_cases me r with ⟨c, -, heq⟩ | ⟨owner, -, -, heq⟩ | ⟨o, heq, -⟩
  · simp only [demand, heq]
    exact claims_put h (.inr ⟨r, rfl, rfl⟩)
  · simp only [demand, heq]
    exact .refl p
  · simp only [demand, heq]
    exact claims_same h rfl

/-- **What a move can do** to the claims of the threads. -/
theorem step_claims (E : Engine T C V) (p : Pool T C V) (me : ThreadId) : ClaimsFrom p (p.step E me) := by
  unfold step
  cases h : p.threads[me]? with
  | none => exact .refl p
  | some t =>
    obtain ⟨phase, stack⟩ := t
    match phase with
    | .act (.run c) => exact request_claims E h
    | .act (.ended t) => exact conclude_claims E h
    | .act (.give o) => exact deliver_claims E h
    | .act (.demand r) => exact demand_claims E h
    | .act (.traverse top []) | .act (.traverse top (r :: work)) => exact claims_same h rfl
    | .act (.unwind text) =>
      cases stack with
      | nil => exact .refl p
      | cons frame stack => exact claims_close h
    | .publish o [] | .poison text [] | .publish o (r :: cells) | .poison text (r :: cells) =>
      exact claims_same h rfl
    | .join child k =>
      simp only
      cases p.result? child with
      | none => exact .refl p
      | some result => cases result <;> exact claims_same h rfl

/-! ## Ranks along a run -/

/-- the claims of every thread fall in rank from the first to the latest -/
def Falling [LT α] (rank : Ref → α) (p : Pool T C V) : Prop :=
  ∀ thread ∈ p.threads, thread.claims.Pairwise fun r q => rank r < rank q

section

variable [Preorder α] {rank : Ref → α} {E : Engine T C V} {p₀ p q : Pool T C V}

/-- what a thread wants ranks below everything it holds -/
theorem Falling.wanted_below (hfalling : p.Falling rank) (hdescends : p.Descends rank) {thread : Thread T C V}
    (hthread : thread ∈ p.threads) {r : Ref} (hwant : thread.wanted? = some r) :
    ∀ x ∈ thread.claims, rank r < rank x := by
  have hfall := hfalling thread hthread
  have hdesc := hdescends thread hthread
  unfold Thread.runsFor? at hdesc
  cases hc : thread.claims with
  | nil => simp
  | cons x xs =>
    rw [hc] at hfall hdesc
    have hx : rank r < rank x := hdesc x rfl r hwant
    intro y hy
    rcases List.mem_cons.1 hy with rfl | hy
    · exact hx
    · exact hx.trans ((List.pairwise_cons.1 hfall).1 y hy)

theorem Falling.step (hfalling : p.Falling rank) (hdescends : p.Descends rank) (E : Engine T C V) (me : ThreadId) :
    (p.step E me).Falling rank := by
  intro thread' hthread'
  rcases step_claims E p me thread' hthread' with hnone | ⟨thread, hthread, hsuffix⟩ |
    ⟨thread, hthread, r, hwant, hmore⟩
  · rw [hnone]
    exact List.Pairwise.nil
  · exact (hfalling thread hthread).sublist hsuffix.sublist
  · rw [hmore]
    exact List.pairwise_cons.2 ⟨hfalling.wanted_below hdescends hthread hwant, hfalling thread hthread⟩

/-- so does every other move: a thread that begins holds nothing -/
theorem Falling.move (hfalling : p.Falling rank) (hdescends : p.Descends rank) (hmove : Move E p q) :
    q.Falling rank := by
  cases hmove with
  | step t => exact hfalling.step hdescends E t
  | again t hfinished control =>
    intro thread' hthread'
    rcases mem_threads_put hthread' with rfl | hhold
    · exact List.Pairwise.nil
    · exact hfalling thread' hhold
  | spawn control =>
    intro thread' hthread'
    rcases Array.mem_push.1 hthread' with hhold | rfl
    · exact hfalling thread' hhold
    · exact List.Pairwise.nil

/-- before anything has been claimed there is nothing to compare -/
theorem Fresh.claims (hfresh : p.Fresh) {thread : Thread T C V} (hthread : thread ∈ p.threads) :
    thread.claims = [] := by
  obtain ⟨t, ht⟩ := Array.mem_iff_getElem?.1 hthread
  have hchains : thread.chains = [] := by
    have := hfresh.idle t
    simpa [chains, ht] using this
  have hstack : thread.stack.filterMap Frame.chain? = [] := (List.append_eq_nil_iff.1 hchains).2
  rw [Thread.claims, ← flatten_chains, hstack]
  rfl

theorem Fresh.descends (hfresh : p.Fresh) : p.Descends rank := by
  intro thread hthread q hq
  rw [Thread.runsFor?, hfresh.claims hthread] at hq
  cases hq

theorem Fresh.falling (hfresh : p.Fresh) : p.Falling rank := by
  intro thread hthread
  rw [hfresh.claims hthread]
  exact List.Pairwise.nil

namespace RankedRun

theorem descends (hrun : RankedRun E rank p₀ p) (hfresh : p₀.Fresh) : p.Descends rank := by
  cases hrun with
  | refl => exact hfresh.descends
  | tail _ hlast => exact hlast.2

theorem falling (hrun : RankedRun E rank p₀ p) (hfresh : p₀.Fresh) : p.Falling rank := by
  induction hrun with
  | refl => exact hfresh.falling
  | tail hbefore hlast ih => exact ih.move (descends hbefore hfresh) hlast.1

/-- a ranked run is a run -/
theorem toRun (hrun : RankedRun E rank p₀ p) : ∃ past, Run E p₀ past p := by
  induction hrun with
  | refl => exact ⟨[], .start⟩
  | tail hbefore hlast ih =>
    obtain ⟨past, hrun'⟩ := ih
    cases hlast.1 with
    | step t => exact ⟨_, hrun'.step t⟩
    | again t hfinished control => exact ⟨_, hrun'.again t hfinished control⟩
    | spawn control => exact ⟨_, hrun'.spawn control⟩

end RankedRun

end

/-! ## Waiting -/

/-- a thread that is about to claim a cell holds the cells of its open walks and no others -/
theorem held_of_wanted {p : Pool T C V} {t : ThreadId} {thread : Thread T C V} (ht : p.threads[t]? = some thread)
    {r : Ref} (hwant : thread.wanted? = some r) : p.held t = thread.claims := by
  rw [held_of_thread ht]
  rcases Thread.wanted_cases hwant with ⟨stack, rfl⟩ | ⟨claimed, stack, rfl⟩ <;> rfl

/-- a thread that holds a cell has not finished -/
theorem unfinished_of_held {p : Pool T C V} {t : ThreadId} {r : Ref} (hr : r ∈ p.held t) : p.Unfinished t := by
  constructor
  · by_contra hlt
    have hnone : p.threads[t]? = none := by simpa using hlt
    simp [held, chains, hnone] at hr
  · cases hres : p.result? t with
    | none => rfl
    | some x =>
      have hnil := chains_eq_nil_of_result (p := p) (t := t) (by rw [hres]; rfl)
      rw [held, hnil] at hr
      cases hr

/-- a thread that has not finished can move, unless it waits for a cell or for a thread that it started -/
theorem ready_of_not_blocked {p : Pool T C V} {t : ThreadId} (hunfinished : p.Unfinished t) (hfree : ¬ p.Blocked t)
    (halone : ∀ child k stack, p.threads[t]? ≠ some ⟨.join child k, stack⟩) : p.ready t = true := by
  obtain ⟨hlt, hres⟩ := hunfinished
  obtain ⟨⟨phase, stack⟩, ht⟩ : ∃ thread, p.threads[t]? = some thread := ⟨_, Array.getElem?_eq_getElem hlt⟩
  have hresult : (⟨phase, stack⟩ : Thread T C V).result? = none := by simpa [result?, ht] using hres
  have hfree' : ((⟨phase, stack⟩ : Thread T C V).wanted?.map (p.heap.heldByOther t)).getD false = false := by
    cases hw : (⟨phase, stack⟩ : Thread T C V).wanted? with
    | none => rfl
    | some r =>
      simp only [Option.map_some, Option.getD_some, Heap.heldByOther]
      cases hr : p.heap[r]? with
      | none => rfl
      | some x =>
        cases x with
        | busy owner =>
          have howner : owner = t := by
            by_contra hne
            exact hfree ⟨r, owner, by simp [ht, hw], hr, hne⟩
          simp [howner]
        | pending c => rfl
        | value v => rfl
        | failed e => rfl
  cases phase with
  | join child k => exact absurd ht (halone child k stack)
  | act control => simp [ready, waiting, ht, hresult, hfree']
  | publish o cells => simp [ready, waiting, ht, hresult, hfree']
  | poison text cells => simp [ready, waiting, ht, hresult, hfree']

section

variable [Preorder α] {rank : Ref → α} {E : Engine T C V} {p₀ p : Pool T C V}

/-- the thread that a blocked thread waits for, if blocked itself, waits for a cell of smaller rank -/
theorem blocked_descends (hfresh : p₀.Fresh) (hrun : RankedRun E rank p₀ p) {r s : Ref} {owner : ThreadId}
    (hbusy : p.heap[r]? = some (.busy owner)) (hwant : p.threads[owner]?.bind Thread.wanted? = some s) :
    rank s < rank r := by
  obtain ⟨past, hrun'⟩ := hrun.toRun
  obtain ⟨thread, ht, hwant'⟩ := Option.bind_eq_some_iff.1 hwant
  have hheld : r ∈ p.held owner := ((hrun'.sound hfresh).tight r owner hbusy).resolve_right id
  rw [held_of_wanted ht hwant'] at hheld
  exact (hrun.falling hfresh).wanted_below (hrun.descends hfresh) (Array.mem_of_getElem? ht) hwant' r hheld

/-- no thread is about to claim a cell that it has claimed already -/
theorem not_own_of_wanted (hfresh : p₀.Fresh) (hrun : RankedRun E rank p₀ p) {t : ThreadId} {r : Ref}
    (hwant : p.threads[t]?.bind Thread.wanted? = some r) : p.heap[r]? ≠ some (.busy t) := by
  intro hbusy
  exact lt_irrefl _ (blocked_descends hfresh hrun hbusy hwant)

/-- not all threads that have not finished wait for cells: of the cells that are wanted, take one of least rank -/
theorem exists_not_blocked (hfresh : p₀.Fresh) (hrun : RankedRun E rank p₀ p) {t : ThreadId}
    (hunfinished : p.Unfinished t) :
    ∃ u, p.Unfinished u ∧ ¬ p.Blocked u := by
  by_contra hall
  have hblocked : ∀ u, p.Unfinished u → p.Blocked u := by
    intro u hu
    by_contra hfree
    exact hall ⟨u, hu, hfree⟩
  let wanted : Set Ref := {r | ∃ u < p.threads.size, p.threads[u]?.bind Thread.wanted? = some r}
  have hfinite : wanted.Finite := by
    refine ((Finset.range p.threads.size).image fun u =>
      (p.threads[u]?.bind Thread.wanted?).getD 0).finite_toSet.subset ?_
    rintro r ⟨u, hu, hr⟩
    simp only [Finset.coe_image, Set.mem_image, Finset.mem_coe, Finset.mem_range]
    exact ⟨u, hu, by rw [hr]; rfl⟩
  obtain ⟨r₀, -, hwant₀, -⟩ := hblocked t hunfinished
  obtain ⟨r, ⟨u, hu, hwant⟩, hleast⟩ := hfinite.exists_minimalFor rank wanted ⟨r₀, t, hunfinished.1, hwant₀⟩
  obtain ⟨past, hrun'⟩ := hrun.toRun
  -- the thread that wants `r` has not finished, as it wants something; so the owner of `r` is blocked as well
  have hopen : p.Unfinished u := by
    refine ⟨hu, ?_⟩
    obtain ⟨thread, ht, hw⟩ := Option.bind_eq_some_iff.1 hwant
    rw [result?, ht]
    rcases Thread.wanted_cases hw with ⟨stack, rfl⟩ | ⟨claimed, stack, rfl⟩ <;> rfl
  obtain ⟨r', owner, hwant', hbusy, -⟩ := hblocked u hopen
  rw [hwant] at hwant'
  cases hwant'
  have hheld : r ∈ p.held owner := ((hrun'.sound hfresh).tight r owner hbusy).resolve_right id
  have howner := unfinished_of_held hheld
  obtain ⟨s, -, hwants, -⟩ := hblocked owner howner
  have hlt : rank s < rank r := blocked_descends hfresh hrun hbusy hwants
  have hle : rank r ≤ rank s := hleast ⟨owner, howner.1, hwants⟩ hlt.le
  exact absurd hle hlt.not_ge

/-- **Ranked cells never deadlock.** In every interleaving in which computations ask only for cells that rank below
their own, aborts included: as long as some thread has not finished, some such thread does not wait for a cell, and it
can move unless it waits for a thread that it started. No thread is about to claim a cell that it has claimed already,
so the answer to a claim is never the black hole of re-entry but the outcome that the cell holds. -/
theorem ranked_cells_never_deadlock (hfresh : p₀.Fresh) (hrun : RankedRun E rank p₀ p) :
    (∀ t, p.Unfinished t → ∃ u, p.Unfinished u ∧ ¬ p.Blocked u ∧
      ((∀ child k stack, p.threads[u]? ≠ some ⟨.join child k, stack⟩) → p.ready u = true)) ∧
    ∀ (t : ThreadId) (r : Ref), p.threads[t]?.bind Thread.wanted? = some r → p.heap[r]? ≠ some (.busy t) ∧
      ∀ o, r < p.heap.size → ((p.heap.claimBy t r).1 = some (.outcome o) ↔ p.heap.outcome? r = some o) := by
  refine ⟨fun t hunfinished => ?_, fun t r hwant => ?_⟩
  · obtain ⟨u, hopen, hfree⟩ := exists_not_blocked hfresh hrun hunfinished
    exact ⟨u, hopen, hfree, ready_of_not_blocked hopen hfree⟩
  · have hnot := not_own_of_wanted hfresh hrun hwant
    refine ⟨hnot, fun o hr => ?_⟩
    rw [claimBy_outcome_iff p.heap t hr o]
    exact ⟨fun h => h.resolve_right fun hb => hnot hb.1, .inl⟩

/-- three cells: 2 forces 1, whatever comes of it, and goes on with 0; 1 goes on with 0; 0 aborts -/
def ladder : Engine Empty Nat Nat where
  body
    | 2 => .force 1 fun _ => .done (.cell 0)
    | 1 => .done (.cell 0)
    | _ => .abort "boom"
  parts _ := []
  fuel := 0

/-- thread 0 holds 2 and waits for 1, which thread 1 holds while it runs the code of 0; so thread 1 can move -/
theorem ranked_cells_never_deadlock_ladder :
    ∃ p₀ p : Pool Empty Nat Nat, p₀.Fresh ∧ RankedRun ladder id p₀ p ∧ p.Unfinished 0 ∧ p.Blocked 0 ∧
      (∃ u, p.Unfinished u ∧ ¬ p.Blocked u) ∧ p.heap[1]? ≠ some (.busy 0) := by
  let p₀ : Pool Empty Nat Nat := ⟨#[.pending 0, .pending 1, .pending 2], [], #[.demanding 2, .demanding 1]⟩
  let p : Pool Empty Nat Nat := ⟨#[.busy 1, .busy 1, .busy 0], [],
    #[⟨.act (.demand 1), [.resume fun _ => .done (.cell 0), .walk [2]]⟩, ⟨.act (.run (.abort "boom")), [.walk [0, 1]]⟩]⟩
  have hfresh : p₀.Fresh := by
    refine ⟨fun r owner => ?_, fun t => ?_⟩
    · match r with
      | 0 | 1 | 2 => simp [p₀]
      | r + 3 => simp [p₀]
    · match t with
      | 0 | 1 => rfl
      | t + 2 => simp [p₀, Pool.chains]
  -- each thread claims its cell; thread 0 asks for 1, and thread 1 goes on to 0 and claims that too
  have hclaimed : RankedRun ladder id p₀ ⟨#[.pending 0, .busy 1, .busy 0], [],
      #[⟨.act (.run (ladder.body 2)), [.walk [2]]⟩, ⟨.act (.run (ladder.body 1)), [.walk [1]]⟩]⟩ :=
    .tail (.single ⟨.step 0, by decide⟩) ⟨.step 1, by decide⟩
  have hasked : RankedRun ladder id p₀ ⟨#[.pending 0, .busy 1, .busy 0], [],
      #[⟨.act (.demand 1), [.resume fun _ => .done (.cell 0), .walk [2]]⟩,
        ⟨.act (.ended (.ok (.cell 0))), [.walk [1]]⟩]⟩ :=
    .tail (.tail hclaimed ⟨.step 0, by decide⟩) ⟨.step 1, by decide⟩
  have hrun : RankedRun ladder id p₀ p := .tail hasked ⟨.step 1, by decide⟩
  obtain ⟨hmove, hsafe⟩ := ranked_cells_never_deadlock hfresh hrun
  have hopen : p.Unfinished 0 := ⟨by decide, rfl⟩
  obtain ⟨u, hu, hfree, -⟩ := hmove 0 hopen
  exact ⟨p₀, p, hfresh, hrun, hopen, ⟨1, 1, rfl, rfl, by decide⟩, ⟨u, hu, hfree⟩, (hsafe 0 1 rfl).1⟩

end

end Pool

end ByNeed
